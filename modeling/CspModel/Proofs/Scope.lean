import CspModel.Proofs.Expansion
import CspModel.Proofs.Extensions

/-! # The variables of a document

What is written of constraints has no other variables than the constraints.  Laying a
constraint out, making the template of similar ones, folding, turning tables into rows and
leaving notes out all keep the variables in the store; so every variable of an entry is
declared there (`Grouping.over_write`, `Rows.over_ofEntries`).
-/
namespace CspModel

/-! ### Over the variables of a store -/

/-- Whether a content has variables of the store only. -/
def Content.Over (s : Store) : Content → Prop
  | tree predicate => predicate.Over s.Declares
  | parameters list => ∀ p ∈ list, p.Over s
  | condition _ (.parameter p) => p.Over s
  | _ => True

def Layout.Over (s : Store) (layout : Layout) : Prop :=
  ∀ a ∈ layout.arguments, a.content.Over s

mutual
/-- Whether an entry has variables of the store only. -/
def Written.Over (s : Store) : Written → Prop
  | .constraint layout _ => layout.Over s
  | .group template arguments _ => template.Over s ∧ ∀ list ∈ arguments, ∀ p ∈ list, p.Over s
  | .slide list _ _ template _ => (∀ v ∈ list, s.Declares v) ∧ template.Over s
  | .equalities list values _ => (∀ p ∈ list, p.Over s) ∧ ∀ p ∈ values, p.Over s
  | .block entries _ => Written.OverAll s entries

/-- Whether several entries have variables of the store only. -/
def Written.OverAll (s : Store) : List Written → Prop
  | [] => True
  | w :: rest => w.Over s ∧ Written.OverAll s rest
end

section
variable {s : Store}

theorem Parameter.over_var {v : Variable} (h : s.Declares v) : (Parameter.var v).Over s :=
  List.forall_mem_singleton.mpr h

theorem Parameter.over_ofExpr {e : Expr} (h : e.Over s.Declares) : (ofExpr e).Over s := by
  cases e with
  | const value => exact fun v hv => nomatch hv
  | _ => exact h

theorem Parameter.spreads_over : Spreads (Parameter.Over s) where
  integer _ := fun _ hv => nomatch hv
  range _ _ := fun _ hv => nomatch hv
  negation _ h := List.forall_mem_singleton.mpr (h _ (List.mem_singleton_self _))

theorem Content.Every.over {content : Content}
    (h : content.Every (Parameter.Over s) (Expr.Over s.Declares)) : content.Over s := by
  cases content with
  | condition comparison target => cases target <;> exact h
  | template => trivial
  | _ => exact h

namespace Layout

/-- The layout of a constraint has no other variables than the constraint. -/
theorem over_ofRelation {r : Relation} (h : r.Over s.Declares) : (ofRelation r).Over s :=
  fun a ha => (every_ofRelation Parameter.spreads_over
    (fun e he => Parameter.over_ofExpr (h e he)) h a ha).over

end Layout

/-! ### Templates -/

theorem over_placeholdersFrom (numbered : Bool) (positions : List Nat) (number p : Nat)
    {as : List Argument} (h : ∀ a ∈ as, a.content.Over s) :
    ∀ a ∈ placeholdersFrom numbered positions number (as.zipIdx p), a.content.Over s := by
  induction as generalizing number p with
  | nil => exact fun a ha => nomatch ha
  | cons a rest ih =>
    obtain ⟨ha, hrest⟩ := List.forall_mem_cons.mp h
    rw [List.zipIdx_cons, placeholdersFrom]
    split
    · refine List.forall_mem_cons.mpr ⟨?_, ih _ _ hrest⟩
      -- placeholders stand for no variables
      intro p hp v hv
      split at hp
      · obtain ⟨k, _, rfl⟩ := List.mem_map.mp hp
        cases hv
      · obtain rfl := List.mem_singleton.mp hp
        cases hv
    · exact List.forall_mem_cons.mpr ⟨ha, ih _ _ hrest⟩

theorem over_argumentsAt (positions : List Nat) {layout : Layout} (h : layout.Over s) :
    ∀ p ∈ argumentsAt positions layout, p.Over s := by
  intro p hp
  obtain ⟨q, _, hp⟩ := List.mem_flatMap.mp hp
  cases ha : layout.arguments[q]? with
  | none =>
    rw [ha] at hp
    cases hp
  | some a =>
    have hover := h a (List.mem_of_getElem? ha)
    rw [ha, Option.bind_some] at hp
    cases hlist : a.content.parameters? with
    | none =>
      rw [hlist] at hp
      cases hp
    | some list =>
      rw [hlist] at hp
      rw [Content.eq_of_parameters? hlist] at hover
      exact hover p hp

/-- The template of similar constraints and the arguments of every member. -/
theorem over_template? {names : Variable → String} {numbered : Bool} {first : Relation}
    {rest : List Relation} {positions : List Nat}
    (hsimilar : ∀ r ∈ rest,
      (Form.ofRelation names first).SimilarTo positions (Form.ofRelation names r))
    (hover : ∀ r ∈ first :: rest, r.Over s.Declares) {template : Layout}
    {arguments : List (List Parameter)}
    (h : template? names numbered ((first :: rest).map (Form.ofRelation names)) =
      some (template, arguments)) :
    template.Over s ∧ ∀ list ∈ arguments, ∀ p ∈ list, p.Over s := by
  rcases template?_cases hsimilar h with ⟨e, es, heq, hes, h⟩ | ⟨_, _, h⟩
  · obtain ⟨_, _, _, _, htemplate, _⟩ := exists_of_predicateTemplate (List.cons_ne_nil e es) hes h
    refine ⟨?_, fun list hlist p hp => ?_⟩
    · rw [htemplate]
      exact List.forall_mem_singleton.mpr trivial
    · obtain ⟨e', he', hleaf⟩ :=
        mem_leaves_of_predicateTemplate (List.cons_ne_nil e es) hes h hlist hp
      have hr : Relation.intension e' ∈ first :: rest := heq ▸ List.mem_map_of_mem he'
      rcases Piece.mem_leaves hleaf with ⟨v, hv, rfl⟩ | ⟨n, rfl⟩
      · exact Parameter.over_var (hover _ hr e' (List.mem_singleton_self e') v hv)
      · exact fun v hv => nomatch hv
  · obtain rfl : (layoutTemplate _ _ positions numbered).1 = template := congrArg Prod.fst h
    obtain rfl : List.map (argumentsAt positions) _ = arguments := congrArg Prod.snd h
    have hlayout : ∀ r ∈ first :: rest, (Layout.ofRelation r).Over s := fun r hr =>
      Layout.over_ofRelation (hover r hr)
    refine ⟨over_placeholdersFrom _ _ _ _ (hlayout first List.mem_cons_self), ?_⟩
    exact List.forall_mem_map.mpr (List.forall_mem_map.mpr fun r hr =>
      over_argumentsAt positions (hlayout r hr))

/-! ### Entries -/

theorem Sliding.list_of_ofWindows? {windows : List (List Variable)} {sliding : Sliding}
    (h : ofWindows? windows = some sliding) : sliding.list = windows.flatten.eraseDups := by
  unfold ofWindows? at h
  split at h
  · cases h
  · split at h
    · cases h
    · obtain ⟨offset, _, h⟩ := Option.bind_eq_some_iff.mp h
      obtain ⟨circular, _, h⟩ := List.exists_of_findSome?_eq_some h
      obtain ⟨_, h⟩ := Option.ite_none_right_eq_some.mp h
      cases h
      rfl

namespace Grouping

variable {g : Grouping}

theorem over_alone {r : Relation} (h : r.Over s.Declares) : (Written.alone r).Over s :=
  Layout.over_ofRelation h

theorem over_of_equality? {r : Relation} (hr : r.Over s.Declares) {x value : Parameter}
    (h : equality? (Form.ofRelation g.names r) = some (x, value)) : x.Over s ∧ value.Over s := by
  rcases r.form_eq g.names with ⟨e, rfl, hform⟩ | hform
  · have hleaf : ∀ v, .var v ∈ Piece.leaves e → s.Declares v := fun v hv => by
      rcases Piece.mem_leaves hv with ⟨w, hw, hvw⟩ | ⟨n, hn⟩
      · obtain rfl := Parameter.var.inj hvw
        exact hr e (List.mem_singleton_self e) v hw
      · cases hn
    have hinteger : ∀ n, (Parameter.integer n).Over s := fun n v hv => nomatch hv
    rw [hform] at h
    unfold equality? at h
    simp only at h
    split at h
    · split at h
      · rename_i hleaves
        cases h
        exact ⟨Parameter.over_var (hleaf _ (hleaves ▸ List.mem_cons_self)), hinteger _⟩
      · rename_i hleaves
        cases h
        exact ⟨Parameter.over_var (hleaf _ (hleaves ▸ List.mem_cons_of_mem _
          List.mem_cons_self)), hinteger _⟩
      · cases h
    · cases h
  · rw [hform] at h
    cases h

/-- What constraints over the variables of a store yield is over them. -/
theorem Yields.over {relations : List Relation} (hover : ∀ r ∈ relations, r.Over s.Declares)
    {w : Written} (h : g.Yields relations w) : w.Over s := by
  cases h with
  | alone hr => exact over_alone (hover _ hr)
  | equalities hpairs =>
    have hparts : ∀ pair : Parameter × Parameter, pair ∈ _ → pair.1.Over s ∧ pair.2.Over s :=
      fun pair hp => by
        obtain ⟨r, hr, hpair⟩ := hpairs pair hp
        exact over_of_equality? (hover r hr) hpair
    exact ⟨List.forall_mem_map.mpr fun pair hp => (hparts pair hp).1,
      List.forall_mem_map.mpr fun pair hp => (hparts pair hp).2⟩
  | group h =>
    obtain ⟨first, rest, positions, hpart, hsimilar, htemplate⟩ := h
    exact over_template? hsimilar (fun r hr => hover r (hpart hr)) htemplate
  | slide h hsliding =>
    obtain ⟨first, rest, positions, hpart, hsimilar, htemplate⟩ := h
    obtain ⟨htemplate, harguments⟩ :=
      over_template? hsimilar (fun r hr => hover r (hpart hr)) htemplate
    refine ⟨fun v hv => ?_, htemplate⟩
    -- the list of the slide is read off its windows
    obtain ⟨windows, rfl, hwindows⟩ := exists_of_ofArguments? hsliding
    rw [Sliding.list_of_ofWindows? hwindows, List.mem_eraseDups] at hv
    obtain ⟨window, hwindow, hv⟩ := List.mem_flatten.mp hv
    exact harguments _ (List.mem_map_of_mem hwindow) (.var v) (List.mem_map_of_mem hv) v
      (List.mem_singleton_self v)

end Grouping

/-! ### Tables and notes -/

theorem Layout.Over.withRows {layout : Layout} (h : layout.Over s)
    (rows : List (List RowCell)) : (Rows.withRows layout rows).Over s := by
  intro a ha
  simp only [Rows.withRows] at ha
  split at ha
  · rename_i list table rest harguments
    rw [Layout.Over, harguments] at h
    obtain ⟨hlist, h⟩ := List.forall_mem_cons.mp h
    obtain ⟨_, hrest⟩ := List.forall_mem_cons.mp h
    rcases List.mem_cons.mp ha with rfl | ha
    · exact hlist
    · rcases List.mem_cons.mp ha with rfl | ha
      · trivial
      · exact hrest a ha
  · exact h a ha

theorem Rows.over_materialize {form : TableForm} {variablesOf : Parameter → List Variable}
    {layout layout' : Layout} (h : layout.Over s)
    (hlayout : materialize s form variablesOf layout = .ok layout') : layout'.Over s := by
  rcases Written.eq_or_eq_withRows_of_materialize hlayout with rfl | ⟨rows, rfl⟩
  · exact h
  · exact h.withRows rows

mutual
theorem Rows.over_ofEntry {form : TableForm} : (w : Written) → {w' : Written} →
    w.Over s → ofEntry s form w = .ok w' → w'.Over s
  | .constraint layout d, w', h, hw => by
    obtain ⟨layout', hlayout, rfl⟩ := Except.map_eq_ok.mp hw
    have h : layout.Over s := h
    exact over_materialize h hlayout
  | .group template arguments d, w', h, hw => by
    obtain ⟨template', htemplate, rfl⟩ := Except.map_eq_ok.mp hw
    exact ⟨over_materialize h.1 htemplate, h.2⟩
  | .slide list offset circular template d, w', h, hw => by
    obtain ⟨template', htemplate, rfl⟩ := Except.map_eq_ok.mp hw
    exact ⟨h.1, over_materialize h.2 htemplate⟩
  | .equalities list values d, w', h, hw => by
    cases hw
    exact h
  | .block entries d, w', h, hw => by
    obtain ⟨entries', hentries, rfl⟩ := Except.map_eq_ok.mp hw
    exact over_ofEntries entries h hentries

/-- Turning tables into rows keeps the variables. -/
theorem Rows.over_ofEntries {form : TableForm} : (entries : List Written) →
    {entries' : List Written} → Written.OverAll s entries →
    ofEntries s form entries = .ok entries' → Written.OverAll s entries'
  | [], entries', h, hentries => by
    cases hentries
    trivial
  | w :: rest, entries', h, hentries => by
    obtain ⟨w', hw, hentries⟩ := Except.bind_eq_ok.mp hentries
    obtain ⟨rest', hrest, rfl⟩ := Except.map_eq_ok.mp hentries
    exact ⟨over_ofEntry w h.1 hw, over_ofEntries rest h.2 hrest⟩
end

mutual
theorem Written.over_dropNotes : (w : Written) → w.Over s → w.dropNotes.Over s
  | .constraint _ _, h => h
  | .group _ _ _, h => h
  | .slide _ _ _ _ _, h => h
  | .equalities _ _ _, h => h
  | .block entries _, h => over_dropNotesAll entries h

/-- Leaving notes out keeps the variables. -/
theorem Written.over_dropNotesAll : (entries : List Written) → OverAll s entries →
    OverAll s (dropNotesAll entries)
  | [], h => h
  | w :: rest, h => ⟨over_dropNotes w h.1, over_dropNotesAll rest h.2⟩
end

end

end CspModel
