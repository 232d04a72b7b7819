import CspModel.Proofs.Frames

/-! # The parts of a run

What is left when the first constraint of a run has taken along all that is similar to it
has no predicate with its pieces.  So by induction on the run no part shares its pieces
with another one: a part of predicates holds all the predicates of the run that agree with
one of them (`exists_partition`).  The parts come in the order of their first members,
because whatever is left over keeps its order.

The members of a part are then written as one entry, a group or an instantiation, unless
there is nothing to tell them apart (`Grouping.folds_writePart`).
-/
namespace CspModel

open CspModel.Expr

/-! ### Pieces of forms -/

/-- The pieces of a predicate. -/
def Form.pieces? : Form → Option (List Piece)
  | predicate pieces _ => some pieces
  | laidOut _ => none

/-- A form joins a predicate exactly when it is a predicate with the same pieces. -/
theorem joins?_isSome_iff {first form : Form} {settled : Option (List Nat)}
    {pieces : List Piece} (hfirst : first.pieces? = some pieces) :
    (joins? first settled form).isSome = true ↔ form.pieces? = some pieces := by
  cases first with
  | laidOut layout => cases hfirst
  | predicate pieces' leaves =>
    obtain rfl := Option.some.inj hfirst
    cases form with
    | laidOut layout => simp [joins?, Form.pieces?]
    | predicate pieces'' leaves' =>
      by_cases h : pieces' = pieces''
      · simp [joins?, Form.pieces?, h]
      · simp [joins?, Form.pieces?, h, Ne.symm h]

/-- What joins has the same pieces, or is no predicate like the first form. -/
theorem pieces?_of_joins? {first form : Form} {settled settled' : Option (List Nat)}
    (h : joins? first settled form = some settled') : form.pieces? = first.pieces? := by
  cases first with
  | predicate pieces leaves =>
    exact (joins?_isSome_iff rfl).mp (by rw [h]; rfl)
  | laidOut layout =>
    cases form with
    | predicate pieces leaves => cases h
    | laidOut layout' => rfl

/-! ### Partitioning -/

section
variable {α : Type} (f : α → Candidate)

/-- Taking along what is similar, of whatever the candidates come from. -/
theorem exists_takeSimilar (first : Form) (settled : Option (List Nat)) (list : List α) :
    ∃ members others : List α,
      takeSimilar first settled (list.map f) = (members.map f, others.map f) ∧
      (members ++ others).Perm list ∧ members.Sublist list ∧ others.Sublist list ∧
      (∀ a ∈ members, (f a).form.pieces? = first.pieces?) ∧
      ∀ a ∈ others, first.pieces? ≠ none → (f a).form.pieces? ≠ first.pieces? := by
  induction list generalizing settled with
  | nil => exact ⟨[], [], rfl, .nil, .slnil, .slnil, by simp, by simp⟩
  | cons a rest ih =>
    rw [List.map_cons, takeSimilar]
    cases hjoins : joins? first settled (f a).form with
    | some settled' =>
      obtain ⟨members, others, heq, hperm, hmembers, hothers, hsame, hother⟩ := ih settled'
      refine ⟨a :: members, others, by simp [heq], hperm.cons a, hmembers.cons_cons a,
        hothers.cons a, List.forall_mem_cons.mpr ⟨pieces?_of_joins? hjoins, hsame⟩, hother⟩
    | none =>
      obtain ⟨members, others, heq, hperm, hmembers, hothers, hsame, hother⟩ := ih settled
      refine ⟨members, a :: others, by simp [heq], List.perm_middle.trans (hperm.cons a),
        hmembers.cons a, hothers.cons_cons a, hsame,
        List.forall_mem_cons.mpr ⟨fun hne heq => ?_, hother⟩⟩
      obtain ⟨pieces, hpieces⟩ := Option.ne_none_iff_exists'.mp hne
      have hsome : (joins? first settled (f a).form).isSome = true :=
        (joins?_isSome_iff hpieces).mpr (heq.trans hpieces)
      rw [hjoins] at hsome
      cases hsome

/-- The parts of a list hold every entry once, in order, and are themselves in the order of
their first members.  A part with a predicate holds exactly the predicates with its
pieces. -/
theorem exists_partition {R : α → α → Prop} {list : List α} (hR : list.Pairwise R) :
    ∃ parts : List (List α), partition (list.map f) = parts.map (List.map f) ∧
      parts.flatten.Perm list ∧ (∀ part ∈ parts, part.Sublist list) ∧
      (parts.Pairwise fun a b => ∀ x ∈ a.head?, ∀ y ∈ b, R x y) ∧
      ∀ part ∈ parts, ∀ x ∈ part, ∀ pieces, (f x).form.pieces? = some pieces →
        ∀ y ∈ list, y ∈ part ↔ (f y).form.pieces? = some pieces := by
  induction hn : list.length using Nat.strongRecOn generalizing list with
  | ind n ih =>
    cases list with
    | nil =>
      refine ⟨[], ?_, .nil, fun part hpart => (nomatch hpart), .nil,
        fun part hpart => nomatch hpart⟩
      rw [List.map_nil, partition, List.map_nil]
    | cons first rest =>
      obtain ⟨members, others, heq, hperm, hmembers, hothers, hsame, hother⟩ :=
        exists_takeSimilar f (f first).form none rest
      obtain ⟨hfirst, hrest⟩ := List.pairwise_cons.mp hR
      have hlt : others.length < n := by
        rw [← hn]
        exact Nat.lt_succ_of_le hothers.length_le
      obtain ⟨parts, hparts, hflatten, hsublists, hordered, hclasses⟩ :=
        ih _ hlt (hrest.sublist hothers) rfl
      have hmem : ∀ y ∈ rest, y ∈ members ∨ y ∈ others := fun y hy =>
        List.mem_append.mp (hperm.mem_iff.mpr hy)
      refine ⟨(first :: members) :: parts, ?_, ?_, ?_, ?_, ?_⟩
      · rw [List.map_cons, partition, heq, hparts]
        rfl
      · exact ((hflatten.append_left _).trans hperm).cons first
      · refine List.forall_mem_cons.mpr ⟨hmembers.cons_cons first, fun part hpart => ?_⟩
        exact ((hsublists part hpart).trans hothers).cons first
      · refine .cons (fun part hpart x hx y hy => ?_) hordered
        obtain rfl := Option.some.inj hx
        exact hfirst y (hothers.subset ((hsublists part hpart).subset hy))
      · have hclass : ∀ x ∈ first :: members, (f x).form.pieces? = (f first).form.pieces? :=
          List.forall_mem_cons.mpr ⟨rfl, hsame⟩
        refine List.forall_mem_cons.mpr ⟨fun x hx pieces hpieces y hy => ?_,
          fun part hpart x hx pieces hpieces y hy => ?_⟩
        -- the part of the first entry: nothing with its pieces is left over
        · rw [hclass x hx] at hpieces
          refine ⟨fun hpart => (hclass y hpart).trans hpieces, fun hy' => ?_⟩
          rcases List.mem_cons.mp hy with rfl | hy
          · exact List.mem_cons_self
          · refine List.mem_cons_of_mem _ ((hmem y hy).resolve_right fun hleft => ?_)
            exact hother y hleft (by simp [hpieces]) (hy'.trans hpieces.symm)
        -- a later part: its pieces are not those of the first entry
        · have hleft := (hsublists part hpart).subset hx
          have hne : (f first).form.pieces? ≠ some pieces := fun heq =>
            hother x hleft (by simp [heq]) (hpieces.trans heq.symm)
          refine ⟨fun hy' => ?_, fun hy' => ?_⟩
          · exact (hclasses part hpart x hx pieces hpieces y
              ((hsublists part hpart).subset hy')).mp hy'
          · have hothers : y ∈ others := by
              rcases List.mem_cons.mp hy with rfl | hy
              · exact absurd hy' hne
              · refine (hmem y hy).resolve_left fun hmembers => hne ?_
                rw [← hsame y hmembers, hy']
            exact (hclasses part hpart x hx pieces hpieces y hothers).mpr hy'

end

/-! ### Predicates without a template -/

namespace Filling

/-- Columns of one entry each need no placeholder. -/
theorem ofColumns_of_constant (known : List (List Parameter)) {columns : List (List Parameter)}
    (h : ∀ column ∈ columns, ∀ p ∈ column, ∀ q ∈ column, p = q) :
    (ofColumns known columns).2 = known := by
  induction columns with
  | nil => rfl
  | cons column rest ih =>
    obtain ⟨hcolumn, hrest⟩ := List.forall_mem_cons.mp h
    cases column with
    | nil => exact ih hrest
    | cons leaf others =>
      have hall : others.all (· == leaf) = true := List.all_eq_true.mpr fun p hp => by
        rw [hcolumn p (List.mem_cons_of_mem _ hp) leaf List.mem_cons_self]
        exact beq_self_eq_true leaf
      rw [ofColumns, if_pos hall]
      exact ih hrest

end Filling

section
variable {rows : List (List Parameter)} {n : Nat}

/-- Rows are the same when every column has one entry only. -/
theorem eq_of_constant_columns (hrows : ∀ row ∈ rows, row.length = n)
    (h : ∀ column ∈ (List.range n).map (columnAt rows), ∀ p ∈ column, ∀ q ∈ column, p = q) :
    ∀ row ∈ rows, ∀ row' ∈ rows, row = row' := by
  intro row hrow row' hrow'
  refine List.ext_getElem ((hrows row hrow).trans (hrows row' hrow').symm) fun i hi hi' => ?_
  have hin : i < n := hrows row hrow ▸ hi
  have hmem : ∀ row ∈ rows, ∀ h : i < row.length, row[i] ∈ columnAt rows i := fun row hrow h =>
    List.mem_filterMap.mpr ⟨row, hrow, List.getElem?_eq_getElem h⟩
  exact h _ (List.mem_map_of_mem (List.mem_range.mpr hin)) _ (hmem row hrow hi) _
    (hmem row' hrow' hi')

theorem constant_columns_of_eq (h : ∀ row ∈ rows, ∀ row' ∈ rows, row = row') :
    ∀ column ∈ (List.range n).map (columnAt rows), ∀ p ∈ column, ∀ q ∈ column, p = q := by
  intro column hc p hp q hq
  obtain ⟨i, -, rfl⟩ := List.mem_map.mp hc
  obtain ⟨row, hrow, hrowp⟩ := List.mem_filterMap.mp hp
  obtain ⟨row', hrow', hrowq⟩ := List.mem_filterMap.mp hq
  rw [h row hrow row' hrow', hrowq] at hrowp
  exact (Option.some.inj hrowp).symm

end

/-- No placeholder is needed exactly when every column has one entry only. -/
theorem Filling.Describes.columns_eq_nil_iff {rows : List (List Parameter)} {n : Nat}
    (h : Describes rows n (ofColumns [] ((List.range n).map (columnAt rows))).1
      (ofColumns [] ((List.range n).map (columnAt rows))).2) :
    (ofColumns [] ((List.range n).map (columnAt rows))).2 = [] ↔
      ∀ column ∈ (List.range n).map (columnAt rows), ∀ p ∈ column, ∀ q ∈ column, p = q := by
  refine ⟨fun hnil column hc p hp q hq => ?_, fun hconstant => ofColumns_of_constant [] hconstant⟩
  have hrepresents := h.represents
  rw [hnil] at hrepresents
  obtain ⟨filling, -, hfits⟩ := exists_of_forall₂_of_mem hrepresents.flip hc
  cases filling with
  | placeholder number => cases hfits
  | inline leaf => rw [hfits p hp, hfits q hq]

/-- Predicates with the same pieces have no template exactly when they have the same leaves. -/
theorem predicateTemplate_eq_none_iff {names : Variable → String} {e : Expr} {es : List Expr}
    (hne : es ≠ []) (hes : ∀ e' ∈ es, Piece.ofExpr names e' = Piece.ofExpr names e) :
    predicateTemplate names (Piece.ofExpr names e) (es.map Piece.leaves) = none ↔
      ∀ e' ∈ es, ∀ e'' ∈ es, Piece.leaves e' = Piece.leaves e'' := by
  have hrows := length_leaves hes
  have hslots : ((es.map Piece.leaves).headD []).length = (Piece.leaves e).length := by
    cases es with
    | nil => exact absurd rfl hne
    | cons e' rest => exact hrows _ List.mem_cons_self
  have hdescribes := Filling.describes_ofColumns (mt List.map_eq_nil_iff.mp hne) hrows
  have hcolumns := hdescribes.columns_eq_nil_iff
  have hsame : (∀ column ∈ (List.range (Piece.leaves e).length).map
      (columnAt (es.map Piece.leaves)), ∀ p ∈ column, ∀ q ∈ column, p = q) ↔
      ∀ e' ∈ es, ∀ e'' ∈ es, Piece.leaves e' = Piece.leaves e'' := by
    refine ⟨fun hconstant e' he' e'' he'' => ?_, fun hleaves => constant_columns_of_eq ?_⟩
    · exact eq_of_constant_columns hrows hconstant _ (List.mem_map_of_mem he') _
        (List.mem_map_of_mem he'')
    · simpa only [List.forall_mem_map] using hleaves
  simp only [predicateTemplate, hslots]
  rw [← hsame]
  revert hdescribes hcolumns
  generalize Filling.ofColumns [] _ = filled
  obtain ⟨fillings, columns⟩ := filled
  intro hdescribes hcolumns
  -- the slots can always be filled, as only leaves are filled in
  have hfill : ∃ text, Filling.fill names (Piece.ofExpr names e) fillings = some text := by
    refine ⟨_, Filling.fill_eq ?_ fun filling hf leaf hl => ?_⟩
    · rw [Piece.slotCount_ofExpr, ← hdescribes.represents.length_eq, List.length_map,
        List.length_range]
    · obtain ⟨row, hrow, hmem⟩ := hdescribes.leaf filling hf leaf hl
      obtain ⟨e', _, rfl⟩ := List.mem_map.mp hrow
      exact Piece.isLeaf_of_mem_leaves hmem
  obtain ⟨text, htext⟩ := hfill
  rw [← hcolumns, htext]
  cases columns <;> simp

/-! ### Equalities -/

/-- The variable and the integer that a relation equates, in either order. -/
def Relation.equated? : Relation → Option (Variable × Int)
  | intension (.apply .eq [.var v, .const n]) => some (v, n)
  | intension (.apply .eq [.const n, .var v]) => some (v, n)
  | _ => none

/-- Whether the predicate of a relation, if it is one, can be written over known variables. -/
def Relation.Lifted (known : Variable → Prop) (r : Relation) : Prop :=
  ∀ e, r = .intension e → e.Lifted known

theorem Relation.Placed.lifted {known : Variable → Prop} {r : Relation} (h : r.Placed known) :
    r.Lifted known := by
  rintro e rfl
  exact h

theorem Expr.isLeaf_of_frame {e : Expr} (h : e.frame = const 0) : e.isLeaf = true := by
  cases e <;> first | rfl | cases h

/-- The pieces of an equality are those of the equality of two leaves. -/
theorem Piece.ofExpr_eq_equalityPieces {known : Variable → Prop} {names : Variable → String}
    (h : Telling known names) {e : Expr} (he : e.Lifted known)
    (hpieces : ofExpr names e = equalityPieces) :
    ∃ a b, e = .apply .eq [a, b] ∧ a.isLeaf = true ∧ b.isLeaf = true := by
  have hequality : (Expr.apply .eq [.const 0, .const 0]).Lifted known :=
    lifted_apply.mpr (by simp [Lifted, parts, Writable])
  have hframe := (ofExpr_eq_iff_frame h he hequality).mp hpieces
  cases e with
  | apply op operands =>
    rw [frame, frameAll_eq_map] at hframe
    obtain ⟨rfl, hoperands⟩ := Expr.apply.inj hframe
    obtain ⟨a, _, rfl, ha, hrest⟩ := List.map_eq_cons_iff.mp hoperands
    obtain ⟨b, rfl, hb⟩ := List.map_eq_singleton_iff.mp hrest
    exact ⟨a, b, rfl, isLeaf_of_frame ha, isLeaf_of_frame hb⟩
  | _ => cases hframe

/-- What is taken for an equality is one. -/
theorem equality?_ofRelation {known : Variable → Prop} {names : Variable → String}
    (h : Telling known names) {r : Relation} (hr : r.Lifted known) :
    equality? (Form.ofRelation names r) =
      r.equated?.map fun q => (Parameter.var q.1, Parameter.integer q.2) := by
  cases r with
  | intension e =>
    show equality? (.predicate (Piece.ofExpr names e) (Piece.leaves e)) = _
    by_cases hpieces : Piece.ofExpr names e = equalityPieces
    · obtain ⟨a, b, rfl, ha, hb⟩ := Piece.ofExpr_eq_equalityPieces h (hr e rfl) hpieces
      simp only [equality?, if_pos hpieces]
      cases a <;> cases b <;> first | rfl | exact Bool.noConfusion ha | exact Bool.noConfusion hb
    · simp only [equality?, if_neg hpieces]
      unfold Relation.equated?
      split
      · rename_i heq
        cases heq
        exact absurd rfl hpieces
      · rename_i heq
        cases heq
        exact absurd rfl hpieces
      · rfl
  | _ => rfl

/-! ### What is written for a part -/

namespace Grouping

/-- What is written for similar constraints: a single constraint on its own, equalities as
one instantiation, constraints that differ as one group with an instance for each, and any
others, which are all the same, each on its own. -/
inductive Folds (g : Grouping) : List Relation → List Written → Prop
  | single (r : Relation) : Folds g [r] [.alone r]
  | equalities {members : List Relation} {pairs : List (Variable × Int)} : 2 ≤ members.length →
      g.options.recognizeInstantiations = true →
      List.Forall₂ (fun r q => r.equated? = some q) members pairs →
      Folds g members
        [.equalities (pairs.map fun q => .var q.1) (pairs.map fun q => .integer q.2) {}]
  | group {members : List Relation} {template : Layout} {arguments : List (List Parameter)} :
      2 ≤ members.length → (∃ r ∈ members, ∃ r' ∈ members, r ≠ r') →
      (g.options.recognizeInstantiations = true → ∃ r ∈ members, r.equated? = none) →
      arguments.length = members.length →
      (Written.group template arguments {}).Covers g.names members →
      Folds g members [.group template arguments {}]
  | identical {members : List Relation} : 2 ≤ members.length →
      (∀ r ∈ members, ∀ r' ∈ members, r = r') →
      (g.options.recognizeInstantiations = true → ∃ r ∈ members, r.equated? = none) →
      Folds g members (members.map .alone)

variable {g : Grouping} {known : Variable → Prop}

/-- A list of equalities is recognised as it is. -/
theorem mapM_equality? (h : Telling known g.names) {members : List Relation}
    (hmembers : ∀ r ∈ members, r.Lifted known) {equalities : List (Parameter × Parameter)}
    (heq : (members.map (Form.ofRelation g.names)).mapM equality? = some equalities) :
    ∃ pairs : List (Variable × Int),
      List.Forall₂ (fun r q => r.equated? = some q) members pairs ∧
      equalities = pairs.map fun q => (Parameter.var q.1, Parameter.integer q.2) := by
  rw [mapM_eq_some_iff, List.forall₂_map_left_iff] at heq
  induction heq with
  | nil => exact ⟨[], .nil, rfl⟩
  | @cons r equality members equalities hr _ ih =>
    obtain ⟨hlifted, hrest⟩ := List.forall_mem_cons.mp hmembers
    obtain ⟨pairs, hpairs, rfl⟩ := ih hrest
    rw [equality?_ofRelation h hlifted, Option.map_eq_some_iff] at hr
    obtain ⟨q, hq, rfl⟩ := hr
    exact ⟨q :: pairs, .cons hq hpairs, rfl⟩

theorem exists_not_equated (h : Telling known g.names) {members : List Relation}
    (hmembers : ∀ r ∈ members, r.Lifted known)
    (heq : (members.map (Form.ofRelation g.names)).mapM equality? = none) :
    ∃ r ∈ members, r.equated? = none := by
  by_contra hall
  have hsome : ∀ r ∈ members, ∃ q, r.equated? = some q := fun r hr => by
    refine Option.ne_none_iff_exists'.mp fun hnone => hall ⟨r, hr, hnone⟩
  have hpairs : ∃ equalities, (members.map (Form.ofRelation g.names)).mapM equality? =
      some equalities := by
    clear heq hall
    induction members with
    | nil => exact ⟨[], rfl⟩
    | cons r rest ih =>
      obtain ⟨hlifted, hrest⟩ := List.forall_mem_cons.mp hmembers
      obtain ⟨⟨q, hq⟩, hqs⟩ := List.forall_mem_cons.mp hsome
      obtain ⟨equalities, heq⟩ := ih hrest hqs
      refine ⟨(.var q.1, .integer q.2) :: equalities, ?_⟩
      rw [List.map_cons, List.mapM_cons, equality?_ofRelation h hlifted, hq, heq]
      rfl
  obtain ⟨equalities, hequalities⟩ := hpairs
  rw [heq] at hequalities
  cases hequalities

end Grouping

/-- Layouts in one group differ. -/
theorem ne_of_differing? {layout : Layout} {positions : List Nat} :
    differing? layout layout ≠ some positions := by
  have hnone : ∀ (p : Nat) (as : List Argument), differingFrom p as as = some [] := by
    intro p as
    induction as generalizing p with
    | nil => rfl
    | cons a rest ih => simp [differingFrom, ih]
  intro h
  rw [differing?] at h
  split at h
  · simp only [hnone] at h
    obtain ⟨rfl, hpositive, _⟩ := by simpa using h
    cases hpositive
  · cases h

section
variable {names : Variable → String} {known : Variable → Prop}

/-- The template of predicates comes from their leaves. -/
theorem template?_intension {e : Expr} (es : List Expr) {numbered : Bool} :
    template? names numbered (((e :: es).map Relation.intension).map (Form.ofRelation names)) =
      predicateTemplate names (Piece.ofExpr names e) ((e :: es).map Piece.leaves) := by
  have hleaves : ((es.map Relation.intension).map (Form.ofRelation names)).filterMap
      Form.leaves? = es.map Piece.leaves := by
    simp [List.filterMap_map, Function.comp_def, Form.ofRelation, Form.leaves?]
  rw [List.map_cons, List.map_cons, Form.ofRelation, template?, hleaves, List.map_cons]

/-- Similar constraints that have a template are not all the same. -/
theorem exists_ne_of_template? {numbered : Bool} {first : Relation} {rest : List Relation}
    {positions : List Nat}
    (hsimilar : ∀ r ∈ rest,
      (Form.ofRelation names first).SimilarTo positions (Form.ofRelation names r))
    {template : Layout} {arguments : List (List Parameter)}
    (h : template? names numbered ((first :: rest).map (Form.ofRelation names)) =
      some (template, arguments)) :
    ∃ r ∈ first :: rest, ∃ r' ∈ first :: rest, r ≠ r' := by
  by_contra hall
  have hsame : ∀ r ∈ first :: rest, ∀ r' ∈ first :: rest, r = r' := fun r hr r' hr' => by
    by_contra hne
    exact hall ⟨r, hr, r', hr', hne⟩
  rcases first.form_eq names with ⟨e, rfl, hform⟩ | hform
  · obtain ⟨es, rfl, hes⟩ := similarTo_intension hsimilar
    have hpieces : ∀ e' ∈ e :: es, Piece.ofExpr names e' = Piece.ofExpr names e :=
      List.forall_mem_cons.mpr ⟨rfl, hes⟩
    have hnone := (predicateTemplate_eq_none_iff (List.cons_ne_nil _ _) hpieces).mpr
      fun e' he' e'' he'' =>
      congrArg Piece.leaves (Relation.intension.inj (hsame _ (List.mem_map_of_mem he') _
        (List.mem_map_of_mem he'')))
    rw [← List.map_cons, template?_intension, hnone] at h
    cases h
  · have hrest : rest ≠ [] := by
      rintro rfl
      rw [List.map_singleton, hform] at h
      cases h
    obtain ⟨second, hsecond⟩ := List.exists_mem_of_ne_nil rest hrest
    have hdiffering := hsimilar second hsecond
    rw [← hsame first List.mem_cons_self second (List.mem_cons_of_mem _ hsecond),
      hform] at hdiffering
    exact ne_of_differing? hdiffering

/-- Similar constraints without a template are predicates, and all the same. -/
theorem eq_of_template?_eq_none (h : Telling known names) {first : Relation}
    {rest : List Relation} {positions : List Nat} (hne : rest ≠ [])
    (hlifted : ∀ r ∈ first :: rest, r.Lifted known)
    (hsimilar : ∀ r ∈ rest,
      (Form.ofRelation names first).SimilarTo positions (Form.ofRelation names r))
    (hnone : template? names false ((first :: rest).map (Form.ofRelation names)) = none) :
    ∀ r ∈ first :: rest, ∀ r' ∈ first :: rest, r = r' := by
  rcases first.form_eq names with ⟨e, rfl, hform⟩ | hform
  · obtain ⟨es, rfl, hes⟩ := similarTo_intension hsimilar
    have hpieces : ∀ e' ∈ e :: es, Piece.ofExpr names e' = Piece.ofExpr names e :=
      List.forall_mem_cons.mpr ⟨rfl, hes⟩
    rw [← List.map_cons, template?_intension,
      predicateTemplate_eq_none_iff (List.cons_ne_nil _ _) hpieces] at hnone
    rw [← List.map_cons] at hlifted ⊢
    simp only [List.forall_mem_map] at hlifted ⊢
    intro e' he' e'' he''
    have he'Lifted := hlifted e' he' e' rfl
    have he''Lifted := hlifted e'' he'' e'' rfl
    have hframe := (Piece.ofExpr_eq_iff_frame h he'Lifted he''Lifted).mp
      ((hpieces e' he').trans (hpieces e'' he'').symm)
    exact congrArg _ (Piece.eq_of_frame_of_leaves h he'Lifted he''Lifted hframe
      (hnone e' he' e'' he''))
  · rw [hform] at hsimilar
    obtain ⟨hforms, hdiffering⟩ := similarTo_laidOut hsimilar
    obtain ⟨second, others, rfl⟩ := List.exists_cons_of_ne_nil hne
    -- layouts that differ in some lists have a template
    rw [List.map_cons, hform, hforms, List.map_cons, List.map_cons, template?] at hnone
    simp [Form.layout?, hdiffering second List.mem_cons_self] at hnone

end

namespace Grouping

variable {g : Grouping} {known : Variable → Prop}

/-- Similar constraints are folded. -/
theorem folds_writePart (h : Telling known g.names) {first : Relation} {rest : List Relation}
    {positions : List Nat} (hlifted : ∀ r ∈ first :: rest, r.Lifted known)
    (hsimilar : ∀ r ∈ rest,
      (Form.ofRelation g.names first).SimilarTo positions (Form.ofRelation g.names r)) :
    g.Folds (first :: rest) (g.writePart ((first :: rest).map (.ofRelation g.names))) := by
  rw [writePart_ofRelation]
  by_cases hrest : rest = []
  · subst hrest
    exact .single first
  have hlength : 2 ≤ (first :: rest).length :=
    Nat.succ_le_succ (Nat.one_le_iff_ne_zero.mpr (mt List.eq_nil_of_length_eq_zero hrest))
  rw [if_neg (Nat.not_lt.mpr hlength)]
  split
  · rename_i equalities hequalities
    by_cases hrecognize : g.options.recognizeInstantiations = true
    · rw [if_pos hrecognize] at hequalities
      obtain ⟨pairs, hpairs, rfl⟩ := mapM_equality? h hlifted hequalities
      simpa [Function.comp_def] using Folds.equalities hlength hrecognize hpairs
    · rw [if_neg hrecognize] at hequalities
      cases hequalities
  · rename_i hnone
    have hequated : g.options.recognizeInstantiations = true →
        ∃ r ∈ first :: rest, r.equated? = none := fun hrecognize => by
      rw [if_pos hrecognize] at hnone
      exact exists_not_equated h hlifted hnone
    split
    · rename_i template arguments htemplate
      obtain ⟨hreadings, _⟩ := readingOf_template? h.plain hsimilar htemplate
      refine .group hlength (exists_ne_of_template? hsimilar htemplate) hequated ?_ hreadings
      simpa using congrArg List.length hreadings
    · rename_i htemplate
      exact .identical hlength (eq_of_template?_eq_none h hrest hlifted hsimilar htemplate) hequated

end Grouping

end CspModel
