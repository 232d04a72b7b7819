import CspModel.Grouping.Basic
import CspModel.Proofs.Inventory
import CspModel.Proofs.Templates

/-! # Folding loses nothing

Whatever is folded into an entry can be read off it again.  The entries of constraints
posted together cover them part by part: an entry stands for the constraints of its part,
in the order in which they were posted, and every constraint is in exactly one part
(`Grouping.writeConstraints_covers`).  This is so with all settings of the options.
-/
namespace CspModel

/-- The names of a store of a model are plain. -/
theorem Store.Built.plain {s : Store} (hs : s.Built) : Plain s.nameOf :=
  fun v _ hc => hs.isNameChar_of_mem_nameOf v hc

/-- Whether a constraint says the same, with an equality read in either direction. -/
def Reading.Matches (names : Variable → String) (reading : Reading) (r : Relation) : Prop :=
  r.reading names = reading ∨ ∃ x value, reading = equalityReading names x value ∧
    r.reading names = equalityReading names value x

/-- Whether an entry stands for the constraints, one by one. -/
def Written.Covers (names : Variable → String) (entry : Written) (relations : List Relation) :
    Prop :=
  match entry with
  | equalities list values d => list.length = values.length ∧
      List.Forall₂ (Reading.Matches names) ((equalities list values d).readings names) relations
  | entry => entry.readings names = relations.map (Relation.reading names)

/-- Whether entries stand for the constraints: every constraint is in the part of one
entry, which keeps its order. -/
def Written.CoverAll (names : Variable → String) (entries : List Written)
    (relations : List Relation) : Prop :=
  ∃ parts : List (List Relation), List.Forall₂ (Written.Covers names) entries parts ∧
    parts.flatten.Perm relations ∧ ∀ part ∈ parts, part.Sublist relations

namespace Grouping

variable {g : Grouping}

/-! ### Equalities -/

/-- A predicate with the pieces of an equality is the equality of its leaves. -/
theorem render_of_equalityPieces {names : Variable → String} {e : Expr}
    (hpieces : Piece.ofExpr names e = equalityPieces) {a b : Parameter}
    (hleaves : Piece.leaves e = [a, b]) :
    e.render names = Expr.call "eq" [a.text names, b.text names] := by
  refine String.toList_inj.mp ?_
  rw [← Piece.assemble_ofExpr, hpieces, hleaves, toList_call]
  simp [equalityPieces, Piece.assemble, Piece.leafChars]

theorem matches_of_equality? {names : Variable → String} {r : Relation} {x value : Parameter}
    (h : equality? (Form.ofRelation names r) = some (x, value)) :
    (equalityReading names x value).Matches names r := by
  rcases r.form_eq names with ⟨e, rfl, hform⟩ | hform
  · rw [hform] at h
    unfold equality? at h
    simp only at h
    split at h
    · rename_i hpieces
      have hreading : ∀ {a b : Parameter}, Piece.leaves e = [a, b] →
          (Relation.intension e).reading names = equalityReading names a b := fun hleaves =>
        congrArg Reading.predicate (render_of_equalityPieces hpieces hleaves)
      split at h
      · rename_i hleaves
        cases h
        exact .inl (hreading hleaves)
      · rename_i hleaves
        cases h
        exact .inr ⟨_, _, rfl, hreading hleaves⟩
      · cases h
    · cases h
  · rw [hform] at h
    cases h

/-! ### Parts -/

/-- A part of similar candidates comes from constraints, of which it keeps the order. -/
theorem exists_of_mem_partition {names : Variable → String} {relations : List Relation}
    {part : List Candidate} (h : part ∈ partition (relations.map (.ofRelation names))) :
    ∃ first rest positions, part = (first :: rest).map (Candidate.ofRelation names) ∧
      (first :: rest).Sublist relations ∧ ∀ r ∈ rest,
        (Form.ofRelation names first).SimilarTo positions (Form.ofRelation names r) := by
  obtain ⟨hsublist, first, rest, positions, rfl, hsimilar⟩ :=
    (partition_spec (relations.map (.ofRelation names))).2 part h
  obtain ⟨list, hlist, heq⟩ := List.sublist_map_iff.mp hsublist
  obtain ⟨first, rest, rfl, rfl, rfl⟩ := List.map_eq_cons_iff.mp heq.symm
  exact ⟨first, rest, positions, heq, hlist, fun r hr => hsimilar _ (List.mem_map_of_mem hr)⟩

/-- Constraints written on their own. -/
theorem covers_alone (names : Variable → String) (relations : List Relation) :
    List.Forall₂ (Written.Covers names) (relations.map Written.alone)
      (relations.map fun r => [r]) := by
  induction relations with
  | nil => exact .nil
  | cons r rest ih => exact .cons rfl ih

theorem flatten_singletons (relations : List Relation) :
    (relations.map fun r => [r]).flatten = relations := by
  rw [← List.flatMap_def, List.flatMap_singleton']

/-- The entries of the constraints of a part. -/
theorem writePart_ofRelation (g : Grouping) (relations : List Relation) :
    g.writePart (relations.map (.ofRelation g.names)) =
      if relations.length < 2 then relations.map .alone
      else
        match if g.options.recognizeInstantiations then
            (relations.map (Form.ofRelation g.names)).mapM equality? else none with
        | some pairs => [.equalities (pairs.map Prod.fst) (pairs.map Prod.snd) {}]
        | none =>
          match template? g.names false (relations.map (Form.ofRelation g.names)) with
          | some (template, arguments) => [.group template arguments {}]
          | none => relations.map .alone := by
  unfold writePart
  simp only [List.map_map, List.length_map]
  rfl

/-- The entries of similar constraints stand for them. -/
theorem writePart_covers (hnames : Plain g.names) {first : Relation} {rest : List Relation}
    {positions : List Nat}
    (hsimilar : ∀ r ∈ rest,
      (Form.ofRelation g.names first).SimilarTo positions (Form.ofRelation g.names r)) :
    ∃ parts : List (List Relation),
      List.Forall₂ (Written.Covers g.names)
        (g.writePart ((first :: rest).map (.ofRelation g.names))) parts ∧
      parts.flatten = first :: rest := by
  have halone : ∃ parts : List (List Relation), List.Forall₂ (Written.Covers g.names)
      ((first :: rest).map Written.alone) parts ∧ parts.flatten = first :: rest :=
    ⟨_, covers_alone g.names _, flatten_singletons _⟩
  rw [writePart_ofRelation]
  split
  · exact halone
  · split
    · rename_i pairs hpairs
      have hmapM : ((first :: rest).map (Form.ofRelation g.names)).mapM equality? = some pairs := by
        split at hpairs
        · exact hpairs
        · cases hpairs
      have hzip : (pairs.map Prod.fst).zip (pairs.map Prod.snd) = pairs :=
        (List.zip_of_prod rfl rfl).symm
      refine ⟨[first :: rest], .cons ⟨by simp, ?_⟩ .nil, by simp⟩
      rw [mapM_eq_some_iff, List.forall₂_map_left_iff] at hmapM
      rw [Written.readings, hzip, List.forall₂_map_left_iff]
      exact hmapM.flip.imp fun pair r hpair => matches_of_equality? hpair
    · split
      · rename_i template arguments htemplate
        obtain ⟨hreadings, _⟩ := readingOf_template? hnames hsimilar htemplate
        exact ⟨[first :: rest], .cons hreadings .nil, by simp⟩
      · exact halone

/-- The parts of several lists of entries are in the order of the lists. -/
theorem exists_parts_flatMap {names : Variable → String} {α : Type} {f : α → List Written}
    (members : α → List Relation) {list : List α}
    (h : ∀ a ∈ list, ∃ parts : List (List Relation),
      List.Forall₂ (Written.Covers names) (f a) parts ∧ parts.flatten = members a) :
    ∃ parts : List (List Relation), List.Forall₂ (Written.Covers names) (list.flatMap f) parts ∧
      parts.flatten = list.flatMap members ∧
      ∀ part ∈ parts, ∃ a ∈ list, part.Sublist (members a) := by
  induction list with
  | nil => exact ⟨[], .nil, rfl, fun part hpart => nomatch hpart⟩
  | cons a rest ih =>
    obtain ⟨parts, hcovers, hflatten⟩ := h a List.mem_cons_self
    obtain ⟨others, hothers, hflattenOthers, hsublists⟩ :=
      ih fun a ha => h a (List.mem_cons_of_mem _ ha)
    refine ⟨parts ++ others, List.rel_append hcovers hothers, ?_, fun part hpart => ?_⟩
    · rw [List.flatten_append, hflatten, hflattenOthers, List.flatMap_cons]
    · rcases List.mem_append.mp hpart with hpart | hpart
      · exact ⟨a, List.mem_cons_self, hflatten ▸ List.sublist_flatten_of_mem hpart⟩
      · obtain ⟨b, hb, hpart⟩ := hsublists part hpart
        exact ⟨b, List.mem_cons_of_mem _ hb, hpart⟩

/-- Covering several lists part by part. -/
theorem coverAll_flatMap {names : Variable → String} {α : Type} {f : α → List Written}
    (members : α → List Relation) {list : List α} {relations : List Relation}
    (h : ∀ a ∈ list, ∃ parts : List (List Relation),
      List.Forall₂ (Written.Covers names) (f a) parts ∧ parts.flatten = members a)
    (hperm : (list.flatMap members).Perm relations)
    (hsublist : ∀ a ∈ list, (members a).Sublist relations) :
    Written.CoverAll names (list.flatMap f) relations := by
  obtain ⟨parts, hcovers, hflatten, hsublists⟩ := exists_parts_flatMap members h
  refine ⟨parts, hcovers, hflatten ▸ hperm, fun part hpart => ?_⟩
  obtain ⟨a, ha, hpart⟩ := hsublists part hpart
  exact hpart.trans (hsublist a ha)

/-- The entries of relations in a row stand for them. -/
theorem writeRun_covers (hnames : Plain g.names) (gather : Bool) (relations : List Relation) :
    Written.CoverAll g.names (g.writeRun gather relations) relations := by
  unfold writeRun
  split
  · have hperm := (partition_spec (relations.map (.ofRelation g.names))).1
    have hback : ∀ list : List Relation,
        (list.map (Candidate.ofRelation g.names)).map (·.relation) = list := fun list => by
      rw [List.map_map]
      exact List.map_id list
    refine coverAll_flatMap (fun part => part.map (·.relation)) (fun part h => ?_) ?_
      fun part h => ?_
    · obtain ⟨first, rest, positions, rfl, _, hsimilar⟩ := exists_of_mem_partition h
      rw [hback]
      exact writePart_covers hnames hsimilar
    · have := hperm.map (·.relation)
      rwa [hback, List.map_flatten, ← List.flatMap_def] at this
    · obtain ⟨first, rest, positions, rfl, hsublist, _⟩ := exists_of_mem_partition h
      rwa [hback]
  · exact ⟨_, covers_alone g.names relations, by rw [flatten_singletons], fun part hpart => by
      obtain ⟨r, hr, rfl⟩ := List.mem_map.mp hpart
      exact List.singleton_sublist.mpr hr⟩

/-- The constraints of a posting without slides are one run. -/
theorem segments_relations (relations : List Relation) :
    segments (relations.map .relation) = [.run relations] := by
  induction relations with
  | nil => rfl
  | cons r rest ih => rw [List.map_cons, segments, ih]

/-- Folding is lossless: with whatever options, the entries written for constraints, none
of which is a slide, stand for every one of them exactly once, and the constraints of an
entry keep their order. -/
theorem writeConstraints_covers {s : Store} (hs : s.Built) (options : Options) (gather : Bool)
    (relations : List Relation) :
    Written.CoverAll s.nameOf
      ((Grouping.mk options s.nameOf).writeConstraints gather (relations.map .relation))
      relations := by
  unfold writeConstraints
  rw [segments_relations, List.flatMap_singleton]
  exact writeRun_covers (g := ⟨options, s.nameOf⟩) hs.plain gather relations

end Grouping

namespace Row

/-- The values 0, 1 and 2. -/
def colours : Domain := ⟨[.interval ⟨0, 2, by decide⟩]⟩

/-- Three variables in a row. -/
def store : Store :=
  match ({ model := 0 } : Store).declareArray (some "x") [3] fun _ => some colours with
  | .error _ => { model := 0 }
  | .ok (_, s) => s

def cell (index : Nat) : Expr := .var ⟨0, index⟩

/-- Neighbours differ, and the first one is zero. -/
def relations : List Relation :=
  [.intension (.apply .ne [cell 0, cell 1]), .intension (.apply .eq [cell 0, .const 0]),
    .intension (.apply .ne [cell 1, cell 2])]

theorem built_colours : colours.Built := by
  have hcolours : Domain.ofSpec (.range 0 2 1) = .ok colours := by cbv
  exact .ofSpec (by decide) hcolours

theorem built_store : store.Built := by
  have hbuilt : ∀ (indices : List Nat) (d : Domain),
      (fun _ : List Nat => some colours) indices = some d → d.Built :=
    fun _ _ h => Option.some.inj h ▸ built_colours
  unfold store
  split
  · exact .new 0
  · rename_i h
    exact .declareArray (.new 0) hbuilt h

/-- Folding is lossless for the neighbours of a row. -/
theorem writeConstraints_relations : store.Built ∧ Written.CoverAll store.nameOf
    ((Grouping.mk {} store.nameOf).writeConstraints true (relations.map .relation)) relations :=
  ⟨built_store, Grouping.writeConstraints_covers built_store {} true relations⟩

end Row
end CspModel
