import CspModel.Proofs.Slides

/-! # Where entries come from

An entry that is written for constraints comes from one of them, from several equalities,
or from similar ones with one template, which makes a group or a slide
(`Grouping.Yields`).  What holds of all entries of a document is shown for these four
kinds and for the labels that a posting adds (`Grouping.of_mem_write`), whatever the
options are and however the constraints fall into parts.
-/
namespace CspModel
namespace Grouping

/-! ### Segments -/

/-- The relations of a segment. -/
def Segment.relations : Segment → List Relation
  | run relations => relations
  | slide windows => windows

/-- The segments hold the relations of all constraints, in their order. -/
theorem flatMap_relations_segments (constraints : List Constraint) :
    (segments constraints).flatMap Segment.relations = Constraint.relationsOf constraints := by
  induction constraints with
  | nil => rfl
  | cons c rest ih =>
    rw [Constraint.relationsOf, ← ih]
    cases c with
    | slide windows => rfl
    | relation r =>
      rw [segments]
      split
      · rename_i hrest
        rw [hrest]
        rfl
      · rfl

theorem exists_of_mem_segments {constraints : List Constraint} {segment : Segment}
    (h : segment ∈ segments constraints) {r : Relation} (hr : r ∈ segment.relations) :
    ∃ c ∈ constraints, r ∈ c.relations := by
  rw [← Constraint.mem_relationsOf, ← flatMap_relations_segments]
  exact List.mem_flatMap.mpr ⟨segment, h, hr⟩

/-! ### Constraints in a row -/

variable {g : Grouping} {relations : List Relation}

/-- Whether a template, with the arguments of its instances, was made of similar constraints
among the given ones. -/
def Templated (g : Grouping) (numbered : Bool) (relations : List Relation) (template : Layout)
    (arguments : List (List Parameter)) : Prop :=
  ∃ first rest positions, first :: rest ⊆ relations ∧
    (∀ r ∈ rest,
      (Form.ofRelation g.names first).SimilarTo positions (Form.ofRelation g.names r)) ∧
    template? g.names numbered ((first :: rest).map (Form.ofRelation g.names)) =
      some (template, arguments)

/-- The entries that can be written for some of the given constraints. -/
inductive Yields (g : Grouping) (relations : List Relation) : Written → Prop
  | alone {r : Relation} : r ∈ relations → Yields g relations (.alone r)
  | equalities {pairs : List (Parameter × Parameter)} :
      (∀ pair ∈ pairs, ∃ r ∈ relations, equality? (Form.ofRelation g.names r) = some pair) →
      Yields g relations (.equalities (pairs.map Prod.fst) (pairs.map Prod.snd) {})
  | group {template : Layout} {arguments : List (List Parameter)} :
      g.Templated false relations template arguments →
      Yields g relations (.group template arguments {})
  | slide {template : Layout} {arguments : List (List Parameter)} {s : Sliding} :
      g.Templated true relations template arguments → Sliding.ofArguments? arguments = some s →
      Yields g relations (.slide s.list s.offset s.circular template {})

theorem Yields.mono {relations' : List Relation} (hsubset : relations ⊆ relations') {w : Written}
    (h : g.Yields relations w) : g.Yields relations' w := by
  have htemplated : ∀ {numbered template arguments},
      g.Templated numbered relations template arguments →
      g.Templated numbered relations' template arguments :=
    fun ⟨first, rest, positions, hpart, h⟩ =>
      ⟨first, rest, positions, List.Subset.trans hpart hsubset, h⟩
  cases h with
  | alone hr => exact .alone (hsubset hr)
  | equalities hpairs =>
    refine .equalities fun pair hpair => ?_
    obtain ⟨r, hr, h⟩ := hpairs pair hpair
    exact ⟨r, hsubset hr, h⟩
  | group h => exact .group (htemplated h)
  | slide h hs => exact .slide (htemplated h) hs

theorem yields_alone : ∀ w ∈ relations.map Written.alone, g.Yields relations w :=
  List.forall_mem_map.mpr fun _ hr => .alone hr

theorem yields_writePart {first : Relation} {rest : List Relation} {positions : List Nat}
    (hsimilar : ∀ r ∈ rest,
      (Form.ofRelation g.names first).SimilarTo positions (Form.ofRelation g.names r)) :
    ∀ w ∈ g.writePart ((first :: rest).map (.ofRelation g.names)),
      g.Yields (first :: rest) w := by
  rw [writePart_ofRelation]
  split
  · exact yields_alone
  · split
    · rename_i pairs hpairs
      refine List.forall_mem_singleton.mpr (.equalities fun pair hpair => ?_)
      split at hpairs
      · obtain ⟨form, hform, hpair⟩ := exists_of_mem_mapM hpairs hpair
        obtain ⟨r, hr, rfl⟩ := List.mem_map.mp hform
        exact ⟨r, hr, hpair⟩
      · cases hpairs
    · split
      · rename_i template arguments htemplate
        exact List.forall_mem_singleton.mpr
          (.group ⟨first, rest, positions, List.Subset.refl _, hsimilar, htemplate⟩)
      · exact yields_alone

theorem yields_writeRun (gather : Bool) (relations : List Relation) :
    ∀ w ∈ g.writeRun gather relations, g.Yields relations w := by
  unfold writeRun
  split
  · intro w hw
    obtain ⟨part, hpart, hw⟩ := List.mem_flatMap.mp hw
    obtain ⟨first, rest, positions, rfl, hsublist, hsimilar⟩ := exists_of_mem_partition hpart
    exact (yields_writePart hsimilar w hw).mono hsublist.subset
  · exact yields_alone

theorem recognize?_of_recognized? {windows : List Relation} {entry : Written}
    (h : g.recognized? windows = some entry) : g.recognize? windows = some entry := by
  unfold recognized? at h
  split at h
  · exact h
  · cases h

theorem yields_recognize? {windows : List Relation} {entry : Written}
    (h : g.recognize? windows = some entry) : g.Yields windows entry := by
  obtain ⟨first, rest, positions, template, arguments, s, rfl, hsimilar, htemplate, -, hs, rfl⟩ :=
    exists_of_recognize? h
  exact .slide ⟨first, rest, positions, List.Subset.refl _, hsimilar, htemplate⟩ hs

/-! ### The constraints of a posting -/

/-- Whatever constraints are posted, their entries come from them. -/
theorem yields_writeConstraints (gather : Bool) (constraints : List Constraint) :
    ∀ w ∈ g.writeConstraints gather constraints,
      g.Yields (Constraint.relationsOf constraints) w := by
  intro w hw
  obtain ⟨segment, hsegment, hw⟩ := List.mem_flatMap.mp hw
  have hsubset : segment.relations ⊆ Constraint.relationsOf constraints := fun r hr =>
    Constraint.mem_relationsOf.mpr (exists_of_mem_segments hsegment hr)
  refine Yields.mono hsubset ?_
  cases segment with
  | run relations => exact yields_writeRun gather relations w hw
  | slide windows =>
    rw [writeSegment] at hw
    split at hw
    · rename_i entry hentry
      rw [List.mem_singleton.mp hw]
      exact yields_recognize? (recognize?_of_recognized? hentry)
    · exact yields_writeRun true windows w hw

/-! ### Labels -/

section
variable {P : Written → Prop} (hlabels : ∀ w d, P w → P (w.withDecoration d))
  (hblock : ∀ entries d, (∀ w ∈ entries, P w) → P (.block entries d))
include hlabels hblock

theorem of_mem_decorate (d : Decoration) {entries : List Written} (h : ∀ w ∈ entries, P w) :
    ∀ w ∈ decorate d entries, P w := by
  unfold decorate
  split
  · exact h
  · split
    · rename_i entry
      exact List.forall_mem_singleton.mpr (hlabels entry d (h entry List.mem_cons_self))
    · exact List.forall_mem_singleton.mpr (hblock _ d h)

/-- What holds of the entries that constraints yield, with any labels and in blocks, holds
of all that is written. -/
theorem of_mem_write {postings : List Posting}
    (h : ∀ p ∈ postings, ∀ w, g.Yields (Constraint.relationsOf p.body.constraints) w → P w) :
    ∀ w ∈ g.write postings, P w := by
  intro w hw
  obtain ⟨p, hp, hw⟩ := List.mem_flatMap.mp hw
  refine of_mem_decorate hlabels hblock _ (fun w hw => ?_) w hw
  exact h p hp w (yields_writeConstraints _ _ w hw)

end

end Grouping
end CspModel
