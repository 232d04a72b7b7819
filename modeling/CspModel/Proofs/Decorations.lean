import CspModel.Proofs.Operations
import CspModel.Proofs.Origins
import CspModel.Proofs.Settlement

/-! # Labels say nothing about the constraints

The labels of postings are erased at every stage: from a model, from the entries its
constraints are written as, and from the document, where the blocks go with them.  Every
stage of the compilation commutes with the erasure, so models that are built by the same calls
up to labels state the same (`Model.labels_are_advisory`).

Labels on nothing leave one trace.  A slide without windows, which no builder gives, states no
relation; with labels it still becomes an empty block, and for the block alone there is a
section for constraints (`Windowless.section_remains`).  So documents are compared without
sections that are idle.  Whether there is a section at all is decided by what is posted and
what is labelled (`Grouping.write_ne_nil_iff`), and this tells when the documents agree with
their idle sections too.
-/
namespace CspModel

/-! ### Documents without labels -/

namespace Element

/-- Whether an attribute is not a label. -/
def isPlain (a : String × String) : Bool :=
  a.1 != Token.classes.text && a.1 != Token.note.text

mutual
/-- What stands in the place of an element in a document without labels: the children of a
block, and any other element without its labels. -/
def unlabelled : Element → List Element
  | ⟨name, attributes, text, children⟩ =>
    if name = Token.block.text then unlabelledAll children
    else [⟨name, attributes.filter isPlain, text, unlabelledAll children⟩]

/-- Several elements without labels and blocks. -/
def unlabelledAll : List Element → List Element
  | [] => []
  | e :: rest => unlabelled e ++ unlabelledAll rest
end

theorem unlabelled_eq (e : Element) :
    e.unlabelled = if e.name = Token.block.text then unlabelledAll e.children
      else [{ e with
        attributes := e.attributes.filter isPlain, children := unlabelledAll e.children }] := by
  obtain ⟨name, attributes, text, children⟩ := e
  rw [unlabelled]

theorem unlabelledAll_append (list list' : List Element) :
    unlabelledAll (list ++ list') = unlabelledAll list ++ unlabelledAll list' := by
  induction list with
  | nil => rfl
  | cons e rest ih => rw [List.cons_append, unlabelledAll, unlabelledAll, ih, List.append_assoc]

theorem filter_setAttribute {key : String} (value : String) (h : ∀ v, isPlain (key, v) = false)
    (attributes : List (String × String)) :
    (setAttribute key value attributes).filter isPlain = attributes.filter isPlain := by
  induction attributes with
  | nil => simp [setAttribute, h]
  | cons a rest ih =>
    obtain ⟨k, v⟩ := a
    unfold setAttribute
    split
    · rename_i hk
      subst hk
      simp [h]
    · rw [List.filter_cons, List.filter_cons, ih]

/-- A label leaves no trace. -/
theorem unlabelled_withAttribute {key : Token} (hkey : key = .classes ∨ key = .note) (e : Element)
    (value : String) : (e.withAttribute key value).unlabelled = e.unlabelled := by
  have hfilter : (setAttribute key.text value e.attributes).filter isPlain =
      e.attributes.filter isPlain := by
    refine filter_setAttribute value (fun v => ?_) e.attributes
    rcases hkey with rfl | rfl <;> simp [isPlain]
  rw [unlabelled_eq, unlabelled_eq]
  simp only [withAttribute, withKey, hfilter]

end Element

namespace Document

theorem unlabelled_decorated (d : Decoration) (e : Element) :
    (decorated d e).unlabelled = e.unlabelled := by
  have hclasses : (if d.classes.isEmpty then e
      else e.withAttribute .classes (" ".intercalate (d.classes.map Tag.text))).unlabelled =
      e.unlabelled := by
    split
    · rfl
    · exact Element.unlabelled_withAttribute (.inl rfl) e _
  simp only [decorated]
  cases d.note with
  | none => exact hclasses
  | some note => exact (Element.unlabelled_withAttribute (.inr rfl) _ note).trans hclasses

end Document

/-! ### Entries without labels -/

namespace Written

mutual
/-- What stands in the place of an entry without labels: the entries of a block, and any
other entry with no labels. -/
def bare : Written → List Written
  | constraint layout _ => [constraint layout {}]
  | group template arguments _ => [group template arguments {}]
  | slide list offset circular template _ => [slide list offset circular template {}]
  | equalities list values _ => [equalities list values {}]
  | block entries _ => bareAll entries

/-- Several entries without labels and blocks. -/
def bareAll : List Written → List Written
  | [] => []
  | w :: rest => bare w ++ bareAll rest
end

theorem bareAll_append (list list' : List Written) :
    bareAll (list ++ list') = bareAll list ++ bareAll list' := by
  induction list with
  | nil => rfl
  | cons w rest ih => rw [List.cons_append, bareAll, bareAll, ih, List.append_assoc]

@[simp] theorem bare_withDecoration (d : Decoration) (w : Written) :
    (w.withDecoration d).bare = w.bare := by
  cases w <;> rfl

mutual
theorem bare_dropNotes : (w : Written) → w.dropNotes.bare = w.bare
  | constraint _ _ => rfl
  | group _ _ _ => rfl
  | slide _ _ _ _ _ => rfl
  | equalities _ _ _ => rfl
  | block entries _ => bareAll_dropNotesAll entries

theorem bareAll_dropNotesAll : (list : List Written) →
    bareAll (dropNotesAll list) = bareAll list
  | [] => rfl
  | w :: rest => by rw [dropNotesAll, bareAll, bareAll, bare_dropNotes w, bareAll_dropNotesAll rest]
end

/-- Entries are bare the same whether notes are kept or dropped. -/
theorem bareAll_kept (notes : Bool) (list : List Written) :
    bareAll (if notes then list else dropNotesAll list) = bareAll list := by
  split
  · rfl
  · exact bareAll_dropNotesAll list

theorem isEmpty_kept (notes : Bool) (list : List Written) :
    (if notes then list else dropNotesAll list).isEmpty = list.isEmpty := by
  cases notes <;> cases list <;> rfl

/-- A count that labels and blocks have no part in. -/
structure Plain (count : Written → Nat) : Prop where
  block : ∀ entries d, count (.block entries d) = 0
  withDecoration : ∀ w d, count (w.withDecoration d) = count w

theorem totalOf_append (count : Written → Nat) (list list' : List Written) :
    totalOf count (list ++ list') = totalOf count list + totalOf count list' := by
  induction list with
  | nil => simp [totalOf]
  | cons w rest ih => rw [List.cons_append, totalOf, totalOf, ih, Nat.add_assoc]

mutual
theorem Plain.totalOf_bare {count : Written → Nat} (h : Plain count) :
    (w : Written) → totalOf count w.bare = total count w
  | .constraint layout d => h.withDecoration (constraint layout d) {}
  | .group template arguments d => h.withDecoration (group template arguments d) {}
  | .slide list offset circular template d =>
    h.withDecoration (slide list offset circular template d) {}
  | .equalities list values d => h.withDecoration (equalities list values d) {}
  | .block entries d => by
    rw [bare, total, h.block, Nat.zero_add, h.totalOf_bareAll entries]

theorem Plain.totalOf_bareAll {count : Written → Nat} (h : Plain count) :
    (list : List Written) → totalOf count (bareAll list) = totalOf count list
  | [] => rfl
  | w :: rest => by
    rw [bareAll, totalOf_append, totalOf, h.totalOf_bare w, h.totalOf_bareAll rest]
end

theorem Plain.totalOf_eq {count : Written → Nat} (h : Plain count) {list list' : List Written}
    (hbare : bareAll list' = bareAll list) : totalOf count list' = totalOf count list := by
  rw [← h.totalOf_bareAll list', hbare, h.totalOf_bareAll list]

theorem plain_isGroup : Plain isGroup := ⟨fun _ _ => rfl, fun w _ => by cases w <;> rfl⟩

theorem plain_instanceCount : Plain instanceCount := ⟨fun _ _ => rfl, fun w _ => by cases w <;> rfl⟩

theorem plain_isSlide : Plain isSlide := ⟨fun _ _ => rfl, fun w _ => by cases w <;> rfl⟩

theorem plain_isEqualities : Plain isEqualities :=
  ⟨fun _ _ => rfl, fun w _ => by cases w <;> rfl⟩

theorem plain_rowCount : Plain rowCount := ⟨fun _ _ => rfl, fun w _ => by cases w <;> rfl⟩

end Written

/-! ### Tables and documents of entries -/

namespace Rows

variable {s : Store} {form : TableForm}

theorem ofEntries_append (list list' : List Written) :
    ofEntries s form (list ++ list') = (ofEntries s form list).bind fun here =>
      (ofEntries s form list').map (here ++ ·) := by
  induction list with
  | nil =>
    rw [List.nil_append, ofEntries]
    cases ofEntries s form list' <;> rfl
  | cons w rest ih =>
    rw [List.cons_append, ofEntries, ofEntries, ih]
    cases ofEntry s form w with
    | error cause => rfl
    | ok w =>
      cases ofEntries s form rest with
      | error cause => rfl
      | ok here => cases ofEntries s form list' <;> rfl

theorem isEmpty_ofEntries {entries entries' : List Written}
    (h : ofEntries s form entries = .ok entries') : entries'.isEmpty = entries.isEmpty := by
  cases entries with
  | nil =>
    cases h
    rfl
  | cons w rest =>
    obtain ⟨_, _, h⟩ := Except.bind_eq_ok.mp h
    obtain ⟨_, _, rfl⟩ := Except.map_eq_ok.mp h
    rfl

mutual
/-- Turning tables into rows has no regard to labels. -/
theorem ofEntries_bare : (w : Written) →
    ofEntries s form w.bare = (ofEntry s form w).map Written.bare
  | .constraint layout d => by
    simp only [Written.bare, ofEntries, ofEntry]
    cases materialize s form ownVariables layout <;> rfl
  | .group template arguments d => by
    simp only [Written.bare, ofEntries, ofEntry]
    cases materialize s form (instanceVariables arguments) template <;> rfl
  | .slide list offset circular template d => by
    simp only [Written.bare, ofEntries, ofEntry]
    cases materialize s form (fun _ => list) template <;> rfl
  | .equalities list values d => rfl
  | .block entries d => by
    rw [Written.bare, ofEntry, ofEntries_bareAll entries]
    cases ofEntries s form entries <;> rfl

theorem ofEntries_bareAll : (list : List Written) →
    ofEntries s form (Written.bareAll list) = (ofEntries s form list).map Written.bareAll
  | [] => rfl
  | w :: rest => by
    rw [Written.bareAll, ofEntries_append, ofEntries_bare w, ofEntries_bareAll rest, ofEntries]
    cases ofEntry s form w with
    | error cause => rfl
    | ok w => cases ofEntries s form rest <;> rfl
end

end Rows

namespace Document

theorem entryElements_append (w : ListText) (list list' : List Written) :
    entryElements w (list ++ list') = entryElements w list ++ entryElements w list' := by
  induction list with
  | nil => rfl
  | cons entry rest ih => rw [List.cons_append, entryElements, entryElements, ih, List.cons_append]

mutual
/-- The elements of entries are those of the bare entries up to labels and blocks. -/
theorem unlabelled_entryElement (w : ListText) : (entry : Written) →
    (entryElement w entry).unlabelled = Element.unlabelledAll (entryElements w entry.bare)
  | .constraint _ _ | .group _ _ _ | .slide _ _ _ _ _ | .equalities _ _ _ => by
    simp only [Written.bare, entryElements, entryElement, Element.unlabelledAll,
      unlabelled_decorated, List.append_nil]
  | .block entries d => by
    have hname : ((Element.ofToken .block).withChildren (entryElements w entries)).name =
        Token.block.text := rfl
    rw [Written.bare, entryElement, unlabelled_decorated, ← unlabelledAll_entryElements w entries,
      Element.unlabelled_eq, if_pos hname]
    rfl

theorem unlabelledAll_entryElements (w : ListText) : (entries : List Written) →
    Element.unlabelledAll (entryElements w entries) =
      Element.unlabelledAll (entryElements w (Written.bareAll entries))
  | [] => rfl
  | entry :: rest => by
    rw [Written.bareAll, entryElements_append, Element.unlabelledAll_append, entryElements,
      Element.unlabelledAll, unlabelled_entryElement w entry, unlabelledAll_entryElements w rest]
end

end Document

/-! ### Postings of which something is written -/

/-- Whether a relation is posted: a slide without windows is none. -/
def Posting.Solid (p : Posting) : Prop := Constraint.relationsOf p.body.constraints ≠ []

/-- Whether the posting has labels. -/
def Posting.IsLabelled (p : Posting) : Prop := p.decoration.isEmpty = false

/-- Whether one of the postings has labels. -/
def Model.IsLabelled (m : Model) : Prop := ∃ p ∈ m.postings, p.IsLabelled

namespace Grouping

variable (g : Grouping)

theorem partition_ne_nil {candidates : List Candidate} (h : candidates ≠ []) :
    ∃ members rest, members ≠ [] ∧ partition candidates = members :: rest := by
  obtain ⟨first, rest, rfl⟩ := List.exists_cons_of_ne_nil h
  rw [partition]
  exact ⟨_, _, List.cons_ne_nil _ _, rfl⟩

theorem writePart_ne_nil {members : List Candidate} (h : members ≠ []) :
    g.writePart members ≠ [] := by
  unfold writePart
  dsimp only
  split
  · exact mt List.map_eq_nil_iff.mp h
  · split
    · exact List.cons_ne_nil _ _
    · split
      · exact List.cons_ne_nil _ _
      · exact mt List.map_eq_nil_iff.mp h

theorem writeRun_ne_nil (gather : Bool) {relations : List Relation} (h : relations ≠ []) :
    g.writeRun gather relations ≠ [] := by
  unfold writeRun
  split
  · have hcandidates : relations.map (Candidate.ofRelation g.names) ≠ [] :=
      mt List.map_eq_nil_iff.mp h
    obtain ⟨members, rest, hmembers, hpartition⟩ := partition_ne_nil hcandidates
    rw [hpartition, List.flatMap_cons]
    exact List.append_ne_nil_of_left_ne_nil (g.writePart_ne_nil hmembers) _
  · exact mt List.map_eq_nil_iff.mp h

theorem writeSegment_eq_nil_iff (gather : Bool) (segment : Segment) :
    g.writeSegment gather segment = [] ↔ segment.relations = [] := by
  have hrun : ∀ gather relations, g.writeRun gather relations = [] ↔ relations = [] :=
    fun gather relations => by
      refine ⟨fun h => by_contra fun hne => g.writeRun_ne_nil gather hne h, ?_⟩
      rintro rfl
      simp [writeRun]
  cases segment with
  | run relations => exact hrun gather relations
  | slide windows =>
    rw [writeSegment, Segment.relations]
    split
    · rename_i entry hentry
      refine iff_of_false (List.cons_ne_nil _ _) ?_
      -- without windows there is no part that a slide could be made of
      rintro rfl
      simp [recognized?, recognize?, partition] at hentry
    · exact hrun true windows

theorem writeConstraints_eq_nil_iff (gather : Bool) (constraints : List Constraint) :
    g.writeConstraints gather constraints = [] ↔ Constraint.relationsOf constraints = [] := by
  rw [writeConstraints, ← flatMap_relations_segments, List.flatMap_eq_nil_iff,
    List.flatMap_eq_nil_iff]
  simp only [writeSegment_eq_nil_iff]

theorem decorate_eq_nil_iff (d : Decoration) (entries : List Written) :
    decorate d entries = [] ↔ entries = [] ∧ d.isEmpty = true := by
  unfold decorate
  split
  · rename_i hd
    rw [hd, eq_self_iff_true, and_true]
  · rename_i hd
    refine iff_of_false ?_ fun h => hd h.2
    split <;> exact List.cons_ne_nil _ _

/-- Something is written exactly if a relation is posted or there are labels. -/
theorem write_ne_nil_iff (postings : List Posting) :
    g.write postings ≠ [] ↔ (∃ p ∈ postings, p.Solid) ∨ ∃ p ∈ postings, p.IsLabelled := by
  have hposting : ∀ p, g.writePosting p ≠ [] ↔ p.Solid ∨ p.IsLabelled := fun p => by
    rw [writePosting, ne_eq, decorate_eq_nil_iff, writeConstraints_eq_nil_iff, not_and_or,
      Bool.not_eq_true]
    rfl
  rw [write, ne_eq, List.flatMap_eq_nil_iff]
  push Not
  simp only [hposting, and_or_left, exists_or]

end Grouping

/-! ### What is kept when postings are settled -/

/-- Whether the postings are what a posting is settled as: one with as many relations and the
same labels, and links without labels. -/
inductive Posting.SettledAs (p : Posting) : List Posting → Prop
  | intro {q : Posting} {links : List Posting} :
      (Constraint.relationsOf q.body.constraints).length =
        (Constraint.relationsOf p.body.constraints).length →
      q.decoration = p.decoration → (∀ link ∈ links, link.decoration = {}) →
      SettledAs p (q :: links)

namespace Introducing

variable {state state' : Introduction}

mutual
/-- Settling keeps the number of relations. -/
theorem length_relations_settle {c c' : Constraint} {state state' : Introduction}
    (hrun : settle c state = .ok (c', state')) : c'.relations.length = c.relations.length := by
  cases c with
  | relation r =>
    obtain ⟨_, _, rfl⟩ := map_eq_ok hrun
    rfl
  | slide windows =>
    obtain ⟨_, hwindows, rfl⟩ := map_eq_ok hrun
    exact length_relationsOf_settleAll hwindows
termination_by sizeOf c

theorem length_relationsOf_settleAll {list list' : List Constraint}
    {state state' : Introduction} (hrun : settleAll list state = .ok (list', state')) :
    (Constraint.relationsOf list').length = (Constraint.relationsOf list).length := by
  cases list with
  | nil =>
    cases hrun
    rfl
  | cons c rest =>
    obtain ⟨c', state₁, hc, hrun⟩ := bind_eq_ok.mp hrun
    obtain ⟨rest', state₂, hrest, hrun⟩ := bind_eq_ok.mp hrun
    cases hrun
    simp only [Constraint.relationsOf, List.length_append, length_relations_settle hc,
      length_relationsOf_settleAll hrest]
termination_by sizeOf list
end

theorem decoration_gathered {links : List Constraint} :
    ∀ p ∈ gathered links, p.decoration = {} := by
  intro p hp
  unfold gathered at hp
  split at hp
  · cases hp
  · rw [List.mem_singleton.mp hp]

theorem settledAs_settlePosting {p : Posting} {written : List Posting}
    (hrun : settlePosting p state = .ok (written, state')) : p.SettledAs written := by
  obtain ⟨body, decoration⟩ := p
  cases body with
  | single c =>
    obtain ⟨c', state₁, hc, hrun⟩ := bind_eq_ok.mp hrun
    obtain ⟨links, state₂, -, hrun⟩ := bind_eq_ok.mp hrun
    cases hrun
    refine .intro ?_ rfl (List.forall_mem_map.mpr fun _ _ => rfl)
    simpa [Body.constraints, Constraint.relationsOf] using length_relations_settle hc
  | gather constraints =>
    obtain ⟨constraints', state₁, hc, hrun⟩ := bind_eq_ok.mp hrun
    obtain ⟨links, state₂, -, hrun⟩ := bind_eq_ok.mp hrun
    cases hrun
    exact .intro (length_relationsOf_settleAll hc) rfl decoration_gathered

theorem forall₂_settlePosting {postings : List Posting} {written : List (List Posting)}
    (hrun : postings.mapM settlePosting state = .ok (written, state')) :
    List.Forall₂ Posting.SettledAs postings written := by
  induction postings generalizing state state' written with
  | nil =>
    cases hrun
    exact .nil
  | cons p rest ih =>
    rw [List.mapM_cons] at hrun
    obtain ⟨here, state₁, hhere, hrun⟩ := bind_eq_ok.mp hrun
    obtain ⟨later, state₂, hlater, hrun⟩ := bind_eq_ok.mp hrun
    cases hrun
    exact .cons (settledAs_settlePosting hhere) (ih hlater)

theorem decoration_settleObjective {objective objective' : Option Objective}
    {links : List Posting}
    (hrun : settleObjective objective state = .ok ((objective', links), state')) :
    ∀ p ∈ links, p.decoration = {} := by
  cases objective with
  | none =>
    cases hrun
    exact List.forall_mem_nil _
  | some o =>
    obtain ⟨target, state₁, -, hrun⟩ := bind_eq_ok.mp hrun
    obtain ⟨links, state₂, -, hrun⟩ := bind_eq_ok.mp hrun
    cases hrun
    exact decoration_gathered

end Introducing

namespace Introduced

variable {m : Model} {p : Introduced}

/-- The postings with auxiliary variables are what those of the model are settled as, and
links without labels. -/
theorem exists_settledAs (hp : ofModel m = .ok p) : ∃ written links,
    p.postings = written.flatten ++ links ∧
      List.Forall₂ Posting.SettledAs m.postings written ∧ ∀ q ∈ links, q.decoration = {} := by
  obtain ⟨⟨⟨_, _⟩, _⟩, hrun, hp⟩ := Except.bind_eq_ok.mp hp
  cases hp
  obtain ⟨written, state₁, hwritten, hrun⟩ := Introducing.bind_eq_ok.mp hrun
  obtain ⟨⟨_, links⟩, state₂, hlinks, hrun⟩ := Introducing.bind_eq_ok.mp hrun
  cases hrun
  exact ⟨written, links, rfl, Introducing.forall₂_settlePosting hwritten,
    Introducing.decoration_settleObjective hlinks⟩

/-- Every posting is still there, with its relations and labels, among those with auxiliary
variables. -/
theorem exists_settled (hp : ofModel m = .ok p) {q : Posting} (hq : q ∈ m.postings) :
    ∃ q' ∈ p.postings, (Constraint.relationsOf q'.body.constraints).length =
      (Constraint.relationsOf q.body.constraints).length ∧ q'.decoration = q.decoration := by
  obtain ⟨written, links, hpostings, hsettled, -⟩ := exists_settledAs hp
  obtain ⟨_, hlist, @⟨q', _, hlength, hdecoration, -⟩⟩ := exists_of_forall₂_of_mem hsettled.flip hq
  refine ⟨q', ?_, hlength, hdecoration⟩
  rw [hpostings]
  exact List.mem_append_left _ (List.mem_flatten_of_mem hlist List.mem_cons_self)

theorem exists_solid (hp : ofModel m = .ok p) (hm : ∃ q ∈ m.postings, q.Solid) :
    ∃ q ∈ p.postings, q.Solid := by
  obtain ⟨q, hq, hsolid⟩ := hm
  obtain ⟨q', hq', hlength, -⟩ := exists_settled hp hq
  refine ⟨q', hq', fun hnil => hsolid (List.eq_nil_of_length_eq_zero ?_)⟩
  rw [← hlength, hnil, List.length_nil]

/-- Auxiliary variables bring no labels along. -/
theorem exists_isLabelled_iff (hp : ofModel m = .ok p) :
    (∃ q ∈ p.postings, q.IsLabelled) ↔ m.IsLabelled := by
  constructor
  · rintro ⟨q, hq, hlabelled⟩
    obtain ⟨written, links, hpostings, hsettled, hlinks⟩ := exists_settledAs hp
    have hplain : q.decoration ≠ {} := fun heq => by
      rw [Posting.IsLabelled, heq] at hlabelled
      cases hlabelled
    rw [hpostings] at hq
    rcases List.mem_append.mp hq with hq | hq
    · obtain ⟨list, hlist, hq⟩ := List.mem_flatten.mp hq
      obtain ⟨q', hq', ⟨-, hdecoration, hlinks⟩⟩ := exists_of_forall₂_of_mem hsettled hlist
      rcases List.mem_cons.mp hq with rfl | hq
      · exact ⟨q', hq', by rwa [Posting.IsLabelled, ← hdecoration]⟩
      · exact absurd (hlinks q hq) hplain
    · exact absurd (hlinks q hq) hplain
  · rintro ⟨q, hq, hlabelled⟩
    obtain ⟨q', hq', -, hdecoration⟩ := exists_settled hp hq
    exact ⟨q', hq', by rwa [Posting.IsLabelled, hdecoration]⟩

end Introduced

/-! ### Models without labels -/

/-- The posting without labels. -/
def Posting.bare (p : Posting) : Posting := { p with decoration := {} }

namespace Introducing

@[simp] theorem map_bare_gathered (links : List Constraint) :
    (gathered links).map Posting.bare = gathered links := by
  unfold gathered
  split <;> rfl

/-- A posting is settled without regard to its labels. -/
theorem settlePosting_bare (p : Posting) :
    settlePosting p.bare = List.map Posting.bare <$> settlePosting p := by
  obtain ⟨body, decoration⟩ := p
  cases body with
  | single c =>
    simp only [settlePosting, Posting.bare, map_bind, map_pure, List.map_cons, List.map_map]
    rfl
  | gather constraints =>
    simp only [settlePosting, Posting.bare, map_bind, map_pure, List.map_cons, map_bare_gathered]

theorem mapM_settlePosting_bare (postings : List Posting) :
    (postings.map Posting.bare).mapM settlePosting =
      List.map (List.map Posting.bare) <$> postings.mapM settlePosting := by
  induction postings with
  | nil => simp
  | cons p rest ih =>
    simp only [List.map_cons, List.mapM_cons, settlePosting_bare, ih, map_bind, bind_map_left,
      map_pure]

end Introducing

/-- The model without labels. -/
def Model.bare (m : Model) : Model := { m with postings := m.postings.map Posting.bare }

theorem Introducing.settleModel_bare (m : Model) :
    settleModel m.bare =
      (fun settled => (settled.1.map Posting.bare, settled.2)) <$> settleModel m := by
  simp only [settleModel, Model.bare, mapM_settlePosting_bare, bind_map_left, map_bind, map_pure,
    List.map_append, List.map_flatten]
  refine congrArg (m.postings.mapM settlePosting >>= ·) (funext fun postings => ?_)
  cases m.objective with
  | none => simp [settleObjective]
  | some o => simp [settleObjective]

namespace Introduced

/-- The problem without labels. -/
def bare (p : Introduced) : Introduced := { p with postings := p.postings.map Posting.bare }

theorem ofModel_bare (m : Model) : ofModel m.bare = (ofModel m).map bare := by
  unfold ofModel
  rw [Introducing.settleModel_bare, StateT.run_map]
  have hstore : m.bare.store = m.store := rfl
  rw [hstore]
  cases (Introducing.settleModel m).run { store := m.store } <;> rfl

theorem constraintCount_bare (p : Introduced) : p.bare.constraintCount = p.constraintCount := by
  simp only [constraintCount, bare, List.map_map]
  rfl

end Introduced

namespace Grouping

theorem bareAll_decorate (d : Decoration) (entries : List Written) :
    Written.bareAll (decorate d entries) = Written.bareAll entries := by
  unfold decorate
  split
  · rfl
  · split
    · simp [Written.bareAll]
    · simp [Written.bareAll, Written.bare]

/-- Without labels and blocks the same is written with and without labels. -/
theorem bareAll_write (g : Grouping) (postings : List Posting) :
    Written.bareAll (g.write (postings.map Posting.bare)) = Written.bareAll (g.write postings) := by
  induction postings with
  | nil => rfl
  | cons p rest ih =>
    have hp : Written.bareAll (g.writePosting p.bare) = Written.bareAll (g.writePosting p) := by
      simp only [writePosting, bareAll_decorate, Posting.bare]
    simp only [write, List.map_cons, List.flatMap_cons, Written.bareAll_append, hp] at ih ⊢
    rw [ih]

end Grouping

theorem Except.cases_of_map_eq {ε α β : Type} {f : α → β} {x x' : Except ε α}
    (h : x'.map f = x.map f) : (∃ cause, x = .error cause ∧ x' = .error cause) ∨
      ∃ a a', x = .ok a ∧ x' = .ok a' ∧ f a' = f a := by
  cases x with
  | error cause =>
    cases x' with
    | error cause' =>
      cases h
      exact .inl ⟨cause, rfl, rfl⟩
    | ok a' => cases h
  | ok a =>
    cases x' with
    | error cause' => cases h
    | ok a' => exact .inr ⟨a, a', rfl, rfl, Except.ok.inj h⟩

/-- Whether a relation is posted is not a matter of labels. -/
theorem Posting.exists_solid_bare (postings : List Posting) :
    (∃ p ∈ postings.map Posting.bare, p.Solid) ↔ ∃ p ∈ postings, p.Solid := by
  simp only [List.mem_map, exists_exists_and_eq_and]
  rfl

/-- There are no entries exactly if no relation is posted or arises and nothing has labels. -/
theorem Introduced.isEmpty_entries_iff {m : Model} {p : Introduced} (hp : ofModel m = .ok p)
    (options : Options) : (p.entries options).isEmpty = true ↔
      ¬((∃ q ∈ p.postings, q.Solid) ∨ m.IsLabelled) := by
  rw [List.isEmpty_iff, ← exists_isLabelled_iff hp, ← (p.grouping options).write_ne_nil_iff,
    not_ne_iff]
  rfl

/-! ### Documents without labels -/

namespace Element

/-- Whether the element is a section for constraints with nothing in it. -/
def isIdle (e : Element) : Bool := e.name == Token.constraints.text && e.children.isEmpty

/-- The element without idle sections. -/
def withoutIdle (e : Element) : Element := { e with children := e.children.filter (!·.isIdle) }

end Element

namespace Document

/-- The section for the constraints of entries without labels and blocks. -/
def bareSection (w : ListText) (entries : List Written) : Element :=
  (Element.ofToken .constraints).withChildren
    (Element.unlabelledAll (entryElements w (Written.bareAll entries)))

/-- This section, if there are entries. -/
def bareSections (w : ListText) (entries : List Written) : List Element :=
  if entries.isEmpty then [] else [bareSection w entries]

variable (compactLists : Bool) (shareDomainsAbove : Nat) (store : Store)
  (objective : Option Objective) (annotations : Annotations)

/-- Only the section for the constraints depends on the entries, and it is there if there are
any. -/
theorem exists_unlabelled_ofProblem : ∃ (root : Element) (front back : List Element),
    ∀ entries, (ofProblem compactLists shareDomainsAbove
        ⟨store, entries, objective, annotations⟩).unlabelled =
      [{ root with
        children := front ++ bareSections ⟨store, compactLists⟩ entries ++ back }] := by
  have hconstraints : ∀ entries,
      Element.unlabelledAll (constraintsElement? ⟨store, compactLists⟩ entries).toList =
        bareSections ⟨store, compactLists⟩ entries := by
    intro entries
    rw [bareSections, bareSection, ← unlabelledAll_entryElements, constraintsElement?]
    split
    · rfl
    · simp only [Option.toList_some, Element.unlabelledAll, Element.unlabelled_eq,
        Element.withChildren, Element.ofToken, List.append_nil, List.filter_nil]
      rfl
  let w : ListText := ⟨store, compactLists⟩
  let root := ((Element.ofToken .root).withAttribute .format "XCSP3").withAttribute .kind
    (if objective.isSome then "COP" else "CSP")
  let front := [variablesSection w shareDomainsAbove]
  let back := (objective.map fun o =>
      (Element.ofToken .objectives).withChild (objectiveElement w o)).toList ++
    (if annotations.isEmpty then [] else [annotationsElement w annotations])
  refine ⟨{ root with attributes := root.attributes.filter Element.isPlain },
    Element.unlabelledAll front, Element.unlabelledAll back, fun entries => ?_⟩
  have hsections : ∀ middle, Element.unlabelledAll (front ++ middle ++ back) =
      Element.unlabelledAll front ++ Element.unlabelledAll middle ++ Element.unlabelledAll back :=
    fun middle => by rw [Element.unlabelledAll_append, Element.unlabelledAll_append]
  have hdocument : ofProblem compactLists shareDomainsAbove
      ⟨store, entries, objective, annotations⟩ =
        root.withChildren (front ++ (constraintsElement? w entries).toList ++ back) :=
    congrArg root.withChildren (List.append_assoc _ _ _)
  have hname : root.name ≠ Token.block.text := by
    show Token.root.text ≠ Token.block.text
    decide
  rw [← hconstraints, ← hsections, hdocument]
  exact (Element.unlabelled_eq _).trans (if_neg hname)

variable {entries entries' : List Written}
  (hentries : Written.bareAll entries' = Written.bareAll entries)

include hentries

/-- With the same bare entries the documents are the same up to labels, if none or both have a
section for them. -/
theorem unlabelled_ofProblem_eq_iff :
    (ofProblem compactLists shareDomainsAbove
        ⟨store, entries', objective, annotations⟩).unlabelled =
      (ofProblem compactLists shareDomainsAbove
        ⟨store, entries, objective, annotations⟩).unlabelled ↔
      entries'.isEmpty = entries.isEmpty := by
  obtain ⟨root, front, back, h⟩ :=
    exists_unlabelled_ofProblem compactLists shareDomainsAbove store objective annotations
  rw [h, h, bareSections, bareSections, bareSection, bareSection, hentries]
  cases entries'.isEmpty <;> cases entries.isEmpty <;> simp

/-- With the same bare entries the documents are the same up to labels and idle sections. -/
theorem map_withoutIdle_ofProblem :
    (ofProblem compactLists shareDomainsAbove
        ⟨store, entries', objective, annotations⟩).unlabelled.map Element.withoutIdle =
      (ofProblem compactLists shareDomainsAbove
        ⟨store, entries, objective, annotations⟩).unlabelled.map Element.withoutIdle := by
  obtain ⟨root, front, back, h⟩ :=
    exists_unlabelled_ofProblem compactLists shareDomainsAbove store objective annotations
  -- a section that is left out is one in which nothing would be
  have hidle : ∀ entries, (bareSections ⟨store, compactLists⟩ entries).filter (!·.isIdle) =
      [bareSection ⟨store, compactLists⟩ entries].filter (!·.isIdle) := fun entries => by
    cases entries <;> rfl
  simp only [h, List.map_cons, List.map_nil, Element.withoutIdle, List.filter_append, hidle]
  rw [bareSection, bareSection, hentries]

end Document

/-- What a compilation gives up to labels: the document without labels and blocks, its name,
and the counts that labels and blocks have no part in. -/
def Compiled.unlabelled (c : Compiled) : List Element × String × Statistics :=
  (c.document.unlabelled, c.fileStem, { c.statistics with blocks := 0, taggedEntries := 0 })

/-- What a compilation states: the same without idle sections. -/
def Compiled.stated (c : Compiled) : List Element × String × Statistics :=
  (c.unlabelled.1.map Element.withoutIdle, c.unlabelled.2)

namespace Model

variable {m m' : Model}

/-- Models and problems that are the same without labels are finished to the same up to labels
and idle sections. -/
theorem finish_agree (hsame : m'.bare = m.bare) (options : Options) {p p' : Introduced}
    (hp : p'.bare = p.bare) {entries entries' : List Written}
    (hentries : Written.bareAll entries' = Written.bareAll entries) :
    (m'.finish options p' entries').1.stated = (m.finish options p entries).1.stated ∧
      ((m'.finish options p' entries').1.unlabelled = (m.finish options p entries).1.unlabelled ↔
        entries'.isEmpty = entries.isEmpty) := by
  -- notes may be dropped before the document is made
  have hkept : Written.bareAll (if options.notes then entries' else Written.dropNotesAll entries') =
      Written.bareAll (if options.notes then entries else Written.dropNotesAll entries) := by
    rw [Written.bareAll_kept, Written.bareAll_kept, hentries]
  have hcount : p'.constraintCount = p.constraintCount := by
    rw [← Introduced.constraintCount_bare, hp, Introduced.constraintCount_bare]
  obtain ⟨hname, hdeclared, -, -, hannotations, -⟩ := Model.mk.inj hsame
  obtain ⟨hstore, -, hobjective, hreplaced⟩ := Introduced.mk.inj hp
  have hdocument := Document.unlabelled_ofProblem_eq_iff options.compactLists
    options.shareDomainsAbove p.store p.objective m.annotations.withoutRepeats hkept
  have hstated := Document.map_withoutIdle_ofProblem options.compactLists
    options.shareDomainsAbove p.store p.objective m.annotations.withoutRepeats hkept
  rw [Written.isEmpty_kept, Written.isEmpty_kept] at hdocument
  simp only [finish, statisticsOf, Compiled.stated, Compiled.unlabelled, Introduced.auxiliaries,
    hname, hdeclared, hannotations, hstore, hobjective, hreplaced, hcount,
    Written.plain_isGroup.totalOf_eq hkept, Written.plain_instanceCount.totalOf_eq hkept,
    Written.plain_isSlide.totalOf_eq hkept, Written.plain_isEqualities.totalOf_eq hkept,
    Written.plain_rowCount.totalOf_eq hkept, Prod.mk.injEq, and_true]
  exact ⟨hstated, hdocument⟩

theorem build_eq_table_error {p : Introduced} {cause : TableError} {options : Options}
    (hp : Introduced.ofModel m = .ok p)
    (h : Rows.ofEntries p.store options.tableForm (p.entries options) = .error cause) :
    (m.build options).1 = .error (.table cause) := by
  unfold build
  simp only [hp, h]

/-- Models that are the same without labels are refused for the same reason, or both built and
state the same.  They have the same document up to labels, unless no relation is posted or
arises and only one of them has labels. -/
theorem build_agree (hsame : m'.bare = m.bare) (options : Options) :
    (∃ cause, (m.build options).1 = .error cause ∧ (m'.build options).1 = .error cause) ∨
    ∃ p c c', Introduced.ofModel m = .ok p ∧ (m.build options).1 = .ok c ∧
      (m'.build options).1 = .ok c' ∧ c'.stated = c.stated ∧
      (c'.unlabelled = c.unlabelled ↔
        (∃ q ∈ p.postings, q.Solid) ∨ (m'.IsLabelled ↔ m.IsLabelled)) := by
  have hmodels : (Introduced.ofModel m').map Introduced.bare =
      (Introduced.ofModel m).map Introduced.bare := by
    rw [← Introduced.ofModel_bare, ← Introduced.ofModel_bare, hsame]
  rcases Except.cases_of_map_eq hmodels with ⟨cause, hm, hm'⟩ | ⟨p, p', hm, hm', hp⟩
  · exact .inl ⟨cause, by rw [build_eq_error hm], by rw [build_eq_error hm']⟩
  obtain ⟨hstore, hpostings, -, -⟩ := Introduced.mk.inj hp
  have hgrouping : p'.grouping options = p.grouping options := by
    rw [Introduced.grouping, hstore, Introduced.grouping]
  have hentries : Written.bareAll (p'.entries options) = Written.bareAll (p.entries options) := by
    rw [Introduced.entries, hgrouping, ← Grouping.bareAll_write, hpostings, Grouping.bareAll_write]
    rfl
  have hrows := congrArg (Rows.ofEntries p.store options.tableForm) hentries
  rw [Rows.ofEntries_bareAll, Rows.ofEntries_bareAll] at hrows
  rcases Except.cases_of_map_eq hrows with ⟨cause, hrows, hrows'⟩ |
    ⟨entries, entries', hrows, hrows', hbare⟩
  · exact .inl ⟨.table cause, build_eq_table_error hm hrows,
      build_eq_table_error hm' (hstore ▸ hrows')⟩
  · obtain ⟨hstated, hiff⟩ := finish_agree hsame options hp hbare
    refine .inr ⟨p, _, _, hm, build_eq_ok.mpr ⟨p, entries, hm, hrows, rfl⟩,
      build_eq_ok.mpr ⟨p', entries', hm', hstore ▸ hrows', rfl⟩, hstated, hiff.trans ?_⟩
    have hsolid : (∃ q ∈ p'.postings, q.Solid) ↔ ∃ q ∈ p.postings, q.Solid := by
      rw [← Posting.exists_solid_bare, hpostings, Posting.exists_solid_bare]
    rw [Rows.isEmpty_ofEntries hrows, Rows.isEmpty_ofEntries hrows', Bool.eq_iff_iff,
      Introduced.isEmpty_entries_iff hm, Introduced.isEmpty_entries_iff hm', hsolid,
      not_iff_not]
    by_cases h : ∃ q ∈ p.postings, q.Solid
    · simp only [h, true_or]
    · simp only [h, false_or]

end Model

/-! ### Calls up to labels -/

/-- A constraint that was built has a relation, as no slide is without windows. -/
theorem Constraint.Built.relations_ne_nil {known : Variable → Prop} {c : Constraint}
    (h : c.Built known) : c.relations ≠ [] := by
  rcases h.relation_or_slide with ⟨r, rfl, -⟩ | ⟨windows, rfl, hne, hwindows⟩
  · exact List.cons_ne_nil r []
  · obtain ⟨w, rest, rfl⟩ := List.exists_cons_of_ne_nil hne
    have hw : w.relations ≠ [] := (hwindows w List.mem_cons_self).relations_ne_nil
    exact List.append_ne_nil_of_left_ne_nil hw _
termination_by sizeOf c

/-- The call without the labels of a posting. -/
def Call.bare : Call → Call
  | .change (.post item _) => .change (.post item {})
  | c => c

namespace Model

variable {m : Model}

/-! #### Checks have no regard to what is posted -/

theorem checkScope_bare (list : List Variable) : m.bare.checkScope list = m.checkScope list := by
  induction list with
  | nil => rfl
  | cons v rest ih => rw [checkScope, checkScope, ih]; rfl

theorem checkColumns_bare (column : Nat) (list : List Expr) (kinds : List (Option Kind)) :
    m.bare.checkColumns column list kinds = m.checkColumns column list kinds := by
  induction list generalizing column kinds with
  | nil => simp only [checkColumns]
  | cons e rest ih =>
    cases kinds with
    | nil => simp only [checkColumns]
    | cons kind kinds => simp only [checkColumns, ih]; rfl

theorem checkBinary_bare (list : List Variable) : m.bare.checkBinary list = m.checkBinary list := by
  induction list with
  | nil => rfl
  | cons v rest ih => rw [checkBinary, checkBinary, ih]; rfl

theorem checkDomains_bare (r : Relation) : m.bare.checkDomains r = m.checkDomains r := by
  unfold checkDomains
  simp only [checkColumns_bare, checkBinary_bare]

theorem checkTarget_bare (list : List Variable) : m.bare.checkTarget list = m.checkTarget list := by
  induction list with
  | nil => rfl
  | cons v rest ih => rw [checkTarget, checkTarget, ih]; rfl

mutual
theorem validate_bare : (c : Constraint) → m.bare.validate c = m.validate c
  | .relation r => by rw [validate, validate, checkScope_bare, checkDomains_bare]
  | .slide windows => by rw [validate, validate, checkScope_bare, validateAll_bare windows]

theorem validateAll_bare : (list : List Constraint) → m.bare.validateAll list = m.validateAll list
  | [] => by rw [validateAll, validateAll]
  | c :: rest => by rw [validateAll, validateAll, validate_bare c, validateAll_bare rest]
end

/-- A call does the same to a model without labels. -/
theorem call_bare (m : Model) (c : Call) : (m.bare.call c.bare).2 = (m.call c).2.bare := by
  have hopen : m.bare.checkOpen = m.checkOpen := rfl
  have hstore : m.bare.store = m.store := rfl
  cases c with
  | compile options => rfl
  | change c =>
    cases c with
    | addVariable name d =>
      simp only [Call.bare, call, change, addVariable, hopen, hstore]
      cases m.checkOpen with
      | error cause => rfl
      | ok u => cases m.store.declareVariable name d <;> rfl
    | addArray name shape domainAt =>
      simp only [Call.bare, call, change, addArray_eq, hopen, hstore]
      cases m.checkOpen with
      | error cause => rfl
      | ok u => cases m.store.declareArray name shape domainAt <;> rfl
    | post item decoration =>
      simp only [Call.bare, call, change, post, hopen, validateAll_bare]
      cases m.checkOpen with
      | error cause => rfl
      | ok u =>
        cases item.flatten with
        | error cause => rfl
        | ok constraints =>
          simp only [bind, Except.bind]
          cases m.validateAll constraints with
          | error cause => rfl
          | ok u =>
            cases constraints with
            | nil => rfl
            | cons c rest => simp [pure, Except.pure, Except.map, bare, Posting.bare]
    | optimize direction target =>
      have hobjective : m.bare.objective = m.objective := rfl
      simp only [Call.bare, call, change, optimize, hopen, hobjective, checkTarget_bare, bind,
        Except.bind]
      cases m.checkOpen with
      | error cause => rfl
      | ok u =>
        cases m.objective with
        | some o => rfl
        | none =>
          cases target.isNumeric with
          | false => rfl
          | true =>
            simp only [Option.isSome_none, Bool.false_eq_true, ↓reduceIte, Bool.not_true]
            cases m.checkTarget target.scope <;> rfl
    | annotateDecision list =>
      simp only [Call.bare, call, change, annotateDecision, hopen, checkScope_bare, bind,
        Except.bind]
      cases m.checkOpen with
      | error cause => rfl
      | ok u =>
        simp only
        cases m.checkScope list with
        | error cause => rfl
        | ok u => cases list <;> rfl
    | annotateValueHeuristic list values =>
      simp only [Call.bare, call, change, annotateValueHeuristic, hopen, checkScope_bare, bind,
        Except.bind]
      cases m.checkOpen with
      | error cause => rfl
      | ok u =>
        simp only
        cases m.checkScope list with
        | error cause => rfl
        | ok u => cases list <;> rfl

theorem after_bare (m : Model) (calls : List Call) :
    m.bare.after (calls.map Call.bare) = (m.after calls).bare := by
  induction calls generalizing m with
  | nil => rfl
  | cons c calls ih => rw [List.map_cons, after_cons, after_cons, call_bare, ih]

/-! #### What is posted -/

/-- What is posted was built, so it has a relation. -/
theorem solid_call {known : Variable → Prop} (hm : ∀ p ∈ m.postings, p.Solid) {c : Call}
    (hc : ∀ item d, c = .change (.post item d) → item.Built known) :
    ∀ p ∈ (m.call c).2.postings, p.Solid := by
  obtain ⟨m', hm'⟩ : ∃ m', (m.call c).2 = m' := ⟨_, rfl⟩
  rw [hm']
  rcases call_cases hm' with ⟨_, _, rfl⟩ | rfl | ⟨change, rfl, h⟩
  · exact hm
  · exact hm
  · cases h with
    | @post item d body hflatten _ hne =>
      refine List.forall_mem_append.mpr ⟨hm, List.forall_mem_singleton.mpr fun hnil => ?_⟩
      obtain ⟨c, hcs⟩ := List.exists_mem_of_ne_nil _ hne
      obtain ⟨r, hr⟩ := List.exists_mem_of_ne_nil _
        ((hc item d rfl).flatten hflatten c hcs).relations_ne_nil
      have hmem : r ∈ Constraint.relationsOf body.constraints :=
        Constraint.mem_relationsOf.mpr ⟨c, hcs, hr⟩
      rw [hnil] at hmem
      cases hmem
    | _ => exact hm

theorem solid_after {known : Variable → Prop} {calls : List Call}
    (hcalls : ∀ item d, .change (.post item d) ∈ calls → item.Built known)
    (hm : ∀ p ∈ m.postings, p.Solid) : ∀ p ∈ (m.after calls).postings, p.Solid := by
  induction calls generalizing m with
  | nil => exact hm
  | cons c calls ih =>
    have hc : ∀ item d, c = .change (.post item d) → item.Built known := by
      rintro item d rfl
      exact hcalls item d List.mem_cons_self
    exact ih (fun item d h => hcalls item d (List.mem_cons_of_mem _ h)) (solid_call hm hc)

/-- If every posting states a relation, one is posted or arises, or nothing is posted and so
nothing has labels. -/
theorem exists_solid_or_isLabelled_iff {m' : Model} {p : Introduced} (hbare : m'.bare = m.bare)
    (hp : Introduced.ofModel m = .ok p) (hsolid : ∀ q ∈ m.postings, q.Solid) :
    (∃ q ∈ p.postings, q.Solid) ∨ (m'.IsLabelled ↔ m.IsLabelled) := by
  by_cases hnil : m.postings = []
  · have hpostings : m'.postings.map Posting.bare = m.postings.map Posting.bare :=
      (Model.mk.inj hbare).2.2.1
    rw [hnil, List.map_nil, List.map_eq_nil_iff] at hpostings
    simp [IsLabelled, hnil, hpostings]
  · obtain ⟨q, hq⟩ := List.exists_mem_of_ne_nil _ hnil
    exact .inl (Introduced.exists_solid hp ⟨q, hq, hsolid q hq⟩)

/-- Labels never influence the constraints.  Take two models that the same calls lead to, up to
the labels of what is posted.

* They are refused with the same error, or compiled to documents that are the same without
  labels, blocks and idle sections; and what was counted differs in the blocks and the entries
  with labels only.
* The documents are already the same without labels and blocks, unless no relation is posted or
  arises and only one of the models has labels.
* So they are if every posting states a relation, as everything that was built does. -/
theorem labels_are_advisory {calls calls' : List Call}
    (hsame : calls'.map Call.bare = calls.map Call.bare)
    (number : Nat) (name : InstanceName) (options : Options) :
    let m := (empty number name).after calls
    let m' := (empty number name).after calls'
    (m'.compile options).2.1.map Compiled.stated = (m.compile options).2.1.map Compiled.stated ∧
    (∀ p c c', Introduced.ofModel m = .ok p → (m.compile options).2.1 = .ok c →
      (m'.compile options).2.1 = .ok c' →
      (c'.unlabelled = c.unlabelled ↔
        (∃ q ∈ p.postings, q.Solid) ∨ (m'.IsLabelled ↔ m.IsLabelled))) ∧
    ((∀ q ∈ m.postings, q.Solid) → (m'.compile options).2.1.map Compiled.unlabelled =
      (m.compile options).2.1.map Compiled.unlabelled) ∧
    ∀ known, (∀ item d, .change (.post item d) ∈ calls → item.Built known) →
      ∀ q ∈ m.postings, q.Solid := by
  intro m m'
  have hbare : m'.bare = m.bare := by rw [← after_bare, ← after_bare, hsame]
  have hsolid : ∀ known, (∀ item d, .change (.post item d) ∈ calls → item.Built known) →
      ∀ q ∈ m.postings, q.Solid := fun known hbuilt => solid_after hbuilt (List.forall_mem_nil _)
  rcases build_agree hbare options with
    ⟨cause, hm, hm'⟩ | ⟨p, c, c', hp, hm, hm', hstated, hiff⟩
  · refine ⟨?_, fun p c c' _ hc => ?_, fun _ => ?_, hsolid⟩
    · rw [compile, compile, hm, hm']
    · cases hm.symm.trans hc
    · rw [compile, compile, hm, hm']
  · refine ⟨?_, fun p' d d' hp' hd hd' => ?_, fun hall => ?_, hsolid⟩
    · rw [compile, compile, hm, hm']
      exact congrArg Except.ok hstated
    · cases hp.symm.trans hp'
      cases hm.symm.trans hd
      cases hm'.symm.trans hd'
      exact hiff
    · rw [compile, compile, hm, hm']
      exact congrArg Except.ok (hiff.mpr (exists_solid_or_isLabelled_iff hbare hp hall))

end Model

namespace Precedence

/-- The numbers from 0 to 3. -/
def numbers : Domain := ⟨[.interval ⟨0, 3, by decide⟩]⟩

/-- One number before another one. -/
def ordered : Expr := .binary .lt (.var ⟨0, 0⟩) (.var ⟨0, 1⟩)

/-- Two numbers, the one before the other, posted with labels. -/
def calls (labels : Decoration) : List Call :=
  [.change (.addVariable none numbers), .change (.addVariable none numbers),
    .change (.post (.expression ordered) labels)]

def labels : Decoration := { classes := [.clues], note := some "first" }

theorem calls_built (labels : Decoration) (item : Item) (d : Decoration)
    (h : .change (.post item d) ∈ calls labels) : item.Built fun _ => True := by
  have hordered : ordered.Built fun _ => True := by
    refine .apply (fun e he => ?_) (rfl : Expr.applyChecked .lt [.var ⟨0, 0⟩, .var ⟨0, 1⟩] = _)
    rcases List.mem_cons.mp he with rfl | he
    · exact .var trivial
    · rw [List.mem_singleton.mp he]
      exact .var trivial
  simp only [calls, List.mem_cons, List.not_mem_nil, Call.change.injEq, Change.post.injEq,
    reduceCtorEq, false_or, or_false] at h
  obtain ⟨rfl, -⟩ := h
  exact .expression hordered

/-- The labels are gone from the document without labels. -/
theorem unlabelled_same :
    (calls labels).map Call.bare = (calls {}).map Call.bare ∧
      (∀ item d, .change (.post item d) ∈ calls {} → item.Built fun _ => True) ∧
      (((Model.empty 0).after (calls labels)).compile {}).2.1.map Compiled.unlabelled =
        (((Model.empty 0).after (calls {})).compile {}).2.1.map Compiled.unlabelled := by
  have hsame : (calls labels).map Call.bare = (calls {}).map Call.bare := rfl
  obtain ⟨-, -, hunlabelled, hsolid⟩ := Model.labels_are_advisory hsame 0 {} {}
  exact ⟨hsame, calls_built {}, hunlabelled (hsolid _ (calls_built {}))⟩

end Precedence

namespace Windowless

/-- A slide without windows, posted with labels. -/
def calls (labels : Decoration) : List Call :=
  [.change (.post (.constraint (.slide [])) labels)]

/-- The labels of a slide without windows bring a section for constraints into the document,
which stays there without them. -/
theorem section_remains :
    (calls { classes := [.clues] }).map Call.bare = (calls {}).map Call.bare ∧
      (((Model.empty 0).after (calls { classes := [.clues] })).compile {}).2.1.map
          Compiled.unlabelled ≠
        (((Model.empty 0).after (calls {})).compile {}).2.1.map Compiled.unlabelled := by
  refine ⟨rfl, fun heq => ?_⟩
  have hchildren := congrArg (Except.map fun c => c.1.map fun e => e.children.length) heq
  have hlabelled : Except.map (fun c => c.1.map fun e => e.children.length)
      ((((Model.empty 0).after (calls { classes := [.clues] })).compile {}).2.1.map
        Compiled.unlabelled) = .ok [2] := by
    cbv
  have hplain : Except.map (fun c => c.1.map fun e => e.children.length)
      ((((Model.empty 0).after (calls {})).compile {}).2.1.map Compiled.unlabelled) = .ok [1] := by
    cbv
  rw [hlabelled, hplain] at hchildren
  cases hchildren

end Windowless
end CspModel
