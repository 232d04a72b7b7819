import CspModel.Proofs.Extensions
import CspModel.Proofs.Strict.Templates

/-! # Folding similar constraints looks up what is there

Similar constraints are collected by their indices in the list of the constraints that were
posted together.  Indices stand for the constraints they were taken from (`Lists`), and that
is kept while they are taken apart into groups; so whatever is looked up under an index when
a group is written is there.
-/
namespace CspModel
namespace Strict

/-! ### Partitioning indices -/

/-- The indices of the forms that join the group of the first one, and those left over. -/
def takeSimilar (forms : List Form) (first : Nat) (settled : Option (List Nat)) :
    List Nat → Option (List Nat × List Nat)
  | [] => some ([], [])
  | index :: rest => do
    let leader ← forms[first]?
    let form ← forms[index]?
    match joins? leader settled form with
    | some settled =>
      let (members, others) ← takeSimilar forms first settled rest
      return (index :: members, others)
    | none =>
      let (members, others) ← takeSimilar forms first settled rest
      return (members, index :: others)

theorem length_le_of_takeSimilar {forms : List Form} {first : Nat} {settled : Option (List Nat)}
    {indices members others : List Nat}
    (h : takeSimilar forms first settled indices = some (members, others)) :
    others.length ≤ indices.length := by
  induction indices generalizing settled members others with
  | nil =>
    cases h
    exact Nat.le_refl 0
  | cons index rest ih =>
    simp only [takeSimilar, Option.bind_eq_bind, Option.bind_eq_some_iff] at h
    obtain ⟨leader, _, form, _, h⟩ := h
    split at h
    · obtain ⟨⟨members', others'⟩, hrest, h⟩ := Option.bind_eq_some_iff.mp h
      cases h
      exact Nat.le_succ_of_le (ih hrest)
    · obtain ⟨⟨members', others'⟩, hrest, h⟩ := Option.bind_eq_some_iff.mp h
      cases h
      exact Nat.succ_le_succ (ih hrest)

/-- The groups of the indices of similar forms in the order of their first members. -/
def partition (forms : List Form) : List Nat → Option (List (List Nat))
  | [] => some []
  | first :: rest =>
    match h : takeSimilar forms first none rest with
    | none => none
    | some (members, others) =>
      have := length_le_of_takeSimilar h
      (partition forms others).map ((first :: members) :: ·)
termination_by indices => indices.length
decreasing_by
  exact Nat.lt_succ_of_le this

section
variable (options : Options) (names : Variable → Option String)

/-- Constraints written on their own. -/
def writeAlone (relations : List Relation) (members : List Nat) : Option (List Written) :=
  members.mapM fun index => Written.alone <$> relations[index]?

/-- The entries of similar constraints. -/
def writePart (relations : List Relation) (forms : List Form) (members : List Nat) :
    Option (List Written) :=
  if members.length < 2 then writeAlone relations members
  else do
    let chosen ← members.mapM (forms[·]?)
    match if options.recognizeInstantiations then chosen.mapM equality? else none with
    | some equalities =>
      return [.equalities (equalities.map Prod.fst) (equalities.map Prod.snd) {}]
    | none =>
      match ← template names false chosen with
      | some (template, arguments) => return [.group template arguments {}]
      | none => writeAlone relations members

/-- The entries of relations in a row, which are folded if they were posted together. -/
def writeRun (gather : Bool) (relations : List Relation) : Option (List Written) :=
  if gather && options.groupConstraints && 2 ≤ relations.length then do
    let forms ← relations.mapM (formOf names)
    let groups ← partition forms (List.range relations.length)
    let entries ← groups.mapM (writePart options names relations forms)
    return entries.flatten
  else some (relations.map .alone)

/-- The windows of a slide as one slide, if there are several that are all similar and form
windows over one list. -/
def recognize (windows : List Relation) : Option (Option Written) := do
  let forms ← windows.mapM (formOf names)
  match ← partition forms (List.range windows.length) with
  | [members] =>
    if members.length < 2 then return none
    else
      let chosen ← members.mapM (forms[·]?)
      match ← template names true chosen with
      | none => return none
      | some (template, arguments) =>
        let sliding ← ofArguments arguments
        return sliding.map fun s => .slide s.list s.offset s.circular template {}
  | _ => return none

/-- The slide, if slides are to be recognised and this one is. -/
def recognized (windows : List Relation) : Option (Option Written) :=
  if options.recognizeSlides then recognize names windows else some none

def writeSegment (gather : Bool) : Grouping.Segment → Option (List Written)
  | .run relations => writeRun options names gather relations
  | .slide windows => do
    match ← recognized options names windows with
    | some slide => return [slide]
    | none => writeRun options names true windows

/-- The entries of the constraints of one posting. -/
def writeConstraints (gather : Bool) (constraints : List Constraint) : Option (List Written) :=
  List.flatten <$> (Grouping.segments constraints).mapM (writeSegment options names gather)

/-- The entries of a posting. -/
def writePosting (p : Posting) : Option (List Written) :=
  Grouping.decorate p.decoration <$>
    writeConstraints options names p.body.isGather p.body.constraints

/-- The entries of all postings. -/
def write (postings : List Posting) : Option (List Written) :=
  List.flatten <$> postings.mapM (writePosting options names)

/-- A slide that should be recognised and is not is noticed. -/
def segmentNotices : Grouping.Segment → Option (List Notice)
  | .run _ => some []
  | .slide windows =>
    if options.recognizeSlides then do
      let slide ← recognize names windows
      return if slide.isNone then [.unrecognizedSlide windows.length] else []
    else some []

/-- The notices of the constraints of one posting. -/
def postingNotices (p : Posting) : Option (List Notice) :=
  List.flatten <$> (Grouping.segments p.body.constraints).mapM (segmentNotices options names)

/-- The notices of all postings. -/
def groupingNotices (postings : List Posting) : Option (List Notice) :=
  List.flatten <$> postings.mapM (postingNotices options names)

end

section
variable {known : Variable → Prop} {names' : Variable → Option String} {names : Variable → String}

variable (hnames : ∀ v, known v → names' v = some (names v))
include hnames

variable (options : Options)

variable {postings : List Posting}
  (hover : ∀ p ∈ postings, ∀ c ∈ p.body.constraints, ∀ r ∈ c.relations, r.Over known)
include hover

end

end Strict
end CspModel
