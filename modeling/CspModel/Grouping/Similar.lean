import CspModel.Grouping.Pieces

/-! # Similar constraints

Two predicates are similar when their pieces agree.  Two other constraints are
similar when their layouts agree except for one or two lists of the same lengths.
Constraints are partitioned greedily: the first one that is left takes along
every later one that is similar to it in the same lists.
-/
namespace CspModel

/-- What a constraint is compared by. -/
inductive Form where
  | predicate (pieces : List Piece) (leaves : List Parameter)
  | laidOut (layout : Layout)

/-- The form of a relation. -/
def Form.ofRelation (names : Variable → String) : Relation → Form
  | .intension e => predicate (Piece.ofExpr names e) (Piece.leaves e)
  | r => laidOut (Layout.ofRelation r)

/-- A relation together with its form. -/
structure Candidate where
  relation : Relation
  form : Form

def Candidate.ofRelation (names : Variable → String) (r : Relation) : Candidate :=
  ⟨r, .ofRelation names r⟩

/-- Whether similar constraints of the name can be folded.  Lexicographic orders,
channelings and constraints without overlap are always written on their own. -/
def isMergeable (name : String) : Bool := !(["lex", "channel", "noOverlap"].contains name)

/-- The positions, counted from `position`, of the lists in which two rows of arguments
differ; there is no answer when they differ in anything else. -/
def differingFrom (position : Nat) : List Argument → List Argument → Option (List Nat)
  | a :: rest, b :: others =>
    if a.name = b.name ∧ a.attributes = b.attributes then
      if a.content = b.content then differingFrom (position + 1) rest others
      else
        match a.content, b.content with
        | .parameters list, .parameters list' =>
          if list.length = list'.length then
            (differingFrom (position + 1) rest others).map (position :: ·)
          else none
        | _, _ => none
    else none
  | _, _ => some []

/-- The lists in which two layouts differ, if they can be in one group: one or two. -/
def differing? (first other : Layout) : Option (List Nat) :=
  if isMergeable first.name ∧ first.name = other.name ∧ first.attributes = other.attributes ∧
      first.arguments.length = other.arguments.length then
    (differingFrom 0 first.arguments other.arguments).filter fun positions =>
      1 ≤ positions.length && positions.length ≤ 2
  else none

/-- Whether a form joins the group of the first one.  The lists in which a group
differs are settled by its second member; the answer is what is settled after. -/
def joins? (first : Form) (settled : Option (List Nat)) (form : Form) :
    Option (Option (List Nat)) :=
  match first, form with
  | .predicate pieces _, .predicate pieces' _ => if pieces = pieces' then some settled else none
  | .laidOut layout, .laidOut layout' =>
    match differing? layout layout' with
    | none => none
    | some positions =>
      match settled with
      | none => some (some positions)
      | some known => if known = positions then some settled else none
  | _, _ => none

/-- The candidates that join the group of the first form, and those left over. -/
def takeSimilar (first : Form) (settled : Option (List Nat)) :
    List Candidate → List Candidate × List Candidate
  | [] => ([], [])
  | c :: rest =>
    match joins? first settled c.form with
    | some settled =>
      let (members, others) := takeSimilar first settled rest
      (c :: members, others)
    | none =>
      let (members, others) := takeSimilar first settled rest
      (members, c :: others)

theorem length_takeSimilar_snd_le (first : Form) (settled : Option (List Nat))
    (candidates : List Candidate) :
    (takeSimilar first settled candidates).2.length ≤ candidates.length := by
  induction candidates generalizing settled with
  | nil => simp [takeSimilar]
  | cons c rest ih =>
    unfold takeSimilar
    split
    · exact Nat.le_succ_of_le (ih _)
    · exact Nat.succ_le_succ (ih _)

/-- The groups of similar candidates in the order of their first members. -/
def partition : List Candidate → List (List Candidate)
  | [] => []
  | first :: rest =>
    let parts := takeSimilar first.form none rest
    (first :: parts.1) :: partition parts.2
termination_by candidates => candidates.length
decreasing_by
  exact Nat.lt_succ_of_le (length_takeSimilar_snd_le first.form none rest)

end CspModel
