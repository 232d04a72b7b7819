import CspModel.Constraint.Basic
import CspModel.Expr.Build

/-! # Building constraints

Every constraint is built by a function that checks its arguments: lists are not
empty, lists that belong together are of one length, tuples are as long as their
list, and bounds are in order.  What depends on the domains of variables is
checked when the constraint is posted.
-/
namespace CspModel
namespace Constraint

open Aggregate (nonEmpty)

/-- A list of variables has to have an entry. -/
def someVariables (constraint : String) (list : List Variable) :
    Except ModelError (List Variable) :=
  if list.isEmpty then .error (.arity (.emptyList constraint)) else .ok list

/-- Two lists that belong together have to be of one length. -/
def sameLength (constraint argument : String) (expected actual : Nat) : Except ModelError Unit :=
  if expected = actual then .ok ()
  else .error (.arity (.mismatchedLengths constraint argument expected actual))

/-- An argument has to have a number of entries. -/
def atLeast (constraint argument : String) (minimum actual : Nat) : Except ModelError Unit :=
  if actual < minimum then .error (.arity (.tooFew constraint argument minimum actual))
  else .ok ()

/-- The predicate holds. -/
def intension (predicate : Expr) : Except ModelError Constraint :=
  if predicate.isPredicate then .ok (.relation (.intension predicate)) else .error .notAPredicate

/-- The values of the list are, or are not, a tuple of the table. -/
def extension (list : List Expr) (table : Table) : Except ModelError Constraint := do
  let list ← nonEmpty "extension" list
  match table.tuples.find? (·.length != list.length) with
  | some tuple => .error (.arity (.tupleArity list.length tuple.length))
  | none =>
    match table.columnKinds list.length with
    | .error cause => .error (.table cause)
    | .ok _ => .ok (.relation (.extension list table))

/-- The values of the list other than the exceptions are different. -/
def allDifferent (list : List Expr) (except : List Int) : Except ModelError Constraint :=
  (nonEmpty "allDifferent" list).map fun list =>
    .relation (.allDifferent list (Ascending.ofList except))

def allEqual (list : List Expr) : Except ModelError Constraint :=
  (nonEmpty "allEqual" list).map fun list => .relation (.allEqual list)

/-- Consecutive entries are ordered. -/
def ordered (list : List Expr) (operator : OrderOperator) : Except ModelError Constraint :=
  (nonEmpty "ordered" list).map fun list => .relation (.ordered list operator)

/-- The value of the function meets the condition. -/
def conditional (function : Aggregate Expr) (condition : Condition) : Constraint :=
  .relation (.conditional function condition)

/-- The successors form one cycle. -/
def circuit (list : List Expr) (startIndex : Int) : Except ModelError Constraint :=
  (nonEmpty "circuit" list).map fun list => .relation (.circuit list startIndex)

/-- The tasks with these origins and lengths do not overlap. -/
def noOverlap (origins lengths : List Expr) (zeroIgnored : Bool) :
    Except ModelError Constraint := do
  let origins ← nonEmpty "noOverlap" origins
  sameLength "noOverlap" "lengths" origins.length lengths.length
  return .relation (.noOverlap origins lengths zeroIgnored)

/-- At any time the heights of the running tasks add up to at most the limit. -/
def cumulative (origins lengths heights : List Expr) (limit : Expr) :
    Except ModelError Constraint := do
  let origins ← nonEmpty "cumulative" origins
  sameLength "cumulative" "lengths" origins.length lengths.length
  sameLength "cumulative" "heights" origins.length heights.length
  return .relation (.cumulative origins lengths heights (.compareTo .le limit))

/-- The variables take the values. -/
def instantiation (list : List Variable) (values : List Int) : Except ModelError Constraint := do
  let list ← someVariables "instantiation" list
  sameLength "instantiation" "values" list.length values.length
  return .relation (.instantiation list values)

/-- The lists, of one length, are ordered lexicographically. -/
def lex (lists : List (List Expr)) (operator : OrderOperator) : Except ModelError Constraint := do
  let lists ← lists.mapM (nonEmpty "lex")
  atLeast "lex" "list" 2 lists.length
  match lists.head?, lists.tail.find? (·.length != (lists.headD []).length) with
  | some first, some other =>
    .error (.arity (.mismatchedLengths "lex" "list" first.length other.length))
  | _, _ => .ok (.relation (.lex lists operator))

/-- The list is its own inverse, counted from the start index. -/
def channel (list : List Variable) (startIndex : Int) : Except ModelError Constraint :=
  (someVariables "channel" list).map fun list => .relation (.channel list startIndex .itself)

/-- The two lists are inverse to each other; the second is at least as long as the
first. -/
def channelBetween (list : List Variable) (startIndex : Int) (other : List Variable)
    (otherStartIndex : Int) : Except ModelError Constraint := do
  let list ← someVariables "channel" list
  atLeast "channel" "list" list.length other.length
  return .relation (.channel list startIndex (.list other otherStartIndex))

/-- An entry of the list is one exactly when the value is its index. -/
def channelValue (list : List Variable) (startIndex : Int) (value : Expr) :
    Except ModelError Constraint :=
  (someVariables "channel" list).map fun list =>
    .relation (.channel list startIndex (.value value))

/-- A range of occurrences has to have its bounds in order. -/
def checkOccurrence : Occurrence → Except ModelError Unit
  | .exactly _ => .ok ()
  | .between inf sup => if sup < inf then .error (.domain (.invalidInterval inf sup)) else .ok ()

/-- Every value occurs as often as stated, and no other value occurs when closed. -/
def cardinality (list : List Expr) (occurrences : List (Expr × Occurrence)) (closed : Bool) :
    Except ModelError Constraint := do
  let list ← nonEmpty "cardinality" list
  atLeast "cardinality" "values" 1 occurrences.length
  (occurrences.map Prod.snd).forM checkOccurrence
  return .relation (.cardinality list (occurrences.map Prod.fst) (occurrences.map Prod.snd) closed)

/-- The word of the values is accepted by the automaton. -/
def regular (list : List Expr) (automaton : Automaton) : Except ModelError Constraint :=
  (nonEmpty "regular" list).map fun list => .relation (.regular list automaton)

def mdd (list : List Expr) (diagram : Diagram) : Except ModelError Constraint :=
  (nonEmpty "mdd" list).map fun list => .relation (.mdd list diagram)

/-- A value occurs only after the one before it.  Without values, the values of the
list itself are meant, and then they cannot be asked to occur all. -/
def precedence (list : List Expr) (values : List Int) (covered : Bool) :
    Except ModelError Constraint := do
  let list ← nonEmpty "precedence" list
  atLeast "precedence" "list" 3 list.length
  if values.isEmpty then
    return .relation (.precedence list values false)
  else
    atLeast "precedence" "values" 2 values.length
    return .relation (.precedence list values covered)

/-- One of the positive variables is one or one of the negative variables is zero. -/
def clause (positive negative : List Variable) : Except ModelError Constraint :=
  let literals : List Literal := positive.map (⟨·, true⟩) ++ negative.map (⟨·, false⟩)
  if literals.isEmpty then .error (.arity (.emptyList "clause"))
  else .ok (.relation (.clause literals))

/-- The constraints are windows of one slide. -/
def slideOf (windows : List Constraint) : Except ModelError Constraint :=
  if windows.isEmpty then .error (.arity (.emptyList "slide")) else .ok (.slide windows)

end Constraint
end CspModel
