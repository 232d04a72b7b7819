import CspModel.Ascending
import CspModel.Expr.Order

/-! # Building expressions

Expressions are only built in a normal form.  An operator is applied to a number
of operands it accepts; an operand of an associative operator that is itself an
application of that operator gives its operands instead; a set ascends strictly.
The coefficients of a sum are left out when all of them are one.
-/
namespace CspModel

open Bounded

namespace Expr

/-- The set of the given integers. -/
def ofSet (values : List Int) : Expr := set (Ascending.ofList values)

/-- The operands that an operand of an associative operator contributes. -/
def spliced (op : Operator) : Expr → List Expr
  | apply inner operands => if inner = op then operands else [apply inner operands]
  | e => [e]

/-- The application of an operator, with nested applications of an associative
operator merged. -/
def applied (op : Operator) (operands : List Expr) : Expr :=
  apply op (if op.isAssociative then operands.flatMap (spliced op) else operands)

/-- The application of an operator to a number of operands that it has to accept. -/
def applyChecked (op : Operator) (operands : List Expr) : Except ModelError Expr :=
  if op.accepts operands.length then .ok (applied op operands)
  else .error (.arity (.invalidOperandCount op.name op.arityText operands.length))

/-- The application of an operator with two operands. -/
def binary (op : Operator) (left right : Expr) : Expr := applied op [left, right]

/-- The application of an operator with one operand. -/
def unary (op : Operator) (operand : Expr) : Expr := applied op [operand]

/-- Membership in a set of integers. -/
def isMember (e : Expr) (values : List Int) : Expr := binary .isIn e (ofSet values)

/-- Exclusion from a set of integers. -/
def isNoMember (e : Expr) (values : List Int) : Expr := binary .notIn e (ofSet values)

/-- The second operand if the first is true, and the third otherwise. -/
def choice (condition yes no : Expr) : Expr := applied .ifThenElse [condition, yes, no]

end Expr

namespace Aggregate

/-- A list argument has to have an entry. -/
def nonEmpty (kind : String) (list : List Expr) : Except ModelError (List Expr) :=
  if list.isEmpty then .error (.arity (.emptyList kind)) else .ok list

/-- The sum of the terms. -/
def ofTerms (terms : List Expr) : Except ModelError (Aggregate Expr) :=
  (nonEmpty "sum" terms).map fun terms => sum terms none

/-- The sum of the terms, each multiplied by the coefficient at its position. -/
def ofWeightedTerms (terms : List Expr) (coefficients : List Int) :
    Except ModelError (Aggregate Expr) := do
  let terms ← nonEmpty "sum" terms
  if coefficients.length = terms.length then
    .ok (sum terms (some coefficients))
  else
    .error (.arity (.mismatchedLengths "sum" "coeffs" terms.length coefficients.length))

/-- The number of entries that take one of the values. -/
def counting (list : List Expr) (values : List Int) : Except ModelError (Aggregate Expr) := do
  let list ← nonEmpty "count" list
  if values.isEmpty then .error (.arity (.emptyList "count")) else .ok (count list values)

/-- The number of distinct values other than the exceptions. -/
def distinctValues (list : List Expr) (except : List Int) : Except ModelError (Aggregate Expr) :=
  (nonEmpty "nValues" list).map fun list => nValues list (Ascending.ofList except)

/-- The smallest value. -/
def smallest (list : List Expr) : Except ModelError (Aggregate Expr) :=
  (nonEmpty "minimum" list).map minimum

/-- The greatest value. -/
def greatest (list : List Expr) : Except ModelError (Aggregate Expr) :=
  (nonEmpty "maximum" list).map maximum

/-- The entry at a position, where the first entry is at the start index. -/
def elementAt (list : List Expr) (index : Expr) (startIndex : Int) :
    Except ModelError (Aggregate Expr) :=
  (nonEmpty "element" list).map fun list => element list index startIndex

/-- The coefficients of a sum, which are one when they are left out. -/
def coefficientsOf {ε : Type} (terms : List ε) (coefficients : Option (List Int)) : List Int :=
  coefficients.getD (terms.map fun _ => 1)

/-- The terms with their coefficients; another function than a sum is a single term. -/
def weightedTerms : Aggregate Expr → List Expr × List Int
  | sum terms coefficients => (terms, coefficientsOf terms coefficients)
  | f => ([.aggregate f], [1])

/-- The coefficients as they are kept: left out when all of them are one. -/
def keptCoefficients (coefficients : List Int) : Option (List Int) :=
  if coefficients.all (· == 1) then none else some coefficients

/-- The sum of both functions. -/
def plus (f g : Aggregate Expr) : Aggregate Expr :=
  let (terms, coefficients) := f.weightedTerms
  let (terms', coefficients') := g.weightedTerms
  sum (terms ++ terms') (keptCoefficients (coefficients ++ coefficients'))

/-- The function scaled by a factor; a coefficient that leaves the range stops at its
end. -/
def scaled (f : Aggregate Expr) (factor : Int) : Aggregate Expr :=
  let (terms, coefficients) := f.weightedTerms
  sum terms (keptCoefficients (coefficients.map fun c => saturate (c * factor)))

end Aggregate
end CspModel
