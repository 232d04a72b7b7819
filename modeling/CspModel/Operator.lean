import CspModel.Bounded

/-! # Operators

The operators of expressions, with the number of operands each of them accepts
and its value on operands within the bounded range.  A truth value is one of the
integers zero and one; an operand counts as true when it is not zero.
-/
namespace CspModel

open Bounded

/-- An operator of an expression. -/
inductive Operator where
  | neg | abs | sqr | add | sub | mul | div | mod | pow | dist | min | max
  | lt | le | ge | gt | ne | eq
  | isIn | notIn
  | not | and | or | xor | iff | imp
  | ifThenElse
deriving DecidableEq, Ord

namespace Operator

/-- All operators in their order. -/
def all : List Operator :=
  [neg, abs, sqr, add, sub, mul, div, mod, pow, dist, min, max, lt, le, ge, gt, ne, eq,
    isIn, notIn, not, and, or, xor, iff, imp, ifThenElse]

/-- The name in functional notation. -/
def name : Operator → String
  | neg => "neg"
  | abs => "abs"
  | sqr => "sqr"
  | add => "add"
  | sub => "sub"
  | mul => "mul"
  | div => "div"
  | mod => "mod"
  | pow => "pow"
  | dist => "dist"
  | min => "min"
  | max => "max"
  | lt => "lt"
  | le => "le"
  | ge => "ge"
  | gt => "gt"
  | ne => "ne"
  | eq => "eq"
  | isIn => "in"
  | notIn => "notin"
  | not => "not"
  | and => "and"
  | or => "or"
  | xor => "xor"
  | iff => "iff"
  | imp => "imp"
  | ifThenElse => "if"

/-- The smallest and the greatest number of operands, the latter if there is one. -/
def arity : Operator → Nat × Option Nat
  | neg | abs | sqr | not => (1, some 1)
  | sub | div | mod | pow | dist | lt | le | ge | gt | isIn | notIn | imp => (2, some 2)
  | ifThenElse => (3, some 3)
  | add | mul | min | max | ne | eq | and | or | xor | iff => (2, none)

/-- Whether the operator can be applied to that many operands. -/
def accepts (op : Operator) (operands : Nat) : Bool :=
  op.arity.1 ≤ operands && op.arity.2.all fun limit => operands ≤ limit

/-- The accepted numbers of operands in words. -/
def arityText (op : Operator) : String :=
  match op.arity with
  | (least, some greatest) =>
    if least = greatest then toString least else s!"{least} to {greatest}"
  | (least, none) => s!"at least {least}"

/-- Whether the operator yields a truth value. -/
def isPredicate : Operator → Bool
  | lt | le | ge | gt | ne | eq | isIn | notIn | not | and | or | xor | iff | imp => true
  | _ => false

/-- Whether an application of the operator to another application of it is written
as one. -/
def isAssociative : Operator → Bool
  | add | mul | min | max | and | or => true
  | _ => false

/-! ### Values -/

/-- The integer of a truth value. -/
def truth (b : Bool) : Int := if b then 1 else 0

/-- Whether all elements are the same. -/
def allEqual {α : Type} [BEq α] : List α → Bool
  | [] => true
  | a :: rest => rest.all (· == a)

/-- Whether no element occurs twice. -/
def allDistinct {α : Type} [BEq α] : List α → Bool
  | [] => true
  | a :: rest => !rest.contains a && allDistinct rest

/-- Adds up the values; every intermediate sum has to be within the range. -/
def checkedSum : Int → List Int → Option Int
  | total, [] => some total
  | total, n :: rest => (checked (total + n)).bind fun total => checkedSum total rest

/-- Multiplies the values; every intermediate product has to be within the range. -/
def checkedProduct : Int → List Int → Option Int
  | total, [] => some total
  | total, n :: rest => (checked (total * n)).bind fun total => checkedProduct total rest

/-- The value of an operator on values within the range.  There is none if a result
leaves the range, on a division by zero, on a negative exponent and on a wrong
number of operands.  Membership is no operation on values alone. -/
def value? : Operator → List Int → Option Int
  | neg, [a] => checked (-a)
  | abs, [a] => checked a.natAbs
  | sqr, [a] => checked (a * a)
  | add, values => checkedSum 0 values
  | sub, [a, b] => checked (a - b)
  | mul, values => checkedProduct 1 values
  | div, [a, b] => if b = 0 then none else checked (a.tdiv b)
  | mod, [a, b] => if b = 0 ∨ (a = lowest ∧ b = -1) then none else some (a.tmod b)
  | pow, [a, b] => if 0 ≤ b ∧ b < 4294967296 then power? a b.toNat else none
  | dist, [a, b] => (checked (a - b)).bind fun difference => checked difference.natAbs
  | min, values => values.min?
  | max, values => values.max?
  | lt, [a, b] => some (truth (a < b))
  | le, [a, b] => some (truth (a ≤ b))
  | ge, [a, b] => some (truth (b ≤ a))
  | gt, [a, b] => some (truth (b < a))
  | ne, values => some (truth (allDistinct values))
  | eq, values => some (truth (allEqual values))
  | not, [a] => some (truth (a == 0))
  | and, values => some (truth (values.all (· != 0)))
  | or, values => some (truth (values.any (· != 0)))
  | xor, values => some (truth ((values.filter (· != 0)).length % 2 == 1))
  | iff, values => some (truth (allEqual (values.map (· != 0))))
  | imp, [a, b] => some (truth (a == 0 || b != 0))
  | ifThenElse, [a, b, c] => some (if a ≠ 0 then b else c)
  | _, _ => none

end Operator
end CspModel
