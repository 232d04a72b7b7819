import CspModel.Ascending
import CspModel.Expr.Order

/-! # Conditions

A condition compares the value of a function to an expression, or states that it
lies within, or outside, a range or a set of integers.
-/
namespace CspModel

/-- The comparison of a condition. -/
inductive Comparison where
  | lt | le | ge | gt | ne | eq | isIn | notIn
deriving DecidableEq, Ord

namespace Comparison

/-- All comparisons in their order. -/
def all : List Comparison := [lt, le, ge, gt, ne, eq, isIn, notIn]

def name : Comparison → String
  | lt => "lt"
  | le => "le"
  | ge => "ge"
  | gt => "gt"
  | ne => "ne"
  | eq => "eq"
  | isIn => "in"
  | notIn => "notin"

/-- Membership, or exclusion when `within` is false. -/
def membership (within : Bool) : Comparison := if within then isIn else notIn

end Comparison

/-- What a value is compared to. -/
inductive ConditionOperand where
  | expression (e : Expr)
  /-- The integers from `inf` to `sup`. -/
  | range (inf sup : Int)
  | set (values : List Int)
deriving DecidableEq, Ord

/-- A comparison together with what the value is compared to. -/
structure Condition where
  comparison : Comparison
  operand : ConditionOperand
deriving DecidableEq, Ord

namespace Condition

/-- Comparison to an expression. -/
def compareTo (comparison : Comparison) (e : Expr) : Condition := ⟨comparison, .expression e⟩

/-- Membership in, or exclusion from, the integers from `inf` to `sup`. -/
def ofRange (within : Bool) (inf sup : Int) : Condition :=
  ⟨.membership within, .range inf sup⟩

/-- Membership in, or exclusion from, a set of integers. -/
def ofSet (within : Bool) (values : List Int) : Condition :=
  ⟨.membership within, .set (Ascending.ofList values)⟩

/-- The expressions of a condition. -/
def expressions (c : Condition) : List Expr :=
  match c.operand with
  | .expression e => [e]
  | _ => []

end Condition
end CspModel
