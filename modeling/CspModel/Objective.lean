import CspModel.Expr.Order

/-! # Objectives

The objective is a number to minimise or to maximise: the value of an expression,
or of an aggregate, which is written with a type of its own.
-/
namespace CspModel

/-- Whether the objective is minimised or maximised. -/
inductive Direction where
  | minimize
  | maximize
deriving DecidableEq

namespace Direction

/-- Both directions in their order. -/
def all : List Direction := [minimize, maximize]

def name : Direction → String
  | minimize => "minimize"
  | maximize => "maximize"

end Direction

/-- The value to optimise. -/
inductive Target where
  | expression (e : Expr)
  | aggregate (f : Aggregate Expr)
deriving DecidableEq

namespace Target

/-- An expression that is an aggregate is optimised as one. -/
def ofExpr : Expr → Target
  | .aggregate f => aggregate f
  | e => expression e

/-- The target as an expression. -/
def toExpr : Target → Expr
  | expression e => e
  | aggregate f => .aggregate f

@[simp] theorem toExpr_ofExpr (e : Expr) : (ofExpr e).toExpr = e := by
  cases e <;> rfl

/-- The distinct variables in the order of their first occurrences. -/
def scope (t : Target) : List Variable := t.toExpr.scope

/-- Whether the target yields a number. -/
def isNumeric : Target → Bool
  | expression e => e.isNumeric
  | aggregate _ => true

end Target

/-- A value together with the direction in which it is optimised. -/
structure Objective where
  direction : Direction
  target : Target
deriving DecidableEq

end CspModel
