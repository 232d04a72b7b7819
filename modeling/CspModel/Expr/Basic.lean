import CspModel.Ascending
import CspModel.Error
import CspModel.Operator
import CspModel.Variable

/-! # Expressions

An expression is a tree over variables and constants.  Its inner nodes are
applications of operators and aggregates: functions over a list, such as a
weighted sum or the number of distinct values, which also become constraints of
their own once their value is compared to something.
-/
namespace CspModel

/-- A function over a list of operands. -/
inductive Aggregate (ε : Type) where
  /-- The sum of the terms, each multiplied by its coefficient if there are any. -/
  | sum (terms : List ε) (coefficients : Option (List Int))
  /-- The number of entries of the list that take one of the values. -/
  | count (list : List ε) (values : List Int)
  /-- The number of distinct values taken in the list, not counting the exceptions. -/
  | nValues (list : List ε) (except : List Int)
  | minimum (list : List ε)
  | maximum (list : List ε)
  /-- The entry of the list at a position counted from the start index. -/
  | element (list : List ε) (index : ε) (startIndex : Int)

namespace Aggregate

variable {ε : Type}

/-- The name of the function. -/
def kind : Aggregate ε → String
  | sum _ _ => "sum"
  | count _ _ => "count"
  | nValues _ _ => "nValues"
  | minimum _ => "minimum"
  | maximum _ => "maximum"
  | element _ _ _ => "element"

/-- The list of the function. -/
def list : Aggregate ε → List ε
  | sum terms _ => terms
  | count list _ => list
  | nValues list _ => list
  | minimum list => list
  | maximum list => list
  | element list _ _ => list

/-- All operands in the order of the arguments. -/
def operands : Aggregate ε → List ε
  | element list index _ => list ++ [index]
  | f => f.list

end Aggregate

/-- An expression over the variables of a model. -/
inductive Expr where
  | const (value : Int)
  | var (v : Variable)
  /-- A set of integers, the right-hand side of a membership. -/
  | set (values : List Int)
  | apply (op : Operator) (operands : List Expr)
  | aggregate (f : Aggregate Expr)

instance : Inhabited Expr := ⟨.const 0⟩

namespace Expr

/-- The variable, if the expression is nothing else. -/
def toVariable? : Expr → Option Variable
  | var v => some v
  | _ => none

/-- The constant, if the expression is nothing else. -/
def toConstant? : Expr → Option Int
  | const value => some value
  | _ => none

/-- Whether the expression is a variable or a constant. -/
def isLeaf : Expr → Bool
  | const _ => true
  | var _ => true
  | _ => false

/-- Whether the expression yields a truth value. -/
def isPredicate : Expr → Bool
  | apply op _ => op.isPredicate
  | _ => false

/-- Whether the expression yields a number: neither a truth value nor a set. -/
def isNumeric : Expr → Bool
  | apply op _ => !op.isPredicate
  | set _ => false
  | _ => true

mutual
/-- The occurrences of variables from left to right. -/
def occurrences : Expr → List Variable
  | const _ => []
  | var v => [v]
  | set _ => []
  | apply _ operands => occurrencesIn operands
  | aggregate f => occurrencesOf f

/-- The occurrences of variables in a list of expressions. -/
def occurrencesIn : List Expr → List Variable
  | [] => []
  | e :: rest => occurrences e ++ occurrencesIn rest

/-- The occurrences of variables in the operands of an aggregate. -/
def occurrencesOf : Aggregate Expr → List Variable
  | .sum terms _ => occurrencesIn terms
  | .count list _ => occurrencesIn list
  | .nValues list _ => occurrencesIn list
  | .minimum list => occurrencesIn list
  | .maximum list => occurrencesIn list
  | .element list index _ => occurrencesIn list ++ occurrences index
end

/-- The distinct variables in the order of their first occurrences. -/
def scope (e : Expr) : List Variable := e.occurrences.eraseDups

mutual
/-- The number of nested levels. -/
def depth : Expr → Nat
  | const _ => 1
  | var _ => 1
  | set _ => 1
  | apply _ operands => depthIn operands + 1
  | aggregate f => depthOf f + 1

/-- The greatest depth in a list. -/
def depthIn : List Expr → Nat
  | [] => 0
  | e :: rest => max (depth e) (depthIn rest)

/-- The greatest depth of an operand of an aggregate. -/
def depthOf : Aggregate Expr → Nat
  | .sum terms _ => depthIn terms
  | .count list _ => depthIn list
  | .nValues list _ => depthIn list
  | .minimum list => depthIn list
  | .maximum list => depthIn list
  | .element list index _ => max (depthIn list) (depth index)
end

/-! ### Functional notation -/

/-- A name followed by its arguments in parentheses. -/
def call (name : String) (arguments : List String) : String :=
  name ++ "(" ++ ",".intercalate arguments ++ ")"

mutual
/-- The expression in functional notation, with the names that the variables have. -/
def render (names : Variable → String) : Expr → String
  | const value => toString value
  | var v => names v
  | set values => call "set" (values.map toString)
  | apply op operands => call op.name (renderAll names operands)
  | aggregate f => call f.kind (renderOperands names f)

/-- The expressions of a list in functional notation. -/
def renderAll (names : Variable → String) : List Expr → List String
  | [] => []
  | e :: rest => render names e :: renderAll names rest

/-- The operands of an aggregate in functional notation. -/
def renderOperands (names : Variable → String) : Aggregate Expr → List String
  | .sum terms _ => renderAll names terms
  | .count list _ => renderAll names list
  | .nValues list _ => renderAll names list
  | .minimum list => renderAll names list
  | .maximum list => renderAll names list
  | .element list index _ => renderAll names list ++ [render names index]
end

end Expr
end CspModel
