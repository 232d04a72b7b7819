import CspModel.Layout.Basic

/-! # Predicates with their leaves cut out

Two predicates are similar when they agree up to their variables and constants.
The pieces of a predicate are its functional notation with a slot in place of
every variable and constant; its leaves are what stands in the slots, from left
to right.  Sets and aggregates are not cut: they belong to the text.
-/
namespace CspModel

/-- A part of a predicate: text, or the place of a leaf. -/
inductive Piece where
  | text (text : String)
  | slot
deriving DecidableEq

namespace Piece

/-- Joins neighbouring texts. -/
def merge : List Piece → List Piece
  | [] => []
  | slot :: rest => slot :: merge rest
  | text a :: rest =>
    match merge rest with
    | text b :: others => text (a ++ b) :: others
    | others => text a :: others

mutual
/-- The pieces of an expression before neighbouring texts are joined. -/
def cut (names : Variable → String) : Expr → List Piece
  | .const _ => [slot]
  | .var _ => [slot]
  | .set values => [text (Expr.render names (.set values))]
  | .aggregate f => [text (Expr.render names (.aggregate f))]
  | .apply op operands => text (op.name ++ "(") :: cutAll names operands

/-- The pieces of the operands that remain, with the parenthesis that closes them. -/
def cutAll (names : Variable → String) : List Expr → List Piece
  | [] => [text ")"]
  | [e] => cut names e ++ [text ")"]
  | e :: rest => cut names e ++ text "," :: cutAll names rest
end

/-- The pieces of an expression. -/
def ofExpr (names : Variable → String) (e : Expr) : List Piece := merge (cut names e)

mutual
/-- The leaves of an expression from left to right. -/
def leaves : Expr → List Parameter
  | .const value => [.integer value]
  | .var v => [.var v]
  | .set _ => []
  | .aggregate _ => []
  | .apply _ operands => leavesOf operands

/-- The leaves of several expressions. -/
def leavesOf : List Expr → List Parameter
  | [] => []
  | e :: rest => leaves e ++ leavesOf rest
end

end Piece
end CspModel
