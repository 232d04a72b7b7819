import CspModel.Error
import CspModel.Grid

/-! # Variables and arrays of variables

A variable is a handle: it says which model declared it and which of that
model's variables it is.  An array lays variables out in row-major order; a cell
for which no domain was given is a hole and holds no variable.
-/
namespace CspModel

/-- A handle to a variable. -/
structure Variable where
  /-- The model that declared the variable. -/
  model : Nat
  /-- The position among the variables of that model. -/
  index : Nat
deriving DecidableEq, Inhabited

/-- Handles are ordered by their models, then by their positions. -/
instance : Ord Variable where
  compare a b := (compare a.model b.model).then (compare a.index b.index)

/-- An array of variables. -/
structure VarArray where
  name : String
  /-- The sizes of the dimensions. -/
  shape : List Nat
  /-- The variables in row-major order, with `none` for the holes. -/
  slots : List (Option Variable)
deriving DecidableEq, Inhabited

namespace VarArray

/-- The variable at the given indices, unless they are out of bounds or the cell is
a hole. -/
def get? (a : VarArray) (indices : List Nat) : Option Variable :=
  (Grid.position? a.shape indices).bind fun position => a.slots[position]?.join

/-- The variables in row-major order. -/
def cells (a : VarArray) : List Variable := a.slots.filterMap id

/-- The number of variables. -/
def size (a : VarArray) : Nat := a.cells.length

def isEmpty (a : VarArray) : Bool := a.cells.isEmpty

/-- Whether a cell is missing. -/
def hasHoles (a : VarArray) : Bool := a.slots.any Option.isNone

/-- The variables of a row of an array with two dimensions. -/
def row (a : VarArray) (row : Nat) : List Variable :=
  match a.shape with
  | [_, columns] => (List.range columns).filterMap fun column => a.get? [row, column]
  | _ => []

/-- The variables of a column of an array with two dimensions. -/
def column (a : VarArray) (column : Nat) : List Variable :=
  match a.shape with
  | [rows, _] => (List.range rows).filterMap fun row => a.get? [row, column]
  | _ => []

/-- Appends a variable to an array with one dimension. -/
def append (a : VarArray) (v : Variable) : VarArray :=
  { a with shape := [a.slots.length + 1], slots := a.slots ++ [some v] }

/-- An array has at least one dimension, and every dimension a positive size. -/
def checkShape (shape : List Nat) : Except ShapeError Unit :=
  if shape = [] then .error .noDimensions
  else match shape.findIdx? (· == 0) with
    | some position => .error (.zeroDimension position)
    | none => .ok ()

/-- The name of the cell with the given indices of the array called `name`. -/
def cellName (name : String) (indices : List Nat) : String := name ++ Grid.subscript indices

end VarArray
end CspModel
