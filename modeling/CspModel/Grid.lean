/-! # Row-major addressing

The cells of an array with several dimensions are numbered row by row: the last
index runs fastest.  A shape is the list of the sizes of its dimensions;
`indices` turns the position of a cell into its index tuple, `position?` turns
an index tuple within the shape into a position, and `tuples` lists all index
tuples in the order of their positions.
-/
namespace CspModel
namespace Grid

/-- The number of cells of a shape. -/
def volume : List Nat → Nat
  | [] => 1
  | size :: rest => size * volume rest

/-- The index tuple of the cell at a position. -/
def indices : List Nat → Nat → List Nat
  | [], _ => []
  | size :: rest, position => position / volume rest % size :: indices rest position

/-- Continues the position `start` of an outer index by the inner indices. -/
def positionFrom (start : Nat) : List Nat → List Nat → Option Nat
  | [], [] => some start
  | size :: sizes, index :: rest =>
    if index < size then positionFrom (start * size + index) sizes rest else none
  | _, _ => none

/-- The position of the cell with the given indices; there is none for a tuple of
another length or outside the shape. -/
def position? (shape indices : List Nat) : Option Nat := positionFrom 0 shape indices

/-- All index tuples in the order of their positions. -/
def tuples : List Nat → List (List Nat)
  | [] => [[]]
  | size :: rest => (List.range size).flatMap fun index => (tuples rest).map (index :: ·)

theorem length_indices (shape : List Nat) (position : Nat) :
    (indices shape position).length = shape.length := by
  induction shape with
  | nil => rfl
  | cons size rest ih => simp [indices, ih]

theorem length_of_mem_tuples {shape tuple : List Nat} (h : tuple ∈ tuples shape) :
    tuple.length = shape.length := by
  induction shape generalizing tuple with
  | nil => simp_all [tuples]
  | cons size rest ih =>
    simp only [tuples, List.mem_flatMap, List.mem_map] at h
    obtain ⟨index, _, inner, hinner, rfl⟩ := h
    simp [ih hinner]

/-- The brackets that follow the name of an array in the name of a cell. -/
def subscript (indices : List Nat) : String :=
  String.join (indices.map fun index => s!"[{index}]")

end Grid
end CspModel
