import CspModel.Layout.Basic
import CspModel.Store

/-! # The text of a list

Lists can be written compactly, always in their order.  Consecutive cells of one
array that enumerate a box of the array in row-major order become one token, such
as `x[]`, `x[1..3]` or `y[2][]`; otherwise cells that differ in one index, which
goes up by one from cell to cell, become a token such as `x[0][1..4]`.  In the
arguments that hold one integer per variable, a run of equal integers becomes a
token such as `1x5`.
-/
namespace CspModel

/-- What the text of a list depends on. -/
structure ListText where
  store : Store
  /-- Whether lists are written compactly. -/
  compact : Bool

namespace ListText

/-- The arguments in which runs of equal integers are written as one token. -/
def isRepeatable (argument : String) : Bool :=
  ["coeffs", "values", "lengths", "heights"].contains argument

/-- Runs of at least so many equal integers are written as one token. -/
def repetitionLimit : Nat := 3

/-- A list with fewer entries is written out. -/
def shortList : Nat := 3

/-- The text of one parameter. -/
def parameter (w : ListText) : Parameter → String
  | .var v => w.store.nameOf v
  | .integer value => toString value
  | .placeholder number => s!"%{number}"
  | .allPlaceholders => "%..."
  | .range inf sup => toString inf ++ ".." ++ toString sup
  | .expression e => e.render w.store.nameOf

/-- The parameters one by one. -/
def expanded (w : ListText) (list : List Parameter) : String :=
  " ".intercalate (list.map w.parameter)

/-! ### Runs of equal integers -/

/-- The integers, if the list holds nothing else. -/
def integers? (list : List Parameter) : Option (List Int) :=
  list.mapM fun
    | .integer value => some value
    | _ => none

/-- Every run of equal neighbours with its length. -/
def runLengths : List Int → List (Int × Nat)
  | [] => []
  | value :: rest =>
    match runLengths rest with
    | (next, count) :: others =>
      if value = next then (next, count + 1) :: others else (value, 1) :: (next, count) :: others
    | [] => [(value, 1)]

/-- The tokens of a run of equal integers. -/
def runTokens (run : Int × Nat) : List String :=
  if repetitionLimit ≤ run.2 then [toString run.1 ++ "x" ++ toString run.2]
  else List.replicate run.2 (toString run.1)

/-- The integers with long runs of equal ones as one token each. -/
def repeatedValues (values : List Int) : String :=
  " ".intercalate ((runLengths values).flatMap runTokens)

/-! ### Boxes of cells -/

/-- The indices from `first` to `last` in a dimension of a size. -/
def span (first last size : Nat) : String :=
  if first = 0 ∧ last + 1 = size then "[]"
  else if first = last then s!"[{first}]"
  else s!"[{first}..{last}]"

/-- The smallest index in every dimension. -/
def lowerCorner : List (List Nat) → List Nat
  | [] => []
  | first :: rest => rest.foldl (List.zipWith min) first

/-- The greatest index in every dimension. -/
def upperCorner : List (List Nat) → List Nat
  | [] => []
  | first :: rest => rest.foldl (List.zipWith max) first

/-- The index tuples between two corners in row-major order. -/
def boxTuples (lower upper : List Nat) : List (List Nat) :=
  (Grid.tuples (List.zipWith (fun low high => high - low + 1) lower upper)).map
    (List.zipWith (· + ·) lower)

/-- The spans of a box, one for each dimension. -/
def boxText (shape lower upper : List Nat) : String :=
  String.join ((shape.zip (lower.zip upper)).map fun (size, first, last) => span first last size)

/-- The token of more than two cells that enumerate a box. -/
def boxed? (a : VarArray) (positions : List Nat) : Option String :=
  let tuples := positions.map (Grid.indices a.shape)
  let lower := lowerCorner tuples
  let upper := upperCorner tuples
  if positions.length ≤ 2 then none
  else if Grid.volume (List.zipWith (fun low high => high - low + 1) lower upper) ≠
      positions.length then none
  else if boxTuples lower upper = tuples then some (a.name ++ boxText a.shape lower upper)
  else none

/-! ### Sequences of cells -/

/-- Cells that differ in one index, which goes up by one from cell to cell. -/
structure Sequence where
  /-- The last cell first. -/
  cells : List Variable
  /-- The indices of the first cell. -/
  start : List Nat
  /-- The dimension of the index and its value in the last cell, once there is more than
  one cell. -/
  along : Option (Nat × Nat)

namespace Sequence

/-- The dimensions in which two index tuples differ. -/
def differing (a b : List Nat) : List Nat :=
  ((a.zip b).zipIdx.filter fun ((i, j), _) => i != j).map Prod.snd

/-- The sequence with one more cell, if the cell goes on with it. -/
def extend? (s : Sequence) (v : Variable) (indices : List Nat) : Option Sequence :=
  match differing s.start indices with
  | [dimension] =>
    let previous := match s.along with
      | none => s.start[dimension]?
      | some (known, stop) => if known = dimension then some stop else none
    match previous, indices[dimension]? with
    | some previous, some index =>
      if index = previous + 1 then some ⟨v :: s.cells, s.start, some (dimension, index)⟩ else none
    | _, _ => none
  | _ => none

/-- The indices of a sequence, with a span in its dimension. -/
def spans (shape start : List Nat) (dimension stop : Nat) : String :=
  String.join ((shape.zip start).zipIdx.map fun ((size, first), position) =>
    if position = dimension then span first stop size else s!"[{first}]")

/-- The tokens of a sequence: one for more than two cells, and the names of the cells
otherwise. -/
def tokens (names : Variable → String) (a : VarArray) (s : Sequence) : List String :=
  match s.along with
  | some (dimension, stop) =>
    if 2 < s.cells.length then [a.name ++ spans a.shape s.start dimension stop]
    else s.cells.reverse.map names
  | none => s.cells.reverse.map names

end Sequence

/-- The tokens of the cells that remain; `current` is the sequence begun. -/
def sequencesFrom (names : Variable → String) (a : VarArray) (current : Sequence) :
    List (Variable × Nat) → List String
  | [] => current.tokens names a
  | (v, position) :: rest =>
    let indices := Grid.indices a.shape position
    match current.extend? v indices with
    | some longer => sequencesFrom names a longer rest
    | none => current.tokens names a ++ sequencesFrom names a ⟨[v], indices, none⟩ rest

/-- The tokens of cells of one array. -/
def cellTokens (names : Variable → String) (a : VarArray) (cells : List (Variable × Nat)) :
    List String :=
  match boxed? a (cells.map Prod.snd), cells with
  | some token, _ => [token]
  | none, [] => []
  | none, (v, position) :: rest =>
    sequencesFrom names a ⟨[v], Grid.indices a.shape position, none⟩ rest

/-! ### Lists -/

/-- A stretch of a list: consecutive cells of one array, or another parameter. -/
inductive Stretch where
  | cells (array : Nat) (cells : List (Variable × Nat))
  | other (p : Parameter)

/-- The array, the variable and the position of a parameter that is a cell. -/
def cell? (s : Store) : Parameter → Option (Nat × Variable × Nat)
  | .var v => (s.cellOf v).map fun cell => (cell.array, v, cell.position)
  | _ => none

/-- The stretches of a list. -/
def stretches (s : Store) : List Parameter → List Stretch
  | [] => []
  | p :: rest =>
    match cell? s p with
    | none => .other p :: stretches s rest
    | some (array, v, position) =>
      match stretches s rest with
      | .cells next cells :: others =>
        if next = array then .cells next ((v, position) :: cells) :: others
        else .cells array [(v, position)] :: .cells next cells :: others
      | others => .cells array [(v, position)] :: others

/-- The tokens of a stretch. -/
def stretchTokens (w : ListText) : Stretch → List String
  | .cells array cells => cellTokens w.store.nameOf (w.store.arrayAt array) cells
  | .other p => [w.parameter p]

/-- The list with runs of cells as tokens. -/
def compacted (w : ListText) (list : List Parameter) : String :=
  " ".intercalate ((stretches w.store list).flatMap w.stretchTokens)

/-- The text of the list of an argument.  Short lists are written out, except where
lists are compacted whatever their length. -/
def write (w : ListText) (argument : String) (list : List Parameter) (whateverLength : Bool) :
    String :=
  if !w.compact || (!whateverLength && list.length < shortList) then w.expanded list
  else
    match if isRepeatable argument then integers? list else none with
    | some values => repeatedValues values
    | none => w.compacted list

/-- The text of a list of variables. -/
def variableList (w : ListText) (list : List Variable) (whateverLength : Bool) : String :=
  w.write "list" (list.map .var) whateverLength

end ListText
end CspModel
