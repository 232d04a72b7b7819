import CspModel.Compile

/-! # Queens on a board

The problem of placing `n` queens on an `n` by `n` board so that no two attack
each other.  Queen `i` stands in row `i`, and the variable `q[i]` is its column.
The columns are all different, and two queens are not as far apart in columns as
they are in rows, which is stated by a predicate or by a table of the attacking
placements for every pair.  Reflecting the board left to right takes solutions to
solutions, so the first queen is placed left of the last one.
-/
namespace CspModel
namespace Queens

/-- How the diagonals are constrained. -/
inductive Formulation where
  /-- By the distance of the columns. -/
  | intension
  /-- By a table of attacking placements. -/
  | table
deriving DecidableEq

/-- The variant in the name of the instance. -/
def Formulation.variant : Formulation → Option String
  | intension => none
  | table => some "table"

/-- The pairs of rows, the first above the second. -/
def rowPairs (n : Nat) : List (Nat × Nat) :=
  (List.range n).flatMap fun i => (List.range (n - (i + 1))).map fun k => (i, i + 1 + k)

/-- The columns of two queens that attack each other when their rows are `distance`
apart. -/
def attacks (n distance : Nat) : List (Int × Int) :=
  (List.range n).flatMap fun (a : Nat) =>
    ([(a : Int) - (distance : Int), (a : Int) + (distance : Int)].filter fun b =>
      0 ≤ b && b < (n : Int)).map fun b => ((a : Int), b)

/-- The columns of two queens are not `distance` apart. -/
def apart (x y : Variable) (distance : Nat) : Expr :=
  .binary .ne (.binary .dist (.var x) (.var y)) (.const distance)

/-- The placements of two queens that attack each other are forbidden. -/
def noAttack (n : Nat) (x y : Variable) (distance : Nat) : Except ModelError Constraint :=
  Constraint.extension [.var x, .var y]
    ⟨.conflicts, (attacks n distance).map fun (a, b) => [.integer a, .integer b]⟩

/-- What is posted for a pair of queens. -/
def diagonal (n : Nat) (formulation : Formulation) (x y : Variable) (distance : Nat) :
    Except ModelError Item :=
  match formulation with
  | .intension => .ok (.expression (apart x y distance))
  | .table => (noAttack n x y distance).map .constraint

/-- The diagonals of all pairs of queens. -/
def diagonals (n : Nat) (formulation : Formulation) (q : VarArray) :
    Except ModelError (List Item) :=
  ((rowPairs n).filterMap fun (i, j) => do
    let x ← q.get? [i]
    let y ← q.get? [j]
    return diagonal n formulation x y (j - i)).mapM id

/-- The first queen stands left of the last one. -/
def breakSymmetry (q : VarArray) (m : Model) : Except ModelError Model :=
  match q.cells.head?, q.cells.getLast? with
  | some first, some last =>
    (m.post (.expression (.binary .lt (.var first) (.var last)))
      { classes := [.symmetryBreaking] }).map Prod.fst
  | _, _ => .ok m

/-- The model of the problem for a board with at least two columns. -/
def model (n : Nat) (formulation : Formulation) : Except ModelError Model := do
  let m := Model.empty 0 ⟨"queens", formulation.variant, [toString n]⟩
  let columns ← (Domain.ofSpec (.halfOpen 0 n)).mapError .domain
  let (q, m) ← m.addArray (some "q") [n] fun _ => some columns
  let different ← Constraint.allDifferent (q.cells.map .var) []
  let (m, _) ← m.post (.constraint different) {}
  let items ← diagonals n formulation q
  let (m, _) ← m.post (.list items) { note := some "queens on a diagonal" }
  if 2 < n then breakSymmetry q m else return m

/-- The document of the problem, or a request for a larger board. -/
def document (n : Nat) (formulation : Formulation) (tableForm : TableForm) : String :=
  if n < 2 then "Please provide an 'n > 1'\n"
  else
    match model n formulation with
    | .error cause => cause.message
    | .ok m =>
      match (m.build { tableForm }).1 with
      | .error cause => cause.message
      | .ok compiled =>
        match compiled.text with
        | .error cause => cause.message
        | .ok text => text

end Queens
end CspModel
