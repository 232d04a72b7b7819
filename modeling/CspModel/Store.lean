import CspModel.Domain.Basic
import CspModel.Registry
import CspModel.Text.Identifier
import CspModel.Variable

/-! # The store of declared variables

The store holds what a model declares: variables standing alone, arrays of
variables, and the domains of all of them.  Equal domains are kept once, so two
variables refer to the same domain exactly when their domains are equal.  A name
is either given, and then has to be a fresh identifier, or it is generated by
counting.  Names that begin with the name of the array of auxiliary variables
are kept for the compiler.
-/
namespace CspModel

/-- The place of a variable in an array. -/
structure Cell where
  /-- The key of the array. -/
  array : Nat
  /-- The row-major position. -/
  position : Nat
deriving DecidableEq

/-- What the store knows of a variable. -/
structure VariableInfo where
  /-- The name the variable is written with. -/
  name : String
  /-- The key of its domain. -/
  domain : Nat
  /-- Its place, if it is the cell of an array. -/
  cell : Option Cell
deriving DecidableEq

/-- One declaration: a variable standing alone or an array. -/
inductive Declaration where
  | alone (v : Variable)
  | array (key : Nat)
deriving DecidableEq

/-- The declared variables and arrays of one model. -/
structure Store where
  /-- The model, as the handles of its variables name it. -/
  model : Nat
  domains : Registry Domain := {}
  infos : Registry VariableInfo := {}
  arrays : Registry VarArray := {}
  /-- In the order they were made. -/
  declarations : List Declaration := []
  /-- The number from which a generated name of a variable counts on. -/
  unnamedVariables : Nat := 0
  /-- The number from which a generated name of an array counts on. -/
  unnamedArrays : Nat := 0
  /-- The key of the array of auxiliary variables, once there is one. -/
  auxiliaryArray : Option Nat := none

namespace Store

/-- The name of the array of auxiliary variables. -/
def auxiliaryName : String := "aux_gb"

/-! ### Looking things up -/

/-- What is known of a variable of this store. -/
def info? (s : Store) (v : Variable) : Option VariableInfo := s.infos.get? v.index

/-- A variable is used only in the model that declared it.  Whether the store knows the
variable need not be asked: handles are handed out by declarations only and nothing is
ever taken back, so every variable of this model is one of the store
(`World.Reached.declares`). -/
def check (s : Store) (v : Variable) : Except ScopeError Unit :=
  if v.model = s.model then .ok () else .error (.foreignVariable v.index)

/-- The name of a variable. -/
def nameOf (s : Store) (v : Variable) : String := ((s.info? v).map (·.name)).getD ""

/-- The domain under a key. -/
def domainAt (s : Store) (key : Nat) : Domain := (s.domains.get? key).getD .unbounded

/-- The domain of a variable. -/
def domainOf (s : Store) (v : Variable) : Domain :=
  ((s.info? v).map fun info => s.domainAt info.domain).getD .unbounded

/-- The place of a variable in an array. -/
def cellOf (s : Store) (v : Variable) : Option Cell := (s.info? v).bind (·.cell)

/-- The array under a key. -/
def arrayAt (s : Store) (key : Nat) : VarArray := (s.arrays.get? key).getD default

/-- The variable with the given name. -/
def variableNamed? (s : Store) (name : String) : Option Variable :=
  (s.infos.findKey? (·.name == name)).map fun index => ⟨s.model, index⟩

/-- The array with the given name. -/
def arrayNamed? (s : Store) (name : String) : Option VarArray :=
  (s.arrays.findKey? (·.name == name)).map s.arrayAt

/-- The name a declaration claims. -/
def claimedName (s : Store) : Declaration → String
  | .alone v => s.nameOf v
  | .array key => (s.arrayAt key).name

/-- The names of all declarations. -/
def claimedNames (s : Store) : List String := s.declarations.map s.claimedName

/-! ### Names -/

/-- Whether a name can be given to a declaration: it is an identifier and not kept
for auxiliary variables. -/
def isAllowedName (name : String) : Bool :=
  Text.isIdentifier name && !auxiliaryName.toList.isPrefixOf name.toList

/-- A given name has to be allowed and not yet in use. -/
def claim (s : Store) (name : String) : Except NameError Unit :=
  if isAllowedName name then
    if s.claimedNames.contains name then .error (.duplicate name) else .ok ()
  else
    .error (.invalid name)

/-- The first number from `counter` on whose name is not in use.  Among one more
candidates than there are names in use, one is free. -/
def freshNumber (used : List String) (letter : String) (counter : Nat) : Nat :=
  (((List.range (used.length + 1)).map (counter + ·)).find? fun k =>
    !used.contains s!"{letter}{k}").getD counter

/-- The name for a variable standing alone, with the store that remembers the number
used for a generated name. -/
def nameVariable (s : Store) : Option String → Except NameError (String × Store)
  | some name => (s.claim name).map fun _ => (name, s)
  | none =>
    let number := freshNumber s.claimedNames "v" s.unnamedVariables
    .ok (s!"v{number}", { s with unnamedVariables := number + 1 })

/-- The name for an array, with the store that remembers the number used for a
generated name. -/
def nameArray (s : Store) : Option String → Except NameError (String × Store)
  | some name => (s.claim name).map fun _ => (name, s)
  | none =>
    let number := freshNumber s.claimedNames "a" s.unnamedArrays
    .ok (s!"a{number}", { s with unnamedArrays := number + 1 })

/-! ### Declaring -/

/-- The key of a domain, with the store that knows it. -/
def internDomain (s : Store) (d : Domain) : Nat × Store :=
  match s.domains.findKey? (· == d) with
  | some key => (key, s)
  | none => (s.domains.size, { s with domains := s.domains.push d })

/-- Adds a variable; its name is settled already. -/
def addVariable (s : Store) (name : String) (d : Domain) (cell : Option Cell) :
    Variable × Store :=
  let (key, s) := s.internDomain d
  (⟨s.model, s.infos.size⟩, { s with infos := s.infos.push ⟨name, key, cell⟩ })

/-- A variable just added is known by its name and its place. -/
theorem info?_addVariable_self (s : Store) (name : String) (d : Domain) (cell : Option Cell) :
    (s.addVariable name d cell).2.info? (s.addVariable name d cell).1 =
      some ⟨name, (s.internDomain d).1, cell⟩ :=
  Registry.get?_push_size _ _

/-- Declares a variable standing alone. -/
def declareVariable (s : Store) (name : Option String) (d : Domain) :
    Except ModelError (Variable × Store) :=
  match s.nameVariable name with
  | .error cause => .error (.name cause)
  | .ok (name, s) =>
    let (v, s) := s.addVariable name d none
    .ok (v, { s with declarations := s.declarations ++ [.alone v] })

/-- Adds the cells of an array at the given positions.  The domain of each is asked for
in its turn, by a function that may remember what it was asked; a cell without a domain
is a hole. -/
def addCellsAsking {σ : Type} (name : String) (key : Nat)
    (ask : List Nat → StateM σ (Option Domain)) :
    List (List Nat × Nat) → Store → StateM σ (List (Option Variable) × Store)
  | [], s => return ([], s)
  | (indices, position) :: rest, s => do
    match ← ask indices with
    | none =>
      let (slots, s) ← addCellsAsking name key ask rest s
      return (none :: slots, s)
    | some d =>
      let (v, s) := s.addVariable (VarArray.cellName name indices) d (some ⟨key, position⟩)
      let (slots, s) ← addCellsAsking name key ask rest s
      return (some v :: slots, s)

/-- Declares an array; the domain of every cell is asked for in its turn.  Nothing is
asked when the shape or the name is refused. -/
def declareArrayAsking {σ : Type} (s : Store) (name : Option String) (shape : List Nat)
    (ask : List Nat → StateM σ (Option Domain)) :
    StateM σ (Except ModelError (VarArray × Store)) :=
  match VarArray.checkShape shape with
  | .error cause => return .error (.shape cause)
  | .ok () =>
    match s.nameArray name with
    | .error cause => return .error (.name cause)
    | .ok (name, s) => do
      let key := s.arrays.size
      let (slots, s) ← addCellsAsking name key ask (Grid.tuples shape).zipIdx s
      let array : VarArray := ⟨name, shape, slots⟩
      return .ok (array, { s with
        arrays := s.arrays.push array
        declarations := s.declarations ++ [.array key] })

/-- Adds the cells of an array by a function that remembers nothing. -/
def addCells (name : String) (key : Nat) (domainAt : List Nat → Option Domain)
    (cells : List (List Nat × Nat)) (s : Store) : List (Option Variable) × Store :=
  ((addCellsAsking name key (fun indices => pure (domainAt indices)) cells s).run ()).1

/-- The cell at the front is a hole or a variable that is added ahead of the others. -/
theorem addCells_cons (name : String) (key : Nat) (domainAt : List Nat → Option Domain)
    (cell : List Nat × Nat) (rest : List (List Nat × Nat)) (s : Store) :
    addCells name key domainAt (cell :: rest) s =
      match domainAt cell.1 with
      | none =>
        let (slots, s) := addCells name key domainAt rest s
        (none :: slots, s)
      | some d =>
        let (v, s) := s.addVariable (VarArray.cellName name cell.1) d (some ⟨key, cell.2⟩)
        let (slots, s) := addCells name key domainAt rest s
        (some v :: slots, s) := by
  rw [addCells, addCellsAsking]
  cases domainAt cell.1 <;> rfl

/-- Declares an array; the domain of every cell is given by its indices. -/
def declareArray (s : Store) (name : Option String) (shape : List Nat)
    (domainAt : List Nat → Option Domain) : Except ModelError (VarArray × Store) :=
  ((s.declareArrayAsking name shape fun indices => pure (domainAt indices)).run ()).1

/-- An array has a shape and a name, and its cells are added one after the other. -/
theorem declareArray_eq (s : Store) (name : Option String) (shape : List Nat)
    (domainAt : List Nat → Option Domain) :
    s.declareArray name shape domainAt =
      match VarArray.checkShape shape with
      | .error cause => .error (.shape cause)
      | .ok () =>
        match s.nameArray name with
        | .error cause => .error (.name cause)
        | .ok (name, s) =>
          let key := s.arrays.size
          let (slots, s) := addCells name key domainAt (Grid.tuples shape).zipIdx s
          let array : VarArray := ⟨name, shape, slots⟩
          .ok (array, { s with
            arrays := s.arrays.push array
            declarations := s.declarations ++ [.array key] }) := by
  unfold declareArray declareArrayAsking
  cases VarArray.checkShape shape with
  | error cause => rfl
  | ok u => cases s.nameArray name <;> rfl

/-- The key of the array of auxiliary variables, which is declared when it is first
asked for. -/
def openAuxiliaryArray (s : Store) : Nat × Store :=
  match s.auxiliaryArray with
  | some key => (key, s)
  | none =>
    let key := s.arrays.size
    (key, { s with
      arrays := s.arrays.push ⟨auxiliaryName, [0], []⟩
      declarations := s.declarations ++ [.array key]
      auxiliaryArray := some key })

/-- Declares the next auxiliary variable. -/
def declareAuxiliary (s : Store) (d : Domain) : Variable × Store :=
  let (key, s) := s.openAuxiliaryArray
  let array := s.arrayAt key
  let position := array.slots.length
  let (v, s) := s.addVariable (VarArray.cellName auxiliaryName [position]) d (some ⟨key, position⟩)
  (v, { s with arrays := (s.arrays.set? key (array.append v)).getD s.arrays })

end Store
end CspModel
