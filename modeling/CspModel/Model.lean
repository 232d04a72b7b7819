import CspModel.Notice
import CspModel.Objective
import CspModel.Posting
import CspModel.Store

/-! # Models

A model accumulates declarations, constraints, at most one objective and
annotations for the search.  Every operation checks all it needs before it
changes anything, so a refused operation leaves the model as it was.  Compiling a
model freezes it, and a frozen model refuses every further change.
-/
namespace CspModel

/-- Hints for the search. -/
structure Annotations where
  /-- The variables to branch on. -/
  decision : Option (List Variable) := none
  /-- Variables whose values are tried in a given order. -/
  valueHeuristic : Option (List Variable × List Int) := none
deriving DecidableEq

def Annotations.isEmpty (a : Annotations) : Bool := a.decision.isNone && a.valueHeuristic.isNone

/-- What a problem instance is called. -/
structure InstanceName where
  model : String := "model"
  variant : Option String := none
  /-- Labels of the data the instance is made of. -/
  data : List String := []
deriving DecidableEq

/-- The parts of the name joined by hyphens. -/
def InstanceName.fileStem (n : InstanceName) : String :=
  "-".intercalate (n.model :: n.variant.toList ++ n.data)

/-- A problem under construction. -/
structure Model where
  instanceName : InstanceName
  store : Store
  /-- The posted constraints in the order they were posted. -/
  postings : List Posting := []
  objective : Option Objective := none
  annotations : Annotations := {}
  /-- Whether the model was compiled. -/
  frozen : Bool := false

namespace Model

/-- A model without content; the number tells its variables from those of other
models. -/
def empty (number : Nat) (name : InstanceName := {}) : Model where
  instanceName := name
  store := { model := number }

/-- The name of a variable of this model. -/
def name? (m : Model) (v : Variable) : Option String :=
  if v.model = m.store.model then (m.store.info? v).map (·.name) else none

/-- The domain of a variable of this model. -/
def domain? (m : Model) (v : Variable) : Option Domain :=
  if v.model = m.store.model then
    (m.store.info? v).map fun info => m.store.domainAt info.domain
  else
    none

/-- A frozen model is not changed any more. -/
def checkOpen (m : Model) : Except ModelError Unit := if m.frozen then .error .frozen else .ok ()

/-- Every variable has to belong to the model. -/
def checkScope (m : Model) : List Variable → Except ModelError Unit
  | [] => .ok ()
  | v :: rest =>
    match m.store.check v with
    | .error cause => .error (.scope cause)
    | .ok () => m.checkScope rest

/-! ### Declarations -/

/-- Declares a variable; without a name it gets a generated one. -/
def addVariable (m : Model) (name : Option String) (d : Domain) :
    Except ModelError (Variable × Model) := do
  m.checkOpen
  let (v, store) ← m.store.declareVariable name d
  return (v, { m with store })

/-- Declares an array; without a name it gets a generated one.  The domain of every cell
is asked for in its turn, by a function that may remember what it was asked. -/
def addArrayAsking {σ : Type} (m : Model) (name : Option String) (shape : List Nat)
    (ask : List Nat → StateM σ (Option Domain)) :
    StateM σ (Except ModelError (VarArray × Model)) :=
  match m.checkOpen with
  | .error cause => return .error cause
  | .ok () => do
    let declared ← m.store.declareArrayAsking name shape ask
    return declared.map fun (array, store) => (array, { m with store })

/-- Declares an array; the domain of every cell is given by its indices. -/
def addArray (m : Model) (name : Option String) (shape : List Nat)
    (domainAt : List Nat → Option Domain) : Except ModelError (VarArray × Model) :=
  ((m.addArrayAsking name shape fun indices => pure (domainAt indices)).run ()).1

/-- An array of a model that is still open is one of its store. -/
theorem addArray_eq (m : Model) (name : Option String) (shape : List Nat)
    (domainAt : List Nat → Option Domain) :
    m.addArray name shape domainAt = (do
      m.checkOpen
      let (array, store) ← m.store.declareArray name shape domainAt
      return (array, { m with store })) := by
  unfold addArray addArrayAsking
  cases m.checkOpen with
  | error cause => rfl
  | ok u =>
    change ((m.store.declareArray name shape domainAt).map _) = _
    cases m.store.declareArray name shape domainAt <;> rfl

/-! ### Constraints -/

/-- The entries of a list that are variables have to be of the kind of their column. -/
def checkColumns (m : Model) : Nat → List Expr → List (Option Kind) → Except ModelError Unit
  | column, e :: list, kind :: kinds =>
    match e.toVariable?, kind with
    | some v, some kind =>
      if (m.store.domainOf v).kind = kind then m.checkColumns (column + 1) list kinds
      else .error (.table (.columnKind column))
    | _, _ => m.checkColumns (column + 1) list kinds
  | _, _, _ => .ok ()

/-- The variables have to have the domain of zero and one. -/
def checkBinary (m : Model) : List Variable → Except ModelError Unit
  | [] => .ok ()
  | v :: rest =>
    if (m.store.domainOf v).isBinary then m.checkBinary rest
    else .error (.domain (.notBinary (m.store.nameOf v)))

/-- The domains of the variables of a relation have to suit it. -/
def checkDomains (m : Model) : Relation → Except ModelError Unit
  | .extension list table =>
    match table.columnKinds list.length with
    | .error cause => .error (.table cause)
    | .ok kinds => m.checkColumns 0 list kinds
  | .channel list _ (.value _) => m.checkBinary list
  | .clause literals => m.checkBinary (literals.map (·.v))
  | _ => .ok ()

mutual
/-- A constraint is stated over variables of the model with domains that suit it. -/
def validate (m : Model) : Constraint → Except ModelError Unit
  | .relation r => do
    m.checkScope (Constraint.relation r).scope
    m.checkDomains r
  | .slide windows => do
    m.checkScope (Constraint.slide windows).scope
    m.validateAll windows

/-- All constraints are valid. -/
def validateAll (m : Model) : List Constraint → Except ModelError Unit
  | [] => .ok ()
  | c :: rest => do
    m.validate c
    m.validateAll rest
end

/-- Posts the constraints of an item together.  An item without constraints is
ignored. -/
def post (m : Model) (item : Item) (decoration : Decoration) :
    Except ModelError (Model × List Notice) := do
  m.checkOpen
  let constraints ← item.flatten
  m.validateAll constraints
  match constraints with
  | [] => return (m, [.emptyPosting])
  | _ =>
    let body := if item.isList then .gather constraints else Body.ofList constraints
    return ({ m with postings := m.postings ++ [⟨body, decoration⟩] }, [])

/-! ### Objective and annotations -/

/-- The variables of an objective have to belong to the model and to be numbers. -/
def checkTarget (m : Model) : List Variable → Except ModelError Unit
  | [] => .ok ()
  | v :: rest =>
    match m.store.check v with
    | .error cause => .error (.scope cause)
    | .ok () =>
      if (m.store.domainOf v).isSymbolic then .error (.objective .nonNumeric)
      else m.checkTarget rest

/-- Sets the objective of a model that has none. -/
def optimize (m : Model) (direction : Direction) (target : Target) : Except ModelError Model := do
  m.checkOpen
  if m.objective.isSome then throw (.objective .alreadySet)
  if !target.isNumeric then throw (.objective .nonNumeric)
  m.checkTarget target.scope
  return { m with objective := some ⟨direction, target⟩ }

/-- Sets the variables to branch on; an empty list is ignored. -/
def annotateDecision (m : Model) (list : List Variable) :
    Except ModelError (Model × List Notice) := do
  m.checkOpen
  m.checkScope list
  if list.isEmpty then
    return (m, [.emptyDecision])
  else
    return ({ m with annotations := { m.annotations with decision := some list } },
      if m.annotations.decision.isSome then [.replacedDecision] else [])

/-- Sets the order in which values are tried; an empty list of variables is ignored. -/
def annotateValueHeuristic (m : Model) (list : List Variable) (values : List Int) :
    Except ModelError (Model × List Notice) := do
  m.checkOpen
  m.checkScope list
  if list.isEmpty then
    return (m, [.emptyValueHeuristic])
  else
    return ({ m with annotations := { m.annotations with valueHeuristic := some (list, values) } },
      if m.annotations.valueHeuristic.isSome then [.replacedValueHeuristic] else [])

end Model
end CspModel
