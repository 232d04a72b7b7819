import CspModel.Proofs.Inventory
import CspModel.Proofs.Operations
import CspModel.Proofs.Refusals

/-! # Calls that change a model in place

A session keeps a model in place, and beside it the names in use.  A call is a program over
a session that checks and writes step by step, and what it wrote before an error stays
written.  So that a refused call changes nothing is a matter of the order of its steps: no
check comes after a write.  A step that only `Reads` may fail, a step that only `Writes` never
does, and a program that first reads and then writes is `Atomic`.

What the programs do is what the functions on models give (`Editing.on_ofCall`).
-/
namespace CspModel

/-- A model kept in place, with the names in use. -/
structure Session where
  model : Model
  names : List String := []

/-- A program over a session.  What is written before an error stays written. -/
abbrev Editing := ExceptT ModelError (StateM Session)

namespace Editing

variable {α β : Type}

/-- Runs a program: what it gives, and the session it leaves. -/
def on (x : Editing α) (s : Session) : Except ModelError α × Session := x.run.run s

@[simp] theorem on_pure (a : α) (s : Session) : (pure a : Editing α).on s = (.ok a, s) := rfl

@[simp] theorem on_get (s : Session) : (get : Editing Session).on s = (.ok s, s) := rfl

@[simp] theorem on_bind (x : Editing α) (f : α → Editing β) (s : Session) :
    (x >>= f).on s = match x.on s with
      | (.ok a, s) => (f a).on s
      | (.error cause, s) => (.error cause, s) := by
  show (ExceptT.bindCont f (x.on s).1).run (x.on s).2 = _
  rcases x.on s with ⟨_ | _, _⟩ <;> rfl

/-! ### The calls -/

/-- A check that reads the model. -/
def check (test : Model → Except ModelError α) : Editing α := do
  match test (← get).model with
  | .ok a => return a
  | .error cause => throw cause

/-- Writes to the model. -/
def change (f : Model → Model) : Editing Unit := modify fun s => { s with model := f s.model }

/-- Enters a name, unless it is in use. -/
def enter (name : String) : Editing Bool := do
  let s ← get
  if s.names.contains name then
    return false
  else
    set { s with names := s.names ++ [name] }
    return true

/-- A given name. -/
def claim (name : String) : Editing String := do
  check fun _ => if Store.isAllowedName name then .ok () else .error (.name (.invalid name))
  let entered ← enter name
  if entered then return name else throw (.name (.duplicate name))

/-- What generated names count. -/
inductive Counter where
  | ofVariables
  | ofArrays

namespace Counter

def letter : Counter → String
  | ofVariables => "v"
  | ofArrays => "a"

def read (s : Store) : Counter → Nat
  | ofVariables => s.unnamedVariables
  | ofArrays => s.unnamedArrays

def write (s : Store) (n : Nat) : Counter → Store
  | ofVariables => { s with unnamedVariables := n }
  | ofArrays => { s with unnamedArrays := n }

end Counter

/-- Counts until a name is not in use, in at most so many attempts. -/
def fresh (c : Counter) : Nat → Editing String
  | 0 => do
    let s ← get
    return s!"{c.letter}{c.read s.model.store}"
  | attempts + 1 => do
    let s ← get
    let number := c.read s.model.store
    let name := s!"{c.letter}{number}"
    change fun m => { m with store := c.write m.store (number + 1) }
    let entered ← enter name
    if entered then return name else fresh c attempts

/-- The name of a declaration: the given one, or a generated one.  Among one more
candidates than there are names in use, one is free. -/
def nameFor (c : Counter) : Option String → Editing String
  | some name => claim name
  | none => do
    let s ← get
    fresh c (s.names.length + 1)

/-- Adds a variable. -/
def push (name : String) (d : Domain) (cell : Option Cell) : Editing Variable := do
  let s ← get
  let (v, store) := s.model.store.addVariable name d cell
  set { s with model := { s.model with store } }
  return v

/-- Adds the cells of an array one after the other. -/
def pushCells (name : String) (key : Nat) (domainAt : List Nat → Option Domain) :
    List (List Nat × Nat) → Editing (List (Option Variable))
  | [] => return []
  | (indices, position) :: rest => do
    match domainAt indices with
    | none =>
      let slots ← pushCells name key domainAt rest
      return none :: slots
    | some d =>
      let v ← push (VarArray.cellName name indices) d (some ⟨key, position⟩)
      let slots ← pushCells name key domainAt rest
      return some v :: slots

def addVariable (name : Option String) (d : Domain) : Editing Answer := do
  check Model.checkOpen
  let name ← nameFor .ofVariables name
  let v ← push name d none
  change fun m => { m with store.declarations := m.store.declarations ++ [.alone v] }
  return .variable v

def addArray (name : Option String) (shape : List Nat) (domainAt : List Nat → Option Domain) :
    Editing Answer := do
  check Model.checkOpen
  check fun _ => (VarArray.checkShape shape).mapError .shape
  let name ← nameFor .ofArrays name
  let s ← get
  let key := s.model.store.arrays.size
  let slots ← pushCells name key domainAt (Grid.tuples shape).zipIdx
  change fun m => { m with store.arrays := m.store.arrays.push ⟨name, shape, slots⟩ }
  change fun m => { m with store.declarations := m.store.declarations ++ [.array key] }
  return .array ⟨name, shape, slots⟩

def post (item : Item) (decoration : Decoration) : Editing Answer := do
  check Model.checkOpen
  let constraints ← check fun _ => item.flatten
  check fun m => m.validateAll constraints
  match constraints with
  | [] => return .done [.emptyPosting]
  | _ =>
    let body := if item.isList then .gather constraints else Body.ofList constraints
    change fun m => { m with postings := m.postings ++ [⟨body, decoration⟩] }
    return .done []

def optimize (direction : Direction) (target : Target) : Editing Answer := do
  check Model.checkOpen
  check fun m => if m.objective.isSome then .error (.objective .alreadySet) else .ok ()
  check fun _ => if target.isNumeric then .ok () else .error (.objective .nonNumeric)
  check fun m => m.checkTarget target.scope
  change fun m => { m with objective := some ⟨direction, target⟩ }
  return .done []

/-- Replaces an annotation over a list of variables; an empty list is ignored. -/
def annotate (list : List Variable) (empty replaced : Notice) (isSet : Annotations → Bool)
    (set : Annotations → Annotations) : Editing Answer := do
  check Model.checkOpen
  check fun m => m.checkScope list
  if list.isEmpty then
    return .done [empty]
  else
    let s ← get
    change fun m => { m with annotations := set m.annotations }
    return .done (if isSet s.model.annotations then [replaced] else [])

/-- The program of a change. -/
def ofChange : Change → Editing Answer
  | .addVariable name d => addVariable name d
  | .addArray name shape domainAt => addArray name shape domainAt
  | .post item decoration => post item decoration
  | .optimize direction target => optimize direction target
  | .annotateDecision list =>
    annotate list .emptyDecision .replacedDecision (·.decision.isSome) fun a =>
      { a with decision := some list }
  | .annotateValueHeuristic list values =>
    annotate list .emptyValueHeuristic .replacedValueHeuristic (·.valueHeuristic.isSome) fun a =>
      { a with valueHeuristic := some (list, values) }

/-- The program of a call.  Compiling freezes the model first. -/
def ofCall : Call → Editing Answer
  | .change c => ofChange c
  | .compile options => do
    change fun m => { m with frozen := true }
    let compiled ← check fun m => (m.build options).1
    return .compiled compiled

/-! ### Checks first -/

/-- A program that leaves every session as it is, whether it fails or not. -/
def Reads (x : Editing α) : Prop := ∀ s, (x.on s).2 = s

/-- A program that never fails. -/
def Writes (x : Editing α) : Prop := ∀ s, ∃ a s', x.on s = (.ok a, s')

/-- A program that changes nothing when it fails. -/
def Atomic (x : Editing α) : Prop := ∀ s cause s', x.on s = (.error cause, s') → s' = s

theorem Writes.atomic {x : Editing α} (h : Writes x) : Atomic x := fun s cause s' hx => by
  obtain ⟨a, s'', ha⟩ := h s
  rw [ha] at hx
  cases hx

theorem writes_pure (a : α) : Writes (pure a : Editing α) := fun s => ⟨a, s, rfl⟩

theorem writes_change (f : Model → Model) : Writes (change f) := fun _ => ⟨_, _, rfl⟩

theorem writes_get : Writes (get : Editing Session) := fun _ => ⟨_, _, rfl⟩

theorem reads_check (test : Model → Except ModelError α) : Reads (check test) := fun s => by
  simp only [check, on_bind, on_get]
  cases test s.model <;> rfl

theorem Writes.bind {x : Editing α} {f : α → Editing β} (hx : Writes x) (hf : ∀ a, Writes (f a)) :
    Writes (x >>= f) := fun s => by
  obtain ⟨a, s', ha⟩ := hx s
  rw [on_bind, ha]
  exact hf a s'

/-- What follows a program that only reads is atomic together with it if it is on its
own. -/
theorem Reads.bind_atomic {x : Editing α} {f : α → Editing β} (hx : Reads x)
    (hf : ∀ a, Atomic (f a)) : Atomic (x >>= f) := fun s cause s' h => by
  have hs := hx s
  rw [on_bind] at h
  revert h hs
  rcases x.on s with ⟨_ | a, t⟩
  · rintro ⟨⟩ hs
    exact hs
  · rintro h rfl
    exact hf a t cause s' h

/-- Nothing that can fail may follow a program that writes. -/
theorem Atomic.bind_writes {x : Editing α} {f : α → Editing β} (hx : Atomic x)
    (hf : ∀ a, Writes (f a)) : Atomic (x >>= f) := fun s cause s' h => by
  have hs := hx s
  rw [on_bind] at h
  cases hrun : x.on s with
  | mk result t =>
    rw [hrun] at h
    cases result with
    | error cause' =>
      cases h
      exact hs _ _ hrun
    | ok a =>
      obtain ⟨b, t', hb⟩ := hf a t
      cases h.symm.trans hb

/-! ### Declarations -/

theorem on_enter (name : String) (s : Session) : (enter name).on s =
    if s.names.contains name then (.ok false, s)
    else (.ok true, { s with names := s.names ++ [name] }) := by
  simp only [enter, on_bind, on_get]
  split <;> rfl

theorem writes_enter (name : String) : Writes (enter name) := fun s => by
  rw [on_enter]
  split <;> exact ⟨_, _, rfl⟩

/-- A name that is refused is not entered. -/
theorem atomic_claim (name : String) : Atomic (claim name) :=
  (reads_check _).bind_atomic fun _ s cause s' h => by
    rw [on_bind, on_enter] at h
    split at h
    · rename_i t hname
      split at hname
      · cases hname
        cases h
        rfl
      · cases hname
        cases h
    · rename_i hname
      split at hname <;> cases hname

theorem writes_fresh (c : Counter) (attempts : Nat) : Writes (fresh c attempts) := by
  induction attempts with
  | zero => exact writes_get.bind fun _ => writes_pure _
  | succ attempts ih =>
    refine writes_get.bind fun s => (writes_change _).bind fun _ => (writes_enter _).bind
      fun entered => ?_
    split
    · exact writes_pure _
    · exact ih

theorem atomic_nameFor (c : Counter) : (name : Option String) → Atomic (nameFor c name)
  | some name => atomic_claim name
  | none => (writes_get.bind fun _ => writes_fresh c _).atomic

theorem writes_push (name : String) (d : Domain) (cell : Option Cell) :
    Writes (push name d cell) := fun _ => ⟨_, _, rfl⟩

theorem writes_pushCells (name : String) (key : Nat) (domainAt : List Nat → Option Domain)
    (cells : List (List Nat × Nat)) : Writes (pushCells name key domainAt cells) := by
  induction cells with
  | nil => exact writes_pure _
  | cons cell rest ih =>
    unfold pushCells
    split
    · exact ih.bind fun _ => writes_pure _
    · exact (writes_push _ _ _).bind fun _ => ih.bind fun _ => writes_pure _

/-! ### Calls -/

/-- A change checks all it needs before it writes. -/
theorem atomic_ofChange (c : Change) : Atomic (ofChange c) := by
  cases c with
  | addVariable name d =>
    refine (reads_check _).bind_atomic fun _ => (atomic_nameFor _ name).bind_writes fun _ => ?_
    exact (writes_push _ _ _).bind fun _ => (writes_change _).bind fun _ => writes_pure _
  | addArray name shape domainAt =>
    refine (reads_check _).bind_atomic fun _ => (reads_check _).bind_atomic fun _ =>
      (atomic_nameFor _ name).bind_writes fun _ => writes_get.bind fun _ => ?_
    exact (writes_pushCells _ _ _ _).bind fun _ => (writes_change _).bind fun _ =>
      (writes_change _).bind fun _ => writes_pure _
  | post item decoration =>
    refine (reads_check _).bind_atomic fun _ => (reads_check _).bind_atomic fun constraints =>
      (reads_check _).bind_atomic fun _ => Writes.atomic ?_
    split
    · exact writes_pure _
    · exact (writes_change _).bind fun _ => writes_pure _
  | optimize direction target =>
    exact (reads_check _).bind_atomic fun _ => (reads_check _).bind_atomic fun _ =>
      (reads_check _).bind_atomic fun _ => (reads_check _).bind_atomic fun _ =>
      ((writes_change _).bind fun _ => writes_pure _).atomic
  | annotateDecision list | annotateValueHeuristic list values =>
    refine (reads_check _).bind_atomic fun _ => (reads_check _).bind_atomic fun _ =>
      Writes.atomic ?_
    split
    · exact writes_pure _
    · exact writes_get.bind fun _ => (writes_change _).bind fun _ => writes_pure _

end Editing

/-! ### The same on models -/

namespace Store

theorem freshNumber_lt (used : List String) (letter : String) (counter : Nat) :
    freshNumber used letter counter < counter + (used.length + 1) := by
  unfold freshNumber
  cases hfind : ((List.range (used.length + 1)).map (counter + ·)).find? fun k =>
      !used.contains s!"{letter}{k}" with
  | none => exact Nat.lt_add_of_pos_right (Nat.succ_pos _)
  | some n =>
    obtain ⟨i, hi, rfl⟩ := List.mem_map.mp (List.mem_of_find?_eq_some hfind)
    exact Nat.add_lt_add_left (List.mem_range.mp hi) _

end Store

/-- A model in place: the names in use are those its declarations claim. -/
def Session.of (m : Model) : Session := ⟨m, m.store.claimedNames⟩

namespace Editing

variable {α : Type}

theorem on_check (test : Model → Except ModelError α) (s : Session) :
    (check test).on s = match test s.model with
      | .ok a => (.ok a, s)
      | .error cause => (.error cause, s) := by
  simp only [check, on_bind, on_get]
  cases test s.model <;> rfl

@[simp] theorem on_change (f : Model → Model) (s : Session) :
    (change f).on s = (.ok (), { s with model := f s.model }) := rfl

/-- Counting stops at the first number whose name is free, if there are attempts enough. -/
theorem on_fresh (c : Counter) {n attempts : Nat} {s : Session}
    (hfree : s!"{c.letter}{n}" ∉ s.names)
    (hused : ∀ k, c.read s.model.store ≤ k → k < n → s!"{c.letter}{k}" ∈ s.names)
    (hle : c.read s.model.store ≤ n) (hlt : n < c.read s.model.store + attempts) :
    (fresh c attempts).on s = (.ok s!"{c.letter}{n}",
      ⟨{ s.model with store := c.write s.model.store (n + 1) },
        s.names ++ [s!"{c.letter}{n}"]⟩) := by
  induction attempts generalizing s with
  | zero => exact absurd hlt (Nat.not_lt.mpr hle)
  | succ attempts ih =>
    simp only [fresh, on_bind, on_get, on_change, on_enter]
    rcases Nat.eq_or_lt_of_le hle with heq | hnext
    · rw [heq, if_neg (by simpa using hfree)]
      rfl
    · rw [if_pos (by simpa using hused _ (Nat.le_refl _) hnext)]
      have hread : c.read (c.write s.model.store (c.read s.model.store + 1)) =
          c.read s.model.store + 1 := by
        cases c <;> rfl
      have hwrite : c.write (c.write s.model.store (c.read s.model.store + 1)) (n + 1) =
          c.write s.model.store (n + 1) := by
        cases c <;> rfl
      have hrest := ih (s := ⟨{ s.model with
          store := c.write s.model.store (c.read s.model.store + 1) }, s.names⟩) hfree
        (fun k hk => hused k (by rw [hread] at hk; omega)) (by rw [hread]; exact hnext)
        (by rw [hread]; omega)
      rw [hwrite] at hrest
      exact hrest

/-- The name for a declaration and the store that remembers the number used for it. -/
def Counter.name (s : Store) (name : Option String) : Counter → Except NameError (String × Store)
  | ofVariables => s.nameVariable name
  | ofArrays => s.nameArray name

/-- A name that is given or generated is entered among the names in use. -/
theorem on_nameFor (c : Counter) (name : Option String) (m : Model) :
    (nameFor c name).on (.of m) = match c.name m.store name with
      | .ok (text, store) => (.ok text, ⟨{ m with store }, m.store.claimedNames ++ [text]⟩)
      | .error cause => (.error (.name cause), .of m) := by
  cases name with
  | none =>
    have hfresh := on_fresh c (s := .of m)
      (Store.freshNumber_not_mem m.store.claimedNames c.letter (c.read m.store))
      (fun _ => Store.mem_of_lt_freshNumber) (Store.le_freshNumber _ _ _)
      (Store.freshNumber_lt _ _ _)
    simp only [nameFor, on_bind, on_get]
    cases c <;> exact hfresh
  | some name =>
    have hclaim : c.name m.store (some name) =
        (m.store.claim name).map fun _ => (name, m.store) := by
      cases c <;> rfl
    simp only [nameFor, claim, on_bind, on_check, on_enter, hclaim, Store.claim]
    by_cases hallowed : Store.isAllowedName name = true
    · by_cases hused : m.store.claimedNames.contains name = true
      · simp only [hallowed, hused, Session.of, ↓reduceIte, Except.map]
        rfl
      · simp only [hallowed, hused, Session.of, ↓reduceIte, Except.map]
        rfl
    · simp only [hallowed, Session.of, Except.map]
      rfl

theorem on_push (name : String) (d : Domain) (cell : Option Cell) (s : Session) :
    (push name d cell).on s = (.ok (s.model.store.addVariable name d cell).1,
      { s with model := { s.model with store := (s.model.store.addVariable name d cell).2 } }) :=
  rfl

theorem on_pushCells (name : String) (key : Nat) (domainAt : List Nat → Option Domain)
    (cells : List (List Nat × Nat)) (s : Session) :
    (pushCells name key domainAt cells).on s =
      (.ok (Store.addCells name key domainAt cells s.model.store).1, { s with
        model := { s.model with
          store := (Store.addCells name key domainAt cells s.model.store).2 } }) := by
  induction cells generalizing s with
  | nil => rfl
  | cons cell rest ih =>
    obtain ⟨indices, position⟩ := cell
    rw [pushCells, Store.addCells_cons]
    cases domainAt indices with
    | none => simp only [on_bind, ih, on_pure]
    | some d => simp only [on_bind, on_push, ih, on_pure]

end Editing

namespace Store

variable {s s' t : Store}

/-- A variable that is declared claims the name it is given. -/
theorem claimedNames_declareVariable (hs : s.Inventory) {name : Option String} {d : Domain}
    {text : String} (hname : s.nameVariable name = .ok (text, t)) {v : Variable}
    (h : s.declareVariable name d = .ok (v, s')) :
    s'.claimedNames = s.claimedNames ++ [text] := by
  have hgrows := grows_declareVariable h
  obtain ⟨_, number, rfl⟩ := nameVariable_spec hname
  obtain ⟨domain, domains, _, hadd⟩ :=
    addVariable_eq { s with unnamedVariables := number } text d none
  simp only [declareVariable, hname, hadd] at h
  cases h
  rw [hgrows.claimedNames hs rfl, List.map_singleton]
  refine congrArg (s.claimedNames ++ [·]) ?_
  simp [claimedName, nameOf, info?, Registry.get?_push_size]

/-- An array that is declared claims the name it is given. -/
theorem claimedNames_declareArray (hs : s.Inventory) {name : Option String} {shape : List Nat}
    {domainAt : List Nat → Option Domain} {text : String}
    (hname : s.nameArray name = .ok (text, t)) {array : VarArray}
    (h : s.declareArray name shape domainAt = .ok (array, s')) :
    s'.claimedNames = s.claimedNames ++ [text] := by
  have hgrows := grows_declareArray h
  have hname' : array.name = text := by
    rw [declareArray_eq] at h
    split at h
    · cases h
    · rw [hname] at h
      cases h
      rfl
  obtain ⟨text', slots, _, _, _, _, rfl, rfl⟩ := declareArray_eq_ok h
  rw [hgrows.claimedNames hs rfl, List.map_singleton]
  exact congrArg (s.claimedNames ++ [·])
    ((claimedName_of_get? (Registry.get?_push_size s.arrays _)).trans hname')

end Store

namespace Editing

/-- What a change of a model gives, in place. -/
def settled (m : Model) : Except ModelError (Answer × Model) → Except ModelError Answer × Session
  | .ok (answer, m') => (.ok answer, .of m')
  | .error cause => (.error cause, .of m)

/-- A check before programs that do what functions on models give. -/
theorem on_check_bind {m : Model} {β : Type} {t : Model → Except ModelError α}
    {f : α → Editing Answer} {g : α → Except ModelError β} {h : β → Answer × Model}
    (hf : ∀ a, t m = .ok a → (f a).on (.of m) = settled m ((g a).map h)) :
    (check t >>= f).on (.of m) = settled m ((t m >>= g).map h) := by
  have hm : (Session.of m).model = m := rfl
  rw [on_bind, on_check, hm]
  cases htest : t m with
  | error cause => rfl
  | ok a => exact hf a htest

theorem on_addVariable {m : Model} (hs : m.store.Inventory) (name : Option String) (d : Domain) :
    (addVariable name d).on (.of m) = settled m (m.change (.addVariable name d)) := by
  refine on_check_bind fun _ _ => ?_
  rw [on_bind, on_nameFor]
  cases hname : m.store.nameVariable name with
  | error cause =>
    have hdeclare : m.store.declareVariable name d = .error (.name cause) := by
      simp only [Store.declareVariable, hname]
    simp only [Counter.name, hname, hdeclare]
    rfl
  | ok named =>
    obtain ⟨text, t⟩ := named
    have hdeclare : ∃ v s, m.store.declareVariable name d = .ok (v, s) := by
      simp only [Store.declareVariable, hname]
      exact ⟨_, _, rfl⟩
    obtain ⟨v, s, hdeclare⟩ := hdeclare
    have hnames := Store.claimedNames_declareVariable hs hname hdeclare
    rw [hdeclare]
    simp only [Store.declareVariable, hname] at hdeclare
    cases hdeclare
    simp only [Counter.name, hname, on_bind, on_push, on_pure, on_change]
    refine Prod.ext rfl ?_
    show Session.mk _ _ = Session.mk _ _
    rw [Session.mk.injEq]
    exact ⟨rfl, hnames.symm⟩

theorem on_addArray {m : Model} (hs : m.store.Inventory) (name : Option String)
    (shape : List Nat) (domainAt : List Nat → Option Domain) :
    (addArray name shape domainAt).on (.of m) =
      settled m (m.change (.addArray name shape domainAt)) := by
  rw [Model.change, Model.addArray_eq]
  refine on_check_bind fun _ _ => ?_
  rw [on_bind, on_check]
  cases hshape : VarArray.checkShape shape with
  | error cause =>
    have hdeclare : m.store.declareArray name shape domainAt = .error (.shape cause) := by
      simp only [Store.declareArray_eq, hshape]
    rw [hdeclare]
    rfl
  | ok u =>
    simp only [Except.mapError]
    rw [on_bind, on_nameFor]
    cases hname : m.store.nameArray name with
    | error cause =>
      have hdeclare : m.store.declareArray name shape domainAt = .error (.name cause) := by
        simp only [Store.declareArray_eq, hshape, hname]
      simp only [Counter.name, hname, hdeclare]
      rfl
    | ok named =>
      obtain ⟨text, t⟩ := named
      have hdeclare : ∃ a s, m.store.declareArray name shape domainAt = .ok (a, s) := by
        simp only [Store.declareArray_eq, hshape, hname]
        exact ⟨_, _, rfl⟩
      obtain ⟨a, s, hdeclare⟩ := hdeclare
      have hnames := Store.claimedNames_declareArray hs hname hdeclare
      rw [hdeclare]
      simp only [Store.declareArray_eq, hshape, hname] at hdeclare
      cases hdeclare
      simp only [Counter.name, hname, on_bind, on_get, on_pushCells, on_pure, on_change]
      refine Prod.ext rfl ?_
      show Session.mk _ _ = Session.mk _ _
      rw [Session.mk.injEq]
      exact ⟨rfl, hnames.symm⟩

theorem on_post (m : Model) (item : Item) (decoration : Decoration) :
    (post item decoration).on (.of m) = settled m (m.change (.post item decoration)) := by
  refine on_check_bind fun _ _ => on_check_bind fun constraints _ => on_check_bind fun _ _ => ?_
  cases constraints <;> rfl

theorem on_optimize (m : Model) (direction : Direction) (target : Target) :
    (optimize direction target).on (.of m) =
      settled m (m.change (.optimize direction target)) := by
  refine on_check_bind fun _ _ => ?_
  have hm : (Session.of m).model = m := rfl
  rw [on_bind, on_check, hm]
  cases m.objective with
  | some objective => rfl
  | none =>
    cases hnumeric : target.isNumeric with
    | false => rfl
    | true => exact on_check_bind (t := fun m => m.checkTarget target.scope) fun _ _ => rfl

theorem on_annotateDecision (m : Model) (list : List Variable) :
    (ofChange (.annotateDecision list)).on (.of m) =
      settled m (m.change (.annotateDecision list)) := by
  refine on_check_bind fun _ _ => on_check_bind fun _ _ => ?_
  cases list <;> rfl

theorem on_annotateValueHeuristic (m : Model) (list : List Variable) (values : List Int) :
    (ofChange (.annotateValueHeuristic list values)).on (.of m) =
      settled m (m.change (.annotateValueHeuristic list values)) := by
  refine on_check_bind fun _ _ => on_check_bind fun _ _ => ?_
  cases list <;> rfl

/-- The program of a call does what the call gives on models. -/
theorem on_ofCall {m : Model} (hs : m.store.Inventory) (c : Call) :
    (ofCall c).on (.of m) = ((m.call c).1, .of (m.call c).2) := by
  cases c with
  | change c =>
    have hchange : (ofChange c).on (.of m) = settled m (m.change c) := by
      cases c with
      | addVariable name d => exact on_addVariable hs name d
      | addArray name shape domainAt => exact on_addArray hs name shape domainAt
      | post item decoration => exact on_post m item decoration
      | optimize direction target => exact on_optimize m direction target
      | annotateDecision list => exact on_annotateDecision m list
      | annotateValueHeuristic list values => exact on_annotateValueHeuristic m list values
    rw [ofCall, hchange, Model.call]
    cases m.change c <;> rfl
  | compile options =>
    have hbuild : ({ m with frozen := true } : Model).build options = m.build options := rfl
    have hm : (Session.of m).model = m := rfl
    simp only [ofCall, on_bind, on_change, on_check, Model.call, Model.compile, hm, hbuild]
    cases (m.build options).1 <;> rfl

end Editing

/-! ### Models after calls -/

namespace Model

variable {m : Model}

/-- A posting gives an error exactly when the model is frozen or the item is flawed. -/
theorem exists_call_post_eq_error_iff (m : Model) (item : Item) (decoration : Decoration) :
    (∃ cause, (m.call (.change (.post item decoration))).1 = .error cause) ↔
      m.frozen = true ∨ item.Flawed m.store := by
  have haccepted : (∃ result, m.post item decoration = .ok result) ↔ _ := post_eq_ok_iff
  rw [call, change]
  cases hpost : m.post item decoration with
  | error cause =>
    refine iff_of_true ⟨cause, rfl⟩ ?_
    rw [hpost] at haccepted
    by_contra h
    rw [not_or, Bool.not_eq_true] at h
    obtain ⟨result, h⟩ := haccepted.mpr h
    cases h
  | ok result =>
    obtain ⟨hopen, hflaw⟩ := haccepted.mp ⟨result, hpost⟩
    refine iff_of_false (fun h => ?_) fun h => ?_
    · obtain ⟨cause, h⟩ := h
      cases h
    · rcases h with h | h
      · exact absurd (h.symm.trans hopen) (by decide)
      · exact hflaw h

theorem inventory_call (hs : m.store.Inventory) (c : Call) : (m.call c).2.store.Inventory := by
  obtain ⟨m', hm'⟩ : ∃ m', (m.call c).2 = m' := ⟨_, rfl⟩
  rw [hm']
  rcases call_cases hm' with ⟨_, _, rfl⟩ | rfl | ⟨change, _, h⟩
  · exact hs
  · exact hs
  · cases h with
    | addVariable h => exact hs.declareVariable h
    | addArray h => exact hs.declareArray h
    | _ => exact hs

theorem inventory_after (hs : m.store.Inventory) (calls : List Call) :
    (m.after calls).store.Inventory := by
  induction calls generalizing m with
  | nil => exact hs
  | cons c calls ih => exact ih (inventory_call hs c)

/-- A frozen model refuses every change. -/
theorem change_of_frozen (h : m.frozen = true) (c : Change) : m.change c = .error .frozen := by
  have hopen : m.checkOpen = .error .frozen := if_pos h
  cases c <;>
    simp only [change, addVariable, addArray_eq, post, optimize, annotateDecision,
      annotateValueHeuristic, hopen] <;> rfl

/-- No call changes a frozen model. -/
theorem call_of_frozen (h : m.frozen = true) (c : Call) : (m.call c).2 = m := by
  cases c with
  | change c => rw [call, change_of_frozen h]
  | compile options =>
    obtain ⟨instanceName, store, postings, objective, annotations, frozen⟩ := m
    cases h
    rfl

theorem after_of_frozen (h : m.frozen = true) (calls : List Call) : m.after calls = m := by
  induction calls with
  | nil => rfl
  | cons c calls ih => rw [after_cons, call_of_frozen h, ih]

end Model

/-! ### Sessions -/

namespace Session

/-- A session at the start. -/
def new (number : Nat) (name : InstanceName) : Session := { model := .empty number name }

/-- What a call gives, and the session it leaves. -/
def run (s : Session) (c : Call) : Except ModelError Answer × Session := (Editing.ofCall c).on s

/-- The session after some calls. -/
def after (s : Session) (calls : List Call) : Session := calls.foldl (fun s c => (s.run c).2) s

theorem inventory_empty (number : Nat) (name : InstanceName) :
    (Model.empty number name).store.Inventory := (Store.Built.new number).inventory

/-- A session after some calls holds the model after them. -/
theorem after_of {m : Model} (hs : m.store.Inventory) (calls : List Call) :
    (Session.of m).after calls = .of (m.after calls) := by
  induction calls generalizing m with
  | nil => rfl
  | cons c calls ih =>
    show ((Session.of m).run c).2.after calls = _
    rw [run, Editing.on_ofCall hs]
    exact ih (Model.inventory_call hs c)

theorem after_new (number : Nat) (name : InstanceName) (calls : List Call) :
    (new number name).after calls = .of ((Model.empty number name).after calls) :=
  after_of (inventory_empty number name) calls

theorem after_of_frozen {m : Model} (hs : m.store.Inventory) (h : m.frozen = true)
    (calls : List Call) : (of m).after calls = of m := by
  rw [after_of hs, Model.after_of_frozen h]

theorem run_of_frozen {m : Model} (hs : m.store.Inventory) (h : m.frozen = true) (c : Change) :
    (of m).run (.change c) = (.error .frozen, of m) := by
  rw [run, Editing.on_ofCall hs, Model.call, Model.change_of_frozen h]

/-- Calls are atomic, and freezing is final.  Whatever was called before: a call does in place
what it gives on models; a change that is refused leaves everything as it was, the names in
use and the counters included; a posting is refused exactly when the model is frozen or
something in the item is flawed, at any depth; and once the model was compiled, which changes
the frozen flag only, every change is refused whatever is called in between. -/
theorem changes_are_atomic (number : Nat) (name : InstanceName) (calls : List Call) :
    let s := (new number name).after calls
    (∀ c, s.run c = ((s.model.call c).1, .of (s.model.call c).2)) ∧
    (∀ c cause s', s.run (.change c) = (.error cause, s') → s' = s) ∧
    (∀ item decoration, (∃ cause, s.run (.change (.post item decoration)) = (.error cause, s)) ↔
      s.model.frozen = true ∨ item.Flawed s.model.store) ∧
    ∀ options, (s.run (.compile options)).2 = { s with model := { s.model with frozen := true } } ∧
      ∀ later c, let t := (s.run (.compile options)).2
        t.after later = t ∧ t.run (.change c) = (.error .frozen, t) := by
  intro s
  have hs : s = .of ((Model.empty number name).after calls) := after_new number name calls
  have hinventory : s.model.store.Inventory := by
    rw [hs]
    exact Model.inventory_after (inventory_empty number name) calls
  have hself : s = .of s.model := by rw [hs]; rfl
  have hrun : ∀ c, s.run c = ((s.model.call c).1, .of (s.model.call c).2) := fun c => by
    conv_lhs => rw [hself]
    exact Editing.on_ofCall hinventory c
  have hatomic : ∀ c cause s', s.run (.change c) = (.error cause, s') → s' = s :=
    fun c => Editing.atomic_ofChange c s
  refine ⟨hrun, hatomic, fun item decoration => ?_, fun options => ?_⟩
  · refine Iff.trans ?_ (s.model.exists_call_post_eq_error_iff item decoration)
    rw [hrun]
    constructor
    · rintro ⟨cause, h⟩
      exact ⟨cause, (Prod.ext_iff.mp h).1⟩
    · rintro ⟨cause, h⟩
      refine ⟨cause, Prod.ext h (hatomic (.post item decoration) cause _ ?_)⟩
      rw [hrun, h]
  · have hcompile : (s.run (.compile options)).2 =
        { s with model := { s.model with frozen := true } } := by
      rw [hrun, hself]
      rfl
    refine ⟨hcompile, fun later c => ?_⟩
    have ht : (s.run (.compile options)).2 = .of { s.model with frozen := true } := by
      rw [hcompile, hself]
      rfl
    rw [ht]
    have hfrozen : ({ s.model with frozen := true } : Model).store.Inventory := hinventory
    exact ⟨after_of_frozen hfrozen rfl later, run_of_frozen hfrozen rfl c⟩

end Session
end CspModel
