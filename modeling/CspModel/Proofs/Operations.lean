import CspModel.Proofs.Reachable

/-! # Sequences of operations

A model is changed by calls: declarations, postings, an objective and annotations change
what it holds, and compiling freezes it.  A call gives an answer or is refused, and a
model after a sequence of calls is the one the calls leave one after the other.  What a
change that is accepted has checked and written is said once (`Model.Changes`).
-/
namespace CspModel

/-- A call that can change what a model holds, with its arguments. -/
inductive Change where
  | addVariable (name : Option String) (d : Domain)
  | addArray (name : Option String) (shape : List Nat) (domainAt : List Nat → Option Domain)
  | post (item : Item) (decoration : Decoration)
  | optimize (direction : Direction) (target : Target)
  | annotateDecision (list : List Variable)
  | annotateValueHeuristic (list : List Variable) (values : List Int)

/-- A call. -/
inductive Call where
  | change (c : Change)
  | compile (options : Options)

/-- What a call gives back. -/
inductive Answer where
  | variable (v : Variable)
  | array (a : VarArray)
  | done (notices : List Notice)
  | compiled (c : Compiled)

namespace Model

/-- The answer to a change with the model after it. -/
def change (m : Model) : Change → Except ModelError (Answer × Model)
  | .addVariable name d => (m.addVariable name d).map fun (v, m) => (.variable v, m)
  | .addArray name shape domainAt =>
    (m.addArray name shape domainAt).map fun (a, m) => (.array a, m)
  | .post item decoration => (m.post item decoration).map fun (m, notices) => (.done notices, m)
  | .optimize direction target => (m.optimize direction target).map fun m => (.done [], m)
  | .annotateDecision list => (m.annotateDecision list).map fun (m, notices) => (.done notices, m)
  | .annotateValueHeuristic list values =>
    (m.annotateValueHeuristic list values).map fun (m, notices) => (.done notices, m)

/-- The answer to a call, and the model after it. -/
def call (m : Model) : Call → Except ModelError Answer × Model
  | .change c =>
    match m.change c with
    | .ok (answer, m) => (.ok answer, m)
    | .error cause => (.error cause, m)
  | .compile options =>
    let (m, compiled, _) := m.compile options
    (compiled.map .compiled, m)

/-- The model after some calls. -/
def after (m : Model) (calls : List Call) : Model := calls.foldl (fun m c => (m.call c).2) m

@[simp] theorem after_cons (m : Model) (c : Call) (calls : List Call) :
    m.after (c :: calls) = (m.call c).2.after calls := rfl

/-- What a change does to a model when it is accepted, and what it has checked before. -/
inductive Changes (m : Model) : Change → Model → Prop
  | addVariable {name : Option String} {d : Domain} {v : Variable} {s : Store} :
      m.store.declareVariable name d = .ok (v, s) →
      Changes m (.addVariable name d) { m with store := s }
  | addArray {name : Option String} {shape : List Nat} {domainAt : List Nat → Option Domain}
      {a : VarArray} {s : Store} : m.store.declareArray name shape domainAt = .ok (a, s) →
      Changes m (.addArray name shape domainAt) { m with store := s }
  | post {item : Item} {decoration : Decoration} {body : Body} :
      item.flatten = .ok body.constraints → m.validateAll body.constraints = .ok () →
      body.constraints ≠ [] →
      Changes m (.post item decoration) { m with postings := m.postings ++ [⟨body, decoration⟩] }
  | postNothing {item : Item} {decoration : Decoration} : item.flatten = .ok [] →
      Changes m (.post item decoration) m
  | optimize {direction : Direction} {target : Target} : m.objective = none →
      target.isNumeric = true → m.checkTarget target.scope = .ok () →
      Changes m (.optimize direction target) { m with objective := some ⟨direction, target⟩ }
  | annotateDecision {list : List Variable} : m.checkScope list = .ok () → list ≠ [] →
      Changes m (.annotateDecision list)
        { m with annotations := { m.annotations with decision := some list } }
  | annotateValueHeuristic {list : List Variable} {values : List Int} :
      m.checkScope list = .ok () → list ≠ [] → Changes m (.annotateValueHeuristic list values)
        { m with annotations := { m.annotations with valueHeuristic := some (list, values) } }
  | annotateNoDecision : Changes m (.annotateDecision []) m
  | annotateNoValueHeuristic {values : List Int} : Changes m (.annotateValueHeuristic [] values) m

theorem changes_addVariable {m m' : Model} {name : Option String} {d : Domain} {v : Variable}
    (h : m.addVariable name d = .ok (v, m')) : m.Changes (.addVariable name d) m' := by
  obtain ⟨_, hdeclare, h⟩ := Except.bind_eq_ok.mp (checkOpen_bind h)
  cases h
  exact .addVariable hdeclare

theorem changes_addArray {m m' : Model} {name : Option String} {shape : List Nat}
    {domainAt : List Nat → Option Domain} {a : VarArray}
    (h : m.addArray name shape domainAt = .ok (a, m')) :
    m.Changes (.addArray name shape domainAt) m' := by
  rw [addArray_eq] at h
  obtain ⟨_, hdeclare, h⟩ := Except.bind_eq_ok.mp (checkOpen_bind h)
  cases h
  exact .addArray hdeclare

/-- An accepted posting has checked its constraints. -/
theorem changes_post {m m' : Model} {item : Item} {decoration : Decoration}
    {notices : List Notice} (h : m.post item decoration = .ok (m', notices)) :
    m.Changes (.post item decoration) m' := by
  have h := checkOpen_bind h
  obtain ⟨constraints, hflatten, h⟩ := Except.bind_eq_ok.mp h
  obtain ⟨_, hvalid, h⟩ := Except.bind_eq_ok.mp h
  split at h
  · cases h
    exact .postNothing hflatten
  · rename_i hne
    cases h
    have hbody : (if item.isList then Body.gather constraints
        else Body.ofList constraints).constraints = constraints := by
      split
      · rfl
      · exact Body.constraints_ofList constraints
    refine .post ?_ ?_ ?_
    · rw [hbody, hflatten]
    · rwa [hbody]
    · rwa [hbody]

theorem changes_optimize {m m' : Model} {direction : Direction} {target : Target}
    (h : m.optimize direction target = .ok m') : m.Changes (.optimize direction target) m' := by
  have h := checkOpen_bind h
  simp only [bind, Except.bind] at h
  split at h
  · cases h
  · rename_i hobjective
    split at h
    · cases h
    · rename_i hnumeric
      obtain ⟨_, hscope, h⟩ := Except.bind_eq_ok.mp h
      cases h
      exact .optimize (by simpa using hobjective) (by simpa using hnumeric) hscope

theorem changes_annotateDecision {m m' : Model} {list : List Variable} {notices : List Notice}
    (h : m.annotateDecision list = .ok (m', notices)) :
    m.Changes (.annotateDecision list) m' := by
  obtain ⟨_, hscope, h⟩ := Except.bind_eq_ok.mp (checkOpen_bind h)
  cases list with
  | nil =>
    cases h
    exact .annotateNoDecision
  | cons v rest =>
    cases h
    exact .annotateDecision hscope (List.cons_ne_nil v rest)

theorem changes_annotateValueHeuristic {m m' : Model} {list : List Variable} {values : List Int}
    {notices : List Notice} (h : m.annotateValueHeuristic list values = .ok (m', notices)) :
    m.Changes (.annotateValueHeuristic list values) m' := by
  obtain ⟨_, hscope, h⟩ := Except.bind_eq_ok.mp (checkOpen_bind h)
  cases list with
  | nil =>
    cases h
    exact .annotateNoValueHeuristic
  | cons v rest =>
    cases h
    exact .annotateValueHeuristic hscope (List.cons_ne_nil v rest)

/-- What an accepted change does is what its kind can do. -/
theorem changes_of_change {m m' : Model} {c : Change} {answer : Answer}
    (h : m.change c = .ok (answer, m')) : m.Changes c m' := by
  cases c with
  | addVariable name d =>
    obtain ⟨_, hresult, heq⟩ := Except.map_eq_ok.mp h
    cases heq
    exact changes_addVariable hresult
  | addArray name shape domainAt =>
    obtain ⟨_, hresult, heq⟩ := Except.map_eq_ok.mp h
    cases heq
    exact changes_addArray hresult
  | post item decoration =>
    obtain ⟨_, hresult, heq⟩ := Except.map_eq_ok.mp h
    cases heq
    exact changes_post hresult
  | optimize direction target =>
    obtain ⟨_, hresult, heq⟩ := Except.map_eq_ok.mp h
    cases heq
    exact changes_optimize hresult
  | annotateDecision list =>
    obtain ⟨_, hresult, heq⟩ := Except.map_eq_ok.mp h
    cases heq
    exact changes_annotateDecision hresult
  | annotateValueHeuristic list values =>
    obtain ⟨_, hresult, heq⟩ := Except.map_eq_ok.mp h
    cases heq
    exact changes_annotateValueHeuristic hresult

/-- Induction over the changes that led to a model: what holds of an empty one, and is kept
by every accepted change and by freezing, holds of every model that can be reached. -/
@[elab_as_elim]
theorem Reachable.of_changes {motive : (m : Model) → m.Reachable → Prop}
    (empty : ∀ number name, motive (.empty number name) (.empty number name))
    (change : ∀ {m m' : Model} {c : Change} (hm : m.Reachable) (hm' : m'.Reachable),
      m.Changes c m' → motive m hm → motive m' hm')
    (compile : ∀ {m : Model} {options : Options} (hm : m.Reachable), motive m hm →
      motive (m.compile options).1 hm.compile)
    {m : Model} (h : m.Reachable) : motive m h := by
  induction h with
  | empty number name => exact empty number name
  | addVariable hm _ h ih => exact change hm _ (changes_addVariable h) ih
  | addArray hm _ h ih => exact change hm _ (changes_addArray h) ih
  | post hm _ h ih => exact change hm _ (changes_post h) ih
  | optimize hm _ h ih => exact change hm _ (changes_optimize h) ih
  | annotateDecision hm h ih => exact change hm _ (changes_annotateDecision h) ih
  | annotateValueHeuristic hm h ih => exact change hm _ (changes_annotateValueHeuristic h) ih
  | compile hm ih => exact compile hm ih

/-- A call compiles, is refused, or changes the model. -/
theorem call_cases {m m' : Model} {c : Call} (h : (m.call c).2 = m') :
    (∃ options, c = .compile options ∧ m' = { m with frozen := true }) ∨
      m' = m ∨ ∃ change, c = .change change ∧ m.Changes change m' := by
  subst h
  cases c with
  | compile options => exact .inl ⟨options, rfl, rfl⟩
  | change c =>
    refine .inr ?_
    rw [call]
    cases h : m.change c with
    | error cause => exact .inl rfl
    | ok result => exact .inr ⟨c, rfl, changes_of_change h⟩

end Model
end CspModel
