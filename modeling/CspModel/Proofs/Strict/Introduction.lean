import CspModel.Proofs.Settlement
import CspModel.Proofs.Strict.Values

/-! # Introducing auxiliary variables looks up what is there

An auxiliary variable is the only thing for which the introduction looks anything up: the
domains of the variables of its expression, the operands of its operators, and the array it
becomes a cell of.  All of them are there as long as expressions are well-formed over
declared variables, and that is kept by every step: declaring variables only adds to the
store, and the link of a new variable is over declared variables again (`Follows`).
-/
namespace CspModel

theorem Relation.WellFormed.mono {known known' : Variable → Prop} {r : Relation}
    (h : r.WellFormed known) (hknown : ∀ v, known v → known' v) : r.WellFormed known' :=
  ⟨fun e he => (h.1 e he).mono fun v _ => hknown v, h.2⟩

namespace Strict

/-! ### The steps -/

/-- A computation that can introduce auxiliary variables. -/
abbrev Introducing := StateT Introduction (Checked ModelError)

/-- The variable that stands for an expression, which is introduced on its first use. -/
def auxiliary (e : Expr) : Introducing Variable := fun state =>
  match state.replaced.lookup e with
  | some v => return (v, state)
  | none => do
    let d ← ExceptT.adapt ModelError.domain (possibleValues state.store e)
    let (v, store) ← declareAuxiliary state.store d
    return (v, ⟨store, (e, v) :: state.replaced, state.pending ++ [Introducing.link v e]⟩)

/-- Keeps a variable or a constant and replaces everything else. -/
def leaf (e : Expr) : Introducing Expr :=
  if e.isLeaf then pure e else .var <$> auxiliary e

/-- Keeps a variable and replaces everything else, also constants. -/
def variableOnly (e : Expr) : Introducing Expr :=
  if e.toVariable?.isSome then pure e else .var <$> auxiliary e

def leaves (list : List Expr) : Introducing (List Expr) := list.mapM leaf

def variablesOnly (list : List Expr) : Introducing (List Expr) := list.mapM variableOnly

mutual
/-- Replaces the aggregates within an expression. -/
def lift : Expr → Introducing Expr
  | .aggregate f => .var <$> auxiliary (.aggregate f)
  | .apply op operands => Expr.applied op <$> liftAll operands
  | e => pure e

/-- Replaces the aggregates within several expressions. -/
def liftAll : List Expr → Introducing (List Expr)
  | [] => pure []
  | e :: rest => do
    let e ← lift e
    let rest ← liftAll rest
    return e :: rest
end

/-- Keeps a scaled variable and replaces everything else. -/
def scaledVariable (e : Expr) : Introducing (Variable × Int) :=
  match Introducing.scaledVariable? e with
  | some scaled => pure scaled
  | none => (·, 1) <$> auxiliary e

/-- A term with its coefficient. -/
def term (e : Expr) (coefficient : Int) : Introducing (Expr × Int) := do
  let (v, factor) ← scaledVariable e
  match Bounded.checked (coefficient * factor) with
  | some coefficient => return (.var v, coefficient)
  | none => throw (.coefficientOverflow coefficient factor)

/-- Settles the operands of an aggregate that stands in its own constraint. -/
def settleAggregate : Aggregate Expr → Introducing (Aggregate Expr)
  | .sum terms coefficients => do
    let weighted := terms.zip (Aggregate.coefficientsOf terms coefficients)
    let weighted ← weighted.mapM fun (e, coefficient) => term e coefficient
    return .sum (weighted.map Prod.fst) (Aggregate.keptCoefficients (weighted.map Prod.snd))
  | .count list values => (.count · values) <$> leaves list
  | .nValues list except => (.nValues · except) <$> leaves list
  | .minimum list => .minimum <$> leaves list
  | .maximum list => .maximum <$> leaves list
  | .element list index startIndex => do
    let list ← leaves list
    let index ← variableOnly index
    return .element list index startIndex

/-- Settles what a value is compared to. -/
def settleCondition (c : Condition) : Introducing Condition :=
  match c.operand with
  | .expression e => (⟨c.comparison, .expression ·⟩) <$> leaf e
  | _ => pure c

def settleOccurrence : Occurrence → Introducing Occurrence
  | .exactly e => .exactly <$> leaf e
  | .between inf sup => pure (.between inf sup)

def settleTarget : ChannelTarget → Introducing ChannelTarget
  | .value e => .value <$> variableOnly e
  | target => pure target

/-- Settles a relation: what cannot stand in its place is replaced. -/
def settleRelation : Relation → Introducing Relation
  | .intension predicate => .intension <$> lift predicate
  | .extension list table => (.extension · table) <$> variablesOnly list
  | .allDifferent list except => (.allDifferent · except) <$> leaves list
  | .allEqual list => .allEqual <$> leaves list
  | .ordered list operator => (.ordered · operator) <$> leaves list
  | .conditional function condition => do
    let function ← settleAggregate function
    let condition ← settleCondition condition
    return .conditional function condition
  | .circuit list startIndex => (.circuit · startIndex) <$> variablesOnly list
  | .noOverlap origins lengths zeroIgnored => do
    let origins ← variablesOnly origins
    let lengths ← leaves lengths
    return .noOverlap origins lengths zeroIgnored
  | .cumulative origins lengths heights condition => do
    let origins ← variablesOnly origins
    let lengths ← leaves lengths
    let heights ← leaves heights
    let condition ← settleCondition condition
    return .cumulative origins lengths heights condition
  | .instantiation list values => pure (.instantiation list values)
  | .lex lists operator => (.lex · operator) <$> lists.mapM leaves
  | .channel list startIndex target => (.channel list startIndex ·) <$> settleTarget target
  | .cardinality list values occurs closed => do
    let list ← variablesOnly list
    let values ← leaves values
    let occurs ← occurs.mapM settleOccurrence
    return .cardinality list values occurs closed
  | .regular list automaton => (.regular · automaton) <$> variablesOnly list
  | .mdd list diagram => (.mdd · diagram) <$> variablesOnly list
  | .precedence list values covered => (.precedence · values covered) <$> variablesOnly list
  | .clause literals => pure (.clause literals)

mutual
/-- Settles a constraint, and every window of a slide. -/
def settle : Constraint → Introducing Constraint
  | .relation r => .relation <$> settleRelation r
  | .slide windows => .slide <$> settleAll windows

/-- Settles several constraints. -/
def settleAll : List Constraint → Introducing (List Constraint)
  | [] => pure []
  | c :: rest => do
    let c ← settle c
    let rest ← settleAll rest
    return c :: rest
end

/-- Takes the pending links. -/
def takePending : Introducing (List Relation) := fun state =>
  return (state.pending, { state with pending := [] })

/-- Settles the pending links in at most so many waves. -/
def settleWaves : Nat → Introducing (List Relation)
  | 0 => pure []
  | n + 1 => do
    let pending ← takePending
    if pending.isEmpty then
      return []
    else
      let here ← pending.mapM settleRelation
      let later ← settleWaves n
      return here ++ later

/-- Settles the pending links and all that they bring along. -/
def settleLinks : Introducing (List Relation) := do
  let state ← get
  settleWaves (Introducing.waves state.pending)

/-- The constraints of links. -/
def linkConstraints : Introducing (List Constraint) :=
  (·.map Constraint.relation) <$> settleLinks

/-- Settles a posting together with its links. -/
def settlePosting (p : Posting) : Introducing (List Posting) := do
  match p.body with
  | .single c =>
    let c ← settle c
    let links ← linkConstraints
    return ⟨.single c, p.decoration⟩ :: links.map fun link => ⟨.single link, {}⟩
  | .gather constraints =>
    let constraints ← settleAll constraints
    let links ← linkConstraints
    return ⟨.gather constraints, p.decoration⟩ :: Introducing.gathered links

/-- Settles the value to optimise. -/
def settleObjectiveTarget : Target → Introducing Target
  | .expression e => .expression <$> lift e
  | .aggregate f =>
    match f with
    | .sum terms coefficients => .aggregate <$> settleAggregate (.sum terms coefficients)
    | .nValues list except =>
      (fun list => .aggregate (.nValues list except)) <$> variablesOnly list
    | .minimum list => (fun list => .aggregate (.minimum list)) <$> variablesOnly list
    | .maximum list => (fun list => .aggregate (.maximum list)) <$> variablesOnly list
    | .count list values =>
      (fun v => .expression (.var v)) <$> auxiliary (.aggregate (.count list values))
    | .element list index startIndex =>
      (fun v => .expression (.var v)) <$> auxiliary (.aggregate (.element list index startIndex))

/-- Settles the objective; its links are posted together. -/
def settleObjective : Option Objective → Introducing (Option Objective × List Posting)
  | none => pure (none, [])
  | some objective => do
    let target ← settleObjectiveTarget objective.target
    let links ← linkConstraints
    return (some { objective with target }, Introducing.gathered links)

/-- Settles the postings and the objective of a model. -/
def settleModel (m : Model) : Introducing (List Posting × Option Objective) := do
  let postings ← m.postings.mapM settlePosting
  let (objective, links) ← settleObjective m.objective
  return (postings.flatten ++ links, objective)

/-- Introduces the auxiliary variables that the constraints and the objective of a
model need. -/
def introduced (m : Model) : Checked ModelError Introduced := do
  let ((postings, objective), state) ← (settleModel m).run { store := m.store }
  return ⟨state.store, postings, objective, state.replaced⟩

/-! ### What the steps rely on and keep -/

/-- Known variables are declared in a store that was built, and pending links are
well-formed over it. -/
structure Safe (known : Variable → Prop) (state : Introduction) : Prop where
  built : state.store.Built
  declares : ∀ v, known v → state.store.Declares v
  pending : ∀ r ∈ state.pending, r.WellFormed state.store.Declares

/-- In a safe state the lookups of a step succeed, and it does what another step does,
which leads to a safe state. -/
def Follows {α : Type} (known : Variable → Prop) (x' : Introducing α)
    (x : CspModel.Introducing α) : Prop :=
  ∀ state, Safe known state → Agrees (x' state) (x state) ∧
    ∀ a state', x state = .ok (a, state') → Safe known state'

namespace Follows

variable {α β : Type} {known : Variable → Prop}

theorem pure (a : α) : Follows known (pure a) (pure a) := by
  refine fun state hstate => ⟨.pure _, fun a' state' hrun => ?_⟩
  cases hrun
  exact hstate

theorem throw (cause : ModelError) :
    Follows known (throw cause : Introducing α) (throw cause) :=
  fun _ _ => ⟨.throw cause, fun _ _ hrun => nomatch hrun⟩

theorem bind {x' : Introducing α} {x : CspModel.Introducing α} {f' : α → Introducing β}
    {f : α → CspModel.Introducing β} (hx : Follows known x' x)
    (hf : ∀ a, Follows known (f' a) (f a)) : Follows known (x' >>= f') (x >>= f) := by
  intro state hstate
  obtain ⟨hagrees, hsafe⟩ := hx state hstate
  constructor
  · exact hagrees.bind fun result hresult => (hf result.1 result.2 (hsafe _ _ hresult)).1
  · intro b state'' hrun
    obtain ⟨a, state', ha, hb⟩ := Introducing.bind_eq_ok.mp hrun
    exact (hf a state' (hsafe a state' ha)).2 b state'' hb

theorem map {x' : Introducing α} {x : CspModel.Introducing α} (hx : Follows known x' x)
    (f : α → β) : Follows known (f <$> x') (f <$> x) := by
  rw [map_eq_pure_bind, map_eq_pure_bind]
  exact hx.bind fun a => .pure (f a)

/-- A step for every entry of a list. -/
theorem mapM {f' : α → Introducing β} {f : α → CspModel.Introducing β} {list : List α}
    (h : ∀ a ∈ list, Follows known (f' a) (f a)) : Follows known (list.mapM f') (list.mapM f) := by
  induction list with
  | nil => exact .pure []
  | cons a rest ih =>
    rw [List.mapM_cons, List.mapM_cons]
    refine (h a List.mem_cons_self).bind fun b => ?_
    refine (ih fun a ha => h a (List.mem_cons_of_mem _ ha)).bind fun bs => ?_
    exact .pure (b :: bs)

end Follows

theorem Safe.mono {known known' : Variable → Prop} {state : Introduction}
    (h : Safe known' state) (hknown : ∀ v, known v → known' v) : Safe known state :=
  ⟨h.built, fun v hv => h.declares v (hknown v hv), h.pending⟩

/-! ### Variables for expressions -/

section
variable {known : Variable → Prop}

/-- A variable for a well-formed expression is declared, and its link is pending. -/
theorem Safe.introduce {state : Introduction} (h : Safe known state) {e : Expr}
    (he : e.WellFormed known) {d : Domain}
    (hd : CspModel.possibleValues state.store e = .ok d) :
    Safe known ⟨(state.store.declareAuxiliary d).2,
      (e, (state.store.declareAuxiliary d).1) :: state.replaced,
      state.pending ++ [Introducing.link (state.store.declareAuxiliary d).1 e]⟩ := by
  have he : e.WellFormed state.store.Declares := he.mono fun v _ => h.declares v
  have hadds := Store.adds_declareAuxiliary h.built.consistent_true d
  have hgrows : ∀ v, state.store.Declares v → (state.store.declareAuxiliary d).2.Declares v :=
    fun v hv => hadds.declares_iff.mpr (.inr hv)
  refine ⟨h.built.declareAuxiliary he hd, fun v hv => hgrows v (h.declares v hv), fun r hr => ?_⟩
  rcases List.mem_append.mp hr with hr | hr
  · exact (h.pending r hr).mono hgrows
  · rw [List.mem_singleton.mp hr]
    exact Introducing.wellFormed_link hadds.declares_new (he.mono fun v _ => hgrows v)

theorem follows_auxiliary {e : Expr} (he : e.WellFormed known) :
    Follows known (auxiliary e) (Introducing.auxiliary e) := by
  intro state hstate
  have hvalues : possibleValues state.store e = some (CspModel.possibleValues state.store e) :=
    agrees_possibleValues hstate.built (he.mono fun v _ => hstate.declares v)
  constructor
  · unfold auxiliary Introducing.auxiliary
    cases state.replaced.lookup e with
    | some v => exact .pure _
    | none =>
      rw [hvalues]
      cases CspModel.possibleValues state.store e with
      | error cause => rfl
      | ok d => exact .lookup_bind (declareAuxiliary_eq hstate.built d) (.pure _)
  · intro v state' hrun
    rcases Introducing.auxiliary_eq_ok hrun with ⟨rfl, _⟩ | ⟨d, hd, rfl, rfl⟩
    · exact hstate
    · exact hstate.introduce he hd

theorem follows_leaf {e : Expr} (he : e.WellFormed known) :
    Follows known (leaf e) (Introducing.leaf e) := by
  unfold leaf Introducing.leaf
  split
  · exact .pure e
  · exact (follows_auxiliary he).map _

theorem follows_variableOnly {e : Expr} (he : e.WellFormed known) :
    Follows known (variableOnly e) (Introducing.variableOnly e) := by
  unfold variableOnly Introducing.variableOnly
  split
  · exact .pure e
  · exact (follows_auxiliary he).map _

theorem follows_leaves {list : List Expr} (h : ∀ e ∈ list, e.WellFormed known) :
    Follows known (leaves list) (Introducing.leaves list) :=
  .mapM fun e he => follows_leaf (h e he)

theorem follows_variablesOnly {list : List Expr} (h : ∀ e ∈ list, e.WellFormed known) :
    Follows known (variablesOnly list) (Introducing.variablesOnly list) :=
  .mapM fun e he => follows_variableOnly (h e he)

theorem liftAll_eq_mapM (list : List Expr) : liftAll list = list.mapM lift := by
  induction list with
  | nil => rfl
  | cons e rest ih => rw [liftAll, ih, List.mapM_cons]

theorem follows_lift {e : Expr} (he : e.WellFormed known) :
    Follows known (lift e) (Introducing.lift e) := by
  induction e using Expr.induction with
  | const | var | set => exact .pure _
  | apply op operands ih =>
    have hoperands := (Expr.wellFormed_apply.mp he).2
    rw [lift, liftAll_eq_mapM, Introducing.lift, Introducing.liftAll_eq_mapM]
    exact (Follows.mapM fun e he => ih e he (hoperands e he)).map _
  | aggregate f => exact (follows_auxiliary he).map _

theorem follows_scaledVariable {e : Expr} (he : e.WellFormed known) :
    Follows known (scaledVariable e) (Introducing.scaledVariable e) := by
  unfold scaledVariable Introducing.scaledVariable
  cases Introducing.scaledVariable? e with
  | some scaled => exact .pure _
  | none => exact (follows_auxiliary he).map _

theorem follows_term {e : Expr} (he : e.WellFormed known) (coefficient : Int) :
    Follows known (term e coefficient) (Introducing.term e coefficient) := by
  refine (follows_scaledVariable he).bind fun (v, factor) => ?_
  simp only
  cases Bounded.checked (coefficient * factor) with
  | none => exact .throw _
  | some coefficient => exact .pure _

/-! ### Relations -/

theorem follows_settleAggregate {f : Aggregate Expr} (hf : ∀ e ∈ f.operands, e.WellFormed known) :
    Follows known (settleAggregate f) (Introducing.settleAggregate f) := by
  cases f with
  | sum terms coefficients =>
    refine Follows.bind (.mapM fun weighted hweighted => ?_) fun weighted => .pure _
    exact follows_term (hf _ (List.of_mem_zip hweighted).1) _
  | count list values | nValues list except | minimum list | maximum list =>
    exact (follows_leaves hf).map _
  | element list index startIndex =>
    obtain ⟨hlist, hindex⟩ := List.forall_mem_append.mp hf
    refine (follows_leaves hlist).bind fun list' => ?_
    exact (follows_variableOnly (hindex index (List.mem_singleton_self index))).bind fun index' =>
      .pure _

theorem follows_settleCondition {c : Condition} (hc : ∀ e ∈ c.expressions, e.WellFormed known) :
    Follows known (settleCondition c) (Introducing.settleCondition c) := by
  obtain ⟨comparison, operand⟩ := c
  cases operand with
  | expression e => exact (follows_leaf (hc e (List.mem_singleton_self e))).map _
  | range | set => exact .pure _

theorem follows_settleOccurrence {o : Occurrence}
    (ho : ∀ e, Relation.occurrenceExpr? o = some e → e.WellFormed known) :
    Follows known (settleOccurrence o) (Introducing.settleOccurrence o) := by
  cases o with
  | exactly e => exact (follows_leaf (ho e rfl)).map _
  | between => exact .pure _

theorem follows_settleTarget {t : ChannelTarget}
    (ht : ∀ e ∈ Relation.targetExpressions t, e.WellFormed known) :
    Follows known (settleTarget t) (Introducing.settleTarget t) := by
  cases t with
  | value e => exact (follows_variableOnly (ht e (List.mem_singleton_self e))).map _
  | itself | list => exact .pure _

theorem follows_settleRelation {r : Relation} (hr : ∀ e ∈ r.expressions, e.WellFormed known) :
    Follows known (settleRelation r) (Introducing.settleRelation r) := by
  cases r with
  | intension predicate =>
    exact (follows_lift (hr predicate (List.mem_singleton_self predicate))).map _
  | extension | circuit | regular | mdd | precedence => exact (follows_variablesOnly hr).map _
  | allDifferent | allEqual | ordered => exact (follows_leaves hr).map _
  | conditional function condition =>
    obtain ⟨hfunction, hcondition⟩ := List.forall_mem_append.mp hr
    exact (follows_settleAggregate hfunction).bind fun function' =>
      (follows_settleCondition hcondition).bind fun condition' => .pure _
  | noOverlap origins lengths zeroIgnored =>
    obtain ⟨horigins, hlengths⟩ := List.forall_mem_append.mp hr
    exact (follows_variablesOnly horigins).bind fun origins' =>
      (follows_leaves hlengths).bind fun lengths' => .pure _
  | cumulative origins lengths heights condition =>
    obtain ⟨hr, hcondition⟩ := List.forall_mem_append.mp hr
    obtain ⟨hr, hheights⟩ := List.forall_mem_append.mp hr
    obtain ⟨horigins, hlengths⟩ := List.forall_mem_append.mp hr
    exact (follows_variablesOnly horigins).bind fun origins' =>
      (follows_leaves hlengths).bind fun lengths' => (follows_leaves hheights).bind fun heights' =>
        (follows_settleCondition hcondition).bind fun condition' => .pure _
  | instantiation | clause => exact .pure _
  | lex lists operator =>
    refine (Follows.mapM fun list hlist => follows_leaves fun e he => ?_).map _
    exact hr e (List.mem_flatten.mpr ⟨list, hlist, he⟩)
  | channel list startIndex target =>
    exact (follows_settleTarget (List.forall_mem_append.mp hr).2).map _
  | cardinality list values occurs closed =>
    obtain ⟨hr, hoccurs⟩ := List.forall_mem_append.mp hr
    obtain ⟨hlist, hvalues⟩ := List.forall_mem_append.mp hr
    refine (follows_variablesOnly hlist).bind fun list' =>
      (follows_leaves hvalues).bind fun values' => ?_
    refine Follows.bind (.mapM fun o ho => follows_settleOccurrence fun e he => ?_) fun occurs' =>
      .pure _
    exact hoccurs e (List.mem_filterMap.mpr ⟨o, ho, he⟩)

theorem settleAll_eq_mapM (list : List Constraint) : settleAll list = list.mapM settle := by
  induction list with
  | nil => rfl
  | cons c rest ih => rw [settleAll, ih, List.mapM_cons]

mutual
theorem follows_settle : (c : Constraint) → (∀ r ∈ c.relations, r.WellFormed known) →
    Follows known (settle c) (Introducing.settle c)
  | .relation r, h => (follows_settleRelation (h r (List.mem_singleton_self r)).1).map _
  | .slide windows, h => (follows_settleAll windows h).map _

theorem follows_settleAll : (list : List Constraint) →
    (∀ r ∈ Constraint.relationsOf list, r.WellFormed known) →
    Follows known (settleAll list) (Introducing.settleAll list)
  | [], _ => .pure []
  | c :: rest, h => by
    obtain ⟨hc, hrest⟩ := List.forall_mem_append.mp h
    exact (follows_settle c hc).bind fun c' => (follows_settleAll rest hrest).bind fun rest' =>
      .pure _
end

/-! ### Links -/

end

end Strict
end CspModel
