import CspModel.Auxiliary.Values
import CspModel.Model

/-! # Introducing auxiliary variables

A document cannot hold every expression everywhere.  Some lists take variables
only, others variables and constants, and an aggregate stands only where it is
compared to something.  An expression that cannot stand in its place is replaced
by an auxiliary variable, and a link is posted along: a constraint stating that
the variable has the value of the expression.  Equal expressions share their
variable.  Links hold expressions that may have to be replaced in turn; they are
settled in waves until no link is pending, and posted right after the
constraints that caused them.
-/
namespace CspModel

/-- The state of the introduction of auxiliary variables. -/
structure Introduction where
  store : Store
  /-- The replaced expressions with their variables, the latest first. -/
  replaced : List (Expr × Variable) := []
  /-- The links that have not been settled, in the order they arose. -/
  pending : List Relation := []

/-- A computation that can introduce auxiliary variables. -/
abbrev Introducing := StateT Introduction (Except ModelError)

namespace Introducing

/-- The statement that a variable has the value of an expression. -/
def link (v : Variable) : Expr → Relation
  | .aggregate f => .conditional f (.compareTo .eq (.var v))
  | e => .intension (Expr.binary .eq (.var v) e)

/-- The variable that stands for an expression, which is introduced on its first use. -/
def auxiliary (e : Expr) : Introducing Variable := fun state =>
  match state.replaced.lookup e with
  | some v => .ok (v, state)
  | none =>
    match possibleValues state.store e with
    | .error cause => .error (.domain cause)
    | .ok d =>
      let (v, store) := state.store.declareAuxiliary d
      .ok (v, ⟨store, (e, v) :: state.replaced, state.pending ++ [link v e]⟩)

/-- Keeps a variable or a constant and replaces everything else. -/
def leaf (e : Expr) : Introducing Expr :=
  if e.isLeaf then pure e else .var <$> auxiliary e

/-- Keeps a variable and replaces everything else, also constants. -/
def variableOnly (e : Expr) : Introducing Expr :=
  if e.toVariable?.isSome then pure e else .var <$> auxiliary e

def leaves (list : List Expr) : Introducing (List Expr) := list.mapM leaf

def variablesOnly (list : List Expr) : Introducing (List Expr) := list.mapM variableOnly

mutual
/-- Replaces the aggregates within an expression. -/
def lift : Expr → Introducing Expr
  | .aggregate f => .var <$> auxiliary (.aggregate f)
  | .apply op operands => Expr.applied op <$> liftAll operands
  | e => pure e

/-- Replaces the aggregates within several expressions. -/
def liftAll : List Expr → Introducing (List Expr)
  | [] => pure []
  | e :: rest => do
    let e ← lift e
    let rest ← liftAll rest
    return e :: rest
end

/-- The variable and the factor of a term of the form `x`, `x * k` or `k * x`. -/
def scaledVariable? : Expr → Option (Variable × Int)
  | .var v => some (v, 1)
  | .apply .mul [.var v, .const factor] => some (v, factor)
  | .apply .mul [.const factor, .var v] => some (v, factor)
  | _ => none

/-- Keeps a scaled variable and replaces everything else. -/
def scaledVariable (e : Expr) : Introducing (Variable × Int) :=
  match scaledVariable? e with
  | some scaled => pure scaled
  | none => (·, 1) <$> auxiliary e

/-- A term with its coefficient: a scaled variable gives its factor to the
coefficient, any other term is replaced. -/
def term (e : Expr) (coefficient : Int) : Introducing (Expr × Int) := do
  let (v, factor) ← scaledVariable e
  match Bounded.checked (coefficient * factor) with
  | some coefficient => return (.var v, coefficient)
  | none => throw (.coefficientOverflow coefficient factor)

/-- Settles the operands of an aggregate that stands in its own constraint. -/
def settleAggregate : Aggregate Expr → Introducing (Aggregate Expr)
  | .sum terms coefficients => do
    let weighted := terms.zip (Aggregate.coefficientsOf terms coefficients)
    let weighted ← weighted.mapM fun (e, coefficient) => term e coefficient
    return .sum (weighted.map Prod.fst) (Aggregate.keptCoefficients (weighted.map Prod.snd))
  | .count list values => (.count · values) <$> leaves list
  | .nValues list except => (.nValues · except) <$> leaves list
  | .minimum list => .minimum <$> leaves list
  | .maximum list => .maximum <$> leaves list
  | .element list index startIndex => do
    let list ← leaves list
    let index ← variableOnly index
    return .element list index startIndex

/-- Settles what a value is compared to. -/
def settleCondition (c : Condition) : Introducing Condition :=
  match c.operand with
  | .expression e => (⟨c.comparison, .expression ·⟩) <$> leaf e
  | _ => pure c

def settleOccurrence : Occurrence → Introducing Occurrence
  | .exactly e => .exactly <$> leaf e
  | .between inf sup => pure (.between inf sup)

def settleTarget : ChannelTarget → Introducing ChannelTarget
  | .value e => .value <$> variableOnly e
  | target => pure target

/-- Settles a relation: what cannot stand in its place is replaced. -/
def settleRelation : Relation → Introducing Relation
  | .intension predicate => .intension <$> lift predicate
  | .extension list table => (.extension · table) <$> variablesOnly list
  | .allDifferent list except => (.allDifferent · except) <$> leaves list
  | .allEqual list => .allEqual <$> leaves list
  | .ordered list operator => (.ordered · operator) <$> leaves list
  | .conditional function condition => do
    let function ← settleAggregate function
    let condition ← settleCondition condition
    return .conditional function condition
  | .circuit list startIndex => (.circuit · startIndex) <$> variablesOnly list
  | .noOverlap origins lengths zeroIgnored => do
    let origins ← variablesOnly origins
    let lengths ← leaves lengths
    return .noOverlap origins lengths zeroIgnored
  | .cumulative origins lengths heights condition => do
    let origins ← variablesOnly origins
    let lengths ← leaves lengths
    let heights ← leaves heights
    let condition ← settleCondition condition
    return .cumulative origins lengths heights condition
  | .instantiation list values => pure (.instantiation list values)
  | .lex lists operator => (.lex · operator) <$> lists.mapM leaves
  | .channel list startIndex target => (.channel list startIndex ·) <$> settleTarget target
  | .cardinality list values occurs closed => do
    let list ← variablesOnly list
    let values ← leaves values
    let occurs ← occurs.mapM settleOccurrence
    return .cardinality list values occurs closed
  | .regular list automaton => (.regular · automaton) <$> variablesOnly list
  | .mdd list diagram => (.mdd · diagram) <$> variablesOnly list
  | .precedence list values covered => (.precedence · values covered) <$> variablesOnly list
  | .clause literals => pure (.clause literals)

mutual
/-- Settles a constraint, and every window of a slide. -/
def settle : Constraint → Introducing Constraint
  | .relation r => .relation <$> settleRelation r
  | .slide windows => .slide <$> settleAll windows

/-- Settles several constraints. -/
def settleAll : List Constraint → Introducing (List Constraint)
  | [] => pure []
  | c :: rest => do
    let c ← settle c
    let rest ← settleAll rest
    return c :: rest
end

/-! ### Links -/

/-- Takes the pending links. -/
def takePending : Introducing (List Relation) := fun state =>
  .ok (state.pending, { state with pending := [] })

/-- The number of waves that certainly empties the pending links: a link only brings
along links of expressions nested deeper. -/
def waves (pending : List Relation) : Nat :=
  ((pending.flatMap Relation.expressions).map Expr.depth).foldl max 0 + 2

/-- Settles the pending links in at most so many waves. -/
def settleWaves : Nat → Introducing (List Relation)
  | 0 => pure []
  | n + 1 => do
    let pending ← takePending
    if pending.isEmpty then
      return []
    else
      let here ← pending.mapM settleRelation
      let later ← settleWaves n
      return here ++ later

/-- Settles the pending links and all that they bring along. -/
def settleLinks : Introducing (List Relation) := do
  let state ← get
  settleWaves (waves state.pending)

/-- The constraints of links. -/
def linkConstraints : Introducing (List Constraint) :=
  (·.map Constraint.relation) <$> settleLinks

/-- Links posted together without labels; none when there are no links. -/
def gathered (links : List Constraint) : List Posting :=
  if links.isEmpty then [] else [⟨.ofList links, {}⟩]

/-- Settles a posting; its links follow it, one by one after a single constraint and
together after constraints posted together. -/
def settlePosting (p : Posting) : Introducing (List Posting) := do
  match p.body with
  | .single c =>
    let c ← settle c
    let links ← linkConstraints
    return ⟨.single c, p.decoration⟩ :: links.map fun link => ⟨.single link, {}⟩
  | .gather constraints =>
    let constraints ← settleAll constraints
    let links ← linkConstraints
    return ⟨.gather constraints, p.decoration⟩ :: gathered links

/-- Settles the value to optimise: a number of occurrences or an element is optimised
through a variable, other aggregates over variables only. -/
def settleObjectiveTarget : Target → Introducing Target
  | .expression e => .expression <$> lift e
  | .aggregate f =>
    match f with
    | .sum terms coefficients => .aggregate <$> settleAggregate (.sum terms coefficients)
    | .nValues list except =>
      (fun list => .aggregate (.nValues list except)) <$> variablesOnly list
    | .minimum list => (fun list => .aggregate (.minimum list)) <$> variablesOnly list
    | .maximum list => (fun list => .aggregate (.maximum list)) <$> variablesOnly list
    | .count list values =>
      (fun v => .expression (.var v)) <$> auxiliary (.aggregate (.count list values))
    | .element list index startIndex =>
      (fun v => .expression (.var v)) <$> auxiliary (.aggregate (.element list index startIndex))

/-- Settles the objective; its links are posted together. -/
def settleObjective : Option Objective → Introducing (Option Objective × List Posting)
  | none => pure (none, [])
  | some objective => do
    let target ← settleObjectiveTarget objective.target
    let links ← linkConstraints
    return (some { objective with target }, gathered links)

/-- Settles the postings and the objective of a model. -/
def settleModel (m : Model) : Introducing (List Posting × Option Objective) := do
  let postings ← m.postings.mapM settlePosting
  let (objective, links) ← settleObjective m.objective
  return (postings.flatten ++ links, objective)

end Introducing

/-- A problem whose expressions all stand where they can be written. -/
structure Introduced where
  /-- The declarations with the auxiliary variables. -/
  store : Store
  postings : List Posting
  objective : Option Objective
  /-- The replaced expressions with the auxiliary variables that stand for them, the
  latest first. -/
  replaced : List (Expr × Variable)

namespace Introduced

/-- The number of auxiliary variables. -/
def auxiliaries (p : Introduced) : Nat := p.replaced.length

/-- The number of constraints, each slide counted as one. -/
def constraintCount (p : Introduced) : Nat :=
  (p.postings.map fun posting => posting.body.constraints.length).foldr (· + ·) 0

/-- Introduces the auxiliary variables that the constraints and the objective of a
model need. -/
def ofModel (m : Model) : Except ModelError Introduced := do
  let ((postings, objective), state) ← (Introducing.settleModel m).run { store := m.store }
  return ⟨state.store, postings, objective, state.replaced⟩

end Introduced
end CspModel
