import CspModel.Proofs.Replacement

/-! # What a step asks for

Which expressions have to be replaced can be read off what is posted: those that cannot
stand in their places (`Relation.replacements`), and then those that cannot stand in the
links (`Needed`).

The steps that settle what is posted are put together from few parts.  They ask for the
variables of expressions, and they stop where a factor cannot be drawn into a coefficient.
`Introducing.Asks` says so of a step, with the expressions it asks for; that these are the
ones that cannot stand in their places is seen once, along the program.  A judgement on
steps then holds of all of them as soon as it holds of the parts.
-/
namespace CspModel

open CspModel.Expr

/-! ### What has to be replaced -/

/-- The entries of a list that are neither variables nor constants. -/
def Expr.beyondLeaves (list : List Expr) : List Expr := list.filter fun e => !e.isLeaf

/-- The entries of a list that are not variables. -/
def Expr.beyondVariables (list : List Expr) : List Expr :=
  list.filter fun e => e.toVariable?.isNone

/-- The operands of an aggregate that cannot stand in a constraint: terms other than scaled
variables, an index other than a variable, and list entries beyond leaves. -/
def Aggregate.replacements : Aggregate Expr → List Expr
  | .sum terms coefficients =>
    ((terms.zip (Aggregate.coefficientsOf terms coefficients)).map Prod.fst).filter fun e =>
      (Introducing.scaledVariable? e).isNone
  | .element list index _ => beyondLeaves list ++ beyondVariables [index]
  | f => beyondLeaves f.list

def ChannelTarget.replacements : ChannelTarget → List Expr
  | .value e => beyondVariables [e]
  | _ => []

/-- The expressions of a relation that cannot stand in their places. -/
def Relation.replacements : Relation → List Expr
  | .intension predicate => predicate.outermost
  | .extension list _ => beyondVariables list
  | .allDifferent list _ => beyondLeaves list
  | .allEqual list => beyondLeaves list
  | .ordered list _ => beyondLeaves list
  | .conditional function condition =>
    function.replacements ++ beyondLeaves condition.expressions
  | .circuit list _ => beyondVariables list
  | .noOverlap origins lengths _ => beyondVariables origins ++ beyondLeaves lengths
  | .cumulative origins lengths heights condition =>
    beyondVariables origins ++ beyondLeaves lengths ++ beyondLeaves heights ++
      beyondLeaves condition.expressions
  | .instantiation _ _ => []
  | .lex lists _ => lists.flatMap beyondLeaves
  | .channel _ _ target => target.replacements
  | .cardinality list values occurs _ =>
    beyondVariables list ++ beyondLeaves values ++
      beyondLeaves (occurs.filterMap Relation.occurrenceExpr?)
  | .regular list _ => beyondVariables list
  | .mdd list _ => beyondVariables list
  | .precedence list _ _ => beyondVariables list
  | .clause _ => []

/-- The expressions of a target that cannot stand in it, which may be the whole target. -/
def Target.replacements : Target → List Expr
  | .expression e => e.outermost
  | .aggregate (.sum terms coefficients) => (Aggregate.sum terms coefficients).replacements
  | .aggregate (.count list values) => [.aggregate (.count list values)]
  | .aggregate (.element list index startIndex) => [.aggregate (.element list index startIndex)]
  | .aggregate f => beyondVariables f.list

def Constraint.replacements (c : Constraint) : List Expr :=
  c.relations.flatMap Relation.replacements

def Posting.replacements (p : Posting) : List Expr :=
  p.body.constraints.flatMap Constraint.replacements

def Objective.replacements (o : Objective) : List Expr := o.target.replacements

/-- The expressions of a model that cannot stand in their places. -/
def Model.replacements (m : Model) : List Expr :=
  m.postings.flatMap Posting.replacements ++ m.objective.toList.flatMap Objective.replacements

/-- What the link of an expression cannot hold of it. -/
def Expr.nested : Expr → List Expr
  | .aggregate f => f.replacements
  | e => e.outermost

/-- What has to be replaced when some expressions have to: they themselves, and whatever the
link of such an expression cannot hold. -/
inductive Needed (roots : List Expr) : Expr → Prop
  | root {e : Expr} : e ∈ roots → Needed roots e
  | nested {e e' : Expr} : Needed roots e → e' ∈ e.nested → Needed roots e'

namespace Needed

variable {roots roots' : List Expr} {e : Expr}

theorem trans (h : Needed roots' e) (hroots : ∀ e ∈ roots', Needed roots e) : Needed roots e := by
  induction h with
  | root he => exact hroots _ he
  | nested _ he ih => exact ih.nested he

theorem mono (h : Needed roots e) (hsub : roots ⊆ roots') : Needed roots' e :=
  h.trans fun _ he => .root (hsub he)

/-- What the links of needed expressions need is needed itself. -/
theorem of_nested {new : List (Expr × Variable)} (hnew : ∀ q ∈ new, Needed roots q.1)
    (h : Needed (new.flatMap fun q => q.1.nested) e) : Needed roots e :=
  h.trans fun _ he' =>
    have ⟨q, hq, he'⟩ := List.mem_flatMap.mp he'
    .nested (hnew q hq) he'

/-- What contains some expressions and whatever their links cannot hold contains all that
they need. -/
theorem mem_of_closed {list : List Expr} (h : Needed roots e) (hroots : roots ⊆ list)
    (hclosed : ∀ e ∈ list, e.nested ⊆ list) : e ∈ list := by
  induction h with
  | root he => exact hroots he
  | nested _ he ih => exact hclosed _ ih he

end Needed

theorem Aggregate.replacements_subset_operands (f : Aggregate Expr) :
    f.replacements ⊆ f.operands := by
  intro e he
  cases f with
  | sum terms coefficients =>
    obtain ⟨t, ht, rfl⟩ := List.mem_map.mp (List.mem_of_mem_filter he)
    exact (List.of_mem_zip ht).1
  | element list index startIndex =>
    rcases List.mem_append.mp he with he | he
    · exact List.mem_append_left _ (List.mem_of_mem_filter he)
    · exact List.mem_append_right _ (List.mem_of_mem_filter he)
  | _ => exact List.mem_of_mem_filter he

theorem Expr.nested_subset_inner (e : Expr) : e.nested ⊆ e.inner := by
  cases e with
  | aggregate f => exact f.replacements_subset_operands
  | _ => exact List.Subset.refl _

/-- In a link only what is nested in its expression cannot stand. -/
theorem Introducing.replacements_link (v : Variable) (e : Expr) :
    (Introducing.link v e).replacements = e.nested := by
  have hequality : (Relation.intension (apply .eq [var v, e])).replacements = e.outermost := by
    simp [Relation.replacements, outermost, outermostIn]
  cases e with
  | aggregate f => exact List.append_nil _
  | _ => exact hequality

/-! ### Steps that ask for variables -/

namespace Introducing

/-- The step asks for the variables of some expressions and for no other ones, and it stops
only where a factor is too great to be drawn into a coefficient. -/
inductive Asks : {α : Type} → List Expr → Introducing α → Prop
  | pure {α : Type} (a : α) : Asks [] (pure a)
  | auxiliary (e : Expr) : Asks [e] (auxiliary e)
  | bind {α β : Type} {es es' : List Expr} {x : Introducing α} {f : α → Introducing β} :
      Asks es x → (∀ a, Asks es' (f a)) → Asks (es ++ es') (x >>= f)
  | overflow {α : Type} {coefficient factor : Int} :
      Bounded.checked (coefficient * factor) = none →
      Asks [] (throw (.coefficientOverflow coefficient factor) : Introducing α)
  /-- Neither the order of the expressions matters nor how often they occur. -/
  | congr {α : Type} {es es' : List Expr} {x : Introducing α} :
      Asks es x → (∀ e, e ∈ es' ↔ e ∈ es) → Asks es' x

namespace Asks

variable {α β : Type} {es : List Expr}

/-- What is made of a result asks for nothing. -/
theorem bind_pure {x : Introducing α} (hx : Asks es x) (f : α → β) :
    Asks es (x >>= fun a => Pure.pure (f a)) :=
  (hx.bind fun a => pure (f a)).congr fun e => by simp

theorem map {x : Introducing α} (hx : Asks es x) (f : α → β) : Asks es (f <$> x) := by
  rw [map_eq_pure_bind]
  exact hx.bind_pure f

/-- A step for every entry of a list. -/
theorem mapM {es : α → List Expr} {f : α → Introducing β} {list : List α}
    (h : ∀ a ∈ list, Asks (es a) (f a)) : Asks (list.flatMap es) (list.mapM f) := by
  induction list with
  | nil => exact pure []
  | cons a rest ih =>
    rw [List.mapM_cons, List.flatMap_cons]
    have hrest := ih fun a ha => h a (List.mem_cons_of_mem _ ha)
    exact (h a List.mem_cons_self).bind fun b => hrest.bind_pure (b :: ·)

end Asks

theorem asks_leaf (e : Expr) : Asks (beyondLeaves [e]) (leaf e) := by
  unfold leaf
  split
  · rename_i hleaf
    exact (Asks.pure e).congr fun p => by simp [beyondLeaves, hleaf]
  · rename_i hleaf
    exact ((Asks.auxiliary e).map _).congr fun p => by simp [beyondLeaves, hleaf]

theorem asks_variableOnly (e : Expr) : Asks (beyondVariables [e]) (variableOnly e) := by
  unfold variableOnly
  split
  · rename_i hvariable
    exact (Asks.pure e).congr fun p => by
      simp [beyondVariables, Option.isNone_eq_false_iff.mpr hvariable]
  · rename_i hvariable
    exact ((Asks.auxiliary e).map _).congr fun p => by
      simp [beyondVariables, Option.not_isSome_iff_eq_none.mp hvariable]

theorem asks_leaves (list : List Expr) : Asks (beyondLeaves list) (leaves list) :=
  (Asks.mapM fun e _ => asks_leaf e).congr fun p => by simp [beyondLeaves]

theorem asks_variablesOnly (list : List Expr) :
    Asks (beyondVariables list) (variablesOnly list) :=
  (Asks.mapM fun e _ => asks_variableOnly e).congr fun p => by simp [beyondVariables]

theorem asks_lift (e : Expr) : Asks e.outermost (lift e) := by
  induction e using Expr.induction with
  | const n => exact .pure _
  | var v => exact .pure _
  | set members => exact .pure _
  | aggregate f _ =>
    rw [lift]
    exact (Asks.auxiliary _).map _
  | apply op operands ih =>
    rw [lift, liftAll_eq_mapM, outermost_apply]
    exact (Asks.mapM ih).map _

theorem asks_term (e : Expr) (coefficient : Int) :
    Asks ([e].filter fun e => (scaledVariable? e).isNone) (term e coefficient) := by
  have hscaled : Asks ([e].filter fun e => (scaledVariable? e).isNone) (scaledVariable e) := by
    unfold scaledVariable
    split
    · rename_i hsome
      exact (Asks.pure _).congr fun p => by simp [hsome]
    · rename_i hnone
      exact ((Asks.auxiliary e).map _).congr fun p => by simp [hnone]
  unfold term
  refine (@Asks.bind _ _ _ [] _ _ hscaled fun scaled => ?_).congr fun p => by simp
  dsimp only
  split
  · exact .pure _
  · rename_i hoverflow
    exact .overflow hoverflow

theorem asks_settleAggregate (f : Aggregate Expr) :
    Asks f.replacements (settleAggregate f) := by
  cases f with
  | sum terms coefficients =>
    rw [settleAggregate]
    have hterms : Asks _ ((terms.zip (Aggregate.coefficientsOf terms coefficients)).mapM
      fun t => term t.1 t.2) := .mapM fun t _ => asks_term t.1 t.2
    exact (hterms.bind_pure _).congr fun p => by simp [Aggregate.replacements]
  | count list | nValues list | minimum list | maximum list => exact (asks_leaves list).map _
  | element list index startIndex =>
    rw [settleAggregate]
    exact (asks_leaves list).bind fun list' => (asks_variableOnly index).bind_pure _

theorem asks_settleCondition (c : Condition) :
    Asks (beyondLeaves c.expressions) (settleCondition c) := by
  obtain ⟨comparison, operand⟩ := c
  cases operand with
  | expression e => exact (asks_leaf e).map _
  | range | set => exact .pure _

theorem asks_settleOccurrence (o : Occurrence) :
    Asks (beyondLeaves (Relation.occurrenceExpr? o).toList) (settleOccurrence o) := by
  cases o with
  | exactly e => exact (asks_leaf e).map _
  | between => exact .pure _

theorem asks_settleTarget (t : ChannelTarget) : Asks t.replacements (settleTarget t) := by
  cases t with
  | value e => exact (asks_variableOnly e).map _
  | itself | list => exact .pure _

theorem asks_settleRelation (r : Relation) : Asks r.replacements (settleRelation r) := by
  cases r with
  | intension predicate => exact (asks_lift predicate).map _
  | extension list | circuit list | regular list | mdd list | precedence list =>
    exact (asks_variablesOnly list).map _
  | allDifferent list | allEqual list | ordered list => exact (asks_leaves list).map _
  | conditional function condition =>
    exact (asks_settleAggregate function).bind fun f' =>
      (asks_settleCondition condition).bind_pure _
  | noOverlap origins lengths zeroIgnored =>
    exact (asks_variablesOnly origins).bind fun origins' => (asks_leaves lengths).bind_pure _
  | cumulative origins lengths heights condition =>
    have hall := (asks_variablesOnly origins).bind fun origins' =>
      (asks_leaves lengths).bind fun lengths' => (asks_leaves heights).bind fun heights' =>
        (asks_settleCondition condition).bind_pure
          (Relation.cumulative origins' lengths' heights')
    exact hall.congr fun p => by simp [Relation.replacements]
  | instantiation | clause => exact .pure _
  | lex lists operator =>
    have hlists : Asks _ (lists.mapM leaves) := .mapM fun list _ => asks_leaves list
    exact hlists.map _
  | channel list startIndex target => exact (asks_settleTarget target).map _
  | cardinality list values occurs closed =>
    have hoccurs : Asks _ (occurs.mapM settleOccurrence) :=
      .mapM fun o _ => asks_settleOccurrence o
    have hall := (asks_variablesOnly list).bind fun list' => (asks_leaves values).bind
      fun values' => hoccurs.bind_pure fun occurs' =>
        Relation.cardinality list' values' occurs' closed
    exact hall.congr fun p => by
      simp [Relation.replacements, beyondLeaves, ← exists_and_right, and_assoc]

theorem asks_settle (c : Constraint) : Asks c.replacements (settle c) := by
  induction c using Constraint.rec
    (motive_2 := fun list => Asks ((Constraint.relationsOf list).flatMap Relation.replacements)
      (settleAll list)) with
  | relation r =>
    exact ((asks_settleRelation r).map _).congr fun p => by
      simp [Constraint.replacements, Constraint.relations]
  | slide windows ih => exact ih.map _
  | nil => exact .pure _
  | cons c rest ihc ihrest =>
    rw [settleAll, Constraint.relationsOf, List.flatMap_append]
    exact ihc.bind fun c' => ihrest.bind_pure _

theorem asks_settleObjectiveTarget (t : Target) :
    Asks t.replacements (settleObjectiveTarget t) := by
  cases t with
  | expression e => exact (asks_lift e).map _
  | aggregate f =>
    cases f with
    | sum terms coefficients => exact (asks_settleAggregate (.sum terms coefficients)).map _
    | nValues list | minimum list | maximum list => exact (asks_variablesOnly list).map _
    | count list values | element list index startIndex => exact (Asks.auxiliary _).map _

end Introducing
end CspModel
