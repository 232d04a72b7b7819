import CspModel.Proofs.Preservation

/-! # What stands where

A written relation has places for variables only, places for variables and constants, and
for a predicate a place for an expression without aggregates.  `Placed` says of a relation
that everything stands where it can.  Whatever a model posts, all that is written once its
auxiliary variables are introduced is placed, over the variables of the extended store
(`Introduced.placed`).

`Steps` is the judgement behind it.  It follows the steps of the introduction like
`Replaces`, but says nothing about values: a step only has to know the variables that were
introduced, and what the links are that are still pending.  For what is placed, these are
links over known variables (`Places`).
-/
namespace CspModel

open CspModel.Expr

section
variable (known : Variable → Prop)

/-! ### Places -/

namespace Expr

/-- Whether the expression is stated over known variables. -/
def Over (e : Expr) : Prop := ∀ v ∈ e.occurrences, known v

/-- Whether the expression is a known variable. -/
def VariableOver : Expr → Prop
  | var v => known v
  | _ => False

/-- Whether the expression is a known variable or a constant. -/
def LeafOver : Expr → Prop
  | var v => known v
  | const _ => True
  | _ => False

/-- Whether a node can be written within a predicate: aggregates cannot. -/
def Writable : Expr → Prop
  | var v => known v
  | aggregate _ => False
  | _ => True

/-- Whether all nodes of the expression can be written. -/
def Lifted (e : Expr) : Prop := ∀ p ∈ e.parts, p.Writable known

end Expr

/-- Whether the operands of an aggregate stand where they can in a constraint. -/
def Aggregate.Placed : Aggregate Expr → Prop
  | .sum terms _ => ∀ e ∈ terms, e.VariableOver known
  | .element list index _ => (∀ e ∈ list, e.LeafOver known) ∧ index.VariableOver known
  | f => ∀ e ∈ f.list, e.LeafOver known

def Condition.Placed (c : Condition) : Prop := ∀ e ∈ c.expressions, e.LeafOver known

def Occurrence.Placed : Occurrence → Prop
  | .exactly e => e.LeafOver known
  | .between _ _ => True

def ChannelTarget.Placed : ChannelTarget → Prop
  | .itself => True
  | .list other _ => ∀ v ∈ other, known v
  | .value e => e.VariableOver known

/-- Whether everything in a relation stands where it can. -/
def Relation.Placed : Relation → Prop
  | .intension predicate => predicate.Lifted known
  | .extension list _ => ∀ e ∈ list, e.VariableOver known
  | .allDifferent list _ => ∀ e ∈ list, e.LeafOver known
  | .allEqual list => ∀ e ∈ list, e.LeafOver known
  | .ordered list _ => ∀ e ∈ list, e.LeafOver known
  | .conditional function condition => function.Placed known ∧ condition.Placed known
  | .circuit list _ => ∀ e ∈ list, e.VariableOver known
  | .noOverlap origins lengths _ =>
    (∀ e ∈ origins, e.VariableOver known) ∧ ∀ e ∈ lengths, e.LeafOver known
  | .cumulative origins lengths heights condition =>
    (∀ e ∈ origins, e.VariableOver known) ∧ (∀ e ∈ lengths, e.LeafOver known) ∧
      (∀ e ∈ heights, e.LeafOver known) ∧ condition.Placed known
  | .instantiation list _ => ∀ v ∈ list, known v
  | .lex lists _ => ∀ list ∈ lists, ∀ e ∈ list, e.LeafOver known
  | .channel list _ target => (∀ v ∈ list, known v) ∧ target.Placed known
  | .cardinality list values occurs _ =>
    (∀ e ∈ list, e.VariableOver known) ∧ (∀ e ∈ values, e.LeafOver known) ∧
      ∀ o ∈ occurs, o.Placed known
  | .regular list _ => ∀ e ∈ list, e.VariableOver known
  | .mdd list _ => ∀ e ∈ list, e.VariableOver known
  | .precedence list _ _ => ∀ e ∈ list, e.VariableOver known
  | .clause literals => ∀ literal ∈ literals, known literal.v

/-- Whether a value to optimise can be written: a predicate without aggregates, or one of
the aggregates with a type of their own over some variables. -/
def Target.Placed : Target → Prop
  | .expression e => e.Lifted known
  | .aggregate (.count _ _) => False
  | .aggregate (.element _ _ _) => False
  | .aggregate f => f.list ≠ [] ∧ ∀ e ∈ f.list, e.VariableOver known

/-- Whether a relation is stated over known variables. -/
def Relation.Over (r : Relation) : Prop := ∀ e ∈ r.expressions, e.Over known

/-- Whether what a model posts and optimises is stated over known variables. -/
def Model.Over (m : Model) : Prop :=
  (∀ p ∈ m.postings, ∀ c ∈ p.body.constraints, ∀ r ∈ c.relations, r.Over known) ∧
    ∀ o, m.objective = some o → o.target.toExpr.WellFormed known

/-- Whether all relations of a constraint are placed. -/
def Constraint.Placed (c : Constraint) : Prop := ∀ r ∈ c.relations, r.Placed known

/-- Whether all constraints of a posting are placed. -/
def Posting.Placed (p : Posting) : Prop := ∀ c ∈ p.body.constraints, c.Placed known

end

variable {known : Variable → Prop}

namespace Expr

theorem WellFormed.over {e : Expr} (h : e.WellFormed known) : e.Over known := fun _ hv => h.knows hv

theorem over_apply {op : Operator} {operands : List Expr} :
    (apply op operands).Over known ↔ ∀ e ∈ operands, e.Over known := by
  simp only [Over, occurrences, occurrencesIn_eq_flatMap, List.mem_flatMap]
  constructor
  · exact fun h e he v hv => h v ⟨e, he, hv⟩
  · rintro h v ⟨e, he, hv⟩
    exact h e he v hv

theorem over_aggregate {f : Aggregate Expr} :
    (aggregate f).Over known ↔ ∀ e ∈ f.operands, e.Over known := by
  simp only [Over, occurrences, occurrencesOf_eq_flatMap, List.mem_flatMap]
  constructor
  · exact fun h e he v hv => h v ⟨e, he, hv⟩
  · rintro h v ⟨e, he, hv⟩
    exact h e he v hv

theorem lifted_apply {op : Operator} {operands : List Expr} :
    (apply op operands).Lifted known ↔ ∀ e ∈ operands, e.Lifted known := by
  simp only [Lifted, parts_apply, List.forall_mem_cons, Writable, true_and, List.mem_flatMap]
  exact ⟨fun h e he p hp => h p ⟨e, he, hp⟩, fun h p ⟨e, he, hp⟩ => h e he p hp⟩

theorem lifted_applied {op : Operator} {operands : List Expr}
    (h : ∀ e ∈ operands, e.Lifted known) : (applied op operands).Lifted known := by
  unfold applied
  split
  · refine lifted_apply.mpr fun p hp => ?_
    obtain ⟨e, he, hp⟩ := List.mem_flatMap.mp hp
    rcases mem_spliced hp with rfl | ⟨inner, rfl, hinner⟩
    · exact h p he
    · exact lifted_apply.mp (h _ he) p hinner
  · exact lifted_apply.mpr h

theorem VariableOver.exists_eq {e : Expr} (h : e.VariableOver known) :
    ∃ v, e = var v ∧ known v := by
  cases e with
  | var v => exact ⟨v, rfl, h⟩
  | _ => exact h.elim

/-- Known variables are the entries of a list of variables. -/
theorem exists_variables {list : List Expr} (h : ∀ e ∈ list, e.VariableOver known) :
    ∃ vs : List Variable, list = vs.map var ∧ ∀ v ∈ vs, known v := by
  induction list with
  | nil => exact ⟨[], rfl, fun v hv => nomatch hv⟩
  | cons e rest ih =>
    obtain ⟨vs, rfl, hvs⟩ := ih fun e he => h e (List.mem_cons_of_mem _ he)
    obtain ⟨v, rfl, hv⟩ := (h e List.mem_cons_self).exists_eq
    exact ⟨v :: vs, rfl, List.forall_mem_cons.mpr ⟨hv, hvs⟩⟩

end Expr

theorem Relation.WellFormed.over {r : Relation} (h : r.WellFormed known) : r.Over known :=
  fun e he => (h.1 e he).over

/-! ### What is placed is stated over known variables -/

namespace Expr

theorem VariableOver.over {e : Expr} (h : e.VariableOver known) : e.Over known := by
  obtain ⟨v, rfl, hv⟩ := h.exists_eq
  intro w hw
  rwa [List.mem_singleton.mp hw]

theorem LeafOver.over {e : Expr} (h : e.LeafOver known) : e.Over known := by
  cases e with
  | var v => exact VariableOver.over h
  | const n => exact fun v hv => nomatch hv
  | _ => exact h.elim

theorem Lifted.over {e : Expr} (h : e.Lifted known) : e.Over known := fun v hv =>
  h (var v) (mem_occurrences_iff.mp hv)

end Expr

theorem Aggregate.Placed.over {f : Aggregate Expr} (h : f.Placed known) :
    ∀ e ∈ f.operands, e.Over known := by
  cases f with
  | sum terms => exact fun e he => (h e he).over
  | count | nValues | minimum | maximum => exact fun e he => (h e he).over
  | element list index =>
    intro e he
    rcases List.mem_append.mp he with he | he
    · exact (h.1 e he).over
    · rw [List.mem_singleton.mp he]
      exact h.2.over

/-- A placed relation is stated over known variables. -/
theorem Relation.Placed.over {r : Relation} (h : r.Placed known) : r.Over known := by
  have hvariables : ∀ {list : List Variable}, (∀ v ∈ list, known v) →
      ∀ e ∈ list.map Expr.var, e.Over known := fun h e he => by
    obtain ⟨v, hv, rfl⟩ := List.mem_map.mp he
    exact VariableOver.over (h v hv)
  intro e he
  cases r with
  | intension predicate =>
    rw [List.mem_singleton.mp he]
    exact Lifted.over h
  | extension list | circuit list | regular list | mdd list | precedence list =>
    exact (h e he).over
  | allDifferent list | allEqual list | ordered list => exact (h e he).over
  | conditional function condition =>
    rcases List.mem_append.mp he with he | he
    · exact h.1.over e he
    · exact (h.2 e he).over
  | noOverlap origins lengths =>
    rcases List.mem_append.mp he with he | he
    · exact (h.1 e he).over
    · exact (h.2 e he).over
  | cumulative origins lengths heights condition =>
    obtain ⟨horigins, hlengths, hheights, hcondition⟩ := h
    rcases List.mem_append.mp he with he | he
    · rcases List.mem_append.mp he with he | he
      · rcases List.mem_append.mp he with he | he
        · exact (horigins e he).over
        · exact (hlengths e he).over
      · exact (hheights e he).over
    · exact (hcondition e he).over
  | instantiation list => exact hvariables h e he
  | lex lists =>
    obtain ⟨list, hlist, he⟩ := List.mem_flatten.mp he
    exact (h list hlist e he).over
  | channel list startIndex target =>
    rcases List.mem_append.mp he with he | he
    · exact hvariables h.1 e he
    · cases target with
      | itself => cases he
      | list other => exact hvariables h.2 e he
      | value e' =>
        rw [List.mem_singleton.mp he]
        exact VariableOver.over h.2
  | cardinality list values occurs =>
    obtain ⟨hlist, hvalues, hoccurs⟩ := h
    rcases List.mem_append.mp he with he | he
    · rcases List.mem_append.mp he with he | he
      · exact (hlist e he).over
      · exact (hvalues e he).over
    · obtain ⟨o, ho, he⟩ := List.mem_filterMap.mp he
      cases o with
      | exactly e' =>
        cases he
        exact LeafOver.over (hoccurs _ ho)
      | between => cases he
  | clause literals =>
    obtain ⟨literal, hliteral, rfl⟩ := List.mem_map.mp he
    exact VariableOver.over (h literal hliteral)

/-! ### Steps that place what they return -/

/-- The variables introduced so far are known. -/
def Introduction.Knows (known : Variable → Prop) (state : Introduction) : Prop :=
  ∀ p ∈ state.replaced, known p.2

/-- The step forgets no variable, and if the variables it knows in the end are known, then
from what satisfies the precondition it makes what satisfies the condition, with pending
links of a sort only. -/
structure Steps {α : Type} (sort : Relation → Prop) (known : Variable → Prop) (P : Prop)
    (x : Introducing α) (Q : α → Prop) : Prop where
  subset : ∀ {state a state'}, x state = .ok (a, state') → state.replaced ⊆ state'.replaced
  result : ∀ {state a state'}, x state = .ok (a, state') → state'.Knows known →
    (∀ r ∈ state.pending, sort r) → P → (∀ r ∈ state'.pending, sort r) ∧ Q a

/-- The step makes what satisfies the condition, with links over known variables only. -/
abbrev Places {α : Type} (known : Variable → Prop) (P : Prop) (x : Introducing α)
    (Q : α → Prop) : Prop := Steps (Relation.Over known) known P x Q

namespace Steps

variable {α β : Type} {sort : Relation → Prop} {P S : Prop} {Q : α → Prop} {R : β → Prop}

theorem pure {a : α} (h : P → Q a) : Steps sort known P (pure a) Q where
  subset hrun := by
    cases hrun
    exact List.Subset.refl _
  result hrun _ hover hP := by
    cases hrun
    exact ⟨hover, h hP⟩

theorem bind {x : Introducing α} {f : α → Introducing β} (hx : Steps sort known P x Q)
    (hf : ∀ a, Steps sort known (P ∧ Q a) (f a) R) : Steps sort known P (x >>= f) R where
  subset hrun := by
    obtain ⟨a, state', ha, hb⟩ := Introducing.bind_eq_ok.mp hrun
    exact List.Subset.trans (hx.subset ha) ((hf a).subset hb)
  result hrun hknows hover hP := by
    obtain ⟨a, state', ha, hb⟩ := Introducing.bind_eq_ok.mp hrun
    have hknows' : state'.Knows known := fun p hp => hknows p ((hf a).subset hb hp)
    obtain ⟨hover', hQ⟩ := hx.result ha hknows' hover hP
    exact (hf a).result hb hknows hover' ⟨hP, hQ⟩

theorem imp {Q' : α → Prop} {x : Introducing α} (hx : Steps sort known P x Q) (hP : S → P)
    (h : ∀ a, S → Q a → Q' a) : Steps sort known S x Q' where
  subset := hx.subset
  result hrun hknows hover hS := (hx.result hrun hknows hover (hP hS)).imp_right (h _ hS)

/-- A step can be taken under a stronger precondition. -/
theorem under {x : Introducing α} (hx : Steps sort known P x Q) (hP : S → P) :
    Steps sort known S x Q :=
  hx.imp hP fun _ _ h => h

theorem map {x : Introducing α} {f : α → β} (hx : Steps sort known P x Q)
    (h : ∀ a, P → Q a → R (f a)) : Steps sort known P (f <$> x) R := by
  rw [map_eq_pure_bind]
  exact hx.bind fun a => .pure fun hPQ => h a hPQ.1 hPQ.2

theorem throw {cause : ModelError} : Steps sort known P (throw cause : Introducing α) Q :=
  ⟨fun hrun => (nomatch hrun), fun hrun => (nomatch hrun)⟩

/-- A step for every entry of a list, with what it makes of the entry. -/
theorem forall₂_mapM {f : α → Introducing β} {R : α → β → Prop} {list : List α}
    (h : ∀ a ∈ list, Steps sort known P (f a) (R a)) :
    Steps sort known P (list.mapM f) fun bs => List.Forall₂ R list bs := by
  induction list with
  | nil =>
    rw [List.mapM_nil]
    exact .pure fun _ => .nil
  | cons a rest ih =>
    rw [List.mapM_cons]
    refine (h a List.mem_cons_self).bind fun b => ?_
    have hrest := ih fun a ha => h a (List.mem_cons_of_mem _ ha)
    refine (hrest.imp (S := P ∧ R a b) And.left fun _ _ hbs => hbs).bind fun bs => .pure ?_
    rintro ⟨⟨_, hb⟩, hbs⟩
    exact .cons hb hbs

/-- A step for every entry of a list. -/
theorem mapM {f : α → Introducing β} {R : β → Prop} {list : List α}
    (h : ∀ a ∈ list, Steps sort known P (f a) R) :
    Steps sort known P (list.mapM f) fun bs => (∀ b ∈ bs, R b) ∧ bs.length = list.length :=
  (forall₂_mapM h).imp id fun bs _ hbs => by
    refine ⟨fun b hb => ?_, hbs.length_eq.symm⟩
    obtain ⟨_, _, hR⟩ := exists_of_forall₂_of_mem hbs hb
    exact hR

end Steps

namespace Introducing

theorem over_link {v : Variable} {e : Expr} (hv : known v) (he : e.Over known) :
    (link v e).Over known := by
  have hvariable : (var v).Over known := fun w hw => by rwa [List.mem_singleton.mp hw]
  have hequality : (apply .eq [var v, e]).Over known := by
    refine over_apply.mpr fun e' he' => ?_
    rcases List.mem_pair.mp he' with rfl | rfl
    · exact hvariable
    · exact he
  cases e with
  | aggregate f =>
    intro e' he'
    rcases List.mem_append.mp he' with he' | he'
    · exact over_aggregate.mp he e' he'
    · rwa [List.mem_singleton.mp he']
  | _ =>
    intro e' he'
    rwa [List.mem_singleton.mp he']

theorem places_auxiliary (e : Expr) : Places known (e.Over known) (auxiliary e) known where
  subset hrun := by
    rcases auxiliary_eq_ok hrun with ⟨rfl, _⟩ | ⟨d, _, _, rfl⟩
    · exact List.Subset.refl _
    · exact List.subset_cons_self _ _
  result {state v state'} hrun hknows hover he := by
    rcases auxiliary_eq_ok hrun with ⟨rfl, hmem⟩ | ⟨d, _, _, rfl⟩
    · exact ⟨hover, hknows _ hmem⟩
    · have hv : known v := hknows _ List.mem_cons_self
      refine ⟨fun r hr => ?_, hv⟩
      rcases List.mem_append.mp hr with hr | hr
      · exact hover r hr
      · rw [List.mem_singleton.mp hr]
        exact over_link hv he

theorem places_leaf (e : Expr) : Places known (e.Over known) (leaf e) (·.LeafOver known) := by
  unfold leaf
  split
  · rename_i hleaf
    refine .pure fun he => ?_
    cases e with
    | const n => trivial
    | var v => exact he v (List.mem_singleton_self v)
    | _ => cases hleaf
  · exact (places_auxiliary e).map fun v _ hv => hv

theorem places_variableOnly (e : Expr) :
    Places known (e.Over known) (variableOnly e) (·.VariableOver known) := by
  unfold variableOnly
  split
  · rename_i hvariable
    refine .pure fun he => ?_
    cases e with
    | var v => exact he v (List.mem_singleton_self v)
    | _ => cases hvariable
  · exact (places_auxiliary e).map fun v _ hv => hv

theorem places_leaves (list : List Expr) : Places known (∀ e ∈ list, e.Over known) (leaves list)
    fun list' => (∀ e ∈ list', e.LeafOver known) ∧ list'.length = list.length :=
  .mapM fun e he => (places_leaf e).under fun h => h e he

theorem places_variablesOnly (list : List Expr) :
    Places known (∀ e ∈ list, e.Over known) (variablesOnly list)
      fun list' => (∀ e ∈ list', e.VariableOver known) ∧ list'.length = list.length :=
  .mapM fun e he => (places_variableOnly e).under fun h => h e he

/-! ### Expressions and aggregates -/

theorem places_lift (e : Expr) : Places known (e.Over known) (lift e) (·.Lifted known) := by
  have hleaf : ∀ {e : Expr}, e.parts = [e] → (e.Over known → e.Writable known) →
      Places known (e.Over known) (Pure.pure e) (·.Lifted known) := fun hparts h =>
    .pure fun he p hp => by
      rw [hparts] at hp
      rw [List.mem_singleton.mp hp]
      exact h he
  induction e using Expr.induction with
  | const n => exact hleaf rfl fun _ => trivial
  | var v => exact hleaf rfl fun he => he v (List.mem_singleton_self v)
  | set members => exact hleaf rfl fun _ => trivial
  | aggregate f _ =>
    rw [lift]
    refine (places_auxiliary _).map fun v _ hv p hp => ?_
    rw [List.mem_singleton.mp hp]
    exact hv
  | apply op operands ih =>
    rw [lift, liftAll_eq_mapM]
    have hall : Places known ((apply op operands).Over known) (operands.mapM lift)
        fun operands' => (∀ e ∈ operands', e.Lifted known) ∧ operands'.length = operands.length :=
      .mapM fun e he => (ih e he).under fun h => over_apply.mp h e he
    exact hall.map fun operands' _ h => lifted_applied h.1

theorem mem_occurrences_of_scaledVariable? {e : Expr} {scaled : Variable × Int}
    (h : scaledVariable? e = some scaled) : scaled.1 ∈ e.occurrences := by
  unfold scaledVariable? at h
  split at h
  · cases h
    exact List.mem_singleton_self _
  · cases h
    exact List.mem_cons_self
  · cases h
    exact List.mem_cons_self
  · cases h

theorem places_scaledVariable (e : Expr) :
    Places known (e.Over known) (scaledVariable e) fun scaled => known scaled.1 := by
  unfold scaledVariable
  split
  · rename_i scaled hscaled
    exact .pure fun he => he _ (mem_occurrences_of_scaledVariable? hscaled)
  · exact (places_auxiliary e).map fun v _ hv => hv

theorem places_term (e : Expr) (coefficient : Int) :
    Places known (e.Over known) (term e coefficient) fun t => t.1.VariableOver known := by
  unfold term
  refine (places_scaledVariable e).bind fun scaled => ?_
  dsimp only
  split
  · exact .pure fun h => h.2
  · exact .throw

/-- Settling a sum leaves variables with coefficients. -/
theorem places_settleSum (terms : List Expr) (coefficients : Option (List Int)) :
    Places known (∀ e ∈ terms, e.Over known) (settleAggregate (.sum terms coefficients))
      fun f => ∃ terms' coefficients', f = .sum terms' coefficients' ∧
        (∀ e ∈ terms', e.VariableOver known) ∧
        terms'.length = (terms.zip (Aggregate.coefficientsOf terms coefficients)).length := by
  rw [settleAggregate]
  have hterms : Places known (∀ e ∈ terms, e.Over known)
      ((terms.zip (Aggregate.coefficientsOf terms coefficients)).mapM
        fun t => term t.1 t.2) _ :=
    .mapM fun t ht => (places_term t.1 t.2).under fun h => h t.1 (List.of_mem_zip ht).1
  refine hterms.bind fun weighted => .pure fun h =>
    ⟨_, _, rfl, fun e he => ?_, by rw [List.length_map, h.2.2]⟩
  obtain ⟨t, ht, rfl⟩ := List.mem_map.mp he
  exact h.2.1 t ht

theorem places_settleAggregate (f : Aggregate Expr) :
    Places known (∀ e ∈ f.operands, e.Over known) (settleAggregate f) (·.Placed known) := by
  cases f with
  | sum terms coefficients =>
    refine (places_settleSum terms coefficients).imp id fun f _ hf => ?_
    obtain ⟨terms', _, rfl, hterms', _⟩ := hf
    exact hterms'
  | count list | nValues list | minimum list | maximum list =>
    exact (places_leaves list).map fun list' _ h => h.1
  | element list index startIndex =>
    rw [settleAggregate]
    refine ((places_leaves list).under fun h e he => h e (List.mem_append_left _ he)).bind
      fun list' => ?_
    refine ((places_variableOnly index).under fun h => ?_).bind fun index' =>
      .pure fun h => ⟨h.1.2.1, h.2⟩
    exact h.1 index (List.mem_append_right _ (List.mem_singleton_self index))

/-! ### Relations -/

theorem places_settleCondition (c : Condition) :
    Places known (∀ e ∈ c.expressions, e.Over known) (settleCondition c) (·.Placed known) := by
  obtain ⟨comparison, operand⟩ := c
  cases operand with
  | expression e =>
    refine ((places_leaf e).under fun h => h e List.mem_cons_self).map
      fun e' _ he' => ?_
    exact List.forall_mem_singleton.mpr he'
  | range | set => exact .pure fun _ e he => nomatch he

theorem places_settleOccurrence (o : Occurrence) :
    Places known (∀ e, o = .exactly e → e.Over known) (settleOccurrence o) (·.Placed known) := by
  cases o with
  | exactly e => exact ((places_leaf e).under fun h => h e rfl).map fun e' _ he' => he'
  | between => exact .pure fun _ => trivial

theorem places_settleTarget (t : ChannelTarget) :
    Places known (∀ e ∈ Relation.targetExpressions t, e.Over known) (settleTarget t)
      (·.Placed known) := by
  cases t with
  | value e =>
    exact ((places_variableOnly e).under fun h => h e List.mem_cons_self).map
      fun e' _ he' => he'
  | itself => exact .pure fun _ => trivial
  | list other startIndex =>
    exact .pure fun h v hv => h _ (List.mem_map_of_mem hv) v (List.mem_singleton_self v)

theorem places_settleRelation (r : Relation) :
    Places known (r.Over known) (settleRelation r) (·.Placed known) := by
  -- each argument is settled from a part of what the relation is stated over
  have hvariables : ∀ {P : Prop} {list : List Expr}, (P → ∀ e ∈ list, e.Over known) →
      Places known P (variablesOnly list) fun list' => ∀ e ∈ list', e.VariableOver known :=
    fun hP => (places_variablesOnly _).imp hP fun _ _ h => h.1
  have hleaves : ∀ {P : Prop} {list : List Expr}, (P → ∀ e ∈ list, e.Over known) →
      Places known P (leaves list) fun list' => ∀ e ∈ list', e.LeafOver known :=
    fun hP => (places_leaves _).imp hP fun _ _ h => h.1
  have hcondition : ∀ {P : Prop} {c : Condition}, (P → ∀ e ∈ c.expressions, e.Over known) →
      Places known P (settleCondition c) (·.Placed known) :=
    fun hP => (places_settleCondition _).under hP
  have hmem : ∀ {list : List Variable} {r : Relation}, r.Over known →
      list.map var ⊆ r.expressions → ∀ v ∈ list, known v := fun h hsub v hv =>
    h _ (hsub (List.mem_map_of_mem hv)) v (List.mem_singleton_self v)
  cases r with
  | intension predicate =>
    exact ((places_lift predicate).under fun h => h predicate List.mem_cons_self).map
      fun e _ he => he
  | extension list | circuit list | regular list | mdd list | precedence list =>
    exact (hvariables id).map fun list' _ h => h
  | allDifferent list | allEqual list | ordered list =>
    exact (hleaves id).map fun list' _ h => h
  | conditional function condition =>
    have hfunction : Places known ((Relation.conditional function condition).Over known)
        (settleAggregate function) (·.Placed known) :=
      (places_settleAggregate function).under fun h e he => h e (List.mem_append_left _ he)
    refine hfunction.bind fun f' => ?_
    refine (hcondition fun h e he => h.1 e (List.mem_append_right _ he)).bind fun c' => .pure ?_
    exact fun h => ⟨h.1.2, h.2⟩
  | noOverlap origins lengths zeroIgnored =>
    refine (hvariables fun h e he => h e (List.mem_append_left _ he)).bind fun origins' => ?_
    refine (hleaves fun h e he => h.1 e (List.mem_append_right _ he)).bind fun lengths' => .pure ?_
    exact fun h => ⟨h.1.2, h.2⟩
  | cumulative origins lengths heights condition =>
    refine (hvariables fun h e he => h e (by simp [Relation.expressions, he])).bind
      fun origins' => ?_
    refine (hleaves fun h e he => h.1 e (by simp [Relation.expressions, he])).bind
      fun lengths' => ?_
    refine (hleaves fun h e he => h.1.1 e (by simp [Relation.expressions, he])).bind
      fun heights' => ?_
    refine (hcondition fun h e he => h.1.1.1 e (by simp [Relation.expressions, he])).bind
      fun c' => .pure ?_
    rintro ⟨⟨⟨⟨_, ho⟩, hl⟩, hh⟩, hc⟩
    exact ⟨ho, hl, hh, hc⟩
  | instantiation list values => exact .pure fun h => hmem h (List.Subset.refl _)
  | lex lists operator =>
    have hlists : Places known ((Relation.lex lists operator).Over known) (lists.mapM leaves)
        fun lists' => (∀ list ∈ lists', ∀ e ∈ list, e.LeafOver known) ∧
          lists'.length = lists.length :=
      .mapM fun list hl => hleaves fun h e he => h e (List.mem_flatten.mpr ⟨list, hl, he⟩)
    exact hlists.map fun lists' _ h => h.1
  | channel list startIndex target =>
    refine ((places_settleTarget target).under fun h e he =>
      h e (List.mem_append_right _ he)).map fun t' h ht' => ?_
    exact ⟨hmem h (List.subset_append_left _ _), ht'⟩
  | cardinality list values occurs closed =>
    have hoccurs : Places known ((Relation.cardinality list values occurs closed).Over known)
        (occurs.mapM settleOccurrence) fun occurs' => (∀ o ∈ occurs', o.Placed known) ∧
          occurs'.length = occurs.length := by
      refine .mapM fun o ho => (places_settleOccurrence o).under fun h e he => h e ?_
      refine List.mem_append_right _ (List.mem_filterMap.mpr ⟨o, ho, ?_⟩)
      rw [he]
      rfl
    refine (hvariables fun h e he => h e (by simp [Relation.expressions, he])).bind
      fun list' => ?_
    refine (hleaves fun h e he => h.1 e (by simp [Relation.expressions, he])).bind
      fun values' => ?_
    refine (hoccurs.imp (fun h => h.1.1) fun _ _ h => h.1).bind fun occurs' => .pure ?_
    rintro ⟨⟨⟨_, hl⟩, hv⟩, ho⟩
    exact ⟨hl, hv, ho⟩
  | clause literals =>
    exact .pure fun h literal hliteral =>
      h _ (List.mem_map_of_mem hliteral) literal.v (List.mem_singleton_self _)

/-! ### Constraints, links and postings -/

section
variable {sort good : Relation → Prop}

/-- The pending links are of their sort. -/
theorem steps_takePending :
    Steps sort known True takePending fun pending => ∀ r ∈ pending, sort r where
  subset hrun := by
    cases hrun
    exact List.Subset.refl _
  result hrun _ hpending _ := by
    cases hrun
    exact ⟨fun r hr => (nomatch hr), hpending⟩

theorem forall_gathered {links : List Constraint} (h : ∀ c ∈ links, ∀ r ∈ c.relations, good r) :
    ∀ p ∈ gathered links, ∀ c ∈ p.body.constraints, ∀ r ∈ c.relations, good r := by
  unfold gathered
  split
  · exact fun p hp => nomatch hp
  · refine List.forall_mem_singleton.mpr fun c hc => h c ?_
    rwa [Body.constraints_ofList] at hc

variable (hrelation : ∀ r, Steps sort known (sort r) (settleRelation r) good)
include hrelation

/-- What holds of every relation that is settled holds of those of a constraint. -/
theorem steps_settle (c : Constraint) :
    Steps sort known (∀ r ∈ c.relations, sort r) (settle c)
      fun c' => ∀ r ∈ c'.relations, good r := by
  induction c using Constraint.rec
    (motive_2 := fun list => Steps sort known (∀ r ∈ Constraint.relationsOf list, sort r)
      (settleAll list) fun list' => ∀ r ∈ Constraint.relationsOf list', good r) with
  | relation r =>
    refine ((hrelation r).under fun h => h r List.mem_cons_self).map fun r' _ hr' => ?_
    exact List.forall_mem_singleton.mpr hr'
  | slide windows ih => exact ih.map fun windows' _ h => h
  | nil => exact .pure fun _ r hr => nomatch hr
  | cons c rest ihc ihrest =>
    rw [settleAll]
    refine (ihc.under fun h r hr => h r (List.mem_append_left _ hr)).bind
      fun c' => ?_
    refine (ihrest.under fun h r hr => h.1 r (List.mem_append_right _ hr)).bind
      fun rest' => .pure fun h r hr => ?_
    rcases List.mem_append.mp hr with hr | hr
    · exact h.1.2 r hr
    · exact h.2 r hr

theorem steps_settleWaves (n : Nat) :
    Steps sort known True (settleWaves n) fun done => ∀ r ∈ done, good r := by
  induction n with
  | zero => exact .pure fun _ r hr => nomatch hr
  | succ n ih =>
    rw [settleWaves]
    refine steps_takePending.bind fun pending => ?_
    split
    · exact .pure fun _ r hr => nomatch hr
    · have hhere : Steps sort known (True ∧ ∀ r ∈ pending, sort r)
          (pending.mapM settleRelation) fun here => (∀ r ∈ here, good r) ∧
            here.length = pending.length :=
        .mapM fun r hr => (hrelation r).under fun h => h.2 r hr
      refine hhere.bind fun here => (ih.under fun _ => trivial).bind fun later =>
        .pure fun h r hr => ?_
      rcases List.mem_append.mp hr with hr | hr
      · exact h.1.2.1 r hr
      · exact h.2 r hr

theorem steps_linkConstraints :
    Steps sort known True linkConstraints fun links => ∀ c ∈ links, ∀ r ∈ c.relations, good r := by
  -- how many waves there are depends on the state
  have hlinks : Steps sort known True settleLinks fun done => ∀ r ∈ done, good r :=
    ⟨fun {state _ _} hrun => (steps_settleWaves hrelation (waves state.pending)).subset hrun,
      fun {state _ _} hrun => (steps_settleWaves hrelation (waves state.pending)).result hrun⟩
  refine hlinks.map fun done _ hdone c hc => ?_
  obtain ⟨r, hr, rfl⟩ := List.mem_map.mp hc
  exact List.forall_mem_singleton.mpr (hdone r hr)

theorem steps_settlePosting (p : Posting) :
    Steps sort known (∀ c ∈ p.body.constraints, ∀ r ∈ c.relations, sort r) (settlePosting p)
      fun written => ∀ q ∈ written, ∀ c ∈ q.body.constraints, ∀ r ∈ c.relations, good r := by
  obtain ⟨body, decoration⟩ := p
  have hlinks : ∀ P : Prop, Steps sort known P linkConstraints fun links =>
      ∀ c ∈ links, ∀ r ∈ c.relations, good r := fun P =>
    (steps_linkConstraints hrelation).under fun _ => trivial
  cases body with
  | single c =>
    refine ((steps_settle hrelation c).under fun h => h c List.mem_cons_self).bind
      fun c' => (hlinks _).bind fun links => .pure fun h => ?_
    refine List.forall_mem_cons.mpr ⟨List.forall_mem_singleton.mpr h.1.2, fun q hq => ?_⟩
    obtain ⟨link, hlink, rfl⟩ := List.mem_map.mp hq
    exact List.forall_mem_singleton.mpr (h.2 link hlink)
  | gather constraints =>
    have hall : Steps sort known (∀ c ∈ constraints, ∀ r ∈ c.relations, sort r)
        (settleAll constraints) fun constraints' =>
          (∀ c ∈ constraints', ∀ r ∈ c.relations, good r) ∧
            constraints'.length = constraints.length := by
      rw [settleAll_eq_mapM]
      exact .mapM fun c hc => (steps_settle hrelation c).under fun h => h c hc
    refine hall.bind fun constraints' => (hlinks _).bind fun links => .pure fun h => ?_
    exact List.forall_mem_cons.mpr ⟨h.1.2.1, forall_gathered h.2⟩

variable {given written : Target → Prop}
  (htarget : ∀ t, Steps sort known (given t) (settleObjectiveTarget t) written)
include htarget

theorem steps_settleObjective (objective : Option Objective) :
    Steps sort known (∀ o, objective = some o → given o.target) (settleObjective objective)
      fun settled => (∀ o, settled.1 = some o → written o.target) ∧
        ∀ p ∈ settled.2, ∀ c ∈ p.body.constraints, ∀ r ∈ c.relations, good r := by
  cases objective with
  | none => exact .pure fun _ => ⟨fun o ho => (nomatch ho), fun p hp => nomatch hp⟩
  | some o =>
    refine ((htarget o.target).under fun h => h o rfl).bind
      fun target => ((steps_linkConstraints hrelation).under fun _ => trivial).bind
      fun links => .pure fun h => ⟨fun o' ho' => ?_, forall_gathered h.2⟩
    cases ho'
    exact h.1.2

/-- What holds of every relation and every target that is settled holds of those of a
model. -/
theorem steps_settleModel (m : Model) :
    Steps sort known ((∀ p ∈ m.postings, ∀ c ∈ p.body.constraints, ∀ r ∈ c.relations, sort r) ∧
        ∀ o, m.objective = some o → given o.target) (settleModel m) fun settled =>
      (∀ p ∈ settled.1, ∀ c ∈ p.body.constraints, ∀ r ∈ c.relations, good r) ∧
        ∀ o, settled.2 = some o → written o.target := by
  have hpostings : Steps sort known ((∀ p ∈ m.postings, ∀ c ∈ p.body.constraints,
      ∀ r ∈ c.relations, sort r) ∧ ∀ o, m.objective = some o → given o.target)
      (m.postings.mapM settlePosting) _ :=
    .mapM fun p hp => (steps_settlePosting hrelation p).under fun h => h.1 p hp
  refine hpostings.bind fun postings => ?_
  refine ((steps_settleObjective hrelation htarget m.objective).under fun h => h.1.2).bind
    fun settled => .pure fun h => ⟨fun p hp => ?_, h.2.1⟩
  rcases List.mem_append.mp hp with hp | hp
  · obtain ⟨written, hwritten, hp⟩ := List.mem_flatten.mp hp
    exact h.1.2.1 written hwritten p hp
  · exact h.2.2 p hp

end

/-! ### The objective -/

theorem places_settleObjectiveTarget (t : Target) :
    Places known (t.toExpr.WellFormed known) (settleObjectiveTarget t) (·.Placed known) := by
  have hlist : ∀ {f : Aggregate Expr} {list : List Expr}, f.operands = list →
      (f.Regular → list ≠ []) → Places known ((Expr.aggregate f).WellFormed known)
        (variablesOnly list) fun list' => list' ≠ [] ∧ ∀ e ∈ list', e.VariableOver known := by
    rintro f list rfl hne
    refine (places_variablesOnly _).imp (fun h => over_aggregate.mp h.over) fun list' h hlist' => ?_
    refine ⟨List.ne_nil_of_length_pos ?_, hlist'.1⟩
    rw [hlist'.2]
    exact List.length_pos_iff.mpr (hne (wellFormed_aggregate.mp h).1)
  cases t with
  | expression e => exact ((places_lift e).under WellFormed.over).map fun e' _ he' => he'
  | aggregate f =>
    cases f with
    | sum terms coefficients =>
      have hover : (Expr.aggregate (.sum terms coefficients)).WellFormed known →
          ∀ e ∈ terms, e.Over known := fun h => over_aggregate.mp h.over
      refine ((places_settleSum terms coefficients).under hover).map
        fun f hwell hf => ?_
      obtain ⟨hne, hcoefficients⟩ := (wellFormed_aggregate.mp hwell).1
      obtain ⟨terms', _, rfl, hterms', hlength⟩ := hf
      refine ⟨List.ne_nil_of_length_pos ?_, hterms'⟩
      have hterms := List.length_pos_iff.mpr hne
      have hequal : (Aggregate.coefficientsOf terms coefficients).length = terms.length := by
        cases coefficients with
        | none => simp [Aggregate.coefficientsOf]
        | some cs => exact (hcoefficients cs rfl).1
      rw [Aggregate.list, hlength, List.length_zip, hequal, Nat.min_self]
      exact hterms
    | nValues list except =>
      exact (hlist (f := .nValues list except) rfl And.left).map fun list' _ h => h
    | minimum list => exact (hlist (f := .minimum list) rfl id).map fun list' _ h => h
    | maximum list => exact (hlist (f := .maximum list) rfl id).map fun list' _ h => h
    | count list values | element list index startIndex =>
      refine ((places_auxiliary _).under WellFormed.over).map fun v _ hv p hp => ?_
      rw [List.mem_singleton.mp hp]
      exact hv

theorem places_settleModel (m : Model) :
    Places known (m.Over known) (settleModel m) fun settled =>
      (∀ p ∈ settled.1, p.Placed known) ∧ ∀ o, settled.2 = some o → o.target.Placed known :=
  steps_settleModel places_settleRelation places_settleObjectiveTarget m

end Introducing

namespace Introduced

variable {m : Model} {p : Introduced}

/-- The store of a problem is the store of its model with variables for expressions of the
model. -/
theorem exists_introduces (hm : m.Sound) (hp : ofModel m = .ok p) :
    ∃ new, p.replaced = new.reverse ∧
      m.store.Introduces (·.WellFormed m.store.Declares) new p.store := by
  obtain ⟨new, hreplaced, hstore, _⟩ := exists_completes hm hp default
  exact ⟨new, hreplaced, hstore.mono fun e he => he.1⟩

theorem store_built (hm : m.Sound) (hp : ofModel m = .ok p) : p.store.Built := by
  obtain ⟨new, _, hstore⟩ := exists_introduces hm hp
  exact hstore.built hm.store fun e he => he

/-- Declared are the variables of the model and the auxiliary ones. -/
theorem declares_iff (hm : m.Sound) (hp : ofModel m = .ok p) {v : Variable} :
    p.store.Declares v ↔ m.store.Declares v ∨ v ∈ p.replaced.map Prod.snd := by
  obtain ⟨new, hreplaced, hstore⟩ := exists_introduces hm hp
  rw [hstore.declares_iff hm.store.consistent_true, hreplaced, List.map_reverse, List.mem_reverse]

/-- In what is written of a model everything stands where it can. -/
theorem placed (hm : m.Sound) (hp : ofModel m = .ok p) :
    (∀ posting ∈ p.postings, posting.Placed p.store.Declares) ∧
      ∀ o, p.objective = some o → o.target.Placed p.store.Declares := by
  have hold : ∀ v, m.store.Declares v → p.store.Declares v := fun v hv =>
    (declares_iff hm hp).mpr (.inl hv)
  have hnew : ∀ q ∈ p.replaced, p.store.Declares q.2 := fun q hq =>
    (declares_iff hm hp).mpr (.inr (List.mem_map_of_mem hq))
  obtain ⟨⟨⟨postings, objective⟩, state'⟩, hrun, hp'⟩ := Except.bind_eq_ok.mp hp
  cases hp'
  refine ((Introducing.places_settleModel m).result hrun hnew (fun r hr => nomatch hr)
    ⟨fun q hq c hc r hr e he v hv => ?_, fun o ho => ?_⟩).2
  · exact hold v ((hm.postings q hq c hc r hr).over e he v hv)
  · exact (hm.objective o ho).mono fun v _ => hold v

end Introduced
end CspModel
