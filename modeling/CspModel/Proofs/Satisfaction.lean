import CspModel.Auxiliary.Introduction
import CspModel.Proofs.Declared
import CspModel.Proofs.Evaluation

/-! # Solutions of a model

A predicate holds when its value is not zero, a function meets its condition when
their values compare, and a slide holds when all its windows do.  What the other
relations mean is left open: an interpretation gives each of them any relation on
its parameters and on the values of its arguments.  A relation over an argument
without a value does not hold.
-/
namespace CspModel

/-- What a value is compared to, once its expression is read. -/
inductive Bound where
  | value (v : Value)
  | range (inf sup : Int)
  | set (values : List Int)

/-- How often a value occurs, once its expression is read. -/
inductive Frequency where
  | exactly (v : Value)
  | between (inf sup : Int)

/-- What the list of a channel is linked with, once it is read. -/
inductive Linked where
  | itself
  | list (list : List Value) (startIndex : Int)
  | value (v : Value)

/-- A meaning for every relation that is not settled by arithmetic. -/
structure Interpretation where
  extension : Table → List Value → Prop
  allDifferent : List Value → (except : List Int) → Prop
  allEqual : List Value → Prop
  ordered : List Value → OrderOperator → Prop
  circuit : List Value → (startIndex : Int) → Prop
  noOverlap : (origins lengths : List Value) → (zeroIgnored : Bool) → Prop
  cumulative : (origins lengths heights : List Value) → Comparison → Bound → Prop
  instantiation : List Value → (values : List Int) → Prop
  lex : List (List Value) → OrderOperator → Prop
  channel : List Value → (startIndex : Int) → Linked → Prop
  cardinality : (list values : List Value) → List Frequency → (closed : Bool) → Prop
  regular : List Value → Automaton → Prop
  mdd : List Value → Diagram → Prop
  precedence : List Value → (values : List Int) → (covered : Bool) → Prop
  clause : List (Value × Bool) → Prop
deriving Inhabited

/-- Whether a value compares to a bound.  A single value bounds like the set of it. -/
def Comparison.Holds : Comparison → Value → Bound → Prop
  | .eq, v, .value w => v = w
  | .ne, v, .value w => v ≠ w
  | .isIn, v, .value w => v = w
  | .notIn, v, .value w => v ≠ w
  | .lt, .integer a, .value (.integer b) => a < b
  | .le, .integer a, .value (.integer b) => a ≤ b
  | .ge, .integer a, .value (.integer b) => b ≤ a
  | .gt, .integer a, .value (.integer b) => b < a
  | .isIn, .integer a, .range inf sup => inf ≤ a ∧ a ≤ sup
  | .notIn, .integer a, .range inf sup => ¬ (inf ≤ a ∧ a ≤ sup)
  | .isIn, .integer a, .set values => a ∈ values
  | .notIn, .integer a, .set values => a ∉ values
  | _, _, _ => False

open CspModel.Expr

section
variable (ρ : Assignment)

/-- The bound a condition sets. -/
def ConditionOperand.bound? : ConditionOperand → Option Bound
  | .expression e => (e.value? .exact ρ).map .value
  | .range inf sup => some (.range inf sup)
  | .set values => some (.set values)

def Occurrence.frequency? : Occurrence → Option Frequency
  | .exactly e => (e.value? .exact ρ).map .exactly
  | .between inf sup => some (.between inf sup)

def ChannelTarget.linked? : ChannelTarget → Option Linked
  | .itself => some .itself
  | .list other startIndex => some (.list (other.map ρ) startIndex)
  | .value e => (e.value? .exact ρ).map .value

end

variable (I : Interpretation) (ρ : Assignment)

/-- Whether a relation holds. -/
def Relation.Holds : Relation → Prop
  | .intension predicate => ∃ n, predicate.value? .exact ρ = some (.integer n) ∧ n ≠ 0
  | .extension list table => ∃ vs, values? .exact ρ list = some vs ∧ I.extension table vs
  | .allDifferent list except => ∃ vs, values? .exact ρ list = some vs ∧ I.allDifferent vs except
  | .allEqual list => ∃ vs, values? .exact ρ list = some vs ∧ I.allEqual vs
  | .ordered list operator => ∃ vs, values? .exact ρ list = some vs ∧ I.ordered vs operator
  | .conditional function condition => ∃ v, function.value? .exact ρ = some v ∧
      ∃ b, condition.operand.bound? ρ = some b ∧ condition.comparison.Holds v b
  | .circuit list startIndex => ∃ vs, values? .exact ρ list = some vs ∧ I.circuit vs startIndex
  | .noOverlap origins lengths zeroIgnored => ∃ os, values? .exact ρ origins = some os ∧
      ∃ ls, values? .exact ρ lengths = some ls ∧ I.noOverlap os ls zeroIgnored
  | .cumulative origins lengths heights condition => ∃ os, values? .exact ρ origins = some os ∧
      ∃ ls, values? .exact ρ lengths = some ls ∧ ∃ hs, values? .exact ρ heights = some hs ∧
      ∃ b, condition.operand.bound? ρ = some b ∧ I.cumulative os ls hs condition.comparison b
  | .instantiation list values => I.instantiation (list.map ρ) values
  | .lex lists operator => ∃ vss, lists.mapM (values? .exact ρ) = some vss ∧ I.lex vss operator
  | .channel list startIndex target => ∃ l, target.linked? ρ = some l ∧
      I.channel (list.map ρ) startIndex l
  | .cardinality list values occurs closed => ∃ vs, values? .exact ρ list = some vs ∧
      ∃ ws, values? .exact ρ values = some ws ∧
      ∃ fs, occurs.mapM (Occurrence.frequency? ρ) = some fs ∧ I.cardinality vs ws fs closed
  | .regular list automaton => ∃ vs, values? .exact ρ list = some vs ∧ I.regular vs automaton
  | .mdd list diagram => ∃ vs, values? .exact ρ list = some vs ∧ I.mdd vs diagram
  | .precedence list values covered => ∃ vs, values? .exact ρ list = some vs ∧
      I.precedence vs values covered
  | .clause literals => I.clause (literals.map fun literal => (ρ literal.v, literal.positive))

namespace Constraint

mutual
/-- Whether a constraint holds. -/
def Holds : Constraint → Prop
  | relation r => r.Holds I ρ
  | slide windows => AllHold windows

/-- Whether all windows of a slide hold. -/
def AllHold : List Constraint → Prop
  | [] => True
  | c :: rest => Holds c ∧ AllHold rest
end

theorem allHold_iff {list : List Constraint} : AllHold I ρ list ↔ ∀ c ∈ list, c.Holds I ρ := by
  induction list with
  | nil => simp [AllHold]
  | cons c rest ih => simp [AllHold, ih]

/-- A constraint holds when its relations do, wherever they stand in nested slides. -/
theorem holds_iff_relations (c : Constraint) :
    c.Holds I ρ ↔ ∀ r ∈ c.relations, r.Holds I ρ := by
  induction c using Constraint.rec
    (motive_2 := fun list => AllHold I ρ list ↔ ∀ r ∈ relationsOf list, r.Holds I ρ) with
  | relation r => simp [Holds, relations]
  | slide windows ih => simpa [Holds, relations] using ih
  | nil => simp [AllHold, relationsOf]
  | cons c rest ihc ihrest => simp [AllHold, relationsOf, ihc, ihrest, or_imp, forall_and]

end Constraint

/-- A predicate of two operands holds when it comes out true. -/
theorem Relation.holds_binary {I : Interpretation} {ρ : Assignment} {op : Operator}
    (hop : op.isAssociative = false) {e e' : Expr} {left right : Operand}
    (he : e.read .exact ρ = some left) (he' : e'.read .exact ρ = some right) {truth : Bool}
    (htruth : Calculus.exact.apply op [left, right] = some (Operator.truth truth)) :
    (intension (binary op e e')).Holds I ρ ↔ truth = true := by
  rw [Holds, Expr.value?, read_binary hop he he', htruth]
  cases truth <;> simp [Operand.value?, Operator.truth]

/-- Whether all constraints of some postings hold. -/
def Posting.AllHold (postings : List Posting) : Prop :=
  ∀ p ∈ postings, ∀ c ∈ p.body.constraints, c.Holds I ρ

theorem Posting.allHold_append (postings postings' : List Posting) :
    AllHold I ρ (postings ++ postings') ↔ AllHold I ρ postings ∧ AllHold I ρ postings' := by
  simp only [AllHold, List.mem_append, or_imp, forall_and]

theorem Posting.allHold_cons (p : Posting) (rest : List Posting) :
    AllHold I ρ (p :: rest) ↔ (∀ c ∈ p.body.constraints, c.Holds I ρ) ∧ AllHold I ρ rest := by
  simp only [AllHold, List.forall_mem_cons]

/-- The value of a target. -/
def Target.value? (t : Target) : Option Value := t.toExpr.value? .exact ρ

/-- Whether every declared variable takes a value of its domain. -/
def Store.Within (s : Store) : Prop := ∀ v, s.Declares v → (s.domainOf v).Holds (ρ v)

/-! ### What holding depends on -/

theorem Expr.value?_congr {ρ σ : Assignment} {e : Expr} (h : ∀ v ∈ e.occurrences, ρ v = σ v) :
    e.value? .exact ρ = e.value? .exact σ :=
  congrArg (Option.bind · Operand.value?) (read_congr h)

/-- Whether a relation holds depends on the variables of its expressions only. -/
theorem Relation.holds_congr {ρ σ : Assignment} {r : Relation}
    (h : ∀ e ∈ r.expressions, ∀ v ∈ e.occurrences, ρ v = σ v) :
    r.Holds I ρ ↔ r.Holds I σ := by
  have hvalue : ∀ e ∈ r.expressions, e.value? .exact ρ = e.value? .exact σ :=
    fun e he => value?_congr (h e he)
  have hlist : ∀ list, list ⊆ r.expressions → values? .exact ρ list = values? .exact σ list := by
    intro list hlist
    rw [values?_eq_mapM, values?_eq_mapM]
    exact mapM_congr fun e he => hvalue e (hlist he)
  have hvariables : ∀ list : List Variable, list.map .var ⊆ r.expressions →
      ∀ v ∈ list, ρ v = σ v := fun list hlist v hv =>
    h (.var v) (hlist (List.mem_map_of_mem hv)) v (List.mem_singleton_self v)
  have hcondition : ∀ c : Condition, c.expressions ⊆ r.expressions →
      c.operand.bound? ρ = c.operand.bound? σ := by
    rintro ⟨comparison, operand⟩ hc
    cases operand with
    | expression e =>
      simp only [ConditionOperand.bound?, hvalue e (hc List.mem_cons_self)]
    | range | set => rfl
  cases r with
  | intension predicate =>
    simp only [Holds, hvalue predicate List.mem_cons_self]
  | extension list | allDifferent list | allEqual list | ordered list | circuit list
  | regular list | mdd list | precedence list =>
    simp only [Holds, hlist list (List.Subset.refl _)]
  | conditional function condition =>
    have hf : function.value? .exact ρ = function.value? .exact σ := by
      rw [← value?_aggregate, ← value?_aggregate]
      refine value?_congr fun v hv => ?_
      rw [occurrences, occurrencesOf_eq_flatMap] at hv
      obtain ⟨e, he, hv⟩ := List.mem_flatMap.mp hv
      exact h e (List.mem_append_left _ he) v hv
    simp only [Holds, hf, hcondition condition (List.subset_append_right _ _)]
  | noOverlap origins lengths _ =>
    simp only [Holds, hlist origins (List.subset_append_left _ _),
      hlist lengths (List.subset_append_right _ _)]
  | cumulative origins lengths heights condition =>
    have horigins := hlist origins fun e he => by simp [expressions, he]
    have hlengths := hlist lengths fun e he => by simp [expressions, he]
    have hheights := hlist heights fun e he => by simp [expressions, he]
    simp only [Holds, horigins, hlengths, hheights,
      hcondition condition (List.subset_append_right _ _)]
  | instantiation list values =>
    simp only [Holds, List.map_congr_left (hvariables list (List.Subset.refl _))]
  | lex lists operator =>
    have hlists : lists.mapM (values? .exact ρ) = lists.mapM (values? .exact σ) :=
      mapM_congr fun list hmem =>
        hlist list fun e he => List.mem_flatten.mpr ⟨list, hmem, he⟩
    simp only [Holds, hlists]
  | channel list startIndex target =>
    have hmap := List.map_congr_left (hvariables list (List.subset_append_left _ _))
    have htarget : target.linked? ρ = target.linked? σ := by
      cases target with
      | itself => rfl
      | list other _ =>
        simp only [ChannelTarget.linked?,
          List.map_congr_left (hvariables other (List.subset_append_right _ _))]
      | value e =>
        simp only [ChannelTarget.linked?,
          hvalue e (List.mem_append_right _ (List.mem_singleton_self e))]
    simp only [Holds, hmap, htarget]
  | cardinality list values occurs closed =>
    have hvariable := hlist list fun e he => by simp [expressions, he]
    have hvalues := hlist values fun e he => by simp [expressions, he]
    have hoccurs : occurs.mapM (Occurrence.frequency? ρ) =
        occurs.mapM (Occurrence.frequency? σ) := by
      refine mapM_congr fun o ho => ?_
      cases o with
      | exactly e =>
        have he : e ∈ occurs.filterMap occurrenceExpr? := List.mem_filterMap.mpr ⟨_, ho, rfl⟩
        simp only [Occurrence.frequency?, hvalue e (List.mem_append_right _ he)]
      | between => rfl
    simp only [Holds, hvariable, hvalues, hoccurs]
  | clause literals =>
    have hliterals : (literals.map fun literal => (ρ literal.v, literal.positive)) =
        literals.map fun literal => (σ literal.v, literal.positive) := by
      refine List.map_congr_left fun literal hl => ?_
      rw [h (.var literal.v) (List.mem_map_of_mem hl) literal.v (List.mem_singleton_self _)]
    simp only [Holds, hliterals]

end CspModel
