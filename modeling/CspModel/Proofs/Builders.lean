import CspModel.Constraint.Build
import Mathlib

/-! # What the builders give

Expressions, functions and constraints are put together by functions that check their
arguments.  Each of them is described once: which arguments it accepts, and what it gives for
them.  Whoever takes apart what was built cites these lemmas and opens no builder.
-/
namespace CspModel

/-! ### Steps that can fail -/

namespace Except

variable {ε α β : Type}

theorem ok_eq_ok {a b : α} : (.ok a : Except ε α) = .ok b ↔ b = a := by
  rw [Except.ok.injEq, eq_comm]

theorem map_eq_ok {x : Except ε α} {f : α → β} {b : β} :
    x.map f = .ok b ↔ ∃ a, x = .ok a ∧ f a = b := by
  cases x <;> simp [Except.map]

theorem bind_eq_ok {x : Except ε α} {f : α → Except ε β} {b : β} :
    x >>= f = .ok b ↔ ∃ a, x = .ok a ∧ f a = .ok b := by
  cases x <;> simp [bind, Except.bind]

theorem ite_ok_eq_ok {p : Prop} [Decidable p] {a b : α} {cause : ε} :
    (if p then .ok a else .error cause) = Except.ok b ↔ p ∧ b = a := by
  split <;> simp [*, eq_comm]

theorem ite_error_eq_ok {p : Prop} [Decidable p] {x : Except ε α} {b : α} {cause : ε} :
    (if p then .error cause else x) = .ok b ↔ ¬p ∧ x = .ok b := by
  split <;> simp [*]

/-- A check decides whether what follows it is reached. -/
theorem check_bind_eq_ok {x : Except ε Unit} {f : Unit → Except ε β} {b : β} :
    x >>= f = .ok b ↔ x = .ok () ∧ f () = .ok b := by
  rw [bind_eq_ok]
  exact ⟨fun ⟨_, h⟩ => h, fun h => ⟨(), h⟩⟩

theorem forM_eq_ok {f : α → Except ε Unit} {list : List α} :
    forM list f = .ok () ↔ ∀ a ∈ list, f a = .ok () := by
  induction list with
  | nil => simp [pure, Except.pure]
  | cons a rest ih => rw [List.forM_cons, List.forall_mem_cons, ← ih, check_bind_eq_ok]

end Except

/-! ### Expressions and functions -/

theorem Expr.applyChecked_eq_ok {op : Operator} {operands : List Expr} {e : Expr} :
    applyChecked op operands = .ok e ↔
      op.accepts operands.length = true ∧ e = applied op operands := by
  rw [applyChecked, Except.ite_ok_eq_ok]

namespace Aggregate

variable {kind : String} {list : List Expr} {f : Aggregate Expr}

theorem nonEmpty_eq_ok {list' : List Expr} :
    nonEmpty kind list = .ok list' ↔ list ≠ [] ∧ list' = list := by
  unfold nonEmpty
  cases list <;> simp [eq_comm]

theorem nonEmpty_bind_eq_ok {α : Type} {g : List Expr → Except ModelError α} {a : α} :
    nonEmpty kind list >>= g = .ok a ↔ list ≠ [] ∧ g list = .ok a := by
  simp only [Except.bind_eq_ok, nonEmpty_eq_ok, and_assoc, exists_and_left, exists_eq_left]

/-- Most builders ask of their list that it has an entry, and nothing else. -/
theorem map_nonEmpty_eq_ok {α : Type} {g : List Expr → α} {a : α} :
    (nonEmpty kind list).map g = .ok a ↔ list ≠ [] ∧ g list = a := by
  simp only [Except.map_eq_ok, nonEmpty_eq_ok, and_assoc, exists_and_left, exists_eq_left]

theorem mapM_nonEmpty_eq_ok {lists lists' : List (List Expr)} :
    lists.mapM (nonEmpty kind) = .ok lists' ↔ (∀ list ∈ lists, list ≠ []) ∧ lists' = lists := by
  induction lists generalizing lists' with
  | nil => simp [pure, Except.pure, eq_comm]
  | cons list rest ih =>
    rw [List.mapM_cons, nonEmpty_bind_eq_ok, Except.bind_eq_ok, List.forall_mem_cons, and_assoc]
    simp only [ih, and_assoc, exists_and_left, exists_eq_left, pure, Except.pure, Except.ok_eq_ok]

theorem ofWeightedTerms_eq_ok {coefficients : List Int} :
    ofWeightedTerms list coefficients = .ok f ↔ list ≠ [] ∧
      coefficients.length = list.length ∧ f = .sum list (some coefficients) := by
  rw [ofWeightedTerms, nonEmpty_bind_eq_ok, Except.ite_ok_eq_ok]

theorem counting_eq_ok {values : List Int} :
    counting list values = .ok f ↔ list ≠ [] ∧ values ≠ [] ∧ f = .count list values := by
  rw [counting, nonEmpty_bind_eq_ok, Except.ite_error_eq_ok, Except.ok_eq_ok, List.isEmpty_iff]

end Aggregate

/-! ### Constraints -/

namespace Constraint

open Aggregate (nonEmpty_bind_eq_ok mapM_nonEmpty_eq_ok)

variable {kind argument : String} {list : List Expr} {vs : List Variable} {c : Constraint}

theorem someVariables_bind_eq_ok {g : List Variable → Except ModelError Constraint} :
    someVariables kind vs >>= g = .ok c ↔ vs ≠ [] ∧ g vs = .ok c := by
  unfold someVariables
  cases vs <;> simp [bind, Except.bind]

theorem map_someVariables_eq_ok {g : List Variable → Constraint} :
    (someVariables kind vs).map g = .ok c ↔ vs ≠ [] ∧ g vs = c := by
  unfold someVariables
  cases vs <;> simp [Except.map]

theorem sameLength_eq_ok {expected actual : Nat} :
    sameLength kind argument expected actual = .ok () ↔ expected = actual := by
  unfold sameLength
  split <;> simp [*]

theorem atLeast_eq_ok {minimum actual : Nat} :
    atLeast kind argument minimum actual = .ok () ↔ minimum ≤ actual := by
  unfold atLeast
  split <;> simp <;> omega

theorem pure_eq_ok {r : Relation} :
    (pure (.relation r) : Except ModelError Constraint) = .ok c ↔ c = .relation r :=
  Except.ok_eq_ok

/-- No list is found that is longer or shorter. -/
theorem find?_length_eq_none {α : Type} {lists : List (List α)} {n : Nat} :
    lists.find? (·.length != n) = none ↔ ∀ list ∈ lists, list.length = n := by
  simp [List.find?_eq_none]

theorem intension_eq_ok {e : Expr} :
    intension e = .ok c ↔ e.isPredicate = true ∧ c = .relation (.intension e) := by
  rw [intension, Except.ite_ok_eq_ok]

theorem extension_eq_ok {table : Table} : extension list table = .ok c ↔
    list ≠ [] ∧ (∀ tuple ∈ table.tuples, tuple.length = list.length) ∧
      (∃ kinds, table.columnKinds list.length = .ok kinds) ∧
      c = .relation (.extension list table) := by
  rw [extension, nonEmpty_bind_eq_ok, ← find?_length_eq_none]
  cases table.tuples.find? (·.length != list.length) with
  | none => cases table.columnKinds list.length <;> simp [eq_comm]
  | some tuple => simp

theorem noOverlap_eq_ok {lengths : List Expr} {zeroIgnored : Bool} :
    noOverlap list lengths zeroIgnored = .ok c ↔ list ≠ [] ∧ list.length = lengths.length ∧
      c = .relation (.noOverlap list lengths zeroIgnored) := by
  rw [noOverlap, nonEmpty_bind_eq_ok, Except.check_bind_eq_ok, sameLength_eq_ok, pure_eq_ok]

theorem cumulative_eq_ok {lengths heights : List Expr} {limit : Expr} :
    cumulative list lengths heights limit = .ok c ↔
      list ≠ [] ∧ list.length = lengths.length ∧ list.length = heights.length ∧
        c = .relation (.cumulative list lengths heights (.compareTo .le limit)) := by
  rw [cumulative, nonEmpty_bind_eq_ok, Except.check_bind_eq_ok, Except.check_bind_eq_ok,
    sameLength_eq_ok, sameLength_eq_ok, pure_eq_ok]

theorem instantiation_eq_ok {values : List Int} : instantiation vs values = .ok c ↔
    vs ≠ [] ∧ vs.length = values.length ∧ c = .relation (.instantiation vs values) := by
  rw [instantiation, someVariables_bind_eq_ok, Except.check_bind_eq_ok, sameLength_eq_ok,
    pure_eq_ok]

theorem lex_eq_ok {lists : List (List Expr)} {operator : OrderOperator} :
    lex lists operator = .ok c ↔ (∀ list ∈ lists, list ≠ []) ∧ 2 ≤ lists.length ∧
      (∀ list ∈ lists.tail, list.length = (lists.headD []).length) ∧
      c = .relation (.lex lists operator) := by
  rw [lex, Except.bind_eq_ok, ← find?_length_eq_none]
  simp only [mapM_nonEmpty_eq_ok, and_assoc, exists_and_left, exists_eq_left,
    Except.check_bind_eq_ok, atLeast_eq_ok]
  refine and_congr_right fun _ => and_congr_right fun hlength => ?_
  obtain ⟨first, rest, rfl⟩ := List.exists_cons_of_ne_nil
    (List.ne_nil_of_length_pos (Nat.lt_of_lt_of_le Nat.zero_lt_two hlength))
  simp only [List.head?_cons, List.tail_cons, List.headD_cons]
  cases rest.find? (·.length != first.length) <;> simp [eq_comm]

theorem channelBetween_eq_ok {other : List Variable} {startIndex otherStartIndex : Int} :
    channelBetween vs startIndex other otherStartIndex = .ok c ↔
      vs ≠ [] ∧ vs.length ≤ other.length ∧
        c = .relation (.channel vs startIndex (.list other otherStartIndex)) := by
  rw [channelBetween, someVariables_bind_eq_ok, Except.check_bind_eq_ok, atLeast_eq_ok,
    pure_eq_ok]

theorem cardinality_eq_ok {occurrences : List (Expr × Occurrence)} {closed : Bool} :
    cardinality list occurrences closed = .ok c ↔ list ≠ [] ∧ 1 ≤ occurrences.length ∧
      (∀ o ∈ occurrences.map Prod.snd, checkOccurrence o = .ok ()) ∧
      c = .relation
        (.cardinality list (occurrences.map Prod.fst) (occurrences.map Prod.snd) closed) := by
  rw [cardinality, nonEmpty_bind_eq_ok, Except.check_bind_eq_ok, Except.check_bind_eq_ok,
    atLeast_eq_ok, pure_eq_ok, ← Except.forM_eq_ok]
  rfl

/-- Without values it is not kept that they should all occur. -/
theorem precedence_eq_ok {values : List Int} {covered : Bool} :
    precedence list values covered = .ok c ↔
      list ≠ [] ∧ 3 ≤ list.length ∧ (values ≠ [] → 2 ≤ values.length) ∧
        c = .relation (.precedence list values (covered && !values.isEmpty)) := by
  rw [precedence, nonEmpty_bind_eq_ok, Except.check_bind_eq_ok, atLeast_eq_ok]
  cases values with
  | nil => simp [pure_eq_ok]
  | cons value rest =>
    rw [if_neg (by simp), Except.check_bind_eq_ok, atLeast_eq_ok, pure_eq_ok]
    simp

theorem clause_eq_ok {positive negative : List Variable} : clause positive negative = .ok c ↔
    positive ++ negative ≠ [] ∧
      c = .relation (.clause (positive.map (⟨·, true⟩) ++ negative.map (⟨·, false⟩))) := by
  rw [clause, Except.ite_error_eq_ok, Except.ok_eq_ok]
  simp

theorem slideOf_eq_ok {windows : List Constraint} :
    slideOf windows = .ok c ↔ windows ≠ [] ∧ c = .slide windows := by
  rw [slideOf, Except.ite_error_eq_ok, Except.ok_eq_ok, List.isEmpty_iff]

end Constraint
end CspModel
