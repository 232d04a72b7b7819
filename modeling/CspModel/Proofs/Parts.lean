import CspModel.Expr.Build
import Mathlib

/-! # The parts of an expression

The operands of an application or of an aggregate are smaller than the whole, so
what holds of an expression as soon as it holds of its operands holds of every
expression (`Expr.induction`).  The parts of an expression are the expression
itself and the parts of its operands; a condition on every node of an expression is
a condition on its parts.
-/
namespace CspModel

theorem Aggregate.list_subset_operands {ε : Type} (f : Aggregate ε) : f.list ⊆ f.operands := by
  cases f with
  | element list index _ => exact List.subset_append_left list [index]
  | _ => exact List.Subset.refl _

namespace Expr

/-- Induction over expressions, in which the operands of an aggregate are the entries
of its list and, for an element, the index. -/
@[elab_as_elim]
theorem induction {motive : Expr → Prop} (const : ∀ n, motive (const n))
    (var : ∀ v, motive (var v)) (set : ∀ members, motive (set members))
    (apply : ∀ op operands, (∀ e ∈ operands, motive e) → motive (apply op operands))
    (aggregate : ∀ f : Aggregate Expr, (∀ e ∈ f.operands, motive e) → motive (aggregate f))
    (e : Expr) : motive e := by
  induction e using Expr.rec (motive_2 := fun list => ∀ e ∈ list, motive e)
    (motive_3 := fun f => ∀ e ∈ f.operands, motive e) with
  | const n => exact const n
  | var v => exact var v
  | set members => exact set members
  | apply op operands ih => exact apply op operands ih
  | aggregate f ih => exact aggregate f ih
  | sum _ _ ih e he => exact ih e he
  | count _ _ ih e he => exact ih e he
  | nValues _ _ ih e he => exact ih e he
  | minimum _ ih e he => exact ih e he
  | maximum _ ih e he => exact ih e he
  | element list index _ ih ihindex e he =>
    rcases List.mem_append.mp he with he | he
    · exact ih e he
    · rw [List.mem_singleton.mp he]
      exact ihindex
  | nil e he => cases he
  | cons a rest ih ihrest e he =>
    rcases List.mem_cons.mp he with rfl | he
    · exact ih
    · exact ihrest e he

/-! ### Depth and variables of operands -/

theorem depth_le_depthIn {e : Expr} {list : List Expr} (h : e ∈ list) :
    e.depth ≤ depthIn list := by
  induction list with
  | nil => cases h
  | cons a rest ih =>
    rw [depthIn]
    rcases List.mem_cons.mp h with rfl | h
    · exact Nat.le_max_left _ _
    · exact Nat.le_trans (ih h) (Nat.le_max_right _ _)

theorem depth_lt_of_mem_apply {e : Expr} {op : Operator} {operands : List Expr}
    (h : e ∈ operands) : e.depth < (apply op operands).depth := by
  rw [depth]
  exact Nat.lt_succ_of_le (depth_le_depthIn h)

theorem depth_lt_of_mem_operands {e : Expr} {f : Aggregate Expr} (h : e ∈ f.operands) :
    e.depth < (aggregate f).depth := by
  rw [depth]
  refine Nat.lt_succ_of_le ?_
  cases f with
  | element list index _ =>
    rcases List.mem_append.mp h with h | h
    · exact Nat.le_trans (depth_le_depthIn h) (Nat.le_max_left _ _)
    · rw [List.mem_singleton.mp h]
      exact Nat.le_max_right _ _
  | _ => exact depth_le_depthIn h

theorem depthIn_le {list : List Expr} {n : Nat} (h : ∀ e ∈ list, e.depth ≤ n) :
    depthIn list ≤ n := by
  induction list with
  | nil => exact Nat.zero_le n
  | cons e rest ih =>
    rw [depthIn]
    exact Nat.max_le.mpr
      ⟨h e List.mem_cons_self, ih fun e he => h e (List.mem_cons_of_mem _ he)⟩

theorem depth_aggregate_le {f : Aggregate Expr} {n : Nat} (h : ∀ e ∈ f.operands, e.depth ≤ n) :
    (aggregate f).depth ≤ n + 1 := by
  rw [depth]
  refine Nat.succ_le_succ ?_
  cases f with
  | element list index _ =>
    exact Nat.max_le.mpr ⟨depthIn_le fun e he => h e (List.mem_append_left _ he),
      h index (List.mem_append_right _ (List.mem_singleton_self _))⟩
  | _ => exact depthIn_le h

theorem one_le_depth (e : Expr) : 1 ≤ e.depth := by
  cases e <;> simp [depth]

theorem occurrencesIn_eq_flatMap (list : List Expr) :
    occurrencesIn list = list.flatMap occurrences := by
  induction list with
  | nil => rfl
  | cons e rest ih => rw [occurrencesIn, ih, List.flatMap_cons]

theorem occurrencesOf_eq_flatMap (f : Aggregate Expr) :
    occurrencesOf f = f.operands.flatMap occurrences := by
  cases f <;>
    simp [occurrencesOf, occurrencesIn_eq_flatMap, Aggregate.operands, Aggregate.list]

/-! ### Parts -/

mutual
/-- The expression itself and all expressions within it. -/
def parts : Expr → List Expr
  | const n => [const n]
  | var v => [var v]
  | set members => [set members]
  | apply op operands => apply op operands :: partsIn operands
  | aggregate f => aggregate f :: partsOf f

/-- The parts of the expressions of a list. -/
def partsIn : List Expr → List Expr
  | [] => []
  | e :: rest => parts e ++ partsIn rest

/-- The parts of the operands of an aggregate. -/
def partsOf : Aggregate Expr → List Expr
  | .sum terms _ => partsIn terms
  | .count list _ => partsIn list
  | .nValues list _ => partsIn list
  | .minimum list => partsIn list
  | .maximum list => partsIn list
  | .element list index _ => partsIn list ++ parts index
end

theorem partsIn_eq_flatMap (list : List Expr) : partsIn list = list.flatMap parts := by
  induction list with
  | nil => rfl
  | cons e rest ih => rw [partsIn, ih, List.flatMap_cons]

theorem partsOf_eq_flatMap (f : Aggregate Expr) : partsOf f = f.operands.flatMap parts := by
  cases f <;> simp [partsOf, partsIn_eq_flatMap, Aggregate.operands, Aggregate.list]

theorem parts_apply (op : Operator) (operands : List Expr) :
    parts (apply op operands) = apply op operands :: operands.flatMap parts := by
  rw [parts, partsIn_eq_flatMap]

theorem parts_aggregate (f : Aggregate Expr) :
    parts (aggregate f) = aggregate f :: f.operands.flatMap parts := by
  rw [parts, partsOf_eq_flatMap]

/-- The variables of an expression are the variables among its parts. -/
theorem mem_occurrences_iff {v : Variable} {e : Expr} : v ∈ e.occurrences ↔ var v ∈ e.parts := by
  induction e using Expr.induction with
  | const n => simp [occurrences, parts]
  | var w => simp [occurrences, parts]
  | set members => simp [occurrences, parts]
  | apply op operands ih =>
    rw [occurrences, occurrencesIn_eq_flatMap, parts_apply, List.mem_cons, List.mem_flatMap,
      List.mem_flatMap, or_iff_right (by simp)]
    exact exists_congr fun e => and_congr_right fun he => ih e he
  | aggregate f ih =>
    rw [occurrences, occurrencesOf_eq_flatMap, parts_aggregate, List.mem_cons, List.mem_flatMap,
      List.mem_flatMap, or_iff_right (by simp)]
    exact exists_congr fun e => and_congr_right fun he => ih e he

theorem self_mem_parts (e : Expr) : e ∈ e.parts := by
  cases e <;> simp [parts]

theorem parts_subset {e p : Expr} (h : p ∈ e.parts) : p.parts ⊆ e.parts := by
  induction e using Expr.induction with
  | const n => rw [List.mem_singleton.mp h]; exact List.Subset.refl _
  | var v => rw [List.mem_singleton.mp h]; exact List.Subset.refl _
  | set members => rw [List.mem_singleton.mp h]; exact List.Subset.refl _
  | apply op operands ih =>
    rw [parts_apply] at h ⊢
    rcases List.mem_cons.mp h with rfl | h
    · rw [parts_apply]
      exact List.Subset.refl _
    · obtain ⟨e, he, hp⟩ := List.mem_flatMap.mp h
      exact fun q hq => List.mem_cons_of_mem _ (List.mem_flatMap.mpr ⟨e, he, ih e he hp hq⟩)
  | aggregate f ih =>
    rw [parts_aggregate] at h ⊢
    rcases List.mem_cons.mp h with rfl | h
    · rw [parts_aggregate]
      exact List.Subset.refl _
    · obtain ⟨e, he, hp⟩ := List.mem_flatMap.mp h
      exact fun q hq => List.mem_cons_of_mem _ (List.mem_flatMap.mpr ⟨e, he, ih e he hp hq⟩)

/-! ### Aggregates within applications -/

mutual
/-- The aggregates of an expression that stand in no other aggregate. -/
def outermost : Expr → List Expr
  | aggregate f => [aggregate f]
  | apply _ operands => outermostIn operands
  | _ => []

/-- The outermost aggregates of the expressions of a list. -/
def outermostIn : List Expr → List Expr
  | [] => []
  | e :: rest => outermost e ++ outermostIn rest
end

theorem outermost_apply (op : Operator) (operands : List Expr) :
    outermost (apply op operands) = operands.flatMap outermost := by
  rw [outermost]
  induction operands with
  | nil => rfl
  | cons e rest ih => rw [outermostIn, ih, List.flatMap_cons]

theorem outermost_subset_parts (e : Expr) : e.outermost ⊆ e.parts := by
  induction e using Expr.induction with
  | const n => exact List.nil_subset _
  | var v => exact List.nil_subset _
  | set members => exact List.nil_subset _
  | apply op operands ih =>
    rw [outermost_apply, parts_apply]
    intro p hp
    obtain ⟨e, he, hp⟩ := List.mem_flatMap.mp hp
    exact List.mem_cons_of_mem _ (List.mem_flatMap.mpr ⟨e, he, ih e he hp⟩)
  | aggregate f _ =>
    intro p hp
    rw [List.mem_singleton.mp hp]
    exact self_mem_parts _

theorem depth_le_of_mem_outermost {e p : Expr} (h : p ∈ e.outermost) : p.depth ≤ e.depth := by
  induction e using Expr.induction with
  | const n => cases h
  | var v => cases h
  | set members => cases h
  | apply op operands ih =>
    rw [outermost_apply] at h
    obtain ⟨e, he, hp⟩ := List.mem_flatMap.mp h
    exact Nat.le_of_lt (Nat.lt_of_le_of_lt (ih e he hp) (depth_lt_of_mem_apply he))
  | aggregate f _ => exact Nat.le_of_eq (congrArg depth (List.mem_singleton.mp h))

theorem toVariable?_of_mem_outermost {e p : Expr} (h : p ∈ e.outermost) :
    p.toVariable? = none := by
  induction e using Expr.induction with
  | const n => cases h
  | var v => cases h
  | set members => cases h
  | apply op operands ih =>
    rw [outermost_apply] at h
    obtain ⟨e, he, hp⟩ := List.mem_flatMap.mp h
    exact ih e he hp
  | aggregate f _ =>
    rw [List.mem_singleton.mp h]
    rfl

/-- The expressions a link of the expression may replace in turn: the operands of an
aggregate, and the outermost aggregates of anything else. -/
def inner : Expr → List Expr
  | aggregate f => f.operands
  | e => e.outermost

theorem depth_lt_of_mem_inner {e p : Expr} (h : p ∈ e.inner) : p.depth < e.depth := by
  cases e with
  | const | var | set => cases h
  | apply op operands =>
    have h : p ∈ (apply op operands).outermost := h
    rw [outermost_apply] at h
    obtain ⟨e, he, hp⟩ := List.mem_flatMap.mp h
    exact Nat.lt_of_le_of_lt (depth_le_of_mem_outermost hp) (depth_lt_of_mem_apply he)
  | aggregate f => exact depth_lt_of_mem_operands h

theorem inner_subset_parts (e : Expr) : e.inner ⊆ e.parts := by
  cases e with
  | aggregate f =>
    intro p hp
    rw [parts_aggregate]
    exact List.mem_cons_of_mem _ (List.mem_flatMap.mpr ⟨p, hp, self_mem_parts p⟩)
  | _ => exact outermost_subset_parts _

end Expr
end CspModel
