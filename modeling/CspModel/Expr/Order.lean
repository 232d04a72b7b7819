import CspModel.Expr.Basic

/-! # The order of expressions

Expressions are compared by what their outermost node is — constants come before
variables, then sets, applications and aggregates — and nodes of one sort by
their parts from left to right.  Lists are compared entry by entry, and a list
comes before its continuations.  Two expressions compare as equal exactly when
they are the same tree (`order_eq_iff`), so the order also decides equality.
-/
namespace CspModel
namespace Expr

mutual
/-- Compares two expressions. -/
def order : Expr → Expr → Ordering
  | const a, const b => compare a b
  | const _, _ => .lt
  | _, const _ => .gt
  | var a, var b => compare a b
  | var _, _ => .lt
  | _, var _ => .gt
  | set a, set b => compare a b
  | set _, _ => .lt
  | _, set _ => .gt
  | apply op operands, apply op' operands' => (compare op op').then (orderAll operands operands')
  | apply _ _, _ => .lt
  | _, apply _ _ => .gt
  | aggregate f, aggregate g => orderAggregate f g

/-- Compares two lists of expressions. -/
def orderAll : List Expr → List Expr → Ordering
  | [], [] => .eq
  | [], _ :: _ => .lt
  | _ :: _, [] => .gt
  | a :: rest, b :: rest' => (order a b).then (orderAll rest rest')

/-- Compares two aggregates. -/
def orderAggregate : Aggregate Expr → Aggregate Expr → Ordering
  | .sum terms coefficients, .sum terms' coefficients' =>
    (orderAll terms terms').then (compare coefficients coefficients')
  | .sum _ _, _ => .lt
  | _, .sum _ _ => .gt
  | .count list values, .count list' values' =>
    (orderAll list list').then (compare values values')
  | .count _ _, _ => .lt
  | _, .count _ _ => .gt
  | .nValues list except, .nValues list' except' =>
    (orderAll list list').then (compare except except')
  | .nValues _ _, _ => .lt
  | _, .nValues _ _ => .gt
  | .minimum list, .minimum list' => orderAll list list'
  | .minimum _, _ => .lt
  | _, .minimum _ => .gt
  | .maximum list, .maximum list' => orderAll list list'
  | .maximum _, _ => .lt
  | _, .maximum _ => .gt
  | .element list index start, .element list' index' start' =>
    (orderAll list list').then ((order index index').then (compare start start'))
end

instance : Ord Expr := ⟨order⟩

instance : Ord (Aggregate Expr) := ⟨orderAggregate⟩

/-- Handles compare as equal exactly when they are the same. -/
theorem compare_variable_eq_iff (a b : Variable) : compare a b = .eq ↔ a = b := by
  obtain ⟨m, i⟩ := a
  obtain ⟨n, j⟩ := b
  show (compare m n).then (compare i j) = .eq ↔ _
  rw [Ordering.then_eq_eq, Nat.compare_eq_eq, Nat.compare_eq_eq, Variable.mk.injEq]

/-- Operators compare as equal exactly when they are the same. -/
theorem compare_operator_eq_iff (a b : Operator) : compare a b = .eq ↔ a = b := by
  cases a <;> cases b <;> decide

mutual
theorem order_eq_iff : (a b : Expr) → (order a b = .eq ↔ a = b)
  | const a, b => by
    cases b <;> simp [order]
  | var a, b => by
    cases b <;> simp [order, compare_variable_eq_iff]
  | set a, b => by
    cases b <;> simp [order]
  | apply op operands, b => by
    cases b <;> simp [order, Ordering.then_eq_eq, compare_operator_eq_iff, orderAll_eq_iff operands]
  | aggregate f, b => by
    cases b <;> simp [order, orderAggregate_eq_iff f]

theorem orderAll_eq_iff : (a b : List Expr) → (orderAll a b = .eq ↔ a = b)
  | [], b => by
    cases b <;> simp [orderAll]
  | e :: rest, b => by
    cases b <;> simp [orderAll, Ordering.then_eq_eq, order_eq_iff e, orderAll_eq_iff rest]

theorem orderAggregate_eq_iff : (f g : Aggregate Expr) → (orderAggregate f g = .eq ↔ f = g)
  | .sum terms _, g => by
    cases g <;> simp [orderAggregate, Ordering.then_eq_eq, orderAll_eq_iff terms]
  | .count list _, g => by
    cases g <;> simp [orderAggregate, Ordering.then_eq_eq, orderAll_eq_iff list]
  | .nValues list _, g => by
    cases g <;> simp [orderAggregate, Ordering.then_eq_eq, orderAll_eq_iff list]
  | .minimum list, g => by
    cases g <;> simp [orderAggregate, orderAll_eq_iff list]
  | .maximum list, g => by
    cases g <;> simp [orderAggregate, orderAll_eq_iff list]
  | .element list index _, g => by
    cases g <;>
      simp [orderAggregate, Ordering.then_eq_eq, orderAll_eq_iff list, order_eq_iff index]
end

instance : DecidableEq Expr := fun a b => decidable_of_iff _ (order_eq_iff a b)

instance : DecidableEq (Aggregate Expr) := fun f g =>
  decidable_of_iff _ (orderAggregate_eq_iff f g)

end Expr
end CspModel
