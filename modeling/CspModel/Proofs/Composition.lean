import CspModel.Proofs.Placement

/-! # Composing expressions

An operator is put on operands in several ways: with a check of their number, by a function
for two operands or for one, as a choice or as a membership.  Each of them gives an
application of that operator, in which nested applications of an associative operator are
merged.  Two things hold of whatever is composed this way.  Its value is that of the
operator on the values of the operands as they were given, so merging is not seen in any
value (`Composes.read_eq`).  And every node is in normal form: merging looks one level down
only, which is enough as long as the operands are merged already (`Composed.inNormalForm`).
Lifting the aggregates out of an expression composes it anew and keeps the normal form.

Nothing is asked of the aggregates in an expression here: their variants can be written down
with any lists.
-/
namespace CspModel
namespace Expr

/-! ### Normal forms -/

/-- What the normal form demands of the outermost node. -/
def NormalNode : Expr → Prop
  | set members => members.Pairwise (· < ·)
  | apply op operands => op.accepts operands.length = true ∧
      (op.isAssociative = true → ∀ inner, apply op inner ∉ operands)
  | _ => True

/-- Every set ascends, every operator accepts the number of its operands, and no operand of
an associative operator is an application of that operator. -/
def InNormalForm (e : Expr) : Prop := ∀ p ∈ e.parts, p.NormalNode

theorem inNormalForm_apply {op : Operator} {operands : List Expr} :
    (apply op operands).InNormalForm ↔
      (apply op operands).NormalNode ∧ ∀ e ∈ operands, e.InNormalForm := by
  simp only [InNormalForm, parts_apply, List.mem_cons, List.mem_flatMap, forall_eq_or_imp]
  exact and_congr_right' ⟨fun h e he p hp => h p ⟨e, he, hp⟩, fun h p ⟨e, he, hp⟩ => h e he p hp⟩

theorem inNormalForm_aggregate {f : Aggregate Expr} :
    (aggregate f).InNormalForm ↔ ∀ e ∈ f.operands, e.InNormalForm := by
  simp only [InNormalForm, parts_aggregate, List.mem_cons, List.mem_flatMap, forall_eq_or_imp,
    NormalNode, true_and]
  exact ⟨fun h e he p hp => h p ⟨e, he, hp⟩, fun h p ⟨e, he, hp⟩ => h e he p hp⟩

theorem InNormalForm.node {e : Expr} (h : e.InNormalForm) : e.NormalNode :=
  h e e.self_mem_parts

/-- An application in normal form has operands. -/
theorem InNormalForm.operands_ne_nil {op : Operator} {operands : List Expr}
    (h : (apply op operands).InNormalForm) : operands ≠ [] := by
  rintro rfl
  have haccepts := h.node.1
  rw [List.length_nil, Operator.accepts_zero] at haccepts
  exact Bool.false_ne_true haccepts

theorem inNormalForm_leaf {e : Expr} (h : e.isLeaf = true) : e.InNormalForm := by
  cases e with
  | const | var =>
    intro p hp
    obtain rfl := List.mem_singleton.mp hp
    trivial
  | _ => cases h

theorem inNormalForm_ofSet (values : List Int) : (ofSet values).InNormalForm := by
  intro p hp
  obtain rfl := List.mem_singleton.mp hp
  exact Ascending.pairwise_ofList values

/-- Applying an operator to normal forms gives one. -/
theorem inNormalForm_applied {op : Operator} {operands : List Expr}
    (haccepts : op.accepts operands.length = true) (h : ∀ o ∈ operands, o.InNormalForm) :
    (applied op operands).InNormalForm := by
  by_cases hop : op.isAssociative = true
  · rw [applied, if_pos hop, inNormalForm_apply]
    obtain ⟨haccepts, hmerged⟩ := merged_flatMap_spliced hop haccepts fun inner hinner =>
      ⟨(h _ hinner).node.1, (h _ hinner).node.2 hop⟩
    refine ⟨⟨haccepts, fun _ => hmerged⟩, fun p hp => ?_⟩
    obtain ⟨e, he, hp⟩ := List.mem_flatMap.mp hp
    rcases mem_spliced hp with rfl | ⟨inner, rfl, hinner⟩
    · exact h p he
    · exact (inNormalForm_apply.mp (h _ he)).2 p hinner
  · rw [applied, if_neg hop, inNormalForm_apply]
    exact ⟨⟨haccepts, fun hassoc => absurd hassoc hop⟩, h⟩

/-! ### Putting an operator on operands -/

/-- The ways to put an operator on operands. -/
inductive Composes : Operator → List Expr → Expr → Prop
  /-- With a check of the number of operands. -/
  | checked {op : Operator} {operands : List Expr} {e : Expr} :
      applyChecked op operands = .ok e → Composes op operands e
  /-- As an operator with two operands, of which there may be more. -/
  | binary {op : Operator} (left right : Expr) : op.accepts 2 = true →
      Composes op [left, right] (binary op left right)
  | unary {op : Operator} (operand : Expr) : op.accepts 1 = true →
      Composes op [operand] (unary op operand)
  | choice (condition yes no : Expr) :
      Composes .ifThenElse [condition, yes, no] (choice condition yes no)
  | isMember (e : Expr) (values : List Int) : Composes .isIn [e, ofSet values] (isMember e values)
  | isNoMember (e : Expr) (values : List Int) :
      Composes .notIn [e, ofSet values] (isNoMember e values)

/-- All of them merge the operands of an operator that accepts their number. -/
theorem Composes.eq_applied {op : Operator} {operands : List Expr} {e : Expr}
    (h : Composes op operands e) :
    op.accepts operands.length = true ∧ e = applied op operands := by
  cases h with
  | checked h => exact applyChecked_eq_ok.mp h
  | binary left right h => exact ⟨h, rfl⟩
  | unary operand h => exact ⟨h, rfl⟩
  | choice | isMember | isNoMember => exact ⟨rfl, rfl⟩

/-- Expressions put together from variables, constants, sets, operators and aggregates. -/
inductive Composed : Expr → Prop
  | const (n : Int) : Composed (const n)
  | var (v : Variable) : Composed (var v)
  | set (values : List Int) : Composed (ofSet values)
  | apply {op : Operator} {operands : List Expr} {e : Expr} : (∀ o ∈ operands, Composed o) →
      Composes op operands e → Composed e
  | aggregate {f : Aggregate Expr} : (∀ e ∈ f.operands, Composed e) → Composed (aggregate f)

/-- Whatever is composed is in normal form. -/
theorem Composed.inNormalForm {e : Expr} (h : e.Composed) : e.InNormalForm := by
  induction h with
  | const | var => exact inNormalForm_leaf rfl
  | set values => exact inNormalForm_ofSet values
  | apply _ hcomposes ih =>
    obtain ⟨haccepts, rfl⟩ := hcomposes.eq_applied
    exact inNormalForm_applied haccepts ih
  | aggregate _ ih => exact inNormalForm_aggregate.mpr ih

/-- What is composed of normal forms is read as the operator on what its operands are read
as. -/
theorem Composes.read_eq {op : Operator} {operands : List Expr} {e : Expr}
    (h : Composes op operands e) (hoperands : ∀ o ∈ operands, o.InNormalForm) (ρ : Assignment) :
    e.read .exact ρ = ((readAll .exact ρ operands).bind (Calculus.exact.apply op)).map fun n =>
      .value (.integer n) := by
  obtain ⟨_, rfl⟩ := h.eq_applied
  rw [read_applied fun inner hinner => (hoperands _ hinner).operands_ne_nil, read, Option.map_bind]
  rfl

/-! ### Lifting -/

/-- Lifting the aggregates out of a normal form composes a normal form again. -/
theorem steps_lift_inNormalForm (e : Expr) :
    Places (fun _ => True) e.InNormalForm (Introducing.lift e) InNormalForm := by
  induction e using Expr.induction with
  | const | var | set => exact .pure id
  | aggregate f _ =>
    rw [Introducing.lift]
    have hvariable : Places (fun _ => True) ((aggregate f).Over fun _ => True)
        (Introducing.auxiliary (aggregate f)) fun _ => True := Introducing.places_auxiliary _
    exact (hvariable.under fun _ v _ => trivial).map fun v _ _ => inNormalForm_leaf rfl
  | apply op operands ih =>
    rw [Introducing.lift, Introducing.liftAll_eq_mapM]
    have hoperands : Places (fun _ => True) (apply op operands).InNormalForm
        (operands.mapM Introducing.lift) fun lifted =>
          (∀ o ∈ lifted, o.InNormalForm) ∧ lifted.length = operands.length :=
      .mapM fun o ho => (ih o ho).under fun h => (inNormalForm_apply.mp h).2 o ho
    -- an application keeps the number of its operands, so its operator still accepts it
    refine hoperands.map fun lifted h hlifted => inNormalForm_applied ?_ hlifted.1
    rw [hlifted.2]
    exact h.node.1

theorem InNormalForm.lift {e e' : Expr} {state state' : Introduction} (h : e.InNormalForm)
    (hrun : Introducing.lift e state = .ok (e', state')) : e'.InNormalForm := by
  -- the variables of the state and its pending links can be any
  have hrelation : ∀ r : Relation, r.Over fun _ => True := fun r e _ v _ => trivial
  exact ((steps_lift_inNormalForm e).result hrun (fun _ _ => trivial)
    (fun r _ => hrelation r) h).2

/-- Composing expressions keeps their value and their form.  A number of operands is taken
exactly if the operator accepts it.  The expression that is then composed is read, under the
exact operators, as the operator on the values of the operands.  Whatever is composed is in
normal form at every node, and so is what is left when the aggregates of a normal form are
lifted out of it. -/
theorem composing_keeps_value_and_form :
    (∀ op operands, (∃ e, applyChecked op operands = .ok e) ↔
      op.accepts operands.length = true) ∧
    (∀ op operands e, Composes op operands e → (∀ o ∈ operands, Composed o) →
      Composed e ∧ ∀ ρ : Assignment, e.read .exact ρ =
        ((readAll .exact ρ operands).bind (Calculus.exact.apply op)).map fun n =>
          .value (.integer n)) ∧
    (∀ e, Composed e → e.InNormalForm) ∧
    ∀ e e' state state', e.InNormalForm → Introducing.lift e state = .ok (e', state') →
      e'.InNormalForm := by
  refine ⟨fun op operands => ?_, fun op operands e h hoperands => ?_,
    fun e => Composed.inNormalForm, fun e e' state state' => InNormalForm.lift⟩
  · simp only [applyChecked_eq_ok, exists_and_left, exists_eq, and_true]
  · exact ⟨.apply hoperands h, h.read_eq fun o ho => (hoperands o ho).inNormalForm⟩

section
open Introduced.Successor

/-- The greater one of a variable and its successor. -/
def greater : Expr := aggregate (.maximum [successor, var x])

/-- The successor and the greater one are added as one sum; without the aggregate it stays a
sum in normal form. -/
theorem composing_successor : ∃ sum lifted state,
    Composes .add [successor, greater] sum ∧
    sum = apply .add [var x, const 1, greater] ∧
    sum.read .exact (fun _ => .integer 2) = some (.value (.integer 6)) ∧
    Introducing.lift sum { store := declared } = .ok (lifted, state) ∧
    lifted = apply .add [var x, const 1, var next] ∧ lifted.InNormalForm := by
  obtain ⟨htaken, hread, hform, hlift⟩ := composing_keeps_value_and_form
  obtain ⟨sum, hsum⟩ := (htaken .add [successor, greater]).mpr rfl
  have hmerged : sum = apply .add [var x, const 1, greater] :=
    (applyChecked_eq_ok.mp hsum).2
  -- the successor is a sum of a composed variable and a composed constant
  have hsuccessor : Composed successor := by
    have hsum : Composes .add [var x, const 1] successor := .binary _ _ rfl
    refine .apply (fun o ho => ?_) hsum
    rcases List.mem_pair.mp ho with rfl | rfl
    · exact .var x
    · exact .const 1
  have hoperands : ∀ o ∈ [successor, greater], Composed o := by
    refine List.forall_mem_cons.mpr ⟨hsuccessor, List.forall_mem_singleton.mpr ?_⟩
    exact .aggregate (List.forall_mem_cons.mpr ⟨hsuccessor, List.forall_mem_singleton.mpr (.var x)⟩)
  obtain ⟨hcomposed, hvalue⟩ := hread .add _ sum (.checked hsum) hoperands
  obtain ⟨state, hrun⟩ : ∃ state, Introducing.lift sum { store := declared } =
      .ok (apply .add [var x, const 1, var next], state) := by
    rw [hmerged]
    exact ⟨_, by cbv⟩
  refine ⟨sum, _, state, .checked hsum, hmerged, ?_, hrun, rfl,
    hlift _ _ _ _ (hform sum hcomposed) hrun⟩
  rw [hvalue]
  rfl

end

end Expr
end CspModel
