import CspModel.Proofs.Lossless
import CspModel.Proofs.Objectives

/-! # Frames of predicates

The frame of an expression is the expression with all of its variables and constants
blanked.  Blanking does not change the pieces (`Piece.cut_frame`), and the slots of the
pieces are the leaves of the frame.  So the pieces, with a zero in every slot, are the text
of the frame, and as the text of an expression tells the expression, the pieces tell the
frame: what goes into one template differs in its leaves only
(`Piece.ofExpr_eq_iff_frame`).
-/
namespace CspModel

open CspModel.Expr

namespace Expr

mutual
/-- The expression with a zero in place of every variable and every constant.  The members
of a set stay, and so does an aggregate: neither is cut into pieces. -/
def frame : Expr → Expr
  | const _ => const 0
  | var _ => const 0
  | set members => set members
  | aggregate f => aggregate f
  | apply op operands => apply op (frameAll operands)

/-- The frames of several expressions. -/
def frameAll : List Expr → List Expr
  | [] => []
  | e :: rest => frame e :: frameAll rest
end

theorem frameAll_eq_map (list : List Expr) : frameAll list = list.map frame := by
  induction list with
  | nil => rfl
  | cons e rest ih => rw [frameAll, ih, List.map_cons]

/-- Whether no aggregate stands in the expression. -/
def AggregateFree (e : Expr) : Prop := ∀ f, aggregate f ∉ e.parts

theorem Built.lifted {known : Variable → Prop} {e : Expr} (he : e.Built known)
    (hfree : e.AggregateFree) : e.Lifted known := by
  intro p hp
  cases p with
  | var v => exact he.wellFormed _ hp
  | aggregate f => exact hfree f hp
  | const | set | apply => trivial

/-- A frame can be written wherever the expression can. -/
theorem lifted_frame {known : Variable → Prop} {e : Expr} (he : e.Lifted known) :
    e.frame.Lifted known := by
  induction e using Expr.induction with
  | const | var =>
    intro p hp
    obtain rfl := List.mem_singleton.mp hp
    trivial
  | set members => exact he
  | aggregate f _ => exact he
  | apply op operands ih =>
    rw [frame, frameAll_eq_map, lifted_apply]
    intro e' he'
    obtain ⟨e, hmem, rfl⟩ := List.mem_map.mp he'
    exact ih e hmem (lifted_apply.mp he e hmem)

end Expr

namespace Piece

variable {known : Variable → Prop} {names : Variable → String}

theorem cutAll_cons (e : Expr) {rest : List Expr} (h : rest ≠ []) :
    cutAll names (e :: rest) = cut names e ++ text "," :: cutAll names rest := by
  rw [cutAll]
  exact h

theorem cutAll_map_frame {operands : List Expr}
    (h : ∀ e ∈ operands, cut names e.frame = cut names e) :
    cutAll names (operands.map frame) = cutAll names operands := by
  induction operands with
  | nil => rfl
  | cons e rest ih =>
    have he := h e List.mem_cons_self
    have ih := ih fun e he => h e (List.mem_cons_of_mem _ he)
    cases rest with
    | nil => rw [List.map_cons, List.map_nil, cutAll, cutAll, he]
    | cons e' rest =>
      have hne : (e' :: rest).map frame ≠ [] := List.cons_ne_nil _ _
      rw [List.map_cons, cutAll_cons _ hne, he, ih, cutAll_cons _ (List.cons_ne_nil e' rest)]

/-- Blanking leaves the pieces as they are. -/
theorem cut_frame (e : Expr) : cut names e.frame = cut names e := by
  induction e using Expr.induction with
  | const | var | set => rfl
  | aggregate f _ => rfl
  | apply op operands ih => rw [frame, frameAll_eq_map, cut, cut, cutAll_map_frame ih]

theorem ofExpr_frame (e : Expr) : ofExpr names e.frame = ofExpr names e := by
  rw [ofExpr, ofExpr, cut_frame]

theorem leavesOf_map_frame {operands : List Expr}
    (h : ∀ e ∈ operands, leaves e.frame = List.replicate (leaves e).length (.integer 0)) :
    leavesOf (operands.map frame) =
      List.replicate (leavesOf operands).length (.integer 0) := by
  induction operands with
  | nil => rfl
  | cons e rest ih =>
    rw [List.map_cons, leavesOf, leavesOf, h e List.mem_cons_self,
      ih fun e he => h e (List.mem_cons_of_mem _ he), List.length_append,
      List.replicate_append_replicate]

theorem leaves_frame (e : Expr) :
    leaves e.frame = List.replicate (leaves e).length (.integer 0) := by
  induction e using Expr.induction with
  | const | var | set => rfl
  | aggregate f _ => rfl
  | apply op operands ih => rw [frame, frameAll_eq_map, leaves, leaves, leavesOf_map_frame ih]

theorem length_leaves_of_ofExpr_eq {e e' : Expr} (h : ofExpr names e = ofExpr names e') :
    (leaves e).length = (leaves e').length := by
  rw [← slotCount_ofExpr names, h, slotCount_ofExpr names]

/-- The pieces of a predicate tell all of it but its leaves. -/
theorem ofExpr_eq_iff_frame (h : Telling known names) {e e' : Expr} (he : e.Lifted known)
    (he' : e'.Lifted known) : ofExpr names e = ofExpr names e' ↔ e.frame = e'.frame := by
  constructor
  · intro hpieces
    refine render_injective h (lifted_frame he) (lifted_frame he') (String.toList_inj.mp ?_)
    calc (e.frame.render names).toList
        = assemble (ofExpr names e) ((leaves e.frame).map (leafChars names)) := by
          rw [← assemble_ofExpr, ofExpr_frame]
      _ = assemble (ofExpr names e') ((leaves e'.frame).map (leafChars names)) := by
          rw [hpieces, leaves_frame, leaves_frame, length_leaves_of_ofExpr_eq hpieces]
      _ = (e'.frame.render names).toList := by rw [← assemble_ofExpr, ofExpr_frame]
  · intro hframe
    rw [← ofExpr_frame, hframe, ofExpr_frame]

/-- The leaves are what a frame leaves out. -/
theorem eq_of_frame_of_leaves (h : Telling known names) {e e' : Expr} (he : e.Lifted known)
    (he' : e'.Lifted known) (hframe : e.frame = e'.frame) (hleaves : leaves e = leaves e') :
    e = e' := by
  refine render_injective h he he' (String.toList_inj.mp ?_)
  rw [← assemble_ofExpr, (ofExpr_eq_iff_frame h he he').mpr hframe, hleaves, assemble_ofExpr]

end Piece

/-- The functional notation is unambiguous: over the variables of a store, the text of an
expression without aggregates tells the expression, and its pieces tell everything but what
its leaves are, so in particular how many leaves it has. -/
theorem Store.Built.notation_unambiguous {s : Store} (hs : s.Built) {e e' : Expr}
    (he : e.Built s.Declares) (he' : e'.Built s.Declares) (hfree : e.AggregateFree)
    (hfree' : e'.AggregateFree) :
    (e.render s.nameOf = e'.render s.nameOf ↔ e = e') ∧
      (Piece.ofExpr s.nameOf e = Piece.ofExpr s.nameOf e' ↔ e.frame = e'.frame) ∧
      (e.frame = e'.frame → (Piece.leaves e).length = (Piece.leaves e').length) ∧
      (e.frame = e'.frame → Piece.leaves e = Piece.leaves e' → e = e') := by
  have hlifted := he.lifted hfree
  have hlifted' := he'.lifted hfree'
  have hpieces := Piece.ofExpr_eq_iff_frame hs.telling hlifted hlifted'
  refine ⟨⟨render_injective hs.telling hlifted hlifted', congrArg _⟩, hpieces, fun hframe => ?_,
    Piece.eq_of_frame_of_leaves hs.telling hlifted hlifted'⟩
  exact Piece.length_leaves_of_ofExpr_eq (hpieces.mpr hframe)

namespace Row

/-- A cell is less than a bound. -/
def less (index : Nat) (bound : Int) : Expr := .apply .lt [cell index, .const bound]

theorem declares_cell {index : Nat} (h : index < 3) : store.Declares ⟨0, index⟩ := by
  have hmodel : store.model = 0 := by cbv
  have hsize : store.infos.size = 3 := by cbv
  exact ⟨hmodel.symm, hsize ▸ h⟩

theorem built_less {known : Variable → Prop} {index : Nat} (hindex : known ⟨0, index⟩) {bound : Int}
    (hbound : Bounded.Fits bound) : (less index bound).Built known := by
  refine .apply (fun e he => ?_) (rfl : Expr.applyChecked .lt [cell index, .const bound] = _)
  rcases List.mem_pair.mp he with rfl | rfl
  · exact .var hindex
  · exact .const hbound

theorem aggregateFree_less (index : Nat) (bound : Int) : (less index bound).AggregateFree := by
  intro f hf
  simp [less, cell, parts_apply, parts] at hf

/-- Two comparisons in different cells with different bounds have the pieces of one template,
and different texts. -/
theorem pieces_less :
    (less 0 3).Built store.Declares ∧ (less 1 (-3)).Built store.Declares ∧
      Piece.ofExpr store.nameOf (less 0 3) = Piece.ofExpr store.nameOf (less 1 (-3)) ∧
      (less 0 3).render store.nameOf ≠ (less 1 (-3)).render store.nameOf := by
  have hfirst : (less 0 3).Built store.Declares :=
    built_less (declares_cell (by decide)) (by decide)
  have hsecond : (less 1 (-3)).Built store.Declares :=
    built_less (declares_cell (by decide)) (by decide)
  obtain ⟨htext, hpieces, -⟩ := built_store.notation_unambiguous hfirst hsecond
    (aggregateFree_less 0 3) (aggregateFree_less 1 (-3))
  exact ⟨hfirst, hsecond, hpieces.mpr rfl, fun h => absurd (htext.mp h) (by decide)⟩

end Row

end CspModel
