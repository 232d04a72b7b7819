/-! # Strictly ascending lists

A finite set of ordered values is kept as the strictly ascending list of its
elements.  `ofList` sorts a list and keeps one of every run of equal elements,
so the result depends only on which values occur in the list.
-/
namespace CspModel
namespace Ascending

variable {α : Type}

/-- Puts an element in front of a list unless the list already begins with it. -/
def consNew [DecidableEq α] (a : α) : List α → List α
  | [] => [a]
  | b :: rest => if a = b then b :: rest else a :: b :: rest

/-- Keeps one of every run of equal neighbours. -/
def dropRepeats [DecidableEq α] (list : List α) : List α := list.foldr consNew []

/-- The elements of a list in ascending order, each once. -/
def ofList [DecidableEq α] [Ord α] (list : List α) : List α :=
  dropRepeats (list.mergeSort fun a b => (compare a b).isLE)

theorem mem_consNew [DecidableEq α] {a b : α} {list : List α} :
    b ∈ consNew a list ↔ b = a ∨ b ∈ list := by
  cases list with
  | nil => simp [consNew]
  | cons c rest =>
    by_cases h : a = c
    · subst h
      simp [consNew]
    · simp [consNew, h]

theorem mem_dropRepeats [DecidableEq α] {b : α} {list : List α} :
    b ∈ dropRepeats list ↔ b ∈ list := by
  unfold dropRepeats
  induction list with
  | nil => simp
  | cons a rest ih => rw [List.foldr_cons, mem_consNew, ih, List.mem_cons]

/-- Sorting and dropping repeats changes no membership. -/
theorem mem_ofList [DecidableEq α] [Ord α] {b : α} {list : List α} :
    b ∈ ofList list ↔ b ∈ list := by
  unfold ofList
  rw [mem_dropRepeats, List.mem_mergeSort]

/-! ### The order

The lists ascend for every order in which only equal elements compare as equal.
-/

section
variable [Ord α] [Std.TransOrd α]

theorem pairwise_dropRepeats [DecidableEq α] [Std.LawfulEqOrd α] {list : List α}
    (h : list.Pairwise fun a b => (compare a b).isLE) :
    (dropRepeats list).Pairwise fun a b => compare a b = .lt := by
  unfold dropRepeats
  induction h with
  | nil => exact .nil
  | @cons a rest hle _ ih =>
    rw [List.foldr_cons]
    have hle : ∀ b ∈ rest.foldr consNew [], (compare a b).isLE := fun b hb =>
      hle b (mem_dropRepeats.mp hb)
    cases hrest : rest.foldr consNew [] with
    | nil => exact List.pairwise_singleton _ _
    | cons b others =>
      rw [hrest] at ih hle
      by_cases hab : a = b
      · rwa [consNew, if_pos hab]
      · rw [consNew, if_neg hab]
        have hlt : compare a b = .lt := Ordering.isLE_iff_eq_lt_or_eq_eq.mp
          (hle b List.mem_cons_self) |>.resolve_right fun heq =>
            hab (Std.LawfulEqOrd.eq_of_compare heq)
        refine ih.cons fun c hc => ?_
        rcases List.mem_cons.mp hc with rfl | hc
        · exact hlt
        · exact Std.TransCmp.lt_trans hlt (List.rel_of_pairwise_cons ih hc)

/-- The list of some elements ascends strictly. -/
theorem pairwise_compare_ofList [DecidableEq α] [Std.LawfulEqOrd α] (list : List α) :
    (ofList list).Pairwise fun a b => compare a b = .lt := by
  refine pairwise_dropRepeats (List.pairwise_mergeSort ?_ ?_ list)
  · exact fun a b c hab hbc => Std.TransCmp.isLE_trans hab hbc
  · intro a b
    have hswap : compare b a = (compare a b).swap := Std.OrientedCmp.eq_swap
    rw [hswap]
    cases compare a b <;> rfl

end

/-- The list of some integers ascends strictly. -/
theorem pairwise_ofList (list : List Int) : (ofList list).Pairwise (· < ·) :=
  (pairwise_compare_ofList list).imp Int.compare_eq_lt.mp

end Ascending
end CspModel
