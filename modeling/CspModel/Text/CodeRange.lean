/-! # Classes of characters

A class of characters is a list of ranges of code points, each with both ends
included.
-/
namespace CspModel
namespace Text

/-- Whether the character is in one of the ranges. -/
def inRanges (ranges : List (Nat × Nat)) (c : Char) : Bool :=
  ranges.any fun (first, last) => first ≤ c.toNat && c.toNat ≤ last

theorem inRanges_iff {ranges : List (Nat × Nat)} {c : Char} :
    inRanges ranges c = true ↔ ∃ r ∈ ranges, r.1 ≤ c.toNat ∧ c.toNat ≤ r.2 := by
  simp [inRanges, List.any_eq_true]

end Text
end CspModel
