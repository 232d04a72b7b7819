/-! # Integers of a bounded range

Every value a model speaks about — a constant, a bound of a domain, a
coefficient — lies in the range that a signed integer of 64 bits can hold.  The
library computes with unbounded integers and says explicitly where the range
matters: an operation is either `checked`, and has no result outside the range,
or it `saturate`s, and stops at the nearer end.  In a domain the two ends of the
range stand for minus and plus infinity.
-/
namespace CspModel
namespace Bounded

/-- The smallest value; as the lower end of an interval it means no bound. -/
def lowest : Int := -9223372036854775808

/-- The largest value; as the upper end of an interval it means no bound. -/
def highest : Int := 9223372036854775807

/-- The values within the range. -/
def Fits (n : Int) : Prop := lowest ≤ n ∧ n ≤ highest

instance (n : Int) : Decidable (Fits n) :=
  inferInstanceAs (Decidable (lowest ≤ n ∧ n ≤ highest))

/-- The value itself when it is within the range. -/
def checked (n : Int) : Option Int := if Fits n then some n else none

/-- The value within the range that is closest to `n`. -/
def saturate (n : Int) : Int := max lowest (min n highest)

theorem checked_eq_some_iff {n m : Int} : checked n = some m ↔ n = m ∧ Fits m := by
  unfold checked
  split
  · rename_i h
    constructor
    · intro hm
      cases hm
      exact ⟨rfl, h⟩
    · rintro ⟨rfl, _⟩
      rfl
  · rename_i h
    constructor
    · intro hm
      cases hm
    · rintro ⟨rfl, hm⟩
      exact absurd hm h

theorem saturate_fits (n : Int) : Fits (saturate n) := by
  unfold Fits saturate lowest highest
  omega

theorem saturate_of_fits {n : Int} (h : Fits n) : saturate n = n := by
  unfold Fits at h
  unfold saturate
  omega

/-- The power `base ^ exponent` when it is within the range.  A base whose
magnitude is at least two leaves the range at the exponent 64, so larger
exponents are only computed for the bases −1, 0 and 1. -/
def power? (base : Int) (exponent : Nat) : Option Int :=
  if base = 0 then some (if exponent = 0 then 1 else 0)
  else if base = 1 then some 1
  else if base = -1 then some (if exponent % 2 = 0 then 1 else -1)
  else if exponent < 64 then checked (Int.pow base exponent)
  else none

end Bounded
end CspModel
