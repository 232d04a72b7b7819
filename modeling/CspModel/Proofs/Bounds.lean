import CspModel.Auxiliary.Values
import Mathlib

/-! # How far the bounds of an operator reach

When there are too many combinations to enumerate, an operator is computed on the
bounds of its operands.  The operands then lie in a box, the first from `a` to `b`
and the second from `c` to `d`, and the bounds are meant to enclose every value the
operator has in the box.  They do for all operators but three.

* A quotient of the lowest integer by −1 leaves the range.  It is left out among the
  quotients of the bounds, although the quotients next to it in the box stay in the
  range and lie beyond the others.
* The magnitude of the lowest divisor does not fit and is taken to be one too small.
* A power is bounded by a magnitude, which does not fit for the lowest integer; and
  the greatest exponent bounds no power of zero, as `0 ^ 0` exceeds them all.

`Values.Enclosed` is the exact condition on the box (`enclosed_iff`).
-/
namespace CspModel

open Bounded

theorem lowest_eq : lowest = -9223372036854775808 := rfl

theorem highest_eq : highest = 9223372036854775807 := rfl

theorem fits_iff {n : Int} : Fits n ↔ -9223372036854775808 ≤ n ∧ n ≤ 9223372036854775807 := Iff.rfl

theorem saturate_eq (n : Int) :
    saturate n = max (-9223372036854775808) (min n 9223372036854775807) := rfl

theorem saturate_le {n v : Int} (h : n ≤ v) (hv : Fits v) : saturate n ≤ v := by
  rw [fits_iff] at hv
  rw [saturate_eq]
  omega

theorem le_saturate {n v : Int} (h : v ≤ n) (hv : Fits v) : v ≤ saturate n := by
  rw [fits_iff] at hv
  rw [saturate_eq]
  omega

/-! ### Membership -/

namespace Values

/-- Whether the set holds the value. -/
def Contains : Values → Int → Prop
  | finite values, n => n ∈ values
  | bounds lower upper, n => lower ≤ n ∧ n ≤ upper

theorem contains_bounds {lower upper n : Int} :
    (bounds lower upper).Contains n ↔ lower ≤ n ∧ n ≤ upper := Iff.rfl

/-- Some results enclose what lies between two of them. -/
theorem contains_hull {results : List Int} {r r' v : Int} (hr : r ∈ results) (hrv : r ≤ v)
    (hr' : r' ∈ results) (hvr : v ≤ r') : (hull results).Contains v := by
  obtain ⟨l, hl⟩ := Option.isSome_iff_exists.mp
    (List.isSome_min?_of_ne_nil (List.ne_nil_of_mem hr))
  obtain ⟨u, hu⟩ := Option.isSome_iff_exists.mp
    (List.isSome_max?_of_ne_nil (List.ne_nil_of_mem hr))
  rw [hull, hl, hu, contains_bounds]
  have hlr := (List.min?_eq_some_iff.mp hl).2 r hr
  have hru := (List.max?_eq_some_iff.mp hu).2 r' hr'
  omega

/-- What exceeds all results is not enclosed. -/
theorem not_contains_hull {results : List Int} {v : Int} (hne : results ≠ [])
    (h : ∀ r ∈ results, r < v) : ¬(hull results).Contains v := by
  obtain ⟨l, hl⟩ := Option.isSome_iff_exists.mp (List.isSome_min?_of_ne_nil hne)
  obtain ⟨u, hu⟩ := Option.isSome_iff_exists.mp (List.isSome_max?_of_ne_nil hne)
  rw [hull, hl, hu, contains_bounds]
  have := h u (List.max?_eq_some_iff.mp hu).1
  omega

/-- Bounds of results within the range are within the range. -/
theorem hull_fits {results : List Int} (h : ∀ r ∈ results, Fits r) :
    ∃ l u, hull results = bounds l u ∧ Fits l ∧ Fits u := by
  unfold hull
  split
  · rename_i l u hl hu
    exact ⟨l, u, rfl, h l (List.min?_eq_some_iff.mp hl).1, h u (List.max?_eq_some_iff.mp hu).1⟩
  · exact ⟨lowest, highest, rfl, by decide, by decide⟩

/-! ### Products -/

/-- A product is at least the product with a bound of its first factor. -/
theorem exists_mul_le {a b x : Int} (hx : a ≤ x ∧ x ≤ b) (y : Int) :
    a * y ≤ x * y ∨ b * y ≤ x * y := by
  rcases Int.le_total 0 y with hy | hy
  · exact .inl (Int.mul_le_mul_of_nonneg_right hx.1 hy)
  · exact .inr (Int.mul_le_mul_of_nonpos_right hx.2 hy)

/-- A product is at least the product of some bounds of its factors. -/
theorem exists_corner_le {a b c d x y : Int} (hx : a ≤ x ∧ x ≤ b) (hy : c ≤ y ∧ y ≤ d) :
    ∃ r ∈ [a * c, a * d, b * c, b * d], r ≤ x * y := by
  have hleft := exists_mul_le hy a
  have hright := exists_mul_le hy b
  rw [Int.mul_comm c, Int.mul_comm d, Int.mul_comm y] at hleft hright
  rcases exists_mul_le hx y with hfirst | hfirst
  · rcases hleft with h | h
    · exact ⟨a * c, by simp, by omega⟩
    · exact ⟨a * d, by simp, by omega⟩
  · rcases hright with h | h
    · exact ⟨b * c, by simp, by omega⟩
    · exact ⟨b * d, by simp, by omega⟩

theorem exists_le_corner {a b c d x y : Int} (hx : a ≤ x ∧ x ≤ b) (hy : c ≤ y ∧ y ≤ d) :
    ∃ r ∈ [a * c, a * d, b * c, b * d], x * y ≤ r := by
  obtain ⟨r, hr, hle⟩ := exists_corner_le (a := -b) (b := -a) (x := -x) ⟨by omega, by omega⟩ hy
  simp only [Int.neg_mul] at hr hle
  refine ⟨-r, ?_, by omega⟩
  simp only [List.mem_cons, List.not_mem_nil, or_false] at hr ⊢
  omega

theorem contains_productBounds {a b c d x y : Int} (hx : a ≤ x ∧ x ≤ b) (hy : c ≤ y ∧ y ≤ d)
    (hv : Fits (x * y)) : (productBounds a b c d).Contains (x * y) := by
  unfold productBounds
  split
  · rename_i results hresults
    have hsame : results = [a * c, a * d, b * c, b * d] := by
      simp only [List.mapM_cons, List.mapM_nil, Option.bind_eq_bind, Option.bind_eq_some_iff,
        checked_eq_some_iff] at hresults
      grind
    obtain ⟨r, hr, hrv⟩ := exists_corner_le hx hy
    obtain ⟨r', hr', hvr⟩ := exists_le_corner hx hy
    rw [hsame]
    exact contains_hull hr hrv hr' hvr
  · exact hv

/-! ### Quotients -/

theorem natAbs_tdiv_le (n : Int) {m : Int} {k : Nat} (hk : 0 < k) (hm : k ≤ m.natAbs) :
    (n.tdiv m).natAbs ≤ n.natAbs / k := by
  rw [Int.natAbs_tdiv]
  exact Nat.div_le_div_left hm hk

/-- Only the quotient of the lowest integer by −1 leaves the range. -/
theorem tdiv_fits {n m : Int} (hn : Fits n) (h : n ≠ lowest ∨ m ≠ -1) : Fits (n.tdiv m) := by
  rw [lowest_eq] at h
  rw [fits_iff] at hn ⊢
  by_cases hm : 2 ≤ m.natAbs
  · have := natAbs_tdiv_le n (by decide) hm
    omega
  · rcases show m = 0 ∨ m = 1 ∨ m = -1 by omega with rfl | rfl | rfl
    · rw [Int.tdiv_zero]
      omega
    · rw [Int.tdiv_one]
      omega
    · rw [Int.tdiv_neg, Int.tdiv_one]
      omega

/-- A divisor at which a quotient can be extreme. -/
def ExtremeDivisor (c d m : Int) : Prop :=
  (m = c ∨ m = d ∨ m = -1 ∨ m = 1) ∧ m ≠ 0 ∧ c ≤ m ∧ m ≤ d

/-- A quotient of a bound of the dividend that fits. -/
def ExtremeQuotient (a b c d r : Int) : Prop :=
  ∃ n m, (n = a ∨ n = b) ∧ ExtremeDivisor c d m ∧ n.tdiv m = r ∧ Fits r

theorem quotientBounds_eq_hull (a b c d : Int) :
    ∃ results, quotientBounds a b c d = hull results ∧
      ∀ r, r ∈ results ↔ ExtremeQuotient a b c d r := by
  refine ⟨_, rfl, fun r => ?_⟩
  simp only [List.mem_flatMap, List.mem_filterMap, List.mem_filter, List.mem_cons,
    List.not_mem_nil, or_false, checked_eq_some_iff, ExtremeQuotient, ExtremeDivisor]
  grind

/-- The quotient by a divisor between two positive ones is at least one of theirs. -/
theorem exists_tdiv_le_tdiv (n : Int) {p q y : Int} (hp : 0 < p) (hpy : p ≤ y) (hyq : y ≤ q) :
    n.tdiv p ≤ n.tdiv y ∨ n.tdiv q ≤ n.tdiv y := by
  have hle : ∀ {k m : Int}, 0 < k → k ≤ m → n.natAbs / m.natAbs ≤ n.natAbs / k.natAbs :=
    fun hk hkm => Nat.div_le_div_left (by omega) (by omega)
  have hnear := Int.natAbs_tdiv n p
  have hmiddle := Int.natAbs_tdiv n y
  have hfar := Int.natAbs_tdiv n q
  rw [show ∀ i j : Nat, i.div j = i / j from fun _ _ => rfl] at hnear hmiddle hfar
  rcases Int.le_total 0 n with hn | hn
  · have := Int.tdiv_nonneg hn (show 0 ≤ q by omega)
    have := Int.tdiv_nonneg hn (show 0 ≤ y by omega)
    have := hle (show 0 < y by omega) hyq
    omega
  · have := Int.tdiv_nonneg (show 0 ≤ -n by omega) (show 0 ≤ p by omega)
    have := Int.tdiv_nonneg (show 0 ≤ -n by omega) (show 0 ≤ y by omega)
    rw [Int.neg_tdiv] at *
    have := hle hp hpy
    omega

section
variable {a b c d x y : Int}

theorem exists_tdiv_le_of_pos (hx : a ≤ x) (hy : c ≤ y ∧ y ≤ d) (hpos : 0 < y) :
    ∃ m, ExtremeDivisor c d m ∧ 0 < m ∧ a.tdiv m ≤ x.tdiv y := by
  have hdividend := Int.tdiv_le_tdiv hpos hx
  rcases exists_tdiv_le_tdiv a (p := max c 1) (q := d) (by omega) (by omega) hy.2 with h | h
  · exact ⟨max c 1, ⟨by omega, by omega, by omega, by omega⟩, by omega, by omega⟩
  · exact ⟨d, ⟨by omega, by omega, by omega, by omega⟩, by omega, by omega⟩

theorem exists_le_tdiv_of_pos (hx : x ≤ b) (hy : c ≤ y ∧ y ≤ d) (hpos : 0 < y) :
    ∃ m, ExtremeDivisor c d m ∧ 0 < m ∧ x.tdiv y ≤ b.tdiv m := by
  obtain ⟨m, hm, hpos, hle⟩ := exists_tdiv_le_of_pos (a := -b) (x := -x) (by omega) hy hpos
  rw [Int.neg_tdiv, Int.neg_tdiv] at hle
  exact ⟨m, hm, hpos, by omega⟩

theorem exists_tdiv_le_of_neg (hx : x ≤ b) (hy : c ≤ y ∧ y ≤ d) (hneg : y < 0) :
    ∃ m, ExtremeDivisor c d m ∧ m < 0 ∧ b.tdiv m ≤ x.tdiv y := by
  obtain ⟨m, hm, hpos, hle⟩ := exists_tdiv_le_of_pos (a := -b) (x := -x) (c := -d) (y := -y)
    (d := -c) (by omega) ⟨by omega, by omega⟩ (by omega)
  obtain ⟨hm, hm0, hcm, hmd⟩ := hm
  refine ⟨-m, ⟨by omega, by omega, by omega, by omega⟩, by omega, ?_⟩
  rw [Int.neg_tdiv_neg, Int.neg_tdiv] at hle
  rwa [Int.tdiv_neg]

theorem exists_le_tdiv_of_neg (hx : a ≤ x) (hy : c ≤ y ∧ y ≤ d) (hneg : y < 0) :
    ∃ m, ExtremeDivisor c d m ∧ m < 0 ∧ x.tdiv y ≤ a.tdiv m := by
  obtain ⟨m, hm, hneg, hle⟩ := exists_tdiv_le_of_neg (b := -a) (x := -x) (by omega) hy hneg
  rw [Int.neg_tdiv, Int.neg_tdiv] at hle
  exact ⟨m, hm, hneg, by omega⟩
end

/-- The condition on the box for its quotients to be enclosed: if the quotient of the
lowest integer by −1 is left out, then another quotient of bounds makes up for it. -/
def QuotientsEnclosed (a b c d : Int) : Prop :=
  a = lowest → c ≤ -1 → -1 ≤ d →
    b = lowest + 1 ∨ (b = highest ∧ 1 ≤ d) ∨ (b = lowest ∧ -2 ≤ c)

section
variable {a b c d x y : Int}

/-- What lies between two quotients of bounds is enclosed, if both are representable. -/
theorem contains_quotientBounds_of_between (ha : Fits a) (hb : Fits b) {n m p q v : Int}
    (hn : n = a ∨ n = b) (hm : ExtremeDivisor c d m) (hnm : n ≠ lowest ∨ m ≠ -1)
    (hle : n.tdiv m ≤ v)
    (hp : p = a ∨ p = b) (hq : ExtremeDivisor c d q) (hpq : p ≠ lowest ∨ q ≠ -1)
    (hle' : v ≤ p.tdiv q) : (quotientBounds a b c d).Contains v := by
  obtain ⟨results, hresults, hmem⟩ := quotientBounds_eq_hull a b c d
  have hfits : ∀ {n : Int}, n = a ∨ n = b → Fits n := by
    rintro n (rfl | rfl) <;> assumption
  rw [hresults]
  exact contains_hull ((hmem _).mpr ⟨n, m, hn, hm, rfl, tdiv_fits (hfits hn) hnm⟩) hle
    ((hmem _).mpr ⟨p, q, hp, hq, rfl, tdiv_fits (hfits hp) hpq⟩) hle'

/-- The box has the dividend and the divisor whose quotient is left out. -/
theorem contains_quotientBounds_of_lowest (hb : Fits b) (hx : lowest ≤ x ∧ x ≤ b)
    (hy : c ≤ y ∧ y ≤ d) (hneg : y < 0) (hd : -1 ≤ d) (hv : Fits (x.tdiv y))
    (h : QuotientsEnclosed lowest b c d) : (quotientBounds lowest b c d).Contains (x.tdiv y) := by
  have ha : Fits lowest := by decide
  have hmax : ∀ {n : Int}, n.tdiv (-1) = -n := fun {n} => by rw [Int.tdiv_neg, Int.tdiv_one]
  obtain ⟨m, hm, _, hle⟩ := exists_tdiv_le_of_neg hx.2 hy hneg
  have hvle := hv.2
  rw [highest_eq] at hvle
  rcases h rfl (by omega) hd with rfl | ⟨rfl, hd1⟩ | ⟨rfl, hc⟩
  · refine contains_quotientBounds_of_between ha hb (.inr rfl) hm (.inl (by decide)) hle
      (q := -1) (.inr rfl) ⟨by omega, by omega, by omega, hd⟩ (.inl (by decide)) ?_
    rw [hmax, lowest_eq]
    omega
  · refine contains_quotientBounds_of_between ha hb (.inr rfl) hm (.inl (by decide)) hle
      (q := 1) (.inr rfl) ⟨by omega, by omega, by omega, hd1⟩ (.inl (by decide)) ?_
    rw [Int.tdiv_one, highest_eq]
    exact hvle
  · -- only the divisor −2 leaves a value, and it is the bound `c`
    obtain rfl : x = lowest := by omega
    have hy1 : y ≠ -1 := by
      rintro rfl
      rw [hmax, lowest_eq] at hvle
      omega
    have hyc : ExtremeDivisor c d y := ⟨by omega, by omega, by omega, by omega⟩
    exact contains_quotientBounds_of_between ha hb (.inl rfl) hyc (.inr hy1) (Int.le_refl _)
      (.inl rfl) hyc (.inr hy1) (Int.le_refl _)

theorem contains_quotientBounds (ha : Fits a) (hb : Fits b) (hx : a ≤ x ∧ x ≤ b)
    (hy : c ≤ y ∧ y ≤ d) (hy0 : y ≠ 0) (hv : Fits (x.tdiv y)) (h : QuotientsEnclosed a b c d) :
    (quotientBounds a b c d).Contains (x.tdiv y) := by
  rcases Int.lt_or_gt_of_ne hy0 with hneg | hpos
  · by_cases hlow : a = lowest ∧ -1 ≤ d
    · obtain ⟨rfl, hd⟩ := hlow
      exact contains_quotientBounds_of_lowest hb hx hy hneg hd hv h
    · obtain ⟨m, hm, _, hle⟩ := exists_tdiv_le_of_neg hx.2 hy hneg
      obtain ⟨m', hm', _, hle'⟩ := exists_le_tdiv_of_neg hx.1 hy hneg
      have hne : ∀ {n m : Int}, a ≤ n → m ≤ d → n ≠ lowest ∨ m ≠ -1 := fun {n m} hn hm => by
        have := ha.1
        omega
      exact contains_quotientBounds_of_between ha hb (.inr rfl) hm (hne (by omega) hm.2.2.2) hle
        (.inl rfl) hm' (hne (by omega) hm'.2.2.2) hle'
  · obtain ⟨m, hm, hm0, hle⟩ := exists_tdiv_le_of_pos hx.1 hy hpos
    obtain ⟨m', hm', hm0', hle'⟩ := exists_le_tdiv_of_pos hx.2 hy hpos
    exact contains_quotientBounds_of_between ha hb (.inl rfl) hm (.inr (by omega)) hle
      (.inr rfl) hm' (.inr (by omega)) hle'
end

/-- A box that violates the condition has a quotient that is not enclosed. -/
theorem exists_quotient_not_contained {a b c d : Int} (hb : Fits b)
    (h : ¬QuotientsEnclosed a b c d) : ∃ x y, (a ≤ x ∧ x ≤ b) ∧ (c ≤ y ∧ y ≤ d) ∧ y ≠ 0 ∧
      Fits (x.tdiv y) ∧ ¬(quotientBounds a b c d).Contains (x.tdiv y) := by
  simp only [QuotientsEnclosed, lowest_eq, highest_eq, Classical.not_imp, not_or] at h
  obtain ⟨rfl, hc, hd, hb1, hb2, hb3⟩ := h
  rw [fits_iff] at hb
  obtain ⟨results, hresults, hmem⟩ := quotientBounds_eq_hull (-9223372036854775808) b c d
  rw [hresults]
  by_cases hbl : b = -9223372036854775808
  · -- the quotient by −2 exceeds the one by `c`, and those by positive divisors are negative
    subst hbl
    refine ⟨-9223372036854775808, -2, by omega, by omega, by decide, by decide,
      not_contains_hull (List.ne_nil_of_mem ((hmem _).mpr ⟨_, c, .inl rfl,
        ⟨by omega, by omega, by omega, by omega⟩, rfl, tdiv_fits (by decide) (.inr (by omega))⟩))
        fun r hr => ?_⟩
    obtain ⟨n, m, hn, ⟨hm, hm0, hcm, hmd⟩, rfl, hfits⟩ := (hmem r).mp hr
    obtain rfl : n = -9223372036854775808 := by omega
    rw [show (-9223372036854775808 : Int).tdiv (-2) = 4611686018427387904 by decide]
    by_cases hm3 : 3 ≤ m.natAbs
    · have := natAbs_tdiv_le (-9223372036854775808) (by decide) hm3
      omega
    · rcases show m = -1 ∨ m = 1 ∨ m = 2 by omega with rfl | rfl | rfl
      · exact absurd hfits (by decide)
      · decide
      · decide
  · -- the successor of the lowest integer by −1 is the highest one, which no result reaches
    have hneg : b.tdiv (-1) = -b := by rw [Int.tdiv_neg, Int.tdiv_one]
    refine ⟨-9223372036854775807, -1, by omega, by omega, by decide, by decide,
      not_contains_hull (List.ne_nil_of_mem ((hmem (-b)).mpr ⟨b, -1, .inr rfl,
        ⟨by omega, by omega, hc, hd⟩, hneg, by rw [fits_iff]; omega⟩)) fun r hr => ?_⟩
    obtain ⟨n, m, hn, ⟨hm, hm0, hcm, hmd⟩, rfl, hfits⟩ := (hmem r).mp hr
    rw [show (-9223372036854775807 : Int).tdiv (-1) = 9223372036854775807 by decide]
    by_cases hm2 : 2 ≤ m.natAbs
    · have := natAbs_tdiv_le n (by decide) hm2
      omega
    · rcases show m = -1 ∨ m = 1 by omega with rfl | rfl
      · rcases hn with rfl | rfl
        · exact absurd hfits (by decide)
        · omega
      · rw [Int.tdiv_one]
        omega

/-! ### Remainders -/

/-- A remainder is smaller in magnitude than the divisor and has the sign of the dividend. -/
theorem tmod_spec (x : Int) {y : Int} (hy : y ≠ 0) :
    (x.tmod y).natAbs = x.natAbs % y.natAbs ∧ (x.tmod y).natAbs < y.natAbs ∧
      (0 ≤ x → 0 ≤ x.tmod y) ∧ (x ≤ 0 → x.tmod y ≤ 0) := by
  have hmod := Int.natAbs_tmod x y
  have hlt := Nat.mod_lt x.natAbs (show y.natAbs > 0 by omega)
  refine ⟨hmod, by omega, Int.tmod_nonneg y, fun hx => ?_⟩
  have := Int.tmod_nonneg y (show 0 ≤ -x by omega)
  rw [Int.neg_tmod] at this
  omega

/-- The condition on the box for its remainders to be enclosed: only the lowest divisor
leaves a remainder of the greatest magnitude, and only if the dividend has it. -/
def RemaindersEnclosed (a b c : Int) : Prop :=
  c = lowest → b ≠ highest ∧ (a ≤ -highest → b < -highest)

theorem contains_remainderBounds {a b c d x y : Int} (ha : Fits a) (hb : Fits b) (hc : Fits c)
    (hd : Fits d) (hx : a ≤ x ∧ x ≤ b) (hy : c ≤ y ∧ y ≤ d) (hy0 : y ≠ 0)
    (h : RemaindersEnclosed a b c) : (remainderBounds a b c d).Contains (x.tmod y) := by
  obtain ⟨hmod, hlt, hnonneg, hnonpos⟩ := tmod_spec x hy0
  rw [RemaindersEnclosed, lowest_eq, highest_eq] at h
  rw [fits_iff] at ha hb hc hd
  rw [remainderBounds, contains_bounds]
  have hlargest : (x.tmod y).natAbs ≤
      saturate (max (saturate (c.natAbs : Int)) (saturate (d.natAbs : Int)) - 1) := by
    simp only [saturate_eq]
    by_cases hlow : y = -9223372036854775808
    · subst hlow
      rw [show (-9223372036854775808 : Int).natAbs = 9223372036854775808 from rfl] at hmod
      omega
    · omega
  constructor
  · split <;> omega
  · split <;> omega

theorem exists_remainder_not_contained {a b c d : Int} (ha : Fits a) (hb : Fits b) (hd : Fits d)
    (hab : a ≤ b) (hcd : c ≤ d) (h : ¬RemaindersEnclosed a b c) :
    ∃ x y, (a ≤ x ∧ x ≤ b) ∧ (c ≤ y ∧ y ≤ d) ∧ y = lowest ∧
      ¬(remainderBounds a b c d).Contains (x.tmod y) := by
  simp only [RemaindersEnclosed, lowest_eq, highest_eq, Classical.not_imp, Classical.not_and_iff_not_or_not,
    not_not, Int.not_lt] at h
  obtain ⟨rfl, h⟩ := h
  rw [fits_iff] at ha hb hd
  have hlargest : saturate (max (saturate ((-9223372036854775808 : Int).natAbs : Int))
      (saturate (d.natAbs : Int)) - 1) = 9223372036854775806 := by
    simp only [saturate_eq]
    omega
  rw [remainderBounds, hlargest]
  rcases h with rfl | ⟨hlow, hhigh⟩
  · refine ⟨9223372036854775807, -9223372036854775808, ⟨hab, by omega⟩, ⟨by omega, hcd⟩, rfl, ?_⟩
    rw [contains_bounds, show (9223372036854775807 : Int).tmod (-9223372036854775808) =
      9223372036854775807 by decide]
    omega
  · refine ⟨-9223372036854775807, -9223372036854775808, ⟨hlow, hhigh⟩, ⟨by omega, hcd⟩, rfl, ?_⟩
    rw [contains_bounds, show (-9223372036854775807 : Int).tmod (-9223372036854775808) =
      -9223372036854775807 by decide]
    omega

end Values

/-! ### Powers -/

theorem Bounded.power?_eq_some_iff {base v : Int} {n : Nat} :
    power? base n = some v ↔ base ^ n = v ∧ Fits v := by
  unfold power?
  split
  · rename_i h
    subst h
    rcases n with _ | n
    · simp only [if_true, Int.pow_zero, Option.some.injEq]
      exact ⟨fun h => ⟨h, h ▸ by decide⟩, And.left⟩
    · simp only [Nat.succ_ne_zero, if_false, Option.some.injEq, Int.zero_pow (Nat.succ_ne_zero n)]
      exact ⟨fun h => ⟨h, h ▸ by decide⟩, And.left⟩
  split
  · rename_i h
    subst h
    rw [Int.one_pow, Option.some.injEq]
    exact ⟨fun h => ⟨h, h ▸ by decide⟩, And.left⟩
  split
  · rename_i h
    subst h
    rcases Nat.mod_two_eq_zero_or_one n with hn | hn
    · rw [if_pos hn, Option.some.injEq, (Nat.even_iff.mpr hn).neg_one_pow]
      exact ⟨fun h => ⟨h, h ▸ by decide⟩, And.left⟩
    · rw [if_neg (by omega), Option.some.injEq, (Nat.odd_iff.mpr hn).neg_one_pow]
      exact ⟨fun h => ⟨h, h ▸ by decide⟩, And.left⟩
  split
  · exact checked_eq_some_iff
  · rename_i h0 h1 h2 hn
    refine ⟨fun h => (by cases h), fun ⟨h, hv⟩ => ?_⟩
    -- the magnitude of the power is at least that of `2 ^ 64`
    have hpow : 2 ^ 64 ≤ base.natAbs ^ n :=
      Nat.le_trans (Nat.pow_le_pow_right (by decide) (by omega))
        (Nat.pow_le_pow_left (show 2 ≤ base.natAbs by omega) n)
    rw [← Int.natAbs_pow, h] at hpow
    rw [fits_iff] at hv
    omega

namespace Values

/-- The bases and exponents whose power is the lowest integer. -/
def lowestRoots : List (Int × Int) :=
  [(-2, 63), (-8, 21), (-128, 9), (-512, 7), (-2097152, 3), (lowest, 1)]

theorem mem_lowestRoots {x : Int} {n : Nat} (h : x ^ n = lowest) :
    (x, (n : Int)) ∈ lowestRoots := by
  have habs : x.natAbs ^ n = 2 ^ 63 := by
    rw [← Int.natAbs_pow, h]
    rfl
  have hn : n ≠ 0 := by
    rintro rfl
    rw [Int.pow_zero] at h
    exact absurd h (by decide)
  obtain ⟨k, hk, hbase⟩ := (Nat.dvd_prime_pow Nat.prime_two).mp (habs ▸ dvd_pow_self x.natAbs hn)
  have hexponent : k * n = 63 := by
    rw [hbase, ← Nat.pow_mul] at habs
    exact Nat.pow_right_injective (Nat.le_refl 2) habs
  have hneg : x < 0 := by
    by_contra hx
    have hnonneg : 0 ≤ x ^ n := Int.pow_nonneg (Int.not_lt.mp hx)
    rw [h] at hnonneg
    exact absurd hnonneg (by decide)
  have hx : x = -(2 ^ k : Nat) := by omega
  have hdvd : n ∣ 63 := ⟨k, by rw [Nat.mul_comm, hexponent]⟩
  have hdivisors : ∀ n < 64, n ∣ 63 → n ∈ [1, 3, 7, 9, 21, 63] := by decide
  have hn := hdivisors n (Nat.lt_succ_of_le (Nat.le_of_dvd (by decide) hdvd)) hdvd
  have hk : k = 63 / n :=
    (Nat.div_eq_of_eq_mul_left (Nat.pos_of_dvd_of_pos hdvd (by decide)) hexponent.symm).symm
  rw [hx, hk]
  simp only [List.mem_cons, List.not_mem_nil, or_false] at hn
  rcases hn with rfl | rfl | rfl | rfl | rfl | rfl <;> decide

/-- The condition on the box for its powers to be enclosed: no power in it is the lowest
integer, and zero is not only raised to positive powers where its power is one. -/
def PowersEnclosed (a b c d : Int) : Prop :=
  ¬(a = 0 ∧ b = 0 ∧ c ≤ 0 ∧ 0 < d) ∧
    ∀ root ∈ lowestRoots, ¬(a ≤ root.1 ∧ root.1 ≤ b ∧ c ≤ root.2 ∧ root.2 ≤ d)

/-- The greatest magnitude of a power is within the range. -/
theorem powerBounds_eq (a b d : Int) :
    ∃ largest, powerBounds a b d = bounds (if 0 ≤ a then 0 else -largest) largest ∧
      0 ≤ largest ∧ largest ≤ highest ∧
      (∀ m : Nat, (m : Int) ≤ highest →
        (m : Int) ≤ max (saturate (a.natAbs : Int)) (saturate (b.natAbs : Int)) ^
          (min (max d 0) 4294967295).toNat → (m : Int) ≤ largest) := by
  refine ⟨_, rfl, ?_⟩
  generalize hbase : max (saturate (a.natAbs : Int)) (saturate (b.natAbs : Int)) = base
  generalize (min (max d 0) 4294967295).toNat = exponent
  have hnonneg : 0 ≤ base := by
    simp only [saturate_eq] at hbase
    omega
  cases hpower : power? base exponent with
  | none => exact ⟨by decide, Int.le_refl _, fun m hm _ => hm⟩
  | some largest =>
    obtain ⟨rfl, hfits⟩ := power?_eq_some_iff.mp hpower
    exact ⟨Int.pow_nonneg hnonneg, hfits.2, fun m _ hm => hm⟩

/-- The magnitude of a power other than the lowest integer is at most the greatest
magnitude of its base to the greatest exponent. -/
theorem natAbs_pow_le {a b c d x y : Int} (ha : Fits a) (hb : Fits b) (hx : a ≤ x ∧ x ≤ b)
    (hy : c ≤ y ∧ y ≤ d) (hy0 : 0 ≤ y ∧ y < 4294967296) (hfits : Fits (x ^ y.toNat))
    (hlow : x ^ y.toNat ≠ lowest) (hzero : ¬(a = 0 ∧ b = 0 ∧ c ≤ 0 ∧ 0 < d)) :
    ((x ^ y.toNat).natAbs : Int) ≤
      max (saturate (a.natAbs : Int)) (saturate (b.natAbs : Int)) ^
        (min (max d 0) 4294967295).toNat := by
  generalize hbase : max (saturate (a.natAbs : Int)) (saturate (b.natAbs : Int)) = base
  simp only [saturate_eq] at hbase
  rw [fits_iff] at ha hb
  obtain ⟨base, rfl⟩ := Int.eq_ofNat_of_zero_le (show 0 ≤ base by omega)
  have hexponent : y.toNat ≤ (min (max d 0) 4294967295).toNat := by omega
  by_cases hbase0 : base = 0
  · -- all bases are zero
    subst hbase0
    obtain rfl : x = 0 := by omega
    by_cases hyzero : y = 0
    · subst hyzero
      obtain hd : (min (max d 0) 4294967295).toNat = 0 := by omega
      rw [hd]
      decide
    · rw [Int.zero_pow (by omega)]
      exact Int.pow_nonneg (Int.le_refl 0)
  · have hle : ∀ m : Nat, m ≤ base → ((m ^ y.toNat : Nat) : Int) ≤
        (base : Int) ^ (min (max d 0) 4294967295).toNat := fun m hm => by
      rw [← Int.natCast_pow]
      exact Int.ofNat_le.mpr (Nat.le_trans (Nat.pow_le_pow_left hm _)
        (Nat.pow_le_pow_right (by omega) hexponent))
    by_cases hxbase : x.natAbs ≤ base
    · rw [Int.natAbs_pow]
      exact hle _ hxbase
    · -- the magnitude of the lowest integer is the only one that saturates
      obtain rfl : x = -9223372036854775808 := by omega
      have hyzero : y.toNat = 0 := by
        by_contra hne
        by_cases hone : y.toNat = 1
        · rw [hone, Int.pow_one] at hlow
          exact hlow rfl
        · have hlarge : (2 ^ 63) ^ 2 ≤ (-9223372036854775808 : Int).natAbs ^ y.toNat :=
            Nat.pow_le_pow_right (n := 2 ^ 63) (by decide) (by omega)
          rw [← Int.natAbs_pow] at hlarge
          rw [fits_iff] at hfits
          omega
      have hone := hle 1 (by omega)
      rw [Nat.one_pow] at hone
      rwa [hyzero, Int.pow_zero]

theorem contains_powerBounds {a b c d x y v : Int} (ha : Fits a) (hb : Fits b)
    (hx : a ≤ x ∧ x ≤ b) (hy : c ≤ y ∧ y ≤ d) (hy0 : 0 ≤ y ∧ y < 4294967296)
    (hv : power? x y.toNat = some v) (h : PowersEnclosed a b c d) :
    (powerBounds a b d).Contains v := by
  obtain ⟨hzero, hroots⟩ := h
  obtain ⟨rfl, hfits⟩ := power?_eq_some_iff.mp hv
  obtain ⟨largest, heq, hlargest, _, hbound⟩ := powerBounds_eq a b d
  rw [heq, contains_bounds]
  have hnonneg : 0 ≤ a → 0 ≤ x ^ y.toNat := fun ha => Int.pow_nonneg (by omega)
  have hlow : x ^ y.toNat ≠ lowest := by
    intro hpow
    have hmem := mem_lowestRoots hpow
    rw [Int.toNat_of_nonneg hy0.1] at hmem
    exact hroots _ hmem ⟨hx.1, hx.2, hy.1, hy.2⟩
  have hmagnitude : ((x ^ y.toNat).natAbs : Int) ≤ highest := by
    rw [fits_iff] at hfits
    rw [lowest_eq] at hlow
    rw [highest_eq]
    omega
  have hle := hbound _ hmagnitude (natAbs_pow_le ha hb hx hy hy0 hfits hlow hzero)
  split <;> omega

theorem exists_power_not_contained {a b c d : Int} (h : ¬PowersEnclosed a b c d) :
    ∃ x y v, (a ≤ x ∧ x ≤ b) ∧ (c ≤ y ∧ y ≤ d) ∧ (0 ≤ y ∧ y < 4294967296) ∧
      power? x y.toNat = some v ∧ ¬(powerBounds a b d).Contains v := by
  by_cases hzero : a = 0 ∧ b = 0 ∧ c ≤ 0 ∧ 0 < d
  · obtain ⟨rfl, rfl, hc, hd⟩ := hzero
    refine ⟨0, 0, 1, by omega, by omega, by decide, rfl, ?_⟩
    have hexponent : (min (max d 0) 4294967295).toNat ≠ 0 := by omega
    simp only [powerBounds, contains_bounds]
    rw [show max (saturate ((0 : Int).natAbs : Int)) (saturate ((0 : Int).natAbs : Int)) = 0 from rfl,
      power?, if_pos rfl, if_neg hexponent]
    decide
  · obtain ⟨root, hroot, ha, hb, hc, hd⟩ : ∃ root ∈ lowestRoots,
        a ≤ root.1 ∧ root.1 ≤ b ∧ c ≤ root.2 ∧ root.2 ≤ d := by
      simpa [PowersEnclosed, hzero] using h
    have hlow : ∀ root ∈ lowestRoots,
        (0 ≤ root.2 ∧ root.2 < 4294967296) ∧ power? root.1 root.2.toNat = some lowest := by
      decide
    obtain ⟨largest, heq, hlargest, hhighest, _⟩ := powerBounds_eq a b d
    refine ⟨root.1, root.2, lowest, ⟨ha, hb⟩, ⟨hc, hd⟩, (hlow root hroot).1,
      (hlow root hroot).2, ?_⟩
    rw [heq, contains_bounds, lowest_eq]
    rw [highest_eq] at hhighest
    split <;> omega

/-! ### All operators -/

end Values

theorem Operator.fits_of_checkedSum {total v : Int} {ns : List Int} (h : Fits total)
    (hv : checkedSum total ns = some v) : Fits v := by
  induction ns generalizing total with
  | nil =>
    cases hv
    exact h
  | cons n rest ih =>
    obtain ⟨next, hnext, hv⟩ := Option.bind_eq_some_iff.mp hv
    exact ih (checked_eq_some_iff.mp hnext).2 hv

theorem Operator.fits_of_checkedProduct {total v : Int} {ns : List Int} (h : Fits total)
    (hv : checkedProduct total ns = some v) : Fits v := by
  induction ns generalizing total with
  | nil =>
    cases hv
    exact h
  | cons n rest ih =>
    obtain ⟨next, hnext, hv⟩ := Option.bind_eq_some_iff.mp hv
    exact ih (checked_eq_some_iff.mp hnext).2 hv

theorem Operator.fits_truth (b : Bool) : Fits (truth b) := by
  cases b <;> decide

/-- Every operator stays within the range. -/
theorem Operator.fits_of_value? {op : Operator} {ns : List Int} {v : Int}
    (h : ∀ n ∈ ns, Fits n) (hv : op.value? ns = some v) : Fits v := by
  unfold Operator.value? at hv
  split at hv
  case h_1 | h_2 | h_3 | h_5 => exact (checked_eq_some_iff.mp hv).2
  case h_4 => exact fits_of_checkedSum (by decide) hv
  case h_6 => exact fits_of_checkedProduct (by decide) hv
  case h_7 =>
    obtain ⟨_, hv⟩ := Option.ite_none_left_eq_some.mp hv
    exact (checked_eq_some_iff.mp hv).2
  case h_8 a b =>
    obtain ⟨hdefined, hv⟩ := Option.ite_none_left_eq_some.mp hv
    cases hv
    obtain ⟨hmod, _, hnonneg, hnonpos⟩ := Values.tmod_spec a (not_or.mp hdefined).1
    have := Nat.mod_le a.natAbs b.natAbs
    have ha := h a (by simp)
    rw [fits_iff] at ha ⊢
    omega
  case h_9 =>
    obtain ⟨_, hv⟩ := Option.ite_none_right_eq_some.mp hv
    exact (power?_eq_some_iff.mp hv).2
  case h_10 =>
    obtain ⟨_, _, hv⟩ := Option.bind_eq_some_iff.mp hv
    exact (checked_eq_some_iff.mp hv).2
  case h_11 => exact h v (List.min?_eq_some_iff.mp hv).1
  case h_12 => exact h v (List.max?_eq_some_iff.mp hv).1
  case h_25 =>
    cases hv
    split
    · exact h _ (by simp)
    · exact h _ (by simp)
  case h_26 => cases hv
  all_goals
    cases hv
    exact fits_truth _

namespace Values

/-- The condition on the box for the bounds of an operator to enclose its values. -/
def Enclosed (op : Operator) (a b c d : Int) : Prop :=
  match op with
  | .div => QuotientsEnclosed a b c d
  | .mod => RemaindersEnclosed a b c
  | .pow => PowersEnclosed a b c d
  | _ => True

theorem contains_truth (b : Bool) : truth.Contains (Operator.truth b) := by
  cases b <;> simp [Contains, truth, Operator.truth]

section
variable {op : Operator} {a b c d : Int}

theorem contains_binaryBounds (ha : Fits a) (hb : Fits b) (hc : Fits c) (hd : Fits d)
    {x y v : Int} (hx : a ≤ x ∧ x ≤ b) (hy : c ≤ y ∧ y ≤ d) (hv : op.value? [x, y] = some v)
    (h : Enclosed op a b c d) : (binaryBounds op a b c d).Contains v := by
  cases op with
  | add =>
    simp only [Operator.value?, Operator.checkedSum, Option.bind_eq_some_iff,
      checked_eq_some_iff] at hv
    obtain ⟨_, ⟨rfl, _⟩, _, ⟨rfl, hfits⟩, hv⟩ := hv
    cases hv
    exact ⟨saturate_le (by omega) hfits, le_saturate (by omega) hfits⟩
  | sub =>
    obtain ⟨rfl, hfits⟩ := checked_eq_some_iff.mp hv
    exact ⟨saturate_le (by omega) hfits, le_saturate (by omega) hfits⟩
  | mul =>
    simp only [Operator.value?, Operator.checkedProduct, Option.bind_eq_some_iff,
      checked_eq_some_iff, Int.one_mul] at hv
    obtain ⟨_, ⟨rfl, _⟩, _, ⟨rfl, hfits⟩, hv⟩ := hv
    cases hv
    exact contains_productBounds hx hy hfits
  | div =>
    simp only [Operator.value?, Option.ite_none_left_eq_some, checked_eq_some_iff] at hv
    obtain ⟨hy0, rfl, hfits⟩ := hv
    exact contains_quotientBounds ha hb hx hy hy0 hfits h
  | mod =>
    simp only [Operator.value?, Option.ite_none_left_eq_some, Option.some.injEq, not_or] at hv
    obtain ⟨⟨hy0, _⟩, rfl⟩ := hv
    exact contains_remainderBounds ha hb hc hd hx hy hy0 h
  | pow =>
    simp only [Operator.value?, Option.ite_none_right_eq_some] at hv
    obtain ⟨hy0, hv⟩ := hv
    exact contains_powerBounds ha hb hx hy hy0 hv h
  | dist =>
    simp only [Operator.value?, Option.bind_eq_some_iff, checked_eq_some_iff] at hv
    obtain ⟨_, ⟨rfl, _⟩, rfl, hfits⟩ := hv
    rw [binaryBounds, contains_bounds, saturate_eq, saturate_eq]
    rw [fits_iff] at hfits
    omega
  | min =>
    obtain rfl : min x y = v := Option.some.inj hv
    rw [binaryBounds, contains_bounds]
    omega
  | max =>
    obtain rfl : max x y = v := Option.some.inj hv
    rw [binaryBounds, contains_bounds]
    omega
  | lt | le | ge | gt | ne | eq | and | or | xor | iff | imp =>
    obtain rfl := Option.some.inj hv
    exact contains_truth _
  | neg | abs | sqr | isIn | notIn | not | ifThenElse => cases hv

/-- The bounds of an operator enclose its values in the box if and only if the condition
holds. -/
theorem enclosed_iff (ha : Fits a) (hb : Fits b) (hc : Fits c) (hd : Fits d) (hab : a ≤ b)
    (hcd : c ≤ d) : Enclosed op a b c d ↔
      ∀ x y v, a ≤ x ∧ x ≤ b → c ≤ y ∧ y ≤ d → op.value? [x, y] = some v →
        (binaryBounds op a b c d).Contains v := by
  refine ⟨fun h x y v hx hy hv => contains_binaryBounds ha hb hc hd hx hy hv h, fun h => ?_⟩
  by_contra hnot
  cases op with
  | div =>
    obtain ⟨x, y, hx, hy, hy0, hfits, hmissed⟩ := exists_quotient_not_contained hb hnot
    refine hmissed (h x y _ hx hy ?_)
    rw [Operator.value?, if_neg hy0]
    exact checked_eq_some_iff.mpr ⟨rfl, hfits⟩
  | mod =>
    obtain ⟨x, y, hx, hy, rfl, hmissed⟩ := exists_remainder_not_contained ha hb hd hab hcd hnot
    refine hmissed (h x _ _ hx hy ?_)
    rw [Operator.value?, if_neg (by simp [lowest_eq])]
  | pow =>
    obtain ⟨x, y, v, hx, hy, hy0, hv, hmissed⟩ := exists_power_not_contained hnot
    refine hmissed (h x y v hx hy ?_)
    rw [Operator.value?, if_pos hy0, hv]
  | _ => exact hnot trivial

end

end Values
end CspModel
