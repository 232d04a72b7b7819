import CspModel.Proofs.Replacement

/-! # Adding and scaling functions

Every function is a weighted sum: a sum of its terms with their coefficients, any other
function of itself with the coefficient one.  Adding two functions puts their terms one
after the other and scaling a function multiplies its coefficients, so along any chain of
both the value is the one of the exact integers, as long as no product of a coefficient
and a factor leaves the bounded range (`Combination.integer?_build`).

A product outside the range stops at its nearer end.  What is lost there is a weighted sum
of the same terms (`Aggregate.lost`), and a scaled function has the value it should have
exactly when that sum is zero.
-/
namespace CspModel

open CspModel.Expr Bounded Introducing

namespace Bounded

theorem saturate_eq_iff {n : Int} : saturate n = n ↔ Fits n :=
  ⟨fun h => h ▸ saturate_fits n, saturate_of_fits⟩

theorem saturate_of_le_lowest {n : Int} (h : n ≤ lowest) : saturate n = lowest := by
  unfold saturate lowest highest at *
  omega

theorem saturate_of_highest_le {n : Int} (h : highest ≤ n) : saturate n = highest := by
  unfold saturate lowest highest at *
  omega

/-- Stopping at the end of the range between two multiplications changes the result only if
the product that comes first is too large and the second factor is minus one: the range
reaches one further down than up. -/
theorem saturate_mul_saturate_eq_iff (n b : Int) :
    saturate (saturate n * b) = saturate (n * b) ↔ (b = -1 → n ≤ highest) := by
  by_cases hfits : Fits n
  · rw [saturate_of_fits hfits]
    exact iff_of_true rfl fun _ => hfits.2
  · have hbounds : lowest = -9223372036854775808 ∧ highest = 9223372036854775807 := ⟨rfl, rfl⟩
    unfold Fits at hfits
    rcases Int.lt_or_le highest n with hlarge | hle
    · rw [saturate_of_highest_le (Int.le_of_lt hlarge)]
      rcases Int.lt_trichotomy b 0 with hneg | rfl | hpos
      · by_cases hb : b = -1
        · subst hb
          rw [saturate_of_le_lowest (n := n * -1) (by omega),
            saturate_of_fits (n := highest * -1) (by decide)]
          exact iff_of_false (by decide) fun h => absurd (h rfl) (by omega)
        · have hend : highest * b ≤ lowest := by unfold highest lowest; omega
          have hprod : n * b ≤ highest * b :=
            Int.mul_le_mul_of_nonpos_right (Int.le_of_lt hlarge) (Int.le_of_lt hneg)
          rw [saturate_of_le_lowest hend, saturate_of_le_lowest (Int.le_trans hprod hend)]
          exact iff_of_true rfl fun h => absurd h hb
      · simp
      · have hend : highest ≤ highest * b := by unfold highest; omega
        have hprod : highest * b ≤ n * b :=
          Int.mul_le_mul_of_nonneg_right (Int.le_of_lt hlarge) (Int.le_of_lt hpos)
        rw [saturate_of_highest_le hend, saturate_of_highest_le (Int.le_trans hend hprod)]
        exact iff_of_true rfl fun h => by omega
    · have hsmall : n < lowest := by omega
      rw [saturate_of_le_lowest (Int.le_of_lt hsmall)]
      refine iff_of_true ?_ fun _ => hle
      rcases Int.lt_trichotomy b 0 with hneg | rfl | hpos
      · have hend : highest ≤ lowest * b := by unfold highest lowest; omega
        have hprod : lowest * b ≤ n * b :=
          Int.mul_le_mul_of_nonpos_right (Int.le_of_lt hsmall) (Int.le_of_lt hneg)
        rw [saturate_of_highest_le hend, saturate_of_highest_le (Int.le_trans hend hprod)]
      · simp
      · have hend : lowest * b ≤ lowest := by unfold lowest; omega
        have hprod : n * b ≤ lowest * b :=
          Int.mul_le_mul_of_nonneg_right (Int.le_of_lt hsmall) (Int.le_of_lt hpos)
        rw [saturate_of_le_lowest hend, saturate_of_le_lowest (Int.le_trans hprod hend)]

end Bounded

namespace Aggregate

variable {f g : Aggregate Expr} {σ : Assignment}

/-! ### Weighted sums -/

/-- The coefficients of a function seen as a weighted sum. -/
def weights (f : Aggregate Expr) : List Int := f.weightedTerms.2

/-- The terms of a function seen as a weighted sum. -/
def terms (f : Aggregate Expr) : List Expr := f.weightedTerms.1

/-- Whether every term has one coefficient. -/
def Balanced (f : Aggregate Expr) : Prop := f.weights.length = f.terms.length

/-- What terms with coefficients add up to. -/
def weighted? (σ : Assignment) (terms : List Expr) (cs : List Int) : Option Int :=
  ((terms.zip cs).mapM (contribution σ)).map List.sum

theorem Regular.balanced (hf : f.Regular) : f.Balanced := by
  cases f with
  | sum terms coefficients =>
    cases coefficients with
    | none => exact List.length_map _
    | some cs => exact (hf.2 cs rfl).1
  | _ => rfl

/-- Leaving out coefficients that are all one changes neither terms nor coefficients. -/
theorem weightedTerms_kept {terms : List Expr} {cs : List Int} (h : cs.length = terms.length) :
    (sum terms (keptCoefficients cs)).weightedTerms = (terms, cs) :=
  congrArg (terms, ·) (coefficientsOf_keptCoefficients h)

/-- A function is worth what its terms with their coefficients add up to. -/
theorem integer?_eq_weighted (hf : f.Balanced) :
    (Expr.aggregate f).integer? .exact σ = weighted? σ f.terms f.weights := by
  have hone : ∀ g : Aggregate Expr, weighted? σ [.aggregate g] [1] =
      (Expr.aggregate g).integer? .exact σ := by
    intro g
    simp only [weighted?, List.zip_cons_cons, List.zip_nil_left, List.mapM_cons, List.mapM_nil,
      contribution, Int.mul_one]
    cases (Expr.aggregate g).integer? .exact σ <;> simp
  cases f with
  | sum terms coefficients =>
    have hlength : ∀ cs ∈ coefficients, cs.length = terms.length := fun cs hcs => by
      obtain rfl := hcs
      exact hf
    rw [integer?_eq, value?_aggregate, value?_sum_eq σ hlength]
    show _ = ((terms.zip (coefficientsOf terms coefficients)).mapM (contribution σ)).map List.sum
    cases (terms.zip (coefficientsOf terms coefficients)).mapM (contribution σ) <;> rfl
  | _ => exact (hone _).symm

/-- Weighted sums one after the other add up. -/
theorem weighted?_append {ts ts' : List Expr} {cs : List Int} (h : cs.length = ts.length)
    (cs' : List Int) : weighted? σ (ts ++ ts') (cs ++ cs') =
      (weighted? σ ts cs).bind fun a => (weighted? σ ts' cs').map (a + ·) := by
  unfold weighted?
  rw [List.zip_append h.symm, List.mapM_append]
  cases (ts.zip cs).mapM (contribution σ) with
  | none => rfl
  | some ns =>
    cases (ts'.zip cs').mapM (contribution σ) with
    | none => rfl
    | some ns' => simp

theorem weighted?_cons (e : Expr) (ts : List Expr) (c : Int) (cs : List Int) :
    weighted? σ (e :: ts) (c :: cs) = (e.integer? .exact σ).bind fun n =>
      (weighted? σ ts cs).map (n * c + ·) := by
  unfold weighted?
  rw [List.zip_cons_cons, List.mapM_cons, contribution]
  cases e.integer? .exact σ with
  | none => rfl
  | some n => cases (ts.zip cs).mapM (contribution σ) <;> simp

/-- Coefficients that are sums can be split into two weighted sums of the same terms. -/
theorem weighted?_add (ts : List Expr) (cs : List Int) (l r : Int → Int) :
    weighted? σ ts (cs.map fun c => l c + r c) =
      (weighted? σ ts (cs.map l)).bind fun a => (weighted? σ ts (cs.map r)).map (a + ·) := by
  induction ts generalizing cs with
  | nil => simp [weighted?]
  | cons e ts ih =>
    cases cs with
    | nil => simp [weighted?]
    | cons c cs =>
      rw [List.map_cons, List.map_cons, List.map_cons, weighted?_cons, weighted?_cons,
        weighted?_cons, ih]
      cases e.integer? .exact σ with
      | none => rfl
      | some n =>
        cases weighted? σ ts (cs.map l) with
        | none => rfl
        | some a =>
          cases weighted? σ ts (cs.map r) with
          | none => rfl
          | some b =>
            simp only [Option.bind_some, Option.map_some, Option.some.injEq]
            ring

/-- A common factor of the coefficients can be drawn out. -/
theorem weighted?_mul (ts : List Expr) (cs : List Int) (k : Int) :
    weighted? σ ts (cs.map (· * k)) = (weighted? σ ts cs).map (k * ·) := by
  induction ts generalizing cs with
  | nil => simp [weighted?]
  | cons e ts ih =>
    cases cs with
    | nil => simp [weighted?]
    | cons c cs =>
      rw [List.map_cons, weighted?_cons, weighted?_cons, ih]
      cases e.integer? .exact σ with
      | none => rfl
      | some n =>
        cases weighted? σ ts cs with
        | none => rfl
        | some a =>
          simp only [Option.bind_some, Option.map_some, Option.some.injEq]
          ring

/-! ### Adding and scaling -/

theorem weightedTerms_plus (hf : f.Balanced) (hg : g.Balanced) :
    (f.plus g).weightedTerms = (f.terms ++ g.terms, f.weights ++ g.weights) := by
  refine weightedTerms_kept ?_
  rw [List.length_append, List.length_append]
  exact congrArg₂ (· + ·) hf hg

theorem weightedTerms_scaled (hf : f.Balanced) (k : Int) :
    (f.scaled k).weightedTerms = (f.terms, f.weights.map fun c => saturate (c * k)) :=
  weightedTerms_kept ((List.length_map _).trans hf)

theorem terms_scaled (hf : f.Balanced) (k : Int) : (f.scaled k).terms = f.terms := by
  unfold terms
  rw [weightedTerms_scaled hf k]
  rfl

theorem weights_scaled (hf : f.Balanced) (k : Int) :
    (f.scaled k).weights = f.weights.map fun c => saturate (c * k) :=
  congrArg Prod.snd (weightedTerms_scaled hf k)

theorem Balanced.plus (hf : f.Balanced) (hg : g.Balanced) : (f.plus g).Balanced := by
  unfold Balanced weights terms at *
  rw [weightedTerms_plus hf hg]
  simp [terms, weights, hf, hg]

theorem Balanced.scaled (hf : f.Balanced) (k : Int) : (f.scaled k).Balanced := by
  unfold Balanced weights terms at *
  rw [weightedTerms_scaled hf k]
  simp [terms, weights, hf]

/-- The sum of two functions is worth the sum of their values. -/
theorem integer?_plus (hf : f.Balanced) (hg : g.Balanced) :
    (Expr.aggregate (f.plus g)).integer? .exact σ =
      ((Expr.aggregate f).integer? .exact σ).bind fun a =>
        ((Expr.aggregate g).integer? .exact σ).map (a + ·) := by
  rw [integer?_eq_weighted (hf.plus hg), integer?_eq_weighted hf, integer?_eq_weighted hg, terms,
    weights, weightedTerms_plus hf hg]
  exact weighted?_append hf _

/-- What every coefficient loses when it is scaled and stops at the end of the range. -/
def lost (f : Aggregate Expr) (k : Int) : List Int :=
  f.weights.map fun c => c * k - saturate (c * k)

/-- A scaled function and what was lost make up the multiple of the function. -/
theorem integer?_scaled_add_lost (hf : f.Balanced) (k : Int) :
    (((Expr.aggregate (f.scaled k)).integer? .exact σ).bind fun a =>
        (weighted? σ f.terms (f.lost k)).map (a + ·)) =
      ((Expr.aggregate f).integer? .exact σ).map (k * ·) := by
  have hsplit : (f.weights.map fun c => saturate (c * k) + (c * k - saturate (c * k))) =
      f.weights.map (· * k) := List.map_congr_left fun c _ => by omega
  rw [integer?_eq_weighted (hf.scaled k), integer?_eq_weighted hf, ← weighted?_mul, ← hsplit,
    weighted?_add, terms, weights, weightedTerms_scaled hf k]
  rfl

/-- Nothing is lost exactly when all products are within the range. -/
theorem weights_scaled_eq_iff (hf : f.Balanced) (k : Int) :
    (f.scaled k).weights = f.weights.map (· * k) ↔ ∀ c ∈ f.weights, Fits (c * k) := by
  rw [weights_scaled hf, List.map_inj_left]
  exact forall₂_congr fun c _ => saturate_eq_iff

/-- Within the range a scaled function is worth the multiple of the function. -/
theorem integer?_scaled (hf : f.Balanced) {k : Int} (hk : ∀ c ∈ f.weights, Fits (c * k)) :
    (Expr.aggregate (f.scaled k)).integer? .exact σ =
      ((Expr.aggregate f).integer? .exact σ).map (k * ·) := by
  rw [integer?_eq_weighted (hf.scaled k), integer?_eq_weighted hf, ← weighted?_mul,
    (weights_scaled_eq_iff hf k).mpr hk, terms, weightedTerms_scaled hf k]

/-- Where a function has a value, scaling it is exact if and only if what is lost adds up
to nothing. -/
theorem integer?_scaled_eq_iff (hf : f.Balanced) (k : Int) {n : Int}
    (hn : (Expr.aggregate f).integer? .exact σ = some n) :
    (Expr.aggregate (f.scaled k)).integer? .exact σ = some (k * n) ↔
      weighted? σ f.terms (f.lost k) = some 0 := by
  have h := integer?_scaled_add_lost (σ := σ) hf k
  rw [hn, Option.map_some, Option.bind_eq_some_iff] at h
  obtain ⟨a, ha, h⟩ := h
  obtain ⟨b, hb, hab⟩ := Option.map_eq_some_iff.mp h
  rw [ha, hb, Option.some.injEq, Option.some.injEq]
  omega

/-- Functions with the same terms and coefficients, put together, are the same. -/
theorem scaled_congr {ts : List Expr} {cs cs' : List Int} (h : cs.length = ts.length)
    (h' : cs'.length = ts.length) :
    sum ts (keptCoefficients cs) = sum ts (keptCoefficients cs') ↔ cs = cs' := by
  refine ⟨fun heq => ?_, fun heq => by rw [heq]⟩
  have hterms := congrArg weightedTerms heq
  rw [weightedTerms_kept h, weightedTerms_kept h'] at hterms
  exact congrArg Prod.snd hterms

/-- Scaling twice is scaling by the product of the factors, unless minus one follows a
factor by which a coefficient grew too large. -/
theorem scaled_scaled_eq_iff (hf : f.Balanced) (a b : Int) :
    (f.scaled a).scaled b = f.scaled (a * b) ↔ (b = -1 → ∀ c ∈ f.weights, c * a ≤ highest) := by
  have htwice : (f.scaled a).scaled b = sum f.terms
      (keptCoefficients (f.weights.map fun c => saturate (saturate (c * a) * b))) := by
    rw [scaled, weightedTerms_scaled hf a]
    simp only [List.map_map]
    rfl
  have honce : f.scaled (a * b) = sum f.terms
      (keptCoefficients (f.weights.map fun c => saturate (c * a * b))) := by
    simp only [Int.mul_assoc]
    rfl
  have hlength : ∀ h : Int → Int, (f.weights.map h).length = f.terms.length := fun h =>
    (List.length_map _).trans hf
  rw [htwice, honce, scaled_congr (hlength _) (hlength _), List.map_inj_left]
  rw [forall₂_congr fun c _ => saturate_mul_saturate_eq_iff (c * a) b]
  exact ⟨fun h hb c hc => h c hc hb, fun h c hc hb => h hb c hc⟩

/-- Scaling a sum of functions scales both. -/
theorem scaled_plus (hf : f.Balanced) (hg : g.Balanced) (k : Int) :
    (f.plus g).scaled k = (f.scaled k).plus (g.scaled k) := by
  rw [scaled, weightedTerms_plus hf hg, plus, weightedTerms_scaled hf, weightedTerms_scaled hg]
  simp only [List.map_append]

end Aggregate

/-! ### Chains -/

/-- Functions put together by adding and scaling. -/
inductive Combination where
  | single (f : Aggregate Expr)
  | plus (a b : Combination)
  | scaled (a : Combination) (factor : Int)

namespace Combination

/-- The function that comes of it. -/
def build : Combination → Aggregate Expr
  | single f => f
  | plus a b => a.build.plus b.build
  | scaled a factor => a.build.scaled factor

/-- What it is worth over the exact integers. -/
def value? (σ : Assignment) : Combination → Option Int
  | single f => (Expr.aggregate f).integer? .exact σ
  | plus a b => (value? σ a).bind fun m => (value? σ b).map (m + ·)
  | scaled a factor => (value? σ a).map (factor * ·)

/-- The functions it is put together from. -/
def functions : Combination → List (Aggregate Expr)
  | single f => [f]
  | plus a b => functions a ++ functions b
  | scaled a _ => functions a

/-- Whether no product of a coefficient and a factor leaves the range on the way. -/
def Within : Combination → Prop
  | single _ => True
  | plus a b => a.Within ∧ b.Within
  | scaled a factor => a.Within ∧ ∀ c ∈ a.build.weights, Fits (c * factor)

theorem balanced_build {t : Combination} (h : ∀ f ∈ t.functions, f.Balanced) :
    t.build.Balanced := by
  induction t with
  | single f => exact h f (List.mem_singleton_self f)
  | plus a b iha ihb =>
    obtain ⟨ha, hb⟩ := List.forall_mem_append.mp h
    exact (iha ha).plus (ihb hb)
  | scaled a factor ih => exact (ih h).scaled factor

/-- Along any chain of additions and scalings within the range the value is exact. -/
theorem integer?_build {t : Combination} (h : ∀ f ∈ t.functions, f.Balanced) (ht : t.Within)
    (σ : Assignment) : (Expr.aggregate t.build).integer? .exact σ = t.value? σ := by
  induction t with
  | single f => rfl
  | plus a b iha ihb =>
    obtain ⟨ha, hb⟩ := List.forall_mem_append.mp h
    rw [build, Aggregate.integer?_plus (balanced_build ha) (balanced_build hb), iha ha ht.1,
      ihb hb ht.2]
    rfl
  | scaled a factor ih =>
    rw [build, Aggregate.integer?_scaled (f := a.build) (balanced_build (t := a) h) ht.2,
      ih h ht.1]
    rfl

end Combination

/-! ### What adding and scaling mean -/

theorem Aggregate.Built.balanced {known : Variable → Prop} {f : Aggregate Expr}
    (h : Aggregate.Built known f) : f.Balanced :=
  (Expr.wellFormed_aggregate.mp (Expr.Built.aggregate h).wellFormed).1.balanced

/-- For functions put together from any variables, under every assignment:

* adding them is exact, and so is every chain of additions and scalings in which no product
  of a coefficient and a factor leaves the range;
* scaling multiplies the coefficients exactly if no product leaves the range, and where the
  function has a value the scaled one is the multiple of it exactly if what the coefficients
  lost at the ends of the range adds up to nothing;
* scaling a sum of functions is scaling both, and scaling twice is scaling by the product
  unless minus one follows a factor by which a coefficient became too large. -/
theorem Aggregate.Built.adds_and_scales {known : Variable → Prop} {f g : Aggregate Expr}
    (hf : Aggregate.Built known f) (hg : Aggregate.Built known g) (σ : Assignment) :
    ((Expr.aggregate (f.plus g)).integer? .exact σ =
      ((Expr.aggregate f).integer? .exact σ).bind fun m =>
        ((Expr.aggregate g).integer? .exact σ).map (m + ·)) ∧
    (∀ t : Combination, (∀ p ∈ t.functions, Aggregate.Built known p) → t.Within →
      (Expr.aggregate t.build).integer? .exact σ = t.value? σ) ∧
    (∀ k, (f.scaled k).terms = f.terms ∧
      ((f.scaled k).weights = f.weights.map (· * k) ↔ ∀ c ∈ f.weights, Fits (c * k))) ∧
    (∀ k n, (Expr.aggregate f).integer? .exact σ = some n →
      ((Expr.aggregate (f.scaled k)).integer? .exact σ = some (k * n) ↔
        weighted? σ f.terms (f.lost k) = some 0)) ∧
    (∀ k, (f.plus g).scaled k = (f.scaled k).plus (g.scaled k)) ∧
    ∀ a b, (f.scaled a).scaled b = f.scaled (a * b) ↔
      (b = -1 → ∀ c ∈ f.weights, c * a ≤ highest) := by
  refine ⟨integer?_plus hf.balanced hg.balanced, ?_, fun k => ⟨?_, ?_⟩, ?_, ?_, ?_⟩
  · intro t ht hwithin
    exact Combination.integer?_build (fun p hp => (ht p hp).balanced) hwithin σ
  · exact terms_scaled hf.balanced k
  · exact weights_scaled_eq_iff hf.balanced k
  · exact fun k n hn => integer?_scaled_eq_iff hf.balanced k hn
  · exact scaled_plus hf.balanced hg.balanced
  · exact scaled_scaled_eq_iff hf.balanced

namespace Halves

/-- The only variable. -/
def x : Variable := ⟨0, 0⟩

/-- A variable times half of the least coefficient that is too large. -/
def half : Aggregate Expr := .sum [.var x] (some [4611686018427387904])

theorem built_half : Aggregate.Built (· = x) half := by
  have hhalf : Aggregate.ofWeightedTerms [.var x] [4611686018427387904] = .ok half := rfl
  refine .weightedTerms (fun e he => ?_) (fun c hc => ?_) hhalf
  · rw [List.mem_singleton.mp he]
    exact .var rfl
  · rw [List.mem_singleton.mp hc]
    decide

/-- Twice the half is one short of what it should be, and minus that is not minus two halves. -/
theorem twice_half : (Expr.aggregate (half.plus half)).integer? .exact (fun _ => .integer 1) =
      some 9223372036854775808 ∧
    (Expr.aggregate (half.scaled 2)).integer? .exact (fun _ => .integer 1) ≠
      some (2 * 4611686018427387904) ∧
    (half.scaled 2).scaled (-1) ≠ half.scaled (2 * -1) := by
  obtain ⟨hplus, -, -, hscaled, -, htwice⟩ :=
    Aggregate.Built.adds_and_scales built_half built_half fun _ => .integer 1
  refine ⟨hplus.trans (by decide), ?_, ?_⟩
  · rw [Ne, hscaled 2 4611686018427387904 (by decide)]
    decide
  · rw [Ne, htwice]
    exact fun h => absurd (h rfl 4611686018427387904 (List.mem_singleton_self _)) (by decide)

end Halves

end CspModel
