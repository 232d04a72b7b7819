import CspModel.Proofs.Bounds
import CspModel.Proofs.Built
import CspModel.Proofs.Declared
import CspModel.Proofs.Evaluation
import CspModel.Proofs.Normal
import CspModel.Proofs.Satisfaction

/-! # The values of an expression are possible

The domain of a variable that stands for an expression has to hold every value the
expression takes.  Each function on sets of values is read here as a function on the
values themselves: if the operands lie in the sets, then the result lies in the set
that is computed.  Two things carry this through an expression: sets are `Valid`, so
what they hold lies between their bounds, and wherever two operands are not
enumerated the box of their bounds is `Enclosed`.

The operands that count are those whose sets are computed at all (`Expr.Sound`).
-/
namespace CspModel

open Bounded

namespace Values

/-! ### Sets within the range -/

/-- What the computed sets satisfy. -/
def Valid : Values → Prop
  | finite values => values.Pairwise (· < ·) ∧ ∀ n ∈ values, Fits n
  | bounds lower upper => Fits lower ∧ Fits upper

theorem Valid.lower_fits {values : Values} (h : values.Valid) : Fits values.lower := by
  cases values with
  | finite ns =>
    cases ns with
    | nil => decide
    | cons n rest => exact h.2 n List.mem_cons_self
  | bounds => exact h.1

theorem Valid.upper_fits {values : Values} (h : values.Valid) : Fits values.upper := by
  cases values with
  | finite ns =>
    rcases List.eq_nil_or_concat ns with rfl | ⟨rest, n, rfl⟩
    · decide
    · simpa [upper] using h.2 n (by simp)
  | bounds => exact h.2

/-- What a set holds lies between its bounds. -/
theorem Valid.between {values : Values} (h : values.Valid) {n : Int} (hn : values.Contains n) :
    values.lower ≤ n ∧ n ≤ values.upper := by
  cases values with
  | finite ns =>
    constructor
    · cases ns with
      | nil => cases hn
      | cons m rest =>
        rcases List.mem_cons.mp hn with rfl | hn
        · exact Int.le_refl _
        · exact Int.le_of_lt ((List.pairwise_cons.mp h.1).1 n hn)
    · rcases List.eq_nil_or_concat ns with rfl | ⟨rest, m, rfl⟩
      · cases hn
      · simp only [Contains, List.concat_eq_append, List.mem_append, List.mem_singleton] at hn
        simp only [Valid, List.concat_eq_append, List.pairwise_append] at h
        simp only [upper, List.concat_eq_append, List.getLast?_append, List.getLast?_singleton,
          Option.some_or, Option.getD_some]
        rcases hn with hn | rfl
        · exact Int.le_of_lt (h.1.2.2 n hn m (by simp))
        · exact Int.le_refl _
  | bounds => exact hn

theorem Valid.fits {values : Values} (h : values.Valid) {n : Int} (hn : values.Contains n) :
    Fits n := by
  have hlower := h.lower_fits.1
  have hupper := h.upper_fits.2
  have hn := h.between hn
  exact ⟨by omega, by omega⟩

theorem valid_single {n : Int} (h : Fits n) : (single n).Valid :=
  ⟨List.pairwise_singleton _ _, by simpa using h⟩

theorem valid_truth : truth.Valid := by
  simp only [Valid, truth]
  decide

theorem valid_ofList {list : List Int} (h : ∀ n ∈ list, Fits n) :
    (finite (Ascending.ofList list)).Valid :=
  ⟨Ascending.pairwise_ofList list, fun n hn => h n (Ascending.mem_ofList.mp hn)⟩

/-! ### Variables -/

theorem valid_ofDomain {d : Domain} (h : d.Integral) : (ofDomain d).Valid := by
  obtain ⟨lower, upper, hlower, hupper, hlower', hupper', hbounds⟩ := h.bounds
  have hfits : ∀ n ∈ d.integers, Fits n := fun n hn => by
    have hn := hbounds n (Domain.mem_integers.mp hn)
    rw [fits_iff] at *
    omega
  unfold ofDomain
  rw [hlower, hupper]
  split
  · split
    · exact ⟨h.ascending, hfits⟩
    · exact ⟨hlower', hupper'⟩
  · exact ⟨hlower', hupper'⟩

theorem contains_ofDomain {d : Domain} (h : d.Integral) {n : Int} (hn : d.contains n = true) :
    (ofDomain d).Contains n := by
  obtain ⟨lower, upper, hlower, hupper, _, _, hbounds⟩ := h.bounds
  unfold ofDomain
  rw [hlower, hupper]
  split
  · split
    · exact Domain.mem_integers.mpr hn
    · exact hbounds n hn
  · exact hbounds n hn

theorem lower_mem {ns : List Int} (h : ns ≠ []) : (finite ns).lower ∈ ns := by
  cases ns with
  | nil => exact absurd rfl h
  | cons n rest => exact List.mem_cons_self

theorem upper_mem {ns : List Int} (h : ns ≠ []) : (finite ns).upper ∈ ns := by
  rw [upper, List.getLast?_eq_some_getLast h]
  exact List.getLast_mem h

/-- The bounds of the set of a variable belong to its domain. -/
theorem contains_bounds_ofDomain {d : Domain} (h : d.Integral) :
    d.contains (ofDomain d).lower = true ∧ d.contains (ofDomain d).upper = true := by
  obtain ⟨least, greatest, hleast, hgreatest, _⟩ := h.bounds
  obtain ⟨hlower, hupper⟩ := h.attained least greatest hleast hgreatest
  have hne : d.integers ≠ [] := List.ne_nil_of_mem (Domain.mem_integers.mpr hlower)
  unfold ofDomain
  rw [hleast, hgreatest]
  split
  · split
    · exact ⟨Domain.mem_integers.mp (lower_mem hne), Domain.mem_integers.mp (upper_mem hne)⟩
    · exact ⟨hlower, hupper⟩
  · exact ⟨hlower, hupper⟩

/-! ### Unions -/

theorem valid_union {sets : List Values} (h : ∀ values ∈ sets, values.Valid) :
    (union sets).Valid := by
  have hzero : Fits 0 := by decide
  simp only [union]
  split
  · refine valid_ofList fun n hn => ?_
    obtain ⟨values, hvalues, hn⟩ := List.mem_flatMap.mp hn
    cases values with
    | finite => exact (h _ hvalues).2 n hn
    | bounds => cases hn
  · constructor
    · cases hmin : (sets.map lower).min? with
      | none => exact hzero
      | some least =>
        obtain ⟨values, hvalues, rfl⟩ := List.mem_map.mp (List.min?_eq_some_iff.mp hmin).1
        exact (h values hvalues).lower_fits
    · cases hmax : (sets.map upper).max? with
      | none => exact hzero
      | some greatest =>
        obtain ⟨values, hvalues, rfl⟩ := List.mem_map.mp (List.max?_eq_some_iff.mp hmax).1
        exact (h values hvalues).upper_fits

theorem contains_union {sets : List Values} {values : Values} (hvalues : values ∈ sets)
    (h : values.Valid) {n : Int} (hn : values.Contains n) : (union sets).Contains n := by
  simp only [union]
  split
  · rename_i hfinite
    simp only [Bool.and_eq_true, List.all_eq_true] at hfinite
    cases values with
    | finite ns => exact Ascending.mem_ofList.mpr (List.mem_flatMap.mpr ⟨_, hvalues, hn⟩)
    | bounds => exact absurd (hfinite.1 _ hvalues) Bool.false_ne_true
  · have hbetween := h.between hn
    have hne : sets ≠ [] := List.ne_nil_of_mem hvalues
    obtain ⟨least, hleast⟩ := Option.isSome_iff_exists.mp
      (List.isSome_min?_of_ne_nil (mt List.map_eq_nil_iff.mp hne : sets.map lower ≠ []))
    obtain ⟨greatest, hgreatest⟩ := Option.isSome_iff_exists.mp
      (List.isSome_max?_of_ne_nil (mt List.map_eq_nil_iff.mp hne : sets.map upper ≠ []))
    have hlower := (List.min?_eq_some_iff.mp hleast).2 _ (List.mem_map_of_mem hvalues)
    have hupper := (List.max?_eq_some_iff.mp hgreatest).2 _ (List.mem_map_of_mem hvalues)
    rw [hleast, hgreatest, contains_bounds, Option.getD_some, Option.getD_some]
    omega

/-! ### Operators with one operand -/

theorem valid_unary (op : Operator) {values : Values} (h : values.Valid) :
    (unary op values).Valid := by
  cases values with
  | finite ns =>
    refine valid_ofList fun v hv => ?_
    obtain ⟨n, hn, hv⟩ := List.mem_filterMap.mp hv
    exact Operator.fits_of_value? (by simpa using h.2 n hn) hv
  | bounds lower upper =>
    obtain ⟨hlower, hupper⟩ := h
    cases op with
    | abs =>
      simp only [unary, Valid, leastMagnitude, greatestMagnitude, saturate_eq]
      rw [fits_iff] at *
      rw [fits_iff]
      omega
    | _ => exact ⟨saturate_fits _, saturate_fits _⟩

/-- The magnitude of an integer between two bounds. -/
theorem natAbs_between {lower upper n : Int} (hlower : Fits lower) (hupper : Fits upper)
    (hn : lower ≤ n ∧ n ≤ upper) (hlow : n ≠ lowest) :
    0 ≤ leastMagnitude lower upper ∧ leastMagnitude lower upper ≤ n.natAbs ∧
      n.natAbs ≤ greatestMagnitude lower upper := by
  rw [fits_iff] at hlower hupper
  rw [lowest_eq] at hlow
  simp only [leastMagnitude, greatestMagnitude, saturate_eq]
  omega

theorem contains_unary {op : Operator} (hop : op = .neg ∨ op = .abs ∨ op = .sqr) {values : Values}
    (h : values.Valid) {n v : Int} (hn : values.Contains n) (hv : op.value? [n] = some v) :
    (unary op values).Contains v := by
  cases values with
  | finite ns => exact Ascending.mem_ofList.mpr (List.mem_filterMap.mpr ⟨n, hn, hv⟩)
  | bounds lower upper =>
    have hlow : op ≠ .neg → n ≠ lowest := by
      rintro hneg rfl
      rcases hop with rfl | rfl | rfl
      · exact hneg rfl
      · cases hv
      · cases hv
    rcases hop with rfl | rfl | rfl
    · obtain ⟨rfl, hv⟩ := checked_eq_some_iff.mp hv
      have := contains_bounds.mp hn
      exact ⟨saturate_le (by omega) hv, le_saturate (by omega) hv⟩
    · obtain ⟨rfl, hv⟩ := checked_eq_some_iff.mp hv
      exact (natAbs_between h.1 h.2 hn (hlow (by decide))).2
    · obtain ⟨rfl, hv⟩ := checked_eq_some_iff.mp hv
      obtain ⟨hzero, hleast, hgreatest⟩ := natAbs_between h.1 h.2 hn (hlow (by decide))
      rw [← Int.natAbs_mul_self' n] at hv ⊢
      exact ⟨saturate_le (Int.mul_self_le_mul_self hzero hleast) hv,
        le_saturate (Int.mul_self_le_mul_self (Int.natCast_nonneg _) hgreatest) hv⟩

/-! ### Operators with two operands -/

/-- Whether the combinations of two operands are enumerated. -/
def Enumerated : Values → Values → Prop
  | finite as, finite bs => as.length * bs.length ≤ enumerationLimit
  | _, _ => False

/-- Whether an operator misses no value of its operands. -/
def Sound (op : Operator) (left right : Values) : Prop :=
  Enumerated left right ∨ Enclosed op left.lower left.upper right.lower right.upper

/-- Two operands are enumerated, or the operator is computed on their bounds. -/
theorem binary_cases (op : Operator) (left right : Values) :
    (∃ as bs, left = finite as ∧ right = finite bs ∧ Enumerated left right ∧
      binary op left right = finite (combine op as bs)) ∨
    (¬Enumerated left right ∧
      binary op left right = binaryBounds op left.lower left.upper right.lower right.upper) := by
  unfold binary
  split
  · rename_i as bs
    split
    · rename_i h
      exact .inl ⟨as, bs, rfl, rfl, h, rfl⟩
    · rename_i h
      exact .inr ⟨h, rfl⟩
  · rename_i h
    refine .inr ⟨fun henum => ?_, rfl⟩
    cases left with
    | bounds => exact henum
    | finite as =>
      cases right with
      | bounds => exact henum
      | finite bs => exact h as bs rfl rfl

theorem valid_hull {results : List Int} (h : ∀ r ∈ results, Fits r) : (hull results).Valid := by
  obtain ⟨lower, upper, heq, hlower, hupper⟩ := hull_fits h
  rw [heq]
  exact ⟨hlower, hupper⟩

theorem valid_binaryBounds (op : Operator) {a b c d : Int} (ha : Fits a) (hb : Fits b)
    (hc : Fits c) (hd : Fits d) : (binaryBounds op a b c d).Valid := by
  have hrange : (bounds lowest highest).Valid := ⟨by decide, by decide⟩
  cases op with
  | add | sub => exact ⟨saturate_fits _, saturate_fits _⟩
  | mul =>
    simp only [binaryBounds, productBounds]
    split
    · rename_i results hresults
      refine valid_hull fun r hr => ?_
      obtain ⟨n, _, hn⟩ := exists_of_mem_mapM hresults hr
      exact (checked_eq_some_iff.mp hn).2
    · exact hrange
  | div =>
    obtain ⟨results, heq, hmem⟩ := quotientBounds_eq_hull a b c d
    rw [binaryBounds, heq]
    refine valid_hull fun r hr => ?_
    obtain ⟨_, _, _, _, _, hfits⟩ := (hmem r).mp hr
    exact hfits
  | mod =>
    simp only [binaryBounds, remainderBounds, Valid, saturate_eq]
    simp only [fits_iff]
    omega
  | pow =>
    obtain ⟨largest, heq, hlargest, hhighest, _⟩ := powerBounds_eq a b d
    rw [binaryBounds, heq, Valid, fits_iff, fits_iff]
    rw [highest_eq] at hhighest
    omega
  | dist =>
    simp only [binaryBounds, Valid, saturate_eq]
    simp only [fits_iff]
    omega
  | min | max =>
    rw [fits_iff] at ha hb hc hd
    simp only [binaryBounds, Valid, fits_iff]
    omega
  | _ => exact valid_truth

theorem valid_binary (op : Operator) {left right : Values} (hleft : left.Valid)
    (hright : right.Valid) : (binary op left right).Valid := by
  rcases binary_cases op left right with ⟨as, bs, rfl, rfl, _, heq⟩ | ⟨_, heq⟩
  · rw [heq]
    refine valid_ofList fun v hv => ?_
    obtain ⟨a, ha, hv⟩ := List.mem_flatMap.mp hv
    obtain ⟨b, hb, hv⟩ := List.mem_filterMap.mp hv
    exact Operator.fits_of_value? (by simpa using ⟨hleft.2 a ha, hright.2 b hb⟩) hv
  · rw [heq]
    exact valid_binaryBounds op hleft.lower_fits hleft.upper_fits hright.lower_fits
      hright.upper_fits

theorem contains_binary {op : Operator} {left right : Values} (hleft : left.Valid)
    (hright : right.Valid) (h : Sound op left right) {x y v : Int} (hx : left.Contains x)
    (hy : right.Contains y) (hv : op.value? [x, y] = some v) : (binary op left right).Contains v := by
  rcases binary_cases op left right with ⟨as, bs, rfl, rfl, _, heq⟩ | ⟨henum, heq⟩
  · rw [heq]
    exact Ascending.mem_ofList.mpr
      (List.mem_flatMap.mpr ⟨x, hx, List.mem_filterMap.mpr ⟨y, hy, hv⟩⟩)
  · rw [heq]
    exact contains_binaryBounds hleft.lower_fits hleft.upper_fits hright.lower_fits
      hright.upper_fits (hleft.between hx) (hright.between hy) hv (h.resolve_left henum)

/-! ### Operators on several operands -/

theorem valid_fold (op : Operator) {first : Values} {rest : List Values} (hfirst : first.Valid)
    (hrest : ∀ values ∈ rest, values.Valid) : (rest.foldl (binary op) first).Valid := by
  induction rest generalizing first with
  | nil => exact hfirst
  | cons values rest ih =>
    exact ih (valid_binary op hfirst (hrest values List.mem_cons_self))
      fun values h => hrest values (List.mem_cons_of_mem _ h)

/-- Applying an operator step by step leads from one computed set to the next. -/
theorem contains_foldl {op : Operator} (hop : ∀ a b c d, Enclosed op a b c d)
    {rest : List Values} {ns : List Int} (hrest : ∀ values ∈ rest, values.Valid)
    (hns : List.Forall₂ Contains rest ns) {first : Values} (hfirst : first.Valid) {n v : Int}
    (hn : first.Contains n) (hv : ns.foldlM (fun total m => op.value? [total, m]) n = some v) :
    (rest.foldl (binary op) first).Contains v := by
  induction hns generalizing first n with
  | nil =>
    cases hv
    exact hn
  | @cons values m rest ns hm _ ih =>
    have hvalues := hrest values List.mem_cons_self
    rw [List.foldlM_cons] at hv
    obtain ⟨total, htotal, hv⟩ := Option.bind_eq_some_iff.mp hv
    exact ih (fun values h => hrest values (List.mem_cons_of_mem _ h))
      (valid_binary op hfirst hvalues)
      (contains_binary hfirst hvalues (.inr (hop _ _ _ _)) hn hm htotal) hv

end Values

namespace Operator

theorem checkedSum_eq_foldlM {total : Int} (ns : List Int) (h : Fits total) :
    checkedSum total ns = ns.foldlM (fun total n => value? add [total, n]) total := by
  induction ns generalizing total with
  | nil => rfl
  | cons n rest ih =>
    have hstep : value? add [total, n] = checked (total + n) := by
      simp [value?, checkedSum, checked, h]
    rw [checkedSum, List.foldlM_cons, hstep]
    cases hnext : checked (total + n) with
    | none => rfl
    | some next => exact ih (checked_eq_some_iff.mp hnext).2

theorem checkedProduct_eq_foldlM {total : Int} (ns : List Int) (h : Fits total) :
    checkedProduct total ns = ns.foldlM (fun total n => value? mul [total, n]) total := by
  induction ns generalizing total with
  | nil => rfl
  | cons n rest ih =>
    have hstep : value? mul [total, n] = checked (total * n) := by
      simp [value?, checkedProduct, checked, h]
    rw [checkedProduct, List.foldlM_cons, hstep]
    cases hnext : checked (total * n) with
    | none => rfl
    | some next => exact ih (checked_eq_some_iff.mp hnext).2

/-- An operator that accepts any number of operands is applied to them step by step. -/
theorem value?_cons_eq_foldlM {op : Operator} (hop : op = add ∨ op = mul ∨ op = min ∨ op = max)
    {n : Int} (hn : Fits n) (ns : List Int) :
    op.value? (n :: ns) = ns.foldlM (fun total m => op.value? [total, m]) n := by
  rcases hop with rfl | rfl | rfl | rfl
  · rw [← checkedSum_eq_foldlM ns hn]
    simp [value?, checkedSum, checked, hn]
  · rw [← checkedProduct_eq_foldlM ns hn]
    simp [value?, checkedProduct, checked, hn]
  · symm
    exact List.foldlM_pure
  · symm
    exact List.foldlM_pure

theorem foldlM_of_value? {op : Operator} (hop : op = add ∨ op = mul ∨ op = min ∨ op = max)
    {n v : Int} {ns : List Int} (hn : Fits n) (hv : op.value? (n :: ns) = some v) :
    ns.foldlM (fun total m => op.value? [total, m]) n = some v := by
  rw [← value?_cons_eq_foldlM hop hn, hv]

/-- An operator on two operands has a value on two only. -/
theorem exists_pair_of_value? {op : Operator}
    (hop : op = sub ∨ op = div ∨ op = mod ∨ op = pow ∨ op = dist) {ns : List Int} {v : Int}
    (hv : op.value? ns = some v) : ∃ x y, ns = [x, y] := by
  match ns, hv with
  | [x, y], _ => exact ⟨x, y, rfl⟩
  | [], hv | [_], hv | _ :: _ :: _ :: _, hv =>
    rcases hop with rfl | rfl | rfl | rfl | rfl <;> cases hv

end Operator

namespace Values

theorem valid_ofOperator (op : Operator) {sets : List Values} (h : ∀ values ∈ sets, values.Valid) :
    (ofOperator op sets).Valid := by
  have hfold : ((fold op sets).getD truth).Valid := by
    cases sets with
    | nil => exact valid_truth
    | cons first rest =>
      exact valid_fold op (h first List.mem_cons_self)
        fun values hvalues => h values (List.mem_cons_of_mem first hvalues)
  unfold ofOperator
  split
  case h_1 | h_2 | h_3 => exact valid_unary _ (h _ List.mem_cons_self)
  case h_4 => exact valid_union fun values hvalues => h values (List.mem_cons_of_mem _ hvalues)
  case h_5 => exact hfold

/-- A choice takes its value from its branches, whatever its condition is. -/
theorem contains_choice {condition : Values} {branches : List Values}
    (h : ∀ values ∈ branches, values.Valid) {n : Int} {ns : List Int}
    (hns : List.Forall₂ Contains branches ns) {v : Int}
    (hv : Operator.ifThenElse.value? (n :: ns) = some v) :
    (ofOperator .ifThenElse (condition :: branches)).Contains v := by
  match ns, hns, hv with
  | [b, c], .cons hb (.cons hc .nil), hv =>
    obtain rfl := Option.some.inj hv
    split
    · exact contains_union (by simp) (h _ (by simp)) hb
    · exact contains_union (by simp) (h _ (by simp)) hc

theorem contains_ofOperator {op : Operator} (hop : op.isPredicate = false) {sets : List Values}
    (h : ∀ values ∈ sets, values.Valid) (hsound : ∀ left right, sets = [left, right] →
      Sound op left right) {ns : List Int} (hns : List.Forall₂ Contains sets ns) {v : Int}
    (hv : op.value? ns = some v) : (ofOperator op sets).Contains v := by
  -- two operands are combined at once
  have hpair : (op = .sub ∨ op = .div ∨ op = .mod ∨ op = .pow ∨ op = .dist) →
      ∃ left right, sets = [left, right] ∧ (binary op left right).Contains v := by
    intro hop
    obtain ⟨x, y, rfl⟩ := Operator.exists_pair_of_value? hop hv
    obtain _ | ⟨hx, _ | ⟨hy, _ | _⟩⟩ := hns
    rename_i left right
    exact ⟨left, right, rfl, contains_binary (h left (by simp)) (h right (by simp))
      (hsound left right rfl) hx hy hv⟩
  -- any other number of operands is taken up one after the other
  have hfold : (op = .add ∨ op = .mul ∨ op = .min ∨ op = .max) →
      ((fold op sets).getD truth).Contains v := by
    intro hop
    cases hns with
    | nil =>
      rcases hop with rfl | rfl | rfl | rfl
      · obtain rfl := Option.some.inj hv
        exact contains_truth false
      · obtain rfl := Option.some.inj hv
        exact contains_truth true
      · cases hv
      · cases hv
    | @cons first n rest ns hn hns =>
      have hfirst := h first List.mem_cons_self
      refine contains_foldl (fun a b c d => ?_) (fun values hvalues =>
        h values (List.mem_cons_of_mem first hvalues)) hns hfirst hn
        (Operator.foldlM_of_value? hop (hfirst.fits hn) hv)
      rcases hop with rfl | rfl | rfl | rfl <;> trivial
  cases op with
  | neg | abs | sqr =>
    match ns, hns, hv with
    | [n], .cons hn .nil, hv => exact contains_unary (by simp) (h _ List.mem_cons_self) hn hv
  | sub | div | mod | pow | dist =>
    obtain ⟨left, right, rfl, hcontains⟩ := hpair (by simp)
    exact hcontains
  | add | mul | min | max =>
    rw [ofOperator]
    · exact hfold (by simp)
    all_goals simp
  | ifThenElse =>
    cases hns with
    | nil => cases hv
    | @cons condition n branches ns _ hns =>
      exact contains_choice (fun values hvalues => h values (List.mem_cons_of_mem _ hvalues)) hns hv
  | _ => cases hop

/-! ### Aggregates -/

theorem valid_counted {first last : Nat} (h : Fits last) : (counted first last).Valid := by
  refine ⟨?_, fun n hn => ?_⟩
  · refine List.pairwise_map.mpr (List.pairwise_lt_range.imp fun h => ?_)
    omega
  · obtain ⟨k, hk, rfl⟩ := List.mem_map.mp hn
    rw [List.mem_range] at hk
    rw [fits_iff] at h ⊢
    omega

theorem contains_counted {first last k : Nat} (hfirst : first ≤ k) (hlast : k ≤ last) :
    (counted first last).Contains k :=
  List.mem_map.mpr ⟨k - first, List.mem_range.mpr (by omega), by rw [Nat.add_sub_cancel' hfirst]⟩

theorem valid_products {terms : List Values} {coefficients : List Int}
    (hterms : ∀ values ∈ terms, values.Valid) (hcs : ∀ c ∈ coefficients, Fits c) :
    ∀ values ∈ (terms.zip coefficients).map fun (values, c) => binary .mul values (single c),
      values.Valid := by
  intro values hvalues
  obtain ⟨⟨values, c⟩, hmem, rfl⟩ := List.mem_map.mp hvalues
  obtain ⟨hvalues, hc⟩ := List.of_mem_zip hmem
  exact valid_binary .mul (hterms values hvalues) (valid_single (hcs c hc))

theorem valid_ofSum {terms : List Values} {coefficients : List Int}
    (hterms : ∀ values ∈ terms, values.Valid) (hcs : ∀ c ∈ coefficients, Fits c) :
    (ofSum terms coefficients).Valid := by
  have hvalid := valid_products hterms hcs
  unfold ofSum
  revert hvalid
  generalize (terms.zip coefficients).map _ = sets
  intro hvalid
  cases sets with
  | nil => exact valid_single (by decide)
  | cons first rest =>
    exact valid_fold .add (hvalid first List.mem_cons_self)
      fun values h => hvalid values (List.mem_cons_of_mem first h)

/-- The products of the terms with their coefficients lie in the products of their sets. -/
theorem contains_products {terms : List Values} {coefficients ns products : List Int}
    (hterms : ∀ values ∈ terms, values.Valid) (hcs : ∀ c ∈ coefficients, Fits c)
    (hns : List.Forall₂ Contains terms ns)
    (hproducts : (ns.zip coefficients).mapM (fun (n, c) => checked (n * c)) = some products) :
    List.Forall₂ Contains
      ((terms.zip coefficients).map fun (values, c) => binary .mul values (single c)) products := by
  induction hns generalizing coefficients products with
  | nil =>
    cases hproducts
    exact .nil
  | @cons values n terms ns hn _ ih =>
    cases coefficients with
    | nil =>
      cases hproducts
      exact .nil
    | cons c coefficients =>
      rw [List.zip_cons_cons, mapM_eq_some_iff] at hproducts
      obtain _ | ⟨hproduct, hproducts⟩ := hproducts
      have hvalues := hterms values List.mem_cons_self
      have hc := hcs c List.mem_cons_self
      have hsound : Sound .mul values (single c) := .inr trivial
      obtain ⟨rfl, hfits⟩ := checked_eq_some_iff.mp hproduct
      have hvalue : Operator.mul.value? [n, c] = some (n * c) := by
        simp [Operator.value?, Operator.checkedProduct, checked, hvalues.fits hn, hfits]
      exact .cons (contains_binary hvalues (valid_single hc) hsound hn
        (List.mem_singleton.mpr rfl) hvalue)
        (ih (fun values h => hterms values (List.mem_cons_of_mem _ h))
          (fun c h => hcs c (List.mem_cons_of_mem _ h)) (mapM_eq_some_iff.mpr hproducts))

theorem contains_ofSum {terms : List Values} {coefficients ns : List Int}
    (hterms : ∀ values ∈ terms, values.Valid) (hcs : ∀ c ∈ coefficients, Fits c)
    (hns : List.Forall₂ Contains terms ns) {v : Int}
    (hv : Calculus.bounded.sum (ns.zip coefficients) = some v) :
    (ofSum terms coefficients).Contains v := by
  obtain ⟨products, hproducts, hv⟩ := Option.bind_eq_some_iff.mp hv
  have hcontains := contains_products hterms hcs hns hproducts
  have hvalid := valid_products hterms hcs
  unfold ofSum
  revert hcontains hvalid
  generalize (terms.zip coefficients).map _ = sets
  intro hcontains hvalid
  cases hcontains with
  | nil =>
    cases hv
    exact List.mem_singleton.mpr rfl
  | @cons first n rest ns hn hns =>
    have hfirst := hvalid first List.mem_cons_self
    have hadd : ∀ a b c d, Enclosed .add a b c d := fun _ _ _ _ => trivial
    exact contains_foldl hadd (fun values h => hvalid values (List.mem_cons_of_mem first h)) hns
      hfirst hn (Operator.foldlM_of_value? (.inl rfl) (hfirst.fits hn) hv)

/-! ### Expressions -/

variable {s : Store}

theorem ofAll_eq_ok_iff {list : List Expr} {sets : List Values} :
    ofAll s list = .ok sets ↔ List.Forall₂ (fun e values => ofExpr s e = .ok values) list sets := by
  induction list generalizing sets with
  | nil => cases sets <;> simp [ofAll]
  | cons e rest ih =>
    rw [ofAll]
    constructor
    · intro h
      obtain ⟨values, hvalues, h⟩ := Except.bind_eq_ok.mp h
      obtain ⟨others, hothers, rfl⟩ := Except.map_eq_ok.mp h
      exact .cons hvalues (ih.mp hothers)
    · rintro (_ | ⟨hvalues, hothers⟩)
      exact Except.bind_eq_ok.mpr ⟨_, hvalues, Except.map_eq_ok.mpr ⟨_, ih.mpr hothers, rfl⟩⟩

/-- What holds of the set of each expression of a list holds of all sets. -/
theorem forall_of_ofAll {P : Values → Prop} {list : List Expr} {sets : List Values}
    (hsets : ofAll s list = .ok sets)
    (h : ∀ e ∈ list, ∀ values, ofExpr s e = .ok values → P values) : ∀ values ∈ sets, P values := by
  rw [ofAll_eq_ok_iff] at hsets
  induction hsets with
  | nil => exact fun values hvalues => nomatch hvalues
  | @cons e values rest others hvalues _ ih =>
    refine List.forall_mem_cons.mpr ⟨h e List.mem_cons_self values hvalues, ?_⟩
    exact ih fun e he => h e (List.mem_cons_of_mem _ he)

theorem exists_of_ofAll {list : List Expr} {sets : List Values} (hsets : ofAll s list = .ok sets)
    {e : Expr} (he : e ∈ list) : ∃ values ∈ sets, ofExpr s e = .ok values := by
  rw [ofAll_eq_ok_iff] at hsets
  induction hsets with
  | nil => cases he
  | @cons e' values rest others hvalues _ ih =>
    rcases List.mem_cons.mp he with rfl | he
    · exact ⟨values, List.mem_cons_self, hvalues⟩
    · obtain ⟨values', hmem, hvalues'⟩ := ih he
      exact ⟨values', List.mem_cons_of_mem _ hmem, hvalues'⟩

/-- The integers of a list lie in the sets of its expressions. -/
theorem contains_ofAll {ρ : Assignment} {list : List Expr} {sets : List Values}
    (hsets : ofAll s list = .ok sets) {ns : List Int}
    (hns : list.mapM (Expr.integer? .bounded ρ) = some ns)
    (h : ∀ e ∈ list, ∀ values v, ofExpr s e = .ok values → e.value? .bounded ρ = some v →
      ∃ n, v = .integer n ∧ values.Contains n) : List.Forall₂ Contains sets ns := by
  rw [ofAll_eq_ok_iff] at hsets
  induction hsets generalizing ns with
  | nil =>
    cases hns
    exact .nil
  | @cons e values rest others hvalues _ ih =>
    obtain _ | ⟨hn, hrest⟩ := mapM_eq_some_iff.mp hns
    rw [Expr.integer?_eq] at hn
    obtain ⟨v, hv, hn⟩ := Option.bind_eq_some_iff.mp hn
    obtain ⟨m, rfl, hm⟩ := h e List.mem_cons_self values v hvalues hv
    cases hn
    exact .cons hm (ih (mapM_eq_some_iff.mpr hrest) fun e he => h e (List.mem_cons_of_mem _ he))

theorem exists_error_of_ofAll {list : List Expr} {why : DomainError}
    (h : ofAll s list = .error why) : ∃ e ∈ list, ofExpr s e = .error why := by
  induction list with
  | nil => cases h
  | cons e rest ih =>
    rw [ofAll] at h
    cases hvalues : ofExpr s e with
    | error why' =>
      rw [hvalues] at h
      cases h
      exact ⟨e, List.mem_cons_self, hvalues⟩
    | ok values =>
      rw [hvalues] at h
      cases hothers : ofAll s rest with
      | error why' =>
        simp only [Except.bind, hothers, Except.map] at h
        cases h
        obtain ⟨e', he', herror⟩ := ih hothers
        exact ⟨e', List.mem_cons_of_mem e he', herror⟩
      | ok others =>
        simp only [Except.bind, hothers, Except.map] at h
        cases h

theorem fits_coefficients {terms : List Expr} {coefficients : Option (List Int)}
    (h : (Aggregate.sum terms coefficients).Regular) :
    ∀ c ∈ Aggregate.coefficientsOf terms coefficients, Fits c := by
  have hone : Fits 1 := by decide
  cases coefficients with
  | none => simp [Aggregate.coefficientsOf, hone]
  | some cs => exact (h.2 cs rfl).2

/-- The set of a well-formed expression lies within the range. -/
theorem valid_ofExpr (hs : s.Consistent Domain.Normal) {e : Expr} (he : e.WellFormed s.Declares)
    {values : Values} (hvalues : ofExpr s e = .ok values) : values.Valid := by
  induction e using Expr.induction generalizing values with
  | const n =>
    cases hvalues
    exact valid_single he.regular
  | var v =>
    rw [ofExpr] at hvalues
    split at hvalues
    · cases hvalues
    · rename_i hd
      cases hvalues
      exact valid_ofDomain ((hs.domainOf he.regular).integral (Bool.eq_false_iff.mpr hd))
  | set members =>
    cases hvalues
    exact he.regular
  | apply op operands ih =>
    have hoperands := (Expr.wellFormed_apply.mp he).2
    rw [ofExpr] at hvalues
    split at hvalues
    · cases hvalues
      exact valid_truth
    · obtain ⟨sets, hsets, rfl⟩ := Except.map_eq_ok.mp hvalues
      exact valid_ofOperator op
        (forall_of_ofAll hsets fun e he values hvalues => ih e he (hoperands e he) hvalues)
  | aggregate f ih =>
    obtain ⟨hregular, hoperands⟩ := Expr.wellFormed_aggregate.mp he
    have hlist : ∀ e ∈ f.list, ∀ values, ofExpr s e = .ok values → values.Valid :=
      fun e he values hvalues =>
        ih e (f.list_subset_operands he) (hoperands e (f.list_subset_operands he)) hvalues
    rw [ofExpr] at hvalues
    cases f with
    | sum terms coefficients =>
      obtain ⟨sets, hsets, rfl⟩ := Except.map_eq_ok.mp hvalues
      exact valid_ofSum (forall_of_ofAll hsets hlist) (fits_coefficients hregular)
    | count list _ =>
      cases hvalues
      exact valid_counted hregular.2.1
    | nValues list _ =>
      cases hvalues
      exact valid_counted hregular.2.1
    | minimum list | maximum list =>
      obtain ⟨sets, hsets, rfl⟩ := Except.map_eq_ok.mp hvalues
      exact valid_ofOperator _ (forall_of_ofAll hsets hlist)
    | element list _ _ =>
      obtain ⟨sets, hsets, rfl⟩ := Except.map_eq_ok.mp hvalues
      exact valid_union (forall_of_ofAll hsets hlist)

end Values

/-! ### What values are computed from -/

/-- The operands whose values the value of an aggregate is computed from, rather than counted. -/
def Aggregate.sources : Aggregate Expr → List Expr
  | .count _ _ => []
  | .nValues _ _ => []
  | f => f.list

/-- Whether the values of an expression are computed from those of the variable.  Those of a
predicate are not, they are the truth values. -/
inductive Expr.ComputedFrom (v : Variable) : Expr → Prop
  | var : ComputedFrom v (.var v)
  | apply {op : Operator} {operands : List Expr} {e : Expr} : op.isPredicate = false →
      e ∈ operands → ComputedFrom v e → ComputedFrom v (.apply op operands)
  | aggregate {f : Aggregate Expr} {e : Expr} : e ∈ f.sources → ComputedFrom v e →
      ComputedFrom v (.aggregate f)

theorem Aggregate.sources_subset_operands (f : Aggregate Expr) : f.sources ⊆ f.operands := by
  cases f with
  | count | nValues => exact List.nil_subset _
  | element list index _ => exact List.subset_append_left list [index]
  | _ => exact List.Subset.refl _

namespace Values

variable {s : Store}

/-- The values of an aggregate are made of those of its sources. -/
theorem exists_ofExpr_aggregate (f : Aggregate Expr) :
    ∃ g, ofExpr s (.aggregate f) = (ofAll s f.sources).map g := by
  cases f with
  | count list | nValues list => exact ⟨fun _ => _, rfl⟩
  | _ => exact ⟨_, rfl⟩

theorem exists_error_of_map {list : List Expr} {g : List Values → Values} {cause : DomainError}
    (h : (ofAll s list).map g = .error cause) : ∃ e ∈ list, ofExpr s e = .error cause := by
  cases hsets : ofAll s list with
  | error cause' =>
    rw [hsets] at h
    cases h
    exact exists_error_of_ofAll hsets
  | ok sets =>
    rw [hsets] at h
    cases h

/-- Values cannot be computed on account of a symbolic variable only, which is named. -/
theorem exists_symbolic_of_ofExpr {e : Expr} {cause : DomainError}
    (h : ofExpr s e = .error cause) : ∃ v, e.ComputedFrom v ∧
      (s.domainOf v).isSymbolic = true ∧ cause = .notNumeric (s.nameOf v) := by
  induction e using Expr.induction with
  | const | set => cases h
  | var v =>
    rw [ofExpr] at h
    split at h
    · rename_i hsymbolic
      cases h
      exact ⟨v, .var, hsymbolic, rfl⟩
    · cases h
  | apply op operands ih =>
    rw [ofExpr] at h
    split at h
    · cases h
    · rename_i hop
      obtain ⟨e, he, herror⟩ := exists_error_of_map h
      obtain ⟨v, hv, hsymbolic⟩ := ih e he herror
      exact ⟨v, .apply (Bool.eq_false_iff.mpr hop) he hv, hsymbolic⟩
  | aggregate f ih =>
    obtain ⟨g, hg⟩ := exists_ofExpr_aggregate (s := s) f
    obtain ⟨e, he, herror⟩ := exists_error_of_map (hg.symm.trans h)
    obtain ⟨v, hv, hsymbolic⟩ := ih e (f.sources_subset_operands he) herror
    exact ⟨v, .aggregate he hv, hsymbolic⟩

/-- Nothing can be computed from a symbolic variable. -/
theorem ofExpr_ne_ok {e : Expr} {v : Variable} (h : e.ComputedFrom v)
    (hv : (s.domainOf v).isSymbolic = true) (values : Values) : ofExpr s e ≠ .ok values := by
  have hmap : ∀ {list : List Expr} {g : List Values → Values} {values : Values} {e : Expr},
      e ∈ list → (∀ values, ofExpr s e ≠ .ok values) → (ofAll s list).map g ≠ .ok values := by
    intro list g values e he hnone hmap
    obtain ⟨sets, hsets, -⟩ := Except.map_eq_ok.mp hmap
    obtain ⟨values', -, hvalues'⟩ := exists_of_ofAll hsets he
    exact hnone values' hvalues'
  induction h generalizing values with
  | var =>
    rw [ofExpr, if_pos hv]
    exact nofun
  | apply hop he _ ih =>
    rw [ofExpr, if_neg (Bool.eq_false_iff.mp hop)]
    exact hmap he ih
  | @aggregate f e he _ ih =>
    obtain ⟨g, hg⟩ := exists_ofExpr_aggregate (s := s) f
    rw [hg]
    exact hmap he ih

end Values

/-! ### The values of operators as they are read -/

theorem Operator.exists_truth_of_value? {op : Operator} (hop : op.isPredicate = true)
    {ns : List Int} {n : Int} (h : op.value? ns = some n) : ∃ b, n = truth b := by
  unfold value? at h
  split at h <;> first | exact ⟨_, (Option.some.inj h).symm⟩ | cases hop | cases h

namespace Expr

variable {k : Calculus} {ρ : Assignment}

/-- A predicate is read as a truth value. -/
theorem exists_truth_of_read {op : Operator} (hop : op.isPredicate = true) {operands : List Expr}
    {v : Value} (h : (apply op operands).value? .bounded ρ = some v) :
    ∃ b, v = .integer (Operator.truth b) := by
  rw [value?_eq_some_iff, read] at h
  obtain ⟨read, _, h⟩ := Option.bind_eq_some_iff.mp h
  obtain ⟨n, hn, h⟩ := Option.map_eq_some_iff.mp h
  cases h
  unfold Calculus.apply at hn
  split at hn
  case h_1 | h_2 => exact ⟨_, congrArg _ (Option.some.inj hn).symm⟩
  case h_3 | h_4 =>
    obtain ⟨_, _, rfl⟩ := Option.map_eq_some_iff.mp hn
    exact ⟨_, rfl⟩
  case h_5 =>
    obtain ⟨ns, _, hn⟩ := Option.bind_eq_some_iff.mp hn
    obtain ⟨b, rfl⟩ := Operator.exists_truth_of_value? hop hn
    exact ⟨b, rfl⟩

/-- An operator that yields a number is about the integers its operands are read as. -/
theorem value?_apply_of_not_isPredicate {op : Operator} (hop : op.isPredicate = false)
    (operands : List Expr) : (apply op operands).value? k ρ =
      ((operands.mapM (integer? k ρ)).bind (k.operator op)).map .integer := by
  rw [show operands.mapM (integer? k ρ) = _ from (bind_readAll Operand.integer? operands).symm,
    Option.bind_assoc, Option.map_bind, value?, read, Option.bind_assoc]
  congr 1
  funext read
  have happly : k.apply op read = (read.mapM Operand.integer?).bind (k.operator op) := by
    cases op <;> first | rfl | cases hop
  rw [happly, Function.comp_apply]
  cases (read.mapM Operand.integer?).bind (k.operator op) <;> rfl

end Expr

/-! ### Soundness -/

/-- Every step of computing the values of an expression is sound.  The operands of a
predicate, the condition of a choice, the entries of a list whose values are only counted
and the index of an element do not matter. -/
inductive Expr.Sound (s : Store) : Expr → Prop
  | const (n : Int) : Sound s (const n)
  | var (v : Variable) : Sound s (var v)
  | set (members : List Int) : Sound s (set members)
  | predicate {op : Operator} (operands : List Expr) :
      op.isPredicate = true → Sound s (apply op operands)
  | choice (condition : Expr) {branches : List Expr} :
      (∀ e ∈ branches, Sound s e) → Sound s (apply .ifThenElse (condition :: branches))
  | apply {op : Operator} {operands : List Expr} : (∀ e ∈ operands, Sound s e) →
      (∀ left right, Values.ofAll s operands = .ok [left, right] → Values.Sound op left right) →
      Sound s (apply op operands)
  | count (list : List Expr) (values : List Int) : Sound s (aggregate (.count list values))
  | nValues (list : List Expr) (except : List Int) : Sound s (aggregate (.nValues list except))
  | aggregate {f : Aggregate Expr} : (∀ e ∈ f.list, Sound s e) → Sound s (aggregate f)

namespace Values

variable {s : Store} {ρ : Assignment}

theorem contains_count {list : List Expr} {values : List Int} {v : Value}
    (hv : (Aggregate.count list values).value? .bounded ρ = some v) :
    ∃ n, v = .integer n ∧ (counted 0 list.length).Contains n := by
  rw [Expr.value?_count] at hv
  obtain ⟨vs, hvs, rfl⟩ := Option.map_eq_some_iff.mp hv
  rw [Expr.values?_eq_mapM, mapM_eq_some_iff] at hvs
  have hlength := hvs.length_eq
  have hcount : vs.countP ((values.map Value.integer).contains ·) ≤ vs.length :=
    List.countP_le_length
  exact ⟨_, rfl, contains_counted (Nat.zero_le _) (by omega)⟩

theorem contains_nValues {list : List Expr} {except : List Int} (hne : list ≠ []) {v : Value}
    (hv : (Aggregate.nValues list except).value? .bounded ρ = some v) :
    ∃ n, v = .integer n ∧
      (counted (if except.isEmpty then 1 else 0) list.length).Contains n := by
  rw [Expr.value?_nValues] at hv
  obtain ⟨vs, hvs, rfl⟩ := Option.map_eq_some_iff.mp hv
  rw [Expr.values?_eq_mapM, mapM_eq_some_iff] at hvs
  have hlength := hvs.length_eq
  have hdistinct := length_eraseDups_le (vs.filter (!(except.map Value.integer).contains ·))
  have hkept := List.length_filter_le (!(except.map Value.integer).contains ·) vs
  refine ⟨_, rfl, contains_counted ?_ (by omega)⟩
  split
  · -- no value is left out, so the first one counts
    rename_i hexcept
    rw [List.isEmpty_iff.mp hexcept]
    cases vs with
    | nil => exact absurd (List.length_eq_zero_iff.mp hlength) hne
    | cons w rest => simp [List.eraseDups_cons]
  · exact Nat.zero_le _

/-- A list is folded like the operands of an operator that is sound on whatever sets. -/
theorem contains_folded (op : Operator) (hop : op.isPredicate = false)
    (hsound : ∀ left right, Sound op left right) {list : List Expr} {sets : List Values}
    (hsets : ofAll s list = .ok sets) (hvalid : ∀ values ∈ sets, values.Valid)
    (h : ∀ e ∈ list, ∀ values v, ofExpr s e = .ok values → e.value? .bounded ρ = some v →
      ∃ n, v = .integer n ∧ values.Contains n) {v : Value}
    (hv : ((list.mapM (Expr.integer? .bounded ρ)).bind fun ns =>
      (op.value? ns).map .integer) = some v) :
    ∃ n, v = .integer n ∧ (ofOperator op sets).Contains n := by
  obtain ⟨ns, hns, hv⟩ := Option.bind_eq_some_iff.mp hv
  obtain ⟨n, hn, rfl⟩ := Option.map_eq_some_iff.mp hv
  exact ⟨n, rfl, contains_ofOperator hop hvalid (fun left right _ => hsound left right)
    (contains_ofAll hsets hns h) hn⟩

theorem contains_list (hs : s.Consistent Domain.Normal) {f : Aggregate Expr} (hregular : f.Regular)
    (hwellFormed : ∀ e ∈ f.list, e.WellFormed s.Declares)
    (h : ∀ e ∈ f.list, ∀ values v, ofExpr s e = .ok values → e.value? .bounded ρ = some v →
      ∃ n, v = .integer n ∧ values.Contains n)
    {values : Values} (hvalues : ofAggregate s f = .ok values) {v : Value}
    (hv : f.value? .bounded ρ = some v) : ∃ n, v = .integer n ∧ values.Contains n := by
  have hvalid : ∀ {sets}, ofAll s f.list = .ok sets → ∀ values ∈ sets, values.Valid :=
    fun hsets => forall_of_ofAll hsets fun e he values => valid_ofExpr hs (hwellFormed e he)
  cases f with
  | sum terms coefficients =>
    obtain ⟨sets, hsets, rfl⟩ := Except.map_eq_ok.mp hvalues
    rw [Expr.value?_sum] at hv
    obtain ⟨ns, hns, hv⟩ := Option.bind_eq_some_iff.mp hv
    obtain ⟨n, hn, rfl⟩ := Option.map_eq_some_iff.mp hv
    have hlength := (mapM_eq_some_iff.mp hns).length_eq
    have hcoefficients : Aggregate.coefficientsOf ns coefficients =
        Aggregate.coefficientsOf terms coefficients := by
      simp only [Aggregate.coefficientsOf, List.map_const', hlength]
    rw [hcoefficients] at hn
    exact ⟨n, rfl, contains_ofSum (hvalid hsets) (fits_coefficients hregular)
      (contains_ofAll hsets hns h) hn⟩
  | count list values =>
    cases hvalues
    exact contains_count hv
  | nValues list except =>
    cases hvalues
    exact contains_nValues hregular.1 hv
  | minimum list =>
    obtain ⟨sets, hsets, rfl⟩ := Except.map_eq_ok.mp hvalues
    rw [Expr.value?_minimum] at hv
    exact contains_folded .min rfl (fun _ _ => .inr trivial) hsets (hvalid hsets) h hv
  | maximum list =>
    obtain ⟨sets, hsets, rfl⟩ := Except.map_eq_ok.mp hvalues
    rw [Expr.value?_maximum] at hv
    exact contains_folded .max rfl (fun _ _ => .inr trivial) hsets (hvalid hsets) h hv
  | element list index startIndex =>
    obtain ⟨sets, hsets, rfl⟩ := Except.map_eq_ok.mp hvalues
    rw [Expr.value?_element] at hv
    obtain ⟨vs, hvs, hv⟩ := Option.bind_eq_some_iff.mp hv
    obtain ⟨i, _, hv⟩ := Option.bind_eq_some_iff.mp hv
    obtain ⟨_, hv⟩ := Option.ite_none_right_eq_some.mp hv
    rw [Expr.values?_eq_mapM] at hvs
    obtain ⟨e, he, hv⟩ := exists_of_mem_mapM hvs (List.mem_of_getElem? hv)
    obtain ⟨values, hmem, hvalues⟩ := exists_of_ofAll hsets he
    obtain ⟨n, rfl, hn⟩ := h e he values v hvalues hv
    exact ⟨n, rfl, contains_union hmem (hvalid hsets values hmem) hn⟩

/-- The set that is computed for an expression holds its value. -/
theorem contains_ofExpr (hs : s.Consistent Domain.Normal) (hρ : s.Within ρ) {e : Expr}
    (he : e.WellFormed s.Declares) (hsound : e.Sound s) {values : Values}
    (hvalues : ofExpr s e = .ok values) {v : Value} (hv : e.value? .bounded ρ = some v) :
    ∃ n, v = .integer n ∧ values.Contains n := by
  induction e using Expr.induction generalizing values v with
  | const n =>
    cases hvalues
    cases hv
    exact ⟨n, rfl, List.mem_singleton.mpr rfl⟩
  | var x =>
    obtain rfl : ρ x = v := Option.some.inj hv
    rw [ofExpr] at hvalues
    split at hvalues
    · cases hvalues
    · rename_i hd
      cases hvalues
      have hintegral := (hs.domainOf he.regular).integral (Bool.eq_false_iff.mpr hd)
      have hholds := hρ x he.regular
      cases hx : ρ x with
      | integer n =>
        rw [hx] at hholds
        exact ⟨n, rfl, contains_ofDomain hintegral hholds⟩
      | symbol text =>
        rw [hx] at hholds
        exact absurd hholds (by rw [Domain.Holds, hintegral.noSymbol text]; exact Bool.false_ne_true)
  | set members => cases hv
  | apply op operands ih =>
    have hwellFormed := (Expr.wellFormed_apply.mp he).2
    rw [ofExpr] at hvalues
    split at hvalues
    · rename_i hop
      cases hvalues
      obtain ⟨b, rfl⟩ := Expr.exists_truth_of_read hop hv
      exact ⟨_, rfl, contains_truth b⟩
    · rename_i hop
      have hop := Bool.eq_false_iff.mpr hop
      obtain ⟨sets, hsets, rfl⟩ := Except.map_eq_ok.mp hvalues
      have hvalid := forall_of_ofAll hsets fun e he values => valid_ofExpr hs (hwellFormed e he)
      rw [Expr.value?_apply_of_not_isPredicate hop] at hv
      obtain ⟨n, hn, rfl⟩ := Option.map_eq_some_iff.mp hv
      obtain ⟨ns, hns, hn⟩ := Option.bind_eq_some_iff.mp hn
      refine ⟨n, rfl, ?_⟩
      cases hsound with
      | predicate _ hpredicate =>
        rw [hop] at hpredicate
        cases hpredicate
      | @choice condition branches hbranches =>
        obtain _ | ⟨_, hothers⟩ := ofAll_eq_ok_iff.mp hsets
        obtain _ | ⟨_, hms⟩ := mapM_eq_some_iff.mp hns
        refine contains_choice (fun values h => hvalid values (List.mem_cons_of_mem _ h))
          (contains_ofAll (ofAll_eq_ok_iff.mpr hothers) (mapM_eq_some_iff.mpr hms) ?_) hn
        exact fun e he values v hvalues hv => ih e (List.mem_cons_of_mem _ he)
          (hwellFormed e (List.mem_cons_of_mem _ he)) (hbranches e he) hvalues hv
      | apply hoperands hsound =>
        exact contains_ofOperator hop hvalid (fun left right h => hsound left right (h ▸ hsets))
          (contains_ofAll hsets hns fun e he values v hvalues hv =>
            ih e he (hwellFormed e he) (hoperands e he) hvalues hv) hn
  | aggregate f ih =>
    obtain ⟨hregular, hwellFormed⟩ := Expr.wellFormed_aggregate.mp he
    rw [Expr.value?_aggregate] at hv
    rw [ofExpr] at hvalues
    cases hsound with
    | count list _ =>
      cases hvalues
      exact contains_count hv
    | nValues list _ =>
      cases hvalues
      exact contains_nValues hregular.1 hv
    | aggregate hlist =>
      have hmem := f.list_subset_operands
      exact contains_list hs hregular (fun e he => hwellFormed e (hmem he))
        (fun e he values v hvalues hv =>
          ih e (hmem he) (hwellFormed e (hmem he)) (hlist e he) hvalues hv) hvalues hv

/-! ### Domains -/

theorem contains_toDomain {values : Values} {d : Domain} (h : values.toDomain = .ok d) {n : Int}
    (hn : values.Contains n) : d.contains n = true := by
  cases values with
  | finite ns => exact (Domain.contains_ofIntegers h).mpr hn
  | bounds lower upper => exact (Domain.contains_between h).mpr hn

/-- Every value of the domain is one of the set. -/
theorem contains_of_toDomain {values : Values} {d : Domain} (h : values.toDomain = .ok d) {n : Int}
    (hn : d.contains n = true) : values.Contains n := by
  cases values with
  | finite ns => exact (Domain.contains_ofIntegers h).mp hn
  | bounds lower upper => exact (Domain.contains_between h).mp hn

theorem toDomain_ne_empty {values : Values} {n : Int} (hn : values.Contains n) :
    ∃ d, values.toDomain = .ok d := by
  cases values with
  | finite ns =>
    cases ns with
    | nil => cases hn
    | cons => exact ⟨_, rfl⟩
  | bounds lower upper =>
    have := contains_bounds.mp hn
    exact ⟨_, if_neg (by omega)⟩

theorem normal_toDomain {values : Values} (h : values.Valid) {d : Domain}
    (hd : values.toDomain = .ok d) : d.Normal := by
  cases values with
  | finite ns => exact Domain.normal_ofIntegers h.2 hd
  | bounds lower upper => exact Domain.normal_between h.1 h.2 hd

end Values

/-- Every domain of a store is in normal form, those of auxiliary variables included. -/
theorem Store.Built.normal {s : Store} (h : s.Built) : s.Consistent Domain.Normal := by
  refine h.consistent (fun d hd => hd.normal) fun s e d hs he hd => ?_
  obtain ⟨values, hvalues, hd⟩ := Except.bind_eq_ok.mp hd
  exact Values.normal_toDomain (Values.valid_ofExpr hs he hvalues) hd

/-- The domain for an expression holds every value the expression takes, and there is one
when the expression takes any. -/
def Expr.Complete (s : Store) (e : Expr) : Prop :=
  ∀ ρ v, s.Within ρ → e.value? .bounded ρ = some v → possibleValues s e ≠ .error .empty ∧
    ∀ d, possibleValues s e = .ok d → d.Holds v

/-- Where every step is sound, no value is missed. -/
theorem Expr.Sound.complete {s : Store} (hs : s.Built) {e : Expr} (he : e.WellFormed s.Declares)
    (hsound : e.Sound s) : e.Complete s := by
  intro ρ v hρ hv
  unfold possibleValues
  cases hvalues : Values.ofExpr s e with
  | error why =>
    obtain ⟨v, -, -, rfl⟩ := Values.exists_symbolic_of_ofExpr hvalues
    refine ⟨fun h => ?_, fun d h => ?_⟩ <;> cases h
  | ok values =>
    obtain ⟨n, rfl, hn⟩ := Values.contains_ofExpr hs.normal hρ he hsound hvalues hv
    obtain ⟨d, hd⟩ := Values.toDomain_ne_empty hn
    refine ⟨fun h => ?_, fun d hd => Values.contains_toDomain hd hn⟩
    rw [show (Except.ok values).bind Values.toDomain = values.toDomain from rfl, hd] at h
    cases h

/-! ### Necessity -/

/-- A domain without gaps. -/
def Domain.Unbroken (d : Domain) : Prop :=
  ∀ m n k, d.contains m = true → d.contains n = true → m ≤ k → k ≤ n → d.contains k = true

theorem Domain.unbroken_interval (values : Interval) : (⟨[.interval values]⟩ : Domain).Unbroken := by
  intro m n k hm hn hmk hkn
  simp only [Domain.contains, List.any_cons, List.any_nil, Bool.or_false, Atom.contains,
    Interval.contains, Bool.and_eq_true, decide_eq_true_eq] at hm hn ⊢
  omega

/-- A domain in normal form is not empty. -/
theorem Domain.Normal.exists_holds {d : Domain} (h : d.Normal) : ∃ v, d.Holds v := by
  cases h with
  | @ofRuns ranges hne h =>
    obtain ⟨r, hr⟩ := List.exists_mem_of_ne_nil ranges hne
    exact ⟨.integer r.1, (Domain.contains_ofRuns fun r hr => (h r hr).1).mpr
      ⟨r, hr, Int.le_refl _, (h r hr).1⟩⟩
  | @ofSymbols symbols hne =>
    obtain ⟨text, htext⟩ := List.exists_mem_of_ne_nil symbols hne
    refine ⟨.symbol text, ?_⟩
    rw [Domain.Holds, Domain.containsSymbol, Domain.symbols_ofSymbols, List.contains_iff_mem]
    exact Ascending.mem_ofList.mpr htext

theorem Store.exists_assignment {s : Store} (hs : s.Consistent Domain.Normal) :
    ∃ ρ, s.Within ρ := by
  have hany : ∀ v, ∃ w, s.Declares v → (s.domainOf v).Holds w := fun v => by
    by_cases hv : s.Declares v
    · obtain ⟨w, hw⟩ := (hs.domainOf hv).exists_holds
      exact ⟨w, fun _ => hw⟩
    · exact ⟨.integer 0, fun h => absurd h hv⟩
  choose ρ hρ using hany
  exact ⟨ρ, hρ⟩

/-- One variable can be given any value of its domain. -/
theorem Store.Within.update {s : Store} {ρ : Assignment} (h : s.Within ρ) {x : Variable} {v : Value}
    (hv : (s.domainOf x).Holds v) : s.Within (Function.update ρ x v) := by
  intro y hy
  by_cases hyx : y = x
  · subst hyx
    rwa [Function.update_self]
  · rw [Function.update_of_ne hyx]
    exact h y hy

/-- Some assignment gives two variables any values of their domains. -/
theorem Store.exists_within {s : Store} (hs : s.Consistent Domain.Normal) {x y : Variable}
    (hxy : x ≠ y) {v w : Value} (hv : (s.domainOf x).Holds v) (hw : (s.domainOf y).Holds w) :
    ∃ ρ, s.Within ρ ∧ ρ x = v ∧ ρ y = w := by
  obtain ⟨τ, hτ⟩ := Store.exists_assignment hs
  refine ⟨Function.update (Function.update τ y w) x v, (hτ.update hw).update hv, ?_, ?_⟩
  · rw [Function.update_self]
  · rw [Function.update_of_ne (Ne.symm hxy), Function.update_self]

theorem value?_apply_pair {op : Operator} (hop : op.isPredicate = false) {ρ : Assignment}
    {x y : Variable} {n m : Int} (hx : ρ x = .integer n) (hy : ρ y = .integer m) :
    (Expr.apply op [.var x, .var y]).value? .bounded ρ = (op.value? [n, m]).map .integer := by
  have hxn : (Expr.var x).integer? .bounded ρ = some n := by
    rw [Expr.integer?, Expr.read, hx]
    rfl
  have hym : (Expr.var y).integer? .bounded ρ = some m := by
    rw [Expr.integer?, Expr.read, hy]
    rfl
  rw [Expr.value?_apply_of_not_isPredicate hop, List.mapM_cons, List.mapM_cons, hxn, hym]
  rfl

theorem Values.toDomain_cases (values : Values) :
    (∃ d, values.toDomain = .ok d) ∨ values.toDomain = .error .empty := by
  cases values with
  | finite ns =>
    cases ns with
    | nil => exact .inr rfl
    | cons => exact .inl ⟨_, rfl⟩
  | bounds lower upper =>
    by_cases h : upper < lower
    · exact .inr (if_pos h)
    · exact .inl ⟨_, if_neg h⟩

theorem Values.eq_ofDomain {s : Store} {x : Variable} {values : Values}
    (h : ofExpr s (.var x) = .ok values) :
    (s.domainOf x).isSymbolic = false ∧ values = ofDomain (s.domainOf x) := by
  rw [ofExpr] at h
  split at h
  · cases h
  · rename_i hd
    cases h
    exact ⟨Bool.eq_false_iff.mpr hd, rfl⟩

/-- Where no value of an operator on two variables is missed, it is sound. -/
theorem Expr.Complete.sound {s : Store} (hs : s.Built) {op : Operator} {x y : Variable}
    (hxy : x ≠ y) (hx : s.Declares x) (hy : s.Declares y) (hxu : (s.domainOf x).Unbroken)
    (hyu : (s.domainOf y).Unbroken) (h : (Expr.apply op [.var x, .var y]).Complete s) :
    (Expr.apply op [.var x, .var y]).Sound s := by
  cases hop : op.isPredicate with
  | true => exact .predicate _ hop
  | false =>
    refine .apply (fun e he => ?_) fun left right hsets => ?_
    · rcases List.mem_pair.mp he with rfl | rfl
      · exact .var x
      · exact .var y
    · obtain _ | ⟨hleft, _ | ⟨hright, _ | _⟩⟩ := Values.ofAll_eq_ok_iff.mp hsets
      obtain ⟨hxd, rfl⟩ := Values.eq_ofDomain hleft
      obtain ⟨hyd, rfl⟩ := Values.eq_ofDomain hright
      have hxd := (hs.normal.domainOf hx).integral hxd
      have hyd := (hs.normal.domainOf hy).integral hyd
      have hxv := Values.valid_ofDomain hxd
      have hyv := Values.valid_ofDomain hyd
      obtain ⟨hxl, hxg⟩ := Values.contains_bounds_ofDomain hxd
      obtain ⟨hyl, hyg⟩ := Values.contains_bounds_ofDomain hyd
      have hxle := (hxv.between (Values.contains_ofDomain hxd hxl)).2
      have hyle := (hyv.between (Values.contains_ofDomain hyd hyl)).2
      by_contra hnot
      obtain ⟨henum, henclosed⟩ := not_or.mp hnot
      have hmissed := mt (Values.enclosed_iff hxv.lower_fits hxv.upper_fits hyv.lower_fits
        hyv.upper_fits hxle hyle).mpr henclosed
      simp only [not_forall] at hmissed
      obtain ⟨n, m, v, hn, hm, hv, hmissed⟩ := hmissed
      -- the values that are combined are values of the variables
      obtain ⟨ρ, hρ, hρx, hρy⟩ := Store.exists_within hs.normal hxy (v := .integer n)
        (w := .integer m) (hxu _ _ n hxl hxg hn.1 hn.2) (hyu _ _ m hyl hyg hm.1 hm.2)
      have hvalue : (Expr.apply op [.var x, .var y]).value? .bounded ρ = some (.integer v) := by
        rw [value?_apply_pair hop hρx hρy, hv]
        rfl
      have hpossible : possibleValues s (.apply op [.var x, .var y]) =
          (Values.binary op (.ofDomain (s.domainOf x)) (.ofDomain (s.domainOf y))).toDomain := by
        rw [possibleValues, Values.ofExpr, if_neg (Bool.eq_false_iff.mp hop), hsets]
        cases op with
        | div | mod | pow => rfl
        | _ => exact absurd trivial henclosed
      obtain ⟨hne, hholds⟩ := h ρ _ hρ hvalue
      rw [hpossible] at hne hholds
      rcases Values.toDomain_cases (Values.binary op (.ofDomain (s.domainOf x))
        (.ofDomain (s.domainOf y))) with ⟨d, hd⟩ | hempty
      · have hcontains := Values.contains_of_toDomain hd (hholds d hd)
        obtain ⟨_, _, _, _, henum', _⟩ | ⟨_, hbounds⟩ := Values.binary_cases op
          (.ofDomain (s.domainOf x)) (.ofDomain (s.domainOf y))
        · exact henum henum'
        · rw [hbounds] at hcontains
          exact hmissed hcontains
      · exact hne hempty

/-- No value is missed where every step is sound.  The condition on the boxes is exact for
every operator on bounds, and so it is for an operator on two variables without gaps. -/
theorem possibleValues_complete {s : Store} (hs : s.Built) :
    (∀ e : Expr, e.WellFormed s.Declares → e.Sound s → e.Complete s) ∧
    (∀ op a b c d, Fits a → Fits b → Fits c → Fits d → a ≤ b → c ≤ d →
      (Values.Enclosed op a b c d ↔ ∀ n m v, a ≤ n ∧ n ≤ b → c ≤ m ∧ m ≤ d →
        op.value? [n, m] = some v → (Values.binaryBounds op a b c d).Contains v)) ∧
    ∀ op x y, op.accepts 2 = true → x ≠ y → s.Declares x → s.Declares y →
      (s.domainOf x).Unbroken → (s.domainOf y).Unbroken →
      ((Expr.apply op [.var x, .var y]).Complete s ↔ (Expr.apply op [.var x, .var y]).Sound s) := by
  refine ⟨fun e he hsound => hsound.complete hs he,
    fun op a b c d ha hb hc hd hab hcd => Values.enclosed_iff ha hb hc hd hab hcd,
    fun op x y hop hxy hx hy hxu hyu => ⟨fun h => h.sound hs hxy hx hy hxu hyu, fun h => ?_⟩⟩
  refine h.complete hs (Expr.wellFormed_apply.mpr ⟨⟨hop, fun _ inner hinner => ?_⟩, fun e he => ?_⟩)
  · simp at hinner
  · rcases List.mem_pair.mp he with rfl | rfl
    · intro p hp
      rw [List.mem_singleton.mp hp]
      exact hx
    · intro p hp
      rw [List.mem_singleton.mp hp]
      exact hy

namespace Quotients

/-- Two variables that are not positive, the first without a lower bound. -/
def store : Store :=
  match ({ model := 0 } : Store).declareVariable none ⟨[.interval ⟨lowest, 0, by decide⟩]⟩ with
  | .error _ => { model := 0 }
  | .ok (_, s) =>
    match s.declareVariable none ⟨[.interval ⟨-3, -1, by decide⟩]⟩ with
    | .error _ => s
    | .ok (_, s) => s

def x : Variable := ⟨0, 0⟩

def y : Variable := ⟨0, 1⟩

theorem built_store : store.Built := by
  have hfirst : Domain.ofSpec (.range lowest 0 1) = .ok ⟨[.interval ⟨lowest, 0, by decide⟩]⟩ := by
    cbv
  have hsecond : Domain.ofSpec (.range (-3) (-1) 1) = .ok ⟨[.interval ⟨-3, -1, by decide⟩]⟩ := by
    cbv
  unfold store
  split
  · exact .new 0
  · rename_i h
    have hs := Store.Built.declareVariable (.new 0) (.ofSpec (by decide) hfirst) h
    split
    · exact hs
    · rename_i h
      exact .declareVariable hs (.ofSpec (by decide) hsecond) h

theorem domainOf_x : store.domainOf x = ⟨[.interval ⟨lowest, 0, by decide⟩]⟩ := by
  cbv

theorem domainOf_y : store.domainOf y = ⟨[.interval ⟨-3, -1, by decide⟩]⟩ := by
  cbv

theorem declares_x : store.Declares x := by
  refine ⟨?_, ?_⟩
  · cbv
  · cbv

theorem declares_y : store.Declares y := by
  refine ⟨?_, ?_⟩
  · cbv
  · cbv

theorem ofExpr_x : Values.ofExpr store (.var x) = .ok (.bounds lowest 0) := by
  cbv

theorem ofExpr_y : Values.ofExpr store (.var y) = .ok (.finite [-3, -2, -1]) := by
  cbv

theorem wellFormed_half : (Expr.apply .div [.var x, .const 2]).WellFormed store.Declares := by
  refine Expr.wellFormed_apply.mpr ⟨⟨rfl, fun h => nomatch h⟩, fun e he p hp => ?_⟩
  rcases List.mem_pair.mp he with rfl | rfl
  · rw [List.mem_singleton.mp hp]
    exact declares_x
  · rw [List.mem_singleton.mp hp]
    show Fits 2
    decide

theorem sound_half : (Expr.apply .div [.var x, .const 2]).Sound store := by
  refine .apply (fun e he => ?_) fun left right hsets => .inr ?_
  · rcases List.mem_pair.mp he with rfl | rfl
    · exact .var x
    · exact .const 2
  · obtain _ | ⟨hleft, _ | ⟨hright, _ | _⟩⟩ := Values.ofAll_eq_ok_iff.mp hsets
    cases hright
    intro _ hc _
    exact absurd hc (by decide)

theorem not_sound_quotient : ¬(Expr.apply .div [.var x, .var y]).Sound store := by
  intro h
  cases h with
  | predicate _ hop => cases hop
  | apply _ hsound =>
    have hsets : Values.ofAll store [.var x, .var y] =
        .ok [.bounds lowest 0, .finite [-3, -2, -1]] :=
      Values.ofAll_eq_ok_iff.mpr (.cons ofExpr_x (.cons ofExpr_y .nil))
    rcases hsound _ _ hsets with henum | henclosed
    · exact henum
    · exact absurd (henclosed rfl (by decide) (by decide)) (by decide)

/-- Halves have a domain that holds them; among the quotients by two negative numbers the
domain misses some. -/
theorem complete_half_not_quotient : (Expr.apply .div [.var x, .const 2]).Complete store ∧
    ¬(Expr.apply .div [.var x, .var y]).Complete store := by
  refine ⟨(possibleValues_complete built_store).1 _ wellFormed_half sound_half, fun h => ?_⟩
  refine not_sound_quotient (((possibleValues_complete built_store).2.2 .div x y rfl (by decide)
    declares_x declares_y ?_ ?_).mp h)
  · rw [domainOf_x]
    exact Domain.unbroken_interval _
  · rw [domainOf_y]
    exact Domain.unbroken_interval _

end Quotients
end CspModel
