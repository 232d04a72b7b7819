import CspModel.Proofs.Declared

/-! # Normal forms of domains

The runs of a domain of integers ascend and leave at least one integer out between
neighbours, whatever ranges the domain was described by.  From this the smallest and
the greatest integer can be read off the first and the last atom, and the integers
read off the atoms ascend.
-/
namespace CspModel

open Bounded

/-- The integer lies in the range. -/
def InRange (n : Int) (run : Int × Int) : Prop := run.1 ≤ n ∧ n ≤ run.2

theorem exists_mem_cons {α : Type} {P : α → Prop} {a : α} {list : List α} :
    (∃ b ∈ a :: list, P b) ↔ P a ∨ ∃ b ∈ list, P b := by
  simp

/-! ### Runs -/

/-- The runs ascend and do not touch. -/
def Separate (runs : List (Int × Int)) : Prop :=
  runs.Pairwise (fun r r' => r.2 + 1 < r'.1) ∧ ∀ r ∈ runs, r.1 ≤ r.2

/-- Runs found so far, the last one first, and a range that starts after all of them. -/
theorem addRun_spec {found : List (Int × Int)} {run : Int × Int}
    (hfound : Separate found.reverse) (hrun : run.1 ≤ run.2) (hstart : ∀ r ∈ found, r.1 ≤ run.1) :
    Separate (addRun found run).reverse ∧ (∀ r ∈ addRun found run, r.1 ≤ run.1) ∧
      ∀ n, (∃ r ∈ addRun found run, InRange n r) ↔ (∃ r ∈ found, InRange n r) ∨ InRange n run := by
  obtain ⟨hpairwise, hvalid⟩ := hfound
  rw [List.pairwise_reverse] at hpairwise
  simp only [List.mem_reverse] at hvalid
  cases found with
  | nil =>
    refine ⟨⟨List.pairwise_singleton _ _, ?_⟩, ?_, fun n => ?_⟩
    · simpa [addRun] using hrun
    · simp [addRun]
    · simp [addRun]
  | cons last earlier =>
    obtain ⟨hgap, hearlier⟩ := List.pairwise_cons.mp hpairwise
    have hlast := hvalid last List.mem_cons_self
    have hbefore := hstart last List.mem_cons_self
    unfold addRun Separate
    simp only [List.pairwise_reverse, List.mem_reverse]
    split
    · refine ⟨⟨List.pairwise_cons.mpr ⟨hgap, hearlier⟩, ?_⟩, ?_, fun n => ?_⟩
      · intro r hr
        rcases List.mem_cons.mp hr with rfl | hr
        · exact Int.le_trans hlast (Int.le_max_left _ _)
        · exact hvalid r (List.mem_cons_of_mem _ hr)
      · intro r hr
        rcases List.mem_cons.mp hr with rfl | hr
        · exact hbefore
        · exact hstart r (List.mem_cons_of_mem _ hr)
      · have hmerged : InRange n (last.1, max last.2 run.2) ↔ InRange n last ∨ InRange n run := by
          unfold InRange
          omega
        rw [exists_mem_cons, exists_mem_cons, hmerged, or_right_comm]
    · refine ⟨⟨List.pairwise_cons.mpr ⟨fun r hr => ?_, hpairwise⟩, ?_⟩, ?_, fun n => ?_⟩
      · rcases List.mem_cons.mp hr with rfl | hr
        · omega
        · have := hgap r hr
          omega
      · intro r hr
        rcases List.mem_cons.mp hr with rfl | hr
        · exact hrun
        · exact hvalid r hr
      · intro r hr
        rcases List.mem_cons.mp hr with rfl | hr
        · exact Int.le_refl _
        · exact hstart r hr
      · rw [exists_mem_cons, or_comm]

theorem foldl_addRun_spec {ranges found : List (Int × Int)} (hfound : Separate found.reverse)
    (hranges : ∀ r ∈ ranges, r.1 ≤ r.2) (hsorted : ranges.Pairwise fun r r' => r.1 ≤ r'.1)
    (hstart : ∀ r ∈ found, ∀ r' ∈ ranges, r.1 ≤ r'.1) :
    Separate (ranges.foldl addRun found).reverse ∧
      ∀ n, (∃ r ∈ ranges.foldl addRun found, InRange n r) ↔
        (∃ r ∈ found, InRange n r) ∨ ∃ r ∈ ranges, InRange n r := by
  induction ranges generalizing found with
  | nil => exact ⟨hfound, fun n => by simp⟩
  | cons run rest ih =>
    obtain ⟨hfirst, hsorted⟩ := List.pairwise_cons.mp hsorted
    obtain ⟨hseparate, hstart', hcovers⟩ := addRun_spec hfound
      (hranges run List.mem_cons_self) fun r hr => hstart r hr run List.mem_cons_self
    obtain ⟨hseparate, hcovers'⟩ := ih hseparate
      (fun r hr => hranges r (List.mem_cons_of_mem _ hr)) hsorted
      fun r hr r' hr' => Int.le_trans (hstart' r hr) (hfirst r' hr')
    refine ⟨hseparate, fun n => ?_⟩
    rw [List.foldl_cons, hcovers', hcovers, exists_mem_cons, or_assoc]

/-- The maximal runs of some ranges cover what the ranges cover. -/
theorem maximalRuns_spec {ranges : List (Int × Int)} (h : ∀ r ∈ ranges, r.1 ≤ r.2) :
    Separate (maximalRuns ranges) ∧
      ∀ n, (∃ r ∈ maximalRuns ranges, InRange n r) ↔ ∃ r ∈ ranges, InRange n r := by
  have hsorted : (ranges.mergeSort runLe).Pairwise fun r r' => r.1 ≤ r'.1 := by
    refine (List.pairwise_mergeSort ?_ ?_ ranges).imp ?_
    · intro r r' r'' h h'
      unfold runLe at h h' ⊢
      simp only [Bool.or_eq_true, Bool.and_eq_true, decide_eq_true_eq, beq_iff_eq] at h h' ⊢
      omega
    · intro r r'
      unfold runLe
      simp only [Bool.or_eq_true, Bool.and_eq_true, decide_eq_true_eq, beq_iff_eq]
      omega
    · intro r r' hle
      unfold runLe at hle
      simp only [Bool.or_eq_true, Bool.and_eq_true, decide_eq_true_eq, beq_iff_eq] at hle
      omega
  have hnone : Separate ([] : List (Int × Int)).reverse := ⟨.nil, fun r hr => nomatch hr⟩
  obtain ⟨hseparate, hcovers⟩ := foldl_addRun_spec hnone
    (fun r hr => h r (List.mem_mergeSort.mp hr)) hsorted fun r hr => nomatch hr
  refine ⟨hseparate, fun n => ?_⟩
  simpa [maximalRuns] using hcovers n

theorem Separate.head_le {runs : List (Int × Int)} (h : Separate runs) {r : Int × Int}
    (hr : r ∈ runs) : ∃ first, runs.head? = some first ∧ first.1 ≤ r.1 := by
  cases runs with
  | nil => cases hr
  | cons first rest =>
    refine ⟨first, rfl, ?_⟩
    rcases List.mem_cons.mp hr with rfl | hr'
    · exact Int.le_refl _
    · have hgap := (List.pairwise_cons.mp h.1).1 r hr'
      have hfirst := h.2 first List.mem_cons_self
      omega

theorem Separate.le_last {runs : List (Int × Int)} (h : Separate runs) {r : Int × Int}
    (hr : r ∈ runs) : ∃ last, runs.getLast? = some last ∧ r.2 ≤ last.2 := by
  rcases List.eq_nil_or_concat runs with rfl | ⟨rest, last, rfl⟩
  · cases hr
  · refine ⟨last, by simp, ?_⟩
    rw [List.concat_eq_append] at hr h
    rcases List.mem_append.mp hr with hr' | hr'
    · have hgap := (List.pairwise_append.mp h.1).2.2 r hr' last (List.mem_singleton_self _)
      have hlast := h.2 last (by simp)
      omega
    · obtain rfl := List.mem_singleton.mp hr'
      exact Int.le_refl _

/-! ### Atoms -/

/-- The integers of an atom in ascending order. -/
def Atom.integers (a : Atom) : List Int := a.firstIntegers a.integerCount

theorem Atom.mem_integers {a : Atom} {n : Int} : n ∈ a.integers ↔ a.contains n = true := by
  cases a with
  | integer value =>
    have hvalue : (integer value).integers = [value] := by
      simp [integers, firstIntegers, lowerBound, integerCount]
    rw [hvalue, List.mem_singleton, contains, beq_iff_eq, eq_comm]
  | interval values =>
    have hless := values.inf_lt_sup
    simp only [integers, firstIntegers, lowerBound, integerCount, contains, Interval.count,
      Interval.contains, Nat.min_self, List.mem_map, List.mem_range, Bool.and_eq_true,
      decide_eq_true_eq]
    constructor
    · rintro ⟨k, hk, rfl⟩
      omega
    · intro h
      exact ⟨(n - values.inf).toNat, by omega, by omega⟩
  | symbol text => simp [integers, firstIntegers, lowerBound, contains]

theorem Atom.pairwise_integers (a : Atom) : a.integers.Pairwise (· < ·) := by
  unfold integers firstIntegers
  split
  · exact .nil
  · rw [List.pairwise_map]
    exact List.pairwise_lt_range.imp fun h => by omega

theorem contains_atomsOfRun {run : Int × Int} (h : run.1 ≤ run.2) {n : Int} :
    (∃ a ∈ atomsOfRun run, a.contains n = true) ↔ InRange n run := by
  unfold atomsOfRun InRange
  split
  · simp [Atom.contains, Interval.contains]
  · split
    · simp only [List.mem_cons, List.not_mem_nil, or_false, exists_eq_or_imp, exists_eq_left,
        Atom.contains, beq_iff_eq]
      omega
    · simp only [List.mem_singleton, exists_eq_left, Atom.contains, beq_iff_eq]
      omega

namespace Domain

theorem mem_integers {d : Domain} {n : Int} : n ∈ d.integers ↔ d.contains n = true := by
  unfold integers contains
  rw [List.mem_flatMap, List.any_eq_true]
  exact exists_congr fun a => and_congr_right fun _ => Atom.mem_integers

/-- The domain of some ranges contains what they cover. -/
theorem contains_ofRuns {ranges : List (Int × Int)} (h : ∀ r ∈ ranges, r.1 ≤ r.2) {n : Int} :
    (ofRuns ranges).contains n = true ↔ ∃ r ∈ ranges, InRange n r := by
  obtain ⟨⟨_, hvalid⟩, hcovers⟩ := maximalRuns_spec h
  rw [← hcovers, contains, List.any_eq_true, ofRuns]
  simp only [List.mem_flatMap]
  constructor
  · rintro ⟨a, ⟨r, hr, ha⟩, hn⟩
    exact ⟨r, hr, (contains_atomsOfRun (hvalid r hr)).mp ⟨a, ha, hn⟩⟩
  · rintro ⟨r, hr, hn⟩
    obtain ⟨a, ha, hn⟩ := (contains_atomsOfRun (hvalid r hr)).mpr hn
    exact ⟨a, ⟨r, hr, ha⟩, hn⟩

/-- What a domain of integers is in normal form. -/
structure Integral (d : Domain) : Prop where
  /-- The first and the last atom bound all integers. -/
  bounds : ∃ lower upper, d.smallest = some lower ∧ d.greatest = some upper ∧ Fits lower ∧
    Fits upper ∧ ∀ n, d.contains n = true → lower ≤ n ∧ n ≤ upper
  attained : ∀ lower upper, d.smallest = some lower → d.greatest = some upper →
    d.contains lower = true ∧ d.contains upper = true
  ascending : d.integers.Pairwise (· < ·)
  noSymbol : ∀ text, d.containsSymbol text = false

theorem smallest_ofRuns {ranges : List (Int × Int)} {first : Int × Int}
    (h : (maximalRuns ranges).head? = some first) : (ofRuns ranges).smallest = some first.1 := by
  obtain ⟨rest, hrest⟩ := List.head?_eq_some_iff.mp h
  unfold smallest ofRuns
  rw [hrest, List.flatMap_cons]
  unfold atomsOfRun
  split
  · rfl
  · split <;> rfl

theorem greatest_ofRuns {ranges : List (Int × Int)} {last : Int × Int}
    (h : (maximalRuns ranges).getLast? = some last) (hlast : last.1 ≤ last.2) :
    (ofRuns ranges).greatest = some last.2 := by
  obtain ⟨rest, hrest⟩ := List.getLast?_eq_some_iff.mp h
  unfold greatest ofRuns
  rw [hrest, List.flatMap_append, List.flatMap_singleton]
  unfold atomsOfRun
  split
  · simp [Atom.upperBound]
  · split
    · simp [Atom.upperBound]
    · have hsame : last.1 = last.2 := by omega
      simp [Atom.upperBound, hsame]

theorem integers_ascend_of_runs {runs : List (Int × Int)} (h : Separate runs) :
    (⟨runs.flatMap atomsOfRun⟩ : Domain).integers.Pairwise (· < ·) := by
  have hintegers : (⟨runs.flatMap atomsOfRun⟩ : Domain).integers =
      runs.flatMap fun r => (atomsOfRun r).flatMap Atom.integers := by
    unfold integers
    rw [List.flatMap_assoc]
    rfl
  have hmem : ∀ r ∈ runs, ∀ n ∈ (atomsOfRun r).flatMap Atom.integers, InRange n r := by
    intro r hr n hn
    obtain ⟨a, ha, hn⟩ := List.mem_flatMap.mp hn
    exact (contains_atomsOfRun (h.2 r hr)).mp ⟨a, ha, Atom.mem_integers.mp hn⟩
  rw [hintegers, List.pairwise_flatMap]
  refine ⟨fun r hr => ?_, ?_⟩
  · unfold atomsOfRun
    split
    · rw [List.flatMap_singleton]
      exact Atom.pairwise_integers _
    · split
      · simpa [Atom.integers, Atom.firstIntegers, Atom.lowerBound, Atom.integerCount]
      · rw [List.flatMap_singleton]
        exact Atom.pairwise_integers _
  · refine h.1.imp_of_mem fun {r r'} hr hr' hgap n hn n' hn' => ?_
    obtain ⟨_, hn⟩ := hmem r hr n hn
    obtain ⟨hn', _⟩ := hmem r' hr' n' hn'
    omega

/-- The normal forms of domains over the bounded range. -/
inductive Normal : Domain → Prop
  | ofRuns {ranges : List (Int × Int)} : ranges ≠ [] →
      (∀ r ∈ ranges, r.1 ≤ r.2 ∧ Fits r.1 ∧ Fits r.2) → Normal (ofRuns ranges)
  | ofSymbols {symbols : List String} : symbols ≠ [] → Normal (ofSymbols symbols)

theorem isSymbolic_ofSymbols {symbols : List String} (h : symbols ≠ []) :
    (ofSymbols symbols).isSymbolic = true := by
  obtain ⟨text, rest, hsymbols⟩ := List.exists_cons_of_ne_nil h
  have hmem : text ∈ Ascending.ofList symbols :=
    Ascending.mem_ofList.mpr (hsymbols ▸ List.mem_cons_self)
  unfold isSymbolic kind ofSymbols
  cases hlist : Ascending.ofList symbols with
  | nil =>
    rw [hlist] at hmem
    cases hmem
  | cons first rest => rfl

theorem symbols_ofRuns (ranges : List (Int × Int)) : (ofRuns ranges).symbols = [] := by
  refine List.filterMap_eq_nil_iff.mpr fun a ha => ?_
  obtain ⟨run, _, ha⟩ := List.mem_flatMap.mp ha
  unfold atomsOfRun at ha
  split at ha
  · rw [List.mem_singleton.mp ha]
    rfl
  · split at ha
    · simp only [List.mem_cons, List.not_mem_nil, or_false] at ha
      rcases ha with rfl | rfl <;> rfl
    · rw [List.mem_singleton.mp ha]
      rfl

theorem kind_of_symbols_eq_nil {d : Domain} (h : d.symbols = []) : d.kind = .integer := by
  obtain ⟨atoms⟩ := d
  cases atoms with
  | nil => rfl
  | cons a rest =>
    cases a with
    | symbol text => cases h
    | _ => rfl

theorem kind_ofRuns (ranges : List (Int × Int)) : (ofRuns ranges).kind = .integer :=
  kind_of_symbols_eq_nil (symbols_ofRuns ranges)

/-- The first and the last run hold the smallest and the greatest integer. -/
theorem extremes_ofRuns {ranges : List (Int × Int)} (hne : ranges ≠ [])
    (h : ∀ r ∈ ranges, r.1 ≤ r.2) : ∃ lower upper, (ofRuns ranges).smallest = some lower ∧
      (ofRuns ranges).greatest = some upper ∧ (ofRuns ranges).contains lower = true ∧
      (ofRuns ranges).contains upper = true ∧
      ∀ n, (ofRuns ranges).contains n = true → lower ≤ n ∧ n ≤ upper := by
  obtain ⟨hseparate, hcovers⟩ := maximalRuns_spec h
  have hcontains : ∀ {n}, (ofRuns ranges).contains n = true ↔
      ∃ r ∈ maximalRuns ranges, InRange n r := (contains_ofRuns h).trans (hcovers _).symm
  obtain ⟨r, hr⟩ := List.exists_mem_of_ne_nil ranges hne
  obtain ⟨run, hrun, _⟩ := (hcovers r.1).mpr ⟨r, hr, Int.le_refl _, h r hr⟩
  obtain ⟨first, hfirst, _⟩ := hseparate.head_le hrun
  obtain ⟨last, hlast, _⟩ := hseparate.le_last hrun
  have hfirstMem := List.mem_of_mem_head? hfirst
  have hlastMem := List.mem_of_mem_getLast? hlast
  refine ⟨first.1, last.2, smallest_ofRuns hfirst,
    greatest_ofRuns hlast (hseparate.2 last hlastMem),
    hcontains.mpr ⟨first, hfirstMem, Int.le_refl _, hseparate.2 first hfirstMem⟩,
    hcontains.mpr ⟨last, hlastMem, hseparate.2 last hlastMem, Int.le_refl _⟩, fun n hn => ?_⟩
  obtain ⟨run, hrun, hlower, hupper⟩ := hcontains.mp hn
  obtain ⟨first', hfirst', hle⟩ := hseparate.head_le hrun
  obtain ⟨last', hlast', hle'⟩ := hseparate.le_last hrun
  obtain rfl := Option.some_inj.mp (hfirst.symm.trans hfirst')
  obtain rfl := Option.some_inj.mp (hlast.symm.trans hlast')
  omega

/-- A domain of integers in normal form. -/
theorem integral_ofRuns {ranges : List (Int × Int)} (hne : ranges ≠ [])
    (h : ∀ r ∈ ranges, r.1 ≤ r.2 ∧ Fits r.1 ∧ Fits r.2) : (ofRuns ranges).Integral := by
  have hvalid : ∀ r ∈ ranges, r.1 ≤ r.2 := fun r hr => (h r hr).1
  have hfits : ∀ n, (ofRuns ranges).contains n = true → Fits n := by
    intro n hn
    obtain ⟨r, hr, hlower, hupper⟩ := (contains_ofRuns hvalid).mp hn
    obtain ⟨_, hfits, hfits'⟩ := h r hr
    unfold Fits at hfits hfits' ⊢
    omega
  obtain ⟨lower, upper, hlower, hupper, hattained, hattained', hbounds⟩ :=
    extremes_ofRuns hne hvalid
  refine ⟨⟨lower, upper, hlower, hupper, hfits _ hattained, hfits _ hattained', hbounds⟩,
    fun lower' upper' h h' => ?_, integers_ascend_of_runs (maximalRuns_spec hvalid).1,
    fun text => ?_⟩
  · obtain rfl := Option.some_inj.mp (hlower.symm.trans h)
    obtain rfl := Option.some_inj.mp (hupper.symm.trans h')
    exact ⟨hattained, hattained'⟩
  · rw [containsSymbol, symbols_ofRuns]
    rfl

theorem Normal.integral {d : Domain} (h : d.Normal) (hd : d.isSymbolic = false) : d.Integral := by
  cases h with
  | ofRuns hne h => exact integral_ofRuns hne h
  | ofSymbols hne =>
    rw [isSymbolic_ofSymbols hne] at hd
    cases hd

theorem normal_unbounded : unbounded.Normal := by
  have hruns : unbounded = ofRuns [(lowest, highest)] := by
    cbv
  rw [hruns]
  exact .ofRuns (List.cons_ne_nil _ _) (by decide)

theorem le_of_mem_runs {spec : DomainSpec} : ∀ r ∈ spec.runs, r.1 ≤ r.2 := by
  induction spec using DomainSpec.rec
    (motive_2 := fun items => ∀ r ∈ DomainSpec.runsOf items, r.1 ≤ r.2) with
  | integer value =>
    intro r hr
    obtain rfl := List.mem_singleton.mp hr
    exact Int.le_refl _
  | symbol text => exact fun r hr => nomatch hr
  | range first last step =>
    intro r hr
    unfold DomainSpec.runs at hr
    split at hr
    · cases hr
    · split at hr
      · rw [List.mem_singleton.mp hr]
        omega
      · obtain ⟨value, _, rfl⟩ := List.mem_map.mp hr
        exact Int.le_refl _
  | collection items ih => exact ih
  | nil r hr => cases hr
  | cons item rest ih ihrest r hr =>
    exact (List.mem_append.mp hr).elim (ih r) (ihrest r)

/-- Every domain that was described is in normal form. -/
theorem Built.normal {d : Domain} (h : d.Built) : d.Normal := by
  cases h with
  | unbounded => exact normal_unbounded
  | @ofSpec spec d hfits hd =>
    have hruns : ∀ r ∈ spec.runs, r.1 ≤ r.2 ∧ Fits r.1 ∧ Fits r.2 :=
      fun r hr => ⟨le_of_mem_runs r hr, hfits r hr⟩
    unfold Domain.ofSpec at hd
    split at hd
    · cases hd
    · cases hd
    · rename_i hne
      cases hd
      exact .ofRuns hne hruns
    · rename_i hne
      cases hd
      exact .ofSymbols hne

theorem normal_between {inf sup : Int} {d : Domain} (hinf : Fits inf) (hsup : Fits sup)
    (h : between inf sup = .ok d) : d.Normal := by
  unfold between at h
  split at h
  · cases h
  · cases h
    refine .ofRuns (List.cons_ne_nil _ _) fun r hr => ?_
    rw [List.mem_singleton.mp hr]
    exact ⟨by omega, hinf, hsup⟩

theorem normal_ofIntegers {values : List Int} {d : Domain} (hvalues : ∀ n ∈ values, Fits n)
    (h : ofIntegers values = .ok d) : d.Normal := by
  unfold ofIntegers at h
  split at h
  · cases h
  · rename_i hne
    cases h
    refine .ofRuns (fun hnil => hne (List.map_eq_nil_iff.mp hnil)) fun r hr => ?_
    obtain ⟨n, hn, rfl⟩ := List.mem_map.mp hr
    exact ⟨Int.le_refl n, hvalues n hn, hvalues n hn⟩

/-- The domain of the integers from `inf` to `sup`. -/
theorem contains_between {inf sup : Int} {d : Domain} (h : between inf sup = .ok d) {n : Int} :
    d.contains n = true ↔ inf ≤ n ∧ n ≤ sup := by
  unfold between at h
  split at h
  · cases h
  · cases h
    rw [contains_ofRuns (by simp; omega)]
    simp [InRange]

theorem contains_ofIntegers {values : List Int} {d : Domain} (h : ofIntegers values = .ok d)
    {n : Int} : d.contains n = true ↔ n ∈ values := by
  unfold ofIntegers at h
  split at h
  · cases h
  · cases h
    rw [contains_ofRuns (by simp)]
    constructor
    · rintro ⟨r, hr, hle, hle'⟩
      obtain ⟨m, hm, rfl⟩ := List.mem_map.mp hr
      rwa [Int.le_antisymm hle' hle]
    · exact fun hn => ⟨(n, n), List.mem_map_of_mem hn, Int.le_refl n, Int.le_refl n⟩

end Domain
end CspModel
