import CspModel.Proofs.Normal
import CspModel.Proofs.Evaluation

/-! # One normal form for each set of values

What a description describes is said without its ranges of integers: a number or a
symbol describes itself, a stepped range the numbers on its way, a collection what its
items describe.  The domain of a description is then determined by the described set
alone.  An atom belongs to it just when it is a part of the set of a certain shape
(`Atom.IsPartOf`): a symbol of the set, a maximal run of more than two of its integers,
or one of the integers of a shorter maximal run.  Since the atoms ascend, two domains
with the same atoms are equal, so the descriptions of one set give one domain, and the
domain gives the set back.
-/
namespace CspModel

open Bounded

/-! ### Described values -/

/-- The description describes the value. -/
inductive DomainSpec.Describes : DomainSpec → Value → Prop
  | integer (n : Int) : Describes (.integer n) (.integer n)
  | symbol (text : String) : Describes (.symbol text) (.symbol text)
  /-- The step after the first value is taken `k` times; a step of zero counts as one. -/
  | range {first last : Int} {step : Nat} (k : Nat) :
      first + (k : Int) * (max step 1 : Nat) ≤ last →
      Describes (.range first last step) (.integer (first + (k : Int) * (max step 1 : Nat)))
  | collection {items : List DomainSpec} {item : DomainSpec} {v : Value} :
      item ∈ items → Describes item v → Describes (.collection items) v

namespace DomainSpec

theorem mem_stepped {first last : Int} {step : Nat} (hstep : 0 < step) {n : Int} :
    n ∈ stepped first last step ↔ ∃ k : Nat, n = first + (k : Int) * step ∧ n ≤ last := by
  have hstep : (0 : Int) < step := by omega
  unfold stepped
  split
  · rw [List.mem_map]
    refine exists_congr fun k => ?_
    have hsteps : k < ((last - first) / (step : Int)).toNat + 1 ↔
        first + (k : Int) * step ≤ last := by
      have hnonneg : 0 ≤ (last - first) / (step : Int) := Int.ediv_nonneg (by omega) (by omega)
      have hk : (k : Int) ≤ (last - first) / (step : Int) ↔ (k : Int) * step ≤ last - first :=
        Int.le_ediv_iff_mul_le hstep
      omega
    rw [List.mem_range, hsteps, and_comm, eq_comm]
    exact and_congr_right fun h => by rw [h]
  · -- no step leads from `first` to a smaller `last`
    refine iff_of_false (List.not_mem_nil) ?_
    rintro ⟨k, rfl, hle⟩
    have : 0 ≤ (k : Int) * step := Int.mul_nonneg (by omega) (by omega)
    omega

theorem describes_range {first last : Int} {step : Nat} {n : Int} :
    (range first last step).Describes (.integer n) ↔
      ∃ k : Nat, n = first + (k : Int) * (max step 1 : Nat) ∧ n ≤ last := by
  constructor
  · intro h
    cases h with
    | range k hk => exact ⟨k, rfl, hk⟩
  · rintro ⟨k, rfl, hk⟩
    exact .range k hk

theorem describes_collection {items : List DomainSpec} {v : Value} :
    (collection items).Describes v ↔ ∃ item ∈ items, item.Describes v := by
  constructor
  · intro h
    cases h with
    | collection hitem hv => exact ⟨_, hitem, hv⟩
  · rintro ⟨item, hitem, hv⟩
    exact .collection hitem hv

theorem covered_range {first last : Int} {step : Nat} {n : Int} :
    (∃ r ∈ (range first last step).runs, InRange n r) ↔
      (range first last step).Describes (.integer n) := by
  rw [describes_range]
  unfold runs
  split
  · refine iff_of_false (by rintro ⟨r, ⟨⟩, _⟩) ?_
    rintro ⟨k, rfl, hle⟩
    have : 0 ≤ (k : Int) * (max step 1 : Nat) := Int.mul_nonneg (by omega) (by omega)
    omega
  · split
    · -- every value on the way is reached by single steps
      obtain hone : max step 1 = 1 := by omega
      simp only [List.mem_singleton, exists_eq_left, InRange, hone]
      constructor
      · intro h
        exact ⟨(n - first).toNat, by omega, h.2⟩
      · rintro ⟨k, hk, hle⟩
        omega
    · obtain hmax : max step 1 = step := by omega
      have hpoint : ∀ m, InRange n (m, m) ↔ m = n := fun m => by
        unfold InRange
        omega
      rw [hmax, ← mem_stepped (by omega)]
      simp only [List.mem_map, exists_exists_and_eq_and, hpoint, exists_eq_right]

/-- The ranges of a description cover the integers that it describes. -/
theorem covered_runs {spec : DomainSpec} {n : Int} :
    (∃ r ∈ spec.runs, InRange n r) ↔ spec.Describes (.integer n) := by
  induction spec using DomainSpec.rec
    (motive_2 := fun items => (∃ r ∈ runsOf items, InRange n r) ↔
      ∃ item ∈ items, item.Describes (.integer n)) with
  | integer value =>
    simp only [runs, List.mem_singleton, exists_eq_left, InRange]
    constructor
    · rintro ⟨hle, hle'⟩
      rw [Int.le_antisymm hle' hle]
      exact .integer value
    · rintro ⟨⟩
      exact ⟨Int.le_refl n, Int.le_refl n⟩
  | symbol text => exact iff_of_false (by rintro ⟨r, ⟨⟩, _⟩) (by rintro ⟨⟩)
  | range first last step => exact covered_range
  | collection items ih => rwa [describes_collection]
  | nil => simp [runsOf]
  | cons item rest ih ihrest =>
    rw [exists_mem_cons, ← ih, ← ihrest, runsOf]
    simp only [List.mem_append, or_and_right, exists_or]

/-- The symbols of a description are those that it describes. -/
theorem mem_symbols {spec : DomainSpec} {text : String} :
    text ∈ spec.symbols ↔ spec.Describes (.symbol text) := by
  induction spec using DomainSpec.rec
    (motive_2 := fun items => text ∈ symbolsOf items ↔
      ∃ item ∈ items, item.Describes (.symbol text)) with
  | integer value => exact iff_of_false List.not_mem_nil (by rintro ⟨⟩)
  | symbol text' =>
    rw [symbols, List.mem_singleton]
    constructor
    · rintro rfl
      exact .symbol text
    · rintro ⟨⟩
      rfl
  | range first last step => exact iff_of_false List.not_mem_nil (by rintro ⟨⟩)
  | collection items ih => rwa [describes_collection]
  | nil => simp [symbolsOf]
  | cons item rest ih ihrest => rw [exists_mem_cons, ← ih, ← ihrest, symbolsOf, List.mem_append]

theorem runs_eq_nil_iff {spec : DomainSpec} :
    spec.runs = [] ↔ ∀ n, ¬spec.Describes (.integer n) := by
  constructor
  · intro h n hn
    obtain ⟨r, hr, _⟩ := covered_runs.mpr hn
    rw [h] at hr
    exact List.not_mem_nil hr
  · intro h
    refine List.eq_nil_iff_forall_not_mem.mpr fun r hr => h r.1 (covered_runs.mp ?_)
    exact ⟨r, hr, Int.le_refl _, Domain.le_of_mem_runs r hr⟩

theorem symbols_eq_nil_iff {spec : DomainSpec} :
    spec.symbols = [] ↔ ∀ text, ¬spec.Describes (.symbol text) := by
  simp only [List.eq_nil_iff_forall_not_mem, mem_symbols]

end DomainSpec

/-! ### Maximal runs -/

/-- The integers from `inf` to `sup` belong to the set, their two neighbours do not. -/
def MaximalRun (V : Int → Prop) (inf sup : Int) : Prop :=
  inf ≤ sup ∧ (∀ n, inf ≤ n → n ≤ sup → V n) ∧ ¬V (inf - 1) ∧ ¬V (sup + 1)

/-- The integers next to a run lie in no other run. -/
theorem Separate.not_inRange {runs : List (Int × Int)} (h : Separate runs) {r r' : Int × Int}
    (hr : r ∈ runs) (hr' : r' ∈ runs) : ¬InRange (r.1 - 1) r' ∧ ¬InRange (r.2 + 1) r' := by
  have hvalid := h.2 r hr
  have hvalid' := h.2 r' hr'
  have hsymm : Std.Symm fun r r' : Int × Int => r.2 + 1 < r'.1 ∨ r'.2 + 1 < r.1 :=
    ⟨fun _ _ => Or.symm⟩
  have hapart : runs.Pairwise fun r r' => r.2 + 1 < r'.1 ∨ r'.2 + 1 < r.1 :=
    h.1.imp fun h => .inl h
  unfold InRange
  by_cases heq : r = r'
  · subst heq
    omega
  · have := hapart.forall hr hr' heq
    omega

/-- Separate runs are the maximal runs of what they cover. -/
theorem Separate.mem_iff {runs : List (Int × Int)} (h : Separate runs) {V : Int → Prop}
    (hV : ∀ n, (∃ r ∈ runs, InRange n r) ↔ V n) {r : Int × Int} :
    r ∈ runs ↔ MaximalRun V r.1 r.2 := by
  have hmax : ∀ r ∈ runs, MaximalRun V r.1 r.2 := fun r hr => by
    refine ⟨h.2 r hr, fun n hle hle' => (hV n).mp ⟨r, hr, hle, hle'⟩, ?_, ?_⟩
    · intro hn
      obtain ⟨r', hr', hin⟩ := (hV _).mpr hn
      exact (h.not_inRange hr hr').1 hin
    · intro hn
      obtain ⟨r', hr', hin⟩ := (hV _).mpr hn
      exact (h.not_inRange hr hr').2 hin
  refine ⟨hmax r, fun hr => ?_⟩
  obtain ⟨hle, hall, hbelow, habove⟩ := hr
  obtain ⟨r', hr', hfirst, hlast⟩ := (hV _).mpr (hall r.1 (Int.le_refl _) hle)
  obtain ⟨-, hall', hbelow', habove'⟩ := hmax r' hr'
  have hinf : r'.1 = r.1 := by
    by_contra hne
    exact hbelow (hall' _ (by omega) (by omega))
  have hsup : r'.2 = r.2 := by
    -- the run that ends first has its end followed by a value of the other
    by_contra hne
    rcases Int.lt_or_gt_of_ne hne with hlt | hlt
    · exact habove' (hall _ (by omega) (by omega))
    · exact habove (hall' _ (by omega) (by omega))
  obtain rfl : r' = r := Prod.ext hinf hsup
  exact hr'

/-! ### Atoms -/

namespace Atom

/-- The values of the first atom are smaller than those of the second. -/
inductive Precedes : Atom → Atom → Prop
  | integers {a b : Atom} {upper lower : Int} :
      a.upperBound = some upper → b.lowerBound = some lower → upper < lower → Precedes a b
  | symbols {text text' : String} : text < text' → Precedes (.symbol text) (.symbol text')

/-- The atom is one of those that the set of values is cut into. -/
def IsPartOf (V : Value → Prop) : Atom → Prop
  | .integer n => ∃ inf sup, MaximalRun (fun n => V (.integer n)) inf sup ∧
      ¬inf + 2 ≤ sup ∧ inf ≤ n ∧ n ≤ sup
  | .interval i => MaximalRun (fun n => V (.integer n)) i.inf i.sup ∧ i.inf + 2 ≤ i.sup
  | .symbol text => V (.symbol text)

theorem lowerBound_le_upperBound {a : Atom} {lower upper : Int} (h : a.lowerBound = some lower)
    (h' : a.upperBound = some upper) : lower ≤ upper := by
  cases a with
  | integer n =>
    obtain rfl := Option.some.inj h
    exact Int.le_of_eq (Option.some.inj h')
  | interval i =>
    obtain rfl := Option.some.inj h
    obtain rfl := Option.some.inj h'
    exact Int.le_of_lt i.inf_lt_sup
  | symbol text => cases h

theorem Precedes.asymm {a b : Atom} (h : Precedes a b) : ¬Precedes b a := by
  intro h'
  cases h with
  | integers hupper hlower hlt =>
    cases h' with
    | integers hupper' hlower' hlt' =>
      have hle := lowerBound_le_upperBound hlower hupper'
      have hle' := lowerBound_le_upperBound hlower' hupper
      omega
    | symbols _ => cases hupper
  | symbols hlt =>
    cases h' with
    | integers hupper _ _ => cases hupper
    | symbols hlt' => exact String.lt_asymm hlt hlt'

instance : Std.Irrefl Precedes := ⟨fun _ h => h.asymm h⟩

instance : Std.Antisymm Precedes := ⟨fun _ _ h h' => absurd h' h.asymm⟩

end Atom

theorem mem_atomsOfRun {r : Int × Int} (h : r.1 ≤ r.2) {a : Atom} :
    a ∈ atomsOfRun r ↔
      (∃ i, a = .interval i ∧ r = (i.inf, i.sup) ∧ i.inf + 2 ≤ i.sup) ∨
        ∃ n, a = .integer n ∧ ¬r.1 + 2 ≤ r.2 ∧ r.1 ≤ n ∧ n ≤ r.2 := by
  unfold atomsOfRun
  split
  · rename_i hlong
    rw [List.mem_singleton]
    constructor
    · rintro rfl
      exact .inl ⟨_, rfl, rfl, hlong⟩
    · rintro (⟨i, rfl, rfl, -⟩ | ⟨n, rfl, hshort, -⟩)
      · rfl
      · exact absurd hlong hshort
  · rename_i hshort
    have hno : ¬∃ i, a = .interval i ∧ r = (i.inf, i.sup) ∧ i.inf + 2 ≤ i.sup := by
      rintro ⟨i, rfl, rfl, hlong⟩
      exact hshort hlong
    rw [or_iff_right hno]
    split
    · simp only [List.mem_cons, List.not_mem_nil, or_false]
      constructor
      · rintro (rfl | rfl)
        · exact ⟨_, rfl, hshort, by omega, by omega⟩
        · exact ⟨_, rfl, hshort, by omega, by omega⟩
      · rintro ⟨n, rfl, -, hle, hle'⟩
        rw [Atom.integer.injEq, Atom.integer.injEq]
        omega
    · rw [List.mem_singleton]
      constructor
      · rintro rfl
        exact ⟨_, rfl, hshort, by omega, by omega⟩
      · rintro ⟨n, rfl, -, hle, hle'⟩
        rw [Atom.integer.injEq]
        omega

/-- The atoms of separate runs are the parts of what the runs cover. -/
theorem Separate.mem_atoms_iff {runs : List (Int × Int)} (h : Separate runs) {V : Value → Prop}
    (hV : ∀ n, (∃ r ∈ runs, InRange n r) ↔ V (.integer n)) (hnone : ∀ text, ¬V (.symbol text))
    {a : Atom} : a ∈ runs.flatMap atomsOfRun ↔ a.IsPartOf V := by
  rw [List.mem_flatMap]
  constructor
  · rintro ⟨r, hr, ha⟩
    have hmax := (h.mem_iff hV).mp hr
    rcases (mem_atomsOfRun (h.2 r hr)).mp ha with ⟨i, rfl, rfl, hlong⟩ | ⟨n, rfl, hshort, hn⟩
    · exact ⟨hmax, hlong⟩
    · exact ⟨r.1, r.2, hmax, hshort, hn⟩
  · intro ha
    cases a with
    | integer n =>
      obtain ⟨inf, sup, hmax, hshort, hn⟩ := ha
      have hr : (inf, sup) ∈ runs := (h.mem_iff hV).mpr hmax
      exact ⟨(inf, sup), hr, (mem_atomsOfRun hmax.1).mpr (.inr ⟨n, rfl, hshort, hn⟩)⟩
    | interval i =>
      obtain ⟨hmax, hlong⟩ := ha
      have hr : (i.inf, i.sup) ∈ runs := (h.mem_iff hV).mpr hmax
      exact ⟨(i.inf, i.sup), hr, (mem_atomsOfRun hmax.1).mpr (.inl ⟨i, rfl, rfl, hlong⟩)⟩
    | symbol text => exact absurd ha (hnone text)

theorem bounds_of_mem_atomsOfRun {r : Int × Int} (h : r.1 ≤ r.2) {a : Atom}
    (ha : a ∈ atomsOfRun r) : ∃ lower upper, a.lowerBound = some lower ∧
      a.upperBound = some upper ∧ r.1 ≤ lower ∧ upper ≤ r.2 := by
  rcases (mem_atomsOfRun h).mp ha with ⟨i, rfl, rfl, -⟩ | ⟨n, rfl, -, hle, hle'⟩
  · exact ⟨i.inf, i.sup, rfl, rfl, Int.le_refl _, Int.le_refl _⟩
  · exact ⟨n, n, rfl, rfl, hle, hle'⟩

theorem pairwise_atomsOfRun (r : Int × Int) : (atomsOfRun r).Pairwise Atom.Precedes := by
  unfold atomsOfRun
  split
  · exact List.pairwise_singleton _ _
  · split
    · rename_i hlt
      exact List.pairwise_pair.mpr (.integers rfl rfl hlt)
    · exact List.pairwise_singleton _ _

theorem Separate.pairwise_atoms {runs : List (Int × Int)} (h : Separate runs) :
    (runs.flatMap atomsOfRun).Pairwise Atom.Precedes := by
  rw [List.pairwise_flatMap]
  refine ⟨fun r _ => pairwise_atomsOfRun r, h.1.imp_of_mem fun {r r'} hr hr' hgap a ha b hb => ?_⟩
  obtain ⟨_, upper, _, hupper, _, hle⟩ := bounds_of_mem_atomsOfRun (h.2 r hr) ha
  obtain ⟨lower, _, hlower, _, hle', _⟩ := bounds_of_mem_atomsOfRun (h.2 r' hr') hb
  exact .integers hupper hlower (by omega)

/-! ### The normal form of a set of values -/

namespace Domain

/-- Some interval does not stop. -/
def IsInfinite (d : Domain) : Prop :=
  ∃ i, Atom.interval i ∈ d.atoms ∧ (i.inf = lowest ∨ i.sup = highest)

/-- The domain is the normal form of the set of values, and its functions read the set. -/
structure NormalFormOf (V : Value → Prop) (d : Domain) : Prop where
  ascending : d.atoms.Pairwise Atom.Precedes
  /-- The atoms are the maximal runs of the set, the short ones written out, and its symbols. -/
  mem_atoms : ∀ a, a ∈ d.atoms ↔ a.IsPartOf V
  /-- The tests for a value decide the set. -/
  holds : ∀ v, d.Holds v ↔ V v
  integers_ascend : d.integers.Pairwise (· < ·)
  mem_integers : ∀ n, n ∈ d.integers ↔ V (.integer n)
  size_eq_none : d.size = none ↔ d.IsInfinite
  /-- A size is the number of the values. -/
  size_eq_some : ∀ k : Nat, d.size = some k → {v | V v}.encard = k
  smallest : ∀ n, d.smallest = some n ↔ IsLeast {n | V (.integer n)} n
  greatest : ∀ n, d.greatest = some n ↔ IsGreatest {n | V (.integer n)} n
  isBinary : d.isBinary = true ↔ ∀ n, V (.integer n) ↔ n = 0 ∨ n = 1

/-- A set of values has one normal form. -/
theorem NormalFormOf.unique {V : Value → Prop} {d d' : Domain} (h : d.NormalFormOf V)
    (h' : d'.NormalFormOf V) : d = d' := by
  have hatoms : d.atoms = d'.atoms :=
    h.ascending.eq_of_mem_iff h'.ascending fun a => (h.mem_atoms a).trans (h'.mem_atoms a).symm
  cases d
  cases d'
  exact congrArg Domain.mk hatoms

end Domain

/-! ### The number of values -/

theorem Atom.length_of_size {a : Atom} {k : Nat} (h : a.size = some k) :
    k = a.integers.length + a.symbol?.toList.length := by
  cases a with
  | integer n =>
    obtain rfl := Option.some.inj h
    simp [integers, firstIntegers, lowerBound, integerCount, symbol?]
  | interval i =>
    rw [size, Interval.width, Option.ite_none_right_eq_some] at h
    obtain rfl := Option.some.inj h.2
    simp [integers, firstIntegers, lowerBound, integerCount, symbol?]
  | symbol text =>
    obtain rfl := Option.some.inj h
    rfl

theorem Atom.size_eq_none {a : Atom} :
    a.size = none ↔ ∃ i, a = .interval i ∧ (i.inf = lowest ∨ i.sup = highest) := by
  cases a with
  | integer n => simp [size]
  | interval i =>
    simp only [size, Interval.width, Interval.isBounded, ite_eq_right_iff, reduceCtorEq, imp_false,
      Bool.and_eq_true, bne_iff_ne, ne_eq, interval.injEq, exists_eq_left']
    tauto
  | symbol text => simp [size]

namespace Domain

/-- The values of a domain of either kind. -/
def values (d : Domain) : List Value := d.integers.map .integer ++ d.symbols.map .symbol

theorem mem_values {d : Domain} {v : Value} : v ∈ d.values ↔ d.Holds v := by
  unfold values Holds containsSymbol
  cases v <;> simp [mem_integers]

/-- A size counts the values of all atoms. -/
theorem length_values {d : Domain} {k : Nat} (h : d.size = some k) : d.values.length = k := by
  obtain ⟨atoms⟩ := d
  unfold size at h
  unfold values integers symbols
  dsimp only at h ⊢
  rw [List.length_append, List.length_map, List.length_map]
  induction atoms generalizing k with
  | nil => simpa using h
  | cons a rest ih =>
    rw [List.mapM_cons] at h
    cases hsize : a.size with
    | none => simp [hsize] at h
    | some n =>
      cases hrest : rest.mapM Atom.size with
      | none => simp [hsize, hrest] at h
      | some sizes =>
        rw [hsize, hrest] at h
        obtain rfl : n + sizes.foldr (· + ·) 0 = k := by simpa using h
        have hn := Atom.length_of_size hsize
        have hsizes := ih (by rw [hrest]; rfl)
        unfold Atom.integers at hn
        rw [List.flatMap_cons, List.length_append, List.filterMap_cons]
        cases hsymbol : a.symbol? <;> simp_all <;> omega

theorem size_eq_none {d : Domain} : d.size = none ↔ d.IsInfinite := by
  have hatoms : d.size = none ↔ ∃ a ∈ d.atoms, a.size = none := by
    unfold size
    induction d.atoms with
    | nil => simp
    | cons a rest ih =>
      rw [exists_mem_cons, ← ih, List.mapM_cons]
      cases a.size <;> cases rest.mapM Atom.size <;> simp
  rw [hatoms, IsInfinite]
  simp only [Atom.size_eq_none]
  constructor
  · rintro ⟨_, hi, i, rfl, hinfinite⟩
    exact ⟨i, hi, hinfinite⟩
  · rintro ⟨i, hi, hinfinite⟩
    exact ⟨_, hi, i, rfl, hinfinite⟩

/-- Values listed once are counted by the size. -/
theorem encard_of_size {V : Value → Prop} {d : Domain} (hV : ∀ v, d.Holds v ↔ V v)
    (hintegers : d.integers.Nodup) (hsymbols : d.symbols.Nodup) {k : Nat}
    (h : d.size = some k) : {v | V v}.encard = k := by
  have hnodup : d.values.Nodup := by
    refine List.nodup_append.mpr ⟨hintegers.map fun _ _ => Value.integer.inj,
      hsymbols.map fun _ _ => Value.symbol.inj, fun v hv w hw => ?_⟩
    obtain ⟨n, _, rfl⟩ := List.mem_map.mp hv
    obtain ⟨text, _, rfl⟩ := List.mem_map.mp hw
    exact Value.noConfusion
  have hset : {v | V v} = (d.values.toFinset : Set Value) := by
    ext v
    rw [Set.mem_ofPred_eq, List.coe_toFinset, Set.mem_ofPred_eq, mem_values, hV]
  rw [hset, Set.encard_coe_eq_coe_finsetCard, List.toFinset_card_of_nodup hnodup,
    length_values h]

/-! ### The domain of a description -/

theorem contains_ofSymbols (list : List String) (n : Int) :
    (ofSymbols list).contains n = false := by
  simp [contains, ofSymbols, Atom.contains]

theorem containsSymbol_ofSymbols {list : List String} {text : String} :
    (ofSymbols list).containsSymbol text = true ↔ text ∈ list := by
  rw [containsSymbol, symbols_ofSymbols, List.contains_iff_mem, Ascending.mem_ofList]

/-- Ranges that cover the same integers give the same domain. -/
theorem ofRuns_eq_ofRuns {V : Int → Prop} {ranges ranges' : List (Int × Int)}
    (h : ∀ r ∈ ranges, r.1 ≤ r.2) (h' : ∀ r ∈ ranges', r.1 ≤ r.2)
    (hV : ∀ n, (∃ r ∈ ranges, InRange n r) ↔ V n)
    (hV' : ∀ n, (∃ r ∈ ranges', InRange n r) ↔ V n) : ofRuns ranges = ofRuns ranges' := by
  obtain ⟨hseparate, hcovers⟩ := maximalRuns_spec h
  obtain ⟨hseparate', hcovers'⟩ := maximalRuns_spec h'
  have hinteger : ∀ n, V n ↔ ∃ m, Value.integer n = .integer m ∧ V m := fun n => by simp
  have hsymbol : ∀ text, ¬∃ m, Value.symbol text = .integer m ∧ V m := fun text => by simp
  have hmem : ∀ a, a ∈ (maximalRuns ranges).flatMap atomsOfRun ↔
      a ∈ (maximalRuns ranges').flatMap atomsOfRun := fun a =>
    (hseparate.mem_atoms_iff (V := fun v => ∃ m, v = .integer m ∧ V m)
      (fun n => ((hcovers n).trans (hV n)).trans (hinteger n)) hsymbol).trans
      (hseparate'.mem_atoms_iff
        (fun n => ((hcovers' n).trans (hV' n)).trans (hinteger n)) hsymbol).symm
  exact congrArg Domain.mk
    (hseparate.pairwise_atoms.eq_of_mem_iff hseparate'.pairwise_atoms hmem)

theorem isBinary_ofRuns {V : Int → Prop} {ranges : List (Int × Int)}
    (h : ∀ r ∈ ranges, r.1 ≤ r.2) (hV : ∀ n, (∃ r ∈ ranges, InRange n r) ↔ V n) :
    (ofRuns ranges).isBinary = true ↔ ∀ n, V n ↔ n = 0 ∨ n = 1 := by
  have hbits : ∀ n, (∃ r ∈ [((0 : Int), (1 : Int))], InRange n r) ↔ n = 0 ∨ n = 1 := fun n => by
    simp only [List.mem_singleton, exists_eq_left, InRange]
    omega
  have hbinary : ofRuns [(0, 1)] = ⟨[.integer 0, .integer 1]⟩ := by cbv
  rw [isBinary, beq_iff_eq]
  constructor
  · intro hatoms n
    have hsame : ofRuns ranges = ofRuns [(0, 1)] := hbinary ▸ congrArg Domain.mk hatoms
    rw [← hV, ← hbits, ← contains_ofRuns h, hsame, contains_ofRuns (by simp)]
  · intro hV'
    rw [ofRuns_eq_ofRuns h (by simp) hV fun n => (hbits n).trans (hV' n).symm, hbinary]

/-- Ranges of integers are normalised. -/
theorem normalFormOf_ofRuns {V : Value → Prop} {ranges : List (Int × Int)} (hne : ranges ≠ [])
    (h : ∀ r ∈ ranges, r.1 ≤ r.2) (hV : ∀ n, (∃ r ∈ ranges, InRange n r) ↔ V (.integer n))
    (hnone : ∀ text, ¬V (.symbol text)) : (ofRuns ranges).NormalFormOf V := by
  obtain ⟨hseparate, hcovers⟩ := maximalRuns_spec h
  obtain ⟨lower, upper, hlower, hupper, hattained, hattained', hbounds⟩ := extremes_ofRuns hne h
  have hcontains : ∀ {n}, (ofRuns ranges).contains n = true ↔ V (.integer n) :=
    (contains_ofRuns h).trans (hV _)
  have hholds : ∀ v, (ofRuns ranges).Holds v ↔ V v
    | .integer _ => hcontains
    | .symbol text => iff_of_false (by simp [Holds, containsSymbol, symbols_ofRuns]) (hnone text)
  have hascend := integers_ascend_of_runs hseparate
  have hleast : IsLeast {n | V (.integer n)} lower :=
    ⟨hcontains.mp hattained, fun n hn => (hbounds n (hcontains.mpr hn)).1⟩
  have hgreatest : IsGreatest {n | V (.integer n)} upper :=
    ⟨hcontains.mp hattained', fun n hn => (hbounds n (hcontains.mpr hn)).2⟩
  exact {
    ascending := hseparate.pairwise_atoms
    mem_atoms := fun _ => hseparate.mem_atoms_iff (fun n => (hcovers n).trans (hV n)) hnone
    holds := hholds
    integers_ascend := hascend
    mem_integers := fun _ => mem_integers.trans hcontains
    size_eq_none := size_eq_none
    size_eq_some := fun _ => encard_of_size hholds (hascend.imp fun h => Int.ne_of_lt h)
      (by rw [symbols_ofRuns]; exact List.nodup_nil)
    smallest := fun n => by
      rw [hlower, Option.some_inj]
      exact ⟨fun heq => heq ▸ hleast, hleast.unique⟩
    greatest := fun n => by
      rw [hupper, Option.some_inj]
      exact ⟨fun heq => heq ▸ hgreatest, hgreatest.unique⟩
    isBinary := isBinary_ofRuns h hV }

/-- Symbols are normalised. -/
theorem normalFormOf_ofSymbols {V : Value → Prop} {list : List String}
    (hV : ∀ text, text ∈ list ↔ V (.symbol text)) (hnone : ∀ n, ¬V (.integer n)) :
    (ofSymbols list).NormalFormOf V := by
  have hholds : ∀ v, (ofSymbols list).Holds v ↔ V v
    | .integer n => iff_of_false (by simp [Holds, contains_ofSymbols]) (hnone n)
    | .symbol text => containsSymbol_ofSymbols.trans (hV text)
  have hascend : (Ascending.ofList list).Pairwise (· < ·) :=
    (Ascending.pairwise_compare_ofList list).imp compareOfLessAndEq_eq_lt.mp
  have hnodup : (ofSymbols list).symbols.Nodup := by
    rw [symbols_ofSymbols, List.nodup_iff_pairwise_ne]
    refine hascend.imp fun hlt heq => ?_
    rw [heq] at hlt
    exact String.lt_irrefl _ hlt
  have hintegers : (ofSymbols list).integers = [] :=
    List.eq_nil_iff_forall_not_mem.mpr fun n hn => by
      rw [mem_integers, contains_ofSymbols] at hn
      cases hn
  have hatoms : ∀ a ∈ (ofSymbols list).atoms, a.lowerBound = none ∧ a.upperBound = none := by
    intro a ha
    obtain ⟨text, _, rfl⟩ := List.mem_map.mp ha
    exact ⟨rfl, rfl⟩
  exact {
    ascending := List.pairwise_map.mpr (hascend.imp .symbols)
    mem_atoms := fun a => by
      unfold ofSymbols
      rw [List.mem_map]
      cases a with
      | integer n =>
        refine iff_of_false (by simp) ?_
        rintro ⟨inf, sup, ⟨hle, hall, -⟩, -⟩
        exact hnone inf (hall inf (Int.le_refl _) hle)
      | interval i =>
        refine iff_of_false (by simp) ?_
        rintro ⟨⟨hle, hall, -⟩, -⟩
        exact hnone i.inf (hall i.inf (Int.le_refl _) hle)
      | symbol text => simp [Atom.IsPartOf, Ascending.mem_ofList, hV]
    holds := hholds
    integers_ascend := by
      rw [hintegers]
      exact .nil
    mem_integers := fun n => by
      rw [hintegers]
      exact iff_of_false List.not_mem_nil (hnone n)
    size_eq_none := size_eq_none
    size_eq_some := fun _ => encard_of_size hholds (by rw [hintegers]; exact List.nodup_nil)
      hnodup
    smallest := fun n => by
      refine iff_of_false ?_ fun hleast => hnone n hleast.1
      unfold smallest
      cases hhead : (ofSymbols list).atoms.head? with
      | none => simp
      | some a => simp [(hatoms a (List.mem_of_mem_head? hhead)).1]
    greatest := fun n => by
      refine iff_of_false ?_ fun hgreatest => hnone n hgreatest.1
      unfold greatest
      cases hlast : (ofSymbols list).atoms.getLast? with
      | none => simp
      | some a => simp [(hatoms a (List.mem_of_mem_getLast? hlast)).2]
    isBinary := by
      refine iff_of_false ?_ fun hV => hnone 0 ((hV 0).mpr (.inl rfl))
      rw [isBinary, beq_iff_eq]
      intro hbinary
      have hzero := (hatoms (.integer 0) (hbinary ▸ List.mem_cons_self)).1
      cases hzero }

/-- A description of integers only, or of symbols only, is normalised. -/
theorem normalFormOf_ofSpec {spec : DomainSpec} {d : Domain} (h : ofSpec spec = .ok d) :
    d.NormalFormOf spec.Describes := by
  unfold ofSpec at h
  split at h
  · cases h
  · cases h
  · rename_i hsymbols hne
    cases h
    exact normalFormOf_ofRuns hne le_of_mem_runs (fun n => DomainSpec.covered_runs)
      (DomainSpec.symbols_eq_nil_iff.mp hsymbols)
  · rename_i hruns _
    cases h
    exact normalFormOf_ofSymbols (fun text => DomainSpec.mem_symbols)
      (DomainSpec.runs_eq_nil_iff.mp hruns)

theorem ofSpec_eq_empty {spec : DomainSpec} :
    ofSpec spec = .error .empty ↔ ∀ v, ¬spec.Describes v := by
  have hnone : (∀ v, ¬spec.Describes v) ↔ spec.runs = [] ∧ spec.symbols = [] := by
    rw [DomainSpec.runs_eq_nil_iff, DomainSpec.symbols_eq_nil_iff]
    constructor
    · exact fun h => ⟨fun n => h _, fun text => h _⟩
    · rintro ⟨hn, htext⟩ (n | text)
      · exact hn n
      · exact htext text
  rw [hnone]
  unfold ofSpec
  split <;> simp_all

theorem ofSpec_eq_mixedKind {spec : DomainSpec} : ofSpec spec = .error .mixedKind ↔
    (∃ n, spec.Describes (.integer n)) ∧ ∃ text, spec.Describes (.symbol text) := by
  have hboth : ((∃ n, spec.Describes (.integer n)) ∧ ∃ text, spec.Describes (.symbol text)) ↔
      ¬spec.runs = [] ∧ ¬spec.symbols = [] := by
    rw [DomainSpec.runs_eq_nil_iff, DomainSpec.symbols_eq_nil_iff]
    simp only [not_forall, not_not]
  rw [hboth]
  unfold ofSpec
  split <;> simp_all

/-- A description fails only for want of values or for values of both kinds. -/
theorem ofSpec_eq_error {spec : DomainSpec} {e : DomainError} (h : ofSpec spec = .error e) :
    e = .empty ∨ e = .mixedKind := by
  unfold ofSpec at h
  split at h <;> cases h <;> simp

/-- Normalisation is canonical: which of its three results a description has depends on
the described values, a domain is their normal form, and two descriptions have the same
domain just when they describe the same values. -/
theorem ofSpec_canonical (spec spec' : DomainSpec) :
    (ofSpec spec = .error .empty ↔ ∀ v, ¬spec.Describes v) ∧
    (ofSpec spec = .error .mixedKind ↔
      (∃ n, spec.Describes (.integer n)) ∧ ∃ text, spec.Describes (.symbol text)) ∧
    (ofSpec spec = .error .empty ∨ ofSpec spec = .error .mixedKind ∨
      ∃ d, ofSpec spec = .ok d ∧ d.NormalFormOf spec.Describes) ∧
    ((∃ d, ofSpec spec = .ok d ∧ ofSpec spec' = .ok d) ↔
      (∃ d, ofSpec spec = .ok d) ∧ ∀ v, spec.Describes v ↔ spec'.Describes v) := by
  refine ⟨ofSpec_eq_empty, ofSpec_eq_mixedKind, ?_, ?_⟩
  · cases h : ofSpec spec with
    | ok d => exact .inr (.inr ⟨d, rfl, normalFormOf_ofSpec h⟩)
    | error e =>
      rcases ofSpec_eq_error h with rfl | rfl
      · exact .inl rfl
      · exact .inr (.inl rfl)
  constructor
  · rintro ⟨d, h, h'⟩
    have hform := normalFormOf_ofSpec h
    have hform' := normalFormOf_ofSpec h'
    exact ⟨⟨d, h⟩, fun v => (hform.holds v).symm.trans (hform'.holds v)⟩
  · rintro ⟨⟨d, h⟩, hsame⟩
    have hsame : spec.Describes = spec'.Describes := funext fun v => propext (hsame v)
    cases h' : ofSpec spec' with
    | ok d' =>
      have hform' := normalFormOf_ofSpec h'
      rw [← hsame] at hform'
      exact ⟨d, h, congrArg Except.ok (hform'.unique (normalFormOf_ofSpec h))⟩
    | error e =>
      -- the causes are read off the described values, so `spec` would fail as well
      rcases ofSpec_eq_error h' with rfl | rfl
      · rw [ofSpec_eq_empty, ← hsame, ← ofSpec_eq_empty, h] at h'
        cases h'
      · rw [ofSpec_eq_mixedKind, ← hsame, ← ofSpec_eq_mixedKind, h] at h'
        cases h'

/-- A step of zero counts as one, and items may overlap. -/
example : (ofSpec (.collection [.integer 5, .range 1 3 0, .range 2 9 3])).toOption.map text =
    some "1..3 5 8" := by cbv

end Domain
end CspModel
