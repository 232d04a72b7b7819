import CspModel.Proofs.PossibleValues

/-! # Enumerated values are attained

The set of values that is computed for an expression may hold values that the expression
never takes: operands are combined as if they were independent, and beyond a number of
combinations only bounds are kept.  Neither happens where every variable has a number of
values that is enumerated, no two sets that are combined have more combinations than are
enumerated (`Expr.Enumerable`), and no variable occurs twice.  There the domain holds just
the values of the expression (`Expr.Enumerable.possible_iff_taken`).

An operator with more than two operands is applied to one operand after the other, and a
combination without a value is left out as soon as it arises.  `Values.Attained` says that
this neither makes up nor loses a value: what is left is the value of the operator on all
its operands at once.
-/
namespace CspModel

open Bounded

/-- The operators that make a number of all their operands. -/
def Operator.arithmetic : List Operator :=
  [neg, abs, sqr, add, sub, mul, div, mod, pow, dist, min, max]

theorem Operator.isPredicate_of_arithmetic {op : Operator} (h : op ∈ arithmetic) :
    op.isPredicate = false := by
  revert op
  decide

/-- An operator with a fixed number of operands accepts that number only. -/
theorem Operator.eq_of_accepts {op : Operator} {k n : Nat} (harity : op.arity = (k, some k))
    (h : op.accepts n = true) : n = k := by
  simp only [accepts, harity, Option.all_some, Bool.and_eq_true, decide_eq_true_eq] at h
  omega

theorem Operator.value?_mul_pair {n c : Int} (hn : Fits n) :
    mul.value? [n, c] = checked (n * c) := by
  simp [value?, checkedProduct, checked, hn]

namespace Values

/-! ### Steps with few combinations -/

/-- The number of values of a set. -/
def size : Values → Nat
  | finite values => values.length
  | bounds lower upper => (upper + 1 - lower).toNat

/-- Whether all combinations of two sets can be enumerated. -/
def Few (left right : Values) : Prop := left.size * right.size ≤ enumerationLimit

/-- The pairs of sets that are combined when an operator is applied to one set after the
other. -/
def steps (op : Operator) : Values → List Values → List (Values × Values)
  | _, [] => []
  | first, next :: rest => (first, next) :: steps op (binary op first next) rest

/-- Whether each step of applying an operator to the sets has few combinations. -/
def FewSteps (op : Operator) : List Values → Prop
  | [] => True
  | first :: rest => ∀ p ∈ steps op first rest, Few p.1 p.2

/-- The products of sets with coefficients. -/
def products (terms : List Values) (coefficients : List Int) : List Values :=
  (terms.zip coefficients).map fun (values, c) => binary .mul values (single c)

/-- Whether each step of adding up terms with coefficients has few combinations. -/
def FewInSum (terms : List Values) (coefficients : List Int) : Prop :=
  (∀ p ∈ terms.zip coefficients, Few p.1 (single p.2)) ∧ FewSteps .add (products terms coefficients)

instance (left right : Values) : Decidable (Few left right) :=
  inferInstanceAs (Decidable (left.size * right.size ≤ enumerationLimit))

instance (op : Operator) : (sets : List Values) → Decidable (FewSteps op sets)
  | [] => isTrue trivial
  | first :: rest => inferInstanceAs (Decidable (∀ p ∈ steps op first rest, Few p.1 p.2))

instance (terms : List Values) (coefficients : List Int) :
    Decidable (FewInSum terms coefficients) := inferInstanceAs (Decidable (_ ∧ _))

/-- The set is enumerated, and each of its values is what the function makes of values of the
given sets. -/
def Attained (f : List Int → Option Int) (sets : List Values) (values : Values) : Prop :=
  values.isFinite = true ∧
    ∀ v, values.Contains v → ∃ ns, List.Forall₂ Contains sets ns ∧ f ns = some v

theorem attained_unary (op : Operator) {values : Values} (h : values.isFinite = true) :
    Attained op.value? [values] (unary op values) := by
  cases values with
  | bounds => cases h
  | finite ns =>
    refine ⟨rfl, fun v hv => ?_⟩
    obtain ⟨n, hn, hv⟩ := List.mem_filterMap.mp (Ascending.mem_ofList.mp hv)
    exact ⟨[n], .cons hn .nil, hv⟩

theorem attained_binary (op : Operator) {left right : Values} (hleft : left.isFinite = true)
    (hright : right.isFinite = true) (hfew : Few left right) :
    Attained op.value? [left, right] (binary op left right) := by
  cases left with
  | bounds => cases hleft
  | finite as =>
    cases right with
    | bounds => cases hright
    | finite bs =>
      have hfew : as.length * bs.length ≤ enumerationLimit := hfew
      rw [binary, if_pos hfew]
      refine ⟨rfl, fun v hv => ?_⟩
      obtain ⟨a, ha, hv⟩ := List.mem_flatMap.mp (Ascending.mem_ofList.mp hv)
      obtain ⟨b, hb, hv⟩ := List.mem_filterMap.mp hv
      exact ⟨[a, b], .cons ha (.cons hb .nil), hv⟩

/-- Applying an operator to one set after the other, each value that is left comes from
values of all the sets. -/
theorem exists_of_contains_foldl {op : Operator} {first : Values} {rest : List Values}
    (hfirst : first.isFinite = true) (hrest : ∀ values ∈ rest, values.isFinite = true)
    (hfew : ∀ p ∈ steps op first rest, Few p.1 p.2) :
    (rest.foldl (binary op) first).isFinite = true ∧
      ∀ v, (rest.foldl (binary op) first).Contains v → ∃ n ns, first.Contains n ∧
        List.Forall₂ Contains rest ns ∧
          ns.foldlM (fun total m => op.value? [total, m]) n = some v := by
  induction rest generalizing first with
  | nil => exact ⟨hfirst, fun v hv => ⟨v, [], hv, .nil, rfl⟩⟩
  | cons values rest ih =>
    obtain ⟨hstep, hattained⟩ :=
      attained_binary op hfirst (hrest values List.mem_cons_self) (hfew _ List.mem_cons_self)
    obtain ⟨hfinite, hlater⟩ := ih hstep (fun values h => hrest values (List.mem_cons_of_mem _ h))
      fun p hp => hfew p (List.mem_cons_of_mem _ hp)
    refine ⟨hfinite, fun v hv => ?_⟩
    obtain ⟨total, ns, htotal, hns, hv⟩ := hlater v hv
    obtain ⟨_, hcombined, hvalue⟩ := hattained total htotal
    obtain _ | ⟨hn, _ | ⟨hm, _ | _⟩⟩ := hcombined
    refine ⟨_, _ :: ns, hn, .cons hm hns, ?_⟩
    rw [List.foldlM_cons, hvalue]
    exact hv

/-- An operator that can be applied to one operand after the other is applied to all of
them. -/
theorem attained_fold {op : Operator} {sets : List Values} (hne : sets ≠ [])
    (hfinite : ∀ values ∈ sets, values.isFinite = true) (hfew : FewSteps op sets)
    (hvalue : ∀ n ns, List.Forall₂ Contains sets (n :: ns) →
      op.value? (n :: ns) = ns.foldlM (fun total m => op.value? [total, m]) n) (default : Values) :
    Attained op.value? sets ((fold op sets).getD default) := by
  cases sets with
  | nil => exact absurd rfl hne
  | cons first rest =>
    obtain ⟨hfolded, hattained⟩ := exists_of_contains_foldl (hfinite first List.mem_cons_self)
      (fun values h => hfinite values (List.mem_cons_of_mem _ h)) hfew
    refine ⟨hfolded, fun v hv => ?_⟩
    obtain ⟨n, ns, hn, hns, hv⟩ := hattained v hv
    exact ⟨n :: ns, .cons hn hns, (hvalue n ns (.cons hn hns)).trans hv⟩

/-- So are the operators that accept any number of operands. -/
theorem attained_variadic {op : Operator} (hop : op = .add ∨ op = .mul ∨ op = .min ∨ op = .max)
    {sets : List Values} (hne : sets ≠ []) (hvalid : ∀ values ∈ sets, values.Valid)
    (hfinite : ∀ values ∈ sets, values.isFinite = true) (hfew : FewSteps op sets)
    (default : Values) : Attained op.value? sets ((fold op sets).getD default) := by
  refine attained_fold hne hfinite hfew (fun n ns hns => ?_) default
  cases hns with
  | cons hn _ =>
    exact Operator.value?_cons_eq_foldlM hop ((hvalid _ List.mem_cons_self).fits hn) ns

/-- And those with two operands. -/
theorem attained_pair {op : Operator} {sets : List Values} (hlength : sets.length = 2)
    (hfinite : ∀ values ∈ sets, values.isFinite = true) (hfew : FewSteps op sets)
    (default : Values) : Attained op.value? sets ((fold op sets).getD default) := by
  have hne : sets ≠ [] := fun h => by simp [h] at hlength
  refine attained_fold hne hfinite hfew (fun n ns hns => ?_) default
  have hone : ns.length = 1 := by
    have hcount := hns.length_eq
    simp only [List.length_cons] at hcount
    omega
  obtain ⟨m, rfl⟩ := List.length_eq_one_iff.mp hone
  rw [List.foldlM_cons]
  simp only [List.foldlM_nil, bind_pure]

/-- Every value of a number-valued operator on sets is a value of it on their members. -/
theorem attained_ofOperator {op : Operator} (hop : op ∈ Operator.arithmetic) {sets : List Values}
    (haccepts : op.accepts sets.length = true) (hvalid : ∀ values ∈ sets, values.Valid)
    (hfinite : ∀ values ∈ sets, values.isFinite = true) (hfew : FewSteps op sets) :
    Attained op.value? sets (ofOperator op sets) := by
  have hne : sets ≠ [] := fun h => by
    rw [h, List.length_nil, Operator.accepts_zero] at haccepts
    cases haccepts
  cases op with
  | neg | abs | sqr =>
    obtain ⟨values, rfl⟩ := List.length_eq_one_iff.mp (Operator.eq_of_accepts rfl haccepts)
    exact attained_unary _ (hfinite values List.mem_cons_self)
  | sub | div | mod | pow | dist =>
    rw [ofOperator]
    · exact attained_pair (Operator.eq_of_accepts rfl haccepts) hfinite hfew truth
    all_goals simp
  | add | mul | min | max =>
    rw [ofOperator]
    · exact attained_variadic (by simp) hne hvalid hfinite hfew truth
    all_goals simp
  | _ => simp [Operator.arithmetic] at hop

/-! ### Sums -/

/-- The products of terms with their coefficients are products of values of the terms. -/
theorem exists_of_contains_products {terms : List Values} {coefficients : List Int}
    (hlength : coefficients.length = terms.length) (hvalid : ∀ values ∈ terms, values.Valid)
    (hfinite : ∀ values ∈ terms, values.isFinite = true)
    (hfew : ∀ p ∈ terms.zip coefficients, Few p.1 (single p.2)) :
    (∀ values ∈ products terms coefficients, values.isFinite = true) ∧
      ∀ ps, List.Forall₂ Contains (products terms coefficients) ps →
        ∃ ns, List.Forall₂ Contains terms ns ∧
          (ns.zip coefficients).mapM (fun (n, c) => checked (n * c)) = some ps := by
  induction terms generalizing coefficients with
  | nil =>
    refine ⟨fun values h => (nomatch h), fun ps hps => ?_⟩
    cases hps
    exact ⟨[], .nil, rfl⟩
  | cons values terms ih =>
    cases coefficients with
    | nil => cases hlength
    | cons c coefficients =>
      have hvalues := hvalid values List.mem_cons_self
      obtain ⟨hproductFinite, hproduct⟩ := attained_binary .mul
        (hfinite values List.mem_cons_self) (show (single c).isFinite = true from rfl)
        (hfew _ List.mem_cons_self)
      obtain ⟨hothersFinite, hothers⟩ := ih (Nat.succ.inj hlength)
        (fun values h => hvalid values (List.mem_cons_of_mem _ h))
        (fun values h => hfinite values (List.mem_cons_of_mem _ h))
        fun p hp => hfew p (List.mem_cons_of_mem _ hp)
      refine ⟨List.forall_mem_cons.mpr ⟨hproductFinite, hothersFinite⟩, fun ps hps => ?_⟩
      obtain _ | ⟨hfirst, hrest⟩ := hps
      obtain ⟨ns, hns, hmultiplied⟩ := hothers _ hrest
      obtain ⟨_, hfactors, hp⟩ := hproduct _ hfirst
      obtain _ | @⟨_, n, _, _, hn, _ | ⟨hc, _ | _⟩⟩ := hfactors
      obtain rfl := List.mem_singleton.mp hc
      rw [Operator.value?_mul_pair (hvalues.fits hn)] at hp
      refine ⟨n :: ns, .cons hn hns, ?_⟩
      rw [List.zip_cons_cons, mapM_eq_some_iff]
      exact .cons hp (mapM_eq_some_iff.mp hmultiplied)

/-- A sum adds up the products of its terms with their coefficients. -/
theorem attained_ofSum {terms : List Values} {coefficients : List Int} (hne : terms ≠ [])
    (hlength : coefficients.length = terms.length) (hvalid : ∀ values ∈ terms, values.Valid)
    (hcs : ∀ c ∈ coefficients, Fits c) (hfinite : ∀ values ∈ terms, values.isFinite = true)
    (hfew : FewInSum terms coefficients) :
    Attained (fun ns => Calculus.bounded.sum (ns.zip coefficients)) terms
      (ofSum terms coefficients) := by
  obtain ⟨hproductsFinite, hattained⟩ :=
    exists_of_contains_products hlength hvalid hfinite hfew.1
  have hproductsNe : products terms coefficients ≠ [] := by
    have hpositive := List.length_pos_of_ne_nil hne
    refine List.ne_nil_of_length_pos ?_
    rw [products, List.length_map, List.length_zip]
    omega
  obtain ⟨hsumFinite, hsum⟩ := attained_variadic (.inl rfl) hproductsNe
    (valid_products hvalid hcs) hproductsFinite hfew.2 (single 0)
  refine ⟨hsumFinite, fun v hv => ?_⟩
  obtain ⟨ps, hps, hvalue⟩ := hsum v hv
  obtain ⟨ns, hns, hmultiplied⟩ := hattained ps hps
  exact ⟨ns, hns, Option.bind_eq_some_iff.mpr ⟨ps, hmultiplied, hvalue⟩⟩

/-- The domain of a set holds no symbol. -/
theorem containsSymbol_toDomain {values : Values} {d : Domain} (h : values.toDomain = .ok d)
    (text : String) : d.containsSymbol text = false := by
  obtain ⟨runs, rfl⟩ := exists_ofRuns_of_toDomain values h
  rw [Domain.containsSymbol, Domain.symbols_ofRuns]
  rfl

theorem ofAll_ne_nil {s : Store} {list : List Expr} {sets : List Values}
    (hsets : ofAll s list = .ok sets) (hne : list ≠ []) : sets ≠ [] := by
  rintro rfl
  have hlength := (ofAll_eq_ok_iff.mp hsets).length_eq
  exact hne (List.length_eq_zero_iff.mp hlength)

end Values

/-! ### Expressions without repeated variables -/

namespace Expr

variable {s : Store}

/-- The set is enumerated, and the expression takes each of its values. -/
def Attains (s : Store) (e : Expr) (values : Values) : Prop :=
  values.isFinite = true ∧
    ∀ n, values.Contains n → ∃ ρ, s.Within ρ ∧ e.value? .bounded ρ = some (.integer n)

/-- Expressions that share no variable, each of which takes all values computed for it. -/
structure Independent (s : Store) (list : List Expr) : Prop where
  wellFormed : ∀ e ∈ list, e.WellFormed s.Declares
  once : (occurrencesIn list).Nodup
  attains : ∀ e ∈ list, ∀ values, Values.ofExpr s e = .ok values → e.Attains s values

namespace Independent

variable {list : List Expr} {sets : List Values}

theorem valid (h : Independent s list) (hs : s.Consistent Domain.Normal)
    (hsets : Values.ofAll s list = .ok sets) : ∀ values ∈ sets, values.Valid :=
  Values.forall_of_ofAll hsets fun e he _ => Values.valid_ofExpr hs (h.wellFormed e he)

theorem finite (h : Independent s list) (hsets : Values.ofAll s list = .ok sets) :
    ∀ values ∈ sets, values.isFinite = true :=
  Values.forall_of_ofAll hsets fun e he values hvalues => (h.attains e he values hvalues).1

/-- Each expression takes its value under some assignment. -/
theorem forall₂ (h : Independent s list) (hsets : Values.ofAll s list = .ok sets) {ns : List Int}
    (hns : List.Forall₂ Values.Contains sets ns) :
    List.Forall₂ (fun e n => ∃ ρ, s.Within ρ ∧ e.integer? .bounded ρ = some n) list ns := by
  have hattains := h.attains
  rw [Values.ofAll_eq_ok_iff] at hsets
  clear h
  induction hsets generalizing ns with
  | nil =>
    cases hns
    exact .nil
  | @cons e values rest _ hvalues _ ih =>
    obtain _ | ⟨hn, hns⟩ := hns
    refine .cons ?_ (ih hns fun e he => hattains e (List.mem_cons_of_mem _ he))
    obtain ⟨ρ, hρ, hv⟩ := (hattains e List.mem_cons_self values hvalues).2 _ hn
    refine ⟨ρ, hρ, ?_⟩
    rw [integer?_eq, hv]
    rfl

end Independent

/-- Expressions that share no variable take their values at the same time. -/
theorem exists_within_mapM (hs : s.Consistent Domain.Normal) {list : List Expr} {ns : List Int}
    (honce : (occurrencesIn list).Nodup)
    (h : List.Forall₂ (fun e n => ∃ ρ, s.Within ρ ∧ e.integer? .bounded ρ = some n) list ns) :
    ∃ ρ, s.Within ρ ∧ list.mapM (integer? .bounded ρ) = some ns := by
  induction h with
  | nil =>
    obtain ⟨ρ, hρ⟩ := Store.exists_assignment hs
    exact ⟨ρ, hρ, rfl⟩
  | @cons e n rest ns he _ ih =>
    rw [occurrencesIn, List.nodup_append] at honce
    obtain ⟨_, hrest, hdisjoint⟩ := honce
    obtain ⟨ρ, hρ, hn⟩ := he
    obtain ⟨τ, hτ, hns⟩ := ih hrest
    -- the variables of the first expression take its values, all others those of the rest
    let σ : Assignment := fun v => if v ∈ e.occurrences then ρ v else τ v
    have hfirst : e.integer? .bounded σ = some n := by
      rw [← hn, integer?, integer?, read_congr fun v hv => if_pos hv]
    have hothers : rest.mapM (integer? .bounded σ) = some ns := by
      rw [← hns]
      refine mapM_congr fun e' he' => ?_
      rw [integer?, integer?, read_congr fun v hv => if_neg fun hmem => ?_]
      have hv : v ∈ occurrencesIn rest := by
        rw [occurrencesIn_eq_flatMap]
        exact List.mem_flatMap.mpr ⟨e', he', hv⟩
      exact hdisjoint v hmem v hv rfl
    refine ⟨σ, fun v hv => ?_, ?_⟩
    · by_cases hmem : v ∈ e.occurrences
      · simp only [σ, if_pos hmem]
        exact hρ v hv
      · simp only [σ, if_neg hmem]
        exact hτ v hv
    · rw [List.mapM_cons, hfirst, hothers]
      rfl

/-- What is made of the values of independent expressions is attained. -/
theorem Independent.attains_of_attained {list : List Expr} {sets : List Values}
    (h : Independent s list) (hs : s.Consistent Domain.Normal)
    (hsets : Values.ofAll s list = .ok sets) {f : List Int → Option Int} {values : Values}
    (hattained : Values.Attained f sets values) {e : Expr}
    (hvalue : ∀ ρ ns n, list.mapM (integer? .bounded ρ) = some ns → f ns = some n →
      e.value? .bounded ρ = some (.integer n)) : e.Attains s values := by
  refine ⟨hattained.1, fun n hn => ?_⟩
  obtain ⟨ns, hns, hn⟩ := hattained.2 n hn
  obtain ⟨ρ, hρ, hmapM⟩ := exists_within_mapM hs h.once (h.forall₂ hsets hns)
  exact ⟨ρ, hρ, hvalue ρ ns n hmapM hn⟩

/-- The extreme values of independent expressions are attained. -/
theorem Independent.attains_ofOperator {list : List Expr} {sets : List Values}
    (h : Independent s list) (hs : s.Consistent Domain.Normal) {op : Operator}
    (hop : op = .min ∨ op = .max) (hne : list ≠ []) (hsets : Values.ofAll s list = .ok sets)
    (hfew : Values.FewSteps op sets) {e : Expr}
    (hvalue : ∀ ρ, e.value? .bounded ρ =
      (list.mapM (integer? .bounded ρ)).bind fun ns => (op.value? ns).map .integer) :
    e.Attains s (Values.ofOperator op sets) := by
  have hfold : Values.ofOperator op sets = (Values.fold op sets).getD .truth := by
    rcases hop with rfl | rfl <;> rfl
  have hvariadic : op = .add ∨ op = .mul ∨ op = .min ∨ op = .max := .inr (.inr hop)
  rw [hfold]
  refine h.attains_of_attained hs hsets (Values.attained_variadic hvariadic
    (Values.ofAll_ne_nil hsets hne) (h.valid hs hsets) (h.finite hsets) hfew _)
    fun ρ ns n hns hn => ?_
  rw [hvalue, hns, Option.bind_some, hn]
  rfl

/-- An operator on independent expressions takes each of its values. -/
theorem Independent.attains_apply {operands : List Expr} {sets : List Values}
    (h : Independent s operands) (hs : s.Consistent Domain.Normal) {op : Operator}
    (hop : op ∈ Operator.arithmetic) (haccepts : op.accepts operands.length = true)
    (hsets : Values.ofAll s operands = .ok sets) (hfew : Values.FewSteps op sets) :
    (apply op operands).Attains s (Values.ofOperator op sets) := by
  have hlength := (Values.ofAll_eq_ok_iff.mp hsets).length_eq
  have hattained := Values.attained_ofOperator hop (hlength ▸ haccepts) (h.valid hs hsets)
    (h.finite hsets) hfew
  refine h.attains_of_attained hs hsets hattained fun ρ ns n hns hn => ?_
  rw [value?_apply_of_not_isPredicate (Operator.isPredicate_of_arithmetic hop), hns]
  show (op.value? ns).map Value.integer = _
  rw [hn]
  rfl

/-- So does a sum of independent expressions. -/
theorem Independent.attains_sum {terms : List Expr} {coefficients : Option (List Int)}
    {sets : List Values} (h : Independent s terms) (hs : s.Consistent Domain.Normal)
    (hregular : (Aggregate.sum terms coefficients).Regular)
    (hsets : Values.ofAll s terms = .ok sets)
    (hfew : Values.FewInSum sets (Aggregate.coefficientsOf terms coefficients)) :
    (aggregate (.sum terms coefficients)).Attains s
      (Values.ofSum sets (Aggregate.coefficientsOf terms coefficients)) := by
  have hlength := (Values.ofAll_eq_ok_iff.mp hsets).length_eq
  have hcount : (Aggregate.coefficientsOf terms coefficients).length = terms.length := by
    cases coefficients with
    | none => exact List.length_map _
    | some cs => exact (hregular.2 cs rfl).1
  have hattained := Values.attained_ofSum (Values.ofAll_ne_nil hsets hregular.1)
    (hcount.trans hlength) (h.valid hs hsets) (Values.fits_coefficients hregular)
    (h.finite hsets) hfew
  refine h.attains_of_attained hs hsets hattained fun ρ ns n hns hn => ?_
  have hsame : Aggregate.coefficientsOf ns coefficients =
      Aggregate.coefficientsOf terms coefficients := by
    simp only [Aggregate.coefficientsOf, List.map_const', (mapM_eq_some_iff.mp hns).length_eq]
  rw [value?_aggregate, value?_sum, hns, Option.bind_some, hsame, hn]
  rfl

theorem attains_const (hs : s.Consistent Domain.Normal) (n : Int) :
    (const n).Attains s (.single n) := by
  obtain ⟨ρ, hρ⟩ := Store.exists_assignment hs
  refine ⟨rfl, fun m hm => ⟨ρ, hρ, ?_⟩⟩
  rw [List.mem_singleton.mp hm]
  rfl

/-- A variable with few values takes each of them. -/
theorem attains_var (hs : s.Consistent Domain.Normal) {v : Variable} {k : Nat}
    (hsize : (s.domainOf v).size = some k) (hlimit : k ≤ Values.enumerationLimit) :
    (var v).Attains s (Values.ofDomain (s.domainOf v)) := by
  rw [Values.ofDomain, hsize]
  simp only [hlimit, if_true]
  refine ⟨rfl, fun n hn => ?_⟩
  obtain ⟨ρ, hρ⟩ := Store.exists_assignment hs
  have hholds : (s.domainOf v).Holds (.integer n) := Domain.mem_integers.mp hn
  refine ⟨Function.update ρ v (.integer n), hρ.update hholds, ?_⟩
  rw [value?, read, Function.update_self]
  rfl

theorem nodup_occurrences {list : List Expr} (h : (occurrencesIn list).Nodup) {e : Expr}
    (he : e ∈ list) : e.occurrences.Nodup := by
  rw [occurrencesIn_eq_flatMap, List.nodup_flatMap] at h
  exact h.1 e he

/-! ### Enumerable expressions -/

/-- Expressions of numbers whose values are enumerated.  Every variable has few values, so
that no interval of its domain goes on without end, and no two sets that are combined on the
way have too many combinations. -/
inductive Enumerable (s : Store) : Expr → Prop
  | const (n : Int) : Enumerable s (const n)
  | var {v : Variable} {k : Nat} : (s.domainOf v).size = some k → k ≤ Values.enumerationLimit →
      Enumerable s (var v)
  | apply {op : Operator} {operands : List Expr} : op ∈ Operator.arithmetic →
      (∀ e ∈ operands, Enumerable s e) →
      (∀ sets, Values.ofAll s operands = .ok sets → Values.FewSteps op sets) →
      Enumerable s (apply op operands)
  | sum {terms : List Expr} {coefficients : Option (List Int)} :
      (∀ e ∈ terms, Enumerable s e) →
      (∀ sets, Values.ofAll s terms = .ok sets →
        Values.FewInSum sets (Aggregate.coefficientsOf terms coefficients)) →
      Enumerable s (aggregate (.sum terms coefficients))
  | minimum {list : List Expr} : (∀ e ∈ list, Enumerable s e) →
      (∀ sets, Values.ofAll s list = .ok sets → Values.FewSteps .min sets) →
      Enumerable s (aggregate (.minimum list))
  | maximum {list : List Expr} : (∀ e ∈ list, Enumerable s e) →
      (∀ sets, Values.ofAll s list = .ok sets → Values.FewSteps .max sets) →
      Enumerable s (aggregate (.maximum list))

/-- Where no variable occurs twice, each value of the set is one of the expression. -/
theorem Enumerable.attains (hs : s.Consistent Domain.Normal) {e : Expr}
    (he : e.WellFormed s.Declares) (h : e.Enumerable s) (honce : e.occurrences.Nodup)
    {values : Values} (hvalues : Values.ofExpr s e = .ok values) : e.Attains s values := by
  have hindependent : ∀ {list : List Expr}, (occurrencesIn list).Nodup →
      (∀ e ∈ list, e.WellFormed s.Declares) → (∀ e ∈ list, e.Enumerable s) →
      (∀ e ∈ list, e.WellFormed s.Declares → e.Enumerable s → e.occurrences.Nodup →
        ∀ {values}, Values.ofExpr s e = .ok values → e.Attains s values) →
      Independent s list := fun honce he h ih =>
    ⟨he, honce, fun e hmem values hvalues =>
      ih e hmem (he e hmem) (h e hmem) (nodup_occurrences honce hmem) hvalues⟩
  induction e using Expr.induction generalizing values with
  | const n =>
    cases hvalues
    exact attains_const hs n
  | var v =>
    obtain ⟨-, rfl⟩ := Values.eq_ofDomain hvalues
    cases h with
    | var hsize hlimit => exact attains_var hs hsize hlimit
  | set members => cases h
  | apply op operands ih =>
    cases h with
    | apply hop hoperands hfew =>
      obtain ⟨⟨haccepts, _⟩, hwellFormed⟩ := wellFormed_apply.mp he
      have hpredicate := Operator.isPredicate_of_arithmetic hop
      rw [Values.ofExpr, if_neg (Bool.eq_false_iff.mp hpredicate)] at hvalues
      obtain ⟨sets, hsets, rfl⟩ := Except.map_eq_ok.mp hvalues
      have hlist := hindependent honce hwellFormed hoperands ih
      exact hlist.attains_apply hs hop haccepts hsets (hfew sets hsets)
  | aggregate f ih =>
    obtain ⟨hregular, hwellFormed⟩ := wellFormed_aggregate.mp he
    rw [Values.ofExpr] at hvalues
    cases h with
    | sum hterms hfew =>
      obtain ⟨sets, hsets, rfl⟩ := Except.map_eq_ok.mp hvalues
      have hlist := hindependent honce hwellFormed hterms ih
      exact hlist.attains_sum hs hregular hsets (hfew sets hsets)
    | @minimum list hentries hfew =>
      obtain ⟨sets, hsets, rfl⟩ := Except.map_eq_ok.mp hvalues
      have hlist := hindependent honce hwellFormed hentries ih
      exact hlist.attains_ofOperator hs (.inl rfl) hregular hsets (hfew sets hsets) fun ρ =>
        (value?_aggregate _).trans (value?_minimum list)
    | @maximum list hentries hfew =>
      obtain ⟨sets, hsets, rfl⟩ := Except.map_eq_ok.mp hvalues
      have hlist := hindependent honce hwellFormed hentries ih
      exact hlist.attains_ofOperator hs (.inr rfl) hregular hsets (hfew sets hsets) fun ρ =>
        (value?_aggregate _).trans (value?_maximum list)

/-- What is enumerated misses no value either. -/
theorem Enumerable.sound (hs : s.Consistent Domain.Normal) {e : Expr}
    (he : e.WellFormed s.Declares) (h : e.Enumerable s) (honce : e.occurrences.Nodup) :
    e.Sound s := by
  induction e using Expr.induction with
  | const n => exact .const n
  | var v => exact .var v
  | set members => exact .set members
  | apply op operands ih =>
    have hwellFormed := (wellFormed_apply.mp he).2
    cases h with
    | apply hop hoperands hfew =>
      refine .apply (fun e hmem => ih e hmem (hwellFormed e hmem) (hoperands e hmem)
        (nodup_occurrences honce hmem)) fun left right hsets => .inl ?_
      have hfinite := Values.forall_of_ofAll hsets fun e hmem values hvalues =>
        ((hoperands e hmem).attains hs (hwellFormed e hmem) (nodup_occurrences honce hmem)
          hvalues).1
      have hfew : Values.Few left right := hfew _ hsets (left, right) List.mem_cons_self
      cases left with
      | bounds => cases hfinite _ List.mem_cons_self
      | finite =>
        cases right with
        | bounds => cases hfinite _ (List.mem_cons_of_mem _ List.mem_cons_self)
        | finite => exact hfew
  | aggregate f ih =>
    have hwellFormed := (wellFormed_aggregate.mp he).2
    cases h with
    | sum hlist | minimum hlist | maximum hlist =>
      exact .aggregate fun e hmem => ih e hmem (hwellFormed e hmem) (hlist e hmem)
        (nodup_occurrences honce hmem)

/-- The domain for an enumerable expression in which no variable occurs twice holds just the
values that the expression takes under some assignment of its variables. -/
theorem Enumerable.possible_iff_taken (hs : s.Built) {e : Expr} (he : e.WellFormed s.Declares)
    (h : e.Enumerable s) (honce : e.occurrences.Nodup) {d : Domain}
    (hd : possibleValues s e = .ok d) (v : Value) :
    d.Holds v ↔ ∃ ρ, s.Within ρ ∧ e.value? .bounded ρ = some v := by
  constructor
  · intro hv
    obtain ⟨values, hvalues, hd⟩ := Except.bind_eq_ok.mp hd
    cases v with
    | symbol text =>
      rw [Domain.Holds, Values.containsSymbol_toDomain hd] at hv
      cases hv
    | integer n =>
      exact (h.attains hs.normal he honce hvalues).2 n (Values.contains_of_toDomain hd hv)
  · rintro ⟨ρ, hρ, hv⟩
    exact ((h.sound hs.normal he honce).complete hs he ρ v hρ hv).2 d hd

end Expr

namespace Quotients

/-- Twice a quotient by the second variable, less five. -/
def weighted : Expr :=
  .aggregate (.sum [.apply .div [.const 12, .var y], .const 5] (some [2, -1]))

theorem wellFormed_weighted : weighted.WellFormed store.Declares := by
  have hconst : ∀ {n : Int}, Fits n → (Expr.const n).WellFormed store.Declares := fun h p hp => by
    rwa [List.mem_singleton.mp hp]
  refine Expr.wellFormed_aggregate.mpr ⟨⟨List.cons_ne_nil _ _, ?_⟩, ?_⟩
  · rintro cs ⟨⟩
    exact ⟨rfl, by decide⟩
  · refine List.forall_mem_cons.mpr ⟨?_, List.forall_mem_singleton.mpr (hconst (by decide))⟩
    refine Expr.wellFormed_apply.mpr ⟨⟨rfl, nofun⟩, ?_⟩
    refine List.forall_mem_cons.mpr ⟨hconst (by decide), List.forall_mem_singleton.mpr ?_⟩
    intro p hp
    rw [List.mem_singleton.mp hp]
    exact declares_y

theorem enumerable_weighted : weighted.Enumerable store := by
  have hquotient : (Expr.apply .div [.const 12, .var y]).Enumerable store := by
    refine .apply (by decide) ?_ fun sets hsets => ?_
    · refine List.forall_mem_cons.mpr ⟨.const 12, List.forall_mem_singleton.mpr ?_⟩
      exact .var (k := 3) (by cbv) (by decide)
    · have hcomputed : Values.ofAll store [.const 12, .var y] =
          .ok [.single 12, .finite [-3, -2, -1]] := by
        cbv
      cases hsets.symm.trans hcomputed
      decide
  refine .sum (List.forall_mem_cons.mpr ⟨hquotient, List.forall_mem_singleton.mpr (.const 5)⟩)
    fun sets hsets => ?_
  have hcomputed : Values.ofAll store [.apply .div [.const 12, .var y], .const 5] =
      .ok [.finite [-12, -6, -4], .single 5] := by
    cbv
  cases hsets.symm.trans hcomputed
  have hproducts : Values.products [.finite [-12, -6, -4], .single 5] [2, -1] =
      [.finite [-24, -12, -8], .finite [-5]] := by
    cbv
  refine ⟨by decide, ?_⟩
  show Values.FewSteps .add (Values.products [.finite [-12, -6, -4], .single 5] [2, -1])
  rw [hproducts]
  decide

/-- Just three values are in the domain, and one of them is taken where the quotient is -6. -/
theorem possible_weighted : ∃ d, possibleValues store weighted = .ok d ∧
    d.integers = [-29, -17, -13] ∧
      ∃ ρ, store.Within ρ ∧ weighted.value? .bounded ρ = some (.integer (-17)) := by
  obtain ⟨d, hd, hintegers⟩ : ∃ d, possibleValues store weighted = .ok d ∧
      d.integers = [-29, -17, -13] := ⟨_, by cbv, by cbv⟩
  refine ⟨d, hd, hintegers, ?_⟩
  have hholds : d.Holds (.integer (-17)) := by
    refine Domain.mem_integers.mp ?_
    rw [hintegers]
    decide
  exact (Expr.Enumerable.possible_iff_taken built_store wellFormed_weighted enumerable_weighted
    (by decide) hd _).mp hholds

end Quotients
end CspModel
