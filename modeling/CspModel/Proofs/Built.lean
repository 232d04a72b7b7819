import CspModel.Posting
import CspModel.Proofs.Builders
import CspModel.Proofs.Parts

/-! # What can be built

Expressions, constraints and items are only ever put together by the functions that
check their arguments, from variables that were handed out and from integers of the
bounded range.  `Built` says of an object that it came about this way, and every
expression that did is well-formed: at every node the operator accepts the number of
its operands, no application of an associative operator stands in another one of it,
sets ascend, and lists hold what their aggregate needs (`Expr.Built.wellFormed`).
-/
namespace CspModel

open Bounded

/-! ### Well-formed expressions -/

/-- What every aggregate satisfies as far as its own node is concerned.  The number of
entries of a list is an integer of the bounded range like any other. -/
def Aggregate.Regular {ε : Type} : Aggregate ε → Prop
  | .sum terms coefficients => terms ≠ [] ∧
      ∀ cs ∈ coefficients, cs.length = terms.length ∧ ∀ c ∈ cs, Fits c
  | .count list values => list ≠ [] ∧ Fits list.length ∧ values ≠ [] ∧ ∀ n ∈ values, Fits n
  | .nValues list except => list ≠ [] ∧ Fits list.length ∧ ∀ n ∈ except, Fits n
  | .minimum list => list ≠ []
  | .maximum list => list ≠ []
  | .element list _ startIndex => list ≠ [] ∧ Fits startIndex

namespace Expr

variable (known : Variable → Prop)

/-- What every expression over known variables satisfies as far as its outermost node is
concerned. -/
def Regular : Expr → Prop
  | const n => Fits n
  | var v => known v
  | set members => members.Pairwise (· < ·) ∧ ∀ n ∈ members, Fits n
  | apply op operands => op.accepts operands.length = true ∧
      (op.isAssociative = true → ∀ inner, apply op inner ∉ operands)
  | aggregate f => f.Regular

/-- Every node of the expression is as it has to be. -/
def WellFormed (e : Expr) : Prop := ∀ p ∈ e.parts, p.Regular known

variable {known}

theorem wellFormed_apply {op : Operator} {operands : List Expr} :
    (apply op operands).WellFormed known ↔
      (apply op operands).Regular known ∧ ∀ e ∈ operands, e.WellFormed known := by
  simp only [WellFormed, parts_apply, List.mem_cons, List.mem_flatMap, forall_eq_or_imp]
  exact and_congr_right' ⟨fun h e he p hp => h p ⟨e, he, hp⟩, fun h p ⟨e, he, hp⟩ => h e he p hp⟩

theorem wellFormed_aggregate {f : Aggregate Expr} :
    (aggregate f).WellFormed known ↔ f.Regular ∧ ∀ e ∈ f.operands, e.WellFormed known := by
  simp only [WellFormed, parts_aggregate, List.mem_cons, List.mem_flatMap, forall_eq_or_imp]
  exact and_congr Iff.rfl
    ⟨fun h e he p hp => h p ⟨e, he, hp⟩, fun h p ⟨e, he, hp⟩ => h e he p hp⟩

theorem WellFormed.regular {e : Expr} (h : e.WellFormed known) : e.Regular known :=
  h e e.self_mem_parts

theorem WellFormed.part {e p : Expr} (h : e.WellFormed known) (hp : p ∈ e.parts) :
    p.WellFormed known := fun q hq => h q (parts_subset hp hq)

/-- The variables of a well-formed expression are known. -/
theorem WellFormed.knows {e : Expr} (h : e.WellFormed known) {v : Variable}
    (hv : v ∈ e.occurrences) : known v := h (var v) (mem_occurrences_iff.mp hv)

theorem WellFormed.mono {known' : Variable → Prop} {e : Expr} (h : e.WellFormed known)
    (hknown : ∀ v ∈ e.occurrences, known v → known' v) : e.WellFormed known' := by
  intro p hp
  cases p with
  | var v => exact hknown v (mem_occurrences_iff.mpr hp) (h _ hp)
  | _ => exact h _ hp

end Expr

/-! ### Expressions that can be built -/

mutual
/-- Expressions put together over the variables that were handed out. -/
inductive Expr.Built (known : Variable → Prop) : Expr → Prop
  | const {n : Int} : Fits n → Expr.Built known (.const n)
  | var {v : Variable} : known v → Expr.Built known (.var v)
  | set {members : List Int} : (∀ n ∈ members, Fits n) → Expr.Built known (.ofSet members)
  | apply {op : Operator} {operands : List Expr} {e : Expr} : (∀ o ∈ operands, Expr.Built known o) →
      Expr.applyChecked op operands = .ok e → Expr.Built known e
  | aggregate {f : Aggregate Expr} : Aggregate.Built known f → Expr.Built known (.aggregate f)

/-- Aggregates put together over the variables that were handed out. -/
inductive Aggregate.Built (known : Variable → Prop) : Aggregate Expr → Prop
  | terms {terms : List Expr} {f : Aggregate Expr} : (∀ e ∈ terms, Expr.Built known e) →
      Aggregate.ofTerms terms = .ok f → Aggregate.Built known f
  | weightedTerms {terms : List Expr} {coefficients : List Int} {f : Aggregate Expr} :
      (∀ e ∈ terms, Expr.Built known e) → (∀ c ∈ coefficients, Fits c) →
      Aggregate.ofWeightedTerms terms coefficients = .ok f → Aggregate.Built known f
  | counting {list : List Expr} {values : List Int} {f : Aggregate Expr} :
      (∀ e ∈ list, Expr.Built known e) → Fits list.length → (∀ n ∈ values, Fits n) →
      Aggregate.counting list values = .ok f → Aggregate.Built known f
  | distinctValues {list : List Expr} {except : List Int} {f : Aggregate Expr} :
      (∀ e ∈ list, Expr.Built known e) → Fits list.length → (∀ n ∈ except, Fits n) →
      Aggregate.distinctValues list except = .ok f → Aggregate.Built known f
  | smallest {list : List Expr} {f : Aggregate Expr} : (∀ e ∈ list, Expr.Built known e) →
      Aggregate.smallest list = .ok f → Aggregate.Built known f
  | greatest {list : List Expr} {f : Aggregate Expr} : (∀ e ∈ list, Expr.Built known e) →
      Aggregate.greatest list = .ok f → Aggregate.Built known f
  | elementAt {list : List Expr} {index : Expr} {startIndex : Int} {f : Aggregate Expr} :
      (∀ e ∈ list, Expr.Built known e) → Expr.Built known index → Fits startIndex →
      Aggregate.elementAt list index startIndex = .ok f → Aggregate.Built known f
  | plus {f g : Aggregate Expr} : Aggregate.Built known f → Aggregate.Built known g → Aggregate.Built known (f.plus g)
  | scaled {f : Aggregate Expr} {factor : Int} : Aggregate.Built known f → Fits factor →
      Aggregate.Built known (f.scaled factor)
end

section
variable {known : Variable → Prop}

/-- What an operand of an associative operator contributes. -/
theorem Expr.mem_spliced {op : Operator} {e p : Expr} (h : p ∈ spliced op e) :
    p = e ∨ ∃ operands, e = apply op operands ∧ p ∈ operands := by
  cases e with
  | apply inner operands =>
    by_cases hinner : inner = op
    · subst hinner
      rw [spliced, if_pos rfl] at h
      exact .inr ⟨operands, rfl, h⟩
    · rw [spliced, if_neg hinner] at h
      exact .inl (List.mem_singleton.mp h)
  | _ => exact .inl (List.mem_singleton.mp h)

theorem Operator.two_le_of_accepts {op : Operator} (hop : op.isAssociative = true) {n : Nat} :
    op.accepts n = true ↔ 2 ≤ n := by
  cases op with
  | add | mul | min | max | and | or =>
    show (decide (2 ≤ n) && true) = true ↔ 2 ≤ n
    simp
  | _ => cases hop

theorem Operator.accepts_zero (op : Operator) : op.accepts 0 = false := by
  cases op <;> rfl

/-- Merging makes operands fewer only if one of them has no operands itself. -/
theorem Expr.length_le_flatMap_spliced {op : Operator} {operands : List Expr}
    (h : ∀ inner, apply op inner ∈ operands → inner ≠ []) :
    operands.length ≤ (operands.flatMap (spliced op)).length := by
  induction operands with
  | nil => exact Nat.zero_le _
  | cons e rest ih =>
    have ih := ih fun inner hinner => h inner (List.mem_cons_of_mem e hinner)
    have he : 1 ≤ (spliced op e).length := by
      cases e with
      | apply inner operands =>
        by_cases hinner : inner = op
        · subst hinner
          rw [spliced, if_pos rfl]
          exact List.length_pos_of_ne_nil (h operands List.mem_cons_self)
        · rw [spliced, if_neg hinner]
          exact Nat.le_refl 1
      | _ => exact Nat.le_refl 1
    rw [List.flatMap_cons, List.length_append, List.length_cons]
    omega

/-- Merging looks one level down only.  That suffices where the applications among the
operands are merged already: the operands that result are enough, and none is left to merge. -/
theorem Expr.merged_flatMap_spliced {op : Operator} (hop : op.isAssociative = true)
    {operands : List Expr} (haccepts : op.accepts operands.length = true)
    (h : ∀ inner, apply op inner ∈ operands →
      op.accepts inner.length = true ∧ ∀ inner', apply op inner' ∉ inner) :
    op.accepts (operands.flatMap (spliced op)).length = true ∧
      ∀ inner, apply op inner ∉ operands.flatMap (spliced op) := by
  constructor
  · have hne : ∀ inner, apply op inner ∈ operands → inner ≠ [] := by
      rintro _ hinner rfl
      exact absurd (h [] hinner).1 (by simp [Operator.accepts_zero])
    rw [Operator.two_le_of_accepts hop] at haccepts ⊢
    exact Nat.le_trans haccepts (length_le_flatMap_spliced hne)
  · intro inner hinner
    obtain ⟨e, he, hinner⟩ := List.mem_flatMap.mp hinner
    by_cases hsame : ∃ operands, e = apply op operands
    · obtain ⟨operands, rfl⟩ := hsame
      rw [spliced, if_pos rfl] at hinner
      exact (h operands he).2 inner hinner
    · rcases mem_spliced hinner with rfl | ⟨operands, rfl, _⟩
      · exact hsame ⟨inner, rfl⟩
      · exact hsame ⟨operands, rfl⟩

theorem Expr.wellFormed_applied {op : Operator} {operands : List Expr}
    (haccepts : op.accepts operands.length = true) (h : ∀ o ∈ operands, o.WellFormed known) :
    (applied op operands).WellFormed known := by
  by_cases hop : op.isAssociative = true
  · rw [applied, if_pos hop, wellFormed_apply]
    obtain ⟨haccepts, hmerged⟩ := merged_flatMap_spliced hop haccepts fun inner hinner =>
      ⟨(h _ hinner).regular.1, (h _ hinner).regular.2 hop⟩
    refine ⟨⟨haccepts, fun _ => hmerged⟩, fun p hp => ?_⟩
    obtain ⟨e, he, hp⟩ := List.mem_flatMap.mp hp
    rcases mem_spliced hp with rfl | ⟨inner, rfl, hinner⟩
    · exact h p he
    · exact (wellFormed_apply.mp (h _ he)).2 p hinner
  · rw [applied, if_neg hop, wellFormed_apply]
    exact ⟨⟨haccepts, fun hassoc => absurd hassoc hop⟩, h⟩

/-- The weighted terms of an aggregate are well-formed when it is. -/
theorem Aggregate.weightedTerms_spec {f : Aggregate Expr} (hf : f.Regular)
    (h : ∀ e ∈ f.operands, e.WellFormed known) :
    f.weightedTerms.1 ≠ [] ∧ f.weightedTerms.2.length = f.weightedTerms.1.length ∧
      (∀ c ∈ f.weightedTerms.2, Fits c) ∧ ∀ e ∈ f.weightedTerms.1, e.WellFormed known := by
  have hone : Fits 1 := by decide
  cases f with
  | sum terms coefficients =>
    obtain ⟨hne, hcs⟩ := hf
    refine ⟨hne, ?_, ?_, h⟩
    · cases coefficients with
      | none => simp [weightedTerms, coefficientsOf]
      | some cs => exact (hcs cs rfl).1
    · cases coefficients with
      | none => simp [weightedTerms, coefficientsOf, hone]
      | some cs => exact (hcs cs rfl).2
  | _ =>
    simp only [weightedTerms, List.length_singleton, List.mem_singleton, forall_eq]
    exact ⟨List.cons_ne_nil _ _, trivial, hone, Expr.wellFormed_aggregate.mpr ⟨hf, h⟩⟩

/-- A sum is well-formed when its coefficients match its terms. -/
theorem Aggregate.wellFormed_sum {terms : List Expr} {coefficients : List Int}
    (hne : terms ≠ []) (hlength : coefficients.length = terms.length)
    (hfits : ∀ c ∈ coefficients, Fits c) (h : ∀ e ∈ terms, e.WellFormed known) :
    (Expr.aggregate (.sum terms (keptCoefficients coefficients))).WellFormed known := by
  refine Expr.wellFormed_aggregate.mpr ⟨⟨hne, fun cs hcs => ?_⟩, h⟩
  unfold keptCoefficients at hcs
  split at hcs
  · cases hcs
  · cases hcs
    exact ⟨hlength, hfits⟩

/-- Every expression that was built is well-formed. -/
theorem Expr.Built.wellFormed {e : Expr} (h : Expr.Built known e) : e.WellFormed known := by
  induction h using Expr.Built.rec
    (motive_2 := fun f _ => (Expr.aggregate f).WellFormed known) with
  | const h => simpa [Expr.WellFormed, Expr.parts, Expr.Regular] using h
  | var h => simpa [Expr.WellFormed, Expr.parts, Expr.Regular] using h
  | set h =>
    simp only [Expr.WellFormed, Expr.ofSet, Expr.parts, List.mem_singleton, forall_eq]
    exact ⟨Ascending.pairwise_ofList _, fun n hn => h n (Ascending.mem_ofList.mp hn)⟩
  | apply _ he ih =>
    obtain ⟨haccepts, rfl⟩ := applyChecked_eq_ok.mp he
    exact wellFormed_applied haccepts ih
  | aggregate _ ih => exact ih
  | terms _ hf ih =>
    obtain ⟨hne, rfl⟩ := Aggregate.map_nonEmpty_eq_ok.mp hf
    refine wellFormed_aggregate.mpr ⟨⟨hne, fun cs hcs => ?_⟩, ih⟩
    cases hcs
  | weightedTerms _ hcs hf ih =>
    obtain ⟨hne, hlength, rfl⟩ := Aggregate.ofWeightedTerms_eq_ok.mp hf
    refine wellFormed_aggregate.mpr ⟨⟨hne, fun cs hcs' => ?_⟩, ih⟩
    cases hcs'
    exact ⟨hlength, hcs⟩
  | counting _ hlength hvalues hf ih =>
    obtain ⟨hne, hsome, rfl⟩ := Aggregate.counting_eq_ok.mp hf
    exact wellFormed_aggregate.mpr ⟨⟨hne, hlength, hsome, hvalues⟩, ih⟩
  | distinctValues _ hlength hexcept hf ih =>
    obtain ⟨hne, rfl⟩ := Aggregate.map_nonEmpty_eq_ok.mp hf
    refine wellFormed_aggregate.mpr ⟨⟨hne, hlength, fun n hn => ?_⟩, ih⟩
    exact hexcept n (Ascending.mem_ofList.mp hn)
  | smallest _ hf ih | greatest _ hf ih =>
    obtain ⟨hne, rfl⟩ := Aggregate.map_nonEmpty_eq_ok.mp hf
    exact wellFormed_aggregate.mpr ⟨hne, ih⟩
  | elementAt _ _ hstart hf ih ihindex =>
    obtain ⟨hne, rfl⟩ := Aggregate.map_nonEmpty_eq_ok.mp hf
    refine wellFormed_aggregate.mpr ⟨⟨hne, hstart⟩, ?_⟩
    exact List.forall_mem_append.mpr ⟨ih, List.forall_mem_singleton.mpr ihindex⟩
  | @plus f g _ _ hf hg =>
    obtain ⟨hf, hfs⟩ := Expr.wellFormed_aggregate.mp hf
    obtain ⟨hg, hgs⟩ := Expr.wellFormed_aggregate.mp hg
    obtain ⟨hne, hlength, hcs, hterms⟩ := Aggregate.weightedTerms_spec hf hfs
    obtain ⟨_, hlength', hcs', hterms'⟩ := Aggregate.weightedTerms_spec hg hgs
    have hlengths : (f.weightedTerms.2 ++ g.weightedTerms.2).length =
        (f.weightedTerms.1 ++ g.weightedTerms.1).length := by
      rw [List.length_append, List.length_append, hlength, hlength']
    refine Aggregate.wellFormed_sum (List.append_ne_nil_of_left_ne_nil hne _) hlengths ?_ ?_
    · exact fun c hc => (List.mem_append.mp hc).elim (hcs c) (hcs' c)
    · exact fun e he => (List.mem_append.mp he).elim (hterms e) (hterms' e)
  | @scaled f factor _ _ hf =>
    obtain ⟨hf, hfs⟩ := Expr.wellFormed_aggregate.mp hf
    obtain ⟨hne, hlength, _, hterms⟩ := Aggregate.weightedTerms_spec hf hfs
    have hlengths : (f.weightedTerms.2.map fun c => saturate (c * factor)).length =
        f.weightedTerms.1.length := by
      rw [List.length_map, hlength]
    refine Aggregate.wellFormed_sum hne hlengths (fun c hc => ?_) hterms
    obtain ⟨c', _, rfl⟩ := List.mem_map.mp hc
    exact saturate_fits _

/-- Every aggregate that was built is well-formed. -/
theorem Aggregate.Built.wellFormed {f : Aggregate Expr} (h : Aggregate.Built known f) :
    (Expr.aggregate f).WellFormed known :=
  Expr.Built.wellFormed (.aggregate h)

/-! ### Constraints that can be built -/

/-- Conditions over the variables that were handed out. -/
inductive Condition.Built (known : Variable → Prop) : Condition → Prop
  | compareTo {comparison : Comparison} {e : Expr} : e.Built known →
      Condition.Built known (.compareTo comparison e)
  | ofRange {within : Bool} {inf sup : Int} : Condition.Built known (.ofRange within inf sup)
  | ofSet {within : Bool} {values : List Int} : Condition.Built known (.ofSet within values)

namespace Constraint

/-- Constraints put together over the variables that were handed out. -/
inductive Built (known : Variable → Prop) : Constraint → Prop
  | intension {e : Expr} {c : Constraint} : e.Built known → intension e = .ok c → Built known c
  | extension {list : List Expr} {table : Table} {c : Constraint} :
      (∀ e ∈ list, e.Built known) → extension list table = .ok c → Built known c
  | allDifferent {list : List Expr} {except : List Int} {c : Constraint} :
      (∀ e ∈ list, e.Built known) → allDifferent list except = .ok c → Built known c
  | allEqual {list : List Expr} {c : Constraint} :
      (∀ e ∈ list, e.Built known) → allEqual list = .ok c → Built known c
  | ordered {list : List Expr} {operator : OrderOperator} {c : Constraint} :
      (∀ e ∈ list, e.Built known) → ordered list operator = .ok c → Built known c
  | conditional {f : Aggregate Expr} {condition : Condition} :
      f.Built known → condition.Built known → Built known (conditional f condition)
  | circuit {list : List Expr} {startIndex : Int} {c : Constraint} :
      (∀ e ∈ list, e.Built known) → circuit list startIndex = .ok c → Built known c
  | noOverlap {origins lengths : List Expr} {zeroIgnored : Bool} {c : Constraint} :
      (∀ e ∈ origins, e.Built known) → (∀ e ∈ lengths, e.Built known) →
      noOverlap origins lengths zeroIgnored = .ok c → Built known c
  | cumulative {origins lengths heights : List Expr} {limit : Expr} {c : Constraint} :
      (∀ e ∈ origins, e.Built known) → (∀ e ∈ lengths, e.Built known) →
      (∀ e ∈ heights, e.Built known) → limit.Built known →
      cumulative origins lengths heights limit = .ok c → Built known c
  | instantiation {list : List Variable} {values : List Int} {c : Constraint} :
      (∀ v ∈ list, known v) → instantiation list values = .ok c → Built known c
  | lex {lists : List (List Expr)} {operator : OrderOperator} {c : Constraint} :
      (∀ list ∈ lists, ∀ e ∈ list, e.Built known) → lex lists operator = .ok c → Built known c
  | channel {list : List Variable} {startIndex : Int} {c : Constraint} :
      (∀ v ∈ list, known v) → channel list startIndex = .ok c → Built known c
  | channelBetween {list other : List Variable} {startIndex otherStartIndex : Int}
      {c : Constraint} : (∀ v ∈ list, known v) → (∀ v ∈ other, known v) →
      channelBetween list startIndex other otherStartIndex = .ok c → Built known c
  | channelValue {list : List Variable} {startIndex : Int} {value : Expr} {c : Constraint} :
      (∀ v ∈ list, known v) → value.Built known →
      channelValue list startIndex value = .ok c → Built known c
  | cardinality {list : List Expr} {occurrences : List (Expr × Occurrence)} {closed : Bool}
      {c : Constraint} : (∀ e ∈ list, e.Built known) →
      (∀ o ∈ occurrences, o.1.Built known ∧ ∀ e, o.2 = .exactly e → e.Built known) →
      cardinality list occurrences closed = .ok c → Built known c
  | regular {list : List Expr} {automaton : Automaton} {c : Constraint} :
      (∀ e ∈ list, e.Built known) → regular list automaton = .ok c → Built known c
  | mdd {list : List Expr} {diagram : Diagram} {c : Constraint} :
      (∀ e ∈ list, e.Built known) → mdd list diagram = .ok c → Built known c
  | precedence {list : List Expr} {values : List Int} {covered : Bool} {c : Constraint} :
      (∀ e ∈ list, e.Built known) → precedence list values covered = .ok c → Built known c
  | clause {positive negative : List Variable} {c : Constraint} :
      (∀ v ∈ positive, known v) → (∀ v ∈ negative, known v) →
      clause positive negative = .ok c → Built known c
  | slideOf {windows : List Constraint} {c : Constraint} :
      (∀ w ∈ windows, Built known w) → slideOf windows = .ok c → Built known c

end Constraint

/-- Every expression of the relation is well-formed, and so is its function. -/
def Relation.WellFormed (known : Variable → Prop) (r : Relation) : Prop :=
  (∀ e ∈ r.expressions, e.WellFormed known) ∧ ∀ f c, r = .conditional f c → f.Regular

theorem Expr.wellFormed_var {v : Variable} (h : known v) : (Expr.var v).WellFormed known :=
  (Built.var h).wellFormed

theorem Condition.Built.wellFormed {c : Condition} (h : c.Built known) :
    ∀ e ∈ c.expressions, e.WellFormed known := by
  cases h with
  | compareTo h =>
    intro e he
    rw [List.mem_singleton.mp he]
    exact h.wellFormed
  | ofRange | ofSet => exact fun e he => nomatch he

theorem Constraint.mem_relationsOf {r : Relation} {list : List Constraint} :
    r ∈ relationsOf list ↔ ∃ c ∈ list, r ∈ c.relations := by
  induction list with
  | nil => simp [relationsOf]
  | cons c rest ih => simp [relationsOf, ih]

theorem Expr.wellFormed_of_mem_map_var {list : List Variable} (h : ∀ v ∈ list, known v) :
    ∀ e ∈ list.map Expr.var, e.WellFormed known := by
  intro e he
  obtain ⟨v, hv, rfl⟩ := List.mem_map.mp he
  exact wellFormed_var (h v hv)

/-- Of most relations nothing is known but their expressions. -/
private theorem exists_relation {c : Constraint} {r : Relation} (hc : c = .relation r)
    (hexpressions : ∀ e ∈ r.expressions, e.WellFormed known)
    (hf : ∀ f condition, r ≠ .conditional f condition)
    (hcovered : ∀ list covered, r ≠ .precedence list [] covered) :
    ∃ r, c = .relation r ∧ r.WellFormed known ∧
      ∀ list covered, r = .precedence list [] covered → covered = false :=
  ⟨r, hc, ⟨hexpressions, fun f condition heq => absurd heq (hf f condition)⟩,
    fun list covered heq => absurd heq (hcovered list covered)⟩

/-- A constraint that was built is a relation over well-formed expressions, in which a
precedence without values is not asked to cover them, or a slide of some windows that were
built. -/
theorem Constraint.Built.relation_or_slide {c : Constraint} (h : c.Built known) :
    (∃ r, c = .relation r ∧ r.WellFormed known ∧
      ∀ list covered, r = .precedence list [] covered → covered = false) ∨
    ∃ windows, c = .slide windows ∧ windows ≠ [] ∧ ∀ w ∈ windows, w.Built known := by
  have hlist : ∀ {list : List Expr}, (∀ e ∈ list, e.Built known) →
      ∀ e ∈ list, e.WellFormed known := fun h e he => (h e he).wellFormed
  cases h with
  | intension he hc =>
    obtain ⟨-, hc⟩ := intension_eq_ok.mp hc
    exact .inl (exists_relation hc (List.forall_mem_singleton.mpr he.wellFormed) (fun _ _ => nofun) (fun _ _ => nofun))
  | extension h hc =>
    obtain ⟨-, -, -, hc⟩ := extension_eq_ok.mp hc
    exact .inl (exists_relation hc (hlist h) (fun _ _ => nofun) (fun _ _ => nofun))
  | allDifferent h hc | allEqual h hc | ordered h hc | circuit h hc | regular h hc | mdd h hc =>
    obtain ⟨-, hc⟩ := Aggregate.map_nonEmpty_eq_ok.mp hc
    exact .inl (exists_relation hc.symm (hlist h) (fun _ _ => nofun) (fun _ _ => nofun))
  | conditional hf hcondition =>
    obtain ⟨hregular, hoperands⟩ := Expr.wellFormed_aggregate.mp hf.wellFormed
    refine .inl ⟨_, rfl, ⟨List.forall_mem_append.mpr ⟨hoperands, hcondition.wellFormed⟩, ?_⟩,
      fun _ _ => nofun⟩
    rintro _ _ ⟨⟩
    exact hregular
  | noOverlap horigins hlengths hc =>
    obtain ⟨-, -, hc⟩ := noOverlap_eq_ok.mp hc
    exact .inl (exists_relation hc (List.forall_mem_append.mpr ⟨hlist horigins, hlist hlengths⟩) (fun _ _ => nofun) (fun _ _ => nofun))
  | cumulative horigins hlengths hheights hlimit hc =>
    obtain ⟨-, -, -, hc⟩ := cumulative_eq_ok.mp hc
    refine .inl (exists_relation hc ?_ (fun _ _ => nofun) (fun _ _ => nofun))
    simp only [Relation.expressions, List.forall_mem_append]
    exact ⟨⟨⟨hlist horigins, hlist hlengths⟩, hlist hheights⟩,
      (Condition.Built.compareTo hlimit).wellFormed⟩
  | instantiation h hc =>
    obtain ⟨-, -, hc⟩ := instantiation_eq_ok.mp hc
    exact .inl (exists_relation hc (Expr.wellFormed_of_mem_map_var h) (fun _ _ => nofun) (fun _ _ => nofun))
  | lex h hc =>
    obtain ⟨-, -, -, hc⟩ := lex_eq_ok.mp hc
    refine .inl (exists_relation hc (fun e he => ?_) (fun _ _ => nofun) (fun _ _ => nofun))
    obtain ⟨list, hmem, he⟩ := List.mem_flatten.mp he
    exact hlist (h list hmem) e he
  | channel h hc =>
    obtain ⟨-, hc⟩ := map_someVariables_eq_ok.mp hc
    refine .inl (exists_relation hc.symm ?_ (fun _ _ => nofun) (fun _ _ => nofun))
    exact List.forall_mem_append.mpr ⟨Expr.wellFormed_of_mem_map_var h, fun _ he => nomatch he⟩
  | channelBetween h hother hc =>
    obtain ⟨-, -, hc⟩ := channelBetween_eq_ok.mp hc
    refine .inl (exists_relation hc ?_ (fun _ _ => nofun) (fun _ _ => nofun))
    exact List.forall_mem_append.mpr
      ⟨Expr.wellFormed_of_mem_map_var h, Expr.wellFormed_of_mem_map_var hother⟩
  | channelValue h hvalue hc =>
    obtain ⟨-, hc⟩ := map_someVariables_eq_ok.mp hc
    refine .inl (exists_relation hc.symm ?_ (fun _ _ => nofun) (fun _ _ => nofun))
    exact List.forall_mem_append.mpr
      ⟨Expr.wellFormed_of_mem_map_var h, List.forall_mem_singleton.mpr hvalue.wellFormed⟩
  | cardinality h hoccurrences hc =>
    obtain ⟨-, -, -, hc⟩ := cardinality_eq_ok.mp hc
    refine .inl (exists_relation hc (fun e he => ?_) (fun _ _ => nofun) (fun _ _ => nofun))
    simp only [Relation.expressions, List.mem_append, List.mem_map, List.mem_filterMap] at he
    rcases he with (he | ⟨o, ho, rfl⟩) | ⟨_, ⟨o, ho, rfl⟩, hoe⟩
    · exact hlist h e he
    · exact (hoccurrences o ho).1.wellFormed
    · obtain ⟨value, occurrence⟩ := o
      cases occurrence with
      | exactly e' =>
        cases hoe
        exact ((hoccurrences _ ho).2 e rfl).wellFormed
      | between => cases hoe
  | precedence h hc =>
    obtain ⟨-, -, -, rfl⟩ := precedence_eq_ok.mp hc
    refine .inl ⟨_, rfl, ⟨hlist h, fun _ _ => nofun⟩, ?_⟩
    rintro _ _ ⟨⟩
    exact Bool.and_false _
  | clause hpositive hnegative hc =>
    obtain ⟨-, hc⟩ := clause_eq_ok.mp hc
    refine .inl (exists_relation hc (fun e he => ?_) (fun _ _ => nofun) (fun _ _ => nofun))
    simp only [Relation.expressions, List.mem_map, List.mem_append] at he
    obtain ⟨_, ⟨v, hv, rfl⟩ | ⟨v, hv, rfl⟩, rfl⟩ := he
    · exact Expr.wellFormed_var (hpositive v hv)
    · exact Expr.wellFormed_var (hnegative v hv)
  | slideOf hwindows hc =>
    obtain ⟨hne, rfl⟩ := slideOf_eq_ok.mp hc
    exact .inr ⟨_, rfl, hne, hwindows⟩

/-- Every relation of a constraint that was built is well-formed. -/
theorem Constraint.Built.wellFormed {c : Constraint} (h : c.Built known) :
    ∀ r ∈ c.relations, r.WellFormed known := by
  rcases h.relation_or_slide with ⟨r, rfl, hr, -⟩ | ⟨windows, rfl, -, hwindows⟩
  · exact List.forall_mem_singleton.mpr hr
  · intro r hr
    obtain ⟨w, hw, hr⟩ := mem_relationsOf.mp hr
    exact (hwindows w hw).wellFormed r hr
termination_by sizeOf c

end

end CspModel
