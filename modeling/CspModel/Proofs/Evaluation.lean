import CspModel.Domain.Basic
import CspModel.Proofs.Lists
import CspModel.Proofs.Parts

/-! # What an expression is worth

Under an assignment of values to the variables an expression is read as a value.  A
set is no value: it is read as a set, and only a membership makes use of that.
Reading is strict: an expression has a value only if all its operands can be read.

How integers are combined is a parameter, the calculus.  The exact one computes
over the unbounded integers, so only a division by zero, a negative exponent and an
operand that is no integer leave an operator without a value; the bounded one has
no value either where an intermediate result leaves the bounded range.
-/
namespace CspModel

/-- What a variable can stand for. -/
inductive Value where
  | integer (n : Int)
  | symbol (text : String)
deriving DecidableEq

/-- The integer, if the value is one. -/
def Value.integer? : Value → Option Int
  | integer n => some n
  | symbol _ => none

/-- The values the variables take. -/
abbrev Assignment := Variable → Value

/-- Whether a value belongs to the domain. -/
def Domain.Holds (d : Domain) : Value → Prop
  | .integer n => d.contains n = true
  | .symbol text => d.containsSymbol text = true

/-- What an operand is read as. -/
inductive Operand where
  | value (v : Value)
  | set (members : List Int)
deriving DecidableEq

namespace Operand

def value? : Operand → Option Value
  | value v => some v
  | set _ => none

def integer? : Operand → Option Int
  | value (.integer n) => some n
  | _ => none

end Operand

/-- A way to combine integers. -/
structure Calculus where
  /-- The value of an operator. -/
  operator : Operator → List Int → Option Int
  /-- The sum of terms, each given with its coefficient. -/
  sum : List (Int × Int) → Option Int

/-- The value of an operator over the unbounded integers. -/
def Operator.exactValue? : Operator → List Int → Option Int
  | neg, [a] => some (-a)
  | abs, [a] => some a.natAbs
  | sqr, [a] => some (a * a)
  | add, values => some values.sum
  | sub, [a, b] => some (a - b)
  | mul, values => some values.prod
  | div, [a, b] => if b = 0 then none else some (a.tdiv b)
  | mod, [a, b] => if b = 0 then none else some (a.tmod b)
  | pow, [a, b] => if 0 ≤ b then some (a ^ b.toNat) else none
  | dist, [a, b] => some (a - b).natAbs
  | op, values => op.value? values

namespace Calculus

/-- Computing over the unbounded integers. -/
def exact : Calculus where
  operator := Operator.exactValue?
  sum terms := some (terms.map fun (n, c) => n * c).sum

/-- Computing within the bounded range; a sum is added up from left to right. -/
def bounded : Calculus where
  operator := Operator.value?
  sum terms := (terms.mapM fun (n, c) => Bounded.checked (n * c)).bind (Operator.checkedSum 0)

/-- The value of an operator on what its operands are read as.  Values of any sort can
be told apart; all else but membership is about integers. -/
def apply (k : Calculus) (op : Operator) (operands : List Operand) : Option Int :=
  match op, operands with
  | .isIn, [.value (.integer n), .set members] => some (Operator.truth (members.contains n))
  | .notIn, [.value (.integer n), .set members] => some (Operator.truth (!members.contains n))
  | .eq, operands => (operands.mapM Operand.value?).map (Operator.truth <| Operator.allEqual ·)
  | .ne, operands => (operands.mapM Operand.value?).map (Operator.truth <| Operator.allDistinct ·)
  | op, operands => (operands.mapM Operand.integer?).bind (k.operator op)

/-- The value of an aggregate on what its operands are read as. -/
def evaluate (k : Calculus) : Aggregate Operand → Option Value
  | .sum terms coefficients => (terms.mapM Operand.integer?).bind fun terms =>
    (k.sum (terms.zip (Aggregate.coefficientsOf terms coefficients))).map .integer
  | .count list values => (list.mapM Operand.value?).map fun list =>
    .integer (list.countP ((values.map Value.integer).contains ·))
  | .nValues list except => (list.mapM Operand.value?).map fun list =>
    .integer (list.filter (!(except.map Value.integer).contains ·)).eraseDups.length
  | .minimum list => (list.mapM Operand.integer?).bind fun list => list.min?.map .integer
  | .maximum list => (list.mapM Operand.integer?).bind fun list => list.max?.map .integer
  | .element list index startIndex => (list.mapM Operand.value?).bind fun list =>
    index.integer?.bind fun index =>
      if startIndex ≤ index then list[(index - startIndex).toNat]? else none

end Calculus

namespace Expr

variable (k : Calculus) (ρ : Assignment)

mutual
/-- What an expression is read as. -/
def read : Expr → Option Operand
  | const value => some (.value (.integer value))
  | var v => some (.value (ρ v))
  | set members => some (.set members)
  | apply op operands => (readAll operands).bind fun operands =>
    (k.apply op operands).map fun n => .value (.integer n)
  | aggregate f => (readOperands f).bind fun f => (k.evaluate f).map .value

/-- What the expressions of a list are read as. -/
def readAll : List Expr → Option (List Operand)
  | [] => some []
  | e :: rest => (read e).bind fun operand => (readAll rest).map (operand :: ·)

/-- An aggregate with what its operands are read as. -/
def readOperands : Aggregate Expr → Option (Aggregate Operand)
  | .sum terms coefficients => (readAll terms).map (.sum · coefficients)
  | .count list values => (readAll list).map (.count · values)
  | .nValues list except => (readAll list).map (.nValues · except)
  | .minimum list => (readAll list).map .minimum
  | .maximum list => (readAll list).map .maximum
  | .element list index startIndex => (readAll list).bind fun list =>
    (read index).map fun index => .element list index startIndex
end

/-- The value of an expression. -/
def value? (e : Expr) : Option Value := (e.read k ρ).bind Operand.value?

/-- The value of an expression as an integer. -/
def integer? (e : Expr) : Option Int := (e.read k ρ).bind Operand.integer?

/-- The values of the expressions of a list. -/
def values? (list : List Expr) : Option (List Value) :=
  (readAll k ρ list).bind (·.mapM Operand.value?)

end Expr

/-- The value of an aggregate. -/
def Aggregate.value? (k : Calculus) (ρ : Assignment) (f : Aggregate Expr) : Option Value :=
  (Expr.readOperands k ρ f).bind k.evaluate

namespace Expr

variable {k : Calculus} {ρ σ : Assignment}

/-! ### Reading lists -/

theorem readAll_eq_mapM (list : List Expr) : readAll k ρ list = list.mapM (read k ρ) := by
  induction list with
  | nil => rfl
  | cons e rest ih =>
    rw [readAll, ih, List.mapM_cons]
    simp [Option.map_eq_bind]

/-- Reading a list and then every operand is reading every expression of it. -/
theorem bind_readAll {α : Type} (g : Operand → Option α) (list : List Expr) :
    (readAll k ρ list).bind (·.mapM g) = list.mapM fun e => (e.read k ρ).bind g := by
  induction list with
  | nil => rfl
  | cons e rest ih =>
    rw [readAll, List.mapM_cons, ← ih]
    cases read k ρ e with
    | none => rfl
    | some operand =>
      cases readAll k ρ rest with
      | none => cases hg : g operand <;> simp [hg]
      | some operands => simp

theorem values?_eq_mapM (list : List Expr) : values? k ρ list = list.mapM (value? k ρ) :=
  bind_readAll Operand.value? list

/-- What an aggregate is read as depends on what its operands are read as. -/
theorem readOperands_congr {f : Aggregate Expr}
    (h : ∀ e ∈ f.operands, e.read k ρ = e.read k σ) :
    readOperands k ρ f = readOperands k σ f := by
  have hlist : readAll k ρ f.list = readAll k σ f.list := by
    rw [readAll_eq_mapM, readAll_eq_mapM]
    exact mapM_congr fun e he => h e (f.list_subset_operands he)
  cases f with
  | element list index startIndex =>
    have hlist : readAll k ρ list = readAll k σ list := hlist
    rw [readOperands, readOperands, hlist, h index (by simp [Aggregate.operands])]
  | _ => exact congrArg (Option.map _) hlist

/-- Operands read as integers are read as values. -/
theorem values_of_integers {operands : List Operand} {ns : List Int}
    (h : operands.mapM Operand.integer? = some ns) :
    operands.mapM Operand.value? = some (ns.map Value.integer) := by
  rw [mapM_eq_some_iff] at h ⊢
  induction h with
  | nil => exact .nil
  | @cons operand n _ _ hn _ ih =>
    refine .cons ?_ ih
    cases operand with
    | set => cases hn
    | value v =>
      cases v <;> cases hn
      rfl

/-- An aggregate is read by reading its operands. -/
theorem readAll_operands {f : Aggregate Expr} {g : Aggregate Operand}
    (h : readOperands k ρ f = some g) : readAll k ρ f.operands = some g.operands := by
  cases f with
  | element list index startIndex =>
    simp only [readOperands, Option.bind_eq_some_iff, Option.map_eq_some_iff] at h
    obtain ⟨operands, hlist, operand, hindex, rfl⟩ := h
    rw [readAll_eq_mapM] at hlist ⊢
    simp [Aggregate.operands, hlist, hindex]
  | _ =>
    simp only [readOperands, Option.map_eq_some_iff] at h
    obtain ⟨operands, hlist, rfl⟩ := h
    exact hlist

/-- An aggregate without a value for every operand has none itself. -/
theorem values_of_evaluate {f : Aggregate Operand} {v : Value} (h : k.evaluate f = some v) :
    ∃ vs, f.operands.mapM Operand.value? = some vs := by
  cases f with
  | sum _ _ | minimum _ | maximum _ =>
    simp only [Calculus.evaluate, Option.bind_eq_some_iff] at h
    obtain ⟨ns, hns, _⟩ := h
    exact ⟨_, values_of_integers hns⟩
  | count _ _ | nValues _ _ =>
    simp only [Calculus.evaluate, Option.map_eq_some_iff] at h
    obtain ⟨vs, hvs, _⟩ := h
    exact ⟨vs, hvs⟩
  | element list index startIndex =>
    simp only [Calculus.evaluate, Option.bind_eq_some_iff] at h
    obtain ⟨vs, hvs, i, hi, _⟩ := h
    have hindex : index.value? = some (.integer i) := by
      obtain _ | n := index
      · rename_i v
        cases v <;> cases hi
        rfl
      · cases hi
    exact ⟨vs ++ [.integer i], by simp [Aggregate.operands, hvs, hindex]⟩

/-- The operands of an aggregate have values when the aggregate does. -/
theorem exists_value_of_aggregate {f : Aggregate Expr} {v : Value} (h : f.value? k ρ = some v)
    {e : Expr} (he : e ∈ f.operands) : ∃ w, e.value? k ρ = some w := by
  obtain ⟨g, hg, hv⟩ := Option.bind_eq_some_iff.mp h
  obtain ⟨vs, hvs⟩ := values_of_evaluate hv
  have hvalues : f.operands.mapM (value? k ρ) = some vs := by
    rw [← values?_eq_mapM, values?, readAll_operands hg]
    exact hvs
  exact exists_of_mapM_eq_some hvalues he

theorem value?_eq_some_iff {e : Expr} {v : Value} :
    e.value? k ρ = some v ↔ e.read k ρ = some (.value v) := by
  unfold value?
  cases e.read k ρ with
  | none => simp
  | some operand => cases operand <;> simp [Operand.value?]

/-- The outermost aggregates of an expression that can be read have values. -/
theorem exists_value_of_outermost {e p : Expr} {operand : Operand}
    (h : e.read k ρ = some operand) (hp : p ∈ e.outermost) : ∃ w, p.value? k ρ = some w := by
  induction e using Expr.induction generalizing operand with
  | const n => cases hp
  | var v => cases hp
  | set members => cases hp
  | apply op operands ih =>
    rw [outermost_apply] at hp
    obtain ⟨e, he, hp⟩ := List.mem_flatMap.mp hp
    obtain ⟨read, hread, _⟩ := Option.bind_eq_some_iff.mp h
    rw [readAll_eq_mapM] at hread
    obtain ⟨operand', he'⟩ := exists_of_mapM_eq_some hread he
    exact ih e he he' hp
  | aggregate f _ =>
    rw [List.mem_singleton.mp hp]
    obtain ⟨g, hg, hv⟩ := Option.bind_eq_some_iff.mp h
    obtain ⟨v, hv, rfl⟩ := Option.map_eq_some_iff.mp hv
    exact ⟨v, value?_eq_some_iff.mpr h⟩

theorem value?_aggregate (f : Aggregate Expr) :
    (aggregate f).value? k ρ = f.value? k ρ := by
  rw [value?, read, Aggregate.value?, Option.bind_assoc]
  congr 1
  funext g
  cases k.evaluate g <;> rfl

/-- What a link of an expression with a value may replace in turn has a value. -/
theorem exists_value_of_inner {e p : Expr} {v : Value} (h : e.value? k ρ = some v)
    (hp : p ∈ e.inner) : ∃ w, p.value? k ρ = some w := by
  cases e with
  | aggregate f =>
    rw [value?_aggregate] at h
    exact exists_value_of_aggregate h hp
  | _ => exact exists_value_of_outermost (value?_eq_some_iff.mp h) hp

/-! ### Aggregates from the values of their operands -/

theorem integer?_eq (e : Expr) : e.integer? k ρ = (e.value? k ρ).bind Value.integer? := by
  unfold integer? value?
  cases e.read k ρ with
  | none => rfl
  | some operand =>
    rcases operand with v | members
    · cases v <;> rfl
    · rfl

theorem integer?_const (n : Int) : (const n).integer? k ρ = some n := rfl

theorem mapM_integer?_eq (list : List Expr) :
    list.mapM (integer? k ρ) = (values? k ρ list).bind (·.mapM Value.integer?) := by
  rw [values?_eq_mapM]
  induction list with
  | nil => rfl
  | cons e rest ih =>
    rw [List.mapM_cons, List.mapM_cons, ih, integer?_eq]
    cases value? k ρ e with
    | none => rfl
    | some v =>
      cases rest.mapM (value? k ρ) with
      | none => cases hv : v.integer? <;> simp [hv]
      | some vs => simp

theorem value?_count (list : List Expr) (values : List Int) :
    (Aggregate.count list values).value? k ρ = (values? k ρ list).map fun vs =>
      .integer (vs.countP ((values.map Value.integer).contains ·)) := by
  rw [Aggregate.value?, readOperands, values?]
  cases readAll k ρ list <;> rfl

theorem value?_nValues (list : List Expr) (except : List Int) :
    (Aggregate.nValues list except).value? k ρ = (values? k ρ list).map fun vs =>
      .integer (vs.filter (!(except.map Value.integer).contains ·)).eraseDups.length := by
  rw [Aggregate.value?, readOperands, values?]
  cases readAll k ρ list <;> rfl

theorem value?_minimum (list : List Expr) :
    (Aggregate.minimum list).value? k ρ =
      (list.mapM (integer? k ρ)).bind fun ns => ns.min?.map .integer := by
  rw [Aggregate.value?, readOperands, ← show _ = list.mapM (integer? k ρ) from
    bind_readAll Operand.integer? list]
  cases readAll k ρ list <;> rfl

theorem value?_maximum (list : List Expr) :
    (Aggregate.maximum list).value? k ρ =
      (list.mapM (integer? k ρ)).bind fun ns => ns.max?.map .integer := by
  rw [Aggregate.value?, readOperands, ← show _ = list.mapM (integer? k ρ) from
    bind_readAll Operand.integer? list]
  cases readAll k ρ list <;> rfl

theorem value?_element (list : List Expr) (index : Expr) (startIndex : Int) :
    (Aggregate.element list index startIndex).value? k ρ =
      (values? k ρ list).bind fun vs => (index.integer? k ρ).bind fun i =>
        if startIndex ≤ i then vs[(i - startIndex).toNat]? else none := by
  rw [Aggregate.value?, readOperands, values?, integer?]
  cases readAll k ρ list with
  | none => rfl
  | some operands =>
    cases hindex : index.read k ρ with
    | none => cases h : operands.mapM Operand.value? <;> simp [h]
    | some operand => rfl

theorem value?_sum (terms : List Expr) (coefficients : Option (List Int)) :
    (Aggregate.sum terms coefficients).value? k ρ =
      (terms.mapM (integer? k ρ)).bind fun ns =>
        (k.sum (ns.zip (Aggregate.coefficientsOf ns coefficients))).map .integer := by
  rw [Aggregate.value?, readOperands, ← show _ = terms.mapM (integer? k ρ) from
    bind_readAll Operand.integer? terms]
  cases readAll k ρ terms <;> rfl

/-- Aggregates over lists with the same values have the same value. -/
theorem value?_congr_values {list list' : List Expr} (h : values? k ρ list' = values? k ρ list) :
    (∀ values, (Aggregate.count list' values).value? k ρ =
      (Aggregate.count list values).value? k ρ) ∧
    (∀ except, (Aggregate.nValues list' except).value? k ρ =
      (Aggregate.nValues list except).value? k ρ) ∧
    (Aggregate.minimum list').value? k ρ = (Aggregate.minimum list).value? k ρ ∧
    (Aggregate.maximum list').value? k ρ = (Aggregate.maximum list).value? k ρ := by
  refine ⟨fun values => ?_, fun except => ?_, ?_, ?_⟩
  · rw [value?_count, value?_count, h]
  · rw [value?_nValues, value?_nValues, h]
  · rw [value?_minimum, value?_minimum, mapM_integer?_eq, mapM_integer?_eq, h]
  · rw [value?_maximum, value?_maximum, mapM_integer?_eq, mapM_integer?_eq, h]

/-- Reading depends on the variables of an expression only. -/
theorem read_congr {e : Expr} (h : ∀ v ∈ e.occurrences, ρ v = σ v) :
    e.read k ρ = e.read k σ := by
  induction e using Expr.induction with
  | const n => rfl
  | set members => rfl
  | var v => rw [read, read, h v (by simp [occurrences])]
  | apply op operands ih =>
    have hall : readAll k ρ operands = readAll k σ operands := by
      rw [readAll_eq_mapM, readAll_eq_mapM]
      refine mapM_congr fun e he => ih e he fun v hv => h v ?_
      rw [occurrences, occurrencesIn_eq_flatMap]
      exact List.mem_flatMap.mpr ⟨e, he, hv⟩
    rw [read, read, hall]
  | aggregate f ih =>
    have hoperand : ∀ e ∈ f.operands, e.read k ρ = e.read k σ := by
      refine fun e he => ih e he fun v hv => h v ?_
      rw [occurrences, occurrencesOf_eq_flatMap]
      exact List.mem_flatMap.mpr ⟨e, he, hv⟩
    rw [read, read, readOperands_congr hoperand]

end Expr

/-! ### Nested applications of associative operators -/

namespace Operator

/-- In the operands of an associative operator, some that stand in a row can be replaced
by the value of the operator on them. -/
theorem exactValue?_merge {op : Operator} (hop : op.isAssociative = true) {ms : List Int} {n : Int}
    (h : op.exactValue? ms = some n) (ps ns : List Int) :
    op.exactValue? (ps ++ (ms ++ ns)) = op.exactValue? (ps ++ n :: ns) := by
  cases op with
  | add =>
    cases h
    simp [exactValue?, List.sum_append]
  | mul =>
    cases h
    simp [exactValue?, List.prod_append]
  | min =>
    simp only [exactValue?, value?] at h ⊢
    rw [List.min?_eq_some_iff] at h
    ext a
    simp only [List.min?_eq_some_iff, List.mem_append, List.mem_cons, or_imp, forall_and, forall_eq]
    grind
  | max =>
    simp only [exactValue?, value?] at h ⊢
    rw [List.max?_eq_some_iff] at h
    ext a
    simp only [List.max?_eq_some_iff, List.mem_append, List.mem_cons, or_imp, forall_and, forall_eq]
    grind
  | and =>
    cases h
    by_cases hms : ms.all (· != 0) <;> simp [exactValue?, value?, truth, hms]
  | or =>
    cases h
    by_cases hms : ms.any (· != 0) <;> simp [exactValue?, value?, truth, hms]
  | _ => cases hop

theorem exists_exact?_of_ne_nil {op : Operator} (hop : op.isAssociative = true) {ms : List Int}
    (h : ms ≠ []) : ∃ n, op.exactValue? ms = some n := by
  cases op with
  | min => exact Option.isSome_iff_exists.mp (List.isSome_min?_of_ne_nil h)
  | max => exact Option.isSome_iff_exists.mp (List.isSome_max?_of_ne_nil h)
  | add | mul | and | or => exact ⟨_, rfl⟩
  | _ => cases hop
end Operator

namespace Expr

variable {k : Calculus} {ρ : Assignment}

/-- An associative operator is about the integers its operands are read as. -/
theorem read_apply_of_isAssociative {op : Operator} (hop : op.isAssociative = true)
    (operands : List Expr) : (apply op operands).read k ρ =
      ((operands.mapM (integer? k ρ)).bind (k.operator op)).map fun n => .value (.integer n) := by
  rw [show operands.mapM (integer? k ρ) = _ from (bind_readAll Operand.integer? operands).symm,
    Option.bind_assoc, read, Option.map_bind]
  congr 1
  cases op with
  | add | mul | min | max | and | or => rfl
  | _ => cases hop

theorem integer?_apply_of_isAssociative {op : Operator} (hop : op.isAssociative = true)
    (operands : List Expr) :
    integer? k ρ (apply op operands) = (operands.mapM (integer? k ρ)).bind (k.operator op) := by
  rw [integer?, read_apply_of_isAssociative hop]
  cases (operands.mapM (integer? k ρ)).bind (k.operator op) <;> rfl

theorem mapM_integer_spliced {op : Operator} (hop : op.isAssociative = true)
    {operands : List Expr} (h : ∀ inner, apply op inner ∈ operands → inner ≠ []) (ps : List Int) :
    (((operands.flatMap (spliced op)).mapM (integer? .exact ρ)).bind
        fun ns => op.exactValue? (ps ++ ns)) =
      (operands.mapM (integer? .exact ρ)).bind fun ns => op.exactValue? (ps ++ ns) := by
  induction operands generalizing ps with
  | nil => rfl
  | cons e rest ih =>
    have ih := ih fun inner hinner => h inner (List.mem_cons_of_mem _ hinner)
    -- an operand that is kept only moves its value to the values before it
    have hkept : spliced op e = [e] →
        ((((e :: rest).flatMap (spliced op)).mapM (integer? .exact ρ)).bind
          fun ns => op.exactValue? (ps ++ ns)) =
        ((e :: rest).mapM (integer? .exact ρ)).bind fun ns => op.exactValue? (ps ++ ns) := by
      intro he
      rw [List.flatMap_cons, he, List.singleton_append, List.mapM_cons, List.mapM_cons]
      cases integer? .exact ρ e with
      | none => rfl
      | some n => simpa [Option.bind_assoc] using ih (ps ++ [n])
    cases e with
    | apply inner operands =>
      by_cases hinner : inner = op
      · subst hinner
        rw [List.flatMap_cons, spliced, if_pos rfl, List.mapM_append, List.mapM_cons,
          integer?_apply_of_isAssociative hop]
        cases hms : operands.mapM (integer? .exact ρ) with
        | none => simp
        | some ms =>
          have hne : ms ≠ [] := by
            rintro rfl
            cases mapM_eq_some_iff.mp hms
            exact h [] List.mem_cons_self rfl
          obtain ⟨n, hn⟩ := Operator.exists_exact?_of_ne_nil hop hne
          have hn' : Calculus.exact.operator inner ms = some n := hn
          simpa [Option.bind_assoc, hn', Operator.exactValue?_merge hop hn] using ih (ps ++ ms)
      · exact hkept (by rw [spliced, if_neg hinner])
    | _ => exact hkept rfl

/-- Merging nested applications changes no value. -/
theorem read_applied {op : Operator} {operands : List Expr}
    (h : ∀ inner, apply op inner ∈ operands → inner ≠ []) :
    (applied op operands).read .exact ρ = (apply op operands).read .exact ρ := by
  by_cases hop : op.isAssociative = true
  · rw [applied, if_pos hop, read_apply_of_isAssociative hop, read_apply_of_isAssociative hop]
    have hspliced : ((operands.flatMap (spliced op)).mapM (integer? .exact ρ)).bind op.exactValue? =
        (operands.mapM (integer? .exact ρ)).bind op.exactValue? := mapM_integer_spliced hop h []
    rw [show Calculus.exact.operator op = op.exactValue? from rfl, hspliced]
  · rw [applied, if_neg hop]

theorem read_var {v : Variable} {value : Value} (hv : ρ v = value) :
    (var v).read k ρ = some (.value value) := by
  rw [read, hv]

theorem read_binary {op : Operator} (hop : op.isAssociative = false) {e e' : Expr}
    {left right : Operand} (he : e.read k ρ = some left) (he' : e'.read k ρ = some right) :
    (binary op e e').read k ρ =
      (k.apply op [left, right]).map fun n => .value (.integer n) := by
  rw [binary, applied, hop, if_neg Bool.false_ne_true, read, readAll, readAll, readAll, he, he']
  rfl

end Expr
end CspModel
