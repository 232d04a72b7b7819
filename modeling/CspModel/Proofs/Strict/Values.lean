import CspModel.Proofs.PossibleValues
import CspModel.Proofs.Strict.Lookups

/-! # The operands of an expression are there

The values an expression can take are computed from those of its operands, which are read
by their positions.  A well-formed expression has as many operands as its operator accepts,
so every position that is read exists.
-/
namespace CspModel
namespace Strict

/-! ### Operators -/

/-- The value of an operator, which reads as many values as the operator needs. -/
def value (op : Operator) (values : List Int) : Option (Option Int) :=
  match op with
  | .neg | .abs | .sqr | .not => do
    let a ← values[0]?
    return op.value? [a]
  | .sub | .div | .mod | .pow | .dist | .lt | .le | .ge | .gt | .imp => do
    let a ← values[0]?
    let b ← values[1]?
    return op.value? [a, b]
  | .ifThenElse => do
    let a ← values[0]?
    let b ← values[1]?
    let c ← values[2]?
    return op.value? [a, b, c]
  | _ => some (op.value? values)

/-- The values of an operator with one operand. -/
def unary (op : Operator) : Values → Option Values
  | .finite values => do
    let results ← values.mapM fun a => value op [a]
    return .finite (Ascending.ofList (results.filterMap id))
  | .bounds lower upper => some (Values.unary op (.bounds lower upper))

/-- The values of an operator on all combinations of two enumerated operands. -/
def combine (op : Operator) (left right : List Int) : Option (List Int) := do
  let results ← left.mapM fun a => right.mapM fun b => value op [a, b]
  return Ascending.ofList (results.flatten.filterMap id)

/-- The values of an operator with two operands. -/
def binary (op : Operator) (left right : Values) : Option Values :=
  match left, right with
  | .finite as, .finite bs =>
    if as.length * bs.length ≤ Values.enumerationLimit then Values.finite <$> combine op as bs
    else some (Values.binaryBounds op left.lower left.upper right.lower right.upper)
  | _, _ => some (Values.binaryBounds op left.lower left.upper right.lower right.upper)

/-- The values of an operator that is applied to the operands one after the other. -/
def fold (op : Operator) : List Values → Option (Option Values)
  | [] => some none
  | first :: rest => some <$> rest.foldlM (binary op) first

/-- The values of an operator that yields a number. -/
def ofOperator (op : Operator) (operands : List Values) : Option Values :=
  match op with
  | .neg | .abs | .sqr => do
    let a ← operands[0]?
    unary op a
  | .ifThenElse =>
    -- the first operand is left out, so there has to be one
    if 1 ≤ operands.length then some (Values.union (operands.drop 1)) else none
  | _ => do
    let folded ← fold op operands
    return folded.getD Values.truth

/-- The values of a weighted sum. -/
def ofSum (terms : List Values) (coefficients : List Int) : Option Values := do
  let products ← (terms.zip coefficients).mapM fun (values, c) =>
    binary .mul values (Values.single c)
  let folded ← fold .add products
  return folded.getD (Values.single 0)

theorem value_singleton {op : Operator} (hop : op = .neg ∨ op = .abs ∨ op = .sqr) (a : Int) :
    value op [a] = some (op.value? [a]) := by
  rcases hop with rfl | rfl | rfl <;> rfl

/-- An operator that can have two operands reads no more than two. -/
theorem value_pair {op : Operator} (hop : op.accepts 2 = true) (a b : Int) :
    value op [a, b] = some (op.value? [a, b]) := by
  cases op <;> first | rfl | cases hop

theorem unary_eq {op : Operator} (hop : op = .neg ∨ op = .abs ∨ op = .sqr) (a : Values) :
    unary op a = some (Values.unary op a) := by
  cases a with
  | finite values =>
    rw [unary, mapM_eq_map fun a _ => value_singleton hop a, Values.unary]
    simp [List.filterMap_map]
  | bounds lower upper => rfl

theorem combine_eq {op : Operator} (hop : op.accepts 2 = true) (left right : List Int) :
    combine op left right = some (Values.combine op left right) := by
  rw [combine, mapM_eq_map fun a _ => mapM_eq_map fun b _ => value_pair hop a b, Values.combine]
  simp [List.filterMap_flatten, List.filterMap_map, Function.comp_def, List.flatMap_def]

theorem binary_eq {op : Operator} (hop : op.accepts 2 = true) (left right : Values) :
    binary op left right = some (Values.binary op left right) := by
  cases left with
  | finite as =>
    cases right with
    | finite bs =>
      simp only [binary, Values.binary, combine_eq hop]
      split <;> rfl
    | bounds => rfl
  | bounds => rfl

theorem fold_eq {op : Operator} (hop : op.accepts 2 = true) (operands : List Values) :
    fold op operands = some (Values.fold op operands) := by
  cases operands with
  | nil => rfl
  | cons first rest =>
    have hrest : rest.foldlM (binary op) first = some (rest.foldl (Values.binary op) first) := by
      induction rest generalizing first with
      | nil => rfl
      | cons next rest ih =>
        rw [List.foldlM_cons, binary_eq hop]
        exact ih _
    rw [fold, hrest, Values.fold]
    rfl

/-- An operator that can have two operands is applied to any number of them. -/
theorem ofOperator_of_accepts_two {op : Operator} (hop : op.accepts 2 = true)
    (hnumber : op.isPredicate = false) (operands : List Values) :
    ofOperator op operands = some (Values.ofOperator op operands) := by
  have hfold := fold_eq hop operands
  cases op with
  | add | sub | mul | div | mod | pow | dist | min | max =>
    simp only [ofOperator, hfold]
    rfl
  | neg | abs | sqr | ifThenElse => cases hop
  | _ => cases hnumber

/-- An operator that accepts so many operands finds them all. -/
theorem ofOperator_eq {op : Operator} {operands : List Values}
    (hop : op.accepts operands.length = true) (hnumber : op.isPredicate = false) :
    ofOperator op operands = some (Values.ofOperator op operands) := by
  cases operands with
  | nil => exact absurd hop (Bool.eq_false_iff.mp op.accepts_zero)
  | cons a rest =>
    cases op with
    | neg | abs | sqr => exact unary_eq (by decide) a
    | ifThenElse => rfl
    | add | sub | mul | div | mod | pow | dist | min | max =>
      exact ofOperator_of_accepts_two rfl rfl _
    | _ => cases hnumber

theorem ofSum_eq (terms : List Values) (coefficients : List Int) :
    ofSum terms coefficients = some (Values.ofSum terms coefficients) := by
  have hadd : Operator.add.accepts 2 = true := rfl
  rw [ofSum, mapM_eq_map fun p _ => binary_eq rfl p.1 (Values.single p.2), Values.ofSum]
  simp only [Option.bind_eq_bind, Option.bind_some, fold_eq hadd]
  rfl

/-! ### Expressions -/

mutual
/-- The values of an expression. -/
def ofExpr (s : Store) : Expr → Checked DomainError Values
  | .const value => return .single value
  | .var v => do
    let d ← domainOf s v
    if d.isSymbolic then
      let name ← nameOf s v
      throw (.notNumeric name)
    else
      return .ofDomain d
  | .set values => return .finite values
  | .apply op operands =>
    if op.isPredicate then return .truth
    else do
      let values ← ofAll s operands
      ofOperator op values
  | .aggregate f => ofAggregate s f

/-- The values of several expressions. -/
def ofAll (s : Store) : List Expr → Checked DomainError (List Values)
  | [] => return []
  | e :: rest => do
    let values ← ofExpr s e
    let others ← ofAll s rest
    return values :: others

/-- The values of an aggregate. -/
def ofAggregate (s : Store) : Aggregate Expr → Checked DomainError Values
  | .sum terms coefficients => do
    let values ← ofAll s terms
    ofSum values (Aggregate.coefficientsOf terms coefficients)
  | .count list _ => return .counted 0 list.length
  | .nValues list except => return .counted (if except.isEmpty then 1 else 0) list.length
  | .minimum list => do
    let values ← ofAll s list
    ofOperator .min values
  | .maximum list => do
    let values ← ofAll s list
    ofOperator .max values
  | .element list _ _ => do
    let values ← ofAll s list
    return .union values
end

/-- The domain of a variable that stands for the expression. -/
def possibleValues (s : Store) (e : Expr) : Checked DomainError Domain := do
  let values ← ofExpr s e
  .ofExcept values.toDomain

section
variable {s : Store}

theorem agrees_ofAll {list : List Expr}
    (h : ∀ e ∈ list, Agrees (ofExpr s e) (Values.ofExpr s e)) :
    Agrees (ofAll s list) (Values.ofAll s list) := by
  induction list with
  | nil => exact .pure []
  | cons e rest ih =>
    rw [ofAll, Values.ofAll]
    refine (h e List.mem_cons_self).bind fun values _ => ?_
    exact (ih fun e he => h e (List.mem_cons_of_mem _ he)).bind_pure _

/-- The values of a well-formed expression over declared variables. -/
theorem agrees_ofExpr (hs : s.Built) {e : Expr} (he : e.WellFormed s.Declares) :
    Agrees (ofExpr s e) (Values.ofExpr s e) := by
  induction e using Expr.induction with
  | const | set => exact .pure _
  | var v =>
    have hv : s.Declares v := he.knows (List.mem_singleton_self v)
    rw [ofExpr, Values.ofExpr]
    refine .lookup_bind (domainOf_eq hs hv) ?_
    by_cases hsymbolic : (s.domainOf v).isSymbolic = true
    · rw [if_pos hsymbolic, if_pos hsymbolic]
      exact .lookup_bind (nameOf_eq hv) (.throw _)
    · rw [if_neg hsymbolic, if_neg hsymbolic]
      exact .pure _
  | apply op operands ih =>
    obtain ⟨hregular, hoperands⟩ := Expr.wellFormed_apply.mp he
    rw [ofExpr, Values.ofExpr]
    by_cases hpredicate : op.isPredicate = true
    · rw [if_pos hpredicate, if_pos hpredicate]
      exact .pure _
    · rw [if_neg hpredicate, if_neg hpredicate]
      have hall := agrees_ofAll fun e he => ih e he (hoperands e he)
      refine hall.bind_lookup fun values hvalues => ?_
      have hlength := (Values.ofAll_eq_ok_iff.mp hvalues).length_eq
      exact ofOperator_eq (hlength ▸ hregular.1) (Bool.eq_false_iff.mpr hpredicate)
  | aggregate f ih =>
    obtain ⟨hregular, hoperands⟩ := Expr.wellFormed_aggregate.mp he
    have hall : ∀ list, (∀ e ∈ list, e ∈ f.operands) →
        Agrees (ofAll s list) (Values.ofAll s list) := fun list hlist =>
      agrees_ofAll fun e he => ih e (hlist e he) (hoperands e (hlist e he))
    rw [ofExpr, Values.ofExpr]
    cases f with
    | sum terms coefficients =>
      exact (hall terms fun _ => id).bind_lookup fun values _ => ofSum_eq values _
    | count | nValues => exact .pure _
    | minimum list | maximum list =>
      exact (hall list fun _ => id).bind_lookup fun values _ =>
        ofOperator_of_accepts_two rfl rfl values
    | element list index startIndex =>
      exact (hall list fun e he => List.mem_append_left _ he).bind_pure _

/-- The domain of a variable that stands for a well-formed expression. -/
theorem agrees_possibleValues (hs : s.Built) {e : Expr} (he : e.WellFormed s.Declares) :
    Agrees (possibleValues s e) (CspModel.possibleValues s e) :=
  (agrees_ofExpr hs he).bind fun values _ => .ofExcept values.toDomain

end

end Strict
end CspModel
