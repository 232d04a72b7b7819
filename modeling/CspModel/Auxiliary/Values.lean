import CspModel.Expr.Build
import CspModel.Store

/-! # The values an expression can take

A variable that stands for an expression gets a domain that holds every value the
expression can take.  The values are enumerated while there are few combinations
of operands; beyond that only a lower and an upper bound are kept, and they are
computed from the bounds of the operands.  Where a bound leaves the bounded range
it stops at the end of the range, which in a domain means that there is no bound.
-/
namespace CspModel

open Bounded

/-- A set that holds every value an expression can take. -/
inductive Values where
  /-- The values themselves, strictly ascending. -/
  | finite (values : List Int)
  /-- All integers from `lower` to `upper`. -/
  | bounds (lower upper : Int)
deriving DecidableEq

namespace Values

/-- The greatest number of combinations that are enumerated. -/
def enumerationLimit : Nat := 10000

/-- The truth values. -/
def truth : Values := finite [0, 1]

/-- The single value. -/
def single (value : Int) : Values := finite [value]

/-- The smallest value; zero when there is none. -/
def lower : Values → Int
  | finite values => values.head?.getD 0
  | bounds lower _ => lower

/-- The greatest value; zero when there is none. -/
def upper : Values → Int
  | finite values => values.getLast?.getD 0
  | bounds _ upper => upper

def isFinite : Values → Bool
  | finite _ => true
  | bounds _ _ => false

/-- The enumerated values. -/
def enumerated : Values → List Int
  | finite values => values
  | bounds _ _ => []

/-- The values as a domain; there is none without a value. -/
def toDomain : Values → Except DomainError Domain
  | finite values => Domain.ofIntegers values
  | bounds lower upper => Domain.between lower upper

/-- The values of the domain of a variable. -/
def ofDomain (d : Domain) : Values :=
  match d.size with
  | some size =>
    if size ≤ enumerationLimit then finite d.integers
    else bounds (d.smallest.getD lowest) (d.greatest.getD highest)
  | none => bounds (d.smallest.getD lowest) (d.greatest.getD highest)

/-- All values of several sets. -/
def union (sets : List Values) : Values :=
  let members := Ascending.ofList (sets.flatMap enumerated)
  if sets.all isFinite && members.length ≤ enumerationLimit then finite members
  else bounds ((sets.map lower).min?.getD 0) ((sets.map upper).max?.getD 0)

/-! ### Operators with one operand -/

/-- The least magnitude of the integers from `lower` to `upper`. -/
def leastMagnitude (lower upper : Int) : Int :=
  if 0 ≤ lower then lower else if upper ≤ 0 then saturate (-upper) else 0

/-- The greatest magnitude of the integers from `lower` to `upper`. -/
def greatestMagnitude (lower upper : Int) : Int :=
  if 0 ≤ lower then upper
  else if upper ≤ 0 then saturate (-lower)
  else max upper (saturate (-lower))

/-- The values of an operator with one operand. -/
def unary (op : Operator) : Values → Values
  | finite values => finite (Ascending.ofList (values.filterMap fun a => op.value? [a]))
  | bounds lower upper =>
    let least := leastMagnitude lower upper
    let greatest := greatestMagnitude lower upper
    match op with
    | .neg => bounds (saturate (-upper)) (saturate (-lower))
    | .abs => bounds least greatest
    | _ => bounds (saturate (least * least)) (saturate (greatest * greatest))

/-! ### Operators with two operands -/

/-- The smallest and the greatest of some results; no bounds without a result. -/
def hull (results : List Int) : Values :=
  match results.min?, results.max? with
  | some lower, some upper => bounds lower upper
  | _, _ => bounds lowest highest

/-- Bounds of a product; there are none when a product of bounds leaves the range. -/
def productBounds (a b c d : Int) : Values :=
  match [a * c, a * d, b * c, b * d].mapM checked with
  | some results => hull results
  | none => bounds lowest highest

/-- Bounds of a quotient: a quotient is extreme at a bound of the dividend and at a
bound of the divisor or a divisor next to zero. -/
def quotientBounds (a b c d : Int) : Values :=
  let divisors := [c, d, -1, 1].filter fun n => n != 0 && c ≤ n && n ≤ d
  hull ([a, b].flatMap fun n => divisors.filterMap fun m => checked (n.tdiv m))

/-- Bounds of a remainder, which is smaller in magnitude than the divisor and has the
sign of the dividend. -/
def remainderBounds (a b c d : Int) : Values :=
  let largest :=
    saturate (max (saturate (c.natAbs : Int)) (saturate (d.natAbs : Int)) - 1)
  bounds (if a < 0 then -largest else 0) (if 0 < b then largest else 0)

/-- Bounds of a power, whose magnitude is at most the greatest magnitude of the base
to the greatest exponent. -/
def powerBounds (a b d : Int) : Values :=
  let exponent := (min (max d 0) 4294967295).toNat
  let base := max (saturate (a.natAbs : Int)) (saturate (b.natAbs : Int))
  let largest := (power? base exponent).getD highest
  bounds (if 0 ≤ a then 0 else -largest) largest

/-- Bounds of an operator with two operands from the bounds of the operands: the
first lies from `a` to `b` and the second from `c` to `d`. -/
def binaryBounds (op : Operator) (a b c d : Int) : Values :=
  match op with
  | .add => bounds (saturate (a + c)) (saturate (b + d))
  | .sub => bounds (saturate (a - d)) (saturate (b - c))
  | .mul => productBounds a b c d
  | .div => quotientBounds a b c d
  | .mod => remainderBounds a b c d
  | .pow => powerBounds a b d
  | .dist => bounds 0 (max (saturate (b - c)) (saturate (d - a)))
  | .min => bounds (min a c) (min b d)
  | .max => bounds (max a c) (max b d)
  | _ => truth

/-- The values of an operator on all combinations of two enumerated operands. -/
def combine (op : Operator) (left right : List Int) : List Int :=
  Ascending.ofList (left.flatMap fun a => right.filterMap fun b => op.value? [a, b])

/-- The values of an operator with two operands. -/
def binary (op : Operator) (left right : Values) : Values :=
  match left, right with
  | finite as, finite bs =>
    if as.length * bs.length ≤ enumerationLimit then finite (combine op as bs)
    else binaryBounds op left.lower left.upper right.lower right.upper
  | _, _ => binaryBounds op left.lower left.upper right.lower right.upper

/-- The values of an operator that is applied to the operands one after the other. -/
def fold (op : Operator) : List Values → Option Values
  | [] => none
  | first :: rest => some (rest.foldl (binary op) first)

/-- The values of an operator that yields a number. -/
def ofOperator (op : Operator) (operands : List Values) : Values :=
  match op, operands with
  | .neg, a :: _ => unary .neg a
  | .abs, a :: _ => unary .abs a
  | .sqr, a :: _ => unary .sqr a
  | .ifThenElse, _ :: branches => union branches
  | _, _ => (fold op operands).getD truth

/-- The integers from `first` to `last`. -/
def counted (first last : Nat) : Values :=
  finite ((List.range (last + 1 - first)).map fun (k : Nat) => ((first + k : Nat) : Int))

/-- The values of a weighted sum. -/
def ofSum (terms : List Values) (coefficients : List Int) : Values :=
  (fold .add ((terms.zip coefficients).map fun (values, c) =>
    binary .mul values (single c))).getD (single 0)

/-! ### Expressions -/

mutual
/-- The values of an expression.  A variable with symbols has no value in arithmetic. -/
def ofExpr (s : Store) : Expr → Except DomainError Values
  | .const value => .ok (single value)
  | .var v =>
    let d := s.domainOf v
    if d.isSymbolic then .error (.notNumeric (s.nameOf v)) else .ok (ofDomain d)
  | .set values => .ok (finite values)
  | .apply op operands =>
    if op.isPredicate then .ok truth else (ofAll s operands).map (ofOperator op)
  | .aggregate f => ofAggregate s f

/-- The values of several expressions. -/
def ofAll (s : Store) : List Expr → Except DomainError (List Values)
  | [] => .ok []
  | e :: rest => (ofExpr s e).bind fun values => (ofAll s rest).map (values :: ·)

/-- The values of an aggregate. -/
def ofAggregate (s : Store) : Aggregate Expr → Except DomainError Values
  | .sum terms coefficients =>
    (ofAll s terms).map fun values =>
      ofSum values (Aggregate.coefficientsOf terms coefficients)
  | .count list _ => .ok (counted 0 list.length)
  | .nValues list except => .ok (counted (if except.isEmpty then 1 else 0) list.length)
  | .minimum list => (ofAll s list).map (ofOperator .min)
  | .maximum list => (ofAll s list).map (ofOperator .max)
  | .element list _ _ => (ofAll s list).map union
end

end Values

/-- The domain of a variable that stands for the expression. -/
def possibleValues (s : Store) (e : Expr) : Except DomainError Domain :=
  (Values.ofExpr s e).bind Values.toDomain

end CspModel
