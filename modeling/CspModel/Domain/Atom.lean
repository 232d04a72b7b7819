import CspModel.Bounded
import CspModel.Error

/-! # Atoms of a domain

A normalised domain is a list of atoms: single integers, intervals of integers
and symbols.  An interval holds at least two values; an end that lies at the end
of the bounded range means that the interval does not stop there.
-/
namespace CspModel

open Bounded

/-- The integers from `inf` to `sup`, both included. -/
structure Interval where
  inf : Int
  sup : Int
  /-- An interval holds more than one value. -/
  inf_lt_sup : inf < sup
deriving DecidableEq

namespace Interval

/-- Intervals are ordered by their lower bounds, then by their upper bounds. -/
instance : Ord Interval where
  compare a b := (compare a.inf b.inf).then (compare a.sup b.sup)

/-- The interval with the given bounds; the lower one must be the smaller. -/
def ofBounds (inf sup : Int) : Except DomainError Interval :=
  if h : inf < sup then .ok ⟨inf, sup, h⟩ else .error (.invalidInterval inf sup)

/-- The interval without bounds. -/
def unbounded : Interval := ⟨lowest, highest, by decide⟩

/-- Whether the interval stops on both sides. -/
def isBounded (i : Interval) : Bool := i.inf != lowest && i.sup != highest

/-- The number of values from the lower to the upper bound. -/
def count (i : Interval) : Nat := (i.sup - i.inf + 1).toNat

/-- The number of values of an interval that stops on both sides. -/
def width (i : Interval) : Option Nat := if i.isBounded then some i.count else none

def contains (i : Interval) (n : Int) : Bool := i.inf ≤ n && n ≤ i.sup

/-- The bounds joined by two dots, a missing bound as an infinity. -/
def text (i : Interval) : String :=
  (if i.inf = lowest then "-infinity" else toString i.inf) ++ ".." ++
    (if i.sup = highest then "+infinity" else toString i.sup)

end Interval

/-- One entry of a normalised domain. -/
inductive Atom where
  | integer (value : Int)
  | interval (values : Interval)
  | symbol (text : String)
deriving DecidableEq, Ord

namespace Atom

/-- The smallest integer of the atom; a symbol has none. -/
def lowerBound : Atom → Option Int
  | integer value => some value
  | interval values => some values.inf
  | symbol _ => none

/-- The greatest integer of the atom; a symbol has none. -/
def upperBound : Atom → Option Int
  | integer value => some value
  | interval values => some values.sup
  | symbol _ => none

/-- The number of values, unless the atom is an interval that does not stop. -/
def size : Atom → Option Nat
  | integer _ => some 1
  | interval values => values.width
  | symbol _ => some 1

/-- Whether the integer is one of the atom's. -/
def contains : Atom → Int → Bool
  | integer value, n => value == n
  | interval values, n => values.contains n
  | symbol _, _ => false

/-- The number of integers of the atom. -/
def integerCount : Atom → Nat
  | integer _ => 1
  | interval values => values.count
  | symbol _ => 0

/-- The first `limit` integers of the atom in ascending order. -/
def firstIntegers (a : Atom) (limit : Nat) : List Int :=
  match a.lowerBound with
  | none => []
  | some first => (List.range (min a.integerCount limit)).map fun (k : Nat) => first + (k : Int)

def symbol? : Atom → Option String
  | symbol text => some text
  | _ => none

/-- The written form of the atom. -/
def text : Atom → String
  | integer value => toString value
  | interval values => values.text
  | symbol text => text

end Atom
end CspModel
