/-! # Descriptions of sets of values

A domain is described before it is normalised: by single integers and symbols,
by stepped ranges, and by collections of descriptions nested to any depth.
`runs` reads the integers off a description as ranges of consecutive values, in
the order they are described and possibly overlapping; `symbols` reads off the
symbols.
-/
namespace CspModel

/-- A description of a set of values. -/
inductive DomainSpec where
  | integer (value : Int)
  | symbol (text : String)
  /-- The values `first`, `first + step`, … up to `last`; a step of zero counts as one. -/
  | range (first last : Int) (step : Nat)
  | collection (items : List DomainSpec)

namespace DomainSpec

/-- The values `first`, `first + step`, … up to and including `last`. -/
def stepped (first last : Int) (step : Nat) : List Int :=
  if first ≤ last then
    (List.range (((last - first) / (step : Int)).toNat + 1)).map fun (k : Nat) =>
      first + (k : Int) * (step : Int)
  else
    []

/-- The values from `start` up to but without `stop`. -/
def halfOpen (start stop : Int) : DomainSpec :=
  if stop ≤ start then collection [] else range start (stop - 1) 1

/-- The values `start`, `start + step`, … below `stop`. -/
def halfOpenStepped (start stop : Int) (step : Nat) : DomainSpec :=
  collection ((stepped start (stop - 1) step).map integer)

/-- The values `first`, `first + step`, … up to `last`, as a collection. -/
def closedStepped (first last : Int) (step : Nat) : DomainSpec :=
  collection ((stepped first last step).map integer)

mutual
/-- The described integers as ranges with both ends included. -/
def runs : DomainSpec → List (Int × Int)
  | integer value => [(value, value)]
  | symbol _ => []
  | range first last step =>
    if last < first then []
    else if step ≤ 1 then [(first, last)]
    else (stepped first last step).map fun value => (value, value)
  | collection items => runsOf items

/-- The integers of a collection. -/
def runsOf : List DomainSpec → List (Int × Int)
  | [] => []
  | item :: rest => runs item ++ runsOf rest
end

mutual
/-- The described symbols. -/
def symbols : DomainSpec → List String
  | integer _ => []
  | symbol text => [text]
  | range _ _ _ => []
  | collection items => symbolsOf items

/-- The symbols of a collection. -/
def symbolsOf : List DomainSpec → List String
  | [] => []
  | item :: rest => symbols item ++ symbolsOf rest
end

end DomainSpec
end CspModel
