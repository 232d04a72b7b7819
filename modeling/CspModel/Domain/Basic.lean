import CspModel.Ascending
import CspModel.Domain.Atom
import CspModel.Domain.Spec

/-! # Domains

A domain is a non-empty set of values that are either all integers or all
symbols.  Its atoms are its normal form: the integers are cut into maximal runs
of consecutive values, a run of more than two values is one interval and a
shorter one is written as single integers, and the atoms ascend.  Two
descriptions of the same values therefore give the same domain.
-/
namespace CspModel

/-- Whether the values of a domain are integers or symbols. -/
inductive Kind where
  | integer
  | symbolic
deriving DecidableEq

/-- A normalised set of values. -/
structure Domain where
  atoms : List Atom
deriving DecidableEq, Ord

/-! ### Runs of consecutive integers -/

/-- Ranges are compared by their first ends, then by their last ends. -/
def runLe (a b : Int × Int) : Bool := a.1 < b.1 || (a.1 == b.1 && a.2 ≤ b.2)

/-- Adds a range to the runs found so far, of which the last comes first.  A range
that begins at most one after the last run ends is part of that run. -/
def addRun (found : List (Int × Int)) (run : Int × Int) : List (Int × Int) :=
  match found with
  | [] => [run]
  | last :: earlier =>
    if run.1 ≤ last.2 + 1 then (last.1, max last.2 run.2) :: earlier else run :: last :: earlier

/-- The maximal runs of the integers covered by the ranges, in ascending order. -/
def maximalRuns (ranges : List (Int × Int)) : List (Int × Int) :=
  ((ranges.mergeSort runLe).foldl addRun []).reverse

/-- A run of more than two values is one interval, a shorter one is written out. -/
def atomsOfRun (run : Int × Int) : List Atom :=
  if h : run.1 + 2 ≤ run.2 then [.interval ⟨run.1, run.2, by omega⟩]
  else if run.1 < run.2 then [.integer run.1, .integer run.2]
  else [.integer run.1]

namespace Domain

/-- The domain of the integers covered by the ranges. -/
def ofRuns (ranges : List (Int × Int)) : Domain := ⟨(maximalRuns ranges).flatMap atomsOfRun⟩

/-- The domain of the symbols. -/
def ofSymbols (symbols : List String) : Domain := ⟨(Ascending.ofList symbols).map .symbol⟩

/-- The domain of the described values. -/
def ofSpec (spec : DomainSpec) : Except DomainError Domain :=
  match spec.runs, spec.symbols with
  | [], [] => .error .empty
  | _ :: _, _ :: _ => .error .mixedKind
  | runs, [] => .ok (ofRuns runs)
  | [], symbols => .ok (ofSymbols symbols)

/-- The domain of all integers. -/
def unbounded : Domain := ⟨[.interval .unbounded]⟩

/-- The domain of the given integers. -/
def ofIntegers (values : List Int) : Except DomainError Domain :=
  match values with
  | [] => .error .empty
  | _ => .ok (ofRuns (values.map fun value => (value, value)))

/-- The domain of the integers from `inf` to `sup`. -/
def between (inf sup : Int) : Except DomainError Domain :=
  if sup < inf then .error .empty else .ok (ofRuns [(inf, sup)])

/-! ### Reading a domain -/

def kind (d : Domain) : Kind :=
  match d.atoms with
  | .symbol _ :: _ => .symbolic
  | _ => .integer

def isSymbolic (d : Domain) : Bool := d.kind == .symbolic

/-- Whether the values are exactly zero and one. -/
def isBinary (d : Domain) : Bool := d.atoms == [.integer 0, .integer 1]

/-- The number of values, unless an interval does not stop. -/
def size (d : Domain) : Option Nat :=
  (d.atoms.mapM Atom.size).map fun sizes => sizes.foldr (· + ·) 0

/-- The smallest integer. -/
def smallest (d : Domain) : Option Int := d.atoms.head?.bind Atom.lowerBound

/-- The greatest integer. -/
def greatest (d : Domain) : Option Int := d.atoms.getLast?.bind Atom.upperBound

def contains (d : Domain) (n : Int) : Bool := d.atoms.any (·.contains n)

/-- The symbols in ascending order. -/
def symbols (d : Domain) : List String := d.atoms.filterMap Atom.symbol?

theorem symbols_ofSymbols (list : List String) :
    (ofSymbols list).symbols = Ascending.ofList list := by
  unfold ofSymbols symbols
  induction Ascending.ofList list with
  | nil => rfl
  | cons text rest ih => simp_all [Atom.symbol?]

def containsSymbol (d : Domain) (text : String) : Bool := d.symbols.contains text

/-- The first `limit` integers of the atoms in order. -/
def firstOf : List Atom → Nat → List Int
  | [], _ => []
  | atom :: rest, limit =>
    atom.firstIntegers limit ++ firstOf rest (limit - min atom.integerCount limit)

/-- The first `limit` integers in ascending order. -/
def firstIntegers (d : Domain) (limit : Nat) : List Int := firstOf d.atoms limit

/-- The integers in ascending order. -/
def integers (d : Domain) : List Int :=
  d.atoms.flatMap fun atom => atom.firstIntegers atom.integerCount

/-- The atoms separated by blanks. -/
def text (d : Domain) : String := " ".intercalate (d.atoms.map Atom.text)

/-! ### Combining domains -/

/-- The range of the integers of an atom. -/
def runOf (atom : Atom) : Option (Int × Int) :=
  match atom with
  | .integer value => some (value, value)
  | .interval values => some (values.inf, values.sup)
  | .symbol _ => none

/-- The values of several domains together: their integers if there are any, and
their symbols otherwise. -/
def union? (domains : List Domain) : Option Domain :=
  let atoms := domains.flatMap atoms
  match atoms.filterMap runOf, atoms.filterMap Atom.symbol? with
  | [], [] => none
  | [], symbols => some (ofSymbols symbols)
  | runs, _ => some (ofRuns runs)

/-- The part of a range within `inf` and `sup`. -/
def clip (inf sup : Int) (run : Int × Int) : Option (Int × Int) :=
  if max run.1 inf ≤ min run.2 sup then some (max run.1 inf, min run.2 sup) else none

/-- The integers within `inf` and `sup`, if there are any. -/
def restrictedTo? (d : Domain) (inf sup : Int) : Option Domain :=
  match (d.atoms.filterMap runOf).filterMap (clip inf sup) with
  | [] => none
  | runs => some (ofRuns runs)

end Domain
end CspModel
