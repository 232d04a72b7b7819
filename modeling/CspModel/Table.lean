import CspModel.Domain.Basic

/-! # Tables

A table lists the tuples of values that a constraint allows, or those that it
forbids.  An entry of a tuple is an integer, a symbol, a range of integers or a
wildcard that matches every value.  A tuple does not mix integers with symbols,
and neither does a column.
-/
namespace CspModel

/-- One entry of a tuple. -/
inductive TableEntry where
  | integer (value : Int)
  | symbol (text : String)
  /-- Matches every value of the column. -/
  | any
  /-- Matches the values from `inf` to `sup`. -/
  | range (inf sup : Int)
deriving DecidableEq, Ord

namespace TableEntry

/-- The entry a text stands for: a star is the wildcard, all else a symbol. -/
def ofText (text : String) : TableEntry := if text = "*" then any else symbol text

/-- The kind of values the entry matches; a wildcard matches either. -/
def kind? : TableEntry → Option Kind
  | integer _ => some .integer
  | symbol _ => some .symbolic
  | any => none
  | range _ _ => some .integer

def text : TableEntry → String
  | integer value => toString value
  | symbol text => text
  | any => "*"
  | range inf sup => toString inf ++ ".." ++ toString sup

end TableEntry

/-- Whether the tuples are the allowed or the forbidden ones. -/
inductive Polarity where
  | supports
  | conflicts
deriving DecidableEq, Ord

namespace Polarity

/-- Both polarities in their order. -/
def all : List Polarity := [supports, conflicts]

def name : Polarity → String
  | supports => "supports"
  | conflicts => "conflicts"

end Polarity

/-- A list of tuples with its polarity. -/
structure Table where
  polarity : Polarity
  tuples : List (List TableEntry)
deriving DecidableEq, Ord

namespace Table

/-- A tuple in parentheses, its entries separated by commas. -/
def tupleText (tuple : List TableEntry) : String :=
  "(" ++ ",".intercalate (tuple.map TableEntry.text) ++ ")"

/-- Whether some entry is the wildcard. -/
def containsAny (t : Table) : Bool := t.tuples.any (·.contains .any)

/-- Whether all entries of the tuple that have a kind have the same. -/
def isHomogeneous (tuple : List TableEntry) : Bool :=
  match tuple.filterMap TableEntry.kind? with
  | [] => true
  | kind :: rest => rest.all (· == kind)

/-- Joins the kinds known for the columns with the kinds of the next tuple; a column
where they differ is refused. -/
def joinKinds : Nat → List (Option Kind) → List TableEntry → Except TableError (List (Option Kind))
  | column, known :: rest, entry :: entries =>
    match known, entry.kind? with
    | some a, some b =>
      if a = b then (joinKinds (column + 1) rest entries).map (some a :: ·)
      else .error (.columnKind column)
    | some a, none => (joinKinds (column + 1) rest entries).map (some a :: ·)
    | none, kind => (joinKinds (column + 1) rest entries).map (kind :: ·)
  | _, known, _ => .ok known

/-- The kinds of the columns after some more tuples. -/
def kindsFrom (known : List (Option Kind)) : List (List TableEntry) →
    Except TableError (List (Option Kind))
  | [] => .ok known
  | tuple :: rest =>
    if isHomogeneous tuple then
      (joinKinds 0 known tuple).bind fun known => kindsFrom known rest
    else
      .error (.heterogeneousTuple (tupleText tuple))

/-- The kind of every column; a column of wildcards has none. -/
def columnKinds (t : Table) (arity : Nat) : Except TableError (List (Option Kind)) :=
  kindsFrom (List.replicate arity none) t.tuples

end Table
end CspModel
