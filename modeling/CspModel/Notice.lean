import CspModel.Statistics
import CspModel.Text.Casing

/-! # Notices

An operation that succeeds in an unexpected way, or leaves something out, says so
by a notice; a compilation also reports what it did.
-/
namespace CspModel

/-- Whether a notice is a warning or a report. -/
inductive Level where
  | warn
  | info
deriving DecidableEq

def Level.name : Level → String
  | warn => "warn"
  | info => "info"

/-- Something an operation has to say. -/
inductive Notice where
  | unusedPosting
  | emptyPosting
  | emptyDecision
  | replacedDecision
  | emptyValueHeuristic
  | replacedValueHeuristic
  /-- The windows of a slide are written as a group. -/
  | unrecognizedSlide (windows : Nat)
  /-- A wildcard that should have been expanded is kept. -/
  | keptWildcard
  | repeatedDecisionVariables (dropped : Nat)
  | compiled (constraints declared auxiliary : Nat)
  | statistic (name : String) (value : Nat)
deriving DecidableEq

namespace Notice

def level : Notice → Level
  | compiled _ _ _ => .info
  | statistic _ _ => .info
  | _ => .warn

/-- The wording of a notice. -/
def text : Notice → String
  | unusedPosting => "A constraint poster is never used, this is likely a mistake."
  | emptyPosting => "Ignoring a satisfy call without constraints."
  | emptyDecision => "Ignoring a decision annotation without variables."
  | replacedDecision => "Replacing the earlier decision annotation."
  | emptyValueHeuristic => "Ignoring a value heuristic annotation without variables."
  | replacedValueHeuristic => "Replacing the earlier value heuristic annotation."
  | unrecognizedSlide windows =>
    s!"The {windows} constraints of a slide do not slide over one list; writing them as a group."
  | keptWildcard => "Keeping a wildcard whose column domain is too large to expand."
  | repeatedDecisionVariables dropped =>
    s!"Dropped {dropped} repeated variables from the decision annotation."
  | compiled constraints declared auxiliary =>
    s!"Compiled {constraints} constraints over {declared} variables ({auxiliary} auxiliary)"
  | statistic name value => s!"{name}={value}"

/-- The level and the wording. -/
def line (notice : Notice) : String := notice.level.name ++ ": " ++ notice.text

end Notice

/-- One report for every count, its name in the casing. -/
def Statistics.notices (s : Statistics) (casing : Option Text.Casing) : List Notice :=
  s.entries.map fun (name, value) =>
    .statistic ((casing.map fun casing => casing.apply name).getD name) value

end CspModel
