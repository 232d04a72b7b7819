import CspModel.Layout.Written
import CspModel.Model

/-! # Labels and annotations as they are written -/
namespace CspModel
namespace Written

mutual
/-- The entry without notes. -/
def dropNotes : Written → Written
  | constraint layout d => constraint layout { d with note := none }
  | group template arguments d => group template arguments { d with note := none }
  | slide list offset circular template d =>
    slide list offset circular template { d with note := none }
  | equalities list values d => equalities list values { d with note := none }
  | block entries d => block (dropNotesAll entries) { d with note := none }

/-- The entries without notes. -/
def dropNotesAll : List Written → List Written
  | [] => []
  | w :: rest => dropNotes w :: dropNotesAll rest
end

end Written

namespace Annotations

/-- The annotations with every variable to branch on once. -/
def withoutRepeats (a : Annotations) : Annotations :=
  { a with decision := a.decision.map List.eraseDups }

/-- Dropping repeated variables is noticed. -/
def notices (a : Annotations) : List Notice :=
  match a.decision with
  | none => []
  | some list =>
    if list.eraseDups.length = list.length then []
    else [.repeatedDecisionVariables (list.length - list.eraseDups.length)]

end Annotations
end CspModel
