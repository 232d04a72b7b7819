import CspModel.Document.Constraints
import CspModel.Document.Variables
import CspModel.Model

/-! # Documents

The document of a compiled problem: its variables, its constraints if there are
any, its objective and its annotations.  The order of the elements depends only on
the order of the declarations and of the entries.
-/
namespace CspModel

/-- A compiled problem: what is left of a model to be written. -/
structure Problem where
  store : Store
  entries : List Written
  objective : Option Objective
  annotations : Annotations

namespace Document

/-- The section of the annotations. -/
def annotationsElement (w : ListText) (a : Annotations) : Element :=
  let decision := a.decision.toList.map fun list =>
    (Element.ofToken .decision).withText (w.variableList list false)
  let valueHeuristic := a.valueHeuristic.toList.map fun (list, order) =>
    (Element.ofToken .valHeuristic).withChild
      (((Element.ofToken .fixed).withAttribute .order
        (" ".intercalate (order.map toString))).withText (w.variableList list false))
  (Element.ofToken .annotations).withChildren (decision ++ valueHeuristic)

/-- The section of the constraints, unless there are none. -/
def constraintsElement? (w : ListText) (entries : List Written) : Option Element :=
  if entries.isEmpty then none
  else some ((Element.ofToken .constraints).withChildren (entryElements w entries))

/-- The document of a problem. -/
def ofProblem (compactLists : Bool) (shareDomainsAbove : Nat) (p : Problem) : Element :=
  let w : ListText := ⟨p.store, compactLists⟩
  let sections :=
    [variablesSection w shareDomainsAbove] ++
      (constraintsElement? w p.entries).toList ++
      (p.objective.map fun o =>
        (Element.ofToken .objectives).withChild (objectiveElement w o)).toList ++
      (if p.annotations.isEmpty then [] else [annotationsElement w p.annotations])
  (((Element.ofToken .root).withAttribute .format "XCSP3").withAttribute .kind
    (if p.objective.isSome then "COP" else "CSP")).withChildren sections

end Document
end CspModel
