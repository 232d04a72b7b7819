import CspModel.Ascending
import CspModel.Error
import CspModel.Text.Identifier

/-! # Automata and decision diagrams

Both are lists of transitions between named states, each on an integer.  An
automaton also has a start state and final states; the root of a decision diagram
is the source of its first transition.  The names of states are identifiers.
-/
namespace CspModel

/-- A transition from one state to another on a value. -/
structure Transition where
  source : String
  value : Int
  target : String
deriving DecidableEq, Ord

namespace Transition

def text (t : Transition) : String :=
  "(" ++ t.source ++ "," ++ toString t.value ++ "," ++ t.target ++ ")"

/-- The transitions one after the other. -/
def textOfAll (transitions : List Transition) : String :=
  String.join (transitions.map text)

end Transition

/-- The name of a state has to be an identifier. -/
def checkState (state : String) : Except AutomatonError Unit :=
  if Text.isIdentifier state then .ok () else .error (.invalidState state)

/-- There has to be a transition, and the states of every one have to be valid. -/
def checkTransitions (transitions : List Transition) : Except AutomatonError Unit := do
  transitions.forM fun t => do
    checkState t.source
    checkState t.target
  if transitions.isEmpty then throw .noTransitions

/-- A finite automaton over integers. -/
structure Automaton where
  start : String
  transitions : List Transition
  /-- In ascending order, each once. -/
  finals : List String
deriving DecidableEq, Ord

namespace Automaton

/-- The automaton with the given start state, transitions and final states. -/
def ofParts (start : String) (transitions : List Transition) (finals : List String) :
    Except AutomatonError Automaton := do
  checkState start
  checkTransitions transitions
  finals.forM checkState
  if finals.isEmpty then throw .noFinalStates
  return ⟨start, transitions, Ascending.ofList finals⟩

end Automaton

/-- A multi-valued decision diagram. -/
structure Diagram where
  transitions : List Transition
deriving DecidableEq, Ord

namespace Diagram

/-- The decision diagram with the given transitions. -/
def ofTransitions (transitions : List Transition) : Except AutomatonError Diagram := do
  checkTransitions transitions
  return ⟨transitions⟩

end Diagram
end CspModel
