/-! # Why an operation is refused

Every operation on a model either succeeds or names the cause of its failure.
The causes are grouped by what they are about; `message` gives the wording of
each of them, in one place.
-/
namespace CspModel

/-- Causes found while a domain is normalised or used. -/
inductive DomainError where
  /-- No value is described. -/
  | empty
  /-- Integers and symbols are described together. -/
  | mixedKind
  /-- The lower bound of an interval is not below its upper bound. -/
  | invalidInterval (inf sup : Int)
  /-- A variable with symbols takes part in arithmetic. -/
  | notNumeric (name : String)
  /-- A variable used as a truth value has another domain than zero and one. -/
  | notBinary (name : String)
deriving DecidableEq

/-- Causes found in the shape of an array. -/
inductive ShapeError where
  | noDimensions
  | zeroDimension (position : Nat)
deriving DecidableEq

/-- Causes found in the variables something is stated over. -/
inductive ScopeError where
  /-- The variable belongs to another model. -/
  | foreignVariable (index : Nat)
deriving DecidableEq

/-- Causes found in the number of arguments. -/
inductive ArityError where
  | invalidOperandCount (operator expected : String) (actual : Nat)
  /-- A function is posted without a comparison. -/
  | incomplete (kind : String)
  | mismatchedLengths (constraint argument : String) (expected actual : Nat)
  | tupleArity (expected actual : Nat)
  | emptyList (constraint : String)
  | tooFew (constraint argument : String) (minimum actual : Nat)
deriving DecidableEq

/-- Causes found in an objective. -/
inductive ObjectiveError where
  | alreadySet
  | nonNumeric
deriving DecidableEq

/-- Causes found in the tuples of a table. -/
inductive TableError where
  | heterogeneousTuple (tuple : String)
  | columnKind (column : Nat)
  | rangeTooWide (inf sup : Int)
deriving DecidableEq

/-- Causes found in the name of a variable or an array. -/
inductive NameError where
  | invalid (name : String)
  | duplicate (name : String)
deriving DecidableEq

/-- Causes found in an automaton or a decision diagram. -/
inductive AutomatonError where
  | noTransitions
  | noFinalStates
  | invalidState (state : String)
deriving DecidableEq

/-- The cause of the failure of an operation on a model. -/
inductive ModelError where
  | domain (cause : DomainError)
  | shape (cause : ShapeError)
  | scope (cause : ScopeError)
  | arity (cause : ArityError)
  | objective (cause : ObjectiveError)
  | table (cause : TableError)
  | name (cause : NameError)
  | automaton (cause : AutomatonError)
  /-- A coefficient leaves the range when a factor is drawn into it. -/
  | coefficientOverflow (coefficient factor : Int)
  /-- The model was compiled before. -/
  | frozen
  /-- An expression without a truth value is posted. -/
  | notAPredicate
deriving DecidableEq

def DomainError.message : DomainError → String
  | empty => "the domain does not contain any value"
  | mixedKind => "the domain mixes integer and symbolic values"
  | invalidInterval inf sup =>
    s!"an interval requires its lower bound to be smaller than its upper bound, got {inf}..{sup}"
  | notNumeric name =>
    s!"variable '{name}' has a symbolic domain and cannot be used in arithmetic"
  | notBinary name => s!"variable '{name}' must have the domain \x7b0, 1\x7d"

def ShapeError.message : ShapeError → String
  | noDimensions => "an array needs at least one dimension"
  | zeroDimension position => s!"dimension {position} of the array has size zero"

def ScopeError.message : ScopeError → String
  | foreignVariable index => s!"variable #{index} was declared in a different model"

def ArityError.message : ArityError → String
  | invalidOperandCount operator expected actual =>
    s!"operator '{operator}' expects {expected} operands, got {actual}"
  | incomplete kind => s!"the '{kind}' is incomplete; compare it to a value before posting it"
  | mismatchedLengths constraint argument expected actual =>
    s!"argument '{argument}' of '{constraint}' has length {actual}, expected {expected}"
  | tupleArity expected actual =>
    s!"tuple of arity {actual} given to a table over {expected} variables"
  | emptyList constraint => s!"'{constraint}' requires a non-empty list"
  | tooFew constraint argument minimum actual =>
    s!"argument '{argument}' of '{constraint}' needs at least {minimum} elements, got {actual}"

def ObjectiveError.message : ObjectiveError → String
  | alreadySet => "the model already has an objective"
  | nonNumeric => "the objective must be an arithmetic expression"

def TableError.message : TableError → String
  | heterogeneousTuple tuple => s!"tuple {tuple} mixes integer and symbolic values"
  | columnKind column =>
    s!"the values in column {column} do not match the kind of its variable"
  | rangeTooWide inf sup =>
    s!"the range {inf}..{sup} is too wide to expand without a column domain"

def NameError.message : NameError → String
  | invalid name => s!"'{name}' is not a valid name"
  | duplicate name => s!"the name '{name}' is already in use"

def AutomatonError.message : AutomatonError → String
  | noTransitions => "at least one transition is required"
  | noFinalStates => "at least one final state is required"
  | invalidState state => s!"'{state}' is not a valid state name"

/-- The wording of a cause. -/
def ModelError.message : ModelError → String
  | domain cause => cause.message
  | shape cause => cause.message
  | scope cause => cause.message
  | arity cause => cause.message
  | objective cause => cause.message
  | table cause => cause.message
  | name cause => cause.message
  | automaton cause => cause.message
  | coefficientOverflow coefficient factor =>
    s!"the coefficient {coefficient} of a sum overflows when scaled by {factor}"
  | frozen => "the model has been compiled and can no longer be modified"
  | notAPredicate => "only predicates can be posted as constraints"

end CspModel
