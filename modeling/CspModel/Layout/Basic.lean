import CspModel.Constraint.Basic

/-! # The layout of a constraint

A constraint is laid out as an element with attributes and named arguments.  Two
constraints can be folded into one group when their layouts agree up to some of
their lists, so a layout is what constraints are compared by; a template is a
layout in which placeholders stand for the parts that differ.
-/
namespace CspModel

/-- One entry of a list argument. -/
inductive Parameter where
  | var (v : Variable)
  | integer (value : Int)
  /-- The argument of a group instance with this number. -/
  | placeholder (number : Nat)
  /-- All arguments of a group instance. -/
  | allPlaceholders
  /-- The integers from `inf` to `sup`. -/
  | range (inf sup : Int)
  /-- Any other expression. -/
  | expression (e : Expr)
deriving DecidableEq

/-- The parameter an expression is written as. -/
def Parameter.ofExpr : Expr → Parameter
  | .var v => var v
  | .const value => integer value
  | e => expression e

/-- One position of a written row of a table. -/
inductive RowCell where
  | integer (value : Int)
  | symbol (text : String)
  /-- Any value. -/
  | any
deriving DecidableEq, Ord

def RowCell.text : RowCell → String
  | integer value => toString value
  | symbol text => text
  | any => "*"

/-- The right-hand side of a written condition. -/
inductive ConditionTarget where
  | parameter (p : Parameter)
  | range (inf sup : Int)
  | set (values : List Int)
deriving DecidableEq

/-- What an argument holds. -/
inductive Content where
  /-- A predicate. -/
  | tree (predicate : Expr)
  /-- A predicate with placeholders, in functional notation. -/
  | template (text : String)
  | parameters (list : List Parameter)
  | condition (comparison : Comparison) (target : ConditionTarget)
  /-- The tuples of a table as they were posted. -/
  | table (t : Table)
  /-- The tuples of a table as they are written. -/
  | rows (rows : List (List RowCell))
  | text (text : String)
deriving DecidableEq

/-- The list of parameters, if the content is one. -/
def Content.parameters? : Content → Option (List Parameter)
  | parameters list => some list
  | _ => none

/-- A named argument. -/
structure Argument where
  name : String
  attributes : List (String × String) := []
  content : Content
deriving DecidableEq

/-- An element with attributes and arguments. -/
structure Layout where
  name : String
  attributes : List (String × String) := []
  arguments : List Argument
deriving DecidableEq

/-! ### Laying out constraints -/

namespace Argument

/-- A list of expressions. -/
def ofList (name : String) (list : List Expr) : Argument :=
  { name, content := .parameters (list.map .ofExpr) }

/-- A list of variables. -/
def ofVariables (list : List Variable) : Argument :=
  { name := "list", content := .parameters (list.map .var) }

/-- A list of integers. -/
def ofIntegers (name : String) (values : List Int) : Argument :=
  { name, content := .parameters (values.map .integer) }

/-- One expression. -/
def ofExpr (name : String) (e : Expr) : Argument :=
  { name, content := .parameters [.ofExpr e] }

def ofText (name text : String) : Argument := { name, content := .text text }

/-- A condition. -/
def ofCondition (c : Condition) : Argument :=
  { name := "condition"
    content := .condition c.comparison (match c.operand with
      | .expression e => .parameter (.ofExpr e)
      | .range inf sup => .range inf sup
      | .set values => .set values) }

/-- Adds an attribute, unless it holds its default. -/
def withAttribute (a : Argument) (isDefault : Bool) (key value : String) : Argument :=
  if isDefault then a else { a with attributes := a.attributes ++ [(key, value)] }

/-- The start index of a list; it is left out when it is zero. -/
def startingAt (a : Argument) (startIndex : Int) : Argument :=
  a.withAttribute (startIndex == 0) "startIndex" (toString startIndex)

/-- A list of integers, left out when it is empty. -/
def ofSome (name : String) (values : List Int) : List Argument :=
  if values.isEmpty then [] else [ofIntegers name values]

/-- The coefficients of a sum, if it has any. -/
def ofCoefficients (coefficients : Option (List Int)) : List Argument :=
  match coefficients with
  | none => []
  | some coefficients => [ofIntegers "coeffs" coefficients]

/-- What the value of an element is compared to: an equality is written as the value
itself. -/
def ofElementCondition (c : Condition) : Argument :=
  match c with
  | ⟨.eq, .expression e⟩ => ofExpr "value" e
  | c => ofCondition c

end Argument

namespace Layout

/-- The arguments of an aggregate without the condition on its value. -/
def aggregateArguments : Aggregate Expr → List Argument
  | .sum terms coefficients => Argument.ofList "list" terms :: Argument.ofCoefficients coefficients
  | .count list values => [.ofList "list" list, .ofIntegers "values" values]
  | .nValues list except => Argument.ofList "list" list :: Argument.ofSome "except" except
  | .minimum list => [.ofList "list" list]
  | .maximum list => [.ofList "list" list]
  | .element list index startIndex =>
    [(Argument.ofList "list" list).startingAt startIndex, .ofExpr "index" index]

/-- The condition on the value of an aggregate. -/
def aggregateCondition (f : Aggregate Expr) (c : Condition) : Argument :=
  match f with
  | .element _ _ _ => .ofElementCondition c
  | _ => .ofCondition c

/-- The parameter a number of occurrences is written as; a range of one number is
that number. -/
def occurrenceParameter : Occurrence → Parameter
  | .exactly e => .ofExpr e
  | .between inf sup => if inf = sup then .integer inf else .range inf sup

/-- The parameter a literal is written as. -/
def literalParameter (literal : Literal) : Parameter :=
  if literal.positive then .var literal.v else .expression (.apply .not [.var literal.v])

/-- The arguments a channel has besides its list. -/
def targetArguments : ChannelTarget → List Argument
  | .itself => []
  | .list list startIndex => [(Argument.ofVariables list).startingAt startIndex]
  | .value e => [.ofExpr "value" e]

/-- The layout of a relation. -/
def ofRelation : Relation → Layout
  | .intension predicate =>
    { name := "intension", arguments := [{ name := "function", content := .tree predicate }] }
  | .extension list table =>
    { name := "extension"
      arguments :=
        [.ofList "list" list, { name := table.polarity.name, content := .table table }] }
  | .allDifferent list except =>
    { name := "allDifferent"
      arguments := Argument.ofList "list" list :: Argument.ofSome "except" except }
  | .allEqual list => { name := "allEqual", arguments := [.ofList "list" list] }
  | .ordered list operator =>
    { name := "ordered", arguments := [.ofList "list" list, .ofText "operator" operator.name] }
  | .conditional function condition =>
    { name := function.kind
      arguments := aggregateArguments function ++ [aggregateCondition function condition] }
  | .circuit list startIndex =>
    { name := "circuit", arguments := [(Argument.ofList "list" list).startingAt startIndex] }
  | .noOverlap origins lengths zeroIgnored =>
    { name := "noOverlap"
      attributes := if zeroIgnored then [] else [("zeroIgnored", "false")]
      arguments := [.ofList "origins" origins, .ofList "lengths" lengths] }
  | .cumulative origins lengths heights condition =>
    { name := "cumulative"
      arguments :=
        [.ofList "origins" origins, .ofList "lengths" lengths, .ofList "heights" heights,
          .ofCondition condition] }
  | .instantiation list values =>
    { name := "instantiation", arguments := [.ofVariables list, .ofIntegers "values" values] }
  | .lex lists operator =>
    { name := "lex"
      arguments := lists.map (.ofList "list") ++ [.ofText "operator" operator.name] }
  | .channel list startIndex target =>
    { name := "channel"
      arguments := (Argument.ofVariables list).startingAt startIndex :: targetArguments target }
  | .cardinality list values occurs closed =>
    { name := "cardinality"
      arguments :=
        [.ofList "list" list,
          (Argument.ofList "values" values).withAttribute (!closed) "closed" "true",
          { name := "occurs", content := .parameters (occurs.map occurrenceParameter) }] }
  | .regular list automaton =>
    { name := "regular"
      arguments :=
        [.ofList "list" list, .ofText "transitions" (Transition.textOfAll automaton.transitions),
          .ofText "start" automaton.start, .ofText "final" (" ".intercalate automaton.finals)] }
  | .mdd list diagram =>
    { name := "mdd"
      arguments :=
        [.ofList "list" list, .ofText "transitions" (Transition.textOfAll diagram.transitions)] }
  | .precedence list values covered =>
    { name := "precedence"
      arguments := .ofList "list" list ::
        (Argument.ofSome "values" values).map (·.withAttribute (!covered) "covered" "true") }
  | .clause literals =>
    { name := "clause"
      arguments := [{ name := "list", content := .parameters (literals.map literalParameter) }] }

/-- The layout of an aggregate that is optimised: its list, and the coefficients of a
sum. -/
def ofObjective : Aggregate Expr → Layout
  | .sum terms coefficients =>
    { name := "sum"
      arguments := Argument.ofList "list" terms :: Argument.ofCoefficients coefficients }
  | f => { name := f.kind, arguments := [.ofList "list" f.list] }

end Layout
end CspModel
