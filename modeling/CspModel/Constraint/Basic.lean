import CspModel.Automaton
import CspModel.Condition
import CspModel.Table

/-! # Constraints

A relation is a constraint of one of the forms that have an element of their own
in a document.  A slide applies one constraint to a sequence of windows over a
list; its windows are constraints again and may be slides themselves.
-/
namespace CspModel

/-- The order between consecutive entries. -/
inductive OrderOperator where
  | lt | le | ge | gt
deriving DecidableEq, Ord

namespace OrderOperator

/-- All order operators in their order. -/
def all : List OrderOperator := [lt, le, ge, gt]

def name : OrderOperator → String
  | lt => "lt"
  | le => "le"
  | ge => "ge"
  | gt => "gt"

end OrderOperator

/-- What the list of a channel is linked with. -/
inductive ChannelTarget where
  /-- The list itself: entry `i` is `j` exactly when entry `j` is `i`. -/
  | itself
  /-- A second list: entry `i` is `j` exactly when entry `j` of the other list is `i`. -/
  | list (list : List Variable) (startIndex : Int)
  /-- A value: entry `i` is one exactly when the value is `i`. -/
  | value (e : Expr)
deriving DecidableEq, Ord

/-- How often a value occurs. -/
inductive Occurrence where
  | exactly (e : Expr)
  | between (inf sup : Int)
deriving DecidableEq, Ord

/-- A variable that has to be one or, when it is not positive, zero. -/
structure Literal where
  v : Variable
  positive : Bool
deriving DecidableEq, Ord

/-- A constraint that is written as an element of its own. -/
inductive Relation where
  /-- A predicate holds. -/
  | intension (predicate : Expr)
  /-- The values of the list are, or are not, a tuple of the table. -/
  | extension (list : List Expr) (table : Table)
  /-- The values other than the exceptions are different. -/
  | allDifferent (list : List Expr) (except : List Int)
  | allEqual (list : List Expr)
  /-- Consecutive entries are ordered. -/
  | ordered (list : List Expr) (operator : OrderOperator)
  /-- The value of a function meets a condition. -/
  | conditional (function : Aggregate Expr) (condition : Condition)
  /-- The successors form one cycle. -/
  | circuit (list : List Expr) (startIndex : Int)
  /-- The tasks do not overlap. -/
  | noOverlap (origins lengths : List Expr) (zeroIgnored : Bool)
  /-- The heights of the tasks running together meet a condition. -/
  | cumulative (origins lengths heights : List Expr) (condition : Condition)
  /-- The variables take the values. -/
  | instantiation (list : List Variable) (values : List Int)
  /-- The lists are ordered lexicographically. -/
  | lex (lists : List (List Expr)) (operator : OrderOperator)
  | channel (list : List Variable) (startIndex : Int) (target : ChannelTarget)
  /-- Every value occurs as often as stated, and no other value occurs when closed. -/
  | cardinality (list values : List Expr) (occurs : List Occurrence) (closed : Bool)
  /-- The word of the values is accepted. -/
  | regular (list : List Expr) (automaton : Automaton)
  | mdd (list : List Expr) (diagram : Diagram)
  /-- A value occurs only after the one before it in `values`. -/
  | precedence (list : List Expr) (values : List Int) (covered : Bool)
  /-- One of the literals holds. -/
  | clause (literals : List Literal)
deriving DecidableEq, Ord

namespace Relation

/-- The name of the element the relation is written as. -/
def name : Relation → String
  | intension _ => "intension"
  | extension _ _ => "extension"
  | allDifferent _ _ => "allDifferent"
  | allEqual _ => "allEqual"
  | ordered _ _ => "ordered"
  | conditional function _ => function.kind
  | circuit _ _ => "circuit"
  | noOverlap _ _ _ => "noOverlap"
  | cumulative _ _ _ _ => "cumulative"
  | instantiation _ _ => "instantiation"
  | lex _ _ => "lex"
  | channel _ _ _ => "channel"
  | cardinality _ _ _ _ => "cardinality"
  | regular _ _ => "regular"
  | mdd _ _ => "mdd"
  | precedence _ _ _ => "precedence"
  | clause _ => "clause"

/-- The expression that a number of occurrences has to equal, if it is not a range. -/
def occurrenceExpr? : Occurrence → Option Expr
  | .exactly e => some e
  | .between _ _ => none

/-- The expressions a channel is stated over besides its list. -/
def targetExpressions : ChannelTarget → List Expr
  | .itself => []
  | .list list _ => list.map .var
  | .value e => [e]

/-- All expressions the relation is stated over, in the order of its arguments. -/
def expressions : Relation → List Expr
  | intension predicate => [predicate]
  | extension list _ => list
  | allDifferent list _ => list
  | allEqual list => list
  | ordered list _ => list
  | conditional function condition => function.operands ++ condition.expressions
  | circuit list _ => list
  | noOverlap origins lengths _ => origins ++ lengths
  | cumulative origins lengths heights condition =>
    origins ++ lengths ++ heights ++ condition.expressions
  | instantiation list _ => list.map .var
  | lex lists _ => lists.flatten
  | channel list _ target => list.map .var ++ targetExpressions target
  | cardinality list values occurs _ => list ++ values ++ occurs.filterMap occurrenceExpr?
  | regular list _ => list
  | mdd list _ => list
  | precedence list _ _ => list
  | clause literals => literals.map fun literal => .var literal.v

end Relation

/-- A relation, or a relation applied to the windows of a slide. -/
inductive Constraint where
  | relation (r : Relation)
  | slide (windows : List Constraint)

namespace Constraint

/-- The name of the element the constraint is written as. -/
def name : Constraint → String
  | relation r => r.name
  | slide _ => "slide"

mutual
/-- The relations of the constraint; the windows of nested slides take the places of
the slides. -/
def relations : Constraint → List Relation
  | relation r => [r]
  | slide windows => relationsOf windows

/-- The relations of several constraints. -/
def relationsOf : List Constraint → List Relation
  | [] => []
  | c :: rest => relations c ++ relationsOf rest
end

/-- The distinct variables of the constraint in the order of their first
occurrences. -/
def scope (c : Constraint) : List Variable :=
  ((c.relations.flatMap Relation.expressions).flatMap Expr.occurrences).eraseDups

mutual
/-- Compares two constraints; slides come after all relations. -/
def order : Constraint → Constraint → Ordering
  | relation r, relation r' => compare r r'
  | relation _, slide _ => .lt
  | slide _, relation _ => .gt
  | slide windows, slide windows' => orderAll windows windows'

/-- Compares two lists of constraints entry by entry. -/
def orderAll : List Constraint → List Constraint → Ordering
  | [], [] => .eq
  | [], _ :: _ => .lt
  | _ :: _, [] => .gt
  | c :: rest, c' :: rest' => (order c c').then (orderAll rest rest')
end

instance : Ord Constraint := ⟨order⟩

end Constraint
end CspModel
