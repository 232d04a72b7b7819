import CspModel.Document.ListText
import CspModel.Grouping.Basic
import Mathlib

/-! # What the entries of a document say

The entries of the constraints section stand for constraints: a group for one of each
list of arguments, a slide for one of each window over its list, equalities written as
an instantiation for one of each variable.  `Written.readings` expands an entry into
the constraints it stands for, as a reader of the document would, and
`Relation.reading` is what a constraint says that is written on its own.

A placeholder is a percent sign followed by a number.  In a list it is an entry of its
own; in a predicate it is part of the text, which is scanned for it.
-/
namespace CspModel

/-- A constraint as the document says it. -/
inductive Reading where
  /-- A predicate in functional notation. -/
  | predicate (text : String)
  | laidOut (layout : Layout)
deriving DecidableEq

/-! ### Templates of predicates -/

/-- What the text of a template consists of. -/
inductive Mark where
  | char (c : Char)
  | placeholder (number : Nat)
deriving DecidableEq

namespace Mark

/-- The marks of a text; within a placeholder the first argument is the number as far as
it has been read. -/
def scanFrom : Option Nat → List Char → List Mark
  | none, [] => []
  | some number, [] => [placeholder number]
  | none, c :: rest => if c = '%' then scanFrom (some 0) rest else char c :: scanFrom none rest
  | some number, c :: rest =>
    if c.isDigit then scanFrom (some (10 * number + (c.toNat - '0'.toNat))) rest
    else placeholder number ::
      if c = '%' then scanFrom (some 0) rest else char c :: scanFrom none rest

/-- The marks of a text. -/
def scan (text : String) : List Mark := scanFrom none text.toList

/-- The number of a placeholder. -/
def number? : Mark → Option Nat
  | char _ => none
  | placeholder number => some number

/-- The characters of a mark when the placeholders stand for the arguments. -/
def replaced (arguments : List String) : Mark → List Char
  | char c => [c]
  | placeholder number => (arguments[number]?.getD "").toList

end Mark

/-- The text with its placeholders replaced by the arguments. -/
def substitute (arguments : List String) (text : String) : String :=
  String.ofList ((Mark.scan text).flatMap (Mark.replaced arguments))

/-! ### Instances of a template -/

/-- The text of an argument. -/
def Parameter.text (names : Variable → String) : Parameter → String
  | var v => names v
  | integer value => toString value
  | placeholder number => s!"%{number}"
  | allPlaceholders => "%..."
  | range inf sup => toString inf ++ ".." ++ toString sup
  | expression e => e.render names

/-- An argument is the text it is written as in any list. -/
theorem ListText.parameter_eq (w : ListText) (p : Parameter) :
    w.parameter p = p.text w.store.nameOf := by
  cases p <;> rfl

/-- What a parameter of a template stands for. -/
def Parameter.instantiate (arguments : List Parameter) : Parameter → List Parameter
  | placeholder number => arguments[number]?.toList
  | allPlaceholders => arguments
  | p => [p]

def Content.instantiate (names : Variable → String) (arguments : List Parameter) :
    Content → Content
  | parameters list => parameters (list.flatMap (Parameter.instantiate arguments))
  | template source => template (substitute (arguments.map (Parameter.text names)) source)
  | c => c

def Argument.instantiate (names : Variable → String) (arguments : List Parameter)
    (a : Argument) : Argument :=
  { a with content := a.content.instantiate names arguments }

/-- The template with its placeholders replaced by the arguments. -/
def Layout.instantiate (names : Variable → String) (arguments : List Parameter)
    (template : Layout) : Layout :=
  { template with arguments := template.arguments.map (Argument.instantiate names arguments) }

/-- The numbers of the placeholders. -/
def Content.placeholders : Content → List Nat
  | parameters list => list.filterMap fun
    | .placeholder number => some number
    | _ => none
  | template source => (Mark.scan source).filterMap Mark.number?
  | _ => []

/-- The number of different placeholders, which is how many variables of its list a slide
takes for each instance. -/
def Layout.width (template : Layout) : Nat :=
  (template.arguments.flatMap fun a => a.content.placeholders).eraseDups.length

/-! ### Readings -/

/-- What a layout without placeholders says. -/
def Layout.reading (names : Variable → String) (layout : Layout) : Reading :=
  match layout.arguments with
  | [⟨_, _, .tree predicate⟩] => .predicate (predicate.render names)
  | [⟨_, _, .template text⟩] => .predicate text
  | _ => .laidOut layout

/-- What a constraint says that is written on its own. -/
def Relation.reading (names : Variable → String) (r : Relation) : Reading :=
  (Layout.ofRelation r).reading names

/-- What an instance of a template says. -/
def Layout.readingOf (names : Variable → String) (template : Layout)
    (arguments : List Parameter) : Reading :=
  (template.instantiate names arguments).reading names

/-- The equality of a variable with a value. -/
def equalityReading (names : Variable → String) (x value : Parameter) : Reading :=
  .predicate (Expr.call "eq" [x.text names, value.text names])

namespace Sliding

/-- The positions at which the instances of a slide start: every multiple of the offset
whose window lies on the list or, if the slide is circular, starts on it. -/
def starts (s : Sliding) (width : Nat) : List Nat :=
  (List.range (s.list.length + 1)).filter fun start => start % s.offset = 0 &&
    if s.circular then start < s.list.length else start + width ≤ s.list.length

/-- The variables from a position of the list on. -/
def window (s : Sliding) (width start : Nat) : List Parameter :=
  (List.range width).filterMap fun k => (s.entryAt (start + k)).map .var

/-- What the instances of a slide say. -/
def readings (names : Variable → String) (s : Sliding) (template : Layout) : List Reading :=
  (s.starts template.width).map fun start =>
    template.readingOf names (s.window template.width start)

end Sliding

mutual
/-- The constraints an entry stands for. -/
def Written.readings (names : Variable → String) : Written → List Reading
  | .constraint layout _ => [layout.reading names]
  | .group template arguments _ => arguments.map (template.readingOf names)
  | .slide list offset circular template _ =>
    Sliding.readings names ⟨list, offset, circular⟩ template
  | .equalities list values _ => (list.zip values).map fun (x, value) =>
    equalityReading names x value
  | .block entries _ => Written.readingsOf names entries

/-- The constraints several entries stand for. -/
def Written.readingsOf (names : Variable → String) : List Written → List Reading
  | [] => []
  | entry :: rest => Written.readings names entry ++ Written.readingsOf names rest
end

end CspModel
