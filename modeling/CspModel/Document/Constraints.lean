import CspModel.Document.ListText
import CspModel.Layout.Written
import CspModel.Objective
import CspModel.Xml.Element

/-! # The constraints section and the objective

A constraint is written as an element with one child for every argument; a lone
list or predicate is written as the text of the element itself.  Groups hold a
template and the arguments of every instance, slides a list and a template, and
blocks the entries whose labels they carry.
-/
namespace CspModel
namespace Document

/-! ### Tables -/

/-- The integers, if the cells are nothing else. -/
def integerCells? (cells : List RowCell) : Option (List Int) :=
  cells.mapM fun
    | .integer value => some value
    | _ => none

/-- The cells of rows that hold one cell each, none of them a wildcard. -/
def unaryCells? (rows : List (List RowCell)) : Option (List RowCell) :=
  rows.mapM fun
    | [.any] => none
    | [cell] => some cell
    | _ => none

/-- A row in parentheses. -/
def rowText (row : List RowCell) : String :=
  "(" ++ ",".intercalate (row.map RowCell.text) ++ ")"

/-- The rows of a table.  A table over one variable is written as a list of values,
its integers with ranges as in a domain. -/
def rowsText (rows : List (List RowCell)) : String :=
  match unaryCells? rows with
  | none => String.join (rows.map rowText)
  | some cells =>
    match (integerCells? cells).map Domain.ofIntegers with
    | some (.ok d) => d.text
    | _ => " ".intercalate (cells.map RowCell.text)

/-! ### Constraints -/

/-- The right-hand side of a condition. -/
def targetText (w : ListText) : ConditionTarget → String
  | .parameter p => w.parameter p
  | .range inf sup => toString inf ++ ".." ++ toString sup
  | .set values => "\x7b" ++ ",".intercalate (values.map toString) ++ "\x7d"

/-- The text of an argument. -/
def contentText (w : ListText) (a : Argument) : String :=
  match a.content with
  | .tree predicate => predicate.render w.store.nameOf
  | .template text => text
  | .parameters list => w.write a.name list false
  | .condition comparison target => "(" ++ comparison.name ++ "," ++ targetText w target ++ ")"
  | .table table => String.join (table.tuples.map Table.tupleText)
  | .rows rows => rowsText rows
  | .text text => text

/-- The element of an argument. -/
def argumentElement (w : ListText) (a : Argument) : Element :=
  (Element.withAttributes { name := a.name } a.attributes).withText (contentText w a)

/-- The only argument of a layout that is written without an element of its own. -/
def loneArgument? (layout : Layout) : Option Argument :=
  match layout.arguments with
  | [a] =>
    if a.attributes.isEmpty && (a.name == "list" || a.name == "function") then some a else none
  | _ => none

/-- The element of a layout. -/
def layoutElement (w : ListText) (layout : Layout) : Element :=
  let element := Element.withAttributes { name := layout.name } layout.attributes
  match loneArgument? layout with
  | some a => element.withText (contentText w a)
  | none => element.withChildren (layout.arguments.map (argumentElement w))

/-- The element with its labels. -/
def decorated (d : Decoration) (e : Element) : Element :=
  let e :=
    if d.classes.isEmpty then e
    else e.withAttribute .classes (" ".intercalate (d.classes.map Tag.text))
  match d.note with
  | none => e
  | some note => e.withAttribute .note note

/-- The element of the arguments of one instance. -/
def argsElement (w : ListText) (arguments : List Parameter) : Element :=
  (Element.ofToken .args).withText (w.write "args" arguments true)

/-- The list of a slide; an offset of one is left out. -/
def scopeElement (w : ListText) (list : List Variable) (offset : Nat) : Element :=
  let element := (Element.ofToken .list).withText (w.variableList list false)
  if offset = 1 then element else element.withAttribute .offset (toString offset)

/-- The element around the list and the template of a slide. -/
def slideElement (circular : Bool) : Element :=
  if circular then (Element.ofToken .slide).withAttribute .circular "true"
  else Element.ofToken .slide

mutual
/-- The element of an entry. -/
def entryElement (w : ListText) : Written → Element
  | .constraint layout d => decorated d (layoutElement w layout)
  | .group template arguments d =>
    decorated d ((Element.ofToken .group).withChildren
      (layoutElement w template :: arguments.map (argsElement w)))
  | .slide list offset circular template d =>
    decorated d ((slideElement circular).withChildren
      [scopeElement w list offset, layoutElement w template])
  | .equalities list values d =>
    decorated d (layoutElement w (Written.equalitiesLayout list values))
  | .block entries d =>
    decorated d ((Element.ofToken .block).withChildren (entryElements w entries))

/-- The elements of several entries. -/
def entryElements (w : ListText) : List Written → List Element
  | [] => []
  | entry :: rest => entryElement w entry :: entryElements w rest
end

/-! ### Objective -/

/-- The element of an objective; an aggregate is named by the type of the element. -/
def objectiveElement (w : ListText) (objective : Objective) : Element :=
  let element : Element := { name := objective.direction.name }
  match objective.target with
  | .expression e => element.withText (e.render w.store.nameOf)
  | .aggregate f =>
    let layout := Layout.ofObjective f
    let written := layoutElement w layout
    let element := element.withAttribute .kind layout.name
    match written.text with
    | some text => element.withText text
    | none => element.withChildren written.children

end Document
end CspModel
