import CspModel.Grouping.Similar

/-! # Templates

A group of similar constraints is written as one template and the arguments of
every member.  In a predicate, a slot that holds the same leaf in all members is
filled in, and slots with equal columns of leaves share a placeholder.  In any
other layout the lists in which the members differ become placeholders; a single
such list can be written as all arguments at once.
-/
namespace CspModel

/-- What stands in a slot of a template. -/
inductive Filling where
  | inline (leaf : Parameter)
  | placeholder (number : Nat)
deriving DecidableEq

namespace Filling

/-- The fillings of the slots with the given columns, and the columns of the
placeholders, of which `known` have been met before. -/
def ofColumns (known : List (List Parameter)) :
    List (List Parameter) → List Filling × List (List Parameter)
  | [] => ([], known)
  | column :: rest =>
    match column with
    | [] => ofColumns known rest
    | leaf :: others =>
      if others.all (· == leaf) then
        let (fillings, columns) := ofColumns known rest
        (inline leaf :: fillings, columns)
      else
        match known.findIdx? (· == column) with
        | some number =>
          let (fillings, columns) := ofColumns known rest
          (placeholder number :: fillings, columns)
        | none =>
          let (fillings, columns) := ofColumns (known ++ [column]) rest
          (placeholder known.length :: fillings, columns)

/-- The text of a filling; only variables and integers are filled in. -/
def text? (names : Variable → String) : Filling → Option String
  | placeholder number => some s!"%{number}"
  | inline (.var v) => some (names v)
  | inline (.integer value) => some (toString value)
  | inline _ => none

/-- The pieces with their slots filled. -/
def fill (names : Variable → String) : List Piece → List Filling → Option String
  | [], _ => some ""
  | .text text :: rest, fillings => (fill names rest fillings).map (text ++ ·)
  | .slot :: _, [] => none
  | .slot :: rest, filling :: fillings =>
    (filling.text? names).bind fun text => (fill names rest fillings).map (text ++ ·)

end Filling

/-- The entries at one position of several rows. -/
def columnAt (rows : List (List Parameter)) (position : Nat) : List Parameter :=
  rows.filterMap fun row => row[position]?

/-- The template of predicates with the same pieces, and the arguments of every
member; there is none when no slot differs. -/
def predicateTemplate (names : Variable → String) (pieces : List Piece)
    (leaves : List (List Parameter)) : Option (Layout × List (List Parameter)) :=
  let slots := (leaves.headD []).length
  let (fillings, columns) := Filling.ofColumns [] ((List.range slots).map (columnAt leaves))
  if columns.isEmpty then none
  else
    (Filling.fill names pieces fillings).map fun text =>
      ({ name := "intension"
         arguments := [{ name := "function", content := .template text }] },
        (List.range leaves.length).map (columnAt columns))

/-- The arguments with the lists at the given positions replaced by placeholders, which
are numbered from `number` on. -/
def placeholdersFrom (numbered : Bool) (positions : List Nat) (number : Nat) :
    List (Argument × Nat) → List Argument
  | [] => []
  | (a, position) :: rest =>
    if positions.contains position then
      let length := (a.content.parameters?.getD []).length
      let list :=
        if numbered then (List.range length).map fun k => Parameter.placeholder (number + k)
        else [.allPlaceholders]
      { a with content := .parameters list } ::
        placeholdersFrom numbered positions (number + length) rest
    else
      a :: placeholdersFrom numbered positions number rest

/-- The lists of a layout at the given positions, one after the other. -/
def argumentsAt (positions : List Nat) (layout : Layout) : List Parameter :=
  positions.flatMap fun position =>
    (layout.arguments[position]?.bind fun a => a.content.parameters?).getD []

/-- The template of layouts that differ in the lists at the given positions.  A single
list is written as all arguments unless the placeholders have to be numbered. -/
def layoutTemplate (first : Layout) (members : List Layout) (positions : List Nat)
    (numbered : Bool) : Layout × List (List Parameter) :=
  let numbered := numbered || positions.length != 1
  ({ first with arguments := placeholdersFrom numbered positions 0 first.arguments.zipIdx },
    members.map (argumentsAt positions))

/-- The leaves of a predicate. -/
def Form.leaves? : Form → Option (List Parameter)
  | predicate _ leaves => some leaves
  | laidOut _ => none

/-- The layout of any other constraint. -/
def Form.layout? : Form → Option Layout
  | predicate _ _ => none
  | laidOut layout => some layout

/-- The template of similar constraints with the arguments of every member; there is
none when the members do not differ. -/
def template? (names : Variable → String) (numbered : Bool) (members : List Form) :
    Option (Layout × List (List Parameter)) :=
  match members with
  | .predicate pieces leaves :: rest =>
    predicateTemplate names pieces (leaves :: rest.filterMap Form.leaves?)
  | .laidOut first :: rest =>
    let layouts := first :: rest.filterMap Form.layout?
    layouts[1]?.bind fun second =>
      (differing? first second).map fun positions =>
        layoutTemplate first layouts positions numbered
  | [] => none

/-- The pieces of an equality between two leaves. -/
def equalityPieces : List Piece := [.text "eq(", .slot, .text ",", .slot, .text ")"]

/-- The variable and the integer of an equality between the two, in either order. -/
def equality? : Form → Option (Parameter × Parameter)
  | .predicate pieces leaves =>
    if pieces = equalityPieces then
      match leaves with
      | [.var v, .integer value] => some (.var v, .integer value)
      | [.integer value, .var v] => some (.var v, .integer value)
      | _ => none
    else none
  | .laidOut _ => none

end CspModel
