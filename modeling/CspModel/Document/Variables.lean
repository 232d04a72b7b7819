import CspModel.Document.ListText
import CspModel.Xml.Element

/-! # The variables section

Every declaration is written as one element, in the order of the declarations.  A
variable carries the text of its domain, or refers to the earlier variable that
carries the same text first.  An array carries one text for all its cells, or one
for the cells of every distinct domain when the domains differ or cells are
missing.
-/
namespace CspModel
namespace Document

/-- The element marked as symbolic when the values of the domain are symbols. -/
def typed (e : Element) (d : Domain) : Element :=
  if d.isSymbolic then e.withAttribute .kind "symbolic" else e

/-- The element of a variable standing alone.  `carriers` are the keys of the domains
written so far with the names of the variables that carry them; the answer extends
them. -/
def aloneElement (s : Store) (shareAbove : Nat) (carriers : List (Nat × String))
    (v : Variable) : Element × List (Nat × String) :=
  match s.info? v with
  | none => (Element.ofToken .var, carriers)
  | some info =>
    let d := s.domainAt info.domain
    let element := typed ((Element.ofToken .var).withAttribute .id info.name) d
    match carriers.lookup info.domain with
    | some carrier =>
      if shareAbove < d.text.utf8ByteSize then
        (element.withAttribute .sameAs carrier, carriers)
      else
        (element.withText d.text, carriers)
    | none => (element.withText d.text, (info.domain, info.name) :: carriers)

/-- The key of the domain of a variable. -/
def domainKey (s : Store) (v : Variable) : Nat := ((s.info? v).map (·.domain)).getD 0

/-- The keys of the domains of some variables, each with the variables that have the
domain, in the order of the first of them. -/
def cellsByDomain (s : Store) (cells : List Variable) : List (Nat × List Variable) :=
  (cells.map (domainKey s)).eraseDups.map fun key =>
    (key, cells.filter fun v => domainKey s v == key)

/-- The element of an array; an array without cells is not written. -/
def arrayElement? (w : ListText) (key : Nat) : Option Element :=
  let a := w.store.arrayAt key
  let parts := cellsByDomain w.store a.cells
  parts.head?.map fun (first, _) =>
    let d := w.store.domainAt first
    let element := typed (((Element.ofToken .array).withAttribute .id a.name).withAttribute .size
      (Grid.subscript a.shape)) d
    if parts.length = 1 ∧ !a.hasHoles then element.withText d.text
    else
      element.withChildren (parts.map fun (key, cells) =>
        ((Element.ofToken .domain).withAttribute .forCells (w.variableList cells true)).withText
          (w.store.domainAt key).text)

/-- The elements of the declarations that remain. -/
def declarationElements (w : ListText) (shareAbove : Nat) (carriers : List (Nat × String)) :
    List Declaration → List Element
  | [] => []
  | .alone v :: rest =>
    let (element, carriers) := aloneElement w.store shareAbove carriers v
    element :: declarationElements w shareAbove carriers rest
  | .array key :: rest =>
    (arrayElement? w key).toList ++ declarationElements w shareAbove carriers rest

/-- The variables section. -/
def variablesSection (w : ListText) (shareAbove : Nat) : Element :=
  (Element.ofToken .variableSection).withChildren
    (declarationElements w shareAbove [] w.store.declarations)

end Document
end CspModel
