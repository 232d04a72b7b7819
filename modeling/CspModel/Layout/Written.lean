import CspModel.Layout.Basic
import CspModel.Posting

/-! # Constraints as they are written

The constraints section of a document is a list of entries: single constraints,
groups of similar constraints, slides, equalities written as one instantiation,
and blocks that carry the labels of several entries.
-/
namespace CspModel

/-- An entry of the constraints section. -/
inductive Written where
  | constraint (layout : Layout) (decoration : Decoration)
  /-- Instances of one template, each given by the arguments for its placeholders. -/
  | group (template : Layout) (arguments : List (List Parameter)) (decoration : Decoration)
  /-- One template over windows of a list, each `offset` further on than the one before;
  the windows of a circular slide go on at the start of the list. -/
  | slide (list : List Variable) (offset : Nat) (circular : Bool) (template : Layout)
      (decoration : Decoration)
  /-- Equalities of a variable with a constant. -/
  | equalities (list values : List Parameter) (decoration : Decoration)
  | block (entries : List Written) (decoration : Decoration)

namespace Written

/-- A constraint on its own. -/
def alone (r : Relation) : Written := constraint (Layout.ofRelation r) {}

/-- The layout of equalities as one instantiation. -/
def equalitiesLayout (list values : List Parameter) : Layout :=
  { name := "instantiation"
    arguments :=
      [{ name := "list", content := .parameters list },
        { name := "values", content := .parameters values }] }

def decoration : Written → Decoration
  | constraint _ d => d
  | group _ _ d => d
  | slide _ _ _ _ d => d
  | equalities _ _ d => d
  | block _ d => d

/-- The entry with other labels. -/
def withDecoration (d : Decoration) : Written → Written
  | constraint layout _ => constraint layout d
  | group template arguments _ => group template arguments d
  | slide list offset circular template _ => slide list offset circular template d
  | equalities list values _ => equalities list values d
  | block entries _ => block entries d

mutual
/-- The sum of a number over the entry and all entries nested in it. -/
def total (count : Written → Nat) : Written → Nat
  | constraint layout d => count (constraint layout d)
  | group template arguments d => count (group template arguments d)
  | slide list offset circular template d => count (slide list offset circular template d)
  | equalities list values d => count (equalities list values d)
  | block entries d => count (block entries d) + totalOf count entries

/-- The sum of a number over several entries. -/
def totalOf (count : Written → Nat) : List Written → Nat
  | [] => 0
  | w :: rest => total count w + totalOf count rest
end

/-- One for a group. -/
def isGroup : Written → Nat
  | group _ _ _ => 1
  | _ => 0

/-- The number of instances of a group. -/
def instanceCount : Written → Nat
  | group _ arguments _ => arguments.length
  | _ => 0

/-- One for a slide. -/
def isSlide : Written → Nat
  | slide _ _ _ _ _ => 1
  | _ => 0

/-- One for equalities. -/
def isEqualities : Written → Nat
  | equalities _ _ _ => 1
  | _ => 0

/-- One for a block. -/
def isBlock : Written → Nat
  | block _ _ => 1
  | _ => 0

/-- One for an entry with a label. -/
def isLabelled (w : Written) : Nat := if w.decoration.isEmpty then 0 else 1

/-- The number of rows of a layout. -/
def rowsIn (layout : Layout) : Nat :=
  (layout.arguments.map fun a => match a.content with
    | .rows rows => rows.length
    | _ => 0).foldr (· + ·) 0

/-- The number of rows of an entry. -/
def rowCount : Written → Nat
  | constraint layout _ => rowsIn layout
  | group template _ _ => rowsIn template
  | slide _ _ _ template _ => rowsIn template
  | _ => 0

end Written
end CspModel
