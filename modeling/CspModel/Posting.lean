import CspModel.Constraint.Build
import CspModel.Tag

/-! # What is posted to a model

An item is a constraint, an expression, an aggregate or a list of items to any
depth.  It is flattened into constraints in the order they stand in it.  The
constraints of one item are posted together, with the labels given to them; only
constraints posted together are ever folded into a group.
-/
namespace CspModel

/-- Anything that can be handed to a model as constraints. -/
inductive Item where
  | constraint (c : Constraint)
  /-- A predicate. -/
  | expression (e : Expr)
  /-- A function without a comparison, which is always refused. -/
  | aggregate (f : Aggregate Expr)
  | list (items : List Item)

namespace Item

def isList : Item → Bool
  | list _ => true
  | _ => false

mutual
/-- The constraints of an item. -/
def flatten : Item → Except ModelError (List Constraint)
  | constraint c => .ok [c]
  | expression e => (Constraint.intension e).map fun c => [c]
  | aggregate f => .error (.arity (.incomplete f.kind))
  | list items => flattenAll items

/-- The constraints of several items. -/
def flattenAll : List Item → Except ModelError (List Constraint)
  | [] => .ok []
  | item :: rest => (flatten item).bind fun here => (flattenAll rest).map (here ++ ·)
end

end Item

theorem Tag.nodup_nil : ([] : List Tag).Nodup := .nil

theorem Tag.nodup_singleton (tag : Tag) : [tag].Nodup := List.pairwise_singleton _ tag

/-- The labels of one posting. -/
structure Decoration where
  classes : List Tag := []
  note : Option String := none
  /-- No class is there twice. -/
  nodup : classes.Nodup := by first | exact Tag.nodup_nil | exact Tag.nodup_singleton _
deriving DecidableEq

namespace Decoration

def isEmpty (d : Decoration) : Bool := d.classes.isEmpty && d.note.isNone

/-- Adds a tag, unless it is there already. -/
def addTag (d : Decoration) (tag : Tag) : Decoration :=
  if h : tag ∈ d.classes then d
  else
    { d with
      classes := d.classes ++ [tag]
      nodup := List.nodup_append.mpr ⟨d.nodup, Tag.nodup_singleton tag,
        fun _ ha _ hb hab => h (List.mem_singleton.mp hb ▸ hab ▸ ha)⟩ }

end Decoration

/-- The constraints of a posting: one alone, or a list posted together. -/
inductive Body where
  | single (c : Constraint)
  | gather (constraints : List Constraint)

namespace Body

def constraints : Body → List Constraint
  | single c => [c]
  | gather constraints => constraints

def isGather : Body → Bool
  | single _ => false
  | gather _ => true

/-- One constraint alone, any other number together. -/
def ofList : List Constraint → Body
  | [c] => single c
  | constraints => gather constraints

@[simp] theorem constraints_ofList (list : List Constraint) : (ofList list).constraints = list := by
  unfold ofList
  split <;> rfl

end Body

/-- Constraints posted together with their labels. -/
structure Posting where
  body : Body
  decoration : Decoration := {}

end CspModel
