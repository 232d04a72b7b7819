import CspModel.Text.Blank
import CspModel.Xml.Token

/-! # Elements

A document is a tree of elements.  An element has a name, attributes in the order
in which they were first set, possibly a text, and children.
-/
namespace CspModel

/-- A node of a document. -/
structure Element where
  name : String
  /-- Each key at most once. -/
  attributes : List (String × String) := []
  /-- Without blanks at its ends. -/
  text : Option String := none
  children : List Element := []

namespace Element

/-- The element of a token, without content. -/
def ofToken (t : Token) : Element := { name := t.text }

/-- Sets the value of a key; a key that is there keeps its position. -/
def setAttribute (key value : String) : List (String × String) → List (String × String)
  | [] => [(key, value)]
  | (k, v) :: rest =>
    if k = key then (k, value) :: rest else (k, v) :: setAttribute key value rest

/-- The element with an attribute set. -/
def withKey (e : Element) (key value : String) : Element :=
  { e with attributes := setAttribute key value e.attributes }

/-- The element with an attribute of the vocabulary set. -/
def withAttribute (e : Element) (key : Token) (value : String) : Element :=
  e.withKey key.text value

/-- The element with attributes set one after the other. -/
def withAttributes (e : Element) (attributes : List (String × String)) : Element :=
  attributes.foldl (fun e (key, value) => e.withKey key value) e

/-- The element with a text; blanks at the ends of the text are dropped. -/
def withText (e : Element) (text : String) : Element := { e with text := some (Text.trim text) }

/-- The element with one more child. -/
def withChild (e : Element) (child : Element) : Element :=
  { e with children := e.children ++ [child] }

/-- The element with more children. -/
def withChildren (e : Element) (children : List Element) : Element :=
  { e with children := e.children ++ children }

/-- The value of an attribute. -/
def attribute? (e : Element) (key : String) : Option String := e.attributes.lookup key

theorem lookup_setAttribute_self (key value : String) (attributes : List (String × String)) :
    (setAttribute key value attributes).lookup key = some value := by
  induction attributes with
  | nil => simp [setAttribute]
  | cons a rest ih =>
    obtain ⟨k, v⟩ := a
    unfold setAttribute
    split
    · rename_i h
      simp [h]
    · rename_i h
      rw [List.lookup_cons]
      split
      · rename_i hk
        exact absurd (beq_iff_eq.mp hk).symm h
      · exact ih

theorem attribute?_withKey_self (e : Element) (key value : String) :
    (e.withKey key value).attribute? key = some value :=
  lookup_setAttribute_self key value e.attributes

/-- Whether there is neither a text nor a child. -/
def isEmpty (e : Element) : Bool := e.children.isEmpty && e.text.isNone

end Element
end CspModel
