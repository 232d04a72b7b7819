import CspModel.Text.Identifier
import CspModel.Xml.Element

/-! # Writing documents

Every element begins on a line of its own, indented by two blanks for each level,
and a text is padded with one blank on both sides.  The characters with a meaning
in markup are escaped.  Before anything is written, the values that have to be
identifiers are checked in the order of the document.
-/
namespace CspModel

/-- An attribute that should hold an identifier holds something else. -/
structure InvalidIdentifier where
  key : String
  value : String
deriving DecidableEq

def InvalidIdentifier.message (e : InvalidIdentifier) : String :=
  "'" ++ e.value ++ "' is not a valid identifier for attribute '" ++ e.key ++ "'"

namespace Element

/-- A character of a text; the quotation mark has a meaning in attributes only. -/
def escapeChar (inAttribute : Bool) (c : Char) : List Char :=
  if c = '&' then "&amp;".toList
  else if c = '<' then "&lt;".toList
  else if c = '>' then "&gt;".toList
  else if c = '"' && inAttribute then "&quot;".toList
  else [c]

/-- A text with the characters of markup escaped. -/
def escape (inAttribute : Bool) (text : String) : String :=
  String.ofList (text.toList.flatMap (escapeChar inAttribute))

/-- Two blanks for each level. -/
def indentation (depth : Nat) : String := String.ofList (List.replicate (2 * depth) ' ')

/-- Attributes, each after a blank. -/
def attributesText (attributes : List (String × String)) : String :=
  String.join (attributes.map fun (key, value) => " " ++ key ++ "=\"" ++ escape true value ++ "\"")

/-- A text padded with blanks. -/
def paddedText : Option String → String
  | none => ""
  | some text => " " ++ escape false text ++ " "

mutual
/-- An element at some depth with all that is in it. -/
def render (depth : Nat) : Element → String
  | ⟨name, attributes, text, children⟩ =>
    indentation depth ++ "<" ++ name ++ attributesText attributes ++
      (match text, children with
      | none, [] => "/>\n"
      | text, [] => ">" ++ paddedText text ++ "</" ++ name ++ ">\n"
      | text, first :: rest =>
        ">" ++ paddedText text ++ "\n" ++ render (depth + 1) first ++
          renderAll (depth + 1) rest ++ indentation depth ++ "</" ++ name ++ ">\n")

/-- Several elements, one after the other. -/
def renderAll (depth : Nat) : List Element → String
  | [] => ""
  | e :: rest => render depth e ++ renderAll depth rest
end

/-- Whether the values of an attribute have to be identifiers. -/
def holdsIdentifier (key : String) : Bool := key == Token.id.text || key == Token.sameAs.text

/-- The first attribute that should hold an identifier and does not. -/
def invalidAttribute? (attributes : List (String × String)) : Option InvalidIdentifier :=
  (attributes.find? fun (key, value) => holdsIdentifier key && !Text.isIdentifier value).map
    fun (key, value) => ⟨key, value⟩

mutual
/-- The first such attribute of an element or of what is in it. -/
def invalid? : Element → Option InvalidIdentifier
  | ⟨_, attributes, _, children⟩ =>
    match invalidAttribute? attributes with
    | some found => some found
    | none => invalidIn? children

/-- The first such attribute of several elements. -/
def invalidIn? : List Element → Option InvalidIdentifier
  | [] => none
  | e :: rest =>
    match invalid? e with
    | some found => some found
    | none => invalidIn? rest
end

/-- The text of a document, unless an identifier in it is not valid. -/
def write (e : Element) : Except InvalidIdentifier String :=
  match e.invalid? with
  | some found => .error found
  | none => .ok (e.render 0)

end Element
end CspModel
