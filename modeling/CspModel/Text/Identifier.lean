/-! # Identifiers

The names of variables, arrays and automaton states are identifiers: an ASCII
letter or an underscore, followed by ASCII letters, digits and underscores.
-/
namespace CspModel
namespace Text

/-- The characters an identifier can begin with. -/
def isIdentifierStart (c : Char) : Bool := c.isAlpha || c == '_'

/-- The characters an identifier can go on with. -/
def isIdentifierRest (c : Char) : Bool := c.isAlphanum || c == '_'

/-- Whether the text is an identifier. -/
def isIdentifier (text : String) : Bool :=
  match text.toList with
  | [] => false
  | first :: rest => isIdentifierStart first && rest.all isIdentifierRest

end Text
end CspModel
