import CspModel.Text.CodeRange

/-! # Blank characters

The characters with the Unicode property `White_Space`, and the text that
remains of a text when it is stripped of them at both ends.
-/
namespace CspModel
namespace Text

/-- The code points with the property `White_Space`, as ranges with both ends
included. -/
def blankRanges : List (Nat × Nat) :=
  [(0x09, 0x0D), (0x20, 0x20), (0x85, 0x85), (0xA0, 0xA0), (0x1680, 0x1680),
    (0x2000, 0x200A), (0x2028, 0x2029), (0x202F, 0x202F), (0x205F, 0x205F),
    (0x3000, 0x3000)]

/-- Whether the character is white space. -/
def isBlank (c : Char) : Bool := inRanges blankRanges c

/-- The characters without the blank ones at both ends. -/
def trimChars (chars : List Char) : List Char :=
  ((chars.dropWhile isBlank).reverse.dropWhile isBlank).reverse

/-- The text without the blank characters at both ends. -/
def trim (text : String) : String := String.ofList (trimChars text.toList)

end Text
end CspModel
