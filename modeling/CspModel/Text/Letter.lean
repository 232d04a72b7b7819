import CspModel.Text.CaseTable
import CspModel.Text.CasedTable
import CspModel.Text.CodeRange

/-! # Upper and lower case

The upper-case and lower-case forms of texts, after the case mappings of the
Unicode standard.  A mapping can turn one character into several.  The Greek
capital sigma is the one letter whose lower-case form depends on its place: at
the end of a word it is the final sigma.  A word ends where the nearest character
before that is not passed over has case and the nearest after has none.

The mappings are restated here after their documentation (Unicode 17.0).  Only the
casing of names uses them, and no theorem depends on them.
-/
namespace CspModel
namespace Text

/-- The image of a code point under the mapping by ranges, if it is in one. -/
def shifted? (ranges : List CaseRange) (code : Nat) : Option Nat :=
  (ranges.find? fun r =>
      r.first ≤ code && code ≤ r.last && (code - r.first) % r.stride == 0).map fun r =>
    ((code : Int) + r.shift).toNat

/-- The image of a character, which is the character itself when nothing is listed for
it. -/
def mapCase (ranges : List CaseRange) (sequences : List (Nat × List Nat)) (c : Char) :
    List Char :=
  match sequences.lookup c.toNat with
  | some codes => codes.map Char.ofNat
  | none =>
    match shifted? ranges c.toNat with
    | some code => [Char.ofNat code]
    | none => [c]

/-- The lower-case form of a character, regardless of its place. -/
def lowerOf (c : Char) : List Char := mapCase lowerRanges lowerSequences c

/-- The upper-case form of a character. -/
def upperOf (c : Char) : List Char := mapCase upperRanges upperSequences c

/-- Whether a character has case.  Letters without a form in the other case are among
them, and so are the modifier letters that are written like small ones. -/
def isCased (c : Char) : Bool := inRanges casedRanges c

/-- Whether a character is passed over when the end of a word is looked for. -/
def isCaseIgnorable (c : Char) : Bool := inRanges caseIgnorableRanges c

/-- Whether the first character that is not passed over has case. -/
def meetsCased (chars : List Char) : Bool :=
  match chars.dropWhile isCaseIgnorable with
  | [] => false
  | c :: _ => isCased c

/-- The lower-case form of the rest of a text; `before` is what precedes it, the last
character first. -/
def lowerFrom (before : List Char) : List Char → List Char
  | [] => []
  | c :: rest =>
    (if c = 'Σ' then [if meetsCased before && !meetsCased rest then 'ς' else 'σ'] else lowerOf c) ++
      lowerFrom (c :: before) rest

/-- The lower-case form of a text. -/
def toLower (chars : List Char) : List Char := lowerFrom [] chars

/-- The upper-case form of a text. -/
def toUpper (chars : List Char) : List Char := chars.flatMap upperOf

end Text
end CspModel
