import CspModel.Text.Cluster
import CspModel.Text.Letter

/-! # Casings of compound names

A name is cut into words, the words are put into one case pattern and joined by a
delimiter.  Underscores, hyphens and blanks separate words and are dropped.  A new
word also begins where a lower-case letter is followed by an upper-case one, where
a letter meets a digit, and at the last capital of a row of capitals that is
followed by a lower-case letter.

These are the documented rules of a common library for casing, restated, since the
classes of custom tags and the names in printed statistics are cased by them.  No
theorem depends on them: what is proved of labels holds whatever a tag is written as.
-/
namespace CspModel
namespace Text

/-- Whether a cluster is a letter in upper case. -/
def isUpperCluster (cluster : List Char) : Bool :=
  toUpper cluster != toLower cluster && cluster == toUpper cluster

/-- Whether a cluster is a letter in lower case. -/
def isLowerCluster (cluster : List Char) : Bool :=
  toUpper cluster != toLower cluster && cluster == toLower cluster

/-- Whether a cluster is a decimal digit. -/
def isDigitCluster (cluster : List Char) : Bool := cluster.all Char.isDigit

/-- Whether the cluster only separates words. -/
def isSeparator (cluster : List Char) : Bool :=
  cluster == ['_'] || cluster == ['-'] || cluster == [' ']

/-- Whether a word ends between two clusters. -/
def isBoundary (before after : List Char) : Bool :=
  (isLowerCluster before && isUpperCluster after) ||
    ((isUpperCluster before || isLowerCluster before) && isDigitCluster after) ||
    (isDigitCluster before && (isUpperCluster after || isLowerCluster after))

/-- Whether a word begins at `here`, after `before` and ahead of `after`. -/
def beginsWord (before : Option (List Char)) (here : List Char) (after : Option (List Char)) :
    Bool :=
  match before with
  | none => false
  | some before =>
    isBoundary before here ||
      (isUpperCluster before && isUpperCluster here && after.any isLowerCluster)

/-- The words of the remaining clusters; `word` is the word begun, its last cluster
first. -/
def wordsFrom (before : Option (List Char)) (word : List (List Char)) :
    List (List Char) → List (List (List Char))
  | [] => [word.reverse]
  | here :: rest =>
    if isSeparator here then word.reverse :: wordsFrom (some here) [] rest
    else if beginsWord before here rest.head? then
      word.reverse :: wordsFrom (some here) [here] rest
    else wordsFrom (some here) (here :: word) rest

/-- The words of a name. -/
def words (name : String) : List (List Char) :=
  ((wordsFrom none [] (clusters name.toList)).filter (!·.isEmpty)).map List.flatten

/-- How the words of a name are cased. -/
inductive WordPattern where
  | lower
  | upper
  /-- Every word begins in upper case and goes on in lower case. -/
  | capital
  /-- Every word begins in lower case and goes on in upper case. -/
  | toggle
  /-- The first word in lower case, the others capitalised. -/
  | camel
  /-- Letters in lower and upper case by turns. -/
  | alternating
deriving DecidableEq

/-- The first character cased by one function and those after it, as a text of their
own, by another. -/
def caseWord (first : Char → List Char) (rest : List Char → List Char) : List Char → List Char
  | [] => []
  | c :: others => first c ++ rest others

/-- The characters with letters in lower and upper case by turns, and whether the
next letter is in upper case. -/
def alternate (upper : Bool) : List Char → List Char × Bool
  | [] => ([], upper)
  | c :: rest =>
    if isCased c then
      let (chars, next) := alternate (!upper) rest
      ((if upper then upperOf c else lowerOf c) ++ chars, next)
    else
      let (chars, next) := alternate upper rest
      (c :: chars, next)

/-- The words with letters in lower and upper case by turns through all of them. -/
def alternateWords (upper : Bool) : List (List Char) → List (List Char)
  | [] => []
  | word :: rest =>
    let (chars, next) := alternate upper word
    chars :: alternateWords next rest

/-- The words put into a pattern. -/
def WordPattern.applyTo (pattern : WordPattern) (words : List (List Char)) :
    List (List Char) :=
  match pattern with
  | lower => words.map toLower
  | upper => words.map toUpper
  | capital => words.map (caseWord upperOf toLower)
  | toggle => words.map (caseWord lowerOf toUpper)
  | camel =>
    match words with
    | [] => []
    | first :: others => toLower first :: others.map (caseWord upperOf toLower)
  | alternating => alternateWords false words

/-- A casing: a pattern for the words and what stands between them. -/
structure Casing where
  pattern : WordPattern
  delimiter : String
deriving DecidableEq

namespace Casing

/-- The first word in lower case, the others capitalised, and nothing between them. -/
def camel : Casing := ⟨.camel, ""⟩

/-- Capitalised words with nothing between them. -/
def pascal : Casing := ⟨.capital, ""⟩

/-- Words in lower case with nothing between them. -/
def flat : Casing := ⟨.lower, ""⟩

/-- Words in upper case with nothing between them. -/
def upperFlat : Casing := ⟨.upper, ""⟩

/-- Words in lower case joined by underscores. -/
def snake : Casing := ⟨.lower, "_"⟩

/-- Words in upper case joined by underscores. -/
def upperSnake : Casing := ⟨.upper, "_"⟩

/-- Words in lower case joined by hyphens. -/
def kebab : Casing := ⟨.lower, "-"⟩

/-- Words in upper case joined by hyphens. -/
def upperKebab : Casing := ⟨.upper, "-"⟩

/-- Capitalised words joined by hyphens. -/
def train : Casing := ⟨.capital, "-"⟩

/-- Words in lower case separated by blanks. -/
def lower : Casing := ⟨.lower, " "⟩

/-- Words in upper case separated by blanks. -/
def upper : Casing := ⟨.upper, " "⟩

/-- Capitalised words separated by blanks. -/
def title : Casing := ⟨.capital, " "⟩

/-- Words that begin in lower case and go on in upper case, separated by blanks. -/
def toggle : Casing := ⟨.toggle, " "⟩

/-- Words with letters in lower and upper case by turns, separated by blanks. -/
def alternating : Casing := ⟨.alternating, " "⟩

/-- The name in the casing. -/
def apply (casing : Casing) (name : String) : String :=
  casing.delimiter.intercalate ((casing.pattern.applyTo (words name)).map String.ofList)

end Casing
end Text
end CspModel
