import CspModel.Text.ClusterTable
import CspModel.Text.CodeRange

/-! # Characters as a reader sees them

A reader takes a letter and the marks on it for one character.  A text is cut into
such clusters by the rules of the Unicode standard: between two characters the text
is cut unless they belong together.  Whether they do depends on their classes, and
for flags, pictographs and conjuncts also on what precedes them in their cluster.

The rules are restated here after their documentation (extended grapheme clusters,
Unicode 17.0).  Only the casing of names uses them, and no theorem depends on them.
-/
namespace CspModel
namespace Text

/-- What a character has to do with its neighbours. -/
inductive JoinClass where
  | carriageReturn
  | lineFeed
  /-- Stands alone, as the two characters that end a line do. -/
  | control
  | extender
  /-- The zero width joiner. -/
  | joiner
  | spacingMark
  | prepended
  /-- A consonant that begins a Hangul syllable. -/
  | leadingJamo
  | vowelJamo
  /-- A consonant that ends a Hangul syllable. -/
  | trailingJamo
  /-- A Hangul syllable that ends in its vowel. -/
  | openSyllable
  /-- A Hangul syllable that ends in a consonant. -/
  | closedSyllable
  /-- A letter of a flag, which has two of them. -/
  | regional
  | pictograph
  | consonant
  | other
deriving DecidableEq

/-- The class of a character.  The composed Hangul syllables stand in the order of
their consonants and vowels, each open one ahead of the closed ones made from it with
the twenty-seven final consonants. -/
def joinClass (c : Char) : JoinClass :=
  if c = '\r' then .carriageReturn
  else if c = '\n' then .lineFeed
  else if c.toNat = 0x200D then .joiner
  else if inRanges controlRanges c then .control
  else if inRanges extenderRanges c then .extender
  else if inRanges spacingMarkRanges c then .spacingMark
  else if inRanges prependedRanges c then .prepended
  else if inRanges leadingJamoRanges c then .leadingJamo
  else if inRanges vowelJamoRanges c then .vowelJamo
  else if inRanges trailingJamoRanges c then .trailingJamo
  else if inRanges [(0xAC00, 0xD7A3)] c then
    if (c.toNat - 0xAC00) % 28 = 0 then .openSyllable else .closedSyllable
  else if inRanges [(0x1F1E6, 0x1F1FF)] c then .regional
  else if inRanges pictographicRanges c then .pictograph
  else if inRanges consonantRanges c then .consonant
  else .other

/-- Whether the character links two consonants. -/
def isLinker (c : Char) : Bool := inRanges linkerRanges c

/-- Whether the character can stand within a conjunct: a linker, a mark or the zero
width joiner, but not the zero width non-joiner, which keeps consonants apart. -/
def isWithinConjunct (c : Char) : Bool :=
  c.toNat != 0x200C && (joinClass c = .extender || joinClass c = .joiner)

/-- Whether a consonant now would complete a conjunct: a linker has come since the last
consonant.  The characters are those before it, the last one first. -/
def awaitsConsonant (before : List Char) : Bool :=
  (before.takeWhile isWithinConjunct).any isLinker &&
    (before.dropWhile isWithinConjunct).head?.any (joinClass · = .consonant)

/-- Whether the characters, the last one first, end in a pictograph with its marks. -/
def endsInPictograph (before : List Char) : Bool :=
  (before.dropWhile (joinClass · = .extender)).head?.any (joinClass · = .pictograph)

/-- Whether the characters, the last one first, end in the first half of a flag. -/
def awaitsRegional (before : List Char) : Bool :=
  (before.takeWhile (joinClass · = .regional)).length % 2 = 1

/-- Whether a cluster goes on with the character `c` after the character `last`, which
comes after `before`, the last one first. -/
def joins (before : List Char) (last c : Char) : Bool :=
  match joinClass last, joinClass c with
  | .carriageReturn, .lineFeed => true
  | .carriageReturn, _ | .lineFeed, _ | .control, _ => false
  | _, .carriageReturn | _, .lineFeed | _, .control => false
  | _, .extender | _, .joiner | _, .spacingMark => true
  | .prepended, _ => true
  | .leadingJamo, .leadingJamo | .leadingJamo, .vowelJamo => true
  | .leadingJamo, .openSyllable | .leadingJamo, .closedSyllable => true
  | .openSyllable, .vowelJamo | .openSyllable, .trailingJamo => true
  | .vowelJamo, .vowelJamo | .vowelJamo, .trailingJamo => true
  | .closedSyllable, .trailingJamo | .trailingJamo, .trailingJamo => true
  | _, .consonant => awaitsConsonant (last :: before)
  | .joiner, .pictograph => endsInPictograph before
  | .regional, .regional => awaitsRegional (last :: before)
  | _, _ => false

/-- The clusters of a text that is under way: the cluster begun consists of `before`, the
last character first, and `last`. -/
def clustersFrom (before : List Char) (last : Char) : List Char → List (List Char)
  | [] => [(last :: before).reverse]
  | c :: rest =>
    if joins before last c then clustersFrom (last :: before) c rest
    else (last :: before).reverse :: clustersFrom [] c rest

/-- The clusters of a text. -/
def clusters : List Char → List (List Char)
  | [] => []
  | c :: rest => clustersFrom [] c rest

end Text
end CspModel
