import CspModel.Text.Casing

/-! # Tags

A tag is an advisory label on posted constraints.  It is written as a class and
never changes what the constraints mean.
-/
namespace CspModel

/-- A label on constraints. -/
inductive Tag where
  | symmetryBreaking
  | redundantConstraints
  | clues
  /-- Any other label, written in camel case. -/
  | custom (label : String)
deriving DecidableEq

/-- The class a tag is written as. -/
def Tag.text : Tag → String
  | symmetryBreaking => "symmetryBreaking"
  | redundantConstraints => "redundantConstraints"
  | clues => "clues"
  | custom label => Text.Casing.camel.apply label

end CspModel
