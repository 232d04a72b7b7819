/-! # Statistics of a compilation -/
namespace CspModel

/-- Counts gathered while a model is compiled. -/
structure Statistics where
  /-- Declared variables, without auxiliary ones. -/
  declared : Nat := 0
  auxiliaryVariables : Nat := 0
  /-- Constraints with the ones that auxiliary variables bring along, before grouping. -/
  constraints : Nat := 0
  groups : Nat := 0
  groupedConstraints : Nat := 0
  slides : Nat := 0
  instantiations : Nat := 0
  blocks : Nat := 0
  materializedTuples : Nat := 0
  taggedEntries : Nat := 0
deriving DecidableEq

/-- The counts with their names. -/
def Statistics.entries (s : Statistics) : List (String × Nat) :=
  [("variables", s.declared), ("auxiliary_variables", s.auxiliaryVariables),
    ("constraints", s.constraints), ("groups", s.groups),
    ("grouped_constraints", s.groupedConstraints), ("slides", s.slides),
    ("instantiations", s.instantiations), ("blocks", s.blocks),
    ("materialized_tuples", s.materializedTuples), ("tagged_entries", s.taggedEntries)]

end CspModel
