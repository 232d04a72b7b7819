/-! # Options of a compilation -/
namespace CspModel

/-- How tables with wildcards are written. -/
inductive TableForm where
  /-- Wildcards are kept; ranges are expanded. -/
  | compact
  /-- Wildcards and ranges are expanded over the domain of their column. -/
  | expanded
deriving DecidableEq

/-- How a model is compiled. -/
structure Options where
  tableForm : TableForm := .compact
  /-- Fold similar constraints posted together into groups. -/
  groupConstraints : Bool := true
  /-- Write a slide as one element when its windows can be recognised. -/
  recognizeSlides : Bool := true
  /-- Write equalities between variables and constants as one instantiation. -/
  recognizeInstantiations : Bool := true
  /-- A domain text with more bytes than this is written once and referred to after. -/
  shareDomainsAbove : Nat := 0
  /-- Write runs of array cells and of equal integers as one token. -/
  compactLists : Bool := true
  /-- Write the notes of constraints. -/
  notes : Bool := true
deriving DecidableEq

end CspModel
