import CspModel.Ascending
import CspModel.Automaton
import CspModel.Auxiliary.Introduction
import CspModel.Auxiliary.Values
import CspModel.Bounded
import CspModel.Compile
import CspModel.Condition
import CspModel.Constraint.Basic
import CspModel.Constraint.Build
import CspModel.Document.Basic
import CspModel.Document.Constraints
import CspModel.Document.ListText
import CspModel.Document.Variables
import CspModel.Domain.Atom
import CspModel.Domain.Basic
import CspModel.Domain.Spec
import CspModel.Error
import CspModel.Expr.Basic
import CspModel.Expr.Build
import CspModel.Expr.Order
import CspModel.Grid
import CspModel.Grouping.Basic
import CspModel.Grouping.Pieces
import CspModel.Grouping.Similar
import CspModel.Grouping.Template
import CspModel.Grouping.Windows
import CspModel.Layout.Basic
import CspModel.Layout.Labels
import CspModel.Layout.Rows
import CspModel.Layout.Written
import CspModel.Main
import CspModel.Model
import CspModel.Notice
import CspModel.Objective
import CspModel.Operator
import CspModel.Options
import CspModel.Posting
import CspModel.Queens
import CspModel.Registry
import CspModel.Statistics
import CspModel.Store
import CspModel.Table
import CspModel.Tag
import CspModel.Text.Blank
import CspModel.Text.CaseTable
import CspModel.Text.CasedTable
import CspModel.Text.Casing
import CspModel.Text.Cluster
import CspModel.Text.ClusterTable
import CspModel.Text.CodeRange
import CspModel.Text.Identifier
import CspModel.Text.Letter
import CspModel.Variable
import CspModel.Xml.Element
import CspModel.Xml.Token
import CspModel.Xml.Writer
import CspModel.Proofs.Evaluation
import CspModel.Proofs.Satisfaction
import CspModel.Proofs.Built
import CspModel.Proofs.Declared
import CspModel.Proofs.Reachable
import CspModel.Proofs.Replacement
import CspModel.Proofs.Settlement
import CspModel.Proofs.Preservation
import CspModel.Proofs.Normal
import CspModel.Proofs.Bounds
import CspModel.Proofs.PossibleValues
import CspModel.Proofs.Predicates
import CspModel.Proofs.Similar
import CspModel.Proofs.Names
import CspModel.Proofs.Inventory
import CspModel.Proofs.Lossless
import CspModel.Proofs.Slides
import CspModel.Proofs.Canonical
import CspModel.Proofs.Addressing
import CspModel.Proofs.Expansion
import CspModel.Proofs.Placement
import CspModel.Proofs.Notation
import CspModel.Proofs.Objectives
import CspModel.Proofs.Tables
import CspModel.Proofs.Extensions
import CspModel.Proofs.Scaling
import CspModel.Proofs.Representation
import CspModel.Proofs.VariablesSection
import CspModel.Proofs.Links
import CspModel.Proofs.Operations
import CspModel.Proofs.Kinds
import CspModel.Proofs.Refusals
import CspModel.Proofs.Atomicity
import CspModel.Proofs.Decorations
import CspModel.Proofs.Suited
import CspModel.Proofs.CellKinds
import CspModel.Proofs.Mentions
import CspModel.Proofs.Worlds
import CspModel.Proofs.Scope
import CspModel.Proofs.Strict.Lookups
import CspModel.Proofs.Strict.Values
import CspModel.Proofs.Strict.Introduction
import CspModel.Proofs.Strict.Templates
import CspModel.Proofs.Strict.Grouping
import CspModel.Proofs.Strict.Rows
import CspModel.Proofs.Strict.ListText
import CspModel.Proofs.Strict.Document
import CspModel.Proofs.Strict.Compile
import CspModel.Proofs.Identifiers
import CspModel.Proofs.Markup
import CspModel.Proofs.Announced
import CspModel.Proofs.Failures
import CspModel.Proofs.Symbols
import CspModel.Proofs.Frames
import CspModel.Proofs.Layouts
import CspModel.Proofs.Origins
import CspModel.Proofs.Outlines
import CspModel.Proofs.Classes
import CspModel.Proofs.Together
import CspModel.Proofs.Texts
import CspModel.Proofs.Composition
import CspModel.Proofs.Waves
import CspModel.Proofs.Attained
import CspModel.Proofs.Queens
import CspModel.Proofs.RowMajor
import CspModel.Proofs.Arrays
