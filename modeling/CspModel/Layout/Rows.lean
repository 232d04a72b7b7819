import CspModel.Layout.Written
import CspModel.Notice
import CspModel.Options
import CspModel.Store

/-! # The rows of a table

A posted table is written as rows of integers, symbols and wildcards.  A range is
expanded over the values of its column when they are bounded, and over its own
values otherwise, up to a limit.  A wildcard is kept in compact tables and
expanded over the values of its column in expanded ones; a table that still holds
a wildcard is marked as starred.  The rows ascend strictly.

A column stands for one variable, for one variable of every instance of a group,
or for any variable of the list of a slide; its domain is the union of theirs.
-/
namespace CspModel
namespace Rows

/-- Wildcards are expanded over domains with at most so many values. -/
def expansionLimit : Nat := 1000

/-- Ranges over columns without bounds are expanded up to so many values. -/
def rangeLimit : Int := 100000

/-- Whether a domain is bounded. -/
def isBounded (d : Domain) : Bool := d.size.isSome

/-- Whether an entry is a range that cannot be expanded. -/
def isTooWide (entry : TableEntry) (column : Option Domain) : Bool :=
  match entry with
  | .range inf sup => !column.any isBounded && rangeLimit ≤ sup - inf
  | _ => false

/-- The integers from `inf` to `sup`. -/
def integersFrom (inf sup : Int) : List Int :=
  (List.range (sup - inf + 1).toNat).map fun (k : Nat) => inf + (k : Int)

/-- The values of a range that the column can take. -/
def rangeCells (inf sup : Int) (column : Option Domain) : Except TableError (List RowCell) :=
  match column.filter isBounded with
  | some d => .ok (((d.restrictedTo? inf sup).map Domain.integers).getD [] |>.map .integer)
  | none =>
    if rangeLimit ≤ sup - inf then .error (.rangeTooWide inf sup)
    else .ok ((integersFrom inf sup).map .integer)

/-- The values a wildcard is expanded to, if the column has few enough. -/
def wildcardCells? (column : Option Domain) : Option (List RowCell) :=
  match column with
  | none => none
  | some d =>
    if d.size.any (· ≤ expansionLimit) then
      some (match d.kind with
        | .integer => d.integers.map .integer
        | .symbolic => d.symbols.map .symbol)
    else none

/-- Whether a wildcard that should be expanded has to be kept. -/
def isKept (form : TableForm) (entry : TableEntry) (column : Option Domain) : Bool :=
  form == .expanded && entry == .any && (wildcardCells? column).isNone

/-- The cells an entry of a tuple is expanded to. -/
def cells (form : TableForm) (entry : TableEntry) (column : Option Domain) :
    Except TableError (List RowCell) :=
  match entry with
  | .integer value => .ok [.integer value]
  | .symbol text => .ok [.symbol text]
  | .range inf sup => rangeCells inf sup column
  | .any =>
    match form with
    | .compact => .ok [.any]
    | .expanded => .ok ((wildcardCells? column).getD [.any])

/-- All ways of taking one element of every list. -/
def choices {α : Type} : List (List α) → List (List α)
  | [] => [[]]
  | first :: rest =>
    let tails := choices rest
    first.flatMap fun a => tails.map (a :: ·)

/-- The entries of a tuple with the domains of their columns. -/
def placesIn (columns : List (Option Domain)) (tuple : List TableEntry) :
    List (TableEntry × Option Domain) :=
  tuple.zipIdx.map fun (entry, column) => (entry, columns[column]?.join)

/-- The rows a tuple is expanded to. -/
def ofTuple (form : TableForm) (columns : List (Option Domain)) (tuple : List TableEntry) :
    Except TableError (List (List RowCell)) :=
  ((placesIn columns tuple).mapM fun (entry, column) => cells form entry column).map choices

/-- The rows of a table. -/
def ofTable (form : TableForm) (columns : List (Option Domain)) (table : Table) :
    Except TableError (List (List RowCell)) :=
  (table.tuples.mapM (ofTuple form columns)).map fun rows => Ascending.ofList rows.flatten

/-! ### Tables of layouts -/

/-- The list and the table of a layout that has one. -/
def tableOf? (layout : Layout) : Option (List Parameter × Table) :=
  match layout.name, layout.arguments with
  | "extension", ⟨_, _, .parameters list⟩ :: ⟨_, _, .table table⟩ :: _ => some (list, table)
  | _, _ => none

/-- The layout with rows in the place of its table. -/
def withRows (layout : Layout) (rows : List (List RowCell)) : Layout :=
  { layout with
    attributes :=
      if rows.any (·.contains .any) then layout.attributes ++ [("starred", "true")]
      else layout.attributes
    arguments := match layout.arguments with
      | list :: table :: rest => list :: { table with content := .rows rows } :: rest
      | arguments => arguments }

/-- The parameters of the columns of a table: all arguments stand for as many
placeholders as the table has columns. -/
def columnParameters (list : List Parameter) (table : Table) : List Parameter :=
  match list with
  | [.allPlaceholders] => (List.range (table.tuples.headD []).length).map .placeholder
  | list => list

/-- The domains of the columns of a table, where `variablesOf` tells the variables a
parameter stands for. -/
def columnDomains (s : Store) (variablesOf : Parameter → List Variable) (list : List Parameter)
    (table : Table) : List (Option Domain) :=
  (columnParameters list table).map fun p => Domain.union? ((variablesOf p).map s.domainOf)

/-- The layout with its table, if it has one, turned into rows. -/
def materialize (s : Store) (form : TableForm) (variablesOf : Parameter → List Variable)
    (layout : Layout) : Except TableError Layout :=
  match tableOf? layout with
  | none => .ok layout
  | some (list, table) =>
    (ofTable form (columnDomains s variablesOf list table) table).map (withRows layout)

/-- The entries of the table of a layout with the domains of their columns. -/
def places (s : Store) (variablesOf : Parameter → List Variable) (layout : Layout) :
    List (TableEntry × Option Domain) :=
  match tableOf? layout with
  | none => []
  | some (list, table) =>
    table.tuples.flatMap (placesIn (columnDomains s variablesOf list table))

/-- The variable a parameter of a constraint stands for. -/
def ownVariables : Parameter → List Variable
  | .var v => [v]
  | _ => []

/-- The variables a parameter of a template stands for, one of every instance. -/
def instanceVariables (arguments : List (List Parameter)) : Parameter → List Variable
  | .var v => [v]
  | .placeholder number =>
    arguments.flatMap fun instances => ((instances[number]?).map ownVariables).getD []
  | _ => []

mutual
/-- An entry with all tables turned into rows. -/
def ofEntry (s : Store) (form : TableForm) : Written → Except TableError Written
  | .constraint layout d =>
    (materialize s form ownVariables layout).map fun layout => .constraint layout d
  | .group template arguments d =>
    (materialize s form (instanceVariables arguments) template).map fun template =>
      .group template arguments d
  | .slide list offset circular template d =>
    (materialize s form (fun _ => list) template).map fun template =>
      .slide list offset circular template d
  | .equalities list values d => .ok (.equalities list values d)
  | .block entries d => (ofEntries s form entries).map fun entries => .block entries d

/-- Entries with all tables turned into rows. -/
def ofEntries (s : Store) (form : TableForm) : List Written → Except TableError (List Written)
  | [] => .ok []
  | w :: rest => (ofEntry s form w).bind fun w => (ofEntries s form rest).map (w :: ·)
end

mutual
/-- The entries of the tables of an entry in the order in which they are expanded. -/
def placesOf (s : Store) : Written → List (TableEntry × Option Domain)
  | .constraint layout _ => places s ownVariables layout
  | .group template arguments _ => places s (instanceVariables arguments) template
  | .slide list _ _ template _ => places s (fun _ => list) template
  | .equalities _ _ _ => []
  | .block entries _ => placesOfAll s entries

/-- The entries of the tables of several entries. -/
def placesOfAll (s : Store) : List Written → List (TableEntry × Option Domain)
  | [] => []
  | w :: rest => placesOf s w ++ placesOfAll s rest
end

/-- Every wildcard that should be expanded and is kept is noticed, up to the first
range that cannot be expanded. -/
def notices (s : Store) (form : TableForm) (entries : List Written) : List Notice :=
  let reached := (placesOfAll s entries).takeWhile fun (entry, column) => !isTooWide entry column
  (reached.filter fun (entry, column) => isKept form entry column).map fun _ => .keptWildcard

end Rows
end CspModel
