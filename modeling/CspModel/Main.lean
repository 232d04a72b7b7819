import CspModel.Queens

/-! # The command line

Prints the document of the queens problem for the board size given as the
argument.  The options say how the diagonals are constrained and how tables are
written.
-/
namespace CspModel
namespace CommandLine

/-- What the command line asks for. -/
structure Request where
  size : Option Nat := none
  formulation : Queens.Formulation := .intension
  tableForm : TableForm := .compact

/-- The formulation with the given name. -/
def formulation? : String → Option Queens.Formulation
  | "intension" => some .intension
  | "table" => some .table
  | _ => none

/-- The table form with the given name. -/
def tableForm? : String → Option TableForm
  | "compact" => some .compact
  | "expanded" => some .expanded
  | _ => none

/-- Reads the arguments that remain. -/
def read (request : Request) : List String → Option Request
  | [] => some request
  | "--formulation" :: name :: rest =>
    (formulation? name).bind fun formulation => read { request with formulation } rest
  | "-f" :: name :: rest =>
    (formulation? name).bind fun formulation => read { request with formulation } rest
  | "--table-form" :: name :: rest =>
    (tableForm? name).bind fun tableForm => read { request with tableForm } rest
  | size :: rest =>
    match request.size, size.toNat? with
    | none, some size => read { request with size := some size } rest
    | _, _ => none

/-- How the command line is used. -/
def usage : String :=
  "usage: queens <n> [--formulation intension|table] [--table-form compact|expanded]"

end CommandLine
end CspModel

/-- Prints the requested document. -/
def main (arguments : List String) : IO UInt32 := do
  match CspModel.CommandLine.read {} arguments with
  | some { size := some n, formulation, tableForm } =>
    IO.print (CspModel.Queens.document n formulation tableForm)
    return 0
  | _ =>
    IO.eprintln CspModel.CommandLine.usage
    return 2
