import CspModel.Document.Basic
import CspModel.Grouping.Basic
import CspModel.Layout.Labels
import CspModel.Layout.Rows
import CspModel.Xml.Writer

/-! # Compiling a model

Compiling freezes a model and turns its contents into a document: auxiliary
variables are introduced, similar constraints are folded, tables are turned into
rows, and labels and annotations are settled.  The contents of the model are not
changed, so compiling it again gives the same document.
-/
namespace CspModel

/-- The document of a model with what was counted while it was made. -/
structure Compiled where
  document : Element
  /-- The name of the document without extension. -/
  fileStem : String
  statistics : Statistics

namespace Compiled

/-- The text of the document. -/
def text (c : Compiled) : Except InvalidIdentifier String := c.document.write

end Compiled

namespace Introduced

/-- How the constraints are folded. -/
def grouping (p : Introduced) (options : Options) : Grouping := ⟨options, p.store.nameOf⟩

/-- The entries before tables are turned into rows. -/
def entries (p : Introduced) (options : Options) : List Written :=
  (p.grouping options).write p.postings

end Introduced

namespace Model

/-- Counts of a problem that was compiled from the model. -/
def statisticsOf (m : Model) (p : Introduced) (entries : List Written) : Statistics where
  declared := m.store.infos.size
  auxiliaryVariables := p.auxiliaries
  constraints := p.constraintCount
  groups := Written.totalOf Written.isGroup entries
  groupedConstraints := Written.totalOf Written.instanceCount entries
  slides := Written.totalOf Written.isSlide entries
  instantiations := Written.totalOf Written.isEqualities entries
  blocks := Written.totalOf Written.isBlock entries
  materializedTuples := Written.totalOf Written.rowCount entries
  taggedEntries := Written.totalOf Written.isLabelled entries

/-- The document of the model whose entries are final. -/
def finish (m : Model) (options : Options) (p : Introduced) (entries : List Written) :
    Compiled × List Notice :=
  let entries := if options.notes then entries else Written.dropNotesAll entries
  let problem : Problem := ⟨p.store, entries, p.objective, m.annotations.withoutRepeats⟩
  let statistics := m.statisticsOf p entries
  (⟨Document.ofProblem options.compactLists options.shareDomainsAbove problem,
      m.instanceName.fileStem, statistics⟩,
    m.annotations.notices ++
      [.compiled statistics.constraints statistics.declared statistics.auxiliaryVariables])

/-- The document of the model, with the notices, of which there can be some even when
there is no document. -/
def build (m : Model) (options : Options) : Except ModelError Compiled × List Notice :=
  match Introduced.ofModel m with
  | .error cause => (.error cause, [])
  | .ok p =>
    let entries := p.entries options
    let notices := (p.grouping options).notices p.postings ++
      Rows.notices p.store options.tableForm entries
    match Rows.ofEntries p.store options.tableForm entries with
    | .error cause => (.error (.table cause), notices)
    | .ok entries =>
      let (compiled, more) := m.finish options p entries
      (.ok compiled, notices ++ more)

/-- A model is built exactly when its auxiliary variables can be introduced and its tables
turned into rows. -/
theorem build_eq_ok {m : Model} {options : Options} {c : Compiled} :
    (m.build options).1 = .ok c ↔ ∃ p entries, Introduced.ofModel m = .ok p ∧
      Rows.ofEntries p.store options.tableForm (p.entries options) = .ok entries ∧
      c = (m.finish options p entries).1 := by
  unfold build
  cases Introduced.ofModel m with
  | error cause => simp
  | ok p =>
    dsimp only
    cases hentries : Rows.ofEntries p.store options.tableForm (p.entries options) with
    | error cause => simp [hentries]
    | ok entries => simp [hentries, eq_comm]

theorem build_eq_error {m : Model} {cause : ModelError} (h : Introduced.ofModel m = .error cause)
    (options : Options) : m.build options = (.error cause, []) := by
  unfold build
  rw [h]

/-- Freezes the model and compiles it. -/
def compile (m : Model) (options : Options) :
    Model × Except ModelError Compiled × List Notice :=
  ({ m with frozen := true }, m.build options)

end Model
end CspModel
