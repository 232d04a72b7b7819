import CspModel.Proofs.Inventory
import CspModel.Proofs.Mentions

/-! # Models side by side

Several models are built at once, and what is handed to one of them may be put together from
handles that any of them gave out.  A change is a sequence of checks: it is refused for the
first check that fails (`Model.outcome_change`), and every handle that stands in it is checked
(`Model.Changes.owned`).  So no handle of another model ever gets into a model, and whatever
stands in a model was declared by it (`World.Reached.declares`).
-/
namespace CspModel

/-! ### What is built stays built over more handles -/

section
variable {known known' : Variable → Prop} (hknown : ∀ v, known v → known' v)
include hknown

theorem Expr.Built.mono {e : Expr} (h : e.Built known) : e.Built known' := by
  induction h using Expr.Built.rec (motive_2 := fun f _ => f.Built known') with
  | const h => exact .const h
  | var h => exact .var (hknown _ h)
  | set h => exact .set h
  | apply _ he ih => exact .apply ih he
  | aggregate _ ih => exact .aggregate ih
  | terms _ hf ih => exact .terms ih hf
  | weightedTerms _ hcs hf ih => exact .weightedTerms ih hcs hf
  | counting _ hlength hvalues hf ih => exact .counting ih hlength hvalues hf
  | distinctValues _ hlength hexcept hf ih => exact .distinctValues ih hlength hexcept hf
  | smallest _ hf ih => exact .smallest ih hf
  | greatest _ hf ih => exact .greatest ih hf
  | elementAt _ _ hstart hf ih ihindex => exact .elementAt ih ihindex hstart hf
  | plus _ _ hf hg => exact .plus hf hg
  | scaled _ hfactor hf => exact .scaled hf hfactor

theorem Aggregate.Built.mono {f : Aggregate Expr} (h : f.Built known) : f.Built known' := by
  cases Expr.Built.mono hknown (.aggregate h) with
  | aggregate h => exact h
  | apply _ h =>
    -- an application is no aggregate
    cases (Expr.applyChecked_eq_ok.mp h).2

theorem Condition.Built.mono {c : Condition} (h : c.Built known) : c.Built known' := by
  cases h with
  | compareTo h => exact .compareTo (h.mono hknown)
  | ofRange => exact .ofRange
  | ofSet => exact .ofSet

theorem Constraint.Built.mono {c : Constraint} (h : c.Built known) : c.Built known' := by
  have hlist : ∀ {list : List Expr}, (∀ e ∈ list, e.Built known) → ∀ e ∈ list, e.Built known' :=
    fun h e he => (h e he).mono hknown
  have hvariables : ∀ {list : List Variable}, (∀ v ∈ list, known v) → ∀ v ∈ list, known' v :=
    fun h v hv => hknown v (h v hv)
  induction h with
  | intension he hc => exact .intension (he.mono hknown) hc
  | extension h hc => exact .extension (hlist h) hc
  | allDifferent h hc => exact .allDifferent (hlist h) hc
  | allEqual h hc => exact .allEqual (hlist h) hc
  | ordered h hc => exact .ordered (hlist h) hc
  | conditional hf hc => exact .conditional (hf.mono hknown) (hc.mono hknown)
  | circuit h hc => exact .circuit (hlist h) hc
  | noOverlap horigins hlengths hc => exact .noOverlap (hlist horigins) (hlist hlengths) hc
  | cumulative horigins hlengths hheights hlimit hc =>
    exact .cumulative (hlist horigins) (hlist hlengths) (hlist hheights) (hlimit.mono hknown) hc
  | instantiation h hc => exact .instantiation (hvariables h) hc
  | lex h hc => exact .lex (fun list hmem => hlist (h list hmem)) hc
  | channel h hc => exact .channel (hvariables h) hc
  | channelBetween h hother hc => exact .channelBetween (hvariables h) (hvariables hother) hc
  | channelValue h hvalue hc => exact .channelValue (hvariables h) (hvalue.mono hknown) hc
  | cardinality h ho hc =>
    exact .cardinality (hlist h) (fun o hmem => ⟨(ho o hmem).1.mono hknown,
      fun e he => ((ho o hmem).2 e he).mono hknown⟩) hc
  | regular h hc => exact .regular (hlist h) hc
  | mdd h hc => exact .mdd (hlist h) hc
  | precedence h hc => exact .precedence (hlist h) hc
  | clause hpositive hnegative hc => exact .clause (hvariables hpositive) (hvariables hnegative) hc
  | slideOf _ hc ih => exact .slideOf ih hc

theorem Item.Built.mono {item : Item} (h : item.Built known) : item.Built known' := by
  induction h with
  | constraint hc => exact .constraint (hc.mono hknown)
  | expression he => exact .expression (he.mono hknown)
  | aggregate hf => exact .aggregate (hf.mono hknown)
  | list _ ih => exact .list ih

theorem Target.Built.mono {t : Target} (h : t.Built known) : t.Built known' := by
  cases h with
  | ofExpr he => exact .ofExpr (he.mono hknown)
  | aggregate hf => exact .aggregate (hf.mono hknown)

end

/-! ### Only known handles stand in what is built -/

section
variable {known : Variable → Prop} {v : Variable}

theorem Expr.Built.knows {e : Expr} (h : e.Built known) (hv : e.Mentions v) : known v :=
  h.wellFormed.knows (mentions_iff.mp hv)

theorem Aggregate.Built.knows {f : Aggregate Expr} (h : f.Built known) (hv : f.Mentions v) :
    known v :=
  Expr.Built.knows (.aggregate h) (.aggregate hv)

theorem Constraint.Built.knows {c : Constraint} (h : c.Built known) (hv : c.Mentions v) :
    known v := by
  obtain ⟨r, hr, e, he, hv⟩ := mem_scope.mp (mentions_iff.mp hv)
  exact ((h.wellFormed r hr).1 e he).knows hv

theorem Item.Built.knows {item : Item} (h : item.Built known) (hv : item.Mentions v) :
    known v := by
  induction h with
  | constraint hc =>
    cases hv with
    | constraint hv => exact hc.knows hv
  | expression he =>
    cases hv with
    | expression hv => exact he.knows hv
  | aggregate hf =>
    cases hv with
    | aggregate hv => exact hf.knows hv
  | list _ ih =>
    cases hv with
    | list hitem hv => exact ih _ hitem hv

theorem Target.Built.knows {t : Target} (h : t.Built known) (hv : t.Mentions v) : known v := by
  rw [mentions_iff, scope, Expr.scope, List.mem_eraseDups] at hv
  cases h with
  | ofExpr he =>
    rw [toExpr_ofExpr] at hv
    exact he.wellFormed.knows hv
  | aggregate hf => exact hf.wellFormed.knows hv

end

/-- The change was put together over the handles that were given out. -/
def Change.Built (known : Variable → Prop) : Change → Prop
  | .addVariable _ d => d.Built
  | .addArray _ _ domainAt => ∀ indices d, domainAt indices = some d → d.Built
  | .post item _ => item.Built known
  | .optimize _ target => target.Built known
  | .annotateDecision list => ∀ v ∈ list, known v
  | .annotateValueHeuristic list _ => ∀ v ∈ list, known v

theorem Change.Built.mono {known known' : Variable → Prop} (hknown : ∀ v, known v → known' v)
    {c : Change} (h : c.Built known) : c.Built known' := by
  cases c with
  | addVariable | addArray => exact h
  | post => exact Item.Built.mono hknown h
  | optimize => exact Target.Built.mono hknown h
  | annotateDecision | annotateValueHeuristic => exact fun v hv => hknown v (h v hv)

theorem Change.Built.knows {known : Variable → Prop} {c : Change} (h : c.Built known)
    {v : Variable} (hv : c.Mentions v) : known v := by
  cases hv with
  | post hv => exact Item.Built.knows h hv
  | optimize hv => exact Target.Built.knows h hv
  | annotateDecision hv | annotateValueHeuristic hv => exact h v hv

/-! ### The checks of a change -/

/-- A check: that a variable belongs to the model, or any other one. -/
inductive Check where
  | owned (v : Variable)
  | other (outcome : Except ModelError Unit)

namespace Check

def outcome (s : Store) : Check → Except ModelError Unit
  | owned v => (s.check v).mapError .scope
  | other outcome => outcome

/-- Makes the checks one after the other, up to the first that fails. -/
def run (s : Store) (checks : List Check) : Except ModelError Unit := checks.forM (outcome s)

variable {s : Store} {checks later : List Check}

@[simp] theorem run_cons {check : Check} :
    run s (check :: checks) = check.outcome s >>= fun _ => run s checks := rfl

theorem run_append : run s (checks ++ later) = run s checks >>= fun _ => run s later := by
  induction checks with
  | nil => rfl
  | cons check checks ih =>
    rw [List.cons_append, run_cons, run_cons, ih, bind_assoc]

end Check

namespace Model

variable {m m' : Model}

mutual
/-- The checks of a constraint: its variables, then what its domains have to be like. -/
def constraintChecks (m : Model) : Constraint → List Check
  | .relation r => (Constraint.relation r).scope.map .owned ++ [.other (m.checkDomains r)]
  | .slide windows => (Constraint.slide windows).scope.map .owned ++ m.checksOfAll windows

/-- The checks of several constraints. -/
def checksOfAll (m : Model) : List Constraint → List Check
  | [] => []
  | c :: rest => m.constraintChecks c ++ m.checksOfAll rest
end

/-- The checks of an item. -/
def itemChecks (m : Model) (item : Item) : List Check :=
  match item.flatten with
  | .error cause => [.other (.error cause)]
  | .ok constraints => m.checksOfAll constraints

/-- The checks of a variable of an objective. -/
def targetChecks (m : Model) (v : Variable) : List Check :=
  [.owned v, .other (if (m.store.domainOf v).isSymbolic then .error (.objective .nonNumeric)
    else .ok ())]

/-- The checks of a change in the order in which they are made. -/
def checks (m : Model) : Change → List Check
  | .addVariable name d =>
    [.other m.checkOpen, .other ((m.store.declareVariable name d).map fun _ => ())]
  | .addArray name shape domainAt =>
    [.other m.checkOpen, .other ((m.store.declareArray name shape domainAt).map fun _ => ())]
  | .post item _ => .other m.checkOpen :: m.itemChecks item
  | .optimize _ target =>
    .other m.checkOpen ::
      .other (if m.objective.isSome then .error (.objective .alreadySet) else .ok ()) ::
      .other (if target.isNumeric then .ok () else .error (.objective .nonNumeric)) ::
      target.scope.flatMap m.targetChecks
  | .annotateDecision list => .other m.checkOpen :: list.map .owned
  | .annotateValueHeuristic list _ => .other m.checkOpen :: list.map .owned

theorem checkScope_eq_run (list : List Variable) :
    m.checkScope list = Check.run m.store (list.map .owned) := by
  induction list with
  | nil => rfl
  | cons v rest ih =>
    rw [checkScope, List.map_cons, Check.run_cons, Check.outcome, ih]
    cases m.store.check v <;> rfl

mutual
theorem validate_eq_run : (c : Constraint) →
    m.validate c = Check.run m.store (m.constraintChecks c)
  | .relation r => by
    rw [validate, constraintChecks, Check.run_append, checkScope_eq_run]
    refine congrArg _ (funext fun _ => ?_)
    rw [Check.run_cons, Check.outcome]
    cases m.checkDomains r <;> rfl
  | .slide windows => by
    rw [validate, constraintChecks, Check.run_append, checkScope_eq_run, validateAll_eq_run]

theorem validateAll_eq_run : (list : List Constraint) →
    m.validateAll list = Check.run m.store (m.checksOfAll list)
  | [] => rfl
  | c :: rest => by
    rw [validateAll, checksOfAll, Check.run_append, validate_eq_run c, validateAll_eq_run rest]
end

theorem owned_mem_map {v : Variable} {list : List Variable} :
    Check.owned v ∈ list.map .owned ↔ v ∈ list := by
  simp

mutual
theorem mentions_of_mem_constraintChecks {v : Variable} : (c : Constraint) →
    .owned v ∈ m.constraintChecks c → c.Mentions v
  | .relation r, h => by
    rw [constraintChecks, List.mem_append, owned_mem_map, List.mem_singleton] at h
    rcases h with h | h
    · exact Constraint.mentions_iff.mpr h
    · cases h
  | .slide windows, h => by
    rw [constraintChecks, List.mem_append, owned_mem_map] at h
    rcases h with h | h
    · exact Constraint.mentions_iff.mpr h
    · obtain ⟨c, hc, h⟩ := exists_mentions_of_mem_checksOfAll windows h
      exact .window hc h

theorem exists_mentions_of_mem_checksOfAll {v : Variable} : (list : List Constraint) →
    .owned v ∈ m.checksOfAll list → ∃ c ∈ list, c.Mentions v
  | c :: rest, h => by
    rw [checksOfAll, List.mem_append] at h
    rcases h with h | h
    · exact ⟨c, List.mem_cons_self, mentions_of_mem_constraintChecks c h⟩
    · obtain ⟨c', hc', h⟩ := exists_mentions_of_mem_checksOfAll rest h
      exact ⟨c', List.mem_cons_of_mem c hc', h⟩
end

/-- Whatever stands in a change that is accepted belongs to the model. -/
theorem Changes.owned {c : Change} (h : m.Changes c m') {v : Variable} (hv : c.Mentions v) :
    v.model = m.store.model := by
  cases h with
  | addVariable | addArray => cases hv
  | post hflatten hvalid _ =>
    cases hv with
    | post hv =>
      obtain ⟨c, hc, hv⟩ := (Item.mentions_iff _ hflatten).mp hv
      exact model_eq_of_validate (validate_of_validateAll hvalid c hc) v
        (Constraint.mentions_iff.mp hv)
  | postNothing hflatten =>
    cases hv with
    | post hv =>
      obtain ⟨c, hc, _⟩ := (Item.mentions_iff _ hflatten).mp hv
      cases hc
  | optimize _ _ hscope =>
    cases hv with
    | optimize hv => exact model_eq_of_checkTarget hscope v (Target.mentions_iff.mp hv)
  | annotateDecision hscope =>
    cases hv with
    | annotateDecision hv => exact model_eq_of_checkScope hscope v hv
  | annotateValueHeuristic hscope =>
    cases hv with
    | annotateValueHeuristic hv => exact model_eq_of_checkScope hscope v hv
  | annotateNoDecision | annotateNoValueHeuristic => nomatch hv

end Model

/-! ### What a change leaves as it was -/

theorem Store.Grows.refl (s : Store) : s.Grows s :=
  ⟨rfl, id, fun ha => ⟨_, ha, .refl _⟩, List.Subset.refl _⟩

theorem Store.Grows.declares {s s' : Store} (h : s.Grows s') {v : Variable}
    (hv : s.Declares v) : s'.Declares v := by
  obtain ⟨_, hinfo⟩ := Registry.exists_get?_of_lt hv.2
  exact ⟨hv.1.trans h.model.symm, Registry.lt_size_of_get? (h.infos hinfo)⟩

/-- Every handle the annotations hold is known. -/
def Annotations.Over (known : Variable → Prop) (a : Annotations) : Prop :=
  (∀ list, a.decision = some list → ∀ v ∈ list, known v) ∧
    ∀ list values, a.valueHeuristic = some (list, values) → ∀ v ∈ list, known v

namespace Model

variable {m m' : Model}

theorem Changes.grows {c : Change} (h : m.Changes c m') : m.store.Grows m'.store := by
  cases h with
  | addVariable h => exact Store.grows_declareVariable h
  | addArray h => exact Store.grows_declareArray h
  | _ => exact .refl _

/-- Annotations over declared variables stay so when the change is about declared ones. -/
theorem Changes.annotations {c : Change} (h : m.Changes c m')
    (ha : m.annotations.Over m.store.Declares)
    (hc : ∀ v, c.Mentions v → m.store.Declares v) : m'.annotations.Over m'.store.Declares := by
  have hold : m.annotations.Over m'.store.Declares :=
    ⟨fun list hlist v hv => h.grows.declares (ha.1 list hlist v hv),
      fun list values hlist v hv => h.grows.declares (ha.2 list values hlist v hv)⟩
  cases h with
  | @annotateDecision list =>
    refine ⟨fun list' hlist' v hv => hc v (.annotateDecision ?_), hold.2⟩
    cases hlist'
    exact hv
  | @annotateValueHeuristic list values =>
    refine ⟨hold.1, fun list' values' hlist' v hv => hc v (.annotateValueHeuristic ?_)⟩
    cases hlist'
    exact hv
  | _ => exact hold

/-- A call with what was built from handles of the model leads to a model that can be
reached. -/
theorem Reachable.change {c : Change} (hm : m.Reachable) (hc : c.Built m.HandsOut)
    {answer : Answer} (h : m.change c = .ok (answer, m')) : m'.Reachable := by
  cases c <;> obtain ⟨_, hresult, heq⟩ := Except.map_eq_ok.mp h <;> cases heq
  · exact .addVariable hm hc hresult
  · exact .addArray hm hc hresult
  · exact .post hm hc hresult
  · exact .optimize hm hc hresult
  · exact .annotateDecision hm hresult
  · exact .annotateValueHeuristic hm hresult

end Model

/-! ### Worlds -/

/-- Models under construction side by side; the number of a model is its place. -/
abbrev World := List Model

/-- The call was put together over the handles that were given out. -/
def Call.Built (known : Variable → Prop) : Call → Prop
  | .change c => c.Built known
  | .compile _ => True

namespace World

/-- The handle was given out: a model declared its variable. -/
def Gave (w : World) (v : Variable) : Prop := ∃ m ∈ w, m.store.Declares v

/-- The worlds that come about by creating models and calling them, with whatever was put
together over the handles that were given out by then. -/
inductive Reached : World → Prop
  | nil : Reached []
  | create {w : World} {name : InstanceName} : Reached w → Reached (w ++ [.empty w.length name])
  | call {w : World} {k : Nat} {m : Model} {c : Call} : Reached w → w[k]? = some m →
      c.Built w.Gave → Reached (w.set k (m.call c).2)

variable {w : World} {m : Model}

/-- What every model of a world satisfies. -/
structure Keeps (k : Nat) (m : Model) : Prop where
  number : m.store.model = k
  reachable : m.Reachable
  annotations : m.annotations.Over m.store.Declares

/-- A handle is known to be of a model by its number. -/
theorem handsOut_of_gave (hw : ∀ k m, w[k]? = some m → Keeps k m) {k : Nat}
    (hm : w[k]? = some m) {v : Variable} (hv : w.Gave v) : m.HandsOut v := by
  intro hmodel
  obtain ⟨m', hm', hdeclares⟩ := hv
  obtain ⟨j, hj⟩ := List.mem_iff_getElem?.mp hm'
  have hsame : j = k := by rw [← (hw j m' hj).number, ← (hw k m hm).number, ← hdeclares.1, hmodel]
  subst hsame
  obtain rfl := Option.some.inj (hj.symm.trans hm)
  exact hdeclares

theorem Keeps.call {k : Nat} {c : Call} (h : Keeps k m) (hc : c.Built m.HandsOut) :
    Keeps k (m.call c).2 := by
  cases c with
  | compile options =>
    exact ⟨h.number, @Model.Reachable.compile m options h.reachable, h.annotations⟩
  | change c =>
    rw [Model.call]
    cases hchange : m.change c with
    | error cause => exact h
    | ok result =>
      have hchanges := Model.changes_of_change hchange
      refine ⟨hchanges.grows.model.trans h.number, h.reachable.change hc hchange, ?_⟩
      exact hchanges.annotations h.annotations fun v hv =>
        Change.Built.knows hc hv (hchanges.owned hv)

theorem Reached.keeps (h : w.Reached) : ∀ k m, w[k]? = some m → Keeps k m := by
  induction h with
  | nil => exact fun k m hm => nomatch hm
  | @create w name _ ih =>
    intro k m hm
    by_cases hk : k < w.length
    · rw [List.getElem?_append_left hk] at hm
      exact ih k m hm
    · have hk : w.length ≤ k := Nat.le_of_not_lt hk
      rw [List.getElem?_append_right hk, List.getElem?_singleton] at hm
      split at hm
      · cases hm
        refine ⟨?_, .empty w.length name, fun list h => (nomatch h), fun list values h => nomatch h⟩
        show w.length = k
        omega
      · cases hm
  | @call w k m c _ hm hc ih =>
    intro j m' hm'
    by_cases hj : k = j
    · subst hj
      rw [List.getElem?_set_self (List.getElem?_eq_some_iff.mp hm).1] at hm'
      cases hm'
      refine (ih k m hm).call ?_
      cases c with
      | change c => exact Change.Built.mono (fun v => handsOut_of_gave ih hm) hc
      | compile options => trivial
    · rw [List.getElem?_set_ne hj] at hm'
      exact ih j m' hm'

/-- Whatever stands in a model was declared by it. -/
theorem Reached.declares (h : w.Reached) (hm : m ∈ w) {v : Variable} (hv : m.Mentions v) :
    m.store.Declares v := by
  obtain ⟨k, hk⟩ := List.mem_iff_getElem?.mp hm
  have hkeeps := h.keeps k m hk
  cases hv with
  | entry hp hc hv =>
    obtain ⟨r, hr, e, he, hv⟩ := Constraint.mem_scope.mp (Constraint.mentions_iff.mp hv)
    exact ((hkeeps.reachable.sound.postings _ hp _ hc r hr).1 e he).knows hv
  | objective ho hv =>
    rw [Target.mentions_iff, Target.scope, Expr.scope, List.mem_eraseDups] at hv
    exact (hkeeps.reachable.sound.objective _ ho).knows hv
  | decision hlist hv => exact hkeeps.annotations.1 _ hlist v hv
  | valueHeuristic hlist hv => exact hkeeps.annotations.2 _ _ hlist v hv

end World
end CspModel
