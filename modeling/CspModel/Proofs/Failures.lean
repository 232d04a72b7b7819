import CspModel.Proofs.Links

/-! # Why introducing variables fails

The introduction of auxiliary variables fails when there is no domain for an expression that has
to be replaced, or when a factor cannot be drawn into a coefficient, and for nothing else
(`Introduced.refuses_of_ofModel`).  The domain is the one that the expression has by the time it
is replaced, where variables were introduced for some of the others.

`Attempts` is the judgement behind it.  Unlike `Needs` it is about runs that fail as well: a step
keeps to introducing variables for expressions of a kind, and where it fails, one of these
expressions or a coefficient is the cause.  Until links are settled, this follows from what the
step asks for (`Introducing.Asks.attempts`).
-/
namespace CspModel

open CspModel.Expr

/-! ### Causes -/

/-- The introduction of variables for expressions of a kind fails, since there is no domain for
such an expression, or since a factor is too great to be drawn into a coefficient. -/
inductive Store.Refuses (P : Expr → Prop) (s : Store) : ModelError → Prop
  | values {new : List (Expr × Variable)} {t : Store} {e : Expr} {cause : DomainError} :
      s.Introduces P new t → P e → possibleValues t e = .error cause →
      Refuses P s (.domain cause)
  | overflow {coefficient factor : Int} : Bounded.checked (coefficient * factor) = none →
      Refuses P s (.coefficientOverflow coefficient factor)

/-! ### Steps -/

/-- The state of an introduction that began at a store: variables were introduced for
expressions of a kind, and links of such expressions are pending. -/
structure Introduction.From (P : Expr → Prop) (s : Store) (state : Introduction) : Prop where
  store : ∃ new, s.Introduces P new state.store
  pending : ∀ r ∈ state.pending, ∃ v e, P e ∧ r = Introducing.link v e

/-- The step introduces variables for expressions of a kind, and where it fails the store
refuses such an expression. -/
structure Attempts {α : Type} (P : Expr → Prop) (s : Store) (x : Introducing α) : Prop where
  keeps : ∀ {state a state'}, state.From P s → x state = .ok (a, state') → state'.From P s
  fails : ∀ {state cause}, state.From P s → x state = .error cause → s.Refuses P cause

theorem Introducing.bind_eq_error {α β : Type} {x : Introducing α} {f : α → Introducing β}
    {state : Introduction} {cause : ModelError} : (x >>= f) state = .error cause ↔
      x state = .error cause ∨ ∃ a state', x state = .ok (a, state') ∧ f a state' = .error cause := by
  show (x state >>= fun result => f result.1 result.2) = .error cause ↔ _
  cases x state with
  | error cause' => simp [bind, Except.bind]
  | ok result =>
    obtain ⟨a, state'⟩ := result
    simp [bind, Except.bind]

namespace Attempts

variable {α β : Type} {P : Expr → Prop} {s : Store}

theorem pure (a : α) : Attempts P s (pure a) where
  keeps hfrom hrun := by
    cases hrun
    exact hfrom
  fails _ hrun := nomatch hrun

theorem bind {x : Introducing α} {f : α → Introducing β} (hx : Attempts P s x)
    (hf : ∀ a, Attempts P s (f a)) : Attempts P s (x >>= f) where
  keeps hfrom hrun := by
    obtain ⟨a, state', ha, hb⟩ := Introducing.bind_eq_ok.mp hrun
    exact (hf a).keeps (hx.keeps hfrom ha) hb
  fails hfrom hrun := by
    rcases Introducing.bind_eq_error.mp hrun with ha | ⟨a, state', ha, hb⟩
    · exact hx.fails hfrom ha
    · exact (hf a).fails (hx.keeps hfrom ha) hb

theorem map {x : Introducing α} (hx : Attempts P s x) (f : α → β) : Attempts P s (f <$> x) := by
  rw [map_eq_pure_bind]
  exact hx.bind fun a => pure (f a)

theorem throw {cause : ModelError} (h : s.Refuses P cause) :
    Attempts P s (throw cause : Introducing α) where
  keeps _ hrun := nomatch hrun
  fails _ hrun := by
    cases hrun
    exact h

/-- A step for every entry of a list. -/
theorem mapM {f : α → Introducing β} {list : List α} (h : ∀ a ∈ list, Attempts P s (f a)) :
    Attempts P s (list.mapM f) := by
  induction list with
  | nil => exact pure []
  | cons a rest ih =>
    rw [List.mapM_cons]
    have hrest := ih fun a ha => h a (List.mem_cons_of_mem _ ha)
    exact (h a List.mem_cons_self).bind fun b => hrest.bind fun bs => pure (b :: bs)

theorem get_bind {f : Introduction → Introducing α} (h : ∀ state, Attempts P s (f state)) :
    Attempts P s (get >>= f) where
  keeps {state _ _} hfrom hrun := (h state).keeps hfrom hrun
  fails {state _} hfrom hrun := (h state).fails hfrom hrun

/-- The links that are taken are of expressions of the kind. -/
theorem takePending_bind {f : List Relation → Introducing α}
    (h : ∀ links, (∀ r ∈ links, ∃ v e, P e ∧ r = Introducing.link v e) → Attempts P s (f links)) :
    Attempts P s (Introducing.takePending >>= f) where
  keeps {state _ _} hfrom hrun :=
    have htaken : Introduction.From P s { state with pending := [] } :=
      ⟨hfrom.store, List.forall_mem_nil _⟩
    (h state.pending hfrom.pending).keeps htaken hrun
  fails {state _} hfrom hrun :=
    have htaken : Introduction.From P s { state with pending := [] } :=
      ⟨hfrom.store, List.forall_mem_nil _⟩
    (h state.pending hfrom.pending).fails htaken hrun

end Attempts

namespace Introducing

variable {P : Expr → Prop} {s : Store}

theorem attempts_auxiliary {e : Expr} (he : P e) : Attempts P s (auxiliary e) where
  keeps hfrom hrun := by
    rcases auxiliary_eq_ok hrun with ⟨rfl, _⟩ | ⟨d, hd, rfl, rfl⟩
    · exact hfrom
    · obtain ⟨new, hstore⟩ := hfrom.store
      refine ⟨⟨_, hstore.snoc he hd⟩, List.forall_mem_append.mpr ⟨hfrom.pending, ?_⟩⟩
      exact List.forall_mem_singleton.mpr ⟨_, e, he, rfl⟩
  fails {state cause} hfrom hrun := by
    unfold auxiliary at hrun
    split at hrun
    · cases hrun
    · split at hrun
      · rename_i hcause
        cases hrun
        obtain ⟨new, hstore⟩ := hfrom.store
        exact .values hstore he hcause
      · cases hrun

/-- A step keeps to the expressions it asks for. -/
theorem Asks.attempts {α : Type} {es : List Expr} {x : Introducing α} (hx : Asks es x)
    (h : ∀ e ∈ es, P e) : Attempts P s x := by
  induction hx with
  | pure a => exact .pure a
  | auxiliary e => exact attempts_auxiliary (h e (List.mem_singleton_self e))
  | bind _ _ hx hf =>
    obtain ⟨hhere, hlater⟩ := List.forall_mem_append.mp h
    exact (hx hhere).bind fun a => hf a hlater
  | overflow hoverflow => exact .throw (.overflow hoverflow)
  | congr _ hmem hx => exact hx fun e he => h e ((hmem e).mpr he)

section
variable (hP : ∀ e, P e → ∀ e' ∈ e.nested, P e')
include hP

/-- Links bring along what is nested in their expressions. -/
theorem attempts_settleWaves (n : Nat) : Attempts P s (settleWaves n) := by
  induction n with
  | zero => exact .pure []
  | succ n ih =>
    rw [settleWaves]
    refine .takePending_bind fun links hlinks => ?_
    split
    · exact .pure []
    · have hhere : Attempts P s (links.mapM settleRelation) := .mapM fun r hr => by
        obtain ⟨v, e, he, rfl⟩ := hlinks r hr
        -- what the link cannot hold is nested in its expression
        refine (asks_settleRelation _).attempts fun e' he' => hP e he e' ?_
        rwa [replacements_link] at he'
      exact hhere.bind fun here => ih.bind fun later => .pure _

theorem attempts_linkConstraints : Attempts P s linkConstraints :=
  Attempts.map (.get_bind fun _ => attempts_settleWaves hP _) _

theorem attempts_settlePosting {p : Posting} (h : ∀ e ∈ p.replacements, P e) :
    Attempts P s (settlePosting p) := by
  obtain ⟨body, decoration⟩ := p
  have hconstraints : ∀ c ∈ body.constraints, Attempts P s (settle c) := fun c hc =>
    (asks_settle c).attempts fun e he => h e (List.mem_flatMap.mpr ⟨c, hc, he⟩)
  cases body with
  | single c =>
    exact (hconstraints c (List.mem_singleton_self c)).bind fun c' =>
      (attempts_linkConstraints hP).bind fun links => .pure _
  | gather constraints =>
    have hall : Attempts P s (settleAll constraints) := by
      rw [settleAll_eq_mapM]
      exact .mapM hconstraints
    exact hall.bind fun constraints' => (attempts_linkConstraints hP).bind fun links => .pure _

theorem attempts_settleObjective {objective : Option Objective}
    (h : ∀ o, objective = some o → ∀ e ∈ o.replacements, P e) :
    Attempts P s (settleObjective objective) := by
  cases objective with
  | none => exact .pure _
  | some o =>
    exact ((asks_settleObjectiveTarget o.target).attempts (h o rfl)).bind fun target =>
      (attempts_linkConstraints hP).bind fun links => .pure _

theorem attempts_settleModel {m : Model} (h : ∀ e ∈ m.replacements, P e) :
    Attempts P s (settleModel m) := by
  obtain ⟨hpostings, hobjective⟩ := List.forall_mem_append.mp h
  have hwritten : Attempts P s (m.postings.mapM settlePosting) := .mapM fun p hp =>
    attempts_settlePosting hP fun e he => hpostings e (List.mem_flatMap.mpr ⟨p, hp, he⟩)
  refine hwritten.bind fun written => (attempts_settleObjective hP fun o ho e he => ?_).bind
    fun settled => .pure _
  refine hobjective e (List.mem_flatMap.mpr ⟨o, ?_, he⟩)
  simp [ho]

end

end Introducing

/-! ### The whole model -/

/-- Introducing the auxiliary variables of a model fails only on account of what it needs. -/
theorem Introduced.refuses_of_ofModel {m : Model} {cause : ModelError}
    (h : ofModel m = .error cause) : m.store.Refuses (Needed m.replacements) cause := by
  have hattempts : Attempts (Needed m.replacements) m.store (Introducing.settleModel m) :=
    Introducing.attempts_settleModel (fun _ he _ he' => he.nested he') fun _ he => .root he
  have hempty : Introduction.From (Needed m.replacements) m.store { store := m.store } :=
    ⟨⟨[], .nil⟩, List.forall_mem_nil _⟩
  refine hattempts.fails hempty ?_
  unfold ofModel at h
  cases hrun : Introducing.settleModel m { store := m.store } with
  | error cause' =>
    rw [StateT.run, hrun] at h
    exact congrArg _ (Except.error.inj h)
  | ok result =>
    rw [StateT.run, hrun] at h
    cases h

/-- Where it succeeds, variables are introduced for all that the model needs. -/
theorem Introduced.introduces_needed {m : Model} {p : Introduced} (hp : ofModel m = .ok p) :
    ∃ new, m.store.Introduces (Needed m.replacements) new p.store ∧
      ∀ e, Needed m.replacements e → e ∈ new.map Prod.fst := by
  obtain ⟨⟨⟨postings, objective⟩, state'⟩, hrun, hp⟩ := Except.bind_eq_ok.mp hp
  cases hp
  obtain ⟨blocks, last, _, _, _, _, _, _, hcloses, _⟩ := Introducing.settleModel_closes hrun
  refine ⟨_, hcloses.completes.store, fun e he => ?_⟩
  have hmem := (hcloses.mem_keys_iff rfl).mpr he
  rw [hcloses.completes.keys] at hmem
  exact List.mem_reverse.mp ((List.mem_append.mp hmem).resolve_right List.not_mem_nil)

end CspModel
