import CspModel.Proofs.Announced
import CspModel.Proofs.Failures
import CspModel.Proofs.PossibleValues

/-! # Symbols in arithmetic

A symbolic variable has no value to calculate with.  This is noticed in two places.  An
objective may not mention such a variable at all.  And when an expression is replaced by an
auxiliary variable, the values it can take are computed from those of its variables, which fails
at a symbolic one.  So a model does not compile when some expression that has to be replaced is
computed from a symbolic variable (`Expr.ComputedFrom`), and compiling names a symbolic variable
in that case only (`Model.Reachable.symbols_refused`).  What a predicate compares, what is
counted and the index of an element are not computed with, and an expression that can stay where
it is posted is never looked at, whatever it calculates (`Spelled.sum_of_letter_accepted`).
-/
namespace CspModel

open CspModel.Expr

/-! ### Arithmetic -/

/-- Whether the variable is itself an operand of the arithmetic operator or a term of the sum. -/
def Expr.IsArithmeticIn (v : Variable) : Expr → Prop
  | .apply op operands => op.isPredicate = false ∧ op ≠ .ifThenElse ∧ .var v ∈ operands
  | .aggregate (.sum terms _) => .var v ∈ terms
  | _ => False

/-- Arithmetic is computed from its operands. -/
theorem Expr.IsArithmeticIn.computedFrom {v : Variable} {e : Expr} (h : e.IsArithmeticIn v) :
    e.ComputedFrom v := by
  cases e with
  | const | var | set => cases h
  | apply op operands => exact .apply h.1 h.2.2 .var
  | aggregate f =>
    cases f with
    | sum terms coefficients => exact .aggregate h .var
    | _ => cases h

theorem Expr.ComputedFrom.mem_occurrences {v : Variable} {e : Expr} (h : e.ComputedFrom v) :
    v ∈ e.occurrences := by
  rw [mem_occurrences_iff]
  induction h with
  | var => exact self_mem_parts _
  | apply _ he _ ih =>
    rw [parts_apply]
    exact List.mem_cons_of_mem _ (List.mem_flatMap.mpr ⟨_, he, ih⟩)
  | aggregate he _ ih =>
    rw [parts_aggregate]
    exact List.mem_cons_of_mem _
      (List.mem_flatMap.mpr ⟨_, Aggregate.sources_subset_operands _ he, ih⟩)

theorem possibleValues_ne_ok {s : Store} {e : Expr} {v : Variable} (h : e.ComputedFrom v)
    (hv : (s.domainOf v).isSymbolic = true) (d : Domain) : possibleValues s e ≠ .ok d := by
  intro hd
  obtain ⟨values, hvalues, -⟩ := Except.bind_eq_ok.mp hd
  exact Values.ofExpr_ne_ok h hv values hvalues

/-- There is no domain for an expression when it cannot take any value, or on account of a
symbolic variable. -/
theorem possibleValues_eq_error {s : Store} {e : Expr} {cause : DomainError}
    (h : possibleValues s e = .error cause) : cause = .empty ∨ ∃ v, e.ComputedFrom v ∧
      (s.domainOf v).isSymbolic = true ∧ cause = .notNumeric (s.nameOf v) := by
  unfold possibleValues at h
  cases hvalues : Values.ofExpr s e with
  | error why =>
    rw [hvalues] at h
    cases h
    exact .inr (Values.exists_symbolic_of_ofExpr hvalues)
  | ok values =>
    rw [hvalues] at h
    have h : values.toDomain = .error cause := h
    rcases values.toDomain_cases with ⟨d, hd⟩ | hempty
    · cases hd.symm.trans h
    · exact .inl (Except.error.inj (h.symm.trans hempty))

/-! ### What is needed occurs in the model -/

theorem Relation.replacements_subset_candidates (r : Relation) :
    r.replacements ⊆ r.candidates := by
  intro e he
  cases r with
  | intension predicate => exact he
  | instantiation | clause => cases he
  | conditional function condition =>
    rcases List.mem_append.mp he with he | he
    · exact List.mem_append_left _ (function.replacements_subset_operands he)
    · exact List.mem_append_right _ (List.mem_of_mem_filter he)
  | channel list startIndex target =>
    cases target with
    | itself | list => cases he
    | value e' =>
      have he : e ∈ beyondVariables [e'] := he
      exact List.mem_append_right _ (List.mem_of_mem_filter he)
  | lex lists operator =>
    obtain ⟨list, hlist, he⟩ := List.mem_flatMap.mp he
    exact List.mem_flatten.mpr ⟨list, hlist, List.mem_of_mem_filter he⟩
  | noOverlap | cumulative | cardinality =>
    simp only [replacements, List.mem_append, beyondLeaves, beyondVariables, List.mem_filter] at he
    simp only [candidates, expressions, List.mem_append]
    tauto
  | _ => exact List.mem_of_mem_filter he

theorem Target.mem_parts_of_replacement {t : Target} {e : Expr} (he : e ∈ t.replacements) :
    e ∈ t.toExpr.parts := by
  cases t with
  | expression e' => exact outermost_subset_parts _ he
  | aggregate f =>
    have hoperand : e ∈ f.operands → e ∈ (Expr.aggregate f).parts := fun he => by
      rw [parts_aggregate]
      exact List.mem_cons_of_mem _ (List.mem_flatMap.mpr ⟨e, he, self_mem_parts e⟩)
    cases f with
    | sum terms coefficients => exact hoperand (Aggregate.replacements_subset_operands _ he)
    | nValues | minimum | maximum => exact hoperand (List.mem_of_mem_filter he)
    | count | element =>
      rw [List.mem_singleton.mp he]
      exact self_mem_parts _

/-- What a relation needs is part of one of its expressions. -/
theorem Relation.exists_part_of_replacement {r : Relation} {e : Expr} (he : e ∈ r.replacements) :
    ∃ p ∈ r.expressions, e ∈ p.parts :=
  exists_part_of_candidate (r.replacements_subset_candidates he)

def Posting.expressions (p : Posting) : List Expr :=
  p.body.constraints.flatMap fun c => c.relations.flatMap Relation.expressions

/-- The expressions that a model posts and optimises.  An aggregate that is optimised is one
of them. -/
def Model.expressions (m : Model) : List Expr :=
  m.postings.flatMap Posting.expressions ++ m.objective.toList.map fun o => o.target.toExpr

/-- The expressions that a model posts and optimises, with all that occurs in them. -/
def Model.subexpressions (m : Model) : List Expr := m.expressions.flatMap Expr.parts

/-- What has to be replaced for a model occurs in it. -/
theorem Needed.mem_subexpressions {m : Model} {e : Expr} (h : Needed m.replacements e) :
    e ∈ m.subexpressions := by
  induction h with
  | root he =>
    rcases List.mem_append.mp he with he | he
    · obtain ⟨p, hp, he⟩ := List.mem_flatMap.mp he
      obtain ⟨c, hc, he⟩ := List.mem_flatMap.mp he
      obtain ⟨r, hr, he⟩ := List.mem_flatMap.mp he
      obtain ⟨e', he', hpart⟩ := Relation.exists_part_of_replacement he
      have hposted : e' ∈ p.expressions :=
        List.mem_flatMap.mpr ⟨c, hc, List.mem_flatMap.mpr ⟨r, hr, he'⟩⟩
      have hstated : e' ∈ m.expressions :=
        List.mem_append_left _ (List.mem_flatMap.mpr ⟨p, hp, hposted⟩)
      exact List.mem_flatMap.mpr ⟨e', hstated, hpart⟩
    · obtain ⟨o, ho, he⟩ := List.mem_flatMap.mp he
      have hstated : o.target.toExpr ∈ m.expressions :=
        List.mem_append_right _ (List.mem_map.mpr ⟨o, ho, rfl⟩)
      exact List.mem_flatMap.mpr ⟨_, hstated, Target.mem_parts_of_replacement he⟩
  | nested _ he ih =>
    obtain ⟨root, hroot, hpart⟩ := List.mem_flatMap.mp ih
    have hnested := inner_subset_parts _ (nested_subset_inner _ he)
    exact List.mem_flatMap.mpr ⟨root, hroot, parts_subset hpart hnested⟩

/-- What a model posts and optimises is put together over its variables. -/
theorem Model.Sound.wellFormed_of_mem {m : Model} (hm : m.Sound) {e : Expr}
    (he : e ∈ m.expressions) : e.WellFormed m.store.Declares := by
  rcases List.mem_append.mp he with he | he
  · obtain ⟨p, hp, he⟩ := List.mem_flatMap.mp he
    obtain ⟨c, hc, he⟩ := List.mem_flatMap.mp he
    obtain ⟨r, hr, he⟩ := List.mem_flatMap.mp he
    exact (hm.postings p hp c hc r hr).1 e he
  · obtain ⟨o, ho, rfl⟩ := List.mem_map.mp he
    exact hm.objective o (Option.mem_toList.mp ho)

/-- What a model needs is put together over its variables. -/
theorem Needed.wellFormed {m : Model} (hm : m.Sound) {e : Expr} (h : Needed m.replacements e) :
    e.WellFormed m.store.Declares := by
  obtain ⟨root, hroot, hpart⟩ := List.mem_flatMap.mp h.mem_subexpressions
  exact (hm.wellFormed_of_mem hroot).part hpart

/-! ### Symbolic variables -/

/-- Whether the variable is declared with symbols for values. -/
def Store.Symbolic (s : Store) (v : Variable) : Prop :=
  s.Declares v ∧ (s.domainOf v).isSymbolic = true

/-- A variable was introduced only where the values of its expression could be computed. -/
theorem Store.Introduces.exists_domain {P : Expr → Prop} {s t : Store}
    {new : List (Expr × Variable)} (h : s.Introduces P new t) :
    ∀ q ∈ new, ∃ new' t' d, s.Introduces P new' t' ∧ possibleValues t' q.1 = .ok d := by
  induction h with
  | nil => exact List.forall_mem_nil _
  | @snoc new t e d h _ hd ih =>
    exact List.forall_mem_append.mpr
      ⟨ih, List.forall_mem_singleton.mpr ⟨new, t, d, h, hd⟩⟩

namespace Model

variable {m : Model}

/-- The causes for which no auxiliary variables can be introduced in a model. -/
inductive Refuses (m : Model) : ModelError → Prop
  /-- A needed expression is computed from a symbolic variable, which is named. -/
  | symbolic {e : Expr} {v : Variable} : Needed m.replacements e → e.ComputedFrom v →
      m.store.Symbolic v → Refuses m (.domain (.notNumeric (m.store.nameOf v)))
  /-- A needed expression cannot take any value. -/
  | empty {new : List (Expr × Variable)} {t : Store} {e : Expr} :
      m.store.Introduces (Needed m.replacements) new t → Needed m.replacements e →
      possibleValues t e = .error .empty → Refuses m (.domain .empty)
  | overflow {coefficient factor : Int} : Bounded.checked (coefficient * factor) = none →
      Refuses m (.coefficientOverflow coefficient factor)

/-- What a needed expression is computed from is declared by the model, and keeps its name and
its domain when variables are introduced. -/
theorem Reachable.refuses (hm : m.Reachable) {cause : ModelError}
    (h : m.store.Refuses (Needed m.replacements) cause) : m.Refuses cause := by
  have hs := hm.sound.store
  cases h with
  | overflow hoverflow => exact .overflow hoverflow
  | @values new t e cause hnew he herror =>
    rcases possibleValues_eq_error herror with rfl | ⟨v, hv, hsymbolic, rfl⟩
    · exact .empty hnew he herror
    · have hdeclares : m.store.Declares v := (he.wellFormed hm.sound).knows hv.mem_occurrences
      obtain ⟨-, ds, hextended, -⟩ := hnew.exists_extended hs.indexed hm.unopened
      rw [hnew.domainOf_old hs.consistent_true hdeclares] at hsymbolic
      rw [hextended.nameOf_old hdeclares]
      exact .symbolic he hv ⟨hdeclares, hsymbolic⟩

/-- Nothing that has to be replaced may be computed from a symbolic variable. -/
theorem Reachable.ofModel_ne_ok (hm : m.Reachable) {e : Expr} (he : Needed m.replacements e)
    {v : Variable} (hv : e.ComputedFrom v) (hsymbolic : m.store.Symbolic v) (p : Introduced) :
    Introduced.ofModel m ≠ .ok p := by
  intro hp
  obtain ⟨new, hnew, hneeded⟩ := Introduced.introduces_needed hp
  obtain ⟨q, hq, rfl⟩ := List.mem_map.mp (hneeded e he)
  obtain ⟨new', t, d, hnew', hd⟩ := hnew.exists_domain q hq
  -- when the expression was replaced the variable had the domain that it has in the model
  refine possibleValues_ne_ok hv ?_ d hd
  rw [hnew'.domainOf_old hm.sound.store.consistent_true hsymbolic.1]
  exact hsymbolic.2

/-! ### Objectives -/

/-- A target over declared variables is checked for symbolic ones. -/
theorem checkTarget_eq_error {list : List Variable} {v : Variable} (hv : v ∈ list)
    (hsymbolic : m.store.Symbolic v) : ∃ cause, m.checkTarget list = .error cause ∧
      ((∀ w ∈ list, w.model = m.store.model) → cause = .objective .nonNumeric) := by
  induction list with
  | nil => cases hv
  | cons w rest ih =>
    rw [checkTarget, Store.check]
    -- the check ends at the first variable that is foreign or symbolic
    by_cases hw : w.model = m.store.model
    · by_cases hkind : (m.store.domainOf w).isSymbolic = true
      · exact ⟨.objective .nonNumeric, by simp [hw, hkind], fun _ => rfl⟩
      · have hne : v ≠ w := fun heq => hkind (heq ▸ hsymbolic.2)
        obtain ⟨cause, hcause, howned⟩ := ih (List.mem_of_ne_of_mem hne hv)
        refine ⟨cause, by simp [hw, hkind, hcause], fun h => howned ?_⟩
        exact (List.forall_mem_cons.mp h).2
    · exact ⟨.scope (.foreignVariable w.index), by simp [hw],
        fun h => absurd (List.forall_mem_cons.mp h).1 hw⟩

/-- An objective that mentions a symbolic variable is refused. -/
theorem optimize_symbolic {direction : Direction} {target : Target} {v : Variable}
    (hsymbolic : m.store.Symbolic v) (hv : v ∈ target.scope) :
    ∃ cause, m.optimize direction target = .error cause ∧ (m.frozen = false →
      m.objective = none → (∀ w ∈ target.scope, w.model = m.store.model) →
      cause = .objective .nonNumeric) := by
  obtain ⟨cause, hcause, howned⟩ := checkTarget_eq_error hv hsymbolic
  unfold optimize checkOpen
  cases m.frozen with
  | true => exact ⟨.frozen, rfl, nofun⟩
  | false =>
    cases m.objective with
    | some o => exact ⟨.objective .alreadySet, rfl, nofun⟩
    | none =>
      cases hnumeric : target.isNumeric with
      | false => exact ⟨.objective .nonNumeric, rfl, fun _ _ _ => rfl⟩
      | true =>
        refine ⟨cause, ?_, fun _ _ => howned⟩
        rw [hcause]
        rfl

/-- Whether the variables of the objective are numbers. -/
def NumericObjective (m : Model) : Prop :=
  ∀ o, m.objective = some o → ∀ v ∈ o.target.scope, (m.store.domainOf v).isSymbolic = false

theorem NumericObjective.of_store {s : Store} (hm : m.Sound) (h : m.NumericObjective)
    (hs : ∀ v, m.store.Declares v → s.domainOf v = m.store.domainOf v) :
    NumericObjective { m with store := s } := by
  intro o ho v hv
  have hdeclares : m.store.Declares v :=
    (hm.objective o ho).knows (List.mem_eraseDups.mp hv)
  rw [← h o ho v hv, ← hs v hdeclares]

/-- The variables of an objective that was accepted are numbers, and stay so. -/
theorem Reachable.numericObjective (h : m.Reachable) : m.NumericObjective := by
  induction h using Reachable.of_changes with
  | empty number name => exact fun o ho => nomatch ho
  | compile _ ih => exact ih
  | @change m m' c hm hm' hc ih =>
    have hold := @Changes.domainOf_old _ _ _ hm hc
    cases hc with
    | addVariable | addArray => exact ih.of_store hm.sound fun _ => hold
    | optimize _ _ htarget =>
      rintro o ⟨⟩ v hv
      have hdeclares := (hm'.sound.objective _ rfl).knows (List.mem_eraseDups.mp hv)
      refine Bool.eq_false_iff.mpr fun hsymbolic => ?_
      obtain ⟨cause, hcause, -⟩ := checkTarget_eq_error (m := m) hv ⟨hdeclares, hsymbolic⟩
      cases hcause.symm.trans htarget
    | _ => exact ih

/-! ### The whole model -/

/-- Where symbolic variables are refused.  No objective mentions one, and setting one that does
is an error.  When a needed expression is computed from one the model does not compile, whatever
the options.  And compiling fails for a symbolic variable in that case only: the variable the
error names is one that a needed expression is computed from. -/
theorem Reachable.symbols_refused (hm : m.Reachable) :
    (∀ direction target v, m.store.Symbolic v → v ∈ target.scope →
      ∃ cause, m.optimize direction target = .error cause ∧ (m.frozen = false →
        m.objective = none → (∀ w ∈ target.scope, w.model = m.store.model) →
        cause = .objective .nonNumeric)) ∧
    (∀ o v, m.objective = some o → m.store.Symbolic v → v ∉ o.target.scope) ∧
    (∀ e v, Needed m.replacements e → e.ComputedFrom v → m.store.Symbolic v →
      ∃ cause, m.Refuses cause ∧ ∀ options, m.build options = (.error cause, [])) ∧
    ∀ options name, (m.build options).1 = .error (.domain (.notNumeric name)) →
      ∃ e v, Needed m.replacements e ∧ e.ComputedFrom v ∧ m.store.Symbolic v ∧
        m.store.nameOf v = name := by
  refine ⟨fun direction target v => optimize_symbolic, fun o v ho hsymbolic hv => ?_,
    fun e v he hv hsymbolic => ?_, fun options name h => ?_⟩
  · exact absurd hsymbolic.2 (Bool.eq_false_iff.mp (hm.numericObjective o ho v hv))
  · cases hp : Introduced.ofModel m with
    | ok p => exact absurd hp (hm.ofModel_ne_ok he hv hsymbolic p)
    | error cause =>
      exact ⟨cause, hm.refuses (Introduced.refuses_of_ofModel hp), build_eq_error hp⟩
  · have hrefuses : m.Refuses (.domain (.notNumeric name)) := by
      cases hp : Introduced.ofModel m with
      | error cause =>
        rw [build_eq_error hp] at h
        cases h
        exact hm.refuses (Introduced.refuses_of_ofModel hp)
      | ok p =>
        unfold build at h
        rw [hp] at h
        dsimp only at h
        split at h <;> cases h
    cases hrefuses with
    | symbolic he hv hsymbolic => exact ⟨_, _, he, hv, hsymbolic, rfl⟩

end Model

namespace Spelled

/-- A variable for a letter. -/
def l : Variable := ⟨0, 0⟩

def declared : Store where
  model := 0
  domains := ⟨#[Mixed.letters]⟩
  infos := ⟨#[⟨"v0", 0, none⟩]⟩
  declarations := [.alone l]
  unnamedVariables := 1

/-- The model before anything is posted. -/
def blank : Model := { instanceName := {}, store := declared }

/-- The letter and one, added. -/
def successor : Expr := .apply .add [.var l, .const 1]

/-- That the sum is two. -/
def equation : Expr := .apply .eq [successor, .const 2]

/-- A model that states the equation. -/
def model : Model := { blank with postings := [⟨.single (.relation (.intension equation)), {}⟩] }

/-- There is nothing to introduce. -/
def introduced : Introduced where
  store := declared
  postings := model.postings
  objective := none
  replaced := []

/-- A model in which the sum and the letter have to differ. -/
def comparing : Model :=
  { blank with postings := [⟨.single (.relation (.allDifferent [successor, .var l] [])), {}⟩] }

theorem reachable_blank : blank.Reachable := by
  have hletters : Domain.ofSpec (.collection [.symbol "a", .symbol "b"]) = .ok Mixed.letters := by
    cbv
  have hadd : (Model.empty 0 {}).addVariable none Mixed.letters = .ok (l, blank) := by
    cbv
  exact .addVariable (.empty 0 {}) (.ofSpec (by decide) hletters) hadd

theorem built_l : (Expr.var l).Built blank.HandsOut := .var fun _ => ⟨rfl, by decide⟩

theorem built_successor : successor.Built blank.HandsOut := by
  have hsum : Expr.applyChecked .add [.var l, .const 1] = .ok successor := by
    cbv
  refine .apply (fun e he => ?_) hsum
  rcases List.mem_pair.mp he with rfl | rfl
  · exact built_l
  · exact .const (by decide)

theorem reachable_model : model.Reachable := by
  have hequation : Expr.applyChecked .eq [successor, .const 2] = .ok equation := by
    cbv
  have hpost : blank.post (.expression equation) {} = .ok (model, []) := by
    cbv
  refine .post reachable_blank (.expression (.apply (fun e he => ?_) hequation)) hpost
  rcases List.mem_pair.mp he with rfl | rfl
  · exact built_successor
  · exact .const (by decide)

theorem reachable_comparing : comparing.Reachable := by
  have hdifferent : Constraint.allDifferent [successor, .var l] [] =
      .ok (.relation (.allDifferent [successor, .var l] [])) := by
    cbv
  have hpost : blank.post (.constraint (.relation (.allDifferent [successor, .var l] []))) {} =
      .ok (comparing, []) := by
    cbv
  refine .post reachable_blank (.constraint (.allDifferent (fun e he => ?_) hdifferent)) hpost
  rcases List.mem_pair.mp he with rfl | rfl
  · exact built_successor
  · exact built_l

/-- That a letter and one make two is accepted; that they make something else than the letter
is refused. -/
theorem sum_of_letter_accepted :
    (model.Reachable ∧ model.store.Symbolic l ∧ (∃ p ∈ equation.parts, p.IsArithmeticIn l) ∧
      (∃ c, (model.build {}).1 = .ok c) ∧
      ∀ options name, (model.build options).1 ≠ .error (.domain (.notNumeric name))) ∧
    comparing.Reachable ∧
      ∀ options, comparing.build options = (.error (.domain (.notNumeric "v0")), []) := by
  have hsymbolic : declared.Symbolic l := ⟨⟨rfl, by decide⟩, by cbv⟩
  have harithmetic : successor.IsArithmeticIn l := ⟨rfl, by decide, List.mem_cons_self⟩
  have hmodel : Introduced.ofModel model = .ok introduced := by
    cbv
  have hrows : Rows.ofEntries introduced.store ({} : Options).tableForm
      (introduced.entries {}) = .ok (introduced.entries {}) := by
    cbv
  have hneeded : ∀ e, ¬Needed model.replacements e := fun e he => by
    have hnone : e ∈ [] := he.mem_of_closed (List.nil_subset []) (List.forall_mem_nil _)
    cases hnone
  refine ⟨⟨reachable_model, hsymbolic, ⟨successor, by decide, harithmetic⟩,
    ⟨_, Model.build_eq_ok.mpr ⟨_, _, hmodel, hrows, rfl⟩⟩, fun options name h => ?_⟩, reachable_comparing, ?_⟩
  · obtain ⟨-, -, -, hnumeric⟩ := Model.Reachable.symbols_refused reachable_model
    obtain ⟨e, -, he, -⟩ := hnumeric options name h
    exact hneeded e he
  · obtain ⟨-, -, hrefused, -⟩ := Model.Reachable.symbols_refused reachable_comparing
    have hroot : Needed comparing.replacements successor := .root (by decide)
    obtain ⟨cause, -, hbuild⟩ := hrefused successor l hroot harithmetic.computedFrom hsymbolic
    have hcause : (comparing.build {}).1 = .error (.domain (.notNumeric "v0")) := by
      cbv
    rw [hbuild] at hcause
    exact Except.error.inj hcause ▸ hbuild

end Spelled

end CspModel
