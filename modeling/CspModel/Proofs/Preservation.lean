import CspModel.Proofs.Reachable
import CspModel.Proofs.Settlement

/-! # Introducing auxiliary variables preserves the solutions

The auxiliary variables are determined by the others: in a solution each of them has the
value of the expression it stands for.  So a solution of the model extends to the
auxiliary variables in exactly one way, and the extensions are the solutions of the
problem in which the expressions are replaced.  The one thing to be assumed is that the
domain of an auxiliary variable leaves room for the values of its expression.
-/
namespace CspModel

open CspModel.Expr

variable {I : Interpretation}

/-! ### What is replaced has a value -/

theorem exists_value_of_values? {ρ : Assignment} {list : List Expr} {vs : List Value}
    (h : values? .exact ρ list = some vs) {e : Expr} (he : e ∈ list) :
    ∃ w, e.value? .exact ρ = some w := by
  rw [values?_eq_mapM] at h
  exact exists_of_mapM_eq_some h he

theorem exists_value_of_bound? {ρ : Assignment} {c : Condition} {b : Bound}
    (h : c.operand.bound? ρ = some b) {e : Expr} (he : e ∈ c.expressions) :
    ∃ w, e.value? .exact ρ = some w := by
  obtain ⟨comparison, operand⟩ := c
  cases operand with
  | expression e' =>
    rw [List.mem_singleton.mp he]
    obtain ⟨w, hw, _⟩ := Option.map_eq_some_iff.mp h
    exact ⟨w, hw⟩
  | range | set => cases he

/-- In a relation that holds everything that may be replaced has a value. -/
theorem Relation.Holds.exists_value {ρ : Assignment} {r : Relation} (h : r.Holds I ρ) :
    ∀ e ∈ r.candidates, ∃ w, e.value? .exact ρ = some w := by
  have hvariables : ∀ list : List Variable, ∀ e ∈ list.map Expr.var,
      ∃ w, e.value? .exact ρ = some w := by
    intro list e he
    obtain ⟨v, _, rfl⟩ := List.mem_map.mp he
    exact ⟨ρ v, rfl⟩
  intro e he
  cases r with
  | intension predicate =>
    obtain ⟨n, hn, _⟩ := h
    exact exists_value_of_outermost (value?_eq_some_iff.mp hn) he
  | extension | allDifferent | allEqual | ordered | circuit | regular | mdd | precedence =>
    obtain ⟨vs, hvs, _⟩ := h
    exact exists_value_of_values? hvs he
  | conditional function condition =>
    obtain ⟨v, hv, b, hb, _⟩ := h
    rcases List.mem_append.mp he with he | he
    · exact exists_value_of_aggregate hv he
    · exact exists_value_of_bound? hb he
  | noOverlap origins lengths _ =>
    obtain ⟨os, hos, ls, hls, _⟩ := h
    rcases List.mem_append.mp he with he | he
    · exact exists_value_of_values? hos he
    · exact exists_value_of_values? hls he
  | cumulative origins lengths heights condition =>
    obtain ⟨os, hos, ls, hls, hs, hhs, b, hb, _⟩ := h
    simp only [candidates, expressions, List.mem_append] at he
    rcases he with ((he | he) | he) | he
    · exact exists_value_of_values? hos he
    · exact exists_value_of_values? hls he
    · exact exists_value_of_values? hhs he
    · exact exists_value_of_bound? hb he
  | instantiation list values => exact hvariables list e he
  | lex lists operator =>
    obtain ⟨vss, hvss, _⟩ := h
    obtain ⟨list, hlist, he⟩ := List.mem_flatten.mp he
    obtain ⟨vs, hvs⟩ := exists_of_mapM_eq_some hvss hlist
    exact exists_value_of_values? hvs he
  | channel list startIndex target =>
    obtain ⟨l, hl, _⟩ := h
    rcases List.mem_append.mp he with he | he
    · exact hvariables list e he
    · cases target with
      | itself => cases he
      | list other _ => exact hvariables other e he
      | value e' =>
        rw [List.mem_singleton.mp he]
        obtain ⟨w, hw, _⟩ := Option.map_eq_some_iff.mp hl
        exact ⟨w, hw⟩
  | cardinality list values occurs closed =>
    obtain ⟨vs, hvs, ws, hws, fs, hfs, _⟩ := h
    simp only [candidates, expressions, List.mem_append, List.mem_filterMap] at he
    rcases he with (he | he) | ⟨o, ho, hoe⟩
    · exact exists_value_of_values? hvs he
    · exact exists_value_of_values? hws he
    · obtain ⟨f, hf⟩ := exists_of_mapM_eq_some hfs ho
      cases o with
      | exactly e' =>
        cases hoe
        obtain ⟨w, hw, _⟩ := Option.map_eq_some_iff.mp hf
        exact ⟨w, hw⟩
      | between => cases hoe
  | clause literals =>
    obtain ⟨literal, _, rfl⟩ := List.mem_map.mp he
    exact ⟨ρ literal.v, rfl⟩

/-- What may be replaced in a relation is part of one of its expressions. -/
theorem Relation.exists_part_of_candidate {r : Relation} {e : Expr} (he : e ∈ r.candidates) :
    ∃ p ∈ r.expressions, e ∈ p.parts := by
  cases r with
  | intension predicate =>
    exact ⟨predicate, List.mem_cons_self, outermost_subset_parts _ he⟩
  | _ => exact ⟨e, he, self_mem_parts e⟩

theorem Target.mem_parts_of_candidate {t : Target} {e : Expr} (he : e ∈ t.candidates) :
    e ∈ t.toExpr.parts := by
  cases t with
  | expression e' => exact outermost_subset_parts _ he
  | aggregate f =>
    rcases List.mem_cons.mp he with rfl | he
    · exact self_mem_parts _
    · exact inner_subset_parts (.aggregate f) he

/-- What may be replaced in a target with a value has a value. -/
theorem Target.exists_value_of_candidate {ρ : Assignment} {t : Target} {v : Value}
    (h : t.value? ρ = some v) {e : Expr} (he : e ∈ t.candidates) :
    ∃ w, e.value? .exact ρ = some w := by
  cases t with
  | expression e' => exact exists_value_of_outermost (value?_eq_some_iff.mp h) he
  | aggregate f =>
    rcases List.mem_cons.mp he with rfl | he
    · exact ⟨v, h⟩
    · exact exists_value_of_inner h he

/-! ### Solutions -/

/-- Whether an assignment solves a problem: the variables take values of their domains,
all constraints hold, and the value to optimise exists. -/
structure Solves (I : Interpretation) (ρ : Assignment) (s : Store) (postings : List Posting)
    (objective : Option Objective) : Prop where
  within : s.Within ρ
  holds : Posting.AllHold I ρ postings
  value : ∀ o, objective = some o → ∃ w, o.target.value? ρ = some w

/-- Whether an assignment is a solution of the model. -/
def Model.Solution (I : Interpretation) (m : Model) (ρ : Assignment) : Prop :=
  Solves I ρ m.store m.postings m.objective

/-- Whether an assignment is a solution of the problem with auxiliary variables. -/
def Introduced.Solution (I : Interpretation) (p : Introduced) (σ : Assignment) : Prop :=
  Solves I σ p.store p.postings p.objective

/-- Whether an assignment leaves the declared variables of the model as they are. -/
def Model.Extends (m : Model) (ρ σ : Assignment) : Prop := ∀ v, m.store.Declares v → σ v = ρ v

/-- Whether the domain of every auxiliary variable holds each value that its expression
takes over the domains of the declared variables. -/
def Introduced.Roomy (m : Model) (p : Introduced) : Prop :=
  ∀ q ∈ p.replaced, ∀ ρ, m.store.Within ρ → ∀ w, q.1.value? .exact ρ = some w →
    (p.store.domainOf q.2).Holds w

/-- The run of the introduction on a model that can be reached: the replaced expressions
are parts of the model's, they have values in every solution, and what is written is
settled. -/
theorem Introduced.exists_completes {m : Model} {p : Introduced} (hm : m.Sound)
    (hp : ofModel m = .ok p) (I : Interpretation) :
    ∃ new, p.replaced = new.reverse ∧
      m.store.Introduces (fun e => e.WellFormed m.store.Declares ∧
        ∀ ρ, m.Solution I ρ → ∃ w, e.value? .exact ρ = some w) new p.store ∧
      Settled p.replaced (fun σ => Posting.AllHold I σ m.postings) new
        (fun σ => Posting.AllHold I σ p.postings) ∧
      Option.Rel (Introducing.ObjectiveSettled p.replaced) m.objective p.objective := by
  obtain ⟨⟨⟨postings, objective⟩, state'⟩, hrun, hp⟩ := Except.bind_eq_ok.mp hp
  cases hp
  have hclosed : Closed fun e => e.WellFormed m.store.Declares ∧
      ∀ ρ, m.Solution I ρ → ∃ w, e.value? .exact ρ = some w := by
    refine ⟨fun e he => he.1.mono fun _ _ _ => trivial, fun e he q hq => ⟨?_, fun ρ hρ => ?_⟩⟩
    · exact he.1.part (inner_subset_parts e hq)
    · obtain ⟨w, hw⟩ := he.2 ρ hρ
      exact exists_value_of_inner hw hq
  obtain ⟨new, hcompletes, hsettled, hobjective⟩ :=
    Introducing.settleModel_spec (I := I) hclosed hm.postings
      (fun q hq c hc r hr e he => by
        obtain ⟨e', he', hpart⟩ := Relation.exists_part_of_candidate he
        refine ⟨((hm.postings q hq c hc r hr).1 e' he').part hpart, fun ρ hρ => ?_⟩
        exact ((Constraint.holds_iff_relations I ρ c).mp (hρ.holds q hq c hc) r hr).exists_value e he)
      hm.objective
      (fun o ho e he => by
        refine ⟨(hm.objective o ho).part (Target.mem_parts_of_candidate he), fun ρ hρ => ?_⟩
        obtain ⟨w, hw⟩ := hρ.value o ho
        exact Target.exists_value_of_candidate hw he)
      hrun
  refine ⟨new, ?_, hcompletes.store, hsettled, hobjective⟩
  rw [hcompletes.replaced, List.append_nil]

/-- The assignment in which replaced expressions give their values to their variables. -/
def extended (ρ : Assignment) (replaced : List (Expr × Variable)) : Assignment := fun v =>
  ((replaced.find? (·.2 == v)).bind fun q => q.1.value? .exact ρ).getD (ρ v)

theorem extended_of_mem {ρ : Assignment} {replaced : List (Expr × Variable)}
    (hnodup : (replaced.map Prod.snd).Nodup) {q : Expr × Variable} (hq : q ∈ replaced)
    {w : Value} (hw : q.1.value? .exact ρ = some w) : extended ρ replaced q.2 = w := by
  have hfind : replaced.find? (·.2 == q.2) = some q := by
    have hsome : (replaced.find? (·.2 == q.2)).isSome :=
      List.find?_isSome.mpr ⟨q, hq, beq_iff_eq.mpr rfl⟩
    obtain ⟨q', hfind⟩ := Option.isSome_iff_exists.mp hsome
    have hsame : q'.2 = q.2 := by simpa using List.find?_some hfind
    rw [hfind, List.inj_on_of_nodup_map hnodup (List.mem_of_find?_eq_some hfind) hq hsame]
  rw [extended, hfind, Option.bind_some, hw]
  rfl

theorem extended_of_not_mem {ρ : Assignment} {replaced : List (Expr × Variable)} {v : Variable}
    (hv : v ∉ replaced.map Prod.snd) : extended ρ replaced v = ρ v := by
  have hfind : replaced.find? (·.2 == v) = none := by
    rw [List.find?_eq_none]
    intro q hq hqv
    exact hv (List.mem_map.mpr ⟨q, hq, beq_iff_eq.mp hqv⟩)
  rw [extended, hfind]
  rfl

/-- Values of an extension are values of what it extends, as far as declared variables are
concerned. -/
theorem Model.Extends.value?_eq {m : Model} {ρ σ : Assignment} (h : m.Extends ρ σ) {e : Expr}
    (he : e.WellFormed m.store.Declares) : e.value? .exact σ = e.value? .exact ρ :=
  value?_congr fun v hv => h v (he.knows hv)

theorem Model.Extends.allHold_iff {m : Model} (hm : m.Sound) {ρ σ : Assignment}
    (h : m.Extends ρ σ) :
    Posting.AllHold I σ m.postings ↔ Posting.AllHold I ρ m.postings := by
  refine forall₂_congr fun p hp => forall₂_congr fun c hc => ?_
  rw [Constraint.holds_iff_relations, Constraint.holds_iff_relations]
  exact forall₂_congr fun r hr => Relation.holds_congr I fun e he v hv =>
    h v (((hm.postings p hp c hc r hr).1 e he).knows hv)

theorem exists_of_rel_some {α β : Type} {R : α → β → Prop} {a : α} {y : Option β}
    (h : Option.Rel R (some a) y) : ∃ b, y = some b ∧ R a b := by
  cases h with
  | some h => exact ⟨_, rfl, h⟩

theorem exists_of_rel_some_right {α β : Type} {R : α → β → Prop} {x : Option α} {b : β}
    (h : Option.Rel R x (some b)) : ∃ a, x = some a ∧ R a b := by
  cases h with
  | some h => exact ⟨_, rfl, h⟩

namespace Introduced

variable {m : Model} {p : Introduced}

/-- The objective keeps its direction and its value under every extension that respects
what was replaced. -/
theorem objective_rel (hm : m.Sound) (hp : ofModel m = .ok p) {ρ σ : Assignment}
    (hextends : m.Extends ρ σ) (hσ : Respects σ (fun _ => True) p.replaced)
    (I : Interpretation) :
    Option.Rel (fun o o' => o'.direction = o.direction ∧
      o'.target.value? σ = o.target.value? ρ) m.objective p.objective := by
  obtain ⟨_, _, _, _, hobjective⟩ := exists_completes hm hp I
  cases ho : m.objective with
  | none =>
    rw [ho] at hobjective
    generalize p.objective = objective at hobjective
    cases hobjective
    exact .none
  | some o =>
    rw [ho] at hobjective
    obtain ⟨o', ho', h⟩ := exists_of_rel_some hobjective
    rw [ho']
    refine .some ⟨h.1, ?_⟩
    rw [h.2 σ hσ]
    exact hextends.value?_eq (hm.objective o ho)

/-- A solution of the problem with auxiliary variables respects all that was replaced. -/
theorem Solution.respects (hm : m.Sound) (hp : ofModel m = .ok p) {σ : Assignment}
    (hσ : p.Solution I σ) : Respects σ (fun _ => True) p.replaced := by
  obtain ⟨new, hreplaced, _, hsettled, _⟩ := exists_completes hm hp I
  refine hsettled.respects (fun q hq => ?_) hσ.holds
  rw [hreplaced] at hq
  exact List.mem_reverse.mp hq

/-- What a solution with auxiliary variables extends is a solution of the model. -/
theorem Solution.restrict (hm : m.Sound) (hp : ofModel m = .ok p) {ρ σ : Assignment}
    (hσ : p.Solution I σ) (hextends : m.Extends ρ σ) : m.Solution I ρ := by
  obtain ⟨new, _, hstore, hsettled, _⟩ := exists_completes hm hp I
  have hconsistent := hm.store.consistent_true
  have hrespects := hσ.respects hm hp
  refine ⟨fun v hv => ?_, ?_, fun o ho => ?_⟩
  · have hwithin := hσ.within v ((hstore.declares_iff hconsistent).mpr (.inl hv))
    rwa [hstore.domainOf_old hconsistent hv, hextends v hv] at hwithin
  · exact (hextends.allHold_iff hm).mp ((hsettled.iff σ hrespects).mp hσ.holds)
  · have hrel := objective_rel hm hp hextends hrespects I
    rw [ho] at hrel
    obtain ⟨o', ho', h⟩ := exists_of_rel_some hrel
    obtain ⟨w, hw⟩ := hσ.value o' ho'
    exact ⟨w, h.2.symm.trans hw⟩

/-- The values of the replaced expressions leave the declared variables alone. -/
theorem extends_extended (hm : m.Sound) (hp : ofModel m = .ok p) (I : Interpretation)
    (ρ : Assignment) : m.Extends ρ (extended ρ p.replaced) := by
  obtain ⟨new, hreplaced, hstore, _, _⟩ := exists_completes hm hp I
  intro v hv
  refine extended_of_not_mem fun hmem => (hstore.fresh hm.store.consistent_true).2 v ?_ hv
  rwa [hreplaced, List.map_reverse, List.mem_reverse] at hmem

/-- In a solution of the model the replaced expressions have values, and with these the
auxiliary variables respect them. -/
theorem respects_extended (hm : m.Sound) (hp : ofModel m = .ok p) {ρ : Assignment}
    (hρ : m.Solution I ρ) :
    ∀ q ∈ p.replaced, q.1.value? .exact ρ = some (extended ρ p.replaced q.2) := by
  obtain ⟨new, hreplaced, hstore, _, _⟩ := exists_completes hm hp I
  have hnodup : (p.replaced.map Prod.snd).Nodup := by
    rw [hreplaced, List.map_reverse, List.nodup_reverse]
    exact (hstore.fresh hm.store.consistent_true).1
  intro q hq
  obtain ⟨w, hw⟩ := (hstore.kind q (by rwa [hreplaced, List.mem_reverse] at hq)).2 ρ hρ
  rw [extended_of_mem hnodup hq hw, hw]

/-- A solution of the model extends to a solution with auxiliary variables. -/
theorem solution_extended (hm : m.Sound) (hp : ofModel m = .ok p) (hroomy : p.Roomy m)
    {ρ : Assignment} (hρ : m.Solution I ρ) : p.Solution I (extended ρ p.replaced) := by
  obtain ⟨new, hreplaced, hstore, hsettled, _⟩ := exists_completes hm hp I
  have hconsistent := hm.store.consistent_true
  have hextends := extends_extended hm hp I ρ
  have hvalues := respects_extended hm hp hρ
  have hrespects : Respects (extended ρ p.replaced) (fun _ => True) p.replaced := by
    intro q hq _
    have hwell := (hstore.kind q (by rwa [hreplaced, List.mem_reverse] at hq)).1
    rw [hextends.value?_eq hwell, hvalues q hq]
  refine ⟨fun v hv => ?_, ?_, fun o' ho' => ?_⟩
  · rcases (hstore.declares_iff hconsistent).mp hv with hv | hv
    · rw [hstore.domainOf_old hconsistent hv, hextends v hv]
      exact hρ.within v hv
    · obtain ⟨q, hq, rfl⟩ := List.mem_map.mp hv
      have hq : q ∈ p.replaced := by rwa [hreplaced, List.mem_reverse]
      exact hroomy q hq ρ hρ.within _ (hvalues q hq)
  · exact (hsettled.iff _ hrespects).mpr ((hextends.allHold_iff hm).mpr hρ.holds)
  · have hrel := objective_rel hm hp hextends hrespects I
    rw [ho'] at hrel
    obtain ⟨o, ho, h⟩ := exists_of_rel_some_right hrel
    obtain ⟨w, hw⟩ := hρ.value o ho
    exact ⟨w, h.2.trans hw⟩

/-- Introducing auxiliary variables preserves the solutions of a model and its objective,
provided that every auxiliary variable has room for the values of its expression: an
assignment is a solution exactly when it extends to a solution of the problem with
auxiliary variables; the extension is unique; and under it the objective has the
direction and the value it had. -/
theorem ofModel_preserves_solutions (hm : m.Reachable) (hp : ofModel m = .ok p)
    (hroomy : p.Roomy m) (I : Interpretation) (ρ : Assignment) :
    (m.Solution I ρ ↔ ∃ σ, m.Extends ρ σ ∧ p.Solution I σ) ∧
    (∀ σ σ', m.Extends ρ σ → p.Solution I σ → m.Extends ρ σ' → p.Solution I σ' →
      ∀ v, p.store.Declares v → σ v = σ' v) ∧
    ∀ σ, m.Extends ρ σ → p.Solution I σ →
      Option.Rel (fun o o' => o'.direction = o.direction ∧
        o'.target.value? σ = o.target.value? ρ) m.objective p.objective := by
  have hm := hm.sound
  refine ⟨⟨fun hρ => ?_, ?_⟩, ?_, ?_⟩
  · exact ⟨_, extends_extended hm hp I ρ, solution_extended hm hp hroomy hρ⟩
  · rintro ⟨σ, hextends, hσ⟩
    exact hσ.restrict hm hp hextends
  · intro σ σ' hextends hσ hextends' hσ' v hv
    obtain ⟨new, hreplaced, hstore, _, _⟩ := exists_completes hm hp I
    rcases (hstore.declares_iff hm.store.consistent_true).mp hv with hv | hv
    · rw [hextends v hv, hextends' v hv]
    · obtain ⟨q, hq, rfl⟩ := List.mem_map.mp hv
      have hwell := (hstore.kind q hq).1
      have hq : q ∈ p.replaced := by rwa [hreplaced, List.mem_reverse]
      -- both extensions give the expression the value it has under `ρ`
      have hvalue := hσ.respects hm hp q hq trivial
      have hvalue' := hσ'.respects hm hp q hq trivial
      rw [hextends.value?_eq hwell] at hvalue
      rw [hextends'.value?_eq hwell, hvalue] at hvalue'
      exact Option.some_inj.mp hvalue'
  · exact fun σ hextends hσ => objective_rel hm hp hextends (hσ.respects hm hp) I

/-- What makes the integers from 0 to 2, which the examples range over, an interval. -/
theorem inf_lt_sup : (0 : Int) < 2 := by decide

/-! ### A variable and its successor -/

namespace Successor

/-- A variable from 0 to 2. -/
def x : Variable := ⟨0, 0⟩

/-- The variable that stands for the successor of `x`. -/
def next : Variable := ⟨0, 1⟩

def successor : Expr := .apply .add [.var x, .const 1]

def declared : Store where
  model := 0
  domains := ⟨#[⟨[.interval ⟨0, 2, inf_lt_sup⟩]⟩]⟩
  infos := ⟨#[⟨"v0", 0, none⟩]⟩
  declarations := [.alone x]
  unnamedVariables := 1

/-- The model before anything is posted. -/
def blank : Model where
  instanceName := {}
  store := declared

/-- A variable that differs from its successor. -/
def model : Model where
  instanceName := {}
  store := declared
  postings := [⟨.single (.relation (.allDifferent [successor, .var x] [])), {}⟩]

/-- The model with a variable for the successor. -/
def introduced : Introduced where
  store :=
    { declared with
      domains := declared.domains.push ⟨[.interval ⟨1, 3, by decide⟩]⟩
      infos := declared.infos.push ⟨"aux_gb[0]", 1, some ⟨0, 0⟩⟩
      arrays := ⟨#[⟨"aux_gb", [1], [some next]⟩]⟩
      declarations := [.alone x, .array 0]
      auxiliaryArray := some 0 }
  postings :=
    [⟨.single (.relation (.allDifferent [.var next, .var x] [])), {}⟩,
      ⟨.single (.relation (Introducing.link next successor)), {}⟩]
  objective := none
  replaced := [(successor, next)]

/-- Lists are different when no value occurs twice; nothing else ever holds. -/
def interpretation : Interpretation where
  extension _ _ := False
  allDifferent vs _ := vs.Nodup
  allEqual _ := False
  ordered _ _ := False
  circuit _ _ := False
  noOverlap _ _ _ := False
  cumulative _ _ _ _ _ := False
  instantiation _ _ := False
  lex _ _ := False
  channel _ _ _ := False
  cardinality _ _ _ _ := False
  regular _ _ := False
  mdd _ _ := False
  precedence _ _ _ := False
  clause _ := False

theorem ofModel_model : ofModel model = .ok introduced := by
  cbv

theorem built_x : (Expr.var x).Built blank.HandsOut := .var fun _ => ⟨rfl, by decide⟩

/-- The successor is put together over the variable that the model handed out. -/
theorem built_successor : successor.Built blank.HandsOut := by
  have hsum : Expr.applyChecked .add [.var x, .const 1] = .ok successor := by
    cbv
  refine .apply (fun e he => ?_) hsum
  rcases List.mem_pair.mp he with rfl | rfl
  · exact built_x
  · exact .const (by decide)

theorem reachable_model : model.Reachable := by
  have hdomain : Domain.ofSpec (.range 0 2 1) = .ok ⟨[.interval ⟨0, 2, by decide⟩]⟩ := by
    cbv
  have hdeclared : (Model.empty 0 {}).addVariable none ⟨[.interval ⟨0, 2, by decide⟩]⟩ =
      .ok (x, blank) := by
    cbv
  have hblank : blank.Reachable :=
    .addVariable (.empty 0 {}) (.ofSpec (by decide) hdomain) hdeclared
  have hdifferent : Constraint.allDifferent [successor, .var x] [] =
      .ok (.relation (.allDifferent [successor, .var x] [])) := by
    cbv
  have hitem : (Item.constraint (.relation (.allDifferent [successor, .var x] []))).Built
      blank.HandsOut := by
    refine .constraint (.allDifferent (fun e he => ?_) hdifferent)
    rcases List.mem_pair.mp he with rfl | rfl
    · exact built_successor
    · exact built_x
  have hpost : blank.post (.constraint (.relation (.allDifferent [successor, .var x] []))) {} =
      .ok (model, []) := by
    cbv
  exact .post hblank hitem hpost

theorem value?_successor {ρ : Assignment} {n : Int} (h : ρ x = .integer n) :
    successor.value? .exact ρ = some (.integer (n + 1)) := by
  have hx : (Expr.var x).integer? .exact ρ = some n := by
    rw [integer?_eq, Introducing.value?_var, h]
    rfl
  rw [value?_eq_some_iff, successor, read_apply_of_isAssociative rfl, List.mapM_cons, hx]
  rfl

theorem roomy_introduced : introduced.Roomy model := by
  intro q hq ρ hρ w hw
  rw [List.mem_singleton.mp hq] at hw ⊢
  have hx : (⟨[.interval ⟨0, 2, by decide⟩]⟩ : Domain).Holds (ρ x) := hρ x ⟨rfl, by decide⟩
  cases hvalue : ρ x with
  | symbol text =>
    rw [hvalue] at hx
    cases hx
  | integer n =>
    rw [hvalue] at hx
    rw [value?_successor hvalue] at hw
    cases hw
    have hx : (decide (0 ≤ n) && decide (n ≤ 2) || false) = true := hx
    show (decide (1 ≤ n + 1) && decide (n + 1 ≤ 3) || false) = true
    simp only [Bool.or_false, Bool.and_eq_true, decide_eq_true_eq] at hx ⊢
    omega

/-- The assignment of one to every variable extends to the successor. -/
theorem solution_extends : ∃ σ, model.Extends (fun _ => .integer 1) σ ∧
    introduced.Solution interpretation σ := by
  refine (ofModel_preserves_solutions reachable_model ofModel_model roomy_introduced
    interpretation fun _ => .integer 1).1.mp ⟨?_, ?_, fun o ho => nomatch ho⟩
  · rintro ⟨number, index⟩ ⟨hmodel, hindex⟩
    have hindex : index < 1 := hindex
    obtain rfl := Nat.lt_one_iff.mp hindex
    show (decide ((0 : Int) ≤ 1) && decide ((1 : Int) ≤ 2) || false) = true
    decide
  · intro p hp c hc
    rw [List.mem_singleton.mp hp] at hc
    rw [List.mem_singleton.mp hc]
    have hdifferent : [Value.integer 2, .integer 1].Nodup := by decide
    refine ⟨[.integer 2, .integer 1], ?_, hdifferent⟩
    rw [values?_eq_mapM, List.mapM_cons, value?_successor rfl]
    rfl

end Successor

end Introduced
end CspModel
