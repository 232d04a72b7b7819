import CspModel.Compile
import CspModel.Proofs.Declared

/-! # Models that can be reached

A model is reached by declaring, posting, optimising, annotating and compiling, in any
order, over constraints and expressions that were built from the variables the model
handed out.  Whatever the order, the relations of its postings and its objective are
well-formed and stated over declared variables only (`Reachable.sound`): a handle that
another model handed out is refused when it is used, and no declaration is ever taken
back.
-/
namespace CspModel

/-- Items put together over the variables that were handed out. -/
inductive Item.Built (known : Variable → Prop) : Item → Prop
  | constraint {c : Constraint} : c.Built known → Item.Built known (.constraint c)
  | expression {e : Expr} : e.Built known → Item.Built known (.expression e)
  | aggregate {f : Aggregate Expr} : f.Built known → Item.Built known (.aggregate f)
  | list {items : List Item} : (∀ item ∈ items, Item.Built known item) →
      Item.Built known (.list items)

/-- Targets put together over the variables that were handed out. -/
inductive Target.Built (known : Variable → Prop) : Target → Prop
  | ofExpr {e : Expr} : e.Built known → Target.Built known (.ofExpr e)
  | aggregate {f : Aggregate Expr} : f.Built known → Target.Built known (.aggregate f)

namespace Model

/-- A handle that names the model as its own is one the model handed out. -/
def HandsOut (m : Model) (v : Variable) : Prop := v.model = m.store.model → m.store.Declares v

/-- The models that the operations on models lead to. -/
inductive Reachable : Model → Prop
  | empty (number : Nat) (name : InstanceName) : Reachable (.empty number name)
  | addVariable {m m' : Model} {name : Option String} {d : Domain} {v : Variable} :
      Reachable m → d.Built → m.addVariable name d = .ok (v, m') → Reachable m'
  | addArray {m m' : Model} {name : Option String} {shape : List Nat} {array : VarArray}
      {domainAt : List Nat → Option Domain} :
      Reachable m → (∀ indices d, domainAt indices = some d → d.Built) →
      m.addArray name shape domainAt = .ok (array, m') → Reachable m'
  | post {m m' : Model} {item : Item} {decoration : Decoration} {notices : List Notice} :
      Reachable m → item.Built m.HandsOut → m.post item decoration = .ok (m', notices) →
      Reachable m'
  | optimize {m m' : Model} {direction : Direction} {target : Target} :
      Reachable m → target.Built m.HandsOut → m.optimize direction target = .ok m' →
      Reachable m'
  | annotateDecision {m m' : Model} {list : List Variable} {notices : List Notice} :
      Reachable m → m.annotateDecision list = .ok (m', notices) → Reachable m'
  | annotateValueHeuristic {m m' : Model} {list : List Variable} {values : List Int}
      {notices : List Notice} :
      Reachable m → m.annotateValueHeuristic list values = .ok (m', notices) → Reachable m'
  | compile {m : Model} {options : Options} : Reachable m → Reachable (m.compile options).1

/-- What holds of every model that can be reached. -/
structure Sound (m : Model) : Prop where
  store : m.store.Built
  postings : ∀ p ∈ m.postings, ∀ c ∈ p.body.constraints, ∀ r ∈ c.relations,
    r.WellFormed m.store.Declares
  objective : ∀ o, m.objective = some o → o.target.toExpr.WellFormed m.store.Declares

end Model

/-! ### What the checks ensure -/

theorem Item.exists_of_mem_flattenAll {items : List Item} {constraints : List Constraint}
    (h : flattenAll items = .ok constraints) {c : Constraint} (hc : c ∈ constraints) :
    ∃ item ∈ items, ∃ here, item.flatten = .ok here ∧ c ∈ here := by
  induction items generalizing constraints with
  | nil =>
    cases h
    cases hc
  | cons item rest ih =>
    obtain ⟨here, hhere, h⟩ := Except.bind_eq_ok.mp h
    obtain ⟨later, hlater, rfl⟩ := Except.map_eq_ok.mp h
    rcases List.mem_append.mp hc with hc | hc
    · exact ⟨item, List.mem_cons_self, here, hhere, hc⟩
    · obtain ⟨item', hitem', h⟩ := ih hlater hc
      exact ⟨item', List.mem_cons_of_mem _ hitem', h⟩

/-- The constraints of an item that was built were built. -/
theorem Item.Built.flatten {known : Variable → Prop} {item : Item} (h : item.Built known)
    {constraints : List Constraint} (hitem : item.flatten = .ok constraints) :
    ∀ c ∈ constraints, c.Built known := by
  induction h generalizing constraints with
  | constraint hc =>
    cases hitem
    intro c' hc'
    rwa [List.mem_singleton.mp hc']
  | expression he =>
    obtain ⟨c, hc, rfl⟩ := Except.map_eq_ok.mp hitem
    intro c' hc'
    rw [List.mem_singleton.mp hc']
    exact .intension he hc
  | aggregate _ => cases hitem
  | list _ ih =>
    intro c hc
    obtain ⟨item, hitem, here, hhere, hc⟩ := Item.exists_of_mem_flattenAll hitem hc
    exact ih item hitem hhere c hc

namespace Model

variable {m m' : Model}

theorem checkOpen_bind {α : Type} {f : Unit → Except ModelError α} {a : α}
    (h : m.checkOpen >>= f = .ok a) : f () = .ok a := by
  obtain ⟨_, _, h⟩ := Except.bind_eq_ok.mp h
  exact h

theorem model_eq_of_check {v : Variable} (h : m.store.check v = .ok ()) :
    v.model = m.store.model := by
  unfold Store.check at h
  split at h
  · assumption
  · cases h

theorem model_eq_of_checkScope {list : List Variable} (h : m.checkScope list = .ok ()) :
    ∀ v ∈ list, v.model = m.store.model := by
  induction list with
  | nil => exact fun v hv => nomatch hv
  | cons v rest ih =>
    rw [checkScope] at h
    split at h
    · cases h
    · rename_i hv
      intro w hw
      rcases List.mem_cons.mp hw with rfl | hw
      · exact model_eq_of_check hv
      · exact ih h w hw

theorem model_eq_of_checkTarget {list : List Variable} (h : m.checkTarget list = .ok ()) :
    ∀ v ∈ list, v.model = m.store.model := by
  induction list with
  | nil => exact fun v hv => nomatch hv
  | cons v rest ih =>
    rw [checkTarget] at h
    split at h
    · cases h
    · rename_i hv
      split at h
      · cases h
      · intro w hw
        rcases List.mem_cons.mp hw with rfl | hw
        · exact model_eq_of_check hv
        · exact ih h w hw

/-- The variables of a valid constraint belong to the model. -/
theorem model_eq_of_validate {c : Constraint} (h : m.validate c = .ok ()) :
    ∀ v ∈ c.scope, v.model = m.store.model := by
  cases c with
  | relation r | slide windows =>
    rw [validate] at h
    obtain ⟨_, h, _⟩ := Except.bind_eq_ok.mp h
    exact model_eq_of_checkScope h

theorem validate_of_validateAll {constraints : List Constraint}
    (h : m.validateAll constraints = .ok ()) : ∀ c ∈ constraints, m.validate c = .ok () := by
  induction constraints with
  | nil => exact fun c hc => nomatch hc
  | cons c rest ih =>
    rw [validateAll] at h
    obtain ⟨_, hc, h⟩ := Except.bind_eq_ok.mp h
    intro c' hc'
    rcases List.mem_cons.mp hc' with rfl | hc'
    · exact hc
    · exact ih h c' hc'

/-- What was built from handles of the model is about its declared variables. -/
theorem wellFormed_of_handsOut {e : Expr} (h : e.WellFormed m.HandsOut)
    (hmodel : ∀ v ∈ e.occurrences, v.model = m.store.model) : e.WellFormed m.store.Declares :=
  h.mono fun v hv hhands => hhands (hmodel v hv)

/-- A valid constraint that was built is about declared variables. -/
theorem wellFormed_of_validate {c : Constraint} (h : m.validate c = .ok ())
    (hc : c.Built m.HandsOut) : ∀ r ∈ c.relations, r.WellFormed m.store.Declares := by
  intro r hr
  obtain ⟨hexpressions, hfunction⟩ := hc.wellFormed r hr
  refine ⟨fun e he => wellFormed_of_handsOut (hexpressions e he) fun v hv => ?_, hfunction⟩
  refine model_eq_of_validate h v ?_
  rw [Constraint.scope, List.mem_eraseDups]
  exact List.mem_flatMap.mpr ⟨e, List.mem_flatMap.mpr ⟨r, hr, he⟩, hv⟩

/-- What a model needs to stay sound when only its store changes. -/
theorem Sound.of_store {s : Store} (h : m.Sound) (hs : s.Built)
    (hdeclares : ∀ v, m.store.Declares v → s.Declares v) : Sound { m with store := s } where
  store := hs
  postings p hp c hc r hr :=
    let ⟨hexpressions, hfunction⟩ := h.postings p hp c hc r hr
    ⟨fun e he => (hexpressions e he).mono fun v _ => hdeclares v, hfunction⟩
  objective o ho := (h.objective o ho).mono fun v _ => hdeclares v

theorem Sound.post {item : Item} {decoration : Decoration} {notices : List Notice}
    (hm : m.Sound) (hitem : item.Built m.HandsOut)
    (h : m.post item decoration = .ok (m', notices)) : m'.Sound := by
  have h := checkOpen_bind h
  obtain ⟨constraints, hflatten, h⟩ := Except.bind_eq_ok.mp h
  obtain ⟨_, hvalid, h⟩ := Except.bind_eq_ok.mp h
  have hbuilt := hitem.flatten hflatten
  split at h
  · cases h
    exact hm
  · cases h
    refine ⟨hm.store, fun p hp => ?_, hm.objective⟩
    rcases List.mem_append.mp hp with hp | hp
    · exact hm.postings p hp
    · intro c hc
      have hc : c ∈ constraints := by
        rw [List.mem_singleton.mp hp] at hc
        dsimp only at hc
        split at hc
        · exact hc
        · rwa [Body.constraints_ofList] at hc
      exact wellFormed_of_validate (m := m) (validate_of_validateAll hvalid c hc) (hbuilt c hc)

theorem Sound.optimize {direction : Direction} {target : Target} (hm : m.Sound)
    (htarget : target.Built m.HandsOut) (h : m.optimize direction target = .ok m') :
    m'.Sound := by
  have hwell : target.toExpr.WellFormed m.HandsOut := by
    cases htarget with
    | ofExpr he =>
      rw [Target.toExpr_ofExpr]
      exact he.wellFormed
    | aggregate hf => exact hf.wellFormed
  have h := checkOpen_bind h
  simp only [bind, Except.bind] at h
  split at h
  · cases h
  · split at h
    · cases h
    · obtain ⟨_, hscope, h⟩ := Except.bind_eq_ok.mp h
      cases h
      refine ⟨hm.store, hm.postings, fun o ho => ?_⟩
      cases ho
      refine wellFormed_of_handsOut (m := m) hwell fun v hv => ?_
      exact model_eq_of_checkTarget hscope v (List.mem_eraseDups.mpr hv)

/-- Every model that can be reached is sound. -/
theorem Reachable.sound (h : m.Reachable) : m.Sound := by
  induction h with
  | empty number name => exact ⟨.new number, fun p hp => (nomatch hp), fun o ho => (nomatch ho)⟩
  | addVariable _ hd h ih =>
    have h := checkOpen_bind h
    obtain ⟨⟨v, s⟩, hdeclare, h⟩ := Except.bind_eq_ok.mp h
    cases h
    have hadds := Store.adds_declareVariable ih.store.consistent_true hdeclare
    exact ih.of_store (.declareVariable ih.store hd hdeclare)
      fun w hw => hadds.declares_iff.mpr (.inr hw)
  | addArray _ hd h ih =>
    rw [addArray_eq] at h
    have h := checkOpen_bind h
    obtain ⟨⟨array, s⟩, hdeclare, h⟩ := Except.bind_eq_ok.mp h
    cases h
    exact ih.of_store (.declareArray ih.store hd hdeclare)
      fun w hw => Store.declares_declareArray hdeclare hw
  | post _ hitem h ih => exact ih.post hitem h
  | optimize _ htarget h ih => exact ih.optimize htarget h
  | annotateDecision _ h ih | annotateValueHeuristic _ h ih =>
    have h := checkOpen_bind h
    obtain ⟨_, _, h⟩ := Except.bind_eq_ok.mp h
    split at h
    · cases h
      exact ih
    · cases h
      exact ⟨ih.store, ih.postings, ih.objective⟩
  | compile _ ih => exact ⟨ih.store, ih.postings, ih.objective⟩

end Model
end CspModel
