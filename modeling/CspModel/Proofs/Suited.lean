import CspModel.Proofs.Operations
import CspModel.Proofs.Placement
import CspModel.Proofs.Refusals
import CspModel.Proofs.Requests
import CspModel.Proofs.Tables

/-! # Variables of the kinds of their columns

What is posted suits the domains of its variables, and it keeps doing so: a declared
variable keeps its domain whatever is declared after it (`Model.Reachable.suited`).  The
introduction of auxiliary variables leaves a variable in its column and puts a new variable
where an expression or a constant was posted.  The new variable is a number, and no check
has compared it with its column (`Introduced.suits`).
-/
namespace CspModel

open CspModel.Expr

/-! ### Posted relations -/

/-- Whether a relation suits its domains depends on the domains of its variables only. -/
theorem Relation.Unsuited.congr {s s' : Store} {r : Relation}
    (hs : ∀ e ∈ r.expressions, ∀ v ∈ e.occurrences, s'.domainOf v = s.domainOf v)
    (h : r.Unsuited s') : r.Unsuited s := by
  cases h with
  | mixed htuple hmixed => exact .mixed htuple hmixed
  | uneven hk hne h h' => exact .uneven hk hne h h'
  | @column list table k v kind hv hkind hne =>
    refine .column hv hkind ?_
    rwa [← hs _ (List.mem_of_getElem? hv) v (List.mem_singleton_self v)]
  | @channel list startIndex e v hv hbinary =>
    refine .channel hv ?_
    rwa [← hs _ (List.mem_append_left _ (List.mem_map_of_mem hv)) v (List.mem_singleton_self v)]
  | @clause literals literal hliteral hbinary =>
    refine .clause hliteral ?_
    rwa [← hs _ (List.mem_map_of_mem hliteral) _ (List.mem_singleton_self _)]

namespace Store

variable {s s' : Store} {P : Domain → Prop} {v : Variable}

/-- Adding the cells of an array keeps the domains of what is declared. -/
theorem domainOf_addCells (name : String) (key : Nat) {domainAt : List Nat → Option Domain}
    (hdomains : ∀ indices d, domainAt indices = some d → P d) (cells : List (List Nat × Nat))
    (hs : s.Consistent P) (hv : s.Declares v) :
    (addCells name key domainAt cells s).2.domainOf v = s.domainOf v := by
  induction cells generalizing s with
  | nil => rfl
  | cons cell rest ih =>
    rw [addCells_cons]
    split
    · exact ih hs hv
    · rename_i d hd
      have hadds := adds_addVariable hs (VarArray.cellName name cell.1) d (some ⟨key, cell.2⟩)
      refine (ih (hadds.consistent hs (hdomains _ d hd)) (hadds.declares_iff.mpr (.inr hv))).trans ?_
      exact hadds.domainOf_old v hv.2

/-- Declaring an array keeps the domains of what is declared. -/
theorem domainOf_declareArray {name : Option String} {shape : List Nat} {array : VarArray}
    {domainAt : List Nat → Option Domain} (hs : s.Consistent P)
    (hdomains : ∀ indices d, domainAt indices = some d → P d)
    (h : s.declareArray name shape domainAt = .ok (array, s')) (hv : s.Declares v) :
    s'.domainOf v = s.domainOf v := by
  obtain ⟨text, key, t, ht, hcells⟩ := alike_declareArray h
  rw [hcells.domainOf v, ← ht.domainOf v]
  exact domainOf_addCells text key hdomains (Grid.tuples shape).zipIdx (ht.consistent.mpr hs)
    (ht.declares.mpr hv)

end Store

namespace Model

variable {m : Model}

/-- Whether all that a model posts suits the domains of its variables. -/
def Suited (m : Model) : Prop :=
  ∀ p ∈ m.postings, ∀ c ∈ p.body.constraints, ∀ r ∈ c.relations, ¬r.Unsuited m.store

/-- What suits its domains suits them when more is declared. -/
theorem Suited.of_store {s : Store} (hm : m.Sound) (h : m.Suited)
    (hs : ∀ v, m.store.Declares v → s.domainOf v = m.store.domainOf v) :
    Suited { m with store := s } := fun p hp c hc r hr hunsuited =>
  h p hp c hc r hr (hunsuited.congr fun e he v hv =>
    hs v (((hm.postings p hp c hc r hr).1 e he).knows hv))

/-- A declared variable keeps its domain whatever is changed. -/
theorem Changes.domainOf_old {m' : Model} {c : Change} (hm : m.Reachable) (h : m.Changes c m')
    {v : Variable} (hv : m.store.Declares v) : m'.store.domainOf v = m.store.domainOf v := by
  have hs := hm.sound.store.consistent_true
  cases h with
  | addVariable hdeclare => exact (Store.adds_declareVariable hs hdeclare).domainOf_old v hv.2
  | addArray hdeclare =>
    exact Store.domainOf_declareArray hs (fun _ _ _ => trivial) hdeclare hv
  | _ => rfl

/-- Whatever a model has posted suits the domains of its variables. -/
theorem Reachable.suited (h : m.Reachable) : m.Suited := by
  induction h using Reachable.of_changes with
  | empty number name => exact fun p hp => nomatch hp
  | compile _ ih => exact ih
  | change hm _ hc ih =>
    have hold := @Changes.domainOf_old _ _ _ hm hc
    cases hc with
    | addVariable | addArray => exact ih.of_store hm.sound fun _ => hold
    | @post item decoration body hflatten hvalid hne =>
      intro p hp
      rcases List.mem_append.mp hp with hp | hp
      · exact ih p hp
      · rw [List.mem_singleton.mp hp]
        exact fun c hc r hr hunsuited =>
          (validateAll_eq_ok_iff body.constraints).mp hvalid c hc
            (.of_relation (.unsuited hunsuited) hr)
    | _ => exact ih

end Model

/-! ### Auxiliary variables -/

/-- The possible values of an expression are numbers. -/
theorem kind_possibleValues {s : Store} {e : Expr} {d : Domain}
    (h : possibleValues s e = .ok d) : d.kind = .integer := by
  obtain ⟨values, -, h⟩ := Except.bind_eq_ok.mp h
  obtain ⟨runs, rfl⟩ := values.exists_ofRuns_of_toDomain h
  exact Domain.kind_ofRuns runs

/-- Auxiliary variables are numbers. -/
theorem Store.Introduces.kind_domainOf {S : Expr → Prop} {s s' : Store}
    {new : List (Expr × Variable)} (h : s.Introduces S new s') (hs : s.Consistent fun _ => True) :
    ∀ v ∈ new.map Prod.snd, (s'.domainOf v).kind = .integer := by
  induction h with
  | nil => exact fun v hv => nomatch hv
  | @snoc new s' e d h _ hd ih =>
    have hadds := adds_declareAuxiliary (h.consistent hs) d
    intro v hv
    rw [List.map_append, List.map_singleton] at hv
    rcases List.mem_append.mp hv with hv | hv
    · rw [hadds.domainOf_old v ((h.declares_iff hs).mpr (.inr hv)).2]
      exact ih v hv
    · rw [List.mem_singleton.mp hv, hadds.domainOf_new]
      exact kind_possibleValues hd

/-! ### Settled relations -/

/-- Whether the variables of an extension fit the kinds of their columns. -/
def Relation.Fits (fits : Variable → Kind → Prop) (r : Relation) : Prop :=
  ∀ list table, r = .extension list table → ∀ (k : Nat) v kind, list[k]? = some (.var v) →
    table.HasKind k kind → fits v kind

namespace Introducing

section
variable {sort : Relation → Prop} {new : Variable → Prop} (hsort : ∀ v e, sort (link v e))
include hsort

/-- An auxiliary variable is one of the new ones, and brings along a link. -/
theorem steps_auxiliary (e : Expr) : Steps sort new True (auxiliary e) new where
  subset hrun := by
    rcases auxiliary_eq_ok hrun with ⟨rfl, _⟩ | ⟨d, _, _, rfl⟩
    · exact List.Subset.refl _
    · exact List.subset_cons_self _ _
  result hrun hknows hpending _ := by
    rcases auxiliary_eq_ok hrun with ⟨rfl, hmem⟩ | ⟨d, _, _, rfl⟩
    · exact ⟨hpending, hknows _ hmem⟩
    · refine ⟨fun r hr => ?_, hknows _ List.mem_cons_self⟩
      rcases List.mem_append.mp hr with hr | hr
      · exact hpending r hr
      · rw [List.mem_singleton.mp hr]
        exact hsort _ _

/-- Whatever a step asks for, the links it brings along are those of auxiliary variables. -/
theorem Asks.steps {α : Type} {P : Prop} {es : List Expr} {x : Introducing α} (hx : Asks es x) :
    Steps sort new P x fun _ => True := by
  induction hx with
  | pure => exact .pure fun _ => trivial
  | auxiliary e => exact (steps_auxiliary hsort e).imp (fun _ => trivial) fun _ _ _ => trivial
  | bind _ _ hx hf => exact hx.bind fun a => (hf a).under And.left
  | overflow => exact .throw
  | congr _ _ hx => exact hx

/-- A variable stays where it is, and anything else makes place for a new one. -/
theorem steps_variableOnly (e : Expr) : Steps sort new True (variableOnly e)
    fun e' => ∀ v, e' = .var v → e = .var v ∨ new v := by
  unfold variableOnly
  split
  · exact .pure fun _ v hv => .inl hv
  · refine (steps_auxiliary hsort e).map fun w _ hw v hv => .inr ?_
    rwa [← Expr.var.inj hv]

end

/-! #### Extensions -/

variable {fits : Variable → Kind → Prop} {new : Variable → Prop}

theorem fits_link (v : Variable) (e : Expr) : (link v e).Fits fits := by
  intro list table h
  cases e <;> cases h

/-- Settling leaves the variables of an extension in their columns, and the rest makes place
for variables that fit. -/
theorem steps_settleRelation (hnew : ∀ v kind, new v → fits v kind) (r : Relation) :
    Steps (Relation.Fits fits) new (r.Fits fits) (settleRelation r) (Relation.Fits fits) := by
  have hany : ∀ {α : Type} {P : Prop} {es : List Expr} {x : Introducing α}, Asks es x →
      Steps (Relation.Fits fits) new P x fun _ => True := fun hx => hx.steps fits_link
  have hvariables : ∀ {P : Prop} list, Steps (Relation.Fits fits) new P (variablesOnly list)
      fun list' => List.Forall₂ (fun e e' => ∀ v, e' = .var v → e = .var v ∨ new v) list list' :=
    fun list => .forall₂_mapM fun e _ => (steps_variableOnly fits_link e).under fun _ => trivial
  cases r with
  | extension list table =>
    refine (hvariables list).map fun list' h hlist' => ?_
    rintro list'' table' ⟨⟩ k v kind hv hkind
    obtain ⟨hlength, hplaces⟩ := forall₂_iff_getElem?.mp hlist'
    have hk : k < list.length := hlength ▸ (List.getElem?_eq_some_iff.mp hv).1
    have he := List.getElem?_eq_getElem hk
    rcases hplaces k _ _ he hv v rfl with hvar | hv
    · exact h list table rfl k v kind (hvar ▸ he) hkind
    · exact hnew v kind hv
  | intension predicate => exact (hany (asks_lift predicate)).map fun e _ _ => nofun
  | allDifferent list | allEqual list | ordered list =>
    exact (hany (asks_leaves list)).map fun list' _ _ => nofun
  | circuit list | regular list | mdd list | precedence list =>
    exact (hany (asks_variablesOnly list)).map fun list' _ _ => nofun
  | conditional function condition =>
    exact (hany (asks_settleAggregate function)).bind fun f' =>
      (hany (asks_settleCondition condition)).bind fun c' => .pure fun _ => nofun
  | noOverlap origins lengths zeroIgnored =>
    exact (hany (asks_variablesOnly origins)).bind fun origins' =>
      (hany (asks_leaves lengths)).bind fun lengths' => .pure fun _ => nofun
  | cumulative origins lengths heights condition =>
    exact (hany (asks_variablesOnly origins)).bind fun origins' =>
      (hany (asks_leaves lengths)).bind fun lengths' =>
      (hany (asks_leaves heights)).bind fun heights' =>
      (hany (asks_settleCondition condition)).bind fun c' => .pure fun _ => nofun
  | instantiation | clause => exact .pure fun _ => nofun
  | lex lists operator =>
    exact (hany (.mapM fun list _ => asks_leaves list)).map fun lists' _ _ => nofun
  | channel list startIndex target =>
    exact (hany (asks_settleTarget target)).map fun t' _ _ => nofun
  | cardinality list values occurs closed =>
    exact (hany (asks_variablesOnly list)).bind fun list' =>
      (hany (asks_leaves values)).bind fun values' =>
      (hany (.mapM fun o _ => asks_settleOccurrence o)).bind fun occurs' => .pure fun _ => nofun

end Introducing

namespace Introduced

variable {m : Model} {p : Introduced}

/-- An auxiliary variable is none of the model, and it is a number. -/
theorem auxiliary_spec (hm : m.Sound) (hp : ofModel m = .ok p) {v : Variable}
    (hv : v ∈ p.replaced.map Prod.snd) :
    ¬m.store.Declares v ∧ (p.store.domainOf v).kind = .integer := by
  obtain ⟨new, hreplaced, hstore⟩ := exists_introduces hm hp
  have hv : v ∈ new.map Prod.snd := by
    rwa [hreplaced, List.map_reverse, List.mem_reverse] at hv
  exact ⟨(hstore.fresh hm.store.consistent_true).2 v hv,
    hstore.kind_domainOf hm.store.consistent_true v hv⟩

/-- In every extension that is written of a model, a variable is of the kind of its column,
unless it is an auxiliary one, which is a number. -/
theorem suits (hm : m.Reachable) (hp : ofModel m = .ok p) {posting : Posting}
    (hposting : posting ∈ p.postings) {c : Constraint} (hc : c ∈ posting.body.constraints)
    {list : List Expr} {table : Table} (hr : .extension list table ∈ c.relations) {k : Nat}
    {v : Variable} (hv : list[k]? = some (.var v)) {kind : Kind} (hkind : table.HasKind k kind) :
    (p.store.domainOf v).kind = kind ∨
      ¬m.store.Declares v ∧ (p.store.domainOf v).kind = .integer := by
  obtain ⟨_, _, hstore⟩ := exists_introduces hm.sound hp
  let fits : Variable → Kind → Prop := fun v kind =>
    v ∈ p.replaced.map Prod.snd ∨ (p.store.domainOf v).kind = kind
  have hposted : ∀ q ∈ m.postings, ∀ c ∈ q.body.constraints, ∀ r ∈ c.relations, r.Fits fits := by
    rintro q hq c hc r hr list table rfl k v kind hv hkind
    have hdeclares : m.store.Declares v :=
      ((hm.sound.postings q hq c hc _ hr).1 _ (List.mem_of_getElem? hv)).knows
        (List.mem_singleton_self v)
    refine .inr ?_
    rw [hstore.domainOf_old hm.sound.store.consistent_true hdeclares]
    by_contra hne
    exact hm.suited q hq c hc _ hr (.column hv hkind hne)
  have hsettled : ∀ q ∈ p.postings, ∀ c ∈ q.body.constraints, ∀ r ∈ c.relations,
      r.Fits fits := by
    obtain ⟨⟨⟨postings, objective⟩, state'⟩, hrun, hp'⟩ := Except.bind_eq_ok.mp hp
    cases hp'
    have hrelation : ∀ r : Relation, Steps (Relation.Fits fits) (· ∈ state'.replaced.map Prod.snd)
        (r.Fits fits) (Introducing.settleRelation r) (Relation.Fits fits) :=
      Introducing.steps_settleRelation fun v kind hv => .inl hv
    have htarget : ∀ t, Steps (Relation.Fits fits) (· ∈ state'.replaced.map Prod.snd) True
        (Introducing.settleObjectiveTarget t) fun _ => True := fun t =>
      (Introducing.asks_settleObjectiveTarget t).steps Introducing.fits_link
    have hsteps := Introducing.steps_settleModel hrelation htarget m
    exact (hsteps.result hrun (fun q hq => List.mem_map_of_mem hq) (fun r hr => nomatch hr)
      ⟨hposted, fun _ _ => trivial⟩).2.1
  rcases hsettled posting hposting c hc _ hr list table rfl k v kind hv hkind with haux | hkind
  · exact .inr (auxiliary_spec hm.sound hp haux)
  · exact .inl hkind

end Introduced
end CspModel
