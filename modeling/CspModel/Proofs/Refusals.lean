import CspModel.Proofs.Kinds
import CspModel.Proofs.Reachable

/-! # What a posting is refused for

An item is flawed when something in it, at any depth, cannot be posted: an aggregate
without a comparison, an expression that is no predicate, a variable of another model, or a
variable whose domain does not suit its place.  The windows of slides count as the rest
does.  A posting is accepted exactly when the model is open and
the item has no flaw (`Model.post_eq_ok_iff`).
-/
namespace CspModel

/-- The domains of the variables of a relation, or the entries of its table, do not suit
it. -/
inductive Relation.Unsuited (s : Store) : Relation → Prop
  /-- A tuple has integers and symbols. -/
  | mixed {list : List Expr} {table : Table} {tuple : List TableEntry} : tuple ∈ table.tuples →
      Table.isHomogeneous tuple = false → Unsuited s (.extension list table)
  /-- A column has integers and symbols. -/
  | uneven {list : List Expr} {table : Table} {k : Nat} {kind kind' : Kind} : k < list.length →
      kind ≠ kind' → table.HasKind k kind → table.HasKind k kind' →
      Unsuited s (.extension list table)
  /-- A column is not of the kind of its variable. -/
  | column {list : List Expr} {table : Table} {k : Nat} {v : Variable} {kind : Kind} :
      list[k]? = some (.var v) → table.HasKind k kind → (s.domainOf v).kind ≠ kind →
      Unsuited s (.extension list table)
  | channel {list : List Variable} {startIndex : Int} {e : Expr} {v : Variable} : v ∈ list →
      (s.domainOf v).isBinary = false → Unsuited s (.channel list startIndex (.value e))
  | clause {literals : List Literal} {literal : Literal} : literal ∈ literals →
      (s.domainOf literal.v).isBinary = false → Unsuited s (.clause literals)

/-- A table of integers suits variables with integers. -/
theorem Table.Integral.not_unsuited {t : Table} (ht : t.Integral) {s : Store} {list : List Expr}
    (hlist : ∀ v, Expr.var v ∈ list → (s.domainOf v).kind = .integer) :
    ¬(Relation.extension list t).Unsuited s := by
  intro h
  cases h with
  | mixed htuple hmixed =>
    rw [ht.isHomogeneous htuple] at hmixed
    cases hmixed
  | uneven _ hne ha hb => exact hne ((ht.eq_of_hasKind ha).trans (ht.eq_of_hasKind hb).symm)
  | column hv hkind hne =>
    exact hne ((hlist _ (List.mem_of_getElem? hv)).trans (ht.eq_of_hasKind hkind).symm)

/-- Something in a constraint cannot be posted. -/
inductive Constraint.Flawed (s : Store) : Constraint → Prop
  | foreign {r : Relation} {e : Expr} {v : Variable} : e ∈ r.expressions → v ∈ e.occurrences →
      v.model ≠ s.model → Flawed s (.relation r)
  | unsuited {r : Relation} : r.Unsuited s → Flawed s (.relation r)
  | slide {windows : List Constraint} {c : Constraint} : c ∈ windows → Flawed s c →
      Flawed s (.slide windows)

/-- Something in an item cannot be posted. -/
inductive Item.Flawed (s : Store) : Item → Prop
  | constraint {c : Constraint} : c.Flawed s → Flawed s (.constraint c)
  | notAPredicate {e : Expr} : e.isPredicate = false → Flawed s (.expression e)
  | foreign {e : Expr} {v : Variable} : v ∈ e.occurrences → v.model ≠ s.model →
      Flawed s (.expression e)
  | aggregate {f : Aggregate Expr} : Flawed s (.aggregate f)
  | list {items : List Item} {item : Item} : item ∈ items → Flawed s item →
      Flawed s (.list items)

namespace Constraint

theorem mem_scope {c : Constraint} {v : Variable} :
    v ∈ c.scope ↔ ∃ r ∈ c.relations, ∃ e ∈ r.expressions, v ∈ e.occurrences := by
  simp only [scope, List.mem_eraseDups, List.mem_flatMap]
  constructor
  · rintro ⟨e, ⟨r, hr, he⟩, hv⟩
    exact ⟨r, hr, e, he, hv⟩
  · rintro ⟨r, hr, e, he, hv⟩
    exact ⟨e, ⟨r, hr, he⟩, hv⟩

mutual
/-- A constraint is flawed when one of its relations is, however deep it is nested. -/
theorem Flawed.of_relation {s : Store} {r : Relation} (hflawed : Flawed s (.relation r)) :
    {c : Constraint} → r ∈ c.relations → c.Flawed s
  | .relation r', hr => by
    rwa [← List.mem_singleton.mp hr]
  | .slide windows, hr => by
    obtain ⟨c, hc, h⟩ := of_relationsOf hflawed hr
    exact .slide hc h

theorem Flawed.of_relationsOf {s : Store} {r : Relation} (hflawed : Flawed s (.relation r)) :
    {list : List Constraint} → r ∈ relationsOf list → ∃ c ∈ list, c.Flawed s
  | c :: rest, hr => by
    rcases List.mem_append.mp hr with hr | hr
    · exact ⟨c, List.mem_cons_self, of_relation hflawed hr⟩
    · obtain ⟨c', hc', h⟩ := of_relationsOf hflawed hr
      exact ⟨c', List.mem_cons_of_mem _ hc', h⟩
end

end Constraint

namespace Model

variable {m : Model}

/-! ### Constraints -/

theorem checkScope_eq_ok_iff {list : List Variable} :
    m.checkScope list = .ok () ↔ ∀ v ∈ list, v.model = m.store.model := by
  induction list with
  | nil => simp [checkScope]
  | cons v rest ih =>
    rw [List.forall_mem_cons, ← ih, checkScope, Store.check]
    by_cases hv : v.model = m.store.model <;> simp [hv]

theorem checkBinary_eq_ok_iff {list : List Variable} :
    m.checkBinary list = .ok () ↔ ∀ v ∈ list, (m.store.domainOf v).isBinary = true := by
  induction list with
  | nil => simp [checkBinary]
  | cons v rest ih =>
    rw [List.forall_mem_cons, ← ih, checkBinary]
    by_cases hv : (m.store.domainOf v).isBinary = true <;> simp [hv]

theorem checkDomains_eq_ok_iff {r : Relation} :
    m.checkDomains r = .ok () ↔ ¬r.Unsuited m.store := by
  unfold checkDomains
  split
  · rename_i list table
    split
    · rename_i cause hkinds
      refine ⟨fun h => (nomatch h), fun h => absurd ?_ h⟩
      rcases (Table.columnKinds_eq_error hkinds).2 with
        ⟨tuple, htuple, hmixed⟩ | ⟨k, hk, a, b, hne, h⟩
      · exact .mixed htuple hmixed
      · exact .uneven hk hne h.1 h.2
    · rename_i kinds hkinds
      obtain ⟨hhomogeneous, _, hcolumns⟩ := Table.columnKinds_eq_ok hkinds
      rw [checkColumns_eq_ok_iff]
      constructor
      · intro h hunsuited
        cases hunsuited with
        | mixed htuple hmixed => exact absurd (hhomogeneous _ htuple) (by rw [hmixed]; decide)
        | uneven hk hne ha hb =>
          have ha := (hcolumns _ hk _).mpr ha
          have hb := (hcolumns _ hk _).mpr hb
          exact hne (Option.some.inj (Option.some.inj (ha.symm.trans hb)))
        | column hv hkind hne =>
          have hk := (List.getElem?_eq_some_iff.mp hv).1
          exact hne (h _ _ _ hv ((hcolumns _ hk _).mpr hkind))
      · intro h k v kind hv hkind
        have hk := (List.getElem?_eq_some_iff.mp hv).1
        by_contra hne
        exact h (.column hv ((hcolumns k hk kind).mp hkind) hne)
  · rw [checkBinary_eq_ok_iff]
    constructor
    · rintro h (⟨⟩ | ⟨⟩ | ⟨⟩ | ⟨hv, hbinary⟩)
      exact absurd (h _ hv) (by rw [hbinary]; decide)
    · intro h v hv
      by_contra hbinary
      exact h (.channel hv (Bool.eq_false_iff.mpr hbinary))
  · rw [checkBinary_eq_ok_iff, List.forall_mem_map]
    constructor
    · rintro h (⟨⟩ | ⟨⟩ | ⟨⟩ | ⟨⟩ | ⟨hv, hbinary⟩)
      exact absurd (h _ hv) (by rw [hbinary]; decide)
    · intro h literal hliteral
      by_contra hbinary
      exact h (.clause hliteral (Bool.eq_false_iff.mpr hbinary))
  · rename_i hextension hchannel hclause
    refine ⟨fun _ h => ?_, fun _ => rfl⟩
    cases h with
    | mixed | uneven | column => exact hextension _ _ rfl
    | channel => exact hchannel _ _ _ rfl
    | clause => exact hclause _ rfl

/-- A check after another one succeeds when both do. -/
theorem check_bind_eq_ok_iff {first : Except ModelError Unit}
    {next : Unit → Except ModelError Unit} :
    first >>= next = .ok () ↔ first = .ok () ∧ next () = .ok () := by
  cases first with
  | error cause => exact ⟨fun h => (nomatch h), fun h => nomatch h.1⟩
  | ok u => exact ⟨fun h => ⟨rfl, h⟩, fun h => h.2⟩

mutual
/-- A constraint is valid exactly when nothing in it is flawed. -/
theorem validate_eq_ok_iff : (c : Constraint) → (m.validate c = .ok () ↔ ¬c.Flawed m.store)
  | .relation r => by
    rw [validate, check_bind_eq_ok_iff, checkScope_eq_ok_iff, checkDomains_eq_ok_iff]
    constructor
    · rintro ⟨hscope, hsuited⟩ (⟨he, hv, hforeign⟩ | hunsuited)
      · exact hforeign
          (hscope _ (Constraint.mem_scope.mpr ⟨r, List.mem_singleton_self r, _, he, hv⟩))
      · exact hsuited hunsuited
    · refine fun h => ⟨fun v hv => ?_, fun hunsuited => h (.unsuited hunsuited)⟩
      obtain ⟨r', hr', e, he, hv⟩ := Constraint.mem_scope.mp hv
      rw [List.mem_singleton.mp hr'] at he
      by_contra hforeign
      exact h (.foreign he hv hforeign)
  | .slide windows => by
    rw [validate, check_bind_eq_ok_iff, checkScope_eq_ok_iff, validateAll_eq_ok_iff windows]
    constructor
    · rintro ⟨_, hwindows⟩ (_ | _ | ⟨hc, hflawed⟩)
      exact hwindows _ hc hflawed
    · refine fun h => ⟨fun v hv => ?_, fun c hc hflawed => h (.slide hc hflawed)⟩
      obtain ⟨r, hr, e, he, hv⟩ := Constraint.mem_scope.mp hv
      by_contra hforeign
      exact h (.of_relation (.foreign he hv hforeign) hr)

/-- Several constraints are valid exactly when none of them is flawed. -/
theorem validateAll_eq_ok_iff : (list : List Constraint) →
    (m.validateAll list = .ok () ↔ ∀ c ∈ list, ¬c.Flawed m.store)
  | [] => by simp [validateAll]
  | c :: rest => by
    rw [validateAll, check_bind_eq_ok_iff, validate_eq_ok_iff c, validateAll_eq_ok_iff rest,
      List.forall_mem_cons]
end

end Model

/-! ### Items -/

namespace Item

theorem flawed_intension_iff {s : Store} {e : Expr} :
    (Constraint.relation (.intension e)).Flawed s ↔ ∃ v ∈ e.occurrences, v.model ≠ s.model := by
  constructor
  · rintro (⟨he, hv, hforeign⟩ | ⟨⟨⟩⟩)
    rw [List.mem_singleton.mp he] at hv
    exact ⟨_, hv, hforeign⟩
  · rintro ⟨v, hv, hforeign⟩
    exact .foreign (List.mem_singleton_self e) hv hforeign

mutual
/-- An item without a flaw is flattened into constraints without a flaw. -/
theorem flattens_iff {s : Store} : (item : Item) →
    ((∃ constraints, item.flatten = .ok constraints ∧ ∀ c ∈ constraints, ¬c.Flawed s) ↔
      ¬item.Flawed s)
  | .constraint c => by
    constructor
    · rintro ⟨_, ⟨⟩, h⟩ ⟨hflawed⟩
      exact h c (List.mem_singleton_self c) hflawed
    · exact fun h =>
        ⟨[c], rfl, List.forall_mem_singleton.mpr fun hflawed => h (.constraint hflawed)⟩
  | .expression e => by
    cases hpredicate : e.isPredicate with
    | false =>
      refine ⟨?_, fun h => absurd (.notAPredicate hpredicate) h⟩
      rintro ⟨constraints, h, _⟩
      simp [flatten, Constraint.intension, hpredicate, Except.map] at h
    | true =>
      have hflatten : flatten (.expression e) = .ok [.relation (.intension e)] := by
        simp [flatten, Constraint.intension, hpredicate, Except.map]
      rw [hflatten]
      constructor
      · rintro ⟨_, ⟨⟩, h⟩ hflawed
        refine h _ (List.mem_singleton_self _) (flawed_intension_iff.mpr ?_)
        cases hflawed with
        | notAPredicate h => exact absurd hpredicate (by rw [h]; decide)
        | foreign hv hforeign => exact ⟨_, hv, hforeign⟩
      · refine fun h => ⟨_, rfl, List.forall_mem_singleton.mpr fun hflawed => ?_⟩
        obtain ⟨v, hv, hforeign⟩ := flawed_intension_iff.mp hflawed
        exact h (.foreign hv hforeign)
  | .aggregate f => by
    refine ⟨?_, fun h => absurd .aggregate h⟩
    rintro ⟨_, h, _⟩
    cases h
  | .list items => by
    rw [flatten, flattensAll_iff items]
    constructor
    · intro h hflawed
      cases hflawed with
      | list hitem hflawed => exact h _ hitem hflawed
    · exact fun h item hitem hflawed => h (.list hitem hflawed)

/-- Several items without a flaw are flattened into constraints without a flaw. -/
theorem flattensAll_iff {s : Store} : (items : List Item) →
    ((∃ constraints, flattenAll items = .ok constraints ∧ ∀ c ∈ constraints, ¬c.Flawed s) ↔
      ∀ item ∈ items, ¬item.Flawed s)
  | [] => ⟨fun _ _ h => (nomatch h), fun _ => ⟨[], rfl, fun _ h => nomatch h⟩⟩
  | item :: rest => by
    rw [List.forall_mem_cons, ← flattens_iff item, ← flattensAll_iff rest]
    constructor
    · rintro ⟨constraints, h, hconstraints⟩
      obtain ⟨here, hhere, h⟩ := Except.bind_eq_ok.mp h
      obtain ⟨later, hlater, rfl⟩ := Except.map_eq_ok.mp h
      obtain ⟨hfirst, hrest⟩ := List.forall_mem_append.mp hconstraints
      exact ⟨⟨here, hhere, hfirst⟩, later, hlater, hrest⟩
    · rintro ⟨⟨here, hhere, hfirst⟩, later, hlater, hrest⟩
      refine ⟨here ++ later, ?_, List.forall_mem_append.mpr ⟨hfirst, hrest⟩⟩
      exact Except.bind_eq_ok.mpr ⟨here, hhere, Except.map_eq_ok.mpr ⟨later, hlater, rfl⟩⟩
end

end Item

namespace Model

variable {m : Model} {item : Item} {decoration : Decoration}

theorem checkOpen_eq_ok_iff : m.checkOpen = .ok () ↔ m.frozen = false := by
  unfold checkOpen
  cases m.frozen <;> simp

/-- An open model accepts an item as soon as its constraints are valid. -/
theorem exists_post_eq_ok (hopen : m.frozen = false) {constraints : List Constraint}
    (hflatten : item.flatten = .ok constraints) (hvalid : m.validateAll constraints = .ok ()) :
    ∃ result, m.post item decoration = .ok result := by
  rw [post, checkOpen_eq_ok_iff.mpr hopen, hflatten]
  show ∃ result, (m.validateAll constraints >>= _) = Except.ok result
  rw [hvalid]
  cases constraints with
  | nil => exact ⟨_, rfl⟩
  | cons c rest => exact ⟨_, rfl⟩

/-- An item whose constraints are valid is added to the postings. -/
theorem post_eq_ok {constraints : List Constraint} (hopen : m.frozen = false)
    (hflatten : item.flatten = .ok constraints) (hne : constraints ≠ [])
    (hvalid : ∀ c ∈ constraints, ¬c.Flawed m.store) (decoration : Decoration) :
    m.post item decoration = .ok ({ m with postings := m.postings ++ [⟨if item.isList then
      .gather constraints else Body.ofList constraints, decoration⟩] }, []) := by
  rw [post, checkOpen_eq_ok_iff.mpr hopen, hflatten]
  show (m.validateAll constraints >>= _) = _
  rw [(validateAll_eq_ok_iff constraints).mpr hvalid]
  cases constraints with
  | nil => exact absurd rfl hne
  | cons c rest => rfl

/-- A posting is accepted exactly when the model is open and the item has no flaw. -/
theorem post_eq_ok_iff :
    (∃ result, m.post item decoration = .ok result) ↔
      m.frozen = false ∧ ¬item.Flawed m.store := by
  rw [← Item.flattens_iff item]
  constructor
  · rintro ⟨result, h⟩
    obtain ⟨_, hopen, h⟩ := Except.bind_eq_ok.mp h
    obtain ⟨constraints, hflatten, h⟩ := Except.bind_eq_ok.mp h
    obtain ⟨_, hvalid, _⟩ := Except.bind_eq_ok.mp h
    exact ⟨checkOpen_eq_ok_iff.mp hopen, constraints, hflatten,
      (validateAll_eq_ok_iff constraints).mp hvalid⟩
  · rintro ⟨hopen, constraints, hflatten, hflaws⟩
    exact exists_post_eq_ok hopen hflatten ((validateAll_eq_ok_iff constraints).mpr hflaws)

end Model

/-! ### Extensions -/

namespace Model

variable {m : Model}

theorem exists_of_checkColumns {column : Nat} {list : List Expr} {kinds : List (Option Kind)}
    {cause : ModelError} (h : m.checkColumns column list kinds = .error cause) :
    ∃ column, cause = .table (.columnKind column) := by
  induction list generalizing column kinds with
  | nil => cases h
  | cons e list ih =>
    cases kinds with
    | nil => cases h
    | cons known kinds =>
      unfold checkColumns at h
      split at h
      · split at h
        · exact ih h
        · exact ⟨column, (Except.error.inj h).symm⟩
      · exact ih h

/-- The domains of an extension are refused for kinds only. -/
theorem exists_of_checkDomains {list : List Expr} {table : Table} {cause : ModelError}
    (h : m.checkDomains (.extension list table) = .error cause) :
    ∃ cause', cause = .table cause' ∧ cause'.isAboutKinds = true := by
  unfold checkDomains at h
  dsimp only at h
  split at h
  · rename_i cause' hkinds
    exact ⟨cause', (Except.error.inj h).symm, (Table.columnKinds_eq_error hkinds).1⟩
  · obtain ⟨column, rfl⟩ := exists_of_checkColumns h
    exact ⟨_, rfl, rfl⟩

/-- A relation over variables of the model whose domains are refused is not posted. -/
theorem post_eq_error_of_checkDomains (hopen : m.frozen = false) {r : Relation}
    (hscope : ∀ e ∈ r.expressions, ∀ v ∈ e.occurrences, v.model = m.store.model)
    {cause : ModelError} (h : m.checkDomains r = .error cause) (d : Decoration) :
    m.post (.constraint (.relation r)) d = .error cause := by
  have hscope : m.checkScope (Constraint.relation r).scope = .ok () := by
    refine checkScope_eq_ok_iff.mpr fun v hv => ?_
    obtain ⟨r', hr, e, he, hv⟩ := Constraint.mem_scope.mp hv
    rw [List.mem_singleton.mp hr] at he
    exact hscope e he v hv
  have hvalid : m.validate (.relation r) = .error cause := by
    rw [validate, hscope]
    exact h
  rw [post, checkOpen_eq_ok_iff.mpr hopen]
  show (m.validateAll [.relation r] >>= _) = _
  rw [validateAll, hvalid]
  rfl

/-- Builds an extension and posts it. -/
def postExtension (m : Model) (list : List Expr) (table : Table) (d : Decoration) :
    Except ModelError (Model × List Notice) :=
  (Constraint.extension list table).bind fun c => m.post (.constraint c) d

/-- An extension whose tuples have the right length is built or refused for the kinds of its
columns. -/
theorem extension_of_lengths {list : List Expr} {table : Table} (hne : list ≠ [])
    (hlength : ∀ tuple ∈ table.tuples, tuple.length = list.length) :
    Constraint.extension list table = ((table.columnKinds list.length).map
      fun _ => Constraint.relation (.extension list table)).mapError .table := by
  have hnone : table.tuples.find? (·.length != list.length) = none :=
    List.find?_eq_none.mpr fun tuple htuple => by simp [hlength tuple htuple]
  have hsome : Aggregate.nonEmpty "extension" list = .ok list :=
    Aggregate.nonEmpty_eq_ok.mpr ⟨hne, rfl⟩
  unfold Constraint.extension
  rw [hsome]
  simp only [bind, Except.bind, hnone]
  cases table.columnKinds list.length <;> rfl

/-- An extension that is well-formed otherwise is refused exactly when its table does not suit
its variables, and then with an error about kinds. -/
theorem postExtension_refused_iff (hopen : m.frozen = false) {list : List Expr} {table : Table}
    (hne : list ≠ []) (hlength : ∀ tuple ∈ table.tuples, tuple.length = list.length)
    (hscope : ∀ e ∈ list, ∀ v ∈ e.occurrences, v.model = m.store.model) (d : Decoration) :
    (∃ cause, cause.isAboutKinds = true ∧
      m.postExtension list table d = .error (.table cause)) ↔
      (Relation.extension list table).Unsuited m.store := by
  have hbuild := extension_of_lengths hne hlength
  constructor
  · rintro ⟨cause, -, h⟩
    by_contra hsuited
    have hdomains := checkDomains_eq_ok_iff.mpr hsuited
    unfold checkDomains at hdomains
    dsimp only at hdomains
    cases hkinds : table.columnKinds list.length with
    | error cause => rw [hkinds] at hdomains; cases hdomains
    | ok kinds =>
      rw [postExtension, hbuild, hkinds] at h
      have hflawless : ¬(Item.constraint (.relation (.extension list table))).Flawed m.store := by
        rintro ⟨⟨he, hv, hforeign⟩ | hunsuited⟩
        · exact hforeign (hscope _ he _ hv)
        · exact hsuited hunsuited
      obtain ⟨result, hresult⟩ := post_eq_ok_iff.mpr ⟨hopen, hflawless⟩
      cases hresult.symm.trans h
  · intro hunsuited
    cases hdomains : m.checkDomains (.extension list table) with
    | ok u => exact absurd hunsuited (checkDomains_eq_ok_iff.mp hdomains)
    | error cause =>
      obtain ⟨cause, rfl, habout⟩ := exists_of_checkDomains hdomains
      refine ⟨cause, habout, ?_⟩
      rw [postExtension, hbuild]
      cases hkinds : table.columnKinds list.length with
      | ok kinds =>
        have hscope : ∀ e ∈ (Relation.extension list table).expressions, ∀ v ∈ e.occurrences,
          v.model = m.store.model := hscope
        exact post_eq_error_of_checkDomains hopen hscope hdomains d
      | error cause' =>
        unfold checkDomains at hdomains
        dsimp only at hdomains
        rw [hkinds] at hdomains
        cases hdomains
        rfl

end Model
end CspModel
