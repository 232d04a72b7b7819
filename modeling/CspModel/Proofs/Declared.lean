import CspModel.Auxiliary.Values
import CspModel.Proofs.Built

/-! # Declared variables

A store only grows: a variable just added is the next one, it has the domain it was
given, and every older variable keeps its domain.  The reason is that a variable
refers to its domain by a key of the store, and a key once valid stays valid.
-/
namespace CspModel

open Bounded

namespace Registry

variable {α : Type}

theorem get?_eq_none_of_le {r : Registry α} {key : Nat} (h : r.size ≤ key) : r.get? key = none :=
  Array.getElem?_eq_none h

theorem lt_size_of_get? {r : Registry α} {key : Nat} {value : α} (h : r.get? key = some value) :
    key < r.size := by
  rcases Nat.lt_or_ge key r.size with hlt | hge
  · exact hlt
  · rw [get?_eq_none_of_le hge] at h
    cases h

theorem exists_get?_of_lt {r : Registry α} {key : Nat} (h : key < r.size) :
    ∃ value, r.get? key = some value := by
  have h : key < r.entries.size := h
  exact ⟨r.entries[key], Array.getElem?_eq_getElem h⟩

@[simp] theorem size_push (r : Registry α) (value : α) : (r.push value).size = r.size + 1 :=
  Array.size_push value

/-- After an addition a key gives the value added, or what it gave before. -/
theorem get?_push_eq_some {r : Registry α} {value value' : α} {key : Nat} :
    (r.push value).get? key = some value' ↔
      r.get? key = some value' ∨ key = r.size ∧ value = value' := by
  rcases Nat.lt_trichotomy key r.size with h | rfl | h
  · rw [get?_push_of_lt value h]
    simp [Nat.ne_of_lt h]
  · rw [get?_push_size, get?_eq_none_of_le (Nat.le_refl _)]
    simp
  · rw [get?_eq_none_of_le (Nat.le_of_lt h), get?_eq_none_of_le (by rwa [size_push])]
    simp [Nat.ne_of_gt h]

theorem findKey?_eq_some {r : Registry α} {test : α → Bool} {key : Nat}
    (h : r.findKey? test = some key) : ∃ value, r.get? key = some value ∧ test value = true := by
  obtain ⟨hlt, htest, _⟩ := Array.findIdx?_eq_some_iff_getElem.mp h
  exact ⟨r.entries[key], Array.getElem?_eq_getElem hlt, htest⟩

end Registry

namespace Store

/-- Whether a variable was declared in the store. -/
def Declares (s : Store) (v : Variable) : Prop := v.model = s.model ∧ v.index < s.infos.size

/-- What is kept of a declared variable. -/
theorem Declares.exists_info {s : Store} {v : Variable} (hv : s.Declares v) :
    ∃ info, s.info? v = some info ∧ s.nameOf v = info.name ∧
      s.domainOf v = s.domainAt info.domain := by
  obtain ⟨info, hinfo⟩ := Registry.exists_get?_of_lt hv.2
  have hinfo : s.info? v = some info := hinfo
  exact ⟨info, hinfo, by simp [nameOf, hinfo], by simp [Store.domainOf, hinfo]⟩

/-- Every variable has a domain, and the domains are all of one sort. -/
structure Consistent (P : Domain → Prop) (s : Store) : Prop where
  /-- The domain of a variable is under a key that was handed out. -/
  key_lt : ∀ {index : Nat} {info : VariableInfo}, s.infos.get? index = some info →
    info.domain < s.domains.size
  domains : ∀ {key : Nat} {d : Domain}, s.domains.get? key = some d → P d

variable {P : Domain → Prop} {s : Store}

/-- Every declared variable has a domain of the sort of the store. -/
theorem Consistent.domainOf (h : s.Consistent P) {v : Variable} (hv : s.Declares v) :
    P (s.domainOf v) := by
  obtain ⟨info, hinfo⟩ := Registry.exists_get?_of_lt hv.2
  obtain ⟨d, hd⟩ := Registry.exists_get?_of_lt (h.key_lt hinfo)
  have hdomain : s.domainOf v = d := by
    unfold Store.domainOf info? domainAt
    rw [hinfo, Option.map_some, hd]
    rfl
  rw [hdomain]
  exact h.domains hd

theorem consistent_new (P : Domain → Prop) (model : Nat) : Consistent P { model } := by
  refine ⟨fun h => ?_, fun h => ?_⟩
  · cases h
  · cases h

/-- Interning a domain keeps the domains under their keys. -/
theorem internDomain_spec (s : Store) (d : Domain) :
    (s.internDomain d).2.infos = s.infos ∧ (s.internDomain d).2.model = s.model ∧
      (s.internDomain d).2.domains.get? (s.internDomain d).1 = some d ∧
      (∀ key < s.domains.size, (s.internDomain d).2.domains.get? key = s.domains.get? key) ∧
      s.domains.size ≤ (s.internDomain d).2.domains.size ∧
      ∀ {key d'}, (s.internDomain d).2.domains.get? key = some d' →
        d' = d ∨ s.domains.get? key = some d' := by
  unfold internDomain
  cases hkey : s.domains.findKey? (· == d) with
  | some key =>
    obtain ⟨d', hd', heq⟩ := Registry.findKey?_eq_some hkey
    obtain rfl := beq_iff_eq.mp heq
    exact ⟨rfl, rfl, hd', fun _ _ => rfl, Nat.le_refl _, .inr⟩
  | none =>
    refine ⟨rfl, rfl, Registry.get?_push_size _ _, fun key hkey => ?_, ?_, fun h => ?_⟩
    · exact Registry.get?_push_of_lt _ hkey
    · simp
    · rcases Registry.get?_push_eq_some.mp h with h | ⟨_, rfl⟩
      · exact .inr h
      · exact .inl rfl

/-- What adding a variable does: the variable is the next one and has its domain, and
the variables before it keep theirs. -/
structure Adds (s : Store) (v : Variable) (d : Domain) (s' : Store) : Prop where
  model : s'.model = s.model
  eq_next : v = ⟨s.model, s.infos.size⟩
  size : s'.infos.size = s.infos.size + 1
  domainOf_new : s'.domainOf v = d
  domainOf_old : ∀ w : Variable, w.index < s.infos.size → s'.domainOf w = s.domainOf w
  consistent : ∀ {P : Domain → Prop}, s.Consistent P → P d → s'.Consistent P

/-- Adding a variable to a consistent store. -/
theorem adds_addVariable (hs : s.Consistent P) (name : String) (d : Domain)
    (cell : Option Cell) :
    s.Adds (s.addVariable name d cell).1 d (s.addVariable name d cell).2 := by
  obtain ⟨hinfos, hmodel, hkey, hold, hsize, hdomains⟩ := s.internDomain_spec d
  have hpush : (s.addVariable name d cell).2.infos =
      s.infos.push ⟨name, (s.internDomain d).1, cell⟩ := by
    simp only [addVariable]
    rw [hinfos]
  have hnew : (s.addVariable name d cell).1 = ⟨s.model, s.infos.size⟩ := by
    simp only [addVariable]
    rw [hinfos, hmodel]
  refine ⟨hmodel, hnew, by rw [hpush, Registry.size_push], ?_, fun w hw => ?_, ?_⟩
  · rw [hnew]
    unfold domainOf info? domainAt
    rw [hpush, Registry.get?_push_size, Option.map_some]
    exact congrArg (Option.getD · _) hkey
  · obtain ⟨info, hinfo⟩ := Registry.exists_get?_of_lt hw
    unfold domainOf info? domainAt
    rw [hpush, Registry.get?_push_of_lt _ hw, hinfo]
    show ((s.internDomain d).2.domains.get? info.domain).getD .unbounded = _
    rw [hold _ (hs.key_lt hinfo)]
    rfl
  · intro Q hs hd
    refine ⟨fun {index info} h => ?_, fun {key d'} h => ?_⟩
    · rw [hpush] at h
      rcases Registry.get?_push_eq_some.mp h with h | ⟨_, rfl⟩
      · exact Nat.lt_of_lt_of_le (hs.key_lt h) hsize
      · exact Registry.lt_size_of_get? hkey
    · rcases hdomains h with rfl | h
      · exact hd
      · exact hs.domains h

theorem Adds.declares_new {v : Variable} {d : Domain} {s' : Store} (h : s.Adds v d s') :
    s'.Declares v := by
  rw [h.eq_next]
  exact ⟨h.model.symm, by rw [h.size]; exact Nat.lt_succ_self _⟩

/-- Declared are the new variable and those declared before. -/
theorem Adds.declares_iff {v : Variable} {d : Domain} {s' : Store} (h : s.Adds v d s')
    {w : Variable} : s'.Declares w ↔ w = v ∨ s.Declares w := by
  constructor
  · rintro ⟨hmodel, hindex⟩
    rw [h.model] at hmodel
    rw [h.size] at hindex
    rcases Nat.lt_succ_iff_lt_or_eq.mp hindex with hlt | heq
    · exact .inr ⟨hmodel, hlt⟩
    · refine .inl ?_
      rw [h.eq_next]
      obtain ⟨model, index⟩ := w
      cases hmodel
      cases heq
      rfl
  · rintro (rfl | ⟨hmodel, hindex⟩)
    · exact h.declares_new
    · exact ⟨hmodel.trans h.model.symm, by rw [h.size]; exact Nat.lt_succ_of_lt hindex⟩

/-! ### Stores that differ in their declarations only -/

/-- The stores hold the same variables. -/
structure Alike (s s' : Store) : Prop where
  infos : s'.infos = s.infos
  domains : s'.domains = s.domains
  model : s'.model = s.model

variable {s' : Store}

theorem Alike.domainOf (h : s.Alike s') (v : Variable) : s'.domainOf v = s.domainOf v := by
  unfold Store.domainOf info? domainAt
  rw [h.infos, h.domains]

theorem Alike.consistent (h : s.Alike s') : s'.Consistent P ↔ s.Consistent P := by
  constructor <;> intro hs
  · exact ⟨fun hi => h.domains ▸ hs.key_lt (h.infos ▸ hi), fun hd => hs.domains (h.domains ▸ hd)⟩
  · exact ⟨fun hi => h.domains ▸ hs.key_lt (h.infos ▸ hi), fun hd => hs.domains (h.domains ▸ hd)⟩

theorem Alike.declares (h : s.Alike s') {v : Variable} : s'.Declares v ↔ s.Declares v := by
  rw [Declares, Declares, h.model, h.infos]

/-- What is not about variables has no part in adding one. -/
theorem Adds.congr {v : Variable} {d : Domain} {t t' : Store} (h : s.Adds v d s')
    (hs : t.Alike s) (hs' : s'.Alike t') : t.Adds v d t' where
  model := hs'.model.trans (h.model.trans hs.model)
  eq_next := by rw [h.eq_next, hs.model, hs.infos]
  size := by rw [hs'.infos, h.size, hs.infos]
  domainOf_new := (hs'.domainOf v).trans h.domainOf_new
  domainOf_old w hw := by
    rw [hs'.domainOf, h.domainOf_old w (by rwa [hs.infos]), hs.domainOf]
  consistent ht hd := hs'.consistent.mpr (h.consistent (hs.consistent.mpr ht) hd)

theorem alike_openAuxiliaryArray (s : Store) : s.Alike s.openAuxiliaryArray.2 := by
  unfold openAuxiliaryArray
  split <;> exact ⟨rfl, rfl, rfl⟩

/-- Declaring an auxiliary variable adds a variable. -/
theorem adds_declareAuxiliary (hs : s.Consistent P) (d : Domain) :
    s.Adds (s.declareAuxiliary d).1 d (s.declareAuxiliary d).2 :=
  (adds_addVariable (s.alike_openAuxiliaryArray.consistent.mpr hs) _ d _).congr
    s.alike_openAuxiliaryArray ⟨rfl, rfl, rfl⟩

theorem alike_nameVariable {name : Option String} {text : String}
    (h : s.nameVariable name = .ok (text, s')) : s.Alike s' := by
  unfold nameVariable at h
  split at h
  · obtain ⟨_, _, heq⟩ := Except.map_eq_ok.mp h
    cases heq
    exact ⟨rfl, rfl, rfl⟩
  · cases h
    exact ⟨rfl, rfl, rfl⟩

theorem alike_nameArray {name : Option String} {text : String}
    (h : s.nameArray name = .ok (text, s')) : s.Alike s' := by
  unfold nameArray at h
  split at h
  · obtain ⟨_, _, heq⟩ := Except.map_eq_ok.mp h
    cases heq
    exact ⟨rfl, rfl, rfl⟩
  · cases h
    exact ⟨rfl, rfl, rfl⟩

/-- Declaring a variable adds it. -/
theorem adds_declareVariable (hs : s.Consistent P) {name : Option String} {d : Domain}
    {v : Variable} (h : s.declareVariable name d = .ok (v, s')) : s.Adds v d s' := by
  unfold declareVariable at h
  split at h
  · cases h
  · rename_i text t hname
    cases h
    have halike := alike_nameVariable hname
    exact (adds_addVariable (halike.consistent.mpr hs) text d none).congr halike ⟨rfl, rfl, rfl⟩

/-- Adding the cells of an array keeps a store consistent. -/
theorem consistent_addCells (name : String) (key : Nat)
    {domainAt : List Nat → Option Domain} (hdomains : ∀ indices d, domainAt indices = some d → P d) (cells : List (List Nat × Nat))
    (hs : s.Consistent P) : (addCells name key domainAt cells s).2.Consistent P := by
  induction cells generalizing s with
  | nil => exact hs
  | cons cell rest ih =>
    rw [addCells_cons]
    split
    · exact ih hs
    · rename_i d hd
      exact ih ((adds_addVariable hs _ d _).consistent hs (hdomains _ d hd))

/-- Declaring an array adds its cells and no other variables. -/
theorem alike_declareArray {name : Option String} {shape : List Nat} {array : VarArray}
    {domainAt : List Nat → Option Domain}
    (h : s.declareArray name shape domainAt = .ok (array, s')) :
    ∃ text key t, s.Alike t ∧
      (addCells text key domainAt (Grid.tuples shape).zipIdx t).2.Alike s' := by
  rw [declareArray_eq] at h
  split at h
  · cases h
  · split at h
    · cases h
    · rename_i text t hname
      cases h
      exact ⟨text, t.arrays.size, t, alike_nameArray hname, rfl, rfl, rfl⟩

theorem consistent_declareArray {name : Option String} {shape : List Nat} {array : VarArray}
    {domainAt : List Nat → Option Domain} (hs : s.Consistent P)
    (hdomains : ∀ indices d, domainAt indices = some d → P d)
    (h : s.declareArray name shape domainAt = .ok (array, s')) : s'.Consistent P := by
  obtain ⟨text, key, t, ht, hcells⟩ := alike_declareArray h
  exact hcells.consistent.mpr
    (consistent_addCells text key hdomains (Grid.tuples shape).zipIdx (ht.consistent.mpr hs))

/-- Adding the cells of an array keeps what is declared. -/
theorem declares_addCells (name : String) (key : Nat) (domainAt : List Nat → Option Domain)
    (cells : List (List Nat × Nat)) {v : Variable} (hv : s.Declares v) :
    (addCells name key domainAt cells s).2.Declares v := by
  induction cells generalizing s with
  | nil => exact hv
  | cons cell rest ih =>
    rw [addCells_cons]
    split
    · exact ih hv
    · rename_i d _
      refine ih ⟨hv.1.trans (s.internDomain_spec d).2.1.symm, ?_⟩
      simp only [addVariable, (s.internDomain_spec d).1, Registry.size_push]
      exact Nat.lt_succ_of_lt hv.2

/-- Declaring an array keeps what is declared. -/
theorem declares_declareArray {name : Option String} {shape : List Nat} {array : VarArray}
    {domainAt : List Nat → Option Domain}
    (h : s.declareArray name shape domainAt = .ok (array, s')) {v : Variable}
    (hv : s.Declares v) : s'.Declares v := by
  obtain ⟨text, key, t, ht, hcells⟩ := alike_declareArray h
  exact hcells.declares.mpr (declares_addCells text key domainAt _ (ht.declares.mpr hv))

end Store

/-! ### Stores of a model -/

/-- The domain of a set has no symbols. -/
theorem Values.exists_ofRuns_of_toDomain (values : Values) {d : Domain}
    (h : values.toDomain = .ok d) : ∃ runs, d = .ofRuns runs := by
  cases values with
  | finite ns =>
    have h : Domain.ofIntegers ns = .ok d := h
    unfold Domain.ofIntegers at h
    split at h
    · cases h
    · cases h
      exact ⟨_, rfl⟩
  | bounds lower upper =>
    have h : Domain.between lower upper = .ok d := h
    unfold Domain.between at h
    split at h
    · cases h
    · cases h
      exact ⟨_, rfl⟩

/-- Domains described over the bounded range. -/
inductive Domain.Built : Domain → Prop
  | ofSpec {spec : DomainSpec} {d : Domain} :
      (∀ run ∈ spec.runs, Fits run.1 ∧ Fits run.2) → ofSpec spec = .ok d → Built d
  | unbounded : Built .unbounded

/-- The stores that declarations lead to, those of auxiliary variables included. -/
inductive Store.Built : Store → Prop
  | new (model : Nat) : Built { model }
  | declareVariable {s s' : Store} {name : Option String} {d : Domain} {v : Variable} :
      Built s → d.Built → s.declareVariable name d = .ok (v, s') → Built s'
  | declareArray {s s' : Store} {name : Option String} {shape : List Nat} {array : VarArray}
      {domainAt : List Nat → Option Domain} :
      Built s → (∀ indices d, domainAt indices = some d → d.Built) →
      s.declareArray name shape domainAt = .ok (array, s') → Built s'
  | declareAuxiliary {s : Store} {e : Expr} {d : Domain} :
      Built s → e.WellFormed s.Declares → possibleValues s e = .ok d →
      Built (s.declareAuxiliary d).2

/-- A store is consistent in any sort that holds the described domains and the values of
expressions. -/
theorem Store.Built.consistent {s : Store} {P : Domain → Prop} (h : s.Built)
    (hbuilt : ∀ d : Domain, d.Built → P d)
    (hvalues : ∀ (s : Store) (e : Expr) (d : Domain), s.Consistent P →
      e.WellFormed s.Declares → possibleValues s e = .ok d → P d) : s.Consistent P := by
  induction h with
  | new model => exact consistent_new P model
  | declareVariable _ hd h ih => exact (adds_declareVariable ih h).consistent ih (hbuilt _ hd)
  | declareArray _ hd h ih =>
    exact consistent_declareArray ih (fun indices d hdomain => hbuilt d (hd indices d hdomain)) h
  | @declareAuxiliary s e d _ he hd ih =>
    exact (adds_declareAuxiliary ih d).consistent ih (hvalues s e d ih he hd)

/-- In every store of a model each variable has a domain. -/
theorem Store.Built.consistent_true {s : Store} (h : s.Built) : s.Consistent fun _ => True :=
  h.consistent (fun _ _ => trivial) fun _ _ _ _ _ _ => trivial

end CspModel
