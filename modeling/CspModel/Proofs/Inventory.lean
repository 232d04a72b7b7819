import CspModel.Proofs.Declared
import CspModel.Proofs.Names

/-! # What a store records

A variable either stands alone, and is declared under its own name, or it is a cell: its
array holds it at its place, and its name is the name of the array with the indices of
the place.  Declarations claim different names.  Every store of a model is such an
inventory (`Store.Built.inventory`), so no two of its variables have one name
(`Store.Built.nameOf_injective`).
-/
namespace CspModel

/-! ### Arrays -/

theorem Grid.nodup_tuples (shape : List Nat) : (tuples shape).Nodup := by
  induction shape with
  | nil => exact List.nodup_singleton []
  | cons size rest ih =>
    refine List.nodup_flatMap.mpr ⟨fun index _ => ih.map (List.cons_injective), ?_⟩
    refine List.nodup_range.imp fun {index index'} hne => ?_
    intro tuple h h'
    obtain ⟨inner, _, rfl⟩ := List.mem_map.mp h
    obtain ⟨inner', _, heq⟩ := List.mem_map.mp h'
    exact hne (List.cons.inj heq).1.symm

theorem Grid.tuples_singleton (size : Nat) :
    tuples [size] = (List.range size).map fun k => [k] := by
  simp only [tuples, List.map_cons, List.map_nil]
  exact List.flatMap_pure_eq_map _ _

/-- What an array keeps when variables are appended to it. -/
structure VarArray.Extends (a a' : VarArray) : Prop where
  name : a'.name = a.name
  shape : a.shape ≠ [] → a'.shape ≠ []
  slots : ∀ {position : Nat} {v : Variable}, a.slots[position]? = some (some v) →
    a'.slots[position]? = some (some v)
  indices : ∀ {position : Nat} {indices : List Nat},
    (Grid.tuples a.shape)[position]? = some indices →
    (Grid.tuples a'.shape)[position]? = some indices

theorem VarArray.Extends.refl (a : VarArray) : a.Extends a := ⟨rfl, id, id, id⟩

theorem VarArray.Extends.trans {a a' a'' : VarArray} (h : a.Extends a') (h' : a'.Extends a'') :
    a.Extends a'' :=
  ⟨h'.name.trans h.name, h'.shape ∘ h.shape, h'.slots ∘ h.slots, h'.indices ∘ h.indices⟩

theorem VarArray.extends_append {a : VarArray} (hshape : a.shape = [a.slots.length])
    (v : Variable) : a.Extends (a.append v) := by
  refine ⟨rfl, fun _ => List.cons_ne_nil _ _, fun {position w} hslot => ?_,
    fun {position indices} hindices => ?_⟩
  · obtain ⟨hlt, _⟩ := List.getElem?_eq_some_iff.mp hslot
    exact (List.getElem?_append_left hlt).trans hslot
  · rw [hshape, Grid.tuples_singleton, List.getElem?_map] at hindices
    obtain ⟨k, hk, hindices⟩ := Option.map_eq_some_iff.mp hindices
    obtain ⟨hlt, rfl⟩ := List.getElem?_eq_some_iff.mp hk
    rw [List.length_range] at hlt
    show (Grid.tuples [a.slots.length + 1])[position]? = some indices
    rw [Grid.tuples_singleton, List.getElem?_map, List.getElem?_range (Nat.lt_succ_of_lt hlt),
      ← hindices, List.getElem_range]
    rfl

theorem Registry.get?_set? {α : Type} {r r' : Registry α} {key key' : Nat} {value : α}
    (h : r.set? key value = some r') :
    r'.get? key' = if key = key' then some value else r.get? key' := by
  unfold set? at h
  split at h
  · rename_i hlt
    have hlt : key < r.entries.size := hlt
    cases h
    unfold get?
    rw [Array.getElem?_setIfInBounds, if_pos hlt]
  · cases h

namespace Store

variable {s s' : Store}

/-- Whether a variable is recorded as what it is known as. -/
def Records (s : Store) (key : Nat) (info : VariableInfo) : Prop :=
  match info.cell with
  | none => Text.isIdentifier info.name = true ∧ .alone ⟨s.model, key⟩ ∈ s.declarations
  | some cell => ∃ a indices, s.arrays.get? cell.array = some a ∧
      a.slots[cell.position]? = some (some ⟨s.model, key⟩) ∧
      (Grid.tuples a.shape)[cell.position]? = some indices ∧
      info.name = VarArray.cellName a.name indices

/-- Whether what is declared is there. -/
def Knows (s : Store) : Declaration → Prop
  | .alone v => ∃ info, s.info? v = some info
  | .array key => ∃ a, s.arrays.get? key = some a

theorem nameOf_of_get? {key : Nat} {info : VariableInfo} (h : s.infos.get? key = some info) :
    s.nameOf ⟨s.model, key⟩ = info.name := by
  simp [nameOf, info?, h]

theorem claimedName_of_get? {key : Nat} {a : VarArray} (h : s.arrays.get? key = some a) :
    s.claimedName (.array key) = a.name := by
  simp [claimedName, arrayAt, h]

/-- What every store of a model satisfies. -/
structure Inventory (s : Store) : Prop where
  records : ∀ {key : Nat} {info : VariableInfo}, s.infos.get? key = some info →
    s.Records key info
  arrays : ∀ {key : Nat} {a : VarArray}, s.arrays.get? key = some a →
    Text.isIdentifier a.name = true ∧ a.shape ≠ [] ∧ .array key ∈ s.declarations
  knows : ∀ declaration ∈ s.declarations, s.Knows declaration
  names : s.claimedNames.Nodup
  /-- The array of auxiliary variables has one dimension and no holes. -/
  auxiliary : ∀ key ∈ s.auxiliaryArray, ∃ a, s.arrays.get? key = some a ∧
    a.name = auxiliaryName ∧ a.shape = [a.slots.length]
  /-- Until there is one, its name is free. -/
  reserved : s.auxiliaryArray = none → auxiliaryName ∉ s.claimedNames

/-- What a store keeps when it grows. -/
structure Grows (s s' : Store) : Prop where
  model : s'.model = s.model
  infos : ∀ {key : Nat} {info : VariableInfo}, s.infos.get? key = some info →
    s'.infos.get? key = some info
  arrays : ∀ {key : Nat} {a : VarArray}, s.arrays.get? key = some a →
    ∃ a', s'.arrays.get? key = some a' ∧ a.Extends a'
  declarations : s.declarations ⊆ s'.declarations

theorem Grows.trans {s'' : Store} (h : s.Grows s') (h' : s'.Grows s'') : s.Grows s'' where
  model := h'.model.trans h.model
  infos := h'.infos ∘ h.infos
  arrays ha :=
    have ⟨_, ha', hextends⟩ := h.arrays ha
    have ⟨a'', ha'', hextends'⟩ := h'.arrays ha'
    ⟨a'', ha'', hextends.trans hextends'⟩
  declarations := List.Subset.trans h.declarations h'.declarations

theorem Grows.records (h : s.Grows s') {key : Nat} {info : VariableInfo}
    (hrecords : s.Records key info) : s'.Records key info := by
  unfold Records at hrecords ⊢
  split
  · rename_i hcell
    rw [hcell] at hrecords
    rw [h.model]
    exact ⟨hrecords.1, h.declarations hrecords.2⟩
  · rename_i cell hcell
    rw [hcell] at hrecords
    obtain ⟨a, indices, harray, hslot, hindices, hname⟩ := hrecords
    obtain ⟨a', harray', hextends⟩ := h.arrays harray
    rw [h.model]
    exact ⟨a', indices, harray', hextends.slots hslot, hextends.indices hindices,
      by rw [hextends.name, hname]⟩

theorem Grows.knows (h : s.Grows s') {declaration : Declaration}
    (hknows : s.Knows declaration) : s'.Knows declaration := by
  cases declaration with
  | alone v =>
    obtain ⟨info, hinfo⟩ := hknows
    exact ⟨info, h.infos hinfo⟩
  | array key =>
    obtain ⟨a, harray⟩ := hknows
    obtain ⟨a', harray', _⟩ := h.arrays harray
    exact ⟨a', harray'⟩

/-- Declarations keep the names they claim. -/
theorem Grows.claimedName (h : s.Grows s') {declaration : Declaration}
    (hknows : s.Knows declaration) : s'.claimedName declaration = s.claimedName declaration := by
  cases declaration with
  | alone v =>
    obtain ⟨info, hinfo⟩ := hknows
    have hinfo' : s'.info? v = some info := h.infos hinfo
    simp only [Store.claimedName, nameOf]
    rw [hinfo, hinfo']
  | array key =>
    obtain ⟨a, harray⟩ := hknows
    obtain ⟨a', harray', hextends⟩ := h.arrays harray
    simp only [Store.claimedName, arrayAt]
    rw [harray, harray']
    exact hextends.name

/-- The claimed names of a store that has grown are the old ones and those of its new
declarations. -/
theorem Grows.claimedNames (h : s.Grows s') (hs : s.Inventory) {added : List Declaration}
    (hadded : s'.declarations = s.declarations ++ added) :
    s'.claimedNames = s.claimedNames ++ added.map s'.claimedName := by
  rw [Store.claimedNames, Store.claimedNames, hadded, List.map_append]
  congr 1
  exact List.map_congr_left fun declaration hd => h.claimedName (hs.knows declaration hd)

/-! ### Declaring -/

/-- What interning a domain makes of the table of domains. -/
structure Interns (domains : Registry Domain) (d : Domain) (key : Nat)
    (domains' : Registry Domain) : Prop where
  get : domains'.get? key = some d
  old : domains.toList <+: domains'.toList
  nodup : domains.toList.Nodup → domains'.toList.Nodup

/-- Adding a variable changes the variables and the domains only. -/
theorem addVariable_eq (s : Store) (name : String) (d : Domain) (cell : Option Cell) :
    ∃ domain domains, Interns s.domains d domain domains ∧
      s.addVariable name d cell = (⟨s.model, s.infos.size⟩,
        { s with domains, infos := s.infos.push ⟨name, domain, cell⟩ }) := by
  simp only [addVariable, internDomain]
  split
  · rename_i key hkey
    obtain ⟨d', hget, heq⟩ := Registry.findKey?_eq_some hkey
    obtain rfl := beq_iff_eq.mp heq
    exact ⟨key, s.domains, ⟨hget, List.prefix_refl _, id⟩, rfl⟩
  · rename_i hnone
    refine ⟨s.domains.size, s.domains.push d, ⟨Registry.get?_push_size _ _, ?_, fun h => ?_⟩, rfl⟩
    · rw [Registry.toList_push]
      exact List.prefix_append _ _
    · rw [Registry.toList_push, ← List.concat_eq_append]
      refine h.concat fun hmem => ?_
      have hne := Array.findIdx?_eq_none_iff.mp hnone d (Array.mem_toList_iff.mp hmem)
      exact absurd (beq_self_eq_true d) (by rw [hne]; decide)

/-- What is known of the variables once the cells of an array are added. -/
structure AddsCells (s : Store) (name : String) (key : Nat) (cells : List (List Nat × Nat))
    (slots : List (Option Variable)) (s' : Store) : Prop where
  model : s'.model = s.model
  arrays : s'.arrays = s.arrays
  declarations : s'.declarations = s.declarations
  auxiliaryArray : s'.auxiliaryArray = s.auxiliaryArray
  domains_nodup : s.domains.toList.Nodup → s'.domains.toList.Nodup
  infos_old : ∀ {k : Nat} {info : VariableInfo}, s.infos.get? k = some info →
    s'.infos.get? k = some info
  infos_new : ∀ {k : Nat} {info : VariableInfo}, s'.infos.get? k = some info →
    s.infos.get? k = some info ∨ ∃ (i : Nat) (indices : List Nat) (position : Nat),
      cells[i]? = some (indices, position) ∧ slots[i]? = some (some ⟨s.model, k⟩) ∧
      info.name = VarArray.cellName name indices ∧ info.cell = some ⟨key, position⟩
  length : slots.length = cells.length
  slots_new : ∀ {i : Nat} {v : Variable}, slots[i]? = some (some v) → v.model = s.model ∧
    ∃ indices position info, cells[i]? = some (indices, position) ∧
      s'.infos.get? v.index = some info ∧ info.cell = some ⟨key, position⟩

theorem addsCells (name : String) (key : Nat) (domainAt : List Nat → Option Domain)
    (cells : List (List Nat × Nat)) (s : Store) :
    s.AddsCells name key cells (addCells name key domainAt cells s).1
      (addCells name key domainAt cells s).2 := by
  induction cells generalizing s with
  | nil => exact ⟨rfl, rfl, rfl, rfl, id, id, .inl, rfl, fun h => nomatch h⟩
  | cons cell rest ih =>
    rw [addCells_cons]
    split
    · obtain ⟨hmodel, harrays, hdeclarations, hauxiliary, hnodup, hold, hnew, hlength, hslots⟩ :=
        ih s
      refine ⟨hmodel, harrays, hdeclarations, hauxiliary, hnodup, hold, fun h => ?_,
        congrArg (· + 1) hlength, fun {i v} h => ?_⟩
      · refine (hnew h).imp_right ?_
        rintro ⟨i, indices, position, hcell, hslot, h⟩
        exact ⟨i + 1, indices, position, hcell, hslot, h⟩
      · cases i with
        | zero => cases h
        | succ i => exact hslots h
    · rename_i d _
      obtain ⟨domain, domains, hinterns, hadd⟩ := s.addVariable_eq (VarArray.cellName name cell.1)
        d (some ⟨key, cell.2⟩)
      rw [hadd]
      obtain ⟨hmodel, harrays, hdeclarations, hauxiliary, hnodup, hold, hnew, hlength, hslots⟩ :=
        ih { s with domains, infos := s.infos.push ⟨VarArray.cellName name cell.1, domain,
          some ⟨key, cell.2⟩⟩ }
      refine ⟨hmodel, harrays, hdeclarations, hauxiliary, fun h => hnodup (hinterns.nodup h),
        fun h => ?_, fun h => ?_, congrArg (· + 1) hlength, fun {i v} h => ?_⟩
      · exact hold (Registry.get?_push_eq_some.mpr (.inl h))
      · rcases hnew h with h | ⟨i, indices, position, hcell, hslot, h⟩
        · rcases Registry.get?_push_eq_some.mp h with h | ⟨rfl, rfl⟩
          · exact .inl h
          · exact .inr ⟨0, cell.1, cell.2, rfl, rfl, rfl, rfl⟩
        · exact .inr ⟨i + 1, indices, position, hcell, hslot, h⟩
      · cases i with
        | zero =>
          obtain rfl := Option.some.inj (Option.some.inj h)
          exact ⟨rfl, cell.1, cell.2, _, rfl, hold (Registry.get?_push_size _ _), rfl⟩
        | succ i => exact hslots h

/-- A store that has grown is an inventory again if what is new in it is recorded. -/
theorem Inventory.of_grows (hs : s.Inventory) (h : s.Grows s')
    (hinfos : ∀ {key : Nat} {info : VariableInfo}, s'.infos.get? key = some info →
      s.infos.get? key = some info ∨ s'.Records key info)
    (harrays : ∀ {key : Nat} {a : VarArray}, s'.arrays.get? key = some a →
      Text.isIdentifier a.name = true ∧ a.shape ≠ [] ∧ .array key ∈ s'.declarations)
    (hknows : ∀ declaration ∈ s'.declarations, declaration ∈ s.declarations ∨ s'.Knows declaration)
    (hnames : s'.claimedNames.Nodup)
    (hauxiliary : ∀ key ∈ s'.auxiliaryArray, ∃ a, s'.arrays.get? key = some a ∧
      a.name = auxiliaryName ∧ a.shape = [a.slots.length])
    (hreserved : s'.auxiliaryArray = none → auxiliaryName ∉ s'.claimedNames) : s'.Inventory where
  records hinfo := by
    rcases hinfos hinfo with hold | hnew
    · exact h.records (hs.records hold)
    · exact hnew
  arrays := harrays
  knows declaration hd := by
    rcases hknows declaration hd with hold | hnew
    · exact h.knows (hs.knows declaration hold)
    · exact hnew
  names := hnames
  auxiliary := hauxiliary
  reserved := hreserved

/-- A store that declares one thing more, under a name that was not claimed, is an
inventory again. -/
theorem Inventory.of_declares (hs : s.Inventory) (h : s.Grows s') {declaration : Declaration}
    {name : String} (hdeclarations : s'.declarations = s.declarations ++ [declaration])
    (hknows : s'.Knows declaration) (hclaimed : s'.claimedName declaration = name)
    (hfresh : name ∉ s.claimedNames)
    (hinfos : ∀ {key : Nat} {info : VariableInfo}, s'.infos.get? key = some info →
      s.infos.get? key = some info ∨ s'.Records key info)
    (harrays : ∀ {key : Nat} {a : VarArray}, s'.arrays.get? key = some a →
      s.arrays.get? key = some a ∨
      Text.isIdentifier a.name = true ∧ a.shape ≠ [] ∧ declaration = .array key)
    (hauxiliary : ∀ key ∈ s'.auxiliaryArray, ∃ a, s'.arrays.get? key = some a ∧
      a.name = auxiliaryName ∧ a.shape = [a.slots.length])
    (hreserved : s'.auxiliaryArray = none → s.auxiliaryArray = none ∧ name ≠ auxiliaryName) :
    s'.Inventory := by
  have hnames := h.claimedNames hs hdeclarations
  rw [List.map_singleton, hclaimed] at hnames
  refine hs.of_grows h hinfos (fun ha => ?_) (fun declaration' hd => ?_) ?_ hauxiliary
    fun hnone => ?_
  · rcases harrays ha with hold | ⟨hidentifier, hshape, rfl⟩
    · obtain ⟨hidentifier, hshape, hdeclared⟩ := hs.arrays hold
      exact ⟨hidentifier, hshape, h.declarations hdeclared⟩
    · rw [hdeclarations]
      exact ⟨hidentifier, hshape, List.mem_append_right _ (List.mem_singleton_self _)⟩
  · rw [hdeclarations] at hd
    rcases List.mem_append.mp hd with hold | hd
    · exact .inl hold
    · obtain rfl := List.mem_singleton.mp hd
      exact .inr hknows
  · rw [hnames]
    exact List.nodup_append.mpr ⟨hs.names, List.nodup_singleton _, fun a ha b hb hab =>
      hfresh (by rwa [← List.mem_singleton.mp hb, ← hab])⟩
  · obtain ⟨hnone, hne⟩ := hreserved hnone
    rw [hnames]
    exact List.not_mem_append (hs.reserved hnone) fun hmem => hne (List.mem_singleton.mp hmem).symm

/-! ### Names of declarations -/

/-- Whether a name can be claimed by a new declaration. -/
structure Free (s : Store) (name : String) : Prop where
  allowed : isAllowedName name = true
  fresh : name ∉ s.claimedNames

theorem Free.identifier {name : String} (h : s.Free name) : Text.isIdentifier name = true :=
  (Bool.and_eq_true_iff.mp h.allowed).1

theorem Free.ne_auxiliaryName {name : String} (h : s.Free name) : name ≠ auxiliaryName := by
  rintro rfl
  exact absurd h.allowed (by decide)

theorem free_of_claim {name : String} (h : s.claim name = .ok ()) : s.Free name := by
  unfold claim at h
  split at h
  · rename_i hallowed
    split at h
    · cases h
    · rename_i hcontains
      exact ⟨hallowed, fun hmem => hcontains (List.contains_iff_mem.mpr hmem)⟩
  · cases h

theorem free_generated {letter : String} (hletter : Text.isIdentifier letter = true)
    (hplain : '_' ∉ letter.toList) (counter : Nat) :
    s.Free s!"{letter}{freshNumber s.claimedNames letter counter}" := by
  refine ⟨?_, freshNumber_not_mem _ _ _⟩
  rw [isAllowedName, isIdentifier_generated hletter, Bool.true_and, Bool.not_eq_true',
    Bool.eq_false_iff]
  intro hkept
  have hmem : '_' ∈ auxiliaryName.toList := by decide
  have hmem := (List.isPrefixOf_iff_prefix.mp hkept).subset hmem
  simp only [toString, String.toList_append] at hmem
  rcases List.mem_append.mp hmem with h | h
  · exact hplain h
  · exact absurd (Nat.isDigit_of_mem_repr h) (by decide)

theorem nameVariable_spec {name : Option String} {text : String} {t : Store}
    (h : s.nameVariable name = .ok (text, t)) :
    s.Free text ∧ ∃ number, t = { s with unnamedVariables := number } := by
  unfold nameVariable at h
  split at h
  · obtain ⟨_, hclaim, heq⟩ := Except.map_eq_ok.mp h
    cases heq
    exact ⟨free_of_claim hclaim, s.unnamedVariables, rfl⟩
  · cases h
    exact ⟨free_generated (by decide) (by decide) _, _, rfl⟩

theorem nameArray_spec {name : Option String} {text : String} {t : Store}
    (h : s.nameArray name = .ok (text, t)) :
    s.Free text ∧ ∃ number, t = { s with unnamedArrays := number } := by
  unfold nameArray at h
  split at h
  · obtain ⟨_, hclaim, heq⟩ := Except.map_eq_ok.mp h
    cases heq
    exact ⟨free_of_claim hclaim, s.unnamedArrays, rfl⟩
  · cases h
    exact ⟨free_generated (by decide) (by decide) _, _, rfl⟩

/-! ### What a declaration does -/

/-- A variable declared alone is the next one and claims a free name. -/
theorem declareVariable_eq_ok {name : Option String} {d : Domain} {v : Variable}
    (h : s.declareVariable name d = .ok (v, s')) :
    ∃ text number domain domains, s.Free text ∧ Interns s.domains d domain domains ∧
      v = ⟨s.model, s.infos.size⟩ ∧ s' = { s with
        domains, infos := s.infos.push ⟨text, domain, none⟩, unnamedVariables := number
        declarations := s.declarations ++ [.alone ⟨s.model, s.infos.size⟩] } := by
  unfold declareVariable at h
  split at h
  · cases h
  · rename_i text t hname
    obtain ⟨hfree, number, rfl⟩ := nameVariable_spec hname
    obtain ⟨domain, domains, hinterns, hadd⟩ :=
      addVariable_eq { s with unnamedVariables := number } text d none
    rw [hadd] at h
    cases h
    exact ⟨text, number, domain, domains, hfree, hinterns, rfl, rfl⟩

/-- An array that is declared is the next one and claims a free name. -/
theorem declareArray_eq_ok {name : Option String} {shape : List Nat}
    {domainAt : List Nat → Option Domain} {array : VarArray}
    (h : s.declareArray name shape domainAt = .ok (array, s')) :
    ∃ text slots t, s.Free text ∧ VarArray.checkShape shape = .ok () ∧
      s.AddsCells text s.arrays.size (Grid.tuples shape).zipIdx slots t ∧
      array = ⟨text, shape, slots⟩ ∧ s' = { t with
        arrays := s.arrays.push ⟨text, shape, slots⟩
        declarations := s.declarations ++ [.array s.arrays.size] } := by
  rw [declareArray_eq] at h
  split at h
  · cases h
  · rename_i hshape
    split at h
    · cases h
    · rename_i text t hname
      obtain ⟨hfree, number, rfl⟩ := nameArray_spec hname
      have hcells := addsCells text s.arrays.size domainAt (Grid.tuples shape).zipIdx
        { s with unnamedArrays := number }
      simp only at h
      revert hcells h
      generalize addCells text s.arrays.size domainAt _ _ = added
      obtain ⟨slots, t⟩ := added
      intro h hcells
      have harrays : t.arrays = s.arrays := hcells.arrays
      have hdeclarations : t.declarations = s.declarations := hcells.declarations
      rw [harrays, hdeclarations] at h
      cases h
      exact ⟨text, slots, t, hfree, hshape, ⟨hcells.model, harrays, hdeclarations,
        hcells.auxiliaryArray, hcells.domains_nodup, hcells.infos_old, hcells.infos_new,
        hcells.length, hcells.slots_new⟩, rfl, rfl⟩

theorem grows_declareVariable {name : Option String} {d : Domain} {v : Variable}
    (h : s.declareVariable name d = .ok (v, s')) : s.Grows s' := by
  obtain ⟨text, number, domain, domains, _, _, _, rfl⟩ := declareVariable_eq_ok h
  exact ⟨rfl, fun hinfo => Registry.get?_push_eq_some.mpr (.inl hinfo),
    fun ha => ⟨_, ha, .refl _⟩, List.subset_append_left _ _⟩

theorem grows_declareArray {name : Option String} {shape : List Nat}
    {domainAt : List Nat → Option Domain} {array : VarArray}
    (h : s.declareArray name shape domainAt = .ok (array, s')) : s.Grows s' := by
  obtain ⟨text, slots, t, _, _, hcells, _, rfl⟩ := declareArray_eq_ok h
  exact ⟨hcells.model, hcells.infos_old,
    fun ha => ⟨_, Registry.get?_push_eq_some.mpr (.inl ha), .refl _⟩,
    List.subset_append_left _ _⟩

theorem Inventory.declareVariable (hs : s.Inventory) {name : Option String} {d : Domain}
    {v : Variable} (h : s.declareVariable name d = .ok (v, s')) : s'.Inventory := by
  have hgrows := grows_declareVariable h
  obtain ⟨text, number, domain, domains, hfree, _, _, rfl⟩ := declareVariable_eq_ok h
  have hnew : (s.infos.push ⟨text, domain, none⟩).get? s.infos.size =
      some ⟨text, domain, none⟩ := Registry.get?_push_size _ _
  refine hs.of_declares hgrows rfl ⟨_, hnew⟩ (nameOf_of_get? hnew) hfree.fresh
    (fun hinfo => ?_) .inl (fun key hkey => hs.auxiliary key hkey)
    fun hnone => ⟨hnone, hfree.ne_auxiliaryName⟩
  rcases Registry.get?_push_eq_some.mp hinfo with hold | ⟨rfl, rfl⟩
  · exact .inl hold
  · exact .inr ⟨hfree.identifier, List.mem_append_right _ (List.mem_singleton_self _)⟩

/-- A declaration of an array claims its name, and keeps an inventory. -/
theorem Inventory.declareArray (hs : s.Inventory) {name : Option String} {shape : List Nat}
    {domainAt : List Nat → Option Domain} {array : VarArray}
    (h : s.declareArray name shape domainAt = .ok (array, s')) : s'.Inventory := by
  have hgrows := grows_declareArray h
  obtain ⟨text, slots, t, hfree, hshape, hcells, _, rfl⟩ := declareArray_eq_ok h
  have hnewArray : (s.arrays.push ⟨text, shape, slots⟩).get? s.arrays.size =
      some ⟨text, shape, slots⟩ := Registry.get?_push_size _ _
  refine hs.of_declares hgrows rfl ⟨_, hnewArray⟩ (claimedName_of_get? hnewArray) hfree.fresh
    (fun {k info} hinfo => ?_) (fun {key a} ha => ?_) (fun key hkey => ?_)
    fun hnone => ⟨hcells.auxiliaryArray.symm.trans hnone, hfree.ne_auxiliaryName⟩
  · rcases hcells.infos_new hinfo with hold | ⟨i, indices, position, hcell, hslot, hname, hplace⟩
    · exact .inl hold
    · rw [List.getElem?_zipIdx] at hcell
      obtain ⟨indices', hindices, heq⟩ := Option.map_eq_some_iff.mp hcell
      obtain ⟨rfl, rfl⟩ := Prod.mk.inj heq
      rw [Nat.zero_add] at hplace
      refine .inr ?_
      unfold Records
      rw [hplace]
      exact ⟨_, indices', hnewArray, by rw [hslot, hcells.model], hindices, hname⟩
  · rcases Registry.get?_push_eq_some.mp ha with hold | ⟨rfl, rfl⟩
    · exact .inl hold
    · refine .inr ⟨hfree.identifier, ?_, rfl⟩
      rintro rfl
      cases hshape
  · obtain ⟨a, ha, hname, hshape⟩ := hs.auxiliary key (hcells.auxiliaryArray.symm.trans hkey)
    exact ⟨a, Registry.get?_push_eq_some.mpr (.inl ha), hname, hshape⟩

/-- Opening the array of auxiliary variables claims its name, which is kept for it. -/
theorem Inventory.openAuxiliaryArray (hs : s.Inventory) :
    s.Grows s.openAuxiliaryArray.2 ∧ s.openAuxiliaryArray.2.Inventory ∧
      s.openAuxiliaryArray.2.auxiliaryArray = some s.openAuxiliaryArray.1 := by
  unfold Store.openAuxiliaryArray
  split
  · rename_i key hkey
    exact ⟨⟨rfl, id, fun ha => ⟨_, ha, .refl _⟩, List.Subset.refl _⟩, hs, hkey⟩
  · rename_i hnone
    have hnew : (s.arrays.push ⟨auxiliaryName, [0], []⟩).get? s.arrays.size =
        some ⟨auxiliaryName, [0], []⟩ := Registry.get?_push_size _ _
    have hgrows : s.Grows { s with
        arrays := s.arrays.push ⟨auxiliaryName, [0], []⟩
        declarations := s.declarations ++ [.array s.arrays.size]
        auxiliaryArray := some s.arrays.size } :=
      ⟨rfl, id, fun ha => ⟨_, Registry.get?_push_eq_some.mpr (.inl ha), .refl _⟩,
        List.subset_append_left _ _⟩
    refine ⟨hgrows, ?_, rfl⟩
    refine hs.of_declares hgrows rfl ⟨_, hnew⟩ (claimedName_of_get? hnew) (hs.reserved hnone)
      .inl (fun {key a} ha => ?_) (fun key hkey => ?_) fun h => nomatch h
    · rcases Registry.get?_push_eq_some.mp ha with hold | ⟨rfl, rfl⟩
      · exact .inl hold
      · exact .inr ⟨by decide, List.cons_ne_nil _ _, rfl⟩
    · cases hkey
      exact ⟨_, hnew, rfl, rfl⟩

/-- An auxiliary variable becomes the last cell of the array of auxiliary variables `a`. -/
structure AddsAuxiliary (s : Store) (key : Nat) (a : VarArray) (d : Domain) (v : Variable)
    (s' : Store) : Prop where
  array : s.arrays.get? key = some a
  name : a.name = auxiliaryName
  shape : a.shape = [a.slots.length]
  eq_next : v = ⟨s.model, s.infos.size⟩
  model : s'.model = s.model
  arrays : s.arrays.set? key (a.append v) = some s'.arrays
  infos : ∃ domain, Interns s.domains d domain s'.domains ∧ s'.infos = s.infos.push
    ⟨VarArray.cellName auxiliaryName [a.slots.length], domain, some ⟨key, a.slots.length⟩⟩
  declarations : s'.declarations = s.declarations
  auxiliaryArray : s'.auxiliaryArray = s.auxiliaryArray

theorem Inventory.addsAuxiliary (hs : s.Inventory) (d : Domain) :
    ∃ a, s.openAuxiliaryArray.2.AddsAuxiliary s.openAuxiliaryArray.1 a d (s.declareAuxiliary d).1
      (s.declareAuxiliary d).2 := by
  obtain ⟨_, ht, hkey⟩ := hs.openAuxiliaryArray
  unfold Store.declareAuxiliary
  revert ht hkey
  generalize s.openAuxiliaryArray = opened
  obtain ⟨key, t⟩ := opened
  intro ht hkey
  obtain ⟨a, ha, hname, hshape⟩ := ht.auxiliary key hkey
  have harray : t.arrayAt key = a := by
    unfold arrayAt
    rw [ha]
    rfl
  obtain ⟨domain, domains, hinterns, hadd⟩ := t.addVariable_eq
    (VarArray.cellName auxiliaryName [a.slots.length]) d (some ⟨key, a.slots.length⟩)
  have hset : ∃ arrays, t.arrays.set? key (a.append ⟨t.model, t.infos.size⟩) = some arrays :=
    ⟨_, if_pos (Registry.lt_size_of_get? ha)⟩
  obtain ⟨arrays, hset⟩ := hset
  simp only [harray, hadd, hset, Option.getD_some]
  exact ⟨a, ha, hname, hshape, rfl, rfl, hset, ⟨domain, hinterns, rfl⟩, rfl, rfl⟩

theorem AddsAuxiliary.get?_arrays {key : Nat} {a : VarArray} {d : Domain} {v : Variable}
    (h : s.AddsAuxiliary key a d v s') {key' : Nat} :
    s'.arrays.get? key' = if key = key' then some (a.append v) else s.arrays.get? key' :=
  Registry.get?_set? h.arrays

theorem AddsAuxiliary.grows {key : Nat} {a : VarArray} {d : Domain} {v : Variable}
    (h : s.AddsAuxiliary key a d v s') : s.Grows s' := by
  obtain ⟨domain, _, hinfos⟩ := h.infos
  refine ⟨h.model, fun hinfo => ?_, fun {key' a'} ha' => ?_, h.declarations ▸ List.Subset.refl _⟩
  · rw [hinfos]
    exact Registry.get?_push_eq_some.mpr (.inl hinfo)
  · rw [h.get?_arrays]
    by_cases hkeys : key = key'
    · subst hkeys
      rw [h.array] at ha'
      cases ha'
      exact ⟨_, if_pos rfl, VarArray.extends_append h.shape v⟩
    · exact ⟨a', (if_neg hkeys).trans ha', .refl a'⟩

theorem Inventory.grows_declareAuxiliary (hs : s.Inventory) (d : Domain) :
    s.Grows (s.declareAuxiliary d).2 :=
  have ⟨_, h⟩ := hs.addsAuxiliary d
  hs.openAuxiliaryArray.1.trans h.grows

/-- An auxiliary variable is the next cell of its array. -/
theorem Inventory.declareAuxiliary (hs : s.Inventory) (d : Domain) :
    (s.declareAuxiliary d).2.Inventory := by
  obtain ⟨_, ht, hkey⟩ := hs.openAuxiliaryArray
  obtain ⟨a, h⟩ := hs.addsAuxiliary d
  revert ht hkey h
  generalize s.openAuxiliaryArray = opened
  obtain ⟨key, t⟩ := opened
  generalize s.declareAuxiliary d = declared
  obtain ⟨v, t'⟩ := declared
  intro ht hkey h
  replace ht : t.Inventory := ht
  replace hkey : t.auxiliaryArray = some key := hkey
  replace h : t.AddsAuxiliary key a d v t' := h
  have hgrows := h.grows
  have hextends := VarArray.extends_append h.shape v
  have hself : t'.arrays.get? key = some (a.append v) := h.get?_arrays.trans (if_pos rfl)
  have hnames : t'.claimedNames = t.claimedNames := by
    have hnames := hgrows.claimedNames ht ((List.append_nil _).trans h.declarations.symm).symm
    rwa [List.map_nil, List.append_nil] at hnames
  obtain ⟨domain, _, hinfos⟩ := h.infos
  refine ht.of_grows hgrows (fun {k info} hinfo => ?_) (fun {key' a'} ha' => ?_)
    (fun _ hd => .inl (h.declarations ▸ hd)) (hnames ▸ ht.names) (fun key' hkey' => ?_)
    fun hnone => ?_
  · rw [hinfos] at hinfo
    rcases Registry.get?_push_eq_some.mp hinfo with hold | ⟨rfl, rfl⟩
    · exact .inl hold
    · refine .inr ⟨_, [a.slots.length], hself, ?_, ?_, ?_⟩
      · simp [VarArray.append, h.eq_next, h.model]
      · show (Grid.tuples [a.slots.length + 1])[a.slots.length]? = _
        rw [Grid.tuples_singleton, List.getElem?_map, List.getElem?_range (Nat.lt_succ_self _)]
        rfl
      · rw [hextends.name, h.name]
  · rw [h.declarations]
    by_cases hkeys : key = key'
    · subst hkeys
      rw [hself] at ha'
      cases ha'
      obtain ⟨hidentifier, hne, hdeclared⟩ := ht.arrays h.array
      exact ⟨hidentifier, hextends.shape hne, hdeclared⟩
    · exact ht.arrays ((h.get?_arrays.trans (if_neg hkeys)).symm.trans ha')
  · rw [h.auxiliaryArray] at hkey'
    obtain rfl : key = key' := Option.some.inj (hkey.symm.trans hkey')
    exact ⟨_, hself, hextends.name.trans h.name, by simp [VarArray.append]⟩
  · rw [h.auxiliaryArray, hkey] at hnone
    cases hnone

/-- Every store of a model is an inventory. -/
theorem Built.inventory (hs : s.Built) : s.Inventory := by
  induction hs with
  | new model =>
    exact ⟨fun h => (nomatch h), fun h => (nomatch h), fun _ h => (nomatch h), .nil,
      fun _ h => (nomatch h), fun _ h => (nomatch h)⟩
  | declareVariable _ _ h ih => exact ih.declareVariable h
  | declareArray _ _ h ih => exact ih.declareArray h
  | declareAuxiliary _ _ _ ih => exact ih.declareAuxiliary _

/-! ### Names of variables -/

theorem indices_ne_nil {shape : List Nat} (hshape : shape ≠ []) {position : Nat}
    {indices : List Nat} (h : (Grid.tuples shape)[position]? = some indices) : indices ≠ [] := by
  rintro rfl
  have hlength := Grid.length_of_mem_tuples (List.mem_of_getElem? h)
  exact hshape (List.eq_nil_of_length_eq_zero hlength.symm)

/-- Names consist of the characters of identifiers and of brackets. -/
theorem Inventory.isNameChar_of_mem_nameOf (hs : s.Inventory) (v : Variable) {c : Char}
    (hc : c ∈ (s.nameOf v).toList) : Text.isNameChar c = true := by
  have hidentifier : ∀ {text : String}, Text.isIdentifier text = true → c ∈ text.toList →
      Text.isNameChar c = true := fun h hc => by
    simp [Text.isNameChar, Text.isIdentifierRest_of_mem h hc]
  unfold nameOf at hc
  cases hinfo : s.info? v with
  | none =>
    rw [hinfo] at hc
    cases hc
  | some info =>
    rw [hinfo, Option.map_some, Option.getD_some] at hc
    have hrecords := hs.records hinfo
    unfold Records at hrecords
    split at hrecords
    · exact hidentifier hrecords.1 hc
    · obtain ⟨a, indices, ha, _, _, hname⟩ := hrecords
      rw [hname, VarArray.toList_cellName] at hc
      rcases List.mem_append.mp hc with hc | hc
      · exact hidentifier (hs.arrays ha).1 hc
      · exact Grid.isNameChar_of_mem_subscript hc

/-- Different declarations claim different names. -/
theorem Inventory.claimedName_injective (hs : s.Inventory) {a b : Declaration}
    (ha : a ∈ s.declarations) (hb : b ∈ s.declarations)
    (h : s.claimedName a = s.claimedName b) : a = b :=
  List.inj_on_of_nodup_map hs.names ha hb h

/-- Different arrays have different names. -/
theorem Inventory.key_eq_of_name (hs : s.Inventory) {key key' : Nat} {a a' : VarArray}
    (ha : s.arrays.get? key = some a) (ha' : s.arrays.get? key' = some a')
    (h : a.name = a'.name) : key = key' := by
  have hclaimed : s.claimedName (.array key) = s.claimedName (.array key') := by
    rw [claimedName_of_get? ha, claimedName_of_get? ha', h]
  exact Declaration.array.inj
    (hs.claimedName_injective (hs.arrays ha).2.2 (hs.arrays ha').2.2 hclaimed)

/-- The name of a cell has brackets, so it is no identifier. -/
theorem Inventory.mem_name_of_cell (hs : s.Inventory) {key : Nat} {info : VariableInfo}
    {cell : Cell} (h : s.Records key info) (hcell : info.cell = some cell) :
    '[' ∈ info.name.toList := by
  unfold Records at h
  rw [hcell] at h
  obtain ⟨a, indices, ha, _, hindices, heq⟩ := h
  rw [heq]
  exact VarArray.mem_cellName _ (indices_ne_nil (hs.arrays ha).2.1 hindices)

/-- Cells of one name are cells of one array under the same indices. -/
theorem Inventory.key_eq_of_cells (hs : s.Inventory) {key key' : Nat} {info info' : VariableInfo}
    {cell cell' : Cell} (h : s.Records key info) (h' : s.Records key' info')
    (hcell : info.cell = some cell) (hcell' : info'.cell = some cell')
    (hnames : info.name = info'.name) : key = key' := by
  unfold Records at h h'
  rw [hcell] at h
  rw [hcell'] at h'
  obtain ⟨a, indices, ha, hslot, hindices, heq⟩ := h
  obtain ⟨a', indices', ha', hslot', hindices', heq'⟩ := h'
  obtain ⟨hidentifier, hshape, -⟩ := hs.arrays ha
  obtain ⟨hidentifier', hshape', -⟩ := hs.arrays ha'
  obtain ⟨hsame, rfl⟩ := VarArray.cellName_inj (Text.not_mem_of_isIdentifier hidentifier)
    (Text.not_mem_of_isIdentifier hidentifier') (indices_ne_nil hshape hindices)
    (indices_ne_nil hshape' hindices') (heq.symm.trans (hnames.trans heq'))
  have harrays : cell.array = cell'.array := hs.key_eq_of_name ha ha' hsame
  rw [harrays, ha'] at ha
  cases ha
  have hpositions : cell.position = cell'.position :=
    (List.getElem?_inj (List.getElem?_eq_some_iff.mp hindices).1 (Grid.nodup_tuples _)).mp
      (hindices.trans hindices'.symm)
  rw [hpositions, hslot'] at hslot
  exact (Variable.mk.inj (Option.some.inj (Option.some.inj hslot))).2.symm

/-- No two variables have one name. -/
theorem Inventory.nameOf_injective (hs : s.Inventory) {v w : Variable} (hv : s.Declares v)
    (hw : s.Declares w) (h : s.nameOf v = s.nameOf w) : v = w := by
  obtain ⟨model, k⟩ := v
  obtain ⟨model', k'⟩ := w
  obtain ⟨rfl, hk⟩ : model = s.model ∧ k < s.infos.size := hv
  obtain ⟨rfl, hk'⟩ : model' = s.model ∧ k' < s.infos.size := hw
  obtain ⟨info, hinfo⟩ := Registry.exists_get?_of_lt hk
  obtain ⟨info', hinfo'⟩ := Registry.exists_get?_of_lt hk'
  have hrecords := hs.records hinfo
  have hrecords' := hs.records hinfo'
  have hnames : info.name = info'.name :=
    (nameOf_of_get? hinfo).symm.trans (h.trans (nameOf_of_get? hinfo'))
  have halone : ∀ {key info}, s.Records key info → info.cell = none →
      Text.isIdentifier info.name = true ∧ .alone ⟨s.model, key⟩ ∈ s.declarations :=
    fun h hcell => by rwa [Records, hcell] at h
  cases hcell : info.cell with
  | none =>
    obtain ⟨hidentifier, hdeclared⟩ := halone hrecords hcell
    cases hcell' : info'.cell with
    | none =>
      obtain ⟨-, hdeclared'⟩ := halone hrecords' hcell'
      exact Declaration.alone.inj (hs.claimedName_injective hdeclared hdeclared' h)
    | some cell' =>
      exact absurd (hnames ▸ hs.mem_name_of_cell hrecords' hcell')
        (Text.not_mem_of_isIdentifier hidentifier)
  | some cell =>
    cases hcell' : info'.cell with
    | none =>
      exact absurd (hnames ▸ hs.mem_name_of_cell hrecords hcell)
        (Text.not_mem_of_isIdentifier (halone hrecords' hcell').1)
    | some cell' =>
      rw [hs.key_eq_of_cells hrecords hrecords' hcell hcell' hnames]

/-- No name of a store of a model has a percent sign or any other sign of an expression. -/
theorem Built.isNameChar_of_mem_nameOf (hs : s.Built) (v : Variable) {c : Char}
    (hc : c ∈ (s.nameOf v).toList) : Text.isNameChar c = true :=
  hs.inventory.isNameChar_of_mem_nameOf v hc

/-- In a store of a model no two variables have one name. -/
theorem Built.nameOf_injective (hs : s.Built) {v w : Variable} (hv : s.Declares v)
    (hw : s.Declares w) (h : s.nameOf v = s.nameOf w) : v = w :=
  hs.inventory.nameOf_injective hv hw h

end Store

end CspModel
