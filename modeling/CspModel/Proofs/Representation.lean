import CspModel.Proofs.Addressing

/-! # How a store represents what is declared

The tables of a store point at each other.  A variable that is a cell says where it lies,
and the array there holds it; a declaration is of a variable alone or of an array; a
variable has the key of its domain, and the table of domains has no domain twice.  Every
declaration and every auxiliary variable keeps these pointers in order (`Store.Indexed`).

So whatever was asked for, failing requests included, and however many auxiliary variables
were added afterwards, a store is coherent (`Store.Coherent`): names are told apart, a cell
is named after its place, equal domains have one key and every variable belongs to exactly
one declaration.
-/
namespace CspModel

theorem Registry.getElem?_toList {α : Type} (r : Registry α) (key : Nat) :
    r.toList[key]? = r.get? key :=
  Array.getElem?_toList

theorem Registry.toList_set? {α : Type} {r r' : Registry α} {key : Nat} {value : α}
    (h : r.set? key value = some r') : r'.toList = r.toList.set key value := by
  unfold set? at h
  split at h
  · cases h
    exact Array.toList_setIfInBounds
  · cases h

/-- What a table holds it still holds when it is continued. -/
theorem Registry.get?_of_prefix {α : Type} {r r' : Registry α} (h : r.toList <+: r'.toList)
    {key : Nat} {value : α} (hget : r.get? key = some value) : r'.get? key = some value := by
  rw [← getElem?_toList] at hget ⊢
  obtain ⟨rest, heq⟩ := h
  rw [← heq, List.getElem?_append_left (List.getElem?_eq_some_iff.mp hget).1, hget]

theorem Grid.length_tuples (shape : List Nat) : (tuples shape).length = volume shape := by
  rw [tuples_eq_map, List.length_map, List.length_range]

/-- The last slot of an array holds what was appended. -/
theorem VarArray.getElem?_slots_append {a : VarArray} {v w : Variable} {position : Nat} :
    (a.append v).slots[position]? = some (some w) ↔
      a.slots[position]? = some (some w) ∨ position = a.slots.length ∧ v = w := by
  show (a.slots ++ [some v])[position]? = _ ↔ _
  rcases Nat.lt_trichotomy position a.slots.length with h | rfl | h
  · rw [List.getElem?_append_left h]
    simp [Nat.ne_of_lt h]
  · simp
  · rw [List.getElem?_eq_none (by rw [List.length_append, List.length_singleton]; omega),
      List.getElem?_eq_none (Nat.le_of_lt h)]
    simp [Nat.ne_of_gt h]

namespace Store

variable {s s' : Store}

/-- The variables of a store in the order in which they were added. -/
def declared (s : Store) : List Variable := (List.range s.infos.size).map (Variable.mk s.model)

theorem mem_declared {v : Variable} : v ∈ s.declared ↔ s.Declares v := by
  unfold declared Declares
  rw [List.mem_map]
  constructor
  · rintro ⟨index, hindex, rfl⟩
    exact ⟨rfl, List.mem_range.mp hindex⟩
  · rintro ⟨hmodel, hindex⟩
    exact ⟨v.index, List.mem_range.mpr hindex, hmodel ▸ rfl⟩

theorem nodup_declared (s : Store) : s.declared.Nodup :=
  List.Nodup.map (fun _ _ h => (Variable.mk.inj h).2) List.nodup_range

/-- The variables that a declaration is of. -/
def covers (s : Store) : Declaration → List Variable
  | .alone v => [v]
  | .array key => (s.arrayAt key).cells

theorem arrayAt_of_get? {key : Nat} {a : VarArray} (h : s.arrays.get? key = some a) :
    s.arrayAt key = a := by
  unfold arrayAt
  rw [h]
  rfl

theorem cellOf_of_get? {key : Nat} {info : VariableInfo} (h : s.infos.get? key = some info) :
    s.cellOf ⟨s.model, key⟩ = info.cell := by
  simp [cellOf, info?, h]

/-! ### Pointers -/

/-- The tables of a store point at each other. -/
structure Indexed (s : Store) : Prop where
  inventory : s.Inventory
  consistent : s.Consistent fun _ => True
  domains : s.domains.toList.Nodup
  alone : ∀ {v : Variable}, .alone v ∈ s.declarations → s.Declares v ∧ s.cellOf v = none
  slots : ∀ {key : Nat} {a : VarArray} {position : Nat} {v : Variable},
    s.arrays.get? key = some a → a.slots[position]? = some (some v) →
    s.Declares v ∧ s.cellOf v = some ⟨key, position⟩
  full : ∀ {key : Nat} {a : VarArray}, s.arrays.get? key = some a →
    a.slots.length = Grid.volume a.shape

/-- Variables stay where they are. -/
theorem Grows.cellOf (h : s.Grows s') {v : Variable} (hv : s.Declares v) :
    s'.Declares v ∧ s'.cellOf v = s.cellOf v := by
  obtain ⟨info, hinfo⟩ := Registry.exists_get?_of_lt hv.2
  have hinfo' := h.infos hinfo
  refine ⟨⟨hv.1.trans h.model.symm, Registry.lt_size_of_get? hinfo'⟩, ?_⟩
  unfold Store.cellOf info?
  rw [hinfo, hinfo']

/-- After a step the pointers are in order if the new ones are. -/
theorem Indexed.of_grows (hs : s.Indexed) (h : s.Grows s') (hinventory : s'.Inventory)
    (hconsistent : s'.Consistent fun _ => True) (hdomains : s'.domains.toList.Nodup)
    (halone : ∀ {v : Variable}, .alone v ∈ s'.declarations →
      .alone v ∈ s.declarations ∨ s'.Declares v ∧ s'.cellOf v = none)
    (hslots : ∀ {key : Nat} {a : VarArray} {position : Nat} {v : Variable},
      s'.arrays.get? key = some a → a.slots[position]? = some (some v) →
      (∃ old, s.arrays.get? key = some old ∧ old.slots[position]? = some (some v)) ∨
        s'.Declares v ∧ s'.cellOf v = some ⟨key, position⟩)
    (hfull : ∀ {key : Nat} {a : VarArray}, s'.arrays.get? key = some a →
      s.arrays.get? key = some a ∨ a.slots.length = Grid.volume a.shape) : s'.Indexed where
  inventory := hinventory
  consistent := hconsistent
  domains := hdomains
  alone hv := by
    rcases halone hv with hold | hnew
    · obtain ⟨hdeclared, hcell⟩ := hs.alone hold
      obtain ⟨hdeclared', hcell'⟩ := h.cellOf hdeclared
      exact ⟨hdeclared', hcell'.trans hcell⟩
    · exact hnew
  slots ha hv := by
    rcases hslots ha hv with ⟨old, hold, hv⟩ | hnew
    · obtain ⟨hdeclared, hcell⟩ := hs.slots hold hv
      obtain ⟨hdeclared', hcell'⟩ := h.cellOf hdeclared
      exact ⟨hdeclared', hcell'.trans hcell⟩
    · exact hnew
  full ha := (hfull ha).elim hs.full id

theorem indexed_new (model : Nat) : Indexed { model } :=
  ⟨(Built.new model).inventory, (Built.new model).consistent_true, .nil, fun h => (nomatch h),
    fun h => (nomatch h), fun h => (nomatch h)⟩

theorem Indexed.declareVariable (hs : s.Indexed) {name : Option String} {d : Domain}
    {v : Variable} (h : s.declareVariable name d = .ok (v, s')) : s'.Indexed := by
  have hgrows := grows_declareVariable h
  have hinventory := hs.inventory.declareVariable h
  have hconsistent := (adds_declareVariable hs.consistent h).consistent hs.consistent trivial
  obtain ⟨text, number, domain, domains, _, hinterns, _, rfl⟩ := declareVariable_eq_ok h
  refine hs.of_grows hgrows hinventory hconsistent (hinterns.nodup hs.domains) (fun hw => ?_)
    (fun ha hslot => .inl ⟨_, ha, hslot⟩) .inl
  rcases List.mem_append.mp hw with hold | hw
  · exact .inl hold
  · obtain rfl := Declaration.alone.inj (List.mem_singleton.mp hw)
    have hnew := Registry.get?_push_size s.infos ⟨text, domain, none⟩
    refine .inr ⟨⟨rfl, Registry.lt_size_of_get? hnew⟩, ?_⟩
    unfold Store.cellOf info?
    rw [hnew]
    rfl

theorem Indexed.declareArray (hs : s.Indexed) {name : Option String} {shape : List Nat}
    {domainAt : List Nat → Option Domain} {array : VarArray}
    (h : s.declareArray name shape domainAt = .ok (array, s')) : s'.Indexed := by
  have hgrows := grows_declareArray h
  have hinventory := hs.inventory.declareArray h
  have hconsistent := consistent_declareArray hs.consistent (fun _ _ _ => trivial) h
  obtain ⟨text, slots, t, _, _, hcells, _, rfl⟩ := declareArray_eq_ok h
  refine hs.of_grows hgrows hinventory hconsistent (hcells.domains_nodup hs.domains)
    (fun hw => ?_) (fun {key a position v} ha hslot => ?_) fun ha => ?_
  · rcases List.mem_append.mp hw with hold | hw
    · exact .inl hold
    · cases List.mem_singleton.mp hw
  · rcases Registry.get?_push_eq_some.mp ha with hold | ⟨rfl, rfl⟩
    · exact .inl ⟨a, hold, hslot⟩
    · obtain ⟨hmodel, indices, position', info, hcell, hinfo, hplace⟩ := hcells.slots_new hslot
      rw [List.getElem?_zipIdx] at hcell
      obtain ⟨_, _, heq⟩ := Option.map_eq_some_iff.mp hcell
      obtain ⟨rfl, rfl⟩ := Prod.mk.inj heq
      rw [Nat.zero_add] at hplace
      refine .inr ⟨⟨hmodel.trans hcells.model.symm, Registry.lt_size_of_get? hinfo⟩, ?_⟩
      unfold Store.cellOf info?
      rw [hinfo]
      exact hplace
  · rcases Registry.get?_push_eq_some.mp ha with hold | ⟨_, rfl⟩
    · exact .inl hold
    · exact .inr (by rw [hcells.length, List.length_zipIdx, Grid.length_tuples])

theorem Indexed.openAuxiliaryArray (hs : s.Indexed) : s.openAuxiliaryArray.2.Indexed := by
  obtain ⟨hgrows, hinventory, _⟩ := hs.inventory.openAuxiliaryArray
  have hconsistent := s.alike_openAuxiliaryArray.consistent.mpr hs.consistent
  revert hgrows hinventory hconsistent
  unfold Store.openAuxiliaryArray
  split
  · exact fun _ _ _ => hs
  · intro hgrows hinventory hconsistent
    refine hs.of_grows hgrows hinventory hconsistent hs.domains (fun hw => ?_)
      (fun {key a position v} ha hslot => ?_) fun ha => ?_
    · rcases List.mem_append.mp hw with hold | hw
      · exact .inl hold
      · cases List.mem_singleton.mp hw
    · rcases Registry.get?_push_eq_some.mp ha with hold | ⟨_, rfl⟩
      · exact .inl ⟨a, hold, hslot⟩
      · cases hslot
    · rcases Registry.get?_push_eq_some.mp ha with hold | ⟨_, rfl⟩
      · exact .inl hold
      · exact .inr rfl

theorem Indexed.declareAuxiliary (hs : s.Indexed) (d : Domain) :
    (s.declareAuxiliary d).2.Indexed := by
  have ht := hs.openAuxiliaryArray
  obtain ⟨a, h⟩ := hs.inventory.addsAuxiliary d
  have hconsistent := (adds_declareAuxiliary hs.consistent d).consistent hs.consistent trivial
  obtain ⟨domain, hinterns, hinfos⟩ := h.infos
  refine ht.of_grows h.grows (hs.inventory.declareAuxiliary d) hconsistent
    (hinterns.nodup ht.domains) (fun hw => .inl (h.declarations ▸ hw))
    (fun {key' a' position v} ha' hslot => ?_) fun {key' a'} ha' => ?_
  · by_cases hkeys : s.openAuxiliaryArray.1 = key'
    · subst hkeys
      rw [h.get?_arrays, if_pos rfl] at ha'
      cases ha'
      rcases VarArray.getElem?_slots_append.mp hslot with hold | ⟨rfl, hv⟩
      · exact .inl ⟨a, h.array, hold⟩
      · have hnew := Registry.get?_push_size s.openAuxiliaryArray.2.infos
          ⟨VarArray.cellName auxiliaryName [a.slots.length], domain,
            some ⟨s.openAuxiliaryArray.1, a.slots.length⟩⟩
        rw [← hinfos] at hnew
        rw [← hv, h.eq_next, ← h.model]
        exact .inr ⟨⟨rfl, Registry.lt_size_of_get? hnew⟩, cellOf_of_get? hnew⟩
    · rw [h.get?_arrays, if_neg hkeys] at ha'
      exact .inl ⟨a', ha', hslot⟩
  · by_cases hkeys : s.openAuxiliaryArray.1 = key'
    · subst hkeys
      rw [h.get?_arrays, if_pos rfl] at ha'
      cases ha'
      exact .inr (by simp [VarArray.append, Grid.volume])
    · rw [h.get?_arrays, if_neg hkeys] at ha'
      exact .inl ha'

/-- In every store of a model the tables point at each other. -/
theorem Built.indexed (hs : s.Built) : s.Indexed := by
  induction hs with
  | new model => exact indexed_new model
  | declareVariable _ _ h ih => exact ih.declareVariable h
  | declareArray _ _ h ih => exact ih.declareArray h
  | declareAuxiliary _ _ _ ih => exact ih.declareAuxiliary _

/-! ### Declarations and what they cover -/

/-- The declaration that a variable belongs to. -/
def declarationOf (s : Store) (v : Variable) : Declaration :=
  match s.cellOf v with
  | none => .alone v
  | some cell => .array cell.array

theorem Indexed.declarationOf_mem (hs : s.Indexed) {v : Variable} (hv : s.Declares v) :
    s.declarationOf v ∈ s.declarations := by
  unfold declarationOf
  split
  · rename_i hcell
    exact (hs.inventory.alone hv hcell).2
  · rename_i cell hcell
    exact (hs.inventory.arrays (hs.inventory.isCell hv hcell).array).2.2

/-- A declaration covers the variables that belong to it. -/
theorem Indexed.mem_covers (hs : s.Indexed) {declaration : Declaration}
    (h : declaration ∈ s.declarations) {v : Variable} :
    v ∈ s.covers declaration ↔ s.Declares v ∧ s.declarationOf v = declaration := by
  cases declaration with
  | alone w =>
    obtain ⟨hw, hcell⟩ := hs.alone h
    rw [covers, List.mem_singleton]
    constructor
    · rintro rfl
      exact ⟨hw, by rw [declarationOf, hcell]⟩
    · rintro ⟨_, heq⟩
      unfold declarationOf at heq
      split at heq
      · exact Declaration.alone.inj heq
      · cases heq
  | array key =>
    obtain ⟨a, ha⟩ := hs.inventory.knows _ h
    rw [covers, arrayAt_of_get? ha, VarArray.cells, List.mem_filterMap]
    constructor
    · rintro ⟨slot, hslot, rfl⟩
      obtain ⟨position, hposition⟩ := List.mem_iff_getElem?.mp hslot
      obtain ⟨hv, hcell⟩ := hs.slots ha hposition
      exact ⟨hv, by rw [declarationOf, hcell]⟩
    · rintro ⟨hv, heq⟩
      unfold declarationOf at heq
      split at heq
      · cases heq
      · rename_i cell hcell
        obtain rfl := Declaration.array.inj heq
        have hplace := hs.inventory.isCell hv hcell
        rw [arrayAt_of_get? ha] at hplace
        exact ⟨some v, List.mem_of_getElem? hplace.slot, rfl⟩

/-- An array holds no variable twice. -/
theorem Indexed.nodup_covers (hs : s.Indexed) {declaration : Declaration}
    (h : declaration ∈ s.declarations) : (s.covers declaration).Nodup := by
  cases declaration with
  | alone v => exact List.nodup_singleton v
  | array key =>
    obtain ⟨a, ha⟩ := hs.inventory.knows _ h
    rw [covers, arrayAt_of_get? ha, VarArray.cells, List.Nodup, List.pairwise_filterMap,
      List.pairwise_iff_getElem]
    intro i j hi hj hlt v hv w hw hvw
    have hiv := (hs.slots ha ((List.getElem?_eq_getElem hi).trans (congrArg some hv))).2
    have hjw := (hs.slots ha ((List.getElem?_eq_getElem hj).trans (congrArg some hw))).2
    rw [hvw] at hiv
    exact Nat.ne_of_lt hlt (Cell.mk.inj (Option.some.inj (hiv.symm.trans hjw))).2

/-- Every variable is covered by exactly one declaration. -/
theorem Indexed.covered (hs : s.Indexed) : (s.declarations.flatMap s.covers).Perm s.declared := by
  have hdeclarations : s.declarations.Nodup := List.Nodup.of_map _ hs.inventory.names
  refine (List.perm_ext_iff_of_nodup ?_ s.nodup_declared).mpr fun v => ?_
  · refine List.nodup_flatMap.mpr ⟨fun _ h => hs.nodup_covers h, ?_⟩
    refine (List.Pairwise.and_mem.mp hdeclarations).imp ?_
    rintro declaration declaration' ⟨h, h', hne⟩ v hv hv'
    exact hne (((hs.mem_covers h).mp hv).2.symm.trans ((hs.mem_covers h').mp hv').2)
  · rw [List.mem_flatMap, mem_declared]
    constructor
    · rintro ⟨declaration, h, hv⟩
      exact ((hs.mem_covers h).mp hv).1
    · intro hv
      have hmem := hs.declarationOf_mem hv
      exact ⟨_, hmem, (hs.mem_covers hmem).mpr ⟨hv, rfl⟩⟩

/-! ### Coherence -/

/-- The key under which the domain of a variable is kept. -/
def domainKey (s : Store) (v : Variable) : Option Nat := (s.info? v).map (·.domain)

/-- What holds of a store for whoever uses it. -/
structure Coherent (s : Store) : Prop where
  /-- The names of variables and of arrays are told apart. -/
  names : (s.declared.map s.nameOf ++ s.arrays.toList.map VarArray.name).Nodup
  identifiers : ∀ declaration ∈ s.declarations,
    Text.isIdentifier (s.claimedName declaration) = true
  /-- A cell is called by the name of its array and the indices of its place, and found there. -/
  cellNames : ∀ {key : Nat} {a : VarArray} {position : Nat} {v : Variable},
    s.arrays.get? key = some a → a.slots[position]? = some (some v) →
    s.nameOf v = VarArray.cellName a.name (Grid.indices a.shape position) ∧
      a.get? (Grid.indices a.shape position) = some v
  /-- A variable records a place exactly if the array there holds it. -/
  cells : ∀ {v : Variable} {key position : Nat},
    s.Declares v ∧ s.cellOf v = some ⟨key, position⟩ ↔
      ∃ a, s.arrays.get? key = some a ∧ a.slots[position]? = some (some v)
  /-- No variable lies in two slots. -/
  single : ∀ {v : Variable} {key key' position position' : Nat} {a a' : VarArray},
    s.arrays.get? key = some a → a.slots[position]? = some (some v) →
    s.arrays.get? key' = some a' → a'.slots[position']? = some (some v) →
    key = key' ∧ position = position'
  full : ∀ {key : Nat} {a : VarArray}, s.arrays.get? key = some a →
    a.slots.length = Grid.volume a.shape
  domains : s.domains.toList.Nodup
  /-- Equal domains are kept once. -/
  shared : ∀ {v w : Variable}, s.Declares v → s.Declares w →
    (s.domainKey v = s.domainKey w ↔ s.domainOf v = s.domainOf w)
  /-- Every variable is covered by exactly one declaration. -/
  covered : (s.declarations.flatMap s.covers).Perm s.declared

/-- There is no array without dimensions. -/
theorem Inventory.indices_ne_nil (hs : s.Inventory) {key : Nat} {a : VarArray}
    (ha : s.arrays.get? key = some a) (position : Nat) : Grid.indices a.shape position ≠ [] := by
  intro hnil
  refine (hs.arrays ha).2.1 (List.eq_nil_of_length_eq_zero ?_)
  rw [← Grid.length_indices a.shape position, hnil, List.length_nil]

/-- No variable is called like an array. -/
theorem Inventory.nameOf_ne (hs : s.Inventory) {v : Variable} (hv : s.Declares v) {key : Nat}
    {a : VarArray} (ha : s.arrays.get? key = some a) : s.nameOf v ≠ a.name := by
  intro heq
  cases hcell : s.cellOf v with
  | none =>
    have hclaimed : s.claimedName (.alone v) = s.claimedName (.array key) := by
      rw [claimedName_of_get? ha]
      exact heq
    have hsame := hs.claimedName_injective (hs.alone hv hcell).2 (hs.arrays ha).2.2 hclaimed
    cases hsame
  | some cell =>
    have hplace := hs.isCell hv hcell
    refine Text.not_mem_of_isIdentifier (hs.arrays ha).1 ?_
    rw [← heq, hplace.name]
    exact VarArray.mem_cellName _ (hs.indices_ne_nil hplace.array _)

theorem Inventory.nodup_arrayNames (hs : s.Inventory) :
    (s.arrays.toList.map VarArray.name).Nodup := by
  rw [List.Nodup, List.pairwise_map, List.pairwise_iff_getElem]
  intro key key' hkey hkey' hlt heq
  have ha := (s.arrays.getElem?_toList key).symm.trans (List.getElem?_eq_getElem hkey)
  have ha' := (s.arrays.getElem?_toList key').symm.trans (List.getElem?_eq_getElem hkey')
  exact Nat.ne_of_lt hlt (hs.key_eq_of_name ha ha' heq)

theorem Indexed.shared (hs : s.Indexed) {v w : Variable} (hv : s.Declares v)
    (hw : s.Declares w) : s.domainKey v = s.domainKey w ↔ s.domainOf v = s.domainOf w := by
  have hlookup : ∀ {v : Variable}, s.Declares v → ∃ key, s.domainKey v = some key ∧
      s.domains.toList[key]? = some (s.domainOf v) := fun {v} hv => by
    obtain ⟨info, hinfo⟩ := Registry.exists_get?_of_lt hv.2
    obtain ⟨d, hd⟩ := Registry.exists_get?_of_lt (hs.consistent.key_lt hinfo)
    have hinfo : s.info? v = some info := hinfo
    refine ⟨info.domain, by rw [domainKey, hinfo]; rfl, ?_⟩
    simp [domainOf, domainAt, hinfo, hd, Registry.getElem?_toList]
  obtain ⟨key, hkey, hd⟩ := hlookup hv
  obtain ⟨key', hkey', hd'⟩ := hlookup hw
  rw [hkey, hkey', Option.some.injEq]
  constructor
  · rintro rfl
    exact Option.some.inj (hd.symm.trans hd')
  · intro heq
    rw [heq] at hd
    exact (List.getElem?_inj (List.getElem?_eq_some_iff.mp hd).1 hs.domains).mp (hd.trans hd'.symm)

theorem Indexed.coherent (hs : s.Indexed) : s.Coherent where
  names := by
    refine List.nodup_append.mpr ⟨?_, hs.inventory.nodup_arrayNames, ?_⟩
    · refine s.nodup_declared.map_on fun v hv w hw h => ?_
      exact hs.inventory.nameOf_injective (mem_declared.mp hv) (mem_declared.mp hw) h
    · intro name hname name' hname' heq
      obtain ⟨v, hv, rfl⟩ := List.mem_map.mp hname
      obtain ⟨a, ha, rfl⟩ := List.mem_map.mp hname'
      obtain ⟨key, hkey⟩ := List.mem_iff_getElem?.mp ha
      exact hs.inventory.nameOf_ne (mem_declared.mp hv)
        ((s.arrays.getElem?_toList key).symm.trans hkey) heq
  identifiers declaration h := by
    cases declaration with
    | alone v =>
      obtain ⟨hv, hcell⟩ := hs.alone h
      exact (hs.inventory.alone hv hcell).1
    | array key =>
      obtain ⟨a, ha⟩ := hs.inventory.knows _ h
      rw [claimedName_of_get? ha]
      exact (hs.inventory.arrays ha).1
  cellNames ha hslot := by
    obtain ⟨hv, hcell⟩ := hs.slots ha hslot
    have hplace := hs.inventory.isCell hv hcell
    rw [arrayAt_of_get? ha] at hplace
    exact ⟨hplace.name, hplace.get⟩
  cells := by
    intro v key position
    constructor
    · rintro ⟨hv, hcell⟩
      have hplace := hs.inventory.isCell hv hcell
      exact ⟨_, hplace.array, hplace.slot⟩
    · rintro ⟨a, ha, hslot⟩
      exact hs.slots ha hslot
  single ha hslot ha' hslot' :=
    Cell.mk.inj (Option.some.inj ((hs.slots ha hslot).2.symm.trans (hs.slots ha' hslot').2))
  full := hs.full
  domains := hs.domains
  shared := hs.shared
  covered := hs.covered

/-! ### Requests -/

/-- What a store can be asked to declare. -/
inductive Request where
  | alone (name : Option String) (d : Domain)
  | array (name : Option String) (shape : List Nat) (domainAt : List Nat → Option Domain)

/-- What a request leaves; one that fails leaves the store as it is. -/
def perform (s : Store) : Request → Store
  | .alone name d =>
    match s.declareVariable name d with
    | .ok (_, s') => s'
    | .error _ => s
  | .array name shape domainAt =>
    match s.declareArray name shape domainAt with
    | .ok (_, s') => s'
    | .error _ => s

/-- The store of a model after any requests. -/
def after (model : Nat) (requests : List Request) : Store := requests.foldl perform { model }

/-- What is left after auxiliary variables with the given domains are added. -/
def introduce (s : Store) (ds : List Domain) : Store :=
  ds.foldl (fun s d => (s.declareAuxiliary d).2) s

/-- A store before auxiliary variables are added to it. -/
structure Open (s : Store) : Prop where
  indexed : s.Indexed
  unopened : s.auxiliaryArray = none
  allowed : ∀ name ∈ s.claimedNames, isAllowedName name = true

theorem open_new (model : Nat) : Open { model } :=
  ⟨indexed_new model, rfl, fun _ h => nomatch h⟩

/-- A request claims at most one name, which is allowed. -/
theorem Open.perform (hs : s.Open) (request : Request) : (s.perform request).Open := by
  have hclaims : ∀ {s' : Store} {declaration : Declaration} {text : String}, s.Grows s' →
      s'.declarations = s.declarations ++ [declaration] → s'.claimedName declaration = text →
      isAllowedName text = true → ∀ name ∈ s'.claimedNames, isAllowedName name = true := by
    rintro s' declaration text hgrows hdeclarations rfl hallowed name hname
    rw [hgrows.claimedNames hs.indexed.inventory hdeclarations] at hname
    rcases List.mem_append.mp hname with hold | hnew
    · exact hs.allowed name hold
    · rw [List.mem_singleton.mp hnew]
      exact hallowed
  unfold Store.perform
  split
  · split
    · rename_i v s' h
      have hindexed := hs.indexed.declareVariable h
      have hgrows := grows_declareVariable h
      obtain ⟨text, number, domain, domains, hfree, _, _, rfl⟩ := declareVariable_eq_ok h
      exact ⟨hindexed, hs.unopened, hclaims hgrows rfl
        (nameOf_of_get? (s := { s with infos := s.infos.push ⟨text, domain, none⟩ })
          (Registry.get?_push_size _ _)) hfree.allowed⟩
    · exact hs
  · split
    · rename_i a s' h
      have hindexed := hs.indexed.declareArray h
      have hgrows := grows_declareArray h
      obtain ⟨text, slots, t, hfree, _, hcells, _, rfl⟩ := declareArray_eq_ok h
      exact ⟨hindexed, hcells.auxiliaryArray.trans hs.unopened, hclaims hgrows rfl
        (claimedName_of_get? (s := { s with arrays := s.arrays.push ⟨text, _, slots⟩ })
          (Registry.get?_push_size _ _)) hfree.allowed⟩
    · exact hs

theorem open_after (model : Nat) (requests : List Request) : (after model requests).Open := by
  suffices ∀ s : Store, s.Open → (requests.foldl Store.perform s).Open from this _ (open_new model)
  induction requests with
  | nil => exact fun _ hs => hs
  | cons request rest ih => exact fun s hs => ih _ (hs.perform request)

theorem model_perform (s : Store) (request : Request) : (s.perform request).model = s.model := by
  unfold Store.perform
  split
  · split
    · rename_i h
      exact (grows_declareVariable h).model
    · rfl
  · split
    · rename_i h
      exact (grows_declareArray h).model
    · rfl

theorem model_after (model : Nat) (requests : List Request) :
    (after model requests).model = model := by
  suffices ∀ s : Store, (requests.foldl Store.perform s).model = s.model from this _
  induction requests with
  | nil => exact fun _ => rfl
  | cons request rest ih => exact fun s => (ih _).trans (s.model_perform request)

/-! ### Auxiliary variables -/

/-- The array of so many auxiliary variables. -/
def auxiliaries (s : Store) (count : Nat) : VarArray where
  name := auxiliaryName
  shape := [count]
  slots := (List.range count).map fun k => some ⟨s.model, s.infos.size + k⟩

theorem append_auxiliaries (s : Store) (count : Nat) :
    (s.auxiliaries count).append ⟨s.model, s.infos.size + count⟩ = s.auxiliaries (count + 1) := by
  simp [auxiliaries, VarArray.append, List.range_succ]

/-- What auxiliary variables with the given domains make of a store without any. -/
structure Extended (s : Store) (ds : List Domain) (t : Store) : Prop where
  model : t.model = s.model
  infos : ∃ news : List VariableInfo, t.infos.toList = s.infos.toList ++ news ∧
    news.length = ds.length ∧ ∀ k info, news[k]? = some info →
      info.name = VarArray.cellName auxiliaryName [k] ∧ info.cell = some ⟨s.arrays.size, k⟩ ∧
        t.domains.get? info.domain = ds[k]?
  domains : s.domains.toList <+: t.domains.toList
  arrays : t.arrays.toList = s.arrays.toList ++
    if ds = [] then [] else [s.auxiliaries ds.length]
  declarations : t.declarations = s.declarations ++
    if ds = [] then [] else [.array s.arrays.size]
  auxiliaryArray : t.auxiliaryArray = if ds = [] then none else some s.arrays.size

theorem extended_nil (hs : s.auxiliaryArray = none) : s.Extended [] s :=
  ⟨rfl, ⟨[], (List.append_nil _).symm, rfl, fun _ _ h => nomatch h⟩, List.prefix_refl _,
    (List.append_nil _).symm, (List.append_nil _).symm, hs⟩

/-- Once its array is open the next auxiliary variable can be added. -/
theorem Extended.openAuxiliaryArray {ds : List Domain} (h : s.Extended ds s') :
    s'.openAuxiliaryArray.1 = s.arrays.size ∧
      s'.openAuxiliaryArray.2.arrays.toList = s.arrays.toList ++ [s.auxiliaries ds.length] ∧
      s'.openAuxiliaryArray.2.declarations = s.declarations ++ [.array s.arrays.size] ∧
      s'.openAuxiliaryArray.2.auxiliaryArray = some s.arrays.size := by
  have hauxiliary := h.auxiliaryArray
  have harrays := h.arrays
  have hdeclarations := h.declarations
  unfold Store.openAuxiliaryArray
  by_cases hds : ds = []
  · subst hds
    rw [if_pos rfl] at hauxiliary
    rw [if_pos rfl, List.append_nil] at harrays hdeclarations
    have hsize : s'.arrays.size = s.arrays.size := congrArg List.length harrays
    rw [hauxiliary]
    refine ⟨hsize, ?_, ?_, congrArg some hsize⟩
    · rw [Registry.toList_push, harrays]
      rfl
    · rw [hdeclarations, hsize]
  · rw [if_neg hds] at hauxiliary harrays hdeclarations
    rw [hauxiliary]
    exact ⟨rfl, harrays, hdeclarations, hauxiliary⟩

/-- The next auxiliary variable extends a store further. -/
theorem Extended.snoc {ds : List Domain} (h : s.Extended ds s') (hs' : s'.Inventory) (d : Domain) :
    s.Extended (ds ++ [d]) (s'.declareAuxiliary d).2 ∧
      (s'.declareAuxiliary d).1 = ⟨s.model, s.infos.size + ds.length⟩ := by
  obtain ⟨a, hadds⟩ := hs'.addsAuxiliary d
  obtain ⟨hkey, harrays, hdeclarations, hauxiliary⟩ := h.openAuxiliaryArray
  have halike := s'.alike_openAuxiliaryArray
  obtain ⟨news, hinfos, hlength, hnews⟩ := h.infos
  have hne : ds ++ [d] ≠ [] := List.append_ne_nil_of_right_ne_nil _ (List.cons_ne_nil _ _)
  have ha : a = s.auxiliaries ds.length := by
    have hget := hadds.array
    rw [hkey, ← Registry.getElem?_toList, harrays] at hget
    have hlast : (s.arrays.toList ++ [s.auxiliaries ds.length])[s.arrays.size]? =
        some (s.auxiliaries ds.length) := List.getElem?_concat_length
    exact Option.some.inj (hget.symm.trans hlast)
  have hslots : a.slots.length = ds.length := by
    rw [ha, auxiliaries, List.length_map, List.length_range]
  have hsize : s'.infos.size = s.infos.size + ds.length := by
    have hsize := congrArg List.length hinfos
    rw [List.length_append, hlength] at hsize
    exact hsize
  have hv : (s'.declareAuxiliary d).1 = ⟨s.model, s.infos.size + ds.length⟩ := by
    rw [hadds.eq_next, halike.model, halike.infos, h.model, hsize]
  obtain ⟨domain, hinterns, hpush⟩ := hadds.infos
  rw [halike.domains] at hinterns
  refine ⟨⟨hadds.model.trans (halike.model.trans h.model), ?_, ?_, ?_, ?_, ?_⟩, hv⟩
  · refine ⟨news ++ [⟨VarArray.cellName auxiliaryName [ds.length], domain,
      some ⟨s.arrays.size, ds.length⟩⟩], ?_, by simp [hlength], fun k info hinfo => ?_⟩
    · rw [hpush, halike.infos, Registry.toList_push, hinfos, List.append_assoc, hslots, hkey]
    · rcases Nat.lt_or_ge k ds.length with hlt | hge
      · rw [List.getElem?_append_left (hlength ▸ hlt)] at hinfo
        obtain ⟨hname, hcell, hdomain⟩ := hnews k info hinfo
        refine ⟨hname, hcell, ?_⟩
        rw [List.getElem?_eq_getElem hlt] at hdomain
        rw [List.getElem?_append_left hlt, List.getElem?_eq_getElem hlt]
        exact Registry.get?_of_prefix hinterns.old hdomain
      · obtain ⟨hlt, _⟩ := List.getElem?_eq_some_iff.mp hinfo
        rw [List.length_append, List.length_singleton, hlength] at hlt
        have hk : k = news.length := by omega
        rw [hk, List.getElem?_concat_length] at hinfo
        obtain rfl := Option.some.inj hinfo
        rw [hk, hlength, List.getElem?_concat_length]
        exact ⟨rfl, rfl, hinterns.get⟩
  · exact h.domains.trans hinterns.old
  · rw [if_neg hne, Registry.toList_set? hadds.arrays, harrays, hkey, ha, hv, append_auxiliaries,
      List.length_append, List.length_singleton]
    have hset : ∀ (list : List VarArray) (a b : VarArray), (list ++ [a]).set list.length b =
        list ++ [b] := fun list a b => by simp
    exact hset _ _ _
  · rw [if_neg hne, hadds.declarations, hdeclarations]
  · rw [if_neg hne, hadds.auxiliaryArray, hauxiliary]

theorem introduce_append (s : Store) (ds ds' : List Domain) :
    s.introduce (ds ++ ds') = (s.introduce ds).introduce ds' := List.foldl_append

theorem Indexed.introduce (hs : s.Indexed) (ds : List Domain) : (s.introduce ds).Indexed := by
  induction ds generalizing s with
  | nil => exact hs
  | cons d ds ih => exact ih (hs.declareAuxiliary d)

theorem Indexed.extended (hs : s.Indexed) (hopen : s.auxiliaryArray = none) (ds : List Domain) :
    s.Extended ds (s.introduce ds) := by
  induction ds using List.reverseRecOn with
  | nil => exact extended_nil hopen
  | append_singleton ds d ih =>
    rw [introduce_append]
    exact (ih.snoc (hs.introduce ds).inventory d).1

theorem Indexed.grows_introduce (hs : s.Indexed) (ds : List Domain) : s.Grows (s.introduce ds) := by
  induction ds generalizing s with
  | nil => exact ⟨rfl, id, fun ha => ⟨_, ha, .refl _⟩, List.Subset.refl _⟩
  | cons d ds ih =>
    exact (hs.inventory.grows_declareAuxiliary d).trans (ih (hs.declareAuxiliary d))

/-- The variables of an extended store are the old ones and the auxiliary ones. -/
theorem Extended.declared {ds : List Domain} (h : s.Extended ds s') :
    s'.declared = s.declared ++
      (List.range ds.length).map fun k => ⟨s.model, s.infos.size + k⟩ := by
  obtain ⟨news, hinfos, hlength, _⟩ := h.infos
  have hsize : s'.infos.size = s.infos.size + ds.length := by
    have hsize := congrArg List.length hinfos
    rw [List.length_append, hlength] at hsize
    exact hsize
  rw [Store.declared, Store.declared, h.model, hsize, List.range_add, List.map_append,
    List.map_map]
  rfl

/-- The auxiliary variables are called by their numbers and have the domains they were given. -/
theorem Extended.auxiliary {ds : List Domain} (h : s.Extended ds s') {k : Nat} {d : Domain}
    (hd : ds[k]? = some d) :
    s'.nameOf ⟨s.model, s.infos.size + k⟩ = VarArray.cellName auxiliaryName [k] ∧
      s'.cellOf ⟨s.model, s.infos.size + k⟩ = some ⟨s.arrays.size, k⟩ ∧
      s'.domainOf ⟨s.model, s.infos.size + k⟩ = d := by
  obtain ⟨news, hinfos, hlength, hnews⟩ := h.infos
  obtain ⟨info, hinfo⟩ : ∃ info, news[k]? = some info :=
    ⟨_, List.getElem?_eq_getElem (hlength ▸ (List.getElem?_eq_some_iff.mp hd).1)⟩
  obtain ⟨hname, hcell, hdomain⟩ := hnews k info hinfo
  have hget : s'.info? ⟨s.model, s.infos.size + k⟩ = some info := by
    show s'.infos.get? (s.infos.size + k) = some info
    rw [← Registry.getElem?_toList, hinfos, ← hinfo]
    refine (List.getElem?_append_right (Nat.le_add_right s.infos.toList.length k)).trans ?_
    rw [Nat.add_sub_cancel_left]
  refine ⟨by simp [nameOf, hget, hname], by simp [cellOf, hget, hcell], ?_⟩
  simp [domainOf, domainAt, hget, hdomain, hd]

theorem Extended.map_domainOf {ds : List Domain} (h : s.Extended ds s') :
    ((List.range ds.length).map fun k => Variable.mk s.model (s.infos.size + k)).map s'.domainOf =
      ds := by
  rw [List.map_map]
  refine List.ext_getElem? fun k => ?_
  rw [List.getElem?_map]
  rcases Nat.lt_or_ge k ds.length with hlt | hge
  · rw [List.getElem?_range hlt, List.getElem?_eq_getElem hlt]
    exact congrArg some (h.auxiliary (List.getElem?_eq_getElem hlt)).2.2
  · rw [List.getElem?_eq_none hge, List.getElem?_eq_none (by simpa using hge)]
    rfl

/-! ### Every store -/

/-- Whether `n` is the first number from `counter` on under which the letter gives a free name. -/
structure FirstFree (s : Store) (letter : String) (counter n : Nat) : Prop where
  free : s!"{letter}{n}" ∉ s.claimedNames
  le : counter ≤ n
  used : ∀ k, counter ≤ k → k < n → s!"{letter}{k}" ∈ s.claimedNames

theorem firstFree_freshNumber (s : Store) (letter : String) (counter : Nat) :
    s.FirstFree letter counter (freshNumber s.claimedNames letter counter) :=
  ⟨freshNumber_not_mem _ _ _, le_freshNumber _ _ _, fun _ => mem_of_lt_freshNumber⟩

/-- A variable without a name can always be declared. -/
theorem exists_declareVariable (s : Store) (d : Domain) :
    ∃ n v s', s.FirstFree "v" s.unnamedVariables n ∧
      s.declareVariable none d = .ok (v, s') ∧ s'.nameOf v = s!"v{n}" := by
  refine ⟨_, _, _, s.firstFree_freshNumber "v" _, rfl, ?_⟩
  exact congrArg (fun info : Option VariableInfo => (info.map (·.name)).getD "")
    (info?_addVariable_self _ _ d none)

/-- An array without a name can be declared with every shape that arrays can have. -/
theorem exists_declareArray (s : Store) {shape : List Nat}
    (hshape : VarArray.checkShape shape = .ok ()) (domainAt : List Nat → Option Domain) :
    ∃ n a s', s.FirstFree "a" s.unnamedArrays n ∧
      s.declareArray none shape domainAt = .ok (a, s') ∧ a.name = s!"a{n}" := by
  rw [declareArray_eq, nameArray]
  rw [hshape]
  exact ⟨_, _, _, s.firstFree_freshNumber "a" _, rfl, rfl⟩

/-- Whatever was declared, failing requests included, and whatever auxiliary variables were
added then:

* the store is coherent;
* all names that were claimed are allowed, and the array of auxiliary variables comes after
  all declarations, if there are any;
* the variables are the declared ones and the auxiliary ones, which are called by their
  numbers in order and have the domains they were given;
* variables and arrays without a name can still be declared, under the first generated name
  that is free. -/
theorem coherent_introduce_after (model : Nat) (requests : List Request) (ds : List Domain) :
    let s := after model requests
    let t := s.introduce ds
    let auxiliary := (List.range ds.length).map fun k => Variable.mk model (s.infos.size + k)
    t.Coherent ∧
    (∀ declaration ∈ s.declarations, isAllowedName (t.claimedName declaration) = true) ∧
    (t.declarations = s.declarations ++ if ds = [] then [] else [.array s.arrays.size]) ∧
    (t.arrays.toList = s.arrays.toList ++ if ds = [] then [] else
      [⟨auxiliaryName, [ds.length], auxiliary.map some⟩]) ∧
    t.declared = s.declared ++ auxiliary ∧
    auxiliary.map t.nameOf =
      (List.range ds.length).map (fun k => VarArray.cellName auxiliaryName [k]) ∧
    auxiliary.map t.domainOf = ds ∧
    (∀ d, ∃ n v t', t.FirstFree "v" t.unnamedVariables n ∧
      t.declareVariable none d = .ok (v, t') ∧ t'.nameOf v = s!"v{n}") ∧
    (∀ shape domainAt, VarArray.checkShape shape = .ok () →
      ∃ n a t', t.FirstFree "a" t.unnamedArrays n ∧
        t.declareArray none shape domainAt = .ok (a, t') ∧ a.name = s!"a{n}") := by
  intro s t auxiliary
  have hs : s.Open := open_after model requests
  have hgrows : s.Grows t := hs.indexed.grows_introduce ds
  have hextended : s.Extended ds t := hs.indexed.extended hs.unopened ds
  have hmodel : s.model = model := model_after model requests
  have hauxiliary : auxiliary =
      (List.range ds.length).map fun k => Variable.mk s.model (s.infos.size + k) := by
    rw [hmodel]
  refine ⟨(hs.indexed.introduce ds).coherent, fun declaration h => ?_, hextended.declarations,
    ?_, hauxiliary ▸ hextended.declared, ?_, ?_, t.exists_declareVariable,
    fun shape domainAt hshape => t.exists_declareArray hshape domainAt⟩
  · rw [hgrows.claimedName (hs.indexed.inventory.knows declaration h)]
    exact hs.allowed _ (List.mem_map_of_mem h)
  · rw [hextended.arrays, hauxiliary, List.map_map]
    rfl
  · rw [hauxiliary, List.map_map]
    refine List.map_congr_left fun k hk => ?_
    have hlt := List.mem_range.mp hk
    exact (hextended.auxiliary (List.getElem?_eq_getElem hlt)).1
  · rw [hauxiliary]
    exact hextended.map_domainOf

end Store
end CspModel
