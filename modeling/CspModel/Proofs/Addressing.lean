import CspModel.Layout.Rows
import CspModel.Proofs.Inventory

/-! # Positions and index tuples

The index tuples of a shape, in their order, are the tuples of the positions 0, 1, 2, …
(`Grid.tuples_eq_map`), and the position of such a tuple is read back from it
(`Grid.position?_indices`).  A box of a shape has a range of indices in every dimension;
its tuples are the choices of one index from every range, with the last index running
fastest.

The cell of an array lies where its name says: the variable of the cell is found under
the indices in its name (`Store.Built.isCell`).
-/
namespace CspModel

namespace Grid

/-! ### Positions -/

/-- Rows of one length, put in a row, are numbered through. -/
theorem flatMap_range_map {α : Type} (f : Nat → α) (rows columns : Nat) :
    ((List.range rows).flatMap fun i => (List.range columns).map fun j => f (i * columns + j)) =
      (List.range (rows * columns)).map f := by
  induction rows with
  | zero => simp
  | succ rows ih =>
    rw [List.range_succ, List.flatMap_append, ih, Nat.succ_mul, List.range_add, List.map_append,
      List.map_map, List.flatMap_singleton]
    rfl

/-- The indices repeat once the shape has been gone through. -/
theorem indices_add_mul (shape : List Nat) (k position : Nat) :
    indices shape (k * volume shape + position) = indices shape position := by
  induction shape generalizing k with
  | nil => rfl
  | cons size rest ih =>
    have houter : (k * size * volume rest + position) / volume rest % size =
        position / volume rest % size := by
      rcases Nat.eq_zero_or_pos (volume rest) with hzero | hpos
      · rw [hzero, Nat.mul_zero, Nat.zero_add]
      · rw [Nat.add_comm, Nat.add_mul_div_right _ _ hpos, Nat.add_mul_mod_self_right]
    rw [volume, ← Nat.mul_assoc, indices, indices, ih, houter]

/-- The index tuples are those of the positions in their order. -/
theorem tuples_eq_map (shape : List Nat) :
    tuples shape = (List.range (volume shape)).map (indices shape) := by
  induction shape with
  | nil => rfl
  | cons size rest ih =>
    rw [tuples, volume, ← flatMap_range_map, ih]
    refine List.flatMap_congr fun index hindex => ?_
    rw [List.map_map]
    refine List.map_congr_left fun position hposition => ?_
    have hindex := List.mem_range.mp hindex
    have hposition := List.mem_range.mp hposition
    have hpos : 0 < volume rest := Nat.zero_lt_of_lt hposition
    rw [Function.comp_apply, indices, indices_add_mul, Nat.add_comm,
      Nat.add_mul_div_right _ _ hpos, Nat.div_eq_of_lt hposition, Nat.zero_add,
      Nat.mod_eq_of_lt hindex]

theorem getElem?_tuples {shape : List Nat} {position : Nat} {tuple : List Nat} :
    (tuples shape)[position]? = some tuple ↔
      position < volume shape ∧ indices shape position = tuple := by
  rw [tuples_eq_map, List.getElem?_map, Option.map_eq_some_iff]
  constructor
  · rintro ⟨p, hp, rfl⟩
    obtain ⟨hlt, rfl⟩ := List.getElem?_eq_some_iff.mp hp
    rw [List.getElem_range]
    exact ⟨by simpa using hlt, rfl⟩
  · rintro ⟨hlt, rfl⟩
    exact ⟨position, List.getElem?_range hlt, rfl⟩

theorem positionFrom_indices {shape : List Nat} (hpos : 0 < volume shape) (start position : Nat) :
    positionFrom start shape (indices shape position) =
      some (start * volume shape + position % volume shape) := by
  induction shape generalizing start with
  | nil => simp [indices, positionFrom, volume, Nat.mod_one]
  | cons size rest ih =>
    rw [volume] at hpos
    have hsize : 0 < size := Nat.pos_of_mul_pos_right hpos
    rw [indices, positionFrom, if_pos (Nat.mod_lt _ hsize), ih (Nat.pos_of_mul_pos_left hpos),
      volume, Nat.mul_comm size, Nat.mod_mul]
    congr 1
    rw [Nat.add_mul, Nat.mul_comm (volume rest) size, Nat.mul_comm (volume rest), Nat.mul_assoc]
    omega

/-- The position of an index tuple is where it was read off. -/
theorem position?_indices {shape : List Nat} {position : Nat} (h : position < volume shape) :
    position? shape (indices shape position) = some position := by
  rw [position?, positionFrom_indices (Nat.zero_lt_of_lt h), Nat.zero_mul, Nat.zero_add,
    Nat.mod_eq_of_lt h]

/-- A position evaluated from an index tuple has that tuple. -/
theorem indices_of_positionFrom {shape tuple : List Nat} {start position : Nat}
    (h : positionFrom start shape tuple = some position) :
    ∃ offset < volume shape, position = start * volume shape + offset ∧
      indices shape offset = tuple := by
  induction shape generalizing tuple start with
  | nil =>
    cases tuple with
    | nil =>
      cases h
      exact ⟨0, Nat.one_pos, (Nat.mul_one _).symm, rfl⟩
    | cons index rest => cases h
  | cons size sizes ih =>
    cases tuple with
    | nil => cases h
    | cons index rest =>
      rw [positionFrom] at h
      split at h
      · rename_i hindex
        obtain ⟨offset, hoffset, hposition, hrest⟩ := ih h
        have hpos : 0 < volume sizes := Nat.zero_lt_of_lt hoffset
        refine ⟨index * volume sizes + offset, ?_, ?_, ?_⟩
        · calc index * volume sizes + offset < index * volume sizes + volume sizes := by omega
            _ = (index + 1) * volume sizes := (Nat.succ_mul _ _).symm
            _ ≤ size * volume sizes := Nat.mul_le_mul_right _ hindex
        · rw [hposition, volume, Nat.add_mul, Nat.mul_assoc, Nat.add_assoc]
        · rw [indices, indices_add_mul, hrest, Nat.add_comm, Nat.add_mul_div_right _ _ hpos,
            Nat.div_eq_of_lt hoffset, Nat.zero_add, Nat.mod_eq_of_lt hindex]
      · cases h

/-- A tuple has the position from which it is read off. -/
theorem position?_eq_some_iff {shape tuple : List Nat} {position : Nat} :
    position? shape tuple = some position ↔
      position < volume shape ∧ indices shape position = tuple := by
  constructor
  · intro h
    obtain ⟨offset, hoffset, hposition, htuple⟩ := indices_of_positionFrom h
    rw [Nat.zero_mul, Nat.zero_add] at hposition
    subst hposition
    exact ⟨hoffset, htuple⟩
  · rintro ⟨hposition, rfl⟩
    exact position?_indices hposition

/-! ### Boxes -/

/-- A range of indices for every dimension, with its first index and its size. -/
def ranges (lower extents : List Nat) : List (List Nat) := List.zipWith List.range' lower extents

/-- The choices from the ranges of a box are its tuples moved to its lower corner. -/
theorem choices_ranges {lower extents : List Nat} (h : lower.length = extents.length) :
    Rows.choices (ranges lower extents) = (tuples extents).map (List.zipWith (· + ·) lower) := by
  induction lower generalizing extents with
  | nil =>
    obtain rfl := List.eq_nil_of_length_eq_zero h.symm
    rfl
  | cons first lower ih =>
    cases extents with
    | nil => cases h
    | cons extent extents =>
      have hrest := ih (Nat.succ.inj h)
      unfold ranges at hrest ⊢
      rw [List.zipWith_cons_cons, Rows.choices, tuples, hrest, List.range'_eq_map_range,
        List.flatMap_map, List.map_flatMap]
      simp only [List.map_map]
      rfl

/-- Single indices choose one tuple. -/
theorem choices_singletons (indices : List Nat) :
    Rows.choices (indices.map fun index => [index]) = [indices] := by
  induction indices with
  | nil => rfl
  | cons index rest ih =>
    rw [List.map_cons, Rows.choices, ih]
    rfl

/-- A range in one dimension and single indices in the others give the tuples that differ
in that dimension. -/
theorem choices_along (start indices : List Nat) (dimension : Nat)
    (h : dimension < start.length) :
    Rows.choices ((start.map fun index => [index]).set dimension indices) =
      indices.map fun index => start.set dimension index := by
  induction start generalizing dimension with
  | nil => cases h
  | cons first rest ih =>
    cases dimension with
    | zero =>
      rw [List.map_cons, List.set_cons_zero, Rows.choices, choices_singletons]
      exact List.map_eq_flatMap.symm
    | succ dimension =>
      rw [List.map_cons, List.set_cons_succ, Rows.choices, ih dimension (Nat.lt_of_succ_lt_succ h),
        List.flatMap_singleton, List.map_map]
      rfl

end Grid

/-! ### Cells -/

namespace Store

/-- An array is found by its name. -/
theorem Inventory.arrayNamed?_eq {s : Store} (hs : s.Inventory) {key : Nat} {a : VarArray}
    (ha : s.arrays.get? key = some a) : s.arrayNamed? a.name = some a := by
  unfold arrayNamed?
  cases hfind : s.arrays.findKey? (·.name == a.name) with
  | none =>
    have hnone := Array.findIdx?_eq_none_iff.mp hfind a (Array.mem_of_getElem? ha)
    exact absurd (beq_self_eq_true a.name) (by rw [hnone]; decide)
  | some key' =>
    obtain ⟨a', ha', hname⟩ := Registry.findKey?_eq_some hfind
    obtain rfl := hs.key_eq_of_name ha' ha (beq_iff_eq.mp hname)
    simp [arrayAt, ha]

theorem exists_of_arrayNamed? {s : Store} {name : String} {a : VarArray}
    (h : s.arrayNamed? name = some a) : ∃ key, s.arrays.get? key = some a ∧ a.name = name := by
  obtain ⟨key, hkey, rfl⟩ := Option.map_eq_some_iff.mp h
  obtain ⟨a, ha, hname⟩ := Registry.findKey?_eq_some hkey
  have harray : s.arrayAt key = a := by simp [arrayAt, ha]
  exact ⟨key, harray ▸ ha, harray ▸ beq_iff_eq.mp hname⟩

/-- What is known of the cell of an array. -/
structure IsCell (s : Store) (v : Variable) (key position : Nat) (a : VarArray) : Prop where
  array : s.arrays.get? key = some a
  within : position < Grid.volume a.shape
  slot : a.slots[position]? = some (some v)
  get : a.get? (Grid.indices a.shape position) = some v
  name : s.nameOf v = VarArray.cellName a.name (Grid.indices a.shape position)

/-- The variable of a cell is found under the indices in its name. -/
theorem Inventory.isCell {s : Store} (hs : s.Inventory) {v : Variable} (hv : s.Declares v)
    {cell : Cell} (hcell : s.cellOf v = some cell) :
    s.IsCell v cell.array cell.position (s.arrayAt cell.array) := by
  obtain ⟨model, key⟩ := v
  obtain ⟨rfl, hkey⟩ : model = s.model ∧ key < s.infos.size := hv
  obtain ⟨info, hinfo⟩ := Registry.exists_get?_of_lt hkey
  have hplace : info.cell = some cell := by simpa [cellOf, info?, hinfo] using hcell
  have hrecords := hs.records hinfo
  unfold Records at hrecords
  rw [hplace] at hrecords
  obtain ⟨a, tuple, ha, hslot, htuple, hname⟩ := hrecords
  obtain ⟨hwithin, rfl⟩ := Grid.getElem?_tuples.mp htuple
  have harray : s.arrayAt cell.array = a := by simp [arrayAt, ha]
  rw [harray]
  refine ⟨ha, hwithin, hslot, ?_, (nameOf_of_get? hinfo).trans hname⟩
  rw [VarArray.get?, Grid.position?_indices hwithin, Option.bind_some, hslot]
  rfl

theorem Built.isCell {s : Store} (hs : s.Built) {v : Variable} (hv : s.Declares v) {cell : Cell}
    (hcell : s.cellOf v = some cell) :
    s.IsCell v cell.array cell.position (s.arrayAt cell.array) :=
  hs.inventory.isCell hv hcell

/-- A variable that is no cell of an array stands alone. -/
theorem Inventory.alone {s : Store} (hs : s.Inventory) {v : Variable} (hv : s.Declares v)
    (hcell : s.cellOf v = none) :
    Text.isIdentifier (s.nameOf v) = true ∧ .alone v ∈ s.declarations := by
  obtain ⟨model, key⟩ := v
  obtain ⟨rfl, hkey⟩ : model = s.model ∧ key < s.infos.size := hv
  obtain ⟨info, hinfo⟩ := Registry.exists_get?_of_lt hkey
  have hplace : info.cell = none := by simpa [cellOf, info?, hinfo] using hcell
  have hrecords := hs.records hinfo
  unfold Records at hrecords
  rw [hplace] at hrecords
  rw [nameOf_of_get? hinfo]
  exact hrecords

theorem Built.isIdentifier_nameOf {s : Store} (hs : s.Built) {v : Variable} (hv : s.Declares v)
    (hcell : s.cellOf v = none) : Text.isIdentifier (s.nameOf v) = true :=
  (hs.inventory.alone hv hcell).1

/-! ### Arrays with one domain -/

/-- Cells that all have a domain are numbered through. -/
theorem addCells_const (name : String) (key : Nat) (d : Domain) (cells : List (List Nat × Nat))
    (s : Store) :
    (addCells name key (fun _ => some d) cells s).1 =
        (List.range cells.length).map (fun k => some ⟨s.model, s.infos.size + k⟩) ∧
      (addCells name key (fun _ => some d) cells s).2.infos.size =
        s.infos.size + cells.length := by
  induction cells generalizing s with
  | nil => exact ⟨rfl, rfl⟩
  | cons cell rest ih =>
    obtain ⟨domain, domains, -, hadd⟩ := s.addVariable_eq (VarArray.cellName name cell.1) d
      (some ⟨key, cell.2⟩)
    obtain ⟨hslots, hsize⟩ := ih { s with
      domains, infos := s.infos.push ⟨VarArray.cellName name cell.1, domain, some ⟨key, cell.2⟩⟩ }
    simp only [addCells_cons, hadd, hslots, hsize, Registry.size_push, List.length_cons,
      List.range_succ_eq_map, List.map_cons, List.map_map, Nat.add_zero]
    refine ⟨congrArg _ (List.map_congr_left fun k _ => ?_), by omega⟩
    show some (Variable.mk s.model (s.infos.size + 1 + k)) = some ⟨s.model, s.infos.size + (k + 1)⟩
    rw [Nat.add_assoc, Nat.add_comm 1 k]

/-- An array whose cells all have one domain holds the next variables. -/
theorem declareArray_const {s t : Store} {name : Option String} {text : String} {shape : List Nat}
    (hshape : VarArray.checkShape shape = .ok ()) (hname : s.nameArray name = .ok (text, t))
    (d : Domain) :
    ∃ s', s.declareArray name shape (fun _ => some d) = .ok (⟨text, shape,
        (List.range (Grid.volume shape)).map fun k => some ⟨s.model, s.infos.size + k⟩⟩, s') ∧
      s'.infos.size = s.infos.size + Grid.volume shape := by
  obtain ⟨hslots, hsize⟩ :=
    t.addCells_const text t.arrays.size d (Grid.tuples shape).zipIdx
  have halike := alike_nameArray hname
  rw [List.length_zipIdx, Grid.tuples_eq_map, List.length_map, List.length_range,
    ← Grid.tuples_eq_map, halike.infos] at hslots hsize
  rw [halike.model] at hslots
  rw [declareArray_eq]
  rw [hshape, hname, ← hslots]
  exact ⟨_, rfl, hsize⟩

/-- An array is found by its name once it is declared. -/
theorem Inventory.arrayNamed?_declareArray {s s' : Store} (hs : s.Inventory) {name : Option String}
    {shape : List Nat} {domainAt : List Nat → Option Domain} {array : VarArray}
    (h : s.declareArray name shape domainAt = .ok (array, s')) :
    s'.arrayNamed? array.name = some array := by
  have hinventory := hs.declareArray h
  obtain ⟨text, slots, t, -, -, -, rfl, rfl⟩ := declareArray_eq_ok h
  exact hinventory.arrayNamed?_eq (Registry.get?_push_size _ _)

end Store

end CspModel
