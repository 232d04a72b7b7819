import CspModel.Proofs.Addressing

/-! # Row-major order

Within a shape positions and index tuples are two names of one cell.  The tuple of a
position is read off from the right, dimension by dimension, the position of a tuple is
evaluated from the left, and the product of the dimensions lists the tuples; that the
three agree for every shape is said once (`Grid.RowMajor`).

An array with a slot for every position is therefore the list of what is found under the
index tuples (`VarArray.map_get?`).  Its variables, its rows and its columns are parts of
that list.
-/
namespace CspModel

namespace Grid

/-- One index for every dimension, each below the size of its dimension. -/
structure Within (shape tuple : List Nat) : Prop where
  length : tuple.length = shape.length
  below : ∀ {k index size : Nat}, tuple[k]? = some index → shape[k]? = some size → index < size

theorem within_iff_forall₂ {shape tuple : List Nat} :
    Within shape tuple ↔ List.Forall₂ (· < ·) tuple shape := by
  rw [forall₂_iff_getElem?]
  exact ⟨fun h => ⟨h.length, fun _ _ _ => h.below⟩, fun h => ⟨h.1, h.2 _ _ _⟩⟩

/-- A tuple that is not within a shape has the wrong length or an index out of bounds. -/
theorem not_within_iff {shape tuple : List Nat} :
    ¬Within shape tuple ↔ tuple.length ≠ shape.length ∨
      ∃ k index size : Nat, tuple[k]? = some index ∧ shape[k]? = some size ∧ size ≤ index := by
  constructor
  · intro h
    by_contra hneither
    obtain ⟨hlength, hbelow⟩ := not_or.mp hneither
    refine h ⟨not_not.mp hlength, fun {k index size} hindex hsize => ?_⟩
    by_contra hle
    exact hbelow ⟨k, index, size, hindex, hsize, Nat.not_lt.mp hle⟩
  · rintro (hlength | ⟨k, index, size, hindex, hsize, hle⟩) h
    · exact hlength h.length
    · exact Nat.not_lt.mpr hle (h.below hindex hsize)

theorem volume_eq_prod (shape : List Nat) : volume shape = shape.prod := by
  induction shape with
  | nil => rfl
  | cons size rest ih => rw [volume, ih, List.prod_cons]

/-! ### Positions and tuples -/

/-- From the right, every dimension takes the remainder by its size as its index and hands
the quotient on to the left. -/
theorem mapAccumr_eq_indices (shape : List Nat) (position : Nat) :
    shape.mapAccumr (fun size rest => (rest / size, rest % size)) position =
      (position / volume shape, indices shape position) := by
  induction shape with
  | nil => rw [List.mapAccumr, volume, Nat.div_one, indices]
  | cons size rest ih =>
    rw [List.mapAccumr, ih, volume, indices, Nat.mul_comm, ← Nat.div_div_eq_div_mul]

/-- From the left, every dimension scales what is before it by its size and adds its index. -/
theorem positionFrom_eq_foldlM {shape tuple : List Nat} (h : tuple.length = shape.length)
    (start : Nat) :
    positionFrom start shape tuple = (tuple.zip shape).foldlM (fun position entry =>
      if entry.1 < entry.2 then some (position * entry.2 + entry.1) else none) start := by
  induction shape generalizing tuple start with
  | nil =>
    obtain rfl := List.eq_nil_of_length_eq_zero h
    rfl
  | cons size sizes ih =>
    cases tuple with
    | nil => cases h
    | cons index rest =>
      rw [positionFrom, List.zip_cons_cons, List.foldlM_cons]
      split
      · exact ih (Nat.succ.inj h) _
      · rfl

theorem exists_positionFrom_iff {shape tuple : List Nat} {start : Nat} :
    (∃ position, positionFrom start shape tuple = some position) ↔
      List.Forall₂ (· < ·) tuple shape := by
  induction shape generalizing tuple start with
  | nil => cases tuple <;> simp [positionFrom]
  | cons size sizes ih =>
    cases tuple with
    | nil => simp [positionFrom]
    | cons index rest =>
      rw [positionFrom, List.forall₂_cons]
      split
      · rename_i hindex
        rw [ih, and_iff_right hindex]
      · rename_i hindex
        simp [hindex]

/-- The tuples within a shape are those that have a position. -/
theorem exists_position?_iff {shape tuple : List Nat} :
    (∃ position, position? shape tuple = some position) ↔ Within shape tuple :=
  exists_positionFrom_iff.trans within_iff_forall₂.symm

theorem position?_eq_none_iff {shape tuple : List Nat} :
    position? shape tuple = none ↔ ¬Within shape tuple := by
  rw [← exists_position?_iff, Option.eq_none_iff_forall_ne_some, not_exists]

theorem mem_tuples_iff {shape tuple : List Nat} : tuple ∈ tuples shape ↔ Within shape tuple := by
  rw [List.mem_iff_getElem?, ← exists_position?_iff]
  exact exists_congr fun _ => getElem?_tuples.trans position?_eq_some_iff.symm

/-- Reading off index tuples is a bijection from the positions of a shape to the tuples
within it. -/
theorem bijOn_indices (shape : List Nat) :
    Set.BijOn (indices shape) {position | position < volume shape}
      {tuple | Within shape tuple} := by
  refine ⟨fun position hposition => ?_, fun position hposition position' hposition' heq => ?_,
    fun tuple htuple => ?_⟩
  · exact exists_position?_iff.mp ⟨position, position?_indices hposition⟩
  · have hread := position?_indices hposition
    rw [heq, position?_indices hposition'] at hread
    exact (Option.some.inj hread).symm
  · obtain ⟨position, hposition⟩ := exists_position?_iff.mpr htuple
    exact ⟨position, position?_eq_some_iff.mp hposition⟩

/-- The tuples are listed in lexicographic order. -/
theorem pairwise_tuples (shape : List Nat) : (tuples shape).Pairwise (· < ·) := by
  induction shape with
  | nil => exact List.pairwise_singleton _ _
  | cons size rest ih =>
    refine List.pairwise_flatMap.mpr ⟨fun index _ => ?_, ?_⟩
    · exact List.pairwise_map.mpr (ih.imp List.Lex.cons)
    · refine List.pairwise_lt_range.imp fun {index index'} hlt tuple htuple tuple' htuple' => ?_
      obtain ⟨inner, -, rfl⟩ := List.mem_map.mp htuple
      obtain ⟨inner', -, rfl⟩ := List.mem_map.mp htuple'
      exact .rel hlt

/-- The three ways of addressing a cell of a shape agree. -/
structure RowMajor (shape : List Nat) : Prop where
  bijective : Set.BijOn (indices shape) {position | position < shape.prod}
    {tuple | Within shape tuple}
  /-- Indices are read off from the right, as remainders of successive quotients. -/
  decomposed : ∀ position, indices shape position =
    (shape.mapAccumr (fun size rest => (rest / size, rest % size)) position).2
  inverse : ∀ position < shape.prod, position? shape (indices shape position) = some position
  /-- Positions are evaluated from the left. -/
  evaluated : ∀ tuple, tuple.length = shape.length → position? shape tuple =
    (tuple.zip shape).foldlM (fun position entry =>
      if entry.1 < entry.2 then some (position * entry.2 + entry.1) else none) 0
  outside : ∀ tuple, position? shape tuple = none ↔ tuple.length ≠ shape.length ∨
    ∃ k index size : Nat, tuple[k]? = some index ∧ shape[k]? = some size ∧ size ≤ index
  listed : ∀ (position : Nat) (tuple : List Nat), (tuples shape)[position]? = some tuple ↔
    position < shape.prod ∧ indices shape position = tuple
  ascending : (tuples shape).Pairwise (· < ·)

/-- Shapes are addressed in row-major order. -/
theorem rowMajor (shape : List Nat) : RowMajor shape where
  bijective := volume_eq_prod shape ▸ bijOn_indices shape
  decomposed position := by rw [mapAccumr_eq_indices]
  inverse position h := position?_indices (volume_eq_prod shape ▸ h)
  evaluated tuple h := positionFrom_eq_foldlM h 0
  outside tuple := position?_eq_none_iff.trans not_within_iff
  listed position tuple := volume_eq_prod shape ▸ getElem?_tuples
  ascending := pairwise_tuples shape

example : tuples [2, 3] = [[0, 0], [0, 1], [0, 2], [1, 0], [1, 1], [1, 2]] := rfl

/-! ### Lists in row-major order -/

/-- The entry at an index tuple of a list in row-major order. -/
def entryAt {α : Type} (shape : List Nat) (entries : List (Option α)) (tuple : List Nat) :
    Option α :=
  (position? shape tuple).bind fun position => entries[position]?.join

/-- A list with an entry for every position is that of its entries at the index tuples, in
their order. -/
theorem map_entryAt {α : Type} {shape : List Nat} {entries : List (Option α)}
    (h : entries.length = volume shape) : (tuples shape).map (entryAt shape entries) = entries := by
  refine List.ext_getElem? fun position => ?_
  rw [tuples_eq_map, List.map_map, List.getElem?_map]
  rcases Nat.lt_or_ge position (volume shape) with hlt | hge
  · have hentry : entries[position]? = some entries[position] := List.getElem?_eq_getElem (h ▸ hlt)
    rw [List.getElem?_range hlt, Option.map_some, Function.comp_apply, entryAt,
      position?_indices hlt, Option.bind_some, hentry]
    rfl
  · rw [List.getElem?_eq_none (by rwa [List.length_range]), List.getElem?_eq_none (h ▸ hge)]
    rfl

theorem mem_zip_tuples_iff {α : Type} {shape tuple : List Nat} {entries : List (Option α)}
    (h : entries.length = volume shape) {entry : Option α} :
    (tuple, entry) ∈ (tuples shape).zip entries ↔
      Within shape tuple ∧ entryAt shape entries tuple = entry := by
  have hzip : (tuples shape).zip entries =
      (tuples shape).map fun tuple => (tuple, entryAt shape entries tuple) := by
    rw [List.map_prod_left_eq_zip, map_entryAt h]
  rw [hzip, List.mem_map, ← mem_tuples_iff]
  constructor
  · rintro ⟨tuple, htuple, heq⟩
    cases heq
    exact ⟨htuple, rfl⟩
  · rintro ⟨htuple, rfl⟩
    exact ⟨tuple, htuple, rfl⟩

/-! ### Two dimensions -/

theorem tuples_pair (rows columns : Nat) : tuples [rows, columns] =
    (List.range rows).flatMap fun i => (List.range columns).map fun j => [i, j] := by
  rw [tuples, tuples_singleton]
  simp only [List.map_map]
  rfl

theorem filter_range (n k : Nat) :
    (List.range n).filter (· = k) = if k < n then [k] else [] := by
  rw [List.filter_eq, List.count_range]
  split <;> rfl

/-- The tuples with one first index have increasing second ones. -/
theorem filter_tuples_fst (rows columns i : Nat) :
    (tuples [rows, columns]).filter (·[0]? = some i) =
      if i < rows then (List.range columns).map fun j => [i, j] else [] := by
  have hrow (k : Nat) : ((List.range columns).map fun j => [k, j]).filter (·[0]? = some i) =
      if k = i then (List.range columns).map fun j => [k, j] else [] := by
    rw [List.filter_map]
    split <;> simp [Function.comp_def, *]
  rw [tuples_pair, List.filter_flatMap]
  simp only [hrow]
  rw [← flatMap_filter (· = i), filter_range]
  split
  · exact List.flatMap_singleton _ _
  · rfl

/-- The tuples with one second index have increasing first ones. -/
theorem filter_tuples_snd (rows columns j : Nat) :
    (tuples [rows, columns]).filter (·[1]? = some j) =
      if j < columns then (List.range rows).map fun i => [i, j] else [] := by
  have hrow (i : Nat) : ((List.range columns).map fun k => [i, k]).filter (·[1]? = some j) =
      if j < columns then [[i, j]] else [] := by
    rw [List.filter_map]
    simp only [Function.comp_def, List.getElem?_cons_succ, List.getElem?_cons_zero,
      Option.some.injEq, filter_range]
    split <;> rfl
  rw [tuples_pair, List.filter_flatMap]
  simp only [hrow]
  split
  · exact List.flatMap_pure_eq_map _ _
  · simp

end Grid

namespace VarArray

variable {a : VarArray}

/-- An array with a slot for every position holds in its slots what is found under the
index tuples, in their order. -/
theorem map_get? (h : a.slots.length = Grid.volume a.shape) :
    (Grid.tuples a.shape).map a.get? = a.slots := Grid.map_entryAt h

/-- What relates the index tuples of an array to its slots holds of what is found under
them. -/
theorem get?_of_forall₂ {R : List Nat → Option Variable → Prop}
    (h : List.Forall₂ R (Grid.tuples a.shape) a.slots) {tuple : List Nat}
    (htuple : Grid.Within a.shape tuple) : R tuple (a.get? tuple) := by
  have hlength : a.slots.length = Grid.volume a.shape := by
    rw [← h.length_eq, Grid.tuples_eq_map, List.length_map, List.length_range]
  rw [← map_get? hlength, List.forall₂_map_right_iff, List.forall₂_same] at h
  exact h tuple (Grid.mem_tuples_iff.mpr htuple)

/-- Nothing is found outside the shape. -/
theorem get?_of_not_within {tuple : List Nat} (h : ¬Grid.Within a.shape tuple) :
    a.get? tuple = none := by
  rw [get?, Grid.position?_eq_none_iff.mpr h]
  rfl

/-- The variables of an array, in the order of their index tuples. -/
theorem cells_eq (h : a.slots.length = Grid.volume a.shape) :
    a.cells = (Grid.tuples a.shape).filterMap a.get? := by
  rw [cells, ← map_get? h, List.filterMap_map]
  rfl

theorem row_eq (h : a.shape.length = 2) (i : Nat) :
    a.row i = ((Grid.tuples a.shape).filter (·[0]? = some i)).filterMap a.get? := by
  obtain ⟨rows, columns, hshape⟩ := List.length_eq_two.mp h
  have hrow : a.row i = (List.range columns).filterMap fun j => a.get? [i, j] := by
    simp only [row, hshape]
  rw [hrow, hshape, Grid.filter_tuples_fst]
  split
  · rw [List.filterMap_map]
    rfl
  · rename_i hi
    refine List.filterMap_eq_nil_iff.mpr fun j _ => get?_of_not_within fun hwithin => hi ?_
    rw [hshape] at hwithin
    exact hwithin.below (k := 0) rfl rfl

theorem column_eq (h : a.shape.length = 2) (j : Nat) :
    a.column j = ((Grid.tuples a.shape).filter (·[1]? = some j)).filterMap a.get? := by
  obtain ⟨rows, columns, hshape⟩ := List.length_eq_two.mp h
  have hcolumn : a.column j = (List.range rows).filterMap fun i => a.get? [i, j] := by
    simp only [column, hshape]
  rw [hcolumn, hshape, Grid.filter_tuples_snd]
  split
  · rw [List.filterMap_map]
    rfl
  · rename_i hj
    refine List.filterMap_eq_nil_iff.mpr fun i _ => get?_of_not_within fun hwithin => hj ?_
    rw [hshape] at hwithin
    exact hwithin.below (k := 1) rfl rfl

end VarArray
end CspModel
