import CspModel.Proofs.Expansion
import CspModel.Proofs.Strict.Lookups

/-! # The text of a list looks up what is there

Compacting a list looks up the names and the places of its variables and the arrays these
are in, and reads index tuples dimension by dimension.  A cell lies within its array, so no
dimension has the size zero, and all index tuples of an array have one index for every
dimension.
-/
namespace CspModel
namespace Strict

open ListText (Sequence Stretch)

/-! ### Index tuples -/

/-- The index tuple of a position: every index is a remainder by the size of a dimension. -/
def indices (shape : List Nat) (position : Nat) : Option (List Nat) :=
  if shape.all (0 < ·) then some (Grid.indices shape position) else none

/-- The smallest or the greatest index of some tuples in every dimension. -/
def corner (choose : Nat → Nat → Nat) (dimensions : Nat) (tuples : List (List Nat)) :
    Option (List Nat) :=
  (List.range dimensions).mapM fun dimension => do
    let along ← tuples.mapM (·[dimension]?)
    match along with
    | [] => return 0
    | first :: rest => return rest.foldl choose first

/-- The number of indices between two, the first of which must not be above the second. -/
def extent : Nat × Nat → Option Nat
  | (low, high) => if low ≤ high then some (high - low + 1) else none

/-- The span of a box in a dimension with its size. -/
def spanAt (lower upper : List Nat) : Nat × Nat → Option String
  | (size, dimension) => do
    let first ← lower[dimension]?
    let last ← upper[dimension]?
    return ListText.span first last size

/-- The spans of a box, one for each dimension. -/
def boxText (shape lower upper : List Nat) : Option String :=
  String.join <$> shape.zipIdx.mapM (spanAt lower upper)

/-- The token of more than two cells that enumerate a box. -/
def boxed (a : VarArray) (positions : List Nat) : Option (Option String) :=
  if positions.length ≤ 2 then some none
  else do
    let tuples ← positions.mapM (indices a.shape)
    let lower ← corner min a.shape.length tuples
    let upper ← corner max a.shape.length tuples
    let sizes ← (lower.zip upper).mapM extent
    if Grid.volume sizes ≠ positions.length then return none
    else if (Grid.tuples sizes).map (List.zipWith (· + ·) lower) = tuples then do
      let text ← boxText a.shape lower upper
      return some (a.name ++ text)
    else return none

theorem indices_eq {shape : List Nat} {position : Nat} (h : position < Grid.volume shape) :
    indices shape position = some (Grid.indices shape position) := by
  have hpos : ∀ size ∈ shape, 0 < size := by
    induction shape generalizing position with
    | nil => exact fun size hsize => nomatch hsize
    | cons size rest ih =>
      have hvolume : 0 < size * Grid.volume rest := Nat.zero_lt_of_lt h
      refine List.forall_mem_cons.mpr ⟨Nat.pos_of_mul_pos_right hvolume, ?_⟩
      exact ih (Nat.pos_of_mul_pos_left hvolume)
  exact if_pos (List.all_eq_true.mpr fun size hsize => decide_eq_true (hpos size hsize))

/-- The index of a corner in a dimension. -/
theorem getElem?_foldl_zipWith {choose : Nat → Nat → Nat} {first : List Nat}
    {rest : List (List Nat)} {dimension : Nat} (hfirst : dimension < first.length)
    (hrest : ∀ tuple ∈ rest, tuple.length = first.length) :
    ∃ along, rest.mapM (·[dimension]?) = some along ∧
      (rest.foldl (List.zipWith choose) first)[dimension]? =
        some (along.foldl choose first[dimension]) := by
  induction rest generalizing first with
  | nil => exact ⟨[], rfl, List.getElem?_eq_getElem hfirst⟩
  | cons tuple rest ih =>
    have htuple : dimension < tuple.length := hrest tuple List.mem_cons_self ▸ hfirst
    have hlength : (List.zipWith choose first tuple).length = first.length := by
      rw [List.length_zipWith, hrest tuple List.mem_cons_self, Nat.min_self]
    obtain ⟨along, halong, hget⟩ := ih (hlength.symm ▸ hfirst) fun t ht =>
      (hrest t (List.mem_cons_of_mem _ ht)).trans hlength.symm
    refine ⟨tuple[dimension] :: along, ?_, ?_⟩
    · rw [List.mapM_cons, List.getElem?_eq_getElem htuple, halong]
      rfl
    · rw [List.foldl_cons, hget, List.getElem_zipWith]
      rfl

/-- A corner of tuples of one length is their fold. -/
theorem corner_eq {choose : Nat → Nat → Nat} {first : List Nat} {rest : List (List Nat)}
    (hrest : ∀ tuple ∈ rest, tuple.length = first.length) :
    corner choose first.length (first :: rest) =
      some (rest.foldl (List.zipWith choose) first) := by
  have hlength : (rest.foldl (List.zipWith choose) first).length = first.length := by
    induction rest generalizing first with
    | nil => rfl
    | cons tuple rest ih =>
      have hstep : (List.zipWith choose first tuple).length = first.length := by
        rw [List.length_zipWith, hrest tuple List.mem_cons_self, Nat.min_self]
      rw [List.foldl_cons, ih fun t ht =>
        (hrest t (List.mem_cons_of_mem _ ht)).trans hstep.symm, hstep]
  refine mapM_eq_some_iff.mpr (forall₂_iff_getElem?.mpr ⟨?_, fun k d index hd hindex => ?_⟩)
  · rw [List.length_range, hlength]
  · obtain ⟨hk, rfl⟩ := List.getElem?_eq_some_iff.mp hd
    rw [List.length_range] at hk
    rw [List.getElem_range]
    obtain ⟨along, halong, hget⟩ := @getElem?_foldl_zipWith choose _ _ _ hk hrest
    rw [hget] at hindex
    rw [List.mapM_cons, List.getElem?_eq_getElem hk, halong]
    exact hindex

theorem extents_eq {lower upper : List Nat} (h : List.Forall₂ (· ≤ ·) lower upper) :
    (lower.zip upper).mapM extent =
      some (List.zipWith (fun low high => high - low + 1) lower upper) := by
  induction h with
  | nil => rfl
  | @cons low high lower upper hle _ ih =>
    have hextent : extent (low, high) = some (high - low + 1) := if_pos hle
    rw [List.zip_cons_cons, List.mapM_cons, ih, hextent]
    rfl

theorem boxText_eq {shape lower upper : List Nat} (hlower : lower.length = shape.length)
    (hupper : upper.length = shape.length) :
    boxText shape lower upper = some (ListText.boxText shape lower upper) := by
  refine congrArg (Option.map String.join) (mapM_eq_some_iff.mpr
    (forall₂_iff_getElem?.mpr ⟨?_, fun k entry text he ht => ?_⟩))
  · simp [hlower, hupper]
  · obtain ⟨hk, rfl⟩ := List.getElem?_eq_some_iff.mp he
    obtain ⟨hk', rfl⟩ := List.getElem?_eq_some_iff.mp ht
    rw [List.length_zipIdx] at hk
    simp [spanAt, List.getElem?_eq_getElem (hlower.symm ▸ hk),
      List.getElem?_eq_getElem (hupper.symm ▸ hk)]

theorem corners_eq {tuples : List (List Nat)} {n : Nat} (hne : tuples ≠ [])
    (h : ∀ tuple ∈ tuples, tuple.length = n) :
    corner min n tuples = some (ListText.lowerCorner tuples) ∧
      corner max n tuples = some (ListText.upperCorner tuples) := by
  obtain ⟨first, rest, rfl⟩ := List.exists_cons_of_ne_nil hne
  obtain ⟨hfirst, hrest⟩ := List.forall_mem_cons.mp h
  subst hfirst
  exact ⟨corner_eq hrest, corner_eq hrest⟩

/-- Positions within an array have index tuples with one index for every dimension. -/
theorem boxed_eq {a : VarArray} {positions : List Nat}
    (h : ∀ position ∈ positions, position < Grid.volume a.shape) :
    boxed a positions = some (ListText.boxed? a positions) := by
  unfold boxed ListText.boxed?
  by_cases hfew : positions.length ≤ 2
  · simp only [if_pos hfew]
  · have htuples : positions.mapM (indices a.shape) =
        some (positions.map (Grid.indices a.shape)) := mapM_eq_map fun p hp => indices_eq (h p hp)
    have hlengths : ∀ tuple ∈ positions.map (Grid.indices a.shape),
        tuple.length = a.shape.length := List.forall_mem_map.mpr fun p _ =>
      Grid.length_indices a.shape p
    have hne : positions.map (Grid.indices a.shape) ≠ [] := fun hnil => by
      rw [List.map_eq_nil_iff.mp hnil] at hfew
      exact hfew (Nat.zero_le 2)
    simp only [if_neg hfew, htuples, Option.bind_eq_bind, Option.bind_some]
    generalize positions.map (Grid.indices a.shape) = tuples at hlengths hne
    obtain ⟨hminimum, hmaximum⟩ := corners_eq hne hlengths
    obtain ⟨hle, hlower⟩ := lowerCorner_le_upperCorner hne hlengths
    have htext := boxText_eq hlower (hle.length_eq.symm.trans hlower)
    simp only [hminimum, hmaximum, extents_eq hle, htext, Option.bind_some]
    by_cases hvolume : Grid.volume (List.zipWith (fun low high => high - low + 1)
        (ListText.lowerCorner tuples) (ListText.upperCorner tuples)) ≠ positions.length
    · rw [if_pos hvolume, if_pos hvolume]
      rfl
    · rw [if_neg hvolume, if_neg hvolume]
      by_cases hbox : ListText.boxTuples (ListText.lowerCorner tuples)
          (ListText.upperCorner tuples) = tuples
      · rw [if_pos hbox]
        exact if_pos hbox
      · rw [if_neg hbox]
        exact if_neg hbox

/-! ### Sequences of cells -/

/-- The sequence with one more cell, if the cell goes on with it. -/
def extend (q : Sequence) (v : Variable) (indices : List Nat) : Option (Option Sequence) :=
  match Sequence.differing q.start indices with
  | [dimension] => do
    let previous ← match q.along with
      | none => some <$> q.start[dimension]?
      | some (known, stop) => some (if known = dimension then some stop else none)
    match previous with
    | none => return none
    | some previous =>
      let index ← indices[dimension]?
      return if index = previous + 1 then some ⟨v :: q.cells, q.start, some (dimension, index)⟩
        else none
  | _ => some none

/-- The index of a sequence in a dimension, or its span. -/
def indexText (shape : List Nat) (dimension stop : Nat) : Nat × Nat → Option String
  | (first, position) =>
    if position = dimension then do
      let size ← shape[position]?
      return ListText.span first stop size
    else some s!"[{first}]"

/-- The indices of a sequence, with a span in its dimension. -/
def spans (shape start : List Nat) (dimension stop : Nat) : Option String :=
  String.join <$> start.zipIdx.mapM (indexText shape dimension stop)

/-- The tokens of a sequence. -/
def tokens (names : Variable → Option String) (a : VarArray) (q : Sequence) :
    Option (List String) :=
  match q.along with
  | some (dimension, stop) =>
    if 2 < q.cells.length then do
      let text ← spans a.shape q.start dimension stop
      return [a.name ++ text]
    else q.cells.reverse.mapM names
  | none => q.cells.reverse.mapM names

/-- The tokens of the cells that remain; `current` is the sequence begun. -/
def sequencesFrom (names : Variable → Option String) (a : VarArray) (current : Sequence) :
    List (Variable × Nat) → Option (List String)
  | [] => tokens names a current
  | (v, position) :: rest => do
    let tuple ← indices a.shape position
    match ← extend current v tuple with
    | some longer => sequencesFrom names a longer rest
    | none =>
      let finished ← tokens names a current
      let others ← sequencesFrom names a ⟨[v], tuple, none⟩ rest
      return finished ++ others

/-- The tokens of cells of one array. -/
def cellTokens (names : Variable → Option String) (a : VarArray) (cells : List (Variable × Nat)) :
    Option (List String) := do
  match ← boxed a (cells.map Prod.snd), cells with
  | some token, _ => return [token]
  | none, [] => return []
  | none, (v, position) :: rest =>
    let tuple ← indices a.shape position
    sequencesFrom names a ⟨[v], tuple, none⟩ rest

theorem lt_of_mem_differing {a b : List Nat} {dimension : Nat}
    (h : dimension ∈ Sequence.differing a b) : dimension < a.length ∧ dimension < b.length := by
  obtain ⟨⟨pair, position⟩, hpair, rfl⟩ := List.mem_map.mp h
  have hlt := List.snd_lt_of_mem_zipIdx (List.mem_filter.mp hpair).1
  rw [List.length_zip] at hlt
  exact Nat.lt_min.mp hlt

/-- The dimension in which two tuples differ is one of both. -/
theorem extend_eq (q : Sequence) (v : Variable) (tuple : List Nat) :
    extend q v tuple = some (q.extend? v tuple) := by
  unfold extend Sequence.extend?
  have hlt := fun dimension => @lt_of_mem_differing q.start tuple dimension
  generalize Sequence.differing q.start tuple = dimensions at hlt
  cases dimensions with
  | nil => rfl
  | cons dimension rest =>
    cases rest with
    | cons => rfl
    | nil =>
      obtain ⟨hstart, htuple⟩ := hlt dimension (List.mem_singleton_self dimension)
      cases q.along with
      | none =>
        simp only [List.getElem?_eq_getElem hstart, List.getElem?_eq_getElem htuple]
        rfl
      | some along =>
        obtain ⟨known, stop⟩ := along
        simp only [List.getElem?_eq_getElem htuple]
        by_cases hknown : known = dimension
        · simp only [if_pos hknown]
          rfl
        · simp only [if_neg hknown]
          rfl

/-- A longer sequence has one more cell and the same start. -/
theorem exists_of_extend? {q longer : Sequence} {v : Variable} {tuple : List Nat}
    (h : q.extend? v tuple = some longer) : ∃ along, longer = ⟨v :: q.cells, q.start, along⟩ := by
  unfold Sequence.extend? at h
  split at h
  · dsimp only at h
    split at h
    · obtain ⟨_, h⟩ := Option.ite_none_right_eq_some.mp h
      cases h
      exact ⟨_, rfl⟩
    · cases h
  · cases h

theorem spans_eq {shape start : List Nat} (h : start.length = shape.length)
    (dimension stop : Nat) :
    spans shape start dimension stop = some (Sequence.spans shape start dimension stop) := by
  refine congrArg (Option.map String.join) (mapM_eq_some_iff.mpr
    (forall₂_iff_getElem?.mpr ⟨?_, fun k entry text he ht => ?_⟩))
  · simp [h]
  · obtain ⟨hk, rfl⟩ := List.getElem?_eq_some_iff.mp he
    obtain ⟨hk', rfl⟩ := List.getElem?_eq_some_iff.mp ht
    rw [List.length_zipIdx] at hk
    have hshape := List.getElem?_eq_getElem (h ▸ hk)
    simp only [List.getElem_zipIdx, List.getElem_map, List.getElem_zip, Nat.zero_add, indexText]
    by_cases hdimension : k = dimension
    · rw [if_pos hdimension, if_pos hdimension, hshape]
      rfl
    · rw [if_neg hdimension, if_neg hdimension]

section
variable {known : Variable → Prop} {names' : Variable → Option String} {names : Variable → String}

/-- Whether a sequence of known cells has one index for every dimension of an array. -/
structure Fits (known : Variable → Prop) (a : VarArray) (q : Sequence) : Prop where
  start : q.start.length = a.shape.length
  cells : ∀ v ∈ q.cells, known v

theorem Fits.single {a : VarArray} {v : Variable} (hv : known v) (position : Nat) :
    Fits known a ⟨[v], Grid.indices a.shape position, none⟩ :=
  ⟨Grid.length_indices a.shape position, List.forall_mem_singleton.mpr hv⟩

theorem Fits.extend {a : VarArray} {q longer : Sequence} (h : Fits known a q) {v : Variable}
    (hv : known v) {tuple : List Nat} (hlonger : q.extend? v tuple = some longer) :
    Fits known a longer := by
  obtain ⟨along, rfl⟩ := exists_of_extend? hlonger
  exact ⟨h.start, List.forall_mem_cons.mpr ⟨hv, h.cells⟩⟩

variable (hnames : ∀ v, known v → names' v = some (names v))
include hnames

theorem tokens_eq {a : VarArray} {q : Sequence} (h : Fits known a q) :
    tokens names' a q = some (q.tokens names a) := by
  have hcells : q.cells.reverse.mapM names' = some (q.cells.reverse.map names) :=
    mapM_eq_map fun v hv => hnames v (h.cells v (List.mem_reverse.mp hv))
  unfold tokens Sequence.tokens
  cases q.along with
  | none => exact hcells
  | some along =>
    simp only [spans_eq h.start, hcells]
    split <;> rfl

theorem sequencesFrom_eq {a : VarArray} {q : Sequence} (h : Fits known a q)
    {cells : List (Variable × Nat)} (hcells : ∀ c ∈ cells, known c.1 ∧ c.2 < Grid.volume a.shape) :
    sequencesFrom names' a q cells = some (ListText.sequencesFrom names a q cells) := by
  induction cells generalizing q with
  | nil => exact tokens_eq hnames h
  | cons c rest ih =>
    obtain ⟨v, position⟩ := c
    obtain ⟨⟨hv, hwithin⟩, hrest⟩ := List.forall_mem_cons.mp hcells
    rw [sequencesFrom, ListText.sequencesFrom, indices_eq hwithin]
    simp only [Option.bind_eq_bind, Option.bind_some, extend_eq]
    cases hlonger : q.extend? v (Grid.indices a.shape position) with
    | some longer => exact ih (h.extend hv hlonger) hrest
    | none =>
      simp only [tokens_eq hnames h, ih (.single hv position) hrest]
      rfl

theorem cellTokens_eq {a : VarArray} {cells : List (Variable × Nat)}
    (hcells : ∀ c ∈ cells, known c.1 ∧ c.2 < Grid.volume a.shape) :
    cellTokens names' a cells = some (ListText.cellTokens names a cells) := by
  have hboxed := boxed_eq (List.forall_mem_map.mpr fun c hc => (hcells c hc).2)
  unfold cellTokens ListText.cellTokens
  rw [hboxed]
  simp only [Option.bind_eq_bind, Option.bind_some]
  cases ListText.boxed? a (cells.map Prod.snd) with
  | some token => rfl
  | none =>
    cases cells with
    | nil => rfl
    | cons c rest =>
      obtain ⟨v, position⟩ := c
      obtain ⟨⟨hv, hwithin⟩, hrest⟩ := List.forall_mem_cons.mp hcells
      simp only [indices_eq hwithin, Option.bind_some]
      exact sequencesFrom_eq hnames (.single hv position) hrest

end

/-! ### Lists -/

/-- The text of one parameter. -/
def parameter (w : ListText) : Parameter → Option String
  | .var v => nameOf w.store v
  | .expression e => render (nameOf w.store) e
  | p => some (w.parameter p)

/-- The parameters one by one. -/
def expanded (w : ListText) (list : List Parameter) : Option String :=
  " ".intercalate <$> list.mapM (parameter w)

/-- The array, the variable and the position of a parameter that is a cell. -/
def cellAt (s : Store) : Parameter → Option (Option (Nat × Variable × Nat))
  | .var v => do
    let cell ← cellOf s v
    return cell.map fun cell => (cell.array, v, cell.position)
  | _ => some none

/-- The stretches of a list. -/
def stretches (s : Store) : List Parameter → Option (List Stretch)
  | [] => some []
  | p :: rest => do
    let cell ← cellAt s p
    let others ← stretches s rest
    match cell with
    | none => return .other p :: others
    | some (array, v, position) =>
      match others with
      | .cells next cells :: others =>
        return if next = array then .cells next ((v, position) :: cells) :: others
          else .cells array [(v, position)] :: .cells next cells :: others
      | others => return .cells array [(v, position)] :: others

/-- The tokens of a stretch. -/
def stretchTokens (w : ListText) : Stretch → Option (List String)
  | .cells array cells => do
    let a ← w.store.arrays.get? array
    cellTokens (nameOf w.store) a cells
  | .other p => do
    let text ← parameter w p
    return [text]

/-- The list with runs of cells as tokens. -/
def compacted (w : ListText) (list : List Parameter) : Option String := do
  let stretches ← stretches w.store list
  let tokens ← stretches.mapM (stretchTokens w)
  return " ".intercalate tokens.flatten

/-- The text of the list of an argument. -/
def listText (w : ListText) (argument : String) (list : List Parameter) (whateverLength : Bool) :
    Option String :=
  if !w.compact || (!whateverLength && list.length < ListText.shortList) then expanded w list
  else
    match if ListText.isRepeatable argument then ListText.integers? list else none with
    | some values => some (ListText.repeatedValues values)
    | none => compacted w list

/-- The text of a list of variables. -/
def variableList (w : ListText) (list : List Variable) (whateverLength : Bool) : Option String :=
  listText w "list" (list.map .var) whateverLength

section
variable {w : ListText} {list : List Parameter}

theorem parameter_eq {p : Parameter} (h : p.Over w.store) :
    parameter w p = some (w.parameter p) := by
  cases p with
  | var v => exact nameOf_eq (h v (List.mem_singleton_self v))
  | expression e => exact render_eq (fun v hv => nameOf_eq hv) h
  | _ => rfl

theorem expanded_eq (h : ∀ p ∈ list, p.Over w.store) :
    expanded w list = some (w.expanded list) := by
  rw [expanded, mapM_eq_map fun p hp => parameter_eq (h p hp)]
  rfl

theorem stretches_eq {s : Store} (h : ∀ p ∈ list, p.Over s) :
    stretches s list = some (ListText.stretches s list) := by
  induction list with
  | nil => rfl
  | cons p rest ih =>
    obtain ⟨hp, hrest⟩ := List.forall_mem_cons.mp h
    have hcell : cellAt s p = some (ListText.cell? s p) := by
      cases p with
      | var v =>
        rw [cellAt, cellOf_eq (hp v (List.mem_singleton_self v))]
        rfl
      | _ => rfl
    rw [stretches, hcell, ih hrest, ListText.stretches]
    simp only [Option.bind_eq_bind, Option.bind_some]
    cases ListText.cell? s p with
    | none => rfl
    | some cell =>
      cases ListText.stretches s rest with
      | nil => rfl
      | cons next others => cases next <;> rfl

variable (hs : w.store.Built)
include hs

/-- The cells of a stretch lie within their array. -/
theorem stretchTokens_eq {stretch : Stretch} (hvalid : stretch.Valid w.store)
    (h : ∀ p ∈ stretch.parameters, p.Over w.store) :
    stretchTokens w stretch = some (w.stretchTokens stretch) := by
  cases stretch with
  | other p =>
    rw [stretchTokens, parameter_eq (h p (List.mem_singleton_self p))]
    rfl
  | cells array cells =>
    obtain ⟨hne, hplaces⟩ := hvalid
    have hdeclares : ∀ c ∈ cells, w.store.Declares c.1 := fun c hc =>
      h _ (List.mem_map_of_mem hc) c.1 (List.mem_singleton_self _)
    have hcells : w.store.AreCells array (w.store.arrayAt array) cells := fun c hc =>
      hs.isCell (hdeclares c hc) (hplaces c hc)
    obtain ⟨c, hc⟩ := List.exists_mem_of_ne_nil cells hne
    rw [stretchTokens, (hcells c hc).array]
    exact cellTokens_eq (fun v hv => nameOf_eq hv) fun c hc =>
      ⟨hdeclares c hc, (hcells c hc).within⟩

theorem compacted_eq (h : ∀ p ∈ list, p.Over w.store) :
    compacted w list = some (w.compacted list) := by
  obtain ⟨hflat, hvalid⟩ := ListText.stretches_spec w.store list
  have htokens : (ListText.stretches w.store list).mapM (stretchTokens w) =
      some ((ListText.stretches w.store list).map w.stretchTokens) :=
    mapM_eq_map fun stretch hstretch => stretchTokens_eq hs (hvalid stretch hstretch) fun p hp =>
      h p (hflat ▸ List.mem_flatMap_of_mem hstretch hp)
  rw [compacted, stretches_eq h]
  simp only [Option.bind_eq_bind, Option.bind_some, htokens]
  rw [ListText.compacted, List.flatMap_def]
  rfl

/-- A list with variables of the store is written. -/
theorem listText_eq (argument : String) (h : ∀ p ∈ list, p.Over w.store) (whateverLength : Bool) :
    listText w argument list whateverLength = some (w.write argument list whateverLength) := by
  unfold listText ListText.write
  split
  · exact expanded_eq h
  · cases (if ListText.isRepeatable argument then ListText.integers? list else none) with
    | some values => rfl
    | none => exact compacted_eq hs h

theorem variableList_eq {list : List Variable} (h : ∀ v ∈ list, w.store.Declares v)
    (whateverLength : Bool) :
    variableList w list whateverLength = some (w.variableList list whateverLength) := by
  refine listText_eq hs "list" (List.forall_mem_map.mpr fun v hv u hu => ?_) whateverLength
  rw [List.mem_singleton.mp hu]
  exact h v hv

end

end Strict
end CspModel
