import CspModel.Proofs.Lossless

/-! # Recognised slides

What is recognised as a slide has as many windows as were posted, the window of number `i`
beginning `i` offsets further on than the first.  A slide that does not wrap around has
an instance for each of them and no other.  A circular slide has an instance for every
multiple of the offset on its list, whatever number of windows was posted: its instances
are the windows exactly if these go around the list (`Sliding.Closes`).
-/
namespace CspModel

namespace Sliding

/-! ### What is recognised -/

/-- Whether windows are what a slide was recognised from. -/
structure RecognizedFrom (s : Sliding) (width : Nat) (windows : List (List Variable)) : Prop where
  several : 2 ≤ windows.length
  nodup : s.list.Nodup
  length : ∀ window ∈ windows, window.length = width
  offset_pos : 0 < s.offset
  offset_le : s.offset ≤ width
  /-- Every entry of a window is at its place. -/
  entry : ∀ {i : Nat} {window : List Variable}, windows[i]? = some window → ∀ {k : Nat}, k < width →
    s.entryAt (i * s.offset + k) = window[k]?
  /-- The list has no other variables than the windows. -/
  covered : ∀ v ∈ s.list, ∃ window ∈ windows, v ∈ window
  /-- Within the first window, the second one does not begin before the offset. -/
  fresh : ∀ {k : Nat}, k < s.offset → s.entryAt k ≠ s.entryAt s.offset

theorem offset?_spec {first second : List Variable} {offset : Nat} (hfirst : first ≠ [])
    (h : offset? first second = some offset) :
    0 < offset ∧ offset ≤ first.length ∧ ∀ k < offset, first[k]? ≠ second[0]? := by
  unfold offset? at h
  split at h
  · cases h
  · rename_i start hstart
    rw [List.head?_eq_getElem?] at hstart
    have hne : ∀ {k : Nat}, k < first.length → (∀ h : k < first.length, ¬(first[k] == start) = true) →
        first[k]? ≠ second[0]? := by
      intro k hk h heq
      rw [hstart, List.getElem?_eq_getElem hk] at heq
      exact h hk (beq_iff_eq.mpr (Option.some.inj heq))
    split at h
    · cases h
    · rename_i position hzero hfind
      cases h
      obtain ⟨hlt, _, hbefore⟩ := List.findIdx?_eq_some_iff_getElem.mp hfind
      refine ⟨Nat.pos_of_ne_zero fun hz => ?_, Nat.le_of_lt hlt, fun k hk => ?_⟩
      · exact hzero hz
      · exact hne (Nat.lt_trans hk hlt) fun _ => hbefore k hk
    · rename_i hfind
      cases h
      refine ⟨List.length_pos_iff.mpr hfirst, Nat.le_refl _, fun k hk => hne hk fun hk' => ?_⟩
      exact Bool.eq_false_iff.mp (List.findIdx?_eq_none_iff.mp hfind _ (List.getElem_mem hk'))

theorem entry_of_fits {s : Sliding} {windows : List (List Variable)} (h : s.fits windows = true)
    {i : Nat} {window : List Variable} (hi : windows[i]? = some window) {k : Nat}
    (hk : k < window.length) : s.entryAt (i * s.offset + k) = window[k]? := by
  have hwindow := List.all_eq_true.mp h (window, i)
    (List.mem_zipIdx_iff_getElem?.mpr hi)
  have hentry := List.all_eq_true.mp hwindow (window[k], k)
    (List.mem_zipIdx_iff_getElem?.mpr (List.getElem?_eq_getElem hk))
  rw [List.getElem?_eq_getElem hk]
  exact beq_iff_eq.mp hentry

/-- A slide is recognised from windows that fit. -/
theorem recognizedFrom_of_ofWindows? {windows : List (List Variable)} {s : Sliding}
    (hcount : 2 ≤ windows.length) (h : ofWindows? windows = some s) :
    ∃ width, s.RecognizedFrom width windows := by
  cases windows with
  | nil => cases hcount
  | cons first rest =>
    cases rest with
    | nil => exact absurd hcount (Nat.lt_irrefl 1)
    | cons second rest =>
      unfold ofWindows? at h
      simp only at h
      split at h
      · cases h
      · rename_i hlengths
        obtain ⟨hempty, hany⟩ : first ≠ [] ∧ ∀ window ∈ second :: rest,
            window.length = first.length := by
          simpa [not_or] using hlengths
        obtain ⟨offset, hoffset, h⟩ := Option.bind_eq_some_iff.mp h
        obtain ⟨hpos, hle, hfresh⟩ := offset?_spec hempty hoffset
        obtain ⟨circular, _, h⟩ := List.exists_of_findSome?_eq_some h
        split at h
        · rename_i hfits
          cases h
          have hlength : ∀ window ∈ first :: second :: rest, window.length = first.length :=
            List.forall_mem_cons.mpr ⟨rfl, hany⟩
          have hentry : ∀ {i : Nat} {window : List Variable},
              (first :: second :: rest)[i]? = some window → ∀ {k : Nat}, k < first.length →
              entryAt ⟨(first :: second :: rest).flatten.eraseDups, offset, circular⟩
                (i * offset + k) = window[k]? := fun {i window} hi {k} hk =>
            entry_of_fits hfits hi (by rwa [hlength _ (List.mem_of_getElem? hi)])
          refine ⟨first.length, hcount, nodup_eraseDups _, hlength,
            hpos, hle, hentry, fun v hv => ?_, fun hk => ?_⟩
          · obtain ⟨window, hwindow, hv⟩ := List.mem_flatten.mp (List.mem_eraseDups.mp hv)
            exact ⟨window, hwindow, hv⟩
          · have hfirst := hentry (i := 0) rfl (Nat.lt_of_lt_of_le hk hle)
            have hsecond := hentry (i := 1) rfl (List.length_pos_iff.mpr hempty)
            rw [Nat.zero_mul, Nat.zero_add] at hfirst
            rw [Nat.one_mul, Nat.add_zero] at hsecond
            rw [hfirst, hsecond]
            exact hfresh _ hk
        · cases h

namespace RecognizedFrom

variable {s : Sliding} {width : Nat} {windows : List (List Variable)}

/-! ### Positions -/

theorem window_eq (h : s.RecognizedFrom width windows) {i : Nat} {window : List Variable}
    (hi : windows[i]? = some window) : s.window width (i * s.offset) = window.map .var := by
  have hlength := h.length window (List.mem_of_getElem? hi)
  have hentries : ∀ k ∈ List.range width, (s.entryAt (i * s.offset + k)).map Parameter.var =
      (window.map Parameter.var)[k]? := fun k hk => by
    rw [h.entry hi (List.mem_range.mp hk), List.getElem?_map]
  rw [Sliding.window, List.filterMap_congr hentries, ← hlength, ← List.length_map Parameter.var]
  exact filterMap_getElem?_range _

/-- The entries of a window lie on the list. -/
theorem lt_length_of_entry (h : s.RecognizedFrom width windows) {i : Nat} {window : List Variable}
    (hi : windows[i]? = some window) {k : Nat} (hk : k < width) :
    (if s.circular then (i * s.offset + k) % s.list.length else i * s.offset + k) <
      s.list.length := by
  have hlt : k < window.length := by rwa [h.length window (List.mem_of_getElem? hi)]
  have hentry := h.entry hi hk
  rw [List.getElem?_eq_getElem hlt] at hentry
  exact (List.getElem?_eq_some_iff.mp hentry).1

/-- The list of a slide that does not wrap around ends with the last window. -/
theorem length_list (h : s.RecognizedFrom width windows) (hcircular : s.circular = false) :
    s.list.length = (windows.length - 1) * s.offset + width := by
  have hentryAt : ∀ p, s.entryAt p = s.list[p]? := fun p => by simp [entryAt, hcircular]
  have hseveral := h.several
  have hpos := h.offset_pos
  have hle := h.offset_le
  refine Nat.le_antisymm (Nat.le_of_not_lt fun hlonger => ?_) ?_
  · -- a variable beyond the last window would be in none of them
    obtain ⟨window, hwindow, hmem⟩ := h.covered _ (List.getElem_mem hlonger)
    obtain ⟨i, hi⟩ := List.mem_iff_getElem?.mp hwindow
    obtain ⟨k, hk⟩ := List.mem_iff_getElem?.mp hmem
    have hkwidth : k < width := h.length window hwindow ▸ (List.getElem?_eq_some_iff.mp hk).1
    have hplace : s.list[i * s.offset + k]? = s.list[(windows.length - 1) * s.offset + width]? := by
      rw [← hentryAt, h.entry hi hkwidth, hk, List.getElem?_eq_getElem hlonger]
    have hsame := (List.getElem?_inj hlonger h.nodup).mp hplace.symm
    have hlast : i * s.offset ≤ (windows.length - 1) * s.offset :=
      Nat.mul_le_mul_right _ (by have := (List.getElem?_eq_some_iff.mp hi).1; omega)
    omega
  · have hlast : windows.length - 1 < windows.length := by omega
    have hk : width - 1 < width := by omega
    have hlt := h.lt_length_of_entry (List.getElem?_eq_getElem hlast) hk
    rw [hcircular, if_neg Bool.false_ne_true] at hlt
    omega

/-- The offset of a circular slide is shorter than the list. -/
theorem offset_lt (h : s.RecognizedFrom width windows) (hcircular : s.circular = true) :
    s.offset < s.list.length := by
  have hentryAt : ∀ p, s.entryAt p = s.list[p % s.list.length]? := fun p => by
    simp [entryAt, hcircular]
  refine Nat.lt_of_not_le fun hle => ?_
  have hpos : 0 < s.list.length := by
    have hlt := h.lt_length_of_entry
      (List.getElem?_eq_getElem (Nat.lt_of_lt_of_le Nat.zero_lt_two h.several))
      (Nat.lt_of_lt_of_le h.offset_pos h.offset_le)
    omega
  have hmod : s.offset % s.list.length < s.offset :=
    Nat.lt_of_lt_of_le (Nat.mod_lt _ hpos) hle
  refine h.fresh hmod ?_
  rw [hentryAt, hentryAt, Nat.mod_mod]

end RecognizedFrom

/-! ### Going around -/

/-- Whether the windows of a circular slide go around its list: they come to its end, and
stop there or begin where others did. -/
def Closes (s : Sliding) (count : Nat) : Prop :=
  s.circular = true → s.list.length ≤ count * s.offset ∧
    (count * s.offset < s.list.length + s.offset ∨ s.offset ∣ s.list.length)

instance (s : Sliding) (count : Nat) : Decidable (s.Closes count) :=
  inferInstanceAs (Decidable (_ → _))

section
variable {length offset : Nat}

/-- Windows that begin at every multiple of the offset come to the end of the list. -/
theorem length_le_of_multiples (count : Nat) (hoffset : 0 < offset)
    (h : ∀ p < length, (∃ i, p = i * offset) → ∃ i < count, p = i * offset % length) :
    length ≤ count * offset := by
  by_contra hshort
  rw [Nat.not_le] at hshort
  -- the multiple after the last window
  obtain ⟨i, hi, heq⟩ := h _ hshort ⟨count, rfl⟩
  have hi' : i * offset < count * offset := Nat.mul_lt_mul_of_pos_right hi hoffset
  rw [Nat.mod_eq_of_lt (Nat.lt_trans hi' hshort)] at heq
  omega

/-- Windows that go on beyond the end and begin at multiples of the offset only begin
where others did. -/
theorem dvd_of_multiples (count : Nat) (hoffset : 0 < offset) (hlt : offset < length)
    (hbeyond : length + offset ≤ count * offset)
    (h : ∀ p < length, (∃ i < count, p = i * offset % length) → ∃ i, p = i * offset) :
    offset ∣ length := by
  refine Nat.dvd_of_mod_eq_zero ?_
  by_contra hrest
  have hdiv := Nat.div_add_mod length offset
  have hmod := Nat.mod_lt length hoffset
  -- the first multiple beyond the end begins within the first offset
  have hnext : (length / offset + 1) * offset = length + (offset - length % offset) := by
    rw [Nat.add_mul, Nat.one_mul, Nat.mul_comm]
    omega
  have hcount : length / offset + 1 < count := by
    refine Nat.lt_of_mul_lt_mul_right (a := offset) ?_
    omega
  have hwrapped : (length / offset + 1) * offset % length = offset - length % offset := by
    rw [hnext, Nat.add_mod_left, Nat.mod_eq_of_lt (by omega)]
  obtain ⟨j, hj⟩ := h (offset - length % offset) (by omega) ⟨_, hcount, hwrapped.symm⟩
  have hj0 : j = 0 := by
    by_contra hj0
    have := Nat.le_mul_of_pos_left offset (Nat.pos_of_ne_zero hj0)
    omega
  subst hj0
  omega

/-- The multiples of an offset, as many as there are windows, are all multiples on a circle
exactly if they go around it. -/
theorem multiples_closed (count : Nat) (hoffset : 0 < offset) (hlt : offset < length) :
    (∀ p < length, (∃ i, p = i * offset) ↔ ∃ i < count, p = i * offset % length) ↔
      length ≤ count * offset ∧ (count * offset < length + offset ∨ offset ∣ length) := by
  constructor
  · intro h
    refine ⟨length_le_of_multiples count hoffset fun p hp => (h p hp).mp, ?_⟩
    by_cases hstop : count * offset < length + offset
    · exact .inl hstop
    · exact .inr (dvd_of_multiples count hoffset hlt (Nat.le_of_not_lt hstop)
        fun p hp => (h p hp).mpr)
  · rintro ⟨hle, hcloses⟩ p hp
    constructor
    · rintro ⟨i, rfl⟩
      refine ⟨i, ?_, (Nat.mod_eq_of_lt hp).symm⟩
      exact Nat.lt_of_mul_lt_mul_right (Nat.lt_of_lt_of_le hp hle)
    · rintro ⟨i, hi, rfl⟩
      rcases hcloses with hstop | hdvd
      · have hi' : (i + 1) * offset ≤ count * offset := Nat.mul_le_mul_right offset hi
        rw [Nat.add_mul, Nat.one_mul] at hi'
        exact ⟨i, Nat.mod_eq_of_lt (by omega)⟩
      · obtain ⟨j, hj⟩ := (Nat.dvd_mod_iff hdvd).mpr (Nat.dvd_mul_left offset i)
        exact ⟨j, by rw [hj, Nat.mul_comm]⟩

end

/-! ### Instances -/

theorem mem_starts_iff (s : Sliding) {width start : Nat} :
    start ∈ s.starts width ↔ (∃ i, start = i * s.offset) ∧
      if s.circular then start < s.list.length else start + width ≤ s.list.length := by
  have hmultiple : start % s.offset = 0 ↔ ∃ i, start = i * s.offset := by
    rw [← Nat.dvd_iff_mod_eq_zero]
    exact exists_congr fun i => by rw [Nat.mul_comm]
  unfold starts
  rw [List.mem_filter, List.mem_range]
  split
  · simp only [Bool.and_eq_true, decide_eq_true_eq, hmultiple]
    exact ⟨fun h => h.2, fun h => ⟨Nat.lt_succ_of_lt h.2, h⟩⟩
  · simp only [Bool.and_eq_true, decide_eq_true_eq, hmultiple]
    exact ⟨fun h => h.2, fun h => ⟨by omega, h⟩⟩

/-- Positions a whole list apart have the same window. -/
theorem window_mod {s : Sliding} (hcircular : s.circular = true) (width p : Nat) :
    s.window width (p % s.list.length) = s.window width p := by
  simp [window, entryAt, hcircular]

namespace RecognizedFrom

variable {s : Sliding} {width : Nat} {windows : List (List Variable)}

/-- On a list with two ends the positions of the instances are those of the windows. -/
theorem mem_starts_iff_of_open (h : s.RecognizedFrom width windows)
    (hcircular : s.circular = false) (p : Nat) :
    p ∈ s.starts width ↔ ∃ i < windows.length, p = i * s.offset := by
  have hlength := h.length_list hcircular
  have hseveral := h.several
  rw [mem_starts_iff, hcircular]
  simp only [Bool.false_eq_true, if_false]
  constructor
  · rintro ⟨⟨i, rfl⟩, hlast⟩
    have hle : i * s.offset ≤ (windows.length - 1) * s.offset := by omega
    have hi := Nat.le_of_mul_le_mul_right hle h.offset_pos
    exact ⟨i, by omega, rfl⟩
  · rintro ⟨i, hi, rfl⟩
    have hle : i * s.offset ≤ (windows.length - 1) * s.offset :=
      Nat.mul_le_mul_right _ (by omega)
    exact ⟨⟨i, rfl⟩, by omega⟩

/-- On a list that is closed the positions of the instances are those of the windows just when
these go around the list. -/
theorem mem_starts_iff_of_circular (h : s.RecognizedFrom width windows)
    (hcircular : s.circular = true) :
    (∀ p < s.list.length, p ∈ s.starts width ↔
      ∃ i < windows.length, p = i * s.offset % s.list.length) ↔ s.Closes windows.length := by
  have hclosed := multiples_closed windows.length h.offset_pos (h.offset_lt hcircular)
  rw [Closes, imp_iff_right hcircular, ← hclosed]
  refine forall_congr' fun p => forall_congr' fun hp => ?_
  rw [mem_starts_iff, hcircular, if_pos rfl, and_iff_left hp]

/-- The instances of a slide are the windows it was recognised from, unless these do not go
around the list, where an instance is told by its position on the list. -/
theorem map_starts_iff {α : Type} (h : s.RecognizedFrom width windows) {f : Nat → α}
    (hmod : s.circular = true → ∀ p, f (p % s.list.length) = f p)
    (hinjective : s.circular = true → ∀ {p q}, p < s.list.length → q < s.list.length →
      f p = f q → p = q) :
    (∀ a, a ∈ (s.starts width).map f ↔
      a ∈ (List.range windows.length).map fun i => f (i * s.offset)) ↔
      s.Closes windows.length := by
  simp only [List.mem_map, List.mem_range]
  cases hcircular : s.circular with
  | false =>
    refine ⟨fun _ hc => ?_, fun _ a => ?_⟩
    · rw [hcircular] at hc
      cases hc
    · simp only [h.mem_starts_iff_of_open hcircular]
      constructor
      · rintro ⟨_, ⟨i, hi, rfl⟩, rfl⟩
        exact ⟨i, hi, rfl⟩
      · rintro ⟨i, hi, rfl⟩
        exact ⟨_, ⟨i, hi, rfl⟩, rfl⟩
  | true =>
    have hlt := h.offset_lt hcircular
    have hlist : ∀ {p}, p % s.list.length < s.list.length := fun {p} => Nat.mod_lt p (by omega)
    have hbelow : ∀ {p}, p ∈ s.starts width → p < s.list.length := fun hp => by
      rw [mem_starts_iff, hcircular, if_pos rfl] at hp
      exact hp.2
    rw [← h.mem_starts_iff_of_circular hcircular]
    constructor
    · intro hsame p hp
      constructor
      · intro hstart
        obtain ⟨i, hi, heq⟩ := (hsame (f p)).mp ⟨p, hstart, rfl⟩
        rw [← hmod hcircular] at heq
        exact ⟨i, hi, (hinjective hcircular hlist hp heq).symm⟩
      · rintro ⟨i, hi, rfl⟩
        obtain ⟨q, hstart, heq⟩ := (hsame _).mpr ⟨i, hi, rfl⟩
        rw [← hmod hcircular (i * s.offset)] at heq
        exact hinjective hcircular (hbelow hstart) hp heq ▸ hstart
    · intro hpositions a
      constructor
      · rintro ⟨p, hstart, rfl⟩
        obtain ⟨i, hi, rfl⟩ := (hpositions p (hbelow hstart)).mp hstart
        exact ⟨i, hi, (hmod hcircular _).symm⟩
      · rintro ⟨i, hi, rfl⟩
        exact ⟨_, (hpositions _ hlist).mpr ⟨i, hi, rfl⟩, hmod hcircular _⟩

/-- The window at a position of a circular slide begins with the variable there. -/
theorem exists_window (h : s.RecognizedFrom width windows) (hcircular : s.circular = true)
    (p : Nat) : ∃ vs : List Variable, s.window width p = vs.map .var ∧ vs.length = width ∧
      vs[0]? = s.list[p % s.list.length]? := by
  have hpos : 0 < s.list.length := Nat.lt_of_le_of_lt (Nat.zero_le _) (h.offset_lt hcircular)
  have hwidth : 0 < width := Nat.lt_of_lt_of_le h.offset_pos h.offset_le
  have hentryAt : ∀ q, s.entryAt q = s.list[q % s.list.length]? := fun q => by
    simp [entryAt, hcircular]
  have hentry : ∀ q, ∃ v, s.entryAt q = some v := fun q =>
    ⟨_, (hentryAt q).trans (List.getElem?_eq_getElem (Nat.mod_lt q hpos))⟩
  choose entry hentry using hentry
  refine ⟨(List.range width).map fun k => entry (p + k), ?_, by simp, ?_⟩
  · simp only [Sliding.window, hentry, Option.map_some, List.map_map]
    rw [← List.filterMap_eq_map]
    rfl
  · rw [List.getElem?_map, List.getElem?_range hwidth, Option.map_some, Nat.add_zero, ← hentry,
      hentryAt]

end RecognizedFrom

end Sliding

namespace Grouping

variable {g : Grouping}

/-- What a recognised slide is made of: similar windows with one template, whose arguments
are windows over the list of the slide. -/
theorem exists_of_recognize? {relations : List Relation} {entry : Written}
    (h : g.recognize? relations = some entry) :
    ∃ first rest positions template arguments s, relations = first :: rest ∧
      (∀ r ∈ rest,
        (Form.ofRelation g.names first).SimilarTo positions (Form.ofRelation g.names r)) ∧
      template? g.names true (relations.map (Form.ofRelation g.names)) =
        some (template, arguments) ∧
      2 ≤ relations.length ∧ Sliding.ofArguments? arguments = some s ∧
      entry = .slide s.list s.offset s.circular template {} := by
  unfold recognize? at h
  split at h
  · rename_i members hpartition
    split at h
    · cases h
    · rename_i hcount
      obtain ⟨⟨template, arguments⟩, htemplate, h⟩ := Option.bind_eq_some_iff.mp h
      obtain ⟨s, hs, rfl⟩ := Option.map_eq_some_iff.mp h
      obtain ⟨first, rest, positions, rfl, hsublist, hsimilar⟩ :=
        exists_of_mem_partition (hpartition ▸ List.mem_singleton_self members)
      -- the only part is the whole list
      have hall : first :: rest = relations := by
        have hperm := (partition_spec (relations.map (.ofRelation g.names))).1
        rw [hpartition] at hperm
        exact hsublist.eq_of_length (by simpa using hperm.length_eq)
      subst hall
      rw [List.map_map] at htemplate
      rw [List.length_map] at hcount
      exact ⟨first, rest, positions, template, arguments, s, rfl, hsimilar, htemplate, by omega,
        hs, rfl⟩
  · cases h

theorem eq_map_var {list : List Parameter} {vs : List Variable}
    (h : list.mapM Parameter.toVariable? = some vs) : list = vs.map .var := by
  rw [mapM_eq_some_iff] at h
  induction h with
  | nil => rfl
  | @cons p v _ _ hv _ ih =>
    cases p with
    | var w =>
      obtain rfl : w = v := Option.some.inj hv
      rw [List.map_cons, ← ih]
    | _ => cases hv

/-- Arguments are recognised as windows when all of them are variables. -/
theorem exists_of_ofArguments? {arguments : List (List Parameter)} {s : Sliding}
    (h : Sliding.ofArguments? arguments = some s) : ∃ windows : List (List Variable),
      arguments = windows.map (List.map .var) ∧ Sliding.ofWindows? windows = some s := by
  obtain ⟨windows, hwindows, hs⟩ := Option.bind_eq_some_iff.mp h
  refine ⟨windows, ?_, hs⟩
  rw [mapM_eq_some_iff] at hwindows
  clear h hs
  induction hwindows with
  | nil => rfl
  | cons hwindow _ ih => rw [List.map_cons, ← eq_map_var hwindow, ← ih]

/-- A recognised slide stands for its windows exactly if they go around its list, should it
be circular. -/
theorem readings_recognize? (hnames : Plain g.names) {known : Variable → Prop}
    (hinjective : ∀ {v w}, known v → known w → g.names v = g.names w → v = w)
    {relations : List Relation}
    (hknown : ∀ r ∈ relations, ∀ e ∈ r.expressions, ∀ v ∈ e.occurrences, known v)
    {entry : Written} (h : g.recognize? relations = some entry) :
    ∃ s : Sliding, ∃ template, entry = .slide s.list s.offset s.circular template {} ∧
      ((∀ reading, reading ∈ entry.readings g.names ↔
        reading ∈ relations.map (Relation.reading g.names)) ↔ s.Closes relations.length) := by
  obtain ⟨first, rest, positions, template, arguments, s, rfl, hsimilar, htemplate, hcount, hs, rfl⟩ :=
    exists_of_recognize? h
  obtain ⟨hreadings, hwidths⟩ := readingOf_template? hnames hsimilar htemplate
  obtain ⟨windows, rfl, hwindows⟩ := exists_of_ofArguments? hs
  have hlength : windows.length = (first :: rest).length := by
    simpa using congrArg List.length hreadings
  obtain ⟨width, hfrom⟩ := Sliding.recognizedFrom_of_ofWindows? (hlength ▸ hcount) hwindows
  have hwidth : template.width = width := by
    obtain ⟨window, hwindow⟩ := List.exists_mem_of_length_pos
      (Nat.lt_of_lt_of_le Nat.zero_lt_two hfrom.several)
    rw [← hwidths rfl _ (List.mem_map_of_mem hwindow), List.length_map]
    exact hfrom.length window hwindow
  have hknownList : ∀ {v}, v ∈ s.list → known v := fun {v} hv => by
    obtain ⟨window, hwindow, hmem⟩ := hfrom.covered v hv
    exact template?_knows hsimilar htemplate hknown (List.mem_map_of_mem hwindow)
      (List.mem_map_of_mem hmem)
  refine ⟨s, template, rfl, ?_⟩
  -- every instance is told by its position
  have hposted : (first :: rest).map (Relation.reading g.names) =
      (List.range windows.length).map fun i =>
        template.readingOf g.names (s.window width (i * s.offset)) := by
    rw [← hreadings]
    refine List.ext_getElem (by simp) fun i hi hi' => ?_
    rw [List.length_map, List.length_map] at hi
    simp only [List.getElem_map, List.getElem_range]
    rw [hfrom.window_eq (List.getElem?_eq_getElem hi)]
  have hunfolded : Written.readings g.names (.slide s.list s.offset s.circular template {}) =
      (s.starts width).map fun p => template.readingOf g.names (s.window width p) := by
    rw [Written.readings, Sliding.readings, hwidth]
  rw [hposted, hunfolded, ← hlength]
  refine hfrom.map_starts_iff (fun hcircular p => by rw [Sliding.window_mod hcircular])
    fun hcircular {p q} hp hq heq => ?_
  obtain ⟨vs, hvs, hlengthVs, hheadVs⟩ := hfrom.exists_window hcircular p
  obtain ⟨ws, hws, hlengthWs, hheadWs⟩ := hfrom.exists_window hcircular q
  rw [hvs, hws] at heq
  have hsame := readingOf_template?_injective hnames hsimilar htemplate (hlengthVs.trans hwidth.symm)
    (hlengthWs.trans hwidth.symm) heq
  have hheads := congrArg (·[0]?) hsame
  simp only [List.getElem?_map, hheadVs, hheadWs, Nat.mod_eq_of_lt hp, Nat.mod_eq_of_lt hq,
    List.getElem?_eq_getElem hp, List.getElem?_eq_getElem hq, Option.map_some] at hheads
  have hvariables := hinjective (hknownList (List.getElem_mem hp)) (hknownList (List.getElem_mem hq))
    (Option.some.inj hheads)
  exact (List.Nodup.getElem_inj_iff hfrom.nodup).mp hvariables

/-- The constraints of a posting that is one slide. -/
theorem writeConstraints_singleton (gather : Bool) (windows : List Constraint) :
    g.writeConstraints gather [.slide windows] =
      g.writeSegment gather (.slide (Constraint.relationsOf windows)) := by
  have hempty : g.writeSegment gather (.run []) = [] := by
    simp [writeSegment, writeRun]
  simp [writeConstraints, segments, hempty]

/-- The windows of a slide are written as one slide or like constraints posted together.
One slide stands for the windows, with none added and none lost, exactly if it does not
wrap around or its windows go around its list; written like constraints posted together,
every window is there exactly once. -/
theorem writeConstraints_slide {s : Store} (hs : s.Built) (options : Options) (gather : Bool)
    {windows : List Constraint} (hscope : ∀ v ∈ (Constraint.slide windows).scope, s.Declares v) :
    match (Grouping.mk options s.nameOf).recognized? (Constraint.relationsOf windows) with
    | some entry =>
      (Grouping.mk options s.nameOf).writeConstraints gather [.slide windows] = [entry] ∧
      ∃ sliding : Sliding, ∃ template,
        entry = .slide sliding.list sliding.offset sliding.circular template {} ∧
        ((∀ reading, reading ∈ entry.readings s.nameOf ↔
          reading ∈ (Constraint.relationsOf windows).map (Relation.reading s.nameOf)) ↔
          sliding.Closes (Constraint.relationsOf windows).length)
    | none =>
      Written.CoverAll s.nameOf
        ((Grouping.mk options s.nameOf).writeConstraints gather [.slide windows])
        (Constraint.relationsOf windows) := by
  have hknown : ∀ r ∈ Constraint.relationsOf windows, ∀ e ∈ r.expressions, ∀ v ∈ e.occurrences,
      s.Declares v := fun r hr e he v hv =>
    hscope v (List.mem_eraseDups.mpr (List.mem_flatMap.mpr
      ⟨e, List.mem_flatMap.mpr ⟨r, hr, he⟩, hv⟩))
  rw [writeConstraints_singleton, writeSegment]
  cases hrecognized : (Grouping.mk options s.nameOf).recognized? (Constraint.relationsOf windows) with
  | some entry =>
    have h : (Grouping.mk options s.nameOf).recognize? (Constraint.relationsOf windows) =
        some entry := by
      unfold recognized? at hrecognized
      split at hrecognized
      · exact hrecognized
      · cases hrecognized
    exact ⟨rfl, readings_recognize? hs.plain hs.nameOf_injective hknown h⟩
  | none => exact writeRun_covers (g := ⟨options, s.nameOf⟩) hs.plain true _

end Grouping

namespace Row

/-- Two of the three ways around the row. -/
def around : List Constraint :=
  [.relation (.ordered [cell 0, cell 1, cell 2] .lt),
    .relation (.ordered [cell 1, cell 2, cell 0] .lt)]

theorem declares_around : ∀ v ∈ (Constraint.slide around).scope, store.Declares v := by
  have hscope : (Constraint.slide around).scope = [⟨0, 0⟩, ⟨0, 1⟩, ⟨0, 2⟩] := by cbv
  rw [hscope]
  simp only [List.forall_mem_cons]
  refine ⟨⟨?_, ?_⟩, ⟨?_, ?_⟩, ⟨?_, ?_⟩, List.forall_mem_nil _⟩ <;> cbv

/-- The slide they are written as. -/
def slide : Sliding := ⟨[⟨0, 0⟩, ⟨0, 1⟩, ⟨0, 2⟩], 1, true⟩

def template : Layout :=
  { name := "ordered"
    arguments :=
      [{ name := "list"
         content := .parameters [.placeholder 0, .placeholder 1, .placeholder 2] },
        { name := "operator", content := .text "lt" }] }

theorem recognized_around : (Grouping.mk {} store.nameOf).recognized?
    (Constraint.relationsOf around) =
      some (.slide slide.list slide.offset slide.circular template {}) := by
  cbv

/-- Two of three windows around a row are written as a slide that stands for all three. -/
theorem slide_exceeds_around : store.Built ∧
    (∀ v ∈ (Constraint.slide around).scope, store.Declares v) ∧
    (Grouping.mk {} store.nameOf).writeConstraints true [.slide around] =
      [.slide slide.list slide.offset slide.circular template {}] ∧
    ¬∀ reading, reading ∈ (Written.slide slide.list slide.offset slide.circular template
        {}).readings store.nameOf ↔
      reading ∈ (Constraint.relationsOf around).map (Relation.reading store.nameOf) := by
  have h := Grouping.writeConstraints_slide built_store {} true declares_around
  rw [recognized_around] at h
  obtain ⟨hentries, sliding, template', heq, hiff⟩ := h
  obtain ⟨hlist, hoffset, hcircular, -⟩ := Written.slide.inj heq
  refine ⟨built_store, declares_around, hentries, mt hiff.mp ?_⟩
  obtain ⟨list, offset, circular⟩ := sliding
  cases hlist
  cases hoffset
  cases hcircular
  decide

end Row

end CspModel
