import CspModel.Document.Constraints
import CspModel.Proofs.CellKinds
import CspModel.Proofs.Expansion
import CspModel.Proofs.Notation

/-! # What the texts of values tell

The text of a domain of integers is read word by word: an integer stands for itself, a range
for the integers from one end to the other, and an infinity is no end (`Reader.bounds?`).  The
reader finds the atoms again, so the text tells the domain.  It finds no other integers, except
beyond the ends of the range of integers where an interval reaches up to them
(`Domain.reads_text_iff`).

Symbols are written as they are, and nothing keeps them apart from the blanks between them, the
signs around the cells of a row, or the sign of a wildcard.  The texts of two sets of symbols
agree exactly when the symbols consist of the same words (`Domain.Normal.text_eq_iff_wordsOf`), and
those of two tables when their words and the marks between them are the same
(`Document.rowsText_eq_iff`).  The rows themselves are told as long as their symbols hold no such
sign (`Text.IsToken`).
-/
namespace CspModel

open Bounded

/-! ### Joined texts -/

/-- Cutting what was joined cuts every part. -/
theorem splitOnP_intercalate {α : Type} {p : α → Bool} {a : α} (ha : p a = true)
    {lists : List (List α)} (hne : lists ≠ []) :
    ([a].intercalate lists).splitOnP p = lists.flatMap (List.splitOnP p) := by
  induction lists with
  | nil => exact absurd rfl hne
  | cons list rest ih =>
    cases rest with
    | nil => simp
    | cons next rest =>
      rw [List.intercalate_cons_cons, List.flatMap_cons, ← ih (List.cons_ne_nil _ _),
        List.append_assoc, List.singleton_append]
      exact List.splitOnP_append_cons _ _ ha

/-- The signs of what was joined are those of the parts and those between them. -/
theorem filter_intercalate {α : Type} {p : α → Bool} {a : α} (ha : p a = true)
    (lists : List (List α)) :
    ([a].intercalate lists).filter p = [a].intercalate (lists.map (List.filter p)) := by
  induction lists with
  | nil => rfl
  | cons list rest ih =>
    cases rest with
    | nil => simp
    | cons next rest =>
      rw [List.intercalate_cons_cons, List.filter_append, List.filter_append, ih, List.map_cons,
        List.map_cons, List.map_cons, List.intercalate_cons_cons, List.filter_singleton, ha]
      rfl

/-- A list is told by its parts between some signs together with these signs. -/
theorem eq_iff_splitOnP_eq {α : Type} (p : α → Bool) {list list' : List α} :
    list = list' ↔ list.splitOnP p = list'.splitOnP p ∧ list.filter p = list'.filter p := by
  constructor
  · rintro rfl
    exact ⟨rfl, rfl⟩
  · rintro ⟨hparts, hsigns⟩
    rw [← List.splitOnP_spec (p := p) list, hparts, hsigns, List.splitOnP_spec]

/-- Parts without the sign between them are told by what they are joined to. -/
theorem intercalate_injective {α : Type} [BEq α] [LawfulBEq α] {a : α}
    {lists lists' : List (List α)} (hlists : ∀ list ∈ lists, a ∉ list)
    (hlists' : ∀ list ∈ lists', a ∉ list) (hne : lists ≠ []) (hne' : lists' ≠ [])
    (h : [a].intercalate lists = [a].intercalate lists') : lists = lists' := by
  rw [← List.splitOn_intercalate a hlists hne, h, List.splitOn_intercalate a hlists' hne']

/-- Texts without blanks are told by what they are joined to. -/
theorem intercalate_texts_injective {separator : String} {c : Char}
    (hseparator : separator.toList = [c]) {texts texts' : List String}
    (htexts : ∀ text ∈ texts, c ∉ text.toList) (htexts' : ∀ text ∈ texts', c ∉ text.toList)
    (hne : texts ≠ []) (hne' : texts' ≠ [])
    (h : separator.intercalate texts = separator.intercalate texts') : texts = texts' := by
  have hchars := congrArg String.toList h
  rw [String.toList_intercalate, String.toList_intercalate, hseparator] at hchars
  refine (List.map_injective_iff.mpr fun _ _ => String.toList_inj.mp)
    (intercalate_injective ?_ ?_ (mt List.map_eq_nil_iff.mp hne) (mt List.map_eq_nil_iff.mp hne')
      hchars)
  · simpa only [List.forall_mem_map] using htexts
  · simpa only [List.forall_mem_map] using htexts'

/-! ### Reading integers -/

namespace Reader

/-- The integer that some characters write. -/
def integer? : List Char → Option Int
  | '-' :: digits => (number? digits).map fun n => -Int.ofNat n
  | digits => (number? digits).map Int.ofNat

/-- An end of a range, which is none if it is the given infinity. -/
def limit? (infinity : String) (chars : List Char) : Option (Option Int) :=
  if chars = infinity.toList then some none else (integer? chars).map some

/-- The bounds of the integers that a word stands for: an integer or a range. -/
def bounds? (word : String) : Option (Option Int × Option Int) :=
  match word.toList.splitOn '.' with
  | [chars] => (integer? chars).map fun n => (some n, some n)
  | [first, [], last] =>
    (limit? "-infinity" first).bind fun lower =>
      (limit? "+infinity" last).map fun upper => (lower, upper)
  | _ => none

/-- The bounds of all words of a text. -/
def ranges? (text : String) : Option (List (Option Int × Option Int)) := (words text).mapM bounds?

/-- Whether an integer is within bounds, of which some can be missing. -/
def Within (bounds : Option Int × Option Int) (n : Int) : Prop :=
  (∀ lower ∈ bounds.1, lower ≤ n) ∧ ∀ upper ∈ bounds.2, n ≤ upper

/-- Whether a text can be read, and the integer is one of those that it stands for. -/
def Reads (text : String) (n : Int) : Prop :=
  ∃ list, ranges? text = some list ∧ ∃ bounds ∈ list, Within bounds n

theorem integer?_toString (n : Int) : integer? (toString n).toList = some n := by
  rw [Int.toString_eq_repr, Int.repr_eq_if]
  split
  · have hminus : ∀ digits, n.toNat.repr.toList ≠ '-' :: digits := fun digits h =>
      absurd (Nat.isDigit_of_mem_repr (h ▸ List.mem_cons_self)) (by decide)
    unfold integer?
    split
    · rename_i digits h
      exact absurd h (hminus digits)
    · rw [number?_repr]
      exact congrArg some (Int.toNat_of_nonneg ‹_›)
  · rw [String.toList_append]
    show (number? (-n).toNat.repr.toList).map (fun n => -Int.ofNat n) = some n
    rw [number?_repr]
    refine congrArg some ?_
    show -((-n).toNat : Int) = n
    omega

/-- The end of a range is read off its text. -/
theorem limit?_toString {infinity : String} (h : 'i' ∈ infinity.toList) (n : Int) :
    limit? infinity (toString n).toList = some (some n) := by
  have hne : (toString n).toList ≠ infinity.toList := fun heq => by
    rw [← heq] at h
    rcases mem_toString h with h | h
    · cases h
    · exact absurd h (by decide)
  rw [limit?, if_neg hne, integer?_toString, Option.map_some]

end Reader

namespace Atom

/-- The bounds of the integers of an atom, where an infinity is none. -/
def bounds : Atom → Option Int × Option Int
  | integer n => (some n, some n)
  | interval i =>
    (if i.inf = lowest then none else some i.inf, if i.sup = highest then none else some i.sup)
  | symbol _ => (none, none)

/-- The characters of atoms of integers beside digits. -/
def signs : List Char := ['+', '-', '.', 'f', 'i', 'n', 't', 'y']

theorem mem_text {a : Atom} (ha : a.symbol? = none) {c : Char} (hc : c ∈ a.text.toList) :
    c.isDigit = true ∨ c ∈ signs := by
  have hinteger : ∀ n : Int, c ∈ (toString n).toList → c.isDigit = true ∨ c ∈ signs := by
    intro n hc
    rcases mem_toString hc with rfl | hdigit
    · exact .inr (by decide)
    · exact .inl hdigit
  have hend : ∀ {condition : Prop} [Decidable condition] {infinity : String} (n : Int),
      (∀ c ∈ infinity.toList, c ∈ signs) →
      c ∈ (if condition then infinity else toString n).toList → c.isDigit = true ∨ c ∈ signs := by
    intro condition _ infinity n hinfinity hc
    split at hc
    · exact .inr (hinfinity c hc)
    · exact hinteger n hc
  cases a with
  | integer n => exact hinteger n hc
  | interval i =>
    rw [text, Interval.text, String.toList_append, String.toList_append, List.mem_append,
      List.mem_append] at hc
    rcases hc with (hc | hc) | hc
    · exact hend i.inf (by simp [signs]) hc
    · obtain rfl : c = '.' := by simpa using hc
      exact .inr (by decide)
    · exact hend i.sup (by simp [signs]) hc
  | symbol text => cases ha

theorem isWord_text {a : Atom} (ha : a.symbol? = none) : Text.IsWord a.text := by
  refine ⟨fun hempty => ?_, fun c hc => ?_⟩
  · cases a with
    | integer n =>
      have hread := Reader.integer?_toString n
      rw [show toString n = "" from hempty] at hread
      cases hread
    | interval i =>
      have hdot : '.' ∈ (interval i).text.toList := by
        rw [text, Interval.text, String.toList_append, String.toList_append]
        simp
      rw [hempty] at hdot
      exact absurd hdot (by decide)
    | symbol text => cases ha
  · rcases mem_text ha hc with h | h
    · exact Text.isBlank_of_isDigit h
    · have hvisible : ∀ c ∈ signs, 0x20 < c.toNat ∧ c.toNat < 0x80 := by simp [signs]
      exact Text.isBlank_eq_false (hvisible c h)

/-- The bounds of an atom are read off its text. -/
theorem bounds?_text {a : Atom} (ha : a.symbol? = none) :
    Reader.bounds? a.text = some a.bounds := by
  have hdot : ∀ n : Int, '.' ∉ (toString n).toList := not_mem_toString (by decide) (by decide)
  cases a with
  | integer n =>
    rw [text, Reader.bounds?, List.splitOn_eq_singleton (hdot n)]
    simp only [Reader.integer?_toString]
    rfl
  | interval i =>
    have hends : ∀ l ∈ [(if i.inf = lowest then "-infinity" else toString i.inf).toList, [],
        (if i.sup = highest then "+infinity" else toString i.sup).toList], '.' ∉ l := by
      simp only [List.forall_mem_cons, List.not_mem_nil, not_false_eq_true, false_implies,
        implies_true, and_true, true_and]
      constructor
      · split
        · decide
        · exact hdot _
      · split
        · decide
        · exact hdot _
    have hsplit := List.splitOn_intercalate '.' hends (List.cons_ne_nil _ _)
    have htext : (interval i).text.toList =
        ['.'].intercalate [(if i.inf = lowest then "-infinity" else toString i.inf).toList, [],
          (if i.sup = highest then "+infinity" else toString i.sup).toList] := by
      rw [text, Interval.text, String.toList_append, String.toList_append]
      simp [List.intercalate_cons_cons]
    have hlower : Reader.limit? "-infinity"
        (if i.inf = lowest then "-infinity" else toString i.inf).toList =
          some (if i.inf = lowest then none else some i.inf) := by
      split
      · rfl
      · exact Reader.limit?_toString (by decide) _
    have hupper : Reader.limit? "+infinity"
        (if i.sup = highest then "+infinity" else toString i.sup).toList =
          some (if i.sup = highest then none else some i.sup) := by
      split
      · rfl
      · exact Reader.limit?_toString (by decide) _
    rw [Reader.bounds?, htext, hsplit]
    simp only [hlower, hupper]
    rfl
  | symbol text => cases ha

/-- An atom of integers is told by its bounds. -/
theorem eq_of_bounds_eq {a a' : Atom} (ha : a.symbol? = none) (ha' : a'.symbol? = none)
    (h : a.bounds = a'.bounds) : a = a' := by
  -- the ends of an interval differ, even where one of them is an infinity
  have hne : ∀ (n : Int) (i : Interval), (integer n).bounds ≠ (interval i).bounds := by
    intro n i h
    obtain ⟨hlower, hupper⟩ := Prod.mk.inj h
    have hinf : n = i.inf := by
      split at hlower
      · cases hlower
      · exact Option.some.inj hlower
    have hsup : n = i.sup := by
      split at hupper
      · cases hupper
      · exact Option.some.inj hupper
    have hlt := i.inf_lt_sup
    omega
  have hend : ∀ {m n limit : Int},
      (if m = limit then none else some m) = (if n = limit then none else some n) → m = n := by
    intro m n limit h
    split at h <;> split at h
    · rename_i hm hn
      exact hm.trans hn.symm
    · cases h
    · cases h
    · exact Option.some.inj h
  cases a with
  | integer n =>
    cases a' with
    | integer n' => exact congrArg integer (Option.some.inj (Prod.mk.inj h).1)
    | interval i => exact absurd h (hne n i)
    | symbol text => cases ha'
  | interval i =>
    cases a' with
    | integer n => exact absurd h.symm (hne n i)
    | interval i' =>
      obtain ⟨hlower, hupper⟩ := Prod.mk.inj h
      obtain ⟨inf, sup, _⟩ := i
      obtain ⟨inf', sup', _⟩ := i'
      obtain rfl : inf = inf' := hend hlower
      obtain rfl : sup = sup' := hend hupper
      rfl
    | symbol text => cases ha'
  | symbol text => cases ha

/-- The integers within the bounds of an atom are its own, and those beyond its infinities. -/
theorem within_bounds_iff {a : Atom} (ha : a.symbol? = none) {n : Int} :
    Reader.Within a.bounds n ↔ a.contains n = true ∨
      (∃ i, a = .interval i ∧ i.inf = lowest ∧ n < lowest) ∨
        ∃ i, a = .interval i ∧ i.sup = highest ∧ highest < n := by
  cases a with
  | integer m =>
    simp only [Reader.Within, bounds, contains, Option.mem_def, Option.some.injEq, forall_eq',
      beq_iff_eq, reduceCtorEq, false_and, exists_false, or_false]
    omega
  | interval i =>
    have hlt := i.inf_lt_sup
    have hrange : lowest < highest := by decide
    have hlower : (∀ lower ∈ (interval i).bounds.1, lower ≤ n) ↔ i.inf = lowest ∨ i.inf ≤ n := by
      simp only [bounds]
      split <;> simp_all
    have hupper : (∀ upper ∈ (interval i).bounds.2, n ≤ upper) ↔ i.sup = highest ∨ n ≤ i.sup := by
      simp only [bounds]
      split <;> simp_all
    rw [Reader.Within, hlower, hupper]
    simp only [contains, Interval.contains, Bool.and_eq_true, decide_eq_true_eq, interval.injEq,
      exists_eq_left']
    omega
  | symbol text => cases ha

end Atom

/-! ### Domains -/

namespace Domain

variable {d d' : Domain}

theorem ranges?_text (h : d.symbols = []) :
    Reader.ranges? d.text = some (d.atoms.map Atom.bounds) := by
  have hatoms : ∀ a ∈ d.atoms, a.symbol? = none := List.filterMap_eq_nil_iff.mp h
  have hwords : ∀ t ∈ d.atoms.map Atom.text, Text.IsWord t :=
    List.forall_mem_map.mpr fun a ha => Atom.isWord_text (hatoms a ha)
  rw [Reader.ranges?, text, Store.words_intercalate hwords, mapM_eq_some_iff,
    List.forall₂_map_left_iff, List.forall₂_map_right_iff, List.forall₂_same]
  exact fun a ha => Atom.bounds?_text (hatoms a ha)

/-- A domain of integers is told by its text. -/
theorem eq_of_text_eq (h : d.symbols = []) (h' : d'.symbols = []) (htext : d.text = d'.text) :
    d = d' := by
  have hread := ranges?_text h
  rw [htext, ranges?_text h'] at hread
  have hatoms : d.atoms = d'.atoms := by
    refine eq_of_map_eq (fun a ha a' ha' => ?_) (Option.some.inj hread).symm
    exact Atom.eq_of_bounds_eq (List.filterMap_eq_nil_iff.mp h a ha)
      (List.filterMap_eq_nil_iff.mp h' a' ha')
  obtain ⟨atoms⟩ := d
  exact congrArg Domain.mk hatoms

/-- The integers read off the text of a domain are its own, and those beyond its infinities. -/
theorem reads_text_iff (h : d.symbols = []) {n : Int} :
    Reader.Reads d.text n ↔ d.contains n = true ∨
      (n < lowest ∧ ∃ i, .interval i ∈ d.atoms ∧ i.inf = lowest) ∨
        (highest < n ∧ ∃ i, .interval i ∈ d.atoms ∧ i.sup = highest) := by
  have hatoms : ∀ a ∈ d.atoms, a.symbol? = none := List.filterMap_eq_nil_iff.mp h
  have hread : Reader.Reads d.text n ↔ ∃ a ∈ d.atoms, Reader.Within a.bounds n := by
    simp only [Reader.Reads, ranges?_text h, Option.some.injEq, exists_eq_left', List.mem_map,
      exists_exists_and_eq_and]
  rw [hread, contains, List.any_eq_true]
  constructor
  · rintro ⟨a, ha, hn⟩
    rcases (Atom.within_bounds_iff (hatoms a ha)).mp hn with
      hn | ⟨i, rfl, hi, hn⟩ | ⟨i, rfl, hi, hn⟩
    · exact .inl ⟨a, ha, hn⟩
    · exact .inr (.inl ⟨hn, i, ha, hi⟩)
    · exact .inr (.inr ⟨hn, i, ha, hi⟩)
  · rintro (⟨a, ha, hn⟩ | ⟨hn, i, ha, hi⟩ | ⟨hn, i, ha, hi⟩)
    · exact ⟨a, ha, (Atom.within_bounds_iff (hatoms a ha)).mpr (.inl hn)⟩
    · exact ⟨_, ha, (Atom.within_bounds_iff rfl).mpr (.inr (.inl ⟨i, rfl, hi, hn⟩))⟩
    · exact ⟨_, ha, (Atom.within_bounds_iff rfl).mpr (.inr (.inr ⟨i, rfl, hi, hn⟩))⟩

theorem symbols_ofIntegers {values : List Int} (h : ofIntegers values = .ok d) :
    d.symbols = [] := by
  unfold ofIntegers at h
  split at h
  · cases h
  · cases h
    exact symbols_ofRuns _

theorem normalFormOf_ofIntegers {values : List Int} (h : ofIntegers values = .ok d) :
    d.NormalFormOf fun | .integer n => n ∈ values | .symbol _ => False := by
  unfold ofIntegers at h
  split at h
  · cases h
  · rename_i hne
    cases h
    refine normalFormOf_ofRuns (mt List.map_eq_nil_iff.mp hne) ?_ (fun n => ?_) fun _ => id
    · exact List.forall_mem_map.mpr fun n _ => Int.le_refl n
    · simp only [List.mem_map, exists_exists_and_eq_and, InRange]
      constructor
      · rintro ⟨m, hm, hle, hge⟩
        exact Int.le_antisymm hge hle ▸ hm
      · exact fun hn => ⟨n, hn, Int.le_refl n, Int.le_refl n⟩

section
variable {values : List Int} (hvalues : ∀ n ∈ values, Fits n) (h : ofIntegers values = .ok d)
include hvalues h

/-- An interval begins with the lowest integer when the two next ones are there too. -/
theorem exists_interval_lowest_iff : (∃ i, .interval i ∈ d.atoms ∧ i.inf = lowest) ↔
    lowest ∈ values ∧ lowest + 1 ∈ values ∧ lowest + 2 ∈ values := by
  have hnormal := normalFormOf_ofIntegers h
  constructor
  · rintro ⟨i, hi, hinf⟩
    obtain ⟨⟨-, hall, -⟩, hlong⟩ := (hnormal.mem_atoms _).mp hi
    rw [hinf] at hall hlong
    exact ⟨hall _ (by omega) (by omega), hall _ (by omega) (by omega), hall _ (by omega) (by omega)⟩
  · rintro ⟨hlowest, hnext, hafter⟩
    obtain ⟨a, ha, hcontains⟩ :=
      List.any_eq_true.mp ((hnormal.holds (.integer lowest)).mpr hlowest)
    have hpart := (hnormal.mem_atoms a).mp ha
    cases a with
    -- an integer that stands alone is in a run of at most two
    | integer n =>
      obtain rfl : n = lowest := beq_iff_eq.mp hcontains
      obtain ⟨inf, sup, ⟨-, hall, -, hmaximal⟩, hshort, hinf, hsup⟩ := hpart
      have hleast := (hvalues inf (hall inf (by omega) (by omega))).1
      have hcases : sup + 1 = lowest + 1 ∨ sup + 1 = lowest + 2 := by omega
      rcases hcases with heq | heq
      · exact absurd hnext (heq ▸ hmaximal)
      · exact absurd hafter (heq ▸ hmaximal)
    | interval i =>
      obtain ⟨⟨hle, hall, -⟩, -⟩ := hpart
      have hleast := (hvalues i.inf (hall i.inf (by omega) hle)).1
      have hinf := of_decide_eq_true (Bool.and_eq_true_iff.mp hcontains).1
      exact ⟨i, ha, by omega⟩
    | symbol text => cases hcontains

/-- An interval ends with the highest integer when the two before it are there too. -/
theorem exists_interval_highest_iff : (∃ i, .interval i ∈ d.atoms ∧ i.sup = highest) ↔
    highest ∈ values ∧ highest - 1 ∈ values ∧ highest - 2 ∈ values := by
  have hnormal := normalFormOf_ofIntegers h
  constructor
  · rintro ⟨i, hi, hsup⟩
    obtain ⟨⟨-, hall, -⟩, hlong⟩ := (hnormal.mem_atoms _).mp hi
    rw [hsup] at hall hlong
    exact ⟨hall _ (by omega) (by omega), hall _ (by omega) (by omega), hall _ (by omega) (by omega)⟩
  · rintro ⟨hhighest, hbefore, hearlier⟩
    obtain ⟨a, ha, hcontains⟩ :=
      List.any_eq_true.mp ((hnormal.holds (.integer highest)).mpr hhighest)
    have hpart := (hnormal.mem_atoms a).mp ha
    cases a with
    | integer n =>
      obtain rfl : n = highest := beq_iff_eq.mp hcontains
      obtain ⟨inf, sup, ⟨-, hall, hmaximal, -⟩, hshort, hinf, hsup⟩ := hpart
      have hgreatest := (hvalues sup (hall sup (by omega) (by omega))).2
      have hcases : inf - 1 = highest - 1 ∨ inf - 1 = highest - 2 := by omega
      rcases hcases with heq | heq
      · exact absurd hbefore (heq ▸ hmaximal)
      · exact absurd hearlier (heq ▸ hmaximal)
    | interval i =>
      obtain ⟨⟨hle, hall, -⟩, -⟩ := hpart
      have hgreatest := (hvalues i.sup (hall i.sup hle (by omega))).2
      have hsup := of_decide_eq_true (Bool.and_eq_true_iff.mp hcontains).2
      exact ⟨i, ha, by omega⟩
    | symbol text => cases hcontains

/-- The integers read off the text of a set of them are its own, and those beyond an end of the
range of integers where three of its own lie. -/
theorem reads_ofIntegers_iff {n : Int} : Reader.Reads d.text n ↔ n ∈ values ∨
    (n < lowest ∧ lowest ∈ values ∧ lowest + 1 ∈ values ∧ lowest + 2 ∈ values) ∨
      (highest < n ∧ highest ∈ values ∧ highest - 1 ∈ values ∧ highest - 2 ∈ values) := by
  rw [reads_text_iff (symbols_ofIntegers h), contains_ofIntegers h,
    exists_interval_lowest_iff hvalues h, exists_interval_highest_iff hvalues h]

end

/-! ### Domains of symbols -/

/-- A domain of symbols consists of its symbols. -/
theorem Normal.atoms_eq (h : d.Normal) (hkind : d.kind = .symbolic) :
    d.symbols ≠ [] ∧ d.atoms = d.symbols.map .symbol := by
  cases h with
  | ofRuns _ _ =>
    rw [kind_ofRuns] at hkind
    cases hkind
  | ofSymbols hne =>
    rw [symbols_ofSymbols]
    refine ⟨fun hnil => ?_, rfl⟩
    obtain ⟨text, rest, rfl⟩ := List.exists_cons_of_ne_nil hne
    have hmem : text ∈ Ascending.ofList (text :: rest) :=
      Ascending.mem_ofList.mpr List.mem_cons_self
    rw [hnil] at hmem
    cases hmem

theorem Normal.symbols_eq_nil (h : d.Normal) (hkind : d.kind = .integer) : d.symbols = [] := by
  cases h with
  | ofRuns _ _ => exact symbols_ofRuns _
  | ofSymbols hne =>
    rw [beq_iff_eq.mp (isSymbolic_ofSymbols hne)] at hkind
    cases hkind

theorem text_of_atoms_eq (h : d.atoms = d.symbols.map .symbol) :
    d.text = " ".intercalate d.symbols := by
  rw [text, h, List.map_map]
  exact congrArg _ (List.map_id _)

/-- The words of which symbols consist, blanks next to each other making empty ones. -/
def wordsOf (texts : List String) : List (List Char) :=
  texts.flatMap fun text => text.toList.splitOn ' '

/-- Texts joined with blanks are told up to their words. -/
theorem intercalate_eq_iff_wordsOf {texts texts' : List String} (hne : texts ≠ [])
    (hne' : texts' ≠ []) :
    " ".intercalate texts = " ".intercalate texts' ↔ wordsOf texts = wordsOf texts' := by
  have hwords : ∀ {texts : List String}, texts ≠ [] →
      (" ".intercalate texts).toList.splitOn ' ' = wordsOf texts := fun {texts} hne => by
    rw [String.toList_intercalate, wordsOf, ← List.flatMap_map]
    show List.splitOnP (· == ' ') _ = List.flatMap (List.splitOnP (· == ' ')) _
    exact splitOnP_intercalate rfl (mt List.map_eq_nil_iff.mp hne)
  rw [← hwords hne, ← hwords hne', ← String.toList_inj]
  refine ⟨congrArg _, fun heq => ?_⟩
  have hjoined := congrArg (List.intercalate [' ']) heq
  rwa [List.intercalate_splitOn, List.intercalate_splitOn] at hjoined

/-- The texts of two domains of symbols agree exactly when their symbols consist of the same
words. -/
theorem Normal.text_eq_iff_wordsOf (h : d.Normal) (h' : d'.Normal) (hkind : d.kind = .symbolic)
    (hkind' : d'.kind = .symbolic) : d.text = d'.text ↔ wordsOf d.symbols = wordsOf d'.symbols := by
  obtain ⟨hne, hatoms⟩ := h.atoms_eq hkind
  obtain ⟨hne', hatoms'⟩ := h'.atoms_eq hkind'
  rw [text_of_atoms_eq hatoms, text_of_atoms_eq hatoms', intercalate_eq_iff_wordsOf hne hne']

theorem wordsOf_eq {texts : List String} (h : ∀ text ∈ texts, ' ' ∉ text.toList) :
    wordsOf texts = texts.map String.toList := by
  rw [wordsOf, List.map_eq_flatMap]
  exact List.flatMap_congr fun text htext => List.splitOn_eq_singleton (h text htext)

/-- A domain whose symbols are without blanks is told by its text among those of its kind. -/
theorem Normal.text_eq_iff (h : d.Normal) (h' : d'.Normal) (hkind : d.kind = d'.kind)
    (hplain : d.kind = .integer ∨ ∀ text ∈ d.symbols ++ d'.symbols, ' ' ∉ text.toList) :
    d.text = d'.text ↔ d = d' := by
  refine ⟨fun htext => ?_, congrArg text⟩
  cases hd : d.kind with
  | integer =>
    exact Domain.eq_of_text_eq (h.symbols_eq_nil hd) (h'.symbols_eq_nil (hkind ▸ hd)) htext
  | symbolic =>
    have hd' := hkind ▸ hd
    have hplain := hplain.resolve_left (by rw [hd]; exact Kind.noConfusion)
    rw [h.text_eq_iff_wordsOf h' hd hd',
      wordsOf_eq fun text htext => hplain text (List.mem_append_left _ htext),
      wordsOf_eq fun text htext => hplain text (List.mem_append_right _ htext)] at htext
    have hsymbols : d.symbols = d'.symbols :=
      (List.map_injective_iff.mpr fun _ _ => String.toList_inj.mp) htext
    have hatoms : d.atoms = d'.atoms := by
      rw [(h.atoms_eq hd).2, (h'.atoms_eq hd').2, hsymbols]
    obtain ⟨atoms⟩ := d
    exact congrArg Domain.mk hatoms

end Domain

/-! ### Cells and rows -/

/-- Whether a text is neither empty nor that of a wildcard, and has none of the signs that stand
between and around the cells of a table. -/
def Text.IsToken (text : String) : Prop :=
  text ≠ "" ∧ text ≠ "*" ∧ ∀ c ∈ [' ', ',', '(', ')'], c ∉ text.toList

instance (text : String) : Decidable (Text.IsToken text) :=
  inferInstanceAs (Decidable (_ ∧ _ ∧ _))

namespace RowCell

/-- Whether the symbol of a cell, if it is one, can be told from the signs around it. -/
def IsPlain : RowCell → Prop
  | symbol text => Text.IsToken text
  | _ => True

theorem IsPlain.not_mem {cell : RowCell} (h : cell.IsPlain) {c : Char}
    (hc : c ∈ [' ', ',', '(', ')']) : c ∉ cell.text.toList := by
  cases cell with
  | integer n =>
    simp only [List.mem_cons, List.not_mem_nil, or_false] at hc
    rcases hc with rfl | rfl | rfl | rfl <;> exact not_mem_toString (by decide) (by decide) n
  | symbol text => exact h.2.2 c hc
  | any =>
    intro hmem
    obtain rfl : c = '*' := List.mem_singleton.mp hmem
    exact absurd hc (by decide)

/-- Cells that do not differ in their kinds are told by their texts. -/
theorem eq_of_text_eq {cell cell' : RowCell} (h : cell.IsPlain) (h' : cell'.IsPlain)
    (hkinds : ∀ kind ∈ cell.kind?, ∀ kind' ∈ cell'.kind?, kind = kind')
    (htext : cell.text = cell'.text) : cell = cell' := by
  have hstar : ∀ n : Int, toString n ≠ "*" := fun n hn => by
    have hmem : '*' ∈ (toString n).toList := by
      rw [hn]
      exact List.mem_singleton_self '*'
    exact not_mem_toString (by decide) (by decide) n hmem
  cases cell with
  | integer n =>
    cases cell' with
    | integer n' => exact congrArg integer (Int.toString_injective htext)
    | symbol text => cases hkinds _ rfl _ rfl
    | any => exact absurd htext (hstar n)
  | symbol text =>
    cases cell' with
    | integer n => cases hkinds _ rfl _ rfl
    | symbol text' => exact congrArg symbol htext
    | any => exact absurd htext h.2.1
  | any =>
    cases cell' with
    | integer n => exact absurd htext.symm (hstar n)
    | symbol text => exact absurd htext.symm h'.2.1
    | any => rfl

end RowCell

/-- Rows of one length, with cells of one kind in each column, beside wildcards. -/
structure Rows.Uniform (arity : Nat) (rows : List (List RowCell)) : Prop where
  length_eq : ∀ row ∈ rows, row.length = arity
  kind_unique : ∀ k kind kind', HasKind rows k kind → HasKind rows k kind' → kind = kind'

theorem Rows.Uniform.of_subset {arity : Nat} {rows list : List (List RowCell)}
    (h : Rows.Uniform arity rows) (hlist : ∀ row ∈ list, row ∈ rows) : Rows.Uniform arity list where
  length_eq row hrow := h.length_eq row (hlist row hrow)
  kind_unique := fun k kind kind' ⟨row, hrow, hkind⟩ ⟨row', hrow', hkind'⟩ =>
    h.kind_unique k kind kind' ⟨row, hlist row hrow, hkind⟩ ⟨row', hlist row' hrow', hkind'⟩

namespace Document

/-- What stands between the parentheses of a row. -/
def rowBody (row : List RowCell) : List Char :=
  [','].intercalate (row.map fun cell => cell.text.toList)

theorem toList_join_rowText (rows : List (List RowCell)) :
    (String.join (rows.map rowText)).toList =
      rows.flatMap fun row => '(' :: (rowBody row ++ [')']) := by
  rw [String.toList_join, List.flatMap_map]
  refine List.flatMap_congr fun row _ => ?_
  rw [rowText, String.toList_append, String.toList_append, String.toList_intercalate, List.map_map]
  rfl

/-- What is in parentheses is told apart from what follows it. -/
theorem map_rowBody_injective {rows rows' : List (List RowCell)}
    (hrows : ∀ row ∈ rows, ')' ∉ rowBody row) (hrows' : ∀ row ∈ rows', ')' ∉ rowBody row)
    (h : (rows.flatMap fun row => '(' :: (rowBody row ++ [')'])) =
      rows'.flatMap fun row => '(' :: (rowBody row ++ [')'])) :
    rows.map rowBody = rows'.map rowBody := by
  induction rows generalizing rows' with
  | nil =>
    cases rows' with
    | nil => rfl
    | cons row' rest' => cases h
  | cons row rest ih =>
    cases rows' with
    | nil => cases h
    | cons row' rest' =>
      obtain ⟨hrow, hrest⟩ := List.forall_mem_cons.mp hrows
      obtain ⟨hrow', hrest'⟩ := List.forall_mem_cons.mp hrows'
      simp only [List.flatMap_cons, List.cons_append, List.append_assoc, List.nil_append,
        List.cons.injEq, true_and] at h
      obtain ⟨hbody, htail⟩ := append_cons_inj hrow hrow' h
      rw [List.map_cons, List.map_cons, hbody, ih hrest hrest' htail]

/-- Rows of one length whose cells are told apart by their texts are told by their bodies. -/
theorem eq_of_rowBody_eq {row row' : List RowCell} (hlength : row.length = row'.length)
    (h : ∀ cell ∈ row, cell.IsPlain) (h' : ∀ cell ∈ row', cell.IsPlain)
    (hkinds : ∀ k : Nat, ∀ kind ∈ row[k]?.bind RowCell.kind?, ∀ kind' ∈ row'[k]?.bind RowCell.kind?,
      kind = kind') (hbody : rowBody row = rowBody row') : row = row' := by
  by_cases hnil : row = []
  · subst hnil
    exact (List.eq_nil_of_length_eq_zero hlength.symm).symm
  have hnil' : row' ≠ [] := fun heq =>
    hnil (List.eq_nil_of_length_eq_zero (by rw [hlength, heq]; rfl))
  have htexts : row.map (fun cell => cell.text.toList) = row'.map fun cell => cell.text.toList := by
    refine intercalate_injective ?_ ?_ (mt List.map_eq_nil_iff.mp hnil)
      (mt List.map_eq_nil_iff.mp hnil') hbody
    · exact List.forall_mem_map.mpr fun cell hcell => (h cell hcell).not_mem (by decide)
    · exact List.forall_mem_map.mpr fun cell hcell => (h' cell hcell).not_mem (by decide)
  refine List.ext_getElem hlength fun k hk hk' => ?_
  refine RowCell.eq_of_text_eq (h _ (List.getElem_mem hk)) (h' _ (List.getElem_mem hk')) ?_ ?_
  · simpa [List.getElem?_eq_getElem hk, List.getElem?_eq_getElem hk'] using hkinds k
  · have htext := congrArg (·[k]?) htexts
    refine String.toList_inj.mp ?_
    simpa [List.getElem?_map, List.getElem?_eq_getElem hk, List.getElem?_eq_getElem hk'] using htext

/-! ### Tables over one variable -/

theorem unaryCells?_map {cells : List RowCell} (h : ∀ cell ∈ cells, cell.kind?.isSome = true) :
    unaryCells? (cells.map fun cell => [cell]) = some cells := by
  rw [unaryCells?, mapM_eq_some_iff, List.forall₂_map_left_iff, List.forall₂_same]
  intro cell hcell
  cases cell with
  | any => cases h _ hcell
  | _ => rfl

theorem integerCells?_map (values : List Int) :
    integerCells? (values.map .integer) = some values := by
  rw [integerCells?, mapM_eq_some_iff, List.forall₂_map_left_iff, List.forall₂_same]
  exact fun _ _ => rfl

/-- Integers in a single column are written like a domain. -/
theorem rowsText_integers {values : List Int} (hne : values ≠ []) : ∃ d,
    Domain.ofIntegers values = .ok d ∧ rowsText (values.map fun n => [.integer n]) = d.text := by
  have hcells : unaryCells? ((values.map .integer).map fun cell => [cell]) =
      some (values.map .integer) := unaryCells?_map (List.forall_mem_map.mpr fun _ _ => rfl)
  rw [List.map_map] at hcells
  have hvalues := integerCells?_map values
  obtain ⟨first, rest, rfl⟩ := List.exists_cons_of_ne_nil hne
  refine ⟨_, rfl, ?_⟩
  show rowsText (List.map ((fun cell => [cell]) ∘ RowCell.integer) (first :: rest)) = _
  rw [rowsText, hcells]
  simp only [hvalues]
  rfl

/-- Symbols in a single column are written with blanks between them. -/
theorem rowsText_symbols {texts : List String} (hne : texts ≠ []) :
    rowsText (texts.map fun text => [.symbol text]) = " ".intercalate texts := by
  have hcells : unaryCells? ((texts.map .symbol).map fun cell => [cell]) =
      some (texts.map .symbol) := unaryCells?_map (List.forall_mem_map.mpr fun _ _ => rfl)
  rw [List.map_map] at hcells
  obtain ⟨first, rest, rfl⟩ := List.exists_cons_of_ne_nil hne
  have hnone : integerCells? ((first :: rest).map .symbol) = none := rfl
  show rowsText (List.map ((fun cell => [cell]) ∘ RowCell.symbol) (first :: rest)) = _
  rw [rowsText, hcells]
  simp only [hnone, Option.map_none]
  rw [List.map_map]
  exact congrArg _ (List.map_id _)

/-- What rows can be written as. -/
inductive RowsForm : List (List RowCell) → Prop
  | empty : RowsForm []
  | integers {values : List Int} : values ≠ [] → RowsForm (values.map fun n => [.integer n])
  | symbols {texts : List String} : texts ≠ [] → RowsForm (texts.map fun text => [.symbol text])
  | enclosed {rows : List (List RowCell)} : rows ≠ [] →
      rowsText rows = String.join (rows.map rowText) → RowsForm rows

theorem unaryCells?_eq_some {rows : List (List RowCell)} {cells : List RowCell}
    (h : unaryCells? rows = some cells) :
    rows = cells.map (fun cell => [cell]) ∧ ∀ cell ∈ cells, cell.kind?.isSome = true := by
  rw [unaryCells?, mapM_eq_some_iff] at h
  induction h with
  | nil => exact ⟨rfl, fun _ h => nomatch h⟩
  | @cons row cell rows cells hcell _ ih =>
    obtain ⟨rfl, hkinds⟩ := ih
    obtain ⟨rfl, hkind⟩ : row = [cell] ∧ cell.kind?.isSome = true := by
      split at hcell
      · cases hcell
      · rename_i cell' hany
        cases hcell
        refine ⟨rfl, ?_⟩
        cases cell with
        | any => exact absurd rfl (hany ·)
        | _ => rfl
      · cases hcell
    exact ⟨rfl, List.forall_mem_cons.mpr ⟨hkind, hkinds⟩⟩

/-- Cells of one kind are integers or symbols. -/
theorem exists_of_kind? {cells : List RowCell} {kind : Kind}
    (h : ∀ cell ∈ cells, cell.kind? = some kind) :
    (kind = .integer ∧ ∃ values : List Int, cells = values.map .integer) ∨
      kind = .symbolic ∧ ∃ texts : List String, cells = texts.map .symbol := by
  cases kind with
  | integer =>
    refine .inl ⟨rfl, ?_⟩
    induction cells with
    | nil => exact ⟨[], rfl⟩
    | cons cell rest ih =>
      obtain ⟨hcell, hrest⟩ := List.forall_mem_cons.mp h
      obtain ⟨values, rfl⟩ := ih hrest
      cases cell with
      | integer n => exact ⟨n :: values, rfl⟩
      | _ => cases hcell
  | symbolic =>
    refine .inr ⟨rfl, ?_⟩
    induction cells with
    | nil => exact ⟨[], rfl⟩
    | cons cell rest ih =>
      obtain ⟨hcell, hrest⟩ := List.forall_mem_cons.mp h
      obtain ⟨texts, rfl⟩ := ih hrest
      cases cell with
      | symbol text => exact ⟨text :: texts, rfl⟩
      | _ => cases hcell

/-- Rows with one kind of literals in each column are written in one of the forms. -/
theorem rowsForm {arity : Nat} {rows : List (List RowCell)}
    (h : Rows.Uniform arity rows) : RowsForm rows := by
  cases hcells : unaryCells? rows with
  | none =>
    refine .enclosed ?_ (by rw [rowsText, hcells])
    rintro rfl
    cases hcells
  | some cells =>
    obtain ⟨rfl, hsome⟩ := unaryCells?_eq_some hcells
    cases cells with
    | nil => exact .empty
    | cons first rest =>
      obtain ⟨kind, hkind⟩ := Option.isSome_iff_exists.mp (hsome first List.mem_cons_self)
      have hhas : ∀ cell ∈ first :: rest, ∀ kind ∈ cell.kind?,
          Rows.HasKind ((first :: rest).map fun cell => [cell]) 0 kind := fun cell hcell kind hk =>
        ⟨[cell], List.mem_map_of_mem hcell, hk⟩
      have hsame : ∀ cell ∈ first :: rest, cell.kind? = some kind := fun cell hcell => by
        obtain ⟨kind', hkind'⟩ := Option.isSome_iff_exists.mp (hsome cell hcell)
        rw [hkind', h.kind_unique 0 kind' kind (hhas cell hcell kind' hkind')
          (hhas first List.mem_cons_self kind hkind)]
      -- the literals of the column are of one kind, and none of the cells is a wildcard
      rcases exists_of_kind? hsame with ⟨-, values, hvalues⟩ | ⟨-, texts, htexts⟩
      · rw [hvalues, List.map_map]
        refine .integers ?_
        rintro rfl
        cases hvalues
      · rw [htexts, List.map_map]
        refine .symbols ?_
        rintro rfl
        cases htexts

/-! ### Words and marks of tables -/

/-- Whether a character is one of the marks between and around the values of a table. -/
def isMark (c : Char) : Bool := c ∈ [' ', ',', '(', ')']

/-- The words between the marks of a table in the order they are written.  In a table over
several variables the empty word stands ahead of every row and at the end. -/
def wordsOf (rows : List (List RowCell)) : List (List Char) :=
  let words (cell : RowCell) := cell.text.toList.splitOnP isMark
  if (unaryCells? rows).isSome then rows.flatten.flatMap words
  else (rows.flatMap fun row => [] :: row.flatMap words) ++ [[]]

/-- The marks of a table in the order they are written: those that its values have, and those
between and around them. -/
def marksOf (rows : List (List RowCell)) : List Char :=
  let marks (cell : RowCell) := cell.text.toList.filter isMark
  if (unaryCells? rows).isSome then [' '].intercalate (rows.flatten.map marks)
  else rows.flatMap fun row => '(' :: ([','].intercalate (row.map marks) ++ [')'])

theorem splitOnP_rowBodies {rows : List (List RowCell)} (h : ∀ row ∈ rows, row ≠ []) :
    (rows.flatMap fun row => '(' :: (rowBody row ++ [')'])).splitOnP isMark =
      (rows.flatMap fun row => [] :: row.flatMap fun cell => cell.text.toList.splitOnP isMark) ++
        [[]] := by
  induction rows with
  | nil => exact List.splitOnP_nil
  | cons row rest ih =>
    obtain ⟨hrow, hrest⟩ := List.forall_mem_cons.mp h
    have hbody : (rowBody row).splitOnP isMark =
        row.flatMap fun cell => cell.text.toList.splitOnP isMark := by
      rw [rowBody, splitOnP_intercalate (by decide) (mt List.map_eq_nil_iff.mp hrow),
        List.flatMap_map]
    have hopen : ∀ list, List.splitOnP isMark ('(' :: list) = [] :: list.splitOnP isMark :=
      fun list => (List.splitOnP_append_cons [] list (by decide)).trans
        (by rw [List.splitOnP_nil]; rfl)
    simp only [List.flatMap_cons, List.cons_append, List.append_assoc, List.nil_append, hopen]
    rw [List.splitOnP_append_cons _ _ (by decide), hbody, ih hrest]

theorem filter_rowBodies (rows : List (List RowCell)) :
    (rows.flatMap fun row => '(' :: (rowBody row ++ [')'])).filter isMark =
      rows.flatMap fun row => '(' ::
        ([','].intercalate (row.map fun cell => cell.text.toList.filter isMark) ++ [')']) := by
  rw [List.filter_flatMap]
  refine List.flatMap_congr fun row _ => ?_
  rw [List.filter_cons_of_pos (by decide), List.filter_append, rowBody,
    filter_intercalate (by decide), List.map_map]
  rfl

/-- What is written of a table is cut into its words by its marks, unless it is a list of
integers. -/
theorem splitOnP_rowsText {rows : List (List RowCell)} (hne : rows ≠ [])
    (hrows : ∀ row ∈ rows, row ≠ [] ∧ ∀ n, row ≠ [.integer n]) :
    (rowsText rows).toList.splitOnP isMark = wordsOf rows ∧
      (rowsText rows).toList.filter isMark = marksOf rows := by
  rw [wordsOf, marksOf]
  cases hcells : unaryCells? rows with
  | none =>
    have htext : rowsText rows = String.join (rows.map rowText) := by rw [rowsText, hcells]
    rw [htext, toList_join_rowText]
    exact ⟨splitOnP_rowBodies fun row hrow => (hrows row hrow).1, filter_rowBodies rows⟩
  | some cells =>
    obtain ⟨rfl, hsome⟩ := unaryCells?_eq_some hcells
    have hsymbols : ∀ cell ∈ cells, cell.kind? = some .symbolic := fun cell hcell => by
      obtain ⟨-, hinteger⟩ := hrows [cell] (List.mem_map_of_mem hcell)
      cases cell with
      | integer n => exact absurd rfl (hinteger n)
      | symbol text => rfl
      | any => cases hsome _ hcell
    obtain ⟨texts, rfl⟩ : ∃ texts : List String, cells = texts.map .symbol :=
      (exists_of_kind? hsymbols).elim (fun h => nomatch h.1) And.right
    have htexts : texts ≠ [] := fun hnil => hne (by rw [hnil]; rfl)
    have hflatten : (texts.map fun text => [RowCell.symbol text]).flatten = texts.map .symbol :=
      List.flatMap_def.symm.trans List.map_eq_flatMap.symm
    have hrows : (texts.map RowCell.symbol).map (fun cell => [cell]) =
        texts.map fun text => [.symbol text] := List.map_map
    have hchars : (rowsText (texts.map fun text => [.symbol text])).toList =
        [' '].intercalate (texts.map String.toList) := by
      rw [rowsText_symbols htexts, String.toList_intercalate]
      rfl
    rw [hrows, hchars, hflatten,
      splitOnP_intercalate (by decide) (mt List.map_eq_nil_iff.mp htexts),
      filter_intercalate (by decide), List.flatMap_map, List.map_map]
    simp [List.flatMap_map, RowCell.text, Function.comp_def]

/-- Tables that are no lists of integers have one text exactly if they have the same words with
the same marks between them. -/
theorem rowsText_eq_iff {rows rows' : List (List RowCell)} (hne : rows ≠ []) (hne' : rows' ≠ [])
    (hrows : ∀ row ∈ rows ++ rows', row ≠ [] ∧ ∀ n, row ≠ [.integer n]) :
    rowsText rows = rowsText rows' ↔
      wordsOf rows = wordsOf rows' ∧ marksOf rows = marksOf rows' := by
  obtain ⟨hleft, hright⟩ := List.forall_mem_append.mp hrows
  obtain ⟨hwords, hmarks⟩ := splitOnP_rowsText hne hleft
  obtain ⟨hwords', hmarks'⟩ := splitOnP_rowsText hne' hright
  rw [← String.toList_inj, eq_iff_splitOnP_eq isMark, hwords, hwords', hmarks, hmarks']

/-! ### Tables -/

/-- Lists of rows that ascend strictly are told by their members. -/
theorem eq_of_ascending {rows rows' : List (List RowCell)}
    (h : rows.Pairwise fun row row' => compare row row' = .lt)
    (h' : rows'.Pairwise fun row row' => compare row row' = .lt)
    (hmem : ∀ row, row ∈ rows ↔ row ∈ rows') : rows = rows' := by
  let Precedes (row row' : List RowCell) : Prop := compare row row' = .lt
  have hasymm : ∀ row row', Precedes row row' → ¬Precedes row' row := fun row row' hlt hgt => by
    have hswap : compare row row' = (compare row' row).swap := Std.OrientedCmp.eq_swap
    rw [hgt, show compare row row' = .lt from hlt] at hswap
    cases hswap
  have hirrefl : Std.Irrefl Precedes := ⟨fun row hlt => hasymm row row hlt hlt⟩
  have hantisymm : Std.Antisymm Precedes :=
    ⟨fun row row' hlt hgt => absurd hgt (hasymm row row' hlt)⟩
  exact List.Pairwise.eq_of_mem_iff h h' hmem

theorem text_ofIntegers_ne_empty {values : List Int} {d : Domain}
    (h : Domain.ofIntegers values = .ok d) (hne : values ≠ []) : d.text ≠ "" := by
  intro htext
  have hread := Domain.ranges?_text (Domain.symbols_ofIntegers h)
  have hnone : d.atoms = [] := by
    rw [htext] at hread
    exact List.map_eq_nil_iff.mp (Option.some.inj hread).symm
  obtain ⟨n, rest, rfl⟩ := List.exists_cons_of_ne_nil hne
  have hcontains := (Domain.contains_ofIntegers h).mpr (List.mem_cons_self : n ∈ n :: rest)
  rw [Domain.contains, hnone] at hcontains
  cases hcontains

theorem paren_not_mem_integers {values : List Int} (hne : values ≠ []) :
    '(' ∉ (rowsText (values.map fun n => [.integer n])).toList := by
  obtain ⟨d, hd, hrows⟩ := rowsText_integers hne
  intro hmem
  rw [hrows, Domain.text, String.toList_intercalate] at hmem
  rcases mem_intercalate hmem with hblank | ⟨_, hchars, hmem⟩
  · cases hblank
  · rw [List.map_map] at hchars
    obtain ⟨a, ha, rfl⟩ := List.mem_map.mp hchars
    have hsymbol := List.filterMap_eq_nil_iff.mp (Domain.symbols_ofIntegers hd) a ha
    rcases Atom.mem_text hsymbol hmem with hdigit | hsign
    · exact absurd hdigit (by decide)
    · exact absurd hsign (by decide)

theorem paren_not_mem_symbols {texts : List String} (hne : texts ≠ [])
    (h : ∀ text ∈ texts, Text.IsToken text) :
    '(' ∉ (rowsText (texts.map fun text => [.symbol text])).toList := by
  intro hmem
  rw [rowsText_symbols hne, String.toList_intercalate] at hmem
  rcases mem_intercalate hmem with hblank | ⟨_, hchars, hmem⟩
  · cases hblank
  · obtain ⟨text, htext, rfl⟩ := List.mem_map.mp hchars
    exact (h text htext).2.2 '(' (by decide) hmem

theorem paren_mem_enclosed {rows : List (List RowCell)} (hne : rows ≠ [])
    (hrows : rowsText rows = String.join (rows.map rowText)) : '(' ∈ (rowsText rows).toList := by
  obtain ⟨row, rest, rfl⟩ := List.exists_cons_of_ne_nil hne
  rw [hrows, toList_join_rowText, List.flatMap_cons]
  exact List.mem_cons_self

/-- Nothing is written only of a table without rows, and of the empty symbol alone. -/
theorem RowsForm.text_eq_empty_iff {rows : List (List RowCell)} (h : RowsForm rows) :
    rowsText rows = "" ↔ rows = [] ∨ rows = [[.symbol ""]] := by
  refine ⟨fun htext => ?_, by rintro (rfl | rfl) <;> rfl⟩
  cases h with
  | empty => exact .inl rfl
  | @integers values hne =>
    obtain ⟨d, hd, hrows⟩ := rowsText_integers hne
    exact absurd (hrows.symm.trans htext) (text_ofIntegers_ne_empty hd hne)
  | @symbols texts hne =>
    obtain ⟨text, rest, rfl⟩ := List.exists_cons_of_ne_nil hne
    have hchars := congrArg String.toList ((rowsText_symbols hne).symm.trans htext)
    rw [String.toList_intercalate, List.map_cons] at hchars
    cases rest with
    | nil =>
      rw [List.map_nil, List.intercalate_singleton] at hchars
      obtain rfl : text = "" := String.toList_inj.mp hchars
      exact .inr rfl
    | cons next rest =>
      rw [List.map_cons, List.intercalate_cons_cons] at hchars
      simp at hchars
  | enclosed hne hrows =>
    have hmem := paren_mem_enclosed hne hrows
    rw [htext] at hmem
    cases hmem

theorem hasKind_integers {values : List Int} (hne : values ≠ []) {rows : List (List RowCell)}
    (hrows : ∀ row ∈ values.map (fun n => [RowCell.integer n]), row ∈ rows) :
    Rows.HasKind rows 0 .integer := by
  obtain ⟨n, rest, rfl⟩ := List.exists_cons_of_ne_nil hne
  exact ⟨_, hrows _ List.mem_cons_self, rfl⟩

theorem hasKind_symbols {texts : List String} (hne : texts ≠ []) {rows : List (List RowCell)}
    (hrows : ∀ row ∈ texts.map (fun text => [RowCell.symbol text]), row ∈ rows) :
    Rows.HasKind rows 0 .symbolic := by
  obtain ⟨text, rest, rfl⟩ := List.exists_cons_of_ne_nil hne
  exact ⟨_, hrows _ List.mem_cons_self, rfl⟩

/-- Rows of integers in a single column are told by what they are written as. -/
theorem eq_of_text_eq_integers {values values' : List Int} (hne : values ≠ []) (hne' : values' ≠ [])
    (h : (values.map fun n => [RowCell.integer n]).Pairwise fun row row' => compare row row' = .lt)
    (h' : (values'.map fun n => [RowCell.integer n]).Pairwise
      fun row row' => compare row row' = .lt)
    (htext : rowsText (values.map fun n => [.integer n]) =
      rowsText (values'.map fun n => [.integer n])) :
    values.map (fun n => [RowCell.integer n]) = values'.map fun n => [.integer n] := by
  obtain ⟨d, hd, hrows⟩ := rowsText_integers hne
  obtain ⟨d', hd', hrows'⟩ := rowsText_integers hne'
  rw [hrows, hrows'] at htext
  obtain rfl : d = d' :=
    Domain.eq_of_text_eq (Domain.symbols_ofIntegers hd) (Domain.symbols_ofIntegers hd') htext
  have hmem : ∀ n, n ∈ values ↔ n ∈ values' := fun n =>
    (Domain.contains_ofIntegers hd).symm.trans (Domain.contains_ofIntegers hd')
  refine eq_of_ascending h h' fun row => ?_
  simp only [List.mem_map, hmem]

/-- Rows in parentheses are told by what they are written as. -/
theorem eq_of_text_eq_enclosed {arity : Nat} {rows rows' : List (List RowCell)}
    (huniform : Rows.Uniform arity (rows ++ rows'))
    (hplain : ∀ row ∈ rows ++ rows', ∀ cell ∈ row, cell.IsPlain)
    (htext : String.join (rows.map rowText) = String.join (rows'.map rowText)) : rows = rows' := by
  have hbody : ∀ row ∈ rows ++ rows', ')' ∉ rowBody row := fun row hrow hmem => by
    rcases mem_intercalate hmem with hcomma | ⟨_, hchars, hmem⟩
    · cases hcomma
    · obtain ⟨cell, hcell, rfl⟩ := List.mem_map.mp hchars
      exact (hplain row hrow cell hcell).not_mem (by decide) hmem
  have hchars := congrArg String.toList htext
  rw [toList_join_rowText, toList_join_rowText] at hchars
  have hbodies := map_rowBody_injective
    (fun row hrow => hbody row (List.mem_append_left _ hrow))
    (fun row hrow => hbody row (List.mem_append_right _ hrow)) hchars
  refine eq_of_map_eq (fun row hrow row' hrow' => ?_) hbodies
  have hleft : row ∈ rows ++ rows' := List.mem_append_left _ hrow
  have hright : row' ∈ rows ++ rows' := List.mem_append_right _ hrow'
  refine eq_of_rowBody_eq
    ((huniform.length_eq row hleft).trans (huniform.length_eq row' hright).symm) (hplain row hleft)
    (hplain row' hright) fun k kind hkind kind' hkind' => ?_
  exact huniform.kind_unique k kind kind' ⟨row, hleft, hkind⟩ ⟨row', hright, hkind'⟩

/-- Rows of one length that ascend strictly, with cells of one kind in each column, are told by
what they are written as if all symbols are tokens. -/
theorem rows_eq_of_rowsText_eq {arity : Nat} {rows rows' : List (List RowCell)}
    (huniform : Rows.Uniform arity (rows ++ rows'))
    (h : rows.Pairwise fun row row' => compare row row' = .lt)
    (h' : rows'.Pairwise fun row row' => compare row row' = .lt)
    (hplain : ∀ row ∈ rows ++ rows', ∀ cell ∈ row, cell.IsPlain)
    (htext : rowsText rows = rowsText rows') : rows = rows' := by
  have hleft : ∀ row ∈ rows, row ∈ rows ++ rows' := fun row => List.mem_append_left rows'
  have hright : ∀ row ∈ rows', row ∈ rows ++ rows' := fun row => List.mem_append_right rows
  have hform : ∀ {list : List (List RowCell)}, (∀ row ∈ list, row ∈ rows ++ rows') →
      RowsForm list := fun hlist => rowsForm (huniform.of_subset hlist)
  have htokens : ∀ {texts : List String}, (∀ row ∈ texts.map fun text => [.symbol text],
      row ∈ rows ++ rows') → ∀ text ∈ texts, Text.IsToken text := fun hlist text ht =>
    hplain _ (hlist _ (List.mem_map_of_mem ht)) (.symbol text) List.mem_cons_self
  have hnil : ∀ {list : List (List RowCell)}, (∀ row ∈ list, row ∈ rows ++ rows') →
      rowsText list = "" → list = [] := fun hlist htext => by
    refine ((hform hlist).text_eq_empty_iff.mp htext).resolve_right ?_
    rintro rfl
    exact (hplain [.symbol ""] (hlist _ List.mem_cons_self) _ List.mem_cons_self).1 rfl
  -- A table over one variable is written without parentheses, and in a single column the cells of
  -- both lists are of one kind: so both lists are written in the same form.
  have hmixed : Rows.HasKind (rows ++ rows') 0 .integer →
      ¬Rows.HasKind (rows ++ rows') 0 .symbolic := fun hinteger hsymbolic =>
    nomatch huniform.kind_unique 0 _ _ hinteger hsymbolic
  cases hform hleft with
  | empty => exact (hnil hright htext.symm).symm
  | @integers values hne =>
    cases hform hright with
    | empty => exact hnil hleft htext
    | @integers values' hne' => exact eq_of_text_eq_integers hne hne' h h' htext
    | @symbols texts' hne' =>
      exact absurd (hasKind_symbols hne' hright) (hmixed (hasKind_integers hne hleft))
    | enclosed hne' hrows' =>
      exact absurd (htext ▸ paren_mem_enclosed hne' hrows') (paren_not_mem_integers hne)
  | @symbols texts hne =>
    cases hform hright with
    | empty => exact hnil hleft htext
    | @integers values' hne' =>
      exact absurd (hasKind_symbols hne hleft) (hmixed (hasKind_integers hne' hright))
    | @symbols texts' hne' =>
      rw [rowsText_symbols hne, rowsText_symbols hne'] at htext
      rw [intercalate_texts_injective rfl
        (fun text ht => (htokens hleft text ht).2.2 ' ' (by decide))
        (fun text ht => (htokens hright text ht).2.2 ' ' (by decide)) hne hne' htext]
    | enclosed hne' hrows' =>
      exact absurd (htext ▸ paren_mem_enclosed hne' hrows')
        (paren_not_mem_symbols hne (htokens hleft))
  | enclosed hne hrows =>
    cases hform hright with
    | empty => exact hnil hleft htext
    | @integers values' hne' =>
      exact absurd (htext ▸ paren_mem_enclosed hne hrows) (paren_not_mem_integers hne')
    | @symbols texts' hne' =>
      exact absurd (htext ▸ paren_mem_enclosed hne hrows)
        (paren_not_mem_symbols hne' (htokens hright))
    | enclosed hne' hrows' =>
      exact eq_of_text_eq_enclosed huniform hplain (hrows.symm.trans (htext.trans hrows'))

/-- A symbol that looks like a wildcard is written like one. -/
example : rowsText [[.symbol "*", .symbol "a"]] = rowsText [[.any, .symbol "a"]] := rfl

/-- The integers of rows in a single column are read off what they are written as. -/
theorem reads_rowsText_iff {values : List Int} (hfits : ∀ n ∈ values, Fits n) :
    (Reader.ranges? (rowsText (values.map fun n => [.integer n]))).isSome = true ∧
    ∀ n, Reader.Reads (rowsText (values.map fun n => [.integer n])) n ↔ n ∈ values ∨
      (n < lowest ∧ lowest ∈ values ∧ lowest + 1 ∈ values ∧ lowest + 2 ∈ values) ∨
      (highest < n ∧ highest ∈ values ∧ highest - 1 ∈ values ∧ highest - 2 ∈ values) := by
  cases values with
  | nil =>
    have hnone : ∀ n, ¬Reader.Reads "" n := by
      rintro n ⟨_, hread, _, hmem, -⟩
      cases hread
      cases hmem
    refine ⟨rfl, fun n => ?_⟩
    show Reader.Reads "" n ↔ _
    simpa using hnone n
  | cons first rest =>
    obtain ⟨d, hd, hrows⟩ := rowsText_integers (List.cons_ne_nil first rest)
    rw [hrows]
    refine ⟨?_, fun n => Domain.reads_ofIntegers_iff hfits hd⟩
    rw [Domain.ranges?_text (Domain.symbols_ofIntegers hd)]
    rfl

/-- What the texts of values tell.

* Domains of one kind that are described have one text only if they are equal, or if they have
  symbols that consist of the same words.
* Uniform rows in ascending order are told by what they are written as if all symbols are tokens.
* Symbols in a single column are told up to their words.
* Rows of several cells, and symbols and wildcards in a single column, have one text exactly if
  they have the same words with the same marks between them.
* Besides a table without rows only that of the empty symbol alone is written as nothing.
* The integers read off a table over one variable are those of its rows, and those beyond an end
  of the range of integers where three of its own lie. -/
theorem texts_determine_values (d d' : Domain) (arity : Nat) (rows rows' : List (List RowCell))
    (texts texts' : List String) (values : List Int) :
    (d.Built → d'.Built → d.kind = d'.kind →
      (d.kind = .integer ∨ (∀ text ∈ d.symbols ++ d'.symbols, ' ' ∉ text.toList) →
        (d.text = d'.text ↔ d = d')) ∧
      (d.kind = .symbolic →
        (d.text = d'.text ↔ Domain.wordsOf d.symbols = Domain.wordsOf d'.symbols))) ∧
    (Rows.Uniform arity (rows ++ rows') →
      (rows.Pairwise fun row row' => compare row row' = .lt) →
      (rows'.Pairwise fun row row' => compare row row' = .lt) →
      (∀ row ∈ rows ++ rows', ∀ cell ∈ row, cell.IsPlain) →
      (rowsText rows = rowsText rows' ↔ rows = rows')) ∧
    (texts ≠ [] → texts' ≠ [] →
      (rowsText (texts.map fun text => [.symbol text]) =
        rowsText (texts'.map fun text => [.symbol text]) ↔
          Domain.wordsOf texts = Domain.wordsOf texts')) ∧
    (rows ≠ [] → rows' ≠ [] → (∀ row ∈ rows ++ rows', row ≠ [] ∧ ∀ n, row ≠ [.integer n]) →
      (rowsText rows = rowsText rows' ↔
        wordsOf rows = wordsOf rows' ∧ marksOf rows = marksOf rows')) ∧
    (Rows.Uniform arity rows → (rowsText rows = "" ↔ rows = [] ∨ rows = [[.symbol ""]])) ∧
    ((∀ n ∈ values, Fits n) →
      (Reader.ranges? (rowsText (values.map fun n => [.integer n]))).isSome = true ∧
      ∀ n, Reader.Reads (rowsText (values.map fun n => [.integer n])) n ↔ n ∈ values ∨
        (n < lowest ∧ lowest ∈ values ∧ lowest + 1 ∈ values ∧ lowest + 2 ∈ values) ∨
        (highest < n ∧ highest ∈ values ∧ highest - 1 ∈ values ∧ highest - 2 ∈ values)) := by
  refine ⟨fun h h' hkind => ?_, fun huniform h h' hplain => ?_, fun hne hne' => ?_,
    rowsText_eq_iff, fun huniform => (rowsForm huniform).text_eq_empty_iff, reads_rowsText_iff⟩
  · exact ⟨h.normal.text_eq_iff h'.normal hkind,
      fun hd => h.normal.text_eq_iff_wordsOf h'.normal hd (hkind ▸ hd)⟩
  · exact ⟨rows_eq_of_rowsText_eq huniform h h' hplain, congrArg rowsText⟩
  · rw [rowsText_symbols hne, rowsText_symbols hne']
    exact Domain.intercalate_eq_iff_wordsOf hne hne'

end Document

namespace Mixed

/-- The words of two letters in one symbol. -/
def spaced : Domain := ⟨[.symbol "a b"]⟩

def starred : List (List RowCell) := [[.symbol "a", .any], [.symbol "b", .integer 1]]

def counted : List (List RowCell) := [[.symbol "a", .integer 0]]

/-- The comma belongs to the first symbol of the row. -/
def commaFirst : List (List RowCell) := [[.symbol "a,b", .symbol "c"]]

/-- The comma belongs to the second symbol of the row. -/
def commaSecond : List (List RowCell) := [[.symbol "a", .symbol "b,c"]]

theorem uniform : Rows.Uniform 2 (starred ++ counted) := by
  have hkinds : ∀ k kind, Rows.HasKind (starred ++ counted) k kind →
      (k = 0 ∧ kind = .symbolic) ∨ k = 1 ∧ kind = .integer := by
    rintro k kind ⟨row, hrow, hkind⟩
    simp only [starred, counted, List.cons_append, List.nil_append, List.mem_cons,
      List.not_mem_nil, or_false] at hrow
    rcases k with _ | _ | k
    · rcases hrow with rfl | rfl | rfl <;> cases hkind <;> simp
    · rcases hrow with rfl | rfl | rfl <;> cases hkind <;> simp
    · rcases hrow with rfl | rfl | rfl <;> cases hkind
  refine ⟨by decide, fun k kind kind' h h' => ?_⟩
  rcases hkinds k kind h with ⟨rfl, rfl⟩ | ⟨rfl, rfl⟩
  · rcases hkinds 0 kind' h' with ⟨-, rfl⟩ | ⟨hcolumn, -⟩
    · rfl
    · cases hcolumn
  · rcases hkinds 1 kind' h' with ⟨hcolumn, -⟩ | ⟨-, rfl⟩
    · cases hcolumn
    · rfl

/-- Two letters and the symbol made of them have one text, as domains and as tables; so have two
rows with a comma in either symbol.  Tables with tokens are told apart, and four integers are
read off a range and a single one. -/
theorem letters_spaced_alike :
    (letters.Built ∧ spaced.Built ∧ letters ≠ spaced ∧ letters.text = spaced.text) ∧
    Document.rowsText starred ≠ Document.rowsText counted ∧
    Document.rowsText [[.symbol "a"], [.symbol "b"]] = Document.rowsText [[.symbol "a b"]] ∧
    (commaFirst ≠ commaSecond ∧ Document.rowsText commaFirst = Document.rowsText commaSecond) ∧
    Document.rowsText starred ≠ "" ∧
    ∀ n, Reader.Reads (Document.rowsText ([1, 2, 3, 5].map fun n => [.integer n])) n ↔
      n ∈ [1, 2, 3, 5] := by
  obtain ⟨hdomains, hrows, hsymbols, -, hempty, hintegers⟩ := Document.texts_determine_values
    letters spaced 2 starred counted ["a", "b"] ["a b"] [1, 2, 3, 5]
  obtain ⟨-, -, -, hcommas, -⟩ := Document.texts_determine_values
    letters spaced 2 commaFirst commaSecond [] [] []
  have hletters : Domain.ofSpec (.collection [.symbol "a", .symbol "b"]) = .ok letters := by
    cbv
  have hspaced : Domain.ofSpec (.collection [.symbol "a b"]) = .ok spaced := by
    cbv
  have hbuilt : letters.Built := .ofSpec (by decide) hletters
  have hbuilt' : spaced.Built := .ofSpec (by decide) hspaced
  refine ⟨⟨hbuilt, hbuilt', by decide, ?_⟩, fun heq => ?_, ?_, ⟨by decide, ?_⟩, fun heq => ?_,
    fun n => ?_⟩
  · exact ((hdomains hbuilt hbuilt' rfl).2 rfl).mpr (by decide)
  · have hplain : ∀ row ∈ starred ++ counted, ∀ cell ∈ row, cell.IsPlain := by
      simp [starred, counted, RowCell.IsPlain, Text.IsToken]
    have hsame := (hrows uniform (by decide) (by decide) hplain).mp heq
    exact absurd hsame (by decide)
  · exact (hsymbols (List.cons_ne_nil _ _) (List.cons_ne_nil _ _)).mpr (by decide)
  · have hwide : ∀ row ∈ commaFirst ++ commaSecond, row ≠ [] ∧ ∀ n, row ≠ [.integer n] := by
      simp [commaFirst, commaSecond]
    exact (hcommas (by decide) (by decide) hwide).mpr (by decide)
  · have huniform := uniform.of_subset fun row => List.mem_append_left counted
    exact absurd ((hempty huniform).mp heq) (by decide)
  · rw [(hintegers (by decide)).2 n]
    simp [lowest, highest]

end Mixed

end CspModel
