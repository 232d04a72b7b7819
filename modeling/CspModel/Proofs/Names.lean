import CspModel.Proofs.Lists
import CspModel.Store

/-! # Names

What is given a name is called by an identifier, the cell of an array by the name of the
array and the indices of the cell in brackets.  No identifier has a bracket, so the name
of a cell tells the array and the indices (`VarArray.cellName_inj`).  A generated name is
a letter and a number, and the number is one that is still free.
-/
namespace CspModel

namespace Text

/-- The characters of names. -/
def isNameChar (c : Char) : Bool := isIdentifierRest c || c == '[' || c == ']'

theorem isIdentifierRest_of_isIdentifierStart {c : Char} (h : isIdentifierStart c = true) :
    isIdentifierRest c = true := by
  rcases Bool.or_eq_true_iff.mp h with h | h
  · simp [isIdentifierRest, Char.isAlphanum, h]
  · simp [isIdentifierRest, h]

theorem isIdentifierRest_of_isDigit {c : Char} (h : c.isDigit = true) :
    isIdentifierRest c = true := by
  simp [isIdentifierRest, Char.isAlphanum, h]

/-- What begins an identifier begins no number. -/
theorem not_isDigit_of_isIdentifierStart {c : Char} (h : isIdentifierStart c = true) :
    c.isDigit = false ∧ c ≠ '-' := by
  constructor
  · rw [Bool.eq_false_iff]
    intro hdigit
    rcases Bool.or_eq_true_iff.mp h with h | h
    · simp only [Char.isAlpha, Char.isUpper, Char.isLower, Char.isDigit, Bool.or_eq_true,
        Bool.and_eq_true, decide_eq_true_eq, UInt32.le_iff_toNat_le, ge_iff_le] at h hdigit
      have hnine : '9'.val.toNat = 57 := rfl
      have hupper : 'A'.val.toNat = 65 := rfl
      have hlower : 'a'.val.toNat = 97 := rfl
      omega
    · rw [beq_iff_eq.mp h] at hdigit
      exact absurd hdigit (by decide)
  · rintro rfl
    exact absurd h (by decide)

/-- An identifier consists of letters, digits and underscores. -/
theorem isIdentifierRest_of_mem {text : String} (h : isIdentifier text = true) {c : Char}
    (hc : c ∈ text.toList) : isIdentifierRest c = true := by
  unfold isIdentifier at h
  split at h
  · cases h
  · rename_i first rest htext
    obtain ⟨hfirst, hrest⟩ := Bool.and_eq_true_iff.mp h
    rw [htext] at hc
    rcases List.mem_cons.mp hc with rfl | hc
    · exact isIdentifierRest_of_isIdentifierStart hfirst
    · exact List.all_eq_true.mp hrest c hc

/-- An identifier has no bracket. -/
theorem not_mem_of_isIdentifier {text : String} (h : isIdentifier text = true) :
    '[' ∉ text.toList := by
  intro hc
  exact absurd (isIdentifierRest_of_mem h hc) (by decide)

end Text

theorem Nat.isDigit_of_mem_repr {n : Nat} {c : Char} (h : c ∈ n.repr.toList) :
    c.isDigit = true := by
  rw [Nat.toList_repr] at h
  exact Nat.isDigit_of_mem_toDigits (by decide) (by decide) h

theorem Nat.repr_injective {m n : Nat} (h : m.repr = n.repr) : m = n := by
  have h := congrArg String.toList h
  rw [Nat.toList_repr, Nat.toList_repr] at h
  have h := congrArg (Nat.ofDigitChars 10 · 0) h
  simpa only [Nat.ofDigitChars_ten_toDigits] using h

/-! ### Subscripts -/

namespace Grid

theorem subscript_cons (index : Nat) (indices : List Nat) :
    (subscript (index :: indices)).toList =
      '[' :: (index.repr.toList ++ ']' :: (subscript indices).toList) := by
  simp [subscript, String.join_cons, String.toList_append, toString]

theorem isNameChar_of_mem_subscript {indices : List Nat} {c : Char}
    (h : c ∈ (subscript indices).toList) : Text.isNameChar c = true := by
  induction indices with
  | nil => cases h
  | cons index rest ih =>
    rw [subscript_cons] at h
    simp only [List.mem_cons, List.mem_append] at h
    rcases h with rfl | h | rfl | h
    · decide
    · have := Text.isIdentifierRest_of_isDigit (Nat.isDigit_of_mem_repr h)
      simp [Text.isNameChar, this]
    · decide
    · exact ih h

/-- A subscript tells the indices. -/
theorem subscript_injective {indices indices' : List Nat}
    (h : subscript indices = subscript indices') : indices = indices' := by
  have hclose : ∀ n : Nat, ']' ∉ n.repr.toList := fun n hn =>
    absurd (Nat.isDigit_of_mem_repr hn) (by decide)
  induction indices generalizing indices' with
  | nil =>
    cases indices' with
    | nil => rfl
    | cons index rest =>
      have := congrArg String.toList h
      rw [subscript_cons] at this
      cases this
  | cons index rest ih =>
    have h := congrArg String.toList h
    cases indices' with
    | nil =>
      rw [subscript_cons] at h
      cases h
    | cons index' rest' =>
      rw [subscript_cons, subscript_cons] at h
      obtain ⟨hindex, hrest⟩ := append_cons_inj (hclose index) (hclose index')
        (List.cons.inj h).2
      rw [Nat.repr_injective (String.toList_inj.mp hindex), ih (String.toList_inj.mp hrest)]

end Grid

namespace VarArray

theorem toList_cellName (name : String) (indices : List Nat) :
    (cellName name indices).toList = name.toList ++ (Grid.subscript indices).toList :=
  String.toList_append

theorem mem_cellName (name : String) {indices : List Nat} (h : indices ≠ []) :
    '[' ∈ (cellName name indices).toList := by
  cases indices with
  | nil => exact absurd rfl h
  | cons index rest =>
    rw [toList_cellName, Grid.subscript_cons]
    exact List.mem_append_right _ List.mem_cons_self

/-- The name of a cell tells the array and the indices. -/
theorem cellName_inj {name name' : String} {indices indices' : List Nat}
    (hname : '[' ∉ name.toList) (hname' : '[' ∉ name'.toList) (hne : indices ≠ [])
    (hne' : indices' ≠ []) (h : cellName name indices = cellName name' indices') :
    name = name' ∧ indices = indices' := by
  have h := congrArg String.toList h
  rw [toList_cellName, toList_cellName] at h
  obtain ⟨index, rest, rfl⟩ := List.exists_cons_of_ne_nil hne
  obtain ⟨index', rest', rfl⟩ := List.exists_cons_of_ne_nil hne'
  have hopen := h
  rw [Grid.subscript_cons, Grid.subscript_cons] at hopen
  obtain ⟨heq, _⟩ := append_cons_inj hname hname' hopen
  rw [heq] at h
  exact ⟨String.toList_inj.mp heq,
    Grid.subscript_injective (String.toList_inj.mp (List.append_cancel_left h))⟩

end VarArray

/-! ### Names that are given -/

namespace Store

theorem isIdentifier_generated {letter : String} (hletter : Text.isIdentifier letter = true)
    (n : Nat) : Text.isIdentifier s!"{letter}{n}" = true := by
  have htext : (s!"{letter}{n}").toList = letter.toList ++ n.repr.toList := by
    simp [toString, String.toList_append]
  unfold Text.isIdentifier at hletter ⊢
  rw [htext]
  split at hletter
  · cases hletter
  · rename_i first rest hlist
    obtain ⟨hfirst, hrest⟩ := Bool.and_eq_true_iff.mp hletter
    have hdigits : n.repr.toList.all Text.isIdentifierRest = true :=
      List.all_eq_true.mpr fun c hc => Text.isIdentifierRest_of_isDigit (Nat.isDigit_of_mem_repr hc)
    rw [hlist, List.cons_append]
    simp only [List.all_append, hfirst, hrest, hdigits, Bool.and_self]

theorem generated_injective {letter : String} {m n : Nat} (h : s!"{letter}{m}" = s!"{letter}{n}") :
    m = n := by
  have h := congrArg String.toList h
  simp only [toString, String.toList_append] at h
  exact Nat.repr_injective (String.toList_inj.mp (List.append_cancel_left h))

/-- One of the candidates is free, because there are more of them than names in use. -/
theorem freshNumber_not_mem (used : List String) (letter : String) (counter : Nat) :
    s!"{letter}{freshNumber used letter counter}" ∉ used := by
  unfold freshNumber
  cases hfind : ((List.range (used.length + 1)).map (counter + ·)).find? fun k =>
      !used.contains s!"{letter}{k}" with
  | some k => simpa using List.find?_some hfind
  | none =>
    have hall := List.find?_eq_none.mp hfind
    have hsub : (List.range (used.length + 1)).map (fun k => s!"{letter}{counter + k}") ⊆ used := by
      intro name hname
      obtain ⟨k, hk, rfl⟩ := List.mem_map.mp hname
      simpa using hall (counter + k) (List.mem_map.mpr ⟨k, hk, rfl⟩)
    have hnodup : ((List.range (used.length + 1)).map fun k => s!"{letter}{counter + k}").Nodup :=
      List.Nodup.map (fun m n hmn => Nat.add_left_cancel (generated_injective hmn))
        List.nodup_range
    have hle := (List.subperm_of_subset hnodup hsub).length_le
    rw [List.length_map, List.length_range] at hle
    exact absurd hle (Nat.not_succ_le_self _)

/-- The numbers passed over on the way from the counter are in use. -/
theorem mem_of_lt_freshNumber {used : List String} {letter : String} {counter k : Nat}
    (hk : counter ≤ k) (hlt : k < freshNumber used letter counter) : s!"{letter}{k}" ∈ used := by
  unfold freshNumber at hlt
  cases hfind : ((List.range (used.length + 1)).map (counter + ·)).find? fun k =>
      !used.contains s!"{letter}{k}" with
  | none =>
    rw [hfind, Option.getD_none] at hlt
    omega
  | some n =>
    rw [hfind, Option.getD_some] at hlt
    obtain ⟨_, i, hi, rfl, hbefore⟩ := List.find?_eq_some_iff_getElem.mp hfind
    rw [List.getElem_map, List.getElem_range] at hlt
    have hused := hbefore (k - counter) (by omega)
    rw [List.getElem_map, List.getElem_range, Nat.add_sub_cancel' hk] at hused
    simpa using hused

theorem le_freshNumber (used : List String) (letter : String) (counter : Nat) :
    counter ≤ freshNumber used letter counter := by
  unfold freshNumber
  cases hfind : ((List.range (used.length + 1)).map (counter + ·)).find? fun k =>
      !used.contains s!"{letter}{k}" with
  | none => exact Nat.le_refl _
  | some n =>
    obtain ⟨i, _, rfl⟩ := List.mem_map.mp (List.mem_of_find?_eq_some hfind)
    exact Nat.le_add_right _ _

end Store

end CspModel
