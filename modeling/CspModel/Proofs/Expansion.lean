import CspModel.Proofs.Addressing
import CspModel.Proofs.Lossless
import CspModel.Text.Blank

/-! # Compact lists are read back

A reader of a document takes a list word by word (`Store.expand`).  The name of an array
with brackets after it stands for the cells of a box in row-major order, an integer with a
count for its copies, and any other word for itself.  Whatever tokens a list is written
with, the reader finds the texts of the parameters, one by one and in their order.

What a token stands for composes (`Store.Says`): the tokens of a list say the texts of its
parameters because those of every stretch do, and within a stretch those of every sequence
of cells.  A sequence is followed cell by cell; the invariant is that its cells have the
indices of its start with the one index counted up (`Sequence.Follows`).
-/
namespace CspModel

/-! ### The reader -/

namespace Reader

/-- The number that some characters write. -/
def number? (chars : List Char) : Option Nat :=
  if chars.isEmpty || !chars.all Char.isDigit then none else some (Nat.ofDigitChars 10 chars 0)

/-- Whether the characters write an integer. -/
def isInteger : List Char → Bool
  | '-' :: digits => (number? digits).isSome
  | digits => (number? digits).isSome

/-- The texts of a token such as `1x5`. -/
def copies? (token : String) : Option (List String) :=
  let value := token.toList.takeWhile (· != 'x')
  if isInteger value then
    (number? ((token.toList.dropWhile (· != 'x')).drop 1)).map fun count =>
      List.replicate count (String.ofList value)
  else none

/-- The indices of a span, of which `chars` stand between the brackets: all of the
dimension, one or those from one to another. -/
def span? (size : Nat) (chars : List Char) : Option (List Nat) :=
  match chars.splitOn '.' with
  | [[]] => some (List.range size)
  | [index] => (number? index).map fun index => [index]
  | [first, [], last] =>
    (number? first).bind fun first => (number? last).map fun last =>
      List.range' first (last + 1 - first)
  | _ => none

/-- The indices in every dimension; what follows an opening bracket has to be closed. -/
def spans? : List Nat → List (List Char) → Option (List (List Nat))
  | [], [] => some []
  | size :: sizes, piece :: rest =>
    if piece.getLast? = some ']' then
      (span? size piece.dropLast).bind fun indices => (spans? sizes rest).map (indices :: ·)
    else none
  | _, _ => none

/-- The words of a text. -/
def words (text : String) : List String :=
  ((text.toList.splitOn ' ').filter fun word => !word.isEmpty).map String.ofList

end Reader

namespace Store

/-- The array that a token begins with and the indices of its spans. -/
def box? (s : Store) (token : String) : Option (VarArray × List (List Nat)) :=
  (s.arrayNamed? (String.ofList (token.toList.takeWhile (· != '[')))).bind fun a =>
    (Reader.spans? a.shape (((token.toList.dropWhile (· != '[')).splitOn '[').drop 1)).map fun ranges =>
      (a, ranges)

/-- The texts a token stands for; a box with a hole stands for nothing. -/
def expandToken (s : Store) (token : String) : Option (List String) :=
  match s.box? token with
  | some (a, ranges) => (Rows.choices ranges).mapM fun indices => (a.get? indices).map s.nameOf
  | none => some ((Reader.copies? token).getD [token])

/-- The texts that the text of a list stands for. -/
def expand (s : Store) (text : String) : Option (List String) :=
  ((Reader.words text).mapM s.expandToken).map List.flatten

end Store

/-! ### Words -/

namespace Text

/-- Whether the text is one word. -/
def IsWord (text : String) : Prop := text ≠ "" ∧ ∀ c ∈ text.toList, isBlank c = false

theorem IsWord.not_mem {text : String} (h : IsWord text) : ' ' ∉ text.toList := fun hmem =>
  absurd (h.2 ' ' hmem) (by decide)

/-- A visible ASCII character is no blank. -/
theorem isBlank_eq_false {c : Char} (h : 0x20 < c.toNat ∧ c.toNat < 0x80) : isBlank c = false := by
  rw [Bool.eq_false_iff, isBlank, ne_eq, inRanges_iff]
  rintro ⟨r, hr, hc⟩
  simp only [blankRanges, List.mem_cons, List.not_mem_nil, or_false] at hr
  rcases hr with rfl | rfl | rfl | rfl | rfl | rfl | rfl | rfl | rfl | rfl <;> omega

theorem isBlank_of_isNameChar {c : Char} (h : isNameChar c = true) : isBlank c = false := by
  have hvisible : 0x20 < c.val.toNat ∧ c.val.toNat < 0x80 := by
    simp only [isNameChar, isIdentifierRest, Char.isAlphanum, Char.isAlpha, Char.isUpper,
      Char.isLower, Char.isDigit, Bool.or_eq_true, Bool.and_eq_true, decide_eq_true_eq, beq_iff_eq,
      UInt32.le_iff_toNat_le, ge_iff_le] at h
    have hvalues : 'A'.val.toNat = 65 ∧ 'Z'.val.toNat = 90 ∧ 'a'.val.toNat = 97 ∧
        'z'.val.toNat = 122 ∧ '0'.val.toNat = 48 ∧ '9'.val.toNat = 57 := by decide
    rcases h with ((h | rfl) | rfl) | rfl
    · omega
    · decide
    · decide
    · decide
  exact isBlank_eq_false hvisible

theorem isBlank_of_isDigit {c : Char} (h : c.isDigit = true) : isBlank c = false :=
  isBlank_of_isNameChar (by simp [isNameChar, isIdentifierRest_of_isDigit h])

theorem isBlank_of_isExpressionChar {c : Char} (h : isExpressionChar c = true) :
    isBlank c = false := by
  rcases Bool.or_eq_true_iff.mp h with h | h
  · exact isBlank_of_isNameChar h
  · simp only [List.contains_eq_mem, decide_eq_true_eq, List.mem_cons, List.not_mem_nil,
      or_false] at h
    rcases h with rfl | rfl | rfl | rfl <;> decide

end Text

/-! ### Numbers and spans -/

namespace Reader

theorem repr_ne_nil (n : Nat) : n.repr.toList ≠ [] := by
  rw [Nat.toList_repr]
  exact Nat.toDigits_ne_nil

theorem not_mem_repr {c : Char} (hc : c.isDigit = false) (n : Nat) : c ∉ n.repr.toList := by
  intro h
  rw [Nat.isDigit_of_mem_repr h] at hc
  cases hc

theorem number?_repr (n : Nat) : number? n.repr.toList = some n := by
  have hdigits : n.repr.toList.all Char.isDigit = true :=
    List.all_eq_true.mpr fun c hc => Nat.isDigit_of_mem_repr hc
  have hne : n.repr.toList.isEmpty = false := List.isEmpty_eq_false_iff.mpr (repr_ne_nil n)
  rw [number?, hdigits, hne, Nat.toList_repr, Nat.ofDigitChars_ten_toDigits]
  rfl

theorem isInteger_toString (n : Int) : isInteger (toString n).toList = true := by
  rw [Int.toString_eq_repr, Int.repr_eq_if]
  split
  · have hminus : ∀ digits, n.toNat.repr.toList ≠ '-' :: digits := fun digits h =>
      absurd (Nat.isDigit_of_mem_repr (h ▸ List.mem_cons_self)) (by decide)
    unfold isInteger
    split
    · rename_i digits h
      exact absurd h (hminus digits)
    · rw [number?_repr]
      rfl
  · rw [String.toList_append]
    show (number? (_ : Nat).repr.toList).isSome = true
    rw [number?_repr]
    rfl

/-- Characters that begin like no integer write none. -/
theorem isInteger_eq_false {chars : List Char}
    (h : ∀ c ∈ chars.head?, c.isDigit = false ∧ c ≠ '-') : isInteger chars = false := by
  cases chars with
  | nil => rfl
  | cons c rest =>
    obtain ⟨hdigit, hminus⟩ := h c rfl
    unfold isInteger
    split
    · rename_i digits heq
      exact absurd (List.cons.inj heq).1 hminus
    · simp [number?, hdigit]

theorem span?_index (size index : Nat) : span? size index.repr.toList = some [index] := by
  have hsplit : (['.'].intercalate [index.repr.toList]).splitOn '.' = [index.repr.toList] :=
    List.splitOn_intercalate '.' (fun l hl => List.mem_singleton.mp hl ▸
      not_mem_repr (by decide) index) (List.cons_ne_nil _ _)
  rw [List.intercalate_singleton] at hsplit
  have hread := number?_repr index
  obtain ⟨c, rest, hlist⟩ := List.exists_cons_of_ne_nil (repr_ne_nil index)
  rw [span?, hsplit]
  rw [hlist] at hread ⊢
  show (number? (c :: rest)).map _ = _
  rw [hread]
  rfl

theorem span?_between (size first last : Nat) :
    span? size (first.repr.toList ++ '.' :: '.' :: last.repr.toList) =
      some (List.range' first (last + 1 - first)) := by
  have hdot : ∀ l ∈ [first.repr.toList, [], last.repr.toList], '.' ∉ l := by
    simp only [List.mem_cons, List.not_mem_nil, or_false]
    rintro l (rfl | rfl | rfl)
    · exact not_mem_repr (by decide) first
    · exact List.not_mem_nil
    · exact not_mem_repr (by decide) last
  have hsplit := List.splitOn_intercalate '.' hdot (List.cons_ne_nil _ _)
  have htext : ['.'].intercalate [first.repr.toList, [], last.repr.toList] =
      first.repr.toList ++ '.' :: '.' :: last.repr.toList := by
    simp [List.intercalate_cons_cons]
  rw [← htext, span?, hsplit]
  simp only [number?_repr]
  rfl

/-- What stands between the brackets of a span. -/
def spanText (first last size : Nat) : String :=
  if first = 0 ∧ last + 1 = size then ""
  else if first = last then toString first
  else toString first ++ ".." ++ toString last

theorem span_eq (first last size : Nat) :
    ListText.span first last size = "[" ++ spanText first last size ++ "]" := by
  unfold ListText.span spanText
  split
  · rfl
  · split
    · rfl
    · simp [toString, String.append_assoc]

/-- A span is read as the indices from the first to the last. -/
theorem span?_spanText {first last : Nat} (h : first ≤ last) (size : Nat) :
    span? size (spanText first last size).toList =
      some (List.range' first (last + 1 - first)) := by
  unfold spanText
  split
  · rename_i hwhole
    obtain ⟨rfl, rfl⟩ := hwhole
    rw [Nat.sub_zero, ← List.range_eq_range']
    rfl
  · split
    · rename_i heq
      subst heq
      rw [Nat.add_sub_cancel_left]
      exact span?_index size first
    · rw [String.toList_append, String.toList_append, List.append_assoc]
      exact span?_between size first last

/-- What can stand in brackets: neither another bracket nor a blank. -/
def IsPlain (text : String) : Prop := '[' ∉ text.toList ∧ ∀ c ∈ text.toList, Text.isBlank c = false

theorem isPlain_of_digits {text : String} (h : ∀ c ∈ text.toList, c.isDigit = true ∨ c = '.') :
    IsPlain text := by
  refine ⟨fun hmem => ?_, fun c hc => ?_⟩
  · rcases h '[' hmem with h | h
    · exact absurd h (by decide)
    · cases h
  · rcases h c hc with h | rfl
    · exact Text.isBlank_of_isDigit h
    · decide

theorem isPlain_index (index : Nat) : IsPlain (toString index) :=
  isPlain_of_digits fun _ hc => .inl (Nat.isDigit_of_mem_repr hc)

theorem isPlain_spanText (first last size : Nat) : IsPlain (spanText first last size) := by
  unfold spanText
  split
  · exact isPlain_of_digits fun c hc => nomatch hc
  · split
    · exact isPlain_index first
    · refine isPlain_of_digits fun c hc => ?_
      rw [String.toList_append, String.toList_append] at hc
      rcases List.mem_append.mp hc with hc | hc
      · rcases List.mem_append.mp hc with hc | hc
        · exact .inl (Nat.isDigit_of_mem_repr hc)
        · exact .inr (by simpa using hc)
      · exact .inl (Nat.isDigit_of_mem_repr hc)

theorem spans?_cons {size : Nat} {chars : List Char} {indices : List Nat}
    (h : span? size chars = some indices) (sizes : List Nat) (rest : List (List Char)) :
    spans? (size :: sizes) ((chars ++ [']']) :: rest) = (spans? sizes rest).map (indices :: ·) := by
  rw [spans?, if_pos (by simp), List.dropLast_concat, h]
  rfl

theorem spans?_indices {sizes indices : List Nat} (h : indices.length = sizes.length) :
    spans? sizes ((indices.map toString).map fun t => t.toList ++ [']']) =
      some (indices.map fun index => [index]) := by
  induction sizes generalizing indices with
  | nil =>
    obtain rfl := List.eq_nil_of_length_eq_zero h
    rfl
  | cons size sizes ih =>
    obtain ⟨index, rest, rfl⟩ := List.exists_cons_of_length_eq_add_one h
    have hindex : span? size (toString index).toList = some [index] := span?_index size index
    rw [List.map_cons, List.map_cons, spans?_cons hindex, ih (Nat.succ.inj h)]
    rfl

end Reader

/-! ### Tokens -/

namespace Store

variable {s : Store}

/-- Texts in brackets, one after the other. -/
def bracketed (texts : List String) : String := String.join (texts.map fun t => "[" ++ t ++ "]")

theorem toList_bracketed (texts : List String) :
    (bracketed texts).toList = ['['].intercalate ([] :: texts.map fun t => t.toList ++ [']']) := by
  rw [intercalate_nil_cons, bracketed, String.toList_join, List.flatMap_map, List.flatMap_map]
  refine List.flatMap_congr fun t _ => ?_
  simp [String.toList_append]

theorem head?_bracketed (texts : List String) : ∀ c ∈ (bracketed texts).toList.head?, c = '[' := by
  rw [toList_bracketed, intercalate_nil_cons]
  cases texts <;> simp

/-- Texts in brackets are told apart by their opening brackets. -/
theorem splitOn_bracketed {texts : List String} (htexts : ∀ t ∈ texts, '[' ∉ t.toList) :
    (bracketed texts).toList.splitOn '[' = [] :: texts.map fun t => t.toList ++ [']'] := by
  rw [toList_bracketed]
  refine List.splitOn_intercalate '[' (fun piece hpiece => ?_) (List.cons_ne_nil _ _)
  rcases List.mem_cons.mp hpiece with rfl | hpiece
  · exact List.not_mem_nil
  · obtain ⟨t, ht, rfl⟩ := List.mem_map.mp hpiece
    simp [htexts t ht]

theorem subscript_eq_bracketed (indices : List Nat) :
    Grid.subscript indices = bracketed (indices.map toString) := by
  simp [Grid.subscript, bracketed, toString, Function.comp_def]

/-- The name of a cell is a token of its array. -/
theorem cellName_eq_bracketed (name : String) (indices : List Nat) :
    VarArray.cellName name indices = name ++ bracketed (indices.map toString) := by
  rw [VarArray.cellName, subscript_eq_bracketed]

/-- A token of an array tells the array and the indices in its brackets. -/
theorem Inventory.box?_eq (hs : s.Inventory) {key : Nat} {a : VarArray}
    (ha : s.arrays.get? key = some a) {texts : List String} {ranges : List (List Nat)}
    (htexts : ∀ t ∈ texts, '[' ∉ t.toList)
    (h : Reader.spans? a.shape (texts.map fun t => t.toList ++ [']']) = some ranges) :
    s.box? (a.name ++ bracketed texts) = some (a, ranges) := by
  obtain ⟨hname, hrest⟩ := takeWhile_dropWhile_ne
    (Text.not_mem_of_isIdentifier (hs.arrays ha).1) (head?_bracketed texts)
  rw [box?, String.toList_append, hname, hrest, splitOn_bracketed htexts, String.ofList_toList,
    hs.arrayNamed?_eq ha, Option.bind_some, List.drop_one, List.tail_cons, h]
  rfl

/-- A text whose beginning, up to a bracket, is no identifier is no token of an array. -/
theorem Inventory.box?_eq_none (hs : s.Inventory) {token : String} {c : Char}
    (hc : c ∈ token.toList.takeWhile (· != '[')) (hrest : Text.isIdentifierRest c = false) :
    s.box? token = none := by
  unfold box?
  cases hfind : s.arrayNamed? (String.ofList (token.toList.takeWhile (· != '['))) with
  | none => rfl
  | some a =>
    obtain ⟨key, ha, hname⟩ := exists_of_arrayNamed? hfind
    have hmem : c ∈ a.name.toList := by
      rw [hname, String.toList_ofList]
      exact hc
    rw [Text.isIdentifierRest_of_mem (hs.arrays ha).1 hmem] at hrest
    cases hrest

/-- The name of an array has to be followed by brackets. -/
theorem Inventory.box?_eq_none_of_not_mem (hs : s.Inventory) {token : String}
    (h : '[' ∉ token.toList) : s.box? token = none := by
  obtain ⟨hname, hrest⟩ := takeWhile_dropWhile_ne_self h
  unfold box?
  rw [hname, hrest]
  cases hfind : s.arrayNamed? (String.ofList token.toList) with
  | none => rfl
  | some a =>
    obtain ⟨key, ha, -⟩ := exists_of_arrayNamed? hfind
    obtain ⟨size, sizes, hshape⟩ := List.exists_cons_of_ne_nil (hs.arrays ha).2.1
    rw [Option.bind_some, hshape]
    rfl

end Store

theorem Reader.copies?_eq_none {token : String}
    (h : ∀ c ∈ token.toList.head?, c.isDigit = false ∧ c ≠ '-') : copies? token = none := by
  have hvalue : isInteger (token.toList.takeWhile (· != 'x')) = false :=
    isInteger_eq_false fun c hc => by
      cases hlist : token.toList with
      | nil => simp [hlist] at hc
      | cons first rest =>
        rw [hlist, List.takeWhile_cons] at hc
        split at hc
        · exact h c (by rw [hlist]; exact hc)
        · cases hc
  rw [copies?]
  simp only [hvalue]
  rfl

theorem Reader.copies?_eq_none_of_not_mem {token : String} (h : 'x' ∉ token.toList) :
    copies? token = none := by
  obtain ⟨hvalue, hrest⟩ := takeWhile_dropWhile_ne_self h
  unfold copies?
  simp only [hvalue, hrest]
  split <;> rfl

theorem Reader.copies?_eq (value : Int) (count : Nat) :
    copies? (toString value ++ "x" ++ toString count) =
      some (List.replicate count (toString value)) := by
  have hvalue : 'x' ∉ (toString value).toList := fun h => by
    rcases mem_toString h with h | h
    · exact absurd h (by decide)
    · exact absurd h (by decide)
  have htext : (toString value ++ "x" ++ toString count).toList =
      (toString value).toList ++ 'x' :: count.repr.toList := by
    simp [String.toList_append, toString]
  obtain ⟨htake, hdrop⟩ := takeWhile_dropWhile_ne hvalue
    fun c (hc : c ∈ ('x' :: count.repr.toList).head?) => (Option.some.inj hc).symm
  unfold copies?
  rw [htext]
  simp only [htake, hdrop]
  rw [if_pos (isInteger_toString value), List.drop_one, List.tail_cons, number?_repr,
    String.ofList_toList]
  rfl

/-! ### What tokens say -/

namespace Store

/-- The tokens are words and stand for the texts. -/
structure Says (s : Store) (tokens texts : List String) : Prop where
  words : ∀ t ∈ tokens, Text.IsWord t
  expands : (tokens.mapM s.expandToken).map List.flatten = some texts

theorem Says.nil (s : Store) : s.Says [] [] := ⟨fun _ h => (nomatch h), rfl⟩

theorem Says.single {s : Store} {token : String} {texts : List String} (hword : Text.IsWord token)
    (h : s.expandToken token = some texts) : s.Says [token] texts := by
  refine ⟨fun t ht => ?_, by simp [h]⟩
  rwa [List.mem_singleton.mp ht]

theorem Says.append {s : Store} {tokens tokens' texts texts' : List String}
    (h : s.Says tokens texts) (h' : s.Says tokens' texts') :
    s.Says (tokens ++ tokens') (texts ++ texts') := by
  refine ⟨fun t ht => (List.mem_append.mp ht).elim (h.words t) (h'.words t), ?_⟩
  obtain ⟨lists, hlists, rfl⟩ := Option.map_eq_some_iff.mp h.expands
  obtain ⟨lists', hlists', rfl⟩ := Option.map_eq_some_iff.mp h'.expands
  rw [List.mapM_append, hlists, hlists', Option.map_eq_some_iff]
  exact ⟨lists ++ lists', rfl, List.flatten_append⟩

/-- What the tokens of all parts say, the tokens of the whole say. -/
theorem Says.flatMap {s : Store} {α : Type} {list : List α} {f g : α → List String}
    (h : ∀ a ∈ list, s.Says (f a) (g a)) : s.Says (list.flatMap f) (list.flatMap g) := by
  induction list with
  | nil => exact Says.nil s
  | cons a rest ih =>
    rw [List.flatMap_cons, List.flatMap_cons]
    exact (h a List.mem_cons_self).append (ih fun b hb => h b (List.mem_cons_of_mem a hb))

theorem Says.map {s : Store} {α : Type} {list : List α} {f : α → String}
    (h : ∀ a ∈ list, s.Says [f a] [f a]) : s.Says (list.map f) (list.map f) := by
  have hmap : list.map f = list.flatMap fun a => [f a] := List.map_eq_flatMap
  rw [hmap]
  exact Says.flatMap h

/-- A text is cut at its blanks. -/
theorem words_intercalate {tokens : List String} (h : ∀ t ∈ tokens, Text.IsWord t) :
    Reader.words (" ".intercalate tokens) = tokens := by
  unfold Reader.words
  rw [String.toList_intercalate]
  cases tokens with
  | nil => rfl
  | cons token rest =>
    have hblank : ∀ chars ∈ (token :: rest).map String.toList, ' ' ∉ chars := fun chars hchars => by
      obtain ⟨t, ht, rfl⟩ := List.mem_map.mp hchars
      exact (h t ht).not_mem
    have hsplit := List.splitOn_intercalate ' ' hblank (List.cons_ne_nil _ _)
    have hnonempty : ∀ word ∈ (token :: rest).map String.toList, (!word.isEmpty) = true :=
      fun word hword => by
        obtain ⟨t, ht, rfl⟩ := List.mem_map.mp hword
        simpa using (h t ht).1
    show ((([' '].intercalate _).splitOn ' ').filter _).map _ = _
    rw [hsplit, List.filter_eq_self.mpr hnonempty, List.map_map]
    simp [Function.comp_def]

/-- The reader finds what the tokens say. -/
theorem Says.expand {s : Store} {tokens texts : List String} (h : s.Says tokens texts) :
    s.expand (" ".intercalate tokens) = some texts := by
  rw [Store.expand, words_intercalate h.words, h.expands]

end Store

/-! ### Parameters -/

/-- The variables of a parameter. -/
def Parameter.variables : Parameter → List Variable
  | .var v => [v]
  | .expression e => e.occurrences
  | _ => []

/-- Whether a text begins like a name. -/
def Text.BeginsName (text : String) : Prop :=
  ∃ c ∈ text.toList.head?, isIdentifierStart c = true

theorem Text.beginsName_of_isIdentifier {text : String} (h : isIdentifier text = true) :
    BeginsName text := by
  unfold isIdentifier at h
  split at h
  · cases h
  · rename_i first rest htext
    exact ⟨first, by rw [htext]; rfl, (Bool.and_eq_true_iff.mp h).1⟩

theorem Text.BeginsName.append {text : String} (h : BeginsName text) (rest : String) :
    BeginsName (text ++ rest) := by
  obtain ⟨c, hc, hstart⟩ := h
  obtain ⟨chars, hchars⟩ := List.head?_eq_some_iff.mp hc
  exact ⟨c, by rw [String.toList_append, hchars]; rfl, hstart⟩

theorem Text.BeginsName.ne_empty {text : String} (h : BeginsName text) : text ≠ "" := by
  rintro rfl
  obtain ⟨c, hc, -⟩ := h
  cases hc

/-- What begins like a name is no run of equal integers. -/
theorem Text.BeginsName.copies?_eq_none {text : String} (h : BeginsName text) :
    Reader.copies? text = none := by
  obtain ⟨c, hc, hstart⟩ := h
  refine Reader.copies?_eq_none fun c' hc' => ?_
  obtain rfl : c = c' := Option.some.inj (hc.symm.trans hc')
  exact not_isDigit_of_isIdentifierStart hstart

theorem beginsName_call {name : String} (h : Text.BeginsName name) (arguments : List String) :
    Text.BeginsName (Expr.call name arguments) := by
  unfold Expr.call
  rw [String.append_assoc, String.append_assoc]
  exact h.append _

theorem Operator.isIdentifier_name (op : Operator) : Text.isIdentifier op.name = true := by
  cases op <;> decide

theorem Aggregate.isIdentifier_kind {ε : Type} (f : Aggregate ε) :
    Text.isIdentifier f.kind = true := by
  cases f <;> (rw [kind]; decide)

namespace Store

variable {s : Store}

theorem expandToken_self {token : String} (hbox : s.box? token = none)
    (hcopies : Reader.copies? token = none) : s.expandToken token = some [token] := by
  rw [expandToken, hbox, hcopies]
  rfl

/-- A word without the signs of the other tokens stands for itself. -/
theorem Inventory.says_plain (hs : s.Inventory) {token : String} (hne : token ≠ "")
    (h : ∀ c ∈ token.toList, Text.isBlank c = false ∧ c ≠ '[' ∧ c ≠ 'x') :
    s.Says [token] [token] :=
  Says.single ⟨hne, fun c hc => (h c hc).1⟩ <|
    expandToken_self (hs.box?_eq_none_of_not_mem fun hmem => (h _ hmem).2.1 rfl)
      (Reader.copies?_eq_none_of_not_mem fun hmem => (h _ hmem).2.2 rfl)

/-- An application stands for itself: its name is followed by a parenthesis. -/
theorem Inventory.says_call (hs : s.Inventory) {name : String} {arguments : List String}
    (hname : Text.isIdentifier name = true)
    (hblank : ∀ c ∈ (Expr.call name arguments).toList, Text.isBlank c = false) :
    s.Says [Expr.call name arguments] [Expr.call name arguments] := by
  have hbegins := beginsName_call (Text.beginsName_of_isIdentifier hname) arguments
  refine Says.single ⟨hbegins.ne_empty, hblank⟩
    (expandToken_self (hs.box?_eq_none (c := '(') ?_ (by decide)) hbegins.copies?_eq_none)
  have hp : ∀ c ∈ name.toList, (c != '[') = true := fun c hc =>
    bne_iff_ne.mpr fun heq => Text.not_mem_of_isIdentifier hname (heq ▸ hc)
  rw [toList_call, List.takeWhile_append_of_pos hp, List.takeWhile_cons, if_pos (by decide)]
  exact List.mem_append_right _ List.mem_cons_self

/-! ### Cells -/

/-- The cells of one array. -/
def AreCells (s : Store) (key : Nat) (a : VarArray) (cells : List (Variable × Nat)) : Prop :=
  ∀ c ∈ cells, s.IsCell c.1 key c.2 a

/-- The index tuple of a cell. -/
def tupleOf (a : VarArray) (c : Variable × Nat) : List Nat := Grid.indices a.shape c.2

/-- The cells are found under their indices. -/
theorem AreCells.mapM_get {key : Nat} {a : VarArray} {cells : List (Variable × Nat)}
    (h : s.AreCells key a cells) :
    (cells.map (tupleOf a)).mapM (fun indices => (a.get? indices).map s.nameOf) =
      some (cells.map fun c => s.nameOf c.1) := by
  rw [List.mapM_map, mapM_eq_some_iff, List.forall₂_map_right_iff, List.forall₂_same]
  intro c hc
  rw [Function.comp_apply, tupleOf, (h c hc).get]
  rfl

/-- A token of an array says its cells if its spans choose their indices in their order. -/
theorem Inventory.says_box (hs : s.Inventory) {key : Nat} {a : VarArray}
    (ha : s.arrays.get? key = some a) {texts : List String} {ranges : List (List Nat)}
    {cells : List (Variable × Nat)} (hcells : s.AreCells key a cells)
    (htexts : ∀ t ∈ texts, Reader.IsPlain t)
    (hread : Reader.spans? a.shape (texts.map fun t => t.toList ++ [']']) = some ranges)
    (hchoices : Rows.choices ranges = cells.map (tupleOf a)) :
    s.Says [a.name ++ bracketed texts] (cells.map fun c => s.nameOf c.1) := by
  have hidentifier := (hs.arrays ha).1
  refine Says.single ⟨((Text.beginsName_of_isIdentifier hidentifier).append _).ne_empty, ?_⟩ ?_
  · rw [String.toList_append, toList_bracketed, intercalate_nil_cons]
    intro c hc
    rcases List.mem_append.mp hc with hc | hc
    · have hrest := Text.isIdentifierRest_of_mem hidentifier hc
      exact Text.isBlank_of_isNameChar (by simp [Text.isNameChar, hrest])
    · obtain ⟨piece, hpiece, hc⟩ := List.mem_flatMap.mp hc
      obtain ⟨t, ht, rfl⟩ := List.mem_map.mp hpiece
      simp only [List.mem_cons, List.mem_append, List.not_mem_nil, or_false] at hc
      rcases hc with rfl | hc | rfl
      · decide
      · exact (htexts t ht).2 c hc
      · decide
  · rw [expandToken, hs.box?_eq ha (fun t ht => (htexts t ht).1) hread]
    simp only [hchoices]
    exact hcells.mapM_get

/-- The name of a cell says the cell. -/
theorem Inventory.says_cell (hs : s.Inventory) {key : Nat} {a : VarArray} {c : Variable × Nat}
    (hc : s.IsCell c.1 key c.2 a) : s.Says [s.nameOf c.1] [s.nameOf c.1] := by
  have hname : s.nameOf c.1 = a.name ++ bracketed ((tupleOf a c).map toString) := by
    rw [hc.name, cellName_eq_bracketed, tupleOf]
  have hcells : s.AreCells key a [c] := fun c' hc' => by
    obtain rfl := List.mem_singleton.mp hc'
    exact hc
  have hsays : s.Says [a.name ++ bracketed ((tupleOf a c).map toString)] [s.nameOf c.1] := by
    refine hs.says_box hc.array hcells (fun t ht => ?_)
      (Reader.spans?_indices (Grid.length_indices a.shape c.2)) (Grid.choices_singletons _)
    obtain ⟨index, -, rfl⟩ := List.mem_map.mp ht
    exact Reader.isPlain_index index
  rwa [← hname] at hsays

theorem Inventory.says_cells (hs : s.Inventory) {key : Nat} {a : VarArray}
    {cells : List (Variable × Nat)} (hcells : s.AreCells key a cells) :
    s.Says (cells.map fun c => s.nameOf c.1) (cells.map fun c => s.nameOf c.1) :=
  Says.map fun c hc => hs.says_cell (hcells c hc)

end Store

/-! ### Boxes -/

theorem corners_le {rows : List (List Nat)} {low high : List Nat}
    (h : List.Forall₂ (· ≤ ·) low high) (hrows : ∀ row ∈ rows, row.length = low.length) :
    List.Forall₂ (· ≤ ·) (rows.foldl (List.zipWith min) low)
      (rows.foldl (List.zipWith max) high) ∧
      (rows.foldl (List.zipWith min) low).length = low.length := by
  induction rows generalizing low high with
  | nil => exact ⟨h, rfl⟩
  | cons row rest ih =>
    have hrow : row.length = low.length := hrows row List.mem_cons_self
    have hstep : List.Forall₂ (· ≤ ·) (List.zipWith min low row) (List.zipWith max high row) := by
      clear ih hrows
      induction h generalizing row with
      | nil => exact .nil
      | @cons l u lows highs hle _ ih =>
        obtain ⟨index, row, rfl⟩ := List.exists_cons_of_length_eq_add_one hrow
        exact .cons (by omega) (ih row (Nat.succ.inj hrow))
    have hlength : (List.zipWith min low row).length = low.length := by
      rw [List.length_zipWith, hrow, Nat.min_self]
    obtain ⟨hle, heq⟩ := ih hstep fun r hr => by
      rw [hlength]
      exact hrows r (List.mem_cons_of_mem _ hr)
    exact ⟨hle, heq.trans hlength⟩

/-- The smallest indices of some tuples are at most the greatest ones. -/
theorem lowerCorner_le_upperCorner {rows : List (List Nat)} {n : Nat} (hne : rows ≠ [])
    (hrows : ∀ row ∈ rows, row.length = n) :
    List.Forall₂ (· ≤ ·) (ListText.lowerCorner rows) (ListText.upperCorner rows) ∧
      (ListText.lowerCorner rows).length = n := by
  obtain ⟨first, rest, rfl⟩ := List.exists_cons_of_ne_nil hne
  have hfirst := hrows first List.mem_cons_self
  have hrefl : List.Forall₂ (· ≤ ·) first first := List.forall₂_same.mpr fun n _ => Nat.le_refl n
  obtain ⟨hle, hlength⟩ := corners_le hrefl fun row hrow =>
    (hrows row (List.mem_cons_of_mem _ hrow)).trans hfirst.symm
  exact ⟨hle, hlength.trans hfirst⟩

namespace Reader

/-- What stands in the brackets of a box. -/
def boxTexts (shape lower upper : List Nat) : List String :=
  (shape.zip (lower.zip upper)).map fun (size, first, last) => spanText first last size

theorem boxText_eq (shape lower upper : List Nat) :
    ListText.boxText shape lower upper = Store.bracketed (boxTexts shape lower upper) := by
  unfold ListText.boxText Store.bracketed boxTexts
  rw [List.map_map]
  refine congrArg String.join (List.map_congr_left fun ⟨size, first, last⟩ _ => ?_)
  exact span_eq first last size

theorem isPlain_of_mem_boxTexts {shape lower upper : List Nat} {t : String}
    (ht : t ∈ boxTexts shape lower upper) : IsPlain t := by
  obtain ⟨⟨size, first, last⟩, -, rfl⟩ := List.mem_map.mp ht
  exact isPlain_spanText first last size

/-- The spans of a box are read as its ranges. -/
theorem spans?_boxTexts {shape lower upper : List Nat} (hshape : lower.length = shape.length)
    (h : List.Forall₂ (· ≤ ·) lower upper) :
    spans? shape ((boxTexts shape lower upper).map fun t => t.toList ++ [']']) =
      some (Grid.ranges lower (List.zipWith (fun low high => high - low + 1) lower upper)) := by
  unfold boxTexts Grid.ranges
  induction h generalizing shape with
  | nil =>
    obtain rfl := List.eq_nil_of_length_eq_zero hshape.symm
    rfl
  | @cons first last lower upper hle _ ih =>
    obtain ⟨size, shape, rfl⟩ := List.exists_cons_of_length_eq_add_one hshape.symm
    have hextent : last + 1 - first = last - first + 1 := Nat.sub_add_comm hle
    simp only [List.zip_cons_cons, List.map_cons, List.zipWith_cons_cons]
    rw [spans?_cons (span?_spanText hle size), ih (Nat.succ.inj hshape), hextent]
    rfl

end Reader

/-- The token of a box says the cells that enumerate it. -/
theorem Store.Inventory.says_boxed {s : Store} (hs : s.Inventory) {key : Nat} {a : VarArray}
    {cells : List (Variable × Nat)} (hcells : s.AreCells key a cells)
    (ha : s.arrays.get? key = some a) {token : String}
    (h : ListText.boxed? a (cells.map Prod.snd) = some token) :
    s.Says [token] (cells.map fun c => s.nameOf c.1) := by
  have htuples : (cells.map Prod.snd).map (Grid.indices a.shape) = cells.map (tupleOf a) :=
    List.map_map
  unfold ListText.boxed? at h
  simp only [htuples] at h
  split at h
  · cases h
  · rename_i hlength
    split at h
    · cases h
    · split at h
      · rename_i hbox
        cases h
        have hne : cells.map (tupleOf a) ≠ [] := fun hnil => hlength (by
          rw [List.map_eq_nil_iff.mp hnil]
          exact Nat.zero_le 2)
        obtain ⟨hle, hlower⟩ := lowerCorner_le_upperCorner hne fun row hrow => by
          obtain ⟨c, -, rfl⟩ := List.mem_map.mp hrow
          exact Grid.length_indices a.shape c.2
        rw [Reader.boxText_eq]
        refine hs.says_box ha hcells (fun t ht => Reader.isPlain_of_mem_boxTexts ht)
          (Reader.spans?_boxTexts hlower hle) ?_
        rw [Grid.choices_ranges (by rw [List.length_zipWith, hle.length_eq, Nat.min_self])]
        exact hbox
      · cases h

/-! ### Sequences -/

namespace ListText.Sequence

theorem mem_differing {a b : List Nat} {dimension : Nat} : dimension ∈ differing a b ↔
    ∃ i j, a[dimension]? = some i ∧ b[dimension]? = some j ∧ i ≠ j := by
  unfold differing
  simp only [List.mem_map, List.mem_filter, bne_iff_ne, Prod.exists, List.mem_zipIdx_iff_getElem?,
    List.getElem?_zip_eq_some, and_assoc]
  constructor
  · rintro ⟨i, j, _, hi, hj, hne, rfl⟩
    exact ⟨i, j, hi, hj, hne⟩
  · rintro ⟨i, j, hi, hj, hne⟩
    exact ⟨i, j, dimension, hi, hj, hne, rfl⟩

/-- Two tuples that differ in one dimension are equal but for the index there. -/
theorem eq_set_of_differing {a b : List Nat} {dimension : Nat} (hlength : b.length = a.length)
    (h : differing a b = [dimension]) :
    ∃ i j, a[dimension]? = some i ∧ b[dimension]? = some j ∧ i ≠ j ∧ b = a.set dimension j := by
  obtain ⟨i, j, hi, hj, hne⟩ := mem_differing.mp (h ▸ List.mem_singleton_self dimension)
  refine ⟨i, j, hi, hj, hne, List.ext_getElem? fun position => ?_⟩
  by_cases hposition : position = dimension
  · subst hposition
    rw [hj, List.getElem?_set_self (List.getElem?_eq_some_iff.mp hi).1]
  · rw [List.getElem?_set_ne (Ne.symm hposition)]
    by_contra hdiffers
    -- otherwise `position` would be another dimension in which they differ
    have hmem : position ∈ differing a b := by
      rw [mem_differing]
      rcases Nat.lt_or_ge position a.length with hlt | hge
      · have hlt' : position < b.length := hlength ▸ hlt
        rw [List.getElem?_eq_getElem hlt, List.getElem?_eq_getElem hlt'] at hdiffers
        exact ⟨a[position], b[position], List.getElem?_eq_getElem hlt,
          List.getElem?_eq_getElem hlt', fun heq => hdiffers (congrArg some heq.symm)⟩
      · rw [List.getElem?_eq_none hge, List.getElem?_eq_none (hlength ▸ hge)] at hdiffers
        exact absurd rfl hdiffers
    rw [h] at hmem
    exact hposition (List.mem_singleton.mp hmem)

/-- The sequence has passed the cells: their indices are those of its start, with the
index of its dimension counted up to where it is now. -/
structure Follows (a : VarArray) (q : Sequence) (cells : List (Variable × Nat)) : Prop where
  passed : q.cells.reverse = cells.map Prod.fst
  length : q.start.length = a.shape.length
  tuples : match q.along with
    | none => cells.map (Store.tupleOf a) = [q.start]
    | some (dimension, stop) => ∃ first, q.start[dimension]? = some first ∧ first ≤ stop ∧
        cells.map (Store.tupleOf a) =
          (List.range' first (stop + 1 - first)).map fun index => q.start.set dimension index

theorem follows_single (a : VarArray) (c : Variable × Nat) :
    Follows a ⟨[c.1], Store.tupleOf a c, none⟩ [c] :=
  ⟨rfl, Grid.length_indices a.shape c.2, rfl⟩

/-- A sequence goes on with a cell only if the cell is next. -/
theorem Follows.extend {a : VarArray} {q q' : Sequence} {cells : List (Variable × Nat)}
    (h : q.Follows a cells) {c : Variable × Nat}
    (hextend : q.extend? c.1 (Store.tupleOf a c) = some q') : q'.Follows a (cells ++ [c]) := by
  have hlength : (Store.tupleOf a c).length = q.start.length :=
    (Grid.length_indices a.shape c.2).trans h.length.symm
  have htuples := h.tuples
  have hcells : (c.1 :: q.cells).reverse = (cells ++ [c]).map Prod.fst := by
    rw [List.reverse_cons, h.passed, List.map_append, List.map_singleton]
  unfold extend? at hextend
  split at hextend
  · rename_i dimension hdiffering
    obtain ⟨first, index, hfirst, hindex, -, htuple⟩ := eq_set_of_differing hlength hdiffering
    rw [hindex] at hextend
    cases halong : q.along with
    | none =>
      rw [halong] at hextend htuples
      simp only [hfirst] at hextend
      split at hextend
      · rename_i hnext
        cases hextend
        refine ⟨hcells, h.length, first, hfirst, by omega, ?_⟩
        have hcount : index + 1 - first = 2 := by omega
        have hself : q.start.set dimension first = q.start := by
          obtain ⟨hlt, rfl⟩ := List.getElem?_eq_some_iff.mp hfirst
          exact List.set_getElem_self hlt
        rw [List.map_append, htuples, List.map_singleton, htuple, hcount, hnext]
        show _ = [q.start.set dimension first, q.start.set dimension (first + 1)]
        rw [hself]
        rfl
      · cases hextend
    | some along =>
      obtain ⟨known, stop⟩ := along
      rw [halong] at hextend htuples
      obtain ⟨first', hfirst', hle, htuples⟩ := htuples
      by_cases hknown : known = dimension
      · subst hknown
        obtain rfl : first = first' := Option.some.inj (hfirst.symm.trans hfirst')
        simp only [if_pos] at hextend
        split at hextend
        · rename_i hnext
          cases hextend
          refine ⟨hcells, h.length, first, hfirst, by omega, ?_⟩
          have hcount : index + 1 - first = stop + 1 - first + 1 := by omega
          have hlast : first + 1 * (stop + 1 - first) = index := by omega
          rw [List.map_append, htuples, List.map_singleton, htuple, hcount, List.range'_concat,
            List.map_append, hlast, List.map_singleton]
        · cases hextend
      · simp only [if_neg hknown] at hextend
        cases hextend
  · cases hextend

end ListText.Sequence

namespace Reader

/-- What stands in the brackets of a sequence, with the first dimension numbered `k`. -/
def sequenceTexts (k : Nat) (shape start : List Nat) (dimension stop : Nat) : List String :=
  ((shape.zip start).zipIdx k).map fun ((size, first), position) =>
    if position = dimension then spanText first stop size else toString first

theorem spans_eq (shape start : List Nat) (dimension stop : Nat) :
    ListText.Sequence.spans shape start dimension stop =
      Store.bracketed (sequenceTexts 0 shape start dimension stop) := by
  unfold ListText.Sequence.spans Store.bracketed sequenceTexts
  rw [List.map_map]
  refine congrArg String.join (List.map_congr_left fun ⟨⟨size, first⟩, position⟩ _ => ?_)
  simp only [Function.comp_apply]
  split
  · exact span_eq first stop size
  · rfl

theorem isPlain_of_mem_sequenceTexts {k : Nat} {shape start : List Nat} {dimension stop : Nat}
    {t : String} (ht : t ∈ sequenceTexts k shape start dimension stop) : IsPlain t := by
  obtain ⟨⟨⟨size, first⟩, position⟩, -, rfl⟩ := List.mem_map.mp ht
  simp only
  split
  · exact isPlain_spanText first stop size
  · exact isPlain_index first

/-- The spans of a sequence are read as single indices and a range in its dimension. -/
theorem spans?_sequenceTexts {k : Nat} {shape start : List Nat} {dimension stop : Nat}
    (hlength : start.length = shape.length)
    (hstop : ∀ first, (first, dimension) ∈ start.zipIdx k → first ≤ stop) :
    spans? shape ((sequenceTexts k shape start dimension stop).map fun t => t.toList ++ [']']) =
      some ((start.zipIdx k).map fun (first, position) =>
        if position = dimension then List.range' first (stop + 1 - first) else [first]) := by
  unfold sequenceTexts
  induction start generalizing k shape with
  | nil =>
    obtain rfl := List.eq_nil_of_length_eq_zero hlength.symm
    rfl
  | cons first start ih =>
    obtain ⟨size, shape, rfl⟩ := List.exists_cons_of_length_eq_add_one hlength.symm
    have hrest := ih (Nat.succ.inj hlength) fun first' hfirst' =>
      hstop first' (List.mem_cons_of_mem _ hfirst')
    simp only [List.zip_cons_cons, List.zipIdx_cons, List.map_cons]
    by_cases hk : k = dimension
    · subst hk
      rw [if_pos rfl, if_pos rfl, spans?_cons (span?_spanText (hstop first List.mem_cons_self) size),
        hrest]
      rfl
    · have hindex : span? size (toString first).toList = some [first] := span?_index size first
      rw [if_neg hk, if_neg hk, spans?_cons hindex, hrest]
      rfl

end Reader

theorem zipIdx_map_eq_set {start : List Nat} {dimension first : Nat}
    (h : start[dimension]? = some first) (f : Nat → List Nat) :
    (start.zipIdx.map fun (index, position) => if position = dimension then f index else [index]) =
      (start.map fun index => [index]).set dimension (f first) := by
  refine List.ext_getElem? fun position => ?_
  rw [List.getElem?_map, List.getElem?_zipIdx]
  by_cases hposition : position = dimension
  · subst hposition
    rw [List.getElem?_set_self (by simpa using (List.getElem?_eq_some_iff.mp h).1), h]
    simp
  · rw [List.getElem?_set_ne (Ne.symm hposition), List.getElem?_map]
    cases start[position]? <;> simp [hposition]

namespace Store

variable {s : Store}

/-- The tokens of a sequence say the cells it has passed. -/
theorem Inventory.says_sequence (hs : s.Inventory) {key : Nat} {a : VarArray}
    (ha : s.arrays.get? key = some a) {q : ListText.Sequence} {cells : List (Variable × Nat)}
    (h : q.Follows a cells) (hcells : s.AreCells key a cells) :
    s.Says (q.tokens s.nameOf a) (cells.map fun c => s.nameOf c.1) := by
  have hnames : q.cells.reverse.map s.nameOf = cells.map fun c => s.nameOf c.1 := by
    rw [h.passed, List.map_map]
    rfl
  have htuples := h.tuples
  unfold ListText.Sequence.tokens
  split
  · rename_i dimension stop halong
    rw [halong] at htuples
    obtain ⟨first, hfirst, hle, htuples⟩ := htuples
    split
    · have hstop : ∀ first', (first', dimension) ∈ q.start.zipIdx → first' ≤ stop := by
        intro first' hmem
        rw [List.mem_zipIdx_iff_getElem?] at hmem
        obtain rfl : first' = first := Option.some.inj (hmem.symm.trans hfirst)
        exact hle
      have hread := Reader.spans?_sequenceTexts h.length hstop
      rw [zipIdx_map_eq_set hfirst fun index => List.range' index (stop + 1 - index)] at hread
      rw [Reader.spans_eq]
      refine hs.says_box ha hcells (fun t ht => Reader.isPlain_of_mem_sequenceTexts ht) hread ?_
      rw [Grid.choices_along _ _ _ (List.getElem?_eq_some_iff.mp hfirst).1, htuples]
    · rw [hnames]
      exact hs.says_cells hcells
  · rw [hnames]
    exact hs.says_cells hcells

theorem Inventory.says_sequences (hs : s.Inventory) {key : Nat} {a : VarArray}
    (ha : s.arrays.get? key = some a) {q : ListText.Sequence}
    {passed cells : List (Variable × Nat)} (h : q.Follows a passed)
    (hcells : s.AreCells key a (passed ++ cells)) :
    s.Says (ListText.sequencesFrom s.nameOf a q cells)
      ((passed ++ cells).map fun c => s.nameOf c.1) := by
  induction cells generalizing q passed with
  | nil =>
    rw [List.append_nil] at hcells ⊢
    exact hs.says_sequence ha h hcells
  | cons c rest ih =>
    have hpassed : s.AreCells key a passed := fun c' hc' => hcells c' (List.mem_append_left _ hc')
    have hsplit : passed ++ c :: rest = passed ++ [c] ++ rest := by simp
    rw [ListText.sequencesFrom]
    split
    · rename_i q' hextend
      rw [hsplit] at hcells ⊢
      exact ih (h.extend hextend) hcells
    · -- the sequence ends here and the next one starts with the cell
      rw [List.map_append]
      exact (hs.says_sequence ha h hpassed).append <|
        ih (ListText.Sequence.follows_single a c) fun c' hc' =>
          hcells c' (List.mem_append_right _ hc')

/-- However the cells of an array are cut into tokens, these say the cells. -/
theorem Inventory.says_cellTokens (hs : s.Inventory) {key : Nat} {a : VarArray}
    (ha : s.arrays.get? key = some a) {cells : List (Variable × Nat)}
    (hcells : s.AreCells key a cells) :
    s.Says (ListText.cellTokens s.nameOf a cells) (cells.map fun c => s.nameOf c.1) := by
  unfold ListText.cellTokens
  split
  · rename_i token hboxed
    exact hs.says_boxed hcells ha hboxed
  · exact Says.nil s
  · rename_i c rest _
    exact hs.says_sequences ha (ListText.Sequence.follows_single a _) hcells

end Store

/-! ### Lists -/

/-- The parameter is written with variables of the store. -/
def Parameter.Over (s : Store) (p : Parameter) : Prop := ∀ v ∈ p.variables, s.Declares v

namespace ListText

/-- The parameters of a stretch. -/
def Stretch.parameters : Stretch → List Parameter
  | .cells _ list => list.map fun c => .var c.1
  | .other p => [p]

/-- What the stretches of a list are. -/
def Stretch.Valid (s : Store) : Stretch → Prop
  | .cells array list => list ≠ [] ∧ ∀ c ∈ list, s.cellOf c.1 = some ⟨array, c.2⟩
  | .other _ => True

theorem cell?_eq_some {s : Store} {p : Parameter} {array position : Nat} {v : Variable}
    (h : cell? s p = some (array, v, position)) :
    p = .var v ∧ s.cellOf v = some ⟨array, position⟩ := by
  unfold cell? at h
  split at h
  · rename_i w
    obtain ⟨cell, hcell, heq⟩ := Option.map_eq_some_iff.mp h
    cases heq
    exact ⟨rfl, hcell⟩
  · cases h

/-- The stretches of a list make it up. -/
theorem stretches_spec (s : Store) (list : List Parameter) :
    (stretches s list).flatMap Stretch.parameters = list ∧
      ∀ stretch ∈ stretches s list, stretch.Valid s := by
  induction list with
  | nil => exact ⟨rfl, fun _ h => nomatch h⟩
  | cons p rest ih =>
    obtain ⟨hrest, hvalid⟩ := ih
    rw [stretches]
    split
    · refine ⟨by rw [List.flatMap_cons, hrest]; rfl, fun stretch hstretch => ?_⟩
      rcases List.mem_cons.mp hstretch with rfl | hstretch
      · trivial
      · exact hvalid stretch hstretch
    · rename_i array v position hcell
      obtain ⟨rfl, hplace⟩ := cell?_eq_some hcell
      have halone : Stretch.Valid s (.cells array [(v, position)]) :=
        ⟨List.cons_ne_nil _ _, fun c hc => by rwa [List.mem_singleton.mp hc]⟩
      have hnew : (Stretch.cells array [(v, position)] :: stretches s rest).flatMap
          Stretch.parameters = .var v :: rest ∧
            ∀ stretch ∈ Stretch.cells array [(v, position)] :: stretches s rest,
              stretch.Valid s := by
        refine ⟨by rw [List.flatMap_cons, hrest]; rfl, fun stretch hstretch => ?_⟩
        rcases List.mem_cons.mp hstretch with rfl | hstretch
        · exact halone
        · exact hvalid stretch hstretch
      split
      · rename_i next cells others hothers
        rw [hothers] at hrest hvalid hnew
        split
        · rename_i hnext
          subst hnext
          refine ⟨congrArg (Parameter.var v :: ·) hrest, fun stretch hstretch => ?_⟩
          rcases List.mem_cons.mp hstretch with rfl | hstretch
          · refine ⟨List.cons_ne_nil _ _, fun c hc => ?_⟩
            rcases List.mem_cons.mp hc with rfl | hc
            · exact hplace
            · exact (hvalid _ List.mem_cons_self).2 c hc
          · exact hvalid stretch (List.mem_cons_of_mem _ hstretch)
        · exact hnew
      · exact hnew

/-- A run of equal integers is replaced by its length. -/
theorem flatMap_runLengths (values : List Int) :
    ((runLengths values).flatMap fun run => List.replicate run.2 run.1) = values := by
  induction values with
  | nil => rfl
  | cons value rest ih =>
    rw [runLengths]
    split
    · rename_i next count others hothers
      rw [hothers, List.flatMap_cons] at ih
      split
      · rename_i heq
        subst heq
        rw [List.flatMap_cons, List.replicate_succ, List.cons_append, ih]
      · rw [List.flatMap_cons, List.flatMap_cons, ih]
        rfl
    · rename_i hnil
      rw [hnil] at ih
      rw [← ih]
      rfl

theorem parameter_integers {w : ListText} {list : List Parameter} {values : List Int}
    (h : integers? list = some values) : list.map w.parameter = values.map toString := by
  unfold integers? at h
  rw [mapM_eq_some_iff] at h
  induction h with
  | nil => rfl
  | cons hp _ ih =>
    rw [List.map_cons, List.map_cons, ih]
    split at hp
    · obtain rfl := Option.some.inj hp
      rfl
    · cases hp

end ListText

namespace Store

variable {s : Store}

theorem Inventory.says_integer (hs : s.Inventory) (n : Int) :
    s.Says [toString n] [toString n] := by
  refine hs.says_plain ?_ fun c hc => ?_
  · intro hempty
    have hinteger := Reader.isInteger_toString n
    rw [hempty] at hinteger
    cases hinteger
  · rcases mem_toString hc with rfl | hdigit
    · decide
    · refine ⟨Text.isBlank_of_isDigit hdigit, ?_, ?_⟩ <;>
        (rintro rfl; exact absurd hdigit (by decide))

theorem Built.says_variable (hs : s.Built) {v : Variable} (hv : s.Declares v) :
    s.Says [s.nameOf v] [s.nameOf v] := by
  have hi := hs.inventory
  cases hcell : s.cellOf v with
  | some cell => exact hi.says_cell (c := (v, cell.position)) (hs.isCell hv hcell)
  | none =>
    have hidentifier := hs.isIdentifier_nameOf hv hcell
    have hrest : ∀ c ∈ (s.nameOf v).toList, Text.isIdentifierRest c = true := fun c hc =>
      Text.isIdentifierRest_of_mem hidentifier hc
    have hbegins := Text.beginsName_of_isIdentifier hidentifier
    have hblank : ∀ c ∈ (s.nameOf v).toList, Text.isBlank c = false := fun c hc =>
      Text.isBlank_of_isNameChar (by simp [Text.isNameChar, hrest c hc])
    exact Says.single ⟨hbegins.ne_empty, hblank⟩ <|
      expandToken_self (hi.box?_eq_none_of_not_mem fun h => absurd (hrest _ h) (by decide))
        hbegins.copies?_eq_none

theorem Built.says_expression (hs : s.Built) {e : Expr} (he : ∀ v ∈ e.occurrences, s.Declares v) :
    s.Says [e.render s.nameOf] [e.render s.nameOf] := by
  have hi := hs.inventory
  have hblank : ∀ c ∈ (e.render s.nameOf).toList, Text.isBlank c = false := fun c hc =>
    Text.isBlank_of_isExpressionChar (e.isExpressionChar_of_mem_render hs.plain c hc)
  cases e with
  | const n => exact hi.says_integer n
  | var v => exact hs.says_variable (he v (List.mem_singleton_self v))
  | set members => exact hi.says_call (by decide) hblank
  | apply op operands => exact hi.says_call op.isIdentifier_name hblank
  | aggregate f => exact hi.says_call f.isIdentifier_kind hblank

/-- Every parameter stands for itself. -/
theorem Built.says_parameter (hs : s.Built) (compact : Bool) {p : Parameter} (hp : p.Over s) :
    s.Says [ListText.parameter ⟨s, compact⟩ p] [ListText.parameter ⟨s, compact⟩ p] := by
  have hi := hs.inventory
  have hdigit : ∀ {c : Char}, c.isDigit = true →
      Text.isBlank c = false ∧ c ≠ '[' ∧ c ≠ 'x' := by
    intro c hc
    refine ⟨Text.isBlank_of_isDigit hc, ?_, ?_⟩ <;> (rintro rfl; exact absurd hc (by decide))
  cases p with
  | var v => exact hs.says_variable (hp v (List.mem_singleton_self v))
  | integer n => exact hi.says_integer n
  | placeholder number =>
    have htext : (ListText.parameter ⟨s, compact⟩ (.placeholder number)).toList =
        '%' :: number.repr.toList := by
      simp [ListText.parameter, toString, String.toList_append]
    refine hi.says_plain (fun hempty => by rw [hempty] at htext; cases htext) fun c hc => ?_
    rw [htext] at hc
    rcases List.mem_cons.mp hc with rfl | hc
    · decide
    · exact hdigit (Nat.isDigit_of_mem_repr hc)
  | allPlaceholders =>
    have htext : ListText.parameter ⟨s, compact⟩ .allPlaceholders = "%..." := rfl
    rw [htext]
    refine hi.says_plain (by decide) fun c hc => ?_
    have hplain : ("%...".toList.all fun c => !Text.isBlank c && c != '[' && c != 'x') = true := rfl
    simpa [and_assoc] using List.all_eq_true.mp hplain c hc
  | range inf sup =>
    have htext : (ListText.parameter ⟨s, compact⟩ (.range inf sup)).toList =
        (toString inf).toList ++ '.' :: '.' :: (toString sup).toList := by
      simp [ListText.parameter, String.toList_append]
    refine hi.says_plain (fun hempty => by rw [hempty] at htext; simp at htext) fun c hc => ?_
    rw [htext] at hc
    simp only [List.mem_append, List.mem_cons] at hc
    rcases hc with hc | rfl | rfl | hc
    · rcases mem_toString hc with rfl | hc
      · decide
      · exact hdigit hc
    · decide
    · decide
    · rcases mem_toString hc with rfl | hc
      · decide
      · exact hdigit hc
  | expression e => exact hs.says_expression hp

/-- The tokens of a stretch say its parameters. -/
theorem Built.says_stretch (hs : s.Built) (compact : Bool) {stretch : ListText.Stretch}
    (hvalid : stretch.Valid s) (hover : ∀ p ∈ stretch.parameters, p.Over s) :
    s.Says (ListText.stretchTokens ⟨s, compact⟩ stretch)
      (stretch.parameters.map (ListText.parameter ⟨s, compact⟩)) := by
  cases stretch with
  | other p => exact hs.says_parameter compact (hover p (List.mem_singleton_self p))
  | cells array cells =>
    obtain ⟨hne, hplaces⟩ := hvalid
    have hcells : s.AreCells array (s.arrayAt array) cells := fun c hc =>
      hs.isCell (hover _ (List.mem_map_of_mem hc) c.1 (List.mem_singleton_self _)) (hplaces c hc)
    obtain ⟨c, hc⟩ := List.exists_mem_of_ne_nil cells hne
    have hsays := hs.inventory.says_cellTokens (hcells c hc).array hcells
    rw [ListText.Stretch.parameters, List.map_map]
    exact hsays

/-- The tokens of a run of equal integers say its copies. -/
theorem Inventory.says_runTokens (hs : s.Inventory) (run : Int × Nat) :
    s.Says (ListText.runTokens run) (List.replicate run.2 (toString run.1)) := by
  obtain ⟨value, count⟩ := run
  unfold ListText.runTokens
  split
  · have htext : (toString value ++ "x" ++ toString count).toList =
        (toString value).toList ++ 'x' :: count.repr.toList := by
      simp [String.toList_append, toString]
    have hchars : ∀ c ∈ (toString value ++ "x" ++ toString count).toList,
        Text.isBlank c = false ∧ c ≠ '[' := by
      intro c hc
      rw [htext] at hc
      simp only [List.mem_append, List.mem_cons] at hc
      rcases hc with hc | rfl | hc
      · rcases mem_toString hc with rfl | hdigit
        · decide
        · exact ⟨Text.isBlank_of_isDigit hdigit, by rintro rfl; exact absurd hdigit (by decide)⟩
      · decide
      · have hdigit := Nat.isDigit_of_mem_repr hc
        exact ⟨Text.isBlank_of_isDigit hdigit, by rintro rfl; exact absurd hdigit (by decide)⟩
    have hbox : s.box? (toString value ++ "x" ++ toString count) = none :=
      hs.box?_eq_none_of_not_mem fun h => (hchars _ h).2 rfl
    refine Says.single ⟨fun hempty => ?_, fun c hc => (hchars c hc).1⟩ ?_
    · rw [hempty] at htext
      simp at htext
    · rw [expandToken, hbox, Reader.copies?_eq]
      rfl
  · show s.Says (List.replicate count (toString value)) _
    rw [← List.map_replicate]
    exact Says.map fun n _ => hs.says_integer n

/-- A list that is not compacted is written word by word. -/
theorem Built.says_expanded (hs : s.Built) (compact : Bool) {list : List Parameter}
    (hlist : ∀ p ∈ list, p.Over s) : s.Says (list.map (ListText.parameter ⟨s, compact⟩))
      (list.map (ListText.parameter ⟨s, compact⟩)) :=
  Says.map fun p hp => hs.says_parameter compact (hlist p hp)

theorem Inventory.says_repeatedValues (hs : s.Inventory) (values : List Int) :
    s.Says ((ListText.runLengths values).flatMap ListText.runTokens) (values.map toString) := by
  have hsays : s.Says ((ListText.runLengths values).flatMap ListText.runTokens)
      ((ListText.runLengths values).flatMap fun run =>
        List.replicate run.2 (toString run.1)) := Says.flatMap fun run _ => hs.says_runTokens run
  have htexts : ((ListText.runLengths values).flatMap fun run =>
      List.replicate run.2 (toString run.1)) = values.map toString := by
    conv_rhs => rw [← ListText.flatMap_runLengths values, List.map_flatMap]
    simp only [List.map_replicate]
  rwa [htexts] at hsays

theorem Built.says_compacted (hs : s.Built) (compact : Bool) {list : List Parameter}
    (hlist : ∀ p ∈ list, p.Over s) :
    s.Says ((ListText.stretches s list).flatMap (ListText.stretchTokens ⟨s, compact⟩))
      (list.map (ListText.parameter ⟨s, compact⟩)) := by
  obtain ⟨hflat, hvalid⟩ := ListText.stretches_spec s list
  have hsays : s.Says ((ListText.stretches s list).flatMap (ListText.stretchTokens ⟨s, compact⟩))
      ((ListText.stretches s list).flatMap fun stretch =>
        stretch.parameters.map (ListText.parameter ⟨s, compact⟩)) :=
    Says.flatMap fun stretch hstretch => hs.says_stretch compact (hvalid stretch hstretch)
      fun p hp => hlist p (hflat ▸ List.mem_flatMap_of_mem hstretch hp)
  rwa [← List.map_flatMap, hflat] at hsays

/-- The text of a list is made of tokens that say its parameters. -/
theorem Built.exists_says (hs : s.Built) (compact : Bool) (argument : String)
    {list : List Parameter} (hlist : ∀ p ∈ list, p.Over s) (whateverLength : Bool) :
    ∃ tokens, ListText.write ⟨s, compact⟩ argument list whateverLength = " ".intercalate tokens ∧
      s.Says tokens (list.map (ListText.parameter ⟨s, compact⟩)) := by
  unfold ListText.write
  split
  · exact ⟨_, rfl, hs.says_expanded compact hlist⟩
  · split
    · rename_i values hvalues
      split at hvalues
      · rw [ListText.parameter_integers hvalues]
        exact ⟨_, rfl, hs.inventory.says_repeatedValues values⟩
      · cases hvalues
    · exact ⟨_, rfl, hs.says_compacted compact hlist⟩

theorem Built.expand_text (hs : s.Built) (compact : Bool) (argument : String)
    {list : List Parameter} (hlist : ∀ p ∈ list, p.Over s) (whateverLength : Bool) :
    s.expand (ListText.write ⟨s, compact⟩ argument list whateverLength) =
      some (list.map (ListText.parameter ⟨s, compact⟩)) := by
  obtain ⟨tokens, htext, hsays⟩ := hs.exists_says compact argument hlist whateverLength
  rw [htext]
  exact hsays.expand

/-- The reader finds a variable in every cell that a token names. -/
theorem exists_get?_of_expand {text : String} {texts : List String}
    (h : s.expand text = some texts) {token : String} (htoken : token ∈ Reader.words text)
    {a : VarArray} {ranges : List (List Nat)} (hbox : s.box? token = some (a, ranges))
    {indices : List Nat} (hindices : indices ∈ Rows.choices ranges) :
    ∃ v, a.get? indices = some v := by
  obtain ⟨lists, hlists, -⟩ := Option.map_eq_some_iff.mp h
  obtain ⟨cells, hcells⟩ := exists_of_mapM_eq_some hlists htoken
  rw [expandToken, hbox] at hcells
  obtain ⟨name, hname⟩ := exists_of_mapM_eq_some hcells hindices
  obtain ⟨v, hv, -⟩ := Option.map_eq_some_iff.mp hname
  exact ⟨v, hv⟩

/-- A written list loses nothing: expanded token by token, it is the texts of the
parameters, one by one and in their order, and no token names a hole. -/
theorem Built.expand_write (hs : s.Built) (compact : Bool) (argument : String)
    {list : List Parameter} (hlist : ∀ p ∈ list, p.Over s) (whateverLength : Bool) :
    s.expand (ListText.write ⟨s, compact⟩ argument list whateverLength) =
        some (list.map (ListText.parameter ⟨s, compact⟩)) ∧
      ∀ token ∈ Reader.words (ListText.write ⟨s, compact⟩ argument list whateverLength),
        ∀ a ranges, s.box? token = some (a, ranges) →
          ∀ indices ∈ Rows.choices ranges, ∃ v, a.get? indices = some v := by
  have htext := hs.expand_text compact argument hlist whateverLength
  exact ⟨htext, fun token htoken a ranges hbox indices hindices =>
    exists_get?_of_expand htext htoken hbox hindices⟩

end Store

namespace Board

/-- A board of two rows and three columns without its last cell. -/
def store : Store :=
  match ({ model := 0 } : Store).declareArray (some "x") [2, 3] fun indices =>
    if indices = [1, 2] then none else some .unbounded with
  | .error _ => { model := 0 }
  | .ok (_, s) => s

/-- The cells row by row, and an integer. -/
def list : List Parameter := (List.range 5).map (fun index => .var ⟨0, index⟩) ++ [.integer (-1)]

theorem built_store : store.Built := by
  have hbuilt : ∀ (indices : List Nat) (d : Domain),
      (if indices = [1, 2] then none else some Domain.unbounded) = some d → d.Built := by
    intro indices d h
    obtain ⟨-, h⟩ := Option.ite_none_left_eq_some.mp h
    cases h
    exact .unbounded
  unfold store
  split
  · exact .new 0
  · rename_i h
    exact .declareArray (.new 0) hbuilt h

theorem over_store : ∀ p ∈ list, p.Over store := by
  have hmodel : store.model = 0 := by cbv
  have hsize : store.infos.size = 5 := by cbv
  intro p hp v hv
  rcases List.mem_append.mp hp with hp | hp
  · obtain ⟨index, hindex, rfl⟩ := List.mem_map.mp hp
    obtain rfl := List.mem_singleton.mp hv
    exact ⟨hmodel.symm, hsize.symm ▸ List.mem_range.mp hindex⟩
  · obtain rfl := List.mem_singleton.mp hp
    cases hv

/-- The first row becomes one token. -/
example : ListText.write ⟨store, true⟩ "list" list false = "x[0][] x[1][0] x[1][1] -1" := by cbv

/-- Nothing is lost of the cells of a board with a hole. -/
theorem expand_write_cells : store.Built ∧ (∀ p ∈ list, p.Over store) ∧
    store.expand (ListText.write ⟨store, true⟩ "list" list false) =
      some (list.map (ListText.parameter ⟨store, true⟩)) :=
  ⟨built_store, over_store, (built_store.expand_write true "list" over_store false).1⟩

end Board

end CspModel
