import CspModel.Proofs.Names
import CspModel.Proofs.Parts
import CspModel.Proofs.Reading

/-! # Predicates of one template

The text of a template comes from the pieces of a predicate, the text of a predicate
from its tree.  Both are put together here from the pieces by filling their slots: the
tree is the pieces with its own leaves in the slots, and scanning the text of a template
for placeholders finds exactly the slots that hold one.  So an instance of a template is
the text of the predicate whose leaves are the arguments (`readingOf_predicateTemplate`).

Scanning relies on two facts.  No name has a percent sign, and a slot is followed by a
comma or by a parenthesis, so that a number ends where its placeholder does.  For the same
reason the text tells what stands in the slots (`Piece.assemble_inj`), and instances for
different arguments are different (`Filling.substitute_injective`).
-/
namespace CspModel

/-- Whether no name can be taken for anything else in an expression. -/
def Plain (names : Variable → String) : Prop :=
  ∀ v, ∀ c ∈ (names v).toList, Text.isNameChar c = true

theorem Plain.not_mem {names : Variable → String} (h : Plain names) {c : Char}
    (hc : Text.isNameChar c = false) (v : Variable) : c ∉ (names v).toList := by
  intro hmem
  rw [h v c hmem] at hc
  cases hc

namespace Mark

/-! ### Scanning -/

theorem scanFrom_plain {chars : List Char} (h : '%' ∉ chars) (rest : List Char) :
    scanFrom none (chars ++ rest) = chars.map char ++ scanFrom none rest := by
  induction chars with
  | nil => rfl
  | cons c chars ih =>
    have hc : c ≠ '%' := fun hc => h (hc ▸ List.mem_cons_self)
    rw [List.cons_append, scanFrom, if_neg hc, ih fun hchars => h (List.mem_cons_of_mem _ hchars)]
    rfl

theorem scanFrom_digits {digits : List Char} (h : ∀ c ∈ digits, c.isDigit = true) (number : Nat)
    (rest : List Char) : scanFrom (some number) (digits ++ rest) =
      scanFrom (some (Nat.ofDigitChars 10 digits number)) rest := by
  induction digits generalizing number with
  | nil => rfl
  | cons c digits ih =>
    rw [List.cons_append, scanFrom, if_pos (h c List.mem_cons_self), Nat.ofDigitChars_cons]
    exact ih (fun c hc => h c (List.mem_cons_of_mem _ hc)) _

/-- Whether a number can end before the text. -/
def EndsNumber (chars : List Char) : Prop := ∀ c ∈ chars.head?, c.isDigit = false

/-- A placeholder is read as far as its number goes. -/
theorem scanFrom_placeholder (number : Nat) {rest : List Char} (h : EndsNumber rest) :
    scanFrom none ((s!"%{number}").toList ++ rest) = placeholder number :: scanFrom none rest := by
  have htext : (s!"%{number}").toList = '%' :: Nat.toDigits 10 number := by
    simp [toString, String.toList_append, Nat.toList_repr]
  have hdigits : ∀ c ∈ Nat.toDigits 10 number, c.isDigit = true := fun c hc =>
    Nat.isDigit_of_mem_toDigits (by decide) (by decide) hc
  rw [htext, List.cons_append, scanFrom, if_pos rfl, scanFrom_digits hdigits,
    Nat.ofDigitChars_ten_toDigits]
  cases rest with
  | nil => rfl
  | cons c rest =>
    simp only [scanFrom]
    rw [if_neg (Bool.eq_false_iff.mp (h c rfl))]

end Mark

/-! ### Texts without percent signs -/

/-- The text of an integer consists of digits after an optional sign. -/
theorem mem_toString {n : Int} {c : Char} (h : c ∈ (toString n).toList) :
    c = '-' ∨ c.isDigit = true := by
  have hdigits : ∀ {k : Nat}, c ∈ k.repr.toList → c.isDigit = true := fun {k} hc => by
    rw [Nat.toList_repr] at hc
    exact Nat.isDigit_of_mem_toDigits (by decide) (by decide) hc
  rw [Int.toString_eq_repr, Int.repr_eq_if] at h
  split at h
  · exact .inr (hdigits h)
  · rw [String.toList_append] at h
    rcases List.mem_append.mp h with h | h
    · exact .inl (List.mem_singleton.mp h)
    · exact .inr (hdigits h)

/-- A leaf has none of the signs an expression is written with. -/
theorem not_mem_toString {c : Char} (hc : Text.isNameChar c = false) (hminus : c ≠ '-') (n : Int) :
    c ∉ (toString n).toList := by
  intro h
  rcases mem_toString h with h | h
  · exact hminus h
  · rw [Text.isNameChar, Text.isIdentifierRest_of_isDigit h] at hc
    cases hc

/-- The characters that expressions are written with. -/
def Text.isExpressionChar (c : Char) : Bool := isNameChar c || ['-', '(', ',', ')'].contains c

theorem isExpressionChar_of_mem_toString {n : Int} {c : Char} (h : c ∈ (toString n).toList) :
    Text.isExpressionChar c = true := by
  rcases mem_toString h with rfl | h
  · decide
  · simp [Text.isExpressionChar, Text.isNameChar, Text.isIdentifierRest_of_isDigit h]

theorem mem_intercalate {α : Type} {a b : α} {lists : List (List α)}
    (h : b ∈ [a].intercalate lists) : b = a ∨ ∃ list ∈ lists, b ∈ list := by
  induction lists with
  | nil => cases h
  | cons list rest ih =>
    cases rest with
    | nil => exact .inr ⟨list, List.mem_cons_self, by simpa using h⟩
    | cons next rest =>
      rw [List.intercalate_cons_cons] at h
      rcases List.mem_append.mp h with h | h
      · rcases List.mem_append.mp h with h | h
        · exact .inr ⟨list, List.mem_cons_self, h⟩
        · exact .inl (List.mem_singleton.mp h)
      · exact (ih h).imp id fun ⟨other, hother, hb⟩ => ⟨other, List.mem_cons_of_mem _ hother, hb⟩

theorem toList_call (name : String) (arguments : List String) :
    (Expr.call name arguments).toList =
      name.toList ++ '(' :: ([','].intercalate (arguments.map String.toList) ++ [')']) := by
  simp [Expr.call, String.toList_append, String.toList_intercalate]

theorem isExpressionChar_of_mem_call {name : String} {arguments : List String}
    (hname : ∀ c ∈ name.toList, Text.isExpressionChar c = true)
    (h : ∀ t ∈ arguments, ∀ c ∈ t.toList, Text.isExpressionChar c = true) :
    ∀ c ∈ (Expr.call name arguments).toList, Text.isExpressionChar c = true := by
  intro c hc
  rw [toList_call] at hc
  simp only [List.mem_append, List.mem_cons, List.not_mem_nil, or_false] at hc
  rcases hc with hc | rfl | hc | rfl
  · exact hname c hc
  · decide
  · rcases mem_intercalate hc with rfl | ⟨chars, hchars, hc⟩
    · decide
    · obtain ⟨t, ht, rfl⟩ := List.mem_map.mp hchars
      exact h t ht c hc
  · decide

theorem Operator.isExpressionChar_of_mem_name (op : Operator) :
    ∀ c ∈ op.name.toList, Text.isExpressionChar c = true := by
  -- The letters of the name are computed: there are finitely many characters, and `decide` could
  -- as well go through them all.
  cases op <;> exact List.all_eq_true.mp rfl

theorem Aggregate.isExpressionChar_of_mem_kind {ε : Type} (f : Aggregate ε) :
    ∀ c ∈ f.kind.toList, Text.isExpressionChar c = true := by
  cases f <;> (rw [kind]; exact List.all_eq_true.mp rfl)

theorem Expr.renderAll_eq_map (names : Variable → String) (list : List Expr) :
    renderAll names list = list.map (render names) := by
  induction list with
  | nil => rfl
  | cons e rest ih => rw [renderAll, ih, List.map_cons]

theorem Expr.renderOperands_eq_map (names : Variable → String) (f : Aggregate Expr) :
    renderOperands names f = f.operands.map (render names) := by
  cases f <;> simp [renderOperands, renderAll_eq_map, Aggregate.operands, Aggregate.list]

/-- Only those characters occur in an expression. -/
theorem Expr.isExpressionChar_of_mem_render {names : Variable → String} (hnames : Plain names)
    (e : Expr) : ∀ c ∈ (e.render names).toList, Text.isExpressionChar c = true := by
  have hall : ∀ {list : List Expr},
      (∀ e ∈ list, ∀ c ∈ (e.render names).toList, Text.isExpressionChar c = true) →
      ∀ t ∈ list.map (render names), ∀ c ∈ t.toList, Text.isExpressionChar c = true :=
    fun h t ht => by
      obtain ⟨e, he, rfl⟩ := List.mem_map.mp ht
      exact h e he
  induction e using Expr.induction with
  | const n => exact fun c hc => isExpressionChar_of_mem_toString hc
  | var v =>
    intro c hc
    rw [Text.isExpressionChar, hnames v c hc]
    rfl
  | set members =>
    refine isExpressionChar_of_mem_call (List.all_eq_true.mp rfl) fun t ht => ?_
    obtain ⟨n, _, rfl⟩ := List.mem_map.mp ht
    exact fun c hc => isExpressionChar_of_mem_toString hc
  | apply op operands ih =>
    rw [render, renderAll_eq_map]
    exact isExpressionChar_of_mem_call op.isExpressionChar_of_mem_name (hall ih)
  | aggregate f ih =>
    rw [render, renderOperands_eq_map]
    exact isExpressionChar_of_mem_call f.isExpressionChar_of_mem_kind (hall ih)

theorem Expr.not_mem_render {names : Variable → String} (hnames : Plain names) (e : Expr)
    {c : Char} (hc : Text.isExpressionChar c = false) : c ∉ (e.render names).toList := by
  intro h
  rw [e.isExpressionChar_of_mem_render hnames c h] at hc
  cases hc

namespace Piece

variable {names : Variable → String}

/-! ### Pieces with their slots filled -/

/-- The pieces put together, with texts in the slots. -/
def assemble : List Piece → List (List Char) → List Char
  | [], _ => []
  | text t :: rest, slots => t.toList ++ assemble rest slots
  | slot :: _, [] => []
  | slot :: rest, chars :: slots => chars ++ assemble rest slots

/-- The number of slots. -/
def slotCount : List Piece → Nat
  | [] => 0
  | text _ :: rest => slotCount rest
  | slot :: rest => slotCount rest + 1

theorem assemble_merge (pieces : List Piece) (slots : List (List Char)) :
    assemble (merge pieces) slots = assemble pieces slots := by
  induction pieces generalizing slots with
  | nil => rfl
  | cons piece rest ih =>
    cases piece with
    | slot =>
      cases slots with
      | nil => rfl
      | cons chars slots => rw [merge, assemble, assemble, ih]
    | text t =>
      rw [assemble, ← ih, merge]
      split
      · rename_i hmerge
        rw [hmerge, assemble, assemble, String.toList_append, List.append_assoc]
      · rw [assemble]

theorem slotCount_merge (pieces : List Piece) : slotCount (merge pieces) = slotCount pieces := by
  induction pieces with
  | nil => rfl
  | cons piece rest ih =>
    cases piece with
    | slot => rw [merge, slotCount, slotCount, ih]
    | text t =>
      rw [slotCount, ← ih, merge]
      split
      · rename_i hmerge
        rw [hmerge, slotCount, slotCount]
      · rw [slotCount]

theorem slotCount_append (ps qs : List Piece) : slotCount (ps ++ qs) = slotCount ps + slotCount qs := by
  induction ps with
  | nil => exact (Nat.zero_add _).symm
  | cons piece rest ih =>
    cases piece with
    | slot =>
      rw [List.cons_append, slotCount, slotCount, ih]
      omega
    | text t => rw [List.cons_append, slotCount, slotCount, ih]

/-- The characters of a leaf. -/
def leafChars (names : Variable → String) (leaf : Parameter) : List Char :=
  (leaf.text names).toList

theorem assemble_cutAll {operands : List Expr} (rest : List Piece) (slots : List (List Char))
    (ih : ∀ e ∈ operands, ∀ rest slots,
      assemble (cut names e ++ rest) ((leaves e).map (leafChars names) ++ slots) =
        (e.render names).toList ++ assemble rest slots) :
    assemble (cutAll names operands ++ rest)
      ((leavesOf operands).map (leafChars names) ++ slots) =
    [','].intercalate ((operands.map (Expr.render names)).map String.toList) ++
      ')' :: assemble rest slots := by
  induction operands with
  | nil => rfl
  | cons e others ihothers =>
    have he := ih e List.mem_cons_self
    have ihothers := ihothers fun e he => ih e (List.mem_cons_of_mem _ he)
    rw [leavesOf, List.map_append, List.append_assoc]
    cases others with
    | nil =>
      rw [cutAll, leavesOf, List.append_assoc, he]
      simp [assemble]
    | cons e' others =>
      rw [cutAll, List.append_assoc, List.cons_append, he, assemble, ihothers]
      · simp [List.intercalate_cons_cons]
      · simp

/-- The pieces of a predicate with its own leaves in the slots are the predicate. -/
theorem assemble_cut (e : Expr) (rest : List Piece) (slots : List (List Char)) :
    assemble (cut names e ++ rest) ((leaves e).map (leafChars names) ++ slots) =
      (e.render names).toList ++ assemble rest slots := by
  induction e using Expr.induction generalizing rest slots with
  | const n => rfl
  | var v => rfl
  | set members => rfl
  | aggregate f _ => rfl
  | apply op operands ih =>
    rw [cut, leaves, List.cons_append, assemble, assemble_cutAll rest slots ih, Expr.render,
      toList_call, Expr.renderAll_eq_map]
    simp

theorem slotCount_cutAll {operands : List Expr}
    (ih : ∀ e ∈ operands, slotCount (cut names e) = (leaves e).length) :
    slotCount (cutAll names operands) = (leavesOf operands).length := by
  induction operands with
  | nil => rfl
  | cons e others ihothers =>
    have he := ih e List.mem_cons_self
    have ihothers := ihothers fun e he => ih e (List.mem_cons_of_mem _ he)
    rw [leavesOf, List.length_append]
    cases others with
    | nil =>
      rw [cutAll, slotCount_append, he, leavesOf]
      rfl
    | cons e' others =>
      rw [cutAll, slotCount_append, he, slotCount, ihothers]
      simp

theorem slotCount_cut (e : Expr) : slotCount (cut names e) = (leaves e).length := by
  induction e using Expr.induction with
  | const n => rfl
  | var v => rfl
  | set members => rfl
  | aggregate f _ => rfl
  | apply op operands ih =>
    rw [cut, leaves, slotCount, slotCount_cutAll ih]

theorem assemble_ofExpr (names : Variable → String) (e : Expr) :
    assemble (ofExpr names e) ((leaves e).map (leafChars names)) = (e.render names).toList := by
  have hown := @assemble_cut names e [] []
  simp only [List.append_nil, assemble] at hown
  rw [ofExpr, assemble_merge, hown]

theorem slotCount_ofExpr (names : Variable → String) (e : Expr) :
    slotCount (ofExpr names e) = (leaves e).length :=
  (slotCount_merge _).trans (slotCount_cut e)

/-! ### Templates -/

/-- Whether a leaf in a slot ends before the pieces: it is followed by a comma, by a
parenthesis or by nothing. -/
def Follows : List Piece → Prop
  | [] => True
  | text t :: _ => ∃ c chars, t.toList = c :: chars ∧ (c = ',' ∨ c = ')')
  | slot :: _ => False

/-- Whether scanning finds the slots again. -/
def Separated : List Piece → Prop
  | [] => True
  | text t :: rest => '%' ∉ t.toList ∧ Separated rest
  | slot :: rest => Follows rest ∧ Separated rest

theorem Follows.head {pieces : List Piece} (h : Follows pieces) (slots : List (List Char))
    {c : Char} (hc : c ∈ (assemble pieces slots).head?) : c = ',' ∨ c = ')' := by
  cases pieces with
  | nil => cases hc
  | cons piece rest =>
    cases piece with
    | slot => cases h
    | text t =>
      obtain ⟨c', chars, ht, hc'⟩ := h
      rw [assemble, ht] at hc
      cases hc
      exact hc'

theorem Follows.endsNumber {pieces : List Piece} (h : Follows pieces) (slots : List (List Char)) :
    Mark.EndsNumber (assemble pieces slots) := by
  intro c hc
  rcases h.head slots hc with rfl | rfl <;> rfl

theorem separated_cutAll {operands : List Expr} {rest : List Piece} (hrest : Separated rest)
    (ih : ∀ e ∈ operands, ∀ {rest}, Follows rest → Separated rest →
      Separated (cut names e ++ rest)) : Separated (cutAll names operands ++ rest) := by
  have hclose : Follows (text ")" :: rest) := ⟨')', [], rfl, .inr rfl⟩
  have hclosed : Separated (text ")" :: rest) := ⟨by decide, hrest⟩
  induction operands with
  | nil => exact hclosed
  | cons e others ihothers =>
    have he := @ih e List.mem_cons_self
    have ihothers := ihothers fun e he => ih e (List.mem_cons_of_mem _ he)
    cases others with
    | nil =>
      rw [cutAll, List.append_assoc]
      exact he hclose hclosed
    | cons e' others =>
      rw [cutAll, List.append_assoc, List.cons_append]
      · exact he ⟨',', [], rfl, .inl rfl⟩ ⟨by decide, ihothers⟩
      · simp

/-- The pieces of a predicate are separated: a comma or a parenthesis follows every leaf. -/
theorem separated_cut (hnames : Plain names) (e : Expr) {rest : List Piece}
    (hfollows : Follows rest) (hrest : Separated rest) : Separated (cut names e ++ rest) := by
  induction e using Expr.induction generalizing rest with
  | const n => exact ⟨hfollows, hrest⟩
  | var v => exact ⟨hfollows, hrest⟩
  | set members => exact ⟨Expr.not_mem_render hnames (.set members) (by decide), hrest⟩
  | aggregate f _ => exact ⟨Expr.not_mem_render hnames (.aggregate f) (by decide), hrest⟩
  | apply op operands ih =>
    refine ⟨?_, separated_cutAll hrest fun e he {rest} => ih e he⟩
    have hpercent : '%' ∉ op.name.toList := fun h =>
      absurd (op.isExpressionChar_of_mem_name '%' h) (by decide)
    simp [String.toList_append, hpercent]

theorem separated_cut_self (hnames : Plain names) (e : Expr) : Separated (cut names e) := by
  have h : Separated (cut names e ++ []) := separated_cut hnames e trivial trivial
  rwa [List.append_nil] at h

/-- Whether the characters of a leaf are told from what follows them. -/
def Ends (chars : List Char) : Prop := ',' ∉ chars ∧ ')' ∉ chars

/-- What stands in the slots can be read off. -/
theorem assemble_inj {pieces : List Piece} (h : Separated pieces) {slots slots' : List (List Char)}
    (hlength : slots.length = slotCount pieces) (hlength' : slots'.length = slotCount pieces)
    (hslots : ∀ chars ∈ slots, Ends chars) (hslots' : ∀ chars ∈ slots', Ends chars)
    (heq : assemble pieces slots = assemble pieces slots') : slots = slots' := by
  induction pieces generalizing slots slots' with
  | nil => rw [List.eq_nil_of_length_eq_zero hlength, List.eq_nil_of_length_eq_zero hlength']
  | cons piece rest ih =>
    cases piece with
    | text t =>
      rw [assemble, assemble] at heq
      exact ih h.2 hlength hlength' hslots hslots' (List.append_cancel_left heq)
    | slot =>
      obtain ⟨hfollows, hrest⟩ := h
      cases slots with
      | nil => cases hlength
      | cons chars slots =>
        cases slots' with
        | nil => cases hlength'
        | cons chars' slots' =>
          rw [assemble, assemble] at heq
          have hleaf : ∀ {chars : List Char}, Ends chars →
              ∀ c ∈ chars, (c != ',' && c != ')') = true := fun hends c hc => by
            have hcomma : c ≠ ',' := fun heq => hends.1 (heq ▸ hc)
            have hclose : c ≠ ')' := fun heq => hends.2 (heq ▸ hc)
            simp [hcomma, hclose]
          have hends : ∀ {slots : List (List Char)}, ∀ c ∈ (assemble rest slots).head?,
              (c != ',' && c != ')') = false := fun c hc => by
            rcases hfollows.head _ hc with rfl | rfl <;> rfl
          obtain ⟨hchars, htail⟩ := append_inj_of_ends (hleaf (hslots _ List.mem_cons_self))
            (hleaf (hslots' _ List.mem_cons_self)) hends hends heq
          rw [hchars, ih hrest (Nat.succ.inj hlength) (Nat.succ.inj hlength')
            (fun c hc => hslots c (List.mem_cons_of_mem _ hc))
            (fun c hc => hslots' c (List.mem_cons_of_mem _ hc)) htail]

end Piece

namespace Filling

variable {names : Variable → String}

/-- Whether a parameter can be a leaf of a predicate. -/
def IsLeaf (p : Parameter) : Prop := (∃ v, p = .var v) ∨ ∃ n, p = .integer n

/-- The characters of a filling in a template. -/
def chars (names : Variable → String) : Filling → List Char
  | inline leaf => Piece.leafChars names leaf
  | placeholder number => (s!"%{number}").toList

/-- The characters of a filling in an instance. -/
def charsOf (names : Variable → String) (arguments : List String) : Filling → List Char
  | inline leaf => Piece.leafChars names leaf
  | placeholder number => (arguments[number]?.getD "").toList

/-- The leaf that is filled in, if any. -/
def leaf? : Filling → Option Parameter
  | inline leaf => some leaf
  | placeholder _ => none

/-- The number of a placeholder. -/
def number? : Filling → Option Nat
  | inline _ => none
  | placeholder number => some number

theorem text?_eq {filling : Filling} (h : ∀ leaf ∈ filling.leaf?, IsLeaf leaf) :
    filling.text? names = some (String.ofList (filling.chars names)) := by
  cases filling with
  | placeholder number => rw [text?, chars, String.ofList_toList]
  | inline leaf =>
    rcases h leaf rfl with ⟨v, rfl⟩ | ⟨n, rfl⟩
    · simp [text?, chars, Piece.leafChars, Parameter.text]
    · simp [text?, chars, Piece.leafChars, Parameter.text]

/-- Filling the slots is putting the pieces together. -/
theorem fill_eq {pieces : List Piece} {fillings : List Filling}
    (hcount : Piece.slotCount pieces = fillings.length)
    (h : ∀ filling ∈ fillings, ∀ leaf ∈ filling.leaf?, IsLeaf leaf) :
    fill names pieces fillings =
      some (String.ofList (Piece.assemble pieces (fillings.map (chars names)))) := by
  induction pieces generalizing fillings with
  | nil => simp [fill, Piece.assemble]
  | cons piece rest ih =>
    cases piece with
    | text t =>
      rw [fill, ih hcount h]
      simp [Piece.assemble]
    | slot =>
      cases fillings with
      | nil => cases hcount
      | cons filling fillings =>
        rw [fill, text?_eq (h filling List.mem_cons_self),
          ih (Nat.succ.inj hcount) fun filling hf => h filling (List.mem_cons_of_mem _ hf)]
        simp [Piece.assemble]

/-- The marks of the pieces with their slots filled. -/
def marks (names : Variable → String) : List Piece → List Filling → List Mark
  | [], _ => []
  | .text t :: rest, fillings => t.toList.map .char ++ marks names rest fillings
  | .slot :: _, [] => []
  | .slot :: rest, inline leaf :: fillings =>
    (Piece.leafChars names leaf).map .char ++ marks names rest fillings
  | .slot :: rest, placeholder number :: fillings =>
    .placeholder number :: marks names rest fillings

/-- Scanning a template finds the slots again. -/
theorem scan_assemble {pieces : List Piece} (hpieces : Piece.Separated pieces)
    {fillings : List Filling} (hcount : Piece.slotCount pieces = fillings.length)
    (h : ∀ filling ∈ fillings, ∀ leaf ∈ filling.leaf?, '%' ∉ Piece.leafChars names leaf) :
    Mark.scanFrom none (Piece.assemble pieces (fillings.map (chars names))) =
      marks names pieces fillings := by
  induction pieces generalizing fillings with
  | nil => rfl
  | cons piece rest ih =>
    cases piece with
    | text t =>
      obtain ⟨ht, hrest⟩ := hpieces
      rw [Piece.assemble, Mark.scanFrom_plain ht, ih hrest hcount h, marks]
    | slot =>
      obtain ⟨hfollows, hrest⟩ := hpieces
      cases fillings with
      | nil => cases hcount
      | cons filling fillings =>
        have ih := ih hrest (Nat.succ.inj hcount)
          fun filling hf => h filling (List.mem_cons_of_mem _ hf)
        rw [List.map_cons, Piece.assemble]
        cases filling with
        | inline leaf =>
          rw [chars, Mark.scanFrom_plain (h _ List.mem_cons_self leaf rfl), ih, marks]
        | placeholder number =>
          rw [chars, Mark.scanFrom_placeholder number (hfollows.endsNumber _), ih, marks]

/-- Replacing the placeholders is filling the slots with the arguments. -/
theorem replaced_marks (arguments : List String) (pieces : List Piece) (fillings : List Filling) :
    (marks names pieces fillings).flatMap (Mark.replaced arguments) =
      Piece.assemble pieces (fillings.map (charsOf names arguments)) := by
  have hchars : ∀ chars : List Char,
      (chars.map Mark.char).flatMap (Mark.replaced arguments) = chars := fun chars => by
    induction chars with
    | nil => rfl
    | cons c chars ih => rw [List.map_cons, List.flatMap_cons, ih]; rfl
  induction pieces generalizing fillings with
  | nil => rfl
  | cons piece rest ih =>
    cases piece with
    | text t => rw [marks, List.flatMap_append, hchars, ih, Piece.assemble]
    | slot =>
      cases fillings with
      | nil => rfl
      | cons filling fillings =>
        rw [List.map_cons, Piece.assemble]
        cases filling with
        | inline leaf => rw [marks, List.flatMap_append, hchars, ih, charsOf]
        | placeholder number => rw [marks, List.flatMap_cons, ih, charsOf, Mark.replaced]

/-- The numbers in a template are those of its fillings. -/
theorem number?_marks {pieces : List Piece} {fillings : List Filling}
    (hcount : Piece.slotCount pieces = fillings.length) :
    (marks names pieces fillings).filterMap Mark.number? = fillings.filterMap number? := by
  have hchars : ∀ chars : List Char, (chars.map Mark.char).filterMap Mark.number? = [] :=
    fun chars => by
      rw [List.filterMap_map, List.filterMap_eq_nil_iff]
      exact fun _ _ => rfl
  induction pieces generalizing fillings with
  | nil => rw [List.eq_nil_of_length_eq_zero hcount.symm]; rfl
  | cons piece rest ih =>
    cases piece with
    | text t => rw [marks, List.filterMap_append, hchars, ih hcount, List.nil_append]
    | slot =>
      cases fillings with
      | nil => cases hcount
      | cons filling fillings =>
        have ih := ih (Nat.succ.inj hcount)
        cases filling with
        | inline leaf => rw [marks, List.filterMap_append, hchars, ih, List.nil_append]; rfl
        | placeholder number => rw [marks, List.filterMap_cons, List.filterMap_cons, ih]; rfl

/-! ### Columns -/

/-- What a filling has to do with the column of its slot. -/
def Represents (columns : List (List Parameter)) (column : List Parameter) : Filling → Prop
  | inline leaf => ∀ p ∈ column, p = leaf
  | placeholder number => columns[number]? = some column

theorem Represents.mono {columns more : List (List Parameter)} (h : columns <+: more)
    {column : List Parameter} {filling : Filling} (hfits : Represents columns column filling) :
    Represents more column filling := by
  cases filling with
  | inline leaf => exact hfits
  | placeholder number =>
    obtain ⟨others, rfl⟩ := h
    obtain ⟨hlt, _⟩ := List.getElem?_eq_some_iff.mp hfits
    rw [Represents, List.getElem?_append_left hlt]
    exact hfits

theorem ofColumns_spec (known : List (List Parameter)) {columns : List (List Parameter)}
    (h : ∀ column ∈ columns, column ≠ []) :
    known <+: (ofColumns known columns).2 ∧
      List.Forall₂ (Represents (ofColumns known columns).2) columns (ofColumns known columns).1 ∧
      ∀ k, known.length ≤ k → k < (ofColumns known columns).2.length →
        placeholder k ∈ (ofColumns known columns).1 := by
  induction columns generalizing known with
  | nil => exact ⟨List.prefix_refl known, .nil, fun k hk hk' => absurd hk' (Nat.not_lt.mpr hk)⟩
  | cons column rest ih =>
    have ih := fun known => ih known fun column hc => h column (List.mem_cons_of_mem _ hc)
    cases column with
    | nil => exact absurd rfl (h [] List.mem_cons_self)
    | cons leaf others =>
      rw [ofColumns]
      split
      · rename_i hsame
        obtain ⟨hbefore, hfits, hused⟩ := ih known
        refine ⟨hbefore, .cons (fun p hp => ?_) hfits, fun k hk hk' =>
          List.mem_cons_of_mem _ (hused k hk hk')⟩
        rcases List.mem_cons.mp hp with hp | hp
        · exact hp
        · exact eq_of_beq (List.all_eq_true.mp hsame p hp)
      · split
        · rename_i number hfound
          obtain ⟨hbefore, hfits, hused⟩ := ih known
          obtain ⟨hlt, heq, _⟩ := List.findIdx?_eq_some_iff_getElem.mp hfound
          have hnumber : Represents known (leaf :: others) (placeholder number) := by
            rw [Represents, List.getElem?_eq_getElem hlt, eq_of_beq heq]
          exact ⟨hbefore, .cons (hnumber.mono hbefore) hfits, fun k hk hk' =>
            List.mem_cons_of_mem _ (hused k hk hk')⟩
        · obtain ⟨hbefore, hfits, hused⟩ := ih (known ++ [leaf :: others])
          have hnew : Represents (known ++ [leaf :: others]) (leaf :: others)
              (placeholder known.length) := by
            rw [Represents, List.getElem?_append_right (Nat.le_refl _), Nat.sub_self]
            rfl
          refine ⟨(List.prefix_append _ _).trans hbefore, .cons (hnew.mono hbefore) hfits,
            fun k hk hk' => ?_⟩
          by_cases hfirst : k = known.length
          · rw [hfirst]
            exact List.mem_cons_self
          · refine List.mem_cons_of_mem _ (hused k ?_ hk')
            rw [List.length_append, List.length_singleton]
            omega

end Filling

section
variable {rows : List (List Parameter)} {n : Nat}

/-- A column holds the entry of every row. -/
theorem columnAt_getElem? (hrows : ∀ row ∈ rows, row.length = n) {i : Nat} (hi : i < n) (j : Nat) :
    (columnAt rows i)[j]? = rows[j]?.bind (·[i]?) := by
  induction rows generalizing j with
  | nil => rfl
  | cons row rest ih =>
    have hlt : i < row.length := by
      rw [hrows row List.mem_cons_self]
      exact hi
    have hcolumn : columnAt (row :: rest) i = row[i] :: columnAt rest i := by
      rw [columnAt, List.filterMap_cons, List.getElem?_eq_getElem hlt]
      rfl
    rw [hcolumn]
    cases j with
    | zero => simp [hlt]
    | succ j => simpa using ih (fun row h => hrows row (List.mem_cons_of_mem _ h)) j

theorem length_columnAt (hrows : ∀ row ∈ rows, row.length = n) {i : Nat} (hi : i < n) :
    (columnAt rows i).length = rows.length := by
  induction rows with
  | nil => rfl
  | cons row rest ih =>
    have hlt : i < row.length := by
      rw [hrows row List.mem_cons_self]
      exact hi
    have ih := ih fun row h => hrows row (List.mem_cons_of_mem _ h)
    rw [columnAt, List.filterMap_cons, List.getElem?_eq_getElem hlt]
    exact congrArg Nat.succ ih

/-- In the instance of a row the fillings are the entries of the row. -/
theorem map_charsOf (names : Variable → String) (hrows : ∀ row ∈ rows, row.length = n)
    {fillings : List Filling} {columns : List (List Parameter)}
    (hfillings : List.Forall₂ (Filling.Represents columns) ((List.range n).map (columnAt rows))
      fillings)
    (hcolumns : ∀ column ∈ columns, column.length = rows.length) {j : Nat} {row : List Parameter}
    (hj : rows[j]? = some row) :
    fillings.map (Filling.charsOf names ((columnAt columns j).map (Parameter.text names))) =
      row.map (Piece.leafChars names) := by
  obtain ⟨hlength, hget⟩ := List.forall₂_iff_get.mp hfillings
  obtain ⟨hlt, hrow⟩ := List.getElem?_eq_some_iff.mp hj
  have hlengthRow : row.length = n := hrows row (hrow ▸ List.getElem_mem hlt)
  rw [List.length_map, List.length_range] at hlength
  refine List.ext_getElem (by simp [← hlength, hlengthRow]) fun i h h' => ?_
  rw [List.length_map] at h h'
  have hi : i < n := by omega
  have hrepresents := hget i (by simpa using hi) h
  simp only [List.get_eq_getElem, List.getElem_map, List.getElem_range] at hrepresents
  have hentry : (columnAt rows i)[j]? = some row[i] := by
    rw [columnAt_getElem? hrows hi, hj, Option.bind_some, List.getElem?_eq_getElem h']
  rw [List.getElem_map, List.getElem_map]
  cases hfilling : fillings[i] with
  | inline leaf =>
    rw [hfilling] at hrepresents
    rw [Filling.charsOf, hrepresents _ (List.mem_of_getElem? hentry)]
  | placeholder number =>
    rw [hfilling] at hrepresents
    have hargument : (columnAt columns j)[number]? = some row[i] := by
      rw [columnAt_getElem? hcolumns hlt, hrepresents, Option.bind_some, hentry]
    rw [Filling.charsOf, List.getElem?_map, hargument]
    rfl

end

/-! ### Instances -/

theorem Piece.leavesOf_eq_flatMap (list : List Expr) : leavesOf list = list.flatMap leaves := by
  induction list with
  | nil => rfl
  | cons e rest ih => rw [leavesOf, ih, List.flatMap_cons]

/-- A leaf is a variable of the predicate or an integer. -/
theorem Piece.mem_leaves {e : Expr} {leaf : Parameter} (h : leaf ∈ leaves e) :
    (∃ v ∈ e.occurrences, leaf = .var v) ∨ ∃ n, leaf = .integer n := by
  induction e using Expr.induction with
  | const n => exact .inr ⟨n, List.mem_singleton.mp h⟩
  | var v => exact .inl ⟨v, List.mem_singleton_self v, List.mem_singleton.mp h⟩
  | set members => cases h
  | aggregate f _ => cases h
  | apply op operands ih =>
    rw [leaves, leavesOf_eq_flatMap] at h
    obtain ⟨e, he, h⟩ := List.mem_flatMap.mp h
    refine (ih e he h).imp_left ?_
    rintro ⟨v, hv, hleaf⟩
    refine ⟨v, ?_, hleaf⟩
    rw [Expr.occurrences, Expr.occurrencesIn_eq_flatMap]
    exact List.mem_flatMap.mpr ⟨e, he, hv⟩

theorem Piece.isLeaf_of_mem_leaves {e : Expr} {leaf : Parameter} (h : leaf ∈ leaves e) :
    Filling.IsLeaf leaf :=
  (mem_leaves h).imp_left fun ⟨v, _, hleaf⟩ => ⟨v, hleaf⟩

theorem Filling.IsLeaf.not_mem {names : Variable → String} (hnames : Plain names)
    {leaf : Parameter} (h : IsLeaf leaf) {c : Char} (hc : Text.isNameChar c = false)
    (hminus : c ≠ '-') : c ∉ Piece.leafChars names leaf := by
  rcases h with ⟨v, rfl⟩ | ⟨n, rfl⟩
  · exact hnames.not_mem hc v
  · exact not_mem_toString hc hminus n

theorem Filling.IsLeaf.ends {names : Variable → String} (hnames : Plain names)
    {leaf : Parameter} (h : IsLeaf leaf) : Piece.Ends (Piece.leafChars names leaf) :=
  ⟨h.not_mem hnames rfl (by decide), h.not_mem hnames rfl (by decide)⟩

/-- What the fillings of a template have to do with the rows they come from. -/
structure Filling.Describes (rows : List (List Parameter)) (n : Nat) (fillings : List Filling)
    (columns : List (List Parameter)) : Prop where
  represents : List.Forall₂ (Represents columns) ((List.range n).map (columnAt rows)) fillings
  length_column : ∀ column ∈ columns, column.length = rows.length
  entry : ∀ column ∈ columns, ∀ p ∈ column, ∃ row ∈ rows, p ∈ row
  leaf : ∀ filling ∈ fillings, ∀ leaf ∈ filling.leaf?, ∃ row ∈ rows, leaf ∈ row
  number : ∀ k, k ∈ fillings.filterMap number? ↔ k < columns.length

theorem Filling.describes_ofColumns {rows : List (List Parameter)} {n : Nat} (hne : rows ≠ [])
    (hrows : ∀ row ∈ rows, row.length = n) :
    Describes rows n (ofColumns [] ((List.range n).map (columnAt rows))).1
      (ofColumns [] ((List.range n).map (columnAt rows))).2 := by
  have hcolumn : ∀ column ∈ (List.range n).map (columnAt rows), column.length = rows.length ∧
      ∀ p ∈ column, ∃ row ∈ rows, p ∈ row := fun column hc => by
    obtain ⟨i, hi, rfl⟩ := List.mem_map.mp hc
    refine ⟨length_columnAt hrows (List.mem_range.mp hi), fun p hp => ?_⟩
    obtain ⟨row, hrow, hpi⟩ := List.mem_filterMap.mp hp
    exact ⟨row, hrow, List.mem_of_getElem? hpi⟩
  have hcolumns : ∀ column ∈ (List.range n).map (columnAt rows), column ≠ [] := by
    rintro column hc rfl
    exact hne (List.eq_nil_of_length_eq_zero (hcolumn [] hc).1.symm)
  obtain ⟨_, hrepresents, hused⟩ := ofColumns_spec [] hcolumns
  -- every column of a placeholder is one of the given columns
  have hgiven : ∀ column ∈ (ofColumns [] ((List.range n).map (columnAt rows))).2,
      column ∈ (List.range n).map (columnAt rows) := fun column hc => by
    obtain ⟨k, hk, rfl⟩ := List.getElem_of_mem hc
    obtain ⟨column', hc', hrep⟩ := exists_of_forall₂_of_mem hrepresents (hused k (Nat.zero_le k) hk)
    rw [Represents, List.getElem?_eq_getElem hk] at hrep
    rwa [Option.some.inj hrep]
  refine ⟨hrepresents, fun column hc => (hcolumn column (hgiven column hc)).1,
    fun column hc => (hcolumn column (hgiven column hc)).2, fun filling hf leaf hleaf => ?_,
    fun k => ⟨fun hk => ?_, fun hk => ?_⟩⟩
  · obtain ⟨column, hc, hrep⟩ := exists_of_forall₂_of_mem hrepresents hf
    cases filling with
    | placeholder number => cases hleaf
    | inline leaf' =>
      obtain rfl : leaf' = leaf := Option.some.inj hleaf
      obtain ⟨p, hp⟩ := List.exists_mem_of_ne_nil _ (hcolumns _ hc)
      exact hrep p hp ▸ (hcolumn column hc).2 p hp
  · obtain ⟨filling, hf, hnumber⟩ := List.mem_filterMap.mp hk
    obtain ⟨column, _, hrep⟩ := exists_of_forall₂_of_mem hrepresents hf
    cases filling with
    | inline leaf => cases hnumber
    | placeholder number =>
      cases hnumber
      exact (List.getElem?_eq_some_iff.mp hrep).1
  · exact List.mem_filterMap.mpr ⟨_, hused k (Nat.zero_le k) hk, rfl⟩

/-- Whether fillings can fill the slots of a predicate. -/
structure Filling.Suits (e : Expr) (fillings : List Filling) : Prop where
  length : fillings.length = (Piece.leaves e).length
  leaf : ∀ filling ∈ fillings, ∀ leaf ∈ filling.leaf?, IsLeaf leaf

/-- A template of predicates with its slots filled. -/
def Layout.ofFillings (names : Variable → String) (e : Expr) (fillings : List Filling) : Layout :=
  { name := "intension"
    arguments := [{ name := "function", content := .template (String.ofList
      (Piece.assemble (Piece.ofExpr names e) (fillings.map (Filling.chars names)))) }] }

section
variable {names : Variable → String} (hnames : Plain names) {e : Expr} {fillings : List Filling}
include hnames

/-- Scanning a template of predicates. -/
theorem scan_template (hsuits : Filling.Suits e fillings) :
    Mark.scan (String.ofList
      (Piece.assemble (Piece.ofExpr names e) (fillings.map (Filling.chars names)))) =
    Filling.marks names (Piece.cut names e) fillings := by
  rw [Mark.scan, String.toList_ofList, Piece.ofExpr, Piece.assemble_merge]
  exact Filling.scan_assemble (Piece.separated_cut_self hnames e)
    ((Piece.slotCount_cut e).trans hsuits.length.symm)
    fun filling hf leaf hl => (hsuits.leaf filling hf leaf hl).not_mem hnames rfl (by decide)

/-- An instance is the pieces with the fillings replaced. -/
theorem substitute_template (hsuits : Filling.Suits e fillings) (arguments : List String) :
    substitute arguments (String.ofList
      (Piece.assemble (Piece.ofExpr names e) (fillings.map (Filling.chars names)))) =
    String.ofList (Piece.assemble (Piece.ofExpr names e)
      (fillings.map (Filling.charsOf names arguments))) := by
  rw [substitute, scan_template hnames hsuits, Filling.replaced_marks, Piece.ofExpr,
    Piece.assemble_merge]

/-- Instances for different arguments are different. -/
theorem substitute_injective (hsuits : Filling.Suits e fillings) {as bs : List String}
    (has : ∀ t ∈ as, Piece.Ends t.toList) (hbs : ∀ t ∈ bs, Piece.Ends t.toList)
    (h : substitute as (String.ofList
        (Piece.assemble (Piece.ofExpr names e) (fillings.map (Filling.chars names)))) =
      substitute bs (String.ofList
        (Piece.assemble (Piece.ofExpr names e) (fillings.map (Filling.chars names)))))
    {k : Nat} (hk : k ∈ fillings.filterMap Filling.number?) :
    as[k]?.getD "" = bs[k]?.getD "" := by
  have hends : ∀ {arguments : List String}, (∀ t ∈ arguments, Piece.Ends t.toList) →
      ∀ chars ∈ fillings.map (Filling.charsOf names arguments), Piece.Ends chars := by
    intro arguments harguments chars hchars
    obtain ⟨filling, hf, rfl⟩ := List.mem_map.mp hchars
    cases filling with
    | inline leaf => exact (hsuits.leaf _ hf leaf rfl).ends hnames
    | placeholder number =>
      rw [Filling.charsOf]
      cases hargument : arguments[number]? with
      | none => exact ⟨fun hc => (nomatch hc), fun hc => (nomatch hc)⟩
      | some t => exact harguments t (List.mem_of_getElem? hargument)
  have hcount := hsuits.length.trans (@Piece.slotCount_cut names e).symm
  rw [substitute_template hnames hsuits, substitute_template hnames hsuits, Piece.ofExpr,
    Piece.assemble_merge, Piece.assemble_merge] at h
  have hslots := Piece.assemble_inj (Piece.separated_cut_self hnames e)
    (by rwa [List.length_map]) (by rwa [List.length_map]) (hends has) (hends hbs) (String.ofList_injective h)
  obtain ⟨filling, hf, hnumber⟩ := List.mem_filterMap.mp hk
  have hsame := List.map_inj_left.mp hslots filling hf
  cases filling with
  | inline leaf => cases hnumber
  | placeholder number =>
    cases hnumber
    exact String.toList_inj.mp hsame

/-- A template takes as many arguments as there are columns. -/
theorem width_template (hsuits : Filling.Suits e fillings) {columns rows : List (List Parameter)}
    {n : Nat} (hdescribes : Filling.Describes rows n fillings columns) :
    (Layout.ofFillings names e fillings).width = columns.length := by
  refine length_eraseDups_of_mem_iff fun k => ?_
  rw [Layout.ofFillings, List.flatMap_singleton, Content.placeholders, scan_template hnames hsuits,
    Filling.number?_marks ((Piece.slotCount_cut e).trans hsuits.length.symm)]
  exact hdescribes.number k

end

/-! ### Templates of similar predicates -/

section
variable {names : Variable → String} {e : Expr} {es : List Expr}

/-- Predicates with the same pieces have the same number of leaves. -/
theorem length_leaves (hes : ∀ e' ∈ es, Piece.ofExpr names e' = Piece.ofExpr names e) :
    ∀ row ∈ es.map Piece.leaves, row.length = (Piece.leaves e).length := by
  intro row hrow
  obtain ⟨e', he', rfl⟩ := List.mem_map.mp hrow
  rw [← Piece.slotCount_ofExpr names, hes e' he', Piece.slotCount_ofExpr]

/-- The template of similar predicates comes from the columns of their leaves. -/
theorem exists_of_predicateTemplate (hne : es ≠ [])
    (hes : ∀ e' ∈ es, Piece.ofExpr names e' = Piece.ofExpr names e)
    {template : Layout} {arguments : List (List Parameter)}
    (h : predicateTemplate names (Piece.ofExpr names e) (es.map Piece.leaves) =
      some (template, arguments)) :
    ∃ fillings columns,
      Filling.Describes (es.map Piece.leaves) (Piece.leaves e).length fillings columns ∧
      Filling.Suits e fillings ∧ template = Layout.ofFillings names e fillings ∧
      arguments = (List.range es.length).map (columnAt columns) := by
  have hrows := length_leaves hes
  have hslots : ((es.map Piece.leaves).headD []).length = (Piece.leaves e).length := by
    cases es with
    | nil => exact absurd rfl hne
    | cons e' rest => exact hrows _ List.mem_cons_self
  have hdescribes := Filling.describes_ofColumns (mt List.map_eq_nil_iff.mp hne) hrows
  simp only [predicateTemplate, hslots] at h
  revert hdescribes h
  generalize Filling.ofColumns [] _ = filled
  obtain ⟨fillings, columns⟩ := filled
  intro hdescribes h
  have hsuits : Filling.Suits e fillings := by
    refine ⟨?_, fun filling hf leaf hl => ?_⟩
    · rw [← hdescribes.represents.length_eq, List.length_map, List.length_range]
    · obtain ⟨row, hrow, hmem⟩ := hdescribes.leaf filling hf leaf hl
      obtain ⟨e', _, rfl⟩ := List.mem_map.mp hrow
      exact Piece.isLeaf_of_mem_leaves hmem
  rw [Filling.fill_eq ((Piece.slotCount_ofExpr names e).trans hsuits.length.symm) hsuits.leaf] at h
  split at h
  · cases h
  · cases h
    exact ⟨fillings, columns, hdescribes, hsuits, rfl, by rw [List.length_map]⟩

/-- The arguments of an instance are leaves of the predicates. -/
theorem mem_leaves_of_predicateTemplate (hne : es ≠ [])
    (hes : ∀ e' ∈ es, Piece.ofExpr names e' = Piece.ofExpr names e)
    {template : Layout} {arguments : List (List Parameter)}
    (h : predicateTemplate names (Piece.ofExpr names e) (es.map Piece.leaves) =
      some (template, arguments)) {a : List Parameter} (ha : a ∈ arguments) {p : Parameter}
    (hp : p ∈ a) : ∃ e' ∈ es, p ∈ Piece.leaves e' := by
  obtain ⟨fillings, columns, hdescribes, _, rfl, rfl⟩ := exists_of_predicateTemplate hne hes h
  obtain ⟨j, _, rfl⟩ := List.mem_map.mp ha
  obtain ⟨column, hc, hpj⟩ := List.mem_filterMap.mp hp
  obtain ⟨row, hrow, hmem⟩ := hdescribes.entry column hc p (List.mem_of_getElem? hpj)
  obtain ⟨e', he', rfl⟩ := List.mem_map.mp hrow
  exact ⟨e', he', hmem⟩

variable (hnames : Plain names)
include hnames

/-- Predicates with the same pieces are the instances of their template, which takes as
many arguments as it has placeholders. -/
theorem readingOf_predicateTemplate (hne : es ≠ [])
    (hes : ∀ e' ∈ es, Piece.ofExpr names e' = Piece.ofExpr names e)
    {template : Layout} {arguments : List (List Parameter)}
    (h : predicateTemplate names (Piece.ofExpr names e) (es.map Piece.leaves) =
      some (template, arguments)) :
    arguments.map (template.readingOf names) = es.map (fun e => .predicate (e.render names)) ∧
      ∀ a ∈ arguments, a.length = template.width := by
  obtain ⟨fillings, columns, hdescribes, hsuits, rfl, rfl⟩ := exists_of_predicateTemplate hne hes h
  refine ⟨List.ext_getElem (by simp) fun j hj hj' => ?_, fun a ha => ?_⟩
  · rw [List.length_map] at hj'
    have hrow : (es.map Piece.leaves)[j]? = some (Piece.leaves es[j]) := by simp [hj']
    have hfilled := map_charsOf names (length_leaves hes) hdescribes.represents
      hdescribes.length_column hrow
    simp only [List.getElem_map, List.getElem_range]
    refine congrArg Reading.predicate ?_
    rw [substitute_template hnames hsuits, hfilled, ← hes _ (List.getElem_mem hj'),
      Piece.assemble_ofExpr, String.ofList_toList]
  · obtain ⟨j, hj, rfl⟩ := List.mem_map.mp ha
    rw [width_template hnames hsuits hdescribes]
    refine length_columnAt hdescribes.length_column ?_
    rw [List.length_map]
    exact List.mem_range.mp hj

/-- An instance of a template of predicates tells its arguments. -/
theorem readingOf_predicateTemplate_injective (hne : es ≠ [])
    (hes : ∀ e' ∈ es, Piece.ofExpr names e' = Piece.ofExpr names e)
    {template : Layout} {arguments : List (List Parameter)}
    (h : predicateTemplate names (Piece.ofExpr names e) (es.map Piece.leaves) =
      some (template, arguments))
    {as bs : List Parameter} (has : ∀ a ∈ as, Filling.IsLeaf a) (hbs : ∀ b ∈ bs, Filling.IsLeaf b)
    (hlength : as.length = template.width) (hlength' : bs.length = template.width)
    (heq : template.readingOf names as = template.readingOf names bs) :
    as.map (Parameter.text names) = bs.map (Parameter.text names) := by
  obtain ⟨fillings, columns, hdescribes, hsuits, rfl, rfl⟩ := exists_of_predicateTemplate hne hes h
  rw [width_template hnames hsuits hdescribes] at hlength hlength'
  have hends : ∀ {list : List Parameter}, (∀ a ∈ list, Filling.IsLeaf a) →
      ∀ t ∈ list.map (Parameter.text names), Piece.Ends t.toList := fun hlist t ht => by
    obtain ⟨a, ha, rfl⟩ := List.mem_map.mp ht
    exact (hlist a ha).ends hnames
  have hsubstitute := Reading.predicate.inj heq
  refine List.ext_getElem? fun k => ?_
  by_cases hk : k < columns.length
  · have hget := substitute_injective hnames hsuits (hends has) (hends hbs) hsubstitute
      ((hdescribes.number k).mpr hk)
    have hka : k < (as.map (Parameter.text names)).length := by rw [List.length_map]; omega
    have hkb : k < (bs.map (Parameter.text names)).length := by rw [List.length_map]; omega
    rw [List.getElem?_eq_getElem hka, List.getElem?_eq_getElem hkb] at hget ⊢
    exact congrArg some hget
  · rw [List.getElem?_eq_none (by rw [List.length_map]; omega),
      List.getElem?_eq_none (by rw [List.length_map]; omega)]

end

end CspModel
