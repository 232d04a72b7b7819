import CspModel.Proofs.Expansion
import CspModel.Proofs.Placement

/-! # Functional notation tells the expression

An expression without aggregates can be read off its text.  The text begins with a name or
a number, and what follows tells which: an application goes on with a parenthesis, a
variable or a constant ends before a comma, before a parenthesis or with the text.  So one
operand after the other is told apart from what follows it (`Expr.delimited_render`).
-/
namespace CspModel

open CspModel.Expr

/-! ### Names and numbers -/

theorem Int.toString_injective {m n : Int} (h : toString m = toString n) : m = n := by
  have hdigits : ∀ {i j : Nat}, i.repr ≠ "-" ++ j.repr := by
    intro i j heq
    have hminus : '-' ∈ i.repr.toList := by
      rw [heq, String.toList_append]
      exact List.mem_append_left _ (List.mem_singleton_self _)
    exact absurd (Nat.isDigit_of_mem_repr hminus) (by decide)
  rw [Int.toString_eq_repr, Int.toString_eq_repr, Int.repr_eq_if, Int.repr_eq_if] at h
  split at h
  · split at h
    · have := Nat.repr_injective h
      omega
    · exact absurd h hdigits
  · split at h
    · exact absurd h.symm hdigits
    · have h := congrArg String.toList h
      rw [String.toList_append, String.toList_append] at h
      have := Nat.repr_injective (String.toList_inj.mp (List.append_cancel_left h))
      omega

theorem Operator.find?_name (op : Operator) :
    Operator.all.find? (fun other => other.name == op.name) = some op := by
  cases op <;> decide

/-- The name of an operator tells it. -/
theorem Operator.name_injective {op op' : Operator} (h : op.name = op'.name) : op = op' := by
  have hfind := op.find?_name
  rw [h, op'.find?_name] at hfind
  exact (Option.some.inj hfind).symm

theorem Operator.name_ne_set (op : Operator) : op.name ≠ "set" := by
  cases op <;> decide

theorem Text.isIdentifier_set : isIdentifier "set" = true := by decide

/-- A name begins like no number. -/
theorem Text.BeginsName.ne_integer {name : String} (h : BeginsName name) (n : Int) :
    toString n ≠ name := by
  rintro rfl
  obtain ⟨c, hc, hstart⟩ := h
  obtain ⟨chars, hchars⟩ := List.head?_eq_some_iff.mp hc
  obtain ⟨hdigit, hminus⟩ := not_isDigit_of_isIdentifierStart hstart
  rcases mem_toString (hchars ▸ List.mem_cons_self : c ∈ (toString n).toList) with h | h
  · exact hminus h
  · rw [hdigit] at h
    cases h

/-! ### Operands -/

/-- Whether a text can follow an operand. -/
def FollowsOperand (chars : List Char) : Prop := ∀ c ∈ chars.head?, c = ',' ∨ c = ')'

/-- Whether what is written can be told apart from what follows it. -/
def Delimited {α : Type} (chars : α → List Char) (a : α) (b : α) : Prop :=
  ∀ rest rest', FollowsOperand rest → FollowsOperand rest' →
    chars a ++ rest = chars b ++ rest' → a = b ∧ rest = rest'

/-- Whether a character can be part of a name or a number. -/
def Text.isLeafChar (c : Char) : Bool := isNameChar c || c == '-'

theorem isLeafChar_of_mem_toString {n : Int} {c : Char} (h : c ∈ (toString n).toList) :
    Text.isLeafChar c = true := by
  rcases mem_toString h with rfl | h
  · decide
  · simp [Text.isLeafChar, Text.isNameChar, Text.isIdentifierRest_of_isDigit h]

theorem isLeafChar_of_isIdentifier {name : String} (h : Text.isIdentifier name = true) :
    ∀ c ∈ name.toList, Text.isLeafChar c = true := fun c hc => by
  simp [Text.isLeafChar, Text.isNameChar, Text.isIdentifierRest_of_mem h hc]

theorem FollowsOperand.ne_open {rest : List Char} (h : FollowsOperand rest) (chars : List Char) :
    rest ≠ '(' :: chars := by
  rintro rfl
  rcases h '(' rfl with h | h <;> exact absurd h (by decide)

theorem FollowsOperand.isLeafChar {rest : List Char} (h : FollowsOperand rest) :
    ∀ c ∈ rest.head?, Text.isLeafChar c = false := fun c hc => by
  rcases h c hc with rfl | rfl <;> decide

theorem toString_toList_ne_nil (n : Int) : (toString n).toList ≠ [] := by
  intro h
  have hinteger := Reader.isInteger_toString n
  rw [h] at hinteger
  cases hinteger

theorem delimited_integer (m n : Int) : Delimited (fun n : Int => (toString n).toList) m n := by
  intro rest rest' hrest hrest' h
  obtain ⟨heq, htail⟩ := append_inj_of_ends (fun c hc => isLeafChar_of_mem_toString hc)
    (fun c hc => isLeafChar_of_mem_toString hc) hrest.isLeafChar hrest'.isLeafChar h
  exact ⟨Int.toString_injective (String.toList_inj.mp heq), htail⟩

/-- What follows an argument: the arguments after it, each after a comma, and the closing
parenthesis. -/
def closing {α : Type} (chars : α → List Char) : List α → List Char → List Char
  | [], rest => ')' :: rest
  | a :: as, rest => ',' :: (chars a ++ closing chars as rest)

section
variable {α : Type} {chars : α → List Char} {rest rest' : List Char}

theorem intercalate_closing (a : α) (as : List α) (rest : List Char) :
    [','].intercalate ((a :: as).map chars) ++ ')' :: rest = chars a ++ closing chars as rest := by
  induction as generalizing a with
  | nil => simp [closing]
  | cons b as ih =>
    rw [closing, ← ih b]
    simp [List.intercalate_cons_cons]

theorem followsOperand_closing (as : List α) (rest : List Char) :
    FollowsOperand (closing chars as rest) := by
  intro c hc
  cases as with
  | nil => exact .inr (Option.some.inj hc).symm
  | cons a as => exact .inl (Option.some.inj hc).symm

theorem closing_inj {as bs : List α} (h : ∀ a ∈ as, ∀ b ∈ bs, Delimited chars a b)
    (heq : closing chars as rest = closing chars bs rest') : as = bs ∧ rest = rest' := by
  induction as generalizing bs with
  | nil =>
    cases bs with
    | nil => exact ⟨rfl, (List.cons.inj heq).2⟩
    | cons b bs => exact absurd (List.cons.inj heq).1 (by decide)
  | cons a as ih =>
    cases bs with
    | nil => exact absurd (List.cons.inj heq).1 (by decide)
    | cons b bs =>
      obtain ⟨rfl, htail⟩ := h a List.mem_cons_self b List.mem_cons_self _ _
        (followsOperand_closing as rest) (followsOperand_closing bs rest') (List.cons.inj heq).2
      obtain ⟨rfl, hrest⟩ := ih (fun a ha b hb =>
        h a (List.mem_cons_of_mem _ ha) b (List.mem_cons_of_mem _ hb)) htail
      exact ⟨rfl, hrest⟩

/-- Whether a text begins with neither a comma nor a parenthesis. -/
def BeginsOperand (chars : List Char) : Prop := ∃ c ∈ chars.head?, Text.isLeafChar c = true

theorem BeginsOperand.ne_close {list : List Char} (h : BeginsOperand list) (tail rest : List Char) :
    list ++ tail ≠ ')' :: rest := by
  intro heq
  obtain ⟨c, hc, hleaf⟩ := h
  obtain ⟨list', rfl⟩ := List.head?_eq_some_iff.mp hc
  rw [(List.cons.inj heq).1] at hleaf
  exact absurd hleaf (by decide)

theorem beginsOperand_integer (n : Int) : BeginsOperand (toString n).toList := by
  obtain ⟨c, list, hchars⟩ := List.exists_cons_of_ne_nil (toString_toList_ne_nil n)
  exact ⟨c, by rw [hchars]; rfl, isLeafChar_of_mem_toString (hchars ▸ List.mem_cons_self)⟩

/-- Arguments that are delimited are told by the text of their list. -/
theorem arguments_inj {as bs : List α} (hbegins : ∀ a, a ∈ as ∨ a ∈ bs → BeginsOperand (chars a))
    (h : ∀ a ∈ as, ∀ b ∈ bs, Delimited chars a b)
    (heq : [','].intercalate (as.map chars) ++ ')' :: rest =
      [','].intercalate (bs.map chars) ++ ')' :: rest') : as = bs ∧ rest = rest' := by
  cases as with
  | nil =>
    cases bs with
    | nil => exact ⟨rfl, (List.cons.inj heq).2⟩
    | cons b bs =>
      rw [intercalate_closing] at heq
      exact absurd heq.symm ((hbegins b (.inr List.mem_cons_self)).ne_close _ _)
  | cons a as =>
    cases bs with
    | nil =>
      rw [intercalate_closing] at heq
      exact absurd heq ((hbegins a (.inl List.mem_cons_self)).ne_close _ _)
    | cons b bs =>
      rw [intercalate_closing, intercalate_closing] at heq
      obtain ⟨rfl, htail⟩ := h a List.mem_cons_self b List.mem_cons_self _ _
        (followsOperand_closing as rest) (followsOperand_closing bs rest') heq
      obtain ⟨rfl, hrest⟩ := closing_inj (fun a ha b hb =>
        h a (List.mem_cons_of_mem _ ha) b (List.mem_cons_of_mem _ hb)) htail
      exact ⟨rfl, hrest⟩

end

/-! ### Expressions -/

/-- Names that expressions can be read off: no two known variables share one, and each
begins like a name. -/
structure Telling (known : Variable → Prop) (names : Variable → String) : Prop where
  plain : Plain names
  begins : ∀ v, known v → Text.BeginsName (names v)
  injective : ∀ v w, known v → known w → names v = names w → v = w

namespace Expr

variable {known : Variable → Prop} {names : Variable → String}

/-- The name of an application, or the whole text of a variable or a constant. -/
def head (names : Variable → String) : Expr → String
  | const n => toString n
  | var v => names v
  | set _ => "set"
  | apply op _ => op.name
  | aggregate f => f.kind

/-- What follows the head. -/
def tail (names : Variable → String) : Expr → List Char
  | const _ => []
  | var _ => []
  | set members => '(' :: ([','].intercalate (members.map fun n => (toString n).toList) ++ [')'])
  | apply _ operands =>
    '(' :: ([','].intercalate (operands.map fun e => (e.render names).toList) ++ [')'])
  | aggregate f =>
    '(' :: ([','].intercalate (f.operands.map fun e => (e.render names).toList) ++ [')'])

theorem toList_render (names : Variable → String) (e : Expr) :
    (e.render names).toList = (e.head names).toList ++ e.tail names := by
  cases e with
  | const n | var v => simp [render, head, tail]
  | set members =>
    rw [render, toList_call, List.map_map]
    rfl
  | apply op operands =>
    rw [render, toList_call, renderAll_eq_map, List.map_map]
    rfl
  | aggregate f =>
    rw [render, toList_call, renderOperands_eq_map, List.map_map]
    rfl

theorem isLeafChar_of_mem_head (hnames : Plain names) (e : Expr) :
    ∀ c ∈ (e.head names).toList, Text.isLeafChar c = true := by
  cases e with
  | const n => exact fun c hc => isLeafChar_of_mem_toString hc
  | var v => exact fun c hc => by simp [Text.isLeafChar, hnames v c hc]
  | set members => exact isLeafChar_of_isIdentifier Text.isIdentifier_set
  | apply op operands => exact isLeafChar_of_isIdentifier op.isIdentifier_name
  | aggregate f => exact isLeafChar_of_isIdentifier f.isIdentifier_kind

theorem beginsOperand_render (h : Telling known names) {e : Expr} (he : e.Lifted known) :
    BeginsOperand (e.render names).toList := by
  have hne : (e.head names).toList ≠ [] := by
    have hidentifier : ∀ {name : String}, Text.BeginsName name → name.toList ≠ [] := by
      rintro name ⟨c, hc, -⟩ hnil
      rw [hnil] at hc
      cases hc
    cases e with
    | const n => exact toString_toList_ne_nil n
    | var v => exact hidentifier (h.begins v (he _ (self_mem_parts _)))
    | set members => exact hidentifier (Text.beginsName_of_isIdentifier Text.isIdentifier_set)
    | apply op operands => exact hidentifier (Text.beginsName_of_isIdentifier op.isIdentifier_name)
    | aggregate f => exact hidentifier (Text.beginsName_of_isIdentifier f.isIdentifier_kind)
  obtain ⟨c, chars, hchars⟩ := List.exists_cons_of_ne_nil hne
  refine ⟨c, ?_, e.isLeafChar_of_mem_head h.plain c (hchars ▸ List.mem_cons_self)⟩
  rw [toList_render, hchars]
  rfl

/-- Two texts that agree have the same heads. -/
theorem head_tail_inj (hnames : Plain names) {e e' : Expr} {rest rest' : List Char}
    (hrest : FollowsOperand rest) (hrest' : FollowsOperand rest')
    (heq : (e.render names).toList ++ rest = (e'.render names).toList ++ rest') :
    e.head names = e'.head names ∧ e.tail names ++ rest = e'.tail names ++ rest' := by
  have hends : ∀ {e : Expr} {rest : List Char}, FollowsOperand rest →
      ∀ c ∈ (e.tail names ++ rest).head?, Text.isLeafChar c = false := by
    intro e rest hrest c hc
    cases e with
    | const | var => exact hrest.isLeafChar c hc
    | _ =>
      obtain rfl := Option.some.inj hc
      decide
  rw [toList_render, toList_render, List.append_assoc, List.append_assoc] at heq
  obtain ⟨hhead, htail⟩ := append_inj_of_ends (e.isLeafChar_of_mem_head hnames)
    (e'.isLeafChar_of_mem_head hnames) (hends hrest) (hends hrest') heq
  exact ⟨String.toList_inj.mp hhead, htail⟩

/-- The text of an expression without aggregates tells the expression and where it ends. -/
theorem delimited_render (h : Telling known names) {e e' : Expr} (he : e.Lifted known)
    (he' : e'.Lifted known) : Delimited (fun e : Expr => (e.render names).toList) e e' := by
  -- the induction is on the first expression; the second one is of the same kind, as either the
  -- heads or what follows them would differ otherwise
  induction e using Expr.induction generalizing e' with
  | const n =>
    intro rest rest' hrest hrest' heq
    obtain ⟨hhead, htail⟩ := head_tail_inj h.plain hrest hrest' heq
    cases e' with
    | const m => exact ⟨congrArg const (Int.toString_injective hhead), htail⟩
    | var w => exact absurd hhead ((h.begins w (he' _ (self_mem_parts _))).ne_integer n)
    | set | apply => exact absurd htail (hrest.ne_open _)
    | aggregate f => exact (he' _ (self_mem_parts _)).elim
  | var v =>
    intro rest rest' hrest hrest' heq
    obtain ⟨hhead, htail⟩ := head_tail_inj h.plain hrest hrest' heq
    have hv : known v := he _ (self_mem_parts _)
    cases e' with
    | const m => exact absurd hhead.symm ((h.begins v hv).ne_integer m)
    | var w => exact ⟨congrArg var (h.injective v w hv (he' _ (self_mem_parts _)) hhead), htail⟩
    | set | apply => exact absurd htail (hrest.ne_open _)
    | aggregate f => exact (he' _ (self_mem_parts _)).elim
  | set members =>
    intro rest rest' hrest hrest' heq
    obtain ⟨hhead, htail⟩ := head_tail_inj h.plain hrest hrest' heq
    cases e' with
    | const | var => exact absurd htail.symm (hrest'.ne_open _)
    | set members' =>
      simp only [tail, List.cons_append, List.append_assoc, List.nil_append] at htail
      obtain ⟨rfl, hrest⟩ := arguments_inj (fun n _ => beginsOperand_integer n)
        (fun m _ n _ => delimited_integer m n) (List.cons.inj htail).2
      exact ⟨rfl, hrest⟩
    | apply op operands => exact absurd hhead.symm op.name_ne_set
    | aggregate f => exact (he' _ (self_mem_parts _)).elim
  | apply op operands ih =>
    intro rest rest' hrest hrest' heq
    obtain ⟨hhead, htail⟩ := head_tail_inj h.plain hrest hrest' heq
    cases e' with
    | const | var => exact absurd htail.symm (hrest'.ne_open _)
    | set members => exact absurd hhead op.name_ne_set
    | apply op' operands' =>
      have hall := lifted_apply.mp he
      have hall' := lifted_apply.mp he'
      simp only [tail, List.cons_append, List.append_assoc, List.nil_append] at htail
      obtain rfl := Operator.name_injective hhead
      -- operands of the first application are told apart from any operands by induction
      obtain ⟨rfl, hrest⟩ := arguments_inj
        (fun e hmem => beginsOperand_render h (hmem.elim (hall e) (hall' e)))
        (fun e hmem e' hmem' => ih e hmem (hall e hmem) (hall' e' hmem')) (List.cons.inj htail).2
      exact ⟨rfl, hrest⟩
    | aggregate f => exact (he' _ (self_mem_parts _)).elim
  | aggregate f _ => exact (he _ (self_mem_parts _)).elim

/-- The text of an expression without aggregates tells the expression. -/
theorem render_injective (h : Telling known names) {e e' : Expr} (he : e.Lifted known)
    (he' : e'.Lifted known) (heq : e.render names = e'.render names) : e = e' := by
  have hend : FollowsOperand [] := fun c hc => nomatch hc
  refine (delimited_render h he he' [] [] hend hend ?_).1
  simp only [heq]

end Expr

end CspModel
