import CspModel.Proofs.Identifiers

/-! # Trees are read back from their markup

A reader of markup recovers every tree that was written (`Markup.element?_render`).  It cuts a
start tag at the first `>`, because neither identifiers nor escaped values have one, the
attributes at quotation marks, and a text at the next tag.  An element without content is told
by its tag, and an empty text leaves two blanks, so that it is not taken for no text at all.
Where a tag closes nothing a child begins, and the line break and the margin before it belong
to the child and not to the text.

The indentation tells where the children of an element end.  So the induction over trees keeps
what follows an element general, and for several elements asks only that no further one at
their depth follows.
-/
namespace CspModel

namespace Markup

/-! ### The reader -/

/-- The characters that an escaped text stands for. -/
def unescape : List Char → List Char
  | '&' :: 'a' :: 'm' :: 'p' :: ';' :: rest => '&' :: unescape rest
  | '&' :: 'l' :: 't' :: ';' :: rest => '<' :: unescape rest
  | '&' :: 'g' :: 't' :: ';' :: rest => '>' :: unescape rest
  | '&' :: 'q' :: 'u' :: 'o' :: 't' :: ';' :: rest => '"' :: unescape rest
  | c :: rest => c :: unescape rest
  | [] => []

/-- The attributes of a start tag, cut at quotation marks. -/
def attributes : List (List Char) → List (String × String)
  | header :: value :: rest =>
    (String.ofList (header.drop 1).dropLast, String.ofList (unescape value)) :: attributes rest
  | _ => []

/-- The element of a start tag with a content. -/
def ofTag (tag : List Char) (text : Option String) (children : List Element) : Element :=
  { name := String.ofList (tag.takeWhile (· != ' '))
    attributes := attributes ((tag.dropWhile (· != ' ')).splitOn '"')
    text
    children }

/-- The text between tags, without the blanks around it. -/
def text? : List Char → Option String
  | [] => none
  | _ :: chars => some (String.ofList (unescape chars.dropLast))

/-- What an element at some depth begins with. -/
def opening (depth : Nat) : List Char := List.replicate (2 * depth) ' ' ++ ['<']

/-- What an element ends with. -/
def closing (tag : List Char) : List Char :=
  '<' :: '/' :: tag.takeWhile (· != ' ') ++ ['>', '\n']

mutual
/-- Reads an element at some depth, and answers what comes after it. -/
def element? : Nat → Nat → List Char → Option (Element × List Char)
  | 0, _, _ => none
  | fuel + 1, depth, chars =>
    (chars.dropPrefix? (opening depth)).bind fun chars =>
      let tag := chars.takeWhile (· != '>')
      let chars := (chars.dropWhile (· != '>')).drop 1
      if tag.getLast? = some '/' then
        (chars.dropPrefix? ['\n']).map fun chars => (ofTag tag.dropLast none [], chars)
      else
        let raw := chars.takeWhile (· != '<')
        let chars := chars.dropWhile (· != '<')
        match chars.dropPrefix? (closing tag) with
        | some chars => some (ofTag tag (text? raw) [], chars)
        | none =>
          -- before the first child there are a line break and its indentation
          let start := raw.length - 2 * (depth + 1)
          let (children, chars) := elements fuel (depth + 1) (raw.drop start ++ chars)
          (chars.dropPrefix? (List.replicate (2 * depth) ' ' ++ closing tag)).map fun chars =>
            (ofTag tag (text? (raw.take (start - 1))) children, chars)

/-- Reads elements at some depth as long as there are any. -/
def elements : Nat → Nat → List Char → List Element × List Char
  | 0, _, chars => ([], chars)
  | fuel + 1, depth, chars =>
    match element? fuel depth chars with
    | none => ([], chars)
    | some (e, chars) =>
      let (rest, chars) := elements fuel depth chars
      (e :: rest, chars)
end

/-- Reads a document. -/
def document? (text : String) : Option Element :=
  match element? text.toList.length 0 text.toList with
  | some (e, []) => some e
  | _ => none

/-! ### Escaped texts -/

theorem unescape_cons {c : Char} (hc : c ≠ '&') (rest : List Char) :
    unescape (c :: rest) = c :: unescape rest := by
  rw [unescape.eq_def]
  split <;> simp_all

theorem unescape_escapeChar (inAttribute : Bool) (c : Char) (rest : List Char) :
    unescape (Element.escapeChar inAttribute c ++ rest) = c :: unescape rest := by
  unfold Element.escapeChar
  split
  · subst_vars
    rfl
  · rename_i hc
    split
    · subst_vars
      rfl
    · split
      · subst_vars
        rfl
      · split
        · rename_i h
          obtain rfl : c = '"' := by simpa using (Bool.and_eq_true_iff.mp h).1
          rfl
        · exact unescape_cons hc rest

theorem unescape_escape (inAttribute : Bool) (text : String) :
    unescape (Element.escape inAttribute text).toList = text.toList := by
  rw [Element.escape, String.toList_ofList]
  induction text.toList with
  | nil => rfl
  | cons c rest ih => rw [List.flatMap_cons, unescape_escapeChar, ih]

/-- A character is escaped or has no meaning in markup. -/
theorem escapeChar_cases (inAttribute : Bool) (c : Char) :
    Element.escapeChar inAttribute c ∈
        ["&amp;".toList, "&lt;".toList, "&gt;".toList, "&quot;".toList] ∨
      Element.escapeChar inAttribute c = [c] ∧ c ≠ '<' ∧ c ≠ '>' ∧
        (inAttribute = true → c ≠ '"') := by
  unfold Element.escapeChar
  split
  · exact .inl (by decide)
  · split
    · exact .inl (by decide)
    · rename_i hlt
      split
      · exact .inl (by decide)
      · rename_i hgt
        split
        · exact .inl (by decide)
        · rename_i hquote
          exact .inr ⟨rfl, hlt, hgt, fun h heq => hquote (by simp [h, heq])⟩

/-- No escaped text has a character of markup. -/
theorem not_mem_escape {inAttribute : Bool} {c : Char}
    (hc : c = '<' ∨ c = '>' ∨ c = '"' ∧ inAttribute = true) (text : String) :
    c ∉ (Element.escape inAttribute text).toList := by
  rw [Element.escape, String.toList_ofList, List.mem_flatMap]
  rintro ⟨d, -, hd⟩
  rcases escapeChar_cases inAttribute d with hentity | ⟨hself, hlt, hgt, hquote⟩
  · have hentities : ∀ entity ∈ ["&amp;".toList, "&lt;".toList, "&gt;".toList, "&quot;".toList],
        '<' ∉ entity ∧ '>' ∉ entity ∧ '"' ∉ entity := by decide
    obtain ⟨hlt, hgt, hquote⟩ := hentities _ hentity
    rcases hc with rfl | rfl | ⟨rfl, -⟩
    · exact hlt hd
    · exact hgt hd
    · exact hquote hd
  · rw [hself] at hd
    obtain rfl := List.mem_singleton.mp hd
    rcases hc with rfl | rfl | ⟨rfl, h⟩
    · exact hlt rfl
    · exact hgt rfl
    · exact hquote h rfl

/-! ### Start tags -/

theorem attributesText_cons (key value : String) (rest : List (String × String)) :
    (Element.attributesText ((key, value) :: rest)).toList =
      ' ' :: key.toList ++ '=' :: '"' :: (Element.escape true value).toList ++
        '"' :: (Element.attributesText rest).toList := by
  simp [Element.attributesText, String.join_cons, String.toList_append]

/-- The pieces into which quotation marks cut attributes. -/
def pieces : List (String × String) → List (List Char)
  | [] => [[]]
  | (key, value) :: rest =>
    (' ' :: key.toList ++ ['=']) :: (Element.escape true value).toList :: pieces rest

theorem splitOn_attributesText {as : List (String × String)}
    (hkeys : ∀ a ∈ as, '"' ∉ a.1.toList) :
    (Element.attributesText as).toList.splitOn '"' = pieces as := by
  have hne : ∀ as, pieces as ≠ [] := fun as => by
    cases as <;> exact List.cons_ne_nil _ _
  have htext : (Element.attributesText as).toList = ['"'].intercalate (pieces as) := by
    induction as with
    | nil => rfl
    | cons a rest ih =>
      obtain ⟨piece, others, heq⟩ := List.exists_cons_of_ne_nil (hne rest)
      rw [attributesText_cons, ih fun b hb => hkeys b (List.mem_cons_of_mem _ hb), pieces, heq]
      simp [List.intercalate_cons_cons]
  have hpieces : ∀ piece ∈ pieces as, '"' ∉ piece := by
    clear htext
    induction as with
    | nil => exact List.forall_mem_singleton.mpr List.not_mem_nil
    | cons a rest ih =>
      obtain ⟨ha, hrest⟩ := List.forall_mem_cons.mp hkeys
      refine List.forall_mem_cons.mpr ⟨by simp [ha], List.forall_mem_cons.mpr ⟨?_, ih hrest⟩⟩
      exact not_mem_escape (.inr (.inr ⟨rfl, rfl⟩)) a.2
  rw [htext]
  exact List.splitOn_intercalate '"' hpieces (hne as)

theorem attributes_pieces (as : List (String × String)) : attributes (pieces as) = as := by
  induction as with
  | nil => rfl
  | cons a rest ih =>
    rw [pieces, attributes, ih, unescape_escape]
    simp

/-- The characters of a start tag. -/
def tagOf (e : Element) : List Char := e.name.toList ++ (Element.attributesText e.attributes).toList

/-- Whether the name and the keys of an element are identifiers. -/
def Tagged (e : Element) : Prop :=
  Text.isIdentifier e.name = true ∧ ∀ a ∈ e.attributes, Text.isIdentifier a.1 = true

theorem not_mem_of_not_rest {text : String} (h : Text.isIdentifier text = true) {c : Char}
    (hc : Text.isIdentifierRest c = false) : c ∉ text.toList := fun hmem => by
  rw [Text.isIdentifierRest_of_mem h hmem] at hc
  cases hc

section
variable {e : Element}

theorem head?_attributesText (as : List (String × String)) :
    ∀ c ∈ (Element.attributesText as).toList.head?, c = ' ' := by
  cases as with
  | nil => exact fun _ h => nomatch h
  | cons a rest =>
    rw [attributesText_cons]
    intro c hc
    exact (Option.some.inj hc).symm

/-- The name of a start tag ends at the first blank. -/
theorem cut_tagOf (h : Tagged e) : (tagOf e).takeWhile (· != ' ') = e.name.toList ∧
    (tagOf e).dropWhile (· != ' ') = (Element.attributesText e.attributes).toList :=
  takeWhile_dropWhile_ne (not_mem_of_not_rest h.1 (by decide)) (head?_attributesText _)

/-- A start tag is read back. -/
theorem ofTag_tagOf (h : Tagged e) (text : Option String) (children : List Element) :
    ofTag (tagOf e) text children = { e with text, children } := by
  obtain ⟨hname, hrest⟩ := cut_tagOf h
  rw [ofTag, hname, hrest, splitOn_attributesText fun a ha =>
    not_mem_of_not_rest (h.2 a ha) (by decide), attributes_pieces, String.ofList_toList]

theorem closing_tagOf (h : Tagged e) :
    closing (tagOf e) = ("</" ++ e.name ++ ">\n").toList := by
  rw [closing, (cut_tagOf h).1]
  simp [String.toList_append]

/-- A start tag ends before the first `>`. -/
theorem not_mem_tagOf (h : Tagged e) : '>' ∉ tagOf e := by
  have hattributes : ∀ as : List (String × String), (∀ a ∈ as, Text.isIdentifier a.1 = true) →
      '>' ∉ (Element.attributesText as).toList := by
    intro as has
    induction as with
    | nil => exact List.not_mem_nil
    | cons a rest ih =>
      obtain ⟨ha, hrest⟩ := List.forall_mem_cons.mp has
      have hkey := not_mem_of_not_rest ha (c := '>') (by decide)
      have hvalue : '>' ∉ (Element.escape true a.2).toList := not_mem_escape (.inr (.inl rfl)) a.2
      rw [attributesText_cons]
      simp [hkey, hvalue, ih hrest]
  exact fun hmem => (List.mem_append.mp hmem).elim (not_mem_of_not_rest h.1 (by decide))
    (hattributes _ h.2)

/-- No start tag ends like that of an element without content. -/
theorem getLast?_tagOf (h : Tagged e) : (tagOf e).getLast? ≠ some '/' := by
  have hattributes : ∀ as : List (String × String), as ≠ [] →
      (Element.attributesText as).toList.getLast? = some '"' := by
    intro as has
    induction as with
    | nil => exact absurd rfl has
    | cons a rest ih =>
      rw [attributesText_cons]
      cases rest with
      | nil => exact List.getLast?_concat
      | cons b rest =>
        rw [List.getLast?_append, List.getLast?_cons, ih (List.cons_ne_nil _ _)]
        rfl
  unfold tagOf
  rw [List.getLast?_append]
  cases has : e.attributes with
  | nil =>
    intro hlast
    have hmem : '/' ∈ e.name.toList :=
      List.mem_of_getLast? (by simpa [Element.attributesText] using hlast)
    exact not_mem_of_not_rest h.1 (by decide) hmem
  | cons a rest =>
    rw [hattributes _ (List.cons_ne_nil _ _), Option.some_or]
    decide

end


/-! ### Trees -/

mutual
/-- Whether the names and the keys of a tree are identifiers. -/
def Named : Element → Prop
  | ⟨name, attributes, text, children⟩ =>
    Tagged ⟨name, attributes, text, children⟩ ∧ NamedAll children

def NamedAll : List Element → Prop
  | [] => True
  | e :: rest => Named e ∧ NamedAll rest
end

mutual
/-- How deep a reader has to go. -/
def size : Element → Nat
  | ⟨_, _, _, children⟩ => sizeAll children + 1

def sizeAll : List Element → Nat
  | [] => 0
  | e :: rest => size e + sizeAll rest + 1
end

theorem tagged_of_named : {e : Element} → Named e → Tagged e
  | ⟨_, _, _, _⟩, h => h.1

theorem text?_paddedText (text : Option String) :
    text? (Element.paddedText text).toList = text := by
  cases text with
  | none => rfl
  | some text =>
    have hpadded : (Element.paddedText (some text)).toList =
        ' ' :: ((Element.escape false text).toList ++ [' ']) := by
      simp [Element.paddedText, String.toList_append]
    rw [hpadded, text?, List.dropLast_concat, unescape_escape, String.ofList_toList]

theorem not_mem_paddedText (text : Option String) :
    '<' ∉ (Element.paddedText text).toList := by
  cases text with
  | none => exact List.not_mem_nil
  | some text =>
    simp [Element.paddedText, String.toList_append, not_mem_escape (.inl rfl) text]

theorem toList_indentation (depth : Nat) :
    (Element.indentation depth).toList = List.replicate (2 * depth) ' ' :=
  String.toList_ofList

/-! What is written, cut where the reader cuts it. -/

section
variable {e : Element} (h : Tagged e)
include h

theorem toList_render_empty (depth : Nat) (htext : e.text = none) (hchildren : e.children = []) :
    (e.render depth).toList = opening depth ++ (tagOf e ++ ['/', '>', '\n']) := by
  obtain ⟨name, attributes, _, _⟩ := e
  subst htext hchildren
  simp [Element.render, opening, tagOf, String.toList_append, toList_indentation]

theorem toList_render_text (depth : Nat) {text : String} (htext : e.text = some text)
    (hchildren : e.children = []) :
    (e.render depth).toList = opening depth ++ (tagOf e ++ '>' ::
      ((Element.paddedText (some text)).toList ++ closing (tagOf e))) := by
  rw [closing_tagOf h]
  obtain ⟨name, attributes, _, _⟩ := e
  subst htext hchildren
  simp [Element.render, opening, tagOf, String.toList_append, toList_indentation]

theorem toList_render_children (depth : Nat) (hchildren : e.children ≠ []) :
    (e.render depth).toList = opening depth ++ (tagOf e ++ '>' ::
      ((Element.paddedText e.text).toList ++ '\n' ::
        ((Element.renderAll (depth + 1) e.children).toList ++
          (List.replicate (2 * depth) ' ' ++ closing (tagOf e))))) := by
  rw [closing_tagOf h]
  obtain ⟨name, attributes, text, children⟩ := e
  obtain ⟨first, rest, rfl⟩ := List.exists_cons_of_ne_nil hchildren
  simp [Element.render, Element.renderAll, opening, tagOf, String.toList_append,
    toList_indentation]

end

/-- An element begins with its margin and a tag that is not the end of another one. -/
theorem exists_of_render {e : Element} (h : Tagged e) (depth : Nat) :
    ∃ c rest, c ≠ '/' ∧ (e.render depth).toList = opening depth ++ c :: rest := by
  obtain ⟨first, name, hname⟩ : ∃ first name, e.name.toList = first :: name := by
    refine List.exists_cons_of_ne_nil fun hnil => ?_
    have hidentifier := h.1
    rw [Text.isIdentifier, hnil] at hidentifier
    cases hidentifier
  have hfirst : first ≠ '/' := by
    rintro rfl
    exact not_mem_of_not_rest h.1 (c := '/') (by decide) (hname ▸ List.mem_cons_self)
  have hrender : ∃ rest, (e.render depth).toList = opening depth ++ (tagOf e ++ rest) := by
    rcases eq_or_ne e.children [] with hchildren | hchildren
    · cases htext : e.text with
      | none => exact ⟨_, toList_render_empty h depth htext hchildren⟩
      | some text => exact ⟨_, toList_render_text h depth htext hchildren⟩
    · exact ⟨_, toList_render_children h depth hchildren⟩
  obtain ⟨rest, hrest⟩ := hrender
  rw [tagOf, hname] at hrest
  exact ⟨first, _, hfirst, hrest⟩

/-! The reader at the places where it decides. -/

theorem dropPrefix?_append (as bs : List Char) : (as ++ bs).dropPrefix? as = some bs :=
  List.dropPrefix?_append_of_beq bs (beq_self_eq_true as)

/-- Where an element ends there is no further one inside it. -/
theorem dropPrefix?_opening_succ (depth : Nat) (rest : List Char) :
    (List.replicate (2 * depth) ' ' ++ '<' :: rest).dropPrefix? (opening (depth + 1)) = none := by
  rw [Option.eq_none_iff_forall_ne_some]
  intro chars hchars
  obtain ⟨front, heq, hfront⟩ := List.dropPrefix?_eq_some_iff.mp hchars
  obtain rfl := eq_of_beq hfront
  have hchar := congrArg (·[2 * depth]?) heq
  have hlt : 2 * depth < (List.replicate (2 * (depth + 1)) ' ').length := by
    rw [List.length_replicate]
    omega
  rw [opening, List.append_assoc] at hchar
  rw [List.getElem?_append_left hlt, List.getElem?_append_right (by simp)] at hchar
  simp at hchar

theorem element?_eq_none {depth : Nat} {chars : List Char}
    (h : chars.dropPrefix? (opening depth) = none) (fuel : Nat) :
    element? fuel depth chars = none := by
  cases fuel with
  | zero => rfl
  | succ fuel => rw [element?, h, Option.bind_none]

theorem elements_eq_nil {depth : Nat} {chars : List Char}
    (h : chars.dropPrefix? (opening depth) = none) (fuel : Nat) :
    elements fuel depth chars = ([], chars) := by
  cases fuel with
  | zero => rfl
  | succ fuel => rw [elements, element?_eq_none h]

theorem eq_of_mem_head? (c : Char) (chars : List Char) : ∀ b ∈ (c :: chars).head?, b = c :=
  fun _ hb => (Option.some.inj hb).symm

/-- The beginning of an element is read up to its content. -/
theorem takeWhile_tagOf {e : Element} (h : Tagged e) (chars : List Char) :
    (tagOf e ++ '>' :: chars).takeWhile (· != '>') = tagOf e ∧
      ((tagOf e ++ '>' :: chars).dropWhile (· != '>')).drop 1 = chars := by
  obtain ⟨htake, hdrop⟩ := takeWhile_dropWhile_ne (not_mem_tagOf h) (eq_of_mem_head? '>' chars)
  exact ⟨htake, by rw [hdrop, List.drop_one, List.tail_cons]⟩

/-- So is an element without content. -/
theorem takeWhile_tagOf_slash {e : Element} (h : Tagged e) (chars : List Char) :
    (tagOf e ++ '/' :: '>' :: chars).takeWhile (· != '>') = tagOf e ++ ['/'] ∧
      ((tagOf e ++ '/' :: '>' :: chars).dropWhile (· != '>')).drop 1 = chars := by
  have hslash : '>' ∉ tagOf e ++ ['/'] := by simp [not_mem_tagOf h]
  obtain ⟨htake, hdrop⟩ := takeWhile_dropWhile_ne hslash (eq_of_mem_head? '>' chars)
  rw [List.append_assoc, List.singleton_append] at htake hdrop
  exact ⟨htake, by rw [hdrop, List.drop_one, List.tail_cons]⟩

/-! The three ways in which an element goes on after its start tag. -/

section
variable {e : Element} (h : Tagged e) (fuel depth : Nat) (after : List Char)
include h

theorem element?_empty : element? (fuel + 1) depth
      (opening depth ++ (tagOf e ++ '/' :: '>' :: '\n' :: after)) =
    some ({ e with text := none, children := [] }, after) := by
  obtain ⟨htag, hafter⟩ := takeWhile_tagOf_slash h ('\n' :: after)
  rw [element?, dropPrefix?_append, Option.bind_some]
  simp only [htag, hafter, List.getLast?_concat, if_pos, List.dropLast_concat, ofTag_tagOf h]
  rw [← List.singleton_append, dropPrefix?_append, Option.map_some]

theorem element?_text {raw : List Char} (hraw : '<' ∉ raw) : element? (fuel + 1) depth
      (opening depth ++ (tagOf e ++ '>' :: (raw ++ (closing (tagOf e) ++ after)))) =
    some ({ e with text := text? raw, children := [] }, after) := by
  obtain ⟨htag, hafter⟩ := takeWhile_tagOf h (raw ++ (closing (tagOf e) ++ after))
  have hhead : ∀ b ∈ (closing (tagOf e) ++ after).head?, b = '<' := eq_of_mem_head? '<' _
  obtain ⟨htext, hend⟩ := takeWhile_dropWhile_ne hraw hhead
  rw [element?, dropPrefix?_append, Option.bind_some]
  simp only [htag, hafter, if_neg (getLast?_tagOf h), htext, hend, dropPrefix?_append,
    ofTag_tagOf h]

/-- The children are read with the margin of the first one, which stands before its tag. -/
theorem element?_children {raw : List Char} (hraw : '<' ∉ raw) {c : Char} (hc : c ≠ '/')
    {chars : List Char} {children : List Element}
    (hchildren : elements fuel (depth + 1) (opening (depth + 1) ++ c :: chars) =
      (children, List.replicate (2 * depth) ' ' ++ (closing (tagOf e) ++ after))) :
    element? (fuel + 1) depth (opening depth ++ (tagOf e ++ '>' ::
        (raw ++ '\n' :: (opening (depth + 1) ++ c :: chars)))) =
      some ({ e with text := text? raw, children }, after) := by
  let margin := List.replicate (2 * (depth + 1)) ' '
  obtain ⟨htag, hafter⟩ := takeWhile_tagOf h (raw ++ '\n' :: (opening (depth + 1) ++ c :: chars))
  have hbefore : '<' ∉ raw ++ '\n' :: margin := by simp [margin, hraw]
  obtain ⟨htext, hend⟩ := takeWhile_dropWhile_ne hbefore (eq_of_mem_head? '<' (c :: chars))
  have hcut : raw ++ '\n' :: (opening (depth + 1) ++ c :: chars) =
      (raw ++ '\n' :: margin) ++ '<' :: c :: chars := by
    simp [opening, margin]
  have hclosing : ('<' :: c :: chars).dropPrefix? (closing (tagOf e)) = none := by
    simp [closing, List.dropPrefix?, hc]
  have hlength : (raw ++ '\n' :: margin).length - 2 * (depth + 1) = raw.length + 1 := by
    simp [margin]
    omega
  have hdrop : (raw ++ '\n' :: margin).drop (raw.length + 1) ++ '<' :: c :: chars =
      opening (depth + 1) ++ c :: chars := by
    rw [← List.singleton_append, ← List.append_assoc, List.drop_left' (by simp), opening,
      List.append_assoc, List.singleton_append]
  have htake : (raw ++ '\n' :: margin).take (raw.length + 1 - 1) = raw := by
    simp
  rw [hcut] at htag hafter
  rw [hcut, element?, dropPrefix?_append, Option.bind_some]
  simp only [htag, hafter, if_neg (getLast?_tagOf h), htext, hend, hclosing, hlength, hdrop,
    htake, hchildren, ofTag_tagOf h]
  rw [← List.append_assoc, dropPrefix?_append, Option.map_some]

end

mutual
/-- What is written of a tree is read back, whatever comes after it. -/
theorem element?_render : (e : Element) → Named e → ∀ {fuel : Nat}, size e ≤ fuel →
    ∀ (depth : Nat) (after : List Char),
    element? fuel depth ((e.render depth).toList ++ after) = some (e, after)
  | ⟨name, attributes, text, children⟩, hnamed, 0, hfuel, depth, after => by
    simp [size] at hfuel
  | ⟨name, attributes, none, []⟩, hnamed, fuel + 1, hfuel, depth, after => by
    rw [toList_render_empty hnamed.1 depth rfl rfl, List.append_assoc, List.append_assoc]
    exact element?_empty hnamed.1 fuel depth after
  | ⟨name, attributes, some text, []⟩, hnamed, fuel + 1, hfuel, depth, after => by
    have hread := element?_text hnamed.1 fuel depth after (not_mem_paddedText (some text))
    rw [text?_paddedText] at hread
    rw [toList_render_text hnamed.1 depth rfl rfl]
    simpa only [List.append_assoc, List.cons_append] using hread
  | ⟨name, attributes, text, first :: rest⟩, hnamed, fuel + 1, hfuel, depth, after => by
    obtain ⟨htagged, hnamed⟩ := hnamed
    let e : Element := ⟨name, attributes, text, first :: rest⟩
    let stop := List.replicate (2 * depth) ' ' ++ (closing (tagOf e) ++ after)
    have hstop : stop.dropPrefix? (opening (depth + 1)) = none := dropPrefix?_opening_succ depth _
    have hchildren := elements_renderAll (first :: rest) hnamed (Nat.le_of_succ_le_succ hfuel) hstop
    -- the margin of the first child stands in the text before it
    obtain ⟨c, chars, hc, hfirst⟩ := exists_of_render (tagged_of_named hnamed.1) (depth + 1)
    have hall : (Element.renderAll (depth + 1) (first :: rest)).toList =
        opening (depth + 1) ++ c :: (chars ++ (Element.renderAll (depth + 1) rest).toList) := by
      rw [Element.renderAll, String.toList_append, hfirst, List.append_assoc, List.cons_append]
    have hrender := toList_render_children htagged depth (List.cons_ne_nil _ _)
    rw [hall, List.append_assoc, List.cons_append] at hchildren
    have hread := element?_children htagged fuel depth after (not_mem_paddedText text) hc hchildren
    rw [text?_paddedText] at hread
    rw [hrender, hall]
    simpa only [List.append_assoc, List.cons_append, stop, e] using hread

theorem elements_renderAll : (es : List Element) → NamedAll es → ∀ {fuel : Nat},
    sizeAll es ≤ fuel → ∀ {depth : Nat} {after : List Char},
    after.dropPrefix? (opening depth) = none →
    elements fuel depth ((Element.renderAll depth es).toList ++ after) = (es, after)
  | [], _, fuel, _, depth, after, h => elements_eq_nil h fuel
  | e :: rest, hnamed, 0, hfuel, depth, after, h => by
    simp [sizeAll] at hfuel
  | e :: rest, hnamed, fuel + 1, hfuel, depth, after, h => by
    rw [sizeAll] at hfuel
    rw [Element.renderAll, String.toList_append, List.append_assoc, elements,
      element?_render e hnamed.1 (by omega)]
    dsimp only
    rw [elements_renderAll rest hnamed.2 (by omega) h]
end


mutual
/-- A text is long enough for all the elements in it. -/
theorem size_lt_length_render (depth : Nat) : (e : Element) →
    size e < (e.render depth).toList.length
  | ⟨name, attributes, none, []⟩ => by
    simp [size, sizeAll, Element.render, String.toList_append]
    omega
  | ⟨name, attributes, some text, []⟩ => by
    simp [size, sizeAll, Element.render, String.toList_append]
    omega
  | ⟨name, attributes, text, first :: rest⟩ => by
    have hchildren := sizeAll_le_length_renderAll (depth + 1) (first :: rest)
    rw [Element.renderAll, String.toList_append, List.length_append] at hchildren
    simp only [size, Element.render, String.toList_append, List.length_append]
    simp
    omega

theorem sizeAll_le_length_renderAll (depth : Nat) : (es : List Element) →
    sizeAll es ≤ (Element.renderAll depth es).toList.length
  | [] => Nat.zero_le _
  | e :: rest => by
    have he := size_lt_length_render depth e
    have hrest := sizeAll_le_length_renderAll depth rest
    rw [sizeAll, Element.renderAll, String.toList_append, List.length_append]
    omega
end

/-- What is written of a document is read back. -/
theorem document?_render {e : Element} (h : Named e) : document? (e.render 0) = some e := by
  have hread := element?_render e h (Nat.le_of_lt (size_lt_length_render 0 e)) 0 []
  rw [List.append_nil] at hread
  rw [document?, hread]

end Markup

/-- Writing trees is injective.  Whatever characters the values and texts have, two trees with
the same text are the same, because a reader recovers each of them: names, attributes in their
order, whether there is a text and which one, and the children in their order. -/
theorem Element.write_injective {e e' : Element} (hnamed : Markup.Named e)
    (hnamed' : Markup.Named e') (hidentified : e.Identified) (hidentified' : e'.Identified) :
    (∃ text, e.write = .ok text ∧ Markup.document? text = some e) ∧
      (e.write = e'.write → e = e') := by
  have hwrite := Element.write_eq_ok_iff.mpr ⟨hidentified, rfl⟩
  have hwrite' := Element.write_eq_ok_iff.mpr ⟨hidentified', rfl⟩
  refine ⟨⟨_, hwrite, Markup.document?_render hnamed⟩, fun heq => ?_⟩
  rw [hwrite, hwrite'] at heq
  have htext := Except.ok.inj heq
  have hread := Markup.document?_render hnamed
  rw [htext, Markup.document?_render hnamed'] at hread
  exact (Option.some.inj hread).symm

namespace Markup

/-- A note with quotation marks, a text that looks like markup next to two children, and an
empty text or none at all in the first of them. -/
def tree (text : Option String) : Element :=
  { name := "block"
    attributes := [("id", "b"), ("note", "\"x\" < &lt;")]
    text := some "<args/>\n  1"
    children := [{ name := "args", text }, { name := "list", text := some "x y" }] }

theorem named_tree (text : Option String) : Named (tree text) := by
  have hkeys : ∀ a ∈ [("id", "b"), ("note", "\"x\" < &lt;")], Text.isIdentifier a.1 = true := by
    decide
  have hnone : ∀ a ∈ ([] : List (String × String)), Text.isIdentifier a.1 = true :=
    fun _ h => nomatch h
  have hname : ∀ name ∈ ["block", "args", "list"], Text.isIdentifier name = true := by decide
  simp only [List.forall_mem_cons] at hname
  obtain ⟨hblock, hargs, hlist, -⟩ := hname
  exact ⟨⟨hblock, hkeys⟩, ⟨⟨hargs, hnone⟩, trivial⟩, ⟨⟨hlist, hnone⟩, trivial⟩, trivial⟩

theorem identified_tree (text : Option String) : (tree text).Identified := by
  show ∀ a ∈ [("id", "b"), ("note", "\"x\" < &lt;")], ¬Element.Misused a
  decide

/-- An empty text is told from no text. -/
theorem tree_written_apart : (tree none).write ≠ (tree (some "")).write ∧
    ∃ text, (tree none).write = .ok text ∧ document? text = some (tree none) := by
  obtain ⟨hread, hinjective⟩ := Element.write_injective (named_tree none) (named_tree (some ""))
    (identified_tree none) (identified_tree (some ""))
  refine ⟨fun heq => ?_, hread⟩
  have htree := hinjective heq
  simp [tree] at htree

end Markup
end CspModel
