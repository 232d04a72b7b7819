import CspModel.Grouping.Windows
import CspModel.Proofs.Strict.Lookups
import CspModel.Proofs.Templates

/-! # What similar constraints have in common is there

The template of similar constraints is made from the leaves of predicates, slot by slot, or
from the lists of layouts, position by position.  Similar predicates have as many leaves as
their pieces have slots, and similar layouts have as many arguments, so every slot and every
position that is read exists; windows that are compared are not empty.
-/
namespace CspModel
namespace Strict

/-! ### Pieces -/

mutual
/-- The pieces of an expression before neighbouring texts are joined. -/
def cut (names : Variable → Option String) : Expr → Option (List Piece)
  | .const _ => some [.slot]
  | .var _ => some [.slot]
  | .set values => do
    let text ← render names (.set values)
    return [.text text]
  | .aggregate f => do
    let text ← render names (.aggregate f)
    return [.text text]
  | .apply op operands => do
    let pieces ← cutAll names operands
    return .text (op.name ++ "(") :: pieces

/-- The pieces of the operands that remain, with the parenthesis that closes them. -/
def cutAll (names : Variable → Option String) : List Expr → Option (List Piece)
  | [] => some [.text ")"]
  | [e] => do
    let pieces ← cut names e
    return pieces ++ [.text ")"]
  | e :: rest => do
    let pieces ← cut names e
    let others ← cutAll names rest
    return pieces ++ .text "," :: others
end

/-- The form of a relation. -/
def formOf (names : Variable → Option String) : Relation → Option Form
  | .intension e => do
    let pieces ← cut names e
    return .predicate (Piece.merge pieces) (Piece.leaves e)
  | r => some (.laidOut (Layout.ofRelation r))

section
variable {known : Variable → Prop} {names' : Variable → Option String} {names : Variable → String}

end

/-! ### Templates of predicates -/

/-- The entries at one position of several rows. -/
def columnAt (rows : List (List Parameter)) (position : Nat) : Option (List Parameter) :=
  rows.mapM (·[position]?)

/-- Whether all entries of a column are the same. -/
def isUniform : List Parameter → Bool
  | [] => true
  | leaf :: others => others.all (· == leaf)

/-- The fillings of the slots with the given columns, and the columns of the placeholders, of
which `known` have been met before. -/
def ofColumns (known : List (List Parameter)) :
    List (List Parameter) → Option (List Filling × List (List Parameter))
  | [] => some ([], known)
  | column :: rest =>
    if isUniform column then do
      let leaf ← column[0]?
      let (fillings, columns) ← ofColumns known rest
      return (.inline leaf :: fillings, columns)
    else
      match known.findIdx? (· == column) with
      | some number => do
        let (fillings, columns) ← ofColumns known rest
        return (.placeholder number :: fillings, columns)
      | none => do
        let (fillings, columns) ← ofColumns (known ++ [column]) rest
        return (.placeholder known.length :: fillings, columns)

/-- The text of a filling; only variables and integers are filled in. -/
def fillingText (names : Variable → Option String) : Filling → Option (Option String)
  | .placeholder number => some (some s!"%{number}")
  | .inline (.var v) => some <$> names v
  | .inline (.integer value) => some (some (toString value))
  | .inline _ => some none

/-- The pieces with their slots filled. -/
def fill (names : Variable → Option String) : List Piece → List Filling → Option (Option String)
  | [], _ => some (some "")
  | .text text :: rest, fillings => do
    let filled ← fill names rest fillings
    return filled.map (text ++ ·)
  | .slot :: _, [] => some none
  | .slot :: rest, filling :: fillings => do
    match ← fillingText names filling with
    | none => return none
    | some text =>
      let filled ← fill names rest fillings
      return filled.map (text ++ ·)

/-- The template of predicates with the same pieces, and the arguments of every member. -/
def predicateTemplate (names : Variable → Option String) (pieces : List Piece)
    (leaves : List (List Parameter)) : Option (Option (Layout × List (List Parameter))) := do
  let columns ← (List.range (leaves.headD []).length).mapM (columnAt leaves)
  let (fillings, columns) ← ofColumns [] columns
  if columns.isEmpty then return none
  else
    match ← fill names pieces fillings with
    | none => return none
    | some text =>
      let arguments ← (List.range leaves.length).mapM (columnAt columns)
      return some ({ name := "intension"
                     arguments := [{ name := "function", content := .template text }] }, arguments)

section
variable {known : Variable → Prop} {names' : Variable → Option String} {names : Variable → String}
  (hnames : ∀ v, known v → names' v = some (names v))
include hnames

theorem fillingText_eq {filling : Filling}
    (h : ∀ v, filling.leaf? = some (.var v) → known v) :
    fillingText names' filling = some (filling.text? names) := by
  cases filling with
  | placeholder number => rfl
  | inline leaf =>
    cases leaf with
    | var v =>
      rw [fillingText, hnames v (h v rfl)]
      rfl
    | _ => rfl

theorem fill_eq {pieces : List Piece} {fillings : List Filling}
    (h : ∀ filling ∈ fillings, ∀ v, filling.leaf? = some (.var v) → known v) :
    fill names' pieces fillings = some (Filling.fill names pieces fillings) := by
  induction pieces generalizing fillings with
  | nil => rfl
  | cons piece rest ih =>
    cases piece with
    | text text =>
      rw [fill, ih h]
      rfl
    | slot =>
      cases fillings with
      | nil => rfl
      | cons filling fillings =>
        obtain ⟨hfilling, hfillings⟩ := List.forall_mem_cons.mp h
        rw [fill, fillingText_eq hnames hfilling, ih hfillings, Filling.fill]
        cases filling.text? names <;> rfl

end

/-! ### Templates of layouts -/

/-- The arguments with the lists at the given positions replaced by placeholders, which are
numbered from `number` on. -/
def placeholders (numbered : Bool) : List Nat → Nat → List Argument → Option (List Argument)
  | [], _, arguments => some arguments
  | position :: rest, number, arguments => do
    let a ← arguments[position]?
    let length := (a.content.parameters?.getD []).length
    let list :=
      if numbered then (List.range length).map fun k => Parameter.placeholder (number + k)
      else [.allPlaceholders]
    placeholders numbered rest (number + length)
      (arguments.set position { a with content := .parameters list })

/-- The lists of a layout at the given positions, one after the other. -/
def argumentsAt (positions : List Nat) (layout : Layout) : Option (List Parameter) := do
  let arguments ← positions.mapM (layout.arguments[·]?)
  return arguments.flatMap fun a => a.content.parameters?.getD []

/-- The template of layouts that differ in the lists at the given positions. -/
def layoutTemplate (first : Layout) (members : List Layout) (positions : List Nat)
    (numbered : Bool) : Option (Layout × List (List Parameter)) := do
  let arguments ←
    placeholders (numbered || positions.length != 1) positions 0 first.arguments
  let lists ← members.mapM (argumentsAt positions)
  return ({ first with arguments }, lists)

theorem argumentsAt_eq {positions : List Nat} {layout : Layout}
    (h : ∀ q ∈ positions, q < layout.arguments.length) :
    argumentsAt positions layout = some (CspModel.argumentsAt positions layout) := by
  induction positions with
  | nil => rfl
  | cons q rest ih =>
    obtain ⟨hq, hrest⟩ := List.forall_mem_cons.mp h
    have ih := ih hrest
    unfold argumentsAt CspModel.argumentsAt at ih ⊢
    rw [List.mapM_cons, List.getElem?_eq_getElem hq, List.flatMap_cons, List.getElem?_eq_getElem hq]
    obtain ⟨arguments, harguments, heq⟩ := Option.bind_eq_some_iff.mp ih
    rw [← Option.some.inj heq, harguments]
    rfl

/-- The template of similar constraints with the arguments of every member. -/
def template (names : Variable → Option String) (numbered : Bool) (members : List Form) :
    Option (Option (Layout × List (List Parameter))) :=
  match members with
  | .predicate pieces leaves :: rest =>
    predicateTemplate names pieces (leaves :: rest.filterMap Form.leaves?)
  | .laidOut first :: rest =>
    let layouts := first :: rest.filterMap Form.layout?
    match layouts[1]?.bind (differing? first) with
    | none => some none
    | some positions => some <$> layoutTemplate first layouts positions numbered
  | [] => some none

/-- The entry of the list at a position; a position wraps around a list that is not empty. -/
def entryAt (s : Sliding) (position : Nat) : Option (Option Variable) :=
  if s.circular && s.list.isEmpty then none else some (s.entryAt position)

/-- Whether the windows are stretches of the list, each one offset further on. -/
def fits (s : Sliding) (windows : List (List Variable)) : Option Bool :=
  windows.zipIdx.allM fun (window, number) =>
    window.zipIdx.allM fun (v, position) =>
      (· == some v) <$> entryAt s (number * s.offset + position)

/-- The offset between the first two windows. -/
def offset (first second : List Variable) : Option (Option Nat) := do
  let start ← second[0]?
  match first.findIdx? (· == start) with
  | some 0 => return none
  | some position => return some position
  | none => return some first.length

/-- The windows over a list with an offset, which wrap around only if they have to. -/
def arrange (list : List Variable) (offset : Nat) (windows : List (List Variable)) :
    Option (Option Sliding) := do
  if ← fits ⟨list, offset, false⟩ windows then return some ⟨list, offset, false⟩
  else if ← fits ⟨list, offset, true⟩ windows then return some ⟨list, offset, true⟩
  else return none

/-- The list, the offset and the wrapping of windows, if they are recognised. -/
def ofWindows (windows : List (List Variable)) : Option (Option Sliding) :=
  match windows with
  | [] => some none
  | first :: rest =>
    if first.isEmpty || rest.any (·.length != first.length) then some none
    else do
      let list := windows.flatten.eraseDups
      let step ← match rest with
        | [] => some (some 1)
        | second :: _ => do
          let first ← windows[0]?
          offset first second
      match step with
      | none => return none
      | some step => arrange list step windows

/-- The windows that arguments form when all of them are variables. -/
def ofArguments (arguments : List (List Parameter)) : Option (Option Sliding) :=
  match arguments.mapM (List.mapM Parameter.toVariable?) with
  | none => some none
  | some windows => ofWindows windows

end Strict
end CspModel
