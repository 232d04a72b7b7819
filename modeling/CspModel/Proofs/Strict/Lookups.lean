import CspModel.Proofs.Addressing
import CspModel.Proofs.Lists
import CspModel.Proofs.Placement
import CspModel.Proofs.Predicates

/-! # Lookups that have to succeed

A compiler relies on what it looks up to be there: the record of a variable, a domain or an
array under its key, an operand, an argument or an index at its position.  Where it is not,
the definitions of the library go on with a default.  The strict definitions do the same
steps in the same order and have no result at all as soon as something is looked up that is
not there.  So where a strict definition has the result of the definition it follows, all
that was looked up was found.

What the strict definitions rely on is that variables are declared and stores were built by
declarations; then names, domains, places and arrays are found.
-/
namespace CspModel
namespace Strict

/-! ### Mapping -/

section
variable {α β : Type}

/-- A list whose entries are all found is found. -/
theorem mapM_eq_map {f' : α → Option β} {f : α → β} {list : List α}
    (h : ∀ a ∈ list, f' a = some (f a)) : list.mapM f' = some (list.map f) :=
  (mapM_congr h).trans List.mapM_pure

end

/-! ### Computations that can also be refused -/

/-- A computation that is refused with an error, or has no result because of a lookup. -/
abbrev Checked (ε α : Type) := ExceptT ε Option α

/-- A computation in which nothing is looked up. -/
def Checked.ofExcept {ε α : Type} (x : Except ε α) : Checked ε α := ExceptT.mk (some x)

/-- The lookups of a computation succeed, and it does what another one does. -/
def Agrees {ε α : Type} (x' : Checked ε α) (x : Except ε α) : Prop := x'.run = some x

namespace Agrees

variable {ε α β : Type}

theorem pure (a : α) : Agrees (pure a : Checked ε α) (.ok a) := rfl

theorem throw (cause : ε) : Agrees (throw cause : Checked ε α) (.error cause) := rfl

theorem ofExcept (x : Except ε α) : Agrees (Checked.ofExcept x) x := rfl

theorem lookup {found : Option α} {a : α} (h : found = some a) :
    Agrees (liftM found : Checked ε α) (.ok a) := by
  rw [h]
  rfl

/-- What comes after something that is found. -/
theorem lookup_bind {found : Option α} {a : α} (h : found = some a) {f' : α → Checked ε β}
    {x : Except ε β} (hf : Agrees (f' a) x) : Agrees (liftM found >>= f') x := by
  rw [h]
  exact hf

theorem bind {x' : Checked ε α} {x : Except ε α} {f' : α → Checked ε β} {f : α → Except ε β}
    (hx : Agrees x' x) (hf : ∀ a, x = .ok a → Agrees (f' a) (f a)) :
    Agrees (x' >>= f') (x >>= f) := by
  have hx : x' = some x := hx
  subst hx
  cases x with
  | error cause => rfl
  | ok a => exact hf a rfl

/-- What is computed from a result by further lookups. -/
theorem bind_lookup {x' : Checked ε α} {x : Except ε α} {f' : α → Option β} {f : α → β}
    (hx : Agrees x' x) (hf : ∀ a, x = .ok a → f' a = some (f a)) :
    Agrees (x' >>= fun a => liftM (f' a)) (x.map f) :=
  hx.bind fun a ha => .lookup (hf a ha)

theorem bind_pure {x' : Checked ε α} {x : Except ε α} (hx : Agrees x' x) (f : α → β) :
    Agrees (x' >>= fun a => Pure.pure (f a)) (x.map f) :=
  hx.bind fun a _ => .pure (f a)

end Agrees

/-! ### The store -/

/-- The name of a variable. -/
def nameOf (s : Store) (v : Variable) : Option String := (s.info? v).map (·.name)

/-- The domain of a variable. -/
def domainOf (s : Store) (v : Variable) : Option Domain :=
  (s.info? v).bind fun info => s.domains.get? info.domain

/-- The place of a variable, which is none outside of arrays. -/
def cellOf (s : Store) (v : Variable) : Option (Option Cell) := (s.info? v).map (·.cell)

/-- Declares the next auxiliary variable. -/
def declareAuxiliary (s : Store) (d : Domain) : Option (Variable × Store) := do
  let (key, s) := s.openAuxiliaryArray
  let array ← s.arrays.get? key
  let position := array.slots.length
  let (v, s) :=
    s.addVariable (VarArray.cellName Store.auxiliaryName [position]) d (some ⟨key, position⟩)
  let array ← s.arrays.get? key
  let arrays ← s.arrays.set? key (array.append v)
  return (v, { s with arrays })

section
variable {s : Store} {v : Variable}

theorem nameOf_eq (hv : s.Declares v) : nameOf s v = some (s.nameOf v) := by
  obtain ⟨info, hinfo, hname, _⟩ := hv.exists_info
  rw [nameOf, hinfo, hname]
  rfl

theorem domainAt_eq {key : Nat} (hkey : key < s.domains.size) :
    s.domains.get? key = some (s.domainAt key) := by
  obtain ⟨d, hd⟩ := Registry.exists_get?_of_lt hkey
  rw [Store.domainAt, hd]
  rfl

theorem domainOf_eq (hs : s.Built) (hv : s.Declares v) : domainOf s v = some (s.domainOf v) := by
  obtain ⟨info, hinfo, _, hdomain⟩ := hv.exists_info
  rw [domainOf, hinfo, Option.bind_some, domainAt_eq (hs.consistent_true.key_lt hinfo), hdomain]

theorem cellOf_eq (hv : s.Declares v) : cellOf s v = some (s.cellOf v) := by
  obtain ⟨info, hinfo, _⟩ := hv.exists_info
  rw [cellOf, Store.cellOf, hinfo]
  rfl

/-- The array of auxiliary variables is found under the key it is kept under. -/
theorem declareAuxiliary_eq (hs : s.Built) (d : Domain) :
    declareAuxiliary s d = some (s.declareAuxiliary d) := by
  obtain ⟨_, ht, hkey⟩ := hs.inventory.openAuxiliaryArray
  unfold declareAuxiliary Store.declareAuxiliary
  revert ht hkey
  generalize s.openAuxiliaryArray = opened
  obtain ⟨key, t⟩ := opened
  intro ht hkey
  obtain ⟨a, ha, _⟩ := ht.auxiliary key hkey
  have harray : t.arrayAt key = a := by
    rw [Store.arrayAt, ha]
    rfl
  have hset : ∃ arrays, t.arrays.set? key (a.append ⟨t.model, t.infos.size⟩) = some arrays :=
    ⟨_, if_pos (Registry.lt_size_of_get? ha)⟩
  obtain ⟨arrays, hset⟩ := hset
  obtain ⟨domain, domains, _, hadd⟩ := t.addVariable_eq
    (VarArray.cellName Store.auxiliaryName [a.slots.length]) d (some ⟨key, a.slots.length⟩)
  simp only [harray, ha, hadd, hset, Option.getD_some, Option.bind_eq_bind, Option.bind_some]
  rfl

end

/-! ### Functional notation -/

mutual
/-- The expression in functional notation. -/
def render (names : Variable → Option String) : Expr → Option String
  | .const value => some (toString value)
  | .var v => names v
  | .set values => some (Expr.call "set" (values.map toString))
  | .apply op operands => (renderAll names operands).map (Expr.call op.name)
  | .aggregate f => (renderOperands names f).map (Expr.call f.kind)

/-- The expressions of a list in functional notation. -/
def renderAll (names : Variable → Option String) : List Expr → Option (List String)
  | [] => some []
  | e :: rest => do
    let text ← render names e
    let texts ← renderAll names rest
    return text :: texts

/-- The operands of an aggregate in functional notation. -/
def renderOperands (names : Variable → Option String) : Aggregate Expr → Option (List String)
  | .sum terms _ => renderAll names terms
  | .count list _ => renderAll names list
  | .nValues list _ => renderAll names list
  | .minimum list => renderAll names list
  | .maximum list => renderAll names list
  | .element list index _ => do
    let texts ← renderAll names list
    let text ← render names index
    return texts ++ [text]
end

section
variable {known : Variable → Prop} {names' : Variable → Option String} {names : Variable → String}

theorem renderAll_eq_mapM (names' : Variable → Option String) (list : List Expr) :
    renderAll names' list = list.mapM (render names') := by
  induction list with
  | nil => rfl
  | cons e rest ih =>
    rw [renderAll, ih, List.mapM_cons]

theorem renderOperands_eq_mapM (names' : Variable → Option String) (f : Aggregate Expr) :
    renderOperands names' f = f.operands.mapM (render names') := by
  cases f with
  | element list index startIndex =>
    rw [renderOperands, renderAll_eq_mapM, Aggregate.operands, List.mapM_append, List.mapM_cons,
      List.mapM_nil]
    cases list.mapM (render names') <;> cases render names' index <;> rfl
  | _ => exact renderAll_eq_mapM _ _

/-- An expression over variables whose names are found is written. -/
theorem render_eq (hnames : ∀ v, known v → names' v = some (names v)) {e : Expr}
    (he : e.Over known) : render names' e = some (e.render names) := by
  induction e using Expr.induction with
  | const | set => rfl
  | var v => exact hnames v (he v (List.mem_singleton_self v))
  | apply op operands ih =>
    have hoperands := Expr.over_apply.mp he
    rw [render, renderAll_eq_mapM, mapM_eq_map fun e he => ih e he (hoperands e he), Expr.render,
      Expr.renderAll_eq_map]
    rfl
  | aggregate f ih =>
    have hoperands := Expr.over_aggregate.mp he
    rw [render, renderOperands_eq_mapM, mapM_eq_map fun e he => ih e he (hoperands e he),
      Expr.render, Expr.renderOperands_eq_map]
    rfl

end

end Strict
end CspModel
