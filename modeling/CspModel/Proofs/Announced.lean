import CspModel.Proofs.Links
import CspModel.Proofs.Suited
import CspModel.Proofs.VariablesSection

/-! # The type that a declaration announces

A reader takes the names that an element of the variables section declares, and the kind that
its type announces for all of them.  Every variable is declared by exactly one element, because
names are told apart: neither does a variable standing alone have brackets in its name, nor do
two arrays share their cells (`Store.Indexed.nameOf_mem_cellNames`).

A variable standing alone is announced with its own kind.  An array has one type for all its
cells, that of the first one, and nothing keeps an array from holding cells of both kinds.  So
what is announced is right for all variables just if no array does
(`Store.Indexed.kind_leader_iff`).  Auxiliary variables are numbers and have an array to
themselves.
-/
namespace CspModel

namespace Reader

/-- The names of the variables that an element of the variables section declares: that of a
variable, or those of the cells of an array. -/
def declares (e : Element) : List String :=
  match e.attribute? Token.id.text with
  | none => []
  | some name =>
    if e.name = Token.var.text then [name]
    else if e.name = Token.array.text then
      (((e.attribute? Token.size.text).bind sizes?).map fun shape =>
        (Grid.tuples shape).map (VarArray.cellName name)).getD []
    else []

/-- The kind that an element announces for all that it declares. -/
def announces (e : Element) : Kind :=
  if e.attribute? Token.kind.text = some "symbolic" then .symbolic else .integer

/-- The elements of a section that declare a variable. -/
def declaring (e : Element) (name : String) : List Element :=
  e.children.filter (name ∈ declares ·)

end Reader

/-- The first variable of the declaration that a variable belongs to. -/
def Store.leader (s : Store) (v : Variable) : Variable :=
  ((s.covers (s.declarationOf v)).head?).getD v

namespace Document

variable {s : Store}

theorem announces_typed {e : Element} (h : e.attribute? Token.kind.text = none) (d : Domain) :
    Reader.announces (typed e d) = d.kind := by
  unfold Reader.announces typed Domain.isSymbolic
  cases hkind : d.kind with
  | integer => simp [h]
  | symbolic => simp [Element.attribute?_withAttribute_self]

/-- What an element declares and announces depends on its name and its attributes. -/
theorem declares_congr {e e' : Element} (hname : e.name = e'.name)
    (hattributes : ∀ key : Token, key ≠ .sameAs → e.attribute? key.text = e'.attribute? key.text) :
    Reader.declares e = Reader.declares e' ∧ Reader.announces e = Reader.announces e' := by
  unfold Reader.declares Reader.announces
  rw [hname, hattributes .id (by decide), hattributes .size (by decide),
    hattributes .kind (by decide)]
  exact ⟨rfl, rfl⟩

theorem declares_aloneHeader (name : String) (d : Domain) :
    Reader.declares (aloneHeader name d) = [name] ∧
      Reader.announces (aloneHeader name d) = d.kind := by
  have hname : (aloneHeader name d).name = Token.var.text := typed_name _ _
  refine ⟨?_, announces_typed ?_ d⟩
  · rw [Reader.declares, (attribute?_aloneHeader name d).1]
    exact if_pos hname
  · rw [Element.attribute?_withAttribute_of_ne _ (by decide)]
    rfl

theorem declares_arrayHeader (a : VarArray) (d : Domain) :
    Reader.declares (arrayHeader a d) = (Grid.tuples a.shape).map (VarArray.cellName a.name) ∧
      Reader.announces (arrayHeader a d) = d.kind := by
  obtain ⟨hid, hsize, -⟩ := attribute?_arrayHeader a d
  have hname : (arrayHeader a d).name = Token.array.text := typed_name _ _
  refine ⟨?_, announces_typed ?_ d⟩
  · simp only [Reader.declares, hid, hname, hsize, Option.bind_some, Reader.sizes?_subscript]
    rfl
  · rw [Element.attribute?_withAttribute_of_ne _ (by decide),
      Element.attribute?_withAttribute_of_ne _ (by decide)]
    rfl

/-- A variable standing alone is declared with its own kind. -/
theorem declares_aloneElement {v : Variable} (hv : s.Declares v) (shareAbove : Nat)
    (carriers : List (Nat × String)) :
    Reader.declares (aloneElement s shareAbove carriers v).1 = [s.nameOf v] ∧
      Reader.announces (aloneElement s shareAbove carriers v).1 = (s.domainOf v).kind := by
  obtain ⟨info, hinfo, hname, hdomain⟩ := hv.exists_info
  have hheader := declares_aloneHeader info.name (s.domainAt info.domain)
  rw [hname, hdomain]
  unfold aloneElement
  rw [hinfo]
  dsimp only
  cases carriers.lookup info.domain with
  | some carrier =>
    dsimp only
    split
    · let header := aloneHeader info.name (s.domainAt info.domain)
      have hattributes : ∀ key : Token, key ≠ .sameAs →
          (header.withAttribute .sameAs carrier).attribute? key.text =
            header.attribute? key.text := fun key hkey =>
        Element.attribute?_withAttribute_of_ne _ (by revert hkey; cases key <;> decide) _
      have hname : (header.withAttribute .sameAs carrier).name = header.name := rfl
      obtain ⟨hdeclares, hannounces⟩ := declares_congr hname hattributes
      exact ⟨hdeclares.trans hheader.1, hannounces.trans hheader.2⟩
    · exact hheader
  | none => exact hheader

/-- An array is declared with the kind of its first cell. -/
theorem arrayElement?_cases (w : ListText) (key : Nat) :
    ((w.store.arrayAt key).cells = [] ∧ arrayElement? w key = none) ∨
    ∃ v rest e, (w.store.arrayAt key).cells = v :: rest ∧ arrayElement? w key = some e ∧
      Reader.declares e = (Grid.tuples (w.store.arrayAt key).shape).map
        (VarArray.cellName (w.store.arrayAt key).name) ∧
      Reader.announces e = (w.store.domainAt (domainKey w.store v)).kind := by
  cases hcells : (w.store.arrayAt key).cells with
  | nil =>
    refine .inl ⟨rfl, ?_⟩
    simp [arrayElement?, hcells, cellsByDomain]
  | cons v rest =>
    have hheader := declares_arrayHeader (w.store.arrayAt key)
      (w.store.domainAt (domainKey w.store v))
    obtain ⟨others, hparts⟩ : ∃ others, cellsByDomain w.store (v :: rest) =
        (domainKey w.store v, (v :: rest).filter fun u => domainKey w.store u ==
          domainKey w.store v) :: others := by
      unfold cellsByDomain
      rw [List.map_cons, List.eraseDups_cons, List.map_cons]
      exact ⟨_, rfl⟩
    have hhead : (cellsByDomain w.store (w.store.arrayAt key).cells).head?.map Prod.fst =
        some (domainKey w.store v) := by
      rw [hcells, hparts]
      rfl
    obtain ⟨⟨first, list⟩, hpart, rfl⟩ := Option.map_eq_some_iff.mp hhead
    refine .inr ⟨v, rest, _, rfl, Option.map_eq_some_iff.mpr ⟨_, hpart, rfl⟩, ?_⟩
    dsimp only
    split
    · exact hheader
    · exact hheader

end Document

/-! ### Who declares a variable -/

namespace Store.Indexed

variable {s : Store}

/-- A cell of a declared array is told by its name. -/
theorem nameOf_mem_cellNames (hs : s.Indexed) {key : Nat} {a : VarArray}
    (ha : s.arrays.get? key = some a) {v : Variable} (hv : s.Declares v) :
    s.nameOf v ∈ (Grid.tuples a.shape).map (VarArray.cellName a.name) ↔
      s.declarationOf v = .array key := by
  constructor
  · intro hmem
    obtain ⟨indices, hindices, hname⟩ := List.mem_map.mp hmem
    rw [Grid.tuples_eq_map] at hindices
    obtain ⟨position, -, rfl⟩ := List.mem_map.mp hindices
    have hne := hs.inventory.indices_ne_nil ha position
    have hbracket := Text.not_mem_of_isIdentifier (hs.inventory.arrays ha).1
    unfold declarationOf
    cases hcell : s.cellOf v with
    | none =>
      refine absurd ?_ (Text.not_mem_of_isIdentifier (hs.inventory.alone hv hcell).1)
      rw [← hname]
      exact VarArray.mem_cellName _ hne
    | some cell =>
      have hplace := hs.inventory.isCell hv hcell
      obtain ⟨hsame, -⟩ := VarArray.cellName_inj
        (Text.not_mem_of_isIdentifier (hs.inventory.arrays hplace.array).1) hbracket
        (hs.inventory.indices_ne_nil hplace.array _) hne (hplace.name.symm.trans hname.symm)
      exact congrArg Declaration.array (hs.inventory.key_eq_of_name hplace.array ha hsame)
  · intro h
    unfold declarationOf at h
    split at h
    · cases h
    · rename_i cell hcell
      obtain rfl := Declaration.array.inj h
      have hplace := hs.inventory.isCell hv hcell
      rw [arrayAt_of_get? ha] at hplace
      have hlt : cell.position < Grid.volume a.shape := by
        rw [← hs.full ha]
        exact (List.getElem?_eq_some_iff.mp hplace.slot).1
      rw [hplace.name, Grid.tuples_eq_map, List.map_map]
      exact List.mem_map.mpr ⟨cell.position, List.mem_range.mpr hlt, rfl⟩

theorem nameOf_mem_alone (hs : s.Indexed) {w : Variable} (hw : .alone w ∈ s.declarations)
    {v : Variable} (hv : s.Declares v) :
    s.nameOf v ∈ [s.nameOf w] ↔ s.declarationOf v = .alone w := by
  obtain ⟨hdeclared, hcell⟩ := hs.alone hw
  rw [List.mem_singleton]
  constructor
  · intro hname
    obtain rfl := hs.inventory.nameOf_injective hv hdeclared hname
    rw [declarationOf, hcell]
  · intro h
    unfold declarationOf at h
    split at h
    · rw [Declaration.alone.inj h]
    · cases h

end Store.Indexed

namespace Document

variable {s : Store}

/-- A declaration adds at most one element.  It adds none if it covers nothing, and otherwise one
that declares what is covered and announces the kind of the first variable in it. -/
theorem declarationElements_cons (hs : s.Indexed) (compact : Bool) (shareAbove : Nat)
    {declaration : Declaration} (h : declaration ∈ s.declarations) (rest : List Declaration)
    (carriers : List (Nat × String)) :
    ∃ carriers',
      (s.covers declaration = [] ∧
        declarationElements ⟨s, compact⟩ shareAbove carriers (declaration :: rest) =
          declarationElements ⟨s, compact⟩ shareAbove carriers' rest) ∨
      ∃ leader others e, s.covers declaration = leader :: others ∧
        declarationElements ⟨s, compact⟩ shareAbove carriers (declaration :: rest) =
          e :: declarationElements ⟨s, compact⟩ shareAbove carriers' rest ∧
        Reader.announces e = (s.domainOf leader).kind ∧
        ∀ v, s.Declares v →
          (s.nameOf v ∈ Reader.declares e ↔ s.declarationOf v = declaration) := by
  cases declaration with
  | alone w =>
    obtain ⟨hdeclares, hannounces⟩ := declares_aloneElement (hs.alone h).1 shareAbove carriers
    refine ⟨(aloneElement s shareAbove carriers w).2, .inr ⟨w, [],
      (aloneElement s shareAbove carriers w).1, rfl, rfl, hannounces, fun v hv => ?_⟩⟩
    rw [hdeclares]
    exact hs.nameOf_mem_alone h hv
  | array key =>
    obtain ⟨a, ha⟩ := hs.inventory.knows _ h
    have harray := Store.arrayAt_of_get? ha
    refine ⟨carriers, ?_⟩
    rw [Store.covers, declarationElements]
    rcases arrayElement?_cases ⟨s, compact⟩ key with
      ⟨hcells, hnone⟩ | ⟨leader, others, e, hcells, he, hdeclares, hannounces⟩
    · exact .inl ⟨hcells, by rw [hnone]; rfl⟩
    · have hleader : leader ∈ a.cells := by
        rw [← harray, hcells]
        exact List.mem_cons_self
      rw [domainAt_domainKey (hs.cellOf_of_mem_cells ha hleader).1] at hannounces
      refine .inr ⟨leader, others, e, hcells, by rw [he]; rfl, hannounces, fun v hv => ?_⟩
      rw [hdeclares, harray]
      exact hs.nameOf_mem_cellNames ha hv

/-- Of the elements of declarations exactly one declares a variable, if its declaration is among
them, and that one announces the kind of the first variable of the declaration. -/
theorem filter_declarationElements (hs : s.Indexed) (compact : Bool) (shareAbove : Nat)
    {declarations : List Declaration} (hsub : declarations ⊆ s.declarations)
    (hnodup : declarations.Nodup) (carriers : List (Nat × String)) {v : Variable}
    (hv : s.Declares v) :
    (s.declarationOf v ∉ declarations →
      (declarationElements ⟨s, compact⟩ shareAbove carriers declarations).filter
        (s.nameOf v ∈ Reader.declares ·) = []) ∧
    (s.declarationOf v ∈ declarations → ∃ e,
      (declarationElements ⟨s, compact⟩ shareAbove carriers declarations).filter
        (s.nameOf v ∈ Reader.declares ·) = [e] ∧
      Reader.announces e = (s.domainOf (s.leader v)).kind) := by
  induction declarations generalizing carriers with
  | nil => exact ⟨fun _ => rfl, fun h => nomatch h⟩
  | cons declaration rest ih =>
    obtain ⟨hdeclared, hrest⟩ := List.cons_subset.mp hsub
    obtain ⟨hfirst, hnodup⟩ := List.nodup_cons.mp hnodup
    have hcovers := hs.mem_covers hdeclared (v := v)
    obtain ⟨carriers', ⟨hnil, heq⟩ | ⟨leader, others, e, hcons, heq, hannounces, hdeclares⟩⟩ :=
      declarationElements_cons hs compact shareAbove hdeclared rest carriers
    · have hne : s.declarationOf v ≠ declaration := fun h => by
        have hmem := hcovers.mpr ⟨hv, h⟩
        rw [hnil] at hmem
        cases hmem
      rw [heq]
      obtain ⟨hnone, hone⟩ := ih hrest hnodup carriers'
      exact ⟨fun h => hnone (mt (List.mem_cons_of_mem _) h),
        fun h => hone ((List.mem_cons.mp h).resolve_left hne)⟩
    · rw [heq, List.filter_cons]
      obtain ⟨hnone, hone⟩ := ih hrest hnodup carriers'
      by_cases h : s.declarationOf v = declaration
      · have hleader : s.leader v = leader := by
          rw [Store.leader, h, hcons]
          rfl
        refine ⟨fun hnot => absurd (h ▸ List.mem_cons_self) hnot, fun _ => ⟨e, ?_, ?_⟩⟩
        · rw [if_pos (decide_eq_true ((hdeclares v hv).mpr h)), hnone (h ▸ hfirst)]
        · rw [hleader]
          exact hannounces
      · rw [if_neg (fun hmem => h ((hdeclares v hv).mp (of_decide_eq_true hmem)))]
        exact ⟨fun hnot => hnone (mt (List.mem_cons_of_mem _) hnot),
          fun hmem => hone ((List.mem_cons.mp hmem).resolve_left h)⟩

end Document

/-! ### Arrays of one kind -/

namespace Store.Indexed

variable {s : Store}

/-- The first variable of a declaration is a variable of it. -/
theorem leader_mem_covers (hs : s.Indexed) {v : Variable} (hv : s.Declares v) :
    s.leader v ∈ s.covers (s.declarationOf v) ∧ v ∈ s.covers (s.declarationOf v) := by
  have hmem := (hs.mem_covers (hs.declarationOf_mem hv)).mpr ⟨hv, rfl⟩
  obtain ⟨first, others, hcons⟩ := List.exists_cons_of_ne_nil (List.ne_nil_of_mem hmem)
  refine ⟨?_, hmem⟩
  rw [leader, hcons]
  exact List.mem_cons_self

/-- A variable standing alone is the first of its declaration. -/
theorem leader_alone {v : Variable} (h : s.cellOf v = none) : s.leader v = v := by
  rw [leader, declarationOf, h]
  rfl

/-- The cells of an array have the same first one. -/
theorem leader_eq (hs : s.Indexed) {v w : Variable} (hv : s.Declares v)
    (h : s.declarationOf v = s.declarationOf w) : s.leader v = s.leader w := by
  have hmem := (hs.leader_mem_covers hv).2
  obtain ⟨first, others, hcons⟩ := List.exists_cons_of_ne_nil (List.ne_nil_of_mem hmem)
  rw [leader, leader, ← h, hcons]
  rfl

/-- All variables have the kind of the first of their declaration just if no array holds
variables of both kinds. -/
theorem kind_leader_iff (hs : s.Indexed) :
    (∀ v, s.Declares v → (s.domainOf (s.leader v)).kind = (s.domainOf v).kind) ↔
      ∀ key a, s.arrays.get? key = some a → ∀ v ∈ a.cells, ∀ w ∈ a.cells,
        (s.domainOf v).kind = (s.domainOf w).kind := by
  constructor
  · intro h key a ha v hv w hw
    obtain ⟨hv, _, hvcell⟩ := hs.cellOf_of_mem_cells ha hv
    obtain ⟨hw, _, hwcell⟩ := hs.cellOf_of_mem_cells ha hw
    have hsame : s.declarationOf v = s.declarationOf w := by
      rw [declarationOf, declarationOf, hvcell, hwcell]
    rw [← h v hv, ← h w hw, hs.leader_eq hv hsame]
  · intro h v hv
    obtain ⟨hleader, hmem⟩ := hs.leader_mem_covers hv
    cases hdeclaration : s.declarationOf v with
    | alone w =>
      rw [hdeclaration] at hleader hmem
      rw [List.mem_singleton.mp hleader, List.mem_singleton.mp hmem]
    | array key =>
      obtain ⟨a, ha⟩ := hs.inventory.knows _ (hdeclaration ▸ hs.declarationOf_mem hv)
      rw [hdeclaration, covers, arrayAt_of_get? ha] at hleader hmem
      exact h key a ha _ hleader _ hmem

end Store.Indexed

namespace Store.Extended

variable {s s' : Store} {ds : List Domain}

/-- What is kept of a variable stays as it is. -/
theorem info?_old (h : s.Extended ds s') {v : Variable} (hv : s.Declares v) :
    s'.info? v = s.info? v := by
  obtain ⟨info, hinfo⟩ := Registry.exists_get?_of_lt hv.2
  obtain ⟨news, hinfos, -⟩ := h.infos
  have hinfo' := Registry.get?_of_prefix ⟨news, hinfos.symm⟩ hinfo
  exact hinfo'.trans hinfo.symm

theorem cellOf_old (h : s.Extended ds s') {v : Variable} (hv : s.Declares v) :
    s'.cellOf v = s.cellOf v := by
  unfold cellOf
  rw [h.info?_old hv]

theorem nameOf_old (h : s.Extended ds s') {v : Variable} (hv : s.Declares v) :
    s'.nameOf v = s.nameOf v := by
  unfold nameOf
  rw [h.info?_old hv]

theorem exists_cellOf_new (h : s.Extended ds s') {v : Variable} (hv : s'.Declares v)
    (hnew : ¬s.Declares v) : ∃ k, s'.cellOf v = some ⟨s.arrays.size, k⟩ := by
  rw [← mem_declared] at hv hnew
  rw [h.declared] at hv
  obtain ⟨k, hk, rfl⟩ := List.mem_map.mp ((List.mem_append.mp hv).resolve_left hnew)
  exact ⟨k, (h.auxiliary (List.getElem?_eq_getElem (List.mem_range.mp hk))).2.1⟩

/-- In the array of auxiliary variables there is no other variable. -/
theorem not_declares_of_declarationOf (h : s.Extended ds s') (hs : s.Indexed) {v w : Variable}
    (hv : s'.Declares v) (hnew : ¬s.Declares v) (hsame : s'.declarationOf w = s'.declarationOf v) :
    ¬s.Declares w := by
  intro hw
  obtain ⟨k, hcell⟩ := h.exists_cellOf_new hv hnew
  unfold declarationOf at hsame
  rw [hcell, h.cellOf_old hw] at hsame
  cases hcell' : s.cellOf w with
  | none =>
    rw [hcell'] at hsame
    cases hsame
  | some cell =>
    rw [hcell'] at hsame
    have hlt := Registry.lt_size_of_get? (hs.inventory.isCell hw hcell').array
    rw [Declaration.array.inj hsame] at hlt
    exact Nat.lt_irrefl _ hlt

end Store.Extended

namespace Introduced

variable {m : Model} {options : Options} {c : Compiled}

/-- Auxiliary variables lie among themselves. -/
theorem kind_leader_auxiliary (hm : m.Reachable) {p : Introduced} (hp : ofModel m = .ok p)
    {v : Variable} (hv : p.store.Declares v) (hnew : ¬m.store.Declares v) :
    (p.store.domainOf (p.store.leader v)).kind = (p.store.domainOf v).kind := by
  have hs : p.store.Indexed := (store_built hm.sound hp).indexed
  have hmodel : m.store.Indexed := hm.sound.store.indexed
  obtain ⟨new, hreplaced, hstore⟩ := exists_introduces hm.sound hp
  obtain ⟨-, hextended⟩ := hstore.extended hmodel hm.unopened
  have hauxiliary : ∀ w, p.store.Declares w → ¬m.store.Declares w →
      w ∈ p.replaced.map Prod.snd := fun w hw hold =>
    ((declares_iff hm.sound hp).mp hw).resolve_left hold
  have hkind := (auxiliary_spec hm.sound hp (hauxiliary v hv hnew)).2
  obtain ⟨hleader, hmem⟩ := hs.leader_mem_covers hv
  obtain ⟨hdeclared, hsame⟩ := (hs.mem_covers (hs.declarationOf_mem hv)).mp hleader
  have hnew' := hextended.not_declares_of_declarationOf hmodel hv hnew hsame
  rw [hkind, (auxiliary_spec hm.sound hp (hauxiliary _ hdeclared hnew')).2]

/-- Every variable of a document is declared by exactly one element, which announces the kind of
the first variable of its declaration.  That is the kind of the variable if it stands alone or is
an auxiliary one; and it is for every variable, just if no array holds variables of both kinds. -/
theorem announced_by_first (hm : m.Reachable) (hc : (m.build options).1 = .ok c) :
    ∃ p e, ofModel m = .ok p ∧ c.document.children.head? = some e ∧
      e.name = Token.variableSection.text ∧
      (∀ v, p.store.Declares v → ∃ e', Reader.declaring e (p.store.nameOf v) = [e'] ∧
        Reader.announces e' = (p.store.domainOf (p.store.leader v)).kind) ∧
      (∀ v, p.store.Declares v → p.store.cellOf v = none ∨ ¬m.store.Declares v →
        (p.store.domainOf (p.store.leader v)).kind = (p.store.domainOf v).kind) ∧
      ((∀ v, p.store.Declares v → ∃ e', Reader.declaring e (p.store.nameOf v) = [e'] ∧
          Reader.announces e' = (p.store.domainOf v).kind) ↔
        ∀ key a, p.store.arrays.get? key = some a → ∀ v ∈ a.cells, ∀ w ∈ a.cells,
          (p.store.domainOf v).kind = (p.store.domainOf w).kind) := by
  obtain ⟨p, hp, hhead⟩ := head?_document hc
  have hs : p.store.Indexed := (store_built hm.sound hp).indexed
  have hnodup : p.store.declarations.Nodup := List.Nodup.of_map _ hs.inventory.names
  have hdeclaring : ∀ v, p.store.Declares v → ∃ e',
      Reader.declaring (Document.variablesSection ⟨p.store, options.compactLists⟩
        options.shareDomainsAbove) (p.store.nameOf v) = [e'] ∧
      Reader.announces e' = (p.store.domainOf (p.store.leader v)).kind := fun v hv =>
    (Document.filter_declarationElements hs options.compactLists options.shareDomainsAbove
      (List.Subset.refl _) hnodup [] hv).2 (hs.declarationOf_mem hv)
  refine ⟨p, _, hp, hhead, rfl, hdeclaring, fun v hv halone => ?_, ?_⟩
  · rcases halone with hcell | hnew
    · rw [Store.Indexed.leader_alone hcell]
    · exact kind_leader_auxiliary hm hp hv hnew
  · rw [← hs.kind_leader_iff]
    refine forall₂_congr fun v hv => ?_
    obtain ⟨e', he', hannounces⟩ := hdeclaring v hv
    constructor
    · rintro ⟨e'', he'', hkind⟩
      obtain rfl := List.singleton_inj.mp (he'.symm.trans he'')
      exact hannounces.symm.trans hkind
    · exact fun h => ⟨e', he', hannounces.trans h⟩

end Introduced

namespace Uneven

/-- The first cell is a number and the second one a letter. -/
def domainAt (indices : List Nat) : Option Domain :=
  if indices = [0] then some Mixed.numbers else some Mixed.letters

def declared : Store where
  model := 0
  domains := ⟨#[Mixed.numbers, Mixed.letters]⟩
  infos := ⟨#[⟨"x[0]", 0, some ⟨0, 0⟩⟩, ⟨"x[1]", 1, some ⟨0, 1⟩⟩]⟩
  arrays := ⟨#[⟨"x", [2], [some ⟨0, 0⟩, some ⟨0, 1⟩]⟩]⟩
  declarations := [.array 0]

/-- A model with such an array and nothing else. -/
def model : Model := { instanceName := {}, store := declared }

def introduced : Introduced where
  store := declared
  postings := []
  objective := none
  replaced := []

theorem reachable_model : model.Reachable := by
  have hnumbers : Domain.ofSpec (.range 0 2 1) = .ok Mixed.numbers := by
    cbv
  have hletters : Domain.ofSpec (.collection [.symbol "a", .symbol "b"]) = .ok Mixed.letters := by
    cbv
  have hbuilt : ∀ indices d, domainAt indices = some d → d.Built := by
    intro indices d h
    unfold domainAt at h
    split at h
    · cases h
      exact .ofSpec (by decide) hnumbers
    · cases h
      exact .ofSpec (by decide) hletters
  have hadd : (Model.empty 0 {}).addArray (some "x") [2] domainAt =
      .ok (⟨"x", [2], [some ⟨0, 0⟩, some ⟨0, 1⟩]⟩, model) := by
    cbv
  exact .addArray (.empty 0 {}) hbuilt hadd

/-- The letter is declared as a number, because the first cell is one. -/
theorem letter_announced_as_number : model.Reachable ∧ ∃ c e e',
    (model.build {}).1 = .ok c ∧ c.document.children.head? = some e ∧
      Reader.declaring e "x[1]" = [e'] ∧ Reader.announces e' = .integer ∧
      (declared.domainOf ⟨0, 1⟩).kind = .symbolic := by
  have hmodel : Introduced.ofModel model = .ok introduced := by
    cbv
  have hrows : Rows.ofEntries introduced.store ({} : Options).tableForm
      (introduced.entries {}) = .ok [] := by
    cbv
  have hbuild := Model.build_eq_ok.mpr ⟨_, _, hmodel, hrows, rfl⟩
  obtain ⟨p, e, hp, hhead, -, hdeclaring, -⟩ :=
    Introduced.announced_by_first reachable_model hbuild
  cases hp.symm.trans hmodel
  obtain ⟨e', he', hannounces⟩ := hdeclaring ⟨0, 1⟩ ⟨rfl, by decide⟩
  have hleader : declared.leader ⟨0, 1⟩ = ⟨0, 0⟩ := by
    cbv
  have hname : declared.nameOf ⟨0, 1⟩ = "x[1]" := by
    cbv
  have hkind : (declared.domainOf ⟨0, 0⟩).kind = .integer := by
    cbv
  have hletter : (declared.domainOf ⟨0, 1⟩).kind = .symbolic := by
    cbv
  exact ⟨reachable_model, _, e, e', hbuild, hhead, hname ▸ he',
    hannounces.trans (hleader.symm ▸ hkind), hletter⟩

end Uneven
end CspModel
