import CspModel.Proofs.Expansion
import CspModel.Proofs.Extensions
import CspModel.Proofs.Representation

/-! # The variables section is read back

A reader of the section takes its elements in order (`Reader.assigned?`).  A variable has
the text of its element, or that of the variable it refers to, which has to stand before it
and to carry a text itself.  An array has one text for all its cells, or for every child the
cells that its list names.  The reader knows nothing but the document: the names of the
cells come from the name and the sizes of the array.

What it finds are the variables of the store, each once with the text of its own domain.
Element by element the writer and the reader go through the declarations together; the
invariant is that whoever was named as the carrier of a domain was read with the text of
that domain (`Carries`).
-/
namespace CspModel

/-! ### The reader -/

namespace Reader

/-- The numbers in brackets that follow each other. -/
def sizes? (text : String) : Option (List Nat) :=
  ((text.toList.splitOn '[').drop 1).mapM fun piece =>
    if piece.getLast? = some ']' then number? piece.dropLast else none

/-- The names of the cells that a token of an array stands for. -/
def tokenCells? (name : String) (shape : List Nat) (token : String) : Option (List String) :=
  if String.ofList (token.toList.takeWhile (· != '[')) = name then
    (spans? shape (((token.toList.dropWhile (· != '[')).splitOn '[').drop 1)).map fun ranges =>
      (Rows.choices ranges).map (VarArray.cellName name)
  else none

/-- The names of the cells that a list stands for. -/
def listCells? (name : String) (shape : List Nat) (text : String) : Option (List String) :=
  ((words text).mapM (tokenCells? name shape)).map List.flatten

/-- The cells for which a child of an array gives a text. -/
def part? (name : String) (shape : List Nat) (e : Element) : Option (List (String × String)) :=
  (e.attribute? Token.forCells.text).bind fun list => e.text.bind fun text =>
    (listCells? name shape list).map fun names => names.map (·, text)

/-- The cells of an array with their texts. -/
def array? (e : Element) : Option (List (String × String)) :=
  (e.attribute? Token.id.text).bind fun name =>
    ((e.attribute? Token.size.text).bind sizes?).bind fun shape =>
      match e.text with
      | some text =>
        some ((Grid.tuples shape).map fun indices => (VarArray.cellName name indices, text))
      | none => (e.children.mapM (part? name shape)).map List.flatten

/-- A variable with its text, which can be that of one of the owners. -/
def alone? (owners : List (String × String)) (e : Element) : Option (String × String) :=
  (e.attribute? Token.id.text).bind fun name =>
    match e.attribute? Token.sameAs.text with
    | some owner => (owners.lookup owner).map (name, ·)
    | none => e.text.map (name, ·)

/-- The names and the texts of some elements; the owners are the variables read before that
carry a text of their own. -/
def assigned? (owners : List (String × String)) : List Element → Option (List (String × String))
  | [] => some []
  | e :: rest =>
    if e.name = Token.var.text then
      (alone? owners e).bind fun assigned =>
        let owners := if (e.attribute? Token.sameAs.text).isSome then owners
          else assigned :: owners
        (assigned? owners rest).map (assigned :: ·)
    else if e.name = Token.array.text ∧ e.attribute? Token.sameAs.text = none then
      (array? e).bind fun assigned => (assigned? owners rest).map (assigned ++ ·)
    else none

/-- Who is referred to in a list of elements that was read is an owner or stands before, as a
variable that carries its own text. -/
theorem exists_owner {owners : List (String × String)} {elements : List Element}
    {assigned : List (String × String)} (h : assigned? owners elements = some assigned)
    {before after : List Element} {e : Element} (hsplit : elements = before ++ e :: after)
    {owner : String} (howner : e.attribute? Token.sameAs.text = some owner) :
    (owners.lookup owner).isSome ∨ ∃ e' ∈ before, e'.name = Token.var.text ∧
      e'.attribute? Token.id.text = some owner ∧ e'.attribute? Token.sameAs.text = none ∧
      e'.text.isSome := by
  induction before generalizing owners elements assigned with
  | nil =>
    subst hsplit
    rw [List.nil_append, assigned?] at h
    split at h
    · obtain ⟨_, hread, -⟩ := Option.bind_eq_some_iff.mp h
      obtain ⟨name, -, hread⟩ := Option.bind_eq_some_iff.mp hread
      rw [howner] at hread
      obtain ⟨text, htext, -⟩ := Option.map_eq_some_iff.mp hread
      exact .inl (by rw [htext]; rfl)
    · rw [howner] at h
      simp at h
  | cons first before ih =>
    subst hsplit
    rw [List.cons_append, assigned?] at h
    split at h
    · rename_i hname
      obtain ⟨read, hread, h⟩ := Option.bind_eq_some_iff.mp h
      obtain ⟨rest, hrest, -⟩ := Option.map_eq_some_iff.mp h
      rcases ih hrest rfl with hlookup | ⟨e', he', h'⟩
      · split at hlookup
        · exact .inl hlookup
        · rename_i hsameAs
          rw [List.lookup_cons] at hlookup
          split at hlookup
          · -- the owner is the first element
            rename_i heq
            obtain ⟨name, hid, hread⟩ := Option.bind_eq_some_iff.mp hread
            rw [Option.not_isSome_iff_eq_none.mp hsameAs] at hread
            obtain ⟨text, htext, rfl⟩ := Option.map_eq_some_iff.mp hread
            exact .inr ⟨first, List.mem_cons_self, hname, beq_iff_eq.mp heq ▸ hid,
              Option.not_isSome_iff_eq_none.mp hsameAs, by rw [htext]; rfl⟩
          · exact .inl hlookup
      · exact .inr ⟨e', List.mem_cons_of_mem _ he', h'⟩
    · split at h
      · obtain ⟨_, -, h⟩ := Option.bind_eq_some_iff.mp h
        obtain ⟨rest, hrest, -⟩ := Option.map_eq_some_iff.mp h
        rcases ih hrest rfl with hlookup | ⟨e', he', h'⟩
        · exact .inl hlookup
        · exact .inr ⟨e', List.mem_cons_of_mem _ he', h'⟩
      · cases h

/-! ### Names and sizes -/

/-- The sizes of an array are read back. -/
theorem sizes?_subscript (shape : List Nat) : sizes? (Grid.subscript shape) = some shape := by
  have htexts : ∀ t ∈ shape.map toString, '[' ∉ t.toList := fun t ht => by
    obtain ⟨n, -, rfl⟩ := List.mem_map.mp ht
    exact (isPlain_index n).1
  rw [sizes?, Store.subscript_eq_bracketed, Store.splitOn_bracketed htexts, List.drop_one,
    List.tail_cons, mapM_eq_some_iff, List.map_map, List.forall₂_map_left_iff, List.forall₂_same]
  intro n _
  rw [Function.comp_apply, if_pos (by simp), List.dropLast_concat]
  exact number?_repr n

end Reader

/-! ### The list of cells -/

namespace ListText

/-- Whether a token is one of the array: its name with brackets after it. -/
def OfArray (a : VarArray) (token : String) : Prop :=
  ∃ texts, token = a.name ++ Store.bracketed texts

variable {a : VarArray} {names : Variable → String}

theorem Sequence.cells_of_extend? {q longer : Sequence} {v : Variable} {indices : List Nat}
    (h : q.extend? v indices = some longer) : longer.cells = v :: q.cells := by
  unfold extend? at h
  split at h
  · dsimp only at h
    split at h
    · split at h
      · cases h
        rfl
      · cases h
    · cases h
  · cases h

theorem Sequence.ofArray_tokens {q : Sequence} (hq : ∀ v ∈ q.cells, OfArray a (names v)) :
    ∀ token ∈ q.tokens names a, OfArray a token := by
  have hcells : ∀ token ∈ q.cells.reverse.map names, OfArray a token := fun token htoken => by
    obtain ⟨v, hv, rfl⟩ := List.mem_map.mp htoken
    exact hq v (List.mem_reverse.mp hv)
  unfold tokens
  split
  · split
    · intro token htoken
      rw [List.mem_singleton.mp htoken, Reader.spans_eq]
      exact ⟨_, rfl⟩
    · exact hcells
  · exact hcells

theorem ofArray_sequencesFrom {q : Sequence} {cells : List (Variable × Nat)}
    (hq : ∀ v ∈ q.cells, OfArray a (names v)) (hcells : ∀ c ∈ cells, OfArray a (names c.1)) :
    ∀ token ∈ sequencesFrom names a q cells, OfArray a token := by
  induction cells generalizing q with
  | nil => exact q.ofArray_tokens hq
  | cons c rest ih =>
    obtain ⟨hc, hrest⟩ := List.forall_mem_cons.mp hcells
    rw [sequencesFrom]
    split
    · rename_i longer hlonger
      refine ih (fun v hv => ?_) hrest
      have hlonger : longer.cells = c.1 :: q.cells := Sequence.cells_of_extend? hlonger
      rw [hlonger] at hv
      rcases List.mem_cons.mp hv with rfl | hv
      · exact hc
      · exact hq v hv
    · intro token htoken
      rcases List.mem_append.mp htoken with htoken | htoken
      · exact q.ofArray_tokens hq token htoken
      · refine ih (fun v hv => ?_) hrest token htoken
        rw [List.mem_singleton.mp hv]
        exact hc

/-- The tokens of the cells of an array are tokens of the array. -/
theorem ofArray_cellTokens {cells : List (Variable × Nat)}
    (hcells : ∀ c ∈ cells, OfArray a (names c.1)) :
    ∀ token ∈ cellTokens names a cells, OfArray a token := by
  unfold cellTokens
  split
  · rename_i token hboxed
    intro token' htoken
    rw [List.mem_singleton.mp htoken]
    unfold boxed? at hboxed
    simp only at hboxed
    split at hboxed
    · cases hboxed
    · split at hboxed
      · cases hboxed
      · split at hboxed
        · cases hboxed
          rw [Reader.boxText_eq]
          exact ⟨_, rfl⟩
        · cases hboxed
  · exact fun _ h => nomatch h
  · refine ofArray_sequencesFrom (fun v hv => ?_) fun c hc => hcells c (List.mem_cons_of_mem _ hc)
    rw [List.mem_singleton.mp hv]
    exact hcells _ List.mem_cons_self

/-- The cells of one array make up one stretch. -/
theorem stretches_cells {s : Store} {key : Nat} {cells : List (Variable × Nat)}
    (h : ∀ c ∈ cells, s.cellOf c.1 = some ⟨key, c.2⟩) :
    stretches s (cells.map fun c => .var c.1) =
      if cells = [] then [] else [.cells key cells] := by
  induction cells with
  | nil => rfl
  | cons c rest ih =>
    obtain ⟨hc, hrest⟩ := List.forall_mem_cons.mp h
    have hcell : cell? s (.var c.1) = some (key, c.1, c.2) := by
      rw [cell?, hc]
      rfl
    rw [List.map_cons, stretches, hcell, ih hrest]
    cases rest with
    | nil => rfl
    | cons d rest => simp

end ListText

namespace Store

variable {s : Store} {key : Nat} {a : VarArray}

/-- What an array holds under some indices is called by them. -/
theorem Indexed.nameOf_of_get? (hs : s.Indexed) (ha : s.arrays.get? key = some a)
    {indices : List Nat} {v : Variable} (h : a.get? indices = some v) :
    s.nameOf v = VarArray.cellName a.name indices := by
  obtain ⟨position, hposition, hslot⟩ := Option.bind_eq_some_iff.mp h
  have hname := (hs.coherent.cellNames ha (Option.join_eq_some_iff.mp hslot)).1
  rwa [(Grid.position?_eq_some_iff.mp hposition).2] at hname

theorem takeWhile_ofArray (hs : s.Inventory) (ha : s.arrays.get? key = some a)
    (texts : List String) :
    (a.name ++ bracketed texts).toList.takeWhile (· != '[') = a.name.toList := by
  rw [String.toList_append]
  exact (takeWhile_dropWhile_ne (Text.not_mem_of_isIdentifier (hs.arrays ha).1)
    (head?_bracketed texts)).1

/-- A token of an array that stands for cells is read without the store. -/
theorem Indexed.tokenCells?_eq (hs : s.Indexed) (ha : s.arrays.get? key = some a)
    {token : String} (htoken : ListText.OfArray a token) {names : List String}
    (hexpand : s.expandToken token = some names)
    (hnames : ∀ name ∈ names, ∃ v position, s.IsCell v key position a ∧ s.nameOf v = name) :
    Reader.tokenCells? a.name a.shape token = some names := by
  obtain ⟨texts, rfl⟩ := htoken
  have htake := takeWhile_ofArray hs.inventory ha texts
  have hbegins := (Text.beginsName_of_isIdentifier (hs.inventory.arrays ha).1).append
    (bracketed texts)
  unfold Reader.tokenCells?
  unfold expandToken at hexpand
  rw [htake, String.ofList_toList, if_pos rfl]
  cases hbox : s.box? (a.name ++ bracketed texts) with
  | none =>
    -- otherwise the token would stand for itself, and the name of a cell is no such token
    rw [hbox, hbegins.copies?_eq_none] at hexpand
    cases hexpand
    obtain ⟨v, position, hcell, hname⟩ := hnames _ (List.mem_singleton_self _)
    have hread := hs.inventory.box?_eq ha
      (fun t ht => by
        obtain ⟨index, -, rfl⟩ := List.mem_map.mp ht
        exact (Reader.isPlain_index index).1)
      (Reader.spans?_indices (Grid.length_indices a.shape position))
    rw [← cellName_eq_bracketed, ← hcell.name, hname, hbox] at hread
    cases hread
  | some box =>
    obtain ⟨a', ranges⟩ := box
    have hread := hbox
    unfold box? at hread
    rw [htake, String.ofList_toList, hs.inventory.arrayNamed?_eq ha, Option.bind_some] at hread
    obtain ⟨ranges', hspans, heq⟩ := Option.map_eq_some_iff.mp hread
    cases heq
    rw [hbox] at hexpand
    rw [hspans, Option.map_some, Option.some.injEq]
    have hcells := mapM_eq_some_iff.mp hexpand
    refine List.forall₂_eq_eq_eq ▸ List.forall₂_map_left_iff.mpr ?_
    refine hcells.imp fun indices name hname => ?_
    obtain ⟨v, hv, rfl⟩ := Option.map_eq_some_iff.mp hname
    exact (hs.nameOf_of_get? ha hv).symm

/-- The list of some cells of an array is read as their names. -/
theorem Indexed.listCells?_variableList (hs : s.Indexed) (ha : s.arrays.get? key = some a)
    (compact : Bool) {cells : List (Variable × Nat)} (hcells : s.AreCells key a cells)
    (hplaces : ∀ c ∈ cells, s.cellOf c.1 = some ⟨key, c.2⟩) :
    Reader.listCells? a.name a.shape
      (ListText.variableList ⟨s, compact⟩ (cells.map Prod.fst) true) =
        some (cells.map fun c => s.nameOf c.1) := by
  have hnames : ∀ c ∈ cells, ListText.OfArray a (s.nameOf c.1) := fun c hc => by
    rw [(hcells c hc).name]
    exact ⟨(Grid.indices a.shape c.2).map toString, cellName_eq_bracketed _ _⟩
  obtain ⟨tokens, htext, hsays, htokens⟩ : ∃ tokens,
      ListText.variableList ⟨s, compact⟩ (cells.map Prod.fst) true = " ".intercalate tokens ∧
        s.Says tokens (cells.map fun c => s.nameOf c.1) ∧
        ∀ token ∈ tokens, ListText.OfArray a token := by
    have hlist : (cells.map Prod.fst).map Parameter.var = cells.map fun c => .var c.1 :=
      List.map_map
    unfold ListText.variableList ListText.write
    rw [hlist]
    split
    · refine ⟨cells.map fun c => s.nameOf c.1, ?_, hs.inventory.says_cells hcells, ?_⟩
      · rw [ListText.expanded, List.map_map]
        rfl
      · intro token htoken
        obtain ⟨c, hc, rfl⟩ := List.mem_map.mp htoken
        exact hnames c hc
    · refine ⟨ListText.cellTokens s.nameOf a cells, ?_, hs.inventory.says_cellTokens ha hcells,
        ListText.ofArray_cellTokens hnames⟩
      show ListText.compacted ⟨s, compact⟩ _ = _
      rw [ListText.compacted, ListText.stretches_cells hplaces]
      cases cells with
      | nil => rfl
      | cons c rest =>
        rw [if_neg (List.cons_ne_nil _ _), List.flatMap_singleton, ListText.stretchTokens,
          arrayAt_of_get? ha]
  obtain ⟨lists, hlists, hflatten⟩ := Option.map_eq_some_iff.mp hsays.expands
  have hread : tokens.mapM (Reader.tokenCells? a.name a.shape) = some lists := by
    rw [mapM_eq_some_iff] at hlists ⊢
    refine forall₂_iff_getElem?.mpr ⟨hlists.length_eq, fun k token names htoken hnames => ?_⟩
    refine hs.tokenCells?_eq ha (htokens token (List.mem_of_getElem? htoken))
      ((forall₂_iff_getElem?.mp hlists).2 k token names htoken hnames) fun name hname => ?_
    have hmem : name ∈ cells.map fun c => s.nameOf c.1 :=
      hflatten ▸ List.mem_flatten.mpr ⟨names, List.mem_of_getElem? hnames, hname⟩
    obtain ⟨c, hc, rfl⟩ := List.mem_map.mp hmem
    exact ⟨c.1, c.2, hcells c hc, rfl⟩
  rw [Reader.listCells?, htext, words_intercalate hsays.words, hread, Option.map_some, hflatten]

/-- What the section has to say of a variable: its name and the text of its domain. -/
def assigns (s : Store) (v : Variable) : String × String :=
  (s.nameOf v, Text.trim (s.domainOf v).text)

theorem Indexed.cellOf_of_mem_cells (hs : s.Indexed) (ha : s.arrays.get? key = some a)
    {v : Variable} (hv : v ∈ a.cells) :
    s.Declares v ∧ ∃ position, s.cellOf v = some ⟨key, position⟩ := by
  obtain ⟨slot, hslot, rfl⟩ := List.mem_filterMap.mp hv
  obtain ⟨position, hposition⟩ := List.mem_iff_getElem?.mp hslot
  obtain ⟨hdeclared, hcell⟩ := hs.slots ha hposition
  exact ⟨hdeclared, position, hcell⟩

theorem Indexed.listCells?_of_subset (hs : s.Indexed) (ha : s.arrays.get? key = some a)
    (compact : Bool) {cells : List Variable} (hcells : cells ⊆ a.cells) :
    Reader.listCells? a.name a.shape (ListText.variableList ⟨s, compact⟩ cells true) =
      some (cells.map s.nameOf) := by
  obtain ⟨places, rfl, hplaces⟩ : ∃ places : List (Variable × Nat),
      places.map Prod.fst = cells ∧
        ∀ c ∈ places, c.1 ∈ a.cells ∧ s.cellOf c.1 = some ⟨key, c.2⟩ := by
    refine ⟨cells.map fun v => (v, ((s.cellOf v).map (·.position)).getD 0), ?_, fun c hc => ?_⟩
    · rw [List.map_map]
      exact List.map_id' cells
    · obtain ⟨v, hv, rfl⟩ := List.mem_map.mp hc
      obtain ⟨-, position, hcell⟩ := hs.cellOf_of_mem_cells ha (hcells hv)
      refine ⟨hcells hv, ?_⟩
      simp only [hcell, Option.map_some, Option.getD_some]
  have hare : s.AreCells key a places := fun c hc => by
    obtain ⟨hmem, hcell⟩ := hplaces c hc
    have hplace := hs.inventory.isCell (hs.cellOf_of_mem_cells ha hmem).1 hcell
    rwa [arrayAt_of_get? ha] at hplace
  rw [hs.listCells?_variableList ha compact hare fun c hc => (hplaces c hc).2, List.map_map]
  rfl

end Store

/-! ### Elements -/

namespace Element

theorem lookup_setAttribute_of_ne {key key' : String} (h : key' ≠ key) (value : String)
    (attributes : List (String × String)) :
    (setAttribute key value attributes).lookup key' = attributes.lookup key' := by
  induction attributes with
  | nil => simp [setAttribute, h]
  | cons a rest ih =>
    obtain ⟨k, v⟩ := a
    unfold setAttribute
    split
    · rename_i hk
      subst hk
      rw [List.lookup_cons, List.lookup_cons, beq_false_of_ne h]
    · rw [List.lookup_cons, List.lookup_cons, ih]

theorem attribute?_withAttribute_self (e : Element) (key : Token) (value : String) :
    (e.withAttribute key value).attribute? key.text = some value :=
  e.attribute?_withKey_self _ value

theorem attribute?_withAttribute_of_ne (e : Element) {key key' : Token} (h : key'.text ≠ key.text)
    (value : String) : (e.withAttribute key value).attribute? key'.text = e.attribute? key'.text :=
  lookup_setAttribute_of_ne h value e.attributes

end Element

namespace Document

variable {s : Store} {key : Nat} {a : VarArray}

theorem typed_name (e : Element) (d : Domain) : (typed e d).name = e.name := by
  unfold typed
  split <;> rfl

theorem typed_text (e : Element) (d : Domain) : (typed e d).text = e.text := by
  unfold typed
  split <;> rfl

theorem typed_children (e : Element) (d : Domain) : (typed e d).children = e.children := by
  unfold typed
  split <;> rfl

theorem attribute?_typed (e : Element) (d : Domain) {key : Token}
    (h : key.text ≠ Token.kind.text) : (typed e d).attribute? key.text = e.attribute? key.text := by
  unfold typed
  split
  · exact e.attribute?_withAttribute_of_ne h _
  · rfl

/-- The parts of some cells hold each cell once, under the key of its domain. -/
theorem perm_cellsByDomain (s : Store) {cells : List Variable} (hcells : cells.Nodup) :
    ((cellsByDomain s cells).flatMap Prod.snd).Perm cells := by
  unfold cellsByDomain
  rw [List.flatMap_map]
  refine (List.perm_ext_iff_of_nodup ?_ hcells).mpr fun v => ?_
  · refine List.nodup_flatMap.mpr ⟨fun _ _ => hcells.filter _, ?_⟩
    refine (nodup_eraseDups _).imp fun {key key'} hne v hv hv' => hne ?_
    rw [← beq_iff_eq.mp (List.mem_filter.mp hv).2, ← beq_iff_eq.mp (List.mem_filter.mp hv').2]
  · simp only [List.mem_flatMap, List.mem_eraseDups, List.mem_map, List.mem_filter]
    constructor
    · rintro ⟨_, _, hv, _⟩
      exact hv
    · intro hv
      exact ⟨_, ⟨v, hv, rfl⟩, hv, beq_self_eq_true _⟩

theorem of_mem_cellsByDomain {cells : List Variable} {part : Nat × List Variable}
    (h : part ∈ cellsByDomain s cells) :
    part.2 ⊆ cells ∧ ∀ v ∈ part.2, domainKey s v = part.1 := by
  obtain ⟨key, -, rfl⟩ := List.mem_map.mp h
  exact ⟨fun v hv => (List.mem_filter.mp hv).1,
    fun v hv => beq_iff_eq.mp (List.mem_filter.mp hv).2⟩

theorem domainAt_domainKey {v : Variable} (hv : s.Declares v) :
    s.domainAt (domainKey s v) = s.domainOf v := by
  obtain ⟨info, hinfo, -, hdomain⟩ := hv.exists_info
  simp [domainKey, hinfo, hdomain]

/-- A child of an array is read as its cells with the texts of their domains. -/
theorem part?_domain (hs : s.Indexed) (ha : s.arrays.get? key = some a) (compact : Bool)
    {part : Nat × List Variable} (hpart : part ∈ cellsByDomain s a.cells) :
    Reader.part? a.name a.shape (((Element.ofToken .domain).withAttribute .forCells
        (ListText.variableList ⟨s, compact⟩ part.2 true)).withText (s.domainAt part.1).text) =
      some (part.2.map s.assigns) := by
  obtain ⟨hsubset, hkeys⟩ := of_mem_cellsByDomain hpart
  have hlist : (((Element.ofToken .domain).withAttribute .forCells
      (ListText.variableList ⟨s, compact⟩ part.2 true)).withText
        (s.domainAt part.1).text).attribute? Token.forCells.text =
      some (ListText.variableList ⟨s, compact⟩ part.2 true) :=
    (Element.ofToken .domain).attribute?_withAttribute_self .forCells _
  rw [Reader.part?, hlist, Option.bind_some]
  show ((Reader.listCells? a.name a.shape _).map _) = _
  rw [hs.listCells?_of_subset ha compact hsubset, Option.map_some, List.map_map]
  refine congrArg some (List.map_congr_left fun v hv => ?_)
  rw [Store.assigns, ← domainAt_domainKey (hs.cellOf_of_mem_cells ha (hsubset hv)).1, hkeys v hv]
  rfl

/-- All cells of an array without holes, in their order, are those of its index tuples. -/
theorem map_tuples_eq (hs : s.Indexed) (ha : s.arrays.get? key = some a)
    (hholes : a.hasHoles = false) :
    (Grid.tuples a.shape).map (VarArray.cellName a.name) = a.cells.map s.nameOf := by
  have hslots : a.slots = a.cells.map some := by
    refine (map_some_filterMap_id fun slot hslot => ?_).symm
    have hfull := List.any_eq_false.mp hholes slot hslot
    cases slot with
    | none => exact absurd rfl hfull
    | some v => rfl
  have hlength : a.cells.length = Grid.volume a.shape := by
    rw [← hs.full ha, hslots, List.length_map]
  refine List.ext_getElem? fun position => ?_
  rw [Grid.tuples_eq_map, List.map_map, List.getElem?_map, List.getElem?_map]
  rcases Nat.lt_or_ge position a.cells.length with hlt | hge
  · have hslot : a.slots[position]? = some (some a.cells[position]) := by
      rw [hslots, List.getElem?_map, List.getElem?_eq_getElem hlt]
      rfl
    rw [List.getElem?_range (hlength ▸ hlt), List.getElem?_eq_getElem hlt]
    exact congrArg some (hs.coherent.cellNames ha hslot).1.symm
  · rw [List.getElem?_eq_none hge, List.getElem?_eq_none (by
      rw [List.length_range]
      exact hlength ▸ hge)]
    rfl

/-- The element of an array without its content. -/
def arrayHeader (a : VarArray) (d : Domain) : Element :=
  typed (((Element.ofToken .array).withAttribute .id a.name).withAttribute .size
    (Grid.subscript a.shape)) d

theorem attribute?_arrayHeader (a : VarArray) (d : Domain) :
    (arrayHeader a d).attribute? Token.id.text = some a.name ∧
      (arrayHeader a d).attribute? Token.size.text = some (Grid.subscript a.shape) ∧
      (arrayHeader a d).attribute? Token.sameAs.text = none := by
  unfold arrayHeader
  refine ⟨?_, ?_, ?_⟩
  · rw [attribute?_typed _ _ (by decide), Element.attribute?_withAttribute_of_ne _ (by decide),
      Element.attribute?_withAttribute_self]
  · rw [attribute?_typed _ _ (by decide), Element.attribute?_withAttribute_self]
  · rw [attribute?_typed _ _ (by decide), Element.attribute?_withAttribute_of_ne _ (by decide),
      Element.attribute?_withAttribute_of_ne _ (by decide)]
    rfl

/-- An array whose cells have one domain is written with its text. -/
theorem array?_withText (hs : s.Indexed) (ha : s.arrays.get? key = some a)
    (hholes : a.hasHoles = false) {first : Nat} {list : List Variable}
    (hparts : cellsByDomain s a.cells = [(first, list)]) :
    Reader.array? ((arrayHeader a (s.domainAt first)).withText (s.domainAt first).text) =
      some (a.cells.map s.assigns) := by
  obtain ⟨hid, hsize, -⟩ := attribute?_arrayHeader a (s.domainAt first)
  have hkeys : ∀ v ∈ a.cells, domainKey s v = first := fun v hv => by
    have hmem : domainKey s v ∈ (cellsByDomain s a.cells).map Prod.fst := by
      unfold cellsByDomain
      rw [List.map_map]
      exact List.mem_map.mpr ⟨_, List.mem_eraseDups.mpr (List.mem_map_of_mem hv), rfl⟩
    rw [hparts] at hmem
    exact List.mem_singleton.mp hmem
  have hread : Reader.array? ((arrayHeader a (s.domainAt first)).withText
      (s.domainAt first).text) = some ((Grid.tuples a.shape).map fun indices =>
        (VarArray.cellName a.name indices, Text.trim (s.domainAt first).text)) := by
    unfold Reader.array?
    show ((arrayHeader a _).attribute? _).bind _ = _
    rw [hid, Option.bind_some]
    show (((arrayHeader a _).attribute? _).bind _).bind _ = _
    rw [hsize, Option.bind_some, Reader.sizes?_subscript, Option.bind_some]
    rfl
  have hnames : (Grid.tuples a.shape).map (fun indices => (VarArray.cellName a.name indices,
      Text.trim (s.domainAt first).text)) =
      (a.cells.map s.nameOf).map (·, Text.trim (s.domainAt first).text) := by
    rw [← map_tuples_eq hs ha hholes, List.map_map]
    rfl
  rw [hread, hnames, List.map_map]
  refine congrArg some (List.map_congr_left fun v hv => ?_)
  rw [Store.assigns, ← domainAt_domainKey (hs.cellOf_of_mem_cells ha hv).1, hkeys v hv]
  rfl

/-- Any other array is written part by part. -/
theorem array?_withChildren (hs : s.Indexed) (ha : s.arrays.get? key = some a) (compact : Bool)
    (d : Domain) :
    Reader.array? ((arrayHeader a d).withChildren ((cellsByDomain s a.cells).map
        fun (key, cells) => ((Element.ofToken .domain).withAttribute .forCells
          (ListText.variableList ⟨s, compact⟩ cells true)).withText (s.domainAt key).text)) =
      some (((cellsByDomain s a.cells).flatMap Prod.snd).map s.assigns) := by
  obtain ⟨hid, hsize, -⟩ := attribute?_arrayHeader a d
  have htext : (arrayHeader a d).text = none := typed_text _ _
  have hchildren : (arrayHeader a d).children = [] := typed_children _ _
  unfold Reader.array?
  show ((arrayHeader a _).attribute? _).bind _ = _
  rw [hid, Option.bind_some]
  show (((arrayHeader a _).attribute? _).bind _).bind _ = _
  rw [hsize, Option.bind_some, Reader.sizes?_subscript, Option.bind_some]
  simp only [Element.withChildren, htext, hchildren, List.nil_append]
  have hread : ((cellsByDomain s a.cells).map fun part => ((Element.ofToken .domain).withAttribute
      .forCells (ListText.variableList ⟨s, compact⟩ part.2 true)).withText
        (s.domainAt part.1).text).mapM (Reader.part? a.name a.shape) =
      some ((cellsByDomain s a.cells).map fun part => part.2.map s.assigns) := by
    rw [mapM_eq_some_iff, List.forall₂_map_left_iff, List.forall₂_map_right_iff, List.forall₂_same]
    exact fun part hpart => part?_domain hs ha compact hpart
  refine (congrArg _ hread).trans ?_
  rw [Option.map_some, ← List.flatMap_def, List.map_flatMap]

/-- The element of an array is read as its cells with the texts of their domains; there is
none for an array without cells. -/
theorem arrayElement?_spec (hs : s.Indexed) (ha : s.arrays.get? key = some a) (compact : Bool) :
    (arrayElement? ⟨s, compact⟩ key = none ∧ a.cells = []) ∨
    ∃ e assigned, arrayElement? ⟨s, compact⟩ key = some e ∧ a.cells ≠ [] ∧
      e.name = Token.array.text ∧ e.attribute? Token.sameAs.text = none ∧
      e.attribute? Token.id.text = some a.name ∧ Reader.array? e = some assigned ∧
      assigned.Perm (a.cells.map s.assigns) := by
  have hnodup : a.cells.Nodup := by
    have hcovers := hs.nodup_covers (hs.inventory.arrays ha).2.2
    rwa [Store.covers, Store.arrayAt_of_get? ha] at hcovers
  have hperm := perm_cellsByDomain s hnodup
  cases hparts : cellsByDomain s a.cells with
  | nil =>
    refine .inl ⟨?_, ?_⟩
    · simp only [arrayElement?, Store.arrayAt_of_get? ha, hparts]
      rfl
    · rw [hparts] at hperm
      exact List.nil_perm.mp hperm
  | cons part rest =>
    obtain ⟨first, list⟩ := part
    have hne : a.cells ≠ [] := by
      intro hnil
      rw [hnil] at hparts
      cases hparts
    obtain ⟨hid, -, hsameAs⟩ := attribute?_arrayHeader a (s.domainAt first)
    have hname : (arrayHeader a (s.domainAt first)).name = Token.array.text := typed_name _ _
    have hhead : (cellsByDomain s a.cells).head? = some (first, list) := by
      rw [hparts]
      rfl
    by_cases hone : (cellsByDomain s a.cells).length = 1 ∧ (!a.hasHoles) = true
    · have helement : arrayElement? ⟨s, compact⟩ key =
          some ((arrayHeader a (s.domainAt first)).withText (s.domainAt first).text) := by
        simp only [arrayElement?, Store.arrayAt_of_get? ha, hhead, Option.map_some]
        exact congrArg some (if_pos hone)
      have hparts' : cellsByDomain s a.cells = [(first, list)] := by
        rw [hparts, List.length_cons] at hone
        rw [hparts, List.eq_nil_of_length_eq_zero (Nat.succ.inj hone.1)]
      exact .inr ⟨_, _, helement, hne, hname, hsameAs, hid,
        array?_withText hs ha (Bool.not_eq_true' _ ▸ hone.2) hparts', .refl _⟩
    · have helement : arrayElement? ⟨s, compact⟩ key =
          some ((arrayHeader a (s.domainAt first)).withChildren ((cellsByDomain s a.cells).map
            fun (key, cells) => ((Element.ofToken .domain).withAttribute .forCells
              (ListText.variableList ⟨s, compact⟩ cells true)).withText
                (s.domainAt key).text)) := by
        simp only [arrayElement?, Store.arrayAt_of_get? ha, hhead, Option.map_some]
        exact congrArg some (if_neg hone)
      exact .inr ⟨_, _, helement, hne, hname, hsameAs, hid,
        array?_withChildren hs ha compact _, hperm.map _⟩

/-! ### The section -/

/-- The carriers of domains are variables written before, and were read with the text of the
domain. -/
def Carries (s : Store) (written : List Variable) (carriers : List (Nat × String))
    (owners : List (String × String)) : Prop :=
  ∀ key carrier, carriers.lookup key = some carrier → (∃ v ∈ written, s.nameOf v = carrier) ∧
    owners.lookup carrier = some (Text.trim (s.domainAt key).text)

/-- Reading one more variable keeps what was read of the carriers. -/
theorem Carries.cons (hs : s.Inventory) {written : List Variable}
    {carriers : List (Nat × String)} {owners : List (String × String)}
    (h : Carries s written carriers owners) (hwritten : ∀ w ∈ written, s.Declares w)
    {v : Variable} (hv : s.Declares v) (hnew : v ∉ written) (text : String) :
    Carries s (v :: written) carriers ((s.nameOf v, text) :: owners) := by
  intro key carrier hcarrier
  obtain ⟨⟨w, hw, rfl⟩, hread⟩ := h key carrier hcarrier
  refine ⟨⟨w, List.mem_cons_of_mem _ hw, rfl⟩, ?_⟩
  have hne : s.nameOf w ≠ s.nameOf v := fun heq =>
    hnew (hs.nameOf_injective (hwritten w hw) hv heq ▸ hw)
  rw [List.lookup_cons, beq_false_of_ne hne]
  exact hread

/-- The element of a variable without its content. -/
def aloneHeader (name : String) (d : Domain) : Element :=
  typed ((Element.ofToken .var).withAttribute .id name) d

theorem attribute?_aloneHeader (name : String) (d : Domain) :
    (aloneHeader name d).attribute? Token.id.text = some name ∧
      (aloneHeader name d).attribute? Token.sameAs.text = none := by
  unfold aloneHeader
  refine ⟨?_, ?_⟩
  · rw [attribute?_typed _ _ (by decide), Element.attribute?_withAttribute_self]
  · rw [attribute?_typed _ _ (by decide), Element.attribute?_withAttribute_of_ne _ (by decide)]
    rfl

/-- A variable that refers to another one has its text. -/
theorem alone?_sameAs {owners : List (String × String)} {name carrier text : String} {d : Domain}
    (h : owners.lookup carrier = some text) :
    Reader.alone? owners ((aloneHeader name d).withAttribute .sameAs carrier) =
      some (name, text) := by
  obtain ⟨hid, -⟩ := attribute?_aloneHeader name d
  rw [Reader.alone?, Element.attribute?_withAttribute_of_ne _ (by decide), hid, Option.bind_some,
    Element.attribute?_withAttribute_self]
  simp only [h, Option.map_some]

theorem alone?_withText (owners : List (String × String)) (name : String) (d : Domain) :
    Reader.alone? owners ((aloneHeader name d).withText d.text) =
      some (name, Text.trim d.text) := by
  obtain ⟨hid, hsameAs⟩ := attribute?_aloneHeader name d
  unfold Reader.alone?
  show ((aloneHeader name d).attribute? _).bind _ = _
  rw [hid, Option.bind_some]
  show (match (aloneHeader name d).attribute? _ with
    | some owner => _
    | none => _) = _
  rw [hsameAs]
  rfl

/-- The element of a variable is read as the variable with the text of its domain, and what is
to be known of carriers stays known. -/
theorem aloneElement_spec (hs : s.Inventory) {written : List Variable}
    {carriers : List (Nat × String)} {owners : List (String × String)}
    (h : Carries s written carriers owners) (hwritten : ∀ w ∈ written, s.Declares w)
    {v : Variable} (hv : s.Declares v) (hnew : v ∉ written) (shareAbove : Nat) :
    ∃ e carriers', aloneElement s shareAbove carriers v = (e, carriers') ∧
      e.name = Token.var.text ∧ Reader.alone? owners e = some (s.assigns v) ∧
      Carries s (v :: written) carriers'
        (if (e.attribute? Token.sameAs.text).isSome then owners else s.assigns v :: owners) := by
  obtain ⟨info, hinfo, hname, hdomain⟩ := hv.exists_info
  have hassigns : s.assigns v = (info.name, Text.trim (s.domainAt info.domain).text) := by
    rw [Store.assigns, hname, hdomain]
  have hsameAs := (attribute?_aloneHeader info.name (s.domainAt info.domain)).2
  have hheader : (aloneHeader info.name (s.domainAt info.domain)).name = Token.var.text :=
    typed_name _ _
  have hcons := h.cons hs hwritten hv hnew (Text.trim (s.domainOf v).text)
  rw [hassigns]
  unfold aloneElement
  rw [hinfo]
  dsimp only
  cases hlookup : carriers.lookup info.domain with
  | some carrier =>
    obtain ⟨-, hread⟩ := h _ _ hlookup
    by_cases hshare : shareAbove < (s.domainAt info.domain).text.utf8ByteSize
    · refine ⟨_, _, if_pos hshare, hheader, alone?_sameAs hread, ?_⟩
      rw [Element.attribute?_withAttribute_self]
      intro key carrier hcarrier
      obtain ⟨⟨w, hw, heq⟩, hread⟩ := h key carrier hcarrier
      exact ⟨⟨w, List.mem_cons_of_mem _ hw, heq⟩, hread⟩
    · refine ⟨_, _, if_neg hshare, hheader, alone?_withText _ _ _, ?_⟩
      show Carries s _ _ (if ((aloneHeader _ _).attribute? _).isSome then _ else _)
      rw [hsameAs, if_neg (by decide), ← hname, ← hdomain]
      exact hcons
  | none =>
    refine ⟨_, _, rfl, hheader, alone?_withText _ _ _, ?_⟩
    show Carries s _ _ (if ((aloneHeader _ _).attribute? _).isSome then _ else _)
    rw [hsameAs, if_neg (by decide), ← hname, ← hdomain]
    intro key carrier hcarrier
    rw [List.lookup_cons] at hcarrier
    split at hcarrier
    · rename_i heq
      cases hcarrier
      refine ⟨⟨v, List.mem_cons_self, rfl⟩, ?_⟩
      rw [List.lookup_cons, beq_self_eq_true, hdomain, beq_iff_eq.mp heq]
    · exact hcons key carrier hcarrier

/-- The elements of declarations are read as what these cover, variable by variable with the
text of its domain. -/
theorem assigned?_declarationElements (hs : s.Indexed) (compact : Bool) (shareAbove : Nat)
    {declarations : List Declaration} (hsub : declarations ⊆ s.declarations)
    (hnodup : declarations.Nodup) {written : List Variable} {carriers : List (Nat × String)}
    {owners : List (String × String)} (h : Carries s written carriers owners)
    (hwritten : ∀ w ∈ written, s.Declares w ∧ .alone w ∉ declarations) :
    ∃ assigned, Reader.assigned? owners
        (declarationElements ⟨s, compact⟩ shareAbove carriers declarations) = some assigned ∧
      assigned.Perm ((declarations.flatMap s.covers).map s.assigns) := by
  induction declarations generalizing written carriers owners with
  | nil => exact ⟨[], rfl, .refl _⟩
  | cons declaration rest ih =>
    obtain ⟨hdeclared, hrest⟩ := List.cons_subset.mp hsub
    obtain ⟨hfirst, hnodup'⟩ := List.nodup_cons.mp hnodup
    cases declaration with
    | alone v =>
      have hv := (hs.alone hdeclared).1
      have hnew : v ∉ written := fun hmem => (hwritten v hmem).2 List.mem_cons_self
      obtain ⟨e, carriers', he, hname, hread, hcarries⟩ := aloneElement_spec hs.inventory h
        (fun w hw => (hwritten w hw).1) hv hnew shareAbove
      obtain ⟨assigned, hassigned, hperm⟩ := ih hrest hnodup' hcarries fun w hw => by
        rcases List.mem_cons.mp hw with rfl | hw
        · exact ⟨hv, hfirst⟩
        · exact ⟨(hwritten w hw).1, fun hmem => (hwritten w hw).2 (List.mem_cons_of_mem _ hmem)⟩
      refine ⟨s.assigns v :: assigned, ?_, hperm.cons _⟩
      simp only [declarationElements, he, Reader.assigned?]
      rw [if_pos hname, hread, Option.bind_some, hassigned]
      rfl
    | array key =>
      obtain ⟨a, ha⟩ := hs.inventory.knows _ hdeclared
      obtain ⟨assigned, hassigned, hperm⟩ := ih hrest hnodup' h fun w hw =>
        ⟨(hwritten w hw).1, fun hmem => (hwritten w hw).2 (List.mem_cons_of_mem _ hmem)⟩
      rw [declarationElements, List.flatMap_cons, List.map_append, Store.covers,
        Store.arrayAt_of_get? ha]
      rcases arrayElement?_spec hs ha compact with ⟨hnone, hcells⟩ |
        ⟨e, cells, he, -, hname, hsameAs, -, hread, hcells⟩
      · rw [hnone, hcells]
        exact ⟨assigned, hassigned, hperm⟩
      · refine ⟨cells ++ assigned, ?_, hcells.append hperm⟩
        rw [he]
        simp only [Option.toList_some, List.singleton_append, Reader.assigned?]
        rw [if_neg (by rw [hname]; decide), if_pos ⟨hname, hsameAs⟩, hread, Option.bind_some,
          hassigned]
        rfl

theorem attribute?_aloneElement {v : Variable} (hv : s.Declares v) (shareAbove : Nat)
    (carriers : List (Nat × String)) :
    (aloneElement s shareAbove carriers v).1.attribute? Token.id.text = some (s.nameOf v) := by
  obtain ⟨info, hinfo, hname, -⟩ := hv.exists_info
  obtain ⟨hid, -⟩ := attribute?_aloneHeader info.name (s.domainAt info.domain)
  rw [hname]
  unfold aloneElement
  rw [hinfo]
  dsimp only
  cases carriers.lookup info.domain with
  | some carrier =>
    dsimp only
    split
    · exact (Element.attribute?_withAttribute_of_ne _ (by decide) _).trans hid
    · exact hid
  | none => exact hid

/-- The elements stand in the order of the declarations; only arrays without cells are left
out. -/
theorem ids_declarationElements (hs : s.Indexed) (compact : Bool) (shareAbove : Nat)
    {declarations : List Declaration} (hsub : declarations ⊆ s.declarations)
    (carriers : List (Nat × String)) :
    (declarationElements ⟨s, compact⟩ shareAbove carriers declarations).map
        (·.attribute? Token.id.text) =
      (declarations.filter fun declaration => !(s.covers declaration).isEmpty).map
        fun declaration => some (s.claimedName declaration) := by
  induction declarations generalizing carriers with
  | nil => rfl
  | cons declaration rest ih =>
    obtain ⟨hdeclared, hrest⟩ := List.cons_subset.mp hsub
    cases declaration with
    | alone v =>
      have hcovers : (!(s.covers (.alone v)).isEmpty) = true := rfl
      have hid := attribute?_aloneElement (hs.alone hdeclared).1 shareAbove carriers
      rw [List.filter_cons, if_pos hcovers, List.map_cons, Store.claimedName, ← hid]
      exact congrArg (_ :: ·) (ih hrest _)
    | array key =>
      obtain ⟨a, ha⟩ := hs.inventory.knows _ hdeclared
      have hcovers : s.covers (.array key) = a.cells := congrArg VarArray.cells
        (Store.arrayAt_of_get? ha)
      rw [declarationElements, List.map_append, ih hrest, List.filter_cons, hcovers]
      rcases arrayElement?_spec hs ha compact with ⟨hnone, hcells⟩ |
        ⟨e, -, he, hne, -, -, hid, -⟩
      · rw [hnone, hcells]
        rfl
      · rw [he, if_pos (by simpa using hne), List.map_cons, Store.claimedName_of_get? ha,
          Option.toList_some, List.map_singleton, hid]
        rfl

end Document

/-- No variable is called like a hole. -/
theorem Store.Indexed.nameOf_ne_hole {s : Store} (hs : s.Indexed) {key : Nat} {a : VarArray}
    (ha : s.arrays.get? key = some a) {position : Nat} (hhole : a.slots[position]? = some none)
    {v : Variable} (hv : s.Declares v) :
    s.nameOf v ≠ VarArray.cellName a.name (Grid.indices a.shape position) := by
  intro hname
  have hwithin : position < Grid.volume a.shape := by
    rw [← hs.full ha]
    exact (List.getElem?_eq_some_iff.mp hhole).1
  have hget : a.get? (Grid.indices a.shape position) = none := by
    rw [VarArray.get?, Grid.position?_indices hwithin, Option.bind_some, hhole]
    rfl
  have hne := hs.inventory.indices_ne_nil ha position
  cases hcell : s.cellOf v with
  | none =>
    refine Text.not_mem_of_isIdentifier (hs.inventory.alone hv hcell).1 ?_
    rw [hname]
    exact VarArray.mem_cellName _ hne
  | some cell =>
    have hplace := hs.inventory.isCell hv hcell
    have ha' := hplace.array
    obtain ⟨hsame, hindices⟩ := VarArray.cellName_inj
      (Text.not_mem_of_isIdentifier (hs.inventory.arrays ha').1)
      (Text.not_mem_of_isIdentifier (hs.inventory.arrays ha).1)
      (hs.inventory.indices_ne_nil ha' _) hne
      (hplace.name.symm.trans hname)
    have hkeys : cell.array = key := hs.inventory.key_eq_of_name ha' ha hsame
    have hfound := hplace.get
    rw [hkeys, arrayAt_of_get? ha] at hfound hindices
    rw [hindices, hget] at hfound
    cases hfound

namespace Introduced

variable {m : Model} {options : Options} {c : Compiled}

/-- A document begins with the variables section of the store with auxiliary variables. -/
theorem head?_document (hc : (m.build options).1 = .ok c) :
    ∃ p, ofModel m = .ok p ∧ c.document.children.head? =
      some (Document.variablesSection ⟨p.store, options.compactLists⟩
        options.shareDomainsAbove) := by
  obtain ⟨p, entries, hp, -, rfl⟩ := Model.build_eq_ok.mp hc
  exact ⟨p, hp, rfl⟩

/-- Whatever is shared, the variables section of the document of a model, read back, gives
every variable of the store, auxiliary ones included, exactly one text, that of its own domain
without the blanks at its ends.  Nothing else gets a text, holes least of all.  Every reference
is to a variable that stands before and carries its own text, and the elements stand in the
order of the declarations. -/
theorem variablesSection_read (hm : m.Reachable) (hc : (m.build options).1 = .ok c) :
    ∃ p e assigned, ofModel m = .ok p ∧ c.document.children.head? = some e ∧
      e.name = Token.variableSection.text ∧
      Reader.assigned? [] e.children = some assigned ∧
      assigned.Perm (p.store.declared.map fun v =>
        (p.store.nameOf v, Text.trim (p.store.domainOf v).text)) ∧
      (assigned.map Prod.fst).Nodup ∧
      (∀ key a position, p.store.arrays.get? key = some a → a.slots[position]? = some none →
        VarArray.cellName a.name (Grid.indices a.shape position) ∉ assigned.map Prod.fst) ∧
      (∀ before e' after owner, e.children = before ++ e' :: after →
        e'.attribute? Token.sameAs.text = some owner → ∃ e'' ∈ before,
          e''.name = Token.var.text ∧ e''.attribute? Token.id.text = some owner ∧
          e''.attribute? Token.sameAs.text = none ∧ e''.text.isSome) ∧
      e.children.map (·.attribute? Token.id.text) =
        (p.store.declarations.filter fun declaration =>
          !(p.store.covers declaration).isEmpty).map fun declaration =>
            some (p.store.claimedName declaration) := by
  obtain ⟨p, hp, hhead⟩ := head?_document hc
  have hs : p.store.Indexed := (store_built hm.sound hp).indexed
  have hnodup : p.store.declarations.Nodup := List.Nodup.of_map _ hs.inventory.names
  have hstart : Document.Carries p.store [] [] [] := fun _ _ h => nomatch h
  obtain ⟨assigned, hread, hperm⟩ := Document.assigned?_declarationElements hs
    options.compactLists options.shareDomainsAbove (List.Subset.refl _) hnodup hstart
    fun _ h => nomatch h
  have hassigned : assigned.Perm (p.store.declared.map p.store.assigns) :=
    hperm.trans (hs.covered.map _)
  have hnames : (assigned.map Prod.fst).Perm (p.store.declared.map p.store.nameOf) := by
    have hnames := hassigned.map Prod.fst
    rwa [List.map_map] at hnames
  refine ⟨p, _, assigned, hp, hhead, rfl, hread, hassigned, ?_, ?_, ?_,
    Document.ids_declarationElements hs _ _ (List.Subset.refl _) []⟩
  · exact hnames.nodup_iff.mpr (List.nodup_append.mp hs.coherent.names).1
  · intro key a position ha hhole hmem
    obtain ⟨v, hv, hname⟩ := List.mem_map.mp (hnames.subset hmem)
    exact hs.nameOf_ne_hole ha hhole (Store.mem_declared.mp hv) hname
  · intro before e' after owner hsplit howner
    rcases Reader.exists_owner hread hsplit howner with hlookup | hexists
    · cases hlookup
    · exact hexists

end Introduced

namespace Mixed

/-- The document of the model has a variable that refers to the first one. -/
theorem variablesSection_read_shared : model.Reachable ∧
    ∃ e assigned, (model.finish options introduced [entryWithRows]).1.document.children.head? =
        some e ∧
      e.children.map (·.attribute? Token.sameAs.text) = [none, none, some "v0"] ∧
      Reader.assigned? [] e.children = some assigned ∧
      assigned.Perm [("v0", "0..2"), ("v1", "a b"), ("v2", "0..2")] := by
  have hbuild := Model.build_eq_ok.mpr ⟨_, _, ofModel_model, rows_introduced, rfl⟩
  obtain ⟨p, e, assigned, hp, hhead, -, hread, hperm, -⟩ :=
    Introduced.variablesSection_read reachable_model hbuild
  cases hp.symm.trans ofModel_model
  refine ⟨reachable_model, e, assigned, hhead, ?_, hread, ?_⟩
  · have he : some e = some (Document.variablesSection ⟨declared, true⟩ 0) := hhead.symm
    cases he
    cbv
  · have htexts : (declared.declared.map fun v =>
        (declared.nameOf v, Text.trim (declared.domainOf v).text)) =
        [("v0", "0..2"), ("v1", "a b"), ("v2", "0..2")] := by
      cbv
    exact htexts ▸ hperm

end Mixed
end CspModel
