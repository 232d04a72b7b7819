import CspModel.Compile
import CspModel.Proofs.Origins
import CspModel.Proofs.Placement
import CspModel.Proofs.PossibleValues
import CspModel.Proofs.Tables

/-! # Extensions in a document

An extension is written alone, as an instance of a group or as an instance of a slide, in
all cases over a list of variables and with one table for all instances
(`Introduced.shaped_entries`).  Turning the table into rows keeps what every instance says
(`Written.Tabled.tabulates`), as long as no wildcard is expanded over integers in a column
where the instance has a symbolic variable.

A column of an extension on its own is one variable, a column of a group is what its
instances have at one place, and every column of a slide is the whole list, as a window may
begin anywhere.  All three are unions of domains, and the argument needs no more than that
the variables of an instance stand in their columns (`Written.Turned`).
-/
namespace CspModel

open CspModel.Expr

/-! ### Kinds of domains -/

namespace Domain

/-- A symbolic domain has no integers. -/
theorem Normal.contains_eq_false {d : Domain} (h : d.Normal) (hd : d.isSymbolic = true) {n : Int} :
    d.contains n = false := by
  cases h with
  | @ofRuns ranges _ _ =>
    rw [isSymbolic, kind_ofRuns] at hd
    cases hd
  | ofSymbols _ => exact contains_ofSymbols _ n

/-- A domain that holds a symbol is symbolic. -/
theorem Normal.isSymbolic {d : Domain} (h : d.Normal) {text : String}
    (htext : d.Holds (.symbol text)) : d.isSymbolic = true := by
  cases h with
  | @ofRuns ranges _ _ =>
    rw [Holds, containsSymbol, symbols_ofRuns] at htext
    cases htext
  | ofSymbols hne => exact isSymbolic_ofSymbols hne

end Domain

/-- The domain of a variable is in normal form, also that of an undeclared one. -/
theorem Store.Built.normal_domainOf {s : Store} (hs : s.Built) (v : Variable) :
    (s.domainOf v).Normal := by
  unfold Store.domainOf
  cases s.info? v with
  | none => exact Domain.normal_unbounded
  | some info =>
    rw [Option.map_some, Option.getD_some, Store.domainAt]
    cases hd : s.domains.get? info.domain with
    | none => exact Domain.normal_unbounded
    | some d => exact hs.normal.domains hd

/-! ### Layouts with a table -/

namespace Layout

/-- The layout of an extension with whatever stands for its table. -/
def tabled (attributes : List (String × String)) (list : List Parameter) (polarity : Polarity)
    (content : Content) : Layout where
  name := "extension"
  attributes := attributes
  arguments := [{ name := "list", content := .parameters list }, { name := polarity.name, content }]

/-- The layout of an extension with rows; it is starred when some row holds a wildcard. -/
def ofRows (list : List Parameter) (polarity : Polarity) (rows : List (List RowCell)) : Layout :=
  tabled (if rows.any (·.contains .any) then [("starred", "true")] else []) list polarity
    (.rows rows)

/-- The layout of an extension as it was posted. -/
def ofTable (list : List Parameter) (table : Table) : Layout :=
  tabled [] list table.polarity (.table table)

theorem ofRelation_extension (list : List Variable) (table : Table) :
    ofRelation (.extension (list.map .var) table) = ofTable (list.map .var) table := by
  simp [ofRelation, Argument.ofList, ofTable, tabled, Function.comp_def, Parameter.ofExpr]

theorem ofTable_inj {list list' : List Parameter} {table table' : Table}
    (h : ofTable list table = ofTable list' table') : list = list' ∧ table = table' := by
  simp only [ofTable, tabled, mk.injEq, List.cons.injEq, Argument.mk.injEq,
    Content.parameters.injEq, Content.table.injEq, true_and, and_true] at h
  exact ⟨h.1, h.2.2⟩

theorem withRows_ofTable (list : List Parameter) (table : Table) (rows : List (List RowCell)) :
    Rows.withRows (ofTable list table) rows = ofRows list table.polarity rows := by
  unfold Rows.withRows ofRows
  split <;> rfl

/-- Only extensions are laid out under their name. -/
theorem exists_of_name {r : Relation} (h : (ofRelation r).name = "extension") :
    ∃ list table, r = .extension list table := by
  cases r with
  | extension list table => exact ⟨list, table, rfl⟩
  | conditional f c => cases f <;> simp [ofRelation, Aggregate.kind] at h
  | _ => simp [ofRelation] at h

section
variable {attributes : List (String × String)} {polarity : Polarity} {content : Content}

theorem instantiate_tabled (h : content.All Parameter.IsGround) (names : Variable → String)
    (list arguments : List Parameter) :
    (tabled attributes list polarity content).instantiate names arguments =
      tabled attributes (list.flatMap (Parameter.instantiate arguments)) polarity content := by
  have hcontent := Argument.instantiate_of_ground (a := ⟨polarity.name, [], content⟩) h names
    arguments
  rw [instantiate, tabled, List.map_cons, List.map_singleton, hcontent]
  rfl

/-- All placeholders of a list stand for all arguments. -/
theorem instantiate_tabled_all (h : content.All Parameter.IsGround) (names : Variable → String)
    (arguments : List Parameter) :
    (tabled attributes [.allPlaceholders] polarity content).instantiate names arguments =
      tabled attributes arguments polarity content := by
  rw [instantiate_tabled h, List.flatMap_singleton]
  rfl

/-- Numbered placeholders stand for the arguments in their order. -/
theorem instantiate_tabled_numbered (h : content.All Parameter.IsGround)
    (names : Variable → String) (arguments : List Parameter) :
    (tabled attributes ((List.range arguments.length).map .placeholder) polarity
      content).instantiate names arguments = tabled attributes arguments polarity content := by
  have hlist := @instantiate_numbered [] arguments []
  simp only [List.length_nil, Nat.zero_add, List.nil_append, List.append_nil] at hlist
  rw [instantiate_tabled h]
  exact congrArg (tabled attributes · polarity content) hlist

theorem width_tabled (h : content.All Parameter.IsGround) (width : Nat) :
    (tabled attributes ((List.range width).map .placeholder) polarity content).width = width := by
  have hplaceholders : (Content.parameters ((List.range width).map .placeholder)).placeholders =
      List.range width := by
    rw [Content.placeholders, List.filterMap_map]
    exact List.filterMap_some
  refine length_eraseDups_of_mem_iff fun k => ?_
  rw [tabled, List.flatMap_cons, List.flatMap_singleton, hplaceholders,
    Content.placeholders_of_ground h, List.append_nil, List.mem_range]

end

end Layout

/-! ### Entries with a table -/

namespace Written

mutual
/-- The entries that are written, with blocks opened. -/
def leaves : Written → List Written
  | constraint layout d => [constraint layout d]
  | group template arguments d => [group template arguments d]
  | slide list offset circular template d => [slide list offset circular template d]
  | equalities list values d => [equalities list values d]
  | block entries _ => leavesOf entries

/-- The leaves of several entries. -/
def leavesOf : List Written → List Written
  | [] => []
  | w :: rest => leaves w ++ leavesOf rest
end

/-- The layouts of the instances of an entry that is written with a layout. -/
def instances (names : Variable → String) : Written → List Layout
  | constraint layout _ => [layout]
  | group template arguments _ => arguments.map (template.instantiate names)
  | slide list offset circular template _ =>
    (Sliding.starts ⟨list, offset, circular⟩ template.width).map fun start =>
      template.instantiate names (Sliding.window ⟨list, offset, circular⟩ template.width start)
  | _ => []

/-- Whether the entry is none of extensions. -/
def Tableless : Written → Prop
  | constraint layout _ => layout.name ≠ "extension"
  | group template _ _ => template.name ≠ "extension"
  | slide _ _ _ template _ => template.name ≠ "extension"
  | equalities _ _ _ => True
  | block _ _ => False

/-- The three ways in which extensions with a table are written. -/
inductive Tabled (table : Table) : Written → Prop
  | alone (list : List Variable) (d : Decoration) :
      Tabled table (constraint (Layout.ofTable (list.map .var) table) d)
  | group (lists : List (List Variable)) (d : Decoration) :
      Tabled table (group (Layout.ofTable [.allPlaceholders] table) (lists.map (List.map .var)) d)
  | slide (list : List Variable) (offset : Nat) (circular : Bool) (width : Nat) (d : Decoration) :
      Tabled table (slide list offset circular
        (Layout.ofTable ((List.range width).map .placeholder) table) d)

/-- The domains of the columns of the table of an entry. -/
def columns (s : Store) : Written → List (Option Domain)
  | constraint layout _ => layoutColumns Rows.ownVariables layout
  | group template arguments _ => layoutColumns (Rows.instanceVariables arguments) template
  | slide list _ _ template _ => layoutColumns (fun _ => list) template
  | _ => []
where
  layoutColumns (variablesOf : Parameter → List Variable) (layout : Layout) :
      List (Option Domain) :=
    match Rows.tableOf? layout with
    | some (list, table) => Rows.columnDomains s variablesOf list table
    | none => []

/-- The variables a column of an entry with instances over the given lists stands for: those
at its place and, in a slide, all of its list. -/
def columnVariables (w : Written) (lists : List (List Variable)) (k : Nat) : List Variable :=
  match w with
  | slide list _ _ _ _ => list
  | _ => lists.filterMap (·[k]?)

/-- Whether the instances of an entry are extensions of a table over some lists, and those of
another one the same extensions with rows, which say the same of the values that the
variables can take. -/
structure Tabulates (s : Store) (form : TableForm) (table : Table) (rows : List (List RowCell))
    (lists : List (List Variable)) (w w' : Written) : Prop where
  posted : w.instances s.nameOf =
    lists.map fun list => Layout.ofRelation (.extension (list.map .var) table)
  written : w'.instances s.nameOf =
    lists.map fun list => Layout.ofRows (list.map .var) table.polarity rows
  starred : ∀ layout ∈ w'.instances s.nameOf,
    ("starred", "true") ∈ layout.attributes ↔ ∃ row ∈ rows, .any ∈ row
  ascending : rows.Pairwise fun row row' => compare row row' = .lt
  /-- The rows are matched by what the table is matched by, without wildcards for symbols in
  columns where they are expanded over integers. -/
  exact : ∀ list ∈ lists, ∀ σ : Assignment, (∀ v ∈ list, (s.domainOf v).Holds (σ v)) →
    (Rows.Matches rows (list.map σ) ↔
      table.MatchesWithout (fun k => Rows.IsIntegral form (w.columns s)[k]?.join) (list.map σ))
  /-- Nothing is left out where wildcards are kept, and where every symbolic variable of the
  list stands in a column of symbolic variables. -/
  preserved : ∀ list ∈ lists, ∀ σ : Assignment, (∀ v ∈ list, (s.domainOf v).Holds (σ v)) →
    (form = .compact ∨ ∀ (k : Nat) v, list[k]? = some v → (s.domainOf v).isSymbolic = true →
      ∀ u ∈ w.columnVariables lists k, (s.domainOf u).isSymbolic = true) →
    (Rows.Matches rows (list.map σ) ↔ table.Matches (list.map σ))

/-- Whether another entry has the rows of a table in the place of the table, over the domains
of columns in which the variables of all instances stand. -/
structure Turned (s : Store) (form : TableForm) (table : Table) (rows : List (List RowCell))
    (lists : List (List Variable)) (w w' : Written) : Prop where
  posted : w.instances s.nameOf = lists.map fun list => Layout.ofTable (list.map .var) table
  written : w'.instances s.nameOf =
    lists.map fun list => Layout.ofRows (list.map .var) table.polarity rows
  ofTable : Rows.ofTable form (w.columns s) table = .ok rows
  /-- The domain of a column is the union of the domains of its variables. -/
  union : ∀ {k : Nat} {d : Domain}, d ∈ (w.columns s)[k]?.join →
    Domain.union? ((w.columnVariables lists k).map s.domainOf) = some d
  mem : ∀ {list : List Variable} {k : Nat} {v : Variable}, list ∈ lists → list[k]? = some v →
    v ∈ w.columnVariables lists k

/-! ### Columns -/

theorem union?_of_mem_columnDomains {s : Store} {table : Table} {list : List Parameter}
    {variablesOf : Parameter → List Variable} {column : Nat → List Variable}
    (hcolumn : ∀ (k : Nat) p, (Rows.columnParameters list table)[k]? = some p →
      variablesOf p = column k) {k : Nat} {d : Domain}
    (hd : d ∈ (Rows.columnDomains s variablesOf list table)[k]?.join) :
    Domain.union? ((column k).map s.domainOf) = some d := by
  have hd := Option.join_eq_some_iff.mp hd
  rw [Rows.columnDomains, List.getElem?_map] at hd
  obtain ⟨p, hp, hd⟩ := Option.map_eq_some_iff.mp hd
  rw [← hcolumn k p hp, hd]

section
variable {s : Store} {form : TableForm} {table : Table} {rows : List (List RowCell)}
  {lists : List (List Variable)} {w w' : Written} (h : Turned s form table rows lists w w')
include h

theorem Turned.takes {k : Nat} {v : Variable} (hv : v ∈ w.columnVariables lists k) {value : Value}
    (hvalue : (s.domainOf v).Holds value) : Rows.Takes (w.columns s)[k]?.join value :=
  fun _ hd => ⟨_, h.union hd, _, List.mem_map_of_mem hv, hvalue⟩

/-- No wildcard is expanded over integers in a column of symbolic variables. -/
theorem Turned.not_isIntegral (hs : ∀ v, (s.domainOf v).Normal) {k : Nat}
    (hcolumn : form = .compact ∨
      ∀ u ∈ w.columnVariables lists k, (s.domainOf u).isSymbolic = true) :
    ¬Rows.IsIntegral form (w.columns s)[k]?.join := by
  rintro ⟨hexpanded, -, d, hd, hkind⟩
  rcases hcolumn with hcompact | hsymbolic
  · rw [hexpanded] at hcompact
    cases hcompact
  · rcases Domain.union?_cases (h.union hd) with ⟨-, -, own, hown, n, hn⟩ | ⟨hsymbols, -⟩
    · obtain ⟨u, hu, rfl⟩ := List.mem_map.mp hown
      rw [(hs u).contains_eq_false (hsymbolic u hu)] at hn
      cases hn
    · rw [hkind] at hsymbols
      cases hsymbols

end

/-! ### Instances -/

theorem mem_attributes_ofRows (list : List Parameter) (polarity : Polarity)
    (rows : List (List RowCell)) :
    ("starred", "true") ∈ (Layout.ofRows list polarity rows).attributes ↔
      ∃ row ∈ rows, .any ∈ row := by
  rw [Layout.ofRows, Layout.tabled]
  split <;> rename_i hstarred <;> simpa [List.any_eq_true] using hstarred

/-- The rows of an entry say what its table says. -/
theorem Turned.tabulates {s : Store} (hs : ∀ v, (s.domainOf v).Normal) {form : TableForm}
    {table : Table} {rows : List (List RowCell)} {lists : List (List Variable)} {w w' : Written}
    (h : Turned s form table rows lists w w') : Tabulates s form table rows lists w w' := by
  have hexact : ∀ list ∈ lists, ∀ σ : Assignment, (∀ v ∈ list, (s.domainOf v).Holds (σ v)) →
      (Rows.Matches rows (list.map σ) ↔ table.MatchesWithout (fun k =>
        Rows.IsIntegral form (w.columns s)[k]?.join) (list.map σ)) := by
    intro list hlist σ hσ
    refine Rows.matches_ofTable h.ofTable fun k value hvalue => ?_
    rw [List.getElem?_map] at hvalue
    obtain ⟨v, hv, rfl⟩ := Option.map_eq_some_iff.mp hvalue
    exact h.takes (h.mem hlist hv) (hσ v (List.mem_of_getElem? hv))
  refine ⟨?_, h.written, fun layout hlayout => ?_, Rows.pairwise_ofTable h.ofTable, hexact, ?_⟩
  · simpa only [Layout.ofRelation_extension] using h.posted
  · rw [h.written] at hlayout
    obtain ⟨list, -, rfl⟩ := List.mem_map.mp hlayout
    exact mem_attributes_ofRows _ _ rows
  · intro list hlist σ hσ hclean
    rw [hexact list hlist σ hσ]
    refine Table.matchesWithout_iff fun k text hintegral htext => ?_
    rw [List.getElem?_map] at htext
    obtain ⟨v, hv, hvalue⟩ := Option.map_eq_some_iff.mp htext
    have hsymbol := hσ v (List.mem_of_getElem? hv)
    rw [hvalue] at hsymbol
    exact h.not_isIntegral hs
      (hclean.imp_right fun hclean => hclean k v hv ((hs v).isSymbolic hsymbol)) hintegral

theorem columnParameters_of_ne {list : List Parameter} (h : list ≠ [.allPlaceholders])
    (table : Table) : Rows.columnParameters list table = list := by
  unfold Rows.columnParameters
  split
  · exact absurd rfl h
  · rfl

/-- A layout with a table is turned into the one with its rows. -/
theorem materialize_ofTable {s : Store} {form : TableForm} {table : Table} {list : List Parameter}
    {variablesOf : Parameter → List Variable} {layout : Layout}
    (h : Rows.materialize s form variablesOf (Layout.ofTable list table) = .ok layout) :
    ∃ rows, Rows.ofTable form (Rows.columnDomains s variablesOf list table) table = .ok rows ∧
      layout = Layout.ofRows list table.polarity rows := by
  obtain ⟨rows, hrows, hlayout⟩ := Except.map_eq_ok.mp h
  exact ⟨rows, hrows, hlayout ▸ Layout.withRows_ofTable list table rows⟩

/-- The variables of a window on the list of a slide. -/
def windowOf (s : Sliding) (width start : Nat) : List Variable :=
  (List.range width).filterMap fun k => s.entryAt (start + k)

theorem window_eq_map (s : Sliding) (width start : Nat) :
    s.window width start = (windowOf s width start).map .var := by
  rw [Sliding.window, windowOf, List.map_filterMap]

theorem length_windowOf {s : Sliding} {width start : Nat} (h : start ∈ s.starts width) :
    (windowOf s width start).length = width := by
  have hsome : ∀ k ∈ List.range width, (s.entryAt (start + k)).isSome := by
    intro k hk
    have hk := List.mem_range.mp hk
    have hplace := (s.mem_starts_iff.mp h).2
    rw [Sliding.entryAt, isSome_getElem?]
    split at hplace
    · rename_i hcircular
      rw [if_pos hcircular]
      exact Nat.mod_lt _ (Nat.lt_of_le_of_lt (Nat.zero_le _) hplace)
    · rename_i hcircular
      rw [if_neg hcircular]
      omega
  rw [windowOf, List.filterMap_length_eq_length.mpr hsome, List.length_range]

theorem mem_list_of_mem_windowOf {s : Sliding} {width start : Nat} {v : Variable}
    (hv : v ∈ windowOf s width start) : v ∈ s.list := by
  obtain ⟨k, -, hk⟩ := List.mem_filterMap.mp hv
  exact List.mem_of_getElem? hk

theorem instanceVariables_placeholder (lists : List (List Variable)) (k : Nat) :
    Rows.instanceVariables (lists.map (List.map .var)) (.placeholder k) =
      lists.filterMap (·[k]?) := by
  induction lists with
  | nil => rfl
  | cons list rest ih =>
    rw [Rows.instanceVariables] at ih ⊢
    rw [List.map_cons, List.flatMap_cons, ih, List.getElem?_map, List.filterMap_cons]
    cases list[k]? <;> rfl

/-- The instances of a slide with a list of numbered placeholders. -/
theorem instances_slide (names : Variable → String) (s : Sliding) {width : Nat}
    {attributes : List (String × String)} {polarity : Polarity} {content : Content}
    (h : content.All Parameter.IsGround) (d : Decoration) :
    instances names (.slide s.list s.offset s.circular
        (.tabled attributes ((List.range width).map .placeholder) polarity content) d) =
      ((s.starts width).map (windowOf s width)).map fun list =>
        Layout.tabled attributes (list.map .var) polarity content := by
  rw [instances, Layout.width_tabled h, List.map_map]
  refine List.map_congr_left fun start hstart => ?_
  rw [window_eq_map, Function.comp_apply]
  have hlength : ((windowOf s width start).map Parameter.var).length = width := by
    rw [List.length_map, length_windowOf hstart]
  have hinstance : Layout.instantiate names ((windowOf s width start).map .var)
      (.tabled attributes ((List.range ((windowOf s width start).map Parameter.var).length).map
        .placeholder) polarity content) = _ :=
    Layout.instantiate_tabled_numbered h names _
  rwa [hlength] at hinstance

/-- Turning the table of an entry into rows. -/
theorem Tabled.turned {s : Store} {form : TableForm} {table : Table} {w w' : Written}
    (h : w.Tabled table) (hw : Rows.ofEntry s form w = .ok w') :
    ∃ rows lists, Turned s form table rows lists w w' := by
  have htable : (Content.table table).All Parameter.IsGround := trivial
  have hground : ∀ rows, (Content.rows rows).All Parameter.IsGround := fun _ => trivial
  cases h with
  | alone list d =>
    obtain ⟨layout, hlayout, rfl⟩ := Except.map_eq_ok.mp hw
    obtain ⟨rows, hrows, rfl⟩ := materialize_ofTable hlayout
    -- a column is the variable at its place, as there is one instance
    refine ⟨rows, [list], rfl, rfl, hrows, union?_of_mem_columnDomains fun k p hp => ?_,
      fun {other k v} hother hv => List.mem_filterMap.mpr ⟨other, hother, hv⟩⟩
    rw [columnParameters_of_ne (by cases list <;> simp), List.getElem?_map] at hp
    obtain ⟨v, hv, rfl⟩ := Option.map_eq_some_iff.mp hp
    simp [columnVariables, hv, Rows.ownVariables]
  | group lists d =>
    obtain ⟨template, htemplate, rfl⟩ := Except.map_eq_ok.mp hw
    obtain ⟨rows, hrows, rfl⟩ := materialize_ofTable htemplate
    refine ⟨rows, lists, ?_, ?_, hrows, union?_of_mem_columnDomains fun k p hp => ?_,
      fun {other k v} hother hv => List.mem_filterMap.mpr ⟨other, hother, hv⟩⟩
    · rw [instances, List.map_map]
      exact List.map_congr_left fun list _ => Layout.instantiate_tabled_all htable _ _
    · rw [instances, List.map_map]
      exact List.map_congr_left fun list _ => Layout.instantiate_tabled_all (hground rows) _ _
    · obtain ⟨number, hnumber, rfl⟩ := Option.map_eq_some_iff.mp (List.getElem?_map ▸ hp)
      obtain ⟨_, rfl⟩ := List.getElem?_eq_some_iff.mp hnumber
      rw [List.getElem_range]
      exact instanceVariables_placeholder lists k
  | slide list offset circular width d =>
    obtain ⟨template, htemplate, rfl⟩ := Except.map_eq_ok.mp hw
    obtain ⟨rows, hrows, rfl⟩ := materialize_ofTable htemplate
    let sliding : Sliding := ⟨list, offset, circular⟩
    refine ⟨rows, (sliding.starts width).map (windowOf sliding width),
      instances_slide _ sliding htable d, instances_slide _ sliding (hground rows) d, hrows,
      union?_of_mem_columnDomains fun k p hp => rfl, fun {window k v} hwindow hv => ?_⟩
    obtain ⟨start, -, rfl⟩ := List.mem_map.mp hwindow
    exact mem_list_of_mem_windowOf (List.mem_of_getElem? hv)

/-- The rows of a table say what the table says. -/
theorem Tabled.tabulates {s : Store} (hs : s.Built) {form : TableForm} {table : Table}
    {w w' : Written} (h : w.Tabled table) (hw : Rows.ofEntry s form w = .ok w') :
    ∃ rows lists, Tabulates s form table rows lists w w' := by
  obtain ⟨rows, lists, hturned⟩ := h.turned hw
  exact ⟨rows, lists, hturned.tabulates hs.normal_domainOf⟩

/-! ### Leaves -/

theorem mem_leavesOf {w : Written} {entries : List Written} :
    w ∈ leavesOf entries ↔ ∃ entry ∈ entries, w ∈ entry.leaves := by
  induction entries with
  | nil => simp [leavesOf]
  | cons entry rest ih => simp [leavesOf, ih]

theorem leaves_ofEntry {s : Store} {form : TableForm} {w w' : Written}
    (h : Rows.ofEntry s form w = .ok w') :
    List.Forall₂ (fun w w' => Rows.ofEntry s form w = .ok w') w.leaves w'.leaves := by
  induction w using Written.rec
    (motive_2 := fun entries => ∀ entries', Rows.ofEntries s form entries = .ok entries' →
      List.Forall₂ (fun w w' => Rows.ofEntry s form w = .ok w') (leavesOf entries)
        (leavesOf entries')) generalizing w' with
  | constraint layout d | group template arguments d | slide list offset circular template d =>
    obtain ⟨layout', hlayout, rfl⟩ := Except.map_eq_ok.mp h
    exact .cons h .nil
  | equalities list values d =>
    cases h
    exact .cons rfl .nil
  | block entries d ih =>
    obtain ⟨entries', hentries, rfl⟩ := Except.map_eq_ok.mp h
    exact ih entries' hentries
  | nil =>
    rename_i entries' h
    cases h
    exact .nil
  | cons entry rest ih ihrest =>
    rename_i entries' h
    obtain ⟨entry', hentry, h⟩ := Except.bind_eq_ok.mp h
    obtain ⟨rest', hrest, rfl⟩ := Except.map_eq_ok.mp h
    exact List.rel_append (ih hentry) (ihrest rest' hrest)

/-- Tables are turned into rows leaf by leaf. -/
theorem leavesOf_ofEntries {s : Store} {form : TableForm} {entries entries' : List Written}
    (h : Rows.ofEntries s form entries = .ok entries') :
    List.Forall₂ (fun w w' => Rows.ofEntry s form w = .ok w') (leavesOf entries)
      (leavesOf entries') := by
  have hblock : Rows.ofEntry s form (.block entries {}) = .ok (.block entries' {}) :=
    Except.map_eq_ok.mpr ⟨entries', h, rfl⟩
  exact leaves_ofEntry hblock

/-- A layout stays as it is or gets the rows of its table. -/
theorem eq_or_eq_withRows_of_materialize {s : Store} {form : TableForm} {layout layout' : Layout}
    {variablesOf : Parameter → List Variable}
    (h : Rows.materialize s form variablesOf layout = .ok layout') :
    layout' = layout ∨ ∃ rows, layout' = Rows.withRows layout rows := by
  unfold Rows.materialize at h
  split at h
  · cases h
    exact .inl rfl
  · obtain ⟨rows, -, rfl⟩ := Except.map_eq_ok.mp h
    exact .inr ⟨rows, rfl⟩

theorem materialize_of_name {s : Store} {form : TableForm} {layout layout' : Layout}
    {variablesOf : Parameter → List Variable} (hname : layout.name ≠ "extension")
    (h : Rows.materialize s form variablesOf layout = .ok layout') : layout' = layout := by
  have htable : Rows.tableOf? layout = none := by
    unfold Rows.tableOf?
    split
    · rename_i heq _
      exact absurd heq hname
    · rfl
  rw [Rows.materialize, htable] at h
  cases h
  rfl

/-- An entry without a table stays as it is. -/
theorem Tableless.eq {s : Store} {form : TableForm} {w w' : Written} (hw : w.Tableless)
    (h : Rows.ofEntry s form w = .ok w') : w' = w := by
  cases w with
  | constraint layout d | group template arguments d | slide list offset circular template d =>
    obtain ⟨layout', hlayout, rfl⟩ := Except.map_eq_ok.mp h
    rw [materialize_of_name hw hlayout]
  | equalities list values d =>
    cases h
    rfl
  | block entries d => exact hw.elim

/-- An entry on its own, without a table or with one in one of the three ways. -/
def Shaped (w : Written) : Prop := w.Tableless ∨ ∃ table, w.Tabled table

theorem Shaped.leaves {w : Written} (h : w.Shaped) : w.leaves = [w] := by
  rcases h with h | ⟨table, h⟩
  · cases w with
    | block entries d => exact h.elim
    | _ => rfl
  · cases h <;> rfl

theorem Shaped.withDecoration {w : Written} (h : w.Shaped) (d : Decoration) :
    (w.withDecoration d).Shaped := by
  rcases h with h | ⟨table, h⟩
  · exact .inl (by cases w <;> exact h)
  · refine .inr ⟨table, ?_⟩
    cases h with
    | alone list _ => exact .alone list d
    | group lists _ => exact .group lists d
    | slide list offset circular width _ => exact .slide list offset circular width d

end Written

/-! ### The entries of a problem -/

namespace Grouping

variable {known : Variable → Prop}

theorem shaped_alone {r : Relation} (hr : r.Placed known) : (Written.alone r).Shaped := by
  by_cases hname : (Layout.ofRelation r).name = "extension"
  · obtain ⟨list, table, rfl⟩ := Layout.exists_of_name hname
    obtain ⟨vs, rfl, -⟩ := exists_variables hr
    rw [Written.alone, Layout.ofRelation_extension]
    exact .inr ⟨table, .alone vs {}⟩
  · exact .inl hname

/-- Extensions in one group have one table, and differ in their lists. -/
theorem differing?_ofTable {list list' : List Parameter} {table table' : Table}
    {positions : List Nat}
    (h : differing? (Layout.ofTable list table) (Layout.ofTable list' table') = some positions) :
    positions = [0] ∧ table' = table := by
  have htables : ∀ {positions : List Nat}, differingFrom 1
      [⟨table.polarity.name, [], .table table⟩] [⟨table'.polarity.name, [], .table table'⟩] =
        some positions → positions = [] ∧ table' = table := by
    intro positions h
    simp only [differingFrom] at h
    split at h
    · split at h
      · rename_i hsame
        cases h
        exact ⟨rfl, (Content.table.inj hsame).symm⟩
      · cases h
    · cases h
  unfold differing? at h
  split at h
  · obtain ⟨hdiffering, hcount⟩ := Option.filter_eq_some_iff.mp h
    simp only [Layout.ofTable, Layout.tabled] at hdiffering
    rw [differingFrom, if_pos ⟨rfl, rfl⟩] at hdiffering
    split at hdiffering
    · obtain ⟨rfl, -⟩ := htables hdiffering
      cases hcount
    · dsimp only at hdiffering
      split at hdiffering
      · obtain ⟨rest, hrest, rfl⟩ := Option.map_eq_some_iff.mp hdiffering
        obtain ⟨rfl, htable⟩ := htables hrest
        exact ⟨rfl, htable⟩
      · cases hdiffering
  · cases h

/-- What differs from an extension in the lists that are settled are extensions of its table. -/
theorem exists_lists {list : List Variable} {table : Table} {rest : List Relation}
    {positions : List Nat} (hplaced : ∀ r ∈ rest, r.Placed known)
    (h : ∀ r ∈ rest, differing? (Layout.ofTable (list.map .var) table) (Layout.ofRelation r) =
      some positions) :
    (rest ≠ [] → positions = [0]) ∧ ∃ lists : List (List Variable),
      rest.map Layout.ofRelation = lists.map fun list => Layout.ofTable (list.map .var) table := by
  induction rest with
  | nil => exact ⟨fun hne => absurd rfl hne, [], rfl⟩
  | cons r rest ih =>
    obtain ⟨hr, hrest⟩ := List.forall_mem_cons.mp h
    obtain ⟨hplacedHere, hplacedRest⟩ := List.forall_mem_cons.mp hplaced
    obtain ⟨-, lists, hlists⟩ := ih hplacedRest hrest
    obtain ⟨other, table', rfl⟩ := Layout.exists_of_name (differing?_spec hr).1.symm
    obtain ⟨vs, rfl, -⟩ := exists_variables hplacedHere
    rw [Layout.ofRelation_extension] at hr
    obtain ⟨hpositions, rfl⟩ := differing?_ofTable hr
    exact ⟨fun _ => hpositions, vs :: lists, by
      rw [List.map_cons, List.map_cons, hlists, Layout.ofRelation_extension]⟩

theorem layoutTemplate_ofTable (list : List Parameter) (table : Table)
    (lists : List (List Variable)) (numbered : Bool) :
    layoutTemplate (Layout.ofTable list table)
        (lists.map fun list => Layout.ofTable (list.map .var) table) [0] numbered =
      (Layout.ofTable (if numbered then (List.range list.length).map .placeholder
        else [.allPlaceholders]) table, lists.map (List.map .var)) := by
  have harguments : (argumentsAt [0] ∘ fun list : List Variable =>
      Layout.ofTable (list.map .var) table) = List.map .var := by
    funext list
    simp [argumentsAt, Layout.ofTable, Layout.tabled, Content.parameters?]
  rw [layoutTemplate, List.map_map, harguments]
  cases numbered <;>
    simp [placeholdersFrom, Layout.ofTable, Layout.tabled, List.zipIdx, Content.parameters?]

/-- The template of similar constraints is one without a table, or that of extensions of one
table over lists of variables. -/
theorem template?_shaped {names : Variable → String} {numbered : Bool} {first : Relation}
    {rest : List Relation} {positions : List Nat}
    (hplaced : ∀ r ∈ first :: rest, r.Placed known)
    (hsimilar : ∀ r ∈ rest,
      (Form.ofRelation names first).SimilarTo positions (Form.ofRelation names r))
    {template : Layout} {arguments : List (List Parameter)}
    (h : template? names numbered ((first :: rest).map (Form.ofRelation names)) =
      some (template, arguments)) :
    template.name ≠ "extension" ∨ ∃ table width, ∃ lists : List (List Variable),
      arguments = lists.map (List.map .var) ∧
      template = Layout.ofTable (if numbered then (List.range width).map .placeholder
        else [.allPlaceholders]) table := by
  by_cases hname : (Layout.ofRelation first).name = "extension"
  · obtain ⟨list, table, rfl⟩ := Layout.exists_of_name hname
    obtain ⟨hfirst, hrest⟩ := List.forall_mem_cons.mp hplaced
    obtain ⟨vs, rfl, -⟩ := exists_variables hfirst
    have hform : Form.ofRelation names (.extension (vs.map .var) table) =
        .laidOut (Layout.ofTable (vs.map .var) table) :=
      congrArg Form.laidOut (Layout.ofRelation_extension vs table)
    -- what is similar to an extension is laid out, hence an extension of the same table
    rw [hform] at hsimilar
    obtain ⟨hforms, hdiffering⟩ := similarTo_laidOut hsimilar
    obtain ⟨hpositions, lists, hlists⟩ := exists_lists hrest hdiffering
    rw [List.map_cons, hform, hforms, ← List.map_cons] at h
    obtain ⟨hne, htemplate⟩ := template?_laidOut (List.forall_mem_map.mpr hdiffering) h
    rw [hpositions (mt List.map_eq_nil_iff.mpr hne), hlists] at htemplate
    have htemplate := (layoutTemplate_ofTable (vs.map .var) table (vs :: lists) numbered).symm.trans
      htemplate
    exact .inr ⟨table, _, vs :: lists, (congrArg Prod.snd htemplate).symm,
      (congrArg Prod.fst htemplate).symm⟩
  · -- a template has the name of its constraints, or is that of a predicate
    left
    rcases template?_cases hsimilar h with ⟨e, es, -, -, h⟩ | ⟨-, -, h⟩
    · unfold predicateTemplate at h
      dsimp only at h
      split at h
      · cases h
      · obtain ⟨text, -, h⟩ := Option.map_eq_some_iff.mp h
        have hintension : "intension" = template.name := congrArg (fun t => t.1.name) h
        rw [← hintension]
        decide
    · have hsame : (Layout.ofRelation first).name = template.name :=
        congrArg (fun t => t.1.name) h
      rwa [← hsame]

variable {g : Grouping}

/-- What placed constraints yield has no table or one for all instances. -/
theorem Yields.shaped {relations : List Relation} (hplaced : ∀ r ∈ relations, r.Placed known)
    {w : Written} (h : g.Yields relations w) : w.Shaped := by
  cases h with
  | alone hr => exact shaped_alone (hplaced _ hr)
  | equalities => exact .inl trivial
  | group h =>
    obtain ⟨first, rest, positions, hpart, hsimilar, htemplate⟩ := h
    rcases template?_shaped (fun r hr => hplaced r (hpart hr)) hsimilar htemplate with
      hname | ⟨table, width, lists, rfl, rfl⟩
    · exact .inl hname
    · exact .inr ⟨table, .group lists {}⟩
  | @slide template arguments s h hs =>
    obtain ⟨first, rest, positions, hpart, hsimilar, htemplate⟩ := h
    rcases template?_shaped (fun r hr => hplaced r (hpart hr)) hsimilar htemplate with
      hname | ⟨table, width, lists, -, rfl⟩
    · exact .inl hname
    · exact .inr ⟨table, .slide s.list s.offset s.circular width {}⟩

/-- The entries of the constraints of a posting. -/
theorem shaped_writeConstraints (gather : Bool) {constraints : List Constraint}
    (hplaced : ∀ c ∈ constraints, c.Placed known) :
    ∀ w ∈ g.writeConstraints gather constraints, w.Shaped := by
  have hrelations : ∀ r ∈ Constraint.relationsOf constraints, r.Placed known := fun r hr => by
    obtain ⟨c, hc, hr⟩ := Constraint.mem_relationsOf.mp hr
    exact hplaced c hc r hr
  exact fun w hw => (yields_writeConstraints gather constraints w hw).shaped hrelations

/-- The leaves of labelled entries are these entries, up to labels. -/
theorem exists_of_mem_decorate {d : Decoration} {entries : List Written}
    (h : ∀ w ∈ entries, w.Shaped) {w : Written} (hw : w ∈ Written.leavesOf (decorate d entries)) :
    ∃ entry ∈ entries, w = entry ∨ w = entry.withDecoration d := by
  have hleaves : w ∈ Written.leavesOf entries → w ∈ entries := fun hw => by
    obtain ⟨entry, hentry, hw⟩ := Written.mem_leavesOf.mp hw
    rw [(h entry hentry).leaves, List.mem_singleton] at hw
    exact hw ▸ hentry
  unfold decorate at hw
  split at hw
  · exact ⟨w, hleaves hw, .inl rfl⟩
  · split at hw
    · rename_i entry
      obtain ⟨_, hmem, hw⟩ := Written.mem_leavesOf.mp hw
      rw [List.mem_singleton.mp hmem, ((h entry List.mem_cons_self).withDecoration d).leaves,
        List.mem_singleton] at hw
      exact ⟨entry, List.mem_cons_self, .inr hw⟩
    · obtain ⟨_, hmem, hw⟩ := Written.mem_leavesOf.mp hw
      rw [List.mem_singleton.mp hmem] at hw
      exact ⟨w, hleaves hw, .inl rfl⟩

/-- The leaves of labelled entries. -/
theorem shaped_decorate (d : Decoration) {entries : List Written} (h : ∀ w ∈ entries, w.Shaped) :
    ∀ w ∈ Written.leavesOf (decorate d entries), w.Shaped := by
  intro w hw
  obtain ⟨entry, hentry, rfl | rfl⟩ := exists_of_mem_decorate h hw
  · exact h _ hentry
  · exact (h entry hentry).withDecoration d

end Grouping

namespace Introduced

variable {m : Model} {p : Introduced} {options : Options}

/-- Every entry of a problem is without a table, or has one in one of the three ways. -/
theorem shaped_entries (hm : m.Sound) (hp : ofModel m = .ok p) (options : Options) :
    ∀ w ∈ Written.leavesOf (p.entries options), w.Shaped := by
  intro w hw
  obtain ⟨entry, hentry, hw⟩ := Written.mem_leavesOf.mp hw
  obtain ⟨posting, hposting, hentry⟩ := List.mem_flatMap.mp hentry
  have hplaced := (placed hm hp).1 posting hposting
  exact Grouping.shaped_decorate _ (Grouping.shaped_writeConstraints _ hplaced) w
    (Written.mem_leavesOf.mpr ⟨entry, hentry, hw⟩)

end Introduced

namespace Model

variable {m : Model} {options : Options} {c : Compiled}

/-- Turning tables into rows preserves the extensions of every model that compiles.  Entry by
entry, with blocks opened, what has no table stays as it is, and every other entry has one
table for all of its instances, which are extensions over lists of variables.  Its rows ascend
strictly, the element is starred when some row holds a wildcard, and for all values of their
domains the variables of an instance match a row exactly when they match a tuple that has no
wildcard for a symbol in a column whose wildcards are expanded over integers.  In compact
tables, and where no symbolic variable shares its column with one of integers, this is to
match the table. -/
theorem build_tabulates (hm : m.Reachable) (hc : (m.build options).1 = .ok c) :
    ∃ p entries, Introduced.ofModel m = .ok p ∧
      Rows.ofEntries p.store options.tableForm (p.entries options) = .ok entries ∧
      c = (m.finish options p entries).1 ∧
      List.Forall₂ (fun w w' => w.Tableless ∧ w' = w ∨
          ∃ table rows lists, Written.Tabulates p.store options.tableForm table rows lists w w')
        (Written.leavesOf (p.entries options)) (Written.leavesOf entries) := by
  obtain ⟨p, entries, hp, hentries, hfinish⟩ := build_eq_ok.mp hc
  refine ⟨p, entries, hp, hentries, hfinish, ?_⟩
  have hshaped := Introduced.shaped_entries hm.sound hp options
  have hs := Introduced.store_built hm.sound hp
  have hleaves := forall₂_iff_getElem?.mp (Written.leavesOf_ofEntries hentries)
  refine forall₂_iff_getElem?.mpr ⟨hleaves.1, fun k w w' hw hw' => ?_⟩
  have hof := hleaves.2 k w w' hw hw'
  rcases hshaped w (List.mem_of_getElem? hw) with htableless | ⟨table, htabled⟩
  · exact .inl ⟨htableless, htableless.eq hof⟩
  · exact .inr ⟨table, htabled.tabulates hs hof⟩

end Model

/-! ### A column of integers and symbols -/

namespace Mixed

/-- The values 0, 1 and 2. -/
def numbers : Domain := ⟨[.interval ⟨0, 2, Introduced.inf_lt_sup⟩]⟩

/-- The values `a` and `b`. -/
def letters : Domain := ⟨[.symbol "a", .symbol "b"]⟩

/-- A variable for a number. -/
def x : Variable := ⟨0, 0⟩

/-- A variable for a letter. -/
def l : Variable := ⟨0, 1⟩

/-- Another one for a number. -/
def y : Variable := ⟨0, 2⟩

def declared : Store where
  model := 0
  domains := ⟨#[numbers, letters]⟩
  infos := ⟨#[⟨"v0", 0, none⟩, ⟨"v1", 1, none⟩, ⟨"v2", 0, none⟩]⟩
  declarations := [.alone x, .alone l, .alone y]
  unnamedVariables := 3

/-- Anything together with one. -/
def table : Table := ⟨.supports, [[.any, .integer 1]]⟩

def constraints : List Constraint :=
  [.relation (.extension [.var x, .var y] table), .relation (.extension [.var l, .var y] table)]

/-- The table over a number and another one, and over a letter and a number. -/
def model : Model where
  instanceName := {}
  store := declared
  postings := [⟨.gather constraints, {}⟩]

/-- There is nothing to introduce. -/
def introduced : Introduced where
  store := declared
  postings := [⟨.gather constraints, {}⟩]
  objective := none
  replaced := []

def options : Options := { tableForm := .expanded }

/-- The wildcard is expanded over the numbers. -/
def rows : List (List RowCell) :=
  [[.integer 0, .integer 1], [.integer 1, .integer 1], [.integer 2, .integer 1]]

theorem ofModel_model : Introduced.ofModel model = .ok introduced := by
  cbv

/-- The entry of the two extensions, before and after its table is turned into rows. -/
def entry : Written :=
  .group (.ofTable [.allPlaceholders] table) [[.var x, .var y], [.var l, .var y]] {}

def entryWithRows : Written :=
  .group (.ofRows [.allPlaceholders] .supports rows) [[.var x, .var y], [.var l, .var y]] {}

theorem entries_introduced : introduced.entries options = [entry] := by
  cbv

theorem rows_introduced :
    Rows.ofEntries introduced.store options.tableForm (introduced.entries options) =
      .ok [entryWithRows] := by
  rw [entries_introduced]
  cbv

theorem reachable_model : model.Reachable := by
  have hnumbers : Domain.ofSpec (.range 0 2 1) = .ok numbers := by
    cbv
  have hletters : Domain.ofSpec (.collection [.symbol "a", .symbol "b"]) = .ok letters := by
    cbv
  let one : Model :=
    { instanceName := {}
      store :=
        { model := 0, domains := ⟨#[numbers]⟩, infos := ⟨#[⟨"v0", 0, none⟩]⟩
          declarations := [.alone x], unnamedVariables := 1 } }
  let two : Model :=
    { instanceName := {}
      store :=
        { model := 0, domains := ⟨#[numbers, letters]⟩
          infos := ⟨#[⟨"v0", 0, none⟩, ⟨"v1", 1, none⟩]⟩
          declarations := [.alone x, .alone l], unnamedVariables := 2 } }
  let three : Model := { instanceName := {}, store := declared }
  have hx : (Model.empty 0 {}).addVariable none numbers = .ok (x, one) := by
    cbv
  have hl : one.addVariable none letters = .ok (l, two) := by
    cbv
  have hy : two.addVariable none numbers = .ok (y, three) := by
    cbv
  have hthree : three.Reachable := by
    refine .addVariable (.addVariable (.addVariable (.empty 0 {}) (.ofSpec ?_ hnumbers) hx)
      (.ofSpec ?_ hletters) hl) (.ofSpec ?_ hnumbers) hy <;> decide
  have hlist : ∀ v, three.store.Declares v →
      ∀ e ∈ [Expr.var v, .var y], e.Built three.HandsOut := by
    intro v hv e he
    rcases List.mem_pair.mp he with rfl | rfl
    · exact .var fun _ => hv
    · exact .var fun _ => ⟨rfl, by decide⟩
  have hextension : ∀ v : Variable, Constraint.extension [.var v, .var y] table =
      .ok (.relation (.extension [.var v, .var y] table)) := fun v => by
    cbv
  have hitem : (Item.list (constraints.map .constraint)).Built three.HandsOut := by
    refine .list (List.forall_mem_map.mpr fun c hc => .constraint ?_)
    rcases List.mem_pair.mp hc with rfl | rfl
    · exact .extension (hlist x ⟨rfl, by decide⟩) (hextension x)
    · exact .extension (hlist l ⟨rfl, by decide⟩) (hextension l)
  have hpost : three.post (.list (constraints.map .constraint)) {} = .ok (model, []) := by
    cbv
  exact .post hthree hitem hpost

/-- The assignment of `a` to the letter and of one to the numbers. -/
def assignment : Assignment := fun v => if v = l then .symbol "a" else .integer 1

/-- The values `a` and one, which the letter and the number can take, match the table of the
entry, and no row of it. -/
theorem letter_lost : Written.leavesOf (introduced.entries options) = [entry] ∧
    ∃ rows lists, Written.Tabulates declared .expanded table rows lists entry entryWithRows ∧
      [l, y] ∈ lists ∧ (∀ v ∈ [l, y], (declared.domainOf v).Holds (assignment v)) ∧
      table.Matches ([l, y].map assignment) ∧ ¬Rows.Matches rows ([l, y].map assignment) := by
  have hbuild := Model.build_eq_ok.mpr ⟨_, _, ofModel_model, rows_introduced, rfl⟩
  obtain ⟨p, entries, hp, hentries, -, htabulates⟩ := Model.build_tabulates reachable_model hbuild
  cases hp.symm.trans ofModel_model
  cases hentries.symm.trans rows_introduced
  have hentries : introduced.entries options = [entry] := entries_introduced
  rw [hentries] at htabulates ⊢
  obtain ⟨hentry, -⟩ := List.forall₂_cons.mp htabulates
  refine ⟨rfl, ?_⟩
  rcases hentry with ⟨hname, -⟩ | ⟨table', rows', lists, h⟩
  · exact absurd rfl hname
  · have hmem : Layout.ofTable ([l, y].map .var) table ∈
        lists.map fun list => Layout.ofTable (list.map .var) table' := by
      have hinstances := h.posted.symm
      simp only [Layout.ofRelation_extension] at hinstances
      rw [hinstances]
      exact List.mem_cons_of_mem _ (List.mem_singleton_self _)
    obtain ⟨list, hlist, heq⟩ := List.mem_map.mp hmem
    obtain ⟨hvariables, rfl⟩ := Layout.ofTable_inj heq
    obtain rfl := List.map_injective_iff.mpr (fun _ _ => Parameter.var.inj) hvariables
    have hvalues : ∀ v ∈ [l, y], (declared.domainOf v).Holds (assignment v) := by
      simp only [List.forall_mem_cons]
      exact ⟨by cbv, by cbv, fun v hv => nomatch hv⟩
    refine ⟨rows', lists, h, hlist, hvalues, ?_, fun hrows => ?_⟩
    · exact ⟨_, List.mem_singleton_self _, .cons trivial (.cons rfl .nil)⟩
    · obtain ⟨tuple, htuple, -, hwithout⟩ := (h.exact _ hlist assignment hvalues).mp hrows
      obtain rfl := List.mem_singleton.mp htuple
      have hcolumn : (entry.columns declared)[0]?.join = some numbers := by
        cbv
      refine hwithout 0 "a" ⟨rfl, ?_, numbers, ?_, rfl⟩ rfl rfl
      · exact hcolumn ▸ rfl
      · exact hcolumn

end Mixed

end CspModel
