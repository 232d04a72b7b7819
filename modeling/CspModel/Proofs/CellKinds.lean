import CspModel.Proofs.Extensions
import CspModel.Proofs.Suited

/-! # The kinds of cells

A cell of a row has the kind of the literal it was turned from, or of the domain its
wildcard was expanded over (`Rows.hasKind_ofTable`).  Literals have the kind of their
variable, as what is posted is checked for it, except where a column was posted as an
expression or a constant: nothing compares the auxiliary variable there with its column.  A
wildcard has the kind of its column, and so of its variable, except where the column joins
variables of both kinds: their union keeps the integers only.  Rows have cells of a wrong
kind in these two cases and in no other (`Model.build_kinds`).
-/
namespace CspModel

/-- The kind of the value a cell stands for; a wildcard has none. -/
def RowCell.kind? : RowCell → Option Kind
  | integer _ => some .integer
  | symbol _ => some .symbolic
  | any => none

namespace Rows

variable {form : TableForm} {column : Option Domain} {columns : List (Option Domain)}

/-- Whether some row has a cell of a kind in a column. -/
def HasKind (rows : List (List RowCell)) (k : Nat) (kind : Kind) : Prop :=
  ∃ row ∈ rows, row[k]?.bind RowCell.kind? = some kind

/-- Whether wildcards of a column are expanded over values of a kind. -/
def Expands (form : TableForm) (column : Option Domain) (kind : Kind) : Prop :=
  form = .expanded ∧ (wildcardCells? column).isSome ∧ ∃ d ∈ column, d.kind = kind

/-- Whether a tuple is turned into any row. -/
def Lasts (form : TableForm) (columns : List (Option Domain)) (tuple : List TableEntry) : Prop :=
  ∃ rows, ofTuple form columns tuple = .ok rows ∧ rows ≠ []

/-! ### Cells -/

theorem exists_kind_map {α : Type} {f : α → RowCell} {kind kind' : Kind}
    (hf : ∀ a, (f a).kind? = some kind') {list : List α} (hne : list.map f ≠ []) :
    (∃ cell ∈ list.map f, cell.kind? = some kind) ↔ kind' = kind := by
  obtain ⟨a, rest, rfl⟩ := List.exists_cons_of_ne_nil (mt List.map_eq_nil_iff.mpr hne)
  constructor
  · rintro ⟨_, hcell, hkind⟩
    obtain ⟨b, -, rfl⟩ := List.mem_map.mp hcell
    exact Option.some.inj ((hf b).symm.trans hkind)
  · rintro rfl
    exact ⟨f a, List.mem_cons_self, hf a⟩

/-- A range is turned into integers. -/
theorem exists_of_rangeCells {inf sup : Int} {list : List RowCell}
    (h : rangeCells inf sup column = .ok list) : ∃ values : List Int, list = values.map .integer := by
  unfold rangeCells at h
  split at h
  · exact ⟨_, (Except.ok.inj h).symm⟩
  · split at h
    · cases h
    · exact ⟨_, (Except.ok.inj h).symm⟩

/-- A wildcard that is expanded is turned into values of the kind of the column. -/
theorem exists_kind_wildcardCells {list : List RowCell} (h : wildcardCells? column = some list)
    (hne : list ≠ []) {kind : Kind} :
    (∃ cell ∈ list, cell.kind? = some kind) ↔ ∃ d ∈ column, d.kind = kind := by
  unfold wildcardCells? at h
  split at h
  · cases h
  · rename_i d
    split at h
    · have hkind : (∃ d' ∈ some d, d'.kind = kind) ↔ d.kind = kind := by simp
      rw [hkind]
      obtain rfl := Option.some.inj h
      cases hd : d.kind with
      | integer | symbolic =>
        simp only [hd] at hne ⊢
        exact exists_kind_map (fun _ => rfl) hne
    · cases h

/-- The cells of an entry have the kind of the entry, or of the column if it is a wildcard
that is expanded. -/
theorem exists_kind_cells {entry : TableEntry} {list : List RowCell}
    (h : cells form entry column = .ok list) (hne : list ≠ []) {kind : Kind} :
    (∃ cell ∈ list, cell.kind? = some kind) ↔
      entry.kind? = some kind ∨ entry = .any ∧ Expands form column kind := by
  cases entry with
  | integer value | symbol text =>
    cases h
    simp [RowCell.kind?, TableEntry.kind?]
  | range inf sup =>
    obtain ⟨values, rfl⟩ := exists_of_rangeCells h
    rw [exists_kind_map (fun _ => rfl) hne]
    simp [TableEntry.kind?]
  | any =>
    have hexpands : (TableEntry.kind? .any = some kind ∨ TableEntry.any = .any ∧
        Expands form column kind) ↔ Expands form column kind := by
      simp [TableEntry.kind?]
    rw [hexpands]
    cases form with
    | compact =>
      cases h
      simp [RowCell.kind?, Expands]
    | expanded =>
      have h : (wildcardCells? column).getD [.any] = list := Except.ok.inj h
      cases hcells : wildcardCells? column with
      | none =>
        rw [hcells] at h
        subst h
        simp [RowCell.kind?, Expands, hcells]
      | some list' =>
        rw [hcells] at h
        obtain rfl : list' = list := h
        rw [exists_kind_wildcardCells hcells hne]
        simp [Expands, hcells]

/-! ### Rows -/

theorem choices_cons_ne_nil {α : Type} {first : List α} {rest : List (List α)} :
    choices (first :: rest) ≠ [] ↔ first ≠ [] ∧ choices rest ≠ [] := by
  rw [choices, ne_eq, List.flatMap_eq_nil_iff]
  constructor
  · intro h
    refine ⟨fun hnil => h fun a ha => ?_, fun hnil => h fun a _ => ?_⟩
    · rw [hnil] at ha
      cases ha
    · rw [hnil, List.map_nil]
  · rintro ⟨hfirst, hrest⟩ h
    obtain ⟨a, ha⟩ := List.exists_mem_of_ne_nil _ hfirst
    exact hrest (List.map_eq_nil_iff.mp (h a ha))

theorem ne_nil_of_mem_of_choices {α : Type} {lists : List (List α)} (h : choices lists ≠ []) :
    ∀ list ∈ lists, list ≠ [] := by
  induction lists with
  | nil => exact fun list hlist => nomatch hlist
  | cons first rest ih =>
    obtain ⟨hfirst, hrest⟩ := choices_cons_ne_nil.mp h
    exact List.forall_mem_cons.mpr ⟨hfirst, ih hrest⟩

/-- Something stands at a place of some choice when it can be chosen there and every list
has something to choose. -/
theorem exists_choices_getElem? {α : Type} {lists : List (List α)} {k : Nat} {a : α} :
    (∃ row ∈ choices lists, row[k]? = some a) ↔
      choices lists ≠ [] ∧ ∃ list, lists[k]? = some list ∧ a ∈ list := by
  induction lists generalizing k with
  | nil => simp [choices]
  | cons first rest ih =>
    rw [choices_cons_ne_nil]
    have hrow : (∃ row ∈ choices (first :: rest), row[k]? = some a) ↔
        ∃ b ∈ first, ∃ row ∈ choices rest, (b :: row)[k]? = some a := by
      simp only [choices, List.mem_flatMap, List.mem_map]
      constructor
      · rintro ⟨_, ⟨b, hb, row, hrow, rfl⟩, h⟩
        exact ⟨b, hb, row, hrow, h⟩
      · rintro ⟨b, hb, row, hrow, h⟩
        exact ⟨_, ⟨b, hb, row, hrow, rfl⟩, h⟩
    rw [hrow]
    cases k with
    | zero =>
      simp only [List.getElem?_cons_zero, Option.some.injEq, exists_eq_left']
      constructor
      · rintro ⟨b, hb, row, hmem, rfl⟩
        exact ⟨⟨List.ne_nil_of_mem hb, List.ne_nil_of_mem hmem⟩, hb⟩
      · rintro ⟨⟨-, hne⟩, ha⟩
        obtain ⟨row, hrow⟩ := List.exists_mem_of_ne_nil _ hne
        exact ⟨a, ha, row, hrow, rfl⟩
    | succ k =>
      simp only [List.getElem?_cons_succ]
      rw [and_assoc, ← ih]
      constructor
      · rintro ⟨b, hb, hrow⟩
        exact ⟨List.ne_nil_of_mem hb, hrow⟩
      · rintro ⟨hne, hrow⟩
        obtain ⟨b, hb⟩ := List.exists_mem_of_ne_nil _ hne
        exact ⟨b, hb, hrow⟩

/-- The rows of a tuple have cells of the kind of an entry, or of the column of a wildcard
that is expanded. -/
theorem hasKind_ofTuple {tuple : List TableEntry} {rows : List (List RowCell)}
    (h : ofTuple form columns tuple = .ok rows) {k : Nat} {kind : Kind} :
    HasKind rows k kind ↔ rows ≠ [] ∧ (Table.kindAt tuple k = some kind ∨
      tuple[k]? = some .any ∧ Expands form columns[k]?.join kind) := by
  obtain ⟨lists, rfl, hlength, hcells⟩ := exists_of_ofTuple h
  have hrow : HasKind (choices lists) k kind ↔
      choices lists ≠ [] ∧ ∃ list, lists[k]? = some list ∧ ∃ cell ∈ list, cell.kind? = some kind := by
    simp only [HasKind, Option.bind_eq_some_iff]
    constructor
    · rintro ⟨row, hrow, cell, hcell, hkind⟩
      obtain ⟨hne, list, hlist, hmem⟩ := exists_choices_getElem?.mp ⟨row, hrow, hcell⟩
      exact ⟨hne, list, hlist, cell, hmem, hkind⟩
    · rintro ⟨hne, list, hlist, cell, hmem, hkind⟩
      obtain ⟨row, hrow, hcell⟩ := exists_choices_getElem?.mpr ⟨hne, list, hlist, hmem⟩
      exact ⟨row, hrow, cell, hcell, hkind⟩
  rw [hrow]
  refine and_congr_right fun hne => ?_
  unfold Table.kindAt
  cases hentry : tuple[k]? with
  | none =>
    have hlist : lists[k]? = none := by
      rwa [List.getElem?_eq_none_iff, ← hlength, ← List.getElem?_eq_none_iff]
    simp [hlist]
  | some entry =>
    have hk : k < lists.length := hlength ▸ (List.getElem?_eq_some_iff.mp hentry).1
    have hlist := List.getElem?_eq_getElem hk
    have hkinds : (∃ cell ∈ lists[k], cell.kind? = some kind) ↔ _ :=
      exists_kind_cells (hcells k entry _ hentry hlist)
        (ne_nil_of_mem_of_choices hne _ (List.getElem_mem hk))
    simpa [hlist] using hkinds

/-- The rows of a table have cells of the kinds of its entries, and of the columns of its
wildcards that are expanded, as far as their tuples are turned into rows at all. -/
theorem hasKind_ofTable {table : Table} {rows : List (List RowCell)}
    (h : ofTable form columns table = .ok rows) {k : Nat} {kind : Kind} :
    HasKind rows k kind ↔ ∃ tuple ∈ table.tuples, Lasts form columns tuple ∧
      (Table.kindAt tuple k = some kind ∨
        tuple[k]? = some .any ∧ Expands form columns[k]?.join kind) := by
  obtain ⟨lists, hlists, rfl⟩ := Except.map_eq_ok.mp h
  rw [Except.mapM_eq_ok] at hlists
  have hrows : HasKind (Ascending.ofList lists.flatten) k kind ↔
      ∃ rows ∈ lists, HasKind rows k kind := by
    simp only [HasKind, Ascending.mem_ofList, List.mem_flatten]
    exact ⟨fun ⟨row, ⟨rows, hrows, hrow⟩, h⟩ => ⟨rows, hrows, row, hrow, h⟩,
      fun ⟨rows, hrows, row, hrow, h⟩ => ⟨row, ⟨rows, hrows, hrow⟩, h⟩⟩
  rw [hrows]
  constructor
  · rintro ⟨rows, hmem, hkind⟩
    obtain ⟨tuple, htuple, hof⟩ := exists_of_forall₂_of_mem hlists hmem
    obtain ⟨hne, hkind⟩ := (hasKind_ofTuple hof).mp hkind
    exact ⟨tuple, htuple, ⟨rows, hof, hne⟩, hkind⟩
  · rintro ⟨tuple, htuple, ⟨rows, hof, hne⟩, hkind⟩
    obtain ⟨rows', hmem, hof'⟩ := exists_of_forall₂_of_mem hlists.flip htuple
    cases hof.symm.trans hof'
    exact ⟨rows, hmem, (hasKind_ofTuple hof).mpr ⟨hne, hkind⟩⟩

end Rows

/-! ### Columns -/

/-- A domain of integers has one. -/
theorem Domain.Normal.exists_contains {d : Domain} (h : d.Normal) (hd : d.kind = .integer) :
    ∃ n, d.contains n = true := by
  cases h with
  | @ofRuns ranges hne hvalid =>
    obtain ⟨r, hr⟩ := List.exists_mem_of_ne_nil _ hne
    exact ⟨r.1, (contains_ofRuns fun r hr => (hvalid r hr).1).mpr
      ⟨r, hr, Int.le_refl _, (hvalid r hr).1⟩⟩
  | ofSymbols hne =>
    have hsymbolic := beq_iff_eq.mp (isSymbolic_ofSymbols hne)
    rw [hd] at hsymbolic
    cases hsymbolic

namespace Written

variable {s : Store} {form : TableForm} {table : Table} {rows : List (List RowCell)}
  {lists : List (List Variable)} {w w' : Written}

/-- A wildcard is expanded over values of the kind of the variable, unless these are integers
and the variable takes symbols. -/
theorem Turned.expands_iff (h : Turned s form table rows lists w w')
    (hs : ∀ v, (s.domainOf v).Normal) {k : Nat} {v : Variable}
    (hv : v ∈ w.columnVariables lists k) :
    (∃ kind, Rows.Expands form (w.columns s)[k]?.join kind ∧ kind ≠ (s.domainOf v).kind) ↔
      Rows.IsIntegral form (w.columns s)[k]?.join ∧ (s.domainOf v).kind = .symbolic := by
  constructor
  · rintro ⟨kind, hexpands, hne⟩
    cases kind with
    | integer =>
      refine ⟨hexpands, ?_⟩
      cases hkind : (s.domainOf v).kind with
      | integer => exact absurd hkind.symm hne
      | symbolic => rfl
    | symbolic =>
      -- a column of symbols has no integer, so it is the column of no number
      exfalso
      have hinteger : (s.domainOf v).kind = .integer := by
        cases hkind : (s.domainOf v).kind with
        | integer => rfl
        | symbolic => exact absurd hkind.symm hne
      obtain ⟨-, -, d, hd, hkind⟩ := hexpands
      obtain ⟨n, hn⟩ := (hs v).exists_contains hinteger
      have hholds : (s.domainOf v).Holds (.integer n) := hn
      have hmem := Domain.mem_integers.mpr ((h.takes hv hholds).contains hd)
      rcases Domain.union?_cases (h.union hd) with ⟨hkind', -⟩ | ⟨-, hnone, -⟩
      · rw [hkind] at hkind'
        cases hkind'
      · rw [hnone] at hmem
        cases hmem
  · rintro ⟨hintegral, hkind⟩
    refine ⟨.integer, hintegral, ?_⟩
    rw [hkind]
    decide

/-- A column has a cell of another kind than a variable that stands in it exactly when a tuple
that lasts has a literal of another kind there, or a wildcard that is expanded over integers
where the variable takes symbols. -/
theorem Turned.exists_kind_ne_iff (h : Turned s form table rows lists w w')
    (hs : ∀ v, (s.domainOf v).Normal) {list : List Variable} (hlist : list ∈ lists) {k : Nat}
    {v : Variable} (hv : list[k]? = some v) :
    (∃ kind, Rows.HasKind rows k kind ∧ kind ≠ (s.domainOf v).kind) ↔
      ∃ tuple ∈ table.tuples, Rows.Lasts form (w.columns s) tuple ∧
        ((∃ kind, Table.kindAt tuple k = some kind ∧ kind ≠ (s.domainOf v).kind) ∨
          tuple[k]? = some .any ∧ Rows.IsIntegral form (w.columns s)[k]?.join ∧
            (s.domainOf v).kind = .symbolic) := by
  rw [← h.expands_iff hs (h.mem hlist hv)]
  simp only [Rows.hasKind_ofTable h.ofTable]
  constructor
  · rintro ⟨kind, ⟨tuple, htuple, hlasts, hkind | ⟨hany, hexpands⟩⟩, hne⟩
    · exact ⟨tuple, htuple, hlasts, .inl ⟨kind, hkind, hne⟩⟩
    · exact ⟨tuple, htuple, hlasts, .inr ⟨hany, kind, hexpands, hne⟩⟩
  · rintro ⟨tuple, htuple, hlasts, ⟨kind, hkind, hne⟩ | ⟨hany, kind, hexpands, hne⟩⟩
    · exact ⟨kind, ⟨tuple, htuple, hlasts, .inl hkind⟩, hne⟩
    · exact ⟨kind, ⟨tuple, htuple, hlasts, .inr ⟨hany, hexpands⟩⟩, hne⟩

/-! ### Instances that were posted -/

theorem Tabled.readings_eq (h : w.Tabled table) (names : Variable → String) :
    w.readings names = (w.instances names).map (Layout.reading names) := by
  cases h with
  | alone => rfl
  | group | slide => exact (List.map_map).symm

end Written

/-- An extension is read off its layout. -/
theorem Relation.eq_of_reading {known : Variable → Prop} {names : Variable → String}
    {r : Relation} (hr : r.Placed known) {list : List Variable} {table : Table}
    (h : r.reading names = (Layout.ofTable (list.map .var) table).reading names) :
    r = .extension (list.map .var) table := by
  have h : (Layout.ofRelation r).reading names = .laidOut (Layout.ofTable (list.map .var) table) := h
  have hlayout : Layout.ofRelation r = Layout.ofTable (list.map .var) table := by
    unfold Layout.reading at h
    split at h
    · cases h
    · cases h
    · exact Reading.laidOut.inj h
  obtain ⟨list', table', rfl⟩ := Layout.exists_of_name (congrArg Layout.name hlayout)
  obtain ⟨vs, rfl, -⟩ := Expr.exists_variables hr
  rw [Layout.ofRelation_extension] at hlayout
  obtain ⟨hvariables, rfl⟩ := Layout.ofTable_inj hlayout
  rw [List.map_injective_iff.mpr (fun _ _ => Parameter.var.inj) hvariables]

namespace Grouping

/-- What is read off entries with a table that stand for some relations are relations of
these. -/
theorem exists_of_coverAll {names : Variable → String} {entries : List Written}
    {relations : List Relation} (h : Written.CoverAll names entries relations) {table : Table}
    {w : Written} (hw : w ∈ entries) (htabled : w.Tabled table) {reading : Reading}
    (hreading : reading ∈ w.readings names) :
    ∃ r ∈ relations, r.reading names = reading := by
  obtain ⟨parts, hcovers, -, hsublist⟩ := h
  obtain ⟨part, hpart, hcovered⟩ := exists_of_forall₂_of_mem hcovers.flip hw
  have hreadings : w.readings names = part.map (Relation.reading names) := by
    cases htabled with
    | alone | group | slide => exact hcovered
  rw [hreadings] at hreading
  obtain ⟨r, hr, rfl⟩ := List.mem_map.mp hreading
  exact ⟨r, (hsublist part hpart).subset hr, rfl⟩

/-- What is read off the entries of some constraints with a table is among the relations of
these, circular slides apart. -/
theorem exists_of_writeConstraints {s : Store} (hs : s.Built) (options : Options) (gather : Bool)
    {constraints : List Constraint} (hknown : ∀ c ∈ constraints, ∀ r ∈ c.relations,
      ∀ e ∈ r.expressions, ∀ v ∈ e.occurrences, s.Declares v) {w : Written}
    (hw : w ∈ (Grouping.mk options s.nameOf).writeConstraints gather constraints)
    (hstraight : ∀ list offset template d, w ≠ .slide list offset true template d)
    {table : Table} (htabled : w.Tabled table) {reading : Reading}
    (hreading : reading ∈ w.readings s.nameOf) :
    ∃ c ∈ constraints, ∃ r ∈ c.relations, r.reading s.nameOf = reading := by
  obtain ⟨segment, hsegment, hw⟩ := List.mem_flatMap.mp hw
  have hcovered : ∀ {gather relations}, (∀ r ∈ relations, ∃ c ∈ constraints, r ∈ c.relations) →
      w ∈ (Grouping.mk options s.nameOf).writeRun gather relations →
      ∃ c ∈ constraints, ∃ r ∈ c.relations, r.reading s.nameOf = reading := by
    intro gather relations hrelations hw
    obtain ⟨r, hr, heq⟩ := exists_of_coverAll
      (writeRun_covers (g := ⟨options, s.nameOf⟩) hs.plain gather relations) hw htabled hreading
    obtain ⟨c, hc, hr⟩ := hrelations r hr
    exact ⟨c, hc, r, hr, heq⟩
  have hrelations : ∀ r ∈ segment.relations, ∃ c ∈ constraints, r ∈ c.relations :=
    fun r hr => exists_of_mem_segments hsegment hr
  cases segment with
  | run relations => exact hcovered hrelations hw
  | slide windows =>
    rw [writeSegment] at hw
    split at hw
    · rename_i entry hentry
      obtain rfl := List.mem_singleton.mp hw
      obtain ⟨sliding, template, rfl, hiff⟩ := readings_recognize? hs.plain hs.nameOf_injective
        (fun r hr => (hrelations r hr).elim fun c h => hknown c h.1 r h.2)
        (recognize?_of_recognized? hentry)
      -- a slide that is not circular always stands for its windows
      have hnot : sliding.circular ≠ true := fun hcircular => by
        rw [hcircular] at hstraight
        exact hstraight _ _ _ _ rfl
      have hposted := (hiff.mpr fun hcircular => absurd hcircular hnot) reading
      obtain ⟨r, hr, heq⟩ := List.mem_map.mp (hposted.mp hreading)
      obtain ⟨c, hc, hr⟩ := hrelations r hr
      exact ⟨c, hc, r, hr, heq⟩
    · exact hcovered hrelations hw

end Grouping

/-- Whether the extension of a table over a list of variables is one of the constraints that
are written of a model. -/
def Introduced.States (p : Introduced) (list : List Variable) (table : Table) : Prop :=
  ∃ posting ∈ p.postings, ∃ c ∈ posting.body.constraints,
    .extension (list.map .var) table ∈ c.relations

namespace Written

theorem instances_withDecoration (names : Variable → String) (w : Written) (d : Decoration) :
    (w.withDecoration d).instances names = w.instances names := by
  cases w <;> rfl

theorem tabled_withDecoration {table : Table} {w : Written} {d : Decoration}
    (h : (w.withDecoration d).Tabled table) : w.Tabled table := by
  cases w with
  | constraint layout d' =>
    cases h
    exact .alone _ d'
  | group template arguments d' =>
    cases h
    exact .group _ d'
  | slide list offset circular template d' =>
    cases h
    exact .slide list offset circular _ d'
  | equalities | block => cases h

end Written

namespace Introduced

variable {m : Model} {p : Introduced}

/-- The instances of an entry with a table are constraints that are written of the model,
those of circular slides apart. -/
theorem states_of_mem_instances (hm : m.Sound) (hp : ofModel m = .ok p) {options : Options}
    {w : Written} (hw : w ∈ Written.leavesOf (p.entries options))
    (hstraight : ∀ list offset template d, w ≠ .slide list offset true template d)
    {table : Table} (htabled : w.Tabled table) {list : List Variable}
    (hlist : Layout.ofTable (list.map .var) table ∈ w.instances p.store.nameOf) :
    p.States list table := by
  have hplaced := (placed hm hp).1
  obtain ⟨entry, hentry, hw⟩ := Written.mem_leavesOf.mp hw
  obtain ⟨posting, hposting, hentry⟩ := List.mem_flatMap.mp hentry
  obtain ⟨inner, hinner, heq⟩ := Grouping.exists_of_mem_decorate
    (Grouping.shaped_writeConstraints _ (hplaced posting hposting))
    (Written.mem_leavesOf.mpr ⟨entry, hentry, hw⟩)
  -- labels change neither the instances nor the shape
  have hinner' : inner.Tabled table ∧ inner.instances p.store.nameOf =
      w.instances p.store.nameOf ∧
      ∀ list offset template d, inner ≠ .slide list offset true template d := by
    rcases heq with rfl | rfl
    · exact ⟨htabled, rfl, hstraight⟩
    · refine ⟨Written.tabled_withDecoration htabled,
        (Written.instances_withDecoration _ _ _).symm, ?_⟩
      rintro list offset template d rfl
      exact hstraight list offset template posting.decoration rfl
  obtain ⟨htabled, hinstances, hstraight⟩ := hinner'
  have hreading : (Layout.ofTable (list.map .var) table).reading p.store.nameOf ∈
      inner.readings p.store.nameOf := by
    rw [htabled.readings_eq, hinstances]
    exact List.mem_map_of_mem hlist
  obtain ⟨c, hc, r, hr, heq⟩ := Grouping.exists_of_writeConstraints (store_built hm hp) options
    posting.body.isGather (fun c hc r hr => (hplaced posting hposting c hc r hr).over) hinner
    hstraight htabled hreading
  rw [Relation.eq_of_reading (hplaced posting hposting c hc r hr) heq] at hr
  exact ⟨posting, hposting, c, hc, hr⟩

end Introduced

/-! ### The cells of a document -/

/-- What is known of the kinds of the cells of an entry of extensions of a table over some
lists, and of the same entry with rows. -/
structure Written.Typed (m : Model) (p : Introduced) (form : TableForm) (table : Table)
    (rows : List (List RowCell)) (lists : List (List Variable)) (w w' : Written) : Prop where
  posted : w.instances p.store.nameOf =
    lists.map fun list => Layout.ofRelation (.extension (list.map .var) table)
  written : w'.instances p.store.nameOf =
    lists.map fun list => Layout.ofRows (list.map .var) table.polarity rows
  /-- Only a circular slide has instances that are no constraints of the model. -/
  stated : (∀ list offset template d, w ≠ .slide list offset true template d) →
    ∀ list ∈ lists, p.States list table
  /-- A cell is of another kind than its variable exactly where a literal of the table is, or
  where a wildcard is expanded over integers and the variable takes symbols. -/
  exact : ∀ list ∈ lists, ∀ (k : Nat) v, list[k]? = some v →
    ((∃ kind, Rows.HasKind rows k kind ∧ kind ≠ (p.store.domainOf v).kind) ↔
      ∃ tuple ∈ table.tuples, Rows.Lasts form (w.columns p.store) tuple ∧
        ((∃ kind, Table.kindAt tuple k = some kind ∧ kind ≠ (p.store.domainOf v).kind) ∨
          tuple[k]? = some .any ∧ Rows.IsIntegral form (w.columns p.store)[k]?.join ∧
            (p.store.domainOf v).kind = .symbolic))
  /-- A literal of another kind than its variable is a symbol, where no variable was posted. -/
  literal : ∀ list ∈ lists, p.States list table → ∀ (k : Nat) v kind, list[k]? = some v →
    table.HasKind k kind → kind ≠ (p.store.domainOf v).kind →
    kind = .symbolic ∧ ¬m.store.Declares v ∧ (p.store.domainOf v).kind = .integer
  /-- Cells are of the kinds of their variables where a variable was posted or the column has no
  symbol, and where wildcards are kept or no symbolic variable stands in a column with
  integers. -/
  sound : ∀ list ∈ lists, p.States list table → ∀ (k : Nat) v, list[k]? = some v →
    (m.store.Declares v ∨ ¬table.HasKind k .symbolic) →
    (form = .compact ∨ ((p.store.domainOf v).kind = .symbolic →
      ∀ u ∈ w.columnVariables lists k, (p.store.domainOf u).kind = .symbolic)) →
    ∀ kind, Rows.HasKind rows k kind → kind = (p.store.domainOf v).kind

/-- The kinds of the cells of an entry that is turned into rows. -/
theorem Introduced.typed_of_tabled {m : Model} {p : Introduced} (hm : m.Reachable)
    (hp : ofModel m = .ok p) {options : Options} {w w' : Written}
    (hw : w ∈ Written.leavesOf (p.entries options)) {table : Table} (htabled : w.Tabled table)
    (hof : Rows.ofEntry p.store options.tableForm w = .ok w') :
    ∃ rows lists, Written.Typed m p options.tableForm table rows lists w w' := by
  have hs : ∀ v, (p.store.domainOf v).Normal := (store_built hm.sound hp).normal_domainOf
  obtain ⟨rows, lists, h⟩ := htabled.turned hof
  have hliteral : ∀ list ∈ lists, p.States list table → ∀ (k : Nat) v kind, list[k]? = some v →
      table.HasKind k kind → kind ≠ (p.store.domainOf v).kind →
      kind = .symbolic ∧ ¬m.store.Declares v ∧ (p.store.domainOf v).kind = .integer := by
    rintro list - ⟨posting, hposting, c, hc, hr⟩ k v kind hv hkind hne
    have hvar : (list.map Expr.var)[k]? = some (.var v) := by
      rw [List.getElem?_map, hv]
      rfl
    rcases suits hm hp hposting hc hr hvar hkind with heq | ⟨hnew, hinteger⟩
    · exact absurd heq.symm hne
    · refine ⟨?_, hnew, hinteger⟩
      rw [hinteger] at hne
      cases kind with
      | integer => exact absurd rfl hne
      | symbolic => rfl
  have hexact := fun list (hlist : list ∈ lists) (k : Nat) v (hv : list[k]? = some v) =>
    h.exists_kind_ne_iff hs hlist hv
  refine ⟨rows, lists, ?_, h.written, fun hstraight list hlist => ?_, hexact, hliteral, ?_⟩
  · simpa only [Layout.ofRelation_extension] using h.posted
  · refine states_of_mem_instances hm.sound hp hw hstraight htabled ?_
    rw [h.posted]
    exact List.mem_map_of_mem hlist
  · intro list hlist hstates k v hv hdeclared hcolumn kind hkind
    by_contra hne
    obtain ⟨tuple, htuple, -, ⟨kind', hkind', hne'⟩ | ⟨-, hintegral, hsymbolic⟩⟩ :=
      (hexact list hlist k v hv).mp ⟨kind, hkind, hne⟩
    · obtain ⟨rfl, hnew, -⟩ := hliteral list hlist hstates k v kind' hv ⟨tuple, htuple, hkind'⟩ hne'
      exact hdeclared.elim hnew fun hnone => hnone ⟨tuple, htuple, hkind'⟩
    · refine h.not_isIntegral hs (hcolumn.imp_right fun hcolumn u hu => ?_) hintegral
      exact beq_iff_eq.mpr (hcolumn hsymbolic u hu)

namespace Model

variable {m : Model}

/-- The kinds of the cells in the document of every model that compiles, entry by entry with
blocks opened, and of the tables that are refused.  A cell is of the kind of its variable in
every instance, with two exceptions, and these are exact: a symbol in a column that was posted
as an expression or a constant stays there, although its auxiliary variable is a number; and a
wildcard that is expanded over a column of integers and symbols is integers, also for the
variables that take symbols.  Other tables that do not suit their variables are refused, and
no others are. -/
theorem build_kinds (hm : m.Reachable) :
    (∀ options c, (m.build options).1 = .ok c →
      ∃ p entries, Introduced.ofModel m = .ok p ∧
        Rows.ofEntries p.store options.tableForm (p.entries options) = .ok entries ∧
        c = (m.finish options p entries).1 ∧
        List.Forall₂ (fun w w' => w.Tableless ∧ w' = w ∨
            ∃ table rows lists, Written.Typed m p options.tableForm table rows lists w w')
          (Written.leavesOf (p.entries options)) (Written.leavesOf entries)) ∧
    ∀ list table d, m.frozen = false → list ≠ [] →
      (∀ tuple ∈ table.tuples, tuple.length = list.length) →
      (∀ e ∈ list, ∀ v ∈ e.occurrences, v.model = m.store.model) →
      ((∃ cause, cause.isAboutKinds = true ∧
          m.postExtension list table d = .error (.table cause)) ↔
        (Relation.extension list table).Unsuited m.store) := by
  refine ⟨fun options c hc => ?_, fun list table d hopen hne hlength hscope =>
    postExtension_refused_iff hopen hne hlength hscope d⟩
  obtain ⟨p, entries, hp, hentries, hfinish⟩ := build_eq_ok.mp hc
  refine ⟨p, entries, hp, hentries, hfinish, ?_⟩
  have hshaped := Introduced.shaped_entries hm.sound hp options
  have hleaves := forall₂_iff_getElem?.mp (Written.leavesOf_ofEntries hentries)
  refine forall₂_iff_getElem?.mpr ⟨hleaves.1, fun k w w' hw hw' => ?_⟩
  have hof := hleaves.2 k w w' hw hw'
  have hmem := List.mem_of_getElem? hw
  rcases hshaped w hmem with htableless | ⟨table, htabled⟩
  · exact .inl ⟨htableless, htableless.eq hof⟩
  · exact .inr ⟨table, Introduced.typed_of_tabled hm hp hmem htabled hof⟩

end Model
namespace Mixed

/-- The wildcard over a number and a letter is turned into numbers, also for the letter. -/
theorem numbers_for_letter : model.Reachable ∧
    Written.leavesOf (introduced.entries options) = [entry] ∧
    ∃ rows lists, Written.Typed model introduced .expanded table rows lists entry entryWithRows ∧
      [l, y] ∈ lists ∧ (declared.domainOf l).kind = .symbolic ∧ Rows.HasKind rows 0 .integer := by
  have hbuild := Model.build_eq_ok.mpr ⟨_, _, ofModel_model, rows_introduced, rfl⟩
  obtain ⟨p, entries, hp, hentries, -, htyped⟩ :=
    (Model.build_kinds reachable_model).1 options _ hbuild
  cases hp.symm.trans ofModel_model
  cases hentries.symm.trans rows_introduced
  have hentries : introduced.entries options = [entry] := entries_introduced
  rw [hentries] at htyped ⊢
  obtain ⟨hentry, -⟩ := List.forall₂_cons.mp htyped
  refine ⟨reachable_model, rfl, ?_⟩
  rcases hentry with ⟨hname, -⟩ | ⟨table', rows', lists, h⟩
  · exact absurd rfl hname
  · have hmem : Layout.ofTable ([l, y].map .var) table ∈
        lists.map fun list => Layout.ofTable (list.map .var) table' := by
      have hinstances := h.posted.symm
      simp only [Layout.ofRelation_extension] at hinstances
      rw [hinstances]
      exact List.mem_cons_of_mem _ (List.mem_singleton_self _)
    obtain ⟨list, hlist, heq⟩ := List.mem_map.mp hmem
    obtain ⟨hvariables, rfl⟩ := Layout.ofTable_inj heq
    obtain rfl := List.map_injective_iff.mpr (fun _ _ => Parameter.var.inj) hvariables
    have hsymbolic : (declared.domainOf l).kind = .symbolic := by
      cbv
    have hcolumn : (entry.columns declared)[0]?.join = some numbers := by
      cbv
    refine ⟨rows', lists, h, hlist, hsymbolic, ?_⟩
    obtain ⟨kind, hkind, hne⟩ := (h.exact _ hlist 0 l rfl).mpr
      ⟨_, List.mem_singleton_self _, ⟨rows, by cbv, List.cons_ne_nil _ _⟩,
        .inr ⟨rfl, ⟨rfl, hcolumn ▸ rfl, numbers, hcolumn, rfl⟩, hsymbolic⟩⟩
    cases kind with
    | integer => exact hkind
    | symbolic => exact absurd hsymbolic.symm hne

end Mixed

end CspModel
