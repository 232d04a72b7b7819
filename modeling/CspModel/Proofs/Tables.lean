import CspModel.Layout.Rows
import CspModel.Proofs.Canonical

/-! # Tables and their rows

Values match a tuple of a table, or a row, when they match it entry by entry.  The rows a
table is turned into ascend, and they are matched by what the table is matched by
(`Rows.matches_ofTable`), with one exception: a wildcard that is expanded over a column
with integers is expanded over integers only, so it is lost for the symbols that other
variables of the column can take.
-/
namespace CspModel

/-! ### Matching -/

/-- Whether an entry stands for a value. -/
def TableEntry.Matches : TableEntry → Value → Prop
  | .integer n, v => v = .integer n
  | .symbol text, v => v = .symbol text
  | .any, _ => True
  | .range inf sup, v => ∃ n, v = .integer n ∧ inf ≤ n ∧ n ≤ sup

/-- Whether a cell stands for a value. -/
def RowCell.Matches : RowCell → Value → Prop
  | .integer n, v => v = .integer n
  | .symbol text, v => v = .symbol text
  | .any, _ => True

namespace Table

/-- Whether the values match a tuple. -/
def Matches (t : Table) (values : List Value) : Prop :=
  ∃ tuple ∈ t.tuples, List.Forall₂ TableEntry.Matches tuple values

/-- Whether a table allows the values. -/
def Allows (t : Table) (values : List Value) : Prop :=
  match t.polarity with
  | .supports => t.Matches values
  | .conflicts => ¬t.Matches values

/-- Whether the values match a tuple that has no wildcard for a symbol in the given columns. -/
def MatchesWithout (t : Table) (columns : Nat → Prop) (values : List Value) : Prop :=
  ∃ tuple ∈ t.tuples, List.Forall₂ TableEntry.Matches tuple values ∧
    ∀ k text, columns k → tuple[k]? = some .any → values[k]? ≠ some (.symbol text)

/-- Without wildcards for symbols in such columns nothing is left out. -/
theorem matchesWithout_iff {t : Table} {columns : Nat → Prop} {values : List Value}
    (h : ∀ k text, columns k → values[k]? ≠ some (.symbol text)) :
    t.MatchesWithout columns values ↔ t.Matches values :=
  exists_congr fun _ => and_congr_right fun _ =>
    and_iff_left fun k text hk _ => h k text hk

end Table

/-- Whether the values match a row. -/
def Rows.Matches (rows : List (List RowCell)) (values : List Value) : Prop :=
  ∃ row ∈ rows, List.Forall₂ RowCell.Matches row values

/-- A list is mapped without an error when every entry is. -/
theorem Except.mapM_eq_ok {ε α β : Type} {f : α → Except ε β} {list : List α} {results : List β} :
    list.mapM f = .ok results ↔ List.Forall₂ (fun a b => f a = .ok b) list results := by
  induction list generalizing results with
  | nil =>
    rw [List.mapM_nil, List.forall₂_nil_left_iff]
    exact ⟨fun h => by cases h; rfl, fun h => h ▸ rfl⟩
  | cons a rest ih =>
    rw [List.mapM_cons, List.forall₂_cons_left_iff]
    constructor
    · intro h
      obtain ⟨b, hb, h⟩ := Except.bind_eq_ok.mp h
      obtain ⟨others, hothers, h⟩ := Except.bind_eq_ok.mp h
      cases h
      exact ⟨b, others, hb, ih.mp hothers, rfl⟩
    · rintro ⟨b, others, hb, hothers, rfl⟩
      rw [hb, ih.mpr hothers]
      rfl

/-! ### The order of rows -/

namespace RowCell

theorem compare_integer (m n : Int) : compare (integer m) (integer n) = compare m n := by
  simp [compare, instOrdRowCell.ord]

theorem compare_symbol (text text' : String) :
    compare (symbol text) (symbol text') = compare text text' := by
  simp [compare, instOrdRowCell.ord]

instance : Std.LawfulEqOrd RowCell where
  eq_of_compare {a b} h := by
    cases a with
    | integer m =>
      cases b with
      | integer n =>
        exact congrArg integer (Std.LawfulEqOrd.eq_of_compare ((compare_integer m n).symm.trans h))
      | _ => cases h
    | symbol text =>
      cases b with
      | symbol text' =>
        exact congrArg symbol
          (Std.LawfulEqOrd.eq_of_compare ((compare_symbol text text').symm.trans h))
      | _ => cases h
    | any =>
      cases b with
      | any => rfl
      | _ => cases h
  compare_self {a} := by
    cases a with
    | integer n => exact (compare_integer n n).trans Std.ReflCmp.compare_self
    | symbol text => exact (compare_symbol text text).trans Std.ReflCmp.compare_self
    | any => rfl

instance : Std.OrientedOrd RowCell where
  eq_swap {a b} := by
    cases a <;> cases b <;>
      first
      | rfl
      | rw [compare_integer, compare_integer]; exact Std.OrientedCmp.eq_swap
      | rw [compare_symbol, compare_symbol]; exact Std.OrientedCmp.eq_swap

instance : Std.TransOrd RowCell where
  isLE_trans {a b c} hab hbc := by
    cases a <;> cases b <;> cases c <;>
      first
      | rfl
      | rw [compare_integer] at hab hbc ⊢; exact Std.TransCmp.isLE_trans hab hbc
      | rw [compare_symbol] at hab hbc ⊢; exact Std.TransCmp.isLE_trans hab hbc
      | cases hab; done
      | cases hbc

end RowCell

/-! ### Domains of columns -/

namespace Domain

/-- The integers of a domain are those of its runs. -/
theorem contains_iff_runs {d : Domain} {n : Int} :
    d.contains n = true ↔ ∃ run ∈ d.atoms.filterMap runOf, InRange n run := by
  simp only [contains, List.any_eq_true, List.mem_filterMap]
  constructor
  · rintro ⟨a, ha, hn⟩
    cases a with
    | integer value =>
      obtain rfl := beq_iff_eq.mp hn
      exact ⟨(value, value), ⟨_, ha, rfl⟩, Int.le_refl _, Int.le_refl _⟩
    | interval i =>
      obtain ⟨hinf, hsup⟩ := Bool.and_eq_true_iff.mp hn
      exact ⟨(i.inf, i.sup), ⟨_, ha, rfl⟩, of_decide_eq_true hinf, of_decide_eq_true hsup⟩
    | symbol text => cases hn
  · rintro ⟨run, ⟨a, ha, hrun⟩, hle, hle'⟩
    refine ⟨a, ha, ?_⟩
    cases a with
    | integer value =>
      cases hrun
      exact beq_iff_eq.mpr (Int.le_antisymm hle hle')
    | interval i =>
      cases hrun
      exact Bool.and_eq_true_iff.mpr ⟨decide_eq_true hle, decide_eq_true hle'⟩
    | symbol text => cases hrun

theorem le_of_mem_runsOf {atoms : List Atom} : ∀ run ∈ atoms.filterMap runOf, run.1 ≤ run.2 := by
  intro run hrun
  obtain ⟨a, -, ha⟩ := List.mem_filterMap.mp hrun
  cases a with
  | integer value =>
    cases ha
    exact Int.le_refl _
  | interval i =>
    cases ha
    exact Int.le_of_lt i.inf_lt_sup
  | symbol text => cases ha

/-- The integers of a domain within a range. -/
theorem mem_restrictedTo? {d : Domain} {inf sup n : Int} :
    n ∈ ((d.restrictedTo? inf sup).map integers).getD [] ↔
      d.contains n = true ∧ inf ≤ n ∧ n ≤ sup := by
  have hclip : ∀ {run clipped : Int × Int}, clip inf sup run = some clipped ↔
      max run.1 inf ≤ min run.2 sup ∧ clipped = (max run.1 inf, min run.2 sup) := by
    intro run clipped
    unfold clip
    split <;> simp [*, eq_comm]
  have hvalid : ∀ run ∈ (d.atoms.filterMap runOf).filterMap (clip inf sup), run.1 ≤ run.2 := by
    intro run hrun
    obtain ⟨whole, -, hwhole⟩ := List.mem_filterMap.mp hrun
    obtain ⟨hle, rfl⟩ := hclip.mp hwhole
    exact hle
  have hcovered : d.contains n = true ∧ inf ≤ n ∧ n ≤ sup ↔
      ∃ run ∈ (d.atoms.filterMap runOf).filterMap (clip inf sup), InRange n run := by
    rw [contains_iff_runs]
    constructor
    · rintro ⟨⟨run, hrun, hle, hle'⟩, hinf, hsup⟩
      exact ⟨_, List.mem_filterMap.mpr ⟨run, hrun, hclip.mpr ⟨by omega, rfl⟩⟩,
        Int.max_le.mpr ⟨hle, hinf⟩, Int.le_min.mpr ⟨hle', hsup⟩⟩
    · rintro ⟨clipped, hclipped, hle, hle'⟩
      obtain ⟨run, hrun, hrunClip⟩ := List.mem_filterMap.mp hclipped
      obtain ⟨-, rfl⟩ := hclip.mp hrunClip
      dsimp only at hle hle'
      refine ⟨⟨run, hrun, ?_, ?_⟩, ?_, ?_⟩ <;> omega
  rw [hcovered]
  unfold restrictedTo?
  split
  · rename_i hnone
    simp [hnone]
  · simp only [Option.map_some, Option.getD_some]
    rw [mem_integers, contains_ofRuns hvalid]

/-- A union holds the integers of all domains. -/
theorem contains_union? {domains : List Domain} {d : Domain} (h : union? domains = some d)
    {n : Int} : d.contains n = true ↔ ∃ own ∈ domains, own.contains n = true := by
  have hcovered : (∃ own ∈ domains, own.contains n = true) ↔
      ∃ run ∈ (domains.flatMap atoms).filterMap runOf, InRange n run := by
    simp only [contains_iff_runs, List.filterMap_flatMap, List.mem_flatMap]
    exact ⟨fun ⟨own, ho, run, hr, hn⟩ => ⟨run, ⟨own, ho, hr⟩, hn⟩,
      fun ⟨run, ⟨own, ho, hr⟩, hn⟩ => ⟨own, ho, run, hr, hn⟩⟩
  rw [hcovered]
  unfold union? at h
  dsimp only at h
  split at h
  · cases h
  · rename_i hruns _
    cases h
    simp [hruns, contains_ofSymbols]
  · cases h
    exact contains_ofRuns le_of_mem_runsOf

/-- A union that has integers has no symbols, and one that has none holds the symbols of all
domains. -/
theorem union?_cases {domains : List Domain} {d : Domain} (h : union? domains = some d) :
    (d.kind = .integer ∧ d.symbols = [] ∧ ∃ own ∈ domains, ∃ n, own.contains n = true) ∨
      d.kind = .symbolic ∧ d.integers = [] ∧
        ∀ text, d.containsSymbol text = true ↔ ∃ own ∈ domains, own.containsSymbol text = true := by
  have hcontains := fun n => contains_union? h (n := n)
  unfold union? at h
  dsimp only at h
  split at h
  · cases h
  · rename_i hsymbols
    cases h
    have hne : (domains.flatMap atoms).filterMap Atom.symbol? ≠ [] := hsymbols
    refine .inr ⟨beq_iff_eq.mp (isSymbolic_ofSymbols hne), ?_, fun text => ?_⟩
    · refine List.eq_nil_iff_forall_not_mem.mpr fun n hn => ?_
      rw [mem_integers, contains_ofSymbols] at hn
      cases hn
    · rw [containsSymbol_ofSymbols, List.filterMap_flatMap, List.mem_flatMap]
      exact exists_congr fun own => and_congr_right fun _ => List.contains_iff_mem.symm
  · rename_i hruns _
    cases h
    have hnone := symbols_ofRuns ((domains.flatMap atoms).filterMap runOf)
    refine .inl ⟨kind_of_symbols_eq_nil hnone, hnone, ?_⟩
    obtain ⟨run, rest, hrun⟩ := List.exists_cons_of_ne_nil hruns
    have hmem : run ∈ (domains.flatMap atoms).filterMap runOf := hrun ▸ List.mem_cons_self
    obtain ⟨own, hown, hn⟩ := (hcontains run.1).mp ((contains_ofRuns le_of_mem_runsOf).mpr
      ⟨run, hmem, Int.le_refl _, le_of_mem_runsOf run hmem⟩)
    exact ⟨own, hown, run.1, hn⟩

end Domain

namespace Rows

/-! ### Cells -/

/-- Whether some cell stands for a value. -/
def Cover (cells : List RowCell) (v : Value) : Prop := ∃ cell ∈ cells, cell.Matches v

theorem cover_map {α : Type} {values : List α} {f : α → RowCell} {v : Value} :
    Cover (values.map f) v ↔ ∃ a ∈ values, (f a).Matches v := by
  simp [Cover]

theorem cover_singleton {cell : RowCell} {v : Value} : Cover [cell] v ↔ cell.Matches v := by
  simp [Cover]

theorem mem_integersFrom {inf sup n : Int} : n ∈ integersFrom inf sup ↔ inf ≤ n ∧ n ≤ sup := by
  simp only [integersFrom, List.mem_map, List.mem_range]
  constructor
  · rintro ⟨k, hk, rfl⟩
    omega
  · rintro ⟨hinf, hsup⟩
    exact ⟨(n - inf).toNat, by omega, by omega⟩

/-- Whether the domain of a column, if it has one, is a union of domains, one of which holds
the value. -/
def Takes (column : Option Domain) (v : Value) : Prop :=
  ∀ d ∈ column, ∃ domains, Domain.union? domains = some d ∧ ∃ own ∈ domains, own.Holds v

/-- Whether wildcards of the column are expanded over integers. -/
def IsIntegral (form : TableForm) (column : Option Domain) : Prop :=
  form = .expanded ∧ (wildcardCells? column).isSome ∧ ∃ d ∈ column, d.kind = .integer

/-- An integer of a column is among its integers. -/
theorem Takes.contains {column : Option Domain} {n : Int} (h : Takes column (.integer n))
    {d : Domain} (hd : d ∈ column) : d.contains n = true := by
  obtain ⟨domains, hunion, hown⟩ := h d hd
  exact (Domain.contains_union? hunion).mpr hown

/-- A range is turned into the values of the column within it. -/
theorem cover_rangeCells {inf sup : Int} {column : Option Domain} {cells : List RowCell}
    (h : rangeCells inf sup column = .ok cells) {v : Value} (hv : Takes column v) :
    Cover cells v ↔ (TableEntry.range inf sup).Matches v := by
  unfold rangeCells at h
  split at h
  · rename_i d hd
    obtain ⟨rfl⟩ := h
    have hmem : d ∈ column := (Option.filter_eq_some_iff.mp hd).1
    rw [cover_map]
    refine exists_congr fun n => ?_
    rw [Domain.mem_restrictedTo?, and_comm]
    refine and_congr_right fun hn => and_iff_right ?_
    cases hn
    exact hv.contains hmem
  · split at h
    · cases h
    · obtain ⟨rfl⟩ := h
      rw [cover_map]
      exact exists_congr fun n => by rw [mem_integersFrom, and_comm, RowCell.Matches]

/-- A wildcard is turned into the values of the column, unless these are integers and the
value is a symbol. -/
theorem cover_wildcardCells {column : Option Domain} {cells : List RowCell}
    (h : wildcardCells? column = some cells) {v : Value} (hv : Takes column v) :
    Cover cells v ↔ ∀ text, (∃ d ∈ column, d.kind = .integer) → v ≠ .symbol text := by
  unfold wildcardCells? at h
  split at h
  · cases h
  · rename_i d
    split at h
    · obtain ⟨domains, hunion, own, hown, hholds⟩ := hv d rfl
      have hkind : (∃ d' ∈ some d, d'.kind = .integer) ↔ d.kind = .integer := by simp
      rw [hkind]
      cases h
      -- a union has values of one kind, and loses the symbols if it has any integers
      rcases Domain.union?_cases hunion with ⟨hkind, -, -⟩ | ⟨hkind, hnone, hsymbols⟩
      · rw [hkind]
        simp only [cover_map, RowCell.Matches, Domain.mem_integers, true_imp_iff]
        cases v with
        | integer n => simpa using hv.contains rfl
        | symbol text => simp
      · rw [hkind]
        simp only [cover_map, RowCell.Matches, reduceCtorEq, false_imp_iff, implies_true, iff_true]
        cases v with
        | integer n =>
          have hmem := Domain.mem_integers.mpr (hv.contains rfl)
          rw [hnone] at hmem
          cases hmem
        | symbol text =>
          exact ⟨text, List.contains_iff_mem.mp ((hsymbols text).mpr ⟨own, hown, hholds⟩), rfl⟩
    · cases h

/-- An entry is turned into cells for the values it stands for, unless it is a wildcard that
is expanded over integers and the value is a symbol. -/
theorem cover_cells {form : TableForm} {entry : TableEntry} {column : Option Domain}
    {list : List RowCell} (h : cells form entry column = .ok list) {v : Value}
    (hv : Takes column v) : Cover list v ↔ entry.Matches v ∧
      ∀ text, IsIntegral form column → entry = .any → v ≠ .symbol text := by
  unfold cells at h
  split at h
  · obtain ⟨rfl⟩ := h
    rw [cover_singleton]
    exact (and_iff_left fun _ _ hany => nomatch hany).symm
  · obtain ⟨rfl⟩ := h
    rw [cover_singleton]
    exact (and_iff_left fun _ _ hany => nomatch hany).symm
  · rw [cover_rangeCells h hv]
    exact (and_iff_left fun _ _ hany => nomatch hany).symm
  · refine Iff.trans ?_ (and_iff_right trivial).symm
    split at h
    · obtain ⟨rfl⟩ := h
      rw [cover_singleton]
      exact iff_of_true trivial fun _ hintegral => nomatch hintegral.1
    · obtain ⟨rfl⟩ := h
      cases hcells : wildcardCells? column with
      | none =>
        rw [Option.getD_none, cover_singleton]
        refine iff_of_true trivial fun _ hintegral => ?_
        have hsome := hintegral.2.1
        rw [hcells] at hsome
        cases hsome
      | some list =>
        rw [Option.getD_some, cover_wildcardCells hcells hv]
        refine forall_congr' fun text => ?_
        simp [IsIntegral, hcells]

/-! ### Rows -/

/-- A row takes one cell of every list. -/
theorem matches_choices {lists : List (List RowCell)} {values : List Value} :
    Matches (choices lists) values ↔ List.Forall₂ Cover lists values := by
  induction lists generalizing values with
  | nil =>
    simp only [Matches, choices, List.mem_singleton, exists_eq_left, List.forall₂_nil_left_iff]
  | cons list rest ih =>
    simp only [Matches, choices, List.mem_flatMap, List.mem_map]
    constructor
    · rintro ⟨_, ⟨cell, hcell, row, hrow, rfl⟩, hmatches⟩
      obtain ⟨v, others, hv, hothers, rfl⟩ := List.forall₂_cons_left_iff.mp hmatches
      exact .cons ⟨cell, hcell, hv⟩ (ih.mp ⟨row, hrow, hothers⟩)
    · intro h
      obtain ⟨v, others, ⟨cell, hcell, hv⟩, hothers, rfl⟩ := List.forall₂_cons_left_iff.mp h
      obtain ⟨row, hrow, hmatches⟩ := ih.mpr hothers
      exact ⟨cell :: row, ⟨cell, hcell, row, hrow, rfl⟩, .cons hv hmatches⟩

theorem getElem?_placesIn (columns : List (Option Domain)) (tuple : List TableEntry) (k : Nat) :
    (placesIn columns tuple)[k]? = tuple[k]?.map fun entry => (entry, columns[k]?.join) := by
  rw [placesIn, List.getElem?_map, List.getElem?_zipIdx, Option.map_map, Nat.zero_add]
  rfl

/-- The rows of a tuple take one cell of every entry's list. -/
theorem exists_of_ofTuple {form : TableForm} {columns : List (Option Domain)}
    {tuple : List TableEntry} {rows : List (List RowCell)}
    (h : ofTuple form columns tuple = .ok rows) :
    ∃ lists, rows = choices lists ∧ tuple.length = lists.length ∧
      ∀ (k : Nat) entry list, tuple[k]? = some entry → lists[k]? = some list →
        cells form entry columns[k]?.join = .ok list := by
  obtain ⟨lists, hlists, rfl⟩ := Except.map_eq_ok.mp h
  rw [Except.mapM_eq_ok, forall₂_iff_getElem?, placesIn, List.length_map,
    List.length_zipIdx] at hlists
  refine ⟨lists, rfl, hlists.1, fun k entry list hentry hlist => ?_⟩
  refine hlists.2 k (entry, columns[k]?.join) list ?_ hlist
  rw [← placesIn, getElem?_placesIn, hentry]
  rfl

/-- The rows of a tuple are matched by what the tuple is matched by, without its wildcards
for symbols in columns where they are expanded over integers. -/
theorem matches_ofTuple {form : TableForm} {columns : List (Option Domain)}
    {tuple : List TableEntry} {rows : List (List RowCell)}
    (h : ofTuple form columns tuple = .ok rows) {values : List Value}
    (hvalues : ∀ (k : Nat) v, values[k]? = some v → Takes columns[k]?.join v) :
    Matches rows values ↔ List.Forall₂ TableEntry.Matches tuple values ∧
      ∀ (k : Nat) (text : String), IsIntegral form columns[k]?.join → tuple[k]? = some .any →
        values[k]? ≠ some (.symbol text) := by
  obtain ⟨lists, rfl, hlength, hcells⟩ := exists_of_ofTuple h
  -- both sides go through the places of the tuple one by one
  rw [matches_choices, forall₂_iff_getElem?, forall₂_iff_getElem?, ← hlength, and_assoc]
  refine and_congr_right fun _ => ?_
  constructor
  · intro hcover
    have hboth : ∀ {k : Nat} {entry v}, tuple[k]? = some entry → values[k]? = some v →
        entry.Matches v ∧ ∀ text, IsIntegral form columns[k]?.join → entry = .any →
          v ≠ .symbol text := fun {k entry v} hentry hv => by
      have hk : k < lists.length := hlength ▸ (List.getElem?_eq_some_iff.mp hentry).1
      have hlist := List.getElem?_eq_getElem hk
      exact (cover_cells (hcells k _ _ hentry hlist) (hvalues k v hv)).mp (hcover k _ v hlist hv)
    exact ⟨fun k entry v hentry hv => (hboth hentry hv).1, fun k text hintegral hany hv =>
      (hboth hany hv).2 text hintegral rfl rfl⟩
  · rintro ⟨hmatches, hwithout⟩ k list v hlist hv
    have hk : k < tuple.length := hlength ▸ (List.getElem?_eq_some_iff.mp hlist).1
    have hentry := List.getElem?_eq_getElem hk
    refine (cover_cells (hcells k _ _ hentry hlist) (hvalues k v hv)).mpr
      ⟨hmatches k _ v hentry hv, fun text hintegral hany htext => ?_⟩
    rw [hany] at hentry
    rw [htext] at hv
    exact hwithout k text hintegral hentry hv

/-- The rows of a table ascend strictly. -/
theorem pairwise_ofTable {form : TableForm} {columns : List (Option Domain)} {table : Table}
    {rows : List (List RowCell)} (h : ofTable form columns table = .ok rows) :
    rows.Pairwise fun row row' => compare row row' = .lt := by
  obtain ⟨lists, -, rfl⟩ := Except.map_eq_ok.mp h
  exact Ascending.pairwise_compare_ofList _

/-- The rows of a table are matched by what the table is matched by, without wildcards for
symbols in columns where they are expanded over integers. -/
theorem matches_ofTable {form : TableForm} {columns : List (Option Domain)} {table : Table}
    {rows : List (List RowCell)} (h : ofTable form columns table = .ok rows) {values : List Value}
    (hvalues : ∀ (k : Nat) v, values[k]? = some v → Takes columns[k]?.join v) :
    Matches rows values ↔
      table.MatchesWithout (fun k => IsIntegral form columns[k]?.join) values := by
  obtain ⟨lists, hlists, rfl⟩ := Except.map_eq_ok.mp h
  rw [Except.mapM_eq_ok] at hlists
  have hrows : Matches (Ascending.ofList lists.flatten) values ↔
      ∃ rows ∈ lists, Matches rows values := by
    simp only [Matches, Ascending.mem_ofList, List.mem_flatten]
    exact ⟨fun ⟨row, ⟨rows, hrows, hrow⟩, hv⟩ => ⟨rows, hrows, row, hrow, hv⟩,
      fun ⟨rows, hrows, row, hrow, hv⟩ => ⟨row, ⟨rows, hrows, hrow⟩, hv⟩⟩
  rw [hrows, Table.MatchesWithout]
  constructor
  · rintro ⟨rows, hmem, hv⟩
    obtain ⟨tuple, htuple, hof⟩ := exists_of_forall₂_of_mem hlists hmem
    exact ⟨tuple, htuple, (matches_ofTuple hof hvalues).mp hv⟩
  · rintro ⟨tuple, htuple, hv⟩
    obtain ⟨rows, hmem, hof⟩ := exists_of_forall₂_of_mem hlists.flip htuple
    exact ⟨rows, hmem, (matches_ofTuple hof hvalues).mpr hv⟩

end Rows

end CspModel
