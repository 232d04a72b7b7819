import CspModel.Queens
import CspModel.Proofs.Addressing
import CspModel.Proofs.Refusals
import CspModel.Proofs.Satisfaction
import CspModel.Proofs.Tables

/-! # Placements of queens

Queen `i` stands in row `i`, so a placement of `n` queens is a function from rows to columns,
and the assignments within the declared domains are exactly the placements.  Both
formulations forbid for every pair of rows the columns that are as far apart as the rows:
one computes the distance, the other lists the pairs of columns on the board at that
distance.

Of a placement without an attack and its mirror image one has its first queen left of its
last one, because the two stand in different columns.
-/
namespace CspModel

/-! ### What the relations mean -/

/-- Values are different when none occurs twice, and an extension holds for what its table
allows. -/
structure Interpretation.Tabular (I : Interpretation) : Prop where
  allDifferent : ∀ values, I.allDifferent values [] ↔ values.Nodup
  extension : ∀ table values, I.extension table values ↔ table.Allows values

/-- The constraints that are only there to exclude symmetric solutions. -/
def Model.symmetryBreaking (m : Model) : List Posting :=
  m.postings.filter fun p => p.decoration.classes.contains .symmetryBreaking

namespace Queens

/-- The variable of the queen in a row. -/
def queen (i : Nat) : Variable := ⟨0, i⟩

/-! ### Placements -/

/-- The columns of the queens. -/
def Placement (n : Nat) := Fin n → Fin n

namespace Placement

variable {n : Nat} (c : Placement n)

/-- Whether the queens of two rows share a column or a diagonal. -/
def Attack (i j : Fin n) : Prop :=
  c i = c j ∨ ((c i : Int) - c j).natAbs = ((i : Int) - j).natAbs

/-- Whether no two queens attack each other. -/
def Peaceful : Prop := ∀ i j, i ≠ j → ¬c.Attack i j

/-- Whether the first queen stands left of the last one. -/
def Leftward (h : 2 < n) : Prop := c ⟨0, by omega⟩ < c ⟨n - 1, by omega⟩

/-- The board reflected left to right. -/
def mirror : Placement n := fun i => (c i).rev

/-- Whether an assignment puts the queens where the placement does. -/
def ShownBy (ρ : Assignment) : Prop := ∀ i : Fin n, ρ (queen i) = .integer (c i : Nat)

instance (i j : Fin n) : Decidable (c.Attack i j) := inferInstanceAs (Decidable (_ ∨ _))

instance : Decidable c.Peaceful := inferInstanceAs (Decidable (∀ _, _))

instance (h : 2 < n) : Decidable (c.Leftward h) := inferInstanceAs (Decidable (_ < _))

variable {c}

/-- It is enough to look at every pair of rows once. -/
theorem peaceful_iff : c.Peaceful ↔ Function.Injective c ∧
    ∀ i j : Fin n, i < j → ((c i : Int) - c j).natAbs ≠ (j : Nat) - i := by
  constructor
  · intro hc
    refine ⟨fun i j heq => ?_, fun i j hij hdistance => ?_⟩
    · by_contra hij
      exact hc i j hij (.inl heq)
    · exact hc i j (Fin.ne_of_lt hij) (.inr (by omega))
  · rintro ⟨hinjective, hdistances⟩ i j hij (heq | hdistance)
    · exact hij (hinjective heq)
    · rcases Fin.lt_or_lt_of_ne hij with hlt | hlt
      · exact hdistances i j hlt (by omega)
      · exact hdistances j i hlt (by omega)

theorem Attack.mirror_iff {i j : Fin n} : c.mirror.Attack i j ↔ c.Attack i j := by
  simp only [Attack, mirror, Fin.rev_inj, Fin.val_rev]
  omega

theorem peaceful_mirror : c.mirror.Peaceful ↔ c.Peaceful := by
  simp only [Peaceful, Attack.mirror_iff]

/-- One of a placement without an attack and its mirror image begins on the left. -/
theorem Peaceful.leftward_mirror (hc : c.Peaceful) (h : 2 < n) :
    c.mirror.Leftward h ↔ ¬c.Leftward h := by
  have hne : c ⟨0, by omega⟩ ≠ c ⟨n - 1, by omega⟩ := fun heq =>
    hc _ _ (by simp; omega) (.inl heq)
  simp only [Leftward, mirror, Fin.rev_lt_rev]
  omega

end Placement

/-! ### Attacking columns -/

theorem mem_rowPairs {n i j : Nat} : (i, j) ∈ rowPairs n ↔ i < j ∧ j < n := by
  simp only [rowPairs, List.mem_flatMap, List.mem_map, List.mem_range, Prod.mk.injEq]
  constructor
  · rintro ⟨_, hi, k, hk, rfl, rfl⟩
    omega
  · rintro ⟨hij, hj⟩
    exact ⟨i, by omega, j - (i + 1), by omega, rfl, by omega⟩

/-- The attacking columns are those on the board that are as far apart as the rows. -/
theorem mem_attacks {n distance : Nat} {a b : Int} :
    (a, b) ∈ attacks n distance ↔
      (0 ≤ a ∧ a < n) ∧ (0 ≤ b ∧ b < n) ∧ (a - b).natAbs = distance := by
  simp only [attacks, List.mem_flatMap, List.mem_map, List.mem_range, List.mem_filter,
    List.mem_cons, List.not_mem_nil, or_false, Bool.and_eq_true, decide_eq_true_eq, Prod.mk.injEq]
  constructor
  -- the column of the other queen lies on either side
  · rintro ⟨k, hk, b', ⟨hb' | hb', hboard⟩, rfl, rfl⟩ <;> omega
  · rintro ⟨ha, hb, hdistance⟩
    exact ⟨a.toNat, by omega, b, ⟨by omega, by omega⟩, by omega, rfl⟩

/-! ### What is posted for a pair of queens -/

section
variable {I : Interpretation} {ρ : Assignment} {x y : Variable} {a b : Int}

/-- The table of the columns of two queens that attack each other. -/
def attackTable (n distance : Nat) : Table :=
  ⟨.conflicts, (attacks n distance).map fun (a, b) => [.integer a, .integer b]⟩

/-- The constraint posted for a pair of queens. -/
def Formulation.constraint (n : Nat) (x y : Variable) (distance : Nat) : Formulation → Constraint
  | intension => .relation (.intension (apart x y distance))
  | table => .relation (.extension [.var x, .var y] (attackTable n distance))

theorem holds_apart (hx : ρ x = .integer a) (hy : ρ y = .integer b) (distance : Nat) :
    (Relation.intension (apart x y distance)).Holds I ρ ↔ (a - b).natAbs ≠ distance := by
  have hdist : (Expr.binary .dist (.var x) (.var y)).read .exact ρ =
      some (.value (.integer (a - b).natAbs)) :=
    Expr.read_binary rfl (Expr.read_var hx) (Expr.read_var hy)
  have hne : Calculus.exact.apply .ne
      [.value (.integer (a - b).natAbs), .value (.integer distance)] =
      some (Operator.truth (!decide ((a - b).natAbs = distance))) := by
    simp [Calculus.apply, Operand.value?, Operator.allDistinct, -Nat.cast_natAbs]
  rw [apart, Relation.holds_binary rfl hdist rfl hne]
  simp

theorem holds_less (hx : ρ x = .integer a) (hy : ρ y = .integer b) :
    (Relation.intension (.binary .lt (.var x) (.var y))).Holds I ρ ↔ a < b := by
  have hlt : Calculus.exact.apply .lt [.value (.integer a), .value (.integer b)] =
      some (Operator.truth (decide (a < b))) := rfl
  rw [Relation.holds_binary rfl (Expr.read_var hx) (Expr.read_var hy) hlt, decide_eq_true_iff]

/-- The values of two queens match the table when they attack each other. -/
theorem matches_attackTable {n distance : Nat} :
    (attackTable n distance).Matches [.integer a, .integer b] ↔ (a, b) ∈ attacks n distance := by
  simp only [Table.Matches, attackTable, List.mem_map, Prod.exists]
  constructor
  · rintro ⟨_, ⟨a', b', hmem, rfl⟩, hmatches⟩
    simp only [List.forall₂_cons, List.Forall₂.nil, and_true, TableEntry.Matches,
      Value.integer.injEq] at hmatches
    rwa [hmatches.1, hmatches.2]
  · exact fun hmem => ⟨_, ⟨a, b, hmem, rfl⟩, .cons rfl (.cons rfl .nil)⟩

/-- Both formulations keep two queens on the board off the diagonals. -/
theorem Formulation.holds_constraint (hI : I.Tabular) (f : Formulation) {n distance : Nat}
    (hx : ρ x = .integer a) (hy : ρ y = .integer b) (ha : 0 ≤ a ∧ a < n) (hb : 0 ≤ b ∧ b < n) :
    (f.constraint n x y distance).Holds I ρ ↔ (a - b).natAbs ≠ distance := by
  cases f with
  | intension =>
    rw [Formulation.constraint, Constraint.Holds]
    exact holds_apart hx hy distance
  | table =>
    have hvalues : Expr.values? .exact ρ [.var x, .var y] = some [.integer a, .integer b] := by
      simp [Expr.values?_eq_mapM, Expr.value?, Expr.read_var hx, Expr.read_var hy, Operand.value?]
    simp only [Formulation.constraint, Constraint.Holds, Relation.Holds, hvalues,
      Option.some.injEq, exists_eq_left', hI.extension]
    show ¬(attackTable n distance).Matches _ ↔ _
    rw [matches_attackTable, mem_attacks]
    exact not_congr (by simp [ha, hb])

/-! ### What can be posted -/

theorem integral_attackTable (n distance : Nat) : (attackTable n distance).Integral := by
  intro tuple htuple entry hentry
  obtain ⟨⟨a, b⟩, -, rfl⟩ := List.mem_map.mp htuple
  rcases List.mem_pair.mp hentry with rfl | rfl <;> rfl

/-- What is posted for a pair of queens is one constraint. -/
theorem exists_diagonal (f : Formulation) (n : Nat) (x y : Variable) (distance : Nat) :
    ∃ item, diagonal n f x y distance = .ok item ∧
      item.flatten = .ok [f.constraint n x y distance] := by
  cases f with
  | intension => exact ⟨_, rfl, rfl⟩
  | table =>
    refine ⟨.constraint (.relation (.extension [.var x, .var y] (attackTable n distance))), ?_, rfl⟩
    obtain ⟨kinds, hkinds⟩ := (integral_attackTable n distance).exists_columnKinds 2
    have hpairs : (attackTable n distance).tuples.find? (·.length != 2) = none := by
      simp [attackTable, List.find?_eq_none]
    show (Constraint.extension _ (attackTable n distance)).map Item.constraint = _
    simp [Constraint.extension, Aggregate.nonEmpty, hpairs, hkinds, Except.map, bind, Except.bind]

/-- What is posted for two queens of a store is accepted. -/
theorem Formulation.not_flawed (f : Formulation) {s : Store} (n distance : Nat)
    (hqueens : ∀ v ∈ [x, y], v.model = s.model ∧ (s.domainOf v).kind = .integer) :
    ¬(f.constraint n x y distance).Flawed s := by
  cases f with
  | intension =>
    rw [Formulation.constraint, Item.flawed_intension_iff]
    rintro ⟨v, hv, hforeign⟩
    exact hforeign (hqueens v hv).1
  | table =>
    rintro (⟨he, hv, hforeign⟩ | hunsuited)
    · obtain ⟨w, hw, rfl⟩ := List.mem_map.mp (show _ ∈ [x, y].map Expr.var from he)
      rw [List.mem_singleton.mp hv] at hforeign
      exact hforeign (hqueens w hw).1
    · refine (integral_attackTable n distance).not_unsuited (fun v hv => ?_) hunsuited
      obtain ⟨w, hw, ⟨⟩⟩ := List.mem_map.mp (show _ ∈ [x, y].map Expr.var from hv)
      exact (hqueens v hw).2

end

/-! ### The array of queens -/

/-- What is known of a store once the queens are declared, and nothing else. -/
structure Declared (n : Nat) (q : VarArray) (s : Store) : Prop where
  model : s.model = 0
  array : s.arrayNamed? "q" = some q
  cells : q.cells = (List.range n).map queen
  get : ∀ i < n, q.get? [i] = some (queen i)
  declares : ∀ v, s.Declares v ↔ ∃ i < n, v = queen i
  domainOf : ∀ i < n, s.domainOf (queen i) = .ofRuns [(0, (n : Int) - 1)]

section
variable {n : Nat} {q : VarArray} {s : Store}

theorem ofSpec_columns (hn : 2 ≤ n) :
    Domain.ofSpec (.halfOpen 0 n) = .ok (.ofRuns [(0, (n : Int) - 1)]) := by
  have hruns : (DomainSpec.halfOpen 0 n).runs = [(0, (n : Int) - 1)] := by
    rw [DomainSpec.halfOpen, if_neg (by omega), DomainSpec.runs, if_neg (by omega),
      if_pos (Nat.le_refl 1)]
  have hsymbols : (DomainSpec.halfOpen 0 n).symbols = [] := by
    rw [DomainSpec.halfOpen, if_neg (by omega), DomainSpec.symbols]
  rw [Domain.ofSpec, hruns, hsymbols]

/-- The values of a queen are the columns. -/
theorem holds_columns (hn : 0 < n) {v : Value} :
    (Domain.ofRuns [(0, (n : Int) - 1)]).Holds v ↔ ∃ k : Fin n, v = .integer (k : Nat) := by
  cases v with
  | symbol text => simp [Domain.Holds, Domain.containsSymbol, Domain.symbols_ofRuns]
  | integer a =>
    rw [Domain.Holds, Domain.contains_ofRuns (by simp; omega)]
    simp only [List.mem_singleton, exists_eq_left, Value.integer.injEq, InRange]
    constructor
    · rintro ⟨hlower, hupper⟩
      exact ⟨⟨a.toNat, by omega⟩, by simp; omega⟩
    · rintro ⟨k, rfl⟩
      omega

/-- The array is declared, and holds the first variables of the store. -/
theorem exists_declared (hn : 2 ≤ n) :
    ∃ q s, Store.declareArray { model := 0 } (some "q") [n]
      (fun _ => some (.ofRuns [(0, (n : Int) - 1)])) = .ok (q, s) ∧ Declared n q s := by
  have hshape : VarArray.checkShape [n] = .ok () := by
    have hn : n ≠ 0 := by omega
    simp [VarArray.checkShape, List.findIdx?_cons, hn]
  have hname : Store.nameArray { model := 0 } (some "q") = .ok ("q", { model := 0 }) := by
    cbv
  have hvolume : Grid.volume [n] = n := Nat.mul_one n
  have hnext : ({ model := 0 } : Store).infos.size = 0 := rfl
  obtain ⟨s, hdeclare, hsize⟩ :=
    Store.declareArray_const hshape hname (.ofRuns [(0, (n : Int) - 1)])
  simp only [hvolume, hnext, Nat.zero_add] at hdeclare hsize
  have hmodel : s.model = 0 := (Store.grows_declareArray hdeclare).model
  have hconsistent : s.Consistent (· = .ofRuns [(0, (n : Int) - 1)]) :=
    Store.consistent_declareArray (Store.consistent_new _ 0)
      (fun _ _ h => (Option.some.inj h).symm) hdeclare
  have hdeclares : ∀ v, s.Declares v ↔ ∃ i < n, v = queen i := by
    intro v
    rw [Store.Declares, hmodel, hsize]
    constructor
    · rintro ⟨hv, hlt⟩
      exact ⟨v.index, hlt, by rw [queen, ← hv]⟩
    · rintro ⟨i, hi, rfl⟩
      exact ⟨rfl, hi⟩
  refine ⟨_, s, hdeclare, hmodel, ?_, ?_, fun i hi => ?_, hdeclares, fun i hi => ?_⟩
  · exact (Store.Built.new 0).inventory.arrayNamed?_declareArray hdeclare
  · simp [VarArray.cells, List.filterMap_map, queen]
  · simp [VarArray.get?, Grid.position?, Grid.positionFrom, hi, queen]
  · exact hconsistent.domainOf ((hdeclares _).mpr ⟨i, hi, rfl⟩)

/-- The assignments within the domains are the placements. -/
theorem Declared.within_iff (hs : Declared n q s) {ρ : Assignment} :
    s.Within ρ ↔ ∃ c : Placement n, c.ShownBy ρ := by
  constructor
  · intro hρ
    have hcolumn : ∀ i : Fin n, ∃ k : Fin n, ρ (queen i) = .integer (k : Nat) := by
      intro i
      have hholds := hρ (queen i) ((hs.declares _).mpr ⟨i, i.isLt, rfl⟩)
      rw [hs.domainOf i i.isLt] at hholds
      exact (holds_columns i.pos).mp hholds
    choose c hc using hcolumn
    exact ⟨c, hc⟩
  · rintro ⟨c, hc⟩ v hv
    obtain ⟨i, hi, rfl⟩ := (hs.declares v).mp hv
    rw [hs.domainOf i hi]
    exact (holds_columns (Nat.zero_lt_of_lt hi)).mpr ⟨c ⟨i, hi⟩, hc ⟨i, hi⟩⟩

/-! ### The model -/

/-- The queens stand in different columns. -/
def different (n : Nat) : Constraint :=
  .relation (.allDifferent ((List.range n).map fun i => .var (queen i)) [])

/-- No two queens stand on a diagonal. -/
def offDiagonals (n : Nat) (f : Formulation) : List Constraint :=
  (rowPairs n).map fun (i, j) => f.constraint n (queen i) (queen j) (j - i)

/-- The first queen stands left of the last one. -/
def less (n : Nat) : Constraint :=
  .relation (.intension (.binary .lt (.var (queen 0)) (.var (queen (n - 1)))))

/-- What excludes the mirror images. -/
def breaking (n : Nat) : List Posting :=
  if 2 < n then [⟨.single (less n), { classes := [.symmetryBreaking] }⟩] else []

/-- All that is posted. -/
def postings (n : Nat) (f : Formulation) : List Posting :=
  ⟨.single (different n), {}⟩ ::
  ⟨.gather (offDiagonals n f), { note := some "queens on a diagonal" }⟩ ::
  breaking n

/-- Every pair of rows gives one constraint. -/
theorem exists_items (hs : Declared n q s) (f : Formulation) :
    ∃ items, diagonals n f q = .ok items ∧
      Item.flattenAll items = .ok (offDiagonals n f) := by
  -- every row has its queen, so no pair is left out
  have hpairs : ((rowPairs n).filterMap fun (i, j) => do
      let x ← q.get? [i]
      let y ← q.get? [j]
      return diagonal n f x y (j - i)) =
      (rowPairs n).map fun (i, j) => diagonal n f (queen i) (queen j) (j - i) := by
    rw [← List.filterMap_eq_map]
    refine List.filterMap_congr fun (i, j) hpair => ?_
    obtain ⟨hij, hj⟩ := mem_rowPairs.mp hpair
    simp [hs.get i (Nat.lt_trans hij hj), hs.get j hj]
  rw [diagonals, hpairs, offDiagonals]
  induction rowPairs n with
  | nil => exact ⟨[], rfl, rfl⟩
  | cons pair rest ih =>
    obtain ⟨items, hitems, hrest⟩ := ih
    obtain ⟨item, hitem, hfirst⟩ :=
      exists_diagonal f n (queen pair.1) (queen pair.2) (pair.2 - pair.1)
    refine ⟨item :: items, ?_, ?_⟩
    · simp [hitem, hitems, bind, Except.bind, pure, Except.pure]
    · rw [Item.flattenAll, hfirst, hrest]
      rfl

/-- Declared queens can stand in a table of integers. -/
theorem Declared.suits (hs : Declared n q s) {i : Nat} (hi : i < n) :
    (queen i).model = s.model ∧ (s.domainOf (queen i)).kind = .integer := by
  refine ⟨hs.model.symm, ?_⟩
  rw [hs.domainOf i hi]
  exact Domain.kind_ofRuns _

theorem Declared.not_flawed_different (hs : Declared n q s) : ¬(different n).Flawed s := by
  rintro (⟨he, hv, hforeign⟩ | ⟨⟨⟩⟩)
  obtain ⟨i, -, rfl⟩ := List.mem_map.mp (show _ ∈ (List.range n).map _ from he)
  rw [List.mem_singleton.mp hv] at hforeign
  exact hforeign hs.model.symm

theorem Declared.not_flawed_offDiagonals (hs : Declared n q s) (f : Formulation) :
    ∀ c ∈ offDiagonals n f, ¬c.Flawed s := by
  intro c hc
  obtain ⟨⟨i, j⟩, hpair, rfl⟩ := List.mem_map.mp hc
  obtain ⟨hij, hj⟩ := mem_rowPairs.mp hpair
  refine f.not_flawed n (j - i) fun v hv => ?_
  rcases List.mem_pair.mp hv with rfl | rfl
  · exact hs.suits (Nat.lt_trans hij hj)
  · exact hs.suits hj

theorem Declared.not_flawed_less (hs : Declared n q s) : ¬(less n).Flawed s := by
  rw [less, Item.flawed_intension_iff]
  rintro ⟨v, hv, hforeign⟩
  rcases List.mem_pair.mp hv with rfl | rfl
  · exact hforeign hs.model.symm
  · exact hforeign hs.model.symm

theorem breakSymmetry_eq_ok {m : Model} (hn : 2 < n)
    (hs : Declared n q m.store) (hopen : m.frozen = false) :
    breakSymmetry q m = .ok { m with postings := m.postings ++ breaking n } := by
  have hfirst : q.cells.head? = some (queen 0) := by
    simp [hs.cells, List.head?_range, Nat.ne_of_gt (Nat.zero_lt_of_lt hn)]
  have hlast : q.cells.getLast? = some (queen (n - 1)) := by
    simp [hs.cells, List.getLast?_range, Nat.ne_of_gt (Nat.zero_lt_of_lt hn)]
  have hpost : m.post (.expression (.binary .lt (.var (queen 0)) (.var (queen (n - 1)))))
      { classes := [.symmetryBreaking] } =
      .ok ({ m with postings := m.postings ++ breaking n }, []) := by
    rw [breaking, if_pos hn]
    exact Model.post_eq_ok hopen rfl (List.cons_ne_nil _ _)
      (List.forall_mem_singleton.mpr hs.not_flawed_less) _
  simp only [breakSymmetry, hfirst, hlast, hpost]
  rfl

/-- The model is built, and its constraints are those above. -/
theorem exists_store (hn : 2 ≤ n) :
    ∃ q s, Declared n q s ∧ ∀ f, model n f = .ok
      { Model.empty 0 ⟨"queens", f.variant, [toString n]⟩ with
        store := s, postings := postings n f } := by
  obtain ⟨q, s, hdeclare, hs⟩ := exists_declared hn
  refine ⟨q, s, hs, fun f => ?_⟩
  obtain ⟨items, hitems, hflatten⟩ := exists_items hs f
  let m : Model := { Model.empty 0 ⟨"queens", f.variant, [toString n]⟩ with store := s }
  have hadd : (Model.empty 0 ⟨"queens", f.variant, [toString n]⟩).addArray (some "q") [n]
      (fun _ => some (.ofRuns [(0, (n : Int) - 1)])) = .ok (q, m) := by
    rw [Model.addArray_eq]
    exact Except.bind_eq_ok.mpr ⟨(), rfl, Except.bind_eq_ok.mpr ⟨(q, s), hdeclare, rfl⟩⟩
  have hdifferent : Constraint.allDifferent (q.cells.map .var) [] = .ok (different n) := by
    have hne : ¬n = 0 := by omega
    simp [Constraint.allDifferent, Aggregate.nonEmpty, hs.cells, hne, different, Except.map,
      Ascending.ofList, Ascending.dropRepeats]
  have hpairs : offDiagonals n f ≠ [] :=
    List.ne_nil_of_mem (List.mem_map_of_mem (mem_rowPairs.mpr ⟨Nat.zero_lt_one, hn⟩))
  let m' : Model := { m with postings := [⟨.single (different n), {}⟩] }
  have hfirst : m.post (.constraint (different n)) {} = .ok (m', []) :=
    Model.post_eq_ok rfl rfl (List.cons_ne_nil _ _)
      (List.forall_mem_singleton.mpr hs.not_flawed_different) {}
  let m'' : Model := { m' with postings := m'.postings ++
    [⟨.gather (offDiagonals n f), { note := some "queens on a diagonal" }⟩] }
  have hsecond : m'.post (.list items) { note := some "queens on a diagonal" } = .ok (m'', []) :=
    Model.post_eq_ok rfl (show (Item.list items).flatten = _ from hflatten) hpairs
      (hs.not_flawed_offDiagonals f) _
  simp only [model, ofSpec_columns hn, Except.mapError, hadd, hdifferent, hfirst, hitems, hsecond,
    bind, Except.bind]
  by_cases hlarge : 2 < n
  · rw [if_pos hlarge, breakSymmetry_eq_ok hlarge hs rfl]
    rfl
  · rw [if_neg hlarge, postings, breaking, if_neg hlarge]
    rfl

end

/-! ### Which placements satisfy it -/

section
variable {n : Nat} {I : Interpretation} {ρ σ : Assignment} {c : Placement n}

theorem holds_different (hI : I.Tabular) (hc : c.ShownBy ρ) :
    (different n).Holds I ρ ↔ Function.Injective c := by
  have hvalues : Expr.values? .exact ρ ((List.range n).map fun i => .var (queen i)) =
      some ((List.finRange n).map fun i => .integer (c i : Nat)) := by
    rw [Expr.values?_eq_mapM, mapM_eq_some_iff, ← List.map_coe_finRange_eq_range, List.map_map,
      List.forall₂_map_left_iff, List.forall₂_map_right_iff, List.forall₂_same]
    intro i _
    simp [Expr.value?, Expr.read_var (hc i), Operand.value?]
  simp only [different, Constraint.Holds, Relation.Holds, hvalues, Option.some.injEq,
    exists_eq_left', hI.allDifferent]
  rw [List.nodup_map_iff_inj_on (List.nodup_finRange n)]
  constructor
  · intro h i j heq
    exact h i (List.mem_finRange i) j (List.mem_finRange j) (by rw [heq])
  · intro h i _ j _ heq
    exact h (Fin.ext (by simpa using heq))

theorem holds_offDiagonals (hI : I.Tabular) (hc : c.ShownBy ρ) (f : Formulation) :
    (∀ d ∈ offDiagonals n f, d.Holds I ρ) ↔
      ∀ i j : Fin n, i < j → ((c i : Int) - c j).natAbs ≠ (j : Nat) - i := by
  have hpair : ∀ i j : Fin n, (f.constraint n (queen i) (queen j) (j - i)).Holds I ρ ↔
      ((c i : Int) - c j).natAbs ≠ (j : Nat) - i := fun i j =>
    f.holds_constraint hI (hc i) (hc j) (by omega) (by omega)
  simp only [offDiagonals, List.forall_mem_map, Prod.forall, mem_rowPairs]
  constructor
  · intro h i j hij
    exact (hpair i j).mp (h i j ⟨hij, j.isLt⟩)
  · rintro h i j ⟨hij, hj⟩
    exact (hpair ⟨i, Nat.lt_trans hij hj⟩ ⟨j, hj⟩).mpr (h _ _ hij)

theorem holds_breaking (hc : c.ShownBy ρ) :
    Posting.AllHold I ρ (breaking n) ↔ ∀ h : 2 < n, c.Leftward h := by
  by_cases hlarge : 2 < n
  · have hfirst := hc ⟨0, by omega⟩
    have hlast := hc ⟨n - 1, by omega⟩
    have hless : (less n).Holds I ρ ↔ c.Leftward hlarge := by
      rw [less, Constraint.Holds, holds_less hfirst hlast, Placement.Leftward, Fin.lt_def]
      omega
    rw [breaking, if_pos hlarge]
    simp [Posting.AllHold, Body.constraints, hless, hlarge]
  · rw [breaking, if_neg hlarge]
    simp [Posting.AllHold, hlarge]

theorem holds_postings (hI : I.Tabular) (hc : c.ShownBy ρ) (f : Formulation) :
    Posting.AllHold I ρ (postings n f) ↔ c.Peaceful ∧ ∀ h : 2 < n, c.Leftward h := by
  rw [postings, Posting.allHold_cons, Posting.allHold_cons, holds_breaking hc,
    Placement.peaceful_iff, and_assoc]
  simp only [Body.constraints, List.forall_mem_singleton, holds_different hI hc,
    holds_offDiagonals hI hc]

end

/-- What a model of the problem states. -/
structure States (I : Interpretation) (n : Nat) (m : Model) : Prop where
  /-- The queens are the cells of the array. -/
  queens : ∀ i < n, (m.store.arrayNamed? "q").bind (·.get? [i]) = some (queen i)
  /-- They take the columns of the board. -/
  within : ∀ ρ, m.store.Within ρ ↔ ∃ c : Placement n, c.ShownBy ρ
  /-- The constraints hold for the placements without an attack that begin on the left. -/
  holds : ∀ (c : Placement n) ρ, c.ShownBy ρ →
    (Posting.AllHold I ρ m.postings ↔ c.Peaceful ∧ ∀ h : 2 < n, c.Leftward h)
  /-- Of a placement without an attack and its mirror image one is excluded. -/
  mirrored : 2 < n → ∀ c : Placement n, c.Peaceful → c.mirror.Peaceful ∧
    ∀ ρ σ, c.ShownBy ρ → c.mirror.ShownBy σ →
      Xor (Posting.AllHold I ρ m.symmetryBreaking) (Posting.AllHold I σ m.symmetryBreaking)
  /-- Every solution is as good as any other. -/
  objective : m.objective = none

theorem filter_postings (n : Nat) (f : Formulation) :
    (postings n f).filter (fun p => p.decoration.classes.contains .symmetryBreaking) =
      breaking n := by
  unfold postings breaking
  split <;> rfl

/-- Whatever the formulation is, the model states the problem. -/
theorem Declared.states {n : Nat} {q : VarArray} {s : Store} (hs : Declared n q s)
    {I : Interpretation} (hI : I.Tabular) (f : Formulation) (name : InstanceName) :
    States I n { Model.empty 0 name with store := s, postings := postings n f } where
  queens i hi := by
    rw [hs.array, Option.bind_some, hs.get i hi]
  within _ := hs.within_iff
  holds c ρ hc := holds_postings hI hc f
  mirrored hlarge c hpeaceful := by
    refine ⟨Placement.peaceful_mirror.mpr hpeaceful, fun ρ σ hρ hσ => ?_⟩
    -- each of the two is accepted when it begins on the left, which just one of them does
    rw [Model.symmetryBreaking, filter_postings, holds_breaking hρ, holds_breaking hσ]
    have hmirror := hpeaceful.leftward_mirror hlarge
    by_cases hleft : c.Leftward hlarge
    · exact .inl ⟨fun _ => hleft, fun h => hmirror.mp (h hlarge) hleft⟩
    · exact .inr ⟨fun _ => hmirror.mpr hleft, fun h => hleft (h hlarge)⟩
  objective := rfl

/-- Both formulations state the problem, and the same of every placement. -/
theorem formulations_agree {n : Nat} (hn : 2 ≤ n) {I : Interpretation} (hI : I.Tabular) :
    ∃ byDistance byTable, model n .intension = .ok byDistance ∧ model n .table = .ok byTable ∧
      States I n byDistance ∧ States I n byTable ∧ byTable.store = byDistance.store ∧
      ∀ ρ, byDistance.store.Within ρ → (Posting.AllHold I ρ byDistance.postings ↔
        Posting.AllHold I ρ byTable.postings) := by
  obtain ⟨q, s, hs, hmodel⟩ := exists_store hn
  refine ⟨_, _, hmodel .intension, hmodel .table, hs.states hI _ _, hs.states hI _ _, rfl, ?_⟩
  intro ρ hρ
  obtain ⟨c, hc⟩ := hs.within_iff.mp hρ
  exact (holds_postings hI hc .intension).trans (holds_postings hI hc .table).symm

namespace FourQueens

/-- Lists are different when what is not excepted is, tables mean what they allow, and all
else holds. -/
def interpretation : Interpretation :=
  { (default : Interpretation) with
    extension := Table.Allows
    allDifferent := fun values except =>
      (values.filter fun v => !(except.map Value.integer).contains v).Nodup }

theorem tabular_interpretation : interpretation.Tabular where
  allDifferent values := by simp [interpretation]
  extension _ _ := Iff.rfl

/-- A solution that begins on the left. -/
def solution : Placement 4 := ![1, 3, 0, 2]

/-- Four queens on the long diagonal. -/
def onDiagonal : Placement 4 := ![0, 1, 2, 3]

/-- The queens where a placement has them. -/
def shown (c : Placement 4) : Assignment := fun v => .integer (c (Fin.ofNat 4 v.index) : Nat)

theorem shownBy_shown (c : Placement 4) : c.ShownBy (shown c) := by
  intro i
  simp [shown, queen]

/-- On the board with four columns the solution is accepted, and its mirror image is not. -/
theorem four_queens_agree : 2 ≤ 4 ∧ interpretation.Tabular ∧
    ∃ byDistance byTable, model 4 .intension = .ok byDistance ∧ model 4 .table = .ok byTable ∧
      Posting.AllHold interpretation (shown solution) byDistance.postings ∧
      Posting.AllHold interpretation (shown solution) byTable.postings ∧
      ¬Posting.AllHold interpretation (shown solution.mirror) byTable.postings ∧
      ¬Posting.AllHold interpretation (shown onDiagonal) byDistance.postings := by
  have hn : 2 ≤ 4 := by decide
  obtain ⟨byDistance, byTable, hdistance, htable, hstates, hstates', -⟩ :=
    formulations_agree hn tabular_interpretation
  have hsolves : solution.Peaceful ∧ ∀ h : 2 < 4, solution.Leftward h := by decide
  refine ⟨hn, tabular_interpretation, byDistance, byTable, hdistance, htable, ?_, ?_, ?_, ?_⟩
  · exact (hstates.holds _ _ (shownBy_shown solution)).mpr hsolves
  · exact (hstates'.holds _ _ (shownBy_shown solution)).mpr hsolves
  · rw [hstates'.holds _ _ (shownBy_shown solution.mirror)]
    decide
  · rw [hstates.holds _ _ (shownBy_shown onDiagonal)]
    decide

end FourQueens

end Queens
end CspModel
