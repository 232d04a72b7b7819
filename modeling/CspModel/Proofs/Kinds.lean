import CspModel.Model
import CspModel.Proofs.Built

/-! # The kinds of the columns of a table

A column has the kind of the integers or of the symbols in it, and none when all it holds
are wildcards.  The kinds are found exactly when no tuple mixes them and no column has both
(`Table.columnKinds_eq_ok`, `Table.columnKinds_eq_error`), and a posted list suits them
exactly when each of its variables is of the kind of its column
(`Model.checkColumns_eq_ok_iff`).
-/
namespace CspModel

/-- Whether an error in a table is one about the kinds of its entries. -/
def TableError.isAboutKinds : TableError → Bool
  | heterogeneousTuple _ => true
  | columnKind _ => true
  | rangeTooWide _ _ => false

namespace Table

/-- The kind of the entry of a tuple at a position, if it has one. -/
def kindAt (tuple : List TableEntry) (k : Nat) : Option Kind := tuple[k]?.bind TableEntry.kind?

/-- Whether some tuple has an entry of a kind in a column. -/
def HasKind (t : Table) (k : Nat) (kind : Kind) : Prop :=
  ∃ tuple ∈ t.tuples, kindAt tuple k = some kind

@[simp] theorem kindAt_nil (k : Nat) : kindAt [] k = none := rfl

@[simp] theorem kindAt_cons_zero (entry : TableEntry) (tuple : List TableEntry) :
    kindAt (entry :: tuple) 0 = entry.kind? := rfl

@[simp] theorem kindAt_cons_succ (entry : TableEntry) (tuple : List TableEntry) (k : Nat) :
    kindAt (entry :: tuple) (k + 1) = kindAt tuple k := rfl

/-! ### One more tuple -/

/-- Columns take the kinds of a tuple in addition to their own. -/
theorem joinKinds_eq_ok {column : Nat} {known kinds : List (Option Kind)}
    {tuple : List TableEntry} (h : joinKinds column known tuple = .ok kinds) :
    kinds.length = known.length ∧ ∀ k < known.length, ∀ kind,
      kinds[k]? = some (some kind) ↔
        known[k]? = some (some kind) ∨ kindAt tuple k = some kind := by
  induction known generalizing column tuple kinds with
  | nil =>
    have h : Except.ok [] = Except.ok kinds := h
    cases h
    exact ⟨rfl, fun k hk => absurd hk (Nat.not_lt_zero k)⟩
  | cons a known ih =>
    cases tuple with
    | nil =>
      cases h
      exact ⟨rfl, fun k _ kind => by simp⟩
    | cons entry tuple =>
      have hstep : ∃ rest, joinKinds (column + 1) known tuple = .ok rest ∧
          kinds = a.or entry.kind? :: rest ∧ ∀ b ∈ a, ∀ b' ∈ entry.kind?, b = b' := by
        unfold joinKinds at h
        split at h
        · rename_i b b' ha hb
          split at h
          · rename_i heq
            obtain ⟨rest, hrest, rfl⟩ := Except.map_eq_ok.mp h
            exact ⟨rest, hrest, rfl, fun c hc c' hc' =>
              (Option.some.inj hc).symm.trans (heq.trans (Option.some.inj (hb.symm.trans hc')))⟩
          · cases h
        · rename_i b ha hb
          obtain ⟨rest, hrest, rfl⟩ := Except.map_eq_ok.mp h
          exact ⟨rest, hrest, rfl, fun c _ c' hc' => nomatch hb.symm.trans hc'⟩
        · obtain ⟨rest, hrest, rfl⟩ := Except.map_eq_ok.mp h
          exact ⟨rest, hrest, rfl, fun c hc => nomatch hc⟩
      obtain ⟨rest, hrest, rfl, hagree⟩ := hstep
      obtain ⟨hlength, hkinds⟩ := ih hrest
      refine ⟨congrArg (· + 1) hlength, fun k hk kind => ?_⟩
      cases k with
      | zero =>
        cases a with
        | none => simp
        | some b =>
          simp only [Option.some_or, List.getElem?_cons_zero, Option.some.injEq, kindAt_cons_zero]
          exact ⟨.inl, fun h => h.elim id fun h => hagree b rfl kind h⟩
      | succ k => exact hkinds k (Nat.lt_of_succ_lt_succ hk) kind

/-- A tuple is refused for an entry of another kind than its column. -/
theorem joinKinds_eq_error {column : Nat} {known : List (Option Kind)} {tuple : List TableEntry}
    {cause : TableError} (h : joinKinds column known tuple = .error cause) :
    cause.isAboutKinds = true ∧
      ∃ k a b, known[k]? = some (some a) ∧ kindAt tuple k = some b ∧ a ≠ b := by
  induction known generalizing column tuple cause with
  | nil => cases h
  | cons a known ih =>
    cases tuple with
    | nil => cases h
    | cons entry tuple =>
      have hlater : ∀ {f : List (Option Kind) → List (Option Kind)},
          (joinKinds (column + 1) known tuple).map f = .error cause →
          cause.isAboutKinds = true ∧ ∃ k b b', (a :: known)[k]? = some (some b) ∧
            kindAt (entry :: tuple) k = some b' ∧ b ≠ b' := by
        intro f h
        cases hjoin : joinKinds (column + 1) known tuple with
        | error cause' =>
          rw [hjoin] at h
          cases h
          obtain ⟨habout, k, b, b', hk, hb, hne⟩ := ih hjoin
          exact ⟨habout, k + 1, b, b', hk, hb, hne⟩
        | ok rest => rw [hjoin] at h; cases h
      unfold joinKinds at h
      split at h
      · rename_i b b' hb
        split at h
        · exact hlater h
        · rename_i hne
          cases h
          exact ⟨rfl, 0, b, b', rfl, hb, hne⟩
      · exact hlater h
      · exact hlater h

/-! ### All tuples -/

theorem kindsFrom_eq_ok {known kinds : List (Option Kind)} {tuples : List (List TableEntry)}
    (h : kindsFrom known tuples = .ok kinds) :
    (∀ tuple ∈ tuples, isHomogeneous tuple = true) ∧ kinds.length = known.length ∧
      ∀ k < known.length, ∀ kind, kinds[k]? = some (some kind) ↔
        known[k]? = some (some kind) ∨ ∃ tuple ∈ tuples, kindAt tuple k = some kind := by
  induction tuples generalizing known with
  | nil =>
    cases h
    exact ⟨fun tuple h => (nomatch h), rfl, fun k _ kind => by simp⟩
  | cons tuple tuples ih =>
    unfold kindsFrom at h
    split at h
    · rename_i hhomogeneous
      obtain ⟨joined, hjoined, h⟩ := Except.bind_eq_ok.mp h
      obtain ⟨hlength, hkinds⟩ := joinKinds_eq_ok hjoined
      obtain ⟨hall, hlength', hkinds'⟩ := ih h
      refine ⟨List.forall_mem_cons.mpr ⟨hhomogeneous, hall⟩, hlength'.trans hlength,
        fun k hk kind => ?_⟩
      rw [hkinds' k (hlength ▸ hk), hkinds k hk, or_assoc]
      simp only [List.mem_cons, exists_eq_or_imp]
    · cases h

theorem kindsFrom_eq_error {known : List (Option Kind)} {tuples : List (List TableEntry)}
    {cause : TableError} (h : kindsFrom known tuples = .error cause) :
    cause.isAboutKinds = true ∧ ((∃ tuple ∈ tuples, isHomogeneous tuple = false) ∨
      ∃ k < known.length, ∃ a b, a ≠ b ∧
        (known[k]? = some (some a) ∨ ∃ tuple ∈ tuples, kindAt tuple k = some a) ∧
        ∃ tuple ∈ tuples, kindAt tuple k = some b) := by
  induction tuples generalizing known with
  | nil => cases h
  | cons tuple tuples ih =>
    unfold kindsFrom at h
    split at h
    · cases hjoined : joinKinds 0 known tuple with
      | error cause' =>
        rw [hjoined] at h
        cases h
        obtain ⟨habout, k, a, b, ha, hb, hne⟩ := joinKinds_eq_error hjoined
        have hk : k < known.length := (List.getElem?_eq_some_iff.mp ha).1
        exact ⟨habout, .inr ⟨k, hk, a, b, hne, .inl ha, tuple, List.mem_cons_self, hb⟩⟩
      | ok joined =>
        rw [hjoined] at h
        obtain ⟨hlength, hkinds⟩ := joinKinds_eq_ok hjoined
        refine (ih h).imp_right ?_
        rintro (⟨other, hother, h⟩ | ⟨k, hk, a, b, hne, ha, other, hother, hb⟩)
        · exact .inl ⟨other, List.mem_cons_of_mem _ hother, h⟩
        · have hk : k < known.length := hlength ▸ hk
          refine .inr ⟨k, hk, a, b, hne, ?_, other, List.mem_cons_of_mem _ hother, hb⟩
          rcases ha with ha | ⟨first, hfirst, ha⟩
          · exact ((hkinds k hk a).mp ha).imp_right fun ha => ⟨tuple, List.mem_cons_self, ha⟩
          · exact .inr ⟨first, List.mem_cons_of_mem _ hfirst, ha⟩
    · rename_i hmixed
      cases h
      exact ⟨rfl, .inl ⟨tuple, List.mem_cons_self, Bool.eq_false_iff.mpr hmixed⟩⟩

/-- The kinds that are found: no tuple is mixed, and a column has the kind of every entry in
it. -/
theorem columnKinds_eq_ok {t : Table} {arity : Nat} {kinds : List (Option Kind)}
    (h : t.columnKinds arity = .ok kinds) :
    (∀ tuple ∈ t.tuples, isHomogeneous tuple = true) ∧ kinds.length = arity ∧
      ∀ k < arity, ∀ kind, kinds[k]? = some (some kind) ↔ t.HasKind k kind := by
  obtain ⟨hhomogeneous, hlength, hkinds⟩ := kindsFrom_eq_ok h
  rw [List.length_replicate] at hlength hkinds
  refine ⟨hhomogeneous, hlength, fun k hk kind => (hkinds k hk kind).trans (or_iff_right ?_)⟩
  rw [List.getElem?_replicate_of_lt hk]
  exact fun h => nomatch h

/-- No kinds are found when a tuple is mixed or a column has both kinds. -/
theorem columnKinds_eq_error {t : Table} {arity : Nat} {cause : TableError}
    (h : t.columnKinds arity = .error cause) :
    cause.isAboutKinds = true ∧ ((∃ tuple ∈ t.tuples, isHomogeneous tuple = false) ∨
      ∃ k < arity, ∃ a b, a ≠ b ∧ t.HasKind k a ∧ t.HasKind k b) := by
  refine (kindsFrom_eq_error h).imp_right fun h => h.imp_right ?_
  rintro ⟨k, hk, a, b, hne, ha, hb⟩
  rw [List.length_replicate] at hk
  refine ⟨k, hk, a, b, hne, ha.resolve_left ?_, hb⟩
  rw [List.getElem?_replicate_of_lt hk]
  exact fun h => nomatch h

/-! ### Tables of integers -/

variable {t : Table}

/-- Whether all entries are integers. -/
def Integral (t : Table) : Prop :=
  ∀ tuple ∈ t.tuples, ∀ entry ∈ tuple, entry.kind? = some .integer

theorem Integral.eq_of_hasKind (ht : t.Integral) {k : Nat} {kind : Kind} (h : t.HasKind k kind) :
    kind = .integer := by
  obtain ⟨tuple, htuple, hkind⟩ := h
  obtain ⟨entry, hentry, hkind⟩ := Option.bind_eq_some_iff.mp hkind
  rw [ht tuple htuple entry (List.mem_of_getElem? hentry)] at hkind
  exact (Option.some.inj hkind).symm

theorem Integral.isHomogeneous (ht : t.Integral) {tuple : List TableEntry}
    (htuple : tuple ∈ t.tuples) : Table.isHomogeneous tuple = true := by
  have hkinds : ∀ kind ∈ tuple.filterMap TableEntry.kind?, kind = .integer := by
    intro kind hkind
    obtain ⟨entry, hentry, hkind⟩ := List.mem_filterMap.mp hkind
    rw [ht tuple htuple entry hentry] at hkind
    exact (Option.some.inj hkind).symm
  unfold Table.isHomogeneous
  split
  · rfl
  · rename_i kind rest hlist
    rw [hlist, List.forall_mem_cons] at hkinds
    exact List.all_eq_true.mpr fun kind' hkind' =>
      beq_iff_eq.mpr ((hkinds.2 kind' hkind').trans hkinds.1.symm)

/-- The columns of a table of integers have kinds. -/
theorem Integral.exists_columnKinds (ht : t.Integral) (arity : Nat) :
    ∃ kinds, t.columnKinds arity = .ok kinds := by
  cases h : t.columnKinds arity with
  | ok kinds => exact ⟨kinds, rfl⟩
  | error cause =>
    rcases (columnKinds_eq_error h).2 with ⟨tuple, htuple, hmixed⟩ | ⟨k, -, a, b, hne, ha, hb⟩
    · rw [ht.isHomogeneous htuple] at hmixed
      cases hmixed
    · exact absurd ((ht.eq_of_hasKind ha).trans (ht.eq_of_hasKind hb).symm) hne

end Table

/-- The variables of a list are of the kinds of their columns. -/
theorem Model.checkColumns_eq_ok_iff {m : Model} {column : Nat} {list : List Expr}
    {kinds : List (Option Kind)} :
    m.checkColumns column list kinds = .ok () ↔ ∀ (k : Nat) (v : Variable) (kind : Kind),
      list[k]? = some (.var v) → kinds[k]? = some (some kind) →
      (m.store.domainOf v).kind = kind := by
  induction list generalizing column kinds with
  | nil => simp [checkColumns]
  | cons e list ih =>
    cases kinds with
    | nil => simp [checkColumns]
    | cons known kinds =>
      have hcons : (∀ (k : Nat) (v : Variable) (kind : Kind), (e :: list)[k]? = some (.var v) →
          (known :: kinds)[k]? = some (some kind) → (m.store.domainOf v).kind = kind) ↔
          (∀ (v : Variable) (kind : Kind), e = .var v → known = some kind →
            (m.store.domainOf v).kind = kind) ∧
            ∀ (k : Nat) (v : Variable) (kind : Kind), list[k]? = some (.var v) →
              kinds[k]? = some (some kind) → (m.store.domainOf v).kind = kind := by
        constructor
        · intro h
          exact ⟨fun v kind he hknown => h 0 v kind (congrArg some he) (congrArg some hknown),
            fun k => h (k + 1)⟩
        · rintro ⟨hfirst, hrest⟩ k v kind hlist hkinds
          cases k with
          | zero => exact hfirst v kind (Option.some.inj hlist) (Option.some.inj hkinds)
          | succ k => exact hrest k v kind hlist hkinds
      rw [hcons]
      unfold checkColumns
      split
      · rename_i v kind he
        have he : e = .var v := by
          cases e <;> cases he
          rfl
        subst he
        split
        · rename_i hkind
          rw [ih]
          refine (and_iff_right ?_).symm
          rintro w kind' ⟨⟩ ⟨⟩
          exact hkind
        · rename_i hkind
          exact ⟨fun h => (nomatch h), fun h => absurd (h.1 v kind rfl rfl) hkind⟩
      · rename_i hnone
        rw [ih]
        refine (and_iff_right ?_).symm
        rintro v kind rfl rfl
        exact absurd rfl (hnone v kind rfl)

end CspModel
