import CspModel.Proofs.Atomicity
import CspModel.Proofs.Representation
import CspModel.Proofs.RowMajor
import CspModel.Proofs.Suited
import CspModel.Proofs.Worlds

/-! # What an array holds

The domains of an array are answers: the declaration asks about every index tuple of the
shape, once and in row-major order, and the function it asks may remember what it was asked
(`Store.run_declareArrayAsking`).  So a declaration that asks is one by a table of answers.

From then on the array holds what was answered (`Store.Arranges`).  Under an index tuple
lies the one variable whose name carries the tuple, with the domain that was answered for
it, or nothing if no domain was.  Later calls change nothing of this, because a model keeps
the names and the domains of its variables (`Model.retains_after`).
-/
namespace CspModel

/-! ### Answers -/

section Asking

variable {σ α β : Type}

theorem run_mapM_cons (ask : α → StateM σ β) (a : α) (as : List α) (start : σ) :
    ((a :: as).mapM ask).run start =
      let (b, middle) := (ask a).run start
      let (bs, finish) := (as.mapM ask).run middle
      (b :: bs, finish) := by
  rw [List.mapM_cons]
  rfl

/-- There are as many answers as questions. -/
theorem length_run_mapM (ask : α → StateM σ β) (as : List α) (start : σ) :
    ((as.mapM ask).run start).1.length = as.length := by
  induction as generalizing start with
  | nil => rfl
  | cons a as ih =>
    rw [run_mapM_cons]
    exact congrArg (· + 1) (ih _)

end Asking

namespace Store

variable {s s' t : Store}

section Asking

variable {σ : Type} {name : String} {key : Nat} {ask : List Nat → StateM σ (Option Domain)}
  {tuple : List Nat} {position : Nat} {rest : List (List Nat × Nat)} {start middle : σ}

/-- A cell without a domain is a hole, and the rest is asked about in the state that the
answer leaves. -/
theorem run_addCellsAsking_none (h : (ask tuple).run start = (none, middle)) :
    (addCellsAsking name key ask ((tuple, position) :: rest) s).run start =
      let (added, finish) := (addCellsAsking name key ask rest s).run middle
      ((none :: added.1, added.2), finish) := by
  rw [addCellsAsking, StateT.run_bind, h]
  rfl

theorem run_addCellsAsking_some {d : Domain} {v : Variable}
    (h : (ask tuple).run start = (some d, middle))
    (hadd : s.addVariable (VarArray.cellName name tuple) d (some ⟨key, position⟩) = (v, t)) :
    (addCellsAsking name key ask ((tuple, position) :: rest) s).run start =
      let (added, finish) := (addCellsAsking name key ask rest t).run middle
      ((some v :: added.1, added.2), finish) := by
  obtain ⟨rfl, rfl⟩ := Prod.mk.inj hadd.symm
  rw [addCellsAsking, StateT.run_bind, h]
  rfl

/-- Cells whose domains are asked for are those of a table of the answers. -/
theorem run_addCellsAsking (name : String) (key : Nat) {domainAt : List Nat → Option Domain}
    {cells : List (List Nat × Nat)}
    (h : (((cells.map Prod.fst).mapM ask).run start).1 = (cells.map Prod.fst).map domainAt) :
    (addCellsAsking name key ask cells s).run start =
      (addCells name key domainAt cells s, (((cells.map Prod.fst).mapM ask).run start).2) := by
  induction cells generalizing s start with
  | nil => rfl
  | cons cell rest ih =>
    obtain ⟨tuple, position⟩ := cell
    rcases hask : (ask tuple).run start with ⟨answer, middle⟩
    rw [List.map_cons, run_mapM_cons, hask] at h ⊢
    obtain ⟨hanswer, hrest⟩ : answer = domainAt tuple ∧
        (((rest.map Prod.fst).mapM ask).run middle).1 = (rest.map Prod.fst).map domainAt :=
      List.cons.inj h
    cases answer with
    | none =>
      rw [run_addCellsAsking_none hask, ih hrest, addCells_cons, ← hanswer]
      rfl
    | some d =>
      rcases hadd : s.addVariable (VarArray.cellName name tuple) d (some ⟨key, position⟩)
        with ⟨v, t⟩
      rw [run_addCellsAsking_some hask hadd, ih hrest, addCells_cons, ← hanswer]
      simp only [hadd]
      rfl

end Asking

/-- A declaration that asks is the one by a table of the answers: each index tuple is asked
about once, in row-major order, unless the declaration is refused. -/
theorem run_declareArrayAsking {σ : Type} (s : Store) (name : Option String) (shape : List Nat)
    (ask : List Nat → StateM σ (Option Domain)) (start : σ) :
    (s.declareArrayAsking name shape ask).run start =
      let (answers, finish) := ((Grid.tuples shape).mapM ask).run start
      match s.declareArray name shape (Grid.entryAt shape answers) with
      | .ok declared => (.ok declared, finish)
      | .error cause => (.error cause, start) := by
  have hlength := length_run_mapM ask (Grid.tuples shape) start
  rcases hasked : ((Grid.tuples shape).mapM ask).run start with ⟨answers, finish⟩
  rw [hasked, Grid.length_tuples] at hlength
  dsimp only
  rw [declareArray_eq, declareArrayAsking]
  cases VarArray.checkShape shape with
  | error cause => rfl
  | ok _ =>
    cases s.nameArray name with
    | error cause => rfl
    | ok named =>
      obtain ⟨text, t⟩ := named
      have hanswers : ((((Grid.tuples shape).zipIdx.map Prod.fst).mapM ask).run start).1 =
          ((Grid.tuples shape).zipIdx.map Prod.fst).map (Grid.entryAt shape answers) := by
        rw [List.zipIdx_map_fst, hasked, Grid.map_entryAt hlength]
      have hrun := run_addCellsAsking text t.arrays.size (s := t) hanswers
      rw [List.zipIdx_map_fst, hasked] at hrun
      simp only [StateT.run_bind, hrun]
      rfl

/-! ### What is kept -/

/-- A store that has grown and whose variables have kept their domains. -/
structure Retains (s s' : Store) : Prop extends s.Grows s' where
  domainOf : ∀ {v : Variable}, s.Declares v → s'.domainOf v = s.domainOf v

theorem Retains.refl (s : Store) : s.Retains s := ⟨.refl s, fun _ => rfl⟩

theorem Retains.trans (h : s.Retains s') (h' : s'.Retains t) : s.Retains t :=
  ⟨h.toGrows.trans h'.toGrows, fun hv =>
    (h'.domainOf (h.toGrows.declares hv)).trans (h.domainOf hv)⟩

theorem Retains.nameOf (h : s.Retains s') {v : Variable} (hv : s.Declares v) :
    s'.nameOf v = s.nameOf v := by
  obtain ⟨info, hinfo, hname, -⟩ := hv.exists_info
  have hinfo' : s'.info? v = some info := h.infos hinfo
  rw [hname, Store.nameOf, hinfo']
  rfl

theorem retains_addCells (hs : s.Consistent fun _ => True) (name : String) (key : Nat)
    (domainAt : List Nat → Option Domain) (cells : List (List Nat × Nat)) :
    s.Retains (addCells name key domainAt cells s).2 := by
  have hcells := addsCells name key domainAt cells s
  exact ⟨⟨hcells.model, hcells.infos_old, fun ha => ⟨_, hcells.arrays ▸ ha, .refl _⟩,
    hcells.declarations ▸ List.Subset.refl _⟩,
    domainOf_addCells name key (fun _ _ _ => trivial) cells hs⟩

/-! ### Cells and answers -/

/-- What lies in the slot of a cell after an answer: nothing, or a variable with the domain
that was answered and the indices in its name. -/
inductive Fills (s : Store) (name : String) (tuple : List Nat) :
    Option Domain → Option Variable → Prop
  | hole : Fills s name tuple none none
  | cell {v : Variable} : s.Declares v → s.nameOf v = VarArray.cellName name tuple →
      Fills s name tuple (some (s.domainOf v)) (some v)

theorem Fills.mono {name : String} {tuple : List Nat} {answer : Option Domain}
    {slot : Option Variable} (hfills : s.Fills name tuple answer slot) (h : s.Retains s') :
    s'.Fills name tuple answer slot := by
  cases hfills with
  | hole => exact .hole
  | cell hv hname =>
    rw [← h.domainOf hv]
    exact .cell (h.toGrows.declares hv) ((h.nameOf hv).trans hname)

/-- Every cell that is added holds what was answered for it. -/
theorem fills_addCells (hs : s.Consistent fun _ => True) (name : String) (key : Nat)
    (domainAt : List Nat → Option Domain) (cells : List (List Nat × Nat)) :
    List.Forall₂ (fun cell slot => (addCells name key domainAt cells s).2.Fills name cell.1
      (domainAt cell.1) slot) cells (addCells name key domainAt cells s).1 := by
  induction cells generalizing s with
  | nil => exact .nil
  | cons cell rest ih =>
    rw [addCells_cons]
    split
    · rename_i hnone
      exact .cons (hnone ▸ .hole) (ih hs)
    · rename_i d hd
      have hadds := adds_addVariable hs (VarArray.cellName name cell.1) d (some ⟨key, cell.2⟩)
      have hinfo := s.info?_addVariable_self (VarArray.cellName name cell.1) d (some ⟨key, cell.2⟩)
      have hlater := hadds.consistent hs trivial
      rcases hadd : s.addVariable (VarArray.cellName name cell.1) d (some ⟨key, cell.2⟩) with ⟨v, t⟩
      rw [hadd] at hadds hinfo hlater
      have hname : t.nameOf v = VarArray.cellName name cell.1 := by
        rw [nameOf, hinfo]
        rfl
      have hcell : t.Fills name cell.1 (domainAt cell.1) (some v) := by
        rw [hd, ← hadds.domainOf_new]
        exact .cell hadds.declares_new hname
      -- the cells that follow leave the name and the domain of this one as they are
      exact .cons (hcell.mono (retains_addCells hlater name key domainAt rest)) (ih hlater)

/-- Under every index tuple of an array that is declared lies what its domain asks for. -/
theorem fills_declareArray (hs : s.Consistent fun _ => True) {name : Option String}
    {shape : List Nat} {domainAt : List Nat → Option Domain} {a : VarArray}
    (h : s.declareArray name shape domainAt = .ok (a, s')) :
    a.shape = shape ∧ a.slots.length = Grid.volume shape ∧
      ∀ tuple, Grid.Within shape tuple → s'.Fills a.name tuple (domainAt tuple) (a.get? tuple) := by
  rw [declareArray_eq] at h
  split at h
  · cases h
  · split at h
    · cases h
    · rename_i text named hname
      have hfills := fills_addCells ((alike_nameArray hname).consistent.mpr hs) text
        named.arrays.size domainAt (Grid.tuples shape).zipIdx
      rcases hadded : addCells text named.arrays.size domainAt (Grid.tuples shape).zipIdx named
        with ⟨slots, t⟩
      simp only [hadded] at h hfills
      cases h
      have hcells : List.Forall₂ (fun tuple slot => t.Fills text tuple (domainAt tuple) slot)
          (Grid.tuples shape) slots := by
        rw [← List.zipIdx_map_fst 0 (Grid.tuples shape)]
        exact List.forall₂_map_left_iff.mpr hfills
      -- after its cells only the array itself is entered
      have hretains : t.Retains { t with
          arrays := t.arrays.push ⟨text, shape, slots⟩
          declarations := t.declarations ++ [.array named.arrays.size] } :=
        ⟨⟨rfl, id, fun ha => ⟨_, Registry.get?_push_eq_some.mpr (.inl ha), .refl _⟩,
          List.subset_append_left _ _⟩, fun _ => rfl⟩
      refine ⟨rfl, hcells.length_eq.symm.trans (Grid.length_tuples shape), fun tuple htuple => ?_⟩
      have hcell := VarArray.get?_of_forall₂ (a := ⟨text, shape, slots⟩) hcells htuple
      exact hcell.mono hretains

/-! ### Arrays -/

/-- What is known of an array when the index tuples of a shape were given these answers, in
their order. -/
structure Arranges (s : Store) (a : VarArray) (shape : List Nat)
    (answers : List (Option Domain)) : Prop where
  shape_eq : a.shape = shape
  /-- Every position has a slot. -/
  length : a.slots.length = shape.prod
  /-- Where a domain was answered lies the one variable whose name carries the indices, and
  it has this domain. -/
  present : ∀ tuple d, (tuple, some d) ∈ (Grid.tuples shape).zip answers →
    ∃ v, a.get? tuple = some v ∧ s.domainOf v = d ∧
      ∀ w, s.Declares w ∧ s.nameOf w = VarArray.cellName a.name tuple ↔ w = v
  absent : ∀ tuple, a.get? tuple = none ↔
    ∀ d, (tuple, some d) ∉ (Grid.tuples shape).zip answers
  cells : a.cells = (Grid.tuples shape).filterMap a.get?
  row : shape.length = 2 → ∀ i,
    a.row i = ((Grid.tuples shape).filter (·[0]? = some i)).filterMap a.get?
  column : shape.length = 2 → ∀ j,
    a.column j = ((Grid.tuples shape).filter (·[1]? = some j)).filterMap a.get?

theorem Inventory.arranges (hs : s.Inventory) {a : VarArray} {answers : List (Option Domain)}
    (hanswers : answers.length = Grid.volume a.shape)
    (hslots : a.slots.length = Grid.volume a.shape)
    (hfills : ∀ tuple, Grid.Within a.shape tuple →
      s.Fills a.name tuple (Grid.entryAt a.shape answers tuple) (a.get? tuple)) :
    s.Arranges a a.shape answers where
  shape_eq := rfl
  length := hslots.trans (Grid.volume_eq_prod a.shape)
  present tuple d h := by
    obtain ⟨htuple, hanswer⟩ := (Grid.mem_zip_tuples_iff hanswers).mp h
    have hcell := hfills tuple htuple
    rw [hanswer] at hcell
    generalize a.get? tuple = slot at hcell
    cases hcell with
    | @cell v hv hname =>
      refine ⟨v, rfl, rfl, fun w => ⟨fun hw => ?_, ?_⟩⟩
      · exact hs.nameOf_injective hw.1 hv (hw.2.trans hname.symm)
      · rintro rfl
        exact ⟨hv, hname⟩
  absent tuple := by
    by_cases htuple : Grid.Within a.shape tuple
    · have hcell := hfills tuple htuple
      simp only [Grid.mem_zip_tuples_iff hanswers, htuple, true_and]
      generalize a.get? tuple = slot at hcell
      generalize Grid.entryAt a.shape answers tuple = answer at hcell
      cases hcell <;> simp
    · simp [Grid.mem_zip_tuples_iff hanswers, VarArray.get?_of_not_within, htuple]
  cells := VarArray.cells_eq hslots
  row := VarArray.row_eq
  column := VarArray.column_eq

end Store

namespace Model

variable {m m' : Model}

/-! ### Later calls -/

/-- A call leaves the names and the domains of the variables as they were. -/
theorem retains_call (hm : m.store.Consistent fun _ => True) (c : Call) :
    m.store.Retains (m.call c).2.store ∧ (m.call c).2.store.Consistent fun _ => True := by
  obtain ⟨m', hm'⟩ : ∃ m', (m.call c).2 = m' := ⟨_, rfl⟩
  rw [hm']
  rcases call_cases hm' with ⟨_, _, rfl⟩ | rfl | ⟨change, _, h⟩
  · exact ⟨.refl _, hm⟩
  · exact ⟨.refl _, hm⟩
  · cases h with
    | addVariable h =>
      have hadds := Store.adds_declareVariable hm h
      exact ⟨⟨Store.grows_declareVariable h, fun hv => hadds.domainOf_old _ hv.2⟩,
        hadds.consistent hm trivial⟩
    | addArray h =>
      exact ⟨⟨Store.grows_declareArray h,
        Store.domainOf_declareArray hm (fun _ _ _ => trivial) h⟩,
        Store.consistent_declareArray hm (fun _ _ _ => trivial) h⟩
    | _ => exact ⟨.refl _, hm⟩

theorem retains_after (hm : m.store.Consistent fun _ => True) (calls : List Call) :
    m.store.Retains (m.after calls).store := by
  induction calls generalizing m with
  | nil => exact .refl _
  | cons c calls ih =>
    obtain ⟨hretains, hconsistent⟩ := retains_call hm c
    exact hretains.trans (ih hconsistent)

/-! ### Declarations that ask -/

theorem run_addArrayAsking {σ : Type} (m : Model) (name : Option String) (shape : List Nat)
    (ask : List Nat → StateM σ (Option Domain)) (start : σ) :
    (m.addArrayAsking name shape ask).run start =
      let (answers, finish) := ((Grid.tuples shape).mapM ask).run start
      match m.addArray name shape (Grid.entryAt shape answers) with
      | .ok declared => (.ok declared, finish)
      | .error cause => (.error cause, start) := by
  have hrun := m.store.run_declareArrayAsking name shape ask start
  rcases hasked : ((Grid.tuples shape).mapM ask).run start with ⟨answers, finish⟩
  rw [hasked] at hrun
  dsimp only
  rw [addArray_eq, addArrayAsking]
  cases m.checkOpen with
  | error cause => rfl
  | ok _ =>
    simp only [StateT.run_bind, hrun]
    cases m.store.declareArray name shape (Grid.entryAt shape answers) <;> rfl

/-- A declaration that asks and is not refused is the one by its answers. -/
theorem addArrayAsking_eq_ok {σ : Type} {name : Option String} {shape : List Nat}
    {ask : List Nat → StateM σ (Option Domain)} {start finish : σ} {a : VarArray}
    (h : (m.addArrayAsking name shape ask).run start = (.ok (a, m'), finish)) :
    ∃ answers s, ((Grid.tuples shape).mapM ask).run start = (answers, finish) ∧
      answers.length = Grid.volume shape ∧
      m.store.declareArray name shape (Grid.entryAt shape answers) = .ok (a, s) ∧
      m' = { m with store := s } := by
  have hlength := length_run_mapM ask (Grid.tuples shape) start
  rw [run_addArrayAsking] at h
  rcases hasked : ((Grid.tuples shape).mapM ask).run start with ⟨answers, finish'⟩
  rw [hasked] at h
  rw [hasked, Grid.length_tuples] at hlength
  simp only at h
  split at h
  · rename_i declared hadd
    cases h
    rw [addArray_eq] at hadd
    obtain ⟨⟨_, s⟩, hdeclare, hadd⟩ := Except.bind_eq_ok.mp (checkOpen_bind hadd)
    cases hadd
    exact ⟨answers, s, rfl, hlength, hdeclare, rfl⟩
  · cases h

/-- An array declared by a table of answers holds them, whatever is called later. -/
theorem arranges_after (hm : m.Reachable) {name : Option String} {shape : List Nat}
    {answers : List (Option Domain)} (hanswers : answers.length = Grid.volume shape)
    {a : VarArray} {s : Store}
    (h : m.store.declareArray name shape (Grid.entryAt shape answers) = .ok (a, s))
    (calls : List Call) : (after { m with store := s } calls).store.Arranges a shape answers := by
  have hbuilt := hm.sound.store
  have hconsistent : Store.Consistent (fun _ => True) s :=
    Store.consistent_declareArray hbuilt.consistent_true (fun _ _ _ => trivial) h
  have hretains := retains_after (m := { m with store := s }) hconsistent calls
  have hinventory := inventory_after (m := { m with store := s })
    (hbuilt.inventory.declareArray h) calls
  obtain ⟨rfl, hslots, hfills⟩ := Store.fills_declareArray hbuilt.consistent_true h
  exact hinventory.arranges hanswers hslots fun tuple htuple => (hfills tuple htuple).mono hretains

/-- Arrays are laid out in row-major order.  Positions and index tuples of a shape are in
bijection, whichever way one is computed from the other.  A declared array has asked about
every index tuple once, in this order, and whatever is called later, under each tuple lies
what was answered for it. -/
theorem arrays_are_row_major :
    (∀ shape, Grid.RowMajor shape) ∧
    ∀ {σ : Type} {m m' : Model} {name : Option String} {shape : List Nat}
      {ask : List Nat → StateM σ (Option Domain)} {start finish : σ} {a : VarArray},
      m.Reachable → (m.addArrayAsking name shape ask).run start = (.ok (a, m'), finish) →
      ∃ answers, ((Grid.tuples shape).mapM ask).run start = (answers, finish) ∧
        ∀ calls, (m'.after calls).store.Arranges a shape answers := by
  refine ⟨Grid.rowMajor, fun hm h => ?_⟩
  obtain ⟨answers, s, hasked, hlength, hdeclare, rfl⟩ := addArrayAsking_eq_ok h
  exact ⟨answers, hasked, arranges_after hm hlength hdeclare⟩

end Model

namespace Counted

/-- The cells are counted from zero as they are asked for.  Each takes the value that is its
number, and the one with the number four is a hole. -/
def ask (_ : List Nat) : StateM Nat (Option Domain) := fun asked =>
  (if asked = 4 then none else some ⟨[.integer asked]⟩, asked + 1)

/-- The array of two rows and three columns whose cells are counted, and the model with it. -/
theorem exists_declared : ∃ a m,
    ((Model.empty 0).addArrayAsking (some "x") [2, 3] ask).run 0 = (.ok (a, m), 6) :=
  ⟨_, _, by cbv⟩

/-- When another variable has been declared, the cell number five still takes its number, and
the second row passes over the hole. -/
theorem counted_row_major : (Model.empty 0).Reachable ∧ ∃ a m,
    ((Model.empty 0).addArrayAsking (some "x") [2, 3] ask).run 0 = (.ok (a, m), 6) ∧
    (∃ v, a.get? [1, 2] = some v ∧
      (m.after [.change (.addVariable none .unbounded)]).store.domainOf v = ⟨[.integer 5]⟩) ∧
    a.get? [1, 1] = none ∧ a.row 1 = [[1, 0], [1, 2]].filterMap a.get? := by
  have hreachable : (Model.empty 0).Reachable := .empty 0 {}
  obtain ⟨a, m, h⟩ := exists_declared
  obtain ⟨answers, hasked, harranges⟩ := Model.arrays_are_row_major.2 hreachable h
  have hrun : ((Grid.tuples [2, 3]).mapM ask).run 0 =
      ([some ⟨[.integer 0]⟩, some ⟨[.integer 1]⟩, some ⟨[.integer 2]⟩, some ⟨[.integer 3]⟩, none,
        some ⟨[.integer 5]⟩], 6) := rfl
  obtain ⟨rfl, -⟩ := Prod.mk.inj (hrun.symm.trans hasked)
  have harray := harranges [.change (.addVariable none .unbounded)]
  obtain ⟨v, hv, hdomain, -⟩ := harray.present [1, 2] ⟨[.integer 5]⟩ (by decide)
  have hhole : a.get? [1, 1] = none := (harray.absent [1, 1]).mpr fun d => by
    simp [Grid.tuples, List.range_succ]
  have hrow : a.row 1 = [[1, 0], [1, 1], [1, 2]].filterMap a.get? := harray.row rfl 1
  refine ⟨hreachable, a, m, h, ⟨v, hv, hdomain⟩, hhole, hrow.trans ?_⟩
  simp [List.filterMap_cons, hhole]

end Counted
end CspModel
