import CspModel.Proofs.Scope
import CspModel.Proofs.Strict.Lookups

/-! # The columns of a table have domains

Turning a table into rows looks up the domains of the variables that stand in its columns.
These are the variables of the list of the constraint, of the arguments of the instances of a
group, or of the list of a slide, so they are all declared.
-/
namespace CspModel
namespace Strict

/-- The domains of the columns of a table, where `variablesOf` tells the variables a parameter
stands for. -/
def columnDomains (s : Store) (variablesOf : Parameter → List Variable) (list : List Parameter)
    (table : Table) : Option (List (Option Domain)) :=
  (Rows.columnParameters list table).mapM fun p =>
    Domain.union? <$> (variablesOf p).mapM (domainOf s)

/-- The layout with its table, if it has one, turned into rows. -/
def materialize (s : Store) (form : TableForm) (variablesOf : Parameter → List Variable)
    (layout : Layout) : Checked TableError Layout :=
  match Rows.tableOf? layout with
  | none => return layout
  | some (list, table) => do
    let columns ← columnDomains s variablesOf list table
    let rows ← Checked.ofExcept (Rows.ofTable form columns table)
    return Rows.withRows layout rows

/-- The entries of the table of a layout with the domains of their columns. -/
def places (s : Store) (variablesOf : Parameter → List Variable) (layout : Layout) :
    Option (List (TableEntry × Option Domain)) :=
  match Rows.tableOf? layout with
  | none => some []
  | some (list, table) => do
    let columns ← columnDomains s variablesOf list table
    return table.tuples.flatMap (Rows.placesIn columns)

mutual
/-- An entry with all tables turned into rows. -/
def ofEntry (s : Store) (form : TableForm) : Written → Checked TableError Written
  | .constraint layout d => do
    let layout ← materialize s form Rows.ownVariables layout
    return .constraint layout d
  | .group template arguments d => do
    let template ← materialize s form (Rows.instanceVariables arguments) template
    return .group template arguments d
  | .slide list offset circular template d => do
    let template ← materialize s form (fun _ => list) template
    return .slide list offset circular template d
  | .equalities list values d => return .equalities list values d
  | .block entries d => do
    let entries ← ofEntries s form entries
    return .block entries d

/-- Entries with all tables turned into rows. -/
def ofEntries (s : Store) (form : TableForm) : List Written → Checked TableError (List Written)
  | [] => return []
  | w :: rest => do
    let w ← ofEntry s form w
    let rest ← ofEntries s form rest
    return w :: rest
end

mutual
/-- The entries of the tables of an entry in the order in which they are expanded. -/
def placesOf (s : Store) : Written → Option (List (TableEntry × Option Domain))
  | .constraint layout _ => places s Rows.ownVariables layout
  | .group template arguments _ => places s (Rows.instanceVariables arguments) template
  | .slide list _ _ template _ => places s (fun _ => list) template
  | .equalities _ _ _ => some []
  | .block entries _ => placesOfAll s entries

/-- The entries of the tables of several entries. -/
def placesOfAll (s : Store) : List Written → Option (List (TableEntry × Option Domain))
  | [] => some []
  | w :: rest => do
    let places ← placesOf s w
    let others ← placesOfAll s rest
    return places ++ others
end

/-- Every wildcard that should be expanded and is kept is noticed. -/
def rowNotices (s : Store) (form : TableForm) (entries : List Written) : Option (List Notice) := do
  let places ← placesOfAll s entries
  let reached := places.takeWhile fun (entry, column) => !Rows.isTooWide entry column
  return (reached.filter fun (entry, column) => Rows.isKept form entry column).map fun _ =>
    .keptWildcard

section
variable {s : Store}

/-! ### The variables of columns -/

/-- Whether the variables of the parameters of a layout, and of placeholders, are declared. -/
def Covered (s : Store) (variablesOf : Parameter → List Variable) : Prop :=
  ∀ p : Parameter, p.Over s → ∀ v ∈ variablesOf p, s.Declares v

theorem covered_ownVariables : Covered s Rows.ownVariables := by
  intro p hp v hv
  cases p with
  | var w => exact hp v hv
  | _ => cases hv

theorem covered_instanceVariables {arguments : List (List Parameter)}
    (h : ∀ list ∈ arguments, ∀ p ∈ list, p.Over s) :
    Covered s (Rows.instanceVariables arguments) := by
  intro p hp v hv
  cases p with
  | var w => exact hp v hv
  | placeholder number =>
    obtain ⟨list, hlist, hv⟩ := List.mem_flatMap.mp hv
    cases hentry : list[number]? with
    | none =>
      rw [hentry] at hv
      cases hv
    | some q =>
      rw [hentry] at hv
      exact covered_ownVariables q (h list hlist q (List.mem_of_getElem? hentry)) v hv
  | _ => cases hv

/-- The list of a table is over the store, and so are placeholders. -/
theorem over_columnParameters {layout : Layout} (h : layout.Over s) {list : List Parameter}
    {table : Table} (htable : Rows.tableOf? layout = some (list, table)) :
    ∀ p ∈ Rows.columnParameters list table, p.Over s := by
  have hlist : ∀ p ∈ list, p.Over s := by
    unfold Rows.tableOf? at htable
    split at htable
    · rename_i harguments
      cases htable
      rw [Layout.Over, harguments] at h
      exact h _ List.mem_cons_self
    · cases htable
  intro p hp
  unfold Rows.columnParameters at hp
  split at hp
  · obtain ⟨k, _, rfl⟩ := List.mem_map.mp hp
    intro v hv
    cases hv
  · exact hlist p hp

/-! ### Agreement -/

theorem columnDomains_eq (hs : s.Built) {variablesOf : Parameter → List Variable}
    (hcovered : Covered s variablesOf) {layout : Layout} (h : layout.Over s)
    {list : List Parameter} {table : Table}
    (htable : Rows.tableOf? layout = some (list, table)) :
    columnDomains s variablesOf list table =
      some (Rows.columnDomains s variablesOf list table) := by
  refine mapM_eq_map fun p hp => ?_
  have hdeclares := hcovered p (over_columnParameters h htable p hp)
  rw [mapM_eq_map fun v hv => domainOf_eq hs (hdeclares v hv)]
  rfl

theorem agrees_materialize (hs : s.Built) (form : TableForm)
    {variablesOf : Parameter → List Variable} (hcovered : Covered s variablesOf)
    {layout : Layout} (h : layout.Over s) :
    Agrees (materialize s form variablesOf layout)
      (Rows.materialize s form variablesOf layout) := by
  unfold materialize Rows.materialize
  cases htable : Rows.tableOf? layout with
  | none => exact .pure layout
  | some table =>
    obtain ⟨list, table⟩ := table
    exact .lookup_bind (columnDomains_eq hs hcovered h htable) ((Agrees.ofExcept _).bind_pure _)

theorem places_eq (hs : s.Built) {variablesOf : Parameter → List Variable}
    (hcovered : Covered s variablesOf) {layout : Layout} (h : layout.Over s) :
    places s variablesOf layout = some (Rows.places s variablesOf layout) := by
  unfold places Rows.places
  cases htable : Rows.tableOf? layout with
  | none => rfl
  | some table =>
    obtain ⟨list, table⟩ := table
    simp only [columnDomains_eq hs hcovered h htable]
    rfl

mutual
theorem agrees_ofEntry (hs : s.Built) (form : TableForm) : (w : Written) → w.Over s →
    Agrees (ofEntry s form w) (Rows.ofEntry s form w)
  | .constraint _ _, h => (agrees_materialize hs form covered_ownVariables h).bind_pure _
  | .group _ _ _, h =>
    (agrees_materialize hs form (covered_instanceVariables h.2) h.1).bind_pure _
  | .slide _ _ _ _ _, h => (agrees_materialize hs form (fun _ _ => h.1) h.2).bind_pure _
  | .equalities _ _ _, _ => .pure _
  | .block entries _, h => (agrees_ofEntries hs form entries h).bind_pure _

/-- The tables of entries over the store are turned into rows. -/
theorem agrees_ofEntries (hs : s.Built) (form : TableForm) : (entries : List Written) →
    Written.OverAll s entries → Agrees (ofEntries s form entries) (Rows.ofEntries s form entries)
  | [], _ => .pure []
  | w :: rest, h =>
    (agrees_ofEntry hs form w h.1).bind fun _ _ => (agrees_ofEntries hs form rest h.2).bind_pure _
end

mutual
theorem placesOf_eq (hs : s.Built) : (w : Written) → w.Over s →
    placesOf s w = some (Rows.placesOf s w)
  | .constraint _ _, h => places_eq hs covered_ownVariables h
  | .group _ _ _, h => places_eq hs (covered_instanceVariables h.2) h.1
  | .slide _ _ _ _ _, h => places_eq hs (fun _ _ => h.1) h.2
  | .equalities _ _ _, _ => rfl
  | .block entries _, h => placesOfAll_eq hs entries h

theorem placesOfAll_eq (hs : s.Built) : (entries : List Written) → Written.OverAll s entries →
    placesOfAll s entries = some (Rows.placesOfAll s entries)
  | [], _ => rfl
  | w :: rest, h => by
    rw [placesOfAll, placesOf_eq hs w h.1, placesOfAll_eq hs rest h.2]
    rfl
end

end

end Strict
end CspModel
