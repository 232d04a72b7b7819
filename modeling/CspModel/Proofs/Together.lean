import CspModel.Proofs.Classes
import CspModel.Proofs.Extensions
import CspModel.Proofs.Outlines

/-! # Similar constraints are written together

Constraints that were posted together fall into parts (`Grouping.Folded`).  Predicates with
the same outline are in one part, also when auxiliary variables stand in for their
aggregates, as these leave nothing of the aggregates behind.  The parts come in the order of
their first members, and each is one entry, unless there is nothing to tell its constraints
apart.  Extensions of one table over different lists differ in their lists only, so they are
one group with an instance for each (`Grouping.writeConstraints_extensions`).
-/
namespace CspModel

open CspModel.Expr

/-! ### Outlines of what is settled -/

/-- Nothing but variables and constants is blanked in what can be written. -/
theorem Expr.Lifted.outline_eq_frame {known : Variable → Prop} {e : Expr} (h : e.Lifted known) :
    e.outline = e.frame := by
  induction e using Expr.induction with
  | const | var | set => rfl
  | aggregate f _ => exact (h _ (self_mem_parts _)).elim
  | apply op operands ih =>
    rw [outline, outlineAll_eq_map, frame, frameAll_eq_map]
    exact congrArg (apply op) (List.map_congr_left fun e he => ih e he (lifted_apply.mp h e he))

/-- The outline of a predicate. -/
def Relation.outline? : Relation → Option Expr
  | intension e => some e.outline
  | _ => none

theorem Relation.exists_of_outline? {r : Relation} {e : Expr} (h : r.outline? = some e) :
    ∃ e', r = .intension e' ∧ e'.outline = e := by
  cases r with
  | intension e' => exact ⟨e', rfl, Option.some.inj h⟩
  | _ => cases h

/-- What a relation is settled as has its outline. -/
theorem Relation.SettledAs.outline?_eq {standIn : Expr → Variable} {r r' : Relation}
    (h : r.SettledAs standIn r') (hr' : ∃ known, r'.Lifted known) : r'.outline? = r.outline? := by
  obtain ⟨known, hlifted⟩ := hr'
  cases r with
  | intension e =>
    obtain rfl : r' = .intension (e.lifting standIn) := h
    exact congrArg some ((hlifted _ rfl).outline_eq_frame.trans (frame_lifting e))
  | extension list table =>
    obtain rfl : r' = .extension _ table := h
    rfl
  | _ =>
    cases r' with
    | intension e => exact absurd rfl (h e)
    | _ => rfl

/-- Predicates with the same pieces are those with the same outline. -/
theorem pieces?_ofRelation_eq_iff {known : Variable → Prop} {names : Variable → String}
    (h : Telling known names) {e : Expr} (he : e.Lifted known) {r : Relation}
    (hr : r.Lifted known) :
    (Form.ofRelation names r).pieces? = some (Piece.ofExpr names e) ↔
      r.outline? = some e.outline := by
  cases r with
  | intension e' =>
    have he' := hr e' rfl
    show some (Piece.ofExpr names e') = _ ↔ some e'.outline = _
    rw [Option.some_inj, Option.some_inj, he.outline_eq_frame, he'.outline_eq_frame]
    exact Piece.ofExpr_eq_iff_frame h he' he
  | _ => exact iff_of_false nofun nofun

/-! ### Runs -/

namespace Grouping

variable {g : Grouping} {known : Variable → Prop}

/-- How constraints in a row, each with what it is settled as, are folded in parts. -/
structure Folded (g : Grouping) (run : List (Relation × Relation))
    (parts : List (List (Fin run.length))) (entries : List Written) : Prop where
  perm : parts.flatten.Perm (List.finRange run.length)
  ascending : ∀ part ∈ parts, part.Pairwise (· < ·)
  /-- The parts are in the order of their first members. -/
  ordered : parts.Pairwise fun part later => ∀ i ∈ part.head?, ∀ j ∈ later, i < j
  /-- A part with a predicate holds exactly the predicates with its outline. -/
  similar : ∀ part ∈ parts, ∀ i ∈ part, ∀ e, run[i].1.outline? = some e →
    ∀ j, j ∈ part ↔ run[j].1.outline? = some e
  /-- Predicates are settled as the same one only if they are the same. -/
  same : ∀ i j : Fin run.length, run[i].1.outline? ≠ none → run[i].2 = run[j].2 →
    run[i].1 = run[j].1
  /-- The entries are those of the parts, one part after the other. -/
  written : ∃ lists : List (List Written), lists.flatten = entries ∧
    List.Forall₂ (fun part list => g.Folds (part.map fun i => run[i].2) list) parts lists

theorem writePart_singleton (c : Candidate) : g.writePart [c] = [.alone c.relation] := by
  rw [writePart, if_pos (by exact Nat.one_lt_two), List.map_singleton]

/-- Constraints in a row are partitioned, also when there is at most one. -/
theorem writeRun_eq_flatMap (hgroup : g.options.groupConstraints = true) {gather : Bool}
    {relations : List Relation} (h : gather = true ∨ relations.length < 2) :
    g.writeRun gather relations =
      (partition (relations.map (.ofRelation g.names))).flatMap g.writePart := by
  unfold writeRun
  split
  · rfl
  · rename_i hfew
    have hlength : relations.length < 2 := h.elim (fun hgather => by
      simpa [hgather, hgroup] using hfew) id
    cases relations with
    | nil => rw [List.map_nil, List.map_nil, partition, List.flatMap_nil]
    | cons r rest =>
      obtain rfl : rest = [] := List.eq_nil_of_length_eq_zero
        (Nat.lt_one_iff.mp (Nat.lt_of_succ_lt_succ hlength))
      rw [List.map_singleton, List.map_singleton, partition, takeSimilar, partition,
        List.flatMap_singleton, writePart_singleton]
      rfl

/-- A part of a run is folded. -/
theorem folds_of_mem_partition (h : Telling known g.names) {relations members : List Relation}
    (hlifted : ∀ r ∈ relations, r.Lifted known)
    (hpart : members.map (.ofRelation g.names) ∈
      partition (relations.map (.ofRelation g.names))) :
    g.Folds members (g.writePart (members.map (.ofRelation g.names))) := by
  obtain ⟨first, rest, positions, heq, hsublist, hsimilar⟩ := exists_of_mem_partition hpart
  have hinjective : Function.Injective (Candidate.ofRelation g.names) :=
    fun _ _ heq => congrArg Candidate.relation heq
  obtain rfl : members = first :: rest := hinjective.list_map heq
  exact folds_writePart h (fun r hr => hlifted r (hsublist.subset hr)) hsimilar

/-- Constraints in a row are folded in parts. -/
theorem folded_writeRun (h : Telling known g.names) (hgroup : g.options.groupConstraints = true)
    {run : List (Relation × Relation)} {gather : Bool} (hgather : gather = true ∨ run.length < 2)
    (hlifted : ∀ q ∈ run, q.2.Lifted known) (houtline : ∀ q ∈ run, q.2.outline? = q.1.outline?)
    (hsame : ∀ q ∈ run, ∀ q' ∈ run, q.1.outline? ≠ none → q.2 = q'.2 → q.1 = q'.1) :
    ∃ parts, g.Folded run parts (g.writeRun gather (run.map Prod.snd)) := by
  let settled (i : Fin run.length) : Relation := run[i].2
  let candidate (i : Fin run.length) : Candidate := .ofRelation g.names (settled i)
  have hcandidates : (List.finRange run.length).map candidate =
      (run.map Prod.snd).map (.ofRelation g.names) := by
    refine List.ext_getElem (by simp) fun i hi hi' => ?_
    simp [candidate, settled]
  have hmem : ∀ i : Fin run.length, run[i] ∈ run := fun i => List.getElem_mem i.isLt
  obtain ⟨parts, hparts, hperm, hsublist, hordered, hclasses⟩ :=
    exists_partition candidate (List.pairwise_lt_finRange run.length)
  refine ⟨parts, hperm,
    fun part hpart => (List.pairwise_lt_finRange _).sublist (hsublist part hpart), hordered,
    fun part hpart i hi e he j => ?_, fun i j => hsame _ (hmem i) _ (hmem j),
    parts.map fun part => g.writePart (part.map candidate), ?_, ?_⟩
  · obtain ⟨e', hr, rfl⟩ := Relation.exists_of_outline? ((houtline _ (hmem i)).trans he)
    have he' : e'.Lifted known := hlifted _ (hmem i) e' hr
    have hpieces : (candidate i).form.pieces? = some (Piece.ofExpr g.names e') := by
      show (Form.ofRelation g.names run[i].2).pieces? = _
      rw [hr]
      rfl
    rw [hclasses part hpart i hi _ hpieces j (List.mem_finRange j), ← houtline _ (hmem j)]
    exact pieces?_ofRelation_eq_iff h he' (hlifted _ (hmem j))
  · rw [writeRun_eq_flatMap hgroup (by rwa [List.length_map]), ← hcandidates, hparts,
      List.flatMap_map, List.flatMap_def]
  · rw [List.forall₂_map_right_iff, List.forall₂_same]
    intro part hpart
    have hmap : part.map candidate = (part.map settled).map (.ofRelation g.names) := by
      rw [List.map_map]
      rfl
    have hmembers : (part.map settled).map (.ofRelation g.names) ∈
        partition ((run.map Prod.snd).map (.ofRelation g.names)) := by
      rw [← hmap, ← hcandidates, hparts]
      exact List.mem_map_of_mem hpart
    show g.Folds (part.map settled) _
    rw [hmap]
    exact folds_of_mem_partition h (List.forall_mem_map.mpr hlifted) hmembers

/-! ### Extensions of one table -/

/-- Layouts of one table differ in their lists. -/
theorem differing?_ofTable_of_ne {list list' : List Parameter} (table : Table)
    (hlength : list.length = list'.length) (hne : list ≠ list') :
    differing? (Layout.ofTable list table) (Layout.ofTable list' table) = some [0] := by
  simp [differing?, Layout.ofTable, Layout.tabled, isMergeable, differingFrom, hlength, hne]

section
variable (names : Variable → String) (table : Table)

/-- The candidate of an extension over variables. -/
def extensionCandidate (list : List Variable) : Candidate :=
  .ofRelation names (.extension (list.map .var) table)

theorem form_extensionCandidate (list : List Variable) :
    (extensionCandidate names table list).form =
      .laidOut (Layout.ofTable (list.map .var) table) :=
  congrArg Form.laidOut (Layout.ofRelation_extension list table)

variable {names table}

/-- All extensions of one table over different lists join the first one. -/
theorem takeSimilar_extensions {first : List Variable} {lists : List (List Variable)}
    {settled : Option (List Nat)} (hsettled : ∀ positions ∈ settled, positions = [0])
    (hlists : ∀ list ∈ lists, first.length = list.length ∧ first ≠ list) :
    takeSimilar (extensionCandidate names table first).form settled
        (lists.map (extensionCandidate names table)) =
      (lists.map (extensionCandidate names table), []) := by
  induction lists generalizing settled with
  | nil => rfl
  | cons list rest ih =>
    obtain ⟨⟨hlength, hne⟩, hrest⟩ := List.forall_mem_cons.mp hlists
    have hdiffering : differing? (Layout.ofTable (first.map .var) table)
        (Layout.ofTable (list.map .var) table) = some [0] :=
      differing?_ofTable_of_ne table (by simpa using hlength) fun heq =>
        hne (List.map_injective_iff.mpr (fun _ _ => Parameter.var.inj) heq)
    have hjoins : joins? (extensionCandidate names table first).form settled
        (extensionCandidate names table list).form = some (some [0]) := by
      simp only [form_extensionCandidate, joins?, hdiffering]
      cases settled with
      | none => rfl
      | some positions =>
        rw [hsettled positions rfl]
        rfl
    rw [List.map_cons, takeSimilar, hjoins]
    dsimp only
    rw [ih (by simp) hrest]

variable {g : Grouping}

/-- Extensions of one table over different lists of one length are one group. -/
theorem writePart_extensions {first second : List Variable} {lists : List (List Variable)}
    (hlength : first.length = second.length) (hne : first ≠ second) :
    g.writePart ((first :: second :: lists).map (extensionCandidate g.names table)) =
      [.group (Layout.ofTable [.allPlaceholders] table)
        ((first :: second :: lists).map fun list => list.map .var) {}] := by
  have hforms : ((first :: second :: lists).map (extensionCandidate g.names table)).map (·.form) =
      (first :: second :: lists).map fun list =>
        .laidOut (Layout.ofTable (list.map .var) table) := by
    rw [List.map_map]
    exact List.map_congr_left fun list _ => form_extensionCandidate g.names table list
  have hdiffering : differing? (Layout.ofTable (first.map .var) table)
      (Layout.ofTable (second.map .var) table) = some [0] :=
    differing?_ofTable_of_ne table (by simpa using hlength) fun heq =>
      hne (List.map_injective_iff.mpr (fun _ _ => Parameter.var.inj) heq)
  have htemplate : template? g.names false ((first :: second :: lists).map fun list =>
      Form.laidOut (Layout.ofTable (list.map .var) table)) =
        some (Layout.ofTable [.allPlaceholders] table,
          (first :: second :: lists).map fun list => list.map .var) := by
    have hlayouts : (lists.map fun list => Form.laidOut
        (Layout.ofTable (list.map .var) table)).filterMap Form.layout? =
          lists.map fun list => Layout.ofTable (list.map .var) table := by
      rw [List.filterMap_map]
      exact congrFun List.filterMap_eq_map lists
    simp only [List.map_cons, template?, List.filterMap_cons, Form.layout?, hlayouts,
      List.getElem?_cons_succ, List.getElem?_cons_zero, Option.bind_some, hdiffering,
      Option.map_some]
    exact congrArg some
      (layoutTemplate_ofTable (first.map .var) table (first :: second :: lists) false)
  unfold writePart
  rw [if_neg (by simp)]
  simp only [hforms, htemplate]
  split
  · rename_i equalities hequalities
    split at hequalities <;> simp [equality?] at hequalities
  · rfl

/-- Extensions of one table, posted together over different lists of one length, are written
as one group with an instance for each. -/
theorem writeConstraints_extensions (hgroup : g.options.groupConstraints = true)
    {lists : List (List Variable)} (hmany : 2 ≤ lists.length) (hnodup : lists.Nodup)
    (hlength : ∀ list ∈ lists, ∀ list' ∈ lists, list.length = list'.length) :
    g.writeConstraints true (lists.map fun list => .relation (.extension (list.map .var) table)) =
      [.group (Layout.ofTable [.allPlaceholders] table)
        (lists.map fun list => list.map .var) {}] := by
  have hrelations : (lists.map fun list => Constraint.relation (.extension (list.map .var) table)) =
      (lists.map fun list => Relation.extension (list.map .var) table).map .relation := by
    rw [List.map_map]
    rfl
  have hcandidates : (lists.map fun list => Relation.extension (list.map .var) table).map
      (.ofRelation g.names) = lists.map (extensionCandidate g.names table) := by
    rw [List.map_map]
    rfl
  rw [writeConstraints, hrelations, segments_relations, List.flatMap_singleton, writeSegment,
    writeRun_eq_flatMap hgroup (.inl rfl), hcandidates]
  obtain ⟨first, second, rest, rfl⟩ : ∃ first second rest, lists = first :: second :: rest := by
    cases lists with
    | nil => cases hmany
    | cons first others =>
      cases others with
      | nil => exact absurd hmany (Nat.not_succ_le_self 1)
      | cons second rest => exact ⟨first, second, rest, rfl⟩
  obtain ⟨hfirst, -⟩ := List.nodup_cons.mp hnodup
  have hothers : ∀ list ∈ second :: rest, first.length = list.length ∧ first ≠ list :=
    fun list hlist => ⟨hlength _ List.mem_cons_self _ (List.mem_cons_of_mem _ hlist),
      fun heq => hfirst (heq ▸ hlist)⟩
  rw [List.map_cons, partition, takeSimilar_extensions (by simp) hothers, partition,
    List.flatMap_singleton, ← List.map_cons]
  exact writePart_extensions (hothers second List.mem_cons_self).1
    (hothers second List.mem_cons_self).2

end

/-! ### The runs of a posting -/

/-- Whether a constraint is settled as another one, where relations are as it is given. -/
def settledBy (S : Relation → Relation → Prop) : Constraint → Constraint → Prop
  | .relation r, .relation r' => S r r'
  | .slide _, .slide _ => True
  | _, _ => False

/-- Whether a stretch of constraints is settled as another one. -/
def Segment.settledBy (S : Relation → Relation → Prop) : Segment → Segment → Prop
  | run relations, run relations' => List.Forall₂ S relations relations'
  | slide _, slide _ => True
  | _, _ => False

/-- The first stretch of constraints is a run. -/
theorem exists_segments_eq (constraints : List Constraint) :
    ∃ relations others, segments constraints = .run relations :: others := by
  induction constraints with
  | nil => exact ⟨[], [], rfl⟩
  | cons c rest ih =>
    obtain ⟨relations, others, h⟩ := ih
    cases c with
    | relation r => exact ⟨r :: relations, others, by rw [segments, h]⟩
    | slide windows => exact ⟨[], .slide (Constraint.relationsOf windows) :: segments rest, rfl⟩

/-- Settling keeps the stretches. -/
theorem forall₂_segments {S : Relation → Relation → Prop}
    {constraints constraints' : List Constraint}
    (h : List.Forall₂ (settledBy S) constraints constraints') :
    List.Forall₂ (Segment.settledBy S) (segments constraints) (segments constraints') := by
  induction h with
  | nil => exact .cons .nil .nil
  | @cons c c' rest rest' hc _ ih =>
    obtain ⟨relations, others, heq⟩ := exists_segments_eq rest
    obtain ⟨relations', others', heq'⟩ := exists_segments_eq rest'
    rw [heq, heq'] at ih
    cases c with
    | relation r =>
      cases c' with
      | relation r' =>
        rw [segments, segments, heq, heq']
        cases ih with
        | cons hrun hothers => exact .cons (.cons hc hrun) hothers
      | slide windows => cases hc
    | slide windows =>
      cases c' with
      | relation r' => cases hc
      | slide windows' =>
        rw [segments, segments, heq, heq']
        exact .cons .nil (.cons trivial ih)

/-- The run of a constraint alone has at most one relation. -/
theorem length_run_lt_two {c : Constraint} {relations : List Relation}
    (h : .run relations ∈ segments [c]) : relations.length < 2 := by
  cases c with
  | relation r =>
    obtain rfl := Segment.run.inj (List.mem_singleton.mp h)
    exact Nat.one_lt_two
  | slide windows =>
    rcases List.mem_cons.mp h with h | h
    · obtain rfl := Segment.run.inj h
      exact Nat.zero_lt_two
    · rcases List.mem_pair.mp h with h | h
      · cases h
      · obtain rfl := Segment.run.inj h
        exact Nat.zero_lt_two

/-- Whether entries are those of the stretches of a posting, of which all runs are folded. -/
def FoldsRuns (g : Grouping) (S : Relation → Relation → Prop) (p : Posting)
    (entries : List Written) : Prop :=
  ∃ lists : List (List Written), entries = decorate p.decoration lists.flatten ∧
    List.Forall₂ (fun segment list => ∀ relations, segment = .run relations →
      ∃ run parts, run.map Prod.fst = relations ∧ (∀ q ∈ run, S q.1 q.2) ∧ g.Folded run parts list)
      (segments p.body.constraints) lists

theorem FoldsRuns.imp {S S' : Relation → Relation → Prop} (hS : ∀ r r', S r r' → S' r r')
    {p : Posting} {entries : List Written} (h : g.FoldsRuns S p entries) :
    g.FoldsRuns S' p entries := by
  obtain ⟨lists, hentries, hlists⟩ := h
  refine ⟨lists, hentries, hlists.imp fun segment list hrun relations heq => ?_⟩
  obtain ⟨run, parts, hfst, hsettled, hfolded⟩ := hrun relations heq
  exact ⟨run, parts, hfst, fun q hq => hS _ _ (hsettled q hq), hfolded⟩

/-- The runs of a posting are folded as what they are settled as. -/
theorem foldsRuns_writePosting (h : Telling known g.names)
    (hgroup : g.options.groupConstraints = true) {S : Relation → Relation → Prop}
    (hlifted : ∀ r r', S r r' → r'.Lifted known)
    (houtline : ∀ r r', S r r' → r'.outline? = r.outline?)
    (hsame : ∀ r r' s s', S r r' → S s s' → r.outline? ≠ none → r' = s' → r = s)
    {p p' : Posting} (hdecoration : p'.decoration = p.decoration)
    (hgather : p'.body.isGather = p.body.isGather)
    (hsettled : List.Forall₂ (settledBy S) p.body.constraints p'.body.constraints) :
    g.FoldsRuns S p (g.writePosting p') := by
  refine ⟨(segments p'.body.constraints).map (g.writeSegment p'.body.isGather), ?_, ?_⟩
  · rw [writePosting, hdecoration, writeConstraints, List.flatMap_def]
  rw [List.forall₂_map_right_iff]
  have hsegments := forall₂_segments hsettled
  rw [List.forall₂_iff_get] at hsegments ⊢
  refine ⟨hsegments.1, fun k hk hk' relations hrun => ?_⟩
  have hpair := hsegments.2 k hk hk'
  have hmem := List.get_mem (segments p.body.constraints) ⟨k, hk⟩
  rw [hrun] at hpair hmem
  generalize (segments p'.body.constraints).get ⟨k, hk'⟩ = segment at hpair
  cases segment with
  | slide windows => cases hpair
  | run relations' =>
    have hpair : List.Forall₂ S relations relations' := hpair
    have hlength := hpair.length_eq
    have hfst : (relations.zip relations').map Prod.fst = relations :=
      List.map_fst_zip hlength.le
    have hsnd : (relations.zip relations').map Prod.snd = relations' :=
      List.map_snd_zip hlength.ge
    have hS : ∀ q ∈ relations.zip relations', S q.1 q.2 := fun q hq => List.forall₂_zip hpair hq
    have hfew : p'.body.isGather = true ∨ (relations.zip relations').length < 2 := by
      rw [hgather, List.length_zip, ← hlength, Nat.min_self]
      cases hbody : p.body with
      | gather constraints => exact .inl rfl
      | single c =>
        rw [hbody] at hmem
        exact .inr (length_run_lt_two hmem)
    obtain ⟨parts, hfolded⟩ := folded_writeRun h hgroup hfew (fun q hq => hlifted _ _ (hS q hq))
      (fun q hq => houtline _ _ (hS q hq)) fun q hq q' hq' => hsame _ _ _ _ (hS q hq) (hS q' hq')
    rw [hsnd] at hfolded
    exact ⟨_, parts, hfst, hS, hfolded⟩

theorem decorate_group (d : Decoration) (template : Layout) (arguments : List (List Parameter)) :
    decorate d [.group template arguments {}] = [.group template arguments d] := by
  unfold decorate
  split
  · rename_i hempty
    obtain ⟨classes, note⟩ := d
    obtain ⟨hclasses, hnote⟩ := Bool.and_eq_true_iff.mp hempty
    obtain rfl : classes = [] := List.isEmpty_iff.mp hclasses
    obtain rfl : note = none := Option.isNone_iff_eq_none.mp hnote
    rfl
  · rfl

end Grouping

/-! ### The postings of a model -/

/-- Whatever is known of the relations posted and settled can be said of each pair. -/
theorem forall₂_settledBy {standIn : Expr → Variable} (P P' : Relation → Prop)
    {constraints constraints' : List Constraint}
    (h : List.Forall₂ (Constraint.SettledAs standIn) constraints constraints')
    (hP : ∀ c ∈ constraints, ∀ r ∈ c.relations, P r)
    (hP' : ∀ c ∈ constraints', ∀ r ∈ c.relations, P' r) :
    List.Forall₂ (Grouping.settledBy fun r r' => r.SettledAs standIn r' ∧ P r ∧ P' r')
      constraints constraints' := by
  induction h with
  | nil => exact .nil
  | @cons c c' rest rest' hc _ ih =>
    obtain ⟨hhere, hrest⟩ := List.forall_mem_cons.mp hP
    obtain ⟨hhere', hrest'⟩ := List.forall_mem_cons.mp hP'
    refine .cons ?_ (ih hrest hrest')
    cases c with
    | relation r =>
      cases c' with
      | relation r' =>
        exact ⟨hc, hhere r (List.mem_singleton_self r), hhere' r' (List.mem_singleton_self r')⟩
      | slide windows => cases hc
    | slide windows =>
      cases c' with
      | relation r' => cases hc
      | slide windows' => trivial

namespace StandsIn

variable {standIn : Expr → Variable} {replaced : Expr → Prop} {known : Variable → Prop}
  (h : StandsIn standIn replaced known)
include h

/-- Relations over known variables are settled as one predicate only if they are the same. -/
theorem eq_of_settledAs {r r' s : Relation} (hr : r.SettledAs standIn s)
    (hr' : r'.SettledAs standIn s) (hpredicate : r.outline? ≠ none) (hover : r.Over known)
    (hover' : r'.Over known) (hreplaced : ∀ e ∈ r.replacements, replaced e)
    (hreplaced' : ∀ e ∈ r'.replacements, replaced e) : r = r' := by
  cases r with
  | intension e =>
    obtain rfl : s = .intension (e.lifting standIn) := hr
    cases r' with
    | intension e' =>
      exact congrArg Relation.intension (h.lifting_injective (hover e (List.mem_singleton_self e))
        (hover' e' (List.mem_singleton_self e')) hreplaced hreplaced' (Relation.intension.inj hr'))
    | extension list table =>
      have hlist : Relation.intension (e.lifting standIn) = .extension _ table := hr'
      cases hlist
    | _ => exact absurd rfl (hr' _)
  | _ => exact absurd rfl hpredicate

/-- Different lists over known variables stay different. -/
theorem variablesIn_injective {list list' : List Expr} {table : Table}
    (hover : (Relation.extension list table).Over known)
    (hover' : (Relation.extension list' table).Over known)
    (hreplaced : ∀ e ∈ beyondVariables list, replaced e)
    (hreplaced' : ∀ e ∈ beyondVariables list', replaced e)
    (heq : list.map (variableIn standIn) = list'.map (variableIn standIn)) : list = list' := by
  refine eq_of_map_eq (fun e he e' he' => ?_) heq
  refine h.variableIn_injective (hover e he) (hover' e' he') (fun hnone => hreplaced e ?_)
    fun hnone => hreplaced' e' ?_
  · exact List.mem_filter.mpr ⟨he, by rw [hnone]; rfl⟩
  · exact List.mem_filter.mpr ⟨he', by rw [hnone]; rfl⟩

end StandsIn

theorem Model.needed_of_mem {m : Model} {posting : Posting} (hposting : posting ∈ m.postings)
    {c : Constraint} (hc : c ∈ posting.body.constraints) {r : Relation} (hr : r ∈ c.relations) :
    ∀ e ∈ r.replacements, Needed m.replacements e := fun _ he =>
  .root (List.mem_append_left _ (List.mem_flatMap.mpr ⟨posting, hposting, List.mem_flatMap.mpr
    ⟨c, hc, List.mem_flatMap.mpr ⟨r, hr, he⟩⟩⟩))

/-- The extensions of a posting are settled as extensions over variables. -/
theorem eq_extensions_of_settledAs {standIn : Expr → Variable} {lists : List (List Expr)}
    {table : Table} {constraints' : List Constraint}
    (h : List.Forall₂ (Constraint.SettledAs standIn)
      (lists.map fun list => .relation (.extension list table)) constraints') :
    constraints' = (lists.map (List.map (variableIn standIn))).map
      fun list => .relation (.extension (list.map .var) table) := by
  rw [List.forall₂_map_left_iff] at h
  induction h with
  | nil => rfl
  | @cons list c' lists constraints' hc _ ih =>
    rw [List.map_cons, List.map_cons, ← ih]
    refine congrArg (· :: constraints') ?_
    cases c' with
    | relation r' =>
      obtain rfl : r' = .extension (list.map fun e => .var (e.variableIn standIn)) table := hc
      rw [List.map_map]
      rfl
    | slide windows => cases hc

namespace Introduced

variable {m : Model} {p : Introduced} {options : Options}

section
variable (hm : m.Reachable) (hp : ofModel m = .ok p) (hgroup : options.groupConstraints = true)
  {standIn : Expr → Variable} (hstands : StandsIn standIn (Needed m.replacements) m.store.Declares)
  {posting : Posting} (hposting : posting ∈ m.postings) {body : Body}
  (hgather : body.isGather = posting.body.isGather)
  (hsettled : List.Forall₂ (Constraint.SettledAs standIn) posting.body.constraints
    body.constraints)
include hm hp hgroup hstands hposting hgather hsettled

/-- The runs of a posting are folded as what they are settled as. -/
theorem foldsRuns_of_settled (hwritten : ⟨body, posting.decoration⟩ ∈ p.postings) :
    (p.grouping options).FoldsRuns (Relation.SettledAs standIn) posting
      ((p.grouping options).writePosting ⟨body, posting.decoration⟩) := by
  have hpairs := forall₂_settledBy
    (fun r => r.Over m.store.Declares ∧ ∀ e ∈ r.replacements, Needed m.replacements e)
    (fun r => r.Lifted p.store.Declares) hsettled
    (fun c hc r hr => ⟨(hm.sound.postings posting hposting c hc r hr).over,
      Model.needed_of_mem hposting hc hr⟩)
    fun c hc r hr => ((placed hm.sound hp).1 _ hwritten c hc r hr).lifted
  have hfolds : (p.grouping options).FoldsRuns _ posting
      ((p.grouping options).writePosting ⟨body, posting.decoration⟩) :=
    Grouping.foldsRuns_writePosting (store_built hm.sound hp).telling hgroup ?_ ?_ ?_ rfl hgather
      hpairs
  · exact hfolds.imp fun r r' h => h.1
  · exact fun r r' h => h.2.2
  · exact fun r r' h => h.1.outline?_eq ⟨_, h.2.2⟩
  · rintro r r' s _ ⟨hr, ⟨hrOver, hrNeeded⟩, -⟩ ⟨hs, ⟨hsOver, hsNeeded⟩, -⟩ hpredicate rfl
    exact hstands.eq_of_settledAs hr hs hpredicate hrOver hsOver hrNeeded hsNeeded

omit hp in
/-- Extensions of one table over different lists are one group, also when variables stand in
for the entries of the lists. -/
theorem writePosting_of_extensions {lists : List (List Expr)} {table : Table}
    (hlists : posting.body = .gather (lists.map fun list => .relation (.extension list table)))
    (hmany : 2 ≤ lists.length) (hnodup : lists.Nodup)
    (hlength : ∀ list ∈ lists, ∀ list' ∈ lists, list.length = list'.length) :
    (p.grouping options).writePosting ⟨body, posting.decoration⟩ =
      [.group (Layout.ofTable [.allPlaceholders] table)
        (lists.map fun list => list.map fun e => .var (e.variableIn standIn))
        posting.decoration] := by
  have hmem : ∀ list ∈ lists, Constraint.relation (.extension list table) ∈
      posting.body.constraints := fun list hlist => by
    rw [hlists]
    exact List.mem_map_of_mem hlist
  have hover : ∀ list ∈ lists, (Relation.extension list table).Over m.store.Declares :=
    fun list hlist => (hm.sound.postings posting hposting _ (hmem list hlist) _
      (List.mem_singleton_self _)).over
  have hneeded : ∀ list ∈ lists, ∀ e ∈ beyondVariables list, Needed m.replacements e :=
    fun list hlist => Model.needed_of_mem hposting (hmem list hlist) (List.mem_singleton_self _)
  have hmapped : (lists.map (List.map (variableIn standIn))).Nodup :=
    hnodup.map_on fun list hlist list' hlist' => hstands.variablesIn_injective (hover list hlist)
      (hover list' hlist') (hneeded list hlist) (hneeded list' hlist')
  rw [hlists] at hsettled hgather
  rw [Grouping.writePosting, hgather, eq_extensions_of_settledAs hsettled, Body.isGather,
    Grouping.writeConstraints_extensions hgroup (by rwa [List.length_map]) hmapped,
    Grouping.decorate_group, List.map_map]
  · simp [Function.comp_def]
  · simpa only [List.forall_mem_map, List.length_map] using hlength

end

/-- What is written is folded like what is posted, the links included. -/
theorem foldsRuns_of_mem_postings (hm : m.Reachable) (hp : ofModel m = .ok p)
    (hgroup : options.groupConstraints = true) {posting : Posting}
    (hposting : posting ∈ p.postings) :
    (p.grouping options).FoldsRuns (· = ·) posting ((p.grouping options).writePosting posting) := by
  refine (Grouping.foldsRuns_writePosting (S := fun r r' => r = r' ∧ r'.Lifted p.store.Declares)
    (store_built hm.sound hp).telling hgroup (fun r r' h => h.2) (fun r r' h => by rw [h.1]) ?_ rfl
    rfl ?_).imp fun r r' h => h.1
  · rintro r _ s _ ⟨rfl, -⟩ ⟨rfl, -⟩ - heq
    exact heq
  · rw [List.forall₂_same]
    intro c hc
    cases c with
    | relation r =>
      exact ⟨rfl, ((placed hm.sound hp).1 _ hposting _ hc r (List.mem_singleton_self r)).lifted⟩
    | slide windows => trivial

/-- When similar constraints are grouped, the entries of every model come posting by posting,
those of its links after its own.

* In a run, the constraints between two slides, predicates with the same outline are in one
  part.  The parts are in the order of their first members.  A part is one group or one
  instantiation, unless it has one member only, or its members are all the same and are no
  equalities to be recognised; then they are written one by one.
* Extensions of one table over different lists of one length are one group, with an instance
  for each in the order in which they were posted.

The first is also true of what is written, the links included. -/
theorem similar_together (hm : m.Reachable) (hp : ofModel m = .ok p)
    (hgroup : options.groupConstraints = true) :
    ∃ (standIn : Expr → Variable) (blocks : List (List Written)) (last : List Written),
      StandsIn standIn (Needed m.replacements) m.store.Declares ∧
      p.entries options = blocks.flatten ++ last ∧
      List.Forall₂ (fun posting block => ∃ own links, block = own ++ links ∧
        (p.grouping options).FoldsRuns (Relation.SettledAs standIn) posting own ∧
        ∀ (lists : List (List Expr)) (table : Table),
          posting.body = .gather (lists.map fun list => .relation (.extension list table)) →
          2 ≤ lists.length → lists.Nodup →
          (∀ list ∈ lists, ∀ list' ∈ lists, list.length = list'.length) →
          own = [.group (Layout.ofTable [.allPlaceholders] table)
            (lists.map fun list => list.map fun e => .var (e.variableIn standIn))
            posting.decoration]) m.postings blocks ∧
      ∀ posting ∈ p.postings, (p.grouping options).FoldsRuns (· = ·) posting
        ((p.grouping options).writePosting posting) := by
  obtain ⟨standIn, blocks, last, hstands, hpostings, hblocks⟩ := exists_standIn hm hp
  refine ⟨standIn, blocks.map (List.flatMap (p.grouping options).writePosting),
    last.flatMap (p.grouping options).writePosting, hstands, ?_, ?_,
    fun posting hposting => foldsRuns_of_mem_postings hm hp hgroup hposting⟩
  · rw [entries, Grouping.write, hpostings, List.flatMap_append, List.flatMap_def,
      List.map_flatten, List.flatten_flatten, List.map_map]
    rfl
  rw [List.forall₂_map_right_iff]
  rw [List.forall₂_iff_get] at hblocks ⊢
  refine ⟨hblocks.1, fun k hk hk' => ?_⟩
  obtain ⟨body, links, hblock, hgather, hsettled⟩ := hblocks.2 k hk hk'
  have hposting : m.postings.get ⟨k, hk⟩ ∈ m.postings := List.get_mem _ _
  have hwritten : ⟨body, (m.postings.get ⟨k, hk⟩).decoration⟩ ∈ p.postings := by
    rw [hpostings]
    refine List.mem_append_left _ (List.mem_flatten.mpr ⟨_, List.get_mem blocks ⟨k, hk'⟩, ?_⟩)
    rw [hblock]
    exact List.mem_cons_self
  rw [hblock]
  refine ⟨_, links.flatMap (p.grouping options).writePosting, List.flatMap_cons, ?_,
    fun lists table => ?_⟩
  · exact foldsRuns_of_settled hm hp hgroup hstands hposting hgather hsettled hwritten
  · exact writePosting_of_extensions hm hgroup hstands hposting hgather hsettled

end Introduced

/-- Whether entries are in the order of the first constraints they stand for. -/
def Written.InOrder (names : Variable → String) (relations : List Relation)
    (entries : List Written) : Prop :=
  ∃ parts : List (List Nat), parts.flatten.Perm (List.range relations.length) ∧
    List.Forall₂ (fun entry part => entry.Covers names (part.filterMap (relations[·]?)))
      entries parts ∧
    parts.Pairwise fun part later => ∀ i ∈ part.head?, ∀ j ∈ later.head?, i < j

namespace Row

/-- Steps from a value to the next one. -/
def steps : Table := ⟨.supports, [[.integer 0, .integer 1], [.integer 1, .integer 2]]⟩

/-- A step from every cell to the next one. -/
def stepwise : List Constraint :=
  [.relation (.extension [cell 0, cell 1] steps), .relation (.extension [cell 1, cell 2] steps)]

/-- The same comparison before and after another constraint. -/
def repeated : List Constraint :=
  [.relation (.intension (less 0 3)), .relation (.allDifferent [cell 0, cell 1] []),
    .relation (.intension (less 0 3))]

def model : Model where
  instanceName := {}
  store := store
  postings := [⟨.gather stepwise, {}⟩, ⟨.gather repeated, {}⟩]

/-- There is nothing to introduce. -/
def introduced : Introduced where
  store := store
  postings := [⟨.gather stepwise, {}⟩, ⟨.gather repeated, {}⟩]
  objective := none
  replaced := []

theorem ofModel_model : Introduced.ofModel model = .ok introduced := by
  cbv

/-- The model with nothing but the row. -/
def declared : Model := { instanceName := {}, store := store }

/-- The model with the steps. -/
def stepping : Model := { declared with postings := [⟨.gather stepwise, {}⟩] }

theorem reachable_declared : declared.Reachable := by
  have hadd : (Model.empty 0 {}).addArray (some "x") [3] (fun _ => some colours) =
      .ok (⟨"x", [3], [some ⟨0, 0⟩, some ⟨0, 1⟩, some ⟨0, 2⟩]⟩, declared) := by
    cbv
  exact .addArray (.empty 0 {}) (fun _ _ h => Option.some.inj h ▸ built_colours) hadd

theorem reachable_model : model.Reachable := by
  have hcell : ∀ {index : Nat}, index < 3 → declared.HandsOut ⟨0, index⟩ := fun h _ =>
    declares_cell h
  have hpair : ∀ i j : Nat, i < 3 → j < 3 → ∀ e ∈ [cell i, cell j],
      e.Built declared.HandsOut := by
    intro i j hi hj e he
    rcases List.mem_pair.mp he with rfl | rfl
    · exact .var (hcell hi)
    · exact .var (hcell hj)
  have hless : (less 0 3).Built declared.HandsOut := built_less (hcell (by decide)) (by decide)
  have hextension : ∀ i : Nat, Constraint.extension [cell i, cell (i + 1)] steps =
      .ok (.relation (.extension [cell i, cell (i + 1)] steps)) := fun i => by
    cbv
  have hstepwise : ∀ c ∈ stepwise, c.Built declared.HandsOut := by
    intro c hc
    rcases List.mem_pair.mp hc with rfl | rfl
    · exact .extension (hpair 0 1 (by decide) (by decide)) (hextension _)
    · exact .extension (hpair 1 2 (by decide) (by decide)) (hextension _)
  have hrepeated : ∀ c ∈ repeated, c.Built declared.HandsOut := by
    intro c hc
    rcases List.mem_cons.mp hc with rfl | hc
    · exact .intension hless (by cbv)
    · rcases List.mem_pair.mp hc with rfl | rfl
      · exact .allDifferent (hpair 0 1 (by decide) (by decide))
          (by cbv : Constraint.allDifferent [cell 0, cell 1] [] = _)
      · exact .intension hless (by cbv)
  have hlist : ∀ {constraints : List Constraint}, (∀ c ∈ constraints, c.Built declared.HandsOut) →
      (Item.list (constraints.map .constraint)).Built declared.HandsOut := fun h =>
    .list (List.forall_mem_map.mpr fun c hc => .constraint (h c hc))
  have hfirst : declared.post (.list (stepwise.map .constraint)) {} = .ok (stepping, []) := by
    cbv
  have hsecond : stepping.post (.list (repeated.map .constraint)) {} = .ok (model, []) := by
    cbv
  exact .post (.post reachable_declared (hlist hstepwise) hfirst) (hlist hrepeated) hsecond

/-- The steps are one group, and the two comparisons that are the same stand together. -/
theorem folded_together : model.Reachable ∧ ({} : Options).groupConstraints = true ∧
    Written.group (Layout.ofTable [.allPlaceholders] steps)
      [[.var ⟨0, 0⟩, .var ⟨0, 1⟩], [.var ⟨0, 1⟩, .var ⟨0, 2⟩]] {} ∈ introduced.entries {} ∧
    ∀ posting ∈ introduced.postings, (introduced.grouping {}).FoldsRuns (· = ·) posting
      ((introduced.grouping {}).writePosting posting) := by
  obtain ⟨standIn, blocks, last, -, hentries, hblocks, hpostings⟩ :=
    Introduced.similar_together reachable_model ofModel_model
      (rfl : ({} : Options).groupConstraints = true)
  refine ⟨reachable_model, rfl, ?_, hpostings⟩
  cases hblocks with
  | cons hsteps _ =>
    obtain ⟨own, links, rfl, -, hgroup⟩ := hsteps
    have hown := hgroup [[cell 0, cell 1], [cell 1, cell 2]] steps rfl (by decide) (by decide)
      (by decide)
    rw [hentries, hown]
    exact List.mem_append_left _
      (List.mem_append_left _ (List.mem_append_left _ List.mem_cons_self))

/-- The second one of the comparisons is written before the constraint between them. -/
theorem repeated_not_inOrder : model.Reachable ∧ Introduced.ofModel model = .ok introduced ∧
    ({} : Options).groupConstraints = true ∧ model.postings[1]? = some ⟨.gather repeated, {}⟩ ∧
    ¬Written.InOrder store.nameOf (repeated.flatMap Constraint.relations)
      ((introduced.grouping {}).writePosting ⟨.gather repeated, {}⟩) := by
  have hwritten : (introduced.grouping {}).writePosting ⟨.gather repeated, {}⟩ =
      [.alone (.intension (less 0 3)), .alone (.intension (less 0 3)),
        .alone (.allDifferent [cell 0, cell 1] [])] := by
    cbv
  refine ⟨reachable_model, ofModel_model, rfl, rfl, ?_⟩
  rw [hwritten]
  rintro ⟨parts, hperm, hcovers, hordered⟩
  cases hcovers with
  | @cons _ first _ _ hfirst hcovers =>
  cases hcovers with
  | @cons _ second _ _ hsecond hcovers =>
  cases hcovers with
  | @cons _ third _ _ hthird hcovers =>
  cases hcovers
  have hlt : ∀ part ∈ [first, second, third], ∀ i ∈ part, i < 3 := fun part hpart i hi =>
    List.mem_range.mp (hperm.mem_iff.mp (List.mem_flatten.mpr ⟨part, hpart, hi⟩))
  have hhead : ∀ {r : Relation} {part : List Nat}, part ∈ [first, second, third] →
      (Written.alone r).Covers store.nameOf
        (part.filterMap ((repeated.flatMap Constraint.relations)[·]?)) →
      ∃ i r', part.head? = some i ∧ (repeated.flatMap Constraint.relations)[i]? = some r' ∧
        r'.reading store.nameOf = r.reading store.nameOf := by
    intro r part hpart hcovers
    cases part with
    | nil => cases hcovers
    | cons i rest =>
      have hi : i < (repeated.flatMap Constraint.relations).length :=
        hlt _ hpart i List.mem_cons_self
      have hr := List.getElem?_eq_getElem hi
      rw [List.filterMap_cons_some hr] at hcovers
      exact ⟨i, _, rfl, hr, (List.cons.inj hcovers).1.symm⟩
  obtain ⟨i, -, hi, -, -⟩ := hhead (by simp) hfirst
  obtain ⟨j, -, hj, -, -⟩ := hhead (by simp) hsecond
  obtain ⟨k, r, hk, hr, hreading⟩ := hhead (by simp) hthird
  -- only the second constraint says that the cells are different
  have hone : k = 1 := by
    rcases k with _ | _ | _ | k
    · cases hr
      cases hreading
    · rfl
    · cases hr
      cases hreading
    · cases hr
  simp only [List.pairwise_cons, List.forall_mem_cons] at hordered
  have hij := hordered.1.1 i hi j hj
  have hjk := hordered.2.1.1 j hj k hk
  omega

end Row
end CspModel
