import CspModel.Proofs.Operations
import CspModel.Proofs.Placement
import CspModel.Proofs.Representation
import CspModel.Proofs.Requests

/-! # Every link once

The introduction of auxiliary variables replaces exactly the expressions that have to be
replaced (`Needed`), each by a variable of its own, and writes the link of every one of them
once, after the first posting that needs it (`Introduced.links_once`).

`Needs` is the judgement behind it: a step replaces what it needs and nothing else, and
taken again where everything is replaced already it returns the same and changes nothing.
So what is written is what the table of replaced expressions makes of what was posted.
-/
namespace CspModel

open CspModel.Expr

/-! ### Steps that replace what they need -/

/-- The expressions that variables stand for. -/
def Introduction.keys (state : Introduction) : List Expr := state.replaced.map Prod.fst

theorem Introduction.keys_subset {state state' : Introduction}
    (h : state.replaced ⊆ state'.replaced) : state.keys ⊆ state'.keys := List.map_subset _ h

/-- A later state holds what the table of a state holds, and no expression twice. -/
structure Introduction.ContinuedBy (state final : Introduction) : Prop where
  unique : final.keys.Nodup
  subset : state.replaced ⊆ final.replaced

theorem Introduction.ContinuedBy.of_subset {state state' final : Introduction}
    (h : state'.ContinuedBy final) (hsub : state.replaced ⊆ state'.replaced) :
    state.ContinuedBy final := ⟨h.unique, List.Subset.trans hsub h.subset⟩

/-- The step introduces variables for expressions it needs, never a second one for the same
expression, and for all of them.  Taken again where all of them are replaced, it returns the
same and changes nothing. -/
structure Needs {α : Type} (es : List Expr) (x : Introducing α) : Prop where
  grows : ∀ {state a state'}, x state = .ok (a, state') → ∃ new, state.Grows (· ∈ es) new state'
  unique : ∀ {state a state'}, x state = .ok (a, state') → state.keys.Nodup → state'.keys.Nodup
  covers : ∀ {state a state'}, x state = .ok (a, state') → es ⊆ state'.keys
  again : ∀ {state a state'}, x state = .ok (a, state') → ∀ {final : Introduction},
    state'.ContinuedBy final → x final = .ok (a, final)

namespace Needs

variable {α β : Type} {es es' : List Expr}

theorem subset {x : Introducing α} (hx : Needs es x) {state state' : Introduction} {a : α}
    (h : x state = .ok (a, state')) : state.replaced ⊆ state'.replaced :=
  have ⟨_, hgrows⟩ := hx.grows h
  hgrows.subset

theorem pure (a : α) : Needs [] (pure a) where
  grows hrun := by
    cases hrun
    exact ⟨[], .refl _ _⟩
  unique hrun hunique := by
    cases hrun
    exact hunique
  covers _ := List.nil_subset _
  again hrun _ _ := by
    cases hrun
    rfl

theorem bind {x : Introducing α} {f : α → Introducing β} (hx : Needs es x)
    (hf : ∀ a, Needs es' (f a)) : Needs (es ++ es') (x >>= f) where
  grows hrun := by
    obtain ⟨a, state', ha, hb⟩ := Introducing.bind_eq_ok.mp hrun
    obtain ⟨new, hgrows⟩ := hx.grows ha
    obtain ⟨new', hgrows'⟩ := (hf a).grows hb
    exact ⟨new ++ new', (hgrows.mono fun _ => List.mem_append_left _).trans
      (hgrows'.mono fun _ => List.mem_append_right _)⟩
  unique hrun hunique := by
    obtain ⟨a, state', ha, hb⟩ := Introducing.bind_eq_ok.mp hrun
    exact (hf a).unique hb (hx.unique ha hunique)
  covers hrun := by
    obtain ⟨a, state', ha, hb⟩ := Introducing.bind_eq_ok.mp hrun
    refine List.append_subset.mpr ⟨?_, (hf a).covers hb⟩
    exact List.Subset.trans (hx.covers ha) (Introduction.keys_subset ((hf a).subset hb))
  again hrun final hfinal := by
    obtain ⟨a, state', ha, hb⟩ := Introducing.bind_eq_ok.mp hrun
    exact Introducing.bind_eq_ok.mpr
      ⟨a, final, hx.again ha (hfinal.of_subset ((hf a).subset hb)), (hf a).again hb hfinal⟩

theorem congr {x : Introducing α} (hx : Needs es x) (h : ∀ e, e ∈ es' ↔ e ∈ es) :
    Needs es' x where
  grows hrun :=
    have ⟨new, hgrows⟩ := hx.grows hrun
    ⟨new, hgrows.mono fun e => (h e).mpr⟩
  unique := hx.unique
  covers hrun _ he := hx.covers hrun ((h _).mp he)
  again := hx.again

theorem throw (cause : ModelError) : Needs es (throw cause : Introducing α) :=
  ⟨fun hrun => (nomatch hrun), fun hrun => (nomatch hrun), fun hrun => (nomatch hrun),
    fun hrun => (nomatch hrun)⟩

end Needs

namespace Introducing

theorem lookup_eq_some_of_mem {table : List (Expr × Variable)} {e : Expr} {v : Variable}
    (hunique : (table.map Prod.fst).Nodup) (h : (e, v) ∈ table) : table.lookup e = some v := by
  obtain ⟨before, after, rfl⟩ := List.append_of_mem h
  refine List.lookup_eq_some_iff.mpr ⟨before, after, rfl, fun q hq => ?_⟩
  rw [List.map_append, List.map_cons, List.nodup_append] at hunique
  have hne : q.1 ≠ e := hunique.2.2 q.1 (List.mem_map_of_mem hq) e List.mem_cons_self
  simpa using Ne.symm hne

theorem needs_auxiliary (e : Expr) : Needs [e] (auxiliary e) where
  grows hrun := by
    rcases auxiliary_eq_ok hrun with ⟨rfl, _⟩ | ⟨d, hd, rfl, rfl⟩
    · exact ⟨[], .refl _ _⟩
    · exact ⟨[_], .snoc .nil (List.mem_singleton_self e) hd, rfl, rfl⟩
  unique {state v state'} hrun hunique := by
    unfold auxiliary at hrun
    split at hrun
    · cases hrun
      exact hunique
    · rename_i hnone
      split at hrun
      · cases hrun
      · cases hrun
        refine List.nodup_cons.mpr ⟨fun hmem => ?_, hunique⟩
        obtain ⟨q, hq, rfl⟩ := List.mem_map.mp hmem
        simpa using List.lookup_eq_none_iff.mp hnone q hq
  covers hrun := by
    refine List.cons_subset.mpr ⟨?_, List.nil_subset _⟩
    rcases auxiliary_eq_ok hrun with ⟨rfl, hmem⟩ | ⟨d, _, rfl, rfl⟩
    · exact List.mem_map_of_mem hmem
    · exact List.mem_cons_self
  again {state v state'} hrun final hfinal := by
    have hmem : (e, v) ∈ state'.replaced := by
      rcases auxiliary_eq_ok hrun with ⟨rfl, hmem⟩ | ⟨d, _, rfl, rfl⟩
      · exact hmem
      · exact List.mem_cons_self
    unfold auxiliary
    rw [lookup_eq_some_of_mem hfinal.unique (hfinal.subset hmem)]

/-- A step needs what it asks for. -/
theorem Asks.needs {α : Type} {es : List Expr} {x : Introducing α} (h : Asks es x) :
    Needs es x := by
  induction h with
  | pure a => exact .pure a
  | auxiliary e => exact needs_auxiliary e
  | bind _ _ hx hf => exact hx.bind hf
  | overflow => exact .throw _
  | congr _ hmem hx => exact hx.congr hmem

/-- Each of the steps for the entries of a list can be taken again. -/
theorem Asks.mapM_again {α β : Type} {es : α → List Expr} {f : α → Introducing β} {list : List α}
    (h : ∀ a ∈ list, Asks (es a) (f a)) {state state' : Introduction} {bs : List β}
    (hrun : list.mapM f state = .ok (bs, state')) {final : Introduction}
    (hfinal : state'.ContinuedBy final) :
    List.Forall₂ (fun a b => f a final = .ok (b, final)) list bs := by
  induction list generalizing state bs with
  | nil =>
    cases hrun
    exact .nil
  | cons a rest ih =>
    rw [List.mapM_cons] at hrun
    obtain ⟨b, state₁, hb, hrun⟩ := bind_eq_ok.mp hrun
    obtain ⟨bs, state₂, hbs, hrun⟩ := bind_eq_ok.mp hrun
    cases hrun
    have hrest : ∀ a ∈ rest, Asks (es a) (f a) := fun a ha => h a (List.mem_cons_of_mem _ ha)
    refine .cons ?_ (ih hrest hbs)
    exact (h a List.mem_cons_self).needs.again hb
      (hfinal.of_subset ((mapM hrest).needs.subset hbs))

end Introducing

/-! ### Settling links -/

namespace Introduction

/-- Whether all that the links of replaced expressions cannot hold is replaced. -/
def Saturated (state : Introduction) : Prop := ∀ e ∈ state.keys, e.nested ⊆ state.keys

/-- Whether a constraint becomes another one where everything it needs is replaced. -/
def Becomes (final : Introduction) (c c' : Constraint) : Prop :=
  Introducing.settle c final = .ok (c', final)

/-- Whether the link of a replaced expression becomes the relation. -/
def Links (final : Introduction) (q : Expr × Variable) (r : Relation) : Prop :=
  Introducing.settleRelation (Introducing.link q.2 q.1) final = .ok (r, final)

/-- From one state to the next all that some expressions need was replaced, and nothing
else. -/
structure Closes (roots : List Expr) (state : Introduction) (new : List (Expr × Variable))
    (state' : Introduction) : Prop where
  completes : state.Completes (Needed roots) new state'
  unique : state.keys.Nodup → state'.keys.Nodup
  roots : roots ⊆ state'.keys
  saturated : state.Saturated → state'.Saturated

theorem Completes.mono {P P' : Expr → Prop} {state state' : Introduction}
    {new : List (Expr × Variable)} (h : state.Completes P new state') (hP : ∀ e, P e → P' e) :
    state.Completes P' new state' := ⟨h.store.mono hP, h.replaced, h.pending⟩

theorem Completes.keys {P : Expr → Prop} {state state' : Introduction}
    {new : List (Expr × Variable)} (h : state.Completes P new state') :
    state'.keys = (new.map Prod.fst).reverse ++ state.keys := by
  rw [Introduction.keys, h.replaced, List.map_append, List.map_reverse]
  rfl

namespace Closes

variable {roots roots' : List Expr} {state state' state'' : Introduction}
  {new new' : List (Expr × Variable)}

theorem trans (h : Closes roots state new state') (h' : Closes roots' state' new' state'') :
    Closes (roots ++ roots') state (new ++ new') state'' where
  completes := (h.completes.mono fun _ he => he.mono (List.subset_append_left _ _)).trans
    (h'.completes.mono fun _ he => he.mono (List.subset_append_right _ _))
  unique hunique := h'.unique (h.unique hunique)
  roots := List.append_subset.mpr
    ⟨List.Subset.trans h.roots (keys_subset h'.completes.subset), h'.roots⟩
  saturated hstate := h'.saturated (h.saturated hstate)

theorem needed (h : Closes roots state new state') : ∀ q ∈ new, Needed roots q.1 :=
  h.completes.store.kind

theorem mem_keys (h : Closes roots state new state') (hstate : state.Saturated) {e : Expr}
    (he : Needed roots e) : e ∈ state'.keys := he.mem_of_closed h.roots (h.saturated hstate)

/-- From a state without replaced expressions just those that are needed are replaced. -/
theorem mem_keys_iff (h : Closes roots state new state') (hempty : state.replaced = []) {e : Expr} :
    e ∈ state'.keys ↔ Needed roots e := by
  have hnone : state.keys = [] := by rw [keys, hempty, List.map_nil]
  constructor
  · intro he
    rw [h.completes.keys, hnone, List.append_nil, List.mem_reverse] at he
    obtain ⟨q, hq, rfl⟩ := List.mem_map.mp he
    exact h.needed q hq
  · refine h.mem_keys fun e he => ?_
    rw [hnone] at he
    cases he

/-- What is replaced anew was not replaced before. -/
theorem not_mem_keys (h : Closes roots state new state') (hunique : state'.keys.Nodup) :
    ∀ q ∈ new, q.1 ∉ state.keys := by
  intro q hq hmem
  rw [h.completes.keys] at hunique
  have hnew : q.1 ∈ (new.map Prod.fst).reverse :=
    List.mem_reverse.mpr (List.mem_map_of_mem hq)
  exact (List.nodup_append.mp hunique).2.2 _ hnew _ hmem rfl

end Closes

/-- The links of some replaced expressions were settled, with those of all that was replaced
on the way, one for each and in order. -/
structure SettlesLinks (state : Introduction) (pairs new : List (Expr × Variable))
    (done : List Relation) (state' : Introduction) : Prop where
  completes : state.Completes (Needed (pairs.flatMap fun q => q.1.nested)) new state'
  unique : state.keys.Nodup → state'.keys.Nodup
  nested : ∀ q ∈ pairs ++ new, q.1.nested ⊆ state'.keys
  links : ∀ {final : Introduction}, state'.ContinuedBy final →
    List.Forall₂ final.Links (pairs ++ new) done

end Introduction

namespace Introducing

variable {state state₁ state' : Introduction}

/-- One wave settles the links of some replaced expressions. -/
theorem needs_mapM_link (pairs : List (Expr × Variable)) :
    Needs (pairs.flatMap fun q => q.1.nested)
      ((pairs.map fun q => link q.2 q.1).mapM settleRelation) := by
  refine (Asks.mapM fun r _ => asks_settleRelation r).needs.congr fun e => ?_
  simp [replacements_link]

/-- Without pending links there is nothing to settle. -/
theorem settlesLinks_nil (hpending : state.pending = []) :
    state.SettlesLinks [] [] [] state where
  completes := ⟨.nil, rfl, hpending⟩
  unique hunique := hunique
  nested _ hq := nomatch hq
  links _ := .nil

/-- The links of a wave are settled, then those of what the wave replaced. -/
theorem settlesLinks_wave {pairs new new' : List (Expr × Variable)} {here later : List Relation}
    (hhere : (pairs.map fun q => link q.2 q.1).mapM settleRelation { state with pending := [] } =
      .ok (here, state₁))
    (hgrows : Introduction.Grows (· ∈ pairs.flatMap fun q => q.1.nested)
      { state with pending := [] } new state₁)
    (hlater : state₁.SettlesLinks new new' later state') :
    state.SettlesLinks pairs (new ++ new') (here ++ later) state' := by
  have hneeds := needs_mapM_link pairs
  have hsub : state₁.replaced ⊆ state'.replaced := hlater.completes.subset
  have hneeded := fun q hq => Needed.root (hgrows.store.kind q hq)
  refine ⟨?_, fun hunique => hlater.unique (hneeds.unique hhere hunique), fun q hq => ?_,
    fun hfinal => ?_⟩
  · have hcompletes := (hgrows.mono fun _ => Needed.root).completes
      (hlater.completes.mono fun _ => .of_nested hneeded)
    exact ⟨hcompletes.store, hcompletes.replaced, hcompletes.pending⟩
  · rcases List.mem_append.mp hq with hq | hq
    · intro e he
      refine Introduction.keys_subset hsub (hneeds.covers hhere ?_)
      exact List.mem_flatMap.mpr ⟨q, hq, he⟩
    · exact hlater.nested q hq
  · have hagain := Asks.mapM_again (fun r _ => asks_settleRelation r) hhere
      (hfinal.of_subset hsub)
    exact List.rel_append (List.forall₂_map_left_iff.mp hagain) (hlater.links hfinal)

/-- With enough waves the links of all that is replaced are settled. -/
theorem settleWaves_links {n : Nat} {pairs : List (Expr × Variable)} {done : List Relation}
    (hdepth : ∀ q ∈ pairs, q.1.depth < n)
    (hpending : state.pending = pairs.map fun q => link q.2 q.1)
    (hrun : settleWaves n state = .ok (done, state')) :
    ∃ new, state.SettlesLinks pairs new done state' := by
  induction n generalizing pairs state done with
  | zero =>
    have hpairs : pairs = [] := List.eq_nil_iff_forall_not_mem.mpr fun q hq =>
      Nat.not_lt_zero _ (hdepth q hq)
    cases hrun
    subst hpairs
    exact ⟨[], settlesLinks_nil hpending⟩
  | succ n ih =>
    by_cases hpairs : pairs = []
    · subst hpairs
      rw [settleWaves_of_none hpending] at hrun
      cases hrun
      exact ⟨[], settlesLinks_nil hpending⟩
    · have hsome : state.pending ≠ [] := by simpa [hpending] using hpairs
      obtain ⟨here, state₁, later, hhere, hlater, rfl⟩ := exists_of_settleWaves_eq_ok hsome hrun
      rw [hpending] at hhere
      obtain ⟨new, hgrows⟩ := (needs_mapM_link pairs).grows hhere
      -- what a wave replaces is nested less deep than what the wave settled
      have hless : ∀ q ∈ new, q.1.depth < n := by
        intro q hq
        obtain ⟨q', hq', hnested⟩ := List.mem_flatMap.mp (hgrows.store.kind q hq)
        have hinner := depth_lt_of_mem_inner (q'.1.nested_subset_inner hnested)
        have hbound := hdepth q' hq'
        omega
      obtain ⟨new', hlinks⟩ := ih hless hgrows.pending hlater
      exact ⟨new ++ new', settlesLinks_wave hhere hgrows hlinks⟩

/-- A step from a saturated state, followed by the links it brings along. -/
theorem linkConstraints_closes {α : Type} {x : Introducing α} {roots : List Expr} {a : α}
    {links : List Constraint} (hx : Needs roots x) (hpending : state.pending = [])
    (hrun : x state = .ok (a, state₁)) (hlinks : linkConstraints state₁ = .ok (links, state')) :
    state₁.replaced ⊆ state'.replaced ∧ ∃ new done, links = done.map .relation ∧
      Introduction.Closes roots state new state' ∧ ∀ {final : Introduction},
        state'.ContinuedBy final → List.Forall₂ final.Links new done := by
  obtain ⟨done, hdone, rfl⟩ := map_eq_ok hlinks
  have hdone : settleWaves (waves state₁.pending) state₁ = .ok (done, state') := hdone
  obtain ⟨new, hgrows⟩ := hx.grows hrun
  have hpending₁ : state₁.pending = new.map fun q => link q.2 q.1 := by
    rw [hgrows.pending, hpending, List.nil_append]
  have hdepth : ∀ q ∈ new, q.1.depth < waves state₁.pending := fun q hq => by
    refine depth_lt_waves (v := q.2) ?_
    rw [hpending₁]
    exact List.mem_map.mpr ⟨q, hq, rfl⟩
  obtain ⟨new', hsettles⟩ := settleWaves_links hdepth hpending₁ hdone
  have hsub : state₁.replaced ⊆ state'.replaced := hsettles.completes.subset
  have hneeded := fun q hq => Needed.root (hgrows.store.kind q hq)
  have hcompletes := (hgrows.mono fun _ => Needed.root).completes
    (hsettles.completes.mono fun _ => .of_nested hneeded)
  refine ⟨hsub, new ++ new', done, rfl, ⟨hcompletes, fun hunique => ?_, ?_, fun hstate e he => ?_⟩,
    hsettles.links⟩
  · exact hsettles.unique (hx.unique hrun hunique)
  · exact List.Subset.trans (hx.covers hrun) (Introduction.keys_subset hsub)
  · rw [hcompletes.keys] at he
    rcases List.mem_append.mp he with hnew | hold
    · obtain ⟨q, hq, rfl⟩ := List.mem_map.mp (List.mem_reverse.mp hnew)
      exact hsettles.nested q hq
    · exact List.Subset.trans (hstate e hold) (Introduction.keys_subset hcompletes.subset)

end Introducing

/-! ### Postings and the objective -/

namespace Introduction

/-- What is written for a posting: the posting with its labels, and after it the links of
some replaced expressions, one by one or gathered. -/
inductive Writes (final : Introduction) :
    Posting → List (Expr × Variable) → List Posting → Prop
  | single {c c' : Constraint} {decoration : Decoration} {first : List (Expr × Variable)}
      {links : List Relation} : final.Becomes c c' → List.Forall₂ final.Links first links →
      Writes final ⟨.single c, decoration⟩ first
        (⟨.single c', decoration⟩ :: links.map fun r => ⟨.single (.relation r), {}⟩)
  | gather {cs cs' : List Constraint} {decoration : Decoration}
      {first : List (Expr × Variable)} {links : List Relation} :
      List.Forall₂ final.Becomes cs cs' → List.Forall₂ final.Links first links →
      Writes final ⟨.gather cs, decoration⟩ first
        (⟨.gather cs', decoration⟩ :: Introducing.gathered (links.map .relation))

/-- Whether an objective becomes another one where everything it needs is replaced. -/
def Optimises (final : Introduction) (o o' : Objective) : Prop :=
  o'.direction = o.direction ∧
    Introducing.settleObjectiveTarget o.target final = .ok (o'.target, final)

end Introduction

namespace Introducing

variable {state state₁ state' : Introduction}

theorem settlePosting_closes {p : Posting} {written : List Posting}
    (hpending : state.pending = []) (hrun : settlePosting p state = .ok (written, state')) :
    ∃ first, Introduction.Closes p.replacements state first state' ∧
      ∀ {final : Introduction}, state'.ContinuedBy final → final.Writes p first written := by
  obtain ⟨body, decoration⟩ := p
  cases body with
  | single c =>
    obtain ⟨c', state₁, hc, hrun⟩ := bind_eq_ok.mp hrun
    obtain ⟨links, state₂, hlinks, hrun⟩ := bind_eq_ok.mp hrun
    cases hrun
    obtain ⟨hsub, first, done, rfl, hcloses, hdone⟩ :=
      linkConstraints_closes (asks_settle c).needs hpending hc hlinks
    have hroots : (⟨.single c, decoration⟩ : Posting).replacements = c.replacements :=
      List.append_nil _
    refine ⟨first, hroots ▸ hcloses, fun hfinal => ?_⟩
    rw [List.map_map]
    exact .single ((asks_settle c).needs.again hc (hfinal.of_subset hsub)) (hdone hfinal)
  | gather constraints =>
    obtain ⟨constraints', state₁, hc, hrun⟩ := bind_eq_ok.mp hrun
    obtain ⟨links, state₂, hlinks, hrun⟩ := bind_eq_ok.mp hrun
    cases hrun
    rw [settleAll_eq_mapM] at hc
    have hasks := Asks.mapM fun c (_ : c ∈ constraints) => asks_settle c
    obtain ⟨hsub, first, done, rfl, hcloses, hdone⟩ :=
      linkConstraints_closes hasks.needs hpending hc hlinks
    refine ⟨first, hcloses, fun hfinal => .gather ?_ (hdone hfinal)⟩
    exact Asks.mapM_again (fun c _ => asks_settle c) hc (hfinal.of_subset hsub)

end Introducing

/-- A posting with the expressions it is the first to need, each with its variable, and what
is written for it. -/
structure Block where
  posting : Posting
  first : List (Expr × Variable)
  written : List Posting

/-- Whether the second block replaces nothing that the first one needs. -/
def Block.Before (b b' : Block) : Prop := ∀ q ∈ b'.first, ¬ Needed b.posting.replacements q.1

namespace Introducing

variable {state state₁ state' : Introduction}

/-- Postings are settled one after the other, each with the links it is the first to need. -/
theorem mapM_settlePosting_closes {postings : List Posting} {written : List (List Posting)}
    (hpending : state.pending = []) (hunique : state.keys.Nodup) (hstate : state.Saturated)
    (hrun : postings.mapM settlePosting state = .ok (written, state')) :
    ∃ blocks : List Block, blocks.map Block.posting = postings ∧
      blocks.map Block.written = written ∧ blocks.Pairwise Block.Before ∧
      (∀ b ∈ blocks, ∀ q ∈ b.first, Needed b.posting.replacements q.1) ∧
      Introduction.Closes (postings.flatMap Posting.replacements) state
        (blocks.flatMap Block.first) state' ∧
      ∀ {final : Introduction}, state'.ContinuedBy final →
        ∀ b ∈ blocks, final.Writes b.posting b.first b.written := by
  induction postings generalizing state written with
  | nil =>
    cases hrun
    exact ⟨[], rfl, rfl, .nil, fun b hb => (nomatch hb),
      ⟨⟨.nil, rfl, hpending⟩, id, List.nil_subset _, id⟩, fun _ b hb => nomatch hb⟩
  | cons p rest ih =>
    rw [List.mapM_cons] at hrun
    obtain ⟨here, state₁, hhere, hrun⟩ := bind_eq_ok.mp hrun
    obtain ⟨later, state₂, hlater, hrun⟩ := bind_eq_ok.mp hrun
    cases hrun
    obtain ⟨first, hcloses, hwrites⟩ := settlePosting_closes hpending hhere
    have hunique₁ := hcloses.unique hunique
    obtain ⟨blocks, hpostings, hwritten, hbefore, hneeded, hcloses', hwrites'⟩ :=
      ih hcloses.completes.pending hunique₁ (hcloses.saturated hstate) hlater
    refine ⟨⟨p, first, here⟩ :: blocks, congrArg (p :: ·) hpostings,
      congrArg (here :: ·) hwritten, .cons (fun b hb q hq hneed => ?_) hbefore,
      List.forall_mem_cons.mpr ⟨hcloses.needed, hneeded⟩, hcloses.trans hcloses', fun hfinal => ?_⟩
    -- what the posting needs was replaced by the time the block of another one begins
    · refine hcloses'.not_mem_keys (hcloses'.unique hunique₁) q ?_
        (hcloses.mem_keys hstate hneed)
      exact List.mem_flatMap.mpr ⟨b, hb, hq⟩
    · refine List.forall_mem_cons.mpr ⟨hwrites (hfinal.of_subset ?_), hwrites' hfinal⟩
      exact hcloses'.completes.subset

theorem settleObjective_closes {objective objective' : Option Objective} {links : List Posting}
    (hpending : state.pending = [])
    (hrun : settleObjective objective state = .ok ((objective', links), state')) :
    ∃ last done, links = gathered (done.map .relation) ∧
      Introduction.Closes (objective.toList.flatMap Objective.replacements) state last state' ∧
      ∀ {final : Introduction}, state'.ContinuedBy final →
        List.Forall₂ final.Links last done ∧
          Option.Rel final.Optimises objective objective' := by
  cases objective with
  | none =>
    cases hrun
    exact ⟨[], [], rfl, ⟨⟨.nil, rfl, hpending⟩, id, List.nil_subset _, id⟩,
      fun _ => ⟨.nil, .none⟩⟩
  | some o =>
    obtain ⟨t, state₁, ht, hrun⟩ := bind_eq_ok.mp hrun
    obtain ⟨links, state₂, hlinks, hrun⟩ := bind_eq_ok.mp hrun
    cases hrun
    have hneeds := (asks_settleObjectiveTarget o.target).needs
    obtain ⟨hsub, last, done, rfl, hcloses, hdone⟩ :=
      linkConstraints_closes hneeds hpending ht hlinks
    have hroots : (some o).toList.flatMap Objective.replacements = o.target.replacements :=
      List.append_nil _
    refine ⟨last, done, rfl, hroots ▸ hcloses, fun hfinal => ⟨hdone hfinal, .some ⟨rfl, ?_⟩⟩⟩
    exact hneeds.again ht (hfinal.of_subset hsub)

end Introducing

/-! ### The store -/

namespace Store

variable {S : Expr → Prop} {s t : Store} {new : List (Expr × Variable)}

/-- The variables introduced are numbered in the order in which they are introduced. -/
theorem Introduces.exists_extended (h : s.Introduces S new t) (hs : s.Indexed)
    (hopen : s.auxiliaryArray = none) :
    t.Indexed ∧ ∃ ds, s.Extended ds t ∧
      new.map Prod.snd = (List.range ds.length).map fun k => ⟨s.model, s.infos.size + k⟩ := by
  induction h with
  | nil => exact ⟨hs, [], extended_nil hopen, rfl⟩
  | @snoc new s' e d h _ _ ih =>
    obtain ⟨hindexed, ds, hextended, hvariables⟩ := ih
    obtain ⟨hextended', hv⟩ := hextended.snoc hindexed.inventory d
    refine ⟨hindexed.declareAuxiliary d, ds ++ [d], hextended', ?_⟩
    rw [List.map_append, hvariables, List.map_singleton, hv, List.length_append,
      List.length_singleton, List.range_succ, List.map_append, List.map_singleton]

/-- All that is new in a store are the variables introduced. -/
theorem Introduces.extended (h : s.Introduces S new t) (hs : s.Indexed)
    (hopen : s.auxiliaryArray = none) :
    t.declared = s.declared ++ new.map Prod.snd ∧
      s.Extended (new.map fun q => t.domainOf q.2) t := by
  obtain ⟨_, ds, hextended, hvariables⟩ := h.exists_extended hs hopen
  have hds : (new.map fun q => t.domainOf q.2) = ds := by
    rw [← hextended.map_domainOf, ← hvariables, List.map_map]
    rfl
  exact ⟨by rw [hextended.declared, hvariables], hds ▸ hextended⟩

end Store

/-- Before a model is compiled no auxiliary variable is declared. -/
theorem Model.Reachable.unopened {m : Model} (h : m.Reachable) :
    m.store.auxiliaryArray = none := by
  induction h using Reachable.of_changes with
  | empty => rfl
  | compile _ ih => exact ih
  | change _ _ hc ih =>
    cases hc with
    | addVariable hdeclare =>
      obtain ⟨_, _, _, _, _, _, _, rfl⟩ := Store.declareVariable_eq_ok hdeclare
      exact ih
    | addArray hdeclare =>
      obtain ⟨_, _, _, _, _, hcells, _, rfl⟩ := Store.declareArray_eq_ok hdeclare
      exact hcells.auxiliaryArray.trans ih
    | _ => exact ih

/-! ### The whole model -/

/-- A table without repetitions is a bijection between its keys and its values. -/
theorem exists_bijOn {table : List (Expr × Variable)} (hkeys : (table.map Prod.fst).Nodup)
    (hvalues : (table.map Prod.snd).Nodup) :
    ∃ f : Expr → Variable, Set.BijOn f {e | e ∈ table.map Prod.fst} {v | v ∈ table.map Prod.snd} ∧
      ∀ e v, (e, v) ∈ table ↔ e ∈ table.map Prod.fst ∧ f e = v := by
  have hlookup : ∀ {q : Expr × Variable}, q ∈ table →
      ((table.lookup q.1).getD ⟨0, 0⟩) = q.2 := fun hq => by
    rw [Introducing.lookup_eq_some_of_mem hkeys hq]
    rfl
  refine ⟨fun e => (table.lookup e).getD ⟨0, 0⟩, ⟨?_, ?_, ?_⟩, fun e v => ⟨fun h => ?_, ?_⟩⟩
  · rintro e he
    obtain ⟨q, hq, rfl⟩ := List.mem_map.mp he
    exact List.mem_map.mpr ⟨q, hq, (hlookup hq).symm⟩
  · rintro e he e' he' heq
    obtain ⟨q, hq, rfl⟩ := List.mem_map.mp he
    obtain ⟨q', hq', rfl⟩ := List.mem_map.mp he'
    have hsame : q.2 = q'.2 := (hlookup hq).symm.trans (heq.trans (hlookup hq'))
    rw [List.inj_on_of_nodup_map hvalues hq hq' hsame]
  · rintro v hv
    obtain ⟨q, hq, rfl⟩ := List.mem_map.mp hv
    exact ⟨q.1, List.mem_map_of_mem hq, hlookup hq⟩
  · exact ⟨List.mem_map_of_mem h, hlookup h⟩
  · rintro ⟨he, rfl⟩
    obtain ⟨q, hq, rfl⟩ := List.mem_map.mp he
    show (q.1, (table.lookup q.1).getD ⟨0, 0⟩) ∈ table
    rwa [hlookup hq]

namespace Introducing

/-- Settling a model. -/
theorem settleModel_closes {m : Model} {postings : List Posting} {objective : Option Objective}
    {state' : Introduction}
    (hrun : settleModel m { store := m.store } = .ok ((postings, objective), state')) :
    ∃ (blocks : List Block) (last : List (Expr × Variable)) (links : List Relation),
      blocks.map Block.posting = m.postings ∧
      postings = blocks.flatMap Block.written ++ gathered (links.map .relation) ∧
      blocks.Pairwise Block.Before ∧
      (∀ b ∈ blocks, ∀ q ∈ b.first, Needed b.posting.replacements q.1) ∧
      (∀ q ∈ last, ∀ b ∈ blocks, ¬ Needed b.posting.replacements q.1) ∧
      Introduction.Closes m.replacements { store := m.store }
        (blocks.flatMap Block.first ++ last) state' ∧
      ∀ {final : Introduction}, state'.ContinuedBy final →
        (∀ b ∈ blocks, final.Writes b.posting b.first b.written) ∧
        List.Forall₂ final.Links last links ∧
        Option.Rel final.Optimises m.objective objective := by
  obtain ⟨written, state₁, hwritten, hrun⟩ := bind_eq_ok.mp hrun
  obtain ⟨⟨objective', links⟩, state₂, hobjective, hrun⟩ := bind_eq_ok.mp hrun
  cases hrun
  have hempty : (⟨m.store, [], []⟩ : Introduction).Saturated := fun e he => nomatch he
  have hunique : (⟨m.store, [], []⟩ : Introduction).keys.Nodup := List.nodup_nil
  obtain ⟨blocks, hpostings, rfl, hbefore, hneeded, hcloses, hwrites⟩ :=
    mapM_settlePosting_closes rfl hunique hempty hwritten
  obtain ⟨last, done, rfl, hcloses', hlast⟩ :=
    settleObjective_closes hcloses.completes.pending hobjective
  refine ⟨blocks, last, done, hpostings, by rw [List.flatMap_def], hbefore, hneeded,
    fun q hq b hb hneed => ?_, hcloses.trans hcloses', fun hfinal => ⟨?_, hlast hfinal⟩⟩
  · refine hcloses'.not_mem_keys (hcloses'.unique (hcloses.unique hunique)) q hq
      (hcloses.mem_keys hempty (hneed.mono ?_))
    rw [← hpostings]
    exact fun e he => List.mem_flatMap.mpr ⟨b.posting, List.mem_map_of_mem hb, he⟩
  · exact hwrites (hfinal.of_subset hcloses'.completes.subset)

end Introducing

namespace Introduced

/-- The state in which everything is replaced. -/
def final (p : Introduced) : Introduction := { store := p.store, replaced := p.replaced }

/-- Of whatever model auxiliary variables are introduced for:

* each expression that has to be replaced, and no other, is replaced by one variable, and the
  variables of two of them differ; these are the variables that the store has gained;
* everything that is written stands where it can;
* the tables of the store are those of the model, continued;
* the postings of the model come in order and with their labels, as the table of replaced
  expressions makes them.  The links of the expressions that a posting is the first to need
  come right after it, one for each, and those of the objective come last. -/
theorem links_once {m : Model} {p : Introduced} (hm : m.Reachable) (hp : ofModel m = .ok p) :
    ((p.replaced.map Prod.fst).Nodup ∧
      p.store.declared = m.store.declared ++ p.replaced.reverse.map Prod.snd ∧
      ∃ standIn : Expr → Variable, Set.BijOn standIn {e | Needed m.replacements e}
          {v | p.store.Declares v ∧ ¬ m.store.Declares v} ∧
        ∀ e v, (e, v) ∈ p.replaced ↔ Needed m.replacements e ∧ standIn e = v) ∧
    ((∀ posting ∈ p.postings, posting.Placed p.store.Declares) ∧
      ∀ o, p.objective = some o → o.target.Placed p.store.Declares) ∧
    m.store.Extended (p.replaced.reverse.map fun q => p.store.domainOf q.2) p.store ∧
    ∃ (blocks : List Block) (last : List (Expr × Variable)) (links : List Relation),
      blocks.map Block.posting = m.postings ∧
      p.postings = blocks.flatMap Block.written ++
        Introducing.gathered (links.map .relation) ∧
      p.replaced.reverse = blocks.flatMap Block.first ++ last ∧
      (∀ b ∈ blocks, p.final.Writes b.posting b.first b.written) ∧
      List.Forall₂ p.final.Links last links ∧
      Option.Rel p.final.Optimises m.objective p.objective ∧
      (∀ b ∈ blocks, ∀ q ∈ b.first, Needed b.posting.replacements q.1) ∧
      blocks.Pairwise Block.Before ∧
      ∀ q ∈ last, ∀ b ∈ blocks, ¬ Needed b.posting.replacements q.1 := by
  have hplaced := placed hm.sound hp
  obtain ⟨⟨⟨postings, objective⟩, state'⟩, hrun, hp⟩ := Except.bind_eq_ok.mp hp
  cases hp
  obtain ⟨blocks, last, links, hpostings, hwritten, hbefore, hneeded, hlast, hcloses, hfinal⟩ :=
    Introducing.settleModel_closes hrun
  have hunique : state'.keys.Nodup := hcloses.unique List.nodup_nil
  have hreplaced : state'.replaced.reverse = blocks.flatMap Block.first ++ last := by
    rw [hcloses.completes.replaced, List.append_nil, List.reverse_reverse]
  obtain ⟨hdeclared, hextended⟩ :=
    hcloses.completes.store.extended hm.sound.store.indexed hm.unopened
  rw [← hreplaced] at hdeclared hextended
  -- the variables of the table are those that the model did not declare
  have hnodup := state'.store.nodup_declared
  rw [hdeclared, List.map_reverse, List.nodup_append, List.nodup_reverse] at hnodup
  have hnew : ∀ v, v ∈ state'.replaced.map Prod.snd ↔
      state'.store.Declares v ∧ ¬ m.store.Declares v := fun v => by
    rw [← Store.mem_declared, ← Store.mem_declared, hdeclared, List.map_reverse, List.mem_append,
      List.mem_reverse, or_and_right, and_not_self_iff, false_or, iff_self_and]
    exact fun hv hold => hnodup.2.2 v hold v (List.mem_reverse.mpr hv) rfl
  obtain ⟨standIn, hbijOn, hgraph⟩ := exists_bijOn hunique hnodup.2.1
  have hkeys : ∀ e, e ∈ state'.replaced.map Prod.fst ↔ Needed m.replacements e :=
    fun _ => hcloses.mem_keys_iff rfl
  simp only [hkeys, hnew] at hbijOn hgraph
  have hcontinued : state'.ContinuedBy ⟨state'.store, state'.replaced, []⟩ :=
    ⟨hunique, List.Subset.refl _⟩
  obtain ⟨hwrites, hlinks, hoptimises⟩ := hfinal hcontinued
  exact ⟨⟨hunique, hdeclared, standIn, hbijOn, hgraph⟩, hplaced, hextended, blocks, last, links,
    hpostings, hwritten, hreplaced, hwrites, hlinks, hoptimises, hneeded, hbefore, hlast⟩

namespace Successor

/-- The model in which the greater one of the variable and its successor is maximised. -/
def optimised : Model :=
  { model with objective := some ⟨.maximize, .aggregate (.maximum [successor, .var x])⟩ }

/-- The successor is replaced in the objective by the variable it has already. -/
def introducedOptimised : Introduced :=
  { introduced with objective := some ⟨.maximize, .aggregate (.maximum [.var next, .var x])⟩ }

theorem ofModel_optimised : ofModel optimised = .ok introducedOptimised := by
  cbv

theorem reachable_optimised : optimised.Reachable := by
  have hgreatest : Aggregate.greatest [successor, .var x] = .ok (.maximum [successor, .var x]) := by
    cbv
  have hoptimize : model.optimize .maximize (.aggregate (.maximum [successor, .var x])) =
      .ok optimised := by
    cbv
  refine .optimize reachable_model (.aggregate (.greatest (fun e he => ?_) hgreatest)) hoptimize
  rcases List.mem_pair.mp he with rfl | rfl
  · exact built_successor
  · exact built_x

/-- The posting and the objective need the successor, whose one link follows the posting. -/
theorem linked_once_for_both : (∀ e, Needed optimised.replacements e ↔ e = successor) ∧
    ∀ posting ∈ optimised.postings, introducedOptimised.final.Writes posting [(successor, next)]
      introducedOptimised.postings := by
  obtain ⟨⟨-, -, standIn, -, hgraph⟩, -, -, blocks, last, links, hpostings, hwritten, hreplaced,
    hwrites, hlinks, -, -, -, hlast⟩ := links_once reachable_optimised ofModel_optimised
  have hneeded : ∀ e, Needed optimised.replacements e ↔ e = successor := fun e => by
    constructor
    · intro he
      have hmem := (hgraph e (standIn e)).mpr ⟨he, rfl⟩
      exact (Prod.mk.inj (List.mem_singleton.mp hmem)).1
    · rintro rfl
      exact ((hgraph successor next).mp (List.mem_singleton_self _)).1
  refine ⟨hneeded, fun posting hposting => ?_⟩
  obtain ⟨b, rfl, hb⟩ := List.map_eq_singleton_iff.mp hpostings
  rw [List.mem_singleton.mp hposting, ← hb]
  have hroot : Needed b.posting.replacements successor := by
    rw [hb]
    exact .root (by decide)
  have hreplaced : [(successor, next)] = b.first ++ last := by
    rwa [List.flatMap_singleton] at hreplaced
  -- the posting needs the successor, so nothing is left to be linked for the objective
  have hnone : last = [] := List.eq_nil_iff_forall_not_mem.mpr fun q hq => by
    have hmem : q ∈ [(successor, next)] := by
      rw [hreplaced]
      exact List.mem_append_right _ hq
    refine hlast q hq b (List.mem_singleton_self b) ?_
    rwa [List.mem_singleton.mp hmem]
  subst hnone
  cases hlinks
  have hposted : introducedOptimised.postings = b.written := by
    rw [hwritten, List.flatMap_singleton]
    exact List.append_nil _
  rw [hposted, hreplaced, List.append_nil]
  exact hwrites b (List.mem_singleton_self b)

end Successor

end Introduced
end CspModel
