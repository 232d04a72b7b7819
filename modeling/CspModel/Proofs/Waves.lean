import CspModel.Proofs.Symbols

/-! # Waves of links

The links that a posting or the objective brings along are a worklist: as long as links are
pending all of them are settled, which may bring along more.  `Introducing.Drains` is that
loop, without a bound on the number of its rounds.  A round only replaces what is nested in
the expressions whose links it settles, so the depth of what is left to replace falls with
every round, and the loop ends in every state (`Introducing.drains_settleLinks`).  For the
same reason all that is ever replaced is part of what the model states: there are no more
auxiliary variables than there are different sub-expressions.
-/
namespace CspModel

open CspModel.Expr

/-! ### Sub-expressions -/

/-- A part is nested no deeper than the whole. -/
theorem Expr.depth_le_of_mem_parts {e p : Expr} (h : p ∈ e.parts) : p.depth ≤ e.depth := by
  induction e using Expr.induction with
  | const | var | set => rw [List.mem_singleton.mp h]
  | apply op operands ih =>
    rw [parts_apply] at h
    rcases List.mem_cons.mp h with rfl | h
    · exact Nat.le_refl _
    · obtain ⟨e, he, hp⟩ := List.mem_flatMap.mp h
      exact Nat.le_trans (ih e he hp) (Nat.le_of_lt (depth_lt_of_mem_apply he))
  | aggregate f ih =>
    rw [parts_aggregate] at h
    rcases List.mem_cons.mp h with rfl | h
    · exact Nat.le_refl _
    · obtain ⟨e, he, hp⟩ := List.mem_flatMap.mp h
      exact Nat.le_trans (ih e he hp) (Nat.le_of_lt (depth_lt_of_mem_operands he))

namespace Introducing

/-! ### The loop -/

/-- The loop that settles links until none is pending, with what it ends in: all that was
settled, in order, or the first failure. -/
inductive Drains : Introduction → Except ModelError (List Relation × Introduction) → Prop
  | done {state : Introduction} : state.pending = [] → Drains state (.ok ([], state))
  | stops {state : Introduction} {cause : ModelError} : state.pending ≠ [] →
      state.pending.mapM settleRelation { state with pending := [] } = .error cause →
      Drains state (.error cause)
  | wave {state state' : Introduction} {here : List Relation}
      {outcome : Except ModelError (List Relation × Introduction)} : state.pending ≠ [] →
      state.pending.mapM settleRelation { state with pending := [] } = .ok (here, state') →
      Drains state' outcome →
      Drains state (outcome.map fun later => (here ++ later.1, later.2))

namespace Drains

variable {state : Introduction}
  {outcome outcome' : Except ModelError (List Relation × Introduction)}

/-- The loop ends in one way only. -/
theorem unique (h : Drains state outcome) (h' : Drains state outcome') : outcome = outcome' := by
  induction h generalizing outcome' with
  | done hempty =>
    cases h' with
    | done => rfl
    | stops hpending => exact absurd hempty hpending
    | wave hpending => exact absurd hempty hpending
  | stops hpending hrun =>
    cases h' with
    | done hempty => exact absurd hempty hpending
    | stops _ hrun' => exact hrun.symm.trans hrun'
    | wave _ hrun' => cases hrun.symm.trans hrun'
  | wave hpending hrun _ ih =>
    cases h' with
    | done hempty => exact absurd hempty hpending
    | stops _ hrun' => cases hrun.symm.trans hrun'
    | wave _ hrun' hrest =>
      cases hrun.symm.trans hrun'
      rw [ih hrest]

/-- Where the loop does not fail no link is left. -/
theorem pending_eq_nil (h : Drains state outcome) :
    ∀ result, outcome = .ok result → result.2.pending = [] := by
  induction h with
  | done hempty =>
    rintro result ⟨⟩
    exact hempty
  | stops => exact fun result => nofun
  | @wave _ _ _ outcome _ _ _ ih =>
    intro result hresult
    cases outcome with
    | error => cases hresult
    | ok later =>
      cases hresult
      exact ih later rfl

end Drains

/-- A wave leaves links of what it replaced, so if the waves after it settle those, it is
the first wave of the loop. -/
theorem drains_wave {n : Nat} {state : Introduction}
    (hdepth : ∀ r ∈ state.pending, ∀ e ∈ r.replacements, e.depth < n)
    (hlater : ∀ (state' : Introduction) (new : List (Expr × Variable)),
      (∀ q ∈ new, q.1.depth < n) → state'.pending = new.map (fun q => link q.2 q.1) →
        Drains state' (settleWaves n state')) :
    Drains state (settleWaves (n + 1) state) := by
  by_cases hempty : state.pending = []
  · rw [settleWaves_of_none hempty]
    exact .done hempty
  · rw [settleWaves_succ hempty]
    cases hrun : state.pending.mapM settleRelation { state with pending := [] } with
    | error cause => exact .stops hempty hrun
    | ok result =>
      obtain ⟨here, state'⟩ := result
      obtain ⟨new, hgrows⟩ := (Asks.mapM fun r _ => asks_settleRelation r).needs.grows hrun
      refine .wave hempty hrun (hlater state' new (fun q hq => ?_) hgrows.pending)
      obtain ⟨r, hr, hneeds⟩ := List.mem_flatMap.mp (hgrows.store.kind q hq)
      exact hdepth r hr q.1 hneeds

/-- If what is left to replace is nested less deep than some number, one wave more than that
number suffices. -/
theorem drains_settleWaves {n : Nat} {state : Introduction}
    (hdepth : ∀ r ∈ state.pending, ∀ e ∈ r.replacements, e.depth < n) :
    Drains state (settleWaves (n + 1) state) := by
  induction n generalizing state with
  | zero =>
    refine drains_wave hdepth fun state' new hless hpending => .done ?_
    have hnone : new = [] :=
      List.eq_nil_iff_forall_not_mem.mpr fun q hq => Nat.not_lt_zero _ (hless q hq)
    rw [hpending, hnone, List.map_nil]
  | succ n ih =>
    refine drains_wave hdepth fun state' new hless hpending => ih fun r hr e he => ?_
    rw [hpending] at hr
    obtain ⟨q, hq, rfl⟩ := List.mem_map.mp hr
    -- what the link of an expression cannot hold is nested in it
    rw [replacements_link] at he
    have hinner := depth_lt_of_mem_inner (nested_subset_inner _ he)
    have hbound := hless q hq
    omega

/-- The number of waves is enough in every state. -/
theorem drains_settleLinks (state : Introduction) : Drains state (settleLinks state) := by
  refine drains_settleWaves fun r hr e he => Nat.lt_succ_of_le ?_
  obtain ⟨p, hp, hpart⟩ := Relation.exists_part_of_replacement he
  refine Nat.le_trans (depth_le_of_mem_parts hpart) (le_foldl_max (.inr ?_))
  exact List.mem_map_of_mem (List.mem_flatMap.mpr ⟨r, hr, hp⟩)

end Introducing

namespace Introduced

/-- In the end all that a model needs is replaced, and nothing else. -/
theorem closes_final {m : Model} {p : Introduced} (hp : ofModel m = .ok p) :
    ∃ new, Introduction.Closes m.replacements { store := m.store } new p.final := by
  obtain ⟨⟨⟨postings, objective⟩, state⟩, hrun, hp⟩ := Except.bind_eq_ok.mp hp
  cases hp
  obtain ⟨blocks, last, _, _, _, _, _, _, hcloses, _⟩ := Introducing.settleModel_closes hrun
  refine ⟨blocks.flatMap Block.first ++ last, ?_⟩
  obtain ⟨store, replaced, pending⟩ := state
  obtain rfl : pending = [] := hcloses.completes.pending
  exact hcloses

/-- The variables that a store gains stand for the expressions replaced. -/
theorem length_declared {m : Model} {p : Introduced} (hm : m.Reachable)
    (hp : ofModel m = .ok p) :
    p.store.declared.length = m.store.declared.length + p.auxiliaries := by
  obtain ⟨new, hcloses⟩ := closes_final hp
  obtain ⟨hdeclared, _⟩ :=
    hcloses.completes.store.extended hm.sound.store.indexed hm.unopened
  have hreplaced : p.replaced = new.reverse ++ [] := hcloses.completes.replaced
  have hdeclared : p.store.declared = m.store.declared ++ new.map Prod.snd := hdeclared
  rw [hdeclared, List.length_append, List.length_map, auxiliaries, hreplaced, List.append_nil,
    List.length_reverse]

/-- No expression is replaced twice, and what is replaced occurs in the model. -/
theorem auxiliaries_le {m : Model} {p : Introduced} (hp : ofModel m = .ok p) :
    p.auxiliaries ≤ m.subexpressions.eraseDups.length := by
  obtain ⟨new, hcloses⟩ := closes_final hp
  have hunique : p.final.keys.Nodup := hcloses.unique List.nodup_nil
  have hoccur : p.final.keys ⊆ m.subexpressions.eraseDups := fun e he =>
    List.mem_eraseDups.mpr ((hcloses.mem_keys_iff rfl).mp he).mem_subexpressions
  have hlength := (hunique.subperm hoccur).length_le
  rwa [Introduction.keys, List.length_map] at hlength

/-- The links always run out.  In every state the loop that settles them ends, as the bounded
number of waves does, and unless it fails it leaves no link pending.  Over a whole model
there are no more auxiliary variables, which are the variables that the store gains, than
different expressions in what is posted and optimised. -/
theorem links_run_out :
    (∀ state outcome, Introducing.Drains state outcome ↔
      Introducing.settleLinks state = outcome) ∧
    (∀ state done state', Introducing.settleLinks state = .ok (done, state') →
      state'.pending = []) ∧
    ∀ m p, m.Reachable → ofModel m = .ok p →
      p.store.declared.length = m.store.declared.length + p.auxiliaries ∧
        p.auxiliaries ≤ m.subexpressions.eraseDups.length := by
  have hdrains := Introducing.drains_settleLinks
  refine ⟨fun state outcome => ⟨(hdrains state).unique, ?_⟩, fun state done state' hrun => ?_,
    fun m p hm hp => ⟨length_declared hm hp, auxiliaries_le hp⟩⟩
  · rintro rfl
    exact hdrains state
  · exact (hdrains state).pending_eq_nil _ hrun

namespace Successor

/-- Where the link of the successor is pending the loop ends with it settled, and in the model
that states the successor, the variable and one there is one auxiliary variable. -/
theorem links_run_out_successor :
    (∃ link, Introducing.Drains
      ⟨introduced.store, introduced.replaced, [Introducing.link next successor]⟩
      (.ok ([link], ⟨introduced.store, introduced.replaced, []⟩))) ∧
    introduced.store.declared.length = declared.declared.length + 1 ∧
    introduced.auxiliaries ≤ [successor, .var x, .const 1].length := by
  obtain ⟨hdrains, -, hbound⟩ := links_run_out
  obtain ⟨hdeclared, hauxiliaries⟩ := hbound model introduced reachable_model ofModel_model
  have hoccur : model.subexpressions.eraseDups = [successor, .var x, .const 1] := by
    decide
  refine ⟨⟨Introducing.link next successor, (hdrains _ _).mpr ?_⟩, hdeclared, hoccur ▸ hauxiliaries⟩
  cbv

end Successor

end Introduced
end CspModel
