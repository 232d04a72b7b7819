import CspModel.Proofs.Replacement

/-! # Settling the links of a model

A link states what its variable stands for, so settling it may need variables in turn,
but only for expressions nested less deep.  That is why the waves come to an end with
no link pending, and why an assignment that satisfies all links respects every replaced
expression, the least deep ones first.
-/
namespace CspModel

open CspModel.Expr

/-! ### Links -/

namespace Introducing

variable {I : Interpretation}

/-- The equality a link of anything but an aggregate states. -/
theorem link_holds_iff_of_equality {v : Variable} {e : Expr} {σ : Assignment}
    (h : link v e = .intension (apply .eq [var v, e])) :
    (link v e).Holds I σ ↔ e.value? .exact σ = some (σ v) := by
  have hread : (apply .eq [var v, e]).read .exact σ = (e.value? .exact σ).map fun w =>
      .value (.integer (Operator.truth (Operator.allEqual [σ v, w]))) := by
    rw [Expr.read, readAll, readAll, readAll, Expr.read, value?]
    cases e.read .exact σ with
    | none => rfl
    | some operand => cases operand <;> rfl
  rw [h, Relation.Holds, value?, hread]
  cases e.value? .exact σ with
  | none => simp
  | some w =>
    have htruth : Operator.truth (Operator.allEqual [σ v, w]) ≠ 0 ↔ w = σ v := by
      by_cases hw : w = σ v <;> simp [Operator.truth, Operator.allEqual, hw]
    rw [Option.some_inj, ← htruth]
    simp [Operand.value?]

/-- A link holds when its variable has the value of its expression. -/
theorem link_holds_iff {v : Variable} {e : Expr} {σ : Assignment} :
    (link v e).Holds I σ ↔ e.value? .exact σ = some (σ v) := by
  cases e with
  | aggregate f =>
    rw [value?_aggregate]
    simp only [link, Relation.Holds, Condition.compareTo, ConditionOperand.bound?, value?_var,
      Option.map_some, Option.some_inj, exists_eq_left']
    constructor
    · rintro ⟨w, hw, heq⟩
      exact hw.trans (congrArg some heq)
    · exact fun h => ⟨_, h, rfl⟩
  | _ => exact link_holds_iff_of_equality rfl

/-- What settling a link may replace is nested less deep. -/
theorem mem_inner_of_mem_candidates {v : Variable} {e p : Expr}
    (hp : p ∈ (link v e).candidates) (hnone : p.toVariable? = none) : p ∈ e.inner := by
  cases e with
  | aggregate f =>
    rcases List.mem_append.mp hp with hp | hp
    · exact hp
    · rw [List.mem_singleton.mp hp] at hnone
      cases hnone
  | const | set | var => cases hp
  | apply op operands =>
    have hp : p ∈ (apply .eq [var v, apply op operands]).outermost := hp
    rw [outermost_apply] at hp
    simpa [outermost, Expr.inner] using hp

theorem wellFormed_link {known : Variable → Prop} {v : Variable} {e : Expr} (hv : known v)
    (he : e.WellFormed known) : (link v e).WellFormed known := by
  have hequality : (apply .eq [var v, e]).WellFormed known := by
    refine wellFormed_apply.mpr ⟨⟨rfl, nofun⟩, fun e' he' => ?_⟩
    rcases List.mem_cons.mp he' with rfl | he'
    · exact wellFormed_var hv
    · rwa [List.mem_singleton.mp he']
  cases e with
  | aggregate f =>
    obtain ⟨hf, hoperands⟩ := wellFormed_aggregate.mp he
    refine ⟨fun e he => ?_, fun f' c h => ?_⟩
    · rcases List.mem_append.mp he with he | he
      · exact hoperands e he
      · rw [List.mem_singleton.mp he]
        exact wellFormed_var hv
    · cases h
      exact hf
  | _ =>
    refine ⟨fun e he => ?_, fun _ _ => nofun⟩
    rw [List.mem_singleton.mp he]
    exact hequality

theorem le_foldl_max {n m : Nat} {list : List Nat} (h : n ≤ m ∨ n ∈ list) :
    n ≤ list.foldl max m := by
  induction list generalizing m with
  | nil => exact h.resolve_right (List.not_mem_nil)
  | cons k rest ih =>
    refine ih ?_
    rcases h with h | h
    · exact .inl (Nat.le_trans h (Nat.le_max_left _ _))
    · rcases List.mem_cons.mp h with rfl | h
      · exact .inl (Nat.le_max_right _ _)
      · exact .inr h

/-- The number of waves exceeds the depth of every expression that is linked. -/
theorem depth_lt_waves {pending : List Relation} {v : Variable} {e : Expr}
    (h : link v e ∈ pending) : e.depth < waves pending := by
  have hexpression : ∀ e' ∈ (link v e).expressions,
      e'.depth ≤ ((pending.flatMap Relation.expressions).map Expr.depth).foldl max 0 :=
    fun e' he' => le_foldl_max (.inr (List.mem_map_of_mem (List.mem_flatMap.mpr ⟨_, h, he'⟩)))
  have hlevel : e.depth ≤
      ((pending.flatMap Relation.expressions).map Expr.depth).foldl max 0 + 1 := by
    have hequality : apply .eq [var v, e] ∈ (link v e).expressions → e.depth ≤
        ((pending.flatMap Relation.expressions).map Expr.depth).foldl max 0 := fun h =>
      Nat.le_trans (Nat.le_of_lt (depth_lt_of_mem_apply (List.mem_cons_of_mem _ List.mem_cons_self)))
        (hexpression _ h)
    cases e with
    | aggregate f =>
      exact depth_aggregate_le fun e he => hexpression e (List.mem_append_left _ he)
    | _ => exact Nat.le_succ_of_le (hequality List.mem_cons_self)
  unfold waves
  omega

end Introducing

/-! ### What settled constraints state -/

/-- Whenever the replaced expressions are respected, the written constraints hold exactly
when the given ones do, and the written constraints force the new ones to be respected
one level at a time. -/
structure Settled (replaced : List (Expr × Variable)) (given : Assignment → Prop)
    (new : List (Expr × Variable)) (written : Assignment → Prop) : Prop where
  iff : ∀ σ, Respects σ (fun _ => True) replaced → (written σ ↔ given σ)
  link : ∀ σ, written σ → ∀ p ∈ new, Respects σ (· ∈ p.1.inner) replaced →
    p.1.value? .exact σ = some (σ p.2)

namespace Settled

variable {replaced replaced' new new' : List (Expr × Variable)}
  {given given' written written' : Assignment → Prop}

theorem mono (h : Settled replaced given new written) (hsub : replaced ⊆ replaced') :
    Settled replaced' given new written where
  iff σ hσ := h.iff σ fun p hp => hσ p (hsub hp)
  link σ hw p hp hσ := h.link σ hw p hp fun q hq => hσ q (hsub hq)

theorem append (h : Settled replaced given new written)
    (h' : Settled replaced given' new' written') :
    Settled replaced (fun σ => given σ ∧ given' σ) (new ++ new')
      (fun σ => written σ ∧ written' σ) where
  iff σ hσ := and_congr (h.iff σ hσ) (h'.iff σ hσ)
  link σ hw p hp := (List.mem_append.mp hp).elim (h.link σ hw.1 p) (h'.link σ hw.2 p)

theorem congr (h : Settled replaced given new written) (hgiven : ∀ σ, given σ ↔ given' σ)
    (hwritten : ∀ σ, written σ ↔ written' σ) : Settled replaced given' new written' where
  iff σ hσ := (hwritten σ).symm.trans ((h.iff σ hσ).trans (hgiven σ))
  link σ hw := h.link σ ((hwritten σ).mpr hw)

/-- Written constraints that hold make every replaced expression respected, if none was
replaced before. -/
theorem respects (h : Settled replaced given new written) (hnew : replaced ⊆ new)
    {σ : Assignment} (hw : written σ) : Respects σ (fun _ => True) replaced := by
  -- by induction on the depth: what a link of the next level replaces is less deep
  have hdepth : ∀ n, ∀ p ∈ replaced, p.1.depth ≤ n → p.1.value? .exact σ = some (σ p.2) := by
    intro n
    induction n with
    | zero =>
      intro p _ hp
      have := p.1.one_le_depth
      omega
    | succ n ih =>
      intro p hp hdepth
      refine h.link σ hw p (hnew hp) fun q hq hinner => ih q hq ?_
      have := depth_lt_of_mem_inner hinner
      omega
  exact fun p hp _ => hdepth _ p hp (Nat.le_refl _)

end Settled

/-! ### Waves -/

/-- The state grew by introducing variables for expressions of a kind, and no link is
pending. -/
structure Introduction.Completes (P : Expr → Prop) (state : Introduction)
    (new : List (Expr × Variable)) (state' : Introduction) : Prop where
  store : state.store.Introduces P new state'.store
  replaced : state'.replaced = new.reverse ++ state.replaced
  pending : state'.pending = []

namespace Introduction

variable {P S : Expr → Prop} {state state' state'' : Introduction}
  {new new' : List (Expr × Variable)}

theorem Completes.trans (h : state.Completes P new state')
    (h' : state'.Completes P new' state'') : state.Completes P (new ++ new') state'' where
  store := h.store.trans h'.store
  replaced := by rw [h'.replaced, h.replaced, List.reverse_append, List.append_assoc]
  pending := h'.pending

theorem Grows.completes (h : state.Grows P new state') (h' : state'.Completes P new' state'') :
    state.Completes P (new ++ new') state'' where
  store := h.store.trans h'.store
  replaced := by rw [h'.replaced, h.replaced, List.reverse_append, List.append_assoc]
  pending := h'.pending

theorem Completes.subset (h : state.Completes P new state') :
    state.replaced ⊆ state'.replaced := by
  rw [h.replaced]
  exact List.subset_append_right _ _

theorem Grows.subset (h : state.Grows P new state') : state.replaced ⊆ state'.replaced := by
  rw [h.replaced]
  exact List.subset_append_right _ _

theorem Grows.new_subset (h : state.Grows P new state') : new ⊆ state'.replaced := by
  rw [h.replaced]
  exact fun p hp => List.mem_append_left _ (List.mem_reverse.mpr hp)

end Introduction

/-- A kind of well-formed expressions that comprises all that their links may replace. -/
structure Closed (P : Expr → Prop) : Prop where
  wellFormed : ∀ e, P e → e.WellFormed fun _ => True
  inner : ∀ e, P e → ∀ p ∈ e.inner, P p

namespace Introducing

variable {P : Expr → Prop} {I : Interpretation}

/-- Settling some links, without those that arise on the way. -/
theorem mapM_settleRelation_links (hP : Closed P) {pairs : List (Expr × Variable)}
    (hpairs : ∀ p ∈ pairs, P p.1) {state state' : Introduction} {here : List Relation}
    (hmem : pairs ⊆ state.replaced)
    (hrun : (pairs.map fun p => link p.2 p.1).mapM settleRelation state = .ok (here, state')) :
    ∃ new, state.Grows (fun e => ∃ p ∈ pairs, e ∈ p.1.inner) new state' ∧
      Settled state'.replaced (fun _ => True) pairs (fun σ => ∀ r ∈ here, r.Holds I σ) := by
  induction pairs generalizing state state' here with
  | nil =>
    cases hrun
    exact ⟨[], .refl _ _, fun σ _ => by simp, fun σ _ p hp => nomatch hp⟩
  | cons p rest ih =>
    rw [List.map_cons, List.mapM_cons] at hrun
    obtain ⟨r, state₁, hr, hrun⟩ := bind_eq_ok.mp hrun
    obtain ⟨later, state₂, hlater, hrun⟩ := bind_eq_ok.mp hrun
    cases hrun
    have hstep : Replaces (· ∈ p.1.inner) (settleRelation (link p.2 p.1))
        fun σ r' => r'.Holds I σ ↔ (link p.2 p.1).Holds I σ :=
      replaces_settleRelation (wellFormed_link trivial (hP.wellFormed _ (hpairs p List.mem_cons_self)))
        fun _ => mem_inner_of_mem_candidates
    obtain ⟨new, hgrows⟩ := hstep.grows hr
    obtain ⟨new', hgrows', hsettled⟩ := ih (fun q hq => hpairs q (List.mem_cons_of_mem _ hq))
      (fun q hq => hgrows.subset (hmem (List.mem_cons_of_mem _ hq))) hlater
    -- the link was posted for an expression that is replaced, so it says nothing new
    have hfirst : Settled state₁.replaced (fun _ => True) [p] (fun σ => r.Holds I σ) := by
      refine ⟨fun σ hσ => ?_, fun σ hr' q hq hσ => ?_⟩
      · rw [hstep.result hr σ fun q hq _ => hσ q hq trivial, link_holds_iff]
        exact iff_of_true (hσ p (hgrows.subset (hmem List.mem_cons_self)) trivial) trivial
      · rw [List.mem_singleton.mp hq] at hσ ⊢
        exact link_holds_iff.mp ((hstep.result hr σ hσ).mp hr')
    refine ⟨new ++ new', ?_, ?_⟩
    · refine (hgrows.mono fun e he => ?_).trans (hgrows'.mono fun e he => ?_)
      · exact ⟨p, List.mem_cons_self, he⟩
      · obtain ⟨q, hq, he⟩ := he
        exact ⟨q, List.mem_cons_of_mem _ hq, he⟩
    · refine ((hfirst.mono hgrows'.subset).append hsettled).congr (fun σ => by simp) fun σ => ?_
      simp

/-- Without links nothing happens. -/
theorem completes_nil {state : Introduction} (hpending : state.pending = []) :
    ∃ new, state.Completes P new state ∧ Settled state.replaced (fun _ => True) ([] ++ new)
      (fun σ => ∀ r ∈ ([] : List Relation), r.Holds I σ) := by
  refine ⟨[], ⟨.nil, rfl, hpending⟩, fun σ _ => by simp, ?_⟩
  exact fun σ _ p hp => nomatch hp

theorem settleWaves_of_none {n : Nat} {state : Introduction} (h : state.pending = []) :
    settleWaves n state = .ok ([], state) := by
  cases n with
  | zero => rfl
  | succ n =>
    obtain ⟨store, replaced, pending⟩ := state
    obtain rfl : pending = [] := h
    rfl

/-- A wave of links, and the waves that follow it. -/
theorem settleWaves_succ {n : Nat} {state : Introduction} (h : state.pending ≠ []) :
    settleWaves (n + 1) state =
      (state.pending.mapM settleRelation { state with pending := [] }).bind fun here =>
        (settleWaves n here.2).map fun later => (here.1 ++ later.1, later.2) := by
  have hsome : state.pending.isEmpty = false := by simpa using h
  rw [settleWaves]
  show (if state.pending.isEmpty then _ else _ : Introducing (List Relation)) _ = _
  rw [if_neg (by simp [hsome])]
  rfl

/-- A run of waves that starts with some link pending begins with a wave that succeeds. -/
theorem exists_of_settleWaves_eq_ok {n : Nat} {state state' : Introduction}
    {done : List Relation} (h : state.pending ≠ [])
    (hrun : settleWaves (n + 1) state = .ok (done, state')) :
    ∃ here state₁ later,
      state.pending.mapM settleRelation { state with pending := [] } = .ok (here, state₁) ∧
        settleWaves n state₁ = .ok (later, state') ∧ done = here ++ later := by
  rw [settleWaves_succ h] at hrun
  obtain ⟨⟨here, state₁⟩, hhere, hrun⟩ := Except.bind_eq_ok.mp hrun
  obtain ⟨⟨later, state₂⟩, hlater, heq⟩ := Except.map_eq_ok.mp hrun
  cases heq
  exact ⟨here, state₁, later, hhere, hlater, rfl⟩

/-- With enough waves no link stays pending. -/
theorem settleWaves_spec (hP : Closed P) {n : Nat} {pairs : List (Expr × Variable)}
    (hpairs : ∀ p ∈ pairs, P p.1) (hdepth : ∀ p ∈ pairs, p.1.depth < n)
    {state state' : Introduction} {done : List Relation} (hmem : pairs ⊆ state.replaced)
    (hpending : state.pending = pairs.map fun p => link p.2 p.1)
    (hrun : settleWaves n state = .ok (done, state')) :
    ∃ new, state.Completes P new state' ∧
      Settled state'.replaced (fun _ => True) (pairs ++ new)
        (fun σ => ∀ r ∈ done, r.Holds I σ) := by
  induction n generalizing pairs state done with
  | zero =>
    have hnil : pairs = [] := List.eq_nil_iff_forall_not_mem.mpr fun p hp =>
      Nat.not_lt_zero _ (hdepth p hp)
    cases hrun
    subst hnil
    exact completes_nil hpending
  | succ n ih =>
    by_cases hnil : pairs = []
    · subst hnil
      rw [settleWaves_of_none hpending] at hrun
      cases hrun
      exact completes_nil hpending
    · have hsome : state.pending ≠ [] := by simpa [hpending] using hnil
      obtain ⟨here, state₁, later, hhere, hlater, rfl⟩ := exists_of_settleWaves_eq_ok hsome hrun
      rw [hpending] at hhere
      -- the wave starts with nothing pending, so all that is pending after it is new
      have hmem₀ : pairs ⊆ (⟨state.store, state.replaced, []⟩ : Introduction).replaced := hmem
      obtain ⟨new, hgrows, hsettled⟩ := mapM_settleRelation_links (I := I) hP hpairs hmem₀ hhere
      -- what arises from a wave is nested less deep than what the wave settled
      have hnew : ∀ p ∈ new, P p.1 ∧ p.1.depth < n := by
        intro p hp
        obtain ⟨q, hq, hinner⟩ := hgrows.store.kind p hp
        have hless := depth_lt_of_mem_inner hinner
        have hbound := hdepth q hq
        exact ⟨hP.inner q.1 (hpairs q hq) p.1 hinner, by omega⟩
      obtain ⟨new', hcompletes, hsettled'⟩ := ih (fun p hp => (hnew p hp).1)
        (fun p hp => (hnew p hp).2) hgrows.new_subset hgrows.pending hlater
      have hgrows' : Introduction.Grows P ⟨state.store, state.replaced, []⟩ new state₁ :=
        hgrows.mono fun e he => by
          obtain ⟨q, hq, hinner⟩ := he
          exact hP.inner q.1 (hpairs q hq) e hinner
      have htotal := hgrows'.completes hcompletes
      refine ⟨new ++ new', ⟨htotal.store, htotal.replaced, htotal.pending⟩, ?_⟩
      have hboth := (hsettled.mono hcompletes.subset).append hsettled'
      refine hboth.congr (fun σ => by simp) fun σ => ?_
      simp only [List.mem_append, or_imp, forall_and]

theorem map_eq_ok {α β : Type} {x : Introducing α} {f : α → β} {state state' : Introduction}
    {b : β} (h : (f <$> x) state = .ok (b, state')) :
    ∃ a, x state = .ok (a, state') ∧ b = f a := by
  rw [map_eq_pure_bind] at h
  obtain ⟨a, _, ha, h⟩ := bind_eq_ok.mp h
  cases h
  exact ⟨a, ha, rfl⟩

/-- Settling constraints and then all links they bring along: given a step from a state
without pending links, what it returns together with the links is settled. -/
theorem linkConstraints_spec (given written : Assignment → Prop) (hP : Closed P)
    {state state₁ state' : Introduction} {new : List (Expr × Variable)} {links : List Constraint}
    (hpending : state.pending = []) (hgrows : state.Grows P new state₁)
    (hstep : ∀ σ, Respects σ (fun _ => True) state₁.replaced → (written σ ↔ given σ))
    (hrun : linkConstraints state₁ = .ok (links, state')) :
    state₁.replaced ⊆ state'.replaced ∧ ∃ new, state.Completes P new state' ∧
      Settled state'.replaced given new fun σ => written σ ∧ ∀ c ∈ links, c.Holds I σ := by
  obtain ⟨done, hdone, rfl⟩ := map_eq_ok hrun
  have hdone : settleWaves (waves state₁.pending) state₁ = .ok (done, state') := hdone
  have hlinks : state₁.pending = new.map fun p => link p.2 p.1 := by
    rw [hgrows.pending, hpending, List.nil_append]
  have hdepth : ∀ p ∈ new, p.1.depth < waves state₁.pending := fun p hp => by
    refine depth_lt_waves (v := p.2) ?_
    rw [hlinks]
    exact List.mem_map.mpr ⟨p, hp, rfl⟩
  obtain ⟨new', hcompletes, hsettled⟩ :=
    settleWaves_spec (I := I) hP hgrows.store.kind hdepth hgrows.new_subset hlinks hdone
  refine ⟨hcompletes.subset, new ++ new', hgrows.completes hcompletes, fun σ hσ => ?_,
    fun σ hw p hp hσ => ?_⟩
  · rw [hstep σ fun p hp => hσ p (hcompletes.subset hp)]
    have hholds := (hsettled.iff σ hσ).mpr trivial
    exact and_iff_left (by simpa [Constraint.Holds] using hholds)
  · refine hsettled.link σ ?_ p hp hσ
    simpa [Constraint.Holds] using hw.2

/-! ### Postings and the objective -/

theorem allHold_gathered {links : List Constraint} {σ : Assignment} :
    Posting.AllHold I σ (gathered links) ↔ ∀ c ∈ links, c.Holds I σ := by
  unfold gathered Posting.AllHold
  split
  · rename_i hempty
    rw [List.isEmpty_iff.mp hempty]
    simp
  · simp

/-- Settling several constraints changes nothing about when they hold. -/
theorem replaces_settleAll {S : Expr → Prop} {known : Variable → Prop} {list : List Constraint}
    (hwell : ∀ c ∈ list, ∀ r ∈ c.relations, r.WellFormed known)
    (hS : ∀ c ∈ list, ∀ r ∈ c.relations, ∀ e ∈ r.candidates, S e) :
    Replaces S (settleAll list) fun σ list' =>
      (∀ c ∈ list', c.Holds I σ) ↔ ∀ c ∈ list, c.Holds I σ := by
  rw [settleAll_eq_mapM]
  have hall : Replaces S (list.mapM settle) fun σ list' =>
      List.Forall₂ (fun c c' => c'.Holds I σ ↔ c.Holds I σ) list list' :=
    .mapM fun c hc => replaces_settle (hwell c hc) fun r hr e he _ => hS c hc r hr e he
  refine hall.imp fun σ list' h => ?_
  clear hwell hS hall
  induction h with
  | nil => simp
  | cons hc _ ih => rw [List.forall_mem_cons, List.forall_mem_cons, hc, ih]

/-- Settling a posting together with its links. -/
theorem settlePosting_spec (hP : Closed P) {p : Posting} {known : Variable → Prop}
    (hwell : ∀ c ∈ p.body.constraints, ∀ r ∈ c.relations, r.WellFormed known)
    (hcandidates : ∀ c ∈ p.body.constraints, ∀ r ∈ c.relations, ∀ e ∈ r.candidates, P e)
    {state state' : Introduction} {written : List Posting} (hpending : state.pending = [])
    (hrun : settlePosting p state = .ok (written, state')) :
    ∃ new, state.Completes P new state' ∧
      Settled state'.replaced (fun σ => Posting.AllHold I σ [p]) new
        (fun σ => Posting.AllHold I σ written) := by
  obtain ⟨body, decoration⟩ := p
  cases body with
  | single c =>
    obtain ⟨c', state₁, hc, hrun⟩ := bind_eq_ok.mp hrun
    obtain ⟨links, state₂, hlinks, hrun⟩ := bind_eq_ok.mp hrun
    cases hrun
    have hstep : Replaces P (settle c) fun σ c' => c'.Holds I σ ↔ c.Holds I σ :=
      replaces_settle (hwell c List.mem_cons_self)
        fun r hr e he _ => hcandidates c List.mem_cons_self r hr e he
    obtain ⟨new, hgrows⟩ := hstep.grows hc
    obtain ⟨_, new', hcompletes, hsettled⟩ := linkConstraints_spec (I := I) _ _ hP hpending hgrows
      (fun σ hσ => hstep.result hc σ fun p hp _ => hσ p hp trivial) hlinks
    refine ⟨new', hcompletes, hsettled.congr (fun σ => ?_) fun σ => ?_⟩
    · simp [Posting.AllHold, Body.constraints]
    · simp [Posting.AllHold, Body.constraints]
  | gather constraints =>
    obtain ⟨constraints', state₁, hc, hrun⟩ := bind_eq_ok.mp hrun
    obtain ⟨links, state₂, hlinks, hrun⟩ := bind_eq_ok.mp hrun
    cases hrun
    have hstep : Replaces P (settleAll constraints) fun σ constraints' =>
        (∀ c ∈ constraints', c.Holds I σ) ↔ ∀ c ∈ constraints, c.Holds I σ :=
      replaces_settleAll hwell hcandidates
    obtain ⟨new, hgrows⟩ := hstep.grows hc
    obtain ⟨_, new', hcompletes, hsettled⟩ := linkConstraints_spec (I := I) _ _ hP hpending hgrows
      (fun σ hσ => hstep.result hc σ fun p hp _ => hσ p hp trivial) hlinks
    refine ⟨new', hcompletes, hsettled.congr (fun σ => ?_) fun σ => ?_⟩
    · simp [Posting.AllHold, Body.constraints]
    · rw [Posting.allHold_cons, allHold_gathered]
      rfl

/-- Settling postings one after the other. -/
theorem mapM_settlePosting_spec (hP : Closed P) {postings : List Posting}
    {known : Variable → Prop}
    (hwell : ∀ p ∈ postings, ∀ c ∈ p.body.constraints, ∀ r ∈ c.relations, r.WellFormed known)
    (hcandidates : ∀ p ∈ postings, ∀ c ∈ p.body.constraints, ∀ r ∈ c.relations,
      ∀ e ∈ r.candidates, P e)
    {state state' : Introduction} {written : List (List Posting)} (hpending : state.pending = [])
    (hrun : postings.mapM settlePosting state = .ok (written, state')) :
    ∃ new, state.Completes P new state' ∧
      Settled state'.replaced (fun σ => Posting.AllHold I σ postings) new
        (fun σ => Posting.AllHold I σ written.flatten) := by
  induction postings generalizing state written with
  | nil =>
    cases hrun
    exact ⟨[], ⟨.nil, rfl, hpending⟩, fun σ _ => Iff.rfl, fun σ _ p hp => nomatch hp⟩
  | cons p rest ih =>
    rw [List.mapM_cons] at hrun
    obtain ⟨here, state₁, hhere, hrun⟩ := bind_eq_ok.mp hrun
    obtain ⟨later, state₂, hlater, hrun⟩ := bind_eq_ok.mp hrun
    cases hrun
    obtain ⟨new, hcompletes, hsettled⟩ := settlePosting_spec (I := I) hP
      (hwell p List.mem_cons_self) (hcandidates p List.mem_cons_self) hpending hhere
    obtain ⟨new', hcompletes', hsettled'⟩ := ih (fun q hq => hwell q (List.mem_cons_of_mem _ hq))
      (fun q hq => hcandidates q (List.mem_cons_of_mem _ hq)) hcompletes.pending hlater
    refine ⟨new ++ new', hcompletes.trans hcompletes', ?_⟩
    refine ((hsettled.mono hcompletes'.subset).append hsettled').congr (fun σ => ?_) fun σ => ?_
    · exact (Posting.allHold_append I σ [p] rest).symm
    · rw [List.flatten_cons, Posting.allHold_append]

/-- An objective over variables only is worth what the given one is worth. -/
def ObjectiveSettled (replaced : List (Expr × Variable)) (o o' : Objective) : Prop :=
  o'.direction = o.direction ∧
    ∀ σ, Respects σ (fun _ => True) replaced → o'.target.value? σ = o.target.value? σ

/-- Settling the objective together with its links. -/
theorem settleObjective_spec (hP : Closed P) {objective : Option Objective}
    {known : Variable → Prop}
    (hwell : ∀ o, objective = some o → o.target.toExpr.WellFormed known)
    (hcandidates : ∀ o, objective = some o → ∀ e ∈ o.target.candidates, P e)
    {state state' : Introduction} {objective' : Option Objective} {links : List Posting}
    (hpending : state.pending = [])
    (hrun : settleObjective objective state = .ok ((objective', links), state')) :
    ∃ new, state.Completes P new state' ∧
      Settled state'.replaced (fun _ => True) new (fun σ => Posting.AllHold I σ links) ∧
      Option.Rel (ObjectiveSettled state'.replaced) objective objective' := by
  cases objective with
  | none =>
    cases hrun
    refine ⟨[], ⟨.nil, rfl, hpending⟩, ⟨fun σ _ => by simp [Posting.AllHold], ?_⟩, .none⟩
    exact fun σ _ p hp => absurd hp List.not_mem_nil
  | some o =>
    obtain ⟨t, state₁, ht, hrun⟩ := bind_eq_ok.mp hrun
    obtain ⟨links, state₂, hlinks, hrun⟩ := bind_eq_ok.mp hrun
    cases hrun
    have hstep : Replaces P (settleObjectiveTarget o.target) fun σ t' =>
        t'.value? σ = o.target.value? σ :=
      replaces_settleObjectiveTarget (hwell o rfl) fun e he _ => hcandidates o rfl e he
    obtain ⟨new, hgrows⟩ := hstep.grows ht
    obtain ⟨hsubset, new', hcompletes, hsettled⟩ := linkConstraints_spec (I := I)
      (fun _ => True) (fun _ => True) hP hpending hgrows (fun σ hσ => Iff.rfl) hlinks
    refine ⟨new', hcompletes, hsettled.congr (fun _ => Iff.rfl) fun σ => ?_,
      .some ⟨rfl, fun σ hσ => ?_⟩⟩
    · rw [allHold_gathered, true_and]
    · exact hstep.result ht σ fun p hp _ => hσ p (hsubset hp) trivial

/-- Settling a model: what is written states what was posted, and all replaced expressions
are of a kind that comprises the candidates of the model. -/
theorem settleModel_spec (hP : Closed P) {m : Model} {known : Variable → Prop}
    (hwell : ∀ p ∈ m.postings, ∀ c ∈ p.body.constraints, ∀ r ∈ c.relations, r.WellFormed known)
    (hcandidates : ∀ p ∈ m.postings, ∀ c ∈ p.body.constraints, ∀ r ∈ c.relations,
      ∀ e ∈ r.candidates, P e)
    (hwell' : ∀ o, m.objective = some o → o.target.toExpr.WellFormed known)
    (hcandidates' : ∀ o, m.objective = some o → ∀ e ∈ o.target.candidates, P e)
    {state' : Introduction} {postings : List Posting} {objective : Option Objective}
    (hrun : settleModel m { store := m.store } = .ok ((postings, objective), state')) :
    ∃ new, Introduction.Completes P { store := m.store } new state' ∧
      Settled state'.replaced (fun σ => Posting.AllHold I σ m.postings) new
        (fun σ => Posting.AllHold I σ postings) ∧
      Option.Rel (ObjectiveSettled state'.replaced) m.objective objective := by
  obtain ⟨written, state₁, hwritten, hrun⟩ := bind_eq_ok.mp hrun
  obtain ⟨⟨objective', links⟩, state₂, hobjective, hrun⟩ := bind_eq_ok.mp hrun
  cases hrun
  obtain ⟨new, hcompletes, hsettled⟩ :=
    mapM_settlePosting_spec (I := I) hP hwell hcandidates rfl hwritten
  obtain ⟨new', hcompletes', hsettled', hrel⟩ :=
    settleObjective_spec (I := I) hP hwell' hcandidates' hcompletes.pending hobjective
  refine ⟨new ++ new', hcompletes.trans hcompletes', ?_, hrel⟩
  refine ((hsettled.mono hcompletes'.subset).append hsettled').congr (fun σ => ?_) fun σ => ?_
  · rw [and_true]
  · rw [Posting.allHold_append]

end Introducing
end CspModel
