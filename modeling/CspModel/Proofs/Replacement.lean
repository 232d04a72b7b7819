import CspModel.Proofs.Satisfaction

/-! # Replacing expressions keeps values

Every step of the introduction of auxiliary variables does the same two things: it
introduces variables for expressions that cannot stand where they are, and it puts the
variables in their places.  `Replaces` says both at once.  An assignment respects the
replaced expressions when each of their variables has the value of its expression, and
under such an assignment what a step returns is worth what it was given.  The rules for
`Replaces` follow the steps, so that nothing has to be said about states.
-/
namespace CspModel

open CspModel.Expr

/-! ### Introducing variables -/

/-- A store to which auxiliary variables for expressions of a kind were added, in the
order given, each with the possible values of its expression as its domain. -/
inductive Store.Introduces (S : Expr → Prop) (s : Store) : List (Expr × Variable) → Store → Prop
  | nil : Introduces S s [] s
  | snoc {new : List (Expr × Variable)} {s' : Store} {e : Expr} {d : Domain} :
      Introduces S s new s' → S e → possibleValues s' e = .ok d →
      Introduces S s (new ++ [(e, (s'.declareAuxiliary d).1)]) (s'.declareAuxiliary d).2

namespace Store.Introduces

variable {S S' : Expr → Prop} {s s' s'' : Store} {new new' : List (Expr × Variable)}

theorem trans (h : s.Introduces S new s') (h' : s'.Introduces S new' s'') :
    s.Introduces S (new ++ new') s'' := by
  induction h' with
  | nil => rwa [List.append_nil]
  | snoc _ he hd ih =>
    rw [← List.append_assoc]
    exact ih.snoc he hd

theorem mono (h : s.Introduces S new s') (hS : ∀ e, S e → S' e) : s.Introduces S' new s' := by
  induction h with
  | nil => exact .nil
  | snoc _ he hd ih => exact ih.snoc (hS _ he) hd

theorem kind (h : s.Introduces S new s') : ∀ p ∈ new, S p.1 := by
  induction h with
  | nil => exact fun p hp => nomatch hp
  | snoc _ he _ ih =>
    intro p hp
    rcases List.mem_append.mp hp with hp | hp
    · exact ih p hp
    · rw [List.mem_singleton.mp hp]
      exact he

theorem consistent (h : s.Introduces S new s') (hs : s.Consistent fun _ => True) :
    s'.Consistent fun _ => True := by
  induction h with
  | nil => exact hs
  | @snoc new s' e d _ _ _ ih => exact (adds_declareAuxiliary ih d).consistent ih trivial

/-- Declared are the variables introduced and those declared before. -/
theorem declares_iff (h : s.Introduces S new s') (hs : s.Consistent fun _ => True)
    {v : Variable} : s'.Declares v ↔ s.Declares v ∨ v ∈ new.map Prod.snd := by
  induction h with
  | nil => simp
  | @snoc new s' e d h _ _ ih =>
    rw [(adds_declareAuxiliary (h.consistent hs) d).declares_iff, ih]
    simp only [List.map_append, List.map_singleton, List.mem_append, List.mem_singleton]
    rw [or_comm, or_assoc]

/-- What was declared before keeps its domain. -/
theorem domainOf_old (h : s.Introduces S new s') (hs : s.Consistent fun _ => True)
    {v : Variable} (hv : s.Declares v) : s'.domainOf v = s.domainOf v := by
  induction h with
  | nil => rfl
  | @snoc new s' e d h _ _ ih =>
    rw [(adds_declareAuxiliary (h.consistent hs) d).domainOf_old v, ih]
    exact ((h.declares_iff hs).mpr (.inl hv)).2

/-- The variables introduced are new, and no two of them are the same. -/
theorem fresh (h : s.Introduces S new s') (hs : s.Consistent fun _ => True) :
    (new.map Prod.snd).Nodup ∧ ∀ v ∈ new.map Prod.snd, ¬ s.Declares v := by
  induction h with
  | nil => exact ⟨List.nodup_nil, fun v hv => nomatch hv⟩
  | @snoc new s' e d h _ _ ih =>
    have hnew : ¬ s'.Declares (s'.declareAuxiliary d).1 := by
      rw [(adds_declareAuxiliary (h.consistent hs) d).eq_next]
      exact fun hdeclares => Nat.lt_irrefl _ hdeclares.2
    rw [h.declares_iff hs, not_or] at hnew
    rw [List.map_append, List.map_singleton]
    refine ⟨List.nodup_append.mpr ⟨ih.1, by simp, ?_⟩, fun v hv => ?_⟩
    -- the next variable is neither one of the new ones nor one declared before
    · rintro v hv w hw rfl
      rw [List.mem_singleton.mp hw] at hv
      exact hnew.2 hv
    · rcases List.mem_append.mp hv with hv | hv
      · exact ih.2 v hv
      · rw [List.mem_singleton.mp hv]
        exact hnew.1

/-- A store stays built when variables are introduced for expressions over what was
declared before. -/
theorem built (h : s.Introduces S new s') (hs : s.Built)
    (hS : ∀ e, S e → e.WellFormed s.Declares) : s'.Built := by
  induction h with
  | nil => exact hs
  | @snoc new s' e d h he hd ih =>
    refine ih.declareAuxiliary ((hS e he).mono fun v _ hv => ?_) hd
    exact (h.declares_iff hs.consistent_true).mpr (.inl hv)

end Store.Introduces

/-! ### Steps -/

/-- The state grew by introducing variables for expressions of a kind, in the order
given, each with its link. -/
structure Introduction.Grows (S : Expr → Prop) (state : Introduction)
    (new : List (Expr × Variable)) (state' : Introduction) : Prop where
  store : state.store.Introduces S new state'.store
  replaced : state'.replaced = new.reverse ++ state.replaced
  pending : state'.pending = state.pending ++ new.map fun p => Introducing.link p.2 p.1

/-- The assignment gives the variables of replaced expressions of a kind their values. -/
def Respects (σ : Assignment) (S : Expr → Prop) (replaced : List (Expr × Variable)) : Prop :=
  ∀ p ∈ replaced, S p.1 → p.1.value? .exact σ = some (σ p.2)

namespace Introduction.Grows

variable {S S' : Expr → Prop} {state state' state'' : Introduction}
  {new new' : List (Expr × Variable)}

theorem refl (S : Expr → Prop) (state : Introduction) : state.Grows S [] state :=
  ⟨.nil, rfl, (List.append_nil _).symm⟩

theorem trans (h : state.Grows S new state') (h' : state'.Grows S new' state'') :
    state.Grows S (new ++ new') state'' where
  store := h.store.trans h'.store
  replaced := by rw [h'.replaced, h.replaced, List.reverse_append, List.append_assoc]
  pending := by rw [h'.pending, h.pending, List.map_append, List.append_assoc]

theorem mono (h : state.Grows S new state') (hS : ∀ e, S e → S' e) : state.Grows S' new state' :=
  ⟨h.store.mono hS, h.replaced, h.pending⟩

/-- What respects the replaced expressions respected those of an earlier state. -/
theorem respects (h : state.Grows S new state') {σ : Assignment}
    (hσ : Respects σ S' state'.replaced) : Respects σ S' state.replaced := by
  intro p hp
  refine hσ p ?_
  rw [h.replaced]
  exact List.mem_append_right _ hp

end Introduction.Grows

/-- Running the step introduces variables for expressions of a kind only, and the result
satisfies a condition under every assignment that respects them. -/
structure Replaces {α : Type} (S : Expr → Prop) (x : Introducing α) (Q : Assignment → α → Prop) :
    Prop where
  grows : ∀ {state a state'}, x state = .ok (a, state') → ∃ new, state.Grows S new state'
  result : ∀ {state a state'}, x state = .ok (a, state') →
    ∀ σ, Respects σ S state'.replaced → Q σ a

/-- A step followed by another one succeeds when both do. -/
theorem Introducing.bind_eq_ok {α β : Type} {x : Introducing α} {f : α → Introducing β}
    {state state'' : Introduction} {b : β} : (x >>= f) state = .ok (b, state'') ↔
      ∃ a state', x state = .ok (a, state') ∧ f a state' = .ok (b, state'') := by
  rw [show (x >>= f) state = x state >>= fun result => f result.1 result.2 from rfl,
    Except.bind_eq_ok, Prod.exists]

namespace Replaces

variable {α β : Type} {S : Expr → Prop} {Q : Assignment → α → Prop} {R : Assignment → β → Prop}

theorem pure {a : α} (h : ∀ σ, Q σ a) : Replaces S (pure a) Q where
  grows hrun := by
    cases hrun
    exact ⟨[], .refl S _⟩
  result hrun σ _ := by
    cases hrun
    exact h σ

theorem bind {x : Introducing α} {f : α → Introducing β} (hx : Replaces S x Q)
    (hf : ∀ a, Replaces S (f a) fun σ b => Q σ a → R σ b) : Replaces S (x >>= f) R where
  grows hrun := by
    obtain ⟨a, state', ha, hb⟩ := Introducing.bind_eq_ok.mp hrun
    obtain ⟨new, hgrows⟩ := hx.grows ha
    obtain ⟨new', hgrows'⟩ := (hf a).grows hb
    exact ⟨new ++ new', hgrows.trans hgrows'⟩
  result hrun σ hσ := by
    obtain ⟨a, state', ha, hb⟩ := Introducing.bind_eq_ok.mp hrun
    obtain ⟨new', hgrows'⟩ := (hf a).grows hb
    exact (hf a).result hb σ hσ (hx.result ha σ (hgrows'.respects hσ))

theorem imp {Q' : Assignment → α → Prop} {x : Introducing α} (hx : Replaces S x Q)
    (h : ∀ σ a, Q σ a → Q' σ a) : Replaces S x Q' :=
  ⟨hx.grows, fun hrun σ hσ => h σ _ (hx.result hrun σ hσ)⟩

theorem map {x : Introducing α} {f : α → β} (hx : Replaces S x Q)
    (h : ∀ σ a, Q σ a → R σ (f a)) : Replaces S (f <$> x) R := by
  rw [map_eq_pure_bind]
  exact hx.bind fun a => .pure fun σ => h σ a

theorem throw {cause : ModelError} : Replaces S (throw cause : Introducing α) Q :=
  ⟨fun hrun => (nomatch hrun), fun hrun => (nomatch hrun)⟩

/-- A step for every entry of a list. -/
theorem mapM {f : α → Introducing β} {R : Assignment → α → β → Prop} {list : List α}
    (h : ∀ a ∈ list, Replaces S (f a) fun σ b => R σ a b) :
    Replaces S (list.mapM f) fun σ bs => List.Forall₂ (R σ) list bs := by
  induction list with
  | nil =>
    rw [List.mapM_nil]
    exact .pure fun _ => .nil
  | cons a rest ih =>
    rw [List.mapM_cons]
    refine (h a List.mem_cons_self).bind fun b => ?_
    refine (ih fun a ha => h a (List.mem_cons_of_mem _ ha)).bind fun bs => ?_
    exact .pure fun σ hbs hb => .cons hb hbs

end Replaces

/-! ### Variables for expressions -/

namespace Introducing

variable {S : Expr → Prop}

theorem auxiliary_eq_ok {e : Expr} {state state' : Introduction} {v : Variable}
    (h : auxiliary e state = .ok (v, state')) :
    (state' = state ∧ (e, v) ∈ state.replaced) ∨
      ∃ d, possibleValues state.store e = .ok d ∧ v = (state.store.declareAuxiliary d).1 ∧
        state' = ⟨(state.store.declareAuxiliary d).2, (e, v) :: state.replaced,
          state.pending ++ [link v e]⟩ := by
  unfold auxiliary at h
  split at h
  · rename_i v' hlookup
    cases h
    obtain ⟨before, after, hreplaced, _⟩ := List.lookup_eq_some_iff.mp hlookup
    refine .inl ⟨rfl, ?_⟩
    rw [hreplaced]
    exact List.mem_append_right _ List.mem_cons_self
  · split at h
    · cases h
    · rename_i d hd
      cases h
      exact .inr ⟨d, hd, rfl, rfl⟩

theorem replaces_auxiliary {e : Expr} (he : S e) :
    Replaces S (auxiliary e) fun σ v => e.value? .exact σ = some (σ v) where
  grows hrun := by
    rcases auxiliary_eq_ok hrun with ⟨rfl, _⟩ | ⟨d, hd, rfl, rfl⟩
    · exact ⟨[], .refl S _⟩
    · exact ⟨[_], .snoc .nil he hd, rfl, rfl⟩
  result hrun σ hσ := by
    rcases auxiliary_eq_ok hrun with ⟨rfl, hmem⟩ | ⟨d, _, _, rfl⟩
    · exact hσ _ hmem he
    · exact hσ _ List.mem_cons_self he

theorem value?_var (k : Calculus) (σ : Assignment) (v : Variable) :
    (Expr.var v).value? k σ = some (σ v) := rfl

theorem replaces_leaf {e : Expr} (he : e.toVariable? = none → S e) :
    Replaces S (leaf e) fun σ e' => e'.value? .exact σ = e.value? .exact σ := by
  unfold leaf
  split
  · exact .pure fun _ => rfl
  · rename_i hleaf
    have hnone : e.toVariable? = none := by
      cases e with
      | var => exact absurd rfl hleaf
      | _ => rfl
    exact (replaces_auxiliary (he hnone)).map fun σ v hv => hv.symm

theorem replaces_variableOnly {e : Expr} (he : e.toVariable? = none → S e) :
    Replaces S (variableOnly e) fun σ e' => e'.value? .exact σ = e.value? .exact σ := by
  unfold variableOnly
  split
  · exact .pure fun _ => rfl
  · rename_i hvariable
    have hnone : e.toVariable? = none := by simpa using hvariable
    exact (replaces_auxiliary (he hnone)).map fun σ v hv => hv.symm

theorem mapM_eq_of_forall₂ {α β γ : Type} {f : α → Option γ} {g : β → Option γ} {as : List α}
    {bs : List β} (h : List.Forall₂ (fun a b => g b = f a) as bs) : bs.mapM g = as.mapM f := by
  induction h with
  | nil => rfl
  | cons h _ ih => rw [List.mapM_cons, List.mapM_cons, h, ih]

/-- Entries that are worth the same have the same values. -/
theorem values?_eq_of_forall₂ {k : Calculus} {σ : Assignment} {list list' : List Expr}
    (h : List.Forall₂ (fun e e' => e'.value? k σ = e.value? k σ) list list') :
    values? k σ list' = values? k σ list := by
  rw [values?_eq_mapM, values?_eq_mapM]
  exact mapM_eq_of_forall₂ h

theorem replaces_leaves {list : List Expr} (h : ∀ e ∈ list, e.toVariable? = none → S e) :
    Replaces S (leaves list) fun σ list' => values? .exact σ list' = values? .exact σ list :=
  (Replaces.mapM fun e he => replaces_leaf (h e he)).imp fun _ _ => values?_eq_of_forall₂

theorem replaces_variablesOnly {list : List Expr} (h : ∀ e ∈ list, e.toVariable? = none → S e) :
    Replaces S (variablesOnly list) fun σ list' =>
      values? .exact σ list' = values? .exact σ list :=
  (Replaces.mapM fun e he => replaces_variableOnly (h e he)).imp fun _ _ => values?_eq_of_forall₂

/-! ### Expressions -/

theorem liftAll_eq_mapM (list : List Expr) : liftAll list = list.mapM lift := by
  induction list with
  | nil => rfl
  | cons e rest ih => rw [liftAll, ih, List.mapM_cons]

/-- Applications that came about by lifting have operands. -/
theorem applied_ne_nil {op : Operator} {operands : List Expr} (hne : operands ≠ [])
    (h : ∀ op, apply op [] ∉ operands) (op' : Operator) : applied op operands ≠ apply op' [] := by
  intro heq
  unfold applied at heq
  split at heq
  · -- what the first operand is spliced into is empty only if it has no operands itself
    obtain ⟨e, rest, rfl⟩ := List.exists_cons_of_ne_nil hne
    obtain ⟨rfl, hnil⟩ := Expr.apply.inj heq
    rw [List.flatMap_cons, List.append_eq_nil_iff] at hnil
    cases e with
    | apply inner operands =>
      rw [spliced] at hnil
      split at hnil
      · obtain rfl := hnil.1
        exact h inner List.mem_cons_self
      · exact absurd hnil.1 (List.cons_ne_nil _ _)
    | _ => exact absurd hnil.1 (List.cons_ne_nil _ _)
  · exact hne (Expr.apply.inj heq).2

/-- Lifting the aggregates out of an expression changes nothing that is read. -/
theorem replaces_lift {known : Variable → Prop} {e : Expr} (he : e.WellFormed known)
    (hS : ∀ p ∈ e.outermost, S p) :
    Replaces S (lift e) fun σ e' =>
      e'.read .exact σ = e.read .exact σ ∧ ∀ op, e' ≠ apply op [] := by
  induction e using Expr.induction with
  | const n => exact .pure fun _ => ⟨rfl, fun _ => nofun⟩
  | var v => exact .pure fun _ => ⟨rfl, fun _ => nofun⟩
  | set members => exact .pure fun _ => ⟨rfl, fun _ => nofun⟩
  | aggregate f _ =>
    rw [lift]
    refine (replaces_auxiliary (hS _ List.mem_cons_self)).map fun σ v hv => ?_
    exact ⟨(value?_eq_some_iff.mp hv).symm, fun _ => nofun⟩
  | apply op operands ih =>
    obtain ⟨⟨haccepts, _⟩, hoperands⟩ := wellFormed_apply.mp he
    rw [outermost_apply] at hS
    rw [lift, liftAll_eq_mapM]
    have hall : Replaces S (operands.mapM lift) fun σ operands' =>
        List.Forall₂ (fun e e' => e'.read .exact σ = e.read .exact σ ∧ ∀ op, e' ≠ apply op [])
          operands operands' :=
      .mapM fun e he => ih e he (hoperands e he) fun p hp =>
        hS p (List.mem_flatMap.mpr ⟨e, he, hp⟩)
    refine hall.map fun σ operands' h => ?_
    -- an application without operands would vanish when it is spliced
    have hne : operands' ≠ [] := by
      rintro rfl
      cases h
      rw [List.length_nil, Operator.accepts_zero] at haccepts
      cases haccepts
    have hinner : ∀ op, apply op [] ∉ operands' := by
      intro op hmem
      obtain ⟨e, _, _, hne⟩ := exists_of_forall₂_of_mem h hmem
      exact hne op rfl
    have hread : readAll .exact σ operands' = readAll .exact σ operands := by
      rw [readAll_eq_mapM, readAll_eq_mapM]
      exact mapM_eq_of_forall₂ (h.imp fun _ _ h => h.1)
    refine ⟨?_, applied_ne_nil hne hinner⟩
    rw [read_applied, Expr.read, Expr.read, hread]
    rintro inner hmem rfl
    exact hinner op hmem

/-! ### Aggregates -/

/-- A scaled variable is worth its factor times the variable. -/
theorem integer?_of_scaledVariable? {e : Expr} {v : Variable} {factor : Int}
    (h : scaledVariable? e = some (v, factor)) (σ : Assignment) :
    e.integer? .exact σ = ((Expr.var v).integer? .exact σ).map (· * factor) := by
  have hproduct : ∀ a b : Int, Calculus.exact.operator .mul [a, b] = some (a * b) := by
    intro a b
    simp [Calculus.exact, Operator.exactValue?]
  unfold scaledVariable? at h
  split at h
  · cases h
    simp
  · cases h
    rw [integer?_apply_of_isAssociative rfl]
    cases hv : (Expr.var v).integer? .exact σ <;> simp [hv, integer?_const, hproduct]
  · cases h
    rw [integer?_apply_of_isAssociative rfl]
    cases hv : (Expr.var v).integer? .exact σ <;>
      simp [hv, integer?_const, hproduct, Int.mul_comm]
  · cases h

/-- What a term with its coefficient adds to a sum. -/
def contribution (σ : Assignment) (t : Expr × Int) : Option Int :=
  (t.1.integer? .exact σ).map (· * t.2)

theorem replaces_scaledVariable {e : Expr} (he : e.toVariable? = none → S e) :
    Replaces S (scaledVariable e) fun σ scaled =>
      e.integer? .exact σ = ((Expr.var scaled.1).integer? .exact σ).map (· * scaled.2) := by
  unfold scaledVariable
  split
  · rename_i scaled hscaled
    exact .pure (integer?_of_scaledVariable? hscaled)
  · rename_i hscaled
    have hnone : e.toVariable? = none := by
      cases e with
      | var => cases hscaled
      | _ => rfl
    refine (replaces_auxiliary (he hnone)).map fun σ v hv => ?_
    rw [integer?_eq, integer?_eq, hv]
    simp [value?_var]

theorem replaces_term {e : Expr} {coefficient : Int} (he : e.toVariable? = none → S e) :
    Replaces S (term e coefficient) fun σ t =>
      contribution σ t = contribution σ (e, coefficient) := by
  unfold term
  refine (replaces_scaledVariable he).bind fun scaled => ?_
  dsimp only
  split
  · rename_i c hc
    obtain ⟨rfl, _⟩ := Bounded.checked_eq_some_iff.mp hc
    refine .pure fun σ he => ?_
    simp only [contribution, he, Option.map_map]
    congr 1
    funext n
    simp only [Function.comp_apply]
    rw [Int.mul_comm coefficient, Int.mul_assoc]
  · exact .throw

theorem mapM_contribution {terms : List Expr} {cs : List Int} (h : cs.length = terms.length)
    (σ : Assignment) : (terms.zip cs).mapM (contribution σ) =
      (terms.mapM (integer? .exact σ)).map fun ns => (ns.zip cs).map fun (n, c) => n * c := by
  induction terms generalizing cs with
  | nil => rfl
  | cons e rest ih =>
    cases cs with
    | nil => cases h
    | cons c cs =>
      rw [List.zip_cons_cons, List.mapM_cons, List.mapM_cons, ih (Nat.succ.inj h), contribution]
      cases e.integer? .exact σ with
      | none => rfl
      | some n => cases rest.mapM (integer? .exact σ) <;> simp

/-- A sum as what its terms add to it. -/
theorem value?_sum_eq {terms : List Expr} {coefficients : Option (List Int)} (σ : Assignment)
    (h : ∀ cs ∈ coefficients, cs.length = terms.length) :
    (Aggregate.sum terms coefficients).value? .exact σ =
      ((terms.zip (Aggregate.coefficientsOf terms coefficients)).mapM (contribution σ)).map
        fun ns => .integer ns.sum := by
  have hlength : (Aggregate.coefficientsOf terms coefficients).length = terms.length := by
    cases coefficients with
    | none => simp [Aggregate.coefficientsOf]
    | some cs => exact h cs rfl
  rw [value?_sum, mapM_contribution hlength]
  cases hns : terms.mapM (integer? .exact σ) with
  | none => rfl
  | some ns =>
    -- the coefficients of the values are those of the terms
    have hcoefficients : Aggregate.coefficientsOf ns coefficients =
        Aggregate.coefficientsOf terms coefficients := by
      cases coefficients with
      | none => simp [Aggregate.coefficientsOf, (mapM_eq_some_iff.mp hns).length_eq]
      | some cs => rfl
    rw [← hcoefficients]
    rfl

theorem coefficientsOf_keptCoefficients {ε : Type} {terms : List ε} {cs : List Int}
    (h : cs.length = terms.length) :
    Aggregate.coefficientsOf terms (Aggregate.keptCoefficients cs) = cs := by
  unfold Aggregate.keptCoefficients
  split
  · rename_i hall
    rw [List.all_eq_true] at hall
    rw [Aggregate.coefficientsOf, Option.getD_none, List.map_const', ← h]
    exact (List.eq_replicate_iff.mpr ⟨rfl, fun c hc => beq_iff_eq.mp (hall c hc)⟩).symm
  · rfl

/-- Settling an aggregate that stands in its own constraint keeps its value. -/
theorem replaces_settleAggregate {f : Aggregate Expr} (hf : f.Regular)
    (hS : ∀ e ∈ f.operands, e.toVariable? = none → S e) :
    Replaces S (settleAggregate f) fun σ f' => f'.value? .exact σ = f.value? .exact σ := by
  cases f with
  | sum terms coefficients =>
    rw [settleAggregate]
    have hterms : Replaces S ((terms.zip (Aggregate.coefficientsOf terms coefficients)).mapM
        fun t => term t.1 t.2) fun σ weighted =>
          List.Forall₂ (fun t t' => contribution σ t' = contribution σ t)
            (terms.zip (Aggregate.coefficientsOf terms coefficients)) weighted :=
      .mapM fun t ht => replaces_term (hS t.1 (List.of_mem_zip ht).1)
    refine hterms.bind fun weighted => .pure fun σ h => ?_
    rw [value?_sum_eq σ fun cs hcs => (hf.2 cs hcs).1, value?_sum_eq]
    · rw [coefficientsOf_keptCoefficients (by simp), ← List.zip_of_prod rfl rfl,
        mapM_eq_of_forall₂ h]
    · intro cs hcs
      unfold Aggregate.keptCoefficients at hcs
      split at hcs
      · cases hcs
      · cases hcs
        simp
  | count list values =>
    exact (replaces_leaves hS).map fun σ list' h => (value?_congr_values h).1 values
  | nValues list except =>
    exact (replaces_leaves hS).map fun σ list' h => (value?_congr_values h).2.1 except
  | minimum list =>
    exact (replaces_leaves hS).map fun σ list' h => (value?_congr_values h).2.2.1
  | maximum list =>
    exact (replaces_leaves hS).map fun σ list' h => (value?_congr_values h).2.2.2
  | element list index startIndex =>
    rw [settleAggregate]
    have hlist : Replaces S (leaves list) _ :=
      replaces_leaves fun e he => hS e (List.mem_append_left _ he)
    have hindex := replaces_variableOnly (e := index) (hS index (by simp [Aggregate.operands]))
    refine hlist.bind fun list' => hindex.bind fun index' => .pure fun σ hindex hlist => ?_
    rw [value?_element, value?_element, hlist, integer?_eq, integer?_eq, hindex]

/-! ### Relations -/

variable {I : Interpretation}

theorem replaces_settleCondition {c : Condition}
    (hS : ∀ e ∈ c.expressions, e.toVariable? = none → S e) :
    Replaces S (settleCondition c) fun σ c' =>
      c'.comparison = c.comparison ∧ c'.operand.bound? σ = c.operand.bound? σ := by
  obtain ⟨comparison, operand⟩ := c
  cases operand with
  | expression e =>
    refine (replaces_leaf (hS e List.mem_cons_self)).map fun σ e' he => ⟨rfl, ?_⟩
    simp only [ConditionOperand.bound?, he]
  | range | set => exact .pure fun _ => ⟨rfl, rfl⟩

theorem replaces_settleOccurrence {o : Occurrence}
    (hS : ∀ e, o = .exactly e → e.toVariable? = none → S e) :
    Replaces S (settleOccurrence o) fun σ o' => o'.frequency? σ = o.frequency? σ := by
  cases o with
  | exactly e =>
    refine (replaces_leaf (hS e rfl)).map fun σ e' he => ?_
    simp only [Occurrence.frequency?, he]
  | between => exact .pure fun _ => rfl

theorem replaces_settleTarget {t : ChannelTarget}
    (hS : ∀ e, t = .value e → e.toVariable? = none → S e) :
    Replaces S (settleTarget t) fun σ t' => t'.linked? σ = t.linked? σ := by
  cases t with
  | value e =>
    refine (replaces_variableOnly (hS e rfl)).map fun σ e' he => ?_
    simp only [ChannelTarget.linked?, he]
  | itself | list => exact .pure fun _ => rfl

end Introducing

/-- The expressions of a relation that may be replaced: the outermost aggregates of a
predicate, and the arguments of every other relation. -/
def Relation.candidates : Relation → List Expr
  | .intension predicate => predicate.outermost
  | r => r.expressions

namespace Introducing

variable {S : Expr → Prop} {I : Interpretation}

/-- Settling a relation changes nothing about when it holds. -/
theorem replaces_settleRelation {known : Variable → Prop} {r : Relation}
    (hr : r.WellFormed known) (hS : ∀ e ∈ r.candidates, e.toVariable? = none → S e) :
    Replaces S (settleRelation r) fun σ r' => r'.Holds I σ ↔ r.Holds I σ := by
  have hpart : ∀ {list : List Expr}, list ⊆ r.candidates →
      ∀ e ∈ list, e.toVariable? = none → S e := fun h e he => hS e (h he)
  cases r with
  | intension predicate =>
    have hpredicate : predicate.WellFormed known := hr.1 predicate List.mem_cons_self
    refine (replaces_lift hpredicate fun p hp =>
      hS p hp (toVariable?_of_mem_outermost hp)).map fun σ e' he => ?_
    simp only [Relation.Holds, value?, he.1]
  | extension list table | circuit list startIndex | regular list automaton | mdd list diagram
  | precedence list values covered =>
    have hlist : Replaces S (variablesOnly list) fun σ list' =>
        values? .exact σ list' = values? .exact σ list := replaces_variablesOnly hS
    refine hlist.map fun σ list' h => ?_
    simp only [Relation.Holds, h]
  | allDifferent list except | allEqual list | ordered list operator =>
    have hlist : Replaces S (leaves list) fun σ list' =>
        values? .exact σ list' = values? .exact σ list := replaces_leaves hS
    refine hlist.map fun σ list' h => ?_
    simp only [Relation.Holds, h]
  | conditional function condition =>
    have hfunction := replaces_settleAggregate (hr.2 function condition rfl)
      (hpart (List.subset_append_left _ _))
    have hcondition := replaces_settleCondition (c := condition)
      (hpart (List.subset_append_right _ _))
    refine hfunction.bind fun f' => hcondition.bind fun c' => .pure fun σ hc hf => ?_
    simp only [Relation.Holds, hf, hc.1, hc.2]
  | noOverlap origins lengths zeroIgnored =>
    have horigins := replaces_variablesOnly (hpart (List.subset_append_left origins lengths))
    have hlengths := replaces_leaves (hpart (List.subset_append_right origins lengths))
    refine horigins.bind fun origins' => hlengths.bind fun lengths' => .pure fun σ hl ho => ?_
    simp only [Relation.Holds, ho, hl]
  | cumulative origins lengths heights condition =>
    have horigins : Replaces S (variablesOnly origins) _ :=
      replaces_variablesOnly (hpart fun e he => by simp [Relation.candidates, Relation.expressions, he])
    have hlengths : Replaces S (leaves lengths) _ :=
      replaces_leaves (hpart fun e he => by simp [Relation.candidates, Relation.expressions, he])
    have hheights : Replaces S (leaves heights) _ :=
      replaces_leaves (hpart fun e he => by simp [Relation.candidates, Relation.expressions, he])
    have hcondition : Replaces S (settleCondition condition) _ :=
      replaces_settleCondition (hpart (List.subset_append_right _ _))
    refine horigins.bind fun origins' => hlengths.bind fun lengths' =>
      hheights.bind fun heights' => hcondition.bind fun c' => .pure fun σ hc hh hl ho => ?_
    simp only [Relation.Holds, ho, hl, hh, hc.1, hc.2]
  | instantiation list values => exact .pure fun _ => Iff.rfl
  | lex lists operator =>
    have hlists : Replaces S (lists.mapM leaves) fun σ lists' =>
        List.Forall₂ (fun l l' => values? .exact σ l' = values? .exact σ l) lists lists' :=
      .mapM fun list hl => replaces_leaves (hpart fun e he => List.mem_flatten.mpr ⟨list, hl, he⟩)
    refine hlists.map fun σ lists' h => ?_
    simp only [Relation.Holds, mapM_eq_of_forall₂ h]
  | channel list startIndex target =>
    have htarget : Replaces S (settleTarget target) _ := replaces_settleTarget fun e he =>
      hS e (by simp [Relation.candidates, Relation.expressions, Relation.targetExpressions, he])
    refine htarget.map fun σ t' h => ?_
    simp only [Relation.Holds, h]
  | cardinality list values occurs closed =>
    have hvariables : Replaces S (variablesOnly list) _ := replaces_variablesOnly
      (hpart fun e he => by simp [Relation.candidates, Relation.expressions, he])
    have hvalues : Replaces S (leaves values) _ := replaces_leaves
      (hpart fun e he => by simp [Relation.candidates, Relation.expressions, he])
    have hoccurs : Replaces S (occurs.mapM settleOccurrence) fun σ occurs' =>
        List.Forall₂ (fun o o' => o'.frequency? σ = o.frequency? σ) occurs occurs' := by
      refine .mapM fun o ho => replaces_settleOccurrence fun e he => hS e ?_
      refine List.mem_append_right _ (List.mem_filterMap.mpr ⟨o, ho, ?_⟩)
      rw [he]
      rfl
    refine hvariables.bind fun list' => hvalues.bind fun values' => hoccurs.bind fun occurs' =>
      .pure fun σ ho hv hl => ?_
    simp only [Relation.Holds, hl, hv, mapM_eq_of_forall₂ ho]
  | clause literals => exact .pure fun _ => Iff.rfl

theorem settleAll_eq_mapM (list : List Constraint) : settleAll list = list.mapM settle := by
  induction list with
  | nil => rfl
  | cons c rest ih => rw [settleAll, ih, List.mapM_cons]

/-- Settling a constraint changes nothing about when it holds. -/
theorem replaces_settle {known : Variable → Prop} {c : Constraint}
    (hc : ∀ r ∈ c.relations, r.WellFormed known)
    (hS : ∀ r ∈ c.relations, ∀ e ∈ r.candidates, e.toVariable? = none → S e) :
    Replaces S (settle c) fun σ c' => c'.Holds I σ ↔ c.Holds I σ := by
  induction c using Constraint.rec
    (motive_2 := fun list => (∀ r ∈ Constraint.relationsOf list, r.WellFormed known) →
      (∀ r ∈ Constraint.relationsOf list, ∀ e ∈ r.candidates, e.toVariable? = none → S e) →
      Replaces S (settleAll list) fun σ list' =>
        Constraint.AllHold I σ list' ↔ Constraint.AllHold I σ list) with
  | relation r =>
    exact (replaces_settleRelation (hc r List.mem_cons_self) (hS r List.mem_cons_self)).map
      fun σ r' h => h
  | slide windows ih => exact (ih hc hS).map fun σ windows' h => h
  | nil => exact .pure fun _ => Iff.rfl
  | cons c rest ihc ihrest hc hS =>
    rw [settleAll]
    refine (ihc (fun r hr => hc r (List.mem_append_left _ hr))
      fun r hr => hS r (List.mem_append_left _ hr)).bind fun c' => ?_
    refine (ihrest (fun r hr => hc r (List.mem_append_right _ hr))
      fun r hr => hS r (List.mem_append_right _ hr)).bind fun rest' => ?_
    exact .pure fun σ hrest hc => and_congr hc hrest

end Introducing

/-- The expressions of a target that may be replaced. -/
def Target.candidates : Target → List Expr
  | .expression e => e.outermost
  | .aggregate f => .aggregate f :: f.operands

namespace Introducing

variable {S : Expr → Prop}

/-- Settling the value to optimise keeps it. -/
theorem replaces_settleObjectiveTarget {known : Variable → Prop} {t : Target}
    (ht : t.toExpr.WellFormed known) (hS : ∀ e ∈ t.candidates, e.toVariable? = none → S e) :
    Replaces S (settleObjectiveTarget t) fun σ t' => t'.value? σ = t.value? σ := by
  cases t with
  | expression e =>
    refine (replaces_lift ht fun p hp =>
      hS p hp (toVariable?_of_mem_outermost hp)).map fun σ e' he => ?_
    simp only [Target.value?, Target.toExpr, value?, he.1]
  | aggregate f =>
    have hwhole : S (.aggregate f) := hS _ List.mem_cons_self rfl
    have hoperands : ∀ e ∈ f.operands, e.toVariable? = none → S e :=
      fun e he => hS e (List.mem_cons_of_mem _ he)
    have hf : f.Regular := (wellFormed_aggregate.mp ht).1
    cases f with
    | sum terms coefficients =>
      refine (replaces_settleAggregate hf hoperands).map fun σ f' h => ?_
      simpa only [Target.value?, Target.toExpr, value?_aggregate] using h
    | nValues list except =>
      refine (replaces_variablesOnly hoperands).map fun σ list' h => ?_
      simp only [Target.value?, Target.toExpr, value?_aggregate]
      exact (value?_congr_values h).2.1 except
    | minimum list =>
      refine (replaces_variablesOnly hoperands).map fun σ list' h => ?_
      simp only [Target.value?, Target.toExpr, value?_aggregate]
      exact (value?_congr_values h).2.2.1
    | maximum list =>
      refine (replaces_variablesOnly hoperands).map fun σ list' h => ?_
      simp only [Target.value?, Target.toExpr, value?_aggregate]
      exact (value?_congr_values h).2.2.2
    | count list values | element list index startIndex =>
      exact (replaces_auxiliary hwhole).map fun σ v hv => hv.symm

end Introducing
end CspModel
