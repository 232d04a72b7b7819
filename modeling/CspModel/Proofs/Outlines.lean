import CspModel.Proofs.Frames
import CspModel.Proofs.Links

/-! # What auxiliary variables make of a constraint

Settling a predicate puts a variable in the place of every outermost aggregate and leaves
everything else (`Expr.lifting`); settling a list of variables puts a variable in the place
of every other entry (`Expr.variableIn`).  The variable of an expression is its own, and no
variable that was declared before, so what is settled tells what was posted.  It has the
frame that the posted predicate has when its aggregates are blanked like its variables and
constants (`Expr.frame_lifting`): predicates that agree before auxiliary variables are
introduced agree afterwards.
-/
namespace CspModel

open CspModel.Expr

namespace Expr

mutual
/-- The expression with all of its variables, constants and aggregates blanked. -/
def outline : Expr → Expr
  | const _ => const 0
  | var _ => const 0
  | aggregate _ => const 0
  | set members => set members
  | apply op operands => apply op (outlineAll operands)

/-- The outlines of several expressions. -/
def outlineAll : List Expr → List Expr
  | [] => []
  | e :: rest => outline e :: outlineAll rest
end

theorem outlineAll_eq_map (list : List Expr) : outlineAll list = list.map outline := by
  induction list with
  | nil => rfl
  | cons e rest ih => rw [outlineAll, ih, List.map_cons]

section
variable (standIn : Expr → Variable)

mutual
/-- The expression with variables in the places of its outermost aggregates. -/
def lifting : Expr → Expr
  | const value => const value
  | var v => var v
  | set members => set members
  | aggregate f => var (standIn (aggregate f))
  | apply op operands => apply op (liftingAll operands)

/-- The expressions of a list with variables in the places of their outermost aggregates. -/
def liftingAll : List Expr → List Expr
  | [] => []
  | e :: rest => lifting e :: liftingAll rest
end

theorem liftingAll_eq_map (list : List Expr) :
    liftingAll standIn list = list.map (lifting standIn) := by
  induction list with
  | nil => rfl
  | cons e rest ih => rw [liftingAll, ih, List.map_cons]

/-- The variable of an expression in a list of variables. -/
def variableIn (e : Expr) : Variable := e.toVariable?.getD (standIn e)

variable {standIn}

theorem frame_lifting (e : Expr) : (e.lifting standIn).frame = e.outline := by
  induction e using Expr.induction with
  | const | var | set => rfl
  | aggregate f _ => rfl
  | apply op operands ih =>
    rw [lifting, liftingAll_eq_map, frame, frameAll_eq_map, outline, outlineAll_eq_map,
      List.map_map]
    exact congrArg (apply op) (List.map_congr_left ih)

/-- Lifting makes no application of what is none. -/
theorem exists_of_lifting_eq_apply {e : Expr} {op : Operator} {operands' : List Expr}
    (h : e.lifting standIn = apply op operands') :
    ∃ operands, e = apply op operands ∧ operands.map (lifting standIn) = operands' := by
  cases e with
  | apply op' operands =>
    rw [lifting, liftingAll_eq_map] at h
    obtain ⟨rfl, hoperands⟩ := Expr.apply.inj h
    exact ⟨operands, rfl, hoperands⟩
  | _ => cases h

/-- Nothing is spliced when the aggregates of a well-formed expression are lifted. -/
theorem applied_map_lifting {known : Variable → Prop} {op : Operator} {operands : List Expr}
    (h : (apply op operands).WellFormed known) :
    applied op (operands.map (lifting standIn)) = (apply op operands).lifting standIn := by
  rw [applied, lifting, liftingAll_eq_map]
  by_cases hop : op.isAssociative = true
  · rw [if_pos hop]
    have hspliced : ∀ e ∈ operands.map (lifting standIn), spliced op e = [e] := fun e' he' => by
      obtain ⟨e, he, rfl⟩ := List.mem_map.mp he'
      cases hlifting : e.lifting standIn with
      | apply inner inner' =>
        obtain ⟨inners, rfl, -⟩ := exists_of_lifting_eq_apply hlifting
        rw [spliced, if_neg]
        rintro rfl
        exact h.regular.2 hop inners he
      | _ => rfl
    rw [List.flatMap_congr hspliced, List.flatMap_singleton']
  · rw [if_neg hop]

end

end Expr

/-! ### Variables that stand in -/

/-- Whether the variables that stand for some expressions are new, and different for
different ones. -/
structure StandsIn (standIn : Expr → Variable) (replaced : Expr → Prop)
    (known : Variable → Prop) : Prop where
  injective : ∀ e e', replaced e → replaced e' → standIn e = standIn e' → e = e'
  fresh : ∀ e, replaced e → ¬ known (standIn e)

namespace StandsIn

variable {standIn : Expr → Variable} {replaced : Expr → Prop} {known : Variable → Prop}
  (h : StandsIn standIn replaced known)
include h

/-- A list of variables tells the expressions they stand for. -/
theorem variableIn_injective {e e' : Expr} (he : e.Over known) (he' : e'.Over known)
    (hreplaced : e.toVariable? = none → replaced e)
    (hreplaced' : e'.toVariable? = none → replaced e')
    (heq : e.variableIn standIn = e'.variableIn standIn) : e = e' := by
  have hvariable : ∀ {e : Expr} {v : Variable}, e.toVariable? = some v → e.Over known →
      e = .var v ∧ known v := fun {e v} hv hover => by
    cases e with
    | var w =>
      obtain rfl := Option.some.inj hv
      exact ⟨rfl, hover w (List.mem_singleton_self w)⟩
    | _ => cases hv
  rw [variableIn, variableIn] at heq
  cases hv : e.toVariable? with
  | some v =>
    obtain ⟨rfl, hknown⟩ := hvariable hv he
    cases hw : e'.toVariable? with
    | some w =>
      obtain ⟨rfl, -⟩ := hvariable hw he'
      exact congrArg var heq
    | none =>
      rw [hv, hw] at heq
      obtain rfl : v = standIn e' := heq
      exact absurd hknown (h.fresh e' (hreplaced' hw))
  | none =>
    cases hw : e'.toVariable? with
    | some w =>
      obtain ⟨rfl, hknown⟩ := hvariable hw he'
      rw [hv, hw] at heq
      obtain rfl : standIn e = w := heq
      exact absurd hknown (h.fresh e (hreplaced hv))
    | none =>
      rw [hv, hw] at heq
      exact h.injective e e' (hreplaced hv) (hreplaced' hw) heq

/-- A predicate tells what its aggregates were. -/
theorem lifting_injective {e e' : Expr} (he : e.Over known) (he' : e'.Over known)
    (hreplaced : ∀ p ∈ e.outermost, replaced p) (hreplaced' : ∀ p ∈ e'.outermost, replaced p)
    (heq : e.lifting standIn = e'.lifting standIn) : e = e' := by
  induction e using Expr.induction generalizing e' with
  | const n | set =>
    cases e' with
    | const | set => exact heq
    | _ => cases heq
  | var v =>
    have hv : known v := he v (List.mem_singleton_self v)
    cases e' with
    | var w => exact heq
    | aggregate f =>
      obtain rfl := Expr.var.inj heq
      exact absurd hv (h.fresh _ (hreplaced' _ List.mem_cons_self))
    | _ => cases heq
  | aggregate f _ =>
    have hf := hreplaced _ List.mem_cons_self
    cases e' with
    | var w =>
      obtain rfl := Expr.var.inj heq
      exact absurd (he' _ (List.mem_singleton_self _)) (h.fresh _ hf)
    | aggregate g =>
      exact h.injective _ _ hf (hreplaced' _ List.mem_cons_self) (Expr.var.inj heq)
    | _ => cases heq
  | apply op operands ih =>
    rw [lifting, liftingAll_eq_map] at heq
    obtain ⟨operands', rfl, hoperands⟩ := exists_of_lifting_eq_apply heq.symm
    rw [outermost_apply] at hreplaced hreplaced'
    refine congrArg (apply op) (eq_of_map_eq (fun a ha b hb hab => ?_) hoperands.symm)
    refine ih a ha (over_apply.mp he a ha) (over_apply.mp he' b hb)
      (fun p hp => hreplaced p ?_) (fun p hp => hreplaced' p ?_) hab
    · exact List.mem_flatMap.mpr ⟨a, ha, hp⟩
    · exact List.mem_flatMap.mpr ⟨b, hb, hp⟩

end StandsIn

/-! ### Settling -/

/-- Run up to a state whose table of replaced expressions is part of the given one, the step
yields what satisfies a condition. -/
def Yields {α : Type} (table : List (Expr × Variable)) (x : Introducing α) (Q : α → Prop) : Prop :=
  ∀ state a state', x state = .ok (a, state') → state'.replaced ⊆ table → Q a

namespace Yields

variable {α β : Type} {table : List (Expr × Variable)} {Q : α → Prop} {R : β → Prop}

theorem pure {a : α} (h : Q a) : Yields table (pure a) Q := by
  intro state b state' hrun _
  cases hrun
  exact h

theorem map {x : Introducing α} {f : α → β} (hx : Yields table x Q) (h : ∀ a, Q a → R (f a)) :
    Yields table (f <$> x) R := by
  intro state b state' hrun hsub
  rw [map_eq_pure_bind] at hrun
  obtain ⟨a, state₁, ha, hrun⟩ := Introducing.bind_eq_ok.mp hrun
  cases hrun
  exact h a (hx _ _ _ ha hsub)

/-- Whatever a step yields, the one after it yields what it does. -/
theorem after {x : Introducing α} {f : α → Introducing β} (hf : ∀ a, Yields table (f a) R) :
    Yields table (x >>= f) R := by
  intro state b state' hrun hsub
  obtain ⟨a, state₁, _, hb⟩ := Introducing.bind_eq_ok.mp hrun
  exact hf a _ _ _ hb hsub

/-- A step for every entry of a list. -/
theorem mapM {es : α → List Expr} {f : α → Introducing β} {S : α → β → Prop} {list : List α}
    (hasks : ∀ a ∈ list, Introducing.Asks (es a) (f a)) (h : ∀ a ∈ list, Yields table (f a) (S a)) :
    Yields table (list.mapM f) fun bs => List.Forall₂ S list bs := by
  induction list with
  | nil => exact pure .nil
  | cons a rest ih =>
    have hasksRest := (List.forall_mem_cons.mp hasks).2
    obtain ⟨hhere, hrest⟩ := List.forall_mem_cons.mp h
    intro state bs state' hrun hsub
    rw [List.mapM_cons] at hrun
    obtain ⟨b, state₁, hb, hrun⟩ := Introducing.bind_eq_ok.mp hrun
    obtain ⟨bs, state₂, hbs, hrun⟩ := Introducing.bind_eq_ok.mp hrun
    cases hrun
    -- what the first step has replaced is still replaced after the others
    have hkept := (Introducing.Asks.mapM hasksRest).needs.subset hbs
    exact .cons (hhere _ _ _ hb (List.Subset.trans hkept hsub)) (ih hasksRest hrest _ _ _ hbs hsub)

end Yields

/-- What a relation is settled as: a predicate as one with its aggregates lifted, a list of a
table as variables.  Nothing else becomes a predicate. -/
def Relation.SettledAs (standIn : Expr → Variable) : Relation → Relation → Prop
  | intension e, r' => r' = .intension (e.lifting standIn)
  | extension list table, r' =>
    r' = .extension (list.map fun e => .var (e.variableIn standIn)) table
  | _, r' => ∀ e, r' ≠ .intension e

/-- What a constraint is settled as; the relations of a slide are settled one by one. -/
def Constraint.SettledAs (standIn : Expr → Variable) : Constraint → Constraint → Prop
  | relation r, relation r' => r.SettledAs standIn r'
  | slide windows, slide windows' =>
    List.Forall₂ (Relation.SettledAs standIn) (relationsOf windows) (relationsOf windows')
  | _, _ => False

theorem Constraint.SettledAs.relations {standIn : Expr → Variable} {c c' : Constraint}
    (h : c.SettledAs standIn c') :
    List.Forall₂ (Relation.SettledAs standIn) c.relations c'.relations := by
  cases c with
  | relation r =>
    cases c' with
    | relation r' => exact .cons h .nil
    | slide windows' => cases h
  | slide windows =>
    cases c' with
    | relation r' => cases h
    | slide windows' => exact h

namespace Introducing

variable {table : List (Expr × Variable)} {standIn : Expr → Variable} {known : Variable → Prop}
  (htable : ∀ e v, (e, v) ∈ table → standIn e = v)
include htable

theorem yields_auxiliary (e : Expr) : Yields table (auxiliary e) (· = standIn e) := by
  intro state v state' hrun hsub
  have hmem : (e, v) ∈ state'.replaced := by
    rcases auxiliary_eq_ok hrun with ⟨rfl, hmem⟩ | ⟨d, _, rfl, rfl⟩
    · exact hmem
    · exact List.mem_cons_self
  exact (htable e v (hsub hmem)).symm

theorem yields_variableOnly (e : Expr) :
    Yields table (variableOnly e) (· = .var (e.variableIn standIn)) := by
  unfold variableOnly
  split
  · rename_i hsome
    cases e with
    | var v => exact .pure rfl
    | _ => cases hsome
  · rename_i hnone
    refine (yields_auxiliary htable e).map fun v hv => ?_
    rw [hv, variableIn, Option.not_isSome_iff_eq_none.mp hnone, Option.getD_none]

theorem yields_lift {e : Expr} (he : e.WellFormed known) :
    Yields table (lift e) (· = e.lifting standIn) := by
  induction e using Expr.induction with
  | const | var | set => exact .pure rfl
  | aggregate f _ =>
    rw [lift]
    exact (yields_auxiliary htable _).map fun v hv => congrArg var hv
  | apply op operands ih =>
    have hoperands := (wellFormed_apply.mp he).2
    rw [lift, liftAll_eq_mapM]
    refine (Yields.mapM (fun e _ => asks_lift e) fun e hmem => ih e hmem (hoperands e hmem)).map
      fun operands' h => ?_
    rw [← applied_map_lifting he]
    refine congrArg (applied op) ?_
    rw [← List.forall₂_eq_eq_eq, List.forall₂_map_right_iff]
    exact h.flip

theorem yields_settleRelation {r : Relation} (hr : r.WellFormed known) :
    Yields table (settleRelation r) (r.SettledAs standIn) := by
  have hany : ∀ {α : Type} {x : Introducing α}, Yields table x fun _ => True :=
    fun _ _ _ _ _ => trivial
  cases r with
  | intension e =>
    exact (yields_lift htable (hr.1 e (List.mem_singleton_self e))).map fun e' he' =>
      congrArg Relation.intension he'
  | extension list t =>
    refine (Yields.mapM (fun e _ => asks_variableOnly e)
      fun e _ => yields_variableOnly htable e).map fun list' h => ?_
    refine congrArg (Relation.extension · t) ?_
    rw [← List.forall₂_eq_eq_eq, List.forall₂_map_right_iff]
    exact h.flip
  | allDifferent | allEqual | ordered | circuit | lex | channel | regular | mdd | precedence =>
    exact hany.map fun _ _ _ => nofun
  | instantiation | clause => exact .pure fun _ => nofun
  | conditional | noOverlap => exact .after fun _ => .after fun _ => .pure fun _ => nofun
  | cumulative =>
    exact .after fun _ => .after fun _ => .after fun _ => .after fun _ => .pure fun _ => nofun
  | cardinality => exact .after fun _ => .after fun _ => .after fun _ => .pure fun _ => nofun

theorem yields_settle {c : Constraint} (hc : ∀ r ∈ c.relations, r.WellFormed known) :
    Yields table (settle c) (c.SettledAs standIn) := by
  induction c using Constraint.rec
    (motive_2 := fun list => (∀ r ∈ Constraint.relationsOf list, r.WellFormed known) →
      Yields table (settleAll list) fun list' =>
        List.Forall₂ (Relation.SettledAs standIn) (Constraint.relationsOf list)
          (Constraint.relationsOf list')) with
  | relation r =>
    exact (yields_settleRelation htable (hc r (List.mem_singleton_self r))).map fun r' hr' => hr'
  | slide windows ih => exact (ih hc).map fun windows' h => h
  | nil => exact Yields.pure .nil
  | cons c rest ihc ihrest hall =>
    intro state list' state' hrun hsub
    rw [Constraint.relationsOf] at hall
    obtain ⟨hc, hrest⟩ := List.forall_mem_append.mp hall
    rw [settleAll] at hrun
    obtain ⟨c', state₁, hc', hrun⟩ := bind_eq_ok.mp hrun
    obtain ⟨rest', state₂, hrest', hrun⟩ := bind_eq_ok.mp hrun
    cases hrun
    rw [Constraint.relationsOf, Constraint.relationsOf]
    refine List.rel_append (Constraint.SettledAs.relations ?_) (ihrest hrest _ _ _ hrest' hsub)
    rw [settleAll_eq_mapM] at hrest'
    have hkept := (Asks.mapM fun c _ => asks_settle c).needs.subset hrest'
    exact ihc hc _ _ _ hc' (List.Subset.trans hkept hsub)

end Introducing

/-! ### The constraints of a model -/

/-- What the postings of a model are written as: variables of their own, none of them declared
in the model, stand for what is replaced, and every posting is settled by them and followed by
its links. -/
theorem Introduced.exists_standIn {m : Model} {p : Introduced} (hm : m.Reachable)
    (hp : ofModel m = .ok p) :
    ∃ (standIn : Expr → Variable) (blocks : List (List Posting)) (last : List Posting),
      StandsIn standIn (Needed m.replacements) m.store.Declares ∧
      p.postings = blocks.flatten ++ last ∧
      List.Forall₂ (fun posting block => ∃ body links,
        block = ⟨body, posting.decoration⟩ :: links ∧
        body.isGather = posting.body.isGather ∧
        List.Forall₂ (Constraint.SettledAs standIn) posting.body.constraints body.constraints)
        m.postings blocks := by
  obtain ⟨⟨_, _, standIn, hbijOn, hgraph⟩, _, _, blocks, last, links, hblocks, hpostings, _,
    hwrites, _⟩ := links_once hm hp
  have htable : ∀ e v, (e, v) ∈ p.final.replaced → standIn e = v := fun e v hmem =>
    ((hgraph e v).mp hmem).2
  refine ⟨standIn, blocks.map Block.written, _, ⟨fun e e' he he' heq => hbijOn.injOn he he' heq,
    fun e he hknown => (hbijOn.mapsTo he).2 hknown⟩, by rw [hpostings, List.flatMap_def], ?_⟩
  have hsettled : ∀ {c c' : Constraint}, (∀ r ∈ c.relations, r.WellFormed m.store.Declares) →
      p.final.Becomes c c' → c.SettledAs standIn c' := fun hc hbecomes =>
    Introducing.yields_settle htable hc _ _ _ hbecomes (List.Subset.refl _)
  rw [← hblocks, List.forall₂_map_left_iff, List.forall₂_map_right_iff, List.forall₂_same]
  intro b hb
  have hwell := hm.sound.postings b.posting (hblocks ▸ List.mem_map_of_mem hb)
  have hwritten := hwrites b hb
  obtain ⟨posting, first, written⟩ := b
  cases hwritten with
  | single hbecomes _ =>
    exact ⟨.single _, _, rfl, rfl,
      .cons (hsettled (hwell _ (List.mem_singleton_self _)) hbecomes) .nil⟩
  | @gather _ constraints' _ _ _ hbecomes _ =>
    refine ⟨.gather constraints', _, rfl, rfl, ?_⟩
    rw [List.forall₂_iff_get] at hbecomes ⊢
    exact ⟨hbecomes.1, fun k hk hk' => hsettled (hwell _ (List.get_mem _ _)) (hbecomes.2 k hk hk')⟩

end CspModel
