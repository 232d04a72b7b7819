import CspModel.Proofs.Predicates
import CspModel.Proofs.Similar

/-! # Similar constraints are the instances of their template

No layout of a constraint has placeholders, so replacing those of a template gives back
the lists it was made from and leaves everything else.  With the corresponding result for
predicates, a template of similar constraints has these constraints as its instances, in
their order (`readingOf_template?`), and instances for different variables are different
(`readingOf_template?_injective`).
-/
namespace CspModel

/-! ### The parameters of a layout -/

/-- Whether a content is no template and its list, if it is one, consists of parameters
with a property. -/
def Content.All (P : Parameter → Prop) : Content → Prop
  | parameters list => ∀ p ∈ list, P p
  | template _ => False
  | _ => True

/-- Whether a content is no template, and the parameters in its list or its condition have a
property, as has its predicate. -/
def Content.Every (P : Parameter → Prop) (T : Expr → Prop) : Content → Prop
  | tree predicate => T predicate
  | parameters list => ∀ p ∈ list, P p
  | condition _ (.parameter p) => P p
  | template _ => False
  | _ => True

/-- Whether a property holds of the parameters that no variable is written as. -/
structure Parameter.Admits (P : Parameter → Prop) : Prop where
  integer : ∀ value, P (.integer value)
  range : ∀ inf sup, P (.range inf sup)
  expression : ∀ e, P (.expression e)

/-- Whether a property holds of every parameter of a layout that is not the one of an
expression, as soon as it holds of the variables. -/
structure Parameter.Spreads (P : Parameter → Prop) : Prop where
  integer : ∀ value, P (.integer value)
  range : ∀ inf sup, P (.range inf sup)
  negation : ∀ v, P (.var v) → P (.expression (.apply .not [.var v]))

section
open Argument
variable {P : Parameter → Prop} {T : Expr → Prop}

theorem Parameter.Admits.spreads (hP : Admits P) : Spreads P :=
  ⟨hP.integer, hP.range, fun _ _ => hP.expression _⟩

theorem Content.Every.all {content : Content} (h : content.Every P T) : content.All P := by
  cases content <;> first | exact h | trivial

theorem every_ofList (name : String) {list : List Expr} (h : ∀ e ∈ list, P (.ofExpr e)) :
    (ofList name list).content.Every P T := List.forall_mem_map.mpr h

theorem every_ofVariables {list : List Variable} (h : ∀ e ∈ list.map Expr.var, P (.ofExpr e)) :
    (ofVariables list).content.Every P T :=
  List.forall_mem_map.mpr fun _ hv => h _ (List.mem_map_of_mem hv)

theorem every_ofExpr (name : String) {e : Expr} (h : P (.ofExpr e)) :
    (ofExpr name e).content.Every P T := List.forall_mem_singleton.mpr h

theorem every_ofCondition {c : Condition} (h : ∀ e ∈ c.expressions, P (.ofExpr e)) :
    (ofCondition c).content.Every P T := by
  obtain ⟨comparison, operand⟩ := c
  cases operand with
  | expression e => exact h e (List.mem_singleton_self e)
  | range | set => trivial

theorem content_withAttribute (a : Argument) (isDefault : Bool) (key value : String) :
    (a.withAttribute isDefault key value).content = a.content := by
  unfold withAttribute
  split <;> rfl

theorem content_startingAt (a : Argument) (startIndex : Int) :
    (a.startingAt startIndex).content = a.content :=
  content_withAttribute _ _ _ _

theorem every_startingAt {a : Argument} (h : a.content.Every P T) (startIndex : Int) :
    (a.startingAt startIndex).content.Every P T := by
  rwa [content_startingAt]

theorem every_aggregateCondition (f : Aggregate Expr) {c : Condition}
    (h : ∀ e ∈ c.expressions, P (.ofExpr e)) :
    (Layout.aggregateCondition f c).content.Every P T := by
  cases f with
  | element list index startIndex =>
    show (ofElementCondition c).content.Every P T
    unfold ofElementCondition
    split
    · exact every_ofExpr _ (h _ (List.mem_singleton_self _))
    · exact every_ofCondition h
  | _ => exact every_ofCondition h

theorem every_targetArguments {target : ChannelTarget}
    (h : ∀ e ∈ Relation.targetExpressions target, P (.ofExpr e)) :
    ∀ a ∈ Layout.targetArguments target, a.content.Every P T := by
  cases target with
  | itself => exact fun a ha => nomatch ha
  | list list startIndex =>
    exact List.forall_mem_singleton.mpr (every_startingAt (every_ofVariables h) startIndex)
  | value e => exact List.forall_mem_singleton.mpr (every_ofExpr _ (h e (List.mem_singleton_self e)))

variable (hP : Parameter.Spreads P)
include hP

theorem every_ofIntegers (name : String) (values : List Int) :
    (ofIntegers name values).content.Every P T :=
  List.forall_mem_map.mpr fun n _ => hP.integer n

theorem every_ofCoefficients (coefficients : Option (List Int)) :
    ∀ a ∈ ofCoefficients coefficients, a.content.Every P T := by
  cases coefficients with
  | none => exact fun a ha => nomatch ha
  | some values => exact List.forall_mem_singleton.mpr (every_ofIntegers hP _ _)

theorem every_ofSome (name : String) (values : List Int) :
    ∀ a ∈ ofSome name values, a.content.Every P T := by
  unfold ofSome
  split
  · exact fun a ha => nomatch ha
  · exact List.forall_mem_singleton.mpr (every_ofIntegers hP _ _)

theorem every_aggregateArguments {f : Aggregate Expr} (h : ∀ e ∈ f.operands, P (.ofExpr e)) :
    ∀ a ∈ Layout.aggregateArguments f, a.content.Every P T := by
  cases f with
  | sum terms coefficients =>
    exact List.forall_mem_cons.mpr ⟨every_ofList _ h, every_ofCoefficients hP coefficients⟩
  | count list values =>
    exact List.forall_mem_cons.mpr ⟨every_ofList _ h,
      List.forall_mem_singleton.mpr (every_ofIntegers hP _ values)⟩
  | nValues list except =>
    exact List.forall_mem_cons.mpr ⟨every_ofList _ h, every_ofSome hP _ except⟩
  | minimum list | maximum list => exact List.forall_mem_singleton.mpr (every_ofList _ h)
  | element list index startIndex =>
    obtain ⟨hlist, hindex⟩ := List.forall_mem_append.mp h
    exact List.forall_mem_cons.mpr ⟨every_startingAt (every_ofList _ hlist) startIndex,
      List.forall_mem_singleton.mpr (every_ofExpr _ (hindex index (List.mem_singleton_self index)))⟩

theorem Parameter.Spreads.occurrence {o : Occurrence}
    (h : ∀ e, Relation.occurrenceExpr? o = some e → P (.ofExpr e)) :
    P (Layout.occurrenceParameter o) := by
  cases o with
  | exactly e => exact h e rfl
  | between inf sup =>
    show P (if inf = sup then .integer inf else .range inf sup)
    split
    · exact hP.integer inf
    · exact hP.range inf sup

theorem Parameter.Spreads.literal {literal : Literal} (h : P (.var literal.v)) :
    P (Layout.literalParameter literal) := by
  unfold Layout.literalParameter
  split
  · exact h
  · exact hP.negation _ h

/-- What holds of the expressions of a constraint holds of all there is in its layout. -/
theorem every_ofRelation {r : Relation} (h : ∀ e ∈ r.expressions, P (.ofExpr e))
    (hT : ∀ e ∈ r.expressions, T e) :
    ∀ a ∈ (Layout.ofRelation r).arguments, a.content.Every P T := by
  have hlast : ∀ {a : Argument}, a.content.Every P T → ∀ b ∈ [a], b.content.Every P T :=
    fun ha => List.forall_mem_singleton.mpr ha
  have hcons : ∀ {a : Argument} {rest : List Argument}, a.content.Every P T →
      (∀ b ∈ rest, b.content.Every P T) → ∀ b ∈ a :: rest, b.content.Every P T :=
    fun ha hrest => List.forall_mem_cons.mpr ⟨ha, hrest⟩
  cases r with
  | intension predicate => exact hlast (hT predicate (List.mem_singleton_self predicate))
  | extension list table => exact hcons (every_ofList _ h) (hlast trivial)
  | allDifferent list except => exact hcons (every_ofList _ h) (every_ofSome hP _ except)
  | allEqual list => exact hlast (every_ofList _ h)
  | ordered list operator => exact hcons (every_ofList _ h) (hlast trivial)
  | conditional function condition =>
    obtain ⟨hfunction, hcondition⟩ := List.forall_mem_append.mp h
    exact List.forall_mem_append.mpr ⟨every_aggregateArguments hP hfunction,
      hlast (every_aggregateCondition function hcondition)⟩
  | circuit list startIndex => exact hlast (every_startingAt (every_ofList _ h) startIndex)
  | noOverlap origins lengths zeroIgnored =>
    obtain ⟨horigins, hlengths⟩ := List.forall_mem_append.mp h
    exact hcons (every_ofList _ horigins) (hlast (every_ofList _ hlengths))
  | cumulative origins lengths heights condition =>
    obtain ⟨h, hcondition⟩ := List.forall_mem_append.mp h
    obtain ⟨h, hheights⟩ := List.forall_mem_append.mp h
    obtain ⟨horigins, hlengths⟩ := List.forall_mem_append.mp h
    exact hcons (every_ofList _ horigins) (hcons (every_ofList _ hlengths)
      (hcons (every_ofList _ hheights) (hlast (every_ofCondition hcondition))))
  | instantiation list values =>
    exact hcons (every_ofVariables h) (hlast (every_ofIntegers hP _ values))
  | lex lists operator =>
    refine List.forall_mem_append.mpr ⟨List.forall_mem_map.mpr fun list hlist => ?_, hlast trivial⟩
    exact every_ofList _ fun e he => h e (List.mem_flatten.mpr ⟨list, hlist, he⟩)
  | channel list startIndex target =>
    obtain ⟨hlist, htarget⟩ := List.forall_mem_append.mp h
    exact hcons (every_startingAt (every_ofVariables hlist) startIndex)
      (every_targetArguments htarget)
  | cardinality list values occurs closed =>
    obtain ⟨h, hoccurs⟩ := List.forall_mem_append.mp h
    obtain ⟨hlist, hvalues⟩ := List.forall_mem_append.mp h
    refine hcons (every_ofList _ hlist) (hcons ?_ (hlast (List.forall_mem_map.mpr fun o ho => ?_)))
    · rw [content_withAttribute]
      exact every_ofList _ hvalues
    · exact hP.occurrence fun e he => hoccurs e (List.mem_filterMap.mpr ⟨o, ho, he⟩)
  | regular list automaton =>
    exact hcons (every_ofList _ h) (hcons trivial (hcons trivial (hlast trivial)))
  | mdd list diagram => exact hcons (every_ofList _ h) (hlast trivial)
  | precedence list values covered =>
    refine hcons (every_ofList _ h) (List.forall_mem_map.mpr fun a ha => ?_)
    rw [content_withAttribute]
    exact every_ofSome hP _ values a ha
  | clause literals =>
    refine hlast (List.forall_mem_map.mpr fun literal hl => hP.literal ?_)
    exact h (.var literal.v) (List.mem_map_of_mem hl)

omit hP in
/-- What holds of the parameters of a constraint as far as it depends on its expressions
holds of all parameters of its layout. -/
theorem all_ofRelation (hP : Parameter.Admits P) {r : Relation}
    (h : ∀ e ∈ r.expressions, P (.ofExpr e)) :
    ∀ a ∈ (Layout.ofRelation r).arguments, a.content.All P := fun a ha =>
  (every_ofRelation (T := fun _ => True) hP.spreads h (fun _ _ => trivial) a ha).all

end

theorem Parameter.mem_occurrences_of_ofExpr {e : Expr} {v : Variable} (h : ofExpr e = .var v) :
    v ∈ e.occurrences := by
  cases e with
  | var w =>
    obtain rfl := Parameter.var.inj h
    exact List.mem_singleton_self w
  | _ => cases h

/-! ### Layouts without placeholders -/

/-- Whether a parameter stands for itself. -/
def Parameter.IsGround : Parameter → Prop
  | placeholder _ => False
  | allPlaceholders => False
  | _ => True

def Layout.IsGround (layout : Layout) : Prop :=
  ∀ a ∈ layout.arguments, a.content.All Parameter.IsGround

/-- No layout of a constraint has placeholders. -/
theorem isGround_ofRelation (r : Relation) : (Layout.ofRelation r).IsGround := by
  refine all_ofRelation ⟨fun _ => trivial, fun _ _ => trivial, fun _ => trivial⟩ fun e _ => ?_
  cases e <;> trivial

theorem Parameter.IsGround.instantiate {p : Parameter} (h : p.IsGround)
    (arguments : List Parameter) : p.instantiate arguments = [p] := by
  cases p <;> first | rfl | cases h

theorem Parameter.flatMap_instantiate {list : List Parameter} (h : ∀ p ∈ list, p.IsGround)
    (arguments : List Parameter) : list.flatMap (instantiate arguments) = list := by
  rw [List.flatMap_congr fun p hp => (h p hp).instantiate arguments]
  exact List.flatMap_singleton' list

theorem Argument.instantiate_of_ground {a : Argument} (h : a.content.All Parameter.IsGround)
    (names : Variable → String) (arguments : List Parameter) :
    a.instantiate names arguments = a := by
  obtain ⟨name, attributes, content⟩ := a
  cases content with
  | parameters list =>
    simp only [Argument.instantiate, Content.instantiate]
    rw [Parameter.flatMap_instantiate h]
  | template text => cases h
  | _ => rfl

theorem Content.placeholders_of_ground {c : Content} (h : c.All Parameter.IsGround) :
    c.placeholders = [] := by
  cases c with
  | parameters list =>
    refine List.filterMap_eq_nil_iff.mpr fun p hp => ?_
    have := h p hp
    cases p <;> first | rfl | cases this
  | template text => cases h
  | _ => rfl

/-! ### Templates of layouts -/

/-- The lists at some positions, counted from a position on, one after the other. -/
def listsFrom (positions : List Nat) : Nat → List Argument → List Parameter
  | _, [] => []
  | p, a :: rest =>
    (if p ∈ positions then a.content.parameters?.getD [] else []) ++
      listsFrom positions (p + 1) rest

theorem listsFrom_congr {positions positions' : List Nat} {p : Nat} {as : List Argument}
    (hiff : ∀ q, p ≤ q → (q ∈ positions ↔ q ∈ positions')) :
    listsFrom positions p as = listsFrom positions' p as := by
  induction as generalizing p with
  | nil => rfl
  | cons a rest ih =>
    rw [listsFrom, listsFrom, ih fun q hq => hiff q (Nat.le_of_succ_le hq)]
    simp only [hiff p (Nat.le_refl p)]

theorem listsFrom_eq_nil {positions : List Nat} {p : Nat} (h : ∀ q ∈ positions, q < p)
    (as : List Argument) : listsFrom positions p as = [] := by
  induction as generalizing p with
  | nil => rfl
  | cons a rest ih =>
    have hp : p ∉ positions := fun hp => Nat.lt_irrefl p (h p hp)
    rw [listsFrom, if_neg hp, ih fun q hq => Nat.lt_succ_of_lt (h q hq)]
    rfl

theorem Content.eq_of_parameters? {c : Content} {list : List Parameter}
    (h : c.parameters? = some list) : c = parameters list := by
  unfold parameters? at h
  split at h
  · rw [Option.some.inj h]
  · cases h

theorem exists_of_mem_listsFrom {positions : List Nat} {p : Nat} {as : List Argument}
    {parameter : Parameter} (h : parameter ∈ listsFrom positions p as) :
    ∃ a ∈ as, ∃ list, a.content = .parameters list ∧ parameter ∈ list := by
  induction as generalizing p with
  | nil => cases h
  | cons a rest ih =>
    rcases List.mem_append.mp h with h | h
    · by_cases hp : p ∈ positions
      · rw [if_pos hp] at h
        cases hlist : a.content.parameters? with
        | none =>
          rw [hlist] at h
          cases h
        | some list =>
          rw [hlist] at h
          exact ⟨a, List.mem_cons_self, list, Content.eq_of_parameters? hlist, h⟩
      · rw [if_neg hp] at h
        cases h
    · obtain ⟨b, hb, hlist⟩ := ih h
      exact ⟨b, List.mem_cons_of_mem a hb, hlist⟩

/-- Looking the lists up one by one finds them in the order of the arguments. -/
theorem flatMap_lists {positions : List Nat} {p : Nat} {as : List Argument}
    (hle : ∀ q ∈ positions, p ≤ q) (hsorted : positions.Pairwise (· < ·)) :
    (positions.flatMap fun q => (as[q - p]?.bind fun a => a.content.parameters?).getD []) =
      listsFrom positions p as := by
  induction as generalizing p positions with
  | nil => simp [listsFrom]
  | cons a rest ih =>
    have hrest : ∀ {positions : List Nat}, (∀ q ∈ positions, p + 1 ≤ q) →
        positions.Pairwise (· < ·) →
        (positions.flatMap fun q => ((a :: rest)[q - p]?.bind fun a =>
          a.content.parameters?).getD []) = listsFrom positions (p + 1) rest := by
      intro positions hle hsorted
      rw [← ih hle hsorted]
      refine List.flatMap_congr fun q hq => ?_
      rw [show q - p = q - (p + 1) + 1 from by have := hle q hq; omega, List.getElem?_cons_succ]
    rw [listsFrom]
    by_cases hp : p ∈ positions
    · cases positions with
      | nil => cases hp
      | cons q others =>
        obtain ⟨hafter, hothers⟩ := List.pairwise_cons.mp hsorted
        obtain rfl : q = p := by
          rcases List.mem_cons.mp hp with rfl | hp
          · rfl
          · have := hafter p hp
            have := hle q List.mem_cons_self
            omega
        rw [List.flatMap_cons, hrest hafter hothers, if_pos hp, Nat.sub_self,
          List.getElem?_cons_zero, Option.bind_some]
        congr 1
        refine listsFrom_congr fun q' hq' => ?_
        have hne : q' ≠ q := by omega
        simp [hne]
    · rw [if_neg hp, List.nil_append]
      refine hrest (fun q hq => ?_) hsorted
      have hne : q ≠ p := fun heq => hp (heq ▸ hq)
      have := hle q hq
      omega

theorem argumentsAt_eq {positions : List Nat} (hsorted : positions.Pairwise (· < ·))
    (layout : Layout) : argumentsAt positions layout = listsFrom positions 0 layout.arguments :=
  flatMap_lists (fun q _ => Nat.zero_le q) hsorted

/-- Rows that agree have lists of the same length. -/
theorem AgreeFrom.length_listsFrom {positions : List Nat} {p : Nat} {as bs : List Argument}
    (h : AgreeFrom positions p as bs) :
    (listsFrom positions p as).length = (listsFrom positions p bs).length := by
  induction h with
  | nil => rfl
  | same hp _ ih => simpa [listsFrom, hp] using ih
  | list hp hlength _ ih =>
    simp only [listsFrom, if_pos hp, List.length_append, ih]
    exact congrArg (· + _) hlength

/-- Placeholders numbered in a row stand for as many arguments in a row. -/
theorem instantiate_numbered {pre list rest : List Parameter} :
    ((List.range list.length).map fun k => Parameter.placeholder (pre.length + k)).flatMap
      (Parameter.instantiate (pre ++ (list ++ rest))) = list := by
  have hentry : ∀ k ∈ List.range list.length,
      Parameter.instantiate (pre ++ (list ++ rest)) (.placeholder (pre.length + k)) =
        list[k]?.toList := by
    intro k hk
    rw [Parameter.instantiate, List.getElem?_append_right (Nat.le_add_right _ _),
      Nat.add_sub_cancel_left, List.getElem?_append_left (List.mem_range.mp hk)]
  rw [List.flatMap_map, List.flatMap_congr hentry, ← List.filterMap_eq_flatMap_toList]
  exact filterMap_getElem?_range list

section
variable {positions : List Nat} {p : Nat} {as bs : List Argument}

/-- The instance of a template for the lists of a row is the row, once the arguments that
belong to earlier lists are known. -/
theorem instantiate_placeholdersFrom (names : Variable → String) (numbered : Bool)
    (hagree : AgreeFrom positions p as bs) (hground : ∀ b ∈ bs, b.content.All Parameter.IsGround)
    (pre : List Parameter)
    (hsingle : numbered = false → ∃ q, positions = [q] ∧ (p ≤ q → pre = [])) :
    (placeholdersFrom numbered positions pre.length (as.zipIdx p)).map
      (Argument.instantiate names (pre ++ listsFrom positions p bs)) = bs := by
  induction hagree generalizing pre with
  | nil => rfl
  | @same p a as bs hp _ ih =>
    obtain ⟨ha, hground⟩ := List.forall_mem_cons.mp hground
    rw [List.zipIdx_cons, placeholdersFrom, if_neg (by simp [hp]), List.map_cons,
      Argument.instantiate_of_ground ha, listsFrom, if_neg hp, List.nil_append,
      ih hground pre fun hnumbered => ?_]
    obtain ⟨q, hq, hpre⟩ := hsingle hnumbered
    exact ⟨q, hq, fun hle => hpre (Nat.le_of_succ_le hle)⟩
  | @list p name attributes list list' as bs hp hlength _ ih =>
    have hground := (List.forall_mem_cons.mp hground).2
    have hlater : (pre ++ list').length = pre.length + list.length := by
      rw [List.length_append, hlength]
    have ih := ih hground (pre ++ list') fun hnumbered => by
      obtain ⟨q, rfl, _⟩ := hsingle hnumbered
      obtain rfl := List.mem_singleton.mp hp
      exact ⟨p, rfl, fun hle => absurd hle (Nat.not_succ_le_self p)⟩
    rw [hlater, List.append_assoc] at ih
    rw [List.zipIdx_cons, placeholdersFrom, if_pos (by simpa using hp), List.map_cons, listsFrom,
      if_pos hp]
    simp only [Content.parameters?, Option.getD_some]
    rw [ih]
    congr 1
    simp only [Argument.instantiate, Content.instantiate]
    split
    · rw [hlength, instantiate_numbered]
    · rename_i hnumbered
      obtain ⟨q, rfl, hpre⟩ := hsingle (Bool.eq_false_iff.mpr hnumbered)
      obtain rfl := List.mem_singleton.mp hp
      have hrest : listsFrom [p] (p + 1) bs = [] := listsFrom_eq_nil (by simp) bs
      simp [hpre (Nat.le_refl p), hrest, Parameter.instantiate]

/-- The lists of an instance are the arguments. -/
theorem listsFrom_instantiate (names : Variable → String) (pre arguments : List Parameter)
    (hlength : arguments.length = (listsFrom positions p as).length) :
    listsFrom positions p ((placeholdersFrom true positions pre.length (as.zipIdx p)).map
      (Argument.instantiate names (pre ++ arguments))) = arguments := by
  induction as generalizing p pre arguments with
  | nil => exact (List.eq_nil_of_length_eq_zero hlength).symm
  | cons a rest ih =>
    rw [listsFrom] at hlength
    rw [List.zipIdx_cons, placeholdersFrom]
    by_cases hp : p ∈ positions
    · rw [if_pos hp, List.length_append] at hlength
      rw [if_pos (by simpa using hp), List.map_cons, listsFrom, if_pos hp]
      simp only [if_true]
      -- the arguments for this list come first
      obtain ⟨list, others, rfl, hlist⟩ : ∃ list others, arguments = list ++ others ∧
          list.length = (a.content.parameters?.getD []).length :=
        ⟨arguments.take _, arguments.drop _, (List.take_append_drop _ _).symm,
          List.length_take_of_le (by omega)⟩
      have hothers : others.length = (listsFrom positions (p + 1) rest).length := by
        rw [List.length_append] at hlength
        omega
      have hrest := ih (pre ++ list) others hothers
      rw [List.length_append, List.append_assoc, hlist] at hrest
      rw [hrest, ← hlist]
      simp only [Argument.instantiate, Content.instantiate, Content.parameters?, Option.getD_some]
      rw [instantiate_numbered]
    · rw [if_neg hp, List.nil_append] at hlength
      rw [if_neg (by simp [hp]), List.map_cons, listsFrom, if_neg hp, List.nil_append]
      exact ih pre arguments hlength

theorem Layout.reading_of_listsFrom {layout : Layout} {names : Variable → String}
    (h : listsFrom positions p layout.arguments ≠ []) :
    layout.reading names = .laidOut layout := by
  unfold Layout.reading
  split
  · rename_i harguments
    rw [harguments] at h
    simp [listsFrom, Content.parameters?] at h
  · rename_i harguments
    rw [harguments] at h
    simp [listsFrom, Content.parameters?] at h
  · rfl

/-- Numbered placeholders go on from where the numbers of earlier lists end. -/
theorem mem_placeholders_placeholdersFrom
    (hground : ∀ a ∈ as, a.content.All Parameter.IsGround) (number k : Nat) :
    k ∈ (placeholdersFrom true positions number (as.zipIdx p)).flatMap
        (fun a => a.content.placeholders) ↔
      number ≤ k ∧ k < number + (listsFrom positions p as).length := by
  induction as generalizing p number with
  | nil =>
    simp only [List.zipIdx_nil, placeholdersFrom, List.flatMap_nil, List.not_mem_nil, listsFrom,
      List.length_nil, false_iff]
    omega
  | cons a rest ih =>
    obtain ⟨ha, hground⟩ := List.forall_mem_cons.mp hground
    rw [List.zipIdx_cons, placeholdersFrom, listsFrom]
    by_cases hp : p ∈ positions
    · rw [if_pos (by simpa using hp), if_pos hp, List.flatMap_cons, List.mem_append, ih hground,
        List.length_append]
      have hlist : k ∈ Content.placeholders (.parameters ((List.range
          (a.content.parameters?.getD []).length).map fun k => Parameter.placeholder (number + k))) ↔
          number ≤ k ∧ k < number + (a.content.parameters?.getD []).length := by
        simp only [Content.placeholders, List.filterMap_map, List.mem_filterMap, List.mem_range,
          Function.comp_apply, Option.some.injEq]
        constructor
        · rintro ⟨j, hj, rfl⟩
          omega
        · rintro ⟨hle, hlt⟩
          exact ⟨k - number, by omega, by omega⟩
      simp only [if_true]
      rw [hlist]
      omega
    · rw [if_neg (by simp [hp]), if_neg hp, List.nil_append, List.flatMap_cons, List.mem_append,
        Content.placeholders_of_ground ha, ih hground]
      simp

end

section
variable {first : Layout} {members : List Layout} {positions : List Nat}

/-- What a layout in a group of the first one has in common with it. -/
structure Layout.AgreesWith (positions : List Nat) (first member : Layout) : Prop where
  name : first.name = member.name
  attributes : first.attributes = member.attributes
  arguments : AgreeFrom positions 0 first.arguments member.arguments
  ground : member.IsGround

/-- The members of a group are the instances of its template. -/
theorem instantiate_layoutTemplate (names : Variable → String) (numbered : Bool)
    (hsorted : positions.Pairwise (· < ·)) {member : Layout}
    (h : first.AgreesWith positions member) :
    (layoutTemplate first members positions numbered).1.instantiate names
      (argumentsAt positions member) = member := by
  have hinstance := instantiate_placeholdersFrom names (numbered || positions.length != 1)
    h.arguments h.ground [] fun hnumbered => by
      have hlength : positions.length = 1 := by simpa using (Bool.or_eq_false_iff.mp hnumbered).2
      obtain ⟨q, hq⟩ := List.length_eq_one_iff.mp hlength
      exact ⟨q, hq, fun _ => rfl⟩
  obtain ⟨hname, hattributes, _, _⟩ := h
  obtain ⟨name, attributes, arguments⟩ := member
  simp only [layoutTemplate, Layout.instantiate, Layout.mk.injEq]
  rw [argumentsAt_eq hsorted]
  exact ⟨hname, hattributes, hinstance⟩

/-- A template with numbered placeholders takes as many arguments as the lists are long. -/
theorem width_layoutTemplate (hsorted : positions.Pairwise (· < ·)) {member : Layout}
    (hfirst : first.IsGround) (h : first.AgreesWith positions member) :
    (argumentsAt positions member).length =
      (layoutTemplate first members positions true).1.width := by
  rw [argumentsAt_eq hsorted, ← h.arguments.length_listsFrom]
  refine (length_eraseDups_of_mem_iff fun k => ?_).symm
  rw [layoutTemplate, Bool.true_or, mem_placeholders_placeholdersFrom hfirst]
  omega

/-- An instance of a template with numbered placeholders tells its arguments. -/
theorem readingOf_layoutTemplate_injective {names : Variable → String}
    (hsorted : positions.Pairwise (· < ·)) {as bs : List Parameter}
    (hlength : as.length = (argumentsAt positions first).length)
    (hlength' : bs.length = (argumentsAt positions first).length)
    (heq : (layoutTemplate first members positions true).1.readingOf names as =
      (layoutTemplate first members positions true).1.readingOf names bs) : as = bs := by
  rw [argumentsAt_eq hsorted] at hlength hlength'
  have hlists : ∀ {list : List Parameter},
      list.length = (listsFrom positions 0 first.arguments).length →
      listsFrom positions 0 ((layoutTemplate first members positions true).1.instantiate
        names list).arguments = list :=
    fun {list} h => listsFrom_instantiate names [] list h
  by_cases hempty : as = []
  · subst hempty
    exact (List.eq_nil_of_length_eq_zero (hlength'.trans hlength.symm)).symm
  · have hempty' : bs ≠ [] := by
      rintro rfl
      exact hempty (List.eq_nil_of_length_eq_zero (hlength.trans hlength'.symm))
    unfold Layout.readingOf at heq
    rw [Layout.reading_of_listsFrom (by rwa [hlists hlength]),
      Layout.reading_of_listsFrom (by rwa [hlists hlength'])] at heq
    rw [← hlists hlength, Reading.laidOut.inj heq, hlists hlength']

end

/-! ### Instances -/

section
variable {names : Variable → String}

theorem Relation.form_eq (names : Variable → String) (r : Relation) :
    (∃ e, r = .intension e ∧
      Form.ofRelation names r = .predicate (Piece.ofExpr names e) (Piece.leaves e)) ∨
    Form.ofRelation names r = .laidOut (Layout.ofRelation r) := by
  cases r with
  | intension e => exact .inl ⟨e, rfl, rfl⟩
  | _ => exact .inr rfl

/-- What is similar to a predicate are predicates with the same pieces. -/
theorem similarTo_intension {e : Expr} {rest : List Relation} {positions : List Nat}
    (hsimilar : ∀ r ∈ rest,
      (Form.ofRelation names (.intension e)).SimilarTo positions (Form.ofRelation names r)) :
    ∃ es : List Expr, rest = es.map .intension ∧
      ∀ e' ∈ es, Piece.ofExpr names e' = Piece.ofExpr names e := by
  induction rest with
  | nil => exact ⟨[], rfl, fun e' he' => nomatch he'⟩
  | cons r rest ih =>
    obtain ⟨hr, hrest⟩ := List.forall_mem_cons.mp hsimilar
    obtain ⟨es, rfl, hes⟩ := ih hrest
    rcases r.form_eq names with ⟨e', rfl, _⟩ | hform
    · exact ⟨e' :: es, rfl, List.forall_mem_cons.mpr ⟨hr, hes⟩⟩
    · rw [hform] at hr
      cases hr

/-- What is similar to a layout are layouts that differ from it in the same lists. -/
theorem similarTo_laidOut {layout : Layout} {rest : List Relation} {positions : List Nat}
    (hsimilar : ∀ r ∈ rest,
      (Form.laidOut layout).SimilarTo positions (Form.ofRelation names r)) :
    rest.map (Form.ofRelation names) = (rest.map Layout.ofRelation).map .laidOut ∧
      ∀ r ∈ rest, differing? layout (Layout.ofRelation r) = some positions := by
  induction rest with
  | nil => exact ⟨rfl, fun r hr => nomatch hr⟩
  | cons r rest ih =>
    obtain ⟨hr, hrest⟩ := List.forall_mem_cons.mp hsimilar
    obtain ⟨hforms, hdiffering⟩ := ih hrest
    rcases r.form_eq names with ⟨e', rfl, _⟩ | hform
    · cases hr
    · rw [hform] at hr
      exact ⟨by rw [List.map_cons, List.map_cons, List.map_cons, hform, hforms],
        List.forall_mem_cons.mpr ⟨hr, hdiffering⟩⟩

/-- The template of layouts comes from those in which the second differs from the first. -/
theorem template?_laidOut {numbered : Bool} {first : Layout} {rest : List Layout}
    {positions : List Nat} (hdiffering : ∀ layout ∈ rest, differing? first layout = some positions)
    {template : Layout} {arguments : List (List Parameter)}
    (h : template? names numbered ((first :: rest).map .laidOut) = some (template, arguments)) :
    rest ≠ [] ∧ layoutTemplate first (first :: rest) positions numbered = (template, arguments) := by
  have hlayouts : (rest.map Form.laidOut).filterMap Form.layout? = rest := by
    simp [List.filterMap_map, Function.comp_def, Form.layout?]
  rw [List.map_cons, template?, hlayouts] at h
  cases rest with
  | nil => cases h
  | cons second rest =>
    simp only [List.getElem?_cons_succ, List.getElem?_cons_zero, Option.bind_some,
      hdiffering second List.mem_cons_self, Option.map_some, Option.some.injEq] at h
    exact ⟨List.cons_ne_nil _ _, h⟩

/-- The template of similar constraints is one of predicates or one of layouts. -/
theorem template?_cases {numbered : Bool} {first : Relation} {rest : List Relation}
    {positions : List Nat}
    (hsimilar : ∀ r ∈ rest,
      (Form.ofRelation names first).SimilarTo positions (Form.ofRelation names r))
    {template : Layout} {arguments : List (List Parameter)}
    (h : template? names numbered ((first :: rest).map (Form.ofRelation names)) =
      some (template, arguments)) :
    (∃ e es, first :: rest = (e :: es).map .intension ∧
      (∀ e' ∈ e :: es, Piece.ofExpr names e' = Piece.ofExpr names e) ∧
      predicateTemplate names (Piece.ofExpr names e) ((e :: es).map Piece.leaves) =
        some (template, arguments)) ∨
    (positions.Pairwise (· < ·) ∧
      (∀ r ∈ first :: rest,
        (Layout.ofRelation first).AgreesWith positions (Layout.ofRelation r)) ∧
      layoutTemplate (Layout.ofRelation first) ((first :: rest).map Layout.ofRelation) positions
        numbered = (template, arguments)) := by
  rcases first.form_eq names with ⟨e, rfl, hform⟩ | hform
  · obtain ⟨es, rfl, hes⟩ := similarTo_intension hsimilar
    have hleaves : ((es.map Relation.intension).map (Form.ofRelation names)).filterMap
        Form.leaves? = es.map Piece.leaves := by
      simp [List.filterMap_map, Function.comp_def, Form.ofRelation, Form.leaves?]
    rw [List.map_cons, hform, template?, hleaves] at h
    exact .inl ⟨e, es, rfl, List.forall_mem_cons.mpr ⟨rfl, hes⟩, h⟩
  · rw [hform] at hsimilar
    obtain ⟨hforms, hdiffering⟩ := similarTo_laidOut hsimilar
    rw [List.map_cons, hform, hforms, ← List.map_cons] at h
    obtain ⟨hne, htemplate⟩ := template?_laidOut (List.forall_mem_map.mpr hdiffering) h
    obtain ⟨second, hsecond⟩ := List.exists_mem_of_ne_nil rest (mt List.map_eq_nil_iff.mpr hne)
    obtain ⟨_, _, hsorted, hagree⟩ := differing?_spec (hdiffering second hsecond)
    refine .inr ⟨hsorted, ?_, htemplate⟩
    refine List.forall_mem_cons.mpr ⟨⟨rfl, rfl, hagree.left, isGround_ofRelation first⟩, ?_⟩
    intro r hr
    obtain ⟨hname, hattributes, _, hagree⟩ := differing?_spec (hdiffering r hr)
    exact ⟨hname, hattributes, hagree, isGround_ofRelation r⟩

/-- Constraints similar to the first one are the instances of their template, in their
order, and numbered placeholders take all arguments of an instance. -/
theorem readingOf_template? (hnames : Plain names) {numbered : Bool} {first : Relation}
    {rest : List Relation} {positions : List Nat}
    (hsimilar : ∀ r ∈ rest,
      (Form.ofRelation names first).SimilarTo positions (Form.ofRelation names r))
    {template : Layout} {arguments : List (List Parameter)}
    (h : template? names numbered ((first :: rest).map (Form.ofRelation names)) =
      some (template, arguments)) :
    arguments.map (template.readingOf names) = (first :: rest).map (Relation.reading names) ∧
      (numbered = true → ∀ a ∈ arguments, a.length = template.width) := by
  rcases template?_cases hsimilar h with ⟨e, es, heq, hes, h⟩ | ⟨hsorted, hmembers, h⟩
  · obtain ⟨hreadings, hwidth⟩ := readingOf_predicateTemplate hnames (List.cons_ne_nil e es) hes h
    refine ⟨?_, fun _ => hwidth⟩
    rw [hreadings, heq, List.map_map]
    rfl
  · obtain rfl : (layoutTemplate _ _ positions numbered).1 = template := congrArg Prod.fst h
    obtain rfl : List.map (argumentsAt positions) _ = arguments := congrArg Prod.snd h
    constructor
    · rw [List.map_map, List.map_map]
      refine List.map_congr_left fun r hr => ?_
      exact congrArg (Layout.reading names)
        (instantiate_layoutTemplate names numbered hsorted (hmembers r hr))
    · rintro rfl a ha
      rw [List.map_map] at ha
      obtain ⟨r, hr, rfl⟩ := List.mem_map.mp ha
      exact width_layoutTemplate hsorted (isGround_ofRelation first) (hmembers r hr)

/-- The variables among the arguments of a template are variables of the constraints. -/
theorem template?_knows {numbered : Bool} {first : Relation} {rest : List Relation}
    {positions : List Nat}
    (hsimilar : ∀ r ∈ rest,
      (Form.ofRelation names first).SimilarTo positions (Form.ofRelation names r))
    {template : Layout} {arguments : List (List Parameter)}
    (h : template? names numbered ((first :: rest).map (Form.ofRelation names)) =
      some (template, arguments))
    {known : Variable → Prop}
    (hknown : ∀ r ∈ first :: rest, ∀ e ∈ r.expressions, ∀ v ∈ e.occurrences, known v)
    {a : List Parameter} (ha : a ∈ arguments) {v : Variable} (hv : .var v ∈ a) : known v := by
  rcases template?_cases hsimilar h with ⟨e, es, heq, hes, h⟩ | ⟨hsorted, _, h⟩
  · obtain ⟨e', he', hleaf⟩ :=
      mem_leaves_of_predicateTemplate (List.cons_ne_nil e es) hes h ha hv
    rcases Piece.mem_leaves hleaf with ⟨w, hw, hvw⟩ | ⟨n, hn⟩
    · obtain rfl := Parameter.var.inj hvw
      have hr : Relation.intension e' ∈ first :: rest := by
        rw [heq]
        exact List.mem_map_of_mem he'
      exact hknown _ hr e' (List.mem_singleton_self e') v hw
    · cases hn
  · obtain rfl : List.map (argumentsAt positions) _ = arguments := congrArg Prod.snd h
    rw [List.map_map] at ha
    obtain ⟨r, hr, rfl⟩ := List.mem_map.mp ha
    rw [Function.comp_apply, argumentsAt_eq hsorted] at hv
    obtain ⟨b, hb, list, hlist, hv⟩ := exists_of_mem_listsFrom hv
    have hall := all_ofRelation (P := fun p => ∀ v, p = .var v → known v)
      ⟨fun _ _ h => (nomatch h), fun _ _ _ h => (nomatch h), fun _ _ h => (nomatch h)⟩
      (fun e he v hev => hknown r hr e he v (Parameter.mem_occurrences_of_ofExpr hev)) b hb
    rw [hlist] at hall
    exact hall _ hv v rfl

/-- An instance of a template for variables tells their names. -/
theorem readingOf_template?_injective (hnames : Plain names) {first : Relation}
    {rest : List Relation} {positions : List Nat}
    (hsimilar : ∀ r ∈ rest,
      (Form.ofRelation names first).SimilarTo positions (Form.ofRelation names r))
    {template : Layout} {arguments : List (List Parameter)}
    (h : template? names true ((first :: rest).map (Form.ofRelation names)) =
      some (template, arguments))
    {vs ws : List Variable} (hlength : vs.length = template.width)
    (hlength' : ws.length = template.width)
    (heq : template.readingOf names (vs.map .var) = template.readingOf names (ws.map .var)) :
    vs.map names = ws.map names := by
  rcases template?_cases hsimilar h with ⟨e, es, _, hes, h⟩ | ⟨hsorted, hmembers, h⟩
  · have hleaf : ∀ {vs : List Variable}, ∀ p ∈ vs.map Parameter.var, Filling.IsLeaf p :=
      fun p hp => by
        obtain ⟨v, _, rfl⟩ := List.mem_map.mp hp
        exact .inl ⟨v, rfl⟩
    have htexts := readingOf_predicateTemplate_injective hnames (List.cons_ne_nil e es) hes h hleaf
      hleaf (by rwa [List.length_map]) (by rwa [List.length_map]) heq
    rw [List.map_map, List.map_map] at htexts
    exact htexts
  · obtain rfl : (layoutTemplate _ _ positions true).1 = template := congrArg Prod.fst h
    rw [← width_layoutTemplate hsorted (isGround_ofRelation first)
      (hmembers first List.mem_cons_self)] at hlength hlength'
    have hsame := readingOf_layoutTemplate_injective hsorted (by rwa [List.length_map])
      (by rwa [List.length_map]) heq
    rw [List.map_injective_iff.mpr (fun _ _ => Parameter.var.inj) hsame]

end

end CspModel
