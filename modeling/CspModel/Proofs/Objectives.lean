import CspModel.Proofs.Notation
import CspModel.Compile

/-! # What the objective of a document tells

The element of an objective names its direction, the type of an aggregate, and the list and
the coefficients of that aggregate or the text of an expression.  All of these can be read
back, so two objectives with the same element in documents with the same names are the same
value to optimise, up to one thing: the exceptions of a number of distinct values are not
written (`Store.NamedAlike.objective_eq`).  The functions agree exactly when the exceptions
do (`Target.value?_eq_iff`).

A list is read back as a reader would: its text is expanded with the names of the document
(`Store.NamedAlike.texts_eq`), so it does not matter how either writer compacted it.  For
this the two stores need to agree on names and arrays, and on nothing else.
-/
namespace CspModel

open CspModel.Expr

/-! ### Texts without blanks at their ends -/

namespace Text

theorem trimChars_eq_self {chars : List Char} (hhead : ∀ c ∈ chars.head?, isBlank c = false)
    (hlast : ∀ c ∈ chars.getLast?, isBlank c = false) : trimChars chars = chars := by
  have hdrop : ∀ {list : List Char}, (∀ c ∈ list.head?, isBlank c = false) →
      list.dropWhile isBlank = list := by
    intro list hlist
    cases list with
    | nil => rfl
    | cons c rest => rw [List.dropWhile_cons, hlist c rfl, if_neg Bool.false_ne_true]
  rw [trimChars, hdrop hhead, hdrop (by rwa [List.head?_reverse]), List.reverse_reverse]

theorem trim_eq_self {text : String} (hhead : ∀ c ∈ text.toList.head?, isBlank c = false)
    (hlast : ∀ c ∈ text.toList.getLast?, isBlank c = false) : trim text = text := by
  rw [trim, trimChars_eq_self hhead hlast, String.ofList_toList]

theorem IsWord.trim {text : String} (h : IsWord text) : Text.trim text = text :=
  trim_eq_self (fun c hc => h.2 c (List.mem_of_mem_head? hc))
    fun c hc => h.2 c (List.mem_of_mem_getLast? hc)

/-- What is joined begins and ends with an element of one of the lists. -/
theorem mem_of_mem_ends {α : Type} {a : α} {lists : List (List α)}
    (hne : ∀ list ∈ lists, list ≠ []) {b : α}
    (hb : b ∈ ([a].intercalate lists).head? ∨ b ∈ ([a].intercalate lists).getLast?) :
    ∃ list ∈ lists, b ∈ list := by
  induction lists with
  | nil => rcases hb with hb | hb <;> cases hb
  | cons list rest ih =>
    cases rest with
    | nil =>
      rw [List.intercalate_singleton] at hb
      exact ⟨list, List.mem_cons_self, hb.elim List.mem_of_mem_head? List.mem_of_mem_getLast?⟩
    | cons next rest =>
      rw [List.intercalate_cons_cons, List.append_assoc] at hb
      rcases hb with hb | hb
      · rw [List.head?_append_of_ne_nil _ (hne list List.mem_cons_self)] at hb
        exact ⟨list, List.mem_cons_self, List.mem_of_mem_head? hb⟩
      · have hjoined : [a].intercalate (next :: rest) ≠ [] := by
          obtain ⟨c, chars, hchars⟩ := List.exists_cons_of_ne_nil
            (hne next (List.mem_cons_of_mem _ List.mem_cons_self))
          cases rest with
          | nil => simp [hchars]
          | cons => simp [List.intercalate_cons_cons, hchars]
        rw [List.getLast?_append_of_ne_nil _ (List.append_ne_nil_of_right_ne_nil _ hjoined),
          List.getLast?_append_of_ne_nil _ hjoined] at hb
        obtain ⟨other, hother, hb⟩ := ih (fun l hl => hne l (List.mem_cons_of_mem _ hl)) (.inr hb)
        exact ⟨other, List.mem_cons_of_mem _ hother, hb⟩

/-- Words with blanks between them have none at their ends. -/
theorem trim_intercalate {tokens : List String} (h : ∀ t ∈ tokens, IsWord t) :
    trim (" ".intercalate tokens) = " ".intercalate tokens := by
  have hlist : (" ".intercalate tokens).toList = [' '].intercalate (tokens.map String.toList) :=
    String.toList_intercalate
  have hne : ∀ chars ∈ tokens.map String.toList, chars ≠ [] := fun chars hchars hnil => by
    obtain ⟨t, ht, rfl⟩ := List.mem_map.mp hchars
    exact (h t ht).1 (String.toList_inj.mp hnil)
  have hblank : ∀ c, c ∈ (" ".intercalate tokens).toList.head? ∨
      c ∈ (" ".intercalate tokens).toList.getLast? → isBlank c = false := fun c hc => by
    rw [hlist] at hc
    obtain ⟨chars, hchars, hc⟩ := mem_of_mem_ends hne hc
    obtain ⟨t, ht, rfl⟩ := List.mem_map.mp hchars
    exact (h t ht).2 c hc
  exact trim_eq_self (fun c hc => hblank c (.inl hc)) fun c hc => hblank c (.inr hc)

end Text

/-! ### Documents with the same names -/

namespace Store

/-- Two stores with the same variables and arrays under the same names. -/
structure NamedAlike (s s' : Store) : Prop where
  model : s'.model = s.model
  nameOf : ∀ v, s'.nameOf v = s.nameOf v
  arrayNamed? : ∀ name, s'.arrayNamed? name = s.arrayNamed? name

variable {s s' : Store}

theorem NamedAlike.names_eq (h : s.NamedAlike s') : s'.nameOf = s.nameOf := funext h.nameOf

/-- With the same names a reader finds the same in a text. -/
theorem NamedAlike.expand_eq (h : s.NamedAlike s') (text : String) :
    s'.expand text = s.expand text := by
  have hbox : ∀ token, s'.box? token = s.box? token := fun token => by
    rw [box?, box?, h.arrayNamed?]
  have htoken : s'.expandToken = s.expandToken := by
    funext token
    rw [expandToken, expandToken, hbox, h.names_eq]
  rw [expand, expand, htoken]

theorem Built.beginsName_nameOf (hs : s.Built) {v : Variable} (hv : s.Declares v) :
    Text.BeginsName (s.nameOf v) := by
  cases hcell : s.cellOf v with
  | none => exact Text.beginsName_of_isIdentifier (hs.isIdentifier_nameOf hv hcell)
  | some cell =>
    have h := hs.isCell hv hcell
    rw [h.name, VarArray.cellName]
    exact (Text.beginsName_of_isIdentifier (hs.inventory.arrays h.array).1).append _

/-- Declared variables can be told by their names. -/
theorem Built.telling (hs : s.Built) : Telling s.Declares s.nameOf where
  plain := hs.plain
  begins _ hv := hs.beginsName_nameOf hv
  injective _ _ hv hw h := hs.nameOf_injective hv hw h

theorem NamedAlike.declares (h : s.NamedAlike s') (hs' : s'.Built) {v : Variable}
    (hv : s'.Declares v) : s.Declares v := by
  refine ⟨hv.1.trans h.model, Nat.lt_of_not_le fun hle => ?_⟩
  have hnone : s.nameOf v = "" := by
    simp [Store.nameOf, info?, Registry.get?_eq_none_of_le hle]
  rw [← h.nameOf v] at hnone
  exact (hs'.beginsName_nameOf hv).ne_empty hnone

/-- The text of a list has no blanks at its ends. -/
theorem Built.trim_write (hs : s.Built) (compact : Bool) (argument : String)
    {list : List Parameter} (hlist : ∀ p ∈ list, p.Over s) (whateverLength : Bool) :
    Text.trim (ListText.write ⟨s, compact⟩ argument list whateverLength) =
      ListText.write ⟨s, compact⟩ argument list whateverLength := by
  obtain ⟨tokens, htext, hsays⟩ := hs.exists_says compact argument hlist whateverLength
  rw [htext]
  exact Text.trim_intercalate hsays.words

/-- The text of an expression has no blanks at its ends. -/
theorem Built.trim_render (hs : s.Built) {e : Expr} (he : e.Over s.Declares) :
    Text.trim (e.render s.nameOf) = e.render s.nameOf :=
  ((hs.says_expression he).words _ (List.mem_singleton_self _)).trim

/-- Lists with the same text are the same as lists of texts, however they are compacted. -/
theorem NamedAlike.texts_eq (h : s.NamedAlike s') (hs : s.Built) (hs' : s'.Built)
    {compact compact' : Bool} {argument : String} {list list' : List Parameter}
    (hlist : ∀ p ∈ list, p.Over s) (hlist' : ∀ p ∈ list', p.Over s')
    {whateverLength : Bool} (heq : ListText.write ⟨s, compact⟩ argument list whateverLength =
      ListText.write ⟨s', compact'⟩ argument list' whateverLength) :
    list.map (ListText.parameter ⟨s, compact⟩) = list'.map (ListText.parameter ⟨s', compact'⟩) := by
  have htexts := hs'.expand_text compact' argument hlist' whateverLength
  rw [← heq, h.expand_eq, hs.expand_text compact argument hlist whateverLength] at htexts
  exact Option.some.inj htexts

theorem over_integers (s : Store) (values : List Int) :
    ∀ p ∈ values.map Parameter.integer, p.Over s := by
  intro p hp v hv
  obtain ⟨n, -, rfl⟩ := List.mem_map.mp hp
  cases hv

theorem over_variables {list : List Expr} (hlist : ∀ e ∈ list, e.VariableOver s.Declares) :
    ∀ p ∈ list.map Parameter.ofExpr, p.Over s := by
  intro p hp
  obtain ⟨e, he, rfl⟩ := List.mem_map.mp hp
  obtain ⟨v, rfl, hv⟩ := (hlist e he).exists_eq
  exact fun w hw => by rwa [List.mem_singleton.mp hw]

/-- A written list of variables tells the variables. -/
theorem NamedAlike.variables_eq (h : s.NamedAlike s') (hs : s.Built) (hs' : s'.Built)
    {compact compact' : Bool} {argument : String} {list list' : List Expr}
    (hlist : ∀ e ∈ list, e.VariableOver s.Declares)
    (hlist' : ∀ e ∈ list', e.VariableOver s'.Declares) {whateverLength : Bool}
    (heq : ListText.write ⟨s, compact⟩ argument (list.map .ofExpr) whateverLength =
      ListText.write ⟨s', compact'⟩ argument (list'.map .ofExpr) whateverLength) :
    list = list' := by
  have hnames := h.texts_eq hs hs' (over_variables hlist) (over_variables hlist') heq
  rw [List.map_map, List.map_map] at hnames
  have hsame : ∀ e ∈ list', (ListText.parameter ⟨s', compact'⟩ ∘ Parameter.ofExpr) e =
      (ListText.parameter ⟨s, compact⟩ ∘ Parameter.ofExpr) e := fun e he => by
    obtain ⟨v, rfl, -⟩ := (hlist' e he).exists_eq
    exact h.nameOf v
  rw [List.map_congr_left hsame] at hnames
  refine eq_of_map_eq (fun e he e' he' heq => ?_) hnames
  obtain ⟨v, rfl, hv⟩ := (hlist e he).exists_eq
  obtain ⟨w, rfl, hw⟩ := (hlist' e' he').exists_eq
  exact congrArg var (hs.nameOf_injective hv (h.declares hs' hw) heq)

/-- A written list of integers tells the integers. -/
theorem NamedAlike.integers_eq (h : s.NamedAlike s') (hs : s.Built) (hs' : s'.Built)
    {compact compact' : Bool} {argument : String} {values values' : List Int}
    {whateverLength : Bool}
    (heq : ListText.write ⟨s, compact⟩ argument (values.map .integer) whateverLength =
      ListText.write ⟨s', compact'⟩ argument (values'.map .integer) whateverLength) :
    values = values' := by
  have htexts := h.texts_eq hs hs' (over_integers s values) (over_integers s' values') heq
  rw [List.map_map, List.map_map] at htexts
  exact eq_of_map_eq (fun m _ n _ => Int.toString_injective) htexts

end Store

/-! ### Elements -/

namespace Target

/-- The exceptions of a number of distinct values, which are not written. -/
def exceptions : Target → List Int
  | .aggregate (.nValues _ except) => except
  | _ => []

/-- The target without exceptions. -/
def withoutExceptions : Target → Target
  | .aggregate (.nValues list _) => .aggregate (.nValues list [])
  | t => t

end Target

namespace Document

/-- The text of the list of an aggregate to optimise. -/
def targetList (w : ListText) (f : Aggregate Expr) : String :=
  Text.trim (w.write "list" (f.list.map .ofExpr) false)

theorem objectiveElement_expression (w : ListText) (d : Direction) (e : Expr) :
    objectiveElement w ⟨d, .expression e⟩ =
      { name := d.name, text := some (Text.trim (e.render w.store.nameOf)) } := rfl

/-- A sum with coefficients is written as two children. -/
theorem objectiveElement_weighted (w : ListText) (d : Direction) (terms : List Expr)
    (cs : List Int) : objectiveElement w ⟨d, .aggregate (.sum terms (some cs))⟩ =
      { name := d.name, attributes := [("type", "sum")]
        children := [{ name := "list", text := some (targetList w (.sum terms (some cs))) },
          { name := "coeffs"
            text := some (Text.trim (w.write "coeffs" (cs.map .integer) false)) }] } :=
  rfl

/-- Any other aggregate is written as the text of its list. -/
theorem objectiveElement_list (w : ListText) (d : Direction) {f : Aggregate Expr}
    (hf : ∀ terms cs, f ≠ .sum terms (some cs)) : objectiveElement w ⟨d, .aggregate f⟩ =
      { name := d.name, attributes := [("type", f.kind)]
        text := some (Text.trim (targetList w f)) } := by
  cases f with
  | sum terms coefficients =>
    cases coefficients with
    | none => rfl
    | some cs => exact absurd rfl (hf terms cs)
  | _ => rfl

/-- The element is named by the direction; only that of an aggregate has a type. -/
theorem objectiveElement_name (w : ListText) (o : Objective) :
    (objectiveElement w o).name = o.direction.name := by
  obtain ⟨d, t⟩ := o
  cases t with
  | expression e => rfl
  | aggregate f =>
    cases f with
    | sum terms coefficients => cases coefficients <;> rfl
    | _ => rfl

theorem objectiveElement_attributes (w : ListText) (d : Direction) (f : Aggregate Expr) :
    (objectiveElement w ⟨d, .aggregate f⟩).attributes = [("type", f.kind)] := by
  cases f with
  | sum terms coefficients => cases coefficients <;> rfl
  | _ => rfl

theorem Direction.name_injective {d d' : Direction} (h : d.name = d'.name) : d = d' := by
  cases d <;> cases d' <;> first | rfl | exact absurd h (by decide)

end Document

/-! ### What an element tells -/

theorem Expr.Lifted.mono {known known' : Variable → Prop} {e : Expr} (h : e.Lifted known)
    (hknown : ∀ v, known v → known' v) : e.Lifted known' := fun p hp => by
  cases p with
  | var v => exact hknown v (h _ hp)
  | aggregate f => exact h _ hp
  | _ => trivial

namespace Target

variable {known : Variable → Prop} {s s' : Store}

/-- The aggregates that are optimised as such have a list of variables. -/
theorem Placed.list {f : Aggregate Expr} (h : (Target.aggregate f).Placed known) :
    f.list ≠ [] ∧ ∀ e ∈ f.list, e.VariableOver known := by
  cases f with
  | count | element => exact h.elim
  | _ => exact h

/-- Aggregates of the same type over the same list differ in their exceptions only, unless
they have coefficients. -/
theorem withoutExceptions_eq {f f' : Aggregate Expr} (hf : (Target.aggregate f).Placed known)
    (hweighted : ∀ terms cs, f ≠ .sum terms (some cs))
    (hweighted' : ∀ terms cs, f' ≠ .sum terms (some cs)) (hkind : f.kind = f'.kind)
    (hlist : f.list = f'.list) :
    (Target.aggregate f).withoutExceptions = (Target.aggregate f').withoutExceptions := by
  cases f with
  | sum terms coefficients =>
    cases f' with
    | sum terms' coefficients' =>
      obtain rfl : terms = terms' := hlist
      cases coefficients with
      | some cs => exact absurd rfl (hweighted terms cs)
      | none =>
        cases coefficients' with
        | some cs => exact absurd rfl (hweighted' terms cs)
        | none => rfl
    | _ => exact absurd hkind (by simp [Aggregate.kind])
  | nValues list except =>
    cases f' with
    | nValues list' except' =>
      obtain rfl : list = list' := hlist
      rfl
    | _ => exact absurd hkind (by simp [Aggregate.kind])
  | minimum list =>
    cases f' with
    | minimum list' => exact congrArg (fun list => Target.aggregate (.minimum list)) hlist
    | _ => exact absurd hkind (by simp [Aggregate.kind])
  | maximum list =>
    cases f' with
    | maximum list' => exact congrArg (fun list => Target.aggregate (.maximum list)) hlist
    | _ => exact absurd hkind (by simp [Aggregate.kind])
  | count | element => exact hf.elim

end Target

namespace Store.NamedAlike

open Document

variable {s s' : Store} {compact compact' : Bool}

/-- The list of an aggregate to optimise can be read off its text. -/
theorem list_eq (h : s.NamedAlike s') (hs : s.Built) (hs' : s'.Built) {f f' : Aggregate Expr}
    (hf : (Target.aggregate f).Placed s.Declares) (hf' : (Target.aggregate f').Placed s'.Declares)
    (heq : targetList ⟨s, compact⟩ f = targetList ⟨s', compact'⟩ f') : f.list = f'.list := by
  unfold targetList at heq
  rw [hs.trim_write compact _ (over_variables hf.list.2),
    hs'.trim_write compact' _ (over_variables hf'.list.2)] at heq
  exact h.variables_eq hs hs' hf.list.2 hf'.list.2 heq

/-- The element of an aggregate tells all of it but its exceptions. -/
theorem aggregate_eq (h : s.NamedAlike s') (hs : s.Built) (hs' : s'.Built) {d d' : Direction}
    {f f' : Aggregate Expr} (hf : (Target.aggregate f).Placed s.Declares)
    (hf' : (Target.aggregate f').Placed s'.Declares)
    (heq : objectiveElement ⟨s, compact⟩ ⟨d, .aggregate f⟩ =
      objectiveElement ⟨s', compact'⟩ ⟨d', .aggregate f'⟩) :
    (Target.aggregate f).withoutExceptions = (Target.aggregate f').withoutExceptions := by
  by_cases hweighted : ∃ terms cs, f = .sum terms (some cs)
  · obtain ⟨terms, cs, rfl⟩ := hweighted
    by_cases hweighted' : ∃ terms cs, f' = .sum terms (some cs)
    · obtain ⟨terms', cs', rfl⟩ := hweighted'
      rw [objectiveElement_weighted, objectiveElement_weighted] at heq
      simp only [Element.mk.injEq, List.cons.injEq, Option.some.injEq, true_and, and_true] at heq
      obtain ⟨-, hlist, hcoefficients⟩ := heq
      rw [hs.trim_write compact _ (over_integers s cs),
        hs'.trim_write compact' _ (over_integers s' cs')] at hcoefficients
      obtain rfl : terms = terms' := h.list_eq hs hs' hf hf' hlist
      obtain rfl := h.integers_eq hs hs' hcoefficients
      rfl
    · rw [objectiveElement_weighted, objectiveElement_list] at heq
      · cases congrArg Element.text heq
      · exact fun terms cs hf' => hweighted' ⟨terms, cs, hf'⟩
  · have hnot : ∀ terms cs, f ≠ .sum terms (some cs) := fun terms cs hf =>
      hweighted ⟨terms, cs, hf⟩
    by_cases hweighted' : ∃ terms cs, f' = .sum terms (some cs)
    · obtain ⟨terms', cs', rfl⟩ := hweighted'
      rw [objectiveElement_weighted, objectiveElement_list _ _ hnot] at heq
      cases congrArg Element.text heq
    · have hnot' : ∀ terms cs, f' ≠ .sum terms (some cs) := fun terms cs hf' =>
        hweighted' ⟨terms, cs, hf'⟩
      rw [objectiveElement_list _ _ hnot, objectiveElement_list _ _ hnot'] at heq
      simp only [Element.mk.injEq, List.cons.injEq, Prod.mk.injEq, Option.some.injEq, true_and,
        and_true] at heq
      obtain ⟨-, hkind, htext⟩ := heq
      have htrim : ∀ {s : Store} {compact : Bool} {f : Aggregate Expr}, s.Built →
          (Target.aggregate f).Placed s.Declares →
          Text.trim (targetList ⟨s, compact⟩ f) = targetList ⟨s, compact⟩ f := by
        intro s compact f hs hf
        rw [targetList, hs.trim_write compact _ (over_variables hf.list.2),
          hs.trim_write compact _ (over_variables hf.list.2)]
      rw [htrim hs hf, htrim hs' hf'] at htext
      exact Target.withoutExceptions_eq hf hnot hnot' hkind (h.list_eq hs hs' hf hf' htext)

/-- The element of an objective tells the direction, and the target but for its exceptions. -/
theorem objective_eq (h : s.NamedAlike s') (hs : s.Built) (hs' : s'.Built) {o o' : Objective}
    (ho : o.target.Placed s.Declares) (ho' : o'.target.Placed s'.Declares)
    (heq : objectiveElement ⟨s, compact⟩ o = objectiveElement ⟨s', compact'⟩ o') :
    o.direction = o'.direction ∧ o.target.withoutExceptions = o'.target.withoutExceptions := by
  obtain ⟨d, t⟩ := o
  obtain ⟨d', t'⟩ := o'
  refine ⟨Direction.name_injective ?_, ?_⟩
  · rw [← objectiveElement_name ⟨s, compact⟩ ⟨d, t⟩, heq, objectiveElement_name]
  · cases t with
    | expression e =>
      cases t' with
      | expression e' =>
        rw [objectiveElement_expression, objectiveElement_expression] at heq
        have htext : Text.trim (e.render s.nameOf) = Text.trim (e'.render s'.nameOf) :=
          Option.some.inj (congrArg Element.text heq)
        rw [hs.trim_render ho.over, hs'.trim_render ho'.over, h.names_eq] at htext
        -- both texts are now written with the names of `s`, which has to declare the variables
        -- of the second expression too
        have hlifted : e'.Lifted s.Declares := ho'.mono fun v hv => h.declares hs' hv
        rw [render_injective hs.telling ho hlifted htext]
      | aggregate f' =>
        have hattributes := congrArg Element.attributes heq
        rw [objectiveElement_attributes] at hattributes
        cases hattributes
    | aggregate f =>
      cases t' with
      | expression e' =>
        have hattributes := congrArg Element.attributes heq
        rw [objectiveElement_attributes] at hattributes
        cases hattributes
      | aggregate f' => exact h.aggregate_eq hs hs' ho ho' heq

end Store.NamedAlike

/-! ### Values of targets -/

theorem Expr.values?_map_var (k : Calculus) (σ : Assignment) (vs : List Variable) :
    values? k σ (vs.map var) = some (vs.map σ) := by
  rw [values?_eq_mapM, mapM_eq_some_iff, List.forall₂_map_left_iff, List.forall₂_map_right_iff,
    List.forall₂_same]
  exact fun v _ => rfl

/-- There are no distinct values only where there is no value. -/
theorem length_eraseDups_eq_zero {values : List Value} :
    values.eraseDups.length = 0 ↔ values = [] := by
  rw [List.length_eq_zero_iff, List.eq_nil_iff_forall_not_mem, List.eq_nil_iff_forall_not_mem]
  exact forall_congr' fun v => not_congr List.mem_eraseDups

theorem mem_map_integer {n : Int} {except : List Int} :
    Value.integer n ∈ except.map Value.integer ↔ n ∈ except :=
  List.mem_map_of_injective fun _ _ h => Value.integer.inj h

namespace Target

variable {known : Variable → Prop}

/-- Where all variables take one integer, there are no distinct values other than exceptions
exactly when the integer is an exception. -/
theorem value?_nValues_const {vs : List Variable} (hne : vs ≠ []) (except : List Int) (n : Int) :
    ∃ count : Nat, (Target.aggregate (.nValues (vs.map .var) except)).value?
      (fun _ => .integer n) = some (.integer count) ∧ (count = 0 ↔ n ∈ except) := by
  let rest := (vs.map fun _ => Value.integer n).filter (!(except.map Value.integer).contains ·)
  have hrest : rest = [] ↔ n ∈ except := by
    obtain ⟨v, vs, rfl⟩ := List.exists_cons_of_ne_nil hne
    simp +contextual [rest, List.filter_eq_nil_iff]
  refine ⟨rest.eraseDups.length, ?_, length_eraseDups_eq_zero.trans hrest⟩
  rw [Target.value?, toExpr, value?_aggregate, value?_nValues, values?_map_var]
  rfl

/-- Targets that differ in their exceptions only are equal or count distinct values of one
list. -/
theorem eq_or_nValues {t t' : Target} (h : t.withoutExceptions = t'.withoutExceptions) :
    t = t' ∨ ∃ list except except', t = .aggregate (.nValues list except) ∧
      t' = .aggregate (.nValues list except') := by
  unfold withoutExceptions at h
  split at h <;> split at h
  · cases h
    exact .inr ⟨_, _, _, rfl, rfl⟩
  · rename_i hnot
    exact absurd h.symm (hnot _ _)
  · rename_i hnot _ _ _
    exact absurd h (hnot _ _)
  · exact .inl h

/-- Targets that differ in their exceptions only have the same value under every assignment
exactly when they have the same exceptions. -/
theorem value?_eq_iff {t t' : Target} (ht : t.Placed known)
    (h : t.withoutExceptions = t'.withoutExceptions) :
    (∀ σ, t.value? σ = t'.value? σ) ↔ ∀ n, n ∈ t.exceptions ↔ n ∈ t'.exceptions := by
  obtain rfl | ⟨list, except, except', rfl, rfl⟩ := eq_or_nValues h
  · exact ⟨fun _ _ => Iff.rfl, fun _ _ => rfl⟩
  · obtain ⟨vs, rfl, -⟩ := exists_variables ht.list.2
    constructor
    · -- the assignment of `n` to all variables tells whether `n` is excepted
      intro hvalue n
      have hne : vs ≠ [] := fun hnil => ht.list.1 (congrArg (List.map Expr.var) hnil)
      obtain ⟨count, hcount, hzero⟩ := value?_nValues_const hne except n
      obtain ⟨count', hcount', hzero'⟩ := value?_nValues_const hne except' n
      rw [hvalue, hcount'] at hcount
      have hsame : (count' : Int) = count := Value.integer.inj (Option.some.inj hcount)
      rw [exceptions, exceptions, ← hzero, ← hzero', Int.ofNat_inj.mp hsame]
    · intro hexcept σ
      have hcontains : ∀ v : Value, (except.map Value.integer).contains v =
          (except'.map Value.integer).contains v := fun v => by
        cases v with
        | integer n =>
          rw [Bool.eq_iff_iff, List.contains_iff_mem, List.contains_iff_mem, mem_map_integer,
            mem_map_integer]
          exact hexcept n
        | symbol text => simp
      simp only [Target.value?, toExpr, value?_aggregate, value?_nValues, hcontains]

end Target

/-! ### The objective of a document -/

/-- The element of the objective, which is the only one in its section. -/
def Element.objective? (document : Element) : Option Element :=
  (document.children.find? (·.name = Token.objectives.text)).bind (·.children.head?)

theorem Document.objective?_ofProblem (compact : Bool) (shareAbove : Nat) (p : Problem) :
    (ofProblem compact shareAbove p).objective? =
      p.objective.map (objectiveElement ⟨p.store, compact⟩) := by
  obtain ⟨store, entries, objective, annotations⟩ := p
  have hconstraints : ∀ w : ListText, ((constraintsElement? w entries).toList).find?
      (·.name = Token.objectives.text) = none := fun w => by
    unfold constraintsElement?
    split <;> rfl
  have hannotations : ∀ w : ListText, (if annotations.isEmpty then []
      else [annotationsElement w annotations]).find? (·.name = Token.objectives.text) = none :=
    fun w => by split <;> rfl
  rw [Element.objective?, ofProblem]
  show (List.find? _ (_ :: _ ++ _ ++ _ ++ _)).bind _ = _
  rw [List.find?_append, List.find?_append, List.find?_append, hconstraints, hannotations]
  cases objective <;> rfl

/-- The objective element of the document of a model. -/
theorem Introduced.objective?_document {m : Model} {p : Introduced} {options : Options}
    {c : Compiled} (hp : ofModel m = .ok p) (hc : (m.build options).1 = .ok c) :
    c.document.objective? =
      p.objective.map (Document.objectiveElement ⟨p.store, options.compactLists⟩) := by
  obtain ⟨p', entries, hp', -, rfl⟩ := Model.build_eq_ok.mp hc
  cases hp'.symm.trans hp
  exact Document.objective?_ofProblem _ _ _

namespace Introduced

variable {m m' : Model} {p p' : Introduced} {options options' : Options} {c c' : Compiled}

/-- The posted objective is written in its direction. -/
theorem objective_rel_document (hm : m.Sound) (hp : ofModel m = .ok p)
    (hc : (m.build options).1 = .ok c) :
    Option.Rel (fun o element => element.name = o.direction.name) m.objective
      c.document.objective? := by
  obtain ⟨_, _, _, _, hobjective⟩ := exists_completes hm hp default
  rw [objective?_document hp hc]
  revert hobjective
  cases m.objective with
  | none =>
    intro hobjective
    generalize p.objective = objective at hobjective ⊢
    cases hobjective
    exact .none
  | some o =>
    intro hobjective
    obtain ⟨o', ho', hdirection, -⟩ := exists_of_rel_some hobjective
    rw [ho']
    exact .some ((Document.objectiveElement_name _ o').trans (congrArg _ hdirection))

/-- The document of a model has an objective exactly when one was posted, in the direction in
which it was posted.  Between documents with the same names, equal elements tell the same
direction and the same target up to the exceptions of a number of distinct values: what is
optimised takes the same value under every assignment exactly when the exceptions are the
same. -/
theorem objective_determined (hm : m.Reachable) (hp : ofModel m = .ok p)
    (hc : (m.build options).1 = .ok c) :
    Option.Rel (fun o element => element.name = o.direction.name) m.objective
      c.document.objective? ∧
    ∀ {m' p' options' c'}, m'.Reachable → ofModel m' = .ok p' → (m'.build options').1 = .ok c' →
      p.store.NamedAlike p'.store → c.document.objective? = c'.document.objective? →
      ∀ o ∈ p.objective, ∀ o' ∈ p'.objective, o.direction = o'.direction ∧
        ((∀ σ, o.target.value? σ = o'.target.value? σ) ↔
          ∀ n, n ∈ o.target.exceptions ↔ n ∈ o'.target.exceptions) := by
  refine ⟨objective_rel_document hm.sound hp hc, ?_⟩
  intro m' p' options' c' hm' hp' hc' halike heq o ho o' ho'
  rw [objective?_document hp hc, objective?_document hp' hc', ho, ho'] at heq
  have hplaced := (placed hm.sound hp).2 o ho
  obtain ⟨hdirection, htarget⟩ := halike.objective_eq (store_built hm.sound hp)
    (store_built hm'.sound hp') hplaced ((placed hm'.sound hp').2 o' ho') (Option.some.inj heq)
  exact ⟨hdirection, Target.value?_eq_iff hplaced htarget⟩

/-! ### Two variables with as few values as possible -/

namespace Distinct

/-- A variable from 0 to 2. -/
def x : Variable := ⟨0, 0⟩

/-- Another one. -/
def y : Variable := ⟨0, 1⟩

def declared : Store where
  model := 0
  domains := ⟨#[⟨[.interval ⟨0, 2, inf_lt_sup⟩]⟩]⟩
  infos := ⟨#[⟨"v0", 0, none⟩, ⟨"v1", 0, none⟩]⟩
  declarations := [.alone x, .alone y]
  unnamedVariables := 2

/-- The number of values of the variables other than exceptions. -/
def count (except : List Int) : Target := .aggregate (.nValues [.var x, .var y] except)

/-- The model in which the number is as small as possible. -/
def model (except : List Int) : Model where
  instanceName := {}
  store := declared
  objective := some ⟨.minimize, count except⟩

/-- There is nothing to introduce. -/
def introduced (except : List Int) : Introduced where
  store := declared
  postings := []
  objective := some ⟨.minimize, count except⟩
  replaced := []

theorem ofModel_model (except : List Int) : ofModel (model except) = .ok (introduced except) := by
  cbv

theorem reachable_model {except : List Int} (hexcept : ∀ n ∈ except, Bounded.Fits n)
    (hordered : Ascending.ofList except = except) : (model except).Reachable := by
  let domain : Domain := ⟨[.interval ⟨0, 2, inf_lt_sup⟩]⟩
  let one : Model :=
    { instanceName := {}
      store := { declared with
        infos := ⟨#[⟨"v0", 0, none⟩]⟩, declarations := [.alone x], unnamedVariables := 1 } }
  let both : Model := { instanceName := {}, store := declared }
  have hspec : Domain.ofSpec (.range 0 2 1) = .ok domain := by
    cbv
  have hdomain : domain.Built := .ofSpec (by decide) hspec
  have hx : (Model.empty 0 {}).addVariable none domain = .ok (x, one) := by
    cbv
  have hy : one.addVariable none domain = .ok (y, both) := by
    cbv
  have hlist : ∀ e ∈ [Expr.var x, .var y], e.Built both.HandsOut := fun e he => by
    rcases List.mem_pair.mp he with rfl | rfl
    · exact .var fun _ => ⟨rfl, by decide⟩
    · exact .var fun _ => ⟨rfl, by decide⟩
  have hcount : Aggregate.distinctValues [.var x, .var y] except =
      .ok (.nValues [.var x, .var y] except) := by
    rw [Aggregate.distinctValues, hordered]
    rfl
  have hoptimize : both.optimize .minimize (count except) = .ok (model except) := by
    cbv
  exact .optimize (.addVariable (.addVariable (.empty 0 {}) hdomain hx) hdomain hy)
    (.aggregate (.distinctValues hlist (by decide) hexcept hcount)) hoptimize

theorem exists_build (except : List Int) : ∃ c, ((model except).build {}).1 = .ok c := by
  rw [Model.build, ofModel_model]
  exact ⟨_, rfl⟩

/-- The least number of values and the least number of values other than zero are written
with the same element, though they differ where both variables are zero. -/
theorem exceptions_not_written : ∃ c c' : Compiled,
    ((model []).build {}).1 = .ok c ∧ ((model [0]).build {}).1 = .ok c' ∧
      c.document.objective? = c'.document.objective? ∧
      ¬ ∀ σ, (count []).value? σ = (count [0]).value? σ := by
  have hreachable : (model []).Reachable := reachable_model (by decide) (by cbv)
  have hreachable' : (model [0]).Reachable := reachable_model (by decide) (by cbv)
  obtain ⟨c, hc⟩ := exists_build []
  obtain ⟨c', hc'⟩ := exists_build [0]
  have hwritten : c.document.objective? = c'.document.objective? := by
    rw [objective?_document (ofModel_model _) hc, objective?_document (ofModel_model _) hc']
    rfl
  obtain ⟨-, hvalues⟩ := (objective_determined hreachable (ofModel_model []) hc).2 hreachable'
    (ofModel_model [0]) hc' ⟨rfl, fun _ => rfl, fun _ => rfl⟩ hwritten _ rfl _ rfl
  refine ⟨c, c', hc, hc', hwritten, fun hsame => ?_⟩
  exact List.not_mem_nil ((hvalues.mp hsame 0).mpr (List.mem_singleton_self 0))

end Distinct
end Introduced
end CspModel
