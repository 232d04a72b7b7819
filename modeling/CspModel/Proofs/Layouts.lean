import CspModel.Proofs.Frames

/-! # Layouts tell constraints

The layout of a relation keeps all of it (`Constraint.Built.layout_eq_iff`), but for one thing: a
number of occurrences from `n` to `n` is laid out as the number `n`.  Whatever is left out
of a layout is a default, and a default is told by its absence.  Two things are turned into
text.  The transitions of an automaton can be read off theirs, as the names of states are
identifiers and have neither a comma nor a parenthesis; its final states can, as
identifiers have no blanks.
-/
namespace CspModel

/-! ### The texts of automata -/

theorem checkState_eq_ok {state : String} :
    checkState state = .ok () ↔ Text.isIdentifier state = true := by
  unfold checkState
  split <;> simp [*]

namespace Transition

/-- Whether the names of both states are identifiers. -/
def Named (t : Transition) : Prop :=
  Text.isIdentifier t.source = true ∧ Text.isIdentifier t.target = true

theorem named_of_checkTransitions {transitions : List Transition}
    (h : checkTransitions transitions = .ok ()) : ∀ t ∈ transitions, t.Named := by
  obtain ⟨_, hstates, -⟩ := Except.bind_eq_ok.mp h
  intro t ht
  obtain ⟨_, hsource, htarget⟩ := Except.bind_eq_ok.mp (Except.forM_eq_ok.mp hstates t ht)
  exact ⟨checkState_eq_ok.mp hsource, checkState_eq_ok.mp htarget⟩

/-- No identifier has a character that no name has. -/
theorem not_mem_of_named {name : String} (h : Text.isIdentifier name = true) {c : Char}
    (hc : Text.isNameChar c = false) : c ∉ name.toList := by
  intro hmem
  rw [Text.isNameChar, Text.isIdentifierRest_of_mem h hmem] at hc
  cases hc

theorem toList_text (t : Transition) : t.text.toList =
    '(' :: (t.source.toList ++ ',' :: ((toString t.value).toList ++
      ',' :: (t.target.toList ++ [')']))) := by
  simp [text, String.toList_append]

theorem toList_textOfAll_cons (t : Transition) (rest : List Transition) :
    (textOfAll (t :: rest)).toList = t.text.toList ++ (textOfAll rest).toList := by
  simp [textOfAll, String.join_cons, String.toList_append]

/-- The text of transitions between named states tells them. -/
theorem textOfAll_injective {ts ts' : List Transition} (hts : ∀ t ∈ ts, t.Named)
    (hts' : ∀ t ∈ ts', t.Named) (h : textOfAll ts = textOfAll ts') : ts = ts' := by
  replace h := congrArg String.toList h
  induction ts generalizing ts' with
  | nil =>
    cases ts' with
    | nil => rfl
    | cons t' rest' =>
      rw [toList_textOfAll_cons, toList_text] at h
      cases h
  | cons t rest ih =>
    cases ts' with
    | nil =>
      rw [toList_textOfAll_cons, toList_text] at h
      cases h
    | cons t' rest' =>
      obtain ⟨hsource, htarget⟩ := hts t List.mem_cons_self
      obtain ⟨hsource', htarget'⟩ := hts' t' List.mem_cons_self
      have hvalue : ∀ n : Int, ',' ∉ (toString n).toList := fun n =>
        not_mem_toString (by decide) (by decide) n
      rw [toList_textOfAll_cons, toList_textOfAll_cons, toList_text, toList_text] at h
      simp only [List.cons_append, List.append_assoc, List.cons.injEq, true_and,
        List.nil_append] at h
      -- the source ends at the first comma, the value at the second, the target at the parenthesis
      obtain ⟨hsources, h⟩ := append_cons_inj (not_mem_of_named hsource (by decide))
        (not_mem_of_named hsource' (by decide)) h
      obtain ⟨hvalues, h⟩ := append_cons_inj (hvalue _) (hvalue _) h
      obtain ⟨htargets, h⟩ := append_cons_inj (not_mem_of_named htarget (by decide))
        (not_mem_of_named htarget' (by decide)) h
      have heq : t = t' := by
        obtain ⟨source, value, target⟩ := t
        obtain ⟨source', value', target'⟩ := t'
        rw [mk.injEq]
        exact ⟨String.toList_inj.mp hsources, Int.toString_injective (String.toList_inj.mp hvalues),
          String.toList_inj.mp htargets⟩
      rw [heq, ih (fun t ht => hts t (List.mem_cons_of_mem _ ht))
        (fun t ht => hts' t (List.mem_cons_of_mem _ ht)) h]

end Transition

theorem Text.isWord_of_isIdentifier {name : String} (h : Text.isIdentifier name = true) :
    Text.IsWord name := by
  refine ⟨?_, fun c hc => ?_⟩
  · rintro rfl
    exact absurd h (by decide)
  · exact isBlank_of_isNameChar (by simp [isNameChar, isIdentifierRest_of_mem h hc])

/-- Identifiers are told by their list. -/
theorem Text.intercalate_identifiers_injective {names names' : List String}
    (h : ∀ n ∈ names, Text.isIdentifier n = true) (h' : ∀ n ∈ names', Text.isIdentifier n = true)
    (heq : " ".intercalate names = " ".intercalate names') : names = names' := by
  rw [← Store.words_intercalate fun n hn => isWord_of_isIdentifier (h n hn), heq,
    Store.words_intercalate fun n hn => isWord_of_isIdentifier (h' n hn)]

/-- Whether the automaton was put together from its parts. -/
def Automaton.Built (a : Automaton) : Prop :=
  ∃ start transitions finals, ofParts start transitions finals = .ok a

/-- Whether the diagram was put together from its transitions. -/
def Diagram.Built (d : Diagram) : Prop := ∃ transitions, ofTransitions transitions = .ok d

theorem Automaton.Built.named {a : Automaton} (h : a.Built) :
    (∀ t ∈ a.transitions, t.Named) ∧ ∀ state ∈ a.finals, Text.isIdentifier state = true := by
  obtain ⟨start, transitions, finals, h⟩ := h
  obtain ⟨_, -, h⟩ := Except.bind_eq_ok.mp h
  obtain ⟨_, htransitions, h⟩ := Except.bind_eq_ok.mp h
  obtain ⟨_, hfinals, h⟩ := Except.bind_eq_ok.mp h
  split at h
  · cases h
  obtain rfl := Except.ok.inj h
  refine ⟨Transition.named_of_checkTransitions htransitions, fun state hstate => ?_⟩
  exact checkState_eq_ok.mp (Except.forM_eq_ok.mp hfinals state (Ascending.mem_ofList.mp hstate))

theorem Diagram.Built.named {d : Diagram} (h : d.Built) : ∀ t ∈ d.transitions, t.Named := by
  obtain ⟨transitions, h⟩ := h
  obtain ⟨_, htransitions, h⟩ := Except.bind_eq_ok.mp h
  obtain rfl := Except.ok.inj h
  exact Transition.named_of_checkTransitions htransitions

/-- An automaton is told by its start and the texts of its transitions and final states. -/
theorem Automaton.eq_of_texts {a a' : Automaton} (ha : ∀ t ∈ a.transitions, t.Named)
    (hfinals : ∀ state ∈ a.finals, Text.isIdentifier state = true)
    (ha' : ∀ t ∈ a'.transitions, t.Named)
    (hfinals' : ∀ state ∈ a'.finals, Text.isIdentifier state = true) (hstart : a.start = a'.start)
    (htransitions : Transition.textOfAll a.transitions = Transition.textOfAll a'.transitions)
    (hstates : " ".intercalate a.finals = " ".intercalate a'.finals) : a = a' := by
  obtain ⟨start, transitions, finals⟩ := a
  obtain ⟨start', transitions', finals'⟩ := a'
  obtain rfl : start = start' := hstart
  obtain rfl : transitions = transitions' := Transition.textOfAll_injective ha ha' htransitions
  obtain rfl : finals = finals' := Text.intercalate_identifiers_injective hfinals hfinals' hstates
  rfl

/-- A diagram is told by the text of its transitions. -/
theorem Diagram.eq_of_text {d d' : Diagram} (hd : ∀ t ∈ d.transitions, t.Named)
    (hd' : ∀ t ∈ d'.transitions, t.Named)
    (h : Transition.textOfAll d.transitions = Transition.textOfAll d'.transitions) : d = d' := by
  obtain ⟨transitions⟩ := d
  obtain ⟨transitions'⟩ := d'
  exact congrArg mk (Transition.textOfAll_injective hd hd' h)

/-! ### Arguments -/

/-- A function that is told by another one is told by it entry by entry. -/
theorem map_eq_map {α β γ : Type} {f : α → β} {g : α → γ} (hfg : ∀ a b, f a = f b → g a = g b)
    {as bs : List α} (h : as.map f = bs.map f) : as.map g = bs.map g := by
  induction as generalizing bs with
  | nil => rw [List.map_eq_nil_iff.mp h.symm]
  | cons a as ih =>
    cases bs with
    | nil => cases h
    | cons b bs =>
      obtain ⟨hab, hrest⟩ := List.cons.inj h
      rw [List.map_cons, List.map_cons, hfg a b hab, ih hrest]

theorem OrderOperator.name_inj {op op' : OrderOperator} : op.name = op'.name ↔ op = op' := by
  cases op <;> cases op' <;> simp [name]

namespace Parameter

theorem ofExpr_inj {e e' : Expr} : ofExpr e = ofExpr e' ↔ e = e' := by
  cases e <;> cases e' <;> simp [ofExpr]

theorem map_ofExpr_inj {list list' : List Expr} :
    list.map ofExpr = list'.map ofExpr ↔ list = list' :=
  List.map_inj_right fun _ _ => ofExpr_inj.mp

end Parameter

namespace Argument

variable {name : String}

@[simp] theorem ofList_inj {list list' : List Expr} :
    ofList name list = ofList name list' ↔ list = list' := by
  simp [ofList, Parameter.map_ofExpr_inj]

@[simp] theorem ofVariables_inj {list list' : List Variable} :
    ofVariables list = ofVariables list' ↔ list = list' := by
  simp [ofVariables, List.map_inj_right]

@[simp] theorem ofIntegers_inj {values values' : List Int} :
    ofIntegers name values = ofIntegers name values' ↔ values = values' := by
  simp [ofIntegers, List.map_inj_right]

@[simp] theorem ofExpr_inj {e e' : Expr} : ofExpr name e = ofExpr name e' ↔ e = e' := by
  simp [ofExpr, Parameter.ofExpr_inj]

@[simp] theorem ofText_inj {text text' : String} :
    ofText name text = ofText name text' ↔ text = text' := by
  simp [ofText]

@[simp] theorem ofCondition_inj {c c' : Condition} : ofCondition c = ofCondition c' ↔ c = c' := by
  obtain ⟨comparison, operand⟩ := c
  obtain ⟨comparison', operand'⟩ := c'
  cases operand <;> cases operand' <;> simp [ofCondition, Parameter.ofExpr_inj]

/-- A condition on an element: only an equality is an argument without the name of a
condition. -/
@[simp] theorem ofElementCondition_inj {c c' : Condition} :
    ofElementCondition c = ofElementCondition c' ↔ c = c' := by
  have hne : ∀ (e : Expr) (c : Condition), ofExpr "value" e ≠ ofCondition c := fun e c h => by
    have hname : "value" = "condition" := congrArg Argument.name h
    exact absurd hname (by decide)
  unfold ofElementCondition
  split <;> split
  · simp
  · rename_i h
    exact ⟨fun heq => absurd heq (hne _ _), fun heq => absurd heq.symm (h _)⟩
  · rename_i h _ _
    exact ⟨fun heq => absurd heq.symm (hne _ _), fun heq => absurd heq (h _)⟩
  · simp

/-- An attribute that is left out when it holds its default tells whether it does. -/
theorem withAttribute_inj {a b : Argument} (ha : a.attributes = []) (hb : b.attributes = [])
    {isDefault isDefault' : Bool} {key value value' : String} :
    a.withAttribute isDefault key value = b.withAttribute isDefault' key value' ↔
      a = b ∧ isDefault = isDefault' ∧ (isDefault = false → value = value') := by
  obtain ⟨name, attributes, content⟩ := a
  obtain ⟨name', attributes', content'⟩ := b
  obtain rfl : attributes = [] := ha
  obtain rfl : attributes' = [] := hb
  cases isDefault <;> cases isDefault' <;> simp [withAttribute, and_right_comm, and_assoc]

theorem startingAt_inj {a b : Argument} (ha : a.attributes = []) (hb : b.attributes = [])
    {m n : Int} : a.startingAt m = b.startingAt n ↔ a = b ∧ m = n := by
  rw [startingAt, startingAt, withAttribute_inj ha hb]
  refine and_congr_right fun _ => ⟨?_, ?_⟩
  · rintro ⟨hdefault, htext⟩
    by_cases hm : m = 0
    · have hn : (n == 0) = true := hdefault ▸ beq_iff_eq.mpr hm
      rw [hm, beq_iff_eq.mp hn]
    · exact Int.toString_injective (htext (beq_eq_false_iff_ne.mpr hm))
  · rintro rfl
    exact ⟨rfl, fun _ => rfl⟩

/-- An attribute of one value is told by whether it is there. -/
theorem withAttribute_flag_inj {a b : Argument} (ha : a.attributes = []) (hb : b.attributes = [])
    {isDefault isDefault' : Bool} {key value : String} :
    a.withAttribute isDefault key value = b.withAttribute isDefault' key value ↔
      a = b ∧ isDefault = isDefault' := by
  rw [withAttribute_inj ha hb]
  simp

/-- A list that is left out when it is empty tells itself, and the flag it carries unless it
is left out, when nothing is flagged. -/
theorem ofSome_flag_inj {values values' : List Int} {flag flag' : Bool} {key value : String}
    (h : values = [] → flag = false) (h' : values' = [] → flag' = false)
    (heq : (ofSome name values).map (·.withAttribute (!flag) key value) =
      (ofSome name values').map (·.withAttribute (!flag') key value)) :
    values = values' ∧ flag = flag' := by
  cases values with
  | nil => cases values' with
    | nil => exact ⟨rfl, (h rfl).trans (h' rfl).symm⟩
    | cons => cases heq
  | cons => cases values' with
    | nil => cases heq
    | cons =>
      obtain ⟨hvalues, hflag⟩ := (withAttribute_flag_inj rfl rfl).mp (List.singleton_inj.mp heq)
      exact ⟨ofIntegers_inj.mp hvalues, Bool.not_inj hflag⟩

@[simp] theorem startingAt_ofList_inj {list list' : List Expr} {m n : Int} :
    (ofList name list).startingAt m = (ofList name list').startingAt n ↔ list = list' ∧ m = n := by
  rw [startingAt_inj rfl rfl, ofList_inj]

@[simp] theorem startingAt_ofVariables_inj {list list' : List Variable} {m n : Int} :
    (ofVariables list).startingAt m = (ofVariables list').startingAt n ↔ list = list' ∧ m = n := by
  rw [startingAt_inj rfl rfl, ofVariables_inj]

theorem name_startingAt (a : Argument) (n : Int) : (a.startingAt n).name = a.name := by
  unfold startingAt withAttribute
  split <;> rfl

@[simp] theorem ofSome_inj {values values' : List Int} :
    ofSome name values = ofSome name values' ↔ values = values' := by
  cases values <;> cases values' <;> simp [ofSome]

@[simp] theorem ofCoefficients_inj {coefficients coefficients' : Option (List Int)} :
    ofCoefficients coefficients = ofCoefficients coefficients' ↔ coefficients = coefficients' := by
  cases coefficients <;> cases coefficients' <;> simp [ofCoefficients]

end Argument

namespace Layout

theorem aggregateArguments_inj {f g : Aggregate Expr} (hkind : f.kind = g.kind)
    (h : aggregateArguments f = aggregateArguments g) : f = g := by
  cases f <;> cases g <;> simp_all [aggregateArguments, Aggregate.kind]

theorem aggregateCondition_inj {f : Aggregate Expr} {c d : Condition} :
    aggregateCondition f c = aggregateCondition f d ↔ c = d := by
  cases f <;> simp [aggregateCondition]

/-- The arguments of an aggregate and of the condition on it tell both. -/
theorem aggregate_inj {f g : Aggregate Expr} {c d : Condition} (hkind : f.kind = g.kind)
    (h : aggregateArguments f ++ [aggregateCondition f c] =
      aggregateArguments g ++ [aggregateCondition g d]) : f = g ∧ c = d := by
  obtain ⟨harguments, hcondition⟩ := List.append_inj' h rfl
  obtain rfl := aggregateArguments_inj hkind harguments
  exact ⟨rfl, aggregateCondition_inj.mp (List.singleton_inj.mp hcondition)⟩

theorem literalParameter_inj {l l' : Literal} :
    literalParameter l = literalParameter l' ↔ l = l' := by
  obtain ⟨v, positive⟩ := l
  obtain ⟨v', positive'⟩ := l'
  cases positive <;> cases positive' <;> simp [literalParameter]

theorem targetArguments_inj {t t' : ChannelTarget} :
    targetArguments t = targetArguments t' ↔ t = t' := by
  have hne : ∀ list n e, (Argument.ofVariables list).startingAt n ≠ .ofExpr "value" e := by
    intro list n e h
    have hname : "list" = "value" :=
      (Argument.name_startingAt _ n).symm.trans (congrArg Argument.name h)
    exact absurd hname (by decide)
  cases t <;> cases t' <;> simp [targetArguments, hne, (hne _ _ _).symm]

end Layout

/-! ### Relations -/

/-- A number of occurrences in which a range of one number is that number. -/
def Occurrence.plain : Occurrence → Occurrence
  | .exactly e => .exactly e
  | .between inf sup => if inf = sup then .exactly (.const inf) else .between inf sup

theorem Layout.occurrenceParameter_eq_iff {o o' : Occurrence} :
    occurrenceParameter o = occurrenceParameter o' ↔ o.plain = o'.plain := by
  have hne : ∀ (e : Expr) (inf sup : Int),
      Parameter.ofExpr e ≠ .range inf sup := fun e inf sup => by
    cases e <;> simp [Parameter.ofExpr]
  have hconst : ∀ n : Int, Parameter.integer n = .ofExpr (.const n) := fun _ => rfl
  have hparameter : ∀ o : Occurrence, occurrenceParameter o = match o.plain with
      | .exactly e => .ofExpr e
      | .between inf sup => .range inf sup := by
    intro o
    cases o with
    | exactly e => rfl
    | between inf sup =>
      rw [occurrenceParameter, Occurrence.plain]
      split <;> rfl
  rw [hparameter, hparameter]
  cases o.plain <;> cases o'.plain <;> simp [Parameter.ofExpr_inj, hne, (hne _ _ _).symm]

namespace Relation

/-- The relation in which every range of one number of occurrences is that number. -/
def plain : Relation → Relation
  | cardinality list values occurs closed => cardinality list values (occurs.map .plain) closed
  | r => r

theorem layout_plain (r : Relation) : Layout.ofRelation r.plain = Layout.ofRelation r := by
  cases r with
  | cardinality list values occurs closed =>
    have hplain : ∀ o : Occurrence, o.plain.plain = o.plain := fun o => by
      cases o with
      | exactly e => rfl
      | between inf sup =>
        rw [Occurrence.plain]
        split
        · rfl
        · rw [Occurrence.plain, if_neg ‹_›]
    have hoccurs : (occurs.map .plain).map Layout.occurrenceParameter =
        occurs.map Layout.occurrenceParameter := by
      rw [List.map_map]
      exact List.map_congr_left fun o _ => Layout.occurrenceParameter_eq_iff.mpr (hplain o)
    rw [plain, Layout.ofRelation, Layout.ofRelation, hoccurs]
  | _ => rfl

theorem name_ofRelation (r : Relation) : (Layout.ofRelation r).name = r.name := by
  cases r <;> rfl

/-- The names of the elements of each form of relation, in the order of the forms. -/
def names : List (List String) :=
  [["intension"], ["extension"], ["allDifferent"], ["allEqual"], ["ordered"],
    ["sum", "count", "nValues", "minimum", "maximum", "element"], ["circuit"], ["noOverlap"],
    ["cumulative"], ["instantiation"], ["lex"], ["channel"], ["cardinality"], ["regular"], ["mdd"],
    ["precedence"], ["clause"]]

theorem findIdx_names (r : Relation) : names.findIdx (·.contains r.name) = r.ctorIdx := by
  cases r with
  | conditional function condition => cases function <;> rfl
  | _ => rfl

/-- The name tells the form. -/
theorem ctorIdx_eq_of_name {r r' : Relation} (h : r.name = r'.name) : r.ctorIdx = r'.ctorIdx := by
  rw [← findIdx_names, h, findIdx_names]

/-- Whether what is turned into text, or left out, can be told from the layout. -/
def Legible : Relation → Prop
  | regular _ automaton => (∀ t ∈ automaton.transitions, t.Named) ∧
      ∀ state ∈ automaton.finals, Text.isIdentifier state = true
  | mdd _ diagram => ∀ t ∈ diagram.transitions, t.Named
  | precedence _ values covered => values = [] → covered = false
  | _ => True

/-- Relations that are laid out alike are one. -/
theorem plain_eq_of_layout_eq {r r' : Relation} (hr : r.Legible) (hr' : r'.Legible)
    (h : Layout.ofRelation r = Layout.ofRelation r') : r.plain = r'.plain := by
  have hname : r.name = r'.name := by rw [← name_ofRelation, h, name_ofRelation]
  have hform := ctorIdx_eq_of_name hname
  cases r with
  | intension => cases r' with
    | intension => exact congrArg plain (by simpa [Layout.ofRelation] using h)
    | _ => cases hform
  | extension => cases r' with
    | extension =>
      simp only [Layout.ofRelation, Layout.mk.injEq, List.cons.injEq, Argument.ofList_inj,
        Argument.mk.injEq, Content.table.injEq] at h
      obtain ⟨-, -, hlist, ⟨-, -, htable⟩, -⟩ := h
      rw [hlist, htable]
    | _ => cases hform
  | allDifferent => cases r' with
    | allDifferent => exact congrArg plain (by simpa [Layout.ofRelation] using h)
    | _ => cases hform
  | allEqual => cases r' with
    | allEqual => exact congrArg plain (by simpa [Layout.ofRelation] using h)
    | _ => cases hform
  | ordered => cases r' with
    | ordered => exact congrArg plain (by simpa [Layout.ofRelation, OrderOperator.name_inj] using h)
    | _ => cases hform
  | conditional => cases r' with
    | conditional =>
      obtain ⟨rfl, rfl⟩ := Layout.aggregate_inj hname (congrArg Layout.arguments h)
      rfl
    | _ => cases hform
  | circuit => cases r' with
    | circuit => exact congrArg plain (by simpa [Layout.ofRelation] using h)
    | _ => cases hform
  | noOverlap _ _ zeroIgnored => cases r' with
    | noOverlap _ _ zeroIgnored' =>
      have hattributes := congrArg Layout.attributes h
      obtain rfl : zeroIgnored = zeroIgnored' := by
        cases zeroIgnored <;> cases zeroIgnored' <;> first | rfl | cases hattributes
      exact congrArg plain (by simpa [Layout.ofRelation] using h)
    | _ => cases hform
  | cumulative => cases r' with
    | cumulative => exact congrArg plain (by simpa [Layout.ofRelation] using h)
    | _ => cases hform
  | instantiation => cases r' with
    | instantiation => exact congrArg plain (by simpa [Layout.ofRelation] using h)
    | _ => cases hform
  | lex => cases r' with
    | lex =>
      obtain ⟨hlists, hoperator⟩ := List.append_inj' (congrArg Layout.arguments h) rfl
      rw [List.map_inj_right fun _ _ => Argument.ofList_inj.mp] at hlists
      rw [List.singleton_inj, Argument.ofText_inj, OrderOperator.name_inj] at hoperator
      rw [hlists, hoperator]
    | _ => cases hform
  | channel => cases r' with
    | channel =>
      exact congrArg plain
        (by simpa [Layout.ofRelation, Layout.targetArguments_inj, and_assoc] using h)
    | _ => cases hform
  | cardinality => cases r' with
    | cardinality =>
      simp only [Layout.ofRelation, Layout.mk.injEq, List.cons.injEq, Argument.ofList_inj,
        Argument.mk.injEq, Content.parameters.injEq] at h
      obtain ⟨-, -, hlist, hvalues, ⟨-, -, hoccurs⟩, -⟩ := h
      obtain ⟨hvalues, hclosed⟩ := (Argument.withAttribute_flag_inj rfl rfl).mp hvalues
      rw [plain, plain, hlist, Argument.ofList_inj.mp hvalues, Bool.not_inj hclosed,
        map_eq_map (fun _ _ => Layout.occurrenceParameter_eq_iff.mp) hoccurs]
    | _ => cases hform
  | regular => cases r' with
    | regular =>
      simp only [Layout.ofRelation, Layout.mk.injEq, List.cons.injEq, Argument.ofList_inj,
        Argument.ofText_inj] at h
      obtain ⟨-, -, hlist, htransitions, hstart, hfinals, -⟩ := h
      rw [hlist, Automaton.eq_of_texts hr.1 hr.2 hr'.1 hr'.2 hstart htransitions hfinals]
    | _ => cases hform
  | mdd => cases r' with
    | mdd =>
      simp only [Layout.ofRelation, Layout.mk.injEq, List.cons.injEq, Argument.ofList_inj,
        Argument.ofText_inj] at h
      obtain ⟨-, -, hlist, htransitions, -⟩ := h
      rw [hlist, Diagram.eq_of_text hr hr' htransitions]
    | _ => cases hform
  | precedence => cases r' with
    | precedence =>
      obtain ⟨hlist, hvalues⟩ := List.cons.inj (congrArg Layout.arguments h)
      obtain ⟨hvalues, hcovered⟩ := Argument.ofSome_flag_inj hr hr' hvalues
      rw [Argument.ofList_inj.mp hlist, hvalues, hcovered]
    | _ => cases hform
  | clause => cases r' with
    | clause =>
      have hlist := congrArg Layout.arguments h
      simp only [Layout.ofRelation, List.singleton_inj, Argument.mk.injEq, true_and,
        Content.parameters.injEq] at hlist
      rw [List.map_inj_right fun _ _ => Layout.literalParameter_inj.mp] at hlist
      rw [hlist]
    | _ => cases hform

/-- Whether the automaton or the diagram of the relation, if it has one, was put together from
its parts. -/
def MachineBuilt : Relation → Prop
  | regular _ automaton => automaton.Built
  | mdd _ diagram => diagram.Built
  | _ => True

end Relation

namespace Constraint.Built

variable {known known' : Variable → Prop}

/-- Without values, a precedence is not asked to cover them. -/
theorem covered_eq_false {list : List Expr} {covered : Bool}
    (h : Built known (.relation (.precedence list [] covered))) : covered = false := by
  rcases h.relation_or_slide with ⟨r, hr, -, hcovered⟩ | ⟨windows, hwindows, -⟩
  · cases hr
    exact hcovered list covered rfl
  · cases hwindows

theorem legible {r : Relation} (h : Built known (.relation r)) (hmachine : r.MachineBuilt) :
    r.Legible := by
  cases r with
  | regular _ automaton => exact Automaton.Built.named hmachine
  | mdd _ diagram => exact Diagram.Built.named hmachine
  | precedence _ values covered =>
    rintro rfl
    exact h.covered_eq_false
  | _ => trivial

/-- The layout of a relation keeps all of it: relations that were built are laid out alike
exactly when they are one relation, but for ranges of occurrences of one number. -/
theorem layout_eq_iff {r r' : Relation} (h : Built known (.relation r))
    (h' : Built known' (.relation r')) (hmachine : r.MachineBuilt) (hmachine' : r'.MachineBuilt) :
    Layout.ofRelation r = Layout.ofRelation r' ↔ r.plain = r'.plain := by
  constructor
  · exact Relation.plain_eq_of_layout_eq (h.legible hmachine) (h'.legible hmachine')
  · intro hplain
    rw [← r.layout_plain, hplain, r'.layout_plain]

end Constraint.Built

namespace Row

/-- A cell takes the value one as often as stated. -/
def ones (occurrence : Occurrence) (closed : Bool) : Relation :=
  .cardinality [cell 0] [.const 1] [occurrence] closed

theorem built_ones {o : Occurrence} (ho : Constraint.checkOccurrence o = .ok ())
    (hbuilt : ∀ e, o = .exactly e → e.Built store.Declares) (closed : Bool) :
    Constraint.Built store.Declares (.relation (ones o closed)) := by
  have hones : Constraint.cardinality [cell 0] [(.const 1, o)] closed =
      .ok (.relation (ones o closed)) := by
    simp [Constraint.cardinality, Aggregate.nonEmpty, Constraint.atLeast, ho, ones]
    rfl
  refine .cardinality ?_ ?_ hones
  · exact List.forall_mem_singleton.mpr (.var (declares_cell (by decide)))
  · exact List.forall_mem_singleton.mpr ⟨.const (by decide), hbuilt⟩

/-- A range of occurrences from two to two is laid out as two occurrences; whether other values
occur is told. -/
theorem layout_ones :
    Constraint.Built store.Declares (.relation (ones (.between 2 2) false)) ∧
      Constraint.Built store.Declares (.relation (ones (.exactly (.const 2)) false)) ∧
      Layout.ofRelation (ones (.between 2 2) false) =
        Layout.ofRelation (ones (.exactly (.const 2)) false) ∧
      Layout.ofRelation (ones (.between 2 2) true) ≠
        Layout.ofRelation (ones (.between 2 2) false) := by
  have hbetween : ∀ closed,
      Constraint.Built store.Declares (.relation (ones (.between 2 2) closed)) :=
    built_ones rfl fun _ he => nomatch he
  have hexactly : Constraint.Built store.Declares (.relation (ones (.exactly (.const 2)) false)) :=
    built_ones rfl (fun e he => by cases he; exact .const (by decide)) false
  refine ⟨hbetween false, hexactly, ?_, fun h => ?_⟩
  · exact ((hbetween false).layout_eq_iff hexactly trivial trivial).mpr rfl
  · have hplain := ((hbetween true).layout_eq_iff (hbetween false) trivial trivial).mp h
    cases hplain

end Row

end CspModel
