import CspModel.Proofs.Operations
import CspModel.Proofs.Refusals

/-! # Where a handle can stand

A handle stands in an expression, and an expression in an aggregate, a condition, a number of
occurrences, the target of a channel or one of the lists of a relation; a relation stands in
a slide, and slides nest.  `Mentions` names these positions one by one, without the functions
that collect the variables of an object.  The collecting functions miss none of them
(`Constraint.mentions_iff`).
-/
namespace CspModel

variable {v : Variable}

/-! ### Positions -/

mutual
/-- The handle stands in the expression. -/
inductive Expr.Mentions (v : Variable) : Expr → Prop
  | var : Expr.Mentions v (.var v)
  | operand {op : Operator} {operands : List Expr} {e : Expr} : e ∈ operands →
      Expr.Mentions v e → Expr.Mentions v (.apply op operands)
  | aggregate {f : Aggregate Expr} : Aggregate.Mentions v f → Expr.Mentions v (.aggregate f)

/-- The handle stands in the aggregate. -/
inductive Aggregate.Mentions (v : Variable) : Aggregate Expr → Prop
  | term {terms : List Expr} {coefficients : Option (List Int)} {e : Expr} : e ∈ terms →
      Expr.Mentions v e → Aggregate.Mentions v (.sum terms coefficients)
  | counted {list : List Expr} {values : List Int} {e : Expr} : e ∈ list →
      Expr.Mentions v e → Aggregate.Mentions v (.count list values)
  | distinct {list : List Expr} {except : List Int} {e : Expr} : e ∈ list →
      Expr.Mentions v e → Aggregate.Mentions v (.nValues list except)
  | least {list : List Expr} {e : Expr} : e ∈ list → Expr.Mentions v e →
      Aggregate.Mentions v (.minimum list)
  | greatest {list : List Expr} {e : Expr} : e ∈ list → Expr.Mentions v e →
      Aggregate.Mentions v (.maximum list)
  | entry {list : List Expr} {index e : Expr} {startIndex : Int} : e ∈ list →
      Expr.Mentions v e → Aggregate.Mentions v (.element list index startIndex)
  | index {list : List Expr} {index : Expr} {startIndex : Int} : Expr.Mentions v index →
      Aggregate.Mentions v (.element list index startIndex)
end

/-- The handle stands in the right-hand side of the condition. -/
inductive Condition.Mentions (v : Variable) : Condition → Prop
  | expression {comparison : Comparison} {e : Expr} : e.Mentions v →
      Condition.Mentions v ⟨comparison, .expression e⟩

inductive Occurrence.Mentions (v : Variable) : Occurrence → Prop
  | exactly {e : Expr} : e.Mentions v → Occurrence.Mentions v (.exactly e)

inductive ChannelTarget.Mentions (v : Variable) : ChannelTarget → Prop
  | list {list : List Variable} {startIndex : Int} : v ∈ list →
      ChannelTarget.Mentions v (.list list startIndex)
  | value {e : Expr} : e.Mentions v → ChannelTarget.Mentions v (.value e)

/-- The handle stands in an argument of the relation. -/
inductive Relation.Mentions (v : Variable) : Relation → Prop
  | intension {e : Expr} : e.Mentions v → Relation.Mentions v (.intension e)
  | extension {list : List Expr} {table : Table} {e : Expr} : e ∈ list → e.Mentions v →
      Relation.Mentions v (.extension list table)
  | allDifferent {list : List Expr} {except : List Int} {e : Expr} : e ∈ list → e.Mentions v →
      Relation.Mentions v (.allDifferent list except)
  | allEqual {list : List Expr} {e : Expr} : e ∈ list → e.Mentions v →
      Relation.Mentions v (.allEqual list)
  | ordered {list : List Expr} {operator : OrderOperator} {e : Expr} : e ∈ list →
      e.Mentions v → Relation.Mentions v (.ordered list operator)
  | function {f : Aggregate Expr} {condition : Condition} : f.Mentions v →
      Relation.Mentions v (.conditional f condition)
  | condition {f : Aggregate Expr} {condition : Condition} : condition.Mentions v →
      Relation.Mentions v (.conditional f condition)
  | circuit {list : List Expr} {startIndex : Int} {e : Expr} : e ∈ list → e.Mentions v →
      Relation.Mentions v (.circuit list startIndex)
  | origin {origins lengths : List Expr} {zeroIgnored : Bool} {e : Expr} : e ∈ origins →
      e.Mentions v → Relation.Mentions v (.noOverlap origins lengths zeroIgnored)
  | length {origins lengths : List Expr} {zeroIgnored : Bool} {e : Expr} : e ∈ lengths →
      e.Mentions v → Relation.Mentions v (.noOverlap origins lengths zeroIgnored)
  | task {origins lengths heights : List Expr} {condition : Condition} {e : Expr} :
      e ∈ origins ∨ e ∈ lengths ∨ e ∈ heights → e.Mentions v →
      Relation.Mentions v (.cumulative origins lengths heights condition)
  | limit {origins lengths heights : List Expr} {condition : Condition} :
      condition.Mentions v → Relation.Mentions v (.cumulative origins lengths heights condition)
  | instantiation {list : List Variable} {values : List Int} : v ∈ list →
      Relation.Mentions v (.instantiation list values)
  | lex {lists : List (List Expr)} {operator : OrderOperator} {list : List Expr} {e : Expr} :
      list ∈ lists → e ∈ list → e.Mentions v → Relation.Mentions v (.lex lists operator)
  | channel {list : List Variable} {startIndex : Int} {target : ChannelTarget} : v ∈ list →
      Relation.Mentions v (.channel list startIndex target)
  | channelTarget {list : List Variable} {startIndex : Int} {target : ChannelTarget} :
      target.Mentions v → Relation.Mentions v (.channel list startIndex target)
  | cardinality {list values : List Expr} {occurs : List Occurrence} {closed : Bool} {e : Expr} :
      e ∈ list ∨ e ∈ values → e.Mentions v →
      Relation.Mentions v (.cardinality list values occurs closed)
  | occurrence {list values : List Expr} {occurs : List Occurrence} {closed : Bool}
      {o : Occurrence} : o ∈ occurs → o.Mentions v →
      Relation.Mentions v (.cardinality list values occurs closed)
  | regular {list : List Expr} {automaton : Automaton} {e : Expr} : e ∈ list → e.Mentions v →
      Relation.Mentions v (.regular list automaton)
  | mdd {list : List Expr} {diagram : Diagram} {e : Expr} : e ∈ list → e.Mentions v →
      Relation.Mentions v (.mdd list diagram)
  | precedence {list : List Expr} {values : List Int} {covered : Bool} {e : Expr} : e ∈ list →
      e.Mentions v → Relation.Mentions v (.precedence list values covered)
  | clause {literals : List Literal} {literal : Literal} : literal ∈ literals →
      literal.v = v → Relation.Mentions v (.clause literals)

/-- The handle stands in the constraint, or in a window at any depth. -/
inductive Constraint.Mentions (v : Variable) : Constraint → Prop
  | relation {r : Relation} : r.Mentions v → Constraint.Mentions v (.relation r)
  | window {windows : List Constraint} {c : Constraint} : c ∈ windows →
      Constraint.Mentions v c → Constraint.Mentions v (.slide windows)

inductive Target.Mentions (v : Variable) : Target → Prop
  | expression {e : Expr} : e.Mentions v → Target.Mentions v (.expression e)
  | aggregate {f : Aggregate Expr} : f.Mentions v → Target.Mentions v (.aggregate f)

/-- The handle stands in something handed over at any depth. -/
inductive Item.Mentions (v : Variable) : Item → Prop
  | constraint {c : Constraint} : c.Mentions v → Item.Mentions v (.constraint c)
  | expression {e : Expr} : e.Mentions v → Item.Mentions v (.expression e)
  | aggregate {f : Aggregate Expr} : f.Mentions v → Item.Mentions v (.aggregate f)
  | list {items : List Item} {item : Item} : item ∈ items → Item.Mentions v item →
      Item.Mentions v (.list items)

/-- The handle stands in an argument of the change. -/
inductive Change.Mentions (v : Variable) : Change → Prop
  | post {item : Item} {decoration : Decoration} : item.Mentions v →
      Change.Mentions v (.post item decoration)
  | optimize {direction : Direction} {target : Target} : target.Mentions v →
      Change.Mentions v (.optimize direction target)
  | annotateDecision {list : List Variable} : v ∈ list →
      Change.Mentions v (.annotateDecision list)
  | annotateValueHeuristic {list : List Variable} {values : List Int} : v ∈ list →
      Change.Mentions v (.annotateValueHeuristic list values)

/-- The handle stands in an entry of the model, in its objective or in its annotations. -/
inductive Model.Mentions (m : Model) (v : Variable) : Prop
  | entry {p : Posting} {c : Constraint} : p ∈ m.postings → c ∈ p.body.constraints →
      c.Mentions v → Model.Mentions m v
  | objective {o : Objective} : m.objective = some o → o.target.Mentions v →
      Model.Mentions m v
  | decision {list : List Variable} : m.annotations.decision = some list → v ∈ list →
      Model.Mentions m v
  | valueHeuristic {list : List Variable} {values : List Int} :
      m.annotations.valueHeuristic = some (list, values) → v ∈ list → Model.Mentions m v

/-! ### The collecting functions miss no position -/

theorem Aggregate.mentions_iff_operand {f : Aggregate Expr} :
    f.Mentions v ↔ ∃ e ∈ f.operands, e.Mentions v := by
  constructor
  · intro h
    cases h with
    | term he h | counted he h | distinct he h | least he h | greatest he h =>
      exact ⟨_, he, h⟩
    | entry he h => exact ⟨_, List.mem_append_left _ he, h⟩
    | index h => exact ⟨_, List.mem_append_right _ (List.mem_singleton_self _), h⟩
  · rintro ⟨e, he, h⟩
    cases f with
    | sum => exact .term he h
    | count => exact .counted he h
    | nValues => exact .distinct he h
    | minimum => exact .least he h
    | maximum => exact .greatest he h
    | element =>
      rcases List.mem_append.mp he with he | he
      · exact .entry he h
      · rw [List.mem_singleton.mp he] at h
        exact .index h

theorem Expr.mentions_iff {e : Expr} : e.Mentions v ↔ v ∈ e.occurrences := by
  induction e using Expr.induction with
  | const n => exact ⟨fun h => (nomatch h), fun h => nomatch h⟩
  | set members => exact ⟨fun h => (nomatch h), fun h => nomatch h⟩
  | var w =>
    rw [occurrences, List.mem_singleton]
    constructor
    · rintro ⟨⟩
      rfl
    · rintro rfl
      exact .var
  | apply op operands ih =>
    rw [occurrences, occurrencesIn_eq_flatMap, List.mem_flatMap]
    constructor
    · rintro (_ | ⟨he, h⟩)
      exact ⟨_, he, (ih _ he).mp h⟩
    · rintro ⟨e, he, h⟩
      exact .operand he ((ih e he).mpr h)
  | aggregate f ih =>
    rw [occurrences, occurrencesOf_eq_flatMap, List.mem_flatMap]
    constructor
    · rintro (_ | _ | h)
      obtain ⟨e, he, h⟩ := Aggregate.mentions_iff_operand.mp h
      exact ⟨e, he, (ih e he).mp h⟩
    · rintro ⟨e, he, h⟩
      exact .aggregate (Aggregate.mentions_iff_operand.mpr ⟨e, he, (ih e he).mpr h⟩)

theorem Condition.mentions_iff {c : Condition} :
    c.Mentions v ↔ ∃ e ∈ c.expressions, e.Mentions v := by
  constructor
  · rintro ⟨h⟩
    exact ⟨_, List.mem_singleton_self _, h⟩
  · rintro ⟨e, he, h⟩
    obtain ⟨comparison, operand⟩ := c
    cases operand with
    | expression e' =>
      rw [List.mem_singleton.mp he] at h
      exact .expression h
    | range | set => cases he

/-- A list of variables holds a handle when one of its entries as an expression does. -/
theorem mem_iff_mentions {list : List Variable} :
    v ∈ list ↔ ∃ e ∈ list.map Expr.var, e.Mentions v := by
  simp [Expr.mentions_iff, Expr.occurrences]

theorem ChannelTarget.mentions_iff {t : ChannelTarget} :
    t.Mentions v ↔ ∃ e ∈ Relation.targetExpressions t, e.Mentions v := by
  cases t with
  | itself =>
    constructor
    · intro h
      cases h
    · rintro ⟨e, he, _⟩
      cases he
  | list list startIndex =>
    rw [Relation.targetExpressions, ← mem_iff_mentions]
    constructor
    · intro h
      cases h with
      | list h => exact h
    · exact .list
  | value e =>
    simp only [Relation.targetExpressions, List.mem_singleton, exists_eq_left]
    constructor
    · intro h
      cases h with
      | value h => exact h
    · exact .value

theorem Occurrence.mentions_iff {occurs : List Occurrence} :
    (∃ o ∈ occurs, o.Mentions v) ↔
      ∃ e ∈ occurs.filterMap Relation.occurrenceExpr?, e.Mentions v := by
  constructor
  · rintro ⟨_, ho, ⟨h⟩⟩
    exact ⟨_, List.mem_filterMap.mpr ⟨_, ho, rfl⟩, h⟩
  · rintro ⟨e, he, h⟩
    obtain ⟨o, ho, heq⟩ := List.mem_filterMap.mp he
    cases o with
    | exactly e' =>
      cases heq
      exact ⟨_, ho, .exactly h⟩
    | between => cases heq

/-- The expressions of a relation are all it is stated over. -/
theorem Relation.mentions_iff {r : Relation} :
    r.Mentions v ↔ ∃ e ∈ r.expressions, e.Mentions v := by
  constructor
  · intro h
    cases h with
    | intension h => exact ⟨_, List.mem_singleton_self _, h⟩
    | extension he h | allDifferent he h | allEqual he h | ordered he h | circuit he h
    | regular he h | mdd he h | precedence he h => exact ⟨_, he, h⟩
    | function h =>
      obtain ⟨e, he, h⟩ := Aggregate.mentions_iff_operand.mp h
      exact ⟨e, List.mem_append_left _ he, h⟩
    | condition h | limit h =>
      obtain ⟨e, he, h⟩ := Condition.mentions_iff.mp h
      exact ⟨e, List.mem_append_right _ he, h⟩
    | origin he h => exact ⟨_, List.mem_append_left _ he, h⟩
    | length he h => exact ⟨_, List.mem_append_right _ he, h⟩
    | task he h =>
      refine ⟨_, List.mem_append_left _ ?_, h⟩
      simpa only [List.mem_append, or_assoc] using he
    | instantiation hv => exact mem_iff_mentions.mp hv
    | lex hlist he h => exact ⟨_, List.mem_flatten.mpr ⟨_, hlist, he⟩, h⟩
    | channel hv =>
      obtain ⟨e, he, h⟩ := mem_iff_mentions.mp hv
      exact ⟨e, List.mem_append_left _ he, h⟩
    | channelTarget h =>
      obtain ⟨e, he, h⟩ := ChannelTarget.mentions_iff.mp h
      exact ⟨e, List.mem_append_right _ he, h⟩
    | cardinality he h => exact ⟨_, List.mem_append_left _ (List.mem_append.mpr he), h⟩
    | occurrence ho h =>
      obtain ⟨e, he, h⟩ := Occurrence.mentions_iff.mp ⟨_, ho, h⟩
      exact ⟨e, List.mem_append_right _ he, h⟩
    | clause hliteral heq =>
      refine ⟨_, List.mem_map_of_mem hliteral, Expr.mentions_iff.mpr ?_⟩
      rw [Expr.occurrences, heq]
      exact List.mem_singleton_self v
  · rintro ⟨e, he, h⟩
    cases r with
    | intension predicate =>
      rw [List.mem_singleton.mp he] at h
      exact .intension h
    | extension => exact .extension he h
    | allDifferent => exact .allDifferent he h
    | allEqual => exact .allEqual he h
    | ordered => exact .ordered he h
    | circuit => exact .circuit he h
    | regular => exact .regular he h
    | mdd => exact .mdd he h
    | precedence => exact .precedence he h
    | conditional f condition =>
      rcases List.mem_append.mp he with he | he
      · exact .function (Aggregate.mentions_iff_operand.mpr ⟨e, he, h⟩)
      · exact .condition (Condition.mentions_iff.mpr ⟨e, he, h⟩)
    | noOverlap origins lengths zeroIgnored =>
      rcases List.mem_append.mp he with he | he
      · exact .origin he h
      · exact .length he h
    | cumulative origins lengths heights condition =>
      rcases List.mem_append.mp he with he | he
      · exact .task (by simpa only [List.mem_append, or_assoc] using he) h
      · exact .limit (Condition.mentions_iff.mpr ⟨e, he, h⟩)
    | instantiation => exact .instantiation (mem_iff_mentions.mpr ⟨e, he, h⟩)
    | lex lists operator =>
      obtain ⟨list, hlist, he⟩ := List.mem_flatten.mp he
      exact .lex hlist he h
    | channel list startIndex target =>
      rcases List.mem_append.mp he with he | he
      · exact .channel (mem_iff_mentions.mpr ⟨e, he, h⟩)
      · exact .channelTarget (ChannelTarget.mentions_iff.mpr ⟨e, he, h⟩)
    | cardinality list values occurs closed =>
      rcases List.mem_append.mp he with he | he
      · exact .cardinality (List.mem_append.mp he) h
      · obtain ⟨o, ho, h⟩ := Occurrence.mentions_iff.mpr ⟨e, he, h⟩
        exact .occurrence ho h
    | clause literals =>
      obtain ⟨literal, hliteral, rfl⟩ := List.mem_map.mp he
      exact .clause hliteral (List.mem_singleton.mp (Expr.mentions_iff.mp h)).symm

mutual
/-- A handle stands in a constraint when it stands in one of its relations. -/
theorem Constraint.mentions_iff_relation : (c : Constraint) →
    (c.Mentions v ↔ ∃ r ∈ c.relations, r.Mentions v)
  | .relation r => by
    rw [relations]
    simp only [List.mem_singleton, exists_eq_left]
    exact ⟨fun | .relation h => h, .relation⟩
  | .slide windows => by
    rw [relations, ← mentions_iff_relationsOf windows]
    exact ⟨fun | .window hc h => ⟨_, hc, h⟩, fun ⟨_, hc, h⟩ => .window hc h⟩

theorem Constraint.mentions_iff_relationsOf : (list : List Constraint) →
    ((∃ c ∈ list, c.Mentions v) ↔ ∃ r ∈ relationsOf list, r.Mentions v)
  | [] => by simp [relationsOf]
  | c :: rest => by
    simp only [relationsOf, List.mem_cons, List.mem_append, or_and_right,
      exists_or, exists_eq_left, mentions_iff_relation c, mentions_iff_relationsOf rest]
end

/-- The scope of a constraint holds every handle that stands anywhere in it. -/
theorem Constraint.mentions_iff {c : Constraint} : c.Mentions v ↔ v ∈ c.scope := by
  rw [mentions_iff_relation, mem_scope]
  simp only [Relation.mentions_iff, Expr.mentions_iff]

theorem Target.mentions_iff {t : Target} : t.Mentions v ↔ v ∈ t.scope := by
  rw [scope, Expr.scope, List.mem_eraseDups, ← Expr.mentions_iff]
  cases t with
  | expression e => exact ⟨fun | .expression h => h, .expression⟩
  | aggregate f => exact ⟨fun | .aggregate h => .aggregate h, fun | .aggregate h => .aggregate h⟩

theorem Constraint.mentions_intension {e : Expr} {c : Constraint} (h : intension e = .ok c) :
    c.Mentions v ↔ e.Mentions v := by
  obtain ⟨-, rfl⟩ := intension_eq_ok.mp h
  exact ⟨fun | .relation (.intension h) => h, fun h => .relation (.intension h)⟩

mutual
/-- A handle stands in an item when it stands in a constraint of the item. -/
theorem Item.mentions_iff : (item : Item) → {constraints : List Constraint} →
    item.flatten = .ok constraints → (item.Mentions v ↔ ∃ c ∈ constraints, c.Mentions v)
  | .constraint c, constraints, h => by
    cases h
    simp only [List.mem_singleton, exists_eq_left]
    exact ⟨fun | .constraint h => h, .constraint⟩
  | .expression e, constraints, h => by
    obtain ⟨c, hc, rfl⟩ := Except.map_eq_ok.mp h
    simp only [List.mem_singleton, exists_eq_left, Constraint.mentions_intension hc]
    exact ⟨fun | .expression h => h, .expression⟩
  | .aggregate f, constraints, h => nomatch h
  | .list items, constraints, h => by
    rw [← mentions_iff_flattenAll items h]
    exact ⟨fun | .list hitem h => ⟨_, hitem, h⟩, fun ⟨_, hitem, h⟩ => .list hitem h⟩

theorem Item.mentions_iff_flattenAll : (items : List Item) → {constraints : List Constraint} →
    flattenAll items = .ok constraints →
      ((∃ item ∈ items, item.Mentions v) ↔ ∃ c ∈ constraints, c.Mentions v)
  | [], constraints, h => by
    cases h
    simp
  | item :: rest, constraints, h => by
    obtain ⟨here, hhere, h⟩ := Except.bind_eq_ok.mp h
    obtain ⟨later, hlater, rfl⟩ := Except.map_eq_ok.mp h
    simp only [List.mem_cons, List.mem_append, or_and_right, exists_or, exists_eq_left,
      mentions_iff item hhere, mentions_iff_flattenAll rest hlater]
end

end CspModel
