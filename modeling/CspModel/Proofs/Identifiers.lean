import CspModel.Proofs.Scope
import CspModel.Proofs.VariablesSection

/-! # Identifiers in documents

An `id` or an `as` has to hold an identifier, and a writer refuses a tree in which one does
not.  The tree is searched in the order of the document (`Element.invalid?_eq`), and all of it
before the first piece is written, so a tree that is refused leaves the sink as it is
(`Writing.on_document`).

Of a document only the variables section has such attributes.  There they hold the names that
declarations claim, and these are identifiers: a cell, whose name has brackets, is never called
by an element of its own, and is never what an `as` refers to, since only variables standing
alone carry a domain for others (`Document.identified_aloneElement`).  The layouts of
constraints have other attributes only, and folding, rows and labels add none of the two.  So
the document of a model is never refused (`Introduced.identified_document`).
-/
namespace CspModel

namespace Element

/-! ### The attributes of a tree -/

mutual
/-- The attributes of an element and of all that is in it, in the order of the document. -/
def attributesWithin : Element → List (String × String)
  | ⟨_, attributes, _, children⟩ => attributes ++ attributesWithinAll children

/-- The attributes of several elements. -/
def attributesWithinAll : List Element → List (String × String)
  | [] => []
  | e :: rest => attributesWithin e ++ attributesWithinAll rest
end

/-- Whether an attribute should hold an identifier and does not. -/
def Misused (a : String × String) : Prop :=
  holdsIdentifier a.1 = true ∧ Text.isIdentifier a.2 = false

instance (a : String × String) : Decidable (Misused a) :=
  inferInstanceAs (Decidable (_ ∧ _))

/-- Whether everything that should be an identifier is one. -/
def Identified (e : Element) : Prop := ∀ a ∈ e.attributesWithin, ¬ Misused a

theorem attributesWithin_eq (e : Element) :
    e.attributesWithin = e.attributes ++ attributesWithinAll e.children := by
  obtain ⟨_, _, _, _⟩ := e
  rfl

theorem mem_attributesWithinAll {es : List Element} {a : String × String} :
    a ∈ attributesWithinAll es ↔ ∃ e ∈ es, a ∈ e.attributesWithin := by
  induction es with
  | nil => simp [attributesWithinAll]
  | cons e rest ih => simp [attributesWithinAll, ih]

theorem identified_iff {e : Element} :
    e.Identified ↔ (∀ a ∈ e.attributes, ¬ Misused a) ∧ ∀ child ∈ e.children, child.Identified := by
  unfold Identified
  rw [attributesWithin_eq, List.forall_mem_append]
  refine and_congr_right fun _ => ⟨fun h child hchild a ha => ?_, fun h a ha => ?_⟩
  · exact h a (mem_attributesWithinAll.mpr ⟨child, hchild, ha⟩)
  · obtain ⟨child, hchild, ha⟩ := mem_attributesWithinAll.mp ha
    exact h child hchild a ha

/-! ### The first attribute that is refused -/

theorem invalidAttribute?_append (as bs : List (String × String)) :
    invalidAttribute? (as ++ bs) = (invalidAttribute? as).or (invalidAttribute? bs) := by
  unfold invalidAttribute?
  rw [List.find?_append, Option.map_or]

mutual
/-- The tree is searched in the order of the document. -/
theorem invalid?_eq : (e : Element) → e.invalid? = invalidAttribute? e.attributesWithin
  | ⟨_, attributes, _, children⟩ => by
    rw [attributesWithin, invalidAttribute?_append, ← invalidIn?_eq children, invalid?]
    cases invalidAttribute? attributes <;> rfl

theorem invalidIn?_eq : (es : List Element) →
    invalidIn? es = invalidAttribute? (attributesWithinAll es)
  | [] => rfl
  | e :: rest => by
    rw [attributesWithinAll, invalidAttribute?_append, ← invalid?_eq e, ← invalidIn?_eq rest,
      invalidIn?]
    cases e.invalid? <;> rfl
end

theorem invalidAttribute?_eq_find? (as : List (String × String)) :
    invalidAttribute? as = (as.find? fun a => Misused a).map fun a => ⟨a.1, a.2⟩ := by
  unfold invalidAttribute?
  congr 2
  funext a
  rw [Bool.eq_iff_iff, decide_eq_true_iff, Bool.and_eq_true, Bool.not_eq_true']
  rfl

/-- What is found is the first attribute that should hold an identifier and does not. -/
theorem invalidAttribute?_eq_some_iff {as : List (String × String)} {key value : String} :
    invalidAttribute? as = some ⟨key, value⟩ ↔ ∃ before after,
      as = before ++ (key, value) :: after ∧ Misused (key, value) ∧
        ∀ a ∈ before, ¬ Misused a := by
  rw [invalidAttribute?_eq_find?, Option.map_eq_some_iff]
  constructor
  · rintro ⟨⟨_, _⟩, hfind, heq⟩
    cases heq
    obtain ⟨ha, before, after, rfl, hbefore⟩ := List.find?_eq_some_iff_append.mp hfind
    exact ⟨before, after, rfl, of_decide_eq_true ha, by simpa using hbefore⟩
  · rintro ⟨before, after, rfl, ha, hbefore⟩
    exact ⟨(key, value), List.find?_eq_some_iff_append.mpr
      ⟨decide_eq_true ha, before, after, rfl, by simpa using hbefore⟩, rfl⟩

theorem invalidAttribute?_eq_none_iff {as : List (String × String)} :
    invalidAttribute? as = none ↔ ∀ a ∈ as, ¬ Misused a := by
  rw [invalidAttribute?_eq_find?, Option.map_eq_none_iff, List.find?_eq_none]
  simp only [decide_eq_true_iff]

theorem write_eq_error_iff {e : Element} {found : InvalidIdentifier} :
    e.write = .error found ↔ e.invalid? = some found := by
  unfold write
  cases e.invalid? with
  | none => simp
  | some => simp

theorem write_eq_ok_iff {e : Element} {text : String} :
    e.write = .ok text ↔ e.Identified ∧ text = e.render 0 := by
  unfold Identified write
  rw [← invalidAttribute?_eq_none_iff, ← invalid?_eq]
  cases e.invalid? with
  | none => simp [eq_comm]
  | some => simp

end Element

/-! ### Writing step by step -/

/-- A program over a sink.  What is written before an error stays written. -/
abbrev Writing := ExceptT InvalidIdentifier (StateM String)

namespace Writing

open Element

variable {α β : Type}

/-- Runs a program: how it ends, and what the sink holds then. -/
def on (x : Writing α) (sink : String) : Except InvalidIdentifier α × String := x.run.run sink

@[simp] theorem on_pure (a : α) (sink : String) : (pure a : Writing α).on sink = (.ok a, sink) :=
  rfl

@[simp] theorem on_bind (x : Writing α) (f : α → Writing β) (sink : String) :
    (x >>= f).on sink = match x.on sink with
      | (.ok a, sink) => (f a).on sink
      | (.error found, sink) => (.error found, sink) := by
  show (ExceptT.bindCont f (x.on sink).1).run (x.on sink).2 = _
  rcases x.on sink with ⟨_ | _, _⟩ <;> rfl

/-- Appends a text to the sink. -/
def put (text : String) : Writing Unit := modify (· ++ text)

/-- Refuses the first attribute that should hold an identifier and does not. -/
def checkAttributes : List (String × String) → Writing Unit
  | [] => pure ()
  | (key, value) :: rest =>
    if Misused (key, value) then throw ⟨key, value⟩ else checkAttributes rest

mutual
/-- Checks an element and then its children. -/
def check : Element → Writing Unit
  | ⟨_, attributes, _, children⟩ => do
    checkAttributes attributes
    checkAll children

def checkAll : List Element → Writing Unit
  | [] => pure ()
  | e :: rest => do
    check e
    checkAll rest
end

def putAttributes : List (String × String) → Writing Unit
  | [] => pure ()
  | (key, value) :: rest => do
    put (" " ++ key ++ "=\"" ++ escape true value ++ "\"")
    putAttributes rest

def putText : Option String → Writing Unit
  | none => pure ()
  | some text => put (" " ++ escape false text ++ " ")

mutual
/-- Writes an element piece by piece. -/
def putElement (depth : Nat) : Element → Writing Unit
  | ⟨name, attributes, text, children⟩ => do
    put (indentation depth ++ "<" ++ name)
    putAttributes attributes
    if text.isNone && children.isEmpty then put "/>\n"
    else do
      put ">"
      putText text
      if children.isEmpty then put ("</" ++ name ++ ">\n")
      else do
        put "\n"
        putAll (depth + 1) children
        put (indentation depth ++ "</" ++ name ++ ">\n")

def putAll (depth : Nat) : List Element → Writing Unit
  | [] => pure ()
  | e :: rest => do
    putElement depth e
    putAll depth rest
end

/-- Writes a document: everything is checked before the first piece is written. -/
def document (e : Element) : Writing Unit := do
  check e
  putElement 0 e

/-! What the programs do -/

/-- A check leaves the sink as it is and ends with what is found. -/
def outcome : Option InvalidIdentifier → Except InvalidIdentifier Unit
  | some found => .error found
  | none => .ok ()

theorem on_checkAttributes (as : List (String × String)) (sink : String) :
    (checkAttributes as).on sink = (outcome (invalidAttribute? as), sink) := by
  induction as with
  | nil => rfl
  | cons a rest ih =>
    obtain ⟨key, value⟩ := a
    rw [checkAttributes, invalidAttribute?_eq_find?, List.find?_cons]
    split
    · rename_i h
      rw [decide_eq_true h]
      rfl
    · rename_i h
      rw [decide_eq_false h]
      rw [ih, invalidAttribute?_eq_find?]

mutual
theorem on_check (sink : String) : (e : Element) → (check e).on sink = (outcome e.invalid?, sink)
  | ⟨_, attributes, _, children⟩ => by
    rw [check, on_bind, on_checkAttributes, invalid?]
    cases invalidAttribute? attributes with
    | some found => rfl
    | none => exact on_checkAll sink children

theorem on_checkAll (sink : String) : (es : List Element) →
    (checkAll es).on sink = (outcome (invalidIn? es), sink)
  | [] => rfl
  | e :: rest => by
    rw [checkAll, on_bind, on_check sink e, invalidIn?]
    cases e.invalid? with
    | some found => rfl
    | none => exact on_checkAll sink rest
end

/-- Whether a program does nothing but append a text. -/
def Appends (x : Writing Unit) (text : String) : Prop :=
  ∀ sink, x.on sink = (.ok (), sink ++ text)

theorem appends_pure : Appends (pure ()) "" := fun sink => by
  rw [String.append_empty]
  rfl

theorem appends_put (text : String) : Appends (put text) text := fun _ => rfl

theorem Appends.bind {x y : Writing Unit} {text text' : String} (hx : Appends x text)
    (hy : Appends y text') : Appends (do x; y) (text ++ text') := fun sink => by
  rw [on_bind, hx sink]
  exact (hy _).trans (by rw [String.append_assoc])

theorem appends_putAttributes (as : List (String × String)) :
    Appends (putAttributes as) (attributesText as) := by
  induction as with
  | nil => exact appends_pure
  | cons a rest ih =>
    rw [attributesText, List.map_cons, String.join_cons]
    exact (appends_put _).bind ih

theorem appends_putText : (text : Option String) → Appends (putText text) (paddedText text)
  | none => appends_pure
  | some _ => appends_put _

theorem Appends.of_eq {x : Writing Unit} {text text' : String} (h : Appends x text)
    (heq : text = text') : Appends x text' :=
  heq ▸ h

mutual
/-- The pieces of an element, one after the other, are its text. -/
theorem appends_putElement (depth : Nat) : (e : Element) →
    Appends (putElement depth e) (e.render depth)
  | ⟨name, attributes, none, []⟩ =>
    ((appends_put _).bind ((appends_putAttributes attributes).bind (appends_put _))).of_eq
      (by simp only [render, String.append_assoc])
  | ⟨name, attributes, some text, []⟩ =>
    ((appends_put _).bind ((appends_putAttributes attributes).bind ((appends_put _).bind
      ((appends_putText (some text)).bind (appends_put _))))).of_eq
      (by simp only [render, String.append_assoc])
  | ⟨name, attributes, text, first :: rest⟩ => by
    have hchildren := appends_putAll (depth + 1) (first :: rest)
    have hcontent := (appends_put ">").bind ((appends_putText text).bind ((appends_put "\n").bind
      (hchildren.bind (appends_put (indentation depth ++ "</" ++ name ++ ">\n")))))
    rw [putElement, List.isEmpty_cons, Bool.and_false]
    exact ((appends_put _).bind ((appends_putAttributes attributes).bind hcontent)).of_eq
      (by simp only [render, renderAll, String.append_assoc])

theorem appends_putAll (depth : Nat) : (es : List Element) →
    Appends (putAll depth es) (renderAll depth es)
  | [] => appends_pure
  | e :: rest => (appends_putElement depth e).bind (appends_putAll depth rest)
end

/-- A document that is refused leaves the sink as it is, any other appends its text. -/
theorem on_document (e : Element) (sink : String) :
    (document e).on sink = match e.write with
      | .error found => (.error found, sink)
      | .ok text => (.ok (), sink ++ text) := by
  rw [document, on_bind, on_check, write]
  cases e.invalid? with
  | some found => rfl
  | none => exact appends_putElement 0 e sink

end Writing

/-! ### Elements put together -/

namespace Element

theorem of_mem_setAttribute {key value : String} {as : List (String × String)}
    {a : String × String} (h : a ∈ setAttribute key value as) : a ∈ as ∨ a = (key, value) := by
  induction as with
  | nil => exact .inr (List.mem_singleton.mp h)
  | cons b rest ih =>
    obtain ⟨k, v⟩ := b
    rw [setAttribute] at h
    split at h
    · rename_i hk
      rcases List.mem_cons.mp h with rfl | h
      · exact .inr (hk ▸ rfl)
      · exact .inl (List.mem_cons_of_mem _ h)
    · rcases List.mem_cons.mp h with rfl | h
      · exact .inl List.mem_cons_self
      · exact (ih h).imp_left (List.mem_cons_of_mem _)

/-- Whether no attribute has to hold an identifier. -/
def Bare (as : List (String × String)) : Prop := ∀ a ∈ as, holdsIdentifier a.1 = false

theorem bare_nil : Bare [] := fun _ h => nomatch h

theorem bare_singleton {key : String} (h : holdsIdentifier key = false)
    (value : String) : Bare [(key, value)] :=
  List.forall_mem_singleton.mpr h

theorem not_misused_of_bare {key : String} (h : holdsIdentifier key = false) (value : String) :
    ¬ Misused (key, value) := fun hm => by
  rw [hm.1] at h
  cases h

theorem not_misused_of_identifier {value : String} (h : Text.isIdentifier value = true)
    (key : String) : ¬ Misused (key, value) := fun hm => by
  rw [hm.2] at h
  cases h

namespace Identified

theorem of_name (name : String) : Identified { name } :=
  fun _ h => nomatch h

variable {e : Element}

theorem withKey (h : e.Identified) {key value : String} (ha : ¬ Misused (key, value)) :
    (e.withKey key value).Identified := by
  obtain ⟨hown, hchildren⟩ := identified_iff.mp h
  refine identified_iff.mpr ⟨fun a hmem => ?_, hchildren⟩
  rcases of_mem_setAttribute hmem with hmem | rfl
  · exact hown a hmem
  · exact ha

theorem withAttributes {as : List (String × String)} (h : e.Identified) (has : Bare as) :
    (e.withAttributes as).Identified := by
  unfold Element.withAttributes
  induction as generalizing e with
  | nil => exact h
  | cons a rest ih =>
    obtain ⟨ha, hrest⟩ := List.forall_mem_cons.mp has
    exact ih (h.withKey (not_misused_of_bare ha _)) hrest

theorem withText (h : e.Identified) (text : String) : (e.withText text).Identified :=
  identified_iff.mpr ⟨(identified_iff.mp h).1, (identified_iff.mp h).2⟩

theorem withChildren (h : e.Identified) {es : List Element} (hes : ∀ e' ∈ es, e'.Identified) :
    (e.withChildren es).Identified :=
  identified_iff.mpr ⟨(identified_iff.mp h).1,
    List.forall_mem_append.mpr ⟨(identified_iff.mp h).2, hes⟩⟩

theorem withChild (h : e.Identified) {child : Element} (hchild : child.Identified) :
    (e.withChild child).Identified :=
  h.withChildren (List.forall_mem_singleton.mpr hchild)

end Identified
end Element

/-! ### Layouts without identifiers -/

open Element (Bare bare_nil bare_singleton)

/-- Whether no attribute of a layout has to hold an identifier. -/
structure Layout.Anonymous (layout : Layout) : Prop where
  own : Bare layout.attributes
  arguments : ∀ a ∈ layout.arguments, Bare a.attributes

mutual
/-- Whether no attribute of the layouts of an entry has to hold an identifier. -/
def Written.Anonymous : Written → Prop
  | .constraint layout _ => layout.Anonymous
  | .group template _ _ => template.Anonymous
  | .slide _ _ _ template _ => template.Anonymous
  | .equalities _ _ _ => True
  | .block entries _ => Written.AnonymousAll entries

def Written.AnonymousAll : List Written → Prop
  | [] => True
  | w :: rest => w.Anonymous ∧ Written.AnonymousAll rest
end

theorem Written.anonymousAll_iff {entries : List Written} :
    AnonymousAll entries ↔ ∀ w ∈ entries, w.Anonymous := by
  induction entries with
  | nil => simp [AnonymousAll]
  | cons w rest ih => rw [AnonymousAll, ih, List.forall_mem_cons]

theorem Argument.bare_withAttribute {a : Argument} (h : Bare a.attributes) (isDefault : Bool)
    {key : String} (hkey : Element.holdsIdentifier key = false) (value : String) :
    Bare (a.withAttribute isDefault key value).attributes := by
  unfold withAttribute
  split
  · exact h
  · exact List.forall_mem_append.mpr ⟨h, bare_singleton hkey value⟩

theorem Argument.bare_startingAt {a : Argument} (h : Bare a.attributes) (startIndex : Int) :
    Bare (a.startingAt startIndex).attributes :=
  bare_withAttribute h _ (by decide) _

namespace Layout

theorem bare_ofSome (name : String) (values : List Int) :
    ∀ a ∈ Argument.ofSome name values, Bare a.attributes := by
  unfold Argument.ofSome
  split
  · exact fun _ h => nomatch h
  · exact List.forall_mem_singleton.mpr bare_nil

theorem bare_ofCoefficients (coefficients : Option (List Int)) :
    ∀ a ∈ Argument.ofCoefficients coefficients, Bare a.attributes := by
  cases coefficients with
  | none => exact fun _ h => nomatch h
  | some values => exact List.forall_mem_singleton.mpr bare_nil

theorem anonymous_ofRelation (r : Relation) : (ofRelation r).Anonymous := by
  have hlast : ∀ {a : Argument}, Bare a.attributes → ∀ b ∈ [a], Bare b.attributes :=
    fun ha => List.forall_mem_singleton.mpr ha
  have hcons : ∀ {a : Argument} {rest : List Argument}, Bare a.attributes →
      (∀ b ∈ rest, Bare b.attributes) → ∀ b ∈ a :: rest, Bare b.attributes :=
    fun ha hrest => List.forall_mem_cons.mpr ⟨ha, hrest⟩
  cases r with
  | intension | allEqual | clause => exact ⟨bare_nil, hlast bare_nil⟩
  | extension | ordered | instantiation | mdd =>
    exact ⟨bare_nil, hcons bare_nil (hlast bare_nil)⟩
  | allDifferent list except => exact ⟨bare_nil, hcons bare_nil (bare_ofSome _ except)⟩
  | conditional function condition =>
    refine ⟨bare_nil, List.forall_mem_append.mpr ⟨?_, hlast ?_⟩⟩
    · cases function with
      | sum terms coefficients => exact hcons bare_nil (bare_ofCoefficients coefficients)
      | count => exact hcons bare_nil (hlast bare_nil)
      | nValues list except => exact hcons bare_nil (bare_ofSome _ except)
      | minimum | maximum => exact hlast bare_nil
      | element list index startIndex =>
        exact hcons (Argument.bare_startingAt bare_nil startIndex) (hlast bare_nil)
    · cases function with
      | element =>
        show Bare (Argument.ofElementCondition condition).attributes
        unfold Argument.ofElementCondition
        split <;> exact bare_nil
      | _ => exact bare_nil
  | circuit list startIndex =>
    exact ⟨bare_nil, hlast (Argument.bare_startingAt bare_nil startIndex)⟩
  | noOverlap origins lengths zeroIgnored =>
    refine ⟨?_, hcons bare_nil (hlast bare_nil)⟩
    show Bare (if zeroIgnored then [] else _)
    split
    · exact bare_nil
    · exact bare_singleton (by decide) _
  | cumulative =>
    exact ⟨bare_nil, hcons bare_nil (hcons bare_nil (hcons bare_nil (hlast bare_nil)))⟩
  | lex lists operator =>
    refine ⟨bare_nil, List.forall_mem_append.mpr ⟨?_, hlast bare_nil⟩⟩
    exact List.forall_mem_map.mpr fun _ _ => bare_nil
  | channel list startIndex target =>
    refine ⟨bare_nil, hcons (Argument.bare_startingAt bare_nil startIndex) ?_⟩
    cases target with
    | itself => exact fun _ h => nomatch h
    | list _ startIndex => exact hlast (Argument.bare_startingAt bare_nil startIndex)
    | value => exact hlast bare_nil
  | cardinality list values occurs closed =>
    exact ⟨bare_nil, hcons bare_nil (hcons
      (Argument.bare_withAttribute bare_nil _ (by decide) _) (hlast bare_nil))⟩
  | regular =>
    exact ⟨bare_nil, hcons bare_nil (hcons bare_nil (hcons bare_nil (hlast bare_nil)))⟩
  | precedence list values covered =>
    exact ⟨bare_nil, hcons bare_nil (List.forall_mem_map.mpr fun a ha =>
      Argument.bare_withAttribute (bare_ofSome _ values a ha) _ (by decide) _)⟩

theorem anonymous_ofObjective (f : Aggregate Expr) : (ofObjective f).Anonymous := by
  cases f with
  | sum terms coefficients =>
    exact ⟨bare_nil, List.forall_mem_cons.mpr ⟨bare_nil, bare_ofCoefficients coefficients⟩⟩
  | _ => exact ⟨bare_nil, List.forall_mem_singleton.mpr bare_nil⟩

theorem anonymous_equalities (list values : List Parameter) :
    (Written.equalitiesLayout list values).Anonymous :=
  ⟨bare_nil, List.forall_mem_cons.mpr ⟨bare_nil, List.forall_mem_singleton.mpr bare_nil⟩⟩

end Layout

/-! ### Folding, rows and notes -/

theorem bare_placeholdersFrom (numbered : Bool) (positions : List Nat) (number p : Nat)
    {as : List Argument} (h : ∀ a ∈ as, Bare a.attributes) :
    ∀ a ∈ placeholdersFrom numbered positions number (as.zipIdx p),
      Bare a.attributes := by
  induction as generalizing number p with
  | nil => exact fun _ h => nomatch h
  | cons a rest ih =>
    obtain ⟨ha, hrest⟩ := List.forall_mem_cons.mp h
    rw [List.zipIdx_cons, placeholdersFrom]
    split
    · exact List.forall_mem_cons.mpr ⟨ha, ih _ _ hrest⟩
    · exact List.forall_mem_cons.mpr ⟨ha, ih _ _ hrest⟩

/-- A template has the attributes of the first layout, and that of predicates has none. -/
theorem anonymous_template? {names : Variable → String} {numbered : Bool}
    {relations : List Relation} {template : Layout} {arguments : List (List Parameter)}
    (h : template? names numbered (relations.map (Form.ofRelation names)) =
      some (template, arguments)) : template.Anonymous := by
  cases relations with
  | nil => cases h
  | cons first rest =>
    rcases first.form_eq names with ⟨e, rfl, hform⟩ | hform
    · rw [List.map_cons, hform, template?, predicateTemplate] at h
      dsimp only at h
      split at h
      · cases h
      · obtain ⟨text, -, heq⟩ := Option.map_eq_some_iff.mp h
        cases heq
        exact ⟨bare_nil, List.forall_mem_singleton.mpr bare_nil⟩
    · rw [List.map_cons, hform] at h
      obtain ⟨second, -, h⟩ := Option.bind_eq_some_iff.mp h
      obtain ⟨positions, -, heq⟩ := Option.map_eq_some_iff.mp h
      cases heq
      have hfirst := Layout.anonymous_ofRelation first
      exact ⟨hfirst.own, bare_placeholdersFrom _ _ _ _ hfirst.arguments⟩

namespace Grouping

variable {g : Grouping}

theorem Yields.anonymous {relations : List Relation} {w : Written} (h : g.Yields relations w) :
    w.Anonymous := by
  cases h with
  | alone => exact Layout.anonymous_ofRelation _
  | equalities => trivial
  | group h | slide h _ =>
    obtain ⟨_, _, _, -, -, htemplate⟩ := h
    exact anonymous_template? htemplate

/-- Whatever is posted, no attribute of an entry has to hold an identifier. -/
theorem anonymous_write (postings : List Posting) : ∀ w ∈ g.write postings, w.Anonymous := by
  refine of_mem_write (P := Written.Anonymous) (fun w d h => ?_)
    (fun entries d h => Written.anonymousAll_iff.mpr h) fun p _ w h => h.anonymous
  cases w <;> exact h

end Grouping

theorem Layout.Anonymous.withRows {layout : Layout} (h : layout.Anonymous)
    (rows : List (List RowCell)) : (Rows.withRows layout rows).Anonymous := by
  refine ⟨?_, fun a ha => ?_⟩
  · show Bare (if _ then _ else _)
    split
    · exact List.forall_mem_append.mpr ⟨h.own, bare_singleton (by decide) _⟩
    · exact h.own
  · simp only [Rows.withRows] at ha
    split at ha
    · rename_i list table rest harguments
      have h := h.arguments
      rw [harguments] at h
      rcases List.mem_cons.mp ha with rfl | ha
      · exact h _ List.mem_cons_self
      · rcases List.mem_cons.mp ha with rfl | ha
        · exact h table (List.mem_cons_of_mem _ List.mem_cons_self)
        · exact h a (List.mem_cons_of_mem _ (List.mem_cons_of_mem _ ha))
    · exact h.arguments a ha

theorem Rows.anonymous_materialize {s : Store} {form : TableForm}
    {variablesOf : Parameter → List Variable} {layout layout' : Layout} (h : layout.Anonymous)
    (hlayout : materialize s form variablesOf layout = .ok layout') : layout'.Anonymous := by
  rcases Written.eq_or_eq_withRows_of_materialize hlayout with rfl | ⟨rows, rfl⟩
  · exact h
  · exact h.withRows rows

mutual
theorem Rows.anonymous_ofEntry {s : Store} {form : TableForm} : (w : Written) → {w' : Written} →
    w.Anonymous → ofEntry s form w = .ok w' → w'.Anonymous
  | .constraint layout d, w', h, hw => by
    obtain ⟨layout', hlayout, rfl⟩ := Except.map_eq_ok.mp hw
    have h : layout.Anonymous := h
    exact anonymous_materialize h hlayout
  | .group template arguments d, w', h, hw => by
    obtain ⟨template', htemplate, rfl⟩ := Except.map_eq_ok.mp hw
    have h : template.Anonymous := h
    exact anonymous_materialize h htemplate
  | .slide list offset circular template d, w', h, hw => by
    obtain ⟨template', htemplate, rfl⟩ := Except.map_eq_ok.mp hw
    have h : template.Anonymous := h
    exact anonymous_materialize h htemplate
  | .equalities list values d, w', h, hw => by
    cases hw
    exact h
  | .block entries d, w', h, hw => by
    obtain ⟨entries', hentries, rfl⟩ := Except.map_eq_ok.mp hw
    exact anonymous_ofEntries entries h hentries

theorem Rows.anonymous_ofEntries {s : Store} {form : TableForm} : (entries : List Written) →
    {entries' : List Written} → Written.AnonymousAll entries →
    ofEntries s form entries = .ok entries' → Written.AnonymousAll entries'
  | [], entries', h, hentries => by
    cases hentries
    trivial
  | w :: rest, entries', h, hentries => by
    obtain ⟨w', hw, hentries⟩ := Except.bind_eq_ok.mp hentries
    obtain ⟨rest', hrest, rfl⟩ := Except.map_eq_ok.mp hentries
    exact ⟨anonymous_ofEntry w h.1 hw, anonymous_ofEntries rest h.2 hrest⟩
end

mutual
theorem Written.anonymous_dropNotes : (w : Written) → w.Anonymous → w.dropNotes.Anonymous
  | .constraint _ _, h => h
  | .group _ _ _, h => h
  | .slide _ _ _ _ _, h => h
  | .equalities _ _ _, h => h
  | .block entries _, h => anonymous_dropNotesAll entries h

theorem Written.anonymous_dropNotesAll : (entries : List Written) → AnonymousAll entries →
    AnonymousAll (dropNotesAll entries)
  | [], h => h
  | w :: rest, h => ⟨anonymous_dropNotes w h.1, anonymous_dropNotesAll rest h.2⟩
end

/-! ### The sections of a document -/

namespace Document

open Element (Identified not_misused_of_bare not_misused_of_identifier)

variable (w : ListText)

theorem identified_ofToken (t : Token) : (Element.ofToken t).Identified := .of_name t.text

theorem Identified.withToken {e : Element} (h : e.Identified) (key : Token)
    (hkey : Element.holdsIdentifier key.text = false) (value : String) :
    (e.withAttribute key value).Identified :=
  h.withKey (not_misused_of_bare hkey value)

theorem identified_layoutElement {layout : Layout} (h : layout.Anonymous) :
    (layoutElement w layout).Identified := by
  have hheader := (Element.Identified.of_name layout.name).withAttributes h.own
  unfold layoutElement
  dsimp only
  split
  · exact hheader.withText _
  · refine hheader.withChildren (List.forall_mem_map.mpr fun a ha => ?_)
    exact ((Element.Identified.of_name a.name).withAttributes (h.arguments a ha)).withText _

theorem identified_decorated (d : Decoration) {e : Element} (h : e.Identified) :
    (decorated d e).Identified := by
  have hclasses : (if d.classes.isEmpty then e
      else e.withAttribute .classes (" ".intercalate (d.classes.map Tag.text))).Identified := by
    split
    · exact h
    · exact Identified.withToken h _ (by decide) _
  unfold decorated
  dsimp only
  split
  · exact hclasses
  · exact Identified.withToken hclasses _ (by decide) _

theorem identified_scopeElement (list : List Variable) (offset : Nat) :
    (scopeElement w list offset).Identified := by
  unfold scopeElement
  dsimp only
  split
  · exact (identified_ofToken _).withText _
  · exact Identified.withToken ((identified_ofToken _).withText _) _ (by decide) _

theorem identified_slideElement (circular : Bool) : (slideElement circular).Identified := by
  unfold slideElement
  split
  · exact Identified.withToken (identified_ofToken _) _ (by decide) _
  · exact identified_ofToken _

mutual
theorem identified_entryElement : (entry : Written) → entry.Anonymous →
    (entryElement w entry).Identified
  | .constraint _ d, h => identified_decorated d (identified_layoutElement w h)
  | .group _ _ d, h =>
    identified_decorated d ((identified_ofToken _).withChildren (List.forall_mem_cons.mpr
      ⟨identified_layoutElement w h,
        List.forall_mem_map.mpr fun _ _ => (identified_ofToken _).withText _⟩))
  | .slide list offset circular _ d, h =>
    identified_decorated d ((identified_slideElement circular).withChildren
      (List.forall_mem_cons.mpr ⟨identified_scopeElement w list offset,
        List.forall_mem_singleton.mpr (identified_layoutElement w h)⟩))
  | .equalities list values d, _ =>
    identified_decorated d (identified_layoutElement w (Layout.anonymous_equalities list values))
  | .block entries d, h =>
    identified_decorated d ((identified_ofToken _).withChildren
      (identified_entryElements entries h))

theorem identified_entryElements : (entries : List Written) → Written.AnonymousAll entries →
    ∀ e ∈ entryElements w entries, e.Identified
  | [], _ => fun _ h => nomatch h
  | entry :: rest, h => List.forall_mem_cons.mpr
    ⟨identified_entryElement entry h.1, identified_entryElements rest h.2⟩
end

theorem identified_objectiveElement (objective : Objective) :
    (objectiveElement w objective).Identified := by
  have hheader := Element.Identified.of_name objective.direction.name
  unfold objectiveElement
  dsimp only
  split
  · exact hheader.withText _
  · rename_i f _
    have hlayout := identified_layoutElement w (Layout.anonymous_ofObjective f)
    have htyped := Identified.withToken hheader .kind (by decide) (Layout.ofObjective f).name
    split
    · exact htyped.withText _
    · exact htyped.withChildren (Element.identified_iff.mp hlayout).2

theorem identified_annotationsElement (a : Annotations) :
    (annotationsElement w a).Identified := by
  refine (identified_ofToken _).withChildren (List.forall_mem_append.mpr ⟨?_, ?_⟩)
  · exact List.forall_mem_map.mpr fun _ _ => (identified_ofToken _).withText _
  · refine List.forall_mem_map.mpr fun _ _ => (identified_ofToken _).withChild ?_
    exact (Identified.withToken (identified_ofToken _) _ (by decide) _).withText _

/-! Only declarations set identifiers. -/

section
variable {s : Store}

theorem identified_typed {e : Element} (h : e.Identified) (d : Domain) :
    (typed e d).Identified := by
  unfold typed
  split
  · exact Identified.withToken h _ (by decide) _
  · exact h

/-- Whether the carriers of domains are called by identifiers. -/
def Called (carriers : List (Nat × String)) : Prop :=
  ∀ c ∈ carriers, Text.isIdentifier c.2 = true

/-- A variable is called by its name and refers to a carrier, never to a cell. -/
theorem identified_aloneElement {v : Variable} (hv : s.Declares v)
    (hname : Text.isIdentifier (s.nameOf v) = true) (shareAbove : Nat)
    {carriers : List (Nat × String)} (hcarriers : Called carriers) :
    (aloneElement s shareAbove carriers v).1.Identified ∧
      Called (aloneElement s shareAbove carriers v).2 := by
  obtain ⟨info, hinfo, heq, -⟩ := hv.exists_info
  rw [heq] at hname
  have hheader : (aloneHeader info.name (s.domainAt info.domain)).Identified :=
    identified_typed ((identified_ofToken _).withKey (not_misused_of_identifier hname _)) _
  unfold aloneElement
  rw [hinfo]
  dsimp only
  cases hlookup : carriers.lookup info.domain with
  | some carrier =>
    dsimp only
    split
    · obtain ⟨before, after, rfl, -⟩ := List.lookup_eq_some_iff.mp hlookup
      have hcarrier := hcarriers (info.domain, carrier)
        (List.mem_append_right _ List.mem_cons_self)
      exact ⟨hheader.withKey (not_misused_of_identifier hcarrier _), hcarriers⟩
    · exact ⟨hheader.withText _, hcarriers⟩
  | none => exact ⟨hheader.withText _, List.forall_mem_cons.mpr ⟨hname, hcarriers⟩⟩

theorem identified_arrayElement? {key : Nat}
    (hname : Text.isIdentifier (w.store.arrayAt key).name = true) {e : Element}
    (h : arrayElement? w key = some e) : e.Identified := by
  obtain ⟨part, -, rfl⟩ := Option.map_eq_some_iff.mp h
  have hheader : (arrayHeader (w.store.arrayAt key) (w.store.domainAt part.1)).Identified :=
    identified_typed (Identified.withToken
      ((identified_ofToken _).withKey (not_misused_of_identifier hname _)) _ (by decide) _) _
  dsimp only
  split
  · exact hheader.withText _
  · refine hheader.withChildren (List.forall_mem_map.mpr fun part _ => ?_)
    exact (Identified.withToken (identified_ofToken _) _ (by decide) _).withText _

/-- The elements of declarations are identified, because declarations are called by
identifiers. -/
theorem identified_declarationElements (hs : s.Indexed) (compact : Bool) (shareAbove : Nat)
    {declarations : List Declaration} (hsub : declarations ⊆ s.declarations)
    {carriers : List (Nat × String)} (hcarriers : Called carriers) :
    ∀ e ∈ declarationElements ⟨s, compact⟩ shareAbove carriers declarations, e.Identified := by
  induction declarations generalizing carriers with
  | nil => exact fun _ h => nomatch h
  | cons declaration rest ih =>
    obtain ⟨hdeclared, hrest⟩ := List.cons_subset.mp hsub
    have hname := hs.coherent.identifiers declaration hdeclared
    cases declaration with
    | alone v =>
      obtain ⟨he, hcarriers'⟩ :=
        identified_aloneElement (hs.alone hdeclared).1 hname shareAbove hcarriers
      exact List.forall_mem_cons.mpr ⟨he, ih hrest hcarriers'⟩
    | array key =>
      refine List.forall_mem_append.mpr ⟨fun e he => ?_, ih hrest hcarriers⟩
      exact identified_arrayElement? ⟨s, compact⟩ hname (Option.mem_toList.mp he)

end

/-- The document of a problem is identified, whatever stands in its texts and labels. -/
theorem identified_ofProblem (compactLists : Bool) (shareAbove : Nat) {p : Problem}
    (hs : p.store.Indexed) (hentries : Written.AnonymousAll p.entries) :
    (ofProblem compactLists shareAbove p).Identified := by
  refine (Identified.withToken (Identified.withToken (identified_ofToken _) .format
    (by decide) _) .kind (by decide) _).withChildren ?_
  refine List.forall_mem_append.mpr ⟨List.forall_mem_append.mpr ⟨List.forall_mem_append.mpr
    ⟨List.forall_mem_singleton.mpr ?_, fun e he => ?_⟩, fun e he => ?_⟩, fun e he => ?_⟩
  · exact (identified_ofToken _).withChildren
      (identified_declarationElements hs _ _ (List.Subset.refl _) fun _ h => nomatch h)
  · obtain ⟨_, heq⟩ := Option.ite_none_left_eq_some.mp (Option.mem_toList.mp he)
    cases heq
    exact (identified_ofToken _).withChildren (identified_entryElements _ _ hentries)
  · obtain ⟨objective, -, rfl⟩ := Option.map_eq_some_iff.mp (Option.mem_toList.mp he)
    exact (identified_ofToken _).withChild (identified_objectiveElement _ objective)
  · split at he
    · cases he
    · obtain rfl := List.mem_singleton.mp he
      exact identified_annotationsElement _ _

end Document

namespace Introduced

variable {m : Model} {options : Options} {c : Compiled}

/-- The document of a model is identified. -/
theorem identified_document (hm : m.Reachable) (hc : (m.build options).1 = .ok c) :
    c.document.Identified := by
  obtain ⟨p, entries, hp, hentries, rfl⟩ := Model.build_eq_ok.mp hc
  have hwritten := Rows.anonymous_ofEntries _
    (Written.anonymousAll_iff.mpr (Grouping.anonymous_write p.postings)) hentries
  refine Document.identified_ofProblem _ _ (store_built hm.sound hp).indexed ?_
  show Written.AnonymousAll (if options.notes then entries else _)
  split
  · exact hwritten
  · exact Written.anonymous_dropNotesAll entries hwritten

/-- Whatever names, labels, symbols and shapes a model has, its document can be written, and
its text is what the writer puts into a sink.  Of any tree, the first attribute in the order of
the document that should hold an identifier and does not is refused; a tree that is refused
leaves the sink as it is, and any other one is appended to it. -/
theorem documents_are_written :
    (∀ (m : Model) (options : Options) (c : Compiled), m.Reachable →
      (m.build options).1 = .ok c → c.document.Identified ∧ ∃ text, c.text = .ok text ∧
        ∀ sink, (Writing.document c.document).on sink = (.ok (), sink ++ text)) ∧
    ∀ (e : Element) (sink : String),
      (∀ key value, e.write = .error ⟨key, value⟩ ↔ ∃ before after,
        e.attributesWithin = before ++ (key, value) :: after ∧ Element.Misused (key, value) ∧
          ∀ a ∈ before, ¬ Element.Misused a) ∧
      ((∃ found, e.write = .error found) ↔ ¬ e.Identified) ∧
      (∀ found, e.write = .error found → (Writing.document e).on sink = (.error found, sink)) ∧
      ∀ text, e.write = .ok text → (Writing.document e).on sink = (.ok (), sink ++ text) := by
  refine ⟨fun m options c hm hc => ?_, fun e sink => ⟨fun key value => ?_, ?_, ?_, ?_⟩⟩
  · have hdocument := identified_document hm hc
    have hwrite := Element.write_eq_ok_iff.mpr ⟨hdocument, rfl⟩
    refine ⟨hdocument, _, hwrite, fun sink => ?_⟩
    rw [Writing.on_document, hwrite]
  · rw [Element.write_eq_error_iff, Element.invalid?_eq, Element.invalidAttribute?_eq_some_iff]
  · cases h : e.write with
    | error found =>
      refine ⟨fun _ hidentified => ?_, fun _ => ⟨found, rfl⟩⟩
      rw [Element.write_eq_ok_iff.mpr ⟨hidentified, rfl⟩] at h
      cases h
    | ok text => simp [(Element.write_eq_ok_iff.mp h).1]
  · intro found h
    rw [Writing.on_document, h]
  · intro text h
    rw [Writing.on_document, h]

end Introduced

namespace Mixed

/-- A tree in which an element beneath the first child is called by no identifier. -/
def refused : Element :=
  { name := "instance"
    children :=
      [{ name := "variables", children := [{ name := "var", attributes := [("id", "x y")] }] },
        { name := "var", attributes := [("as", "1")] }] }

/-- The document of the model has four identifiers, one of them referred to; its text fills an
empty sink, and the tree is refused without a trace. -/
theorem document_written : model.Reachable ∧
    (∃ c text, (model.build options).1 = .ok c ∧ c.document.attributesWithin.filter
        (Element.holdsIdentifier ·.1) = [("id", "v0"), ("id", "v1"), ("id", "v2"), ("as", "v0")] ∧
      c.text = .ok text ∧ (Writing.document c.document).on "" = (.ok (), text)) ∧
    ∀ sink, (Writing.document refused).on sink = (.error ⟨"id", "x y"⟩, sink) := by
  have hbuild := Model.build_eq_ok.mpr ⟨_, _, ofModel_model, rows_introduced, rfl⟩
  obtain ⟨-, text, htext, hwritten⟩ :=
    Introduced.documents_are_written.1 model options _ reachable_model hbuild
  refine ⟨reachable_model, ⟨_, text, hbuild, ?_, htext, ?_⟩, fun sink => ?_⟩
  · cbv
  · rw [hwritten "", String.empty_append]
  · obtain ⟨hfirst, -, hnothing, -⟩ := Introduced.documents_are_written.2 refused sink
    exact hnothing _ ((hfirst "id" "x y").mpr
      ⟨[], [("as", "1")], rfl, by decide, List.forall_mem_nil _⟩)

end Mixed
end CspModel
