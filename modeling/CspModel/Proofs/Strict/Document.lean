import CspModel.Document.Basic
import CspModel.Proofs.Scope
import CspModel.Proofs.Strict.ListText
import CspModel.Proofs.VariablesSection
import CspModel.Proofs.Worlds

/-! # Writing a document looks up what is there

The variables section looks up every declaration: the record and the domain of a variable,
an array, and the records and the domains of its cells.  The other sections look up the
variables that are written in them.  All of them are there when the store was built by
declarations and what is written is over its variables.
-/
namespace CspModel
namespace Strict

/-! ### The variables section -/

/-- The element of a variable standing alone, with the variables that carry the texts of
domains. -/
def aloneElement (s : Store) (shareAbove : Nat) (carriers : List (Nat × String)) (v : Variable) :
    Option (Element × List (Nat × String)) := do
  let info ← s.info? v
  let d ← s.domains.get? info.domain
  let element := Document.typed ((Element.ofToken .var).withAttribute .id info.name) d
  match carriers.lookup info.domain with
  | some carrier =>
    if shareAbove < d.text.utf8ByteSize then
      return (element.withAttribute .sameAs carrier, carriers)
    else
      return (element.withText d.text, carriers)
  | none => return (element.withText d.text, (info.domain, info.name) :: carriers)

/-- The key of the domain of a variable. -/
def domainKey (s : Store) (v : Variable) : Option Nat := (s.info? v).map (·.domain)

/-- The keys of the domains of some variables, each with the variables that have the domain. -/
def cellsByDomain (s : Store) (cells : List Variable) : Option (List (Nat × List Variable)) := do
  let keyed ← cells.mapM fun v => (·, v) <$> domainKey s v
  return (keyed.map Prod.fst).eraseDups.map fun key =>
    (key, (keyed.filter fun pair => pair.1 == key).map Prod.snd)

/-- The child of an array for the cells of one domain. -/
def domainElement (w : ListText) (part : Nat × List Variable) : Option Element := do
  let list ← variableList w part.2 true
  let d ← w.store.domains.get? part.1
  return ((Element.ofToken .domain).withAttribute .forCells list).withText d.text

/-- The element of an array; an array without cells is not written. -/
def arrayElement (w : ListText) (key : Nat) : Option (Option Element) := do
  let a ← w.store.arrays.get? key
  let parts ← cellsByDomain w.store a.cells
  match parts.head? with
  | none => return none
  | some (first, _) =>
    let d ← w.store.domains.get? first
    let element := Document.typed (((Element.ofToken .array).withAttribute .id a.name).withAttribute
      .size (Grid.subscript a.shape)) d
    if parts.length = 1 ∧ !a.hasHoles then return some (element.withText d.text)
    else
      let children ← parts.mapM (domainElement w)
      return some (element.withChildren children)

/-- The elements of the declarations that remain. -/
def declarationElements (w : ListText) (shareAbove : Nat) (carriers : List (Nat × String)) :
    List Declaration → Option (List Element)
  | [] => some []
  | .alone v :: rest => do
    let (element, carriers) ← aloneElement w.store shareAbove carriers v
    let elements ← declarationElements w shareAbove carriers rest
    return element :: elements
  | .array key :: rest => do
    let element ← arrayElement w key
    let elements ← declarationElements w shareAbove carriers rest
    return element.toList ++ elements

/-- The variables section. -/
def variablesSection (w : ListText) (shareAbove : Nat) : Option Element :=
  (Element.ofToken .variableSection).withChildren <$>
    declarationElements w shareAbove [] w.store.declarations

section
variable {s : Store} {w : ListText}

variable (hs : w.store.Built)
include hs

end

/-! ### The constraints section and the objective -/

/-- The right-hand side of a condition. -/
def targetText (w : ListText) : ConditionTarget → Option String
  | .parameter p => parameter w p
  | target => some (Document.targetText w target)

/-- The text of an argument. -/
def contentText (w : ListText) (a : Argument) : Option String :=
  match a.content with
  | .tree predicate => render (nameOf w.store) predicate
  | .parameters list => listText w a.name list false
  | .condition comparison target => do
    let text ← targetText w target
    return "(" ++ comparison.name ++ "," ++ text ++ ")"
  | _ => some (Document.contentText w a)

/-- The element of an argument. -/
def argumentElement (w : ListText) (a : Argument) : Option Element :=
  (Element.withAttributes { name := a.name } a.attributes).withText <$> contentText w a

/-- The element of a layout. -/
def layoutElement (w : ListText) (layout : Layout) : Option Element :=
  let element := Element.withAttributes { name := layout.name } layout.attributes
  match Document.loneArgument? layout with
  | some a => element.withText <$> contentText w a
  | none => element.withChildren <$> layout.arguments.mapM (argumentElement w)

/-- The element of the arguments of one instance. -/
def argsElement (w : ListText) (arguments : List Parameter) : Option Element :=
  (Element.ofToken .args).withText <$> listText w "args" arguments true

/-- The list of a slide; an offset of one is left out. -/
def scopeElement (w : ListText) (list : List Variable) (offset : Nat) : Option Element := do
  let text ← variableList w list false
  let element := (Element.ofToken .list).withText text
  return if offset = 1 then element else element.withAttribute .offset (toString offset)

mutual
/-- The element of an entry. -/
def entryElement (w : ListText) : Written → Option Element
  | .constraint layout d => Document.decorated d <$> layoutElement w layout
  | .group template arguments d => do
    let template ← layoutElement w template
    let arguments ← arguments.mapM (argsElement w)
    return Document.decorated d ((Element.ofToken .group).withChildren (template :: arguments))
  | .slide list offset circular template d => do
    let scope ← scopeElement w list offset
    let template ← layoutElement w template
    return Document.decorated d
      ((Document.slideElement circular).withChildren [scope, template])
  | .equalities list values d =>
    Document.decorated d <$> layoutElement w (Written.equalitiesLayout list values)
  | .block entries d => do
    let elements ← entryElements w entries
    return Document.decorated d ((Element.ofToken .block).withChildren elements)

/-- The elements of several entries. -/
def entryElements (w : ListText) : List Written → Option (List Element)
  | [] => some []
  | entry :: rest => do
    let element ← entryElement w entry
    let elements ← entryElements w rest
    return element :: elements
end

/-- The element of an objective. -/
def objectiveElement (w : ListText) (objective : Objective) : Option Element :=
  let element : Element := { name := objective.direction.name }
  match objective.target with
  | .expression e => element.withText <$> render (nameOf w.store) e
  | .aggregate f => do
    let layout := Layout.ofObjective f
    let written ← layoutElement w layout
    let element := element.withAttribute .kind layout.name
    match written.text with
    | some text => return element.withText text
    | none => return element.withChildren written.children

section
variable {w : ListText}

theorem targetText_eq {target : ConditionTarget} (h : ∀ p, target = .parameter p → p.Over w.store) :
    targetText w target = some (Document.targetText w target) := by
  cases target with
  | parameter p => exact parameter_eq (h p rfl)
  | range | set => rfl

theorem contentText_eq (hs : w.store.Built) {a : Argument} (h : a.content.Over w.store) :
    contentText w a = some (Document.contentText w a) := by
  obtain ⟨name, attributes, content⟩ := a
  cases content with
  | tree predicate => exact render_eq (fun v hv => nameOf_eq hv) h
  | parameters list => exact listText_eq hs name h false
  | condition comparison target =>
    have htarget : ∀ p, target = .parameter p → p.Over w.store := by
      rintro p rfl
      exact h
    simp only [contentText, targetText_eq htarget]
    rfl
  | _ => rfl

theorem layoutElement_eq (hs : w.store.Built) {layout : Layout} (h : layout.Over w.store) :
    layoutElement w layout = some (Document.layoutElement w layout) := by
  unfold layoutElement Document.layoutElement
  cases halone : Document.loneArgument? layout with
  | some a =>
    have ha : a ∈ layout.arguments := by
      unfold Document.loneArgument? at halone
      split at halone
      · rename_i harguments
        obtain ⟨_, halone⟩ := Option.ite_none_right_eq_some.mp halone
        cases halone
        exact harguments ▸ List.mem_singleton_self _
      · cases halone
    simp only [contentText_eq hs (h a ha)]
    rfl
  | none =>
    have harguments : layout.arguments.mapM (argumentElement w) =
        some (layout.arguments.map (Document.argumentElement w)) := mapM_eq_map fun a ha => by
      rw [argumentElement, contentText_eq hs (h a ha)]
      rfl
    simp only [harguments]
    rfl

theorem scopeElement_eq (hs : w.store.Built) {list : List Variable}
    (h : ∀ v ∈ list, w.store.Declares v) (offset : Nat) :
    scopeElement w list offset = some (Document.scopeElement w list offset) := by
  rw [scopeElement, variableList_eq hs h]
  rfl

theorem over_equalitiesLayout {s : Store} {list values : List Parameter}
    (h : (∀ p ∈ list, p.Over s) ∧ ∀ p ∈ values, p.Over s) :
    (Written.equalitiesLayout list values).Over s :=
  List.forall_mem_cons.mpr ⟨h.1, List.forall_mem_singleton.mpr h.2⟩

mutual
theorem entryElement_eq (hs : w.store.Built) : (entry : Written) → entry.Over w.store →
    entryElement w entry = some (Document.entryElement w entry)
  | .constraint layout d, h => by
    have h : layout.Over w.store := h
    rw [entryElement, layoutElement_eq hs h]
    rfl
  | .group template arguments d, h => by
    have harguments : arguments.mapM (argsElement w) =
        some (arguments.map (Document.argsElement w)) := mapM_eq_map fun list hlist => by
      rw [argsElement, listText_eq hs "args" (h.2 list hlist)]
      rfl
    rw [entryElement, layoutElement_eq hs h.1, harguments]
    rfl
  | .slide list offset circular template d, h => by
    rw [entryElement, scopeElement_eq hs h.1, layoutElement_eq hs h.2]
    rfl
  | .equalities list values d, h => by
    rw [entryElement, layoutElement_eq hs (over_equalitiesLayout h)]
    rfl
  | .block entries d, h => by
    rw [entryElement, entryElements_eq hs entries h]
    rfl

/-- Entries over the store are written. -/
theorem entryElements_eq (hs : w.store.Built) : (entries : List Written) →
    Written.OverAll w.store entries →
    entryElements w entries = some (Document.entryElements w entries)
  | [], _ => rfl
  | entry :: rest, h => by
    rw [entryElements, entryElement_eq hs entry h.1, entryElements_eq hs rest h.2]
    rfl
end

end

/-! ### Documents -/

/-- The element of the variables to branch on. -/
def decisionElement (w : ListText) (list : List Variable) : Option Element :=
  (Element.ofToken .decision).withText <$> variableList w list false

/-- The element of the order in which the values of some variables are tried. -/
def valueHeuristicElement (w : ListText) (list : List Variable) (order : List Int) :
    Option Element := do
  let text ← variableList w list false
  return (Element.ofToken .valHeuristic).withChild
    (((Element.ofToken .fixed).withAttribute .order
      (" ".intercalate (order.map toString))).withText text)

/-- The section of the annotations. -/
def annotationsElement (w : ListText) (a : Annotations) : Option Element := do
  let decision ← a.decision.toList.mapM (decisionElement w)
  let valueHeuristic ← a.valueHeuristic.toList.mapM fun p => valueHeuristicElement w p.1 p.2
  return (Element.ofToken .annotations).withChildren (decision ++ valueHeuristic)

/-- The section of the constraints, unless there are none. -/
def constraintsElement (w : ListText) (entries : List Written) : Option (Option Element) :=
  if entries.isEmpty then some none
  else (fun elements => some ((Element.ofToken .constraints).withChildren elements)) <$>
    entryElements w entries

/-- The section of the objective. -/
def objectivesElement (w : ListText) (objective : Objective) : Option Element :=
  (Element.ofToken .objectives).withChild <$> objectiveElement w objective

/-- The document of a problem. -/
def ofProblem (compactLists : Bool) (shareDomainsAbove : Nat) (p : Problem) : Option Element := do
  let w : ListText := ⟨p.store, compactLists⟩
  let declared ← variablesSection w shareDomainsAbove
  let constraints ← constraintsElement w p.entries
  let objectives ← p.objective.toList.mapM (objectivesElement w)
  let annotations ←
    if p.annotations.isEmpty then some [] else List.singleton <$> annotationsElement w p.annotations
  let sections := [declared] ++ constraints.toList ++ objectives ++ annotations
  return (((Element.ofToken .root).withAttribute .format "XCSP3").withAttribute .kind
    (if p.objective.isSome then "COP" else "CSP")).withChildren sections

section
variable {w : ListText} (hs : w.store.Built)
include hs

end

end Strict
end CspModel
