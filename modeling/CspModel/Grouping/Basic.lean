import CspModel.Auxiliary.Introduction
import CspModel.Grouping.Template
import CspModel.Grouping.Windows
import CspModel.Layout.Written
import CspModel.Options

/-! # Folding similar constraints

The constraints of one posting that were posted together are folded: similar ones
into a group, equalities of variables with constants into one instantiation.
Slides stand apart: their windows are written as one slide when they are windows
over one list, and are folded like constraints posted together otherwise.  An
entry with labels stays one entry: if its constraints end up in several, a block
around them takes the labels.
-/
namespace CspModel

/-- What the folding of constraints depends on. -/
structure Grouping where
  options : Options
  /-- The names of variables, as templates hold them. -/
  names : Variable → String

namespace Grouping

/-- A stretch of the constraints of a posting: relations in a row, or a slide. -/
inductive Segment where
  | run (relations : List Relation)
  | slide (windows : List Relation)

/-- The segments of a list of constraints; every slide has a run, possibly empty, on
both sides. -/
def segments : List Constraint → List Segment
  | [] => [.run []]
  | .slide windows :: rest =>
    .run [] :: .slide (Constraint.relationsOf windows) :: segments rest
  | .relation r :: rest =>
    match segments rest with
    | .run relations :: others => .run (r :: relations) :: others
    | others => .run [r] :: others

/-- The entries of similar constraints. -/
def writePart (g : Grouping) (members : List Candidate) : List Written :=
  let alone := members.map fun c => Written.alone c.relation
  let forms := members.map (·.form)
  if members.length < 2 then alone
  else
    match if g.options.recognizeInstantiations then forms.mapM equality? else none with
    | some equalities => [.equalities (equalities.map Prod.fst) (equalities.map Prod.snd) {}]
    | none =>
      match template? g.names false forms with
      | some (template, arguments) => [.group template arguments {}]
      | none => alone

/-- The entries of relations in a row, which are folded if they were posted together. -/
def writeRun (g : Grouping) (gather : Bool) (relations : List Relation) : List Written :=
  if gather && g.options.groupConstraints && 2 ≤ relations.length then
    (partition (relations.map (.ofRelation g.names))).flatMap g.writePart
  else
    relations.map .alone

/-- The windows of a slide as one slide, if there are several that are all similar and
form windows over one list. -/
def recognize? (g : Grouping) (windows : List Relation) : Option Written :=
  match partition (windows.map (.ofRelation g.names)) with
  | [members] =>
    if members.length < 2 then none
    else
      (template? g.names true (members.map (·.form))).bind fun (template, arguments) =>
        (Sliding.ofArguments? arguments).map fun s =>
          .slide s.list s.offset s.circular template {}
  | _ => none

/-- The slide, if slides are to be recognised and this one is. -/
def recognized? (g : Grouping) (windows : List Relation) : Option Written :=
  if g.options.recognizeSlides then g.recognize? windows else none

def writeSegment (g : Grouping) (gather : Bool) : Segment → List Written
  | .run relations => g.writeRun gather relations
  | .slide windows =>
    match g.recognized? windows with
    | some slide => [slide]
    | none => g.writeRun true windows

/-- The entries of the constraints of one posting. -/
def writeConstraints (g : Grouping) (gather : Bool) (constraints : List Constraint) :
    List Written :=
  (segments constraints).flatMap (g.writeSegment gather)

/-- Labels entries: a single entry takes the labels itself, several are put into a
block. -/
def decorate (d : Decoration) (entries : List Written) : List Written :=
  if d.isEmpty then entries
  else
    match entries with
    | [entry] => [entry.withDecoration d]
    | _ => [.block entries d]

/-- The entries of a posting. -/
def writePosting (g : Grouping) (p : Posting) : List Written :=
  decorate p.decoration (g.writeConstraints p.body.isGather p.body.constraints)

/-- The entries of all postings. -/
def write (g : Grouping) (postings : List Posting) : List Written :=
  postings.flatMap g.writePosting

/-! ### Notices -/

/-- A slide that should be recognised and is not is noticed. -/
def segmentNotices (g : Grouping) : Segment → List Notice
  | .run _ => []
  | .slide windows =>
    if g.options.recognizeSlides && (g.recognize? windows).isNone then
      [.unrecognizedSlide windows.length]
    else []

/-- The notices of all postings. -/
def notices (g : Grouping) (postings : List Posting) : List Notice :=
  postings.flatMap fun p => (segments p.body.constraints).flatMap g.segmentNotices

end Grouping
end CspModel
