/-! # The vocabulary of documents

The names of elements and attributes of an XCSP3 document.
-/
namespace CspModel

/-- A name of the standard vocabulary: first the parts of a document, then the
arguments of constraints, the objectives and annotations, and the attributes. -/
inductive Token where
  | root | variableSection | var | array | domain | constraints | objectives | annotations | group
  | args | block | slide
  | intension | extension | list | supports | conflicts | matrix | index | value | values
  | coeffs | condition | exceptions | origins | lengths | heights | operator
  | minimize | maximize | decision | valHeuristic | fixed
  | format | kind | id | classes | note | size | sameAs | forCells | offset | collect
  | circular | rank | covered | closed | startIndex | startRowIndex | startColIndex
  | zeroIgnored | starred | uncleaned | order
deriving DecidableEq

namespace Token

/-- All tokens in their order. -/
def all : List Token :=
  [root, variableSection, var, array, domain, constraints, objectives, annotations, group, args,
    block, slide, intension, extension, list, supports, conflicts, matrix, index, value,
    values, coeffs, condition, exceptions, origins, lengths, heights, operator, minimize,
    maximize, decision, valHeuristic, fixed, format, kind, id, classes, note, size, sameAs,
    forCells, offset, collect, circular, rank, covered, closed, startIndex, startRowIndex,
    startColIndex, zeroIgnored, starred, uncleaned, order]

/-- The token as it is written. -/
def text : Token → String
  | root => "instance"
  | variableSection => "variables"
  | var => "var"
  | array => "array"
  | domain => "domain"
  | constraints => "constraints"
  | objectives => "objectives"
  | annotations => "annotations"
  | group => "group"
  | args => "args"
  | block => "block"
  | slide => "slide"
  | intension => "intension"
  | extension => "extension"
  | list => "list"
  | supports => "supports"
  | conflicts => "conflicts"
  | matrix => "matrix"
  | index => "index"
  | value => "value"
  | values => "values"
  | coeffs => "coeffs"
  | condition => "condition"
  | exceptions => "except"
  | origins => "origins"
  | lengths => "lengths"
  | heights => "heights"
  | operator => "operator"
  | minimize => "minimize"
  | maximize => "maximize"
  | decision => "decision"
  | valHeuristic => "valHeuristic"
  | fixed => "static"
  | format => "format"
  | kind => "type"
  | id => "id"
  | classes => "class"
  | note => "note"
  | size => "size"
  | sameAs => "as"
  | forCells => "for"
  | offset => "offset"
  | collect => "collect"
  | circular => "circular"
  | rank => "rank"
  | covered => "covered"
  | closed => "closed"
  | startIndex => "startIndex"
  | startRowIndex => "startRowIndex"
  | startColIndex => "startColIndex"
  | zeroIgnored => "zeroIgnored"
  | starred => "starred"
  | uncleaned => "uncleaned"
  | order => "order"

end Token
end CspModel
