import LinkedJson.Literal
import LinkedJson.Node
import LinkedJson.Tree.Faults

/-!
# Nodes of a syntax tree

The value of a document is read off its syntax tree. Punctuation, comments and faults stand for no
node. An error node inside an object or an array gives back the complete elements that it holds, so
that one mistake does not hide its neighbours.
-/

namespace LinkedJson.Tree

mutual

/-- The node that a tree stands for. -/
def node? (text : List Char) : Tree → Option Node
  | node kind start stop missing children =>
    let span := Span.between start stop
    if kind == .error || missing then
      none
    else
      match kind with
      | .object => some (.object (elements text .member children) span)
      | .array => some (.array (elements text .value children) span)
      | .pair => some (.property (parts text children) span)
      | .string => some (.string (Literal.value (Text.slice text start stop)) span)
      | .number => some (.number (String.ofList (Text.slice text start stop)) span)
      | .trueWord => some (.boolean true span)
      | .falseWord => some (.boolean false span)
      | .nullWord => some (.null span)
      | _ => none

/-- The nodes of the trees in an object or an array. -/
def elements (text : List Char) (place : Place) : List Tree → List Node
  | [] => []
  | node kind start stop missing children :: trees =>
    let found :=
      if kind == .error then recovered text place children
      else (node? text (node kind start stop missing children)).toList
    found ++ elements text place trees

/-- The nodes of the complete elements among the trees of an error node. -/
def recovered (text : List Char) (place : Place) : List Tree → List Node
  | [] => []
  | tree :: trees =>
    (if isElement place tree then (node? text tree).toList else []) ++ recovered text place trees

def parts (text : List Char) : List Tree → List Node
  | [] => []
  | tree :: trees => (node? text tree).toList ++ parts text trees

end

def contents (tree : Tree) : List Tree :=
  tree.children.filter (·.kind != .comment)

/-- The syntax errors of the trees of a document. -/
def contentErrors (text : List Char) : List Tree → List SyntaxError
  | [] => []
  | tree :: trees =>
    errors text .value tree ++
      if (node? text tree).isSome then
        -- All that follows the first value is text after the end, whatever it is.
        trees.map fun rest ↦ ⟨.endOfFileExpected, rest.span⟩
      else
        contentErrors text trees

/-- The value of a document: the first of its trees that stands for a node. -/
def rootNode (text : List Char) (tree : Tree) : Option Node :=
  if tree.kind == .document then tree.contents.findSome? (node? text) else node? text tree

def allErrors (text : List Char) (tree : Tree) : List SyntaxError :=
  if tree.kind == .document then contentErrors text tree.contents else errors text .value tree

end LinkedJson.Tree
