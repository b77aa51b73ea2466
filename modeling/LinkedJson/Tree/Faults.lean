import LinkedJson.SyntaxError
import LinkedJson.Text.Blank
import LinkedJson.Text.Bytes
import LinkedJson.Tree.Basic

/-!
# Faults of a syntax tree

Each error node and each missing token of a tree is reported as one syntax error. A missing token is
reported by what is missing. An error node is reported by what its text leaves open, else by the
complete elements that it holds, else by its first character.
-/

namespace LinkedJson

/-- Where a scan for open containers stands: inside a literal or not, after a backslash or not, and
the containers that are open, the innermost first. -/
structure Nesting where
  inString : Bool
  escaped : Bool
  openers : List Char
deriving DecidableEq, Repr

namespace Nesting

def start : Nesting := ⟨false, false, []⟩

def step (nesting : Nesting) (c : Char) : Nesting :=
  if nesting.inString then
    if nesting.escaped then { nesting with escaped := false }
    else if c = '\\' then { nesting with escaped := true }
    else if c = '"' then { nesting with inString := false }
    else nesting
  else if c = '"' then { nesting with inString := true }
  else if c = '\x7b' ∨ c = '[' then { nesting with openers := c :: nesting.openers }
  else if c = '\x7d' ∨ c = ']' then { nesting with openers := nesting.openers.tail }
  else nesting

def read (nesting : Nesting) (text : List Char) : Nesting :=
  text.foldl step nesting

end Nesting

/-- What is missing at the end of a text that leaves a container open: the end of the innermost
one. -/
def unclosedCode (text : List Char) : Option ErrorCode :=
  (Nesting.start.read text).openers.head?.map fun opener ↦
    if opener = '\x7b' then .closeBraceExpected else .closeBracketExpected

/-- What is wrong with a text that fits nowhere, by its first character that is not blank. -/
def misfitCode (place : Place) (text : List Char) : ErrorCode :=
  match text.dropWhile Text.isBlank with
  | [] => .valueExpected
  | c :: _ =>
    if c = '"' then .unexpectedEndOfString
    else if c.isDigit ∨ c = '-' then .invalidNumberFormat
    else if c = '/' then .invalidCommentToken
    else if c ∈ ['\x7b', '\x7d', '[', ']', ':', ','] then
      match place with
      | .member => .propertyNameExpected
      | .value => .valueExpected
    else if Text.isControl c then .invalidCharacter
    else .invalidSymbol

/-- What a missing token of some kind means. -/
def TreeKind.missingCode : TreeKind → ErrorCode
  | closeBrace => .closeBraceExpected
  | closeBracket => .closeBracketExpected
  | colon => .colonExpected
  | comma => .commaExpected
  | quote => .unexpectedEndOfString
  | _ => .valueExpected

namespace Tree

def chars (text : List Char) (tree : Tree) : List Char :=
  Text.slice text tree.start tree.stop

/-- The syntax error of an error node. -/
def misfit (text : List Char) (place : Place) (tree : Tree) : SyntaxError :=
  match unclosedCode (tree.chars text) with
  | some code => ⟨code, ⟨tree.stop, 0⟩⟩
  | none =>
    if tree.children.any (isElement place) then ⟨.commaExpected, tree.span⟩
    else ⟨misfitCode place (tree.chars text), tree.span⟩

def report (text : List Char) (place : Place) (tree : Tree) : SyntaxError :=
  if tree.isError then tree.misfit text place
  else ⟨tree.kind.missingCode, tree.span⟩

mutual

/-- The syntax errors of a tree that stands at a place, in text order. -/
def errors (text : List Char) (place : Place) : Tree → List SyntaxError
  | node kind start stop missing children =>
    if kind == .error || missing then
      [report text place (node kind start stop missing children)]
    else
      match kind with
      | .object => errorsOfAll text .member children
      | .array => errorsOfAll text .value children
      | .pair => errorsOfAll text .value children
      | .string => (children.filter isFault).map (report text .value)
      | _ => []

def errorsOfAll (text : List Char) (place : Place) : List Tree → List SyntaxError
  | [] => []
  | tree :: trees => errors text place tree ++ errorsOfAll text place trees

end

end Tree

end LinkedJson
