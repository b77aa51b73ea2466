import LinkedJson.Span

/-!
# Syntax trees

A syntax tree shows how a text is put together, down to its punctuation and comments. A text
outside the grammar has one too: stretches that fit nowhere are error nodes, and tokens that had to
be made up are marked as missing and take no text.
-/

namespace LinkedJson

/-- What a node of a syntax tree is. -/
inductive TreeKind where
  | document
  | object
  | array
  | pair
  | string
  | number
  | trueWord
  | falseWord
  | nullWord
  | comment
  | error
  | openBrace
  | closeBrace
  | openBracket
  | closeBracket
  | colon
  | comma
  | quote
  | other
deriving DecidableEq, Repr, Inhabited

namespace TreeKind

/-- The kind with a given name. Parts of a string literal need no kinds of their own. -/
def ofName : String → TreeKind
  | "document" => document
  | "object" => object
  | "array" => array
  | "pair" => pair
  | "string" => string
  | "number" => number
  | "true" => trueWord
  | "false" => falseWord
  | "null" => nullWord
  | "comment" => comment
  | "ERROR" => error
  | "\x7b" => openBrace
  | "\x7d" => closeBrace
  | "[" => openBracket
  | "]" => closeBracket
  | ":" => colon
  | "," => comma
  | "\"" => quote
  | _ => other

def isValue : TreeKind → Bool
  | object | array | string | number | trueWord | falseWord | nullWord => true
  | _ => false

end TreeKind

/-- A node of a syntax tree: its kind, the offsets between which its text lies, whether it was made
up, and the nodes below it in text order. -/
inductive Tree where
  | node (kind : TreeKind) (start stop : Nat) (missing : Bool) (children : List Tree)
deriving Repr

namespace Tree

def kind : Tree → TreeKind
  | node kind _ _ _ _ => kind

def start : Tree → Nat
  | node _ start _ _ _ => start

def stop : Tree → Nat
  | node _ _ stop _ _ => stop

def missing : Tree → Bool
  | node _ _ _ missing _ => missing

def children : Tree → List Tree
  | node _ _ _ _ children => children

def span (tree : Tree) : Span :=
  Span.between tree.start tree.stop

def isError (tree : Tree) : Bool :=
  tree.kind == .error

/-- Whether a tree itself is an error or made up. -/
def isFault (tree : Tree) : Bool :=
  tree.isError || tree.missing

mutual

/-- Whether a tree or one below it is a fault. -/
def hasFault : Tree → Bool
  | node kind _ _ missing children => kind == .error || missing || anyFault children

def anyFault : List Tree → Bool
  | [] => false
  | tree :: trees => hasFault tree || anyFault trees

end

end Tree

/-- What may stand at a place of a text: a member where an object is open, a value elsewhere. -/
inductive Place where
  | member
  | value
deriving DecidableEq, Repr

/-- Whether a tree is a complete element for a place, with no fault in it. -/
def Tree.isElement (place : Place) (tree : Tree) : Bool :=
  !tree.hasFault &&
    match place with
    | .member => tree.kind == .pair
    | .value => tree.kind.isValue

end LinkedJson
