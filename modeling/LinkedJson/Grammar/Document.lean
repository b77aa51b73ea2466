import LinkedJson.Grammar.Lexeme
import LinkedJson.Tree.Basic

/-!
# Documents of the grammar

A document is any number of values, one after another. It is read from left to right with a stack
of the containers that are open. Each token either opens a container, completes a value, or moves
the innermost container on; a token that does none of these, or a container that is open at the end,
puts the text outside the grammar.
-/

namespace LinkedJson.Grammar

/-- How far an open container has come: just opened, after a comma, or after an item. -/
inductive Phase where
  | opened
  | separated
  | filled
deriving DecidableEq, Repr

/-- A container that is still open, with its items so far, the last one first. A pair stands on top
of its object, from its name on. -/
inductive Frame where
  | array (start : Nat) (phase : Phase) (items : List Tree)
  | object (start : Nat) (phase : Phase) (items : List Tree)
  | pair (name : Tree) (afterColon : Bool)
deriving Repr

/-- The open containers, the innermost first, and the complete values of the document, the last one
first. -/
structure State where
  frames : List Frame
  values : List Tree
deriving Repr

namespace State

def start : State := ⟨[], []⟩

/-- Puts a complete value where it belongs. -/
def complete (state : State) (value : Tree) : Option State :=
  match state.frames with
  | [] => some ⟨[], value :: state.values⟩
  | .array start phase items :: frames =>
    if phase = .filled then none
    else some { state with frames := .array start .filled (value :: items) :: frames }
  | .object start phase items :: frames =>
    -- Only a string can start a member, and it is its name.
    if phase = .filled ∨ value.kind ≠ .string then none
    else some { state with frames := .pair value false :: .object start phase items :: frames }
  | .pair name true :: .object start _ items :: frames =>
    let pair := Tree.node .pair name.start value.stop false [name, value]
    some { state with frames := .object start .filled (pair :: items) :: frames }
  | _ => none

def push (state : State) (frame : Frame) : State :=
  { state with frames := frame :: state.frames }

def scalar (kind : TreeKind) (lexeme : Lexeme) : Tree :=
  .node kind lexeme.start lexeme.stop false []

def step (state : State) (lexeme : Lexeme) : Option State :=
  match lexeme.token with
  | .string => state.complete (scalar .string lexeme)
  | .number => state.complete (scalar .number lexeme)
  | .trueWord => state.complete (scalar .trueWord lexeme)
  | .falseWord => state.complete (scalar .falseWord lexeme)
  | .nullWord => state.complete (scalar .nullWord lexeme)
  | .openBracket => some (state.push (.array lexeme.start .opened []))
  | .openBrace => some (state.push (.object lexeme.start .opened []))
  | .closeBracket =>
    match state.frames with
    | .array start phase items :: frames =>
      if phase = .separated then none
      else
        { state with frames }.complete (.node .array start lexeme.stop false items.reverse)
    | _ => none
  | .closeBrace =>
    match state.frames with
    | .object start phase items :: frames =>
      if phase = .separated then none
      else
        { state with frames }.complete (.node .object start lexeme.stop false items.reverse)
    | _ => none
  | .comma =>
    match state.frames with
    | .array start .filled items :: frames =>
      some { state with frames := .array start .separated items :: frames }
    | .object start .filled items :: frames =>
      some { state with frames := .object start .separated items :: frames }
    | _ => none
  | .colon =>
    match state.frames with
    | .pair name false :: frames => some { state with frames := .pair name true :: frames }
    | _ => none

def run (state : State) : List Lexeme → Option State
  | [] => some state
  | lexeme :: rest =>
    match state.step lexeme with
    | some next => next.run rest
    | none => none

/-- The values of a document at its end, if nothing is left open. -/
def values? (state : State) : Option (List Tree) :=
  if state.frames.isEmpty then some state.values.reverse else none

end State

def values? (text : List Char) : Option (List Tree) :=
  (lexemes? text).bind fun lexemes ↦ (State.start.run lexemes).bind State.values?

/-- The syntax tree of a text of the grammar. -/
def tree? (text : List Char) : Option Tree :=
  (values? text).map fun values ↦ .node .document 0 (Text.byteLength text) false values

end LinkedJson.Grammar
