import LinkedJson.Grammar.Document

/-!
# The steps of reading

Reading a token does one of five things: it completes a value of one token, opens a container,
closes the innermost container and so completes it, or moves a container or a pair on. A value that
is complete goes to the document or into what is open around it.
-/

namespace LinkedJson.Grammar

/-- The two kinds of containers. -/
inductive Container where
  | object
  | array

namespace Container

def kind : Container → TreeKind
  | object => .object
  | array => .array

def opening : Container → Token
  | object => .openBrace
  | array => .openBracket

def closing : Container → Token
  | object => .closeBrace
  | array => .closeBracket

/-- A container that is still open. -/
def frame (start : Nat) (phase : Phase) (items : List Tree) : Container → Frame
  | object => .object start phase items
  | array => .array start phase items

end Container

/-- The kind of the value that a token is by itself. -/
def Token.scalar? : Token → Option TreeKind
  | string => some .string
  | number => some .number
  | trueWord => some .trueWord
  | falseWord => some .falseWord
  | nullWord => some .nullWord
  | _ => none

namespace State

/-- The places where a complete value may go. -/
inductive Completes (value : Tree) : State → State → Prop where
  | document (values : List Tree) : Completes value ⟨[], values⟩ ⟨[], value :: values⟩
  | element (start : Nat) (phase : Phase) (items : List Tree) (frames : List Frame)
    (values : List Tree) :
    Completes value ⟨.array start phase items :: frames, values⟩
      ⟨.array start .filled (value :: items) :: frames, values⟩
  | name (start : Nat) (phase : Phase) (items : List Tree) (frames : List Frame)
    (values : List Tree) (hstring : value.kind = .string) :
    Completes value ⟨.object start phase items :: frames, values⟩
      ⟨.pair value false :: .object start phase items :: frames, values⟩
  | member (name : Tree) (start : Nat) (phase : Phase) (items : List Tree) (frames : List Frame)
    (values : List Tree) :
    Completes value ⟨.pair name true :: .object start phase items :: frames, values⟩
      ⟨.object start .filled (.node .pair name.start value.stop false [name, value] :: items) ::
        frames, values⟩

theorem completes_of_complete {state next : State} {value : Tree}
    (hnext : state.complete value = some next) : Completes value state next := by
  obtain ⟨frames, values⟩ := state
  match frames, hnext with
  | [], hnext =>
    cases hnext
    exact .document values
  | .array start phase items :: frames, hnext =>
    change (if phase = .filled then none else some _) = some next at hnext
    split at hnext
    · cases hnext
    · cases hnext
      exact .element start phase items frames values
  | .object start phase items :: frames, hnext =>
    change (if phase = .filled ∨ value.kind ≠ .string then none else some _) = some next at hnext
    split at hnext
    · cases hnext
    · next hfits =>
      cases hnext
      exact .name start phase items frames values (Decidable.byContradiction (hfits ∘ .inr))
  | .pair name true :: .object start phase items :: frames, hnext =>
    cases hnext
    exact .member name start phase items frames values

/-- What reading a token can do. -/
inductive Steps (lexeme : Lexeme) : State → State → Prop where
  | scalar {kind : TreeKind} {state next : State} (hscalar : lexeme.token.scalar? = some kind)
    (hcompletes : Completes (scalar kind lexeme) state next) : Steps lexeme state next
  | opens (container : Container) (state : State) (htoken : lexeme.token = container.opening) :
    Steps lexeme state (state.push (container.frame lexeme.start .opened []))
  | closes (container : Container) {start : Nat} {phase : Phase} {items : List Tree}
    {frames : List Frame} {values : List Tree} {next : State}
    (htoken : lexeme.token = container.closing) (hphase : phase ≠ .separated)
    (hcompletes : Completes (.node container.kind start lexeme.stop false items.reverse)
      ⟨frames, values⟩ next) :
    Steps lexeme ⟨container.frame start phase items :: frames, values⟩ next
  | separates (container : Container) (start : Nat) (items : List Tree) (frames : List Frame)
    (values : List Tree) (htoken : lexeme.token = .comma) :
    Steps lexeme ⟨container.frame start .filled items :: frames, values⟩
      ⟨container.frame start .separated items :: frames, values⟩
  | names (name : Tree) (frames : List Frame) (values : List Tree)
    (htoken : lexeme.token = .colon) :
    Steps lexeme ⟨.pair name false :: frames, values⟩ ⟨.pair name true :: frames, values⟩

theorem steps_of_step {state next : State} {lexeme : Lexeme}
    (hnext : state.step lexeme = some next) : Steps lexeme state next := by
  obtain ⟨token, start, stop⟩ := lexeme
  obtain ⟨frames, values⟩ := state
  cases token with
  | string | number | trueWord | falseWord | nullWord =>
    exact .scalar rfl (completes_of_complete hnext)
  | openBrace =>
    cases hnext
    exact .opens .object _ rfl
  | openBracket =>
    cases hnext
    exact .opens .array _ rfl
  | closeBrace =>
    match frames, hnext with
    | .object start phase items :: frames, hnext =>
      change (if phase = .separated then none else State.complete _ _) = some next at hnext
      split at hnext
      · cases hnext
      · next hphase => exact .closes .object rfl hphase (completes_of_complete hnext)
  | closeBracket =>
    match frames, hnext with
    | .array start phase items :: frames, hnext =>
      change (if phase = .separated then none else State.complete _ _) = some next at hnext
      split at hnext
      · cases hnext
      · next hphase => exact .closes .array rfl hphase (completes_of_complete hnext)
  | comma =>
    match frames, hnext with
    | .array start .filled items :: frames, hnext =>
      cases hnext
      exact .separates .array start items frames values rfl
    | .object start .filled items :: frames, hnext =>
      cases hnext
      exact .separates .object start items frames values rfl
  | colon =>
    match frames, hnext with
    | .pair name false :: frames, hnext =>
      cases hnext
      exact .names name frames values rfl

theorem exists_steps_of_run {state final : State} {lexeme : Lexeme} {rest : List Lexeme}
    (hrun : state.run (lexeme :: rest) = some final) :
    ∃ next, Steps lexeme state next ∧ next.run rest = some final := by
  rw [run] at hrun
  split at hrun
  · next hstep => exact ⟨_, steps_of_step hstep, hrun⟩
  · cases hrun

end State

/-- A text of the grammar has been read to its end, and nothing is left open there. -/
theorem exists_run_of_tree? {text : List Char} {tree : Tree} (htree : tree? text = some tree) :
    ∃ parts values, pieces text = some parts ∧
      State.start.run (lexemesFrom 0 parts) = some ⟨[], values⟩ ∧
      tree = .node .document 0 (Text.byteLength text) false values.reverse := by
  obtain ⟨trees, htrees, rfl⟩ := Option.map_eq_some_iff.1 htree
  obtain ⟨lexemes, hlexemes, hrun⟩ := Option.bind_eq_some_iff.1 htrees
  obtain ⟨parts, hparts, rfl⟩ := Option.map_eq_some_iff.1 hlexemes
  obtain ⟨⟨frames, values⟩, hfinal, hend⟩ := Option.bind_eq_some_iff.1 hrun
  cases frames with
  | cons frame frames => cases hend
  | nil =>
    cases hend
    exact ⟨parts, values, hparts, hfinal, rfl⟩

end LinkedJson.Grammar
