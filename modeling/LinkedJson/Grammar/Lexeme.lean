import LinkedJson.Text.Bytes

/-!
# Lexemes

A text of the grammar falls apart into pieces: tokens, and the blanks and comments between them.
Each piece is as long as it can be, and tokens need nothing between them, so `01` is two numbers. A
text that is no sequence of pieces has none. The pieces of a text, put together again, are the text.
-/

namespace LinkedJson.Grammar

inductive Token where
  | openBrace
  | closeBrace
  | openBracket
  | closeBracket
  | colon
  | comma
  | string
  | number
  | trueWord
  | falseWord
  | nullWord
deriving DecidableEq, Repr

/-- A stretch of text: a token, or blanks or a comment, which are no token. -/
structure Piece where
  token? : Option Token
  chars : List Char
deriving DecidableEq, Repr

structure Lexeme where
  token : Token
  start : Nat
  stop : Nat
deriving DecidableEq, Repr

/-- The blanks between tokens. -/
def isSpacing (c : Char) : Bool :=
  (9 ≤ c.toNat && c.toNat ≤ 13) || c.toNat == 32

/-- The characters that may follow a backslash. -/
def isEscape (c : Char) : Bool :=
  c ∈ ['"', '\\', '/', 'b', 'f', 'n', 'r', 't', 'u']

/-- How many characters of a text a string takes after its opening quote, with the closing one. -/
def stringLength : List Char → Option Nat
  | [] => none
  | '"' :: _ => some 1
  | '\\' :: c :: rest => if isEscape c then (stringLength rest).map (· + 2) else none
  | c :: rest => if c = '\n' ∨ c = '\\' then none else (stringLength rest).map (· + 1)

/-- How many characters of a text a block comment takes after its opening, the closing included. -/
def blockLength : List Char → Option Nat
  | [] => none
  | '*' :: '/' :: _ => some 2
  | _ :: rest => (blockLength rest).map (· + 1)

/-- How many characters of a text a comment takes after its first slash. -/
def commentLength : List Char → Option Nat
  | '/' :: rest => some (1 + (rest.takeWhile (· != '\n')).length)
  | '*' :: rest => (blockLength rest).map (· + 1)
  | _ => none

def digitCount (text : List Char) : Nat :=
  (text.takeWhile Char.isDigit).length

/-- How many characters of a text a fraction takes; its point needs no digits. -/
def fractionLength : List Char → Nat
  | '.' :: rest => 1 + digitCount rest
  | _ => 0

/-- How many characters of a text an exponent takes; it has a digit and never a plus sign. -/
def exponentLength : List Char → Nat
  | c :: '-' :: rest =>
    if (c = 'e' ∨ c = 'E') ∧ digitCount rest ≠ 0 then 2 + digitCount rest else 0
  | c :: rest =>
    if (c = 'e' ∨ c = 'E') ∧ digitCount rest ≠ 0 then 1 + digitCount rest else 0
  | [] => 0

/-- How many characters of a text a number takes after its first digit; a leading zero stands alone
before the point. -/
def numberLength (digit : Char) (rest : List Char) : Nat :=
  let whole := if digit = '0' then 0 else digitCount rest
  let fraction := fractionLength (rest.drop whole)
  whole + fraction + exponentLength (rest.drop (whole + fraction))

/-- What starts with a character, and how many of the characters after it belong to it. -/
def pieceStart (c : Char) (rest : List Char) : Option (Option Token × Nat) :=
  match c with
  | '\x7b' => some (some .openBrace, 0)
  | '\x7d' => some (some .closeBrace, 0)
  | '[' => some (some .openBracket, 0)
  | ']' => some (some .closeBracket, 0)
  | ':' => some (some .colon, 0)
  | ',' => some (some .comma, 0)
  | '"' => (stringLength rest).map (some .string, ·)
  | '/' => (commentLength rest).map (none, ·)
  | 't' => if "rue".toList.isPrefixOf rest then some (some .trueWord, 3) else none
  | 'f' => if "alse".toList.isPrefixOf rest then some (some .falseWord, 4) else none
  | 'n' => if "ull".toList.isPrefixOf rest then some (some .nullWord, 3) else none
  | '-' =>
    match rest with
    | digit :: rest =>
      if digit.isDigit then some (some .number, 1 + numberLength digit rest) else none
    | [] => none
  | c =>
    if c.isDigit then some (some .number, numberLength c rest)
    else if isSpacing c then some (none, 0)
    else none

/-- The pieces of a text of which the first `taken` characters belong to the piece before. -/
def piecesAfter (taken : Nat) : List Char → Option (List Piece)
  | [] => some []
  | c :: rest =>
    match taken with
    | taken + 1 => piecesAfter taken rest
    | 0 =>
      match pieceStart c rest with
      | none => none
      | some (token?, more) => (piecesAfter more rest).map (⟨token?, c :: rest.take more⟩ :: ·)

def pieces (text : List Char) : Option (List Piece) :=
  piecesAfter 0 text

theorem flatMap_chars_of_piecesAfter {taken : Nat} {text : List Char} {parts : List Piece}
    (hparts : piecesAfter taken text = some parts) :
    parts.flatMap (·.chars) = text.drop taken := by
  induction text generalizing taken parts with
  | nil =>
    simp only [piecesAfter, Option.some.injEq] at hparts
    simp [← hparts]
  | cons c rest ih =>
    cases taken with
    | succ taken => exact ih hparts
    | zero =>
      simp only [piecesAfter] at hparts
      cases hstart : pieceStart c rest with
      | none => simp [hstart] at hparts
      | some first =>
        obtain ⟨token?, more⟩ := first
        simp only [hstart] at hparts
        obtain ⟨tail, htail, rfl⟩ := Option.map_eq_some_iff.1 hparts
        simp [ih htail]

/-- The pieces of a text, put together again, are the text. -/
theorem flatMap_chars_of_pieces {text : List Char} {parts : List Piece}
    (hparts : pieces text = some parts) : parts.flatMap (·.chars) = text :=
  flatMap_chars_of_piecesAfter hparts

/-- The tokens among the pieces of a text that begins at an offset. -/
def lexemesFrom (offset : Nat) : List Piece → List Lexeme
  | [] => []
  | piece :: rest =>
    let stop := offset + Text.byteLength piece.chars
    match piece.token? with
    | some token => ⟨token, offset, stop⟩ :: lexemesFrom stop rest
    | none => lexemesFrom stop rest

def lexemes? (text : List Char) : Option (List Lexeme) :=
  (pieces text).map (lexemesFrom 0)

end LinkedJson.Grammar
