import LinkedJson.Text.Blank
import LinkedJson.Text.Hex
import LinkedJson.Text.Parts

/-!
# String literals

A string literal is decoded strictly: the escapes are the eight short ones and `\u` with four
hexadecimal digits, surrogate halves come in pairs, and control characters stand escaped. A literal
that cannot be decoded keeps its source text, without the blanks and then the quotes at both ends.
-/

namespace LinkedJson.Literal

/-- The code unit that four hexadecimal digits stand for. -/
def codeUnit (a b c d : Char) : Option Nat := do
  let high := (← Text.hexValue a) * 16 + (← Text.hexValue b)
  let low := (← Text.hexValue c) * 16 + (← Text.hexValue d)
  return high * 256 + low

def isHighSurrogate (unit : Nat) : Bool :=
  0xD800 ≤ unit && unit < 0xDC00

def isLowSurrogate (unit : Nat) : Bool :=
  0xDC00 ≤ unit && unit < 0xE000

def pairedChar (high low : Nat) : Char :=
  Char.ofNat (0x10000 + (high - 0xD800) * 0x400 + (low - 0xDC00))

def shortEscape : Char → Option Char
  | '"' => some '"'
  | '\\' => some '\\'
  | '/' => some '/'
  | 'b' => some '\x08'
  | 'f' => some '\x0c'
  | 'n' => some '\n'
  | 'r' => some '\r'
  | 't' => some '\t'
  | _ => none

/-- Decodes the characters after an opening quote, up to the closing quote, and returns the value
with what follows that quote. -/
def decodeBody : List Char → Option (List Char × List Char)
  | [] => none
  | '"' :: rest => some ([], rest)
  | '\\' :: 'u' :: a :: b :: c :: d :: rest =>
    match codeUnit a b c d with
    | none => none
    | some unit =>
      if isHighSurrogate unit then
        -- The first half of a pair says nothing without the second one.
        match rest with
        | '\\' :: 'u' :: e :: f :: g :: h :: rest =>
          match codeUnit e f g h with
          | none => none
          | some low =>
            if isLowSurrogate low then
              (decodeBody rest).map fun (value, rest) ↦ (pairedChar unit low :: value, rest)
            else
              none
        | _ => none
      else if isLowSurrogate unit then
        none
      else
        (decodeBody rest).map fun (value, rest) ↦ (Char.ofNat unit :: value, rest)
  | '\\' :: escape :: rest =>
    match shortEscape escape with
    | none => none
    | some c => (decodeBody rest).map fun (value, rest) ↦ (c :: value, rest)
  | c :: rest =>
    if c = '\\' ∨ c.toNat < 0x20 then
      none
    else
      (decodeBody rest).map fun (value, rest) ↦ (c :: value, rest)

/-- The blanks that may stand around a literal. -/
def isLayout (c : Char) : Bool :=
  c == ' ' || c == '\n' || c == '\t' || c == '\r'

/-- The value of a literal with its quotes, if it is well formed. -/
def decode? (source : List Char) : Option (List Char) :=
  match source.dropWhile isLayout with
  | '"' :: body =>
    match decodeBody body with
    | some (value, rest) => if rest.all isLayout then some value else none
    | none => none
  | _ => none

/-- What stands for the value of a literal that cannot be decoded. -/
def undecoded (source : List Char) : List Char :=
  Text.trim (· == '"') (Text.trim Text.isBlank source)

def value (source : List Char) : String :=
  String.ofList ((decode? source).getD (undecoded source))

end LinkedJson.Literal
