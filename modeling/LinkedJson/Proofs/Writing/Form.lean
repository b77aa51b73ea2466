import LinkedJson.Node
import LinkedJson.Text.Bytes
import LinkedJson.Text.Hex

/-!
# Ways of writing a value

A JSON value can be written as a text in many ways: blanks and comments may stand between any two
tokens, and a character of a string may stand for itself or be written as an escape. A `Form` is a
value together with all these choices. From a form one reads off the value, the text, and the node
that stands for the value at a given offset, with the span of every construct in it. The parts of a
form carry the proofs that they are well formed, so that every form is a way of writing some value.
-/

namespace LinkedJson

/-- A JSON value. Members are in order, and a name may come more than once. Numbers are kept as they
are written. -/
inductive Json where
  | object (members : List (String × Json))
  | array (elements : List Json)
  | string (value : String)
  | number (literal : String)
  | boolean (value : Bool)
  | null

namespace Writing

open Text

/-! ## Blanks and comments -/

/-- A blank or a comment. A comment up to the end of its line includes the line feed. -/
inductive Filler where
  | blank (c : Char) (spacing : 9 ≤ c.toNat ∧ c.toNat ≤ 13 ∨ c.toNat = 32)
  | line (body : List Char) (inside : '\n' ∉ body)
  | block (body : List Char) (inside : ¬ ['*', '/'] <:+: body)

def Filler.chars : Filler → List Char
  | blank c _ => [c]
  | line body _ => '/' :: '/' :: (body ++ ['\n'])
  | block body _ => '/' :: '*' :: (body ++ ['*', '/'])

/-- What stands between two tokens. -/
abbrev Gap := List Filler

def Gap.chars (gap : Gap) : List Char :=
  gap.flatMap Filler.chars

/-! ## Strings -/

/-- The characters that have a short escape, each behind the letter of its escape. -/
def shortEscapes : List (Char × Char) :=
  [('"', '"'), ('\\', '\\'), ('/', '/'), ('b', '\x08'), ('f', '\x0c'), ('n', '\n'), ('r', '\r'),
    ('t', '\t')]

/-- A hexadecimal digit of either case and its value. -/
def IsHex (c : Char) (value : Nat) : Prop :=
  value < 16 ∧ (c = hexDigit value ∨ c = (hexDigit value).toLower)

/-- The four hexadecimal digits of a code unit. -/
def IsUnit (a b c d : Char) (unit : Nat) : Prop :=
  ∃ first second third fourth, IsHex a first ∧ IsHex b second ∧ IsHex c third ∧ IsHex d fourth ∧
    unit = first * 4096 + second * 256 + third * 16 + fourth

/-- How a character may be written in a string: as it is, by a short escape, by its code unit, or by
the two halves of its surrogate pair. -/
inductive Spells (char : Char) : List Char → Prop where
  | raw (hquote : char ≠ '"') (hbackslash : char ≠ '\\') (hprintable : 0x20 ≤ char.toNat) :
    Spells char [char]
  | short {letter : Char} (hescape : (letter, char) ∈ shortEscapes) : Spells char ['\\', letter]
  | unit {a b c d : Char} (hunit : IsUnit a b c d char.toNat) :
    Spells char ['\\', 'u', a, b, c, d]
  | pair {a b c d e f g h : Char} (hastral : 0x10000 ≤ char.toNat)
    (hhigh : IsUnit a b c d (0xD800 + (char.toNat - 0x10000) / 0x400))
    (hlow : IsUnit e f g h (0xDC00 + (char.toNat - 0x10000) % 0x400)) :
    Spells char ['\\', 'u', a, b, c, d, '\\', 'u', e, f, g, h]

/-- A character of a string as it is written. -/
structure Letter where
  char : Char
  source : List Char
  spells : Spells char source

/-- A string as it is written. -/
abbrev Quoted := List Letter

def Quoted.body (quoted : Quoted) : List Char :=
  quoted.flatMap Letter.source

def Quoted.chars (quoted : Quoted) : List Char :=
  '"' :: (quoted.body ++ ['"'])

def Quoted.value (quoted : Quoted) : String :=
  String.ofList (quoted.map Letter.char)

/-! ## Numbers -/

/-- The exponent of a number, which has a digit and may have a minus sign. -/
structure Exponent where
  letter : Char
  negative : Bool
  digits : List Char
  letter_eq : letter = 'e' ∨ letter = 'E'
  digits_ne_nil : digits ≠ []
  isDigit_digits : ∀ c ∈ digits, c.isDigit = true

def Exponent.chars (exponent : Exponent) : List Char :=
  exponent.letter :: ((if exponent.negative then ['-'] else []) ++ exponent.digits)

/-- A number: zero or digits that do not start with zero, then perhaps a point with digits behind
it, of which there may be none, and perhaps an exponent. -/
structure Numeral where
  negative : Bool
  first : Char
  digits : List Char
  fraction : Option (List Char)
  exponent : Option Exponent
  isDigit_first : first.isDigit = true
  isDigit_digits : ∀ c ∈ digits, c.isDigit = true
  digits_of_zero : first = '0' → digits = []
  isDigit_fraction : ∀ digits ∈ fraction, ∀ c ∈ digits, c.isDigit = true

def Numeral.fractionChars (numeral : Numeral) : List Char :=
  numeral.fraction.elim [] ('.' :: ·)

def Numeral.exponentChars (numeral : Numeral) : List Char :=
  numeral.exponent.elim [] Exponent.chars

def Numeral.chars (numeral : Numeral) : List Char :=
  (if numeral.negative then ['-'] else []) ++
    numeral.first :: (numeral.digits ++ (numeral.fractionChars ++ numeral.exponentChars))

/-! ## Values -/

mutual

/-- A value as it is written. What stands behind an opening bracket, if anything, is `inside`. -/
inductive Form where
  | object (inside : Gap) (members : Members)
  | array (inside : Gap) (elements : Elements)
  | string (quoted : Quoted)
  | number (numeral : Numeral)
  | boolean (value : Bool)
  | null

/-- The members of an object as they are written. -/
inductive Members where
  | none
  | cons (before : Gap) (name : Quoted) (beforeColon afterColon : Gap) (value : Form) (after : Gap)
    (rest : Members)

/-- The elements of an array as they are written. -/
inductive Elements where
  | none
  | cons (before : Gap) (value : Form) (after : Gap) (rest : Elements)

end

mutual

/-- The value that is written. -/
def Form.value : Form → Json
  | .object _ members => .object members.values
  | .array _ elements => .array elements.values
  | .string quoted => .string quoted.value
  | .number numeral => .number (String.ofList numeral.chars)
  | .boolean value => .boolean value
  | .null => .null

def Members.values : Members → List (String × Json)
  | .none => []
  | .cons _ name _ _ value _ rest => (name.value, value.value) :: rest.values

def Elements.values : Elements → List Json
  | .none => []
  | .cons _ value _ rest => value.value :: rest.values

end

/-- The comma before an item, which the first one does not have. -/
def comma (follows : Bool) : List Char :=
  if follows then [','] else []

mutual

/-- The text of a value. -/
def Form.chars : Form → List Char
  | .object inside members => '\x7b' :: (inside.chars ++ (members.chars false ++ ['\x7d']))
  | .array inside elements => '[' :: (inside.chars ++ (elements.chars false ++ [']']))
  | .string quoted => quoted.chars
  | .number numeral => numeral.chars
  | .boolean true => ['t', 'r', 'u', 'e']
  | .boolean false => ['f', 'a', 'l', 's', 'e']
  | .null => ['n', 'u', 'l', 'l']

/-- The text of members, the first of which follows another one or not. -/
def Members.chars (follows : Bool) : Members → List Char
  | .none => []
  | .cons before name beforeColon afterColon value after rest =>
    comma follows ++ (before.chars ++ (name.chars ++ (beforeColon.chars ++
      (':' :: (afterColon.chars ++ (value.chars ++ (after.chars ++ rest.chars true)))))))

/-- The text of elements, the first of which follows another one or not. -/
def Elements.chars (follows : Bool) : Elements → List Char
  | .none => []
  | .cons before value after rest =>
    comma follows ++ (before.chars ++ (value.chars ++ (after.chars ++ rest.chars true)))

end

/-- The offset behind a text that starts at an offset. -/
def past (offset : Nat) (text : List Char) : Nat :=
  offset + byteLength text

mutual

/-- The node of a value that is written at an offset. -/
def Form.node (offset : Nat) : Form → Node
  | .object inside members =>
    .object (members.nodes false (past (offset + 1) inside.chars))
      ⟨offset, byteLength (Form.object inside members).chars⟩
  | .array inside elements =>
    .array (elements.nodes false (past (offset + 1) inside.chars))
      ⟨offset, byteLength (Form.array inside elements).chars⟩
  | .string quoted => .string quoted.value ⟨offset, byteLength quoted.chars⟩
  | .number numeral =>
    .number (String.ofList numeral.chars) ⟨offset, byteLength numeral.chars⟩
  | .boolean true => .boolean true ⟨offset, 4⟩
  | .boolean false => .boolean false ⟨offset, 5⟩
  | .null => .null ⟨offset, 4⟩

/-- The nodes of members that are written from an offset on. A property starts with its name and
ends with its value. -/
def Members.nodes (follows : Bool) (offset : Nat) : Members → List Node
  | .none => []
  | .cons before name beforeColon afterColon value after rest =>
    let start := past (past offset (comma follows)) before.chars
    let valueStart := past (past (past start name.chars) beforeColon.chars + 1) afterColon.chars
    let stop := past valueStart value.chars
    .property [.string name.value ⟨start, byteLength name.chars⟩, value.node valueStart]
        ⟨start, stop - start⟩ ::
      rest.nodes true (past stop after.chars)

/-- The nodes of elements that are written from an offset on. -/
def Elements.nodes (follows : Bool) (offset : Nat) : Elements → List Node
  | .none => []
  | .cons before value after rest =>
    let start := past (past offset (comma follows)) before.chars
    value.node start :: rest.nodes true (past (past start value.chars) after.chars)

end

/-- A document as it is written: a value between blanks and comments. The last comment may end with
the text instead of a line feed. -/
structure Document where
  before : Gap
  form : Form
  after : Gap
  comment : Option { body : List Char // '\n' ∉ body }

namespace Document

def commentChars (document : Document) : List Char :=
  document.comment.elim [] fun body ↦ '/' :: '/' :: body.1

def chars (document : Document) : List Char :=
  document.before.chars ++
    (document.form.chars ++ (document.after.chars ++ document.commentChars))

def text (document : Document) : String :=
  String.ofList document.chars

/-- The node of the value of a document. -/
def node (document : Document) : Node :=
  document.form.node (byteLength document.before.chars)

end Document

end Writing

/-! ## Values of nodes -/

mutual

/-- The value that a node stands for, without the spans. -/
def Node.json? : Node → Option Json
  | .object members _ => (membersJson? members).map .object
  | .array elements _ => (elementsJson? elements).map .array
  | .string value _ => some (.string value)
  | .number literal _ => some (.number literal)
  | .boolean value _ => some (.boolean value)
  | .null _ => some .null
  | .property _ _ => none

def membersJson? : List Node → Option (List (String × Json))
  | [] => some []
  | .property [.string name _, value] _ :: rest => do
    return (name, ← value.json?) :: (← membersJson? rest)
  | _ => none

def elementsJson? : List Node → Option (List Json)
  | [] => some []
  | element :: rest => do
    return (← element.json?) :: (← elementsJson? rest)

end

end LinkedJson
