import LinkedJson.Text.Bytes

/-!
# Lines and positions

A position names a place in a text by its line and by the UTF-16 column inside that line. Lines end
at line feeds only. A `LineIndex` keeps the offset at which each line starts, so that offsets and
positions can be exchanged. Both directions are total: an offset inside a character stands for the
start of that character, one past the end for the end, a column past its line for the end of the
line (before a carriage return), and a line past the last one for the end of the text.
-/

namespace LinkedJson

/-- A line and a column in UTF-16 code units, both counted from zero in 32 bits. -/
structure Position where
  line : UInt32
  character : UInt32
deriving DecidableEq, Repr, Inhabited

structure Range where
  start : Position
  stop : Position
deriving DecidableEq, Repr, Inhabited

def Range.zero : Range := ⟨⟨0, 0⟩, ⟨0, 0⟩⟩

/-- The offsets at which the lines of a text start. -/
structure LineIndex where
  lineStarts : List Nat
deriving DecidableEq, Repr

namespace LineIndex

/-- The starts of all lines but the first, for a text that begins at `offset`. -/
def startsAfter (offset : Nat) : List Char → List Nat
  | [] => []
  | c :: text =>
    let next := offset + c.utf8Size
    if c = '\n' then next :: startsAfter next text else startsAfter next text

def ofChars (text : List Char) : LineIndex :=
  ⟨0 :: startsAfter 0 text⟩

def ofText (text : String) : LineIndex :=
  ofChars text.toList

/-- The number of lines, which is one more than the number of line feeds. -/
def lineCount (index : LineIndex) : Nat :=
  index.lineStarts.length

/-- The number of lines that start at or before an offset. -/
def linesThrough (index : LineIndex) (offset : Nat) : Nat :=
  (index.lineStarts.takeWhile (· ≤ offset)).length

def lineOf (index : LineIndex) (offset : Nat) : Nat :=
  index.linesThrough offset - 1

def lineStart (index : LineIndex) (line : Nat) : Nat :=
  index.lineStarts.getD line 0

/-- The offset at which a line ends, its line feed excluded. -/
def lineEnd (index : LineIndex) (text : List Char) (line : Nat) : Nat :=
  match index.lineStarts[line + 1]? with
  | some next => next - 1
  | none => Text.byteLength text

def stripReturn (line : List Char) : List Char :=
  if line.getLast? = some '\r' then line.dropLast else line

/-- The characters of a line, without the line feed or the carriage return that ends it. -/
def lineChars (index : LineIndex) (text : List Char) (line : Nat) : List Char :=
  stripReturn (Text.slice text (index.lineStart line) (index.lineEnd text line))

/-- The number of bytes before a column of a line. A column inside a character that takes two units
stands for the end of that character, and a column past the line for its end. -/
def columnBytes (column : Nat) : List Char → Nat
  | [] => 0
  | c :: line =>
    if column = 0 then 0 else c.utf8Size + columnBytes (column - Text.utf16Units c) line

def position (index : LineIndex) (text : List Char) (offset : Nat) : Position :=
  let boundary := Text.floorBoundary text offset
  let line := index.lineOf boundary
  { line := line.toUInt32
    character := (Text.utf16Length (Text.slice text (index.lineStart line) boundary)).toUInt32 }

def offset (index : LineIndex) (text : List Char) (position : Position) : Nat :=
  let line := position.line.toNat
  if line < index.lineCount then
    index.lineStart line + columnBytes position.character.toNat (index.lineChars text line)
  else
    Text.byteLength text

end LineIndex

end LinkedJson
