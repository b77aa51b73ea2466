import LinkedJson.Address.Basic
import LinkedJson.Symbol.Table
import LinkedJson.Text.LineIndex

/-!
# Documents

A document is a text under an address, in the version that its editor last named. Beside the text it
keeps the index of its lines and the table of its symbols. The index is always that of the text; the
table is emptied by edits and filled again when the document is analysed.
-/

namespace LinkedJson

/-- A change of a text: a replacement for a range, or for all of it. -/
structure Edit where
  range : Option Range
  text : String
deriving DecidableEq, Repr

/-- A text under an address, with what is derived from it. -/
structure Document where
  address : Address
  version : Int32
  text : String
  lines : LineIndex
  symbols : SymbolTable
  lines_eq : lines = .ofText text
deriving DecidableEq

namespace Document

/-- A document that has not been analysed yet. -/
def ofText (address : Address) (version : Int32) (text : String) : Document :=
  ⟨address, version, text, .ofText text, .empty, rfl⟩

def position (document : Document) (offset : Nat) : Position :=
  document.lines.position document.text.toList offset

def offset (document : Document) (position : Position) : Nat :=
  document.lines.offset document.text.toList position

def range (document : Document) (span : Span) : Range :=
  ⟨document.position span.offset, document.position span.stop⟩

def withText (document : Document) (text : String) : Document :=
  { document with text, lines := .ofText text, lines_eq := rfl }

/-- The text after an edit. The ends of a range may come in either order. -/
def editedText (document : Document) (edit : Edit) : String :=
  match edit.range with
  | none => edit.text
  | some range =>
    let first := document.offset range.start
    let second := document.offset range.stop
    String.ofList (Text.splice document.text.toList (min first second) (max first second)
      edit.text.toList)

def applyEdit (document : Document) (edit : Edit) : Document :=
  document.withText (document.editedText edit)

/-- The document in a new version, after edits that each take up the text left by the one before. -/
def applyEdits (document : Document) (version : Int32) (edits : List Edit) : Document :=
  { edits.foldl applyEdit document with version, symbols := .empty }

@[simp]
theorem address_applyEdit (document : Document) (edit : Edit) :
    (document.applyEdit edit).address = document.address :=
  rfl

@[simp]
theorem address_applyEdits (document : Document) (version : Int32) (edits : List Edit) :
    (document.applyEdits version edits).address = document.address := by
  simp only [applyEdits]
  induction edits generalizing document with
  | nil => rfl
  | cons edit edits ih => exact ih (document.applyEdit edit)

/-- A document is no more than a version of a text under an address, and a table. -/
theorem eq_ofText_with (document : Document) :
    document = { ofText document.address document.version document.text with
      symbols := document.symbols } := by
  obtain ⟨address, version, text, lines, symbols, rfl⟩ := document
  rfl

theorem position_eq (document : Document) (offset : Nat) :
    document.position offset =
      (LineIndex.ofText document.text).position document.text.toList offset := by
  rw [position, document.lines_eq]

theorem offset_eq (document : Document) (position : Position) :
    document.offset position =
      (LineIndex.ofText document.text).offset document.text.toList position := by
  rw [offset, document.lines_eq]

end Document

end LinkedJson
