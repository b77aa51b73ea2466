import LinkedJson.Definition
import LinkedJson.Diagnostic
import LinkedJson.Proofs.Edits
import LinkedJson.Proofs.Text.Order

/-!
# Ranges of a document

Ranges are made from offsets: those of a span, of a syntax error, or of the text between the quotes
of a reference. The offsets need not fit the text. They may lie past its end or inside a character,
and the spans of symbols may come from a table that was made for another text. Positions grow with
the offsets, and every offset has a position on one of the lines. The ends of all ranges are
therefore places of the document, and they are in order wherever the end of the span fits in a
machine word.
-/

namespace LinkedJson

open Text

namespace LineIndex

/-- The position of an offset is a column of one of the lines, which may be the end of the line. -/
theorem exists_line_of_position {text : List Char} (hsize : byteLength text < 2 ^ 32)
    (offset : Nat) :
    ∃ line, (lines text)[((ofChars text).position text offset).line.toNat]? = some line ∧
      ((ofChars text).position text offset).character.toNat ≤ utf16Length line := by
  obtain ⟨hline, hcolumn⟩ := toNat_position hsize offset
  refine ⟨_, by rw [hline]; exact (isLine_takeBytes text offset).getElem?_lines, ?_⟩
  rw [hcolumn, utf16Length_append]
  exact Nat.le_add_right _ _

end LineIndex

namespace Document

/-- A place of a document: the document has the line, and the line reaches up to the column. -/
structure HasPosition (document : Document) (position : Position) : Prop where
  line_lt : position.line.toNat < document.lines.lineCount
  character_le : ∃ line, (Text.lines document.text.toList)[position.line.toNat]? = some line ∧
    position.character.toNat ≤ utf16Length line

/-- A range between two places of a document. -/
structure HasEnds (document : Document) (range : Range) : Prop where
  start_exists : document.HasPosition range.start
  stop_exists : document.HasPosition range.stop

/-- A range between two places of a document, in order. -/
structure HasRange (document : Document) (range : Range) : Prop extends
    document.HasEnds range where
  start_le_stop : range.start ≤ range.stop

variable {document : Document}

theorem position_mono (hsize : byteLength document.text.toList < 2 ^ 32) {first second : Nat}
    (hle : first ≤ second) : document.position first ≤ document.position second := by
  rw [position_eq, position_eq]
  exact LineIndex.position_mono hsize hle

theorem offset_mono {first second : Position} (hle : first ≤ second) :
    document.offset first ≤ document.offset second := by
  rw [offset_eq, offset_eq]
  exact LineIndex.offset_mono document.text.toList hle

theorem hasPosition_position (hsize : byteLength document.text.toList < 2 ^ 32) (offset : Nat) :
    document.HasPosition (document.position offset) := by
  have hexists := LineIndex.exists_line_of_position hsize offset
  have hposition : (LineIndex.ofChars document.text.toList).position document.text.toList offset =
      document.position offset := (document.position_eq offset).symm
  rw [hposition] at hexists
  refine ⟨?_, hexists⟩
  obtain ⟨line, hline, -⟩ := hexists
  calc
    (document.position offset).line.toNat < (Text.lines document.text.toList).length :=
      (List.getElem?_eq_some_iff.1 hline).1
    _ = document.text.toList.count '\n' + 1 := length_lines _
    _ = document.lines.lineCount := by
      rw [document.lines_eq]
      exact (LineIndex.lineCount_ofChars _).symm

theorem hasEnds_position (hsize : byteLength document.text.toList < 2 ^ 32)
    (first second : Nat) :
    document.HasEnds ⟨document.position first, document.position second⟩ where
  start_exists := hasPosition_position hsize first
  stop_exists := hasPosition_position hsize second

/-- Two offsets in order give a range of the document, whatever they are. -/
theorem hasRange_of_le (hsize : byteLength document.text.toList < 2 ^ 32) {first second : Nat}
    (hle : first ≤ second) :
    document.HasRange ⟨document.position first, document.position second⟩ where
  toHasEnds := hasEnds_position hsize first second
  start_le_stop := position_mono hsize hle

theorem hasRange_range (hsize : byteLength document.text.toList < 2 ^ 32) {span : Span}
    (hfits : span.offset + span.length < UInt64.size) :
    document.HasRange (document.range span) := by
  apply hasRange_of_le hsize
  calc
    span.offset ≤ span.offset + span.length := Nat.le_add_right _ _
    _ = span.stop := (Nat.mod_eq_of_lt hfits).symm

end Document

/-- Offsets and positions are exchanged in order, in both directions. Therefore the range of any
span, that of any syntax error and that of the text inside the quotes of any symbol's value have
places of the document for their ends. The last one is always in order, and the others are if the
end of the span fits in a word. -/
theorem ranges_in_order_and_in_text {document : Document}
    (hsize : byteLength document.text.toList < 2 ^ 32) :
    (∀ first second : Nat, first ≤ second →
      document.position first ≤ document.position second) ∧
    (∀ first second : Position, first ≤ second →
      document.offset first ≤ document.offset second) ∧
    (∀ span : Span, document.HasEnds (document.range span) ∧
      (span.offset + span.length < UInt64.size → document.HasRange (document.range span))) ∧
    (∀ error : SyntaxError, document.HasEnds (Diagnostic.ofError document error).range ∧
      (error.span.offset + error.span.length < UInt64.size →
        document.HasRange (Diagnostic.ofError document error).range)) ∧
    (∀ symbol : Symbol,
      document.HasRange (Workspace.originRange document symbol.valueSpan)) := by
  have hrange : ∀ span : Span, document.HasEnds (document.range span) ∧
      (span.offset + span.length < UInt64.size → document.HasRange (document.range span)) :=
    fun span ↦ ⟨Document.hasEnds_position hsize _ _, Document.hasRange_range hsize⟩
  refine ⟨?_, ?_, hrange, fun error ↦ hrange error.span, ?_⟩
  · intro first second hle
    exact Document.position_mono hsize hle
  · intro first second hle
    exact Document.offset_mono hle
  · intro symbol
    -- The end is never taken before the start, even where one of the two sums does not fit.
    exact Document.hasRange_of_le hsize (Nat.le_max_left _ _)

/-- A table of another text: a reference whose value is empty and lies inside an astral character,
which stands at the end of a line. -/
theorem ranges_in_order_and_in_text_foreign :
    let document : Document :=
      { Document.ofText ⟨"a", none, .rootless "b", none, none⟩ 1 "\"😀\r\n" with
        symbols := ⟨[⟨"/$ref", ⟨0, 3⟩, ⟨2, 0⟩, some "x"⟩]⟩ }
    byteLength document.text.toList < 2 ^ 32 ∧
    (∀ symbol ∈ document.symbols.references,
      document.HasRange (Workspace.originRange document symbol.valueSpan)) ∧
    Workspace.originRange document ⟨2, 0⟩ = ⟨⟨0, 1⟩, ⟨0, 1⟩⟩ ∧
    document.HasRange (document.range ⟨4, 100⟩) ∧
    document.range ⟨4, 100⟩ = ⟨⟨0, 1⟩, ⟨1, 0⟩⟩ := by
  intro document
  have hsize : byteLength document.text.toList < 2 ^ 32 := by decide +kernel
  obtain ⟨-, -, hspan, -, horigin⟩ := ranges_in_order_and_in_text hsize
  exact ⟨hsize, fun symbol _ ↦ horigin symbol, by decide +kernel, (hspan _).2 (by decide),
    by decide +kernel⟩

/-- A span that starts at the largest word ends at one. It is past the end of a text of three
characters, and its range ends before it starts. -/
theorem range_of_wrapped_span_reversed :
    let document := Document.ofText ⟨"a", none, .rootless "b", none, none⟩ 1 "123"
    byteLength document.text.toList < 2 ^ 32 ∧
    document.range ⟨18446744073709551615, 2⟩ = ⟨⟨0, 3⟩, ⟨0, 1⟩⟩ ∧
    (Diagnostic.ofError document ⟨.valueExpected, ⟨18446744073709551615, 2⟩⟩).range =
      ⟨⟨0, 3⟩, ⟨0, 1⟩⟩ ∧
    ¬ (⟨0, 3⟩ : Position) ≤ ⟨0, 1⟩ := by
  intro document
  exact ⟨by decide +kernel, by decide +kernel, by decide +kernel, by decide +kernel⟩

end LinkedJson
