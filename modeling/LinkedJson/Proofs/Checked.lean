import LinkedJson.Proofs.Edits
import LinkedJson.Proofs.Text.Columns
import LinkedJson.Proofs.Text.Scan

/-!
# Checked conversions and edits

Cutting a text is only meaningful between two of its boundaries, a line start can only be looked up
for a line that the index has, and an offset cannot be lowered below zero. The functions on texts
and documents are total and do not ask. Here they stand once more in a checked form, in which each
of these operations is refused where it is not meaningful, and a refusal anywhere refuses the whole.
The checked functions never refuse. This rests on the index of a document being that of its text,
which every edit preserves, whatever its range.
-/

namespace LinkedJson

/-- The difference of two numbers, refused where it would be negative. -/
def difference? (larger smaller : Nat) : Option Nat :=
  if smaller ≤ larger then some (larger - smaller) else none

namespace Text

/-- The offsets at which a part can be cut out of a text: boundaries, in order and inside the text.
-/
structure Cuttable (text : List Char) (start stop : Nat) : Prop where
  start_le_stop : start ≤ stop
  stop_le : stop ≤ byteLength text
  start_boundary : IsBoundary text start
  stop_boundary : IsBoundary text stop

instance (text : List Char) (start stop : Nat) : Decidable (Cuttable text start stop) :=
  decidable_of_iff (start ≤ stop ∧ stop ≤ byteLength text ∧ IsBoundary text start ∧
      IsBoundary text stop)
    ⟨fun h ↦ ⟨h.1, h.2.1, h.2.2.1, h.2.2.2⟩,
      fun h ↦ ⟨h.start_le_stop, h.stop_le, h.start_boundary, h.stop_boundary⟩⟩

/-- The part of a text between two offsets, refused unless it can be cut out. -/
def slice? (text : List Char) (start stop : Nat) : Option (List Char) :=
  if Cuttable text start stop then some (slice text start stop) else none

/-- A text with the part between two offsets replaced, refused unless that can be cut out. -/
def splice? (text : List Char) (start stop : Nat) (replacement : List Char) : Option (List Char) :=
  if Cuttable text start stop then some (splice text start stop replacement) else none

/-- The first boundary that is met when an offset is lowered byte by byte, refused if there is none
down to zero. -/
def floorBoundary? (text : List Char) : Nat → Option Nat
  | 0 => if IsBoundary text 0 then some 0 else none
  | offset + 1 =>
    if IsBoundary text (offset + 1) then some (offset + 1) else floorBoundary? text offset

theorem Cuttable.of_le {text : List Char} {start stop : Nat} (hle : start ≤ stop)
    (hstart : IsBoundary text start) (hstop : IsBoundary text stop) : Cuttable text start stop where
  start_le_stop := hle
  stop_le := hstop.le_byteLength
  start_boundary := hstart
  stop_boundary := hstop

theorem Cuttable.slice?_eq {text : List Char} {start stop : Nat}
    (hcuttable : Cuttable text start stop) :
    slice? text start stop = some (slice text start stop) :=
  if_pos hcuttable

theorem Cuttable.splice?_eq {text : List Char} {start stop : Nat}
    (hcuttable : Cuttable text start stop) (replacement : List Char) :
    splice? text start stop replacement = some (splice text start stop replacement) :=
  if_pos hcuttable

theorem floorBoundary_succ {text : List Char} {offset : Nat}
    (hinside : ¬ IsBoundary text (offset + 1)) :
    floorBoundary text (offset + 1) = floorBoundary text offset := by
  obtain ⟨⟨hboundary, hle⟩, hgreatest⟩ := isGreatest_floorBoundary text (offset + 1)
  have hne : floorBoundary text (offset + 1) ≠ offset + 1 := by
    intro heq
    rw [heq] at hboundary
    exact hinside hboundary
  apply Nat.le_antisymm
  · exact (isGreatest_floorBoundary text offset).2 ⟨hboundary, by omega⟩
  · exact byteLength_le_of_isPrefix (isPrefix_takeBytes text (Nat.le_succ offset))

/-- Lowering an offset byte by byte ends at the boundary that rounding down gives. -/
theorem floorBoundary?_eq_some (text : List Char) (offset : Nat) :
    floorBoundary? text offset = some (floorBoundary text offset) := by
  induction offset with
  | zero =>
    have hzero : IsBoundary text 0 := by
      rw [IsBoundary, takeBytes_zero]
      rfl
    rw [floorBoundary?, if_pos hzero]
    exact congrArg some hzero.symm
  | succ offset ih =>
    rw [floorBoundary?]
    split
    · next hboundary => exact congrArg some hboundary.symm
    · next hinside => rw [ih, floorBoundary_succ hinside]

theorem floorBoundary_min (text : List Char) (offset : Nat) :
    floorBoundary text (min offset (byteLength text)) = floorBoundary text offset := by
  have hgreatest := isGreatest_floorBoundary text (min offset (byteLength text))
  rw [Nat.min_assoc, Nat.min_self] at hgreatest
  exact hgreatest.unique (isGreatest_floorBoundary text offset)

end Text

namespace LineIndex

open Text

/-- The position of an offset, with every step checked. -/
def position? (index : LineIndex) (text : List Char) (offset : Nat) : Option Position := do
  let boundary ← floorBoundary? text (min offset (byteLength text))
  let line ← difference? (index.linesThrough boundary) 1
  let start ← index.lineStarts[line]?
  let column ← slice? text start boundary
  return ⟨line.toUInt32, (utf16Length column).toUInt32⟩

/-- The offset at which a line ends, with every step checked. -/
def lineEnd? (index : LineIndex) (text : List Char) (line : Nat) : Option Nat :=
  match index.lineStarts[line + 1]? with
  | some next => difference? next 1
  | none => some (byteLength text)

/-- The offset of a position, with every step checked. -/
def offset? (index : LineIndex) (text : List Char) (position : Position) : Option Nat :=
  match index.lineStarts[position.line.toNat]? with
  | none => some (byteLength text)
  | some start => do
    let stop ← index.lineEnd? text position.line.toNat
    let line ← slice? text start stop
    return start + columnBytes position.character.toNat (stripReturn line)

theorem getElem?_lineStarts {index : LineIndex} {line : Nat} (hline : line < index.lineCount) :
    index.lineStarts[line]? = some (index.lineStart line) := by
  rw [lineStart, List.getD_eq_getElem?_getD, List.getElem?_eq_getElem hline]
  rfl

/-- No line but the first one starts at zero. -/
theorem lineEnd?_eq_some (text : List Char) (line : Nat) :
    (ofChars text).lineEnd? text line = some ((ofChars text).lineEnd text line) := by
  unfold lineEnd? lineEnd
  cases hnext : (ofChars text).lineStarts[line + 1]? with
  | none => rfl
  | some next =>
    have hmem : next ∈ startsAfter 0 text := List.mem_of_getElem? hnext
    have hpos := (bounds_of_mem_startsAfter hmem).1
    exact if_pos hpos

theorem linesThrough_floorBoundary (text : List Char) (offset : Nat) :
    (ofChars text).linesThrough (floorBoundary text offset) =
      (takeBytes offset text).count '\n' + 1 := by
  have hlines := linesThrough_append (takeBytes offset text) (dropBytes offset text)
  rwa [takeBytes_append_dropBytes] at hlines

theorem lineOf_floorBoundary (text : List Char) (offset : Nat) :
    (ofChars text).lineOf (floorBoundary text offset) = (takeBytes offset text).count '\n' := by
  rw [lineOf, linesThrough_floorBoundary, Nat.add_sub_cancel]

theorem cuttable_lineOf (text : List Char) (offset : Nat) :
    Cuttable text
      ((ofChars text).lineStart ((ofChars text).lineOf (floorBoundary text offset)))
      (floorBoundary text offset) := by
  have hline := isLine_takeBytes text offset
  rw [lineOf_floorBoundary, hline.lineStart_eq]
  apply Cuttable.of_le
  · calc
      byteLength (linesBefore (takeBytes offset text)) ≤
          byteLength (linesBefore (takeBytes offset text) ++ lastLine (takeBytes offset text)) :=
        byteLength_le_of_isPrefix (List.prefix_append _ _)
      _ = floorBoundary text offset := by
        rw [linesBefore_append_lastLine]
        rfl
  · exact hline.isBoundary_of_isPrefix List.nil_prefix
  · exact isBoundary_floorBoundary text offset

theorem position?_eq_some (text : List Char) (offset : Nat) :
    (ofChars text).position? text offset = some ((ofChars text).position text offset) := by
  have hfloor : floorBoundary? text (min offset (byteLength text)) =
      some (floorBoundary text offset) := by
    rw [floorBoundary?_eq_some, floorBoundary_min]
  have hline : difference? ((ofChars text).linesThrough (floorBoundary text offset)) 1 =
      some ((ofChars text).lineOf (floorBoundary text offset)) := by
    apply if_pos
    rw [linesThrough_floorBoundary]
    exact Nat.le_add_left _ _
  have hstart : (ofChars text).lineStarts[(ofChars text).lineOf (floorBoundary text offset)]? =
      some ((ofChars text).lineStart ((ofChars text).lineOf (floorBoundary text offset))) := by
    apply getElem?_lineStarts
    rw [lineOf_floorBoundary]
    exact (isLine_takeBytes text offset).number_lt
  have hslice := (cuttable_lineOf text offset).slice?_eq
  simp only [position?, hfloor, hline, hstart, hslice, Option.bind_eq_bind, Option.bind_some,
    Option.pure_def]
  rfl

theorem offset?_eq_some (text : List Char) (position : Position) :
    (ofChars text).offset? text position = some ((ofChars text).offset text position) := by
  unfold offset? offset
  by_cases hpast : text.count '\n' < position.line.toNat
  · have hcount : (ofChars text).lineCount ≤ position.line.toNat := by
      rw [lineCount_ofChars]
      exact hpast
    rw [if_neg (Nat.not_lt.2 hcount), List.getElem?_eq_none hcount]
  · obtain ⟨earlier, line, later, hline⟩ := exists_isLine (Nat.le_of_not_lt hpast)
    have hcuttable : Cuttable text ((ofChars text).lineStart position.line.toNat)
        ((ofChars text).lineEnd text position.line.toNat) := by
      rw [hline.lineStart_eq, hline.lineEnd_eq]
      apply Cuttable.of_le (Nat.le_add_right _ _)
      · exact hline.isBoundary_of_isPrefix List.nil_prefix
      · exact hline.isBoundary_of_isPrefix (List.prefix_refl line)
    rw [if_pos hline.number_lt, getElem?_lineStarts hline.number_lt]
    simp only [lineEnd?_eq_some, hcuttable.slice?_eq, Option.bind_eq_bind, Option.bind_some,
      Option.pure_def]
    rfl

-- With the index of another text, the end of the first line falls into a character.
example : (ofText "a\n").offset? "é".toList ⟨0, 0⟩ = none := by decide +kernel

end LineIndex

namespace Document

open Text

/-- The position of an offset, with every step checked. -/
def position? (document : Document) (offset : Nat) : Option Position :=
  document.lines.position? document.text.toList offset

/-- The offset of a position, with every step checked. -/
def offset? (document : Document) (position : Position) : Option Nat :=
  document.lines.offset? document.text.toList position

/-- The text after an edit, with every step checked. -/
def editedText? (document : Document) (edit : Edit) : Option String :=
  match edit.range with
  | none => some edit.text
  | some range => do
    let first ← document.offset? range.start
    let second ← document.offset? range.stop
    let edited ← splice? document.text.toList (min first second) (max first second)
      edit.text.toList
    return String.ofList edited

/-- The document after an edit of its text, with every step checked. -/
def applyEdit? (document : Document) (edit : Edit) : Option Document :=
  (document.editedText? edit).map document.withText

/-- The document in a new version, after edits with every step checked. -/
def applyEdits? (document : Document) (version : Int32) (edits : List Edit) : Option Document := do
  let edited ← edits.foldlM applyEdit? document
  return { edited with version, symbols := .empty }

theorem position?_eq_some (document : Document) (offset : Nat) :
    document.position? offset = some (document.position offset) := by
  rw [position?, position_eq, document.lines_eq]
  exact LineIndex.position?_eq_some document.text.toList offset

theorem offset?_eq_some (document : Document) (position : Position) :
    document.offset? position = some (document.offset position) := by
  rw [offset?, offset_eq, document.lines_eq]
  exact LineIndex.offset?_eq_some document.text.toList position

theorem isBoundary_offset (document : Document) (position : Position) :
    IsBoundary document.text.toList (document.offset position) := by
  rw [offset_eq]
  exact LineIndex.isBoundary_offset document.text.toList position

/-- The ends of any range lead to offsets between which the text can be cut, once they are put in
order. -/
theorem cuttable_offset (document : Document) (first second : Position) :
    Cuttable document.text.toList (min (document.offset first) (document.offset second))
      (max (document.offset first) (document.offset second)) := by
  have hfirst := document.isBoundary_offset first
  have hsecond := document.isBoundary_offset second
  rcases Nat.le_total (document.offset first) (document.offset second) with hle | hle
  · rw [Nat.min_eq_left hle, Nat.max_eq_right hle]
    exact Cuttable.of_le hle hfirst hsecond
  · rw [Nat.min_eq_right hle, Nat.max_eq_left hle]
    exact Cuttable.of_le hle hsecond hfirst

theorem editedText?_eq_some (document : Document) (edit : Edit) :
    document.editedText? edit = some (document.editedText edit) := by
  unfold editedText? editedText
  cases edit.range with
  | none => rfl
  | some range =>
    have hsplice := (document.cuttable_offset range.start range.stop).splice?_eq
    simp only [offset?_eq_some, hsplice, Option.bind_eq_bind, Option.bind_some,
      Option.pure_def]

theorem applyEdit?_eq_some (document : Document) (edit : Edit) :
    document.applyEdit? edit = some (document.applyEdit edit) := by
  rw [applyEdit?, editedText?_eq_some]
  rfl

theorem foldlM_applyEdit?_eq_some (document : Document) (edits : List Edit) :
    edits.foldlM applyEdit? document = some (edits.foldl applyEdit document) := by
  induction edits generalizing document with
  | nil => rfl
  | cons edit edits ih =>
    rw [List.foldlM_cons, applyEdit?_eq_some, List.foldl_cons]
    exact ih (document.applyEdit edit)

theorem applyEdits?_eq_some (document : Document) (version : Int32) (edits : List Edit) :
    document.applyEdits? version edits = some (document.applyEdits version edits) := by
  rw [applyEdits?, foldlM_applyEdit?_eq_some]
  rfl

/-- The document after batches of edits. -/
def applyBatches (document : Document) (batches : List (Int32 × List Edit)) : Document :=
  batches.foldl (fun document batch ↦ document.applyEdits batch.1 batch.2) document

/-- The document after batches of edits, with every step checked. -/
def applyBatches? (document : Document) (batches : List (Int32 × List Edit)) : Option Document :=
  batches.foldlM (fun document batch ↦ document.applyEdits? batch.1 batch.2) document

theorem applyBatches?_eq_some (document : Document) (batches : List (Int32 × List Edit)) :
    document.applyBatches? batches = some (document.applyBatches batches) := by
  induction batches generalizing document with
  | nil => rfl
  | cons batch batches ih =>
    rw [applyBatches?, List.foldlM_cons, applyEdits?_eq_some]
    exact ih (document.applyEdits batch.1 batch.2)

end Document

/-! ## The bytes of an edited text -/

namespace Text

theorem utf8ByteSize_ofList (text : List Char) :
    (String.ofList text).utf8ByteSize = byteLength text := by
  rw [← String.size_toByteArray, String.toByteArray_ofList]
  induction text with
  | nil => rfl
  | cons c text ih =>
    rw [List.utf8Encode_cons, ByteArray.size_append, ih, List.utf8Encode_singleton,
      List.size_toByteArray, String.length_utf8EncodeChar, byteLength_cons]

/-- Two places at which a text can be cut divide it into three. -/
theorem Cuttable.exists_append {text : String} {start stop : Nat}
    (hcuttable : Cuttable text.toList start stop) :
    ∃ front removed back : String, text = front ++ removed ++ back ∧
      front.utf8ByteSize = start ∧ (front ++ removed).utf8ByteSize = stop ∧
      ∀ replacement : String,
        String.ofList (splice text.toList start stop replacement.toList) =
          front ++ replacement ++ back := by
  obtain ⟨front, hfront, hstart⟩ := isBoundary_iff.1 hcuttable.start_boundary
  obtain ⟨whole, ⟨back, hback⟩, hstop⟩ := isBoundary_iff.1 hcuttable.stop_boundary
  have hprefix : front <+: whole := by
    apply prefix_of_byteLength_le hfront ⟨back, hback⟩
    rw [hstart, hstop]
    exact hcuttable.start_le_stop
  obtain ⟨removed, rfl⟩ := hprefix
  refine ⟨String.ofList front, String.ofList removed, String.ofList back, ?_, ?_, ?_, ?_⟩
  · rw [← String.ofList_append, ← String.ofList_append, hback, String.ofList_toList]
  · rw [utf8ByteSize_ofList, hstart]
  · rw [← String.ofList_append, utf8ByteSize_ofList, hstop]
  · intro replacement
    have hdrop : dropBytes stop text.toList = back := by
      rw [← hstop, ← hback, dropBytes_append]
    rw [splice, ← hstart, takeBytes_of_isPrefix hfront, hdrop, String.ofList_append,
      String.ofList_append, String.ofList_toList]

/-- Replacing a part of a text replaces the bytes of that part, and what results is the encoding of
a text again. -/
theorem Cuttable.toUTF8_splice {text : String} {start stop : Nat}
    (hcuttable : Cuttable text.toList start stop) (replacement : String) :
    (String.ofList (splice text.toList start stop replacement.toList)).toUTF8 =
      text.toUTF8.extract 0 start ++ replacement.toUTF8 ++
        text.toUTF8.extract stop text.toUTF8.size := by
  obtain ⟨front, removed, back, htext, hstart, hstop, hsplice⟩ := hcuttable.exists_append
  have hfront : text.toUTF8.extract 0 start = front.toUTF8 := by
    rw [htext, String.append_assoc]
    exact ByteArray.extract_append_eq_left hstart.symm
  have hback : text.toUTF8.extract stop text.toUTF8.size = back.toUTF8 := by
    rw [htext]
    exact ByteArray.extract_append_eq_right hstop.symm ByteArray.size_append
  rw [hsplice, hfront, hback]
  rfl

end Text

open Text

/-- No edit and no conversion is refused, for a document that is reached from any text by batches of
edits with arbitrary ranges. An edit of a range cuts the text at two boundaries and keeps what lies
before and behind them. In bytes, too, the new text is a beginning of the old one, the replacement
and an end of the old one. -/
theorem edits_never_refused (address : Address) (version : Int32) (text : String)
    (batches : List (Int32 × List Edit)) :
    let opened := Document.ofText address version text
    let document := opened.applyBatches batches
    opened.applyBatches? batches = some document ∧
    (∀ offset, document.position? offset = some (document.position offset)) ∧
    (∀ position, document.offset? position = some (document.offset position)) ∧
    (∀ edit, document.applyEdit? edit = some (document.applyEdit edit)) ∧
    (∀ edit range, edit.range = some range →
      let start := min (document.offset range.start) (document.offset range.stop)
      let stop := max (document.offset range.start) (document.offset range.stop)
      Cuttable document.text.toList start stop ∧
      (∃ front removed back, document.text = front ++ removed ++ back ∧
        front.utf8ByteSize = start ∧ (front ++ removed).utf8ByteSize = stop ∧
        (document.applyEdit edit).text = front ++ edit.text ++ back) ∧
      (document.applyEdit edit).text.toUTF8 =
        document.text.toUTF8.extract 0 start ++ edit.text.toUTF8 ++
          document.text.toUTF8.extract stop document.text.toUTF8.size) := by
  intro opened document
  refine ⟨opened.applyBatches?_eq_some batches, document.position?_eq_some,
    document.offset?_eq_some, document.applyEdit?_eq_some, ?_⟩
  intro edit range hrange start stop
  have hcuttable : Cuttable document.text.toList start stop :=
    document.cuttable_offset range.start range.stop
  have hedited : (document.applyEdit edit).text =
      String.ofList (splice document.text.toList start stop edit.text.toList) := by
    change document.editedText edit = _
    rw [Document.editedText, hrange]
  obtain ⟨front, removed, back, htext, hstart, hstop, hsplice⟩ := hcuttable.exists_append
  refine ⟨hcuttable, ⟨front, removed, back, htext, hstart, hstop, ?_⟩, ?_⟩
  · rw [hedited, hsplice]
  · rw [hedited, hcuttable.toUTF8_splice]

end LinkedJson
