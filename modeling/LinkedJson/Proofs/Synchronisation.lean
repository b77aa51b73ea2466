import LinkedJson.Proofs.Edits
import LinkedJson.Proofs.Text.Lines

/-!
# Texts of an editor and a server stay equal

An editor replaces parts of its text between byte offsets; a server is told about them in positions
and replaces what it finds there. `Replacement` is the editor's side. If every offset is a boundary
of the text it refers to, and not one behind a carriage return that ends its line, then the two
texts are equal after every replacement. This does not depend on how the replacements are
distributed over messages, nor on the order in which the two ends of a range are given.
-/

namespace LinkedJson

open Text

/-- A replacement of the text between two offsets, with the order in which its ends are sent. -/
structure Replacement where
  start : Nat
  stop : Nat
  text : String
  reversed : Bool
deriving DecidableEq, Repr

namespace Replacement

/-- The text of the editor after a replacement. -/
def apply (replacement : Replacement) (text : String) : String :=
  String.ofList (takeBytes replacement.start text.toList ++ replacement.text.toList ++
    dropBytes replacement.stop text.toList)

/-- The edit that tells of a replacement, with positions in the text before it. -/
def edit (replacement : Replacement) (text : String) : Edit :=
  let first := (LineIndex.ofText text).position text.toList replacement.start
  let second := (LineIndex.ofText text).position text.toList replacement.stop
  ⟨some (if replacement.reversed then ⟨second, first⟩ else ⟨first, second⟩), replacement.text⟩

/-- A replacement that an editor can make in a text, and whose ends have positions of their own. -/
structure Fits (replacement : Replacement) (text : String) : Prop where
  size_lt : byteLength text.toList < 2 ^ 32
  start_le_stop : replacement.start ≤ replacement.stop
  start_boundary : IsBoundary text.toList replacement.start
  stop_boundary : IsBoundary text.toList replacement.stop
  start_return : ¬ AfterLineReturn text.toList replacement.start
  stop_return : ¬ AfterLineReturn text.toList replacement.stop

theorem apply_edit {replacement : Replacement} {text : String} (hfits : replacement.Fits text) :
    (replacement.edit text).apply text = replacement.apply text := by
  have hstart : (LineIndex.ofText text).offset text.toList
      ((LineIndex.ofText text).position text.toList replacement.start) = replacement.start :=
    LineIndex.offset_position hfits.size_lt hfits.start_boundary hfits.start_return
  have hstop : (LineIndex.ofText text).offset text.toList
      ((LineIndex.ofText text).position text.toList replacement.stop) = replacement.stop :=
    LineIndex.offset_position hfits.size_lt hfits.stop_boundary hfits.stop_return
  have hmin := Nat.min_eq_left hfits.start_le_stop
  have hmax := Nat.max_eq_right hfits.start_le_stop
  unfold edit Edit.apply apply
  cases replacement.reversed with
  | false => simp only [Bool.false_eq_true, if_false, hstart, hstop, hmin, hmax]
  | true =>
    rw [Nat.min_comm] at hmin
    rw [Nat.max_comm] at hmax
    simp only [if_true, hstart, hstop, hmin, hmax]

/-! ## Sequences of replacements -/

/-- The text of the editor after replacements, each in the text left by the one before. -/
def applyAll : List Replacement → String → String
  | [], text => text
  | replacement :: rest, text => applyAll rest (replacement.apply text)

/-- The edits that tell of replacements. -/
def edits : List Replacement → String → List Edit
  | [], _ => []
  | replacement :: rest, text => replacement.edit text :: edits rest (replacement.apply text)

/-- Replacements that fit one after another. -/
def FitsAll : List Replacement → String → Prop
  | [], _ => True
  | replacement :: rest, text => replacement.Fits text ∧ FitsAll rest (replacement.apply text)

theorem applyAll_append (first second : List Replacement) (text : String) :
    applyAll (first ++ second) text = applyAll second (applyAll first text) := by
  induction first generalizing text with
  | nil => rfl
  | cons replacement first ih => exact ih (replacement.apply text)

theorem fitsAll_append {first second : List Replacement} {text : String} :
    FitsAll (first ++ second) text ↔ FitsAll first text ∧ FitsAll second (applyAll first text) := by
  induction first generalizing text with
  | nil => exact (iff_of_eq (true_and _)).symm
  | cons replacement first ih =>
    simp only [List.cons_append, FitsAll, applyAll, ih, and_assoc]

theorem applyAll_edits {replacements : List Replacement} {text : String}
    (hfits : FitsAll replacements text) :
    Edit.applyAll (edits replacements text) text = applyAll replacements text := by
  induction replacements generalizing text with
  | nil => rfl
  | cons replacement rest ih =>
    rw [edits, Edit.applyAll_cons, apply_edit hfits.1, ih hfits.2, applyAll]

/-- The batches of edits that tell of replacements distributed over messages. -/
def batches : List (Int32 × List Replacement) → String → List (Int32 × List Edit)
  | [], _ => []
  | (version, replacements) :: rest, text =>
    (version, edits replacements text) :: batches rest (applyAll replacements text)

/-- One message at a time, the document follows the text of the editor. -/
theorem text_foldl_batches {document : Document} {messages : List (Int32 × List Replacement)}
    (hfits : FitsAll (messages.flatMap Prod.snd) document.text) :
    ((batches messages document.text).foldl
        (fun document batch ↦ document.applyEdits batch.1 batch.2) document).text =
      applyAll (messages.flatMap Prod.snd) document.text := by
  induction messages generalizing document with
  | nil => rfl
  | cons message messages ih =>
    obtain ⟨version, replacements⟩ := message
    rw [List.flatMap_cons, fitsAll_append] at hfits
    obtain ⟨hfirst, hrest⟩ := hfits
    have htext : (document.applyEdits version (edits replacements document.text)).text =
        applyAll replacements document.text := by
      rw [Document.text_applyEdits, applyAll_edits hfirst]
    rw [← htext] at hrest
    rw [batches, List.foldl_cons, List.flatMap_cons, applyAll_append, ← htext]
    exact ih hrest

end Replacement

/-- The server's text is the editor's after every replacement of a message, and after every message,
for every way of distributing the replacements over messages. -/
theorem texts_stay_equal (address : Address) (version : Int32) (text : String)
    (messages : List (Int32 × List Replacement))
    (hfits : Replacement.FitsAll (messages.flatMap Prod.snd) text) :
    (∀ made, made <+: messages.flatMap Prod.snd →
      ((Replacement.edits made text).foldl Document.applyEdit
        (.ofText address version text)).text = Replacement.applyAll made text) ∧
    ((Replacement.batches messages text).foldl
        (fun document batch ↦ document.applyEdits batch.1 batch.2)
        (Document.ofText address version text)).text =
      Replacement.applyAll (messages.flatMap Prod.snd) text := by
  constructor
  · rintro made ⟨remaining, hmade⟩
    rw [← hmade, Replacement.fitsAll_append] at hfits
    rw [Document.text_foldl_applyEdit]
    exact Replacement.applyAll_edits hfits.1
  · exact Replacement.text_foldl_batches hfits

theorem texts_stay_equal_two_messages :
    let messages : List (Int32 × List Replacement) :=
      [(2, [⟨4, 10, "é\r\n", true⟩, ⟨0, 4, "x", false⟩]), (3, []), (4, [⟨1, 3, "😀", true⟩])]
    Replacement.FitsAll (messages.flatMap Prod.snd) "😀\r\nabc\n" ∧
    ((Replacement.batches messages "😀\r\nabc\n").foldl
        (fun document batch ↦ document.applyEdits batch.1 batch.2)
        (Document.ofText ⟨"a", none, .rootless "b", none, none⟩ 1 "😀\r\nabc\n")).text =
      "x😀\r\n" := by
  intro messages
  have hfits : Replacement.FitsAll (messages.flatMap Prod.snd) "😀\r\nabc\n" := by
    refine ⟨⟨?_, ?_, ?_, ?_, ?_, ?_⟩, ⟨?_, ?_, ?_, ?_, ?_, ?_⟩, ⟨?_, ?_, ?_, ?_, ?_, ?_⟩,
      trivial⟩ <;>
      decide +kernel
  have hequal := (texts_stay_equal ⟨"a", none, .rootless "b", none, none⟩ 1 _ messages hfits).2
  exact ⟨hfits, hequal.trans (by decide +kernel)⟩

end LinkedJson
