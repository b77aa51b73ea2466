import LinkedJson.Document

/-!
# Edits as functions of a text

An edit is located through the line index that a document keeps beside its text. Since that is the
index of the text, an edit acts on the text alone. `Edit.apply` is that action, and it is what
applying edits to a document amounts to, for any number of edits in one batch.
-/

namespace LinkedJson

/-- The text after an edit that is located in the text itself. -/
def Edit.apply (edit : Edit) (text : String) : String :=
  match edit.range with
  | none => edit.text
  | some range =>
    let first := (LineIndex.ofText text).offset text.toList range.start
    let second := (LineIndex.ofText text).offset text.toList range.stop
    String.ofList (Text.takeBytes (min first second) text.toList ++ edit.text.toList ++
      Text.dropBytes (max first second) text.toList)

/-- The text after edits, each located in the text left by the one before. -/
def Edit.applyAll (edits : List Edit) (text : String) : String :=
  edits.foldl (fun text edit ↦ edit.apply text) text

@[simp]
theorem Edit.applyAll_nil (text : String) : Edit.applyAll [] text = text := rfl

@[simp]
theorem Edit.applyAll_cons (edit : Edit) (edits : List Edit) (text : String) :
    Edit.applyAll (edit :: edits) text = Edit.applyAll edits (edit.apply text) := rfl

theorem Edit.applyAll_append (first second : List Edit) (text : String) :
    Edit.applyAll (first ++ second) text = Edit.applyAll second (Edit.applyAll first text) :=
  List.foldl_append

namespace Document

theorem text_applyEdit (document : Document) (edit : Edit) :
    (document.applyEdit edit).text = edit.apply document.text := by
  change document.editedText edit = edit.apply document.text
  unfold editedText Edit.apply
  simp only [offset_eq]
  rfl

theorem text_foldl_applyEdit (document : Document) (edits : List Edit) :
    (edits.foldl applyEdit document).text = Edit.applyAll edits document.text := by
  induction edits generalizing document with
  | nil => rfl
  | cons edit edits ih => rw [List.foldl_cons, ih, text_applyEdit, Edit.applyAll_cons]

theorem text_applyEdits (document : Document) (version : Int32) (edits : List Edit) :
    (document.applyEdits version edits).text = Edit.applyAll edits document.text :=
  text_foldl_applyEdit document edits

/-- Editing a document makes it one that was just opened with the edited text. -/
theorem applyEdits_eq_ofText (document : Document) (version : Int32) (edits : List Edit) :
    document.applyEdits version edits =
      ofText document.address version (Edit.applyAll edits document.text) := by
  rw [eq_ofText_with (document.applyEdits version edits), address_applyEdits, text_applyEdits]
  rfl

end Document

end LinkedJson
