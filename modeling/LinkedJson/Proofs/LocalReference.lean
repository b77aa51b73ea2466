import LinkedJson.Proofs.Address.Fragment
import LinkedJson.Proofs.Definition

/-!
# References inside one document

The value of a reference can be a fragment only: a number sign and an escaped pointer. Its link
stays in the document, provided that the address of the document has no fragment of its own. A
target is looked up without a fragment, so a document whose address has one is not found again.
-/

namespace LinkedJson

/-- Where a document has no fragment in its address, a reference to one of its pointers leads to the
property with that pointer, from each offset of the reference. -/
theorem fragment_reference_stays {recovery : Recovery} (hfaithful : recovery.Faithful)
    {workspace : Workspace} {uri : String} {address : Address}
    (hparse : Address.parse uri = .ok address) (hfragment : address.fragment = none)
    {document : Document} (hdocument : workspace.get? address = some document)
    (hgrammar : (Grammar.tree? document.text.toList).isSome = true) {reading : Reading}
    (hreading : recovery.reader document.text = some reading)
    (hsymbols : document.symbols = .ofRoot reading.root) {pointer : String} {symbol : Symbol}
    (hsymbol : document.symbols.get? pointer = some symbol) {reference : Symbol}
    (hreference : reference ∈ document.symbols.references) {escaped : List Char}
    (hescapes : Percent.Escapes pointer.toUTF8.data.toList escaped)
    (hrefers : reference.refersTo = some (String.ofList ('#' :: escaped))) {offset : Nat}
    (hholds : reference.valueSpan.contains offset = true) :
    workspace.definitionAt document offset =
      some ⟨Workspace.originRange document reference.valueSpan, address,
        document.range symbol.span⟩ := by
  have hregular := regular_of_reading hfaithful hgrammar hreading
  have haddress := Workspace.address_of_get? hdocument
  have hfound : document.symbols.referenceAt offset = some reference := by
    rw [hsymbols] at hreference ⊢
    exact referenceAt_of_mem_references hregular hreference hholds
  have htarget : Target.resolve document.address (String.ofList ('#' :: escaped)) =
      some ⟨address, some pointer⟩ := by
    rw [haddress, Address.resolve_fragment address hescapes,
      Address.withoutFragment_of_parse hparse hfragment]
  refine Workspace.definitionAt_eq_some_iff.2
    ⟨_, _, _, ⟨reference, hfound, hrefers, rfl⟩, htarget, ?_⟩
  rw [Workspace.targetRange_of_get? hdocument rfl hsymbol]

def opaqueAddress : Address :=
  ⟨"urn", none, .rootless "a b", none, none⟩

/-- The text of a document that refers to a name that is not ASCII. -/
def accentText : List Char :=
  ['\x7b', '"', 'é', '"', ':', '\x7b', '"', '$', 'r', 'e', 'f', '"', ':', '"', '#', '%', '2', 'f',
    '%', 'C', '3', '%', 'a', '9', '"', '\x7d', '\x7d']

def accentRoot : Node :=
  .object
    [.property [.string "é" ⟨1, 4⟩,
        .object [.property [.string "$ref" ⟨7, 6⟩, .string "#%2f%C3%a9" ⟨14, 12⟩] ⟨7, 19⟩]
          ⟨6, 21⟩] ⟨1, 26⟩] ⟨0, 28⟩

def accentDocument : Document :=
  { Document.ofText opaqueAddress 1 (String.ofList accentText) with
    symbols := .ofRoot (some accentRoot) }

theorem reader_accentDocument : silent.reader accentDocument.text = some ⟨some accentRoot, []⟩ := by
  have hread : (Grammar.tree? accentText).map (Reading.ofTree accentText) =
      some ⟨some accentRoot, []⟩ := rfl
  have htext : accentDocument.text.toList = accentText := String.toList_ofList
  rw [Recovery.reader, htext]
  exact hread

theorem fragment_reference_stays_opaque :
    Address.parse "urn:a b " = .ok opaqueAddress ∧
    Workspace.definitionAt (.put .empty accentDocument) accentDocument 14 =
      some ⟨⟨⟨0, 14⟩, ⟨0, 24⟩⟩, opaqueAddress, ⟨⟨0, 1⟩, ⟨0, 26⟩⟩⟩ := by
  have hparse : Address.parse "urn:a b " = .ok opaqueAddress := by decide +kernel
  have hdocument :
      Workspace.get? (.put .empty accentDocument) opaqueAddress = some accentDocument := by
    decide +kernel
  have hsymbol : accentDocument.symbols.get? "/é" = some ⟨"/é", ⟨1, 26⟩, ⟨6, 21⟩, none⟩ := by
    decide +kernel
  have hreference : (⟨"/é/$ref", ⟨7, 19⟩, ⟨14, 12⟩, some "#%2f%C3%a9"⟩ : Symbol) ∈
      accentDocument.symbols.references := by
    decide +kernel
  have hescapes : Percent.Escapes "/é".toUTF8.data.toList "%2f%C3%a9".toList :=
    .cons (a := '2') (b := 'f') rfl rfl (.cons (a := 'C') (b := '3') rfl rfl
      (.cons (a := 'a') (b := '9') rfl rfl .nil))
  have hdefinition := fragment_reference_stays faithful_silent hparse rfl hdocument
    (by decide +kernel) reader_accentDocument rfl hsymbol hreference hescapes (by decide +kernel)
    (show Span.contains ⟨14, 12⟩ 14 = true by decide)
  exact ⟨hparse, hdefinition.trans (by decide +kernel)⟩

def anchoredAddress : Address :=
  ⟨"file", some (.ofHost .empty), .segments ["d.json"], none, some "x"⟩

/-- The text of a document that refers to its only name. -/
def anchoredText : List Char :=
  ['\x7b', '"', 'a', '"', ':', '\x7b', '"', '$', 'r', 'e', 'f', '"', ':', '"', '#', '%', '2', 'F',
    '%', '6', '1', '"', '\x7d', '\x7d']

def anchoredRoot : Node :=
  .object
    [.property [.string "a" ⟨1, 3⟩,
        .object [.property [.string "$ref" ⟨6, 6⟩, .string "#%2F%61" ⟨13, 9⟩] ⟨6, 16⟩]
          ⟨5, 18⟩] ⟨1, 22⟩] ⟨0, 24⟩

def anchoredDocument : Document :=
  { Document.ofText anchoredAddress 1 (String.ofList anchoredText) with
    symbols := .ofRoot (some anchoredRoot) }

/-- A document whose address has a fragment is open, and a reference in it to one of its own
pointers leads to the start of another document, which is not open. -/
theorem fragment_of_address_lost :
    Address.parse "file:///d.json#x" = .ok anchoredAddress ∧
    Workspace.get? (.put .empty anchoredDocument) anchoredAddress = some anchoredDocument ∧
    (Grammar.tree? anchoredDocument.text.toList).isSome = true ∧
    silent.reader anchoredDocument.text = some ⟨some anchoredRoot, []⟩ ∧
    anchoredDocument.symbols = .ofRoot (some anchoredRoot) ∧
    anchoredDocument.symbols.get? "/a" = some ⟨"/a", ⟨1, 22⟩, ⟨5, 18⟩, none⟩ ∧
    (⟨"/a/$ref", ⟨6, 16⟩, ⟨13, 9⟩, some "#%2F%61"⟩ : Symbol) ∈
      anchoredDocument.symbols.references ∧
    Percent.Escapes "/a".toUTF8.data.toList "%2F%61".toList ∧
    Workspace.definitionAt (.put .empty anchoredDocument) anchoredDocument 14 =
      some ⟨⟨⟨0, 14⟩, ⟨0, 21⟩⟩, { anchoredAddress with fragment := none }, .zero⟩ ∧
    { anchoredAddress with fragment := none } ≠ anchoredAddress ∧
    anchoredDocument.range ⟨1, 22⟩ ≠ .zero := by
  have hread : (Grammar.tree? anchoredText).map (Reading.ofTree anchoredText) =
      some ⟨some anchoredRoot, []⟩ := rfl
  have htext : anchoredDocument.text.toList = anchoredText := String.toList_ofList
  have hescapes : Percent.Escapes "/a".toUTF8.data.toList "%2F%61".toList :=
    .cons (a := '2') (b := 'F') rfl rfl (.cons (a := '6') (b := '1') rfl rfl .nil)
  refine ⟨by decide +kernel, by decide +kernel, by decide +kernel, ?_, rfl, by decide +kernel,
    by decide +kernel, hescapes, by decide +kernel, by decide +kernel, by decide +kernel⟩
  rw [Recovery.reader, htext]
  exact hread

end LinkedJson
