import LinkedJson.Definition
import LinkedJson.Proofs.Edits
import LinkedJson.Proofs.Grammar.Values
import LinkedJson.Proofs.Symbol.Cursor
import LinkedJson.Proofs.Text.Lines
import LinkedJson.Proofs.Tree.Bare

/-!
# The definition under a cursor

In a document whose text is a text of the grammar, a definition is found exactly where the cursor is
in the literal of a reference that no later property has replaced. The literals of a document do not
overlap, so at most one of them holds the cursor, whatever the order of the table is.
-/

namespace LinkedJson

open LinkedJson.Text

/-- The properties of a document in text order, each with its pointer. -/
def Reading.entries (reading : Reading) : List Entry :=
  reading.root.elim [] (Node.entries "")

/-- The nodes of a document in text order. -/
def Reading.preorder (reading : Reading) : List Node :=
  reading.root.elim [] Node.preorder

/-- What a link from the literal at a span to a target has to be. The range of its target is both
the range that it leads to and the range to select there. -/
structure Workspace.LinksTo (workspace : Workspace) (document : Document) (literal : Span)
    (target : Target) (link : Link) : Prop where
  origin : link.origin =
    ⟨document.position (literal.offset + 1),
      document.position (literal.offset + literal.length - 1)⟩
  document : link.document = target.document
  found : ∀ {other pointer symbol}, workspace.get? target.document = some other →
    target.pointer = some pointer → other.symbols.get? pointer = some symbol →
      link.target = other.range symbol.span
  missing : (∀ {other pointer}, workspace.get? target.document = some other →
    target.pointer = some pointer → other.symbols.get? pointer = none) → link.target = .zero

theorem IsLiteral.two_le {text : List Char} {span : Span}
    (hliteral : IsLiteral text span.offset span.limit) : 2 ≤ span.length := by
  obtain ⟨body, -, hstop⟩ := hliteral
  have hquote : '"'.utf8Size = 1 := rfl
  simp only [Span.limit, byteLength_cons, byteLength_append, byteLength_nil, hquote] at hstop
  omega

theorem IsLiteral.limit_le {text : List Char} {span : Span}
    (hliteral : IsLiteral text span.offset span.limit) : span.limit ≤ byteLength text := by
  obtain ⟨body, ⟨before, behind, htext, hstart⟩, hstop⟩ := hliteral
  rw [hstop, htext, byteLength_append, byteLength_append, hstart]
  omega

theorem IsLiteral.contains_iff {text : List Char} (hsize : byteLength text < UInt64.size)
    {span : Span} (hliteral : IsLiteral text span.offset span.limit) {offset : Nat} :
    span.contains offset = true ↔
      span.offset ≤ offset ∧ offset < span.offset + span.length := by
  rw [Span.contains_iff, Span.stop_eq_limit (Nat.lt_of_le_of_lt hliteral.limit_le hsize)]
  rfl

theorem isLiteral_of_mem_entries {text : List Char} {reading : Reading}
    (hregular : ∀ root, reading.root = some root → root.Regular text) {entry : Entry}
    (hentry : entry ∈ reading.entries) {value : String} {span : Span}
    (hvalue : entry.value = .string value span) :
    IsLiteral text span.offset (span.offset + span.length) := by
  unfold Reading.entries at hentry
  cases hroot : reading.root with
  | none =>
    rw [hroot] at hentry
    cases hentry
  | some root =>
    rw [hroot] at hentry
    have hproperty := Node.property_mem_preorder hentry
    have hchild : .string value span ∈ entry.property.children := by
      simp [Entry.property, Node.children, hvalue]
    exact (hregular root hroot).literal (Node.mem_preorder_of_mem_children hproperty hchild)

/-! ## The reference at an offset -/

/-- The references of a table are the entries that it keeps and that refer to something. -/
theorem mem_references_ofRoot {root : Node} {symbol : Symbol} :
    symbol ∈ (SymbolTable.ofRoot (some root)).references ↔
      (∃ entry, IsLastBy Entry.pointer entry (root.entries "") ∧ entry.symbol = symbol) ∧
        symbol.refersTo.isSome = true := by
  rw [SymbolTable.references, List.mem_filter, SymbolTable.mem_symbols_ofRoot]

/-- The entries of a node that its table keeps and that are references with an offset in them. -/
theorem referenceAt_ofRoot_some {text : List Char} {root : Node} (hregular : root.Regular text)
    {offset : Nat} {symbol : Symbol} :
    (SymbolTable.ofRoot (some root)).referenceAt offset = some symbol ↔
      ∃ entry, IsLastBy Entry.pointer entry (root.entries "") ∧ entry.symbol = symbol ∧
        symbol.refersTo.isSome = true ∧ symbol.valueSpan.contains offset = true := by
  refine (SymbolTable.referenceAt_eq_some_iff hregular.nested).trans ?_
  rw [mem_references_ofRoot]
  constructor
  · rintro ⟨⟨⟨entry, hlast, hsymbol⟩, hrefers⟩, hholds⟩
    exact ⟨entry, hlast, hsymbol, hrefers, hholds⟩
  · rintro ⟨entry, hlast, hsymbol, hrefers, hholds⟩
    exact ⟨⟨⟨entry, hlast, hsymbol⟩, hrefers⟩, hholds⟩

theorem referenceAt_ofRoot {text : List Char} {reading : Reading}
    (hregular : ∀ root, reading.root = some root → root.Regular text) {offset : Nat}
    {symbol : Symbol} :
    (SymbolTable.ofRoot reading.root).referenceAt offset = some symbol ↔
      ∃ entry, IsLastBy Entry.pointer entry reading.entries ∧ entry.symbol = symbol ∧
        symbol.refersTo.isSome = true ∧ symbol.valueSpan.contains offset = true := by
  unfold Reading.entries
  cases hroot : reading.root with
  | none => simp [SymbolTable.ofRoot, SymbolTable.empty, SymbolTable.referenceAt,
      SymbolTable.references, IsLastBy]
  | some root => exact referenceAt_ofRoot_some (hregular root hroot)

/-- Each reference of the table of a document is found at all offsets of its literal. -/
theorem referenceAt_of_mem_references {text : List Char} {reading : Reading}
    (hregular : ∀ root, reading.root = some root → root.Regular text) {offset : Nat}
    {symbol : Symbol} (hmem : symbol ∈ (SymbolTable.ofRoot reading.root).references)
    (hholds : symbol.valueSpan.contains offset = true) :
    (SymbolTable.ofRoot reading.root).referenceAt offset = some symbol := by
  cases hroot : reading.root with
  | none =>
    rw [hroot] at hmem
    cases hmem
  | some root =>
    rw [hroot] at hmem
    obtain ⟨⟨entry, hlast, hsymbol⟩, hrefers⟩ := mem_references_ofRoot.1 hmem
    exact (referenceAt_ofRoot_some (hregular root hroot)).2
      ⟨entry, hlast, hsymbol, hrefers, hholds⟩

/-- The table of a document knows a reference at an offset if a property of that kind is the last
one with its pointer, and its literal holds the offset. -/
theorem exists_referenceAt_iff {text : List Char} {reading : Reading}
    (hregular : ∀ root, reading.root = some root → root.Regular text)
    (hsize : byteLength text < UInt64.size) {offset : Nat} {reference : String} {literal : Span} :
    (∃ symbol, (SymbolTable.ofRoot reading.root).referenceAt offset = some symbol ∧
      symbol.refersTo = some reference ∧ symbol.valueSpan = literal) ↔
      ∃ entry, IsLastBy Entry.pointer entry reading.entries ∧ entry.name = "$ref" ∧
        entry.value = .string reference literal ∧ literal.offset ≤ offset ∧
        offset < literal.offset + literal.length := by
  constructor
  · rintro ⟨symbol, hsymbol, hrefers, hliteral⟩
    obtain ⟨entry, hlast, rfl, -, hholds⟩ := (referenceAt_ofRoot hregular).1 hsymbol
    obtain ⟨hname, span, hvalue⟩ := Entry.refersTo_symbol.1 hrefers
    obtain rfl : span = literal := (congrArg Node.span hvalue).symm.trans hliteral
    have hfits := isLiteral_of_mem_entries hregular hlast.mem hvalue
    rw [hliteral, hfits.contains_iff hsize] at hholds
    exact ⟨entry, hlast, hname, hvalue, hholds⟩
  · rintro ⟨entry, hlast, hname, hvalue, hholds⟩
    have hrefers := Entry.refersTo_symbol.2 ⟨hname, literal, hvalue⟩
    have hliteral : entry.symbol.valueSpan = literal := congrArg Node.span hvalue
    refine ⟨entry.symbol, (referenceAt_ofRoot hregular).2 ⟨entry, hlast, rfl, ?_, ?_⟩, hrefers,
      hliteral⟩
    · rw [hrefers, Option.isSome_some]
    · have hfits := isLiteral_of_mem_entries hregular hlast.mem hvalue
      rw [hliteral, hfits.contains_iff hsize]
      exact hholds

/-! ## The link at an offset -/

namespace Workspace

variable {workspace : Workspace} {document : Document} {target : Target}

theorem originRange_eq {literal : Span} (hlength : 2 ≤ literal.length)
    (hfits : literal.limit < UInt64.size) :
    originRange document literal =
      ⟨document.position (literal.offset + 1),
        document.position (literal.offset + literal.length - 1)⟩ := by
  unfold Span.limit at hfits
  have hstart : wordSum literal.offset 1 = literal.offset + 1 := Nat.mod_eq_of_lt (by omega)
  have hmax : max (literal.offset + 1) (literal.stop - 1) =
      literal.offset + literal.length - 1 := by
    rw [Span.stop_eq_limit hfits, Span.limit]
    omega
  rw [originRange, hstart, hmax]

theorem targetRange_of_get? {other : Document} {pointer : String} {symbol : Symbol}
    (hother : workspace.get? target.document = some other)
    (hpointer : target.pointer = some pointer)
    (hsymbol : other.symbols.get? pointer = some symbol) :
    workspace.targetRange target = other.range symbol.span := by
  simp only [targetRange, hother, hpointer, hsymbol]

theorem targetRange_of_missing
    (hmissing : ∀ {other pointer}, workspace.get? target.document = some other →
      target.pointer = some pointer → other.symbols.get? pointer = none) :
    workspace.targetRange target = .zero := by
  unfold targetRange
  split
  · next other pointer hother hpointer => rw [hmissing hother hpointer]
  · rfl

/-- There is one link from a literal to a target. -/
theorem linksTo_iff {literal : Span} (hlength : 2 ≤ literal.length)
    (hfits : literal.limit < UInt64.size) {link : Link} :
    workspace.LinksTo document literal target link ↔
      link = ⟨originRange document literal, target.document, workspace.targetRange target⟩ := by
  rw [originRange_eq hlength hfits]
  constructor
  · rintro ⟨horigin, hdocument, hfound, hmissing⟩
    have htarget : link.target = workspace.targetRange target := by
      by_cases hknown : ∃ other pointer symbol, workspace.get? target.document = some other ∧
          target.pointer = some pointer ∧ other.symbols.get? pointer = some symbol
      · obtain ⟨other, pointer, symbol, hother, hpointer, hsymbol⟩ := hknown
        rw [hfound hother hpointer hsymbol, targetRange_of_get? hother hpointer hsymbol]
      · have hnone : ∀ {other pointer}, workspace.get? target.document = some other →
            target.pointer = some pointer → other.symbols.get? pointer = none := by
          intro other pointer hother hpointer
          rw [Option.eq_none_iff_forall_ne_some]
          intro symbol hsymbol
          exact hknown ⟨other, pointer, symbol, hother, hpointer, hsymbol⟩
        rw [hmissing hnone, targetRange_of_missing hnone]
    rw [← horigin, ← hdocument, ← htarget]
  · rintro rfl
    exact ⟨rfl, rfl, fun hother hpointer hsymbol ↦ targetRange_of_get? hother hpointer hsymbol,
      fun hmissing ↦ targetRange_of_missing hmissing⟩

theorem definitionAt_eq_some_iff {offset : Nat} {link : Link} :
    workspace.definitionAt document offset = some link ↔
      ∃ reference literal target,
        (∃ symbol, document.symbols.referenceAt offset = some symbol ∧
          symbol.refersTo = some reference ∧ symbol.valueSpan = literal) ∧
        Target.resolve document.address reference = some target ∧
        link = ⟨originRange document literal, target.document, workspace.targetRange target⟩ := by
  unfold definitionAt
  cases document.symbols.referenceAt offset with
  | none => simp
  | some symbol =>
    simp only [Option.map_eq_some_iff, Option.bind_eq_some_iff, Option.some.injEq]
    grind

end Workspace

theorem regular_of_reading {recovery : Recovery} (hfaithful : recovery.Faithful) {text : String}
    (hgrammar : (Grammar.tree? text.toList).isSome = true) {reading : Reading}
    (hreading : recovery.reader text = some reading) :
    ∀ root, reading.root = some root → root.Regular text.toList := by
  obtain ⟨tree, htree⟩ := Option.isSome_iff_exists.1 hgrammar
  rw [hfaithful.reader_eq htree] at hreading
  cases hreading
  exact fun root hroot ↦ Grammar.regular_rootNode htree hroot

theorem map_property_reading {text : List Char} {reading : Reading}
    (hregular : ∀ root, reading.root = some root → root.Regular text) :
    reading.entries.map Entry.property = reading.preorder.filter Node.isProperty := by
  unfold Reading.entries Reading.preorder
  cases hroot : reading.root with
  | none => rfl
  | some root => exact root.map_property_entries "" (hregular root hroot).shaped

/-- A definition is found at a boundary of a text of the grammar if and only if the boundary lies in
the literal of a reference that is the last property with its pointer, and the reference can be
resolved. The link leads from the text between the quotes to the property that the target names, or
to the start of the target document if that property is not known. -/
theorem definition_at_cursor {recovery : Recovery} (hfaithful : recovery.Faithful)
    {workspace : Workspace} {address : Address} {document : Document}
    (hdocument : workspace.get? address = some document)
    (hgrammar : (Grammar.tree? document.text.toList).isSome = true)
    (hsize : byteLength document.text.toList < 2 ^ 32) {reading : Reading}
    (hreading : recovery.reader document.text = some reading)
    (hsymbols : document.symbols = .ofRoot reading.root) {offset : Nat}
    (hboundary : IsBoundary document.text.toList offset)
    (hreturn : ¬ AfterLineReturn document.text.toList offset) :
    reading.entries.map Entry.property = reading.preorder.filter Node.isProperty ∧
    (∀ entry ∈ reading.entries, ∀ {value span}, entry.value = .string value span →
      IsLiteral document.text.toList span.offset (span.offset + span.length)) ∧
    ∀ link, workspace.definition address (document.position offset) = some link ↔
      ∃ entry reference literal target, IsLastBy Entry.pointer entry reading.entries ∧
        entry.name = "$ref" ∧ entry.value = .string reference literal ∧
        literal.offset ≤ offset ∧ offset < literal.offset + literal.length ∧
        Target.resolve address reference = some target ∧
        workspace.LinksTo document literal target link := by
  have hregular := regular_of_reading hfaithful hgrammar hreading
  have hliterals : ∀ entry ∈ reading.entries, ∀ {value span}, entry.value = .string value span →
      IsLiteral document.text.toList span.offset (span.offset + span.length) :=
    fun entry hentry _ _ hvalue ↦ isLiteral_of_mem_entries hregular hentry hvalue
  have hwords : byteLength document.text.toList < UInt64.size := Nat.lt_trans hsize (by decide)
  have haddress : document.address = address := Workspace.address_of_get? hdocument
  have hoffset : document.offset (document.position offset) = offset := by
    rw [Document.offset_eq, Document.position_eq]
    exact LineIndex.offset_position hsize hboundary hreturn
  refine ⟨map_property_reading hregular, hliterals, fun link ↦ ?_⟩
  rw [Workspace.definition, hdocument, Option.bind_some, hoffset,
    Workspace.definitionAt_eq_some_iff, hsymbols, haddress]
  constructor
  · rintro ⟨reference, literal, target, hreference, hresolve, hlink⟩
    obtain ⟨entry, hlast, hname, hvalue, hstart, hstop⟩ :=
      (exists_referenceAt_iff hregular hwords).1 hreference
    have hliteral := hliterals entry hlast.mem hvalue
    have hfits := Nat.lt_of_le_of_lt hliteral.limit_le hwords
    exact ⟨entry, reference, literal, target, hlast, hname, hvalue, hstart, hstop, hresolve,
      (Workspace.linksTo_iff hliteral.two_le hfits).2 hlink⟩
  · rintro ⟨entry, reference, literal, target, hlast, hname, hvalue, hstart, hstop, hresolve, hlink⟩
    have hliteral := hliterals entry hlast.mem hvalue
    have hfits := Nat.lt_of_le_of_lt hliteral.limit_le hwords
    exact ⟨reference, literal, target,
      (exists_referenceAt_iff hregular hwords).2 ⟨entry, hlast, hname, hvalue, hstart, hstop⟩,
      hresolve, (Workspace.linksTo_iff hliteral.two_le hfits).1 hlink⟩

def silent : Recovery := fun _ ↦ none

theorem faithful_silent : silent.Faithful := by
  intro text tree written htree
  cases htree

def selfAddress : Address :=
  ⟨"file", some ⟨none, .empty, none⟩, .segments ["a.json"], none, none⟩

/-- The text of a document with a reference to one of its own properties. -/
def selfText : List Char :=
  ['\x7b', '"', 'é', '"', ':', '\x7b', '"', 'a', '"', ':', '1', '\x7d', ',', '"', '$', 'r', 'e',
    'f', '"', ':', '"', '#', '/', '%', 'C', '3', '%', 'A', '9', '"', '\x7d']

def selfRoot : Node :=
  .object
    [.property [.string "é" ⟨1, 4⟩,
        .object [.property [.string "a" ⟨7, 3⟩, .number "1" ⟨11, 1⟩] ⟨7, 5⟩] ⟨6, 7⟩] ⟨1, 12⟩,
      .property [.string "$ref" ⟨14, 6⟩, .string "#/%C3%A9" ⟨21, 10⟩] ⟨14, 17⟩] ⟨0, 32⟩

def selfDocument : Document :=
  { Document.ofText selfAddress 1 (String.ofList selfText) with symbols := .ofRoot (some selfRoot) }

theorem reader_selfDocument : silent.reader selfDocument.text = some ⟨some selfRoot, []⟩ := by
  have hread : (Grammar.tree? selfText).map (Reading.ofTree selfText) =
      some ⟨some selfRoot, []⟩ := rfl
  have htext : selfDocument.text.toList = selfText := String.toList_ofList
  rw [Recovery.reader, htext]
  exact hread

theorem definition_at_cursor_self :
    Workspace.definition (.put .empty selfDocument) selfAddress (selfDocument.position 25) =
      some ⟨⟨⟨0, 21⟩, ⟨0, 29⟩⟩, selfAddress, ⟨⟨0, 1⟩, ⟨0, 12⟩⟩⟩ := by
  have hdocument : Workspace.get? (.put .empty selfDocument) selfAddress = some selfDocument := by
    decide +kernel
  have hboundary : IsBoundary selfDocument.text.toList 25 := by decide +kernel
  have hcursor := definition_at_cursor faithful_silent hdocument (by decide +kernel)
    (by decide +kernel) reader_selfDocument rfl hboundary (by decide +kernel)
  refine (hcursor.2.2 _).2 ⟨⟨"/$ref", "$ref", ⟨14, 6⟩, .string "#/%C3%A9" ⟨21, 10⟩, ⟨14, 17⟩⟩,
    "#/%C3%A9", ⟨21, 10⟩, ⟨selfAddress, some "/é"⟩, ?_, rfl, rfl, by decide, by decide, ?_, ?_⟩
  · exact ⟨(selfRoot.entries "").take 2, [], rfl, by simp⟩
  · decide +kernel
  · exact (Workspace.linksTo_iff (by decide) (by decide)).2 (by decide +kernel)

end LinkedJson
