import LinkedJson.Proofs.Definition
import LinkedJson.Proofs.Grammar.Containers

/-!
# One symbol for each property

Names go into pointers as they are. Two properties can therefore share a pointer although no object
repeats a name: the pointer of a name with a slash in it may be that of a property further down.
Where no name has a slash in it, the table of a text of the grammar has one symbol for each
property, and every reference is found from all offsets of its literal.
-/

namespace LinkedJson

/-- A property with the name of references and a string for its value. -/
def Node.isReference (node : Node) : Bool :=
  node.name? = some "$ref" && node.content.asString?.isSome

/-- No object of a document repeats a name. -/
def Reading.DistinctNames (reading : Reading) : Prop :=
  ∀ root, reading.root = some root → root.DistinctNames

/-- No name in a document has a slash in it. -/
def Reading.SlashFree (reading : Reading) : Prop :=
  ∀ root, reading.root = some root → root.SlashFree

theorem Entry.isReference_property (entry : Entry) :
    entry.property.isReference = entry.symbol.refersTo.isSome := by
  by_cases hname : entry.name = "$ref"
  · simp [Node.isReference, Entry.property, Entry.symbol, Node.name?, Node.content, hname]
  · simp [Node.isReference, Entry.property, Entry.symbol, Node.name?, hname]

theorem Node.isProperty_of_isReference {node : Node} (hreference : node.isReference = true) :
    node.isProperty = true := by
  rw [Node.isReference, Bool.and_eq_true, decide_eq_true_eq] at hreference
  obtain ⟨nameSpan, value, span, rfl⟩ := Node.name?_eq_some_iff.1 hreference.1
  rfl

theorem Node.filter_isReference (nodes : List Node) :
    (nodes.filter isProperty).filter isReference = nodes.filter isReference := by
  rw [List.filter_filter]
  refine List.filter_congr fun node _ ↦ ?_
  cases hreference : node.isReference with
  | false => rfl
  | true => simp [isProperty_of_isReference hreference]

namespace Reading

variable {text : List Char} {reading : Reading}

/-- The table of an orderly document holds the symbol of each property, in text order. -/
theorem symbols_ofRoot (horderly : ∀ root, reading.root = some root → root.Orderly) :
    (SymbolTable.ofRoot reading.root).symbols = reading.entries.map Entry.symbol := by
  unfold Reading.entries
  cases hroot : reading.root with
  | none => rfl
  | some root => exact Node.symbols_ofRoot (horderly root hroot)

theorem nodup_pointer (horderly : ∀ root, reading.root = some root → root.Orderly) :
    (reading.entries.map Entry.pointer).Nodup := by
  unfold Reading.entries
  cases hroot : reading.root with
  | none => exact List.nodup_nil
  | some root => exact List.pairwise_map.2 (Node.pairwise_pointer (horderly root hroot) "")

theorem length_references
    (hsymbols : (SymbolTable.ofRoot reading.root).symbols = reading.entries.map Entry.symbol)
    (hproperties : reading.entries.map Entry.property = reading.preorder.filter Node.isProperty) :
    (SymbolTable.ofRoot reading.root).references.length =
      (reading.preorder.filter Node.isReference).length := by
  have hkinds : (Node.isReference ∘ Entry.property) =
      ((fun symbol : Symbol ↦ symbol.refersTo.isSome) ∘ Entry.symbol) :=
    funext Entry.isReference_property
  rw [SymbolTable.references, hsymbols, ← Node.filter_isReference, ← hproperties, List.filter_map,
    List.filter_map, List.length_map, List.length_map, hkinds]

end Reading

/-- In a text of the grammar in which no object repeats a name and no name has a slash in it, each
pointer belongs to one property. The table has as many symbols as there are properties and as many
references as there are properties of that kind, and it finds each reference from every offset of
its literal. The end of a literal is the sum of its offset and length if offsets into the text fit
in words, as those into a text in memory do. -/
theorem pointer_identifies_property {recovery : Recovery} (hfaithful : recovery.Faithful)
    {text : String} (hgrammar : (Grammar.tree? text.toList).isSome = true) :
    ∃ reading, recovery.reader text = some reading ∧
      (reading.DistinctNames → reading.SlashFree →
        reading.entries.map Entry.property = reading.preorder.filter Node.isProperty ∧
        (reading.entries.map Entry.pointer).Nodup ∧
        (SymbolTable.ofRoot reading.root).symbols = reading.entries.map Entry.symbol ∧
        (SymbolTable.ofRoot reading.root).size =
          (reading.preorder.filter Node.isProperty).length ∧
        (SymbolTable.ofRoot reading.root).references.length =
          (reading.preorder.filter Node.isReference).length ∧
        ∀ entry ∈ reading.entries, ∀ {reference literal},
          entry.name = "$ref" → entry.value = .string reference literal →
            (∀ {offset}, literal.offset ≤ offset → offset < literal.stop →
              (SymbolTable.ofRoot reading.root).referenceAt offset = some entry.symbol) ∧
            (Text.byteLength text.toList < UInt64.size →
              literal.stop = literal.offset + literal.length)) := by
  obtain ⟨tree, htree⟩ := Option.isSome_iff_exists.1 hgrammar
  have hreading := hfaithful.reader_eq htree
  refine ⟨_, hreading, fun hdistinct hslash ↦ ?_⟩
  have hregular := regular_of_reading hfaithful hgrammar hreading
  generalize hwritten : Reading.ofTree text.toList tree = reading at *
  have horderly : ∀ root, reading.root = some root → root.Orderly := by
    intro root hroot
    have hwell : root.WellFormed :=
      Grammar.wellFormed_rootNode htree ((congrArg Reading.root hwritten).trans hroot)
    exact hwell.orderly (hdistinct root hroot) (hslash root hroot)
  have hproperties := map_property_reading hregular
  have hsymbols := Reading.symbols_ofRoot horderly
  have hnodup := Reading.nodup_pointer horderly
  refine ⟨hproperties, hnodup, hsymbols, ?_, Reading.length_references hsymbols hproperties, ?_⟩
  · rw [SymbolTable.size, hsymbols, List.length_map, ← hproperties, List.length_map]
  · intro entry hentry reference literal hname hvalue
    constructor
    · intro offset hstart hstop
      have hrefers := Entry.refersTo_symbol.2 ⟨hname, literal, hvalue⟩
      have hspan : entry.symbol.valueSpan = literal := congrArg Node.span hvalue
      refine (referenceAt_ofRoot hregular).2
        ⟨entry, isLastBy_of_nodup hnodup hentry, rfl, ?_, ?_⟩
      · rw [hrefers, Option.isSome_some]
      · rw [hspan, Span.contains_iff]
        exact ⟨hstart, hstop⟩
    · intro hsize
      have hliteral : IsLiteral text.toList literal.offset literal.limit :=
        isLiteral_of_mem_entries hregular hentry hvalue
      exact Span.stop_eq_limit (Nat.lt_of_le_of_lt hliteral.limit_le hsize)

/-- The text of `nestedRoot`. -/
def nestedText : List Char :=
  ['\x7b', '"', '"', ':', '[', '\x7b', '"', '0', '"', ':', '1', '\x7d', ',', '[', '\x7b', '"', '$',
    'r', 'e', 'f', '"', ':', '"', 'y', '"', '\x7d', ']', ']', '\x7d']

theorem reader_nestedText :
    silent.reader (String.ofList nestedText) = some ⟨some nestedRoot, []⟩ := by
  have hread : (Grammar.tree? nestedText).map (Reading.ofTree nestedText) =
      some ⟨some nestedRoot, []⟩ := rfl
  rw [Recovery.reader, String.toList_ofList]
  exact hread

theorem pointer_identifies_property_nested :
    ∃ reading, silent.reader (String.ofList nestedText) = some reading ∧
      (SymbolTable.ofRoot reading.root).size = 3 ∧
      (SymbolTable.ofRoot reading.root).references.length = 1 ∧
      (SymbolTable.ofRoot reading.root).referenceAt 24 =
        some ⟨"//1/0/$ref", ⟨15, 10⟩, ⟨22, 3⟩, some "y"⟩ := by
  have hgrammar : (Grammar.tree? (String.ofList nestedText).toList).isSome = true := by
    rw [String.toList_ofList]
    decide +kernel
  obtain ⟨reading, hreading, hunique⟩ := pointer_identifies_property faithful_silent hgrammar
  obtain rfl : ⟨some nestedRoot, []⟩ = reading :=
    Option.some.inj (reader_nestedText.symm.trans hreading)
  obtain ⟨-, -, -, hsize, hreferences, hfound⟩ :=
    hunique (fun root hroot ↦ Option.some.inj hroot ▸ distinctNames_nestedRoot)
      (fun root hroot ↦ Option.some.inj hroot ▸ slashFree_nestedRoot)
  refine ⟨_, hreading, hsize, hreferences.trans (by decide +kernel), ?_⟩
  have hentry : (⟨stepInto (stepInto (stepInto (stepInto "" "") (toString 1)) (toString 0)) "$ref",
      "$ref", ⟨15, 6⟩, .string "y" ⟨22, 3⟩, ⟨15, 10⟩⟩ : Entry) ∈ nestedRoot.entries "" := by
    simp [nestedRoot, Node.entries_object, Node.entries_array, Node.entries_property,
      Node.isComposite]
  refine ((hfound _ hentry rfl rfl).1 (by decide) (by decide)).trans ?_
  decide +kernel

/-- A text in which a name with a slash in it leads to the pointer of a reference. -/
def collidingText : List Char :=
  ['\x7b', '"', 'a', '"', ':', '\x7b', '"', '$', 'r', 'e', 'f', '"', ':', '"', 'x', '"', '\x7d',
    ',', '"', 'a', '/', '$', 'r', 'e', 'f', '"', ':', '1', '\x7d']

def collidingRoot : Node :=
  .object
    [.property [.string "a" ⟨1, 3⟩,
        .object [.property [.string "$ref" ⟨6, 6⟩, .string "x" ⟨13, 3⟩] ⟨6, 10⟩] ⟨5, 12⟩] ⟨1, 16⟩,
      .property [.string "a/$ref" ⟨18, 8⟩, .number "1" ⟨27, 1⟩] ⟨18, 10⟩] ⟨0, 29⟩

def collidingReading : Reading := ⟨some collidingRoot, []⟩

/-- Without a repeated name, two properties share a pointer, and the reference among them is lost to
the other one, whose name has a slash in it. -/
theorem slash_hides_reference :
    (Grammar.tree? collidingText).isSome = true ∧
    silent.reader (String.ofList collidingText) = some collidingReading ∧
    collidingReading.DistinctNames ∧
    ¬ (collidingReading.entries.map Entry.pointer).Nodup ∧
    (SymbolTable.ofRoot collidingReading.root).size ≠
      (collidingReading.preorder.filter Node.isProperty).length ∧
    (SymbolTable.ofRoot collidingReading.root).references.length ≠
      (collidingReading.preorder.filter Node.isReference).length ∧
    (SymbolTable.ofRoot collidingReading.root).referenceAt 13 = none := by
  have hread : (Grammar.tree? collidingText).map (Reading.ofTree collidingText) =
      some collidingReading := rfl
  have hdistinct : collidingRoot.DistinctNames := by
    simp [collidingRoot, Node.DistinctNames, Node.preorder, Node.preorderAll, Node.names,
      Node.name?]
  refine ⟨by decide +kernel, ?_, fun root hroot ↦ Option.some.inj hroot ▸ hdistinct,
    by decide +kernel, by decide +kernel, by decide +kernel, by decide +kernel⟩
  rw [Recovery.reader, String.toList_ofList]
  exact hread

end LinkedJson
