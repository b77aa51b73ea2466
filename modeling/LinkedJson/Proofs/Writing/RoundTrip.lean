import LinkedJson.Proofs.Grammar.Regular
import LinkedJson.Proofs.Tree.Bare
import LinkedJson.Proofs.Writing.Parsing
import LinkedJson.Proofs.Writing.Strings

/-!
# Reading undoes writing

The tree of a written value is converted to the node of that value, since the text that each
construct covers is the text that it was written with. So reading a written document gives back the
value, with the span of every construct, and no syntax errors.
-/

namespace LinkedJson.Writing

open LinkedJson.Text LinkedJson.Tree

theorem between_past (offset : Nat) (chars : List Char) :
    Span.between offset (past offset chars) = ⟨offset, byteLength chars⟩ := by
  rw [Span.between, past, Nat.add_sub_cancel_left]

theorem elements_cons {text : List Char} {place : Place} {tree : Tree} {value : Node}
    (hvalue : node? text tree = some value) (trees : List Tree) :
    elements text place (tree :: trees) = value :: elements text place trees := by
  obtain ⟨kind, start, stop, missing, children⟩ := tree
  have hkind : (kind == .error) = false := by
    cases kind with
    | error => cases hvalue
    | _ => rfl
  rw [elements, hkind, hvalue]
  rfl

theorem node?_quoted {text : List Char} {quoted : Quoted} {offset : Nat}
    (hstands : StandsAt text offset quoted.chars) :
    node? text (.node .string offset (past offset quoted.chars) false []) =
      some (.string quoted.value ⟨offset, byteLength quoted.chars⟩) := by
  change some (Node.string (Literal.value (slice text offset (past offset quoted.chars)))
    (Span.between offset (past offset quoted.chars))) = _
  rw [past, hstands.slice_eq, value_quoted, ← past, between_past]

mutual

/-- The tree of a value that stands in a text is converted to the node of that value. -/
theorem node?_form (text : List Char) : ∀ (form : Form) (offset : Nat),
    StandsAt text offset form.chars → node? text (form.tree offset) = some (form.node offset)
  | .object inside members, offset, hstands => by
    have hinside : StandsAt text (offset + 1) (inside.chars ++ (members.chars false ++ ['\x7d'])) :=
      hstands.tail
    have hmembers := elements_members text false members _ hinside.right.left
    change some (Node.object (elements text .member _) (Span.between offset (past offset _))) = _
    rw [between_past]
    exact congrArg (fun nodes ↦ some (Node.object nodes _)) hmembers
  | .array inside elements, offset, hstands => by
    have hinside : StandsAt text (offset + 1) (inside.chars ++ (elements.chars false ++ [']'])) :=
      hstands.tail
    have helements := elements_elements text false elements _ hinside.right.left
    change some (Node.array (Tree.elements text .value _) (Span.between offset (past offset _))) = _
    rw [between_past]
    exact congrArg (fun nodes ↦ some (Node.array nodes _)) helements
  | .string quoted, offset, hstands => node?_quoted hstands
  | .number numeral, offset, hstands => by
    have hslice : slice text offset (past offset numeral.chars) = numeral.chars :=
      StandsAt.slice_eq hstands
    change some (Node.number (String.ofList (slice text offset (past offset numeral.chars)))
      (Span.between offset (past offset numeral.chars))) = _
    rw [hslice, between_past]
    rfl
  | .boolean true, offset, hstands => congrArg (some ∘ Node.boolean true) (between_past offset _)
  | .boolean false, offset, hstands => congrArg (some ∘ Node.boolean false) (between_past offset _)
  | .null, offset, hstands => congrArg (some ∘ Node.null) (between_past offset _)

theorem elements_members (text : List Char) : ∀ (follows : Bool) (members : Members) (offset : Nat),
    StandsAt text offset (members.chars follows) →
      elements text .member (members.trees follows offset) = members.nodes follows offset
  | follows, .none, offset, hstands => rfl
  | follows, .cons before name beforeColon afterColon value after rest, offset, hstands => by
    let start := past (past offset (comma follows)) before.chars
    let valueStart := past (past (past start name.chars) beforeColon.chars + 1) afterColon.chars
    have hmember : StandsAt text start _ := hstands.right.right
    have hvalue : StandsAt text valueStart _ := hmember.right.right.tail.right
    have hparts : parts text [.node .string start (past start name.chars) false [],
        value.tree valueStart] =
        [.string name.value ⟨start, byteLength name.chars⟩, value.node valueStart] := by
      rw [parts, parts, node?_quoted hmember.left, node?_form text value valueStart hvalue.left]
      rfl
    have hrest := elements_members text true rest (past (past valueStart value.chars) after.chars)
      hvalue.right.right
    rw [Members.trees, elements_cons rfl, hparts, hrest]
    rfl

theorem elements_elements (text : List Char) : ∀ (follows : Bool) (items : Elements) (offset : Nat),
    StandsAt text offset (items.chars follows) →
      elements text .value (items.trees follows offset) = items.nodes follows offset
  | follows, .none, offset, hstands => rfl
  | follows, .cons before value after rest, offset, hstands => by
    let start := past (past offset (comma follows)) before.chars
    have hvalue : StandsAt text start _ := hstands.right.right
    have hrest := elements_elements text true rest (past (past start value.chars) after.chars)
      hvalue.right.right
    rw [Elements.trees, elements_cons (node?_form text value start hvalue.left), hrest]
    rfl

end

mutual

/-- The node of a written value stands for that value. -/
theorem json?_form : ∀ (form : Form) (offset : Nat), (form.node offset).json? = some form.value
  | .object inside members, offset => by
    rw [Form.node, Node.json?, membersJson?_members false members]
    rfl
  | .array inside elements, offset => by
    rw [Form.node, Node.json?, elementsJson?_elements false elements]
    rfl
  | .string quoted, offset => rfl
  | .number numeral, offset => rfl
  | .boolean true, offset => rfl
  | .boolean false, offset => rfl
  | .null, offset => rfl

theorem membersJson?_members : ∀ (follows : Bool) (members : Members) (offset : Nat),
    membersJson? (members.nodes follows offset) = some members.values
  | follows, .none, offset => rfl
  | follows, .cons before name beforeColon afterColon value after rest, offset => by
    rw [Members.nodes, membersJson?, json?_form value, membersJson?_members true rest]
    rfl

theorem elementsJson?_elements : ∀ (follows : Bool) (elements : Elements) (offset : Nat),
    elementsJson? (elements.nodes follows offset) = some elements.values
  | follows, .none, offset => rfl
  | follows, .cons before value after rest, offset => by
    rw [Elements.nodes, elementsJson?, json?_form value, elementsJson?_elements true rest]
    rfl

end

theorem Form.kind_tree_bne (form : Form) (offset : Nat) :
    ((form.tree offset).kind != .comment) = true := by
  cases form with
  | boolean value => cases value <;> rfl
  | _ => rfl

theorem standsAt_form (document : Document) :
    StandsAt document.chars (byteLength document.before.chars) document.form.chars :=
  ⟨document.before.chars, document.after.chars ++ document.commentChars, rfl, rfl⟩

/-- The tree of a written document is read as its node, without errors. -/
theorem Document.ofTree_tree (document : Document) :
    Reading.ofTree document.chars document.tree = ⟨some document.node, []⟩ := by
  have hnode : node? document.chars (document.form.tree (byteLength document.before.chars)) =
      some document.node := node?_form _ _ _ (standsAt_form document)
  have hregular := (Grammar.regular_of_tree? (tree?_document document)).2
  have hsound : anyFault document.tree.children = false :=
    anyFault_children ((hasFault_eq_false_iff _).2 fun part hpart ↦
      (hregular part hpart).isFault_eq)
  have hform : (document.form.tree (byteLength document.before.chars)).hasFault = false :=
    anyFault_eq_false_iff_forall.1 hsound _ List.mem_cons_self
  have hcontents : document.tree.contents =
      [document.form.tree (byteLength document.before.chars)] :=
    List.filter_cons_of_pos (document.form.kind_tree_bne _)
  rw [Tree.ofTree_document _ rfl, hcontents, List.findSome?_cons, contentErrors,
    errors_of_hasFault _ _ _ hform, hnode]
  rfl

/-- Every way of writing a value is read back as that value, with the span of each construct and
without errors, whether the grammar reads the text or a front end that is faithful to it. -/
theorem reading_undoes_writing {recovery : Recovery} (hfaithful : recovery.Faithful) (value : Json)
    (document : Document) (hvalue : document.form.value = value) :
    recovery.reader document.text = some ⟨some document.node, []⟩ ∧
      document.node.json? = some value := by
  have htree : Grammar.tree? document.text.toList = some document.tree := by
    rw [Document.text, String.toList_ofList]
    exact tree?_document document
  constructor
  · rw [hfaithful.reader_eq htree, Document.text, String.toList_ofList, document.ofTree_tree]
  · rw [Document.node, json?_form, hvalue]

/-- A string of one character beyond the basic plane, written as a surrogate pair. -/
def face : Quoted :=
  [⟨'😀', ['\\', 'u', 'd', '8', '3', 'D', '\\', 'u', 'D', 'E', '0', '0'],
    .pair (by decide)
      ⟨13, 8, 3, 13, ⟨by decide, .inr rfl⟩, ⟨by decide, .inl rfl⟩, ⟨by decide, .inl rfl⟩,
        ⟨by decide, .inl rfl⟩, by decide⟩
      ⟨13, 14, 0, 0, ⟨by decide, .inl rfl⟩, ⟨by decide, .inl rfl⟩, ⟨by decide, .inl rfl⟩,
        ⟨by decide, .inl rfl⟩, by decide⟩⟩]

def one : Numeral where
  negative := false
  first := '1'
  digits := []
  fraction := none
  exponent := none
  isDigit_first := rfl
  isDigit_digits := by simp
  digits_of_zero := fun _ ↦ rfl
  isDigit_fraction := by simp

/-- An object between two comments. The name of its member has an escape, too. -/
def commented : Document where
  before := [.block ['c'] (by decide)]
  form := .object []
    (.cons []
      [⟨'a', ['a'], .raw (by decide) (by decide) (by decide)⟩,
        ⟨'\n', ['\\', 'n'], .short (by decide)⟩]
      [] [.blank ' ' (by decide)]
      (.array [] (.cons [] (.number one) [] (.cons [] (.string face) [] .none)))
      [] .none)
  after := [.blank ' ' (by decide)]
  comment := some ⟨['e'], by decide⟩

/-- The tree of that document with its comments and its punctuation. -/
def commentedTree : Tree :=
  .node .document 0 36 false
    [.node .comment 0 5 false [],
      .node .object 5 32 false
        [.node .openBrace 5 6 false [],
          .node .pair 6 31 false
            [.node .string 6 11 false
                [.node .quote 6 7 false [], .node .other 7 10 false [],
                  .node .quote 10 11 false []],
              .node .colon 11 12 false [],
              .node .array 13 31 false
                [.node .openBracket 13 14 false [], .node .number 14 15 false [],
                  .node .comma 15 16 false [],
                  .node .string 16 30 false
                    [.node .quote 16 17 false [], .node .other 17 29 false [],
                      .node .quote 29 30 false []],
                  .node .closeBracket 30 31 false []]],
          .node .closeBrace 31 32 false []],
      .node .comment 33 36 false []]

/-- A front end that knows one text. -/
def commentedRecovery : Recovery := fun text ↦
  if text = commented.text then some commentedTree else none

theorem faithful_commentedRecovery : commentedRecovery.Faithful := by
  intro text tree written htree hwritten
  unfold commentedRecovery at htree
  split at htree
  · next htext =>
    have hcommented := tree?_document commented
    rw [htext, Document.text, String.toList_ofList, hcommented] at hwritten
    cases htree
    cases hwritten
    exact ⟨rfl, rfl, rfl⟩
  · cases htree

theorem reading_undoes_writing_commented :
    commentedRecovery.reader "/*c*/\x7b\"a\\n\": [1,\"\\ud83D\\uDE00\"]\x7d //e" =
        some ⟨some (.object
          [.property [.string "a\n" ⟨6, 5⟩,
            .array [.number "1" ⟨14, 1⟩, .string "😀" ⟨16, 14⟩] ⟨13, 18⟩] ⟨6, 25⟩] ⟨5, 27⟩), []⟩ ∧
      commented.node.json? = some (.object [("a\n", .array [.number "1", .string "😀"])]) :=
  reading_undoes_writing faithful_commentedRecovery _ commented rfl

end LinkedJson.Writing
