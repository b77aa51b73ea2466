import LinkedJson.Proofs.Grammar.Pieces
import LinkedJson.Proofs.Grammar.Steps
import LinkedJson.Proofs.Text.Boundary
import LinkedJson.Proofs.Tree.Nesting

/-!
# Trees of the grammar

The trees that the grammar gives to a text are regular: they have no faults, their spans are nested,
a string covers a literal of the text, and a pair is a name with a value. While a text is read, this
holds of all complete trees, and the items of each open container lie one after another between its
start and the start of the container that is open in it.
-/

namespace LinkedJson

open LinkedJson.Text LinkedJson.Span

/-- A literal stands in a text from one offset up to another. -/
def IsLiteral (text : List Char) (start stop : Nat) : Prop :=
  ∃ body, StandsAt text start ('"' :: (body ++ ['"'])) ∧
    stop = start + byteLength ('"' :: (body ++ ['"']))

namespace Tree

/-- What holds of each tree that the grammar gives. -/
structure IsRegular (text : List Char) (tree : Tree) : Prop where
  isFault_eq : tree.isFault = false
  start_le_stop : tree.start ≤ tree.stop
  holds : tree.span.Holds (tree.children.map span)
  literal : tree.kind = .string → IsLiteral text tree.start tree.stop
  pair : tree.kind = .pair → ∃ name value, tree.children = [name, value] ∧
    name.kind = .string ∧ value.kind.isValue = true

/-- A tree is regular, and so are all trees below it. -/
def Regular (text : List Char) (tree : Tree) : Prop :=
  ∀ part ∈ tree.preorder, part.IsRegular text

theorem regular_iff {text : List Char} {tree : Tree} :
    tree.Regular text ↔ tree.IsRegular text ∧ ∀ child ∈ tree.children, child.Regular text :=
  forall_mem_preorder

theorem Regular.limit_span {text : List Char} {tree : Tree} (hregular : tree.Regular text) :
    tree.span.limit = tree.stop :=
  Nat.add_sub_cancel' (regular_iff.1 hregular).1.start_le_stop

/-- Regular trees that follow one another between two offsets. -/
def Row (text : List Char) (low high : Nat) (trees : List Tree) : Prop :=
  InOrder low high (trees.map span) ∧ ∀ tree ∈ trees, tree.Regular text

namespace Row

variable {text : List Char} {low high : Nat} {trees : List Tree} {tree : Tree}

theorem widen (hrow : Row text low high trees) {high' : Nat} (hhigh : high ≤ high') :
    Row text low high' trees :=
  ⟨hrow.1.widen (Nat.le_refl low) hhigh, hrow.2⟩

theorem concat (hrow : Row text low tree.start trees) (hregular : tree.Regular text) :
    Row text low tree.stop (trees ++ [tree]) := by
  constructor
  · rw [List.map_append, List.map_singleton]
    refine hrow.1.append ?_
    rw [← hregular.limit_span]
    exact inOrder_singleton tree.span
  · rw [List.forall_mem_append]
    exact ⟨hrow.2, by simpa using hregular⟩

theorem reverse_cons (hregular : tree.Regular text) (hrow : Row text low tree.start trees.reverse) :
    Row text low tree.stop (tree :: trees).reverse := by
  rw [List.reverse_cons]
  exact hrow.concat hregular

/-- What is put around a row is regular, if it is neither a fault nor a string. -/
theorem regular {kind : TreeKind} (hrow : Row text low high trees)
    (herror : (kind == .error) = false) (hstring : kind ≠ .string)
    (hpair : kind = .pair → ∃ name value, trees = [name, value] ∧
      name.kind = .string ∧ value.kind.isValue = true) :
    Regular text (.node kind low high false trees) := by
  have hle : low ≤ high := hrow.1.le
  have hstop : (Span.between low high).limit = high := Nat.add_sub_cancel' hle
  refine regular_iff.2 ⟨⟨?_, hle, ?_, fun hkind ↦ absurd hkind hstring, hpair⟩, hrow.2⟩
  · exact Bool.or_eq_false_iff.2 ⟨herror, rfl⟩
  · change InOrder low (Span.between low high).limit (trees.map span)
    rw [hstop]
    exact hrow.1

end Row

theorem regular_array {text : List Char} {low high : Nat} {trees : List Tree}
    (hrow : Row text low high trees) : Regular text (.node .array low high false trees) :=
  hrow.regular rfl (by decide) fun hkind ↦ by cases hkind

theorem regular_object {text : List Char} {low high : Nat} {trees : List Tree}
    (hrow : Row text low high trees) : Regular text (.node .object low high false trees) :=
  hrow.regular rfl (by decide) fun hkind ↦ by cases hkind

theorem regular_pair {text : List Char} {name value : Tree} (hname : name.Regular text)
    (hvalue : value.Regular text) (hstring : name.kind = .string)
    (hkind : value.kind.isValue = true) (hle : name.stop ≤ value.start) :
    Regular text (.node .pair name.start value.stop false [name, value]) := by
  have hnone : Row text name.start name.start [] := ⟨Nat.le_refl _, by simp⟩
  have hrow : Row text name.start value.stop [name, value] :=
    ((hnone.concat hname).widen hle).concat hvalue
  exact hrow.regular rfl (by decide) fun _ ↦ ⟨name, value, rfl, hstring, hkind⟩

theorem regular_scalar {text : List Char} {kind : TreeKind} {lexeme : Grammar.Lexeme}
    (hle : lexeme.start ≤ lexeme.stop) (herror : (kind == .error) = false) (hpair : kind ≠ .pair)
    (hliteral : kind = .string → IsLiteral text lexeme.start lexeme.stop) :
    Regular text (Grammar.State.scalar kind lexeme) := by
  refine regular_iff.2 ⟨⟨?_, hle, Nat.le_add_right _ _, hliteral, ?_⟩, ?_⟩
  · exact Bool.or_eq_false_iff.2 ⟨herror, rfl⟩
  · exact fun hkind ↦ absurd hkind hpair
  · intro child hchild
    cases hchild

end Tree

namespace Grammar

open LinkedJson.Tree

/-- What holds of the open containers and the values of a state, when the text has been read up to
an offset: the items of each container are a row, which ends where the container in it starts. -/
def Stacked (text : List Char) (values : List Tree) : Nat → List Frame → Prop
  | limit, [] => Row text 0 limit values.reverse
  | limit, .array start _ items :: frames =>
    Row text start limit items.reverse ∧ Stacked text values start frames
  | limit, .object start _ items :: frames =>
    Row text start limit items.reverse ∧ Stacked text values start frames
  | limit, .pair name _ :: frames =>
    name.Regular text ∧ name.kind = .string ∧ name.stop ≤ limit ∧
      Stacked text values name.start frames

theorem Stacked.widen {text : List Char} {values : List Tree} {frames : List Frame}
    {limit limit' : Nat} (hstacked : Stacked text values limit frames) (hle : limit ≤ limit') :
    Stacked text values limit' frames := by
  match frames, hstacked with
  | [], hrow => exact Row.widen hrow hle
  | .array .. :: _, ⟨hrow, hbelow⟩ => exact ⟨hrow.widen hle, hbelow⟩
  | .object .. :: _, ⟨hrow, hbelow⟩ => exact ⟨hrow.widen hle, hbelow⟩
  | .pair .. :: _, ⟨hname, hstring, hstop, hbelow⟩ =>
    exact ⟨hname, hstring, Nat.le_trans hstop hle, hbelow⟩

theorem Stacked.completes {text : List Char} {state next : State} {value : Tree}
    (hstacked : Stacked text state.values value.start state.frames) (hvalue : value.Regular text)
    (hkind : value.kind.isValue = true) (hcompletes : state.Completes value next) :
    Stacked text next.values value.stop next.frames := by
  cases hcompletes with
  | document => exact Row.reverse_cons hvalue hstacked
  | element => exact ⟨Row.reverse_cons hvalue hstacked.1, hstacked.2⟩
  | name start phase items frames values hstring =>
    exact ⟨hvalue, hstring, Nat.le_refl _, hstacked⟩
  | member name =>
    obtain ⟨hname, hstring, hstop, hrow, hbelow⟩ := hstacked
    have hpair := regular_pair hname hvalue hstring hkind hstop
    exact ⟨Row.reverse_cons hpair hrow, hbelow⟩

theorem isValue_of_scalar? {token : Token} {kind : TreeKind} (hscalar : token.scalar? = some kind) :
    kind.isValue = true := by
  cases token <;> cases hscalar <;> rfl

theorem regular_of_scalar? {text : List Char} {lexeme : Lexeme} {kind : TreeKind}
    (hle : lexeme.start ≤ lexeme.stop)
    (hliteral : lexeme.token = .string → IsLiteral text lexeme.start lexeme.stop)
    (hscalar : lexeme.token.scalar? = some kind) : Regular text (State.scalar kind lexeme) := by
  obtain ⟨token, start, stop⟩ := lexeme
  cases token <;> cases hscalar
  case string => exact regular_scalar hle rfl (by decide) fun _ ↦ hliteral rfl
  all_goals exact regular_scalar hle rfl (by decide) fun hkind ↦ by cases hkind

/-- Reading a token keeps the containers and values in order. -/
theorem Stacked.steps {text : List Char} {state next : State} {lexeme : Lexeme} {limit : Nat}
    (hstacked : Stacked text state.values limit state.frames) (hlimit : limit ≤ lexeme.start)
    (hle : lexeme.start ≤ lexeme.stop)
    (hliteral : lexeme.token = .string → IsLiteral text lexeme.start lexeme.stop)
    (hsteps : state.Steps lexeme next) :
    Stacked text next.values lexeme.stop next.frames := by
  have hstart := hstacked.widen hlimit
  have hstop : limit ≤ lexeme.stop := Nat.le_trans hlimit hle
  have hempty : Row text lexeme.start lexeme.stop [] := ⟨hle, by simp⟩
  cases hsteps with
  | scalar hscalar hcompletes =>
    exact hstart.completes (regular_of_scalar? hle hliteral hscalar) (isValue_of_scalar? hscalar)
      hcompletes
  | opens container => cases container <;> exact ⟨hempty, hstart⟩
  | closes container htoken hphase hcompletes =>
    -- A closing bracket completes a container that started before it, so the stack below is used
    -- up to that start, and all that was read since is inside.
    cases container with
    | object => exact hstacked.2.completes (regular_object (hstacked.1.widen hstop)) rfl hcompletes
    | array => exact hstacked.2.completes (regular_array (hstacked.1.widen hstop)) rfl hcompletes
  | separates container => cases container <;> exact ⟨hstacked.1.widen hstop, hstacked.2⟩
  | names => exact hstacked.widen hstop

/-! ## Reading a text -/

/-- Reading the rest of a text keeps the containers and values in order. -/
theorem stacked_run {text : List Char} : ∀ (pieces : List Piece) (done : List Char)
    {state next : State},
    text = done ++ pieces.flatMap (·.chars) →
    (∀ piece ∈ pieces, piece.Shape) →
    Stacked text state.values (byteLength done) state.frames →
    state.run (lexemesFrom (byteLength done) pieces) = some next →
    Stacked text next.values (byteLength text) next.frames
  | [], done, state, next, htext, hshapes, hstacked, hrun => by
    cases hrun
    rw [List.flatMap_nil, List.append_nil] at htext
    rwa [← htext] at hstacked
  | ⟨token?, chars⟩ :: pieces, done, state, next, htext, hshapes, hstacked, hrun => by
    obtain ⟨hshape, hothers⟩ := List.forall_mem_cons.1 hshapes
    have hsplit : text = (done ++ chars) ++ pieces.flatMap (·.chars) := by
      rw [htext, List.flatMap_cons, List.append_assoc]
    have hle : byteLength done ≤ byteLength (done ++ chars) := by simp
    rw [lexemesFrom, ← byteLength_append] at hrun
    cases token? with
    | none => exact stacked_run pieces _ hsplit hothers (hstacked.widen hle) hrun
    | some token =>
      obtain ⟨middle, hsteps, hrest⟩ := State.exists_steps_of_run hrun
      refine stacked_run pieces _ hsplit hothers ?_ hrest
      refine hstacked.steps (Nat.le_refl _) hle (fun htoken ↦ ?_) hsteps
      obtain ⟨body, -, hchars⟩ := hshape.exists_body (congrArg some htoken)
      refine ⟨body, ⟨done, pieces.flatMap (·.chars), ?_, rfl⟩, ?_⟩
      · rw [hsplit, List.append_assoc, ← literal, ← hchars]
      · rw [← literal, ← hchars, byteLength_append]

/-- The tree that the grammar gives to a text is a document of regular values. -/
theorem regular_of_tree? {text : List Char} {tree : Tree} (htree : tree? text = some tree) :
    tree.kind = .document ∧ tree.Regular text := by
  obtain ⟨parts, values, hparts, hrun, rfl⟩ := exists_run_of_tree? htree
  have htext : text = [] ++ parts.flatMap (·.chars) := (flatMap_chars_of_pieces hparts).symm
  have hnone : Stacked text State.start.values (byteLength []) State.start.frames :=
    ⟨Nat.le_refl 0, by simp [State.start]⟩
  have hstacked := stacked_run parts [] htext
    (fun piece hpiece ↦ shape_of_mem_piecesAfter hparts hpiece) hnone hrun
  exact ⟨rfl, Row.regular hstacked rfl (by decide) fun hkind ↦ by cases hkind⟩

end Grammar

end LinkedJson
