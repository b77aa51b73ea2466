import LinkedJson.Grammar.Document
import LinkedJson.Proofs.Writing.Lexing

/-!
# The syntax tree of a written value

Reading the tokens of a written value in any state completes the tree of that value and goes on with
what follows. The tree has the spans at which the constructs were written. The proof follows the
form: a container is pushed, its items are read one by one, and the closing bracket completes it.
-/

namespace LinkedJson.Writing

open Text Grammar

mutual

/-- The syntax tree of a value that is written at an offset. -/
def Form.tree (offset : Nat) : Form → Tree
  | .object inside members =>
    .node .object offset (past offset (Form.object inside members).chars) false
      (members.trees false (past (offset + 1) inside.chars))
  | .array inside elements =>
    .node .array offset (past offset (Form.array inside elements).chars) false
      (elements.trees false (past (offset + 1) inside.chars))
  | .string quoted => .node .string offset (past offset quoted.chars) false []
  | .number numeral => .node .number offset (past offset numeral.chars) false []
  | .boolean true => .node .trueWord offset (past offset ['t', 'r', 'u', 'e']) false []
  | .boolean false => .node .falseWord offset (past offset ['f', 'a', 'l', 's', 'e']) false []
  | .null => .node .nullWord offset (past offset ['n', 'u', 'l', 'l']) false []

def Members.trees (follows : Bool) (offset : Nat) : Members → List Tree
  | .none => []
  | .cons before name beforeColon afterColon value after rest =>
    let start := past (past offset (comma follows)) before.chars
    let valueStart := past (past (past start name.chars) beforeColon.chars + 1) afterColon.chars
    let stop := past valueStart value.chars
    .node .pair start stop false
        [.node .string start (past start name.chars) false [], value.tree valueStart] ::
      rest.trees true (past stop after.chars)

def Elements.trees (follows : Bool) (offset : Nat) : Elements → List Tree
  | .none => []
  | .cons before value after rest =>
    let start := past (past offset (comma follows)) before.chars
    value.tree start :: rest.trees true (past (past start value.chars) after.chars)

end

theorem Form.stop_tree (form : Form) (offset : Nat) :
    (form.tree offset).stop = past offset form.chars := by
  cases form with
  | boolean value => cases value <;> rfl
  | _ => rfl

theorem past_append (offset : Nat) (first second : List Char) :
    past offset (first ++ second) = past (past offset first) second := by
  simp [past, Nat.add_assoc]

theorem past_cons (offset : Nat) (c : Char) (rest : List Char) :
    past offset (c :: rest) = past (past offset [c]) rest :=
  past_append offset [c] rest

/-! ## Reading tokens -/

/-- Reads the tokens among pieces that start at an offset. -/
def runPieces (state : State) (offset : Nat) (pieces : List Piece) : Option State :=
  state.run (lexemesFrom offset pieces)

theorem runPieces_token (state : State) (offset : Nat) (token : Token) (chars : List Char)
    (rest : List Piece) :
    runPieces state offset (⟨some token, chars⟩ :: rest) =
      (state.step ⟨token, offset, past offset chars⟩).bind fun next ↦
        runPieces next (past offset chars) rest := by
  change state.run (⟨token, offset, past offset chars⟩ :: lexemesFrom (past offset chars) rest) = _
  rw [State.run]
  cases state.step ⟨token, offset, past offset chars⟩ <;> rfl

theorem runPieces_filler (state : State) (offset : Nat) (filler : Filler) (rest : List Piece) :
    runPieces state offset (filler.pieces ++ rest) =
      runPieces state (past offset filler.chars) rest := by
  cases filler with
  | blank c spacing => rfl
  | block body inside => rfl
  | line body inside =>
    rw [Filler.chars, ← List.cons_append, ← List.cons_append, past_append]
    rfl

theorem runPieces_gap (state : State) (offset : Nat) (gap : Gap) (rest : List Piece) :
    runPieces state offset (gap.pieces ++ rest) = runPieces state (past offset gap.chars) rest := by
  induction gap generalizing offset with
  | nil => rfl
  | cons filler gap ih =>
    change runPieces state offset (filler.pieces ++ Gap.pieces gap ++ rest) =
      runPieces state (past offset (filler.chars ++ Gap.chars gap)) rest
    rw [List.append_assoc, runPieces_filler, ih, past_append]

theorem complete_object {phase : Phase} (hphase : phase ≠ .filled) {name : Tree}
    (hname : name.kind = .string) (start : Nat) (items : List Tree) (frames : List Frame)
    (values : List Tree) :
    State.complete ⟨.object start phase items :: frames, values⟩ name =
      some ⟨.pair name false :: .object start phase items :: frames, values⟩ := by
  have hfits : ¬ (phase = .filled ∨ name.kind ≠ .string) := by
    rintro (hfilled | hkind)
    · exact hphase hfilled
    · exact hkind hname
  exact if_neg hfits

theorem complete_array {phase : Phase} (hphase : phase ≠ .filled) (value : Tree) (start : Nat)
    (items : List Tree) (frames : List Frame) (values : List Tree) :
    State.complete ⟨.array start phase items :: frames, values⟩ value =
      some ⟨.array start .filled (value :: items) :: frames, values⟩ :=
  if_neg hphase

/-- The phase in which a container waits for a comma, or for its first item. -/
def phaseOf (follows : Bool) : Phase :=
  if follows then .filled else .opened

/-- A comma that is due lets a container take its next item. -/
theorem runPieces_comma (container : Phase → Frame)
    (hcontainer : ∀ frames values start stop,
      State.step ⟨container .filled :: frames, values⟩ ⟨.comma, start, stop⟩ =
        some ⟨container .separated :: frames, values⟩)
    (follows : Bool) (frames : List Frame) (values : List Tree) (offset : Nat)
    (rest : List Piece) :
    ∃ phase, phase ≠ .filled ∧
      runPieces ⟨container (phaseOf follows) :: frames, values⟩ offset
          (commaPiece follows ++ rest) =
        runPieces ⟨container phase :: frames, values⟩ (past offset (comma follows)) rest := by
  cases follows with
  | false => exact ⟨.opened, by decide, rfl⟩
  | true =>
    refine ⟨.separated, by decide, ?_⟩
    change runPieces ⟨container .filled :: frames, values⟩ offset (⟨some .comma, [',']⟩ :: rest) = _
    rw [runPieces_token, hcontainer]
    rfl

/-- The name of a member and its colon put a pair on top of its object. -/
theorem runPieces_name {phase : Phase} (hphase : phase ≠ .filled) (start : Nat)
    (items : List Tree) (frames : List Frame) (values : List Tree) (offset : Nat) (name : Quoted)
    (beforeColon : Gap) (rest : List Piece) :
    runPieces ⟨.object start phase items :: frames, values⟩ offset
        (⟨some .string, name.chars⟩ :: (beforeColon.pieces ++ (⟨some .colon, [':']⟩ :: rest))) =
      runPieces
        ⟨.pair (.node .string offset (past offset name.chars) false []) true ::
          .object start phase items :: frames, values⟩
        (past (past offset name.chars) beforeColon.chars + 1) rest := by
  have hname := complete_object hphase
    (show (Tree.node .string offset (past offset name.chars) false []).kind = .string from rfl)
    start items frames values
  rw [runPieces_token]
  change (State.complete ⟨.object start phase items :: frames, values⟩
    (.node .string offset (past offset name.chars) false [])).bind _ = _
  rw [hname, Option.bind_some, runPieces_gap, runPieces_token]
  rfl

mutual

/-- Reading the tokens of a value completes its tree. -/
theorem runPieces_form : ∀ (form : Form) (state : State) (offset : Nat) (rest : List Piece),
    runPieces state offset (form.pieces ++ rest) =
      (state.complete (form.tree offset)).bind fun next ↦
        runPieces next (past offset form.chars) rest
  | .object inside members, state, offset, rest => by
    obtain ⟨phase, hphase, hmembers⟩ := runPieces_members false members offset [] state.frames
      state.values (past (offset + 1) inside.chars) (⟨some .closeBrace, ['\x7d']⟩ :: rest)
    have hstop : past (past (past (offset + 1) inside.chars) (members.chars false)) ['\x7d'] =
        past offset (Form.object inside members).chars := by
      rw [Form.chars, past_cons offset, past_append, past_append]
      rfl
    change runPieces state offset (⟨some .openBrace, ['\x7b']⟩ :: (inside.pieces ++
      (members.pieces false ++ [⟨some .closeBrace, ['\x7d']⟩]) ++ rest)) = _
    rw [runPieces_token, List.append_assoc, List.append_assoc, List.singleton_append]
    change runPieces ⟨.object offset (phaseOf false) [] :: state.frames, state.values⟩ (offset + 1)
      (inside.pieces ++ _) = _
    rw [runPieces_gap, hmembers, runPieces_token, hstop]
    simp only [State.step, if_neg hphase, List.append_nil, List.reverse_reverse]
    rfl
  | .array inside elements, state, offset, rest => by
    obtain ⟨phase, hphase, helements⟩ := runPieces_elements false elements offset [] state.frames
      state.values (past (offset + 1) inside.chars) (⟨some .closeBracket, [']']⟩ :: rest)
    have hstop : past (past (past (offset + 1) inside.chars) (elements.chars false)) [']'] =
        past offset (Form.array inside elements).chars := by
      rw [Form.chars, past_cons offset, past_append, past_append]
      rfl
    change runPieces state offset (⟨some .openBracket, ['[']⟩ :: (inside.pieces ++
      (elements.pieces false ++ [⟨some .closeBracket, [']']⟩]) ++ rest)) = _
    rw [runPieces_token, List.append_assoc, List.append_assoc, List.singleton_append]
    change runPieces ⟨.array offset (phaseOf false) [] :: state.frames, state.values⟩ (offset + 1)
      (inside.pieces ++ _) = _
    rw [runPieces_gap, helements, runPieces_token, hstop]
    simp only [State.step, if_neg hphase, List.append_nil, List.reverse_reverse]
    rfl
  | .string quoted, state, offset, rest => runPieces_token ..
  | .number numeral, state, offset, rest => runPieces_token ..
  | .boolean true, state, offset, rest => runPieces_token ..
  | .boolean false, state, offset, rest => runPieces_token ..
  | .null, state, offset, rest => runPieces_token ..

theorem runPieces_members : ∀ (follows : Bool) (members : Members) (start : Nat)
    (items : List Tree) (frames : List Frame) (values : List Tree) (offset : Nat)
    (rest : List Piece),
    ∃ phase, phase ≠ .separated ∧
      runPieces ⟨.object start (phaseOf follows) items :: frames, values⟩ offset
          (members.pieces follows ++ rest) =
        runPieces ⟨.object start phase ((members.trees follows offset).reverse ++ items) :: frames,
          values⟩ (past offset (members.chars follows)) rest
  | follows, .none, start, items, frames, values, offset, rest =>
    ⟨phaseOf follows, by cases follows <;> decide, rfl⟩
  | follows, .cons before name beforeColon afterColon value after others, start, items, frames,
      values, offset, rest => by
    let nameStart := past (past offset (comma follows)) before.chars
    let valueStart :=
      past (past (past nameStart name.chars) beforeColon.chars + 1) afterColon.chars
    let stop := past valueStart value.chars
    let pair : Tree := .node .pair nameStart stop false
      [.node .string nameStart (past nameStart name.chars) false [], value.tree valueStart]
    obtain ⟨waiting, hwaiting, hcomma⟩ := runPieces_comma (.object start · items)
      (fun _ _ _ _ ↦ rfl) follows frames values offset (before.pieces ++
        (⟨some .string, name.chars⟩ :: (beforeColon.pieces ++ (⟨some .colon, [':']⟩ ::
          (afterColon.pieces ++ (value.pieces ++ (after.pieces ++
            (others.pieces true ++ rest))))))))
    obtain ⟨phase, hphase, hothers⟩ := runPieces_members true others start (pair :: items) frames
      values (past stop after.chars) rest
    have hpair : State.complete
        ⟨.pair (.node .string nameStart (past nameStart name.chars) false []) true ::
          .object start waiting items :: frames, values⟩ (value.tree valueStart) =
        some ⟨.object start (phaseOf true) (pair :: items) :: frames, values⟩ := by
      rw [State.complete, Form.stop_tree]
      rfl
    refine ⟨phase, hphase, ?_⟩
    -- The pair completes with its value, and the object waits for a comma again.
    rw [Members.pieces, Members.trees, Members.chars]
    simp only [List.append_assoc, List.cons_append]
    rw [hcomma, runPieces_gap, runPieces_name hwaiting, runPieces_gap, runPieces_form, hpair,
      Option.bind_some, runPieces_gap, hothers, List.reverse_cons, List.append_assoc,
      List.singleton_append]
    rw [past_append, past_append, past_append, past_append, past_cons _ ':', past_append,
      past_append, past_append]
    rfl

theorem runPieces_elements : ∀ (follows : Bool) (elements : Elements) (start : Nat)
    (items : List Tree) (frames : List Frame) (values : List Tree) (offset : Nat)
    (rest : List Piece),
    ∃ phase, phase ≠ .separated ∧
      runPieces ⟨.array start (phaseOf follows) items :: frames, values⟩ offset
          (elements.pieces follows ++ rest) =
        runPieces ⟨.array start phase ((elements.trees follows offset).reverse ++ items) :: frames,
          values⟩ (past offset (elements.chars follows)) rest
  | follows, .none, start, items, frames, values, offset, rest =>
    ⟨phaseOf follows, by cases follows <;> decide, rfl⟩
  | follows, .cons before value after others, start, items, frames, values, offset, rest => by
    let valueStart := past (past offset (comma follows)) before.chars
    obtain ⟨waiting, hwaiting, hcomma⟩ := runPieces_comma (.array start · items)
      (fun _ _ _ _ ↦ rfl) follows frames values offset
      (before.pieces ++ (value.pieces ++ (after.pieces ++ (others.pieces true ++ rest))))
    obtain ⟨phase, hphase, hothers⟩ := runPieces_elements true others start
      (value.tree valueStart :: items) frames values
      (past (past valueStart value.chars) after.chars) rest
    refine ⟨phase, hphase, ?_⟩
    rw [Elements.pieces, Elements.trees, Elements.chars]
    simp only [List.append_assoc]
    rw [hcomma, runPieces_gap, runPieces_form, complete_array hwaiting, Option.bind_some,
      runPieces_gap]
    change runPieces ⟨.array start (phaseOf true) (value.tree valueStart :: items) :: frames,
      values⟩ _ _ = _
    rw [hothers, List.reverse_cons, List.append_assoc, List.singleton_append]
    rw [past_append, past_append, past_append, past_append]

end

theorem runPieces_comment (state : State) (offset : Nat) (document : Document) :
    runPieces state offset document.commentPieces = some state := by
  unfold Document.commentPieces
  cases document.comment <;> rfl

/-- The syntax tree of a written document: one value below the root. -/
def Document.tree (document : Document) : Tree :=
  .node .document 0 (byteLength document.chars) false
    [document.form.tree (byteLength document.before.chars)]

/-- A written document is a text of the grammar, and this is its syntax tree. -/
theorem tree?_document (document : Document) :
    Grammar.tree? document.chars = some document.tree := by
  have hstart : past 0 document.before.chars = byteLength document.before.chars := Nat.zero_add _
  have hrun : State.start.run (lexemesFrom 0 document.pieces) =
      some ⟨[], [document.form.tree (byteLength document.before.chars)]⟩ := by
    change runPieces State.start 0 (document.before.pieces ++ (document.form.pieces ++
      (document.after.pieces ++ document.commentPieces))) = _
    rw [runPieces_gap, hstart, runPieces_form]
    change runPieces _ _ (document.after.pieces ++ document.commentPieces) = _
    rw [runPieces_gap, runPieces_comment]
    rfl
  have hvalues : Grammar.values? document.chars =
      some [document.form.tree (byteLength document.before.chars)] := by
    rw [Grammar.values?, lexemes?, pieces_document, Option.map_some, Option.bind_some, hrun]
    rfl
  rw [Grammar.tree?, hvalues]
  rfl

end LinkedJson.Writing
