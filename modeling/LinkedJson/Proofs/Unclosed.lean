import LinkedJson.Proofs.Grammar.OpenContainers
import LinkedJson.Proofs.Grammar.Regular

/-!
# What the beginning of a text leaves open

What is missing at the end of an unfinished text is found by a scan over its characters, which knows
brackets, quotes and backslashes and nothing else of the grammar. On the beginnings of a text of the
grammar without comments the scan agrees with the reader: between two tokens it has the containers
open that the reader has open, and inside a token it opens and closes none. So it names the end of
the innermost container in which the beginning breaks off.
-/

namespace LinkedJson

open LinkedJson.Text LinkedJson.Grammar

/-- The bracket that opens a container of some kind. -/
def TreeKind.opener : TreeKind → Char
  | object => '\x7b'
  | _ => '['

/-- The error that a container of some kind is not closed. -/
def TreeKind.unclosed : TreeKind → ErrorCode
  | object => .closeBraceExpected
  | _ => .closeBracketExpected

namespace Nesting

/-- A scan that is between tokens. -/
def outside (openers : List Char) : Nesting := ⟨false, false, openers⟩

/-- A scan that is in a literal and not behind a backslash. -/
def inside (openers : List Char) : Nesting := ⟨true, false, openers⟩

variable {openers : List Char}

theorem read_append (nesting : Nesting) (first second : List Char) :
    nesting.read (first ++ second) = (nesting.read first).read second :=
  List.foldl_append

theorem step_of_isFlat {c : Char} (hflat : IsFlat c) :
    (outside openers).step c = outside openers := by
  simp only [IsFlat, List.mem_cons, List.not_mem_nil, or_false, not_or] at hflat
  simp [step, outside, hflat]

theorem read_of_isFlat {chars : List Char} (hflat : ∀ c ∈ chars, IsFlat c) :
    (outside openers).read chars = outside openers := by
  induction chars with
  | nil => rfl
  | cons c chars ih =>
    obtain ⟨hc, hchars⟩ := List.forall_mem_cons.1 hflat
    change ((outside openers).step c).read chars = _
    rw [step_of_isFlat hc, ih hchars]

theorem step_of_plain {c : Char} (hquote : c ≠ '"') (hbackslash : c ≠ '\\') :
    (inside openers).step c = inside openers := by
  simp [step, inside, hquote, hbackslash]

theorem read_body {body : List Char} (hbody : IsBody body) :
    (inside openers).read body = inside openers := by
  induction hbody with
  | nil => rfl
  | @plain c rest hquote hbackslash hfeed hrest ih =>
    change ((inside openers).step c).read rest = _
    rw [step_of_plain hquote hbackslash, ih]
  | escape hescape hrest ih => exact ih

/-- The text between quotes opens and closes nothing, wherever it breaks off. -/
theorem openers_read_body {body part : List Char} (hbody : IsBody body) (hpart : part <+: body) :
    ((inside openers).read part).openers = openers := by
  induction hbody generalizing part with
  | nil =>
    rw [List.prefix_nil.1 hpart]
    rfl
  | @plain c rest hquote hbackslash hfeed hrest ih =>
    rcases List.prefix_cons_iff.1 hpart with rfl | ⟨behind, rfl, hbehind⟩
    · rfl
    · change (((inside openers).step c).read behind).openers = _
      rw [step_of_plain hquote hbackslash, ih hbehind]
  | @escape c rest hescape hrest ih =>
    rcases List.prefix_cons_iff.1 hpart with rfl | ⟨behind, rfl, hbehind⟩
    · rfl
    · rcases List.prefix_cons_iff.1 hbehind with rfl | ⟨further, rfl, hfurther⟩
      · rfl
      · change ((inside openers).read further).openers = _
        exact ih hfurther

theorem read_literal {body : List Char} (hbody : IsBody body) :
    (outside openers).read (literal body) = outside openers := by
  change (inside openers).read (body ++ ['"']) = _
  rw [read_append, read_body hbody]
  rfl

/-- A piece that breaks off opens and closes nothing. -/
theorem openers_read_part {piece : Piece} {part : List Char} (hshape : piece.Shape)
    (hcomment : piece.isComment = false) (hpart : part <+: piece.chars)
    (hproper : part ≠ piece.chars) : ((outside openers).read part).openers = openers := by
  cases hshape with
  | bracket hbracket =>
    have hnone := Option.ne_none_iff_exists'.2 ⟨_, hbracket⟩
    rw [(Piece.Shape.bracket hbracket).eq_nil_of_bracket? rfl hnone hpart hproper]
    rfl
  | @literal body hbody =>
    rcases List.prefix_cons_iff.1 hpart with rfl | ⟨behind, rfl, hbehind⟩
    · rfl
    · refine openers_read_body hbody ?_
      rcases List.prefix_concat_iff.1 hbehind with rfl | hbody
      · exact absurd rfl hproper
      · exact hbody
  | comment => cases hcomment
  | flat hstring hbracket hflat =>
    rw [read_of_isFlat fun c hc ↦ hflat c (hpart.subset hc)]
    rfl

/-- A bracket opens and closes for the scan what it does for the reader. -/
theorem step_bracket {state next : State} {lexeme : Lexeme} (hsteps : state.Steps lexeme next)
    {c : Char} (hbracket : lexeme.token.bracket? = some c) :
    (outside (state.kinds.map TreeKind.opener)).step c =
      outside (next.kinds.map TreeKind.opener) := by
  obtain ⟨token, start, stop⟩ := lexeme
  cases hsteps with
  | scalar hscalar => cases token <;> cases hscalar <;> cases hbracket
  | opens container state htoken =>
    cases htoken
    cases container <;> cases hbracket <;> rfl
  | closes container htoken hphase hcompletes =>
    cases htoken
    rw [hcompletes.kinds]
    cases container <;> cases hbracket <;> rfl
  | separates container start items frames values htoken =>
    cases htoken
    cases hbracket
  | names name frames values htoken =>
    cases htoken
    cases hbracket

/-- A token has the same effect on the scan as on the reader. -/
theorem read_token {piece : Piece} {state next : State} {lexeme : Lexeme} (hshape : piece.Shape)
    (htoken : piece.token? = some lexeme.token) (hsteps : state.Steps lexeme next) :
    (outside (state.kinds.map TreeKind.opener)).read piece.chars =
      outside (next.kinds.map TreeKind.opener) := by
  cases hshape with
  | bracket hbracket =>
    cases htoken
    exact step_bracket hsteps hbracket
  | literal hbody =>
    have hbracket : lexeme.token.bracket? = none := by
      rw [← Option.some.inj htoken]
      rfl
    rw [read_literal hbody, hsteps.kinds hbracket]
  | comment => cases htoken
  | flat hstring hbracket hflat =>
    cases htoken
    rw [read_of_isFlat hflat, hsteps.kinds hbracket]

theorem read_gap {piece : Piece} (hshape : piece.Shape) (hcomment : piece.isComment = false)
    (htoken : piece.token? = none) : (outside openers).read piece.chars = outside openers := by
  cases hshape with
  | bracket | literal => cases htoken
  | comment => cases hcomment
  | flat hstring hbracket hflat => exact read_of_isFlat hflat

/-- Where a text breaks off, the scan has the containers open that the reader of the whole text has
around that place. -/
theorem openers_read_run {pieces : List Piece} {part rest : List Char} {start : Nat}
    {state final : State} (hshapes : ∀ piece ∈ pieces, piece.Shape)
    (hcomments : ∀ piece ∈ pieces, piece.isComment = false)
    (htext : pieces.flatMap (·.chars) = part ++ rest)
    (hsettled : state.Settled (start + byteLength part))
    (hrun : state.run (lexemesFrom start pieces) = some final) :
    ((outside (state.kinds.map TreeKind.opener)).read part).openers =
      (final.openKinds (start + byteLength part)).reverse.map TreeKind.opener := by
  induction pieces generalizing part start state with
  | nil =>
    cases hrun
    rw [(List.append_eq_nil_iff.1 htext.symm).1] at hsettled ⊢
    rw [hsettled.openKinds, List.reverse_reverse]
    rfl
  | cons piece pieces ih =>
    obtain ⟨hshape, hothers⟩ := List.forall_mem_cons.1 hshapes
    obtain ⟨hcomment, hplain⟩ := List.forall_mem_cons.1 hcomments
    rcases whole_or_part htext with ⟨more, rfl, hmore⟩ | ⟨hpart, hproper⟩
    · -- The piece lies before the place, so the scan and the reader both pass it.
      rw [byteLength_append, ← Nat.add_assoc] at hsettled ⊢
      rw [read_append]
      rw [lexemesFrom] at hrun
      cases htoken : piece.token? with
      | none =>
        rw [htoken] at hrun
        rw [read_gap hshape hcomment htoken]
        exact ih hothers hplain hmore hsettled hrun
      | some token =>
        rw [htoken] at hrun
        obtain ⟨next, hsteps, hrest⟩ := State.exists_steps_of_run hrun
        rw [read_token hshape htoken hsteps]
        refine ih hothers hplain hmore (hsettled.steps hsteps ?_ ?_) hrest
        · exact Nat.lt_add_of_pos_right hshape.byteLength_pos
        · exact Nat.le_add_right _ _
    · -- The place lies in the piece, which changes nothing for the scan, and neither it nor what is
      -- behind it changes what the reader has around the place.
      rw [openers_read_part hshape hcomment hpart hproper,
        State.openKinds_run_of_part hshapes hpart hproper hrun, hsettled.openKinds,
        List.reverse_reverse]

/-- The scan over the beginning of a text has the containers open that are open where it ends. -/
theorem openers_read {before after : List Char} {tree : Tree}
    (htree : tree? (before ++ after) = some tree)
    (hplain : isCommentFree (before ++ after) = true) :
    (Nesting.start.read before).openers =
      (tree.openKinds (byteLength before)).reverse.map TreeKind.opener := by
  obtain ⟨parts, values, hparts, hrun, rfl⟩ := exists_run_of_tree? htree
  have hcomments : ∀ piece ∈ parts, piece.isComment = false := by
    intro piece hpiece
    rw [isCommentFree, hparts] at hplain
    exact (Bool.not_eq_true' _).mp (List.all_eq_true.1 hplain piece hpiece)
  have hopeners := openers_read_run
    (fun piece hpiece ↦ shape_of_mem_piecesAfter hparts hpiece) hcomments
    (flatMap_chars_of_pieces hparts) (State.settled_start _) hrun
  rw [Nat.zero_add, State.openKinds, List.reverse_nil, List.flatMap_nil, List.append_nil]
    at hopeners
  rw [Tree.openKinds_eq]
  exact hopeners

end Nesting

theorem unclosed_eq_iff {kind : TreeKind} (hkind : kind.isContainer = true) :
    (kind.unclosed = .closeBraceExpected ↔ kind = .object) ∧
      (kind.unclosed = .closeBracketExpected ↔ kind = .array) := by
  cases kind <;> cases hkind <;> decide

/-- The end that is missing is that of the container that was opened last. -/
theorem unclosedCode_eq {before after : List Char} {tree : Tree}
    (htree : tree? (before ++ after) = some tree)
    (hplain : isCommentFree (before ++ after) = true) :
    unclosedCode before = (tree.openAt (byteLength before)).getLast?.map (·.kind.unclosed) := by
  have hkind : ∀ kind : TreeKind, (if kind.opener = '\x7b' then ErrorCode.closeBraceExpected
      else .closeBracketExpected) = kind.unclosed := by
    intro kind
    cases kind <;> rfl
  rw [unclosedCode, Nesting.openers_read htree hplain, Tree.openKinds, ← List.map_reverse,
    List.head?_map, List.head?_map, List.head?_reverse, Option.map_map, Option.map_map]
  exact congrArg (Option.map · _) (funext fun part ↦ hkind part.kind)

theorem unclosedCode_eq_some_iff {before after : List Char} {tree : Tree}
    (htree : tree? (before ++ after) = some tree)
    (hplain : isCommentFree (before ++ after) = true) {code : ErrorCode} :
    unclosedCode before = some code ↔
      ∃ part, tree.IsInnermost (byteLength before) part ∧ part.kind.unclosed = code := by
  have hnested : tree.Nested := fun part hpart ↦ ((regular_of_tree? htree).2 part hpart).holds
  rw [unclosedCode_eq htree hplain, Option.map_eq_some_iff]
  simp only [hnested.isInnermost_iff]

/-- The end that is found missing where a text without comments breaks off is that of the innermost
container which is open there: a brace for an object, a bracket for an array, and none when no
container is open. -/
theorem unclosedCode_names_innermost {before after : List Char} {tree : Tree}
    (htree : tree? (before ++ after) = some tree)
    (hplain : isCommentFree (before ++ after) = true) :
    (unclosedCode before = some .closeBraceExpected ↔
      ∃ part, tree.IsInnermost (byteLength before) part ∧ part.kind = .object) ∧
    (unclosedCode before = some .closeBracketExpected ↔
      ∃ part, tree.IsInnermost (byteLength before) part ∧ part.kind = .array) ∧
    (unclosedCode before = none ↔
      ∀ part ∈ tree.preorder, part.isOpenAt (byteLength before) = false) := by
  have hcode : ∀ part, tree.IsInnermost (byteLength before) part →
      (part.kind.unclosed = .closeBraceExpected ↔ part.kind = .object) ∧
        (part.kind.unclosed = .closeBracketExpected ↔ part.kind = .array) :=
    fun part hinnermost ↦
      unclosed_eq_iff (Tree.isOpenAt_iff.1 (List.mem_filter.1 hinnermost.mem).2).1
  refine ⟨?_, ?_, ?_⟩
  · rw [unclosedCode_eq_some_iff htree hplain]
    exact exists_congr fun part ↦ and_congr_right fun hinnermost ↦ (hcode part hinnermost).1
  · rw [unclosedCode_eq_some_iff htree hplain]
    exact exists_congr fun part ↦ and_congr_right fun hinnermost ↦ (hcode part hinnermost).2
  · rw [unclosedCode_eq htree hplain, Option.map_eq_none_iff, List.getLast?_eq_none_iff,
      Tree.openAt, List.filter_eq_nil_iff]
    simp only [Bool.not_eq_true]

/-- The beginning of an object in an array, up to the backslash before an escaped quote. There is a
closing bracket in the name that breaks off. -/
def escapedName : List Char :=
  ['[', '\x7b', '"', 'a', ']', '\\']

def escapedNameRest : List Char :=
  ['"', '"', ':', '1', '\x7d', ']']

/-- The name breaks off in the object. -/
theorem unclosedCode_names_innermost_name :
    unclosedCode escapedName = some .closeBraceExpected ∧ ∃ tree,
      tree? (escapedName ++ escapedNameRest) = some tree ∧
      ∃ part, tree.IsInnermost 6 part ∧ part.kind = .object := by
  have hcode : unclosedCode escapedName = some .closeBraceExpected := rfl
  have htree : tree? (escapedName ++ escapedNameRest) = some (.node .document 0 12 false
      [.node .array 0 12 false [.node .object 1 11 false [.node .pair 2 10 false
        [.node .string 2 8 false [], .node .number 9 10 false []]]]]) := by
    rfl
  exact ⟨hcode, _, htree, (unclosedCode_names_innermost htree rfl).1.1 hcode⟩

end LinkedJson
