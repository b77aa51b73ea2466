import LinkedJson.Grammar.Lexeme
import Mathlib.Data.List.TakeWhile
import Mathlib.Tactic.SplitIfs

/-!
# The pieces of a text

Seen from the brackets and the quotes in it, a piece of a text is one of four things: a bracket, a
string literal, a comment, or a stretch with neither brackets nor quotes. Inside a literal a quote
stands only behind a backslash that escapes it.
-/

namespace LinkedJson.Grammar

/-! ## Literals -/

/-- What may stand between the quotes of a string literal. -/
inductive IsBody : List Char → Prop where
  | nil : IsBody []
  | plain {c : Char} {rest : List Char} (hquote : c ≠ '"') (hbackslash : c ≠ '\\')
    (hfeed : c ≠ '\n') (hrest : IsBody rest) : IsBody (c :: rest)
  | escape {c : Char} {rest : List Char} (hescape : isEscape c = true) (hrest : IsBody rest) :
    IsBody ('\\' :: c :: rest)

/-- The string literal with a text between its quotes. -/
def literal (body : List Char) : List Char :=
  '"' :: (body ++ ['"'])

theorem stringLength_eq_some {text : List Char} {count : Nat}
    (hlength : stringLength text = some count) :
    ∃ body, IsBody body ∧ text.take count = body ++ ['"'] := by
  fun_induction stringLength text generalizing count with
  | case1 => cases hlength
  | case2 rest =>
    cases hlength
    exact ⟨[], .nil, rfl⟩
  | case3 c rest hescape ih =>
    obtain ⟨more, hmore, rfl⟩ := Option.map_eq_some_iff.1 hlength
    obtain ⟨body, hbody, htake⟩ := ih hmore
    refine ⟨'\\' :: c :: body, hbody.escape hescape, ?_⟩
    rw [List.take_succ_cons, List.take_succ_cons, htake]
    rfl
  | case4 => cases hlength
  | case5 => cases hlength
  | case6 c rest hquote hescape hfits ih =>
    obtain ⟨more, hmore, rfl⟩ := Option.map_eq_some_iff.1 hlength
    obtain ⟨body, hbody, htake⟩ := ih hmore
    refine ⟨c :: body, ?_, ?_⟩
    · exact hbody.plain hquote (fun hc ↦ hfits (.inr hc)) fun hc ↦ hfits (.inl hc)
    · rw [List.take_succ_cons, htake]
      rfl

/-! ## Shapes of pieces -/

/-- The character of a token that opens or closes a container. -/
def Token.bracket? : Token → Option Char
  | openBrace => some '\x7b'
  | closeBrace => some '\x7d'
  | openBracket => some '['
  | closeBracket => some ']'
  | _ => none

/-- A character that is neither a bracket nor a quote. -/
def IsFlat (c : Char) : Prop :=
  c ∉ ['"', '\x7b', '\x7d', '[', ']']

instance (c : Char) : Decidable (IsFlat c) :=
  inferInstanceAs (Decidable (c ∉ ['"', '\x7b', '\x7d', '[', ']']))

/-- What a piece is, as far as brackets and quotes are concerned. -/
inductive Piece.Shape : Piece → Prop where
  | bracket {token : Token} {c : Char} (hbracket : token.bracket? = some c) :
    Shape ⟨some token, [c]⟩
  | literal {body : List Char} (hbody : IsBody body) : Shape ⟨some .string, literal body⟩
  | comment (chars : List Char) : Shape ⟨none, '/' :: chars⟩
  | flat {token? : Option Token} {c : Char} {chars : List Char} (hstring : token? ≠ some .string)
    (hbracket : token?.bind Token.bracket? = none) (hflat : ∀ d ∈ c :: chars, IsFlat d) :
    Shape ⟨token?, c :: chars⟩

/-- Whether a piece is a comment. -/
def Piece.isComment (piece : Piece) : Bool :=
  piece.token?.isNone && piece.chars.head? == some '/'

/-- Whether no piece of a text is a comment. -/
def isCommentFree (text : List Char) : Bool :=
  (pieces text).all (·.all (!·.isComment))

theorem isFlat_of_isDigit {c : Char} (hdigit : c.isDigit = true) : IsFlat c := by
  intro hmem
  simp only [List.mem_cons, List.not_mem_nil, or_false] at hmem
  rcases hmem with rfl | rfl | rfl | rfl | rfl <;> cases hdigit

theorem isFlat_of_isSpacing {c : Char} (hspacing : isSpacing c = true) : IsFlat c := by
  intro hmem
  simp only [List.mem_cons, List.not_mem_nil, or_false] at hmem
  rcases hmem with rfl | rfl | rfl | rfl | rfl <;> cases hspacing

theorem isFlat_of_mem_take_digitCount (text : List Char) :
    ∀ c ∈ text.take (digitCount text), IsFlat c := by
  intro c hc
  rw [digitCount, ← List.prefix_iff_eq_take.1 (List.takeWhile_prefix _)] at hc
  exact isFlat_of_isDigit (List.mem_takeWhile_imp hc)

theorem isFlat_of_mem_take_fractionLength (text : List Char) :
    ∀ c ∈ text.take (fractionLength text), IsFlat c := by
  unfold fractionLength
  split
  · rw [Nat.add_comm, List.take_succ_cons, List.forall_mem_cons]
    exact ⟨by decide, isFlat_of_mem_take_digitCount _⟩
  · simp

theorem isFlat_of_mem_take_exponentLength (text : List Char) :
    ∀ c ∈ text.take (exponentLength text), IsFlat c := by
  have hmark : ∀ {c : Char}, c = 'e' ∨ c = 'E' → IsFlat c := by
    rintro c (rfl | rfl) <;> decide
  unfold exponentLength
  split
  · split_ifs with hexponent
    · rw [Nat.add_comm, List.take_succ_cons, List.take_succ_cons, List.forall_mem_cons,
        List.forall_mem_cons]
      exact ⟨hmark hexponent.1, by decide, isFlat_of_mem_take_digitCount _⟩
    · simp
  · split_ifs with hexponent
    · rw [Nat.add_comm, List.take_succ_cons, List.forall_mem_cons]
      exact ⟨hmark hexponent.1, isFlat_of_mem_take_digitCount _⟩
    · simp
  · simp

theorem isFlat_of_mem_take_numberLength (digit : Char) (text : List Char) :
    ∀ c ∈ text.take (numberLength digit text), IsFlat c := by
  unfold numberLength
  dsimp only
  rw [List.take_add, List.take_add, List.forall_mem_append, List.forall_mem_append]
  refine ⟨⟨?_, isFlat_of_mem_take_fractionLength _⟩, isFlat_of_mem_take_exponentLength _⟩
  split
  · simp
  · exact isFlat_of_mem_take_digitCount text

theorem shape_of_word {token : Token} {c : Char} {word rest : List Char}
    (hstring : some token ≠ some .string) (hbracket : token.bracket? = none)
    (hflat : (c :: word).all (decide <| IsFlat ·) = true) (hword : word.isPrefixOf rest = true) :
    Piece.Shape ⟨some token, c :: rest.take word.length⟩ := by
  obtain ⟨behind, rfl⟩ := List.isPrefixOf_iff_prefix.1 hword
  rw [List.take_left]
  exact .flat hstring hbracket fun d hd ↦ of_decide_eq_true (List.all_eq_true.1 hflat d hd)

/-- What starts with a character is a piece of one of the shapes. -/
theorem shape_of_pieceStart {c : Char} {rest : List Char} {token? : Option Token} {more : Nat}
    (hstart : pieceStart c rest = some (token?, more)) :
    Piece.Shape ⟨token?, c :: rest.take more⟩ := by
  unfold pieceStart at hstart
  split at hstart
  · cases hstart
    exact .bracket rfl
  · cases hstart
    exact .bracket rfl
  · cases hstart
    exact .bracket rfl
  · cases hstart
    exact .bracket rfl
  · cases hstart
    exact .flat (by decide) rfl (List.forall_mem_singleton.2 (by decide))
  · cases hstart
    exact .flat (by decide) rfl (List.forall_mem_singleton.2 (by decide))
  · obtain ⟨count, hcount, hfound⟩ := Option.map_eq_some_iff.1 hstart
    cases hfound
    obtain ⟨body, hbody, htake⟩ := stringLength_eq_some hcount
    rw [htake]
    exact .literal hbody
  · obtain ⟨count, hcount, hfound⟩ := Option.map_eq_some_iff.1 hstart
    cases hfound
    exact .comment _
  · split_ifs at hstart with hword
    cases hstart
    exact shape_of_word (by decide) rfl rfl hword
  · split_ifs at hstart with hword
    cases hstart
    exact shape_of_word (by decide) rfl rfl hword
  · split_ifs at hstart with hword
    cases hstart
    exact shape_of_word (by decide) rfl rfl hword
  · split at hstart
    · next digit behind =>
      split_ifs at hstart with hdigit
      cases hstart
      rw [Nat.add_comm, List.take_succ_cons]
      refine .flat (by decide) rfl ?_
      refine List.forall_mem_cons.2 ⟨by decide, List.forall_mem_cons.2 ⟨?_, ?_⟩⟩
      · exact isFlat_of_isDigit hdigit
      · exact isFlat_of_mem_take_numberLength digit behind
    · cases hstart
  · split_ifs at hstart with hdigit hspacing
    · cases hstart
      refine .flat (by decide) rfl (List.forall_mem_cons.2 ⟨isFlat_of_isDigit hdigit, ?_⟩)
      exact isFlat_of_mem_take_numberLength c rest
    · cases hstart
      exact .flat (by decide) rfl (List.forall_mem_singleton.2 (isFlat_of_isSpacing hspacing))

theorem shape_of_mem_piecesAfter {taken : Nat} {text : List Char} {parts : List Piece}
    (hparts : piecesAfter taken text = some parts) {piece : Piece} (hpiece : piece ∈ parts) :
    piece.Shape := by
  induction text generalizing taken parts with
  | nil =>
    cases hparts
    cases hpiece
  | cons c rest ih =>
    cases taken with
    | succ taken => exact ih hparts hpiece
    | zero =>
      rw [piecesAfter] at hparts
      cases hstart : pieceStart c rest with
      | none =>
        rw [hstart] at hparts
        cases hparts
      | some found =>
        rw [hstart] at hparts
        obtain ⟨others, hothers, rfl⟩ := Option.map_eq_some_iff.1 hparts
        rcases List.mem_cons.1 hpiece with rfl | hrest
        · exact shape_of_pieceStart hstart
        · exact ih hothers hrest

theorem Piece.Shape.byteLength_pos {piece : Piece} (hshape : piece.Shape) :
    0 < Text.byteLength piece.chars := by
  cases hshape with
  | bracket | literal | comment | flat => exact Nat.add_pos_left (Char.utf8Size_pos _) _

theorem Piece.Shape.exists_body {piece : Piece} (hshape : piece.Shape)
    (htoken : piece.token? = some .string) :
    ∃ body, IsBody body ∧ piece.chars = Grammar.literal body := by
  cases hshape with
  | bracket hbracket =>
    cases htoken
    cases hbracket
  | literal hbody => exact ⟨_, hbody, rfl⟩
  | comment => cases htoken
  | flat hstring => exact absurd htoken hstring

/-- The beginning of a text has all of the first piece or breaks off in it. -/
theorem whole_or_part {chars behind part rest : List Char}
    (happend : chars ++ behind = part ++ rest) :
    (∃ more, part = chars ++ more ∧ behind = more ++ rest) ∨ part <+: chars ∧ part ≠ chars := by
  rcases List.append_eq_append_iff.1 happend with hlong | ⟨more, hchars, hrest⟩
  · exact .inl hlong
  · cases more with
    | nil =>
      rw [List.append_nil] at hchars
      exact .inl ⟨[], by rw [hchars, List.append_nil], hrest.symm⟩
    | cons c more =>
      refine .inr ⟨⟨c :: more, hchars.symm⟩, fun hpart ↦ ?_⟩
      have hlength := congrArg List.length (hpart.trans hchars)
      rw [List.length_append, List.length_cons] at hlength
      omega

/-- A bracket is not broken off in its midst. -/
theorem Piece.Shape.eq_nil_of_bracket? {piece : Piece} (hshape : piece.Shape) {token : Token}
    (htoken : piece.token? = some token) (hbracket : token.bracket? ≠ none) {part : List Char}
    (hpart : part <+: piece.chars) (hproper : part ≠ piece.chars) : part = [] := by
  cases hshape with
  | bracket =>
    rcases List.prefix_cons_iff.1 hpart with hnil | ⟨behind, rfl, hbehind⟩
    · exact hnil
    · rw [List.prefix_nil.1 hbehind] at hproper
      exact absurd rfl hproper
  | literal =>
    cases htoken
    exact absurd rfl hbracket
  | comment => cases htoken
  | flat hstring hnone =>
    cases htoken
    exact absurd hnone hbracket

end LinkedJson.Grammar
