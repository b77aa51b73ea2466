import LinkedJson.Grammar.Lexeme
import LinkedJson.Proofs.Writing.Form

/-!
# The pieces of a written value

A text that was written as a form falls apart into the pieces that it was put together from. This is
shown for each kind of piece with an arbitrary text behind it, and for a number with one that cannot
continue it. Every form then comes apart by itself: what stands behind a value in a form is a blank,
a comment, a comma or a closing bracket, and none of these continues a number.
-/

namespace LinkedJson.Writing

open Text Grammar

/-- A text begins with certain pieces if splitting it gives these pieces and then those of the rest.
-/
def Splits (text : List Char) (pieces : List Piece) (rest : List Char) : Prop :=
  piecesAfter 0 (text ++ rest) = (piecesAfter 0 rest).map (pieces ++ ·)

theorem Splits.nil (rest : List Char) : Splits [] [] rest := by
  change piecesAfter 0 rest = _
  cases piecesAfter 0 rest <;> rfl

theorem Splits.append {first second rest : List Char} {before after : List Piece}
    (hfirst : Splits first before (second ++ rest)) (hsecond : Splits second after rest) :
    Splits (first ++ second) (before ++ after) rest := by
  unfold Splits at *
  rw [List.append_assoc, hfirst, hsecond, Option.map_map]
  congr 1
  funext pieces
  exact (List.append_assoc before after pieces).symm

theorem piecesAfter_append (taken : List Char) (rest : List Char) :
    piecesAfter taken.length (taken ++ rest) = piecesAfter 0 rest := by
  induction taken with
  | nil => rfl
  | cons c taken ih => exact ih

/-- A piece is split off where a character begins it. -/
theorem Splits.piece {c : Char} {more rest : List Char} {token? : Option Token}
    (hstart : pieceStart c (more ++ rest) = some (token?, more.length)) :
    Splits (c :: more) [⟨token?, c :: more⟩] rest := by
  unfold Splits
  rw [List.cons_append, piecesAfter, hstart]
  simp only [piecesAfter_append, List.take_left]
  rfl

/-- A token of one character is split off whatever follows it. -/
theorem Splits.single (c : Char) (token : Token)
    (hstart : ∀ rest, pieceStart c rest = some (some token, 0)) (rest : List Char) :
    Splits [c] [⟨some token, [c]⟩] rest :=
  Splits.piece (hstart rest)

/-! ## Blanks and comments -/

theorem char_of_spacing {c : Char} (hspacing : 9 ≤ c.toNat ∧ c.toNat ≤ 13 ∨ c.toNat = 32) :
    c ∈ ['\t', '\n', '\x0b', '\x0c', '\r', ' '] := by
  have hchar : c = Char.ofNat c.toNat := (Char.ofNat_toNat c).symm
  have hcode : c.toNat = 9 ∨ c.toNat = 10 ∨ c.toNat = 11 ∨ c.toNat = 12 ∨ c.toNat = 13 ∨
      c.toNat = 32 := by omega
  rcases hcode with h | h | h | h | h | h <;> rw [hchar, h] <;> decide

theorem splits_blank {c : Char} (hspacing : 9 ≤ c.toNat ∧ c.toNat ≤ 13 ∨ c.toNat = 32)
    (rest : List Char) : Splits [c] [⟨none, [c]⟩] rest := by
  apply Splits.piece
  have hchar := char_of_spacing hspacing
  simp only [List.mem_cons, List.not_mem_nil, or_false] at hchar
  rcases hchar with rfl | rfl | rfl | rfl | rfl | rfl <;> rfl

theorem takeWhile_append_eq {body rest : List Char} {holds : Char → Bool}
    (hbody : ∀ c ∈ body, holds c = true) (hrest : ∀ c, rest.head? = some c → holds c = false) :
    (body ++ rest).takeWhile holds = body := by
  rw [List.takeWhile_append_of_pos hbody]
  cases rest with
  | nil => simp
  | cons c rest => simp [hrest c rfl]

/-- A comment up to the end of its line or of the text. -/
theorem splits_lineComment {body rest : List Char} (hbody : '\n' ∉ body)
    (hrest : ∀ c, rest.head? = some c → c = '\n') :
    Splits ('/' :: '/' :: body) [⟨none, '/' :: '/' :: body⟩] rest := by
  apply Splits.piece
  have hline : (body ++ rest).takeWhile (· != '\n') = body := by
    apply takeWhile_append_eq
    · intro c hmem
      have hne : c ≠ '\n' := fun heq ↦ hbody (heq ▸ hmem)
      simpa using hne
    · intro c hhead
      simp [hrest c hhead]
  change (commentLength ('/' :: (body ++ rest))).map (none, ·) = _
  rw [commentLength, hline]
  simp [Nat.add_comm]

theorem blockLength_append {body rest : List Char} (hbody : ¬ ['*', '/'] <:+: body) :
    blockLength (body ++ ['*', '/'] ++ rest) = some (body.length + 2) := by
  induction body with
  | nil => rfl
  | cons c body ih =>
    have hrest : ¬ ['*', '/'] <:+: body := fun hinside ↦
      hbody (hinside.trans (List.infix_cons List.infix_rfl))
    have hlater := ih hrest
    rw [List.cons_append, List.cons_append, blockLength, hlater]
    · rfl
    · -- The comment does not end here, since its body would hold the end.
      intro tail hstar hslash
      cases body with
      | nil => simp at hslash
      | cons d body =>
        obtain ⟨hsecond, -⟩ := List.cons.inj hslash
        rw [hstar, hsecond] at hbody
        exact hbody (List.IsPrefix.isInfix ⟨body, rfl⟩)

theorem splits_blockComment {body : List Char} (hbody : ¬ ['*', '/'] <:+: body)
    (rest : List Char) :
    Splits ('/' :: '*' :: (body ++ ['*', '/'])) [⟨none, '/' :: '*' :: (body ++ ['*', '/'])⟩]
      rest := by
  apply Splits.piece
  change (commentLength ('*' :: (body ++ ['*', '/'] ++ rest))).map (none, ·) = _
  rw [commentLength, blockLength_append hbody]
  simp

/-- The pieces of a blank or a comment. The line feed behind a comment is a piece of its own. -/
def Filler.pieces : Filler → List Piece
  | .blank c _ => [⟨none, [c]⟩]
  | .line body _ => [⟨none, '/' :: '/' :: body⟩, ⟨none, ['\n']⟩]
  | .block body _ => [⟨none, '/' :: '*' :: (body ++ ['*', '/'])⟩]

def Gap.pieces (gap : Gap) : List Piece :=
  gap.flatMap Filler.pieces

theorem splits_filler (filler : Filler) (rest : List Char) :
    Splits filler.chars filler.pieces rest := by
  cases filler with
  | blank c spacing => exact splits_blank spacing rest
  | line body inside =>
    have hcomment : Splits ('/' :: '/' :: body) [⟨none, '/' :: '/' :: body⟩] (['\n'] ++ rest) :=
      splits_lineComment inside fun c hhead ↦ (Option.some.inj hhead).symm
    exact hcomment.append (splits_blank (by decide) rest)
  | block body inside => exact splits_blockComment inside rest

theorem splits_gap (gap : Gap) (rest : List Char) : Splits gap.chars gap.pieces rest := by
  induction gap with
  | nil => exact Splits.nil rest
  | cons filler gap ih => exact (splits_filler filler (Gap.chars gap ++ rest)).append ih

/-! ## Strings -/

theorem stringLength_raw {c : Char} (hquote : c ≠ '"') (hbackslash : c ≠ '\\') (hfeed : c ≠ '\n')
    (rest : List Char) : stringLength (c :: rest) = (stringLength rest).map (· + 1) := by
  rw [stringLength]
  · simp [hbackslash, hfeed]
  · exact hquote
  · exact fun _ _ heq ↦ absurd heq hbackslash

theorem stringLength_escape {letter : Char} (hescape : isEscape letter = true)
    (rest : List Char) :
    stringLength ('\\' :: letter :: rest) = (stringLength rest).map (· + 2) := by
  rw [stringLength, if_pos hescape]

/-- The characters of a hexadecimal digit need no escape. -/
theorem IsHex.raw {c : Char} {value : Nat} (hhex : IsHex c value) :
    c ≠ '"' ∧ c ≠ '\\' ∧ c ≠ '\n' := by
  obtain ⟨hsmall, hdigit⟩ := hhex
  have hupper : ∀ value < 16, hexDigit value ≠ '"' ∧ hexDigit value ≠ '\\' ∧
      hexDigit value ≠ '\n' := by decide
  have hlower : ∀ value < 16, (hexDigit value).toLower ≠ '"' ∧ (hexDigit value).toLower ≠ '\\' ∧
      (hexDigit value).toLower ≠ '\n' := by decide
  rcases hdigit with rfl | rfl
  · exact hupper value hsmall
  · exact hlower value hsmall

theorem stringLength_unit {a b c d : Char} {unit : Nat} (hunit : IsUnit a b c d unit)
    (rest : List Char) :
    stringLength ('\\' :: 'u' :: a :: b :: c :: d :: rest) =
      (stringLength rest).map (· + 6) := by
  obtain ⟨first, second, third, fourth, ha, hb, hc, hd, -⟩ := hunit
  rw [stringLength_escape (by decide), stringLength_raw ha.raw.1 ha.raw.2.1 ha.raw.2.2,
    stringLength_raw hb.raw.1 hb.raw.2.1 hb.raw.2.2,
    stringLength_raw hc.raw.1 hc.raw.2.1 hc.raw.2.2,
    stringLength_raw hd.raw.1 hd.raw.2.1 hd.raw.2.2]
  simp only [Option.map_map]
  rfl

theorem stringLength_spells {char : Char} {source : List Char} (hspells : Spells char source)
    (rest : List Char) :
    stringLength (source ++ rest) = (stringLength rest).map (· + source.length) := by
  cases hspells with
  | raw hquote hbackslash hprintable =>
    have hfeed : char ≠ '\n' := by
      rintro rfl
      exact absurd hprintable (by decide)
    exact stringLength_raw hquote hbackslash hfeed rest
  | @short letter hescape =>
    have hletter : isEscape letter = true := by
      have hall : ∀ escape ∈ shortEscapes, isEscape escape.1 = true := by decide
      exact hall _ hescape
    exact stringLength_escape hletter rest
  | unit hunit => exact stringLength_unit hunit rest
  | pair hastral hhigh hlow =>
    have hfirst := stringLength_unit hhigh
    have hsecond := stringLength_unit hlow
    simp only [List.cons_append, List.nil_append, hfirst, hsecond, Option.map_map]
    rfl

theorem stringLength_body (quoted : Quoted) (rest : List Char) :
    stringLength (quoted.body ++ '"' :: rest) = some (quoted.body.length + 1) := by
  induction quoted with
  | nil => simp [Quoted.body, stringLength]
  | cons letter quoted ih =>
    have hfirst := stringLength_spells letter.spells (Quoted.body quoted ++ '"' :: rest)
    change stringLength (letter.source ++ Quoted.body quoted ++ '"' :: rest) =
      some ((letter.source ++ Quoted.body quoted).length + 1)
    rw [List.append_assoc, hfirst, ih, List.length_append, Option.map_some]
    congr 1
    omega

theorem splits_quoted (quoted : Quoted) (rest : List Char) :
    Splits quoted.chars [⟨some .string, quoted.chars⟩] rest := by
  apply Splits.piece
  change (stringLength (quoted.body ++ ['"'] ++ rest)).map (some Token.string, ·) = _
  rw [List.append_assoc, List.singleton_append, stringLength_body]
  simp

/-! ## Numbers -/

/-- A text that does not continue a number. -/
def Stops (rest : List Char) : Prop :=
  ∀ c, rest.head? = some c → c.isDigit = false ∧ c ≠ '.' ∧ c ≠ 'e' ∧ c ≠ 'E'

theorem digitCount_append {digits rest : List Char} (hdigits : ∀ c ∈ digits, c.isDigit = true)
    (hrest : ∀ c, rest.head? = some c → c.isDigit = false) :
    digitCount (digits ++ rest) = digits.length := by
  rw [digitCount, takeWhile_append_eq hdigits hrest]

theorem exponentLength_of_stops {rest : List Char} (hstops : Stops rest) :
    exponentLength rest = 0 := by
  cases rest with
  | nil => rfl
  | cons c rest =>
    obtain ⟨-, -, hlower, hupper⟩ := hstops c rfl
    unfold exponentLength
    split <;> simp_all

theorem exponentLength_exponent (exponent : Exponent) {rest : List Char} (hstops : Stops rest) :
    exponentLength (exponent.chars ++ rest) = exponent.chars.length := by
  have hcount : digitCount (exponent.digits ++ rest) = exponent.digits.length :=
    digitCount_append exponent.isDigit_digits fun c hhead ↦ (hstops c hhead).1
  have hpositive : exponent.digits.length ≠ 0 := by
    simpa using exponent.digits_ne_nil
  unfold Exponent.chars
  cases exponent.negative with
  | true =>
    simp only [if_true, List.cons_append, List.nil_append, exponentLength, hcount]
    rw [if_pos ⟨exponent.letter_eq, hpositive⟩, List.length_cons, List.length_cons]
    omega
  | false =>
    simp only [Bool.false_eq_true, if_false, List.nil_append, List.cons_append]
    rw [exponentLength, hcount, if_pos ⟨exponent.letter_eq, hpositive⟩, List.length_cons]
    · omega
    · intro tail hminus
      obtain ⟨digit, digits, hdigits⟩ := List.exists_cons_of_ne_nil exponent.digits_ne_nil
      have hdigit := exponent.isDigit_digits digit (by simp [hdigits])
      rw [hdigits] at hminus
      rw [(List.cons.inj hminus).1] at hdigit
      exact absurd hdigit (by decide)

/-- What follows the digits of a number does not start with a digit. -/
theorem stops_exponentChars (numeral : Numeral) {rest : List Char} (hstops : Stops rest) :
    ∀ c, (numeral.exponentChars ++ rest).head? = some c → c.isDigit = false ∧ c ≠ '.' := by
  intro c hhead
  unfold Numeral.exponentChars at hhead
  cases hexponent : numeral.exponent with
  | none =>
    rw [hexponent] at hhead
    exact ⟨(hstops c hhead).1, (hstops c hhead).2.1⟩
  | some exponent =>
    rw [hexponent] at hhead
    have hletter : exponent.letter = c := Option.some.inj hhead
    rcases exponent.letter_eq with heq | heq <;> rw [← hletter, heq] <;> decide

theorem exponentLength_exponentChars (numeral : Numeral) {rest : List Char}
    (hstops : Stops rest) :
    exponentLength (numeral.exponentChars ++ rest) = numeral.exponentChars.length := by
  unfold Numeral.exponentChars
  cases numeral.exponent with
  | none => exact exponentLength_of_stops hstops
  | some exponent => exact exponentLength_exponent exponent hstops

theorem fractionLength_fractionChars (numeral : Numeral) {rest : List Char}
    (hstops : Stops rest) :
    fractionLength (numeral.fractionChars ++ (numeral.exponentChars ++ rest)) =
      numeral.fractionChars.length := by
  have hexponent := stops_exponentChars numeral hstops
  unfold Numeral.fractionChars
  cases hfraction : numeral.fraction with
  | none =>
    change fractionLength (numeral.exponentChars ++ rest) = 0
    generalize numeral.exponentChars ++ rest = later at hexponent
    cases later with
    | nil => rfl
    | cons c later =>
      rw [fractionLength]
      intro tail hpoint
      exact (hexponent c rfl).2 (List.cons.inj hpoint).1
  | some digits =>
    change 1 + digitCount (digits ++ (numeral.exponentChars ++ rest)) = _
    rw [digitCount_append (numeral.isDigit_fraction digits hfraction)
      fun c hhead ↦ (hexponent c hhead).1]
    simp [Nat.add_comm]

theorem head?_fractionChars (numeral : Numeral) {rest : List Char} (hstops : Stops rest) :
    ∀ c, (numeral.fractionChars ++ (numeral.exponentChars ++ rest)).head? = some c →
      c.isDigit = false := by
  intro c hhead
  unfold Numeral.fractionChars at hhead
  cases hfraction : numeral.fraction with
  | none =>
    rw [hfraction] at hhead
    exact (stops_exponentChars numeral hstops c hhead).1
  | some digits =>
    rw [hfraction] at hhead
    have hpoint : '.' = c := Option.some.inj hhead
    rw [← hpoint]
    decide

/-- The length of a number is that of all its parts. -/
theorem numberLength_numeral (numeral : Numeral) {rest : List Char} (hstops : Stops rest) :
    numberLength numeral.first
        (numeral.digits ++ (numeral.fractionChars ++ numeral.exponentChars) ++ rest) =
      (numeral.digits ++ (numeral.fractionChars ++ numeral.exponentChars)).length := by
  have hfraction := fractionLength_fractionChars numeral hstops
  have hexponent := exponentLength_exponentChars numeral hstops
  have hwhole : (if numeral.first = '0' then 0 else digitCount
      (numeral.digits ++ (numeral.fractionChars ++ (numeral.exponentChars ++ rest)))) =
      numeral.digits.length := by
    by_cases hzero : numeral.first = '0'
    · rw [if_pos hzero, numeral.digits_of_zero hzero]
      rfl
    · rw [if_neg hzero]
      exact digitCount_append numeral.isDigit_digits (head?_fractionChars numeral hstops)
  unfold numberLength
  simp only [List.append_assoc, hwhole, List.drop_left, hfraction]
  rw [← List.drop_drop, List.drop_left, List.drop_left, hexponent]
  simp only [List.length_append, Nat.add_assoc]

theorem char_of_isDigit {c : Char} (hdigit : c.isDigit = true) :
    c ∈ ['0', '1', '2', '3', '4', '5', '6', '7', '8', '9'] := by
  have hall : ∀ code < 58, (Char.ofNat code).isDigit = true →
      Char.ofNat code ∈ ['0', '1', '2', '3', '4', '5', '6', '7', '8', '9'] := by decide
  have hsmall : c.toNat < 58 := by
    have hle : c.val ≤ 57 := by
      simp only [Char.isDigit, Bool.and_eq_true, decide_eq_true_eq] at hdigit
      exact hdigit.2
    have hnat := UInt32.le_iff_toNat_le.mp hle
    exact Nat.lt_succ_of_le hnat
  rw [← Char.ofNat_toNat c] at hdigit ⊢
  exact hall c.toNat hsmall hdigit

theorem pieceStart_digit {c : Char} (hdigit : c.isDigit = true) (rest : List Char) :
    pieceStart c rest = some (some .number, numberLength c rest) := by
  have hchar := char_of_isDigit hdigit
  simp only [List.mem_cons, List.not_mem_nil, or_false] at hchar
  rcases hchar with rfl | rfl | rfl | rfl | rfl | rfl | rfl | rfl | rfl | rfl <;> rfl

theorem splits_numeral (numeral : Numeral) {rest : List Char} (hstops : Stops rest) :
    Splits numeral.chars [⟨some .number, numeral.chars⟩] rest := by
  have hlength := numberLength_numeral numeral hstops
  unfold Numeral.chars
  cases numeral.negative with
  | false =>
    apply Splits.piece
    rw [pieceStart_digit numeral.isDigit_first, hlength]
  | true =>
    rw [if_pos rfl, List.singleton_append]
    apply Splits.piece
    simp only [List.cons_append, pieceStart, numeral.isDigit_first, if_true, hlength,
      List.length_cons, Nat.add_comm]

/-! ## Values -/

/-- The piece of the comma before an item. -/
def commaPiece (follows : Bool) : List Piece :=
  if follows then [⟨some .comma, [',']⟩] else []

mutual

/-- The pieces that a value is written with. -/
def Form.pieces : Form → List Piece
  | .object inside members =>
    ⟨some .openBrace, ['\x7b']⟩ :: (inside.pieces ++
      (members.pieces false ++ [⟨some .closeBrace, ['\x7d']⟩]))
  | .array inside elements =>
    ⟨some .openBracket, ['[']⟩ :: (inside.pieces ++
      (elements.pieces false ++ [⟨some .closeBracket, [']']⟩]))
  | .string quoted => [⟨some .string, quoted.chars⟩]
  | .number numeral => [⟨some .number, numeral.chars⟩]
  | .boolean true => [⟨some .trueWord, ['t', 'r', 'u', 'e']⟩]
  | .boolean false => [⟨some .falseWord, ['f', 'a', 'l', 's', 'e']⟩]
  | .null => [⟨some .nullWord, ['n', 'u', 'l', 'l']⟩]

def Members.pieces (follows : Bool) : Members → List Piece
  | .none => []
  | .cons before name beforeColon afterColon value after rest =>
    commaPiece follows ++ (before.pieces ++ (⟨some .string, name.chars⟩ :: (beforeColon.pieces ++
      (⟨some .colon, [':']⟩ :: (afterColon.pieces ++ (value.pieces ++
        (after.pieces ++ rest.pieces true)))))))

def Elements.pieces (follows : Bool) : Elements → List Piece
  | .none => []
  | .cons before value after rest =>
    commaPiece follows ++ (before.pieces ++ (value.pieces ++ (after.pieces ++ rest.pieces true)))

end

theorem splits_comma (follows : Bool) (rest : List Char) :
    Splits (comma follows) (commaPiece follows) rest := by
  cases follows with
  | false => exact Splits.nil rest
  | true => exact Splits.single ',' .comma (fun _ ↦ rfl) rest

theorem stops_of_head {c : Char} (hc : c.isDigit = false ∧ c ≠ '.' ∧ c ≠ 'e' ∧ c ≠ 'E')
    (rest : List Char) : Stops (c :: rest) := by
  intro d hhead
  rw [← Option.some.inj hhead]
  exact hc

/-- Blanks and comments do not continue a number. -/
theorem stops_gap (gap : Gap) {rest : List Char} (hstops : Stops rest) :
    Stops (gap.chars ++ rest) := by
  cases gap with
  | nil => exact hstops
  | cons filler gap =>
    cases filler with
    | blank c spacing =>
      have hchar := char_of_spacing spacing
      have hstop : c.isDigit = false ∧ c ≠ '.' ∧ c ≠ 'e' ∧ c ≠ 'E' := by
        simp only [List.mem_cons, List.not_mem_nil, or_false] at hchar
        rcases hchar with rfl | rfl | rfl | rfl | rfl | rfl <;> decide
      exact stops_of_head hstop _
    | line body inside => exact stops_of_head (by decide) _
    | block body inside => exact stops_of_head (by decide) _

theorem stops_members (members : Members) (rest : List Char) :
    Stops (members.chars true ++ '\x7d' :: rest) := by
  cases members with
  | none => exact stops_of_head (by decide) _
  | cons => exact stops_of_head (by decide) _

theorem stops_elements (elements : Elements) (rest : List Char) :
    Stops (elements.chars true ++ ']' :: rest) := by
  cases elements with
  | none => exact stops_of_head (by decide) _
  | cons => exact stops_of_head (by decide) _

mutual

theorem splits_form : ∀ (form : Form) {rest : List Char}, Stops rest →
    Splits form.chars form.pieces rest
  | .object inside members, rest, _ => by
    have hclose := Splits.single '\x7d' .closeBrace (fun _ ↦ rfl) rest
    have hmembers := (splits_members false members rest).append hclose
    have hinside := (splits_gap inside _).append hmembers
    exact (Splits.single '\x7b' .openBrace (fun _ ↦ rfl) _).append hinside
  | .array inside elements, rest, _ => by
    have hclose := Splits.single ']' .closeBracket (fun _ ↦ rfl) rest
    have helements := (splits_elements false elements rest).append hclose
    have hinside := (splits_gap inside _).append helements
    exact (Splits.single '[' .openBracket (fun _ ↦ rfl) _).append hinside
  | .string quoted, rest, _ => splits_quoted quoted rest
  | .number numeral, _, hstops => splits_numeral numeral hstops
  | .boolean true, _, _ => Splits.piece rfl
  | .boolean false, _, _ => Splits.piece rfl
  | .null, _, _ => Splits.piece rfl

theorem splits_members : ∀ (follows : Bool) (members : Members) (rest : List Char),
    Splits (members.chars follows) (members.pieces follows) ('\x7d' :: rest)
  | _, .none, rest => Splits.nil _
  | follows, .cons before name beforeColon afterColon value after others, rest => by
    have hothers := (splits_gap after _).append (splits_members true others rest)
    have hstops : Stops (after.chars ++ others.chars true ++ '\x7d' :: rest) := by
      rw [List.append_assoc]
      exact stops_gap after (stops_members others rest)
    have hvalue := (splits_form value hstops).append hothers
    have hcolon := (Splits.single ':' .colon (fun _ ↦ rfl) _).append
      ((splits_gap afterColon _).append hvalue)
    have hname := (splits_quoted name _).append ((splits_gap beforeColon _).append hcolon)
    exact (splits_comma follows _).append ((splits_gap before _).append hname)

theorem splits_elements : ∀ (follows : Bool) (elements : Elements) (rest : List Char),
    Splits (elements.chars follows) (elements.pieces follows) (']' :: rest)
  | _, .none, rest => Splits.nil _
  | follows, .cons before value after others, rest => by
    have hothers := (splits_gap after _).append (splits_elements true others rest)
    have hstops : Stops (after.chars ++ others.chars true ++ ']' :: rest) := by
      rw [List.append_assoc]
      exact stops_gap after (stops_elements others rest)
    have hvalue := (splits_form value hstops).append hothers
    exact (splits_comma follows _).append ((splits_gap before _).append hvalue)

end

/-- The piece of the comment at the end of a document. -/
def Document.commentPieces (document : Document) : List Piece :=
  document.comment.elim [] fun body ↦ [⟨none, '/' :: '/' :: body.1⟩]

def Document.pieces (document : Document) : List Piece :=
  document.before.pieces ++
    (document.form.pieces ++ (document.after.pieces ++ document.commentPieces))

/-- A written document falls apart into its pieces. -/
theorem pieces_document (document : Document) :
    Grammar.pieces document.chars = some document.pieces := by
  have hcomment : Splits document.commentChars document.commentPieces [] := by
    unfold Document.commentChars Document.commentPieces
    cases document.comment with
    | none => exact Splits.nil []
    | some body => exact splits_lineComment body.2 fun c hhead ↦ by cases hhead
  have hstops : Stops (document.after.chars ++ document.commentChars ++ []) := by
    rw [List.append_nil]
    apply stops_gap
    unfold Document.commentChars
    cases document.comment with
    | none => exact fun c hhead ↦ by cases hhead
    | some body => exact stops_of_head (by decide) _
  have hform := (splits_form document.form hstops).append ((splits_gap _ _).append hcomment)
  have hall := (splits_gap document.before _).append hform
  unfold Splits at hall
  rw [List.append_nil] at hall
  exact hall.trans (congrArg some (List.append_nil _))

end LinkedJson.Writing
