import LinkedJson.Literal
import LinkedJson.Proofs.Writing.Form

/-!
# Decoding a written string

Each character of a written string is read as one step of the decoder, whichever way it is spelled,
so the decoder gives back the string. A code unit of a character is never half of a surrogate pair,
and the two halves of a pair determine the character.
-/

namespace LinkedJson.Writing

open Text Literal

theorem hexValue_of_isHex {c : Char} {value : Nat} (hhex : IsHex c value) :
    hexValue c = some value := by
  have hlower : ∀ value < 16, hexValue (hexDigit value).toLower = some value := by decide
  obtain ⟨hlt, rfl | rfl⟩ := hhex
  · exact hexValue_hexDigit value hlt
  · exact hlower value hlt

theorem codeUnit_of_isUnit {a b c d : Char} {unit : Nat} (hunit : IsUnit a b c d unit) :
    codeUnit a b c d = some unit := by
  obtain ⟨first, second, third, fourth, ha, hb, hc, hd, rfl⟩ := hunit
  have hsum : (first * 16 + second) * 256 + (third * 16 + fourth) =
      first * 4096 + second * 256 + third * 16 + fourth := by omega
  simp only [codeUnit, hexValue_of_isHex ha, hexValue_of_isHex hb, hexValue_of_isHex hc,
    hexValue_of_isHex hd, Option.bind_eq_bind, Option.bind_some, hsum, Option.pure_def]

theorem toNat_valid (c : Char) : c.toNat < 0xD800 ∨ 0xDFFF < c.toNat ∧ c.toNat < 0x110000 :=
  c.valid

theorem pairedChar_halves {c : Char} (hastral : 0x10000 ≤ c.toNat) :
    pairedChar (0xD800 + (c.toNat - 0x10000) / 0x400) (0xDC00 + (c.toNat - 0x10000) % 0x400) =
      c := by
  have hsum : 0x10000 + (0xD800 + (c.toNat - 0x10000) / 0x400 - 0xD800) * 0x400 +
      (0xDC00 + (c.toNat - 0x10000) % 0x400 - 0xDC00) = c.toNat := by omega
  rw [pairedChar, hsum, Char.ofNat_toNat]

/-! ## One character -/

/-- Reading on behind a character that has been decoded. -/
def decodedBefore (c : Char) (rest : List Char) : Option (List Char × List Char) :=
  (decodeBody rest).map fun (value, rest) ↦ (c :: value, rest)

theorem decodeBody_raw {c : Char} (hquote : c ≠ '"') (hbackslash : c ≠ '\\')
    (hprintable : 0x20 ≤ c.toNat) (rest : List Char) :
    decodeBody (c :: rest) = decodedBefore c rest := by
  have hfits : ¬ (c = '\\' ∨ c.toNat < 0x20) := by
    rintro (hc | hc)
    · exact hbackslash hc
    · omega
  rw [decodeBody, if_neg hfits]
  · rfl
  all_goals grind

theorem decodeBody_short {letter c : Char} (hescape : (letter, c) ∈ shortEscapes)
    (rest : List Char) : decodeBody ('\\' :: letter :: rest) = decodedBefore c rest := by
  simp only [shortEscapes, List.mem_cons, Prod.mk.injEq, List.not_mem_nil, or_false] at hescape
  obtain ⟨rfl, rfl⟩ | ⟨rfl, rfl⟩ | ⟨rfl, rfl⟩ | ⟨rfl, rfl⟩ | ⟨rfl, rfl⟩ | ⟨rfl, rfl⟩ | ⟨rfl, rfl⟩ |
    ⟨rfl, rfl⟩ := hescape
  all_goals
    rw [decodeBody]
    · rfl
    all_goals grind

theorem decodeBody_unit {a b c d char : Char} (hunit : IsUnit a b c d char.toNat)
    (rest : List Char) :
    decodeBody ('\\' :: 'u' :: a :: b :: c :: d :: rest) = decodedBefore char rest := by
  have hhigh : isHighSurrogate char.toNat = false := by
    have := toNat_valid char
    simp only [isHighSurrogate, Bool.and_eq_false_iff, decide_eq_false_iff_not]
    omega
  have hlow : isLowSurrogate char.toNat = false := by
    have := toNat_valid char
    simp only [isLowSurrogate, Bool.and_eq_false_iff, decide_eq_false_iff_not]
    omega
  rw [decodeBody, codeUnit_of_isUnit hunit]
  simp only [hhigh, hlow, Bool.false_eq_true, if_false, Char.ofNat_toNat]
  rfl

theorem decodeBody_pair {a b c d e f g h char : Char} (hastral : 0x10000 ≤ char.toNat)
    (hhigh : IsUnit a b c d (0xD800 + (char.toNat - 0x10000) / 0x400))
    (hlow : IsUnit e f g h (0xDC00 + (char.toNat - 0x10000) % 0x400)) (rest : List Char) :
    decodeBody ('\\' :: 'u' :: a :: b :: c :: d :: '\\' :: 'u' :: e :: f :: g :: h :: rest) =
      decodedBefore char rest := by
  have hfirst : isHighSurrogate (0xD800 + (char.toNat - 0x10000) / 0x400) = true := by
    have := toNat_valid char
    simp only [isHighSurrogate, Bool.and_eq_true, decide_eq_true_eq]
    omega
  have hsecond : isLowSurrogate (0xDC00 + (char.toNat - 0x10000) % 0x400) = true := by
    simp only [isLowSurrogate, Bool.and_eq_true, decide_eq_true_eq]
    omega
  rw [decodeBody, codeUnit_of_isUnit hhigh]
  simp only [hfirst, if_true, codeUnit_of_isUnit hlow, hsecond, pairedChar_halves hastral]
  rfl

theorem decodeBody_spells {c : Char} {source : List Char} (hspells : Spells c source)
    (rest : List Char) : decodeBody (source ++ rest) = decodedBefore c rest := by
  cases hspells with
  | raw hquote hbackslash hprintable => exact decodeBody_raw hquote hbackslash hprintable rest
  | short hescape => exact decodeBody_short hescape rest
  | unit hunit => exact decodeBody_unit hunit rest
  | pair hastral hhigh hlow => exact decodeBody_pair hastral hhigh hlow rest

/-! ## Whole strings -/

theorem decodeBody_quoted (quoted : Quoted) :
    decodeBody (quoted.body ++ ['"']) = some (quoted.map Letter.char, []) := by
  induction quoted with
  | nil => rfl
  | cons letter rest ih =>
    change decodeBody (letter.source ++ Quoted.body rest ++ ['"']) = _
    rw [List.append_assoc, decodeBody_spells letter.spells, decodedBefore, ih]
    rfl

/-- A written string is decoded to the string that it stands for. -/
theorem value_quoted (quoted : Quoted) : Literal.value quoted.chars = quoted.value := by
  have hdecode : decode? quoted.chars = some (quoted.map Letter.char) := by
    have hquote : quoted.chars.dropWhile isLayout = '"' :: (quoted.body ++ ['"']) := rfl
    simp only [decode?, hquote, decodeBody_quoted]
    rfl
  rw [Literal.value, hdecode]
  rfl

end LinkedJson.Writing
