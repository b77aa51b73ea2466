import LinkedJson.Address.Percent

/-!
# Reading percent encoding back

Bytes that are all written as percent signs with two digits are read back as they are, whatever the
case of the digits and whatever follows them. A text that is written in this way is therefore read
back from the bytes of its UTF-8 form.
-/

namespace LinkedJson.Percent

/-- How bytes are written if each of them is escaped. The digits may be of either case. -/
inductive Escapes : List UInt8 → List Char → Prop where
  | nil : Escapes [] []
  | cons {a b : Char} {high low : Nat} {bytes : List UInt8} {text : List Char}
    (hhigh : Text.hexValue a = some high) (hlow : Text.hexValue b = some low)
    (hrest : Escapes bytes text) :
    Escapes (UInt8.ofNat (high * 16 + low) :: bytes) ('%' :: a :: b :: text)

/-- A character of an escape: a percent sign or a digit. -/
def IsEscapeChar (c : Char) : Prop :=
  c = '%' ∨ (Text.hexValue c).isSome = true

theorem escapes_encodeByte (byte : UInt8) {bytes : List UInt8} {text : List Char}
    (hrest : Escapes bytes text) : Escapes (byte :: bytes) (encodeByte byte ++ text) := by
  have hlt := byte.toNat_lt
  have hhigh := Text.hexValue_hexDigit (byte.toNat / 16) (by omega)
  have hlow := Text.hexValue_hexDigit (byte.toNat % 16) (by omega)
  have hbyte : UInt8.ofNat (byte.toNat / 16 * 16 + byte.toNat % 16) = byte := by
    rw [Nat.div_add_mod', UInt8.ofNat_toNat]
  have hescapes := Escapes.cons hhigh hlow hrest
  rw [hbyte] at hescapes
  exact hescapes

/-- The encoding of all bytes is one way to escape them. -/
theorem escapes_flatMap_encodeByte (bytes : List UInt8) :
    Escapes bytes (bytes.flatMap encodeByte) := by
  induction bytes with
  | nil => exact .nil
  | cons byte bytes ih =>
    rw [List.flatMap_cons]
    exact escapes_encodeByte byte ih

theorem decode_escape {a b : Char} {high low : Nat} (hhigh : Text.hexValue a = some high)
    (hlow : Text.hexValue b = some low) (rest : List Char) :
    decode ('%' :: a :: b :: rest) = UInt8.ofNat (high * 16 + low) :: decode rest := by
  rw [decode, hhigh, hlow]

/-- Escaped bytes are read back as they are. -/
theorem Escapes.decode_append {bytes : List UInt8} {text : List Char}
    (hescapes : Escapes bytes text) (rest : List Char) :
    decode (text ++ rest) = bytes ++ decode rest := by
  induction hescapes with
  | nil => rfl
  | cons hhigh hlow hrest ih =>
    rw [List.cons_append, List.cons_append, List.cons_append, decode_escape hhigh hlow, ih]
    rfl

theorem fromUTF8?_toUTF8 (text : String) :
    String.fromUTF8? text.toUTF8.data.toList.toByteArray = some text := by
  have hbytes : text.toUTF8.data.toList.toByteArray = text.toByteArray :=
    ByteArray.ext (List.data_toByteArray.trans text.toUTF8.data.toArray_toList)
  rw [hbytes, String.fromUTF8?, dif_pos text.isValidUTF8]
  rfl

/-- A text whose bytes are all escaped is read back. -/
theorem Escapes.decodeText?_eq {text : String} {escaped : List Char}
    (hescapes : Escapes text.toUTF8.data.toList escaped) : decodeText? escaped = some text := by
  have hdecode := hescapes.decode_append []
  rw [List.append_nil, decode, List.append_nil] at hdecode
  rw [decodeText?, hdecode, fromUTF8?_toUTF8]

theorem Escapes.isEscapeChar {bytes : List UInt8} {text : List Char}
    (hescapes : Escapes bytes text) : ∀ c ∈ text, IsEscapeChar c := by
  induction hescapes with
  | nil => simp
  | cons hhigh hlow hrest ih =>
    rw [List.forall_mem_cons, List.forall_mem_cons, List.forall_mem_cons]
    exact ⟨.inl rfl, .inr (by rw [hhigh]; rfl), .inr (by rw [hlow]; rfl), ih⟩

theorem IsEscapeChar.bounds {c : Char} (hescape : IsEscapeChar c) :
    c = '%' ∨ 48 ≤ c.toNat ∧ c.toNat ≤ 57 ∨ 65 ≤ c.toNat ∧ c.toNat ≤ 70 ∨
      97 ≤ c.toNat ∧ c.toNat ≤ 102 := by
  rcases hescape with hpercent | hdigit
  · exact .inl hpercent
  · unfold Text.hexValue at hdigit
    split at hdigit
    · next h => exact .inr (.inl h)
    · split at hdigit
      · next h => exact .inr (.inr (.inr h))
      · split at hdigit
        · next h => exact .inr (.inr (.inl h))
        · cases hdigit

end LinkedJson.Percent
