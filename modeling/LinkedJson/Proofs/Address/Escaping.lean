import LinkedJson.Proofs.Address.Fragment

/-!
# Fragments with some characters escaped

A pointer can be written in a fragment in many ways, since each of its characters may stand as it is
or be escaped. Joining the fragment to a base escapes what a fragment cannot hold, and decoding then
undoes these escapes together with those that were written. So every way of writing a pointer leads
to that pointer. Only a percent sign, a tab, a line end and a blank at the end cannot stand as they
are: the first would begin an escape, and the others are dropped when the reference is read.
-/

namespace LinkedJson

namespace Percent

/-- How a pointer may be written: each character stands as it is, or the bytes of its UTF-8 form are
escaped. A percent sign, a tab, a line end and a blank at the end of the pointer are escaped. -/
inductive Written : List Char → List Char → Prop where
  | nil : Written [] []
  | raw {c : Char} {pointer text : List Char} (hkept : c ∉ ['%', '\t', '\r', '\n'])
    (hlast : pointer = [] → 0x20 < c.toNat) (hrest : Written pointer text) :
    Written (c :: pointer) (c :: text)
  | escaped {c : Char} {escape pointer text : List Char}
    (hescapes : Escapes (String.utf8EncodeChar c) escape) (hrest : Written pointer text) :
    Written (c :: pointer) (escape ++ text)

theorem decode_cons {c : Char} (hpercent : c ≠ '%') (rest : List Char) :
    decode (c :: rest) = String.utf8EncodeChar c ++ decode rest := by
  rw [decode]
  exact fun _ _ _ hc ↦ absurd hc hpercent

/-- A character other than a percent sign is decoded to its bytes, whether a fragment keeps it or
escapes it. -/
theorem decode_encode_singleton (set : Char → Bool) {c : Char} (hpercent : c ≠ '%')
    (rest : List Char) :
    decode (encode set [c] ++ rest) = String.utf8EncodeChar c ++ decode rest := by
  rw [encode, List.flatMap_singleton]
  split
  · exact decode_cons hpercent rest
  · exact (escapes_flatMap_encodeByte _).decode_append rest

theorem Escapes.encode_eq {bytes : List UInt8} {escape : List Char}
    (hescapes : Escapes bytes escape) : encode fragmentSet escape = escape :=
  encode_eq_self fun c hc ↦ (hescapes.isEscapeChar c hc).kept

theorem Escapes.eq_nil {bytes : List UInt8} (hescapes : Escapes bytes []) : bytes = [] := by
  cases hescapes
  rfl

/-- What a fragment holds of a written pointer is decoded to the bytes of the pointer. -/
theorem Written.decode_encode {pointer text : List Char} (hwritten : Written pointer text) :
    decode (encode fragmentSet text) = pointer.flatMap String.utf8EncodeChar := by
  induction hwritten with
  | nil => rfl
  | @raw c pointer text hkept hlast hrest ih =>
    have hpercent : c ≠ '%' := fun hc ↦ hkept (by simp [hc])
    calc decode (encode fragmentSet (c :: text))
        = decode (encode fragmentSet [c] ++ encode fragmentSet text) := by
          rw [← encode_append, List.singleton_append]
      _ = String.utf8EncodeChar c ++ decode (encode fragmentSet text) :=
          decode_encode_singleton _ hpercent _
      _ = (c :: pointer).flatMap String.utf8EncodeChar := by rw [ih, List.flatMap_cons]
  | @escaped c escape pointer text hescapes hrest ih =>
    calc decode (encode fragmentSet (escape ++ text))
        = decode (escape ++ encode fragmentSet text) := by rw [encode_append, hescapes.encode_eq]
      _ = String.utf8EncodeChar c ++ decode (encode fragmentSet text) := hescapes.decode_append _
      _ = (c :: pointer).flatMap String.utf8EncodeChar := by rw [ih, List.flatMap_cons]

theorem toUTF8_ofList (text : List Char) :
    (String.ofList text).toUTF8.data.toList = text.flatMap String.utf8EncodeChar := by
  rw [String.toUTF8_eq_toByteArray, String.toByteArray_ofList, List.utf8Encode,
    List.data_toByteArray]

theorem Written.decodeText?_encode {pointer text : List Char} (hwritten : Written pointer text) :
    decodeText? (encode fragmentSet text) = some (String.ofList pointer) := by
  rw [decodeText?, hwritten.decode_encode, ← toUTF8_ofList, fromUTF8?_toUTF8]

theorem Written.eq_nil {pointer : List Char} (hwritten : Written pointer []) : pointer = [] := by
  generalize htext : ([] : List Char) = text at hwritten
  cases hwritten with
  | nil => rfl
  | raw => cases htext
  | @escaped c escape pointer text hescapes hrest =>
    obtain ⟨rfl, rfl⟩ := List.append_eq_nil_iff.1 htext.symm
    exact absurd hescapes.eq_nil (utf8EncodeChar_ne_nil c)

theorem Written.isBreak_eq {pointer text : List Char} (hwritten : Written pointer text) :
    ∀ c ∈ text, isBreak c = false := by
  induction hwritten with
  | nil => simp
  | @raw c pointer text hkept hlast hrest ih =>
    refine List.forall_mem_cons.2 ⟨?_, ih⟩
    rw [Bool.eq_false_iff]
    intro hbreak
    simp only [isBreak, Bool.or_eq_true, beq_iff_eq] at hbreak
    exact hkept (by rcases hbreak with (rfl | rfl) | rfl <;> decide)
  | escaped hescapes hrest ih =>
    refine List.forall_mem_append.2 ⟨fun c hc ↦ ?_, ih⟩
    exact Address.isBreak_of_visible (hescapes.isEscapeChar c hc).visible

theorem Written.endsVisibly {pointer text : List Char} (hwritten : Written pointer text) :
    Address.EndsVisibly text := by
  induction hwritten with
  | nil =>
    intro c hc
    cases hc
  | @raw c pointer text hkept hlast hrest ih =>
    have hends : Address.EndsVisibly ([c] ++ text) := by
      refine Address.endsVisibly_append (fun hend d hd ↦ ?_) ih
      subst hend
      cases hd
      exact hlast hrest.eq_nil
    exact hends
  | escaped hescapes hrest ih =>
    refine Address.endsVisibly_append (fun _ c hc ↦ ?_) ih
    exact (hescapes.isEscapeChar c (List.mem_of_getLast? hc)).visible

end Percent

/-- Every way of writing a pointer in a reference that is only a fragment leads to that pointer, in
the document at the base. -/
theorem resolve_written (base : Address) {pointer text : List Char}
    (hwritten : Percent.Written pointer text) :
    Target.resolve base (String.ofList ('#' :: text)) =
      some ⟨base.withoutFragment, some (String.ofList pointer)⟩ :=
  base.resolve_of_decodeText? hwritten.isBreak_eq hwritten.endsVisibly hwritten.decodeText?_encode

/-- One of two equal letters is escaped, in digits of both cases, and of the blanks the last one. -/
theorem resolve_written_mixed :
    Target.resolve ⟨"urn", none, .rootless "a ", none, some "x"⟩ "#/%254 é%C3%a9#+%20" =
      some ⟨⟨"urn", none, .rootless "a", none, none⟩, some "/%4 éé#+ "⟩ := by
  have hpercent : Percent.Escapes (String.utf8EncodeChar '%') ['%', '2', '5'] :=
    .cons (a := '2') (b := '5') rfl rfl .nil
  have hletter : Percent.Escapes (String.utf8EncodeChar 'é') ['%', 'C', '3', '%', 'a', '9'] :=
    .cons (a := 'C') (b := '3') rfl rfl (.cons (a := 'a') (b := '9') rfl rfl .nil)
  have hblank : Percent.Escapes (String.utf8EncodeChar ' ') ['%', '2', '0'] :=
    .cons (a := '2') (b := '0') rfl rfl .nil
  have hwritten : Percent.Written ['/', '%', '4', ' ', 'é', 'é', '#', '+', ' ']
      ['/', '%', '2', '5', '4', ' ', 'é', '%', 'C', '3', '%', 'a', '9', '#', '+', '%', '2', '0'] :=
    .raw (by decide) (by decide) <| .escaped hpercent <| .raw (by decide) (by decide) <|
      .raw (by decide) (by decide) <| .raw (by decide) (by decide) <| .escaped hletter <|
      .raw (by decide) (by decide) <| .raw (by decide) (by decide) <| .escaped hblank .nil
  exact resolve_written ⟨"urn", none, .rootless "a ", none, some "x"⟩ hwritten

end LinkedJson
