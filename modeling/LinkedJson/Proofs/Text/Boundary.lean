import LinkedJson.Text.Bytes

/-!
# Cutting texts at boundaries

A boundary of a text is an offset at which the text can be cut in two. The functions that cut at
arbitrary offsets are determined by what they do at boundaries: there, both parts come out whole.
-/

namespace LinkedJson.Text

theorem takeBytes_zero (text : List Char) : takeBytes 0 text = [] := by
  cases text with
  | nil => rfl
  | cons c text =>
    have hpos := c.utf8Size_pos
    rw [takeBytes, if_neg (by omega)]

theorem takeBytes_append (first second : List Char) :
    takeBytes (byteLength first) (first ++ second) = first := by
  induction first with
  | nil => exact takeBytes_zero second
  | cons c first ih =>
    rw [List.cons_append, takeBytes, byteLength_cons, if_pos (Nat.le_add_right _ _),
      Nat.add_sub_cancel_left, ih]

theorem dropBytes_append (first second : List Char) :
    dropBytes (byteLength first) (first ++ second) = second := by
  have hcut := takeBytes_append_dropBytes (byteLength first) (first ++ second)
  rw [takeBytes_append] at hcut
  exact List.append_cancel_left hcut

/-- A boundary cuts a text in two. -/
theorem IsBoundary.exists_append {text : List Char} {offset : Nat} (h : IsBoundary text offset) :
    ∃ first second, text = first ++ second ∧ byteLength first = offset :=
  ⟨takeBytes offset text, dropBytes offset text, (takeBytes_append_dropBytes offset text).symm, h⟩

/-- A larger number of bytes takes more of a text. -/
theorem isPrefix_takeBytes (text : List Char) {first second : Nat} (hle : first ≤ second) :
    takeBytes first text <+: takeBytes second text := by
  induction text generalizing first second with
  | nil => exact List.prefix_refl _
  | cons c text ih =>
    by_cases hfits : c.utf8Size ≤ first
    · rw [takeBytes, if_pos hfits, takeBytes, if_pos (Nat.le_trans hfits hle),
        List.cons_prefix_cons]
      exact ⟨rfl, ih (Nat.sub_le_sub_right hle _)⟩
    · rw [takeBytes, if_neg hfits]
      exact List.nil_prefix

theorem takeBytes_of_isPrefix {before text : List Char} (hbefore : before <+: text) :
    takeBytes (byteLength before) text = before := by
  obtain ⟨after, rfl⟩ := hbefore
  exact takeBytes_append before after

/-- The boundaries of a text are the lengths of its beginnings. -/
theorem isBoundary_iff {text : List Char} {offset : Nat} :
    IsBoundary text offset ↔ ∃ before, before <+: text ∧ byteLength before = offset := by
  constructor
  · intro h
    obtain ⟨before, after, rfl, hlength⟩ := h.exists_append
    exact ⟨before, List.prefix_append before after, hlength⟩
  · rintro ⟨before, hbefore, rfl⟩
    rw [IsBoundary, takeBytes_of_isPrefix hbefore]

theorem byteLength_le_of_isPrefix {first second : List Char} (hfirst : first <+: second) :
    byteLength first ≤ byteLength second := by
  obtain ⟨rest, rfl⟩ := hfirst
  rw [byteLength_append]
  exact Nat.le_add_right _ _

/-- Of two beginnings of a text, the one with fewer bytes is a beginning of the other. -/
theorem prefix_of_byteLength_le {first second text : List Char} (hfirst : first <+: text)
    (hsecond : second <+: text) (hle : byteLength first ≤ byteLength second) :
    first <+: second := by
  have htaken := isPrefix_takeBytes text hle
  rwa [takeBytes_of_isPrefix hfirst, takeBytes_of_isPrefix hsecond] at htaken

theorem IsBoundary.le_byteLength {text : List Char} {offset : Nat} (h : IsBoundary text offset) :
    offset ≤ byteLength text := by
  obtain ⟨before, hbefore, rfl⟩ := isBoundary_iff.1 h
  exact byteLength_le_of_isPrefix hbefore

theorem slice_append (first middle last : List Char) :
    slice (first ++ middle ++ last) (byteLength first) (byteLength first + byteLength middle) =
      middle := by
  unfold slice
  rw [List.append_assoc, dropBytes_append, Nat.add_sub_cancel_left, takeBytes_append]

/-- A piece of text stands in a text at an offset. -/
def StandsAt (text : List Char) (offset : Nat) (piece : List Char) : Prop :=
  ∃ before after, text = before ++ (piece ++ after) ∧ byteLength before = offset

namespace StandsAt

variable {text first second : List Char} {offset : Nat}

theorem left (hstands : StandsAt text offset (first ++ second)) : StandsAt text offset first := by
  obtain ⟨before, after, htext, hoffset⟩ := hstands
  exact ⟨before, second ++ after, by rw [htext, List.append_assoc], hoffset⟩

theorem right (hstands : StandsAt text offset (first ++ second)) :
    StandsAt text (offset + byteLength first) second := by
  obtain ⟨before, after, htext, hoffset⟩ := hstands
  refine ⟨before ++ first, after, by rw [htext]; simp only [List.append_assoc], ?_⟩
  rw [byteLength_append, hoffset]

theorem tail {c : Char} (hstands : StandsAt text offset (c :: first)) :
    StandsAt text (offset + c.utf8Size) first := by
  rw [← List.singleton_append] at hstands
  exact hstands.right

theorem slice_eq {piece : List Char} (hstands : StandsAt text offset piece) :
    slice text offset (offset + byteLength piece) = piece := by
  obtain ⟨before, after, rfl, rfl⟩ := hstands
  rw [← List.append_assoc]
  exact slice_append before piece after

end StandsAt

theorem utf16Units_pos (c : Char) : 0 < utf16Units c := by
  unfold utf16Units
  split <;> omega

theorem utf16Units_le_utf8Size (c : Char) : utf16Units c ≤ c.utf8Size := by
  have hpos := c.utf8Size_pos
  unfold utf16Units
  split
  · exact hpos
  · next hastral =>
    have hsize : c.utf8Size ≠ 1 := by
      intro hone
      have hascii : c.val.toNat ≤ 127 := by
        simpa [UInt32.le_iff_toNat_le] using Char.utf8Size_eq_one_iff.mp hone
      exact hastral (show c.val.toNat < 0x10000 by omega)
    omega

theorem utf16Length_le_byteLength (text : List Char) : utf16Length text ≤ byteLength text := by
  induction text with
  | nil => exact Nat.le_refl 0
  | cons c text ih =>
    rw [utf16Length_cons, byteLength_cons]
    exact Nat.add_le_add (utf16Units_le_utf8Size c) ih

theorem length_le_byteLength (text : List Char) : text.length ≤ byteLength text := by
  induction text with
  | nil => exact Nat.le_refl 0
  | cons c text ih =>
    have hpos := c.utf8Size_pos
    rw [List.length_cons, byteLength_cons]
    omega

end LinkedJson.Text
