import LinkedJson.Proofs.Text.Columns

/-!
# The order of positions

Positions are compared by line, and within a line by column. This is the order of the text: an
offset further on never has a smaller position, whether or not it lies on a boundary, and a larger
position never leads to an earlier offset, whether or not the text has such a line and column.
-/

namespace LinkedJson

namespace Position

/-- By line, and within a line by column. -/
instance : LE Position where
  le first second :=
    first.line < second.line ∨ first.line = second.line ∧ first.character ≤ second.character

instance (first second : Position) : Decidable (first ≤ second) :=
  inferInstanceAs (Decidable (_ ∨ _))

theorem le_iff_toNat {first second : Position} :
    first ≤ second ↔
      first.line.toNat < second.line.toNat ∨
        first.line.toNat = second.line.toNat ∧
          first.character.toNat ≤ second.character.toNat := by
  change _ ∨ _ ↔ _
  rw [UInt32.lt_iff_toNat_lt, UInt32.le_iff_toNat_le, ← UInt32.toNat_inj]

end Position

namespace LineIndex

open Text

theorem lastLine_append {more : List Char} (hmore : '\n' ∉ more) (before : List Char) :
    lastLine (before ++ more) = lastLine before ++ more := by
  have hkept : ∀ c ∈ more.reverse, (c != '\n') = true := by
    intro c hmem
    rw [bne_iff_ne]
    rintro rfl
    exact hmore (List.mem_reverse.1 hmem)
  unfold lastLine List.rtakeWhile
  rw [List.reverse_append, List.takeWhile_append_of_pos hkept, List.reverse_append,
    List.reverse_reverse]

/-- An offset further on has no smaller position. -/
theorem position_mono {text : List Char} (hsize : byteLength text < 2 ^ 32) {first second : Nat}
    (hle : first ≤ second) :
    (ofChars text).position text first ≤ (ofChars text).position text second := by
  obtain ⟨hline, hcolumn⟩ := toNat_position hsize first
  obtain ⟨hline', hcolumn'⟩ := toNat_position hsize second
  obtain ⟨more, hmore⟩ := isPrefix_takeBytes text hle
  rw [Position.le_iff_toNat, hline, hline', hcolumn, hcolumn', ← hmore, List.count_append]
  -- Either a line feed lies between the two places, or the second is in the line of the first.
  by_cases hfeed : '\n' ∈ more
  · left
    have hpos := List.count_pos_iff.2 hfeed
    omega
  · right
    rw [List.count_eq_zero.2 hfeed, lastLine_append hfeed, utf16Length_append]
    exact ⟨rfl, Nat.le_add_right _ _⟩

/-- A larger position leads to no earlier offset. -/
theorem offset_mono (text : List Char) {first second : Position} (hle : first ≤ second) :
    (ofChars text).offset text first ≤ (ofChars text).offset text second := by
  rw [Position.le_iff_toNat] at hle
  by_cases hpast : text.count '\n' + 1 ≤ second.line.toNat
  · rw [offset_of_lineCount_le hpast]
    exact (isBoundary_offset text first).le_byteLength
  · obtain ⟨earlier, line, later, hsecond⟩ :=
      exists_isLine (show second.line.toNat ≤ text.count '\n' by omega)
    rcases hle with hline | ⟨hline, hcolumn⟩
    · obtain ⟨earlier', line', later', hfirst⟩ :=
        exists_isLine (show first.line.toNat ≤ text.count '\n' by omega)
      -- The line of a position is the number of line feeds before its offset.
      by_contra hgreater
      have hprefix := isPrefix_takeBytes text (Nat.le_of_not_le hgreater)
      have hcount := hprefix.sublist.count_le '\n'
      rw [hfirst.count_takeBytes_offset, hsecond.count_takeBytes_offset] at hcount
      omega
    · have hfirst := hsecond
      rw [← hline] at hfirst
      rw [hfirst.offset_eq, hsecond.offset_eq]
      exact Nat.add_le_add_left (columnBytes_mono hcolumn _) _

end LineIndex

end LinkedJson
