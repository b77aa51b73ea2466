import LinkedJson.Proofs.Text.Lines
import Mathlib.Order.Bounds.Basic

/-!
# Positions by a plain scan

The position of an offset is found through the index of line starts, by a search for the line and a
slice from its start. A plain scan of the text gives the same: count the line feeds before the
offset, and measure what lies behind the last of them. The scan ends at a boundary. For an offset
inside a character, or past the end of the text, this is the last boundary before it.
-/

namespace LinkedJson

namespace Text

theorem takeBytes_floorBoundary (text : List Char) (offset : Nat) :
    takeBytes (floorBoundary text offset) text = takeBytes offset text := by
  apply takeBytes_of_isPrefix
  exact ⟨dropBytes offset text, takeBytes_append_dropBytes offset text⟩

theorem isBoundary_floorBoundary (text : List Char) (offset : Nat) :
    IsBoundary text (floorBoundary text offset) := by
  rw [IsBoundary, takeBytes_floorBoundary]
  rfl

/-- Rounding down ends at the last boundary that an offset does not lie before. -/
theorem isGreatest_floorBoundary (text : List Char) (offset : Nat) :
    IsGreatest {boundary | IsBoundary text boundary ∧ boundary ≤ min offset (byteLength text)}
      (floorBoundary text offset) := by
  have hboundary := isBoundary_floorBoundary text offset
  refine ⟨⟨hboundary, ?_⟩, ?_⟩
  · exact Nat.le_min.2 ⟨byteLength_takeBytes_le offset text, hboundary.le_byteLength⟩
  · rintro boundary ⟨hother, hle⟩
    calc
      boundary = byteLength (takeBytes boundary text) := hother.symm
      _ ≤ floorBoundary text offset :=
        byteLength_le_of_isPrefix (isPrefix_takeBytes text (hle.trans (Nat.min_le_left _ _)))

end Text

namespace LineIndex

open Text

/-- In a text of less than 4 GiB, the position of any offset is what a scan up to the last boundary
before it finds: the number of line feeds, and the UTF-16 length of what lies behind the last one.
-/
theorem position_eq_scan {text : String} (hsize : byteLength text.toList < 2 ^ 32) (offset : Nat) :
    ∃ boundary,
      IsGreatest {boundary | IsBoundary text.toList boundary ∧
        boundary ≤ min offset (byteLength text.toList)} boundary ∧
      ((ofText text).position text.toList offset).line.toNat =
        (takeBytes boundary text.toList).count '\n' ∧
      ((ofText text).position text.toList offset).character.toNat =
        utf16Length (lastLine (takeBytes boundary text.toList)) := by
  refine ⟨floorBoundary text.toList offset, isGreatest_floorBoundary text.toList offset, ?_⟩
  rw [takeBytes_floorBoundary]
  exact toNat_position hsize offset

/-- An offset inside an astral character, which stands behind a carriage return and a line feed. -/
theorem position_eq_scan_astral :
    byteLength "a\r\nb😀".toList < 2 ^ 32 ∧
    ((ofText "a\r\nb😀").position "a\r\nb😀".toList 6).line.toNat = 1 ∧
    ((ofText "a\r\nb😀").position "a\r\nb😀".toList 6).character.toNat = 1 := by
  have hsize : byteLength "a\r\nb😀".toList < 2 ^ 32 := by decide +kernel
  obtain ⟨boundary, hgreatest, hline, hcolumn⟩ := position_eq_scan hsize 6
  have hboundary : boundary = 4 := calc
    boundary = floorBoundary "a\r\nb😀".toList 6 :=
      hgreatest.unique (isGreatest_floorBoundary "a\r\nb😀".toList 6)
    _ = 4 := by decide +kernel
  subst hboundary
  rw [hline, hcolumn]
  exact ⟨hsize, by decide +kernel⟩

end LineIndex

end LinkedJson
