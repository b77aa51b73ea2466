import LinkedJson.Proofs.Text.Lines
import Mathlib.Order.Bounds.Defs

/-!
# Columns of a line

The lines of a text are what its line feeds divide it into. A position names one of them by its
number, and a place in it by a column that counts UTF-16 code units. The column is looked up among
the boundaries of the line, where the carriage return that ends the line is left out. What is found
is the first boundary at which the column has been reached, or the last one if the line is shorter.
So a column inside a surrogate pair leads behind the pair, and no column leads to another line.
-/

namespace LinkedJson

namespace Text

/-! ## Lines -/

/-- The lines of a text, without the line feeds that divide them. -/
def lines (text : List Char) : List (List Char) :=
  text.splitOn '\n'

/-- The number of bytes before a line, which are those of the earlier lines and their line feeds. -/
def lineOffset (text : List Char) (number : Nat) : Nat :=
  byteLength (((lines text).take number).flatMap (· ++ ['\n']))

theorem lines_append (front rest : List Char) :
    lines (front ++ '\n' :: rest) = lines front ++ lines rest :=
  List.splitOn_append_cons_self front rest

theorem lines_cons_feed (text : List Char) : lines ('\n' :: text) = [] :: lines text :=
  lines_append [] text

theorem lines_cons_of_ne {c : Char} (hc : c ≠ '\n') (text : List Char) :
    ∃ line below, lines text = line :: below ∧ lines (c :: text) = (c :: line) :: below := by
  obtain ⟨line, below, hlines⟩ := List.exists_cons_of_ne_nil (List.splitOn_ne_nil '\n' text)
  refine ⟨line, below, hlines, ?_⟩
  rw [lines, List.splitOn_cons_eq_if_modifyHead, hlines, if_neg (by simpa using hc)]
  rfl

theorem length_lines (text : List Char) : (lines text).length = text.count '\n' + 1 := by
  induction text with
  | nil => rfl
  | cons c text ih =>
    by_cases hc : c = '\n'
    · subst hc
      rw [lines_cons_feed, List.length_cons, ih, List.count_cons_self]
    · obtain ⟨line, below, hlines, hcons⟩ := lines_cons_of_ne hc text
      rw [hcons, List.count_cons_of_ne hc, ← ih, hlines]
      rfl

/-- The lines with a line feed behind each of them make up the text and one more line feed. -/
theorem flatMap_lines (text : List Char) :
    (lines text).flatMap (· ++ ['\n']) = text ++ ['\n'] := by
  induction text with
  | nil => rfl
  | cons c text ih =>
    by_cases hc : c = '\n'
    · subst hc
      rw [lines_cons_feed, List.flatMap_cons, ih]
      rfl
    · obtain ⟨line, below, hlines, hcons⟩ := lines_cons_of_ne hc text
      rw [hlines, List.flatMap_cons] at ih
      rw [hcons, List.flatMap_cons, List.cons_append, List.cons_append, ih, List.cons_append]

end Text

namespace LineIndex

open Text

/-- The line in front of the first line feed is the first of the lines. -/
theorem exists_lines_eq_cons {line later : List Char} (hline : '\n' ∉ line)
    (hends : EndsLine later) : ∃ below, lines (line ++ later) = line :: below := by
  rcases hends with rfl | hfeed
  · exact ⟨[], by rw [List.append_nil]; exact List.splitOn_eq_singleton hline⟩
  · rw [← List.cons_head?_tail hfeed]
    exact ⟨lines later.tail, List.splitOn_append_cons_self_of_not_mem hline later.tail⟩

namespace IsLine

variable {text earlier line later : List Char} {number : Nat}

theorem exists_lines_eq (hline : IsLine text number earlier line later) :
    ∃ above below, lines text = above ++ line :: below ∧ above.length = number ∧
      above.flatMap (· ++ ['\n']) = earlier := by
  obtain ⟨below, hbelow⟩ := exists_lines_eq_cons hline.not_mem hline.ends
  rw [hline.text_eq, List.append_assoc, ← hline.count_eq]
  by_cases hempty : earlier = []
  · subst hempty
    exact ⟨[], below, hbelow, rfl, rfl⟩
  · obtain ⟨front, rfl⟩ := hline.starts.exists_concat hempty
    refine ⟨lines front, below, ?_, ?_, flatMap_lines front⟩
    · rw [List.append_assoc, List.singleton_append, lines_append, hbelow]
    · rw [length_lines, List.count_append]
      rfl

theorem getElem?_lines (hline : IsLine text number earlier line later) :
    (lines text)[number]? = some line := by
  obtain ⟨above, below, hlines, hlength, -⟩ := hline.exists_lines_eq
  rw [hlines, ← hlength, List.getElem?_append_right (Nat.le_refl _), Nat.sub_self]
  rfl

theorem lineOffset_eq (hline : IsLine text number earlier line later) :
    lineOffset text number = byteLength earlier := by
  obtain ⟨above, below, hlines, hlength, hearlier⟩ := hline.exists_lines_eq
  rw [lineOffset, hlines, List.take_left' hlength, hearlier]

end IsLine

theorem exists_cut {text : List Char} {number : Nat} (hnumber : number ≤ text.count '\n') :
    ∃ before after, text = before ++ after ∧ before.count '\n' = number := by
  induction text generalizing number with
  | nil => exact ⟨[], [], rfl, (Nat.le_zero.1 hnumber).symm⟩
  | cons c text ih =>
    cases number with
    | zero => exact ⟨[], c :: text, rfl, rfl⟩
    | succ number =>
      by_cases hc : c = '\n'
      · subst hc
        rw [List.count_cons_self] at hnumber
        obtain ⟨before, after, rfl, hcount⟩ := ih (Nat.le_of_succ_le_succ hnumber)
        exact ⟨'\n' :: before, after, rfl, by rw [List.count_cons_self, hcount]⟩
      · rw [List.count_cons_of_ne hc] at hnumber
        obtain ⟨before, after, rfl, hcount⟩ := ih hnumber
        exact ⟨c :: before, after, rfl, by rw [List.count_cons_of_ne hc, hcount]⟩

/-- A text has a line for every number up to the number of its line feeds. -/
theorem exists_isLine {text : List Char} {number : Nat} (hnumber : number ≤ text.count '\n') :
    ∃ earlier line later, IsLine text number earlier line later := by
  obtain ⟨before, after, rfl, rfl⟩ := exists_cut hnumber
  exact ⟨_, _, _, isLine_append before after⟩

/-! ## The part of a line before a column -/

theorem isPrefix_beforeColumn (column : Nat) (line : List Char) :
    beforeColumn column line <+: line := by
  induction line generalizing column with
  | nil => exact List.prefix_refl _
  | cons c line ih =>
    rw [beforeColumn]
    split
    · exact List.nil_prefix
    · exact List.cons_prefix_cons.2 ⟨rfl, ih _⟩

theorem beforeColumn_pair {column : Nat} {front : List Char} {c : Char} (rest : List Char)
    (hafter : utf16Length front < column) (hbefore : column < utf16Length front + utf16Units c) :
    beforeColumn column (front ++ c :: rest) = front ++ [c] := by
  rw [beforeColumn_append (by omega), beforeColumn, if_neg (by omega),
    Nat.sub_eq_zero_of_le (by omega), beforeColumn_zero]

/-- A beginning of a line that reaches a column goes at least as far as the part before it. -/
theorem beforeColumn_prefix_of_le {column : Nat} {front : List Char}
    (hreaches : column ≤ utf16Length front) (rest : List Char) :
    beforeColumn column (front ++ rest) <+: front := by
  induction front generalizing column with
  | nil =>
    obtain rfl : column = 0 := Nat.le_zero.1 hreaches
    exact List.prefix_nil.2 (beforeColumn_zero rest)
  | cons c front ih =>
    rw [List.cons_append, beforeColumn]
    split
    · exact List.nil_prefix
    · rw [utf16Length_cons] at hreaches
      exact List.cons_prefix_cons.2 ⟨rfl, ih (by omega)⟩

theorem le_utf16Length_beforeColumn {column : Nat} {line : List Char}
    (hcolumn : column ≤ utf16Length line) : column ≤ utf16Length (beforeColumn column line) := by
  induction line generalizing column with
  | nil => exact hcolumn
  | cons c line ih =>
    rw [beforeColumn]
    split
    · omega
    · have hrest := @ih (column - utf16Units c) (by rw [utf16Length_cons] at hcolumn; omega)
      rw [utf16Length_cons]
      omega

/-- A larger column has more of the line before it. -/
theorem columnBytes_mono {first second : Nat} (hle : first ≤ second) (line : List Char) :
    columnBytes first line ≤ columnBytes second line := by
  rw [← byteLength_beforeColumn, ← byteLength_beforeColumn]
  apply byteLength_le_of_isPrefix
  by_cases hpast : utf16Length line ≤ second
  · rw [beforeColumn_of_le hpast]
    exact isPrefix_beforeColumn first line
  · obtain ⟨rest, hrest⟩ := isPrefix_beforeColumn second line
    have hreaches : first ≤ utf16Length (beforeColumn second line) :=
      hle.trans (le_utf16Length_beforeColumn (by omega))
    have hprefix := beforeColumn_prefix_of_le hreaches rest
    rwa [hrest] at hprefix

/-- Only one carriage return is left out, and only at the end of a line. -/
theorem stripReturn_cases (line : List Char) :
    line = stripReturn line ++ ['\r'] ∨
      line = stripReturn line ∧ line.getLast? ≠ some '\r' := by
  unfold stripReturn
  split
  · next hreturn => exact Or.inl (List.dropLast_append_getLast? _ hreturn).symm
  · next hreturn => exact Or.inr ⟨rfl, hreturn⟩

theorem isPrefix_stripReturn (line : List Char) : stripReturn line <+: line := by
  rcases stripReturn_cases line with hreturn | ⟨hsame, -⟩
  · exact ⟨['\r'], hreturn.symm⟩
  · exact ⟨[], by rw [List.append_nil, ← hsame]⟩

/-! ## Offsets -/

namespace IsLine

variable {text earlier line later : List Char} {position : Position}

/-- What lies before the offset of a position: the earlier lines, and its line up to the column. -/
theorem takeBytes_offset (hline : IsLine text position.line.toNat earlier line later) :
    takeBytes ((ofChars text).offset text position) text =
      earlier ++ beforeColumn position.character.toNat (stripReturn line) := by
  have hprefix := hline.isPrefix_append
    ((isPrefix_beforeColumn position.character.toNat _).trans (isPrefix_stripReturn line))
  rw [hline.offset_eq, ← byteLength_beforeColumn, ← byteLength_append,
    takeBytes_of_isPrefix hprefix]

/-- A line starts and ends at boundaries, and so do its beginnings. -/
theorem isBoundary_of_isPrefix {before : List Char} {number : Nat}
    (hline : IsLine text number earlier line later) (hbefore : before <+: line) :
    IsBoundary text (byteLength earlier + byteLength before) :=
  isBoundary_iff.2 ⟨_, hline.isPrefix_append hbefore, byteLength_append earlier before⟩

/-- No column leads to another line. -/
theorem count_takeBytes_offset (hline : IsLine text position.line.toNat earlier line later) :
    (takeBytes ((ofChars text).offset text position) text).count '\n' = position.line.toNat := by
  have hfeed : '\n' ∉ beforeColumn position.character.toNat (stripReturn line) := by
    intro hmem
    exact hline.not_mem
      ((isPrefix_stripReturn line).subset ((isPrefix_beforeColumn _ _).subset hmem))
  rw [hline.takeBytes_offset, List.count_append, List.count_eq_zero.2 hfeed, hline.count_eq,
    Nat.add_zero]

end IsLine

theorem offset_of_lineCount_le {text : List Char} {position : Position}
    (hpast : text.count '\n' + 1 ≤ position.line.toNat) :
    (ofChars text).offset text position = byteLength text := by
  unfold offset
  rw [lineCount_ofChars, if_neg (by omega)]

/-- Positions lead to boundaries only. -/
theorem isBoundary_offset (text : List Char) (position : Position) :
    IsBoundary text ((ofChars text).offset text position) := by
  by_cases hpast : text.count '\n' + 1 ≤ position.line.toNat
  · rw [offset_of_lineCount_le hpast, IsBoundary, takeBytes_of_isPrefix (List.prefix_refl text)]
  · obtain ⟨earlier, line, later, hline⟩ :=
      exists_isLine (show position.line.toNat ≤ text.count '\n' by omega)
    rw [hline.offset_eq, ← byteLength_beforeColumn]
    exact hline.isBoundary_of_isPrefix
      ((isPrefix_beforeColumn _ _).trans (isPrefix_stripReturn line))

/-- A boundary of a stretch of text, its end included, that is at least `column` UTF-16 code units
behind the start of the stretch. -/
structure Reaches (text : List Char) (start : Nat) (stretch : List Char) (column offset : Nat) :
    Prop where
  boundary : IsBoundary text offset
  start_le : start ≤ offset
  le_stop : offset ≤ start + byteLength stretch
  column_le : column ≤ utf16Length (slice text start offset)

theorem reaches_iff {earlier stretch later : List Char} {column offset : Nat} :
    Reaches (earlier ++ stretch ++ later) (byteLength earlier) stretch column offset ↔
      ∃ before, before <+: stretch ∧ byteLength earlier + byteLength before = offset ∧
        column ≤ utf16Length before := by
  have hslice {before : List Char} (hbefore : before <+: stretch) :
      slice (earlier ++ stretch ++ later) (byteLength earlier)
        (byteLength earlier + byteLength before) = before := by
    obtain ⟨after, rfl⟩ := hbefore
    rw [List.append_assoc, List.append_assoc, ← List.append_assoc earlier]
    exact slice_append earlier before (after ++ later)
  constructor
  · intro hreaches
    obtain ⟨whole, hwhole, rfl⟩ := isBoundary_iff.1 hreaches.boundary
    have hstart : earlier <+: whole := by
      apply prefix_of_byteLength_le _ hwhole hreaches.start_le
      rw [List.append_assoc]
      exact List.prefix_append _ _
    obtain ⟨before, rfl⟩ := hstart
    have hstop : earlier ++ before <+: earlier ++ stretch := by
      apply prefix_of_byteLength_le hwhole (List.prefix_append _ _)
      rw [byteLength_append earlier stretch]
      exact hreaches.le_stop
    have hbefore : before <+: stretch := (List.prefix_append_right_inj earlier).1 hstop
    have hcolumn := hreaches.column_le
    rw [byteLength_append, hslice hbefore] at hcolumn
    exact ⟨before, hbefore, (byteLength_append _ _).symm, hcolumn⟩
  · rintro ⟨before, hbefore, rfl, hcolumn⟩
    refine ⟨?_, Nat.le_add_right _ _, ?_, ?_⟩
    · rw [isBoundary_iff]
      refine ⟨earlier ++ before, ?_, byteLength_append _ _⟩
      rw [List.append_assoc, List.prefix_append_right_inj]
      exact hbefore.trans (List.prefix_append _ _)
    · exact Nat.add_le_add_left (byteLength_le_of_isPrefix hbefore) _
    · rw [hslice hbefore]
      exact hcolumn

namespace IsLine

variable {text earlier line later : List Char} {position : Position}

theorem reaches_iff_isPrefix {number column offset : Nat}
    (hline : IsLine text number earlier line later) :
    Reaches text (byteLength earlier) (stripReturn line) column offset ↔
      ∃ before, before <+: stripReturn line ∧ byteLength earlier + byteLength before = offset ∧
        column ≤ utf16Length before := by
  obtain ⟨ending, hending⟩ := isPrefix_stripReturn line
  have htext : text = earlier ++ stripReturn line ++ (ending ++ later) := calc
    text = earlier ++ line ++ later := hline.text_eq
    _ = earlier ++ (stripReturn line ++ ending) ++ later := by rw [hending]
    _ = _ := by simp only [List.append_assoc]
  rw [htext]
  exact reaches_iff

theorem offset_eq_byteLength (hline : IsLine text position.line.toNat earlier line later) :
    (ofChars text).offset text position = byteLength earlier +
      byteLength (beforeColumn position.character.toNat (stripReturn line)) := by
  rw [hline.offset_eq, byteLength_beforeColumn]

theorem isLeast_offset (hline : IsLine text position.line.toNat earlier line later)
    (hreached : ∃ offset,
      Reaches text (byteLength earlier) (stripReturn line) position.character.toNat offset) :
    IsLeast
      {offset |
        Reaches text (byteLength earlier) (stripReturn line) position.character.toNat offset}
      ((ofChars text).offset text position) := by
  rw [hline.offset_eq_byteLength]
  constructor
  · obtain ⟨offset, hoffset⟩ := hreached
    obtain ⟨before, ⟨rest, hrest⟩, -, hcolumn⟩ := hline.reaches_iff_isPrefix.1 hoffset
    have hlong : position.character.toNat ≤ utf16Length (stripReturn line) := by
      rw [← hrest, utf16Length_append]
      omega
    exact hline.reaches_iff_isPrefix.2
      ⟨_, isPrefix_beforeColumn _ _, rfl, le_utf16Length_beforeColumn hlong⟩
  · intro offset hoffset
    obtain ⟨before, ⟨rest, hrest⟩, rfl, hcolumn⟩ := hline.reaches_iff_isPrefix.1 hoffset
    have hshort := beforeColumn_prefix_of_le hcolumn rest
    rw [hrest] at hshort
    exact Nat.add_le_add_left (byteLength_le_of_isPrefix hshort) _

/-- A column that no boundary reaches leads to the end of its line. -/
theorem offset_of_not_reaches (hline : IsLine text position.line.toNat earlier line later)
    (hnone : ¬ ∃ offset,
      Reaches text (byteLength earlier) (stripReturn line) position.character.toNat offset) :
    (ofChars text).offset text position = byteLength earlier + byteLength (stripReturn line) := by
  have hpast : utf16Length (stripReturn line) ≤ position.character.toNat := by
    by_contra hshort
    apply hnone
    refine ⟨_, hline.reaches_iff_isPrefix.2 ⟨stripReturn line, List.prefix_refl _, rfl, ?_⟩⟩
    omega
  rw [hline.offset_eq_byteLength, beforeColumn_of_le hpast]

theorem offset_le (hline : IsLine text position.line.toNat earlier line later) :
    (ofChars text).offset text position ≤ byteLength earlier + byteLength line := by
  have hprefix := (isPrefix_beforeColumn position.character.toNat (stripReturn line)).trans
    (isPrefix_stripReturn line)
  rw [hline.offset_eq_byteLength]
  exact Nat.add_le_add_left (byteLength_le_of_isPrefix hprefix) _

end IsLine

/-- A position on a line past the last one leads to the end of the text. Any other leads to the
first boundary of its line, without the carriage return that ends it, at which the column has been
reached, and to the end of the line if no boundary reaches it. A column between the two halves of a
surrogate pair leads behind the pair, and no column leads to another line. -/
theorem offset_least_boundary (text : String) (position : Position) :
    let chars := text.toList
    let number := position.line.toNat
    let column := position.character.toNat
    let start := lineOffset chars number
    let found := (ofText text).offset chars position
    (chars.count '\n' + 1 ≤ number → found = byteLength chars) ∧
    (number < chars.count '\n' + 1 → ∃ line content,
      (lines chars)[number]? = some line ∧
      (line = content ++ ['\r'] ∨ line = content ∧ line.getLast? ≠ some '\r') ∧
      ((∃ offset, Reaches chars start content column offset) →
        IsLeast {offset | Reaches chars start content column offset} found) ∧
      ((¬ ∃ offset, Reaches chars start content column offset) →
        found = start + byteLength content) ∧
      (∀ front c rest, content = front ++ c :: rest → utf16Length front < column →
        column < utf16Length front + utf16Units c → found = start + byteLength (front ++ [c])) ∧
      start ≤ found ∧ found ≤ start + byteLength line ∧
      (takeBytes found chars).count '\n' = number) := by
  intro chars number column start found
  refine ⟨offset_of_lineCount_le, fun hnumber ↦ ?_⟩
  obtain ⟨earlier, line, later, hline⟩ := exists_isLine (Nat.le_of_lt_succ hnumber)
  have hstart : start = byteLength earlier := hline.lineOffset_eq
  rw [hstart]
  refine ⟨line, stripReturn line, hline.getElem?_lines, stripReturn_cases line,
    hline.isLeast_offset, hline.offset_of_not_reaches, ?_, ?_, hline.offset_le,
    hline.count_takeBytes_offset⟩
  · intro front c rest hcontent hafter hbefore
    rw [← beforeColumn_pair rest hafter hbefore, ← hcontent]
    exact hline.offset_eq_byteLength
  · calc
      byteLength earlier ≤ byteLength earlier + columnBytes column (stripReturn line) :=
        Nat.le_add_right _ _
      _ = found := hline.offset_eq.symm

end LineIndex

end LinkedJson
