import LinkedJson.Proofs.Text.Boundary
import LinkedJson.Text.LineIndex
import Mathlib.Algebra.Group.Nat.Defs
import Mathlib.Data.List.DropRight

/-!
# Offsets and positions

A text that is cut in two around one of its lines shows what the line index does with that line:
where it starts, where it ends, and which offsets belong to it. From this the position of an offset
is computed by a plain scan of the text before it, and going from an offset to its position and back
returns to the offset. The one exception is an offset behind a carriage return that ends its line:
such a carriage return is not part of the line that positions are looked up in, so the way back ends
in front of it.
-/

namespace LinkedJson

/-- An offset that lies directly behind a carriage return which ends its line. -/
def Text.AfterLineReturn (text : List Char) (offset : Nat) : Prop :=
  (takeBytes offset text).getLast? = some '\r' ∧
    (dropBytes offset text = [] ∨ (dropBytes offset text).head? = some '\n')

instance (text : List Char) (offset : Nat) : Decidable (Text.AfterLineReturn text offset) :=
  inferInstanceAs (Decidable (_ ∧ _))

namespace LineIndex

open Text

/-! ## Line starts -/

theorem startsAfter_append (offset : Nat) (first second : List Char) :
    startsAfter offset (first ++ second) =
      startsAfter offset first ++ startsAfter (offset + byteLength first) second := by
  induction first generalizing offset with
  | nil => rfl
  | cons c first ih =>
    rw [List.cons_append, startsAfter, startsAfter, byteLength_cons, ← Nat.add_assoc]
    by_cases hfeed : c = '\n'
    · rw [if_pos hfeed, if_pos hfeed, ih, List.cons_append]
    · rw [if_neg hfeed, if_neg hfeed, ih]

theorem length_startsAfter (offset : Nat) (text : List Char) :
    (startsAfter offset text).length = text.count '\n' := by
  induction text generalizing offset with
  | nil => rfl
  | cons c text ih =>
    rw [startsAfter]
    by_cases hfeed : c = '\n'
    · rw [if_pos hfeed, List.length_cons, ih, hfeed, List.count_cons_self]
    · rw [if_neg hfeed, ih, List.count_cons_of_ne hfeed]

theorem bounds_of_mem_startsAfter {offset start : Nat} {text : List Char}
    (hmem : start ∈ startsAfter offset text) :
    offset < start ∧ start ≤ offset + byteLength text := by
  induction text generalizing offset with
  | nil => cases hmem
  | cons c text ih =>
    have hpos := c.utf8Size_pos
    rw [byteLength_cons]
    rw [startsAfter] at hmem
    by_cases hfeed : c = '\n'
    · rw [if_pos hfeed] at hmem
      rcases List.mem_cons.mp hmem with hfirst | hlater
      · omega
      · have hbounds := ih hlater
        omega
    · rw [if_neg hfeed] at hmem
      have hbounds := ih hmem
      omega

/-! ## The line around a cut -/

/-- The starts up to a cut are those of the lines that begin before it. -/
theorem linesThrough_append (first second : List Char) :
    (ofChars (first ++ second)).linesThrough (byteLength first) = first.count '\n' + 1 := by
  have hbefore : ∀ start ∈ 0 :: startsAfter 0 first, start ≤ byteLength first := by
    intro start hmem
    rcases List.mem_cons.mp hmem with rfl | hlater
    · exact Nat.zero_le _
    · have hbounds := bounds_of_mem_startsAfter hlater
      omega
  have hafter : (startsAfter (0 + byteLength first) second).takeWhile
      (fun start ↦ start ≤ byteLength first) = [] := by
    cases hstarts : startsAfter (0 + byteLength first) second with
    | nil => rfl
    | cons start starts =>
      have hmem : start ∈ startsAfter (0 + byteLength first) second := by
        rw [hstarts]
        exact List.mem_cons_self
      have hbounds := bounds_of_mem_startsAfter hmem
      rw [List.takeWhile_cons_of_neg]
      simp only [decide_eq_true_eq]
      omega
  change ((0 :: startsAfter 0 (first ++ second)).takeWhile _).length = _
  rw [startsAfter_append, ← List.cons_append, List.takeWhile_append_of_pos (by simpa using hbefore),
    hafter, List.append_nil, List.length_cons, length_startsAfter]

/-- A text up to the start of a line: it is empty or ends with a line feed. -/
def StartsLine (earlier : List Char) : Prop :=
  earlier = [] ∨ earlier.getLast? = some '\n'

/-- A text from the end of a line on: it is empty or begins with a line feed. -/
def EndsLine (later : List Char) : Prop :=
  later = [] ∨ later.head? = some '\n'

theorem StartsLine.exists_concat {earlier : List Char} (hstarts : StartsLine earlier)
    (hne : earlier ≠ []) : ∃ front, earlier = front ++ ['\n'] := by
  have hlast := hstarts.resolve_left hne
  exact ⟨earlier.dropLast, (List.dropLast_append_getLast? _ hlast).symm⟩

theorem lineStart_append {earlier : List Char} (hstarts : StartsLine earlier)
    (rest : List Char) :
    (ofChars (earlier ++ rest)).lineStart (earlier.count '\n') = byteLength earlier := by
  change (0 :: startsAfter 0 (earlier ++ rest)).getD _ 0 = _
  by_cases hempty : earlier = []
  · subst hempty
    rfl
  · obtain ⟨front, rfl⟩ := hstarts.exists_concat hempty
    have hcount : (front ++ ['\n']).count '\n' = (startsAfter 0 front).length + 1 := by
      rw [length_startsAfter]
      simp
    have hlength : byteLength (front ++ ['\n']) = byteLength front + 1 := by
      rw [byteLength_append]
      rfl
    rw [hcount, hlength, List.append_assoc, startsAfter_append, List.getD_eq_getElem?_getD,
      List.getElem?_cons_succ, List.getElem?_append_right (Nat.le_refl _), Nat.sub_self,
      List.singleton_append, startsAfter, if_pos rfl, Nat.zero_add]
    rfl

/-- The start of the line behind a line that ends with a line feed. -/
theorem getElem?_lineStarts_succ {earlier line later : List Char} (hline : '\n' ∉ line) :
    (ofChars (earlier ++ line ++ later)).lineStarts[earlier.count '\n' + 1]? =
      (startsAfter (byteLength earlier + byteLength line) later)[0]? := by
  change (0 :: startsAfter 0 (earlier ++ line ++ later))[earlier.count '\n' + 1]? = _
  have hlength : (startsAfter 0 (earlier ++ line)).length = earlier.count '\n' := by
    rw [length_startsAfter, List.count_append, List.count_eq_zero.mpr hline, Nat.add_zero]
  rw [List.getElem?_cons_succ, startsAfter_append, ← hlength,
    List.getElem?_append_right (Nat.le_refl _), Nat.sub_self, Nat.zero_add, byteLength_append]

theorem lineEnd_append {earlier line later : List Char} (hline : '\n' ∉ line)
    (hends : EndsLine later) :
    (ofChars (earlier ++ line ++ later)).lineEnd (earlier ++ line ++ later)
      (earlier.count '\n') = byteLength earlier + byteLength line := by
  unfold lineEnd
  rw [getElem?_lineStarts_succ hline]
  rcases hends with rfl | hfeed
  · simp [startsAfter]
  · obtain ⟨rest, rfl⟩ : ∃ rest, later = '\n' :: rest :=
      ⟨later.tail, (List.cons_head?_tail hfeed).symm⟩
    have hsize : '\n'.utf8Size = 1 := rfl
    simp [startsAfter, hsize]

theorem lineCount_ofChars (text : List Char) : (ofChars text).lineCount = text.count '\n' + 1 := by
  rw [← length_startsAfter 0 text]
  rfl

/-! ## Positions -/

/-- The part of a text behind its last line feed. -/
def lastLine (text : List Char) : List Char :=
  text.rtakeWhile (· != '\n')

/-- A text up to its last line feed, which is included. -/
def linesBefore (text : List Char) : List Char :=
  text.rdropWhile (· != '\n')

theorem linesBefore_append_lastLine (text : List Char) :
    linesBefore text ++ lastLine text = text :=
  List.rdropWhile_append_rtakeWhile ..

theorem not_mem_lastLine (text : List Char) : '\n' ∉ lastLine text := by
  intro hmem
  simpa using List.mem_rtakeWhile_imp hmem

theorem startsLine_linesBefore (text : List Char) : StartsLine (linesBefore text) := by
  unfold linesBefore
  by_cases hempty : text.rdropWhile (· != '\n') = []
  · exact Or.inl hempty
  · have hfeed : (text.rdropWhile (· != '\n')).getLast hempty = '\n' := by
      simpa using List.rdropWhile_last_not _ _ hempty
    exact Or.inr (by rw [List.getLast?_eq_some_getLast hempty, hfeed])

theorem count_linesBefore (text : List Char) :
    (linesBefore text).count '\n' = text.count '\n' := by
  have hcount := congrArg (List.count '\n') (linesBefore_append_lastLine text)
  rwa [List.count_append, List.count_eq_zero.mpr (not_mem_lastLine text), Nat.add_zero] at hcount

/-- A line of a text: what lies before it, its characters without the line feed, and the rest. -/
structure IsLine (text : List Char) (number : Nat) (earlier line later : List Char) : Prop where
  text_eq : text = earlier ++ line ++ later
  starts : StartsLine earlier
  count_eq : earlier.count '\n' = number
  not_mem : '\n' ∉ line
  ends : EndsLine later

/-- The line that holds a cut lies between the line feeds around the cut. -/
theorem isLine_append (before after : List Char) :
    IsLine (before ++ after) (before.count '\n') (linesBefore before)
      (lastLine before ++ after.takeWhile (· != '\n')) (after.dropWhile (· != '\n')) where
  text_eq := by
    rw [List.append_assoc, List.append_assoc, List.takeWhile_append_dropWhile,
      ← List.append_assoc, linesBefore_append_lastLine]
  starts := startsLine_linesBefore before
  count_eq := count_linesBefore before
  not_mem := by
    intro hmem
    rcases List.mem_append.mp hmem with hlast | hfirst
    · exact not_mem_lastLine before hlast
    · simpa using List.mem_takeWhile_imp hfirst
  ends := by
    by_cases hempty : after.dropWhile (· != '\n') = []
    · exact Or.inl hempty
    · have hfeed : (after.dropWhile (· != '\n')).head hempty = '\n' := by
        simpa using List.head_dropWhile_not (· != '\n') hempty
      exact Or.inr (by rw [List.head?_eq_some_head hempty, hfeed])

/-- The line in which a scan up to an offset ends. -/
theorem isLine_takeBytes (text : List Char) (offset : Nat) :
    IsLine text ((takeBytes offset text).count '\n') (linesBefore (takeBytes offset text))
      (lastLine (takeBytes offset text) ++ (dropBytes offset text).takeWhile (· != '\n'))
      ((dropBytes offset text).dropWhile (· != '\n')) := by
  have hcut := isLine_append (takeBytes offset text) (dropBytes offset text)
  rwa [takeBytes_append_dropBytes] at hcut

namespace IsLine

variable {text earlier line later : List Char} {number : Nat}

/-- What lies before a line, with a beginning of the line, is a beginning of the text. -/
theorem isPrefix_append {before : List Char} (hline : IsLine text number earlier line later)
    (hbefore : before <+: line) : earlier ++ before <+: text := by
  rw [hline.text_eq, List.append_assoc, List.prefix_append_right_inj]
  exact hbefore.trans (List.prefix_append line later)

theorem number_lt (hline : IsLine text number earlier line later) :
    number < (ofChars text).lineCount := by
  rw [lineCount_ofChars, hline.text_eq, ← hline.count_eq, List.append_assoc, List.count_append]
  omega

theorem lineStart_eq (hline : IsLine text number earlier line later) :
    (ofChars text).lineStart number = byteLength earlier := by
  rw [← hline.count_eq, hline.text_eq, List.append_assoc]
  exact lineStart_append hline.starts (line ++ later)

theorem lineEnd_eq (hline : IsLine text number earlier line later) :
    (ofChars text).lineEnd text number = byteLength earlier + byteLength line := by
  rw [← hline.count_eq, hline.text_eq]
  exact lineEnd_append hline.not_mem hline.ends

theorem lineChars_eq (hline : IsLine text number earlier line later) :
    (ofChars text).lineChars text number = stripReturn line := by
  unfold lineChars
  rw [hline.lineStart_eq, hline.lineEnd_eq, hline.text_eq, slice_append]

/-- A column is looked up in its line without the carriage return that ends the line. -/
theorem offset_eq {position : Position}
    (hline : IsLine text position.line.toNat earlier line later) :
    (ofChars text).offset text position =
      byteLength earlier + columnBytes position.character.toNat (stripReturn line) := by
  unfold offset
  rw [if_pos hline.number_lt, hline.lineStart_eq, hline.lineChars_eq]

end IsLine

/-- A position is found by scanning the text before it: the line is the number of line feeds there,
and the column is measured from the last of them. -/
theorem position_eq (text : List Char) (offset : Nat) :
    (ofChars text).position text offset =
      ⟨((takeBytes offset text).count '\n').toUInt32,
        (utf16Length (lastLine (takeBytes offset text))).toUInt32⟩ := by
  generalize hbefore : takeBytes offset text = before
  obtain ⟨after, rfl⟩ : ∃ after, text = before ++ after :=
    ⟨dropBytes offset text, by rw [← hbefore, takeBytes_append_dropBytes]⟩
  have hfloor : floorBoundary (before ++ after) offset = byteLength before := by
    rw [floorBoundary, hbefore]
  have hline : (ofChars (before ++ after)).lineOf (byteLength before) = before.count '\n' := by
    rw [lineOf, linesThrough_append, Nat.add_sub_cancel]
  have hstart := (isLine_append before after).lineStart_eq
  have hslice : slice (before ++ after) (byteLength (linesBefore before)) (byteLength before) =
      lastLine before := by
    have hcut := slice_append (linesBefore before) (lastLine before) after
    rwa [← byteLength_append, linesBefore_append_lastLine] at hcut
  simp only [position, hfloor, hline, hstart, hslice]

/-! ## Columns -/

/-- The characters of a line before a column, which are those that `columnBytes` counts. -/
def beforeColumn (column : Nat) : List Char → List Char
  | [] => []
  | c :: line => if column = 0 then [] else c :: beforeColumn (column - utf16Units c) line

theorem byteLength_beforeColumn (column : Nat) (line : List Char) :
    byteLength (beforeColumn column line) = columnBytes column line := by
  induction line generalizing column with
  | nil => rfl
  | cons c line ih =>
    rw [beforeColumn, columnBytes]
    split
    · rfl
    · rw [byteLength_cons, ih]

/-- A beginning of a line that ends before a column is kept whole. -/
theorem beforeColumn_append {column : Nat} {front : List Char} (hfront : utf16Length front ≤ column)
    (rest : List Char) :
    beforeColumn column (front ++ rest) =
      front ++ beforeColumn (column - utf16Length front) rest := by
  induction front generalizing column with
  | nil => rfl
  | cons c front ih =>
    have hpos := utf16Units_pos c
    rw [utf16Length_cons] at hfront
    rw [List.cons_append, beforeColumn, if_neg (by omega), ih (by omega), utf16Length_cons,
      Nat.sub_add_eq, List.cons_append]

theorem beforeColumn_of_le {column : Nat} {line : List Char} (hpast : utf16Length line ≤ column) :
    beforeColumn column line = line := by
  have hkept := beforeColumn_append hpast []
  rwa [List.append_nil, beforeColumn, List.append_nil] at hkept

theorem beforeColumn_zero (line : List Char) : beforeColumn 0 line = [] := by
  cases line <;> rfl

theorem columnBytes_append (column rest : List Char) :
    columnBytes (utf16Length column) (column ++ rest) = byteLength column := by
  rw [← byteLength_beforeColumn, beforeColumn_append (Nat.le_refl _), Nat.sub_self,
    beforeColumn_zero, List.append_nil]

theorem columnBytes_of_le {column : Nat} {line : List Char} (hpast : utf16Length line ≤ column) :
    columnBytes column line = byteLength line := by
  rw [← byteLength_beforeColumn, beforeColumn_of_le hpast]

theorem stripReturn_append {column rest : List Char}
    (hkept : rest = [] → column.getLast? ≠ some '\r') :
    stripReturn (column ++ rest) = column ++ stripReturn rest := by
  by_cases hempty : rest = []
  · have hlast := hkept hempty
    subst hempty
    simp [stripReturn, hlast]
  · unfold stripReturn
    rw [List.getLast?_append_of_ne_nil _ hempty, List.dropLast_append_of_ne_nil hempty]
    split <;> rfl

/-- A column of the line that holds a cut is looked up in what lies between the line feeds around
the cut, without the carriage return at its end. -/
theorem offset_of_line {before after : List Char} {position : Position}
    (hline : position.line.toNat = before.count '\n') :
    (ofChars (before ++ after)).offset (before ++ after) position =
      byteLength (linesBefore before) + columnBytes position.character.toNat
        (stripReturn (lastLine before ++ after.takeWhile (· != '\n'))) := by
  have hcut := isLine_append before after
  rw [← hline] at hcut
  exact hcut.offset_eq

theorem takeWhile_eq_nil_iff {after : List Char} :
    after.takeWhile (· != '\n') = [] ↔ EndsLine after := by
  cases after with
  | nil => simp [EndsLine]
  | cons c after => simp [EndsLine, List.takeWhile_cons]

/-- The position that a scan finds leads back to where the scan ended. -/
theorem offset_append {before after : List Char} {position : Position}
    (hreturn : ¬ (before.getLast? = some '\r' ∧ EndsLine after))
    (hline : position.line.toNat = before.count '\n')
    (hcolumn : position.character.toNat = utf16Length (lastLine before)) :
    (ofChars (before ++ after)).offset (before ++ after) position = byteLength before := by
  have hkept : after.takeWhile (· != '\n') = [] → (lastLine before).getLast? ≠ some '\r' := by
    intro hempty hlast
    have hbefore : before.getLast? = some '\r' := by
      rw [← linesBefore_append_lastLine before, List.getLast?_append, hlast]
      rfl
    exact hreturn ⟨hbefore, takeWhile_eq_nil_iff.1 hempty⟩
  rw [offset_of_line hline, hcolumn, stripReturn_append hkept, columnBytes_append,
    ← byteLength_append, linesBefore_append_lastLine]

/-- The position behind a carriage return that ends its line leads to the place in front of it. -/
theorem offset_append_return {front after : List Char} {position : Position}
    (hends : EndsLine after) (hline : position.line.toNat = (front ++ ['\r']).count '\n')
    (hcolumn : position.character.toNat = utf16Length (lastLine (front ++ ['\r']))) :
    (ofChars (front ++ ['\r'] ++ after)).offset (front ++ ['\r'] ++ after) position =
      byteLength front := by
  have hlast : lastLine (front ++ ['\r']) = lastLine front ++ ['\r'] :=
    List.rtakeWhile_concat_pos _ _ _ rfl
  have hbefore : linesBefore (front ++ ['\r']) = linesBefore front :=
    List.rdropWhile_concat_pos _ _ _ rfl
  have hstrip : stripReturn (lastLine front ++ ['\r']) = lastLine front := by
    simp [stripReturn]
  have hpast : utf16Length (lastLine front) ≤ position.character.toNat := by
    rw [hcolumn, hlast, utf16Length_append]
    omega
  rw [offset_of_line hline, hlast, hbefore, takeWhile_eq_nil_iff.2 hends, List.append_nil, hstrip,
    columnBytes_of_le hpast, ← byteLength_append, linesBefore_append_lastLine]

/-- In a text of less than 4 GiB, no position is too large for its 32 bits. -/
theorem toNat_position {text : List Char} (hsize : byteLength text < 2 ^ 32) (offset : Nat) :
    ((ofChars text).position text offset).line.toNat = (takeBytes offset text).count '\n' ∧
      ((ofChars text).position text offset).character.toNat =
        utf16Length (lastLine (takeBytes offset text)) := by
  have htext := congrArg byteLength (takeBytes_append_dropBytes offset text)
  rw [byteLength_append] at htext
  have hcount : (takeBytes offset text).count '\n' ≤ byteLength (takeBytes offset text) :=
    List.count_le_length.trans (length_le_byteLength _)
  have hcolumn : utf16Length (lastLine (takeBytes offset text)) ≤
      byteLength (takeBytes offset text) := by
    have hlast := utf16Length_le_byteLength (lastLine (takeBytes offset text))
    have hcut := congrArg byteLength (linesBefore_append_lastLine (takeBytes offset text))
    rw [byteLength_append] at hcut
    omega
  have hline : (takeBytes offset text).count '\n' < 2 ^ 32 := by omega
  have hcharacter : utf16Length (lastLine (takeBytes offset text)) < 2 ^ 32 := by omega
  rw [position_eq]
  exact ⟨UInt32.toNat_ofNat_of_lt hline, UInt32.toNat_ofNat_of_lt hcharacter⟩

/-- Going from a boundary to its position and back returns to the boundary. -/
theorem offset_position {text : List Char} {offset : Nat} (hsize : byteLength text < 2 ^ 32)
    (hboundary : IsBoundary text offset) (hreturn : ¬ AfterLineReturn text offset) :
    (ofChars text).offset text ((ofChars text).position text offset) = offset := by
  obtain ⟨hline, hcolumn⟩ := toNat_position hsize offset
  obtain ⟨before, after, rfl, rfl⟩ := hboundary.exists_append
  rw [AfterLineReturn, takeBytes_append, dropBytes_append] at hreturn
  rw [takeBytes_append] at hline hcolumn
  exact offset_append hreturn hline hcolumn

/-- Behind a carriage return that ends its line, going to the position and back ends in front of the
carriage return. -/
theorem offset_position_return {text : List Char} {offset : Nat} (hsize : byteLength text < 2 ^ 32)
    (hboundary : IsBoundary text offset) (hreturn : AfterLineReturn text offset) :
    (ofChars text).offset text ((ofChars text).position text offset) = offset - 1 := by
  obtain ⟨hline, hcolumn⟩ := toNat_position hsize offset
  obtain ⟨before, after, rfl, rfl⟩ := hboundary.exists_append
  rw [AfterLineReturn, takeBytes_append, dropBytes_append] at hreturn
  rw [takeBytes_append] at hline hcolumn
  obtain ⟨hlast, hends⟩ := hreturn
  obtain ⟨front, rfl⟩ : ∃ front, before = front ++ ['\r'] :=
    ⟨before.dropLast, (List.dropLast_append_getLast? _ hlast).symm⟩
  have hsize' : byteLength (front ++ ['\r']) = byteLength front + 1 := byteLength_append ..
  rw [offset_append_return hends hline hcolumn, hsize', Nat.add_sub_cancel]

/-- Looking up the position of a boundary returns to the boundary, with one exception: behind a
carriage return that is followed by a line feed or ends the text, it returns to the place in front
of the carriage return. -/
theorem offset_undoes_position {text : String} {offset : Nat}
    (hsize : byteLength text.toList < 2 ^ 32) (hboundary : IsBoundary text.toList offset) :
    (ofText text).offset text.toList ((ofText text).position text.toList offset) =
      if AfterLineReturn text.toList offset then offset - 1 else offset := by
  split
  · next hreturn => exact offset_position_return hsize hboundary hreturn
  · next hreturn => exact offset_position hsize hboundary hreturn

/-- Two carriage returns of which the second ends its line, an astral character, and a carriage
return at the end. -/
def returnsText : String := "\r\r\n😀\n\r"

theorem offset_undoes_position_returns :
    (∀ offset ∈ [0, 1, 2, 3, 7, 8, 9],
      byteLength returnsText.toList < 2 ^ 32 ∧ IsBoundary returnsText.toList offset) ∧
    [0, 1, 2, 3, 7, 8, 9].map (fun offset ↦ (ofText returnsText).offset returnsText.toList
      ((ofText returnsText).position returnsText.toList offset)) = [0, 1, 1, 3, 7, 8, 8] := by
  have hfits : ∀ offset ∈ [0, 1, 2, 3, 7, 8, 9],
      byteLength returnsText.toList < 2 ^ 32 ∧ IsBoundary returnsText.toList offset := by
    decide +kernel
  refine ⟨hfits, ?_⟩
  rw [List.map_congr_left fun offset hmem ↦
    offset_undoes_position (hfits offset hmem).1 (hfits offset hmem).2]
  decide +kernel

end LineIndex

end LinkedJson
