/-!
# Byte offsets into text

A text is a list of characters, and an offset into it counts the bytes of its UTF-8 form. An offset
is a boundary when it falls between two characters. Cutting a text at an arbitrary offset keeps
whole characters only: `takeBytes` is the longest beginning that fits, and `dropBytes` is what
follows it.
Columns of a position count UTF-16 code units instead, which `utf16Length` measures.
-/

namespace LinkedJson.Text

def byteLength : List Char → Nat
  | [] => 0
  | c :: text => c.utf8Size + byteLength text

@[simp]
theorem byteLength_nil : byteLength [] = 0 := rfl

@[simp]
theorem byteLength_cons (c : Char) (text : List Char) :
    byteLength (c :: text) = c.utf8Size + byteLength text := rfl

@[simp]
theorem byteLength_append (first second : List Char) :
    byteLength (first ++ second) = byteLength first + byteLength second := by
  induction first with
  | nil => simp
  | cons c first ih => simp [ih, Nat.add_assoc]

/-- The longest beginning of a text that takes at most `count` bytes. -/
def takeBytes (count : Nat) : List Char → List Char
  | [] => []
  | c :: text => if c.utf8Size ≤ count then c :: takeBytes (count - c.utf8Size) text else []

def dropBytes (count : Nat) : List Char → List Char
  | [] => []
  | c :: text => if c.utf8Size ≤ count then dropBytes (count - c.utf8Size) text else c :: text

theorem takeBytes_append_dropBytes (count : Nat) (text : List Char) :
    takeBytes count text ++ dropBytes count text = text := by
  induction text generalizing count with
  | nil => rfl
  | cons c text ih =>
    by_cases hfits : c.utf8Size ≤ count
    · simp [takeBytes, dropBytes, hfits, ih]
    · simp [takeBytes, dropBytes, hfits]

theorem byteLength_takeBytes_le (count : Nat) (text : List Char) :
    byteLength (takeBytes count text) ≤ count := by
  induction text generalizing count with
  | nil => simp [takeBytes]
  | cons c text ih =>
    by_cases hfits : c.utf8Size ≤ count
    · have hrest := ih (count - c.utf8Size)
      simp [takeBytes, hfits]
      omega
    · simp [takeBytes, hfits]

/-- An offset is a boundary when it lies between two characters or at an end of the text. -/
def IsBoundary (text : List Char) (offset : Nat) : Prop :=
  byteLength (takeBytes offset text) = offset

instance (text : List Char) (offset : Nat) : Decidable (IsBoundary text offset) :=
  inferInstanceAs (Decidable (byteLength (takeBytes offset text) = offset))

/-- The last boundary at or before an offset; past the end it is the end of the text. -/
def floorBoundary (text : List Char) (offset : Nat) : Nat :=
  byteLength (takeBytes offset text)

def slice (text : List Char) (start stop : Nat) : List Char :=
  takeBytes (stop - start) (dropBytes start text)

/-- A text with the part between two boundaries replaced. -/
def splice (text : List Char) (start stop : Nat) (replacement : List Char) : List Char :=
  takeBytes start text ++ replacement ++ dropBytes stop text

/-- Characters beyond the basic plane take two UTF-16 code units, all others one. -/
def utf16Units (c : Char) : Nat :=
  if c.toNat < 0x10000 then 1 else 2

def utf16Length : List Char → Nat
  | [] => 0
  | c :: text => utf16Units c + utf16Length text

@[simp]
theorem utf16Length_nil : utf16Length [] = 0 := rfl

@[simp]
theorem utf16Length_cons (c : Char) (text : List Char) :
    utf16Length (c :: text) = utf16Units c + utf16Length text := rfl

@[simp]
theorem utf16Length_append (first second : List Char) :
    utf16Length (first ++ second) = utf16Length first + utf16Length second := by
  induction first with
  | nil => simp
  | cons c first ih => simp [ih, Nat.add_assoc]

end LinkedJson.Text
