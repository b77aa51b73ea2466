/-!
# Parts of a text

Texts are trimmed of characters that are not wanted at their ends, and split at characters that
divide them.
-/

namespace LinkedJson.Text

def trimEnd (unwanted : Char → Bool) (text : List Char) : List Char :=
  (text.reverse.dropWhile unwanted).reverse

def trim (unwanted : Char → Bool) (text : List Char) : List Char :=
  trimEnd unwanted (text.dropWhile unwanted)

/-- The parts of a text between separators; a text without one is a single part. -/
def splitOn (isSeparator : Char → Bool) : List Char → List (List Char)
  | [] => [[]]
  | c :: rest =>
    if isSeparator c then
      [] :: splitOn isSeparator rest
    else
      match splitOn isSeparator rest with
      | part :: parts => (c :: part) :: parts
      | [] => [[c]]

theorem splitOn_ne_nil (isSeparator : Char → Bool) (text : List Char) :
    splitOn isSeparator text ≠ [] := by
  cases text with
  | nil => simp [splitOn]
  | cons c rest =>
    unfold splitOn
    split
    · simp
    · split <;> simp

end LinkedJson.Text
