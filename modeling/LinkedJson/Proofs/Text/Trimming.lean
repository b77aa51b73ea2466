import LinkedJson.Text.Parts
import Mathlib.Data.List.DropRight

/-!
# Trimming texts

Trimming takes nothing from a text whose first and last characters are wanted, and what it leaves
ends with a wanted character.
-/

namespace LinkedJson.Text

variable {unwanted : Char → Bool} {text : List Char}

theorem trimEnd_eq_self (hlast : ∀ c ∈ text.getLast?, unwanted c = false) :
    trimEnd unwanted text = text := by
  refine List.rdropWhile_eq_self_iff.2 fun hne hunwanted ↦ ?_
  have hkept := hlast _ (List.getLast?_eq_some_getLast hne)
  rw [hunwanted] at hkept
  cases hkept

theorem trimEnd_concat {c : Char} (hunwanted : unwanted c = true) :
    trimEnd unwanted (text ++ [c]) = trimEnd unwanted text :=
  List.rdropWhile_concat_pos unwanted text c hunwanted

theorem trim_eq_self (hfirst : ∀ c ∈ text.head?, unwanted c = false)
    (hlast : ∀ c ∈ text.getLast?, unwanted c = false) : trim unwanted text = text := by
  have hkept : text.dropWhile unwanted = text := by
    refine List.dropWhile_eq_self_iff.2 fun hpos ↦ Bool.not_eq_true _ ▸ hfirst _ ?_
    rw [List.head?_eq_getElem?, List.getElem?_eq_getElem hpos]
    rfl
  rw [trim, hkept, trimEnd_eq_self hlast]

theorem getLast?_trim {c : Char} (hlast : (trim unwanted text).getLast? = some c) :
    unwanted c = false := by
  have hne : trim unwanted text ≠ [] := by
    intro hnil
    rw [hnil] at hlast
    cases hlast
  rw [List.getLast?_eq_some_getLast hne] at hlast
  cases hlast
  exact Bool.eq_false_iff.2 (List.rdropWhile_last_not _ _ hne)

end LinkedJson.Text
