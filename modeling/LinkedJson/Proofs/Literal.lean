import LinkedJson.Proofs.Grammar.Values
import LinkedJson.Proofs.Text.Trimming
import LinkedJson.Reading

/-!
# Literals that cannot be decoded

A literal that cannot be decoded stands for its source, from which the quotes at both ends have been
trimmed. No quote begins the text between them, but an escaped quote may end it, and then that quote
is trimmed as well and its backslash is left behind. A backslash that is left so escapes nothing, so
it shows what was lost: two literals with one value are the same.
-/

namespace LinkedJson

namespace Grammar.IsBody

variable {body : List Char}

theorem head?_ne (hbody : IsBody body) : body.head? ≠ some '"' := by
  cases hbody with
  | nil => exact fun hhead ↦ by cases hhead
  | plain hquote => exact fun hhead ↦ hquote (Option.some.inj hhead)
  | escape => exact fun hhead ↦ absurd (Option.some.inj hhead) (by decide)

/-- A quote at the end is escaped. -/
theorem exists_of_getLast? (hbody : IsBody body) (hlast : body.getLast? = some '"') :
    ∃ start, body = start ++ ['\\', '"'] := by
  induction hbody with
  | nil => cases hlast
  | @plain c rest hquote hbackslash hfeed hrest ih =>
    cases rest with
    | nil => exact absurd (Option.some.inj hlast) hquote
    | cons d rest =>
      obtain ⟨start, hstart⟩ := ih (by rwa [List.getLast?_cons_cons] at hlast)
      exact ⟨c :: start, by rw [hstart]; rfl⟩
  | @escape c rest hescape hrest ih =>
    cases rest with
    | nil =>
      obtain rfl : c = '"' := Option.some.inj hlast
      exact ⟨[], rfl⟩
    | cons d rest =>
      rw [List.getLast?_cons_cons, List.getLast?_cons_cons] at hlast
      obtain ⟨start, hstart⟩ := ih hlast
      exact ⟨'\\' :: c :: start, by rw [hstart]; rfl⟩

theorem tail {c : Char} (hbody : IsBody (c :: body)) (hbackslash : c ≠ '\\') : IsBody body := by
  cases hbody with
  | plain _ _ _ hrest => exact hrest
  | escape => exact absurd rfl hbackslash

theorem behind_escape {c : Char} (hbody : IsBody ('\\' :: c :: body)) : IsBody body := by
  cases hbody with
  | plain _ hbackslash => exact absurd rfl hbackslash
  | escape _ hrest => exact hrest

/-- What may stand between quotes ends at the first quote that is not escaped. -/
theorem not_concat (hbody : IsBody body) : ¬ IsBody (body ++ ['"']) := by
  induction hbody with
  | nil => exact fun hlonger ↦ hlonger.head?_ne rfl
  | plain _ hbackslash _ _ ih => exact fun hlonger ↦ ih (tail hlonger hbackslash)
  | escape _ _ ih => exact fun hlonger ↦ ih (behind_escape hlonger)

end Grammar.IsBody

namespace Literal

open LinkedJson.Grammar

variable {body : List Char}

theorem trim_literal : Text.trim Text.isBlank (literal body) = literal body := by
  refine Text.trim_eq_self (fun c hc ↦ ?_) fun c hc ↦ ?_
  · cases hc
    rfl
  · rw [literal, ← List.cons_append, List.getLast?_concat] at hc
    cases hc
    rfl

/-- The quotes around a text are trimmed together with those at its end. -/
theorem undecoded_literal (hbody : IsBody body) (hne : body ≠ []) :
    undecoded (literal body) = Text.trimEnd (· == '"') body := by
  obtain ⟨c, rest, rfl⟩ := List.exists_cons_of_ne_nil hne
  have hfirst : ¬ (c == '"') = true :=
    fun hquote ↦ hbody.head?_ne (congrArg some (beq_iff_eq.1 hquote))
  calc undecoded (literal (c :: rest))
      = Text.trimEnd (· == '"') ((c :: (rest ++ ['"'])).dropWhile (· == '"')) := by
        rw [undecoded, trim_literal]
        rfl
    _ = Text.trimEnd (· == '"') (c :: rest) := by
        rw [List.dropWhile_cons, if_neg hfirst, ← List.cons_append, Text.trimEnd_concat rfl]

theorem body_ne_nil (hreject : decode? (literal body) = none) : body ≠ [] := by
  rintro rfl
  cases hreject

theorem value_of_decode?_eq_none (hbody : IsBody body)
    (hreject : decode? (literal body) = none) :
    value (literal body) = String.ofList (Text.trimEnd (· == '"') body) := by
  rw [value, hreject, Option.getD_none, undecoded_literal hbody (body_ne_nil hreject)]

theorem trimEnd_of_not_suffix (hbody : IsBody body) (hplain : ¬ ['\\', '"'] <:+ body) :
    Text.trimEnd (· == '"') body = body := by
  refine Text.trimEnd_eq_self fun c hc ↦ beq_eq_false_iff_ne.2 ?_
  rintro rfl
  obtain ⟨start, hstart⟩ := hbody.exists_of_getLast? hc
  exact hplain ⟨start, hstart.symm⟩

theorem trimEnd_escaped (start : List Char) :
    Text.trimEnd (· == '"') (start ++ ['\\', '"']) = start ++ ['\\'] := by
  rw [List.append_cons, Text.trimEnd_concat rfl]
  refine Text.trimEnd_eq_self fun c hc ↦ ?_
  rw [List.getLast?_concat] at hc
  cases hc
  rfl

/-- At most one quote is trimmed from the end of a text that may stand between quotes. -/
theorem trimEnd_cases (hbody : IsBody body) :
    Text.trimEnd (· == '"') body = body ∨ Text.trimEnd (· == '"') body ++ ['"'] = body := by
  by_cases hsuffix : ['\\', '"'] <:+ body
  · obtain ⟨start, rfl⟩ := hsuffix
    rw [trimEnd_escaped, List.append_assoc]
    exact .inr rfl
  · exact .inl (trimEnd_of_not_suffix hbody hsuffix)

/-- What is left of two texts between quotes tells them apart. -/
theorem eq_of_trimEnd_eq {other : List Char} (hbody : IsBody body) (hother : IsBody other)
    (heq : Text.trimEnd (· == '"') body = Text.trimEnd (· == '"') other) : body = other := by
  rcases trimEnd_cases hbody with hkept | hlost <;>
    rcases trimEnd_cases hother with hkept' | hlost'
  · rw [← hkept, heq, hkept']
  · rw [← hlost', ← heq, hkept] at hother
    exact absurd hother hbody.not_concat
  · rw [← hlost, heq, hkept'] at hbody
    exact absurd hbody hother.not_concat
  · rw [← hlost, heq, hlost']

end Literal

open LinkedJson.Grammar

/-- The value of a literal that cannot be decoded is the text between its quotes, except that an
escaped quote at the end of the text is lost and its backslash stays. No two such literals have one
value. -/
theorem undecodable_literal_value {text : List Char} {tree : Tree} (hkind : tree.kind = .string)
    (hsound : tree.isFault = false) {body : List Char} (hbody : IsBody body)
    (hchars : tree.chars text = literal body)
    (hreject : Literal.decode? (literal body) = none) :
    ∃ value, tree.node? text = some (.string (String.ofList value) tree.span) ∧
      (¬ ['\\', '"'] <:+ body → value = body) ∧
      (∀ start, body = start ++ ['\\', '"'] → value = start ++ ['\\']) ∧
      ∀ other, IsBody other → Literal.decode? (literal other) = none →
        Literal.value (literal other) = String.ofList value → other = body := by
  refine ⟨Text.trimEnd (· == '"') body, ?_, ?_, ?_, ?_⟩
  · rw [Tree.node?_of_string text hkind hsound, hchars,
      Literal.value_of_decode?_eq_none hbody hreject]
  · exact Literal.trimEnd_of_not_suffix hbody
  · rintro start rfl
    exact Literal.trimEnd_escaped start
  · intro other hother hrejected hvalue
    rw [Literal.value_of_decode?_eq_none hother hrejected] at hvalue
    exact Literal.eq_of_trimEnd_eq hother hbody (String.ofList_injective hvalue)

/-- An escape without its digits before an escaped quote. -/
def brokenBody : List Char :=
  ['\\', 'u', '\\', '"']

theorem isBody_brokenBody : IsBody brokenBody :=
  .escape (by decide) (.escape (by decide) .nil)

/-- The literal is the only element of an array. -/
theorem undecodable_literal_value_element :
    ∃ value, Tree.node? ('[' :: (literal brokenBody ++ [']'])) (.node .string 1 7 false []) =
        some (.string (String.ofList value) ⟨1, 6⟩) ∧
      value = ['\\', 'u', '\\'] := by
  have hchars : Tree.chars ('[' :: (literal brokenBody ++ [']'])) (.node .string 1 7 false []) =
      literal brokenBody := by decide
  obtain ⟨value, hvalue, -, hlost, -⟩ :=
    undecodable_literal_value rfl rfl isBody_brokenBody hchars (by decide)
  exact ⟨value, hvalue, hlost ['\\', 'u'] rfl⟩

/-- A text of the grammar whose only value is a literal that cannot be decoded, and the value is not
the text between its quotes. -/
theorem escaped_quote_lost :
    IsBody brokenBody ∧ Literal.decode? (literal brokenBody) = none ∧
    (tree? (literal brokenBody)).map (Reading.ofTree (literal brokenBody)) =
      some ⟨some (.string "\\u\\" ⟨0, 6⟩), []⟩ ∧
    "\\u\\" ≠ String.ofList brokenBody :=
  ⟨isBody_brokenBody, by decide, rfl, by decide⟩

end LinkedJson
