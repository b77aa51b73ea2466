import LinkedJson.Symbol.Declared

/-!
# Pointers and their steps

A pointer is grown by one step after another, each put behind a slash as it is. As long as no step
has a slash in it, the steps can be told from the pointer again. The steps into arrays are numbers
in decimal digits, and `decimal?` reads them back: it takes the digits of a number without a zero in
front, and nothing else.
-/

namespace LinkedJson

/-- The pointer that steps lead to from another one. -/
def descend (path : String) (steps : List String) : String :=
  steps.foldl stepInto path

theorem descend_nil (path : String) : descend path [] = path := rfl

theorem descend_cons (path step : String) (steps : List String) :
    descend path (step :: steps) = descend (stepInto path step) steps := rfl

theorem descend_eq_append (path : String) {steps : List String} (hsteps : steps ≠ []) :
    descend path steps = path ++ ("/" ++ "/".intercalate steps) := by
  induction steps generalizing path with
  | nil => exact absurd rfl hsteps
  | cons step steps ih =>
    rw [descend_cons]
    cases steps with
    | nil => simp [descend_nil, stepInto, String.append_assoc]
    | cons next steps => simp [ih, stepInto, String.append_assoc]

theorem descend_ne (path : String) {steps : List String} (hsteps : steps ≠ []) :
    descend path steps ≠ path := by
  intro hpath
  rw [descend_eq_append path hsteps] at hpath
  simpa using congrArg String.length hpath

/-- Steps without slashes are told from the pointer that they lead to. -/
theorem descend_injective {path : String} {first second : List String}
    (hfirst : ∀ step ∈ first, '/' ∉ step.toList) (hsecond : ∀ step ∈ second, '/' ∉ step.toList)
    (hsame : descend path first = descend path second) : first = second := by
  have hcut : ∀ {steps : List String}, (∀ step ∈ steps, '/' ∉ step.toList) → steps ≠ [] →
      (("/".intercalate steps).toList.splitOn '/') = steps.map String.toList := by
    intro steps hsteps hne
    rw [String.toList_intercalate]
    exact List.splitOn_intercalate '/' (by simpa using hsteps) (by simpa using hne)
  by_cases hnone : first = []
  · by_cases hnone' : second = []
    · rw [hnone, hnone']
    · rw [hnone, descend_nil] at hsame
      exact absurd hsame.symm (descend_ne path hnone')
  · by_cases hnone' : second = []
    · rw [hnone', descend_nil] at hsame
      exact absurd hsame (descend_ne path hnone)
    · rw [descend_eq_append path hnone, descend_eq_append path hnone'] at hsame
      have hjoined := (String.append_right_inj "/").1 ((String.append_right_inj path).1 hsame)
      have hlists := hcut hfirst hnone
      rw [hjoined, hcut hsecond hnone'] at hlists
      exact (List.map_inj_right fun _ _ ↦ String.toList_inj.1).1 hlists.symm

/-! ## Numbers as steps -/

/-- The number that a text writes in decimal digits, without a zero in front of others. -/
def decimal? (text : String) : Option Nat :=
  let digits := text.toList
  if digits ≠ [] ∧ digits.all Char.isDigit ∧ (digits.head? = some '0' → digits = ['0']) then
    some (Nat.ofDigitChars 10 digits 0)
  else
    none

theorem digitChar_of_isDigit {c : Char} (hdigit : c.isDigit = true) :
    c.toNat - '0'.toNat < 10 ∧ Nat.digitChar (c.toNat - '0'.toNat) = c := by
  obtain ⟨hlow, hhigh⟩ := Char.isDigit_iff_toNat.1 hdigit
  have hzero : '0'.toNat = 48 := rfl
  have hnine : '9'.toNat = 57 := rfl
  have hlt : c.toNat - '0'.toNat < 10 := by omega
  refine ⟨hlt, Char.toNat_inj.1 ?_⟩
  rw [Nat.toNat_digitChar_of_lt_ten hlt]
  omega

/-- Digits behind a number other than zero are written behind its digits. -/
theorem toDigits_ofDigitChars {digits : List Char}
    (hdigits : ∀ c ∈ digits, c.isDigit = true) {number : Nat} (hpos : 0 < number) :
    Nat.toDigits 10 (Nat.ofDigitChars 10 digits number) = Nat.toDigits 10 number ++ digits := by
  induction digits generalizing number with
  | nil => simp
  | cons c digits ih =>
    obtain ⟨hc, hrest⟩ := List.forall_mem_cons.1 hdigits
    obtain ⟨hlt, hchar⟩ := digitChar_of_isDigit hc
    have hnext : 0 < 10 * number + (c.toNat - '0'.toNat) := by omega
    rw [Nat.ofDigitChars_cons, ih hrest hnext,
      ← Nat.toDigits_append_toDigits (by decide) hpos hlt, Nat.toDigits_of_lt_base hlt, hchar,
      List.append_assoc, List.singleton_append]

theorem head?_toDigits {number : Nat} (hpos : 0 < number) :
    (Nat.toDigits 10 number).head? ≠ some '0' := by
  induction number using Nat.strongRecOn with
  | ind number ih =>
    rw [Nat.toDigits_eq_if (by decide)]
    split
    · next hlt =>
      have hchar : number.digitChar.toNat = 48 + number := Nat.toNat_digitChar_of_lt_ten hlt
      intro hhead
      rw [List.head?_cons, Option.some.injEq] at hhead
      have hzero : '0'.toNat = 48 := rfl
      rw [hhead] at hchar
      omega
    · next hle =>
      have hquotient := ih (number / 10) (by omega) (by omega)
      rwa [List.head?_append, Option.or_of_isSome (by simp [Nat.toDigits_ne_nil])]

theorem toList_toString (number : Nat) : (toString number).toList = Nat.toDigits 10 number := by
  rw [Nat.toString_eq_ofList_toDigits, String.toList_ofList]

theorem decimal?_toString (number : Nat) : decimal? (toString number) = some number := by
  have hdigits : (Nat.toDigits 10 number).all Char.isDigit = true :=
    List.all_eq_true.2 fun c hc ↦ Nat.isDigit_of_mem_toDigits (by decide) (by decide) hc
  have hhead : (Nat.toDigits 10 number).head? = some '0' → Nat.toDigits 10 number = ['0'] := by
    intro hzero
    rcases Nat.eq_zero_or_pos number with rfl | hpos
    · exact Nat.toDigits_zero 10
    · exact absurd hzero (head?_toDigits hpos)
  rw [decimal?, toList_toString, if_pos ⟨Nat.toDigits_ne_nil, hdigits, hhead⟩,
    Nat.ofDigitChars_ten_toDigits]

/-- The digits of a number are read as that number, and no other text is. -/
theorem decimal?_eq_some_iff {text : String} {number : Nat} :
    decimal? text = some number ↔ text = toString number := by
  constructor
  · intro hread
    simp only [decimal?] at hread
    split at hread
    · next hcanonical =>
      obtain ⟨hne, hdigits, hhead⟩ := hcanonical
      cases hread
      rw [← String.toList_inj, toList_toString]
      cases hlist : text.toList with
      | nil => exact absurd hlist hne
      | cons first rest =>
        rw [hlist] at hdigits hhead
        obtain ⟨hfirst, hrest⟩ := List.forall_mem_cons.1 (List.all_eq_true.1 hdigits)
        obtain ⟨hlt, hchar⟩ := digitChar_of_isDigit hfirst
        by_cases hzero : first = '0'
        · rw [hhead (by rw [hzero]; rfl)]
          rfl
        · have hpos : 0 < first.toNat - '0'.toNat := by
            rcases Nat.eq_zero_or_pos (first.toNat - '0'.toNat) with hnone | hpos
            · rw [hnone] at hchar
              exact absurd hchar.symm hzero
            · exact hpos
          rw [Nat.ofDigitChars_cons, Nat.mul_zero, Nat.zero_add,
            toDigits_ofDigitChars hrest hpos, Nat.toDigits_of_lt_base hlt, hchar,
            List.singleton_append]
    · cases hread
  · rintro rfl
    exact decimal?_toString number

theorem toString_injective {first second : Nat} (hsame : toString first = toString second) :
    first = second :=
  Option.some.inj ((decimal?_toString first).symm.trans (decimal?_eq_some_iff.2 hsame))

theorem not_mem_toString (number : Nat) : '/' ∉ (toString number).toList := by
  rw [toList_toString]
  intro hmem
  have hdigit := Nat.isDigit_of_mem_toDigits (by decide) (by decide) hmem
  cases hdigit

end LinkedJson
