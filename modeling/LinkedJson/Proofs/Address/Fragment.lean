import LinkedJson.Proofs.Address.Percent
import LinkedJson.Proofs.Text.Trimming
import LinkedJson.Reference

/-!
# References that are a fragment

A reference that is only a fragment leads to the document that it stands in. The address of that
document is the base without its fragment. Taking the fragment away also trims a path without
structure, and a base that never had a fragment comes back unchanged because reading an address
leaves no blank at the end of such a path.
-/

namespace LinkedJson

namespace Percent

theorem encode_append (set : Char → Bool) (first second : List Char) :
    encode set (first ++ second) = encode set first ++ encode set second :=
  List.flatMap_append

theorem encode_eq_self {set : Char → Bool} {text : List Char}
    (hkept : ∀ c ∈ text, c.toNat < 0x80 ∧ set c = false) : encode set text = text := by
  induction text with
  | nil => rfl
  | cons c rest ih =>
    obtain ⟨⟨hascii, hset⟩, hrest⟩ := List.forall_mem_cons.1 hkept
    have hc : encode set [c] = [c] := by simp [encode, hascii, hset]
    rw [← List.singleton_append, encode_append, hc, ih hrest]

theorem utf8EncodeChar_ne_nil (c : Char) : String.utf8EncodeChar c ≠ [] := by
  rw [← List.length_pos_iff, String.length_utf8EncodeChar]
  exact c.utf8Size_pos

theorem encode_singleton_ne_nil (set : Char → Bool) (c : Char) : encode set [c] ≠ [] := by
  obtain ⟨byte, bytes, hcons⟩ := List.exists_cons_of_ne_nil (utf8EncodeChar_ne_nil c)
  rw [encode, List.flatMap_singleton, encodeChar, hcons]
  split <;> exact List.cons_ne_nil _ _

theorem IsEscapeChar.visible {c : Char} (hescape : IsEscapeChar c) : 0x20 < c.toNat := by
  rcases hescape.bounds with rfl | hdigit
  · decide
  · omega

theorem IsEscapeChar.kept {c : Char} (hescape : IsEscapeChar c) :
    c.toNat < 0x80 ∧ fragmentSet c = false := by
  rcases hescape.bounds with rfl | hdigit
  · decide
  · refine ⟨by omega, ?_⟩
    rw [Bool.eq_false_iff]
    intro hset
    simp only [fragmentSet, controls, Bool.or_eq_true, decide_eq_true_eq, beq_iff_eq,
      List.mem_cons, List.not_mem_nil, or_false] at hset
    rcases hset with (hlow | hdelete) | rfl | rfl | rfl | rfl | rfl
    · omega
    · omega
    all_goals exact absurd hdigit (by decide)

theorem visible_encode_singleton (set : Char → Bool) {c : Char} (hvisible : 0x20 < c.toNat) :
    ∀ d ∈ encode set [c], 0x20 < d.toNat := by
  rw [encode, List.flatMap_singleton]
  split
  · simpa using hvisible
  · exact fun d hd ↦ ((escapes_flatMap_encodeByte _).isEscapeChar d hd).visible

end Percent

namespace Address

theorem isBreak_of_visible {c : Char} (hvisible : 0x20 < c.toNat) : isBreak c = false := by
  by_contra hbreak
  simp only [isBreak, Bool.not_eq_false, Bool.or_eq_true, beq_iff_eq] at hbreak
  rcases hbreak with (rfl | rfl) | rfl <;> exact absurd hvisible (by decide)

theorem read_of_splitScheme?_eq_none {base : Address} {text : String}
    (hscheme : splitScheme? (tidy text.toList) = none) :
    read (some base) text = readRelative base (tidy text.toList) := by
  simp only [read, hscheme]

theorem read_of_splitScheme?_eq_some {base : Option Address} {text scheme : String}
    {rest : List Char} (hscheme : splitScheme? (tidy text.toList) = some (scheme, rest)) :
    read base text = readAbsolute base scheme rest := by
  simp only [read, hscheme]

/-! ## Texts that end visibly -/

/-- A text whose last character is no blank. -/
def EndsVisibly (text : List Char) : Prop :=
  ∀ c ∈ text.getLast?, 0x20 < c.toNat

theorem endsVisibly_append {first second : List Char}
    (hfirst : second = [] → EndsVisibly first) (hsecond : EndsVisibly second) :
    EndsVisibly (first ++ second) := by
  cases second with
  | nil =>
    rw [List.append_nil]
    exact hfirst rfl
  | cons d second =>
    intro c hc
    rw [List.getLast?_append_of_ne_nil _ (List.cons_ne_nil d second)] at hc
    exact hsecond c hc

theorem EndsVisibly.suffix {first second : List Char} (hends : EndsVisibly (first ++ second)) :
    EndsVisibly second := by
  intro c hc
  apply hends
  rw [List.getLast?_append, Option.mem_def.1 hc]
  rfl

theorem EndsVisibly.unbroken {text : List Char} (hends : EndsVisibly text) :
    EndsVisibly (unbroken text) := by
  rcases List.eq_nil_or_concat text with rfl | ⟨start, last, rfl⟩
  · exact hends
  · have hvisible : 0x20 < last.toNat := hends last (by simp)
    intro c hc
    simp [LinkedJson.unbroken, isBreak_of_visible hvisible] at hc
    rwa [← hc]

theorem endsVisibly_tidy (text : List Char) : EndsVisibly (tidy text) := by
  intro c hc
  have hwanted := Text.getLast?_trim hc
  simpa using hwanted

/-! ## Joining a fragment -/

/-- A fragment without breaks that ends visibly takes the place of the fragment of the base. -/
theorem join_fragment (base : Address) {text : List Char} (hbreaks : ∀ c ∈ text, isBreak c = false)
    (hends : EndsVisibly text) :
    base.join (String.ofList ('#' :: text)) = .ok (base.withFragment text) := by
  have hmark : EndsVisibly (['#'] ++ text) :=
    endsVisibly_append (fun _ c hc ↦ by cases hc; decide) hends
  have htidy : tidy ('#' :: text) = '#' :: text :=
    Text.trim_eq_self (fun c hc ↦ by cases hc; rfl) fun c hc ↦
      decide_eq_false (Nat.not_le.2 (hmark c hc))
  have hbroken : unbroken ('#' :: text) = '#' :: text :=
    List.filter_eq_self.2 (List.forall_mem_cons.2 ⟨rfl, fun c hc ↦ by rw [hbreaks c hc]; rfl⟩)
  have hscheme : splitScheme? (tidy (String.ofList ('#' :: text)).toList) = none := by
    rw [String.toList_ofList, htidy]
    rfl
  rw [join, read_of_splitScheme?_eq_none hscheme, String.toList_ofList, htidy, readRelative,
    hbroken]
  rfl

/-- The target of a reference that is a fragment, by what the fragment is decoded to. -/
theorem resolve_of_decodeText? (base : Address) {text : List Char} {pointer : String}
    (hbreaks : ∀ c ∈ text, isBreak c = false) (hends : EndsVisibly text)
    (hdecode : Percent.decodeText? (Percent.encode Percent.fragmentSet text) = some pointer) :
    Target.resolve base (String.ofList ('#' :: text)) =
      some ⟨base.withoutFragment, some pointer⟩ := by
  have hpointer : Target.pointerOf (readFragment text) = pointer := by
    rw [Target.pointerOf, readFragment, String.toList_ofList, hdecode, Option.getD_some]
  rw [Target.resolve, base.join_fragment hbreaks hends, withFragment]
  change some (Target.mk base.withoutFragment (some (Target.pointerOf (readFragment text)))) = _
  rw [hpointer]

/-- The target of a reference that is an escaped pointer. -/
theorem resolve_fragment (base : Address) {pointer : String} {escaped : List Char}
    (hescapes : Percent.Escapes pointer.toUTF8.data.toList escaped) :
    Target.resolve base (String.ofList ('#' :: escaped)) =
      some ⟨base.withoutFragment, some pointer⟩ := by
  have hchars := hescapes.isEscapeChar
  refine base.resolve_of_decodeText? (fun c hc ↦ isBreak_of_visible (hchars c hc).visible)
    (fun c hc ↦ (hchars c (List.mem_of_getLast? hc)).visible) ?_
  rw [Percent.encode_eq_self fun c hc ↦ (hchars c hc).kept, hescapes.decodeText?_eq]

/-! ## Taking the fragment away -/

theorem withoutFragment_of_isBase {address : Address} (hbase : address.isBase = true)
    (hfragment : address.fragment = none) : address.withoutFragment = address := by
  obtain ⟨scheme, authority, path, query, fragment⟩ := address
  cases path with
  | segments list =>
    cases hfragment
    rfl
  | rootless text => cases hbase

theorem path_withSuffix (address : Address) (suffix : List Char) :
    (address.withSuffix suffix).path = address.path := by
  unfold withSuffix
  split
  · split <;> rfl
  · rfl
  · rfl

theorem isBase_assemble (scheme : String) (authority : Option Authority) (segments : List String)
    (text : List Char) : (assemble scheme authority segments text).isBase = true := by
  rw [isBase, assemble, path_withSuffix]

theorem isBase_afterSlashes {scheme : String} {text : List Char} {address : Address}
    (hread : afterSlashes scheme text = .ok address) : address.isBase = true := by
  unfold afterSlashes at hread
  cases hauthority : readAuthority scheme text with
  | error cause =>
    rw [hauthority] at hread
    cases hread
  | ok found =>
    rw [hauthority] at hread
    cases hread
    exact isBase_assemble ..

theorem isBase_fileAfterSlashes {text : List Char} {address : Address}
    (hread : fileAfterSlashes text = .ok address) : address.isBase = true := by
  have hbehind : ∀ host before text, (fileBehind host before text).isBase = true :=
    fun _ _ _ ↦ isBase_assemble ..
  unfold fileAfterSlashes at hread
  dsimp only at hread
  split at hread
  · cases hread
    exact hbehind ..
  · split at hread
    · cases hread
      exact hbehind ..
    · split at hread
      · cases hread
      · split_ifs at hread <;> cases hread <;> exact hbehind ..

theorem isBase_readFile {text : List Char} {address : Address}
    (hread : readFile none text = .ok address) : address.isBase = true := by
  have hroot : ∀ text, (fileFromRoot none text).isBase = true := fun _ ↦ isBase_assemble ..
  have hhere : ∀ text, (fileFromHere none text).isBase = true := fun _ ↦ isBase_assemble ..
  unfold readFile at hread
  split at hread
  · split at hread
    · split at hread
      · split at hread
        · exact isBase_fileAfterSlashes hread
        · cases hread
          exact hroot _
      · cases hread
        exact hroot _
    · cases hread
      exact hhere _
  · cases hread
    exact hhere _

/-- What follows the scheme of an address ends as the whole text does. -/
theorem endsVisibly_of_splitScheme? {text rest : List Char} {scheme : String}
    (hends : EndsVisibly text) (hscheme : splitScheme? text = some (scheme, rest)) :
    EndsVisibly rest := by
  unfold splitScheme? at hscheme
  dsimp only at hscheme
  split at hscheme
  · next letter _ behind hletter hbehind =>
    split_ifs at hscheme
    cases hscheme
    rw [← List.takeWhile_append_dropWhile (p := fun c ↦ isSchemeChar c || isBreak c) (l := text),
      hbehind, List.append_cons] at hends
    exact hends.suffix
  · cases hscheme

theorem EndsVisibly.encode {text : List Char} (hends : EndsVisibly text) (set : Char → Bool) :
    EndsVisibly (Percent.encode set text) := by
  rcases List.eq_nil_or_concat text with rfl | ⟨start, last, rfl⟩
  · exact hends
  · have hvisible : 0x20 < last.toNat := hends last (by simp)
    intro c hc
    rw [List.concat_eq_append, Percent.encode_append, List.getLast?_append_of_ne_nil _
      (Percent.encode_singleton_ne_nil set last)] at hc
    exact Percent.visible_encode_singleton set hvisible c (List.mem_of_getLast? hc)

theorem isSome_query_withSuffix (address : Address) (rest : List Char) :
    (address.withSuffix ('?' :: rest)).query.isSome = true := by
  rw [withSuffix]
  split <;> rfl

/-- A suffix that gives neither a query nor a fragment is empty. -/
theorem suffixText_eq_nil {address : Address} {text : List Char}
    (hquery : (address.withSuffix (suffixText text)).query = none)
    (hfragment : (address.withSuffix (suffixText text)).fragment = none) :
    suffixText text = [] := by
  cases hsuffix : suffixText text with
  | nil => rfl
  | cons mark rest =>
    have hmark : endsPath mark = true := by
      have hhead := List.head?_dropWhile_not (fun c ↦ !endsPath c) text
      rw [suffixText] at hsuffix
      rw [hsuffix] at hhead
      simpa using hhead
    rw [hsuffix] at hquery hfragment
    simp only [endsPath, Bool.or_eq_true, beq_iff_eq] at hmark
    rcases hmark with rfl | rfl
    · have hsome := isSome_query_withSuffix address rest
      rw [hquery] at hsome
      cases hsome
    · cases hfragment

/-- Where the path has no structure, the blanks at its end are what a fragment could have kept. -/
theorem withoutFragment_of_rootless {address : Address} {text : String}
    (hpath : address.path = .rootless text) (hfragment : address.fragment = none)
    (hends : address.query = none → EndsVisibly text.toList) :
    address.withoutFragment = address := by
  obtain ⟨scheme, authority, path, query, fragment⟩ := address
  cases hpath
  cases hfragment
  cases query with
  | some query => rfl
  | none =>
    have htrim : Text.trimEnd (· == ' ') text.toList = text.toList := by
      refine Text.trimEnd_eq_self fun c hc ↦ beq_eq_false_iff_ne.2 ?_
      rintro rfl
      exact absurd (hends rfl ' ' hc) (by decide)
    simp only [withoutFragment, htrim, String.ofList_toList]

theorem withoutFragment_of_readOther {scheme : String} {text : List Char} {address : Address}
    (hends : EndsVisibly text) (hread : readOther scheme text = .ok address)
    (hfragment : address.fragment = none) : address.withoutFragment = address := by
  unfold readOther at hread
  split at hread
  · exact withoutFragment_of_isBase (isBase_afterSlashes hread) hfragment
  · cases hread
    exact withoutFragment_of_isBase (isBase_assemble ..) hfragment
  · cases hread
    refine withoutFragment_of_rootless (path_withSuffix ..) hfragment fun hquery ↦ ?_
    have hsuffix := suffixText_eq_nil hquery hfragment
    have hall : pathText text = text := by
      have happend := List.takeWhile_append_dropWhile (p := fun c ↦ !endsPath c) (l := text)
      rw [suffixText] at hsuffix
      rwa [hsuffix, List.append_nil] at happend
    rw [String.toList_ofList, hall]
    exact hends.encode _

/-- An address that was read without a fragment is that of a document. -/
theorem withoutFragment_of_parse {text : String} {address : Address}
    (hparse : parse text = .ok address) (hfragment : address.fragment = none) :
    address.withoutFragment = address := by
  cases hscheme : splitScheme? (tidy text.toList) with
  | none =>
    simp only [parse, read, hscheme] at hparse
    cases hparse
  | some found =>
    obtain ⟨scheme, rest⟩ := found
    rw [parse, read_of_splitScheme?_eq_some hscheme, readAbsolute] at hparse
    have hends := endsVisibly_of_splitScheme? (endsVisibly_tidy _) hscheme
    split at hparse
    · exact withoutFragment_of_isBase (isBase_readFile hparse) hfragment
    · exact withoutFragment_of_isBase (isBase_afterSlashes hparse) hfragment
    · exact withoutFragment_of_readOther hends.unbroken hparse hfragment

end Address

end LinkedJson
