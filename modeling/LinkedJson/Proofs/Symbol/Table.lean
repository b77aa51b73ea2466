import LinkedJson.Symbol.Table
import Mathlib.Data.List.Induction
import Mathlib.Data.List.Nodup

/-!
# What a symbol table holds

A table has at most one symbol for each pointer. Inserting symbols one after another leaves exactly
those in the table that no later one with the same pointer has replaced.
-/

namespace LinkedJson

/-- An item is the last of a list with its key. -/
def IsLastBy {α κ : Type} (key : α → κ) (item : α) (items : List α) : Prop :=
  ∃ before after, items = before ++ item :: after ∧ ∀ later ∈ after, key later ≠ key item

section IsLastBy

variable {α β κ : Type} {key : α → κ} {item : α}

theorem IsLastBy.mem {items : List α} (hlast : IsLastBy key item items) : item ∈ items := by
  obtain ⟨before, after, rfl, -⟩ := hlast
  exact List.mem_append_right _ List.mem_cons_self

theorem isLastBy_cons {first : α} {rest : List α} :
    IsLastBy key item (first :: rest) ↔
      IsLastBy key item rest ∨ item = first ∧ ∀ later ∈ rest, key later ≠ key item := by
  constructor
  · rintro ⟨before, after, hsplit, hlater⟩
    cases before with
    | nil =>
      obtain ⟨rfl, rfl⟩ := List.cons.inj hsplit
      exact .inr ⟨rfl, hlater⟩
    | cons head before =>
      obtain ⟨rfl, rfl⟩ := List.cons.inj hsplit
      exact .inl ⟨before, after, rfl, hlater⟩
  · rintro (⟨before, after, rfl, hlater⟩ | ⟨rfl, hlater⟩)
    · exact ⟨first :: before, after, rfl, hlater⟩
    · exact ⟨[], rest, rfl, hlater⟩

theorem isLastBy_map {f : β → α} {items : List β} :
    IsLastBy key item (items.map f) ↔
      ∃ source, IsLastBy (key ∘ f) source items ∧ f source = item := by
  constructor
  · rintro ⟨before, after, hsplit, hlater⟩
    obtain ⟨first, rest, rfl, rfl, hrest⟩ := List.map_eq_append_iff.1 hsplit
    obtain ⟨source, last, rfl, rfl, rfl⟩ := List.map_eq_cons_iff.1 hrest
    exact ⟨source, ⟨first, last, rfl, fun later hmem ↦ hlater _ (List.mem_map_of_mem hmem)⟩, rfl⟩
  · rintro ⟨source, ⟨before, after, rfl, hlater⟩, rfl⟩
    refine ⟨before.map f, after.map f, by simp, fun later hmem ↦ ?_⟩
    obtain ⟨origin, horigin, rfl⟩ := List.mem_map.1 hmem
    exact hlater origin horigin

theorem isLastBy_of_nodup {items : List α} (hnodup : (items.map key).Nodup) (hmem : item ∈ items) :
    IsLastBy key item items := by
  obtain ⟨before, after, rfl⟩ := List.append_of_mem hmem
  refine ⟨before, after, rfl, fun later hlater hkey ↦ ?_⟩
  rw [List.map_append, List.map_cons, List.nodup_append, List.nodup_cons] at hnodup
  exact hnodup.2.1.1 (hkey ▸ List.mem_map_of_mem hlater)

end IsLastBy

/-- The first occurrence of a key in a list comes before all occurrences of another key. -/
def MetBefore {κ : Type} (keys : List κ) (first second : κ) : Prop :=
  ∃ before after, keys = before ++ first :: after ∧ first ∉ before ∧ second ∉ before ++ [first]

section MetBefore

variable {κ : Type} {keys : List κ} {first second : κ}

theorem MetBefore.append (hmet : MetBefore keys first second) (more : List κ) :
    MetBefore (keys ++ more) first second := by
  obtain ⟨before, after, rfl, hfirst, hsecond⟩ := hmet
  exact ⟨before, after ++ more, by simp, hfirst, hsecond⟩

theorem MetBefore.ne (hmet : MetBefore keys first second) : first ≠ second := by
  obtain ⟨before, after, -, -, hsecond⟩ := hmet
  rintro rfl
  exact hsecond (List.mem_append_right _ List.mem_cons_self)

theorem metBefore_of_mem (hfirst : first ∈ keys) (hsecond : second ∉ keys) :
    MetBefore keys first second := by
  obtain ⟨before, after, rfl, hfresh⟩ := List.eq_append_cons_of_mem hfirst
  refine ⟨before, after, rfl, hfresh, fun hmem ↦ hsecond ?_⟩
  rw [List.append_cons]
  exact List.mem_append_left _ hmem

end MetBefore

theorem find?_eq_some_iff_of_unique {α : Type} {p : α → Bool} {items : List α}
    (hunique : ∀ first ∈ items, ∀ second ∈ items, p first = true → p second = true → first = second)
    {item : α} : items.find? p = some item ↔ item ∈ items ∧ p item = true := by
  constructor
  · intro hfound
    exact ⟨List.mem_of_find?_eq_some hfound, List.find?_some hfound⟩
  · rintro ⟨hmem, hitem⟩
    obtain ⟨found, hfound⟩ := Option.isSome_iff_exists.1 (List.find?_isSome.2 ⟨item, hmem, hitem⟩)
    rw [hfound, hunique found (List.mem_of_find?_eq_some hfound) item hmem
      (List.find?_some hfound) hitem]

namespace SymbolTable

theorem pointers_put (symbol : Symbol) (symbols : List Symbol) :
    (put symbol symbols).map (·.pointer) =
      if symbol.pointer ∈ symbols.map (·.pointer) then symbols.map (·.pointer)
      else symbols.map (·.pointer) ++ [symbol.pointer] := by
  induction symbols with
  | nil => rfl
  | cons first rest ih =>
    by_cases hsame : first.pointer = symbol.pointer
    · simp [put, hsame]
    · have hother : ¬ symbol.pointer = first.pointer := fun hpointer ↦ hsame hpointer.symm
      rw [put, if_neg hsame, List.map_cons, ih]
      simp only [List.map_cons, List.mem_cons, hother, false_or]
      split <;> rfl

theorem nodup_put {symbols : List Symbol} (hnodup : (symbols.map (·.pointer)).Nodup)
    (symbol : Symbol) : ((put symbol symbols).map (·.pointer)).Nodup := by
  rw [pointers_put]
  split
  · exact hnodup
  · next hfresh =>
    rw [List.nodup_append]
    refine ⟨hnodup, by simp, fun pointer hpointer other hother ↦ ?_⟩
    rw [List.mem_singleton] at hother
    rintro rfl
    exact hfresh (hother ▸ hpointer)

theorem mem_put {symbols : List Symbol} (hnodup : (symbols.map (·.pointer)).Nodup)
    {symbol other : Symbol} :
    other ∈ put symbol symbols ↔
      other = symbol ∨ other ∈ symbols ∧ other.pointer ≠ symbol.pointer := by
  induction symbols with
  | nil => simp [put]
  | cons first rest ih =>
    rw [List.map_cons, List.nodup_cons] at hnodup
    by_cases hsame : first.pointer = symbol.pointer
    · have hrest : ∀ symbol' ∈ rest, symbol'.pointer ≠ symbol.pointer := by
        intro symbol' hmem hpointer
        exact hnodup.1 (List.mem_map.2 ⟨symbol', hmem, hpointer.trans hsame.symm⟩)
      rw [put, if_pos hsame]
      grind
    · rw [put, if_neg hsame]
      grind

theorem mem_foldl_insert {table : SymbolTable} (hnodup : (table.symbols.map (·.pointer)).Nodup)
    {symbol : Symbol} {symbols : List Symbol} :
    symbol ∈ (symbols.foldl insert table).symbols ↔
      IsLastBy Symbol.pointer symbol symbols ∨
        symbol ∈ table.symbols ∧ ∀ later ∈ symbols, later.pointer ≠ symbol.pointer := by
  -- Each insertion changes the table, so the statement is about the symbols that are still to come.
  induction symbols generalizing table with
  | nil => simp [IsLastBy]
  | cons first symbols ih =>
    have hput : ((table.insert first).symbols.map (·.pointer)).Nodup := nodup_put hnodup first
    rw [List.foldl_cons, ih hput, insert, mem_put hnodup, isLastBy_cons, List.forall_mem_cons]
    grind

/-- A table holds the symbols that are the last ones with their pointers. -/
theorem mem_symbols_ofList {symbol : Symbol} {symbols : List Symbol} :
    symbol ∈ (ofList symbols).symbols ↔ IsLastBy Symbol.pointer symbol symbols := by
  have hempty : (empty.symbols.map (·.pointer)).Nodup := List.nodup_nil
  rw [ofList, mem_foldl_insert hempty]
  simp [empty]

theorem ofList_append_singleton (symbols : List Symbol) (symbol : Symbol) :
    ofList (symbols ++ [symbol]) = (ofList symbols).insert symbol :=
  List.foldl_append

theorem mem_pointers_ofList {pointer : String} {symbols : List Symbol} :
    pointer ∈ (ofList symbols).pointers ↔ pointer ∈ symbols.map (·.pointer) := by
  induction symbols using List.reverseRecOn with
  | nil => rfl
  | append_singleton symbols symbol ih =>
    rw [ofList_append_singleton]
    change pointer ∈ (put symbol _).map (·.pointer) ↔ _
    change pointer ∈ (ofList symbols).symbols.map (·.pointer) ↔ _ at ih
    rw [pointers_put, List.map_append, List.mem_append, ← ih]
    grind

/-- The pointers of a table come in the order in which they are first met. -/
theorem pairwise_pointers_ofList (symbols : List Symbol) :
    (ofList symbols).pointers.Pairwise (MetBefore (symbols.map (·.pointer))) := by
  -- A symbol that comes in addition leaves the pointers as they are, or adds its own at the end.
  induction symbols using List.reverseRecOn with
  | nil => exact .nil
  | append_singleton symbols symbol ih =>
    have hkept := ih.imp fun hmet ↦ MetBefore.append hmet ([symbol].map (·.pointer))
    rw [← List.map_append] at hkept
    rw [ofList_append_singleton]
    change ((put symbol (ofList symbols).symbols).map (·.pointer)).Pairwise _
    rw [pointers_put]
    split
    · exact hkept
    · next hfresh =>
      rw [List.pairwise_append]
      refine ⟨hkept, List.pairwise_singleton .., fun pointer hpointer added hadded ↦ ?_⟩
      rw [List.mem_singleton] at hadded
      rw [hadded, List.map_append]
      exact (metBefore_of_mem (mem_pointers_ofList.1 hpointer)
        (fun hmem ↦ hfresh (mem_pointers_ofList.2 hmem))).append _

theorem nodup_pointers_ofList (symbols : List Symbol) :
    ((ofList symbols).symbols.map (·.pointer)).Nodup :=
  (pairwise_pointers_ofList symbols).imp MetBefore.ne

theorem put_of_not_mem {symbol : Symbol} {symbols : List Symbol}
    (hfresh : symbol.pointer ∉ symbols.map (·.pointer)) :
    put symbol symbols = symbols ++ [symbol] := by
  induction symbols with
  | nil => rfl
  | cons first rest ih =>
    rw [List.map_cons, List.mem_cons, not_or] at hfresh
    rw [put, if_neg (Ne.symm hfresh.1), ih hfresh.2, List.cons_append]

theorem symbols_foldl_insert {table : SymbolTable} {symbols : List Symbol}
    (hnodup : ((table.symbols ++ symbols).map (·.pointer)).Nodup) :
    (symbols.foldl insert table).symbols = table.symbols ++ symbols := by
  induction symbols generalizing table with
  | nil => simp
  | cons first symbols ih =>
    have hfresh : first.pointer ∉ table.symbols.map (·.pointer) := by
      rw [List.map_append, List.nodup_append] at hnodup
      intro hmem
      exact hnodup.2.2 _ hmem _ (by simp) rfl
    have hinsert : (table.insert first).symbols = table.symbols ++ [first] := put_of_not_mem hfresh
    rw [List.foldl_cons, ih (by simpa [hinsert] using hnodup), hinsert, List.append_assoc,
      List.singleton_append]

/-- A table keeps all symbols in their order if no two of them have the same pointer. -/
theorem symbols_ofList {symbols : List Symbol} (hnodup : (symbols.map (·.pointer)).Nodup) :
    (ofList symbols).symbols = symbols :=
  @symbols_foldl_insert empty symbols hnodup

theorem get?_eq_some_iff {table : SymbolTable} (hnodup : (table.symbols.map (·.pointer)).Nodup)
    {pointer : String} {symbol : Symbol} :
    table.get? pointer = some symbol ↔ symbol ∈ table.symbols ∧ symbol.pointer = pointer := by
  rw [get?, find?_eq_some_iff_of_unique, decide_eq_true_eq]
  intro first hfirst second hsecond hpointer hpointer'
  exact List.inj_on_of_nodup_map hnodup hfirst hsecond
    ((of_decide_eq_true hpointer).trans (of_decide_eq_true hpointer').symm)

end SymbolTable

end LinkedJson
