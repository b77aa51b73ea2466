import LinkedJson.Proofs.Symbol.Records
import LinkedJson.Proofs.Tree.Elements
import Mathlib.Data.List.Pairwise

/-!
# The reference under a cursor

The value of a reference is a string literal. Of two properties that are recorded in a nested
document, the later one lies below the earlier one or behind it, and no property lies below one with
a literal for its value. The literals of two references are therefore apart, and at most one of them
holds a cursor. Which one is found first in the table does not matter, however later properties have
changed its order.
-/

namespace LinkedJson

theorem Entry.isSome_asString? {entry : Entry} (hrefers : entry.symbol.refersTo.isSome = true) :
    entry.value.asString?.isSome = true := by
  obtain ⟨reference, hreference⟩ := Option.isSome_iff_exists.1 hrefers
  obtain ⟨-, span, hvalue⟩ := Entry.refersTo_symbol.1 hreference
  rw [hvalue]
  rfl

namespace Node

variable {node : Node} {path : String}

theorem exists_eq_string {node : Node} (hstring : node.asString?.isSome = true) :
    ∃ text span, node = .string text span := by
  cases node with
  | string text span => exact ⟨text, span, rfl⟩
  | _ => cases hstring

theorem bounds_value (hnested : node.Nested) {entry : Entry}
    (hentry : entry.property ∈ node.preorder) :
    entry.span.offset ≤ entry.value.span.offset ∧ entry.value.span.limit ≤ entry.span.limit :=
  Span.InOrder.bounds (hnested entry.property hentry) (by simp [Entry.property, children])

/-- A property with a literal for its value ends before the next property has its value. -/
theorem limit_value_le (hnested : node.Nested) {first second : Entry}
    (hfirst : first.property ∈ node.preorder) (hsecond : second.property ∈ node.preorder)
    (hstring : first.value.asString?.isSome = true)
    (hprecedes : Precedes first.property second.property) :
    first.value.span.limit ≤ second.value.span.offset := by
  rcases hprecedes with hbelow | hbehind
  · obtain ⟨text, span, hvalue⟩ := exists_eq_string hstring
    simp [Entry.property, children, preorderAll, preorder, hvalue] at hbelow
  · calc first.value.span.limit
      _ ≤ first.span.limit := (bounds_value hnested hfirst).2
      _ ≤ second.span.offset := hbehind
      _ ≤ second.value.span.offset := (bounds_value hnested hsecond).1

/-- At most one property is recorded that has a literal for its value with an offset in it. -/
theorem eq_of_contains (hnested : node.Nested) {first second : Entry}
    (hfirst : first ∈ node.entries path) (hsecond : second ∈ node.entries path) {offset : Nat}
    (hfirstString : first.value.asString?.isSome = true)
    (hsecondString : second.value.asString?.isSome = true)
    (hfirstHolds : first.value.span.contains offset = true)
    (hsecondHolds : second.value.span.contains offset = true) : first = second := by
  let Comparable (first second : Entry) : Prop :=
    Precedes first.property second.property ∨ Precedes second.property first.property
  have hsymm : Std.Symm Comparable := ⟨fun _ _ hcomparable ↦ hcomparable.symm⟩
  have hsublist := entries_sublist path node
  have hpairwise : (node.entries path).Pairwise Comparable :=
    (List.pairwise_map.1 (hnested.pairwise_preorder.sublist hsublist)).imp .inl
  have hfirstMem := hsublist.subset (List.mem_map_of_mem hfirst)
  have hsecondMem := hsublist.subset (List.mem_map_of_mem hsecond)
  rw [Span.contains_iff] at hfirstHolds hsecondHolds
  have hfirstStop := first.value.span.stop_le_limit
  have hsecondStop := second.value.span.stop_le_limit
  by_contra hne
  rcases hpairwise.forall hfirst hsecond hne with hprecedes | hprecedes
  · have hle := limit_value_le hnested hfirstMem hsecondMem hfirstString hprecedes
    omega
  · have hle := limit_value_le hnested hsecondMem hfirstMem hsecondString hprecedes
    omega

end Node

theorem length_le_one_of_nodup {α : Type} {items : List α} (hnodup : items.Nodup)
    (hsame : ∀ first ∈ items, ∀ second ∈ items, first = second) : items.length ≤ 1 := by
  cases items with
  | nil => exact Nat.zero_le 1
  | cons first rest =>
    cases rest with
    | nil => exact Nat.le_refl 1
    | cons second rest =>
      have heq := hsame first (by simp) second (by simp)
      simp [heq] at hnodup

namespace SymbolTable

variable {root : Node} {offset : Nat}

/-- Two references of a nested document do not hold the same offset. -/
theorem eq_of_mem_references (hnested : root.Nested) {first second : Symbol}
    (hfirst : first ∈ (ofRoot (some root)).references)
    (hsecond : second ∈ (ofRoot (some root)).references)
    (hfirstHolds : first.valueSpan.contains offset = true)
    (hsecondHolds : second.valueSpan.contains offset = true) : first = second := by
  obtain ⟨hfirst, hfirstRefers⟩ := List.mem_filter.1 hfirst
  obtain ⟨hsecond, hsecondRefers⟩ := List.mem_filter.1 hsecond
  obtain ⟨entry, hentry, rfl⟩ := mem_symbols_ofRoot.1 hfirst
  obtain ⟨other, hother, rfl⟩ := mem_symbols_ofRoot.1 hsecond
  rw [Node.eq_of_contains hnested hentry.mem hother.mem (Entry.isSome_asString? hfirstRefers)
    (Entry.isSome_asString? hsecondRefers) hfirstHolds hsecondHolds]

/-- The reference at an offset is the one whose value holds the offset. -/
theorem referenceAt_eq_some_iff (hnested : root.Nested) {symbol : Symbol} :
    (ofRoot (some root)).referenceAt offset = some symbol ↔
      symbol ∈ (ofRoot (some root)).references ∧ symbol.valueSpan.contains offset = true :=
  find?_eq_some_iff_of_unique fun _ hfirst _ hsecond ↦ eq_of_mem_references hnested hfirst hsecond

theorem nodup_references (root : Node) : (ofRoot (some root)).references.Nodup :=
  (List.Nodup.of_map _ (nodup_pointers_ofRoot root)).filter _

theorem length_references_le_one (hnested : root.Nested) :
    ((ofRoot (some root)).references.filter (·.valueSpan.contains offset)).length ≤ 1 := by
  refine length_le_one_of_nodup ((nodup_references root).filter _) ?_
  intro first hfirst second hsecond
  obtain ⟨hfirst, hfirstHolds⟩ := List.mem_filter.1 hfirst
  obtain ⟨hsecond, hsecondHolds⟩ := List.mem_filter.1 hsecond
  exact eq_of_mem_references hnested hfirst hsecond hfirstHolds hsecondHolds

/-- A table with the same symbols in another order finds the same reference. -/
theorem referenceAt_of_perm (hnested : root.Nested) {other : SymbolTable}
    (hperm : other.symbols.Perm (ofRoot (some root)).symbols) :
    other.referenceAt offset = (ofRoot (some root)).referenceAt offset := by
  have hsame : ∀ {symbol : Symbol},
      symbol ∈ other.references ↔ symbol ∈ (ofRoot (some root)).references :=
    (hperm.filter _).mem_iff
  apply Option.ext
  intro symbol
  rw [referenceAt_eq_some_iff hnested, ← hsame]
  apply find?_eq_some_iff_of_unique
  intro first hfirst second hsecond
  exact eq_of_mem_references hnested (hsame.1 hfirst) (hsame.1 hsecond)

end SymbolTable

/-- In a document whose trees lie one after another inside the trees that hold them, at most one
reference has an offset in its value. That one is found at the offset, and it would be found as well
if the table listed its symbols in another order. -/
theorem one_reference_under_cursor (text : List Char) {tree : Tree} (hnested : tree.Nested)
    (offset : Nat) :
    ((SymbolTable.ofRoot (Reading.ofTree text tree).root).references.filter
      (·.valueSpan.contains offset)).length ≤ 1 ∧
    (∀ symbol, (SymbolTable.ofRoot (Reading.ofTree text tree).root).referenceAt offset =
      some symbol ↔ symbol ∈ (SymbolTable.ofRoot (Reading.ofTree text tree).root).references ∧
        symbol.valueSpan.contains offset = true) ∧
    ∀ other : SymbolTable,
      other.symbols.Perm (SymbolTable.ofRoot (Reading.ofTree text tree).root).symbols →
        other.referenceAt offset =
          (SymbolTable.ofRoot (Reading.ofTree text tree).root).referenceAt offset := by
  cases hroot : (Reading.ofTree text tree).root with
  | none =>
    refine ⟨Nat.zero_le 1, fun symbol ↦ ?_, fun other hperm ↦ ?_⟩
    · simp [SymbolTable.ofRoot, SymbolTable.empty, SymbolTable.referenceAt, SymbolTable.references]
    · obtain ⟨symbols⟩ := other
      rw [show symbols = [] from hperm.eq_nil]
      rfl
  | some root =>
    have hinner : root.Nested := hnested.rootNode hroot
    exact ⟨SymbolTable.length_references_le_one hinner,
      fun _ ↦ SymbolTable.referenceAt_eq_some_iff hinner,
      fun _ hperm ↦ SymbolTable.referenceAt_of_perm hinner hperm⟩

/-- The text `{"$ref":"x","b":{"$ref":"y"}oops,"$ref":"z"}`, in which the last reference takes the
place of the first one. -/
def replacedText : List Char :=
  ['\x7b', '"', '$', 'r', 'e', 'f', '"', ':', '"', 'x', '"', ',', '"', 'b', '"', ':', '\x7b', '"',
    '$', 'r', 'e', 'f', '"', ':', '"', 'y', '"', '\x7d', 'o', 'o', 'p', 's', ',', '"', '$', 'r',
    'e', 'f', '"', ':', '"', 'z', '"', '\x7d']

/-- Its tree, in which the second pair is inside an error. -/
def replacedTree : Tree :=
  .node .document 0 44 false
    [.node .object 0 44 false
        [.node .openBrace 0 1 false [],
          .node .pair 1 11 false
            [.node .string 1 7 false [], .node .colon 7 8 false [], .node .string 8 11 false []],
          .node .error 11 32 false
            [.node .comma 11 12 false [],
              .node .pair 12 28 false
                [.node .string 12 15 false [], .node .colon 15 16 false [],
                  .node .object 16 28 false
                    [.node .openBrace 16 17 false [],
                      .node .pair 17 27 false
                        [.node .string 17 23 false [], .node .colon 23 24 false [],
                          .node .string 24 27 false []],
                      .node .closeBrace 27 28 false []]],
              .node .error 28 32 false []],
          .node .comma 32 33 false [],
          .node .pair 33 43 false
            [.node .string 33 39 false [], .node .colon 39 40 false [],
              .node .string 40 43 false []],
          .node .closeBrace 43 44 false []]]

theorem one_reference_under_cursor_replaced :
    let table := SymbolTable.ofRoot (Reading.ofTree replacedText replacedTree).root
    replacedTree.Nested ∧
    table.references =
      [⟨"/$ref", ⟨33, 10⟩, ⟨40, 3⟩, some "z"⟩, ⟨"/b/$ref", ⟨17, 10⟩, ⟨24, 3⟩, some "y"⟩] ∧
    (SymbolTable.mk table.symbols.reverse).referenceAt 25 =
      some ⟨"/b/$ref", ⟨17, 10⟩, ⟨24, 3⟩, some "y"⟩ ∧
    table.referenceAt 9 = none := by
  intro table
  have hnested : replacedTree.Nested := by decide +kernel
  obtain ⟨-, -, hperm⟩ := one_reference_under_cursor replacedText hnested 25
  refine ⟨hnested, by decide +kernel, ?_, by decide +kernel⟩
  rw [hperm ⟨table.symbols.reverse⟩ (List.reverse_perm _)]
  decide +kernel

end LinkedJson
