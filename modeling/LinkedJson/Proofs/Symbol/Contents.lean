import LinkedJson.Proofs.Symbol.Records
import Mathlib.Order.Bounds.Defs

/-!
# What the table of a document holds

The table of a document is determined by the properties that are recorded in it and by their places.
A pointer leads to the property that is recorded with it last, and pointers are listed in the order
in which they are recorded first. Nothing is recorded inside a property that is not a name with one
value, so its parts can be taken out without a change of the table.
-/

namespace LinkedJson

namespace Node

/-! ## Properties without a name -/

mutual

/-- A node in which properties that are not a name with one value have lost their parts. -/
def pruned : Node → Node
  | object members span => object (prunedAll members) span
  | array elements span => array (prunedAll elements) span
  | property [string name nameSpan, value] span =>
    property [string name nameSpan, pruned value] span
  | property _ span => property [] span
  | string value span => string value span
  | number source span => number source span
  | boolean value span => boolean value span
  | null span => null span

def prunedAll : List Node → List Node
  | [] => []
  | node :: nodes => pruned node :: prunedAll nodes

end

theorem pruned_of_name?_eq_none {parts : List Node} {span : Span}
    (hname : (property parts span).name? = none) :
    (property parts span).pruned = property [] span := by
  unfold pruned
  split <;> simp_all [name?]

theorem exists_pruned_eq (parts : List Node) (span : Span) :
    ∃ kept, (property parts span).pruned = property kept span := by
  rcases name?_property parts span with hname | ⟨name, nameSpan, value, rfl⟩
  · exact ⟨[], pruned_of_name?_eq_none hname⟩
  · exact ⟨_, pruned.eq_3 ..⟩

theorem isComposite_pruned (node : Node) : node.pruned.isComposite = node.isComposite := by
  cases node with
  | property parts span =>
    obtain ⟨kept, hkept⟩ := exists_pruned_eq parts span
    rw [hkept]
    rfl
  | _ => rfl

theorem propertySymbol_pruned (path name : String) (span : Span) (value : Node) :
    propertySymbol path name span value.pruned = propertySymbol path name span value := by
  cases value with
  | property parts valueSpan =>
    obtain ⟨kept, hkept⟩ := exists_pruned_eq parts valueSpan
    rw [hkept]
    rfl
  | _ => rfl

mutual

/-- The parts of a property that is not a name with one value declare nothing. -/
theorem declared_pruned : ∀ (path : String) (node : Node),
    node.pruned.declared path = node.declared path
  | path, object members span => declaredByAll_prunedAll path members
  | path, array elements span => declaredByElements_prunedAll path 0 elements
  | path, property parts span => by
    rcases name?_property parts span with hname | ⟨name, nameSpan, value, rfl⟩
    · rw [pruned_of_name?_eq_none hname, declared_of_name?_eq_none path hname]
      rfl
    · have hvalue := declared_pruned (stepInto path name) value
      rw [pruned, declared, declared, propertySymbol_pruned, isComposite_pruned, hvalue]
  | path, string value span => rfl
  | path, number source span => rfl
  | path, boolean value span => rfl
  | path, null span => rfl

theorem declaredByAll_prunedAll : ∀ (path : String) (nodes : List Node),
    declaredByAll path (prunedAll nodes) = declaredByAll path nodes
  | path, [] => rfl
  | path, node :: nodes => by
    rw [prunedAll, declaredByAll, declaredByAll, declared_pruned path node,
      declaredByAll_prunedAll path nodes]

theorem declaredByElements_prunedAll : ∀ (path : String) (index : Nat) (nodes : List Node),
    declaredByElements path index (prunedAll nodes) = declaredByElements path index nodes
  | path, index, [] => rfl
  | path, index, node :: nodes => by
    rw [prunedAll, declaredByElements, declaredByElements, declared_pruned _ node,
      declaredByElements_prunedAll path (index + 1) nodes]

end

end Node

/-! ## Lists in the order of places -/

section Places

variable {α κ ι : Type} [Preorder ι] {key : α → κ} {place : α → ι} {items : List α}

/-- The last item with a key is the one with the largest place. -/
theorem isLastBy_iff_of_pairwise (hsorted : items.Pairwise (place · < place ·)) {item : α} :
    IsLastBy key item items ↔
      item ∈ items ∧ ∀ other ∈ items, key other = key item → place other ≤ place item := by
  constructor
  · intro hlast
    refine ⟨hlast.mem, fun other hother hkey ↦ ?_⟩
    obtain ⟨before, after, rfl, hlater⟩ := hlast
    rcases List.mem_append.1 hother with hbefore | hafter
    · exact ((List.pairwise_append.1 hsorted).2.2 other hbefore item List.mem_cons_self).le
    · rcases List.mem_cons.1 hafter with rfl | hafter
      · exact le_rfl
      · exact absurd hkey (hlater other hafter)
  · rintro ⟨hmem, hlargest⟩
    obtain ⟨before, after, rfl⟩ := List.append_of_mem hmem
    refine ⟨before, after, rfl, fun later hlater hkey ↦ ?_⟩
    have hlt : place item < place later :=
      (List.pairwise_cons.1 (List.pairwise_append.1 hsorted).2.1).1 later hlater
    have hle := hlargest later (List.mem_append_right _ (List.mem_cons_of_mem _ hlater)) hkey
    exact absurd hle (not_le_of_gt hlt)

/-- A key that is met before another one has an item with the smallest place of the two keys. -/
theorem MetBefore.exists_least (hsorted : items.Pairwise (place · < place ·)) {first second : κ}
    (hmet : MetBefore (items.map key) first second) :
    ∃ item ∈ items, key item = first ∧
      (∀ other ∈ items, key other = first → place item ≤ place other) ∧
      ∀ other ∈ items, key other = second → place item < place other := by
  obtain ⟨before, after, hkeys, hfirst, hsecond⟩ := hmet
  obtain ⟨front, rest, rfl, rfl, hrest⟩ := List.map_eq_append_iff.1 hkeys
  obtain ⟨item, back, rfl, rfl, rfl⟩ := List.map_eq_cons_iff.1 hrest
  have hback : ∀ later ∈ back, place item < place later :=
    (List.pairwise_cons.1 (List.pairwise_append.1 hsorted).2.1).1
  have hlater : ∀ other ∈ front ++ item :: back, key other ∉ front.map key →
      other = item ∨ place item < place other := by
    intro other hother hnew
    rcases List.mem_append.1 hother with hfront | hmem
    · exact absurd (List.mem_map_of_mem hfront) hnew
    · exact (List.mem_cons.1 hmem).imp_right (hback other)
  refine ⟨item, List.mem_append_right _ List.mem_cons_self, rfl, ?_, ?_⟩
  · intro other hother hkey
    rcases hlater other hother (hkey ▸ hfirst) with rfl | hlt
    · exact le_rfl
    · exact hlt.le
  · rintro other hother rfl
    rw [List.mem_append, not_or, List.mem_singleton] at hsecond
    rcases hlater other hother hsecond.1 with rfl | hlt
    · exact absurd rfl hsecond.2
    · exact hlt

end Places

/-! ## The table -/

namespace Node

variable {root : Node}

/-- A property is the last one that is recorded with its pointer if no place of the pointer is
larger than its own. -/
theorem isLastBy_entries {entry : Entry} :
    IsLastBy Entry.pointer entry (root.entries "") ↔
      ∃ place, IsGreatest (root.places entry.pointer) place ∧ root.Records "" place entry := by
  have hlast : ∀ {record : List Nat × Entry},
      IsLastBy (Entry.pointer ∘ Prod.snd) record (root.records "") ↔ _ :=
    isLastBy_iff_of_pairwise (root.pairwise_records "")
  rw [entries, isLastBy_map]
  constructor
  · rintro ⟨⟨place, entry⟩, hrecord, rfl⟩
    obtain ⟨hmem, hlargest⟩ := hlast.1 hrecord
    have hrecords := mem_records.1 hmem
    refine ⟨place, ⟨⟨entry, hrecords, rfl⟩, ?_⟩, hrecords⟩
    rintro other ⟨entry', hother, hpointer⟩
    exact hlargest (other, entry') (mem_records.2 hother) hpointer
  · rintro ⟨place, ⟨-, hlargest⟩, hrecords⟩
    refine ⟨(place, entry), hlast.2 ⟨mem_records.2 hrecords, fun record hmem hpointer ↦ ?_⟩, rfl⟩
    exact hlargest ⟨record.2, mem_records.1 hmem, hpointer⟩

/-- A pointer that is met before another one is recorded at a place before all places of that one.
-/
theorem exists_isLeast_of_metBefore {first second : String}
    (hmet : MetBefore ((root.entries "").map Entry.pointer) first second) :
    ∃ place, IsLeast (root.places first) place ∧ ∀ other ∈ root.places second, place < other := by
  rw [entries, List.map_map] at hmet
  obtain ⟨⟨place, entry⟩, hmem, hpointer, hleast, hbefore⟩ :=
    hmet.exists_least (root.pairwise_records "")
  refine ⟨place, ⟨⟨entry, mem_records.1 hmem, hpointer⟩, ?_⟩, ?_⟩
  · rintro other ⟨entry', hother, hkey⟩
    exact hleast (other, entry') (mem_records.2 hother) hkey
  · rintro other ⟨entry', hother, hkey⟩
    exact hbefore (other, entry') (mem_records.2 hother) hkey

end Node

namespace SymbolTable

variable {root : Node}

/-- A pointer leads to the property that is recorded with it at the largest place. -/
theorem get?_ofRoot_eq_some_iff {pointer : String} {symbol : Symbol} :
    (ofRoot (some root)).get? pointer = some symbol ↔
      ∃ place entry, IsGreatest (root.places pointer) place ∧ root.Records "" place entry ∧
        entry.pointer = pointer ∧ entry.symbol = symbol := by
  rw [get?_eq_some_iff (nodup_pointers_ofRoot root), mem_symbols_ofRoot]
  constructor
  · rintro ⟨⟨entry, hlast, rfl⟩, rfl⟩
    obtain ⟨place, hgreatest, hrecords⟩ := Node.isLastBy_entries.1 hlast
    exact ⟨place, entry, hgreatest, hrecords, rfl, rfl⟩
  · rintro ⟨place, entry, hgreatest, hrecords, rfl, rfl⟩
    exact ⟨⟨entry, Node.isLastBy_entries.2 ⟨place, hgreatest, hrecords⟩, rfl⟩, rfl⟩

theorem isSome_get?_ofRoot {pointer : String} :
    ((ofRoot (some root)).get? pointer).isSome = true ↔ (root.places pointer).Nonempty := by
  have hfind : ((ofRoot (some root)).get? pointer).isSome = true ↔
      pointer ∈ (ofRoot (some root)).pointers := by
    simp [get?, pointers]
  rw [hfind, ofRoot_some, mem_pointers_ofList, List.map_map, Node.entries, List.map_map,
    List.mem_map]
  constructor
  · rintro ⟨⟨place, entry⟩, hmem, hpointer⟩
    exact ⟨place, entry, Node.mem_records.1 hmem, hpointer⟩
  · rintro ⟨place, entry, hrecords, hpointer⟩
    exact ⟨(place, entry), Node.mem_records.2 hrecords, hpointer⟩

/-- The pointers are listed in the order of their smallest places. -/
theorem pairwise_pointers_ofRoot (root : Node) :
    (ofRoot (some root)).pointers.Pairwise fun first second ↦
      ∃ place, IsLeast (root.places first) place ∧ ∀ other ∈ root.places second, place < other := by
  have hkeys : ((root.entries "").map Entry.symbol).map (·.pointer) =
      (root.entries "").map Entry.pointer := List.map_map
  have hmet := pairwise_pointers_ofList ((root.entries "").map Entry.symbol)
  rw [hkeys] at hmet
  rw [ofRoot_some]
  exact hmet.imp Node.exists_isLeast_of_metBefore

theorem map_get?_pointers_ofRoot (root : Node) :
    (ofRoot (some root)).pointers.map (ofRoot (some root)).get? =
      (ofRoot (some root)).symbols.map some := by
  rw [pointers, List.map_map]
  apply List.map_congr_left
  intro symbol hmem
  exact (get?_eq_some_iff (nodup_pointers_ofRoot root)).2 ⟨hmem, rfl⟩

end SymbolTable

/-- The table of a document of any shape is determined by the properties that are recorded in it. It
knows the pointers with which some property is recorded. Each leads to the last of these properties,
and the symbols are listed in the order in which their pointers are recorded first. What is inside a
property that is not a name with one value has no effect. -/
theorem table_determined_by_records (root : Node) :
    (∀ pointer, ((SymbolTable.ofRoot (some root)).get? pointer).isSome = true ↔
      (root.places pointer).Nonempty) ∧
    (∀ pointer symbol, (SymbolTable.ofRoot (some root)).get? pointer = some symbol ↔
      ∃ place entry, IsGreatest (root.places pointer) place ∧ root.Records "" place entry ∧
        entry.pointer = pointer ∧ entry.symbol = symbol) ∧
    (SymbolTable.ofRoot (some root)).pointers.map (SymbolTable.ofRoot (some root)).get? =
      (SymbolTable.ofRoot (some root)).symbols.map some ∧
    (SymbolTable.ofRoot (some root)).pointers.Pairwise (fun first second ↦
      ∃ place, IsLeast (root.places first) place ∧ ∀ other ∈ root.places second, place < other) ∧
    ∀ other : Node, other.pruned = root.pruned →
      SymbolTable.ofRoot (some other) = SymbolTable.ofRoot (some root) := by
  refine ⟨fun _ ↦ SymbolTable.isSome_get?_ofRoot, fun _ _ ↦ SymbolTable.get?_ofRoot_eq_some_iff,
    SymbolTable.map_get?_pointers_ofRoot root, SymbolTable.pairwise_pointers_ofRoot root, ?_⟩
  intro other hpruned
  rw [SymbolTable.ofRoot, SymbolTable.ofRoot, ← other.declared_pruned, hpruned,
    root.declared_pruned]

/-- A document of an odd shape: an array that holds a property, an object that holds an array, and a
property with two values, of which one is given. The pointer of the last property in the object is
also that of the property in the array beside it. -/
def oddRoot (lost : Node) : Node :=
  .array
    [.property [.string "a" ⟨1, 1⟩, .object [.property [.string "b" ⟨3, 1⟩, .null ⟨4, 1⟩] ⟨3, 2⟩]
        ⟨2, 4⟩] ⟨1, 5⟩,
      .object
        [.array [.property [.string "c" ⟨8, 1⟩, .null ⟨9, 1⟩] ⟨8, 2⟩] ⟨7, 4⟩,
          .property [.string "0/c" ⟨12, 1⟩, .boolean true ⟨13, 1⟩] ⟨12, 2⟩] ⟨6, 9⟩,
      .property [.string "d" ⟨16, 1⟩, lost, .null ⟨18, 1⟩] ⟨16, 3⟩] ⟨0, 20⟩

/-- An object with a reference in it. -/
def lostReference : Node :=
  .object [.property [.string "$ref" ⟨17, 1⟩, .string "x" ⟨17, 1⟩] ⟨17, 1⟩] ⟨17, 1⟩

theorem table_determined_by_records_odd :
    (SymbolTable.ofRoot (some (oddRoot lostReference))).pointers = ["/0/a", "/0/a/b", "/1/0/c"] ∧
    (∃ place entry, IsGreatest ((oddRoot lostReference).places "/1/0/c") place ∧
      (oddRoot lostReference).Records "" place entry ∧
      entry.symbol = ⟨"/1/0/c", ⟨12, 2⟩, ⟨13, 1⟩, none⟩) ∧
    SymbolTable.ofRoot (some (oddRoot (.null ⟨17, 1⟩))) =
      SymbolTable.ofRoot (some (oddRoot lostReference)) := by
  obtain ⟨-, hget, -, -, hpruned⟩ := table_determined_by_records (oddRoot lostReference)
  have hfound : (SymbolTable.ofRoot (some (oddRoot lostReference))).get? "/1/0/c" =
      some ⟨"/1/0/c", ⟨12, 2⟩, ⟨13, 1⟩, none⟩ := by decide +kernel
  obtain ⟨place, entry, hgreatest, hrecords, -, hsymbol⟩ := (hget _ _).1 hfound
  exact ⟨by decide +kernel, ⟨place, entry, hgreatest, hrecords, hsymbol⟩, hpruned _ rfl⟩

end LinkedJson
