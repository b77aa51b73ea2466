import LinkedJson.Proofs.Tree.Nesting
import LinkedJson.Symbol.Declared

/-!
# The properties of a document

The symbols of a document are found in one pass over it, which goes into the members of an object,
into the elements of an array, and into the composite value of a property with a name. The
properties with a name that it comes to are the entries of the document, in text order, and the
symbols that the document declares are theirs. If every property is a name with a value, the entries
are all properties of the document.
-/

namespace LinkedJson

/-- A property with its pointer. -/
structure Entry where
  pointer : String
  name : String
  nameSpan : Span
  value : Node
  span : Span

namespace Entry

def property (entry : Entry) : Node :=
  .property [.string entry.name entry.nameSpan, entry.value] entry.span

def symbol (entry : Entry) : Symbol where
  pointer := entry.pointer
  span := entry.span
  valueSpan := entry.value.span
  refersTo := if entry.name = "$ref" then entry.value.asString? else none

theorem refersTo_symbol {entry : Entry} {reference : String} :
    entry.symbol.refersTo = some reference ↔
      entry.name = "$ref" ∧ ∃ span, entry.value = .string reference span := by
  have hstring : entry.value.asString? = some reference ↔
      ∃ span, entry.value = .string reference span := by
    cases entry.value <;> simp [Node.asString?]
  by_cases hname : entry.name = "$ref"
  · simp only [Entry.symbol, hname, if_true, hstring, true_and]
  · simp only [Entry.symbol, hname, if_false, reduceCtorEq, false_and]

/-- A property has one entry for each pointer. -/
theorem eq_of_property {first second : Entry} (hpointer : first.pointer = second.pointer)
    (hproperty : first.property = second.property) : first = second := by
  obtain ⟨pointer, name, nameSpan, value, span⟩ := first
  obtain ⟨pointer', name', nameSpan', value', span'⟩ := second
  obtain ⟨hparts, rfl⟩ := Node.property.inj hproperty
  obtain ⟨hname, hvalue⟩ := List.cons.inj hparts
  obtain ⟨rfl, rfl⟩ := Node.string.inj hname
  obtain ⟨rfl, -⟩ := List.cons.inj hvalue
  change pointer = pointer' at hpointer
  rw [hpointer]

end Entry

namespace Node

def isProperty : Node → Bool
  | property _ _ => true
  | _ => false

/-- The name of a property. -/
def name? : Node → Option String
  | property [string name _, _] _ => some name
  | _ => none

theorem name?_eq_some_iff {node : Node} {name : String} :
    node.name? = some name ↔
      ∃ nameSpan value span, node = .property [.string name nameSpan, value] span := by
  constructor
  · intro hname
    unfold name? at hname
    split at hname
    · cases hname
      exact ⟨_, _, _, rfl⟩
    · cases hname
  · rintro ⟨nameSpan, value, span, rfl⟩
    rfl

/-- A property has no name, or it is a name with one value. -/
theorem name?_property (parts : List Node) (span : Span) :
    (property parts span).name? = none ∨
      ∃ name nameSpan value, parts = [.string name nameSpan, value] := by
  cases hname : (property parts span).name? with
  | none => exact .inl rfl
  | some name =>
    obtain ⟨nameSpan, value, span', hnode⟩ := name?_eq_some_iff.1 hname
    exact .inr ⟨name, nameSpan, value, (Node.property.inj hnode).1⟩

theorem name?_eq_none_of_isProperty {node : Node} (hproperty : node.isProperty = false) :
    node.name? = none := by
  cases node with
  | property parts span => cases hproperty
  | _ => rfl

/-! ## The pass over a node -/

/-- What a child records, placed in its parent. -/
def under (index : Nat) (record : List Nat × Entry) : List Nat × Entry :=
  (index :: record.1, record.2)

mutual

/-- All that a node records below a path, in the order of the pass. -/
def records (path : String) : Node → List (List Nat × Entry)
  | object members _ => recordsOfAll (fun _ ↦ path) 0 members
  | array elements _ => recordsOfAll (fun index ↦ stepInto path (toString index)) 0 elements
  | property [string name nameSpan, value] span =>
    ([], ⟨stepInto path name, name, nameSpan, value, span⟩) ::
      if value.isComposite then (records (stepInto path name) value).map (under 1) else []
  | _ => []

/-- All that the children of a node record from an index on, each below a path of its own. -/
def recordsOfAll (paths : Nat → String) (index : Nat) : List Node → List (List Nat × Entry)
  | [] => []
  | child :: children =>
    (records (paths index) child).map (under index) ++ recordsOfAll paths (index + 1) children

end

theorem records_of_name?_eq_none (path : String) {parts : List Node} {span : Span}
    (hname : (property parts span).name? = none) : (property parts span).records path = [] := by
  unfold records
  split <;> simp_all [name?]

/-- The entries of a node below a path, in the order of the pass. -/
def entries (path : String) (node : Node) : List Entry :=
  (node.records path).map Prod.snd

def entriesOfAll (paths : Nat → String) (index : Nat) (nodes : List Node) : List Entry :=
  (recordsOfAll paths index nodes).map Prod.snd

theorem map_snd_under (index : Nat) (records : List (List Nat × Entry)) :
    (records.map (under index)).map Prod.snd = records.map Prod.snd := by
  rw [List.map_map]
  rfl

theorem entriesOfAll_cons (paths : Nat → String) (index : Nat) (node : Node) (nodes : List Node) :
    entriesOfAll paths index (node :: nodes) =
      node.entries (paths index) ++ entriesOfAll paths (index + 1) nodes := by
  rw [entriesOfAll, recordsOfAll, List.map_append, map_snd_under]
  rfl

theorem entriesOfAll_eq_flatMap (paths : Nat → String) (index : Nat) (nodes : List Node) :
    entriesOfAll paths index nodes =
      (nodes.zipIdx index).flatMap fun item ↦ item.1.entries (paths item.2) := by
  induction nodes generalizing index with
  | nil => rfl
  | cons node nodes ih => rw [entriesOfAll_cons, ih, List.zipIdx_cons, List.flatMap_cons]

theorem entries_object (path : String) (members : List Node) (span : Span) :
    (object members span).entries path = members.flatMap (entries path) := by
  change entriesOfAll (fun _ ↦ path) 0 members = _
  rw [entriesOfAll_eq_flatMap, ← List.flatMap_map, List.zipIdx_map_fst]

theorem entries_array (path : String) (elements : List Node) (span : Span) :
    (array elements span).entries path =
      elements.zipIdx.flatMap fun item ↦ item.1.entries (stepInto path (toString item.2)) :=
  entriesOfAll_eq_flatMap (fun index ↦ stepInto path (toString index)) 0 elements

theorem entries_property (path name : String) (nameSpan : Span) (value : Node) (span : Span) :
    (property [string name nameSpan, value] span).entries path =
      ⟨stepInto path name, name, nameSpan, value, span⟩ ::
        if value.isComposite then value.entries (stepInto path name) else [] := by
  rw [entries, records, List.map_cons]
  congr 1
  split
  · exact map_snd_under 1 _
  · rfl

theorem entries_of_name?_eq_none (path : String) {parts : List Node} {span : Span}
    (hname : (property parts span).name? = none) : (property parts span).entries path = [] := by
  rw [entries, records_of_name?_eq_none path hname]
  rfl

/-- The pass goes into all values that have entries, unless a value is a property itself. -/
theorem entries_property_of_isProperty (path name : String) (nameSpan : Span) {value : Node}
    (span : Span) (hvalue : value.isProperty = false) :
    (property [string name nameSpan, value] span).entries path =
      ⟨stepInto path name, name, nameSpan, value, span⟩ :: value.entries (stepInto path name) := by
  rw [entries_property]
  cases value with
  | property => cases hvalue
  | _ => rfl

/-! ## Symbols of entries -/

theorem declared_of_name?_eq_none (path : String) {parts : List Node} {span : Span}
    (hname : (property parts span).name? = none) : (property parts span).declared path = [] := by
  unfold declared
  split <;> simp_all [name?]

mutual

/-- The symbols that a node declares are those of its entries. -/
theorem declared_eq_map_entries : ∀ (path : String) (node : Node),
    node.declared path = (node.entries path).map Entry.symbol
  | path, object members span => declaredByAll_eq path 0 members
  | path, array elements span => declaredByElements_eq path 0 elements
  | path, property parts span => by
    rcases name?_property parts span with hname | ⟨name, nameSpan, value, rfl⟩
    · rw [declared_of_name?_eq_none path hname, entries_of_name?_eq_none path hname]
      rfl
    · have hvalue := declared_eq_map_entries (stepInto path name) value
      rw [declared, entries_property, List.map_cons, hvalue]
      split <;> rfl
  | path, string value span => rfl
  | path, number source span => rfl
  | path, boolean value span => rfl
  | path, null span => rfl

theorem declaredByAll_eq : ∀ (path : String) (index : Nat) (nodes : List Node),
    declaredByAll path nodes = (entriesOfAll (fun _ ↦ path) index nodes).map Entry.symbol
  | path, index, [] => rfl
  | path, index, node :: nodes => by
    rw [declaredByAll, entriesOfAll_cons, List.map_append, declared_eq_map_entries path node,
      declaredByAll_eq path (index + 1) nodes]

theorem declaredByElements_eq : ∀ (path : String) (index : Nat) (nodes : List Node),
    declaredByElements path index nodes =
      (entriesOfAll (fun index ↦ stepInto path (toString index)) index nodes).map Entry.symbol
  | path, index, [] => rfl
  | path, index, node :: nodes => by
    rw [declaredByElements, entriesOfAll_cons, List.map_append, declared_eq_map_entries _ node,
      declaredByElements_eq path (index + 1) nodes]

end

/-! ## Properties of entries -/

mutual

/-- The properties of the entries of a node are some of its nodes, in text order. -/
theorem entries_sublist : ∀ (path : String) (node : Node),
    ((node.entries path).map Entry.property).Sublist node.preorder
  | path, object members span => (entriesOfAll_sublist _ 0 members).cons _
  | path, array elements span => (entriesOfAll_sublist _ 0 elements).cons _
  | path, property parts span => by
    rcases name?_property parts span with hname | ⟨name, nameSpan, value, rfl⟩
    · rw [entries_of_name?_eq_none path hname]
      exact List.nil_sublist _
    · have hvalue := entries_sublist (stepInto path name) value
      rw [entries_property, List.map_cons, preorder]
      apply List.Sublist.cons_cons
      rw [preorderAll, preorderAll, preorderAll, List.append_nil]
      split
      · exact hvalue.trans (List.sublist_append_right ..)
      · exact List.nil_sublist _
  | path, string value span => List.nil_sublist _
  | path, number source span => List.nil_sublist _
  | path, boolean value span => List.nil_sublist _
  | path, null span => List.nil_sublist _

theorem entriesOfAll_sublist : ∀ (paths : Nat → String) (index : Nat) (nodes : List Node),
    ((entriesOfAll paths index nodes).map Entry.property).Sublist (preorderAll nodes)
  | paths, index, [] => List.nil_sublist _
  | paths, index, node :: nodes => by
    rw [entriesOfAll_cons, List.map_append, preorderAll]
    exact (entries_sublist _ node).append (entriesOfAll_sublist paths (index + 1) nodes)

end

theorem property_mem_preorder {node : Node} {path : String} {entry : Entry}
    (hentry : entry ∈ node.entries path) : entry.property ∈ node.preorder :=
  (entries_sublist path node).subset (List.mem_map_of_mem hentry)

/-- A property is a name with a value. -/
def HasShape (node : Node) : Prop :=
  node.isProperty = true → ∃ name nameSpan value span,
    node = .property [.string name nameSpan, value] span ∧ value.isProperty = false

/-- All properties in a node are names with values. -/
def Shaped (node : Node) : Prop :=
  ∀ part ∈ node.preorder, part.HasShape

theorem shaped_iff {node : Node} :
    node.Shaped ↔ node.HasShape ∧ ∀ child ∈ node.children, child.Shaped :=
  forall_mem_preorder

mutual

/-- The entries of a node are its properties in text order. -/
theorem map_property_entries : ∀ (path : String) (node : Node), node.Shaped →
    (node.entries path).map Entry.property = node.preorder.filter isProperty
  | path, object members span, hshaped => by
    rw [preorder, List.filter_cons_of_neg Bool.false_ne_true]
    exact map_property_entriesOfAll _ 0 members (shaped_iff.1 hshaped).2
  | path, array elements span, hshaped => by
    rw [preorder, List.filter_cons_of_neg Bool.false_ne_true]
    exact map_property_entriesOfAll _ 0 elements (shaped_iff.1 hshaped).2
  | path, property parts span, hshaped => by
    obtain ⟨hself, hparts⟩ := shaped_iff.1 hshaped
    obtain ⟨name, nameSpan, value, span', hnode, hproperty⟩ := hself rfl
    obtain ⟨rfl, rfl⟩ := Node.property.inj hnode
    have hvalue := map_property_entries (stepInto path name) value
      (hparts value (by simp [children]))
    rw [entries_property_of_isProperty _ _ _ _ hproperty, List.map_cons, hvalue, preorder,
      List.filter_cons_of_pos rfl]
    simp [preorderAll, preorder, isProperty, Entry.property]
  | path, string value span, hshaped => rfl
  | path, number source span, hshaped => rfl
  | path, boolean value span, hshaped => rfl
  | path, null span, hshaped => rfl

theorem map_property_entriesOfAll : ∀ (paths : Nat → String) (index : Nat) (nodes : List Node),
    (∀ node ∈ nodes, node.Shaped) →
      (entriesOfAll paths index nodes).map Entry.property = (preorderAll nodes).filter isProperty
  | paths, index, [], hshaped => rfl
  | paths, index, node :: nodes, hshaped => by
    obtain ⟨hnode, hnodes⟩ := List.forall_mem_cons.1 hshaped
    rw [entriesOfAll_cons, List.map_append, map_property_entries _ node hnode,
      map_property_entriesOfAll paths (index + 1) nodes hnodes, preorderAll, List.filter_append]

end

end Node

end LinkedJson
