import LinkedJson.Proofs.Symbol.Walk
import Mathlib.Data.List.Lex
import Mathlib.Data.Set.Defs

/-!
# The properties that are recorded

The pass over a document goes into the members of an object, into the elements of an array, and into
the composite value of a property with a name, whatever the shape of the document is. A property
with a name that it comes to is recorded, and so it has a place in the document: the indices of the
children on the way to it. Places are compared lexicographically, which puts a node before all that
is below it, and that before the siblings of the node.
-/

namespace LinkedJson

namespace Node

/-! ## The way to a property -/

/-- One step of the pass, from a node with its path to a child with its own. The number is the index
of the child. -/
inductive Enters (path : String) : Node → Nat → String → Node → Prop where
  | member {members : List Node} {span : Span} {index : Nat} {member : Node}
    (hget : members[index]? = some member) :
    Enters path (object members span) index path member
  | element {elements : List Node} {span : Span} {index : Nat} {element : Node}
    (hget : elements[index]? = some element) :
    Enters path (array elements span) index (stepInto path (toString index)) element
  | value {name : String} {nameSpan : Span} {value : Node} {span : Span}
    (hcomposite : value.isComposite = true) :
    Enters path (property [string name nameSpan, value] span) 1 (stepInto path name) value

/-- Steps of the pass one after another, and the place that they lead to. -/
inductive Visits : String → Node → List Nat → String → Node → Prop where
  | here (path : String) (node : Node) : Visits path node [] path node
  | step {path next last : String} {node child found : Node} {index : Nat} {place : List Nat}
    (henters : Enters path node index next child) (hvisits : Visits next child place last found) :
    Visits path node (index :: place) last found

/-- A property with a name is recorded at a place, under the path to it and its name. -/
def Records (path : String) (node : Node) (place : List Nat) (entry : Entry) : Prop :=
  ∃ last, Visits path node place last entry.property ∧ entry.pointer = stepInto last entry.name

/-- The places of a document at which a pointer is recorded. -/
def places (root : Node) (pointer : String) : Set (List Nat) :=
  {place | ∃ entry, root.Records "" place entry ∧ entry.pointer = pointer}

theorem records_iff {path : String} {node : Node} {place : List Nat} {entry : Entry} :
    node.Records path place entry ↔
      (place = [] ∧ node = entry.property ∧ entry.pointer = stepInto path entry.name) ∨
        ∃ index rest next child, place = index :: rest ∧ Enters path node index next child ∧
          child.Records next rest entry := by
  constructor
  · rintro ⟨last, hvisits, hpointer⟩
    cases hvisits with
    | here => exact .inl ⟨rfl, rfl, hpointer⟩
    | step henters hvisits => exact .inr ⟨_, _, _, _, rfl, henters, last, hvisits, hpointer⟩
  · rintro (⟨rfl, rfl, hpointer⟩ |
      ⟨index, rest, next, child, rfl, henters, last, hvisits, hpointer⟩)
    · exact ⟨path, .here path _, hpointer⟩
    · exact ⟨last, .step henters hvisits, hpointer⟩

theorem records_object {path : String} {members : List Node} {span : Span} {place : List Nat}
    {entry : Entry} :
    (object members span).Records path place entry ↔
      ∃ index rest member, place = index :: rest ∧ members[index]? = some member ∧
        member.Records path rest entry := by
  rw [records_iff]
  constructor
  · rintro (⟨-, hnode, -⟩ | ⟨index, rest, next, member, hplace, henters, hrecords⟩)
    · cases hnode
    · cases henters with
      | member hget => exact ⟨index, rest, member, hplace, hget, hrecords⟩
  · rintro ⟨index, rest, member, hplace, hget, hrecords⟩
    exact .inr ⟨index, rest, path, member, hplace, .member hget, hrecords⟩

theorem records_array {path : String} {elements : List Node} {span : Span} {place : List Nat}
    {entry : Entry} :
    (array elements span).Records path place entry ↔
      ∃ index rest element, place = index :: rest ∧ elements[index]? = some element ∧
        element.Records (stepInto path (toString index)) rest entry := by
  rw [records_iff]
  constructor
  · rintro (⟨-, hnode, -⟩ | ⟨index, rest, next, element, hplace, henters, hrecords⟩)
    · cases hnode
    · cases henters with
      | element hget => exact ⟨index, rest, element, hplace, hget, hrecords⟩
  · rintro ⟨index, rest, element, hplace, hget, hrecords⟩
    exact .inr ⟨index, rest, _, element, hplace, .element hget, hrecords⟩

theorem records_property {path name : String} {nameSpan : Span} {value : Node} {span : Span}
    {place : List Nat} {entry : Entry} :
    (property [string name nameSpan, value] span).Records path place entry ↔
      (place = [] ∧ entry = ⟨stepInto path name, name, nameSpan, value, span⟩) ∨
        value.isComposite = true ∧ ∃ rest, place = 1 :: rest ∧
          value.Records (stepInto path name) rest entry := by
  rw [records_iff]
  constructor
  · rintro (⟨hplace, hnode, hpointer⟩ | ⟨index, rest, next, child, hplace, henters, hrecords⟩)
    · refine .inl ⟨hplace, Entry.eq_of_property ?_ hnode.symm⟩
      obtain ⟨hparts, -⟩ := Node.property.inj hnode
      obtain ⟨hname, -⟩ := List.cons.inj hparts
      rw [hpointer, (Node.string.inj hname).1]
    · cases henters with
      | value hcomposite => exact .inr ⟨hcomposite, rest, hplace, hrecords⟩
  · rintro (⟨hplace, rfl⟩ | ⟨hcomposite, rest, hplace, hrecords⟩)
    · exact .inl ⟨hplace, rfl, rfl⟩
    · exact .inr ⟨1, rest, _, value, hplace, .value hcomposite, hrecords⟩

/-- Nothing is recorded in a node that is neither composite nor a property with a name. -/
theorem not_records {path : String} {node : Node} (hcomposite : node.isComposite = false)
    (hname : node.name? = none) {place : List Nat} {entry : Entry} :
    ¬ node.Records path place entry := by
  rw [records_iff]
  rintro (⟨-, rfl, -⟩ | ⟨index, rest, next, child, -, henters, -⟩)
  · cases hname
  · cases henters with
    | member => cases hcomposite
    | element => cases hcomposite
    | value => cases hname

/-! ## All that is recorded -/

theorem mem_map_under {index : Nat} {records : List (List Nat × Entry)} {place : List Nat}
    {entry : Entry} :
    (place, entry) ∈ records.map (under index) ↔
      ∃ rest, place = index :: rest ∧ (rest, entry) ∈ records := by
  rw [List.mem_map]
  constructor
  · rintro ⟨⟨rest, entry⟩, hmem, hunder⟩
    cases hunder
    exact ⟨rest, rfl, hmem⟩
  · rintro ⟨rest, rfl, hmem⟩
    exact ⟨(rest, entry), hmem, rfl⟩

theorem mem_recordsOfAll {paths : Nat → String} {start : Nat} {nodes : List Node}
    {place : List Nat} {entry : Entry} :
    (place, entry) ∈ recordsOfAll paths start nodes ↔
      ∃ index rest child, place = (start + index) :: rest ∧ nodes[index]? = some child ∧
        (rest, entry) ∈ child.records (paths (start + index)) := by
  induction nodes generalizing start with
  | nil => simp [recordsOfAll]
  | cons node nodes ih =>
    rw [recordsOfAll, List.mem_append, mem_map_under, ih]
    constructor
    · rintro (⟨rest, hplace, hmem⟩ | ⟨index, rest, child, hplace, hget, hmem⟩)
      · exact ⟨0, rest, node, hplace, rfl, hmem⟩
      · rw [Nat.add_right_comm] at hplace hmem
        exact ⟨index + 1, rest, child, hplace, hget, hmem⟩
    · rintro ⟨index, rest, child, hplace, hget, hmem⟩
      cases index with
      | zero =>
        cases hget
        exact .inl ⟨rest, hplace, hmem⟩
      | succ index =>
        rw [← Nat.add_assoc, Nat.add_right_comm] at hplace hmem
        exact .inr ⟨index, rest, child, hplace, hget, hmem⟩

/-- The list holds what the pass records, where it records it. -/
theorem mem_records {path : String} {node : Node} {place : List Nat} {entry : Entry} :
    (place, entry) ∈ node.records path ↔ node.Records path place entry := by
  induction node using children_induction generalizing path place with
  | hstep node ih =>
    have hchildren : ∀ {paths : Nat → String}, (place, entry) ∈ recordsOfAll paths 0 node.children ↔
        ∃ index rest child, place = index :: rest ∧ node.children[index]? = some child ∧
          child.Records (paths index) rest entry := by
      intro paths
      rw [mem_recordsOfAll]
      simp only [Nat.zero_add]
      refine exists_congr fun index ↦ exists_congr fun rest ↦ exists_congr fun child ↦ ?_
      exact and_congr_right fun _ ↦ and_congr_right fun hget ↦ ih child (List.mem_of_getElem? hget)
    cases node with
    | object members span => exact hchildren.trans records_object.symm
    | array elements span => exact hchildren.trans records_array.symm
    | property parts span =>
      rcases name?_property parts span with hname | ⟨name, nameSpan, value, rfl⟩
      · rw [records_of_name?_eq_none path hname]
        exact iff_of_false List.not_mem_nil (not_records rfl hname)
      · rw [records_property, records, List.mem_cons, Prod.mk.injEq]
        refine or_congr_right ?_
        cases hcomposite : value.isComposite with
        | false => simp
        | true =>
          rw [if_pos rfl, mem_map_under, and_iff_right rfl]
          exact exists_congr fun rest ↦ and_congr_right fun _ ↦ ih value (by simp [children])
    | string | number | boolean | null =>
      exact iff_of_false List.not_mem_nil (not_records rfl rfl)

/-! ## The order of the pass -/

theorem pairwise_map_under {records : List (List Nat × Entry)}
    (hsorted : records.Pairwise (·.1 < ·.1)) (index : Nat) :
    (records.map (under index)).Pairwise (·.1 < ·.1) := by
  rw [List.pairwise_map]
  exact hsorted.imp fun hlt ↦ List.cons_lt_cons_iff.2 (.inr ⟨rfl, hlt⟩)

mutual

/-- What is recorded later has a larger place. -/
theorem pairwise_records : ∀ (path : String) (node : Node),
    (node.records path).Pairwise (·.1 < ·.1)
  | path, object members span => pairwise_recordsOfAll _ 0 members
  | path, array elements span => pairwise_recordsOfAll _ 0 elements
  | path, property parts span => by
    rcases name?_property parts span with hname | ⟨name, nameSpan, value, rfl⟩
    · rw [records_of_name?_eq_none path hname]
      exact .nil
    · have hvalue := pairwise_map_under (pairwise_records (stepInto path name) value) 1
      rw [records]
      split
      · rw [List.pairwise_cons]
        refine ⟨fun record hmem ↦ ?_, hvalue⟩
        obtain ⟨rest, hplace, -⟩ := mem_map_under.1 hmem
        rw [hplace]
        exact List.nil_lt_cons 1 rest
      · exact List.pairwise_singleton ..
  | path, string value span => .nil
  | path, number source span => .nil
  | path, boolean value span => .nil
  | path, null span => .nil

theorem pairwise_recordsOfAll : ∀ (paths : Nat → String) (start : Nat) (nodes : List Node),
    (recordsOfAll paths start nodes).Pairwise (·.1 < ·.1)
  | paths, start, [] => .nil
  | paths, start, node :: nodes => by
    have hnode := pairwise_map_under (pairwise_records (paths start) node) start
    rw [recordsOfAll, List.pairwise_append]
    refine ⟨hnode, pairwise_recordsOfAll paths (start + 1) nodes, ?_⟩
    intro first hfirst second hsecond
    obtain ⟨rest, hplace, -⟩ := mem_map_under.1 hfirst
    obtain ⟨index, rest', child, hplace', -⟩ := mem_recordsOfAll.1 hsecond
    rw [hplace, hplace']
    exact List.cons_lt_cons_iff.2 (.inl (by omega))

end

end Node

/-! ## Symbols of what is recorded -/

namespace SymbolTable

variable {root : Node}

theorem ofRoot_some (root : Node) :
    ofRoot (some root) = ofList ((root.entries "").map Entry.symbol) := by
  rw [ofRoot, root.declared_eq_map_entries ""]

theorem mem_symbols_ofRoot {symbol : Symbol} :
    symbol ∈ (ofRoot (some root)).symbols ↔
      ∃ entry, IsLastBy Entry.pointer entry (root.entries "") ∧ entry.symbol = symbol := by
  rw [ofRoot_some, mem_symbols_ofList, isLastBy_map]
  rfl

theorem nodup_pointers_ofRoot (root : Node) :
    ((ofRoot (some root)).symbols.map (·.pointer)).Nodup := by
  rw [ofRoot_some]
  exact nodup_pointers_ofList _

end SymbolTable

end LinkedJson
