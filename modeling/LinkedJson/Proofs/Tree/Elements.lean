import LinkedJson.Proofs.Symbol.Entries
import LinkedJson.Proofs.Tree.Nesting
import LinkedJson.Reading

/-!
# The elements of a broken container

An object or an array with mistakes in it keeps all of its complete elements. Those that stand in it
are read whatever is wrong further down, and those that an error took up are given back if nothing
is wrong in them. The elements come in text order, each once, and an element of an array is counted
by the complete elements in front of it.
-/

namespace LinkedJson

theorem Span.InOrder.pairwise {low high : Nat} {spans : List Span}
    (horder : InOrder low high spans) :
    spans.Pairwise fun first second ↦ first.limit ≤ second.offset := by
  induction spans generalizing low with
  | nil => exact .nil
  | cons span rest ih =>
    rw [List.pairwise_cons]
    exact ⟨fun later hlater ↦ (horder.2.bounds hlater).1, ih horder.2⟩

namespace Tree

/-- Whether a tree is a value or a pair, and no fault itself. -/
def isSound (tree : Tree) : Bool :=
  !tree.isFault && (tree.kind.isValue || tree.kind == .pair)

/-- The complete elements that a tree of a container gives: itself, or the elements without a fault
in them that it holds if it is an error. -/
def kept (place : Place) (tree : Tree) : List Tree :=
  if tree.isError then tree.children.filter (isElement place)
  else if tree.isSound then [tree]
  else []

/-- The complete elements among the trees of a container, from left to right. -/
def complete (place : Place) (trees : List Tree) : List Tree :=
  trees.flatMap (kept place)

variable {text : List Char}

/-- Exactly the sound trees stand for a node. -/
theorem isSome_node? (text : List Char) (tree : Tree) :
    (tree.node? text).isSome = tree.isSound := by
  obtain ⟨kind, start, stop, missing, children⟩ := tree
  cases missing <;> cases kind <;> rfl

theorem isSound_of_isElement {place : Place} {tree : Tree}
    (helement : tree.isElement place = true) : tree.isSound = true := by
  obtain ⟨kind, start, stop, missing, children⟩ := tree
  rw [isElement.eq_def, Bool.and_eq_true, Bool.not_eq_true', hasFault,
    Bool.or_eq_false_iff] at helement
  obtain ⟨⟨hfault, -⟩, hkind⟩ := helement
  rw [isSound, Bool.and_eq_true, Bool.not_eq_true', Bool.or_eq_true]
  refine ⟨hfault, ?_⟩
  cases place with
  | member => exact .inr hkind
  | value => exact .inl hkind

/-- A tree that stands for a node gives just that one. -/
theorem map_some_toList {tree : Tree} (hsound : tree.isSound = true) :
    (tree.node? text).toList.map some = [tree.node? text] := by
  rw [← isSome_node? text] at hsound
  obtain ⟨value, hvalue⟩ := Option.isSome_iff_exists.1 hsound
  rw [hvalue]
  rfl

theorem map_some_recovered (text : List Char) (place : Place) (trees : List Tree) :
    (recovered text place trees).map some =
      (trees.filter (isElement place)).map (node? text) := by
  induction trees with
  | nil => rfl
  | cons tree trees ih =>
    rw [recovered, List.map_append, ih]
    by_cases helement : isElement place tree = true
    · rw [if_pos helement, map_some_toList (isSound_of_isElement helement),
        List.filter_cons_of_pos helement]
      rfl
    · rw [if_neg helement, List.filter_cons_of_neg helement]
      rfl

theorem complete_cons (place : Place) (tree : Tree) (trees : List Tree) :
    complete place (tree :: trees) = kept place tree ++ complete place trees :=
  List.flatMap_cons

theorem elements_cons_eq (text : List Char) (place : Place) (tree : Tree) (trees : List Tree) :
    elements text place (tree :: trees) =
      (if tree.isError then recovered text place tree.children else (tree.node? text).toList) ++
        elements text place trees := by
  cases tree
  rfl

/-- The nodes of a container are those of its complete elements. -/
theorem map_some_elements (text : List Char) (place : Place) (trees : List Tree) :
    (elements text place trees).map some = (complete place trees).map (node? text) := by
  induction trees with
  | nil => rfl
  | cons tree trees ih =>
    rw [elements_cons_eq, List.map_append, ih, complete_cons, List.map_append, kept]
    congr 1
    by_cases herror : tree.isError = true
    · rw [if_pos herror, if_pos herror, map_some_recovered]
    · rw [if_neg herror, if_neg herror]
      by_cases hsound : tree.isSound = true
      · rw [if_pos hsound, map_some_toList hsound]
        rfl
      · have hnone : tree.node? text = none := by
          rw [← Option.not_isSome_iff_eq_none, isSome_node?]
          exact hsound
        rw [if_neg hsound, hnone]
        rfl

theorem isSound_of_mem_complete {place : Place} {trees : List Tree} {tree : Tree}
    (hmem : tree ∈ complete place trees) : tree.isSound = true := by
  obtain ⟨source, -, hkept⟩ := List.mem_flatMap.1 hmem
  unfold kept at hkept
  split at hkept
  · exact isSound_of_isElement (List.mem_filter.1 hkept).2
  · split at hkept
    · next hsound =>
      rw [List.mem_singleton.1 hkept]
      exact hsound
    · cases hkept

theorem map_span_complete (text : List Char) (place : Place) (trees : List Tree) :
    (complete place trees).map span = (elements text place trees).map Node.span := by
  have hspans : ∀ tree ∈ complete place trees,
      (tree.node? text).map Node.span = some tree.span := by
    intro tree hmem
    have hsound := isSound_of_mem_complete hmem
    rw [← isSome_node? text] at hsound
    obtain ⟨value, hvalue⟩ := Option.isSome_iff_exists.1 hsound
    rw [hvalue, Option.map_some, span_node? hvalue]
  apply (List.map_inj_right fun _ _ ↦ Option.some.inj).1
  calc ((complete place trees).map span).map some
    _ = ((complete place trees).map (node? text)).map (Option.map Node.span) := by
      rw [List.map_map, List.map_map]
      exact (List.map_congr_left hspans).symm
    _ = ((elements text place trees).map some).map (Option.map Node.span) := by
      rw [map_some_elements]
    _ = ((elements text place trees).map Node.span).map some := by
      rw [List.map_map, List.map_map]
      rfl

end Tree

/-! ## Elements and pointers -/

namespace Node

theorem declared_array (path : String) (elements : List Node) (span : Span) :
    (array elements span).declared path =
      elements.zipIdx.flatMap fun item ↦ item.1.declared (stepInto path (toString item.2)) := by
  simp only [declared_eq_map_entries, entries_array, List.map_flatMap]

end Node

namespace Tree

/-- The symbols that trees declare as the elements of an array. The step into each of them is the
number of those in front of it. -/
def declaredInArray (text : List Char) (path : String) (trees : List Tree) : List Symbol :=
  trees.zipIdx.flatMap fun item ↦
    (item.1.node? text).elim [] (Node.declared (stepInto path (toString item.2)))

theorem declared_array_elements (text : List Char) (path : String) (trees : List Tree)
    (span : Span) :
    (Node.array (elements text .value trees) span).declared path =
      declaredInArray text path (complete .value trees) := by
  let declaredAt (item : Option Node × Nat) : List Symbol :=
    item.1.elim [] (Node.declared (stepInto path (toString item.2)))
  calc (Node.array (elements text .value trees) span).declared path
    _ = ((elements text .value trees).map some).zipIdx.flatMap declaredAt := by
      rw [Node.declared_array, List.zipIdx_map, List.flatMap_map]
      rfl
    _ = ((complete .value trees).map (node? text)).zipIdx.flatMap declaredAt := by
      rw [map_some_elements]
    _ = declaredInArray text path (complete .value trees) := by
      rw [List.zipIdx_map, List.flatMap_map]
      rfl

theorem pairwise_complete (place : Place) {trees : List Tree} {low high : Nat}
    (horder : Span.InOrder low high (trees.map span))
    (hholds : ∀ tree ∈ trees, tree.span.Holds (tree.children.map span)) :
    (complete place trees).Pairwise fun first second ↦ first.span.limit ≤ second.span.offset := by
  have hnodes := (inOrder_elements [] place horder hholds).pairwise
  rw [← map_span_complete] at hnodes
  exact List.pairwise_map.1 hnodes

/-! ## Documents -/

theorem mem_preorder_of_child {tree child part : Tree} (hchild : child ∈ tree.children)
    (hpart : part ∈ child.preorder) : part ∈ tree.preorder := by
  rw [preorder_eq]
  exact List.mem_cons_of_mem _ (mem_preorderAll.2 ⟨child, hchild, hpart⟩)

/-- Every node of a document is the value of a tree in it. -/
theorem exists_mem_preorder_rootNode {tree : Tree} {root : Node}
    (hroot : tree.rootNode text = some root) {part : Node} (hpart : part ∈ root.preorder) :
    ∃ source ∈ tree.preorder, source.node? text = some part := by
  unfold rootNode at hroot
  split at hroot
  · obtain ⟨child, hchild, hvalue⟩ := List.exists_of_findSome?_eq_some hroot
    obtain ⟨source, hsource, hnode⟩ := exists_mem_preorder_node? text child hvalue part hpart
    exact ⟨source, mem_preorder_of_child (List.mem_filter.1 hchild).1 hsource, hnode⟩
  · exact exists_mem_preorder_node? text tree hroot part hpart

/-- The value of a nested document is nested. -/
theorem Nested.rootNode {tree : Tree} (hnested : tree.Nested) {root : Node}
    (hroot : tree.rootNode text = some root) : root.Nested := by
  unfold Tree.rootNode at hroot
  split at hroot
  · obtain ⟨child, hchild, hvalue⟩ := List.exists_of_findSome?_eq_some hroot
    have hinner : child.Nested := fun part hpart ↦
      hnested part (mem_preorder_of_child (List.mem_filter.1 hchild).1 hpart)
    exact hinner.node? hvalue
  · exact hnested.node? hroot

end Tree

/-- In a document whose trees lie one after another inside the trees that hold them, the nodes do so
as well, at every depth. The nodes in each object and each array are those of its complete elements,
from left to right and each once, whatever is wrong beside or inside them. The step that leads into
an element of an array is the number of complete elements in front of it. -/
theorem complete_elements_kept (text : List Char) {tree : Tree} (hnested : tree.Nested)
    {root : Node} (hroot : (Reading.ofTree text tree).root = some root) :
    root.Nested ∧
    (∀ part ∈ root.preorder, ∃ source ∈ tree.preorder, source.node? text = some part) ∧
    ∀ source ∈ tree.preorder,
      (∀ {members span}, source.node? text = some (.object members span) →
        members.map some = (Tree.complete .member source.children).map (Tree.node? text)) ∧
      ∀ {elements span}, source.node? text = some (.array elements span) →
        elements.map some = (Tree.complete .value source.children).map (Tree.node? text) ∧
        (Tree.complete .value source.children).Pairwise (fun first second ↦
          first.span.limit ≤ second.span.offset) ∧
        ∀ path, (Node.array elements span).declared path =
          Tree.declaredInArray text path (Tree.complete .value source.children) := by
  refine ⟨hnested.rootNode hroot, fun part hpart ↦
    Tree.exists_mem_preorder_rootNode hroot hpart, fun source hsource ↦ ⟨?_, ?_⟩⟩
  · intro members span hnode
    cases Tree.standsFor_of_node? hnode
    exact Tree.map_some_elements text .member source.children
  · intro elements span hnode
    have hholds : ∀ child ∈ source.children, child.span.Holds (child.children.map Tree.span) :=
      fun child hchild ↦ hnested child (tree.mem_preorder_of_mem_children hsource hchild)
    cases Tree.standsFor_of_node? hnode
    exact ⟨Tree.map_some_elements text .value source.children,
      Tree.pairwise_complete .value (hnested source hsource) hholds,
      fun path ↦ Tree.declared_array_elements text path source.children source.span⟩

/-- The text `[1 oops {"$ref": "x"} 5]`, in which two commas are missing and one word is none. -/
def straysText : List Char :=
  ['[', '1', ' ', 'o', 'o', 'p', 's', ' ', '\x7b', '"', '$', 'r', 'e', 'f', '"', ':', ' ', '"', 'x',
    '"', '\x7d', ' ', '5', ']']

/-- The array of that text, with two of its three elements in an error. -/
def straysArray : Tree :=
  .node .array 0 24 false
    [.node .openBracket 0 1 false [],
      .node .error 1 21 false
        [.node .number 1 2 false [],
          .node .error 3 7 false [],
          .node .object 8 21 false
            [.node .openBrace 8 9 false [],
              .node .pair 9 20 false
                [.node .string 9 15 false
                    [.node .quote 9 10 false [], .node .other 10 14 false [],
                      .node .quote 14 15 false []],
                  .node .colon 15 16 false [],
                  .node .string 17 20 false
                    [.node .quote 17 18 false [], .node .other 18 19 false [],
                      .node .quote 19 20 false []]],
              .node .closeBrace 20 21 false []]],
      .node .number 22 23 false [],
      .node .closeBracket 23 24 false []]

def straysTree : Tree :=
  .node .document 0 24 false [straysArray]

theorem complete_elements_kept_strays :
    ∃ elements, (Reading.ofTree straysText straysTree).root = some (.array elements ⟨0, 24⟩) ∧
      (Node.array elements ⟨0, 24⟩).Nested ∧
      (Tree.complete .value straysArray.children).map Tree.span = [⟨1, 1⟩, ⟨8, 13⟩, ⟨22, 1⟩] ∧
      elements.map some = (Tree.complete .value straysArray.children).map (Tree.node? straysText) ∧
      (Node.array elements ⟨0, 24⟩).declared "" = [⟨"/1/$ref", ⟨9, 11⟩, ⟨17, 3⟩, some "x"⟩] := by
  have hnested : straysTree.Nested := by decide +kernel
  have harray : straysArray ∈ straysTree.preorder :=
    Tree.mem_preorder_of_child List.mem_cons_self List.mem_cons_self
  obtain ⟨hroot, -, hsources⟩ := complete_elements_kept straysText hnested rfl
  obtain ⟨helements, -, hdeclared⟩ := (hsources straysArray harray).2 rfl
  have hsymbols : Tree.declaredInArray straysText "" (Tree.complete .value straysArray.children) =
      [⟨"/1/$ref", ⟨9, 11⟩, ⟨17, 3⟩, some "x"⟩] := by decide +kernel
  exact ⟨_, rfl, hroot, by decide +kernel, helements, (hdeclared "").trans hsymbols⟩

end LinkedJson
