import LinkedJson.Proofs.Grammar.Regular
import LinkedJson.Proofs.Symbol.Entries

/-!
# Values of the grammar

The value of a text of the grammar has nested spans, its properties are names with values, and its
strings cover literals of the text. Each of these is read off the tree that a node comes from.
-/

namespace LinkedJson

/-- What holds of the value of a text of the grammar. -/
structure Node.Regular (text : List Char) (node : Node) : Prop where
  nested : node.Nested
  shaped : node.Shaped
  literal : ∀ {value span}, Node.string value span ∈ node.preorder →
    IsLiteral text span.offset span.limit

namespace Tree

variable {text : List Char} {tree : Tree} {value : Node}

theorem node?_of_string (text : List Char) (hkind : tree.kind = .string)
    (hsound : tree.isFault = false) :
    tree.node? text = some (.string (Literal.value (tree.chars text)) tree.span) := by
  obtain ⟨kind, start, stop, missing, children⟩ := tree
  obtain rfl : kind = .string := hkind
  obtain rfl : missing = false := hsound
  rfl

theorem exists_node?_of_isValue (text : List Char) (hkind : tree.kind.isValue = true)
    (hsound : tree.isFault = false) :
    ∃ value, tree.node? text = some value ∧ value.isProperty = false := by
  obtain ⟨kind, start, stop, missing, children⟩ := tree
  obtain rfl : missing = false := (Bool.or_eq_false_iff.1 hsound).2
  cases kind with
  | object | array | string | number | trueWord | falseWord | nullWord => exact ⟨_, rfl, rfl⟩
  | _ => cases hkind

theorem hasShape_node? (htree : tree.IsRegular text)
    (hchildren : ∀ child ∈ tree.children, child.IsRegular text)
    (hvalue : tree.node? text = some value) : value.HasShape := by
  intro hproperty
  cases standsFor_of_node? hvalue with
  | pair hpair =>
    obtain ⟨name, inner, hparts, hname, hinner⟩ := htree.pair hpair
    rw [hparts, List.forall_mem_cons, List.forall_mem_singleton] at hchildren
    obtain ⟨found, hfound, hshape⟩ :=
      exists_node?_of_isValue text hinner hchildren.2.isFault_eq
    refine ⟨Literal.value (name.chars text), name.span, found, tree.span, ?_, hshape⟩
    rw [hparts, parts, parts, parts, node?_of_string text hname hchildren.1.isFault_eq, hfound]
    rfl
  | _ => cases hproperty

theorem isLiteral_node? {string : String} {span : Span} (htree : tree.IsRegular text)
    (hvalue : tree.node? text = some (.string string span)) :
    IsLiteral text span.offset span.limit := by
  have hspan : span = tree.span := span_node? hvalue
  have hkind : tree.kind = .string := by
    cases standsFor_of_node? hvalue with
    | string hkind => exact hkind
  have hstop : tree.span.limit = tree.stop := Nat.add_sub_cancel' htree.start_le_stop
  rw [hspan, hstop]
  exact htree.literal hkind

/-- The value of a regular tree is regular. -/
theorem Regular.node? (hregular : tree.Regular text) (hvalue : tree.node? text = some value) :
    value.Regular text where
  nested := Nested.node? (fun part hpart ↦ (hregular part hpart).holds) hvalue
  shaped := by
    intro part hpart
    obtain ⟨source, hsource, hnode⟩ := exists_mem_preorder_node? text tree hvalue part hpart
    refine hasShape_node? (hregular source hsource) (fun child hchild ↦ ?_) hnode
    exact hregular child (mem_preorder_of_mem_children tree hsource hchild)
  literal := by
    intro string span hstring
    obtain ⟨source, hsource, hnode⟩ := exists_mem_preorder_node? text tree hvalue _ hstring
    exact isLiteral_node? (hregular source hsource) hnode

end Tree

/-- The value of a text of the grammar is regular. -/
theorem Grammar.regular_rootNode {text : List Char} {tree : Tree} (htree : tree? text = some tree)
    {root : Node} (hroot : tree.rootNode text = some root) : root.Regular text := by
  obtain ⟨hkind, hregular⟩ := regular_of_tree? htree
  rw [Tree.rootNode, hkind] at hroot
  obtain ⟨value, hvalue, hnode⟩ := List.exists_of_findSome?_eq_some hroot
  have hchildren := (Tree.regular_iff.1 hregular).2
  exact (hchildren value (List.mem_filter.1 hvalue).1).node? hnode

end LinkedJson
