import LinkedJson.Tree.Nodes

/-!
# Nesting of spans

The spans of the trees below a tree follow one another inside the span of that tree. This carries
over to the nodes that are read off the trees, also where an error node gives back the elements in
it: every node comes from a tree with the same span, and its children come from trees below that
one, in order.
-/

namespace LinkedJson

namespace Span

/-- The offset just after a span, however large it is. -/
def limit (span : Span) : Nat :=
  span.offset + span.length

theorem stop_le_limit (span : Span) : span.stop ≤ span.limit :=
  Nat.mod_le _ _

theorem stop_eq_limit {span : Span} (hfits : span.limit < UInt64.size) : span.stop = span.limit :=
  Nat.mod_eq_of_lt hfits

/-- Spans that follow one another between two offsets. -/
def InOrder (low high : Nat) : List Span → Prop
  | [] => low ≤ high
  | span :: rest => low ≤ span.offset ∧ InOrder span.limit high rest

/-- Spans that follow one another inside a span. -/
def Holds (outer : Span) (inner : List Span) : Prop :=
  InOrder outer.offset outer.limit inner

instance decidableInOrder (low high : Nat) : ∀ (spans : List Span),
    Decidable (InOrder low high spans)
  | [] => inferInstanceAs (Decidable (low ≤ high))
  | span :: rest =>
    have := decidableInOrder span.limit high rest
    inferInstanceAs (Decidable (low ≤ span.offset ∧ InOrder span.limit high rest))

instance (outer : Span) (inner : List Span) : Decidable (outer.Holds inner) :=
  inferInstanceAs (Decidable (InOrder outer.offset outer.limit inner))

theorem offset_le_limit (span : Span) : span.offset ≤ span.limit :=
  Nat.le_add_right _ _

theorem InOrder.le {low high : Nat} {spans : List Span} (horder : InOrder low high spans) :
    low ≤ high := by
  induction spans generalizing low with
  | nil => exact horder
  | cons span rest ih =>
    calc low ≤ span.offset := horder.1
      _ ≤ span.limit := span.offset_le_limit
      _ ≤ high := ih horder.2

theorem InOrder.append {low middle high : Nat} {first second : List Span}
    (hfirst : InOrder low middle first) (hsecond : InOrder middle high second) :
    InOrder low high (first ++ second) := by
  induction first generalizing low with
  | nil =>
    cases second with
    | nil => exact Nat.le_trans hfirst hsecond
    | cons span rest => exact ⟨Nat.le_trans hfirst hsecond.1, hsecond.2⟩
  | cons span rest ih => exact ⟨hfirst.1, ih hfirst.2⟩

theorem InOrder.widen {low high low' high' : Nat} {spans : List Span}
    (horder : InOrder low high spans) (hlow : low' ≤ low) (hhigh : high ≤ high') :
    InOrder low' high' spans := by
  have hbefore : InOrder low' low [] := hlow
  have hbehind : InOrder high high' [] := hhigh
  simpa only [List.nil_append, List.append_nil] using hbefore.append (horder.append hbehind)

theorem inOrder_singleton (span : Span) : InOrder span.offset span.limit [span] :=
  ⟨Nat.le_refl _, Nat.le_refl _⟩

theorem InOrder.bounds {low high : Nat} {spans : List Span} (horder : InOrder low high spans)
    {span : Span} (hmem : span ∈ spans) : low ≤ span.offset ∧ span.limit ≤ high := by
  induction spans generalizing low with
  | nil => cases hmem
  | cons first rest ih =>
    rcases List.mem_cons.1 hmem with rfl | hrest
    · exact ⟨horder.1, horder.2.le⟩
    · have hbounds := ih horder.2 hrest
      have hle := first.offset_le_limit
      exact ⟨Nat.le_trans horder.1 (Nat.le_trans hle hbounds.1), hbounds.2⟩

end Span

namespace Tree

mutual

/-- A tree and all trees below it, each before its children. -/
def preorder : Tree → List Tree
  | node kind start stop missing children =>
    node kind start stop missing children :: preorderAll children

/-- All trees of a list of trees, in text order. -/
def preorderAll : List Tree → List Tree
  | [] => []
  | tree :: trees => preorder tree ++ preorderAll trees

end

theorem preorder_eq (tree : Tree) : tree.preorder = tree :: preorderAll tree.children := by
  cases tree
  rfl

theorem mem_preorderAll {tree : Tree} {trees : List Tree} :
    tree ∈ preorderAll trees ↔ ∃ top ∈ trees, tree ∈ top.preorder := by
  induction trees with
  | nil => simp [preorderAll]
  | cons top trees ih => simp [preorderAll, ih]

theorem forall_mem_preorder {P : Tree → Prop} {tree : Tree} :
    (∀ part ∈ tree.preorder, P part) ↔
      P tree ∧ ∀ child ∈ tree.children, ∀ part ∈ child.preorder, P part := by
  rw [preorder_eq, List.forall_mem_cons]
  refine and_congr_right fun _ ↦ ⟨fun hall child hchild part hpart ↦ ?_, fun hall part hpart ↦ ?_⟩
  · exact hall part (mem_preorderAll.2 ⟨child, hchild, hpart⟩)
  · obtain ⟨child, hchild, hmem⟩ := mem_preorderAll.1 hpart
    exact hall child hchild part hmem

mutual

theorem mem_preorder_of_mem_children : ∀ (tree : Tree) {part child : Tree},
    part ∈ tree.preorder → child ∈ part.children → child ∈ tree.preorder
  | .node kind start stop missing children, part, child, hpart, hchild => by
    refine List.mem_cons_of_mem _ ?_
    rcases List.mem_cons.1 hpart with rfl | hbelow
    · refine mem_preorderAll.2 ⟨child, hchild, ?_⟩
      rw [preorder_eq]
      exact List.mem_cons_self
    · exact mem_preorderAll_of_mem_children children hbelow hchild

theorem mem_preorderAll_of_mem_children : ∀ (trees : List Tree) {part child : Tree},
    part ∈ preorderAll trees → child ∈ part.children → child ∈ preorderAll trees
  | [], part, child, hpart, hchild => by cases hpart
  | tree :: trees, part, child, hpart, hchild => by
    rcases List.mem_append.1 hpart with hfirst | hrest
    · exact List.mem_append_left _ (mem_preorder_of_mem_children tree hfirst hchild)
    · exact List.mem_append_right _ (mem_preorderAll_of_mem_children trees hrest hchild)

end

/-- In a tree and below it, the children lie one after another inside their tree. -/
def Nested (tree : Tree) : Prop :=
  ∀ part ∈ tree.preorder, part.span.Holds (part.children.map span)

instance (tree : Tree) : Decidable tree.Nested :=
  inferInstanceAs (Decidable (∀ part ∈ tree.preorder, part.span.Holds (part.children.map span)))

end Tree

namespace Node

mutual

/-- What holds of a node whenever it holds of its children holds of every node. -/
@[elab_as_elim]
theorem children_induction {P : Node → Prop}
    (hstep : ∀ node, (∀ child ∈ node.children, P child) → P node) : ∀ (node : Node), P node
  | object members span => hstep _ (children_induction_all hstep members)
  | array elements span => hstep _ (children_induction_all hstep elements)
  | property parts span => hstep _ (children_induction_all hstep parts)
  | string value span => hstep _ (by simp [children])
  | number source span => hstep _ (by simp [children])
  | boolean value span => hstep _ (by simp [children])
  | null span => hstep _ (by simp [children])

theorem children_induction_all {P : Node → Prop}
    (hstep : ∀ node, (∀ child ∈ node.children, P child) → P node) :
    ∀ (nodes : List Node), ∀ node ∈ nodes, P node
  | [] => by simp
  | node :: nodes =>
    List.forall_mem_cons.2 ⟨children_induction hstep node, children_induction_all hstep nodes⟩

end

theorem preorder_eq (node : Node) : node.preorder = node :: preorderAll node.children := by
  cases node <;> rfl

theorem mem_preorderAll {node : Node} {nodes : List Node} :
    node ∈ preorderAll nodes ↔ ∃ top ∈ nodes, node ∈ top.preorder := by
  induction nodes with
  | nil => simp [preorderAll]
  | cons top nodes ih => simp [preorderAll, ih]

theorem mem_preorderAll_append {node : Node} {first second : List Node} :
    node ∈ preorderAll (first ++ second) ↔
      node ∈ preorderAll first ∨ node ∈ preorderAll second := by
  simp only [mem_preorderAll, List.mem_append, or_and_right, exists_or]

theorem forall_mem_preorder {P : Node → Prop} {node : Node} :
    (∀ part ∈ node.preorder, P part) ↔
      P node ∧ ∀ child ∈ node.children, ∀ part ∈ child.preorder, P part := by
  rw [preorder_eq, List.forall_mem_cons]
  refine and_congr_right fun _ ↦ ⟨fun hall child hchild part hpart ↦ ?_, fun hall part hpart ↦ ?_⟩
  · exact hall part (mem_preorderAll.2 ⟨child, hchild, hpart⟩)
  · obtain ⟨child, hchild, hmem⟩ := mem_preorderAll.1 hpart
    exact hall child hchild part hmem

theorem mem_preorder_of_mem_children {node part child : Node} (hpart : part ∈ node.preorder)
    (hchild : child ∈ part.children) : child ∈ node.preorder := by
  induction node using children_induction with
  | hstep node ih =>
    rw [preorder_eq] at hpart ⊢
    refine List.mem_cons_of_mem _ ?_
    rcases List.mem_cons.1 hpart with rfl | hbelow
    · refine mem_preorderAll.2 ⟨child, hchild, ?_⟩
      rw [preorder_eq]
      exact List.mem_cons_self
    · obtain ⟨top, htop, hmem⟩ := mem_preorderAll.1 hbelow
      exact mem_preorderAll.2 ⟨top, htop, ih top htop hmem⟩

/-- In a node and below it, the children lie one after another inside their node. -/
def Nested (node : Node) : Prop :=
  ∀ part ∈ node.preorder, part.span.Holds (part.children.map span)

theorem nested_iff {node : Node} :
    node.Nested ↔
      node.span.Holds (node.children.map span) ∧ ∀ child ∈ node.children, child.Nested :=
  forall_mem_preorder

/-- All nodes below a nested node lie inside it. -/
theorem Nested.bounds {node : Node} (hnested : node.Nested) {part : Node}
    (hpart : part ∈ node.preorder) :
    node.span.offset ≤ part.span.offset ∧ part.span.limit ≤ node.span.limit := by
  induction node using children_induction with
  | hstep node ih =>
    obtain ⟨hholds, hchildren⟩ := nested_iff.1 hnested
    rw [preorder_eq] at hpart
    rcases List.mem_cons.1 hpart with rfl | hbelow
    · exact ⟨Nat.le_refl _, Nat.le_refl _⟩
    · obtain ⟨child, hchild, hmem⟩ := mem_preorderAll.1 hbelow
      have houter := Span.InOrder.bounds hholds (List.mem_map_of_mem hchild)
      have hinner := ih child hchild (hchildren child hchild) hmem
      exact ⟨Nat.le_trans houter.1 hinner.1, Nat.le_trans hinner.2 houter.2⟩

/-- Of two nodes in text order, the second one lies below the first one, or behind it. -/
def Precedes (first second : Node) : Prop :=
  second ∈ preorderAll first.children ∨ first.span.limit ≤ second.span.offset

theorem pairwise_preorderAll {nodes : List Node} {low high : Nat}
    (horder : Span.InOrder low high (nodes.map span)) (hnested : ∀ node ∈ nodes, node.Nested)
    (hpairwise : ∀ node ∈ nodes, node.preorder.Pairwise Precedes) :
    (preorderAll nodes).Pairwise Precedes := by
  induction nodes generalizing low with
  | nil => exact .nil
  | cons node nodes ih =>
    obtain ⟨hnode, hnodes⟩ := List.forall_mem_cons.1 hnested
    obtain ⟨hself, hothers⟩ := List.forall_mem_cons.1 hpairwise
    rw [preorderAll, List.pairwise_append]
    refine ⟨hself, ih horder.2 hnodes hothers, fun first hfirst second hsecond ↦ .inr ?_⟩
    obtain ⟨top, htop, hbelow⟩ := mem_preorderAll.1 hsecond
    calc first.span.limit
      _ ≤ node.span.limit := (hnode.bounds hfirst).2
      _ ≤ top.span.offset := (horder.2.bounds (List.mem_map_of_mem htop)).1
      _ ≤ second.span.offset := ((hnodes top htop).bounds hbelow).1

theorem Nested.pairwise_preorder {node : Node} (hnested : node.Nested) :
    node.preorder.Pairwise Precedes := by
  induction node using children_induction with
  | hstep node ih =>
    obtain ⟨hholds, hchildren⟩ := nested_iff.1 hnested
    rw [preorder_eq, List.pairwise_cons]
    refine ⟨fun below hbelow ↦ .inl hbelow, ?_⟩
    apply pairwise_preorderAll hholds hchildren
    intro child hchild
    exact ih child hchild (hchildren child hchild)

end Node

/-! ## From trees to nodes -/

namespace Tree

open LinkedJson.Span

/-- The kinds of trees that stand for a node, and the node of each. -/
inductive StandsFor (text : List Char) (tree : Tree) : Node → Prop where
  | object (hkind : tree.kind = .object) :
    StandsFor text tree (.object (elements text .member tree.children) tree.span)
  | array (hkind : tree.kind = .array) :
    StandsFor text tree (.array (elements text .value tree.children) tree.span)
  | pair (hkind : tree.kind = .pair) :
    StandsFor text tree (.property (parts text tree.children) tree.span)
  | string (hkind : tree.kind = .string) :
    StandsFor text tree (.string (Literal.value (tree.chars text)) tree.span)
  | number (hkind : tree.kind = .number) :
    StandsFor text tree (.number (String.ofList (tree.chars text)) tree.span)
  | trueWord (hkind : tree.kind = .trueWord) : StandsFor text tree (.boolean true tree.span)
  | falseWord (hkind : tree.kind = .falseWord) : StandsFor text tree (.boolean false tree.span)
  | nullWord (hkind : tree.kind = .nullWord) : StandsFor text tree (.null tree.span)

theorem standsFor_of_node? {text : List Char} {tree : Tree} {value : Node}
    (hvalue : tree.node? text = some value) : tree.StandsFor text value := by
  obtain ⟨kind, start, stop, missing, children⟩ := tree
  cases missing with
  | true => cases kind <;> cases hvalue
  | false =>
    cases kind with
    | object => cases hvalue; exact .object rfl
    | array => cases hvalue; exact .array rfl
    | pair => cases hvalue; exact .pair rfl
    | string => cases hvalue; exact .string rfl
    | number => cases hvalue; exact .number rfl
    | trueWord => cases hvalue; exact .trueWord rfl
    | falseWord => cases hvalue; exact .falseWord rfl
    | nullWord => cases hvalue; exact .nullWord rfl
    | _ => cases hvalue

theorem span_node? {text : List Char} {tree : Tree} {value : Node}
    (hvalue : tree.node? text = some value) : value.span = tree.span := by
  cases standsFor_of_node? hvalue <;> rfl

theorem mem_preorderAll_toList {text : List Char} {tree : Tree} {part : Node}
    (hpart : part ∈ Node.preorderAll (tree.node? text).toList) :
    ∃ value, tree.node? text = some value ∧ part ∈ value.preorder := by
  obtain ⟨value, hvalue, hmem⟩ := Node.mem_preorderAll.1 hpart
  exact ⟨value, Option.mem_toList.1 hvalue, hmem⟩

mutual

/-- Every node of the value of a tree is the value of a tree in it. -/
theorem exists_mem_preorder_node? (text : List Char) : ∀ (tree : Tree) {value : Node},
    tree.node? text = some value → ∀ part ∈ value.preorder,
      ∃ source ∈ tree.preorder, source.node? text = some part
  | .node kind start stop missing children, value, hvalue, part, hpart => by
    have hself : part = value →
        ∃ source ∈ preorder (.node kind start stop missing children),
          source.node? text = some part := by
      rintro rfl
      exact ⟨_, List.mem_cons_self, hvalue⟩
    have hbelow : (∃ source ∈ preorderAll children, source.node? text = some part) →
        ∃ source ∈ preorder (.node kind start stop missing children),
          source.node? text = some part := by
      rintro ⟨source, hmem, hsource⟩
      exact ⟨source, List.mem_cons_of_mem _ hmem, hsource⟩
    rw [Node.preorder_eq] at hpart
    rcases List.mem_cons.1 hpart with hpart | hpart
    · exact hself hpart
    apply hbelow
    cases standsFor_of_node? hvalue with
    | object => exact exists_mem_preorderAll_elements text .member children part hpart
    | array => exact exists_mem_preorderAll_elements text .value children part hpart
    | pair => exact exists_mem_preorderAll_parts text children part hpart
    | _ => cases hpart

theorem exists_mem_preorderAll_elements (text : List Char) (place : Place) :
    ∀ (trees : List Tree), ∀ part ∈ Node.preorderAll (elements text place trees),
      ∃ source ∈ preorderAll trees, source.node? text = some part
  | [], part, hpart => by cases hpart
  | .node kind start stop missing children :: trees, part, hpart => by
    rw [elements] at hpart
    -- A node of an error comes from below it, so its tree is in the preorder of the error.
    rcases Node.mem_preorderAll_append.1 hpart with hfound | hrest
    · split at hfound
      · obtain ⟨source, hmem, hsource⟩ :=
          exists_mem_preorderAll_recovered text place children part hfound
        exact ⟨source, List.mem_append_left _ (List.mem_cons_of_mem _ hmem), hsource⟩
      · obtain ⟨value, hvalue, hmem⟩ := mem_preorderAll_toList hfound
        obtain ⟨source, hmem, hsource⟩ := exists_mem_preorder_node? text _ hvalue part hmem
        exact ⟨source, List.mem_append_left _ hmem, hsource⟩
    · obtain ⟨source, hmem, hsource⟩ :=
        exists_mem_preorderAll_elements text place trees part hrest
      exact ⟨source, List.mem_append_right _ hmem, hsource⟩

theorem exists_mem_preorderAll_recovered (text : List Char) (place : Place) :
    ∀ (trees : List Tree), ∀ part ∈ Node.preorderAll (recovered text place trees),
      ∃ source ∈ preorderAll trees, source.node? text = some part
  | [], part, hpart => by cases hpart
  | tree :: trees, part, hpart => by
    rw [recovered] at hpart
    rcases Node.mem_preorderAll_append.1 hpart with hfound | hrest
    · split at hfound
      · obtain ⟨value, hvalue, hmem⟩ := mem_preorderAll_toList hfound
        obtain ⟨source, hmem, hsource⟩ := exists_mem_preorder_node? text tree hvalue part hmem
        exact ⟨source, List.mem_append_left _ hmem, hsource⟩
      · cases hfound
    · obtain ⟨source, hmem, hsource⟩ :=
        exists_mem_preorderAll_recovered text place trees part hrest
      exact ⟨source, List.mem_append_right _ hmem, hsource⟩

theorem exists_mem_preorderAll_parts (text : List Char) :
    ∀ (trees : List Tree), ∀ part ∈ Node.preorderAll (parts text trees),
      ∃ source ∈ preorderAll trees, source.node? text = some part
  | [], part, hpart => by cases hpart
  | tree :: trees, part, hpart => by
    rw [parts] at hpart
    rcases Node.mem_preorderAll_append.1 hpart with hfound | hrest
    · obtain ⟨value, hvalue, hmem⟩ := mem_preorderAll_toList hfound
      obtain ⟨source, hmem, hsource⟩ := exists_mem_preorder_node? text tree hvalue part hmem
      exact ⟨source, List.mem_append_left _ hmem, hsource⟩
    · obtain ⟨source, hmem, hsource⟩ := exists_mem_preorderAll_parts text trees part hrest
      exact ⟨source, List.mem_append_right _ hmem, hsource⟩

end

theorem inOrder_toList (text : List Char) (tree : Tree) :
    InOrder tree.span.offset tree.span.limit ((tree.node? text).toList.map Node.span) := by
  cases hvalue : tree.node? text with
  | none => exact tree.span.offset_le_limit
  | some value =>
    rw [Option.toList_some, List.map_singleton, span_node? hvalue]
    exact inOrder_singleton tree.span

theorem inOrder_parts (text : List Char) {low high : Nat} {trees : List Tree}
    (horder : InOrder low high (trees.map span)) :
    InOrder low high ((parts text trees).map Node.span) := by
  induction trees generalizing low with
  | nil => exact horder
  | cons tree trees ih =>
    rw [parts, List.map_append]
    exact ((inOrder_toList text tree).widen horder.1 (Nat.le_refl _)).append (ih horder.2)

theorem inOrder_recovered (text : List Char) (place : Place) {low high : Nat} {trees : List Tree}
    (horder : InOrder low high (trees.map span)) :
    InOrder low high ((recovered text place trees).map Node.span) := by
  induction trees generalizing low with
  | nil => exact horder
  | cons tree trees ih =>
    have hfound : InOrder low tree.span.limit
        ((if isElement place tree then (tree.node? text).toList else []).map Node.span) := by
      split
      · exact (inOrder_toList text tree).widen horder.1 (Nat.le_refl _)
      · exact Nat.le_trans horder.1 tree.span.offset_le_limit
    rw [recovered, List.map_append]
    exact hfound.append (ih horder.2)

theorem inOrder_elements (text : List Char) (place : Place) {low high : Nat} {trees : List Tree}
    (horder : InOrder low high (trees.map span))
    (hholds : ∀ tree ∈ trees, tree.span.Holds (tree.children.map span)) :
    InOrder low high ((elements text place trees).map Node.span) := by
  induction trees generalizing low with
  | nil => exact horder
  | cons tree trees ih =>
    obtain ⟨kind, first, last, missing, below⟩ := tree
    obtain ⟨htree, htrees⟩ := List.forall_mem_cons.1 hholds
    have hfound : InOrder low (Span.between first last).limit
        ((if kind == .error then recovered text place below
          else (node? text (.node kind first last missing below)).toList).map Node.span) := by
      split
      · exact (inOrder_recovered text place htree).widen horder.1 (Nat.le_refl _)
      · exact (inOrder_toList text _).widen horder.1 (Nat.le_refl _)
    rw [elements, List.map_append]
    exact hfound.append (ih horder.2 htrees)

/-- The value of a nested tree is nested. -/
theorem Nested.node? {text : List Char} {tree : Tree} (hnested : tree.Nested) {value : Node}
    (hvalue : tree.node? text = some value) : value.Nested := by
  intro part hpart
  obtain ⟨source, hmem, hsource⟩ := exists_mem_preorder_node? text tree hvalue part hpart
  have hholds : ∀ child ∈ source.children, child.span.Holds (child.children.map span) :=
    fun child hchild ↦ hnested child (mem_preorder_of_mem_children tree hmem hchild)
  rw [span_node? hsource]
  cases standsFor_of_node? hsource with
  | object => exact inOrder_elements text .member (hnested source hmem) hholds
  | array => exact inOrder_elements text .value (hnested source hmem) hholds
  | pair => exact inOrder_parts text (hnested source hmem)
  | _ => exact source.span.offset_le_limit

end Tree

end LinkedJson
