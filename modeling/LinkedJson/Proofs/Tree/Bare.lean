import LinkedJson.Proofs.Tree.Nesting
import LinkedJson.Reading

/-!
# Trees without faults

A tree without faults has no syntax errors, and its punctuation and comments have no part in what is
read off it: dropping them changes neither the value nor the errors. A front end may therefore keep
them in the trees that it gives for texts of the grammar, as long as these trees are otherwise the
trees of the grammar.
-/

namespace LinkedJson.Tree

/-! ## Faults -/

mutual

theorem hasFault_eq_false_iff : ∀ (tree : Tree),
    tree.hasFault = false ↔ ∀ part ∈ tree.preorder, part.isFault = false
  | .node kind start stop missing children => by
    rw [hasFault, preorder, List.forall_mem_cons, Bool.or_eq_false_iff,
      anyFault_eq_false_iff children]
    rfl

theorem anyFault_eq_false_iff : ∀ (trees : List Tree),
    anyFault trees = false ↔ ∀ part ∈ preorderAll trees, part.isFault = false
  | [] => by simp [anyFault, preorderAll]
  | tree :: trees => by
    rw [anyFault, preorderAll, List.forall_mem_append, Bool.or_eq_false_iff,
      hasFault_eq_false_iff tree, anyFault_eq_false_iff trees]

end

theorem anyFault_eq_false_iff_forall {trees : List Tree} :
    anyFault trees = false ↔ ∀ tree ∈ trees, tree.hasFault = false := by
  induction trees with
  | nil => simp [anyFault]
  | cons tree trees ih => simp [anyFault, ih]

theorem isFault_of_hasFault {tree : Tree} (hsound : tree.hasFault = false) :
    tree.isFault = false := by
  rw [hasFault_eq_false_iff, forall_mem_preorder] at hsound
  exact hsound.1

theorem anyFault_children {tree : Tree} (hsound : tree.hasFault = false) :
    anyFault tree.children = false := by
  obtain ⟨kind, first, last, missing, below⟩ := tree
  rw [hasFault, Bool.or_eq_false_iff] at hsound
  exact hsound.2

mutual

theorem errors_of_hasFault (text : List Char) : ∀ (place : Place) (tree : Tree),
    tree.hasFault = false → errors text place tree = []
  | place, .node kind start stop missing children, hsound => by
    have hchildren := anyFault_children hsound
    have hparts : children.filter isFault = [] :=
      List.filter_eq_nil_iff.2 fun tree hmem ↦ by
        simp [isFault_of_hasFault (anyFault_eq_false_iff_forall.1 hchildren tree hmem)]
    have hself : (kind == .error || missing) = false := isFault_of_hasFault hsound
    rw [Bool.or_eq_false_iff] at hself
    obtain ⟨hkind, rfl⟩ := hself
    cases kind with
    | error => cases hkind
    | object => exact errorsOfAll_of_anyFault text .member children hchildren
    | array => exact errorsOfAll_of_anyFault text .value children hchildren
    | pair => exact errorsOfAll_of_anyFault text .value children hchildren
    | string =>
      change (children.filter isFault).map (report text .value) = []
      rw [hparts]
      rfl
    | _ => rfl

theorem errorsOfAll_of_anyFault (text : List Char) : ∀ (place : Place) (trees : List Tree),
    anyFault trees = false → errorsOfAll text place trees = []
  | place, [], hsound => rfl
  | place, tree :: trees, hsound => by
    rw [anyFault, Bool.or_eq_false_iff] at hsound
    rw [errorsOfAll, errors_of_hasFault text place tree hsound.1,
      errorsOfAll_of_anyFault text place trees hsound.2]
    rfl

end

/-! ## Punctuation and comments -/

mutual

/-- A tree without the punctuation and the comments in it. -/
def bare : Tree → Tree
  | node kind start stop missing children => node kind start stop missing (bareAll children)

/-- The values and pairs among some trees, without the punctuation and the comments in them. -/
def bareAll : List Tree → List Tree
  | [] => []
  | tree :: trees =>
    if tree.kind.isValue || tree.kind == .pair then bare tree :: bareAll trees else bareAll trees

end

@[simp]
theorem kind_bare (tree : Tree) : tree.bare.kind = tree.kind := by
  cases tree
  rfl

@[simp]
theorem span_bare (tree : Tree) : tree.bare.span = tree.span := by
  cases tree
  rfl

mutual

theorem hasFault_bare : ∀ (tree : Tree), tree.hasFault = false → tree.bare.hasFault = false
  | .node kind start stop missing children, hsound => by
    rw [hasFault, Bool.or_eq_false_iff] at hsound
    rw [bare, hasFault, Bool.or_eq_false_iff]
    exact ⟨hsound.1, anyFault_bareAll children hsound.2⟩

theorem anyFault_bareAll : ∀ (trees : List Tree),
    anyFault trees = false → anyFault (bareAll trees) = false
  | [], hsound => rfl
  | tree :: trees, hsound => by
    rw [anyFault, Bool.or_eq_false_iff] at hsound
    rw [bareAll]
    split
    · rw [anyFault, Bool.or_eq_false_iff]
      exact ⟨hasFault_bare tree hsound.1, anyFault_bareAll trees hsound.2⟩
    · exact anyFault_bareAll trees hsound.2

end

theorem node?_of_not_kept (text : List Char) {tree : Tree}
    (hkept : ¬ (tree.kind.isValue || tree.kind == .pair) = true) : tree.node? text = none := by
  rw [Option.eq_none_iff_forall_ne_some]
  intro value hvalue
  apply hkept
  cases standsFor_of_node? hvalue with
  | object hkind | array hkind | pair hkind | string hkind | number hkind | trueWord hkind
  | falseWord hkind | nullWord hkind =>
    rw [hkind]
    rfl

/-- Where no tree is a fault, there is nothing to recover. -/
theorem elements_eq_parts (text : List Char) (place : Place) {trees : List Tree}
    (hsound : ∀ tree ∈ trees, tree.isFault = false) :
    elements text place trees = parts text trees := by
  induction trees with
  | nil => rfl
  | cons tree trees ih =>
    obtain ⟨hself, hrest⟩ := List.forall_mem_cons.1 hsound
    obtain ⟨kind, first, last, missing, below⟩ := tree
    have hkind : (kind == .error) = false := (Bool.or_eq_false_iff.1 hself).1
    rw [elements, parts, ih hrest, hkind]
    rfl

theorem elements_of_anyFault (text : List Char) (place : Place) {trees : List Tree}
    (hsound : anyFault trees = false) : elements text place trees = parts text trees :=
  elements_eq_parts text place fun tree hmem ↦
    isFault_of_hasFault (anyFault_eq_false_iff_forall.1 hsound tree hmem)

mutual

/-- Punctuation and comments have no part in the value of a tree without faults. -/
theorem node?_bare (text : List Char) : ∀ (tree : Tree), tree.hasFault = false →
    tree.bare.node? text = tree.node? text
  | .node kind start stop missing children, hsound => by
    have hchildren : anyFault children = false := anyFault_children hsound
    have hparts := parts_bareAll text children hchildren
    have helements : ∀ place, elements text place (bareAll children) =
        elements text place children := fun place ↦ by
      rw [elements_of_anyFault text place hchildren,
        elements_of_anyFault text place (anyFault_bareAll children hchildren), hparts]
    -- Only containers look at their children, and they see the same nodes among them.
    cases missing <;> cases kind <;> simp only [bare, node?, helements, hparts]

theorem parts_bareAll (text : List Char) : ∀ (trees : List Tree), anyFault trees = false →
    parts text (bareAll trees) = parts text trees
  | [], hsound => rfl
  | tree :: trees, hsound => by
    rw [anyFault, Bool.or_eq_false_iff] at hsound
    rw [bareAll, parts]
    split
    · rw [parts, node?_bare text tree hsound.1, parts_bareAll text trees hsound.2]
    · next hkept =>
      rw [node?_of_not_kept text hkept, parts_bareAll text trees hsound.2]
      rfl

end

theorem contentErrors_map_bare (text : List Char) {trees : List Tree}
    (hsound : ∀ tree ∈ trees, tree.hasFault = false) :
    contentErrors text (trees.map bare) = contentErrors text trees := by
  induction trees with
  | nil => rfl
  | cons tree trees ih =>
    obtain ⟨htree, htrees⟩ := List.forall_mem_cons.1 hsound
    have hbehind : (trees.map bare).map (fun rest ↦ SyntaxError.mk .endOfFileExpected rest.span) =
        trees.map fun rest ↦ SyntaxError.mk .endOfFileExpected rest.span := by
      simp
    rw [List.map_cons, contentErrors, contentErrors, errors_of_hasFault text .value tree htree,
      errors_of_hasFault text .value tree.bare (hasFault_bare tree htree),
      node?_bare text tree htree, hbehind, ih htrees]

theorem findSome?_map_bare (text : List Char) {trees : List Tree}
    (hsound : ∀ tree ∈ trees, tree.hasFault = false) :
    (trees.map bare).findSome? (node? text) = trees.findSome? (node? text) := by
  induction trees with
  | nil => rfl
  | cons tree trees ih =>
    obtain ⟨htree, htrees⟩ := List.forall_mem_cons.1 hsound
    rw [List.map_cons, List.findSome?_cons, List.findSome?_cons, node?_bare text tree htree,
      ih htrees]

theorem ofTree_document (text : List Char) {tree : Tree} (hkind : tree.kind = .document) :
    Reading.ofTree text tree =
      ⟨tree.contents.findSome? (node? text), contentErrors text tree.contents⟩ := by
  rw [Reading.ofTree, rootNode, allErrors, hkind]
  rfl

/-- Two documents with the same values, one of them with punctuation and comments, are read alike.
-/
theorem ofTree_eq_of_map_bare (text : List Char) {tree written : Tree}
    (htree : tree.kind = .document) (hwritten : written.kind = .document)
    (hsound : tree.hasFault = false) (hbare : tree.contents.map bare = written.children) :
    Reading.ofTree text tree = Reading.ofTree text written := by
  have hcontents : ∀ part ∈ tree.contents, part.hasFault = false := fun part hpart ↦
    anyFault_eq_false_iff_forall.1 (anyFault_children hsound) part (List.mem_filter.1 hpart).1
  have hvalues : written.contents = tree.contents.map bare := by
    rw [contents, ← hbare, List.filter_eq_self]
    intro part hpart
    obtain ⟨source, hsource, rfl⟩ := List.mem_map.1 hpart
    rw [kind_bare]
    exact (List.mem_filter.1 hsource).2
  rw [ofTree_document text htree, ofTree_document text hwritten, hvalues,
    contentErrors_map_bare text hcontents, findSome?_map_bare text hcontents]

end LinkedJson.Tree

namespace LinkedJson.Recovery

/-- A front end is faithful to the grammar if the trees that it gives for texts of the grammar have
no faults and, but for punctuation and comments, the values of the grammar's trees. -/
def Faithful (recovery : Recovery) : Prop :=
  ∀ text tree written, recovery text = some tree → Grammar.tree? text.toList = some written →
    tree.kind = .document ∧ tree.hasFault = false ∧ tree.contents.map Tree.bare = written.children

/-- A faithful front end reads a text of the grammar as the grammar does. -/
theorem Faithful.reader_eq {recovery : Recovery} (hfaithful : recovery.Faithful) {text : String}
    {written : Tree} (hwritten : Grammar.tree? text.toList = some written) :
    recovery.reader text = some (Reading.ofTree text.toList written) := by
  have hkind : written.kind = .document := by
    obtain ⟨values, -, rfl⟩ := Option.map_eq_some_iff.1 hwritten
    rfl
  rw [reader]
  cases hrecovery : recovery text with
  | none => rw [Option.none_or, hwritten, Option.map_some]
  | some tree =>
    obtain ⟨htree, hsound, hbare⟩ := hfaithful text tree written hrecovery hwritten
    rw [Option.some_or, Option.map_some,
      Tree.ofTree_eq_of_map_bare text.toList htree hkind hsound hbare]

end LinkedJson.Recovery
