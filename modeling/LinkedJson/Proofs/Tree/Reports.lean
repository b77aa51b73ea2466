import LinkedJson.Proofs.Tree.Bare
import LinkedJson.Proofs.Tree.Elements

/-!
# Every fault is reported once

The syntax errors of a document are found by several rules: one for the trees of the document, one
for the trees in containers, one for literals. Together they report every fault that is not part of
another one, and each of them once. What follows the value of a document is reported as a whole, and
the elements that an error gives back have nothing to report. A document without syntax errors is
therefore one without faults and with at most one value.
-/

namespace LinkedJson

namespace TreeKind

/-- The kinds of trees that faults can stand in. -/
def holdsFaults : TreeKind → Bool
  | document | object | array | pair | string | error => true
  | _ => false

/-- What may stand in the trees of a kind. -/
def inside : TreeKind → Place
  | object => .member
  | _ => .value

end TreeKind

namespace Tree

/-! ## Faults that are not part of others -/

mutual

/-- The faults of a tree that are not below another fault, in text order, each with what may stand
in its place. -/
def exposed (place : Place) : Tree → List (Place × Tree)
  | node kind start stop missing children =>
    if kind == .error || missing then [(place, node kind start stop missing children)]
    else exposedAll kind.inside children

/-- The faults of several trees that are not below another fault. -/
def exposedAll (place : Place) : List Tree → List (Place × Tree)
  | [] => []
  | tree :: trees => exposed place tree ++ exposedAll place trees

end

theorem exposed_of_isFault (place : Place) {tree : Tree} (hfault : tree.isFault = true) :
    tree.exposed place = [(place, tree)] := by
  obtain ⟨kind, start, stop, missing, children⟩ := tree
  rw [exposed]
  exact if_pos hfault

theorem exposed_of_not_isFault (place : Place) {tree : Tree} (hfault : tree.isFault = false) :
    tree.exposed place = exposedAll tree.kind.inside tree.children := by
  obtain ⟨kind, start, stop, missing, children⟩ := tree
  rw [exposed]
  exact if_neg (Bool.not_eq_true _ ▸ hfault)

mutual

theorem exposed_eq_nil_iff : ∀ (place : Place) (tree : Tree),
    tree.exposed place = [] ↔ tree.hasFault = false
  | place, .node kind start stop missing children => by
    rw [exposed, hasFault]
    cases kind == .error || missing with
    | true => simp
    | false => simpa using exposedAll_eq_nil_iff kind.inside children

theorem exposedAll_eq_nil_iff : ∀ (place : Place) (trees : List Tree),
    exposedAll place trees = [] ↔ anyFault trees = false
  | place, [] => by simp [exposedAll, anyFault]
  | place, tree :: trees => by
    rw [exposedAll, anyFault, List.append_eq_nil_iff, Bool.or_eq_false_iff,
      exposed_eq_nil_iff place tree, exposedAll_eq_nil_iff place trees]

end

/-- Where no fault is hidden below a tree that is none, the exposed faults are those at hand. -/
theorem exposedAll_eq_map_filter (place : Place) {trees : List Tree}
    (hhidden : ∀ tree ∈ trees, tree.isFault = false → tree.hasFault = false) :
    exposedAll place trees = (trees.filter isFault).map (place, ·) := by
  induction trees with
  | nil => rfl
  | cons tree trees ih =>
    obtain ⟨htree, htrees⟩ := List.forall_mem_cons.1 hhidden
    rw [exposedAll, ih htrees]
    cases hfault : tree.isFault with
    | true =>
      rw [exposed_of_isFault place hfault, List.filter_cons_of_pos hfault]
      rfl
    | false =>
      rw [(exposed_eq_nil_iff place tree).2 (htree hfault),
        List.filter_cons_of_neg (by simp [hfault])]
      rfl

/-! ## What a syntax tree looks like -/

/-- Numbers, words, marks and the inside of a literal have no documents, containers or literals
among their parts. -/
def HoldersNest (tree : Tree) : Prop :=
  ∀ child ∈ tree.children, child.isError = false → child.kind.holdsFaults = true →
    tree.kind.holdsFaults = true ∧ tree.kind ≠ .string

instance (tree : Tree) : Decidable tree.HoldersNest :=
  inferInstanceAs (Decidable (∀ child ∈ tree.children, _))

/-- Faults stand only in documents, containers, literals and errors. -/
def FaultsNest (tree : Tree) : Prop :=
  ∀ child ∈ tree.children, child.isFault = true → tree.kind.holdsFaults = true

instance (tree : Tree) : Decidable tree.FaultsNest :=
  inferInstanceAs (Decidable (∀ child ∈ tree.children, _))

/-- What the front end keeps to in every tree, with or without faults in it. No document is inside
another tree, and a comment is never missing, since nothing requires one. -/
structure Grammatical (tree : Tree) : Prop where
  holders : ∀ part ∈ tree.preorder, part.HoldersNest
  inner : ∀ child ∈ tree.children, ∀ part ∈ child.preorder, part.kind ≠ .document
  comment : ∀ child ∈ tree.children, child.kind = .comment → child.missing = false

/-- Where faults are in a tree. The root is a document, or an error if nothing of the text fits, and
a document is made of values, comments and faults. -/
structure FaultsPlaced (tree : Tree) : Prop where
  root : tree.kind = .error ∨ tree.kind = .document ∧ tree.missing = false
  top : tree.kind = .document → ∀ child ∈ tree.children,
    child.kind.isValue = true ∨ child.kind = .comment ∨ child.isFault = true
  faults : ∀ part ∈ tree.preorder, part.FaultsNest

/-- A syntax tree as the front end gives it. -/
structure Concrete (tree : Tree) : Prop extends Grammatical tree, FaultsPlaced tree

/-- What may stand in a document. -/
structure IsTop (tree : Tree) : Prop where
  kind : tree.kind.isValue = true ∨ tree.kind = .comment ∨ tree.isFault = true
  holders : ∀ part ∈ tree.preorder, part.HoldersNest
  faults : ∀ part ∈ tree.preorder, part.FaultsNest
  inner : ∀ part ∈ tree.preorder, part.kind ≠ .document
  comment : tree.kind = .comment → tree.missing = false

theorem Concrete.isTop {tree : Tree} (hconcrete : tree.Concrete) (hkind : tree.kind = .document) :
    ∀ child ∈ tree.children, child.IsTop := by
  intro child hchild
  exact {
    kind := hconcrete.top hkind child hchild
    holders := fun part hpart ↦ hconcrete.holders part (mem_preorder_of_child hchild hpart)
    faults := fun part hpart ↦ hconcrete.faults part (mem_preorder_of_child hchild hpart)
    inner := hconcrete.inner child hchild
    comment := hconcrete.comment child hchild }

/-! ## Where faults are looked for -/

theorem hasFault_eq (tree : Tree) : tree.hasFault = (tree.isFault || anyFault tree.children) := by
  cases tree
  rw [hasFault]
  rfl

theorem isError_of_not_isFault {tree : Tree} (hfault : tree.isFault = false) :
    tree.isError = false :=
  (Bool.or_eq_false_iff.1 hfault).1

mutual

/-- A tree that faults cannot stand in has none below it. -/
theorem hasFault_of_not_holdsFaults : ∀ (tree : Tree), (∀ part ∈ tree.preorder, part.HoldersNest) →
    (∀ part ∈ tree.preorder, part.FaultsNest) → tree.isFault = false →
      tree.kind.holdsFaults = false → tree.hasFault = false
  | .node kind start stop missing children, hholders, hfaults, hfault, hkind => by
    obtain ⟨hholder, hholders⟩ := forall_mem_preorder.1 hholders
    obtain ⟨hnest, hfaults⟩ := forall_mem_preorder.1 hfaults
    rw [hasFault, Bool.or_eq_false_iff]
    refine ⟨hfault, anyFault_of_not_holdsFaults children hholders hfaults fun child hchild ↦ ?_⟩
    have hsound : child.isFault = false := by
      rw [Bool.eq_false_iff]
      intro hchildFault
      have hholds := hnest child hchild hchildFault
      exact Bool.false_ne_true (hkind.symm.trans hholds)
    refine ⟨hsound, ?_⟩
    rw [Bool.eq_false_iff]
    intro hchildHolds
    have hholds := (hholder child hchild (isError_of_not_isFault hsound) hchildHolds).1
    exact Bool.false_ne_true (hkind.symm.trans hholds)

theorem anyFault_of_not_holdsFaults : ∀ (trees : List Tree),
    (∀ tree ∈ trees, ∀ part ∈ tree.preorder, part.HoldersNest) →
    (∀ tree ∈ trees, ∀ part ∈ tree.preorder, part.FaultsNest) →
    (∀ tree ∈ trees, tree.isFault = false ∧ tree.kind.holdsFaults = false) →
    anyFault trees = false
  | [], hholders, hfaults, hsound => rfl
  | tree :: trees, hholders, hfaults, hsound => by
    obtain ⟨hholder, hholders⟩ := List.forall_mem_cons.1 hholders
    obtain ⟨hnest, hfaults⟩ := List.forall_mem_cons.1 hfaults
    obtain ⟨hself, hrest⟩ := List.forall_mem_cons.1 hsound
    rw [anyFault, Bool.or_eq_false_iff]
    exact ⟨hasFault_of_not_holdsFaults tree hholder hnest hself.1 hself.2,
      anyFault_of_not_holdsFaults trees hholders hfaults hrest⟩

end

/-- The parts of a literal that are no faults have none below them. -/
theorem hasFault_of_mem_string {tree : Tree} (hholders : ∀ part ∈ tree.preorder, part.HoldersNest)
    (hfaults : ∀ part ∈ tree.preorder, part.FaultsNest) (hkind : tree.kind = .string) :
    ∀ child ∈ tree.children, child.isFault = false → child.hasFault = false := by
  intro child hchild hsound
  obtain ⟨hholder, hholders⟩ := forall_mem_preorder.1 hholders
  obtain ⟨-, hfaults⟩ := forall_mem_preorder.1 hfaults
  refine hasFault_of_not_holdsFaults child (hholders child hchild) (hfaults child hchild) hsound ?_
  rw [Bool.eq_false_iff]
  intro hholds
  exact (hholder child hchild (isError_of_not_isFault hsound) hholds).2 hkind

theorem errors_of_isFault (text : List Char) (place : Place) {tree : Tree}
    (hfault : tree.isFault = true) : errors text place tree = [tree.report text place] := by
  obtain ⟨kind, start, stop, missing, children⟩ := tree
  unfold errors
  exact if_pos hfault

/-- The syntax error of a fault in its place. -/
def reported (text : List Char) (fault : Place × Tree) : SyntaxError :=
  fault.2.report text fault.1

mutual

/-- The syntax errors of a tree are those of its exposed faults. -/
theorem errors_eq_map_exposed (text : List Char) : ∀ (place : Place) (tree : Tree),
    (∀ part ∈ tree.preorder, part.HoldersNest) → (∀ part ∈ tree.preorder, part.FaultsNest) →
    (∀ part ∈ tree.preorder, part.kind ≠ .document) →
      errors text place tree = (tree.exposed place).map (reported text)
  | place, .node kind start stop missing children, hholders, hfaults, hinner => by
    obtain ⟨hkind, hinner⟩ := forall_mem_preorder.1 hinner
    have hholdersBelow := (forall_mem_preorder.1 hholders).2
    have hfaultsBelow := (forall_mem_preorder.1 hfaults).2
    cases hfault : isFault (.node kind start stop missing children) with
    | true => rw [errors_of_isFault text place hfault, exposed_of_isFault place hfault]; rfl
    | false =>
      rw [exposed_of_not_isFault place hfault]
      obtain ⟨herror, rfl⟩ := Bool.or_eq_false_iff.1 hfault
      -- Only containers are searched to the end, so the other kinds must have nothing to find.
      cases kind with
      | document => exact absurd rfl hkind
      | error => cases herror
      | object =>
        exact errorsOfAll_eq_map_exposedAll text .member children hholdersBelow hfaultsBelow hinner
      | array | pair =>
        exact errorsOfAll_eq_map_exposedAll text .value children hholdersBelow hfaultsBelow hinner
      | string =>
        have hexposed : exposedAll .value children = (children.filter isFault).map (.value, ·) :=
          exposedAll_eq_map_filter .value (hasFault_of_mem_string hholders hfaults rfl)
        change (children.filter isFault).map (report text .value) =
          (exposedAll .value children).map (reported text)
        rw [hexposed, List.map_map]
        rfl
      | _ =>
        have hsound := hasFault_of_not_holdsFaults _ hholders hfaults hfault rfl
        have hnone := (exposedAll_eq_nil_iff .value children).2 (anyFault_children hsound)
        exact (congrArg (List.map (reported text)) hnone).symm

theorem errorsOfAll_eq_map_exposedAll (text : List Char) : ∀ (place : Place) (trees : List Tree),
    (∀ tree ∈ trees, ∀ part ∈ tree.preorder, part.HoldersNest) →
    (∀ tree ∈ trees, ∀ part ∈ tree.preorder, part.FaultsNest) →
    (∀ tree ∈ trees, ∀ part ∈ tree.preorder, part.kind ≠ .document) →
      errorsOfAll text place trees = (exposedAll place trees).map (reported text)
  | place, [], hholders, hfaults, hinner => rfl
  | place, tree :: trees, hholders, hfaults, hinner => by
    obtain ⟨hholder, hholders⟩ := List.forall_mem_cons.1 hholders
    obtain ⟨hnest, hfaults⟩ := List.forall_mem_cons.1 hfaults
    obtain ⟨hkind, hinner⟩ := List.forall_mem_cons.1 hinner
    rw [errorsOfAll, exposedAll, List.map_append,
      errors_eq_map_exposed text place tree hholder hnest hkind,
      errorsOfAll_eq_map_exposedAll text place trees hholders hfaults hinner]

end

/-! ## Documents -/

/-- Whether a tree can be the value of a document. -/
def isRoot (tree : Tree) : Bool :=
  !tree.isFault && tree.kind.isValue

/-- The trees of a document up to and with its value, and all of them if it has none. -/
def upToRoot : List Tree → List Tree
  | [] => []
  | tree :: trees => if tree.isRoot then [tree] else tree :: upToRoot trees

/-- The trees of a document behind its value. -/
def behindRoot : List Tree → List Tree
  | [] => []
  | tree :: trees => if tree.isRoot then trees else behindRoot trees

/-- The faults that a document has to answer for: those that are not part of another fault and do
not come behind its value. -/
def answeredFor (tree : Tree) : List (Place × Tree) :=
  if tree.kind == .document then exposedAll .value (upToRoot tree.children)
  else tree.exposed .value

/-- What comes behind the value of a document, comments apart. -/
def surplus (tree : Tree) : List Tree :=
  if tree.kind == .document then (behindRoot tree.children).filter (·.kind != .comment) else []

/-- Text after the end of a document. -/
def afterEnd (tree : Tree) : SyntaxError :=
  ⟨.endOfFileExpected, tree.span⟩

theorem IsTop.hasFault_comment {tree : Tree} (htop : tree.IsTop) (hkind : tree.kind = .comment) :
    tree.hasFault = false := by
  have hfault : tree.isFault = false := by
    rw [isFault, isError, hkind, htop.comment hkind]
    rfl
  refine hasFault_of_not_holdsFaults tree htop.holders htop.faults hfault ?_
  rw [hkind]
  rfl

/-- The value of a document is the first of its trees that stands for a node. -/
theorem IsTop.isSome_node? (text : List Char) {tree : Tree} (htop : tree.IsTop) :
    (tree.node? text).isSome = tree.isRoot := by
  rw [Tree.isSome_node?, isSound, isRoot]
  cases hfault : tree.isFault with
  | true => rfl
  | false =>
    rcases htop.kind with hvalue | hcomment | hself
    · rw [hvalue]
      rfl
    · rw [hcomment]
      rfl
    · rw [hfault] at hself
      cases hself

/-- The value of a document is the value of the first tree that can be one. -/
theorem findSome?_node?_eq (text : List Char) {trees : List Tree}
    (htop : ∀ tree ∈ trees, tree.IsTop) :
    (trees.filter (·.kind != .comment)).findSome? (node? text) =
      (trees.find? isRoot).bind (node? text) := by
  induction trees with
  | nil => rfl
  | cons tree trees ih =>
    obtain ⟨hself, hrest⟩ := List.forall_mem_cons.1 htop
    have hsome := hself.isSome_node? text
    rw [List.find?_cons, List.filter_cons]
    cases hroot : tree.isRoot with
    | true =>
      have hkept : (tree.kind != .comment) = true := by
        have hvalue : tree.kind.isValue = true := (Bool.and_eq_true_iff.1 hroot).2
        rw [bne_iff_ne]
        intro hcomment
        rw [hcomment] at hvalue
        cases hvalue
      obtain ⟨value, hvalue⟩ := Option.isSome_iff_exists.1 (hsome.trans hroot)
      rw [if_pos hkept, List.findSome?_cons, Option.bind_some, hvalue]
    | false =>
      have hnone : tree.node? text = none := by
        rw [← Option.not_isSome_iff_eq_none, hsome, hroot]
        exact Bool.false_ne_true
      rw [← ih hrest]
      split
      · rw [List.findSome?_cons, hnone]
      · rfl

theorem contentErrors_eq (text : List Char) {trees : List Tree}
    (htop : ∀ tree ∈ trees, tree.IsTop) :
    contentErrors text (trees.filter (·.kind != .comment)) =
      (exposedAll .value (upToRoot trees)).map (reported text) ++
        ((behindRoot trees).filter (·.kind != .comment)).map afterEnd := by
  induction trees with
  | nil => rfl
  | cons tree trees ih =>
    obtain ⟨hself, hrest⟩ := List.forall_mem_cons.1 htop
    rw [upToRoot, behindRoot]
    by_cases hcomment : tree.kind = .comment
    · have hnone := (exposed_eq_nil_iff .value tree).2 (hself.hasFault_comment hcomment)
      have hroot : tree.isRoot = false := by
        rw [isRoot, hcomment, Bool.and_eq_false_iff]
        exact .inr rfl
      rw [List.filter_cons_of_neg (by simp [hcomment]), ih hrest, hroot]
      simp only [Bool.false_eq_true, if_false, exposedAll, hnone, List.nil_append]
    · rw [List.filter_cons_of_pos (by simp [hcomment]), contentErrors,
        errors_eq_map_exposed text .value tree hself.holders hself.faults hself.inner,
        hself.isSome_node?]
      split
      · simp only [exposedAll, List.append_nil]
        rfl
      · rw [ih hrest, exposedAll, List.map_append, List.append_assoc]

/-- Nothing but comments is left over exactly if there are no faults and no values. -/
theorem filter_comment_eq_nil_iff {trees : List Tree} (htop : ∀ tree ∈ trees, tree.IsTop) :
    trees.filter (·.kind != .comment) = [] ↔
      anyFault trees = false ∧ trees.filter (·.kind.isValue) = [] := by
  rw [List.filter_eq_nil_iff, List.filter_eq_nil_iff, anyFault_eq_false_iff_forall]
  constructor
  · intro hcomments
    have hkind : ∀ tree ∈ trees, tree.kind = .comment := by simpa using hcomments
    refine ⟨fun tree hmem ↦ (htop tree hmem).hasFault_comment (hkind tree hmem), ?_⟩
    intro tree hmem
    rw [hkind tree hmem]
    exact Bool.false_ne_true
  · rintro ⟨hsound, hvalues⟩ tree hmem
    rcases (htop tree hmem).kind with hvalue | hcomment | hfault
    · exact absurd hvalue (hvalues tree hmem)
    · simp [hcomment]
    · rw [isFault_of_hasFault (hsound tree hmem)] at hfault
      cases hfault

/-- The trees of a document give no syntax errors exactly if there are no faults and at most one
value among them. -/
theorem contents_sound_iff {trees : List Tree} (htop : ∀ tree ∈ trees, tree.IsTop) :
    exposedAll .value (upToRoot trees) = [] ∧ (behindRoot trees).filter (·.kind != .comment) = [] ↔
      anyFault trees = false ∧ (trees.filter (·.kind.isValue)).length ≤ 1 := by
  induction trees with
  | nil => simp [upToRoot, behindRoot, exposedAll, anyFault]
  | cons tree trees ih =>
    obtain ⟨hself, hrest⟩ := List.forall_mem_cons.1 htop
    rw [upToRoot, behindRoot, anyFault, Bool.or_eq_false_iff]
    cases hroot : tree.isRoot with
    | true =>
      have hvalue : tree.kind.isValue = true := (Bool.and_eq_true_iff.1 hroot).2
      rw [if_pos rfl, if_pos rfl, List.filter_cons, if_pos hvalue, exposedAll, exposedAll,
        List.append_nil, exposed_eq_nil_iff, filter_comment_eq_nil_iff hrest, and_assoc]
      simp
    | false =>
      rw [if_neg Bool.false_ne_true, if_neg Bool.false_ne_true, exposedAll,
        List.append_eq_nil_iff, exposed_eq_nil_iff, and_assoc, ih hrest, and_assoc]
      refine and_congr_right fun hsound ↦ and_congr_right fun _ ↦ ?_
      have hvalue : ¬ tree.kind.isValue = true := by
        rw [isRoot, isFault_of_hasFault hsound] at hroot
        simpa using hroot
      rw [List.filter_cons, if_neg hvalue]

/-- The syntax errors of a document are those of the faults it has to answer for, and one for each
tree that comes behind its value. -/
theorem Concrete.allErrors_eq (text : List Char) {tree : Tree} (hconcrete : tree.Concrete) :
    tree.allErrors text = tree.answeredFor.map (reported text) ++ tree.surplus.map afterEnd := by
  unfold allErrors answeredFor surplus
  rcases hconcrete.root with hkind | ⟨hkind, -⟩
  · have hfault : tree.isFault = true := by
      rw [isFault, isError, hkind]
      rfl
    rw [hkind, errors_of_isFault text .value hfault, exposed_of_isFault .value hfault]
    rfl
  · rw [hkind]
    exact contentErrors_eq text (hconcrete.isTop hkind)

/-- A document has no syntax errors exactly if it has no faults and at most one value. -/
theorem Concrete.allErrors_eq_nil_iff (text : List Char) {tree : Tree} (hconcrete : tree.Concrete) :
    tree.allErrors text = [] ↔
      tree.hasFault = false ∧ (tree.children.filter (·.kind.isValue)).length ≤ 1 := by
  rw [hconcrete.allErrors_eq, List.append_eq_nil_iff, List.map_eq_nil_iff, List.map_eq_nil_iff,
    answeredFor, surplus]
  rcases hconcrete.root with hkind | ⟨hkind, hmissing⟩
  · have hfault : tree.hasFault = true := by
      rw [hasFault_eq, isFault, isError, hkind]
      rfl
    simp [hkind, exposed_eq_nil_iff, hfault]
  · have hfault : tree.hasFault = anyFault tree.children := by
      rw [hasFault_eq, isFault, isError, hkind, hmissing]
      rfl
    rw [hkind, hfault]
    exact contents_sound_iff (hconcrete.isTop hkind)

end Tree

/-- The value of a document is the first of its trees that is a value and no fault. Its syntax
errors are exactly these: one for each fault that is not part of another one and does not come
behind the value, and one for each tree behind the value that is no comment. The elements that an
error gives back add none. So there are no syntax errors exactly if there is no fault and at most
one value. -/
theorem faults_reported_once (text : List Char) {tree : Tree} (hconcrete : tree.Concrete) :
    (tree.kind = .document → (Reading.ofTree text tree).root =
      (tree.children.find? Tree.isRoot).bind (Tree.node? text)) ∧
    (Reading.ofTree text tree).errors =
      tree.answeredFor.map (Tree.reported text) ++ tree.surplus.map Tree.afterEnd ∧
    (∀ part ∈ tree.preorder, part.isError = true → ∀ element ∈ part.children, ∀ place,
      element.isElement place = true → element.errors text place = []) ∧
    ((Reading.ofTree text tree).errors = [] ↔
      tree.hasFault = false ∧ (tree.children.filter (·.kind.isValue)).length ≤ 1) := by
  refine ⟨fun hkind ↦ ?_, hconcrete.allErrors_eq text, ?_, hconcrete.allErrors_eq_nil_iff text⟩
  · rw [Tree.ofTree_document text hkind]
    exact Tree.findSome?_node?_eq text (hconcrete.isTop hkind)
  · intro part _ _ element _ place helement
    rw [Tree.isElement.eq_def, Bool.and_eq_true, Bool.not_eq_true'] at helement
    exact Tree.errors_of_hasFault text place element helement.1

/-- The tree of the text `{😀}}`: an object with an error in it, and one behind it. -/
def surplusTree : Tree :=
  .node .document 0 7 false
    [.node .object 0 6 false
        [.node .openBrace 0 1 false [],
          .node .error 1 5 false [.node .error 1 5 false []],
          .node .closeBrace 5 6 false []],
      .node .error 6 7 false [.node .closeBrace 6 7 false []]]

theorem faults_reported_once_surplus :
    surplusTree.Concrete ∧
    (Reading.ofTree ['\x7b', '😀', '\x7d', '\x7d'] surplusTree).errors =
      [⟨.invalidSymbol, ⟨1, 4⟩⟩, ⟨.endOfFileExpected, ⟨6, 1⟩⟩] := by
  have hconcrete : surplusTree.Concrete := by
    refine ⟨⟨?_, ?_, ?_⟩, .inr ⟨rfl, rfl⟩, fun _ ↦ ?_, ?_⟩ <;> decide +kernel
  refine ⟨hconcrete, (faults_reported_once _ hconcrete).2.1.trans ?_⟩
  decide +kernel

end LinkedJson
