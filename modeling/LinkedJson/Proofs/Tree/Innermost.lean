import LinkedJson.Proofs.Tree.Nesting

/-!
# The innermost container at an offset

A container is open at an offset that lies behind its opening bracket and not behind its closing
one. Where spans are nested, the containers that are open at one offset lie in one another, in the
order in which they were opened. The last of them is therefore the innermost one.
-/

namespace LinkedJson

/-- Whether trees of a kind are containers. -/
def TreeKind.isContainer : TreeKind → Bool
  | object | array => true
  | _ => false

namespace Tree

/-- Whether a tree is a container that has been opened and not closed before an offset. -/
def isOpenAt (offset : Nat) (tree : Tree) : Bool :=
  tree.kind.isContainer && tree.start < offset && offset < tree.stop

/-- The containers of a tree that are open at an offset, in the order in which they were opened. -/
def openAt (offset : Nat) (tree : Tree) : List Tree :=
  tree.preorder.filter (isOpenAt offset)

/-- An open container that lies in every open container. -/
structure IsInnermost (root : Tree) (offset : Nat) (tree : Tree) : Prop where
  mem : tree ∈ root.openAt offset
  inside : ∀ other ∈ root.openAt offset, tree ∈ other.preorder

variable {tree : Tree} {offset : Nat}

theorem isOpenAt_iff :
    tree.isOpenAt offset = true ↔
      tree.kind.isContainer = true ∧ tree.start < offset ∧ offset < tree.stop := by
  simp only [isOpenAt, Bool.and_eq_true, decide_eq_true_eq, and_assoc]

theorem mem_preorder_self (tree : Tree) : tree ∈ tree.preorder := by
  rw [preorder_eq]
  exact List.mem_cons_self

/-! ## Trees inside trees -/

mutual

theorem length_preorder_le {part : Tree} : ∀ (tree : Tree), part ∈ tree.preorder →
    part.preorder.length ≤ tree.preorder.length
  | .node kind start stop missing children, hpart => by
    rcases List.mem_cons.1 hpart with rfl | hbelow
    · exact Nat.le_refl _
    · exact Nat.le_succ_of_le (length_preorder_le_all children hbelow)

theorem length_preorder_le_all {part : Tree} : ∀ (trees : List Tree), part ∈ preorderAll trees →
    part.preorder.length ≤ (preorderAll trees).length
  | [], hpart => by cases hpart
  | tree :: trees, hpart => by
    rw [preorderAll, List.length_append]
    rcases List.mem_append.1 hpart with hfirst | hrest
    · exact Nat.le_add_right_of_le (length_preorder_le tree hfirst)
    · exact Nat.le_add_left_of_le (length_preorder_le_all trees hrest)

end

/-- Of two different trees, one does not lie in the other. -/
theorem eq_of_mem_preorder {first second : Tree} (hfirst : first ∈ second.preorder)
    (hsecond : second ∈ first.preorder) : first = second := by
  rw [preorder_eq second] at hfirst
  rcases List.mem_cons.1 hfirst with heq | hbelow
  · exact heq
  · have hsmaller := length_preorder_le_all second.children hbelow
    have hlarger := length_preorder_le first hsecond
    rw [preorder_eq second, List.length_cons] at hlarger
    omega

/-! ## Open containers -/

mutual

theorem Nested.bounds : ∀ (tree : Tree), tree.Nested → ∀ part ∈ tree.preorder,
    tree.span.offset ≤ part.span.offset ∧ part.span.limit ≤ tree.span.limit
  | .node kind start stop missing children, hnested, part, hpart => by
    obtain ⟨hself, hchildren⟩ := forall_mem_preorder.1 hnested
    rcases List.mem_cons.1 hpart with rfl | hbelow
    · exact ⟨Nat.le_refl _, Nat.le_refl _⟩
    · exact boundsAll children hself hchildren part hbelow

theorem boundsAll {low high : Nat} : ∀ (trees : List Tree),
    Span.InOrder low high (trees.map span) → (∀ tree ∈ trees, tree.Nested) →
    ∀ part ∈ preorderAll trees, low ≤ part.span.offset ∧ part.span.limit ≤ high
  | [], horder, hnested, part, hpart => by cases hpart
  | tree :: trees, horder, hnested, part, hpart => by
    obtain ⟨hfirst, hothers⟩ := List.forall_mem_cons.1 hnested
    rcases List.mem_append.1 hpart with hmem | hmem
    · have hbounds := Nested.bounds tree hfirst part hmem
      exact ⟨Nat.le_trans horder.1 hbounds.1, Nat.le_trans hbounds.2 horder.2.le⟩
    · have hbounds := boundsAll trees horder.2 hothers part hmem
      refine ⟨?_, hbounds.2⟩
      calc low
        _ ≤ tree.span.offset := horder.1
        _ ≤ tree.span.limit := tree.span.offset_le_limit
        _ ≤ part.span.offset := hbounds.1

end

theorem contains_of_isOpenAt (hopen : tree.isOpenAt offset = true) :
    tree.span.offset < offset ∧ offset < tree.span.limit := by
  obtain ⟨-, hstart, hstop⟩ := isOpenAt_iff.1 hopen
  refine ⟨hstart, ?_⟩
  change offset < tree.start + (tree.stop - tree.start)
  omega

mutual

/-- Each container that is open at an offset lies in those that were opened before it. -/
theorem Nested.pairwise_openAt : ∀ (tree : Tree), tree.Nested →
    (tree.openAt offset).Pairwise fun outer inner ↦ inner ∈ outer.preorder
  | .node kind start stop missing children, hnested => by
    obtain ⟨hself, hchildren⟩ := forall_mem_preorder.1 hnested
    have hbelow := pairwise_openAtAll children hself hchildren
    rw [openAt, preorder, List.filter_cons]
    split
    · refine List.pairwise_cons.2 ⟨fun inner hinner ↦ ?_, hbelow⟩
      exact List.mem_cons_of_mem _ (List.mem_filter.1 hinner).1
    · exact hbelow

theorem pairwise_openAtAll {low high : Nat} : ∀ (trees : List Tree),
    Span.InOrder low high (trees.map span) → (∀ tree ∈ trees, tree.Nested) →
    ((preorderAll trees).filter (isOpenAt offset)).Pairwise fun outer inner ↦
      inner ∈ outer.preorder
  | [], horder, hnested => .nil
  | tree :: trees, horder, hnested => by
    obtain ⟨hfirst, hothers⟩ := List.forall_mem_cons.1 hnested
    rw [preorderAll, List.filter_append]
    refine List.pairwise_append.2
      ⟨Nested.pairwise_openAt tree hfirst, pairwise_openAtAll trees horder.2 hothers, ?_⟩
    -- What is open in the first tree reaches past the offset, and the others start behind it.
    intro outer houter inner hinner
    obtain ⟨houter, hopen⟩ := List.mem_filter.1 houter
    obtain ⟨hinner, hlater⟩ := List.mem_filter.1 hinner
    have hstop := (contains_of_isOpenAt hopen).2
    have hstart := (contains_of_isOpenAt hlater).1
    have hbefore := (Nested.bounds tree hfirst outer houter).2
    have hbehind := (boundsAll trees horder.2 hothers inner hinner).1
    omega

end

/-- The container that was opened last is the innermost one. -/
theorem Nested.isInnermost {root : Tree} (hnested : root.Nested)
    (hlast : (root.openAt offset).getLast? = some tree) : root.IsInnermost offset tree := by
  refine ⟨List.mem_of_getLast? hlast, fun other hother ↦ ?_⟩
  obtain ⟨before, hbefore⟩ := List.getLast?_eq_some_iff.1 hlast
  have hpairwise : (root.openAt offset).Pairwise fun outer inner ↦ inner ∈ outer.preorder :=
    Nested.pairwise_openAt root hnested
  rw [hbefore] at hother hpairwise
  rcases List.mem_append.1 hother with hmem | hmem
  · exact (List.pairwise_append.1 hpairwise).2.2 other hmem tree List.mem_cons_self
  · rw [List.mem_singleton.1 hmem]
    exact mem_preorder_self tree

/-- There is an innermost container wherever one is open, and only one. -/
theorem Nested.isInnermost_iff {root : Tree} (hnested : root.Nested) :
    root.IsInnermost offset tree ↔ (root.openAt offset).getLast? = some tree := by
  refine ⟨fun hinnermost ↦ ?_, hnested.isInnermost⟩
  cases hlast : (root.openAt offset).getLast? with
  | none =>
    have hmem := hinnermost.mem
    rw [List.getLast?_eq_none_iff.1 hlast] at hmem
    cases hmem
  | some last =>
    have hother := hnested.isInnermost hlast
    exact congrArg some (eq_of_mem_preorder (hother.inside tree hinnermost.mem)
      (hinnermost.inside last hother.mem))

end Tree

end LinkedJson
