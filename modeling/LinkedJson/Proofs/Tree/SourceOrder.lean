import LinkedJson.Analysis
import LinkedJson.Proofs.Ranges
import LinkedJson.Proofs.Tree.Reports

/-!
# Syntax errors in text order

An error is reported where its tree starts, unless it leaves a container open: then it is reported
where its tree ends. Either way it is reported inside its tree, so the reports on trees that lie one
after another come one after another as well, at every depth. A document therefore lists its syntax
errors in text order and inside its text, and its diagnostics start at positions in that order.
-/

namespace LinkedJson

open LinkedJson.Span LinkedJson.Text

theorem Span.InOrder.sublist {low high : Nat} {spans kept : List Span}
    (horder : InOrder low high spans) (hkept : kept.Sublist spans) : InOrder low high kept := by
  induction hkept generalizing low with
  | slnil => exact horder
  | cons span _ ih =>
    exact (ih horder.2).widen (horder.1.trans span.offset_le_limit) (Nat.le_refl _)
  | cons_cons span _ ih => exact ⟨horder.1, ih horder.2⟩

namespace Tree

/-- A tree does not end before it starts, and its children lie one after another inside it. -/
structure IsPlaced (tree : Tree) : Prop where
  forward : tree.start ≤ tree.stop
  holds : tree.span.Holds (tree.children.map span)

instance (tree : Tree) : Decidable tree.IsPlaced :=
  decidable_of_iff (tree.start ≤ tree.stop ∧ tree.span.Holds (tree.children.map span))
    ⟨fun h ↦ ⟨h.1, h.2⟩, fun h ↦ ⟨h.forward, h.holds⟩⟩

/-- A tree of a text: it lies in the text, and all trees in it are placed inside one another. -/
structure LiesIn (text : List Char) (tree : Tree) : Prop where
  placed : ∀ part ∈ tree.preorder, part.IsPlaced
  within : tree.stop ≤ byteLength text

instance (text : List Char) (tree : Tree) : Decidable (tree.LiesIn text) :=
  decidable_of_iff ((∀ part ∈ tree.preorder, part.IsPlaced) ∧ tree.stop ≤ byteLength text)
    ⟨fun h ↦ ⟨h.1, h.2⟩, fun h ↦ ⟨h.placed, h.within⟩⟩

theorem IsPlaced.limit_span {tree : Tree} (hplaced : tree.IsPlaced) : tree.span.limit = tree.stop :=
  Nat.add_sub_cancel' hplaced.forward

/-! ## Where errors are reported -/

/-- The syntax errors are reported one after another between two offsets. -/
def ReportedWithin (low high : Nat) (errors : List SyntaxError) : Prop :=
  InOrder low high (errors.map SyntaxError.span)

/-- The reports on a tree are followed by those on the trees behind it. -/
theorem ReportedWithin.append {low high : Nat} {tree : Tree} {first rest : List SyntaxError}
    (hlow : low ≤ tree.span.offset)
    (hfirst : ReportedWithin tree.span.offset tree.span.limit first)
    (hrest : ReportedWithin tree.span.limit high rest) :
    ReportedWithin low high (first ++ rest) := by
  unfold ReportedWithin at *
  rw [List.map_append]
  exact (hfirst.widen hlow (Nat.le_refl _)).append hrest

theorem span_report (text : List Char) (place : Place) (tree : Tree) :
    (tree.report text place).span = tree.span ∨
      (tree.report text place).span = ⟨tree.stop, 0⟩ := by
  unfold report misfit
  split
  · split
    · exact .inr rfl
    · split <;> exact .inl rfl
  · exact .inl rfl

/-- A fault is reported inside its tree. -/
theorem IsPlaced.reportedWithin_report {tree : Tree} (hplaced : tree.IsPlaced) (text : List Char)
    (place : Place) :
    ReportedWithin tree.span.offset tree.span.limit [tree.report text place] := by
  change InOrder tree.span.offset tree.span.limit [(tree.report text place).span]
  rcases tree.span_report text place with hspan | hspan
  · rw [hspan]
    exact inOrder_singleton tree.span
  · rw [hspan, hplaced.limit_span]
    exact ⟨hplaced.forward, Nat.le_refl _⟩

theorem reportedWithin_map_report (text : List Char) (place : Place) {low high : Nat}
    {trees : List Tree} (horder : InOrder low high (trees.map span))
    (hplaced : ∀ tree ∈ trees, tree.IsPlaced) :
    ReportedWithin low high (trees.map (report text place)) := by
  induction trees generalizing low with
  | nil => exact horder
  | cons tree trees ih =>
    obtain ⟨htree, htrees⟩ := List.forall_mem_cons.1 hplaced
    exact (htree.reportedWithin_report text place).append horder.1 (ih horder.2 htrees)

theorem isPlaced_of_mem_children {tree : Tree} (hplaced : ∀ part ∈ tree.preorder, part.IsPlaced) :
    ∀ child ∈ tree.children, child.IsPlaced := by
  intro child hchild
  apply hplaced child
  apply mem_preorder_of_child hchild
  rw [preorder_eq]
  exact List.mem_cons_self

mutual

/-- The syntax errors of a tree are reported one after another inside it. -/
theorem reportedWithin_errors (text : List Char) : ∀ (place : Place) (tree : Tree),
    (∀ part ∈ tree.preorder, part.IsPlaced) →
      ReportedWithin tree.span.offset tree.span.limit (errors text place tree)
  | place, .node kind start stop missing children, hplaced => by
    obtain ⟨hself, hbelow⟩ := forall_mem_preorder.1 hplaced
    cases hfault : isFault (.node kind start stop missing children) with
    | true =>
      rw [errors_of_isFault text place hfault]
      exact hself.reportedWithin_report text place
    | false =>
      have hnone :
          ReportedWithin (Span.between start stop).offset (Span.between start stop).limit [] :=
        offset_le_limit _
      unfold errors
      rw [if_neg (Bool.not_eq_true _ ▸ hfault)]
      cases kind with
      | object => exact reportedWithin_errorsOfAll text .member children hself.holds hbelow
      | array => exact reportedWithin_errorsOfAll text .value children hself.holds hbelow
      | pair => exact reportedWithin_errorsOfAll text .value children hself.holds hbelow
      | string =>
        have hfaults : (children.filter isFault).Sublist children := List.filter_sublist
        apply reportedWithin_map_report text .value (hself.holds.sublist (hfaults.map span))
        intro child hchild
        exact isPlaced_of_mem_children hplaced child (hfaults.subset hchild)
      | _ => exact hnone

theorem reportedWithin_errorsOfAll (text : List Char) : ∀ (place : Place) (trees : List Tree)
    {low high : Nat}, InOrder low high (trees.map span) →
      (∀ tree ∈ trees, ∀ part ∈ tree.preorder, part.IsPlaced) →
        ReportedWithin low high (errorsOfAll text place trees)
  | place, [], low, high, horder, hplaced => horder
  | place, tree :: trees, low, high, horder, hplaced => by
    obtain ⟨htree, htrees⟩ := List.forall_mem_cons.1 hplaced
    have hself := reportedWithin_errors text place tree htree
    rw [errorsOfAll]
    exact hself.append horder.1 (reportedWithin_errorsOfAll text place trees horder.2 htrees)

end

/-- What comes behind the value of a document is reported behind the errors in the value. -/
theorem reportedWithin_contentErrors (text : List Char) {low high : Nat} {trees : List Tree}
    (horder : InOrder low high (trees.map span))
    (hplaced : ∀ tree ∈ trees, ∀ part ∈ tree.preorder, part.IsPlaced) :
    ReportedWithin low high (contentErrors text trees) := by
  induction trees generalizing low with
  | nil => exact horder
  | cons tree trees ih =>
    obtain ⟨htree, htrees⟩ := List.forall_mem_cons.1 hplaced
    rw [contentErrors]
    apply (reportedWithin_errors text .value tree htree).append horder.1
    split
    · have hspans : (trees.map afterEnd).map SyntaxError.span = trees.map span := List.map_map
      change InOrder tree.span.limit high ((trees.map afterEnd).map SyntaxError.span)
      rw [hspans]
      exact horder.2
    · exact ih horder.2 htrees

theorem reportedWithin_allErrors (text : List Char) {tree : Tree}
    (hplaced : ∀ part ∈ tree.preorder, part.IsPlaced) :
    ReportedWithin tree.span.offset tree.span.limit (tree.allErrors text) := by
  obtain ⟨hself, hbelow⟩ := forall_mem_preorder.1 hplaced
  unfold allErrors
  split
  · apply reportedWithin_contentErrors text
    · exact hself.holds.sublist (List.filter_sublist.map span)
    · intro child hchild
      exact hbelow child (List.mem_filter.1 hchild).1
  · exact reportedWithin_errors text .value tree hplaced

end Tree

/-! ## Diagnostics -/

/-- The syntax errors that are read off a tree of a text come in text order and lie in the text, and
the diagnostics made from them start at positions in text order. -/
theorem errors_in_text_order {document : Document}
    (hsize : byteLength document.text.toList < 2 ^ 32) {tree : Tree}
    (hlies : tree.LiesIn document.text.toList) :
    (Reading.ofTree document.text.toList tree).errors.Pairwise (fun first second ↦
      first.span.offset ≤ second.span.offset) ∧
    (∀ error ∈ (Reading.ofTree document.text.toList tree).errors,
      error.span.offset + error.span.length ≤ byteLength document.text.toList) ∧
    (Analysis.ofReading document (Reading.ofTree document.text.toList tree)).diagnostics.Pairwise
      (fun first second ↦ first.range.start ≤ second.range.start) := by
  have hroot : tree.IsPlaced := (Tree.forall_mem_preorder.1 hlies.placed).1
  have hwithin := Tree.reportedWithin_allErrors document.text.toList hlies.placed
  have hordered : (tree.allErrors document.text.toList).Pairwise fun first second ↦
      first.span.offset ≤ second.span.offset := by
    refine (List.pairwise_map.1 (InOrder.pairwise hwithin)).imp fun {first second} hapart ↦ ?_
    exact first.span.offset_le_limit.trans hapart
  refine ⟨hordered, fun error hmem ↦ ?_, ?_⟩
  · have hbounds := InOrder.bounds hwithin (List.mem_map_of_mem hmem)
    rw [hroot.limit_span] at hbounds
    exact hbounds.2.trans hlies.within
  · exact List.pairwise_map.2 (hordered.imp (Document.position_mono hsize))

/-- The text of two objects, the first of which is left open, with an astral character and a line
feed in the second one. -/
def unclosedText : String := "\x7b\"a\":\x7b/ \x7b😀\n\"b\"\x7d"

/-- Its tree: an error in a pair, one in an object, and a brace that is missing at the end. -/
def unclosedTree : Tree :=
  .node .document 0 18 false
    [.node .object 0 18 false
        [.node .openBrace 0 1 false [],
          .node .pair 1 18 false
            [.node .string 1 4 false
                [.node .quote 1 2 false [], .node .other 2 3 false [], .node .quote 3 4 false []],
              .node .colon 4 5 false [],
              .node .error 5 7 false [.node .openBrace 5 6 false [], .node .error 6 7 false []],
              .node .object 8 18 false
                [.node .openBrace 8 9 false [],
                  .node .error 9 17 false
                    [.node .error 9 13 false [],
                      .node .string 14 17 false
                        [.node .quote 14 15 false [], .node .other 15 16 false [],
                          .node .quote 16 17 false []]],
                  .node .closeBrace 17 18 false []]],
          .node .closeBrace 18 18 true []]]

theorem errors_in_text_order_unclosed :
    let document := Document.ofText ⟨"a", none, .rootless "b", none, none⟩ 1 unclosedText
    let analysis := Analysis.ofReading document (.ofTree document.text.toList unclosedTree)
    unclosedTree.LiesIn document.text.toList ∧
    (Reading.ofTree document.text.toList unclosedTree).errors.map SyntaxError.span =
      [⟨7, 0⟩, ⟨9, 8⟩, ⟨18, 0⟩] ∧
    analysis.diagnostics.map (·.range.start) = [⟨0, 7⟩, ⟨0, 9⟩, ⟨1, 4⟩] ∧
    analysis.diagnostics.Pairwise (fun first second ↦ first.range.start ≤ second.range.start) := by
  intro document analysis
  have hsize : byteLength document.text.toList < 2 ^ 32 := by decide +kernel
  have hlies : unclosedTree.LiesIn document.text.toList := by decide +kernel
  have hordered := (errors_in_text_order hsize hlies).2.2
  exact ⟨hlies, by decide +kernel, by decide +kernel, hordered⟩

end LinkedJson
