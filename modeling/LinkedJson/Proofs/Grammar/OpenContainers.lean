import LinkedJson.Proofs.Grammar.Pieces
import LinkedJson.Proofs.Grammar.Steps
import LinkedJson.Proofs.Tree.Innermost
import Mathlib.Data.List.Basic

/-!
# Containers that are open while a text is read

The containers of a tree that are open at an offset are those that the reader has open when it comes
to the offset. Up to there, every complete tree lies before the offset. From there on, a container
that is opened starts behind the offset, and one that is closed stops behind it, so the containers
around the offset stay the same up to the end of the text.
-/

namespace LinkedJson

namespace Tree

/-- The kinds of the containers that are open at an offset, the outermost first. -/
def openKinds (offset : Nat) (tree : Tree) : List TreeKind :=
  (tree.openAt offset).map kind

theorem openKinds_preorderAll (offset : Nat) (trees : List Tree) :
    ((preorderAll trees).filter (isOpenAt offset)).map kind = trees.flatMap (openKinds offset) := by
  induction trees with
  | nil => rfl
  | cons tree trees ih =>
    rw [preorderAll, List.filter_append, List.map_append, ih]
    rfl

theorem openKinds_eq (offset : Nat) (tree : Tree) :
    tree.openKinds offset = (if tree.isOpenAt offset then [tree.kind] else []) ++
      tree.children.flatMap (openKinds offset) := by
  rw [openKinds, openAt, preorder_eq, List.filter_cons, ← openKinds_preorderAll]
  split <;> rfl

theorem openKinds_of_not_isOpenAt {offset : Nat} {tree : Tree}
    (hclosed : tree.isOpenAt offset = false)
    (hchildren : ∀ child ∈ tree.children, child.openKinds offset = []) :
    tree.openKinds offset = [] := by
  rw [openKinds_eq, hclosed, List.flatMap_eq_nil_iff.2 hchildren]
  rfl

end Tree

namespace Grammar

open LinkedJson.Tree

variable {offset : Nat}

/-! ## Frames and states -/

/-- The kind of the container that a frame is. -/
def Frame.kind? : Frame → Option TreeKind
  | array .. => some .array
  | object .. => some .object
  | pair .. => none

/-- The kinds of the containers of a frame that are open at an offset, if the frame is not closed
before it. -/
def Frame.openKinds (offset : Nat) : Frame → List TreeKind
  | array start _ items =>
    (if start < offset then [.array] else []) ++ items.reverse.flatMap (Tree.openKinds offset)
  | object start _ items =>
    (if start < offset then [.object] else []) ++ items.reverse.flatMap (Tree.openKinds offset)
  | pair name _ => name.openKinds offset

theorem openKinds_frame (container : Container) (start : Nat) (phase : Phase)
    (items : List Tree) :
    (container.frame start phase items).openKinds offset =
      (if start < offset then [container.kind] else []) ++
        items.reverse.flatMap (Tree.openKinds offset) := by
  cases container <;> rfl

theorem bracket?_opening (container : Container) : container.opening.bracket? ≠ none := by
  cases container <;> exact Option.some_ne_none _

theorem bracket?_closing (container : Container) : container.closing.bracket? ≠ none := by
  cases container <;> exact Option.some_ne_none _

theorem isContainer_kind (container : Container) : container.kind.isContainer = true := by
  cases container <;> rfl

namespace State

/-- The kinds of the containers that are open, the innermost first. -/
def kinds (state : State) : List TreeKind :=
  state.frames.filterMap Frame.kind?

/-- The kinds of the containers that are open at an offset, the outermost first, if those that are
open now are not closed before it. -/
def openKinds (offset : Nat) (state : State) : List TreeKind :=
  state.values.reverse.flatMap (Tree.openKinds offset) ++
    state.frames.reverse.flatMap (Frame.openKinds offset)

theorem openKinds_cons (offset : Nat) (frame : Frame) (frames : List Frame)
    (values : List Tree) :
    openKinds offset ⟨frame :: frames, values⟩ =
      openKinds offset ⟨frames, values⟩ ++ frame.openKinds offset := by
  simp only [openKinds, List.reverse_cons, List.flatMap_append, List.flatMap_singleton,
    List.append_assoc]

theorem Completes.kinds {state next : State} {value : Tree}
    (hcompletes : state.Completes value next) : next.kinds = state.kinds := by
  cases hcompletes <;> rfl

/-- Only brackets change which containers are open. -/
theorem Steps.kinds {state next : State} {lexeme : Lexeme} (hsteps : state.Steps lexeme next)
    (hbracket : lexeme.token.bracket? = none) : next.kinds = state.kinds := by
  cases hsteps with
  | scalar hscalar hcompletes => exact hcompletes.kinds
  | opens container state htoken =>
    rw [htoken] at hbracket
    exact absurd hbracket (bracket?_opening container)
  | closes container htoken hphase hcompletes =>
    rw [htoken] at hbracket
    exact absurd hbracket (bracket?_closing container)
  | separates container => cases container <;> rfl
  | names => rfl

theorem Completes.openKinds {state next : State} {value : Tree}
    (hcompletes : state.Completes value next) :
    next.openKinds offset = state.openKinds offset ++ value.openKinds offset := by
  cases hcompletes with
  | document values => simp [State.openKinds]
  | element => simp [openKinds_cons, Frame.openKinds]
  | name => simp [openKinds_cons, Frame.openKinds]
  | member name =>
    have hpair : Tree.openKinds offset (.node .pair name.start value.stop false [name, value]) =
        name.openKinds offset ++ value.openKinds offset := by
      rw [openKinds_eq]
      simp [isOpenAt, TreeKind.isContainer, Tree.kind, children]
    simp [openKinds_cons, Frame.openKinds, hpair]

theorem openKinds_scalar {kind : TreeKind} {lexeme : Lexeme}
    (hscalar : lexeme.token.scalar? = some kind) : (scalar kind lexeme).openKinds offset = [] := by
  apply openKinds_of_not_isOpenAt
  · obtain ⟨token, start, stop⟩ := lexeme
    cases token <;> cases hscalar <;> rfl
  · intro child hchild
    cases hchild

/-! ## Behind the offset -/

/-- A token that is no bracket before the offset leaves the containers around the offset. -/
theorem Steps.openKinds {state next : State} {lexeme : Lexeme} (hsteps : state.Steps lexeme next)
    (hlt : lexeme.start < lexeme.stop)
    (hlate : lexeme.token.bracket? ≠ none → offset ≤ lexeme.start) :
    next.openKinds offset = state.openKinds offset := by
  cases hsteps with
  | scalar hscalar hcompletes =>
    rw [hcompletes.openKinds, openKinds_scalar hscalar, List.append_nil]
  | opens container state htoken =>
    have hstart : ¬ lexeme.start < offset :=
      Nat.not_lt.2 (hlate (htoken ▸ bracket?_opening container))
    rw [push, openKinds_cons, openKinds_frame, if_neg hstart]
    exact List.append_nil _
  | @closes container start phase items frames values next htoken hphase hcompletes =>
    have hstop : offset < lexeme.stop :=
      Nat.lt_of_le_of_lt (hlate (htoken ▸ bracket?_closing container)) hlt
    have hopen : isOpenAt offset (.node container.kind start lexeme.stop false items.reverse) =
        decide (start < offset) := by
      change (container.kind.isContainer && decide (start < offset) &&
        decide (offset < lexeme.stop)) = _
      rw [isContainer_kind, decide_eq_true hstop, Bool.true_and, Bool.and_true]
    rw [hcompletes.openKinds, openKinds_cons, openKinds_frame, openKinds_eq, hopen]
    simp only [decide_eq_true_eq]
    rfl
  | separates => rw [openKinds_cons, openKinds_cons, openKinds_frame, openKinds_frame]
  | names =>
    rw [openKinds_cons, openKinds_cons]
    rfl

/-- The rest of a text leaves the containers around an offset that has been passed. -/
theorem openKinds_run {pieces : List Piece} {start : Nat} {state final : State}
    (hshapes : ∀ piece ∈ pieces, piece.Shape) (hle : offset ≤ start)
    (hrun : state.run (lexemesFrom start pieces) = some final) :
    final.openKinds offset = state.openKinds offset := by
  induction pieces generalizing start state with
  | nil =>
    cases hrun
    rfl
  | cons piece pieces ih =>
    obtain ⟨hshape, hothers⟩ := List.forall_mem_cons.1 hshapes
    have hpos := hshape.byteLength_pos
    have hstop : offset ≤ start + Text.byteLength piece.chars := Nat.le_add_right_of_le hle
    rw [lexemesFrom] at hrun
    cases htoken : piece.token? with
    | none =>
      rw [htoken] at hrun
      exact ih hothers hstop hrun
    | some token =>
      rw [htoken] at hrun
      obtain ⟨next, hsteps, hrest⟩ := exists_steps_of_run hrun
      rw [ih hothers hstop hrest]
      exact hsteps.openKinds (Nat.lt_add_of_pos_right hpos) fun _ ↦ hle

/-- The piece in which a text breaks off, and what is behind it, leaves the containers around the
place where it does. -/
theorem openKinds_run_of_part {piece : Piece} {pieces : List Piece} {part : List Char} {start : Nat}
    {state final : State} (hshapes : ∀ other ∈ piece :: pieces, other.Shape)
    (hpart : part <+: piece.chars) (hproper : part ≠ piece.chars)
    (hrun : state.run (lexemesFrom start (piece :: pieces)) = some final) :
    final.openKinds (start + Text.byteLength part) =
      state.openKinds (start + Text.byteLength part) := by
  obtain ⟨hshape, hothers⟩ := List.forall_mem_cons.1 hshapes
  have hpos := hshape.byteLength_pos
  have hstop : start + Text.byteLength part ≤ start + Text.byteLength piece.chars := by
    obtain ⟨behind, hbehind⟩ := hpart
    rw [← hbehind, Text.byteLength_append]
    omega
  rw [lexemesFrom] at hrun
  cases htoken : piece.token? with
  | none =>
    rw [htoken] at hrun
    exact openKinds_run hothers hstop hrun
  | some token =>
    rw [htoken] at hrun
    obtain ⟨next, hsteps, hrest⟩ := exists_steps_of_run hrun
    rw [openKinds_run hothers hstop hrest]
    refine hsteps.openKinds (Nat.lt_add_of_pos_right hpos) fun hbracket ↦ ?_
    rw [hshape.eq_nil_of_bracket? htoken hbracket hpart hproper]
    exact Nat.le_refl _

end State

/-! ## Before the offset -/

/-- A frame was opened before an offset, and so were closed the containers in it. -/
def Frame.Settled (offset : Nat) : Frame → Prop
  | array start _ items => start < offset ∧ ∀ item ∈ items, item.openKinds offset = []
  | object start _ items => start < offset ∧ ∀ item ∈ items, item.openKinds offset = []
  | pair name _ => name.openKinds offset = []

theorem settled_frame (container : Container) (start : Nat) (phase : Phase) (items : List Tree) :
    (container.frame start phase items).Settled offset ↔
      start < offset ∧ ∀ item ∈ items, item.openKinds offset = [] := by
  cases container <;> exact Iff.rfl

theorem Frame.Settled.openKinds {frame : Frame} (hsettled : frame.Settled offset) :
    frame.openKinds offset = frame.kind?.toList := by
  have hnone : ∀ {items : List Tree}, (∀ item ∈ items, item.openKinds offset = []) →
      items.reverse.flatMap (Tree.openKinds offset) = [] :=
    fun hitems ↦ List.flatMap_eq_nil_iff.2 fun item hitem ↦ hitems item (List.mem_reverse.1 hitem)
  cases frame with
  | array | object =>
    rw [Frame.openKinds, if_pos hsettled.1, hnone hsettled.2]
    rfl
  | pair => exact hsettled

namespace State

/-- All that has been read lies before an offset. -/
structure Settled (offset : Nat) (state : State) : Prop where
  frames : ∀ frame ∈ state.frames, frame.Settled offset
  values : ∀ value ∈ state.values, value.openKinds offset = []

theorem settled_start (offset : Nat) : start.Settled offset :=
  ⟨fun frame hframe ↦ (by cases hframe), fun value hvalue ↦ (by cases hvalue)⟩

theorem Settled.completes {state next : State} {value : Tree} (hsettled : state.Settled offset)
    (hvalue : value.openKinds offset = []) (hcompletes : state.Completes value next) :
    next.Settled offset := by
  obtain ⟨hframes, hvalues⟩ := hsettled
  cases hcompletes with
  | document => exact ⟨hframes, List.forall_mem_cons.2 ⟨hvalue, hvalues⟩⟩
  | element =>
    obtain ⟨⟨hstart, hitems⟩, hbelow⟩ := List.forall_mem_cons.1 hframes
    refine ⟨List.forall_mem_cons.2 ⟨⟨hstart, ?_⟩, hbelow⟩, hvalues⟩
    exact List.forall_mem_cons.2 ⟨hvalue, hitems⟩
  | name => exact ⟨List.forall_mem_cons.2 ⟨hvalue, hframes⟩, hvalues⟩
  | member name =>
    obtain ⟨hname, hrest⟩ := List.forall_mem_cons.1 hframes
    obtain ⟨⟨hstart, hitems⟩, hbelow⟩ := List.forall_mem_cons.1 hrest
    refine ⟨List.forall_mem_cons.2 ⟨⟨hstart, ?_⟩, hbelow⟩, hvalues⟩
    refine List.forall_mem_cons.2 ⟨openKinds_of_not_isOpenAt rfl ?_, hitems⟩
    exact List.forall_mem_cons.2 ⟨hname, List.forall_mem_singleton.2 hvalue⟩

/-- A token before the offset keeps what has been read before the offset. -/
theorem Settled.steps {state next : State} {lexeme : Lexeme} (hsettled : state.Settled offset)
    (hsteps : state.Steps lexeme next) (hlt : lexeme.start < lexeme.stop)
    (hle : lexeme.stop ≤ offset) : next.Settled offset := by
  cases hsteps with
  | scalar hscalar hcompletes => exact hsettled.completes (openKinds_scalar hscalar) hcompletes
  | opens container =>
    have hframe : (container.frame lexeme.start .opened []).Settled offset :=
      (settled_frame ..).2 ⟨Nat.lt_of_lt_of_le hlt hle, fun item hitem ↦ by cases hitem⟩
    exact ⟨List.forall_mem_cons.2 ⟨hframe, hsettled.frames⟩, hsettled.values⟩
  | @closes container start phase items frames values next htoken hphase hcompletes =>
    obtain ⟨htop, hbelow⟩ := List.forall_mem_cons.1 hsettled.frames
    have hpopped : Settled offset ⟨frames, values⟩ := ⟨hbelow, hsettled.values⟩
    refine hpopped.completes (openKinds_of_not_isOpenAt ?_ fun child hchild ↦ ?_) hcompletes
    · rw [isOpenAt, Bool.and_eq_false_iff]
      exact .inr (decide_eq_false (Nat.not_lt.2 hle))
    · exact ((settled_frame ..).1 htop).2 child (List.mem_reverse.1 hchild)
  | separates container =>
    obtain ⟨htop, hbelow⟩ := List.forall_mem_cons.1 hsettled.frames
    refine ⟨List.forall_mem_cons.2 ⟨?_, hbelow⟩, hsettled.values⟩
    exact (settled_frame ..).2 ((settled_frame ..).1 htop)
  | names =>
    obtain ⟨htop, hbelow⟩ := List.forall_mem_cons.1 hsettled.frames
    exact ⟨List.forall_mem_cons.2 ⟨htop, hbelow⟩, hsettled.values⟩

/-- When all that has been read lies before an offset, the containers around the offset are those
that are open. -/
theorem Settled.openKinds {state : State} (hsettled : state.Settled offset) :
    state.openKinds offset = state.kinds.reverse := by
  have hvalues : state.values.reverse.flatMap (Tree.openKinds offset) = [] :=
    List.flatMap_eq_nil_iff.2 fun value hvalue ↦
      hsettled.values value (List.mem_reverse.1 hvalue)
  have hframes : state.frames.reverse.flatMap (Frame.openKinds offset) = state.kinds.reverse := by
    calc state.frames.reverse.flatMap (Frame.openKinds offset)
        = state.frames.reverse.flatMap (fun frame ↦ frame.kind?.toList) :=
          List.flatMap_congr fun frame hframe ↦
            (hsettled.frames frame (List.mem_reverse.1 hframe)).openKinds
      _ = state.frames.reverse.filterMap Frame.kind? :=
          (List.filterMap_eq_flatMap_toList _ _).symm
      _ = state.kinds.reverse := List.filterMap_reverse
  rw [State.openKinds, hvalues, hframes, List.nil_append]

end State

end Grammar

end LinkedJson
