import LinkedJson.Proofs.Grammar.Values
import LinkedJson.Proofs.Symbol.Walk
import LinkedJson.Proofs.Tree.Bare

/-!
# Containers of the grammar

In the tree that the grammar gives to a text, an object holds pairs, and an array and the document
itself hold values. While a text is read, this holds of all complete trees and of the items of each
open container. The value of a text of the grammar is therefore well-formed: its objects hold
members, and its arrays hold values.
-/

namespace LinkedJson

/-- What may stand at a place: a pair for a member, or a value. -/
def Place.Admits (tree : Tree) : Place → Prop
  | member => tree.kind = .pair
  | value => tree.kind.isValue = true

/-- The place that a container is for its children. -/
def TreeKind.place? : TreeKind → Option Place
  | object => some .member
  | array | document => some .value
  | _ => none

namespace Tree

/-- The children of a container are admitted there. -/
def Fits (tree : Tree) : Prop :=
  ∀ place, tree.kind.place? = some place → ∀ child ∈ tree.children, place.Admits child

/-- A tree and all trees below it have fitting children. -/
def Fitting (tree : Tree) : Prop :=
  ∀ part ∈ tree.preorder, part.Fits

theorem fitting_iff {tree : Tree} :
    tree.Fitting ↔ tree.Fits ∧ ∀ child ∈ tree.children, child.Fitting :=
  forall_mem_preorder

/-- Trees that may stand one after another at a place. -/
def Items (place : Place) (trees : List Tree) : Prop :=
  ∀ tree ∈ trees, place.Admits tree ∧ tree.Fitting

theorem Items.cons {place : Place} {tree : Tree} {trees : List Tree} (hadmits : place.Admits tree)
    (hfitting : tree.Fitting) (hitems : Items place trees) : Items place (tree :: trees) :=
  List.forall_mem_cons.2 ⟨⟨hadmits, hfitting⟩, hitems⟩

theorem Items.fitting {place : Place} {trees : List Tree} (hitems : Items place trees)
    {kind : TreeKind} (hkind : kind.place? = some place) (start stop : Nat) :
    Fitting (.node kind start stop false trees.reverse) := by
  refine fitting_iff.2 ⟨fun other hother child hchild ↦ ?_, fun child hchild ↦ ?_⟩
  · obtain rfl : place = other := Option.some.inj (hkind.symm.trans hother)
    exact (hitems child (List.mem_reverse.1 hchild)).1
  · exact (hitems child (List.mem_reverse.1 hchild)).2

end Tree

namespace Grammar

open LinkedJson.Tree

/-- The items of an open container fit it. -/
def Frame.Fitting : Frame → Prop
  | array _ _ items => Items .value items
  | object _ _ items => Items .member items
  | pair name _ => name.Fitting

/-- The items of all open containers fit them, and the document holds values. -/
structure State.Fitting (state : State) : Prop where
  frames : ∀ frame ∈ state.frames, frame.Fitting
  values : Items .value state.values

theorem fitting_scalar (kind : TreeKind) (lexeme : Lexeme) :
    (State.scalar kind lexeme).Fitting := by
  refine fitting_iff.2 ⟨fun place _ child hchild ↦ ?_, fun child hchild ↦ ?_⟩ <;> cases hchild

theorem State.Fitting.completes {state next : State} (hfitting : state.Fitting) {value : Tree}
    (hvalue : value.Fitting) (hkind : value.kind.isValue = true)
    (hcompletes : state.Completes value next) : next.Fitting := by
  obtain ⟨hframes, hvalues⟩ := hfitting
  cases hcompletes with
  | document => exact ⟨hframes, hvalues.cons hkind hvalue⟩
  | element =>
    obtain ⟨hitems, hbelow⟩ := List.forall_mem_cons.1 hframes
    exact ⟨List.forall_mem_cons.2 ⟨Items.cons hkind hvalue hitems, hbelow⟩, hvalues⟩
  | name => exact ⟨List.forall_mem_cons.2 ⟨hvalue, hframes⟩, hvalues⟩
  | member name start phase items =>
    obtain ⟨hname, hrest⟩ := List.forall_mem_cons.1 hframes
    obtain ⟨hitems, hbelow⟩ := List.forall_mem_cons.1 hrest
    have hpair : Tree.Fitting (.node .pair name.start value.stop false [name, value]) := by
      refine fitting_iff.2 ⟨fun place hplace ↦ (by cases hplace), fun child hchild ↦ ?_⟩
      simp only [children, List.mem_cons, List.not_mem_nil, or_false] at hchild
      rcases hchild with rfl | rfl
      · exact hname
      · exact hvalue
    exact ⟨List.forall_mem_cons.2 ⟨Items.cons rfl hpair hitems, hbelow⟩, hvalues⟩

/-- Reading a token keeps the items of all containers fitting. -/
theorem State.Fitting.steps {state next : State} {lexeme : Lexeme} (hfitting : state.Fitting)
    (hsteps : state.Steps lexeme next) : next.Fitting := by
  have hnone : ∀ place, Items place [] := fun place tree hmem ↦ by cases hmem
  cases hsteps with
  | scalar hscalar hcompletes =>
    exact hfitting.completes (fitting_scalar _ lexeme) (isValue_of_scalar? hscalar) hcompletes
  | opens container =>
    refine ⟨List.forall_mem_cons.2 ⟨?_, hfitting.frames⟩, hfitting.values⟩
    cases container <;> exact hnone _
  | closes container htoken hphase hcompletes =>
    obtain ⟨hitems, hbelow⟩ := List.forall_mem_cons.1 hfitting.frames
    have hpopped : State.Fitting ⟨_, _⟩ := ⟨hbelow, hfitting.values⟩
    cases container <;>
      exact hpopped.completes (Items.fitting hitems rfl _ lexeme.stop) rfl hcompletes
  | separates container =>
    obtain ⟨htop, hbelow⟩ := List.forall_mem_cons.1 hfitting.frames
    refine ⟨List.forall_mem_cons.2 ⟨?_, hbelow⟩, hfitting.values⟩
    cases container <;> exact htop
  | names =>
    obtain ⟨htop, hbelow⟩ := List.forall_mem_cons.1 hfitting.frames
    exact ⟨List.forall_mem_cons.2 ⟨htop, hbelow⟩, hfitting.values⟩

/-- Reading a text keeps the items of all containers fitting. -/
theorem State.Fitting.run {state final : State} {lexemes : List Lexeme} (hfitting : state.Fitting)
    (hrun : state.run lexemes = some final) : final.Fitting := by
  induction lexemes generalizing state with
  | nil =>
    cases hrun
    exact hfitting
  | cons lexeme lexemes ih =>
    obtain ⟨next, hsteps, hrest⟩ := State.exists_steps_of_run hrun
    exact ih (hfitting.steps hsteps) hrest

theorem fitting_of_tree? {text : List Char} {tree : Tree} (htree : tree? text = some tree) :
    tree.Fitting := by
  obtain ⟨parts, values, -, hrun, rfl⟩ := exists_run_of_tree? htree
  have hstart : State.start.Fitting :=
    ⟨fun frame hmem ↦ (by cases hmem), fun value hmem ↦ (by cases hmem)⟩
  exact Items.fitting (hstart.run hrun).values rfl _ _

end Grammar

/-! ## From trees to nodes -/

namespace Tree

variable {text : List Char}

theorem isProperty_node? {tree : Tree} {value : Node} (hvalue : tree.node? text = some value) :
    value.isProperty = (tree.kind == .pair) := by
  cases standsFor_of_node? hvalue with
  | object hkind | array hkind | pair hkind | string hkind | number hkind | trueWord hkind
  | falseWord hkind | nullWord hkind =>
    rw [hkind]
    rfl

theorem mem_parts {trees : List Tree} {value : Node} :
    value ∈ parts text trees ↔ ∃ tree ∈ trees, tree.node? text = some value := by
  induction trees with
  | nil => simp [parts]
  | cons tree trees ih => simp [parts, ih]

theorem isProperty_of_isValue {tree : Tree} (hkind : tree.kind.isValue = true) {value : Node}
    (hvalue : tree.node? text = some value) : value.isProperty = false := by
  rw [isProperty_node? hvalue]
  cases hpair : tree.kind with
  | pair =>
    rw [hpair] at hkind
    cases hkind
  | _ => rfl

/-- What a fitting tree stands for has fitting children. -/
theorem fits_node? {whole tree : Tree} (hregular : whole.Regular text)
    (htree : tree ∈ whole.preorder) (hfits : tree.Fits) {value : Node}
    (hvalue : tree.node? text = some value) : value.Fits := by
  have hchildren : ∀ child ∈ tree.children, child ∈ whole.preorder :=
    fun child hchild ↦ mem_preorder_of_mem_children whole htree hchild
  have hsource : ∀ {place : Place} {item : Node}, item ∈ elements text place tree.children →
      ∃ child ∈ tree.children, child.node? text = some item := by
    intro place item hitem
    rw [elements_eq_parts text place fun child hchild ↦
      (hregular child (hchildren child hchild)).isFault_eq] at hitem
    exact mem_parts.1 hitem
  cases standsFor_of_node? hvalue with
  | object hkind =>
    intro member hmember
    obtain ⟨child, hchild, hnode⟩ := hsource hmember
    have hpair : child.kind = .pair := hfits .member (by rw [hkind]; rfl) child hchild
    have hshape : member.HasShape :=
      hasShape_node? (hregular child (hchildren child hchild)) (fun part hpart ↦
        hregular part (mem_preorder_of_mem_children whole (hchildren child hchild) hpart)) hnode
    refine hshape ?_
    rw [isProperty_node? hnode, hpair]
    rfl
  | array hkind =>
    intro element helement
    obtain ⟨child, hchild, hnode⟩ := hsource helement
    exact isProperty_of_isValue (hfits .value (by rw [hkind]; rfl) child hchild) hnode
  | _ => trivial

end Tree

/-- The value of a text of the grammar is well-formed. -/
theorem Grammar.wellFormed_rootNode {text : List Char} {tree : Tree}
    (htree : tree? text = some tree) {root : Node} (hroot : tree.rootNode text = some root) :
    root.WellFormed := by
  obtain ⟨hkind, hregular⟩ := regular_of_tree? htree
  obtain ⟨hself, hbelow⟩ := Tree.fitting_iff.1 (fitting_of_tree? htree)
  rw [Tree.rootNode, hkind] at hroot
  obtain ⟨value, hvalue, hnode⟩ := List.exists_of_findSome?_eq_some hroot
  have hchild : value ∈ tree.children := (List.mem_filter.1 hvalue).1
  constructor
  · exact Tree.isProperty_of_isValue (hself .value (by rw [hkind]; rfl) value hchild) hnode
  · intro part hpart
    obtain ⟨source, hsource, hnode⟩ := Tree.exists_mem_preorder_node? text value hnode part hpart
    exact Tree.fits_node? ((Tree.regular_iff.1 hregular).2 value hchild) hsource
      (hbelow value hchild source hsource) hnode

end LinkedJson
