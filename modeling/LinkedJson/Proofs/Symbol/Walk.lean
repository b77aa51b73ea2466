import LinkedJson.Proofs.Symbol.Entries
import LinkedJson.Proofs.Symbol.Pointer
import LinkedJson.Proofs.Symbol.Table
import Mathlib.Data.List.Sigma

/-!
# Walking along a pointer

A pointer can be followed step by step from the root of a document: a step into an object goes to
the member with that name, and a step into an array goes to the element with that number. The table
of a document is filled in one pass over all of it. This module shows that looking up a pointer in
the table finds what the walk finds, as long as no object repeats a name and no name has a slash in
it.
-/

namespace LinkedJson

/-- An entry lies behind a step: its pointer goes on with that step, and the steps can be told. -/
def Entry.Through (path step : String) (entry : Entry) : Prop :=
  ∃ rest, entry.pointer = descend path (step :: rest) ∧
    ∀ part ∈ step :: rest, '/' ∉ part.toList

theorem Entry.Through.pointer_ne {path step step' : String} {entry other : Entry}
    (hentry : entry.Through path step) (hother : other.Through path step') (hne : step ≠ step') :
    entry.pointer ≠ other.pointer := by
  obtain ⟨rest, hpointer, hplain⟩ := hentry
  obtain ⟨rest', hpointer', hplain'⟩ := hother
  intro hsame
  rw [hpointer, hpointer'] at hsame
  exact hne (List.cons.inj (descend_injective hplain hplain' hsame)).1

namespace Node

/-- The names in an object, in text order. -/
def names : Node → List String
  | object members _ => members.filterMap name?
  | _ => []

/-- What a walk goes on with: the value of a property, and any other node itself. -/
def content : Node → Node
  | property [_, value] _ => value
  | node => node

/-- Where a step leads: to the member of an object with that name, or to the element of an array
with that number. -/
def step? (node : Node) (step : String) : Option Node :=
  match node.content with
  | object members _ => members.find? (·.name? = some step)
  | array elements _ => (decimal? step).bind fun index ↦ elements[index]?
  | _ => none

/-- Where steps lead, one after another. -/
def walk? (root : Node) (steps : List String) : Option Node :=
  steps.foldlM step? root

/-! ## Documents in which pointers can be followed -/

/-- A property with a name, whose value is no property. -/
def IsMember (node : Node) : Prop :=
  ∃ name nameSpan value span,
    node = .property [.string name nameSpan, value] span ∧ value.isProperty = false

/-- An object holds members, and an array holds values. -/
def Fits : Node → Prop
  | object members _ => ∀ member ∈ members, member.IsMember
  | array elements _ => ∀ element ∈ elements, element.isProperty = false
  | _ => True

/-- A value in which all objects hold members and all arrays hold values. -/
structure WellFormed (root : Node) : Prop where
  isProperty_eq : root.isProperty = false
  fits : ∀ part ∈ root.preorder, part.Fits

/-- No object repeats a name. -/
def DistinctNames (root : Node) : Prop :=
  ∀ part ∈ root.preorder, part.names.Nodup

/-- No name has a slash in it. -/
def SlashFree (root : Node) : Prop :=
  ∀ part ∈ root.preorder, ∀ name ∈ part.names, '/' ∉ name.toList

theorem hasShape_of_mem_children {node child : Node} (hshape : node.HasShape) (hfits : node.Fits)
    (hchild : child ∈ node.children) : child.HasShape := by
  cases node with
  | object members span => exact fun _ ↦ hfits child hchild
  | array elements span =>
    intro hproperty
    rw [hfits child hchild] at hproperty
    cases hproperty
  | property parts span =>
    obtain ⟨name, nameSpan, value, span', hnode, hvalue⟩ := hshape rfl
    obtain ⟨rfl, rfl⟩ := Node.property.inj hnode
    intro hproperty
    simp only [children, List.mem_cons, List.not_mem_nil, or_false] at hchild
    rcases hchild with rfl | rfl
    · cases hproperty
    · rw [hvalue] at hproperty
      cases hproperty
  | _ => cases hchild

theorem shaped_of_fits {node : Node} (hshape : node.HasShape)
    (hfits : ∀ part ∈ node.preorder, part.Fits) : node.Shaped := by
  induction node using children_induction with
  | hstep node ih =>
    obtain ⟨hself, hchildren⟩ := forall_mem_preorder.1 hfits
    refine shaped_iff.2 ⟨hshape, fun child hchild ↦ ?_⟩
    exact ih child hchild (hasShape_of_mem_children hshape hself hchild) (hchildren child hchild)

theorem WellFormed.shaped {root : Node} (hwell : root.WellFormed) : root.Shaped := by
  refine shaped_of_fits (fun hproperty ↦ ?_) hwell.fits
  rw [hwell.isProperty_eq] at hproperty
  cases hproperty

/-- What the walks below need of each node. -/
structure IsOrderly (node : Node) : Prop where
  shape : node.HasShape
  fits : node.Fits
  nodup : node.names.Nodup
  slashFree : ∀ name ∈ node.names, '/' ∉ name.toList

/-- A node is orderly, and so are all nodes below it. -/
def Orderly (node : Node) : Prop :=
  ∀ part ∈ node.preorder, part.IsOrderly

theorem orderly_iff {node : Node} :
    node.Orderly ↔ node.IsOrderly ∧ ∀ child ∈ node.children, child.Orderly :=
  forall_mem_preorder

theorem WellFormed.orderly {root : Node} (hwell : root.WellFormed)
    (hdistinct : root.DistinctNames) (hslash : root.SlashFree) : root.Orderly :=
  fun part hpart ↦
    ⟨hwell.shaped part hpart, hwell.fits part hpart, hdistinct part hpart, hslash part hpart⟩

theorem IsMember.exists_name {node : Node} (hmember : node.IsMember) :
    ∃ name, node.name? = some name := by
  obtain ⟨name, nameSpan, value, span, rfl, -⟩ := hmember
  exact ⟨name, rfl⟩

/-! ## The steps of a walk -/

theorem walk?_nil (node : Node) : node.walk? [] = some node := rfl

theorem walk?_cons (node : Node) (step : String) (steps : List String) :
    node.walk? (step :: steps) = (node.step? step).bind (·.walk? steps) := by
  rw [walk?, List.foldlM_cons]
  rfl

/-- A walk from a value to a property takes a first step. -/
theorem walk?_eq_some_iff {node found : Node} (hnode : node.isProperty = false)
    (hfound : found.isProperty = true) {steps : List String} :
    node.walk? steps = some found ↔
      ∃ step rest next, steps = step :: rest ∧ node.step? step = some next ∧
        next.walk? rest = some found := by
  cases steps with
  | nil =>
    have hne : node ≠ found := by
      rintro rfl
      rw [hnode] at hfound
      cases hfound
    simp [walk?_nil, hne]
  | cons step steps =>
    rw [walk?_cons, Option.bind_eq_some_iff]
    constructor
    · rintro ⟨next, hstep, hrest⟩
      exact ⟨step, steps, next, rfl, hstep, hrest⟩
    · rintro ⟨step, rest, next, hsteps, hstep, hrest⟩
      obtain ⟨rfl, rfl⟩ := List.cons.inj hsteps
      exact ⟨next, hstep, hrest⟩

theorem content_of_isProperty {node : Node} (hproperty : node.isProperty = false) :
    node.content = node := by
  cases node with
  | property parts span => cases hproperty
  | _ => rfl

theorem isProperty_content {node : Node} (hshape : node.HasShape) :
    node.content.isProperty = false := by
  cases hproperty : node.isProperty with
  | false => rwa [content_of_isProperty hproperty]
  | true =>
    obtain ⟨name, nameSpan, value, span, rfl, hvalue⟩ := hshape hproperty
    exact hvalue

theorem step?_content {node : Node} (hshape : node.HasShape) (step : String) :
    node.content.step? step = node.step? step := by
  rw [step?, step?, content_of_isProperty (isProperty_content hshape)]

theorem walk?_property_cons (name : String) (nameSpan : Span) {value : Node}
    (hvalue : value.isProperty = false) (span : Span) (step : String) (steps : List String) :
    (property [string name nameSpan, value] span).walk? (step :: steps) =
      value.walk? (step :: steps) := by
  have hshape : (property [string name nameSpan, value] span).HasShape :=
    fun _ ↦ ⟨name, nameSpan, value, span, rfl, hvalue⟩
  rw [walk?_cons, walk?_cons, ← step?_content hshape]
  rfl

/-- Different members of an object have different names. -/
def Apart (first second : Node) : Prop :=
  ∀ name, first.name? = some name → ∀ other, second.name? = some other → name ≠ other

theorem pairwise_apart {members : List Node} {span : Span}
    (hnodup : (object members span).names.Nodup) : members.Pairwise Apart :=
  List.pairwise_filterMap.1 hnodup

/-- A step into an object finds a member by its name. -/
theorem step?_object {members : List Node} {span : Span}
    (hnodup : (object members span).names.Nodup) {step : String} {member : Node} :
    (object members span).step? step = some member ↔
      member ∈ members ∧ member.name? = some step := by
  have hsymm : Std.Symm Apart :=
    ⟨fun _ _ hapart name hname other hother ↦ (hapart other hother name hname).symm⟩
  have hunique : ∀ first ∈ members, ∀ second ∈ members,
      decide (first.name? = some step) = true → decide (second.name? = some step) = true →
        first = second := by
    intro first hfirst second hsecond hname hother
    by_contra hne
    exact (pairwise_apart hnodup).forall hfirst hsecond hne step (of_decide_eq_true hname) step
      (of_decide_eq_true hother) rfl
  change members.find? _ = some member ↔ _
  rw [find?_eq_some_iff_of_unique hunique, decide_eq_true_eq]

theorem step?_array {elements : List Node} {span : Span} {step : String} {element : Node} :
    (array elements span).step? step = some element ↔
      ∃ index : Nat, step = toString index ∧ elements[index]? = some element := by
  change (decimal? step).bind _ = some element ↔ _
  simp only [Option.bind_eq_some_iff, decimal?_eq_some_iff]

/-! ## The properties that walks lead to -/

theorem mem_entries_object {path : String} {members : List Node} {span : Span} {entry : Entry} :
    entry ∈ (object members span).entries path ↔
      ∃ member ∈ members, entry ∈ member.entries path := by
  rw [entries_object, List.mem_flatMap]

theorem mem_entries_array {path : String} {elements : List Node} {span : Span} {entry : Entry} :
    entry ∈ (array elements span).entries path ↔
      ∃ (index : Nat) (element : Node), elements[index]? = some element ∧
        entry ∈ element.entries (stepInto path (toString index)) := by
  rw [entries_array, List.mem_flatMap]
  constructor
  · rintro ⟨⟨element, index⟩, hmem, hentry⟩
    exact ⟨index, element, List.mem_zipIdx_iff_getElem?.1 hmem, hentry⟩
  · rintro ⟨index, element, hget, hentry⟩
    exact ⟨(element, index), List.mem_zipIdx_iff_getElem?.2 hget, hentry⟩

/-- A walk leads from a node to the property of an entry, and its steps make the pointer of the
entry from the path of the node. A walk from a property has the name of the property behind it
already. -/
def Reaches (node : Node) (path : String) (entry : Entry) : Prop :=
  ∃ steps, entry.pointer = descend path (node.name?.toList ++ steps) ∧
    node.walk? steps = some entry.property

theorem reaches_iff_of_isProperty {node : Node} (hproperty : node.isProperty = false)
    {path : String} {entry : Entry} :
    node.Reaches path entry ↔
      ∃ step rest next, entry.pointer = descend path (step :: rest) ∧
        node.step? step = some next ∧ next.walk? rest = some entry.property := by
  unfold Reaches
  rw [name?_eq_none_of_isProperty hproperty]
  constructor
  · rintro ⟨steps, hpointer, hwalk⟩
    obtain ⟨step, rest, next, rfl, hstep, hrest⟩ := (walk?_eq_some_iff hproperty rfl).1 hwalk
    exact ⟨step, rest, next, hpointer, hstep, hrest⟩
  · rintro ⟨step, rest, next, hpointer, hstep, hrest⟩
    exact ⟨step :: rest, hpointer,
      (walk?_eq_some_iff hproperty rfl).2 ⟨step, rest, next, rfl, hstep, hrest⟩⟩

theorem reaches_object {members : List Node} {span : Span}
    (hself : (object members span).IsOrderly) {path : String} {entry : Entry} :
    (object members span).Reaches path entry ↔
      ∃ member ∈ members, member.Reaches path entry := by
  rw [reaches_iff_of_isProperty rfl]
  constructor
  · rintro ⟨name, rest, member, hpointer, hstep, hrest⟩
    obtain ⟨hmember, hname⟩ := (step?_object hself.nodup).1 hstep
    refine ⟨member, hmember, rest, ?_, hrest⟩
    rw [hname]
    exact hpointer
  · rintro ⟨member, hmember, rest, hpointer, hrest⟩
    obtain ⟨name, hname⟩ := (hself.fits member hmember).exists_name
    rw [hname] at hpointer
    exact ⟨name, rest, member, hpointer, (step?_object hself.nodup).2 ⟨hmember, hname⟩, hrest⟩

theorem reaches_array {elements : List Node} {span : Span}
    (hself : (array elements span).IsOrderly) {path : String} {entry : Entry} :
    (array elements span).Reaches path entry ↔
      ∃ (index : Nat) (element : Node), elements[index]? = some element ∧
        element.Reaches (stepInto path (toString index)) entry := by
  have hname : ∀ {index : Nat} {element : Node}, elements[index]? = some element →
      element.name? = none := fun hget ↦
    name?_eq_none_of_isProperty (hself.fits _ (List.mem_of_getElem? hget))
  rw [reaches_iff_of_isProperty rfl]
  constructor
  · rintro ⟨step, rest, element, hpointer, hstep, hrest⟩
    obtain ⟨index, rfl, hget⟩ := step?_array.1 hstep
    refine ⟨index, element, hget, rest, ?_, hrest⟩
    rw [hname hget]
    exact hpointer
  · rintro ⟨index, element, hget, rest, hpointer, hrest⟩
    rw [hname hget] at hpointer
    exact ⟨toString index, rest, element, hpointer, step?_array.2 ⟨index, rfl, hget⟩, hrest⟩

theorem reaches_property (name : String) (nameSpan : Span) {value : Node}
    (hvalue : value.isProperty = false) (span : Span) {path : String} {entry : Entry} :
    (property [string name nameSpan, value] span).Reaches path entry ↔
      entry = ⟨stepInto path name, name, nameSpan, value, span⟩ ∨
        value.Reaches (stepInto path name) entry := by
  have hname := name?_eq_none_of_isProperty hvalue
  constructor
  · rintro ⟨steps, hpointer, hwalk⟩
    cases steps with
    | nil => exact .inl (Entry.eq_of_property hpointer (Option.some.inj hwalk).symm)
    | cons step rest =>
      rw [walk?_property_cons name nameSpan hvalue] at hwalk
      refine .inr ⟨step :: rest, ?_, hwalk⟩
      rw [hname]
      exact hpointer
  · rintro (rfl | hreaches)
    · exact ⟨[], rfl, rfl⟩
    · obtain ⟨step, rest, next, hpointer, hstep, hrest⟩ :=
        (reaches_iff_of_isProperty hvalue).1 hreaches
      refine ⟨step :: rest, hpointer, ?_⟩
      rw [walk?_property_cons name nameSpan hvalue, walk?_cons, hstep]
      exact hrest

/-- The properties that are entered in the table are those that walks lead to, under the pointers
that the steps of the walks make. -/
theorem mem_entries_iff {node : Node} (horderly : node.Orderly) {path : String} {entry : Entry} :
    entry ∈ node.entries path ↔ node.Reaches path entry := by
  induction node using children_induction generalizing path with
  | hstep node ih =>
    obtain ⟨hself, hchildren⟩ := orderly_iff.1 horderly
    have hbelow : ∀ child ∈ node.children, ∀ path,
        entry ∈ child.entries path ↔ child.Reaches path entry :=
      fun child hchild _ ↦ ih child hchild (hchildren child hchild)
    cases node with
    | object members span =>
      rw [mem_entries_object, reaches_object hself]
      exact exists_congr fun member ↦ and_congr_right fun hmember ↦ hbelow member hmember path
    | array elements span =>
      rw [mem_entries_array, reaches_array hself]
      refine exists_congr fun index ↦ exists_congr fun element ↦ and_congr_right fun hget ↦ ?_
      exact hbelow element (List.mem_of_getElem? hget) _
    | property parts span =>
      obtain ⟨name, nameSpan, value, span', hnode, hvalue⟩ := hself.shape rfl
      obtain ⟨rfl, rfl⟩ := Node.property.inj hnode
      rw [entries_property_of_isProperty _ _ _ _ hvalue, List.mem_cons,
        reaches_property name nameSpan hvalue]
      exact or_congr_right (hbelow value (by simp [children]) _)
    | string | number | boolean | null =>
      rw [reaches_iff_of_isProperty rfl]
      constructor
      · intro hentry
        cases hentry
      · rintro ⟨step, rest, next, -, hstep, -⟩
        cases hstep

/-! ## Pointers are distinct -/

theorem Orderly.content {node : Node} (horderly : node.Orderly) : node.content.Orderly := by
  unfold Node.content
  split
  · exact (orderly_iff.1 horderly).2 _ (by simp [children])
  · exact horderly

/-- A step that leads somewhere has no slash in it, and it leads to an orderly node. -/
theorem Orderly.of_step? {node : Node} (horderly : node.Orderly) {step : String} {next : Node}
    (hstep : node.step? step = some next) : '/' ∉ step.toList ∧ next.Orderly := by
  obtain ⟨hself, hchildren⟩ := orderly_iff.1 horderly.content
  have hvalue := isProperty_content (orderly_iff.1 horderly).1.shape
  rw [← step?_content (orderly_iff.1 horderly).1.shape] at hstep
  generalize node.content = value at hself hchildren hvalue hstep
  cases value with
  | object members span =>
    obtain ⟨hmember, hname⟩ := (step?_object hself.nodup).1 hstep
    exact ⟨hself.slashFree step (List.mem_filterMap.2 ⟨next, hmember, hname⟩),
      hchildren next hmember⟩
  | array elements span =>
    obtain ⟨index, rfl, hget⟩ := step?_array.1 hstep
    exact ⟨not_mem_toString index, hchildren next (List.mem_of_getElem? hget)⟩
  | property parts span => cases hvalue
  | string | number | boolean | null => cases hstep

theorem slashFree_of_walk? {node : Node} (horderly : node.Orderly) {steps : List String}
    {found : Node} (hwalk : node.walk? steps = some found) :
    ∀ step ∈ steps, '/' ∉ step.toList := by
  induction steps generalizing node with
  | nil => simp
  | cons step steps ih =>
    rw [walk?_cons, Option.bind_eq_some_iff] at hwalk
    obtain ⟨next, hstep, hrest⟩ := hwalk
    obtain ⟨hslash, hnext⟩ := horderly.of_step? hstep
    exact List.forall_mem_cons.2 ⟨hslash, ih hnext hrest⟩

theorem through_of_mem_member {member : Node} (horderly : member.Orderly) {name : String}
    (hname : member.name? = some name) (hslash : '/' ∉ name.toList) {path : String} {entry : Entry}
    (hentry : entry ∈ member.entries path) : entry.Through path name := by
  obtain ⟨rest, hpointer, hwalk⟩ := (mem_entries_iff horderly).1 hentry
  rw [hname] at hpointer
  exact ⟨rest, hpointer, List.forall_mem_cons.2 ⟨hslash, slashFree_of_walk? horderly hwalk⟩⟩

theorem through_of_mem_element {element : Node} (horderly : element.Orderly)
    (hproperty : element.isProperty = false) {path : String} {index : Nat} {entry : Entry}
    (hentry : entry ∈ element.entries (stepInto path (toString index))) :
    entry.Through path (toString index) := by
  obtain ⟨rest, hpointer, hwalk⟩ := (mem_entries_iff horderly).1 hentry
  rw [name?_eq_none_of_isProperty hproperty] at hpointer
  refine ⟨rest, hpointer, List.forall_mem_cons.2 ⟨not_mem_toString index, ?_⟩⟩
  exact slashFree_of_walk? horderly hwalk

/-- No two properties have the same pointer. -/
theorem pairwise_pointer {node : Node} (horderly : node.Orderly) (path : String) :
    (node.entries path).Pairwise fun first second ↦ first.pointer ≠ second.pointer := by
  induction node using children_induction generalizing path with
  | hstep node ih =>
    obtain ⟨hself, hchildren⟩ := orderly_iff.1 horderly
    cases node with
    | object members span =>
      have hthrough : ∀ member ∈ members, ∀ entry ∈ member.entries path,
          ∃ name, member.name? = some name ∧ entry.Through path name := by
        intro member hmember entry hentry
        obtain ⟨name, hname⟩ := (hself.fits member hmember).exists_name
        have hslash := hself.slashFree name (List.mem_filterMap.2 ⟨member, hmember, hname⟩)
        exact ⟨name, hname, through_of_mem_member (hchildren member hmember) hname hslash hentry⟩
      rw [entries_object, List.pairwise_flatMap]
      refine ⟨fun member hmember ↦ ih member hmember (hchildren member hmember) path, ?_⟩
      refine (pairwise_apart hself.nodup).imp_of_mem ?_
      intro first second hfirst hsecond hapart entry hentry other hother
      obtain ⟨name, hname, hpast⟩ := hthrough first hfirst entry hentry
      obtain ⟨name', hname', hpast'⟩ := hthrough second hsecond other hother
      exact hpast.pointer_ne hpast' (hapart name hname name' hname')
    | array elements span =>
      rw [entries_array, List.pairwise_flatMap]
      constructor
      · rintro ⟨element, index⟩ hmem
        have helement := List.mem_of_getElem? (List.mem_zipIdx_iff_getElem?.1 hmem)
        exact ih element helement (hchildren element helement) _
      · refine (List.pairwise_map.1 (List.nodup_zipIdx_map_snd elements)).imp_of_mem ?_
        rintro ⟨first, index⟩ ⟨second, index'⟩ hfirst hsecond hne entry hentry other hother
        have hfirst := List.mem_of_getElem? (List.mem_zipIdx_iff_getElem?.1 hfirst)
        have hsecond := List.mem_of_getElem? (List.mem_zipIdx_iff_getElem?.1 hsecond)
        have hpast :=
          through_of_mem_element (hchildren first hfirst) (hself.fits first hfirst) hentry
        have hpast' :=
          through_of_mem_element (hchildren second hsecond) (hself.fits second hsecond) hother
        exact hpast.pointer_ne hpast' fun hsame ↦ hne (toString_injective hsame)
    | property parts span =>
      obtain ⟨name, nameSpan, value, span', hnode, hvalue⟩ := hself.shape rfl
      obtain ⟨rfl, rfl⟩ := Node.property.inj hnode
      have hmem : value ∈ children (property [string name nameSpan, value] span) := by
        simp [children]
      rw [entries_property_of_isProperty _ _ _ _ hvalue, List.pairwise_cons]
      refine ⟨fun entry hentry hpointer ↦ ?_, ih value hmem (hchildren value hmem) _⟩
      have hreaches := (mem_entries_iff (hchildren value hmem)).1 hentry
      obtain ⟨step, rest, next, hsteps, -⟩ := (reaches_iff_of_isProperty hvalue).1 hreaches
      exact descend_ne _ (List.cons_ne_nil step rest) (hsteps.symm.trans hpointer.symm)
    | string | number | boolean | null => exact .nil

theorem nodup_pointer {node : Node} (horderly : node.Orderly) (path : String) :
    ((node.entries path).map Entry.symbol |>.map Symbol.pointer).Nodup := by
  rw [List.map_map]
  exact List.pairwise_map.2 (pairwise_pointer horderly path)

/-- The table of an orderly document holds the symbol of each property, in text order. -/
theorem symbols_ofRoot {root : Node} (horderly : root.Orderly) :
    (SymbolTable.ofRoot (some root)).symbols = (root.entries "").map Entry.symbol := by
  rw [SymbolTable.ofRoot, declared_eq_map_entries]
  exact SymbolTable.symbols_ofList (nodup_pointer horderly "")

end Node

/-- Looking up a pointer in the table of a document finds the property that a walk along the steps
of the pointer leads to. A walk ends at a property exactly if its last step goes into an object, for
neither the root nor an element of an array is a property. -/
theorem SymbolTable.get?_iff_walk {root : Node} (hwell : root.WellFormed)
    (hdistinct : root.DistinctNames) (hslash : root.SlashFree) (pointer : String)
    (symbol : Symbol) :
    (ofRoot (some root)).get? pointer = some symbol ↔
      ∃ steps name nameSpan value span, steps ≠ [] ∧
        pointer = "/" ++ "/".intercalate steps ∧
        root.walk? steps = some (.property [.string name nameSpan, value] span) ∧
        symbol.pointer = pointer ∧ symbol.span = span ∧ symbol.valueSpan = value.span ∧
        ∀ reference, symbol.refersTo = some reference ↔
          name = "$ref" ∧ ∃ literal, value = .string reference literal := by
  have horderly := hwell.orderly hdistinct hslash
  have hsymbols := Node.symbols_ofRoot horderly
  have hnodup : ((ofRoot (some root)).symbols.map (·.pointer)).Nodup := by
    rw [hsymbols]
    exact Node.nodup_pointer horderly ""
  have hname : root.name?.toList = [] := by
    rw [Node.name?_eq_none_of_isProperty hwell.isProperty_eq]
    rfl
  rw [get?_eq_some_iff hnodup, hsymbols, List.mem_map]
  constructor
  · rintro ⟨⟨entry, hentry, rfl⟩, rfl⟩
    obtain ⟨steps, hpointer, hwalk⟩ := (Node.mem_entries_iff horderly).1 hentry
    obtain ⟨step, rest, next, rfl, -⟩ :=
      (Node.walk?_eq_some_iff hwell.isProperty_eq rfl).1 hwalk
    rw [hname, List.nil_append, descend_eq_append "" (List.cons_ne_nil step rest),
      String.empty_append] at hpointer
    exact ⟨step :: rest, entry.name, entry.nameSpan, entry.value, entry.span,
      List.cons_ne_nil step rest, hpointer, hwalk, rfl, rfl, rfl, fun _ ↦ Entry.refersTo_symbol⟩
  · rintro ⟨steps, name, nameSpan, value, span, hsteps, rfl, hwalk, hpointer, hspan, hvalue,
      hrefers⟩
    let entry : Entry := ⟨symbol.pointer, name, nameSpan, value, span⟩
    have hentry : entry ∈ root.entries "" := by
      refine (Node.mem_entries_iff horderly).2 ⟨steps, ?_, hwalk⟩
      rw [hname, List.nil_append, descend_eq_append "" hsteps, String.empty_append]
      exact hpointer
    have hrefersTo : entry.symbol.refersTo = symbol.refersTo :=
      Option.ext fun reference ↦ Entry.refersTo_symbol.trans (hrefers reference).symm
    refine ⟨⟨entry, hentry, ?_⟩, hpointer⟩
    obtain ⟨pointer, symbolSpan, valueSpan, refersTo⟩ := symbol
    rw [Entry.symbol, Symbol.mk.injEq]
    exact ⟨rfl, hspan.symm, hvalue.symm, hrefersTo⟩

/-- A document with an empty name, a name that looks like a number, and arrays inside arrays. -/
def nestedRoot : Node :=
  .object
    [.property [.string "" ⟨1, 2⟩,
      .array
        [.object [.property [.string "0" ⟨6, 3⟩, .number "1" ⟨10, 1⟩] ⟨6, 5⟩] ⟨5, 7⟩,
          .array
            [.object [.property [.string "$ref" ⟨15, 6⟩, .string "y" ⟨22, 3⟩] ⟨15, 10⟩] ⟨14, 12⟩]
            ⟨13, 14⟩]
        ⟨4, 24⟩] ⟨1, 27⟩] ⟨0, 29⟩

theorem wellFormed_nestedRoot : nestedRoot.WellFormed := by
  refine ⟨rfl, ?_⟩
  simp [nestedRoot, Node.preorder, Node.preorderAll, Node.Fits, Node.IsMember, Node.isProperty]

theorem distinctNames_nestedRoot : nestedRoot.DistinctNames := by
  simp [nestedRoot, Node.DistinctNames, Node.preorder, Node.preorderAll, Node.names, Node.name?]

theorem slashFree_nestedRoot : nestedRoot.SlashFree := by
  simp [nestedRoot, Node.SlashFree, Node.preorder, Node.preorderAll, Node.names, Node.name?]

theorem SymbolTable.get?_iff_walk_nested :
    (ofRoot (some nestedRoot)).get? "//1/0/$ref" =
      some ⟨"//1/0/$ref", ⟨15, 10⟩, ⟨22, 3⟩, some "y"⟩ := by
  have hlookup := get?_iff_walk wellFormed_nestedRoot distinctNames_nestedRoot
    slashFree_nestedRoot "//1/0/$ref" ⟨"//1/0/$ref", ⟨15, 10⟩, ⟨22, 3⟩, some "y"⟩
  refine hlookup.2 ⟨["", "1", "0", "$ref"], "$ref", ⟨15, 6⟩, .string "y" ⟨22, 3⟩, ⟨15, 10⟩,
    by simp, by decide +kernel, ?_, rfl, rfl, rfl, by simp⟩
  have hone : decimal? "1" = some 1 := by decide +kernel
  have hzero : decimal? "0" = some 0 := by decide +kernel
  simp [nestedRoot, Node.walk?, Node.step?, Node.content, Node.name?, hone, hzero]

end LinkedJson
