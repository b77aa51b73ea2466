import LinkedJson.Document

/-!
# Workspaces

A workspace holds the documents that are open in an editor, one for each address.
-/

namespace LinkedJson

/-- The open documents, of which no two have the same address. -/
structure Workspace where
  documents : List Document
  nodup : (documents.map Document.address).Nodup

namespace Workspace

def empty : Workspace := ⟨[], List.nodup_nil⟩

def get? (workspace : Workspace) (address : Address) : Option Document :=
  workspace.documents.find? (·.address = address)

def contains (workspace : Workspace) (address : Address) : Bool :=
  (workspace.get? address).isSome

def size (workspace : Workspace) : Nat :=
  workspace.documents.length

def isEmpty (workspace : Workspace) : Bool :=
  workspace.documents.isEmpty

/-- The workspace without the document at an address. -/
def close (workspace : Workspace) (address : Address) : Workspace :=
  ⟨workspace.documents.filter (·.address ≠ address),
    (List.filter_sublist.map Document.address).nodup workspace.nodup⟩

theorem not_mem_close (workspace : Workspace) (address : Address) :
    address ∉ (workspace.close address).documents.map Document.address := by
  simp [close]

/-- The workspace with a document in the place of the one at its address. -/
def put (workspace : Workspace) (document : Document) : Workspace :=
  ⟨document :: (workspace.close document.address).documents,
    List.nodup_cons.2 ⟨workspace.not_mem_close document.address,
      (workspace.close document.address).nodup⟩⟩

def openDocument (workspace : Workspace) (address : Address) (version : Int32) (text : String) :
    Workspace :=
  workspace.put (.ofText address version text)

/-- The workspace with each document changed, under the address that it has. -/
def map (workspace : Workspace) (change : Document → Document)
    (hchange : ∀ document, (change document).address = document.address) : Workspace :=
  ⟨workspace.documents.map change, by
    rw [List.map_map, (funext hchange : Document.address ∘ change = Document.address)]
    exact workspace.nodup⟩

/-- Changes the document at an address, if it is open. -/
def modify (workspace : Workspace) (address : Address) (change : Document → Document)
    (hchange : ∀ document, (change document).address = document.address) : Workspace :=
  workspace.map (fun document ↦ if document.address = address then change document else document)
    fun document ↦ by
      split
      · exact hchange document
      · rfl

/-- Applies edits to the document at an address, if it is open. -/
def applyEdits (workspace : Workspace) (address : Address) (version : Int32)
    (edits : List Edit) : Workspace :=
  workspace.modify address (·.applyEdits version edits) (·.address_applyEdits version edits)

/-- Replaces the symbols of the document at an address, if it is open. -/
def setSymbols (workspace : Workspace) (address : Address) (symbols : SymbolTable) : Workspace :=
  workspace.modify address ({ · with symbols }) fun _ ↦ rfl

theorem address_of_get? {workspace : Workspace} {address : Address} {document : Document}
    (hget : workspace.get? address = some document) : document.address = address := by
  simpa using List.find?_some hget

theorem get?_close_self (workspace : Workspace) (address : Address) :
    (workspace.close address).get? address = none := by
  simp [get?, close, List.find?_eq_none]

theorem get?_close_of_ne (workspace : Workspace) {address other : Address}
    (hne : other ≠ address) :
    (workspace.close address).get? other = workspace.get? other := by
  simp only [get?, close, List.find?_filter]
  refine congrArg (workspace.documents.find? ·) (funext fun document ↦ ?_)
  by_cases hother : document.address = other
  · simp [hother, hne]
  · simp [hother]

theorem get?_put_self (workspace : Workspace) (document : Document) :
    (workspace.put document).get? document.address = some document := by
  simp [get?, put]

theorem get?_put_of_ne (workspace : Workspace) (document : Document) {other : Address}
    (hne : other ≠ document.address) :
    (workspace.put document).get? other = workspace.get? other := by
  rw [← workspace.get?_close_of_ne hne]
  exact List.find?_cons_of_neg (by simpa using hne.symm)

theorem get?_map (workspace : Workspace) (address : Address) {change : Document → Document}
    (hchange : ∀ document, (change document).address = document.address) :
    (workspace.map change hchange).get? address = (workspace.get? address).map change := by
  have hsame : (fun document : Document ↦ decide (document.address = address)) ∘ change =
      fun document ↦ decide (document.address = address) :=
    funext fun document ↦ congrArg (fun place ↦ decide (place = address)) (hchange document)
  rw [get?, map, List.find?_map, hsame]
  rfl

/-- A change reaches the document at its address and no other. -/
theorem get?_modify (workspace : Workspace) (address other : Address)
    {change : Document → Document}
    (hchange : ∀ document, (change document).address = document.address) :
    (workspace.modify address change hchange).get? other =
      if other = address then (workspace.get? other).map change else workspace.get? other := by
  rw [modify, get?_map]
  cases hget : workspace.get? other with
  | none => simp
  | some document =>
    rw [Option.map_some, Option.map_some, address_of_get? hget]
    split <;> rfl

end Workspace

end LinkedJson
