import LinkedJson.Reference
import LinkedJson.Workspace

/-!
# Definitions

The definition of a reference is the property that it leads to. Asking for a definition inside the
value of a reference gives a link from the text between its quotes to that property. The link leads
to the start of the target document where the property is not known: the document is not open, the
reference has no pointer, or no property has it.
-/

namespace LinkedJson

/-- A link from a part of one document to a part of another. -/
structure Link where
  origin : Range
  document : Address
  target : Range
deriving DecidableEq, Repr

namespace Workspace

/-- The range of a target in its document. -/
def targetRange (workspace : Workspace) (target : Target) : Range :=
  match workspace.get? target.document, target.pointer with
  | some document, some pointer =>
    match document.symbols.get? pointer with
    | some symbol => document.range symbol.span
    | none => .zero
  | _, _ => .zero

/-- The range of the text inside the quotes of a literal. -/
def originRange (document : Document) (literal : Span) : Range :=
  let start := wordSum literal.offset 1
  ⟨document.position start, document.position (max start (literal.stop - 1))⟩

/-- The link at an offset of a document. -/
def definitionAt (workspace : Workspace) (document : Document) (offset : Nat) : Option Link :=
  match document.symbols.referenceAt offset with
  | none => none
  | some symbol =>
    (symbol.refersTo.bind (Target.resolve document.address)).map fun target ↦
      { origin := originRange document symbol.valueSpan
        document := target.document
        target := workspace.targetRange target }

def definition (workspace : Workspace) (address : Address) (position : Position) : Option Link :=
  (workspace.get? address).bind fun document ↦
    workspace.definitionAt document (document.offset position)

end Workspace

end LinkedJson
