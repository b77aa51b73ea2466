import LinkedJson.Node
import LinkedJson.Symbol.Table

/-!
# Symbols of a document

Every property of a document declares a symbol. Its pointer is the pointer of the container that
holds its object, followed by a slash and its name as it is; the elements of an array add their
index. A property named `$ref` whose value is a string is a reference.
-/

namespace LinkedJson

/-- The pointer one step below another. -/
def stepInto (path step : String) : String :=
  path ++ "/" ++ step

def propertySymbol (path name : String) (span : Span) (value : Node) : Symbol :=
  { pointer := stepInto path name
    span
    valueSpan := value.span
    refersTo := if name = "$ref" then value.asString? else none }

namespace Node

mutual

/-- The symbols that a node declares below a pointer, each before those of its value. -/
def declared (path : String) : Node → List Symbol
  | object members _ => declaredByAll path members
  | array elements _ => declaredByElements path 0 elements
  | property [string name _, value] span =>
    propertySymbol path name span value ::
      if value.isComposite then declared (stepInto path name) value else []
  | _ => []

def declaredByAll (path : String) : List Node → List Symbol
  | [] => []
  | member :: members => declared path member ++ declaredByAll path members

/-- The symbols that the elements of an array declare, from an index on. -/
def declaredByElements (path : String) (index : Nat) : List Node → List Symbol
  | [] => []
  | element :: elements =>
    declared (stepInto path (toString index)) element ++
      declaredByElements path (index + 1) elements

end

end Node

def SymbolTable.ofRoot : Option Node → SymbolTable
  | some root => ofList (root.declared "")
  | none => empty

end LinkedJson
