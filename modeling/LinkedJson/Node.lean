import LinkedJson.Span

/-!
# Value nodes

A document's value is a tree of nodes, each with the span of text that it was read from. A property
is a node of its own, whose parts are its name and its value.
-/

namespace LinkedJson

/-- A value, or a property of an object, together with its span. -/
inductive Node where
  | object (members : List Node) (span : Span)
  | array (elements : List Node) (span : Span)
  | property (parts : List Node) (span : Span)
  | string (value : String) (span : Span)
  | number (source : String) (span : Span)
  | boolean (value : Bool) (span : Span)
  | null (span : Span)
deriving Repr

namespace Node

def span : Node → Span
  | object _ span => span
  | array _ span => span
  | property _ span => span
  | string _ span => span
  | number _ span => span
  | boolean _ span => span
  | null span => span

def children : Node → List Node
  | object members _ => members
  | array elements _ => elements
  | property parts _ => parts
  | _ => []

def asString? : Node → Option String
  | string value _ => some value
  | _ => none

/-- Objects and arrays are composite; a property is not. -/
def isComposite : Node → Bool
  | object _ _ => true
  | array _ _ => true
  | _ => false

mutual

/-- A node and all nodes below it, each before its children. -/
def preorder : Node → List Node
  | object members span => object members span :: preorderAll members
  | array elements span => array elements span :: preorderAll elements
  | property parts span => property parts span :: preorderAll parts
  | string value span => [string value span]
  | number source span => [number source span]
  | boolean value span => [boolean value span]
  | null span => [null span]

def preorderAll : List Node → List Node
  | [] => []
  | node :: nodes => preorder node ++ preorderAll nodes

end

end Node

end LinkedJson
