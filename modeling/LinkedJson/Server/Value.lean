import LinkedJson.Reading

/-!
# Message values

The messages of an editing session are JSON values. Here only whole numbers matter; any other number
is kept as its text. A message is read with the same grammar as the documents, strictly: one value
and no error.
-/

namespace LinkedJson.Server

inductive Value where
  | null
  | bool (value : Bool)
  | int (value : Int)
  | decimal (source : String)
  | string (value : String)
  | array (elements : List Value)
  | object (fields : List (String × Value))
deriving Repr, Inhabited

namespace Value

/-- The value of a field of an object; of several with one name the last counts. -/
def field? (name : String) : Value → Option Value
  | object fields => (fields.reverse.find? (·.1 == name)).map (·.2)
  | _ => none

/-! ## Writing -/

/-- The lower-case hexadecimal digits of a control character. -/
def controlEscape (c : Char) : List Char :=
  let digit := fun value ↦ (Nat.toDigits 16 value).headD '0'
  ['\\', 'u', '0', '0', digit (c.toNat / 16), digit (c.toNat % 16)]

def renderChar (c : Char) : List Char :=
  if c = '"' ∨ c = '\\' then ['\\', c]
  else if c = '\n' then ['\\', 'n']
  else if c = '\r' then ['\\', 'r']
  else if c = '\t' then ['\\', 't']
  else if c.toNat < 0x20 then controlEscape c
  else [c]

def renderString (text : String) : String :=
  String.ofList ('"' :: text.toList.flatMap renderChar ++ ['"'])

mutual

/-- The text of a value, without blanks. -/
def render : Value → String
  | null => "null"
  | bool true => "true"
  | bool false => "false"
  | int value => toString value
  | decimal source => source
  | string value => renderString value
  | array elements => "[" ++ ",".intercalate (renderElements elements) ++ "]"
  | object fields => "\x7b" ++ ",".intercalate (renderFields fields) ++ "\x7d"

def renderElements : List Value → List String
  | [] => []
  | value :: values => render value :: renderElements values

def renderFields : List (String × Value) → List String
  | [] => []
  | (name, value) :: fields => (renderString name ++ ":" ++ render value) :: renderFields fields

end

/-! ## Reading -/

def ofNumber (source : String) : Value :=
  match source.toInt? with
  | some value => int value
  | none => decimal source

mutual

/-- The value that a node stands for; a property alone stands for none. -/
def ofNode : Node → Value
  | .object members _ => object (fieldsOf members)
  | .array elements _ => array (elementsOf elements)
  | .property _ _ => null
  | .string value _ => string value
  | .number source _ => ofNumber source
  | .boolean value _ => bool value
  | .null _ => null

def elementsOf : List Node → List Value
  | [] => []
  | node :: nodes => ofNode node :: elementsOf nodes

def fieldsOf : List Node → List (String × Value)
  | [] => []
  | .property [.string name _, value] _ :: nodes => (name, ofNode value) :: fieldsOf nodes
  | _ :: nodes => fieldsOf nodes

end

/-- Reads a message. -/
def parse? (text : String) : Option Value :=
  match Recovery.reader (fun _ ↦ none) text with
  | some ⟨some root, []⟩ => some (ofNode root)
  | _ => none

end Value

end LinkedJson.Server
