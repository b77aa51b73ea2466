import LinkedJson.Address.Resolve
import LinkedJson.Server.Value

/-!
# Shapes of values

A shape says which values are allowed at some place of a message. Most places hold a record, that
is, a few fields with names and shapes of their own. A record is given by an object, where other
fields count for nothing, or by an array that lists the values of its fields in order. Some records
are given by name only.
-/

namespace LinkedJson.Server

namespace Value

def asString? : Value → Option String
  | string value => some value
  | _ => none

def asArray? : Value → Option (List Value)
  | array elements => some elements
  | _ => none

def asUInt32? : Value → Option UInt32
  | int value =>
    if 0 ≤ value ∧ value < 4294967296 then some value.toNat.toUInt32 else none
  | _ => none

def asInt32? : Value → Option Int32
  | int value =>
    if -2147483648 ≤ value ∧ value < 2147483648 then some (Int32.ofInt value) else none
  | _ => none

def asAddress? (value : Value) : Option Address :=
  value.asString?.bind fun text ↦ (Address.parse text).toOption

end Value

/-- Which values are allowed at some place. -/
abbrev Shape := Value → Bool

/-- Whether a field of a record has to be there. -/
inductive Presence where
  /-- The field has to be there. -/
  | required
  /-- The field may be missing from an object. -/
  | optional
  /-- The field may be missing from an object, and from the end of an array. -/
  | defaulted
deriving DecidableEq, Repr

structure Field where
  name : String
  presence : Presence
  shape : Shape

namespace Shape

/-! ## Plain values -/

def any : Shape := fun _ ↦ true

def flag : Shape
  | .bool _ => true
  | _ => false

def text : Shape := fun value ↦ value.asString?.isSome

def uint32 : Shape := fun value ↦ value.asUInt32?.isSome

def int32 : Shape := fun value ↦ value.asInt32?.isSome

def number : Shape
  | .int _ => true
  | .decimal _ => true
  | _ => false

def address : Shape := fun value ↦ value.asAddress?.isSome

/-- One of some words, as a text or as the name of an object's only field, which is null then. -/
def word (choices : List String) : Shape
  | .string value => choices.contains value
  | .object [(name, .null)] => choices.contains name
  | _ => false

def nullable (shape : Shape) : Shape
  | .null => true
  | value => shape value

def either (first second : Shape) : Shape := fun value ↦ first value || second value

/-! ## Collections -/

def list (element : Shape) : Shape
  | .array elements => elements.all element
  | _ => false

def pair (element : Shape) : Shape
  | .array [first, second] => element first && element second
  | _ => false

/-- An object whose names and values are of some shapes. -/
def dictionary (name element : Shape) : Shape
  | .object fields => fields.all fun field ↦ name (.string field.1) && element field.2
  | _ => false

/-! ## Records -/

/-- Whether an object has the fields of a record. -/
def hasFields (fields : List Field) (value : Value) : Bool :=
  fields.all fun field ↦
    match value.field? field.name with
    | some found => field.shape found
    | none => field.presence != .required

/-- Whether an array lists the fields of a record. -/
def listsFields : List Field → List Value → Bool
  | [], elements => elements.isEmpty
  | field :: fields, [] => field.presence == .defaulted && listsFields fields []
  | field :: fields, element :: elements => field.shape element && listsFields fields elements

def record (fields : List Field) : Shape
  | .object found => hasFields fields (.object found)
  | .array elements => listsFields fields elements
  | _ => false

/-- A record that is given by name only. -/
def named (fields : List Field) : Shape
  | .object found => hasFields fields (.object found)
  | _ => false

/-- A record that is given by name only and whose other fields are of one shape. -/
def namedWith (fields : List Field) (other : Shape) : Shape
  | .object found =>
    hasFields fields (.object found) &&
      found.all fun field ↦ fields.any (·.name == field.1) || other field.2
  | _ => false

/-- A record of one of several kinds. The kind stands in a field of its own, or at the start of the
array. -/
def tagged (name : String) (kinds : List (String × Shape)) : Shape
  | .object found =>
    match (Value.object found).field? name with
    | some (.string kind) => (kinds.lookup kind).any (· (.object found))
    | _ => false
  | .array (.string kind :: elements) => (kinds.lookup kind).any (· (.array elements))
  | _ => false

end Shape

namespace Field

/-- A field that has to be there. -/
def need (name : String) (shape : Shape) : Field :=
  ⟨name, .required, shape⟩

/-- A field that may be missing or null. -/
def may (name : String) (shape : Shape) : Field :=
  ⟨name, .optional, shape.nullable⟩

/-- A field that may be missing or null, also at the end of an array. -/
def mayEnd (name : String) (shape : Shape) : Field :=
  ⟨name, .defaulted, shape.nullable⟩

/-- A field that may be missing but not null. -/
def maySkip (name : String) (shape : Shape) : Field :=
  ⟨name, .defaulted, shape⟩

def mayAll (shape : Shape) (names : List String) : List Field :=
  names.map (may · shape)

end Field

end LinkedJson.Server
