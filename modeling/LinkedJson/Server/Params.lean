import LinkedJson.Server.Shape.Request
import LinkedJson.Server.Task

/-!
# Message parameters

The parameters of the messages that are served are read from their values. A field that is missing,
of another type or out of range makes the parameters unreadable.
-/

namespace LinkedJson.Server

namespace Value

/-- A record by name: an array lists the values of its fields in order. -/
def named? (names : List String) : Value → Option Value
  | object fields => some (object fields)
  | array elements =>
    if elements.length = names.length then some (object (names.zip elements)) else none
  | _ => none

/-- A field that has to be there. -/
def need? {α : Type} (value : Value) (name : String) (read : Value → Option α) : Option α :=
  (value.field? name).bind read

/-- A field that may be absent or null. -/
def allow? {α : Type} (value : Value) (name : String) (read : Value → Option α) :
    Option (Option α) :=
  match value.field? name with
  | none => some none
  | some null => some none
  | some field => (read field).map some

end Value

def readPosition (value : Value) : Option Position := do
  let record ← value.named? ["line", "character"]
  return ⟨← record.need? "line" Value.asUInt32?, ← record.need? "character" Value.asUInt32?⟩

def readRange (value : Value) : Option Range := do
  let record ← value.named? ["start", "end"]
  return ⟨← record.need? "start" readPosition, ← record.need? "end" readPosition⟩

def readEdit (value : Value) : Option Edit := do
  let record ← value.named? ["range", "rangeLength", "text"]
  let range ← record.allow? "range" readRange
  -- The length of the range may be given too, but counts for nothing.
  let _ ← record.allow? "rangeLength" Value.asUInt32?
  return ⟨range, ← record.need? "text" Value.asString?⟩

def readIdentifier (value : Value) : Option Address := do
  (← value.named? ["uri"]).need? "uri" Value.asAddress?

def readOpened (value : Value) : Option Event := do
  let item ← (← value.named? ["textDocument"]).need? "textDocument"
    (·.named? ["uri", "languageId", "version", "text"])
  let address ← item.need? "uri" Value.asAddress?
  let _ ← item.need? "languageId" Value.asString?
  let version ← item.need? "version" Value.asInt32?
  return .opened address version (← item.need? "text" Value.asString?)

def readChanged (value : Value) : Option Event := do
  let record ← value.named? ["textDocument", "contentChanges"]
  let item ← record.need? "textDocument" (·.named? ["uri", "version"])
  let address ← item.need? "uri" Value.asAddress?
  let version ← item.need? "version" Value.asInt32?
  let changes ← record.need? "contentChanges" Value.asArray?
  return .changed address version (← changes.mapM readEdit)

def readClosed (value : Value) : Option Event := do
  let record ← value.named? ["textDocument"]
  return .closed (← record.need? "textDocument" readIdentifier)

structure Cursor where
  address : Address
  position : Position

/-- Reads a place in a document from a request that may be answered in parts. -/
def readCursor (value : Value) : Option Cursor :=
  if Shape.aboutPlaceInParts [] value then do
    return ⟨← value.need? "textDocument" readIdentifier, ← value.need? "position" readPosition⟩
  else
    none

end LinkedJson.Server
