import LinkedJson.Server.Encoding
import LinkedJson.Text.Blank
import LinkedJson.Text.Parts

/-!
# Transport

Messages travel as texts, each behind a header that gives its length in bytes. A text that is no
message is answered with an error of its own.
-/

namespace LinkedJson.Server

def Message.ofValue? (value : Value) : Option Message :=
  (value.need? "method" Value.asString?).map fun method ↦
    { method, id := value.field? "id", params := value.field? "params" }

/-- A value as it is sent, marked with the version of its protocol. -/
def envelope (fields : List (String × Value)) : Value :=
  .object (("jsonrpc", .string "2.0") :: fields)

/-- What is sent for an answer: the notices, then the reply. -/
def Answer.envelopes (answer : Answer) : List Value :=
  answer.sent.map (envelope ∘ noticeFields) ++ (answer.reply.map (envelope ∘ replyFields)).toList

/-- The answer to a text that is no message. -/
def unreadable : Value :=
  envelope
    [("error", .object [("code", .int (-32700)), ("message", .string "Parse error")]),
      ("id", .null)]

/-- Handles a text from an editor, and returns the values to send. -/
def Session.receive (reader : Reader) (session : Session) (text : String) :
    Session × List Value :=
  match (Value.parse? text).bind Message.ofValue? with
  | none => (session, [unreadable])
  | some message =>
    match session.handle reader message with
    | some (session, answer) => (session, answer.envelopes)
    | none => (session, [])

def frame (value : Value) : String :=
  let body := value.render
  "Content-Length: " ++ toString body.utf8ByteSize ++ "\r\n\r\n" ++ body

/-- The length that a line of a header gives. -/
def headerLength? (line : String) : Option Nat :=
  let name := line.toList.takeWhile (· != ':')
  let value := (line.toList.dropWhile (· != ':')).drop 1
  if (name.map Char.toLower) = "content-length".toList then
    (String.ofList (Text.trim Text.isBlank value)).toNat?
  else
    none

end LinkedJson.Server
