import LinkedJson.Server.Session

/-!
# Answers as values

What a session says is written as the values that its protocol prescribes.
-/

namespace LinkedJson.Server

def encodePosition (position : Position) : Value :=
  .object [("line", .int position.line.toNat), ("character", .int position.character.toNat)]

def encodeRange (range : Range) : Value :=
  .object [("start", encodePosition range.start), ("end", encodePosition range.stop)]

def encodeDiagnostic (diagnostic : Diagnostic) : Value :=
  .object
    [("range", encodeRange diagnostic.range),
      ("severity", .int Diagnostic.severity),
      ("code", .int diagnostic.code.toInt),
      ("source", .string Diagnostic.source),
      ("message", .string diagnostic.message)]

def encodeLink (link : Link) : Value :=
  .object
    [("originSelectionRange", encodeRange link.origin),
      ("targetUri", .string link.document.render),
      ("targetRange", encodeRange link.target),
      ("targetSelectionRange", encodeRange link.target)]

/-- What the server can do, as a value. -/
def encodedCapabilities : Value :=
  .object
    [("capabilities", .object
        [("textDocumentSync", .object [("openClose", .bool true), ("change", .int 2)]),
          ("definitionProvider", .bool true)]),
      ("serverInfo", .object
        [("name", .string serverName), ("version", .string serverVersion)])]

def encodeResult : Result → Value
  | .capabilities => encodedCapabilities
  | .nothing => .null
  | .link (some link) => .array [encodeLink link]
  | .link none => .null

def encodeFailure (failure : Failure) : Value :=
  .object (("code", .int failure.code) ::
    (failure.message?.map fun text ↦ ("message", Value.string text)).toList)

def replyFields : Value × Except Failure Result → List (String × Value)
  | (id, .ok result) => [("id", id), ("result", encodeResult result)]
  | (id, .error failure) => [("id", id), ("error", encodeFailure failure)]

def LogLevel.number : LogLevel → Int
  | info => 3
  | log => 4

/-- The fields of a notice: its method and its parameters. -/
def noticeFields : Notice → List (String × Value)
  | .log level text =>
    [("method", .string "window/logMessage"),
      ("params", .object [("type", .int level.number), ("message", .string text)])]
  | .diagnostics address list version =>
    [("method", .string "textDocument/publishDiagnostics"),
      ("params", .object
        ([("uri", .string address.render),
          ("diagnostics", .array (list.map encodeDiagnostic))] ++
          (version.map fun version ↦ ("version", Value.int version.toInt)).toList))]

end LinkedJson.Server
