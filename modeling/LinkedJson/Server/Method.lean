import LinkedJson.Server.Shape.Request

/-!
# Methods

A message names a method. Some methods are requests, which are answered, and some are notifications,
which are not. The server knows the methods of its protocol, also those that it does not serve:
these are refused like others as long as the session is not running.
-/

namespace LinkedJson.Server

/-- What a message asks for. -/
inductive Method where
  | setup
  | initialized
  | shutdown
  | exit
  | didOpen
  | didChange
  | didClose
  | definition
  | unservedRequest
  | unservedNotification
  | unknown
deriving DecidableEq, Repr

namespace Method

/-- The notifications that the server knows but does not act on. -/
def unservedNotifications : List String :=
  ["$/cancelRequest", "textDocument/willSave", "textDocument/didSave",
    "workspace/didChangeConfiguration", "workspace/didChangeWorkspaceFolders",
    "workspace/didChangeWatchedFiles", "workspace/didCreateFiles", "workspace/didRenameFiles",
    "workspace/didDeleteFiles"]

def ofName (name : String) : Method :=
  match name with
  | "initialize" => .setup
  | "initialized" => .initialized
  | "shutdown" => .shutdown
  | "exit" => .exit
  | "textDocument/didOpen" => .didOpen
  | "textDocument/didChange" => .didChange
  | "textDocument/didClose" => .didClose
  | "textDocument/definition" => .definition
  | name =>
    if (Shape.unserved.lookup name).isSome then .unservedRequest
    else if name ∈ unservedNotifications then .unservedNotification
    else .unknown

/-- Whether messages with a method go without an answer. -/
def isNotification : Method → Bool
  | initialized | didOpen | didChange | didClose | unservedNotification => true
  | _ => false

end Method

end LinkedJson.Server
