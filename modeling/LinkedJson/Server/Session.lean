import LinkedJson.DataDirectory
import LinkedJson.Definition
import LinkedJson.Server.Method
import LinkedJson.Server.Params
import LinkedJson.Server.Shape.Capability
import LinkedJson.Server.Task

/-!
# Sessions

A session is a conversation with one editor. It has to be initialised before anything else is
served, serves nothing once it has been shut down, and is over after `exit`. Requests are answered
with a result or a failure; notifications are not answered, and what cannot be served of them is
dropped.
-/

namespace LinkedJson.Server

inductive Stage where
  | starting
  | running
  | stopped
  | exited
deriving DecidableEq, Repr

/-- A conversation with an editor: how far it has come and the documents that are open. -/
structure Session where
  stage : Stage
  workspace : Workspace

/-- A message from an editor; it is a request if it has an identifier. -/
structure Message where
  method : String
  id : Option Value
  params : Option Value

/-- Why a request is not served. -/
inductive Failure where
  | notInitialized
  | invalidRequest
  | methodNotFound
  | invalidParams
deriving DecidableEq, Repr

namespace Failure

def code : Failure → Int
  | notInitialized => -32002
  | invalidRequest => -32600
  | methodNotFound => -32601
  | invalidParams => -32602

/-- The sentence for a failure; unreadable parameters have none of their own. -/
def message? : Failure → Option String
  | notInitialized => some "Server not initialized"
  | invalidRequest => some "Invalid request"
  | methodNotFound => some "Method not found"
  | invalidParams => none

end Failure

inductive Result where
  | capabilities
  | nothing
  | link (found : Option Link)

/-- The answer to a message and the notices sent before it. -/
structure Answer where
  reply : Option (Value × Except Failure Result)
  sent : List Notice

namespace Answer

def silent : Answer := ⟨none, []⟩

/-- A request that is not served; a notification is dropped. -/
def refuse (message : Message) (failure : Failure) : Answer :=
  ⟨message.id.map (·, .error failure), []⟩

def result (message : Message) (result : Result) (sent : List Notice) : Answer :=
  ⟨message.id.map (·, .ok result), sent⟩

end Answer

namespace Session

def start : Session := ⟨.starting, .empty⟩

/-- Why a session does not serve methods at its stage. -/
def refusal? (session : Session) : Option Failure :=
  match session.stage with
  | .starting => some .notInitialized
  | .running => none
  | .stopped | .exited => some .invalidRequest

def note (text : String) : List Notice :=
  [.log .info text]

/-- Starts a session, unless it has been started before. -/
def handleInitialize (session : Session) (message : Message) : Session × Answer :=
  if session.stage ≠ .starting then
    (session, .refuse message .invalidRequest)
  else if message.id.isNone then
    (session, .silent)
  else if message.params.any Shape.setup then
    ({ session with stage := .running },
      .result message .capabilities (note "LSP server initializing"))
  else
    (session, .refuse message .invalidParams)

/-- Stops a session that is running. -/
def handleShutdown (session : Session) (message : Message) : Session × Answer :=
  match session.refusal? with
  | some failure => (session, .refuse message failure)
  | none =>
    -- The session stops even if the message turns out not to be a proper request.
    let stopped := { session with stage := .stopped }
    if message.id.isNone then (stopped, .silent)
    else if message.params.isSome then (stopped, .refuse message .invalidParams)
    else (stopped, .result message .nothing (note "LSP server shutting down"))

def eventOf (method : Method) (params : Value) : Option Event :=
  match method with
  | .didOpen => readOpened params
  | .didChange => readChanged params
  | .didClose => readClosed params
  | _ => none

/-- Acts on a notification of a running session. -/
def notified (reader : Reader) (session : Session) (method : Method) (params : Value) :
    Session × Answer :=
  match eventOf method params with
  | some event =>
    let (workspace, sent) := event.handle reader session.workspace
    ({ session with workspace }, ⟨none, sent⟩)
  | none =>
    if method = .initialized ∧ Shape.record [] params then
      (session, ⟨none, note "LSP server initialized"⟩)
    else
      (session, .silent)

/-- Answers a request of a running session. -/
def requested (session : Session) (method : Method) (message : Message) : Answer :=
  match method with
  | .definition =>
    match message.params.bind readCursor with
    | some cursor =>
      .result message (.link (session.workspace.definition cursor.address cursor.position)) []
    | none => .refuse message .invalidParams
  | _ =>
    -- Parameters of the wrong shape are complained about before the method is.
    let shape := (Shape.unserved.lookup message.method).getD Shape.any
    if message.params.any shape then .refuse message .methodNotFound
    else .refuse message .invalidParams

/-- Handles a method that is served only while the session is running. A notification must not ask
for an answer, and a request that does not is dropped. -/
def handleRunning (reader : Reader) (session : Session) (method : Method) (message : Message) :
    Session × Answer :=
  match session.refusal? with
  | some failure => (session, .refuse message failure)
  | none =>
    match method.isNotification, message.id, message.params with
    | true, some _, _ => (session, .refuse message .invalidRequest)
    | true, none, some params => session.notified reader method params
    | true, none, none => (session, .silent)
    | false, none, _ => (session, .silent)
    | false, some _, _ => (session, session.requested method message)

/-- Handles a message, unless the session is over. -/
def handle (reader : Reader) (session : Session) (message : Message) :
    Option (Session × Answer) :=
  if session.stage = .exited then
    none
  else
    match Method.ofName message.method with
    | .exit => some ({ session with stage := .exited }, .silent)
    | .setup => some (session.handleInitialize message)
    | .shutdown => some (session.handleShutdown message)
    | .unknown =>
      if message.method.startsWith "$/" then some (session, .silent)
      else some (session, .refuse message .methodNotFound)
    | method => some (session.handleRunning reader method message)

end Session

end LinkedJson.Server
