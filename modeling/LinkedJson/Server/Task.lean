import LinkedJson.Analysis
import LinkedJson.Workspace

/-!
# Tasks

An editor tells a server what it does with its documents: it opens, changes and closes them. What
the server does about such an event is a chain of tasks. A task runs without interruption: it either
looks at and changes the workspace, or sends one notice, and then names the task to go on with.
Between two tasks of one chain the tasks of other chains may run. `Task.finish` runs a chain by
itself to its end.
-/

namespace LinkedJson.Server

inductive LogLevel where
  | info
  | log
deriving DecidableEq, Repr

/-- What a server tells an editor on its own account. -/
inductive Notice where
  | log (level : LogLevel) (text : String)
  | diagnostics (address : Address) (list : List Diagnostic) (version : Option Int32)
deriving DecidableEq, Repr

/-- What an editor does with a document. -/
inductive Event where
  | opened (address : Address) (version : Int32) (text : String)
  | changed (address : Address) (version : Int32) (edits : List Edit)
  | closed (address : Address)
deriving DecidableEq, Repr

/-- A step of work on a document. -/
inductive Task where
  | openDocument (address : Address) (version : Int32) (text : String)
  | editDocument (address : Address) (version : Int32) (edits : List Edit)
  | closeDocument (address : Address)
  | analyse (address : Address)
  | announce (address : Address) (list : List Diagnostic) (version : Int32)
  | publish (address : Address) (list : List Diagnostic) (version : Option Int32)
deriving DecidableEq, Repr

/-- What a task leaves behind: the workspace, the notice it sent, and the task to go on with. -/
structure Progress where
  workspace : Workspace
  sent : Option Notice
  next : Option Task

namespace Task

def announcement (address : Address) (list : List Diagnostic) : String :=
  "Publishing " ++ toString list.length ++ " diagnostics for " ++ address.render

/-- Runs a task. Edits and analyses of a document that is not open end their chain. -/
def step (reader : Reader) (workspace : Workspace) : Task → Progress
  | openDocument address version text =>
    ⟨workspace.openDocument address version text, none, some (.analyse address)⟩
  | editDocument address version edits =>
    if workspace.contains address then
      ⟨workspace.applyEdits address version edits, none, some (.analyse address)⟩
    else
      ⟨workspace, none, none⟩
  | closeDocument address =>
    ⟨workspace.close address, none, some (.publish address [] none)⟩
  | analyse address =>
    match workspace.get? address with
    | none => ⟨workspace, none, none⟩
    | some document =>
      let analysis := Analysis.ofDocument reader document
      ⟨workspace.setSymbols address analysis.symbols, none,
        some (.announce address analysis.diagnostics document.version)⟩
  | announce address list version =>
    ⟨workspace, some (.log .log (announcement address list)),
      some (.publish address list (some version))⟩
  | publish address list version =>
    ⟨workspace, some (.diagnostics address list version), none⟩

/-- How many tasks may still follow a task in its chain. -/
def remaining : Task → Nat
  | openDocument _ _ _ => 3
  | editDocument _ _ _ => 3
  | closeDocument _ => 1
  | analyse _ => 2
  | announce _ _ _ => 1
  | publish _ _ _ => 0

/-- A chain of tasks comes to an end. -/
theorem remaining_next_lt (reader : Reader) (workspace : Workspace) (task next : Task)
    (hnext : (task.step reader workspace).next = some next) :
    next.remaining < task.remaining := by
  cases task with
  | openDocument address version text =>
    simp only [step, Option.some.injEq] at hnext
    subst hnext
    simp [remaining]
  | editDocument address version edits =>
    simp only [step] at hnext
    split at hnext
    · simp only [Option.some.injEq] at hnext
      subst hnext
      simp [remaining]
    · simp at hnext
  | closeDocument address =>
    simp only [step, Option.some.injEq] at hnext
    subst hnext
    simp [remaining]
  | analyse address =>
    simp only [step] at hnext
    split at hnext
    · simp at hnext
    · simp only [Option.some.injEq] at hnext
      subst hnext
      simp [remaining]
  | announce address list version =>
    simp only [step, Option.some.injEq] at hnext
    subst hnext
    simp [remaining]
  | publish address list version => simp [step] at hnext

/-- Runs a task and all that follow it, and returns the workspace with the notices sent. -/
def finish (reader : Reader) (workspace : Workspace) (task : Task) : Workspace × List Notice :=
  let progress := task.step reader workspace
  match hnext : progress.next with
  | none => (progress.workspace, progress.sent.toList)
  | some next =>
    have := remaining_next_lt reader workspace task next hnext
    let (workspace, sent) := next.finish reader progress.workspace
    (workspace, progress.sent.toList ++ sent)
termination_by task.remaining

end Task

namespace Event

def firstTask : Event → Task
  | opened address version text => .openDocument address version text
  | changed address version edits => .editDocument address version edits
  | closed address => .closeDocument address

/-- Does all the work on an event, and returns the workspace with the notices sent. -/
def handle (reader : Reader) (workspace : Workspace) (event : Event) :
    Workspace × List Notice :=
  event.firstTask.finish reader workspace

end Event

end LinkedJson.Server
