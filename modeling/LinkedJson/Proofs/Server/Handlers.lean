import LinkedJson.Server.Task

/-!
# What the handlers of events do

The work on an event is a chain of tasks. Run to its end by itself, a chain has one outcome: a
workspace and the notices sent. This module gives that outcome for each event, and reads off it what
an event makes of the record of a document. An event reaches the record of its own document only.
-/

namespace LinkedJson

/-- A document with the symbols that a reader finds in its text. -/
def Document.analysedBy (reader : Reader) (document : Document) : Document :=
  { document with symbols := (Analysis.ofDocument reader document).symbols }

namespace Workspace

theorem get?_setSymbols (workspace : Workspace) (address other : Address)
    (symbols : SymbolTable) :
    (workspace.setSymbols address symbols).get? other =
      if other = address then (workspace.get? other).map ({ · with symbols })
      else workspace.get? other :=
  workspace.get?_modify address other _

theorem get?_applyEdits (workspace : Workspace) (address other : Address) (version : Int32)
    (edits : List Edit) :
    (workspace.applyEdits address version edits).get? other =
      if other = address then (workspace.get? other).map (·.applyEdits version edits)
      else workspace.get? other :=
  workspace.get?_modify address other _

theorem get?_openDocument_self (workspace : Workspace) (address : Address) (version : Int32)
    (text : String) :
    (workspace.openDocument address version text).get? address =
      some (.ofText address version text) :=
  workspace.get?_put_self (.ofText address version text)

end Workspace

namespace Server

namespace Task

theorem step_analyse (reader : Reader) {workspace : Workspace} {address : Address}
    {document : Document} (hget : workspace.get? address = some document) :
    (analyse address).step reader workspace =
      ⟨workspace.setSymbols address (Analysis.ofDocument reader document).symbols, none,
        some (.announce address (Analysis.ofDocument reader document).diagnostics
          document.version)⟩ := by
  simp only [step, hget]

theorem step_analyse_of_get?_eq_none (reader : Reader) {workspace : Workspace} {address : Address}
    (hget : workspace.get? address = none) :
    (analyse address).step reader workspace = ⟨workspace, none, none⟩ := by
  simp only [step, hget]

theorem step_editDocument (reader : Reader) {workspace : Workspace} {address : Address}
    (hopen : workspace.contains address = true) (version : Int32) (edits : List Edit) :
    (editDocument address version edits).step reader workspace =
      ⟨workspace.applyEdits address version edits, none, some (.analyse address)⟩ := by
  simp only [step, hopen, if_true]

theorem step_editDocument_of_get?_eq_none (reader : Reader) {workspace : Workspace}
    {address : Address} (hget : workspace.get? address = none) (version : Int32)
    (edits : List Edit) :
    (editDocument address version edits).step reader workspace = ⟨workspace, none, none⟩ := by
  simp [step, Workspace.contains, hget]

theorem finish_of_next_none {reader : Reader} {workspace : Workspace} {task : Task}
    (hnext : (task.step reader workspace).next = none) :
    task.finish reader workspace =
      ((task.step reader workspace).workspace, (task.step reader workspace).sent.toList) := by
  rw [finish]
  split
  · rfl
  · next hfollows =>
    rw [hnext] at hfollows
    cases hfollows

theorem finish_of_next_some {reader : Reader} {workspace : Workspace} {task next : Task}
    (hnext : (task.step reader workspace).next = some next) :
    task.finish reader workspace =
      ((next.finish reader (task.step reader workspace).workspace).1,
        (task.step reader workspace).sent.toList ++
          (next.finish reader (task.step reader workspace).workspace).2) := by
  rw [finish]
  split
  · next hfollows =>
    rw [hnext] at hfollows
    cases hfollows
  · next hfollows =>
    rw [hnext] at hfollows
    cases hfollows
    rfl

theorem finish_publish (reader : Reader) (workspace : Workspace) (address : Address)
    (list : List Diagnostic) (version : Option Int32) :
    (publish address list version).finish reader workspace =
      (workspace, [.diagnostics address list version]) :=
  finish_of_next_none rfl

theorem finish_announce (reader : Reader) (workspace : Workspace) (address : Address)
    (list : List Diagnostic) (version : Int32) :
    (announce address list version).finish reader workspace =
      (workspace, [.log .log (announcement address list),
        .diagnostics address list (some version)]) := by
  rw [finish_of_next_some rfl]
  exact congrArg (fun outcome : Workspace × List Notice ↦
    (outcome.1, [.log .log (announcement address list)] ++ outcome.2))
    (finish_publish reader workspace address list (some version))

/-- The notices that follow the analysis of a document. -/
def publication (reader : Reader) (document : Document) : List Notice :=
  let list := (Analysis.ofDocument reader document).diagnostics
  [.log .log (announcement document.address list),
    .diagnostics document.address list (some document.version)]

theorem finish_analyse {reader : Reader} {workspace : Workspace} {address : Address}
    {document : Document} (hget : workspace.get? address = some document) :
    (analyse address).finish reader workspace =
      (workspace.setSymbols address (Analysis.ofDocument reader document).symbols,
        publication reader document) := by
  have haddress := Workspace.address_of_get? hget
  have hstep := step_analyse reader hget
  rw [finish_of_next_some (by rw [hstep]), hstep]
  simp only [finish_announce, publication, haddress]
  rfl

end Task

namespace Event

/-- The document that an event is about. -/
def address : Event → Address
  | opened address _ _ => address
  | changed address _ _ => address
  | closed address => address

theorem handle_opened (reader : Reader) (workspace : Workspace) (address : Address)
    (version : Int32) (text : String) :
    (opened address version text).handle reader workspace =
      ((workspace.openDocument address version text).setSymbols address
          (Analysis.ofDocument reader (.ofText address version text)).symbols,
        Task.publication reader (.ofText address version text)) := by
  have hget := workspace.get?_openDocument_self address version text
  change (Task.openDocument address version text).finish reader workspace = _
  rw [Task.finish_of_next_some rfl]
  exact congrArg (fun outcome : Workspace × List Notice ↦ (outcome.1, [] ++ outcome.2))
    (Task.finish_analyse hget)

theorem handle_changed {reader : Reader} {workspace : Workspace} {address : Address}
    {document : Document} (hget : workspace.get? address = some document) (version : Int32)
    (edits : List Edit) :
    (changed address version edits).handle reader workspace =
      ((workspace.applyEdits address version edits).setSymbols address
          (Analysis.ofDocument reader (document.applyEdits version edits)).symbols,
        Task.publication reader (document.applyEdits version edits)) := by
  have hopen : workspace.contains address = true := by
    rw [Workspace.contains, hget]
    rfl
  have hedited : (workspace.applyEdits address version edits).get? address =
      some (document.applyEdits version edits) := by
    rw [Workspace.get?_applyEdits, if_pos rfl, hget]
    rfl
  have hstep := Task.step_editDocument reader hopen version edits
  change (Task.editDocument address version edits).finish reader workspace = _
  rw [Task.finish_of_next_some (by rw [hstep]), hstep]
  simp only [Task.finish_analyse hedited]
  rfl

/-- A change of a document that is not open does nothing. -/
theorem handle_changed_of_get?_eq_none {reader : Reader} {workspace : Workspace}
    {address : Address} (hget : workspace.get? address = none) (version : Int32)
    (edits : List Edit) :
    (changed address version edits).handle reader workspace = (workspace, []) := by
  have hstep := Task.step_editDocument_of_get?_eq_none reader hget version edits
  change (Task.editDocument address version edits).finish reader workspace = _
  rw [Task.finish_of_next_none (by rw [hstep]), hstep]
  rfl

theorem handle_closed (reader : Reader) (workspace : Workspace) (address : Address) :
    (closed address).handle reader workspace =
      (workspace.close address, [.diagnostics address [] none]) := by
  change (Task.closeDocument address).finish reader workspace = _
  rw [Task.finish_of_next_some rfl]
  exact congrArg (fun outcome : Workspace × List Notice ↦ (outcome.1, [] ++ outcome.2))
    (Task.finish_publish reader (workspace.close address) address [] none)

/-- What an event makes of the record of its document. -/
def record (reader : Reader) : Event → Option Document → Option Document
  | opened address version text, _ =>
    some ((Document.ofText address version text).analysedBy reader)
  | changed _ version edits, document =>
    document.map fun document ↦ (document.applyEdits version edits).analysedBy reader
  | closed _, _ => none

end Event

/-- Handling an event changes the record of its own document and no other. -/
theorem Event.get?_handle (reader : Reader) (workspace : Workspace) (event : Event)
    (address : Address) :
    (event.handle reader workspace).1.get? address =
      if event.address = address then event.record reader (workspace.get? address)
      else workspace.get? address := by
  by_cases hsame : event.address = address
  · rw [if_pos hsame]
    subst hsame
    cases event with
    | opened address version text =>
      rw [handle_opened, Event.address, Workspace.get?_setSymbols, if_pos rfl,
        Workspace.get?_openDocument_self]
      rfl
    | changed address version edits =>
      cases hget : workspace.get? address with
      | none =>
        rw [handle_changed_of_get?_eq_none hget]
        simp [Event.address, record, hget]
      | some document =>
        rw [handle_changed hget, Event.address, Workspace.get?_setSymbols, if_pos rfl,
          Workspace.get?_applyEdits, if_pos rfl, hget]
        rfl
    | closed address =>
      rw [handle_closed]
      exact workspace.get?_close_self address
  · rw [if_neg hsame]
    have hother : ¬ address = event.address := fun h ↦ hsame h.symm
    cases event with
    | opened opened version text =>
      change ¬ address = opened at hother
      rw [handle_opened, Workspace.get?_setSymbols, if_neg hother]
      exact workspace.get?_put_of_ne _ hother
    | changed changed version edits =>
      change ¬ address = changed at hother
      cases hget : workspace.get? changed with
      | none => rw [handle_changed_of_get?_eq_none hget]
      | some document =>
        rw [handle_changed hget, Workspace.get?_setSymbols, if_neg hother,
          Workspace.get?_applyEdits, if_neg hother]
    | closed closed =>
      rw [handle_closed]
      exact workspace.get?_close_of_ne hother

end Server

end LinkedJson
