import LinkedJson.Proofs.Server.History

/-!
# Overlapping chains of tasks

A server does not wait for the work on one event to end before it begins with the next. Any number
of chains of tasks may be in progress, and between two tasks of one chain the others may change,
close or reopen the very document that it is about. A flight is a server with chains in progress,
and a list of turns is one order in which things happen to it.

After every list of turns the line index of each open document is that of its text. Its symbol table
is that of its text too, or it is empty and a task is waiting that will fill it. The reason is that
no task carries anything derived from a text into the workspace: opening and editing leave an empty
table, and an analysis reads the very text that it writes the table for. An answer to a request
therefore never mixes the text of one version with what was derived from another.
-/

namespace LinkedJson

/-! ## Fresh documents -/

namespace Document

/-- Everything derived from the text of a document is what the text gives, or else nothing has been
derived from it yet and an analysis is due. -/
def IsFresh (reader : Reader) (due : Prop) (document : Document) : Prop :=
  document = analysed reader document.address document.version document.text ∨
    document = ofText document.address document.version document.text ∧ due

theorem IsFresh.mono {reader : Reader} {due later : Prop} {document : Document}
    (hfresh : document.IsFresh reader due) (hdue : due → later) :
    document.IsFresh reader later :=
  hfresh.imp_right (And.imp_right hdue)

theorem isFresh_applyEdits (reader : Reader) (document : Document) (version : Int32)
    (edits : List Edit) {due : Prop} (hdue : due) :
    (document.applyEdits version edits).IsFresh reader due := by
  rw [applyEdits_eq_ofText]
  exact .inr ⟨rfl, hdue⟩

theorem isFresh_analysedBy (reader : Reader) (document : Document) (due : Prop) :
    (document.analysedBy reader).IsFresh reader due :=
  .inl (document.analysedBy_eq reader)

end Document

namespace Workspace

/-- A workspace with everything that is derived from texts derived anew. -/
def rederived (reader : Reader) (workspace : Workspace) : Workspace :=
  workspace.map (fun document ↦
    .analysed reader document.address document.version document.text) fun _ ↦ rfl

theorem get?_rederived (reader : Reader) (workspace : Workspace) (address : Address) :
    (workspace.rederived reader).get? address =
      (workspace.get? address).map fun document ↦
        .analysed reader document.address document.version document.text :=
  workspace.get?_map address _

section

variable {reader : Reader} {workspace : Workspace} {due : Address → Prop}
  (hfresh : ∀ ⦃address document⦄, workspace.get? address = some document →
    document.IsFresh reader (due address))

include hfresh

/-- The range of a target is the one that the texts give, unless an analysis is due that would find
it. -/
theorem targetRange_rederived (target : Target) :
    workspace.targetRange target = (workspace.rederived reader).targetRange target ∨
      workspace.targetRange target = .zero ∧ due target.document := by
  unfold targetRange
  rw [get?_rederived]
  cases hget : workspace.get? target.document with
  | none => exact .inl rfl
  | some document =>
    rw [Option.map_some]
    rcases hfresh hget with hanalysed | ⟨hopened, hdue⟩
    · rw [← hanalysed]
      exact .inl rfl
    · rw [hopened]
      cases target.pointer with
      | none => exact .inl rfl
      | some pointer => exact .inr ⟨rfl, hdue⟩

theorem definitionAt_rederived (document : Document) (offset : Nat) :
    workspace.definitionAt document offset =
        (workspace.rederived reader).definitionAt document offset ∨
      ∃ link, (workspace.rederived reader).definitionAt document offset = some link ∧
        workspace.definitionAt document offset = some { link with target := .zero } ∧
        due link.document := by
  unfold definitionAt
  cases document.symbols.referenceAt offset with
  | none => exact .inl rfl
  | some symbol =>
    dsimp only
    cases symbol.refersTo.bind (Target.resolve document.address) with
    | none => exact .inl rfl
    | some target =>
      rw [Option.map_some, Option.map_some]
      rcases targetRange_rederived hfresh target with hrange | ⟨hzero, hdue⟩
      · left
        rw [hrange]
      · right
        rw [hzero]
        exact ⟨_, rfl, rfl, hdue⟩

/-- The link at a position is the one that the texts give, unless an analysis is due: then there may
be no link, or one to the start of the target document. -/
theorem definition_rederived (address : Address) (position : Position) :
    workspace.definition address position =
        (workspace.rederived reader).definition address position ∨
      workspace.definition address position = none ∧ due address ∨
      ∃ link, (workspace.rederived reader).definition address position = some link ∧
        workspace.definition address position = some { link with target := .zero } ∧
        due link.document := by
  unfold definition
  rw [get?_rederived]
  cases hget : workspace.get? address with
  | none => exact .inl rfl
  | some document =>
    rw [Option.map_some, Option.bind_some, Option.bind_some]
    rcases hfresh hget with hanalysed | ⟨hopened, hdue⟩
    · rw [← hanalysed]
      exact (definitionAt_rederived hfresh document (document.offset position)).imp_right .inr
    · -- A table without symbols has no references either.
      rw [hopened]
      exact .inr (.inl ⟨rfl, hdue⟩)

end

end Workspace

namespace Server

/-! ## What a task does -/

namespace Task

/-- The document that a task is about. -/
def address : Task → Address
  | openDocument address _ _ => address
  | editDocument address _ _ => address
  | closeDocument address => address
  | analyse address => address
  | announce address _ _ => address
  | publish address _ _ => address

/-- What a task makes of the record of its document. -/
def record (reader : Reader) : Task → Option Document → Option Document
  | openDocument address version text, _ => some (.ofText address version text)
  | editDocument _ version edits, document => document.map (·.applyEdits version edits)
  | closeDocument _, _ => none
  | analyse _, document => document.map (·.analysedBy reader)
  | announce _ _ _, document => document
  | publish _ _ _, document => document

/-- A task changes the record of its own document and no other. -/
theorem get?_step (reader : Reader) (workspace : Workspace) (task : Task) (address : Address) :
    (task.step reader workspace).workspace.get? address =
      if address = task.address then task.record reader (workspace.get? address)
      else workspace.get? address := by
  cases task with
  | openDocument opened version text =>
    by_cases hsame : address = opened
    · subst hsame
      rw [Task.address, if_pos rfl]
      exact workspace.get?_openDocument_self address version text
    · rw [Task.address, if_neg hsame]
      exact workspace.get?_put_of_ne _ hsame
  | editDocument edited version edits =>
    cases hget : workspace.get? edited with
    | none =>
      rw [step_editDocument_of_get?_eq_none reader hget]
      by_cases hsame : address = edited
      · simp [Task.address, record, hsame, hget]
      · simp [Task.address, hsame]
    | some document =>
      have hopen : workspace.contains edited = true := by
        rw [Workspace.contains, hget]
        rfl
      rw [step_editDocument reader hopen]
      exact workspace.get?_applyEdits edited address version edits
  | closeDocument closed =>
    by_cases hsame : address = closed
    · subst hsame
      rw [Task.address, if_pos rfl]
      exact workspace.get?_close_self address
    · rw [Task.address, if_neg hsame]
      exact workspace.get?_close_of_ne hsame
  | analyse analysed =>
    cases hget : workspace.get? analysed with
    | none =>
      rw [step_analyse_of_get?_eq_none reader hget]
      by_cases hsame : address = analysed
      · simp [Task.address, record, hsame, hget]
      · simp [Task.address, hsame]
    | some document =>
      rw [step_analyse reader hget]
      refine (workspace.get?_setSymbols analysed address _).trans ?_
      by_cases hsame : address = analysed
      · subst hsame
        rw [Task.address, if_pos rfl, if_pos rfl, hget]
        rfl
      · rw [Task.address, if_neg hsame, if_neg hsame]
  | announce | publish => exact (ite_self _).symm

/-- A task keeps its document fresh: where it leaves one without symbols, an analysis follows. -/
theorem isFresh_record {reader : Reader} {workspace : Workspace} {task : Task} {due : Prop}
    (hfresh : ∀ ⦃earlier⦄, workspace.get? task.address = some earlier →
      earlier.IsFresh reader due)
    {document : Document}
    (hrecord : task.record reader (workspace.get? task.address) = some document) {later : Prop}
    (hkept : task ≠ .analyse task.address → due → later)
    (hnext : (task.step reader workspace).next = some (.analyse task.address) → later) :
    document.IsFresh reader later := by
  cases task with
  | openDocument address version text =>
    cases hrecord
    exact .inr ⟨rfl, hnext rfl⟩
  | editDocument address version edits =>
    obtain ⟨earlier, hearlier, rfl⟩ := Option.map_eq_some_iff.1 hrecord
    have hopen : workspace.contains address = true := Option.isSome_iff_exists.2 ⟨_, hearlier⟩
    have hlater := hnext (by rw [step_editDocument reader hopen]; rfl)
    exact earlier.isFresh_applyEdits reader version edits hlater
  | closeDocument address => cases hrecord
  | analyse address =>
    obtain ⟨earlier, -, rfl⟩ := Option.map_eq_some_iff.1 hrecord
    exact earlier.isFresh_analysedBy reader later
  | announce | publish => exact (hfresh hrecord).mono (hkept (by rintro ⟨⟩))

end Task

/-! ## Flights -/

/-- What may happen next: an event arrives, one of the chains in progress goes on by a task, or an
editor asks for the definition at a position. -/
inductive Turn where
  | arrive (event : Event)
  | proceed (index : Nat)
  | ask (address : Address) (position : Position)

/-- A server with chains of tasks in progress. Of each chain the task to go on with is kept. -/
structure Flight where
  workspace : Workspace
  tasks : List Task
  sent : List Notice
  answers : List (Option Link)

namespace Flight

/-- A server that nothing has happened to yet. -/
def start : Flight :=
  ⟨.empty, [], [], []⟩

/-- Takes a turn. A turn of a chain that does not exist passes. -/
def turn (reader : Reader) (flight : Flight) : Turn → Flight
  | .arrive event => { flight with tasks := flight.tasks ++ [event.firstTask] }
  | .proceed index =>
    match flight.tasks[index]? with
    | none => flight
    | some task =>
      let progress := task.step reader flight.workspace
      { flight with
        workspace := progress.workspace
        tasks := flight.tasks.take index ++ progress.next.toList ++ flight.tasks.drop (index + 1)
        sent := flight.sent ++ progress.sent.toList }
  | .ask address position =>
    { flight with answers := flight.answers ++ [flight.workspace.definition address position] }

/-- The server after turns, one after another. -/
def after (reader : Reader) (turns : List Turn) : Flight :=
  turns.foldl (turn reader) start

variable {reader : Reader} {flight : Flight} {index : Nat} {task : Task}

theorem tasks_eq_append (htask : flight.tasks[index]? = some task) :
    flight.tasks = flight.tasks.take index ++ task :: flight.tasks.drop (index + 1) := by
  obtain ⟨hindex, hget⟩ := List.getElem?_eq_some_iff.1 htask
  rw [← hget, List.getElem_cons_drop, List.take_append_drop]

/-- What is in progress before a task runs: it and the tasks of the other chains. -/
theorem mem_tasks_iff (htask : flight.tasks[index]? = some task) (other : Task) :
    other ∈ flight.tasks ↔
      other ∈ flight.tasks.take index ∨ other = task ∨ other ∈ flight.tasks.drop (index + 1) := by
  conv_lhs => rw [tasks_eq_append htask]
  rw [List.mem_append, List.mem_cons]

/-- The tasks of the other chains stay in progress, whatever follows the task that runs. -/
theorem mem_tasks_of_ne (htask : flight.tasks[index]? = some task) {other : Task}
    (hother : task ≠ other) (next : List Task) (hmem : other ∈ flight.tasks) :
    other ∈ flight.tasks.take index ++ next ++ flight.tasks.drop (index + 1) := by
  rcases (mem_tasks_iff htask _).1 hmem with hbefore | hsame | hafter
  · exact List.mem_append_left _ (List.mem_append_left _ hbefore)
  · exact absurd hsame.symm hother
  · exact List.mem_append_right _ hafter

theorem turn_proceed (htask : flight.tasks[index]? = some task) :
    flight.turn reader (.proceed index) =
      { flight with
        workspace := (task.step reader flight.workspace).workspace
        tasks := flight.tasks.take index ++ (task.step reader flight.workspace).next.toList ++
          flight.tasks.drop (index + 1)
        sent := flight.sent ++ (task.step reader flight.workspace).sent.toList } := by
  simp only [turn, htask]

theorem turn_proceed_of_none (htask : flight.tasks[index]? = none) :
    flight.turn reader (.proceed index) = flight := by
  simp only [turn, htask]

/-- All open documents are fresh, and the analyses due are among the tasks in progress. -/
def AllFresh (reader : Reader) (flight : Flight) : Prop :=
  ∀ ⦃address document⦄, flight.workspace.get? address = some document →
    document.IsFresh reader (.analyse address ∈ flight.tasks)

/-- A task of any chain keeps all documents fresh, whatever the other chains have done since the
task before it. -/
theorem AllFresh.proceed (hfresh : flight.AllFresh reader)
    (htask : flight.tasks[index]? = some task) :
    (flight.turn reader (.proceed index)).AllFresh reader := by
  intro address document hget
  rw [turn_proceed htask] at hget ⊢
  change (task.step reader flight.workspace).workspace.get? address = some document at hget
  change document.IsFresh reader (_ ∈ flight.tasks.take index ++
    (task.step reader flight.workspace).next.toList ++ flight.tasks.drop (index + 1))
  -- An analysis that another chain has still to do is still in progress.
  have hkept : task ≠ .analyse address → .analyse address ∈ flight.tasks →
      .analyse address ∈ flight.tasks.take index ++
        (task.step reader flight.workspace).next.toList ++ flight.tasks.drop (index + 1) :=
    fun hother ↦ mem_tasks_of_ne htask hother _
  rw [Task.get?_step] at hget
  by_cases hsame : address = task.address
  · subst hsame
    rw [if_pos rfl] at hget
    refine Task.isFresh_record (@hfresh task.address) hget hkept fun hnext ↦ ?_
    rw [hnext]
    exact List.mem_append_left _ (List.mem_append_right _ List.mem_cons_self)
  · rw [if_neg hsame] at hget
    refine (hfresh hget).mono (hkept ?_)
    rintro rfl
    exact hsame rfl

/-- One turn keeps all documents fresh. -/
theorem AllFresh.turn (hfresh : flight.AllFresh reader) (turn : Turn) :
    (flight.turn reader turn).AllFresh reader := by
  cases turn with
  | arrive event => exact fun _ _ hget ↦ (hfresh hget).mono (List.mem_append_left _)
  | proceed index =>
    cases htask : flight.tasks[index]? with
    | none =>
      rw [turn_proceed_of_none htask]
      exact hfresh
    | some task => exact hfresh.proceed htask
  | ask address position => exact hfresh

/-- All documents are fresh after every list of turns. -/
theorem allFresh_after (reader : Reader) (turns : List Turn) :
    (after reader turns).AllFresh reader := by
  unfold after
  have hstart : start.AllFresh reader := by
    intro address document hget
    cases hget
  generalize start = flight at hstart
  induction turns generalizing flight with
  | nil => exact hstart
  | cons turn turns ih => exact ih _ (hstart.turn turn)

end Flight

/-- Whatever the order of the tasks of any number of overlapping chains, the line index of each open
document is that of its text, and its symbol table is that of its text as well, or it is empty and
an analysis of the document is in progress. A request for a definition changes nothing, and its
answer is the one that the texts give at that moment. Only while an analysis of the document it is
about is in progress may there be no link, and only while one of the target document is may the link
lead to its start. -/
theorem overlap_leaves_documents_fresh (reader : Reader) (turns : List Turn) :
    let flight := Flight.after reader turns
    (∀ address document, flight.workspace.get? address = some document →
      document.lines = .ofText document.text ∧
      (document.symbols = .ofRoot (reader.root document.text) ∨
        document.symbols = .empty ∧ .analyse address ∈ flight.tasks)) ∧
    ∀ address position, ∃ answer,
      flight.turn reader (.ask address position) =
        { flight with answers := flight.answers ++ [answer] } ∧
      (answer = (flight.workspace.rederived reader).definition address position ∨
        answer = none ∧ .analyse address ∈ flight.tasks ∨
        ∃ link, (flight.workspace.rederived reader).definition address position = some link ∧
          answer = some { link with target := .zero } ∧
          .analyse link.document ∈ flight.tasks) := by
  intro flight
  have hfresh : flight.AllFresh reader := Flight.allFresh_after reader turns
  refine ⟨fun address document hget ↦ ⟨document.lines_eq, ?_⟩, fun address position ↦
    ⟨_, rfl, Workspace.definition_rederived hfresh address position⟩⟩
  rcases hfresh hget with hanalysed | ⟨hopened, hdue⟩
  · left
    rw [hanalysed]
    rfl
  · right
    exact ⟨by rw [hopened]; rfl, hdue⟩

/-- The chain that opened a document finds it closed and opened again with another text. The table
that it writes is that of the new text, before the chain that opened it anew has analysed it. -/
theorem overlap_leaves_documents_fresh_reopened :
    let reader := Recovery.reader fun _ ↦ none
    let address : Address := ⟨"a", none, .rootless "b", none, none⟩
    let flight := Flight.after reader
      [.arrive (.opened address 1 "[]"), .proceed 0, .arrive (.closed address), .proceed 1,
        .arrive (.opened address 2 "\x7b\"k\":1\x7d"), .proceed 2, .proceed 0]
    flight.tasks = [.announce address [] 2, .publish address [] none, .analyse address] ∧
    ∃ document, flight.workspace.get? address = some document ∧
      document.text = "\x7b\"k\":1\x7d" ∧ document.symbols.size = 1 ∧
      document.symbols = .ofRoot (reader.root document.text) := by
  intro reader address flight
  have hflight : flight.tasks = [.announce address [] 2, .publish address [] none,
      .analyse address] ∧
      (flight.workspace.get? address).map (fun document ↦ (document.text, document.symbols.size)) =
        some ("\x7b\"k\":1\x7d", 1) := by decide +kernel
  obtain ⟨htasks, hrecord⟩ := hflight
  obtain ⟨document, hget, hdocument⟩ := Option.map_eq_some_iff.1 hrecord
  obtain ⟨htext, hsize⟩ := Prod.mk.inj hdocument
  refine ⟨htasks, document, hget, htext, hsize, ?_⟩
  obtain ⟨-, hcurrent | ⟨hempty, -⟩⟩ :=
    (overlap_leaves_documents_fresh reader _).1 address document hget
  · exact hcurrent
  · rw [hempty] at hsize
    cases hsize

end Server

end LinkedJson
