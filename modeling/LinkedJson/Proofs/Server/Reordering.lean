import LinkedJson.Proofs.Server.Overlap
import LinkedJson.Proofs.Server.Publication

/-!
# Publications of overlapping chains

A publication is drawn up by the task that looks at the workspace, and it is sent by a later task of
the same chain. Between the two the chains of other events may draw up and send theirs. Publications
can therefore overtake each other, and what an editor was told last about a document need not be
what its text gives.

The drafts themselves are in the right order. After every list of turns each draft has been sent or
is still to be sent, once. The last draft about a document is what its record gives, unless an
analysis is in progress that draws up another one. So an editor ends with the right diagnostics of
every document about which the publications were sent in the order of their drafts.
-/

namespace LinkedJson.Server

namespace Publication

/-- The last word on a document is what its record gives, or there is neither a word nor a record.
Else the document is open and an analysis of it is due. -/
def Settles (reader : Reader) (address : Address) (list : List Publication)
    (record : Option Document) (due : Prop) : Prop :=
  last? address list = some (.ofRecord reader address record) ∨
    last? address list = none ∧ record = none ∨
    record.isSome = true ∧ due

theorem Settles.mono {reader : Reader} {address : Address} {list : List Publication}
    {record : Option Document} {due later : Prop}
    (hsettles : Settles reader address list record due) (hdue : due → later) :
    Settles reader address list record later :=
  hsettles.imp_right (Or.imp_right (And.imp_right hdue))

end Publication

/-! ## Drafts -/

namespace Task

/-- The publication that a task has to send or to hand on. -/
def pending? : Task → Option Publication
  | announce address list version => some ⟨address, list, some version⟩
  | publish address list version => some ⟨address, list, version⟩
  | _ => none

/-- The publication that a task draws up from the workspace. -/
def draft? (reader : Reader) (workspace : Workspace) : Task → Option Publication
  | closeDocument address => some (.cleared address)
  | analyse address => (workspace.get? address).map fun document ↦
      ⟨address, (Analysis.ofDocument reader document).diagnostics, some document.version⟩
  | _ => none

theorem address_draft? {reader : Reader} {workspace : Workspace} {task : Task}
    {draft : Publication} (hdraft : task.draft? reader workspace = some draft) :
    draft.address = task.address := by
  cases task with
  | openDocument | editDocument | announce | publish => cases hdraft
  | closeDocument address =>
    cases hdraft
    rfl
  | analyse address =>
    obtain ⟨document, -, rfl⟩ := Option.map_eq_some_iff.1 hdraft
    rfl

/-- A task sends what is pending or hands it on, and hands on what it draws up. -/
theorem sent_append_pending (reader : Reader) (workspace : Workspace) (task : Task) :
    publications (task.step reader workspace).sent.toList ++
        (task.step reader workspace).next.toList.filterMap pending? =
      task.pending?.toList ++ (task.draft? reader workspace).toList := by
  cases task with
  | openDocument | closeDocument | announce | publish => rfl
  | editDocument address version edits =>
    rw [step]
    split <;> rfl
  | analyse address =>
    cases hget : workspace.get? address with
    | none =>
      rw [step_analyse_of_get?_eq_none reader hget, draft?, hget]
      rfl
    | some document =>
      rw [step_analyse reader hget, draft?, hget]
      rfl

/-- The analysis of a document draws up what its text gives. -/
theorem draft?_analyse (reader : Reader) {workspace : Workspace} {address : Address}
    {document : Document} (hget : workspace.get? address = some document) :
    (analyse address).draft? reader workspace =
      some (.ofRecord reader address (some (document.analysedBy reader))) := by
  rw [draft?, hget, Option.map_some, Publication.ofRecord, Publication.ofText]
  congr 2
  exact congrArg (fun shown ↦ (reader.errors document.text).map shown)
    (Diagnostic.ofError_eq document address document.version)

/-- A task keeps the last draft about its document right, or it leaves an analysis to follow. -/
theorem settles_record {reader : Reader} {workspace : Workspace} {task : Task} {due : Prop}
    {drafts : List Publication}
    (hsettles : Publication.Settles reader task.address drafts (workspace.get? task.address) due)
    {later : Prop} (hkept : task ≠ .analyse task.address → due → later)
    (hnext : (task.step reader workspace).next = some (.analyse task.address) → later) :
    Publication.Settles reader task.address (drafts ++ (task.draft? reader workspace).toList)
      (task.record reader (workspace.get? task.address)) later := by
  have hsilent : task.draft? reader workspace = none →
      task.record reader (workspace.get? task.address) = workspace.get? task.address →
      task ≠ .analyse task.address →
      Publication.Settles reader task.address (drafts ++ (task.draft? reader workspace).toList)
        (task.record reader (workspace.get? task.address)) later := by
    intro hdraft hrecord hother
    rw [hdraft, hrecord, Option.toList_none, List.append_nil]
    exact hsettles.mono (hkept hother)
  cases task with
  | openDocument address version text => exact .inr (.inr ⟨rfl, hnext rfl⟩)
  | editDocument address version edits =>
    cases hget : workspace.get? address with
    | none =>
      exact hsilent rfl (by simp only [record, Task.address, hget, Option.map_none])
        (by rintro ⟨⟩)
    | some document =>
      have hopen : workspace.contains address = true := Option.isSome_iff_exists.2 ⟨_, hget⟩
      refine .inr (.inr ⟨?_, hnext (by rw [step_editDocument reader hopen]; rfl)⟩)
      simp only [record, Task.address, hget, Option.map_some, Option.isSome_some]
  | closeDocument address =>
    left
    exact (Publication.last?_append_singleton address drafts (.cleared address)).trans (if_pos rfl)
  | analyse address =>
    change Publication.Settles reader address _ (workspace.get? address) due at hsettles
    change Publication.Settles reader address _
      ((workspace.get? address).map (·.analysedBy reader)) later
    cases hget : workspace.get? address with
    | none =>
      rw [hget] at hsettles
      rw [draft?, hget, Option.map_none, Option.toList_none, List.append_nil]
      rcases hsettles with hlast | hnone | ⟨hsome, -⟩
      · exact .inl hlast
      · exact .inr (.inl hnone)
      · cases hsome
    | some document =>
      left
      rw [draft?_analyse reader hget, Option.toList_some,
        Publication.last?_append_singleton, Publication.address_ofRecord, if_pos rfl]
      rfl
  | announce | publish => exact hsilent rfl rfl (by rintro ⟨⟩)

end Task

/-! ## Flights -/

namespace Flight

/-- The publication that is drawn up in a turn. -/
def draft? (reader : Reader) (flight : Flight) : Turn → Option Publication
  | .arrive _ => none
  | .proceed index => flight.tasks[index]?.bind (·.draft? reader flight.workspace)
  | .ask _ _ => none

/-- The publications that are drawn up in turns, in the order of the turns. -/
def drafts (reader : Reader) (flight : Flight) : List Turn → List Publication
  | [] => []
  | turn :: turns =>
    (flight.draft? reader turn).toList ++ (flight.turn reader turn).drafts reader turns

variable {reader : Reader} {flight : Flight} {index : Nat} {task : Task}
  {drafted : List Publication}

/-- The drafts so far, and what has become of them. -/
structure Accounts (reader : Reader) (flight : Flight) (drafted : List Publication) : Prop where
  fresh : flight.AllFresh reader
  once : (publications flight.sent ++ flight.tasks.filterMap Task.pending?).Perm drafted
  settles : ∀ address, Publication.Settles reader address drafted
    (flight.workspace.get? address) (.analyse address ∈ flight.tasks)

/-- In the turn of a chain no draft is lost and none is sent twice. -/
theorem Accounts.once_proceed (haccounts : flight.Accounts reader drafted)
    (htask : flight.tasks[index]? = some task) :
    (publications (flight.turn reader (.proceed index)).sent ++
        (flight.turn reader (.proceed index)).tasks.filterMap Task.pending?).Perm
      (drafted ++ (task.draft? reader flight.workspace).toList) := by
  have hbalance := task.sent_append_pending reader flight.workspace
  have hsplit : flight.tasks.filterMap Task.pending? =
      (flight.tasks.take index).filterMap Task.pending? ++ task.pending?.toList ++
        (flight.tasks.drop (index + 1)).filterMap Task.pending? := by
    conv_lhs => rw [tasks_eq_append htask]
    rw [List.filterMap_append, List.filterMap_cons]
    cases task.pending? <;> simp
  rw [turn_proceed htask, List.perm_iff_count]
  intro publication
  have hbefore := haccounts.once.count_eq publication
  have hmoved := congrArg (List.count publication) hbalance
  rw [hsplit] at hbefore
  simp only [publications_append, List.filterMap_append, List.count_append] at hbefore hmoved ⊢
  omega

/-- In the turn of a chain the last draft about each document stays right. -/
theorem Accounts.settles_proceed (haccounts : flight.Accounts reader drafted)
    (htask : flight.tasks[index]? = some task) (address : Address) :
    Publication.Settles reader address (drafted ++ (task.draft? reader flight.workspace).toList)
      ((flight.turn reader (.proceed index)).workspace.get? address)
      (.analyse address ∈ (flight.turn reader (.proceed index)).tasks) := by
  rw [turn_proceed htask, Task.get?_step]
  have hkept : task ≠ .analyse address → .analyse address ∈ flight.tasks →
      .analyse address ∈ flight.tasks.take index ++
        (task.step reader flight.workspace).next.toList ++ flight.tasks.drop (index + 1) :=
    fun hother ↦ mem_tasks_of_ne htask hother _
  by_cases hsame : address = task.address
  · subst hsame
    rw [if_pos rfl]
    refine Task.settles_record (haccounts.settles task.address) hkept fun hnext ↦ ?_
    rw [hnext]
    exact List.mem_append_left _ (List.mem_append_right _ List.mem_cons_self)
  · have hlast : Publication.last? address
        (drafted ++ (task.draft? reader flight.workspace).toList) =
          Publication.last? address drafted := by
      cases hdraft : task.draft? reader flight.workspace with
      | none => rw [Option.toList_none, List.append_nil]
      | some draft =>
        rw [Option.toList_some, Publication.last?_append_singleton, Task.address_draft? hdraft,
          if_neg (Ne.symm hsame)]
    rw [if_neg hsame, Publication.Settles, hlast]
    refine (haccounts.settles address).mono (hkept ?_)
    rintro rfl
    exact hsame rfl

/-- One turn keeps the accounts. -/
theorem Accounts.turn (haccounts : flight.Accounts reader drafted) (turn : Turn) :
    (flight.turn reader turn).Accounts reader (drafted ++ (flight.draft? reader turn).toList) := by
  have hfresh := haccounts.fresh.turn turn
  cases turn with
  | arrive event =>
    rw [draft?, Option.toList_none, List.append_nil]
    refine ⟨hfresh, ?_, fun address ↦ (haccounts.settles address).mono (List.mem_append_left _)⟩
    -- The work on an event begins with a task that has nothing to send yet.
    have hfirst : [event.firstTask].filterMap Task.pending? = [] := by
      cases event <;> rfl
    change (publications flight.sent ++
      (flight.tasks ++ [event.firstTask]).filterMap Task.pending?).Perm drafted
    rw [List.filterMap_append, hfirst, List.append_nil]
    exact haccounts.once
  | proceed index =>
    cases htask : flight.tasks[index]? with
    | none =>
      rw [turn_proceed_of_none htask, draft?, htask, Option.bind_none, Option.toList_none,
        List.append_nil]
      exact haccounts
    | some task =>
      rw [draft?, htask, Option.bind_some]
      exact ⟨hfresh, haccounts.once_proceed htask, haccounts.settles_proceed htask⟩
  | ask address position =>
    rw [draft?, Option.toList_none, List.append_nil]
    exact ⟨hfresh, haccounts.once, haccounts.settles⟩

/-- Turns keep the accounts. -/
theorem Accounts.run (haccounts : flight.Accounts reader drafted) (turns : List Turn) :
    (turns.foldl (Flight.turn reader) flight).Accounts reader
      (drafted ++ flight.drafts reader turns) := by
  induction turns generalizing flight drafted with
  | nil =>
    rw [drafts, List.append_nil]
    exact haccounts
  | cons turn turns ih =>
    rw [drafts, ← List.append_assoc]
    exact ih (haccounts.turn turn)

theorem accounts_after (reader : Reader) (turns : List Turn) :
    (after reader turns).Accounts reader (start.drafts reader turns) := by
  have hstart : start.Accounts reader [] :=
    ⟨allFresh_after reader [], .nil, fun _ ↦ .inr (.inl ⟨rfl, rfl⟩)⟩
  exact hstart.run turns

end Flight

/-- What an editor is to be told last about a document: the diagnostics of its text with their
version, or else nothing to show. A document without a record need not have been mentioned. -/
def Publication.IsRight (reader : Reader) (address : Address) (record : Option Document)
    (last : Option Publication) : Prop :=
  (∀ document, record = some document →
    last = some (.ofText reader address document.version document.text)) ∧
  (record = none → ∀ publication, last = some publication → publication = .cleared address)

theorem Publication.isRight_of_settles {reader : Reader} {address : Address}
    {list : List Publication} {record : Option Document}
    (hsettles : Settles reader address list record False) :
    IsRight reader address record (last? address list) := by
  rcases hsettles with hlast | ⟨hlast, hrecord⟩ | ⟨-, hdue⟩
  · rw [hlast]
    constructor
    · rintro document rfl
      rfl
    · rintro rfl publication hpublication
      exact (Option.some.inj hpublication).symm
  · rw [hlast, hrecord]
    constructor
    · rintro document ⟨⟩
    · rintro - publication ⟨⟩
  · exact hdue.elim

/-- Once the chains of all events have come to their ends, in whatever order their tasks ran, every
publication that was drawn up has been sent once, and the one drawn up last about a document is the
right one. Where the publications about a document were sent in the order in which they were drawn
up, the right one is also what the editor was told last. -/
theorem last_draft_right (reader : Reader) (turns : List Turn)
    (hdone : (Flight.after reader turns).tasks = []) :
    let flight := Flight.after reader turns
    let drafts := Flight.start.drafts reader turns
    (publications flight.sent).Perm drafts ∧
    (∀ address, Publication.IsRight reader address (flight.workspace.get? address)
      (Publication.last? address drafts)) ∧
    ∀ address,
      Publication.about address (publications flight.sent) = Publication.about address drafts →
      Publication.IsRight reader address (flight.workspace.get? address)
        (lastPublication? address flight.sent) := by
  intro flight drafts
  have haccounts := Flight.accounts_after reader turns
  have hlast : ∀ address, Publication.IsRight reader address (flight.workspace.get? address)
      (Publication.last? address drafts) := by
    intro address
    refine Publication.isRight_of_settles ((haccounts.settles address).mono fun hdue ↦ ?_)
    rw [hdone] at hdue
    cases hdue
  refine ⟨?_, hlast, fun address horder ↦ ?_⟩
  · have honce := haccounts.once
    rw [hdone, List.filterMap_nil, List.append_nil] at honce
    exact honce
  · have hsent : lastPublication? address flight.sent = Publication.last? address drafts :=
      congrArg List.getLast? horder
    rw [hsent]
    exact hlast address

/-- A document is opened with a mistake in it and mended while the first chain is still to publish.
The first chain publishes before the second one. -/
theorem last_draft_right_in_turn :
    let reader := Recovery.reader fun _ ↦ none
    let address : Address := ⟨"a", none, .rootless "b", none, none⟩
    let flight := Flight.after reader
      [.arrive (.opened address 1 "[] 1"), .proceed 0, .proceed 0,
        .arrive (.changed address 2 [⟨none, "[]"⟩]), .proceed 1, .proceed 1, .proceed 1,
        .proceed 0, .proceed 0, .proceed 0]
    flight.tasks = [] ∧ (publications flight.sent).length = 2 ∧
      lastPublication? address flight.sent = some ⟨address, [], some 2⟩ := by
  intro reader address flight
  have hdone : flight.tasks = [] := by decide +kernel
  obtain ⟨-, -, hright⟩ := last_draft_right reader _ hdone
  have horder := hright address (by decide +kernel)
  have hrecord : (flight.workspace.get? address).map
      (fun document ↦ (document.version, document.text)) = some (2, "[]") := by decide +kernel
  obtain ⟨document, hget, hdocument⟩ := Option.map_eq_some_iff.1 hrecord
  obtain ⟨hversion, htext⟩ := Prod.mk.inj hdocument
  refine ⟨hdone, by decide +kernel, (horder.1 document hget).trans ?_⟩
  rw [hversion, htext]
  decide +kernel

/-- The chain that opened a document publishes after a later one, which has mended or closed it.
What the editor is told last is a mistake that is no longer there. -/
theorem overtaken_publication_stale :
    let reader := Recovery.reader fun _ ↦ none
    let address : Address := ⟨"a", none, .rootless "b", none, none⟩
    let stale : Publication :=
      ⟨address, [⟨⟨⟨0, 3⟩, ⟨0, 4⟩⟩, 9, "End of file expected"⟩], some 1⟩
    let mended := Flight.after reader
      [.arrive (.opened address 1 "[] 1"), .proceed 0, .proceed 0,
        .arrive (.changed address 2 [⟨none, "[]"⟩]), .proceed 1, .proceed 1, .proceed 1,
        .proceed 1, .proceed 0, .proceed 0]
    let closed := Flight.after reader
      [.arrive (.opened address 1 "[] 1"), .proceed 0, .proceed 0, .arrive (.closed address),
        .proceed 1, .proceed 1, .proceed 0, .proceed 0]
    (mended.tasks = [] ∧
      (mended.workspace.get? address).map (fun document ↦ (document.version, document.text)) =
        some (2, "[]") ∧
      lastPublication? address mended.sent = some stale ∧
      ¬ Publication.IsRight reader address (mended.workspace.get? address)
        (lastPublication? address mended.sent)) ∧
    closed.tasks = [] ∧ closed.workspace.get? address = none ∧
      lastPublication? address closed.sent = some stale ∧
      ¬ Publication.IsRight reader address (closed.workspace.get? address)
        (lastPublication? address closed.sent) := by
  intro reader address stale mended closed
  have hrecord : (mended.workspace.get? address).map
      (fun document ↦ (document.version, document.text)) = some (2, "[]") := by decide +kernel
  have hmended : lastPublication? address mended.sent = some stale := by decide +kernel
  have hnone : closed.workspace.get? address = none := by decide +kernel
  have hclosed : lastPublication? address closed.sent = some stale := by decide +kernel
  refine ⟨⟨by decide +kernel, hrecord, hmended, ?_⟩, by decide +kernel, hnone, hclosed, ?_⟩
  · rintro ⟨htracked, -⟩
    obtain ⟨document, hget, hdocument⟩ := Option.map_eq_some_iff.1 hrecord
    have hright := htracked document hget
    have hversion : document.version = 2 := congrArg Prod.fst hdocument
    rw [hmended, hversion] at hright
    have hsame : some (1 : Int32) = some 2 :=
      congrArg Publication.version (Option.some.inj hright)
    exact absurd hsame (by decide)
  · rintro ⟨-, huntracked⟩
    have hright := huntracked hnone stale hclosed
    exact absurd hright (by decide +kernel)

end LinkedJson.Server
