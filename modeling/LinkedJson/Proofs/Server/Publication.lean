import LinkedJson.Proofs.Server.History

/-!
# What an editor is told

An editor sees the diagnostics of a document as they were last published. This module follows the
publications of a session over a run of messages. Each event that changes a record publishes once,
and what it publishes is what the new record gives; all other messages publish nothing and change
nothing. After every run the last publication about a document is therefore that of its record, or
an empty one if it has none.
-/

namespace LinkedJson

/-- The syntax errors that a reader finds in a text; a text that cannot be read has none. -/
def Reader.errors (reader : Reader) (text : String) : List SyntaxError :=
  ((reader text).getD .empty).errors

/-- An error is shown where the lines of the text have it, whatever else is known of a document. -/
theorem Diagnostic.ofError_eq (document : Document) (address : Address) (version : Int32) :
    ofError document = ofError (.ofText address version document.text) := by
  rw [document.eq_ofText_with]
  rfl

namespace Server

/-- The diagnostics of a document and their version, as an editor is told of them. -/
structure Publication where
  address : Address
  list : List Diagnostic
  version : Option Int32
deriving DecidableEq

namespace Publication

/-- The diagnostics of all syntax errors in a text. -/
def ofText (reader : Reader) (address : Address) (version : Int32) (text : String) : Publication :=
  ⟨address, (reader.errors text).map (.ofError (.ofText address version text)), some version⟩

/-- Nothing to show. -/
def cleared (address : Address) : Publication :=
  ⟨address, [], none⟩

/-- What there is to tell about a document: what its text gives, and nothing without a record. -/
def ofRecord (reader : Reader) (address : Address) : Option Document → Publication
  | some document => ofText reader address document.version document.text
  | none => cleared address

theorem address_ofRecord (reader : Reader) (address : Address) (record : Option Document) :
    (ofRecord reader address record).address = address := by
  cases record <;> rfl

/-- The publications about a document. -/
def about (address : Address) (list : List Publication) : List Publication :=
  list.filter (·.address = address)

/-- The last publication about a document. -/
def last? (address : Address) (list : List Publication) : Option Publication :=
  (about address list).getLast?

theorem last?_append_singleton (address : Address) (list : List Publication)
    (publication : Publication) :
    last? address (list ++ [publication]) =
      if publication.address = address then some publication else last? address list := by
  rw [last?, about, List.filter_append]
  by_cases hsame : publication.address = address
  · simp [hsame]
  · simp [hsame, last?, about]

end Publication

def Notice.publication? : Notice → Option Publication
  | log _ _ => none
  | diagnostics address list version => some ⟨address, list, version⟩

/-- The publications among notices, in the order in which they were sent. -/
def publications (notices : List Notice) : List Publication :=
  notices.filterMap Notice.publication?

/-- The last publication about a document. -/
def lastPublication? (address : Address) (notices : List Notice) : Option Publication :=
  Publication.last? address (publications notices)

theorem publications_append (first second : List Notice) :
    publications (first ++ second) = publications first ++ publications second :=
  List.filterMap_append

theorem lastPublication?_append_singleton (address : Address) {first second : List Notice}
    {publication : Publication} (hone : publications second = [publication]) :
    lastPublication? address (first ++ second) =
      if publication.address = address then some publication
      else lastPublication? address first := by
  rw [lastPublication?, publications_append, hone, Publication.last?_append_singleton]
  rfl

/-! ## What events publish -/

theorem publications_publication (reader : Reader) (document : Document) :
    publications (Task.publication reader document) =
      [.ofText reader document.address document.version document.text] := by
  rw [Publication.ofText, ← Diagnostic.ofError_eq]
  rfl

theorem Event.get?_handle_self (reader : Reader) (workspace : Workspace) (event : Event) :
    (event.handle reader workspace).1.get? event.address =
      event.record reader (workspace.get? event.address) := by
  rw [Event.get?_handle, if_pos rfl]

/-- An event changes the record of its document, unless that is a change of a document without a
record. -/
def Event.Counts (workspace : Workspace) : Event → Prop
  | changed address _ _ => (workspace.get? address).isSome = true
  | _ => True

/-- An event that counts publishes once: what its document's new record gives. -/
theorem Event.publications_handle (reader : Reader) {workspace : Workspace} {event : Event}
    (hcounts : event.Counts workspace) :
    publications (event.handle reader workspace).2 =
      [.ofRecord reader event.address
        (event.record reader (workspace.get? event.address))] := by
  cases event with
  | opened address version text =>
    rw [handle_opened, publications_publication]
    rfl
  | changed address version edits =>
    obtain ⟨document, hget⟩ := Option.isSome_iff_exists.1 hcounts
    have haddress := Workspace.address_of_get? hget
    rw [handle_changed hget, publications_publication, Document.address_applyEdits, haddress,
      Event.address, hget]
    rfl
  | closed address =>
    rw [handle_closed]
    rfl

/-- An event that does not count publishes nothing and changes nothing. -/
theorem Event.handle_of_not_counts (reader : Reader) {workspace : Workspace} {event : Event}
    (hcounts : ¬ event.Counts workspace) : event.handle reader workspace = (workspace, []) := by
  cases event with
  | opened | closed => exact absurd trivial hcounts
  | changed address version edits =>
    exact handle_changed_of_get?_eq_none (Option.not_isSome_iff_eq_none.1 hcounts) version edits

/-- The last word on each document is what its record gives. A document that nothing was said about
has no record. -/
def UpToDate (reader : Reader) (notices : List Notice) (workspace : Workspace) : Prop :=
  ∀ address,
    lastPublication? address notices = some (.ofRecord reader address (workspace.get? address)) ∨
    lastPublication? address notices = none ∧ workspace.get? address = none

/-- Handling an event keeps an editor up to date. -/
theorem UpToDate.handle {reader : Reader} {notices : List Notice} {workspace : Workspace}
    (hcurrent : UpToDate reader notices workspace) (event : Event) :
    UpToDate reader (notices ++ (event.handle reader workspace).2)
      (event.handle reader workspace).1 := by
  by_cases hcounts : event.Counts workspace
  · intro address
    have hpublished := event.publications_handle reader hcounts
    rw [lastPublication?_append_singleton address hpublished, Publication.address_ofRecord,
      Event.get?_handle]
    by_cases hsame : event.address = address
    · rw [if_pos hsame, if_pos hsame, hsame]
      exact .inl rfl
    · rw [if_neg hsame, if_neg hsame]
      exact hcurrent address
  · rw [Event.handle_of_not_counts reader hcounts, List.append_nil]
    exact hcurrent

/-! ## What sessions publish -/

theorem Message.event?_of_definition {message : Message}
    (hmethod : Method.ofName message.method = .definition) : message.event? = none := by
  unfold Message.event?
  split
  · rw [hmethod]
    rfl
  · rfl

namespace Session

/-- The notices that a session sends while it handles a message. -/
def sentFor (reader : Reader) (session : Session) (message : Message) : List Notice :=
  ((session.handle reader message).map fun outcome ↦ outcome.2.sent).getD []

/-- All notices that a session sends while it handles messages one after another. -/
def log (reader : Reader) (session : Session) : List Message → List Notice
  | [] => []
  | message :: messages =>
    session.sentFor reader message ++ (session.after reader [message]).log reader messages

theorem after_append (reader : Reader) (session : Session) (first second : List Message) :
    session.after reader (first ++ second) = (session.after reader first).after reader second :=
  List.foldl_append

theorem log_append (reader : Reader) (session : Session) (first second : List Message) :
    session.log reader (first ++ second) =
      session.log reader first ++ (session.after reader first).log reader second := by
  induction first generalizing session with
  | nil => rfl
  | cons message first ih =>
    have hafter : session.after reader (message :: first) =
        (session.after reader [message]).after reader first := rfl
    rw [List.cons_append, log, ih, log, List.append_assoc, hafter]

theorem log_append_singleton (reader : Reader) (session : Session) (messages : List Message)
    (message : Message) :
    session.log reader (messages ++ [message]) =
      session.log reader messages ++ (session.after reader messages).sentFor reader message := by
  rw [log_append, log, log, List.append_nil]

/-- A message about documents makes a running session send what its event does. -/
theorem sentFor_of_isAboutDocuments (reader : Reader) (workspace : Workspace) {message : Message}
    (habout : message.IsAboutDocuments) :
    sentFor reader ⟨.running, workspace⟩ message =
      (message.event?.map fun event ↦ (event.handle reader workspace).2).getD [] := by
  simp only [Message.IsAboutDocuments, List.mem_cons, List.not_mem_nil, or_false] at habout
  rcases habout with hmethod | hmethod | hmethod | hmethod
  case inr.inr.inr =>
    rw [Message.event?_of_definition hmethod]
    simp only [sentFor, handle, hmethod, handleRunning, refusal?, Method.isNotification]
    cases message.id with
    | none => rfl
    | some id =>
      simp only [requested]
      cases message.params.bind readCursor <;> rfl
  all_goals
    simp only [sentFor, handle, hmethod, handleRunning, refusal?, Method.isNotification,
      Message.event?]
    cases message.id with
    | some id => rfl
    | none =>
      cases message.params with
      | none => rfl
      | some params =>
        simp only [notified]
        cases eventOf _ params with
        | some event => rfl
        | none => rfl

theorem after_singleton (reader : Reader) (workspace : Workspace) {message : Message}
    (habout : message.IsAboutDocuments) :
    after reader ⟨.running, workspace⟩ [message] =
      ⟨.running, (message.event?.map fun event ↦ (event.handle reader workspace).1).getD
        workspace⟩ := by
  rw [after, List.foldl_cons, List.foldl_nil,
    fst_handle_of_isAboutDocuments reader workspace habout, Option.getD_some]

/-- An editor is up to date after every run of messages about documents. -/
theorem upToDate_log (reader : Reader) {messages : List Message}
    (habout : ∀ message ∈ messages, message.IsAboutDocuments) :
    UpToDate reader (initialised.log reader messages)
      (initialised.after reader messages).workspace := by
  induction messages using List.reverseRecOn with
  | nil => exact fun address ↦ .inr ⟨rfl, rfl⟩
  | append_singleton messages message ih =>
    obtain ⟨hbefore, hlast⟩ := List.forall_mem_append.1 habout
    have hmessage := hlast message List.mem_cons_self
    have hcurrent := ih hbefore
    rw [log_append_singleton, after_append, after_initialised reader hbefore,
      after_singleton reader _ hmessage, sentFor_of_isAboutDocuments reader _ hmessage]
    rw [after_initialised reader hbefore] at hcurrent
    cases message.event? with
    | none =>
      rw [Option.map_none, Option.getD_none, List.append_nil]
      exact hcurrent
    | some event => exact hcurrent.handle event

end Session

/-- What a message about documents makes a session publish, and what it makes of the records. -/
structure Message.Publishes (reader : Reader) (message : Message) (session next : Session)
    (sent : List Notice) : Prop where
  opened : ∀ {address version text}, message.event? = some (.opened address version text) →
    ∃ document, next.workspace.get? address = some document ∧
      document.version = version ∧ document.text = text ∧
      publications sent = [.ofText reader address version document.text]
  changed : ∀ {address version edits before},
    message.event? = some (.changed address version edits) →
    session.workspace.get? address = some before →
    ∃ document, next.workspace.get? address = some document ∧
      document.version = version ∧ document.text = Edit.applyAll edits before.text ∧
      publications sent = [.ofText reader address version document.text]
  ignored : ∀ {address version edits}, message.event? = some (.changed address version edits) →
    session.workspace.get? address = none → sent = [] ∧ next = session
  closed : ∀ {address}, message.event? = some (.closed address) →
    next.workspace.get? address = none ∧ publications sent = [.cleared address]
  asked : Method.ofName message.method = .definition → sent = [] ∧ next = session
  unread : message.event? = none → sent = [] ∧ next = session

theorem Session.publishes (reader : Reader) {messages : List Message}
    (habout : ∀ message ∈ messages, message.IsAboutDocuments) {message : Message}
    (hmessage : message.IsAboutDocuments) :
    message.Publishes reader (initialised.after reader messages)
      (initialised.after reader (messages ++ [message]))
      ((initialised.after reader messages).sentFor reader message) := by
  rw [after_append, after_initialised reader habout, after_singleton reader _ hmessage,
    sentFor_of_isAboutDocuments reader _ hmessage]
  generalize replay reader (messages.filterMap Message.event?) = workspace
  have hunread : message.event? = none →
      (message.event?.map fun event ↦ (event.handle reader workspace).2).getD [] = [] ∧
      (⟨.running, (message.event?.map fun event ↦ (event.handle reader workspace).1).getD
        workspace⟩ : Session) = ⟨.running, workspace⟩ := by
    intro hevent
    rw [hevent]
    exact ⟨rfl, rfl⟩
  constructor
  case asked => exact fun hmethod ↦ hunread (Message.event?_of_definition hmethod)
  case unread => exact hunread
  case opened =>
    intro address version text hevent
    rw [hevent]
    exact ⟨_, (Event.opened address version text).get?_handle_self reader workspace, rfl, rfl,
      (Event.opened address version text).publications_handle reader trivial⟩
  case changed =>
    intro address version edits before hevent hbefore
    rw [hevent]
    have hget := (Event.changed address version edits).get?_handle_self reader workspace
    have hcounts : (Event.changed address version edits).Counts workspace :=
      Option.isSome_iff_exists.2 ⟨before, hbefore⟩
    have hpublished :=
      (Event.changed address version edits).publications_handle reader hcounts
    change workspace.get? address = some before at hbefore
    rw [Event.address, hbefore] at hget hpublished
    exact ⟨_, hget, rfl, Document.text_applyEdits _ version edits, hpublished⟩
  case ignored =>
    intro address version edits hevent hget
    rw [hevent]
    have hcounts : ¬ (Event.changed address version edits).Counts workspace :=
      Option.not_isSome_iff_eq_none.2 hget
    rw [Option.map_some, Option.map_some, Event.handle_of_not_counts reader hcounts]
    exact ⟨rfl, rfl⟩
  case closed =>
    intro address hevent
    rw [hevent]
    exact ⟨(Event.closed address).get?_handle_self reader workspace,
      (Event.closed address).publications_handle reader trivial⟩

/-- While messages about documents are handled one after another, each message that changes a
record publishes the diagnostics of the new record once, and no other message publishes or changes
anything. After every run the last publication about an open document has the diagnostics and the
version of its text, and the last one about any other document is empty. -/
theorem diagnostics_never_stale (reader : Reader) (messages : List Message)
    (habout : ∀ message ∈ messages, message.IsAboutDocuments) :
    let session := Session.initialised.after reader messages
    let notices := Session.initialised.log reader messages
    (∀ message : Message, message.IsAboutDocuments →
      message.Publishes reader session (Session.initialised.after reader (messages ++ [message]))
        (session.sentFor reader message)) ∧
    (∀ address document, session.workspace.get? address = some document →
      lastPublication? address notices =
        some (.ofText reader address document.version document.text)) ∧
    ∀ address publication, session.workspace.get? address = none →
      lastPublication? address notices = some publication → publication = .cleared address := by
  intro session notices
  have hcurrent := Session.upToDate_log reader habout
  refine ⟨fun message hmessage ↦ Session.publishes reader habout hmessage, ?_, ?_⟩
  · intro address document hget
    rcases hcurrent address with hlast | ⟨-, hnone⟩
    · rw [hlast, hget]
      rfl
    · rw [hget] at hnone
      cases hnone
  · intro address publication hget hpublication
    rcases hcurrent address with hlast | ⟨hlast, -⟩
    · rw [hpublication, hget] at hlast
      exact Option.some.inj hlast
    · rw [hpublication] at hlast
      cases hlast

/-- The mistake in a new document is shown, and no longer shown once it has been edited away. -/
theorem diagnostics_never_stale_mended :
    let reader := Recovery.reader fun _ ↦ none
    let address : Address := ⟨"a", none, .rootless "b", none, none⟩
    let opening := Message.opening "a:b" 1 "[] 1"
    let session := Session.initialised.after reader [opening]
    opening.IsAboutDocuments ∧
    (∃ document, session.workspace.get? address = some document ∧
      document.version = 1 ∧ document.text = "[] 1") ∧
    lastPublication? address (Session.initialised.log reader [opening]) =
      some ⟨address, [⟨⟨⟨0, 3⟩, ⟨0, 4⟩⟩, 9, "End of file expected"⟩], some 1⟩ ∧
    publications (session.sentFor reader (.replacement "a:b" 2 0 2 4 "")) =
      [⟨address, [], some 2⟩] := by
  intro reader address opening session
  have hopening : opening.IsAboutDocuments := by
    simp [opening, Message.IsAboutDocuments, Message.opening, Method.ofName]
  have hrepair : (Message.replacement "a:b" 2 0 2 4 "").IsAboutDocuments := by
    simp [Message.IsAboutDocuments, Message.replacement, Method.ofName]
  have hevent : opening.event? = some (.opened address 1 "[] 1") := by decide +kernel
  have hedit : (Message.replacement "a:b" 2 0 2 4 "").event? =
      some (.changed address 2 [⟨some ⟨⟨0, 2⟩, ⟨0, 4⟩⟩, ""⟩]) := by decide +kernel
  obtain ⟨hstart, -, -⟩ := diagnostics_never_stale reader [] (by simp)
  obtain ⟨hnext, hlast, -⟩ :=
    diagnostics_never_stale reader [opening] (List.forall_mem_singleton.2 hopening)
  obtain ⟨document, hget, hversion, htext, -⟩ := (hstart opening hopening).opened hevent
  obtain ⟨mended, -, -, hmended, hpublished⟩ := (hnext _ hrepair).changed hedit hget
  refine ⟨hopening, ⟨document, hget, hversion, htext⟩, ?_, ?_⟩
  · rw [hlast address document hget, hversion, htext]
    decide +kernel
  · rw [hpublished, hmended, htext]
    decide +kernel

end Server

end LinkedJson
