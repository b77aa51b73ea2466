import LinkedJson.Proofs.Edits
import LinkedJson.Proofs.Server.Handlers
import LinkedJson.Server.Session
import Mathlib.Data.List.DropRight

/-!
# Sessions and their histories

A session keeps a record for every open document: its version, its text, and two things derived from
the text, the line index and the symbol table. This module shows that nothing else is kept. The
record of a document after a run of messages is a function of what was said about that document
since it was last opened, and its derived parts are those of its text. Two runs that leave the same
versions and texts behind therefore answer every question about definitions in the same way.

The history of a document is read off the list of events by `Event.lastBoundary?`, its last opening
or closing, and `Event.changesSince`, the changes after that.
-/

namespace LinkedJson

/-- The value that a reader finds in a text; a text that cannot be read has none. -/
def Reader.root (reader : Reader) (text : String) : Option Node :=
  ((reader text).getD .empty).root

namespace Document

/-- The record of a document that was opened and analysed. -/
def analysed (reader : Reader) (address : Address) (version : Int32) (text : String) : Document :=
  (ofText address version text).analysedBy reader

theorem analysedBy_eq (reader : Reader) (document : Document) :
    document.analysedBy reader =
      analysed reader document.address document.version document.text := by
  rw [eq_ofText_with document]
  rfl

/-- Editing an analysed document and analysing it again leads to the record that the edited text
would have had from the start. -/
theorem analysedBy_applyEdits_analysed (reader : Reader) (address : Address)
    (opened version : Int32) (text : String) (edits : List Edit) :
    ((analysed reader address opened text).applyEdits version edits).analysedBy reader =
      analysed reader address version (Edit.applyAll edits text) := by
  rw [applyEdits_eq_ofText]
  rfl

end Document

namespace Server

namespace Event

/-- Whether an event begins or ends the time for which its document is open. -/
def isBoundary : Event → Bool
  | opened _ _ _ => true
  | changed _ _ _ => false
  | closed _ => true

/-- The version and the edits of a change. -/
def change? : Event → Option (Int32 × List Edit)
  | changed _ version edits => some (version, edits)
  | _ => none

/-- The events about a document. -/
def about (address : Address) (events : List Event) : List Event :=
  events.filter fun event ↦ event.address = address

/-- The last opening or closing of a document. -/
def lastBoundary? (address : Address) (events : List Event) : Option Event :=
  ((about address events).filter isBoundary).getLast?

/-- The changes of a document since its last opening or closing, in the order in which they came. -/
def changesSince (address : Address) (events : List Event) : List (Int32 × List Edit) :=
  ((about address events).rtakeWhile fun event ↦ !event.isBoundary).filterMap change?

/-- The version that a document has after changes. -/
def latestVersion (opened : Int32) (changes : List (Int32 × List Edit)) : Int32 :=
  (changes.getLast?.map Prod.fst).getD opened

/-- The text that a document has after changes. -/
def latestText (opened : String) (changes : List (Int32 × List Edit)) : String :=
  Edit.applyAll (changes.flatMap Prod.snd) opened

/-- The record that the history of a document leads to. -/
def recorded (reader : Reader) (address : Address) (events : List Event) : Option Document :=
  match lastBoundary? address events with
  | some (opened _ version text) =>
    some (.analysed reader address (latestVersion version (changesSince address events))
      (latestText text (changesSince address events)))
  | _ => none

theorem about_append (address : Address) (first second : List Event) :
    about address (first ++ second) = about address first ++ about address second :=
  List.filter_append ..

theorem about_singleton_self {event : Event} : about event.address [event] = [event] := by
  simp [about]

theorem about_singleton_of_ne {event : Event} {address : Address}
    (hother : event.address ≠ address) : about address [event] = [] := by
  simp [about, hother]

/-- An event about another document does not show in a history. -/
theorem recorded_append_of_ne (reader : Reader) (event : Event) {address : Address}
    (hother : event.address ≠ address) (events : List Event) :
    recorded reader address (events ++ [event]) = recorded reader address events := by
  unfold recorded lastBoundary? changesSince
  rw [about_append, about_singleton_of_ne hother, List.append_nil]

theorem lastBoundary?_append_self (event : Event) (hboundary : event.isBoundary = true)
    (events : List Event) :
    lastBoundary? event.address (events ++ [event]) = some event := by
  unfold lastBoundary?
  rw [about_append, about_singleton_self, List.filter_append]
  simp [hboundary]

theorem lastBoundary?_append_changed (address : Address) (version : Int32) (edits : List Edit)
    (events : List Event) :
    lastBoundary? address (events ++ [changed address version edits]) =
      lastBoundary? address events := by
  unfold lastBoundary?
  rw [about_append, List.filter_append]
  simp [about, isBoundary]

theorem changesSince_append_self (event : Event) (hboundary : event.isBoundary = true)
    (events : List Event) : changesSince event.address (events ++ [event]) = [] := by
  unfold changesSince
  rw [about_append, about_singleton_self, List.rtakeWhile_concat_neg _ _ _ (by simp [hboundary])]
  rfl

theorem changesSince_append_changed (address : Address) (version : Int32) (edits : List Edit)
    (events : List Event) :
    changesSince address (events ++ [changed address version edits]) =
      changesSince address events ++ [(version, edits)] := by
  unfold changesSince
  rw [about_append]
  have hown : about address [changed address version edits] = [changed address version edits] :=
    about_singleton_self
  rw [hown, List.rtakeWhile_concat_pos _ _ _ (by simp [isBoundary]), List.filterMap_append]
  rfl

theorem latestVersion_append (opened version : Int32) (changes : List (Int32 × List Edit))
    (edits : List Edit) : latestVersion opened (changes ++ [(version, edits)]) = version := by
  simp [latestVersion]

theorem latestText_append (opened : String) (version : Int32)
    (changes : List (Int32 × List Edit)) (edits : List Edit) :
    latestText opened (changes ++ [(version, edits)]) =
      Edit.applyAll edits (latestText opened changes) := by
  unfold latestText
  rw [List.flatMap_append, Edit.applyAll_append]
  simp

/-- One more event about a document changes the record that its history leads to in the same way as
handling the event changes the record that is kept. -/
theorem recorded_append_self (reader : Reader) (event : Event) (events : List Event) :
    recorded reader event.address (events ++ [event]) =
      event.record reader (recorded reader event.address events) := by
  cases event with
  | opened address version text =>
    have hlast := lastBoundary?_append_self (opened address version text) rfl events
    have hchanges := changesSince_append_self (opened address version text) rfl events
    simp only [recorded, hlast, hchanges]
    rfl
  | changed address version edits =>
    simp only [recorded, Event.address, lastBoundary?_append_changed, changesSince_append_changed,
      latestVersion_append, latestText_append, record]
    split
    · rw [Option.map_some, Document.analysedBy_applyEdits_analysed]
    · rfl
  | closed address =>
    have hlast := lastBoundary?_append_self (closed address) rfl events
    simp only [recorded, hlast]
    rfl

/-- The last opening or closing of a document is an event about it. -/
theorem address_of_lastBoundary? {address : Address} {events : List Event} {event : Event}
    (hlast : lastBoundary? address events = some event) : event.address = address := by
  have hmem := List.mem_of_getLast? hlast
  simpa using (List.mem_filter.mp (List.mem_of_mem_filter hmem)).2

theorem isSome_recorded_iff (reader : Reader) (address : Address) (events : List Event) :
    (recorded reader address events).isSome = true ↔
      ∃ version text, lastBoundary? address events = some (opened address version text) := by
  unfold recorded
  constructor
  · intro hsome
    split at hsome
    · next openedAt version text hlast =>
      have haddress : openedAt = address := address_of_lastBoundary? hlast
      exact ⟨version, text, by rw [hlast, haddress]⟩
    · cases hsome
  · rintro ⟨version, text, hlast⟩
    rw [hlast]
    rfl

/-- The record of a history is determined by the version and the text that the history leads to. -/
theorem eq_analysed_of_recorded {reader : Reader} {address : Address} {events : List Event}
    {document : Document} (hrecorded : recorded reader address events = some document) :
    document = .analysed reader address document.version document.text := by
  unfold recorded at hrecorded
  split at hrecorded
  · cases hrecorded
    rfl
  · cases hrecorded

/-- Only the events about a document count in its history. -/
theorem recorded_about (reader : Reader) (address : Address) (events : List Event) :
    recorded reader address (about address events) = recorded reader address events := by
  have habout : about address (about address events) = about address events := by
    simp [about]
  unfold recorded lastBoundary? changesSince
  rw [habout]

end Event

/-- The workspace after events that are handled one after another. -/
def replay (reader : Reader) (events : List Event) : Workspace :=
  events.foldl (fun workspace event ↦ (event.handle reader workspace).1) .empty

/-- Replaying events leaves behind the record that each document's own history leads to. -/
theorem get?_replay (reader : Reader) (events : List Event) (address : Address) :
    (replay reader events).get? address = Event.recorded reader address events := by
  -- The history looks back from the last event, so the induction runs from the end.
  induction events using List.reverseRecOn with
  | nil => rfl
  | append_singleton events event ih =>
    have hstep : replay reader (events ++ [event]) =
        (event.handle reader (replay reader events)).1 := by
      rw [replay, List.foldl_append]
      rfl
    rw [hstep, Event.get?_handle, ih]
    by_cases hsame : event.address = address
    · subst hsame
      rw [if_pos rfl, Event.recorded_append_self]
    · rw [if_neg hsame, Event.recorded_append_of_ne reader event hsame]

/-- Histories that lead to the same versions and texts leave the same records behind. -/
theorem get?_replay_congr (reader : Reader) {first second : List Event} (address : Address)
    (hsame : ((replay reader first).get? address).map (fun document ↦
        (document.version, document.text)) =
      ((replay reader second).get? address).map fun document ↦
        (document.version, document.text)) :
    (replay reader first).get? address = (replay reader second).get? address := by
  rw [get?_replay, get?_replay] at hsame ⊢
  cases hfirst : Event.recorded reader address first with
  | none =>
    rw [hfirst, Option.map_none] at hsame
    exact (Option.map_eq_none_iff.mp hsame.symm).symm
  | some document =>
    rw [hfirst, Option.map_some] at hsame
    obtain ⟨other, hsecond, hpair⟩ := Option.map_eq_some_iff.mp hsame.symm
    obtain ⟨hversion, htext⟩ := Prod.mk.inj hpair
    rw [hsecond, Event.eq_analysed_of_recorded hfirst, Event.eq_analysed_of_recorded hsecond,
      hversion, htext]

/-- Opening a document afresh with the version and the text that it has changes no record. -/
theorem get?_replay_append_opened (reader : Reader) {events : List Event} {address : Address}
    {document : Document} (hget : (replay reader events).get? address = some document)
    (place : Address) :
    (replay reader (events ++ [.opened address document.version document.text])).get? place =
      (replay reader events).get? place := by
  rw [get?_replay] at hget
  rw [get?_replay, get?_replay]
  by_cases hsame : address = place
  · subst hsame
    have hstep := Event.recorded_append_self reader
      (.opened address document.version document.text) events
    rw [hget, Event.eq_analysed_of_recorded hget]
    exact hstep
  · exact Event.recorded_append_of_ne reader (.opened ..) hsame events

/-- The answers about definitions depend on a workspace through its records only. -/
theorem definition_congr {first second : Workspace}
    (hget : ∀ address, first.get? address = second.get? address) (address : Address)
    (position : Position) :
    first.definition address position = second.definition address position := by
  have htarget : first.targetRange = second.targetRange := by
    funext target
    rw [Workspace.targetRange, Workspace.targetRange, hget]
  unfold Workspace.definition Workspace.definitionAt
  rw [hget, htarget]

/-- The event that a message tells of. -/
def Message.event? (message : Message) : Option Event :=
  match message.id, message.params with
  | none, some params => Session.eventOf (Method.ofName message.method) params
  | _, _ => none

/-- A message is about documents if it tells that one was opened, changed or closed, or asks for a
definition. -/
def Message.IsAboutDocuments (message : Message) : Prop :=
  Method.ofName message.method ∈ [Method.didOpen, .didChange, .didClose, .definition]

namespace Session

/-- A session that has been initialised and has no open documents. -/
def initialised : Session := ⟨.running, .empty⟩

/-- The session after messages that are handled one after another. -/
def after (reader : Reader) (session : Session) (messages : List Message) : Session :=
  messages.foldl
    (fun session message ↦ ((session.handle reader message).map Prod.fst).getD session) session

/-- A notification about documents acts on a running session through the event that it tells of. -/
theorem fst_handleRunning_of_isNotification (reader : Reader) (workspace : Workspace)
    {method : Method} (hnotification : method.isNotification = true)
    {message : Message} (hmethod : Method.ofName message.method = method) :
    (handleRunning reader ⟨.running, workspace⟩ method message).1 =
      ⟨.running, (message.event?.map fun event ↦ (event.handle reader workspace).1).getD
        workspace⟩ := by
  unfold handleRunning Message.event?
  simp only [refusal?, hnotification, hmethod]
  cases message.id with
  | some id => rfl
  | none =>
    cases message.params with
    | none => rfl
    | some params =>
      simp only [notified]
      cases eventOf method params with
      | some event => rfl
      | none =>
        simp only [Option.map_none, Option.getD_none]
        split <;> rfl

/-- A message about documents changes a running session by the event that it tells of, if any. -/
theorem fst_handle_of_isAboutDocuments (reader : Reader) (workspace : Workspace)
    {message : Message} (habout : message.IsAboutDocuments) :
    (handle reader ⟨.running, workspace⟩ message).map Prod.fst =
      some ⟨.running, (message.event?.map fun event ↦ (event.handle reader workspace).1).getD
        workspace⟩ := by
  simp only [Message.IsAboutDocuments, List.mem_cons, List.not_mem_nil, or_false] at habout
  rcases habout with hmethod | hmethod | hmethod | hmethod
  case inr.inr.inr =>
    have hnone : message.event? = none := by
      unfold Message.event?
      split
      · rw [hmethod]; rfl
      · rfl
    simp only [handle, hmethod, hnone, handleRunning, refusal?, Method.isNotification]
    cases message.id <;> rfl
  all_goals
    have hrunning := fst_handleRunning_of_isNotification reader workspace rfl hmethod
    simp only [handle, hmethod]
    exact congrArg some hrunning

/-- Messages about documents lead an initialised session to the workspace that the events they tell
of lead to. -/
theorem after_initialised (reader : Reader) {messages : List Message}
    (habout : ∀ message ∈ messages, message.IsAboutDocuments) :
    initialised.after reader messages =
      ⟨.running, replay reader (messages.filterMap Message.event?)⟩ := by
  suffices hfrom : ∀ workspace, after reader ⟨.running, workspace⟩ messages =
      ⟨.running, (messages.filterMap Message.event?).foldl
        (fun workspace event ↦ (event.handle reader workspace).1) workspace⟩ from hfrom .empty
  induction messages with
  | nil => exact fun _ ↦ rfl
  | cons message messages ih =>
    intro workspace
    have hfirst := fst_handle_of_isAboutDocuments reader workspace
      (habout message List.mem_cons_self)
    have hrest := ih fun other hmem ↦ habout other (List.mem_cons_of_mem _ hmem)
    unfold after at hrest ⊢
    rw [List.foldl_cons, hfirst, Option.getD_some, hrest, List.filterMap_cons]
    cases message.event? <;> rfl

/-- A running session answers a question about a definition from what its workspace gives for it. -/
theorem handle_definition_congr (reader : Reader) {first second : Workspace}
    (hdefinition : ∀ address position,
      first.definition address position = second.definition address position)
    {request : Message} (hmethod : Method.ofName request.method = .definition) :
    (handle reader ⟨.running, first⟩ request).map Prod.snd =
      (handle reader ⟨.running, second⟩ request).map Prod.snd := by
  simp only [handle, hmethod, handleRunning, refusal?, Method.isNotification]
  cases request.id with
  | none => rfl
  | some id => simp [requested, hdefinition]

end Session

/-- A message that tells of an event is about documents. -/
theorem Message.isAboutDocuments_of_event? {message : Message} {event : Event}
    (hevent : message.event? = some event) : message.IsAboutDocuments := by
  unfold Message.event? at hevent
  unfold IsAboutDocuments
  split at hevent
  · cases hmethod : Method.ofName message.method <;> simp [hmethod, Session.eventOf] at hevent ⊢
  · cases hevent

/-- The events of a document among messages come from the messages that tell of it. -/
theorem filterMap_event?_filter (address : Address) (messages : List Message) :
    (messages.filter fun message ↦ message.event?.any (·.address = address)).filterMap
        Message.event? =
      Event.about address (messages.filterMap Message.event?) := by
  induction messages with
  | nil => rfl
  | cons message messages ih =>
    cases hevent : message.event? with
    | none => simp [hevent, ih]
    | some event =>
      by_cases hsame : event.address = address
      · simp [hevent, hsame, ih, Event.about]
      · simp [hevent, hsame, ih, Event.about]

/-- The state of a session is determined by the histories of its documents. A document is open if
and only if its last opening or closing was an opening; its record then has the version of the last
message about it, the text of the opening with all later edits, and what is derived from that text.
Other messages do not matter. Sessions with the same versions and texts give the same answers, and
so does one in which a document is opened afresh with the text that it has. -/
theorem session_determined_by_histories (reader : Reader) (messages others : List Message)
    (hmessages : ∀ message ∈ messages, message.IsAboutDocuments)
    (hothers : ∀ message ∈ others, message.IsAboutDocuments) (address : Address) :
    let session := Session.initialised.after reader messages
    let other := Session.initialised.after reader others
    let events := messages.filterMap Message.event?
    let changes := Event.changesSince address events
    ((session.workspace.get? address).isSome = true ↔
      ∃ version text, Event.lastBoundary? address events = some (.opened address version text)) ∧
    (∀ version text, Event.lastBoundary? address events = some (.opened address version text) →
      ∃ document, session.workspace.get? address = some document ∧
        document.address = address ∧
        document.version = ((changes.getLast?.map Prod.fst).getD version) ∧
        document.text = Edit.applyAll (changes.flatMap Prod.snd) text ∧
        document.lines = .ofText document.text ∧
        document.symbols = .ofRoot (reader.root document.text)) ∧
    session.workspace.get? address =
      (Session.initialised.after reader
        (messages.filter fun message ↦
          message.event?.any (·.address = address))).workspace.get? address ∧
    ((∀ place, (session.workspace.get? place).map (fun document ↦
          (document.version, document.text)) =
        (other.workspace.get? place).map fun document ↦ (document.version, document.text)) →
      (∀ place position, session.workspace.definition place position =
        other.workspace.definition place position) ∧
      ∀ request, Method.ofName request.method = .definition →
        (session.handle reader request).map Prod.snd =
          (other.handle reader request).map Prod.snd) ∧
    (∀ document opening, session.workspace.get? address = some document →
      opening.event? = some (.opened address document.version document.text) →
      ∀ request, Method.ofName request.method = .definition →
        (session.handle reader request).map Prod.snd =
          ((Session.initialised.after reader (messages ++ [opening])).handle reader
            request).map Prod.snd) := by
  intro session other events changes
  have hsession : session = ⟨.running, replay reader events⟩ :=
    Session.after_initialised reader hmessages
  have hother : other = ⟨.running, replay reader (others.filterMap Message.event?)⟩ :=
    Session.after_initialised reader hothers
  rw [hsession, hother]
  refine ⟨?_, ?_, ?_, ?_, ?_⟩
  · rw [get?_replay]
    exact Event.isSome_recorded_iff reader address events
  · intro version text hlast
    have hrecorded : Event.recorded reader address events = some (.analysed reader address
        (Event.latestVersion version changes) (Event.latestText text changes)) := by
      rw [Event.recorded, hlast]
    exact ⟨_, (get?_replay reader events address).trans hrecorded, rfl, rfl, rfl, rfl, rfl⟩
  · have hown : ∀ message ∈ messages.filter (fun message ↦
        message.event?.any (·.address = address)), message.IsAboutDocuments :=
      fun message hmem ↦ hmessages message (List.mem_of_mem_filter hmem)
    rw [Session.after_initialised reader hown, filterMap_event?_filter, get?_replay, get?_replay,
      Event.recorded_about]
  · intro hsame
    have hdefinition := definition_congr fun place ↦ get?_replay_congr reader place (hsame place)
    exact ⟨hdefinition, fun request ↦ Session.handle_definition_congr reader hdefinition⟩
  · intro document opening hget hopening request hmethod
    have hfresh : ∀ message ∈ messages ++ [opening], message.IsAboutDocuments := by
      intro message hmem
      rcases List.mem_append.mp hmem with hold | hnew
      · exact hmessages message hold
      · rw [List.mem_singleton.mp hnew]
        exact Message.isAboutDocuments_of_event? hopening
    rw [Session.after_initialised reader hfresh, List.filterMap_append,
      List.filterMap_cons_some hopening, List.filterMap_nil]
    exact Session.handle_definition_congr reader
      (definition_congr fun place ↦ (get?_replay_append_opened reader hget place).symm) hmethod

/-- The notification that a document was opened. -/
def Message.opening (uri : String) (version : Int) (text : String) : Message :=
  { method := "textDocument/didOpen"
    id := none
    params := some (.object [("textDocument", .object [("uri", .string uri),
      ("languageId", .string "json"), ("version", .int version), ("text", .string text)])]) }

/-- The notification that a part of one line of a document was replaced. -/
def Message.replacement (uri : String) (version line start stop : Int) (text : String) : Message :=
  let position (character : Int) : Value :=
    .object [("line", .int line), ("character", .int character)]
  { method := "textDocument/didChange"
    id := none
    params := some (.object [
      ("textDocument", .object [("uri", .string uri), ("version", .int version)]),
      ("contentChanges", .array [.object [
        ("range", .object [("start", position start), ("end", position stop)]),
        ("text", .string text)]])]) }

theorem session_determined_by_histories_replacement :
    let reader := Recovery.reader fun _ ↦ none
    let address : Address := ⟨"a", none, .rootless "b", none, none⟩
    let messages := [.opening "a:b" 1 "[1]", .opening "a:c" 5 "[]",
      .replacement "a:b" 2 0 1 2 "\"é\""]
    let edited := Session.initialised.after reader messages
    let reopened := Session.initialised.after reader
      (messages ++ [.opening "a:b" 2 "[\"é\"]"])
    (∃ document, edited.workspace.get? address = some document ∧ document.version = 2 ∧
      document.text = "[\"é\"]") ∧
    ∀ request, Method.ofName request.method = .definition →
      (edited.handle reader request).map Prod.snd =
        (reopened.handle reader request).map Prod.snd := by
  intro reader address messages edited reopened
  have habout : ∀ message ∈ messages, message.IsAboutDocuments := by
    simp [messages, Message.IsAboutDocuments, Message.opening, Message.replacement, Method.ofName]
  obtain ⟨-, hrecord, -, -, hfresh⟩ :=
    session_determined_by_histories reader messages [] habout (by simp) address
  obtain ⟨document, hget, -, hversion, htext, -, -⟩ := hrecord 1 "[1]" rfl
  have hlatest : document.version = 2 := hversion
  have hfinal : document.text = "[\"é\"]" := htext.trans (by decide +kernel)
  refine ⟨⟨document, hget, hlatest, hfinal⟩, hfresh document _ hget ?_⟩
  rw [hlatest, hfinal]
  rfl

end Server

end LinkedJson
