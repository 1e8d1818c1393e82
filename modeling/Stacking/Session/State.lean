import Stacking.Analysis
import Stacking.Session.Time
import Stacking.Settings
import Stacking.Table

/-!
# The state of a session

A session keeps the documents an editor has open, the latest findings for each, and the batches of
documents that wait for an analysis. It tells the outside what happens by events. Listeners may act
on the session from within an event; each such `Hook` acts at most once.
-/

namespace Stacking

/-- The text of an open document and its version. -/
structure OpenDocument where
  text : Text
  version : Int
deriving DecidableEq

/-! ## Batches -/

/-- The documents of a batch: their addresses in ascending order, each once. -/
abbrev BatchKey := List String

namespace BatchKey

/-- The key with one more address. -/
def insert (uri : String) : BatchKey → BatchKey
  | [] => [uri]
  | u :: rest =>
    if uri = u then u :: rest
    else if uri < u then uri :: u :: rest
    else u :: BatchKey.insert uri rest

/-- The key of a collection of addresses. -/
def ofList (uris : List String) : BatchKey := uris.foldr insert []

end BatchKey

/-- A batch that waits for its analysis. -/
structure Batch (τ : Type) where
  /-- When the first of the changes came that are analysed together. -/
  first : τ
  /-- The timer that starts the analysis. -/
  timer : Nat
  /-- Whether the wait is cut short because the first change is too long ago. -/
  forced : Bool
deriving DecidableEq

/-- A timer that is set and has not gone off. -/
structure Timer (τ : Type) where
  id : Nat
  due : τ
  key : BatchKey
deriving DecidableEq

/-! ## Events -/

/-- What a session tells the outside. -/
inductive Event (τ : Type) where
  /-- There are new findings for a document. -/
  | updated (uri : String) (result : Analysis)
  /-- A version of a document could not be analysed; the findings before it stay. -/
  | failed (uri : String) (version : Int) (error : String)
  /-- Ongoing changes put an analysis off for as long as is allowed, here for `waited`. -/
  | overrun (uris : BatchKey) (waited : τ)
  /-- A document is closed and its findings are gone. -/
  | forgotten (uri : String)
deriving DecidableEq

/-- An entry of a session's journal. -/
inductive Notice (τ : Type) where
  | event (event : Event τ)
  /-- A document of a batch was closed before the batch was analysed. -/
  | skipped (uri : String)
  /-- A document was opened, maybe again. -/
  | opened (uri : String)
  /-- The text of a document that was opened or changed was taken over. -/
  | received (uri : String) (version : Int) (time : τ)
  /-- Something came that calls for an analysis of a batch; it joined a batch if one of that key was
  waiting. -/
  | triggered (key : BatchKey) (time : τ) (joined : Bool)
  /-- The wait of a batch was over, as its timer went off or a change came too late to put it off;
  the first of its changes is said to have come at the given time. -/
  | ripened (key : BatchKey) (first : τ) (forced : Bool) (time : τ)
deriving DecidableEq

/-! ## Steps and hooks -/

/-- What is done to a session. -/
inductive Step where
  | openDocument (uri : String) (text : Text) (version : Int)
  | changeDocument (uri : String) (text : Text) (version : Int)
  | closeDocument (uri : String)
  | showDocuments (uris : List String)
  | activate (uri : Option String)
  /-- Something that is no event is reported. -/
  | unsupported (value : Datum)
  /-- Analyses every waiting batch at once. -/
  | flush
  /-- Drops every waiting batch. -/
  | shutdown
  /-- Lets the clock run; timers that are due go off. -/
  | advance (millis : Int)
  /-- Lets the clock run while the host is busy and no timer goes off. -/
  | stall (millis : Int)
  /-- Replaces a document without telling anyone. -/
  | placeDocument (uri : String) (text : Text) (version : Int)
  /-- Replaces a document by a newer version without telling anyone. -/
  | reviseDocument (uri : String) (text : Text) (version : Int)
  /-- Takes a document away without telling anyone. -/
  | dropDocument (uri : String)
  /-- Hands in findings from elsewhere. -/
  | submitResult (result : Analysis)

/-- A listener that acts once: told the current event and the events before it, the latest first, it
says what it does, if it acts now. -/
structure Hook (τ : Type) where
  respond : Event τ → List (Event τ) → Option Step

/-- Why a step is refused. -/
inductive StepFault where
  /-- What was reported is no event. -/
  | unsupportedEvent (value : Datum)
  /-- A batch that was about to be analysed is gone. -/
  | batchGone
  /-- A time is too long for the clock. -/
  | beyondClock

/-- The wording of a fault; there is none for a batch that is gone. -/
def StepFault.message? : StepFault → Option String
  | .unsupportedEvent value => some ("Unsupported event: " ++ value.render)
  | .batchGone => none
  | .beyondClock => some "int too large to convert to float"

/-! ## Sessions -/

/-- A session, on a clock with times `τ`. -/
structure Session (τ : Type) where
  settings : Settings
  documents : Table String OpenDocument := {}
  visible : List String := []
  active : Option String := none
  /-- The latest findings of each document. -/
  results : Table String Analysis := {}
  /-- The version of each document that could not be analysed. -/
  failed : Table String Int := {}
  /-- Documents that were opened again and whose findings may stem from another text. -/
  reopened : List String := []
  pending : Table BatchKey (Batch τ) := {}
  /-- The timers that are set, in the order in which they were set. -/
  timers : List (Timer τ) := []
  nextTimer : Nat := 0
  /-- How many analyses have been made. -/
  runs : Nat := 0
  /-- The milliseconds that have passed. -/
  millis : Int := 0
  /-- What the clock shows. -/
  now : τ
  /-- What has happened, the latest first. -/
  journal : List (Notice τ) := []
  /-- The listeners that have not acted yet, by number. -/
  hooks : List (Nat × Hook τ) := []

namespace Session

variable {τ : Type}

/-- A session that starts at time zero. -/
def new [TimeScale τ] (settings : Settings) (hooks : List (Hook τ)) : Session τ :=
  { settings
    now := TimeScale.zero
    hooks := hooks.zipIdx.map fun (hook, id) => (id, hook) }

/-- The events of a session so far, the latest first. -/
def events (s : Session τ) : List (Event τ) :=
  s.journal.filterMap fun
    | .event e => some e
    | _ => none

/-- Puts an entry into the journal. -/
def note (s : Session τ) (n : Notice τ) : Session τ := { s with journal := n :: s.journal }

/-- Notes that an analysis of a batch is called for. -/
def trigger (key : BatchKey) (s : Session τ) : Session τ :=
  s.note (.triggered key s.now (s.pending.contains key))

/-- What the findings of the session are published with. -/
def publication (s : Session τ) : Publication := ⟨s.settings.helpUri, s.settings.source⟩

/-- The latest findings of a document. -/
def result? (s : Session τ) (uri : String) : Option Analysis := s.results.get? uri

/-- Whether a document is open and its latest text has not been analysed. -/
def needsAnalysis (s : Session τ) (uri : String) : Bool :=
  match s.documents.get? uri with
  | none => false
  | some d =>
    if s.failed.get? uri = some d.version then false
    else if s.reopened.contains uri then true
    else
      match s.results.get? uri with
      | none => true
      | some r => r.version < d.version

end Session
end Stacking
