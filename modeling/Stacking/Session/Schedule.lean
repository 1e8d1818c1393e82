import Stacking.Session.State

/-!
# Scheduling

When documents are analysed. Changes to the same documents are gathered into one batch, which is
analysed when nothing has changed for the debounce time, or when the longest wait since the first of
the changes is over.

Every operation that emits events takes a function `react`: what the outside makes of an event,
which may be any change of the session.

An analysis ends with findings or with a parse error (`Analysis.ofText`), and these are the two ways
in which `run` goes on. A host may cut an analysis short for reasons of its own, such as a text that
nests deeper than its call stack allows, and then mark the version as failed with a message of its
own; that limit of the host and what follows from it are left out here, and texts may nest to any
depth. So is the host's limit on how deep listeners act within each other, which is modelled for the
event bus alone (`Dispatch.maxDepth`).
-/

namespace Stacking
namespace Session

variable {τ : Type} [TimeScale τ] (react : Event τ → Session τ → Session τ)

/-! ## Analysing -/

/-- Takes findings over and tells about them, unless there are findings of a newer version. Says
whether they were taken. -/
def store (result : Analysis) (s : Session τ) : Session τ × Bool :=
  let stale :=
    match s.results.get? result.uri with
    | none => false
    | some current => current.version > result.version && !s.reopened.contains result.uri
  if stale then (s, false)
  else
    let s := { s with
      results := s.results.put result.uri result
      failed := s.failed.erase result.uri
      reopened := s.reopened.filter (· ≠ result.uri) }
    (react (.updated result.uri result) s, true)

/-- Remembers that a version of a document cannot be analysed, and tells about it. -/
def fail (uri : String) (version : Int) (error : String) (s : Session τ) : Session τ :=
  react (.failed uri version error) { s with failed := s.failed.put uri version }

/-- Analyses a document, if it is open and its text has not been analysed. -/
def run (uri : String) (s : Session τ) : Session τ :=
  match s.documents.get? uri with
  | none => s.note (.skipped uri)
  | some d =>
    if s.needsAnalysis uri then
      let s := { s with runs := s.runs + 1 }
      match Analysis.ofText uri d.version s.publication d.text with
      | .error e => fail react uri d.version e.message s
      | .ok result => (store react result s).1
    else s

/-- Analyses the documents of a batch one after the other; for a batch that was forced, tells first
how long it has waited. -/
def runBatch (key : BatchKey) (first : τ) (forced : Bool) (s : Session τ) : Session τ :=
  let s := if forced then react (.overrun key (TimeScale.sub s.now first)) s else s
  key.foldl (fun s uri => run react uri s) s

/-! ## Batches and timers -/

/-- Takes a timer back. -/
def cancel (id : Nat) (s : Session τ) : Session τ :=
  { s with timers := s.timers.filter (·.id ≠ id) }

/-- Takes a batch off the waiting ones, its timer with it. -/
def drop (key : BatchKey) (s : Session τ) : Session τ :=
  match s.pending.get? key with
  | none => s
  | some b => { s.cancel b.timer with pending := s.pending.erase key }

/-- Sets a timer for a batch and lets the batch wait. -/
def wait (key : BatchKey) (first delay : τ) (forced : Bool) (s : Session τ) : Session τ :=
  { s with
    timers := s.timers ++ [⟨s.nextTimer, TimeScale.add s.now delay, key⟩]
    pending := s.pending.put key ⟨first, s.nextTimer, forced⟩
    nextTimer := s.nextTimer + 1 }

/-- The debounce time and the longest wait on the session's clock; there are none if one of them is
too long for the clock. -/
def waits? (s : Session τ) : Option (τ × τ) :=
  match TimeScale.ofMillis? s.settings.debounceMs, TimeScale.ofMillis? s.settings.maxWaitMs with
  | some window, some maxWait => some (window, maxWait)
  | _, _ => none

/-- Puts the analysis of a batch off for the debounce time `window` after its latest change, as far
as the longest wait `maxWait` allows. -/
def putOff (window maxWait : τ) (key : BatchKey) (s : Session τ) : Session τ :=
  let first := ((s.pending.get? key).map (·.first)).getD s.now
  let s := s.drop key
  let remaining := TimeScale.sub (TimeScale.add first maxWait) s.now
  if TimeScale.le remaining TimeScale.zero then
    runBatch react key first true (s.note (.ripened key first true s.now))
  else
    s.wait key first (TimeScale.earlier window remaining) (TimeScale.lt remaining window)

/-- Adds a change to the batch of the changed documents and puts its analysis off. -/
def debounce (key : BatchKey) (s : Session τ) : Session τ × Option StepFault :=
  let s := s.trigger key
  match s.waits? with
  | none => (s, some .beyondClock)
  | some (window, maxWait) => (putOff react window maxWait key s, none)

/-- A timer goes off: its batch is analysed. -/
def fire (key : BatchKey) (s : Session τ) : Session τ :=
  match s.pending.get? key with
  | none => s
  | some b =>
    let s := { s with pending := s.pending.erase key }
    runBatch react key b.first b.forced (s.note (.ripened key b.first b.forced s.now))

/-- Analyses the given batches, which have to be waiting, in turn. -/
def flushKeys : List BatchKey → Session τ → Session τ × Option StepFault
  | [], s => (s, none)
  | key :: rest, s =>
    match s.pending.get? key with
    | none => (s, some .batchGone)
    | some b => flushKeys rest (runBatch react key b.first false (s.drop key))

/-- Analyses every waiting batch. -/
def flush (s : Session τ) : Session τ × Option StepFault := flushKeys react s.pending.keys s

/-- Drops every waiting batch. -/
def shutdown (s : Session τ) : Session τ := s.pending.keys.foldl (fun s key => s.drop key) s

/-! ## Documents -/

/-- Puts a text in the place of a document. -/
def place (uri : String) (text : Text) (version : Int) (s : Session τ) : Session τ :=
  { s with documents := s.documents.put uri ⟨text, version⟩ }

/-- Whether a version is newer than the one that is open, or none is open. -/
def accepts (s : Session τ) (uri : String) (version : Int) : Bool :=
  match s.documents.get? uri with
  | none => true
  | some d => d.version < version

/-- Takes a document away. -/
def dropDocument (uri : String) (s : Session τ) : Session τ :=
  { s with
    documents := s.documents.erase uri
    active := if s.active = some uri then none else s.active }

/-- A document is opened, maybe again and at a version seen before. -/
def opened (uri : String) (text : Text) (version : Int) (s : Session τ) :
    Session τ × Option StepFault :=
  let s := ((s.place uri text version).note (.opened uri)).note (.received uri version s.now)
  let s := { s with
    failed := s.failed.erase uri
    reopened :=
      if s.results.contains uri && !s.reopened.contains uri then uri :: s.reopened else s.reopened }
  debounce react [uri] s

/-- A document has a new text; one that is not newer is ignored. -/
def changed (uri : String) (text : Text) (version : Int) (s : Session τ) :
    Session τ × Option StepFault :=
  if s.accepts uri version then
    debounce react [uri] ((s.place uri text version).note (.received uri version s.now))
  else (s, none)

/-- A document is closed: all that is known of it goes, with the batch that holds it alone. -/
def closed (uri : String) (s : Session τ) : Session τ :=
  let s := s.dropDocument uri
  let s := { s with
    results := s.results.erase uri
    failed := s.failed.erase uri
    reopened := s.reopened.filter (· ≠ uri) }
  react (.forgotten uri) (s.drop [uri])

/-- Other documents are shown; those of them that need an analysis form a batch. -/
def shown (uris : List String) (s : Session τ) : Session τ × Option StepFault :=
  let s := { s with visible := uris }
  match BatchKey.ofList (uris.filter s.needsAnalysis) with
  | [] => (s, none)
  | key => debounce react key s

/-- Another document is worked on. -/
def activated (uri : Option String) (s : Session τ) : Session τ × Option StepFault :=
  let s := { s with active := uri }
  match uri with
  | none => (s, none)
  | some u => if s.needsAnalysis u then debounce react [u] s else (s, none)

/-! ## The clock -/

/-- The timer that goes off first among those due at `target`; of several due at once, the one set
first. -/
def nextDue? (target : τ) (timers : List (Timer τ)) : Option (Timer τ) :=
  (timers.filter fun t => TimeScale.le t.due target).foldl
    (fun best t =>
      match best with
      | none => some t
      | some b => if TimeScale.lt t.due b.due then some t else some b)
    none

/-- Lets the timers that are due at `target` go off one after the other, as many as the first
argument allows. -/
def fireDue (target : τ) : Nat → Session τ → Session τ
  | 0, s => s
  | count + 1, s =>
    match nextDue? target s.timers with
    | none => s
    | some t =>
      let s := { s.cancel t.id with now := TimeScale.later s.now t.due }
      fireDue target count (fire react t.key s)

/-- Lets the clock run up to `target`. A timer that goes off sets no other one unless a listener
acts, so there are no more than the timers set and the listeners left. -/
def runTo (target : τ) (s : Session τ) : Session τ :=
  { fireDue react target (s.timers.length + s.hooks.length) s with now := target }

/-- Lets the clock run. -/
def advance (millis : Int) (s : Session τ) : Session τ × Option StepFault :=
  let s := { s with millis := s.millis + millis }
  match TimeScale.ofMillis? s.millis with
  | none => (s, some .beyondClock)
  | some target => (runTo react target s, none)

/-- Lets the clock run while no timer goes off. -/
def stall (millis : Int) (s : Session τ) : Session τ × Option StepFault :=
  let s := { s with millis := s.millis + millis }
  match TimeScale.ofMillis? s.millis with
  | none => (s, some .beyondClock)
  | some now => ({ s with now }, none)

end Session
end Stacking
