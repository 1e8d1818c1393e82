import Stacking.Session.Schedule

/-!
# Steps

One step of a session, listeners included. A listener acts within the event it is told of, and what
it does may emit further events before the next listener hears of the first. As every listener acts
at most once, events nest no deeper than there are listeners.
-/

namespace Stacking

/-- What a step answers. -/
inductive StepReply where
  | done
  /-- Whether the step had an effect. -/
  | verdict (accepted : Bool)
  | refused (fault : StepFault)

/-- The reply of a step that answers nothing. -/
def StepReply.ofFault : Option StepFault → StepReply
  | none => .done
  | some fault => .refused fault

namespace Session

variable {τ : Type} [TimeScale τ]

/-- Carries out a step, given what the outside makes of events. -/
def perform (react : Event τ → Session τ → Session τ) (s : Session τ) :
    Step → Session τ × StepReply
  | .openDocument uri text version => (s.opened react uri text version).map id StepReply.ofFault
  | .changeDocument uri text version => (s.changed react uri text version).map id StepReply.ofFault
  | .closeDocument uri => (s.closed react uri, .done)
  | .showDocuments uris => (s.shown react uris).map id StepReply.ofFault
  | .activate uri => (s.activated react uri).map id StepReply.ofFault
  | .unsupported value => (s, .refused (.unsupportedEvent value))
  | .flush => (s.flush react).map id StepReply.ofFault
  | .shutdown => (s.shutdown, .done)
  | .advance millis => (s.advance react millis).map id StepReply.ofFault
  | .stall millis => (s.stall millis).map id StepReply.ofFault
  | .placeDocument uri text version => (s.place uri text version, .done)
  | .reviseDocument uri text version =>
    if s.accepts uri version then (s.place uri text version, .verdict true)
    else (s, .verdict false)
  | .dropDocument uri => (s.dropDocument uri, .verdict (s.documents.contains uri))
  | .submitResult result =>
    let (s, taken) := s.store react result
    (s, .verdict taken)

/-- Tells one listener of an event, if it has not acted yet. What it does may fail; what was done
until then stays. -/
def tell (react : Event τ → Session τ → Session τ) (e : Event τ) (s : Session τ) (id : Nat) :
    Session τ :=
  match s.hooks.lookup id with
  | none => s
  | some hook =>
    match hook.respond e s.events with
    | none => s
    | some step => (perform react { s with hooks := s.hooks.filter (·.1 ≠ id) } step).1

/-- Writes an event down and tells every listener in turn, with listeners acting within each other
no deeper than the first argument. -/
def react : Nat → Event τ → Session τ → Session τ
  | 0, e, s => s.note (.event e)
  | depth + 1, e, s =>
    let s := s.note (.event e)
    (s.hooks.map (·.1)).foldl (fun s id => tell (react depth) e s id) s

/-- Carries out a step with all listeners. -/
def step (s : Session τ) (action : Step) : Session τ × StepReply :=
  perform (react s.hooks.length) s action

/-- Carries out steps one after the other. -/
def steps (s : Session τ) (actions : List Step) : Session τ :=
  actions.foldl (fun s action => (s.step action).1) s

end Session
end Stacking
