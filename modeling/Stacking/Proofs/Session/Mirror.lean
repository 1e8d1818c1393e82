import Stacking.Proofs.Session.Invariant

/-!
# The events mirror the findings

Someone who only hears the events of a session knows its findings: taking over those that are told
as new and dropping those of a closed document gives the findings that the session keeps, at every
moment at which an event is told. Events nest, since listeners act within them, so the findings
change in the midst of other changes; but wherever they change, the event that says so comes next
(`Session.events_mirror_findings`).
-/

namespace Stacking

namespace Event

variable {τ : Type}

/-- The findings of every document after an event, given those before it. -/
def follow (known : String → Option Analysis) : Event τ → String → Option Analysis
  | .updated uri result => fun u => if uri = u then some result else known u
  | .forgotten uri => fun u => if uri = u then none else known u
  | .failed .. => known
  | .overrun .. => known

/-- The findings of every document that events tell of, the latest event first. -/
def replay (events : List (Event τ)) : String → Option Analysis :=
  events.foldr (fun e known => e.follow known) fun _ => none

end Event

namespace Session

variable {τ : Type}

/-- The findings that the session keeps are those that its events tell of. In particular a failure
that has just been told of has not changed them. -/
structure Mirrored (s : Session τ) : Prop where
  results : ∀ uri, s.result? uri = Event.replay s.events uri
  failure : ∀ uri version error older, s.events = .failed uri version error :: older →
    ∀ u, s.result? u = Event.replay older u

variable {s s' : Session τ}

theorem mirrored_of_results (h : ∀ uri, s.results.get? uri = Event.replay s.events uri) :
    s.Mirrored where
  results := h
  failure uri version error older hevents u := by
    have hreplay := h u
    rw [hevents] at hreplay
    exact hreplay

theorem Mirrored.congr (h : s.Mirrored) (hr : s'.results = s.results) (he : s'.events = s.events) :
    s'.Mirrored := by
  refine mirrored_of_results fun uri => ?_
  rw [hr, he]
  exact h.results uri

/-- An event that tells of no findings is told. -/
theorem Mirrored.tell (h : s.Mirrored) {e : Event τ} (he : ∀ known, e.follow known = known)
    (hr : s'.results = s.results) (hevents : s'.events = e :: s.events) : s'.Mirrored := by
  refine mirrored_of_results fun uri => ?_
  rw [hr, hevents]
  show s.results.get? uri = e.follow (Event.replay s.events) uri
  rw [he]
  exact h.results uri

/-- Findings are taken over and told as new. -/
theorem Mirrored.accept (h : s.Mirrored) (result : Analysis) :
    ((s.accept result).note (.event (.updated result.uri result))).Mirrored := by
  refine mirrored_of_results fun uri => ?_
  show (s.results.put result.uri result).get? uri =
    if result.uri = uri then some result else Event.replay s.events uri
  rw [Table.get?_put, ← h.results uri]
  rfl

/-- A document is forgotten and told to be. -/
theorem Mirrored.forget (h : s.Mirrored) (uri : String) :
    ((s.forget uri).note (.event (.forgotten uri))).Mirrored := by
  have hresults : (s.forget uri).results = s.results.erase uri := by rw [Session.forget, drop_eq]
  have hevents : (s.forget uri).events = s.events := by rw [Session.forget, drop_eq]; rfl
  refine mirrored_of_results fun u => ?_
  show (s.forget uri).results.get? u =
    if uri = u then none else Event.replay (s.forget uri).events u
  rw [hresults, hevents, Table.get?_erase, ← h.results u]
  rfl

/-- Every update of the findings comes with its event, whichever steps are taken. -/
theorem mirrored_invariant [TimeScale τ] :
    Invariant (τ := τ) (fun _ => True) fun _ s => s.Mirrored where
  owe _ h := h
  skip _ h := h.congr rfl rfl
  settle _ h := h
  refuse _ _ _ h := h.tell (fun _ => rfl) rfl rfl
  accept {_ s _ _ r} _ _ _ _ h := Mirrored.accept (s := s.counted) (h.congr rfl rfl) r
  discard _ _ _ _ h := h.congr rfl rfl
  overrun _ h := h.tell (fun _ => rfl) rfl rfl
  take _ _ h := by rw [drop_eq]; exact h.congr rfl rfl
  force _ _ h := by rw [exhaust, drop_eq]; exact h.congr rfl rfl
  wait _ _ h := by rw [drop_eq]; exact h.congr rfl rfl
  beyondClock _ h := h.congr rfl rfl
  fire _ _ _ h := h.congr rfl rfl
  lapse _ _ _ h := h.congr rfl rfl
  arrive _ _ h := h.congr rfl rfl
  hear _ h := h.congr rfl rfl
  openDocument _ h := h.congr rfl rfl
  changeDocument _ _ h := h.congr rfl rfl
  closeDocument _ h := h.forget _
  showDocuments _ h := h.congr rfl rfl
  activate _ h := h.congr rfl rfl
  shutdown _ h := by rw [shutdown_eq]; exact h.congr rfl rfl
  advance _ h := h.congr rfl rfl
  stall _ h := h.congr rfl rfl
  placeDocument _ h := h.congr rfl rfl
  reviseDocument _ _ h := h.congr rfl rfl
  dropDocument _ h := h.congr rfl rfl
  submitResult _ _ h := h.accept _

/-- In every state of a session, whatever steps are taken by the outside and by listeners, and also
in those states that listeners see in the midst of a step, the findings of every document are those
that the events so far tell of. -/
theorem events_mirror_findings [TimeScale τ] (settings : Settings) (hooks : List (Hook τ))
    (actions : List Step) :
    ((new settings hooks).steps actions).Mirrored ∧
      ToldWithin Mirrored (new settings hooks) actions := by
  obtain ⟨hmirrored, htold⟩ := steps_kept (mirrored_invariant (τ := τ)) (R := []) (fun h => h)
    (mirrored_of_results fun _ => rfl)
    (hooksAllow_new settings fun _ _ _ _ _ _ => trivial) fun _ _ => trivial
  exact ⟨hmirrored, htold⟩

end Session
end Stacking
