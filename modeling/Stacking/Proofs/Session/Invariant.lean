import Stacking.Session.Step

/-!
# Invariants of a session

Everything a session does is made of a few updates of its state, and between two of them it may
emit an event, from within which listeners take steps of their own. This file says once what
those updates are and derives from it what a whole run keeps:

* `Invariant` lists what a property has to survive, one field per update;
* `perform_kept` carries it through a step, whatever the listeners are;
* `react_kept` carries it through the listeners, by induction on how deep they nest;
* `steps_kept` carries it through a run from a new session on.

An invariant may speak of the documents that are *owed* an analysis: those that the batches under
way have still to reach. `ToldWithin` says of a run that listeners are called only where a property
holds, so that an invariant is also one of every state that a listener sees.
-/

namespace Stacking
namespace Session

variable {τ : Type}

/-! ## The updates that the operations are made of -/

/-- One more analysis has been made. -/
def counted (s : Session τ) : Session τ := { s with runs := s.runs + 1 }

/-- A version of a document is marked as one that cannot be analysed. -/
def refuse (uri : String) (version : Int) (s : Session τ) : Session τ :=
  { s with failed := s.failed.put uri version }

/-- Whether there are findings of a newer version, of a document that was not opened again. -/
def isStale (result : Analysis) (s : Session τ) : Bool :=
  match s.results.get? result.uri with
  | none => false
  | some current => current.version > result.version && !s.reopened.contains result.uri

/-- Findings take the place of those that were there. -/
def accept (result : Analysis) (s : Session τ) : Session τ :=
  { s with
    results := s.results.put result.uri result
    failed := s.failed.erase result.uri
    reopened := s.reopened.filter (· ≠ result.uri) }

/-- A document has been opened, maybe again. -/
def enrol (uri : String) (text : Text) (version : Int) (s : Session τ) : Session τ :=
  { s.place uri text version with
    failed := s.failed.erase uri
    reopened :=
      if s.results.contains uri && !s.reopened.contains uri then uri :: s.reopened else s.reopened
    journal := .received uri version s.now :: .opened uri :: s.journal }

/-- All that is known of a document is gone. -/
def forget (uri : String) (s : Session τ) : Session τ :=
  Session.drop [uri]
    { s.dropDocument uri with
      results := s.results.erase uri
      failed := s.failed.erase uri
      reopened := s.reopened.filter (· ≠ uri) }

/-- When the first of the changes came that are gathered under a key. -/
def firstChange (key : BatchKey) (s : Session τ) : τ :=
  ((s.pending.get? key).map (·.first)).getD s.now

/-- How much longer the analysis of a batch can be put off. -/
def remaining [TimeScale τ] (maxWait : τ) (key : BatchKey) (s : Session τ) : τ :=
  TimeScale.sub (TimeScale.add (s.firstChange key) maxWait) s.now

/-- A timer is taken off the ones that are set, at the time at which it goes off. -/
def expire [TimeScale τ] (t : Timer τ) (s : Session τ) : Session τ :=
  { s.cancel t.id with now := TimeScale.later s.now t.due }

/-- A batch is taken off the waiting ones, its timer having gone off. -/
def release (key : BatchKey) (b : Batch τ) (s : Session τ) : Session τ :=
  { s with
    pending := s.pending.erase key
    journal := .ripened key b.first b.forced s.now :: s.journal }

/-- A batch that may not wait any longer is taken off the waiting ones, as a change comes. -/
def exhaust (key : BatchKey) (s : Session τ) : Session τ :=
  (s.drop key).note (.ripened key (s.firstChange key) true s.now)

/-- Taking a batch off the waiting ones changes the waiting batches and the timers only. -/
theorem drop_eq (key : BatchKey) (s : Session τ) :
    s.drop key = { s with pending := (s.drop key).pending, timers := (s.drop key).timers } := by
  unfold drop
  split <;> rfl

@[simp] theorem now_drop (key : BatchKey) (s : Session τ) : (s.drop key).now = s.now := by
  rw [drop_eq]

@[simp] theorem journal_drop (key : BatchKey) (s : Session τ) :
    (s.drop key).journal = s.journal := by rw [drop_eq]

@[simp] theorem hooks_drop (key : BatchKey) (s : Session τ) : (s.drop key).hooks = s.hooks := by
  rw [drop_eq]

theorem drop_note (key : BatchKey) (n : Notice τ) (s : Session τ) :
    (s.note n).drop key = (s.drop key).note n := by
  have hget : (s.note n).pending.get? key = s.pending.get? key := rfl
  unfold drop
  rw [hget]
  cases s.pending.get? key <;> rfl

/-- Dropping every batch changes the waiting batches and the timers only. -/
theorem shutdown_eq (s : Session τ) :
    s.shutdown = { s with pending := s.shutdown.pending, timers := s.shutdown.timers } := by
  unfold shutdown
  induction s.pending.keys generalizing s with
  | nil => rfl
  | cons key rest ih =>
    rw [List.foldl_cons, ih (s.drop key)]
    rw [drop_eq key s]

/-! ## What an invariant survives -/

/-- The listeners answer with steps of the given kind only. -/
def HooksAllow (allowed : Step → Prop) (s : Session τ) : Prop :=
  ∀ hook ∈ s.hooks, ∀ e es step, hook.2.respond e es = some step → allowed step

/-- A property of the documents owed an analysis and of the session that every update keeps, where
only steps of the given kind are taken. -/
structure Invariant [TimeScale τ] (allowed : Step → Prop) (P : List String → Session τ → Prop) :
    Prop where
  /-- More documents may be owed an analysis. -/
  owe : ∀ {R s} (key : List String), P R s → P (key ++ R) s
  /-- A closed document is owed nothing. -/
  skip : ∀ {R s uri}, s.documents.get? uri = none → P (uri :: R) s → P R (s.note (.skipped uri))
  /-- A document whose text has been analysed is owed nothing. -/
  settle : ∀ {R s uri}, s.needsAnalysis uri = false → P (uri :: R) s → P R s
  refuse : ∀ {R s uri d e}, s.documents.get? uri = some d → s.needsAnalysis uri = true →
    Analysis.ofText uri d.version s.publication d.text = .error e → P (uri :: R) s →
    P R ((s.counted.refuse uri d.version).note (.event (.failed uri d.version e.message)))
  accept : ∀ {R s uri d r}, s.documents.get? uri = some d → s.needsAnalysis uri = true →
    Analysis.ofText uri d.version s.publication d.text = .ok r → s.isStale r = false →
    P (uri :: R) s → P R ((s.counted.accept r).note (.event (.updated r.uri r)))
  discard : ∀ {R s uri d r}, s.documents.get? uri = some d → s.needsAnalysis uri = true →
    Analysis.ofText uri d.version s.publication d.text = .ok r → s.isStale r = true →
    P (uri :: R) s → P R s.counted
  overrun : ∀ {R s key first older},
    s.journal = .ripened key first true s.now :: older → P R s →
    P R (s.note (.event (.overrun key (TimeScale.sub s.now first))))
  /-- A waiting batch is about to be analysed. -/
  take : ∀ {R s key b}, allowed .flush → s.pending.get? key = some b → P R s →
    P (key ++ R) (s.drop key)
  /-- A trigger comes for a batch that may not wait any longer, so that it is about to be analysed. -/
  force : ∀ {R s key window maxWait}, s.waits? = some (window, maxWait) →
    TimeScale.le (s.remaining maxWait key) TimeScale.zero = true → P (key ++ R) s →
    P (key ++ R) ((s.trigger key).exhaust key)
  /-- A trigger comes for a batch, which is put off. -/
  wait : ∀ {R s key window maxWait}, s.waits? = some (window, maxWait) →
    TimeScale.le (s.remaining maxWait key) TimeScale.zero = false → P (key ++ R) s →
    P R (((s.trigger key).drop key).wait key (s.firstChange key)
      (TimeScale.earlier window (s.remaining maxWait key))
      (TimeScale.lt (s.remaining maxWait key) window))
  /-- A trigger comes for a batch that cannot be put off, since the clock cannot tell for how long. -/
  beyondClock : ∀ {R s} {key : BatchKey}, s.waits? = none → P (key ++ R) s → P R (s.trigger key)
  fire : ∀ {R s n target t b}, allowed (.advance n) → nextDue? target s.timers = some t →
    s.pending.get? t.key = some b → P R s → P (t.key ++ R) ((s.expire t).release t.key b)
  lapse : ∀ {R s n target t}, allowed (.advance n) → nextDue? target s.timers = some t →
    s.pending.get? t.key = none → P R s → P R (s.expire t)
  arrive : ∀ {R s n} (now : τ), allowed (.advance n) ∨ allowed (.stall n) → P R s →
    P R { s with now := now }
  /-- A listener acts and will not act again. -/
  hear : ∀ {R s} (id : Nat), P R s → P R { s with hooks := s.hooks.filter (·.1 ≠ id) }
  openDocument : ∀ {R s uri text version}, allowed (.openDocument uri text version) → P R s →
    P (uri :: R) (s.enrol uri text version)
  changeDocument : ∀ {R s uri text version}, allowed (.changeDocument uri text version) →
    s.accepts uri version = true → P R s →
    P (uri :: R) ((s.place uri text version).note (.received uri version s.now))
  closeDocument : ∀ {R s uri}, allowed (.closeDocument uri) → P R s →
    P R ((s.forget uri).note (.event (.forgotten uri)))
  showDocuments : ∀ {R s uris}, allowed (.showDocuments uris) → P R s →
    P R { s with visible := uris }
  activate : ∀ {R s uri}, allowed (.activate uri) → P R s → P R { s with active := uri }
  shutdown : ∀ {R s}, allowed .shutdown → P R s → P R s.shutdown
  advance : ∀ {R s n}, allowed (.advance n) → P R s → P R { s with millis := s.millis + n }
  stall : ∀ {R s n}, allowed (.stall n) → P R s → P R { s with millis := s.millis + n }
  placeDocument : ∀ {R s uri text version}, allowed (.placeDocument uri text version) → P R s →
    P R (s.place uri text version)
  reviseDocument : ∀ {R s uri text version}, allowed (.reviseDocument uri text version) →
    s.accepts uri version = true → P R s → P R (s.place uri text version)
  dropDocument : ∀ {R s uri}, allowed (.dropDocument uri) → P R s → P R (s.dropDocument uri)
  submitResult : ∀ {R s r}, allowed (.submitResult r) → s.isStale r = false → P R s →
    P R ((s.accept r).note (.event (.updated r.uri r)))

/-! ## Operations keep it

Two functions `react` and `react'` stand for what the outside makes of events. They agree wherever
the invariant holds, so that nothing is asked of them in other states. Each lemma says that an
operation has the same outcome with both, and that the invariant holds afterwards. -/

/-- Two reactions to events that agree where a property holds, and keep it there. -/
structure Heard (P : List String → Session τ → Prop)
    (react react' : Event τ → Session τ → Session τ) : Prop where
  same : ∀ {R e s}, P R (s.note (.event e)) → react e s = react' e s
  keep : ∀ {R e s}, P R (s.note (.event e)) → P R (react e s)

section Operations

variable {allowed : Step → Prop} {P : List String → Session τ → Prop}
  {react react' : Event τ → Session τ → Session τ} {R : List String} {s : Session τ}

/-- Findings that are not stale are taken over, then told about. -/
theorem store_of_not_stale (result : Analysis) (h : s.isStale result = false) :
    store react result s = (react (.updated result.uri result) (s.accept result), true) := by
  have : store react result s = if s.isStale result then (s, false)
      else (react (.updated result.uri result) (s.accept result), true) := rfl
  rw [this, h]
  rfl

theorem store_of_stale (result : Analysis) (h : s.isStale result = true) :
    store react result s = (s, false) := by
  have : store react result s = if s.isStale result then (s, false)
      else (react (.updated result.uri result) (s.accept result), true) := rfl
  rw [this, h]
  rfl

variable [TimeScale τ]

/-- Analysing a document pays what it is owed. -/
theorem run_kept (I : Invariant allowed P) (L : Heard P react react') (uri : String)
    (h : P (uri :: R) s) : run react uri s = run react' uri s ∧ P R (run react uri s) := by
  unfold run
  cases hd : s.documents.get? uri with
  | none => exact ⟨rfl, I.skip hd h⟩
  | some d =>
    cases hn : s.needsAnalysis uri with
    | false => exact ⟨rfl, I.settle hn h⟩
    | true =>
      have hpub : ({ s with runs := s.runs + 1 } : Session τ).publication = s.publication := rfl
      simp only [if_true, hpub]
      cases hr : Analysis.ofText uri d.version s.publication d.text with
      | error e =>
        have hP := I.refuse hd hn hr h
        exact ⟨L.same hP, L.keep hP⟩
      | ok r =>
        cases hs : s.isStale r with
        | true =>
          -- nothing is stored, so no listener is told
          have hs' : s.counted.isStale r = true := hs
          show (store react r s.counted).1 = (store react' r s.counted).1 ∧
            P R (store react r s.counted).1
          rw [store_of_stale r hs', store_of_stale r hs']
          exact ⟨rfl, I.discard hd hn hr hs h⟩
        | false =>
          have hs' : s.counted.isStale r = false := hs
          show (store react r s.counted).1 = (store react' r s.counted).1 ∧
            P R (store react r s.counted).1
          rw [store_of_not_stale r hs', store_of_not_stale r hs']
          have hP := I.accept hd hn hr hs h
          exact ⟨L.same hP, L.keep hP⟩

theorem runEach_kept (I : Invariant allowed P) (L : Heard P react react') (key : BatchKey)
    (h : P (key ++ R) s) :
    key.foldl (fun s uri => run react uri s) s = key.foldl (fun s uri => run react' uri s) s ∧
      P R (key.foldl (fun s uri => run react uri s) s) := by
  induction key generalizing s with
  | nil => exact ⟨rfl, h⟩
  | cons uri rest ih =>
    obtain ⟨hsame, hkeep⟩ := run_kept I L uri h
    simp only [List.foldl_cons]
    rw [← hsame]
    exact ih hkeep

/-- Analysing a batch pays what its documents are owed. -/
theorem runBatch_kept (I : Invariant allowed P) (L : Heard P react react') (key : BatchKey)
    (first : τ) (forced : Bool)
    (hripe : forced = true → ∃ older, s.journal = .ripened key first true s.now :: older)
    (h : P (key ++ R) s) :
    runBatch react key first forced s = runBatch react' key first forced s ∧
      P R (runBatch react key first forced s) := by
  cases forced with
  | false => exact runEach_kept I L key h
  | true =>
    obtain ⟨older, hjournal⟩ := hripe rfl
    have hP := I.overrun hjournal h
    show key.foldl _ (react _ s) = key.foldl _ (react' _ s) ∧ P R (key.foldl _ (react _ s))
    rw [← L.same hP]
    exact runEach_kept I L key (L.keep hP)

theorem putOff_eq (window maxWait : τ) (key : BatchKey) :
    putOff react window maxWait key s =
      if TimeScale.le (s.remaining maxWait key) TimeScale.zero then
        runBatch react key (s.firstChange key) true (s.exhaust key)
      else (s.drop key).wait key (s.firstChange key)
        (TimeScale.earlier window (s.remaining maxWait key))
        (TimeScale.lt (s.remaining maxWait key) window) := by
  have hnow : (s.drop key).now = s.now := now_drop key s
  unfold putOff exhaust remaining firstChange
  simp only [hnow]

theorem fire_eq {key : BatchKey} {b : Batch τ} (hb : s.pending.get? key = some b) :
    fire react key s = runBatch react key b.first b.forced (s.release key b) := by
  rw [fire, hb]
  rfl

theorem debounce_of_beyondClock (hw : s.waits? = none) (key : BatchKey) :
    debounce react key s = (s.trigger key, some .beyondClock) := by
  have hw' : (s.trigger key).waits? = none := hw
  rw [debounce]
  simp only [hw']

theorem debounce_of_waits {window maxWait : τ} (hw : s.waits? = some (window, maxWait))
    (key : BatchKey) :
    debounce react key s = (putOff react window maxWait key (s.trigger key), none) := by
  have hw' : (s.trigger key).waits? = some (window, maxWait) := hw
  rw [debounce]
  simp only [hw']

/-- A batch that is put off will pay what its documents are owed, or pays it at once. -/
theorem debounce_kept (I : Invariant allowed P) (L : Heard P react react') (key : BatchKey)
    (h : P (key ++ R) s) :
    debounce react key s = debounce react' key s ∧ P R (debounce react key s).1 := by
  cases hw : s.waits? with
  | none =>
    rw [debounce_of_beyondClock hw, debounce_of_beyondClock hw]
    exact ⟨rfl, I.beyondClock hw h⟩
  | some waits =>
    obtain ⟨window, maxWait⟩ := waits
    have hremaining : (s.trigger key).remaining maxWait key = s.remaining maxWait key := rfl
    rw [debounce_of_waits hw, debounce_of_waits hw, putOff_eq, putOff_eq, hremaining]
    cases hle : TimeScale.le (s.remaining maxWait key) TimeScale.zero with
    | true =>
      have hnow : ((s.trigger key).exhaust key).now = s.now := by rw [exhaust, drop_eq]; rfl
      obtain ⟨hsame, hkeep⟩ := runBatch_kept I L key (s.firstChange key) true
        (fun _ => ⟨_, by rw [hnow]; rfl⟩) (I.force hw hle h)
      exact ⟨congrArg (·, none) hsame, hkeep⟩
    | false => exact ⟨rfl, I.wait hw hle h⟩

theorem flushKeys_kept (I : Invariant allowed P) (L : Heard P react react')
    (ha : allowed .flush) (keys : List BatchKey) (h : P R s) :
    flushKeys react keys s = flushKeys react' keys s ∧ P R (flushKeys react keys s).1 := by
  induction keys generalizing s with
  | nil => exact ⟨rfl, h⟩
  | cons key rest ih =>
    unfold flushKeys
    cases hb : s.pending.get? key with
    | none => exact ⟨rfl, h⟩
    | some b =>
      obtain ⟨hsame, hkeep⟩ := runBatch_kept I L key b.first false nofun (I.take ha hb h)
      simp only
      rw [← hsame]
      exact ih hkeep

/-- A timer goes off for its batch, or for none any more. -/
theorem fire_kept (I : Invariant allowed P) (L : Heard P react react') {n : Int}
    (ha : allowed (.advance n)) {target : τ} {t : Timer τ}
    (ht : nextDue? target s.timers = some t) (h : P R s) :
    fire react t.key (s.expire t) = fire react' t.key (s.expire t) ∧
      P R (fire react t.key (s.expire t)) := by
  unfold fire
  cases hb : (s.expire t).pending.get? t.key with
  | none => exact ⟨rfl, I.lapse ha ht hb h⟩
  | some b =>
    refine runBatch_kept I L t.key b.first b.forced (fun hforced => ?_) (I.fire ha ht hb h)
    exact ⟨s.journal, by rw [← hforced]; rfl⟩

theorem fireDue_kept (I : Invariant allowed P) (L : Heard P react react') {n : Int}
    (ha : allowed (.advance n)) (target : τ) (count : Nat) (h : P R s) :
    fireDue react target count s = fireDue react' target count s ∧
      P R (fireDue react target count s) := by
  induction count generalizing s with
  | zero => exact ⟨rfl, h⟩
  | succ count ih =>
    unfold fireDue
    cases ht : nextDue? target s.timers with
    | none => exact ⟨rfl, h⟩
    | some t =>
      obtain ⟨hsame, hkeep⟩ := fire_kept I L ha ht h
      show fireDue react target count (fire react t.key (s.expire t)) =
          fireDue react' target count (fire react' t.key (s.expire t)) ∧
        P R (fireDue react target count (fire react t.key (s.expire t)))
      rw [← hsame]
      exact ih hkeep

/-- Whatever is done to a session keeps the invariant, listeners included. -/
theorem perform_kept (I : Invariant allowed P) (L : Heard P react react') {step : Step}
    (ha : allowed step) (h : P R s) :
    perform react s step = perform react' s step ∧ P R (perform react s step).1 := by
  -- a step that puts a batch off replies with the fault of `debounce`
  have hput : ∀ (key : BatchKey) {s : Session τ}, P (key ++ R) s →
      (debounce react key s).map id StepReply.ofFault =
          (debounce react' key s).map id StepReply.ofFault ∧
        P R ((debounce react key s).map id StepReply.ofFault).1 := by
    intro key s h
    obtain ⟨hsame, hkeep⟩ := debounce_kept I L key h
    exact ⟨congrArg (Prod.map id StepReply.ofFault) hsame, hkeep⟩
  cases step with
  | openDocument uri text version => exact hput [uri] (I.openDocument ha h)
  | changeDocument uri text version =>
    simp only [perform, changed]
    split
    · rename_i hacc
      exact hput [uri] (I.changeDocument ha hacc h)
    · exact ⟨rfl, h⟩
  | closeDocument uri =>
    have hP := I.closeDocument ha h
    exact ⟨congrArg (·, StepReply.done) (L.same hP), L.keep hP⟩
  | showDocuments uris =>
    have hP := I.showDocuments ha h
    simp only [perform, shown]
    cases hkey : BatchKey.ofList (uris.filter { s with visible := uris }.needsAnalysis) with
    | nil => exact ⟨rfl, hP⟩
    | cons u rest => exact hput (u :: rest) (I.owe (u :: rest) hP)
  | activate uri =>
    have hP := I.activate ha h
    simp only [perform, activated]
    cases uri with
    | none => exact ⟨rfl, hP⟩
    | some u =>
      simp only
      split
      · exact hput [u] (I.owe [u] hP)
      · exact ⟨rfl, hP⟩
  | unsupported value => exact ⟨rfl, h⟩
  | flush =>
    obtain ⟨hsame, hkeep⟩ := flushKeys_kept I L ha s.pending.keys h
    exact ⟨congrArg (Prod.map id StepReply.ofFault) hsame, hkeep⟩
  | shutdown => exact ⟨rfl, I.shutdown ha h⟩
  | advance n =>
    have hP := I.advance ha h
    simp only [perform, Session.advance]
    split
    · exact ⟨rfl, hP⟩
    · rename_i target _
      obtain ⟨hsame, hkeep⟩ := fireDue_kept I L ha target (s.timers.length + s.hooks.length) hP
      simp only [runTo]
      rw [← hsame]
      exact ⟨rfl, I.arrive target (Or.inl ha) hkeep⟩
  | stall n =>
    have hP := I.stall ha h
    refine ⟨rfl, ?_⟩
    simp only [perform, Session.stall]
    split
    · exact hP
    · rename_i now _
      exact I.arrive now (Or.inr ha) hP
  | placeDocument uri text version => exact ⟨rfl, I.placeDocument ha h⟩
  | reviseDocument uri text version =>
    refine ⟨rfl, ?_⟩
    simp only [perform]
    split
    · rename_i hacc
      exact I.reviseDocument ha hacc h
    · exact h
  | dropDocument uri => exact ⟨rfl, I.dropDocument ha h⟩
  | submitResult result =>
    simp only [perform]
    cases hs : s.isStale result with
    | true =>
      rw [store_of_stale result hs, store_of_stale result hs]
      exact ⟨rfl, h⟩
    | false =>
      rw [store_of_not_stale result hs, store_of_not_stale result hs]
      have hP := I.submitResult ha hs h
      exact ⟨congrArg (·, StepReply.verdict true) (L.same hP), L.keep hP⟩

end Operations

/-! ## Listeners and runs keep it -/

section Runs

variable [TimeScale τ] {allowed : Step → Prop} {P : List String → Session τ → Prop}

/-- What survives the steps of one kind survives those of a narrower kind. -/
theorem Invariant.mono {allowed' : Step → Prop} (I : Invariant allowed P)
    (h : ∀ {step}, allowed' step → allowed step) : Invariant allowed' P where
  owe := I.owe
  skip := I.skip
  settle := I.settle
  refuse := I.refuse
  accept := I.accept
  discard := I.discard
  overrun := I.overrun
  take ha := I.take (h ha)
  force := I.force
  wait := I.wait
  beyondClock := I.beyondClock
  fire ha := I.fire (h ha)
  lapse ha := I.lapse (h ha)
  arrive now ha := I.arrive now (ha.imp h h)
  hear := I.hear
  openDocument ha := I.openDocument (h ha)
  changeDocument ha := I.changeDocument (h ha)
  closeDocument ha := I.closeDocument (h ha)
  showDocuments ha := I.showDocuments (h ha)
  activate ha := I.activate (h ha)
  shutdown ha := I.shutdown (h ha)
  advance ha := I.advance (h ha)
  stall ha := I.stall (h ha)
  placeDocument ha := I.placeDocument (h ha)
  reviseDocument ha := I.reviseDocument (h ha)
  dropDocument ha := I.dropDocument (h ha)
  submitResult ha := I.submitResult (h ha)

theorem Invariant.and {Q : List String → Session τ → Prop} (I : Invariant allowed P)
    (J : Invariant allowed Q) : Invariant allowed fun R s => P R s ∧ Q R s where
  owe key h := ⟨I.owe key h.1, J.owe key h.2⟩
  skip hd h := ⟨I.skip hd h.1, J.skip hd h.2⟩
  settle hn h := ⟨I.settle hn h.1, J.settle hn h.2⟩
  refuse hd hn hr h := ⟨I.refuse hd hn hr h.1, J.refuse hd hn hr h.2⟩
  accept hd hn hr hs h := ⟨I.accept hd hn hr hs h.1, J.accept hd hn hr hs h.2⟩
  discard hd hn hr hs h := ⟨I.discard hd hn hr hs h.1, J.discard hd hn hr hs h.2⟩
  overrun hj h := ⟨I.overrun hj h.1, J.overrun hj h.2⟩
  take ha hb h := ⟨I.take ha hb h.1, J.take ha hb h.2⟩
  force hw hle h := ⟨I.force hw hle h.1, J.force hw hle h.2⟩
  wait hw hle h := ⟨I.wait hw hle h.1, J.wait hw hle h.2⟩
  beyondClock hw h := ⟨I.beyondClock hw h.1, J.beyondClock hw h.2⟩
  fire ha ht hb h := ⟨I.fire ha ht hb h.1, J.fire ha ht hb h.2⟩
  lapse ha ht hb h := ⟨I.lapse ha ht hb h.1, J.lapse ha ht hb h.2⟩
  arrive now ha h := ⟨I.arrive now ha h.1, J.arrive now ha h.2⟩
  hear id h := ⟨I.hear id h.1, J.hear id h.2⟩
  openDocument ha h := ⟨I.openDocument ha h.1, J.openDocument ha h.2⟩
  changeDocument ha hacc h := ⟨I.changeDocument ha hacc h.1, J.changeDocument ha hacc h.2⟩
  closeDocument ha h := ⟨I.closeDocument ha h.1, J.closeDocument ha h.2⟩
  showDocuments ha h := ⟨I.showDocuments ha h.1, J.showDocuments ha h.2⟩
  activate ha h := ⟨I.activate ha h.1, J.activate ha h.2⟩
  shutdown ha h := ⟨I.shutdown ha h.1, J.shutdown ha h.2⟩
  advance ha h := ⟨I.advance ha h.1, J.advance ha h.2⟩
  stall ha h := ⟨I.stall ha h.1, J.stall ha h.2⟩
  placeDocument ha h := ⟨I.placeDocument ha h.1, J.placeDocument ha h.2⟩
  reviseDocument ha hacc h := ⟨I.reviseDocument ha hacc h.1, J.reviseDocument ha hacc h.2⟩
  dropDocument ha h := ⟨I.dropDocument ha h.1, J.dropDocument ha h.2⟩
  submitResult ha hs h := ⟨I.submitResult ha hs h.1, J.submitResult ha hs h.2⟩

/-- No update but that of a listener that acts touches the listeners. -/
theorem Invariant.withHooks (I : Invariant allowed P) :
    Invariant allowed fun R s => P R s ∧ s.HooksAllow allowed where
  owe key h := ⟨I.owe key h.1, h.2⟩
  skip hd h := ⟨I.skip hd h.1, h.2⟩
  settle hn h := ⟨I.settle hn h.1, h.2⟩
  refuse hd hn hr h := ⟨I.refuse hd hn hr h.1, h.2⟩
  accept hd hn hr hs h := ⟨I.accept hd hn hr hs h.1, h.2⟩
  discard hd hn hr hs h := ⟨I.discard hd hn hr hs h.1, h.2⟩
  overrun hj h := ⟨I.overrun hj h.1, h.2⟩
  take ha hb h := ⟨I.take ha hb h.1, by rw [drop_eq]; exact h.2⟩
  force hw hle h := ⟨I.force hw hle h.1, by rw [exhaust, drop_eq]; exact h.2⟩
  wait hw hle h := ⟨I.wait hw hle h.1, by rw [drop_eq]; exact h.2⟩
  beyondClock hw h := ⟨I.beyondClock hw h.1, h.2⟩
  fire ha ht hb h := ⟨I.fire ha ht hb h.1, h.2⟩
  lapse ha ht hb h := ⟨I.lapse ha ht hb h.1, h.2⟩
  arrive now ha h := ⟨I.arrive now ha h.1, h.2⟩
  -- a hook that has been heard may be gone, and none is added
  hear id h := ⟨I.hear id h.1, fun hook hm => h.2 hook (List.mem_filter.mp hm).1⟩
  openDocument ha h := ⟨I.openDocument ha h.1, h.2⟩
  changeDocument ha hacc h := ⟨I.changeDocument ha hacc h.1, h.2⟩
  closeDocument ha h := ⟨I.closeDocument ha h.1, by rw [forget, drop_eq]; exact h.2⟩
  showDocuments ha h := ⟨I.showDocuments ha h.1, h.2⟩
  activate ha h := ⟨I.activate ha h.1, h.2⟩
  shutdown ha h := ⟨I.shutdown ha h.1, by rw [shutdown_eq]; exact h.2⟩
  advance ha h := ⟨I.advance ha h.1, h.2⟩
  stall ha h := ⟨I.stall ha h.1, h.2⟩
  placeDocument ha h := ⟨I.placeDocument ha h.1, h.2⟩
  reviseDocument ha hacc h := ⟨I.reviseDocument ha hacc h.1, h.2⟩
  dropDocument ha h := ⟨I.dropDocument ha h.1, h.2⟩
  submitResult ha hs h := ⟨I.submitResult ha hs h.1, h.2⟩

open Classical in
/-- Tells a listener of an event, but for one thing: in a state without the property `Q` something
else happens altogether. -/
noncomputable def tellWithin (Q : Session τ → Prop) (derail : Event τ → Session τ → Session τ)
    (react : Event τ → Session τ → Session τ) (e : Event τ) (s : Session τ) (id : Nat) :
    Session τ :=
  if Q s then tell react e s id else derail e s

open Classical in
/-- The listeners of `react`, but for one thing: where an event is emitted, or a listener told of
it, in a state without the property `Q`, something else happens altogether. -/
noncomputable def reactWithin (Q : Session τ → Prop)
    (derail : Event τ → Session τ → Session τ) : Nat → Event τ → Session τ → Session τ
  | 0, e, s => if Q (s.note (.event e)) then s.note (.event e) else derail e s
  | depth + 1, e, s =>
    if Q (s.note (.event e)) then
      (s.hooks.map (·.1)).foldl
        (fun s id => tellWithin Q derail (reactWithin Q derail depth) e s id) (s.note (.event e))
    else derail e s

/-- Carries out steps one after the other with the listeners of `reactWithin`. -/
noncomputable def stepsWithin (Q : Session τ → Prop) (derail : Event τ → Session τ → Session τ)
    (s : Session τ) (actions : List Step) : Session τ :=
  actions.foldl (fun s action => (perform (reactWithin Q derail s.hooks.length) s action).1) s

/-- Throughout a run, events are emitted and listeners told only where `Q` holds: it makes no
difference what would happen otherwise. -/
def ToldWithin (Q : Session τ → Prop) (s : Session τ) (actions : List Step) : Prop :=
  ∀ derail, stepsWithin Q derail s actions = s.steps actions

variable {Q : Session τ → Prop} {react react' : Event τ → Session τ → Session τ}
  {R : List String} {s : Session τ}

/-- What a listener does keeps the invariant. -/
theorem tell_kept (I : Invariant allowed P)
    (L : Heard (fun R s => P R s ∧ s.HooksAllow allowed) react react') (e : Event τ) (id : Nat)
    (h : P R s ∧ s.HooksAllow allowed) :
    tell react e s id = tell react' e s id ∧
      (P R (tell react e s id) ∧ (tell react e s id).HooksAllow allowed) := by
  unfold tell
  cases hl : s.hooks.lookup id with
  | none => exact ⟨rfl, h⟩
  | some hook =>
    cases hr : hook.respond e s.events with
    | none =>
      simp only [hr]
      exact ⟨trivial, h⟩
    | some step =>
      have hmem : (id, hook) ∈ s.hooks := by
        obtain ⟨before, after, heq, _⟩ := List.lookup_eq_some_iff.mp hl
        simp [heq]
      have ha : allowed step := h.2 (id, hook) hmem e s.events step hr
      obtain ⟨hsame, hkeep⟩ := perform_kept I.withHooks L ha (I.withHooks.hear id h)
      simp only [hr]
      exact ⟨congrArg Prod.fst hsame, hkeep⟩

theorem tellEach_kept (I : Invariant allowed P) (hQ : ∀ {R s}, P R s → Q s)
    (derail : Event τ → Session τ → Session τ)
    (L : Heard (fun R s => P R s ∧ s.HooksAllow allowed) react react') (e : Event τ)
    (ids : List Nat) (h : P R s ∧ s.HooksAllow allowed) :
    ids.foldl (fun s id => tell react e s id) s =
        ids.foldl (fun s id => tellWithin Q derail react' e s id) s ∧
      (P R (ids.foldl (fun s id => tell react e s id) s) ∧
        (ids.foldl (fun s id => tell react e s id) s).HooksAllow allowed) := by
  induction ids generalizing s with
  | nil => exact ⟨rfl, h⟩
  | cons id rest ih =>
    obtain ⟨hsame, hkeep⟩ := tell_kept I L e id h
    have hwithin : tellWithin Q derail react' e s id = tell react e s id := by
      rw [tellWithin, if_pos (hQ h.1), hsame]
    simp only [List.foldl_cons]
    rw [hwithin]
    exact ih hkeep

/-- Listeners keep an invariant, however deep they act within each other. -/
theorem react_kept (I : Invariant allowed P) (hQ : ∀ {R s}, P R s → Q s)
    (derail : Event τ → Session τ → Session τ) (depth : Nat) :
    Heard (fun R s => P R s ∧ s.HooksAllow allowed) (Session.react depth)
      (reactWithin Q derail depth) := by
  induction depth with
  | zero =>
    refine ⟨fun {R e s} h => ?_, fun h => h⟩
    rw [reactWithin, if_pos (hQ h.1)]
    rfl
  | succ depth ih =>
    refine ⟨fun {R e s} h => ?_, fun {R e s} h => ?_⟩
    · rw [reactWithin, if_pos (hQ h.1)]
      exact (tellEach_kept I hQ derail ih e (s.hooks.map (·.1)) h).1
    · exact (tellEach_kept I hQ derail ih e (s.hooks.map (·.1)) h).2

/-- A run keeps an invariant, and keeps it in every state that a listener sees. -/
theorem steps_kept (I : Invariant allowed P) (hQ : ∀ {R s}, P R s → Q s)
    (h : P R s) (hh : s.HooksAllow allowed)
    {actions : List Step} (ha : ∀ action ∈ actions, allowed action) :
    P R (s.steps actions) ∧ ToldWithin Q s actions := by
  induction actions generalizing s with
  | nil => exact ⟨h, fun _ => rfl⟩
  | cons action rest ih =>
    have hstep : ∀ derail,
        s.step action = perform (reactWithin Q derail s.hooks.length) s action ∧
          (P R (s.step action).1 ∧ (s.step action).1.HooksAllow allowed) := fun derail =>
      perform_kept I.withHooks (react_kept I hQ derail s.hooks.length)
        (ha action List.mem_cons_self) ⟨h, hh⟩
    obtain ⟨hkeep, hhooks⟩ := (hstep fun _ s => s).2
    obtain ⟨hrest, htold⟩ := ih hkeep hhooks fun a hm => ha a (List.mem_cons_of_mem _ hm)
    refine ⟨hrest, fun derail => ?_⟩
    have : stepsWithin Q derail s (action :: rest) =
        stepsWithin Q derail (perform (reactWithin Q derail s.hooks.length) s action).1 rest := rfl
    rw [this, ← (hstep derail).1]
    exact htold derail

/-- What every update keeps, whatever steps are taken, a run keeps. -/
theorem Invariant.steps {P : List String → Session τ → Prop}
    (I : Invariant (fun _ => True) P) (h : P R s) (actions : List Step) : P R (s.steps actions) :=
  (steps_kept I (Q := fun _ => True) (fun _ => trivial) h (fun _ _ _ _ _ _ => trivial)
    fun _ _ => trivial).1

/-- A new session starts with the listeners it is given. -/
theorem hooksAllow_new {allowed : Step → Prop} (settings : Settings)
    {hooks : List (Hook τ)}
    (h : ∀ hook ∈ hooks, ∀ e es step, hook.respond e es = some step → allowed step) :
    (new settings hooks).HooksAllow allowed := by
  intro pair hm
  obtain ⟨⟨hook, id⟩, hm', rfl⟩ := List.mem_map.mp hm
  exact h hook (List.fst_mem_of_mem_zipIdx hm')

end Runs

end Session
end Stacking
