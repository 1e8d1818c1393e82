import Stacking.Proofs.Session.Invariant

/-!
# What comes in

Documents that are opened, texts that are taken over and calls for an analysis are written into the
journal as they come, before anything is made of them. What is written of a step is read off the
step and the session that it finds (`Session.intake`), whatever then becomes of batches and timers;
anything else of this kind comes in with the steps that listeners take (`Session.TakesIn`).
-/

namespace Stacking

variable {τ : Type}

/-- Whether an entry tells of something that came in. -/
def Notice.isIntake : Notice τ → Bool
  | .opened _ | .received .. | .triggered .. => true
  | _ => false

namespace Session

/-- What is written down of a call for an analysis of a batch. -/
def calls (s : Session τ) : BatchKey → List (Notice τ)
  | [] => []
  | key => [.triggered key s.now (s.pending.contains key)]

/-- What comes in with a step, the latest entry first: documents that are opened or changed are
called for, and so are those in need of an analysis that come to be shown or worked on. -/
def intake (s : Session τ) : Step → List (Notice τ)
  | .openDocument uri _ version => s.calls [uri] ++ [.received uri version s.now, .opened uri]
  | .changeDocument uri _ version =>
    if s.accepts uri version then s.calls [uri] ++ [.received uri version s.now] else []
  | .showDocuments uris => s.calls (BatchKey.ofList (uris.filter s.needsAnalysis))
  | .activate (some uri) => if s.needsAnalysis uri then s.calls [uri] else []
  | _ => []

/-- What has come in so far, the latest first. -/
def arrivals (s : Session τ) : List (Notice τ) := s.journal.filter Notice.isIntake

/-- What has come in grows by what comes in with steps that listeners take: each of them takes its
step in a session to which just the entries before have come. -/
inductive Brings (hooks : List (Nat × Hook τ)) (before : List (Notice τ)) :
    List (Notice τ) → Prop
  | refl : Brings hooks before before
  | act {s : Session τ} {e step hook} (h : Brings hooks before s.arrivals) (hhook : hook ∈ hooks)
      (hstep : hook.2.respond e s.events = some step) :
      Brings hooks before (s.intake step ++ s.arrivals)

namespace Brings

variable {hooks hooks' : List (Nat × Hook τ)} {h₀ h₁ h₂ : List (Notice τ)}

theorem trans (h : Brings hooks h₀ h₁) (h' : Brings hooks h₁ h₂) : Brings hooks h₀ h₂ := by
  induction h' with
  | refl => exact h
  | act _ hhook hstep ih => exact ih.act hhook hstep

theorem mono (hsubset : hooks ⊆ hooks') (h : Brings hooks h₀ h₁) : Brings hooks' h₀ h₁ := by
  induction h with
  | refl => exact .refl
  | act _ hhook hstep ih => exact ih.act (hsubset hhook) hstep

end Brings

/-- From a session to a later one some entries come in, and then only what listeners bring in. -/
structure TakesIn (came : List (Notice τ)) (s s' : Session τ) : Prop where
  hooks : s'.hooks ⊆ s.hooks
  arrivals : Brings s.hooks (came ++ s.arrivals) s'.arrivals

namespace TakesIn

variable {came : List (Notice τ)} {s s₁ s₂ : Session τ}

/-- Nothing comes in where the journal tells of nothing else. -/
theorem of_eq (hhooks : s₁.hooks = s.hooks) (h : s₁.arrivals = came ++ s.arrivals) :
    TakesIn came s s₁ :=
  ⟨hhooks ▸ List.Subset.refl _, h ▸ .refl⟩

theorem refl (s : Session τ) : TakesIn [] s s := of_eq rfl rfl

/-- What comes in does not depend on anything else. -/
theorem congr (h : TakesIn came s₁ s₂) (hhooks : s₁.hooks = s.hooks)
    (harrivals : s₁.arrivals = s.arrivals) : TakesIn came s s₂ :=
  ⟨hhooks ▸ h.hooks, hhooks ▸ harrivals ▸ h.arrivals⟩

theorem trans (h : TakesIn came s s₁) (h' : TakesIn [] s₁ s₂) : TakesIn came s s₂ :=
  ⟨List.Subset.trans h'.hooks h.hooks, h.arrivals.trans (h'.arrivals.mono h.hooks)⟩

/-- Entries that came in before. -/
theorem after {before : List (Notice τ)} (h : TakesIn came s₁ s₂) (hhooks : s₁.hooks = s.hooks)
    (hbefore : s₁.arrivals = before ++ s.arrivals) : TakesIn (came ++ before) s s₂ := by
  obtain ⟨hsubset, harrivals⟩ := h
  rw [hhooks] at hsubset harrivals
  rw [hbefore, ← List.append_assoc] at harrivals
  exact ⟨hsubset, harrivals⟩

/-- Something is told of that did not come in. -/
theorem tell (h : TakesIn came s s₁) {n : Notice τ} (hn : n.isIntake = false) :
    TakesIn came s (s₁.note n) := by
  refine h.trans (of_eq rfl ?_)
  show (n :: s₁.journal).filter Notice.isIntake = _
  rw [List.filter_cons_of_neg (by simp [hn])]
  rfl

end TakesIn

section Operations

variable {react : Event τ → Session τ → Session τ}

theorem takesIn_drop (key : BatchKey) (s : Session τ) : TakesIn [] s (s.drop key) :=
  .of_eq (hooks_drop key s) (by rw [arrivals, journal_drop]; rfl)

variable (hreact : ∀ e s, TakesIn [] s (react e s))
include hreact

theorem takesIn_store (result : Analysis) (s : Session τ) :
    TakesIn [] s (store react result s).1 := by
  cases hs : s.isStale result with
  | true =>
    rw [store_of_stale result hs]
    exact .refl s
  | false =>
    rw [store_of_not_stale result hs]
    exact (hreact _ (s.accept result)).congr rfl rfl

theorem takesIn_run (uri : String) (s : Session τ) : TakesIn [] s (run react uri s) := by
  unfold run
  cases s.documents.get? uri with
  | none => exact (TakesIn.refl s).tell rfl
  | some d =>
    dsimp only
    split
    · split
      · exact (hreact _ (s.counted.refuse uri d.version)).congr rfl rfl
      · exact (takesIn_store hreact _ s.counted).congr rfl rfl
    · exact .refl s

theorem takesIn_runEach (key : BatchKey) (s : Session τ) :
    TakesIn [] s (key.foldl (fun s uri => run react uri s) s) := by
  induction key generalizing s with
  | nil => exact .refl s
  | cons uri rest ih => exact (takesIn_run hreact uri s).trans (ih _)

variable [TimeScale τ]

theorem takesIn_runBatch (key : BatchKey) (first : τ) (forced : Bool) (s : Session τ) :
    TakesIn [] s (runBatch react key first forced s) := by
  cases forced with
  | false => exact takesIn_runEach hreact key s
  | true => exact (hreact _ s).trans (takesIn_runEach hreact key _)

theorem takesIn_putOff (window maxWait : τ) (key : BatchKey) (s : Session τ) :
    TakesIn [] s (putOff react window maxWait key s) := by
  rw [putOff_eq]
  split
  · exact ((takesIn_drop key s).tell rfl).trans (takesIn_runBatch hreact key _ true _)
  · exact (takesIn_drop key s).trans (.of_eq rfl rfl)

/-- A call for an analysis is written down, whatever comes of it. -/
theorem takesIn_debounce (key : BatchKey) (s : Session τ) :
    TakesIn [.triggered key s.now (s.pending.contains key)] s (debounce react key s).1 := by
  have htriggered : TakesIn [.triggered key s.now (s.pending.contains key)] s (s.trigger key) :=
    .of_eq rfl rfl
  cases hw : s.waits? with
  | none => exact debounce_of_beyondClock hw key ▸ htriggered
  | some waits =>
    obtain ⟨window, maxWait⟩ := waits
    rw [debounce_of_waits hw]
    exact htriggered.trans (takesIn_putOff hreact window maxWait key _)

theorem takesIn_fire (key : BatchKey) (s : Session τ) : TakesIn [] s (fire react key s) := by
  unfold fire
  split
  · exact .refl s
  · rename_i b _
    have htold : TakesIn [] s (s.release key b) := .of_eq rfl rfl
    exact htold.trans (takesIn_runBatch hreact key b.first b.forced _)

theorem takesIn_fireDue (target : τ) (count : Nat) (s : Session τ) :
    TakesIn [] s (fireDue react target count s) := by
  induction count generalizing s with
  | zero => exact .refl s
  | succ count ih =>
    unfold fireDue
    split
    · exact .refl s
    · rename_i t _
      exact ((takesIn_fire hreact t.key (s.expire t)).trans (ih _)).congr rfl rfl

theorem takesIn_runTo (target : τ) (s : Session τ) : TakesIn [] s (runTo react target s) :=
  (takesIn_fireDue hreact target (s.timers.length + s.hooks.length) s).trans (.of_eq rfl rfl)

theorem takesIn_flushKeys (keys : List BatchKey) (s : Session τ) :
    TakesIn [] s (flushKeys react keys s).1 := by
  induction keys generalizing s with
  | nil => exact .refl s
  | cons key rest ih =>
    unfold flushKeys
    split
    · exact .refl s
    · exact ((takesIn_drop key s).trans (takesIn_runBatch hreact key _ false _)).trans (ih _)

/-- What comes in with a step is written down as it comes. All else that is written down of this
kind is brought in by what is made of the events. -/
theorem takesIn_perform (s : Session τ) (action : Step) :
    TakesIn (s.intake action) s (perform react s action).1 := by
  cases action with
  | openDocument uri text version =>
    exact (takesIn_debounce hreact [uri] (s.enrol uri text version)).after rfl rfl
  | changeDocument uri text version =>
    simp only [perform, changed, intake]
    split
    · let received := (s.place uri text version).note (.received uri version s.now)
      exact (takesIn_debounce hreact [uri] received).after rfl rfl
    · exact .refl s
  | closeDocument uri =>
    have hforgotten : TakesIn [] s (s.forget uri) :=
      .of_eq (by rw [forget, drop_eq]; rfl) (by rw [forget, drop_eq]; rfl)
    exact hforgotten.trans (hreact _ _)
  | showDocuments uris =>
    have hneeds : { s with visible := uris }.needsAnalysis = s.needsAnalysis := rfl
    simp only [perform, shown, intake, hneeds]
    cases BatchKey.ofList (uris.filter s.needsAnalysis) with
    | nil => exact .of_eq rfl rfl
    | cons u rest =>
      exact (takesIn_debounce hreact (u :: rest) { s with visible := uris }).congr rfl rfl
  | activate uri =>
    have hneeds : { s with active := uri }.needsAnalysis = s.needsAnalysis := rfl
    cases uri with
    | none => exact .of_eq rfl rfl
    | some u =>
      simp only [perform, activated, intake, hneeds]
      split
      · exact (takesIn_debounce hreact [u] { s with active := some u }).congr rfl rfl
      · exact .of_eq rfl rfl
  | unsupported value => exact .refl s
  | flush => exact takesIn_flushKeys hreact s.pending.keys s
  | shutdown =>
    have hdropped : TakesIn [] s s.shutdown :=
      .of_eq (by rw [shutdown_eq]) (by rw [shutdown_eq]; rfl)
    exact hdropped
  | advance millis =>
    simp only [perform, advance]
    split
    · exact .of_eq rfl rfl
    · exact (takesIn_runTo hreact _ { s with millis := s.millis + millis }).congr rfl rfl
  | stall millis =>
    simp only [perform, stall]
    split <;> exact .of_eq rfl rfl
  | placeDocument uri text version => exact .of_eq rfl rfl
  | reviseDocument uri text version =>
    simp only [perform]
    split <;> exact .of_eq rfl rfl
  | dropDocument uri => exact .of_eq rfl rfl
  | submitResult result => exact takesIn_store hreact result s

omit hreact

/-- What a listener brings in, if it acts now, comes in with the step that it takes. -/
theorem takesIn_tell (hreact : ∀ e s, TakesIn [] s (react e s)) (e : Event τ) (s : Session τ)
    (id : Nat) : TakesIn [] s (tell react e s id) := by
  unfold tell
  cases hl : s.hooks.lookup id with
  | none => exact .refl s
  | some hook =>
    have hmem : (id, hook) ∈ s.hooks := by
      obtain ⟨before, after, heq, -⟩ := List.lookup_eq_some_iff.mp hl
      simp [heq]
    cases hr : hook.respond e s.events with
    | none =>
      simp only [hr]
      exact .refl s
    | some step =>
      simp only [hr]
      have hfewer : s.hooks.filter (·.1 ≠ id) ⊆ s.hooks := List.filter_sublist.subset
      have hstep := takesIn_perform hreact { s with hooks := s.hooks.filter (·.1 ≠ id) } step
      have hbrought : Brings s.hooks s.arrivals (s.intake step ++ s.arrivals) :=
        Brings.refl.act hmem hr
      exact ⟨List.Subset.trans hstep.hooks hfewer, hbrought.trans (hstep.arrivals.mono hfewer)⟩

/-- However deep listeners act within each other, only they bring anything in. -/
theorem takesIn_react (depth : Nat) (e : Event τ) (s : Session τ) :
    TakesIn [] s (Session.react depth e s) := by
  induction depth generalizing e s with
  | zero => exact (TakesIn.refl s).tell rfl
  | succ depth ih =>
    have htold : TakesIn [] s (s.note (.event e)) := (TakesIn.refl s).tell rfl
    refine htold.trans ?_
    show TakesIn [] _ ((s.hooks.map (·.1)).foldl
      (fun s id => tell (Session.react depth) e s id) (s.note (.event e)))
    generalize s.note (.event e) = s₁
    induction s.hooks.map (·.1) generalizing s₁ with
    | nil => exact .refl s₁
    | cons id rest ihRest => exact (takesIn_tell ih e s₁ id).trans (ihRest _)

end Operations

end Session
end Stacking
