import Stacking.Proofs.Analysis
import Stacking.Proofs.Session.Record

/-!
# Findings are fresh

What a session shows for a document stems from its present text, or the session knows that it does
not. Versions may restart when a document is opened again, so that versions alone do not tell: the
proof carries two more facts along, that no version above the present one has failed, and that
without a mark of reopening no findings are of a version above it.
-/

namespace Stacking

/-! ## One document -/

/-- The knowledge of a document is fresh: nothing is known of a closed one, and an open one is due
for analysis, or known not to parse, or has the findings of its present text. -/
def Record.Fresh (p : Publication) (uri : String) (k : Record) : Prop :=
  match k.document with
  | none => k.result = none ∧ k.failed = none ∧ k.reopened = false
  | some d =>
    k.needsAnalysis = true ∨
    (k.failed = some d.version ∧ ∃ e, Stylesheet.parse d.text = .error e) ∨
    ∃ r, Analysis.ofText uri d.version p d.text = .ok r ∧ k.result = some r

/-- Fresh knowledge, with what is needed for it to stay so when a newer text comes. -/
structure Record.Tracked (p : Publication) (uri : String) (k : Record) : Prop where
  fresh : k.Fresh p uri
  failed_le : ∀ d v, k.document = some d → k.failed = some v → v ≤ d.version
  result_le : ∀ d r, k.document = some d → k.reopened = false → k.result = some r →
    r.version ≤ d.version

namespace Record

variable {p : Publication} {uri : String} {k : Record}

theorem tracked_closed (p : Publication) (uri : String) : closed.Tracked p uri where
  fresh := ⟨rfl, rfl, rfl⟩
  failed_le _ _ hd := nomatch hd
  result_le _ _ hd := nomatch hd

/-- A document that is opened is due for analysis. -/
theorem needsAnalysis_enrol (k : Record) (text : Text) (version : Int) :
    (k.enrol text version).needsAnalysis = true := by
  unfold needsAnalysis enrol
  cases k.result <;> cases k.reopened <;> simp

theorem tracked_enrol (p : Publication) (uri : String) (k : Record) (text : Text) (version : Int) :
    (k.enrol text version).Tracked p uri := by
  refine ⟨Or.inl (needsAnalysis_enrol k text version), ?_, ?_⟩
  · intro d v _ hf
    exact nomatch hf
  · intro d r _ hmark hr
    -- findings from before always leave a mark
    have hr' : k.result = some r := hr
    have hmark' : (k.result.isSome || k.reopened) = false := hmark
    rw [hr'] at hmark'
    exact nomatch hmark'

/-- Versions that could not be analysed are older than a newer text. -/
theorem Tracked.failed_lt (h : k.Tracked p uri) {version : Int}
    (hnew : ∀ d, k.document = some d → d.version < version) {v : Int} (hf : k.failed = some v) :
    v < version := by
  cases hd : k.document with
  | none =>
    have hfresh := h.fresh
    simp only [Fresh, hd] at hfresh
    rw [hf] at hfresh
    exact nomatch hfresh.2.1
  | some d =>
    have := h.failed_le d v hd hf
    have := hnew d hd
    omega

/-- Findings of a document that was not opened again are older than a newer text. -/
theorem Tracked.result_lt (h : k.Tracked p uri) {version : Int}
    (hnew : ∀ d, k.document = some d → d.version < version) {r : Analysis}
    (hmark : k.reopened = false) (hr : k.result = some r) : r.version < version := by
  cases hd : k.document with
  | none =>
    have hfresh := h.fresh
    simp only [Fresh, hd] at hfresh
    rw [hr] at hfresh
    exact nomatch hfresh.1
  | some d =>
    have := h.result_le d r hd hmark hr
    have := hnew d hd
    omega

/-- A document whose text is replaced by a newer one is due for analysis: neither what failed nor
what was found stands for the new text. -/
theorem Tracked.needsAnalysis_place (h : k.Tracked p uri) (text : Text) (version : Int)
    (hnew : ∀ d, k.document = some d → d.version < version) :
    (k.place text version).needsAnalysis = true := by
  have hne : k.failed ≠ some version := by
    intro hf
    have := h.failed_lt hnew hf
    omega
  unfold needsAnalysis Record.place
  simp only [hne, if_false]
  cases hmark : k.reopened with
  | true => rfl
  | false =>
    cases hr : k.result with
    | none => rfl
    | some r =>
      have := h.result_lt hnew hmark hr
      simpa using this

theorem Tracked.place (h : k.Tracked p uri) (text : Text) (version : Int)
    (hnew : ∀ d, k.document = some d → d.version < version) :
    (k.place text version).Tracked p uri := by
  refine ⟨Or.inl (h.needsAnalysis_place text version hnew), ?_, ?_⟩
  · intro d v hd hf
    obtain rfl : ⟨text, version⟩ = d := Option.some.inj hd
    have := h.failed_lt hnew hf
    show v ≤ version
    omega
  · intro d r hd hmark hr
    obtain rfl : ⟨text, version⟩ = d := Option.some.inj hd
    have := h.result_lt hnew hmark hr
    show r.version ≤ version
    omega

/-- A text that does not parse is marked as such. -/
theorem Tracked.refuse (h : k.Tracked p uri) {d : OpenDocument} (hd : k.document = some d)
    {e : ParseError} (he : Analysis.ofText uri d.version p d.text = .error e) :
    (k.refuse d.version).Tracked p uri := by
  have hparse : ∃ e, Stylesheet.parse d.text = .error e := by
    unfold Analysis.ofText at he
    cases hp : Stylesheet.parse d.text with
    | error e => exact ⟨e, rfl⟩
    | ok s =>
      rw [hp] at he
      exact nomatch he
  refine ⟨?_, ?_, ?_⟩
  · simp only [Fresh, Record.refuse, hd]
    exact Or.inr (Or.inl ⟨trivial, hparse⟩)
  · intro d' v hd' hf
    obtain rfl : d = d' := Option.some.inj (hd.symm.trans hd')
    obtain rfl : d.version = v := Option.some.inj hf
    exact Int.le_refl _
  · intro d' r hd' hmark hr
    exact h.result_le d' r hd' hmark hr

/-- The findings of the present text take the place of those before. -/
theorem tracked_accept {d : OpenDocument} (hd : k.document = some d) {r : Analysis}
    (hr : Analysis.ofText uri d.version p d.text = .ok r) (hv : r.version = d.version) :
    (k.accept r).Tracked p uri := by
  refine ⟨?_, ?_, ?_⟩
  · simp only [Fresh, accept, hd]
    exact Or.inr (Or.inr ⟨r, hr, rfl⟩)
  · intro d' v _ hf
    cases hf
  · intro d' r' hd' _ hr'
    obtain rfl : d = d' := Option.some.inj (hd.symm.trans hd')
    obtain rfl : r = r' := Option.some.inj hr'
    exact Int.le_of_eq hv

end Record

/-! ## All documents -/

namespace Session

variable {τ : Type}

/-- The knowledge of every document is fresh, for findings published with `p`. -/
def Fresh (p : Publication) (s : Session τ) : Prop := ∀ uri, (s.record uri).Fresh p uri

/-- Findings are published with `p`, and the knowledge of every document is fresh and stays so when
newer texts come. -/
structure Tracked (p : Publication) (s : Session τ) : Prop where
  publication : s.publication = p
  record : ∀ uri, (s.record uri).Tracked p uri

theorem Tracked.fresh {p : Publication} {s : Session τ} (h : s.Tracked p) : s.Fresh p :=
  fun uri => (h.record uri).fresh

/-- The knowledge of one document changes and stays tracked; all else is as before. -/
theorem Tracked.update {p : Publication} {s s' : Session τ} (h : s.Tracked p) (uri : String)
    (f : Record → Record) (hp : s'.publication = s.publication)
    (hr : ∀ u, s'.record u = if uri = u then f (s.record u) else s.record u)
    (hk : (f (s.record uri)).Tracked p uri) : s'.Tracked p := by
  refine ⟨hp.trans h.publication, fun u => ?_⟩
  rw [hr u]
  by_cases hu : uri = u
  · subst hu
    rw [if_pos rfl]
    exact hk
  · rw [if_neg hu]
    exact h.record u

end Session

/-- The steps of an editor and of the clock: all but those that go past the session, writing to its
documents or handing in findings. -/
def Step.Regular : Step → Prop
  | .placeDocument .. | .reviseDocument .. | .dropDocument .. | .submitResult .. => False
  | _ => True

namespace Session

variable {τ : Type}

/-- Every update keeps the knowledge of all documents fresh; what is owed does not matter. -/
theorem tracked_invariant [TimeScale τ] (p : Publication) :
    Invariant (τ := τ) Step.Regular fun _ s => s.Tracked p where
  owe _ h := h
  skip _ h := ⟨h.publication, h.record⟩
  settle _ h := h
  -- the two ends of a run: the text does not parse, or there are findings
  refuse {_ s uri d _} hd _ he h :=
    h.update uri (.refuse d.version) rfl (record_refuse s.counted uri d.version)
      ((h.record uri).refuse hd (h.publication ▸ he))
  accept {_ s uri d r} hd _ hr _ h := by
    obtain ⟨_, _, huri, hversion, _⟩ := Analysis.ofText_eq_ok hr
    subst huri
    exact h.update r.uri (.accept r) rfl (record_accept s.counted r)
      (Record.tracked_accept hd (h.publication ▸ hr) hversion)
  discard _ _ _ _ h := ⟨h.publication, h.record⟩
  overrun _ h := ⟨h.publication, h.record⟩
  take _ _ h := by rw [drop_eq]; exact ⟨h.publication, h.record⟩
  force _ _ h := by rw [exhaust, drop_eq]; exact ⟨h.publication, h.record⟩
  wait _ _ h := by rw [drop_eq]; exact ⟨h.publication, h.record⟩
  beyondClock _ h := ⟨h.publication, h.record⟩
  fire _ _ _ h := ⟨h.publication, h.record⟩
  lapse _ _ _ h := ⟨h.publication, h.record⟩
  arrive _ _ h := ⟨h.publication, h.record⟩
  hear _ h := ⟨h.publication, h.record⟩
  openDocument {_ s uri text version} _ h :=
    h.update uri (.enrol text version) rfl (record_enrol s uri text version)
      (Record.tracked_enrol _ _ _ text version)
  -- only a newer version is taken for a change
  changeDocument {_ s uri text version} _ hacc h := by
    refine h.update uri (.place text version) rfl (record_place s uri text version)
      ((h.record uri).place text version fun d hd => ?_)
    have hd' : s.documents.get? uri = some d := hd
    simpa [accepts, hd'] using hacc
  closeDocument {_ s uri} _ h := by
    have hp : (s.forget uri).publication = s.publication := by
      rw [forget, drop_eq]
      rfl
    exact h.update uri (fun _ => .closed) hp (record_forget s uri) (Record.tracked_closed _ _)
  showDocuments _ h := ⟨h.publication, h.record⟩
  activate _ h := ⟨h.publication, h.record⟩
  shutdown _ h := by rw [shutdown_eq]; exact ⟨h.publication, h.record⟩
  advance _ h := ⟨h.publication, h.record⟩
  stall _ h := ⟨h.publication, h.record⟩
  placeDocument ha := nomatch ha
  reviseDocument ha := nomatch ha
  dropDocument ha := nomatch ha
  submitResult ha := nomatch ha

theorem tracked_new [TimeScale τ] (settings : Settings) (hooks : List (Hook τ)) :
    (new settings hooks).Tracked ⟨settings.helpUri, settings.source⟩ :=
  ⟨rfl, fun uri => Record.tracked_closed _ uri⟩

/-- In every state of a session that an editor, the clock and listeners can bring about, also in
those that listeners see in the midst of a step, the knowledge of every document is fresh: nothing
is known of a closed one, and an open one is due for analysis, or its version is marked as failed
and its text does not parse, or its findings are those of its text. -/
theorem findings_fresh [TimeScale τ] (settings : Settings) (hooks : List (Hook τ))
    (hh : ∀ hook ∈ hooks, ∀ e es step, hook.respond e es = some step → step.Regular)
    (actions : List Step) (ha : ∀ action ∈ actions, action.Regular) :
    ((new settings hooks).steps actions).Fresh ⟨settings.helpUri, settings.source⟩ ∧
      ToldWithin (Fresh ⟨settings.helpUri, settings.source⟩) (new settings hooks) actions := by
  obtain ⟨htracked, htold⟩ := steps_kept (tracked_invariant _) (R := []) (fun h => h.fresh)
    (tracked_new settings hooks) (hooksAllow_new settings hh) ha
  exact ⟨htracked.fresh, htold⟩

/-- A listener that opens a document again, at a lower version, as soon as it hears of its
findings. -/
def reopeningHook : Hook Int where
  respond e _ :=
    match e with
    | .updated uri _ => some (.openDocument uri "b { z-index: 2 }".toList 0)
    | _ => none

theorem findings_fresh_reopening :
    ((new {} [reopeningHook]).steps
        [.openDocument "a" "a { z-index: 1 }".toList 7, .advance 400, .stall 2000,
          .activate (some "a"), .flush]).Fresh {} ∧
      ToldWithin (Fresh {}) (new {} [reopeningHook])
        [.openDocument "a" "a { z-index: 1 }".toList 7, .advance 400, .stall 2000,
          .activate (some "a"), .flush] := by
  refine findings_fresh {} [reopeningHook] ?_ _ ?_
  · intro hook hm e es step hstep
    obtain rfl := List.mem_singleton.mp hm
    cases e with
    | updated uri result =>
      obtain rfl := Option.some.inj hstep
      trivial
    | failed | overrun | forgotten => exact nomatch hstep
  · intro action hm
    simp only [List.mem_cons, List.not_mem_nil, or_false] at hm
    rcases hm with rfl | rfl | rfl | rfl | rfl <;> trivial

end Session
end Stacking
