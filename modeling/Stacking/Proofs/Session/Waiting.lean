import Stacking.Proofs.Session.Freshness

/-!
# No document is left waiting

Every document that is due for an analysis stands in a batch that waits for one. In the midst of a
batch this does not hold: the batch has been taken off the waiting ones, and documents of it are
still to come. What holds at every moment is `Covered`: a document that is due waits in a batch, or
is owed an analysis by a batch under way.

All of this rests on the clock being able to tell the waiting times. If it cannot, opening a
document takes effect and the batch that should follow is refused, so that the condition of
`due_waiting_iff` is exact.
-/

namespace Stacking

/-! ## Looking up keys -/

namespace Table

variable {κ α : Type} [DecidableEq κ]

theorem contains_put (t : Table κ α) (k k' : κ) (a : α) :
    (t.put k a).contains k' = (decide (k = k') || t.contains k') := by
  rw [contains_eq_isSome, contains_eq_isSome, get?_put]
  by_cases h : k = k' <;> simp [h]

theorem contains_erase (t : Table κ α) (k k' : κ) :
    (t.erase k).contains k' = (!decide (k = k') && t.contains k') := by
  rw [contains_eq_isSome, contains_eq_isSome, get?_erase]
  by_cases h : k = k' <;> simp [h]

end Table

namespace Session

variable {τ : Type}

/-- Taking a batch off leaves the others waiting. -/
theorem contains_pending_drop {s : Session τ} {key k : BatchKey} (h : s.pending.contains k = true)
    (hne : key ≠ k) : (s.drop key).pending.contains k = true := by
  unfold drop
  split
  · exact h
  · show (s.pending.erase key).contains k = true
    rw [Table.contains_erase, h]
    simp [hne]

/-- The findings of a document that is due are never stale. -/
theorem isStale_eq_false_of_due {s : Session τ} {uri : String} {d : OpenDocument} {r : Analysis}
    (hd : s.documents.get? uri = some d) (hn : s.needsAnalysis uri = true)
    (huri : r.uri = uri) (hv : r.version = d.version) : s.isStale r = false := by
  unfold isStale
  rw [huri]
  cases hr : s.results.get? uri with
  | none => rfl
  | some current =>
    cases hmark : s.reopened.contains uri with
    | true => simp
    | false =>
      have hlt : current.version < d.version := by
        simp only [needsAnalysis, hd, hr, hmark] at hn
        split at hn
        · cases hn
        · simpa using hn
      have hle : ¬ current.version > r.version := by omega
      simp [hle]

/-! ## Documents that are due -/

/-- A document waits in some batch. -/
def Waiting (s : Session τ) (uri : String) : Prop :=
  ∃ key, s.pending.contains key = true ∧ uri ∈ key

/-- Every document that is due for analysis waits in a batch. -/
def DueWaiting (s : Session τ) : Prop := ∀ uri, s.needsAnalysis uri = true → s.Waiting uri

/-- The clock can tell the waiting times, and every document that is due for analysis waits in a
batch or is owed an analysis. -/
structure Covered [TimeScale τ] (R : List String) (s : Session τ) : Prop where
  clock : s.waits?.isSome = true
  due : ∀ uri, s.needsAnalysis uri = true → uri ∈ R ∨ s.Waiting uri

variable [TimeScale τ] {R : List String} {s s' : Session τ} {key : BatchKey}

/-- Nothing changes but what is waiting: a batch that is taken off owes its documents an
analysis. -/
theorem Covered.taken (h : Covered (key ++ R) s) (hw : s'.waits? = s.waits?)
    (hn : ∀ uri, s'.needsAnalysis uri = s.needsAnalysis uri)
    (hp : ∀ k, s.pending.contains k = true → key ≠ k → s'.pending.contains k = true) :
    Covered (key ++ R) s' := by
  refine ⟨hw ▸ h.clock, fun uri hneeds => ?_⟩
  rcases h.due uri (hn uri ▸ hneeds) with howed | ⟨k, hk, hmem⟩
  · exact Or.inl howed
  · by_cases hkey : key = k
    · exact Or.inl (List.mem_append_left R (hkey ▸ hmem))
    · exact Or.inr ⟨k, hp k hk hkey, hmem⟩

theorem Covered.owe (h : Covered R s) (key : List String) : Covered (key ++ R) s :=
  ⟨h.clock, fun uri hneeds => (h.due uri hneeds).imp_left (List.mem_append_right key)⟩

/-- A batch that waits covers its documents, so that nothing is owed to them any more. -/
theorem Covered.wait (h : Covered (key ++ R) s) (first delay : τ) (forced : Bool) :
    Covered R ((s.drop key).wait key first delay forced) := by
  have hdrop : Covered (key ++ R) (s.drop key) :=
    h.taken (by rw [drop_eq]; rfl) (fun _ => by rw [drop_eq]; rfl)
      fun k hk hne => contains_pending_drop hk hne
  have hput : ∀ k, ((s.drop key).wait key first delay forced).pending.contains k =
      (decide (key = k) || (s.drop key).pending.contains k) := fun k => Table.contains_put ..
  refine ⟨hdrop.clock, fun uri hneeds => ?_⟩
  rcases hdrop.due uri hneeds with howed | ⟨k, hk, hmem⟩
  · rcases List.mem_append.mp howed with hin | hin
    · exact Or.inr ⟨key, by rw [hput]; simp, hin⟩
    · exact Or.inl hin
  · exact Or.inr ⟨k, by rw [hput, hk]; simp, hmem⟩

/-- What is known of one document changes so that it is not due afterwards. -/
theorem Covered.pay {uri : String} (h : Covered (uri :: R) s) (f : Record → Record)
    (hw : s'.waits? = s.waits?) (hp : s'.pending = s.pending)
    (hr : ∀ u, s'.record u = if uri = u then f (s.record u) else s.record u)
    (hdone : (f (s.record uri)).needsAnalysis = false) : Covered R s' := by
  refine ⟨hw ▸ h.clock, fun u hneeds => ?_⟩
  rw [needsAnalysis_eq_record, hr u] at hneeds
  by_cases hu : uri = u
  · subst hu
    rw [if_pos rfl, hdone] at hneeds
    exact nomatch hneeds
  · rw [if_neg hu] at hneeds
    rcases h.due u hneeds with howed | ⟨k, hk, hmem⟩
    · rcases List.mem_cons.mp howed with heq | hin
      · exact absurd heq.symm hu
      · exact Or.inl hin
    · exact Or.inr ⟨k, hp ▸ hk, hmem⟩

/-- What is known of one document changes, and it is owed an analysis from then on. -/
theorem Covered.incur {uri : String} (h : Covered R s) (f : Record → Record)
    (hw : s'.waits? = s.waits?) (hp : s'.pending = s.pending)
    (hr : ∀ u, s'.record u = if uri = u then f (s.record u) else s.record u) :
    Covered (uri :: R) s' := by
  refine ⟨hw ▸ h.clock, fun u hneeds => ?_⟩
  rw [needsAnalysis_eq_record, hr u] at hneeds
  by_cases hu : uri = u
  · exact Or.inl (hu ▸ List.mem_cons_self)
  · rw [if_neg hu] at hneeds
    rcases h.due u hneeds with howed | ⟨k, hk, hmem⟩
    · exact Or.inl (List.mem_cons_of_mem uri howed)
    · exact Or.inr ⟨k, hp ▸ hk, hmem⟩

end Session

/-- The regular steps but for the end of the session. -/
def Step.Ongoing : Step → Prop
  | .shutdown => False
  | step => step.Regular

theorem Step.Ongoing.regular {step : Step} (h : step.Ongoing) : step.Regular := by
  cases step <;> trivial

namespace Session

variable {τ : Type} [TimeScale τ]

theorem covered_invariant : Invariant (τ := τ) Step.Ongoing Covered where
  owe key h := h.owe key
  skip {_ s uri} hd h := by
    have hclosed : s.needsAnalysis uri = false := by simp [needsAnalysis, hd]
    exact h.pay id rfl rfl (fun _ => (ite_self _).symm) hclosed
  settle hn h := h.pay id rfl rfl (fun _ => (ite_self _).symm) hn
  refuse {_ s uri d _} hd _ _ h :=
    h.pay (.refuse d.version) rfl rfl (record_refuse s.counted uri d.version)
      (Record.needsAnalysis_refuse hd)
  accept {_ s uri d r} hd _ hr _ h := by
    obtain ⟨_, _, huri, hversion, _⟩ := Analysis.ofText_eq_ok hr
    subst huri
    exact h.pay (.accept r) rfl rfl (record_accept s.counted r)
      (Record.needsAnalysis_accept hd hversion)
  discard hd hn hr hs _ := by
    obtain ⟨_, _, huri, hversion, _⟩ := Analysis.ofText_eq_ok hr
    rw [isStale_eq_false_of_due hd hn huri hversion] at hs
    cases hs
  overrun _ h := ⟨h.clock, h.due⟩
  take {_ _ key _} _ _ h := (h.owe key).taken (by rw [drop_eq]; rfl) (fun _ => by rw [drop_eq]; rfl)
    fun _ hk hne => contains_pending_drop hk hne
  force _ _ h := h.taken (by rw [exhaust, drop_eq]; rfl) (fun _ => by rw [exhaust, drop_eq]; rfl)
    fun _ hk hne => contains_pending_drop hk hne
  wait {_ s key _ _} _ _ h := by
    have htriggered : Covered (key ++ _) (s.trigger key) := ⟨h.clock, h.due⟩
    exact htriggered.wait _ _ _
  beyondClock hw h := by
    have hclock := h.clock
    rw [hw] at hclock
    cases hclock
  fire {_ s _ _ t _} _ _ _ h := (h.owe t.key).taken rfl (fun _ => rfl) fun k hk hne => by
    show (s.pending.erase t.key).contains k = true
    rw [Table.contains_erase, hk]
    simp [hne]
  lapse _ _ _ h := ⟨h.clock, h.due⟩
  arrive _ _ h := ⟨h.clock, h.due⟩
  hear _ h := ⟨h.clock, h.due⟩
  openDocument {_ s uri text version} _ h :=
    h.incur (.enrol text version) rfl rfl (record_enrol s uri text version)
  changeDocument {_ s uri text version} _ _ h :=
    h.incur (.place text version) rfl rfl (record_place s uri text version)
  closeDocument {R s uri} _ h := by
    -- the batch that goes with the document holds no other
    refine ⟨?_, fun u hneeds => ?_⟩
    · rw [forget, drop_eq]
      exact h.clock
    · have hneeds' : ((s.forget uri).record u).needsAnalysis = true := hneeds
      rw [record_forget] at hneeds'
      by_cases hu : uri = u
      · rw [if_pos hu] at hneeds'
        cases hneeds'
      · rw [if_neg hu] at hneeds'
        refine (h.due u hneeds').imp_right ?_
        rintro ⟨k, hk, hmem⟩
        refine ⟨k, ?_, hmem⟩
        have hne : [uri] ≠ k := fun heq =>
          hu (List.mem_singleton.mp (heq ▸ hmem : u ∈ [uri])).symm
        show (Session.drop [uri] _).pending.contains k = true
        exact contains_pending_drop hk hne
  showDocuments _ h := ⟨h.clock, h.due⟩
  activate _ h := ⟨h.clock, h.due⟩
  shutdown ha := False.elim ha
  advance _ h := ⟨h.clock, h.due⟩
  stall _ h := ⟨h.clock, h.due⟩
  placeDocument ha := False.elim ha
  reviseDocument ha := False.elim ha
  dropDocument ha := False.elim ha
  submitResult ha := False.elim ha

theorem isSome_waits?_iff (s : Session τ) : s.waits?.isSome = true ↔
    (TimeScale.ofMillis? (τ := τ) s.settings.debounceMs).isSome = true ∧
      (TimeScale.ofMillis? (τ := τ) s.settings.maxWaitMs).isSome = true := by
  unfold waits?
  cases TimeScale.ofMillis? (τ := τ) s.settings.debounceMs <;>
    cases TimeScale.ofMillis? (τ := τ) s.settings.maxWaitMs <;> simp

/-- Where the clock cannot tell the waiting times, a document that is opened comes to no batch. -/
theorem step_open_of_beyondClock {s : Session τ} (h : s.waits? = none) (uri : String) (text : Text)
    (version : Int) :
    (s.step (.openDocument uri text version)).1 = (s.enrol uri text version).trigger [uri] := by
  show (debounce _ [uri] (s.enrol uri text version)).1 = _
  have hw : (s.enrol uri text version).waits? = none := h
  rw [debounce_of_beyondClock hw]

/-- Where the clock cannot tell the waiting times, the first document that is opened is due for
analysis and waits for none. -/
theorem not_dueWaiting_of_beyondClock {settings : Settings}
    (h : (new (τ := τ) settings []).waits? = none) :
    ¬ ((new (τ := τ) settings []).steps [.openDocument "" [] 0]).DueWaiting := by
  have hstate : (new (τ := τ) settings []).steps [.openDocument "" [] 0] =
      ((new settings []).enrol "" [] 0).trigger [""] := step_open_of_beyondClock h "" [] 0
  intro hdue
  obtain ⟨key, hkey, _⟩ := hdue "" (by rw [hstate]; rfl)
  rw [hstate] at hkey
  exact nomatch hkey

/-- At the end of every step that an editor, the clock and listeners take before the session ends,
every document that is due for analysis waits in a batch, exactly if the clock can tell both
waiting times. -/
theorem due_waiting_iff (settings : Settings) :
    (∀ (hooks : List (Hook τ)) (actions : List Step),
        (∀ hook ∈ hooks, ∀ e es step, hook.respond e es = some step → step.Ongoing) →
        (∀ action ∈ actions, action.Ongoing) →
        ∀ uri, ((new settings hooks).steps actions).needsAnalysis uri = true →
          ∃ key, ((new settings hooks).steps actions).pending.contains key = true ∧ uri ∈ key) ↔
      (TimeScale.ofMillis? (τ := τ) settings.debounceMs).isSome = true ∧
        (TimeScale.ofMillis? (τ := τ) settings.maxWaitMs).isSome = true := by
  have hclock : ∀ hooks : List (Hook τ), (new settings hooks).waits?.isSome = true ↔
      (TimeScale.ofMillis? (τ := τ) settings.debounceMs).isSome = true ∧
        (TimeScale.ofMillis? (τ := τ) settings.maxWaitMs).isSome = true :=
    fun hooks => isSome_waits?_iff (new settings hooks)
  constructor
  · intro h
    -- without a clock that can tell them, one step leaves a document behind
    rw [← hclock []]
    cases hw : (new (τ := τ) settings []).waits? with
    | some _ => rfl
    | none =>
      refine absurd (h [] [.openDocument "" [] 0] (fun _ hm => absurd hm List.not_mem_nil)
        fun action hm => ?_)
        (not_dueWaiting_of_beyondClock hw)
      obtain rfl := List.mem_singleton.mp hm
      trivial
  · intro h hooks actions hh ha
    have hnew : Covered (τ := τ) [] (new settings hooks) :=
      ⟨(hclock hooks).mpr h, fun uri hneeds => absurd hneeds Bool.false_ne_true⟩
    obtain ⟨hcovered, _⟩ := steps_kept covered_invariant (Q := fun _ => True)
      (fun _ => trivial) hnew (hooksAllow_new settings hh) ha
    intro uri hneeds
    exact (hcovered.due uri hneeds).resolve_left List.not_mem_nil

end Session
end Stacking
