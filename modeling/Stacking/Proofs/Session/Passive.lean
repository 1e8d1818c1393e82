import Stacking.Proofs.Session.Timers

/-!
# Listeners that only listen

Where no listener acts, all that becomes of an event is an entry in the journal. What a session does
can then be computed without its listeners (`step_of_passive`), and analysing documents touches
neither the documents, nor the batches and timers, nor the clock (`Stands`).
-/

namespace Stacking
namespace Session

variable {τ : Type}

/-- No listener ever acts. -/
def Passive (s : Session τ) : Prop := ∀ hook ∈ s.hooks, ∀ e es, hook.2.respond e es = none

/-- What becomes of an event where no listener acts. -/
def noted (e : Event τ) (s : Session τ) : Session τ := s.note (.event e)

theorem passive_new [TimeScale τ] (settings : Settings) {hooks : List (Hook τ)}
    (h : ∀ hook ∈ hooks, ∀ e es, hook.respond e es = none) : (new settings hooks).Passive := by
  intro pair hm
  obtain ⟨⟨hook, id⟩, hm', rfl⟩ := List.mem_map.mp hm
  exact h hook (List.fst_mem_of_mem_zipIdx hm')

/-! ## What analysing leaves alone -/

/-- The documents, the waiting batches with their timers, and the clock are as before. -/
structure Stands (s s' : Session τ) : Prop where
  settings : s'.settings = s.settings
  documents : s'.documents = s.documents
  pending : s'.pending = s.pending
  timers : s'.timers = s.timers
  nextTimer : s'.nextTimer = s.nextTimer
  now : s'.now = s.now
  millis : s'.millis = s.millis

theorem Stands.refl (s : Session τ) : Stands s s := ⟨rfl, rfl, rfl, rfl, rfl, rfl, rfl⟩

theorem Stands.trans {s₁ s₂ s₃ : Session τ} (h : Stands s₁ s₂) (h' : Stands s₂ s₃) :
    Stands s₁ s₃ :=
  ⟨h'.settings.trans h.settings, h'.documents.trans h.documents, h'.pending.trans h.pending,
    h'.timers.trans h.timers, h'.nextTimer.trans h.nextTimer, h'.now.trans h.now,
    h'.millis.trans h.millis⟩

theorem Stands.timed {s s' : Session τ} (h : Stands s s') (ht : s.Timed) : s'.Timed :=
  ht.congr h.pending h.timers h.nextTimer

theorem stands_store (result : Analysis) (s : Session τ) : Stands s (store noted result s).1 := by
  cases hs : s.isStale result with
  | true =>
    rw [store_of_stale result hs]
    exact .refl s
  | false =>
    rw [store_of_not_stale result hs]
    exact ⟨rfl, rfl, rfl, rfl, rfl, rfl, rfl⟩

theorem stands_run (uri : String) (s : Session τ) : Stands s (run noted uri s) := by
  unfold run
  cases s.documents.get? uri with
  | none => exact ⟨rfl, rfl, rfl, rfl, rfl, rfl, rfl⟩
  | some d =>
    simp only
    split
    · have hcounted : Stands s { s with runs := s.runs + 1 } := ⟨rfl, rfl, rfl, rfl, rfl, rfl, rfl⟩
      split
      · exact ⟨rfl, rfl, rfl, rfl, rfl, rfl, rfl⟩
      · exact hcounted.trans (stands_store _ _)
    · exact .refl s

theorem stands_runEach (key : BatchKey) (s : Session τ) :
    Stands s (key.foldl (fun s uri => run noted uri s) s) := by
  induction key generalizing s with
  | nil => exact .refl s
  | cons uri rest ih => exact (stands_run uri s).trans (ih _)

/-! ## Steps without listeners -/

variable [TimeScale τ] {s : Session τ}

/-- A listener that never acts leaves the session as it is. -/
theorem tell_of_passive (h : s.Passive) (react : Event τ → Session τ → Session τ) (e : Event τ)
    (id : Nat) : tell react e s id = s := by
  unfold tell
  cases hl : s.hooks.lookup id with
  | none => rfl
  | some hook =>
    have hmem : (id, hook) ∈ s.hooks := by
      obtain ⟨before, after, heq, _⟩ := List.lookup_eq_some_iff.mp hl
      simp [heq]
    have hnone : hook.respond e s.events = none := h (id, hook) hmem e s.events
    simp only [hnone]

theorem react_of_passive (h : s.Passive) (depth : Nat) (e : Event τ) :
    react depth e s = noted e s := by
  cases depth with
  | zero => rfl
  | succ depth =>
    have hpassive : (s.note (.event e)).Passive := h
    show (s.hooks.map (·.1)).foldl (fun s id => tell (react depth) e s id) (s.note (.event e)) = _
    induction s.hooks.map (·.1) with
    | nil => rfl
    | cons id rest ih =>
      rw [List.foldl_cons, tell_of_passive hpassive]
      exact ih

/-- Nothing that is done to a session makes a listener act that never does. -/
theorem passive_invariant : Invariant (τ := τ) (fun _ => True) fun _ s => s.Passive where
  owe _ h := h
  skip _ h := h
  settle _ h := h
  refuse _ _ _ h := h
  accept _ _ _ _ h := h
  discard _ _ _ _ h := h
  overrun _ h := h
  take _ _ h := by rw [drop_eq]; exact h
  force _ _ h := by rw [exhaust, drop_eq]; exact h
  wait _ _ h := by rw [drop_eq]; exact h
  beyondClock _ h := h
  fire _ _ _ h := h
  lapse _ _ _ h := h
  arrive _ _ h := h
  hear _ h := fun hook hm => h hook (List.mem_filter.mp hm).1
  openDocument _ h := h
  changeDocument _ _ h := h
  closeDocument _ h := by rw [forget, drop_eq]; exact h
  showDocuments _ h := h
  activate _ h := h
  shutdown _ h := by rw [shutdown_eq]; exact h
  advance _ h := h
  stall _ h := h
  placeDocument _ h := h
  reviseDocument _ _ h := h
  dropDocument _ h := h
  submitResult _ _ h := h

/-- A step with listeners that never act is one with no listeners. -/
theorem step_of_passive (h : s.Passive) (action : Step) :
    s.step action = perform noted s action ∧ (s.step action).1.Passive := by
  have hheard : Heard (fun _ s => s.Passive) (react s.hooks.length) (noted (τ := τ)) := by
    refine ⟨fun {_ e s} hp => react_of_passive (s := s) hp _ e, fun {_ e s} hp => ?_⟩
    rw [react_of_passive (s := s) hp]
    exact hp
  exact perform_kept passive_invariant hheard trivial (R := []) h

theorem Passive.steps (h : s.Passive) (actions : List Step) : (s.steps actions).Passive :=
  passive_invariant.steps (R := []) h actions

theorem Timed.steps (h : s.Timed) (actions : List Step) : (s.steps actions).Timed :=
  timed_invariant.steps (R := []) h actions

/-! ## Analyses and flushes without listeners -/

theorem stands_runBatch (key : BatchKey) (first : τ) (forced : Bool) (s : Session τ) :
    Stands s (runBatch noted key first forced s) := by
  cases forced with
  | false => exact stands_runEach key s
  | true =>
    have hnoted : Stands s (noted (.overrun key (TimeScale.sub s.now first)) s) :=
      ⟨rfl, rfl, rfl, rfl, rfl, rfl, rfl⟩
    exact hnoted.trans (stands_runEach key _)

/-- A flush of distinct batches that wait takes exactly these off and completes. -/
theorem flushKeys_noted {keys : List BatchKey} (hnodup : keys.Nodup)
    (h : ∀ key ∈ keys, s.pending.contains key = true) :
    (flushKeys noted keys s).2 = none ∧
      (flushKeys noted keys s).1.documents = s.documents ∧
      ∀ k, (flushKeys noted keys s).1.pending.get? k =
        if k ∈ keys then none else s.pending.get? k := by
  induction keys generalizing s with
  | nil => exact ⟨rfl, rfl, fun k => rfl⟩
  | cons key rest ih =>
    obtain ⟨hkey, hrest⟩ := List.nodup_cons.mp hnodup
    have hwaits := h key List.mem_cons_self
    rw [Table.contains_eq_isSome] at hwaits
    obtain ⟨b, hb⟩ := Option.isSome_iff_exists.mp hwaits
    -- the analysis leaves the batches alone that are still to come
    have hstands := stands_runBatch key b.first false (s.drop key)
    have hget : ∀ k, (runBatch noted key b.first false (s.drop key)).pending.get? k =
        if key = k then none else s.pending.get? k := by
      intro k
      rw [hstands.pending, get?_pending_drop]
    have hstill : ∀ k ∈ rest,
        (runBatch noted key b.first false (s.drop key)).pending.contains k = true := by
      intro k hk
      have hne : key ≠ k := fun heq => hkey (heq ▸ hk)
      rw [Table.contains_eq_isSome, hget, if_neg hne, ← Table.contains_eq_isSome]
      exact h k (List.mem_cons_of_mem key hk)
    obtain ⟨hdone, hdocuments, hpending⟩ := ih hrest hstill
    rw [flushKeys, hb]
    refine ⟨hdone, ?_, fun k => ?_⟩
    · rw [hdocuments, hstands.documents, drop_eq]
    · rw [hpending, hget]
      by_cases hk : k ∈ rest
      · rw [if_pos hk, if_pos (List.mem_cons_of_mem key hk)]
      · by_cases heq : key = k
        · rw [if_neg hk, if_pos heq, if_pos (heq ▸ List.mem_cons_self)]
        · have hnot : k ∉ key :: rest := by
            rw [List.mem_cons, not_or]
            exact ⟨Ne.symm heq, hk⟩
          rw [if_neg hk, if_neg heq, if_neg hnot]

end Session
end Stacking
