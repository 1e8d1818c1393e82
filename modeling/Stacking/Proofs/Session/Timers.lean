import Mathlib.Data.List.Nodup
import Stacking.Proofs.Session.Invariant

/-!
# Waiting batches and timers

A batch that waits has set a timer, and it keeps the number of that timer. Timers are set, taken
back and gone off in many places: when a batch is put off, when it is analysed at once, when its
timer goes off, when it is flushed, and when a document or the session is closed. Wherever one of
them happens, the batch and its timer come and go together, so that the waiting batches and the
timers that are set belong to each other one to one (`Session.timers_paired`).
-/

namespace Stacking

/-! ## The keys of a table -/

namespace Table

variable {κ α : Type} [DecidableEq κ]

theorem mem_keys_iff (t : Table κ α) (k : κ) : k ∈ t.keys ↔ ∃ a, t.get? k = some a := by
  rw [← Option.isSome_iff_exists, ← contains_eq_isSome, contains, List.any_eq_true, keys]
  simp only [List.mem_map, decide_eq_true_eq]

theorem get?_of_get?_erase {t : Table κ α} {k k' : κ} {a : α} (h : (t.erase k).get? k' = some a) :
    t.get? k' = some a := by
  rw [get?_erase] at h
  split at h
  · cases h
  · exact h

theorem nodup_keys_erase {t : Table κ α} (h : t.keys.Nodup) (k : κ) : (t.erase k).keys.Nodup :=
  h.sublist (List.filter_sublist.map _)

theorem mem_map_putEntry {k x : κ} {a : α} {entries : List (κ × α)}
    (h : x ∈ (putEntry k a entries).map (·.1)) : x = k ∨ x ∈ entries.map (·.1) := by
  induction entries with
  | nil => exact Or.inl (List.mem_singleton.mp h)
  | cons e rest ih =>
    rw [putEntry] at h
    split at h
    · rcases List.mem_cons.mp h with rfl | hx
      · exact Or.inl rfl
      · exact Or.inr (List.mem_cons_of_mem _ hx)
    · rcases List.mem_cons.mp h with rfl | hx
      · exact Or.inr List.mem_cons_self
      · exact (ih hx).imp_right (List.mem_cons_of_mem _)

theorem nodup_map_putEntry (k : κ) (a : α) {entries : List (κ × α)}
    (h : (entries.map (·.1)).Nodup) : ((putEntry k a entries).map (·.1)).Nodup := by
  induction entries with
  | nil => exact List.nodup_singleton k
  | cons e rest ih =>
    obtain ⟨hnot, hrest⟩ := List.nodup_cons.mp h
    rw [putEntry]
    split
    · rename_i he
      exact List.nodup_cons.mpr ⟨he ▸ hnot, hrest⟩
    · rename_i he
      exact List.nodup_cons.mpr ⟨fun hin => (mem_map_putEntry hin).elim he hnot, ih hrest⟩

theorem nodup_keys_put {t : Table κ α} (h : t.keys.Nodup) (k : κ) (a : α) :
    (t.put k a).keys.Nodup :=
  nodup_map_putEntry k a h

end Table

namespace Session

variable {τ : Type}

/-! ## Batches and their timers -/

/-- The waiting batches and the timers that are set belong to each other one to one. -/
structure Paired (s : Session τ) : Prop where
  /-- No two batches wait under one key. -/
  keys : s.pending.keys.Nodup
  /-- No two timers have one number. -/
  ids : (s.timers.map (·.id)).Nodup
  /-- A waiting batch keeps the number of a timer that goes off for it, and no other timer does. -/
  timer : ∀ key b, s.pending.get? key = some b →
    ∃ t ∈ s.timers, t.id = b.timer ∧ t.key = key ∧ ∀ u ∈ s.timers, u.key = key → u = t
  /-- A timer goes off for a waiting batch that keeps its number. -/
  batch : ∀ t ∈ s.timers, ∃ b, s.pending.get? t.key = some b ∧ b.timer = t.id

/-- What keeps batches and timers paired: besides, numbers of timers are given once only. -/
structure Timed (s : Session τ) : Prop where
  keys : s.pending.keys.Nodup
  ids : (s.timers.map (·.id)).Nodup
  fresh : ∀ t ∈ s.timers, t.id < s.nextTimer
  timer : ∀ key b, s.pending.get? key = some b → ∃ t ∈ s.timers, t.id = b.timer ∧ t.key = key
  batch : ∀ t ∈ s.timers, ∃ b, s.pending.get? t.key = some b ∧ b.timer = t.id

variable {s s' : Session τ}

/-- Whether batches and timers are paired shows in them alone. -/
theorem Timed.congr (h : s.Timed) (hp : s'.pending = s.pending) (ht : s'.timers = s.timers)
    (hn : s'.nextTimer = s.nextTimer) : s'.Timed where
  keys := hp ▸ h.keys
  ids := ht ▸ h.ids
  fresh := by rw [ht, hn]; exact h.fresh
  timer := by rw [hp, ht]; exact h.timer
  batch := by rw [hp, ht]; exact h.batch

/-- Timers with one number are one timer. -/
theorem Timed.eq_of_id (h : s.Timed) {t u : Timer τ} (ht : t ∈ s.timers) (hu : u ∈ s.timers)
    (hid : t.id = u.id) : t = u :=
  List.inj_on_of_nodup_map h.ids ht hu hid

theorem Timed.paired (h : s.Timed) : s.Paired where
  keys := h.keys
  ids := h.ids
  batch := h.batch
  timer := by
    intro key b hb
    obtain ⟨t, ht, hid, hkey⟩ := h.timer key b hb
    refine ⟨t, ht, hid, hkey, fun u hu hukey => h.eq_of_id hu ht ?_⟩
    -- the other timer finds the same batch
    obtain ⟨b', hb', hid'⟩ := h.batch u hu
    rw [hukey, hb] at hb'
    obtain rfl := Option.some.inj hb'
    rw [← hid', hid]

/-- A batch and its timer are taken off together. -/
theorem Timed.remove (h : s.Timed) {key : BatchKey} {b : Batch τ}
    (hb : s.pending.get? key = some b) :
    Timed { s with
      pending := s.pending.erase key
      timers := s.timers.filter (·.id ≠ b.timer) } where
  keys := Table.nodup_keys_erase h.keys key
  ids := h.ids.sublist (List.filter_sublist.map _)
  fresh := fun t ht => h.fresh t (List.mem_filter.mp ht).1
  timer := by
    intro k b' hb'
    rw [Table.get?_erase] at hb'
    split at hb'
    · cases hb'
    · rename_i hne
      obtain ⟨t, ht, hid, hkey⟩ := h.timer k b' hb'
      refine ⟨t, List.mem_filter.mpr ⟨ht, ?_⟩, hid, hkey⟩
      simp only [ne_eq, decide_eq_true_eq]
      intro hsame
      -- the timer would be that of the batch taken off
      obtain ⟨u, hu, huid, hukey⟩ := h.timer key b hb
      obtain rfl := h.eq_of_id ht hu (hsame.trans huid.symm)
      exact hne (hukey.symm.trans hkey)
  batch := by
    intro t ht
    obtain ⟨ht, hid⟩ := List.mem_filter.mp ht
    obtain ⟨b', hb', hid'⟩ := h.batch t ht
    refine ⟨b', ?_, hid'⟩
    rw [Table.get?_erase, if_neg, hb']
    rintro rfl
    rw [hb] at hb'
    obtain rfl := Option.some.inj hb'
    simp [hid'] at hid

theorem Timed.drop (h : s.Timed) (key : BatchKey) : (s.drop key).Timed := by
  unfold Session.drop
  cases hb : s.pending.get? key with
  | none => exact h
  | some b => exact (h.remove hb).congr rfl rfl rfl

theorem Timed.shutdown (h : s.Timed) : s.shutdown.Timed := by
  unfold Session.shutdown
  induction s.pending.keys generalizing s with
  | nil => exact h
  | cons key rest ih => exact ih (h.drop key)

theorem get?_pending_drop (s : Session τ) (key k : BatchKey) :
    (s.drop key).pending.get? k = if key = k then none else s.pending.get? k := by
  unfold Session.drop
  cases hb : s.pending.get? key with
  | none =>
    by_cases hk : key = k
    · rw [if_pos hk, ← hk]
      exact hb
    · rw [if_neg hk]
  | some b => exact Table.get?_erase _ _ _

theorem get?_pending_of_drop {s : Session τ} {key k : BatchKey} {b : Batch τ}
    (h : (s.drop key).pending.get? k = some b) : s.pending.get? k = some b := by
  unfold Session.drop at h
  split at h
  · exact h
  · exact Table.get?_of_get?_erase h

theorem mem_timers_of_drop {s : Session τ} {key : BatchKey} {t : Timer τ}
    (h : t ∈ (s.drop key).timers) : t ∈ s.timers := by
  unfold Session.drop at h
  split at h
  · exact h
  · exact (List.mem_filter.mp h).1

theorem Timed.trigger (h : s.Timed) (key : BatchKey) : (s.trigger key).Timed :=
  h.congr rfl rfl rfl

variable [TimeScale τ]

/-- A timer is set together with its batch. -/
theorem Timed.wait (h : s.Timed) (key : BatchKey) (first delay : τ) (forced : Bool) :
    ((s.drop key).wait key first delay forced).Timed := by
  have hdrop := h.drop key
  have hnone : (s.drop key).pending.get? key = none := by rw [get?_pending_drop, if_pos rfl]
  generalize s.drop key = s at hdrop hnone ⊢
  refine ⟨Table.nodup_keys_put hdrop.keys _ _, ?_, ?_, ?_, ?_⟩
  · rw [Session.wait, List.map_append, List.nodup_append]
    refine ⟨hdrop.ids, List.nodup_singleton _, ?_⟩
    intro i hi j hj
    obtain ⟨t, ht, rfl⟩ := List.mem_map.mp hi
    obtain rfl := List.mem_singleton.mp hj
    exact Nat.ne_of_lt (hdrop.fresh t ht)
  · intro t ht
    rcases List.mem_append.mp ht with ht | ht
    · exact Nat.lt_succ_of_lt (hdrop.fresh t ht)
    · obtain rfl := List.mem_singleton.mp ht
      exact Nat.lt_succ_self _
  · intro k b hb
    have hb : (s.pending.put key ⟨first, s.nextTimer, forced⟩).get? k = some b := hb
    rw [Table.get?_put] at hb
    split at hb
    · rename_i hk
      obtain rfl := Option.some.inj hb
      exact ⟨_, List.mem_append_right _ (List.mem_singleton_self _), rfl, hk⟩
    · obtain ⟨t, ht, hid, hkey⟩ := hdrop.timer k b hb
      exact ⟨t, List.mem_append_left _ ht, hid, hkey⟩
  · intro t ht
    show ∃ b, (s.pending.put key ⟨first, s.nextTimer, forced⟩).get? t.key = some b ∧
      b.timer = t.id
    rcases List.mem_append.mp ht with ht | ht
    · obtain ⟨b, hb, hid⟩ := hdrop.batch t ht
      refine ⟨b, ?_, hid⟩
      rw [Table.get?_put, if_neg, hb]
      rintro rfl
      rw [hnone] at hb
      cases hb
    · obtain rfl := List.mem_singleton.mp ht
      exact ⟨_, by rw [Table.get?_put, if_pos rfl], rfl⟩

/-- A timer that goes off is one less. -/
theorem length_timers_expire_lt {t : Timer τ} (ht : t ∈ s.timers) :
    (s.expire t).timers.length < s.timers.length :=
  List.length_filter_lt_length_iff_exists.mpr ⟨t, ht, by simp⟩

/-- The timer that goes off first is one of those that are set. -/
theorem mem_of_nextDue? {target : τ} {timers : List (Timer τ)} {t : Timer τ}
    (h : nextDue? target timers = some t) : t ∈ timers := by
  -- so is the best of those looked at so far
  have hbest : ∀ u, nextDue? target timers = some u → u ∈ timers := by
    unfold nextDue?
    refine List.foldlRecOn (motive := fun best => ∀ u, best = some u → u ∈ timers) _ _ nofun ?_
    intro best ih u hu w hw
    have hmem : u ∈ timers := (List.mem_filter.mp hu).1
    cases best with
    | none => exact Option.some.inj hw ▸ hmem
    | some b =>
      simp only at hw
      split at hw
      · exact Option.some.inj hw ▸ hmem
      · exact ih w hw
  exact hbest t h

/-- A timer that goes off takes its batch along. -/
theorem Timed.fire (h : s.Timed) {t : Timer τ} (ht : t ∈ s.timers) (b' : Batch τ) :
    ((s.expire t).release t.key b').Timed := by
  obtain ⟨b, hb, hid⟩ := h.batch t ht
  have hremove := h.remove hb
  rw [hid] at hremove
  exact hremove.congr rfl rfl rfl

/-- Every update keeps batches and timers paired; what is owed does not matter, nor which steps are
taken. -/
theorem timed_invariant : Invariant (τ := τ) (fun _ => True) fun _ s => s.Timed where
  owe _ h := h
  skip _ h := h.congr rfl rfl rfl
  settle _ h := h
  refuse _ _ _ h := h.congr rfl rfl rfl
  accept _ _ _ _ h := h.congr rfl rfl rfl
  discard _ _ _ _ h := h.congr rfl rfl rfl
  overrun _ h := h.congr rfl rfl rfl
  take _ _ h := h.drop _
  force _ _ h := ((h.trigger _).drop _).congr rfl rfl rfl
  wait _ _ h := (h.trigger _).wait _ _ _ _
  beyondClock _ h := h.trigger _
  fire _ ht _ h := h.fire (mem_of_nextDue? ht) _
  -- no timer goes off for a batch that is gone
  lapse _ ht hnone h := by
    obtain ⟨b, hb, _⟩ := h.batch _ (mem_of_nextDue? ht)
    rw [hnone] at hb
    cases hb
  arrive _ _ h := h.congr rfl rfl rfl
  hear _ h := h.congr rfl rfl rfl
  openDocument _ h := h.congr rfl rfl rfl
  changeDocument _ _ h := h.congr rfl rfl rfl
  closeDocument {_ s uri} _ h := by
    have hforget : (s.forget uri).Timed := by
      refine Timed.drop ?_ [uri]
      exact h.congr rfl rfl rfl
    exact hforget.congr rfl rfl rfl
  showDocuments _ h := h.congr rfl rfl rfl
  activate _ h := h.congr rfl rfl rfl
  shutdown _ h := h.shutdown
  advance _ h := h.congr rfl rfl rfl
  stall _ h := h.congr rfl rfl rfl
  placeDocument _ h := h.congr rfl rfl rfl
  reviseDocument _ _ h := h.congr rfl rfl rfl
  dropDocument _ h := h.congr rfl rfl rfl
  submitResult _ _ h := h.congr rfl rfl rfl

theorem timed_new (settings : Settings) (hooks : List (Hook τ)) : (new settings hooks).Timed where
  keys := List.nodup_nil
  ids := List.nodup_nil
  fresh := nofun
  timer := nofun
  batch := nofun

/-- In every state of a session, also in those that listeners see in the midst of a step, the
waiting batches and the timers that are set belong to each other one to one. -/
theorem timers_paired (settings : Settings) (hooks : List (Hook τ)) (actions : List Step) :
    ((new settings hooks).steps actions).Paired ∧
      ToldWithin Paired (new settings hooks) actions := by
  obtain ⟨htimed, htold⟩ := steps_kept timed_invariant (R := []) (fun h => h.paired)
    (timed_new settings hooks) (hooksAllow_new settings fun _ _ _ _ _ _ => trivial)
    fun _ _ => trivial
  exact ⟨htimed.paired, htold⟩

end Session
end Stacking
