import Stacking.Proofs.Session.Deadlines
import Stacking.Proofs.Session.Intake
import Stacking.Proofs.Session.Onward

/-!
# Every text is answered for in time

As long as the session goes on and the clock is free to run, every text that an editor reports is
answered for when the longest wait is over: it has been analysed, or a newer text has, or the
document has been opened again or closed (`Session.waits_bounded`).

A text is received into a batch, and the batch may be flushed, forced, put off, taken along by
another change or analysed from within a listener. What carries through all of it is `Scheduled`: an
outstanding text is that of a document in a batch whose first change is no later than the text. As
timers are on time, such a batch waits no longer than the longest wait after the text, and as the
clock lets every timer go off that is due, no timer is overdue when a step ends.
-/

namespace Stacking

/-- The steps of an editor, and those of a clock that goes forward. -/
def Step.Flowing : Step → Prop
  | .advance millis => 0 ≤ millis
  | step => step.Momentary

namespace Session

variable {s s' : Session Int} {settings : Settings} {low : Int}

/-! ## Batches and timers of the present -/

/-- Since the time `low`: no batch waits since a time to come, and no timer was due by `low`. -/
structure Current (low : Int) (s : Session Int) : Prop where
  reached : low ≤ s.now
  begun : ∀ key b, s.pending.get? key = some b → b.first ≤ s.now
  ahead : ∀ t ∈ s.timers, low < t.due

/-- Batches and timers may be taken off, and the clock may go forward. -/
theorem Current.fewer (h : s.Current low) (hnow : s.now ≤ s'.now)
    (hp : ∀ key b, s'.pending.get? key = some b → s.pending.get? key = some b)
    (ht : ∀ t ∈ s'.timers, t ∈ s.timers) : s'.Current low where
  reached := Int.le_trans h.reached hnow
  begun key b hb := Int.le_trans (h.begun key b (hp key b hb)) hnow
  ahead t hm := h.ahead t (ht t hm)

theorem Current.congr (h : s.Current low) (hnow : s'.now = s.now) (hp : s'.pending = s.pending)
    (ht : s'.timers = s.timers) : s'.Current low :=
  h.fewer (Int.le_of_eq hnow.symm) (fun _ _ hb => hp ▸ hb) fun _ hm => ht ▸ hm

theorem Current.drop (h : s.Current low) (key : BatchKey) : (s.drop key).Current low :=
  h.fewer (Int.le_of_eq (now_drop key s).symm) (fun _ _ => get?_pending_of_drop)
    fun _ => mem_timers_of_drop

/-- A batch that is put off has a timer that is still to come. -/
theorem Current.wait (h : s.Current low) (key : BatchKey) {delay : Int}
    (hdelay : 0 < delay) (forced : Bool) :
    ((s.drop key).wait key (s.firstChange key) delay forced).Current low where
  reached := (h.drop key).reached
  begun := by
    intro k b hb
    have hnow : (s.drop key).now = s.now := now_drop key s
    have hb : ((s.drop key).pending.put key _).get? k = some b := hb
    rw [Table.get?_put] at hb
    split at hb
    · obtain rfl := Option.some.inj hb
      show s.firstChange key ≤ (s.drop key).now
      rw [hnow, firstChange]
      cases hold : s.pending.get? key with
      | none => exact Int.le_refl _
      | some b' => exact h.begun key b' hold
    · exact (h.drop key).begun k b hb
  ahead := by
    intro t hm
    rcases List.mem_append.mp hm with hm | hm
    · exact (h.drop key).ahead t hm
    · obtain rfl := List.mem_singleton.mp hm
      have hreached := (h.drop key).reached
      show low < (s.drop key).now + delay
      omega

theorem current_invariant (low : Int) :
    Invariant Step.Momentary fun _ s => s.Current low where
  owe _ h := h
  skip _ h := h.congr rfl rfl rfl
  settle _ h := h
  refuse _ _ _ h := h.congr rfl rfl rfl
  accept _ _ _ _ h := h.congr rfl rfl rfl
  discard _ _ _ _ h := h.congr rfl rfl rfl
  overrun _ h := h.congr rfl rfl rfl
  take _ _ h := h.drop _
  force {_ s key _ _} _ _ h :=
    (Current.drop (s := s.trigger key) (h.congr rfl rfl rfl) key).congr rfl rfl rfl
  wait {_ s key _ _} hw hle h := by
    obtain ⟨rfl, rfl⟩ := Prod.mk.inj (Option.some.inj (hw.symm.trans s.waits?_eq))
    refine Current.wait (s := s.trigger key) (h.congr rfl rfl rfl) key ?_ _
    have hpos := s.settings.debounce_pos
    have hremaining : ¬ s.remaining s.settings.maxWaitMs key ≤ 0 := by simpa using hle
    rw [TimeScale.earlier_int]
    omega
  beyondClock _ h := h.congr rfl rfl rfl
  fire ha := False.elim ha
  lapse ha := False.elim ha
  arrive _ ha := (ha.elim id id).elim
  hear _ h := h.congr rfl rfl rfl
  openDocument _ h := h.congr rfl rfl rfl
  changeDocument _ _ h := h.congr rfl rfl rfl
  closeDocument {_ s uri} _ h := by
    have hforget : (s.forget uri).Current low := by
      refine Current.drop ?_ [uri]
      exact h.congr rfl rfl rfl
    exact hforget.congr rfl rfl rfl
  showDocuments _ h := h.congr rfl rfl rfl
  activate _ h := h.congr rfl rfl rfl
  shutdown ha := False.elim ha
  advance ha := False.elim ha
  stall ha := False.elim ha
  placeDocument ha := False.elim ha
  reviseDocument ha := False.elim ha
  dropDocument ha := False.elim ha
  submitResult ha := False.elim ha

/-! ## Outstanding texts wait in batches -/

/-- Batches are on time, a document with an outstanding text is due, and one that is due waits or is
owed an analysis. -/
def Orderly (settings : Settings) (R : List String) (s : Session Int) : Prop :=
  (s.Punctual settings ∧ s.Mindful ⟨settings.helpUri, settings.source⟩) ∧ Covered R s

theorem orderly_invariant (settings : Settings) : Invariant Step.Ongoing (Orderly settings) :=
  (((punctual_invariant settings).mono fun _ => trivial).and
    ((mindful_invariant _).mono Step.Ongoing.regular)).and covered_invariant

/-- An outstanding text is that of a document in a batch that waits since then or longer. -/
def Scheduled (s : Session Int) : Prop :=
  ∀ uri version time, Notice.Outstanding uri version time s.journal →
    ∃ key b, s.pending.get? key = some b ∧ uri ∈ key ∧ b.first ≤ time

theorem Scheduled.onward {extra : Nat} (h : s.Scheduled) (ho : Onward extra s s')
    (horderly : Orderly settings [] s') (hcurrent : s'.Current low) : s'.Scheduled := by
  intro uri version time hout
  -- a text that was received just now is that of a document that is due, so it waits
  have hnew : time = s'.now →
      ∃ key b, s'.pending.get? key = some b ∧ uri ∈ key ∧ b.first ≤ time := by
    intro htime
    obtain ⟨hneeds, -⟩ := horderly.1.2.due uri version time hout
    obtain ⟨key, hkey, hmem⟩ := (horderly.2.due uri hneeds).resolve_left List.not_mem_nil
    rw [Table.contains_eq_isSome] at hkey
    obtain ⟨b, hb⟩ := Option.isSome_iff_exists.mp hkey
    exact ⟨key, b, hb, hmem, htime ▸ hcurrent.begun key b hb⟩
  rcases ho.fresh uri version time hout with hold | htime
  · obtain ⟨key, b, hb, hmem, hfirst⟩ := h uri version time hold
    rcases ho.batch key b hb with ⟨b', hb', hsame⟩ | hseen
    · exact ⟨key, b', hb', hmem, hsame ▸ hfirst⟩
    · exact hnew (hseen uri hmem version time hout)
  · exact hnew (htime.trans ho.now.symm)

/-- What holds of a session while the clock is let run from the time `low` on. -/
structure Attended (settings : Settings) (low : Int) (s : Session Int) : Prop where
  orderly : Orderly settings [] s
  current : s.Current low
  hooks : s.HooksAllow Step.Momentary
  scheduled : s.Scheduled

theorem Attended.engaged (h : Attended settings low s) :
    Engaged ⟨settings.helpUri, settings.source⟩ [] s :=
  ⟨h.orderly.1.2, h.hooks⟩

theorem upkeep_invariant (settings : Settings) (low : Int) :
    Invariant Step.Momentary fun R s => Orderly settings R s ∧ s.Current low :=
  ((orderly_invariant settings).mono Step.Momentary.ongoing).and (current_invariant low)

theorem Attended.perform (h : Attended settings low s) {action : Step} (ha : action.Momentary)
    (depth : Nat) :
    Attended settings low (perform (react depth) s action).1 ∧
      Onward 1 s (perform (react depth) s action).1 := by
  have I := upkeep_invariant settings low
  have L := react_kept I (Q := fun _ => True) (fun _ => trivial) (fun _ s => s) depth
  obtain ⟨⟨horderly, hcurrent⟩, hhooks⟩ :=
    (perform_kept I.withHooks L ha ⟨⟨h.orderly, h.current⟩, h.hooks⟩).2
  have honward := onward_perform (react_carries _ depth) ha h.engaged
  exact ⟨⟨horderly, hcurrent, hhooks, h.scheduled.onward honward horderly hcurrent⟩, honward⟩

/-! ## Letting the clock run -/

/-- A timer goes off. -/
theorem Attended.fire (h : Attended settings low s) {target : Int} {t : Timer Int}
    (ht : nextDue? target s.timers = some t) (depth : Nat) :
    Attended settings low (fire (react depth) t.key (s.expire t)) ∧
      Onward 0 (s.expire t) (fire (react depth) t.key (s.expire t)) := by
  have hmem := mem_of_nextDue? ht
  obtain ⟨b, hb, -⟩ := h.orderly.1.1.timed.batch t hmem
  have hb' : (s.expire t).pending.get? t.key = some b := hb
  have hnow : s.now ≤ (s.expire t).now := by
    show s.now ≤ TimeScale.later s.now t.due
    rw [TimeScale.later_int]
    omega
  -- the batch is taken off, and its documents are owed an analysis
  have horderly := (orderly_invariant settings).fire (n := 0) trivial ht hb h.orderly
  have hcurrent : ((s.expire t).release t.key b).Current low :=
    h.current.fewer hnow (fun _ _ => Table.get?_of_get?_erase)
      fun _ hu => (List.mem_filter.mp hu).1
  have hripe : b.forced = true → ∃ older, ((s.expire t).release t.key b).journal =
      .ripened t.key b.first true ((s.expire t).release t.key b).now :: older :=
    fun hforced => ⟨s.journal, by rw [← hforced]; rfl⟩
  have I := upkeep_invariant settings low
  have L := react_kept I (Q := fun _ => True) (fun _ => trivial) (fun _ s => s) depth
  obtain ⟨⟨horderly, hcurrent⟩, hhooks⟩ := (runBatch_kept I.withHooks L t.key b.first b.forced hripe
    ⟨⟨horderly, hcurrent⟩, h.hooks⟩).2
  have hengaged : Engaged ⟨settings.helpUri, settings.source⟩ [] (s.expire t) :=
    ⟨h.engaged.1.congr rfl (fun _ => rfl) rfl, h.hooks⟩
  have honward := onward_fire (react_carries _ depth) hb' hengaged
  rw [fire_eq hb'] at honward ⊢
  have hscheduled : (s.expire t).Scheduled := h.scheduled
  exact ⟨⟨horderly, hcurrent, hhooks, hscheduled.onward honward horderly hcurrent⟩, honward⟩

/-- With a timer that goes off there is less to do. -/
theorem load_expire_lt {t : Timer Int} (ht : t ∈ s.timers) : (s.expire t).load < s.load :=
  Nat.add_lt_add_right (length_timers_expire_lt ht) s.hooks.length

/-- Timers go off until none is due. Each that does leaves less to do, so that as many are enough as
there are timers and listeners. -/
theorem Attended.fireDue (h : Attended settings low s) {target : Int} (hnow : s.now ≤ target)
    (depth : Nat) {count : Nat} (hcount : s.load ≤ count) :
    Attended settings low (fireDue (react depth) target count s) ∧
      (fireDue (react depth) target count s).now ≤ target ∧
      (fireDue (react depth) target count s).millis = s.millis ∧
      ∀ u ∈ (fireDue (react depth) target count s).timers, target < u.due := by
  induction count generalizing s with
  | zero =>
    have hnone : s.timers = [] := List.eq_nil_of_length_eq_zero (by unfold load at hcount; omega)
    refine ⟨h, hnow, rfl, fun u hu => ?_⟩
    rw [Session.fireDue, hnone] at hu
    exact absurd hu List.not_mem_nil
  | succ count ih =>
    unfold Session.fireDue
    obtain ⟨hnone, hdue⟩ | ⟨t, ht, hfirst⟩ := nextDue?_cases target s.timers
    · rw [hnone]
      exact ⟨h, hnow, rfl, hdue⟩
    · rw [ht]
      obtain ⟨hattended, honward⟩ := h.fire ht depth
      have hnow' : (Session.fire (react depth) t.key (s.expire t)).now ≤ target := by
        have hexpire : (s.expire t).now = max s.now t.due := TimeScale.later_int _ _
        have hdue := hfirst.due
        rw [honward.now, hexpire]
        omega
      have hload := honward.load
      have hless := load_expire_lt hfirst.mem
      obtain ⟨hend, hendNow, hmillis, hover⟩ := ih hattended hnow' (by omega)
      exact ⟨hend, hendNow, hmillis.trans honward.millis, hover⟩

/-! ## Runs -/

/-- What holds at the end of every step: no timer is due by now, and the clock shows the time that
has passed. -/
structure Prompt (settings : Settings) (s : Session Int) : Prop where
  attended : Attended settings s.now s
  clock : s.now = s.millis

theorem prompt_new (settings : Settings) {hooks : List (Hook Int)}
    (hh : ∀ hook ∈ hooks, ∀ e es step, hook.respond e es = some step → step.Momentary) :
    (new settings hooks).Prompt settings where
  attended := {
    orderly := ⟨⟨punctual_new settings hooks, tracked_new settings hooks,
        fun _ _ _ ho => absurd ho Notice.not_outstanding_nil⟩,
      rfl, fun _ hneeds => absurd hneeds Bool.false_ne_true⟩
    current := ⟨Int.le_refl _, nofun, nofun⟩
    hooks := hooksAllow_new settings hh
    scheduled := fun _ _ _ ho => absurd ho Notice.not_outstanding_nil }
  clock := rfl

theorem Prompt.advance (h : s.Prompt settings) {n : Int} (hn : 0 ≤ n) (depth : Nat) :
    (Session.advance (react depth) n s).1.Prompt settings := by
  have hstart : Attended settings s.now { s with millis := s.millis + n } :=
    ⟨(orderly_invariant settings).advance (n := n) trivial h.attended.orderly,
      h.attended.current.congr rfl rfl rfl, h.attended.hooks, h.attended.scheduled⟩
  have hforward : s.now ≤ s.millis + n := by
    have hclock := h.clock
    omega
  obtain ⟨hend, hnow, hmillis, hdue⟩ := hstart.fireDue hforward depth (Nat.le_refl _)
  refine ⟨⟨?_, ⟨Int.le_refl _, ?_, hdue⟩, hend.hooks, hend.scheduled⟩, hmillis.symm⟩
  · exact (orderly_invariant settings).arrive (n := n) _ (Or.inl trivial) hend.orderly
  · exact fun key b hb => Int.le_trans (hend.current.begun key b hb) hnow

theorem Prompt.step (h : s.Prompt settings) {action : Step} (ha : action.Flowing) :
    (s.step action).1.Prompt settings := by
  have hmomentary : action.Momentary → (s.step action).1.Prompt settings := by
    intro ha
    obtain ⟨hattended, honward⟩ := h.attended.perform ha s.hooks.length
    refine ⟨?_, (honward.now.trans h.clock).trans honward.millis.symm⟩
    show Attended settings (perform (react s.hooks.length) s action).1.now _
    rw [honward.now]
    exact hattended
  cases action with
  | advance n => exact h.advance ha s.hooks.length
  | _ => exact hmomentary ha

theorem Prompt.steps (h : s.Prompt settings) {actions : List Step}
    (ha : ∀ action ∈ actions, action.Flowing) : (s.steps actions).Prompt settings := by
  induction actions generalizing s with
  | nil => exact h
  | cons action rest ih =>
    obtain ⟨hfirst, hrest⟩ := List.forall_mem_cons.mp ha
    exact ih (h.step hfirst) hrest

/-- A text is outstanding no longer than the longest wait. -/
theorem Prompt.now_lt (h : s.Prompt settings) {uri : String} {version time : Int}
    (ho : Notice.Outstanding uri version time s.journal) : s.now < time + settings.maxWaitMs := by
  obtain ⟨key, b, hb, -, hfirst⟩ := h.attended.scheduled uri version time ho
  obtain ⟨first, last, -, rfl, t, ht, -, -, hontime⟩ :=
    h.attended.orderly.1.1.timely.waiting key b hb
  have hahead := h.attended.current.ahead t ht
  have hdue := hontime.due
  omega

/-- The waiting times of a session on an exact clock. In every state, also in those that listeners
see in the midst of a step, waiting batches have their timers on time, no timer has gone off before
its time, and overruns are told of batches only that have gathered two triggers at least. When
triggers came is what the journal tells; there the triggers and texts of every step are written down
as they come, those of steps that listeners take included, and no others. Where the session goes on,
listeners act in an instant and the clock is never kept busy, every text that is taken over is
answered for once the longest wait is over. -/
theorem waits_bounded (settings : Settings) (hooks : List (Hook Int)) (actions : List Step) :
    ((new settings hooks).steps actions).Timely settings ∧
      ToldWithin (Timely settings) (new settings hooks) actions ∧
      (∀ depth (s : Session Int) action,
        TakesIn (s.intake action) s (perform (react depth) s action).1) ∧
      (∀ before action after uri version, actions = before ++ action :: after →
        ((new settings hooks).steps before).TakesOver uri version action →
        .received uri version ((new settings hooks).steps before).now ∈
          ((new settings hooks).steps actions).journal) ∧
      ((∀ hook ∈ hooks, ∀ e es step, hook.respond e es = some step → step.Momentary) →
        (∀ action ∈ actions, action.Flowing) →
        ∀ uri version time newer older,
          ((new settings hooks).steps actions).journal =
            newer ++ .received uri version time :: older →
          time + settings.maxWaitMs ≤ ((new settings hooks).steps actions).now →
          ∃ n ∈ newer, n.Answers uri version) := by
  have hall : ∀ action ∈ actions, (fun _ : Step => True) action := fun _ _ => trivial
  obtain ⟨hpunctual, htold⟩ := steps_kept (punctual_invariant settings) (R := [])
    (fun h => h.timely) (punctual_new settings hooks)
    (hooksAllow_new settings fun _ _ _ _ _ _ => trivial) hall
  refine ⟨hpunctual.timely, htold, fun depth => takesIn_perform (takesIn_react depth), ?_,
    fun hh ha uri version time newer older hjournal hover => ?_⟩
  · rintro before action after uri version rfl htakes
    obtain ⟨older, hreceived⟩ := received_of_takesOver htakes
    have hkept := (journal_invariant _).steps (R := []) hreceived after
    have hsteps : (new settings hooks).steps (before ++ action :: after) =
        ((((new settings hooks).steps before).step action).1).steps after := by
      rw [Session.steps, List.foldl_append]
      rfl
    rw [hsteps]
    exact hkept.subset List.mem_cons_self
  · by_contra hnone
    have hout : Notice.Outstanding uri version time ((new settings hooks).steps actions).journal :=
      ⟨newer, older, hjournal, fun n hn hans => hnone ⟨n, hn, hans⟩⟩
    have hlt := ((prompt_new settings hh).steps ha).now_lt hout
    omega

/-- An editor changes a document every 300 milliseconds, so that its analysis is forced one second
after the first change; a listener flushes as soon as it hears of anything. -/
theorem waits_bounded_typing :
    let hooks : List (Hook Int) := [⟨fun _ _ => some .flush⟩]
    let actions : List Step := [.openDocument "a" [] 1, .advance 300, .changeDocument "a" [] 2,
      .advance 300, .changeDocument "a" [] 3, .advance 300, .changeDocument "a" [] 4, .advance 1000]
    (∀ hook ∈ hooks, ∀ e es step, hook.respond e es = some step → step.Momentary) ∧
      (∀ action ∈ actions, action.Flowing) ∧
      .event (.overrun ["a"] 1000) ∈ ((new {} hooks).steps actions).journal ∧
      ∃ n ∈ ((new {} hooks).steps actions).journal, n.Answers "a" 4 := by
  intro hooks actions
  have hh : ∀ hook ∈ hooks, ∀ e es step, hook.respond e es = some step → step.Momentary := by
    intro hook hm e es step hstep
    obtain rfl := List.mem_singleton.mp hm
    obtain rfl := Option.some.inj hstep
    trivial
  have ha : ∀ action ∈ actions, action.Flowing := by
    simp [actions, Step.Flowing, Step.Momentary]
  have hjournal : ((new {} hooks).steps actions).journal =
      [.event (.updated "a" ⟨"a", 4, [], [], [], []⟩), .event (.overrun ["a"] 1000),
        .ripened ["a"] 0 true 1000, .triggered ["a"] 900 true] ++
      .received "a" 4 900 :: [.triggered ["a"] 600 true, .received "a" 3 600,
        .triggered ["a"] 300 true, .received "a" 2 300, .triggered ["a"] 0 false,
        .received "a" 1 0, .opened "a"] := by
    decide +kernel
  obtain ⟨n, hn, hans⟩ := (waits_bounded {} hooks actions).2.2.2.2 hh ha "a" 4 900 _ _ hjournal
    (by decide +kernel)
  exact ⟨hh, ha, by simp [hjournal], n, by rw [hjournal]; exact List.mem_append_left _ hn, hans⟩

end Session
end Stacking
