import Stacking.Proofs.Chronicle
import Stacking.Proofs.Session.Timers

/-!
# Debounce time and longest wait

On an exact clock, a waiting batch whose triggers came from the time `first` to the time `last` has
its timer due at `last + debounce` or at `first + longest wait`, whichever is earlier, and it is
marked as forced exactly if the second is the earlier one. So its wait is never over before that
time, and an overrun is told only of a batch that has gathered two triggers at least
(`Session.Timely`).

When triggers came is read off the journal, where each is written down as it comes
(`Notice.gathered`). That timers are set accordingly is one computation (`OnTime.of_wait`); what
remains is that every other update takes batches and timers off together, or leaves them as they
are.
-/

namespace Stacking

/-! ## The triggers of a batch -/

namespace Notice

/-- When the triggers came that are gathered under a key, the latest first. The earliest of them is
the latest that joined no batch. -/
def gathered {τ : Type} (key : BatchKey) : List (Notice τ) → List τ
  | [] => []
  | .triggered k time joined :: older =>
    if k = key then time :: if joined then gathered key older else []
    else gathered key older
  | _ :: older => gathered key older

/-- The triggers gathered under a key came from the time `first` to the time `last`. -/
structure Gathers {τ : Type} (key : BatchKey) (first last : τ) (journal : List (Notice τ)) :
    Prop where
  first : (gathered key journal).getLast? = some first
  last : (gathered key journal).head? = some last

variable {τ : Type} {key : BatchKey} {first last time : τ} {n : Notice τ}
  {journal : List (Notice τ)}

theorem gathered_cons (hn : ∀ time joined, n ≠ .triggered key time joined) :
    gathered key (n :: journal) = gathered key journal := by
  cases n with
  | triggered k time joined =>
    rw [gathered, if_neg]
    rintro rfl
    exact hn time joined rfl
  | _ => rfl

/-- Whatever else is told leaves the triggers as they are. -/
theorem Gathers.cons (h : Gathers key first last journal)
    (hn : ∀ time joined, n ≠ .triggered key time joined) : Gathers key first last (n :: journal) :=
  ⟨by rw [gathered_cons hn, h.first], by rw [gathered_cons hn, h.last]⟩

/-- A trigger that joins no batch is the first of its own. -/
theorem Gathers.start (key : BatchKey) (time : τ) (journal : List (Notice τ)) :
    Gathers key time time (.triggered key time false :: journal) := by
  constructor <;> simp [gathered]

/-- A trigger that joins a batch is its latest. -/
theorem Gathers.join (h : Gathers key first last journal) (time : τ) :
    Gathers key first time (.triggered key time true :: journal) := by
  have hgathered : gathered key (.triggered key time true :: journal) =
      time :: gathered key journal := by simp [gathered]
  refine ⟨?_, by rw [hgathered]; rfl⟩
  rw [hgathered, List.getLast?_cons, h.first]
  rfl

/-- Triggers that came from one time to another are two at least. -/
theorem Gathers.two_le (h : Gathers key first last journal) (hne : first ≠ last) :
    2 ≤ (gathered key journal).length := by
  obtain ⟨hfirst, hlast⟩ := h
  match hgathered : gathered key journal with
  | [] =>
    rw [hgathered] at hfirst
    cases hfirst
  | [time] =>
    rw [hgathered] at hfirst hlast
    exact absurd ((Option.some.inj hfirst).symm.trans (Option.some.inj hlast)) hne
  | _ :: _ :: _ => exact Nat.le_add_left 2 _

end Notice

/-! ## Being on time -/

/-- The timer of a batch is due one debounce time after the latest trigger, or after the longest
wait if that is earlier; then the batch is forced. -/
structure OnTime (settings : Settings) (first last : Int) (forced : Bool) (due : Int) : Prop where
  due : due = min (last + settings.debounceMs) (first + settings.maxWaitMs)
  forced : forced = true ↔ first + settings.maxWaitMs < last + settings.debounceMs
  within : last - first < settings.maxWaitMs

/-- What the journal tells of batches agrees with the triggers told before. The wait of a batch was
not over before its time, and a batch was forced if the longest wait was the earlier limit. An
overrun is told right after the wait of its batch was over, with the time since the first
trigger. -/
def Notice.ToldOnTime (settings : Settings) : Notice Int → List (Notice Int) → Prop
  | .ripened key first forced time, older =>
    ∃ last, Gathers key first last older ∧
      min (last + settings.debounceMs) (first + settings.maxWaitMs) ≤ time ∧
      (forced = true ↔ first + settings.maxWaitMs < last + settings.debounceMs)
  | .event (.overrun key waited), older =>
    ∃ first time oldest, older = .ripened key first true time :: oldest ∧ waited = time - first
  | _, _ => True

namespace Session

variable {s s' : Session Int} {settings : Settings}

/-! ## Setting a timer -/

theorem waits?_eq (s : Session Int) :
    s.waits? = some (s.settings.debounceMs, s.settings.maxWaitMs) := rfl

theorem remaining_eq (s : Session Int) (maxWait : Int) (key : BatchKey) :
    s.remaining maxWait key = s.firstChange key + maxWait - s.now := rfl

/-- A batch that is put off has its timer set on time. -/
theorem OnTime.of_wait {key : BatchKey}
    (hle : TimeScale.le (s.remaining s.settings.maxWaitMs key) TimeScale.zero = false) :
    OnTime s.settings (s.firstChange key) s.now
      (TimeScale.lt (s.remaining s.settings.maxWaitMs key) s.settings.debounceMs)
      (s.now + TimeScale.earlier s.settings.debounceMs
        (s.remaining s.settings.maxWaitMs key)) := by
  have hremaining : ¬ s.firstChange key + s.settings.maxWaitMs - s.now ≤ 0 := by
    simpa [remaining_eq] using hle
  rw [TimeScale.earlier_int, remaining_eq]
  refine ⟨by omega, ?_, by omega⟩
  rw [TimeScale.lt_int, decide_eq_true_eq]
  omega

/-! ## Every batch is on time -/

/-- In a session with the given settings, waiting batches have their timers, all of them on time,
and so were the batches whose wait was over. -/
structure Punctual (settings : Settings) (s : Session Int) : Prop where
  settings_eq : s.settings = settings
  timed : s.Timed
  waiting : ∀ key b t, s.pending.get? key = some b → t ∈ s.timers → t.id = b.timer →
    ∃ last, Notice.Gathers key b.first last s.journal ∧
      OnTime settings b.first last b.forced t.due
  told : Throughout (Notice.ToldOnTime settings) s.journal

/-- Batches and timers may be taken off, and nothing is told of batches. -/
theorem Punctual.fewer (h : s.Punctual settings) (hs : s'.settings = s.settings) (ht : s'.Timed)
    (hpending : ∀ key b, s'.pending.get? key = some b → s.pending.get? key = some b)
    (htimers : ∀ t ∈ s'.timers, t ∈ s.timers) (hj : s'.journal = s.journal) :
    s'.Punctual settings where
  settings_eq := hs.trans h.settings_eq
  timed := ht
  waiting key b t hb hmem hid := by
    rw [hj]
    exact h.waiting key b t (hpending key b hb) (htimers t hmem) hid
  told := by rw [hj]; exact h.told

/-- Neither the batches nor the journal change. -/
theorem Punctual.congr (h : s.Punctual settings) (hs : s'.settings = s.settings)
    (hp : s'.pending = s.pending) (ht : s'.timers = s.timers) (hn : s'.nextTimer = s.nextTimer)
    (hj : s'.journal = s.journal) : s'.Punctual settings :=
  h.fewer hs (h.timed.congr hp ht hn) (fun _ _ hb => hp ▸ hb) (fun _ hm => ht ▸ hm) hj

theorem Punctual.drop (h : s.Punctual settings) (key : BatchKey) :
    (s.drop key).Punctual settings :=
  h.fewer (by rw [drop_eq]) (h.timed.drop key) (fun _ _ => get?_pending_of_drop)
    (fun _ => mem_timers_of_drop) (journal_drop key s)

theorem Punctual.shutdown (h : s.Punctual settings) : s.shutdown.Punctual settings := by
  unfold Session.shutdown
  induction s.pending.keys generalizing s with
  | nil => exact h
  | cons key rest ih => exact ih (h.drop key)

/-- Something is told, on time, that is no trigger of a waiting batch. -/
theorem Punctual.tell (h : s.Punctual settings) {n : Notice Int}
    (htold : n.ToldOnTime settings s.journal)
    (hn : ∀ key b, s.pending.get? key = some b → ∀ time joined, n ≠ .triggered key time joined) :
    (s.note n).Punctual settings where
  settings_eq := h.settings_eq
  timed := h.timed.congr rfl rfl rfl
  waiting key b t hb hmem hid := by
    obtain ⟨last, hgathers, hontime⟩ := h.waiting key b t hb hmem hid
    exact ⟨last, hgathers.cons (hn key b hb), hontime⟩
  told := h.told.cons htold

/-! ## A trigger comes -/

/-- A trigger that comes now is the latest of its batch; the first one is the batch's, if one was
waiting. -/
theorem Punctual.gathers_trigger (h : s.Punctual settings) (key : BatchKey) :
    Notice.Gathers key (s.firstChange key) s.now (s.trigger key).journal := by
  show Notice.Gathers key _ _ (.triggered key s.now (s.pending.contains key) :: s.journal)
  rw [Table.contains_eq_isSome, firstChange]
  cases hb : s.pending.get? key with
  | none => exact .start key s.now s.journal
  | some b =>
    obtain ⟨t, ht, hid, -⟩ := h.timed.timer key b hb
    obtain ⟨last, hgathers, -⟩ := h.waiting key b t hb ht hid
    exact hgathers.join s.now

/-- A trigger comes, and its batch is taken off. -/
theorem Punctual.takeOff (h : s.Punctual settings) (key : BatchKey) :
    ((s.trigger key).drop key).Punctual settings := by
  rw [trigger, drop_note]
  refine (h.drop key).tell trivial fun k b hb time joined heq => ?_
  injection heq with hkey
  rw [← hkey, get?_pending_drop, if_pos rfl] at hb
  cases hb

theorem Punctual.wait (h : s.Punctual settings) (key : BatchKey)
    (hle : TimeScale.le (s.remaining s.settings.maxWaitMs key) TimeScale.zero = false) :
    (((s.trigger key).drop key).wait key (s.firstChange key)
      (TimeScale.earlier s.settings.debounceMs (s.remaining s.settings.maxWaitMs key))
      (TimeScale.lt (s.remaining s.settings.maxWaitMs key) s.settings.debounceMs)).Punctual
        settings := by
  have htaken := h.takeOff key
  have hnow : ((s.trigger key).drop key).now = s.now := now_drop key (s.trigger key)
  refine ⟨htaken.settings_eq, (h.timed.trigger key).wait key _ _ _, ?_, htaken.told⟩
  intro k b t hb hmem hid
  have hb : (((s.trigger key).drop key).pending.put key _).get? k = some b := hb
  rw [Table.get?_put] at hb
  -- numbers of timers are given once, so the new batch and the new timer go together
  rcases List.mem_append.mp hmem with hmem | hmem
  · split at hb
    · obtain rfl := Option.some.inj hb
      exact absurd hid (Nat.ne_of_lt (htaken.timed.fresh t hmem))
    · exact htaken.waiting k b t hb hmem hid
  · obtain rfl := List.mem_singleton.mp hmem
    split at hb
    · rename_i hkey
      obtain rfl := Option.some.inj hb
      refine ⟨s.now, ?_, ?_⟩
      · show Notice.Gathers k _ _ ((s.trigger key).drop key).journal
        rw [journal_drop, ← hkey]
        exact h.gathers_trigger key
      · rw [← h.settings_eq]
        show OnTime s.settings _ _ _ (((s.trigger key).drop key).now + _)
        rw [hnow]
        exact OnTime.of_wait hle
    · obtain ⟨u, hu, huid, -⟩ := htaken.timed.timer k b hb
      exact absurd (huid.trans hid.symm) (Nat.ne_of_lt (htaken.timed.fresh u hu))

/-- A batch that a trigger cannot put off any longer has waited long enough. -/
theorem Punctual.toldOnTime_exhaust (h : s.Punctual settings) {key : BatchKey}
    (hle : TimeScale.le (s.remaining s.settings.maxWaitMs key) TimeScale.zero = true) :
    Notice.ToldOnTime settings (.ripened key (s.firstChange key) true s.now)
      (s.trigger key).journal := by
  have hover : s.firstChange key + s.settings.maxWaitMs - s.now ≤ 0 := by
    simpa [remaining_eq] using hle
  have hpos := settings.debounce_pos
  rw [h.settings_eq] at hover
  refine ⟨s.now, h.gathers_trigger key, by omega, ?_⟩
  simp only [true_iff]
  omega

/-! ## A timer goes off -/

/-- The wait of a batch whose timer goes off has been long enough. -/
theorem Punctual.toldOnTime_fire (h : s.Punctual settings) {t : Timer Int} (ht : t ∈ s.timers)
    {b : Batch Int} (hb : s.pending.get? t.key = some b) :
    Notice.ToldOnTime settings (.ripened t.key b.first b.forced (s.expire t).now) s.journal := by
  obtain ⟨b', hb', hid⟩ := h.timed.batch t ht
  obtain rfl := Option.some.inj (hb.symm.trans hb')
  obtain ⟨last, hgathers, hontime⟩ := h.waiting t.key b t hb ht hid.symm
  have hdue : t.due ≤ (s.expire t).now := by
    show t.due ≤ TimeScale.later s.now t.due
    rw [TimeScale.later_int]
    omega
  exact ⟨last, hgathers, hontime.due ▸ hdue, hontime.forced⟩

theorem punctual_invariant (settings : Settings) :
    Invariant (fun _ => True) fun _ s => s.Punctual settings where
  owe _ h := h
  skip _ h := h.tell trivial nofun
  settle _ h := h
  refuse {_ s uri d _} _ _ _ h :=
    Punctual.tell (s := s.counted.refuse uri d.version) (h.congr rfl rfl rfl rfl rfl) trivial nofun
  accept {_ s _ _ r} _ _ _ _ h :=
    Punctual.tell (s := s.counted.accept r) (h.congr rfl rfl rfl rfl rfl) trivial nofun
  discard _ _ _ _ h := h.congr rfl rfl rfl rfl rfl
  overrun hj h := h.tell ⟨_, _, _, hj, rfl⟩ nofun
  take _ _ h := h.drop _
  force {_ s key _ _} hw hle h := by
    obtain ⟨rfl, rfl⟩ := Prod.mk.inj (Option.some.inj (hw.symm.trans s.waits?_eq))
    refine (h.takeOff key).tell ?_ nofun
    rw [journal_drop]
    exact h.toldOnTime_exhaust hle
  wait {_ s key _ _} hw hle h := by
    obtain ⟨rfl, rfl⟩ := Prod.mk.inj (Option.some.inj (hw.symm.trans s.waits?_eq))
    exact h.wait key hle
  beyondClock {_ s _} hw _ := nomatch hw.symm.trans s.waits?_eq
  fire {_ s _ _ t b} _ ht hb h := by
    have hmem := mem_of_nextDue? ht
    have hreleased : Punctual settings { s.expire t with pending := s.pending.erase t.key } := by
      exact h.fewer rfl ((h.timed.fire hmem b).congr rfl rfl rfl)
        (fun _ _ => Table.get?_of_get?_erase) (fun _ hu => (List.mem_filter.mp hu).1) rfl
    exact hreleased.tell (h.toldOnTime_fire hmem hb) nofun
  -- no timer goes off for a batch that is gone
  lapse _ ht hnone h := by
    obtain ⟨b, hb, _⟩ := h.timed.batch _ (mem_of_nextDue? ht)
    rw [hnone] at hb
    cases hb
  arrive _ _ h := h.congr rfl rfl rfl rfl rfl
  hear _ h := h.congr rfl rfl rfl rfl rfl
  openDocument {_ s uri text version} _ h := by
    have hplaced : Punctual settings { s.enrol uri text version with journal := s.journal } :=
      h.congr rfl rfl rfl rfl rfl
    exact (hplaced.tell (n := .opened uri) trivial nofun).tell trivial nofun
  changeDocument {_ s uri text version} _ _ h :=
    Punctual.tell (s := s.place uri text version) (h.congr rfl rfl rfl rfl rfl) trivial nofun
  closeDocument {_ s uri} _ h := by
    have hforget : (s.forget uri).Punctual settings := by
      refine Punctual.drop ?_ [uri]
      exact h.congr rfl rfl rfl rfl rfl
    exact hforget.tell trivial nofun
  showDocuments _ h := h.congr rfl rfl rfl rfl rfl
  activate _ h := h.congr rfl rfl rfl rfl rfl
  shutdown _ h := h.shutdown
  advance _ h := h.congr rfl rfl rfl rfl rfl
  stall _ h := h.congr rfl rfl rfl rfl rfl
  placeDocument _ h := h.congr rfl rfl rfl rfl rfl
  reviseDocument _ _ h := h.congr rfl rfl rfl rfl rfl
  dropDocument _ h := h.congr rfl rfl rfl rfl rfl
  submitResult {_ s r} _ _ h :=
    Punctual.tell (s := s.accept r) (h.congr rfl rfl rfl rfl rfl) trivial nofun

theorem punctual_new (settings : Settings) (hooks : List (Hook Int)) :
    (new settings hooks).Punctual settings where
  settings_eq := rfl
  timed := timed_new settings hooks
  waiting := nofun
  told := throughout_nil _

/-- Waiting batches have timers on time, by the triggers told. No wait was over before its time,
every batch was forced that was late, and every overrun that was told is that of a batch with two
triggers at least, by the time since the first of them. -/
structure Timely (settings : Settings) (s : Session Int) : Prop where
  waiting : ∀ key b, s.pending.get? key = some b →
    ∃ first last, Notice.Gathers key first last s.journal ∧ b.first = first ∧
      ∃ t ∈ s.timers, t.id = b.timer ∧ t.key = key ∧ OnTime settings first last b.forced t.due
  ripened : ∀ newer key began forced time older,
    s.journal = newer ++ .ripened key began forced time :: older →
      ∃ first last, Notice.Gathers key first last older ∧ began = first ∧
        min (last + settings.debounceMs) (first + settings.maxWaitMs) ≤ time ∧
        (forced = true ↔ first + settings.maxWaitMs < last + settings.debounceMs)
  overruns : ∀ newer key waited older,
    s.journal = newer ++ .event (.overrun key waited) :: older →
      ∃ first last time oldest, older = .ripened key first true time :: oldest ∧
        Notice.Gathers key first last oldest ∧ 2 ≤ (Notice.gathered key oldest).length ∧
        waited = time - first

theorem Punctual.timely (h : s.Punctual settings) : s.Timely settings where
  waiting key b hb := by
    obtain ⟨t, ht, hid, hkey⟩ := h.timed.timer key b hb
    obtain ⟨last, hgathers, hontime⟩ := h.waiting key b t hb ht hid
    exact ⟨b.first, last, hgathers, rfl, t, ht, hid, hkey, hontime⟩
  ripened newer key began forced time older hjournal := by
    obtain ⟨last, hgathers, htime, hforced⟩ := h.told newer _ older hjournal
    exact ⟨began, last, hgathers, rfl, htime, hforced⟩
  overruns newer key waited older hjournal := by
    obtain ⟨first, time, oldest, rfl, hwaited⟩ := h.told newer _ older hjournal
    obtain ⟨last, hgathers, -, hforced⟩ :=
      h.told (newer ++ [.event (.overrun key waited)]) (.ripened key first true time) oldest
        (by rw [hjournal, List.append_assoc]; rfl)
    -- the longest wait is the earlier limit only where the latest trigger is not the first
    have hlate := hforced.mp rfl
    have hle := settings.debounce_le_maxWait
    exact ⟨first, last, time, oldest, rfl, hgathers, hgathers.two_le (by omega), hwaited⟩

/-! ## The timer that goes off first -/

/-- A timer is due, and no other one is due before it. -/
structure FirstDue (target : Int) (timers : List (Timer Int)) (t : Timer Int) : Prop where
  mem : t ∈ timers
  due : t.due ≤ target
  least : ∀ u ∈ timers, t.due ≤ u.due

/-- The one of two timers that is due first. -/
def sooner (b t : Timer Int) : Timer Int := if t.due < b.due then t else b

theorem foldl_sooner (b : Timer Int) (timers : List (Timer Int)) :
    timers.foldl sooner b ∈ b :: timers ∧
      ∀ u ∈ b :: timers, (timers.foldl sooner b).due ≤ u.due := by
  induction timers generalizing b with
  | nil => simp
  | cons t rest ih =>
    obtain ⟨hmem, hleast⟩ := ih (sooner b t)
    have hfirst := hleast (sooner b t) List.mem_cons_self
    refine ⟨?_, fun u hu => ?_⟩
    · rcases List.mem_cons.mp hmem with heq | hin
      · rw [List.foldl_cons, heq, sooner]
        split <;> simp
      · exact List.mem_cons_of_mem b (List.mem_cons_of_mem t hin)
    · have hboth : (sooner b t).due ≤ b.due ∧ (sooner b t).due ≤ t.due := by
        unfold sooner
        split <;> omega
      rw [List.foldl_cons]
      rcases List.mem_cons.mp hu with rfl | hu
      · omega
      · rcases List.mem_cons.mp hu with rfl | hu
        · omega
        · exact hleast u (List.mem_cons_of_mem _ hu)

theorem nextDue?_eq (target : Int) (timers : List (Timer Int)) :
    nextDue? target timers =
      match timers.filter (fun t => t.due ≤ target) with
      | [] => none
      | b :: rest => some (rest.foldl sooner b) := by
  show (timers.filter fun t => t.due ≤ target).foldl _ none = _
  cases timers.filter (fun t => t.due ≤ target) with
  | nil => rfl
  | cons b rest =>
    refine List.foldl_hom some fun b t => ?_
    simp only [sooner, TimeScale.lt_int, decide_eq_true_eq]
    split <;> rfl

/-- Of the timers that are due, the one that goes off first is due first; if none goes off, none is
due. -/
theorem nextDue?_cases (target : Int) (timers : List (Timer Int)) :
    (nextDue? target timers = none ∧ ∀ u ∈ timers, target < u.due) ∨
      ∃ t, nextDue? target timers = some t ∧ FirstDue target timers t := by
  have hdue : ∀ u, u ∈ timers.filter (fun t => t.due ≤ target) ↔ u ∈ timers ∧ u.due ≤ target := by
    simp [List.mem_filter]
  rw [nextDue?_eq]
  cases hf : timers.filter (fun t => t.due ≤ target) with
  | nil =>
    refine Or.inl ⟨rfl, fun u hu => ?_⟩
    by_contra hle
    have hin := (hdue u).mpr ⟨hu, by omega⟩
    rw [hf] at hin
    exact absurd hin List.not_mem_nil
  | cons b rest =>
    rw [hf] at hdue
    obtain ⟨hmem, hleast⟩ := foldl_sooner b rest
    obtain ⟨hin, hle⟩ := (hdue _).mp hmem
    refine Or.inr ⟨_, rfl, hin, hle, fun u hu => ?_⟩
    -- a timer that is not due is due later anyway
    by_cases hu' : u.due ≤ target
    · exact hleast u ((hdue u).mpr ⟨hu, hu'⟩)
    · omega

end Session
end Stacking
