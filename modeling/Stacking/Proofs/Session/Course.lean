import Stacking.Proofs.Session.Deadlines
import Stacking.Proofs.Session.Passive
import Stacking.Proofs.Session.Waiting

/-!
# The course of one document

What a session makes of a document that stands in no batch with others can be told without the other
documents. `Course` is that part of a session on an exact clock: the time, what is known of the
document, its wait, and the events about it; `Course.step` says what a step makes of it. This file
compares the two for the operations on one batch: analysing a document or putting it off acts on its
own course as said there (`course_run_self`, `Timed.course_debounce_self`), and leaves that of any
other document alone (`course_run_of_ne`, `Timed.course_debounce_of_ne`).
-/

namespace Stacking

/-! ## One document -/

/-- The wait of a document: since when, until when, and whether it is cut short. -/
structure Wait where
  first : Int
  due : Int
  forced : Bool
deriving DecidableEq

/-- An event is about a document. -/
def Event.concerns {τ : Type} (uri : String) : Event τ → Bool
  | .updated u _ => u = uri
  | .failed u _ _ => u = uri
  | .overrun key _ => uri ∈ key
  | .forgotten u => u = uri

/-- What is done has to do with a document: it is reported of that document, or of none. -/
def Step.concerns (uri : String) : Step → Bool
  | .openDocument u _ _ => u = uri
  | .changeDocument u _ _ => u = uri
  | .closeDocument u => u = uri
  | .activate (some u) => u = uri
  | _ => true

/-- What a session makes of one document. -/
structure Course where
  settings : Settings
  millis : Int
  now : Int
  record : Record
  wait : Option Wait
  /-- The events about the document, the latest first. -/
  events : List (Event Int)

/-- Whether a version of the document is newer than the one that is open, or none is open. -/
def Record.accepts (version : Int) (k : Record) : Bool :=
  match k.document with
  | none => true
  | some d => d.version < version

namespace Course

variable (uri : String)

/-- An event is told, and what is known of the document becomes `k`. -/
def tell (e : Event Int) (k : Record) (c : Course) : Course :=
  { c with record := k, events := e :: c.events }

/-- The document is analysed, if it is open and its text has not been analysed. -/
def analyse (c : Course) : Course :=
  match c.record.document with
  | none => c
  | some d =>
    if c.record.needsAnalysis then
      match Analysis.ofText uri d.version ⟨c.settings.helpUri, c.settings.source⟩ d.text with
      | .error e => c.tell (.failed uri d.version e.message) (c.record.refuse d.version)
      | .ok r => c.tell (.updated uri r) (c.record.accept r)
    else c

/-- The wait is over, and the document is analysed. -/
def ripen (first : Int) (forced : Bool) (c : Course) : Course :=
  let c := { c with wait := none }
  analyse uri (if forced then c.tell (.overrun [uri] (c.now - first)) c.record else c)

/-- When the first of the changes came that are analysed together. -/
def firstChange (c : Course) : Int := (c.wait.map (·.first)).getD c.now

/-- How much longer the analysis can be put off. -/
def remaining (c : Course) : Int := c.firstChange + c.settings.maxWaitMs - c.now

/-- A change comes and puts the analysis off, as far as the longest wait allows. -/
def putOff (c : Course) : Course :=
  if c.remaining ≤ 0 then c.ripen uri c.firstChange true
  else { c with wait := some ⟨c.firstChange, c.now + min c.settings.debounceMs c.remaining,
    c.remaining < c.settings.debounceMs⟩ }

/-- The clock shows another time. -/
def atTime (now : Int) (c : Course) : Course := { c with now := now }

/-- The wait is over if it is due. -/
def goOff (target : Int) (c : Course) : Course :=
  match c.wait with
  | none => c
  | some w => if w.due ≤ target then (c.atTime (max c.now w.due)).ripen uri w.first w.forced else c

/-- The wait is over at once. -/
def flush (c : Course) : Course :=
  match c.wait with
  | none => c
  | some w => c.ripen uri w.first false

/-- What a step makes of the document that it has to do with. -/
def step (c : Course) : Step → Course
  | .openDocument _ text version => { c with record := c.record.enrol text version }.putOff uri
  | .changeDocument _ text version =>
    if c.record.accepts version then { c with record := c.record.place text version }.putOff uri
    else c
  | .closeDocument _ => { c with wait := none }.tell (.forgotten uri) .closed
  | .activate (some _) => if c.record.needsAnalysis then c.putOff uri else c
  | .flush => c.flush uri
  | .advance n => ({ c with millis := c.millis + n }.goOff uri (c.millis + n)).atTime (c.millis + n)
  | .stall n => { c with millis := c.millis + n, now := c.millis + n }
  | _ => c

variable {uri : String} {c : Course} {target : Int}

theorem wait_analyse (uri : String) (c : Course) : (c.analyse uri).wait = c.wait := by
  unfold analyse
  split
  · rfl
  · split
    · split <;> rfl
    · rfl

theorem wait_ripen (uri : String) (first : Int) (forced : Bool) (c : Course) :
    (c.ripen uri first forced).wait = none := by
  rw [ripen, wait_analyse]
  split <;> rfl

theorem goOff_of_wait_none (h : c.wait = none) : c.goOff uri target = c := by
  rw [goOff, h]

theorem goOff_of_wait_some {w : Wait} (h : c.wait = some w) :
    c.goOff uri target =
      if w.due ≤ target then (c.atTime (max c.now w.due)).ripen uri w.first w.forced else c := by
  rw [goOff, h]

/-- It makes no difference that something else was due before. -/
theorem atTime_goOff (uri : String) (target now : Int) {due : Int}
    (h : ∀ w, c.wait = some w → due ≤ w.due) :
    ((c.atTime (max c.now due)).goOff uri target).atTime now =
      (c.goOff uri target).atTime now := by
  cases hw : c.wait with
  | none =>
    rw [goOff_of_wait_none hw, goOff_of_wait_none (c := c.atTime (max c.now due)) hw]
    rfl
  | some w =>
    have hmax : max (max c.now due) w.due = max c.now w.due := by
      have hle := h w hw
      omega
    rw [goOff_of_wait_some hw, goOff_of_wait_some (c := c.atTime (max c.now due)) hw]
    split
    · show (((c.atTime _).atTime (max (max c.now due) w.due)).ripen uri _ _).atTime now = _
      rw [hmax]
      rfl
    · rfl

end Course

namespace Session

variable {s s' : Session Int} {uri u : String}

/-- The wait of a document in the batch that holds it alone. -/
def wait? (s : Session Int) (uri : String) : Option Wait :=
  (s.pending.get? [uri]).bind fun b =>
    (s.timers.find? fun t => t.id = b.timer).map fun t => ⟨b.first, t.due, b.forced⟩

/-- What the session makes of a document. -/
def course (uri : String) (s : Session Int) : Course where
  settings := s.settings
  millis := s.millis
  now := s.now
  record := s.record uri
  wait := s.wait? uri
  events := s.events.filter (·.concerns uri)

/-! ## The wait of a document -/

theorem wait?_eq_none (hb : s.pending.get? [uri] = none) : s.wait? uri = none := by
  rw [wait?, hb]
  rfl

theorem Timed.wait?_eq_some (h : s.Timed) {b : Batch Int} {t : Timer Int}
    (hb : s.pending.get? [uri] = some b) (ht : t ∈ s.timers) (hid : t.id = b.timer) :
    s.wait? uri = some ⟨b.first, t.due, b.forced⟩ := by
  have hfind : s.timers.find? (fun t => t.id = b.timer) = some t := by
    cases hf : s.timers.find? (fun t => t.id = b.timer) with
    | none => simpa [hid] using List.find?_eq_none.mp hf t ht
    | some v =>
      have hvid : v.id = b.timer := by simpa using List.find?_some hf
      rw [h.eq_of_id (List.mem_of_find?_eq_some hf) ht (hvid.trans hid.symm)]
  rw [wait?, hb, Option.bind_some, hfind]
  rfl

/-- A document waits with its timer, or it does not wait. -/
theorem Timed.wait?_cases (h : s.Timed) (uri : String) :
    (s.pending.get? [uri] = none ∧ s.wait? uri = none) ∨
      ∃ b t, s.pending.get? [uri] = some b ∧ t ∈ s.timers ∧ t.id = b.timer ∧ t.key = [uri] ∧
        s.wait? uri = some ⟨b.first, t.due, b.forced⟩ := by
  cases hb : s.pending.get? [uri] with
  | none => exact Or.inl ⟨rfl, wait?_eq_none hb⟩
  | some b =>
    obtain ⟨t, ht, hid, hkey⟩ := h.timer [uri] b hb
    exact Or.inr ⟨b, t, rfl, ht, hid, hkey, h.wait?_eq_some hb ht hid⟩

/-- Neither the batch of the document nor its timer is touched. -/
theorem Timed.wait?_congr (h : s.Timed) (h' : s'.Timed)
    (hp : s'.pending.get? [uri] = s.pending.get? [uri])
    (ht : ∀ t ∈ s.timers, t.key = [uri] → t ∈ s'.timers) : s'.wait? uri = s.wait? uri := by
  obtain ⟨hnone, hwait⟩ | ⟨b, t, hb, hmem, hid, hkey, hwait⟩ := h.wait?_cases uri
  · rw [hwait, wait?_eq_none (hp.trans hnone)]
  · rw [hwait, h'.wait?_eq_some (hp.trans hb) (ht t hmem hkey) hid]

/-- A batch that is taken off takes no timer of another batch along. -/
theorem Timed.mem_timers_drop (h : s.Timed) {key : BatchKey} {t : Timer Int} (ht : t ∈ s.timers)
    (hne : key ≠ t.key) : t ∈ (s.drop key).timers := by
  unfold Session.drop
  cases hb : s.pending.get? key with
  | none => exact ht
  | some b =>
    refine List.mem_filter.mpr ⟨ht, ?_⟩
    simp only [ne_eq, decide_eq_true_eq]
    intro hid
    obtain ⟨v, hv, hvid, hvkey⟩ := h.timer key b hb
    obtain rfl := h.eq_of_id ht hv (hid.trans hvid.symm)
    exact hne hvkey.symm

theorem singleton_ne (hu : u ≠ uri) : ([u] : BatchKey) ≠ [uri] :=
  fun heq => hu (List.cons.inj heq).1

theorem Timed.wait?_drop (h : s.Timed) (u uri : String) :
    (s.drop [u]).wait? uri = if u = uri then none else s.wait? uri := by
  by_cases hu : u = uri
  · rw [if_pos hu, hu]
    exact wait?_eq_none (by rw [get?_pending_drop, if_pos rfl])
  · rw [if_neg hu]
    refine h.wait?_congr (h.drop [u]) ?_ fun t ht hkey => ?_
    · rw [get?_pending_drop, if_neg (singleton_ne hu)]
    · exact h.mem_timers_drop ht (hkey ▸ singleton_ne hu)

theorem Timed.wait?_wait (h : s.Timed) (u uri : String) (first delay : Int) (forced : Bool) :
    ((s.drop [u]).wait [u] first delay forced).wait? uri =
      if u = uri then some ⟨first, s.now + delay, forced⟩ else s.wait? uri := by
  have h' := h.wait [u] first delay forced
  have hnow : (s.drop [u]).now = s.now := now_drop [u] s
  have hget : ∀ k, ((s.drop [u]).wait [u] first delay forced).pending.get? k =
      if [u] = k then some ⟨first, (s.drop [u]).nextTimer, forced⟩
      else (s.drop [u]).pending.get? k := fun k => Table.get?_put ..
  by_cases hu : u = uri
  · subst hu
    rw [if_pos rfl, ← hnow]
    exact h'.wait?_eq_some ((hget [u]).trans (if_pos rfl))
      (List.mem_append_right _ (List.mem_singleton_self _)) rfl
  · rw [if_neg hu]
    refine h.wait?_congr h' ?_ fun t ht hkey => ?_
    · rw [hget, if_neg (singleton_ne hu), get?_pending_drop, if_neg (singleton_ne hu)]
    · exact List.mem_append_left _ (h.mem_timers_drop ht (hkey ▸ singleton_ne hu))

/-! ## Analyses -/

theorem course_noted (e : Event Int) (s : Session Int) (uri : String) :
    (noted e s).course uri =
      if e.concerns uri then (s.course uri).tell e (s.record uri) else s.course uri := by
  have hevents : (noted e s).events.filter (·.concerns uri) =
      if e.concerns uri then e :: s.events.filter (·.concerns uri)
      else s.events.filter (·.concerns uri) := List.filter_cons
  have hcourse : (noted e s).course uri =
      { s.course uri with events := (noted e s).events.filter (·.concerns uri) } := rfl
  rw [hcourse, hevents]
  split <;> rfl

/-- Findings of a document that is due are taken over, so that an analysis ends in one of two
ways. -/
theorem run_noted (u : String) (s : Session Int) :
    run noted u s =
      match s.documents.get? u with
      | none => s.note (.skipped u)
      | some d =>
        if s.needsAnalysis u then
          match Analysis.ofText u d.version s.publication d.text with
          | .error e => noted (.failed u d.version e.message) (s.counted.refuse u d.version)
          | .ok r => noted (.updated u r) (s.counted.accept r)
        else s := by
  unfold run
  cases hd : s.documents.get? u with
  | none => rfl
  | some d =>
    cases hn : s.needsAnalysis u with
    | false => rfl
    | true =>
      have hpub : ({ s with runs := s.runs + 1 } : Session Int).publication = s.publication := rfl
      simp only [if_true, hpub]
      cases hr : Analysis.ofText u d.version s.publication d.text with
      | error e => rfl
      | ok r =>
        obtain ⟨_, _, huri, hversion, _⟩ := Analysis.ofText_eq_ok hr
        have hs : s.counted.isStale r = false := isStale_eq_false_of_due hd hn huri hversion
        show (store noted r s.counted).1 = noted (.updated u r) (s.counted.accept r)
        rw [store_of_not_stale r hs, huri]

/-- The analysis of a document acts on its course. -/
theorem course_run_self (u : String) (s : Session Int) :
    (run noted u s).course u = (s.course u).analyse u := by
  rw [run_noted]
  show _ = match s.documents.get? u with
    | none => s.course u
    | some d =>
      if s.needsAnalysis u then
        match Analysis.ofText u d.version s.publication d.text with
        | .error e => (s.course u).tell (.failed u d.version e.message)
            ((s.record u).refuse d.version)
        | .ok r => (s.course u).tell (.updated u r) ((s.record u).accept r)
      else s.course u
  cases hd : s.documents.get? u with
  | none => rfl
  | some d =>
    cases hn : s.needsAnalysis u with
    | false => rfl
    | true =>
      simp only [if_true]
      cases hr : Analysis.ofText u d.version s.publication d.text with
      | error e =>
        have hrecord := (record_refuse s.counted u d.version u).trans (if_pos rfl)
        simp only [course_noted, Event.concerns, decide_true, if_true, hrecord]
        rfl
      | ok r =>
        obtain ⟨_, _, huri, _⟩ := Analysis.ofText_eq_ok hr
        have hrecord := (record_accept s.counted r u).trans (if_pos huri)
        simp only [course_noted, Event.concerns, decide_true, if_true, hrecord]
        rfl

/-- The analysis of another document does not act on the course. -/
theorem course_run_of_ne (hu : u ≠ uri) (s : Session Int) :
    (run noted u s).course uri = s.course uri := by
  rw [run_noted]
  cases s.documents.get? u with
  | none => rfl
  | some d =>
    simp only
    split
    · cases hr : Analysis.ofText u d.version s.publication d.text with
      | error e =>
        have hrecord := (record_refuse s.counted u d.version uri).trans (if_neg hu)
        simp only [course_noted, Event.concerns, decide_eq_true_eq, if_neg hu]
        exact congrArg (fun k => { s.course uri with record := k }) hrecord
      | ok r =>
        obtain ⟨_, _, huri, _⟩ := Analysis.ofText_eq_ok hr
        have hrecord := (record_accept s.counted r uri).trans (if_neg (huri ▸ hu))
        simp only [course_noted, Event.concerns, decide_eq_true_eq, if_neg hu]
        exact congrArg (fun k => { s.course uri with record := k }) hrecord
    · rfl

/-! ## Batches of one document -/

theorem course_runBatch_self (u : String) (first : Int) (forced : Bool) {s : Session Int}
    (hw : s.wait? u = none) :
    (runBatch noted [u] first forced s).course u = (s.course u).ripen u first forced := by
  have hcourse : { s.course u with wait := none } = s.course u := by rw [← hw]; rfl
  show (run noted u _).course u = Course.analyse u _
  rw [course_run_self, hcourse]
  cases forced with
  | false => rfl
  | true =>
    have hself : (Event.overrun [u] (s.now - first)).concerns u = true := by
      simp [Event.concerns]
    simp only [if_true]
    rw [TimeScale.sub_int, course_noted, if_pos hself]
    rfl

theorem course_runBatch_of_ne (hu : u ≠ uri) (first : Int) (forced : Bool) (s : Session Int) :
    (runBatch noted [u] first forced s).course uri = s.course uri := by
  show (run noted u _).course uri = _
  rw [course_run_of_ne hu]
  cases forced with
  | false => rfl
  | true =>
    have hother : ¬ (Event.overrun [u] (TimeScale.sub s.now first)).concerns uri = true := by
      simpa [Event.concerns] using Ne.symm hu
    simp only [if_true]
    rw [course_noted, if_neg hother]

theorem Timed.course_drop (h : s.Timed) (u uri : String) :
    (s.drop [u]).course uri =
      if u = uri then { s.course uri with wait := none } else s.course uri := by
  have hcourse : (s.drop [u]).course uri =
      { s.course uri with wait := (s.drop [u]).wait? uri } := by
    rw [drop_eq]
    rfl
  rw [hcourse, h.wait?_drop]
  split <;> rfl

theorem Timed.course_firstChange (h : s.Timed) (u : String) :
    (s.course u).firstChange = s.firstChange [u] := by
  show ((s.wait? u).map (·.first)).getD s.now = ((s.pending.get? [u]).map (·.first)).getD s.now
  obtain ⟨hnone, hwait⟩ | ⟨b, t, hb, -, -, -, hwait⟩ := h.wait?_cases u
  · rw [hnone, hwait]
    rfl
  · rw [hb, hwait]
    rfl

theorem Timed.course_remaining (h : s.Timed) (u : String) :
    (s.course u).remaining = s.remaining s.settings.maxWaitMs [u] := by
  rw [Course.remaining, h.course_firstChange]
  rfl

theorem debounce_eq (key : BatchKey) (s : Session Int) :
    (debounce noted key s).1 =
      if s.remaining s.settings.maxWaitMs key ≤ 0 then
        runBatch noted key (s.firstChange key) true ((s.trigger key).exhaust key)
      else ((s.trigger key).drop key).wait key (s.firstChange key)
        (min s.settings.debounceMs (s.remaining s.settings.maxWaitMs key))
        (s.remaining s.settings.maxWaitMs key < s.settings.debounceMs) := by
  have hfirst : (s.trigger key).firstChange key = s.firstChange key := rfl
  have hremaining : (s.trigger key).remaining s.settings.maxWaitMs key =
      s.remaining s.settings.maxWaitMs key := rfl
  have hsettings : (s.trigger key).settings = s.settings := rfl
  rw [debounce, waits?_eq]
  simp only [putOff_eq, TimeScale.le_int, TimeScale.zero_int, TimeScale.earlier_int,
    TimeScale.lt_int, decide_eq_true_eq, hfirst, hremaining, hsettings]

theorem Timed.course_wait (h : s.Timed) (u uri : String) (first delay : Int) (forced : Bool) :
    ((s.drop [u]).wait [u] first delay forced).course uri =
      if u = uri then { s.course uri with wait := some ⟨first, s.now + delay, forced⟩ }
      else s.course uri := by
  have hcourse : ((s.drop [u]).wait [u] first delay forced).course uri =
      { (s.drop [u]).course uri with
        wait := ((s.drop [u]).wait [u] first delay forced).wait? uri } := rfl
  rw [hcourse, h.wait?_wait, h.course_drop]
  split <;> rfl

/-- That an analysis is called for is no matter of the course. -/
theorem course_trigger (key : BatchKey) (s : Session Int) (uri : String) :
    (s.trigger key).course uri = s.course uri := rfl

/-- Putting a document off acts on its course. -/
theorem Timed.course_debounce_self (h : s.Timed) (u : String) :
    (debounce noted [u] s).1.course u = (s.course u).putOff u := by
  have htriggered := h.trigger [u]
  rw [debounce_eq, Course.putOff, h.course_remaining, h.course_firstChange]
  split
  · have hwait : ((s.trigger [u]).exhaust [u]).wait? u = none :=
      (htriggered.wait?_drop u u).trans (if_pos rfl)
    have hcourse : ((s.trigger [u]).exhaust [u]).course u = { s.course u with wait := none } :=
      (htriggered.course_drop u u).trans (if_pos rfl)
    rw [course_runBatch_self u _ true hwait, hcourse]
    rfl
  · rw [htriggered.course_wait, if_pos rfl]
    rfl

/-- Putting another document off does not act on the course. -/
theorem Timed.course_debounce_of_ne (h : s.Timed) (hu : u ≠ uri) :
    (debounce noted [u] s).1.course uri = s.course uri := by
  have htriggered := h.trigger [u]
  rw [debounce_eq]
  split
  · rw [course_runBatch_of_ne hu]
    exact (htriggered.course_drop u uri).trans (if_neg hu)
  · rw [htriggered.course_wait, if_neg hu, course_trigger]

theorem Timed.course_debounce (h : s.Timed) (u uri : String) :
    (debounce noted [u] s).1.course uri =
      if u = uri then (s.course uri).putOff uri else s.course uri := by
  split
  · rename_i hu
    exact hu ▸ h.course_debounce_self u
  · rename_i hu
    exact h.course_debounce_of_ne hu

end Session
end Stacking
