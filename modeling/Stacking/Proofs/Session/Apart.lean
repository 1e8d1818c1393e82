import Stacking.Proofs.Session.Course

/-!
# Documents keep apart

Where no documents are shown together, every batch holds one document. Then a step acts on the
course of a document as `Course.step` says if it has to do with the document, and leaves it alone
otherwise (`Separate.course_perform`), so that leaving out all that is reported of other documents
changes nothing (`Session.documents_apart`).

The timers of all documents go off in one order and move the clock as they do. A timer that goes off
before that of a document is due no later, so the document is analysed at the same time with and
without it (`Separate.course_fireDue`).
-/

namespace Stacking

/-- The steps before the session ends that show no documents together. -/
def Step.Separate : Step → Prop
  | .showDocuments _ => False
  | step => step.Ongoing

namespace Session

variable {s s' : Session Int} {uri u : String}

/-! ## Sessions whose batches hold one document each -/

/-- Batches and timers are paired, and every batch holds one document. -/
structure Separate (s : Session Int) : Prop where
  timed : s.Timed
  single : ∀ key b, s.pending.get? key = some b → ∃ u, key = [u]

theorem Separate.fewer (h : s.Separate) (ht : s'.Timed)
    (hp : ∀ key b, s'.pending.get? key = some b → s.pending.get? key = some b) : s'.Separate :=
  ⟨ht, fun key b hb => h.single key b (hp key b hb)⟩

theorem Separate.congr (h : s.Separate) (hp : s'.pending = s.pending) (ht : s'.timers = s.timers)
    (hn : s'.nextTimer = s.nextTimer) : s'.Separate :=
  h.fewer (h.timed.congr hp ht hn) fun _ _ hb => hp ▸ hb

theorem Separate.drop (h : s.Separate) (key : BatchKey) : (s.drop key).Separate :=
  h.fewer (h.timed.drop key) fun _ _ => get?_pending_of_drop

theorem Separate.stands (h : s.Separate) (hs : Stands s s') : s'.Separate :=
  h.fewer (hs.timed h.timed) fun _ _ hb => hs.pending ▸ hb

theorem Separate.debounce (h : s.Separate) (u : String) : (debounce noted [u] s).1.Separate := by
  have htriggered : (s.trigger [u]).Separate := h.congr rfl rfl rfl
  rw [debounce_eq]
  split
  · have hexhaust : ((s.trigger [u]).exhaust [u]).Separate :=
      (htriggered.drop [u]).congr rfl rfl rfl
    exact hexhaust.stands (stands_runBatch _ _ _ _)
  · refine ⟨htriggered.timed.wait [u] _ _ _, fun key b hb => ?_⟩
    have hb : (((s.trigger [u]).drop [u]).pending.put [u] _).get? key = some b := hb
    rw [Table.get?_put] at hb
    split at hb
    · rename_i hkey
      exact ⟨u, hkey.symm⟩
    · exact (htriggered.drop [u]).single key b hb

/-! ## Flushes -/

theorem Separate.course_flushKeys (h : s.Separate) {keys : List BatchKey} (hnodup : keys.Nodup)
    (hall : ∀ key ∈ keys, ∃ b, s.pending.get? key = some b) (uri : String) :
    (flushKeys noted keys s).1.Separate ∧
      (flushKeys noted keys s).1.course uri =
        if [uri] ∈ keys then (s.course uri).flush uri else s.course uri := by
  induction keys generalizing s with
  | nil => exact ⟨h, rfl⟩
  | cons key rest ih =>
    obtain ⟨hkey, hrest⟩ := List.nodup_cons.mp hnodup
    obtain ⟨b, hb⟩ := hall key List.mem_cons_self
    obtain ⟨u, rfl⟩ := h.single key b hb
    have hstands := stands_runBatch [u] b.first false (s.drop [u])
    have hstill : ∀ k ∈ rest,
        ∃ b', (runBatch noted [u] b.first false (s.drop [u])).pending.get? k = some b' := by
      intro k hk
      have hne : [u] ≠ k := fun heq => hkey (heq ▸ hk)
      rw [hstands.pending, get?_pending_drop, if_neg hne]
      exact hall k (List.mem_cons_of_mem _ hk)
    obtain ⟨hseparate, hcourse⟩ := ih ((h.drop [u]).stands hstands) hrest hstill
    rw [flushKeys, hb]
    refine ⟨hseparate, hcourse.trans ?_⟩
    by_cases hu : u = uri
    · subst hu
      obtain ⟨t, ht, hid, -⟩ := h.timed.timer [u] b hb
      have hwait : (s.course u).wait = some ⟨b.first, t.due, b.forced⟩ :=
        h.timed.wait?_eq_some hb ht hid
      have hgone : (s.drop [u]).wait? u = none := (h.timed.wait?_drop u u).trans (if_pos rfl)
      rw [if_neg hkey, if_pos List.mem_cons_self, course_runBatch_self u _ false hgone,
        h.timed.course_drop, if_pos rfl, Course.flush, hwait]
      rfl
    · rw [course_runBatch_of_ne hu, h.timed.course_drop, if_neg hu]
      simp [Ne.symm hu]

theorem Separate.course_flush (h : s.Separate) (uri : String) :
    (Session.flush noted s).1.Separate ∧
      (Session.flush noted s).1.course uri = (s.course uri).flush uri := by
  obtain ⟨hseparate, hcourse⟩ := h.course_flushKeys h.timed.keys
    (fun key hkey => (Table.mem_keys_iff s.pending key).mp hkey) uri
  refine ⟨hseparate, hcourse.trans ?_⟩
  split
  · rfl
  · rename_i hnot
    have hnone : s.pending.get? [uri] = none := by
      cases hb : s.pending.get? [uri] with
      | none => rfl
      | some b => exact absurd ((Table.mem_keys_iff _ _).mpr ⟨b, hb⟩) hnot
    have hwait : (s.course uri).wait = none := wait?_eq_none hnone
    rw [Course.flush, hwait]

/-! ## Letting the clock run -/

theorem Timed.course_release (h : s.Timed) {t : Timer Int} (ht : t ∈ s.timers) (hkey : t.key = [u])
    (b : Batch Int) (uri : String) :
    ((s.expire t).release [u] b).course uri =
      if u = uri then { (s.course uri).atTime (max s.now t.due) with wait := none }
      else (s.course uri).atTime (max s.now t.due) := by
  have hget : ∀ k, ((s.expire t).release [u] b).pending.get? k =
      if [u] = k then none else s.pending.get? k := fun k => Table.get?_erase ..
  have hwait : ((s.expire t).release [u] b).wait? uri = if u = uri then none else s.wait? uri := by
    by_cases hu : u = uri
    · rw [if_pos hu, hu]
      exact wait?_eq_none (by rw [← hu, hget, if_pos rfl])
    · rw [if_neg hu]
      refine h.wait?_congr (hkey ▸ h.fire ht b) ?_ fun t' ht' hkey' => ?_
      · rw [hget, if_neg (singleton_ne hu)]
      · refine List.mem_filter.mpr ⟨ht', ?_⟩
        simp only [ne_eq, decide_eq_true_eq]
        intro hid
        obtain rfl := h.eq_of_id ht' ht hid
        exact singleton_ne hu (hkey.symm.trans hkey')
  have hcourse : ((s.expire t).release [u] b).course uri =
      { (s.course uri).atTime (TimeScale.later s.now t.due) with
        wait := ((s.expire t).release [u] b).wait? uri } := rfl
  rw [hcourse, hwait, TimeScale.later_int]
  split <;> rfl

/-- A timer that goes off acts on the course of its document; for any other, time passes. -/
theorem Separate.course_fire (h : s.Separate) {t : Timer Int} (ht : t ∈ s.timers) (uri : String) :
    (fire noted t.key (s.expire t)).Separate ∧
      (fire noted t.key (s.expire t)).timers.length < s.timers.length ∧
      ∃ u b, t.key = [u] ∧ s.pending.get? [u] = some b ∧ t.id = b.timer ∧
        (fire noted t.key (s.expire t)).course uri =
          if u = uri then ((s.course uri).atTime (max s.now t.due)).ripen uri b.first b.forced
          else (s.course uri).atTime (max s.now t.due) := by
  obtain ⟨b, hb, hid⟩ := h.timed.batch t ht
  obtain ⟨u, hkey⟩ := h.single t.key b hb
  rw [hkey] at hb ⊢
  have hb' : (s.expire t).pending.get? [u] = some b := hb
  have hstands := stands_runBatch [u] b.first b.forced ((s.expire t).release [u] b)
  have hreleased : ((s.expire t).release [u] b).Separate :=
    h.fewer (hkey ▸ h.timed.fire ht b) fun _ _ => Table.get?_of_get?_erase
  rw [fire_eq hb']
  refine ⟨hreleased.stands hstands, ?_, u, b, rfl, hb, hid.symm, ?_⟩
  · rw [hstands.timers]
    exact length_timers_expire_lt ht
  · have hcourse := h.timed.course_release ht hkey b uri
    by_cases hu : u = uri
    · subst hu
      rw [if_pos rfl] at hcourse ⊢
      have hgone : ((s.expire t).release [u] b).wait? u = none := congrArg Course.wait hcourse
      rw [course_runBatch_self u _ _ hgone, hcourse]
      rfl
    · rw [if_neg hu] at hcourse ⊢
      rw [course_runBatch_of_ne hu, hcourse]

/-- No timer is due, that of the document included. -/
theorem Timed.goOff_eq (h : s.Timed) {target : Int} (hdue : ∀ t ∈ s.timers, target < t.due)
    (uri : String) : (s.course uri).goOff uri target = s.course uri := by
  obtain ⟨-, hwait⟩ | ⟨b, t, -, ht, -, -, hwait⟩ := h.wait?_cases uri
  · exact Course.goOff_of_wait_none hwait
  · have hlater : ¬ t.due ≤ target := Int.not_le.mpr (hdue t ht)
    exact (Course.goOff_of_wait_some hwait).trans (if_neg hlater)

/-- Timers that go off before that of the document are due no later, so that it is analysed at the
time at which it would be without them. -/
theorem Separate.course_fireDue (h : s.Separate) (target : Int) {count : Nat}
    (hcount : s.timers.length ≤ count) (uri : String) :
    (fireDue noted target count s).Separate ∧
      ∀ now, ((fireDue noted target count s).course uri).atTime now =
        ((s.course uri).goOff uri target).atTime now := by
  induction count generalizing s with
  | zero =>
    have hnone : s.timers = [] := List.eq_nil_of_length_eq_zero (by omega)
    refine ⟨h, fun now => ?_⟩
    rw [h.timed.goOff_eq (by simp [hnone])]
    rfl
  | succ count ih =>
    unfold fireDue
    obtain ⟨hnone, hdue⟩ | ⟨t, ht, hfirst⟩ := nextDue?_cases target s.timers
    · rw [hnone]
      refine ⟨h, fun now => ?_⟩
      rw [h.timed.goOff_eq hdue]
    · rw [ht]
      obtain ⟨hseparate, hfewer, u, b, hkey, hb, hid, hcourse⟩ := h.course_fire hfirst.mem uri
      obtain ⟨hend, hsame⟩ := ih hseparate (by omega)
      refine ⟨hend, fun now => (hsame now).trans ?_⟩
      rw [hcourse]
      by_cases hu : u = uri
      · -- the document has been analysed and waits no more
        subst hu
        have hwait := h.timed.wait?_eq_some hb hfirst.mem hid
        rw [if_pos rfl, Course.goOff_of_wait_none (Course.wait_ripen ..),
          Course.goOff_of_wait_some hwait, if_pos hfirst.due]
        rfl
      · rw [if_neg hu]
        refine Course.atTime_goOff uri target now fun w hw => ?_
        obtain ⟨-, hwait⟩ | ⟨b', t', -, ht', -, -, hwait⟩ := h.timed.wait?_cases uri
        · exact absurd (hw.symm.trans hwait) (Option.some_ne_none w)
        · obtain rfl := Option.some.inj (hw.symm.trans hwait)
          exact hfirst.least t' ht'

/-! ## Steps -/

theorem course_enrol (s : Session Int) (u : String) (text : Text) (version : Int) (uri : String) :
    (s.enrol u text version).course uri =
      if u = uri then { s.course uri with record := (s.record uri).enrol text version }
      else s.course uri := by
  have hcourse : (s.enrol u text version).course uri =
      { s.course uri with record := (s.enrol u text version).record uri } := rfl
  rw [hcourse, record_enrol]
  split <;> rfl

theorem course_place (s : Session Int) (u : String) (text : Text) (version : Int) (uri : String) :
    ((s.place u text version).note (.received u version s.now)).course uri =
      if u = uri then { s.course uri with record := (s.record uri).place text version }
      else s.course uri := by
  have hcourse : ((s.place u text version).note (.received u version s.now)).course uri =
      { s.course uri with record := (s.place u text version).record uri } := rfl
  rw [hcourse, record_place]
  split <;> rfl

theorem Timed.course_forget (h : s.Timed) (u uri : String) :
    (s.forget u).course uri =
      if u = uri then { s.course uri with record := .closed, wait := none }
      else s.course uri := by
  have hcourse : (s.forget u).course uri =
      { s.course uri with record := (s.forget u).record uri, wait := (s.forget u).wait? uri } := by
    rw [forget, drop_eq]
    rfl
  have hwait : (s.forget u).wait? uri = if u = uri then none else s.wait? uri := by
    refine Timed.wait?_drop ?_ u uri
    exact h.congr rfl rfl rfl
  rw [hcourse, record_forget, hwait]
  split <;> rfl

/-- A document is put off, its record having become `k`, or nothing happens. -/
theorem Separate.course_putOff {s₁ s₂ : Session Int} (h₁ : s₁.Separate) (h₂ : s₂.Separate)
    (u : String) {c : Course} {k : Record} (p : Bool)
    (hc : s₁.course uri = if u = uri then { c with record := k } else c) (hc₂ : s₂.course uri = c) :
    (if p then (Session.debounce noted [u] s₁).1 else s₂).Separate ∧
      (if p then (Session.debounce noted [u] s₁).1 else s₂).course uri =
        if u = uri then if p then { c with record := k }.putOff uri else c else c := by
  cases p with
  | false => exact ⟨h₂, hc₂.trans (ite_self c).symm⟩
  | true =>
    refine ⟨h₁.debounce u, ?_⟩
    simp only [if_true]
    rw [h₁.timed.course_debounce, hc]
    by_cases hu : u = uri
    · simp only [if_pos hu]
    · simp only [if_neg hu]

/-- What a step makes of the course of a document: it acts on the course if it has to do with the
document, and leaves it alone otherwise. -/
theorem Separate.course_perform (h : s.Separate) {action : Step} (ha : action.Separate)
    (uri : String) :
    (perform noted s action).1.Separate ∧
      (perform noted s action).1.course uri =
        if action.concerns uri then (s.course uri).step uri action else s.course uri := by
  cases action with
  | openDocument u text version =>
    have henrol : (s.enrol u text version).Separate := h.congr rfl rfl rfl
    obtain ⟨hseparate, hcourse⟩ :=
      henrol.course_putOff h u true (course_enrol s u text version uri) rfl
    refine ⟨hseparate, hcourse.trans ?_⟩
    simp only [Step.concerns, decide_eq_true_eq]
    rfl
  | changeDocument u text version =>
    have hplace : ((s.place u text version).note (.received u version s.now)).Separate :=
      h.congr rfl rfl rfl
    have hperform : (perform noted s (.changeDocument u text version)).1 =
        if s.accepts u version then (Session.debounce noted [u]
          ((s.place u text version).note (.received u version s.now))).1 else s := by
      simp only [perform, changed]
      split <;> rfl
    obtain ⟨hseparate, hcourse⟩ :=
      hplace.course_putOff h u (s.accepts u version) (course_place s u text version uri) rfl
    rw [hperform]
    refine ⟨hseparate, hcourse.trans ?_⟩
    simp only [Step.concerns, decide_eq_true_eq]
    by_cases hu : u = uri
    · subst hu
      rfl
    · simp only [if_neg hu]
  | closeDocument u =>
    have hforget : (s.forget u).Separate := by
      refine Separate.drop ?_ [u]
      exact h.congr rfl rfl rfl
    refine ⟨hforget.congr rfl rfl rfl, ?_⟩
    show (noted (.forgotten u) (s.forget u)).course uri = _
    rw [course_noted, h.timed.course_forget, record_forget]
    simp only [Step.concerns, Event.concerns, decide_eq_true_eq]
    by_cases hu : u = uri
    · subst hu
      simp only [if_true]
      rfl
    · simp only [if_neg hu]
  | activate active =>
    cases active with
    | none => exact ⟨h.congr rfl rfl rfl, rfl⟩
    | some u =>
      have hactive : Separate { s with active := some u } := h.congr rfl rfl rfl
      have hcourse : course uri { s with active := some u } =
          if u = uri then { s.course uri with record := s.record uri } else s.course uri :=
        (ite_self (s.course uri)).symm
      have hperform : (perform noted s (.activate (some u))).1 =
          if { s with active := some u }.needsAnalysis u then
            (Session.debounce noted [u] { s with active := some u }).1
          else { s with active := some u } := by
        simp only [perform, activated]
        split <;> rfl
      obtain ⟨hseparate, hcourse⟩ := hactive.course_putOff hactive u
        ({ s with active := some u }.needsAnalysis u) hcourse rfl
      rw [hperform]
      refine ⟨hseparate, hcourse.trans ?_⟩
      simp only [Step.concerns, decide_eq_true_eq]
      by_cases hu : u = uri
      · subst hu
        rfl
      · simp only [if_neg hu]
  | unsupported value => exact ⟨h, rfl⟩
  | flush => exact h.course_flush uri
  | advance n =>
    have hstart : Separate { s with millis := s.millis + n } := h.congr rfl rfl rfl
    obtain ⟨hend, hcourse⟩ := hstart.course_fireDue (s.millis + n)
      (Nat.le_add_right _ s.hooks.length) uri
    exact ⟨hend.congr rfl rfl rfl, hcourse (s.millis + n)⟩
  | stall n => exact ⟨h.congr rfl rfl rfl, rfl⟩
  | showDocuments | shutdown | placeDocument | reviseDocument | dropDocument | submitResult =>
    exact False.elim ha

/-! ## Runs -/

/-- The course of a document in a run is made by the steps that have to do with it. -/
theorem Separate.course_steps (h : s.Separate) (hp : s.Passive) {actions : List Step}
    (ha : ∀ action ∈ actions, action.Separate) (uri : String) :
    (s.steps actions).Separate ∧
      (s.steps actions).course uri =
        (actions.filter (·.concerns uri)).foldl (fun c action => c.step uri action)
          (s.course uri) := by
  induction actions generalizing s with
  | nil => exact ⟨h, rfl⟩
  | cons action rest ih =>
    obtain ⟨hfirst, hrest⟩ := List.forall_mem_cons.mp ha
    obtain ⟨hstep, hpassive⟩ := step_of_passive hp action
    obtain ⟨hseparate, hcourse⟩ := h.course_perform hfirst uri
    rw [← hstep] at hseparate hcourse
    obtain ⟨hend, hsteps⟩ := ih hseparate hpassive hrest
    refine ⟨hend, hsteps.trans ?_⟩
    rw [hcourse, List.filter_cons]
    split <;> rfl

theorem separate_new (settings : Settings) (hooks : List (Hook Int)) :
    (new settings hooks).Separate :=
  ⟨timed_new settings hooks, nofun⟩

/-- Two sessions make the same of a document: what is known of it, its wait, and the events about it
are the same, and in both the batch that holds it holds no other. -/
structure SameCourse (uri : String) (s s' : Session Int) : Prop where
  now : s.now = s'.now
  document : s.documents.get? uri = s'.documents.get? uri
  result : s.result? uri = s'.result? uri
  failed : s.failed.get? uri = s'.failed.get? uri
  reopened : s.reopened.contains uri = s'.reopened.contains uri
  wait : s.wait? uri = s'.wait? uri
  alone : ∀ key, s.pending.contains key = true ∨ s'.pending.contains key = true → uri ∈ key →
    key = [uri]
  events : s.events.filter (·.concerns uri) = s'.events.filter (·.concerns uri)

theorem Separate.sameCourse (h : s.Separate) (h' : s'.Separate)
    (hcourse : s.course uri = s'.course uri) : SameCourse uri s s' where
  now := congrArg Course.now hcourse
  document := congrArg (fun c => c.record.document) hcourse
  result := congrArg (fun c => c.record.result) hcourse
  failed := congrArg (fun c => c.record.failed) hcourse
  reopened := congrArg (fun c => c.record.reopened) hcourse
  wait := congrArg Course.wait hcourse
  alone key hkey hmem := by
    have hsingle : ∃ u, key = [u] := by
      rw [Table.contains_eq_isSome, Table.contains_eq_isSome, Option.isSome_iff_exists,
        Option.isSome_iff_exists] at hkey
      rcases hkey with ⟨b, hb⟩ | ⟨b, hb⟩
      · exact h.single key b hb
      · exact h'.single key b hb
    obtain ⟨u, rfl⟩ := hsingle
    rw [List.mem_singleton.mp hmem]
  events := congrArg Course.events hcourse

/-- Documents do not interfere. Take a run on an exact clock in which documents are opened, changed,
closed and worked on, the clock runs or is kept busy, and batches are flushed, with listeners that
only listen. Leave out all that is reported of other documents: at every moment, what the session
makes of a document is the same. -/
theorem documents_apart (settings : Settings) {hooks : List (Hook Int)}
    (hh : ∀ hook ∈ hooks, ∀ e es, hook.respond e es = none) {actions : List Step}
    (ha : ∀ action ∈ actions, action.Separate) (uri : String) (before : List Step)
    (hbefore : before <+: actions) :
    SameCourse uri ((new settings hooks).steps before)
      ((new settings hooks).steps (before.filter (·.concerns uri))) := by
  have hpassive := passive_new settings hh
  have hall : ∀ action ∈ before, action.Separate := fun action hm => ha action (hbefore.subset hm)
  obtain ⟨h, hcourse⟩ := (separate_new settings hooks).course_steps hpassive hall uri
  obtain ⟨h', hcourse'⟩ := (separate_new settings hooks).course_steps hpassive
    (fun action hm => hall action (List.mem_filter.mp hm).1) uri
  refine h.sameCourse h' (hcourse.trans ?_)
  rw [hcourse', List.filter_filter]
  simp only [Bool.and_self]

/-- Two documents are changed in turn while the host is busy at times; the changes of the second are
left out. The first waits since its first change in both runs, and its wait has been cut short. -/
theorem documents_apart_typing :
    let hooks : List (Hook Int) := [⟨fun _ _ => none⟩]
    let actions : List Step := [.openDocument "a" [] 1, .openDocument "b" [] 1, .advance 300,
      .changeDocument "b" [] 2, .changeDocument "a" [] 2, .stall 300, .activate (some "b"),
      .changeDocument "a" [] 3, .advance 300, .closeDocument "b", .changeDocument "a" [] 4]
    let own : List Step := [.openDocument "a" [] 1, .advance 300, .changeDocument "a" [] 2,
      .stall 300, .changeDocument "a" [] 3, .advance 300, .changeDocument "a" [] 4]
    (∀ hook ∈ hooks, ∀ e es, hook.respond e es = none) ∧
      (∀ action ∈ actions, action.Separate) ∧ actions <+: actions ∧
      SameCourse "a" ((new {} hooks).steps actions) ((new {} hooks).steps own) ∧
      ((new {} hooks).steps actions).wait? "a" = some ⟨0, 1000, true⟩ := by
  intro hooks actions own
  have hh : ∀ hook ∈ hooks, ∀ e es, hook.respond e es = none := by
    intro hook hm e es
    obtain rfl := List.mem_singleton.mp hm
    rfl
  have ha : ∀ action ∈ actions, action.Separate := by
    simp [actions, Step.Separate, Step.Ongoing, Step.Regular]
  have hown : actions.filter (·.concerns "a") = own := by
    simp [actions, own, Step.concerns]
  have hsame := documents_apart {} hh ha "a" actions List.prefix_rfl
  rw [hown] at hsame
  exact ⟨hh, ha, List.prefix_rfl, hsame, by decide +kernel⟩

end Session
end Stacking
