import Stacking.Proofs.Session.Receptions
import Stacking.Proofs.Session.Timers

/-!
# What can happen in an instant

The reports of an editor and flushes take no time, and neither do the steps that listeners take from
within them. This file compares a session before and after (`Session.Onward`): a batch that waited
waits on since the same first change, or it has been analysed, so that every text of its documents
that was received before is answered for. And there are no more timers than before, but for those
that listeners paid for: each of them acts once and sets one timer at most.

The comparison is carried through the operations one by one, and through the listeners by induction
on how deep they nest (`react_carries`).
-/

namespace Stacking

namespace Step

/-- The steps that take no time: the reports of an editor, and flushes. -/
def Momentary : Step → Prop
  | .openDocument .. | .changeDocument .. | .closeDocument .. | .showDocuments .. => True
  | .activate .. | .unsupported .. | .flush => True
  | _ => False

theorem Momentary.ongoing {step : Step} (h : step.Momentary) : step.Ongoing := by
  cases step <;> trivial

end Step

namespace Session

variable {τ : Type}

/-- How many timers are set and how many listeners can still act. -/
def load (s : Session τ) : Nat := s.timers.length + s.hooks.length

/-- Of the texts of the given documents, only those that were received just now are outstanding. -/
def SeenTo (key : BatchKey) (s : Session τ) : Prop :=
  ∀ uri ∈ key, ∀ version time, Notice.Outstanding uri version time s.journal → time = s.now

/-- What an instant makes of a session: the clock stands, timers and listeners grow by `extra` at
most, texts that become outstanding are received now, and a batch waits on since its first change or
has been seen to. -/
structure Onward (extra : Nat) (s s' : Session τ) : Prop where
  now : s'.now = s.now
  millis : s'.millis = s.millis
  load : s'.load ≤ s.load + extra
  fresh : ∀ uri version time, Notice.Outstanding uri version time s'.journal →
    Notice.Outstanding uri version time s.journal ∨ time = s.now
  batch : ∀ key b, s.pending.get? key = some b →
    (∃ b', s'.pending.get? key = some b' ∧ b'.first = b.first) ∨ s'.SeenTo key

variable {s s' s₁ s₂ : Session τ} {key : BatchKey} {extra : Nat}

theorem SeenTo.onward (h : s.SeenTo key) (ho : Onward extra s s') : s'.SeenTo key := by
  intro uri hmem version time hout
  rw [ho.now]
  rcases ho.fresh uri version time hout with hold | hnow
  · exact h uri hmem version time hold
  · exact hnow

theorem Onward.refl (s : Session τ) : Onward 0 s s :=
  ⟨rfl, rfl, Nat.le_refl _, fun _ _ _ ho => Or.inl ho, fun _ b hb => Or.inl ⟨b, hb, rfl⟩⟩

theorem Onward.mono {extra' : Nat} (h : Onward extra s s') (hle : extra ≤ extra') :
    Onward extra' s s' :=
  ⟨h.now, h.millis, Nat.le_trans h.load (Nat.add_le_add_left hle _), h.fresh, h.batch⟩

theorem Onward.trans {extra' : Nat} (h : Onward extra s s₁) (h' : Onward extra' s₁ s₂) :
    Onward (extra + extra') s s₂ where
  now := h'.now.trans h.now
  millis := h'.millis.trans h.millis
  load := by
    have := h.load
    have := h'.load
    omega
  fresh uri version time hout := by
    rcases h'.fresh uri version time hout with hmid | hnow
    · exact h.fresh uri version time hmid
    · exact Or.inr (hnow.trans h.now)
  batch key b hb := by
    rcases h.batch key b hb with ⟨b₁, hb₁, hfirst₁⟩ | hseen
    · rcases h'.batch key b₁ hb₁ with ⟨b₂, hb₂, hfirst₂⟩ | hseen
      · exact Or.inl ⟨b₂, hb₂, hfirst₂.trans hfirst₁⟩
      · exact Or.inr hseen
    · exact Or.inr (hseen.onward h')

/-- Neither batches nor timers change, and nothing is told. -/
theorem Onward.still (hnow : s'.now = s.now) (hmillis : s'.millis = s.millis)
    (ht : s'.timers = s.timers) (hh : s'.hooks = s.hooks) (hp : s'.pending = s.pending)
    (hj : s'.journal = s.journal) : Onward 0 s s' where
  now := hnow
  millis := hmillis
  load := by rw [Session.load, ht, hh]; exact Nat.le_refl _
  fresh _ _ _ hout := Or.inl (hj ▸ hout)
  batch _ b hb := Or.inl ⟨b, hp ▸ hb, rfl⟩

theorem SeenTo.tell (h : s.SeenTo key) {n : Notice τ} (hn : n.isReception = false) :
    (s.note n).SeenTo key := fun uri hmem version time hout =>
  h uri hmem version time (Notice.outstanding_of_cons hout hn).1

/-- Something is told of no text received. -/
theorem Onward.tell (h : Onward extra s s') {n : Notice τ} (hn : n.isReception = false) :
    Onward extra s (s'.note n) :=
  ⟨h.now, h.millis, h.load,
    fun uri version time hout => h.fresh uri version time (Notice.outstanding_of_cons hout hn).1,
    fun key b hb => (h.batch key b hb).imp_right fun hseen => hseen.tell hn⟩

theorem SeenTo.receive (h : s.SeenTo key) (uri : String) (version : Int) :
    (s.note (.received uri version s.now)).SeenTo key := by
  intro u hmem v time hout
  rcases Notice.outstanding_cons hout with heq | ⟨hout, -⟩
  · injection heq with _ _ htime
    exact htime.symm
  · exact h u hmem v time hout

/-- A text is received now. -/
theorem Onward.receive (h : Onward extra s s') (uri : String) (version : Int) :
    Onward extra s (s'.note (.received uri version s'.now)) where
  now := h.now
  millis := h.millis
  load := h.load
  fresh u v time hout := by
    rcases Notice.outstanding_cons hout with heq | ⟨hout, -⟩
    · injection heq with _ _ htime
      exact Or.inr (htime.symm.trans h.now)
    · exact h.fresh u v time hout
  batch key b hb := (h.batch key b hb).imp_right fun hseen => hseen.receive uri version

/-- A batch is taken off, and its documents have been seen to in the end. -/
theorem Onward.taken (h : Onward 0 s₁ s₂) (hseen : s₂.SeenTo key) (hnow : s₁.now = s.now)
    (hmillis : s₁.millis = s.millis) (hload : s₁.load ≤ s.load)
    (hj : ∀ uri version time, Notice.Outstanding uri version time s₁.journal →
      Notice.Outstanding uri version time s.journal)
    (hp : ∀ k, key ≠ k → s₁.pending.get? k = s.pending.get? k) : Onward 0 s s₂ where
  now := h.now.trans hnow
  millis := h.millis.trans hmillis
  load := Nat.le_trans h.load hload
  fresh uri version time hout :=
    (h.fresh uri version time hout).imp (hj uri version time) fun ht => ht.trans hnow
  batch k b hb := by
    by_cases hk : key = k
    · exact Or.inr (hk ▸ hseen)
    · exact h.batch k b ((hp k hk).trans hb)

theorem length_timers_drop_le (key : BatchKey) (s : Session τ) :
    (s.drop key).timers.length ≤ s.timers.length := by
  unfold drop
  split
  · exact Nat.le_refl _
  · exact List.length_filter_le _ _

theorem load_drop_le (key : BatchKey) (s : Session τ) : (s.drop key).load ≤ s.load := by
  have hhooks : (s.drop key).hooks = s.hooks := hooks_drop key s
  rw [load, load, hhooks]
  exact Nat.add_le_add_right (length_timers_drop_le key s) _

/-- A document that is not due has been seen to. -/
theorem Mindful.seenTo {p : Publication} (h : s.Mindful p) {uri : String}
    (hdone : s.needsAnalysis uri = false) : s.SeenTo [uri] := by
  intro u hu version time hout
  obtain rfl := List.mem_singleton.mp hu
  exact absurd hout (h.not_outstanding hdone version time)

/-! ## Operations -/

variable [TimeScale τ] {p : Publication} {react : Event τ → Session τ → Session τ}

/-- Documents with outstanding texts are due, and listeners take steps of an instant only. -/
def Engaged (p : Publication) (_ : List String) (s : Session τ) : Prop :=
  s.Mindful p ∧ s.HooksAllow Step.Momentary

theorem engaged_invariant (p : Publication) :
    Invariant (τ := τ) Step.Momentary (Engaged p) :=
  ((mindful_invariant p).mono fun h => h.ongoing.regular).withHooks

/-- What the outside makes of an event takes no time. -/
structure Carries (p : Publication) (react : Event τ → Session τ → Session τ) : Prop where
  heard : Heard (Engaged p) react react
  onward : ∀ {e s}, Engaged p [] (s.note (.event e)) → Onward 0 (s.note (.event e)) (react e s)

omit [TimeScale τ] in
/-- An event is told after which a document is not due. -/
theorem Carries.seen (C : Carries p react) {e : Event τ} {uri : String}
    (hq : Onward 0 s s₁) (h : Engaged p [] (s₁.note (.event e)))
    (hdone : (s₁.note (.event e)).needsAnalysis uri = false) :
    Onward 0 s (react e s₁) ∧ (react e s₁).SeenTo [uri] := by
  have hseen := h.1.seenTo hdone
  exact ⟨(hq.tell rfl).trans (C.onward h), hseen.onward (C.onward h)⟩

/-- A document that is analysed has been seen to. -/
theorem onward_run (C : Carries p react) (uri : String) (h : Engaged p [] s) :
    Onward 0 s (run react uri s) ∧ (run react uri s).SeenTo [uri] := by
  have I := engaged_invariant (τ := τ) p
  unfold run
  cases hd : s.documents.get? uri with
  | none =>
    have hdone : s.needsAnalysis uri = false := by simp [needsAnalysis, hd]
    exact ⟨(Onward.refl s).tell rfl, (h.1.seenTo hdone).tell rfl⟩
  | some d =>
    cases hn : s.needsAnalysis uri with
    | false => exact ⟨.refl s, h.1.seenTo hn⟩
    | true =>
      have hpub : ({ s with runs := s.runs + 1 } : Session τ).publication = s.publication := rfl
      simp only [if_true, hpub]
      cases hr : Analysis.ofText uri d.version s.publication d.text with
      | error e =>
        refine C.seen ?_ (I.refuse hd hn hr h) ?_
        · exact .still rfl rfl rfl rfl rfl rfl
        · have hrecord := (record_refuse s.counted uri d.version uri).trans (if_pos rfl)
          exact (congrArg Record.needsAnalysis hrecord).trans (Record.needsAnalysis_refuse hd)
      | ok r =>
        obtain ⟨_, _, huri, hversion, _⟩ := Analysis.ofText_eq_ok hr
        subst huri
        have hs : s.isStale r = false := isStale_eq_false_of_due hd hn rfl hversion
        have hs' : s.counted.isStale r = false := hs
        show Onward 0 s (store react r s.counted).1 ∧ (store react r s.counted).1.SeenTo [r.uri]
        rw [store_of_not_stale r hs']
        refine C.seen ?_ (I.accept hd hn hr hs h) ?_
        · exact .still rfl rfl rfl rfl rfl rfl
        · have hrecord := (record_accept s.counted r r.uri).trans (if_pos rfl)
          exact (congrArg Record.needsAnalysis hrecord).trans
            (Record.needsAnalysis_accept hd hversion)

theorem onward_runEach (C : Carries p react) (key : BatchKey) (h : Engaged p [] s) :
    Onward 0 s (key.foldl (fun s uri => run react uri s) s) ∧
      (key.foldl (fun s uri => run react uri s) s).SeenTo key := by
  induction key generalizing s with
  | nil => exact ⟨.refl s, fun _ hu => absurd hu List.not_mem_nil⟩
  | cons uri rest ih =>
    obtain ⟨hrun, hseen⟩ := onward_run C uri h
    have hkept := (run_kept (R := []) (engaged_invariant p) C.heard uri h).2
    obtain ⟨hrest, hseenRest⟩ := ih hkept
    refine ⟨hrun.trans hrest, fun u hu => ?_⟩
    rcases List.mem_cons.mp hu with rfl | hu
    · exact hseen.onward hrest u List.mem_cons_self
    · exact hseenRest u hu

/-- The documents of a batch that is analysed have been seen to. -/
theorem onward_runBatch (C : Carries p react) (key : BatchKey) (first : τ) (forced : Bool)
    (h : Engaged p [] s) :
    Onward 0 s (runBatch react key first forced s) ∧
      (runBatch react key first forced s).SeenTo key := by
  cases forced with
  | false => exact onward_runEach C key h
  | true =>
    have hP : Engaged p [] (s.note (.event (.overrun key (TimeScale.sub s.now first)))) :=
      ⟨h.1.pass rfl, h.2⟩
    have hquiet : Onward 0 s (s.note (.event (.overrun key (TimeScale.sub s.now first)))) :=
      (Onward.refl s).tell rfl
    obtain ⟨hrest, hseen⟩ := onward_runEach C key (C.heard.keep hP)
    exact ⟨(hquiet.trans (C.onward hP)).trans hrest, hseen⟩

theorem onward_putOff (C : Carries p react) (window maxWait : τ) (key : BatchKey)
    (h : TimeScale.le (s.remaining maxWait key) TimeScale.zero = true →
      Engaged p [] (s.exhaust key)) : Onward 1 s (putOff react window maxWait key s) := by
  have hdrop := drop_eq key s
  rw [putOff_eq]
  cases hle : TimeScale.le (s.remaining maxWait key) TimeScale.zero with
  | true =>
    obtain ⟨hrun, hseen⟩ := onward_runBatch C key (s.firstChange key) true (h hle)
    refine (hrun.taken hseen ?_ ?_ (load_drop_le key s) ?_ ?_).mono (Nat.zero_le 1)
    · rw [exhaust, hdrop]; rfl
    · rw [exhaust, hdrop]; rfl
    · intro uri version time hout
      have := (Notice.outstanding_of_cons hout rfl).1
      rwa [hdrop] at this
    · intro k hk
      exact (get?_pending_drop s key k).trans (if_neg hk)
  | false =>
    refine ⟨by rw [hdrop]; rfl, by rw [hdrop]; rfl, ?_, ?_, ?_⟩
    · have hload := load_drop_le key s
      simp only [Bool.false_eq_true, if_false, load, Session.wait, List.length_append,
        List.length_singleton] at hload ⊢
      omega
    · intro uri version time hout
      rw [hdrop] at hout
      exact Or.inl hout
    · intro k b hb
      refine Or.inl ?_
      show ∃ b', ((s.drop key).pending.put key _).get? k = some b' ∧ b'.first = b.first
      rw [Table.get?_put, get?_pending_drop]
      by_cases hk : key = k
      · subst hk
        have hfirst : s.firstChange key = b.first := by rw [firstChange, hb]; rfl
        exact ⟨_, if_pos rfl, hfirst⟩
      · exact ⟨b, by rw [if_neg hk, if_neg hk, hb], rfl⟩

theorem onward_debounce (C : Carries p react) (key : BatchKey) (h : Engaged p [] s) :
    Onward 1 s (debounce react key s).1 := by
  have I := engaged_invariant (τ := τ) p
  have htriggered : Onward 0 s (s.trigger key) := (Onward.refl s).tell rfl
  cases hw : s.waits? with
  | none =>
    rw [debounce_of_beyondClock hw]
    exact htriggered.mono (Nat.zero_le 1)
  | some waits =>
    obtain ⟨window, maxWait⟩ := waits
    rw [debounce_of_waits hw]
    have hput : Onward 1 (s.trigger key) (putOff react window maxWait key (s.trigger key)) :=
      onward_putOff C window maxWait key fun hle => I.force (R := []) hw hle h
    exact (htriggered.trans hput).mono (Nat.le_refl _)

theorem onward_flushKeys (C : Carries p react) (keys : List BatchKey) (h : Engaged p [] s) :
    Onward 0 s (flushKeys react keys s).1 := by
  have I := engaged_invariant (τ := τ) p
  induction keys generalizing s with
  | nil => exact .refl s
  | cons key rest ih =>
    unfold flushKeys
    cases hb : s.pending.get? key with
    | none => exact .refl s
    | some b =>
      have hP : Engaged p [] (s.drop key) := I.take (R := []) trivial hb h
      have hdrop := drop_eq key s
      obtain ⟨hrun, hseen⟩ := onward_runBatch C key b.first false hP
      have hkept := (runBatch_kept (R := []) I C.heard key b.first false
        (fun hforced => absurd hforced Bool.false_ne_true) hP).2
      have htaken : Onward 0 s (runBatch react key b.first false (s.drop key)) := by
        refine hrun.taken hseen (by rw [hdrop]) (by rw [hdrop]) (load_drop_le key s) ?_ ?_
        · intro uri version time hout
          rwa [hdrop] at hout
        · intro k hk
          exact (get?_pending_drop s key k).trans (if_neg hk)
      exact htaken.trans (ih hkept)

/-- A timer goes off for its batch. -/
theorem onward_fire (C : Carries p react) {t : Timer τ} {b : Batch τ}
    (hb : s.pending.get? t.key = some b) (h : Engaged p [] s) :
    Onward 0 s (fire react t.key s) := by
  have hP : Engaged p [] (s.release t.key b) := by
    have hpass := h.1.pass (n := .ripened t.key b.first b.forced s.now) rfl
    exact ⟨hpass.congr rfl (fun _ => rfl) rfl, h.2⟩
  obtain ⟨hrun, hseen⟩ := onward_runBatch C t.key b.first b.forced hP
  rw [fire_eq hb]
  refine hrun.taken hseen rfl rfl (Nat.le_refl _) ?_ ?_
  · exact fun uri version time hout => (Notice.outstanding_of_cons hout rfl).1
  · exact fun k hk => (Table.get?_erase s.pending t.key k).trans (if_neg hk)

/-! ## Steps and listeners -/

/-- A step of an instant sets one timer at most. -/
theorem onward_perform (C : Carries p react) {step : Step} (ha : step.Momentary)
    (h : Engaged p [] s) : Onward 1 s (perform react s step).1 := by
  have I := engaged_invariant (τ := τ) p
  -- a text that is received now is put into a batch
  have hreceive : ∀ (key : BatchKey) (s₁ : Session τ), Onward 0 s s₁ → Engaged p [] s₁ →
      Onward 1 s (debounce react key s₁).1 := by
    intro key s₁ hq hP
    exact (hq.trans (onward_debounce C key hP)).mono (Nat.le_refl 1)
  cases step with
  | openDocument uri text version =>
    refine hreceive [uri] (s.enrol uri text version) ?_ (I.openDocument (R := []) ha h)
    have hstill : Onward 0 s { s.enrol uri text version with journal := s.journal } :=
      .still rfl rfl rfl rfl rfl rfl
    exact (hstill.tell (n := .opened uri) rfl).receive uri version
  | changeDocument uri text version =>
    simp only [perform, changed]
    split
    · rename_i hacc
      refine hreceive [uri] _ ?_ (I.changeDocument (R := []) ha hacc h)
      have hstill : Onward 0 s (s.place uri text version) := .still rfl rfl rfl rfl rfl rfl
      exact hstill.receive uri version
    · exact (Onward.refl s).mono (Nat.zero_le 1)
  | closeDocument uri =>
    have hP := I.closeDocument ha h
    have hjournal : (s.forget uri).journal = s.journal := by rw [forget, drop_eq]; rfl
    -- being closed answers for all texts of the document
    have hseen : ((s.forget uri).note (.event (.forgotten uri))).SeenTo [uri] := by
      intro u hu version time hout
      obtain rfl := List.mem_singleton.mp hu
      exact absurd (Or.inl (decide_eq_true rfl)) (Notice.outstanding_of_cons hout rfl).2
    have honward := C.onward hP
    have hload : (s.forget uri).load ≤ s.load := load_drop_le [uri] _
    refine (honward.taken (hseen.onward honward) ?_ ?_ hload ?_ ?_).mono (Nat.zero_le 1)
    · show (s.forget uri).now = s.now
      rw [forget, drop_eq]
      rfl
    · show (s.forget uri).millis = s.millis
      rw [forget, drop_eq]
      rfl
    · intro u version time hout
      exact hjournal ▸ (Notice.outstanding_of_cons hout rfl).1
    · intro k hk
      exact (get?_pending_drop _ [uri] k).trans (if_neg hk)
  | showDocuments uris =>
    have hP : Engaged p [] { s with visible := uris } := I.showDocuments (R := []) ha h
    have hquiet : Onward 0 s { s with visible := uris } :=
      .still rfl rfl rfl rfl rfl rfl
    simp only [perform, shown]
    split
    · exact hquiet.mono (Nat.zero_le 1)
    · exact hreceive _ _ hquiet hP
  | activate uri =>
    have hP : Engaged p [] { s with active := uri } := I.activate (R := []) ha h
    have hquiet : Onward 0 s { s with active := uri } :=
      .still rfl rfl rfl rfl rfl rfl
    cases uri with
    | none => exact hquiet.mono (Nat.zero_le 1)
    | some u =>
      simp only [perform, activated]
      split
      · exact hreceive [u] _ hquiet hP
      · exact hquiet.mono (Nat.zero_le 1)
  | unsupported value => exact (Onward.refl s).mono (Nat.zero_le 1)
  | flush => exact (onward_flushKeys C s.pending.keys h).mono (Nat.zero_le 1)
  | shutdown | advance | stall | placeDocument | reviseDocument | dropDocument | submitResult =>
    exact False.elim ha

/-- A listener that acts sets one timer at most, and does not act again. -/
theorem onward_tell (C : Carries p react) (e : Event τ) (id : Nat) (h : Engaged p [] s) :
    Onward 0 s (tell react e s id) := by
  unfold tell
  cases hl : s.hooks.lookup id with
  | none => exact .refl s
  | some hook =>
    have hmem : (id, hook) ∈ s.hooks := by
      obtain ⟨before, after, heq, _⟩ := List.lookup_eq_some_iff.mp hl
      simp [heq]
    cases hr : hook.respond e s.events with
    | none =>
      simp only [hr]
      exact .refl s
    | some step =>
      simp only [hr]
      have ha : step.Momentary := h.2 (id, hook) hmem e s.events step hr
      have hfewer : (s.hooks.filter (·.1 ≠ id)).length < s.hooks.length :=
        List.length_filter_lt_length_iff_exists.mpr ⟨(id, hook), hmem, by simp⟩
      have hstep := onward_perform C ha ((engaged_invariant p).hear id h)
      refine ⟨hstep.now, hstep.millis, ?_, hstep.fresh, hstep.batch⟩
      have hload := hstep.load
      simp only [load] at hload ⊢
      omega

/-- Listeners take no time, however deep they act within each other. -/
theorem react_carries (p : Publication) (depth : Nat) :
    Carries p (Session.react (τ := τ) depth) := by
  have I : Invariant (τ := τ) Step.Momentary fun _ s => s.Mindful p :=
    (mindful_invariant p).mono fun h => h.ongoing.regular
  have hheard : ∀ depth,
      Heard (Engaged p) (Session.react (τ := τ) depth) (Session.react depth) := by
    intro depth
    have hkept := react_kept I (Q := fun _ => True) (fun _ => trivial) (fun _ s => s) depth
    exact ⟨fun _ => rfl, fun {R _ _} h => hkept.keep (R := R) h⟩
  induction depth with
  | zero => exact ⟨hheard 0, fun _ => .refl _⟩
  | succ depth ih =>
    refine ⟨hheard (depth + 1), fun {e s} h => ?_⟩
    show Onward 0 (s.note (.event e)) ((s.hooks.map (·.1)).foldl
      (fun s id => tell (Session.react depth) e s id) (s.note (.event e)))
    generalize s.note (.event e) = s₁ at h
    induction s.hooks.map (·.1) generalizing s₁ with
    | nil => exact .refl s₁
    | cons id rest ihRest =>
      have hkept : Engaged p [] (tell (Session.react depth) e s₁ id) :=
        (tell_kept (R := []) I ih.heard e id h).2
      exact (onward_tell ih e id h).trans (ihRest _ hkept)

end Session
end Stacking
