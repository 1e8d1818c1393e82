import Stacking.Proofs.Session.Timers
import Stacking.Proofs.Session.Waiting

/-!
# How a flush ends

A flush goes through the batches that wait when it is called, and analyses each of them. From within
these analyses listeners act on the session, and they may take a batch away whose turn is still to
come. The flush then stops with a fault, and neither that batch nor those after it are analysed; in
all other cases it completes (`Session.flush_completes_unless_missed`).

Listeners that leave the batches alone are told apart by the steps they take (`Step.Spares`): they
do not close a document that waits in a batch of its own, flush, end the session or let the clock
run. If no batch has come to the end of its wait either, the flush completes.
-/

namespace Stacking

/-- The steps that take none of the given batches away as long as these can be put off. -/
def Step.Spares (keys : List BatchKey) : Step → Prop
  | .closeDocument uri => [uri] ∉ keys
  | .flush | .shutdown | .advance _ | .stall _ => False
  | _ => True

theorem Step.Spares.tail {key : BatchKey} {rest : List BatchKey} {step : Step}
    (h : step.Spares (key :: rest)) : step.Spares rest := by
  cases step with
  | closeDocument uri => exact fun hin => h (List.mem_cons_of_mem key hin)
  | _ => exact h

namespace Session

variable {τ : Type} [TimeScale τ]

/-! ## Batches that are analysed in turn -/

section InTurn

/-- Batches are analysed one after the other, each of them waiting when its turn comes. -/
inductive AnalysedInTurn (react : Event τ → Session τ → Session τ) :
    List BatchKey → Session τ → Session τ → Prop
  | nil (s : Session τ) : AnalysedInTurn react [] s s
  | cons {key : BatchKey} {rest : List BatchKey} {b : Batch τ} {s s' : Session τ} :
      s.pending.get? key = some b →
      AnalysedInTurn react rest (runBatch react key b.first false (s.drop key)) s' →
      AnalysedInTurn react (key :: rest) s s'

variable {react : Event τ → Session τ → Session τ} {keys : List BatchKey} {s s' : Session τ}

/-- Batches are flushed without a fault exactly if they are analysed in turn. -/
theorem flushKeys_eq_none_iff :
    flushKeys react keys s = (s', none) ↔ AnalysedInTurn react keys s s' := by
  constructor
  · intro h
    induction keys generalizing s with
    | nil =>
      obtain ⟨rfl, -⟩ := Prod.mk.inj h
      exact .nil s
    | cons key rest ih =>
      rw [flushKeys] at h
      cases hb : s.pending.get? key with
      | none =>
        simp only [hb] at h
        exact nomatch (Prod.mk.inj h).2
      | some b =>
        simp only [hb] at h
        exact .cons hb (ih h)
  · intro h
    induction h with
    | nil s => rfl
    | cons hb _ ih =>
      rw [flushKeys, hb]
      exact ih

/-- A flush stops with a fault exactly where a batch does not wait when its turn comes. -/
theorem flushKeys_eq_some_iff {fault : StepFault} :
    flushKeys react keys s = (s', some fault) ↔ fault = .batchGone ∧
      ∃ before key after, keys = before ++ key :: after ∧ AnalysedInTurn react before s s' ∧
        s'.pending.get? key = none := by
  constructor
  · intro h
    induction keys generalizing s with
    | nil => exact nomatch (Prod.mk.inj h).2
    | cons key rest ih =>
      rw [flushKeys] at h
      cases hb : s.pending.get? key with
      | none =>
        simp only [hb] at h
        obtain ⟨rfl, hfault⟩ := Prod.mk.inj h
        exact ⟨(Option.some.inj hfault).symm, [], key, rest, rfl, .nil s, hb⟩
      | some b =>
        simp only [hb] at h
        obtain ⟨hfault, before, gone, after, rfl, hturn, hgone⟩ := ih h
        exact ⟨hfault, key :: before, gone, after, rfl, .cons hb hturn, hgone⟩
  · rintro ⟨rfl, before, key, after, rfl, hturn, hgone⟩
    induction hturn with
    | nil s => rw [List.nil_append, flushKeys, hgone]
    | cons hb _ ih =>
      rw [List.cons_append, flushKeys, hb]
      exact ih hgone

end InTurn

/-! ## How a flush ends

The depth is how deep listeners act within each other: a flush of the outside starts with all
listeners, one from within a listener with those that have not acted yet. -/

/-- A flush is done, and every batch that waited when it was called has been analysed. -/
structure FlushCompletes (depth : Nat) (s : Session τ) : Prop where
  reply : (perform (react depth) s .flush).2 = .done
  analysed : AnalysedInTurn (react depth) s.pending.keys s (perform (react depth) s .flush).1

/-- A flush has come to a batch that waited when it was called and that does not wait any more. -/
def BatchMissed (depth : Nat) (s s' : Session τ) : Prop :=
  ∃ before key after, s.pending.keys = before ++ key :: after ∧
    AnalysedInTurn (react depth) before s s' ∧ s'.pending.get? key = none

variable {depth : Nat} {s s' : Session τ}

theorem perform_flush (react : Event τ → Session τ → Session τ) (s : Session τ) :
    perform react s .flush = (flushKeys react s.pending.keys s).map id StepReply.ofFault := rfl

theorem flushCompletes_iff_flushKeys :
    s.FlushCompletes depth ↔ (flushKeys (react depth) s.pending.keys s).2 = none := by
  constructor
  · intro h
    have hreply := h.reply
    rw [perform_flush] at hreply
    generalize flushKeys (react depth) s.pending.keys s = out at hreply
    obtain ⟨_, _ | fault⟩ := out
    · rfl
    · exact nomatch hreply
  · intro h
    have hflush : flushKeys (react depth) s.pending.keys s =
        ((flushKeys (react depth) s.pending.keys s).1, none) := Prod.ext rfl h
    refine ⟨?_, ?_⟩
    · rw [perform_flush, hflush]
      rfl
    · exact flushKeys_eq_none_iff.mp hflush

/-- A flush that misses a batch stops there. -/
theorem BatchMissed.perform_flush_eq (h : s.BatchMissed depth s') :
    perform (react depth) s .flush = (s', .refused .batchGone) := by
  rw [perform_flush, flushKeys_eq_some_iff.mpr ⟨rfl, h⟩]
  rfl

/-- A flush completes exactly if no batch is missed. -/
theorem flushCompletes_iff : s.FlushCompletes depth ↔ ¬ ∃ s', s.BatchMissed depth s' := by
  rw [flushCompletes_iff_flushKeys]
  constructor
  · rintro hnone ⟨s', hmissed⟩
    rw [flushKeys_eq_some_iff.mpr ⟨rfl, hmissed⟩] at hnone
    exact nomatch hnone
  · intro hnot
    cases hfault : (flushKeys (react depth) s.pending.keys s).2 with
    | none => rfl
    | some fault =>
      obtain ⟨-, hmissed⟩ := flushKeys_eq_some_iff.mp (Prod.ext rfl hfault)
      exact absurd ⟨_, hmissed⟩ hnot

/-! ## Listeners that spare the batches -/

/-- No batch has come to the end of its wait, nor would one that starts now. -/
def Patient (s : Session τ) : Prop :=
  ∀ window maxWait, s.waits? = some (window, maxWait) →
    ∀ first, (first = s.now ∨ ∃ key b, s.pending.get? key = some b ∧ b.first = first) →
      TimeScale.le (TimeScale.sub (TimeScale.add first maxWait) s.now) TimeScale.zero = false

/-- Whether no batch has come to the end of its wait can be computed. -/
theorem patient_of_entries {window maxWait : τ} (hw : s.waits? = some (window, maxWait))
    (hnow : TimeScale.le (TimeScale.sub (TimeScale.add s.now maxWait) s.now) TimeScale.zero = false)
    (hentries : ∀ e ∈ s.pending.entries, TimeScale.le
      (TimeScale.sub (TimeScale.add e.2.first maxWait) s.now) TimeScale.zero = false) :
    s.Patient := by
  intro window' maxWait' hw' first hfirst
  obtain ⟨rfl, rfl⟩ := Prod.mk.inj (Option.some.inj (hw.symm.trans hw'))
  rcases hfirst with rfl | ⟨key, b, hb, rfl⟩
  · exact hnow
  · obtain ⟨e, he, rfl⟩ := Option.map_eq_some_iff.mp hb
    exact hentries e (List.mem_of_find?_eq_some he)

/-- The given batches wait, and none has come to the end of its wait. -/
structure Spared (keys : List BatchKey) (s : Session τ) : Prop where
  waiting : ∀ key ∈ keys, s.pending.contains key = true
  patient : s.Patient

variable {keys : List BatchKey}

theorem Spared.congr (h : s.Spared keys) (hp : s'.pending = s.pending) (hn : s'.now = s.now)
    (hw : s'.waits? = s.waits?) : s'.Spared keys where
  waiting := by rw [hp]; exact h.waiting
  patient := by unfold Patient; rw [hp, hn, hw]; exact h.patient

/-- Another batch is taken off. -/
theorem Spared.drop (h : s.Spared keys) {key : BatchKey} (hkey : key ∉ keys) :
    (s.drop key).Spared keys where
  waiting k hk := contains_pending_drop (h.waiting k hk) fun heq => hkey (heq ▸ hk)
  patient := by
    have hnow : (s.drop key).now = s.now := now_drop key s
    have hwaits : (s.drop key).waits? = s.waits? := by rw [drop_eq]; rfl
    intro window maxWait hw first hfirst
    rw [hwaits] at hw
    rw [hnow] at hfirst ⊢
    refine h.patient window maxWait hw first (hfirst.imp_right ?_)
    rintro ⟨k, b, hb, hbfirst⟩
    rw [get?_pending_drop] at hb
    split at hb
    · cases hb
    · exact ⟨k, b, hb, hbfirst⟩

/-- A batch can be put off. -/
theorem Patient.remaining (h : s.Patient) {window maxWait : τ}
    (hw : s.waits? = some (window, maxWait)) (key : BatchKey) :
    TimeScale.le (s.remaining maxWait key) TimeScale.zero = false := by
  refine h window maxWait hw (s.firstChange key) ?_
  unfold firstChange
  cases hb : s.pending.get? key with
  | none => exact Or.inl rfl
  | some b => exact Or.inr ⟨key, b, hb, rfl⟩

/-- A batch that is put off goes on waiting, and no batch comes to the end of its wait. -/
theorem Spared.wait (h : s.Spared keys) (key : BatchKey) (delay : τ) (forced : Bool) :
    ((s.drop key).wait key (s.firstChange key) delay forced).Spared keys := by
  have hget : ∀ k, ((s.drop key).wait key (s.firstChange key) delay forced).pending.get? k =
      if key = k then some ⟨s.firstChange key, (s.drop key).nextTimer, forced⟩
      else (s.drop key).pending.get? k := fun k => Table.get?_put ..
  have hnow : ((s.drop key).wait key (s.firstChange key) delay forced).now = s.now := by
    rw [drop_eq]; rfl
  have hwaits : ((s.drop key).wait key (s.firstChange key) delay forced).waits? = s.waits? := by
    rw [drop_eq]; rfl
  refine ⟨fun k hk => ?_, fun window maxWait hw first hfirst => ?_⟩
  · have hwait := h.waiting k hk
    rw [Table.contains_eq_isSome] at hwait
    rw [Table.contains_eq_isSome, hget, get?_pending_drop]
    by_cases heq : key = k
    · rw [if_pos heq]
      rfl
    · rwa [if_neg heq, if_neg heq]
  · rw [hwaits] at hw
    rw [hnow] at hfirst ⊢
    rcases hfirst with rfl | ⟨k, b, hb, rfl⟩
    · exact h.patient window maxWait hw s.now (Or.inl rfl)
    · rw [hget, get?_pending_drop] at hb
      by_cases heq : key = k
      · rw [if_pos heq] at hb
        obtain rfl := Option.some.inj hb
        exact h.patient.remaining hw key
      · rw [if_neg heq, if_neg heq] at hb
        exact h.patient window maxWait hw b.first (Or.inr ⟨k, b, hb, rfl⟩)

/-- Steps that spare the given batches leave them waiting, whatever the listeners make of them. -/
theorem spared_invariant (keys : List BatchKey) :
    Invariant (τ := τ) (Step.Spares keys) fun _ s => s.Spared keys where
  owe _ h := h
  skip _ h := h.congr rfl rfl rfl
  settle _ h := h
  refuse _ _ _ h := h.congr rfl rfl rfl
  accept _ _ _ _ h := h.congr rfl rfl rfl
  discard _ _ _ _ h := h.congr rfl rfl rfl
  overrun _ h := h.congr rfl rfl rfl
  take ha := nomatch ha
  -- no batch is at the end of its wait
  force {_ _ key _ _} hw hle h := by
    rw [h.patient.remaining hw key] at hle
    cases hle
  wait {_ s key _ _} _ _ h := Spared.wait (s := s.trigger key) (h.congr rfl rfl rfl) key _ _
  beyondClock _ h := h.congr rfl rfl rfl
  fire ha := nomatch ha
  lapse ha := nomatch ha
  arrive _ ha := ha.elim nofun nofun
  hear _ h := h.congr rfl rfl rfl
  openDocument _ h := h.congr rfl rfl rfl
  changeDocument _ _ h := h.congr rfl rfl rfl
  closeDocument {_ s uri} ha h := by
    have hforget : (s.forget uri).Spared keys := by
      refine Spared.drop ?_ ha
      exact h.congr rfl rfl rfl
    exact hforget.congr rfl rfl rfl
  showDocuments _ h := h.congr rfl rfl rfl
  activate _ h := h.congr rfl rfl rfl
  shutdown ha := nomatch ha
  advance ha := nomatch ha
  stall ha := nomatch ha
  placeDocument _ h := h.congr rfl rfl rfl
  reviseDocument _ _ h := h.congr rfl rfl rfl
  dropDocument _ h := h.congr rfl rfl rfl
  submitResult _ _ h := h.congr rfl rfl rfl

/-- Batches that the listeners spare are flushed without a fault. -/
theorem flushKeys_of_spared (depth : Nat) (hnodup : keys.Nodup) (h : s.Spared keys)
    (hh : s.HooksAllow (Step.Spares keys)) : (flushKeys (react depth) keys s).2 = none := by
  induction keys generalizing s with
  | nil => rfl
  | cons key rest ih =>
    obtain ⟨hkey, hrest⟩ := List.nodup_cons.mp hnodup
    have hwaits := h.waiting key List.mem_cons_self
    rw [Table.contains_eq_isSome] at hwaits
    obtain ⟨b, hb⟩ := Option.isSome_iff_exists.mp hwaits
    -- the batches still to come are spared while this one is analysed
    have hspare : s.Spared rest :=
      ⟨fun k hk => h.waiting k (List.mem_cons_of_mem key hk), h.patient⟩
    have hhooks : (s.drop key).HooksAllow (Step.Spares rest) := by
      rw [drop_eq]
      exact fun hook hm e es step hstep => (hh hook hm e es step hstep).tail
    have hheard := react_kept (spared_invariant (τ := τ) rest) (Q := fun _ => True)
      (fun _ => trivial) (fun _ s => s) depth
    obtain ⟨-, hspared, hallowed⟩ := runBatch_kept (R := []) (spared_invariant rest).withHooks
      hheard key b.first false nofun ⟨hspare.drop hkey, hhooks⟩
    rw [flushKeys, hb]
    exact ih hrest hspared hallowed

/-! ## The end of a flush, in every state -/

/-- How a flush of a session ends. -/
structure FlushEnds (s : Session τ) : Prop where
  /-- It completes exactly if no batch is missed. -/
  completes : ∀ depth, s.FlushCompletes depth ↔ ¬ ∃ s', s.BatchMissed depth s'
  /-- Where a batch is missed, it stops with that fault. -/
  stops : ∀ depth s', s.BatchMissed depth s' →
    perform (react depth) s .flush = (s', .refused .batchGone)
  /-- It completes if the listeners spare the batches and none has come to the end of its wait. -/
  spared : ∀ depth, s.Patient → s.HooksAllow (Step.Spares s.pending.keys) → s.FlushCompletes depth

theorem Timed.flushEnds (h : s.Timed) : s.FlushEnds where
  completes _ := flushCompletes_iff
  stops _ _ hmissed := hmissed.perform_flush_eq
  spared depth hpatient hhooks := by
    have hspared : s.Spared s.pending.keys := by
      refine ⟨fun key hkey => ?_, hpatient⟩
      obtain ⟨b, hb⟩ := (Table.mem_keys_iff s.pending key).mp hkey
      rw [Table.contains_eq_isSome, hb]
      rfl
    exact flushCompletes_iff_flushKeys.mpr (flushKeys_of_spared depth h.keys hspared hhooks)

/-- In every state of a session, also in those that listeners see in the midst of a step, a flush
completes, with every batch analysed that waited, unless a listener takes one of these batches away
before its turn; then the flush stops there. -/
theorem flush_completes_unless_missed (settings : Settings) (hooks : List (Hook τ))
    (actions : List Step) :
    ((new settings hooks).steps actions).FlushEnds ∧
      ToldWithin FlushEnds (new settings hooks) actions := by
  obtain ⟨htimed, htold⟩ := steps_kept timed_invariant (R := []) (fun h => h.flushEnds)
    (timed_new settings hooks) (hooksAllow_new settings fun _ _ _ _ _ _ => trivial)
    fun _ _ => trivial
  exact ⟨htimed.flushEnds, htold⟩

/-- A listener that closes a document as soon as it hears of findings. -/
def closingHook (uri : String) : Hook Int where
  respond e _ :=
    match e with
    | .updated .. => some (.closeDocument uri)
    | _ => none

/-- Three documents wait, each in a batch of its own. A listener that closes the second one when it
hears of the first stops the flush, and the third one is left waiting; a listener that closes
another document does not. -/
theorem flush_completes_unless_missed_closing :
    let actions : List Step :=
      [.openDocument "a" [] 1, .openDocument "b" [] 1, .openDocument "c" [] 1]
    let s := (new {} [closingHook "b"]).steps actions
    let s' := (new {} [closingHook "d"]).steps actions
    (∃ stopped : Session Int, s.step .flush = (stopped, .refused .batchGone) ∧
        stopped.pending.keys = [["c"]] ∧ stopped.results.keys = ["a"]) ∧
      ¬ s.FlushCompletes 1 ∧ s'.FlushCompletes 1 ∧
      (s'.step .flush).1.results.keys = ["a", "b", "c"] := by
  intro actions s s'
  have hb : s.pending.get? ["a"] = some ⟨0, 0, false⟩ := by decide +kernel
  have hmissed : s.BatchMissed 1 (runBatch (react 1) ["a"] 0 false (s.drop ["a"])) :=
    ⟨[["a"]], ["b"], [["c"]], by decide +kernel, .cons hb (.nil _), by decide +kernel⟩
  refine ⟨⟨_, (flush_completes_unless_missed {} _ actions).1.stops 1 _ hmissed, ?_, ?_⟩, ?_, ?_, ?_⟩
  · decide +kernel
  · decide +kernel
  · exact fun h => ((flush_completes_unless_missed {} _ actions).1.completes 1).mp h ⟨_, hmissed⟩
  · refine (flush_completes_unless_missed {} _ actions).1.spared 1 ?_ ?_
    · exact patient_of_entries (by decide +kernel : s'.waits? = some (400, 1000))
        (by decide +kernel) (by decide +kernel)
    · intro hook hm e es step hstep
      have hkeys : s'.pending.keys = [["a"], ["b"], ["c"]] := by decide +kernel
      obtain rfl : hook = (0, closingHook "d") := List.mem_singleton.mp hm
      rw [hkeys]
      cases e with
      | updated uri result =>
        obtain rfl := Option.some.inj hstep
        show ["d"] ∉ [["a"], ["b"], ["c"]]
        decide
      | failed | overrun | forgotten => exact nomatch hstep
  · decide +kernel

end Session
end Stacking
