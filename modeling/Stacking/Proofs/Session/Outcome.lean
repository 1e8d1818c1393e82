import Stacking.Proofs.Session.Passive
import Stacking.Proofs.Session.Waiting

/-!
# When documents are analysed does not show in the end

An editor reports what happens to its documents; the clock, busy hosts and flushes decide when they
are analysed, in which batches, and which of their versions. After a flush none of that shows: the
session holds the findings of the present texts, whatever happened between the reports
(`Session.outcome_settled_iff`).

The open documents are determined by the reports alone (`Step.edit`). That every one of them has its
findings after a flush follows from what holds in every state: findings are fresh, and a document
that is due waits in a batch. As for the latter, the clock has to be able to tell the waiting times.
-/

namespace Stacking

namespace Step

/-- Whether a step reports what happens in an editor. -/
def isReport : Step → Bool
  | .openDocument .. | .changeDocument .. | .closeDocument .. => true
  | .showDocuments .. | .activate .. | .unsupported .. => true
  | _ => false

/-- The open documents after a report, given those before it. -/
def edit (documents : Table String OpenDocument) : Step → Table String OpenDocument
  | .openDocument uri text version => documents.put uri ⟨text, version⟩
  | .changeDocument uri text version =>
    match documents.get? uri with
    | none => documents.put uri ⟨text, version⟩
    | some d => if d.version < version then documents.put uri ⟨text, version⟩ else documents
  | .closeDocument uri => documents.erase uri
  | _ => documents

/-- Only reports change which documents are open. -/
theorem foldl_edit_filter (actions : List Step) (documents : Table String OpenDocument) :
    (actions.filter isReport).foldl edit documents = actions.foldl edit documents := by
  induction actions generalizing documents with
  | nil => rfl
  | cons action rest ih => cases action <;> exact ih _

end Step

/-- Nothing is known of a document that is not open. -/
theorem Record.Fresh.result_eq_none {p : Publication} {uri : String} {k : Record}
    (h : k.Fresh p uri) (hd : k.document = none) : k.result = none := by
  simp only [Record.Fresh, hd] at h
  exact h.1

/-- Fresh findings of a document that is not due are those of its text. -/
theorem Record.Fresh.result_eq {p : Publication} {uri : String} {k : Record} (h : k.Fresh p uri)
    (hdone : k.needsAnalysis = false) {d : OpenDocument} (hd : k.document = some d)
    {r : Analysis} (hr : Analysis.ofText uri d.version p d.text = .ok r) : k.result = some r := by
  simp only [Record.Fresh, hd] at h
  rcases h with hdue | ⟨_, e, he⟩ | ⟨r', hr', hresult⟩
  · rw [hdone] at hdue
    cases hdue
  · rw [Analysis.ofText, he] at hr
    cases hr
  · obtain rfl := Except.ok.inj (hr.symm.trans hr')
    exact hresult

namespace Session

variable {τ : Type} [TimeScale τ] {s : Session τ}

/-! ## The open documents -/

theorem documents_debounce (key : BatchKey) (s : Session τ) :
    (debounce noted key s).1.documents = s.documents := by
  cases hw : s.waits? with
  | none => rw [debounce_of_beyondClock hw]; rfl
  | some waits =>
    rw [debounce_of_waits hw, putOff_eq]
    split
    · rw [(stands_runBatch ..).documents, exhaust, drop_eq]
      rfl
    · rw [drop_eq]
      rfl

theorem documents_fireDue (target : τ) (count : Nat) (s : Session τ) :
    (fireDue noted target count s).documents = s.documents := by
  induction count generalizing s with
  | zero => rfl
  | succ count ih =>
    unfold fireDue
    cases nextDue? target s.timers with
    | none => rfl
    | some t =>
      simp only
      rw [ih, fire]
      split
      · rfl
      · rw [(stands_runBatch ..).documents]
        rfl

theorem documents_flush (h : s.Timed) : (flush noted s).1.documents = s.documents := by
  refine (flushKeys_noted h.keys fun key hkey => ?_).2.1
  rw [Table.contains_eq_isSome]
  exact Option.isSome_iff_exists.mpr ((Table.mem_keys_iff s.pending key).mp hkey)

/-- A step of an editor or of the clock leaves the documents open that it says. -/
theorem documents_perform (h : s.Timed) {action : Step} (ha : action.Ongoing) :
    (perform noted s action).1.documents = action.edit s.documents := by
  cases action with
  | openDocument uri text version => exact documents_debounce [uri] _
  | changeDocument uri text version =>
    cases hd : s.documents.get? uri with
    | none =>
      simp only [perform, changed, accepts, Step.edit, hd, if_true]
      exact documents_debounce [uri] _
    | some d =>
      simp only [perform, changed, accepts, Step.edit, hd, decide_eq_true_eq]
      split
      · exact documents_debounce [uri] _
      · rfl
  | closeDocument uri =>
    show (Session.drop [uri] _).documents = _
    rw [drop_eq]
    rfl
  | showDocuments uris =>
    simp only [perform, shown]
    split
    · rfl
    · exact documents_debounce _ _
  | activate uri =>
    cases uri with
    | none => rfl
    | some u =>
      simp only [perform, activated]
      split
      · exact documents_debounce [u] _
      · rfl
  | unsupported value => rfl
  | flush => exact documents_flush h
  | advance millis =>
    simp only [perform, Session.advance]
    split
    · rfl
    · exact documents_fireDue _ _ _
  | stall millis =>
    simp only [perform, Session.stall]
    split <;> rfl
  | shutdown | placeDocument | reviseDocument | dropDocument | submitResult => exact False.elim ha

/-- Where listeners only listen, the open documents are those that the reports say. -/
theorem documents_steps (hp : s.Passive) (ht : s.Timed) {actions : List Step}
    (ha : ∀ action ∈ actions, action.Ongoing) :
    (s.steps actions).documents = actions.foldl Step.edit s.documents := by
  induction actions generalizing s with
  | nil => rfl
  | cons action rest ih =>
    obtain ⟨hstep, hpassive⟩ := step_of_passive hp action
    have htimed : (s.step action).1.Timed := ht.steps [action]
    show ((s.step action).1.steps rest).documents = rest.foldl Step.edit (action.edit s.documents)
    rw [ih hpassive htimed fun a hm => ha a (List.mem_cons_of_mem action hm), hstep,
      documents_perform ht (ha action List.mem_cons_self)]

/-! ## After a flush -/

section Rest

omit [TimeScale τ]

/-- Nothing waits. -/
structure AtRest (s : Session τ) : Prop where
  pending : s.pending.keys = []
  timers : s.timers = []

theorem Timed.atRest (h : s.Timed) (hnone : ∀ key, s.pending.get? key = none) : s.AtRest where
  pending := by
    refine List.eq_nil_iff_forall_not_mem.mpr fun key hkey => ?_
    obtain ⟨b, hb⟩ := (Table.mem_keys_iff s.pending key).mp hkey
    rw [hnone key] at hb
    cases hb
  timers := by
    refine List.eq_nil_iff_forall_not_mem.mpr fun t ht => ?_
    obtain ⟨b, hb, _⟩ := h.batch t ht
    rw [hnone t.key] at hb
    cases hb

end Rest

/-- The end of a run that listeners only listen to, after a flush. -/
theorem atRest_of_flush (hp : s.Passive) (ht : s.Timed) (actions : List Step) :
    (s.steps (actions ++ [.flush])).AtRest := by
  refine (ht.steps _).atRest fun key => ?_
  have hflush : s.steps (actions ++ [.flush]) = (flush noted (s.steps actions)).1 := by
    rw [steps, List.foldl_append]
    exact congrArg Prod.fst (step_of_passive (hp.steps actions) .flush).1
  obtain ⟨-, -, hpending⟩ := flushKeys_noted (ht.steps actions).keys fun key hkey => by
    rw [Table.contains_eq_isSome]
    exact Option.isSome_iff_exists.mpr ((Table.mem_keys_iff _ key).mp hkey)
  rw [hflush, flush, hpending]
  split
  · rfl
  · rename_i hkey
    cases hb : (s.steps actions).pending.get? key with
    | none => rfl
    | some b => exact absurd ((Table.mem_keys_iff _ key).mpr ⟨b, hb⟩) hkey

/-- Two sessions have come to the same end: nothing waits in either, the same documents are open,
nothing is known of a document that is not, and both have the findings of every text that
parses. -/
structure SameOutcome (p : Publication) (s s' : Session τ) : Prop where
  rest : s.AtRest
  rest' : s'.AtRest
  documents : s.documents = s'.documents
  closed : ∀ uri, s.documents.get? uri = none → s.result? uri = none ∧ s'.result? uri = none
  findings : ∀ uri d tree, s.documents.get? uri = some d → Stylesheet.parse d.text = .ok tree →
    ∃ r, Analysis.ofText uri d.version p d.text = .ok r ∧
      s.result? uri = some r ∧ s'.result? uri = some r

/-- In a session at rest in which every document that is due waits, no document is due. -/
theorem Covered.not_due (h : Covered [] s) (hrest : s.AtRest) (uri : String) :
    s.needsAnalysis uri = false := by
  cases hn : s.needsAnalysis uri with
  | false => rfl
  | true =>
    obtain hin | ⟨key, hkey, _⟩ := h.due uri hn
    · exact absurd hin List.not_mem_nil
    · rw [Table.contains_eq_isSome, Option.isSome_iff_exists, ← Table.mem_keys_iff,
        hrest.pending] at hkey
      exact absurd hkey List.not_mem_nil

/-- What holds at the end of a run, after a flush, on a clock that can tell the waiting times. -/
theorem settled_of_flush {settings : Settings} {hooks : List (Hook τ)}
    (hclock : (new settings hooks).waits?.isSome = true)
    (hh : ∀ hook ∈ hooks, ∀ e es, hook.respond e es = none) {actions : List Step}
    (ha : ∀ action ∈ actions, action.Ongoing) :
    ((new settings hooks).steps (actions ++ [.flush])).AtRest ∧
      ((new settings hooks).steps (actions ++ [.flush])).documents =
        (actions.filter Step.isReport).foldl Step.edit {} ∧
      ∀ uri, ((new settings hooks).steps (actions ++ [.flush])).needsAnalysis uri = false ∧
        (((new settings hooks).steps (actions ++ [.flush])).record uri).Fresh
          ⟨settings.helpUri, settings.source⟩ uri := by
  have hpassive := passive_new settings hh
  have hall : ∀ action ∈ actions ++ [Step.flush], action.Ongoing := by
    intro action hm
    rcases List.mem_append.mp hm with hm | hm
    · exact ha action hm
    · obtain rfl := List.mem_singleton.mp hm
      trivial
  have hhooks : ∀ allowed, (new settings hooks).HooksAllow allowed := by
    intro allowed hook hm e es step hstep
    rw [hpassive hook hm e es] at hstep
    cases hstep
  have hrest := atRest_of_flush hpassive (timed_new settings hooks) actions
  obtain ⟨hcovered, -⟩ := steps_kept covered_invariant (R := []) (Q := fun _ => True)
    (fun _ => trivial) ⟨hclock, fun uri hneeds => absurd hneeds Bool.false_ne_true⟩ (hhooks _) hall
  obtain ⟨htracked, -⟩ := steps_kept (tracked_invariant _) (R := []) (Q := fun _ => True)
    (fun _ => trivial) (tracked_new settings hooks) (hhooks _)
    fun action hm => (hall action hm).regular
  refine ⟨hrest, ?_, fun uri => ⟨hcovered.not_due hrest uri, htracked.fresh uri⟩⟩
  rw [documents_steps hpassive (timed_new settings hooks) hall, Step.foldl_edit_filter,
    List.foldl_append]
  rfl

/-- Take two runs in which an editor reports the same, with any flushes, delays and busy times
between the reports and with listeners that only listen. After a flush both have come to the same
end: no batch and no timer waits, the same documents are open, and each has the findings of its
present text if that parses. This holds for all such runs exactly if the clock can tell both waiting
times. -/
theorem outcome_settled_iff (settings : Settings) :
    (∀ (hooks hooks' : List (Hook τ)) (actions actions' : List Step),
        (∀ hook ∈ hooks ++ hooks', ∀ e es, hook.respond e es = none) →
        (∀ action ∈ actions ++ actions', action.Ongoing) →
        actions.filter Step.isReport = actions'.filter Step.isReport →
        SameOutcome ⟨settings.helpUri, settings.source⟩
          ((new settings hooks).steps (actions ++ [.flush]))
          ((new settings hooks').steps (actions' ++ [.flush]))) ↔
      (TimeScale.ofMillis? (τ := τ) settings.debounceMs).isSome = true ∧
        (TimeScale.ofMillis? (τ := τ) settings.maxWaitMs).isSome = true := by
  constructor
  · intro h
    refine (isSome_waits?_iff (new (τ := τ) settings [])).mp ?_
    cases hw : (new (τ := τ) settings []).waits? with
    | some _ => rfl
    | none =>
      -- one report and a flush leave a document without findings
      have hsame := h [] [] [.openDocument "" [] 0] [.openDocument "" [] 0] nofun
        (by simp [Step.Ongoing, Step.Regular]) rfl
      have hstate : (new (τ := τ) settings []).steps ([.openDocument "" [] 0] ++ [.flush]) =
          ((((new settings []).enrol "" [] 0).trigger [""]).step .flush).1 := by
        rw [steps, List.foldl_append]
        exact congrArg (fun s => (s.step .flush).1) (step_open_of_beyondClock hw "" [] 0)
      rw [hstate] at hsame
      obtain ⟨tree, htree⟩ : ∃ tree, Stylesheet.parse [] = .ok tree := ⟨_, rfl⟩
      obtain ⟨r, -, hr, -⟩ := hsame.findings "" ⟨[], 0⟩ tree rfl htree
      exact nomatch hr
  · intro hclock hooks hooks' actions actions' hh ha hreports
    have hwaits : ∀ hooks, (new (τ := τ) settings hooks).waits?.isSome = true := fun hooks =>
      (isSome_waits?_iff (new settings hooks)).mpr hclock
    obtain ⟨hrest, hdocuments, hend⟩ := settled_of_flush (hwaits hooks)
      (fun hook hm => hh hook (List.mem_append_left _ hm))
      (fun action hm => ha action (List.mem_append_left _ hm))
    obtain ⟨hrest', hdocuments', hend'⟩ := settled_of_flush (hwaits hooks')
      (fun hook hm => hh hook (List.mem_append_right _ hm))
      (fun action hm => ha action (List.mem_append_right _ hm))
    have hsame := hdocuments.trans ((congrArg (List.foldl Step.edit {}) hreports).trans
      hdocuments'.symm)
    have hget : ∀ uri d, ((new settings hooks).steps (actions ++ [.flush])).documents.get? uri = d →
        ((new settings hooks').steps (actions' ++ [.flush])).documents.get? uri = d :=
      fun uri d hd => hsame ▸ hd
    refine ⟨hrest, hrest', hsame, fun uri hnone => ?_, fun uri d tree hd htree => ?_⟩
    · exact ⟨(hend uri).2.result_eq_none hnone, (hend' uri).2.result_eq_none (hget uri _ hnone)⟩
    · obtain ⟨r, hr, -⟩ := Analysis.exists_ofText_eq_ok uri d.version
        ⟨settings.helpUri, settings.source⟩ htree
      exact ⟨r, hr, (hend uri).2.result_eq (hend uri).1 hd hr,
        (hend' uri).2.result_eq (hend' uri).1 (hget uri _ hd) hr⟩

end Session
end Stacking
