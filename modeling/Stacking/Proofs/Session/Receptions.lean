import Stacking.Proofs.Session.Progress

/-!
# Texts that are received and not yet answered for

Every text that an editor reports is written into the journal with its version. It is answered for
by a later entry that tells of an analysis of that version or of a newer one, or of the document
being opened again or closed. As long as it is not, the document is due for analysis, at that
version or a newer one (`Session.Mindful`).
-/

namespace Stacking

namespace Notice

variable {τ : Type}

/-- An entry answers for a version of a document. -/
def Answers (uri : String) (version : Int) (n : Notice τ) : Prop :=
  n.turns uri = true ∨ ∃ v, n.analysed? uri = some v ∧ version ≤ v

/-- Whether an entry tells of a text received. -/
def isReception : Notice τ → Bool
  | .received .. => true
  | _ => false

/-- A version of a document was received at some time, and no entry since has answered for it. -/
def Outstanding (uri : String) (version : Int) (time : τ) (journal : List (Notice τ)) : Prop :=
  ∃ newer older, journal = newer ++ .received uri version time :: older ∧
    ∀ n ∈ newer, ¬ n.Answers uri version

variable {uri : String} {version : Int} {time : τ} {n : Notice τ} {journal : List (Notice τ)}

theorem outstanding_cons (h : Outstanding uri version time (n :: journal)) :
    n = .received uri version time ∨
      Outstanding uri version time journal ∧ ¬ n.Answers uri version := by
  obtain ⟨newer, older, hjournal, hopen⟩ := h
  cases newer with
  | nil => exact Or.inl (List.cons.inj hjournal).1
  | cons n' newer =>
    obtain ⟨rfl, rfl⟩ := List.cons.inj hjournal
    obtain ⟨hfirst, hrest⟩ := List.forall_mem_cons.mp hopen
    exact Or.inr ⟨⟨newer, older, rfl, hrest⟩, hfirst⟩

/-- An entry that tells of no text received leaves at most the texts outstanding that were. -/
theorem outstanding_of_cons (h : Outstanding uri version time (n :: journal))
    (hn : n.isReception = false) :
    Outstanding uri version time journal ∧ ¬ n.Answers uri version := by
  refine (outstanding_cons h).resolve_left fun heq => ?_
  rw [heq] at hn
  cases hn

theorem not_outstanding_nil : ¬ Outstanding uri version time ([] : List (Notice τ)) := by
  rintro ⟨newer, older, hjournal, -⟩
  simp at hjournal

end Notice

namespace Session

variable {τ : Type} {s s' : Session τ} {p : Publication}

/-- Findings are fresh, and a document with a text that is not answered for is due for analysis at
the version of that text or at a newer one. -/
structure Mindful (p : Publication) (s : Session τ) : Prop where
  tracked : s.Tracked p
  due : ∀ uri version time, Notice.Outstanding uri version time s.journal →
    s.needsAnalysis uri = true ∧ ∃ d, s.documents.get? uri = some d ∧ version ≤ d.version

/-- Nothing is outstanding of a document that is not due. -/
theorem Mindful.not_outstanding (h : s.Mindful p) {uri : String}
    (hn : s.needsAnalysis uri = false) (version : Int) (time : τ) :
    ¬ Notice.Outstanding uri version time s.journal := by
  intro ho
  rw [(h.due uri version time ho).1] at hn
  cases hn

theorem Mindful.congr (h : s.Mindful p) (hp : s'.publication = s.publication)
    (hr : ∀ u, s'.record u = s.record u) (hj : s'.journal = s.journal) : s'.Mindful p where
  tracked := ⟨hp.trans h.tracked.publication, fun u => hr u ▸ h.tracked.record u⟩
  due := by
    intro uri version time ho
    rw [hj] at ho
    obtain ⟨hneeds, d, hd, hle⟩ := h.due uri version time ho
    rw [needsAnalysis_eq_record, hr uri]
    exact ⟨hneeds, d, (congrArg Record.document (hr uri)).trans hd, hle⟩

theorem Mindful.drop (h : s.Mindful p) (key : BatchKey) : (s.drop key).Mindful p :=
  h.congr (by rw [drop_eq]; rfl) (record_drop key s) (journal_drop key s)

/-- Something is told of no text received. -/
theorem Mindful.pass (h : s.Mindful p) {n : Notice τ} (hn : n.isReception = false) :
    (s.note n).Mindful p where
  tracked := ⟨h.tracked.publication, h.tracked.record⟩
  due uri version time ho := h.due uri version time (Notice.outstanding_of_cons ho hn).1

theorem Mindful.trigger (h : s.Mindful p) (key : BatchKey) : (s.trigger key).Mindful p := h.pass rfl

/-- The analysis of the present text answers for every text of the document. -/
theorem Mindful.answers_of_analysed (h : s.Mindful p) {uri : String} {d : OpenDocument}
    {n : Notice τ} (hd : s.documents.get? uri = some d) (hn : n.analysed? uri = some d.version)
    (version : Int) (time : τ) (ho : Notice.Outstanding uri version time s.journal) :
    n.Answers uri version := by
  obtain ⟨-, d', hd', hle⟩ := h.due uri version time ho
  obtain rfl := Option.some.inj (hd.symm.trans hd')
  exact Or.inr ⟨d.version, hn, hle⟩

/-- The knowledge of one document changes, and what is told answers for all its texts. -/
theorem Mindful.answer (h : s.Mindful p) (uri : String) {n : Notice τ} (ht : s'.Tracked p)
    (hr : ∀ u, uri ≠ u → s'.record u = s.record u) (hj : s'.journal = n :: s.journal)
    (hn : n.isReception = false)
    (hans : ∀ version time, Notice.Outstanding uri version time s.journal →
      n.Answers uri version) : s'.Mindful p where
  tracked := ht
  due := by
    intro u version time ho
    rw [hj] at ho
    obtain ⟨ho, hopen⟩ := Notice.outstanding_of_cons ho hn
    by_cases hu : uri = u
    · subst hu
      exact absurd (hans version time ho) hopen
    · obtain ⟨hneeds, d, hd, hle⟩ := h.due u version time ho
      rw [needsAnalysis_eq_record, hr u hu]
      exact ⟨hneeds, d, (congrArg Record.document (hr u hu)).trans hd, hle⟩

/-- A text of a document is received, so that the document is due. -/
theorem Mindful.receive (h : s.Mindful p) (uri : String) {text : Text} {version : Int} {time : τ}
    (ht : s'.Tracked p) (hr : ∀ u, uri ≠ u → s'.record u = s.record u)
    (hj : s'.journal = .received uri version time :: s.journal)
    (hdue : s'.needsAnalysis uri = true) (hd : s'.documents.get? uri = some ⟨text, version⟩)
    (hle : ∀ d, s.documents.get? uri = some d → d.version ≤ version) : s'.Mindful p where
  tracked := ht
  due := by
    intro u v t ho
    rw [hj] at ho
    by_cases hu : uri = u
    · subst hu
      refine ⟨hdue, ⟨text, version⟩, hd, ?_⟩
      rcases Notice.outstanding_cons ho with heq | ⟨ho, -⟩
      · injection heq with _ hv
        exact Int.le_of_eq hv.symm
      · obtain ⟨-, d, hd, hv⟩ := h.due uri v t ho
        exact Int.le_trans hv (hle d hd)
    · rcases Notice.outstanding_cons ho with heq | ⟨ho, -⟩
      · injection heq with huri
        exact absurd huri hu
      · obtain ⟨hneeds, d, hd, hv⟩ := h.due u v t ho
        rw [needsAnalysis_eq_record, hr u hu]
        exact ⟨hneeds, d, (congrArg Record.document (hr u hu)).trans hd, hv⟩

/-- Every update keeps a document due as long as a text of it is outstanding. -/
theorem mindful_invariant [TimeScale τ] (p : Publication) :
    Invariant (τ := τ) Step.Regular fun _ s => s.Mindful p where
  owe _ h := h
  skip _ h := h.pass rfl
  settle _ h := h
  -- the two ends of an analysis answer for all texts up to the present one
  refuse {_ s uri d e} hd hn he h := by
    have ht := (tracked_invariant p).refuse (R := []) hd hn he h.tracked
    refine h.answer uri ht (fun u hu => ?_) rfl rfl (h.answers_of_analysed hd (if_pos rfl))
    exact (record_refuse s.counted uri d.version u).trans (if_neg hu)
  accept {_ s uri d r} hd hn hr hs h := by
    obtain ⟨_, _, huri, hversion, _⟩ := Analysis.ofText_eq_ok hr
    subst huri
    have ht := (tracked_invariant p).accept (R := []) hd hn hr hs h.tracked
    have htold : (Notice.event (.updated r.uri r) : Notice τ).analysed? r.uri = some d.version :=
      (if_pos rfl).trans (congrArg some hversion)
    refine h.answer r.uri ht (fun u hu => ?_) rfl rfl (h.answers_of_analysed hd htold)
    exact (record_accept s.counted r u).trans (if_neg hu)
  discard hd hn hr hs _ := by
    obtain ⟨_, _, huri, hversion, _⟩ := Analysis.ofText_eq_ok hr
    rw [isStale_eq_false_of_due hd hn huri hversion] at hs
    cases hs
  overrun _ h := h.pass rfl
  take _ _ h := h.drop _
  force _ _ h := ((h.trigger _).drop _).pass rfl
  wait _ _ h := ((h.trigger _).drop _).congr rfl (fun _ => rfl) rfl
  beyondClock _ h := h.trigger _
  fire {_ s _ _ t b} _ _ _ h := by
    have hpass := h.pass (n := .ripened t.key b.first b.forced (s.expire t).now) rfl
    exact hpass.congr rfl (fun _ => rfl) rfl
  lapse _ _ _ h := h.congr rfl (fun _ => rfl) rfl
  arrive _ _ h := h.congr rfl (fun _ => rfl) rfl
  hear _ h := h.congr rfl (fun _ => rfl) rfl
  openDocument {_ s uri text version} ha h := by
    have ht := (tracked_invariant p).openDocument (R := []) ha h.tracked
    refine ⟨ht, fun u v t ho => ?_⟩
    rcases Notice.outstanding_cons ho with heq | ⟨ho, -⟩
    · injection heq with huri hv
      subst huri hv
      have hrecord := (record_enrol s uri text version uri).trans (if_pos rfl)
      rw [needsAnalysis_eq_record, hrecord]
      exact ⟨Record.needsAnalysis_enrol _ _ _, ⟨text, version⟩,
        congrArg Record.document hrecord, Int.le_refl _⟩
    · -- being opened again answers for all texts before
      obtain ⟨ho, hopen⟩ := Notice.outstanding_of_cons ho rfl
      have hu : uri ≠ u := fun heq => hopen (Or.inl (decide_eq_true heq))
      have hrecord := (record_enrol s uri text version u).trans (if_neg hu)
      obtain ⟨hneeds, d, hd, hle⟩ := h.due u v t ho
      rw [needsAnalysis_eq_record, hrecord]
      exact ⟨hneeds, d, (congrArg Record.document hrecord).trans hd, hle⟩
  changeDocument {_ s uri text version} ha hacc h := by
    have ht := (tracked_invariant p).changeDocument (R := []) ha hacc h.tracked
    have hnew : ∀ d, (s.record uri).document = some d → d.version < version := by
      intro d hd
      have hd' : s.documents.get? uri = some d := hd
      simpa [accepts, hd'] using hacc
    have hrecord := (record_place s uri text version uri).trans (if_pos rfl)
    refine h.receive uri ht (fun u hu => ?_) rfl ?_ (congrArg Record.document hrecord)
      fun d hd => Int.le_of_lt (hnew d hd)
    · exact (record_place s uri text version u).trans (if_neg hu)
    · exact (congrArg Record.needsAnalysis hrecord).trans
        ((h.tracked.record uri).needsAnalysis_place text version hnew)
  closeDocument {_ s uri} ha h := by
    have ht := (tracked_invariant p).closeDocument (R := []) ha h.tracked
    have hj : (s.forget uri).journal = s.journal := by rw [forget, drop_eq]; rfl
    refine h.answer uri ht (fun u hu => ?_) (congrArg (_ :: ·) hj) rfl fun _ _ _ => ?_
    · exact (record_forget s uri u).trans (if_neg hu)
    · exact Or.inl (decide_eq_true rfl)
  showDocuments _ h := h.congr rfl (fun _ => rfl) rfl
  activate _ h := h.congr rfl (fun _ => rfl) rfl
  shutdown _ h :=
    h.congr (by rw [shutdown_eq]; rfl) (fun _ => by rw [shutdown_eq]; rfl) (by rw [shutdown_eq])
  advance _ h := h.congr rfl (fun _ => rfl) rfl
  stall _ h := h.congr rfl (fun _ => rfl) rfl
  placeDocument ha := nomatch ha
  reviseDocument ha := nomatch ha
  dropDocument ha := nomatch ha
  submitResult ha := nomatch ha

/-! ## Reports that are received -/

/-- A step reports a version of a document that the session takes over: one that is opened, or one
that is newer. -/
def TakesOver (s : Session τ) (uri : String) (version : Int) : Step → Prop
  | .openDocument u _ v => u = uri ∧ v = version
  | .changeDocument u _ v => u = uri ∧ v = version ∧ s.accepts uri version = true
  | _ => False

/-- What is in the journal stays there. -/
theorem journal_invariant [TimeScale τ] (journal : List (Notice τ)) :
    Invariant (τ := τ) (fun _ => True) fun _ s => journal <:+ s.journal where
  owe _ h := h
  skip _ h := h.trans (List.suffix_cons _ _)
  settle _ h := h
  refuse _ _ _ h := h.trans (List.suffix_cons _ _)
  accept _ _ _ _ h := h.trans (List.suffix_cons _ _)
  discard _ _ _ _ h := h
  overrun _ h := h.trans (List.suffix_cons _ _)
  take _ _ h := by rw [drop_eq]; exact h
  force _ _ h := by
    rw [exhaust, drop_eq]
    exact h.trans ((List.suffix_cons _ _).trans (List.suffix_cons _ _))
  wait _ _ h := by rw [drop_eq]; exact h.trans (List.suffix_cons _ _)
  beyondClock _ h := h.trans (List.suffix_cons _ _)
  fire _ _ _ h := h.trans (List.suffix_cons _ _)
  lapse _ _ _ h := h
  arrive _ _ h := h
  hear _ h := h
  openDocument _ h := h.trans ((List.suffix_cons _ _).trans (List.suffix_cons _ _))
  changeDocument _ _ h := h.trans (List.suffix_cons _ _)
  closeDocument _ h := by rw [forget, drop_eq]; exact h.trans (List.suffix_cons _ _)
  showDocuments _ h := h
  activate _ h := h
  shutdown _ h := by rw [shutdown_eq]; exact h
  advance _ h := h
  stall _ h := h
  placeDocument _ h := h
  reviseDocument _ _ h := h
  dropDocument _ h := h
  submitResult _ _ h := h.trans (List.suffix_cons _ _)

/-- A text that a step takes over is written down as received, at the time of the step. -/
theorem received_of_takesOver [TimeScale τ] {uri : String} {version : Int} {action : Step}
    (h : s.TakesOver uri version action) :
    ∃ older, .received uri version s.now :: older <:+ (s.step action).1.journal := by
  -- nothing that follows the entry takes it back
  have hkept : ∀ (key : BatchKey) (s₁ : Session τ),
      s₁.journal <:+ (debounce (react s.hooks.length) key s₁).1.journal := by
    intro key s₁
    have I := journal_invariant s₁.journal
    have L := react_kept I (Q := fun _ => True) (fun _ => trivial) (fun _ s => s) s.hooks.length
    exact (debounce_kept (R := []) I.withHooks L key
      ⟨List.suffix_rfl, fun _ _ _ _ _ _ => trivial⟩).2.1
  cases action with
  | openDocument u text v =>
    obtain ⟨rfl, rfl⟩ := h
    exact ⟨_, hkept [u] (s.enrol u text v)⟩
  | changeDocument u text v =>
    obtain ⟨rfl, rfl, hacc⟩ := h
    refine ⟨s.journal, ?_⟩
    simp only [step, perform, changed, hacc, if_true]
    exact hkept [u] ((s.place u text v).note (.received u v s.now))
  | _ => exact False.elim h

end Session
end Stacking
