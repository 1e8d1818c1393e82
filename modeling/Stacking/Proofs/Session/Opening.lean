import Stacking.Proofs.Session.Outcome

/-!
# Documents that are opened and analysed once

An editor opens some documents, shows them and asks for all findings at once. Meanwhile the clock
may show anything: documents may be analysed as soon as they are opened or shown, since their batch
has no time left, together with others, or not before the end. However that comes out, every
document is analysed once, and one event tells the outcome (`Session.outcomes_stepsAt`).

The proof follows one document. Until it is opened nothing is known of it; from then on either it is
due for analysis and nothing has been told of it, or its outcome has been told (`Session.Followed`).
-/

namespace Stacking

/-! ## Outcomes -/

/-- An event tells the outcome of an analysis of a document. -/
def Event.isOutcome {τ : Type} (uri : String) : Event τ → Bool
  | .updated u _ => u = uri
  | .failed u _ _ => u = uri
  | _ => false

/-- The outcome of an analysis of a document. -/
def OpenDocument.outcome (τ : Type) (p : Publication) (uri : String) (d : OpenDocument) : Event τ :=
  match Analysis.ofText uri d.version p d.text with
  | .error e => .failed uri d.version e.message
  | .ok r => .updated uri r

/-- The steps that leave the text of a document alone: others are opened, documents are shown, and
all that wait are analysed. -/
def Step.Besides (uri : String) : Step → Prop
  | .openDocument u _ _ => u ≠ uri
  | .showDocuments _ | .flush => True
  | _ => False

theorem Step.Besides.ongoing {uri : String} {step : Step} (h : step.Besides uri) :
    step.Ongoing := by
  cases step <;> trivial

namespace Session

variable {τ : Type} {p : Publication} {uri : String} {document? : Option OpenDocument}
  {s s' : Session τ}

/-- The outcomes that have been told of a document, the latest first. -/
def outcomes (s : Session τ) (uri : String) : List (Event τ) := s.events.filter (·.isOutcome uri)

theorem outcomes_note (e : Event τ) (s : Session τ) (uri : String) :
    (s.note (.event e)).outcomes uri =
      if e.isOutcome uri then e :: s.outcomes uri else s.outcomes uri := by
  show (e :: s.events).filter (·.isOutcome uri) = _
  rw [List.filter_cons]
  rfl

/-- What has been told of a document, if it is open: its outcome, unless it is due for analysis. -/
structure Followed (p : Publication) (uri : String) (document? : Option OpenDocument)
    (s : Session τ) : Prop where
  publication : s.publication = p
  document : s.documents.get? uri = document?
  unseen : document? = none → s.results.get? uri = none
  outcomes : s.outcomes uri =
    if s.needsAnalysis uri then [] else (document?.map (·.outcome τ p uri)).toList

theorem Followed.congr (h : s.Followed p uri document?) (hp : s'.publication = s.publication)
    (hr : s'.record uri = s.record uri) (ho : s'.outcomes uri = s.outcomes uri) :
    s'.Followed p uri document? where
  publication := hp.trans h.publication
  document := (congrArg Record.document hr).trans h.document
  unseen hnone := (congrArg Record.result hr).trans (h.unseen hnone)
  outcomes := by
    rw [ho, h.outcomes, needsAnalysis_eq_record, needsAnalysis_eq_record, hr]

/-- The outcome of a document that is due is told. -/
theorem Followed.settled {d : OpenDocument} (h : s.Followed p uri document?)
    (hd : s.documents.get? uri = some d) (hn : s.needsAnalysis uri = true)
    (hp : s'.publication = s.publication) (hd' : s'.documents.get? uri = some d)
    (hn' : s'.needsAnalysis uri = false)
    (ho : s'.outcomes uri = d.outcome τ s.publication uri :: s.outcomes uri) :
    s'.Followed p uri document? := by
  obtain rfl : some d = document? := hd.symm.trans h.document
  refine ⟨hp.trans h.publication, hd', nofun, ?_⟩
  rw [ho, h.outcomes, hn, hn', h.publication]
  rfl

variable [TimeScale τ]

theorem followed_invariant (p : Publication) (uri : String) (document? : Option OpenDocument) :
    Invariant (τ := τ) (Step.Besides uri) fun _ s => s.Followed p uri document? where
  owe _ h := h
  skip _ h := h.congr rfl rfl rfl
  settle _ h := h
  refuse {_ s u d e} hd hn hr h := by
    have hrecord := record_refuse s.counted u d.version uri
    by_cases hu : u = uri
    · subst hu
      rw [if_pos rfl] at hrecord
      refine h.settled hd hn rfl hd ?_ ?_
      · rw [needsAnalysis_eq_record]
        exact (congrArg Record.needsAnalysis hrecord).trans (Record.needsAnalysis_refuse hd)
      · rw [outcomes_note, OpenDocument.outcome, hr]
        exact if_pos (decide_eq_true rfl)
    · refine h.congr rfl (hrecord.trans (if_neg hu)) ?_
      rw [outcomes_note]
      exact if_neg (by simpa [Event.isOutcome] using hu)
  accept {_ s u d r} hd hn hr _ h := by
    obtain ⟨_, _, hname, hversion, _⟩ := Analysis.ofText_eq_ok hr
    subst hname
    have hrecord := record_accept s.counted r uri
    by_cases hu : r.uri = uri
    · subst hu
      rw [if_pos rfl] at hrecord
      refine h.settled hd hn rfl hd ?_ ?_
      · rw [needsAnalysis_eq_record]
        exact (congrArg Record.needsAnalysis hrecord).trans (Record.needsAnalysis_accept hd hversion)
      · rw [outcomes_note, OpenDocument.outcome, hr]
        exact if_pos (decide_eq_true rfl)
    · refine h.congr rfl (hrecord.trans (if_neg hu)) ?_
      rw [outcomes_note]
      exact if_neg (by simpa [Event.isOutcome] using hu)
  discard _ _ _ _ h := h.congr rfl rfl rfl
  overrun _ h := h.congr rfl rfl rfl
  take _ _ h := by
    rw [drop_eq]
    exact h.congr rfl rfl rfl
  force _ _ h := by
    rw [exhaust, drop_eq]
    exact h.congr rfl rfl rfl
  wait _ _ h := by
    rw [drop_eq]
    exact h.congr rfl rfl rfl
  beyondClock _ h := h.congr rfl rfl rfl
  fire _ _ _ h := h.congr rfl rfl rfl
  lapse _ _ _ h := h.congr rfl rfl rfl
  arrive _ _ h := h.congr rfl rfl rfl
  hear _ h := h.congr rfl rfl rfl
  openDocument {_ s u text version} ha h :=
    h.congr rfl ((record_enrol s u text version uri).trans (if_neg ha)) rfl
  changeDocument ha := False.elim ha
  closeDocument ha := False.elim ha
  showDocuments _ h := h.congr rfl rfl rfl
  activate ha := False.elim ha
  shutdown ha := False.elim ha
  advance ha := False.elim ha
  stall ha := False.elim ha
  placeDocument ha := False.elim ha
  reviseDocument ha := False.elim ha
  dropDocument ha := False.elim ha
  submitResult ha := False.elim ha

/-! ## Runs on any clock -/

/-- A session in which listeners only listen and no document is left waiting, seen from one
document. -/
structure Undisturbed (p : Publication) (uri : String) (document? : Option OpenDocument)
    (R : List String) (s : Session τ) : Prop where
  passive : s.Passive
  timed : s.Timed
  covered : Covered R s
  followed : s.Followed p uri document?

theorem undisturbed_invariant (p : Publication) (uri : String) (document? : Option OpenDocument) :
    Invariant (τ := τ) (Step.Besides uri) (Undisturbed p uri document?) := by
  have hall := (passive_invariant (τ := τ).mono fun _ => trivial).and
    ((timed_invariant.mono fun _ => trivial).and
      ((covered_invariant.mono Step.Besides.ongoing).and (followed_invariant p uri document?)))
  have heq : Undisturbed (τ := τ) p uri document? = fun R s =>
      s.Passive ∧ s.Timed ∧ Covered R s ∧ s.Followed p uri document? := by
    funext R s
    exact propext ⟨fun h => ⟨h.passive, h.timed, h.covered, h.followed⟩,
      fun h => ⟨h.1, h.2.1, h.2.2.1, h.2.2.2⟩⟩
  rw [heq]
  exact hall

omit [TimeScale τ] in
theorem heard_noted (P : List String → Session τ → Prop) : Heard P noted noted :=
  ⟨fun _ => rfl, id⟩

/-- Carries out steps one after the other, each at the time that the clock shows then. -/
def stepsAt (s : Session τ) (timed : List (τ × Step)) : Session τ :=
  timed.foldl (fun s action => (step { s with now := action.1 } action.2).1) s

theorem stepsAt_append (s : Session τ) (timed timed' : List (τ × Step)) :
    s.stepsAt (timed ++ timed') = (s.stepsAt timed).stepsAt timed' := List.foldl_append

/-- Steps that are taken one after the other are taken at some times. -/
theorem exists_stepsAt_eq (s : Session τ) (actions : List Step) :
    ∃ timed : List (τ × Step), timed.map (·.2) = actions ∧ s.stepsAt timed = s.steps actions := by
  induction actions generalizing s with
  | nil => exact ⟨[], rfl, rfl⟩
  | cons action rest ih =>
    obtain ⟨timed, hmap, hrun⟩ := ih (s.step action).1
    exact ⟨(s.now, action) :: timed, congrArg (action :: ·) hmap, hrun⟩

namespace Undisturbed

/-- What the clock shows does not matter. -/
theorem at_time (h : Undisturbed p uri document? [] s) (now : τ) :
    Undisturbed p uri document? [] { s with now } :=
  ⟨h.passive, h.timed.congr rfl rfl rfl, ⟨h.covered.clock, h.covered.due⟩,
    h.followed.congr rfl rfl rfl⟩

theorem step (h : Undisturbed p uri document? [] s) {action : Step} (ha : action.Besides uri) :
    Undisturbed p uri document? [] (s.step action).1 := by
  rw [(step_of_passive h.passive action).1]
  exact (perform_kept (undisturbed_invariant p uri document?) (heard_noted _) ha h).2

theorem stepsAt (h : Undisturbed p uri document? [] s) (timed : List (τ × Step))
    (ha : ∀ action ∈ timed.map (·.2), action.Besides uri) :
    Undisturbed p uri document? [] (s.stepsAt timed) := by
  induction timed generalizing s with
  | nil => exact h
  | cons action rest ih =>
    obtain ⟨haction, hrest⟩ := List.forall_mem_cons.mp ha
    exact ih ((h.at_time action.1).step haction) hrest

/-- The document is opened. -/
theorem openDocument (h : Undisturbed p uri none [] s) (text : Text) (version : Int) :
    Undisturbed p uri (some ⟨text, version⟩) [] (s.step (.openDocument uri text version)).1 := by
  have hdocument := h.followed.document
  have hresult := h.followed.unseen rfl
  have hrecord := record_enrol s uri text version uri
  rw [if_pos rfl] at hrecord
  have hneeds : (s.enrol uri text version).needsAnalysis uri = true := by
    rw [needsAnalysis_eq_record, hrecord]
    simp [Record.enrol, Record.needsAnalysis, record, hresult]
  have hopened : Undisturbed p uri (some ⟨text, version⟩) [uri] (s.enrol uri text version) := by
    refine ⟨passive_invariant.openDocument (R := []) trivial h.passive,
      timed_invariant.openDocument (R := []) trivial h.timed,
      covered_invariant.openDocument trivial h.covered,
      ⟨h.followed.publication, ?_, fun hnone => absurd hnone (Option.some_ne_none _), ?_⟩⟩
    · exact congrArg Record.document hrecord
    · -- nothing has been told before
      have hnone : s.outcomes uri = [] := by
        rw [h.followed.outcomes]
        split <;> rfl
      rw [hneeds]
      exact hnone
  rw [(step_of_passive h.passive _).1]
  exact (debounce_kept (undisturbed_invariant p uri _) (heard_noted _) [uri] hopened).2

/-- After a flush the outcome of the document has been told. -/
theorem outcomes_of_flush (h : Undisturbed p uri document? [] s) :
    (s.step .flush).1.outcomes uri = (document?.map (·.outcome τ p uri)).toList := by
  have hend := h.step (show Step.flush.Besides uri from trivial)
  have hrest : (s.step .flush).1.AtRest := atRest_of_flush h.passive h.timed []
  rw [hend.followed.outcomes, hend.covered.not_due hrest]
  rfl

end Undisturbed

theorem undisturbed_new {settings : Settings} (hclock : (new (τ := τ) settings []).waits?.isSome)
    (uri : String) :
    Undisturbed ⟨settings.helpUri, settings.source⟩ uri none [] (new (τ := τ) settings []) := by
  refine ⟨passive_new settings nofun, timed_new settings [], ⟨hclock, fun u hneeds => ?_⟩,
    ⟨rfl, rfl, fun _ => rfl, rfl⟩⟩
  exact absurd hneeds Bool.false_ne_true

/-- The steps with which documents are opened, shown and analysed. -/
def openAll (documents : List (String × Text)) : List Step :=
  documents.map (fun d => .openDocument d.1 d.2 0) ++
    [.showDocuments (documents.map (·.1)), .flush]

/-- Documents are opened, shown and analysed, whatever the clock shows at each step. Then of each of
them its outcome has been told once, and no outcome of any other. -/
theorem outcomes_stepsAt {settings : Settings}
    (hclock : (new (τ := τ) settings []).waits?.isSome = true) {documents : List (String × Text)}
    (hnodup : (documents.map (·.1)).Nodup) {timed : List (τ × Step)}
    (hsteps : timed.map (·.2) = openAll documents) :
    (∀ d ∈ documents, ((new settings []).stepsAt timed).outcomes d.1 =
      [OpenDocument.outcome τ ⟨settings.helpUri, settings.source⟩ d.1 ⟨d.2, 0⟩]) ∧
    ∀ uri ∉ documents.map (·.1), ((new settings []).stepsAt timed).outcomes uri = [] := by
  -- the flush comes last
  obtain ⟨timed, last, rfl, hfirst, hlast⟩ := List.map_eq_append_iff.mp
    (hsteps.trans (List.append_cons _ _ [Step.flush]))
  obtain ⟨⟨now, action⟩, rfl, rfl⟩ := List.map_eq_singleton_iff.mp hlast
  have hflush : ∀ uri, ((new settings []).stepsAt (timed ++ [(now, .flush)])).outcomes uri =
      ((step { (new settings []).stepsAt timed with now } .flush).1).outcomes uri := fun uri => by
    rw [stepsAt_append]
    rfl
  have hbesides : ∀ {docs : List (String × Text)} {uri : String}, uri ∉ docs.map (·.1) →
      ∀ action ∈ docs.map fun d => Step.openDocument d.1 d.2 0, action.Besides uri := by
    intro docs uri huri action haction
    obtain ⟨d, hd, rfl⟩ := List.mem_map.mp haction
    exact fun heq => huri (heq ▸ List.mem_map_of_mem hd)
  refine ⟨fun d hd => ?_, fun uri huri => ?_⟩
  · -- the document is opened among the others
    obtain ⟨before, after, rfl⟩ := List.append_of_mem hd
    rw [List.map_append, List.map_cons] at hnodup
    obtain ⟨-, hafter, hbefore⟩ := List.nodup_append.mp hnodup
    have hnotin : d.1 ∉ before.map (·.1) := fun hmem =>
      hbefore _ hmem _ List.mem_cons_self rfl
    obtain ⟨hnotin', -⟩ := List.nodup_cons.mp hafter
    rw [List.map_append, List.map_cons, List.append_assoc] at hfirst
    obtain ⟨early, rest, rfl, hearly, hrest⟩ := List.map_eq_append_iff.mp hfirst
    obtain ⟨⟨time, action⟩, late, rfl, rfl, hlate⟩ := List.map_eq_cons_iff.mp hrest
    have hstart := (undisturbed_new (τ := τ) hclock d.1).stepsAt early (by
      rw [hearly]
      exact hbesides hnotin)
    have hopened := (hstart.at_time time).openDocument d.2 0
    have hend := hopened.stepsAt late (by
      rw [hlate]
      intro action haction
      rcases List.mem_append.mp haction with haction | haction
      · exact hbesides hnotin' action haction
      · rw [List.mem_singleton.mp haction]
        trivial)
    rw [hflush, stepsAt_append]
    exact (hend.at_time now).outcomes_of_flush
  · have hend := (undisturbed_new (τ := τ) hclock uri).stepsAt timed (by
      rw [hfirst]
      intro action haction
      rcases List.mem_append.mp haction with haction | haction
      · exact hbesides huri action haction
      · rw [List.mem_singleton.mp haction]
        trivial)
    rw [hflush]
    exact (hend.at_time now).outcomes_of_flush

/-! ## Steps that are not refused -/

/-- Listeners only listen, and a batch that is to wait can wait. -/
structure Ready (s : Session τ) : Prop where
  passive : s.Passive
  covered : Covered [] s

theorem ready_new {settings : Settings}
    (hclock : (new (τ := τ) settings []).waits?.isSome = true) :
    (new (τ := τ) settings []).Ready :=
  ⟨passive_new settings nofun, ⟨hclock, fun _ hneeds => absurd hneeds Bool.false_ne_true⟩⟩

theorem debounce_snd (react : Event τ → Session τ → Session τ) (key : BatchKey)
    (h : s.waits?.isSome = true) : (debounce react key s).2 = none := by
  obtain ⟨⟨window, maxWait⟩, hw⟩ := Option.isSome_iff_exists.mp h
  rw [debounce_of_waits hw]

namespace Ready

theorem step (h : s.Ready) {action : Step} (ha : action.Ongoing) : (s.step action).1.Ready := by
  obtain ⟨hstep, hpassive⟩ := step_of_passive h.passive action
  refine ⟨hpassive, ?_⟩
  rw [hstep]
  exact (perform_kept covered_invariant (heard_noted _) ha h.covered).2

theorem reply_open (h : s.Ready) (uri : String) (text : Text) (version : Int) :
    (s.step (.openDocument uri text version)).2 = .done := by
  exact congrArg StepReply.ofFault
    (debounce_snd (s := s.enrol uri text version) _ [uri] h.covered.clock)

theorem reply_show (h : s.Ready) (uris : List String) :
    (s.step (.showDocuments uris)).2 = .done := by
  show StepReply.ofFault (shown _ uris s).2 = .done
  unfold shown
  simp only
  split
  · rfl
  · exact congrArg StepReply.ofFault
      (debounce_snd (s := { s with visible := uris }) _ _ h.covered.clock)

end Ready

/-! ## A clock that cannot tell the waiting times -/

theorem step_show_of_beyondClock (h : s.waits? = none) (uris : List String) :
    (s.step (.showDocuments uris)).1 = { s with visible := uris } ∨
      ∃ key, (s.step (.showDocuments uris)).1 = { s with visible := uris }.trigger key := by
  show (shown _ uris s).1 = _ ∨ ∃ key, (shown _ uris s).1 = _
  unfold shown
  simp only
  split
  · exact Or.inl rfl
  · have hw : ({ s with visible := uris } : Session τ).waits? = none := h
    exact Or.inr ⟨_, by rw [debounce_of_beyondClock hw]⟩

/-- Where the clock cannot tell the waiting times, nothing is told of a document that is opened. -/
theorem outcomes_stepsAt_of_beyondClock {settings : Settings}
    (h : (new (τ := τ) settings []).waits? = none) (uri : String) (text : Text) (time : τ) :
    ((new settings []).stepsAt ((openAll [(uri, text)]).map (time, ·))).outcomes uri = [] := by
  have hopen := step_open_of_beyondClock (s := { new (τ := τ) settings [] with now := time }) h uri
    text 0
  have hshow := step_show_of_beyondClock (s := { trigger [uri]
    (enrol uri text 0 { new (τ := τ) settings [] with now := time }) with now := time }) h [uri]
  show ((step { (step { (step { new settings [] with now := time }
    (.openDocument uri text 0)).1 with now := time } (.showDocuments [uri])).1 with now := time }
    .flush).1).outcomes uri = []
  rw [hopen]
  obtain hshow | ⟨key, hshow⟩ := hshow
  · rw [hshow]
    rfl
  · rw [hshow]
    rfl

end Session
end Stacking
