import Stacking.Command.Check
import Stacking.Command.Watch
import Stacking.Proofs.Command.Address
import Stacking.Proofs.Session.Opening
import Stacking.Proofs.Style.Faults

/-!
# Checking and watching agree

`check` analyses each file by itself, while `watch` opens all files in a session, shows them, and
takes what the session tells. With `--once` both come to the same: of each file the session tells
its outcome once, and `check` reports just these outcomes (`Watch.Agrees`). The clock may show
anything at each step. What it has to do is to tell the waiting times: otherwise the first file that
is opened ends the watch, so that the condition of `Watch.once_agrees_iff` is exact.
-/

namespace Stacking

/-! ## Tables made of lists -/

namespace Table

variable {κ α : Type} [DecidableEq κ]

theorem mem_of_mem_putEntry {k : κ} {a : α} {e : κ × α} {entries : List (κ × α)}
    (h : e ∈ putEntry k a entries) : e = (k, a) ∨ e ∈ entries := by
  induction entries with
  | nil => exact Or.inl (List.mem_singleton.mp h)
  | cons first rest ih =>
    rw [putEntry] at h
    split at h
    · rcases List.mem_cons.mp h with h | h
      · exact Or.inl h
      · exact Or.inr (List.mem_cons_of_mem first h)
    · rcases List.mem_cons.mp h with h | h
      · exact Or.inr (h ▸ List.mem_cons_self)
      · exact (ih h).imp_right (List.mem_cons_of_mem first)

/-- Putting entries in turn keeps the keys different, adds no others, and loses none. -/
theorem foldl_put_spec (entries : List (κ × α)) {t : Table κ α} (h : t.keys.Nodup) :
    (entries.foldl (fun t e => t.put e.1 e.2) t).keys.Nodup ∧
      (∀ e ∈ (entries.foldl (fun t e => t.put e.1 e.2) t).entries, e ∈ t.entries ∨ e ∈ entries) ∧
      ∀ k, t.contains k = true ∨ k ∈ entries.map (·.1) →
        (entries.foldl (fun t e => t.put e.1 e.2) t).contains k = true := by
  induction entries generalizing t with
  | nil => exact ⟨h, fun e he => Or.inl he, fun k hk => hk.resolve_right List.not_mem_nil⟩
  | cons e rest ih =>
    obtain ⟨hnodup, hmem, hcontains⟩ := ih (nodup_keys_put h e.1 e.2)
    refine ⟨hnodup, fun f hf => ?_, fun k hk => hcontains k ?_⟩
    · rcases hmem f hf with hf | hf
      · rcases mem_of_mem_putEntry hf with rfl | hf
        · exact Or.inr List.mem_cons_self
        · exact Or.inl hf
      · exact Or.inr (List.mem_cons_of_mem e hf)
    · rw [contains_put]
      rcases hk with hk | hk
      · rw [hk, Bool.or_true]
        exact Or.inl rfl
      · rcases List.mem_cons.mp hk with rfl | hk
        · rw [decide_eq_true rfl]
          exact Or.inl rfl
        · exact Or.inr hk

end Table

/-- Settings that are made have the values that they are made of. -/
theorem Settings.make_eq_ok {debounceMs maxWaitMs : Int} {helpUri source : String}
    {settings : Settings} (h : make debounceMs maxWaitMs helpUri source = .ok settings) :
    settings.debounceMs = debounceMs ∧ settings.maxWaitMs = maxWaitMs ∧
      settings.helpUri = helpUri ∧ settings.source = source := by
  unfold make at h
  split at h
  · split at h
    · obtain rfl := Except.ok.inj h
      exact ⟨rfl, rfl, rfl, rfl⟩
    · exact nomatch h
  · exact nomatch h

namespace Watch

/-! ## What a watch opens -/

/-- The files under watch have different addresses, and are those of the command line. -/
theorem filesOf_spec (operands : List FileOperand) :
    ((filesOf operands).map (·.uri)).Nodup ∧
      (∀ file ∈ filesOf operands, ∃ o ∈ operands, file.uri = o.uri ∧ file.path = o.path) ∧
      ∀ o ∈ operands, ∃ file ∈ filesOf operands, file.uri = o.uri := by
  obtain ⟨hnodup, hmem, hcontains⟩ := Table.foldl_put_spec
    (operands.map fun o => (o.uri, o)) (t := Table.empty) List.nodup_nil
  refine ⟨?_, fun file hfile => ?_, fun o ho => ?_⟩
  · rw [filesOf, List.map_map]
    exact hnodup
  · obtain ⟨e, he, rfl⟩ := List.mem_map.mp hfile
    obtain ⟨o, ho, rfl⟩ := List.mem_map.mp ((hmem e he).resolve_left List.not_mem_nil)
    exact ⟨o, ho, rfl, rfl⟩
  · have hkey := hcontains o.uri (Or.inr (List.mem_map.mpr ⟨_, List.mem_map_of_mem ho, rfl⟩))
    obtain ⟨e, he, huri⟩ := List.any_eq_true.mp hkey
    exact ⟨_, List.mem_map_of_mem he, of_decide_eq_true huri⟩

/-- The text of a file under watch; there is none if the file is gone or holds no text. -/
def fileText? (tree : FileTree) (file : WatchedFile) : Option Text :=
  (tree.files.get? file.path).bind (·.content.read?)

/-- The documents that a watch opens: files with their texts. -/
def documentsOf (tree : FileTree) (files : List WatchedFile) : List (String × Text) :=
  files.filterMap fun file => (fileText? tree file).map (file.uri, ·)

/-- What a watch pushes into its session, with the flush that ends it when it is to look once. -/
def pushes (tree : FileTree) (operands : List FileOperand) : List Step :=
  Session.openAll (documentsOf tree (filesOf operands))

theorem documentsOf_map_fst {tree : FileTree} {files : List WatchedFile}
    (h : ∀ file ∈ files, (fileText? tree file).isSome = true) :
    (documentsOf tree files).map (·.1) = files.map (·.uri) := by
  rw [documentsOf, List.map_filterMap, ← List.filterMap_eq_map]
  refine List.filterMap_congr fun file hfile => ?_
  obtain ⟨text, htext⟩ := Option.isSome_iff_exists.mp (h file hfile)
  rw [htext]
  rfl

theorem mem_documentsOf {tree : FileTree} {files : List WatchedFile} {file : WatchedFile}
    {text : Text} (hfile : file ∈ files) (h : fileText? tree file = some text) :
    (file.uri, text) ∈ documentsOf tree files :=
  List.mem_filterMap.mpr ⟨file, hfile, by rw [h]; rfl⟩

section Runs

variable {τ : Type} [TimeScale τ]

theorem session_act (w : Watch τ) (millis : τ → Int) (step : Step) :
    (w.act millis step).1.session = (w.session.step step).1 := rfl

theorem act_of_done {w : Watch τ} {step : Step} (h : (w.session.step step).2 = .done)
    (millis : τ → Int) : w.act millis step = ((w.act millis step).1, none) :=
  Prod.ext rfl (congrArg abort? h)

/-- Opening a file that holds a text is a step of the session. -/
theorem openFile_eq {w : Watch τ} (hready : w.session.Ready) (millis : τ → Int) {tree : FileTree}
    {file : WatchedFile} {text : Text} (h : fileText? tree file = some text) :
    ∃ w', openFile millis tree file w = (w', none) ∧
      w'.session = (w.session.step (.openDocument file.uri text 0)).1 := by
  obtain ⟨entry, hentry, hread⟩ := Option.bind_eq_some_iff.mp h
  refine ⟨_, ?_, session_act (w.remember { file with changedAt := some entry.changedAt }) millis _⟩
  rw [openFile, hentry]
  simp only
  rw [hread]
  exact act_of_done (w := w.remember { file with changedAt := some entry.changedAt })
    (hready.reply_open file.uri text 0) millis

/-- Opening files that hold texts is opening their documents one after the other. -/
theorem forEach_openFile (millis : τ → Int) {tree : FileTree} {files : List WatchedFile}
    {w : Watch τ} (hready : w.session.Ready)
    (h : ∀ file ∈ files, (fileText? tree file).isSome = true) :
    ∃ w', forEach (openFile millis tree) files w = (w', none) ∧ w'.session.Ready ∧
      w'.session = w.session.steps
        ((documentsOf tree files).map fun d => .openDocument d.1 d.2 0) := by
  induction files generalizing w with
  | nil => exact ⟨w, rfl, hready, rfl⟩
  | cons file rest ih =>
    obtain ⟨hfile, hrest⟩ := List.forall_mem_cons.mp h
    obtain ⟨text, htext⟩ := Option.isSome_iff_exists.mp hfile
    obtain ⟨w₁, hopen, hsession⟩ := openFile_eq hready millis htext
    have hready₁ : w₁.session.Ready := hsession ▸ hready.step trivial
    obtain ⟨w₂, hothers, hready₂, hsession₂⟩ := ih hready₁ hrest
    refine ⟨w₂, ?_, hready₂, ?_⟩
    · rw [forEach, hopen]
      exact hothers
    · have hcons : documentsOf tree (file :: rest) = (file.uri, text) :: documentsOf tree rest := by
        rw [documentsOf, List.filterMap_cons, htext]
        rfl
      rw [hsession₂, hsession, hcons]
      rfl

/-- A watch that looks once carries out its pushes, and nothing cuts it short. -/
theorem start_eq {settings : Settings}
    (hclock : (Session.new (τ := τ) settings []).waits?.isSome = true) (l : Logging)
    (millis : τ → Int) {tree : FileTree} {operands : List FileOperand}
    (h : ∀ file ∈ filesOf operands, (fileText? tree file).isSome = true) :
    ∃ w, start l settings millis tree operands = (w, none) ∧
      (w.act millis .flush).1.session =
        (Session.new settings []).steps (pushes tree operands) := by
  have hready := Session.ready_new hclock
  obtain ⟨w, hopen, hready, hsession⟩ := forEach_openFile
    (w := { logging := l, files := filesOf operands, session := Session.new settings [] })
    millis hready h
  refine ⟨(w.act millis (.showDocuments ((filesOf operands).map (·.uri)))).1, ?_, ?_⟩
  · rw [start, hopen]
    exact act_of_done (hready.reply_show _) millis
  · rw [session_act, session_act, hsession, pushes, Session.openAll, documentsOf_map_fst h,
      Session.steps, Session.steps, List.foldl_append]
    rfl

end Runs

end Watch

/-! ## What a check reports -/

/-- Takes what a session tells of a file into account as a check does it with its own analysis. -/
def CheckState.addOutcome {τ : Type} (l : Logging) (format : ReportFormat) (file : String)
    (c : CheckState) : Event τ → CheckState
  | .updated _ a => { c with transcript := c.transcript ++ l.analysed a }.addFindings format file a
  | .failed _ _ error =>
    { c with
      failed := true
      transcript := c.transcript ++ Transcript.err (file ++ ": parse error: " ++ error)
      report := c.report.put file (.object [("error", .text error)]) }
  | _ => c

theorem CheckState.addFile_eq (τ : Type) (l : Logging) (format : ReportFormat) (o : FileOperand)
    (text : Text) (c : CheckState) :
    c.addFile l format o text =
      c.addOutcome l format o.written (OpenDocument.outcome τ {} o.uri ⟨text, 0⟩) := by
  rw [addFile, OpenDocument.outcome]
  split
  · rename_i e he
    simp only at he ⊢
    rw [he]
    rfl
  · rename_i a ha
    simp only at ha ⊢
    rw [ha]
    rfl

namespace Watch

section Agreement

variable {τ : Type}

/-- A session agrees with a check of the files: of each file it has told one outcome, which is that
of its text, and of no other file; and the check reports what has been told of the files, in turn. -/
structure Agrees (l : Logging) (tree : FileTree) (files : List FileOperand) (s : Session τ) :
    Prop where
  failed : ∀ o ∈ files, ∀ text e, o.text? tree = some text → Stylesheet.parse text = .error e →
    s.outcomes o.uri = [.failed o.uri 0 e.message]
  updated : ∀ o ∈ files, ∀ text sheet, o.text? tree = some text → Stylesheet.parse text = .ok sheet →
    ∃ a, Analysis.ofText o.uri 0 {} text = .ok a ∧ a.version = 0 ∧
      s.outcomes o.uri = [.updated o.uri a]
  other : ∀ uri, (∀ o ∈ files, o.uri ≠ uri) → s.outcomes uri = []
  check : ∀ format,
    let c := files.foldl (fun c o => (s.outcomes o.uri).foldl (·.addOutcome l format o.written ·) c)
      ({} : CheckState)
    Command.check l tree files format = ⟨c.transcript ++ c.conclusion format files.length,
      .exit (if c.failed || c.total ≠ 0 then 1 else 0), tree⟩

/-- Checking files whose outcomes a session has told is taking these into account. -/
theorem addFiles_eq {tree : FileTree} {files : List FileOperand} {s : Session τ} (l : Logging)
    (format : ReportFormat) (h : ∀ o ∈ files, ∃ text, o.text? tree = some text ∧
      s.outcomes o.uri = [OpenDocument.outcome τ {} o.uri ⟨text, 0⟩]) (c : CheckState) :
    CheckState.addFiles l format tree files c =
      (files.foldl (fun c o => (s.outcomes o.uri).foldl (·.addOutcome l format o.written ·) c) c,
        true) := by
  induction files generalizing c with
  | nil => rfl
  | cons o rest ih =>
    obtain ⟨⟨text, htext, htold⟩, hrest⟩ := List.forall_mem_cons.mp h
    rw [CheckState.addFiles, htext]
    simp only
    rw [ih hrest, List.foldl_cons, htold, CheckState.addFile_eq τ]
    rfl

/-- A session agrees with a check if it has told the outcome of each file. -/
theorem agrees_of_outcomes {tree : FileTree} {files : List FileOperand} {s : Session τ} (l : Logging)
    (htexts : ∀ o ∈ files, (o.text? tree).isSome = true)
    (heach : ∀ o ∈ files, ∀ text, o.text? tree = some text →
      s.outcomes o.uri = [OpenDocument.outcome τ {} o.uri ⟨text, 0⟩])
    (hother : ∀ uri, (∀ o ∈ files, o.uri ≠ uri) → s.outcomes uri = []) :
    Agrees l tree files s where
  failed o ho text e htext hparse := by
    rw [heach o ho text htext, OpenDocument.outcome, Analysis.ofText, hparse]
  updated o ho text sheet htext hparse := by
    have hanalysis : Analysis.ofText o.uri 0 {} text =
        .ok (Analysis.ofStylesheet o.uri 0 {} sheet) := by rw [Analysis.ofText, hparse]
    obtain ⟨_, _, _, hversion, _⟩ := Analysis.ofText_eq_ok hanalysis
    refine ⟨_, hanalysis, hversion, ?_⟩
    rw [heach o ho text htext, OpenDocument.outcome, hanalysis]
  other := hother
  check format := by
    have hfiles := addFiles_eq (s := s) l format (fun o ho => by
      obtain ⟨text, htext⟩ := Option.isSome_iff_exists.mp (htexts o ho)
      exact ⟨text, htext, heach o ho text htext⟩) {}
    rw [Command.check, hfiles]

variable [TimeScale τ]

/-- Every file that is watched has a text if those of the command line have. -/
theorem isSome_fileText? {tree : FileTree} {files : List FileOperand}
    (h : ∀ o ∈ files, (o.text? tree).isSome = true) :
    ∀ file ∈ filesOf files, (fileText? tree file).isSome = true := by
  intro file hfile
  obtain ⟨o, ho, -, hpath⟩ := (filesOf_spec files).2.1 file hfile
  rw [fileText?, hpath]
  exact h o ho

/-- On a clock that can tell the waiting times, whatever it shows, a session into which a watch pushes
its files agrees with a check. -/
theorem agrees_stepsAt {settings : Settings}
    (hclock : (Session.new (τ := τ) settings []).waits?.isSome = true)
    (hpublication : Publication.mk settings.helpUri settings.source = {}) {tree : FileTree}
    {words : List String} {files : List FileOperand} (hbase : "" ∉ tree.base)
    (hfiles : FileOperand.readAll tree words = .ok files)
    (htexts : ∀ o ∈ files, (o.text? tree).isSome = true) (l : Logging) {timed : List (τ × Step)}
    (hsteps : timed.map (·.2) = pushes tree files) :
    Agrees l tree files ((Session.new settings []).stepsAt timed) := by
  obtain ⟨hnodup, hmem, hexists⟩ := filesOf_spec files
  have hnames := documentsOf_map_fst (isSome_fileText? htexts)
  obtain ⟨htold, hother⟩ := Session.outcomes_stepsAt hclock (hnames ▸ hnodup) hsteps
  rw [hpublication] at htold
  refine agrees_of_outcomes l htexts (fun o ho text htext => ?_) fun uri huri => ?_
  · -- files with one address are one file
    obtain ⟨file, hfile, haddress⟩ := hexists o ho
    obtain ⟨o', ho', haddress', hpath⟩ := hmem file hfile
    have hsame : o'.path = o.path :=
      FileOperand.path_eq_of_uri_eq hbase hfiles ho' ho (haddress'.symm.trans haddress)
    have htext' : fileText? tree file = some text := by
      rw [fileText?, hpath, hsame]
      exact htext
    have hdocument := htold _ (mem_documentsOf hfile htext')
    rwa [haddress] at hdocument
  · refine hother uri fun hin => ?_
    rw [hnames] at hin
    obtain ⟨file, hfile, rfl⟩ := List.mem_map.mp hin
    obtain ⟨o, ho, haddress, -⟩ := hmem file hfile
    exact huri o ho haddress.symm

/-- A directory with one file, which is empty. -/
def oneFile : FileTree := { base := [], files := ⟨[(["a"], ⟨.text [], 0⟩)]⟩ }

/-- Checking and watching agree: for any files that exist and hold texts, a watch that looks once
carries out its pushes, and whatever the clock shows at each of them, the session tells of each file
what a check reports of it. This holds exactly if the clock can tell both waiting times. -/
theorem once_agrees_iff {debounceMs maxWaitMs : Int} {settings : Settings}
    (hsettings : Settings.make debounceMs maxWaitMs defaultHelpUri defaultSource = .ok settings)
    (l : Logging) (millis : τ → Int) :
    (∀ (tree : FileTree) (words : List String) (files : List FileOperand), "" ∉ tree.base →
        FileOperand.readAll tree words = .ok files →
        (∀ o ∈ files, (o.text? tree).isSome = true) →
        (∃ w, start l settings millis tree files = (w, none) ∧
          (w.act millis .flush).1.session =
            (Session.new settings []).steps (pushes tree files) ∧
          Agrees l tree files (w.act millis .flush).1.session) ∧
        ∀ timed : List (τ × Step), timed.map (·.2) = pushes tree files →
          Agrees l tree files ((Session.new settings []).stepsAt timed)) ↔
      (TimeScale.ofMillis? (τ := τ) debounceMs).isSome = true ∧
        (TimeScale.ofMillis? (τ := τ) maxWaitMs).isSome = true := by
  obtain ⟨rfl, rfl, hhelp, hsource⟩ := Settings.make_eq_ok hsettings
  refine Iff.trans ?_ (Session.isSome_waits?_iff (Session.new (τ := τ) settings []))
  constructor
  · intro h
    cases hw : (Session.new (τ := τ) settings []).waits? with
    | some _ => rfl
    | none =>
      -- one file without text is opened, and nothing is told of it
      obtain ⟨-, hagrees⟩ := h oneFile ["a"] [⟨"a", ["a"]⟩] List.not_mem_nil rfl
        (List.forall_mem_singleton.mpr rfl)
      have hagrees := hagrees ((pushes oneFile [⟨"a", ["a"]⟩]).map (TimeScale.zero, ·))
        (by rw [List.map_map]; exact List.map_id _)
      obtain ⟨sheet, hsheet⟩ : ∃ sheet, Stylesheet.parse [] = .ok sheet := ⟨_, rfl⟩
      obtain ⟨a, -, -, htold⟩ := hagrees.updated _ List.mem_cons_self [] sheet rfl hsheet
      have hpushes : pushes oneFile [⟨"a", ["a"]⟩] =
          Session.openAll [(FileOperand.uri ⟨"a", ["a"]⟩, [])] := rfl
      rw [hpushes, Session.outcomes_stepsAt_of_beyondClock hw] at htold
      exact nomatch htold
  · intro hclock tree words files hbase hfiles htexts
    have hpublication : Publication.mk settings.helpUri settings.source = {} := by
      rw [hhelp, hsource]
    have hall : ∀ timed : List (τ × Step), timed.map (·.2) = pushes tree files →
        Agrees l tree files ((Session.new settings []).stepsAt timed) := fun timed hsteps =>
      agrees_stepsAt hclock hpublication hbase hfiles htexts l hsteps
    refine ⟨?_, hall⟩
    obtain ⟨w, hstart, hsession⟩ := start_eq hclock l millis (isSome_fileText? htexts)
    obtain ⟨timed, hsteps, hrun⟩ := Session.exists_stepsAt_eq (Session.new (τ := τ) settings [])
      (pushes tree files)
    refine ⟨w, hstart, hsession, ?_⟩
    rw [hsession, ← hrun]
    exact hall timed hsteps

/-- Two files, one with a finding and one that cannot be parsed. -/
def twoFiles : FileTree :=
  { base := ["styles"]
    files := ⟨[(["styles", "a"], ⟨.text "b\x7bz-index: 1\x7d".toList, 3⟩),
      (["styles", "c"], ⟨.text "d\x7be".toList, 5⟩)]⟩ }

/-- On an exact clock, checking and watching agree on two files, whatever the clock shows while they
are opened: of one both tell the finding, of the other why it cannot be parsed. -/
theorem once_agrees_iff_two_files :
    ∃ (settings : Settings) (files : List FileOperand) (w : Watch Int) (a : Analysis),
      Settings.make 250 900 defaultHelpUri defaultSource = .ok settings ∧
      FileOperand.readAll twoFiles ["a", "c"] = .ok files ∧
      start {} settings id twoFiles files = (w, none) ∧
      a.diagnostics = [Publication.finding {} ⟨⟨0, 2⟩, ⟨0, 12⟩⟩] ∧
      (∀ s ∈ [(w.act id .flush).1.session, (Session.new settings []).stepsAt
          ([700, 4, 4, 30000].zip (pushes twoFiles files))],
        Agrees {} twoFiles files s ∧
        s.outcomes "file:///styles/a" = [.updated "file:///styles/a" a] ∧
        s.outcomes "file:///styles/c" =
          [.failed "file:///styles/c" 0 (ParseError.message ⟨.unexpectedEnd, ⟨1, 3⟩⟩)]) ∧
      Command.check {} twoFiles files .text =
        ⟨Transcript.out ("a:" ++ (Publication.finding {} ⟨⟨0, 2⟩, ⟨0, 12⟩⟩).render) ++
          Transcript.err
            ("c: parse error: " ++ ParseError.message ⟨.unexpectedEnd, ⟨1, 3⟩⟩) ++
          Transcript.out "\nSummary: 1 ineffective z-index declaration(s) in 2 file(s)",
          .exit 1, twoFiles⟩ := by
  have hsettings : Settings.make 250 900 defaultHelpUri defaultSource =
      .ok { debounceMs := 250, maxWaitMs := 900 } := rfl
  let files : List FileOperand := [⟨"a", ["styles", "a"]⟩, ⟨"c", ["styles", "c"]⟩]
  have hfiles : FileOperand.readAll twoFiles ["a", "c"] = .ok files := rfl
  have htexts : ∀ o ∈ files, (o.text? twoFiles).isSome = true := by decide
  obtain ⟨⟨w, hstart, -, hwatch⟩, hpushed⟩ :=
    (once_agrees_iff (τ := Int) hsettings {} id).mpr ⟨rfl, rfl⟩ twoFiles ["a", "c"] files
      (by decide) hfiles htexts
  have hpushed := hpushed ([700, 4, 4, 30000].zip (pushes twoFiles files)) rfl
  have hanalysis : (Analysis.ofText "file:///styles/a" 0 {}
      "b\x7bz-index: 1\x7d".toList).toOption.map (·.diagnostics) =
      some [Publication.finding {} ⟨⟨0, 2⟩, ⟨0, 12⟩⟩] := by decide +kernel
  obtain ⟨a, ha, hdiagnostics⟩ := Option.map_eq_some_iff.mp hanalysis
  have ha := Analysis.ofText_eq_ok_of_toOption ha
  obtain ⟨sheet, hsheet, -⟩ := Analysis.ofText_eq_ok ha
  have hfault : Stylesheet.fault? (Stylesheet.parse "d\x7be".toList) =
      some ⟨.unexpectedEnd, ⟨1, 3⟩⟩ := by decide +kernel
  have hparse := Stylesheet.eq_error_of_fault? hfault
  have htold : ∀ s : Session Int, Agrees {} twoFiles files s →
      s.outcomes "file:///styles/a" = [.updated "file:///styles/a" a] ∧
      s.outcomes "file:///styles/c" =
        [.failed "file:///styles/c" 0 (ParseError.message ⟨.unexpectedEnd, ⟨1, 3⟩⟩)] := by
    intro s hs
    have hfailed := hs.failed _ (List.mem_cons_of_mem _ List.mem_cons_self) _ _ rfl hparse
    obtain ⟨a', ha', -, hupdated⟩ := hs.updated _ List.mem_cons_self _ _ rfl hsheet
    obtain rfl : a = a' := Except.ok.inj (ha.symm.trans ha')
    exact ⟨hupdated, hfailed⟩
  refine ⟨_, files, w, a, hsettings, hfiles, hstart, hdiagnostics,
    List.forall_mem_cons.mpr ⟨⟨hwatch, htold _ hwatch⟩,
      List.forall_mem_singleton.mpr ⟨hpushed, htold _ hpushed⟩⟩, ?_⟩
  obtain ⟨hupdated, hfailed⟩ := htold _ hpushed
  have huri : FileOperand.uri ⟨"a", ["styles", "a"]⟩ = "file:///styles/a" ∧
      FileOperand.uri ⟨"c", ["styles", "c"]⟩ = "file:///styles/c" := ⟨rfl, rfl⟩
  rw [hpushed.check .text]
  simp only [files, List.foldl_cons, List.foldl_nil, huri, hupdated, hfailed,
    CheckState.addOutcome, CheckState.addFindings, hdiagnostics, CheckState.conclusion]
  rfl

end Agreement
end Watch
end Stacking
