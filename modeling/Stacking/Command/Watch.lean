import Stacking.Command.Outcome
import Stacking.Session.Step

/-!
# Watching files

`watch` opens the given files in a session and looks at them again and again: a file that was changed
since the last look gets a new version, a file that is gone is closed. What the session tells is
printed as it comes.
-/

namespace Stacking

/-- A file under watch: how it is shown, when it was changed last, and its version. There is no time
once the file is gone. -/
structure WatchedFile where
  uri : String
  path : Path
  shown : String
  changedAt : Option Int := none
  version : Int := 0

/-- A watch over files, with times `τ`. -/
structure Watch (τ : Type) where
  logging : Logging
  files : List WatchedFile
  session : Session τ
  transcript : Transcript := []

namespace Watch

variable {τ : Type}

/-! ## Printing -/

/-- How a document is shown: as the file it was opened for. -/
def shownName (files : List WatchedFile) (uri : String) : String :=
  ((files.find? (·.uri = uri)).map (·.shown)).getD uri

/-- What is printed on new findings. -/
def reportUpdate (name : String) (a : Analysis) : Transcript :=
  Transcript.out (name ++ " (v" ++ toString a.version ++ "): " ++ toString a.contexts.length ++
    " stacking context declaration(s), " ++ toString a.diagnostics.length ++
    " ineffective z-index") ++
  a.diagnostics.flatMap fun d => Transcript.out ("  " ++ name ++ ":" ++ d.render)

/-- What is printed when a document cannot be analysed. -/
def reportFailure (name : String) (version : Int) (error : String) : Transcript :=
  Transcript.err (name ++ " (v" ++ toString version ++ "): " ++ error ++ " (keeping last result)")

/-- What is printed and logged on an entry of the session's journal. -/
def report (l : Logging) (files : List WatchedFile) (millis : τ → Int) : Notice τ → Transcript
  | .event (.updated uri a) => l.analysed a ++ reportUpdate (shownName files uri) a
  | .event (.failed uri version error) =>
    l.scheduler .warning ("Keeping previous analysis of " ++ uri ++ ": " ++ error) ++
      reportFailure (shownName files uri) version error
  | .event (.overrun uris waited) =>
    l.scheduler .debug ("Max wait reached after " ++ toString (millis waited) ++ "ms for " ++
      Quoted.renderList (uris.map String.toList))
  | .event (.forgotten _) => []
  | .skipped uri => l.scheduler .debug ("Skipping " ++ uri ++ ": document was closed")
  | .opened _ | .received .. | .triggered .. | .ripened .. => []

/-- Goes on with a session and prints what it told meanwhile. -/
def follow (w : Watch τ) (millis : τ → Int) (session : Session τ) : Watch τ :=
  let news := session.journal.take (session.journal.length - w.session.journal.length)
  { w with
    session
    transcript := w.transcript ++ news.reverse.flatMap (report w.logging w.files millis) }

/-- Prints a line on the error stream. -/
def say (w : Watch τ) (line : String) : Watch τ :=
  { w with transcript := w.transcript ++ Transcript.err line }

/-! ## Looking at files -/

variable [TimeScale τ]

/-- What a reply of the session means for the watch. -/
def abort? : StepReply → Option Abort
  | .refused .beyondClock => some .beyondClock
  | _ => none

/-- Carries out a step of the session. -/
def act (w : Watch τ) (millis : τ → Int) (step : Step) : Watch τ × Option Abort :=
  let (session, reply) := w.session.step step
  (w.follow millis session, abort? reply)

/-- The files of a command line, each address once: at its first place, as it is written last. -/
def filesOf (operands : List FileOperand) : List WatchedFile :=
  (Table.ofList (operands.map fun o => (o.uri, o))).entries.map fun (uri, o) =>
    { uri, path := o.path, shown := o.display }

/-- Remembers what is known of a file. -/
def remember (w : Watch τ) (file : WatchedFile) : Watch τ :=
  { w with files := w.files.map fun (f : WatchedFile) => if f.uri = file.uri then file else f }

/-- Opens a file in the session. -/
def openFile (millis : τ → Int) (tree : FileTree) (file : WatchedFile) (w : Watch τ) :
    Watch τ × Option Abort :=
  match tree.files.get? file.path with
  | none => (w, some .undecodable)
  | some entry =>
    match entry.content.read? with
    | none => (w, some .undecodable)
    | some text =>
      let w := w.remember { file with changedAt := some entry.changedAt }
      w.act millis (.openDocument file.uri text 0)

/-- Treats files one after the other, unless something cuts the watch short. -/
def forEach (treat : WatchedFile → Watch τ → Watch τ × Option Abort) :
    List WatchedFile → Watch τ → Watch τ × Option Abort
  | [], w => (w, none)
  | file :: rest, w =>
    match treat file w with
    | (w, some cause) => (w, some cause)
    | (w, none) => forEach treat rest w

/-- Starts a watch: every file is opened and shown. -/
def start (l : Logging) (settings : Settings) (millis : τ → Int) (tree : FileTree)
    (operands : List FileOperand) : Watch τ × Option Abort :=
  let files := filesOf operands
  let w : Watch τ := { logging := l, files, session := Session.new settings [] }
  match forEach (openFile millis tree) files w with
  | (w, some cause) => (w, some cause)
  | (w, none) => w.act millis (.showDocuments (files.map (·.uri)))

/-- Closes the document of a file that is gone. -/
def lookAtRemoved (millis : τ → Int) (file : WatchedFile) (w : Watch τ) :
    Watch τ × Option Abort :=
  let w := w.remember { file with changedAt := none }
  (w.say (file.shown ++ ": removed")).act millis (.closeDocument file.uri)

/-- Gives the document of a file that was changed its new text, if the file can be read as text. -/
def lookAtChanged (millis : τ → Int) (file : WatchedFile) (entry : FileEntry) (w : Watch τ) :
    Watch τ × Option Abort :=
  let file := { file with changedAt := some entry.changedAt, version := file.version + 1 }
  let w := w.remember file
  match entry.content.read? with
  | none => (w, some .undecodable)
  | some text => w.act millis (.changeDocument file.uri text file.version)

/-- Looks at one file again. -/
def look (millis : τ → Int) (tree : FileTree) (file : WatchedFile) (w : Watch τ) :
    Watch τ × Option Abort :=
  match file.changedAt with
  | none => (w, none)
  | some last =>
    match tree.files.get? file.path with
    | none => w.lookAtRemoved millis file
    | some entry =>
      if entry.changedAt = last then (w, none) else w.lookAtChanged millis file entry

/-- Looks at all files again. -/
def lookAll (millis : τ → Int) (tree : FileTree) (w : Watch τ) : Watch τ × Option Abort :=
  forEach (look millis tree) w.files w

/-- Waits for a while, in which timers go off. -/
def pause (millis : τ → Int) (interval : τ) (w : Watch τ) : Watch τ :=
  let target := TimeScale.add w.session.now interval
  w.follow millis (w.session.runTo (Session.react w.session.hooks.length) target)

end Watch

/-! ## The command -/

/-- What happens to files between two looks. -/
inductive FileChange where
  | write (path : Path) (entry : FileEntry)
  | touch (path : Path) (changedAt : Int)
  | remove (path : Path)

/-- The tree after a change. -/
def FileTree.apply (t : FileTree) : FileChange → FileTree
  | .write path entry => t.write path entry
  | .touch path changedAt => t.touch path changedAt
  | .remove path => t.remove path

namespace Command

/-- A time in seconds as the nearest number of milliseconds. -/
def wholeMillis (seconds : Float) : Int := nearestInt (seconds * 1000.0)

/-- Looks at the files once for each group of changes; after the last the command is stopped. -/
def watchLoop (interval : Float) :
    List (List FileChange) → FileTree → Watch Float → Outcome
  | [], tree, w => ⟨(w.say "Stopped.").transcript, .exit 0, tree⟩
  | changes :: rest, tree, w =>
    let tree := changes.foldl FileTree.apply tree
    match (w.pause wholeMillis interval).lookAll wholeMillis tree with
    | (w, some cause) => ⟨w.transcript, .aborted cause, tree⟩
    | (w, none) => watchLoop interval rest tree w

/-- Watches files, or with `once` analyses them once. -/
def watch (l : Logging) (tree : FileTree) (files : List FileOperand) (settings : Settings)
    (interval : Float) (once : Bool) (changes : List (List FileChange)) : Outcome :=
  match Watch.start l settings wholeMillis tree files with
  | (w, some cause) => ⟨w.transcript, .aborted cause, tree⟩
  | (w, none) =>
    if once then ⟨(w.act wholeMillis .flush).1.transcript, .exit 0, tree⟩
    else watchLoop interval changes tree w

end Command
end Stacking
