import Stacking.Command.JsonValue
import Stacking.Command.Outcome

/-!
# Checking files

`check` prints the findings in files and fails if there is one or a file cannot be parsed.
`inspect` lists what establishes stacking contexts in a file.
-/

namespace Stacking

/-- The forms in which findings are reported. -/
inductive ReportFormat where
  | text
  | json
deriving DecidableEq

/-- What is known of the files checked so far. -/
structure CheckState where
  transcript : Transcript := []
  /-- What is reported of each file in JSON. -/
  report : Table String JsonValue := {}
  total : Nat := 0
  failed : Bool := false

namespace CheckState

/-- Takes the findings of a file into account. -/
def addFindings (format : ReportFormat) (file : String) (a : Analysis) (s : CheckState) :
    CheckState :=
  match format with
  | .json =>
    { s with
      total := s.total + a.diagnostics.length
      report := s.report.put file (.list (a.diagnostics.map JsonValue.ofDiagnostic)) }
  | .text =>
    { s with
      total := s.total + a.diagnostics.length
      transcript :=
        s.transcript ++ a.diagnostics.flatMap fun d => Transcript.out (file ++ ":" ++ d.render) }

/-- Takes a file that cannot be parsed into account. -/
def addFailure (file : String) (e : ParseError) (s : CheckState) : CheckState :=
  { s with
    failed := true
    transcript := s.transcript ++ Transcript.err (file ++ ": parse error: " ++ e.message)
    report := s.report.put file (.object [("error", .text e.message)]) }

/-- Checks the text of a file. -/
def addFile (l : Logging) (format : ReportFormat) (file : FileOperand) (text : Text)
    (s : CheckState) : CheckState :=
  match Analysis.ofText file.uri 0 {} text with
  | .error e => s.addFailure file.written e
  | .ok a =>
    { s with transcript := s.transcript ++ l.analysed a }.addFindings format file.written a

/-- Checks files in turn, up to the first that holds no text. -/
def addFiles (l : Logging) (format : ReportFormat) (tree : FileTree) :
    List FileOperand → CheckState → CheckState × Bool
  | [], s => (s, true)
  | file :: rest, s =>
    match file.text? tree with
    | none => (s, false)
    | some text => addFiles l format tree rest (s.addFile l format file text)

/-- What is printed when all files are checked. -/
def conclusion (format : ReportFormat) (files : Nat) (s : CheckState) : Transcript :=
  match format with
  | .json => .out (JsonValue.object s.report.entries).render
  | .text =>
    .out ("\nSummary: " ++ toString s.total ++ " ineffective z-index declaration(s) in " ++
      toString files ++ " file(s)")

end CheckState

namespace Command

/-- Prints the findings in files. -/
def check (l : Logging) (tree : FileTree) (files : List FileOperand) (format : ReportFormat) :
    Outcome :=
  match CheckState.addFiles l format tree files {} with
  | (s, false) => ⟨s.transcript, .aborted .undecodable, tree⟩
  | (s, true) =>
    let code := if s.failed || s.total ≠ 0 then 1 else 0
    ⟨s.transcript ++ s.conclusion format files.length, .exit code, tree⟩

/-- What `inspect` prints of a file. -/
def inspection (file : String) (a : Analysis) : Transcript :=
  [ "File: " ++ file,
    "Stacking contexts: " ++ toString a.contexts.length,
    "Rules: " ++ toString a.ruleRanges.length,
    "Ineffective z-index: " ++ toString a.diagnostics.length,
    "",
    "Declarations:" ].flatMap Transcript.out ++
  (a.contexts.flatMap fun c =>
    Transcript.out ("  " ++ c.range.render ++ "  " ++ c.property ++ ": " ++ c.value)) ++
  Transcript.out "" ++ Transcript.out "Rules:" ++
  a.ruleRanges.flatMap fun r => Transcript.out ("  " ++ r.render)

/-- Lists what establishes stacking contexts in a file. -/
def inspect (l : Logging) (tree : FileTree) (file : FileOperand) : Outcome :=
  match file.text? tree with
  | none => ⟨[], .aborted .undecodable, tree⟩
  | some text =>
    match Analysis.ofText file.uri 0 {} text with
    | .error e => ⟨.err ("Parse error: " ++ e.message), .exit 1, tree⟩
    | .ok a => ⟨l.analysed a ++ inspection file.written a, .exit 0, tree⟩

end Command
end Stacking
