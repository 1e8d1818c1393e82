import Stacking.Analysis
import Stacking.Session.State
import Stacking.Text.Plain

/-!
# Output of commands

What a command prints, and on which stream. Control sequences for terminals are left out, wherever
they come from. Log lines go to the error stream as they are, if they are serious enough for the
chosen verbosity.
-/

namespace Stacking

/-- The two streams that a command prints on. -/
inductive Stream where
  | out
  | err
deriving DecidableEq

/-- What has been printed, in order. -/
abbrev Transcript := List (Stream × String)

namespace Transcript

/-- A text on a stream, without control sequences. -/
def print (stream : Stream) (text : String) : Transcript :=
  [(stream, String.ofList (Text.plain text.toList))]

/-- One line on the output stream. -/
def out (line : String) : Transcript := .print .out (line ++ "\n")

/-- One line on the error stream. -/
def err (line : String) : Transcript := .print .err (line ++ "\n")

/-- All that was printed on a stream. -/
def on (stream : Stream) (t : Transcript) : String :=
  String.join ((t.filter (·.1 = stream)).map (·.2))

end Transcript

/-! ## Logging -/

/-- How serious a log line is. -/
inductive LogLevel where
  | debug
  | warning
  | error
deriving DecidableEq

namespace LogLevel

/-- The name of the level. -/
def name : LogLevel → String
  | .debug => "DEBUG"
  | .warning => "WARNING"
  | .error => "ERROR"

/-- The rank of the level. -/
def rank : LogLevel → Nat
  | .debug => 0
  | .warning => 1
  | .error => 2

end LogLevel

/-- How much is logged. -/
structure Logging where
  /-- The least serious level that is logged. -/
  threshold : LogLevel := .warning
  /-- How the time that an analysis took is shown. -/
  elapsed : String := "0.0"

namespace Logging

/-- A log line, if it is serious enough. -/
def log (l : Logging) (level : LogLevel) (logger message : String) : Transcript :=
  if l.threshold.rank ≤ level.rank then
    [(.err, level.name ++ " " ++ logger ++ ": " ++ message ++ "\n")]
  else []

/-- Logs what an analysis has found. -/
def analysed (l : Logging) (a : Analysis) : Transcript :=
  l.log .debug "stacklens.analysis.analyzer"
    ("Analyzed " ++ a.uri ++ " v" ++ toString a.version ++ ": contexts=" ++
      toString a.propertyRanges.length ++ " rules=" ++ toString a.ruleRanges.length ++
      " diagnostics=" ++ toString a.diagnostics.length ++ " in " ++ l.elapsed ++ "ms")

/-- Logs on behalf of a session. -/
def scheduler (l : Logging) (level : LogLevel) (message : String) : Transcript :=
  l.log level "stacklens.session.scheduler" message

end Logging
end Stacking
