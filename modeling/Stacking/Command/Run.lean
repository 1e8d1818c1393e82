import Stacking.Command.Check
import Stacking.Command.Fix
import Stacking.Command.Watch

/-!
# The command line

Which command a command line calls for, and what comes of it.
-/

namespace Stacking
namespace Command

/-- What the program calls itself and its version. -/
def versionLine : String := "stacklens, version 0.1.0"

/-- What is printed when help is asked for. -/
def helpLine : String := "Usage: stacklens [OPTIONS] COMMAND [ARGS]..."

/-- The option that asks for help. -/
def helpOption : OptionSpec := { name := "--help", kind := .flag }

/-- The options before the command. -/
def programOptions : List OptionSpec :=
  [ { name := "--version", kind := .flag },
    { name := "--verbose", letter := some 'v', kind := .flag },
    { name := "--quiet", letter := some 'q', kind := .flag },
    helpOption ]

/-- The names of the formats of reports. -/
def formatNames : List String := ["text", "json"]

/-- The names of the strategies. -/
def strategyNames : List String := ["isolate", "remove"]

/-- The options of `check`. -/
def checkOptions : List OptionSpec :=
  [{ name := "--format", kind := .choice formatNames }, helpOption]

/-- The options of `inspect`. -/
def inspectOptions : List OptionSpec := [helpOption]

/-- The options of `fix`. -/
def fixOptions : List OptionSpec :=
  [ { name := "--strategy", kind := .choice strategyNames }, { name := "--write", kind := .flag },
    helpOption ]

/-- The options of `watch`. -/
def watchOptions : List OptionSpec :=
  [ { name := "--interval", kind := .decimal }, { name := "--debounce-ms", kind := .whole },
    { name := "--max-wait-ms", kind := .whole }, { name := "--once", kind := .flag }, helpOption ]

/-- A command with what it needs, all of it checked. -/
inductive Call where
  | check (files : List FileOperand) (format : ReportFormat)
  | inspect (file : FileOperand)
  | fix (file : FileOperand) (strategy : Strategy) (write : Bool)
  | watch (files : List FileOperand) (settings : Settings) (interval : Float) (once : Bool)
  | help

/-- The call that the words after `check` make. -/
def readCheck (tree : FileTree) (w : Words) : Except CallFault Call := do
  let files ← FileOperand.readAll tree w.operands
  pure (.check files (if w.table.get? "--format" = some "json" then .json else .text))

/-- The call that the words after `inspect` make. -/
def readInspect (tree : FileTree) (w : Words) : Except CallFault Call := do
  let file ← FileOperand.readOne tree w.operands
  pure (.inspect file)

/-- The call that the words after `fix` make. -/
def readFix (tree : FileTree) (w : Words) : Except CallFault Call := do
  let file ← FileOperand.readOne tree w.operands
  let strategy := if w.table.get? "--strategy" = some "remove" then .remove else .isolate
  pure (.fix file strategy (w.has "--write"))

/-- The value of an option that takes a whole number. -/
def wholeOption (w : Words) (name : String) (default : Int) : Int :=
  ((w.table.get? name).bind whole?).getD default

/-- The time between two looks, in seconds. -/
def interval (w : Words) : Float :=
  (((w.table.get? "--interval").bind decimal?).map (·.toFloat)).getD 0.25

/-- The call that the words after `watch` make. -/
def readWatch (tree : FileTree) (w : Words) : Except CallFault Call := do
  let files ← FileOperand.readAll tree w.operands
  match Settings.make (wholeOption w "--debounce-ms" 400) (wholeOption w "--max-wait-ms" 1000)
      defaultHelpUri defaultSource with
  | .error e => throw (.usage (.badSettings e))
  | .ok settings => pure (.watch files settings (interval w) (w.has "--once"))

/-- Reads the words after a command: wrong options come before wrong operands. -/
def readWith (options : List OptionSpec) (read : Words → Except CallFault Call)
    (words : List String) : Except CallFault Call := do
  let w ← (Words.read options true words).mapError CallFault.usage
  if w.has "--help" then pure .help
  else
    match w.fault? options with
    | some fault => throw (.usage fault)
    | none => read w

/-- The names of the commands. -/
inductive CommandName where
  | check
  | fix
  | inspect
  | watch
deriving DecidableEq

/-- All commands. -/
def CommandName.all : List CommandName := [.check, .fix, .inspect, .watch]

/-- The name as it is written. -/
def CommandName.written : CommandName → String
  | .check => "check"
  | .fix => "fix"
  | .inspect => "inspect"
  | .watch => "watch"

/-- The command that is written so. -/
def CommandName.ofWritten? (written : String) : Option CommandName :=
  CommandName.all.find? (·.written = written)

/-- The fault of a command that there is not. -/
def unknownCommand (name : String) : UsageFault :=
  .noSuchCommand name (suggestions (CommandName.all.map (·.written)) name)

/-- Reads the words after a command. -/
def readCall (tree : FileTree) (words : List String) : CommandName → Except CallFault Call
  | .check => readWith checkOptions (readCheck tree) words
  | .inspect => readWith inspectOptions (readInspect tree) words
  | .fix => readWith fixOptions (readFix tree) words
  | .watch => readWith watchOptions (readWatch tree) words

/-- Carries a call out. -/
def carryOut (l : Logging) (tree : FileTree) (changes : List (List FileChange)) : Call → Outcome
  | .check files format => check l tree files format
  | .inspect file => inspect l tree file
  | .fix file strategy write => fix tree file strategy write
  | .watch files settings interval once => watch l tree files settings interval once changes
  | .help => ⟨.out helpLine, .exit 0, tree⟩

/-- How much is logged: all if the command is to be verbose, else only errors if it is to be
quiet. -/
def threshold (w : Words) : LogLevel :=
  if w.has "--verbose" then .debug else if w.has "--quiet" then .error else .warning

/-- What an option that ends the program at once prints, the first of those given. -/
def immediate? (w : Words) : Option String :=
  w.table.keys.findSome? fun name =>
    if name = "--version" then some versionLine
    else if name = "--help" then some helpLine
    else none

/-- The outcome of a wrong command line. -/
def misused (tree : FileTree) (fault : Option UsageFault) : Outcome := ⟨[], .misused fault, tree⟩

/-- The outcome of a command line that asks for one line. -/
def answered (tree : FileTree) (line : String) : Outcome := ⟨.out line, .exit 0, tree⟩

/-- The outcome of words that start with none of the commands. They are read as options first, since
an option may stand where a command is due, after a double hyphen. -/
def withoutCommand (tree : FileTree) (name : String) (rest : List String) : Outcome :=
  match Words.read programOptions false (name :: rest) with
  | .error e => misused tree (some e)
  | .ok w =>
    match immediate? w with
    | some line => answered tree line
    | none => misused tree (some (unknownCommand name))

/-- What a command line comes to: it is settled at once, or it makes a call. -/
inductive Plan where
  | settled (outcome : Outcome)
  | call (logging : Logging) (call : Call)

/-- Reads a command line, with the time that analyses take shown as `elapsed`. -/
def plan (tree : FileTree) (elapsed : String) (words : List String) : Plan :=
  match Words.read programOptions false words with
  | .error e => .settled (misused tree (some e))
  | .ok w =>
    match immediate? w, w.operands with
    | some line, _ => .settled (answered tree line)
    | none, [] =>
      .settled (misused tree (if words.isEmpty then none else some .missingCommand))
    | none, name :: rest =>
      match CommandName.ofWritten? name with
      | none => .settled (withoutCommand tree name rest)
      | some command =>
        match readCall tree rest command with
        | .error e => .settled ⟨[], .ofFault e, tree⟩
        | .ok call => .call ⟨threshold w, elapsed⟩ call

/-- Runs a command line on files, with the changes that happen to them while they are watched. -/
def run (tree : FileTree) (elapsed : String) (changes : List (List FileChange))
    (words : List String) : Outcome :=
  match plan tree elapsed words with
  | .settled outcome => outcome
  | .call logging call => carryOut logging tree changes call

end Command
end Stacking
