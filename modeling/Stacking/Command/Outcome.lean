import Stacking.Command.Arguments
import Stacking.Command.Output

/-!
# Outcomes of commands

What a command leaves behind: what it printed, how it ended, and the files.
-/

namespace Stacking

/-- What cuts a command short. -/
inductive Abort where
  /-- A file holds no text. -/
  | undecodable
  /-- A written path holds the null character. -/
  | nullInPath
  /-- A time is too long for the clock. -/
  | beyondClock
deriving DecidableEq

/-- The wording of what cuts a command short. -/
def Abort.message : Abort → String
  | .undecodable => "not a UTF-8 text"
  | .nullInPath => "embedded null byte"
  | .beyondClock => "int too large to convert to float"

/-- How a command ends. -/
inductive Ending where
  | exit (code : Nat)
  /-- The command line is wrong; without a fault, it is empty. -/
  | misused (fault : Option UsageFault)
  | aborted (cause : Abort)

/-- What is said when a command line is wrong. -/
def UsageFault.report (fault : UsageFault) : Transcript := .err ("Error: " ++ fault.message)

/-- The exit code of an ending. -/
def Ending.code : Ending → Nat
  | .exit code => code
  | .misused _ => 2
  | .aborted _ => 1

/-- How a command ends that cannot be called as it is. -/
def Ending.ofFault : CallFault → Ending
  | .usage fault => .misused (some fault)
  | .nullInPath => .aborted .nullInPath

/-- What a command leaves behind. -/
structure Outcome where
  transcript : Transcript
  ending : Ending
  tree : FileTree

/-- The text of a file given on the command line; there is none if the file holds no text. -/
def FileOperand.text? (tree : FileTree) (f : FileOperand) : Option Text :=
  (tree.files.get? f.path).bind (·.content.read?)

end Stacking
