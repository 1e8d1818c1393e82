import Stacking.Command.File
import Stacking.Command.Number
import Stacking.Settings
import Stacking.Text.Quoted
import Stacking.Text.Similar

/-!
# Command-line arguments

How the words of a command line are told apart into options and operands, and what can be wrong with
them. Options may stand before or after operands; of an option that is given twice the last value
counts, and its place among the options is the first.
-/

namespace Stacking

/-! ## Errors of use -/

/-- A word as it stands in messages. -/
def quoted (word : String) : String := Quoted.render word.toList

/-- What is wrong with a value. -/
inductive ValueFault where
  | notAChoice (value : String) (choices : List String)
  | notWhole (value : String)
  | notDecimal (value : String)
  | noSuchFile (written : String)
  | isDirectory (written : String)

/-- The wording of a fault. -/
def ValueFault.message : ValueFault → String
  | .notAChoice value choices =>
    quoted value ++ " is not one of " ++ ", ".intercalate (choices.map quoted) ++ "."
  | .notWhole value => quoted value ++ " is not a valid integer."
  | .notDecimal value => quoted value ++ " is not a valid float."
  | .noSuchFile written => "File " ++ quoted written ++ " does not exist."
  | .isDirectory written => "File " ++ quoted written ++ " is a directory."

/-- What is wrong with a command line. -/
inductive UsageFault where
  | missingCommand
  | noSuchCommand (name : String) (similar : List String)
  | noSuchOption (name : String) (similar : List String)
  | valueMissing (option : String)
  | valueUnwanted (option : String)
  | missingOperand (name : String)
  | extraOperands (words : List String)
  | badValue (parameter : String) (fault : ValueFault)
  | badSettings (fault : SettingsFault)

/-- What is said of names that may have been meant. -/
def didYouMean : List String → String
  | [] => ""
  | [name] => " Did you mean " ++ quoted name ++ "?"
  | names => " (Did you mean one of: " ++ ", ".intercalate (names.map quoted) ++ "?)"

/-- The wording of a fault. -/
def UsageFault.message : UsageFault → String
  | .missingCommand => "Missing command."
  | .noSuchCommand name similar => "No such command " ++ quoted name ++ "." ++ didYouMean similar
  | .noSuchOption name similar => "No such option " ++ quoted name ++ "." ++ didYouMean similar
  | .valueMissing option => "Option " ++ quoted option ++ " requires an argument."
  | .valueUnwanted option => "Option " ++ quoted option ++ " does not take a value."
  | .missingOperand name => "Missing argument '" ++ name ++ "'."
  | .extraOperands words =>
    "Got unexpected extra argument" ++ (if words.length = 1 then "" else "s") ++ " (" ++
      " ".intercalate words ++ ")"
  | .badValue parameter fault => "Invalid value for '" ++ parameter ++ "': " ++ fault.message
  | .badSettings fault => "Invalid value: " ++ fault.message

/-! ## Options -/

/-- What an option takes. -/
inductive OptionKind where
  | flag
  | choice (names : List String)
  | whole
  | decimal

/-- An option of a command: its name with the hyphens, and a letter that stands for it. -/
structure OptionSpec where
  name : String
  letter : Option Char := none
  kind : OptionKind

/-- What is wrong with a value of an option. -/
def OptionKind.fault? (kind : OptionKind) (value : String) : Option ValueFault :=
  match kind with
  | .flag => none
  | .choice names => if names.contains value then none else some (.notAChoice value names)
  | .whole => if (whole? value).isSome then none else some (.notWhole value)
  | .decimal => if (decimal? value).isSome then none else some (.notDecimal value)

/-- The words of a command line, told apart. -/
structure Words where
  /-- The options given, by name, flags with an empty value. -/
  options : List (String × String) := []
  operands : List String := []

namespace Words

/-- Whether a word is to be read as an option. -/
def isOption (word : String) : Bool :=
  match word.toList with
  | '-' :: _ :: _ => true
  | _ => false

/-- What one word says: options that are complete, or an option whose value is the next word. -/
inductive Reading where
  | given (options : List (String × String))
  | needsValue (name : String)

/-- The flags for which the letters of a word stand. -/
def readLetters (specs : List OptionSpec) : Text → Except UsageFault (List (String × String))
  | [] => .ok []
  | c :: rest =>
    match specs.find? (·.letter = some c) with
    | none => .error (.noSuchOption (String.ofList ['-', c]) [])
    | some spec =>
      match readLetters specs rest with
      | .error e => .error e
      | .ok others => .ok ((spec.name, "") :: others)

/-- Reads one word as an option. -/
def readOption (specs : List OptionSpec) (word : String) : Except UsageFault Reading :=
  let (nameText, value) := splitWhere (· == '=') word.toList
  let name := String.ofList nameText
  match specs.find? (·.name = name) with
  | some spec =>
    match spec.kind, value with
    | .flag, none => .ok (.given [(name, "")])
    | .flag, some _ => .error (.valueUnwanted name)
    | _, some v => .ok (.given [(name, String.ofList v)])
    | _, none => .ok (.needsValue name)
  | none =>
    match word.toList with
    | '-' :: '-' :: _ => .error (.noSuchOption name (suggestions (specs.map (·.name)) name))
    | _ =>
      match readLetters specs (word.toList.drop 1) with
      | .error e => .error e
      | .ok options => .ok (.given options)

/-- Tells words apart. After the first operand no options are looked for unless they may be `mixed`;
after a double hyphen none are. -/
def read (specs : List OptionSpec) (mixed : Bool) : List String → Except UsageFault Words
  | [] => .ok {}
  | word :: rest =>
    if word = "--" then .ok { operands := rest }
    else if !isOption word then
      if mixed then
        (read specs mixed rest).map fun w => { w with operands := word :: w.operands }
      else .ok { operands := word :: rest }
    else
      match readOption specs word with
      | .error e => .error e
      | .ok (.given options) =>
        (read specs mixed rest).map fun w => { w with options := options ++ w.options }
      | .ok (.needsValue name) =>
        match rest with
        | [] => .error (.valueMissing name)
        | value :: rest =>
          (read specs mixed rest).map fun w => { w with options := (name, value) :: w.options }

/-- The options given, each once: at its first place, with its last value. -/
def table (w : Words) : Table String String := Table.ofList w.options

/-- Whether a flag is given. -/
def has (w : Words) (name : String) : Bool := w.table.contains name

/-- The first wrong value among the options, in the order given. -/
def fault? (w : Words) (specs : List OptionSpec) : Option UsageFault :=
  w.table.entries.findSome? fun (name, value) =>
    match specs.find? (·.name = name) with
    | none => none
    | some spec => (spec.kind.fault? value).map (.badValue name)

end Words

/-! ## Operands -/

/-- Why a command cannot be called as it is. -/
inductive CallFault where
  | usage (fault : UsageFault)
  /-- A written path holds the null character, so that there is no use in looking for it. -/
  | nullInPath

/-- A file given on the command line: as it is written, and its path. -/
structure FileOperand where
  written : String
  path : Path

namespace FileOperand

/-- Takes a word for a file, which has to exist. -/
def read (tree : FileTree) (parameter written : String) : Except CallFault FileOperand :=
  if written.toList.contains '\x00' then .error .nullInPath
  else
    match tree.find written with
    | .file path _ => .ok ⟨written, path⟩
    | .directory => .error (.usage (.badValue parameter (.isDirectory written)))
    | .nothing => .error (.usage (.badValue parameter (.noSuchFile written)))

/-- Takes every word for a file; there has to be at least one. -/
def readAll (tree : FileTree) (words : List String) : Except CallFault (List FileOperand) :=
  if words.isEmpty then .error (.usage (.missingOperand "FILES..."))
  else words.mapM (read tree "FILES...")

/-- Takes the only word for a file. -/
def readOne (tree : FileTree) (words : List String) : Except CallFault FileOperand :=
  match words with
  | [] => .error (.usage (.missingOperand "FILE"))
  | word :: rest =>
    match read tree "FILE" word with
    | .error e => .error e
    | .ok file => if rest.isEmpty then .ok file else .error (.usage (.extraOperands rest))

/-- The address of the file. -/
def uri (f : FileOperand) : String := f.path.uri

/-- The file as its path is shown. -/
def display (f : FileOperand) : String := Path.display f.written

end FileOperand
end Stacking
