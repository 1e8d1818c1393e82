import Stacking.Text.Position

/-!
# Diagnostics

A diagnostic is a finding about a stretch of a document, in the form in which editors show it.
-/

namespace Stacking

/-- The code of the finding that a `z-index` has no effect. -/
def ineffectiveCode : String := "ineffective-z-index"

/-- Where the rules of stacking contexts are explained. -/
def defaultHelpUri : String :=
  "https://developer.mozilla.org/en-US/docs/Web/CSS/CSS_Positioning/" ++
    "Understanding_z_index/The_stacking_context"

/-- The name under which findings are published. -/
def defaultSource : String := "stacklens"

/-- What the finding about a `z-index` without effect says. -/
def ineffectiveMessage : String :=
  "z-index has no effect: this rule does not establish a stacking context " ++
    "(add position: relative or absolute, or isolation: isolate)"

/-- How serious a finding is. -/
inductive Severity where
  | error
  | warning
  | info
  | hint
deriving DecidableEq

/-- How a finding may be rendered. -/
inductive DiagnosticTag where
  | unnecessary
  | deprecated
deriving DecidableEq

/-- A number that stands for no severity or no tag. -/
inductive DiagnosticFault where
  | unknownSeverity (number : Int)
  | unknownTag (number : Int)
deriving DecidableEq

/-- The wording of a fault. -/
def DiagnosticFault.message : DiagnosticFault → String
  | .unknownSeverity n => toString n ++ " is not a valid Severity"
  | .unknownTag n => toString n ++ " is not a valid DiagnosticTag"

namespace Severity

/-- The number by which editors know the severity. -/
def number : Severity → Int
  | .error => 1
  | .warning => 2
  | .info => 3
  | .hint => 4

/-- The severity with a given number. -/
def ofNumber (n : Int) : Except DiagnosticFault Severity :=
  match [Severity.error, .warning, .info, .hint].find? (·.number == n) with
  | some s => .ok s
  | none => .error (.unknownSeverity n)

/-- The name of the severity. -/
def name : Severity → String
  | .error => "error"
  | .warning => "warning"
  | .info => "info"
  | .hint => "hint"

end Severity

namespace DiagnosticTag

/-- The number by which editors know the tag. -/
def number : DiagnosticTag → Int
  | .unnecessary => 1
  | .deprecated => 2

/-- All tags, by number. -/
def all : List DiagnosticTag := [.unnecessary, .deprecated]

/-- The tag with a given number. -/
def ofNumber (n : Int) : Except DiagnosticFault DiagnosticTag :=
  match all.find? (·.number == n) with
  | some t => .ok t
  | none => .error (.unknownTag n)

end DiagnosticTag

/-- A finding about a stretch of a document. -/
structure Diagnostic where
  range : Range
  message : String
  severity : Severity := .warning
  code : String := ineffectiveCode
  helpUri : String := defaultHelpUri
  tags : List DiagnosticTag := [.unnecessary]
  source : String := defaultSource
deriving DecidableEq

namespace Diagnostic

/-- Whether the finding is a warning. -/
def isWarning (d : Diagnostic) : Bool := d.severity == .warning

/-- The numbers of the tags, each once and in ascending order. -/
def tagNumbers (d : Diagnostic) : List Int :=
  (DiagnosticTag.all.filter d.tags.contains).map (·.number)

/-- The finding on one line, its place counted from one. -/
def render (d : Diagnostic) : String :=
  d.range.start.render ++ ": " ++ d.severity.name ++ ": " ++ d.message ++ " [" ++ d.code ++ "]"

end Diagnostic
end Stacking
