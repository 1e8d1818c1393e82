import Stacking.Text.Position
import Stacking.Text.Quoted

/-!
# Parse errors

Why a text is not a stylesheet, and where. `ParseError.message` holds the wording of each cause.
-/

namespace Stacking

/-- A message with its place in front, where the line is known and counts from one. -/
def renderAt (line column : Option Int) (message : String) : String :=
  match line with
  | none => message
  | some l =>
    if 0 < l then
      "line " ++ toString l ++ ", column " ++ ((column.map toString).getD "None") ++ ": " ++ message
    else message

/-- The causes for which a text is not a stylesheet. -/
inductive ParseFault where
  /-- A token that no stylesheet continues with. -/
  | unexpectedToken (text : Text)
  /-- A character at which no token starts. -/
  | unexpectedCharacter (character : Char)
  /-- The text ends within a statement or a block. -/
  | unexpectedEnd
  /-- A declaration without a colon, or with nothing in front of its colon. -/
  | malformedDeclaration (text : Text)
deriving DecidableEq

/-- The wording of a cause. -/
def ParseFault.message : ParseFault → String
  | .unexpectedToken text => "Unexpected " ++ Quoted.render text
  | .unexpectedCharacter c => "Unexpected character " ++ Quoted.render [c]
  | .unexpectedEnd => "Unexpected end of input (unclosed block?)"
  | .malformedDeclaration text => "Expected 'property: value', got " ++ Quoted.render text

/-- A cause and its place in the source. -/
structure ParseError where
  fault : ParseFault
  place : SourcePosition
deriving DecidableEq

/-- The error as it is reported. -/
def ParseError.message (e : ParseError) : String :=
  renderAt (some e.place.line) (some e.place.column) e.fault.message

/-- Results can be compared where errors cannot. -/
theorem ParseError.eq_ok_of_toOption {α : Type} {x : Except ParseError α} {a : α}
    (h : x.toOption = some a) : x = .ok a := by
  cases x with
  | error e => exact nomatch h
  | ok b => exact congrArg Except.ok (Option.some.inj h)

end Stacking
