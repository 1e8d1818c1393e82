import Stacking.Analysis
import Stacking.Text.Edit

/-!
# Quick fixes

Two independent corrections for a `z-index` without effect: `isolation: isolate` in front of it, or
the declaration removed. Each is a single edit, computed against the text as it is.
-/

namespace Stacking

/-- A correction. -/
inductive QuickFix where
  /-- Puts a text, which establishes a stacking context, at a point. -/
  | insertIsolation (point : Position) (text : Text)
  /-- Deletes a range. -/
  | removeDeclaration (range : Range)
deriving DecidableEq

/-- Why there is no fix for a finding. -/
inductive FixFault where
  /-- The finding is of another kind. -/
  | unknownCode (code : String)
  /-- The finding stands on a line, counted from the end, that is not there. -/
  | noSuchLine
deriving DecidableEq

/-- The wording of a fault; there is none for a missing line. -/
def FixFault.message? : FixFault → Option String
  | .unknownCode code => some ("No quick fixes for diagnostic code " ++ Quoted.render code.toList)
  | .noSuchLine => none

namespace QuickFix

/-- The name of the kind of fix. -/
def kind : QuickFix → String
  | .insertIsolation .. => "insert-isolation"
  | .removeDeclaration .. => "remove-declaration"

/-- What the fix is offered as. -/
def title : QuickFix → String
  | .insertIsolation .. => "Add `isolation: isolate` to establish a stacking context"
  | .removeDeclaration .. => "Remove ineffective `z-index` declaration"

/-- The edit that carries the fix out. -/
def edit : QuickFix → Edit
  | .insertIsolation point text => ⟨⟨point, point⟩, text⟩
  | .removeDeclaration range => ⟨range, []⟩

/-- The declaration that makes a rule establish a stacking context. -/
def isolation : Text := "isolation: isolate;".toList

/-- The indentation of a line. -/
def indentation (line : Text) : Text := line.takeWhile fun c => c == ' ' || c == '\t'

/-- Puts `isolation: isolate;` on a line of its own in front of the flagged declaration. Past the
last line there is no indentation; a negative line counts from the end. -/
def insertFor (d : Diagnostic) (t : Text) : Except FixFault QuickFix :=
  let start := d.range.start
  let line? := if start.line < t.lineCount then t.lineText? start.line else some []
  match line? with
  | none => .error .noSuchLine
  | some line => .ok (.insertIsolation start (isolation ++ t.lineBreak ++ indentation line))

/-- The content of the line of a position within the text. -/
def lineAt (t : Text) (p : Position) : Text := (t.lineText? p.line).getD []

/-- The end of the deletion, past a semicolon that follows at once. -/
def pastSemicolon (t : Text) (p : Position) : Position :=
  if (lineAt t p)[p.character.toNat]? = some ';' then ⟨p.line, p.character + 1⟩ else p

/-- The end of the deletion when it starts at the start of a line: past the line break, where only
blanks follow and there is a next line. -/
def pastBlankRest (t : Text) (p : Position) : Position :=
  if Text.isAllBlank ((lineAt t p).drop p.character.toNat) && decide (p.line + 1 < t.lineCount) then
    ⟨p.line + 1, 0⟩
  else p

/-- Deletes the flagged declaration with its semicolon. Where only blanks stand in front of it on
its line they go too, and where also nothing follows the whole line goes. -/
def removeFor (d : Diagnostic) (t : Text) : QuickFix :=
  let target := t.clampRange d.range
  let start := target.start
  let stop := pastSemicolon t target.stop
  if Text.isAllBlank ((lineAt t start).take start.character.toNat) then
    .removeDeclaration ⟨⟨start.line, 0⟩, pastBlankRest t stop⟩
  else .removeDeclaration ⟨start, stop⟩

/-- The fixes for a finding: the insertion, then the removal. -/
def forDiagnostic (d : Diagnostic) (t : Text) : Except FixFault (List QuickFix) :=
  if d.code ≠ ineffectiveCode then .error (.unknownCode d.code)
  else
    match insertFor d t with
    | .error e => .error e
    | .ok insertion => .ok [insertion, removeFor d t]

end QuickFix
end Stacking
