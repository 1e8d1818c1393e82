import Stacking.Analysis
import Stacking.Text.Document

/-!
# Hovers

What an editor shows when the pointer rests on a position: the smallest declaration there that
establishes a stacking context or, past the end of such a line, the rule around it.
-/

namespace Stacking

/-- A message about a range. -/
structure Hover where
  range : Range
  message : String
deriving DecidableEq

namespace Hover

/-- What is said on a declaration. -/
def declarationMessage : String := "This property introduces a new stacking context"

/-- What is said past the end of a line, of the rule around it. -/
def ruleMessage (c : StackingContext) : String :=
  "This rule establishes a new stacking context (" ++ c.property ++ ": " ++ c.value ++ ")"

/-- The context with the smallest range, the first of them in case of a tie. -/
def smallest (best : StackingContext) : List StackingContext → StackingContext
  | [] => best
  | c :: rest => smallest (if c.range.isSmaller best.range then c else best) rest

/-- Whether a position is at the end of its line, or past it: one character further is no other
place of the text. -/
def atLineEnd (t : Text) (p : Position) : Bool :=
  (t.clampRange ⟨p, ⟨p.line, p.character + 1⟩⟩).isEmpty

/-- The hover at a position, where there is one. -/
def at? (contexts : List StackingContext) (t : Text) (p : Position) : Option Hover :=
  match contexts.filter (·.range.contains p) with
  | c :: rest => some ⟨(smallest c rest).range, declarationMessage⟩
  | [] =>
    if atLineEnd t p then
      (contexts.find? (·.range.stop.line == p.line)).map fun c =>
        ⟨c.ruleRange.getD c.range, ruleMessage c⟩
    else none

end Hover
end Stacking
