import Stacking.Text.Basic

/-!
# Positions and ranges

Two ways to name a place in a text. A `SourcePosition` counts lines and columns from one, as
messages and syntax trees do; a `Position` counts lines and characters from zero, as editors do.
Editors may send any integers, so both are pairs of integers, and a `Range` need not be ordered.
-/

namespace Stacking

/-! ## Source positions -/

/-- A place in a source text, counted from line 1, column 1. -/
structure SourcePosition where
  line : Int
  column : Int
deriving DecidableEq

namespace SourcePosition

/-- The first place of every text. -/
def first : SourcePosition := ⟨1, 1⟩

/-- The place after one more character; only a line feed starts a line. -/
def next (p : SourcePosition) (c : Char) : SourcePosition :=
  if c = '\n' then ⟨p.line + 1, 1⟩ else ⟨p.line, p.column + 1⟩

/-- The place just past a text that starts at `p`. -/
def advance (p : SourcePosition) (t : Text) : SourcePosition := t.foldl next p

theorem advance_append (p : SourcePosition) (a b : Text) :
    p.advance (a ++ b) = (p.advance a).advance b :=
  List.foldl_append ..

end SourcePosition

/-- The place where a piece of source starts and the place just past its last character. -/
structure Span where
  start : SourcePosition
  stop : SourcePosition
deriving DecidableEq

/-! ## Editor positions -/

/-- A place in a document, counted from line 0, character 0. -/
structure Position where
  line : Int
  character : Int
deriving DecidableEq

namespace Position

/-- Positions are ordered by line, then by character. -/
instance : LE Position where
  le p q := p.line < q.line ∨ (p.line = q.line ∧ p.character ≤ q.character)

/-- The strict order of positions. -/
instance : LT Position where
  lt p q := p.line < q.line ∨ (p.line = q.line ∧ p.character < q.character)

instance (p q : Position) : Decidable (p ≤ q) :=
  inferInstanceAs (Decidable (p.line < q.line ∨ (p.line = q.line ∧ p.character ≤ q.character)))

instance (p q : Position) : Decidable (p < q) :=
  inferInstanceAs (Decidable (p.line < q.line ∨ (p.line = q.line ∧ p.character < q.character)))

/-- The editor's name for a source position. -/
def ofSource (p : SourcePosition) : Position := ⟨p.line - 1, p.column - 1⟩

/-- Positions in ascending order, equal ones in the order given. -/
def sort (ps : List Position) : List Position := ps.mergeSort fun p q => decide (p ≤ q)

/-- A position as people read it, counted from one. -/
def render (p : Position) : String := s!"{p.line + 1}:{p.character + 1}"

end Position

/-! ## Ranges -/

/-- The half-open stretch of a document from `start` up to `stop`. -/
structure Range where
  start : Position
  stop : Position
deriving DecidableEq

namespace Range

/-- The range that a source span covers. -/
def ofSpan (s : Span) : Range := ⟨.ofSource s.start, .ofSource s.stop⟩

/-- Whether the range covers nothing. -/
def isEmpty (r : Range) : Bool := r.start == r.stop

/-- Whether a position touches the range; its end counts as inside. -/
def contains (r : Range) (p : Position) : Bool := decide (r.start ≤ p) && decide (p ≤ r.stop)

/-- The measure by which ranges compare in size: the number of line breaks, then the width of
a one-line range or the end column of a longer one. -/
def sizeKey (r : Range) : Int × Int :=
  let lines := r.stop.line - r.start.line
  if lines = 0 then (0, r.stop.character - r.start.character) else (lines, r.stop.character)

/-- Whether `r` counts as strictly smaller than `s`. -/
def isSmaller (r s : Range) : Bool :=
  decide (r.sizeKey.1 < s.sizeKey.1) ||
    (r.sizeKey.1 == s.sizeKey.1 && decide (r.sizeKey.2 < s.sizeKey.2))

/-- A range as people read it, both ends counted from one. -/
def render (r : Range) : String := r.start.render ++ "-" ++ r.stop.render

end Range
end Stacking
