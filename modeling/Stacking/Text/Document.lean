import Stacking.Text.Position

/-!
# Lines, offsets and positions of a text

A text is read in two ways: as one list of characters, addressed by offsets, and as a list of
lines, addressed by positions. A line ends at a line feed; the carriage returns before it belong
to the line but not to its content. `offsetAt` takes any position to the nearest offset and
`positionAt` takes any offset to its position.
-/

namespace Stacking
namespace Text

/-! ## Lines -/

/-- The lines of a text, without their line feeds. Every text has at least one line. -/
def lines (t : Text) : List Text := splitOn '\n' t

/-- The number of lines. -/
def lineCount (t : Text) : Nat := t.lines.length

theorem lineCount_pos (t : Text) : 0 < t.lineCount :=
  List.length_pos_iff.mpr (splitOn_ne_nil '\n' t)

/-- What stands on a line: the line without the carriage returns at its end. -/
def lineContent (line : Text) : Text := line.dropEndWhile (· == '\r')

/-- The offset at which line `n` starts. -/
def lineStart (t : Text) (n : Nat) : Nat :=
  (t.lines.take n).foldr (fun line offset => line.length + 1 + offset) 0

/-- The content of line `n`, or `none` where there is no such line. A negative number counts
lines from the end; as the text's end is then not taken for a line end, the last line, number
`-1`, comes without its last character. -/
def lineText? (t : Text) (n : Int) : Option Text :=
  if 0 ≤ n then t.lines[n.toNat]?.map lineContent
  else if n = -1 then t.lines.getLast?.map fun line => lineContent line.dropLast
  else t.lines.reverse[(-n - 1).toNat]?.map lineContent

/-- The line break the document uses, judged by its first one. -/
def lineBreak (t : Text) : Text :=
  match t.lines with
  | line :: _ :: _ => if line.getLast? = some '\r' then ['\r', '\n'] else ['\n']
  | _ => ['\n']

/-! ## Offsets and positions -/

/-- The offset nearest to a position: a line before the first counts as the start of the text, a
line past the last as its end, and a character is kept within its line's content. -/
def offsetAt (t : Text) (p : Position) : Nat :=
  if p.line < 0 then 0
  else
    match t.lines[p.line.toNat]? with
    | none => t.length
    | some line => t.lineStart p.line.toNat + min p.character.toNat (lineContent line).length

/-- The line and character of an offset within the given lines, the first of which has number
`n`. -/
def locate (n : Nat) : List Text → Nat → Nat × Nat
  | [], offset => (n, offset)
  | line :: rest, offset =>
    if rest.isEmpty || offset ≤ line.length then (n, offset)
    else locate (n + 1) rest (offset - (line.length + 1))

/-- The position of an offset, which is first brought within the text. -/
def positionAt (t : Text) (offset : Int) : Position :=
  let (line, character) := locate 0 t.lines (min offset.toNat t.length)
  ⟨line, character⟩

/-- The range with both ends brought within the document. -/
def clampRange (t : Text) (r : Range) : Range :=
  ⟨t.positionAt (t.offsetAt r.start), t.positionAt (t.offsetAt r.stop)⟩

end Text
end Stacking
