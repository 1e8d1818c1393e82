import Stacking.Text.Document

/-!
# Edits

An edit replaces the text of a range by another text. Several edits are applied from the last to
the first, so that the ranges still to come stay valid.
-/

namespace Stacking

/-- The replacement of a range by a new text. -/
structure Edit where
  range : Range
  newText : Text
deriving DecidableEq

namespace Edit

/-- The text after one edit, whose ends are brought within the text. -/
def apply (t : Text) (e : Edit) : Text :=
  t.take (t.offsetAt e.range.start) ++ e.newText ++ t.drop (t.offsetAt e.range.stop)

/-- Whether `e` is applied before `f` or may be: its range starts later, or starts together with
that of `f` and ends no earlier. -/
def isLater (e f : Edit) : Bool :=
  decide (f.range.start < e.range.start) ||
    (f.range.start == e.range.start && decide (f.range.stop ≤ e.range.stop))

/-- The text after all edits, the later ranges first; edits of one range go in the order given,
each on the text that the ones before it left. -/
def applyAll (t : Text) (edits : List Edit) : Text := (edits.mergeSort isLater).foldl apply t

end Edit
end Stacking
