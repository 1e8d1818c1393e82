import Stacking.Proofs.Text.Lines

/-!
# Places that move

When a part of a text is replaced, what stands behind it moves: by a number of lines, and on the
line of the replacement also by a number of columns. This file gives the new places.

* `SourcePosition.moved` follows a place behind the replacement.
* `SourcePosition.startMoved` and `SourcePosition.stopMoved` follow the start and the end of
  anything that the replacement does not cut.
* `Range.pushed` follows a range when a text is put in at a point.
-/

namespace Stacking
namespace SourcePosition

/-- Places are ordered by line, then by column. -/
instance : LT SourcePosition where
  lt p q := p.line < q.line ∨ (p.line = q.line ∧ p.column < q.column)

instance (p q : SourcePosition) : Decidable (p < q) :=
  inferInstanceAs (Decidable (p.line < q.line ∨ (p.line = q.line ∧ p.column < q.column)))

theorem lt_iff {p q : SourcePosition} :
    p < q ↔ p.line < q.line ∨ (p.line = q.line ∧ p.column < q.column) :=
  Iff.rfl

/-- What becomes of the place `q` when the text behind `a` is moved behind `b`. -/
def moved (a b q : SourcePosition) : SourcePosition :=
  if q.line = a.line then ⟨b.line, b.column + (q.column - a.column)⟩
  else ⟨b.line + (q.line - a.line), q.column⟩

/-- What becomes of a start: it moves unless it is in front of `s`. -/
def startMoved (s a b q : SourcePosition) : SourcePosition := if q < s then q else moved a b q

/-- What becomes of an end: it moves if it is behind `s`. -/
def stopMoved (s a b q : SourcePosition) : SourcePosition := if s < q then moved a b q else q

theorem advance_eq (w : Text) : ∃ (ls : List Text) (l : Text),
    (ls = [] → l = w) ∧
      ∀ q : SourcePosition, q.advance w =
        ⟨q.line + ls.length, (if ls = [] then q.column else 1) + l.length⟩ := by
  obtain ⟨ls, l, m, ms, h⟩ := Text.exists_cut w []
  refine ⟨ls, l, ?_, Text.advance_eq_of_lines h.left⟩
  rintro rfl
  have hw : w.lines = [l] := h.left
  obtain ⟨_, ⟨_, rfl⟩ | ⟨t', _, ht'⟩⟩ := Text.lines_eq_cons hw
  · rfl
  · exact absurd ht' (Text.splitOn_ne_nil '\n' t')

theorem moved_advance (a b : SourcePosition) (w : Text) :
    moved a b (a.advance w) = b.advance w := by
  obtain ⟨ls, l, _, hadv⟩ := advance_eq w
  rw [hadv, hadv, moved]
  cases ls with
  | nil =>
    rw [if_pos (by simp only [List.length_nil]; omega)]
    simp only [List.length_nil, if_true, SourcePosition.mk.injEq]
    omega
  | cons first ls =>
    simp only [List.length_cons, reduceCtorEq, if_false]
    rw [if_neg (by omega)]
    simp only [SourcePosition.mk.injEq, and_true]
    omega

theorem lt_advance (p : SourcePosition) {w : Text} (h : w ≠ []) : p < p.advance w := by
  obtain ⟨ls, l, hl, hadv⟩ := advance_eq w
  rw [hadv, lt_iff]
  cases ls with
  | nil =>
    have := List.length_pos_iff.mpr (hl rfl ▸ h)
    simp only [List.length_nil, if_true]
    omega
  | cons first ls =>
    simp only [List.length_cons]
    omega

theorem not_advance_lt (p : SourcePosition) (w : Text) : ¬p.advance w < p := by
  obtain ⟨ls, l, hl, hadv⟩ := advance_eq w
  rw [hadv, lt_iff]
  cases ls with
  | nil => simp only [List.length_nil, if_true]; omega
  | cons first ls => simp only [List.length_cons]; omega

theorem startMoved_of_advance (a b : SourcePosition) (v w : Text) {s : SourcePosition}
    (h : a = s.advance v) : startMoved s a b (a.advance w) = b.advance w := by
  rw [startMoved, if_neg, moved_advance]
  rw [h, ← advance_append]
  exact not_advance_lt s (v ++ w)

theorem stopMoved_of_advance (a b : SourcePosition) (v : Text) {w : Text} (hw : w ≠ [])
    {s : SourcePosition} (h : a = s.advance v) :
    stopMoved s a b (a.advance w) = b.advance w := by
  rw [stopMoved, if_pos, moved_advance]
  rw [h, ← advance_append]
  exact lt_advance s (by simp [hw])

theorem startMoved_of_before {s : SourcePosition} (a b q : SourcePosition) {w : Text} (hw : w ≠ [])
    (h : s = q.advance w) : startMoved s a b q = q := by
  rw [startMoved, if_pos]
  rw [h]
  exact lt_advance q hw

theorem stopMoved_of_before {s : SourcePosition} (a b q : SourcePosition) (w : Text)
    (h : s = q.advance w) : stopMoved s a b q = q := by
  rw [stopMoved, if_neg]
  rw [h]
  exact not_advance_lt q w

/-- When a text is put in at `a`, what started in front of `a` stays, and nothing else comes
there. -/
theorem startMoved_eq_iff {a b p q : SourcePosition} (hb : a < b) (hp : p < a) :
    startMoved a a b q = p ↔ q = p := by
  rw [startMoved]
  split
  · rfl
  · rename_i hq
    obtain ⟨line, column⟩ := q
    obtain ⟨line', column'⟩ := p
    simp only [lt_iff] at hb hp hq
    simp only [moved, SourcePosition.mk.injEq]
    split <;> simp only [SourcePosition.mk.injEq] <;> omega

end SourcePosition

/-! ## Positions of editors -/

namespace Position

theorem le_iff {p q : Position} :
    p ≤ q ↔ p.line < q.line ∨ (p.line = q.line ∧ p.character ≤ q.character) := Iff.rfl

theorem lt_iff {p q : Position} :
    p < q ↔ p.line < q.line ∨ (p.line = q.line ∧ p.character < q.character) := Iff.rfl

theorem eq_iff {p q : Position} : p = q ↔ p.line = q.line ∧ p.character = q.character := by
  cases p
  cases q
  simp

/-- Moving on through a text leads to no position in front. -/
theorem ofSource_le_advance (p : SourcePosition) (w : Text) :
    ofSource p ≤ ofSource (p.advance w) := by
  have h := p.not_advance_lt w
  simp only [SourcePosition.lt_iff] at h
  simp only [le_iff, ofSource]
  omega

theorem ofSource_lt_advance (p : SourcePosition) {w : Text} (hw : w ≠ []) :
    ofSource p < ofSource (p.advance w) := by
  have h := p.lt_advance hw
  simp only [SourcePosition.lt_iff] at h
  simp only [lt_iff, ofSource]
  omega

end Position

theorem Text.positionAfter_le_append (x w : Text) : positionAfter x ≤ positionAfter (x ++ w) := by
  rw [positionAfter, positionAfter, SourcePosition.advance_append]
  exact Position.ofSource_le_advance _ w

theorem Text.positionAfter_lt_append (x : Text) {w : Text} (hw : w ≠ []) :
    positionAfter x < positionAfter (x ++ w) := by
  rw [positionAfter, positionAfter, SourcePosition.advance_append]
  exact Position.ofSource_lt_advance _ hw

/-- The source position that an editor's position names. -/
def Position.toSource (p : Position) : SourcePosition := ⟨p.line + 1, p.character + 1⟩

theorem Position.toSource_ofSource (p : SourcePosition) : (ofSource p).toSource = p := by
  obtain ⟨line, column⟩ := p
  simp [ofSource, toSource]

/-- Where a range is when a text is put in at a point. A text at either end of the range stays
outside. -/
def Range.pushed (point : Position) (text : Text) (r : Range) : Range :=
  let a := point.toSource
  let b := a.advance text
  ⟨.ofSource (a.startMoved a b r.start.toSource), .ofSource (a.stopMoved a b r.stop.toSource)⟩

end Stacking
