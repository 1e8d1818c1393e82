import Stacking.Proofs.Text.Correspondence

/-!
# Counters of places agree

The place behind a text can be counted in several ways: character by character
(`SourcePosition.advance`), from the number of line feeds and the offset of the last one
(`SourcePosition.leap`), afresh for the text as a whole (`SourcePosition.behind`), by walking along
the lines of a document (`Text.positionAt`), and by looking through the offsets at which the lines
start (`Text.scanStarts`). `SourcePosition.counters_agree` says that all of them come to the same,
however the text in front is divided and whatever follows it.
-/

namespace Stacking
namespace Text

/-! ## The last line feed -/

/-- The offset of the last line feed, for texts that have one. -/
def lastLineFeed (t : Text) : Nat := t.length - 1 - t.reverse.idxOf '\n'

theorem lastLineFeed_lineFeed (x : Text) : (x ++ ['\n']).lastLineFeed = x.length := by
  simp [lastLineFeed]

theorem lastLineFeed_append {x : Text} {c : Char} (hc : c ≠ '\n') :
    (x ++ [c]).lastLineFeed = x.lastLineFeed := by
  have hidx : (c :: x.reverse).idxOf '\n' = x.reverse.idxOf '\n' + 1 := List.idxOf_cons_ne _ hc
  rw [lastLineFeed, lastLineFeed, List.reverse_append, List.reverse_singleton,
    List.singleton_append, hidx, List.length_append, List.length_singleton]
  omega

/-! ## The starts of lines -/

/-- The offsets behind the line feeds of a text whose first character has offset `n`. -/
def feedEnds (n : Nat) (t : Text) : List Nat :=
  ((t.zipIdx n).filter (·.1 = '\n')).map (·.2 + 1)

/-- The offsets at which the lines of a text start. -/
def lineStarts (t : Text) : List Nat := 0 :: feedEnds 0 t

/-- The position of an offset, counted from the last line that starts there or in front of it. -/
def scanStarts (t : Text) (offset : Nat) : Position :=
  let passed := t.lineStarts.takeWhile (· ≤ offset)
  ⟨(passed.length : Int) - 1, (offset : Int) - passed.getLastD 0⟩

theorem feedEnds_append (n : Nat) (x y : Text) :
    feedEnds n (x ++ y) = feedEnds n x ++ feedEnds (n + x.length) y := by
  simp only [feedEnds, List.zipIdx_append, List.filter_append, List.map_append]

theorem mem_feedEnds_le {n k : Nat} {t : Text} (h : k ∈ feedEnds n t) :
    n < k ∧ k ≤ n + t.length := by
  obtain ⟨⟨c, i⟩, hmem, rfl⟩ := List.mem_map.mp h
  obtain ⟨hle, hlt, -⟩ := List.mem_zipIdx (List.mem_filter.mp hmem).1
  exact ⟨by omega, by omega⟩

theorem lineStarts_append (x y : Text) :
    (x ++ y).lineStarts = x.lineStarts ++ feedEnds x.length y := by
  rw [lineStarts, lineStarts, feedEnds_append, Nat.zero_add, List.cons_append]

/-- At the end of `x` all lines of `x` have started, and none of what follows. -/
theorem takeWhile_lineStarts (x y : Text) :
    (x ++ y).lineStarts.takeWhile (· ≤ x.length) = x.lineStarts := by
  rw [lineStarts_append, List.takeWhile_append_of_pos, List.takeWhile_eq_nil_iff.mpr,
    List.append_nil]
  · intro hpos
    have := mem_feedEnds_le (List.get_mem (feedEnds x.length y) ⟨0, hpos⟩)
    simp only [decide_eq_true_eq]
    omega
  · intro k hk
    rw [lineStarts, List.mem_cons] at hk
    rcases hk with rfl | hk
    · simp
    · have := mem_feedEnds_le hk
      simp only [decide_eq_true_eq]
      omega

theorem lineStarts_concat (x : Text) (c : Char) :
    (x ++ [c]).lineStarts = if c = '\n' then x.lineStarts ++ [x.length + 1] else x.lineStarts := by
  rw [lineStarts_append]
  split <;> simp [feedEnds, *]

/-- There are as many line starts as line feeds and one more; the last one stands in front of what
follows the last line feed. -/
theorem lineStarts_spec (x : Text) :
    x.lineStarts.length = x.count '\n' + 1 ∧
      x.lineStarts.getLastD 0 + (x.rtakeWhile (· ≠ '\n')).length = x.length := by
  induction x using List.reverseRecOn with
  | nil => exact ⟨rfl, rfl⟩
  | append_singleton x c ih =>
    obtain ⟨hlength, hlast⟩ := ih
    rw [lineStarts_concat]
    by_cases hc : c = '\n'
    · subst hc
      rw [if_pos rfl, List.rtakeWhile_concat_neg _ _ _ (by simp)]
      simp [hlength]
    · rw [if_neg hc, List.rtakeWhile_concat_pos _ _ _ (by simpa using hc)]
      simp only [List.length_append, List.count_append, List.length_singleton]
      rw [List.count_singleton, if_neg (by simpa using hc)]
      omega

theorem scanStarts_eq (x y : Text) : (x ++ y).scanStarts x.length = positionAfter x := by
  obtain ⟨hlength, hlast⟩ := lineStarts_spec x
  rw [scanStarts, takeWhile_lineStarts, positionAfter_eq, Position.mk.injEq]
  omega

end Text

namespace SourcePosition

/-! ## The place behind a text -/

/-- The place just past a text, counted for the text as a whole. -/
def behind (t : Text) : SourcePosition :=
  ⟨1 + t.count '\n', 1 + (t.rtakeWhile (· ≠ '\n')).length⟩

/-- The place just past a text that starts at `p`, counted at once: without a line feed the text
adds to the column, else the columns are counted from the last line feed. -/
def leap (p : SourcePosition) (t : Text) : SourcePosition :=
  if t.count '\n' = 0 then ⟨p.line, p.column + t.length⟩
  else ⟨p.line + t.count '\n', t.length - t.lastLineFeed⟩

theorem first_advance (t : Text) : first.advance t = behind t := by
  have hafter := congrArg Position.toSource (Text.positionAfter_eq t)
  rw [Text.positionAfter, Position.toSource_ofSource] at hafter
  rw [hafter, Position.toSource, behind, Int.add_comm 1, Int.add_comm 1]

theorem advance_concat (p : SourcePosition) (x : Text) (c : Char) :
    p.advance (x ++ [c]) = (p.advance x).next c := by
  rw [advance_append]
  rfl

theorem leap_line (p : SourcePosition) (t : Text) : (p.leap t).line = p.line + t.count '\n' := by
  rw [leap]
  split <;> simp [*]

theorem leap_lineFeed (p : SourcePosition) (x : Text) :
    p.leap (x ++ ['\n']) = ⟨p.line + x.count '\n' + 1, 1⟩ := by
  have hcount : (x ++ ['\n']).count '\n' = x.count '\n' + 1 := by simp
  rw [leap, hcount, if_neg (by omega), Text.lastLineFeed_lineFeed, List.length_append,
    List.length_singleton, SourcePosition.mk.injEq]
  omega

theorem leap_concat (p : SourcePosition) (x : Text) {c : Char} (hc : c ≠ '\n') :
    p.leap (x ++ [c]) = ⟨(p.leap x).line, (p.leap x).column + 1⟩ := by
  have hcount : (x ++ [c]).count '\n' = x.count '\n' := by simp [hc]
  rw [leap, leap, hcount, Text.lastLineFeed_append hc, List.length_append, List.length_singleton]
  split <;>
  · simp only [SourcePosition.mk.injEq, true_and]
    omega

/-- Counting at once and counting one character after the other come to the same. -/
theorem advance_eq_leap (p : SourcePosition) (t : Text) : p.advance t = p.leap t := by
  induction t using List.reverseRecOn with
  | nil => simp [leap, advance]
  | append_singleton x c ih =>
    rw [advance_concat, ih]
    by_cases hc : c = '\n'
    · rw [next, if_pos hc, hc, leap_lineFeed, leap_line]
    · rw [next, if_neg hc, leap_concat p x hc]

/-- All counters agree. From the place just past `a`, a text `b` leads to the place just past
`a ++ b`; from any place the counting can be done at once or broken off and taken up again; and in
every document that goes on with `c`, that place is the position of its offset. -/
theorem counters_agree (a b c : Text) :
    (behind a).advance b = behind (a ++ b) ∧
      (∀ p : SourcePosition, p.advance b = p.leap b ∧
        (p.advance b).advance c = p.advance (b ++ c)) ∧
      Position.ofSource ((behind a).advance b) = (a ++ b ++ c).positionAt (a ++ b).length ∧
      (a ++ b ++ c).positionAt (a ++ b).length = (a ++ b ++ c).scanStarts (a ++ b).length := by
  have hbehind : (behind a).advance b = first.advance (a ++ b) := by
    rw [← first_advance, advance_append]
  have hafter : (a ++ b ++ c).positionAt (a ++ b).length = Text.positionAfter (a ++ b) := by
    obtain ⟨ls, l, m, ms, hcut⟩ := Text.exists_cut (a ++ b) c
    exact hcut.positionAt
  refine ⟨?_, fun p => ⟨advance_eq_leap p b, (advance_append p b c).symm⟩, ?_, ?_⟩
  · rw [hbehind, first_advance]
  · rw [hbehind, hafter]
    rfl
  · rw [hafter, Text.scanStarts_eq]

end SourcePosition
end Stacking
