import Stacking.Proofs.Text.Correspondence
import Stacking.Proofs.Text.Simultaneous

/-!
# Clamping a range

`Text.clampRange` brings both ends of a range within the text. Clamping what has been clamped
changes nothing, and an edit of the clamped range does what an edit of the range does, with one
exception. A position past the last line is brought to the end of the text, but the content of the
last line ends in front of the carriage returns that may stand there: where there are some, the end
of the text is itself brought further to the front when it is clamped (`Text.Overshoots`).

`Text.clampRange_settles_iff` says for every text and every range exactly when clamping has settled
after the first time, and when it makes no difference to an edit.
-/

namespace Stacking
namespace Text

/-! ## Positions that clamping does not settle -/

/-- The position is past the last line, and a carriage return ends the text. -/
def Overshoots (t : Text) (p : Position) : Prop :=
  t.lineCount ≤ p.line ∧ t.getLast? = some '\r'

instance (t : Text) (p : Position) : Decidable (t.Overshoots p) :=
  inferInstanceAs (Decidable (_ ∧ _))

/-- The offset of a position is among the carriage returns that end a line only if it is the end of
the text, and the position is past it. -/
theorem amongReturns_offsetAt_iff (t : Text) (p : Position) :
    t.AmongReturns (t.offsetAt p) ↔ t.Overshoots p := by
  constructor
  · intro hamong
    have hpast : t.lineCount ≤ p.line := by
      by_contra hline
      refine (offsetAt_positionAt_eq_iff (t.offsetAt_le_length p)).mp ?_ hamong
      exact offsetAt_positionAt_of_lt (by omega)
    have hlast := hamong.1
    rw [offsetAt_of_lineCount_le hpast, List.take_length] at hlast
    exact ⟨hpast, hlast⟩
  · rintro ⟨hpast, hlast⟩
    rw [offsetAt_of_lineCount_le hpast, AmongReturns, List.take_length, List.drop_length]
    refine ⟨hlast, fun c hc => ?_⟩
    exact absurd hc List.not_mem_nil

/-- A position and the position it is clamped to have one offset unless it overshoots. -/
theorem offsetAt_positionAt_offsetAt_iff (t : Text) (p : Position) :
    t.offsetAt (t.positionAt (t.offsetAt p)) = t.offsetAt p ↔ ¬t.Overshoots p := by
  rw [offsetAt_positionAt_eq_iff (t.offsetAt_le_length p), amongReturns_offsetAt_iff]

theorem positionAt_inj {t : Text} {a b : Nat} (ha : a ≤ t.length) (hb : b ≤ t.length) :
    t.positionAt a = t.positionAt b ↔ a = b := by
  constructor
  · intro heq
    by_contra hne
    rcases Nat.lt_or_gt_of_ne hne with hlt | hlt
    · have := positionAt_lt hlt hb
      rw [heq, Position.lt_iff] at this
      omega
    · have := positionAt_lt hlt ha
      rw [heq, Position.lt_iff] at this
      omega
  · rintro rfl
    rfl

/-- Clamping a position a second time changes nothing unless it overshoots. -/
theorem positionAt_offsetAt_positionAt_iff (t : Text) (p : Position) :
    t.positionAt (t.offsetAt (t.positionAt (t.offsetAt p))) = t.positionAt (t.offsetAt p) ↔
      ¬t.Overshoots p := by
  rw [positionAt_inj (t.offsetAt_le_length _) (t.offsetAt_le_length _),
    offsetAt_positionAt_offsetAt_iff]

/-- The end of a text that ends with carriage returns is clamped to the place in front of them. -/
theorem exists_offsetAt_end {t : Text} (h : t.getLast? = some '\r') :
    ∃ x q : Text, t = x ++ q ∧ q ≠ [] ∧ (∀ c ∈ q, c = '\r') ∧
      t.offsetAt (t.positionAt t.length) = x.length := by
  obtain ⟨q, hsplit, hreturns⟩ := dropEndWhile_append (· == '\r') t
  have hsplit : t = lineContent t ++ q := hsplit
  have hreturns : ∀ c ∈ q, c = '\r' := by simpa using hreturns
  refine ⟨lineContent t, q, hsplit, ?_, hreturns, ?_⟩
  · rintro rfl
    rw [List.append_nil] at hsplit
    exact getLast?_lineContent t (hsplit ▸ h)
  · have hfeed : '\n' ∉ q := fun hmem => absurd (hreturns _ hmem) (by decide)
    have hreach : q.reach = 0 :=
      (reach_eq_zero_iff q).mpr fun c hc => hreturns c ((List.takeWhile_sublist _).subset hc)
    have hbehind := offsetAt_behind (getLast?_lineContent t) hfeed q
    rw [← hsplit, hreach, Nat.min_zero, Nat.add_zero] at hbehind
    rw [← positionAfter_take (Nat.le_refl _), List.take_length, hbehind]

theorem offsetAt_end_lt {t : Text} (h : t.getLast? = some '\r') :
    t.offsetAt (t.positionAt t.length) < t.length := by
  obtain ⟨x, q, hsplit, hne, -, hback⟩ := exists_offsetAt_end h
  have hpos := List.length_pos_iff.mpr hne
  have hlength := congrArg List.length hsplit
  rw [List.length_append] at hlength
  omega

end Text

/-! ## Edits of a clamped range -/

namespace Edit

theorem length_apply (t : Text) (e : Edit) :
    (e.apply t).length = t.offsetAt e.range.start + e.newText.length +
      (t.length - t.offsetAt e.range.stop) := by
  have hstart := t.offsetAt_le_length e.range.start
  simp only [apply, List.length_append, List.length_take, List.length_drop]
  omega

end Edit

namespace Text

/-- Where neither end overshoots, an edit of the clamped range is an edit of the range. -/
theorem apply_clampRange {t : Text} {r : Range} (hstart : ¬t.Overshoots r.start)
    (hstop : ¬t.Overshoots r.stop) (new : Text) :
    Edit.apply t ⟨t.clampRange r, new⟩ = Edit.apply t ⟨r, new⟩ := by
  rw [← offsetAt_positionAt_offsetAt_iff] at hstart hstop
  simp only [Edit.apply, clampRange, hstart, hstop]

/-- Where both ends overshoot, an edit of the clamped range inserts in front of the carriage returns
that end the text, an edit of the range behind them. -/
theorem apply_clampRange_eq_iff {t : Text} {r : Range} (hstart : t.Overshoots r.start)
    (hstop : t.Overshoots r.stop) (new : Text) :
    Edit.apply t ⟨t.clampRange r, new⟩ = Edit.apply t ⟨r, new⟩ ↔ ∀ c ∈ new, c = '\r' := by
  obtain ⟨x, q, hsplit, hne, hreturns, hback⟩ := exists_offsetAt_end hstart.2
  have hclamped : Edit.apply t ⟨t.clampRange r, new⟩ = x ++ (new ++ q) := by
    simp only [Edit.apply, clampRange, offsetAt_of_lineCount_le hstart.1,
      offsetAt_of_lineCount_le hstop.1, hback]
    rw [hsplit, List.take_left, List.drop_left, List.append_assoc]
  have happended : Edit.apply t ⟨r, new⟩ = x ++ (q ++ new) := by
    simp only [Edit.apply, offsetAt_of_lineCount_le hstart.1, offsetAt_of_lineCount_le hstop.1,
      List.take_length, List.drop_length, List.append_nil]
    rw [hsplit, List.append_assoc]
  rw [hclamped, happended, List.append_cancel_left_eq]
  constructor
  · intro heq
    refine Edit.eq_of_drop_append hreturns hne ?_
    rw [heq, List.drop_left]
  · intro hnew
    exact Edit.append_comm_of_all hnew hreturns

/-- Where one end overshoots and the other does not, an edit of the clamped range replaces more, or
less, than an edit of the range. -/
theorem apply_clampRange_ne {t : Text} {r : Range}
    (h : ¬(t.Overshoots r.start ↔ t.Overshoots r.stop)) (new : Text) :
    Edit.apply t ⟨t.clampRange r, new⟩ ≠ Edit.apply t ⟨r, new⟩ := by
  intro heq
  have hlength := congrArg List.length heq
  simp only [Edit.length_apply, clampRange] at hlength
  have hstart := t.offsetAt_le_length r.start
  have hstop := t.offsetAt_le_length r.stop
  -- the end that overshoots is brought to the front once more, the other one stays
  by_cases hover : t.Overshoots r.start
  · have hstays := (offsetAt_positionAt_offsetAt_iff t r.stop).mpr fun hs =>
      h (iff_of_true hover hs)
    have hlt := offsetAt_end_lt hover.2
    rw [hstays, offsetAt_of_lineCount_le hover.1] at hlength
    omega
  · have hstays := (offsetAt_positionAt_offsetAt_iff t r.start).mpr hover
    have hover' : t.Overshoots r.stop := by
      by_contra hs
      exact h (iff_of_false hover hs)
    have hlt := offsetAt_end_lt hover'.2
    rw [hstays, offsetAt_of_lineCount_le hover'.1] at hlength
    omega

/-- Clamping a range a second time changes nothing exactly if neither end overshoots. Whether an
edit replaces a range or the clamped range makes no difference exactly then, or if both ends
overshoot and nothing but carriage returns is inserted. -/
theorem clampRange_settles_iff (t : Text) (r : Range) (new : Text) :
    (t.clampRange (t.clampRange r) = t.clampRange r ↔
      ¬t.Overshoots r.start ∧ ¬t.Overshoots r.stop) ∧
    (Edit.apply t ⟨t.clampRange r, new⟩ = Edit.apply t ⟨r, new⟩ ↔
      ¬t.Overshoots r.start ∧ ¬t.Overshoots r.stop ∨
        t.Overshoots r.start ∧ t.Overshoots r.stop ∧ ∀ c ∈ new, c = '\r') := by
  constructor
  · simp only [clampRange, Range.mk.injEq, positionAt_offsetAt_positionAt_iff]
  · by_cases hstart : t.Overshoots r.start <;> by_cases hstop : t.Overshoots r.stop
    · simpa [hstart, hstop] using apply_clampRange_eq_iff hstart hstop new
    · simpa [hstart, hstop] using apply_clampRange_ne (t := t) (r := r) (by tauto) new
    · simpa [hstart, hstop] using apply_clampRange_ne (t := t) (r := r) (by tauto) new
    · simpa [hstart, hstop] using apply_clampRange hstart hstop new

/-- The carriage return that ends a text is passed at first and not when it is clamped again. -/
example : clampRange ['a', '\r'] ⟨⟨5, 0⟩, ⟨5, 0⟩⟩ = ⟨⟨0, 2⟩, ⟨0, 2⟩⟩ ∧
    clampRange ['a', '\r'] ⟨⟨0, 2⟩, ⟨0, 2⟩⟩ = ⟨⟨0, 1⟩, ⟨0, 1⟩⟩ := by decide

end Text
end Stacking
