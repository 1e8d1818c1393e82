import Mathlib.Data.List.DropRight
import Stacking.Proofs.Text.Offsets

/-!
# Offsets and positions correspond

An offset and a position name the same place of a text in two ways. `Text.Corresponds` says how far
either way leads back to where it came from: the position of an offset counts line feeds, later
offsets have later positions, and going from an offset to its position and back changes nothing
unless a carriage return that ends a line is in front. From a position to its offset and back changes
nothing exactly if the position lies in the content of a line. `Text.corresponds` says that this
holds of every text.
-/

namespace Stacking
namespace Text

/-! ## From offsets to positions -/

/-- The position of the place behind `x`: the line feeds in `x`, and the characters behind the last
of them. -/
theorem positionAfter_eq (x : Text) :
    positionAfter x = ⟨x.count '\n', (x.rtakeWhile (· ≠ '\n')).length⟩ := by
  induction x using List.reverseRecOn with
  | nil => rfl
  | append_singleton x c ih =>
    by_cases hc : c = '\n'
    · subst hc
      rw [positionAfter_lineFeed, ih, List.rtakeWhile_concat_neg _ _ _ (by simp)]
      simp
    · have hmem : '\n' ∉ [c] := by simpa using Ne.symm hc
      rw [positionAfter_append hmem, ih, List.rtakeWhile_concat_pos _ _ _ (by simpa using hc)]
      simp [hc]

theorem positionAt_lt {t : Text} {a b : Nat} (hab : a < b) (hb : b ≤ t.length) :
    t.positionAt a < t.positionAt b := by
  have hsplit : t.take b = t.take a ++ (t.take b).drop a := by
    conv => lhs; rw [← List.take_append_drop a (t.take b)]
    rw [List.take_take, Nat.min_eq_left (Nat.le_of_lt hab)]
  have hne : (t.take b).drop a ≠ [] := by
    rw [ne_eq, List.drop_eq_nil_iff, List.length_take_of_le hb]
    omega
  rw [← positionAfter_take (by omega : a ≤ t.length), ← positionAfter_take hb, hsplit]
  exact positionAfter_lt_append (t.take a) hne

/-! ## There and back -/

/-- The line of an offset and its content, with the offset to which its position leads back. -/
theorem exists_offsetAt_positionAt {t : Text} {o : Nat} (h : o ≤ t.length) :
    ∃ (n : Nat) (content : Text), (t.positionAt o).line = n ∧ t.lineText? n = some content ∧
      n < t.lineCount ∧ t.lineStart n + (t.positionAt o).character = o ∧
      t.offsetAt (t.positionAt o) = min o (t.lineStart n + content.length) := by
  obtain ⟨ls, l, m, ms, hcut⟩ := exists_cut (t.take o) (t.drop o)
  have hposition := hcut.position
  have hoffset := hcut.offsetAt_eq_min
  have hline := hcut.lineText?
  have hstart := hcut.lineStart
  have hcount := hcut.lineCount
  rw [List.take_append_drop] at hoffset hline hstart hcount
  rw [List.length_take_of_le h] at hoffset hstart
  rw [positionAfter_take h] at hposition hoffset
  refine ⟨ls.length, lineContent (l ++ m), ?_, hline, ?_, ?_, hoffset⟩
  · rw [hposition]
  · omega
  · rw [hposition]
    show ((t.lineStart ls.length : Nat) : Int) + (l.length : Nat) = (o : Nat)
    omega

/-- A carriage return stands in front of the offset, and up to the end of the line nothing else
follows: the offset is within, or just behind, the carriage returns that end its line. -/
def AmongReturns (t : Text) (o : Nat) : Prop :=
  (t.take o).getLast? = some '\r' ∧ Hollow (t.drop o)

theorem offsetAt_positionAt_eq_iff {t : Text} {o : Nat} (h : o ≤ t.length) :
    t.offsetAt (t.positionAt o) = o ↔ ¬t.AmongReturns o := by
  have hiff := offsetAt_eq_length_iff (t.take o) (t.drop o)
  rw [List.take_append_drop, List.length_take_of_le h, positionAfter_take h] at hiff
  rw [hiff, AmongReturns, not_and]

/-- The position lies in the content of a line, or at its end. -/
def Names (t : Text) (p : Position) : Prop :=
  0 ≤ p.line ∧ p.line < t.lineCount ∧ 0 ≤ p.character ∧
    ∃ content, t.lineText? p.line = some content ∧ p.character ≤ content.length

theorem lineText?_of_nonneg (t : Text) {n : Int} (h : 0 ≤ n) :
    t.lineText? n = t.lines[n.toNat]?.map lineContent := by
  rw [lineText?, if_pos h]

theorem positionAt_offsetAt_of_names {t : Text} {p : Position} (h : t.Names p) :
    t.positionAt (t.offsetAt p) = p := by
  obtain ⟨hline, _, hcharacter, content, hcontent, hle⟩ := h
  rw [lineText?_of_nonneg t hline, Option.map_eq_some_iff] at hcontent
  obtain ⟨line, hmem, rfl⟩ := hcontent
  have hlength := length_lineContent_le line
  rw [offsetAt, if_neg (by omega), hmem]
  simp only
  rw [positionAt_line hmem (by omega), Position.eq_iff]
  constructor
  · show ((p.line.toNat : Nat) : Int) = p.line
    omega
  · show ((min p.character.toNat (lineContent line).length : Nat) : Int) = p.character
    omega

theorem names_of_positionAt_offsetAt {t : Text} {p : Position}
    (h : t.positionAt (t.offsetAt p) = p) : t.Names p := by
  obtain ⟨n, content, hline, hcontent, hlast, hstart, hback⟩ :=
    exists_offsetAt_positionAt (t.offsetAt_le_length p)
  rw [h] at hline hstart hback
  have hle : t.offsetAt p ≤ t.lineStart n + content.length := by omega
  refine ⟨by omega, by omega, ?_, content, by rw [hline]; exact hcontent, by omega⟩
  -- a position that is its own has the offset of a line start and what is counted from there
  rw [offsetAt, if_neg (by omega), show p.line.toNat = n by omega] at hstart
  rw [lineText?_of_nonneg t (by omega), Option.map_eq_some_iff, Int.toNat_natCast] at hcontent
  obtain ⟨line, hmem, _⟩ := hcontent
  rw [hmem] at hstart
  simp only at hstart
  omega

/-! ## Every text -/

/-- How the offsets of a text and the positions in it correspond. -/
structure Corresponds (t : Text) : Prop where
  /-- The position of an offset counts the line feeds in front, and the characters behind the last
  of them. -/
  position : ∀ o ≤ t.length,
    t.positionAt o = ⟨(t.take o).count '\n', ((t.take o).rtakeWhile (· ≠ '\n')).length⟩
  ascending : ∀ a b : Nat, a < b → b ≤ t.length → t.positionAt a < t.positionAt b
  monotone : ∀ p q : Position, p ≤ q → t.offsetAt p ≤ t.offsetAt q
  bounded : ∀ p : Position, t.offsetAt p ≤ t.length
  /-- From an offset to its position and back is the offset kept within the content of its line. -/
  clamped : ∀ o ≤ t.length, ∃ (n : Nat) (content : Text), (t.positionAt o).line = n ∧
    t.lineText? n = some content ∧ t.lineStart n + (t.positionAt o).character = o ∧
    t.offsetAt (t.positionAt o) = min o (t.lineStart n + content.length)
  /-- That is the same offset but among the carriage returns that end a line. -/
  offset_iff : ∀ o ≤ t.length, t.offsetAt (t.positionAt o) = o ↔ ¬t.AmongReturns o
  /-- From a position to its offset and back is the same position in the content of a line only. -/
  position_iff : ∀ p : Position, t.positionAt (t.offsetAt p) = p ↔ t.Names p

/-- Offsets and positions correspond in every text. -/
theorem corresponds (t : Text) : t.Corresponds where
  position o h := by rw [← positionAfter_take h, positionAfter_eq]
  ascending a b hab hb := positionAt_lt hab hb
  monotone p q h := offsetAt_mono h t
  bounded p := t.offsetAt_le_length p
  clamped o h := by
    obtain ⟨n, content, hline, hcontent, _, hstart, hback⟩ := exists_offsetAt_positionAt h
    exact ⟨n, content, hline, hcontent, hstart, hback⟩
  offset_iff o h := offsetAt_positionAt_eq_iff h
  position_iff p := ⟨names_of_positionAt_offsetAt, positionAt_offsetAt_of_names⟩

end Text
end Stacking
