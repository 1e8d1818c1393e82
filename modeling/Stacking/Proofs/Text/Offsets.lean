import Stacking.Proofs.Text.Moved

/-!
# Offsets of positions

An editor may name any position; the offset of a text that is nearest to it lies in the text, and of
two positions the later one has no smaller offset. Offset and position agree, except where carriage
returns end a line: a position among them, or behind them, has the offset in front of them.

* `offsetAt_mono` says that offsets follow the order of positions.
* `offsetAt_positionAt` says that the offset of a position is that of its own position, or the end
  of the text.
* `offsetAt_behind` gives the offset of a position in a text other than its own.
-/

namespace Stacking
namespace Text

/-! ## Offsets lie in the text -/

/-- A line of a text starts within it and ends within it. -/
theorem lineStart_add_length_le {t line : Text} {n : Nat} (h : t.lines[n]? = some line) :
    t.lineStart n + line.length ≤ t.length := by
  induction n generalizing t with
  | zero =>
    obtain ⟨ms, hlines⟩ : ∃ ms, t.lines = line :: ms := by
      cases hlines : t.lines with
      | nil => exact absurd hlines (splitOn_ne_nil '\n' t)
      | cons m ms =>
        rw [hlines] at h
        exact ⟨ms, by rw [Option.some.inj h]⟩
    have hzero : t.lineStart 0 = 0 := by simp [lineStart]
    obtain ⟨_, ⟨_, rfl⟩ | ⟨t', rfl, _⟩⟩ := lines_eq_cons hlines
    · omega
    · simp only [List.length_append]
      omega
  | succ n ih =>
    obtain ⟨m, ms, hlines⟩ := List.exists_cons_of_ne_nil (splitOn_ne_nil '\n' t)
    have hlines : t.lines = m :: ms := hlines
    rw [hlines, List.getElem?_cons_succ] at h
    obtain ⟨_, ⟨rfl, _⟩ | ⟨t', rfl, ht'⟩⟩ := lines_eq_cons hlines
    · cases h
    · have hstart : (m ++ '\n' :: t').lineStart (n + 1) = m.length + 1 + t'.lineStart n := by
        rw [lineStart, hlines, ← ht']
        rfl
      have := ih (ht' ▸ h)
      simp only [hstart, List.length_append, List.length_cons]
      omega

theorem length_lineContent_le (line : Text) : (lineContent line).length ≤ line.length := by
  obtain ⟨b, hb, _⟩ := dropEndWhile_append (· == '\r') line
  have hlength : line.length = (lineContent line).length + b.length := by
    rw [lineContent, ← List.length_append, ← hb]
  omega

theorem offsetAt_le_length (t : Text) (p : Position) : t.offsetAt p ≤ t.length := by
  rw [offsetAt]
  split
  · omega
  · split
    · omega
    · rename_i line hline
      have hle := lineStart_add_length_le hline
      have hcontent := length_lineContent_le line
      omega

/-! ## Offsets follow positions -/

theorem lineStart_succ {t line : Text} {n : Nat} (h : t.lines[n]? = some line) :
    t.lineStart (n + 1) = t.lineStart n + (line.length + 1) := by
  have hsum : ∀ ls : List Text, extentOf (ls ++ [line]) = extentOf ls + (line.length + 1) := by
    intro ls
    induction ls with
    | nil => simp [extentOf]
    | cons first ls ih =>
      show first.length + 1 + extentOf (ls ++ [line]) = first.length + 1 + extentOf ls + _
      omega
  show extentOf (t.lines.take (n + 1)) = extentOf (t.lines.take n) + (line.length + 1)
  rw [← hsum, List.take_add_one, h]
  rfl

/-- A line ends in front of the start of every later line. -/
theorem lineStart_lt {t line : Text} {n k : Nat} (h : t.lines[n]? = some line) (hk : n < k)
    (hlast : k < t.lines.length) : t.lineStart n + line.length < t.lineStart k := by
  induction k with
  | zero => omega
  | succ k ih =>
    have hline : t.lines[k]? = some t.lines[k] := List.getElem?_eq_getElem (by omega)
    rw [lineStart_succ hline]
    by_cases heq : n = k
    · subst heq
      rw [hline] at h
      rw [Option.some.inj h]
      omega
    · have := ih (by omega) (by omega)
      omega

/-- Of two positions the later one has no smaller offset. -/
theorem offsetAt_mono {p q : Position} (h : p ≤ q) (t : Text) : t.offsetAt p ≤ t.offsetAt q := by
  rw [Position.le_iff] at h
  unfold offsetAt
  by_cases hp : p.line < 0
  · rw [if_pos hp]
    omega
  · rw [if_neg hp, if_neg (by omega : ¬q.line < 0)]
    cases hq : t.lines[q.line.toNat]? with
    | none =>
      have hle := t.offsetAt_le_length p
      rw [offsetAt, if_neg hp] at hle
      exact hle
    | some line =>
      have hlast : q.line.toNat < t.lines.length := (List.getElem?_eq_some_iff.mp hq).1
      by_cases hline : p.line = q.line
      · rw [hline, hq]
        simp only
        omega
      · have hlt : p.line.toNat < q.line.toNat := by omega
        have hfirst : t.lines[p.line.toNat]? = some t.lines[p.line.toNat] :=
          List.getElem?_eq_getElem (by omega)
        have hstart := lineStart_lt hfirst hlt hlast
        have hcontent := length_lineContent_le t.lines[p.line.toNat]
        rw [hfirst]
        simp only
        omega

/-! ## The position of an offset -/

/-- The position of an offset is that of the place behind the text in front of it. -/
theorem positionAfter_take {t : Text} {n : Nat} (h : n ≤ t.length) :
    positionAfter (t.take n) = t.positionAt n := by
  obtain ⟨ls, l, m, ms, hcut⟩ := exists_cut (t.take n) (t.drop n)
  rw [← hcut.positionAt, List.take_append_drop, List.length_take_of_le h]

theorem positionAt_line {t line : Text} {n k : Nat} (h : t.lines[n]? = some line)
    (hk : k ≤ line.length) : t.positionAt (t.lineStart n + k : Nat) = ⟨n, k⟩ := by
  have hn : n < t.lines.length := (List.getElem?_eq_some_iff.mp h).1
  have hsplit : t.lines = t.lines.take n ++ (line.take k ++ line.drop k) :: t.lines.drop (n + 1) := by
    rw [List.take_append_drop, ← (List.getElem?_eq_some_iff.mp h).2, List.getElem_cons_drop,
      List.take_append_drop]
  have hlength : t.lineStart n + k = extentOf (t.lines.take n) + (line.take k).length := by
    rw [List.length_take_of_le hk]
    rfl
  have hle := lineStart_add_length_le h
  have hlocate := Cut.locate_eq (n := 0) (t.lines.take n) (line.take k) (line.drop k)
    (t.lines.drop (n + 1))
  rw [← hsplit, ← hlength, List.length_take_of_le hk, List.length_take_of_le (by omega)] at hlocate
  rw [positionAt]
  simp only [Int.toNat_natCast]
  rw [Nat.min_eq_left (by omega), hlocate]
  simp

/-- A position past the last line has the end of the text as its offset. -/
theorem offsetAt_of_lineCount_le {t : Text} {p : Position} (h : t.lineCount ≤ p.line) :
    t.offsetAt p = t.length := by
  rw [lineCount] at h
  rw [offsetAt, if_neg (by omega), List.getElem?_eq_none (by omega)]

/-- The offset of a position that is not past the last line is that of its own position. -/
theorem offsetAt_positionAt_of_lt {t : Text} {p : Position} (h : p.line < t.lineCount) :
    t.offsetAt (t.positionAt (t.offsetAt p)) = t.offsetAt p := by
  by_cases hp : p.line < 0
  · have hzero : t.offsetAt p = 0 := by rw [offsetAt, if_pos hp]
    rw [hzero, ← positionAfter_take (Nat.zero_le _)]
    exact offsetAt_lineStart (Or.inl rfl) t
  · have hlast : p.line.toNat < t.lines.length := by
      rw [lineCount] at h
      omega
    have hline : t.lines[p.line.toNat]? = some t.lines[p.line.toNat] :=
      List.getElem?_eq_getElem hlast
    have hoffset : t.offsetAt p = t.lineStart p.line.toNat +
        min p.character.toNat (lineContent t.lines[p.line.toNat]).length := by
      rw [offsetAt, if_neg hp, hline]
    have hcontent := length_lineContent_le t.lines[p.line.toNat]
    have hpos : ¬((p.line.toNat : Nat) : Int) < 0 := by omega
    rw [hoffset, positionAt_line hline (by omega), offsetAt, if_neg hpos]
    simp only [Int.toNat_natCast, hline]
    omega

/-- The offset of a position is that of its own position, or the end of the text. -/
theorem offsetAt_positionAt (t : Text) (p : Position) :
    t.offsetAt (t.positionAt (t.offsetAt p)) = t.offsetAt p ∨ t.offsetAt p = t.length := by
  by_cases h : p.line < t.lineCount
  · exact Or.inl (offsetAt_positionAt_of_lt h)
  · exact Or.inr (offsetAt_of_lineCount_le (by omega))

/-! ## Carriage returns that end a line -/

/-- The first line of a text has no content: nothing but carriage returns stands in front of the
first line feed. -/
def Hollow (y : Text) : Prop := ∀ c ∈ y.takeWhile (· ≠ '\n'), c = '\r'

/-- The number of characters that the first line of a text has as its content. -/
def reach (y : Text) : Nat := (lineContent (y.takeWhile (· ≠ '\n'))).length

theorem exists_lines_eq (y : Text) : ∃ ms, y.lines = y.takeWhile (· ≠ '\n') :: ms := by
  obtain ⟨m, ms, hlines⟩ := List.exists_cons_of_ne_nil (splitOn_ne_nil '\n' y)
  have hlines : y.lines = m :: ms := hlines
  obtain ⟨hm, hcase⟩ := lines_eq_cons hlines
  have hkeep : ∀ c ∈ m, (decide (c ≠ '\n')) = true := by
    intro c hc
    simp only [ne_eq, decide_eq_true_eq]
    rintro rfl
    exact hm hc
  refine ⟨ms, hlines.trans ?_⟩
  rcases hcase with ⟨rfl, rfl⟩ | ⟨y', rfl, _⟩
  · rw [List.takeWhile_eq_self_iff.mpr hkeep]
  · rw [List.takeWhile_append_of_pos hkeep]
    simp

/-- What ends a text that is not empty ends every text with it at its end. -/
theorem getLast?_append_of_ne {y : Text} (h : y ≠ []) (x : Text) :
    (x ++ y).getLast? = y.getLast? := by
  rw [List.getLast?_append, List.getLast?_eq_some_getLast h, Option.some_or]

theorem getLast?_lineContent (line : Text) : (lineContent line).getLast? ≠ some '\r' := by
  unfold lineContent dropEndWhile
  rw [List.getLast?_reverse]
  intro h
  have := List.head?_dropWhile_not (· == '\r') line.reverse
  rw [h] at this
  simp at this

/-- Carriage returns at the end of a line do not count as its content. -/
theorem lineContent_append_of_all {q : Text} (hq : ∀ c ∈ q, c = '\r') (x : Text) :
    lineContent (x ++ q) = lineContent x := by
  unfold lineContent dropEndWhile
  rw [List.reverse_append, List.dropWhile_append_of_pos]
  intro c hc
  rw [hq c (List.mem_reverse.mp hc)]
  rfl

theorem lineContent_eq_self {x : Text} (hx : x.getLast? ≠ some '\r') : lineContent x = x := by
  rcases List.eq_nil_or_concat x with rfl | ⟨x, c, rfl⟩
  · rfl
  · have hc : c ≠ '\r' := by simpa using hx
    simp [lineContent, dropEndWhile, hc]

/-- The content of a line grows with the line. -/
theorem lineContent_prefix (x y : Text) : lineContent x <+: lineContent (x ++ y) := by
  by_cases hy : ∀ c ∈ y, c = '\r'
  · exact ⟨[], by rw [List.append_nil, lineContent_append_of_all hy]⟩
  · obtain ⟨b, hb, hblank⟩ := dropEndWhile_append (· == '\r') y
    have hsplit : y = lineContent y ++ b := hb
    have hb : ∀ c ∈ b, c = '\r' := by simpa using hblank
    have hne : lineContent y ≠ [] := by
      intro hnil
      rw [hnil, List.nil_append] at hsplit
      exact hy (hsplit ▸ hb)
    have hlast : (x ++ lineContent y).getLast? ≠ some '\r' := by
      rw [getLast?_append_of_ne hne]
      exact getLast?_lineContent y
    conv => rhs; rw [hsplit, ← List.append_assoc]
    rw [lineContent_append_of_all hb, lineContent_eq_self hlast]
    obtain ⟨b', hb', _⟩ := dropEndWhile_append (· == '\r') x
    exact ⟨b' ++ lineContent y, by rw [← List.append_assoc, lineContent, ← hb']⟩

theorem reach_eq_zero_iff (y : Text) : y.reach = 0 ↔ y.Hollow := by
  rw [reach, Hollow, List.length_eq_zero_iff]
  constructor
  · intro hnil
    obtain ⟨b, hb, hblank⟩ := dropEndWhile_append (· == '\r') (y.takeWhile (· ≠ '\n'))
    have hsplit : y.takeWhile (· ≠ '\n') = lineContent (y.takeWhile (· ≠ '\n')) ++ b := hb
    rw [hsplit, hnil, List.nil_append]
    simpa using hblank
  · intro hall
    exact lineContent_append_of_all hall []

/-- Carriage returns count where some content of their line follows. -/
theorem reach_append {q : Text} (hq : ∀ c ∈ q, c = '\r') (y : Text) :
    reach (q ++ y) = if y.reach = 0 then 0 else q.length + y.reach := by
  have htake : (q ++ y).takeWhile (· ≠ '\n') = q ++ y.takeWhile (· ≠ '\n') := by
    apply List.takeWhile_append_of_pos
    intro c hc
    rw [hq c hc]
    decide
  split
  · rename_i hzero
    rw [reach_eq_zero_iff] at hzero ⊢
    intro c hc
    rw [htake] at hc
    exact (List.mem_append.mp hc).elim (hq c) (hzero c)
  · rename_i hpos
    unfold reach at hpos ⊢
    rw [htake, ← List.length_append]
    generalize y.takeWhile (· ≠ '\n') = l at hpos ⊢
    congr 1
    obtain ⟨b, hb, hblank⟩ := dropEndWhile_append (· == '\r') l
    have hsplit : l = lineContent l ++ b := hb
    have hlast : (q ++ lineContent l).getLast? ≠ some '\r' := by
      rw [getLast?_append_of_ne (fun hnil => hpos (by rw [hnil]; rfl))]
      exact getLast?_lineContent l
    conv => lhs; rw [hsplit, ← List.append_assoc]
    rw [lineContent_append_of_all (by simpa using hblank), lineContent_eq_self hlast]

/-- The offset of the position behind `x ++ q` in a text that goes on otherwise behind `x`. -/
theorem offsetAt_behind {x q : Text} (hx : x.getLast? ≠ some '\r') (hq : '\n' ∉ q) (y : Text) :
    (x ++ y).offsetAt (positionAfter (x ++ q)) = x.length + min q.length y.reach := by
  obtain ⟨ls, l, m, ms, hcut⟩ := exists_cut x y
  obtain ⟨ms', hy⟩ := exists_lines_eq y
  obtain ⟨rfl, rfl⟩ := List.cons.inj (hcut.right.symm.trans hy)
  have hcontent : lineContent (l ++ y.takeWhile (· ≠ '\n')) =
      l ++ lineContent (y.takeWhile (· ≠ '\n')) := by
    obtain ⟨_, u, rfl, _⟩ := hcut.exists_eq_append
    cases hlast : l.getLast? with
    | none => rw [List.getLast?_eq_none_iff.mp hlast, List.nil_append, List.nil_append]
    | some c =>
      rw [List.getLast?_append, hlast, Option.some_or] at hx
      exact lineContent_append (Or.inr ⟨c, hlast, fun hc => hx (congrArg some hc)⟩)
  have hstart := hcut.lineStart
  have hnat : ((l.length : Int) + q.length).toNat = l.length + q.length := by omega
  rw [positionAfter_append hq, hcut.position, offsetAt, if_neg (by simp), hcut.whole]
  simp only [Int.toNat_natCast, List.getElem?_append_right (Nat.le_refl _), Nat.sub_self,
    List.getElem?_cons_zero, hcontent, List.length_append, hnat, reach]
  omega

/-- A place has its own offset unless carriage returns only stand beside it: in front of it one, and
behind it on its line nothing else. -/
theorem offsetAt_eq_length_iff (x y : Text) :
    (x ++ y).offsetAt (positionAfter x) = x.length ↔ (x.getLast? = some '\r' → ¬y.Hollow) := by
  obtain ⟨q, hq, hblank⟩ := dropEndWhile_append (· == '\r') x
  have hsplit : x = lineContent x ++ q := hq
  have hq : ∀ c ∈ q, c = '\r' := by simpa using hblank
  have hlf : '\n' ∉ q := fun h => absurd (hq _ h) (by decide)
  have hoffset := offsetAt_behind (getLast?_lineContent x) hlf (q ++ y)
  rw [← List.append_assoc, ← hsplit, reach_append hq] at hoffset
  have hlength : x.length = (lineContent x).length + q.length := by
    conv => lhs; rw [hsplit]
    exact List.length_append
  -- there are carriage returns at the end exactly if `q` is not empty
  have hlast : x.getLast? = some '\r' ↔ q ≠ [] := by
    constructor
    · rintro h rfl
      rw [List.append_nil] at hsplit
      exact getLast?_lineContent x (hsplit ▸ h)
    · intro hne
      rw [hsplit, getLast?_append_of_ne hne, List.getLast?_eq_some_getLast hne,
        hq _ (List.getLast_mem hne)]
  rw [hoffset, hlast, ← reach_eq_zero_iff, hlength, ← List.length_pos_iff]
  split <;> omega

end Text
end Stacking
