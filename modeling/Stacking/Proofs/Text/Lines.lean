import Mathlib.Data.List.TakeWhile
import Stacking.Text.Document

/-!
# Offsets and lines

A place in a text is named by the text in front of it. This file says which position and which
offset that place has, so that positions in source, positions in editors and offsets can be
exchanged for each other.

* `Cut x y ls l m ms` says how the lines of `x ++ y` come from those of `x` and `y`.
* `Cut.position` and `Cut.positionAt` give the position of the place between `x` and `y`.
* `Cut.offsetAt` gives back its offset, where no carriage return is in the way.
-/

namespace Stacking
namespace Text

/-! ## Two texts after each other -/

/-- The lines of `x` are `ls` and then `l`, those of `y` are `m` and then `ms`; behind each other
they share the line `l ++ m`. -/
structure Cut (x y : Text) (ls : List Text) (l m : Text) (ms : List Text) : Prop where
  left : x.lines = ls ++ [l]
  right : y.lines = m :: ms
  whole : (x ++ y).lines = ls ++ (l ++ m) :: ms

theorem exists_cut (x y : Text) : ∃ ls l m ms, Cut x y ls l m ms := by
  induction x with
  | nil =>
    obtain ⟨m, ms, hy⟩ := List.exists_cons_of_ne_nil (splitOn_ne_nil '\n' y)
    exact ⟨[], [], m, ms, rfl, hy, hy⟩
  | cons c x ih =>
    obtain ⟨ls, l, m, ms, hx, hy, hxy⟩ := ih
    -- a line feed starts a line of its own, any other character goes to the first line
    by_cases hc : c = '\n'
    · refine ⟨[] :: ls, l, m, ms, ?_, hy, ?_⟩
      · rw [lines] at hx ⊢
        simp [splitOn, hc, hx]
      · rw [lines] at hxy ⊢
        simp [splitOn, hc, hxy]
    · cases ls with
      | nil =>
        refine ⟨[], c :: l, m, ms, ?_, hy, ?_⟩
        · rw [lines] at hx ⊢
          simp [splitOn, hc, hx]
        · rw [lines] at hxy ⊢
          simp [splitOn, hc, hxy]
      | cons first ls =>
        refine ⟨(c :: first) :: ls, l, m, ms, ?_, hy, ?_⟩
        · rw [lines] at hx ⊢
          simp [splitOn, hc, hx]
        · rw [lines] at hxy ⊢
          simp [splitOn, hc, hxy]

/-- A text is its lines with a line feed between them. -/
theorem lines_eq_cons {t m : Text} {ms : List Text} (h : t.lines = m :: ms) :
    '\n' ∉ m ∧ (ms = [] ∧ t = m ∨ ∃ t' : Text, t = m ++ '\n' :: t' ∧ t'.lines = ms) := by
  induction t generalizing m ms with
  | nil =>
    obtain ⟨rfl, rfl⟩ := List.cons.inj h
    exact ⟨by simp, Or.inl ⟨rfl, rfl⟩⟩
  | cons c t ih =>
    rw [lines, splitOn] at h
    split at h
    · rename_i hc
      obtain ⟨rfl, rfl⟩ := List.cons.inj h
      exact ⟨by simp, Or.inr ⟨t, by rw [hc]; rfl, rfl⟩⟩
    · rename_i hc
      split at h
      · rename_i hnil
        exact absurd hnil (splitOn_ne_nil '\n' t)
      · rename_i part parts hparts
        obtain ⟨rfl, rfl⟩ := List.cons.inj h
        obtain ⟨hm, hcase⟩ := ih hparts
        refine ⟨by simpa [Ne.symm hc] using hm, ?_⟩
        rcases hcase with ⟨rfl, rfl⟩ | ⟨t', rfl, ht'⟩
        · exact Or.inl ⟨rfl, rfl⟩
        · exact Or.inr ⟨t', rfl, ht'⟩

/-- The number of characters of lines that each end with a line feed. -/
def extentOf (ls : List Text) : Nat := ls.foldr (fun line offset => line.length + 1 + offset) 0

theorem length_eq_of_lines {x l : Text} {ls : List Text} (h : x.lines = ls ++ [l]) :
    x.length = extentOf ls + l.length := by
  induction ls generalizing x with
  | nil =>
    have hx : x.lines = [l] := h
    obtain ⟨_, ⟨_, rfl⟩ | ⟨t', _, ht'⟩⟩ := lines_eq_cons hx
    · simp [extentOf]
    · exact absurd ht' (splitOn_ne_nil '\n' t')
  | cons first ls ih =>
    have hx : x.lines = first :: (ls ++ [l]) := h
    obtain ⟨_, ⟨hnil, _⟩ | ⟨t', rfl, ht'⟩⟩ := lines_eq_cons hx
    · simp at hnil
    · have := ih ht'
      simp only [List.length_append, List.length_cons, this, extentOf, List.foldr_cons]
      omega

theorem advance_eq_of_not_mem {m : Text} (h : '\n' ∉ m) (p : SourcePosition) :
    p.advance m = ⟨p.line, p.column + m.length⟩ := by
  induction m generalizing p with
  | nil => simp [SourcePosition.advance]
  | cons c m ih =>
    have hc : c ≠ '\n' := fun hc => h (by simp [hc])
    have hm : '\n' ∉ m := fun hm => h (by simp [hm])
    have hnext : p.advance (c :: m) = SourcePosition.advance ⟨p.line, p.column + 1⟩ m := by
      simp [SourcePosition.advance, SourcePosition.next, hc]
    rw [hnext, ih hm, List.length_cons]
    simp only [SourcePosition.mk.injEq, true_and]
    omega

theorem advance_eq_of_lines {x l : Text} {ls : List Text} (h : x.lines = ls ++ [l])
    (p : SourcePosition) :
    p.advance x = ⟨p.line + ls.length, (if ls = [] then p.column else 1) + l.length⟩ := by
  induction ls generalizing x p with
  | nil =>
    have hx : x.lines = [l] := h
    obtain ⟨hl, ⟨_, rfl⟩ | ⟨t', _, ht'⟩⟩ := lines_eq_cons hx
    · simpa using advance_eq_of_not_mem hl p
    · exact absurd ht' (splitOn_ne_nil '\n' t')
  | cons first ls ih =>
    have hx : x.lines = first :: (ls ++ [l]) := h
    obtain ⟨hfirst, ⟨hnil, _⟩ | ⟨t', rfl, ht'⟩⟩ := lines_eq_cons hx
    · simp at hnil
    · have hnext : p.advance (first ++ '\n' :: t') =
          SourcePosition.advance ⟨p.line + 1, 1⟩ t' := by
        rw [SourcePosition.advance_append, advance_eq_of_not_mem hfirst]
        rfl
      rw [hnext, ih ht']
      simp only [List.length_cons, SourcePosition.mk.injEq, reduceCtorEq, if_false]
      constructor
      · omega
      · split <;> rfl

/-! ## Positions and offsets of a cut -/

/-- The position of the place behind `x`. -/
def positionAfter (x : Text) : Position := .ofSource (SourcePosition.first.advance x)

theorem positionAfter_append {l : Text} (h : '\n' ∉ l) (x : Text) :
    positionAfter (x ++ l) =
      ⟨(positionAfter x).line, (positionAfter x).character + l.length⟩ := by
  rw [positionAfter, positionAfter, SourcePosition.advance_append, advance_eq_of_not_mem h,
    Position.ofSource, Position.ofSource]
  simp only [Position.mk.injEq, true_and]
  omega

theorem positionAfter_lineFeed (x : Text) :
    positionAfter (x ++ ['\n']) = ⟨(positionAfter x).line + 1, 0⟩ := by
  rw [positionAfter, positionAfter, SourcePosition.advance_append, Position.ofSource,
    Position.ofSource]
  simp only [SourcePosition.advance, List.foldl_cons, List.foldl_nil, SourcePosition.next, if_true,
    Position.mk.injEq]
  omega

theorem positionAfter_lineStart {x : Text} (h : x = [] ∨ x.getLast? = some '\n') :
    (positionAfter x).character = 0 := by
  rcases h with rfl | h
  · rfl
  · obtain ⟨x', rfl⟩ := List.getLast?_eq_some_iff.mp h
    rw [positionAfter_lineFeed]

theorem dropEndWhile_append (p : Char → Bool) (t : Text) :
    ∃ b, t = t.dropEndWhile p ++ b ∧ ∀ c ∈ b, p c = true := by
  refine ⟨(t.reverse.takeWhile p).reverse, ?_, ?_⟩
  · rw [dropEndWhile, ← List.reverse_append, List.takeWhile_append_dropWhile,
      List.reverse_reverse]
  · intro c hc
    exact List.all_eq_true.mp List.all_takeWhile c (List.mem_reverse.mp hc)

theorem lineContent_append {l m : Text}
    (h : (∃ c ∈ m.head?, c ≠ '\r') ∨ ∃ c ∈ l.getLast?, c ≠ '\r') :
    lineContent (l ++ m) = l ++ lineContent m := by
  unfold lineContent dropEndWhile
  rw [List.reverse_append, List.dropWhile_append]
  split
  · rename_i hall
    have hm : ∀ c ∈ m, (c == '\r') = true := by
      simpa [List.dropWhile_eq_nil_iff] using hall
    rcases h with ⟨c, hc, hne⟩ | ⟨c, hc, hne⟩
    · exact absurd (by simpa using hm c (List.mem_of_mem_head? hc)) hne
    · have hl : l.reverse.dropWhile (· == '\r') = l.reverse := by
        obtain ⟨l', rfl⟩ := List.getLast?_eq_some_iff.mp hc
        simp [hne]
      rw [hl, List.reverse_reverse, List.dropWhile_eq_nil_iff.mpr (by simpa using hm)]
      simp
  · rw [List.reverse_append, List.reverse_reverse]

namespace Cut

variable {x y : Text} {ls ms : List Text} {l m : Text}

theorem position (h : Cut x y ls l m ms) : positionAfter x = ⟨ls.length, l.length⟩ := by
  rw [positionAfter, advance_eq_of_lines h.left, Position.ofSource, SourcePosition.first]
  simp only [Position.mk.injEq]
  constructor
  · omega
  · split <;> omega

theorem lineCount (h : Cut x y ls l m ms) : (x ++ y).lineCount = ls.length + 1 + ms.length := by
  rw [Text.lineCount, h.whole]
  simp
  omega

theorem lineText? (h : Cut x y ls l m ms) :
    (x ++ y).lineText? ls.length = some (lineContent (l ++ m)) := by
  rw [Text.lineText?, h.whole, if_pos (by omega)]
  simp

theorem lineStart (h : Cut x y ls l m ms) : (x ++ y).lineStart ls.length + l.length = x.length := by
  rw [length_eq_of_lines h.left, Text.lineStart, h.whole, List.take_left]
  rfl

/-- The offset of the place between two texts, kept within the content of its line. -/
theorem offsetAt_eq_min (h : Cut x y ls l m ms) :
    (x ++ y).offsetAt (positionAfter x) =
      min x.length ((x ++ y).lineStart ls.length + (lineContent (l ++ m)).length) := by
  have hstart := h.lineStart
  rw [h.position, Text.offsetAt, if_neg (by simp), h.whole]
  simp only [Int.toNat_natCast, List.getElem?_append_right (Nat.le_refl _), Nat.sub_self,
    List.getElem?_cons_zero]
  omega

/-- The offset of the place between two texts, where the carriage returns that end a line stand
behind it. -/
theorem offsetAt (h : Cut x y ls l m ms) (hle : l.length ≤ (lineContent (l ++ m)).length) :
    (x ++ y).offsetAt (positionAfter x) = x.length := by
  have hstart := h.lineStart
  rw [h.offsetAt_eq_min]
  omega

theorem locate_eq {n : Nat} (ls : List Text) (l m : Text) (ms : List Text) :
    locate n (ls ++ (l ++ m) :: ms) (extentOf ls + l.length) = (n + ls.length, l.length) := by
  induction ls generalizing n with
  | nil => simp [locate, extentOf]
  | cons first ls ih =>
    rw [List.cons_append, locate, if_neg]
    · have : extentOf (first :: ls) + l.length - (first.length + 1) = extentOf ls + l.length := by
        simp only [extentOf, List.foldr_cons]
        omega
      rw [this, ih]
      simp only [List.length_cons, Prod.mk.injEq, and_true]
      omega
    · have hlt : first.length < extentOf (first :: ls) + l.length := by
        simp only [extentOf, List.foldr_cons]
        omega
      simpa using hlt

theorem positionAt (h : Cut x y ls l m ms) :
    (x ++ y).positionAt x.length = positionAfter x := by
  rw [h.position, Text.positionAt, h.whole]
  simp only [Int.toNat_natCast]
  rw [Nat.min_eq_left (by simp), length_eq_of_lines h.left, locate_eq]
  simp

theorem head_eq (h : Cut x y ls l m ms) {c : Char} (hc : c ∈ y.head?) (hne : c ≠ '\n') :
    c ∈ m.head? := by
  obtain ⟨_, ⟨_, rfl⟩ | ⟨t, rfl, _⟩⟩ := lines_eq_cons h.right
  · exact hc
  · cases m with
    | nil => exact absurd (Option.some.inj hc).symm hne
    | cons d m => exact hc

/-- The last line of `x` ends with what `x` ends with. -/
theorem exists_eq_append (h : Cut x y ls l m ms) :
    '\n' ∉ l ∧ ∃ u, x = u ++ l ∧ (u = [] ∨ u.getLast? = some '\n') := by
  have hx := h.left
  clear h
  induction ls generalizing x with
  | nil =>
    have hx : x.lines = [l] := hx
    obtain ⟨hl, ⟨_, rfl⟩ | ⟨t, _, ht⟩⟩ := lines_eq_cons hx
    · exact ⟨hl, [], rfl, Or.inl rfl⟩
    · exact absurd ht (splitOn_ne_nil '\n' t)
  | cons first ls ih =>
    have hx : x.lines = first :: (ls ++ [l]) := hx
    obtain ⟨_, ⟨hnil, _⟩ | ⟨t, rfl, ht⟩⟩ := lines_eq_cons hx
    · simp at hnil
    · obtain ⟨hl, u, rfl, hu⟩ := ih ht
      refine ⟨hl, first ++ '\n' :: u, by simp, Or.inr ?_⟩
      rcases hu with rfl | hu
      · simp
      · rw [List.getLast?_append, List.getLast?_cons, hu]
        rfl

theorem last_eq (h : Cut x y ls l m ms) {c : Char} (hc : c ∈ x.getLast?) (hne : c ≠ '\n') :
    c ∈ l.getLast? := by
  obtain ⟨_, u, rfl, hu⟩ := h.exists_eq_append
  rw [List.getLast?_append] at hc
  cases hl : l.getLast? with
  | none =>
    rw [hl, Option.none_or] at hc
    rcases hu with rfl | hu
    · exact nomatch hc
    · rw [hu] at hc
      exact absurd (Option.some.inj hc).symm hne
  | some e =>
    rw [hl, Option.some_or] at hc
    exact hc

theorem lineContent_eq (h : Cut x y ls l m ms) {c : Char} (hb : isBlank c = false)
    (hc : c ∈ y.head? ∨ c ∈ x.getLast?) : lineContent (l ++ m) = l ++ lineContent m := by
  have hn : c ≠ '\n' := by rintro rfl; exact absurd hb (by decide)
  have hr : c ≠ '\r' := by rintro rfl; exact absurd hb (by decide)
  apply lineContent_append
  exact hc.imp (fun hc => ⟨c, h.head_eq hc hn, hr⟩) (fun hc => ⟨c, h.last_eq hc hn, hr⟩)

end Cut

/-- The offset of a place beside a character that is not blank. -/
theorem offsetAt_positionAfter {x y : Text} {c : Char} (hb : isBlank c = false)
    (hc : c ∈ y.head? ∨ c ∈ x.getLast?) : (x ++ y).offsetAt (positionAfter x) = x.length := by
  obtain ⟨ls, l, m, ms, h⟩ := exists_cut x y
  apply h.offsetAt
  rw [h.lineContent_eq hb hc]
  simp

/-- The offset of a place that is not behind a carriage return. -/
theorem offsetAt_of_getLast?_ne {x : Text} (h : x.getLast? ≠ some '\r') (y : Text) :
    (x ++ y).offsetAt (positionAfter x) = x.length := by
  obtain ⟨ls, l, m, ms, hcut⟩ := exists_cut x y
  apply hcut.offsetAt
  obtain ⟨_, u, rfl, _⟩ := hcut.exists_eq_append
  cases hlast : l.getLast? with
  | none => simp [List.getLast?_eq_none_iff.mp hlast]
  | some c =>
    rw [List.getLast?_append, hlast, Option.some_or] at h
    rw [lineContent_append (Or.inr ⟨c, hlast, fun hc => h (congrArg some hc)⟩)]
    simp

/-- The offset of the start of a line. -/
theorem offsetAt_lineStart {x : Text} (hx : x = [] ∨ x.getLast? = some '\n') (y : Text) :
    (x ++ y).offsetAt (positionAfter x) = x.length := by
  apply offsetAt_of_getLast?_ne
  rcases hx with rfl | hx
  · exact nofun
  · rw [hx]
    decide

end Text
end Stacking
