import Stacking.Fix
import Stacking.Proofs.Text.Moved
import Stacking.Proofs.Text.Offsets

/-!
# What the second fix deletes

The removal of a declaration deletes the range it is given, a semicolon that follows at once, and
blanks around it where the declaration has a line of its own (`QuickFix.TakesAlong`). The range need
not be that of a declaration: a finding may be out of date, or lie beyond the text. Its ends are
brought within the text, and whatever stands there, nothing but blanks and one semicolon is deleted
besides (`QuickFix.removal_spares`).

An end within the text is found again at its offset, but for one place: behind carriage returns at
the end of the text (`Text.Found`). There the deletion stops short.
-/

namespace Stacking

namespace Text

/-! ## Past a semicolon -/

/-- The text past a semicolon at its start. -/
def pastSemicolon : Text → Text
  | ';' :: t => t
  | t => t

theorem pastSemicolon_of_ne {t : Text} (h : t.head? ≠ some ';') : t.pastSemicolon = t := by
  unfold pastSemicolon
  split
  · exact absurd rfl h
  · rfl

theorem mem_of_mem_pastSemicolon {t : Text} {c : Char} (h : c ∈ t.pastSemicolon) : c ∈ t := by
  unfold pastSemicolon at h
  split at h
  · exact List.mem_cons_of_mem _ h
  · exact h

/-! ## The content of a line -/

/-- The carriage returns that end a line are blank. -/
theorem isAllBlank_lineContent (m : Text) : (lineContent m).isAllBlank = m.isAllBlank := by
  obtain ⟨b, hb, hr⟩ := dropEndWhile_append (· == '\r') m
  have hm : m = lineContent m ++ b := hb
  have hblank : b.all isBlank = true := by
    refine List.all_eq_true.mpr fun c hc => ?_
    rw [beq_iff_eq.mp (hr c hc)]
    decide
  conv => rhs; rw [hm, isAllBlank, List.all_append, hblank, Bool.and_true]
  rfl

/-- The content of a line starts with a semicolon where the line does. -/
theorem head?_lineContent (m : Text) :
    (lineContent m).head? = some ';' ↔ m.head? = some ';' := by
  obtain ⟨b, hb, hr⟩ := dropEndWhile_append (· == '\r') m
  have hm : m = lineContent m ++ b := hb
  cases hc : lineContent m with
  | nil =>
    rw [hm, hc, List.nil_append]
    refine ⟨nofun, fun h => ?_⟩
    exact absurd (hr ';' (List.mem_of_mem_head? h)) (by decide)
  | cons d w =>
    rw [hm, hc]
    rfl

/-- The content of a line that reaches to the end of `l` goes on behind it with that of the rest. -/
theorem lineContent_append_of_le {l m : Text} (h : l.length ≤ (lineContent (l ++ m)).length) :
    lineContent (l ++ m) = l ++ lineContent m := by
  obtain ⟨q, hq, hr⟩ := dropEndWhile_append (· == '\r') (l ++ m)
  have hsplit : l ++ m = lineContent (l ++ m) ++ q := hq
  have hr : ∀ c ∈ q, c = '\r' := by simpa using hr
  obtain ⟨p, hp⟩ : l <+: lineContent (l ++ m) :=
    List.prefix_of_prefix_length_le (List.prefix_append l m) ⟨q, hsplit.symm⟩ h
  have hm : m = p ++ q := by
    rw [← hp, List.append_assoc] at hsplit
    exact List.append_cancel_left hsplit
  -- what is left behind `l` does not end in a carriage return
  have hlast : p.getLast? ≠ some '\r' := by
    by_cases hnil : p = []
    · rw [hnil]
      exact nofun
    · rw [← getLast?_append_of_ne hnil l, hp]
      exact getLast?_lineContent _
  rw [← hp]
  conv => rhs; rw [hm, lineContent_append_of_all hr, lineContent_eq_self hlast]

/-! ## Places that are found again -/

/-- The place between two texts is found at its offset, or is at the end. -/
def Found (x y : Text) : Prop := (x ++ y).offsetAt (positionAfter x) = x.length ∨ y = []

/-- The place of an offset of a position is found. -/
theorem found_offsetAt (t : Text) (p : Position) :
    Found (t.take (t.offsetAt p)) (t.drop (t.offsetAt p)) := by
  have hle := offsetAt_le_length t p
  rw [Found, List.take_append_drop, positionAfter_take hle, List.length_take_of_le hle,
    List.drop_eq_nil_iff]
  exact (offsetAt_positionAt t p).imp_right fun h => Nat.le_of_eq h.symm

/-- A place that is found is found at its offset, or carriage returns end the text from there. -/
theorem Found.offset {x y : Text} (h : Found x y) :
    (x ++ y).offsetAt (positionAfter x) ≤ x.length ∧
      ((x ++ y).offsetAt (positionAfter x) = x.length ∨
        ∀ c ∈ (x ++ y).drop ((x ++ y).offsetAt (positionAfter x)), c = '\r') := by
  obtain ⟨q, hq, hr⟩ := dropEndWhile_append (· == '\r') x
  have hr : ∀ c ∈ q, c = '\r' := by simpa using hr
  have hlf : '\n' ∉ q := fun hmem => absurd (hr _ hmem) (by decide)
  have hp := getLast?_lineContent x
  obtain ⟨p, hsplit⟩ : ∃ p, p = lineContent x := ⟨_, rfl⟩
  rw [← hsplit] at hp
  obtain rfl : x = p ++ q := hq.trans (congrArg (· ++ q) hsplit.symm)
  have hoffset := offsetAt_behind hp hlf (q ++ y)
  rw [← List.append_assoc] at hoffset
  have hlength : (p ++ q).length = p.length + q.length := List.length_append
  refine ⟨by omega, h.imp_right fun hy c hc => hr c ?_⟩
  rw [hoffset, hy, List.append_nil, List.append_nil, ← List.drop_drop, List.drop_left] at hc
  exact List.mem_of_mem_drop hc

/-! ## Whole lines -/

/-- The first line of a text. -/
def firstLine (t : Text) : Text := t.lines.headD []

/-- The last line of a text. -/
def lastLine (t : Text) : Text := t.lines.getLastD []

theorem Cut.lastLine_eq {x y l m : Text} {ls ms : List Text} (h : Cut x y ls l m ms) :
    x.lastLine = l := by
  rw [lastLine, h.left, List.getLastD_concat]

theorem Cut.firstLine_eq {x y l m : Text} {ls ms : List Text} (h : Cut x y ls l m ms) :
    y.firstLine = m := by
  rw [firstLine, h.right, List.headD_cons]

/-- What stands from the offset `a` to `b` has its lines for itself, but for blanks and a semicolon
behind it. -/
structure OwnLines (t : Text) (a b : Nat) : Prop where
  before : isAllBlank (lastLine (t.take a)) = true
  behind : isAllBlank (firstLine (pastSemicolon (t.drop b))) = true

/-- A text is known by its lines. -/
theorem eq_of_lines_eq {t t' : Text} (h : t.lines = t'.lines) : t = t' := by
  obtain ⟨m, ms, hlines⟩ := List.exists_cons_of_ne_nil (splitOn_ne_nil '\n' t)
  have hlines : t.lines = m :: ms := hlines
  induction ms generalizing t t' m with
  | nil =>
    obtain ⟨_, ⟨_, rfl⟩ | ⟨v, _, hv⟩⟩ := lines_eq_cons hlines
    · obtain ⟨_, ⟨_, rfl⟩ | ⟨v, _, hv⟩⟩ := lines_eq_cons (h.symm.trans hlines)
      · rfl
      · exact absurd hv (splitOn_ne_nil '\n' v)
    · exact absurd hv (splitOn_ne_nil '\n' v)
  | cons m' ms ih =>
    obtain ⟨_, ⟨hnil, _⟩ | ⟨v, rfl, hv⟩⟩ := lines_eq_cons hlines
    · exact nomatch hnil
    · obtain ⟨_, ⟨hnil, _⟩ | ⟨v', rfl, hv'⟩⟩ := lines_eq_cons (h.symm.trans hlines)
      · exact nomatch hnil
      · rw [ih (hv.trans hv'.symm) m' hv hv]

/-- An offset lies on one of the lines. -/
theorem exists_line_positionAt {t : Text} {n : Nat} (h : n ≤ t.length) :
    ∃ k < t.lines.length, (t.positionAt n).line = k := by
  obtain ⟨ls, l, m, ms, hcut⟩ := exists_cut (t.take n) (t.drop n)
  have hwhole := hcut.whole
  rw [List.take_append_drop] at hwhole
  refine ⟨ls.length, ?_, by rw [← positionAfter_take h, hcut.position]⟩
  rw [hwhole, List.length_append, List.length_cons]
  omega

/-- A text is cut in front of each of its lines. -/
theorem exists_eq_append_lines {t : Text} {n : Nat} (h : n < t.lines.length) :
    ∃ u v, t = u ++ v ∧ t.offsetAt ⟨n, 0⟩ = u.length ∧ u.lines = t.lines.take n ++ [[]] ∧
      v.lines = t.lines.drop n := by
  obtain ⟨line, hline⟩ : ∃ line, t.lines[n]? = some line := ⟨_, List.getElem?_eq_getElem h⟩
  have hle := lineStart_add_length_le hline
  have hoffset : t.offsetAt ⟨n, 0⟩ = t.lineStart n := by
    rw [offsetAt, if_neg (by simp)]
    simp only [Int.toNat_natCast, hline, Int.toNat_zero, Nat.zero_min, Nat.add_zero]
  obtain ⟨ls, l, m, ms, hcut⟩ := exists_cut (t.take (t.lineStart n)) (t.drop (t.lineStart n))
  have hwhole := hcut.whole
  have hposition := hcut.position
  rw [List.take_append_drop] at hwhole
  rw [positionAfter_take (by omega), ← Nat.add_zero (t.lineStart n),
    positionAt_line hline (Nat.zero_le _)] at hposition
  injection hposition with hls hl
  obtain rfl : n = ls.length := by omega
  obtain rfl : l = [] := List.eq_nil_of_length_eq_zero (by omega)
  refine ⟨_, _, (List.take_append_drop (t.lineStart ls.length) t).symm, ?_, ?_, ?_⟩
  · rw [hoffset, List.length_take_of_le (by omega)]
  · rw [hcut.left, hwhole, List.take_left]
  · rw [hcut.right, hwhole, List.drop_left, List.nil_append]

theorem lines_append_of_lines {u : Text} {ls : List Text} (h : u.lines = ls ++ [[]]) (v : Text) :
    (u ++ v).lines = ls ++ v.lines := by
  obtain ⟨ls', l, m, ms, hcut⟩ := exists_cut u v
  obtain ⟨rfl, hl⟩ := List.append_inj' (hcut.left.symm.trans h) rfl
  obtain rfl := List.singleton_inj.mp hl
  rw [hcut.whole, hcut.right, List.nil_append]

end Text

/-- A deletion from the start of one line to that of another one leaves all other lines. -/
theorem Edit.lines_apply_delete {t : Text} {a b : Nat} (ha : a < t.lines.length)
    (hb : b < t.lines.length) :
    (Edit.apply t ⟨⟨⟨a, 0⟩, ⟨b, 0⟩⟩, []⟩).lines = t.lines.take a ++ t.lines.drop b := by
  obtain ⟨u, v, huv, hu, hlines, -⟩ := Text.exists_eq_append_lines ha
  obtain ⟨u', v', huv', hu', -, hlines'⟩ := Text.exists_eq_append_lines hb
  have htake : t.take u.length = u := by
    conv => lhs; rw [huv]
    exact List.take_left
  have hdrop : t.drop u'.length = v' := by
    conv => lhs; rw [huv']
    exact List.drop_left
  rw [Edit.apply]
  simp only
  rw [hu, hu', htake, hdrop, List.append_nil, Text.lines_append_of_lines hlines, hlines']

namespace QuickFix

open Text

variable {x y l m : Text} {ls ms : List Text}

/-! ## The ends of the deletion -/

/-- The line of a place that is found goes on behind the place, and is blank in front of it if it is
so in the text. -/
theorem lineAt_positionAfter (h : Cut x y ls l m ms) (hf : Found x y) :
    (lineAt (x ++ y) (positionAfter x)).drop (positionAfter x).character.toNat = lineContent m ∧
      isAllBlank ((lineAt (x ++ y) (positionAfter x)).take (positionAfter x).character.toNat) =
        isAllBlank l := by
  rw [lineAt, h.position]
  simp only [Int.toNat_natCast]
  rw [h.lineText?, Option.getD_some]
  rcases hf with hoffset | rfl
  · have hle : l.length ≤ (lineContent (l ++ m)).length := by
      have hstart := h.lineStart
      rw [h.position, Text.offsetAt, if_neg (by simp), h.whole] at hoffset
      simp only [Int.toNat_natCast, List.getElem?_append_right (Nat.le_refl _), Nat.sub_self,
        List.getElem?_cons_zero] at hoffset
      omega
    rw [lineContent_append_of_le hle]
    exact ⟨List.drop_left, by rw [List.take_left]⟩
  · -- behind the place nothing is left
    obtain ⟨rfl, rfl⟩ := List.cons.inj h.right
    have hle := length_lineContent_le l
    rw [List.append_nil, List.drop_of_length_le hle, List.take_of_length_le hle]
    exact ⟨rfl, isAllBlank_lineContent l⟩

/-- The end of the deletion is past a semicolon that follows at once, and is found there too. -/
theorem pastSemicolon_eq (hf : Found x y) :
    ∃ w, y = w ++ y.pastSemicolon ∧ (w = [] ∨ w = [';']) ∧
      pastSemicolon (x ++ y) (positionAfter x) = positionAfter (x ++ w) ∧
      Found (x ++ w) y.pastSemicolon := by
  obtain ⟨ls, l, m, ms, h⟩ := exists_cut x y
  have hget : (lineAt (x ++ y) (positionAfter x))[(positionAfter x).character.toNat]? =
      (lineContent m).head? := by
    rw [← (lineAt_positionAfter h hf).1, List.head?_drop]
  -- the line goes on with what follows
  have hhead : m.head? = some ';' ↔ y.head? = some ';' := by
    refine ⟨fun hm => ?_, fun hy => h.head_eq hy (by decide)⟩
    obtain ⟨_, ⟨_, rfl⟩ | ⟨y', rfl, _⟩⟩ := lines_eq_cons h.right
    · exact hm
    · rw [List.head?_append, hm]
      rfl
  rw [pastSemicolon, hget]
  split
  · rename_i hm
    obtain ⟨y', rfl⟩ := List.head?_eq_some_iff.mp (hhead.mp ((head?_lineContent m).mp hm))
    refine ⟨[';'], rfl, Or.inr rfl, ?_, Or.inl (offsetAt_of_getLast?_ne (by simp) _)⟩
    rw [positionAfter_append (by decide)]
    rfl
  · rename_i hm
    have hy : y.head? ≠ some ';' := fun hy => hm ((head?_lineContent m).mpr (hhead.mpr hy))
    rw [pastSemicolon_of_ne hy]
    exact ⟨[], rfl, Or.inl rfl, by rw [List.append_nil], by rwa [List.append_nil]⟩

/-- Where only blanks follow on the line, the end of the deletion is past the line break. -/
theorem pastBlankRest_eq (hf : Found x y) :
    ∃ w v, y = w ++ v ∧ (∀ d ∈ w, isBlank d = true) ∧ (w = [] ∨ w.getLast? = some '\n') ∧
      pastBlankRest (x ++ y) (positionAfter x) = positionAfter (x ++ w) := by
  obtain ⟨ls, l, m, ms, h⟩ := exists_cut x y
  rw [pastBlankRest, (lineAt_positionAfter h hf).1, isAllBlank_lineContent]
  split
  · rename_i hrest
    obtain ⟨hblank, hnext⟩ := Bool.and_eq_true_iff.mp hrest
    have hnext := of_decide_eq_true hnext
    rw [h.lineCount, h.position] at hnext
    simp only at hnext
    -- there is a line break behind the blanks
    obtain ⟨hm, ⟨rfl, _⟩ | ⟨v, rfl, _⟩⟩ := lines_eq_cons h.right
    · rw [List.length_nil] at hnext
      omega
    · refine ⟨m ++ ['\n'], v, by simp, ?_, Or.inr (by simp), ?_⟩
      · intro d hd
        rcases List.mem_append.mp hd with hd | hd
        · exact List.all_eq_true.mp hblank d hd
        · rw [List.mem_singleton.mp hd]
          decide
      · rw [← List.append_assoc, positionAfter_lineFeed, positionAfter_append hm]
  · exact ⟨[], y, rfl, nofun, Or.inl rfl, by rw [List.append_nil]⟩

/-- Where only blanks stand in front on the line, the start of the deletion is that of the line. -/
theorem lineStart_eq (hf : Found x y) (h : isAllBlank ((lineAt (x ++ y) (positionAfter x)).take
      (positionAfter x).character.toNat) = true) :
    ∃ u b, x = u ++ b ∧ (∀ d ∈ b, isBlank d = true ∧ d ≠ '\n') ∧
      (u = [] ∨ u.getLast? = some '\n') ∧ positionAfter u = ⟨(positionAfter x).line, 0⟩ := by
  obtain ⟨ls, l, m, ms, hcut⟩ := exists_cut x y
  obtain ⟨hl, u, rfl, hu⟩ := hcut.exists_eq_append
  rw [(lineAt_positionAfter hcut hf).2] at h
  refine ⟨u, l, rfl, fun d hd => ⟨List.all_eq_true.mp h d hd, fun hlf => hl (hlf ▸ hd)⟩, hu, ?_⟩
  rw [positionAfter_append hl, ← positionAfter_lineStart hu]

/-! ## What is taken along -/

/-- What a removal takes along with a declaration that stands between `x` and `r`: blanks `b` that
start its line, a semicolon `w`, and blanks `k` up to the next line. Left are `m` and `v`. -/
structure TakesAlong (x r m b w k v : Text) : Prop where
  front : x = m ++ b
  lead : ∀ e ∈ b, isBlank e = true ∧ e ≠ '\n'
  lineStart : b = [] ∨ m = [] ∨ m.getLast? = some '\n'
  behind : r = w ++ (k ++ v)
  semicolon : w = [] ∨ w = [';']
  rest : r.pastSemicolon = k ++ v
  trail : ∀ e ∈ k, isBlank e = true
  lineEnd : k = [] ∨ k.getLast? = some '\n'

/-- The removal of what stands between two places that are found. -/
theorem exists_takesAlong_of_found {x c r : Text} {d : Diagnostic}
    (hclamp : clampRange (x ++ (c ++ r)) d.range = ⟨positionAfter x, positionAfter (x ++ c)⟩)
    (hstart : Found x (c ++ r)) (hstop : Found (x ++ c) r) :
    ∃ m b w k v, TakesAlong x r m b w k v ∧ removeFor d (x ++ (c ++ r)) =
      .removeDeclaration ⟨positionAfter m, positionAfter (x ++ (c ++ (w ++ k)))⟩ := by
  -- the deletion ends at `x ++ c ++ w`, or further on at the next line
  obtain ⟨w, hw, hsemi, hpast, hbehind⟩ := pastSemicolon_eq hstop
  have hall : x ++ (c ++ r) = (x ++ c ++ w) ++ r.pastSemicolon := by
    conv => lhs; rw [hw]
    simp
  rw [List.append_assoc] at hpast
  rw [removeFor, hclamp]
  simp only
  rw [hpast]
  split
  · rename_i hblank
    obtain ⟨m, b, hfront, hb, hm, hpos⟩ := lineStart_eq hstart hblank
    obtain ⟨k, v, hkv, hk, hline, hrest⟩ := pastBlankRest_eq hbehind
    refine ⟨m, b, w, k, v, ⟨hfront, hb, Or.inr hm, hkv ▸ hw, hsemi, hkv, hk, hline⟩, ?_⟩
    rw [hall, hrest, ← hpos]
    simp
  · refine ⟨x, [], w, [], r.pastSemicolon,
      ⟨by simp, nofun, Or.inl rfl, hw, hsemi, rfl, nofun, Or.inl rfl⟩, ?_⟩
    simp

/-- A deletion, from the offset `s` to `e`, of what stands from `a` to `b`: besides, blanks are
deleted and a semicolon that follows at once, and nothing is left but carriage returns at the end
of the text. -/
structure Deletes (t : Text) (a b s e : Nat) : Prop where
  start_le_stop : s ≤ e
  outside : ∀ i c, t[i]? = some c → s ≤ i → i < e → i < a ∨ b ≤ i →
    isBlank c = true ∨ (c = ';' ∧ i = b)
  inside : ∀ i, a ≤ i → i < b → (s ≤ i ∧ i < e) ∨ ∀ c ∈ t.drop i, c = '\r'

namespace TakesAlong

variable {x c r m b w k v : Text}

/-- Where the removal starts is found. -/
theorem found_start (h : TakesAlong x r m b w k v) (hf : Found x (c ++ r)) :
    Found m (b ++ (c ++ r)) := by
  have hstart : b = [] ∨ (m = [] ∨ m.getLast? = some '\n') := h.lineStart
  rcases hstart with rfl | hm
  · have hx : x = m := h.front.trans (List.append_nil m)
    rw [← hx, List.nil_append]
    exact hf
  · exact Or.inl (offsetAt_lineStart hm _)

/-- Where the removal stops is found. -/
theorem found_stop (h : TakesAlong x r m b w k v) (hf : Found (x ++ c) r) :
    Found (x ++ (c ++ (w ++ k))) v := by
  by_cases hnil : w ++ k = []
  · obtain ⟨rfl, rfl⟩ := List.append_eq_nil_iff.mp hnil
    have hr : r = v := h.behind
    rw [← hr, List.append_nil, List.append_nil]
    exact hf
  · left
    apply offsetAt_of_getLast?_ne
    rw [← List.append_assoc, getLast?_append_of_ne hnil]
    rcases h.lineEnd with rfl | hk
    · rcases h.semicolon with rfl | rfl
      · exact absurd rfl hnil
      · decide
    · rw [List.getLast?_append, hk, Option.some_or]
      exact fun hcr => absurd (Option.some.inj hcr) (by decide)

/-- Behind the declaration blanks go, and a semicolon in front of them. -/
theorem eq_semicolon_of_getElem? (h : TakesAlong x r m b w k v) {i : Nat} {e : Char}
    (he : (w ++ k)[i]? = some e) : isBlank e = true ∨ (e = ';' ∧ i = 0) := by
  rcases h.semicolon with rfl | rfl
  · exact Or.inl (h.trail e (List.mem_of_getElem? he))
  · cases i with
    | zero => exact Or.inr ⟨(Option.some.inj he).symm, rfl⟩
    | succ i => exact Or.inl (h.trail e (List.mem_of_getElem? (i := i) he))

/-- The removal deletes what it is to delete. -/
theorem deletes (h : TakesAlong x r m b w k v) (hstart : Found x (c ++ r))
    (hstop : Found (x ++ c) r) :
    Deletes (x ++ (c ++ r)) x.length (x ++ c).length
      (Text.offsetAt (x ++ (c ++ r)) (positionAfter m))
      (Text.offsetAt (x ++ (c ++ r)) (positionAfter (x ++ (c ++ (w ++ k))))) := by
  have hm : x ++ (c ++ r) = m ++ (b ++ (c ++ r)) := by
    rw [h.front, List.append_assoc]
  have hz : x ++ (c ++ r) = x ++ (c ++ (w ++ k)) ++ v := by
    rw [h.behind]
    simp
  have hx : x.length = m.length + b.length := by rw [h.front, List.length_append]
  have hle : positionAfter m ≤ positionAfter (x ++ (c ++ (w ++ k))) := by
    rw [h.front, List.append_assoc]
    exact positionAfter_le_append m _
  have hordered := offsetAt_mono hle (x ++ (c ++ r))
  obtain ⟨hs, -⟩ := (h.found_start hstart).offset
  obtain ⟨he, he'⟩ := (h.found_stop hstop).offset
  rw [← hm] at hs
  rw [← hz] at he he'
  refine ⟨hordered, fun i e hi hsi hie hout => ?_, fun i hai hib => ?_⟩
  · rcases hout with hia | hbi
    · -- in front there are the blanks that start the line
      left
      rcases (h.found_start hstart).imp_left fun hs => hm ▸ hs with hs | hnil
      · rw [hm, List.getElem?_append_right (by omega),
          List.getElem?_append_left (by omega)] at hi
        exact (h.lead e (List.mem_of_getElem? hi)).1
      · -- at the end of the text there is nothing to delete
        obtain ⟨rfl, hcr⟩ := List.append_eq_nil_iff.mp hnil
        obtain ⟨rfl, hr⟩ := List.append_eq_nil_iff.mp hcr
        obtain ⟨rfl, hkv⟩ := List.append_eq_nil_iff.mp (h.behind.symm.trans hr)
        obtain ⟨rfl, rfl⟩ := List.append_eq_nil_iff.mp hkv
        have hxm : x = m := h.front.trans (List.append_nil m)
        rw [← hxm] at hsi
        rw [List.append_nil, List.append_nil, List.append_nil] at hie
        omega
    · -- behind there are the semicolon and the blanks that end the line
      have hwk : (w ++ k)[i - (x ++ c).length]? = some e := by
        have hz' : x ++ (c ++ r) = (x ++ c) ++ ((w ++ k) ++ v) := by
          rw [h.behind]
          simp
        rw [hz', List.getElem?_append_right hbi, List.getElem?_append_left] at hi
        · exact hi
        · simp only [List.length_append] at hbi he ⊢
          omega
      refine (h.eq_semicolon_of_getElem? hwk).imp_right fun ⟨hsemi, hzero⟩ => ⟨hsemi, ?_⟩
      omega
  · by_cases hie : i < Text.offsetAt (x ++ (c ++ r)) (positionAfter (x ++ (c ++ (w ++ k))))
    · exact Or.inl ⟨by omega, hie⟩
    · right
      have hreturns := he'.resolve_left fun he' => by
        simp only [List.length_append] at hib he'
        omega
      rw [← Nat.add_sub_of_le (Nat.le_of_not_lt hie), ← List.drop_drop]
      exact fun d hd => hreturns d (List.mem_of_mem_drop hd)

end TakesAlong

/-! ## The removal for any finding -/

section

variable {d : Diagnostic} {t : Text}

/-- The ends of the range of a finding, brought within the text. -/
theorem clampRange_eq_positionAfter (t : Text) (range : Range) :
    clampRange t range = ⟨positionAfter (t.take (t.offsetAt range.start)),
      positionAfter (t.take (t.offsetAt range.stop))⟩ := by
  rw [clampRange, positionAfter_take (offsetAt_le_length t _),
    positionAfter_take (offsetAt_le_length t _)]

/-- Where nothing else stands on the lines of a finding, they are what is deleted. -/
theorem removeFor_lines
    (h : OwnLines t (t.offsetAt d.range.start) (t.offsetAt d.range.stop))
    (hnext : (t.positionAt (t.offsetAt d.range.stop)).line + 1 < t.lineCount) :
    removeFor d t = .removeDeclaration ⟨⟨(t.positionAt (t.offsetAt d.range.start)).line, 0⟩,
      ⟨(t.positionAt (t.offsetAt d.range.stop)).line + 1, 0⟩⟩ := by
  obtain ⟨_, _, _, _, hcut⟩ := exists_cut (t.take (t.offsetAt d.range.start))
    (t.drop (t.offsetAt d.range.start))
  have hlead := (lineAt_positionAfter hcut (found_offsetAt t _)).2
  rw [← hcut.lastLine_eq, h.before, List.take_append_drop] at hlead
  obtain ⟨w, hw, hsemi, hpast, hfound⟩ := pastSemicolon_eq (found_offsetAt t d.range.stop)
  obtain ⟨_, _, _, _, hcut'⟩ := exists_cut (t.take (t.offsetAt d.range.stop) ++ w)
    (Text.pastSemicolon (t.drop (t.offsetAt d.range.stop)))
  have htrail := (lineAt_positionAfter hcut' hfound).1
  have hline : (positionAfter (t.take (t.offsetAt d.range.stop) ++ w)).line =
      (t.positionAt (t.offsetAt d.range.stop)).line := by
    rw [positionAfter_append, positionAfter_take (offsetAt_le_length t _)]
    rcases hsemi with rfl | rfl <;> decide
  rw [List.append_assoc, ← hw, ← hcut'.firstLine_eq, List.take_append_drop] at htrail
  rw [List.take_append_drop] at hpast
  rw [removeFor, clampRange_eq_positionAfter]
  simp only
  rw [hpast, hlead, if_pos rfl, pastBlankRest, htrail, isAllBlank_lineContent, h.behind, hline,
    Bool.true_and, decide_eq_true hnext, if_pos rfl, positionAfter_take (offsetAt_le_length t _)]

end

/-- For any finding with a range in its order, whatever stands there, a removal deletes what stands
in the range, and besides blanks only and at most one semicolon, right behind it. If nothing else
stands on its lines, and there is a next one, the result is the text without these lines. -/
theorem removal_spares {d : Diagnostic} (t : Text) (hcode : d.code = ineffectiveCode)
    (h : d.range.start ≤ d.range.stop) :
    ∃ range, removeFor d t = .removeDeclaration range ∧
      forDiagnostic d t =
        (insertFor d t).map (fun insertion => [insertion, .removeDeclaration range]) ∧
      Deletes t (t.offsetAt d.range.start) (t.offsetAt d.range.stop)
        (t.offsetAt range.start) (t.offsetAt range.stop) ∧
      (OwnLines t (t.offsetAt d.range.start) (t.offsetAt d.range.stop) →
        (t.positionAt (t.offsetAt d.range.stop)).line + 1 < t.lineCount →
        Text.lines ((removeDeclaration range).edit.apply t) =
          t.lines.take (t.positionAt (t.offsetAt d.range.start)).line.toNat ++
            t.lines.drop ((t.positionAt (t.offsetAt d.range.stop)).line.toNat + 1)) := by
  have hmono := offsetAt_mono h t
  have hstart := found_offsetAt t d.range.start
  have hstop := found_offsetAt t d.range.stop
  have hclamp := clampRange_eq_positionAfter t d.range
  -- the text in front of the range, within it and behind it
  obtain ⟨c, hxc⟩ : t.take (t.offsetAt d.range.start) <+: t.take (t.offsetAt d.range.stop) :=
    List.take_prefix_take_left hmono
  have hcr : c ++ t.drop (t.offsetAt d.range.stop) = t.drop (t.offsetAt d.range.start) := by
    have heq : t.take (t.offsetAt d.range.start) ++ (c ++ t.drop (t.offsetAt d.range.stop)) =
        t.take (t.offsetAt d.range.start) ++ t.drop (t.offsetAt d.range.start) := by
      rw [← List.append_assoc, hxc, List.take_append_drop, List.take_append_drop]
    exact List.append_cancel_left heq
  have ht : t.take (t.offsetAt d.range.start) ++ (c ++ t.drop (t.offsetAt d.range.stop)) = t := by
    rw [hcr, List.take_append_drop]
  rw [← hcr] at hstart
  rw [← hxc] at hstop hclamp
  obtain ⟨m, b, w, k, v, htakes, hremove⟩ :=
    exists_takesAlong_of_found (by rw [ht]; exact hclamp) hstart hstop
  have hdeletes := htakes.deletes hstart hstop
  rw [ht, hxc, List.length_take_of_le (offsetAt_le_length t _),
    List.length_take_of_le (offsetAt_le_length t _)] at hdeletes
  rw [ht] at hremove
  refine ⟨_, hremove, ?_, hdeletes, fun hlines hnext => ?_⟩
  · rw [forDiagnostic, if_neg (not_not_intro hcode), hremove]
    cases insertFor d t <;> rfl
  · obtain ⟨first, hfirst, hline⟩ := exists_line_positionAt (offsetAt_le_length t d.range.start)
    obtain ⟨last, _, hline'⟩ := exists_line_positionAt (offsetAt_le_length t d.range.stop)
    rw [← hremove, removeFor_lines hlines hnext, hline, hline', Int.toNat_natCast,
      Int.toNat_natCast]
    rw [hline', lineCount] at hnext
    have hlast : last + 1 < t.lines.length := by omega
    exact Edit.lines_apply_delete hfirst hlast

/-- The finding is out of date: its range reaches beyond the end of its line. The line goes. -/
theorem removal_spares_beyond :
    ∃ (t : Text) (d : Diagnostic) (range : Range), t = "a\n  b ;\nc".toList ∧
      d.range = ⟨⟨1, 2⟩, ⟨1, 9⟩⟩ ∧ removeFor d t = .removeDeclaration range ∧
      (removeDeclaration range).edit.apply t = "a\nc".toList := by
  obtain ⟨range, hremove, -, -, hlines⟩ := removal_spares
    (d := ⟨⟨⟨1, 2⟩, ⟨1, 9⟩⟩, "", .warning, ineffectiveCode, "", [], ""⟩) "a\n  b ;\nc".toList rfl
    (by decide)
  refine ⟨_, _, range, rfl, rfl, hremove, ?_⟩
  have hlines := hlines ⟨by decide, by decide⟩ (by decide)
  exact eq_of_lines_eq (hlines.trans (by decide))

end QuickFix
end Stacking
