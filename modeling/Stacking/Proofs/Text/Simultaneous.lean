import Mathlib.Data.List.Nodup
import Stacking.Proofs.Text.Substitution

/-!
# When edits come out as if made at once

Edits that do not overlap are made from the last to the first, so that nothing in front of an edit
has moved when its turn comes. One thing can still go wrong. Carriage returns that end a line do not
count as its content, so where an edit ends behind a carriage return and the edits made before it
have left nothing else on the line, it finds its end in front of the carriage returns
(`Edit.Stranded`). Then it deletes too little, or inserts too far in front.

`Edit.applyAll_eq_substitute_iff` says that the edits come out as if all were made at once exactly
if no edit is stranded but those that insert carriage returns only. That nothing else matters is
plain; that an edit which has gone wrong is not put right by those in front of it is shown by what
stays wrong (`Edit.Astray`): the text is too long, or as long as it should be but different behind
the place up to which edits are still to come.
-/

namespace Stacking

/-! ## Ends of a range in another text -/

namespace Text

/-- What follows a text that does not end with a carriage return has no bearing on whether its first
line has content. -/
theorem not_hollow_append {g z : Text} (hne : g ≠ []) (hlast : g.getLast? ≠ some '\r')
    (h : ¬(g ++ z).Hollow) (y : Text) : ¬(g ++ y).Hollow := by
  intro hall
  unfold Hollow at h hall
  rw [List.takeWhile_append] at h hall
  split at hall
  · apply hlast
    rw [List.getLast?_eq_some_getLast hne,
      hall (g.getLast hne) (List.mem_append_left _ (List.getLast_mem hne))]
  · -- the first line ends within `g`
    rename_i hwithin
    rw [if_neg hwithin] at h
    exact h hall

/-- A place in a text that does not end with a carriage return is found at its offset or not whatever
follows the text. -/
theorem offsetAt_take_congr {x z : Text} {a : Nat} (hlast : x.getLast? ≠ some '\r')
    (ha : a ≤ x.length) (h : (x ++ z).offsetAt (positionAfter (x.take a)) = a) (y : Text) :
    (x ++ y).offsetAt (positionAfter (x.take a)) = a := by
  have hlength : (x.take a).length = a := List.length_take_of_le ha
  have hthere := offsetAt_eq_length_iff (x.take a) (x.drop a ++ z)
  have hhere := offsetAt_eq_length_iff (x.take a) (x.drop a ++ y)
  rw [← List.append_assoc, List.take_append_drop, hlength] at hthere hhere
  rw [hhere]
  intro hreturn
  have hne : x.drop a ≠ [] := by
    intro hnil
    rw [← List.take_append_drop a x, hnil, List.append_nil] at hlast
    exact hlast hreturn
  refine not_hollow_append hne ?_ (hthere.mp h hreturn) y
  rw [← getLast?_append_of_ne hne (x.take a), List.take_append_drop]
  exact hlast

theorem take_eq_append_returns {t : Text} {n : Nat} :
    ∃ w, t.take n = lineContent (t.take n) ++ w ∧ (∀ c ∈ w, c = '\r') ∧ '\n' ∉ w := by
  obtain ⟨w, hw, hblank⟩ := dropEndWhile_append (· == '\r') (t.take n)
  have hall : ∀ c ∈ w, c = '\r' := by simpa using hblank
  exact ⟨w, hw, hall, fun h => absurd (hall _ h) (by decide)⟩

/-- A range from `a` to `b` is found from `a'` to `b'`: where it was, or shorter, or, if it is empty,
in front of where it was. -/
structure Drawn (a b a' b' : Nat) : Prop where
  start_le : a' ≤ a
  start_le_stop : a' ≤ b'
  cases : (a' = a ∧ b' = b) ∨ b' + a < b + a' ∨ (a = b ∧ a' = b' ∧ a' < a)

/-- Where the ends `p` and `q` of a range are found in a text `u` that starts as `t` does up to the
carriage returns in front of `q`. -/
theorem offsetAt_drawn {t u : Text} {p q : Position} (hp : t.positionAt (t.offsetAt p) = p)
    (hq : t.positionAt (t.offsetAt q) = q) (hpq : t.offsetAt p ≤ t.offsetAt q)
    (hu : lineContent (t.take (t.offsetAt q)) <+: u) :
    (lineContent (t.take (t.offsetAt p))).length ≤ u.offsetAt p ∧
      Drawn (t.offsetAt p) (t.offsetAt q) (u.offsetAt p) (u.offsetAt q) := by
  have hle := t.offsetAt_le_length q
  have hoffset : t.offsetAt (positionAfter (t.take (t.offsetAt p))) = t.offsetAt p := by
    rw [positionAfter_take (t.offsetAt_le_length p), hp]
  rw [← positionAfter_take (t.offsetAt_le_length p)] at hp
  rw [← positionAfter_take hle] at hq
  generalize t.offsetAt p = a at *
  generalize t.offsetAt q = b at *
  subst hp hq
  -- the carriage returns in front of the later end
  obtain ⟨w, hsplit, hw, hlf⟩ := take_eq_append_returns (t := t) (n := b)
  have hlast := getLast?_lineContent (t.take b)
  generalize lineContent (t.take b) = x at *
  obtain ⟨y, rfl⟩ := hu
  have hsum : b = x.length + w.length := by
    rw [← List.length_append, ← hsplit, List.length_take_of_le hle]
  have hstop := offsetAt_behind hlast hlf y
  rw [← hsplit] at hstop
  rw [hstop]
  have htake : t.take a = (x ++ w).take a := by rw [← hsplit, List.take_take, Nat.min_eq_left hpq]
  by_cases ha : a ≤ x.length
  · -- the earlier end is in front of them, on a line with content
    rw [List.take_append_of_le_length ha] at htake
    have hlength : (x.take a).length = a := List.length_take_of_le ha
    have htext : t = x ++ (w ++ t.drop b) := by
      rw [← List.append_assoc, ← hsplit, List.take_append_drop]
    have hstart : (x ++ y).offsetAt (positionAfter (t.take a)) = a := by
      rw [htake] at hoffset ⊢
      exact offsetAt_take_congr hlast ha (htext ▸ hoffset) y
    have hshort := length_lineContent_le (t.take a)
    rw [htake, hlength] at hshort
    rw [hstart, htake]
    refine ⟨hshort, ?_, ?_, ?_⟩ <;> omega
  · -- both ends are among them
    have hwithin : t.take a = x ++ w.take (a - x.length) := by
      rw [htake, List.take_append, List.take_of_length_le (by omega)]
    have hreturns : ∀ c ∈ w.take (a - x.length), c = '\r' := fun c hc =>
      hw c (List.mem_of_mem_take hc)
    have hstart := offsetAt_behind hlast
      (fun h => hlf (List.mem_of_mem_take h) : '\n' ∉ w.take (a - x.length)) y
    rw [← hwithin, List.length_take] at hstart
    rw [hstart, hwithin, lineContent_append_of_all hreturns, lineContent_eq_self hlast]
    refine ⟨?_, ?_, ?_, ?_⟩ <;> omega

end Text

namespace Edit

/-! ## Edits that lose their place -/

/-- Edits that do not overlap: their ranges are the right way round and lie in the text, and of any
two one ends where the other starts or in front of it. -/
structure Apart (t : Text) (edits : List Edit) : Prop where
  start_le_stop : ∀ e ∈ edits, e.range.start ≤ e.range.stop
  inside : ∀ e ∈ edits, t.clampRange e.range = e.range
  apart : edits.Pairwise fun e f =>
    e.range.stop ≤ f.range.start ∨ f.range.stop ≤ e.range.start

/-- The edit ends behind a carriage return, and the later edits leave nothing but carriage returns
behind it on its line. -/
def Stranded (t : Text) (e : Edit) (later : List Edit) : Prop :=
  (t.take (t.offsetAt e.range.stop)).getLast? = some '\r' ∧
    (substitute t (t.offsetAt e.range.stop) later).Hollow

/-- The edit inserts carriage returns, if anything. -/
def AddsReturns (e : Edit) : Prop := e.range.start = e.range.stop ∧ ∀ c ∈ e.newText, c = '\r'

/-- No edit of an ordered list is stranded, unless it makes no difference. -/
def KeepPlaces (t : Text) : List Edit → Prop
  | [] => True
  | e :: later => (Stranded t e later → AddsReturns e) ∧ KeepPlaces t later

instance (y : Text) : Decidable y.Hollow := List.decidableBAll (· = '\r') _

instance (t : Text) (e : Edit) (later : List Edit) : Decidable (Stranded t e later) :=
  inferInstanceAs (Decidable (_ ∧ _))

instance (e : Edit) : Decidable (AddsReturns e) :=
  have : Decidable (∀ c ∈ e.newText, c = '\r') := List.decidableBAll (· = '\r') _
  inferInstanceAs (Decidable (_ ∧ _))

instance decidableKeepPlaces (t : Text) : (edits : List Edit) → Decidable (KeepPlaces t edits)
  | [] => isTrue trivial
  | e :: later =>
    have := decidableKeepPlaces t later
    inferInstanceAs (Decidable ((Stranded t e later → AddsReturns e) ∧ KeepPlaces t later))

/-! ## What stays wrong -/

/-- The text `u` can no longer become what `s` becomes by edits in front of offset `n`: it is longer,
or it is as long but differs behind `n`. -/
def Astray (n : Nat) (u s : Text) : Prop :=
  s.length < u.length ∨ (s.length = u.length ∧ u.drop n ≠ s.drop n)

theorem Astray.ne {n : Nat} {u s : Text} (h : Astray n u s) : u ≠ s := by
  rintro rfl
  rcases h with h | ⟨-, h⟩
  · omega
  · exact h rfl

section Replacing

variable {u s new : Text} {a b a' b' n : Nat}

theorem length_replaced (new : Text) (hu : a' ≤ b') (hb' : b' ≤ u.length) :
    (u.take a' ++ new ++ u.drop b').length + b' = u.length + new.length + a' := by
  simp only [List.length_append, List.length_drop, List.length_take_of_le (Nat.le_trans hu hb')]
  omega

theorem drop_replaced (h : n ≤ u.length) : (u.take n ++ new ++ u.drop b).drop n = new ++ u.drop b := by
  rw [List.append_assoc, List.drop_left' (List.length_take_of_le h)]

/-- What is inserted too far in front pushes back what should have stood in front of it. -/
theorem drop_inserted_early (hlt : a' ≤ a) (ha : a ≤ u.length) :
    (u.take a' ++ new ++ u.drop a').drop a =
      (new ++ (u.take a).drop a').drop (a - a') ++ u.drop a := by
  have hlength : (u.take a').length = a' := List.length_take_of_le (by omega)
  rw [List.append_assoc, List.drop_append, hlength, List.drop_of_length_le (by omega),
    List.nil_append, Text.drop_eq_append hlt u, ← List.append_assoc, List.drop_append_of_le_length]
  simp only [List.length_append, List.length_drop, List.length_take_of_le ha]
  omega

theorem drop_inserted_early_ne (hlt : a' ≤ a) (ha : a ≤ u.length) (hne : u.drop a ≠ s.drop a) :
    (u.take a' ++ new ++ u.drop a').drop a ≠ new ++ s.drop a := by
  rw [drop_inserted_early hlt ha]
  intro heq
  apply hne
  refine (List.append_inj heq ?_).2
  simp only [List.length_append, List.length_drop, List.length_take_of_le ha]
  omega

/-- An edit keeps a text astray, whether it finds its range or not. -/
theorem Astray.replaced (h : Astray n u s) (hab : a ≤ b) (hbn : b ≤ n) (hns : n ≤ s.length)
    (hdrawn : Text.Drawn a b a' b') (hb' : b' ≤ u.length) :
    Astray a (u.take a' ++ new ++ u.drop b') (s.take a ++ new ++ s.drop b) := by
  have hlu := length_replaced new hdrawn.start_le_stop hb'
  have hls := length_replaced new hab (Nat.le_trans hbn hns)
  have hcases := hdrawn.cases
  rcases h with hlong | ⟨hlength, hne⟩
  · left
    omega
  · -- a difference behind `n` is one behind `b`
    have hne : u.drop b ≠ s.drop b := by
      intro heq
      apply hne
      rw [← Nat.add_sub_of_le hbn, ← List.drop_drop, ← List.drop_drop, heq]
    rcases hcases with ⟨rfl, rfl⟩ | hnarrow | ⟨rfl, rfl, hlt⟩
    · right
      refine ⟨by omega, ?_⟩
      rw [drop_replaced (by omega), drop_replaced (by omega)]
      exact fun heq => hne (List.append_cancel_left heq)
    · left
      omega
    · right
      refine ⟨by omega, ?_⟩
      rw [drop_replaced (Nat.le_trans hbn hns)]
      exact drop_inserted_early_ne (Nat.le_of_lt hlt) (by omega) hne

end Replacing

/-! ## What a stranded edit does -/

/-- Only a text of one character repeated goes on as before when it is put behind itself with some
more of them. -/
theorem eq_of_drop_append {c : Char} {new w : Text} (hw : ∀ d ∈ w, d = c) (hne : w ≠ [])
    (h : (new ++ w).drop w.length = new) : ∀ d ∈ new, d = c := by
  have hpos := List.length_pos_iff.mpr hne
  -- each character is the one `w.length` places behind it
  have hget : ∀ i, i < new.length → new[i]? = (new ++ w)[w.length + i]? := by
    intro i _
    conv => lhs; rw [← h]
    exact List.getElem?_drop
  have hall : ∀ k i, new.length ≤ i + k → ∀ d ∈ new[i]?, d = c := by
    intro k
    induction k with
    | zero =>
      intro i hi d hd
      rw [List.getElem?_eq_none (by omega)] at hd
      exact nomatch hd
    | succ k ih =>
      intro i hi d hd
      have hlt : i < new.length := (List.getElem?_eq_some_iff.mp hd).1
      rw [hget i hlt, List.getElem?_append] at hd
      split at hd
      · exact ih (w.length + i) (by omega) d hd
      · exact hw d (List.mem_of_getElem? hd)
  intro d hd
  obtain ⟨i, hi⟩ := List.getElem?_of_mem hd
  exact hall new.length i (by omega) d hi

/-- Carriage returns can be put in front of others as well as behind them. -/
theorem append_comm_of_all {c : Char} {v w : Text} (hv : ∀ d ∈ v, d = c) (hw : ∀ d ∈ w, d = c) :
    v ++ w = w ++ v := by
  rw [List.eq_replicate_of_mem hv, List.eq_replicate_of_mem hw, List.replicate_append_replicate,
    List.replicate_append_replicate, Nat.add_comm]

/-- What is inserted in front of carriage returns and not behind them comes to the same exactly if it
consists of them, and is astray otherwise. -/
theorem inserted_early {s new : Text} {a a' : Nat} (hlt : a' < a) (ha : a ≤ s.length)
    (hw : ∀ c ∈ (s.take a).drop a', c = '\r') :
    ((∀ c ∈ new, c = '\r') →
        s.take a' ++ new ++ s.drop a' = s.take a ++ new ++ s.drop a) ∧
      (¬(∀ c ∈ new, c = '\r') →
        Astray a (s.take a' ++ new ++ s.drop a') (s.take a ++ new ++ s.drop a)) := by
  have hlength : ((s.take a).drop a').length = a - a' := by
    rw [List.length_drop, List.length_take_of_le ha]
  constructor
  · intro hnew
    have hfront : s.take a = s.take a' ++ (s.take a).drop a' := by
      conv => lhs; rw [← List.take_append_drop a' (s.take a), List.take_take,
        Nat.min_eq_left (Nat.le_of_lt hlt)]
    rw [Text.drop_eq_append (Nat.le_of_lt hlt) s]
    generalize (s.take a).drop a' = w at *
    rw [hfront, List.append_assoc _ w, ← append_comm_of_all hnew hw]
    simp only [List.append_assoc]
  · intro hnew
    right
    refine ⟨by simp only [List.length_append, List.length_take, List.length_drop]; omega, ?_⟩
    rw [drop_replaced ha, drop_inserted_early (Nat.le_of_lt hlt) ha, ← hlength]
    intro heq
    apply hnew
    refine eq_of_drop_append hw (fun hnil => ?_) (List.append_cancel_right heq)
    rw [hnil, List.length_nil] at hlength
    omega

section Steps

variable {t : Text} {e : Edit} {later : List Edit} {n : Nat}

theorem substitute_cons (t : Text) (e : Edit) (later : List Edit) :
    substitute t 0 (e :: later) = t.take (t.offsetAt e.range.start) ++ e.newText ++
      substitute t (t.offsetAt e.range.stop) later := by
  rw [substitute, List.drop_zero, List.append_assoc]

/-- What the later edits make of the text, cut at a place in front of them. -/
theorem take_substitute (hn : n ≤ t.length)
    (h : ∀ f ∈ later.head?, n ≤ t.offsetAt f.range.start) :
    (substitute t 0 later).take n = t.take n ∧ (substitute t 0 later).drop n = substitute t n later := by
  have hlength : (t.take n).length = n := List.length_take_of_le hn
  rw [substitute_eq_append (Nat.zero_le n) h, List.drop_zero]
  exact ⟨List.take_left' hlength, List.drop_left' hlength⟩

/-- The edit comes next, in front of the later ones. -/
structure Next (t : Text) (e : Edit) (later : List Edit) : Prop where
  start_le_stop : e.range.start ≤ e.range.stop
  inside : t.clampRange e.range = e.range
  behind : ∀ f ∈ later.head?, t.offsetAt e.range.stop ≤ t.offsetAt f.range.start

namespace Next

theorem start_eq (h : Next t e later) : t.positionAt (t.offsetAt e.range.start) = e.range.start :=
  congrArg Range.start h.inside

theorem stop_eq (h : Next t e later) : t.positionAt (t.offsetAt e.range.stop) = e.range.stop :=
  congrArg Range.stop h.inside

theorem offset_le (h : Next t e later) :
    t.offsetAt e.range.start ≤ t.offsetAt e.range.stop :=
  Text.offsetAt_mono h.start_le_stop t

/-- The end of the edit is where it was unless it is stranded. -/
theorem offsetAt_stop_iff (h : Next t e later) :
    Text.offsetAt (substitute t 0 later) e.range.stop = t.offsetAt e.range.stop ↔
      ¬Stranded t e later := by
  have hle := t.offsetAt_le_length e.range.stop
  obtain ⟨hfront, hrest⟩ := take_substitute hle h.behind
  have hiff := Text.offsetAt_eq_length_iff (t.take (t.offsetAt e.range.stop))
    (substitute t (t.offsetAt e.range.stop) later)
  rw [Text.positionAfter_take hle, h.stop_eq, List.length_take_of_le hle] at hiff
  rw [← List.take_append_drop (t.offsetAt e.range.stop) (substitute t 0 later), hfront, hrest, hiff,
    Stranded, not_and]

/-- Where the edit finds its range in a text that starts as it should. -/
theorem drawn (h : Next t e later) {u : Text}
    (hu : Text.lineContent (t.take (t.offsetAt e.range.stop)) <+: u) :
    (Text.lineContent (t.take (t.offsetAt e.range.start))).length ≤ u.offsetAt e.range.start ∧
      Text.Drawn (t.offsetAt e.range.start) (t.offsetAt e.range.stop)
        (u.offsetAt e.range.start) (u.offsetAt e.range.stop) :=
  Text.offsetAt_drawn h.start_eq h.stop_eq h.offset_le hu

/-- What the edit should make of what the later ones make of the text. -/
theorem substitute_eq (h : Next t e later) :
    t.offsetAt e.range.stop ≤ (substitute t 0 later).length ∧
      substitute t 0 (e :: later) =
        (substitute t 0 later).take (t.offsetAt e.range.start) ++ e.newText ++
          (substitute t 0 later).drop (t.offsetAt e.range.stop) := by
  have hle := t.offsetAt_le_length e.range.stop
  obtain ⟨hfront, hrest⟩ := take_substitute hle h.behind
  constructor
  · rw [← List.length_take_of_le hle, ← hfront]
    exact List.length_take_le' _ _
  · rw [substitute_cons, hrest, ← Nat.min_eq_left h.offset_le, ← List.take_take, ← List.take_take,
      hfront]

/-- Made right after the later edits came out as if at once, the edit does so too, unless it is
stranded and makes a difference; then the text goes astray. -/
theorem apply_substitute (h : Next t e later) :
    ((Stranded t e later → AddsReturns e) →
        e.apply (substitute t 0 later) = substitute t 0 (e :: later)) ∧
      (¬(Stranded t e later → AddsReturns e) →
        Astray (t.offsetAt e.range.start) (e.apply (substitute t 0 later))
          (substitute t 0 (e :: later))) := by
  have hiff := h.offsetAt_stop_iff
  obtain ⟨hlength, hright⟩ := h.substitute_eq
  -- the later edits leave the text in front of them
  have hfront := (take_substitute (t.offsetAt_le_length e.range.stop) h.behind).1
  obtain ⟨w, hsplit, hw, -⟩ := Text.take_eq_append_returns (t := t) (n := t.offsetAt e.range.stop)
  have hstarts : Text.lineContent (t.take (t.offsetAt e.range.stop)) <+: substitute t 0 later := by
    rw [← hfront] at hsplit ⊢
    exact (List.prefix_append _ w).trans (hsplit ▸ List.take_prefix _ _)
  obtain ⟨hkeep, hdrawn⟩ := h.drawn hstarts
  have hend := Text.offsetAt_le_length (substitute t 0 later) e.range.stop
  rw [hright, apply]
  rcases hdrawn.cases with ⟨hstart, hstop⟩ | hnarrow | ⟨hsame, hsame', hlt⟩
  · -- the range is where it was
    refine ⟨fun _ => by rw [hstart, hstop], fun hnot => ?_⟩
    exact absurd (fun hstranded => absurd hstranded (hiff.mp hstop)) hnot
  · -- too little is deleted
    have hstranded : Stranded t e later := by
      by_contra hno
      have := hiff.mpr hno
      have := hdrawn.start_le
      omega
    refine ⟨fun hadds => ?_, fun _ => Or.inl ?_⟩
    · rw [(hadds hstranded).1] at hnarrow
      omega
    · have := length_replaced e.newText hdrawn.start_le_stop hend
      have := length_replaced e.newText h.offset_le hlength
      omega
  · -- what is inserted comes to stand too far in front
    have hstranded : Stranded t e later := by
      by_contra hno
      have := hiff.mpr hno
      omega
    have hpoint : e.range.start = e.range.stop := by rw [← h.start_eq, hsame, h.stop_eq]
    have hadds : (Stranded t e later → AddsReturns e) ↔ ∀ c ∈ e.newText, c = '\r' :=
      ⟨fun hadds => (hadds hstranded).2, fun hall _ => ⟨hpoint, hall⟩⟩
    rw [← hsame', hadds, ← hsame]
    refine inserted_early hlt (by omega) fun c hc => ?_
    -- only carriage returns stand between the two places
    rw [hsame, hfront, hsplit, List.drop_append, List.drop_of_length_le (by rwa [hsame] at hkeep),
      List.nil_append] at hc
    exact hw c (List.mem_of_mem_drop hc)

end Next

end Steps

/-! ## All edits -/

section Runs

variable {t : Text} {edits : List Edit}

/-- The edits follow each other in the text, from the first to the last. -/
structure Following (t : Text) (edits : List Edit) : Prop where
  start_le_stop : ∀ e ∈ edits, e.range.start ≤ e.range.stop
  inside : ∀ e ∈ edits, t.clampRange e.range = e.range
  stop_le_start : edits.Pairwise fun e f => e.range.stop ≤ f.range.start

namespace Following

theorem tail {e : Edit} {later : List Edit} (h : Following t (e :: later)) : Following t later where
  start_le_stop f hf := h.start_le_stop f (List.mem_cons_of_mem e hf)
  inside f hf := h.inside f (List.mem_cons_of_mem e hf)
  stop_le_start := (List.pairwise_cons.mp h.stop_le_start).2

theorem next {e : Edit} {later : List Edit} (h : Following t (e :: later)) : Next t e later where
  start_le_stop := h.start_le_stop e List.mem_cons_self
  inside := h.inside e List.mem_cons_self
  behind f hf := Text.offsetAt_mono
    ((List.pairwise_cons.mp h.stop_le_start).1 f (List.mem_of_mem_head? hf)) t

theorem inOrder (h : Following t edits) : InOrder t edits where
  start_le_stop e he := Text.offsetAt_mono (h.start_le_stop e he) t
  stop_le_start := h.stop_le_start.imp fun hle => Text.offsetAt_mono hle t

/-- The edits leave the text in front of them, but for carriage returns at its end. -/
theorem prefix_foldr (h : Following t edits) {n : Nat} (hn : n ≤ t.length)
    (hfront : ∀ e ∈ edits.head?, n ≤ t.offsetAt e.range.start) :
    Text.lineContent (t.take n) <+: edits.foldr (fun e u => e.apply u) t := by
  induction edits generalizing n with
  | nil =>
    obtain ⟨w, hsplit, -⟩ := Text.take_eq_append_returns (t := t) (n := n)
    exact (List.prefix_append _ w).trans (hsplit ▸ List.take_prefix n t)
  | cons e later ih =>
    have hnext := h.next
    have hstop := ih h.tail (t.offsetAt_le_length _) hnext.behind
    obtain ⟨hkeep, -⟩ := hnext.drawn hstop
    have hmono : ∀ {i j : Nat}, i ≤ j →
        Text.lineContent (t.take i) <+: Text.lineContent (t.take j) := by
      intro i j hij
      rw [← Nat.min_eq_left hij, ← List.take_take]
      conv => rhs; rw [← List.take_append_drop i (t.take j)]
      exact Text.lineContent_prefix _ _
    have hstart := (hmono hnext.offset_le).trans hstop
    refine (hmono (hfront e rfl)).trans ?_
    rw [List.foldr_cons, apply, List.append_assoc]
    exact (List.prefix_take_iff.mpr ⟨hstart, hkeep⟩).trans (List.prefix_append _ _)

/-- Made from the last to the first, the edits come out as if made at once if none is stranded;
otherwise the text goes astray, and no edit further in front puts that right. -/
theorem foldr_apply_cases (h : Following t edits) :
    (KeepPlaces t edits → edits.foldr (fun e u => e.apply u) t = substitute t 0 edits) ∧
      (¬KeepPlaces t edits → ∃ e ∈ edits.head?, Astray (t.offsetAt e.range.start)
        (edits.foldr (fun e u => e.apply u) t) (substitute t 0 edits)) := by
  induction edits with
  | nil => exact ⟨fun _ => rfl, fun hnot => absurd trivial hnot⟩
  | cons e later ih =>
    have hnext := h.next
    obtain ⟨hright, hastray⟩ := ih h.tail
    rw [List.foldr_cons]
    by_cases hlater : KeepPlaces t later
    · rw [hright hlater]
      have hkeep : KeepPlaces t (e :: later) ↔ (Stranded t e later → AddsReturns e) :=
        and_iff_left hlater
      rw [hkeep]
      exact ⟨hnext.apply_substitute.1, fun hnot => ⟨e, rfl, hnext.apply_substitute.2 hnot⟩⟩
    · refine ⟨fun hkeep => absurd hkeep.2 hlater, fun _ => ⟨e, rfl, ?_⟩⟩
      obtain ⟨f, hf, hwrong⟩ := hastray hlater
      have hdrawn := (hnext.drawn (h.tail.prefix_foldr (t.offsetAt_le_length _) hnext.behind)).2
      have hreach : t.offsetAt f.range.start ≤ (substitute t 0 later).length := by
        have hfront := (take_substitute (t.offsetAt_le_length f.range.start)
          (fun g hg => by rw [Option.mem_unique hf hg])).1
        rw [← List.length_take_of_le (t.offsetAt_le_length f.range.start), ← hfront]
        exact List.length_take_le' _ _
      rw [hnext.substitute_eq.2]
      exact hwrong.replaced hnext.offset_le (hnext.behind f hf) hreach hdrawn
        (Text.offsetAt_le_length _ _)

end Following

/-- The edits in the order of the text. -/
theorem Apart.following (h : Apart t edits) : Following t (edits.mergeSort isLater).reverse := by
  have hperm := List.mergeSort_perm edits isLater
  have hmem : ∀ e ∈ (edits.mergeSort isLater).reverse, e ∈ edits := fun e he =>
    hperm.subset (List.mem_reverse.mp he)
  refine ⟨fun e he => h.start_le_stop e (hmem e he), fun e he => h.inside e (hmem e he), ?_⟩
  have hapart := (hperm.pairwise_iff fun {e f} hef => hef.symm).mpr h.apart
  refine List.pairwise_reverse.mpr
    (((List.pairwise_mergeSort isLater_trans isLater_total edits).and hapart).imp_of_mem ?_)
  intro e f he hf ⟨hlater, hcase⟩
  have he := h.start_le_stop e (hperm.subset he)
  have hf := h.start_le_stop f (hperm.subset hf)
  simp only [isLater_iff, Position.lt_iff, Position.le_iff, Position.eq_iff] at hlater hcase he hf ⊢
  omega

/-- Of edits with different ranges, the order in which they are given makes no difference. -/
theorem applyAll_perm {edits' : List Edit} (hnodup : (edits.map (·.range)).Nodup)
    (hperm : edits'.Perm edits) (t : Text) : applyAll t edits' = applyAll t edits := by
  have hsame : edits'.mergeSort isLater = edits.mergeSort isLater := by
    refine List.Perm.eq_of_pairwise (fun e f he hf hef hfe => ?_)
      (List.pairwise_mergeSort isLater_trans isLater_total edits')
      (List.pairwise_mergeSort isLater_trans isLater_total edits)
      ((List.mergeSort_perm edits' _).trans (hperm.trans (List.mergeSort_perm edits _).symm))
    have he : e ∈ edits := hperm.subset ((List.mergeSort_perm edits' _).subset he)
    have hf : f ∈ edits := (List.mergeSort_perm edits _).subset hf
    refine List.inj_on_of_nodup_map hnodup he hf ?_
    -- neither range is later than the other
    have hstart : e.range.start = f.range.start ∧ e.range.stop = f.range.stop := by
      simp only [isLater_iff, Position.lt_iff, Position.le_iff, Position.eq_iff] at hef hfe ⊢
      omega
    cases hr : e.range
    cases hr' : f.range
    rw [hr, hr'] at hstart
    exact congrArg₂ Range.mk hstart.1 hstart.2
  rw [applyAll, applyAll, hsame]

/-- Edits that do not overlap, in the order in which they stand in the text, come out as if all were
made at once exactly if each keeps its place: none ends behind a carriage return with nothing else
left behind it on its line, but for insertions of carriage returns. In any case the order in which
they are given makes no difference, if their ranges are different. -/
theorem applyAll_eq_substitute_iff (h : Apart t edits) :
    ∃ ordered, ordered.Perm edits ∧
      (ordered.Pairwise fun e f => e.range.stop ≤ f.range.start) ∧ InOrder t ordered ∧
      (applyAll t edits = substitute t 0 ordered ↔ KeepPlaces t ordered) ∧
      ((edits.map (·.range)).Nodup →
        ∀ edits' : List Edit, edits'.Perm edits → applyAll t edits' = applyAll t edits) := by
  have hfollowing := h.following
  refine ⟨_, (List.reverse_perm _).trans (List.mergeSort_perm edits isLater),
    hfollowing.stop_le_start, hfollowing.inOrder, ?_,
    fun hnodup edits' hperm => applyAll_perm hnodup hperm t⟩
  rw [applyAll, ← List.foldr_reverse]
  obtain ⟨hright, hastray⟩ := hfollowing.foldr_apply_cases
  refine ⟨fun heq => ?_, hright⟩
  by_contra hnot
  obtain ⟨e, -, hwrong⟩ := hastray hnot
  exact hwrong.ne heq

/-- What stands behind a carriage return in the middle of a line is deleted, and what stands in front
of it, the carriage return included, gives way to `x`: the carriage return stays. -/
theorem applyAll_eq_substitute_iff_stranded :
    ∃ (t : Text) (edits : List Edit), t = "a\rb".toList ∧
      edits = [⟨⟨⟨0, 0⟩, ⟨0, 2⟩⟩, ['x']⟩, ⟨⟨⟨0, 2⟩, ⟨0, 3⟩⟩, []⟩] ∧ Apart t edits ∧
      substitute t 0 edits = ['x'] ∧ applyAll t edits ≠ ['x'] := by
  have hapart : Apart "a\rb".toList [⟨⟨⟨0, 0⟩, ⟨0, 2⟩⟩, ['x']⟩, ⟨⟨⟨0, 2⟩, ⟨0, 3⟩⟩, []⟩] :=
    ⟨by decide, by decide, by decide⟩
  obtain ⟨ordered, hperm, horder, -, hiff, -⟩ := applyAll_eq_substitute_iff hapart
  have hordered : ordered = [⟨⟨⟨0, 0⟩, ⟨0, 2⟩⟩, ['x']⟩, ⟨⟨⟨0, 2⟩, ⟨0, 3⟩⟩, []⟩] := by
    -- the order of the text leaves no choice
    refine List.Perm.eq_of_pairwise (fun e f he hf hef hfe => ?_) horder (by decide) hperm
    have he := hperm.subset he
    simp only [List.mem_cons, List.not_mem_nil, or_false] at he hf
    rcases he with rfl | rfl <;> rcases hf with rfl | rfl
    · rfl
    · exact absurd hfe (by decide)
    · exact absurd hef (by decide)
    · rfl
  subst hordered
  have hsubstitute : substitute "a\rb".toList 0
      [⟨⟨⟨0, 0⟩, ⟨0, 2⟩⟩, ['x']⟩, ⟨⟨⟨0, 2⟩, ⟨0, 3⟩⟩, []⟩] = ['x'] := by decide
  refine ⟨_, _, rfl, rfl, hapart, hsubstitute, fun hsame => ?_⟩
  exact absurd (hiff.mp (hsame.trans hsubstitute.symm)) (by decide)

end Runs

end Edit
end Stacking
