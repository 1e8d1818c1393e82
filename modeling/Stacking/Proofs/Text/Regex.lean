import Mathlib.Data.List.Basic
import Stacking.Text.Basic

/-!
# Regular expressions

A regular expression is tried at the start of a text, and what it leaves over is a rest of the text.
There may be several: `Regex.ends` lists them in the order in which a matcher that goes back on its
choices comes to them. The first one counts (`Regex.match?`).

Most expressions of a lexer never have to go back: where a repetition can go on, what stands behind
it does not match (`match?_star_seq_of_single`), and a repetition at the very end follows the first
choice at every step (`match?_star_of_some`).
-/

namespace Stacking

/-- A regular expression over characters. -/
inductive Regex where
  /-- Nothing. -/
  | empty
  /-- One character of a class. -/
  | one (p : Char → Bool)
  | seq (a b : Regex)
  /-- One or the other, the first one being tried first. -/
  | alt (a b : Regex)
  /-- Any number of times: as often as possible if `greedy`, else as seldom as possible. -/
  | star (greedy : Bool) (a : Regex)
  /-- Nothing, where the expression matches what follows. -/
  | ahead (a : Regex)
  /-- Nothing, where the expression does not match what follows. -/
  | notAhead (a : Regex)

namespace Regex

/-- What is left by repeating `step`, the preferred rest first. A repetition that takes nothing is
not tried. -/
def iterate (step : Text → List Text) (greedy : Bool) (t : Text) : List Text :=
  let more := ((step t).filter fun r => r.length < t.length).attach.flatMap fun r =>
    iterate step greedy r.1
  if greedy then more ++ [t] else t :: more
termination_by t.length
decreasing_by
  have hr := (List.mem_filter.mp r.2).2
  exact of_decide_eq_true hr

/-- What an expression may leave over of a text, the preferred rest first. -/
def ends : Regex → Text → List Text
  | empty, t => [t]
  | one _, [] => []
  | one p, c :: t => if p c then [t] else []
  | seq a b, t => (a.ends t).flatMap b.ends
  | alt a b, t => a.ends t ++ b.ends t
  | star greedy a, t => iterate a.ends greedy t
  | ahead a, t => if (a.ends t).isEmpty then [] else [t]
  | notAhead a, t => if (a.ends t).isEmpty then [t] else []

/-- What is left of a text where an expression matches its start. -/
def match? (a : Regex) (t : Text) : Option Text := (a.ends t).head?

/-! ## Shorthands -/

/-- The character itself. -/
def char (c : Char) : Regex := one (· == c)

/-- One character after the other. -/
def str : Text → Regex
  | [] => empty
  | c :: w => seq (char c) (str w)

/-- Any character but a line feed. -/
def dot : Regex := one (· != '\n')

/-- At least once, and as often as possible. -/
def plus (a : Regex) : Regex := seq a (star true a)

/-! ## Rests -/

/-- The expression never matches without taking something. -/
def Consumes (a : Regex) : Prop := ∀ t, ∀ r ∈ a.ends t, r.length < t.length

theorem ends_one_cons (p : Char → Bool) (c : Char) (t : Text) :
    (one p).ends (c :: t) = if p c then [t] else [] := rfl

theorem ends_char_self (c : Char) (t : Text) : (char c).ends (c :: t) = [t] := by
  simp [char, ends]

theorem ends_char_of_ne {c d : Char} (h : d ≠ c) (t : Text) : (char c).ends (d :: t) = [] := by
  simp [char, ends, h]

theorem ends_seq (a b : Regex) (t : Text) : (seq a b).ends t = (a.ends t).flatMap b.ends := rfl

theorem ends_seq_assoc (a b c : Regex) (t : Text) :
    (seq (seq a b) c).ends t = (seq a (seq b c)).ends t := by
  rw [ends, ends, ends, List.flatMap_assoc]
  rfl

theorem consumes_one (p : Char → Bool) : (one p).Consumes := by
  intro t r hr
  cases t with
  | nil => simp [ends] at hr
  | cons c t =>
    rw [ends_one_cons] at hr
    split at hr <;> simp_all

/-- What is left over is never longer than the text. -/
theorem length_le_of_mem_ends (a : Regex) {t r : Text} (h : r ∈ a.ends t) :
    r.length ≤ t.length := by
  induction a generalizing t r with
  | empty => simp_all [ends]
  | one p => exact Nat.le_of_lt (consumes_one p t r h)
  | seq a b iha ihb =>
    obtain ⟨u, hu, hr⟩ := List.mem_flatMap.mp h
    exact Nat.le_trans (ihb hr) (iha hu)
  | alt a b iha ihb => exact (List.mem_append.mp h).elim iha ihb
  | star greedy a _ =>
    rw [ends] at h
    induction hl : t.length using Nat.strongRecOn generalizing t with
    | ind l ih =>
      rw [iterate] at h
      have hcases : r = t ∨ ∃ u, u.length < t.length ∧ r ∈ iterate a.ends greedy u := by
        split at h <;> simp at h <;> grind
      rcases hcases with rfl | ⟨u, hu, hr⟩
      · exact Nat.le_of_eq hl
      · have := ih u.length (hl ▸ hu) hr rfl
        omega
  | ahead a _ => rw [ends] at h; split at h <;> simp_all
  | notAhead a _ => rw [ends] at h; split at h <;> simp_all

theorem Consumes.seq {a : Regex} (ha : a.Consumes) (b : Regex) : (seq a b).Consumes := by
  intro t r hr
  obtain ⟨u, hu, hr⟩ := List.mem_flatMap.mp hr
  exact Nat.lt_of_le_of_lt (length_le_of_mem_ends b hr) (ha t u hu)

theorem Consumes.alt {a b : Regex} (ha : a.Consumes) (hb : b.Consumes) : (alt a b).Consumes := by
  intro t r hr
  rcases List.mem_append.mp hr with hr | hr
  · exact ha t r hr
  · exact hb t r hr

theorem ends_star {a : Regex} (ha : a.Consumes) (greedy : Bool) (t : Text) :
    (star greedy a).ends t =
      if greedy then (a.ends t).flatMap (star greedy a).ends ++ [t]
      else t :: (a.ends t).flatMap (star greedy a).ends := by
  have hall : ((a.ends t).filter fun r => r.length < t.length) = a.ends t :=
    List.filter_eq_self.mpr fun r hr => decide_eq_true (ha t r hr)
  have hmore : (((a.ends t).filter fun r => r.length < t.length).attach.flatMap fun r =>
      iterate a.ends greedy r.1) = (a.ends t).flatMap (star greedy a).ends := by
    rw [List.flatMap_def, List.attach_map_val, hall, List.flatMap_def]
    rfl
  rw [ends, iterate, hmore]

theorem ends_str_append (w t : Text) : (str w).ends (w ++ t) = [t] := by
  induction w with
  | nil => rfl
  | cons c w ih => rw [List.cons_append, str, ends_seq, ends_char_self, List.flatMap_singleton, ih]

theorem prefix_of_mem_ends_str {w t r : Text} (h : r ∈ (str w).ends t) : t = w ++ r := by
  induction w generalizing t with
  | nil => exact (List.mem_singleton.mp h).symm
  | cons c w ih =>
    obtain ⟨u, hu, hr⟩ := List.mem_flatMap.mp h
    cases t with
    | nil => simp [char, ends] at hu
    | cons d t =>
      obtain ⟨hd, rfl⟩ : d = c ∧ u = t := by simpa [char, ends] using hu
      rw [hd, ih hr, List.cons_append]

/-! ## Repetitions -/

section Repetition

variable {a b : Regex} {t r : Text}

theorem match?_alt (a b : Regex) (t : Text) :
    (alt a b).match? t = (a.match? t).or (b.match? t) := by
  rw [match?, ends, List.head?_append]
  rfl

theorem match?_seq_of_single (h : a.ends t = [r]) : (seq a b).match? t = b.match? r := by
  rw [match?, ends_seq, h, List.flatMap_singleton, match?]

theorem match?_seq_of_nil (h : a.ends t = []) : (seq a b).match? t = none := by
  rw [match?, ends_seq, h]
  rfl

theorem ends_star_seq (ha : a.Consumes) (b : Regex) (t : Text) :
    (seq (star true a) b).ends t =
      (a.ends t).flatMap (seq (star true a) b).ends ++ b.ends t := by
  rw [ends_seq, ends_star ha, if_pos rfl, List.flatMap_append, List.flatMap_assoc,
    List.flatMap_singleton]
  rfl

theorem match?_star_seq_of_nil (ha : a.Consumes) (b : Regex) (h : a.ends t = []) :
    (seq (star true a) b).match? t = b.match? t := by
  rw [match?, ends_star_seq ha, h]
  rfl

/-- A repetition that can go on in one way does so, and only if that fails does it stop. -/
theorem match?_star_seq_of_single (ha : a.Consumes) (b : Regex) (h : a.ends t = [r]) :
    (seq (star true a) b).match? t = ((seq (star true a) b).match? r).or (b.match? t) := by
  rw [match?, ends_star_seq ha, h, List.flatMap_singleton, List.head?_append]
  rfl

theorem ends_lazy_seq (ha : a.Consumes) (b : Regex) (t : Text) :
    (seq (star false a) b).ends t =
      b.ends t ++ (a.ends t).flatMap (seq (star false a) b).ends := by
  rw [ends_seq, ends_star ha, if_neg (by decide), List.flatMap_cons, List.flatMap_assoc]
  rfl

theorem match?_lazy_seq_of_nil (ha : a.Consumes) (b : Regex) (h : a.ends t = []) :
    (seq (star false a) b).match? t = b.match? t := by
  rw [match?, ends_lazy_seq ha, h, List.flatMap_nil, List.append_nil, match?]

/-- A reluctant repetition goes on only if what stands behind it fails. -/
theorem match?_lazy_seq_of_single (ha : a.Consumes) (b : Regex) (h : a.ends t = [r]) :
    (seq (star false a) b).match? t = (b.match? t).or ((seq (star false a) b).match? r) := by
  rw [match?, ends_lazy_seq ha, h, List.flatMap_singleton, List.head?_append]
  rfl

theorem match?_star_of_none (ha : a.Consumes) (h : a.match? t = none) :
    (star true a).match? t = some t := by
  rw [match?, ends_star ha, if_pos rfl, List.head?_eq_none_iff.mp h]
  rfl

/-- A repetition with nothing behind it follows the first choice at every step. -/
theorem match?_star_of_some (ha : a.Consumes) (h : a.match? t = some r) :
    (star true a).match? t = (star true a).match? r := by
  obtain ⟨rs, hrs⟩ := List.head?_eq_some_iff.mp h
  have hne : (star true a).ends r ≠ [] := by
    rw [ends_star ha, if_pos rfl]
    simp
  rw [match?, ends_star ha, if_pos rfl, hrs, List.flatMap_cons, List.append_assoc,
    List.head?_append_of_ne_nil _ hne, match?]

/-- What comes before a repetition at the end is settled at once. -/
theorem match?_seq_star (ha : a.Consumes) (b : Regex) (t : Text) :
    (seq b (star true a)).match? t = (b.match? t).bind (star true a).match? := by
  rw [match?, ends_seq, match?]
  cases b.ends t with
  | nil => rfl
  | cons r rs =>
    have hne : (star true a).ends r ≠ [] := by
      rw [ends_star ha, if_pos rfl]
      simp
    rw [List.flatMap_cons, List.head?_append_of_ne_nil _ hne]
    rfl

theorem match?_one_of_pos {p : Char → Bool} {c : Char} (h : p c = true) (t : Text) :
    (one p).match? (c :: t) = some t := by
  rw [match?, ends_one_cons, if_pos h, List.head?_cons]

theorem match?_one_of_neg {p : Char → Bool} {c : Char} (h : ¬p c = true) (t : Text) :
    (one p).match? (c :: t) = none := by
  rw [match?, ends_one_cons, if_neg h, List.head?_nil]

theorem match?_star_one (p : Char → Bool) (t : Text) :
    (star true (one p)).match? t = some (t.dropWhile p) := by
  induction t with
  | nil => exact match?_star_of_none (consumes_one p) rfl
  | cons c t ih =>
    by_cases hc : p c = true
    · rw [match?_star_of_some (consumes_one p) (match?_one_of_pos hc t), ih,
        List.dropWhile_cons_of_pos hc]
    · rw [match?_star_of_none (consumes_one p) (match?_one_of_neg hc t),
        List.dropWhile_cons_of_neg hc]

end Repetition

/-! ## Single characters and words -/

theorem match?_char_self (c : Char) (t : Text) : (char c).match? (c :: t) = some t := by
  rw [match?, ends_char_self, List.head?_cons]

theorem match?_char_of_ne {c d : Char} (h : d ≠ c) (t : Text) :
    (char c).match? (d :: t) = none := by
  rw [match?, ends_char_of_ne h, List.head?_nil]

theorem match?_char_eq_some {c : Char} {t r : Text} :
    (char c).match? t = some r ↔ t = c :: r := by
  constructor
  · intro h
    cases t with
    | nil => exact nomatch h
    | cons d t =>
      by_cases hd : d = c
      · rw [hd, match?_char_self] at h
        rw [hd, Option.some.inj h]
      · rw [match?_char_of_ne hd] at h
        exact nomatch h
  · rintro rfl
    exact match?_char_self c r

/-- Behind a word goes on what follows it. -/
theorem match?_str_append (w t : Text) (b : Regex) :
    (seq (str w) b).match? (w ++ t) = b.match? t :=
  match?_seq_of_single (ends_str_append w t)

/-- An expression that starts with a word matches only where the word stands. -/
theorem match?_str_eq_none {w t : Text} (b : Regex) (h : ¬∃ rest, t = w ++ rest) :
    (seq (str w) b).match? t = none := by
  refine match?_seq_of_nil (List.eq_nil_iff_forall_not_mem.mpr fun r hr => h ⟨r, ?_⟩)
  exact prefix_of_mem_ends_str hr

theorem exists_of_match?_str {w t r : Text} {b : Regex}
    (h : (seq (str w) b).match? t = some r) : ∃ rest, t = w ++ rest := by
  by_contra hnot
  rw [match?_str_eq_none b hnot] at h
  exact nomatch h

/-! ## Extents -/

/-- The expression takes as many characters as `extent` says. -/
def Takes (a : Regex) (extent : Text → Option Nat) : Prop :=
  ∀ t, a.match? t = (extent t).map (t.drop ·)

theorem Takes.alt {a b : Regex} {f g : Text → Option Nat} (ha : Takes a f) (hb : Takes b g) :
    Takes (alt a b) fun t => (f t).or (g t) := by
  intro t
  rw [match?_alt, ha t, hb t, Option.map_or]

/-- What is left behind `w` does not depend on how the extent is counted. -/
theorem map_drop_add (w t : Text) (extent : Option Nat) :
    (extent.map (· + w.length)).map ((w ++ t).drop ·) = extent.map (t.drop ·) := by
  rw [Option.map_map]
  congr 1
  funext n
  rw [Function.comp_apply, Nat.add_comm, List.drop_length_add_append]

theorem takes_one {p : Char → Bool} {extent : Text → Option Nat} (hnil : extent [] = none)
    (hcons : ∀ c t, extent (c :: t) = if p c then some 1 else none) : Takes (one p) extent := by
  intro t
  cases t with
  | nil => rw [hnil]; rfl
  | cons c t => by_cases hc : p c = true <;> simp [match?, ends, hc, hcons]

theorem dropWhile_eq_drop (p : Char → Bool) (t : Text) :
    t.dropWhile p = t.drop (t.takeWhile p).length := by
  conv => rhs; arg 2; rw [← List.takeWhile_append_dropWhile (p := p) (l := t)]
  rw [List.drop_left]

end Regex
end Stacking
