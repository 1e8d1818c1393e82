import Stacking.Proofs.Text.Offsets
import Stacking.Text.Edit

/-!
# Edits made at once

Edits are made one after the other, the last range first, and each finds its range in what the
others have left. This file says when that comes to the same as making all of them at once in the
text as it was (`Edit.substitute`): each edit has to find the same range whatever comes to stand
where a later one starts (`Edit.Clear`).

* `Edit.mergeSort_eq_reverse` gives the order in which edits are made.
* `Edit.applyAll_eq_substitute` is the result for all of them.
-/

namespace Stacking

namespace Text

/-- What stands behind `m` is what stands between `m` and `n` and then what stands behind `n`. -/
theorem drop_eq_append {m n : Nat} (h : m ≤ n) (t : Text) :
    t.drop m = (t.take n).drop m ++ t.drop n := by
  have hsplit : n = m + (n - m) := by omega
  rw [List.drop_take]
  conv => lhs; rw [← List.take_append_drop (n - m) (t.drop m)]
  rw [List.drop_drop, ← hsplit]

end Text

namespace Edit

/-! ## The order of edits -/

theorem isLater_iff {e f : Edit} : isLater e f = true ↔
    f.range.start < e.range.start ∨
      (f.range.start = e.range.start ∧ f.range.stop ≤ e.range.stop) := by
  simp [isLater]

theorem isLater_trans (e f g : Edit) (h : isLater e f = true) (h' : isLater f g = true) :
    isLater e g = true := by
  simp only [isLater_iff, Position.lt_iff, Position.le_iff, Position.eq_iff] at h h' ⊢
  omega

theorem isLater_total (e f : Edit) : (isLater e f || isLater f e) = true := by
  simp only [Bool.or_eq_true, isLater_iff, Position.lt_iff, Position.le_iff, Position.eq_iff]
  omega

/-- Edits with different starts are made from the last to the first. -/
theorem pairwise_mergeSort {edits : List Edit} (h : (edits.map (·.range.start)).Nodup) :
    (edits.mergeSort isLater).Pairwise fun e f => f.range.start < e.range.start := by
  have hsorted := List.pairwise_mergeSort isLater_trans isLater_total edits
  have hne : (edits.mergeSort isLater).Pairwise fun e f => e.range.start ≠ f.range.start :=
    List.pairwise_map.mp (((List.mergeSort_perm edits isLater).map _).nodup_iff.mpr h)
  exact (hsorted.and hne).imp fun {e f} ⟨hlater, hne⟩ =>
    (isLater_iff.mp hlater).resolve_right fun heq => hne heq.1.symm

/-- Edits that stand in ascending order are made in the opposite order. -/
theorem mergeSort_eq_reverse {edits : List Edit}
    (h : edits.Pairwise fun e f => e.range.start < f.range.start) :
    edits.mergeSort isLater = edits.reverse := by
  have hnodup : (edits.map (·.range.start)).Nodup := by
    refine List.pairwise_map.mpr (h.imp fun {e f} hlt heq => ?_)
    rw [heq, Position.lt_iff] at hlt
    omega
  refine List.Perm.eq_of_pairwise (fun e f _ _ hef hfe => ?_) (pairwise_mergeSort hnodup)
    (List.pairwise_reverse.mpr h) ((List.mergeSort_perm edits isLater).trans
      (List.reverse_perm edits).symm)
  simp only [Position.lt_iff] at hef hfe
  omega

/-! ## Making edits at once -/

/-- The text from offset `n` on with all edits made at once: each range gives way to the new text,
and what stands between the ranges stays. The ranges follow each other, behind `n`. -/
def substitute (t : Text) (n : Nat) : List Edit → Text
  | [] => t.drop n
  | e :: edits =>
    (t.take (t.offsetAt e.range.start)).drop n ++
      (e.newText ++ substitute t (t.offsetAt e.range.stop) edits)

/-- The ranges of the edits follow each other in the text. -/
structure InOrder (t : Text) (edits : List Edit) : Prop where
  start_le_stop : ∀ e ∈ edits, t.offsetAt e.range.start ≤ t.offsetAt e.range.stop
  stop_le_start : edits.Pairwise fun e f => t.offsetAt e.range.stop ≤ t.offsetAt f.range.start

/-- The edit `f` may be made before `e`: it starts behind `e`, and whatever comes to stand there,
the ends of `e` have the same offsets. -/
structure Clear (t : Text) (e f : Edit) : Prop where
  stop_le_start : t.offsetAt e.range.stop ≤ t.offsetAt f.range.start
  start_eq : ∀ y, Text.offsetAt (t.take (t.offsetAt f.range.start) ++ y) e.range.start =
    t.offsetAt e.range.start
  stop_eq : ∀ y, Text.offsetAt (t.take (t.offsetAt f.range.start) ++ y) e.range.stop =
    t.offsetAt e.range.stop

/-- The text stays up to the first of the edits. -/
theorem substitute_eq_append {t : Text} {m n : Nat} (hmn : m ≤ n) {edits : List Edit}
    (h : ∀ e ∈ edits.head?, n ≤ t.offsetAt e.range.start) :
    substitute t m edits = (t.take n).drop m ++ substitute t n edits := by
  cases edits with
  | nil => exact Text.drop_eq_append hmn t
  | cons e edits =>
    have hn := h e rfl
    rw [substitute, substitute, Text.drop_eq_append hmn, List.take_take, Nat.min_eq_left hn,
      List.append_assoc]

/-- Edits that are made from the last to the first, with nothing in the way, are made at once. -/
theorem foldr_apply_eq_substitute {t : Text} {edits : List Edit} (h : InOrder t edits)
    (hclear : edits.Pairwise (Clear t)) :
    edits.foldr (fun e u => e.apply u) t = substitute t 0 edits := by
  induction edits with
  | nil => rfl
  | cons e rest ih =>
    obtain ⟨he, hrest⟩ := List.forall_mem_cons.mp h.start_le_stop
    obtain ⟨hbehind, hrest'⟩ := List.pairwise_cons.mp h.stop_le_start
    obtain ⟨heclear, hclear⟩ := List.pairwise_cons.mp hclear
    rw [List.foldr_cons, ih ⟨hrest, hrest'⟩ hclear]
    -- the others have left the text up to the first of them
    have hkeep : (substitute t 0 rest).offsetAt e.range.start = t.offsetAt e.range.start ∧
        (substitute t 0 rest).offsetAt e.range.stop = t.offsetAt e.range.stop := by
      cases rest with
      | nil => exact ⟨rfl, rfl⟩
      | cons f rest =>
        rw [substitute_eq_append (Nat.zero_le (t.offsetAt f.range.start)) (by simp)]
        have hf := heclear f List.mem_cons_self
        exact ⟨hf.start_eq _, hf.stop_eq _⟩
    have hfront := substitute_eq_append (t := t) (Nat.zero_le (t.offsetAt e.range.stop))
      fun f hf => hbehind f (List.mem_of_mem_head? hf)
    rw [List.drop_zero] at hfront
    have hlength : (t.take (t.offsetAt e.range.stop)).length = t.offsetAt e.range.stop :=
      List.length_take_of_le (t.offsetAt_le_length _)
    rw [apply, hkeep.1, hkeep.2, hfront, List.take_append_of_le_length (by rw [hlength]; exact he),
      List.take_take, Nat.min_eq_left he, List.drop_append_of_le_length (Nat.le_of_eq hlength.symm),
      List.drop_of_length_le (Nat.le_of_eq hlength), substitute]
    simp

/-- Edits that stand in ascending order, with nothing in the way, are made at once. -/
theorem applyAll_eq_substitute {t : Text} {edits : List Edit} (h : InOrder t edits)
    (hstarts : edits.Pairwise fun e f => e.range.start < f.range.start)
    (hclear : edits.Pairwise (Clear t)) : applyAll t edits = substitute t 0 edits := by
  rw [applyAll, mergeSort_eq_reverse hstarts, List.foldl_reverse]
  exact foldr_apply_eq_substitute h hclear

/-- Nothing comes into a text that is not in it or in the new texts. -/
theorem mem_of_mem_substitute {t : Text} {c : Char} {n : Nat} {edits : List Edit}
    (h : c ∈ substitute t n edits) : c ∈ t ∨ ∃ e ∈ edits, c ∈ e.newText := by
  induction edits generalizing n with
  | nil => exact Or.inl (List.mem_of_mem_drop h)
  | cons e rest ih =>
    rw [substitute, List.mem_append, List.mem_append] at h
    rcases h with h | h | h
    · exact Or.inl (List.mem_of_mem_take (List.mem_of_mem_drop h))
    · exact Or.inr ⟨e, List.mem_cons_self, h⟩
    · exact (ih h).imp_right fun ⟨f, hf, hc⟩ => ⟨f, List.mem_cons_of_mem e hf, hc⟩

end Edit
end Stacking
