import Stacking.Hover
import Stacking.Proofs.Ranges

/-!
# The smallest declaration under the pointer

Of the declarations that touch a position the hover shows one of least size, and of those the first.
Size is measured by the number of line breaks and then by a column, which orders most ranges as
inclusion does: of a range that lies in another one and is not the whole of it the measure is
smaller, unless it is the rest of it over several lines (`Range.Tails`). Such a rest measures the
same, and the hover keeps to what is listed first. `Hover.hover_smallest` says so of any list of
contexts. In the analysis of a text no position touches two declarations, and the hover shows the one
that it touches (`Hover.at?_ofText`).
-/

namespace Stacking

/-! ## Size and inclusion -/

namespace Range

variable {r s u : Range} {p : Position}

theorem contains_iff : r.contains p = true ↔ r.start ≤ p ∧ p ≤ r.stop := by
  simp [contains]

theorem start_le_stop_of_contains (h : r.contains p = true) : r.start ≤ r.stop := by
  obtain ⟨hstart, hstop⟩ := contains_iff.mp h
  rw [Position.le_iff] at *
  omega

theorem isSmaller_iff : r.isSmaller s = true ↔
    r.sizeKey.1 < s.sizeKey.1 ∨ (r.sizeKey.1 = s.sizeKey.1 ∧ r.sizeKey.2 < s.sizeKey.2) := by
  simp [isSmaller]

theorem isSmaller_trans (hrs : r.isSmaller s = true) (hsu : s.isSmaller u = true) :
    r.isSmaller u = true := by
  rw [isSmaller_iff] at *
  omega

/-- What is no larger than a range is smaller than what that range is smaller than. -/
theorem isSmaller_of_not (hrs : r.isSmaller s = true) (hus : ¬u.isSmaller s = true) :
    r.isSmaller u = true := by
  rw [isSmaller_iff] at *
  omega

/-- The measure of a range counts its line breaks. -/
theorem sizeKey_eq (r : Range) : r.sizeKey = (r.stop.line - r.start.line,
    if r.stop.line = r.start.line then r.stop.character - r.start.character
    else r.stop.character) := by
  unfold sizeKey
  by_cases h : r.stop.line = r.start.line
  · rw [if_pos h, h]
    simp
  · rw [if_neg h]
    simp only
    rw [if_neg (by omega)]

/-- The range `r` lies in `s` and is not the whole of it. -/
def ProperlyIn (r s : Range) : Prop := s.start ≤ r.start ∧ r.stop ≤ s.stop ∧ r ≠ s

/-- The range `r` is the rest of `s`, which spans several lines, from a later place on its first
line on. -/
def Tails (r s : Range) : Prop :=
  r.stop = s.stop ∧ r.start.line = s.start.line ∧ s.start.character < r.start.character ∧
    s.start.line < s.stop.line

instance (r s : Range) : Decidable (r.ProperlyIn s) :=
  inferInstanceAs (Decidable (_ ∧ _ ∧ _))

instance (r s : Range) : Decidable (r.Tails s) :=
  inferInstanceAs (Decidable (_ ∧ _ ∧ _ ∧ _))

theorem ProperlyIn.of_inside (hstart : s.start < r.start) (hstop : r.stop < s.stop) :
    r.ProperlyIn s := by
  rw [Position.lt_iff] at hstart hstop
  refine ⟨Or.imp_right (And.imp_right Int.le_of_lt) hstart,
    Or.imp_right (And.imp_right Int.le_of_lt) hstop, ?_⟩
  rintro rfl
  omega

theorem Tails.properlyIn (h : r.Tails s) : r.ProperlyIn s := by
  obtain ⟨hstop, hline, hlater, _⟩ := h
  refine ⟨Or.inr ⟨hline.symm, by omega⟩, ?_, ?_⟩
  · rw [hstop, Position.le_iff]
    omega
  · rintro rfl
    omega

/-- The rest of a range over several lines has the same measure. -/
theorem Tails.sizeKey_eq (h : r.Tails s) : r.sizeKey = s.sizeKey := by
  obtain ⟨hstop, hline, _, hlong⟩ := h
  rw [Range.sizeKey_eq, Range.sizeKey_eq, hstop, hline, if_neg (by omega), if_neg (by omega)]

/-- A range that lies in another one and is not the whole of it is smaller, or its rest. -/
theorem ProperlyIn.isSmaller_or_tails (h : r.ProperlyIn s) (hr : r.start ≤ r.stop) :
    r.isSmaller s = true ∨ r.Tails s := by
  obtain ⟨hstart, hstop, hne⟩ := h
  rw [Position.le_iff] at hstart hstop hr
  rw [isSmaller_iff, Range.sizeKey_eq, Range.sizeKey_eq]
  by_cases hlines : r.stop.line - r.start.line < s.stop.line - s.start.line
  · exact Or.inl (Or.inl hlines)
  · -- with as many line breaks both start on one line and end on one line
    have hfirst : r.start.line = s.start.line := by omega
    have hlast : r.stop.line = s.stop.line := by omega
    have hfrom : s.start.character ≤ r.start.character := by omega
    have hto : r.stop.character ≤ s.stop.character := by omega
    have hends : ¬(r.start.character = s.start.character ∧ r.stop.character = s.stop.character) := by
      rintro ⟨hc, hc'⟩
      apply hne
      obtain ⟨⟨_, _⟩, ⟨_, _⟩⟩ := r
      obtain ⟨⟨_, _⟩, ⟨_, _⟩⟩ := s
      simp only at hfirst hlast hc hc'
      rw [hfirst, hlast, hc, hc']
    clear hstart hstop hne
    rw [hfirst, hlast]
    by_cases hline : s.stop.line = s.start.line
    · rw [if_pos hline, if_pos hline]
      left
      right
      exact ⟨rfl, by show _ - _ < _ - _; omega⟩
    · rw [if_neg hline, if_neg hline]
      by_cases hsame : r.stop.character = s.stop.character
      · right
        exact ⟨Position.eq_iff.mpr ⟨hlast, hsame⟩, hfirst, by omega, by omega⟩
      · left
        right
        exact ⟨rfl, by show _ < _; omega⟩

end Range

/-! ## The first of the smallest -/

namespace Hover

/-- What is chosen from a list is smaller than all in front of it and no larger than all behind. -/
theorem exists_split_smallest (best : StackingContext) (cs : List StackingContext) :
    ∃ front back, best :: cs = front ++ smallest best cs :: back ∧
      (∀ d ∈ front, (smallest best cs).range.isSmaller d.range = true) ∧
      ∀ d ∈ back, ¬d.range.isSmaller (smallest best cs).range = true := by
  induction cs generalizing best with
  | nil => exact ⟨[], [], rfl, List.forall_mem_nil _, List.forall_mem_nil _⟩
  | cons c rest ih =>
    rw [smallest]
    by_cases hc : c.range.isSmaller best.range = true
    · -- a smaller one takes the place of the best so far, which goes to the front
      rw [if_pos hc]
      obtain ⟨front, back, hsplit, hfront, hback⟩ := ih c
      have hbest : (smallest c rest).range.isSmaller best.range = true := by
        cases front with
        | nil =>
          obtain ⟨hchosen, _⟩ := List.cons.inj hsplit
          rw [← hchosen]
          exact hc
        | cons e front =>
          obtain ⟨rfl, _⟩ := List.cons.inj hsplit
          exact Range.isSmaller_trans (hfront c List.mem_cons_self) hc
      exact ⟨best :: front, back, congrArg (best :: ·) hsplit,
        List.forall_mem_cons.mpr ⟨hbest, hfront⟩, hback⟩
    · rw [if_neg hc]
      obtain ⟨front, back, hsplit, hfront, hback⟩ := ih best
      cases front with
      | nil =>
        -- the best so far stays the best
        obtain ⟨hchosen, hrest⟩ := List.cons.inj hsplit
        rw [← hchosen] at hback ⊢
        exact ⟨[], c :: rest, rfl, List.forall_mem_nil _,
          List.forall_mem_cons.mpr ⟨hc, hrest ▸ hback⟩⟩
      | cons e front =>
        obtain ⟨rfl, hrest⟩ := List.cons.inj hsplit
        obtain ⟨hbest, hfront⟩ := List.forall_mem_cons.mp hfront
        have hlarger := Range.isSmaller_of_not hbest hc
        exact ⟨best :: c :: front, back, congrArg (best :: c :: ·) hrest,
          List.forall_mem_cons.mpr ⟨hbest, List.forall_mem_cons.mpr ⟨hlarger, hfront⟩⟩, hback⟩

/-- What lies in the one chosen is not smaller, so it has the same size and comes later. -/
theorem tails_of_properlyIn {front back : List StackingContext} {c d : StackingContext}
    (hfront : ∀ d ∈ front, c.range.isSmaller d.range = true)
    (hback : ∀ d ∈ back, ¬d.range.isSmaller c.range = true) (hd : d ∈ front ++ back)
    (hordered : d.range.start ≤ d.range.stop) (hin : d.range.ProperlyIn c.range) :
    d ∈ back ∧ d.range.Tails c.range := by
  rw [List.mem_append] at hd
  rcases hin.isSmaller_or_tails hordered with hsmaller | htail
  · rcases hd with hd | hd
    · have hlarger := hfront d hd
      rw [Range.isSmaller_iff] at hsmaller hlarger
      omega
    · exact absurd hsmaller (hback d hd)
  · refine ⟨hd.resolve_left ?_, htail⟩
    intro hd
    have hlarger := hfront d hd
    rw [Range.isSmaller_iff, htail.sizeKey_eq] at hlarger
    omega

/-! ## What is shown -/

/-- The context `c` is shown at the position `p`, where `front` are the contexts at `p` listed before
it and `back` those behind. -/
structure Shows (contexts : List StackingContext) (t : Text) (p : Position)
    (front : List StackingContext) (c : StackingContext) (back : List StackingContext) : Prop where
  split : contexts.filter (·.range.contains p) = front ++ c :: back
  shown : at? contexts t p = some ⟨c.range, declarationMessage⟩
  /-- It is the first of those of least size. -/
  first : ∀ d ∈ front, c.range.isSmaller d.range = true
  least : ∀ d ∈ back, ¬d.range.isSmaller c.range = true
  /-- No other one has both its ends inside it. -/
  inside : ∀ d ∈ front ++ back, ¬(c.range.start < d.range.start ∧ d.range.stop < c.range.stop)
  /-- No other one lies in it at all unless a later one is its rest over several lines. -/
  minimal_iff : (∀ d ∈ front ++ back, ¬d.range.ProperlyIn c.range) ↔
    ∀ d ∈ back, ¬d.range.Tails c.range

/-- Where declarations touch a position the first of the smallest ones is shown, and it holds none of
the others but for a later one that is its rest over several lines. -/
theorem hover_smallest {contexts : List StackingContext} {p : Position}
    (h : ∃ c ∈ contexts, c.range.contains p = true) (t : Text) :
    ∃ front c back, Shows contexts t p front c back := by
  obtain ⟨c₀, hc₀, hp₀⟩ := h
  obtain ⟨best, cs, hfilter⟩ : ∃ best cs, contexts.filter (·.range.contains p) = best :: cs :=
    List.exists_cons_of_ne_nil (List.ne_nil_of_mem (List.mem_filter.mpr ⟨hc₀, hp₀⟩))
  obtain ⟨front, back, hsplit, hfirst, hleast⟩ := exists_split_smallest best cs
  rw [← hfilter] at hsplit
  generalize hc : smallest best cs = c at hsplit hfirst hleast
  have hat : at? contexts t p = some ⟨c.range, declarationMessage⟩ := by
    rw [at?, hfilter]
    simp only
    rw [hc]
  have htails : ∀ d ∈ front ++ back, d.range.ProperlyIn c.range →
      d ∈ back ∧ d.range.Tails c.range := by
    intro d hd
    have hmem : d ∈ contexts.filter (·.range.contains p) := by
      rw [hsplit]
      simp only [List.mem_append, List.mem_cons] at hd ⊢
      tauto
    exact tails_of_properlyIn hfirst hleast hd
      (Range.start_le_stop_of_contains (List.mem_filter.mp hmem).2)
  refine ⟨front, c, back, hsplit, hat, hfirst, hleast, ?_, ?_, ?_⟩
  · rintro d hd ⟨hstart, hstop⟩
    obtain ⟨_, hend, _⟩ := htails d hd (.of_inside hstart hstop)
    rw [hend, Position.lt_iff] at hstop
    omega
  · intro hnone d hd htail
    exact hnone d (List.mem_append_right front hd) htail.properlyIn
  · intro hnone d hd hin
    obtain ⟨hback, htail⟩ := htails d hd hin
    exact hnone d hback htail

/-- The second of three ranges is the rest of the first one, which is shown at a position in all of
them. -/
theorem hover_smallest_rest :
    let outer : StackingContext := ⟨"filter", "none", ⟨⟨0, 0⟩, ⟨1, 3⟩⟩, none⟩
    let rest : StackingContext := ⟨"opacity", "0", ⟨⟨0, 3⟩, ⟨1, 3⟩⟩, none⟩
    let longer : StackingContext := ⟨"mask", "url(a)", ⟨⟨0, 1⟩, ⟨2, 0⟩⟩, none⟩
    (∃ c ∈ [outer, rest, longer], c.range.contains ⟨1, 0⟩ = true) ∧
      (∃ front c back, Shows [outer, rest, longer] "a: b;c:\nddd;\n".toList ⟨1, 0⟩ front c back) ∧
      at? [outer, rest, longer] "a: b;c:\nddd;\n".toList ⟨1, 0⟩ =
        some ⟨outer.range, declarationMessage⟩ ∧
      rest.range.ProperlyIn outer.range := by
  intro outer rest longer
  have htouched : ∃ c ∈ [outer, rest, longer], c.range.contains ⟨1, 0⟩ = true :=
    ⟨rest, by simp, by decide⟩
  exact ⟨htouched, hover_smallest htouched _, by decide, by decide⟩

end Hover

/-! ## The hover on a text -/

/-- Of the contexts that an analysis of a text lists each ends before the next one starts. -/
theorem Stylesheet.pairwise_contexts {t : Text} {s : Stylesheet} (h : parse t = .ok s)
    (uri : String) (version : Int) (publication : Publication) :
    (Analysis.ofStylesheet uri version publication s).contexts.Pairwise fun c d =>
      c.range.stop < d.range.start := by
  have hcontexts : (Analysis.ofStylesheet uri version publication s).contexts =
      s.declarations.filterMap (·.context?) :=
    (Analysis.foldl_add_contexts publication s.declarations { uri, version }).1
  rw [hcontexts, List.pairwise_filterMap]
  apply (pairwise_declarations h).imp
  rintro o o' ⟨r, q, hr, hq, _, hrq, _⟩ c hc d hd
  rw [Option.some.inj ((range_of_context? hc).symm.trans hr),
    Option.some.inj ((range_of_context? hd).symm.trans hq)]
  exact hrq

namespace Hover

/-- In the analysis of a text the hover shows the declaration that the position touches; there is no
other one. -/
theorem at?_ofText {uri : String} {version : Int} {publication : Publication} {t : Text}
    {a : Analysis} (h : Analysis.ofText uri version publication t = .ok a) {c : StackingContext}
    (hc : c ∈ a.contexts) {p : Position} (hp : c.range.contains p = true) (u : Text) :
    a.contexts.filter (·.range.contains p) = [c] ∧
      at? a.contexts u p = some ⟨c.range, declarationMessage⟩ := by
  have hpairwise : a.contexts.Pairwise fun c d => c.range.stop < d.range.start := by
    obtain ⟨s, hs, rfl⟩ := Analysis.exists_parse_of_ofText h
    exact Stylesheet.pairwise_contexts hs uri version publication
  have hmem : c ∈ a.contexts.filter (·.range.contains p) := List.mem_filter.mpr ⟨hc, hp⟩
  have hfilter : a.contexts.filter (·.range.contains p) = [c] := by
    have hapart := hpairwise.sublist (List.filter_sublist (p := (·.range.contains p)))
    have htouched : ∀ d ∈ a.contexts.filter (·.range.contains p), d.range.contains p = true :=
      fun d hd => (List.mem_filter.mp hd).2
    generalize a.contexts.filter (·.range.contains p) = touched at hmem hapart htouched
    cases touched with
    | nil => cases hmem
    | cons d rest =>
      cases rest with
      | nil => rw [List.mem_singleton.mp hmem]
      | cons e rest =>
        -- the first of two would end before the position and the second start at it or before
        have hde := (List.pairwise_cons.mp hapart).1 e List.mem_cons_self
        have hd := Range.contains_iff.mp (htouched d List.mem_cons_self)
        have he := Range.contains_iff.mp (htouched e (by simp))
        rw [Position.lt_iff] at hde
        rw [Position.le_iff, Position.le_iff] at hd he
        omega
  refine ⟨hfilter, ?_⟩
  rw [at?, hfilter]
  rfl

end Hover
end Stacking
