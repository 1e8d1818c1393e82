import Stacking.Proofs.Repair.Apart

/-!
# Removing every finding

Each removal may take along the blanks in front of its declaration, a semicolon and the line break
behind it. Those of the findings of one text, each worked out on the text as it is, still do not
overlap, and stand in the order of the findings. So the text that is repaired by removals is what
stands within none of them (`Repair.removals_apart`).
-/

namespace Stacking

namespace Text

/-! ## What stands within no range -/

/-- The characters of a text at the offsets that satisfy `p`, where it starts at the offset `n`. -/
def pick (p : Nat → Bool) (n : Nat) (u : Text) : Text :=
  ((u.zipIdx n).filter fun (_, i) => p i).map (·.1)

theorem pick_append (p : Nat → Bool) (n : Nat) (u v : Text) :
    pick p n (u ++ v) = pick p n u ++ pick p (n + u.length) v := by
  rw [pick, List.zipIdx_append, List.filter_append, List.map_append]
  rfl

theorem pick_congr {p q : Nat → Bool} {n : Nat} {u : Text}
    (h : ∀ i, n ≤ i → i < n + u.length → p i = q i) : pick p n u = pick q n u := by
  refine congrArg (List.map _) (List.filter_congr fun ci hci => ?_)
  exact h ci.2 (List.le_snd_of_mem_zipIdx hci) (List.snd_lt_add_of_mem_zipIdx hci)

theorem pick_true (n : Nat) (u : Text) : pick (fun _ => true) n u = u := by
  rw [pick, List.filter_true, List.zipIdx_map_fst]

theorem pick_false (n : Nat) (u : Text) : pick (fun _ => false) n u = [] := by
  rw [pick, List.filter_false, List.map_nil]

/-- Whether the offset lies within the range. -/
def covers (t : Text) (i : Nat) (range : Range) : Bool :=
  decide (t.offsetAt range.start ≤ i) && decide (i < t.offsetAt range.stop)

/-- The text without what stands within the ranges. -/
def without (t : Text) (ranges : List Range) : Text := pick (fun i => !ranges.any (t.covers i)) 0 t

end Text

/-! ## Deletions made at once -/

namespace Edit

/-- Edits that only delete leave what stands within none of their ranges. -/
theorem substitute_eq_pick {t : Text} {edits : List Edit} (h : InOrder t edits)
    (hdelete : ∀ e ∈ edits, e.newText = []) {n : Nat} (hn : n ≤ t.length)
    (hfront : ∀ e ∈ edits, n ≤ t.offsetAt e.range.start) :
    substitute t n edits =
      Text.pick (fun i => !(edits.map (·.range)).any (t.covers i)) n (t.drop n) := by
  induction edits generalizing n with
  | nil => exact (Text.pick_true n (t.drop n)).symm
  | cons e edits ih =>
    have hstart := hfront e List.mem_cons_self
    have hle := h.start_le_stop e List.mem_cons_self
    have hstop := Text.offsetAt_le_length t e.range.stop
    obtain ⟨hbehind, hrest⟩ := List.pairwise_cons.mp h.stop_le_start
    have hrest := ih ⟨fun f hf => h.start_le_stop f (List.mem_cons_of_mem e hf), hrest⟩
      (fun f hf => hdelete f (List.mem_cons_of_mem e hf)) hstop hbehind
    -- no later range reaches in front of the end of this one
    have hlater : ∀ i < t.offsetAt e.range.stop, (edits.map (·.range)).any (t.covers i) = false := by
      intro i hi
      rw [List.any_map, List.any_eq_false]
      intro f hf
      have := hbehind f hf
      simp only [Function.comp_apply, Text.covers, Bool.and_eq_true, decide_eq_true_eq]
      omega
    have hlength : ((t.take (t.offsetAt e.range.start)).drop n).length =
        t.offsetAt e.range.start - n := by
      rw [List.length_drop, List.length_take_of_le (Nat.le_trans hle hstop)]
    have hlength' : ((t.take (t.offsetAt e.range.stop)).drop (t.offsetAt e.range.start)).length =
        t.offsetAt e.range.stop - t.offsetAt e.range.start := by
      rw [List.length_drop, List.length_take_of_le hstop]
    -- in front of the range everything is left, and within it nothing
    have hfront : Text.pick (fun i => !((e :: edits).map (·.range)).any (t.covers i)) n
        ((t.take (t.offsetAt e.range.start)).drop n) =
        (t.take (t.offsetAt e.range.start)).drop n := by
      refine (Text.pick_congr fun i hni hi => ?_).trans (Text.pick_true n _)
      rw [hlength] at hi
      rw [List.map_cons, List.any_cons, hlater i (by omega), Bool.or_false, Text.covers,
        decide_eq_false (by omega), Bool.false_and]
      rfl
    have hwithin : Text.pick (fun i => !((e :: edits).map (·.range)).any (t.covers i))
        (t.offsetAt e.range.start)
        ((t.take (t.offsetAt e.range.stop)).drop (t.offsetAt e.range.start)) = [] := by
      refine (Text.pick_congr fun i hni hi => ?_).trans (Text.pick_false _ _)
      rw [hlength'] at hi
      rw [List.map_cons, List.any_cons, Text.covers, decide_eq_true hni, decide_eq_true (by omega)]
      rfl
    -- behind it only the later ranges count
    have hbehind : Text.pick (fun i => !((e :: edits).map (·.range)).any (t.covers i))
        (t.offsetAt e.range.stop) (t.drop (t.offsetAt e.range.stop)) =
        substitute t (t.offsetAt e.range.stop) edits := by
      refine (Text.pick_congr fun i hni _ => ?_).trans hrest.symm
      rw [List.map_cons, List.any_cons, Text.covers, decide_eq_false (Nat.not_lt.mpr hni),
        Bool.and_false, Bool.false_or]
    rw [Text.drop_eq_append hstart t, Text.drop_eq_append hle t, Text.pick_append,
      Text.pick_append, hlength, hlength', Nat.add_sub_of_le hstart, Nat.add_sub_of_le hle, hfront,
      hwithin, hbehind, substitute, hdelete e List.mem_cons_self]

end Edit

/-! ## The ranges of the findings -/

namespace Analysis

/-- The findings of a tree stand at ranges that do not depend on how they are published. -/
theorem exists_ranges (s : Stylesheet) :
    ∃ ranges : List Range, ∀ uri version p,
      (ofStylesheet uri version p s).diagnostics = ranges.map p.finding := by
  refine ⟨s.declarations.filterMap fun o =>
    if o.isIneffective then o.declaration.span.map .ofSpan else none, fun uri version p => ?_⟩
  refine (foldl_add_eq p s.declarations { uri, version }).2.2.trans ?_
  rw [List.map_filterMap]
  refine congrArg (List.filterMap · s.declarations) (funext fun o => ?_)
  unfold Occurrence.finding?
  split
  · rw [Option.map_map]
    rfl
  · rfl

end Analysis

namespace Repair

/-- The removal of a finding is an edit that deletes, at least the finding itself. -/
theorem exists_removal {t : Text} {d : Diagnostic} (h : Located t d) :
    ∃ insertion range, QuickFix.forDiagnostic d t = .ok [insertion, .removeDeclaration range] ∧
      editsFor .remove t d = [(QuickFix.removeDeclaration range).edit] ∧
      t.offsetAt range.start < t.offsetAt range.stop := by
  obtain ⟨x, c, r, hcovers⟩ := h.exact_range.exists_covers
  obtain ⟨line, hinsert⟩ := QuickFix.exists_insertFor_eq (y := c ++ r) hcovers.start_eq
  rw [← hcovers.text_eq] at hinsert
  obtain ⟨range, hremove⟩ := QuickFix.exists_removeFor d t
  have hedit := (editsFor_eq h.code hinsert).2
  obtain ⟨e, m, b, w, k, v, hedit', htakes, he, -⟩ := editsFor_remove h.code hcovers
  obtain rfl := List.singleton_inj.mp (hedit'.symm.trans hedit)
  rw [hremove] at hedit he
  have hfixes : QuickFix.forDiagnostic d t = .ok [.insertIsolation (Text.positionAfter x)
      (QuickFix.isolation ++ t.lineBreak ++ QuickFix.indentation line),
      .removeDeclaration range] := by
    rw [QuickFix.forDiagnostic, if_neg (not_not_intro h.code), hinsert, hremove]
  refine ⟨_, range, hfixes, hedit, ?_⟩
  · have ht : t = m ++ (b ++ (c ++ (w ++ k)) ++ ([] ++ v)) := by
      rw [hcovers.text_eq, htakes.front, htakes.behind]
      simp
    have hstart := he.offsetAt_start v
    have hstop := he.offsetAt_stop v
    rw [← ht] at hstart hstop
    obtain ⟨f, hf, -⟩ := hcovers.first
    have hc : 0 < c.length := List.length_pos_of_mem (List.mem_of_mem_head? hf)
    have hrange : (QuickFix.removeDeclaration range).edit.range = range := rfl
    rw [hrange] at hstart hstop
    rw [hstart, hstop]
    simp only [List.length_append]
    omega

theorem exists_removals {t : Text} {found : List Diagnostic} (h : ∀ d ∈ found, Located t d) :
    ∃ ranges : List Range,
      List.Forall₂ (fun d range => ∃ insertion,
        QuickFix.forDiagnostic d t = .ok [insertion, .removeDeclaration range]) found ranges ∧
      (∀ range ∈ ranges, t.offsetAt range.start < t.offsetAt range.stop) ∧
      found.flatMap (editsFor .remove t) =
        ranges.map fun range => (QuickFix.removeDeclaration range).edit := by
  induction found with
  | nil => exact ⟨[], .nil, nofun, rfl⟩
  | cons d found ih =>
    obtain ⟨hd, hfound⟩ := List.forall_mem_cons.mp h
    obtain ⟨insertion, range, hfixes, hedit, hlt⟩ := exists_removal hd
    obtain ⟨ranges, hranges, hdelete, hedits⟩ := ih hfound
    refine ⟨range :: ranges, .cons ⟨insertion, hfixes⟩ hranges,
      List.forall_mem_cons.mpr ⟨hlt, hdelete⟩, ?_⟩
    rw [List.flatMap_cons, hedit, hedits]
    rfl

/-- The removals of the findings of a text, each worked out on the text as it is, follow each other
without overlap, and the text that is repaired by removals is what stands within none of them. -/
theorem removals_apart {uri : String} {version : Int} {p : Publication} {t : Text} {a : Analysis}
    (h : Analysis.ofText uri version p t = .ok a) :
    ∃ ranges : List Range,
      List.Forall₂ (fun d range => ∃ insertion,
        QuickFix.forDiagnostic d t = .ok [insertion, .removeDeclaration range])
        a.diagnostics ranges ∧
      (∀ range ∈ ranges, t.offsetAt range.start < t.offsetAt range.stop) ∧
      ranges.Pairwise (fun range later => t.offsetAt range.stop ≤ t.offsetAt later.start) ∧
      ∃ repair, ofText .remove t = .ok repair ∧ repair.text = t.without ranges := by
  obtain ⟨s, hs, rfl⟩ : ∃ s, Stylesheet.parse t = .ok s ∧
      Analysis.ofStylesheet uri version p s = a := by
    cases hs : Stylesheet.parse t with
    | error e =>
      rw [Analysis.ofText, hs] at h
      cases h
    | ok s =>
      rw [Analysis.ofText, hs] at h
      exact ⟨s, rfl, Except.ok.inj h⟩
  obtain ⟨found, hfound⟩ := Analysis.exists_ranges s
  obtain ⟨hlocated, -⟩ := diagnostics_located hs
  obtain ⟨horder, hall⟩ := applyAll_eq_substitute .remove hs
  rw [hfound] at hlocated horder hall
  obtain ⟨ranges, hranges, hdelete, hedits⟩ := exists_removals hlocated
  have hchosen : chosen .remove s (found.map (Publication.finding {})) =
    found.map (Publication.finding {}) := rfl
  rw [hchosen, hedits] at horder hall
  have hmap : (ranges.map fun range => (QuickFix.removeDeclaration range).edit).map (·.range) =
      ranges := by
    rw [List.map_map]
    exact List.map_id _
  refine ⟨ranges, ?_, hdelete, List.pairwise_map.mp horder.stop_le_start, _,
    by rw [ofText, hs], ?_⟩
  · -- how a finding is published makes no difference
    rw [List.forall₂_map_left_iff] at hranges
    rw [hfound, List.forall₂_map_left_iff]
    exact hranges
  · simp only
    rw [hfound, hchosen, hedits, hall, Edit.substitute_eq_pick horder ?_ (Nat.zero_le _)
      (fun _ _ => Nat.zero_le _), hmap]
    · rfl
    · intro e he
      obtain ⟨range, -, rfl⟩ := List.mem_map.mp he
      rfl

theorem removeFor_of_forDiagnostic {d : Diagnostic} {t : Text} {insertion : QuickFix} {range : Range}
    (h : QuickFix.forDiagnostic d t = .ok [insertion, .removeDeclaration range]) :
    QuickFix.removeFor d t = .removeDeclaration range := by
  unfold QuickFix.forDiagnostic at h
  split at h
  · cases h
  · split at h
    · cases h
    · injection h with h
      exact (List.cons.inj (List.cons.inj h).2).1

/-- Two findings on one line: the first takes along the blanks that start the line, and the blank
between the two stays. -/
theorem removals_apart_one_line :
    ∃ (t : Text) (a : Analysis) (repair : Repair),
      t = "a\x7b\n  z-index: 1; z-index: 2;\n\x7d".toList ∧
      Analysis.ofText "a" 0 {} t = .ok a ∧ a.diagnostics.length = 2 ∧
      ofText .remove t = .ok repair ∧ repair.text = "a\x7b\n \n\x7d".toList := by
  have h : Analysis.ofText "a" 0 {} "a\x7b\n  z-index: 1; z-index: 2;\n\x7d".toList = .ok
      { uri := "a", diagnostics := [Publication.finding {} ⟨⟨1, 2⟩, ⟨1, 12⟩⟩,
        Publication.finding {} ⟨⟨1, 14⟩, ⟨1, 24⟩⟩] } :=
    Analysis.ofText_eq_ok_of_toOption (by decide +kernel)
  obtain ⟨ranges, hfixes, -, -, repair, hrepair, htext⟩ := removals_apart h
  cases hfixes with
  | cons hfirst hrest =>
    cases hrest with
    | cons hsecond hnil =>
      cases hnil
      obtain ⟨_, hfirst⟩ := hfirst
      obtain ⟨_, hsecond⟩ := hsecond
      have hfirst := removeFor_of_forDiagnostic hfirst
      have hsecond := removeFor_of_forDiagnostic hsecond
      obtain rfl : ⟨⟨1, 0⟩, ⟨1, 13⟩⟩ = _ := QuickFix.removeDeclaration.inj
        (Eq.trans (by decide +kernel) hfirst)
      obtain rfl : ⟨⟨1, 14⟩, ⟨1, 25⟩⟩ = _ := QuickFix.removeDeclaration.inj
        (Eq.trans (by decide +kernel) hsecond)
      refine ⟨_, _, repair, rfl, h, rfl, hrepair, htext.trans ?_⟩
      decide +kernel

end Repair
end Stacking
