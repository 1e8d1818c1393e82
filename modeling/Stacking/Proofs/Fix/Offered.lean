import Stacking.Proofs.Fix.Insertion
import Stacking.Proofs.Fix.Removal
import Stacking.Proofs.Text.Correspondence

/-!
# Which fixes are offered

A finding may be of any kind and name any range: editors send it back, and it may be out of date or
wrong. Where it is a `z-index` without effect, there should be two fixes for it, whatever its range.
The removal brings the range within the text first. The insertion takes its indentation from the line
that the range starts on; a line past the last one has none, and a negative number counts lines from
the end. It is here that a finding can go unanswered: no line is found if the number counts back
beyond the first line, though the position itself has an offset like any other
(`QuickFix.answered_iff`).
-/

namespace Stacking

/-- There is no line past the last one, nor one in front of the first where lines are counted from the
end. -/
theorem Text.lineText?_eq_none_iff (t : Text) (n : Int) :
    t.lineText? n = none ↔ n < -(t.lineCount : Int) ∨ (t.lineCount : Int) ≤ n := by
  have hpos := t.lineCount_pos
  unfold lineText?
  rw [lineCount] at *
  by_cases hn : 0 ≤ n
  · rw [if_pos hn, Option.map_eq_none_iff, List.getElem?_eq_none_iff]
    omega
  · rw [if_neg hn]
    by_cases hlast : n = -1
    · rw [if_pos hlast, Option.map_eq_none_iff, List.getLast?_eq_none_iff,
        ← List.length_eq_zero_iff]
      omega
    · rw [if_neg hlast, Option.map_eq_none_iff, List.getElem?_eq_none_iff, List.length_reverse]
      omega

namespace QuickFix

variable {d : Diagnostic} {t : Text}

/-- There is no insertion exactly for a line that counts back beyond the first one. -/
theorem insertFor_eq_error_iff {fault : FixFault} :
    insertFor d t = .error fault ↔
      fault = .noSuchLine ∧ d.range.start.line < -(t.lineCount : Int) := by
  have hnone := t.lineText?_eq_none_iff d.range.start.line
  rw [insertFor]
  by_cases hline : d.range.start.line < t.lineCount
  · rw [if_pos hline]
    cases hcontent : t.lineText? d.range.start.line with
    | none =>
      have hbeyond : d.range.start.line < -(t.lineCount : Int) := by
        rcases hnone.mp hcontent with h | h
        · exact h
        · omega
      simp [hbeyond, eq_comm]
    | some line =>
      have hthere : ¬d.range.start.line < -(t.lineCount : Int) := by
        intro h
        rw [hnone.mpr (Or.inl h)] at hcontent
        cases hcontent
      simp [hthere]
  · rw [if_neg hline]
    have hthere : ¬d.range.start.line < -(t.lineCount : Int) := by omega
    simp [hthere]

/-- An insertion puts the declaration, a line break and blanks at the start of the finding. -/
theorem exists_of_insertFor_eq_ok {insertion : QuickFix} (h : insertFor d t = .ok insertion) :
    ∃ spaces, insertion = .insertIsolation d.range.start (isolation ++ t.lineBreak ++ spaces) ∧
      ∀ c ∈ spaces, c = ' ' ∨ c = '\t' := by
  rw [insertFor] at h
  split at h
  · cases h
  · rename_i line _
    exact ⟨indentation line, (Except.ok.inj h).symm, fun c hc => eq_of_mem_indentation hc⟩

/-- The edit of an insertion adds its text at the offset nearest to its point. -/
theorem apply_insertIsolation (point : Position) (text t : Text) :
    ∃ before after, t = before ++ after ∧ before.length = t.offsetAt point ∧
      (insertIsolation point text).edit.apply t = before ++ text ++ after :=
  ⟨t.take (t.offsetAt point), t.drop (t.offsetAt point), (List.take_append_drop _ t).symm,
    List.length_take_of_le (t.offsetAt_le_length point), rfl⟩

/-- The lines on which a removal looks for a semicolon and for blanks are there. -/
theorem exists_lines_clampRange (t : Text) (r : Range) :
    ∃ first last, t.lineText? (t.clampRange r).start.line = some first ∧
      t.lineText? (t.clampRange r).stop.line = some last := by
  obtain ⟨n, first, hn, hfirst, _⟩ := Text.exists_offsetAt_positionAt (t.offsetAt_le_length r.start)
  obtain ⟨m, last, hm, hlast, _⟩ := Text.exists_offsetAt_positionAt (t.offsetAt_le_length r.stop)
  rw [← hn] at hfirst
  rw [← hm] at hlast
  exact ⟨first, last, hfirst, hlast⟩

/-- The two fixes are there: the insertion, which adds its text at the offset nearest to the start of
the finding and changes nothing else, and the removal, which finds the lines it looks at. -/
structure Offered (d : Diagnostic) (t spaces : Text) (range : Range) : Prop where
  fixes : forDiagnostic d t = .ok [.insertIsolation d.range.start (isolation ++ t.lineBreak ++ spaces),
    .removeDeclaration range]
  blank : ∀ c ∈ spaces, c = ' ' ∨ c = '\t'
  inserted : ∃ before after, t = before ++ after ∧ before.length = t.offsetAt d.range.start ∧
    (insertIsolation d.range.start (isolation ++ t.lineBreak ++ spaces)).edit.apply t =
      before ++ (isolation ++ t.lineBreak ++ spaces) ++ after
  lines : ∃ first last, t.lineText? (t.clampRange d.range).start.line = some first ∧
    t.lineText? (t.clampRange d.range).stop.line = some last

/-- A finding is answered: by two fixes, unless it is of another kind, which is then what is said. -/
structure Answered (d : Diagnostic) (t : Text) : Prop where
  refused_iff : (∃ fault, forDiagnostic d t = .error fault) ↔ d.code ≠ ineffectiveCode
  fault : ∀ fault, forDiagnostic d t = .error fault → fault = .unknownCode d.code
  offered : d.code = ineffectiveCode → ∃ spaces range, Offered d t spaces range

theorem forDiagnostic_of_code_ne (h : d.code ≠ ineffectiveCode) :
    forDiagnostic d t = .error (.unknownCode d.code) := by
  rw [forDiagnostic, if_pos h]

theorem forDiagnostic_of_beyond (hcode : d.code = ineffectiveCode)
    (h : d.range.start.line < -(t.lineCount : Int)) :
    forDiagnostic d t = .error .noSuchLine := by
  rw [forDiagnostic, if_neg (not_not_intro hcode), insertFor_eq_error_iff.mpr ⟨rfl, h⟩]

theorem exists_offered (hcode : d.code = ineffectiveCode)
    (h : -(t.lineCount : Int) ≤ d.range.start.line) :
    ∃ spaces range, Offered d t spaces range := by
  cases hinsert : insertFor d t with
  | error fault =>
    have hbeyond := (insertFor_eq_error_iff.mp hinsert).2
    omega
  | ok insertion =>
    obtain ⟨spaces, rfl, hspaces⟩ := exists_of_insertFor_eq_ok hinsert
    obtain ⟨range, hremove⟩ := exists_removeFor d t
    refine ⟨spaces, range, ?_, hspaces, apply_insertIsolation _ _ t,
      exists_lines_clampRange t d.range⟩
    rw [forDiagnostic, if_neg (not_not_intro hcode), hinsert, hremove]

/-- A finding is answered exactly if it is of another kind or its line does not count back beyond the
first one. Else a missing line is reported. -/
theorem answered_iff (d : Diagnostic) (t : Text) :
    (Answered d t ↔
      (d.code = ineffectiveCode → -(t.lineCount : Int) ≤ d.range.start.line)) ∧
    (d.code = ineffectiveCode → d.range.start.line < -(t.lineCount : Int) →
      forDiagnostic d t = .error .noSuchLine) := by
  refine ⟨⟨?_, ?_⟩, fun hcode h => forDiagnostic_of_beyond hcode h⟩
  · intro hanswered hcode
    by_contra hbeyond
    have hfault := forDiagnostic_of_beyond (t := t) hcode (by omega)
    exact hanswered.refused_iff.mp ⟨_, hfault⟩ hcode
  · intro hline
    by_cases hcode : d.code = ineffectiveCode
    · obtain ⟨spaces, range, hoffered⟩ := exists_offered hcode (hline hcode)
      refine ⟨⟨?_, absurd hcode⟩, ?_, fun _ => ⟨spaces, range, hoffered⟩⟩
      · rintro ⟨fault, hfault⟩
        cases hfault.symm.trans hoffered.fixes
      · intro fault hfault
        cases hfault.symm.trans hoffered.fixes
    · have hrefused := forDiagnostic_of_code_ne (t := t) hcode
      refine ⟨⟨fun _ => hcode, fun _ => ⟨_, hrefused⟩⟩, ?_, fun h => absurd h hcode⟩
      intro fault hfault
      exact Except.error.inj (hfault.symm.trans hrefused)

example : forDiagnostic { range := ⟨⟨-2, 0⟩, ⟨-2, 0⟩⟩, message := "" } "a\x7bz-index:1\x7d".toList =
    .error .noSuchLine := by
  decide

end QuickFix
end Stacking
