import Stacking.Command.Fix
import Stacking.Proofs.Repair.Apart

/-!
# What is written back

A command sees a line feed for every line break of a file, and a repair is written back as the
command sees it. So outside of the edits the file keeps its characters, but not its line breaks:
they all become line feeds (`Command.fix_writes`). A file without carriage returns keeps these too.
-/

namespace Stacking

/-! ## Line breaks -/

namespace Text

theorem not_mem_unifyLineBreaks (t : Text) : '\r' ∉ t.unifyLineBreaks := by
  fun_induction unifyLineBreaks t with
  | case1 => exact List.not_mem_nil
  | case2 rest ih => exact List.not_mem_cons_of_ne_of_not_mem (by decide) ih
  | case3 c rest _ ih =>
    refine List.not_mem_cons_of_ne_of_not_mem (fun h => ?_) ih
    split at h
    · exact absurd h (by decide)
    · rename_i hc
      exact hc h.symm

theorem unifyLineBreaks_eq_self {t : Text} (h : '\r' ∉ t) : t.unifyLineBreaks = t := by
  fun_induction unifyLineBreaks t with
  | case1 => rfl
  | case2 rest ih => exact absurd List.mem_cons_self h
  | case3 c rest _ ih =>
    rw [List.mem_cons, not_or] at h
    rw [if_neg (Ne.symm h.1), ih h.2]

theorem lineBreak_eq_of_not_mem {t : Text} (h : '\r' ∉ t) : t.lineBreak = ['\n'] := by
  rw [lineBreak]
  split
  · rename_i line _ _ hlines
    split
    · rename_i hlast
      -- the first line stands at the start of the text
      obtain ⟨_, ⟨hnil, _⟩ | ⟨t', rfl, _⟩⟩ := lines_eq_cons hlines
      · exact nomatch hnil
      · exact absurd (List.mem_append_left _ (List.mem_of_getLast? hlast)) h
    · rfl
  · rfl

end Text

namespace Repair

variable {t : Text} {s : Stylesheet}

/-- A repair brings no carriage returns into a text without them. -/
theorem not_mem_substitute (strategy : Strategy) (h : Stylesheet.parse t = .ok s) (hcr : '\r' ∉ t) :
    let found := (Analysis.ofStylesheet "" 0 {} s).diagnostics
    '\r' ∉ Edit.substitute t 0 ((chosen strategy s found).flatMap (editsFor strategy t)) := by
  intro found hmem
  rcases Edit.mem_of_mem_substitute hmem with hmem | ⟨e, he, hmem⟩
  · exact hcr hmem
  · obtain ⟨d, hd, he⟩ := List.mem_flatMap.mp he
    have hlocated := (diagnostics_located h).1 d ((chosen_sublist strategy s found).subset hd)
    obtain ⟨f, hedit, _, htext⟩ := exists_editsFor_eq strategy hlocated
    rw [hedit, List.mem_singleton] at he
    subst he
    rcases htext with htext | ⟨line, htext⟩ <;> rw [htext] at hmem
    · exact nomatch hmem
    · rw [Text.lineBreak_eq_of_not_mem hcr, List.mem_append, List.mem_append] at hmem
      rcases hmem with (hmem | hmem) | hmem
      · exact absurd hmem (by decide)
      · exact absurd hmem (by decide)
      · rcases QuickFix.eq_of_mem_indentation hmem with hmem | hmem <;>
          exact absurd hmem (by decide)

/-- There is something to edit exactly if something is found. -/
theorem edits_eq_nil_iff (strategy : Strategy) (h : Stylesheet.parse t = .ok s) :
    let found := (Analysis.ofStylesheet "" 0 {} s).diagnostics
    (chosen strategy s found).flatMap (editsFor strategy t) = [] ↔ found = [] := by
  intro found
  rw [← chosen_eq_nil_iff strategy s found, List.flatMap_eq_nil_iff]
  constructor
  · intro hnil
    refine List.eq_nil_iff_forall_not_mem.mpr fun d hd => ?_
    have hlocated := (diagnostics_located h).1 d ((chosen_sublist strategy s found).subset hd)
    obtain ⟨e, hedit, _⟩ := exists_editsFor_eq strategy hlocated
    rw [hnil d hd] at hedit
    exact nomatch hedit
  · intro hnil
    rw [hnil]
    exact nofun

end Repair

namespace Command

/-- What writing a repair back does to a file, the text of which parses once its line breaks are
line feeds. If nothing is found the file is not written. Else it holds the text with the edits for
the findings made at once: their ranges follow each other, and what stands between them is as it
was. There is no carriage return in it, so every line break of the file that was not a line feed has
become one; and a file without carriage returns keeps all its characters outside of the edits. -/
theorem fix_writes {tree : FileTree} {file : FileOperand} {c : Text} {changedAt : Int}
    {s : Stylesheet} (strategy : Strategy)
    (hfile : tree.files.get? file.path = some ⟨.text c, changedAt⟩)
    (h : Stylesheet.parse c.unifyLineBreaks = .ok s) :
    let t := c.unifyLineBreaks
    let found := (Analysis.ofStylesheet "" 0 {} s).diagnostics
    let edits := (Repair.chosen strategy s found).flatMap (Repair.editsFor strategy t)
    let written := Edit.substitute t 0 edits
    fix tree file strategy true =
        ⟨.err ("Fixed " ++ toString found.length ++ " declaration(s) in " ++ file.written),
          .exit 0,
          if found.isEmpty then tree else tree.write file.path ⟨.text written, changedAt⟩⟩ ∧
      Edit.InOrder t edits ∧ '\r' ∉ written ∧ ('\r' ∉ c → t = c) := by
  intro t found edits written
  obtain ⟨horder, happly⟩ := Repair.applyAll_eq_substitute strategy h
  have hread : file.text? tree = some t := by
    rw [FileOperand.text?, hfile]
    rfl
  have hrepair : Repair.ofText strategy t = .ok ⟨found, edits, written⟩ := by
    rw [Repair.ofText, h]
    exact congrArg (fun text => Except.ok (Repair.mk found edits text)) happly
  have hempty : edits.isEmpty = found.isEmpty := by
    rw [Bool.eq_iff_iff, List.isEmpty_iff, List.isEmpty_iff]
    exact Repair.edits_eq_nil_iff strategy h
  refine ⟨?_, horder, ?_, Text.unifyLineBreaks_eq_self⟩
  · rw [fix, hread]
    simp only [hrepair, if_true, writeBack, hempty, hfile, Option.map_some, Option.getD_some]
  · exact Repair.not_mem_substitute strategy h (Text.not_mem_unifyLineBreaks c)

/-- The line breaks that are written are line feeds, also where the file had carriage returns in
front of them. -/
theorem fix_writes_line_feeds :
    ∃ (tree : FileTree) (file : FileOperand) (c written : Text) (s : Stylesheet),
      c = "a \x7b\r\n  z-index: 1;\r\n\x7d\r\n".toList ∧
      tree.files.get? file.path = some ⟨.text c, 0⟩ ∧
      Stylesheet.parse c.unifyLineBreaks = .ok s ∧
      fix tree file .isolate true = ⟨.err ("Fixed 1 declaration(s) in " ++ file.written), .exit 0,
        tree.write file.path ⟨.text written, 0⟩⟩ ∧
      written = "a \x7b\n  isolation: isolate;\n  z-index: 1;\n\x7d\n".toList := by
  have hparse : (Stylesheet.parse (Text.unifyLineBreaks
      "a \x7b\r\n  z-index: 1;\r\n\x7d\r\n".toList)).toOption.map (fun s =>
        ((Analysis.ofStylesheet "" 0 {} s).diagnostics.length,
          Edit.substitute (Text.unifyLineBreaks "a \x7b\r\n  z-index: 1;\r\n\x7d\r\n".toList) 0
            ((Repair.chosen .isolate s (Analysis.ofStylesheet "" 0 {} s).diagnostics).flatMap
              (Repair.editsFor .isolate
                (Text.unifyLineBreaks "a \x7b\r\n  z-index: 1;\r\n\x7d\r\n".toList))))) =
      some (1, "a \x7b\n  isolation: isolate;\n  z-index: 1;\n\x7d\n".toList) := by
    decide +kernel
  obtain ⟨s, hs, hwritten⟩ := Option.map_eq_some_iff.mp hparse
  obtain ⟨hlength, hwritten⟩ := Prod.mk.inj hwritten
  have hs := ParseError.eq_ok_of_toOption hs
  have hfile : (FileTree.mk [] [] (.ofList [(["a"],
      ⟨.text "a \x7b\r\n  z-index: 1;\r\n\x7d\r\n".toList, 0⟩)])).files.get? ["a"] =
        some ⟨.text "a \x7b\r\n  z-index: 1;\r\n\x7d\r\n".toList, 0⟩ := by
    decide +kernel
  have hsome : (Analysis.ofStylesheet "" 0 {} s).diagnostics.isEmpty = false := by
    refine Bool.eq_false_iff.mpr fun hempty => ?_
    rw [List.isEmpty_iff.mp hempty] at hlength
    exact nomatch hlength
  obtain ⟨hfix, _⟩ := @fix_writes _ ⟨"a", ["a"]⟩ _ _ _ .isolate hfile hs
  simp only [hlength, hwritten, hsome] at hfix
  exact ⟨_, ⟨"a", ["a"]⟩, _, _, s, rfl, hfile, hs, hfix, rfl⟩

end Command
end Stacking
