import Mathlib.Data.List.Nodup
import Stacking.Command.Fix
import Stacking.Proofs.Repair.Isolated
import Stacking.Proofs.Text.Substitution

/-!
# Isolation repairs a text

The repair with `isolate` picks the first finding of each owner (`Repair.mem_firsts`), looking the
owner up by the range of the declaration; as ranges are distinct, it finds the right one
(`Repair.get?_ownersByRange`). Its edits are made from the last to the first
(`Edit.pairwise_place_mergeSort`), so the repaired text has the isolated tree
(`Repair.isolate_isolates`): nothing is left to repair.
-/

namespace Stacking

/-! ## The order of edits -/

namespace Edit

/-- Insertions at different places are made from the last place to the first. -/
theorem pairwise_place_mergeSort {edits : List Edit} (h : (edits.map (·.place)).Nodup) :
    (edits.mergeSort isLater).Pairwise fun e f => f.place < e.place := by
  have hstarts : (edits.map (·.range.start)).Nodup := by
    have hplaces : edits.map (·.place) = (edits.map (·.range.start)).map Position.toSource := by
      rw [List.map_map]
      rfl
    exact (hplaces ▸ h).of_map _
  refine (pairwise_mergeSort hstarts).imp fun {e f} hlt => ?_
  simp only [place, Position.toSource, SourcePosition.lt_iff, Position.lt_iff] at hlt ⊢
  omega

end Edit

namespace Repair

/-! ## The first of each owner -/

/-- The first occurrence of each owner that is not among `seen`. -/
def firsts (seen : List Owner) : List Occurrence → List Occurrence
  | [] => []
  | o :: rest =>
    if o.owner ∈ seen then firsts seen rest else o :: firsts (o.owner :: seen) rest

/-- An occurrence is picked if there is no earlier one of its owner. -/
theorem mem_firsts {seen : List Owner} {os : List Occurrence} {o : Occurrence} :
    o ∈ firsts seen os ↔ o.owner ∉ seen ∧ os.find? (·.owner = o.owner) = some o := by
  induction os generalizing seen with
  | nil => simp [firsts]
  | cons a rest ih =>
    rw [firsts, List.find?_cons]
    by_cases hseen : a.owner ∈ seen
    · rw [if_pos hseen, ih]
      refine and_congr_right fun ho => ?_
      have hne : a.owner ≠ o.owner := fun heq => ho (heq ▸ hseen)
      simp [hne]
    · rw [if_neg hseen, List.mem_cons, ih, List.mem_cons, not_or]
      by_cases hsame : a.owner = o.owner
      · simp only [hsame, decide_true, Option.some.injEq]
        constructor
        · rintro (rfl | ⟨⟨hne, _⟩, _⟩)
          · exact ⟨hseen, rfl⟩
          · exact absurd trivial hne
        · rintro ⟨_, rfl⟩
          exact Or.inl rfl
      · have hne : o ≠ a := fun heq => hsame (by rw [heq])
        simp [hsame, hne, Ne.symm hsame]

theorem firsts_sublist (seen : List Owner) (os : List Occurrence) :
    (firsts seen os).Sublist os := by
  induction os generalizing seen with
  | nil => exact .slnil
  | cons o rest ih =>
    rw [firsts]
    split
    · exact (ih _).cons o
    · exact (ih _).cons_cons o

/-- Where the table knows the owners, the first finding of each owner is that of its first
occurrence. -/
theorem firstOfEachOwner_eq_filterMap {owners : Table Range Owner} {p : Publication}
    {os : List Occurrence} (h : ∀ o ∈ os, ∃ d, o.finding? p = some d ∧
      owners.get? d.range = some o.owner) (seen : List Owner) :
    firstOfEachOwner owners (seen.map some) (os.filterMap (·.finding? p)) =
      (firsts seen os).filterMap (·.finding? p) := by
  induction os generalizing seen with
  | nil => rfl
  | cons o rest ih =>
    obtain ⟨⟨d, hd, howner⟩, hrest⟩ := List.forall_mem_cons.mp h
    rw [List.filterMap_cons_some hd, firstOfEachOwner, howner, firsts]
    by_cases hseen : o.owner ∈ seen
    · rw [if_pos hseen, if_pos (by simpa using hseen), ih hrest]
    · rw [if_neg hseen, if_neg (by simpa using hseen), List.filterMap_cons_some hd]
      exact congrArg (d :: ·) (ih hrest (o.owner :: seen))

/-! ## Owners by range -/

/-- Every declaration of a parsed text has a span. -/
theorem exists_span {t : Text} {s : Stylesheet} {o : Occurrence} (h : Stylesheet.parse t = .ok s)
    (ho : o ∈ s.occurrences) : ∃ span, o.declaration.span = some span := by
  have hmem := List.mem_map_of_mem (f := (·.declaration)) ho
  rw [s.map_occurrences] at hmem
  obtain ⟨p, hp⟩ := (Stylesheet.nodup_starts h).2 _ hmem
  obtain ⟨span, hspan, _⟩ := Option.map_eq_some_iff.mp hp
  exact ⟨span, hspan⟩

theorem nodup_start {t : Text} {s : Stylesheet} (h : Stylesheet.parse t = .ok s) :
    (s.occurrences.map (·.declaration.start?)).Nodup := by
  have hnodup := (Stylesheet.nodup_starts h).1
  rwa [← s.map_occurrences, List.map_map] at hnodup

/-- The range of a declaration leads to its owner. -/
theorem get?_ownersByRange {t : Text} {s : Stylesheet} {o : Occurrence} {span : Span}
    (h : Stylesheet.parse t = .ok s) (ho : o ∈ s.occurrences)
    (hspan : o.declaration.span = some span) :
    (ownersByRange s).get? (.ofSpan span) = some o.owner := by
  rw [ownersByRange, s.declarations_eq_occurrences]
  apply Table.get?_ofList
  · exact List.mem_filterMap.mpr ⟨o, ho, by rw [hspan]; rfl⟩
  · -- equal ranges would have equal starts
    rw [List.Nodup, List.pairwise_map, List.pairwise_filterMap]
    refine (List.pairwise_map.mp (nodup_start h)).imp fun {o o'} hne e he e' he' heq => hne ?_
    obtain ⟨span, hspan, rfl⟩ := Option.map_eq_some_iff.mp he
    obtain ⟨span', hspan', rfl⟩ := Option.map_eq_some_iff.mp he'
    have hstart := congrArg (fun r : Range => r.start.toSource) heq
    simp only [Range.ofSpan, Position.toSource_ofSource] at hstart
    simp [Declaration.start?, hspan, hspan', hstart]

/-! ## The edits -/

theorem applies_removeFor (strategy : Strategy) (d : Diagnostic) (t : Text) :
    strategy.applies (QuickFix.removeFor d t) = decide (strategy = .remove) := by
  unfold QuickFix.removeFor
  simp only
  split <;> cases strategy <;> rfl

/-- A strategy corrects a finding by the fix of its kind. -/
theorem editsFor_eq {t text : Text} {d : Diagnostic} {p : Position}
    (hcode : d.code = ineffectiveCode)
    (h : QuickFix.insertFor d t = .ok (.insertIsolation p text)) :
    editsFor .isolate t d = [(QuickFix.insertIsolation p text).edit] ∧
      editsFor .remove t d = [(QuickFix.removeFor d t).edit] := by
  have hfixes : QuickFix.forDiagnostic d t =
      .ok [.insertIsolation p text, QuickFix.removeFor d t] := by
    rw [QuickFix.forDiagnostic, if_neg (not_not_intro hcode), h]
  constructor
  · rw [editsFor, hfixes]
    simp only
    rw [List.filter_cons_of_pos rfl, List.filter_cons_of_neg (by simp [applies_removeFor])]
    rfl
  · rw [editsFor, hfixes]
    simp only
    rw [List.filter_cons_of_neg (by simp [Strategy.applies]),
      List.filter_cons_of_pos (by simp [applies_removeFor])]
    rfl

/-- With `isolate` a finding is corrected by an insertion in front of its declaration. -/
theorem exists_editsFor {t : Text} {s : Stylesheet} {o : Occurrence} {p : Publication}
    {d : Diagnostic} (h : Stylesheet.parse t = .ok s) (ho : o ∈ s.occurrences)
    (hd : o.finding? p = some d) :
    ∃ e, editsFor .isolate t d = [e] ∧ e.Isolates ∧ o.declaration.start? = some e.place := by
  obtain ⟨site, hsite, _⟩ := Site.exists_of_mem_occurrences ho
  obtain ⟨l⟩ := Stylesheet.exists_layout h hsite
  obtain ⟨span, hspan, rfl⟩ := Occurrence.finding?_eq_some hd
  have hspan' := Declaration.ofPrelude_span l.tokens.spells
  obtain rfl := Option.some.inj (hspan.symm.trans hspan')
  obtain ⟨spaces, hspaces, hinsert⟩ := l.exists_insertFor
    (show (p.finding (.ofSpan ⟨Prelude.start (l.head :: l.tail),
      Prelude.stop (l.head :: l.tail)⟩)).range.start = .ofSource l.head.start from rfl)
  have hplace : Edit.place
      (QuickFix.insertIsolation (.ofSource l.head.start) (QuickFix.isolation ++ spaces)).edit =
        l.head.start := Position.toSource_ofSource l.head.start
  refine ⟨_, ?_, ⟨spaces, hspaces, by rw [hplace]⟩, ?_⟩
  · exact (editsFor_eq rfl hinsert).1
  · rw [hplace, Declaration.start?, hspan]
    rfl

/-- The edits for several findings are insertions in front of their declarations. -/
theorem flatMap_editsFor {t : Text} {s : Stylesheet} {os : List Occurrence} {p : Publication}
    (h : Stylesheet.parse t = .ok s)
    (hos : ∀ o ∈ os, o ∈ s.occurrences ∧ ∃ d, o.finding? p = some d) :
    let edits := (os.filterMap (·.finding? p)).flatMap (editsFor .isolate t)
    (∀ e ∈ edits, e.Isolates) ∧
      edits.map (fun e => some e.place) = os.map (·.declaration.start?) := by
  induction os with
  | nil => exact ⟨nofun, rfl⟩
  | cons o rest ih =>
    obtain ⟨⟨ho, d, hd⟩, hrest⟩ := List.forall_mem_cons.mp hos
    obtain ⟨hisolates, hplaces⟩ := ih hrest
    obtain ⟨e, hedit, he, hplace⟩ := exists_editsFor h ho hd
    simp only [List.filterMap_cons_some hd, List.flatMap_cons, hedit, List.singleton_append]
    exact ⟨List.forall_mem_cons.mpr ⟨he, hisolates⟩, by rw [List.map_cons, hplaces, ← hplace]; rfl⟩

/-! ## The repaired text -/

/-- The `z-index` declarations of a stylesheet without effect. -/
def flagged (s : Stylesheet) : List Occurrence := s.occurrences.filter (·.isIneffective)

theorem diagnostics_eq_filterMap (s : Stylesheet) :
    (Analysis.ofStylesheet "" 0 {} s).diagnostics = (flagged s).filterMap (·.finding? {}) := by
  have hdiag : (Analysis.ofStylesheet "" 0 {} s).diagnostics =
      s.declarations.filterMap (·.finding? {}) :=
    (Analysis.foldl_add_eq {} s.declarations { uri := "", version := 0 }).2.2
  rw [hdiag, s.declarations_eq_occurrences, flagged, List.filterMap_filter]
  refine congrArg (List.filterMap · s.occurrences) (funext fun o => ?_)
  unfold Occurrence.finding?
  split <;> rfl

theorem finding?_of_mem_flagged {t : Text} {s : Stylesheet} {o : Occurrence}
    (h : Stylesheet.parse t = .ok s) (ho : o ∈ flagged s) :
    o ∈ s.occurrences ∧ ∃ span, o.declaration.span = some span ∧
      o.finding? {} = some (Publication.finding {} (.ofSpan span)) := by
  obtain ⟨ho, hineffective⟩ := List.mem_filter.mp ho
  obtain ⟨span, hspan⟩ := exists_span h ho
  refine ⟨ho, span, hspan, ?_⟩
  rw [Occurrence.finding?, if_pos hineffective, hspan]
  rfl

/-- The first finding of each owner, as the repair picks it, is about the first `z-index` without
effect of the owner. -/
theorem chosen_eq_filterMap {t : Text} {s : Stylesheet} (h : Stylesheet.parse t = .ok s) :
    chosen .isolate s (Analysis.ofStylesheet "" 0 {} s).diagnostics =
      (firsts [] (flagged s)).filterMap (·.finding? {}) := by
  rw [diagnostics_eq_filterMap, chosen]
  refine firstOfEachOwner_eq_filterMap (fun o ho => ?_) []
  obtain ⟨ho, span, hspan, hfinding⟩ := finding?_of_mem_flagged h ho
  exact ⟨_, hfinding, get?_ownersByRange h ho hspan⟩

/-- A declaration of a parsed text is picked exactly if it is the first `z-index` without effect of
its owner. -/
theorem mem_firsts_flagged_iff {t : Text} {s : Stylesheet} {o : Occurrence}
    (h : Stylesheet.parse t = .ok s) (ho : o ∈ s.occurrences) :
    o ∈ firsts [] (flagged s) ↔ o.IsFirst := by
  have hfind : (flagged s).find? (·.owner = o.owner) =
      (o.siblings.find? (o.owner.flags o.siblings)).map (⟨·, o.owner, o.siblings⟩) := by
    have hswap : (s.occurrences.filter (·.isIneffective)).find? (·.owner = o.owner) =
        (s.occurrences.filter (·.owner = o.owner)).find? (·.isIneffective) := by
      rw [List.find?_filter, List.find?_filter]
      simp only [and_comm]
    rw [flagged, hswap, Stylesheet.filter_owner h ho, List.find?_map]
    rfl
  rw [mem_firsts, hfind, Occurrence.IsFirst, Option.map_eq_some_iff]
  constructor
  · rintro ⟨_, d, hd, heq⟩
    rw [hd, ← heq]
  · intro hfirst
    exact ⟨nofun, o.declaration, hfirst, rfl⟩

/-- Where a declaration starts tells whether it is picked. -/
theorem startsIn_iff_isFirst {t : Text} {s : Stylesheet} {o : Occurrence}
    {places : List SourcePosition} (h : Stylesheet.parse t = .ok s) (ho : o ∈ s.occurrences)
    (hplaces : ∀ p, p ∈ places ↔ ∃ o' ∈ firsts [] (flagged s), o'.declaration.start? = some p) :
    o.declaration.startsIn places = true ↔ o.IsFirst := by
  rw [← mem_firsts_flagged_iff h ho, Declaration.startsIn, List.any_eq_true]
  constructor
  · rintro ⟨p, hp, hstart⟩
    obtain ⟨o', ho', hstart'⟩ := (hplaces p).mp hp
    have hmem := List.mem_filter.mp (List.mem_of_find?_eq_some (mem_firsts.mp ho').2)
    have hsame : o'.declaration.start? = o.declaration.start? :=
      hstart'.trans (of_decide_eq_true hstart).symm
    rwa [List.inj_on_of_nodup_map (nodup_start h) hmem.1 ho hsame] at ho'
  · intro hmem
    obtain ⟨span, hspan⟩ := exists_span h ho
    have hstart : o.declaration.start? = some span.start := by rw [Declaration.start?, hspan]; rfl
    exact ⟨span.start, (hplaces _).mpr ⟨o, hmem, hstart⟩, by simp [hstart]⟩

/-- Insertions in front of the declarations that are picked, in any order, give a text with the
isolated tree. -/
theorem exists_parse_applyAll {t : Text} {s : Stylesheet} {edits : List Edit}
    (h : Stylesheet.parse t = .ok s) (hisolates : ∀ e ∈ edits, e.Isolates)
    (hplaces : edits.map (fun e => some e.place) =
      (firsts [] (flagged s)).map (·.declaration.start?)) :
    ∃ s', Stylesheet.parse (Edit.applyAll t edits) = .ok s' ∧
      Node.bare s'.nodes = Node.bare s.isolated.nodes := by
  have hsub : (firsts [] (flagged s)).Sublist s.occurrences :=
    (firsts_sublist [] _).trans List.filter_sublist
  have hnodup : (edits.map (·.place)).Nodup := by
    have hsome : ((edits.map (·.place)).map some).Nodup := by
      rw [List.map_map]
      exact hplaces ▸ (nodup_start h).sublist (hsub.map _)
    exact hsome.of_map some
  have hmem : ∀ p, (∃ e ∈ edits, e.place = p) ↔
      ∃ o ∈ firsts [] (flagged s), o.declaration.start? = some p := by
    intro p
    have hiff : some p ∈ edits.map (fun e => some e.place) ↔
        some p ∈ (firsts [] (flagged s)).map (·.declaration.start?) := by rw [hplaces]
    simpa using hiff
  have hperm := List.mergeSort_perm edits Edit.isLater
  obtain ⟨s', hparse, hbare⟩ := Stylesheet.exists_parse_foldl h
    (fun e he => hisolates e (hperm.mem_iff.mp he)) (Edit.pairwise_place_mergeSort hnodup)
    fun e he => by
      obtain ⟨o, ho, hstart⟩ := (hmem e.place).mp ⟨e, hperm.mem_iff.mp he, rfl⟩
      refine ⟨o.declaration, ?_, hstart⟩
      rw [← s.map_occurrences]
      exact List.mem_map_of_mem (hsub.subset ho)
  refine ⟨s', hparse, ?_⟩
  rw [hbare, Stylesheet.precededIn_eq_isolated ((Stylesheet.nodup_starts h).1.of_map _)]
  intro o ho
  refine startsIn_iff_isFirst h ho fun p => ?_
  rw [← hmem, List.mem_map]
  simp only [hperm.mem_iff]

/-- The repaired text has the isolated tree. -/
theorem exists_parse_text {t : Text} {s : Stylesheet} (h : Stylesheet.parse t = .ok s) :
    ∃ r s', ofText .isolate t = .ok r ∧ Stylesheet.parse r.text = .ok s' ∧
      Node.bare s'.nodes = Node.bare s.isolated.nodes := by
  have hfirsts : ∀ o ∈ firsts [] (flagged s), o ∈ s.occurrences ∧ ∃ d, o.finding? {} = some d := by
    intro o ho
    obtain ⟨ho, _, _, hfinding⟩ :=
      finding?_of_mem_flagged h ((firsts_sublist [] (flagged s)).subset ho)
    exact ⟨ho, _, hfinding⟩
  obtain ⟨hisolates, hplaces⟩ := flatMap_editsFor h hfirsts
  rw [← chosen_eq_filterMap h] at hisolates hplaces
  obtain ⟨s', hparse, hbare⟩ := exists_parse_applyAll h hisolates hplaces
  exact ⟨_, s', by rw [ofText, h], hparse, hbare⟩

/-- Where nothing is found nothing is changed. -/
theorem ofText_of_clean {t : Text} {s : Stylesheet} (h : Stylesheet.parse t = .ok s)
    (hclean : ∀ o ∈ s.occurrences, o.finding? {} = none) :
    ofText .isolate t = .ok ⟨[], [], t⟩ := by
  have hfound : (Analysis.ofStylesheet "" 0 {} s).diagnostics = [] := by
    rw [diagnostics_eq_filterMap, List.filterMap_eq_nil_iff]
    exact fun o ho => hclean o (List.mem_filter.mp ho).1
  rw [ofText, h]
  simp [hfound, chosen, firstOfEachOwner, Edit.applyAll]

/-- The repair with `isolate` does what it says. The text after it parses, and its tree is the old
one with `isolation: isolate` in each owner that had a `z-index` without effect, in front of the
first one. Nothing is found in it, and to repair it again changes nothing: the command prints it for
the old text and for the new one. -/
theorem isolate_isolates {t : Text} {s : Stylesheet} (h : Stylesheet.parse t = .ok s) :
    ∃ r s', ofText .isolate t = .ok r ∧ Stylesheet.parse r.text = .ok s' ∧
      Node.bare s'.nodes = Node.bare s.isolated.nodes ∧
      (∀ uri version p, ∃ a, Analysis.ofText uri version p r.text = .ok a ∧ a.diagnostics = []) ∧
      ofText .isolate r.text = .ok ⟨[], [], r.text⟩ ∧
      ∀ (tree : FileTree) (file : FileOperand),
        file.text? tree = some t ∨ file.text? tree = some r.text →
          Command.fix tree file .isolate false =
            ⟨.print .out (String.ofList r.text), .exit 0, tree⟩ := by
  obtain ⟨r, s', hr, hs', hbare⟩ := exists_parse_text h
  have hclean : ∀ p, ∀ o ∈ s'.occurrences, o.finding? p = none := fun p =>
    Stylesheet.finding?_eq_none_of_bare p hbare
  have hagain := ofText_of_clean hs' (hclean {})
  refine ⟨r, s', hr, hs', hbare, fun uri version p => ?_, hagain, ?_⟩
  · obtain ⟨a, ha, hdiag⟩ := Analysis.exists_ofText_eq_ok uri version p hs'
    exact ⟨a, ha, by rw [hdiag, List.filterMap_eq_nil_iff]; exact hclean p⟩
  · rintro tree file (hfile | hfile)
    · rw [Command.fix, hfile]
      simp only [hr]
      rfl
    · rw [Command.fix, hfile]
      simp only [hagain]
      rfl

theorem isolate_isolates_nested :
    ∃ t s r s' tree file, t = "a{z-index:1;b{z-index: 2}z-index:3}".toList ∧
      Stylesheet.parse t = .ok s ∧
      (flagged s).map (·.declaration.value) = ["1", "2", "3"] ∧ ofText .isolate t = .ok r ∧
      Stylesheet.parse r.text = .ok s' ∧ Node.bare s'.nodes = Node.bare s.isolated.nodes ∧
      ofText .isolate r.text = .ok ⟨[], [], r.text⟩ ∧ FileOperand.text? tree file = some t ∧
      Command.fix tree file .isolate false =
        ⟨.print .out (String.ofList r.text), .exit 0, tree⟩ := by
  have hparse : (Stylesheet.parse "a{z-index:1;b{z-index: 2}z-index:3}".toList).toOption.map
      (fun s => (flagged s).map (·.declaration.value)) = some ["1", "2", "3"] := by
    decide +kernel
  obtain ⟨s, hs, hflagged⟩ := Option.map_eq_some_iff.mp hparse
  have hs := ParseError.eq_ok_of_toOption hs
  have hfile : FileOperand.text? ⟨[], [],
      .ofList [(["a"], ⟨.text "a{z-index:1;b{z-index: 2}z-index:3}".toList, 0⟩)]⟩ ⟨"a", ["a"]⟩ =
        some "a{z-index:1;b{z-index: 2}z-index:3}".toList := by
    decide +kernel
  obtain ⟨r, s', hr, hs', hbare, _, hagain, hfix⟩ := isolate_isolates hs
  exact ⟨_, s, r, s', _, _, rfl, hs, hflagged, hr, hs', hbare, hagain, hfile,
    hfix _ _ (Or.inl hfile)⟩

end Repair
end Stacking
