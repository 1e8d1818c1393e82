import Stacking.Proofs.Ranges
import Stacking.Proofs.Style.Concatenation

/-!
# The analysis of two texts one after the other

What an analysis lists of the stacking contexts of two texts, put one after the other with a line
feed between them, is what it lists of the first and then what it lists of the second, moved down
(`Stylesheet.concatenation`). A declaration at the root never depends on the others there, since
`z-index` applies in rules only; and no range of the one text is a range of the other.
-/

namespace Stacking

/-! ## What is listed further down -/

/-- The range a number of lines further down. -/
def Range.below (n : Nat) (r : Range) : Range :=
  ⟨⟨r.start.line + n, r.start.character⟩, ⟨r.stop.line + n, r.stop.character⟩⟩

/-- The context a number of lines further down. -/
def StackingContext.below (n : Nat) (c : StackingContext) : StackingContext :=
  { c with range := c.range.below n, ruleRange := c.ruleRange.map (.below n) }

/-- An analysis lists the contexts of one and then those of another, a number of lines further
down. -/
structure Analysis.Joins (n : Nat) (a b joint : Analysis) : Prop where
  propertyRanges : joint.propertyRanges = a.propertyRanges ++ b.propertyRanges.map (.below n)
  ruleRanges : joint.ruleRanges = a.ruleRanges ++ b.ruleRanges.map (.below n)
  contexts : joint.contexts = a.contexts ++ b.contexts.map (.below n)

namespace Range

theorem ofSpan_below (n : Nat) (s : Span) : ofSpan (s.below n) = (ofSpan s).below n := by
  simp only [ofSpan, Span.below, Span.carried, SourcePosition.below, Position.ofSource, below,
    Range.mk.injEq, Position.mk.injEq, and_true]
  omega

theorem below_injective (n : Nat) : Function.Injective (below n) := by
  rintro ⟨⟨_, _⟩, ⟨_, _⟩⟩ ⟨⟨_, _⟩, ⟨_, _⟩⟩ h
  simp only [below, Range.mk.injEq, Position.mk.injEq] at h ⊢
  omega

/-- An exact range starts in a line of the text. -/
theorem Exact.start_line {t : Text} {r : Range} (h : r.Exact t) :
    0 ≤ r.start.line ∧ r.start.line < t.lineCount := by
  have hle : t.offsetAt r.start ≤ t.length := Nat.le_of_lt (Nat.lt_of_lt_of_le h.lt h.le)
  obtain ⟨x, y, hxy, hx⟩ : ∃ x y, t = x ++ y ∧ t.offsetAt r.start = x.length :=
    ⟨t.take _, t.drop _, (List.take_append_drop _ t).symm, (List.length_take_of_le hle).symm⟩
  obtain ⟨ls, l, m, ms, hcut⟩ := Text.exists_cut x y
  have hstart : (x ++ y).positionAt x.length = r.start := by
    rw [← hxy, ← hx]
    exact h.start_eq
  rw [hcut.positionAt, hcut.position] at hstart
  rw [← hstart, hxy, hcut.lineCount]
  simp only
  omega

end Range

/-! ## Contexts -/

namespace Occurrence

theorem context?_mapSpans (n : Nat) (o : Occurrence) :
    (o.mapSpans (Option.map (.below n))).context? = o.context?.map (.below n) := by
  have hestablishes :
      (o.mapSpans (Option.map (.below n))).establishesContext = o.establishesContext := by
    rw [establishesContext, zIndexApplies_mapSpans]
    exact Declaration.establishes_mapSpan ..
  have howner : (o.mapSpans (Option.map (.below n))).owner.range? =
      o.owner.range?.map (.below n) := by
    obtain ⟨d, owner, siblings⟩ := o
    cases owner with
    | unknown => rfl
    | stylesheet => rfl
    | block head span =>
      cases span with
      | none => rfl
      | some span => exact congrArg some (Range.ofSpan_below n span)
  rw [context?, context?, hestablishes, howner]
  split
  · cases hspan : o.declaration.span with
    | none => simp [mapSpans, Declaration.mapSpan, hspan]
    | some span =>
      simp [mapSpans, Declaration.mapSpan, hspan, Range.ofSpan_below, StackingContext.below]
  · rfl

end Occurrence

namespace Stylesheet

/-- At the root of a stylesheet, where `z-index` never applies, the declarations beside one do not
matter. -/
theorem contexts_root (siblings siblings' : List Declaration) (nodes : List Node) :
    (Node.occurrencesIn .stylesheet siblings nodes).filterMap (·.context?) =
      (Node.occurrencesIn .stylesheet siblings' nodes).filterMap (·.context?) := by
  induction nodes with
  | nil => rfl
  | cons node nodes ih =>
    rw [Node.occurrencesIn, Node.occurrencesIn, List.filterMap_append, List.filterMap_append, ih]
    -- only a declaration is seen with those beside it
    cases node <;> rfl

/-- The contexts of nodes put behind others and further down. -/
theorem contexts_append (n : Nat) (ns ms : List Node) :
    (occurrences ⟨ns ++ Node.mapSpansIn (Option.map (.below n)) ms⟩).filterMap (·.context?) =
      (occurrences ⟨ns⟩).filterMap (·.context?) ++
        ((occurrences ⟨ms⟩).filterMap (·.context?)).map (.below n) := by
  have hmoved : (occurrences ⟨Node.mapSpansIn (Option.map (.below n)) ms⟩).filterMap
      (·.context?) = ((occurrences ⟨ms⟩).filterMap (·.context?)).map (.below n) := by
    have hall := Node.occurrencesIn_mapSpansIn (Option.map (Span.below n)) .stylesheet
      (Node.ownDeclarations ms) ms
    rw [← Node.ownDeclarations_mapSpansIn] at hall
    have hmap : occurrences ⟨Node.mapSpansIn (Option.map (.below n)) ms⟩ =
      (occurrences ⟨ms⟩).map (·.mapSpans (Option.map (.below n))) := hall
    rw [hmap, List.filterMap_map, List.map_filterMap]
    exact List.filterMap_congr fun o _ => o.context?_mapSpans n
  rw [← hmoved, occurrences, Node.occurrencesIn_append, List.filterMap_append]
  congr 1
  · exact contexts_root _ _ _
  · exact contexts_root _ _ _

/-! ## The ranges of rules -/

/-- The rules of a parsed text start in its lines. -/
theorem ruleRange_line {t : Text} {s : Stylesheet} (h : parse t = .ok s) {r : Range}
    (hr : r ∈ (s.occurrences.filterMap (·.context?)).filterMap (·.ruleRange)) :
    0 ≤ r.start.line ∧ r.start.line < t.lineCount := by
  obtain ⟨c, hc, hrule⟩ := List.mem_filterMap.mp hr
  obtain ⟨o, ho, hcontext⟩ := List.mem_filterMap.mp hc
  have howner : o.owner.range? = some r := by
    rw [Occurrence.context?] at hcontext
    split at hcontext
    · obtain ⟨span, _, rfl⟩ := Option.map_eq_some_iff.mp hcontext
      exact hrule
    · cases hcontext
  rw [← declarations_eq_occurrences] at ho
  obtain ⟨v, hv, hrange, _⟩ := exists_owner_visit ho howner
  obtain ⟨r', hr', hexact⟩ := exists_exact h hv
  obtain rfl := Option.some.inj (hrange.symm.trans hr')
  exact hexact.start_line

/-- Dropping repetitions from two lists with nothing in common, the second one's elements having
been renamed. -/
theorem eraseDups_append_map {α : Type} [DecidableEq α] {f : α → α} (hf : Function.Injective f)
    {as bs : List α} (h : ∀ b ∈ bs, f b ∉ as) :
    (as ++ bs.map f).eraseDups = as.eraseDups ++ bs.eraseDups.map f := by
  have hnone : (bs.map f).removeAll as = bs.map f := by
    rw [List.removeAll, List.filter_eq_self]
    intro x hx
    obtain ⟨b, hb, rfl⟩ := List.mem_map.mp hx
    simpa using h b hb
  have hmap := Analysis.eraseDups_filterMap (fun b => some (f b)) bs fun b _ b' _ c hb hb' =>
    hf (Option.some.inj (hb.trans hb'.symm))
  rw [List.eraseDups_append, hnone]
  simpa using hmap

/-! ## Two texts -/

/-- What an analysis lists of the contexts of a tree. -/
theorem analysis_contexts (uri : String) (version : Int) (p : Publication) (s : Stylesheet) :
    (Analysis.ofStylesheet uri version p s).contexts = s.occurrences.filterMap (·.context?) := by
  rw [← declarations_eq_occurrences]
  exact (Analysis.foldl_add_contexts p s.declarations { uri, version }).1

/-- The findings in the nodes of two texts, those of the second further down. -/
theorem analysis_append {t u : Text} {s r : Stylesheet} (hs : parse t = .ok s)
    (hr : parse u = .ok r) (uri : String) (version : Int) (p : Publication) :
    Analysis.Joins t.lineCount (Analysis.ofStylesheet uri version p s)
      (Analysis.ofStylesheet uri version p r)
      (Analysis.ofStylesheet uri version p
        ⟨s.nodes ++ Node.mapSpansIn (Option.map (.below t.lineCount)) r.nodes⟩) := by
  have hcontexts := contexts_append t.lineCount s.nodes r.nodes
  generalize hjoint : Stylesheet.mk
    (s.nodes ++ Node.mapSpansIn (Option.map (Span.below t.lineCount)) r.nodes) = joint at *
  have hlisted := fun x => analysis_ranges uri version p x
  simp only [declarations_eq_occurrences] at hlisted
  refine ⟨?_, ?_, ?_⟩
  · rw [(hlisted joint).1, (hlisted s).1, (hlisted r).1, hcontexts, List.map_append, List.map_map,
      List.map_map]
    rfl
  · rw [(hlisted joint).2, (hlisted s).2, (hlisted r).2, hcontexts, List.filterMap_append,
      List.filterMap_map]
    have hmoved : (r.occurrences.filterMap (·.context?)).filterMap
        ((·.ruleRange) ∘ StackingContext.below t.lineCount) =
        ((r.occurrences.filterMap (·.context?)).filterMap (·.ruleRange)).map
          (.below t.lineCount) := by
      rw [List.map_filterMap]
      rfl
    rw [hmoved]
    refine eraseDups_append_map (Range.below_injective _) fun b hb hmem => ?_
    have hlow := (ruleRange_line hr hb).1
    have hhigh := (ruleRange_line hs hmem).2
    simp only [Range.below] at hhigh
    omega
  · rw [analysis_contexts, analysis_contexts, analysis_contexts, hcontexts]

/-- Two texts that parse also parse one after the other, with a line feed between them. The nodes
are those of the first and then those of the second, moved down by the lines of the first, and so
are the contexts and ranges that an analysis lists. -/
theorem concatenation {t u : Text} {s r : Stylesheet} (hs : parse t = .ok s)
    (hr : parse u = .ok r) :
    ∃ joint, parse (t ++ '\n' :: u) = .ok joint ∧
      joint.nodes = s.nodes ++ Node.mapSpansIn (Option.map (.below t.lineCount)) r.nodes ∧
      ∀ uri version p,
        Analysis.Joins t.lineCount (Analysis.ofStylesheet uri version p s)
          (Analysis.ofStylesheet uri version p r) (Analysis.ofStylesheet uri version p joint) :=
  ⟨_, parse_append hs hr, rfl, analysis_append hs hr⟩

theorem concatenation_commented :
    ∃ (t u : Text) (s r joint : Stylesheet),
      t = "a\x7bb:url(;);opacity:0\x7d\n// c \x7b".toList ∧
      u = "d\n\x7bisolation:isolate\x7d".toList ∧ parse t = .ok s ∧ parse u = .ok r ∧
      parse (t ++ '\n' :: u) = .ok joint ∧ t.lineCount = 2 ∧
      joint.nodes = s.nodes ++ Node.mapSpansIn (Option.map (.below t.lineCount)) r.nodes ∧
      ∀ uri version p,
        Analysis.Joins t.lineCount (Analysis.ofStylesheet uri version p s)
          (Analysis.ofStylesheet uri version p r) (Analysis.ofStylesheet uri version p joint) := by
  have hs : (parse "a\x7bb:url(;);opacity:0\x7d\n// c \x7b".toList).toOption.isSome = true := by
    decide +kernel
  have hr : (parse "d\n\x7bisolation:isolate\x7d".toList).toOption.isSome = true := by
    decide +kernel
  have hcount : Text.lineCount "a\x7bb:url(;);opacity:0\x7d\n// c \x7b".toList = 2 := by
    decide +kernel
  obtain ⟨s, hs⟩ := Option.isSome_iff_exists.mp hs
  obtain ⟨r, hr⟩ := Option.isSome_iff_exists.mp hr
  have hs := ParseError.eq_ok_of_toOption hs
  have hr := ParseError.eq_ok_of_toOption hr
  obtain ⟨joint, hjoint, hall⟩ := concatenation hs hr
  exact ⟨_, _, s, r, joint, rfl, rfl, hs, hr, hjoint, hcount, hall⟩

end Stylesheet
end Stacking
