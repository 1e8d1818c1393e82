import Stacking.Proofs.Listing
import Stacking.Proofs.Repair.Isolation
import Stacking.Proofs.Style.Nesting

/-!
# Ranges tell nodes apart

The analysis and the repair of a text know nodes by their ranges: the analysis lists every rule
once by its range, and the repair looks up the owner of a declaration by the range of the
declaration. As the ranges of a text nest and no two of them are the same, neither takes one node
for another, and a position touches one declaration at most (`Stylesheet.ranges_nest`).
-/

namespace Stacking

/-! ## Listing without repetition -/

/-- Dropping repetitions by what `f` tells of an element is dropping repetitions of elements, where
`f` tells different elements apart. -/
theorem Analysis.eraseDups_filterMap {α β : Type} [DecidableEq α] [DecidableEq β] (f : α → Option β)
    (l : List α) (h : ∀ a ∈ l, ∀ a' ∈ l, ∀ b, f a = some b → f a' = some b → a = a') :
    (l.filterMap f).eraseDups = l.eraseDups.filterMap f := by
  induction l using List.reverseRecOn with
  | nil => rfl
  | append_singleton l a ih =>
    have ih := ih fun x hx y hy =>
      h x (List.mem_append_left _ hx) y (List.mem_append_left _ hy)
    rw [List.filterMap_append, List.filterMap_cons, List.filterMap_nil,
      eraseDups_concat l a]
    cases ha : f a with
    | none =>
      rw [List.append_nil, ih]
      split <;> simp [ha]
    | some b =>
      -- `b` is listed already exactly if `a` is
      have hmem : b ∈ l.filterMap f ↔ a ∈ l := by
        rw [List.mem_filterMap]
        constructor
        · rintro ⟨x, hx, hxb⟩
          rwa [← h x (List.mem_append_left _ hx) a (by simp) b hxb ha]
        · exact fun hl => ⟨a, hl, ha⟩
      simp only [eraseDups_concat, hmem, ih]
      split <;> simp [ha]

/-! ## The nodes of a walk -/

namespace Visit

/-- A walk meets the nodes it starts with, and else what stands in blocks it has met. -/
theorem mem_or_mem_inner {w : Visit} {stack : List Visit} (h : w ∈ walk stack) :
    w ∈ stack ∨ ∃ v ∈ walk stack, w ∈ v.inner := by
  fun_induction walk stack with
  | case1 => exact absurd h List.not_mem_nil
  | case2 v stack ih =>
    rcases List.mem_cons.mp h with rfl | h
    · exact Or.inl List.mem_cons_self
    · rcases ih h with hmem | ⟨u, hu, hw⟩
      · rcases List.mem_append.mp hmem with hw | hw
        · exact Or.inr ⟨v, List.mem_cons_self, hw⟩
        · exact Or.inl (List.mem_cons_of_mem v hw)
      · exact Or.inr ⟨u, List.mem_cons_of_mem v hu, hw⟩

/-- What stands in a block has it as its owner. -/
theorem exists_block_of_mem_inner {v w : Visit} (h : w ∈ v.inner) :
    ∃ head span body, v.node = .block head span body ∧ w.owner = .block head span ∧
      w.node ∈ body := by
  obtain ⟨owner, siblings, node⟩ := v
  cases node with
  | declaration d => exact nomatch h
  | atStatement name params span => exact nomatch h
  | block head span body =>
    obtain ⟨n, hn, rfl⟩ := List.mem_map.mp h
    exact ⟨head, span, body, rfl, rfl, hn⟩

/-- A declaration that a walk meets is the node, with its owner. -/
theorem node_of_occurrence? {v : Visit} {o : Occurrence} (h : v.occurrence? = some o) :
    v.node = .declaration o.declaration ∧ v.owner = o.owner := by
  rw [occurrence?] at h
  split at h
  · rename_i d hd
    obtain rfl := Option.some.inj h
    exact ⟨hd, rfl⟩
  · cases h

end Visit

namespace Stylesheet

/-- The owner of a declaration with a range is a block that the walk meets, with that range. -/
theorem exists_owner_visit {s : Stylesheet} {o : Occurrence} {r : Range} (h : o ∈ s.declarations)
    (hr : o.owner.range? = some r) :
    ∃ v ∈ s.walk, v.node.range? = some r ∧
      ∃ head span body, v.node = .block head span body ∧ o.owner = .block head span := by
  obtain ⟨w, hw, hocc⟩ := List.mem_filterMap.mp h
  obtain ⟨_, howner⟩ := Visit.node_of_occurrence? hocc
  rcases Visit.mem_or_mem_inner hw with hroot | ⟨v, hv, hinner⟩
  · obtain ⟨n, _, rfl⟩ := List.mem_map.mp hroot
    rw [← howner] at hr
    cases hr
  · obtain ⟨head, span, body, hnode, hblock, _⟩ := Visit.exists_block_of_mem_inner hinner
    rw [howner] at hblock
    refine ⟨v, hv, ?_, head, span, body, hnode, hblock⟩
    rw [hblock] at hr
    rw [hnode]
    cases span with
    | none => cases hr
    | some span => exact hr

/-! ## The ranges of a parsed text -/

variable {t : Text} {s : Stylesheet}

/-- The nodes of a parsed text have ranges of which no two are the same. -/
theorem nodup_ranges (h : parse t = .ok s) : (s.walk.map (·.node.range?)).Nodup := by
  obtain ⟨_, _, hall, hlt⟩ := ordered h
  rw [List.Nodup, List.pairwise_map]
  refine hall.imp_of_mem fun {v w} hv _ hvw heq => ?_
  obtain ⟨r, hr, hrlt⟩ := hlt v hv
  have hw : w.node.range? = some r := heq ▸ hr
  rcases hvw with ⟨r', q, hr', hq, hle, _⟩ | ⟨_, q, r', hq, hr', hstart, _⟩
  · obtain rfl := Option.some.inj (hr.symm.trans hr')
    obtain rfl := Option.some.inj (hw.symm.trans hq)
    simp only [Position.lt_iff, Position.le_iff] at hrlt hle
    omega
  · obtain rfl := Option.some.inj (hr.symm.trans hr')
    obtain rfl := Option.some.inj (hw.symm.trans hq)
    simp only [Position.lt_iff] at hstart
    omega

/-- Owners of a parsed text are told apart by their ranges. -/
theorem owner_inj (h : parse t = .ok s) {o o' : Occurrence} {r : Range} (ho : o ∈ s.declarations)
    (ho' : o' ∈ s.declarations) (hr : o.owner.range? = some r) (hr' : o'.owner.range? = some r) :
    o.owner = o'.owner := by
  obtain ⟨v, hv, hvr, head, span, body, hnode, howner⟩ := exists_owner_visit ho hr
  obtain ⟨w, hw, hwr, head', span', body', hnode', howner'⟩ := exists_owner_visit ho' hr'
  have hsame : v = w := List.inj_on_of_nodup_map (nodup_ranges h) hv hw (hvr.trans hwr.symm)
  subst hsame
  rw [hnode] at hnode'
  obtain ⟨rfl, rfl, rfl⟩ := Node.block.inj hnode'
  rw [howner, howner']

/-- Of two declarations of a parsed text the first ends before the second starts. -/
theorem pairwise_declarations (h : parse t = .ok s) :
    s.declarations.Pairwise fun o o' =>
      ∃ r q, (Node.declaration o.declaration).range? = some r ∧
        (Node.declaration o'.declaration).range? = some q ∧
        r.start < r.stop ∧ r.stop < q.start ∧ q.start < q.stop := by
  obtain ⟨_, _, hall, hlt⟩ := ordered h
  rw [declarations, List.pairwise_filterMap]
  refine hall.imp_of_mem fun {v w} hv hw hvw o ho o' ho' => ?_
  obtain ⟨r, hr, hrlt⟩ := hlt v hv
  obtain ⟨q, hq, hqlt⟩ := hlt w hw
  rw [(Visit.node_of_occurrence? ho).1] at hr hvw
  rw [(Visit.node_of_occurrence? ho').1] at hq hvw
  -- a declaration holds nothing, so the second one stands behind it
  rcases hvw with ⟨r', q', hr', hq', _, hbefore⟩ | ⟨hblock, _⟩
  · obtain rfl := Option.some.inj (hr.symm.trans hr')
    obtain rfl := Option.some.inj (hq.symm.trans hq')
    exact ⟨r, q, hr, hq, hrlt, hbefore rfl, hqlt⟩
  · cases hblock

/-- The ranges that an analysis lists, by the declarations that establish a context. -/
theorem analysis_ranges (uri : String) (version : Int) (p : Publication) (s : Stylesheet) :
    (Analysis.ofStylesheet uri version p s).propertyRanges =
        (s.declarations.filterMap (·.context?)).map (·.range) ∧
      (Analysis.ofStylesheet uri version p s).ruleRanges =
        ((s.declarations.filterMap (·.context?)).filterMap (·.ruleRange)).eraseDups := by
  obtain ⟨hcontexts, hconsistent⟩ :=
    Analysis.foldl_add_contexts p s.declarations { uri, version }
  obtain ⟨hproperty, hrule⟩ := hconsistent ⟨rfl, rfl⟩
  rw [hcontexts] at hproperty hrule
  exact ⟨hproperty, hrule⟩

/-- An analysis of a parsed text lists the ranges of the owners that hold a declaration which
establishes a context, every owner once. -/
theorem ruleRanges_eq (h : parse t = .ok s) (uri : String) (version : Int) (p : Publication) :
    (Analysis.ofStylesheet uri version p s).ruleRanges =
      ((s.declarations.filter (·.establishesContext)).map (·.owner)).eraseDups.filterMap
        (·.range?) := by
  have hlisted : (s.declarations.filterMap (·.context?)).filterMap (·.ruleRange) =
      ((s.declarations.filter (·.establishesContext)).map (·.owner)).filterMap (·.range?) := by
    rw [List.filterMap_filterMap, List.filterMap_map, List.filterMap_filter]
    refine List.filterMap_congr fun o ho => ?_
    obtain ⟨span, hspan⟩ := Repair.exists_span h (s.declarations_eq_occurrences ▸ ho)
    rw [Occurrence.context?, hspan]
    split <;> rfl
  rw [(analysis_ranges uri version p s).2, hlisted]
  refine Analysis.eraseDups_filterMap _ _ fun a ha a' ha' r hr hr' => ?_
  obtain ⟨o, ho, rfl⟩ := List.mem_map.mp ha
  obtain ⟨o', ho', rfl⟩ := List.mem_map.mp ha'
  exact owner_inj h (List.mem_filter.mp ho).1 (List.mem_filter.mp ho').1 hr hr'

/-- What holds of the ranges of a stylesheet's nodes, and what it means for those who know nodes by
their ranges. -/
structure RangesNest (s : Stylesheet) : Prop where
  /-- What stands in a rule or an at-rule lies strictly inside it. -/
  inside : ∀ v ∈ s.walk, ∀ w ∈ v.inner, w.node.Inside v.node
  /-- Of the nodes of one owner each lies before the next ones. -/
  before : ∀ owner nodes, s.Holds owner nodes → nodes.Pairwise Node.Before
  /-- Every node has a range, and no two have the same. -/
  ranged : ∀ v ∈ s.walk, ∃ r, v.node.range? = some r
  nodup : (s.walk.map (·.node.range?)).Nodup
  /-- Listing every range of a rule once is listing every rule once. -/
  rules : ∀ uri version p, (Analysis.ofStylesheet uri version p s).ruleRanges =
    ((s.declarations.filter (·.establishesContext)).map (·.owner)).eraseDups.filterMap (·.range?)
  /-- The range of a declaration leads to its owner. -/
  owners : ∀ o ∈ s.declarations, ∃ r, (Node.declaration o.declaration).range? = some r ∧
    (Repair.ownersByRange s).get? r = some o.owner
  /-- The declarations that establish contexts are listed in ascending order and lie apart. -/
  properties : ∀ uri version p, (Analysis.ofStylesheet uri version p s).propertyRanges.Pairwise
    fun r q => r.start < q.start ∧ r.stop < q.start
  /-- No position touches two declarations. -/
  untouched : s.declarations.Pairwise fun o o' => ∃ r q,
    (Node.declaration o.declaration).range? = some r ∧
    (Node.declaration o'.declaration).range? = some q ∧
    ∀ p, ¬(r.contains p = true ∧ q.contains p = true)

/-- The range under which a declaration is listed as a context. -/
theorem range_of_context? {o : Occurrence} {c : StackingContext} (h : o.context? = some c) :
    (Node.declaration o.declaration).range? = some c.range := by
  rw [Occurrence.context?] at h
  split at h
  · obtain ⟨span, hspan, rfl⟩ := Option.map_eq_some_iff.mp h
    show o.declaration.span.map _ = _
    rw [hspan]
    rfl
  · cases h

/-- The ranges of a parsed text nest, and they tell its nodes apart. -/
theorem ranges_nest (h : parse t = .ok s) : s.RangesNest := by
  obtain ⟨hnodes, hblocks, _, hlt⟩ := ordered h
  have hdeclarations := pairwise_declarations h
  refine ⟨fun v hv w hw => ?_, fun owner nodes hholds => ?_, fun v hv => ?_, nodup_ranges h,
    ruleRanges_eq h, fun o ho => ?_, fun uri version p => ?_, ?_⟩
  · obtain ⟨head, span, body, hnode, _, hmem⟩ := Visit.exists_block_of_mem_inner hw
    have hordered := hblocks v hv
    rw [hnode] at hordered ⊢
    exact hordered.2 w.node hmem
  · cases hholds with
    | root => exact hnodes
    | block hv hnode =>
      have hordered := hblocks _ hv
      rw [hnode] at hordered
      exact hordered.1
  · obtain ⟨r, hr, _⟩ := hlt v hv
    exact ⟨r, hr⟩
  · rw [s.declarations_eq_occurrences] at ho
    obtain ⟨span, hspan⟩ := Repair.exists_span h ho
    exact ⟨.ofSpan span, congrArg (Option.map _) hspan, Repair.get?_ownersByRange h ho hspan⟩
  · rw [(analysis_ranges uri version p s).1, List.pairwise_map, List.pairwise_filterMap]
    refine hdeclarations.imp fun {o o'} ⟨r, q, hr, hq, hrlt, hrq, _⟩ c hc c' hc' => ?_
    obtain rfl := Option.some.inj (hr.symm.trans (range_of_context? hc))
    obtain rfl := Option.some.inj (hq.symm.trans (range_of_context? hc'))
    refine ⟨?_, hrq⟩
    simp only [Position.lt_iff] at hrlt hrq ⊢
    omega
  · refine hdeclarations.imp fun {o o'} ⟨r, q, hr, hq, _, hrq, _⟩ => ⟨r, q, hr, hq, ?_⟩
    rintro p ⟨hrp, hqp⟩
    simp only [Range.contains, Bool.and_eq_true, decide_eq_true_eq] at hrp hqp
    simp only [Position.lt_iff, Position.le_iff] at hrq hrp hqp
    omega

theorem ranges_nest_adjacent :
    ∃ t s, t = "@a\x7bb:c;d\x7be:f\x7dg\x7b\x7dh:i /*;*/ j\x7d\r\n@k l;m\x7b\x7d".toList ∧
      parse t = .ok s ∧ s.walk.length = 8 ∧ s.RangesNest := by
  have hparse : (parse
      "@a\x7bb:c;d\x7be:f\x7dg\x7b\x7dh:i /*;*/ j\x7d\r\n@k l;m\x7b\x7d".toList).toOption.map
        (·.walk.length) = some 8 := by
    decide +kernel
  obtain ⟨s, hs, hlength⟩ := Option.map_eq_some_iff.mp hparse
  have hs := ParseError.eq_ok_of_toOption hs
  exact ⟨_, s, rfl, hs, hlength, ranges_nest hs⟩

end Stylesheet
end Stacking
