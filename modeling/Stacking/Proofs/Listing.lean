import Stacking.Proofs.Analysis
import Stacking.Proofs.Style.Tree

/-!
# The analysis by definition

One pass over a tree lists the declarations that establish a stacking context, the rules they stand
in and the `z-index` declarations without effect. This file says which these are, for every tree and
without the pass: the lists are filters of the declarations in document order, and the rules are
listed without repetition (`Analysis.ofTree_lists`).
-/

namespace Stacking

/-! ## What is listed -/

namespace Occurrence

/-- What a declaration that establishes a stacking context is listed as, if it has a place. -/
def context? (o : Occurrence) : Option StackingContext :=
  if o.establishesContext then
    o.declaration.span.map fun span =>
      ⟨o.declaration.property, o.declaration.value, .ofSpan span, o.owner.range?⟩
  else none

/-- A declaration beside this one, where it stands itself. -/
def beside (o : Occurrence) (d : Declaration) : Occurrence := ⟨d, o.owner, o.siblings⟩

/-- A `z-index` in vain: it asks for a place in the stacking order, and no declaration beside it,
nor itself, establishes a stacking context. -/
structure Vain (o : Occurrence) : Prop where
  property : o.declaration.property = "z-index"
  value : o.declaration.value ∉ ["auto", "unset", "initial", "inherit", "revert"]
  siblings : ∀ d ∈ o.siblings, (o.beside d).establishesContext = false

theorem isIneffective_iff (o : Occurrence) : o.isIneffective = true ↔ o.Vain := by
  have hvalue : o.declaration.setsZIndex = true ↔ o.declaration.property = "z-index" ∧
      o.declaration.value ∉ ["auto", "unset", "initial", "inherit", "revert"] := by
    simp [Declaration.setsZIndex, neutralValues, and_assoc]
  have hsiblings : (!o.siblings.any (·.establishes o.zIndexApplies)) = true ↔
      ∀ d ∈ o.siblings, (o.beside d).establishesContext = false := by
    simp only [Bool.not_eq_true', List.any_eq_false, Bool.not_eq_true]
    rfl
  rw [isIneffective, Bool.and_eq_true, hvalue, hsiblings]
  constructor
  · rintro ⟨⟨hproperty, hvalue⟩, hsiblings⟩
    exact ⟨hproperty, hvalue, hsiblings⟩
  · rintro ⟨hproperty, hvalue, hsiblings⟩
    exact ⟨⟨hproperty, hvalue⟩, hsiblings⟩

instance (o : Occurrence) : Decidable o.Vain := decidable_of_iff _ o.isIneffective_iff

theorem finding?_eq (p : Publication) (o : Occurrence) :
    o.finding? p = if o.Vain then o.declaration.span.map fun span => p.finding (.ofSpan span)
      else none := by
  rw [finding?]
  simp only [o.isIneffective_iff]

/-- What counts as sibling of itself does not both establish a context and stand in vain. -/
theorem Vain.establishesContext_eq_false {o : Occurrence} (h : o.Vain)
    (hself : o.declaration ∈ o.siblings) : o.establishesContext = false :=
  h.siblings o.declaration hself

/-- Beside a `z-index` in vain every other one that asks for a place is in vain too. -/
theorem Vain.beside {o : Occurrence} {d : Declaration} (h : o.Vain) (hd : d.setsZIndex = true) :
    (o.beside d).Vain := by
  have hz : d.property = "z-index" ∧
      d.value ∉ ["auto", "unset", "initial", "inherit", "revert"] := by
    simpa [Declaration.setsZIndex, neutralValues, and_assoc] using hd
  exact ⟨hz.1, hz.2, h.siblings⟩

end Occurrence

/-! ## One pass -/

namespace Analysis

/-- The ranges that are listed agree with the contexts that are listed. -/
structure Consistent (a : Analysis) : Prop where
  property : a.propertyRanges = a.contexts.map (·.range)
  rule : a.ruleRanges = (a.contexts.filterMap (·.ruleRange)).eraseDups

theorem eraseDups_concat {α : Type} [DecidableEq α] (l : List α) (x : α) :
    (l ++ [x]).eraseDups = if x ∈ l then l.eraseDups else l.eraseDups ++ [x] := by
  rw [List.eraseDups_append]
  split
  · rename_i hx
    simp [List.removeAll, hx]
  · rename_i hx
    simp [List.removeAll, hx, List.eraseDups_cons]

/-- Listing a context lists its range, and that of its rule if it is new. -/
theorem Consistent.addContext {a : Analysis} (h : Consistent a) (o : Occurrence) (range : Range) :
    Consistent (a.addContext o range) where
  property := by simp [Analysis.addContext, h.property]
  rule := by
    simp only [Analysis.addContext, List.filterMap_append, List.filterMap_cons, List.filterMap_nil]
    cases o.owner.range? with
    | none => simpa using h.rule
    | some r =>
      simp only [eraseDups_concat, h.rule, List.contains_iff_mem, List.mem_eraseDups]

/-- One declaration adds its own context and nothing else to the contexts. -/
theorem add_contexts (p : Publication) (a : Analysis) (o : Occurrence) :
    (add p a o).contexts = a.contexts ++ o.context?.toList := by
  unfold add Occurrence.context?
  cases o.declaration.span with
  | none => simp
  | some span =>
    cases o.establishesContext <;> cases o.isIneffective <;> simp [addContext, addDiagnostic]

theorem Consistent.add {a : Analysis} (h : Consistent a) (p : Publication) (o : Occurrence) :
    Consistent (add p a o) := by
  unfold Analysis.add
  cases o.declaration.span with
  | none => exact h
  | some span =>
    have hadded : Consistent
        (if o.establishesContext then a.addContext o (.ofSpan span) else a) := by
      split
      · exact h.addContext o _
      · exact h
    simp only
    split
    · -- a finding leaves the contexts alone
      exact ⟨hadded.property, hadded.rule⟩
    · exact hadded

theorem foldl_add_contexts (p : Publication) (os : List Occurrence) (a : Analysis) :
    (os.foldl (add p) a).contexts = a.contexts ++ os.filterMap (·.context?) ∧
      (Consistent a → Consistent (os.foldl (add p) a)) := by
  induction os generalizing a with
  | nil => simp
  | cons o rest ih =>
    obtain ⟨hcontexts, hconsistent⟩ := ih (add p a o)
    refine ⟨?_, fun h => hconsistent (h.add p o)⟩
    rw [List.foldl_cons, hcontexts, add_contexts, List.append_assoc]
    cases ho : o.context? <;> simp [ho]

end Analysis

/-! ## Every tree -/

namespace Stylesheet

/-- The declarations of a tree by recursion, the nodes being `linked` to their owners or not. -/
def inOrder (linked : Bool) (s : Stylesheet) : List Occurrence :=
  if linked then s.occurrences else s.occurrences.map fun o => .alone o.declaration

theorem seen_eq_inOrder (linked : Bool) (s : Stylesheet) : s.seen linked = s.inOrder linked := by
  cases linked with
  | true => exact s.declarations_eq_occurrences
  | false => rw [seen, detachedOccurrences, s.declarations_eq_occurrences]; rfl

/-- The nodes that an owner of the tree holds. -/
inductive Holds (s : Stylesheet) : Owner → List Node → Prop
  | root : Holds s .stylesheet s.nodes
  | block {v : Visit} {head : BlockHead} {span : Option Span} {body : List Node} :
      v ∈ s.walk → v.node = .block head span body → Holds s (.block head span) body

/-- The declarations that an owner holds are declarations of the tree. -/
theorem Holds.mem_occurrences {s : Stylesheet} {owner : Owner} {nodes : List Node}
    (h : s.Holds owner nodes) {d : Declaration} (hd : .declaration d ∈ nodes) :
    ⟨d, owner, Node.ownDeclarations nodes⟩ ∈ s.occurrences := by
  rw [← s.declarations_eq_occurrences, declarations, List.mem_filterMap]
  refine ⟨⟨owner, Node.ownDeclarations nodes, .declaration d⟩, ?_, rfl⟩
  have hmet : (⟨owner, Node.ownDeclarations nodes, .declaration d⟩ : Visit) ∈
      Visit.ofNodes owner nodes := List.mem_map.mpr ⟨_, hd, rfl⟩
  cases h with
  | root => exact Visit.mem_walk_of_mem hmet
  | block hv hnode =>
    refine Visit.mem_walk_of_mem_inner hv ?_
    rw [Visit.inner, hnode]
    exact hmet

/-- Every declaration counts among its siblings. -/
theorem mem_siblings_of_mem_inOrder {linked : Bool} {s : Stylesheet} {o : Occurrence}
    (h : o ∈ s.inOrder linked) : o.declaration ∈ o.siblings := by
  cases linked with
  | true =>
    obtain ⟨site, _, hsite⟩ := Site.exists_of_mem_occurrences h
    rw [hsite]
    exact site.mem_siblings List.mem_cons_self
  | false =>
    obtain ⟨o', _, rfl⟩ := List.mem_map.mp h
    exact List.mem_cons_self

end Stylesheet

/-- What the analysis of a tree lists. With `D` the declarations in document order: the contexts
are those of `D` that establish a stacking context, the ranges are theirs, the ranges of their rules
come once each, and the findings are those of `D` that are a `z-index` in vain. No declaration of
`D` is both, and of the `z-index` declarations of one owner that ask for a place all are in vain or
none. -/
theorem Analysis.ofTree_lists (linked : Bool) (uri : String) (version : Int) (p : Publication)
    (s : Stylesheet) :
    let D := s.inOrder linked
    let a := ofTree linked uri version p s
    a.contexts = D.filterMap (·.context?) ∧
    a.propertyRanges = a.contexts.map (·.range) ∧
    a.ruleRanges = (a.contexts.filterMap (·.ruleRange)).eraseDups ∧
    a.diagnostics = (D.filterMap fun o =>
      if o.Vain then o.declaration.span.map fun span => p.finding (.ofSpan span) else none) ∧
    (∀ o ∈ D, ¬(o.establishesContext = true ∧ o.Vain)) ∧
    ∀ owner nodes, s.Holds owner nodes →
      (∀ d, .declaration d ∈ nodes →
        ⟨d, owner, Node.ownDeclarations nodes⟩ ∈ s.inOrder true) ∧
      ((∀ d, .declaration d ∈ nodes → d.setsZIndex = true →
        Occurrence.Vain ⟨d, owner, Node.ownDeclarations nodes⟩) ∨
        ∀ d, .declaration d ∈ nodes → ¬Occurrence.Vain ⟨d, owner, Node.ownDeclarations nodes⟩) := by
  intro D a
  have hseen : a = D.foldl (add p) { uri, version } := by
    simp only [a, D, ← s.seen_eq_inOrder linked]
    rfl
  obtain ⟨hcontexts, hconsistent⟩ := foldl_add_contexts p D { uri, version }
  obtain ⟨_, _, hfindings⟩ := foldl_add_eq p D { uri, version }
  rw [← hseen] at hcontexts hconsistent hfindings
  obtain ⟨hproperty, hrule⟩ := hconsistent ⟨rfl, rfl⟩
  refine ⟨hcontexts, hproperty, hrule, ?_, ?_, ?_⟩
  · rw [hfindings]
    exact congrArg (List.filterMap · D) (funext fun o => o.finding?_eq p)
  · rintro o ho ⟨hestablishes, hvain⟩
    have hnone := hvain.establishesContext_eq_false (Stylesheet.mem_siblings_of_mem_inOrder ho)
    rw [hnone] at hestablishes
    exact nomatch hestablishes
  · intro owner nodes hholds
    refine ⟨fun d hd => hholds.mem_occurrences hd, ?_⟩
    -- one of them in vain makes all of them so
    by_cases hany : ∃ d, .declaration d ∈ nodes ∧
        Occurrence.Vain ⟨d, owner, Node.ownDeclarations nodes⟩
    · obtain ⟨d, _, hvain⟩ := hany
      exact Or.inl fun d' _ hsets => hvain.beside hsets
    · exact Or.inr fun d hd hvain => hany ⟨d, hd, hvain⟩

end Stacking
