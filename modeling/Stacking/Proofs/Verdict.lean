import Mathlib.Data.List.Forall2
import Stacking.Proofs.Listing

/-!
# What a verdict depends on

Whether a declaration establishes a stacking context, and whether it is a `z-index` without effect,
depends on its property and value, on the kind of its owner, and on which properties with which
values stand beside it: not on their order or number, and on nothing else in the tree. More beside a
declaration can only help. It may come to establish a context that it did not establish before, and a
finding may go away, but none is new. `Stylesheet.verdicts_local` says so, of any two trees and of a
tree to which a declaration is added.
-/

namespace Stacking

/-! ## A declaration in itself -/

namespace Declaration

variable {d e : Declaration}

/-- What a verdict reads of a declaration: its property and its value. -/
def entry (d : Declaration) : String × String := (d.property, d.value)

theorem entry_eq_iff : d.entry = e.entry ↔ d.property = e.property ∧ d.value = e.value := by
  rw [entry, entry, Prod.mk.injEq]

theorem enablesZIndex_congr (h : d.entry = e.entry) : d.enablesZIndex = e.enablesZIndex := by
  obtain ⟨hproperty, hvalue⟩ := entry_eq_iff.mp h
  rw [enablesZIndex, enablesZIndex, isPositioned, isPositioned, hproperty, hvalue]

theorem setsZIndex_congr (h : d.entry = e.entry) : d.setsZIndex = e.setsZIndex := by
  obtain ⟨hproperty, hvalue⟩ := entry_eq_iff.mp h
  rw [setsZIndex, setsZIndex, hproperty, hvalue]

theorem establishes_congr (h : d.entry = e.entry) (b : Bool) :
    d.establishes b = e.establishes b := by
  obtain ⟨hproperty, hvalue⟩ := entry_eq_iff.mp h
  rw [establishes, establishes, hproperty, hvalue]

/-- What establishes a context where `z-index` does not apply also does where it does. -/
theorem establishes_mono {b b' : Bool} (hb : b = true → b' = true)
    (h : d.establishes b = true) : d.establishes b' = true := by
  unfold establishes at h ⊢
  by_cases hnone : (!contextProperties.contains d.property || neutralValues.contains d.value) = true
  · rw [if_pos hnone] at h
    exact nomatch h
  · rw [if_neg hnone] at h ⊢
    -- only of `z-index` it is asked whether it applies
    by_cases hz : (d.property == "z-index") = true
    · rw [if_pos hz, Bool.and_eq_true] at h ⊢
      exact ⟨h.1, hb h.2⟩
    · rw [if_neg hz] at h ⊢
      exact h

end Declaration

/-! ## A declaration where it stands -/

namespace Occurrence

variable {o o' : Occurrence}

/-- The properties with their values that stand beside a declaration, its own included. -/
def entries (o : Occurrence) : List (String × String) := o.siblings.map (·.entry)

/-- The two declarations say the same, in owners of one kind. -/
structure Resembles (o o' : Occurrence) : Prop where
  entry : o.declaration.entry = o'.declaration.entry
  owner : o.owner.isRuleLike = o'.owner.isRuleLike

theorem Resembles.symm (h : o.Resembles o') : o'.Resembles o := ⟨h.entry.symm, h.owner.symm⟩

theorem exists_sibling (h : o.entries ⊆ o'.entries) {d : Declaration} (hd : d ∈ o.siblings) :
    ∃ e ∈ o'.siblings, e.entry = d.entry :=
  List.mem_map.mp (h (List.mem_map.mpr ⟨d, hd, rfl⟩))

/-- Where more stands beside a declaration `z-index` applies if it did before. -/
theorem Resembles.zIndexApplies (h : o.Resembles o') (hentries : o.entries ⊆ o'.entries)
    (hz : o.zIndexApplies = true) : o'.zIndexApplies = true := by
  rw [Occurrence.zIndexApplies, Bool.and_eq_true, List.any_eq_true] at hz ⊢
  obtain ⟨hkind, d, hd, henables⟩ := hz
  obtain ⟨e, he, hentry⟩ := exists_sibling hentries hd
  refine ⟨h.owner ▸ hkind, e, he, ?_⟩
  rw [Declaration.enablesZIndex_congr hentry]
  exact henables

theorem Resembles.establishesContext (h : o.Resembles o') (hentries : o.entries ⊆ o'.entries)
    (ho : o.establishesContext = true) : o'.establishesContext = true := by
  rw [Occurrence.establishesContext] at ho ⊢
  rw [← Declaration.establishes_congr h.entry]
  exact Declaration.establishes_mono (h.zIndexApplies hentries) ho

/-- What is without effect beside more is so beside less: a sibling that establishes a context beside
less has its like beside more, which does so too. -/
theorem Resembles.isIneffective (h : o.Resembles o') (hentries : o.entries ⊆ o'.entries)
    (ho : o'.isIneffective = true) : o.isIneffective = true := by
  rw [Occurrence.isIneffective, Bool.and_eq_true, Bool.not_eq_true', List.any_eq_false] at ho ⊢
  obtain ⟨hsets, hnone⟩ := ho
  refine ⟨by rw [Declaration.setsZIndex_congr h.entry]; exact hsets, ?_⟩
  intro d hd hestablishes
  obtain ⟨e, he, hentry⟩ := exists_sibling hentries hd
  apply hnone e he
  rw [Declaration.establishes_congr hentry]
  exact Declaration.establishes_mono (h.zIndexApplies hentries) hestablishes

/-- Declarations beside which the same stands get the same verdicts. -/
theorem Resembles.verdicts_eq (h : o.Resembles o') (hentries : ∀ x, x ∈ o.entries ↔ x ∈ o'.entries) :
    o.establishesContext = o'.establishesContext ∧ o.isIneffective = o'.isIneffective := by
  have hmore : o.entries ⊆ o'.entries := fun x => (hentries x).mp
  have hless : o'.entries ⊆ o.entries := fun x => (hentries x).mpr
  constructor
  · rw [Bool.eq_iff_iff]
    exact ⟨h.establishesContext hmore, h.symm.establishesContext hless⟩
  · rw [Bool.eq_iff_iff]
    exact ⟨h.symm.isIneffective hless, h.isIneffective hmore⟩

/-- The declaration `o'` is that of `o`, in the same owner, with at least the same beside it. -/
structure Gains (o o' : Occurrence) : Prop where
  declaration : o.declaration = o'.declaration
  owner : o.owner = o'.owner
  siblings : o.siblings ⊆ o'.siblings

theorem Gains.refl (o : Occurrence) : o.Gains o := ⟨rfl, rfl, List.Subset.refl _⟩

theorem Gains.resembles (h : o.Gains o') : o.Resembles o' :=
  ⟨congrArg _ h.declaration, congrArg _ h.owner⟩

theorem Gains.isIneffective (h : o.Gains o') (ho : o'.isIneffective = true) :
    o.isIneffective = true :=
  h.resembles.isIneffective (List.map_subset _ h.siblings) ho

theorem Gains.establishesContext (h : o.Gains o') (ho : o.establishesContext = true) :
    o'.establishesContext = true :=
  h.resembles.establishesContext (List.map_subset _ h.siblings) ho

/-- A finding about a declaration with more beside it is one with less. -/
theorem Gains.finding? (h : o.Gains o') {p : Publication} {f : Diagnostic}
    (ho : o'.finding? p = some f) : o.finding? p = some f := by
  unfold Occurrence.finding? at ho ⊢
  split at ho
  · rename_i hineffective
    rw [if_pos (h.isIneffective hineffective), h.declaration]
    exact ho
  · exact nomatch ho

theorem filterMap_finding?_sublist {os os' : List Occurrence} (h : List.Forall₂ Gains os os')
    (p : Publication) :
    (os'.filterMap (·.finding? p)).Sublist (os.filterMap (·.finding? p)) := by
  induction h with
  | nil => exact List.Sublist.refl _
  | @cons o o' os os' hgains _ ih =>
    cases hfinding : o'.finding? p with
    | none =>
      rw [List.filterMap_cons_none hfinding]
      cases hbefore : o.finding? p with
      | none => rwa [List.filterMap_cons_none hbefore]
      | some f =>
        rw [List.filterMap_cons_some hbefore]
        exact ih.cons f
    | some f =>
      rw [List.filterMap_cons_some hfinding, List.filterMap_cons_some (hgains.finding? hfinding)]
      exact ih.cons_cons f

end Occurrence

/-! ## A declaration added to a tree -/

/-- More declarations beside the nodes of an owner are only seen by the declarations among them. -/
theorem Node.forall₂_occurrencesIn (owner : Owner) {siblings siblings' : List Declaration}
    (h : siblings ⊆ siblings') (nodes : List Node) :
    List.Forall₂ Occurrence.Gains (occurrencesIn owner siblings nodes)
      (occurrencesIn owner siblings' nodes) := by
  induction nodes with
  | nil => exact List.Forall₂.nil
  | cons node rest ih =>
    rw [occurrencesIn, occurrencesIn]
    refine List.rel_append ?_ ih
    cases node with
    | declaration d => exact List.Forall₂.cons ⟨rfl, rfl, h⟩ List.Forall₂.nil
    | atStatement name params span => exact List.Forall₂.nil
    | block head span body => exact List.forall₂_same.mpr fun o _ => Occurrence.Gains.refl o

namespace Site

open Node

/-- When a declaration is put at a site, the others stay as they were, but those beside it have one
more beside them. -/
theorem exists_split_occurrencesIn (d : Declaration) (owner : Owner) (site : Site) :
    ∃ front back front' back',
      occurrencesIn owner (ownDeclarations (site.plug [])) (site.plug []) = front ++ back ∧
      occurrencesIn owner (ownDeclarations (site.plug [.declaration d]))
          (site.plug [.declaration d]) =
        front' ++ ⟨d, site.owner owner, site.siblings [.declaration d]⟩ :: back' ∧
      List.Forall₂ Occurrence.Gains front front' ∧ List.Forall₂ Occurrence.Gains back back' := by
  induction site generalizing owner with
  | here before after =>
    have hsubset : ownDeclarations (before ++ after) ⊆
        ownDeclarations (before ++ .declaration d :: after) := by
      intro e he
      simp only [ownDeclarations, List.filterMap_append, List.filterMap_cons, List.mem_append,
        List.mem_cons] at he ⊢
      tauto
    exact ⟨_, _, _, _, occurrencesIn_append .., occurrencesIn_append ..,
      forall₂_occurrencesIn owner hsubset before, forall₂_occurrencesIn owner hsubset after⟩
  | within before head span inner after ih =>
    obtain ⟨front, back, front', back', hwithout, hwith, hfront, hback⟩ := ih (.block head span)
    -- a block is no declaration, so those beside it are the same
    have hown : ∀ nodes, ownDeclarations (before ++ .block head span (inner.plug nodes) :: after) =
        ownDeclarations (before ++ after) := by
      intro nodes
      simp [ownDeclarations]
    have hrefl : ∀ nodes, List.Forall₂ Occurrence.Gains
        (occurrencesIn owner (ownDeclarations (before ++ after)) nodes)
        (occurrencesIn owner (ownDeclarations (before ++ after)) nodes) :=
      fun nodes => forall₂_occurrencesIn owner (List.Subset.refl _) nodes
    refine ⟨_ ++ front, back ++ _, _ ++ front', back' ++ _, ?_, ?_,
      List.rel_append (hrefl before) hfront, List.rel_append hback (hrefl after)⟩
    · rw [plug, hown, occurrencesIn_append, occurrencesIn, occurrences, hwithout,
        List.append_assoc, List.append_assoc]
    · rw [plug, hown, occurrencesIn_append, occurrencesIn, occurrences, hwith, List.append_assoc,
        List.append_assoc]
      rfl

end Site

namespace Stylesheet

/-- Verdicts are local, do not depend on order or number, and are monotone. Of two declarations of
any two trees that say the same in owners of one kind, the one with more beside it establishes a
context if the other does, and is without effect only if the other is; with the same beside them they
get the same verdicts. A declaration added to a tree takes no context from those that are there, and
gives them no finding. -/
theorem verdicts_local :
    (∀ s₁ s₂ : Stylesheet, ∀ o₁ ∈ s₁.declarations, ∀ o₂ ∈ s₂.declarations,
      o₁.Resembles o₂ → o₁.entries ⊆ o₂.entries →
        (o₁.establishesContext = true → o₂.establishesContext = true) ∧
        (o₂.isIneffective = true → o₁.isIneffective = true)) ∧
    (∀ s₁ s₂ : Stylesheet, ∀ o₁ ∈ s₁.declarations, ∀ o₂ ∈ s₂.declarations,
      o₁.Resembles o₂ → (∀ x, x ∈ o₁.entries ↔ x ∈ o₂.entries) →
        o₁.establishesContext = o₂.establishesContext ∧ o₁.isIneffective = o₂.isIneffective) ∧
    ∀ (site : Site) (d : Declaration), ∃ front back front' back',
      declarations ⟨site.plug []⟩ = front ++ back ∧
      declarations ⟨site.plug [.declaration d]⟩ = front' ++ site.occurrence d :: back' ∧
      List.Forall₂ (fun o o' => o.declaration = o'.declaration ∧
        (o.establishesContext = true → o'.establishesContext = true) ∧
        (o'.isIneffective = true → o.isIneffective = true)) (front ++ back) (front' ++ back') ∧
      ∀ uri version p, ((front' ++ back').filterMap (·.finding? p)).Sublist
        (Analysis.ofStylesheet uri version p ⟨site.plug []⟩).diagnostics := by
  refine ⟨?_, ?_, ?_⟩
  · intro s₁ s₂ o₁ _ o₂ _ hresembles hentries
    exact ⟨hresembles.establishesContext hentries, hresembles.isIneffective hentries⟩
  · intro s₁ s₂ o₁ _ o₂ _ hresembles hentries
    exact hresembles.verdicts_eq hentries
  · intro site d
    obtain ⟨front, back, front', back', hwithout, hwith, hfront, hback⟩ :=
      site.exists_split_occurrencesIn d .stylesheet
    have hgains := List.rel_append hfront hback
    have hdeclarations : declarations ⟨site.plug []⟩ = front ++ back := by
      rw [declarations_eq_occurrences]
      exact hwithout
    refine ⟨front, back, front', back', hdeclarations, ?_, ?_, ?_⟩
    · rw [declarations_eq_occurrences]
      exact hwith
    · exact hgains.imp fun o o' h => ⟨h.declaration, h.establishesContext, h.isIneffective⟩
    · intro uri version p
      have hlisted := (Analysis.foldl_add_eq p (declarations ⟨site.plug []⟩) { uri, version }).2.2
      have hdiagnostics : (Analysis.ofStylesheet uri version p ⟨site.plug []⟩).diagnostics =
          (front ++ back).filterMap (·.finding? p) := by
        rw [← hdeclarations]
        exact hlisted
      rw [hdiagnostics]
      exact Occurrence.filterMap_finding?_sublist hgains p

/-- Each of three rules holds `z-index: 1`. With more beside it, in another tree and within an
at-rule, the positioned one still establishes a context; the one that is not is without effect, and
so is its like with the same beside it in another order, some of it twice. -/
theorem verdicts_local_across_trees :
    let z : Declaration := { property := "z-index", value := "1" }
    let red : Declaration := { property := "color", value := "red" }
    let relative : Declaration := { property := "position", value := "relative" }
    let s₁ : Stylesheet := ⟨[
      .block (.selector "a") none [.declaration relative, .declaration z],
      .block (.selector "d") none [.declaration z, .declaration red]]⟩
    let s₂ : Stylesheet := ⟨[.block (.atRule "media" "print") none [
      .block (.selector "b") none [.declaration z, .declaration { red with important := true },
        .block (.selector "c") none [.declaration red], .declaration relative],
      .block (.selector "e") none [.declaration red, .declaration { z with important := true },
        .block (.selector "f") none [.declaration relative], .declaration red]]]⟩
    ∃ a ∈ s₁.declarations, ∃ d ∈ s₁.declarations, ∃ b ∈ s₂.declarations, ∃ e ∈ s₂.declarations,
      (a.Resembles b ∧ a.entries ⊆ b.entries ∧
        a.establishesContext = true ∧ b.establishesContext = true) ∧
      (d.Resembles b ∧ d.entries ⊆ b.entries ∧ d.isIneffective = true ∧ b.isIneffective = false) ∧
      d.Resembles e ∧ (∀ x, x ∈ d.entries ↔ x ∈ e.entries) ∧ d.siblings.length ≠ e.siblings.length ∧
        e.establishesContext = false ∧ e.isIneffective = true := by
  intro z red relative s₁ s₂
  let a : Occurrence := ⟨z, .block (.selector "a") none, [relative, z]⟩
  let d : Occurrence := ⟨z, .block (.selector "d") none, [z, red]⟩
  let b : Occurrence :=
    ⟨z, .block (.selector "b") none, [z, { red with important := true }, relative]⟩
  let e : Occurrence := ⟨{ z with important := true }, .block (.selector "e") none,
    [red, { z with important := true }, red]⟩
  have ha : a ∈ s₁.declarations := by rw [declarations_eq_occurrences]; decide +kernel
  have hd : d ∈ s₁.declarations := by rw [declarations_eq_occurrences]; decide +kernel
  have hb : b ∈ s₂.declarations := by rw [declarations_eq_occurrences]; decide +kernel
  have he : e ∈ s₂.declarations := by rw [declarations_eq_occurrences]; decide +kernel
  have hab : a.entries ⊆ b.entries := by decide +kernel
  have hdb : d.entries ⊆ b.entries := by decide +kernel
  have hde : ∀ x, x ∈ d.entries ↔ x ∈ e.entries := by
    intro x
    have hless : d.entries ⊆ e.entries := by decide +kernel
    have hmore : e.entries ⊆ d.entries := by decide +kernel
    exact ⟨fun h => hless h, fun h => hmore h⟩
  obtain ⟨hmono, hsame, -⟩ := verdicts_local
  have hpositioned : a.establishesContext = true := by decide +kernel
  have hestablishes := (hmono s₁ s₂ a ha b hb ⟨rfl, rfl⟩ hab).1 hpositioned
  obtain ⟨hcontext, hineffective⟩ := hsame s₁ s₂ d hd e he ⟨rfl, rfl⟩ hde
  have hstill : d.establishesContext = false ∧ d.isIneffective = true := by decide +kernel
  rw [hcontext, hineffective] at hstill
  exact ⟨a, ha, d, hd, b, hb, e, he, ⟨⟨rfl, rfl⟩, hab, hpositioned, hestablishes⟩,
    ⟨⟨rfl, rfl⟩, hdb, by decide +kernel, by decide +kernel⟩, ⟨rfl, rfl⟩, hde, by decide, hstill⟩

end Stylesheet
end Stacking
