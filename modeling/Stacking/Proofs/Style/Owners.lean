import Stacking.Proofs.Style.Splice

/-!
# Owners are told apart by their spans

The brace that closes a block closes no other one, so no two blocks of a parsed text end at one
place. Hence an owner, as an occurrence knows it, stands for one block only
(`Stylesheet.nodup_owners`), and the declarations with another owner are those that stand elsewhere
(`Stylesheet.elsewhere_eq_filter`).
-/

namespace Stacking

open Token

/-! ## The owners in a tree -/

namespace Node

mutual

/-- The owners that the blocks of a node are, each behind those within it. -/
def owners : Node → List Owner
  | .block head span body => ownersIn body ++ [.block head span]
  | _ => []

/-- The owners that the blocks of a list of nodes are. -/
def ownersIn : List Node → List Owner
  | [] => []
  | node :: rest => node.owners ++ ownersIn rest

end

@[simp] theorem ownersIn_append (ns ms : List Node) :
    ownersIn (ns ++ ms) = ownersIn ns ++ ownersIn ms := by
  induction ns with
  | nil => rfl
  | cons node rest ih => simp [ownersIn, ih]

mutual

theorem owner_mem_of_mem_occurrences {owner : Owner} {siblings : List Declaration}
    {o : Occurrence} : ∀ node : Node, o ∈ node.occurrences owner siblings →
      o.owner = owner ∨ o.owner ∈ node.owners
  | .declaration d, h => by
    obtain rfl : o = ⟨d, owner, siblings⟩ := by simpa [occurrences] using h
    exact Or.inl rfl
  | .atStatement .., h => absurd h (by simp [occurrences])
  | .block head span body, h => by
    rcases owner_mem_of_mem_occurrencesIn body h with h | h
    · exact Or.inr (by simp [owners, h])
    · exact Or.inr (by simp [owners, h])

/-- The owner of an occurrence is the one around the tree or a block of the tree. -/
theorem owner_mem_of_mem_occurrencesIn {owner : Owner} {siblings : List Declaration}
    {o : Occurrence} : ∀ nodes : List Node, o ∈ occurrencesIn owner siblings nodes →
      o.owner = owner ∨ o.owner ∈ ownersIn nodes
  | [], h => nomatch h
  | node :: rest, h => by
    rcases List.mem_append.mp h with h | h
    · exact (owner_mem_of_mem_occurrences node h).imp_right fun h => by simp [ownersIn, h]
    · exact (owner_mem_of_mem_occurrencesIn rest h).imp_right fun h => by simp [ownersIn, h]

end

theorem owner_mem_of_mem_nested {o : Occurrence} {nodes : List Node} (h : o ∈ nested nodes) :
    o.owner ∈ ownersIn nodes := by
  induction nodes with
  | nil => exact nomatch h
  | cons node rest ih =>
    have hcons : nested (node :: rest) = nested [node] ++ nested rest := by simp [nested]
    rw [hcons, List.mem_append] at h
    rw [ownersIn, List.mem_append]
    refine h.imp (fun h => ?_) ih
    cases node with
    | declaration d => exact absurd h (by simp [nested])
    | atStatement name params span => exact absurd h (by simp [nested])
    | block head span body =>
      have h : o ∈ occurrencesIn (.block head span) (ownDeclarations body) body := by
        simpa [nested] using h
      rcases owner_mem_of_mem_occurrencesIn body h with h | h <;> simp [owners, h]

/-- The declarations of a list of nodes that have another owner than the list are those in its
blocks. -/
theorem filter_occurrencesIn {owner : Owner} (siblings : List Declaration) (nodes : List Node)
    (h : owner ∉ ownersIn nodes) :
    (occurrencesIn owner siblings nodes).filter (·.owner ≠ owner) = nested nodes := by
  induction nodes with
  | nil => rfl
  | cons node rest ih =>
    have hcons : nested (node :: rest) = nested [node] ++ nested rest := by simp [nested]
    rw [ownersIn, List.mem_append, not_or] at h
    rw [occurrencesIn, List.filter_append, ih h.2, hcons]
    congr 1
    cases node with
    | declaration d => simp [occurrences, nested]
    | atStatement name params span => simp [occurrences, nested]
    | block head span body =>
      have hsame : nested [.block head span body] =
          (Node.block head span body).occurrences owner siblings := by
        simp [nested, occurrences]
      rw [hsame, List.filter_eq_self]
      intro o ho
      -- what is in the block has the block or one within it as its owner
      have hmem := owner_mem_of_mem_nested (hsame ▸ ho)
      rw [ownersIn, ownersIn, List.append_nil] at hmem
      simp only [ne_eq, decide_eq_true_eq]
      rintro rfl
      exact h.1 hmem

/-- The declarations of a list of nodes that have the same owner as the list are those that stand
directly in it. -/
theorem filter_owner_occurrencesIn {owner : Owner} (siblings : List Declaration)
    (nodes : List Node) (h : owner ∉ ownersIn nodes) :
    (occurrencesIn owner siblings nodes).filter (·.owner = owner) =
      (ownDeclarations nodes).map (⟨·, owner, siblings⟩) := by
  induction nodes with
  | nil => rfl
  | cons node rest ih =>
    rw [ownersIn, List.mem_append, not_or] at h
    rw [occurrencesIn, List.filter_append, ih h.2]
    cases node with
    | declaration d => simp [occurrences, ownDeclarations]
    | atStatement name params span => simp [occurrences, ownDeclarations]
    | block head span body =>
      have hnone : ((Node.block head span body).occurrences owner siblings).filter
          (·.owner = owner) = [] := by
        refine List.filter_eq_nil_iff.mpr fun o ho heq => ?_
        have hmem : o ∈ nested [.block head span body] := by simpa [nested, occurrences] using ho
        have hin := owner_mem_of_mem_nested hmem
        rw [ownersIn, ownersIn, List.append_nil, of_decide_eq_true heq] at hin
        exact h.1 hin
      rw [hnone]
      simp [ownDeclarations]

end Node

namespace Site

open Node

theorem owner_mem (owner : Owner) (site : Site) (nodes : List Node) :
    site.owner owner = owner ∨ site.owner owner ∈ ownersIn (site.plug nodes) := by
  induction site generalizing owner with
  | here before after => exact Or.inl rfl
  | within before head span inner after ih =>
    refine Or.inr ?_
    rw [plug, ownersIn_append, ownersIn, owners, Site.owner]
    rcases ih (.block head span) with h | h <;> simp [h]

/-- Where owners are distinct, they are within a block, and what stands around the block has another
owner than a site within it. -/
theorem nodup_within {owner : Owner} {before after : List Node} {head : BlockHead}
    {span : Option Span} {inner : Site} {nodes : List Node}
    (h : (owner :: ownersIn ((Site.within before head span inner after).plug nodes)).Nodup) :
    (Owner.block head span :: ownersIn (inner.plug nodes)).Nodup ∧
      ∀ siblings, ∀ o ∈ occurrencesIn owner siblings before ++ occurrencesIn owner siblings after,
        o.owner ≠ inner.owner (.block head span) := by
  rw [plug, ownersIn_append, ownersIn, owners, List.nodup_cons, List.nodup_append,
    List.nodup_append, List.nodup_append] at h
  obtain ⟨howner, _, ⟨⟨hinner, _, hblock⟩, _, hafter⟩, hbefore⟩ := h
  constructor
  · refine List.nodup_cons.mpr ⟨fun h => ?_, hinner⟩
    exact hblock _ h _ (by simp) rfl
  · -- the owner of the site is in the block, so neither outside nor the owner of the whole
    have hin : inner.owner (.block head span) ∈
        ownersIn (inner.plug nodes) ++ [.block head span] := by
      rcases inner.owner_mem (.block head span) nodes with h | h <;> simp [h]
    have hne : owner ≠ inner.owner (.block head span) := by
      intro heq
      apply howner
      rw [heq, List.mem_append, List.mem_append]
      exact Or.inr (Or.inl hin)
    intro siblings o ho heq
    rw [← heq] at hin hne
    rcases List.mem_append.mp ho with ho | ho
    · rcases owner_mem_of_mem_occurrencesIn before ho with h | h
      · exact hne h.symm
      · exact hbefore _ h _ (List.mem_append_left _ hin) rfl
    · rcases owner_mem_of_mem_occurrencesIn after ho with h | h
      · exact hne h.symm
      · exact hafter _ hin _ h rfl

/-- A block beside a site adds no declarations to those around it. -/
theorem ownDeclarations_within (before after : List Node) (head : BlockHead) (span : Option Span)
    (body : List Node) :
    ownDeclarations (before ++ .block head span body :: after) =
      ownDeclarations (before ++ after) := by
  simp [ownDeclarations]

/-- Where owners are distinct, the declarations elsewhere are those with another owner. -/
theorem elsewhere_eq_filter {owner : Owner} {site : Site} {nodes : List Node}
    (hnodes : nested nodes = []) (h : (owner :: ownersIn (site.plug nodes)).Nodup) :
    site.elsewhere owner =
      (occurrencesIn owner (ownDeclarations (site.plug nodes)) (site.plug nodes)).filter
        (·.owner ≠ site.owner owner) := by
  induction site generalizing owner with
  | here before after =>
    have hnot := (List.nodup_cons.mp h).1
    rw [plug] at hnot
    rw [Site.owner, plug, filter_occurrencesIn _ _ hnot, elsewhere]
    have := hnodes
    simp only [nested, List.flatMap_append] at this ⊢
    rw [this, List.nil_append]
  | within before head span inner after ih =>
    obtain ⟨hnodup, hne⟩ := nodup_within h
    obtain ⟨hbefore, haround⟩ := List.forall_mem_append.mp (hne (ownDeclarations (before ++ after)))
    have hkeep : ∀ os : List Occurrence, (∀ o ∈ os, o.owner ≠ inner.owner (.block head span)) →
        os.filter (·.owner ≠ inner.owner (.block head span)) = os :=
      fun os hos => List.filter_eq_self.mpr fun o ho => by simpa using hos o ho
    rw [elsewhere, plug, ownDeclarations_within, Site.owner, occurrencesIn_append, occurrencesIn,
      occurrences, List.filter_append, List.filter_append, ← ih hnodup, hkeep _ hbefore,
      hkeep _ haround, List.append_assoc]

/-- Where owners are distinct, the declarations with the owner of a site are those beside it. -/
theorem filter_owner_eq_map {owner : Owner} {site : Site} {nodes : List Node}
    (h : (owner :: ownersIn (site.plug nodes)).Nodup) :
    (occurrencesIn owner (ownDeclarations (site.plug nodes)) (site.plug nodes)).filter
        (·.owner = site.owner owner) =
      (site.siblings nodes).map (⟨·, site.owner owner, site.siblings nodes⟩) := by
  induction site generalizing owner with
  | here before after => exact filter_owner_occurrencesIn _ _ (List.nodup_cons.mp h).1
  | within before head span inner after ih =>
    obtain ⟨hnodup, hne⟩ := nodup_within h
    obtain ⟨hbefore, haround⟩ := List.forall_mem_append.mp (hne (ownDeclarations (before ++ after)))
    have hnone : ∀ os : List Occurrence, (∀ o ∈ os, o.owner ≠ inner.owner (.block head span)) →
        os.filter (·.owner = inner.owner (.block head span)) = [] :=
      fun os hos => List.filter_eq_nil_iff.mpr fun o ho => by simpa using hos o ho
    rw [plug, ownDeclarations_within, Site.owner, occurrencesIn_append, occurrencesIn, occurrences,
      List.filter_append, List.filter_append, hnone _ hbefore, hnone _ haround, ih hnodup,
      List.nil_append, List.append_nil]
    rfl

end Site

/-! ## The owners in a parsed text -/

/-- The place at which an owner ends. -/
def Owner.stop? : Owner → Option SourcePosition
  | .block _ span => span.map (·.stop)
  | _ => none

theorem Opening.owners_finish {o : Opening} {n : Node} (h : o.finish.toNode = .ok n) :
    n.owners = [] := by
  obtain ⟨keyword, prelude⟩ := o
  cases keyword with
  | none =>
    have h : (Statement.declaration prelude).toNode = .ok n := h
    rw [Statement.toNode] at h
    split at h
    · cases h
    · obtain rfl := Except.ok.inj h
      rfl
  | some k =>
    obtain rfl := Except.ok.inj h
    rfl

/-- The owners in a tree end with the braces that close them. -/
theorem Spelled.owners_stop {inner : Bool} {sts : List Statement} {ts : List Token}
    {nodes : List Node} (h : Spelled inner sts ts) (hn : Statement.toNodes sts = .ok nodes) :
    ∃ cs : List Token, cs.Sublist ts ∧
      (Node.ownersIn nodes).map (·.stop?) = cs.map fun t => some t.stop := by
  induction h generalizing nodes with
  | nil =>
    obtain rfl := Except.ok.inj hn
    exact ⟨[], .slnil, rfl⟩
  | empty _ _ ih =>
    obtain ⟨cs, hsub, hstops⟩ := ih hn
    exact ⟨cs, hsub.cons _, hstops⟩
  | @ended inner o semicolon sts ts ho hs _ ih =>
    obtain ⟨n, ns, hst, hsts, rfl⟩ := Statement.toNodes_cons.mp hn
    obtain ⟨cs, hsub, hstops⟩ := ih hsts
    refine ⟨cs, (hsub.cons _).trans (List.sublist_append_right _ _), ?_⟩
    rw [Node.ownersIn, Opening.owners_finish hst, List.nil_append, hstops]
  | @last o ho =>
    obtain ⟨n, ns, hst, hsts, rfl⟩ := Statement.toNodes_cons.mp hn
    obtain rfl := Except.ok.inj hsts
    refine ⟨[], List.nil_sublist _, ?_⟩
    rw [Node.ownersIn, Opening.owners_finish hst]
    rfl
  | @block inner o brace close body sts us ts ho hb _ hc _ ihbody ih =>
    obtain ⟨n, ns, hst, hsts, rfl⟩ := Statement.toNodes_cons.mp hn
    have hst : (Statement.block o.keyword o.prelude body close).toNode = .ok n := hst
    rw [Statement.toNode] at hst
    split at hst
    · cases hst
    · rename_i bnodes hbody
      obtain rfl := Except.ok.inj hst
      obtain ⟨cs, hsub, hstops⟩ := ihbody hbody
      obtain ⟨ds, hsub', hstops'⟩ := ih hsts
      refine ⟨cs ++ close :: ds, ?_, ?_⟩
      · exact ((hsub.append (hsub'.cons_cons close)).cons brace).trans
          (List.sublist_append_right _ _)
      · rw [Node.ownersIn, Node.owners, List.map_append, List.map_append, hstops, hstops',
          List.map_append]
        simp [Owner.stop?]

/-- Tokens end one behind the other. -/
theorem Token.Placed.pairwise_stop {place : SourcePosition} {ts : List Token} {rest : Text}
    (h : Placed place ts) (hlex : Lexes ts rest) :
    (∀ t ∈ ts, ∃ w, w ≠ [] ∧ t.stop = place.advance w) ∧
      ts.Pairwise fun t u => t.stop < u.stop := by
  induction ts generalizing place with
  | nil => exact ⟨nofun, .nil⟩
  | cons t ts ih =>
    obtain ⟨hstart, hplaced⟩ := h
    obtain ⟨hall, hpairs⟩ := ih hplaced hlex.2.2
    obtain ⟨c, x, hx, hb⟩ := hlex.text_ne_nil
    obtain ⟨htext, _⟩ := t.content_append
    have hcontent : t.content ≠ [] := Text.trimEnd_ne_nil (c := c) (by simp [hx]) hb
    refine ⟨?_, List.pairwise_cons.mpr ⟨fun u hu => ?_, hpairs⟩⟩
    · intro u hu
      rcases List.mem_cons.mp hu with rfl | hu
      · refine ⟨u.lead ++ u.content, by simp [hcontent], ?_⟩
        rw [Token.stop, hstart, SourcePosition.advance_append]
      · obtain ⟨w, hw, hstop⟩ := hall u hu
        refine ⟨t.lead ++ (t.text ++ w), by simp [hw], ?_⟩
        rw [hstop, hstart, SourcePosition.advance_append, SourcePosition.advance_append]
    · obtain ⟨w, hw, hstop⟩ := hall u hu
      have hbehind : u.stop = t.stop.advance (t.trailing ++ w) := by
        rw [hstop, Token.stop, ← SourcePosition.advance_append, ← SourcePosition.advance_append,
          ← List.append_assoc, ← htext]
      rw [hbehind]
      exact SourcePosition.lt_advance _ (by simp [hw])

/-- No two blocks of a parsed text are one owner. -/
theorem Stylesheet.nodup_owners {t : Text} {s : Stylesheet} (h : parse t = .ok s) :
    (Owner.stylesheet :: Node.ownersIn s.nodes).Nodup := by
  obtain ⟨ts, sts, hscan, hspelled, hnodes⟩ := parse_eq_ok_iff.mp h
  obtain ⟨cs, hsub, hstops⟩ := hspelled.owners_stop hnodes
  have hgo : Scan.go .first [] 0 t = ⟨ts ++ [], .complete⟩ := by
    rw [List.append_nil]
    exact hscan
  obtain ⟨rest, _, hlex, hplaced, _⟩ := Scan.go_eq_append hgo
  have hpairs := (hplaced.pairwise_stop hlex).2.sublist hsub
  have hnodup : (cs.map fun t => some t.stop).Nodup := by
    rw [List.Nodup, List.pairwise_map]
    refine hpairs.imp fun {t u} hlt heq => ?_
    rw [Option.some.inj heq, SourcePosition.lt_iff] at hlt
    omega
  refine List.nodup_cons.mpr ⟨fun hmem => ?_, ?_⟩
  · have hnone := List.mem_map_of_mem (f := Owner.stop?) hmem
    rw [hstops] at hnone
    simp [Owner.stop?] at hnone
  · rw [← hstops] at hnodup
    exact List.Pairwise.of_map Owner.stop? (fun a b hne heq => hne (congrArg _ heq)) hnodup

/-- The declarations of a parsed text that do not stand beside a given one are those with another
owner. -/
theorem Stylesheet.elsewhere_eq_filter {t : Text} {s : Stylesheet} {site : Site}
    {d : Declaration} (h : parse t = .ok s) (hsite : s.nodes = site.plug [.declaration d]) :
    site.elsewhere .stylesheet = s.occurrences.filter (·.owner ≠ site.owner .stylesheet) := by
  have hnodup := nodup_owners h
  rw [hsite] at hnodup
  rw [Stylesheet.occurrences, hsite]
  exact Site.elsewhere_eq_filter rfl hnodup

/-- The declarations of a parsed text with the owner of a given one are its siblings. -/
theorem Stylesheet.filter_owner {t : Text} {s : Stylesheet} {o : Occurrence}
    (h : parse t = .ok s) (ho : o ∈ s.occurrences) :
    s.occurrences.filter (·.owner = o.owner) = o.siblings.map (⟨·, o.owner, o.siblings⟩) := by
  obtain ⟨site, hsite, hoccurrence⟩ := Site.exists_of_mem_occurrences ho
  have hnodup := nodup_owners h
  rw [hsite] at hnodup
  rw [Stylesheet.occurrences, hsite, hoccurrence]
  exact Site.filter_owner_eq_map hnodup

end Stacking
