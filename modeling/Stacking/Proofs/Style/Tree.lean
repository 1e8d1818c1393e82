import Stacking.Style.Node

/-!
# Places in a tree

What a change of a stylesheet keeps is said with two notions.

* `Node.mapSpans` is a tree with other spans. `Node.bare` is the tree without any, so two trees with
  one bare tree differ in their spans only.
* A `Site` is a place among the nodes of a tree. `Site.plug` puts nodes there, and
  `Site.elsewhere` lists the declarations that do not stand directly beside them.
-/

namespace Stacking

/-! ## Spans -/

/-- The declaration with another span. -/
def Declaration.mapSpan (f : Option Span → Option Span) (d : Declaration) : Declaration :=
  { d with span := f d.span }

namespace Node

mutual

/-- The node with other spans, in and below it. -/
def mapSpans (f : Option Span → Option Span) : Node → Node
  | .declaration d => .declaration (d.mapSpan f)
  | .block head span body => .block head (f span) (mapSpansIn f body)
  | .atStatement name params span => .atStatement name params (f span)

/-- The nodes with other spans. -/
def mapSpansIn (f : Option Span → Option Span) : List Node → List Node
  | [] => []
  | node :: rest => node.mapSpans f :: mapSpansIn f rest

end

/-- The nodes without their spans. -/
def bare (nodes : List Node) : List Node := mapSpansIn (fun _ => none) nodes

theorem mapSpansIn_eq_map (f : Option Span → Option Span) (nodes : List Node) :
    mapSpansIn f nodes = nodes.map (mapSpans f) := by
  induction nodes with
  | nil => rfl
  | cons node rest ih => rw [mapSpansIn, ih, List.map_cons]

@[simp] theorem mapSpansIn_append (f : Option Span → Option Span) (ns ms : List Node) :
    mapSpansIn f (ns ++ ms) = mapSpansIn f ns ++ mapSpansIn f ms := by
  simp [mapSpansIn_eq_map]

mutual

theorem mapSpans_mapSpans (f g : Option Span → Option Span) :
    ∀ node : Node, (node.mapSpans f).mapSpans g = node.mapSpans fun s => g (f s)
  | .declaration _ => by simp [mapSpans, Declaration.mapSpan]
  | .block _ _ body => by simp [mapSpans, mapSpansIn_mapSpansIn f g body]
  | .atStatement .. => by simp [mapSpans]

theorem mapSpansIn_mapSpansIn (f g : Option Span → Option Span) :
    ∀ nodes : List Node, mapSpansIn g (mapSpansIn f nodes) = mapSpansIn (fun s => g (f s)) nodes
  | [] => rfl
  | node :: rest => by
    simp [mapSpansIn, mapSpans_mapSpans f g node, mapSpansIn_mapSpansIn f g rest]

end

/-- Other spans do not show in the bare tree. -/
theorem bare_mapSpansIn (f : Option Span → Option Span) (nodes : List Node) :
    bare (mapSpansIn f nodes) = bare nodes :=
  mapSpansIn_mapSpansIn f (fun _ => none) nodes

theorem ownDeclarations_mapSpansIn (f : Option Span → Option Span) (nodes : List Node) :
    ownDeclarations (mapSpansIn f nodes) = (ownDeclarations nodes).map (·.mapSpan f) := by
  induction nodes with
  | nil => rfl
  | cons node rest ih =>
    cases node <;> simpa [mapSpansIn, mapSpans, ownDeclarations] using ih

end Node

/-- The owner with another span. -/
def Owner.mapSpan (f : Option Span → Option Span) : Owner → Owner
  | .block head span => .block head (f span)
  | owner => owner

/-- The occurrence with other spans. -/
def Occurrence.mapSpans (f : Option Span → Option Span) (o : Occurrence) : Occurrence :=
  ⟨o.declaration.mapSpan f, o.owner.mapSpan f, o.siblings.map (·.mapSpan f)⟩

namespace Node

mutual

theorem occurrences_mapSpans (f : Option Span → Option Span) (owner : Owner)
    (siblings : List Declaration) :
    ∀ node : Node, (node.mapSpans f).occurrences (owner.mapSpan f) (siblings.map (·.mapSpan f)) =
      (node.occurrences owner siblings).map (·.mapSpans f)
  | .declaration _ => by simp [mapSpans, occurrences, Occurrence.mapSpans]
  | .atStatement .. => by simp [mapSpans, occurrences]
  | .block head span body => by
    have ih := occurrencesIn_mapSpansIn f (.block head span) (ownDeclarations body) body
    simpa [mapSpans, occurrences, Owner.mapSpan, ownDeclarations_mapSpansIn] using ih

/-- The occurrences in a tree with other spans are those of the tree, with other spans. -/
theorem occurrencesIn_mapSpansIn (f : Option Span → Option Span) (owner : Owner)
    (siblings : List Declaration) :
    ∀ nodes : List Node,
      occurrencesIn (owner.mapSpan f) (siblings.map (·.mapSpan f)) (mapSpansIn f nodes) =
        (occurrencesIn owner siblings nodes).map (·.mapSpans f)
  | [] => rfl
  | node :: rest => by
    rw [mapSpansIn, occurrencesIn, occurrencesIn, List.map_append,
      occurrences_mapSpans f owner siblings node, occurrencesIn_mapSpansIn f owner siblings rest]

end

@[simp] theorem occurrencesIn_append (owner : Owner) (siblings : List Declaration)
    (ns ms : List Node) :
    occurrencesIn owner siblings (ns ++ ms) =
      occurrencesIn owner siblings ns ++ occurrencesIn owner siblings ms := by
  induction ns with
  | nil => rfl
  | cons node rest ih => simp [occurrencesIn, ih]

/-- The declarations in the blocks of a list of nodes. -/
def nested (nodes : List Node) : List Occurrence :=
  nodes.flatMap fun
    | .block head span body => occurrencesIn (.block head span) (ownDeclarations body) body
    | _ => []

theorem nested_mapSpansIn (f : Option Span → Option Span) (nodes : List Node) :
    nested (mapSpansIn f nodes) = (nested nodes).map (·.mapSpans f) := by
  induction nodes with
  | nil => rfl
  | cons node rest ih =>
    have hcons : ∀ n ns, nested (n :: ns) = nested [n] ++ nested ns := by simp [nested]
    rw [mapSpansIn, hcons, hcons node rest, List.map_append, ih]
    congr 1
    cases node with
    | declaration d => rfl
    | atStatement name params span => rfl
    | block head span body =>
      have h := occurrencesIn_mapSpansIn f (.block head span) (ownDeclarations body) body
      simpa [nested, mapSpans, Owner.mapSpan, ownDeclarations_mapSpansIn] using h

/-- Where the declarations that stand directly in a list do not count, those in its blocks are
left. -/
theorem filterMap_occurrencesIn {β : Type} {φ : Occurrence → Option β} {owner : Owner}
    {siblings : List Declaration} (h : ∀ d, φ ⟨d, owner, siblings⟩ = none) (nodes : List Node) :
    (occurrencesIn owner siblings nodes).filterMap φ = (nested nodes).filterMap φ := by
  induction nodes with
  | nil => rfl
  | cons node rest ih =>
    rw [occurrencesIn, List.filterMap_append, ih]
    cases node <;> simp [nested, occurrences, h]

end Node

/-! ## Sites -/

/-- A place among nodes: between two of them, or within a block. -/
inductive Site where
  | here (before after : List Node)
  | within (before : List Node) (head : BlockHead) (span : Option Span) (inner : Site)
      (after : List Node)

namespace Site

open Node

/-- The tree with nodes put at the site. -/
def plug : Site → List Node → List Node
  | .here before after, nodes => before ++ (nodes ++ after)
  | .within before head span inner after, nodes =>
    before ++ .block head span (inner.plug nodes) :: after

/-- What the nodes at the site stand in, the tree standing in `owner`. -/
def owner (owner : Owner) : Site → Owner
  | .here .. => owner
  | .within _ head span inner _ => inner.owner (.block head span)

/-- The declarations beside the site, with those of the nodes put there. -/
def siblings (nodes : List Node) : Site → List Declaration
  | .here before after => ownDeclarations (before ++ (nodes ++ after))
  | .within _ _ _ inner _ => inner.siblings nodes

/-- A declaration at the site, as the analysis of the tree sees it. -/
def occurrence (site : Site) (d : Declaration) : Occurrence :=
  ⟨d, site.owner .stylesheet, site.siblings [.declaration d]⟩

/-- The declarations of the tree but for those that stand beside the site, directly in the same
owner. -/
def elsewhere (owner : Owner) : Site → List Occurrence
  | .here before after => nested before ++ nested after
  | .within before head span inner after =>
    let siblings := ownDeclarations (before ++ after)
    occurrencesIn owner siblings before ++ inner.elsewhere (.block head span) ++
      occurrencesIn owner siblings after

/-- The site in the tree with other spans. -/
def mapSpans (f : Option Span → Option Span) : Site → Site
  | .here before after => .here (mapSpansIn f before) (mapSpansIn f after)
  | .within before head span inner after =>
    .within (mapSpansIn f before) head (f span) (inner.mapSpans f) (mapSpansIn f after)

/-- The bare tree does not show the spans around a site, and only the bare nodes at it. -/
theorem bare_plug_congr (f : Option Span → Option Span) (site : Site) {ns ms : List Node}
    (h : bare ns = bare ms) : bare ((site.mapSpans f).plug ns) = bare (site.plug ms) := by
  induction site with
  | here before after =>
    have hbare := fun nodes => bare_mapSpansIn f nodes
    unfold bare at h hbare ⊢
    simp [plug, mapSpans, hbare, h]
  | within before head span inner after ih =>
    have hbare := fun nodes => bare_mapSpansIn f nodes
    unfold bare at ih hbare ⊢
    simp [plug, mapSpans, mapSpansIn, Node.mapSpans, hbare, ih]

theorem elsewhere_mapSpans (f : Option Span → Option Span) (owner : Owner) (site : Site) :
    (site.mapSpans f).elsewhere (owner.mapSpan f) =
      (site.elsewhere owner).map (·.mapSpans f) := by
  induction site generalizing owner with
  | here before after => simp [mapSpans, elsewhere, nested_mapSpansIn]
  | within before head span inner after ih =>
    have h := ih (.block head span)
    simp only [mapSpans, elsewhere, List.map_append, ← mapSpansIn_append,
      ownDeclarations_mapSpansIn, occurrencesIn_mapSpansIn]
    rw [← h]
    rfl

/-- Nodes without blocks at a site add nothing elsewhere. -/
theorem filterMap_occurrencesIn_plug {β : Type} {φ : Occurrence → Option β} {nodes : List Node}
    (hnodes : nested nodes = []) (owner : Owner) (site : Site)
    (h : ∀ d, φ ⟨d, site.owner owner, site.siblings nodes⟩ = none) :
    (occurrencesIn owner (ownDeclarations (site.plug nodes)) (site.plug nodes)).filterMap φ =
      (site.elsewhere owner).filterMap φ := by
  induction site generalizing owner with
  | here before after =>
    have hnested : nested (before ++ (nodes ++ after)) = nested before ++ nested after := by
      have := hnodes
      simp only [nested, List.flatMap_append] at this ⊢
      rw [this, List.nil_append]
    simp only [Site.owner, siblings] at h
    rw [plug, filterMap_occurrencesIn h, hnested]
    rfl
  | within before head span inner after ih =>
    have hown : ownDeclarations (before ++ .block head span (inner.plug nodes) :: after) =
        ownDeclarations (before ++ after) := by simp [ownDeclarations]
    have hinner := ih (.block head span) h
    simp only [plug, elsewhere, hown, occurrencesIn_append, occurrencesIn, occurrences,
      List.filterMap_append, hinner, List.append_assoc]

/-- A declaration in or below a list of nodes is one of them or stands in the block of one. -/
theorem mem_occurrencesIn {owner : Owner} {siblings : List Declaration} {nodes : List Node}
    {o : Occurrence} (h : o ∈ occurrencesIn owner siblings nodes) :
    ∃ before node after, nodes = before ++ node :: after ∧
      (node = .declaration o.declaration ∧ o.owner = owner ∧ o.siblings = siblings ∨
        ∃ head span body, node = .block head span body ∧
          o ∈ occurrencesIn (.block head span) (ownDeclarations body) body) := by
  induction nodes with
  | nil => exact nomatch h
  | cons node rest ih =>
    rw [occurrencesIn, List.mem_append] at h
    rcases h with h | h
    · refine ⟨[], node, rest, rfl, ?_⟩
      cases node with
      | declaration d =>
        obtain rfl : o = ⟨d, owner, siblings⟩ := by simpa [occurrences] using h
        exact Or.inl ⟨rfl, rfl, rfl⟩
      | atStatement name params span => exact absurd h (by simp [occurrences])
      | block head span body => exact Or.inr ⟨head, span, body, rfl, h⟩
    · obtain ⟨before, n, after, rfl, hn⟩ := ih h
      exact ⟨node :: before, n, after, rfl, hn⟩

theorem exists_of_mem_occurrencesIn {owner : Owner} {nodes : List Node} {o : Occurrence}
    (h : o ∈ occurrencesIn owner (ownDeclarations nodes) nodes) :
    ∃ site : Site, nodes = site.plug [.declaration o.declaration] ∧ o.owner = site.owner owner ∧
      o.siblings = site.siblings [.declaration o.declaration] := by
  induction hsize : sizeOf nodes using Nat.strongRecOn generalizing nodes owner with
  | ind n ih =>
    obtain ⟨before, node, after, rfl, ⟨rfl, howner, hsiblings⟩ | ⟨head, span, body, rfl, hmem⟩⟩ :=
      mem_occurrencesIn h
    · exact ⟨.here before after, rfl, howner, hsiblings⟩
    · have hlt : sizeOf body < n := by
        have hmem : sizeOf (Node.block head span body) <
            sizeOf (before ++ .block head span body :: after) :=
          List.sizeOf_lt_of_mem (by simp)
        simp only [Node.block.sizeOf_spec] at hmem
        omega
      obtain ⟨site, hbody, howner, hsiblings⟩ := ih _ hlt hmem rfl
      exact ⟨.within before head span site after, by rw [plug, ← hbody], howner, hsiblings⟩

theorem mem_siblings {nodes : List Node} {d : Declaration} (h : .declaration d ∈ nodes)
    (site : Site) : d ∈ site.siblings nodes := by
  induction site with
  | here before after =>
    rw [siblings, Node.ownDeclarations, List.mem_filterMap]
    exact ⟨.declaration d, by simp [h], rfl⟩
  | within before head span inner after ih => exact ih

/-- Every declaration of a stylesheet stands at a site of it. -/
theorem exists_of_mem_occurrences {s : Stylesheet} {o : Occurrence} (h : o ∈ s.occurrences) :
    ∃ site : Site, s.nodes = site.plug [.declaration o.declaration] ∧
      o = site.occurrence o.declaration := by
  obtain ⟨site, hnodes, howner, hsiblings⟩ := exists_of_mem_occurrencesIn h
  refine ⟨site, hnodes, ?_⟩
  rw [occurrence, ← howner, ← hsiblings]

end Site
end Stacking
