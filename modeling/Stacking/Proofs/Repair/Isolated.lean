import Stacking.Proofs.Fix.Insertions

/-!
# Isolated trees

In the isolated tree of a stylesheet every owner that holds a `z-index` without effect has
`isolation: isolate` in front of the first of them (`Stylesheet.isolated`). It can be told in two
ways: owner by owner, or by the declarations that get something in front of them
(`Stylesheet.precededIn_eq_isolated`). In an isolated tree every `z-index` has an effect
(`Stylesheet.isIneffective_isolated`).
-/

namespace Stacking

/-! ## The isolated tree -/

/-- Whether a declaration that stands in the owner beside `siblings` is a `z-index` without
effect. -/
def Owner.flags (owner : Owner) (siblings : List Declaration) (d : Declaration) : Bool :=
  Occurrence.isIneffective ⟨d, owner, siblings⟩

namespace Node

/-- The nodes with `new` in front of the first declaration among them that satisfies `p`. -/
def beforeFirst (new : Declaration) (p : Declaration → Bool) : List Node → List Node
  | [] => []
  | .declaration d :: rest =>
    if p d then .declaration new :: .declaration d :: rest
    else .declaration d :: beforeFirst new p rest
  | node :: rest => node :: beforeFirst new p rest

mutual

/-- The node with `isolation: isolate` in each block of it that holds a `z-index` without effect, in
front of the first one. -/
def isolated : Node → Node
  | .block head span body =>
    .block head span (beforeFirst .isolate
      (Owner.flags (.block head span) (ownDeclarations body)) (isolatedIn body))
  | .declaration d => .declaration d
  | .atStatement name params span => .atStatement name params span

/-- The nodes with `isolation: isolate` in each block of them that holds a `z-index` without effect,
in front of the first one. -/
def isolatedIn : List Node → List Node
  | [] => []
  | node :: rest => node.isolated :: isolatedIn rest

end

end Node

/-- The stylesheet with `isolation: isolate` in each owner that holds a `z-index` without effect, in
front of the first one. -/
def Stylesheet.isolated (s : Stylesheet) : Stylesheet :=
  ⟨Node.beforeFirst .isolate (Owner.flags .stylesheet (Node.ownDeclarations s.nodes))
    (Node.isolatedIn s.nodes)⟩

/-! ## Which declarations get something in front of them -/

/-- The declaration is the first `z-index` without effect of its owner. -/
def Occurrence.IsFirst (o : Occurrence) : Prop :=
  o.siblings.find? (o.owner.flags o.siblings) = some o.declaration

namespace Node

theorem nested_cons (node : Node) (rest : List Node) :
    nested (node :: rest) = nested [node] ++ nested rest := by
  simp [nested]

theorem nested_block (head : BlockHead) (span : Option Span) (body : List Node) :
    nested [.block head span body] =
      occurrencesIn (.block head span) (ownDeclarations body) body := by
  simp [nested]

theorem mem_occurrencesIn_of_mem_nested {owner : Owner} {siblings : List Declaration}
    {nodes : List Node} {o : Occurrence} (h : o ∈ nested nodes) :
    o ∈ occurrencesIn owner siblings nodes := by
  induction nodes with
  | nil => exact h
  | cons node rest ih =>
    rw [nested_cons, List.mem_append] at h
    rw [occurrencesIn, List.mem_append]
    refine h.imp (fun h => ?_) ih
    cases node with
    | declaration d => exact nomatch h
    | atStatement name params span => exact nomatch h
    | block head span body => rwa [nested_block] at h

theorem mem_occurrencesIn_of_mem_own {owner : Owner} {siblings : List Declaration}
    {nodes : List Node} {d : Declaration} (h : d ∈ ownDeclarations nodes) :
    ⟨d, owner, siblings⟩ ∈ occurrencesIn owner siblings nodes := by
  obtain ⟨node, hnode, hd⟩ := List.mem_filterMap.mp h
  obtain ⟨before, after, rfl⟩ := List.append_of_mem hnode
  rw [occurrencesIn_append, occurrencesIn]
  refine List.mem_append_right _ (List.mem_append_left _ ?_)
  split at hd
  · obtain rfl := Option.some.inj hd
    simp [occurrences]
  · cases hd

theorem ownDeclarations_sublist (nodes : List Node) :
    (ownDeclarations nodes).Sublist (declarationsIn nodes) := by
  induction nodes with
  | nil => exact .slnil
  | cons node rest ih =>
    rw [declarationsIn]
    cases node with
    | declaration d => exact ih.cons_cons d
    | atStatement name params span => exact ih
    | block head span body => exact ih.trans (List.sublist_append_right _ _)

variable {p : Declaration → Bool} {f : Declaration → Bool}

/-- Nodes in blocks of which the first of each owner is chosen, none of them being chosen itself. -/
theorem precededIn_of_own_false {nodes : List Node}
    (hinner : ∀ node ∈ nodes, (∀ d, node ≠ .declaration d) →
      node.preceded .isolate p = [node.isolated])
    (h : ∀ d ∈ ownDeclarations nodes, p d = false) :
    precededIn .isolate p nodes = isolatedIn nodes := by
  induction nodes with
  | nil => rfl
  | cons node rest ih =>
    obtain ⟨hnode, hrest⟩ := List.forall_mem_cons.mp hinner
    rw [precededIn, isolatedIn]
    cases node with
    | declaration d =>
      obtain ⟨hd, hown⟩ := List.forall_mem_cons.mp h
      rw [ih hrest hown, preceded, hd]
      rfl
    | atStatement name params span => rw [ih hrest h, hnode nofun]; rfl
    | block head span body => rw [ih hrest h, hnode nofun]; rfl

/-- Nodes in blocks of which the first of each owner is chosen, and of which the first is chosen. -/
theorem precededIn_of_own_first {nodes : List Node}
    (hinner : ∀ node ∈ nodes, (∀ d, node ≠ .declaration d) →
      node.preceded .isolate p = [node.isolated])
    (hnodup : (ownDeclarations nodes).Nodup)
    (h : ∀ d ∈ ownDeclarations nodes, p d = true ↔ (ownDeclarations nodes).find? f = some d) :
    precededIn .isolate p nodes = beforeFirst .isolate f (isolatedIn nodes) := by
  induction nodes with
  | nil => rfl
  | cons node rest ih =>
    obtain ⟨hnode, hrest⟩ := List.forall_mem_cons.mp hinner
    rw [precededIn, isolatedIn]
    cases node with
    | declaration d =>
      have hown : ownDeclarations (.declaration d :: rest) = d :: ownDeclarations rest := rfl
      rw [hown] at hnodup h
      obtain ⟨hd, hothers⟩ := List.forall_mem_cons.mp h
      obtain ⟨hnot, hnodup⟩ := List.nodup_cons.mp hnodup
      cases hf : f d with
      | true =>
        -- this is the first one, so none of the others is chosen
        have hfirst : (d :: ownDeclarations rest).find? f = some d := List.find?_cons_of_pos hf
        have hfalse : ∀ e ∈ ownDeclarations rest, p e = false := by
          intro e he
          rw [Bool.eq_false_iff, ne_eq, hothers e he, hfirst]
          rintro heq
          exact hnot (Option.some.inj heq ▸ he)
        rw [precededIn_of_own_false hrest hfalse, preceded, hd.mpr hfirst, isolated, beforeFirst,
          if_pos rfl, if_pos hf]
        rfl
      | false =>
        have hskip : (d :: ownDeclarations rest).find? f = (ownDeclarations rest).find? f :=
          List.find?_cons_of_neg (by simp [hf])
        rw [hskip] at hd hothers
        have hp : p d = false := by
          rw [Bool.eq_false_iff, ne_eq, hd]
          exact fun heq => hnot (List.mem_of_find?_eq_some heq)
        rw [ih hrest hnodup hothers, preceded, hp, if_neg Bool.false_ne_true, isolated, beforeFirst,
          if_neg (by simp [hf])]
        rfl
    | atStatement name params span => rw [ih hrest hnodup h, hnode nofun]; rfl
    | block head span body => rw [ih hrest hnodup h, hnode nofun]; rfl

mutual

theorem preceded_eq_isolated : ∀ node : Node, (∀ d, node ≠ .declaration d) →
    node.declarations.Nodup → (∀ o ∈ nested [node], p o.declaration = true ↔ o.IsFirst) →
    node.preceded .isolate p = [node.isolated]
  | .declaration d, hnot, _, _ => absurd rfl (hnot d)
  | .atStatement .., _, _, _ => rfl
  | .block head span body, _, hnodup, h => by
    rw [nested_block] at h
    have hinner := preceded_eq_isolated_of_mem body hnodup fun o ho =>
      h o (mem_occurrencesIn_of_mem_nested ho)
    have hbody : precededIn .isolate p body =
        beforeFirst .isolate (Owner.flags (.block head span) (ownDeclarations body))
          (isolatedIn body) :=
      precededIn_of_own_first hinner (hnodup.sublist (ownDeclarations_sublist body))
        fun d hd => h _ (mem_occurrencesIn_of_mem_own hd)
    rw [preceded, isolated, hbody]

theorem preceded_eq_isolated_of_mem : ∀ nodes : List Node, (declarationsIn nodes).Nodup →
    (∀ o ∈ nested nodes, p o.declaration = true ↔ o.IsFirst) →
    ∀ node ∈ nodes, (∀ d, node ≠ .declaration d) → node.preceded .isolate p = [node.isolated]
  | [], _, _ => nofun
  | node :: rest, hnodup, h => by
    rw [declarationsIn, List.nodup_append] at hnodup
    rw [nested_cons, List.forall_mem_append] at h
    exact List.forall_mem_cons.mpr ⟨fun hnot => preceded_eq_isolated node hnot hnodup.1 h.1,
      preceded_eq_isolated_of_mem rest hnodup.2.1 h.2⟩

end

end Node

/-- Where the first `z-index` without effect of each owner is chosen, the tree is isolated. -/
theorem Stylesheet.precededIn_eq_isolated {s : Stylesheet} {p : Declaration → Bool}
    (hnodup : (Node.declarationsIn s.nodes).Nodup)
    (h : ∀ o ∈ s.occurrences, p o.declaration = true ↔ o.IsFirst) :
    Node.precededIn .isolate p s.nodes = s.isolated.nodes := by
  have hinner := Node.preceded_eq_isolated_of_mem s.nodes hnodup fun o ho =>
    h o (Node.mem_occurrencesIn_of_mem_nested ho)
  exact Node.precededIn_of_own_first hinner (hnodup.sublist (Node.ownDeclarations_sublist s.nodes))
    fun d hd => h _ (Node.mem_occurrencesIn_of_mem_own hd)

/-! ## Every `z-index` has an effect -/

theorem Declaration.isolate_establishes (zIndexApplies : Bool) :
    Declaration.isolate.establishes zIndexApplies = true :=
  isolation_establishes .first zIndexApplies

/-- Beside a declaration that establishes a stacking context every `z-index` has an effect. -/
theorem Occurrence.isIneffective_eq_false {o : Occurrence} {d : Declaration}
    (hd : d ∈ o.siblings) (h : ∀ b, d.establishes b = true) : o.isIneffective = false := by
  have hany : o.siblings.any (·.establishes o.zIndexApplies) = true :=
    List.any_eq_true.mpr ⟨d, hd, h _⟩
  rw [isIneffective, hany]
  simp

namespace Node

theorem ownDeclarations_isolatedIn (nodes : List Node) :
    ownDeclarations (isolatedIn nodes) = ownDeclarations nodes := by
  induction nodes with
  | nil => rfl
  | cons node rest ih =>
    cases node with
    | declaration d => exact congrArg (d :: ·) ih
    | atStatement name params span => exact ih
    | block head span body => exact ih

theorem nested_beforeFirst (new : Declaration) (p : Declaration → Bool) (nodes : List Node) :
    nested (beforeFirst new p nodes) = nested nodes := by
  induction nodes with
  | nil => rfl
  | cons node rest ih =>
    cases node with
    | declaration d =>
      rw [beforeFirst]
      split
      · rfl
      · exact ih
    | atStatement name params span => exact ih
    | block head span body => rw [beforeFirst, nested_cons, ih, ← nested_cons]; exact nofun

/-- Where there is a declaration to put `new` in front of, it is put in; otherwise nothing
changes. -/
theorem ownDeclarations_beforeFirst (new : Declaration) (p : Declaration → Bool)
    (nodes : List Node) :
    new ∈ ownDeclarations (beforeFirst new p nodes) ∨
      beforeFirst new p nodes = nodes ∧ ∀ d ∈ ownDeclarations nodes, p d = false := by
  induction nodes with
  | nil => exact Or.inr ⟨rfl, nofun⟩
  | cons node rest ih =>
    cases node with
    | declaration d =>
      rw [beforeFirst]
      split
      · exact Or.inl List.mem_cons_self
      · rename_i hd
        refine ih.imp (List.mem_cons_of_mem d) fun ⟨hsame, hall⟩ => ⟨by rw [hsame], ?_⟩
        exact List.forall_mem_cons.mpr ⟨Bool.eq_false_iff.mpr hd, hall⟩
    | atStatement name params span =>
      exact ih.imp id fun ⟨hsame, hall⟩ => ⟨by rw [beforeFirst, hsame]; exact nofun, hall⟩
    | block head span body =>
      exact ih.imp id fun ⟨hsame, hall⟩ => ⟨by rw [beforeFirst, hsame]; exact nofun, hall⟩

/-- In an owner with `isolation: isolate`, or without a `z-index` that lacks an effect, every
`z-index` has an effect, if that is so in the blocks below. -/
theorem isIneffective_beforeFirst {owner : Owner} {nodes : List Node}
    (hinner : ∀ o ∈ nested (isolatedIn nodes), o.isIneffective = false) :
    let new := beforeFirst .isolate (owner.flags (ownDeclarations nodes)) (isolatedIn nodes)
    ∀ o ∈ occurrencesIn owner (ownDeclarations new) new, o.isIneffective = false := by
  intro new o ho
  have hnested : nested new = nested (isolatedIn nodes) := nested_beforeFirst _ _ _
  obtain ⟨before, node, after, hnew, ⟨rfl, howner, hsiblings⟩ | ⟨head, span, body, rfl, hmem⟩⟩ :=
    Site.mem_occurrencesIn ho
  · have hown : o.declaration ∈ ownDeclarations new := by
      rw [hnew]
      simp [ownDeclarations]
    rcases ownDeclarations_beforeFirst .isolate (owner.flags (ownDeclarations nodes))
      (isolatedIn nodes) with hisolate | ⟨hsame, hall⟩
    · exact Occurrence.isIneffective_eq_false (hsiblings ▸ hisolate)
        Declaration.isolate_establishes
    · have hsame : new = isolatedIn nodes := hsame
      rw [hsame] at hown hsiblings
      rw [ownDeclarations_isolatedIn] at hsiblings
      have hflags := hall o.declaration hown
      rwa [← howner, ← hsiblings] at hflags
  · refine hinner o (hnested ▸ ?_)
    rw [hnew, nested, List.mem_flatMap]
    exact ⟨.block head span body, by simp, hmem⟩

mutual

theorem isIneffective_isolated : ∀ node : Node,
    ∀ o ∈ nested [node.isolated], o.isIneffective = false
  | .declaration _ => fun _ ho => absurd ho List.not_mem_nil
  | .atStatement .. => fun _ ho => absurd ho List.not_mem_nil
  | .block head span body => by
    rw [isolated, nested_block]
    exact isIneffective_beforeFirst (isIneffective_isolatedIn body)

theorem isIneffective_isolatedIn : ∀ nodes : List Node,
    ∀ o ∈ nested (isolatedIn nodes), o.isIneffective = false
  | [] => fun _ ho => absurd ho List.not_mem_nil
  | node :: rest => by
    rw [isolatedIn, nested_cons]
    exact List.forall_mem_append.mpr
      ⟨isIneffective_isolated node, isIneffective_isolatedIn rest⟩

end

end Node

/-- In an isolated tree every `z-index` has an effect. -/
theorem Stylesheet.isIneffective_isolated (s : Stylesheet) :
    ∀ o ∈ s.isolated.occurrences, o.isIneffective = false :=
  Node.isIneffective_beforeFirst (Node.isIneffective_isolatedIn s.nodes)

/-- A tree that differs from an isolated one in its spans only has no findings. -/
theorem Stylesheet.finding?_eq_none_of_bare {s s' : Stylesheet} (p : Publication)
    (h : Node.bare s'.nodes = Node.bare s.isolated.nodes) :
    ∀ o ∈ s'.occurrences, o.finding? p = none := by
  intro o ho
  have hbare : ∀ u : Stylesheet,
      Node.occurrencesIn .stylesheet (Node.ownDeclarations (Node.bare u.nodes))
        (Node.bare u.nodes) = u.occurrences.map (·.mapSpans fun _ => none) := by
    intro u
    rw [Node.bare, Node.ownDeclarations_mapSpansIn]
    exact Node.occurrencesIn_mapSpansIn _ .stylesheet _ u.nodes
  have hmem := List.mem_map_of_mem (f := (·.mapSpans fun _ => none)) ho
  rw [← hbare, h, hbare] at hmem
  obtain ⟨o', ho', heq⟩ := List.mem_map.mp hmem
  have hfalse := s.isIneffective_isolated o' ho'
  rw [← o'.isIneffective_mapSpans fun _ => none, heq, o.isIneffective_mapSpans] at hfalse
  rw [Occurrence.finding?, hfalse]
  rfl

end Stacking
