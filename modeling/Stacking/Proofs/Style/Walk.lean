import Stacking.Style.Node

/-!
# The walk goes in document order

A walk works through a stack of nodes. What lies below the top waits its turn, so a walk over one
stack on another is a walk over the first and then one over the second (`Visit.walk_append`). Hence
the walk meets the nodes in the order of a recursion on the tree (`Stylesheet.walk_eq_visitsIn`),
and the declarations it meets are those of the tree in document order
(`Stylesheet.declarations_eq_occurrences`).
-/

namespace Stacking

namespace Node

mutual

/-- A node that stands in `owner` beside `siblings`, and the nodes below it, by recursion. -/
def visits (owner : Owner) (siblings : List Declaration) : Node → List Visit
  | .declaration d => [⟨owner, siblings, .declaration d⟩]
  | .atStatement name params span => [⟨owner, siblings, .atStatement name params span⟩]
  | .block head span body =>
    ⟨owner, siblings, .block head span body⟩ ::
      visitsIn (.block head span) (ownDeclarations body) body

/-- The nodes in and below a list of nodes, by recursion. -/
def visitsIn (owner : Owner) (siblings : List Declaration) : List Node → List Visit
  | [] => []
  | node :: rest => node.visits owner siblings ++ visitsIn owner siblings rest

end

mutual

theorem filterMap_visits (owner : Owner) (siblings : List Declaration) :
    ∀ node : Node, (node.visits owner siblings).filterMap (·.occurrence?) =
      node.occurrences owner siblings
  | .declaration _ => by simp [visits, occurrences, Visit.occurrence?]
  | .atStatement .. => by simp [visits, occurrences, Visit.occurrence?]
  | .block head span body => by
    rw [visits, occurrences, List.filterMap_cons_none rfl]
    exact filterMap_visitsIn (.block head span) (ownDeclarations body) body

/-- The declarations among the nodes of a tree are its occurrences. -/
theorem filterMap_visitsIn (owner : Owner) (siblings : List Declaration) :
    ∀ nodes : List Node, (visitsIn owner siblings nodes).filterMap (·.occurrence?) =
      occurrencesIn owner siblings nodes
  | [] => rfl
  | node :: rest => by
    rw [visitsIn, occurrencesIn, List.filterMap_append, filterMap_visits owner siblings node,
      filterMap_visitsIn owner siblings rest]

end

end Node

namespace Visit

/-- A walk over a stack comes to an end before it takes what lies below. -/
theorem walk_append (vs ws : List Visit) : walk (vs ++ ws) = walk vs ++ walk ws := by
  fun_induction walk vs with
  | case1 => rfl
  | case2 v stack ih =>
    rw [List.cons_append, walk, ← List.append_assoc, ih, List.cons_append]

theorem walk_cons (v : Visit) (stack : List Visit) :
    walk (v :: stack) = v :: (walk v.inner ++ walk stack) := by
  rw [walk, walk_append]

theorem mem_walk_of_mem {v : Visit} {stack : List Visit} (h : v ∈ stack) : v ∈ walk stack := by
  obtain ⟨below, above, rfl⟩ := List.append_of_mem h
  rw [walk_append, walk_cons]
  exact List.mem_append_right _ List.mem_cons_self

/-- A walk that meets a node meets the nodes in its block. -/
theorem mem_walk_of_mem_inner {v w : Visit} {stack : List Visit} (h : v ∈ walk stack)
    (hw : w ∈ v.inner) : w ∈ walk stack := by
  fun_induction walk stack with
  | case1 => exact nomatch h
  | case2 u stack ih =>
    refine List.mem_cons_of_mem u ?_
    rcases List.mem_cons.mp h with rfl | h
    · exact mem_walk_of_mem (List.mem_append_left stack hw)
    · exact ih h

mutual

theorem walk_node (owner : Owner) (siblings : List Declaration) :
    ∀ node : Node, walk [⟨owner, siblings, node⟩] = node.visits owner siblings
  | .declaration _ => by simp [walk_cons, inner, walk, Node.visits]
  | .atStatement .. => by simp [walk_cons, inner, walk, Node.visits]
  | .block head span body => by
    have hbody := walk_nodes (.block head span) (Node.ownDeclarations body) body
    have hinner : inner ⟨owner, siblings, .block head span body⟩ =
        body.map fun node => ⟨.block head span, Node.ownDeclarations body, node⟩ := rfl
    rw [walk_cons, hinner, hbody, Node.visits, walk, List.append_nil]

/-- A walk over the nodes of one owner goes by recursion on them. -/
theorem walk_nodes (owner : Owner) (siblings : List Declaration) :
    ∀ nodes : List Node, walk (nodes.map fun node => ⟨owner, siblings, node⟩) =
      Node.visitsIn owner siblings nodes
  | [] => by simp [walk, Node.visitsIn]
  | node :: rest => by
    rw [List.map_cons, ← List.singleton_append, walk_append, walk_node owner siblings node,
      walk_nodes owner siblings rest, Node.visitsIn]

end

end Visit

namespace Stylesheet

/-- The walk over a stylesheet meets its nodes in the order of a recursion on the tree. -/
theorem walk_eq_visitsIn (s : Stylesheet) :
    s.walk = Node.visitsIn .stylesheet (Node.ownDeclarations s.nodes) s.nodes :=
  Visit.walk_nodes .stylesheet (Node.ownDeclarations s.nodes) s.nodes

/-- The declarations that a walk meets are those of the stylesheet in document order. -/
theorem declarations_eq_occurrences (s : Stylesheet) : s.declarations = s.occurrences := by
  rw [declarations, walk_eq_visitsIn]
  exact Node.filterMap_visitsIn .stylesheet (Node.ownDeclarations s.nodes) s.nodes

end Stylesheet
end Stacking
