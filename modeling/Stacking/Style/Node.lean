import Stacking.Text.Position

/-!
# The tree of a stylesheet

A stylesheet is a list of nodes: declarations, blocks headed by a selector or an at-rule, and
at-rules without a block. Trees made by hand may lack the span of a node. An `Occurrence` is a
declaration together with what the analysis sees around it: the node that owns it and the
declarations beside it.

The nodes of a tree are visited by a walk over a stack (`Stylesheet.walk`), and the declarations it
meets are those of the tree in document order (`Stylesheet.occurrences`).
-/

namespace Stacking

/-- A property with its value. -/
structure Declaration where
  property : String
  value : String
  important : Bool := false
  span : Option Span := none
deriving DecidableEq

/-- What heads a block. -/
inductive BlockHead where
  | selector (text : String)
  | atRule (name params : String)
deriving DecidableEq

/-- A node of a stylesheet. -/
inductive Node where
  | declaration (declaration : Declaration)
  | block (head : BlockHead) (span : Option Span) (body : List Node)
  | atStatement (name params : String) (span : Option Span)

/-- What a declaration stands in. -/
inductive Owner where
  /-- Nothing is known around the declaration. -/
  | unknown
  /-- The stylesheet itself. -/
  | stylesheet
  /-- The block of a rule or an at-rule. -/
  | block (head : BlockHead) (span : Option Span)
deriving DecidableEq

/-- Whether the owner is a rule or an at-rule. -/
def Owner.isRuleLike : Owner → Bool
  | .block _ _ => true
  | _ => false

/-- A declaration with its owner and all declarations of that owner, itself included. -/
structure Occurrence where
  declaration : Declaration
  owner : Owner
  siblings : List Declaration
deriving DecidableEq

/-- A declaration of which nothing around it is known. -/
def Occurrence.alone (d : Declaration) : Occurrence := ⟨d, .unknown, [d]⟩

namespace Node

/-- The declarations that stand directly in a list of nodes. -/
def ownDeclarations (nodes : List Node) : List Declaration :=
  nodes.filterMap fun
    | .declaration d => some d
    | _ => none

mutual

/-- The declarations in and below a node that stands in `owner` beside `siblings`, in document
order. -/
def occurrences (owner : Owner) (siblings : List Declaration) : Node → List Occurrence
  | .declaration d => [⟨d, owner, siblings⟩]
  | .atStatement .. => []
  | .block head span body => occurrencesIn (.block head span) (ownDeclarations body) body

/-- The declarations in and below a list of nodes, in document order. -/
def occurrencesIn (owner : Owner) (siblings : List Declaration) : List Node → List Occurrence
  | [] => []
  | node :: rest => node.occurrences owner siblings ++ occurrencesIn owner siblings rest

end

end Node

/-- A stylesheet: its nodes in document order. -/
structure Stylesheet where
  nodes : List Node

namespace Stylesheet

/-- The declarations of a stylesheet in document order, each with its owner and siblings. -/
def occurrences (s : Stylesheet) : List Occurrence :=
  Node.occurrencesIn .stylesheet (Node.ownDeclarations s.nodes) s.nodes

end Stylesheet

/-! ## Walking a tree -/

namespace Node

mutual

/-- The number of nodes in and below a node. -/
def count : Node → Nat
  | .block _ _ body => countIn body + 1
  | _ => 1

/-- The number of nodes in and below a list of nodes. -/
def countIn : List Node → Nat
  | [] => 0
  | node :: rest => node.count + countIn rest

end

theorem countIn_append (ns ms : List Node) : countIn (ns ++ ms) = countIn ns + countIn ms := by
  induction ns with
  | nil => simp [countIn]
  | cons node rest ih => simp only [List.cons_append, countIn, ih]; omega

end Node

/-- A node that a walk meets, with what it stands in and the declarations beside it. -/
structure Visit where
  owner : Owner
  siblings : List Declaration
  node : Node

namespace Visit

/-- The nodes of an owner, as a walk meets them. -/
def ofNodes (owner : Owner) (nodes : List Node) : List Visit :=
  nodes.map fun node => ⟨owner, Node.ownDeclarations nodes, node⟩

/-- The nodes in the block of a node that has been met. -/
def inner (v : Visit) : List Visit :=
  match v.node with
  | .block head span body => ofNodes (.block head span) body
  | _ => []

theorem map_node_ofNodes (owner : Owner) (nodes : List Node) :
    (ofNodes owner nodes).map (·.node) = nodes := by
  rw [ofNodes, List.map_map]
  exact List.map_id nodes

theorem countIn_inner_lt (v : Visit) : Node.countIn (v.inner.map (·.node)) < v.node.count := by
  obtain ⟨owner, siblings, node⟩ := v
  cases node with
  | declaration d => simp [inner, Node.countIn, Node.count]
  | atStatement name params span => simp [inner, Node.countIn, Node.count]
  | block head span body => simp [inner, map_node_ofNodes, Node.count]

/-- The nodes that a walk meets, which takes the top of its stack and puts the nodes in its block
in its place. -/
def walk : List Visit → List Visit
  | [] => []
  | v :: stack => v :: walk (v.inner ++ stack)
termination_by stack => Node.countIn (stack.map (·.node))
decreasing_by
  have := countIn_inner_lt v
  rw [List.map_append, Node.countIn_append, List.map_cons, Node.countIn]
  omega

/-- The declaration that has been met, if the node is one. -/
def occurrence? (v : Visit) : Option Occurrence :=
  match v.node with
  | .declaration d => some ⟨d, v.owner, v.siblings⟩
  | _ => none

end Visit

namespace Stylesheet

/-- Every node of a stylesheet in document order, an owner before what it owns. -/
def walk (s : Stylesheet) : List Visit := Visit.walk (Visit.ofNodes .stylesheet s.nodes)

/-- The declarations that a walk meets, each with its owner and siblings. -/
def declarations (s : Stylesheet) : List Occurrence := s.walk.filterMap (·.occurrence?)

/-- The declarations that a walk meets where no node knows its owner. -/
def detachedOccurrences (s : Stylesheet) : List Occurrence :=
  s.declarations.map fun o => .alone o.declaration

/-- The declarations that a walk meets, the nodes being `linked` to their owners or not. -/
def seen (linked : Bool) (s : Stylesheet) : List Occurrence :=
  match linked with
  | true => s.declarations
  | false => s.detachedOccurrences

end Stylesheet

/-! ## Outline -/

/-- An entry of the outline of a stylesheet: a node by its label, the label of its owner, and for a
declaration the properties beside it. -/
inductive OutlineEntry where
  | declaration (property owner : String) (siblings : List String)
  | block (head : BlockHead) (owner : String)
  | atStatement (label owner : String)
deriving DecidableEq

/-- The label of an at-rule. -/
def atLabel (name : String) : String := "@" ++ name

/-- The label of what heads a block. -/
def BlockHead.label : BlockHead → String
  | .selector text => text
  | .atRule name _ => atLabel name

/-- The label of an owner. -/
def Owner.label : Owner → String
  | .unknown => ""
  | .stylesheet => "root"
  | .block head _ => head.label

/-- The entry of a node that a walk has met. -/
def Visit.outline (v : Visit) : OutlineEntry :=
  match v.node with
  | .declaration d => .declaration d.property v.owner.label (v.siblings.map (·.property))
  | .atStatement name _ _ => .atStatement (atLabel name) v.owner.label
  | .block head _ _ => .block head v.owner.label

/-- The outline of a stylesheet. -/
def Stylesheet.outline (s : Stylesheet) : List OutlineEntry := s.walk.map (·.outline)

end Stacking
