import Stacking.Proofs.Style.Spans
import Stacking.Proofs.Style.Starts

/-!
# Ranges nest

A node reaches from its first token to its last one, and of two tokens the first ends before the
second starts. So nodes that follow each other lie apart, with the semicolon between them where the
first has no block, and what stands in a block lies between the head of the block and the brace that
closes it. This file says so for all nodes of a text.

* `Node.Before` and `Node.Inside` compare the ranges of two nodes.
* `Node.Ordered` says of a block that what it holds lies inside it, one node before the other.
* `Stylesheet.ordered` says that all blocks of a parsed text are ordered, and that of two nodes of
  the walk the first lies before the second or is a block around it.
-/

namespace Stacking

open Token

/-! ## The order of tokens -/

/-- The range that a token covers, without the blanks at its end. -/
def Token.range (t : Token) : Range := .ofSpan ⟨t.start, t.stop⟩

/-- No token is empty, and each ends before those behind it start. -/
structure Token.InOrder (ts : List Token) : Prop where
  lt : ∀ t ∈ ts, t.range.start < t.range.stop
  le : ts.Pairwise fun t u => t.range.stop ≤ u.range.start

theorem Token.Placed.inOrder {place : SourcePosition} {ts : List Token} {rest : Text}
    (h : Placed place ts) (hlex : Lexes ts rest) : InOrder ts := by
  induction ts generalizing place with
  | nil => exact ⟨nofun, .nil⟩
  | cons t ts ih =>
    obtain ⟨_, hplaced⟩ := h
    obtain ⟨hlt, hle⟩ := ih hplaced hlex.2.2
    obtain ⟨c, x, hx, hb⟩ := hlex.text_ne_nil
    obtain ⟨htext, _⟩ := t.content_append
    have hcontent : t.content ≠ [] := Text.trimEnd_ne_nil (c := c) (by simp [hx]) hb
    refine ⟨List.forall_mem_cons.mpr ⟨Position.ofSource_lt_advance t.start hcontent, hlt⟩,
      List.pairwise_cons.mpr ⟨fun u hu => ?_, hle⟩⟩
    obtain ⟨w, hw⟩ := (hplaced.pairwise_start hlex.2.2).1 u hu
    have hbehind : u.start = t.stop.advance (t.trailing ++ w) := by
      rw [hw, htext, Token.stop]
      simp only [SourcePosition.advance_append]
    show Position.ofSource t.stop ≤ Position.ofSource u.start
    rw [hbehind]
    exact Position.ofSource_le_advance t.stop _

/-- Tokens in order are so on both sides of any place, and those in front end before those behind
start. -/
theorem Token.InOrder.append {ts us : List Token} (h : InOrder (ts ++ us)) :
    InOrder ts ∧ InOrder us ∧ ∀ t ∈ ts, ∀ u ∈ us, t.range.stop ≤ u.range.start := by
  obtain ⟨hts, hus, hboth⟩ := List.pairwise_append.mp h.le
  exact ⟨⟨fun t ht => h.lt t (List.mem_append_left us ht), hts⟩,
    ⟨fun u hu => h.lt u (List.mem_append_right ts hu), hus⟩, hboth⟩

theorem Token.InOrder.tail {t : Token} {ts : List Token} (h : InOrder (t :: ts)) : InOrder ts :=
  ⟨fun u hu => h.lt u (List.mem_cons_of_mem t hu), (List.pairwise_cons.mp h.le).2⟩

theorem Token.InOrder.mono {ts us : List Token} (h : InOrder us) (hts : ts <:+: us) :
    InOrder ts :=
  ⟨fun t ht => h.lt t (hts.subset ht), h.le.sublist hts.sublist⟩

/-- The first token starts before the last one ends. -/
theorem Token.InOrder.head_lt_getLast {ts : List Token} (h : InOrder ts) (hne : ts ≠ []) :
    (ts.head hne).range.start < (ts.getLast hne).range.stop := by
  cases ts with
  | nil => exact absurd rfl hne
  | cons t us =>
    have hfirst := h.lt t List.mem_cons_self
    cases us with
    | nil => exact hfirst
    | cons u us =>
      have hmem : (u :: us).getLast (by simp) ∈ u :: us := List.getLast_mem _
      have hlast := h.lt _ (List.mem_cons_of_mem t hmem)
      have hle := (List.pairwise_cons.mp h.le).1 _ hmem
      rw [List.head_cons, List.getLast_cons (by simp)]
      simp only [Position.lt_iff, Position.le_iff] at hfirst hlast hle ⊢
      omega

/-- With a token between them, the ones in front end well before those behind start. -/
theorem Token.InOrder.across {ts us : List Token} {t : Token} (h : InOrder (ts ++ t :: us)) :
    (∀ a ∈ ts, a.range.stop < t.range.stop) ∧ (∀ b ∈ us, t.range.stop ≤ b.range.start) ∧
      ∀ a ∈ ts, ∀ b ∈ us, a.range.stop < b.range.start := by
  obtain ⟨_, hus, hboth⟩ := h.append
  have ht := hus.lt t List.mem_cons_self
  have hbehind := (List.pairwise_cons.mp hus.le).1
  refine ⟨fun a ha => ?_, hbehind, fun a ha b hb => ?_⟩
  · have hat := hboth a ha t List.mem_cons_self
    simp only [Position.lt_iff, Position.le_iff] at hat ht ⊢
    omega
  · have hat := hboth a ha t List.mem_cons_self
    have htb := hbehind b hb
    simp only [Position.lt_iff, Position.le_iff] at hat ht htb ⊢
    omega

/-! ## The order of nodes -/

namespace Node

/-- Whether a node has a block. -/
def isBlock : Node → Bool
  | .block .. => true
  | _ => false

/-- The first node lies strictly inside the second. -/
def Inside (n outer : Node) : Prop :=
  ∃ r q, n.range? = some r ∧ outer.range? = some q ∧ q.start < r.start ∧ r.stop < q.stop

/-- The first node ends where the second starts or in front of that, and in front of it if the first
node has no block. -/
def Before (n m : Node) : Prop :=
  ∃ r q, n.range? = some r ∧ m.range? = some q ∧ r.stop ≤ q.start ∧
    (n.isBlock = false → r.stop < q.start)

/-- What a block holds lies inside it, one node before the other. -/
def Ordered : Node → Prop
  | .block head span body =>
    body.Pairwise Before ∧ ∀ n ∈ body, n.Inside (.block head span body)
  | _ => True

/-- The node reaches from a token of `ts` to one behind it, or to the end of the same one. -/
def Among (ts : List Token) (n : Node) : Prop :=
  ∃ first ∈ ts, ∃ last ∈ ts, n.range? = some ⟨first.range.start, last.range.stop⟩ ∧
    first.range.start < last.range.stop

theorem Among.mono {ts us : List Token} {n : Node} (h : n.Among ts) (hsub : ts ⊆ us) :
    n.Among us := by
  obtain ⟨first, hfirst, last, hlast, hrange⟩ := h
  exact ⟨first, hsub hfirst, last, hsub hlast, hrange⟩

/-- A node reaches over the tokens that it is written with. -/
theorem WrittenWith.among {n : Node} {q : List Token} (h : n.WrittenWith q) (hq : InOrder q)
    (hne : q ≠ []) : n.Among q := by
  refine ⟨q.head hne, List.head_mem hne, q.getLast hne, List.getLast_mem hne, ?_,
    hq.head_lt_getLast hne⟩
  rw [range?, h.span?_eq, Prelude.start, Prelude.stop, List.head?_eq_some_head hne,
    List.getLast?_eq_some_getLast hne]
  rfl

theorem Among.before {ts us : List Token} {n m : Node} (hn : n.Among ts) (hm : m.Among us)
    (h : ∀ t ∈ ts, ∀ u ∈ us, t.range.stop < u.range.start) : n.Before m := by
  obtain ⟨_, _, last, hlast, hrange, _⟩ := hn
  obtain ⟨first, hfirst, _, _, hrange', _⟩ := hm
  have hlt := h last hlast first hfirst
  refine ⟨_, _, hrange, hrange', ?_, fun _ => hlt⟩
  simp only [Position.lt_iff] at hlt
  simp only [Position.le_iff]
  omega

end Node

/-- The nodes of a tree, of which each lies before the next ones or is a block around them. -/
def Visit.Ordered (vs : List Visit) : Prop :=
  vs.Pairwise fun v w =>
    v.node.Before w.node ∨ (v.node.isBlock = true ∧ w.node.Inside v.node)

/-! ## The order in a parsed text -/

theorem Opening.among_finish {o : Opening} {n : Node} (ho : o.Reaches 0)
    (h : o.finish.toNode = .ok n) (hts : InOrder o.tokens) :
    n.Among o.tokens ∧ n.Ordered ∧
      ∀ owner siblings, n.visits owner siblings = [⟨owner, siblings, n⟩] := by
  obtain ⟨hwritten, hvisits⟩ := Opening.writtenWith_finish ho h
  refine ⟨hwritten.among hts ho.tokens_ne_nil, ?_, hvisits⟩
  cases n with
  | declaration d => trivial
  | atStatement name params span => trivial
  | block head span body =>
    -- a node with a block is visited together with what it holds
    obtain ⟨keyword, prelude⟩ := o
    cases keyword with
    | none =>
      have h : (Statement.declaration prelude).toNode = .ok (.block head span body) := h
      rw [Statement.toNode] at h
      split at h <;> cases h
    | some k => cases h

/-- Every node that a walk meets reaches over some of the tokens that spell the tree. -/
theorem Spelled.among {inner : Bool} {sts : List Statement} {ts : List Token}
    {nodes : List Node} (h : Spelled inner sts ts) (hn : Statement.toNodes sts = .ok nodes)
    (hts : InOrder ts) {owner : Owner} {siblings : List Declaration} :
    ∀ v ∈ Node.visitsIn owner siblings nodes, v.node.Among ts := by
  intro v hv
  obtain ⟨q, hq, hne, hwritten⟩ := h.writtenWith hn v hv
  exact (hwritten.among (hts.mono hq) hne).mono hq.subset

/-- A walk over nodes meets each of them. -/
theorem Node.mem_visitsIn {owner : Owner} {siblings : List Declaration} {nodes : List Node}
    {n : Node} (h : n ∈ nodes) : ⟨owner, siblings, n⟩ ∈ visitsIn owner siblings nodes := by
  rw [← Visit.walk_nodes]
  exact Visit.mem_walk_of_mem (List.mem_map.mpr ⟨n, h, rfl⟩)

/-- A block reaches from the first token of its head to the brace that closes it. -/
theorem Opening.range?_finishBlock {o : Opening} {body : List Statement} {close : Token} {n : Node}
    (ho : o.Reaches 0) (h : (o.finishBlock body close).toNode = .ok n) :
    ∃ first ∈ o.tokens, ∃ head span nodes, n = .block head span nodes ∧
      Statement.toNodes body = .ok nodes ∧
      n.range? = some ⟨first.range.start, close.range.stop⟩ := by
  have h : (Statement.block o.keyword o.prelude body close).toNode = .ok n := h
  rw [Statement.toNode] at h
  split at h
  · cases h
  · rename_i nodes hnodes
    obtain rfl := Except.ok.inj h
    obtain ⟨first, rest, htokens⟩ := List.exists_cons_of_ne_nil ho.tokens_ne_nil
    have hstart : Prelude.start o.tokens = first.start := by
      rw [htokens]
      rfl
    refine ⟨first, by simp [htokens], _, _, _, rfl, hnodes, ?_⟩
    show some (Range.ofSpan ⟨Prelude.start o.tokens, close.stop⟩) = _
    rw [hstart]
    rfl

/-- The nodes of a tree are in order where the tokens are that spell it. -/
theorem Spelled.ordered {inner : Bool} {sts : List Statement} {ts : List Token}
    {nodes : List Node} (h : Spelled inner sts ts) (hn : Statement.toNodes sts = .ok nodes)
    (hts : InOrder ts) (owner : Owner) (siblings : List Declaration) :
    nodes.Pairwise Node.Before ∧
      (∀ v ∈ Node.visitsIn owner siblings nodes, v.node.Ordered) ∧
      Visit.Ordered (Node.visitsIn owner siblings nodes) := by
  induction h generalizing nodes owner siblings with
  | nil =>
    obtain rfl := Except.ok.inj hn
    exact ⟨.nil, nofun, .nil⟩
  | @empty inner semicolon sts ts hs hsts ih => exact ih hn hts.tail owner siblings
  | @ended inner o semicolon sts ts ho hs hspelled ih =>
    obtain ⟨n, ns, hst, hsts, rfl⟩ := Statement.toNodes_cons.mp hn
    obtain ⟨hamong, hordered, hvisits⟩ := Opening.among_finish ho hst hts.append.1
    have htail := hts.append.2.1.tail
    obtain ⟨_, _, hacross⟩ := hts.across
    obtain ⟨hbefore, hblocks, hall⟩ := ih hsts htail owner siblings
    -- the semicolon stands between the node and all that follows
    have hrest : ∀ v ∈ Node.visitsIn owner siblings ns, n.Before v.node := fun v hv =>
      hamong.before (hspelled.among hsts htail v hv) hacross
    refine ⟨List.pairwise_cons.mpr ⟨fun m hm => hrest _ (Node.mem_visitsIn hm), hbefore⟩, ?_⟩
    rw [Node.visitsIn, hvisits]
    exact ⟨List.forall_mem_cons.mpr ⟨hordered, hblocks⟩,
      List.pairwise_cons.mpr ⟨fun v hv => Or.inl (hrest v hv), hall⟩⟩
  | @last o ho =>
    obtain ⟨n, ns, hst, hsts, rfl⟩ := Statement.toNodes_cons.mp hn
    obtain rfl := Except.ok.inj hsts
    obtain ⟨_, hordered, hvisits⟩ := Opening.among_finish ho hst hts
    refine ⟨List.pairwise_singleton _ _, ?_⟩
    rw [Node.visitsIn, hvisits]
    exact ⟨List.forall_mem_singleton.mpr hordered, List.pairwise_singleton _ _⟩
  | @block inner o brace close body sts us ts ho hb hbody hc hspelled ihbody ih =>
    obtain ⟨n, ns, hst, hsts, rfl⟩ := Statement.toNodes_cons.mp hn
    obtain ⟨first, hfirst, head, span, bnodes, rfl, hbnodes, hrange⟩ :=
      Opening.range?_finishBlock ho hst
    have hinner := hts.append.2.1.tail
    have htail := hinner.append.2.1.tail
    obtain ⟨hbefore, hblocks, hall⟩ := ih hsts htail owner siblings
    obtain ⟨hbefore', hblocks', hall'⟩ := ihbody hbnodes hinner.append.1
      (.block head span) (Node.ownDeclarations bnodes)
    obtain ⟨_, _, hhead⟩ := hts.across
    obtain ⟨hbrace, hclose, hacross⟩ := hinner.across
    -- what is in the block stands between its head and its brace
    have hinside : ∀ v ∈ Node.visitsIn (.block head span) (Node.ownDeclarations bnodes) bnodes,
        v.node.Inside (.block head span bnodes) := by
      intro v hv
      obtain ⟨t, ht, u, hu, hv, _⟩ := hbody.among hbnodes hinner.append.1 v hv
      refine ⟨_, _, hv, hrange, ?_, hbrace u hu⟩
      have hlt := hts.lt first (List.mem_append_left _ hfirst)
      have hlt' := hhead first hfirst t (List.mem_append_left _ ht)
      simp only [Position.lt_iff] at hlt hlt' ⊢
      omega
    have hrest : ∀ v ∈ Node.visitsIn owner siblings ns,
        (Node.block head span bnodes).Before v.node := by
      intro v hv
      obtain ⟨t, ht, u, hu, hv, _⟩ := hspelled.among hsts htail v hv
      exact ⟨_, _, hrange, hv, hclose t ht, nofun⟩
    have hapart : ∀ v ∈ Node.visitsIn (.block head span) (Node.ownDeclarations bnodes) bnodes,
        ∀ w ∈ Node.visitsIn owner siblings ns, v.node.Before w.node := fun v hv w hw =>
      (hbody.among hbnodes hinner.append.1 v hv).before (hspelled.among hsts htail w hw) hacross
    refine ⟨List.pairwise_cons.mpr ⟨fun m hm => hrest _ (Node.mem_visitsIn hm), hbefore⟩, ?_, ?_⟩
    · rw [Node.visitsIn, Node.visits, List.cons_append]
      refine List.forall_mem_cons.mpr ⟨⟨hbefore', fun m hm => hinside _ (Node.mem_visitsIn hm)⟩,
        List.forall_mem_append.mpr ⟨hblocks', hblocks⟩⟩
    · rw [Node.visitsIn, Node.visits, List.cons_append]
      refine List.pairwise_cons.mpr ⟨fun v hv => ?_, List.pairwise_append.mpr
        ⟨hall', hall, fun v hv w hw => Or.inl (hapart v hv w hw)⟩⟩
      rcases List.mem_append.mp hv with hv | hv
      · exact Or.inr ⟨rfl, hinside v hv⟩
      · exact Or.inl (hrest v hv)

/-- The nodes of a parsed text are in order, and so is what each of its blocks holds; no node is
empty. -/
theorem Stylesheet.ordered {t : Text} {s : Stylesheet} (h : parse t = .ok s) :
    s.nodes.Pairwise Node.Before ∧ (∀ v ∈ s.walk, v.node.Ordered) ∧ Visit.Ordered s.walk ∧
      ∀ v ∈ s.walk, ∃ r, v.node.range? = some r ∧ r.start < r.stop := by
  obtain ⟨ts, sts, hscan, hspelled, hnodes⟩ := parse_eq_ok_iff.mp h
  rw [← List.append_nil ts] at hscan
  obtain ⟨rest, _, hlex, hplaced, _⟩ := Scan.go_eq_append hscan
  have hts := hplaced.inOrder hlex
  rw [walk_eq_visitsIn]
  obtain ⟨hbefore, hblocks, hall⟩ := hspelled.ordered hnodes hts .stylesheet
    (Node.ownDeclarations s.nodes)
  refine ⟨hbefore, hblocks, hall, fun v hv => ?_⟩
  obtain ⟨_, _, _, _, hrange, hlt⟩ := hspelled.among hnodes hts v hv
  exact ⟨_, hrange, hlt⟩

end Stacking
