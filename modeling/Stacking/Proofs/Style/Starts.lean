import Stacking.Proofs.Style.Splice

/-!
# Declarations are told apart by their starts

No two declarations of a parsed text start at one place (`Stylesheet.nodup_starts`), as a token
starts behind all tokens in front of it. Hence, seen from one of them, all others start elsewhere
(`Stylesheet.start?_ne_of_others`).
-/

namespace Stacking

open Token

/-! ## The declarations in a tree -/

/-- The place at which a declaration starts. -/
def Declaration.start? (d : Declaration) : Option SourcePosition := d.span.map (·.start)

namespace Node

mutual

/-- The declarations in and below a node. -/
def declarations : Node → List Declaration
  | .declaration d => [d]
  | .block _ _ body => declarationsIn body
  | .atStatement .. => []

/-- The declarations in and below a list of nodes. -/
def declarationsIn : List Node → List Declaration
  | [] => []
  | node :: rest => node.declarations ++ declarationsIn rest

end

@[simp] theorem declarationsIn_append (ns ms : List Node) :
    declarationsIn (ns ++ ms) = declarationsIn ns ++ declarationsIn ms := by
  induction ns with
  | nil => rfl
  | cons node rest ih => simp [declarationsIn, ih]

mutual

theorem map_occurrences (owner : Owner) (siblings : List Declaration) :
    ∀ node : Node, (node.occurrences owner siblings).map (·.declaration) = node.declarations
  | .declaration _ => rfl
  | .atStatement .. => rfl
  | .block head span body => map_occurrencesIn (.block head span) (ownDeclarations body) body

/-- The occurrences in a tree are those of its declarations. -/
theorem map_occurrencesIn (owner : Owner) (siblings : List Declaration) :
    ∀ nodes : List Node,
      (occurrencesIn owner siblings nodes).map (·.declaration) = declarationsIn nodes
  | [] => rfl
  | node :: rest => by
    rw [occurrencesIn, declarationsIn, List.map_append, map_occurrences owner siblings node,
      map_occurrencesIn owner siblings rest]

end

mutual

theorem declarations_mapSpans (f : Option Span → Option Span) :
    ∀ node : Node, (node.mapSpans f).declarations = node.declarations.map (·.mapSpan f)
  | .declaration _ => rfl
  | .atStatement .. => rfl
  | .block _ _ body => declarationsIn_mapSpansIn f body

theorem declarationsIn_mapSpansIn (f : Option Span → Option Span) :
    ∀ nodes : List Node, declarationsIn (mapSpansIn f nodes) =
      (declarationsIn nodes).map (·.mapSpan f)
  | [] => rfl
  | node :: rest => by
    rw [mapSpansIn, declarationsIn, declarationsIn, List.map_append, declarations_mapSpans f node,
      declarationsIn_mapSpansIn f rest]

end

end Node

theorem Stylesheet.map_occurrences (s : Stylesheet) :
    s.occurrences.map (·.declaration) = Node.declarationsIn s.nodes :=
  Node.map_occurrencesIn .stylesheet (Node.ownDeclarations s.nodes) s.nodes

namespace Site

open Node

/-- The declarations of a tree but for those at the site. -/
def others : Site → List Declaration
  | .here before after => declarationsIn before ++ declarationsIn after
  | .within before _ _ inner after =>
    declarationsIn before ++ (inner.others ++ declarationsIn after)

/-- The declarations of a tree are those at the site and the others. -/
theorem declarationsIn_plug (nodes : List Node) (site : Site) :
    (declarationsIn (site.plug nodes)).Perm (declarationsIn nodes ++ site.others) := by
  induction site with
  | here before after =>
    rw [plug, others, declarationsIn_append, declarationsIn_append]
    exact List.perm_append_comm_assoc _ _ _
  | within before head span inner after ih =>
    rw [plug, others, declarationsIn_append, declarationsIn, declarations]
    refine ((ih.append_right _).append_left _).trans ?_
    rw [List.append_assoc]
    exact List.perm_append_comm_assoc _ _ _

theorem others_mapSpans (f : Option Span → Option Span) (site : Site) :
    (site.mapSpans f).others = site.others.map (·.mapSpan f) := by
  induction site with
  | here before after => simp [mapSpans, others, declarationsIn_mapSpansIn]
  | within before head span inner after ih =>
    simp [mapSpans, others, declarationsIn_mapSpansIn, ih]

end Site

/-! ## The starts in a parsed text -/

/-- A statement without a block is a declaration that starts with its first token, or none. -/
theorem Opening.declarations_finish {o : Opening} {n : Node} (ho : o.Reaches 0)
    (h : o.finish.toNode = .ok n) :
    ∃ cs : List Token, cs.Sublist o.tokens ∧
      n.declarations.map (·.start?) = cs.map fun t => some t.start := by
  obtain ⟨keyword, prelude⟩ := o
  cases keyword with
  | none =>
    have h : (Statement.declaration prelude).toNode = .ok n := h
    rw [Statement.toNode] at h
    split at h
    · cases h
    · rename_i d hd
      obtain rfl := Except.ok.inj h
      obtain ⟨t, ts, rfl⟩ := List.exists_cons_of_ne_nil (ho.prelude rfl)
      refine ⟨[t], (List.nil_sublist ts).cons_cons t, ?_⟩
      simp [Node.declarations, Declaration.start?, Declaration.ofPrelude_span hd, Prelude.start]
  | some k =>
    obtain rfl := Except.ok.inj h
    exact ⟨[], List.nil_sublist _, rfl⟩

/-- The declarations of a tree start with tokens that spell it. -/
theorem Spelled.declarations_start {inner : Bool} {sts : List Statement} {ts : List Token}
    {nodes : List Node} (h : Spelled inner sts ts) (hn : Statement.toNodes sts = .ok nodes) :
    ∃ cs : List Token, cs.Sublist ts ∧
      (Node.declarationsIn nodes).map (·.start?) = cs.map fun t => some t.start := by
  induction h generalizing nodes with
  | nil =>
    obtain rfl := Except.ok.inj hn
    exact ⟨[], .slnil, rfl⟩
  | empty _ _ ih =>
    obtain ⟨cs, hsub, hstarts⟩ := ih hn
    exact ⟨cs, hsub.cons _, hstarts⟩
  | @ended inner o semicolon sts ts ho hs _ ih =>
    obtain ⟨n, ns, hst, hsts, rfl⟩ := Statement.toNodes_cons.mp hn
    obtain ⟨cs, hsub, hstarts⟩ := Opening.declarations_finish ho hst
    obtain ⟨ds, hsub', hstarts'⟩ := ih hsts
    refine ⟨cs ++ ds, hsub.append (hsub'.cons semicolon), ?_⟩
    rw [Node.declarationsIn, List.map_append, List.map_append, hstarts, hstarts']
  | @last o ho =>
    obtain ⟨n, ns, hst, hsts, rfl⟩ := Statement.toNodes_cons.mp hn
    obtain rfl := Except.ok.inj hsts
    rw [Node.declarationsIn, Node.declarationsIn, List.append_nil]
    exact Opening.declarations_finish ho hst
  | @block inner o brace close body sts us ts ho hb _ hc _ ihbody ih =>
    obtain ⟨n, ns, hst, hsts, rfl⟩ := Statement.toNodes_cons.mp hn
    have hst : (Statement.block o.keyword o.prelude body close).toNode = .ok n := hst
    rw [Statement.toNode] at hst
    split at hst
    · cases hst
    · rename_i bnodes hbody
      obtain rfl := Except.ok.inj hst
      obtain ⟨cs, hsub, hstarts⟩ := ihbody hbody
      obtain ⟨ds, hsub', hstarts'⟩ := ih hsts
      refine ⟨cs ++ ds, ?_, ?_⟩
      · exact ((hsub.append (hsub'.cons close)).cons brace).trans (List.sublist_append_right _ _)
      · rw [Node.declarationsIn, Node.declarations, List.map_append, List.map_append, hstarts,
          hstarts']

/-- Tokens start one behind the other. -/
theorem Token.Placed.pairwise_start {place : SourcePosition} {ts : List Token} {rest : Text}
    (h : Placed place ts) (hlex : Lexes ts rest) :
    (∀ t ∈ ts, ∃ w, t.start = place.advance w) ∧ ts.Pairwise fun t u => t.start < u.start := by
  induction ts generalizing place with
  | nil => exact ⟨nofun, .nil⟩
  | cons t ts ih =>
    obtain ⟨hstart, hplaced⟩ := h
    obtain ⟨hall, hpairs⟩ := ih hplaced hlex.2.2
    obtain ⟨c, x, hx, _⟩ := hlex.text_ne_nil
    refine ⟨List.forall_mem_cons.mpr ⟨⟨t.lead, hstart⟩, fun u hu => ?_⟩,
      List.pairwise_cons.mpr ⟨fun u hu => ?_, hpairs⟩⟩
    · obtain ⟨w, hw⟩ := hall u hu
      refine ⟨t.lead ++ (t.text ++ w), ?_⟩
      rw [hw, hstart, SourcePosition.advance_append, SourcePosition.advance_append]
    · obtain ⟨w, hw⟩ := hall u hu
      rw [hw, ← SourcePosition.advance_append]
      exact SourcePosition.lt_advance _ (by simp [hx])

/-- The declarations of a parsed text start at places of which no two are the same. -/
theorem Stylesheet.nodup_starts {t : Text} {s : Stylesheet} (h : parse t = .ok s) :
    ((Node.declarationsIn s.nodes).map (·.start?)).Nodup ∧
      ∀ d ∈ Node.declarationsIn s.nodes, ∃ p, d.start? = some p := by
  obtain ⟨ts, sts, hscan, hspelled, hnodes⟩ := parse_eq_ok_iff.mp h
  obtain ⟨cs, hsub, hstarts⟩ := hspelled.declarations_start hnodes
  rw [← List.append_nil ts] at hscan
  obtain ⟨rest, _, hlex, hplaced, _⟩ := Scan.go_eq_append hscan
  have hpairs := (hplaced.pairwise_start hlex).2.sublist hsub
  constructor
  · rw [hstarts, List.Nodup, List.pairwise_map]
    refine hpairs.imp fun {t u} hlt heq => ?_
    rw [Option.some.inj heq, SourcePosition.lt_iff] at hlt
    omega
  · intro d hd
    have hmem := List.mem_map_of_mem (f := Declaration.start?) hd
    rw [hstarts] at hmem
    obtain ⟨k, _, hk⟩ := List.mem_map.mp hmem
    exact ⟨k.start, hk.symm⟩

/-- The others do not start where a given declaration of a parsed text does. -/
theorem Stylesheet.start?_ne_of_others {t : Text} {s : Stylesheet} {site : Site}
    {d : Declaration} (h : parse t = .ok s) (hsite : s.nodes = site.plug [.declaration d]) :
    ∀ e ∈ site.others, e.start? ≠ d.start? := by
  have hperm := (site.declarationsIn_plug [.declaration d]).map (·.start?)
  have hnodup := (nodup_starts h).1
  rw [hsite, hperm.nodup_iff] at hnodup
  have hnot : d.start? ∉ site.others.map (·.start?) := (List.nodup_cons.mp hnodup).1
  intro e he heq
  exact hnot (heq ▸ List.mem_map_of_mem he)

end Stacking
