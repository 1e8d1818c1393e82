import Stacking.Proofs.Style.Reading
import Stacking.Proofs.Style.Walk

/-!
# Spans point at the text

The span of a node is told by two tokens: it starts with the first one and ends behind the last
character of the last one that is not blank. So the text between its ends is that of the node's
tokens and of the gaps between them (`Scan.exists_stretch`), and both ends are places of the text
that no carriage return hides (`Range.exact_of_append`). What the node holds can be read off there
(`Stylesheet.span_shows_node`).
-/

namespace Stacking

open Token

/-! ## Keywords -/

/-- Classes of characters are disjoint where their intervals are. -/
theorem inIntervals_eq_false {is js : List (Nat × Nat)} {c : Char}
    (h : ∀ i ∈ is, ∀ j ∈ js, i.2 < j.1 ∨ j.2 < i.1) (hc : inIntervals is c = true) :
    inIntervals js c = false := by
  obtain ⟨i, hi, hin⟩ := List.any_eq_true.mp hc
  refine List.any_eq_false.mpr fun j hj hjn => ?_
  have hdisjoint := h i hi j hj
  simp only [Bool.and_eq_true, decide_eq_true_eq] at hin hjn
  omega

/-- The characters of a word that need no table. -/
def asciiWordIntervals : List (Nat × Nat) := [(48, 57), (65, 90), (95, 95), (97, 122)]

theorem inIntervals_of_isAlphanum {c : Char} (h : c.isAlphanum = true) :
    inIntervals asciiWordIntervals c = true := by
  change ((decide (65 ≤ c.val ∧ c.val ≤ 90) || (decide (97 ≤ c.val) && decide (c.val ≤ 122))) ||
    (decide (48 ≤ c.val) && decide (c.val ≤ 57))) = true at h
  simp only [Bool.or_eq_true, Bool.and_eq_true, decide_eq_true_eq, UInt32.le_iff_toNat_le] at h
  change ((65 ≤ c.toNat ∧ c.toNat ≤ 90) ∨ (97 ≤ c.toNat ∧ c.toNat ≤ 122)) ∨
    (48 ≤ c.toNat ∧ c.toNat ≤ 57) at h
  simp only [inIntervals, asciiWordIntervals, List.any_cons, List.any_nil, Bool.or_false,
    Bool.or_eq_true, Bool.and_eq_true, decide_eq_true_eq]
  omega

/-- A word has no blanks. -/
theorem isBlank_of_isWord {c : Char} (h : isWord c = true) : isBlank c = false := by
  simp only [isWord, Bool.or_eq_true, Bool.and_eq_true, beq_iff_eq] at h
  rcases h with (h | rfl) | ⟨_, h⟩
  · exact inIntervals_eq_false (by decide) (inIntervals_of_isAlphanum h)
  · decide
  · exact inIntervals_eq_false (by decide +kernel) h

theorem isBlank_of_isKeywordStart {c : Char} (h : Lexeme.isKeywordStart c = true) :
    isBlank c = false := by
  simp only [Lexeme.isKeywordStart, Bool.or_eq_true, beq_iff_eq] at h
  rcases h with (h | rfl) | rfl
  · exact isBlank_of_isWord (by simp [isWord, Char.isAlphanum, h])
  · decide
  · decide

/-- An at-keyword is an at-sign and its name, without blanks. -/
theorem Token.Lexes.atKeyword {k : Token} {ts : List Token} {rest : Text}
    (h : Lexes (k :: ts) rest) (hk : k.kind = .atKeyword) :
    k.text = '@' :: (Statement.atName k).toList ∧ k.content = k.text := by
  obtain ⟨c, x, hx, _⟩ := h.text_ne_nil
  have htok := h.2.1
  rw [hx, List.cons_append, hk, Lexeme.token?_eq_some_iff] at htok
  rcases htok with ⟨hdelimiter, _⟩ | ⟨_, rfl, hkeyword⟩ | ⟨hchunk, _⟩
  · simp [TokenKind.ofDelimiter?_eq_some] at hdelimiter
  · obtain ⟨d, v, hv, hd, hlen⟩ := Lexeme.atKeyword?_eq_some hkeyword
    -- what follows the at-sign is cut from `v`
    have hx' : x = d :: v.takeWhile fun e => isWord e || e == '-' := by
      have htake := congrArg (List.take x.length) (List.cons.inj hv).2
      rw [List.take_left] at htake
      rw [htake]
      have hlen' : x.length = (v.takeWhile fun e => isWord e || e == '-').length + 1 := by
        simpa using hlen
      rw [hlen', List.take_succ_cons, List.cons.injEq]
      exact ⟨rfl, (List.prefix_iff_eq_take.mp (List.takeWhile_prefix _)).symm⟩
    have hname : k.text = '@' :: (Statement.atName k).toList := by
      simp [Statement.atName, hx]
    refine ⟨hname, ?_⟩
    have hink : ∀ e ∈ k.text, isBlank e = false := by
      rw [hx, hx']
      refine List.forall_mem_cons.mpr ⟨by decide, List.forall_mem_cons.mpr
        ⟨isBlank_of_isKeywordStart hd, fun e he => ?_⟩⟩
      have he : isWord e = true ∨ e = '-' := by
        simpa using List.all_eq_true.mp List.all_takeWhile e he
      rcases he with he | rfl
      · exact isBlank_of_isWord he
      · decide
    obtain ⟨htext, hblank⟩ := k.content_append
    have htrailing : k.trailing = [] := by
      refine List.eq_nil_iff_forall_not_mem.mpr fun e he => ?_
      have hmem : e ∈ k.text := by
        rw [htext]
        exact List.mem_append_right _ he
      exact absurd (hink e hmem) (by simp [hblank e he])
    rw [htext, htrailing, List.append_nil]
  · cases hchunk

/-! ## The stretch of a range -/

/-- The stretch of a text between the ends of a range. -/
def Text.stretch (t : Text) (r : Range) : Text :=
  (t.take (t.offsetAt r.stop)).drop (t.offsetAt r.start)

/-- The range is that of a stretch which is not empty, and starts and ends with a character that is
not blank: none of its ends had to be brought within the text. -/
structure Range.Exact (t : Text) (r : Range) : Prop where
  lt : t.offsetAt r.start < t.offsetAt r.stop
  le : t.offsetAt r.stop ≤ t.length
  start_eq : t.positionAt (t.offsetAt r.start) = r.start
  stop_eq : t.positionAt (t.offsetAt r.stop) = r.stop
  first : ∃ c ∈ t[t.offsetAt r.start]?, isBlank c = false
  last : ∃ c ∈ t[t.offsetAt r.stop - 1]?, isBlank c = false

/-- A stretch between characters that are not blank has an exact range. -/
theorem Range.exact_of_append {x y z : Text} (hfirst : ∃ c ∈ y.head?, isBlank c = false)
    (hlast : ∃ c ∈ y.getLast?, isBlank c = false) :
    Exact (x ++ (y ++ z)) ⟨Text.positionAfter x, Text.positionAfter (x ++ y)⟩ ∧
      Text.stretch (x ++ (y ++ z)) ⟨Text.positionAfter x, Text.positionAfter (x ++ y)⟩ = y := by
  obtain ⟨c, hc, hcb⟩ := hfirst
  obtain ⟨e, he, heb⟩ := hlast
  have hne : y ≠ [] := by
    rintro rfl
    exact nomatch hc
  have hpos : 0 < y.length := List.length_pos_iff.mpr hne
  have hstart : (x ++ (y ++ z)).offsetAt (Text.positionAfter x) = x.length :=
    Text.offsetAt_positionAfter hcb (Or.inl (by rw [List.head?_append, hc]; rfl))
  have hassoc : x ++ (y ++ z) = (x ++ y) ++ z := (List.append_assoc x y z).symm
  have hstop : (x ++ (y ++ z)).offsetAt (Text.positionAfter (x ++ y)) = (x ++ y).length := by
    rw [hassoc]
    exact Text.offsetAt_positionAfter heb (Or.inr (by rw [List.getLast?_append, he]; rfl))
  refine ⟨⟨?_, ?_, ?_, ?_, ⟨c, ?_, hcb⟩, ⟨e, ?_, heb⟩⟩, ?_⟩
  · rw [hstart, hstop, List.length_append]
    omega
  · rw [hstop]
    simp
  · obtain ⟨ls, l, m, ms, hcut⟩ := Text.exists_cut x (y ++ z)
    rw [hstart, hcut.positionAt]
  · obtain ⟨ls, l, m, ms, hcut⟩ := Text.exists_cut (x ++ y) z
    rw [hstop, hassoc, hcut.positionAt]
  · rw [hstart, List.getElem?_append_right (Nat.le_refl _), Nat.sub_self,
      List.getElem?_append_left hpos, ← List.head?_eq_getElem?]
    exact hc
  · have hsub : (x ++ y).length - 1 - x.length = y.length - 1 := by
      rw [List.length_append]
      omega
    rw [hstop, List.getElem?_append_right (by rw [List.length_append]; omega), hsub,
      List.getElem?_append_left (by omega), ← List.getLast?_eq_getElem?]
    exact he
  · rw [Text.stretch, hstart, hstop, hassoc, List.take_left, List.drop_left]

/-! ## The stretch of tokens -/

/-- Tokens that follow each other in a text cover a stretch of it, with the gaps between them. -/
theorem Scan.exists_stretch {t : Text} {ts : List Token} (h : ofText t = ⟨ts, .complete⟩)
    {q : List Token} (hq : q <:+: ts) (hne : q ≠ []) :
    (∃ rest, Lexes q rest) ∧
      Range.Exact t (.ofSpan ⟨Prelude.start q, Prelude.stop q⟩) ∧
      t.stretch (.ofSpan ⟨Prelude.start q, Prelude.stop q⟩) = Prelude.joined id q := by
  obtain ⟨pre, post, rfl⟩ := hq
  obtain ⟨head, tail, rfl⟩ := List.exists_cons_of_ne_nil hne
  obtain ⟨rest, rfl, hlex, hplaced, _⟩ := Scan.go_eq_append h
  obtain ⟨_, hlex⟩ := Lexes.append.mp hlex
  have hplaced := (Placed.append.mp hplaced).2
  obtain ⟨b, hbody, _, hlast, hstop⟩ := hplaced.joined_eq hlex
  obtain ⟨c, x, hx, hc⟩ := hlex.text_ne_nil
  refine ⟨⟨rest, hlex⟩, ?_⟩
  generalize Prelude.joined id (head :: tail) = body at hbody hlast hstop ⊢
  -- the stretch starts with the first token
  have hfirst : ∃ c ∈ body.head?, isBlank c = false := by
    cases body with
    | nil =>
      obtain ⟨_, hnil, _⟩ := hlast
      exact nomatch hnil
    | cons e body =>
      rw [hx] at hbody
      obtain ⟨rfl, _⟩ := List.cons.inj hbody
      exact ⟨c, rfl, hc⟩
  have hstart : head.start = SourcePosition.first.advance (source pre ++ head.lead) := by
    rw [SourcePosition.advance_append]
    exact hplaced.1
  have hrange : Range.ofSpan ⟨Prelude.start (head :: tail), Prelude.stop (head :: tail)⟩ =
      ⟨Text.positionAfter (source pre ++ head.lead),
        Text.positionAfter (source pre ++ head.lead ++ body)⟩ := by
    rw [hstop, hstart, ← SourcePosition.advance_append]
    simp [Range.ofSpan, Prelude.start, hstart, Text.positionAfter]
  have htext : source (pre ++ (head :: tail)) ++ rest =
      (source pre ++ head.lead) ++ (body ++ (b ++ rest)) := by
    rw [source_append, source_cons, hbody]
    simp
  rw [hrange, htext]
  exact Range.exact_of_append hfirst hlast

/-! ## Nodes and their tokens -/

/-- The tokens that a node is written with, from the first to the last of them. -/
def Node.WrittenWith (q : List Token) : Node → Prop
  | .declaration d => Declaration.ofPrelude q = .ok d
  | .atStatement name _ span =>
    span = some ⟨Prelude.start q, Prelude.stop q⟩ ∧
      ∃ k p, q = k :: p ∧ k.kind = .atKeyword ∧ name = Statement.atName k
  | .block head span _ =>
    span = some ⟨Prelude.start q, Prelude.stop q⟩ ∧
      ∃ (o : Opening) (us : List Token) (close : Token), q = o.tokens ++ (us ++ [close]) ∧
        o.Reaches 0 ∧ close.kind = .closeBrace ∧ head = Statement.blockHead o.keyword o.prelude

theorem Opening.writtenWith_finish {o : Opening} {n : Node} (ho : o.Reaches 0)
    (h : o.finish.toNode = .ok n) :
    n.WrittenWith o.tokens ∧
      ∀ owner siblings, n.visits owner siblings = [⟨owner, siblings, n⟩] := by
  obtain ⟨keyword, prelude⟩ := o
  cases keyword with
  | none =>
    have h : (Statement.declaration prelude).toNode = .ok n := h
    rw [Statement.toNode] at h
    split at h
    · cases h
    · rename_i d hd
      obtain rfl := Except.ok.inj h
      exact ⟨hd, fun _ _ => rfl⟩
  | some k =>
    obtain rfl := Except.ok.inj h
    exact ⟨⟨rfl, k, prelude, rfl, ho.keyword k rfl, rfl⟩, fun _ _ => rfl⟩

/-- Every node of a tree is written with some of the tokens that spell the tree. -/
theorem Spelled.writtenWith {inner : Bool} {sts : List Statement} {ts : List Token}
    {nodes : List Node} (h : Spelled inner sts ts) (hn : Statement.toNodes sts = .ok nodes)
    {owner : Owner} {siblings : List Declaration} :
    ∀ v ∈ Node.visitsIn owner siblings nodes, ∃ q, q <:+: ts ∧ q ≠ [] ∧ v.node.WrittenWith q := by
  induction h generalizing nodes owner siblings with
  | nil =>
    obtain rfl := Except.ok.inj hn
    exact nofun
  | empty _ _ ih =>
    intro v hv
    obtain ⟨q, hq, hwritten⟩ := ih hn v hv
    exact ⟨q, hq.trans (List.suffix_cons _ _).isInfix, hwritten⟩
  | @ended inner o semicolon sts ts ho hs _ ih =>
    obtain ⟨n, ns, hst, hsts, rfl⟩ := Statement.toNodes_cons.mp hn
    obtain ⟨hwritten, hvisits⟩ := Opening.writtenWith_finish ho hst
    rw [Node.visitsIn, hvisits]
    refine List.forall_mem_cons.mpr ⟨⟨o.tokens, (List.prefix_append _ _).isInfix,
      ho.tokens_ne_nil, hwritten⟩, fun v hv => ?_⟩
    obtain ⟨q, hq, hq'⟩ := ih hsts v hv
    exact ⟨q, hq.trans ⟨o.tokens ++ [semicolon], [], by simp⟩, hq'⟩
  | @last o ho =>
    obtain ⟨n, ns, hst, hsts, rfl⟩ := Statement.toNodes_cons.mp hn
    obtain rfl := Except.ok.inj hsts
    obtain ⟨hwritten, hvisits⟩ := Opening.writtenWith_finish ho hst
    rw [Node.visitsIn, hvisits]
    exact List.forall_mem_singleton.mpr ⟨o.tokens, List.infix_rfl, ho.tokens_ne_nil, hwritten⟩
  | @block inner o brace close body sts us ts ho hb _ hc _ ihbody ih =>
    obtain ⟨n, ns, hst, hsts, rfl⟩ := Statement.toNodes_cons.mp hn
    have hst : (Statement.block o.keyword o.prelude body close).toNode = .ok n := hst
    rw [Statement.toNode] at hst
    split at hst
    · cases hst
    · rename_i bnodes hbody
      obtain rfl := Except.ok.inj hst
      intro v hv
      rw [Node.visitsIn, Node.visits, List.cons_append, List.mem_cons, List.mem_append] at hv
      rcases hv with rfl | hv | hv
      · refine ⟨o.tokens ++ (brace :: us ++ [close]), ⟨[], ts, by simp⟩,
          by simp, ?_, o, brace :: us, close, rfl, ho, hc, rfl⟩
        have hstop : Prelude.stop (o.tokens ++ (brace :: us ++ [close])) = close.stop := by
          rw [← List.append_assoc, Prelude.stop, List.getLast?_concat]
          rfl
        have hstart : Prelude.start (o.tokens ++ (brace :: us ++ [close])) =
            Prelude.start o.tokens := by
          obtain ⟨t, tail, htokens⟩ := List.exists_cons_of_ne_nil ho.tokens_ne_nil
          rw [htokens]
          rfl
        rw [hstart, hstop]
        rfl
      · obtain ⟨q, hq, hq'⟩ := ihbody hbody v hv
        exact ⟨q, hq.trans ⟨o.tokens ++ [brace], close :: ts, by simp⟩, hq'⟩
      · obtain ⟨q, hq, hq'⟩ := ih hsts v hv
        exact ⟨q, hq.trans ⟨o.tokens ++ brace :: (us ++ [close]), [], by simp⟩, hq'⟩

/-! ## Nodes and their text -/

/-- The span of a node. -/
def Node.span? : Node → Option Span
  | .declaration d => d.span
  | .block _ span _ => span
  | .atStatement _ _ span => span

/-- The range of a node, where it has a span. -/
def Node.range? (n : Node) : Option Range := n.span?.map .ofSpan

/-- What a stretch of a text that is cut into `tokens` shows of a node. A rule ends with a brace, an
at-rule starts with its name, and a declaration is what the tokens in the stretch spell, with one
space for every gap with a comment. -/
def Node.ShownIn (tokens : List Token) (stretch : Text) : Node → Prop
  | .declaration d =>
    ∃ q, q <:+: tokens ∧ stretch = Prelude.joined id q ∧
      d.ReadFrom (Prelude.joined Prelude.condense q)
  | .atStatement name _ _ => '@' :: name.toList <+: stretch
  | .block (.selector _) _ _ => ['}'] <:+ stretch
  | .block (.atRule name _) _ _ => '@' :: name.toList <+: stretch ∧ ['}'] <:+ stretch

theorem Node.WrittenWith.span?_eq {n : Node} {q : List Token} (h : n.WrittenWith q) :
    n.span? = some ⟨Prelude.start q, Prelude.stop q⟩ := by
  cases n with
  | declaration d => exact Declaration.ofPrelude_span h
  | atStatement name params span => exact h.1
  | block head span body => exact h.1

namespace Prelude

theorem joinedAfter_suffix (f : Text → Text) (trailing : Text) (ts : List Token) (t : Token) :
    t.content <:+ joinedAfter f trailing (ts ++ [t]) := by
  induction ts generalizing trailing with
  | nil => exact ⟨f (trailing ++ t.lead), by simp [joinedAfter]⟩
  | cons u ts ih =>
    rw [List.cons_append, joinedAfter, ← List.append_assoc]
    exact (ih u.trailing).trans (List.suffix_append _ _)

/-- Joined tokens end with the last of them. -/
theorem joined_suffix (f : Text → Text) (ts : List Token) (t : Token) :
    t.content <:+ joined f (ts ++ [t]) := by
  cases ts with
  | nil => exact ⟨[], by simp [joined, joinedAfter]⟩
  | cons u ts =>
    rw [List.cons_append, joined]
    exact (joinedAfter_suffix f u.trailing ts t).trans (List.suffix_append _ _)

end Prelude

/-- Tokens that start with an at-keyword start with its name. -/
theorem Token.Lexes.name_prefix {k : Token} {ts : List Token} {rest : Text}
    (h : Lexes (k :: ts) rest) (hk : k.kind = .atKeyword) :
    '@' :: (Statement.atName k).toList <+: Prelude.joined id (k :: ts) := by
  obtain ⟨hname, hcontent⟩ := h.atKeyword hk
  rw [← hname, ← hcontent, Prelude.joined]
  exact List.prefix_append _ _

/-- Tokens that end with a closing brace end with its character. -/
theorem Token.Lexes.brace_suffix {close : Token} {ts : List Token} {rest : Text}
    (h : Lexes (ts ++ [close]) rest) (hclose : close.kind = .closeBrace) :
    ['}'] <:+ Prelude.joined id (ts ++ [close]) := by
  have hlex := (Lexes.append.mp h).2
  have hbrace : close.text = ['}'] := hlex.text_of_delimiter (by rw [hclose]; rfl)
  have hcontent : close.content = ['}'] := by
    rw [Token.content, hbrace]
    decide
  rw [← hcontent]
  exact Prelude.joined_suffix id ts close

/-- The tokens that a node is written with show it. -/
theorem Node.WrittenWith.shownIn {n : Node} {q tokens : List Token} {rest : Text}
    (h : n.WrittenWith q) (hlex : Lexes q rest) (hq : q <:+: tokens) :
    n.ShownIn tokens (Prelude.joined id q) := by
  cases n with
  | declaration d =>
    have hread := Declaration.readFrom_of_ofText? (Declaration.ofPrelude_eq_ok h)
    rw [Prelude.text_eq_joined hlex] at hread
    exact ⟨q, hq, rfl, hread⟩
  | atStatement name params span =>
    obtain ⟨_, k, p, rfl, hk, rfl⟩ := h
    exact hlex.name_prefix hk
  | block head span body =>
    obtain ⟨_, ⟨keyword, prelude⟩, us, close, rfl, ho, hclose, rfl⟩ := h
    have hbrace : ['}'] <:+
        Prelude.joined id (Opening.tokens ⟨keyword, prelude⟩ ++ (us ++ [close])) := by
      rw [← List.append_assoc] at hlex ⊢
      exact hlex.brace_suffix hclose
    cases keyword with
    | none => exact hbrace
    | some k => exact ⟨hlex.name_prefix (ho.keyword k rfl), hbrace⟩

/-- Every declaration is a node that the walk meets. -/
theorem Stylesheet.exists_visit {s : Stylesheet} {d : Declaration}
    (h : d ∈ s.declarations.map (·.declaration)) : ∃ v ∈ s.walk, v.node = .declaration d := by
  obtain ⟨o, ho, rfl⟩ := List.mem_map.mp h
  obtain ⟨v, hv, hoccurrence⟩ := List.mem_filterMap.mp ho
  refine ⟨v, hv, ?_⟩
  rw [Visit.occurrence?] at hoccurrence
  split at hoccurrence
  · rename_i d hd
    obtain rfl := Option.some.inj hoccurrence
    exact hd
  · cases hoccurrence

/-- Every node of a parsed text has an exact range. -/
theorem Stylesheet.exists_exact {t : Text} {s : Stylesheet} {v : Visit} (h : parse t = .ok s)
    (hv : v ∈ s.walk) : ∃ r, v.node.range? = some r ∧ r.Exact t := by
  obtain ⟨ts, sts, hscan, hspelled, hnodes⟩ := parse_eq_ok_iff.mp h
  rw [walk_eq_visitsIn] at hv
  obtain ⟨q, hq, hne, hwritten⟩ := hspelled.writtenWith hnodes v hv
  exact ⟨_, congrArg (Option.map _) hwritten.span?_eq, (Scan.exists_stretch hscan hq hne).2.1⟩

/-- Every node of a parsed text has a span, both ends of which are places of the text beside
characters that are not blank, and the text between them shows the node. -/
theorem Stylesheet.span_shows_node {t : Text} {s : Stylesheet} {v : Visit}
    (h : parse t = .ok s) (hv : v ∈ s.walk) :
    ∃ r, v.node.range? = some r ∧ r.Exact t ∧
      v.node.ShownIn (Scan.ofText t).tokens (t.stretch r) := by
  obtain ⟨ts, sts, hscan, hspelled, hnodes⟩ := parse_eq_ok_iff.mp h
  rw [walk_eq_visitsIn] at hv
  obtain ⟨q, hq, hne, hwritten⟩ := hspelled.writtenWith hnodes v hv
  obtain ⟨⟨rest, hlex⟩, hexact, hstretch⟩ := Scan.exists_stretch hscan hq hne
  refine ⟨_, ?_, hexact, ?_⟩
  · rw [Node.range?, hwritten.span?_eq]
    rfl
  · rw [hstretch, hscan]
    exact hwritten.shownIn hlex hq

theorem Stylesheet.span_shows_node_commented :
    ∃ t s v r, t = "@x y\x7ba\r\n\x7bb:c\t/*;*/ d! Important \x7d\x7d".toList ∧
      parse t = .ok s ∧ v ∈ s.walk ∧
      v.node = .declaration ⟨"b", "c d", true, some ⟨⟨2, 2⟩, ⟨2, 24⟩⟩⟩ ∧
      v.node.range? = some r ∧ r.Exact t ∧
      v.node.ShownIn (Scan.ofText t).tokens (Text.stretch t r) := by
  have hparse : (parse "@x y\x7ba\r\n\x7bb:c\t/*;*/ d! Important \x7d\x7d".toList).toOption.map
      (·.declarations.map (·.declaration)) =
        some [⟨"b", "c d", true, some ⟨⟨2, 2⟩, ⟨2, 24⟩⟩⟩] := by
    decide +kernel
  obtain ⟨s, hs, hd⟩ := Option.map_eq_some_iff.mp hparse
  have hs := ParseError.eq_ok_of_toOption hs
  obtain ⟨v, hv, hnode⟩ := exists_visit (by rw [hd]; exact List.mem_singleton_self _)
  obtain ⟨r, hr, hexact, hshown⟩ := span_shows_node hs hv
  exact ⟨_, s, v, r, rfl, hs, hv, hnode, hr, hexact, hshown⟩

end Stacking
