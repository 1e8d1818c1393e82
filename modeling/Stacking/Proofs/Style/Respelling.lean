import Stacking.Proofs.Style.Grammar
import Stacking.Proofs.Style.Layout
import Stacking.Proofs.Style.Tree
import Stacking.Style.Parse

/-!
# Respelling a tree

When the tokens of a stylesheet change, so does its tree. This file follows two kinds of change
through the grammar.

* `Spelled.alike`: tokens that differ in their places only spell a tree that differs in its spans
  only.
* `Spelled.slot`: the tokens of a declaration may be replaced by others, and the tree changes at
  the site of the declaration only.
-/

namespace Stacking

open Token

/-- The span whose ends went by `f` and `g`. -/
def Span.carried (f g : SourcePosition → SourcePosition) (s : Span) : Span := ⟨f s.start, g s.stop⟩

/-! ## Statements and nodes -/

namespace Statement

theorem toNodes_append {sts sts' : List Statement} {nodes : List Node} :
    toNodes (sts ++ sts') = .ok nodes ↔
      ∃ ns ms, toNodes sts = .ok ns ∧ toNodes sts' = .ok ms ∧ nodes = ns ++ ms := by
  induction sts generalizing nodes with
  | nil => simp [toNodes, eq_comm]
  | cons st sts ih =>
    rw [List.cons_append, toNodes, toNodes]
    cases hst : st.toNode with
    | error e => simp
    | ok n =>
      simp only
      constructor
      · intro h
        split at h
        · exact nomatch h
        · rename_i rest hrest
          obtain ⟨ns, ms, hns, hms, rfl⟩ := ih.mp hrest
          exact ⟨n :: ns, ms, by rw [hns], hms, (Except.ok.inj h).symm⟩
      · rintro ⟨ns', ms, hns', hms, rfl⟩
        split at hns'
        · exact nomatch hns'
        · rename_i ns hns
          obtain rfl := Except.ok.inj hns'
          rw [ih.mpr ⟨ns, ms, hns, hms, rfl⟩]
          rfl

theorem toNodes_cons {st : Statement} {sts : List Statement} {nodes : List Node} :
    toNodes (st :: sts) = .ok nodes ↔
      ∃ n ns, st.toNode = .ok n ∧ toNodes sts = .ok ns ∧ nodes = n :: ns := by
  rw [toNodes]
  cases hst : st.toNode with
  | error e => simp
  | ok n => cases hsts : toNodes sts <;> simp [eq_comm]

theorem toNodes_eq_append {sts : List Statement} {ns ms : List Node} {n : Node}
    (h : toNodes sts = .ok (ns ++ n :: ms)) :
    ∃ sts₁ st sts₂, sts = sts₁ ++ st :: sts₂ ∧ toNodes sts₁ = .ok ns ∧ st.toNode = .ok n ∧
      toNodes sts₂ = .ok ms := by
  induction ns generalizing sts with
  | nil =>
    cases sts with
    | nil => exact nomatch h
    | cons st sts =>
      obtain ⟨n', ms', hn, hms, heq⟩ := toNodes_cons.mp h
      obtain ⟨rfl, rfl⟩ := List.cons.inj heq
      exact ⟨[], st, sts, rfl, rfl, hn, hms⟩
  | cons m ns ih =>
    cases sts with
    | nil => exact nomatch h
    | cons st sts =>
      obtain ⟨m', rest, hm, hrest, heq⟩ := toNodes_cons.mp h
      obtain ⟨rfl, rfl⟩ := List.cons.inj heq
      obtain ⟨sts₁, st', sts₂, rfl, hns, hn, hms⟩ := ih hrest
      exact ⟨st :: sts₁, st', sts₂, rfl, toNodes_cons.mpr ⟨_, _, hm, hns, rfl⟩, hn, hms⟩

theorem toNode_eq_declaration {st : Statement} {d : Declaration}
    (h : st.toNode = .ok (.declaration d)) :
    ∃ p, st = .declaration p ∧ Declaration.ofPrelude p = .ok d := by
  cases st with
  | declaration p =>
    rw [toNode] at h
    split at h
    · exact nomatch h
    · rename_i d' hd
      exact ⟨p, rfl, by rw [hd, (Node.declaration.inj (Except.ok.inj h))]⟩
  | atStatement k p => exact nomatch h
  | block k p body close =>
    rw [toNode] at h
    split at h <;> exact nomatch h

theorem toNode_eq_block {st : Statement} {head : BlockHead} {span : Option Span}
    {nodes : List Node} (h : st.toNode = .ok (.block head span nodes)) :
    ∃ k p body close, st = .block k p body close ∧ toNodes body = .ok nodes ∧
      head = blockHead k p ∧ span = some ⟨Prelude.start (k.toList ++ p), close.stop⟩ := by
  cases st with
  | declaration p =>
    rw [toNode] at h
    split at h <;> exact nomatch h
  | atStatement k p => exact nomatch h
  | block k p body close =>
    rw [toNode] at h
    split at h
    · exact nomatch h
    · rename_i nodes' hbody
      injection Except.ok.inj h with h1 h2 h3
      exact ⟨k, p, body, close, rfl, by rw [hbody, h3], h1.symm, h2.symm⟩

end Statement

/-! ## Alike tokens -/

namespace Token

variable {f g : SourcePosition → SourcePosition}

theorem Alike.refl {fresh : Bool} (ts : List Token) : Alike id id fresh ts ts := by
  induction ts generalizing fresh with
  | nil => exact .nil
  | cons t ts ih => exact .cons rfl rfl rfl rfl (Or.inr (Or.inr rfl)) ih

theorem Alike.split {fresh : Bool} {ts us vs : List Token} (h : Alike f g fresh (ts ++ us) vs) :
    ∃ fresh' ts' us', vs = ts' ++ us' ∧ Alike f g fresh ts ts' ∧ Alike f g fresh' us us' := by
  induction ts generalizing fresh vs with
  | nil => exact ⟨fresh, [], vs, rfl, .nil, h⟩
  | cons t ts ih =>
    cases h with
    | cons hkind htext hstart hstop hlead hrest =>
      obtain ⟨fresh', ts', us', rfl, hts, hus⟩ := ih hrest
      exact ⟨fresh', _ :: ts', us', rfl, .cons hkind htext hstart hstop hlead hts, hus⟩

theorem Alike.parens {fresh : Bool} {ts ts' : List Token} (h : Alike f g fresh ts ts')
    (depth : Nat) : Token.parens depth ts' = Token.parens depth ts := by
  induction h generalizing depth with
  | nil => rfl
  | cons hkind _ _ _ _ _ ih => simp only [Token.parens, hkind, ih]

/-- The tokens of a prelude are no boundaries. -/
theorem isBoundary_of_parens {ts : List Token} {depth depth' : Nat}
    (h : Token.parens depth ts = some depth') : ∀ t ∈ ts, t.kind.isBoundary = false := by
  induction ts generalizing depth with
  | nil => exact nofun
  | cons t ts ih =>
    rw [← List.singleton_append, parens_append, Option.bind_eq_some_iff] at h
    obtain ⟨depth₁, ht, hts⟩ := h
    intro u hu
    rcases List.mem_cons.mp hu with rfl | hu
    · cases hk : u.kind <;> simp_all [Token.parens, TokenKind.isBoundary]
    · exact ih hts u hu

theorem Alike.textAfter {fresh : Bool} {ts ts' : List Token} (h : Alike f g fresh ts ts')
    (hfresh : fresh = false) (hb : ∀ t ∈ ts, t.kind.isBoundary = false) (trailing : Text) :
    Prelude.textAfter trailing ts' = Prelude.textAfter trailing ts := by
  induction h generalizing trailing with
  | nil => rfl
  | @cons fresh t t' ts ts' _ htext _ _ hlead _ ih =>
    have hkind := hb t (by simp)
    have hlead : t'.lead = t.lead := by simpa [hkind, hfresh] using hlead
    have hcontent : t'.content = t.content := by simp [Token.content, htext]
    have htrailing : t'.trailing = t.trailing := by simp [Token.trailing, hcontent, htext]
    rw [Prelude.textAfter, Prelude.textAfter, hlead, hcontent, htrailing,
      ih hkind fun u hu => hb u (by simp [hu])]

/-- Alike preludes have one text. -/
theorem Alike.text {fresh : Bool} {ts ts' : List Token} (h : Alike f g fresh ts ts')
    (hb : ∀ t ∈ ts, t.kind.isBoundary = false) : Prelude.text ts' = Prelude.text ts := by
  cases h with
  | nil => rfl
  | @cons _ t t' ts ts' _ htext _ _ _ hrest =>
    have hcontent : t'.content = t.content := by simp [Token.content, htext]
    have htrailing : t'.trailing = t.trailing := by simp [Token.trailing, hcontent, htext]
    rw [Prelude.text, Prelude.text, hcontent, htrailing,
      hrest.textAfter (hb t (by simp)) fun u hu => hb u (by simp [hu])]

theorem Alike.start {fresh : Bool} {ts ts' : List Token} (h : Alike f g fresh ts ts')
    (hne : ts ≠ []) : Prelude.start ts' = f (Prelude.start ts) := by
  cases h with
  | nil => exact absurd rfl hne
  | cons _ _ hstart => exact hstart

theorem Alike.stop {fresh : Bool} {ts ts' : List Token} (h : Alike f g fresh ts ts')
    (hne : ts ≠ []) : Prelude.stop ts' = g (Prelude.stop ts) := by
  induction h with
  | nil => exact absurd rfl hne
  | cons _ _ _ hstop _ hrest ih =>
    cases hrest with
    | nil => exact hstop
    | cons => simpa [Prelude.stop] using ih (by simp)

end Token

/-! ## Spelling with alike tokens -/

variable {f g : SourcePosition → SourcePosition}

/-- How the spans of a tree change when the places of its tokens do. -/
abbrev carry (f g : SourcePosition → SourcePosition) : Option Span → Option Span :=
  Option.map (Span.carried f g)

/-- The span of a declaration does not show in what is read. -/
theorem Declaration.ofText?_span {t : Text} {span : Option Span} {d : Declaration}
    (h : ofText? t span = some d) :
    d.span = span ∧ ∀ span', ofText? t span' = some { d with span := span' } := by
  unfold ofText? at h ⊢
  cases hcut : t.cut? ':' with
  | none => simp [hcut] at h
  | some parts =>
    obtain ⟨property, value⟩ := parts
    simp only [hcut] at h ⊢
    split at h
    · exact nomatch h
    · rename_i hblank
      simp only [if_neg hblank]
      split at h <;> obtain rfl := Option.some.inj h <;> exact ⟨rfl, fun _ => rfl⟩

theorem Declaration.ofPrelude_eq_ok {p : List Token} {d : Declaration} (h : ofPrelude p = .ok d) :
    ofText? (Prelude.text p) (some ⟨Prelude.start p, Prelude.stop p⟩) = some d := by
  unfold ofPrelude at h
  split at h
  · exact nomatch h
  · rename_i hd
    rw [hd, Except.ok.inj h]

theorem Declaration.ofPrelude_span {p : List Token} {d : Declaration} (h : ofPrelude p = .ok d) :
    d.span = some ⟨Prelude.start p, Prelude.stop p⟩ :=
  (ofText?_span (ofPrelude_eq_ok h)).1

/-- Alike preludes spell one declaration. -/
theorem Declaration.ofPrelude_alike {fresh : Bool} {p p' : List Token} {d : Declaration}
    (ha : Alike f g fresh p p') (hne : p ≠ []) (hb : ∀ t ∈ p, t.kind.isBoundary = false)
    (h : ofPrelude p = .ok d) : ofPrelude p' = .ok (d.mapSpan (carry f g)) := by
  obtain ⟨hspan, hany⟩ := ofText?_span (ofPrelude_eq_ok h)
  rw [ofPrelude, ha.text hb, hany]
  simp [Declaration.mapSpan, hspan, Span.carried, ha.start hne, ha.stop hne]

/-- The start of a statement, spelled with alike tokens. -/
theorem Opening.Reaches.alike {o : Opening} {depth : Nat} {fresh : Bool} {ts : List Token}
    (h : o.Reaches depth) (ha : Alike f g fresh o.tokens ts) :
    ∃ o' : Opening, ts = o'.tokens ∧ o'.Reaches depth ∧
      Statement.blockHead o'.keyword o'.prelude = Statement.blockHead o.keyword o.prelude ∧
      Prelude.start o'.tokens = f (Prelude.start o.tokens) ∧
      ∀ n, o.finish.toNode = .ok n → o'.finish.toNode = .ok (n.mapSpans (carry f g)) := by
  have hstart := ha.start h.tokens_ne_nil
  have hstop := ha.stop h.tokens_ne_nil
  have hb := isBoundary_of_parens h.parens
  obtain ⟨keyword, prelude⟩ := o
  cases keyword with
  | none =>
    have ha : Alike f g fresh prelude ts := ha
    have hne : prelude ≠ [] := h.prelude rfl
    refine ⟨⟨none, ts⟩, rfl, ⟨?_, nofun, ?_⟩, ?_, hstart, fun n hn => ?_⟩
    · rw [← h.parens]
      exact ha.parens 0
    · rintro - rfl
      cases ha
      exact hne rfl
    · simp only [Statement.blockHead, ha.text hb]
    · have hn : (Statement.declaration prelude).toNode = .ok n := hn
      rw [Statement.toNode] at hn
      split at hn
      · exact nomatch hn
      · rename_i d hd
        obtain rfl := Except.ok.inj hn
        simp [Opening.finish, Statement.toNode, Declaration.ofPrelude_alike ha hne hb hd,
          Node.mapSpans]
  | some k =>
    have ha : Alike f g fresh (k :: prelude) ts := ha
    cases ha with
    | @cons _ _ k' _ p' hkind htext hkstart _ _ hrest =>
      refine ⟨⟨some k', p'⟩, rfl, ⟨?_, ?_, nofun⟩, ?_, hstart, fun n hn => ?_⟩
      · rw [← h.parens]
        exact hrest.parens 0
      · intro k'' hk
        obtain rfl := Option.some.inj hk
        rw [hkind]
        exact h.keyword k rfl
      · simp only [Statement.blockHead, Statement.atName, htext, hrest.text hb]
      · obtain rfl := Except.ok.inj hn
        have hstop : Prelude.stop (k' :: p') = g (Prelude.stop (k :: prelude)) := hstop
        simp [Opening.finish, Statement.toNode, Node.mapSpans, Statement.atName, htext,
          hrest.text hb, hkstart, hstop, Span.carried]

/-- Tokens that differ in their places only spell a tree that differs in its spans only. -/
theorem Spelled.alike {inner fresh : Bool} {sts : List Statement} {ts ts' : List Token}
    (h : Spelled inner sts ts) (ha : Alike f g fresh ts ts') :
    ∃ sts', Spelled inner sts' ts' ∧ ∀ nodes, Statement.toNodes sts = .ok nodes →
      Statement.toNodes sts' = .ok (Node.mapSpansIn (carry f g) nodes) := by
  -- the kinds decide the spelling; texts and places only show in the nodes
  induction h generalizing fresh ts' with
  | nil =>
    cases ha
    refine ⟨[], .nil, fun nodes hn => ?_⟩
    obtain rfl := Except.ok.inj hn
    rfl
  | empty hs _ ih =>
    cases ha with
    | cons hkind _ _ _ _ hrest =>
      obtain ⟨sts', hsp, hn⟩ := ih hrest
      exact ⟨sts', .empty (hkind.trans hs) hsp, hn⟩
  | @ended inner o semicolon sts ts ho hs _ ih =>
    obtain ⟨_, us, vs, rfl, hus, hvs⟩ := ha.split
    obtain ⟨o', rfl, ho', _, _, hfin⟩ := ho.alike hus
    cases hvs with
    | cons hkind _ _ _ _ hrest =>
      obtain ⟨sts', hsp, hn⟩ := ih hrest
      refine ⟨o'.finish :: sts', .ended ho' (hkind.trans hs) hsp, fun nodes hnodes => ?_⟩
      obtain ⟨n, ns, hst, hsts, rfl⟩ := Statement.toNodes_cons.mp hnodes
      exact Statement.toNodes_cons.mpr ⟨_, _, hfin n hst, hn ns hsts, rfl⟩
  | @last o ho =>
    obtain ⟨o', rfl, ho', _, _, hfin⟩ := ho.alike ha
    refine ⟨[o'.finish], .last ho', fun nodes hnodes => ?_⟩
    obtain ⟨n, ns, hst, hsts, rfl⟩ := Statement.toNodes_cons.mp hnodes
    obtain rfl := Except.ok.inj hsts
    exact Statement.toNodes_cons.mpr ⟨_, _, hfin n hst, rfl, rfl⟩
  | @block inner o brace close body sts us ts ho hb _ hc _ ihbody ih =>
    obtain ⟨_, vs, ws, rfl, hvs, hws⟩ := ha.split
    obtain ⟨o', rfl, ho', hhead, hstart, _⟩ := ho.alike hvs
    cases hws with
    | cons hkind _ _ _ _ hrest =>
      obtain ⟨_, us', ws', rfl, hus, hws'⟩ := hrest.split
      obtain ⟨body', hbody', hnbody⟩ := ihbody hus
      cases hws' with
      | @cons _ _ close' _ _ hkind' _ _ hstop _ hrest' =>
        obtain ⟨sts', hsp, hn⟩ := ih hrest'
        refine ⟨o'.finishBlock body' close' :: sts',
          .block ho' (hkind.trans hb) hbody' (hkind'.trans hc) hsp, fun nodes hnodes => ?_⟩
        obtain ⟨n, ns, hst, hsts, rfl⟩ := Statement.toNodes_cons.mp hnodes
        refine Statement.toNodes_cons.mpr ⟨_, _, ?_, hn ns hsts, rfl⟩
        have hst : (Statement.block o.keyword o.prelude body close).toNode = .ok n := hst
        rw [Statement.toNode] at hst
        split at hst
        · exact nomatch hst
        · rename_i bnodes hbn
          obtain rfl := Except.ok.inj hst
          have hstart : Prelude.start (o'.keyword.toList ++ o'.prelude) =
              f (Prelude.start (o.keyword.toList ++ o.prelude)) := hstart
          simp [Opening.finishBlock, Statement.toNode, hnbody bnodes hbn, hhead, Node.mapSpans,
            Span.carried, hstart, hstop]

/-! ## Replacing a declaration -/

/-- The tokens end where a statement may start. -/
def Token.EndsStatement (ts : List Token) : Prop := ∀ t ∈ ts.getLast?, t.kind.isBoundary = true

theorem Token.EndsStatement.append {ts us : List Token} {t : Token}
    (ht : t.kind.isBoundary = true) (h : EndsStatement us) : EndsStatement (ts ++ t :: us) := by
  intro u hu
  cases us with
  | nil =>
    obtain rfl : t = u := by simpa using hu
    exact ht
  | cons v us => exact h u (by simpa using hu)

/-- The first statement of a list and how it ends. -/
inductive Spelled.First (inner : Bool) : Statement → List Statement → List Token → Prop
  | ended {o : Opening} {semicolon : Token} {sts : List Statement} {ts : List Token} :
      o.Reaches 0 → semicolon.kind = .semicolon → Spelled inner sts ts →
      First inner o.finish sts (o.tokens ++ semicolon :: ts)
  | last {o : Opening} : inner = true → o.Reaches 0 → First inner o.finish [] o.tokens
  | block {o : Opening} {brace close : Token} {body sts : List Statement} {us ts : List Token} :
      o.Reaches 0 → brace.kind = .openBrace → Spelled true body us → close.kind = .closeBrace →
      Spelled inner sts ts →
      First inner (o.finishBlock body close) sts (o.tokens ++ brace :: (us ++ close :: ts))

theorem Opening.eq_of_finish {o : Opening} {p : List Token} (h : o.finish = .declaration p) :
    o = ⟨none, p⟩ := by
  obtain ⟨keyword, prelude⟩ := o
  cases keyword with
  | none =>
    obtain rfl : prelude = p := Statement.declaration.inj h
    rfl
  | some k => exact nomatch h

theorem Opening.finish_ne_block {o : Opening} {k : Option Token} {p : List Token}
    {body : List Statement} {close : Token} : o.finish ≠ .block k p body close := by
  obtain ⟨keyword, prelude⟩ := o
  cases keyword <;> exact nofun

theorem Spelled.First.declaration {inner : Bool} {p : List Token} {sts : List Statement}
    {ts : List Token} (h : First inner (.declaration p) sts ts) :
    Opening.Reaches ⟨none, p⟩ 0 ∧
      ((∃ semicolon us, ts = p ++ semicolon :: us ∧ semicolon.kind = .semicolon ∧
        Spelled inner sts us) ∨ (inner = true ∧ sts = [] ∧ ts = p)) := by
  generalize hst : Statement.declaration p = st at h
  cases h with
  | ended ho hs hrest =>
    obtain rfl := Opening.eq_of_finish hst.symm
    exact ⟨ho, Or.inl ⟨_, _, rfl, hs, hrest⟩⟩
  | last hi ho =>
    obtain rfl := Opening.eq_of_finish hst.symm
    exact ⟨ho, Or.inr ⟨hi, rfl, rfl⟩⟩
  | block => exact nomatch hst

theorem Spelled.First.eq_block {inner : Bool} {k : Option Token} {p : List Token}
    {body : List Statement} {close : Token} {sts : List Statement} {ts : List Token}
    (h : First inner (.block k p body close) sts ts) :
    Opening.Reaches ⟨k, p⟩ 0 ∧ ∃ brace us vs,
      ts = Opening.tokens ⟨k, p⟩ ++ brace :: (us ++ close :: vs) ∧ brace.kind = .openBrace ∧
        Spelled true body us ∧ close.kind = .closeBrace ∧ Spelled inner sts vs := by
  generalize hst : Statement.block k p body close = st at h
  cases h with
  | ended => exact absurd hst.symm Opening.finish_ne_block
  | last => exact absurd hst.symm Opening.finish_ne_block
  | block ho hb hbody hc hrest =>
    obtain ⟨rfl, rfl, rfl, rfl⟩ := Statement.block.inj hst
    exact ⟨ho, _, _, _, rfl, hb, hbody, hc, hrest⟩

/-- A spelling of several statements is one of those before a statement and one from it on. -/
theorem Spelled.split {inner : Bool} {sts sts' : List Statement} {st : Statement}
    {ts : List Token} (h : Spelled inner (sts ++ st :: sts') ts) :
    ∃ us vs, ts = us ++ vs ∧ Spelled false sts us ∧ EndsStatement us ∧
      Spelled.First inner st sts' vs := by
  generalize hall : sts ++ st :: sts' = all at h
  induction h generalizing sts with
  | nil => simp at hall
  | @empty inner semicolon all ts hs _ ih =>
    obtain ⟨us, vs, rfl, hus, hend, hvs⟩ := ih hall
    have hends : EndsStatement ([] ++ semicolon :: us) := hend.append (by rw [hs]; rfl)
    exact ⟨semicolon :: us, vs, rfl, .empty hs hus, hends, hvs⟩
  | @ended inner o semicolon all ts ho hs hrest ih =>
    cases sts with
    | nil =>
      obtain ⟨rfl, rfl⟩ := List.cons.inj hall
      exact ⟨[], _, rfl, .nil, nofun, .ended ho hs hrest⟩
    | cons x sts =>
      obtain ⟨rfl, rfl⟩ := List.cons.inj hall
      obtain ⟨us, vs, rfl, hus, hend, hvs⟩ := ih rfl
      exact ⟨o.tokens ++ semicolon :: us, vs, by simp, .ended ho hs hus,
        hend.append (by rw [hs]; rfl), hvs⟩
  | @last o ho =>
    cases sts with
    | nil =>
      obtain ⟨rfl, rfl⟩ := List.cons.inj hall
      exact ⟨[], _, rfl, .nil, nofun, .last rfl ho⟩
    | cons x sts => simp at hall
  | @block inner o brace close body all us ts ho hb hbody hc hrest _ ih =>
    cases sts with
    | nil =>
      obtain ⟨rfl, rfl⟩ := List.cons.inj hall
      exact ⟨[], _, rfl, .nil, nofun, .block ho hb hbody hc hrest⟩
    | cons x sts =>
      obtain ⟨rfl, rfl⟩ := List.cons.inj hall
      obtain ⟨vs, ws, rfl, hvs, hend, hws⟩ := ih rfl
      refine ⟨o.tokens ++ brace :: (us ++ close :: vs), ws, by simp, .block ho hb hbody hc hvs, ?_,
        hws⟩
      rw [← List.cons_append, ← List.append_assoc]
      exact hend.append (by rw [hc]; rfl)

/-- The tokens of a declaration and what ends it: a semicolon, or the block it is the last
statement of. -/
structure DeclarationTokens (last : Bool) (d : Declaration) (p sep : List Token) : Prop where
  spells : Declaration.ofPrelude p = .ok d
  reaches : Opening.Reaches ⟨none, p⟩ 0
  ending : if last then sep = [] else ∃ semicolon, sep = [semicolon] ∧ semicolon.kind = .semicolon

theorem DeclarationTokens.spelled {last : Bool} {d : Declaration} {p sep : List Token}
    (h : DeclarationTokens last d p sep) : Spelled last [.declaration p] (p ++ sep) := by
  have hend := h.ending
  cases last with
  | true =>
    obtain rfl : sep = [] := hend
    rw [List.append_nil]
    exact .last h.reaches
  | false =>
    obtain ⟨semicolon, rfl, hs⟩ := hend
    exact .ended h.reaches hs .nil

/-- Where a declaration stands in a tree, its tokens may be replaced by others, before and behind
alike ones. -/
theorem Spelled.slot {inner : Bool} {sts : List Statement} {ts : List Token} {site : Site}
    {d : Declaration} (h : Spelled inner sts ts)
    (hn : Statement.toNodes sts = .ok (site.plug [.declaration d])) :
    ∃ last pre p sep post, ts = pre ++ ((p ++ sep) ++ post) ∧ DeclarationTokens last d p sep ∧
      EndsStatement pre ∧
      (last = true ∧ inner = true ∧ sep ++ post = [] ∨
        ∃ t us, sep ++ post = t :: us ∧ t.kind = if last then .closeBrace else .semicolon) ∧
      ∀ (f g : SourcePosition → SourcePosition) (fresh : Bool) (pre' post' : List Token),
        Alike f g true pre pre' → Alike f g fresh post post' →
        ∀ (X : List Statement) (xs : List Token) (nodes : List Node), Spelled last X xs →
          Statement.toNodes X = .ok nodes → ∃ sts', Spelled inner sts' (pre' ++ (xs ++ post')) ∧
            Statement.toNodes sts' = .ok ((site.mapSpans (carry f g)).plug nodes) := by
  induction site generalizing inner sts ts with
  | here before after =>
    obtain ⟨sts₁, st, sts₂, rfl, hn₁, hst, hn₂⟩ := Statement.toNodes_eq_append hn
    obtain ⟨p, rfl, hp⟩ := Statement.toNode_eq_declaration hst
    obtain ⟨us, vs, rfl, hus, hend, hvs⟩ := h.split
    obtain ⟨ho, ⟨semicolon, ws, rfl, hs, hws⟩ | ⟨rfl, rfl, rfl⟩⟩ := hvs.declaration
    · refine ⟨false, us, p, [semicolon], ws, by simp, ⟨hp, ho, semicolon, rfl, hs⟩, hend,
        Or.inr ⟨semicolon, ws, rfl, hs⟩, ?_⟩
      intro f g fresh pre' post' hpre hpost X xs nodes hX hXn
      obtain ⟨sts₁', hsp₁, hn₁'⟩ := hus.alike hpre
      obtain ⟨sts₂', hsp₂, hn₂'⟩ := hws.alike hpost
      refine ⟨sts₁' ++ (X ++ sts₂'), hsp₁.append (hX.append hsp₂), ?_⟩
      exact Statement.toNodes_append.mpr ⟨_, _, hn₁' _ hn₁,
        Statement.toNodes_append.mpr ⟨_, _, hXn, hn₂' _ hn₂, rfl⟩, rfl⟩
    · -- the last declaration of its block has nothing behind it there
      refine ⟨true, us, vs, [], [], by simp, ⟨hp, ho, rfl⟩, hend, Or.inl ⟨rfl, rfl, rfl⟩, ?_⟩
      intro f g fresh pre' post' hpre hpost X xs nodes hX hXn
      cases hpost
      obtain ⟨sts₁', hsp₁, hn₁'⟩ := hus.alike hpre
      obtain rfl := Except.ok.inj hn₂
      refine ⟨sts₁' ++ X, by simpa using hsp₁.append hX, ?_⟩
      exact Statement.toNodes_append.mpr ⟨_, _, hn₁' _ hn₁, hXn,
        by simp [Site.mapSpans, Site.plug, Node.mapSpansIn]⟩
  | within before head span site after ih =>
    obtain ⟨sts₁, st, sts₂, rfl, hn₁, hst, hn₂⟩ := Statement.toNodes_eq_append hn
    obtain ⟨k, q, body, close, rfl, hbody, rfl, rfl⟩ := Statement.toNode_eq_block hst
    obtain ⟨us, vs, rfl, hus, hend, hvs⟩ := h.split
    obtain ⟨ho, brace, bts, ws, rfl, hb, hbts, hc, hws⟩ := hvs.eq_block
    obtain ⟨last, pre, p, sep, post, rfl, hp, hpre, hnext, hslot⟩ := ih hbts hbody
    refine ⟨last, us ++ (Opening.tokens ⟨k, q⟩ ++ brace :: pre), p, sep, post ++ close :: ws,
      by simp, hp, ?_, Or.inr ?_, ?_⟩
    · rw [← List.append_assoc]
      exact hpre.append (by rw [hb]; rfl)
    · rcases hnext with ⟨rfl, _, hnil⟩ | ⟨t, ts, hts, ht⟩
      · exact ⟨close, ws, by rw [← List.append_assoc, hnil]; rfl, hc⟩
      · exact ⟨t, ts ++ close :: ws, by rw [← List.append_assoc, hts]; rfl, ht⟩
    · intro f g fresh pre' post' hpre' hpost' X xs nodes hX hXn
      -- the tokens in front are those before the block, its head, its brace and those within it
      obtain ⟨_, us', opened, rfl, hus', hopened⟩ := hpre'.split
      obtain ⟨_, os, braced, rfl, hos, hbraced⟩ := hopened.split
      obtain ⟨_, post'', closed, rfl, hpost'', hclosed⟩ := hpost'.split
      obtain ⟨sts₁', hsp₁, hn₁'⟩ := hus.alike hus'
      obtain ⟨o', rfl, ho', hhead, hstart, _⟩ := ho.alike hos
      cases hbraced with
      | @cons _ _ brace' _ pre'' hbk _ _ _ _ hpre'' =>
      cases hclosed with
      | @cons _ _ close' _ ws' hck _ _ hcstop _ hws' =>
      obtain ⟨sts₂', hsp₂, hn₂'⟩ := hws.alike hws'
      rw [hb] at hpre''
      obtain ⟨body', hbody', hnbody⟩ := hslot f g _ pre'' post'' hpre'' hpost'' X xs nodes hX hXn
      have hblock : Spelled inner (o'.finishBlock body' close' :: sts₂')
          (o'.tokens ++ brace' :: ((pre'' ++ (xs ++ post'')) ++ close' :: ws')) :=
        .block ho' (hbk.trans hb) hbody' (hck.trans hc) hsp₂
      refine ⟨sts₁' ++ o'.finishBlock body' close' :: sts₂', ?_, ?_⟩
      · simpa using hsp₁.append hblock
      · refine Statement.toNodes_append.mpr ⟨_, _, hn₁' _ hn₁,
          Statement.toNodes_cons.mpr ⟨_, _, ?_, hn₂' _ hn₂, rfl⟩, rfl⟩
        have hstart : Prelude.start (o'.keyword.toList ++ o'.prelude) =
            f (Prelude.start (k.toList ++ q)) := hstart
        simp [Opening.finishBlock, Statement.toNode, hnbody, hhead, Span.carried, hstart, hcstop]

/-! ## Parsing -/

/-- The statements of a scan that reached the end of its text are those that its tokens spell. -/
theorem Scan.statements_eq_ok_iff {scan : Scan} {sts : List Statement} :
    scan.statements = .ok sts ↔ scan.ending = .complete ∧ Spelled false sts scan.tokens := by
  rw [← Reading.readAll_complete_iff, Scan.statements]
  constructor
  · intro h
    split at h
    · exact nomatch h
    · rename_i r hr
      split at h
      · exact nomatch h
      · rename_i hend
        split at h
        · exact nomatch h
        · rename_i hsts
          obtain rfl := Except.ok.inj h
          exact ⟨hend, r, hr, hsts⟩
  · rintro ⟨hend, r, hr, hsts⟩
    simp [hend, hr, hsts]

/-- A text is a stylesheet exactly if it is cut into tokens to its end and these spell the tree. -/
theorem Stylesheet.parse_eq_ok_iff {t : Text} {s : Stylesheet} :
    parse t = .ok s ↔ ∃ ts sts, Scan.ofText t = ⟨ts, .complete⟩ ∧ Spelled false sts ts ∧
      Statement.toNodes sts = .ok s.nodes := by
  unfold parse
  constructor
  · intro h
    split at h
    · exact nomatch h
    · rename_i sts hsts
      split at h
      · exact nomatch h
      · rename_i nodes hnodes
        obtain rfl := Except.ok.inj h
        obtain ⟨hend, hspelled⟩ := Scan.statements_eq_ok_iff.mp hsts
        exact ⟨_, sts, by rw [← hend], hspelled, hnodes⟩
  · rintro ⟨ts, sts, hscan, hspelled, hnodes⟩
    have hsts : (Scan.ofText t).statements = .ok sts :=
      Scan.statements_eq_ok_iff.mpr (by rw [hscan]; exact ⟨rfl, hspelled⟩)
    simp [hsts, hnodes]

end Stacking
