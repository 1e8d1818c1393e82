import Stacking.Style.Statement

/-!
# The grammar of statements

Statements are read by a machine over a stack of open blocks. This file gives the grammar behind
the machine and shows that both agree.

* `Spelled` says which tokens spell which statements.
* `Spelled.readAll` says that the machine reads every spelling.
* `Reading.spelled_of_readAll` says that the machine reads nothing else.
-/

namespace Stacking

/-! ## Preludes -/

/-- The number of parentheses that are open behind tokens of a prelude, `depth` of them being open
in front, or `none` where the tokens belong to no prelude. -/
def Token.parens : Nat → List Token → Option Nat
  | depth, [] => some depth
  | depth, t :: ts =>
    match t.kind with
    | .chunk => parens depth ts
    | .atKeyword => if depth = 0 then none else parens depth ts
    | .openParen => parens (depth + 1) ts
    | .closeParen => if depth = 0 then none else parens (depth - 1) ts
    | _ => none

theorem Token.parens_append (depth : Nat) (ts us : List Token) :
    parens depth (ts ++ us) = (parens depth ts).bind (parens · us) := by
  induction ts generalizing depth with
  | nil => rfl
  | cons t ts ih =>
    rw [List.cons_append, parens, parens]
    split
    · exact ih depth
    · split
      · rfl
      · exact ih depth
    · exact ih (depth + 1)
    · split
      · rfl
      · exact ih (depth - 1)
    · rfl

namespace Opening

/-- The tokens of the start of a statement. -/
def tokens (o : Opening) : List Token := o.keyword.toList ++ o.prelude

/-- The start of a statement with `depth` parentheses open: an at-keyword or a prelude that is not
empty, or both. -/
structure Reaches (o : Opening) (depth : Nat) : Prop where
  parens : Token.parens 0 o.prelude = some depth
  keyword : ∀ k ∈ o.keyword, k.kind = .atKeyword
  prelude : o.keyword = none → o.prelude ≠ []

theorem Reaches.tokens_ne_nil {o : Opening} {depth : Nat} (h : o.Reaches depth) :
    o.tokens ≠ [] := by
  cases hk : o.keyword with
  | none => simpa [tokens, hk] using h.prelude hk
  | some k => simp [tokens, hk]

theorem Reaches.concat {o : Opening} {depth depth' : Nat} {t : Token} (h : o.Reaches depth)
    (ht : Token.parens depth [t] = some depth') :
    Reaches { o with prelude := o.prelude ++ [t] } depth' where
  parens := by simp [Token.parens_append, h.parens, ht]
  keyword := h.keyword
  prelude := by simp

end Opening

/-! ## Statements -/

/-- Which tokens spell which statements. Every statement ends with a semicolon or with its block,
but `inner`, within a block, the last one may do without; a semicolon alone spells nothing. -/
inductive Spelled : Bool → List Statement → List Token → Prop
  | nil {inner : Bool} : Spelled inner [] []
  | empty {inner : Bool} {semicolon : Token} {sts : List Statement} {ts : List Token} :
      semicolon.kind = .semicolon → Spelled inner sts ts → Spelled inner sts (semicolon :: ts)
  | ended {inner : Bool} {o : Opening} {semicolon : Token} {sts : List Statement}
      {ts : List Token} :
      o.Reaches 0 → semicolon.kind = .semicolon → Spelled inner sts ts →
      Spelled inner (o.finish :: sts) (o.tokens ++ semicolon :: ts)
  | last {o : Opening} : o.Reaches 0 → Spelled true [o.finish] o.tokens
  | block {inner : Bool} {o : Opening} {brace close : Token} {body sts : List Statement}
      {us ts : List Token} :
      o.Reaches 0 → brace.kind = .openBrace → Spelled true body us → close.kind = .closeBrace →
      Spelled inner sts ts →
      Spelled inner (o.finishBlock body close :: sts) (o.tokens ++ brace :: (us ++ close :: ts))

namespace Spelled

/-- Statements may be spelled one after the other. -/
theorem append {inner : Bool} {sts sts' : List Statement} {ts ts' : List Token}
    (h : Spelled false sts ts) (h' : Spelled inner sts' ts') :
    Spelled inner (sts ++ sts') (ts ++ ts') := by
  generalize hf : false = flag at h
  induction h with
  | nil => exact h'
  | empty hs _ ih => exact .empty hs (ih hf)
  | ended ho hs _ ih =>
    rw [List.cons_append, List.append_assoc, List.cons_append]
    exact .ended ho hs (ih hf)
  | last => exact nomatch hf
  | block ho hb hbody hc _ _ ih =>
    rw [List.cons_append, List.append_assoc, List.cons_append, List.append_assoc,
      List.cons_append]
    exact .block ho hb hbody hc (ih hf)

/-- What may stand alone may stand within a block. -/
theorem weaken {sts : List Statement} {ts : List Token} {inner : Bool}
    (h : Spelled false sts ts) : Spelled inner sts ts := by
  have hnil : Spelled inner [] [] := .nil
  simpa using h.append hnil

/-- A semicolon ends the last statement of a block, or adds nothing. -/
theorem concat {inner : Bool} {sts : List Statement} {ts : List Token} {semicolon : Token}
    (h : Spelled inner sts ts) (hs : semicolon.kind = .semicolon) :
    Spelled false sts (ts ++ [semicolon]) := by
  induction h with
  | nil => exact .empty hs .nil
  | empty hs' _ ih => exact .empty hs' ih
  | ended ho hs' _ ih =>
    rw [List.append_assoc, List.cons_append]
    exact .ended ho hs' ih
  | last ho => exact .ended ho hs .nil
  | block ho hb hbody hc _ _ ih =>
    rw [List.append_assoc, List.cons_append, List.append_assoc, List.cons_append]
    exact .block ho hb hbody hc ih

end Spelled

/-! ## The machine reads every spelling -/

namespace Reading

theorem readAll_append (r : Reading) (ts us : List Token) :
    r.readAll (ts ++ us) = (r.readAll ts).bind (·.readAll us) := by
  induction ts generalizing r with
  | nil => rfl
  | cons t ts ih =>
    rw [List.cons_append, readAll, readAll]
    split
    · rfl
    · exact ih _

/-- Within a statement the machine takes a token for its prelude exactly where parentheses allow
it. -/
theorem read_prelude {outer : List OpenBlock} {before : List Statement} {o : Opening}
    {depth depth' : Nat} {t : Token} (h : Token.parens depth [t] = some depth') :
    read ⟨outer, before, some o, depth⟩ t =
      some ⟨outer, before, some { o with prelude := o.prelude ++ [t] }, depth'⟩ := by
  cases hk : t.kind <;> by_cases hd : depth = 0 <;>
    simp_all [Token.parens, read, readPlain, readInParens, extend]

theorem readAll_prelude {outer : List OpenBlock} {before : List Statement} {o : Opening}
    {depth depth' : Nat} {ts : List Token} (h : Token.parens depth ts = some depth') :
    readAll ⟨outer, before, some o, depth⟩ ts =
      .ok ⟨outer, before, some { o with prelude := o.prelude ++ ts }, depth'⟩ := by
  induction ts generalizing o depth with
  | nil =>
    obtain rfl := Option.some.inj h
    simp [readAll]
  | cons t ts ih =>
    rw [← List.singleton_append, Token.parens_append, Option.bind_eq_some_iff] at h
    obtain ⟨depth₁, ht, hts⟩ := h
    rw [readAll, read_prelude ht]
    simp only
    rw [ih hts, List.append_assoc, List.singleton_append]

/-- A statement may start with a token of a prelude. -/
theorem read_first {outer : List OpenBlock} {before : List Statement} {depth : Nat} {t : Token}
    (h : Token.parens 0 [t] = some depth) :
    read ⟨outer, before, none, 0⟩ t = some ⟨outer, before, some ⟨none, [t]⟩, depth⟩ := by
  cases hk : t.kind <;> simp_all [Token.parens, read, readPlain, extend]

theorem readAll_opening {outer : List OpenBlock} {before : List Statement} {o : Opening}
    {depth : Nat} (h : o.Reaches depth) :
    readAll ⟨outer, before, none, 0⟩ o.tokens = .ok ⟨outer, before, some o, depth⟩ := by
  obtain ⟨keyword, prelude⟩ := o
  cases keyword with
  | some k =>
    have hk : k.kind = .atKeyword := h.keyword k rfl
    have hread : read ⟨outer, before, none, 0⟩ k = some ⟨outer, before, some ⟨some k, []⟩, 0⟩ := by
      simp [read, readPlain, hk]
    have hshape : Opening.tokens ⟨some k, prelude⟩ = k :: prelude := rfl
    rw [hshape, readAll, hread]
    exact readAll_prelude h.parens
  | none =>
    obtain ⟨t, ts, rfl⟩ := List.exists_cons_of_ne_nil (h.prelude rfl)
    have hparens := h.parens
    rw [← List.singleton_append, Token.parens_append, Option.bind_eq_some_iff] at hparens
    obtain ⟨depth₁, ht, hts⟩ := hparens
    have hshape : Opening.tokens ⟨none, t :: ts⟩ = t :: ts := rfl
    rw [hshape, readAll, read_first ht]
    exact readAll_prelude hts

end Reading

theorem Spelled.readAll {inner : Bool} {sts : List Statement} {ts : List Token}
    (h : Spelled inner sts ts) (outer : List OpenBlock) (before : List Statement) :
    ∃ r, Reading.readAll ⟨outer, before, none, 0⟩ ts = .ok r ∧ r.outer = outer ∧
      r.finished = before ++ sts ∧ r.depth = 0 ∧ (inner = false → r.current = none) := by
  induction h generalizing outer before with
  | nil => exact ⟨_, rfl, rfl, by simp [Reading.finished], rfl, fun _ => rfl⟩
  | @empty inner semicolon sts ts hs _ ih =>
    obtain ⟨r, hr, hrest⟩ := ih outer before
    refine ⟨r, ?_, hrest⟩
    simpa [Reading.readAll, Reading.read, Reading.readPlain, hs, Reading.finished] using hr
  | @ended inner o semicolon sts ts ho hs _ ih =>
    obtain ⟨r, hr, houter, hfin, hrest⟩ := ih outer (before ++ [o.finish])
    refine ⟨r, ?_, houter, by simpa using hfin, hrest⟩
    rw [Reading.readAll_append, Reading.readAll_opening ho]
    simpa [Except.bind, Reading.readAll, Reading.read, Reading.readPlain, hs, Reading.finished]
      using hr
  | last ho => exact ⟨_, Reading.readAll_opening ho, rfl, rfl, rfl, nofun⟩
  | @block inner o brace close body sts us ts ho hb _ hc _ ihbody ih =>
    obtain ⟨r, hr, hrest⟩ := ih outer (before ++ [o.finishBlock body close])
    -- the body is read with the block on the stack
    obtain ⟨r', hr', houter', hfin', hdepth', _⟩ := ihbody (⟨before, o⟩ :: outer) []
    have hbrace : Reading.read ⟨outer, before, some o, 0⟩ brace =
        some ⟨⟨before, o⟩ :: outer, [], none, 0⟩ := by
      simp [Reading.read, Reading.readPlain, hb]
    have hclose : r'.read close = some ⟨outer, before ++ [o.finishBlock body close], none, 0⟩ := by
      simp [Reading.read, Reading.readPlain, hc, houter', hfin', hdepth']
    refine ⟨r, ?_, hrest.1, by simpa using hrest.2.1, hrest.2.2⟩
    rw [Reading.readAll_append, Reading.readAll_opening ho, Except.bind, Reading.readAll, hbrace]
    simp only
    rw [Reading.readAll_append, hr', Except.bind, Reading.readAll, hclose]
    exact hr

/-! ## The machine reads nothing else -/

namespace Reading

/-- The tokens that stand before the innermost open block, and that open it. -/
def OpenedBy : List OpenBlock → List Token → Prop
  | [], ts => ts = []
  | b :: outer, ts =>
    ∃ us vs brace, ts = us ++ (vs ++ (b.head.tokens ++ [brace])) ∧ OpenedBy outer us ∧
      Spelled false b.before vs ∧ b.head.Reaches 0 ∧ brace.kind = .openBrace

/-- The tokens of the statement that is being read. -/
def Begun : Option Opening → Nat → List Token → Prop
  | none, depth, ts => depth = 0 ∧ ts = []
  | some o, depth, ts => o.Reaches depth ∧ ts = o.tokens

/-- What has been read spells the statements read so far. -/
def Spells (r : Reading) (ts : List Token) : Prop :=
  ∃ us vs ws, ts = us ++ (vs ++ ws) ∧ OpenedBy r.outer us ∧ Spelled false r.statements vs ∧
    Begun r.current r.depth ws

theorem spells_start : Spells start [] := ⟨[], [], [], rfl, rfl, .nil, rfl, rfl⟩

/-- Taking a token for the current statement. -/
theorem Begun.extend {r : Reading} {ws : List Token} {t : Token} {depth : Nat}
    (h : Begun r.current r.depth ws) (ht : Token.parens r.depth [t] = some depth) :
    Begun (r.extend t).current depth (ws ++ [t]) := by
  cases hc : r.current with
  | none =>
    rw [hc] at h
    obtain ⟨hdepth, rfl⟩ := h
    rw [hdepth] at ht
    simp only [Reading.extend, hc]
    exact ⟨⟨ht, nofun, nofun⟩, rfl⟩
  | some o =>
    rw [hc] at h
    obtain ⟨ho, rfl⟩ := h
    simp only [Reading.extend, hc]
    exact ⟨ho.concat ht, by simp [Opening.tokens]⟩

@[simp] theorem extend_outer (r : Reading) (t : Token) : (r.extend t).outer = r.outer := by
  unfold extend
  split <;> rfl

@[simp] theorem extend_statements (r : Reading) (t : Token) :
    (r.extend t).statements = r.statements := by
  unfold extend
  split <;> rfl

@[simp] theorem extend_depth (r : Reading) (t : Token) : (r.extend t).depth = r.depth := by
  unfold extend
  split <;> rfl

/-- What the machine can do with a token: take it for the current statement, start a statement with
an at-keyword, end the statement, open a block or close one. -/
theorem read_eq_some {r r' : Reading} {t : Token} (h : r.read t = some r') :
    (∃ depth, Token.parens r.depth [t] = some depth ∧ r' = { r.extend t with depth := depth }) ∨
    (t.kind = .atKeyword ∧ r.depth = 0 ∧ r.current = none ∧
      r' = { r with current := some ⟨some t, []⟩ }) ∨
    (t.kind = .semicolon ∧ r.depth = 0 ∧
      r' = { r with statements := r.finished, current := none }) ∨
    (∃ o, t.kind = .openBrace ∧ r.depth = 0 ∧ r.current = some o ∧
      r' = ⟨⟨r.statements, o⟩ :: r.outer, [], none, 0⟩) ∨
    (∃ b outer, t.kind = .closeBrace ∧ r.depth = 0 ∧ r.outer = b :: outer ∧
      r' = ⟨outer, b.before ++ [b.head.finishBlock r.finished t], none, 0⟩) := by
  have hsame : r.extend t = { r.extend t with depth := r.depth } := by rw [← extend_depth r t]
  unfold read at h
  split at h
  · rename_i hdepth
    unfold readPlain at h
    cases hk : t.kind with
    | chunk =>
      simp only [hk, Option.some.injEq] at h
      exact Or.inl ⟨r.depth, by simp [Token.parens, hk], h ▸ hsame⟩
    | atKeyword =>
      simp only [hk] at h
      split at h
      · rename_i hnone
        exact Or.inr (Or.inl ⟨rfl, hdepth, hnone, (Option.some.inj h).symm⟩)
      · exact nomatch h
    | openBrace =>
      simp only [hk] at h
      split at h
      · exact nomatch h
      · rename_i o ho
        exact Or.inr (Or.inr (Or.inr (Or.inl ⟨o, rfl, hdepth, ho, (Option.some.inj h).symm⟩)))
    | closeBrace =>
      simp only [hk] at h
      split at h
      · exact nomatch h
      · rename_i b outer hb
        exact Or.inr (Or.inr (Or.inr (Or.inr
          ⟨b, outer, rfl, hdepth, hb, (Option.some.inj h).symm⟩)))
    | openParen =>
      simp only [hk, Option.some.injEq] at h
      exact Or.inl ⟨1, by simp [Token.parens, hk, hdepth], h.symm⟩
    | closeParen => simp only [hk] at h; exact nomatch h
    | semicolon =>
      simp only [hk] at h
      exact Or.inr (Or.inr (Or.inl ⟨rfl, hdepth, (Option.some.inj h).symm⟩))
  · -- within parentheses every token that is taken belongs to the prelude
    rename_i hdepth
    unfold readInParens at h
    refine Or.inl ?_
    cases hk : t.kind with
    | chunk | atKeyword =>
      simp only [hk, Option.some.injEq] at h
      exact ⟨r.depth, by simp [Token.parens, hk, hdepth], h ▸ hsame⟩
    | openParen =>
      simp only [hk, Option.some.injEq] at h
      exact ⟨r.depth + 1, by simp [Token.parens, hk], h.symm⟩
    | closeParen =>
      simp only [hk, Option.some.injEq] at h
      exact ⟨r.depth - 1, by simp [Token.parens, hk, hdepth], h.symm⟩
    | openBrace | closeBrace | semicolon => simp only [hk] at h; exact nomatch h

/-- The statements of a block, the last of which may have no end of its own. -/
theorem Begun.finished {r : Reading} {vs ws : List Token} (hsts : Spelled false r.statements vs)
    (h : Begun r.current r.depth ws) (hdepth : r.depth = 0) :
    Spelled true r.finished (vs ++ ws) := by
  unfold Reading.finished
  rw [hdepth] at h
  cases hc : r.current with
  | none =>
    rw [hc] at h
    obtain ⟨_, rfl⟩ := h
    simpa using hsts.weaken
  | some o =>
    rw [hc] at h
    obtain ⟨ho, rfl⟩ := h
    exact hsts.append (.last ho)

/-- Every token that the machine takes goes on with the spelling. -/
theorem Spells.read {r r' : Reading} {ts : List Token} {t : Token} (h : Spells r ts)
    (hr : r.read t = some r') : Spells r' (ts ++ [t]) := by
  obtain ⟨us, vs, ws, rfl, houter, hsts, hcur⟩ := h
  rcases read_eq_some hr with ⟨depth, ht, rfl⟩ | ⟨hk, hdepth, hnone, rfl⟩ | ⟨hk, hdepth, rfl⟩ |
    ⟨o, hk, hdepth, ho, rfl⟩ | ⟨b, outer, hk, hdepth, hb, rfl⟩
  · refine ⟨us, vs, ws ++ [t], by simp, ?_, ?_, hcur.extend ht⟩
    · rwa [extend_outer]
    · rwa [extend_statements]
  · rw [hnone] at hcur
    obtain ⟨_, rfl⟩ := hcur
    refine ⟨us, vs, [t], by simp, houter, hsts, ⟨?_, ?_, ?_⟩, rfl⟩
    · exact congrArg some hdepth.symm
    · intro k hk'
      obtain rfl := Option.some.inj hk'
      exact hk
    · exact nofun
  · refine ⟨us, vs ++ ws ++ [t], [], by simp, houter, ?_, hdepth, rfl⟩
    exact (hcur.finished hsts hdepth).concat hk
  · rw [ho, hdepth] at hcur
    obtain ⟨ho', rfl⟩ := hcur
    exact ⟨us ++ (vs ++ (o.tokens ++ [t])), [], [], by simp,
      ⟨us, vs, t, rfl, houter, hsts, ho', hk⟩, .nil, rfl, rfl⟩
  · -- the tokens since the opening brace are the body of the block
    rw [hb] at houter
    obtain ⟨us', vs', brace, rfl, houter', hbefore, hhead, hbrace⟩ := houter
    have hblock : Spelled false [b.head.finishBlock r.finished t]
        (b.head.tokens ++ brace :: (vs ++ ws ++ [t])) :=
      .block hhead hbrace (hcur.finished hsts hdepth) hk .nil
    refine ⟨us', vs' ++ (b.head.tokens ++ brace :: (vs ++ ws ++ [t])), [], by simp, houter',
      hbefore.append hblock, rfl, rfl⟩

theorem Spells.readAll {r r' : Reading} {ts us : List Token} (h : Spells r ts)
    (hr : r.readAll us = .ok r') : Spells r' (ts ++ us) := by
  induction us generalizing r ts with
  | nil =>
    obtain rfl := Except.ok.inj hr
    simpa using h
  | cons t us ih =>
    rw [Reading.readAll] at hr
    split at hr
    · exact nomatch hr
    · rename_i r₁ hread
      simpa using ih (h.read hread) hr

/-- What the machine reads to the end is spelled by its tokens. -/
theorem spelled_of_readAll {ts : List Token} {r : Reading} {sts : List Statement}
    (hr : start.readAll ts = .ok r) (hsts : r.complete? = some sts) : Spelled false sts ts := by
  obtain ⟨us, vs, ws, hts, houter, hspelled, hcur⟩ := spells_start.readAll hr
  unfold complete? at hsts
  split at hsts
  · rename_i hnil hnone
    obtain rfl := Option.some.inj hsts
    rw [hnil] at houter
    rw [hnone] at hcur
    obtain rfl : us = [] := houter
    obtain ⟨_, rfl⟩ := hcur
    obtain rfl : ts = vs := by simpa using hts
    exact hspelled
  · exact nomatch hsts

/-- The machine reads exactly the spellings. -/
theorem readAll_complete_iff {ts : List Token} {sts : List Statement} :
    (∃ r, start.readAll ts = .ok r ∧ r.complete? = some sts) ↔ Spelled false sts ts := by
  constructor
  · rintro ⟨r, hr, hsts⟩
    exact spelled_of_readAll hr hsts
  · intro h
    obtain ⟨r, hr, houter, hfin, _, hcur⟩ := h.readAll [] []
    refine ⟨r, hr, ?_⟩
    have hcur := hcur rfl
    rw [finished, hcur] at hfin
    simp only [complete?, houter, hcur]
    exact congrArg some hfin

end Reading
end Stacking
