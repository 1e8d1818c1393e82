import Stacking.Proofs.Style.Derived

/-!
# Starts of sentences

The machine that groups tokens into statements reads exactly the tokens that some sentence of the
grammar starts with (`viable_iff_readAll`), so the first token that it rejects is the first one with
which no sentence goes on.

What has been read is completed by closing what is open: the parentheses of the current statement,
the statement itself, and the blocks around it (`Reading.Spells.exists_completion`).
-/

namespace Stacking

/-- The tokens derive from the start of the grammar. -/
def Sentence (ls : List Leaf) : Prop := ∃ tree : ParseTree, tree.Derives .start ls

/-- Some sentence starts with the tokens. -/
def Viable (ls : List Leaf) : Prop := ∃ more, Sentence (ls ++ more)

theorem sentence_iff_spelled {ts : List Token} :
    Sentence (ts.map Token.leaf) ↔ ∃ sts, Spelled false sts ts := by
  constructor
  · rintro ⟨tree, htree⟩
    obtain ⟨sts, hsts, _⟩ := htree.exists_spelled
    exact ⟨sts, hsts⟩
  · rintro ⟨sts, hsts⟩
    exact hsts.exists_derives

/-! ## Closing what is open -/

/-- A delimiter without a place. -/
def Token.bare (kind : TokenKind) : Token := ⟨kind, [], [], .first⟩

/-- Closing parentheses and a semicolon end a statement. -/
theorem Opening.Reaches.exists_ended {o : Opening} {depth : Nat} (h : o.Reaches depth) :
    ∃ sts, Spelled false sts
      (o.tokens ++ (List.replicate depth (Token.bare .closeParen) ++ [Token.bare .semicolon])) := by
  induction depth generalizing o with
  | zero => exact ⟨_, .ended h rfl .nil⟩
  | succ depth ih =>
    have hclose : Token.parens (depth + 1) [Token.bare .closeParen] = some depth := rfl
    obtain ⟨sts, hsts⟩ := ih (h.concat hclose)
    exact ⟨sts, by simpa [Opening.tokens, List.replicate_succ] using hsts⟩

namespace Reading

theorem Begun.exists_ended {current : Option Opening} {depth : Nat} {ws : List Token}
    (h : Begun current depth ws) :
    ∃ more sts, Spelled false sts (ws ++ more) := by
  cases current with
  | none =>
    obtain ⟨_, rfl⟩ := h
    exact ⟨[], [], .nil⟩
  | some o =>
    obtain ⟨ho, rfl⟩ := h
    obtain ⟨sts, hsts⟩ := ho.exists_ended
    exact ⟨_, sts, hsts⟩

/-- One closing brace for each open block ends the blocks. -/
theorem OpenedBy.exists_closed {outer : List OpenBlock} {us ts : List Token}
    {sts : List Statement} (h : OpenedBy outer us) (hsts : Spelled false sts ts) :
    ∃ sts', Spelled false sts'
      (us ++ (ts ++ List.replicate outer.length (Token.bare .closeBrace))) := by
  induction outer generalizing us ts sts with
  | nil =>
    obtain rfl : us = [] := h
    exact ⟨sts, by simpa using hsts⟩
  | cons b outer ih =>
    obtain ⟨us, vs, brace, rfl, houter, hbefore, hhead, hbrace⟩ := h
    have hblock : Spelled false [b.head.finishBlock sts (Token.bare .closeBrace)]
        (b.head.tokens ++ brace :: (ts ++ [Token.bare .closeBrace])) :=
      .block hhead hbrace hsts.weaken rfl .nil
    obtain ⟨sts', hsts'⟩ := ih houter (hbefore.append hblock)
    exact ⟨sts', by simpa [List.replicate_succ] using hsts'⟩

/-- What has been read can be completed. -/
theorem Spells.exists_completion {r : Reading} {ts : List Token} (h : Spells r ts) :
    ∃ more sts, Spelled false sts (ts ++ more) := by
  obtain ⟨us, vs, ws, rfl, houter, hsts, hcur⟩ := h
  obtain ⟨more, sts, hended⟩ := hcur.exists_ended
  obtain ⟨sts', hsts'⟩ := houter.exists_closed (hsts.append hended)
  exact ⟨_, sts', by simpa using hsts'⟩

end Reading

/-! ## What is read starts a sentence -/

/-- A token of the kind and with the text of a leaf. -/
def Leaf.token (l : Leaf) : Token := ⟨l.kind, [], l.text, .first⟩

theorem Leaf.map_leaf_token (ls : List Leaf) : (ls.map token).map Token.leaf = ls := by
  rw [List.map_map]
  exact List.map_id ls

/-- The machine reads exactly the tokens that a sentence starts with. -/
theorem viable_iff_readAll {ts : List Token} :
    Viable (ts.map Token.leaf) ↔ ∃ r, Reading.start.readAll ts = .ok r := by
  constructor
  · rintro ⟨more, htree⟩
    rw [← Leaf.map_leaf_token more, ← List.map_append] at htree
    obtain ⟨sts, hsts⟩ := sentence_iff_spelled.mp htree
    obtain ⟨r, hr, _⟩ := Reading.readAll_complete_iff.mpr hsts
    rw [Reading.readAll_append] at hr
    cases hstart : Reading.start.readAll ts with
    | error t =>
      rw [hstart] at hr
      exact nomatch hr
    | ok r' => exact ⟨r', rfl⟩
  · rintro ⟨r, hr⟩
    obtain ⟨more, sts, hsts⟩ := (Reading.spells_start.readAll hr).exists_completion
    refine ⟨more.map Token.leaf, ?_⟩
    rw [← List.map_append]
    exact sentence_iff_spelled.mpr ⟨sts, hsts⟩

namespace Reading

/-- The machine stops at the first token with which no sentence goes on. -/
theorem readAll_eq_error {r : Reading} {ts : List Token} {t : Token}
    (h : r.readAll ts = .error t) :
    ∃ us vs r', ts = us ++ t :: vs ∧ r.readAll us = .ok r' ∧
      r.readAll (us ++ [t]) = .error t := by
  induction ts generalizing r with
  | nil => exact nomatch h
  | cons u ts ih =>
    rw [readAll] at h
    split at h
    · rename_i hread
      obtain rfl := Except.error.inj h
      exact ⟨[], ts, r, rfl, rfl, by simp [readAll, hread]⟩
    · rename_i r₁ hread
      obtain ⟨us, vs, r', rfl, hus, ht⟩ := ih h
      refine ⟨u :: us, vs, r', rfl, ?_, ?_⟩
      · rw [readAll, hread]
        exact hus
      · rw [List.cons_append, readAll, hread]
        exact ht

/-- The tokens before the first one that is rejected start a sentence, and with it they do not. -/
theorem viable_of_readAll_eq_error {ts : List Token} {t : Token}
    (h : start.readAll ts = .error t) :
    ∃ us vs, ts = us ++ t :: vs ∧ Viable (us.map Token.leaf) ∧
      ¬Viable (us.map Token.leaf ++ [t.leaf]) := by
  obtain ⟨us, vs, r, rfl, hus, ht⟩ := readAll_eq_error h
  refine ⟨us, vs, rfl, viable_iff_readAll.mpr ⟨r, hus⟩, ?_⟩
  rw [← List.map_singleton, ← List.map_append, viable_iff_readAll, ht]
  exact nofun

end Reading
end Stacking
