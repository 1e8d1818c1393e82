import Mathlib.Data.List.DropRight
import Stacking.Proofs.Style.Spans

/-!
# A declaration by itself

The text between the ends of a declaration's span is a declaration by itself: put into the block of
another rule, with nothing around it, it is read as it was in its place
(`Stylesheet.declaration_excerpt`). What followed it there does not matter.

* Pieces that go up to blanks end before a closing brace, where the blanks are left out
  (`Lexeme.chunkRest_clip`).
* A closing brace ends no address, so none comes into being before it
  (`Lexeme.address?_append_closeBrace`).
* The first and the last token of a declaration lose the ignored text and the blanks around the
  declaration, and the others stay as they are (`Token.Lexes.excerpt`).
-/

namespace Stacking

/-! ## Pieces before a closing brace -/

namespace Lexeme

/-- An address that is found before a closing brace is found whatever follows. -/
theorem address?_append_closeBrace {w : Text} {n : Nat} (h : address? (w ++ ['}']) = some n)
    (r : Text) : address? (w ++ r) = some n := by
  refine address?_closedBy.append h ?_ r
  obtain ⟨x, c, rfl, rfl, ⟨v, hv⟩, _⟩ := address?_closedBy _ _ h
  rcases List.eq_nil_or_concat v with rfl | ⟨v, d, rfl⟩
  · exact absurd (List.append_inj_right' hv rfl) (by decide)
  · have hlen := congrArg List.length hv
    simp only [List.length_append, List.length_cons, List.length_nil, List.concat_eq_append] at hlen
    omega

/-- No interpolation that only a closing brace could end starts before blanks or without them. -/
theorem interpolation?_closeBrace {u b : Text} (hne : u ≠ [])
    (h : interpolation? (u ++ b ++ ['}']) = none) : interpolation? (u ++ ['}']) = none := by
  rw [interpolation?.eq_def]
  split
  · rename_i rest heq
    obtain ⟨c, u, rfl⟩ := List.exists_cons_of_ne_nil hne
    cases u with
    | nil => exact absurd (List.cons.inj (List.cons.inj heq).2).1 (by decide)
    | cons d u =>
      simp only [List.cons_append, List.cons.injEq] at heq h
      obtain ⟨rfl, rfl, _⟩ := heq
      exact absurd (by simp) ((interpolation?_open_eq_none _).mp h)
  · rfl

/-- What ends with a mark that is not blank does not reach into blanks. -/
theorem ClosedBy.le_of_blanks {p : Char → Prop} {f : Text → Option Nat} (h : ClosedBy p f)
    (hp : ∀ c, p c → isBlank c = false) {u b r : Text} {n : Nat} (hf : f (u ++ b ++ r) = some n)
    (hb : ∀ c ∈ b, isBlank c = true) (hn : n ≤ (u ++ b).length) : n ≤ u.length := by
  obtain ⟨x, c, hc, rfl, ⟨v, hv⟩, _⟩ := h _ _ hf
  refine Nat.le_of_not_lt fun hlt => ?_
  -- the mark would be one of the blanks
  have hmark : (u ++ b)[x.length]? = some c := by
    have hwhole : (u ++ b ++ r)[x.length]? = some c := by
      rw [hv]
      simp
    rwa [List.getElem?_append_left (by omega)] at hwhole
  rw [List.getElem?_append_right (by omega)] at hmark
  have hblank := hb c (List.mem_of_getElem? hmark)
  rw [hp c hc] at hblank
  exact nomatch hblank

/-- A piece that does not reach beyond the blanks behind `u` ends within `u`, and before a closing
brace in their place it is the same. -/
theorem piece?_clip {u b r : Text} {n : Nat} (hlast : ∃ c ∈ u.getLast?, isBlank c = false)
    (hb : ∀ c ∈ b, isBlank c = true) (h : chunkRest 0 (u ++ b ++ r) = (u ++ b).length)
    (hp : piece? false (u ++ b ++ r) = some n) (hn : n ≤ (u ++ b).length) :
    n ≤ u.length ∧ piece? false (u ++ ['}']) = some n := by
  obtain ⟨last, hlast, hink⟩ := hlast
  have hne : u ≠ [] := by
    rintro rfl
    cases hlast
  have hpos := List.length_pos_iff.mpr hne
  rw [piece?_eq_some_iff]
  rcases piece?_eq_some_iff.mp hp with hq | ha | hi | hs | ⟨hna, hni, hplain⟩ | ⟨hf, hg⟩
  · have hle := quoted?_closedBy.le_of_blanks (by rintro _ (rfl | rfl) <;> decide) hq hb hn
    rw [List.append_assoc] at hq
    exact ⟨hle, Or.inl (quoted?_closedBy.append hq hle _)⟩
  · have hle := address?_closedBy.le_of_blanks (by rintro _ rfl; decide) ha hb hn
    rw [List.append_assoc] at ha
    exact ⟨hle, Or.inr (Or.inl (address?_closedBy.append ha hle _))⟩
  · have hle := interpolation?_closedBy.le_of_blanks (by rintro _ rfl; decide) hi hb hn
    rw [List.append_assoc] at hi
    exact ⟨hle, Or.inr (Or.inr (Or.inl (interpolation?_closedBy.append hi hle _)))⟩
  · obtain ⟨v, hv, rfl, hstar, hslash⟩ := slash?_eq_some hs
    refine ⟨hpos, Or.inr (Or.inr (Or.inr (Or.inl ?_)))⟩
    obtain ⟨c, u, rfl⟩ := List.exists_cons_of_ne_nil hne
    obtain ⟨rfl, rfl⟩ := List.cons.inj hv
    cases u with
    | nil => rfl
    | cons d u =>
      have hd : ¬d = '*' ∧ ¬d = '/' := by simpa using And.intro hstar hslash
      simp [slash?, hd]
  · obtain ⟨c, v, hv, rfl, hdelimiter, hblank⟩ := plain?_eq_some hplain
    refine ⟨hpos, Or.inr (Or.inr (Or.inr (Or.inr (Or.inl ⟨?_, ?_, ?_⟩))))⟩
    · cases ha : address? (u ++ ['}']) with
      | none => rfl
      | some m =>
        rw [List.append_assoc, address?_append_closeBrace ha] at hna
        cases hna
    · refine interpolation?_closeBrace hne (b := b) ?_
      exact interpolation?_eq_none_of_cover (by simp [hne]) h hni fun _ => rfl
    · cases u with
      | nil => cases hlast
      | cons d u => exact hplain
  · obtain ⟨b', c, v, hv, hne', hb', hc, rfl, hmark⟩ := gap?_eq_some hg
    -- the gap ends before the last character of `u`, which is not blank
    rw [List.append_assoc] at hv
    rcases List.append_eq_append_iff.mp hv with ⟨a, rfl, _⟩ | ⟨a, rfl, ha⟩
    · have hblank := hb' last (List.mem_append_left a (List.mem_of_getLast? hlast))
      rw [hink] at hblank
      cases hblank
    · cases a with
      | nil =>
        rw [List.append_nil] at hlast
        rw [hb' last (List.mem_of_getLast? hlast)] at hink
        cases hink
      | cons d a =>
        obtain ⟨rfl, _⟩ := List.cons.inj ha
        refine ⟨by simp, Or.inr (Or.inr (Or.inr (Or.inr (Or.inr ⟨hf, ?_⟩))))⟩
        rw [List.append_assoc, List.cons_append, gap?_blanks hne' hb' hc, if_neg hmark]

/-- Pieces that cover `u` and the blanks behind it cover `u` before a closing brace. -/
theorem chunkRest_clip {u b r : Text} (hlast : ∃ c ∈ u.getLast?, isBlank c = false)
    (hb : ∀ c ∈ b, isBlank c = true) (h : chunkRest 0 (u ++ b ++ r) = (u ++ b).length) :
    chunkRest 0 (u ++ ['}']) = u.length := by
  induction hl : u.length using Nat.strongRecOn generalizing u with
  | ind l ih =>
    have hne : u ≠ [] := by
      rintro rfl
      obtain ⟨_, hnil, _⟩ := hlast
      exact nomatch hnil
    obtain ⟨n, hp, hpos, hle, hrest⟩ := exists_piece_of_chunkRest (by simp [hne]) h
    obtain ⟨hle', hp'⟩ := piece?_clip hlast hb h hp hle
    rw [chunkRest_of_some hp', List.drop_append_of_le_length hle']
    rw [List.drop_append_of_le_length hle'] at hrest
    by_cases hn : n = u.length
    · subst hn
      rw [List.drop_length, List.nil_append, chunkRest_of_none rfl]
      omega
    · have hdrop : (u.drop n).length = l - n := by rw [List.length_drop, hl]
      rw [ih (l - n) (by omega) (u := u.drop n) ?_ hrest hdrop]
      · omega
      · obtain ⟨c, hc, hink⟩ := hlast
        exact ⟨c, by rwa [List.getLast?_drop, if_neg (by omega)], hink⟩

/-- Where a chunk stops behind blanks it stops in front of them, unless there is nothing else. -/
theorem Stops.of_append_blanks {z b : Text} (h : Stops (z ++ b)) (hb : ∀ c ∈ b, isBlank c = true)
    (hz : ∃ c ∈ z, isBlank c = false) : Stops z := by
  obtain ⟨e, he, hink⟩ := hz
  have hmark : ∀ c ∈ b, isBlank c ≠ false := fun c hc => by simp [hb c hc]
  rcases h with ⟨c, v, hv, hc⟩ | ⟨c, v, hv, hc⟩ | ⟨b', c, v, hv, hne, hb', hc⟩
  · cases z with
    | nil => exact nomatch he
    | cons d z =>
      obtain ⟨rfl, _⟩ := List.cons.inj hv
      exact Or.inl ⟨d, z, rfl, hc⟩
  · match z, he with
    | [d], _ =>
      obtain ⟨rfl, rfl⟩ := List.cons.inj hv
      exact absurd (by rcases hc with rfl | rfl <;> decide) (hmark c List.mem_cons_self)
    | d :: d' :: z, _ =>
      simp only [List.cons_append, List.cons.injEq] at hv
      obtain ⟨rfl, rfl, _⟩ := hv
      exact Or.inr (Or.inl ⟨d', z, rfl, hc⟩)
  · have hblank : e ∉ b' := fun he' => by simp [hb' e he'] at hink
    rcases List.append_eq_append_iff.mp hv with ⟨a, rfl, _⟩ | ⟨a, rfl, ha⟩
    · exact absurd (List.mem_append_left a he) hblank
    · cases a with
      | nil => exact absurd (by simpa using he) hblank
      | cons d a =>
        obtain ⟨rfl, _⟩ := List.cons.inj ha
        exact Or.inr (Or.inr ⟨b', c, a, rfl, hne, hb', hc⟩)

end Lexeme

/-! ## Tokens before a closing brace -/

namespace Token

/-- The token without the blanks at its end. -/
def clipped (t : Token) : Token := { t with text := t.content }

@[simp] theorem content_clipped (t : Token) : t.clipped.content = t.content := by
  simp only [clipped, content, Text.trimEnd, Text.dropEndWhile, List.reverse_reverse,
    List.dropWhile_idempotent]

/-- The last token of a prelude is a chunk or a closing parenthesis. -/
theorem kind_of_parens_concat {ts : List Token} {t : Token} (h : parens 0 (ts ++ [t]) = some 0) :
    t.kind = .chunk ∨ t.kind = .closeParen := by
  rw [parens_append, Option.bind_eq_some_iff] at h
  obtain ⟨depth, _, ht⟩ := h
  cases hk : t.kind <;> simp_all [parens]

/-- A text in which an address cannot be found is none before a closing brace. -/
theorem Unaddressed.closeBrace {ts : List Token} {z r : Text} (h : Unaddressed ts (z ++ r)) :
    Unaddressed ts (z ++ ['}']) := by
  induction ts with
  | nil => trivial
  | cons t ts ih =>
    refine ⟨fun hkind hurl => ?_, ih h.2⟩
    have hnone := h.1 hkind hurl
    cases ha : Lexeme.address? (addressWord ++ (source ts ++ (z ++ ['}']))) with
    | none => rfl
    | some n =>
      have hassoc : ∀ v, addressWord ++ (source ts ++ (z ++ v)) =
          (addressWord ++ (source ts ++ z)) ++ v := by simp
      rw [hassoc] at ha hnone
      rw [Lexeme.address?_append_closeBrace ha] at hnone
      exact nomatch hnone

/-- A token's content starts as the token does. -/
theorem Lexes.content_eq_cons {t : Token} {ts : List Token} {rest : Text}
    (h : Lexes (t :: ts) rest) :
    ∃ c x y, t.content = c :: x ∧ t.text = c :: y ∧ isBlank c = false := by
  obtain ⟨c, y, hy, hc⟩ := h.text_ne_nil
  obtain ⟨_, hlast, _⟩ := exists_content_last h
  cases hcontent : t.content with
  | nil =>
    rw [hcontent] at hlast
    exact nomatch hlast
  | cons d x =>
    have htext := t.content_append.1
    rw [hcontent, hy] at htext
    obtain ⟨rfl, _⟩ := List.cons.inj htext
    exact ⟨c, x, y, rfl, hy, hc⟩

/-- The last token of a prelude is one before a closing brace too, without the blanks at its end. -/
theorem Lexes.clipped {t : Token} {rest : Text} (h : Lexes [t] rest)
    (hkind : t.kind = .chunk ∨ t.kind = .closeParen) : Lexes [t.clipped] ['}'] := by
  have htok : Lexeme.token? (t.content ++ ['}']) = some (t.kind, t.content.length) := by
    rcases hkind with hkind | hkind
    · obtain ⟨htext, hblank⟩ := t.content_append
      obtain ⟨c, x, y, hx, hy, hc⟩ := h.content_eq_cons
      have hcover := h.chunkRest hkind
      rw [source_nil, List.nil_append, htext] at hcover
      have hclip := Lexeme.chunkRest_clip (exists_content_last h) hblank hcover
      have hchunk := h.2.1
      rw [hy, List.cons_append, hkind, Lexeme.token?_eq_some_iff] at hchunk
      rw [hx, List.cons_append] at hclip ⊢
      rw [hkind, Lexeme.token?_eq_some_iff]
      rcases hchunk with ⟨hdelimiter, _⟩ | ⟨hkeyword, _⟩ | ⟨_, hdelimiter, hat, _⟩
      · simp [TokenKind.ofDelimiter?_eq_some] at hdelimiter
      · cases hkeyword
      · exact Or.inr (Or.inr ⟨rfl, hdelimiter, hat, hc, hclip, by simp⟩)
    · have hparen : t.text = [')'] := h.text_of_delimiter (by rw [hkind]; rfl)
      rw [hkind, content, hparen]
      decide
  exact ⟨h.1, htok, trivial⟩

/-- The tokens of a prelude are the same before a closing brace, without the blanks at their end. -/
theorem Lexes.excerpt {ts : List Token} {t : Token} {rest : Text}
    (h : Lexes (ts ++ [t]) rest) (hparens : parens 0 (ts ++ [t]) = some 0) :
    Lexes (ts ++ [t.clipped]) ['}'] := by
  obtain ⟨hts, ht⟩ := Lexes.append.mp h
  obtain ⟨htext, hblank⟩ := t.content_append
  obtain ⟨c, x, _, hx, _, hc⟩ := ht.content_eq_cons
  have hsource : source [t] = (t.lead ++ t.content) ++ t.trailing := by
    rw [source_cons, source_nil, List.append_nil, List.append_assoc, ← htext]
  have hclipped : source [t.clipped] = t.lead ++ t.content := by simp [Token.clipped]
  rw [hsource, List.append_assoc] at hts
  refine Lexes.append.mpr ⟨?_, ht.clipped (kind_of_parens_concat hparens)⟩
  rw [hclipped]
  refine hts.relay_before (fun u hu => Or.inr ⟨by simp [hx], fun hchunk => ?_⟩)
    hts.unaddressed.closeBrace fun us vs hsplit hhead => ?_
  · -- a chunk in front of the last token stops before it
    obtain ⟨us, rfl⟩ := List.getLast?_eq_some_iff.mp hu
    rw [List.append_assoc] at h
    have hstops := (Lexes.append.mp h).2.stops_of_chunk hchunk
    rw [hsource] at hstops
    exact hstops.of_append_blanks hblank ⟨c, by simp [hx], hc⟩
  · -- no token of a prelude is a brace
    subst hsplit
    rw [List.append_assoc] at h
    have hbrace : (source (vs ++ [t])).head? = some '{' := by
      rw [source_append, hsource, ← List.append_assoc, List.head?_append, hhead]
      rfl
    have hvs := (Lexes.append.mp h).2
    obtain ⟨v, ws, hv⟩ := List.exists_cons_of_ne_nil (l := vs ++ [t]) (by simp)
    rw [hv] at hvs hbrace
    have hkind := hvs.kind_of_head (c := '{') rfl hbrace
    have hboundary := isBoundary_of_parens hparens v (by rw [List.append_assoc, hv]; simp)
    rw [hkind] at hboundary
    exact nomatch hboundary

/-! ## The same tokens in another text -/

/-- The tokens, starting where they stand in a text of their own that starts at `place`. -/
def settled (place : SourcePosition) : List Token → List Token
  | [] => []
  | t :: ts =>
    { t with start := place.advance t.lead } ::
      settled ((place.advance t.lead).advance t.text) ts

@[simp] theorem source_settled (place : SourcePosition) (ts : List Token) :
    source (settled place ts) = source ts := by
  induction ts generalizing place with
  | nil => rfl
  | cons t ts ih => rw [settled, source_cons, source_cons, ih]

theorem settled_append (place : SourcePosition) (ts us : List Token) :
    settled place (ts ++ us) = settled place ts ++ settled (place.advance (source ts)) us := by
  induction ts generalizing place with
  | nil => rfl
  | cons t ts ih =>
    rw [List.cons_append, settled, settled, ih, source_cons, SourcePosition.advance_append,
      SourcePosition.advance_append, List.cons_append]

theorem placed_settled (place : SourcePosition) (ts : List Token) :
    Placed place (settled place ts) := by
  induction ts generalizing place with
  | nil => trivial
  | cons t ts ih => exact ⟨rfl, ih _⟩

theorem lexes_settled {ts : List Token} {rest : Text} (h : Lexes ts rest)
    (place : SourcePosition) : Lexes (settled place ts) rest := by
  induction ts generalizing place with
  | nil => trivial
  | cons t ts ih => exact ⟨h.1, by rw [source_settled]; exact h.2.1, ih h.2.2 _⟩

theorem parens_settled (place : SourcePosition) (depth : Nat) (ts : List Token) :
    parens depth (settled place ts) = parens depth ts := by
  induction ts generalizing place depth with
  | nil => rfl
  | cons t ts ih => simp only [settled, parens, ih]

theorem textAfter_settled (place : SourcePosition) (trailing : Text) (ts : List Token) :
    Prelude.textAfter trailing (settled place ts) = Prelude.textAfter trailing ts := by
  induction ts generalizing place trailing with
  | nil => rfl
  | cons t ts ih =>
    rw [settled, Prelude.textAfter, Prelude.textAfter, ih]
    rfl

@[simp] theorem text_settled (place : SourcePosition) (ts : List Token) :
    Prelude.text (settled place ts) = Prelude.text ts := by
  cases ts with
  | nil => rfl
  | cons t ts =>
    rw [settled, Prelude.text, Prelude.text, textAfter_settled]
    rfl

/-- Tokens that cut a text by themselves are what its scan finds. -/
theorem ofText_source {ts : List Token} (h : Lexes ts []) :
    Scan.ofText (source ts) = ⟨settled .first ts, .complete⟩ := by
  have hnil : Scan.go (SourcePosition.first.advance (source (settled .first ts))) [] 0 [] =
      ⟨[], .complete⟩ := rfl
  have hscan := Scan.go_append (lexes_settled h .first) (placed_settled .first ts) hnil
  rwa [source_settled, List.append_nil, List.append_nil] at hscan

/-! ## Without the blanks around it -/

theorem parens_clipped (depth : Nat) (ts : List Token) (t : Token) :
    parens depth (ts ++ [t.clipped]) = parens depth (ts ++ [t]) := by
  rw [parens_append, parens_append]
  rfl

theorem textAfter_clipped (trailing : Text) (ts : List Token) (t : Token) :
    Prelude.textAfter trailing (ts ++ [t.clipped]) = Prelude.textAfter trailing (ts ++ [t]) := by
  induction ts generalizing trailing with
  | nil =>
    simp only [List.nil_append, Prelude.textAfter, content_clipped]
    rfl
  | cons u ts ih =>
    rw [List.cons_append, List.cons_append, Prelude.textAfter, Prelude.textAfter, ih]

theorem text_clipped (ts : List Token) (t : Token) :
    Prelude.text (ts ++ [t.clipped]) = Prelude.text (ts ++ [t]) := by
  cases ts with
  | nil => simp only [List.nil_append, Prelude.text, Prelude.textAfter, content_clipped]
  | cons u ts =>
    rw [List.cons_append, List.cons_append, Prelude.text, Prelude.text, textAfter_clipped]

/-- Without the blanks at their end, tokens are their contents with the gaps between them. -/
theorem source_clipped {ts tail : List Token} {t head : Token} (h : ts ++ [t] = head :: tail) :
    source (ts ++ [t.clipped]) = head.lead ++ Prelude.joined id (head :: tail) := by
  induction ts generalizing head tail with
  | nil =>
    obtain ⟨rfl, rfl⟩ := List.cons.inj h
    simp [Token.clipped, Prelude.joined, Prelude.joinedAfter]
  | cons u ts ih =>
    obtain ⟨rfl, htail⟩ := List.cons.inj h
    obtain ⟨v, vs, hv⟩ := List.exists_cons_of_ne_nil (l := ts ++ [t]) (by simp)
    obtain rfl : v :: vs = tail := hv.symm.trans htail
    rw [List.cons_append, source_cons, ih hv, Prelude.joined_cons_cons]

/-! ## A declaration in a rule of its own -/

/-- The tokens of a rule with a prelude in its block and nothing around it. -/
def inRule (p : List Token) : List Token :=
  ⟨.chunk, [], ['x'], .first⟩ :: ⟨.openBrace, [], ['{'], .first⟩ ::
    (p ++ [⟨.closeBrace, [], ['}'], .first⟩])

theorem source_inRule (p : List Token) :
    source (inRule p) = 'x' :: '{' :: (source p ++ ['}']) := by
  simp [inRule]

theorem lexes_inRule {p : List Token} (h : Lexes p ['}']) : Lexes (inRule p) [] := by
  have hselector : ∀ v, Lexeme.token? ('x' :: '{' :: v) = some (.chunk, 1) := fun v => by
    refine Lexeme.token?_eq_some_iff.mpr
      (Or.inr (Or.inr ⟨rfl, rfl, by decide, by decide, ?_, by decide⟩))
    have hstop : Lexeme.Stops ('{' :: v) := Or.inl ⟨_, _, rfl, by simp⟩
    rw [Lexeme.chunkRest_plain (by decide) (by decide) (Lexeme.address?_cons_of_ne (by decide))
      (Lexeme.interpolation?_cons_of_ne (by decide)),
      Lexeme.chunkRest_of_none hstop.piece?_eq_none]
  have hclose : Lexes [⟨.closeBrace, [], ['}'], .first⟩] [] := ⟨.nil, rfl, trivial⟩
  exact ⟨.nil, hselector _, .nil, rfl, Lexes.append.mpr ⟨by simpa using h, hclose⟩⟩

theorem settled_inRule (p : List Token) :
    ∃ b c place, settled .first (inRule p) =
      ⟨.chunk, [], ['x'], .first⟩ :: ⟨.openBrace, [], ['{'], b⟩ ::
        (settled place p ++ [⟨.closeBrace, [], ['}'], c⟩]) := by
  let b := SourcePosition.first.advance ['x']
  refine ⟨b, (b.advance ['{']).advance (source p), b.advance ['{'], ?_⟩
  rw [inRule, settled, settled, settled_append]
  rfl

end Token

open Token

theorem Opening.Reaches.settled {p : List Token} (h : Reaches ⟨none, p⟩ 0)
    (place : SourcePosition) : Reaches ⟨none, settled place p⟩ 0 where
  parens := (parens_settled place 0 p).trans h.parens
  keyword := nofun
  prelude := fun _ => by
    obtain ⟨t, ts, hp⟩ := List.exists_cons_of_ne_nil (h.prelude rfl)
    have hp : p = t :: ts := hp
    simp [hp, Token.settled]

/-- A rule with the tokens of a declaration in its block parses to a rule with the declaration. -/
theorem Stylesheet.parse_inRule {p : List Token} {d : Declaration} (h : Lexes p ['}'])
    (hp : Opening.Reaches ⟨none, p⟩ 0)
    (hd : ∀ span, Declaration.ofText? (Prelude.text p) span = some { d with span := span }) :
    ∃ rule inner, parse ('x' :: '{' :: (source p ++ ['}'])) =
      .ok ⟨[.block (.selector "x") rule [.declaration { d with span := inner }]]⟩ := by
  have hscan := ofText_source (lexes_inRule h)
  obtain ⟨b, c, place, hsettled⟩ := settled_inRule p
  rw [source_inRule, hsettled] at hscan
  have hprelude := hp.settled place
  have hnode : (Statement.declaration (settled place p)).toNode =
      .ok (.declaration { d with span := some ⟨Prelude.start (settled place p),
        Prelude.stop (settled place p)⟩ }) := by
    rw [Statement.toNode, Declaration.ofPrelude, text_settled, hd]
  have hbody : Spelled true [.declaration (settled place p)] (settled place p) := .last hprelude
  have hselector : Opening.Reaches ⟨none, [⟨.chunk, [], ['x'], .first⟩]⟩ 0 :=
    { parens := rfl
      keyword := fun _ hk => absurd hk (by simp)
      prelude := fun _ => List.cons_ne_nil _ _ }
  have hname : Statement.blockHead none [⟨.chunk, [], ['x'], .first⟩] = .selector "x" := by decide
  refine ⟨some ⟨.first, Token.stop ⟨.closeBrace, [], ['}'], c⟩⟩,
    some ⟨Prelude.start (settled place p), Prelude.stop (settled place p)⟩,
    parse_eq_ok_iff.mpr ⟨_, _, hscan, .block hselector rfl hbody rfl .nil,
      Statement.toNodes_cons.mpr ⟨_, _, ?_, rfl, rfl⟩⟩⟩
  have hnodes : Statement.toNodes [.declaration (settled place p)] = .ok _ :=
    Statement.toNodes_cons.mpr ⟨_, [], hnode, rfl, rfl⟩
  rw [Opening.finishBlock, Statement.toNode, hnodes, hname]
  rfl

/-- The text between the ends of a declaration's span is the declaration by itself: as all that is
in the block of a rule, it parses to the same property and value, and is as important. -/
theorem Stylesheet.declaration_excerpt {t : Text} {s : Stylesheet} {o : Occurrence}
    (h : parse t = .ok s) (ho : o ∈ s.declarations) :
    ∃ span, o.declaration.span = some span ∧
      ∃ rule inner, parse ('x' :: '{' :: (t.stretch (.ofSpan span) ++ ['}'])) =
        .ok ⟨[.block (.selector "x") rule
          [.declaration { o.declaration with span := inner }]]⟩ := by
  rw [declarations_eq_occurrences] at ho
  obtain ⟨site, hsite, _⟩ := Site.exists_of_mem_occurrences ho
  obtain ⟨l⟩ := exists_layout h hsite
  have hspells := l.tokens.spells
  have hparens := l.tokens.reaches.parens
  obtain ⟨⟨rest, hlex⟩, _, hstretch⟩ := Scan.exists_stretch l.scan_text
    (q := l.head :: l.tail) ⟨l.pre, l.sep ++ l.post, by simp⟩ (by simp)
  refine ⟨_, Declaration.ofPrelude_span hspells, ?_⟩
  rw [hstretch]
  -- the ignored text in front of the first token is left out, and the blanks behind the last one
  have hunled : Lexes ({ l.head with lead := [] } :: l.tail) rest := ⟨.nil, hlex.2⟩
  obtain ⟨ts, last, hall⟩ : ∃ ts last, { l.head with lead := [] } :: l.tail = ts ++ [last] := by
    obtain hnil | ⟨ts, last, hall⟩ := List.eq_nil_or_concat ({ l.head with lead := [] } :: l.tail)
    · cases hnil
    · exact ⟨ts, last, by rw [hall, List.concat_eq_append]⟩
  have hparens : parens 0 (ts ++ [last]) = some 0 := by rw [← hall]; exact hparens
  have hsource : source (ts ++ [last.clipped]) = Prelude.joined id (l.head :: l.tail) := by
    rw [source_clipped hall.symm]
    rfl
  rw [hall] at hunled
  rw [← hsource]
  refine parse_inRule (hunled.excerpt hparens)
    ⟨by rw [parens_clipped]; exact hparens, nofun, by simp⟩ fun span => ?_
  rw [text_clipped, ← hall]
  exact (Declaration.ofText?_span (Declaration.ofPrelude_eq_ok hspells)).2 span

theorem Stylesheet.declaration_excerpt_important :
    ∃ (t : Text) (s : Stylesheet) (o : Occurrence) (span : Span) (rule inner : Option Span),
      t = "@m\x7ba:b;c:d(@e) #\x7be\x7d/*;*/\t! Important /**/\r\n\x7d".toList ∧
      parse t = .ok s ∧ o ∈ s.declarations ∧
      o.declaration = ⟨"c", "d(@e) #\x7be\x7d", true, some span⟩ ∧
      parse ('x' :: '{' :: (t.stretch (.ofSpan span) ++ ['}'])) =
        .ok ⟨[.block (.selector "x") rule
          [.declaration ⟨"c", "d(@e) #\x7be\x7d", true, inner⟩]]⟩ := by
  have hparse : (parse
      "@m\x7ba:b;c:d(@e) #\x7be\x7d/*;*/\t! Important /**/\r\n\x7d".toList).toOption.map
        (·.declarations.map (·.declaration)) = some [⟨"a", "b", false, some ⟨⟨1, 4⟩, ⟨1, 7⟩⟩⟩,
          ⟨"c", "d(@e) #\x7be\x7d", true, some ⟨⟨1, 8⟩, ⟨1, 37⟩⟩⟩] := by
    decide +kernel
  obtain ⟨s, hs, hd⟩ := Option.map_eq_some_iff.mp hparse
  have hs := ParseError.eq_ok_of_toOption hs
  obtain ⟨o, ho, hdeclaration⟩ : ∃ o ∈ s.declarations,
      o.declaration = ⟨"c", "d(@e) #\x7be\x7d", true, some ⟨⟨1, 8⟩, ⟨1, 37⟩⟩⟩ :=
    List.mem_map.mp (by rw [hd]; simp)
  obtain ⟨span, hspan, rule, inner, hexcerpt⟩ := declaration_excerpt hs ho
  rw [hdeclaration] at hspan hexcerpt
  obtain rfl := Option.some.inj hspan
  exact ⟨_, s, o, _, rule, inner, rfl, hs, ho, hdeclaration, hexcerpt⟩

end Stacking
