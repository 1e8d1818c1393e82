import Stacking.Proofs.Style.Splice

/-!
# Texts one after the other

Two texts that parse may be put one after the other with a line feed between them. Nothing that the
first one ends with goes on over the line feed, so the whole parses to the nodes of both, those of
the second one moved down (`Stylesheet.parse_append`).

* A comment at the end of the first text ends with its line (`Scan.ignorable_of_complete`).
* An unquoted address may go on over a line feed only if a closing parenthesis is the next thing
  behind it (`Lexeme.address?_lineFeed`), and no text that parses starts with one.
* Every brace of the first text is closed in it, so no interpolation goes on
  (`Reading.exists_closeBrace`).
-/

namespace Stacking

open Token

/-! ## Places in lower lines -/

/-- The place a number of lines further down. -/
def SourcePosition.below (n : Nat) (p : SourcePosition) : SourcePosition := ⟨p.line + n, p.column⟩

/-- The span a number of lines further down. -/
def Span.below (n : Nat) : Span → Span := Span.carried (.below n) (.below n)

namespace SourcePosition

theorem advance_below (n : Nat) (p : SourcePosition) (w : Text) :
    (p.below n).advance w = (p.advance w).below n := by
  induction w generalizing p with
  | nil => rfl
  | cons c w ih =>
    have hnext : (p.below n).next c = (p.next c).below n := by
      unfold next below
      split
      · simp only [SourcePosition.mk.injEq, and_true]
        omega
      · rfl
    rw [advance, advance, List.foldl_cons, List.foldl_cons, hnext]
    exact ih (p.next c)

/-- Behind a text and a line feed, a text starts as many lines further down as the first one has. -/
theorem first_advance_lineFeed (t : Text) :
    first.advance (t ++ ['\n']) = first.below t.lineCount := by
  obtain ⟨ls, l, m, ms, hcut⟩ := Text.exists_cut t []
  have hcount := hcut.lineCount
  have hlines : t.lines = ls ++ [l] := hcut.left
  rw [advance_append, Text.advance_eq_of_lines hlines, Text.lineCount, hlines]
  simp [advance, next, first, below]
  omega

end SourcePosition

/-! ## Nothing goes on over the line feed -/

/-- Ignored text at the end of a text may be passed over with a line feed behind it. -/
theorem Scan.ignorable_of_complete {place : SourcePosition} {lead w : Text}
    (h : go place lead 0 w = ⟨[], .complete⟩) : Ignorable (w ++ ['\n']) := by
  induction hl : w.length using Nat.strongRecOn generalizing place lead w with
  | ind l ih =>
    cases hign : Lexeme.ignored? w with
    | some n =>
      obtain ⟨hpos, _⟩ := Lexeme.ignored?_le_length hign
      obtain ⟨x, v, rfl, rfl, hx⟩ := Lexeme.ignored?_eq_some hign
      rw [go_ignored place lead hign, List.drop_left] at h
      have hrest : Ignorable (v ++ ['\n']) :=
        ih v.length (by rw [List.length_append] at hl; omega) h rfl
      rw [List.append_assoc]
      rcases hx with hx | ⟨y, rfl, hy⟩ | ⟨y, rfl, hy, rfl | ⟨v, rfl⟩⟩
      · exact (Ignorable.of_spaces hx).append hrest
      · exact .comment hy hrest
      · exact .line hy hrest
      · exact .line hy hrest
    | none =>
      cases htok : Lexeme.token? w with
      | some found =>
        rw [go_token place lead htok] at h
        cases h
      | none =>
        cases w with
        | nil => exact .space (by decide) .nil
        | cons c w =>
          rw [go, hign, htok] at h
          cases h

namespace Lexeme

theorem addressRest?_lineFeed {y u : Text} {n : Nat} (h : addressRest? (y ++ '\n' :: u) = some n)
    (hn : y.length < n) : ∃ b v, u = b ++ ')' :: v ∧ ∀ c ∈ b, isBlank c = true := by
  induction y using addressRest?.induct generalizing n with
  | case1 =>
    rw [List.nil_append, addressRest?.eq_def] at h
    dsimp only at h
    rw [if_neg (by decide), if_pos (by decide)] at h
    obtain ⟨b, v, hu, hb, _⟩ := addressEnd?_eq_some h
    cases b with
    | nil => exact absurd (List.cons.inj hu).1 (by decide)
    | cons c b => exact ⟨b, v, (List.cons.inj hu).2, fun d hd => hb d (List.mem_cons_of_mem c hd)⟩
  | case2 => cases h
  | case3 rest => cases h
  | case4 d rest hd ih =>
    simp only [List.cons_append, addressRest?, if_true, if_neg hd, Option.map_eq_some_iff] at h
    obtain ⟨m, hm, rfl⟩ := h
    exact ih hm (by simpa using hn)
  | case5 c rest hb hend =>
    rw [List.cons_append, addressRest?.eq_def] at h
    simp only [if_neg hb, if_pos hend] at h
    obtain ⟨b, v, hu, hblank, rfl⟩ := addressEnd?_eq_some h
    rw [← List.cons_append] at hu
    -- the blanks at the end of the address reach over the line feed
    obtain ⟨b', rfl, hrest⟩ : ∃ b', b = c :: rest ++ b' ∧ '\n' :: u = b' ++ ')' :: v := by
      rcases List.append_eq_append_iff.mp hu with hover | ⟨b', hc, hrest⟩
      · exact hover
      · have hlen := congrArg List.length hc
        rw [List.length_append] at hlen
        obtain rfl : b' = [] := List.eq_nil_of_length_eq_zero (by omega)
        exact absurd (List.cons.inj hrest).1 (by decide)
    cases b' with
    | nil => exact absurd (List.cons.inj hrest).1 (by decide)
    | cons e b' =>
      exact ⟨b', v, (List.cons.inj hrest).2, fun d hd => hblank d (by simp [hd])⟩
  | case6 c rest hb hend hbad =>
    rw [List.cons_append, addressRest?.eq_def] at h
    simp only [if_neg hb, if_neg hend, if_pos hbad] at h
    cases h
  | case7 c rest hb hend hbad ih =>
    rw [List.cons_append, addressRest?.eq_def] at h
    simp only [if_neg hb, if_neg hend, if_neg hbad, Option.map_eq_some_iff] at h
    obtain ⟨m, hm, rfl⟩ := h
    exact ih hm (by simpa using hn)

/-- An address that has begun goes on over a line feed only to a closing parenthesis behind
blanks. -/
theorem address?_lineFeed {y u : Text} {n : Nat}
    (h : address? (addressWord ++ '(' :: (y ++ '\n' :: u)) = some n)
    (hn : addressWord.length + 1 + y.length < n) (hy : ∃ c ∈ y, isBlank c = false) :
    ∃ b v, u = b ++ ')' :: v ∧ ∀ c ∈ b, isBlank c = true := by
  obtain ⟨b, x, rfl, hb, hx, _⟩ := exists_blanks y
  -- the address starts in front of the line feed
  have hhead : ∀ d ∈ (x ++ '\n' :: u).head?, isBlank d = false := by
    cases x with
    | nil =>
      obtain ⟨c, hc, hcb⟩ := hy
      rw [List.append_nil] at hc
      rw [hb c hc] at hcb
      exact nomatch hcb
    | cons d x => exact hx
  have hrest : (addressRest? (x ++ '\n' :: u)).map (· + (b.length + 4)) = some n := by
    have h' : (addressRest? ((b ++ (x ++ '\n' :: u)).drop (blanks (b ++ (x ++ '\n' :: u))))).map
        (· + (blanks (b ++ (x ++ '\n' :: u)) + 4)) = some n := by
      rw [← List.append_assoc]
      exact h
    rwa [blanks_append hb hhead, List.drop_left] at h'
  obtain ⟨m, hm, rfl⟩ := Option.map_eq_some_iff.mp hrest
  refine addressRest?_lineFeed hm ?_
  simp only [addressWord, List.length_cons, List.length_nil, List.length_append] at hn
  omega

end Lexeme

/-- A boundary is a character that is neither blank nor a parenthesis. -/
theorem Token.Lexes.exists_boundary_char {t : Token} {ts : List Token} {rest : Text}
    (h : Lexes (t :: ts) rest) (hb : t.kind.isBoundary = true) :
    ∃ c ∈ t.text, isBlank c = false ∧ c ≠ '(' := by
  cases hk : t.kind with
  | openBrace => exact ⟨'{', by simp [h.text_of_delimiter (c := '{') (by rw [hk]; rfl)], by decide⟩
  | closeBrace => exact ⟨'}', by simp [h.text_of_delimiter (c := '}') (by rw [hk]; rfl)], by decide⟩
  | semicolon => exact ⟨';', by simp [h.text_of_delimiter (c := ';') (by rw [hk]; rfl)], by decide⟩
  | chunk | atKeyword | openParen | closeParen => simp [hk, TokenKind.isBoundary] at hb

/-- Where statements end, no address comes into being over a line feed, unless a closing parenthesis
is the next thing behind it. -/
theorem Token.Lexes.unaddressed_lineFeed {ts : List Token} {w u : Text} (h : Lexes ts w)
    (hends : EndsStatement ts)
    (hu : ∀ b v, u = b ++ ')' :: v → ¬∀ c ∈ b, isBlank c = true) :
    Unaddressed ts (w ++ '\n' :: u) := by
  induction ts with
  | nil => trivial
  | cons t ts ih =>
    have hends' : EndsStatement ts := by
      cases ts with
      | nil => exact nofun
      | cons v vs => exact fun x hx => hends x (by simpa using hx)
    refine ⟨fun hkind hurl => ?_, ih h.2.2 hends'⟩
    cases haddr : Lexeme.address? (addressWord ++ (source ts ++ (w ++ '\n' :: u))) with
    | none => rfl
    | some n =>
      have hnone := h.unaddressed.1 hkind hurl
      -- the address ends behind the line feed, or it would have been one before
      have hlong : addressWord.length + (source ts ++ w).length < n := by
        refine Nat.lt_of_not_le fun hle => ?_
        have hassoc : addressWord ++ (source ts ++ (w ++ '\n' :: u)) =
            (addressWord ++ (source ts ++ w)) ++ '\n' :: u := by simp
        rw [hassoc] at haddr
        have hsame := Lexeme.address?_closedBy.append haddr (by simpa using hle) []
        rw [List.append_nil, hnone] at hsame
        exact nomatch hsame
      -- the boundary at the end is part of it
      obtain ⟨x, hx⟩ : ∃ x, ts.getLast? = some x := by
        cases hlast : ts.getLast? with
        | some x => exact ⟨x, rfl⟩
        | none =>
          rw [List.getLast?_eq_none_iff] at hlast
          have hboundary := hends t (by simp [hlast])
          rw [hkind] at hboundary
          exact nomatch hboundary
      obtain ⟨us, rfl⟩ := List.getLast?_eq_some_iff.mp hx
      obtain ⟨c, hc, hcb, hparen⟩ :=
        Lexes.exists_boundary_char (Lexes.append.mp h.2.2).2 (hends' x hx)
      obtain ⟨rest, hrest⟩ := Lexeme.address?_eq_some haddr
      have hrest : source (us ++ [x]) ++ (w ++ '\n' :: u) = '(' :: rest := by
        simpa [addressWord] using hrest
      have hsource : c ∈ source (us ++ [x]) := by simp [hc]
      obtain ⟨d, y, hy⟩ := List.exists_cons_of_ne_nil (List.ne_nil_of_mem hsource)
      obtain ⟨rfl, _⟩ := List.cons.inj (hy ▸ hrest)
      rw [hy] at haddr hlong hsource
      have hmem : c ∈ y := (List.mem_cons.mp hsource).resolve_left hparen
      obtain ⟨b, v, hbv, hb⟩ := Lexeme.address?_lineFeed (y := y ++ w) (u := u) (n := n)
        (by simpa using haddr)
        (by simp only [List.length_append, List.length_cons] at hlong ⊢; omega)
        ⟨c, List.mem_append_left w hmem, hcb⟩
      exact absurd hb (hu b v hbv)

/-- A block that is open is closed by a brace before all blocks are. -/
theorem Reading.exists_closeBrace {r r' : Reading} {ts : List Token} (h : r.readAll ts = .ok r')
    (hlt : r'.outer.length < r.outer.length) : ∃ t ∈ ts, t.kind = .closeBrace := by
  induction ts generalizing r with
  | nil =>
    obtain rfl := Except.ok.inj h
    exact absurd hlt (Nat.lt_irrefl _)
  | cons t ts ih =>
    rw [readAll] at h
    split at h
    · cases h
    · rename_i r₁ hread
      have hopen : t.kind = .closeBrace ∨ r.outer.length ≤ r₁.outer.length := by
        rcases read_eq_some hread with ⟨_, _, rfl⟩ | ⟨_, _, _, rfl⟩ | ⟨_, _, rfl⟩ |
          ⟨_, _, _, _, rfl⟩ | ⟨_, _, hk, _⟩
        · exact Or.inr (by simp)
        · exact Or.inr (Nat.le_refl _)
        · exact Or.inr (Nat.le_refl _)
        · exact Or.inr (by simp)
        · exact Or.inl hk
      rcases hopen with hk | hle
      · exact ⟨t, List.mem_cons_self, hk⟩
      · obtain ⟨u, hu, hk⟩ := ih h (by omega)
        exact ⟨u, List.mem_cons_of_mem t hu, hk⟩

/-- Behind every opening brace of a text that parses there is a closing one. -/
theorem Spelled.exists_closeBrace {sts : List Statement} {us vs : List Token} {brace : Token}
    (h : Spelled false sts (us ++ brace :: vs)) (hk : brace.kind = .openBrace) :
    ∃ t ∈ vs, t.kind = .closeBrace := by
  obtain ⟨r, hr, hcomplete⟩ := Reading.readAll_complete_iff.mpr h
  rw [Reading.readAll_append] at hr
  cases hus : Reading.start.readAll us with
  | error t =>
    rw [hus] at hr
    cases hr
  | ok r₁ =>
    rw [hus, Except.bind, Reading.readAll] at hr
    split at hr
    · cases hr
    · rename_i r₂ hread
      refine Reading.exists_closeBrace hr ?_
      have houter : r.outer = [] := by
        unfold Reading.complete? at hcomplete
        split at hcomplete
        · assumption
        · cases hcomplete
      have hopened : 0 < r₂.outer.length := by
        rcases Reading.read_eq_some hread with ⟨_, ht, _⟩ | ⟨hk', _⟩ | ⟨hk', _⟩ |
          ⟨_, _, _, _, rfl⟩ | ⟨_, _, hk', _⟩
        · simp [Token.parens, hk] at ht
        · simp [hk] at hk'
        · simp [hk] at hk'
        · simp
        · simp [hk] at hk'
      rw [houter]
      exact hopened

/-- The tokens of a text that parses end where a statement may start. -/
theorem Spelled.endsStatement {sts : List Statement} {ts : List Token}
    (h : Spelled false sts ts) : EndsStatement ts := by
  generalize hf : false = flag at h
  induction h with
  | nil => exact nofun
  | @empty _ semicolon _ ts hs _ ih =>
    have hends : EndsStatement ([] ++ semicolon :: ts) := (ih hf).append (by rw [hs]; rfl)
    exact hends
  | ended _ hs _ ih => exact (ih hf).append (by rw [hs]; rfl)
  | last => exact nomatch hf
  | block _ _ _ hc _ _ ih =>
    rw [← List.cons_append, ← List.append_assoc]
    exact (ih hf).append (by rw [hc]; rfl)

/-- No text that parses starts with a closing parenthesis. -/
theorem Stylesheet.not_closeParen_of_parse {b v : Text} {s : Stylesheet}
    (h : parse (b ++ ')' :: v) = .ok s) : ¬∀ c ∈ b, isBlank c = true := by
  intro hb
  obtain ⟨ts, sts, hscan, hspelled, _⟩ := parse_eq_ok_iff.mp h
  have hend : (Scan.go .first [] 0 (b ++ ')' :: v)).ending = .complete :=
    congrArg Scan.ending hscan
  have hspaces := Scan.spaces_of_complete hb hend
  have htok : Lexeme.token? (')' :: v) = some (.closeParen, 1) := rfl
  rw [Scan.ofText, Scan.go_spaces _ _ hspaces, Scan.go_token _ _ htok] at hscan
  have hts : _ = ts := congrArg Scan.tokens hscan
  obtain ⟨r, hr, _⟩ := Reading.readAll_complete_iff.mpr hspelled
  rw [← hts] at hr
  exact nomatch hr

/-! ## Two texts -/

/-- The cut of a text that parses into tokens is the same before a line feed and another text that
parses. -/
theorem Spelled.lexes_lineFeed {sts : List Statement} {ts : List Token} {w u : Text}
    {r : Stylesheet} (h : Spelled false sts ts) (hlex : Lexes ts w)
    (hr : Stylesheet.parse u = .ok r) : Lexes ts (w ++ '\n' :: u) := by
  have haddr := hlex.unaddressed_lineFeed h.endsStatement (u := u) fun b v hu => by
    subst hu
    exact Stylesheet.not_closeParen_of_parse hr
  have hlex' : Lexes ts ([] ++ w) := hlex
  refine hlex'.relay_before (fun t ht => Or.inl (h.endsStatement t ht)) haddr
    fun us vs hts hhead _ => ?_
  -- an opening brace has its closing one in the first text
  subst hts
  rw [List.append_nil] at hhead ⊢
  have hvs := (Lexes.append.mp hlex).2
  cases vs with
  | nil => exact nomatch hhead
  | cons brace vs =>
    have hk := hvs.kind_of_head (c := '{') rfl hhead
    obtain ⟨close, hmem, hclose⟩ := h.exists_closeBrace hk
    obtain ⟨xs, ys, rfl⟩ := List.append_of_mem hmem
    have htext : close.text = ['}'] :=
      Lexes.text_of_delimiter (Lexes.append.mp hvs.2.2).2 (by rw [hclose]; rfl)
    simp [htext]

/-- Two texts that parse, one after the other with a line feed between them, parse to the nodes of
the first and those of the second, moved down by the lines of the first. -/
theorem Stylesheet.parse_append {t u : Text} {s r : Stylesheet} (hs : parse t = .ok s)
    (hr : parse u = .ok r) :
    parse (t ++ '\n' :: u) =
      .ok ⟨s.nodes ++ Node.mapSpansIn (Option.map (.below t.lineCount)) r.nodes⟩ := by
  obtain ⟨ts, sts, hscan, hspelled, hnodes⟩ := parse_eq_ok_iff.mp hs
  obtain ⟨us, sts', hscan', hspelled', hnodes'⟩ := parse_eq_ok_iff.mp hr
  have hgo : Scan.go .first [] 0 t = ⟨ts ++ [], .complete⟩ := by
    rw [List.append_nil]
    exact hscan
  obtain ⟨w, ht, hlex, hplaced, hgo⟩ := Scan.go_eq_append hgo
  -- the second text is scanned as by itself, further down
  have hplace : (SourcePosition.first.advance (source ts)).advance (w ++ ['\n']) =
      SourcePosition.first.below t.lineCount := by
    rw [← SourcePosition.advance_append, ← List.append_assoc, ← ht]
    exact SourcePosition.first_advance_lineFeed t
  have hmoved : Alike (.below t.lineCount) (.below t.lineCount) true
      (Scan.go (SourcePosition.first.advance []) [] 0 u).tokens
      (Scan.go ((SourcePosition.first.below t.lineCount).advance []) (w ++ ['\n']) 0 u).tokens ∧
      _ :=
    Scan.go_alike (fun x => (SourcePosition.advance_below _ _ x).symm)
      (fun x _ => (SourcePosition.advance_below _ _ x).symm) (Or.inl rfl) [] u
  obtain ⟨halike, hcomplete⟩ := hmoved
  have hscan' : Scan.go (SourcePosition.first.advance []) [] 0 u = ⟨us, .complete⟩ := hscan'
  rw [hscan'] at halike hcomplete
  have hbehind : Scan.go (SourcePosition.first.advance (source ts)) [] 0 (w ++ '\n' :: u) =
      ⟨(Scan.go ((SourcePosition.first.below t.lineCount).advance []) (w ++ ['\n']) 0 u).tokens,
        .complete⟩ := by
    rw [List.append_cons, Scan.go_ignorable _ _ (Scan.ignorable_of_complete hgo), hplace,
      ← hcomplete rfl]
    rfl
  have hall := Scan.go_append (hspelled.lexes_lineFeed hlex hr) hplaced hbehind
  obtain ⟨sts'', hspelled'', hmoved⟩ := hspelled'.alike halike
  rw [← List.append_assoc, ← ht] at hall
  exact parse_eq_ok_iff.mpr ⟨_, sts ++ sts'', hall, hspelled.append hspelled'',
    Statement.toNodes_append.mpr ⟨_, _, hnodes, hmoved _ hnodes', rfl⟩⟩

end Stacking
