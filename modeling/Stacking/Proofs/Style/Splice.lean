import Stacking.Proofs.Style.Respelling
import Stacking.Proofs.Text.Moved

/-!
# Changing a declaration in its text

A declaration of a parsed text has its tokens somewhere in the text. This file finds them
(`Stylesheet.exists_layout`) and says what a text parses to when they are replaced by others
(`Layout.parse_splice`).
-/

namespace Stacking

open Token

/-! ## The text in front stays in place -/

theorem Token.content_append (t : Token) :
    t.text = t.content ++ t.trailing ∧ ∀ c ∈ t.trailing, isBlank c = true := by
  obtain ⟨b, hb, hblank⟩ := Text.dropEndWhile_append isBlank t.text
  have hcontent : t.text = t.content ++ b := hb
  have htrailing : t.trailing = b := by
    rw [Token.trailing]
    conv => lhs; rw [hcontent]
    exact List.drop_left
  exact ⟨by rw [htrailing]; exact hcontent, by rw [htrailing]; exact hblank⟩

/-- A token's content ends with a character that is not blank. -/
theorem Token.exists_content_last {t : Token} {ts : List Token} {rest : Text}
    (h : Lexes (t :: ts) rest) : ∃ c ∈ t.content.getLast?, isBlank c = false := by
  obtain ⟨c, x, hx, hb⟩ := h.text_ne_nil
  have hne : t.content ≠ [] := Text.trimEnd_ne_nil (c := c) (by simp [hx]) hb
  have hlast : t.content.getLast? = (t.text.reverse.dropWhile isBlank).head? := by
    rw [Token.content, Text.trimEnd, Text.dropEndWhile, List.getLast?_reverse]
  have hnot := List.head?_dropWhile_not isBlank t.text.reverse
  rw [← hlast] at hnot
  cases hc : t.content.getLast? with
  | none => exact absurd (List.getLast?_eq_none_iff.mp hc) hne
  | some d =>
    rw [hc] at hnot
    exact ⟨d, rfl, by simpa using hnot⟩

/-- The contents of the tokens that follow one with the blanks `trailing` at its end, each behind
what `f` makes of the gap in front of it. -/
def Prelude.joinedAfter (f : Text → Text) (trailing : Text) : List Token → Text
  | [] => []
  | t :: rest => f (trailing ++ t.lead) ++ (t.content ++ joinedAfter f t.trailing rest)

/-- The contents of tokens, joined by what `f` makes of the gaps between them. -/
def Prelude.joined (f : Text → Text) : List Token → Text
  | [] => []
  | t :: rest => t.content ++ joinedAfter f t.trailing rest

/-- Where the gaps are left as they are, tokens are joined as they were cut. -/
theorem Prelude.joined_cons_cons (t u : Token) (ts : List Token) :
    joined id (t :: u :: ts) = t.text ++ (u.lead ++ joined id (u :: ts)) := by
  obtain ⟨htext, _⟩ := t.content_append
  conv => rhs; rw [htext]
  simp [joined, joinedAfter]

/-- Tokens go from the first to the last character of theirs that is not blank; only blanks are left
behind that. -/
theorem Token.Placed.joined_eq {place : SourcePosition} {head : Token} {tail : List Token}
    {rest : Text} (h : Placed place (head :: tail)) (hlex : Lexes (head :: tail) rest) :
    ∃ b, head.text ++ source tail = Prelude.joined id (head :: tail) ++ b ∧
      (∀ c ∈ b, isBlank c = true) ∧
      (∃ c ∈ (Prelude.joined id (head :: tail)).getLast?, isBlank c = false) ∧
      Prelude.stop (head :: tail) = head.start.advance (Prelude.joined id (head :: tail)) := by
  induction tail generalizing place head with
  | nil =>
    obtain ⟨htext, hblank⟩ := head.content_append
    have hjoined : Prelude.joined id [head] = head.content := List.append_nil _
    rw [hjoined]
    exact ⟨head.trailing, by rw [source_nil, List.append_nil]; exact htext, hblank,
      exists_content_last hlex, rfl⟩
  | cons next tail ih =>
    obtain ⟨b, hbody, hblank, ⟨c, hc, hb⟩, hstop⟩ := ih h.2 hlex.2.2
    rw [Prelude.joined_cons_cons]
    refine ⟨b, ?_, hblank, ⟨c, ?_, hb⟩, ?_⟩
    · rw [source_cons, hbody]
      simp
    · rw [← List.append_assoc, List.getLast?_append, hc]
      rfl
    · rw [SourcePosition.advance_append, SourcePosition.advance_append, ← h.2.1, ← hstop]
      simp [Prelude.stop]

/-- Tokens in front of `s` do not move. -/
theorem Token.Placed.alike_self {place s : SourcePosition} (a b : SourcePosition) (w : Text)
    {ts : List Token} {rest : Text} {fresh : Bool} (h : Placed place ts) (hlex : Lexes ts rest)
    (hs : s = (place.advance (source ts)).advance w) :
    Alike (s.startMoved a b) (s.stopMoved a b) fresh ts ts := by
  induction ts generalizing place fresh with
  | nil => exact .nil
  | cons t ts ih =>
    obtain ⟨hstart, hplaced⟩ := h
    obtain ⟨htext, _⟩ := t.content_append
    obtain ⟨c, x, hx, _⟩ := hlex.text_ne_nil
    have hs' : s = t.start.advance (t.text ++ (source ts ++ w)) := by
      rw [hs, hstart, ← SourcePosition.advance_append, ← SourcePosition.advance_append, source_cons]
      simp
    refine .cons rfl rfl ?_ ?_ (Or.inr (Or.inr rfl)) (ih hplaced hlex.2.2 ?_)
    · exact (SourcePosition.startMoved_of_before a b _ (by simp [hx]) hs').symm
    · refine (SourcePosition.stopMoved_of_before a b _ (t.trailing ++ (source ts ++ w)) ?_).symm
      rw [hs', Token.stop, ← SourcePosition.advance_append]
      conv => lhs; rw [htext]
      rw [List.append_assoc]
    · rw [hs', ← SourcePosition.advance_append, ← SourcePosition.advance_append]

/-- Tokens start in front of what follows them. -/
theorem Token.Placed.exists_advance {place : SourcePosition} {ts : List Token} {rest : Text}
    (h : Placed place ts) (hlex : Lexes ts rest) :
    ∀ t ∈ ts, ∃ w, w ≠ [] ∧ place.advance (source ts) = t.start.advance w := by
  induction ts generalizing place with
  | nil => exact nofun
  | cons t ts ih =>
    obtain ⟨hstart, hplaced⟩ := h
    obtain ⟨c, x, hx, _⟩ := hlex.text_ne_nil
    have hadvance : place.advance (source (t :: ts)) = t.start.advance (t.text ++ source ts) := by
      rw [source_cons, SourcePosition.advance_append, ← hstart]
    refine List.forall_mem_cons.mpr ⟨⟨_, by simp [hx], hadvance⟩, fun u hu => ?_⟩
    obtain ⟨w, hw, hu⟩ := ih hplaced hlex.2.2 u hu
    exact ⟨w, hw, by rw [hadvance, SourcePosition.advance_append, hu]⟩

/-- A text that is scanned to its end at `a`, behind `s`, is scanned alike at `b`. -/
theorem Scan.go_moved {s a : SourcePosition} {v : Text} (ha : a = s.advance v)
    {lead rest : Text} {ts : List Token} (h : go a lead 0 rest = ⟨ts, .complete⟩)
    (b : SourcePosition) (lead' : Text) :
    ∃ ts', go b lead' 0 rest = ⟨ts', .complete⟩ ∧
      Alike (s.startMoved a b) (s.stopMoved a b) true ts ts' := by
  have hmoved : Alike (s.startMoved a b) (s.stopMoved a b) true
      (go (a.advance []) lead 0 rest).tokens (go (b.advance []) lead' 0 rest).tokens ∧ _ :=
    go_alike (fun w => SourcePosition.startMoved_of_advance a b v w ha)
      (fun w hw => SourcePosition.stopMoved_of_advance a b v hw ha) (Or.inl rfl) [] rest
  obtain ⟨halike, hcomplete⟩ := hmoved
  have hnil : ∀ p : SourcePosition, p.advance [] = p := fun _ => rfl
  rw [hnil, hnil, h] at halike hcomplete
  refine ⟨_, ?_, halike⟩
  rw [← hcomplete rfl]

/-! ## Where a declaration stands -/

/-- How a declaration lies in a text: the tokens in front (`pre`), the first token of the
declaration (`head`) and its other ones (`tail`), the semicolon if there is one (`sep`), and the
tokens behind (`post`). The text from the declaration on is `rest`. -/
structure Layout (t : Text) (site : Site) (d : Declaration) where
  last : Bool
  pre : List Token
  head : Token
  tail : List Token
  sep : List Token
  post : List Token
  rest : Text
  text_eq : t = source pre ++ (head.lead ++ rest)
  lexes : Lexes pre (head.lead ++ rest)
  placed : Placed .first pre
  endsStatement : EndsStatement pre
  ignorable : Ignorable head.lead
  start_eq : head.start = SourcePosition.first.advance (source pre ++ head.lead)
  scan_eq : Scan.go head.start head.lead 0 rest = ⟨(head :: tail ++ sep) ++ post, .complete⟩
  tokens : DeclarationTokens last d (head :: tail) sep
  next : ∃ t us, sep ++ post = t :: us ∧ t.kind = if last then .closeBrace else .semicolon
  slot : ∀ (f g : SourcePosition → SourcePosition) (fresh : Bool) (pre' post' : List Token),
    Alike f g true pre pre' → Alike f g fresh post post' →
    ∀ (X : List Statement) (xs : List Token) (nodes : List Node), Spelled last X xs →
      Statement.toNodes X = .ok nodes → ∃ sts, Spelled false sts (pre' ++ (xs ++ post')) ∧
        Statement.toNodes sts = .ok ((site.mapSpans (carry f g)).plug nodes)

/-- Every declaration of a parsed text lies in it somewhere. -/
theorem Stylesheet.exists_layout {t : Text} {s : Stylesheet} {site : Site} {d : Declaration}
    (h : parse t = .ok s) (hsite : s.nodes = site.plug [.declaration d]) :
    Nonempty (Layout t site d) := by
  obtain ⟨ts, sts, hscan, hspelled, hnodes⟩ := parse_eq_ok_iff.mp h
  rw [hsite] at hnodes
  obtain ⟨last, pre, p, sep, post, rfl, htokens, hends, hnext, hslot⟩ := hspelled.slot hnodes
  obtain ⟨head, tail, rfl⟩ := List.exists_cons_of_ne_nil (htokens.reaches.prelude rfl)
  obtain ⟨r, rfl, hlex, hplaced, hgo⟩ := Scan.go_eq_append hscan
  obtain ⟨w, v, rfl, hw, hlead, hstart, htok, hrest⟩ := Scan.go_eq_cons hgo
  rw [List.nil_append] at hlead
  subst hlead
  refine ⟨{
    last, pre, head, tail, sep, post
    rest := head.text ++ v
    text_eq := rfl
    lexes := hlex
    placed := hplaced
    endsStatement := hends
    ignorable := hw
    start_eq := by rw [SourcePosition.advance_append]; exact hstart
    scan_eq := ?_
    tokens := htokens
    next := hnext.resolve_left (by simp)
    slot := hslot }⟩
  rw [Scan.go_token _ _ htok, List.take_left, List.drop_left, hrest]
  rfl

namespace Layout

variable {t : Text} {site : Site} {d : Declaration}

/-- The text in front of the declaration. -/
def before (l : Layout t site d) : Text := source l.pre ++ l.head.lead

theorem text_eq_before (l : Layout t site d) : t = l.before ++ l.rest := by
  rw [before, List.append_assoc]
  exact l.text_eq

theorem ofSource_start (l : Layout t site d) :
    Position.ofSource l.head.start = Text.positionAfter l.before := by
  rw [l.start_eq]
  rfl

/-- The declaration starts with a character that is not blank. -/
theorem exists_rest_eq_cons (l : Layout t site d) : ∃ c v, l.rest = c :: v ∧ isBlank c = false := by
  obtain ⟨w, v, hrest, _, hlead, _, htok, _⟩ := Scan.go_eq_cons l.scan_eq
  obtain rfl : w = [] := by simpa using hlead
  obtain ⟨⟨c, u, hc, hb⟩, _⟩ := Lexeme.token?_le_length htok
  exact ⟨c, u, by rw [hrest, List.nil_append, hc], hb⟩

/-- The scan of the whole text. -/
theorem scan_text (l : Layout t site d) :
    Scan.ofText t = ⟨l.pre ++ ((l.head :: l.tail ++ l.sep) ++ l.post), .complete⟩ := by
  have hrest : Scan.go (SourcePosition.first.advance (source l.pre)) [] 0 (l.head.lead ++ l.rest) =
      ⟨(l.head :: l.tail ++ l.sep) ++ l.post, .complete⟩ := by
    rw [Scan.go_ignorable _ _ l.ignorable, ← SourcePosition.advance_append, ← l.start_eq]
    exact l.scan_eq
  have hscan := Scan.go_append l.lexes l.placed hrest
  rwa [← l.text_eq] at hscan

/-- The tokens in front of the declaration are those that start in front of it. -/
theorem takeWhile_tokens (l : Layout t site d) :
    (Scan.ofText t).tokens.takeWhile (fun k => k.start < l.head.start) = l.pre := by
  have hpre : ∀ k ∈ l.pre, decide (k.start < l.head.start) = true := by
    intro k hk
    obtain ⟨w, hw, hadvance⟩ := l.placed.exists_advance l.lexes k hk
    rw [l.start_eq, SourcePosition.advance_append, hadvance, ← SourcePosition.advance_append]
    exact decide_eq_true (SourcePosition.lt_advance _ (by simp [hw]))
  have hhead : decide (l.head.start < l.head.start) = false :=
    decide_eq_false (SourcePosition.not_advance_lt l.head.start [])
  rw [l.scan_text, List.takeWhile_append_of_pos hpre, List.cons_append, List.cons_append,
    List.takeWhile_cons_of_neg (by simp [hhead]), List.append_nil]

/-- The declaration goes from its first to its last character that is not blank; blanks may stand
between it and the next token. -/
theorem exists_body (l : Layout t site d) :
    ∃ body b w, l.rest = body ++ (b ++ w) ∧ (∃ c ∈ body.head?, isBlank c = false) ∧
      (∃ c ∈ body.getLast?, isBlank c = false) ∧ (∀ c ∈ b, isBlank c = true) ∧
      Prelude.stop (l.head :: l.tail) = l.head.start.advance body ∧
      Scan.go (l.head.start.advance (body ++ b)) [] 0 w = ⟨l.sep ++ l.post, .complete⟩ := by
  have hscan := l.scan_text
  rw [List.append_assoc, ← List.append_assoc] at hscan
  obtain ⟨w, htext, hlex, hplaced, hgo⟩ := Scan.go_eq_append hscan
  have hlex := (Lexes.append.mp hlex).2
  have hplaced := (Placed.append.mp hplaced).2
  have hall : l.rest = l.head.text ++ source l.tail ++ w := by
    have hsame := l.text_eq.symm.trans htext
    rw [source_append, source_cons, List.append_assoc, List.append_assoc] at hsame
    exact List.append_cancel_left (List.append_cancel_left hsame)
  rw [source_append, source_cons, ← List.append_assoc, SourcePosition.advance_append,
    ← l.start_eq] at hgo
  -- the blanks at the end of the last token do not count for the span
  obtain ⟨b, hbody, hblank, hlast, hstop⟩ := hplaced.joined_eq hlex
  generalize Prelude.joined id (l.head :: l.tail) = body at hbody hlast hstop
  rw [hbody] at hall hgo
  rw [List.append_assoc] at hall
  refine ⟨body, b, w, hall, ?_, hlast, hblank, hstop, hgo⟩
  obtain ⟨c, v, hv, hb⟩ := l.exists_rest_eq_cons
  cases body with
  | nil =>
    obtain ⟨_, hnil, _⟩ := hlast
    exact nomatch hnil
  | cons e body =>
    rw [hall] at hv
    obtain ⟨rfl, _⟩ := List.cons.inj hv
    exact ⟨e, rfl, hb⟩

/-- What a text parses to when the declaration is replaced: other tokens `xs` take the place of
its own, and the tokens behind it have moved from `a` to `b`. -/
theorem parse_splice (l : Layout t site d) {a b : SourcePosition} {rest' : Text}
    {xs post' : List Token} {X : List Statement} {nodes : List Node} {fresh : Bool}
    (hlex : Lexes l.pre rest')
    (hscan : Scan.go (SourcePosition.first.advance (source l.pre)) [] 0 rest' =
      ⟨xs ++ post', .complete⟩)
    (hpost : Alike (l.head.start.startMoved a b) (l.head.start.stopMoved a b) fresh l.post post')
    (hX : Spelled l.last X xs) (hnodes : Statement.toNodes X = .ok nodes) :
    Stylesheet.parse (source l.pre ++ rest') =
      .ok ⟨(site.mapSpans (carry (l.head.start.startMoved a b)
        (l.head.start.stopMoved a b))).plug nodes⟩ := by
  have hpre : Alike (l.head.start.startMoved a b) (l.head.start.stopMoved a b) true l.pre l.pre :=
    l.placed.alike_self a b l.head.lead l.lexes
      (by rw [l.start_eq, SourcePosition.advance_append])
  obtain ⟨sts, hspelled, hsts⟩ := l.slot _ _ fresh l.pre post' hpre hpost X xs nodes hX hnodes
  exact Stylesheet.parse_eq_ok_iff.mpr ⟨_, sts, Scan.go_append hlex l.placed hscan, hspelled, hsts⟩

end Layout
end Stacking
