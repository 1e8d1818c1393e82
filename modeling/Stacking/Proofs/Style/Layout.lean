import Mathlib.Data.List.TakeWhile
import Stacking.Proofs.Style.Extent

/-!
# The layout of a scanned text

A scan loses nothing of a text: the tokens, each with the ignored text in front of it, spell the
text up to what follows the last token. This file says how tokens lie in a text and when other
texts are cut in the same way.

* `Ignorable` is the text that may stand in front of a token.
* `Lexes` says that a text is cut into given tokens up to a rest, and `Placed` where they start.
* `Scan.go_eq_append` and `Scan.go_append` tie both to the scan.
* `Lexes.relay_before` and `Lexes.relay` carry a cut over to another rest; where an address comes
  into being it cannot be carried over, and `Lexes.exists_longer` says what happens instead.
* `Scan.go_alike` compares the scans of one text from two places.
-/

namespace Stacking

/-! ## Tokens at the start of a text -/

theorem TokenKind.ofDelimiter?_eq_some {c : Char} {kind : TokenKind} :
    TokenKind.ofDelimiter? c = some kind ↔
      (c = '{' ∧ kind = .openBrace) ∨ (c = '}' ∧ kind = .closeBrace) ∨
        (c = '(' ∧ kind = .openParen) ∨ (c = ')' ∧ kind = .closeParen) ∨
        (c = ';' ∧ kind = .semicolon) := by
  unfold TokenKind.ofDelimiter?
  grind

/-- Whether a token of this kind ends a statement or starts a block. -/
def TokenKind.isBoundary : TokenKind → Bool
  | .openBrace | .closeBrace | .semicolon => true
  | _ => false

namespace Lexeme

theorem commentRest?_le_length {t : Text} {n : Nat} (h : commentRest? t = some n) :
    n ≤ t.length :=
  (commentRest?_closedBy.le_length h).2

theorem ignored?_le_length {t : Text} {n : Nat} (h : ignored? t = some n) :
    0 < n ∧ n ≤ t.length := by
  rw [ignored?.eq_def] at h
  split at h
  · obtain ⟨m, hm, rfl⟩ := Option.map_eq_some_iff.mp h
    have := commentRest?_le_length hm
    simp only [List.length_cons]
    omega
  · rename_i rest
    obtain rfl := Option.some.inj h
    have := (List.takeWhile_sublist (· != '\n') (l := rest)).length_le
    simp only [List.length_cons]
    omega
  · rename_i c rest _ _
    split at h
    · obtain rfl := Option.some.inj h
      have := (List.takeWhile_sublist isSpace (l := rest)).length_le
      simp only [List.length_cons]
      omega
    · exact nomatch h
  · exact nomatch h

theorem atKeyword?_eq_some {t : Text} {n : Nat} (h : atKeyword? t = some n) :
    ∃ c v, t = '@' :: c :: v ∧ isKeywordStart c = true ∧
      n = (v.takeWhile fun d => isWord d || d == '-').length + 2 := by
  rw [atKeyword?.eq_def] at h
  split at h
  · rename_i c v
    split at h
    · rename_i hc
      exact ⟨c, v, rfl, hc, (Option.some.inj h).symm⟩
    · exact nomatch h
  · exact nomatch h

theorem length_takeWhile_append {p : Char → Bool} {w z : Text} {d : Char}
    (h : ((w ++ d :: z).takeWhile p).length = w.length) (z' : Text) :
    ((w ++ d :: z').takeWhile p).length = w.length := by
  induction w with
  | nil =>
    cases hd : p d with
    | true => simp [hd] at h
    | false => simp [hd]
  | cons e w ih =>
    cases he : p e with
    | true => simpa [he] using ih (by simpa [he] using h)
    | false => simp [he] at h

/-- An at-keyword ends before a character that no keyword has, whatever follows that. -/
theorem atKeyword?_append {u z : Text} {d : Char} (h : atKeyword? (u ++ d :: z) = some u.length)
    (z' : Text) : atKeyword? (u ++ d :: z') = some u.length := by
  obtain ⟨c, v, ht, hc, hlen⟩ := atKeyword?_eq_some h
  match u, hlen with
  | a :: b :: w, hlen =>
    simp only [List.cons_append, List.cons.injEq] at ht
    obtain ⟨rfl, rfl, rfl⟩ := ht
    have hlen' := length_takeWhile_append (w := w) (by simpa using hlen.symm) z'
    simp [atKeyword?, hc, hlen']

/-- The ways in which a token can start a text. -/
theorem token?_eq_some_iff {c : Char} {t : Text} {kind : TokenKind} {n : Nat} :
    token? (c :: t) = some (kind, n) ↔
      (TokenKind.ofDelimiter? c = some kind ∧ n = 1) ∨
      (kind = .atKeyword ∧ c = '@' ∧ atKeyword? (c :: t) = some n) ∨
      (kind = .chunk ∧ TokenKind.ofDelimiter? c = none ∧ c ≠ '@' ∧ isBlank c = false ∧
        chunkRest 0 (c :: t) = n ∧ 0 < n) := by
  have hat : TokenKind.ofDelimiter? '@' = none := rfl
  constructor
  · intro h
    rw [token?] at h
    split at h
    · rename_i k hk
      obtain ⟨rfl, rfl⟩ := Prod.mk.inj (Option.some.inj h)
      exact Or.inl ⟨hk, rfl⟩
    · rename_i hk
      split at h
      · rename_i hc
        obtain ⟨m, hm, heq⟩ := Option.map_eq_some_iff.mp h
        obtain ⟨rfl, rfl⟩ := Prod.mk.inj heq
        exact Or.inr (Or.inl ⟨rfl, hc, hm⟩)
      · rename_i hc
        obtain ⟨m, hm, heq⟩ := Option.map_eq_some_iff.mp h
        obtain ⟨rfl, rfl⟩ := Prod.mk.inj heq
        obtain ⟨hpos, hrest, _, hb⟩ := chunk?_eq_some_iff.mp hm
        exact Or.inr (Or.inr ⟨rfl, hk, hc, hb, hrest, hpos⟩)
  · rintro (⟨hk, rfl⟩ | ⟨rfl, rfl, hm⟩ | ⟨rfl, hk, hc, hb, hrest, hpos⟩)
    · simp only [token?, hk]
    · simp only [token?, hat, if_true, hm, Option.map_some]
    · have hm : chunk? (c :: t) = some n := chunk?_eq_some_iff.mpr ⟨hpos, hrest, hc, hb⟩
      simp only [token?, hk, if_neg hc, hm, Option.map_some]

/-- A token is not empty, and its first character is not blank. -/
theorem token?_le_length {t : Text} {kind : TokenKind} {n : Nat} (h : token? t = some (kind, n)) :
    (∃ c v, t = c :: v ∧ isBlank c = false) ∧ 0 < n ∧ n ≤ t.length := by
  cases t with
  | nil => exact nomatch h
  | cons c v =>
    rcases token?_eq_some_iff.mp h with ⟨hd, rfl⟩ | ⟨_, rfl, hk⟩ | ⟨_, _, _, hb, hrest, hpos⟩
    · refine ⟨⟨c, v, rfl, ?_⟩, by omega, by simp⟩
      rcases TokenKind.ofDelimiter?_eq_some.mp hd with ⟨rfl, _⟩ | ⟨rfl, _⟩ | ⟨rfl, _⟩ | ⟨rfl, _⟩ |
        ⟨rfl, _⟩ <;> decide
    · refine ⟨⟨'@', v, rfl, by decide⟩, ?_⟩
      obtain ⟨d, rest, heq, _, rfl⟩ := atKeyword?_eq_some hk
      have := (List.takeWhile_sublist (fun d => isWord d || d == '-') (l := rest)).length_le
      rw [heq]
      simp only [List.length_cons]
      omega
    · exact ⟨⟨c, v, rfl, hb⟩, hpos, hrest ▸ chunkRest_le_length _⟩

theorem isBlank_of_isSpace {c : Char} (h : isSpace c = true) : isBlank c = true := by
  have h' : (((c = ' ' ∨ c = '\t') ∨ c = '\x0c') ∨ c = '\r') ∨ c = '\n' := by
    simpa [isSpace] using h
  rcases h' with (((rfl | rfl) | rfl) | rfl) | rfl <;> decide

theorem ignored?_cons_of_not_blank {c : Char} (h : isBlank c = false) (hc : c ≠ '/') (t : Text) :
    ignored? (c :: t) = none := by
  have hspace : isSpace c = false := by
    cases hs : isSpace c with
    | false => rfl
    | true =>
      rw [isBlank_of_isSpace hs] at h
      exact nomatch h
  rw [ignored?.eq_def]
  grind

/-- Where a token starts nothing is ignored. -/
theorem ignored?_eq_none {t : Text} {kind : TokenKind} {n : Nat} (h : token? t = some (kind, n)) :
    ignored? t = none := by
  obtain ⟨⟨c, v, rfl, hb⟩, _⟩ := token?_le_length h
  by_cases hc : c = '/'
  · subst hc
    rcases token?_eq_some_iff.mp h with ⟨hd, _⟩ | ⟨_, hat, _⟩ | ⟨_, _, _, _, hrest, hpos⟩
    · exact nomatch hd
    · exact absurd hat (by decide)
    · cases v with
      | nil => rfl
      | cons d v =>
        have hd : ¬(d = '*' ∨ d = '/') := by
          intro hd
          have hstop : Stops ('/' :: d :: v) := Or.inr (Or.inl ⟨d, v, rfl, hd⟩)
          rw [chunkRest_of_none hstop.piece?_eq_none] at hrest
          omega
        rw [ignored?.eq_def]
        grind [isSpace]
  · exact ignored?_cons_of_not_blank hb hc v

/-- Ignored text is a run of spaces, a comment, or a comment up to the end of the line or of the
text. -/
theorem ignored?_eq_some {t : Text} {n : Nat} (h : ignored? t = some n) :
    ∃ x v, t = x ++ v ∧ n = x.length ∧
      ((∀ c ∈ x, isSpace c = true) ∨
        (∃ y, x = '/' :: '*' :: y ∧ commentRest? y = some y.length) ∨
        (∃ y, x = '/' :: '/' :: y ∧ '\n' ∉ y ∧ (v = [] ∨ ∃ v', v = '\n' :: v'))) := by
  rw [ignored?.eq_def] at h
  split at h
  · rename_i rest
    obtain ⟨m, hm, rfl⟩ := Option.map_eq_some_iff.mp h
    obtain ⟨y, c, rfl, rfl, ⟨v, rfl⟩, hany⟩ := commentRest?_closedBy _ _ hm
    refine ⟨'/' :: '*' :: (y ++ ['/']), v, by simp, by simp, Or.inr (Or.inl ⟨_, rfl, ?_⟩)⟩
    simpa using hany []
  · rename_i rest
    obtain rfl := Option.some.inj h
    refine ⟨'/' :: '/' :: rest.takeWhile (· != '\n'), rest.dropWhile (· != '\n'), ?_, by simp,
      Or.inr (Or.inr ⟨_, rfl, ?_, ?_⟩)⟩
    · simp [List.takeWhile_append_dropWhile]
    · intro hmem
      exact absurd (List.all_eq_true.mp List.all_takeWhile _ hmem) (by decide)
    · have hhead := List.head?_dropWhile_not (· != '\n') rest
      cases hv : rest.dropWhile (· != '\n') with
      | nil => exact Or.inl rfl
      | cons c v =>
        rw [hv] at hhead
        exact Or.inr ⟨v, by simpa using hhead⟩
  · rename_i c rest _ _
    split at h
    · rename_i hc
      obtain rfl := Option.some.inj h
      refine ⟨c :: rest.takeWhile isSpace, rest.dropWhile isSpace, ?_, by simp, Or.inl ?_⟩
      · simp [List.takeWhile_append_dropWhile]
      · intro d hd
        rcases List.mem_cons.mp hd with rfl | hd
        · exact hc
        · exact List.all_eq_true.mp List.all_takeWhile _ hd
    · exact nomatch h
  · exact nomatch h

end Lexeme

/-! ## Ignored text -/

/-- Text that is passed over in front of a token, whatever the token is. A comment that goes to the
end of its line is followed by the line feed. -/
inductive Ignorable : Text → Prop
  | nil : Ignorable []
  | space {c : Char} {w : Text} : Lexeme.isSpace c = true → Ignorable w → Ignorable (c :: w)
  | comment {x w : Text} : Lexeme.commentRest? x = some x.length → Ignorable w →
      Ignorable ('/' :: '*' :: (x ++ w))
  | line {x w : Text} : '\n' ∉ x → Ignorable ('\n' :: w) →
      Ignorable ('/' :: '/' :: (x ++ '\n' :: w))

theorem Ignorable.append {v w : Text} (hv : Ignorable v) (hw : Ignorable w) :
    Ignorable (v ++ w) := by
  induction hv with
  | nil => exact hw
  | space hc _ ih => exact .space hc ih
  | comment hx _ ih =>
    rw [List.cons_append, List.cons_append, List.append_assoc]
    exact .comment hx ih
  | line hx _ ih =>
    rw [List.cons_append, List.cons_append, List.append_assoc, List.cons_append]
    exact .line hx ih

theorem Ignorable.of_spaces {w : Text} (h : ∀ c ∈ w, Lexeme.isSpace c = true) : Ignorable w := by
  induction w with
  | nil => exact .nil
  | cons c w ih => exact .space (h c (by simp)) (ih fun d hd => h d (by simp [hd]))

/-- Ignored text starts with spaces, up to its end or to a comment. -/
theorem Ignorable.exists_spaces {w : Text} (h : Ignorable w) :
    ∃ b r, w = b ++ r ∧ (∀ c ∈ b, Lexeme.isSpace c = true) ∧
      (r = [] ∨ ∃ c r', r = '/' :: c :: r' ∧ (c = '*' ∨ c = '/')) := by
  induction h with
  | nil => exact ⟨[], [], rfl, by simp, Or.inl rfl⟩
  | @space c w hc _ ih =>
    obtain ⟨b, r, rfl, hb, hr⟩ := ih
    exact ⟨c :: b, r, rfl, by simpa using ⟨hc, hb⟩, hr⟩
  | @comment x w => exact ⟨[], _, rfl, by simp, Or.inr ⟨'*', x ++ w, rfl, Or.inl rfl⟩⟩
  | @line x w => exact ⟨[], _, rfl, by simp, Or.inr ⟨'/', x ++ '\n' :: w, rfl, Or.inr rfl⟩⟩

/-- Of ignored text a blank end that starts a line may be cut off. -/
theorem Ignorable.of_append_blanks {w b : Text} (h : Ignorable (w ++ b))
    (hb : ∀ c ∈ b, isBlank c = true) (hw : w = [] ∨ w.getLast? = some '\n') : Ignorable w := by
  generalize hv : w ++ b = v at h
  induction h generalizing w with
  | nil => simp_all [Ignorable.nil]
  | @space c v hc _ ih =>
    cases w with
    | nil => exact .nil
    | cons d w =>
      obtain ⟨rfl, hv'⟩ := List.cons.inj hv
      refine .space hc (ih ?_ hv')
      cases w with
      | nil => exact Or.inl rfl
      | cons e w => simpa using hw
  | @comment x v hx _ ih =>
    obtain ⟨y, c, rfl, hlen, ⟨u, hy⟩, _⟩ := Lexeme.commentRest?_closedBy _ _ hx
    obtain rfl : u = [] := by
      rw [hy, List.length_append, List.length_cons] at hlen
      exact List.eq_nil_of_length_eq_zero (by omega)
    have hlast : ('/' :: '*' :: x).getLast? = some '/' := by
      rw [hy, ← List.cons_append, ← List.cons_append, List.getLast?_concat]
    have hv' : w ++ b = ('/' :: '*' :: x) ++ v := hv
    rcases List.append_eq_append_iff.mp hv' with ⟨a, hx', hb'⟩ | ⟨a, rfl, rfl⟩
    · -- the closing mark is not blank
      rcases List.eq_nil_or_concat a with rfl | ⟨a, c, rfl⟩
      · obtain rfl : w = '/' :: '*' :: x := by simpa using hx'.symm
        exact (List.append_nil x ▸ .comment hx .nil)
      · rw [hx', List.concat_eq_append, ← List.append_assoc, List.getLast?_concat] at hlast
        obtain rfl := Option.some.inj hlast
        exact absurd (hb '/' (by rw [hb']; simp)) (by decide)
    · refine .comment hx (ih ?_ rfl)
      cases a with
      | nil => exact Or.inl rfl
      | cons c a =>
        rw [List.getLast?_append, List.getLast?_cons, Option.some_or, ← List.getLast?_cons] at hw
        exact Or.inr (hw.resolve_left (by simp))
  | @line x v hx _ ih =>
    rcases hw with rfl | hw
    · exact .nil
    have hx' : '\n' ∉ '/' :: '/' :: x := by simpa using hx
    have hv' : w ++ b = ('/' :: '/' :: x) ++ '\n' :: v := hv
    rcases List.append_eq_append_iff.mp hv' with ⟨a, hwa, _⟩ | ⟨a, rfl, ha⟩
    · -- the comment holds no line feed
      exact absurd (hwa ▸ List.mem_append_left a (List.mem_of_getLast? hw)) hx'
    · cases a with
      | nil =>
        rw [List.append_nil] at hw
        exact absurd (List.mem_of_getLast? hw) hx'
      | cons c a =>
        obtain ⟨rfl, rfl⟩ := List.cons.inj ha
        rw [List.getLast?_append, List.getLast?_cons, Option.some_or, ← List.getLast?_cons] at hw
        exact .line hx (ih (Or.inr hw) rfl)

/-! ## The scan, lexeme by lexeme -/

namespace Scan

theorem go_passing (place : SourcePosition) (lead : Text) {n : Nat} {t : Text}
    (h : n ≤ t.length) : go place lead n t = go place lead 0 (t.drop n) := by
  induction t generalizing n with
  | nil =>
    obtain rfl : n = 0 := Nat.le_zero.mp h
    rfl
  | cons c t ih =>
    cases n with
    | zero => rfl
    | succ n =>
      rw [go, List.drop_succ_cons]
      exact ih (by simpa using h)

theorem go_ignored (place : SourcePosition) (lead : Text) {t : Text} {n : Nat}
    (h : Lexeme.ignored? t = some n) :
    go place lead 0 t = go (place.advance (t.take n)) (lead ++ t.take n) 0 (t.drop n) := by
  obtain ⟨hpos, hle⟩ := Lexeme.ignored?_le_length h
  cases t with
  | nil => exact nomatch h
  | cons c t =>
    obtain ⟨m, rfl⟩ : ∃ m, n = m + 1 := ⟨n - 1, by omega⟩
    rw [go, h]
    simp only [Nat.add_sub_cancel, List.drop_succ_cons]
    exact go_passing _ _ (by simpa using hle)

theorem go_token (place : SourcePosition) (lead : Text) {t : Text} {kind : TokenKind} {n : Nat}
    (h : Lexeme.token? t = some (kind, n)) :
    go place lead 0 t =
      (go (place.advance (t.take n)) [] 0 (t.drop n)).push ⟨kind, lead, t.take n, place⟩ := by
  obtain ⟨_, hpos, hle⟩ := Lexeme.token?_le_length h
  cases t with
  | nil => exact nomatch h
  | cons c t =>
    obtain ⟨m, rfl⟩ : ∃ m, n = m + 1 := ⟨n - 1, by omega⟩
    rw [go, Lexeme.ignored?_eq_none h, h]
    simp only [Nat.add_sub_cancel, List.drop_succ_cons]
    rw [go_passing _ _ (by simpa using hle)]

/-- A run of spaces may be passed over one by one. -/
theorem go_space (place : SourcePosition) (lead : Text) {c : Char} (h : Lexeme.isSpace c = true)
    (t : Text) : go place lead 0 (c :: t) = go (place.next c) (lead ++ [c]) 0 t := by
  have hign : ∀ d : Char, Lexeme.isSpace d = true → ∀ v, Lexeme.ignored? (d :: v) =
      some ((v.takeWhile Lexeme.isSpace).length + 1) := by
    intro d hd v
    have hne : d ≠ '/' := by rintro rfl; exact nomatch hd
    rw [Lexeme.ignored?.eq_def]
    grind
  rw [go_ignored place lead (hign c h t)]
  cases t with
  | nil => simp [SourcePosition.advance]
  | cons d t =>
    cases hd : Lexeme.isSpace d with
    | false => simp [hd, SourcePosition.advance]
    | true =>
      rw [go_ignored (place.next c) _ (hign d hd t)]
      simp [hd, SourcePosition.advance]

theorem go_spaces (place : SourcePosition) (lead : Text) {w : Text}
    (h : ∀ c ∈ w, Lexeme.isSpace c = true) (t : Text) :
    go place lead 0 (w ++ t) = go (place.advance w) (lead ++ w) 0 t := by
  induction w generalizing place lead with
  | nil => simp [SourcePosition.advance]
  | cons c w ih =>
    rw [List.cons_append, go_space place lead (h c (by simp)),
      ih _ _ fun d hd => h d (by simp [hd])]
    simp [SourcePosition.advance]

/-- Blanks in front of a scan that comes to its end are spaces. -/
theorem spaces_of_complete {place : SourcePosition} {lead b w : Text}
    (hb : ∀ c ∈ b, isBlank c = true) (h : (go place lead 0 (b ++ w)).ending = .complete) :
    ∀ c ∈ b, Lexeme.isSpace c = true := by
  induction b generalizing place lead with
  | nil => exact nofun
  | cons c b ih =>
    have hc : isBlank c = true := hb c List.mem_cons_self
    cases hs : Lexeme.isSpace c with
    | true =>
      rw [List.cons_append, go_space place lead hs] at h
      exact List.forall_mem_cons.mpr ⟨hs, ih (fun d hd => hb d (List.mem_cons_of_mem c hd)) h⟩
    | false =>
      -- neither a token nor ignored text starts with such a blank
      have hignored : Lexeme.ignored? (c :: b ++ w) = none := by
        have hslash : c ≠ '/' := by
          rintro rfl
          exact absurd hc (by decide)
        rw [List.cons_append, Lexeme.ignored?.eq_def]
        grind
      have htoken : Lexeme.token? (c :: b ++ w) = none := by
        cases htok : Lexeme.token? (c :: b ++ w) with
        | none => rfl
        | some r =>
          obtain ⟨⟨d, v, hd, hblank⟩, _⟩ := Lexeme.token?_le_length htok
          rw [(List.cons.inj hd).1, hblank] at hc
          exact nomatch hc
      rw [List.cons_append] at h hignored htoken
      rw [go, hignored, htoken] at h
      exact nomatch h

/-- Ignored text is passed over and kept for the next token. -/
theorem go_ignorable (place : SourcePosition) (lead : Text) {w : Text} (h : Ignorable w)
    (t : Text) :
    go place lead 0 (w ++ t) = go (place.advance w) (lead ++ w) 0 t := by
  induction h generalizing place lead with
  | nil => simp [SourcePosition.advance]
  | @space c w hc _ ih =>
    rw [List.cons_append, go_space place lead hc, ih]
    simp [SourcePosition.advance]
  | @comment x w hx _ ih =>
    have hign : Lexeme.ignored? ('/' :: '*' :: (x ++ (w ++ t))) = some (x.length + 2) := by
      have := Lexeme.commentRest?_closedBy.append (w := x) (v := []) (by simpa using hx)
        (Nat.le_refl _) (w ++ t)
      rw [Lexeme.ignored?, this]
      rfl
    have hshape : '/' :: '*' :: (x ++ w) ++ t = '/' :: '*' :: (x ++ (w ++ t)) := by simp
    rw [hshape, go_ignored place lead hign]
    simp only [List.take_succ_cons, List.drop_succ_cons, List.take_left, List.drop_left]
    rw [ih]
    simp [SourcePosition.advance]
  | @line x w hx _ ih =>
    have hign : Lexeme.ignored? ('/' :: '/' :: (x ++ ('\n' :: w ++ t))) = some (x.length + 2) := by
      have htake : (x ++ ('\n' :: w ++ t)).takeWhile (· != '\n') = x := by
        rw [List.takeWhile_append_of_pos]
        · simp
        · intro c hc
          have : c ≠ '\n' := by rintro rfl; exact hx hc
          simpa using this
      rw [Lexeme.ignored?, htake]
    have hshape : '/' :: '/' :: (x ++ '\n' :: w) ++ t = '/' :: '/' :: (x ++ ('\n' :: w ++ t)) := by
      simp
    rw [hshape, go_ignored place lead hign]
    simp only [List.take_succ_cons, List.drop_succ_cons, List.take_left, List.drop_left]
    rw [ih]
    simp [SourcePosition.advance]

/-- A scan whose first token is `t` passes over ignored text, finds `t` and goes on behind it. -/
theorem go_eq_cons {place : SourcePosition} {lead v : Text} {t : Token} {ts : List Token}
    {e : ScanEnd} (h : go place lead 0 v = ⟨t :: ts, e⟩) :
    ∃ w v', v = w ++ (t.text ++ v') ∧ Ignorable w ∧ t.lead = lead ++ w ∧
      t.start = place.advance w ∧ Lexeme.token? (t.text ++ v') = some (t.kind, t.text.length) ∧
      go (t.start.advance t.text) [] 0 v' = ⟨ts, e⟩ := by
  induction hl : v.length using Nat.strongRecOn generalizing place lead v with
  | ind l ih =>
    cases hi : Lexeme.ignored? v with
    | some n =>
      obtain ⟨hpos, hle⟩ := Lexeme.ignored?_le_length hi
      obtain ⟨x, u, rfl, rfl, hx⟩ := Lexeme.ignored?_eq_some hi
      rw [go_ignored place lead hi, List.take_left, List.drop_left] at h
      obtain ⟨w, v', rfl, hw, hlead, hstart, htok, hgo⟩ :=
        ih u.length (by rw [List.length_append] at hl hle; omega) h rfl
      refine ⟨x ++ w, v', by simp, ?_, by simp [hlead], ?_, htok, hgo⟩
      · rcases hx with hx | ⟨y, rfl, hy⟩ | ⟨y, rfl, hy, hnil | ⟨u, hu⟩⟩
        · exact (Ignorable.of_spaces hx).append hw
        · exact .comment hy hw
        · -- a token follows, so the comment ends with its line
          obtain ⟨⟨c, r, hc, _⟩, _⟩ := Lexeme.token?_le_length htok
          rw [hc] at hnil
          exact absurd hnil (by simp)
        · cases w with
          | nil =>
            obtain ⟨⟨c, r, hc, hb⟩, _⟩ := Lexeme.token?_le_length htok
            rw [List.nil_append, hc] at hu
            obtain ⟨rfl, _⟩ := List.cons.inj hu
            exact absurd hb (by decide)
          | cons c w =>
            obtain ⟨rfl, _⟩ := List.cons.inj hu
            exact .line hy hw
      · rw [hstart, SourcePosition.advance_append]
    | none =>
      cases v with
      | nil => exact nomatch h
      | cons c v =>
        cases htok : Lexeme.token? (c :: v) with
        | none =>
          rw [go, hi, htok] at h
          exact nomatch h
        | some r =>
          obtain ⟨kind, n⟩ := r
          obtain ⟨_, _, hle⟩ := Lexeme.token?_le_length htok
          rw [go_token place lead htok, push] at h
          injection h with hcons hend
          obtain ⟨rfl, hts⟩ := List.cons.inj hcons
          have hlen : ((c :: v).take n).length = n := List.length_take_of_le hle
          refine ⟨[], (c :: v).drop n, by simp, .nil, by simp, rfl, ?_, ?_⟩
          · simp only [List.take_append_drop, hlen, htok]
          · rw [← hts, ← hend]

end Scan

/-! ## Tokens in a text -/

namespace Token

/-- The text that tokens stand for, with the ignored text in front of each. -/
def source (ts : List Token) : Text := ts.flatMap fun t => t.lead ++ t.text

@[simp] theorem source_nil : source [] = [] := rfl

@[simp] theorem source_cons (t : Token) (ts : List Token) :
    source (t :: ts) = t.lead ++ (t.text ++ source ts) := by
  simp [source]

@[simp] theorem source_append (ts us : List Token) :
    source (ts ++ us) = source ts ++ source us := by
  simp [source]

/-- The tokens start where they stand in a text that starts at `place`. -/
def Placed (place : SourcePosition) : List Token → Prop
  | [] => True
  | t :: ts => t.start = place.advance t.lead ∧ Placed (t.start.advance t.text) ts

/-- The text of the tokens, followed by `rest`, is cut into these tokens as far as they go. -/
def Lexes : List Token → Text → Prop
  | [], _ => True
  | t :: ts, rest =>
    Ignorable t.lead ∧
      Lexeme.token? (t.text ++ (source ts ++ rest)) = some (t.kind, t.text.length) ∧ Lexes ts rest

theorem Placed.append {place : SourcePosition} {ts us : List Token} :
    Placed place (ts ++ us) ↔ Placed place ts ∧ Placed (place.advance (source ts)) us := by
  induction ts generalizing place with
  | nil => simp [Placed, SourcePosition.advance]
  | cons t ts ih =>
    rw [List.cons_append, Placed, Placed, ih, source_cons, SourcePosition.advance_append,
      SourcePosition.advance_append, and_assoc]
    constructor
    · rintro ⟨h, h', h''⟩
      exact ⟨h, h', h ▸ h''⟩
    · rintro ⟨h, h', h''⟩
      exact ⟨h, h', by rwa [h]⟩

/-! ## Another rest -/

/-- Where no chunk goes on before a token, the token and what is in front of it say so. -/
theorem Lexes.stops {t : Token} {ts : List Token} {rest : Text} (h : Lexes (t :: ts) rest)
    (hnone : Lexeme.piece? false (source (t :: ts) ++ rest) = none) :
    Lexeme.Stops (source (t :: ts)) := by
  obtain ⟨hlead, htok, _⟩ := h
  obtain ⟨⟨c, v, hc, hb⟩, hpos, _⟩ := Lexeme.token?_le_length htok
  obtain ⟨x, hx⟩ : ∃ x, t.text = c :: x := by
    cases ht : t.text with
    | nil => simp [ht] at hpos
    | cons d x =>
      rw [ht] at hc
      exact ⟨x, by rw [(List.cons.inj hc).1]⟩
  obtain ⟨b, r, hbr, hspace, hr⟩ := hlead.exists_spaces
  have hblank : ∀ d ∈ b, isBlank d = true := fun d hd => Lexeme.isBlank_of_isSpace (hspace d hd)
  have hgap : b ≠ [] → Lexeme.gap? (source (t :: ts) ++ rest) = none := by
    intro _
    cases hg : Lexeme.gap? (source (t :: ts) ++ rest) with
    | none => rfl
    | some n =>
      have : Lexeme.piece? false (source (t :: ts) ++ rest) = some n :=
        Lexeme.piece?_eq_some_iff.mpr (Or.inr (Or.inr (Or.inr (Or.inr (Or.inr ⟨rfl, hg⟩)))))
      rw [hnone] at this
      exact nomatch this
  rcases hr with rfl | ⟨d, r, rfl, hd⟩
  · rw [List.append_nil] at hbr
    by_cases hne : b = []
    · -- the token itself stops the chunk
      subst hne
      have hsource : source (t :: ts) ++ rest = t.text ++ (source ts ++ rest) := by
        rw [source_cons, hbr]
        simp
      rw [hsource, hx, List.cons_append] at hnone
      rw [hx, List.cons_append] at htok
      refine Or.inl ⟨c, x ++ source ts, by rw [source_cons, hbr, hx]; rfl, ?_⟩
      rcases Lexeme.token?_eq_some_iff.mp htok with ⟨hd, _⟩ | ⟨_, rfl, _⟩ |
        ⟨_, _, _, _, hrest, hlen⟩
      · rcases TokenKind.ofDelimiter?_eq_some.mp hd with ⟨h, _⟩ | ⟨h, _⟩ | ⟨h, _⟩ | ⟨h, _⟩ |
          ⟨h, _⟩ <;> simp [h]
      · have hp := Lexeme.chunkRest_plain (c := '@') (t := x ++ (source ts ++ rest)) (by decide)
          (by decide) (Lexeme.address?_cons_of_ne (by decide))
          (Lexeme.interpolation?_cons_of_ne (by decide))
        rw [Lexeme.chunkRest_of_none hnone] at hp
        omega
      · rw [Lexeme.chunkRest_of_none hnone] at hrest
        omega
    · -- blanks before the token
      have hsource : source (t :: ts) ++ rest = b ++ c :: (x ++ (source ts ++ rest)) := by
        rw [source_cons, hbr, hx]
        simp
      rw [hsource, Lexeme.gap?_blanks hne hblank hb] at hgap
      refine Or.inr (Or.inr ⟨b, c, x ++ source ts, ?_, hne, hblank, ?_⟩)
      · rw [source_cons, hbr, hx]
        simp
      · refine Decidable.byContradiction fun hmark => ?_
        rw [if_neg hmark] at hgap
        exact nomatch hgap hne
  · by_cases hne : b = []
    · subst hne
      refine Or.inr (Or.inl ⟨d, r ++ (t.text ++ source ts), ?_, hd⟩)
      rw [source_cons, hbr]
      simp
    · -- blanks before a comment belong to the chunk
      have hsource : source (t :: ts) ++ rest =
          b ++ '/' :: (d :: r ++ (t.text ++ source ts) ++ rest) := by
        rw [source_cons, hbr]
        simp
      rw [hsource, Lexeme.gap?_blanks hne hblank (by decide), if_neg (by decide)] at hgap
      exact nomatch hgap hne

/-- The word before the parenthesis of an address. -/
def addressWord : Text := ['u', 'r', 'l']

/-- No chunk that ends with the word of an address is followed by the rest of one. -/
def Unaddressed : List Token → Text → Prop
  | [], _ => True
  | t :: ts, rest =>
    (t.kind = .chunk → addressWord <:+ t.text →
      Lexeme.address? (addressWord ++ (source ts ++ rest)) = none) ∧ Unaddressed ts rest

/-- A token whose kind is that of a chunk goes as far as pieces go. -/
theorem Lexes.chunkRest {t : Token} {ts : List Token} {rest : Text} (h : Lexes (t :: ts) rest)
    (hkind : t.kind = .chunk) :
    Lexeme.chunkRest 0 (t.text ++ (source ts ++ rest)) = t.text.length := by
  obtain ⟨_, htok, _⟩ := h
  obtain ⟨⟨c, v, hc, _⟩, _⟩ := Lexeme.token?_le_length htok
  rw [hc, hkind] at htok
  rcases Lexeme.token?_eq_some_iff.mp htok with ⟨hd, _⟩ | ⟨hk, _⟩ | ⟨_, _, _, _, hrest, _⟩
  · rcases TokenKind.ofDelimiter?_eq_some.mp hd with ⟨_, h⟩ | ⟨_, h⟩ | ⟨_, h⟩ | ⟨_, h⟩ | ⟨_, h⟩ <;>
      exact nomatch h
  · exact nomatch hk
  · rw [hc, hrest]

theorem Lexes.unaddressed {ts : List Token} {rest : Text} (h : Lexes ts rest) :
    Unaddressed ts rest := by
  induction ts with
  | nil => trivial
  | cons t ts ih =>
    refine ⟨fun hkind hurl => ?_, ih h.2.2⟩
    exact Lexeme.address?_eq_none_of_chunkRest (h.chunkRest hkind) hurl

theorem Lexes.text_ne_nil {t : Token} {ts : List Token} {rest : Text} (h : Lexes (t :: ts) rest) :
    ∃ c x, t.text = c :: x ∧ isBlank c = false := by
  obtain ⟨_, htok, _⟩ := h
  obtain ⟨⟨c, v, hc, hb⟩, hpos, _⟩ := Lexeme.token?_le_length htok
  cases ht : t.text with
  | nil => simp [ht] at hpos
  | cons d x =>
    rw [ht] at hc
    exact ⟨d, x, rfl, by rw [(List.cons.inj hc).1]; exact hb⟩

theorem Lexes.append {ts us : List Token} {rest : Text} :
    Lexes (ts ++ us) rest ↔ Lexes ts (source us ++ rest) ∧ Lexes us rest := by
  induction ts with
  | nil => simp [Lexes]
  | cons t ts ih =>
    rw [List.cons_append, Lexes, Lexes, ih, source_append, List.append_assoc, and_assoc, and_assoc]

theorem source_ne_nil {t : Token} {ts : List Token} {rest : Text} (h : Lexes (t :: ts) rest) :
    ∃ d v, source (t :: ts) = d :: v := by
  obtain ⟨d, x, ht, _⟩ := h.text_ne_nil
  cases hl : t.lead with
  | nil => exact ⟨d, x ++ source ts, by simp [hl, ht]⟩
  | cons e l => exact ⟨e, l ++ (t.text ++ source ts), by simp [hl]⟩

/-- A token of the kind of a delimiter is that character. -/
theorem Lexes.text_of_delimiter {t : Token} {ts : List Token} {rest : Text} {c : Char}
    (h : Lexes (t :: ts) rest) (hc : TokenKind.ofDelimiter? c = some t.kind) : t.text = [c] := by
  obtain ⟨d, x, ht, _⟩ := h.text_ne_nil
  have hkind := TokenKind.ofDelimiter?_eq_some.mp hc
  have htok := h.2.1
  rw [ht, List.cons_append] at htok
  rcases Lexeme.token?_eq_some_iff.mp htok with ⟨hd, hlen⟩ | ⟨hk, _⟩ | ⟨hk, _⟩
  · obtain rfl : x = [] := List.length_eq_zero_iff.mp (Nat.succ.inj hlen)
    have hkind' := TokenKind.ofDelimiter?_eq_some.mp hd
    have : d = c := by grind
    rw [ht, this]
  · simp [hk] at hkind
  · simp [hk] at hkind

/-- Tokens that start with a delimiter have it as their first one. -/
theorem Lexes.kind_of_head {t : Token} {ts : List Token} {rest : Text} {c : Char}
    {kind : TokenKind} (h : Lexes (t :: ts) rest) (hc : TokenKind.ofDelimiter? c = some kind)
    (hhead : (source (t :: ts)).head? = some c) : t.kind = kind := by
  obtain ⟨d, x, ht, _⟩ := h.text_ne_nil
  have hlead : t.lead = [] := by
    have hc' := TokenKind.ofDelimiter?_eq_some.mp hc
    obtain ⟨b, r, hbr, hb, hr⟩ := h.1.exists_spaces
    rw [source_cons, hbr] at hhead
    cases b with
    | cons e b =>
      obtain rfl := Option.some.inj hhead
      have hspace := hb e List.mem_cons_self
      rcases hc' with ⟨rfl, _⟩ | ⟨rfl, _⟩ | ⟨rfl, _⟩ | ⟨rfl, _⟩ | ⟨rfl, _⟩ <;>
        exact absurd hspace (by decide)
    | nil =>
      rcases hr with rfl | ⟨e, r, rfl, _⟩
      · exact hbr
      · obtain rfl := Option.some.inj hhead
        exact nomatch hc
  rw [source_cons, hlead, ht] at hhead
  obtain rfl := Option.some.inj hhead
  have htok := h.2.1
  rw [ht, List.cons_append, Lexeme.token?, hc] at htok
  exact (Prod.mk.inj (Option.some.inj htok)).1.symm

/-- Behind a chunk there is a stop. -/
theorem Lexes.stops_of_chunk {t u : Token} {us : List Token} {rest : Text}
    (h : Lexes (t :: u :: us) rest) (hkind : t.kind = .chunk) :
    Lexeme.Stops (source (u :: us)) := by
  apply h.2.2.stops
  have hnone := Lexeme.piece?_drop_chunkRest (t.text ++ (source (u :: us) ++ rest))
  rwa [h.chunkRest hkind, List.drop_left] at hnone

/-- A cut into tokens is the same before another rest, unless an address comes into being or an
interpolation is closed. Of the rest a part `z` is kept, before which the last token ends. -/
theorem Lexes.relay_before {ts : List Token} {z rest rest' : Text} (h : Lexes ts (z ++ rest))
    (hlast : ∀ t ∈ ts.getLast?, t.kind.isBoundary = true ∨
      z ≠ [] ∧ (t.kind = .chunk → Lexeme.Stops z))
    (haddr : Unaddressed ts (z ++ rest'))
    (hbrace : ∀ us vs, ts = us ++ vs → (source vs ++ z).head? = some '{' → '}' ∈ rest' →
      '}' ∈ source vs ++ z ++ rest) : Lexes ts (z ++ rest') := by
  induction ts with
  | nil => trivial
  | cons t ts ih =>
    have hts : Lexes ts (z ++ rest') := by
      refine ih h.2.2 (fun u hu => hlast u ?_) haddr.2 fun us vs hsplit =>
        hbrace (t :: us) vs (by rw [hsplit]; rfl)
      cases ts with
      | nil => exact nomatch hu
      | cons _ _ => simpa using hu
    refine ⟨h.1, ?_, hts⟩
    have hrest := h.2.1
    have hunaddressed := haddr.1
    have hassoc : ∀ r, source ts ++ (z ++ r) = (source ts ++ z) ++ r :=
      fun r => (List.append_assoc _ _ _).symm
    rw [hassoc] at hrest hunaddressed ⊢
    obtain ⟨c, x, htext, hb⟩ := h.text_ne_nil
    -- what is kept of the text behind the token is not empty and stops a chunk
    have hkept : t.kind.isBoundary = true ∨
        source ts ++ z ≠ [] ∧ (t.kind = .chunk → Lexeme.Stops (source ts ++ z)) := by
      cases ts with
      | nil => exact hlast t rfl
      | cons w ws =>
        obtain ⟨d, v, hd⟩ := source_ne_nil h.2.2
        exact Or.inr ⟨by simp [hd], fun hkind => (h.stops_of_chunk hkind).append z⟩
    rw [htext, List.cons_append] at hrest ⊢
    rw [Lexeme.token?_eq_some_iff] at hrest ⊢
    rcases hrest with ⟨hd, hn⟩ | ⟨hk, rfl, hn⟩ | ⟨hk, hd, hat, hb, hn, hpos⟩
    · exact Or.inl ⟨hd, hn⟩
    · refine Or.inr (Or.inl ⟨hk, rfl, ?_⟩)
      obtain ⟨hne, _⟩ := hkept.resolve_left (by simp [hk, TokenKind.isBoundary])
      -- the character behind the keyword stays
      obtain ⟨d, v, hd⟩ := List.exists_cons_of_ne_nil hne
      rw [hd, List.cons_append, ← List.cons_append] at hn ⊢
      exact Lexeme.atKeyword?_append hn _
    · refine Or.inr (Or.inr ⟨hk, hd, hat, hb, ?_, hpos⟩)
      obtain ⟨hne, hstops⟩ := hkept.resolve_left (by simp [hk, TokenKind.isBoundary])
      rw [← List.cons_append, ← htext] at hn ⊢
      exact Lexeme.chunkRest_append hn (hstops hk) (hunaddressed hk) fun hmark =>
        Lexeme.interpolation?_append_eq_none hne
          (Lexeme.interpolation?_eq_none_of_chunkRest hn hmark) (hbrace [t] ts rfl)

/-- A cut into tokens, with a boundary as the last one or more tokens behind them, is the same
before another rest, unless an address comes into being or an interpolation is closed. -/
theorem Lexes.relay_append {ts us : List Token} {rest rest' : Text} (h : Lexes (ts ++ us) rest)
    (hlast : us = [] → ∀ t ∈ ts.getLast?, t.kind.isBoundary = true)
    (haddr : Unaddressed ts (source us ++ rest')) (hbrace : '}' ∈ rest' → '}' ∈ rest) :
    Lexes ts (source us ++ rest') := by
  refine (Lexes.append.mp h).1.relay_before (fun t ht => ?_) haddr fun _ _ _ _ hmem =>
    List.mem_append_right _ (hbrace hmem)
  cases us with
  | nil => exact Or.inl (hlast rfl t ht)
  | cons u us =>
    obtain ⟨ts, rfl⟩ : ∃ ts', ts = ts' ++ [t] := List.getLast?_eq_some_iff.mp ht
    rw [List.append_assoc] at h
    have hlex := (Lexes.append.mp h).2
    obtain ⟨d, v, hd⟩ := source_ne_nil hlex.2.2
    exact Or.inr ⟨by simp [hd], hlex.stops_of_chunk⟩

/-- A cut into tokens that end with a boundary is the same before another rest, unless an address
comes into being or an interpolation is closed. -/
theorem Lexes.relay {ts : List Token} {rest rest' : Text} (h : Lexes ts rest)
    (hlast : ∀ t ∈ ts.getLast?, t.kind.isBoundary = true) (haddr : Unaddressed ts rest')
    (hbrace : '}' ∈ rest' → '}' ∈ rest) : Lexes ts rest' := by
  rw [← List.append_nil ts] at h
  exact h.relay_append (fun _ => hlast) haddr hbrace

/-- Where an address comes into being, there is a first chunk that is its start. -/
theorem exists_addressed {ts : List Token} {rest : Text} (h : ¬Unaddressed ts rest) :
    ∃ us t vs m, ts = us ++ t :: vs ∧ Unaddressed us (source (t :: vs) ++ rest) ∧
      t.kind = .chunk ∧ addressWord <:+ t.text ∧
      Lexeme.address? (addressWord ++ (source vs ++ rest)) = some m := by
  induction ts with
  | nil => exact absurd trivial h
  | cons t ts ih =>
    by_cases hhead : t.kind = .chunk → addressWord <:+ t.text →
        Lexeme.address? (addressWord ++ (source ts ++ rest)) = none
    · obtain ⟨us, u, vs, m, rfl, hus, hfound⟩ := ih fun hts => h ⟨hhead, hts⟩
      refine ⟨t :: us, u, vs, m, rfl, ⟨?_, hus⟩, hfound⟩
      rwa [source_append, List.append_assoc] at hhead
    · simp only [Classical.not_imp] at hhead
      obtain ⟨hkind, hurl, haddr⟩ := hhead
      obtain ⟨m, hm⟩ := Option.ne_none_iff_exists'.mp haddr
      exact ⟨[], t, ts, m, rfl, trivial, hkind, hurl, hm⟩

/-- Where an address comes into being, the first chunk that takes one in goes further than all the
tokens behind it. -/
theorem Lexes.exists_longer {ts : List Token} {rest rest' : Text} (h : Lexes ts rest)
    (hlast : ∀ t ∈ ts.getLast?, t.kind.isBoundary = true) (hbrace : '}' ∈ rest' → '}' ∈ rest)
    (haddr : ¬Unaddressed ts rest') :
    ∃ us t vs x w, ts = us ++ t :: vs ∧ t.kind = .chunk ∧ Lexes us (source (t :: vs) ++ rest') ∧
      source vs ++ rest' = x ++ w ∧ (source vs).length < x.length ∧
      Lexeme.token? (t.text ++ (x ++ w)) = some (.chunk, (t.text ++ x).length) := by
  obtain ⟨us, t, vs, m, rfl, hus, hkind, ⟨y, hy⟩, hm⟩ := exists_addressed haddr
  have hlex : Lexes (t :: vs) rest := (Lexes.append.mp h).2
  -- the chunk is not the last token
  obtain ⟨v, vs, rfl⟩ : ∃ v vs', vs = v :: vs' := by
    cases vs with
    | nil =>
      have hb := hlast t (by simp)
      rw [hkind] at hb
      exact nomatch hb
    | cons v vs => exact ⟨v, vs, rfl⟩
  have hstops := hlex.stops_of_chunk hkind
  have hcover := hlex.chunkRest hkind
  -- the address ends behind the seam, or it would have been one before
  have hlong : addressWord.length + (source (v :: vs)).length < m := by
    refine Nat.lt_of_not_le fun hle => ?_
    have hnone := hlex.unaddressed.1 hkind ⟨y, hy⟩
    rw [← List.append_assoc] at hm hnone
    rw [Lexeme.address?_closedBy.append hm (by simpa using hle) rest] at hnone
    exact nomatch hnone
  have hle : y.length + m ≤ Lexeme.chunkRest 0 (t.text ++ (source (v :: vs) ++ rest')) := by
    rw [← hy] at hcover ⊢
    rw [List.length_append] at hcover
    exact Lexeme.le_chunkRest_of_address hcover hstops hm
  obtain ⟨n, hn⟩ : ∃ n, Lexeme.chunkRest 0 (t.text ++ (source (v :: vs) ++ rest')) =
      t.text.length + n := by
    refine ⟨Lexeme.chunkRest 0 (t.text ++ (source (v :: vs) ++ rest')) - t.text.length, ?_⟩
    have hlen := congrArg List.length hy
    simp only [List.length_append] at hlen
    omega
  have hmax := Lexeme.chunkRest_le_length (t.text ++ (source (v :: vs) ++ rest'))
  have hlen := congrArg List.length hy
  rw [List.length_append] at hlen hmax
  have hx : ((source (v :: vs) ++ rest').take n).length = n := List.length_take_of_le (by omega)
  refine ⟨us, t, v :: vs, (source (v :: vs) ++ rest').take n, (source (v :: vs) ++ rest').drop n,
    rfl, hkind, ?_, (List.take_append_drop n _).symm, by omega, ?_⟩
  · exact h.relay_append (by simp) hus hbrace
  · rw [List.take_append_drop, List.length_append, hx, ← hn]
    obtain ⟨c, z, hz, _⟩ := hlex.text_ne_nil
    have htok := hlex.2.1
    rw [hz, List.cons_append] at htok ⊢
    rcases Lexeme.token?_eq_some_iff.mp htok with ⟨hd, _⟩ | ⟨hk, _⟩ | ⟨_, hd, hat, hb, _⟩
    · rw [hkind] at hd
      rcases TokenKind.ofDelimiter?_eq_some.mp hd with ⟨_, h⟩ | ⟨_, h⟩ | ⟨_, h⟩ | ⟨_, h⟩ |
        ⟨_, h⟩ <;> exact nomatch h
    · rw [hkind] at hk
      exact nomatch hk
    · refine Lexeme.token?_eq_some_iff.mpr (Or.inr (Or.inr ⟨rfl, hd, hat, hb, rfl, ?_⟩))
      rw [← List.cons_append, ← hz]
      omega

end Token

namespace Scan

open Token

/-- A scan starts with given tokens exactly where the text is cut into them. -/
theorem go_eq_append {place : SourcePosition} {v : Text} {ts us : List Token} {e : ScanEnd}
    (h : go place [] 0 v = ⟨ts ++ us, e⟩) :
    ∃ rest, v = source ts ++ rest ∧ Lexes ts rest ∧ Placed place ts ∧
      go (place.advance (source ts)) [] 0 rest = ⟨us, e⟩ := by
  induction ts generalizing place v with
  | nil => exact ⟨v, rfl, trivial, trivial, h⟩
  | cons t ts ih =>
    obtain ⟨w, v', rfl, hw, hlead, hstart, htok, hgo⟩ := go_eq_cons h
    rw [List.nil_append] at hlead
    subst hlead
    obtain ⟨rest, rfl, hlex, hplaced, hrest⟩ := ih hgo
    refine ⟨rest, by simp, ⟨hw, htok, hlex⟩, ⟨hstart, hplaced⟩, ?_⟩
    rw [source_cons, SourcePosition.advance_append, SourcePosition.advance_append, ← hstart]
    exact hrest

/-- Where a text is cut into tokens, the scan finds them and goes on behind them. -/
theorem go_append {place : SourcePosition} {rest : Text} {ts us : List Token} {e : ScanEnd}
    (hlex : Lexes ts rest) (hplaced : Placed place ts)
    (h : go (place.advance (source ts)) [] 0 rest = ⟨us, e⟩) :
    go place [] 0 (source ts ++ rest) = ⟨ts ++ us, e⟩ := by
  induction ts generalizing place with
  | nil => exact h
  | cons t ts ih =>
    obtain ⟨hw, htok, hlex⟩ := hlex
    obtain ⟨hstart, hplaced⟩ := hplaced
    have hrest : go (t.start.advance t.text) [] 0 (source ts ++ rest) = ⟨ts ++ us, e⟩ := by
      apply ih hlex hplaced
      rw [source_cons, SourcePosition.advance_append, SourcePosition.advance_append,
        ← hstart] at h
      exact h
    have hshape : source (t :: ts) ++ rest = t.lead ++ (t.text ++ (source ts ++ rest)) := by simp
    rw [hshape, go_ignorable place [] hw, List.nil_append, ← hstart, go_token _ _ htok,
      List.take_left, List.drop_left, hrest]
    rfl

/-- Where an address comes into being, the scan finds other tokens: the same ones up to a chunk,
which has become longer than all tokens behind it. -/
theorem exists_go_longer {place : SourcePosition} {ts : List Token} {rest rest' : Text}
    (h : Lexes ts rest) (hplaced : Placed place ts)
    (hlast : ∀ t ∈ ts.getLast?, t.kind.isBoundary = true) (hbrace : '}' ∈ rest' → '}' ∈ rest)
    (haddr : ¬Unaddressed ts rest') :
    ∃ us t vs t' zs e, ts = us ++ t :: vs ∧ t.kind = .chunk ∧ t'.kind = .chunk ∧
      t.text ++ source vs <+: t'.text ∧
      go place [] 0 (source ts ++ rest') = ⟨us ++ t' :: zs, e⟩ := by
  obtain ⟨us, t, vs, x, w, rfl, hkind, hus, hx, hlt, htok⟩ := h.exists_longer hlast hbrace haddr
  have hprefix : source vs <+: x := by
    rcases List.append_eq_append_iff.mp hx with ⟨x', hx', _⟩ | ⟨x', hx', _⟩
    · exact ⟨x', hx'.symm⟩
    · rw [hx', List.length_append] at hlt
      omega
  -- up to the chunk the other text is cut as before
  have hgo : go (place.advance (source us)) [] 0 (source (t :: vs) ++ rest') =
      (go (((place.advance (source us)).advance t.lead).advance (t.text ++ x)) [] 0 w).push
        ⟨.chunk, t.lead, t.text ++ x, (place.advance (source us)).advance t.lead⟩ := by
    rw [source_cons, List.append_assoc, List.append_assoc, hx,
      go_ignorable _ _ (Lexes.append.mp h).2.1, go_token _ _ htok, ← List.append_assoc,
      List.take_left, List.drop_left]
    rfl
  have hscan := go_append hus (Placed.append.mp hplaced).1 hgo
  rw [← List.append_assoc, ← source_append] at hscan
  exact ⟨us, t, vs, _, _, _, rfl, hkind, rfl, (List.prefix_append_right_inj t.text).mpr hprefix,
    hscan⟩

end Scan

/-! ## The same text elsewhere -/

theorem Text.trimEnd_ne_nil {t : Text} {c : Char} (hc : c ∈ t) (hb : isBlank c = false) :
    t.trimEnd ≠ [] := by
  intro h
  have hall : ∀ d ∈ t, isBlank d = true := by
    rw [Text.trimEnd, Text.dropEndWhile, List.reverse_eq_nil_iff, List.dropWhile_eq_nil_iff] at h
    simpa using h
  rw [hall c hc] at hb
  exact nomatch hb

namespace Token

/-- Tokens that differ in their places only, and where a statement starts or ends in the ignored
text in front of them. Their starts went by `f` and their ends by `g`; `fresh` says that a statement
may start with the first of them. -/
inductive Alike (f g : SourcePosition → SourcePosition) : Bool → List Token → List Token → Prop
  | nil {fresh : Bool} : Alike f g fresh [] []
  | cons {fresh : Bool} {t t' : Token} {ts ts' : List Token} :
      t'.kind = t.kind → t'.text = t.text → t'.start = f t.start → t'.stop = g t.stop →
      (fresh = true ∨ t.kind.isBoundary = true ∨ t'.lead = t.lead) →
      Alike f g t.kind.isBoundary ts ts' → Alike f g fresh (t :: ts) (t' :: ts')

end Token

namespace Scan

open Token

/-- The scans of one text from two places find the same tokens. -/
theorem go_alike {f g : SourcePosition → SourcePosition} {a b : SourcePosition}
    (hf : ∀ w, f (a.advance w) = b.advance w) (hg : ∀ w, w ≠ [] → g (a.advance w) = b.advance w)
    {fresh : Bool} {lead lead' : Text} (hlead : fresh = true ∨ lead' = lead) (w v : Text) :
    Alike f g fresh (go (a.advance w) lead 0 v).tokens (go (b.advance w) lead' 0 v).tokens ∧
      ((go (a.advance w) lead 0 v).ending = .complete →
        (go (b.advance w) lead' 0 v).ending = .complete) := by
  induction hl : v.length using Nat.strongRecOn generalizing v w fresh lead lead' with
  | ind l ih =>
    cases hi : Lexeme.ignored? v with
    | some n =>
      obtain ⟨hpos, hle⟩ := Lexeme.ignored?_le_length hi
      rw [go_ignored _ lead hi, go_ignored _ lead' hi, ← SourcePosition.advance_append,
        ← SourcePosition.advance_append]
      refine ih (v.drop n).length (by simp; omega) ?_ _ _ rfl
      exact hlead.imp_right fun h => by rw [h]
    | none =>
      cases htok : Lexeme.token? v with
      | some r =>
        obtain ⟨kind, n⟩ := r
        obtain ⟨⟨c, u, hv, hb⟩, hpos, hle⟩ := Lexeme.token?_le_length htok
        rw [go_token _ lead htok, go_token _ lead' htok, ← SourcePosition.advance_append,
          ← SourcePosition.advance_append]
        have hrest : Alike f g kind.isBoundary
            (go (a.advance (w ++ v.take n)) [] 0 (v.drop n)).tokens
            (go (b.advance (w ++ v.take n)) [] 0 (v.drop n)).tokens ∧ _ :=
          ih (v.drop n).length (by simp; omega) (Or.inr rfl) _ _ rfl
        obtain ⟨htokens, hend⟩ := hrest
        refine ⟨.cons rfl rfl (hf w).symm ?_ ?_ htokens, hend⟩
        · have hne : Text.trimEnd (v.take n) ≠ [] := by
            apply Text.trimEnd_ne_nil (c := c) _ hb
            obtain ⟨m, rfl⟩ : ∃ m, n = m + 1 := ⟨n - 1, by omega⟩
            rw [hv]
            simp
          simp only [Token.stop, Token.content]
          rw [← SourcePosition.advance_append, ← SourcePosition.advance_append, hg]
          simp [hne]
        · exact hlead.imp_right Or.inr
      | none =>
        cases v with
        | nil => exact ⟨.nil, fun _ => rfl⟩
        | cons c v =>
          rw [go, go, hi, htok]
          exact ⟨.nil, fun h => nomatch h⟩

end Scan
end Stacking
