import Stacking.Proofs.Style.Patterns

/-!
# Terminals

A text is split into tokens by matching the expressions of the kinds of token and of ignored text
one after the other from left to right (`Splits`). At every place at most one of them matches
(`TokenKind.match?_regex`, `Filler.match?_regex`), so the scan of a text is its only complete split
(`splits_iff`).
-/

namespace Stacking

/-! ## Kinds of token and of ignored text -/

open Regex

/-- The expression of a kind of token. -/
def TokenKind.regex : TokenKind → Regex
  | .chunk => Regex.chunk
  | .atKeyword => Regex.atKeyword
  | .openBrace => char '{'
  | .closeBrace => char '}'
  | .openParen => char '('
  | .closeParen => char ')'
  | .semicolon => char ';'

/-- The kinds of text that is ignored between tokens. -/
inductive Filler where
  | spaces
  | comment
  | lineComment

/-- The expression of a kind of ignored text. -/
def Filler.regex : Filler → Regex
  | .spaces => Regex.spaces
  | .comment => Regex.comment
  | .lineComment => Regex.lineComment

namespace Lexeme

theorem token?_chunk_iff {t : Text} {n : Nat} :
    token? t = some (.chunk, n) ↔ chunk? t = some n := by
  cases t with
  | nil => exact ⟨nofun, nofun⟩
  | cons c t =>
    constructor
    · intro h
      rcases token?_eq_some_iff.mp h with ⟨hd, _⟩ | ⟨hk, _⟩ | ⟨_, _, hat, hb, hrest, hpos⟩
      · rcases TokenKind.ofDelimiter?_eq_some.mp hd with ⟨_, hk⟩ | ⟨_, hk⟩ | ⟨_, hk⟩ | ⟨_, hk⟩ |
          ⟨_, hk⟩ <;> cases hk
      · cases hk
      · exact chunk?_eq_some_iff.mpr ⟨hpos, hrest, hat, hb⟩
    · intro h
      obtain ⟨hpos, hrest, hat, hb⟩ := chunk?_eq_some_iff.mp h
      refine token?_eq_some_iff.mpr (Or.inr (Or.inr ⟨rfl, ?_, hat, hb, hrest, hpos⟩))
      cases hd : TokenKind.ofDelimiter? c with
      | none => rfl
      | some kind =>
        -- a delimiter is no piece of a chunk
        have hstop : Stops (c :: t) := Or.inl ⟨c, t, rfl, by
          have := TokenKind.ofDelimiter?_eq_some.mp hd
          grind⟩
        rw [chunkRest_of_none hstop.piece?_eq_none] at hrest
        omega

theorem token?_atKeyword_iff {t : Text} {n : Nat} :
    token? t = some (.atKeyword, n) ↔ atKeyword? t = some n := by
  constructor
  · intro h
    obtain ⟨⟨c, v, rfl, _⟩, _⟩ := token?_le_length h
    rcases token?_eq_some_iff.mp h with ⟨hd, _⟩ | ⟨_, _, hat⟩ | ⟨hk, _⟩
    · rcases TokenKind.ofDelimiter?_eq_some.mp hd with ⟨_, hk⟩ | ⟨_, hk⟩ | ⟨_, hk⟩ | ⟨_, hk⟩ |
        ⟨_, hk⟩ <;> cases hk
    · exact hat
    · cases hk
  · intro h
    obtain ⟨c, v, rfl, _⟩ := atKeyword?_eq_some h
    exact token?_eq_some_iff.mpr (Or.inr (Or.inl ⟨rfl, rfl, h⟩))

theorem token?_delimiter_iff {d : Char} {kind : TokenKind} {t : Text} {n : Nat}
    (hd : TokenKind.ofDelimiter? d = some kind) :
    token? t = some (kind, n) ↔ n = 1 ∧ ∃ r, t = d :: r := by
  have hkind := TokenKind.ofDelimiter?_eq_some.mp hd
  constructor
  · intro h
    obtain ⟨⟨c, v, rfl, _⟩, _⟩ := token?_le_length h
    rcases token?_eq_some_iff.mp h with ⟨hc, rfl⟩ | ⟨rfl, _⟩ | ⟨rfl, _⟩
    · have hkind' := TokenKind.ofDelimiter?_eq_some.mp hc
      exact ⟨rfl, v, by grind⟩
    · simp at hkind
    · simp at hkind
  · rintro ⟨rfl, r, rfl⟩
    exact token?_eq_some_iff.mpr (Or.inl ⟨hd, rfl⟩)

end Lexeme

/-- Where the expression of a kind matches, there is a token of that kind, and no other. -/
theorem TokenKind.match?_regex {kind : TokenKind} {t r : Text} :
    kind.regex.match? t = some r ↔ ∃ n, Lexeme.token? t = some (kind, n) ∧ t.drop n = r := by
  have hdelimiter : ∀ d, TokenKind.ofDelimiter? d = some kind →
      ((char d).match? t = some r ↔ ∃ n, Lexeme.token? t = some (kind, n) ∧ t.drop n = r) := by
    intro d hd
    simp only [match?_char_eq_some, Lexeme.token?_delimiter_iff hd]
    constructor
    · rintro rfl
      exact ⟨1, ⟨rfl, r, rfl⟩, rfl⟩
    · rintro ⟨_, ⟨rfl, v, rfl⟩, rfl⟩
      rfl
  cases kind with
  | chunk => simp only [regex, takes_chunk t, Lexeme.token?_chunk_iff, Option.map_eq_some_iff]
  | atKeyword =>
    simp only [regex, takes_atKeyword t, Lexeme.token?_atKeyword_iff, Option.map_eq_some_iff]
  | openBrace => exact hdelimiter '{' rfl
  | closeBrace => exact hdelimiter '}' rfl
  | openParen => exact hdelimiter '(' rfl
  | closeParen => exact hdelimiter ')' rfl
  | semicolon => exact hdelimiter ';' rfl

/-- Where the expression of ignored text matches, just that is ignored. -/
theorem Filler.match?_regex {t r : Text} :
    (∃ filler : Filler, filler.regex.match? t = some r) ↔
      ∃ n, Lexeme.ignored? t = some n ∧ t.drop n = r := by
  constructor
  · rintro ⟨filler, h⟩
    cases filler with
    | spaces =>
      cases t with
      | nil => exact nomatch h
      | cons c t =>
        rw [regex, match?_spaces_cons] at h
        split at h
        · rename_i hc
          obtain rfl := Option.some.inj h
          have hslash : c ≠ '/' := by
            rintro rfl
            exact absurd hc (by decide)
          have hign : Lexeme.ignored? (c :: t) =
              some ((t.takeWhile Lexeme.isSpace).length + 1) := by
            rw [Lexeme.ignored?.eq_def]
            grind
          exact ⟨_, hign, (dropWhile_eq_drop _ t).symm⟩
        · cases h
    | comment =>
      rw [regex] at h
      obtain ⟨rest, rfl⟩ := exists_of_match?_str h
      rw [match?_comment] at h
      obtain ⟨n, hn, rfl⟩ := Option.map_eq_some_iff.mp h
      exact ⟨n + 2, by simp [Lexeme.ignored?, hn], rfl⟩
    | lineComment =>
      rw [regex] at h
      obtain ⟨rest, rfl⟩ := exists_of_match?_str h
      rw [match?_lineComment] at h
      obtain rfl := Option.some.inj h
      exact ⟨_, rfl, (dropWhile_eq_drop _ rest).symm⟩
  · rintro ⟨n, hn, rfl⟩
    rw [Lexeme.ignored?.eq_def] at hn
    split at hn
    · rename_i rest
      obtain ⟨m, hm, rfl⟩ := Option.map_eq_some_iff.mp hn
      have hmatch := match?_comment rest
      rw [hm] at hmatch
      exact ⟨.comment, hmatch⟩
    · rename_i rest
      obtain rfl := Option.some.inj hn
      have hmatch := match?_lineComment rest
      rw [dropWhile_eq_drop] at hmatch
      exact ⟨.lineComment, hmatch⟩
    · rename_i c rest _ _
      split at hn
      · rename_i hc
        obtain rfl := Option.some.inj hn
        have hmatch := match?_spaces_cons c rest
        rw [if_pos hc, dropWhile_eq_drop] at hmatch
        exact ⟨.spaces, hmatch⟩
      · cases hn
    · cases hn

/-! ## Splitting a text -/

/-- A token as a leaf of a derivation: its kind and its text. -/
structure Leaf where
  kind : TokenKind
  text : Text
deriving DecidableEq

/-- The token without what stands around it. -/
def Token.leaf (t : Token) : Leaf := ⟨t.kind, t.text⟩

/-- The text is split completely from left to right: the expression of a kind of token or of ignored
text is matched at its start, then one at what is left, and so on. The tokens are listed. -/
inductive Splits : Text → List Leaf → Prop
  | nil : Splits [] []
  | token {kind : TokenKind} {x rest : Text} {ls : List Leaf} :
      kind.regex.match? (x ++ rest) = some rest → Splits rest ls →
      Splits (x ++ rest) (⟨kind, x⟩ :: ls)
  | ignored {filler : Filler} {x rest : Text} {ls : List Leaf} :
      filler.regex.match? (x ++ rest) = some rest → Splits rest ls → Splits (x ++ rest) ls

/-- What is left behind an extent within a text tells the extent. -/
theorem take_of_drop_append {x rest : Text} {n : Nat} (h : (x ++ rest).drop n = rest) :
    (x ++ rest).take n = x := by
  have happ := List.take_append_drop n (x ++ rest)
  rw [h] at happ
  exact List.append_cancel_right happ

theorem Splits.scan {t : Text} {ls : List Leaf} (h : Splits t ls) (place : SourcePosition)
    (lead : Text) :
    (Scan.go place lead 0 t).ending = .complete ∧
      (Scan.go place lead 0 t).tokens.map Token.leaf = ls := by
  induction h generalizing place lead with
  | nil => exact ⟨rfl, rfl⟩
  | token hmatch _ ih =>
    obtain ⟨n, htok, hdrop⟩ := TokenKind.match?_regex.mp hmatch
    rw [Scan.go_token place lead htok, hdrop, take_of_drop_append hdrop]
    exact ⟨(ih _ _).1, congrArg (_ :: ·) (ih _ _).2⟩
  | ignored hmatch _ ih =>
    obtain ⟨n, hign, hdrop⟩ := Filler.match?_regex.mp ⟨_, hmatch⟩
    rw [Scan.go_ignored place lead hign, hdrop]
    exact ih _ _

theorem exists_append_of_le_length {t : Text} {n : Nat} (h : n ≤ t.length) :
    ∃ x rest, t = x ++ rest ∧ n = x.length :=
  ⟨t.take n, t.drop n, (List.take_append_drop n t).symm, by rw [List.length_take]; omega⟩

theorem splits_of_complete {place : SourcePosition} {lead t : Text}
    (h : (Scan.go place lead 0 t).ending = .complete) :
    Splits t ((Scan.go place lead 0 t).tokens.map Token.leaf) := by
  induction hl : t.length using Nat.strongRecOn generalizing place lead t with
  | ind l ih =>
    cases hign : Lexeme.ignored? t with
    | some n =>
      obtain ⟨hpos, hle⟩ := Lexeme.ignored?_le_length hign
      obtain ⟨x, rest, rfl, rfl⟩ := exists_append_of_le_length hle
      obtain ⟨filler, hmatch⟩ := Filler.match?_regex.mpr ⟨_, hign, List.drop_left⟩
      rw [List.length_append] at hl
      rw [Scan.go_ignored place lead hign, List.drop_left] at h ⊢
      exact .ignored hmatch (ih rest.length (by omega) h rfl)
    | none =>
      cases htok : Lexeme.token? t with
      | some found =>
        obtain ⟨kind, n⟩ := found
        obtain ⟨_, hpos, hle⟩ := Lexeme.token?_le_length htok
        obtain ⟨x, rest, rfl, rfl⟩ := exists_append_of_le_length hle
        have hmatch := TokenKind.match?_regex.mpr ⟨_, htok, List.drop_left⟩
        rw [List.length_append] at hl
        rw [Scan.go_token place lead htok, List.drop_left, List.take_left] at h ⊢
        exact .token hmatch (ih rest.length (by omega) h rfl)
      | none =>
        cases t with
        | nil => exact .nil
        | cons c t =>
          rw [Scan.go] at h
          simp [hign, htok] at h

/-- The scan of a text is its only complete split. -/
theorem splits_iff {t : Text} {ls : List Leaf} :
    Splits t ls ↔
      (Scan.ofText t).ending = .complete ∧ (Scan.ofText t).tokens.map Token.leaf = ls := by
  constructor
  · intro h
    exact h.scan .first []
  · rintro ⟨hend, rfl⟩
    exact splits_of_complete hend

end Stacking
