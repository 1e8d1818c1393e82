import Stacking.Proofs.Style.Layout
import Stacking.Proofs.Text.Regex

/-!
# Expressions of tokens and of ignored text

The kinds of token and of ignored text as regular expressions. Every expression takes just as much
of a text as the extent of its kind says (`Regex.Takes`). Where an expression could go back on a
choice, it would find nothing new: strings, interpolations and comments stop only at their closing
mark, and the blanks in front of an address could only be taken for those at its end
(`match?_blanks_addressRest`).
-/

namespace Stacking
namespace Regex

/-! ## Expressions -/

/-- Whether a character is none of those listed. -/
def noneOf (cs : List Char) (c : Char) : Bool := !cs.contains c

/-- A blank: `\s` -/
def blank : Regex := one isBlank

/-- A character of the class, or any character of the line behind a backslash: `[…]|\\.` -/
def escapable (p : Char → Bool) : Regex := alt (one p) (seq (char '\\') dot)

/-- A string in quotes of one kind: `"(?:[^"\\\n]|\\.)*"` -/
def quotedString (q : Char) : Regex :=
  seq (char q) (seq (star true (escapable (noneOf [q, '\\', '\n']))) (char q))

/-- The characters of an unquoted address: `[^()"'\\\s]` -/
def addressCharacter (c : Char) : Bool := noneOf ['(', ')', '"', '\'', '\\'] c && !isBlank c

/-- The end of an address: `\s*\)` -/
def addressEnd : Regex := seq (star true blank) (char ')')

/-- What follows the blanks of an address: `(?:[^()"'\\\s]|\\.)*\s*\)` -/
def addressRest : Regex := seq (star true (escapable addressCharacter)) addressEnd

/-- An unquoted address: `url\(\s*(?:[^()"'\\\s]|\\.)*\s*\)` -/
def address : Regex := seq (str ['u', 'r', 'l', '(']) (seq (star true blank) addressRest)

/-- An interpolation: `#\{[^}]*\}` -/
def interpolation : Regex :=
  seq (str ['#', '{']) (seq (star true (one (noneOf ['}']))) (char '}'))

/-- A slash that opens no comment: `\/(?![*\/])` -/
def slash : Regex := seq (char '/') (notAhead (one fun c => c == '*' || c == '/'))

/-- The characters without a meaning of their own: `[^{};\/"'()\s]` -/
def plainCharacter (c : Char) : Bool :=
  noneOf ['{', '}', ';', '/', '"', '\'', '(', ')'] c && !isBlank c

/-- Blanks between pieces: `\s+(?=[^{};\s])` -/
def gap : Regex :=
  seq (plus blank) (ahead (one fun c => noneOf ['{', '}', ';'] c && !isBlank c))

/-- A piece of a chunk. The first one is not blank and does not start with an at-sign. -/
def piece (first : Bool) : Regex :=
  alt (alt (quotedString '"') (quotedString '\'')) (alt address (alt interpolation (alt slash
    (if first then one fun c => plainCharacter c && c != '@'
    else alt (one plainCharacter) gap))))

/-- One piece or more. -/
def chunk : Regex := seq (piece true) (star true (piece false))

/-- An at-keyword: `@[A-Za-z_-][\w-]*` -/
def atKeyword : Regex :=
  seq (char '@') (seq (one fun c => c.isAlpha || c == '_' || c == '-')
    (star true (one fun c => isWord c || c == '-')))

/-- Spaces between tokens: `[ \t\f\r\n]+` -/
def spaces : Regex := plus (one [' ', '\t', '\x0c', '\r', '\n'].contains)

/-- A comment: `\/\*[\s\S]*?\*\/` -/
def comment : Regex :=
  seq (str ['/', '*']) (seq (star false (one fun _ => true)) (str ['*', '/']))

/-- A comment up to the end of its line: `\/\/[^\n]*` -/
def lineComment : Regex := seq (str ['/', '/']) (star true (one (noneOf ['\n'])))

/-! ## Strings -/

section Escapable

variable {p : Char → Bool} {c : Char}

theorem consumes_escapable (p : Char → Bool) : (escapable p).Consumes :=
  (consumes_one p).alt ((consumes_one _).seq dot)

theorem ends_escapable_nil : (escapable p).ends [] = [] := rfl

theorem ends_escapable_of_pos (hc : c ≠ '\\') (h : p c = true) (t : Text) :
    (escapable p).ends (c :: t) = [t] := by
  simp [escapable, ends, char, hc, h]

theorem ends_escapable_of_neg (hc : c ≠ '\\') (h : p c = false) (t : Text) :
    (escapable p).ends (c :: t) = [] := by
  simp [escapable, ends, char, hc, h]

theorem ends_escapable_backslash (h : p '\\' = false) (t : Text) :
    (escapable p).ends ('\\' :: t) = dot.ends t := by
  simp [escapable, ends, char, h]

end Escapable

/-- Behind the opening quote the repetition stops only at the closing one. -/
theorem takes_quotedRest {q : Char} (hq : q ≠ '\\') :
    Takes (seq (star true (escapable (noneOf [q, '\\', '\n']))) (char q))
      (Lexeme.quotedRest? q) := by
  intro t
  have hcons := consumes_escapable (noneOf [q, '\\', '\n'])
  have hback : noneOf [q, '\\', '\n'] '\\' = false := by simp [noneOf]
  induction t using Lexeme.quotedRest?.induct q with
  | case1 =>
    rw [match?_star_seq_of_nil hcons _ ends_escapable_nil]
    rfl
  | case2 =>
    rw [match?_star_seq_of_nil hcons _ (ends_escapable_backslash hback []),
      match?_char_of_ne (Ne.symm hq)]
    rfl
  | case3 rest =>
    rw [match?_star_seq_of_nil hcons _ (ends_escapable_backslash hback _),
      match?_char_of_ne (Ne.symm hq)]
    rfl
  | case4 d rest hd ih =>
    have hends : (escapable (noneOf [q, '\\', '\n'])).ends ('\\' :: d :: rest) = [rest] := by
      rw [ends_escapable_backslash hback]
      simp [dot, ends, hd]
    have hext : Lexeme.quotedRest? q ('\\' :: d :: rest) =
        (Lexeme.quotedRest? q rest).map (· + 2) := by
      simp [Lexeme.quotedRest?, hd]
    rw [match?_star_seq_of_single hcons _ hends, match?_char_of_ne (Ne.symm hq), ih, hext,
      Option.or_none]
    exact (map_drop_add ['\\', d] rest _).symm
  | case5 rest _ =>
    have hends := ends_escapable_of_neg hq (p := noneOf [q, '\\', '\n']) (by simp [noneOf]) rest
    rw [match?_star_seq_of_nil hcons _ hends, match?_char_self, Lexeme.quotedRest?.eq_def]
    simp [hq]
  | case6 rest hb hn =>
    have hends := ends_escapable_of_neg hb (p := noneOf [q, '\\', '\n']) (by simp [noneOf]) rest
    rw [match?_star_seq_of_nil hcons _ hends, match?_char_of_ne hn, Lexeme.quotedRest?.eq_def]
    simp [hn]
  | case7 c rest hb hc hn ih =>
    have hends := ends_escapable_of_pos hb (p := noneOf [q, '\\', '\n'])
      (by simp [noneOf, hb, hc, hn]) rest
    have hext : Lexeme.quotedRest? q (c :: rest) = (Lexeme.quotedRest? q rest).map (· + 1) := by
      rw [Lexeme.quotedRest?.eq_def]
      simp [hb, hc, hn]
    rw [match?_star_seq_of_single hcons _ hends, match?_char_of_ne hc, ih, hext, Option.or_none]
    exact (map_drop_add [c] rest _).symm

theorem takes_quotedString :
    Takes (alt (quotedString '"') (quotedString '\'')) Lexeme.quoted? := by
  intro t
  rw [match?_alt, quotedString, quotedString]
  cases t with
  | nil => rfl
  | cons c rest =>
    by_cases hd : c = '"'
    · subst hd
      rw [match?_seq_of_single (ends_char_self '"' rest), takes_quotedRest (by decide),
        match?_seq_of_nil (ends_char_of_ne (by decide) rest), Option.or_none]
      exact (map_drop_add ['"'] rest _).symm
    · by_cases hs : c = '\''
      · subst hs
        rw [match?_seq_of_single (ends_char_self '\'' rest), takes_quotedRest (by decide),
          match?_seq_of_nil (ends_char_of_ne (by decide) rest), Option.none_or]
        exact (map_drop_add ['\''] rest _).symm
      · rw [match?_seq_of_nil (ends_char_of_ne hd rest),
          match?_seq_of_nil (ends_char_of_ne hs rest), Lexeme.quoted?_cons_of_ne hd hs]
        rfl

/-! ## Addresses -/

theorem consumes_blank : blank.Consumes := consumes_one isBlank

theorem ends_blank_of_pos {c : Char} (h : isBlank c = true) (t : Text) :
    blank.ends (c :: t) = [t] := by
  rw [blank, ends_one_cons, if_pos h]

theorem ends_blank_of_neg {c : Char} (h : isBlank c = false) (t : Text) :
    blank.ends (c :: t) = [] := by
  rw [blank, ends_one_cons, if_neg (by simp [h])]

/-- Blanks in front are passed over if nothing that follows them could start with a blank, or would
find the same by passing over them itself. -/
theorem match?_blanks (b : Regex) (t : Text)
    (hb : ∀ c u, isBlank c = true → b.match? (c :: u) = none ∨
      b.match? (c :: u) = b.match? (u.dropWhile isBlank)) :
    (seq (star true blank) b).match? t = b.match? (t.dropWhile isBlank) := by
  induction t with
  | nil => exact match?_star_seq_of_nil consumes_blank b rfl
  | cons c t ih =>
    cases hc : isBlank c with
    | true =>
      rw [match?_star_seq_of_single consumes_blank b (ends_blank_of_pos hc t), ih,
        List.dropWhile_cons_of_pos hc]
      rcases hb c t hc with hnone | hsame
      · rw [hnone, Option.or_none]
      · rw [hsame, Option.or_self]
    | false =>
      rw [match?_star_seq_of_nil consumes_blank b (ends_blank_of_neg hc t),
        List.dropWhile_cons_of_neg (by simp [hc])]

theorem match?_addressEnd (t : Text) :
    addressEnd.match? t = (char ')').match? (t.dropWhile isBlank) := by
  refine match?_blanks (char ')') t fun c u hc => Or.inl (match?_char_of_ne ?_ u)
  rintro rfl
  exact absurd hc (by decide)

theorem drop_blanks (t : Text) : t.drop (Lexeme.blanks t) = t.dropWhile isBlank :=
  (dropWhile_eq_drop isBlank t).symm

theorem takes_addressEnd : Takes addressEnd Lexeme.addressEnd? := by
  intro t
  rw [match?_addressEnd, Lexeme.addressEnd?, ← drop_blanks]
  cases hrest : t.drop (Lexeme.blanks t) with
  | nil => rfl
  | cons c rest =>
    by_cases hc : c = ')'
    · subst hc
      rw [match?_char_self, List.head?_cons, if_pos rfl, Option.map_some, ← List.drop_drop, hrest,
        List.drop_one, List.tail_cons]
    · have hne : ¬(c :: rest).head? = some ')' := fun h => hc (Option.some.inj h)
      rw [match?_char_of_ne hc, if_neg hne]
      rfl

/-- Nothing but blanks and the closing parenthesis ends an address. -/
theorem match?_addressEnd_of_ne {c : Char} (hb : isBlank c = false) (hc : c ≠ ')') (t : Text) :
    addressEnd.match? (c :: t) = none := by
  rw [match?_addressEnd, List.dropWhile_cons_of_neg (by simp [hb]), match?_char_of_ne hc]

theorem takes_addressRest : Takes addressRest Lexeme.addressRest? := by
  intro t
  have hcons := consumes_escapable addressCharacter
  have hback : addressCharacter '\\' = false := by decide
  rw [addressRest]
  induction t using Lexeme.addressRest?.induct with
  | case1 =>
    rw [match?_star_seq_of_nil hcons _ ends_escapable_nil, takes_addressEnd]
    rfl
  | case2 =>
    rw [match?_star_seq_of_nil hcons _ (ends_escapable_backslash hback []),
      match?_addressEnd_of_ne (by decide) (by decide)]
    rfl
  | case3 rest =>
    rw [match?_star_seq_of_nil hcons _ (ends_escapable_backslash hback _),
      match?_addressEnd_of_ne (by decide) (by decide)]
    rfl
  | case4 d rest hd ih =>
    have hends : (escapable addressCharacter).ends ('\\' :: d :: rest) = [rest] := by
      rw [ends_escapable_backslash hback]
      simp [dot, ends, hd]
    have hext : Lexeme.addressRest? ('\\' :: d :: rest) =
        (Lexeme.addressRest? rest).map (· + 2) := by
      simp [Lexeme.addressRest?, hd]
    rw [match?_star_seq_of_single hcons _ hends, match?_addressEnd_of_ne (by decide) (by decide),
      ih, hext, Option.or_none]
    exact (map_drop_add ['\\', d] rest _).symm
  | case5 c rest hb hend =>
    have hneg : addressCharacter c = false := by
      have hend' : c = ')' ∨ isBlank c = true := by simpa using hend
      rcases hend' with rfl | hblank
      · decide
      · simp [addressCharacter, hblank]
    rw [match?_star_seq_of_nil hcons _ (ends_escapable_of_neg hb hneg rest), takes_addressEnd,
      Lexeme.addressRest?.eq_def]
    simp only [if_neg hb, if_pos hend]
  | case6 c rest hb hend hbad =>
    have hend' : ¬c = ')' ∧ isBlank c = false := by simpa using hend
    have hneg : addressCharacter c = false := by
      have hbad' : (c = '(' ∨ c = '"') ∨ c = '\'' := by simpa using hbad
      rcases hbad' with (rfl | rfl) | rfl <;> decide
    rw [match?_star_seq_of_nil hcons _ (ends_escapable_of_neg hb hneg rest),
      match?_addressEnd_of_ne hend'.2 hend'.1, Lexeme.addressRest?.eq_def]
    simp only [if_neg hb, if_neg hend, if_pos hbad, Option.map_none]
  | case7 c rest hb hend hbad ih =>
    have hend' : ¬c = ')' ∧ isBlank c = false := by simpa using hend
    have hpos : addressCharacter c = true := by
      have hbad' : (¬c = '(' ∧ ¬c = '"') ∧ ¬c = '\'' := by simpa using hbad
      simp [addressCharacter, noneOf, hend', hbad', hb]
    have hext : Lexeme.addressRest? (c :: rest) = (Lexeme.addressRest? rest).map (· + 1) := by
      rw [Lexeme.addressRest?.eq_def]
      simp only [if_neg hb, if_neg hend, if_neg hbad]
    rw [match?_star_seq_of_single hcons _ (ends_escapable_of_pos hb hpos rest),
      match?_addressEnd_of_ne hend'.2 hend'.1, ih, hext, Option.or_none]
    exact (map_drop_add [c] rest _).symm

/-- The blanks in front of an address might also be taken for those at its end, with the same
rest. -/
theorem match?_blanks_addressRest (t : Text) :
    (seq (star true blank) addressRest).match? t = addressRest.match? (t.dropWhile isBlank) := by
  refine match?_blanks addressRest t fun c u hc => ?_
  have hback : c ≠ '\\' := by
    rintro rfl
    exact absurd hc (by decide)
  have hcons := consumes_escapable addressCharacter
  have hneg : addressCharacter c = false := by simp [addressCharacter, hc]
  have hstart : addressRest.match? (c :: u) = (char ')').match? (u.dropWhile isBlank) := by
    rw [addressRest, match?_star_seq_of_nil hcons _ (ends_escapable_of_neg hback hneg u),
      match?_addressEnd, List.dropWhile_cons_of_pos hc]
  rw [hstart]
  cases u.dropWhile isBlank with
  | nil => exact Or.inl rfl
  | cons d v =>
    by_cases hd : d = ')'
    · subst hd
      refine Or.inr ?_
      rw [addressRest, match?_star_seq_of_nil hcons _ (ends_escapable_of_neg (by decide)
        (by decide) v), match?_addressEnd, List.dropWhile_cons_of_neg (by decide)]
    · exact Or.inl (match?_char_of_ne hd v)

theorem takes_address : Takes address Lexeme.address? := by
  intro t
  by_cases ht : ∃ rest, t = ['u', 'r', 'l', '('] ++ rest
  · obtain ⟨rest, rfl⟩ := ht
    have hext : Lexeme.address? (['u', 'r', 'l', '('] ++ rest) =
        (Lexeme.addressRest? (rest.dropWhile isBlank)).map (· + (Lexeme.blanks rest + 4)) := by
      rw [← drop_blanks]
      rfl
    rw [address, match?_str_append, match?_blanks_addressRest, takes_addressRest, hext,
      Option.map_map]
    congr 1
    funext n
    have hlen : n + (Lexeme.blanks rest + 4) = (Lexeme.blanks rest + n) + 4 := by omega
    rw [Function.comp_apply, ← drop_blanks, List.drop_drop, hlen]
    rfl
  · rw [address, match?_str_eq_none _ ht]
    cases haddr : Lexeme.address? t with
    | none => rfl
    | some n => exact absurd (Lexeme.address?_eq_some haddr) ht

/-! ## Other pieces and chunks -/

theorem takes_interpolation : Takes interpolation Lexeme.interpolation? := by
  -- behind the opening the repetition stops only at a closing brace
  have hrest : Takes (seq (star true (one (noneOf ['}']))) (char '}'))
      fun t => (t.findIdx? (· == '}')).map (· + 1) := by
    intro t
    induction t with
    | nil =>
      rw [match?_star_seq_of_nil (consumes_one _) _ rfl]
      rfl
    | cons c t ih =>
      by_cases hc : c = '}'
      · subst hc
        rw [match?_star_seq_of_nil (consumes_one _) _ rfl, match?_char_self]
        rfl
      · have hends : (one (noneOf ['}'])).ends (c :: t) = [t] := by simp [ends, noneOf, hc]
        have hfind : (c :: t).findIdx? (· == '}') = (t.findIdx? (· == '}')).map (· + 1) := by
          rw [List.findIdx?_cons, if_neg (by simpa using hc)]
        simp only [match?_star_seq_of_single (consumes_one _) _ hends, match?_char_of_ne hc, ih,
          Option.or_none, hfind]
        exact (map_drop_add [c] t _).symm
  intro t
  by_cases ht : ∃ rest, t = ['#', '{'] ++ rest
  · obtain ⟨rest, rfl⟩ := ht
    have hext : Lexeme.interpolation? (['#', '{'] ++ rest) =
        ((rest.findIdx? (· == '}')).map (· + 1)).map (· + 2) := by
      rw [Option.map_map]
      rfl
    rw [interpolation, match?_str_append, hrest, hext]
    exact (map_drop_add ['#', '{'] rest _).symm
  · rw [interpolation, match?_str_eq_none _ ht, Lexeme.interpolation?.eq_def]
    split
    · exact absurd ⟨_, rfl⟩ ht
    · rfl

theorem takes_slash : Takes slash Lexeme.slash? := by
  intro t
  rw [slash]
  cases t with
  | nil => rfl
  | cons c t =>
    by_cases hc : c = '/'
    · subst hc
      rw [match?_seq_of_single (ends_char_self '/' t), Lexeme.slash?]
      cases t with
      | nil => rfl
      | cons d t => by_cases h : d = '*' ∨ d = '/' <;> simp_all [match?, ends]
    · rw [match?_seq_of_nil (ends_char_of_ne hc t), Lexeme.slash?_cons_of_ne hc]
      rfl

theorem takes_plain (first : Bool) :
    Takes (one fun c => plainCharacter c && !(first && c == '@')) (Lexeme.plain? first) := by
  refine takes_one rfl fun c t => ?_
  have hsame : Lexeme.isDelimiter c = !noneOf ['{', '}', ';', '/', '"', '\'', '(', ')'] c := by
    rw [Bool.eq_iff_iff]
    simp [Lexeme.isDelimiter, noneOf, or_assoc]
  rw [Lexeme.plain?, hsame, plainCharacter]
  cases noneOf ['{', '}', ';', '/', '"', '\'', '(', ')'] c <;> cases isBlank c <;> cases first <;>
    by_cases hc : c = '@' <;> simp [hc]

theorem takes_gap : Takes gap Lexeme.gap? := by
  intro t
  have hahead : ∀ c u, isBlank c = true →
      (ahead (one fun c => noneOf ['{', '}', ';'] c && !isBlank c)).match? (c :: u) = none := by
    intro c u hc
    simp [match?, ends, hc]
  rw [gap, plus, match?, ends_seq_assoc, ← match?]
  obtain ⟨b, v, rfl, hb, hv, hlen⟩ := Lexeme.exists_blanks t
  cases b with
  | nil =>
    cases v with
    | nil => rfl
    | cons c v =>
      rw [List.nil_append, match?_seq_of_nil (ends_blank_of_neg (hv c rfl) v),
        Lexeme.gap?_cons_of_not_blank (hv c rfl)]
      rfl
  | cons d b =>
    have hd : isBlank d = true := hb d List.mem_cons_self
    have hdrop : (b ++ v).dropWhile isBlank = v := by
      rw [List.dropWhile_append_of_pos fun e he => hb e (List.mem_cons_of_mem d he)]
      cases v with
      | nil => rfl
      | cons c v => rw [List.dropWhile_cons_of_neg (by simp [hv c rfl])]
    rw [List.cons_append, match?_seq_of_single (ends_blank_of_pos hd _),
      match?_blanks _ _ fun c u hc => Or.inl (hahead c u hc), hdrop]
    cases v with
    | nil =>
      rw [List.append_nil] at hlen
      simp [match?, ends, Lexeme.gap?, hlen]
    | cons c v =>
      rw [← List.cons_append, Lexeme.gap?_blanks (by simp) hb (hv c rfl)]
      by_cases hc : c = '{' ∨ c = '}' ∨ c = ';' <;> simp_all [match?, ends, noneOf]

theorem takes_piece (first : Bool) : Takes (piece first) (Lexeme.piece? first) := by
  have hplain : (fun c => plainCharacter c && !(false && c == '@')) = plainCharacter := by
    funext c
    simp
  have hlast : Takes
      (if first then one fun c => plainCharacter c && c != '@' else alt (one plainCharacter) gap)
      fun t => (Lexeme.plain? first t).or (if first then none else Lexeme.gap? t) := by
    cases first with
    | true =>
      intro t
      simpa [bne] using takes_plain true t
    | false => exact (hplain ▸ takes_plain false).alt takes_gap
  intro t
  have hall := (takes_quotedString.alt
    (takes_address.alt (takes_interpolation.alt (takes_slash.alt hlast)))) t
  rw [piece, hall, Lexeme.piece?]
  simp only [Option.orElse_eq_orElse, Option.orElse_eq_or]

theorem consumes_piece : (piece false).Consumes := by
  have hquoted : ∀ q, (quotedString q).Consumes := fun q => (consumes_one _).seq _
  have haddress : address.Consumes := ((consumes_one _).seq _).seq _
  have hinterpolation : interpolation.Consumes := ((consumes_one _).seq _).seq _
  have hslash : slash.Consumes := (consumes_one _).seq _
  have hgap : gap.Consumes := (consumes_blank.seq _).seq _
  exact ((hquoted _).alt (hquoted _)).alt (haddress.alt (hinterpolation.alt (hslash.alt
    ((consumes_one _).alt hgap))))

/-- Behind the first piece a chunk takes one piece after the other and never goes back. -/
theorem match?_star_piece (t : Text) :
    (star true (piece false)).match? t = some (t.drop (Lexeme.chunkRest 0 t)) := by
  induction hl : t.length using Nat.strongRecOn generalizing t with
  | ind l ih =>
    cases hp : Lexeme.piece? false t with
    | none =>
      have hnone : (piece false).match? t = none := by rw [takes_piece, hp, Option.map_none]
      rw [match?_star_of_none consumes_piece hnone, Lexeme.chunkRest_of_none hp, List.drop_zero]
    | some n =>
      have hsome : (piece false).match? t = some (t.drop n) := by
        rw [takes_piece, hp, Option.map_some]
      obtain ⟨hpos, hle⟩ := Lexeme.piece?_le_length hp
      rw [match?_star_of_some consumes_piece hsome, Lexeme.chunkRest_of_some hp,
        ih (t.drop n).length (by rw [List.length_drop]; omega) (t.drop n) rfl, List.drop_drop]

theorem takes_chunk : Takes chunk Lexeme.chunk? := by
  intro t
  rw [chunk, match?_seq_star consumes_piece, takes_piece, Lexeme.chunk?]
  cases Lexeme.piece? true t with
  | none => rfl
  | some n =>
    rw [Option.map_some, Option.bind_some, match?_star_piece, List.drop_drop]
    rfl

theorem takes_atKeyword : Takes atKeyword Lexeme.atKeyword? := by
  intro t
  rw [atKeyword]
  cases t with
  | nil => rfl
  | cons c t =>
    by_cases hc : c = '@'
    · subst hc
      rw [match?_seq_of_single (ends_char_self '@' t), match?_seq_star (consumes_one _)]
      cases t with
      | nil => rfl
      | cons d t =>
        rw [Lexeme.atKeyword?, Lexeme.isKeywordStart]
        by_cases hd : (d.isAlpha || d == '_' || d == '-') = true
        · rw [match?_one_of_pos hd, if_pos hd, Option.bind_some, match?_star_one,
            dropWhile_eq_drop]
          rfl
        · rw [match?_one_of_neg hd, if_neg hd]
          rfl
    · rw [match?_seq_of_nil (ends_char_of_ne hc t)]
      cases hat : Lexeme.atKeyword? (c :: t) with
      | none => rfl
      | some n =>
        obtain ⟨d, v, ht, _⟩ := Lexeme.atKeyword?_eq_some hat
        exact absurd (List.cons.inj ht).1 hc

/-! ## Ignored text -/

theorem match?_spaces_cons (c : Char) (t : Text) :
    spaces.match? (c :: t) =
      if Lexeme.isSpace c then some (t.dropWhile Lexeme.isSpace) else none := by
  have hsame : [' ', '\t', '\x0c', '\r', '\n'].contains = Lexeme.isSpace := by
    funext c
    rw [Bool.eq_iff_iff]
    simp [Lexeme.isSpace, or_assoc]
  rw [spaces, hsame, plus, match?_seq_star (consumes_one _)]
  by_cases hc : Lexeme.isSpace c = true
  · rw [match?_one_of_pos hc, Option.bind_some, match?_star_one, if_pos hc]
  · rw [match?_one_of_neg hc, Option.bind_none, if_neg hc]

/-- A comment ends with the first closing mark, since nothing else is tried before it. -/
theorem takes_commentRest :
    Takes (seq (star false (one fun _ => true)) (str ['*', '/'])) Lexeme.commentRest? := by
  intro t
  have hany := consumes_one fun _ => true
  induction t with
  | nil =>
    rw [match?_lazy_seq_of_nil hany _ rfl]
    rfl
  | cons c t ih =>
    have hone : (one fun _ => true).ends (c :: t) = [t] := rfl
    rw [match?_lazy_seq_of_single hany _ hone, ih, Lexeme.commentRest?]
    by_cases hc : c = '*' ∧ t.head? = some '/'
    · obtain ⟨rfl, ht⟩ := hc
      obtain ⟨rest, rfl⟩ := List.head?_eq_some_iff.mp ht
      have hstr : (str ['*', '/']).ends ('*' :: '/' :: rest) = [rest] :=
        ends_str_append ['*', '/'] rest
      rw [match?, hstr]
      rfl
    · have hstr : (str ['*', '/']).ends (c :: t) = [] := by
        refine List.eq_nil_iff_forall_not_mem.mpr fun r hr => hc ?_
        obtain ⟨rfl, rfl⟩ := List.cons.inj (prefix_of_mem_ends_str hr)
        exact ⟨rfl, rfl⟩
      rw [match?, hstr, if_neg (by simpa using hc)]
      exact (map_drop_add [c] t _).symm

theorem match?_comment (rest : Text) :
    comment.match? (['/', '*'] ++ rest) = (Lexeme.commentRest? rest).map (rest.drop ·) := by
  rw [comment, match?_str_append, takes_commentRest]

theorem match?_lineComment (rest : Text) :
    lineComment.match? (['/', '/'] ++ rest) = some (rest.dropWhile (· != '\n')) := by
  have hsame : noneOf ['\n'] = (· != '\n') := by
    funext c
    rw [Bool.eq_iff_iff]
    simp [noneOf]
  rw [lineComment, match?_str_append, match?_star_one, hsame]

end Regex
end Stacking
