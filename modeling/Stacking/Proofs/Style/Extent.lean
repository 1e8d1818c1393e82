import Stacking.Style.Token

/-!
# Extents and what follows them

How far a piece of a stylesheet goes is judged with everything that follows it. This file says how
much of what follows matters.

* Strings, addresses, interpolations and comments that are found end with a mark of their own, and
  what stands behind the mark does not matter (`ClosedBy`).
* A chunk ends before a mark that is decided by the next characters (`Stops`).
* Only an address or an interpolation that is *not* found depends on what comes far behind it. A
  chunk that ends with `url` or with `#` does so because no address or interpolation starts there
  (`address?_eq_none_of_chunkRest`, `interpolation?_eq_none_of_chunkRest`), and it may be read
  otherwise when the text behind it changes.
-/

namespace Stacking
namespace Lexeme

/-! ## Pieces with a closing mark -/

/-- What `f` finds ends with a character of `p`, and does not depend on what follows that. -/
def ClosedBy (p : Char → Prop) (f : Text → Option Nat) : Prop :=
  ∀ t n, f t = some n → ∃ x c, p c ∧ n = x.length + 1 ∧ (∃ v, t = x ++ c :: v) ∧
    ∀ v, f (x ++ c :: v) = some n

/-- What is found within `w` is found there whatever follows. -/
theorem ClosedBy.append {p : Char → Prop} {f : Text → Option Nat} (h : ClosedBy p f)
    {w v : Text} {n : Nat} (hf : f (w ++ v) = some n) (hn : n ≤ w.length) (v' : Text) :
    f (w ++ v') = some n := by
  obtain ⟨x, c, _, hlen, ⟨u, ht⟩, hany⟩ := h _ _ hf
  -- the mark stands within `w`
  obtain ⟨w', rfl⟩ : ∃ w', w = x ++ c :: w' := by
    have ht' : w ++ v = (x ++ [c]) ++ u := by simpa using ht
    rcases List.append_eq_append_iff.mp ht' with ⟨y, hx, _⟩ | ⟨y, hx, _⟩
    · have hlen' := congrArg List.length hx
      simp only [List.length_append, List.length_singleton] at hlen'
      obtain rfl : y = [] := List.eq_nil_of_length_eq_zero (by omega)
      exact ⟨[], by simpa using hx.symm⟩
    · exact ⟨y, by simpa using hx⟩
  rw [List.append_assoc, List.cons_append]
  exact hany _

theorem ClosedBy.le_length {p : Char → Prop} {f : Text → Option Nat} (h : ClosedBy p f)
    {t : Text} {n : Nat} (hf : f t = some n) : 0 < n ∧ n ≤ t.length := by
  obtain ⟨x, c, _, hlen, ⟨u, ht⟩, _⟩ := h _ _ hf
  rw [ht, List.length_append, List.length_cons]
  omega

theorem quotedRest?_closedBy (q : Char) : ClosedBy (· = q) (quotedRest? q) := by
  intro t
  -- the extent ends with the first quote, and what is behind it was never looked at
  induction t using quotedRest?.induct q with
  | case1 => intro n h; simp [quotedRest?] at h
  | case2 => intro n h; simp [quotedRest?] at h
  | case3 rest => intro n h; simp [quotedRest?] at h
  | case4 d rest hd ih =>
    intro n h
    simp only [quotedRest?, if_true, if_neg hd, Option.map_eq_some_iff] at h
    obtain ⟨m, hm, rfl⟩ := h
    obtain ⟨x, c, hc, hlen, ⟨v, ht⟩, hany⟩ := ih m hm
    refine ⟨'\\' :: d :: x, c, hc, by simp [hlen], ⟨v, by simp [ht]⟩, fun v' => ?_⟩
    simp [quotedRest?, hd, hany]
  | case5 rest hq =>
    intro n h
    rw [quotedRest?.eq_def] at h
    simp only [if_neg hq, if_true] at h
    obtain rfl := Option.some.inj h
    refine ⟨[], q, rfl, rfl, ⟨rest, rfl⟩, fun v' => ?_⟩
    rw [List.nil_append, quotedRest?.eq_def]
    simp [hq]
  | case6 rest hb hq =>
    intro n h
    rw [quotedRest?.eq_def] at h
    simp [hq] at h
  | case7 c rest hb hq hn ih =>
    intro n h
    rw [quotedRest?.eq_def] at h
    simp only [if_neg hb, if_neg hq, if_neg hn, Option.map_eq_some_iff] at h
    obtain ⟨m, hm, rfl⟩ := h
    obtain ⟨x, c', hc, hlen, ⟨v, ht⟩, hany⟩ := ih m hm
    refine ⟨c :: x, c', hc, by simp [hlen], ⟨v, by simp [ht]⟩, fun v' => ?_⟩
    rw [List.cons_append, quotedRest?.eq_def]
    simp [hb, hq, hn, hany]

theorem quoted?_closedBy : ClosedBy (fun c => c = '"' ∨ c = '\'') quoted? := by
  intro t n h
  cases t with
  | nil => exact nomatch h
  | cons q rest =>
    rw [quoted?] at h
    split at h
    · rename_i hq
      obtain ⟨m, hm, rfl⟩ := Option.map_eq_some_iff.mp h
      obtain ⟨x, c, hc, hlen, ⟨v, ht⟩, hany⟩ := quotedRest?_closedBy q _ _ hm
      refine ⟨q :: x, c, ?_, by simp [hlen], ⟨v, by simp [ht]⟩, fun v' => ?_⟩
      · subst hc
        simpa using hq
      · rw [List.cons_append, quoted?, if_pos hq, hany, Option.map_some]
    · exact nomatch h

/-! ## Blanks -/

theorem blanks_append {b v : Text} (hb : ∀ c ∈ b, isBlank c = true)
    (hv : ∀ c ∈ v.head?, isBlank c = false) : blanks (b ++ v) = b.length := by
  have hnil : v.takeWhile isBlank = [] := by
    cases v with
    | nil => rfl
    | cons c v => simp [hv c rfl]
  rw [blanks, List.takeWhile_append_of_pos hb, hnil, List.append_nil]

/-- Every text is a run of blanks and a text that does not start with one. -/
theorem exists_blanks (t : Text) : ∃ b v, t = b ++ v ∧ (∀ c ∈ b, isBlank c = true) ∧
    (∀ c ∈ v.head?, isBlank c = false) ∧ blanks t = b.length := by
  have hb : ∀ c ∈ t.takeWhile isBlank, isBlank c = true := fun c hc =>
    List.all_eq_true.mp List.all_takeWhile c hc
  have hv : ∀ c ∈ (t.dropWhile isBlank).head?, isBlank c = false := by
    intro c hc
    have := List.head?_dropWhile_not isBlank t
    rw [Option.mem_def.mp hc] at this
    simpa using this
  exact ⟨t.takeWhile isBlank, t.dropWhile isBlank, List.takeWhile_append_dropWhile.symm, hb, hv,
    rfl⟩

theorem addressEnd?_blanks {b : Text} (hb : ∀ c ∈ b, isBlank c = true) (v : Text) :
    addressEnd? (b ++ ')' :: v) = some (b.length + 1) := by
  have hlen : blanks (b ++ ')' :: v) = b.length :=
    blanks_append hb fun c hc => by
      obtain rfl := Option.some.inj hc
      decide
  simp [addressEnd?, hlen]

theorem addressEnd?_eq_some {t : Text} {n : Nat} (h : addressEnd? t = some n) :
    ∃ b v, t = b ++ ')' :: v ∧ (∀ c ∈ b, isBlank c = true) ∧ n = b.length + 1 := by
  obtain ⟨b, v, ht, hb, _, hlen⟩ := exists_blanks t
  rw [addressEnd?, hlen] at h
  split at h
  · rename_i hhead
    rw [ht, List.drop_left] at hhead
    cases v with
    | nil => exact nomatch hhead
    | cons c v =>
      obtain rfl := Option.some.inj hhead
      exact ⟨b, v, ht, hb, (Option.some.inj h).symm⟩
  · exact nomatch h

theorem addressRest?_closedBy : ClosedBy (· = ')') addressRest? := by
  intro t
  induction t using addressRest?.induct with
  | case1 => intro n h; simp [addressRest?] at h
  | case2 => intro n h; simp [addressRest?] at h
  | case3 rest => intro n h; simp [addressRest?] at h
  | case4 d rest hd ih =>
    intro n h
    simp only [addressRest?, if_true, if_neg hd, Option.map_eq_some_iff] at h
    obtain ⟨m, hm, rfl⟩ := h
    obtain ⟨x, c, hc, hlen, ⟨v, ht⟩, hany⟩ := ih m hm
    refine ⟨'\\' :: d :: x, c, hc, by simp [hlen], ⟨v, by simp [ht]⟩, fun v' => ?_⟩
    simp [addressRest?, hd, hany]
  | case5 c rest hb hend =>
    intro n h
    rw [addressRest?.eq_def] at h
    simp only [if_neg hb, if_pos hend] at h
    obtain ⟨b, v, ht, hblank, hlen⟩ := addressEnd?_eq_some h
    refine ⟨b, ')', rfl, hlen, ⟨v, ht⟩, fun v' => ?_⟩
    -- the first character is that of the blanks, or the parenthesis itself
    obtain ⟨r, hr⟩ : ∃ r, b ++ ')' :: v' = c :: r := by
      cases b with
      | nil => exact ⟨v', by rw [List.nil_append, (List.cons.inj ht).1]⟩
      | cons e b => exact ⟨b ++ ')' :: v', by rw [List.cons_append, (List.cons.inj ht).1]⟩
    have hstep : addressRest? (b ++ ')' :: v') = addressEnd? (b ++ ')' :: v') := by
      rw [hr, addressRest?.eq_def]
      simp only [if_neg hb, if_pos hend]
    rw [hstep, addressEnd?_blanks hblank, hlen]
  | case6 c rest hb hend hbad =>
    intro n h
    rw [addressRest?.eq_def] at h
    simp only [if_neg hb, if_neg hend, if_pos hbad] at h
    exact nomatch h
  | case7 c rest hb hend hbad ih =>
    intro n h
    rw [addressRest?.eq_def] at h
    simp only [if_neg hb, if_neg hend, if_neg hbad, Option.map_eq_some_iff] at h
    obtain ⟨m, hm, rfl⟩ := h
    obtain ⟨x, c', hc, hlen, ⟨v, ht⟩, hany⟩ := ih m hm
    refine ⟨c :: x, c', hc, by simp [hlen], ⟨v, by simp [ht]⟩, fun v' => ?_⟩
    rw [List.cons_append, addressRest?.eq_def]
    simp only [if_neg hb, if_neg hend, if_neg hbad, hany, Option.map_some]

theorem address?_eq_some {t : Text} {n : Nat} (h : address? t = some n) :
    ∃ rest, t = 'u' :: 'r' :: 'l' :: '(' :: rest := by
  rw [address?.eq_def] at h
  split at h
  · exact ⟨_, rfl⟩
  · exact nomatch h

theorem address?_closedBy : ClosedBy (· = ')') address? := by
  intro t n h
  obtain ⟨rest, rfl⟩ := address?_eq_some h
  obtain ⟨b, v, hrest, hb, hv, hlen⟩ := exists_blanks rest
  rw [address?, hlen, hrest, List.drop_left, Option.map_eq_some_iff] at h
  obtain ⟨m, hm, rfl⟩ := h
  obtain ⟨x, c, hc, hm', ⟨u, ht⟩, hany⟩ := addressRest?_closedBy v m hm
  refine ⟨'u' :: 'r' :: 'l' :: '(' :: (b ++ x), c, hc, by simp [hm']; omega,
    ⟨u, by rw [hrest, ht]; simp⟩, fun u' => ?_⟩
  -- the address starts where it did, since its first character is the same
  have hhead : ∀ d ∈ (x ++ c :: u').head?, isBlank d = false := by
    intro d hd
    apply hv d
    rw [ht]
    cases x <;> exact hd
  have hlen' : blanks (b ++ (x ++ c :: u')) = b.length := blanks_append hb hhead
  have hshape : 'u' :: 'r' :: 'l' :: '(' :: (b ++ x) ++ c :: u' =
      'u' :: 'r' :: 'l' :: '(' :: (b ++ (x ++ c :: u')) := by simp
  rw [hshape, address?, hlen', List.drop_left, hany, Option.map_some]

theorem interpolation?_closedBy : ClosedBy (· = '}') interpolation? := by
  intro t n h
  rw [interpolation?.eq_def] at h
  split at h
  · rename_i rest
    obtain ⟨m, hm, rfl⟩ := Option.map_eq_some_iff.mp h
    obtain ⟨hlt, hbrace, hbefore⟩ := List.findIdx?_eq_some_iff_getElem.mp hm
    have hc : rest[m] = '}' := by simpa using hbrace
    have hrest : rest = rest.take m ++ '}' :: rest.drop (m + 1) := by
      rw [← hc, List.getElem_cons_drop, List.take_append_drop]
    have htake : (rest.take m).findIdx? (· == '}') = none := by
      rw [List.findIdx?_eq_none_iff]
      intro d hd
      obtain ⟨i, hi, rfl⟩ := List.mem_iff_getElem.mp hd
      have him : i < m := by simp at hi; omega
      rw [List.getElem_take]
      simpa using hbefore i him
    refine ⟨'#' :: '{' :: rest.take m, '}', rfl, by simp; omega, ⟨rest.drop (m + 1), ?_⟩,
      fun v => ?_⟩
    · rw [List.cons_append, List.cons_append, ← hrest]
    · rw [List.cons_append, List.cons_append, interpolation?, List.findIdx?_append, htake]
      simp [List.findIdx?_cons, Nat.min_eq_left (Nat.le_of_lt hlt)]
  · exact nomatch h

theorem commentRest?_closedBy : ClosedBy (· = '/') commentRest? := by
  intro t
  induction t using commentRest?.induct with
  | case1 => intro n h; simp [commentRest?] at h
  | case2 c rest hend =>
    intro n h
    rw [commentRest?, if_pos hend] at h
    obtain rfl := Option.some.inj h
    have hstar : c = '*' ∧ rest.head? = some '/' := by simpa using hend
    obtain ⟨rfl, hhead⟩ := hstar
    cases rest with
    | nil => exact nomatch hhead
    | cons d rest =>
      obtain rfl := Option.some.inj hhead
      exact ⟨['*'], '/', rfl, rfl, ⟨rest, rfl⟩, fun v => by simp [commentRest?]⟩
  | case3 c rest hgo ih =>
    intro n h
    rw [commentRest?, if_neg hgo] at h
    obtain ⟨m, hm, rfl⟩ := Option.map_eq_some_iff.mp h
    obtain ⟨x, d, hd, hlen, ⟨v, ht⟩, hany⟩ := ih m hm
    refine ⟨c :: x, d, hd, by simp [hlen], ⟨v, by simp [ht]⟩, fun v' => ?_⟩
    have hhead : (x ++ d :: v').head? = rest.head? := by
      rw [ht]
      cases x <;> rfl
    rw [List.cons_append, commentRest?, hhead, if_neg hgo, hany, Option.map_some]

/-! ## Pieces of a chunk -/

theorem quoted?_cons_of_ne {c : Char} {v : Text} (h : c ≠ '"') (h' : c ≠ '\'') :
    quoted? (c :: v) = none := by
  simp [quoted?, h, h']

theorem address?_cons_of_ne {c : Char} {v : Text} (h : c ≠ 'u') : address? (c :: v) = none := by
  cases ha : address? (c :: v) with
  | none => rfl
  | some n =>
    obtain ⟨rest, ht⟩ := address?_eq_some ha
    exact absurd (List.cons.inj ht).1 h

theorem interpolation?_cons_of_ne {c : Char} {v : Text} (h : c ≠ '#') :
    interpolation? (c :: v) = none := by
  rw [interpolation?.eq_def]
  split
  · rename_i rest ht
    exact absurd (List.cons.inj ht).1 h
  · rfl

theorem interpolation?_open_eq_none (v : Text) :
    interpolation? ('#' :: '{' :: v) = none ↔ '}' ∉ v := by
  rw [interpolation?, Option.map_eq_none_iff, List.findIdx?_eq_none_iff]
  constructor
  · intro h hmem
    exact absurd (h '}' hmem) (by decide)
  · intro h c hc
    refine beq_false_of_ne fun heq => h ?_
    exact heq ▸ hc

/-- Only a `#` before an opening brace depends on where there is a closing one. -/
theorem interpolation?_append_eq_none {z v v' : Text} (hz : z ≠ [])
    (h : interpolation? ('#' :: (z ++ v)) = none)
    (hi : z.head? = some '{' → '}' ∈ v' → '}' ∈ z ++ v) :
    interpolation? ('#' :: (z ++ v')) = none := by
  obtain ⟨d, z, rfl⟩ := List.exists_cons_of_ne_nil hz
  by_cases hd : d = '{'
  · subst hd
    rw [List.cons_append, interpolation?_open_eq_none] at h ⊢
    intro hmem
    rcases List.mem_append.mp hmem with hz' | hv'
    · exact h (List.mem_append_left v hz')
    · exact h (by simpa using hi rfl hv')
  · rw [List.cons_append, interpolation?.eq_def]
    split
    · rename_i heq
      injection heq with _ heq
      injection heq with heq _
      exact absurd heq hd
    · rfl

theorem slash?_cons_of_ne {c : Char} {v : Text} (h : c ≠ '/') : slash? (c :: v) = none := by
  rw [slash?.eq_def]
  split
  · rename_i rest ht
    exact absurd (List.cons.inj ht).1 h
  · rfl

theorem plain?_eq_some {first : Bool} {t : Text} {n : Nat} (h : plain? first t = some n) :
    ∃ c v, t = c :: v ∧ n = 1 ∧ isDelimiter c = false ∧ isBlank c = false := by
  cases t with
  | nil => exact nomatch h
  | cons c v =>
    rw [plain?] at h
    split at h
    · exact nomatch h
    · rename_i hc
      have hc' : (isDelimiter c = false ∧ isBlank c = false) ∧ ¬(first = true ∧ c = '@') := by
        simpa using hc
      exact ⟨c, v, rfl, (Option.some.inj h).symm, hc'.1⟩

theorem gap?_eq_some {t : Text} {n : Nat} (h : gap? t = some n) :
    ∃ b c v, t = b ++ c :: v ∧ b ≠ [] ∧ (∀ d ∈ b, isBlank d = true) ∧ isBlank c = false ∧
      n = b.length ∧ ¬(c = '{' ∨ c = '}' ∨ c = ';') := by
  obtain ⟨b, v, ht, hb, hv, hlen⟩ := exists_blanks t
  rw [gap?, hlen] at h
  split at h
  · exact nomatch h
  · rename_i hne
    rw [ht, List.drop_left] at h
    cases v with
    | nil => exact nomatch h
    | cons c v =>
      simp only at h
      split at h
      · exact nomatch h
      · rename_i hc
        refine ⟨b, c, v, ht, ?_, hb, hv c rfl, (Option.some.inj h).symm,
          by simpa [and_assoc] using hc⟩
        rintro rfl
        exact hne rfl

theorem gap?_blanks {b : Text} {c : Char} (hne : b ≠ []) (hb : ∀ d ∈ b, isBlank d = true)
    (hc : isBlank c = false) (v : Text) :
    gap? (b ++ c :: v) = if c = '{' ∨ c = '}' ∨ c = ';' then none else some b.length := by
  have hlen : blanks (b ++ c :: v) = b.length :=
    blanks_append hb fun d hd => by
      obtain rfl := Option.some.inj hd
      exact hc
  have hpos : b.length ≠ 0 := fun h => hne (List.eq_nil_of_length_eq_zero h)
  rw [gap?, hlen, if_neg hpos, List.drop_left]
  simp [or_assoc]

theorem gap?_cons_of_not_blank {c : Char} {v : Text} (h : isBlank c = false) :
    gap? (c :: v) = none := by
  simp [gap?, blanks, h]

/-- The kinds of piece exclude each other, but for addresses and interpolations, which come before
single characters. -/
theorem piece?_eq_some_iff {first : Bool} {t : Text} {n : Nat} :
    piece? first t = some n ↔
      quoted? t = some n ∨ address? t = some n ∨ interpolation? t = some n ∨ slash? t = some n ∨
        (address? t = none ∧ interpolation? t = none ∧ plain? first t = some n) ∨
        (first = false ∧ gap? t = some n) := by
  constructor
  · intro h
    rw [piece?] at h
    cases hq : quoted? t <;> cases ha : address? t <;> cases hi : interpolation? t <;>
      cases hs : slash? t <;> cases hp : plain? first t <;> cases first <;> simp_all
  · -- each kind has first characters of its own, so the kinds tried before it fail
    rintro (h | h | h | h | ⟨ha, hi, h⟩ | ⟨hf, h⟩)
    · rw [piece?, h]
      rfl
    · obtain ⟨rest, rfl⟩ := address?_eq_some h
      rw [piece?, quoted?_cons_of_ne (by decide) (by decide), h]
      rfl
    · obtain ⟨rest, rfl⟩ : ∃ rest, t = '#' :: rest := by
        rw [interpolation?.eq_def] at h
        split at h
        · exact ⟨_, rfl⟩
        · exact nomatch h
      rw [piece?, quoted?_cons_of_ne (by decide) (by decide), address?_cons_of_ne (by decide), h]
      rfl
    · obtain ⟨rest, rfl⟩ : ∃ rest, t = '/' :: rest := by
        rw [slash?.eq_def] at h
        split at h
        · exact ⟨_, rfl⟩
        · exact nomatch h
      rw [piece?, quoted?_cons_of_ne (by decide) (by decide), address?_cons_of_ne (by decide),
        interpolation?_cons_of_ne (by decide), h]
      rfl
    · obtain ⟨c, v, rfl, rfl, hc, _⟩ := plain?_eq_some h
      have hq : quoted? (c :: v) = none :=
        quoted?_cons_of_ne (by rintro rfl; exact nomatch hc) (by rintro rfl; exact nomatch hc)
      have hs : slash? (c :: v) = none := slash?_cons_of_ne (by rintro rfl; exact nomatch hc)
      rw [piece?, hq, ha, hi, hs, h]
      rfl
    · obtain ⟨b, c, v, rfl, hne, hb, _⟩ := gap?_eq_some h
      obtain ⟨d, b, rfl⟩ := List.exists_cons_of_ne_nil hne
      have hd : isBlank d = true := hb d List.mem_cons_self
      have hnot : ∀ c : Char, isBlank c = false → d ≠ c := by
        rintro c hc rfl
        rw [hd] at hc
        exact nomatch hc
      have hp : plain? first (d :: (b ++ c :: v)) = none := by simp [plain?, hd]
      rw [List.cons_append] at h ⊢
      rw [piece?, quoted?_cons_of_ne (hnot _ (by decide)) (hnot _ (by decide)),
        address?_cons_of_ne (hnot _ (by decide)), interpolation?_cons_of_ne (hnot _ (by decide)),
        slash?_cons_of_ne (hnot _ (by decide)), hp, hf, h]
      rfl

theorem slash?_eq_some {t : Text} {n : Nat} (h : slash? t = some n) :
    ∃ v, t = '/' :: v ∧ n = 1 ∧ v.head? ≠ some '*' ∧ v.head? ≠ some '/' := by
  rw [slash?.eq_def] at h
  split at h
  · rename_i v
    split at h
    · exact nomatch h
    · rename_i hv
      have hv' : ¬v.head? = some '*' ∧ ¬v.head? = some '/' := by simpa using hv
      exact ⟨v, rfl, (Option.some.inj h).symm, hv'⟩
  · exact nomatch h

/-- A piece is not empty and lies within the text. -/
theorem piece?_le_length {first : Bool} {t : Text} {n : Nat} (h : piece? first t = some n) :
    0 < n ∧ n ≤ t.length := by
  rcases piece?_eq_some_iff.mp h with h | h | h | h | ⟨_, _, h⟩ | ⟨_, h⟩
  · exact quoted?_closedBy.le_length h
  · exact address?_closedBy.le_length h
  · exact interpolation?_closedBy.le_length h
  · obtain ⟨v, rfl, rfl, _⟩ := slash?_eq_some h
    simp
  · obtain ⟨c, v, rfl, rfl, _⟩ := plain?_eq_some h
    simp
  · obtain ⟨b, c, v, rfl, hne, _, _, rfl, _⟩ := gap?_eq_some h
    have := List.length_pos_iff.mpr hne
    simp only [List.length_append, List.length_cons]
    omega

/-- A piece of more than one character ends with a mark or a blank. -/
theorem piece?_last {first : Bool} {t : Text} {n : Nat} (h : piece? first t = some n) :
    n = 1 ∨ ∃ x c v, t = x ++ c :: v ∧ n = x.length + 1 ∧ (isDelimiter c = true ∨ isBlank c = true)
    := by
  rcases piece?_eq_some_iff.mp h with h | h | h | h | ⟨_, _, h⟩ | ⟨_, h⟩
  · obtain ⟨x, c, hc, hlen, ⟨v, ht⟩, _⟩ := quoted?_closedBy t n h
    refine Or.inr ⟨x, c, v, ht, hlen, Or.inl ?_⟩
    rcases hc with rfl | rfl <;> rfl
  · obtain ⟨x, c, rfl, hlen, ⟨v, ht⟩, _⟩ := address?_closedBy t n h
    exact Or.inr ⟨x, _, v, ht, hlen, Or.inl rfl⟩
  · obtain ⟨x, c, rfl, hlen, ⟨v, ht⟩, _⟩ := interpolation?_closedBy t n h
    exact Or.inr ⟨x, _, v, ht, hlen, Or.inl rfl⟩
  · obtain ⟨v, rfl, rfl, _⟩ := slash?_eq_some h
    exact Or.inl rfl
  · obtain ⟨c, v, rfl, rfl, _⟩ := plain?_eq_some h
    exact Or.inl rfl
  · obtain ⟨b, c, v, ht, hne, hb, _, hlen, _⟩ := gap?_eq_some h
    obtain ⟨x, d, rfl⟩ := List.eq_nil_or_concat b |>.resolve_left hne
    exact Or.inr ⟨x, d, c :: v, by simpa using ht, by simpa using hlen,
      Or.inr (hb d (by simp))⟩

/-- A piece within `w`, with something left of `w` behind it, is the same whatever follows, as long
as no address and no interpolation come into being. -/
theorem piece?_append {first : Bool} {w v v' : Text} {n : Nat}
    (h : piece? first (w ++ v) = some n) (hn : n < w.length)
    (ha : address? (w ++ v) = none → address? (w ++ v') = none)
    (hi : interpolation? (w ++ v) = none → interpolation? (w ++ v') = none) :
    piece? first (w ++ v') = some n := by
  rw [piece?_eq_some_iff]
  rcases piece?_eq_some_iff.mp h with h | h | h | h | ⟨hna, hni, h⟩ | ⟨hf, h⟩
  -- the first three kinds end with their closing mark
  · exact Or.inl (quoted?_closedBy.append h (Nat.le_of_lt hn) v')
  · exact Or.inr (Or.inl (address?_closedBy.append h (Nat.le_of_lt hn) v'))
  · exact Or.inr (Or.inr (Or.inl (interpolation?_closedBy.append h (Nat.le_of_lt hn) v')))
  · refine Or.inr (Or.inr (Or.inr (Or.inl ?_)))
    obtain ⟨u, ht, rfl, hstar, hslash⟩ := slash?_eq_some h
    match w, hn with
    | c :: d :: w, _ =>
      obtain ⟨rfl, rfl⟩ := List.cons.inj ht
      have hd : ¬d = '*' ∧ ¬d = '/' := by simpa using And.intro hstar hslash
      simp [slash?, hd]
  · refine Or.inr (Or.inr (Or.inr (Or.inr (Or.inl ⟨ha hna, hi hni, ?_⟩))))
    match w, hn with
    | c :: w, _ => exact h
  · refine Or.inr (Or.inr (Or.inr (Or.inr (Or.inr ⟨hf, ?_⟩))))
    obtain ⟨b, c, u, ht, hne, hb, hc, rfl, hmark⟩ := gap?_eq_some h
    rcases List.append_eq_append_iff.mp ht with ⟨y, hy, hv⟩ | ⟨y, hy, hv⟩
    · have hlen := congrArg List.length hy
      simp only [List.length_append] at hlen
      omega
    · cases y with
      | nil =>
        rw [hy] at hn
        simp at hn
      | cons e y =>
        obtain ⟨rfl, _⟩ := List.cons.inj hv
        rw [hy, List.append_assoc, List.cons_append, gap?_blanks hne hb hc, if_neg hmark]

/-! ## Where a chunk stops -/

/-- At the start of such a text no chunk goes on: there is a brace, a semicolon or a parenthesis, a
comment, or blanks before a brace or a semicolon. -/
def Stops (r : Text) : Prop :=
  (∃ c v, r = c :: v ∧ (c = '{' ∨ c = '}' ∨ c = ';' ∨ c = '(' ∨ c = ')')) ∨
  (∃ c v, r = '/' :: c :: v ∧ (c = '*' ∨ c = '/')) ∨
  (∃ b c v, r = b ++ c :: v ∧ b ≠ [] ∧ (∀ d ∈ b, isBlank d = true) ∧
    (c = '{' ∨ c = '}' ∨ c = ';'))

theorem Stops.append {r : Text} (h : Stops r) (v : Text) : Stops (r ++ v) := by
  rcases h with ⟨c, u, rfl, hc⟩ | ⟨c, u, rfl, hc⟩ | ⟨b, c, u, rfl, hne, hb, hc⟩
  · exact Or.inl ⟨c, u ++ v, rfl, hc⟩
  · exact Or.inr (Or.inl ⟨c, u ++ v, rfl, hc⟩)
  · exact Or.inr (Or.inr ⟨b, c, u ++ v, by simp, hne, hb, hc⟩)

theorem Stops.piece?_eq_none {r : Text} (h : Stops r) : piece? false r = none := by
  rcases h with ⟨c, v, rfl, hc⟩ | ⟨c, v, rfl, hc⟩ | ⟨b, c, v, rfl, hne, hb, hc⟩
  · rcases hc with rfl | rfl | rfl | rfl | rfl <;>
    · rw [piece?, quoted?_cons_of_ne (by decide) (by decide), address?_cons_of_ne (by decide),
        interpolation?_cons_of_ne (by decide), slash?_cons_of_ne (by decide),
        gap?_cons_of_not_blank (by decide)]
      rfl
  · have hs : slash? ('/' :: c :: v) = none := by
      rcases hc with rfl | rfl <;> simp [slash?]
    rw [piece?, quoted?_cons_of_ne (by decide) (by decide), address?_cons_of_ne (by decide),
      interpolation?_cons_of_ne (by decide), hs, gap?_cons_of_not_blank (by decide)]
    rfl
  · cases hp : piece? false (b ++ c :: v) with
    | none => rfl
    | some n =>
      obtain ⟨d, b, rfl⟩ := List.exists_cons_of_ne_nil hne
      have hd : isBlank d = true := hb d List.mem_cons_self
      have hcb : isBlank c = false := by rcases hc with rfl | rfl | rfl <;> decide
      have hnot : ∀ e : Char, isBlank e = false → d ≠ e := by
        rintro e he rfl
        rw [hd] at he
        exact nomatch he
      have hplain : plain? false (d :: b ++ c :: v) = none := by simp [plain?, hd]
      have hgap : gap? (d :: b ++ c :: v) = none := by
        rw [gap?_blanks hne hb hcb, if_pos hc]
      rw [piece?, hplain, hgap, List.cons_append,
        quoted?_cons_of_ne (hnot _ (by decide)) (hnot _ (by decide)),
        address?_cons_of_ne (hnot _ (by decide)), interpolation?_cons_of_ne (hnot _ (by decide)),
        slash?_cons_of_ne (hnot _ (by decide))] at hp
      exact nomatch hp

/-! ## Chunks -/

theorem chunkRest_passing (p : Nat) (t : Text) (h : p ≤ t.length) :
    chunkRest p t = p + chunkRest 0 (t.drop p) := by
  induction t generalizing p with
  | nil =>
    obtain rfl : p = 0 := Nat.le_zero.mp h
    simp
  | cons c rest ih =>
    cases p with
    | zero => simp
    | succ p =>
      rw [chunkRest, ih p (by simpa using h), List.drop_succ_cons]
      omega

theorem chunkRest_of_none {t : Text} (h : piece? false t = none) : chunkRest 0 t = 0 := by
  cases t with
  | nil => rfl
  | cons c rest => rw [chunkRest, h]

/-- A chunk goes on over one piece, then over the pieces behind it. -/
theorem chunkRest_of_some {t : Text} {n : Nat} (h : piece? false t = some n) :
    chunkRest 0 t = n + chunkRest 0 (t.drop n) := by
  obtain ⟨hpos, hle⟩ := piece?_le_length h
  cases t with
  | nil => simp at hle; omega
  | cons c rest =>
    obtain ⟨m, rfl⟩ : ∃ m, n = m + 1 := ⟨n - 1, by omega⟩
    rw [chunkRest, h]
    simp only [Nat.add_sub_cancel, List.drop_succ_cons]
    rw [chunkRest_passing m rest (by simpa using hle)]
    omega

theorem chunkRest_le_length (t : Text) : chunkRest 0 t ≤ t.length := by
  induction hl : t.length using Nat.strongRecOn generalizing t with
  | ind l ih =>
    cases hp : piece? false t with
    | none => rw [chunkRest_of_none hp]; omega
    | some n =>
      obtain ⟨hpos, hle⟩ := piece?_le_length hp
      have := ih (t.drop n).length (by simp; omega) (t.drop n) rfl
      rw [chunkRest_of_some hp]
      simp at this
      omega

/-- No chunk goes on where it stops. -/
theorem piece?_drop_chunkRest (t : Text) : piece? false (t.drop (chunkRest 0 t)) = none := by
  induction hl : t.length using Nat.strongRecOn generalizing t with
  | ind l ih =>
    cases hp : piece? false t with
    | none => rw [chunkRest_of_none hp, List.drop_zero, hp]
    | some n =>
      obtain ⟨hpos, hle⟩ := piece?_le_length hp
      rw [chunkRest_of_some hp, ← List.drop_drop]
      exact ih (t.drop n).length (by simp; omega) (t.drop n) rfl

/-- A single character that is no address, interpolation or mark is passed over. -/
theorem chunkRest_plain {c : Char} {t : Text} (hd : isDelimiter c = false)
    (hb : isBlank c = false) (ha : address? (c :: t) = none)
    (hi : interpolation? (c :: t) = none) : chunkRest 0 (c :: t) = 1 + chunkRest 0 t := by
  have hp : piece? false (c :: t) = some 1 :=
    piece?_eq_some_iff.mpr (Or.inr (Or.inr (Or.inr (Or.inr (Or.inl
      ⟨ha, hi, by simp [plain?, hd, hb]⟩)))))
  exact chunkRest_of_some hp

/-- At the start of a chunk the pieces are the same as within it, but for an at-sign and blanks. -/
theorem piece?_true_cons (c : Char) (t : Text) :
    piece? true (c :: t) = if c = '@' ∨ isBlank c = true then none else piece? false (c :: t) := by
  by_cases hat : c = '@'
  · subst hat
    rw [if_pos (Or.inl rfl), piece?, quoted?_cons_of_ne (by decide) (by decide),
      address?_cons_of_ne (by decide), interpolation?_cons_of_ne (by decide),
      slash?_cons_of_ne (by decide)]
    rfl
  · cases hb : isBlank c with
    | true =>
      -- only a gap starts with a blank, and a chunk does not start with a gap
      have hnot : ∀ e : Char, isBlank e = false → c ≠ e := by
        rintro e he rfl
        rw [hb] at he
        exact nomatch he
      have hp : plain? true (c :: t) = none := by simp [plain?, hb]
      rw [if_pos (Or.inr rfl), piece?, hp,
        quoted?_cons_of_ne (hnot _ (by decide)) (hnot _ (by decide)),
        address?_cons_of_ne (hnot _ (by decide)), interpolation?_cons_of_ne (hnot _ (by decide)),
        slash?_cons_of_ne (hnot _ (by decide))]
      rfl
    | false =>
      have hp : plain? true (c :: t) = plain? false (c :: t) := by simp [plain?, hat]
      rw [if_neg (by simp [hat]), piece?, piece?, hp, gap?_cons_of_not_blank hb]
      rfl

/-- A chunk is what pieces cover, where that is something and starts with neither an at-sign nor a
blank. -/
theorem chunk?_eq_some_iff {c : Char} {t : Text} {n : Nat} :
    chunk? (c :: t) = some n ↔
      0 < n ∧ chunkRest 0 (c :: t) = n ∧ c ≠ '@' ∧ isBlank c = false := by
  rw [chunk?, piece?_true_cons]
  constructor
  · intro h
    obtain ⟨m, hm, rfl⟩ := Option.map_eq_some_iff.mp h
    split at hm
    · exact nomatch hm
    · rename_i hc
      have hc' : ¬c = '@' ∧ isBlank c = false := by simpa using hc
      have := (piece?_le_length hm).1
      exact ⟨by omega, chunkRest_of_some hm, hc'⟩
  · rintro ⟨hpos, hrest, hat, hb⟩
    rw [if_neg (by simp [hat, hb])]
    cases hp : piece? false (c :: t) with
    | none =>
      rw [chunkRest_of_none hp] at hrest
      omega
    | some m =>
      rw [chunkRest_of_some hp] at hrest
      simp [hrest]

/-- Pieces that cover `u` start with one that ends within it. -/
theorem exists_piece_of_chunkRest {u r : Text} (hne : u ≠ [])
    (h : chunkRest 0 (u ++ r) = u.length) :
    ∃ n, piece? false (u ++ r) = some n ∧ 0 < n ∧ n ≤ u.length ∧
      chunkRest 0 (u.drop n ++ r) = (u.drop n).length := by
  have hlen := List.length_pos_iff.mpr hne
  cases hp : piece? false (u ++ r) with
  | none =>
    rw [chunkRest_of_none hp] at h
    omega
  | some n =>
    rw [chunkRest_of_some hp] at h
    have hle : n ≤ u.length := by omega
    refine ⟨n, rfl, (piece?_le_length hp).1, hle, ?_⟩
    rw [List.drop_append_of_le_length hle] at h
    rw [List.length_drop]
    omega

/-- A piece in front of the word of an address does not reach into the word. -/
theorem piece?_word {first : Bool} {x r : Text} {n : Nat}
    (hp : piece? first (x ++ ['u', 'r', 'l'] ++ r) = some n) (hle : n ≤ x.length + 3) :
    n ≤ x.length ∨ x = [] ∧ n = 1 := by
  refine Decidable.or_iff_not_imp_left.mpr fun hx => ?_
  rcases piece?_last hp with rfl | ⟨y, c, v, hy, rfl, hc⟩
  · exact ⟨List.eq_nil_of_length_eq_zero (by omega), rfl⟩
  · -- its last character would be a letter of the word
    have hget : (x ++ ['u', 'r', 'l'] ++ r)[y.length]? = some c := by rw [hy]; simp
    rw [List.append_assoc, List.getElem?_append_right (by omega)] at hget
    obtain ⟨k, hk⟩ : ∃ k, y.length - x.length = k := ⟨_, rfl⟩
    rw [hk] at hget
    match k, hk with
    | 0, _ | 1, _ | 2, _ =>
      obtain rfl := Option.some.inj hget
      exact absurd hc (by decide)
    | k + 3, hk => omega

/-- A chunk that ends with `url` does so because no address starts there. -/
theorem address?_eq_none_of_chunkRest {u r : Text} (h : chunkRest 0 (u ++ r) = u.length)
    (hurl : ['u', 'r', 'l'] <:+ u) : address? (['u', 'r', 'l'] ++ r) = none := by
  induction hl : u.length using Nat.strongRecOn generalizing u with
  | ind l ih =>
    obtain ⟨x, rfl⟩ := hurl
    obtain ⟨n, hp, hpos, hle, hrest⟩ := exists_piece_of_chunkRest (by simp) h
    simp only [List.length_append, List.length_cons, List.length_nil] at hle hl
    rcases piece?_word hp hle with hx | ⟨rfl, rfl⟩
    · -- the piece ends before the word
      refine ih (l - n) (by omega) hrest ⟨x.drop n, ?_⟩ (by simp; omega)
      rw [List.drop_append_of_le_length hx]
    · -- the piece is the first letter of the word
      cases ha : address? (['u', 'r', 'l'] ++ r) with
      | none => rfl
      | some m =>
        have hp' : piece? false (['u', 'r', 'l'] ++ r) = some m :=
          piece?_eq_some_iff.mpr (Or.inr (Or.inl ha))
        obtain rfl : m = 1 := Option.some.inj (hp'.symm.trans hp)
        obtain ⟨y, c, rfl, hlen, ⟨v, ht⟩, _⟩ := address?_closedBy _ _ ha
        obtain rfl : y = [] := List.eq_nil_of_length_eq_zero (by omega)
        exact absurd (List.cons.inj ht).1 (by decide)

/-- A chunk that ends with `#` does so because no interpolation starts there. -/
theorem interpolation?_eq_none_of_chunkRest {u r : Text} (h : chunkRest 0 (u ++ r) = u.length)
    (hmark : ['#'] <:+ u) : interpolation? ('#' :: r) = none := by
  induction hl : u.length using Nat.strongRecOn generalizing u with
  | ind l ih =>
    obtain ⟨x, rfl⟩ := hmark
    obtain ⟨n, hp, hpos, hle, hrest⟩ := exists_piece_of_chunkRest (by simp) h
    simp only [List.length_append, List.length_cons, List.length_nil] at hle hl
    by_cases hx : n ≤ x.length
    · -- the piece ends before the mark
      refine ih (l - n) (by omega) hrest ⟨x.drop n, ?_⟩ (by simp; omega)
      rw [List.drop_append_of_le_length hx]
    · obtain rfl : n = x.length + 1 := by omega
      rcases piece?_last hp with hone | ⟨y, c, v, hy, hlen, hc⟩
      · -- the piece is the mark
        obtain rfl : x = [] := List.eq_nil_of_length_eq_zero (by omega)
        cases hi : interpolation? ('#' :: r) with
        | none => rfl
        | some m =>
          have hp' : piece? false ('#' :: r) = some m :=
            piece?_eq_some_iff.mpr (Or.inr (Or.inr (Or.inl hi)))
          obtain rfl : m = 1 := Option.some.inj (hp'.symm.trans hp)
          obtain ⟨y, c, rfl, hlen, ⟨v, ht⟩, _⟩ := interpolation?_closedBy _ _ hi
          obtain rfl : y = [] := List.eq_nil_of_length_eq_zero (by omega)
          exact absurd (List.cons.inj ht).1 (by decide)
      · -- no longer piece ends with the mark
        have hget : (x ++ ['#'] ++ r)[y.length]? = some c := by rw [hy]; simp
        have hlast : y.length = x.length := by omega
        rw [hlast, List.append_assoc, List.getElem?_append_right (Nat.le_refl _),
          Nat.sub_self] at hget
        obtain rfl := Option.some.inj hget
        exact absurd hc (by decide)

theorem Stops.head {r : Text} (h : Stops r) :
    ∃ c v, r = c :: v ∧ (isDelimiter c = true ∨ isBlank c = true) := by
  rcases h with ⟨c, v, rfl, hc⟩ | ⟨c, v, rfl, _⟩ | ⟨b, c, v, rfl, hne, hb, _⟩
  · refine ⟨c, v, rfl, Or.inl ?_⟩
    rcases hc with rfl | rfl | rfl | rfl | rfl <;> rfl
  · exact ⟨'/', c :: v, rfl, Or.inl rfl⟩
  · obtain ⟨d, b, rfl⟩ := List.exists_cons_of_ne_nil hne
    exact ⟨d, b ++ c :: v, rfl, Or.inr (hb d List.mem_cons_self)⟩

/-- Where pieces cover `u` up to a stop and no address starts, none starts when the text behind the
stop changes, unless `u` is the word of an address. -/
theorem address?_eq_none_of_stop {u z v v' : Text} (hne : u ≠ [])
    (h : chunkRest 0 (u ++ (z ++ v)) = u.length) (hz : Stops z)
    (hnone : address? (u ++ (z ++ v)) = none)
    (ha : u = ['u', 'r', 'l'] → address? (['u', 'r', 'l'] ++ (z ++ v')) = none) :
    address? (u ++ (z ++ v')) = none := by
  cases haddr : address? (u ++ (z ++ v')) with
  | none => rfl
  | some m =>
    exfalso
    obtain ⟨rest, hrest⟩ := address?_eq_some haddr
    obtain ⟨e, z', rfl, he⟩ := hz.head
    match u, hne with
    | [a], _ =>
      simp only [List.cons_append, List.nil_append, List.cons.injEq] at hrest
      obtain ⟨_, rfl, _⟩ := hrest
      exact absurd he (by decide)
    | [a, b], _ =>
      simp only [List.cons_append, List.nil_append, List.cons.injEq] at hrest
      obtain ⟨_, _, rfl, _⟩ := hrest
      exact absurd he (by decide)
    | [a, b, c], _ =>
      simp only [List.cons_append, List.nil_append, List.cons.injEq] at hrest
      obtain ⟨rfl, rfl, rfl, _⟩ := hrest
      rw [ha rfl] at haddr
      exact nomatch haddr
    | a :: b :: c :: d :: u, _ =>
      simp only [List.cons_append, List.cons.injEq] at hrest
      obtain ⟨rfl, rfl, rfl, rfl, _⟩ := hrest
      -- without an address the pieces go no further than the parenthesis
      have hstop : chunkRest 0 ('(' :: (u ++ (e :: z' ++ v))) = 0 :=
        chunkRest_of_none (Stops.piece?_eq_none (Or.inl ⟨_, _, rfl, by simp⟩))
      have hl : chunkRest 0 ('l' :: '(' :: (u ++ (e :: z' ++ v))) = 1 := by
        rw [chunkRest_plain (by decide) (by decide) (address?_cons_of_ne (by decide))
          (interpolation?_cons_of_ne (by decide)), hstop]
      have hr : chunkRest 0 ('r' :: 'l' :: '(' :: (u ++ (e :: z' ++ v))) = 2 := by
        rw [chunkRest_plain (by decide) (by decide) (address?_cons_of_ne (by decide))
          (interpolation?_cons_of_ne (by decide)), hl]
      have hnone' : address? ('u' :: 'r' :: 'l' :: '(' :: (u ++ (e :: z' ++ v))) = none := hnone
      have hu : chunkRest 0 ('u' :: 'r' :: 'l' :: '(' :: (u ++ (e :: z' ++ v))) = 3 := by
        rw [chunkRest_plain (by decide) (by decide) hnone'
          (interpolation?_cons_of_ne (by decide)), hr]
      have h' : chunkRest 0 ('u' :: 'r' :: 'l' :: '(' :: (u ++ (e :: z' ++ v))) = u.length + 4 := h
      omega

/-- Pieces that cover more than the mark of an interpolation do not start with one. -/
theorem interpolation?_eq_none_of_cover {u r r' : Text} (hne : u ≠ [])
    (h : chunkRest 0 (u ++ r) = u.length) (hnone : interpolation? (u ++ r) = none)
    (hi : u = ['#'] → interpolation? ('#' :: r') = none) : interpolation? (u ++ r') = none := by
  match u, hne with
  | [c], _ =>
    by_cases hc : c = '#'
    · subst hc
      exact hi rfl
    · exact interpolation?_cons_of_ne hc
  | c :: d :: u, _ =>
    rw [interpolation?.eq_def]
    split
    · -- no piece starts with the brace
      rename_i rest heq
      simp only [List.cons_append, List.cons.injEq] at heq
      obtain ⟨rfl, rfl, _⟩ := heq
      have hstop : chunkRest 0 ('{' :: (u ++ r)) = 0 :=
        chunkRest_of_none (Stops.piece?_eq_none (Or.inl ⟨_, _, rfl, by simp⟩))
      have hnone' : interpolation? ('#' :: '{' :: (u ++ r)) = none := hnone
      have hcover : chunkRest 0 ('#' :: '{' :: (u ++ r)) = u.length + 2 := h
      rw [chunkRest_plain (by decide) (by decide) (address?_cons_of_ne (by decide)) hnone',
        hstop] at hcover
      omega
    · rfl

/-- The first of the pieces that cover `u` is the same whatever follows the next stop, unless `u` is
the word of an address or the mark of an interpolation. -/
theorem piece?_of_stop {u z v v' : Text} {n : Nat} (hne : u ≠ [])
    (h : chunkRest 0 (u ++ (z ++ v)) = u.length) (hz : Stops z)
    (ha : u = ['u', 'r', 'l'] → address? (['u', 'r', 'l'] ++ (z ++ v')) = none)
    (hi : u = ['#'] → interpolation? ('#' :: (z ++ v')) = none)
    (hp : piece? false (u ++ (z ++ v)) = some n) (hle : n ≤ u.length) :
    piece? false (u ++ (z ++ v')) = some n := by
  obtain ⟨e, z', hz', _⟩ := hz.head
  have haddr : address? (u ++ (z ++ v)) = none → address? (u ++ (z ++ v')) = none :=
    fun hnone => address?_eq_none_of_stop hne h hz hnone ha
  have hinter : interpolation? (u ++ (z ++ v)) = none → interpolation? (u ++ (z ++ v')) = none :=
    fun hnone => interpolation?_eq_none_of_cover hne h hnone hi
  rw [← List.append_assoc] at hp haddr hinter ⊢
  rw [← List.append_assoc] at haddr hinter
  refine piece?_append hp ?_ haddr hinter
  rw [List.length_append, hz', List.length_cons]
  omega

/-- Pieces that cover `u` cover it whatever follows the next stop, if no address and no
interpolation come into being at its end. -/
theorem chunkRest_append {u z v v' : Text} (h : chunkRest 0 (u ++ (z ++ v)) = u.length)
    (hz : Stops z)
    (ha : ['u', 'r', 'l'] <:+ u → address? (['u', 'r', 'l'] ++ (z ++ v')) = none)
    (hi : ['#'] <:+ u → interpolation? ('#' :: (z ++ v')) = none) :
    chunkRest 0 (u ++ (z ++ v')) = u.length := by
  induction hl : u.length using Nat.strongRecOn generalizing u with
  | ind l ih =>
    cases u with
    | nil =>
      subst hl
      exact chunkRest_of_none (hz.append v').piece?_eq_none
    | cons c u =>
      obtain ⟨n, hp, hpos, hle, hrest⟩ := exists_piece_of_chunkRest (by simp) h
      have hp' : piece? false (c :: u ++ (z ++ v')) = some n :=
        piece?_of_stop (by simp) h hz (fun hu => ha (hu ▸ List.suffix_refl _))
          (fun hu => hi (hu ▸ List.suffix_refl _)) hp hle
      rw [chunkRest_of_some hp', List.drop_append_of_le_length hle,
        ih (l - n) (by omega) hrest (fun hsuf => ha (hsuf.trans (List.drop_suffix n _)))
          (fun hsuf => hi (hsuf.trans (List.drop_suffix n _))) (by simp at hl ⊢; omega)]
      omega

/-- Where an address comes into being at the end of a chunk, the chunk takes it in. -/
theorem le_chunkRest_of_address {x z v v' : Text} {m : Nat}
    (h : chunkRest 0 (x ++ ['u', 'r', 'l'] ++ (z ++ v)) = x.length + 3) (hz : Stops z)
    (ha : address? (['u', 'r', 'l'] ++ (z ++ v')) = some m) :
    x.length + m ≤ chunkRest 0 (x ++ ['u', 'r', 'l'] ++ (z ++ v')) := by
  induction hl : x.length using Nat.strongRecOn generalizing x with
  | ind l ih =>
    cases x with
    | nil =>
      have hp : piece? false (['u', 'r', 'l'] ++ (z ++ v')) = some m :=
        piece?_eq_some_iff.mpr (Or.inr (Or.inl ha))
      subst hl
      rw [List.nil_append, chunkRest_of_some hp, List.length_nil]
      omega
    | cons c x =>
      have hcover : chunkRest 0 (c :: x ++ ['u', 'r', 'l'] ++ (z ++ v)) =
          (c :: x ++ ['u', 'r', 'l']).length := by
        rw [h]
        simp
      obtain ⟨n, hp, hpos, hle, hrest⟩ := exists_piece_of_chunkRest (by simp) hcover
      -- the first piece ends before the word and stays as it is
      have hx : n ≤ (c :: x).length :=
        (piece?_word hp (by simpa using hle)).resolve_right (by simp)
      have hp' : piece? false (c :: x ++ ['u', 'r', 'l'] ++ (z ++ v')) = some n := by
        refine piece?_of_stop (by simp) hcover hz (fun hu => ?_) (fun hu => ?_) hp hle
        · have hlen := congrArg List.length hu
          simp at hlen
        · have hlen := congrArg List.length hu
          simp at hlen
      rw [List.drop_append_of_le_length hx] at hrest
      have hrec := ih (l - n) (by omega) (x := (c :: x).drop n) (by simpa using hrest)
        (by simp at hl ⊢; omega)
      rw [chunkRest_of_some hp', List.drop_append_of_le_length hle,
        List.drop_append_of_le_length hx]
      omega

end Lexeme
end Stacking
