import Stacking.Proofs.Style.Splice

/-!
# The ink of a stylesheet

The ink of a text is the number of its characters that are not blank. Between the tokens of a text
and its tree blanks come and go, but no ink does: every node has as much of it as the tokens that
spell its head (`Spelled.inks`). So the tree tells how much ink stands between the boundaries of the
text, and two texts that agree up to a chunk which is longer in one of them have different trees
(`Spelled.bare_ne`).
-/

namespace Stacking

/-! ## The ink of a text -/

namespace Text

/-- The number of characters that are not blank. -/
def ink (t : Text) : Nat := t.countP fun c => !isBlank c

@[simp] theorem ink_nil : ink [] = 0 := rfl

@[simp] theorem ink_append (t u : Text) : ink (t ++ u) = ink t + ink u := List.countP_append

theorem ink_cons {c : Char} (h : isBlank c = false) (t : Text) : ink (c :: t) = ink t + 1 :=
  List.countP_cons_of_pos (by simp [h])

theorem ink_eq_zero {t : Text} (h : ∀ c ∈ t, isBlank c = true) : ink t = 0 :=
  List.countP_eq_zero.mpr fun c hc => by simp [h c hc]

theorem ink_reverse (t : Text) : ink t.reverse = ink t := List.countP_reverse

@[simp] theorem ink_trimStart (t : Text) : ink t.trimStart = ink t := by
  have hsplit : ink (t.takeWhile isBlank) + ink t.trimStart = ink t := by
    rw [trimStart, ← ink_append, List.takeWhile_append_dropWhile]
  have hblank : ink (t.takeWhile isBlank) = 0 :=
    ink_eq_zero fun c hc => List.all_eq_true.mp List.all_takeWhile c hc
  omega

@[simp] theorem ink_trimEnd (t : Text) : ink t.trimEnd = ink t := by
  obtain ⟨b, hb, hblank⟩ := dropEndWhile_append isBlank t
  have hsplit := congrArg ink hb
  rw [ink_append, ink_eq_zero hblank] at hsplit
  exact hsplit.symm

@[simp] theorem ink_trim (t : Text) : ink t.trim = ink t := by
  rw [trim, ink_trimEnd, ink_trimStart]

theorem ink_cut {c : Char} {t u v : Text} (hc : isBlank c = false) (h : t.cut? c = some (u, v)) :
    ink t = ink u + 1 + ink v := by
  induction t generalizing u with
  | nil => exact nomatch h
  | cons d t ih =>
    rw [cut?] at h
    split at h
    · rename_i hd
      obtain ⟨rfl, rfl⟩ := Prod.mk.inj (Option.some.inj h)
      rw [hd, ink_cons hc, ink_nil]
      omega
    · obtain ⟨⟨x, y⟩, hxy, heq⟩ := Option.map_eq_some_iff.mp h
      obtain ⟨rfl, rfl⟩ := Prod.mk.inj heq
      have hrest := ih hxy
      have hfirst : ∀ v : Text, ink (d :: v) = ink [d] + ink v := ink_append [d]
      rw [hfirst t, hfirst x]
      omega

end Text

/-! ## The ink of declarations and preludes -/

namespace Declaration

open Text

/-- The ink that a declaration is spelled with: that of its property and value, the colon, and ten
characters of a mark of importance. -/
def ink (d : Declaration) : Nat :=
  Text.ink d.property.toList + 1 + Text.ink d.value.toList + if d.important then 10 else 0

theorem isBlank_of_isSpelling {c letter : Char} (h : isSpelling c letter = true)
    (hl : isBlank letter = false) : isBlank c = false := by
  simp only [isSpelling, Bool.or_eq_true, Bool.and_eq_true, beq_iff_eq] at h
  rcases h with rfl | ⟨_, rfl | rfl⟩
  · -- a blank is not a capital, so it would be its own small letter
    refine Bool.eq_false_iff.mpr fun hc => ?_
    have hsmall : c.toLower = c := by
      refine dif_neg ?_
      rintro ⟨hlow, hhigh⟩
      have hlow : 65 ≤ c.toNat := UInt32.le_iff_toNat_le.mp hlow
      have hhigh : c.toNat ≤ 90 := UInt32.le_iff_toNat_le.mp hhigh
      simp only [isBlank, inIntervals, blankIntervals, List.any_cons, List.any_nil,
        Bool.or_eq_true, Bool.and_eq_true, decide_eq_true_eq, Bool.false_eq_true, or_false] at hc
      omega
    rw [hsmall, hc] at hl
    cases hl
  · decide
  · decide

theorem ink_dropWord {word t rest : Text} (hword : ∀ c ∈ word, isBlank c = false)
    (h : dropWord? word t = some rest) : Text.ink t = word.length + Text.ink rest := by
  induction word generalizing t with
  | nil =>
    obtain rfl := Option.some.inj h
    simp
  | cons letter word ih =>
    cases t with
    | nil => exact nomatch h
    | cons c t =>
      rw [dropWord?] at h
      split at h
      · rename_i hc
        have hb := isBlank_of_isSpelling hc (hword letter List.mem_cons_self)
        rw [ink_cons hb, ih (fun d hd => hword d (List.mem_cons_of_mem letter hd)) h,
          List.length_cons]
        omega
      · exact nomatch h

/-- A mark of importance takes ten characters. -/
theorem ink_beforeImportant {value rest : Text} (h : beforeImportant? value = some rest) :
    Text.ink value = Text.ink rest + 10 := by
  rw [beforeImportant?] at h
  split at h
  · exact nomatch h
  · rename_i marked hmarked
    have hletters : "important".toList.reverse.all (fun c => !isBlank c) = true := by decide
    have hword := ink_dropWord
      (fun c hc => by simpa using List.all_eq_true.mp hletters c hc) hmarked
    rw [ink_reverse] at hword
    split at h
    · rename_i unmarked hunmarked
      obtain rfl := Option.some.inj h
      have hmark := congrArg Text.ink hunmarked
      rw [ink_trimStart, ink_cons (by decide)] at hmark
      rw [hword, hmark, ink_reverse, ink_trimStart]
      simp
      omega
    · exact nomatch h

/-- A declaration has the ink of its text. -/
theorem ink_ofText {t : Text} {span : Option Span} {d : Declaration}
    (h : ofText? t span = some d) : d.ink = Text.ink t := by
  rw [ofText?] at h
  split at h
  · exact nomatch h
  · rename_i property value hcut
    have hink := ink_cut (by decide) hcut
    split at h
    · exact nomatch h
    · simp only at h
      split at h
      · obtain rfl := Option.some.inj h
        simp [ink, hink]
      · rename_i rest hrest
        obtain rfl := Option.some.inj h
        have hvalue := ink_beforeImportant hrest
        rw [ink_trim] at hvalue
        simp only [ink, String.toList_ofList, ink_trim, if_true]
        omega

end Declaration

namespace Token

/-- The ink of tokens. -/
def ink (ts : List Token) : Nat := Text.ink (ts.flatMap (·.text))

@[simp] theorem ink_cons (t : Token) (ts : List Token) :
    ink (t :: ts) = Text.ink t.text + ink ts := by
  simp [ink]

@[simp] theorem ink_append (ts us : List Token) : ink (ts ++ us) = ink ts + ink us := by
  simp [ink]

theorem ink_le_source (ts : List Token) : ink ts ≤ Text.ink (source ts) := by
  induction ts with
  | nil => exact Nat.le_refl _
  | cons t ts ih =>
    rw [ink_cons, source_cons, Text.ink_append, Text.ink_append]
    omega

/-- The token starts with ink. -/
def Inked (t : Token) : Prop := ∃ c x, t.text = c :: x ∧ isBlank c = false

theorem Inked.ink_pos {t : Token} (h : Inked t) : 0 < Text.ink t.text := by
  obtain ⟨c, x, ht, hc⟩ := h
  rw [ht, Text.ink_cons hc]
  omega

theorem Lexes.inked {ts : List Token} {rest : Text} (h : Lexes ts rest) : ∀ t ∈ ts, Inked t := by
  induction ts with
  | nil => exact nofun
  | cons t ts ih => exact List.forall_mem_cons.mpr ⟨h.text_ne_nil, ih h.2.2⟩

end Token

theorem Scan.inked {t : Text} {ts : List Token} {e : ScanEnd} (h : Scan.ofText t = ⟨ts, e⟩) :
    ∀ t ∈ ts, Token.Inked t := by
  rw [← List.append_nil ts] at h
  obtain ⟨rest, _, hlex, _⟩ := Scan.go_eq_append h
  exact hlex.inked

namespace Prelude

theorem ink_spacing (gap : Text) : Text.ink (spacing gap) = 0 := by
  refine Text.ink_eq_zero ?_
  rw [spacing]
  split
  · rename_i hgap
    exact List.all_eq_true.mp hgap
  · intro c hc
    rw [List.mem_singleton.mp hc]
    decide

theorem ink_textAfter (trailing : Text) (ts : List Token) :
    Text.ink (textAfter trailing ts) = Token.ink ts := by
  induction ts generalizing trailing with
  | nil => rfl
  | cons t ts ih =>
    rw [textAfter, Text.ink_append, Text.ink_append, ink_spacing, ih, Token.ink_cons, Token.content,
      Text.ink_trimEnd, Nat.zero_add]

/-- Comments leave no ink in the text of a prelude. -/
theorem ink_text (ts : List Token) : Text.ink (text ts) = Token.ink ts := by
  cases ts with
  | nil => rfl
  | cons t ts =>
    rw [text, Text.ink_append, ink_textAfter, Token.ink_cons, Token.content, Text.ink_trimEnd]

end Prelude

/-! ## The ink of a tree -/

/-- The ink of a name with its at-sign and its parameters. -/
def atInk (name params : String) : Nat := Text.ink name.toList + 1 + Text.ink params.toList

/-- The ink of what heads a block. -/
def BlockHead.ink : BlockHead → Nat
  | .selector text => Text.ink text.toList
  | .atRule name params => atInk name params

namespace Node

mutual

/-- The ink of the heads in and below a node, in document order. -/
def inks : Node → List Nat
  | .declaration d => [d.ink]
  | .block head _ body => head.ink :: inksIn body
  | .atStatement name params _ => [atInk name params]

/-- The ink of the heads in and below a list of nodes, in document order. -/
def inksIn : List Node → List Nat
  | [] => []
  | node :: rest => node.inks ++ inksIn rest

end

mutual

theorem inks_mapSpans (f : Option Span → Option Span) :
    ∀ node : Node, (node.mapSpans f).inks = node.inks
  | .declaration _ => rfl
  | .block _ _ body => by rw [mapSpans, inks, inks, inksIn_mapSpansIn f body]
  | .atStatement .. => rfl

theorem inksIn_mapSpansIn (f : Option Span → Option Span) :
    ∀ nodes : List Node, inksIn (mapSpansIn f nodes) = inksIn nodes
  | [] => rfl
  | node :: rest => by
    rw [mapSpansIn, inksIn, inksIn, inks_mapSpans f node, inksIn_mapSpansIn f rest]

end

end Node

/-! ## The ink between boundaries -/

namespace Token

/-- The ink before a boundary, where there is any. -/
def inkBefore (n : Nat) : List Nat := if n = 0 then [] else [n]

/-- The ink between boundaries, where there is any, `n` being the ink since the last one. -/
def inks (n : Nat) : List Token → List Nat
  | [] => inkBefore n
  | t :: ts => if t.kind.isBoundary then inkBefore n ++ inks 0 ts else inks (n + Text.ink t.text) ts

theorem inkBefore_of_pos {n : Nat} (h : 0 < n) : inkBefore n = [n] := by
  rw [inkBefore, if_neg (by omega)]

theorem inks_append {n : Nat} {ts us : List Token} (h : ∀ t ∈ ts, t.kind.isBoundary = false) :
    inks n (ts ++ us) = inks (n + ink ts) us := by
  induction ts generalizing n with
  | nil => rfl
  | cons t ts ih =>
    obtain ⟨ht, hts⟩ := List.forall_mem_cons.mp h
    rw [List.cons_append, inks, ht, ink_cons, ← Nat.add_assoc]
    exact ih hts

theorem inks_boundary {n : Nat} {ts us : List Token} {t : Token} (h : t.kind.isBoundary = true) :
    inks n (ts ++ t :: us) = inks n ts ++ inks 0 us := by
  induction ts generalizing n with
  | nil => rw [List.nil_append, inks, inks, if_pos h]
  | cons u ts ih =>
    rw [List.cons_append, inks, inks]
    split
    · rw [ih, List.append_assoc]
    · exact ih

/-- Where tokens agree, so does the ink between them. -/
theorem exists_inks_append (n : Nat) (ts : List Token) :
    ∃ l m, ∀ us, inks n (ts ++ us) = l ++ inks m us := by
  induction ts generalizing n with
  | nil => exact ⟨[], n, fun _ => rfl⟩
  | cons t ts ih =>
    cases ht : t.kind.isBoundary with
    | true =>
      obtain ⟨l, m, hl⟩ := ih 0
      refine ⟨inkBefore n ++ l, m, fun us => ?_⟩
      rw [List.cons_append, inks, ht, if_pos rfl, hl, List.append_assoc]
    | false =>
      obtain ⟨l, m, hl⟩ := ih (n + Text.ink t.text)
      refine ⟨l, m, fun us => ?_⟩
      rw [List.cons_append, inks, ht]
      exact hl us

theorem exists_inks_eq_cons {n : Nat} (h : 0 < n) (ts : List Token) :
    ∃ m l, inks n ts = m :: l ∧ n ≤ m := by
  induction ts generalizing n with
  | nil => exact ⟨n, [], inkBefore_of_pos h, Nat.le_refl n⟩
  | cons t ts ih =>
    rw [inks]
    split
    · exact ⟨n, inks 0 ts, by rw [inkBefore_of_pos h]; rfl, Nat.le_refl n⟩
    · obtain ⟨m, l, hml, hle⟩ := ih (n := n + Text.ink t.text) (by omega)
      exact ⟨m, l, hml, by omega⟩

end Token

open Token

theorem Opening.Reaches.isBoundary {o : Opening} {depth : Nat} (h : o.Reaches depth) :
    ∀ t ∈ o.tokens, t.kind.isBoundary = false := by
  intro t ht
  rcases List.mem_append.mp ht with ht | ht
  · rw [h.keyword t (by simpa using ht)]
    rfl
  · exact isBoundary_of_parens h.parens t ht

/-- A statement starts with ink. -/
theorem Opening.Reaches.inks {o : Opening} {depth : Nat} (h : o.Reaches depth)
    (hink : ∀ t ∈ o.tokens, Inked t) : Token.inks 0 o.tokens = [Token.ink o.tokens] := by
  have hpos : 0 < Token.ink o.tokens := by
    obtain ⟨t, ts, hts⟩ := List.exists_cons_of_ne_nil h.tokens_ne_nil
    have ht := (hink t (by rw [hts]; exact List.mem_cons_self)).ink_pos
    rw [hts, ink_cons]
    omega
  have happ : Token.inks 0 (o.tokens ++ []) = Token.inks (0 + Token.ink o.tokens) [] :=
    inks_append h.isBoundary
  rw [List.append_nil, Nat.zero_add] at happ
  rw [happ, Token.inks, inkBefore_of_pos hpos]

theorem Token.Inked.atInk_eq {k : Token} (h : Inked k) (p : List Token) :
    atInk (Statement.atName k) (String.ofList (Prelude.text p)) = Token.ink (k :: p) := by
  obtain ⟨c, x, hk, hc⟩ := h
  rw [atInk, Statement.atName, ink_cons, hk, Text.ink_cons hc, String.toList_ofList,
    String.toList_ofList, Prelude.ink_text]
  rfl

/-- The head of a block has the ink of its tokens. -/
theorem Opening.ink_blockHead {o : Opening} (hink : ∀ t ∈ o.tokens, Inked t) :
    (Statement.blockHead o.keyword o.prelude).ink = Token.ink o.tokens := by
  obtain ⟨keyword, prelude⟩ := o
  cases keyword with
  | none =>
    rw [Statement.blockHead, BlockHead.ink, String.toList_ofList, Prelude.ink_text]
    rfl
  | some k => exact (hink k List.mem_cons_self).atInk_eq prelude

/-- A statement without a block has the ink of its tokens. -/
theorem Opening.inks_finish {o : Opening} {n : Node} (hink : ∀ t ∈ o.tokens, Inked t)
    (h : o.finish.toNode = .ok n) : n.inks = [Token.ink o.tokens] := by
  obtain ⟨keyword, prelude⟩ := o
  cases keyword with
  | none =>
    have h : (Statement.declaration prelude).toNode = .ok n := h
    rw [Statement.toNode] at h
    split at h
    · cases h
    · rename_i d hd
      obtain rfl := Except.ok.inj h
      rw [Node.inks, Declaration.ink_ofText (Declaration.ofPrelude_eq_ok hd), Prelude.ink_text]
      rfl
  | some k =>
    obtain rfl := Except.ok.inj h
    rw [Node.inks, (hink k List.mem_cons_self).atInk_eq]
    rfl

/-- The heads of a tree have the ink that stands between the boundaries of its tokens. -/
theorem Spelled.inks {inner : Bool} {sts : List Statement} {ts : List Token} {nodes : List Node}
    (h : Spelled inner sts ts) (hink : ∀ t ∈ ts, Inked t)
    (hn : Statement.toNodes sts = .ok nodes) : Node.inksIn nodes = Token.inks 0 ts := by
  induction h generalizing nodes with
  | nil =>
    obtain rfl := Except.ok.inj hn
    rfl
  | @empty inner semicolon sts ts hs _ ih =>
    rw [ih (List.forall_mem_cons.mp hink).2 hn, Token.inks, if_pos (by rw [hs]; rfl)]
    rfl
  | @ended inner o semicolon sts ts ho hs _ ih =>
    obtain ⟨hoink, hrest⟩ := List.forall_mem_append.mp hink
    obtain ⟨n, ns, hst, hns, rfl⟩ := Statement.toNodes_cons.mp hn
    rw [Node.inksIn, Opening.inks_finish hoink hst, ih (List.forall_mem_cons.mp hrest).2 hns,
      inks_boundary (by rw [hs]; rfl), ho.inks hoink]
  | @last o ho =>
    obtain ⟨n, ns, hst, hns, rfl⟩ := Statement.toNodes_cons.mp hn
    obtain rfl := Except.ok.inj hns
    rw [Node.inksIn, Opening.inks_finish hink hst, ho.inks hink]
    rfl
  | @block inner o brace close body sts us ts ho hb _ hc _ ihbody ih =>
    obtain ⟨hoink, hbrace⟩ := List.forall_mem_append.mp hink
    obtain ⟨hbodyink, hclose⟩ := List.forall_mem_append.mp (List.forall_mem_cons.mp hbrace).2
    obtain ⟨n, ns, hst, hns, rfl⟩ := Statement.toNodes_cons.mp hn
    have hst : (Statement.block o.keyword o.prelude body close).toNode = .ok n := hst
    rw [Statement.toNode] at hst
    split at hst
    · cases hst
    · rename_i nodes hbody
      obtain rfl := Except.ok.inj hst
      rw [Node.inksIn, Node.inks, Opening.ink_blockHead hoink, ihbody hbodyink hbody,
        ih (List.forall_mem_cons.mp hclose).2 hns, inks_boundary (by rw [hb]; rfl), ho.inks hoink,
        inks_boundary (by rw [hc]; rfl)]
      rfl

/-- Trees differ where their tokens agree up to one that has more ink than all tokens up to the next
boundary on the other side. -/
theorem Spelled.bare_ne {sts sts' : List Statement} {ts us vs ws : List Token} {b t : Token}
    {nodes nodes' : List Node} (h : Spelled false sts (ts ++ (us ++ b :: vs)))
    (hink : ∀ u ∈ ts ++ (us ++ b :: vs), Inked u) (hn : Statement.toNodes sts = .ok nodes)
    (h' : Spelled false sts' (ts ++ t :: ws)) (hink' : ∀ u ∈ ts ++ t :: ws, Inked u)
    (hn' : Statement.toNodes sts' = .ok nodes') (hus : ∀ u ∈ us, u.kind.isBoundary = false)
    (hb : b.kind.isBoundary = true) (ht : t.kind.isBoundary = false) (hpos : 0 < Token.ink us)
    (hlt : Token.ink us < Text.ink t.text) : Node.bare nodes' ≠ Node.bare nodes := by
  intro heq
  -- both lists of ink go on with the next head, `m` being its ink so far
  obtain ⟨l, m, hl⟩ := exists_inks_append 0 ts
  have hleft : Node.inksIn nodes = l ++ (m + Token.ink us) :: Token.inks 0 vs := by
    rw [h.inks hink hn, hl, inks_append hus, Token.inks, if_pos hb, inkBefore_of_pos (by omega)]
    rfl
  obtain ⟨k, r, hk, hle⟩ := exists_inks_eq_cons (n := m + Text.ink t.text) (by omega) ws
  have hright : Node.inksIn nodes' = l ++ k :: r := by
    rw [h'.inks hink' hn', hl, Token.inks, ht, ← hk]
    rfl
  have hsame : Node.inksIn nodes' = Node.inksIn nodes := by
    have hbare := congrArg Node.inksIn heq
    rwa [Node.bare, Node.bare, Node.inksIn_mapSpansIn, Node.inksIn_mapSpansIn] at hbare
  rw [hleft, hright] at hsame
  have hhead := (List.cons.inj (List.append_cancel_left hsame)).1
  omega

end Stacking
