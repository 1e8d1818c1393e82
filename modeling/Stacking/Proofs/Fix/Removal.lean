import Stacking.Proofs.Fix.Deletion
import Stacking.Proofs.Fix.Insertion
import Stacking.Proofs.Style.Ink

/-!
# Removing the declaration

The second fix for a `z-index` without effect deletes the declaration, its semicolon, and blanks
around it where it has a line of its own (`QuickFix.TakesAlong`). Texts that were apart come to
stand side by side, and two things can go wrong there:

* a blank that may stand only within a declaration is left without one;
* an address in front, which could not go on at a blank of the declaration, now goes on behind it.

`QuickFix.Mends` says that neither happens. It can be computed, and it is exactly what is needed for
the text after the removal to have the old tree without the declaration
(`QuickFix.removal_removes_iff`). That it is enough follows as for the insertion; that it is needed
follows from the ink of the tree.
-/

namespace Stacking

open Token

/-! ## The edit -/

namespace QuickFix

open Text

namespace TakesAlong

variable {x c r m b w k v : Text}

/-- The end of what is removed is one of the declaration, a semicolon, or the end of a line. -/
theorem exists_last (h : TakesAlong x r m b w k v) (hlast : ∃ e ∈ c.getLast?, isBlank e = false) :
    ∃ e ∈ (c ++ (w ++ k)).getLast?, isBlank e = false ∨ e = '\n' := by
  obtain ⟨e, he, heb⟩ := hlast
  rw [List.getLast?_append, List.getLast?_append]
  rcases h.lineEnd with rfl | hk
  · rcases h.semicolon with rfl | rfl
    · exact ⟨e, he, Or.inl heb⟩
    · exact ⟨';', rfl, Or.inl (by decide)⟩
  · exact ⟨'\n', by rw [hk]; rfl, Or.inr rfl⟩

/-- The offset at which the removal starts, whatever follows the declaration. -/
theorem offsetAt_start (h : TakesAlong x r m b w k v) (hfirst : ∃ e ∈ c.head?, isBlank e = false)
    (y : Text) : Text.offsetAt (x ++ (c ++ y)) (positionAfter m) = m.length := by
  obtain ⟨e, he, heb⟩ := hfirst
  have hline : b = [] ∨ (m = [] ∨ m.getLast? = some '\n') := h.lineStart
  rcases hline with rfl | hm
  · rw [h.front, List.append_nil]
    exact offsetAt_positionAfter heb (Or.inl (by rw [List.head?_append, he]; rfl))
  · rw [h.front, List.append_assoc]
    exact offsetAt_lineStart hm _

/-- The offset at which the removal stops, whatever follows. -/
theorem offsetAt_stop (h : TakesAlong x r m b w k v) (hlast : ∃ e ∈ c.getLast?, isBlank e = false)
    (y : Text) : Text.offsetAt (x ++ (c ++ (w ++ k)) ++ y) (positionAfter (x ++ (c ++ (w ++ k)))) =
      (x ++ (c ++ (w ++ k))).length := by
  obtain ⟨e, he, heb⟩ := h.exists_last hlast
  apply offsetAt_of_getLast?_ne
  rw [List.getLast?_append, he, Option.some_or]
  rintro ⟨rfl⟩
  exact absurd heb (by decide)

end TakesAlong

/-- A range between characters that are not blank need not be brought within the text. -/
theorem clampRange_eq {x c r : Text} {range : Range} (hstart : range.start = positionAfter x)
    (hstop : range.stop = positionAfter (x ++ c)) (hfirst : ∃ e ∈ c.head?, isBlank e = false)
    (hlast : ∃ e ∈ c.getLast?, isBlank e = false) :
    clampRange (x ++ (c ++ r)) range = ⟨positionAfter x, positionAfter (x ++ c)⟩ := by
  obtain ⟨e, he, heb⟩ := hfirst
  obtain ⟨f, hf, hfb⟩ := hlast
  obtain ⟨_, _, _, _, hcut⟩ := exists_cut x (c ++ r)
  obtain ⟨_, _, _, _, hcut'⟩ := exists_cut (x ++ c) r
  rw [clampRange, hstart, hstop,
    offsetAt_positionAfter heb (Or.inl (by rw [List.head?_append, he]; rfl)), hcut.positionAt,
    ← List.append_assoc,
    offsetAt_positionAfter hfb (Or.inr (by rw [List.getLast?_append, hf]; rfl)), hcut'.positionAt]

/-- The removal of a declaration `c` from `x ++ (c ++ r)`. -/
theorem exists_takesAlong {x c r : Text} {d : Diagnostic} (hstart : d.range.start = positionAfter x)
    (hstop : d.range.stop = positionAfter (x ++ c)) (hfirst : ∃ e ∈ c.head?, isBlank e = false)
    (hlast : ∃ e ∈ c.getLast?, isBlank e = false) :
    ∃ m b w k v, TakesAlong x r m b w k v ∧ removeFor d (x ++ (c ++ r)) =
      .removeDeclaration ⟨positionAfter m, positionAfter (x ++ (c ++ (w ++ k)))⟩ := by
  have hclamp := clampRange_eq (r := r) hstart hstop hfirst hlast
  obtain ⟨e, he, heb⟩ := hfirst
  obtain ⟨f, hf, hfb⟩ := hlast
  refine exists_takesAlong_of_found hclamp ?_ ?_
  · exact Or.inl (offsetAt_positionAfter heb (Or.inl (by rw [List.head?_append, he]; rfl)))
  · exact Or.inl (offsetAt_positionAfter hfb (Or.inr (by rw [List.getLast?_append, hf]; rfl)))

/-- What a removal leaves of the text. -/
theorem TakesAlong.apply_eq {x c r m b w k v : Text} (h : TakesAlong x r m b w k v)
    (hfirst : ∃ e ∈ c.head?, isBlank e = false) (hlast : ∃ e ∈ c.getLast?, isBlank e = false)
    {e : Edit} (he : e = (removeDeclaration
      ⟨positionAfter m, positionAfter (x ++ (c ++ (w ++ k)))⟩).edit) :
    e.apply (x ++ (c ++ r)) = m ++ v ∧
      (x ++ (c ++ r)).drop (Text.offsetAt (x ++ (c ++ r)) e.range.stop) = v := by
  have htext : x ++ (c ++ r) = x ++ (c ++ (w ++ k)) ++ v := by
    rw [h.behind]
    simp
  have hstop := h.offsetAt_stop hlast v
  rw [← htext] at hstop
  have hdrop : (x ++ (c ++ r)).drop (Text.offsetAt (x ++ (c ++ r)) e.range.stop) = v := by
    rw [he, edit, hstop, htext, List.drop_left]
  refine ⟨?_, hdrop⟩
  rw [Edit.apply, hdrop, he, edit, h.offsetAt_start hfirst]
  simp only
  rw [h.front, List.append_assoc m, List.take_left, List.append_nil]

end QuickFix

/-! ## The tree after the removal -/

/-- Tokens that end with a boundary end with a character that is not blank. -/
theorem Token.Lexes.exists_last {ts : List Token} {rest : Text} (h : Lexes ts rest)
    (hends : EndsStatement ts) (hne : ts ≠ []) :
    ∃ c ∈ (source ts).getLast?, isBlank c = false := by
  obtain ⟨q, e, rfl⟩ := (List.eq_nil_or_concat ts).resolve_left hne
  rw [List.concat_eq_append] at h hends ⊢
  have hkind : e.kind.isBoundary = true := hends e (by simp)
  obtain ⟨c, x, hx, hb⟩ := (Lexes.append.mp h).2.text_ne_nil
  have htok := (Lexes.append.mp h).2.2.1
  rw [hx, List.cons_append] at htok
  rcases Lexeme.token?_eq_some_iff.mp htok with ⟨_, hlen⟩ | ⟨hk, _⟩ | ⟨hk, _⟩
  · obtain rfl : x = [] := List.eq_nil_of_length_eq_zero (by simpa using hlen)
    exact ⟨c, by simp [hx, List.getLast?_append], hb⟩
  · rw [hk] at hkind
    exact nomatch hkind
  · rw [hk] at hkind
    exact nomatch hkind

/-- Behind a token of a statement there is a first boundary. -/
theorem Token.EndsStatement.exists_boundary {us vs : List Token} {t : Token}
    (h : EndsStatement (us ++ t :: vs)) (ht : t.kind.isBoundary = false) :
    ∃ ts b ws, vs = ts ++ b :: ws ∧ (∀ u ∈ ts, u.kind.isBoundary = false) ∧
      b.kind.isBoundary = true := by
  induction vs generalizing us t with
  | nil =>
    rw [h t (by simp)] at ht
    exact nomatch ht
  | cons v vs ih =>
    cases hv : v.kind.isBoundary with
    | true => exact ⟨[], v, vs, rfl, nofun, hv⟩
    | false =>
      have hnext : EndsStatement ((us ++ [t]) ++ v :: vs) := by simpa using h
      obtain ⟨ts, b, ws, rfl, hts, hb⟩ := ih hnext hv
      exact ⟨v :: ts, b, ws, rfl, List.forall_mem_cons.mpr ⟨hv, hts⟩, hb⟩

/-- Blanks in front of a scan that comes to its end may be passed over. -/
theorem Scan.exists_go_dropWhile {place : SourcePosition} {lead v : Text} {ts : List Token}
    (h : go place lead 0 v = ⟨ts, .complete⟩) :
    ∃ y lead', go (place.advance y) lead' 0 (v.dropWhile isBlank) = ⟨ts, .complete⟩ := by
  have hsplit : v.takeWhile isBlank ++ v.dropWhile isBlank = v := List.takeWhile_append_dropWhile
  have hend :
      (go place lead 0 (v.takeWhile isBlank ++ v.dropWhile isBlank)).ending = .complete := by
    rw [hsplit, h]
  have hspaces := spaces_of_complete
    (fun c hc => List.all_eq_true.mp List.all_takeWhile c hc) hend
  refine ⟨v.takeWhile isBlank, lead ++ v.takeWhile isBlank, ?_⟩
  rw [← go_spaces _ _ hspaces, hsplit]
  exact h

namespace Layout

variable {t : Text} {site : Site} {d : Declaration}

/-- Where a blank start of the line goes, what is left in front of the declaration is ignored. -/
theorem exists_front (l : Layout t site d) {m b : Text} (h : l.before = m ++ b)
    (hb : ∀ c ∈ b, isBlank c = true) (hm : b = [] ∨ m = [] ∨ m.getLast? = some '\n') :
    ∃ w, m = source l.pre ++ w ∧ l.head.lead = w ++ b ∧ Ignorable w := by
  obtain ⟨w, rfl, hlead⟩ : ∃ w, m = source l.pre ++ w ∧ l.head.lead = w ++ b := by
    rcases List.append_eq_append_iff.mp h with ⟨w, hw, hlead⟩ | ⟨a, hpre, ha⟩
    · exact ⟨w, hw, hlead⟩
    · -- the blanks do not reach into the last token
      have hnil : a = [] := by
        rcases List.eq_nil_or_concat a with hnil | ⟨a', c, rfl⟩
        · exact hnil
        · rw [List.concat_eq_append] at hpre ha
          have hne : l.pre ≠ [] := by
            intro hnil
            rw [hnil] at hpre
            simp at hpre
          obtain ⟨e, he, heb⟩ := l.lexes.exists_last l.endsStatement hne
          rw [hpre, ← List.append_assoc, List.getLast?_concat] at he
          obtain rfl := Option.some.inj he
          rw [hb c (by rw [ha]; simp)] at heb
          exact nomatch heb
      rw [hnil] at hpre ha
      exact ⟨[], by simpa using hpre.symm, ha.symm⟩
  refine ⟨w, rfl, hlead, ?_⟩
  have hignorable := l.ignorable
  rw [hlead] at hignorable
  rcases hm with rfl | hnil | hlast
  · rwa [List.append_nil] at hignorable
  · rw [(List.append_eq_nil_iff.mp hnil).2]
    exact .nil
  · refine hignorable.of_append_blanks hb ?_
    cases w with
    | nil => exact Or.inl rfl
    | cons c w =>
      rw [List.getLast?_append, List.getLast?_cons, Option.some_or, ← List.getLast?_cons] at hlast
      exact Or.inr hlast

/-- What follows the declaration, past its semicolon and the blanks, is scanned to the end. -/
theorem exists_scan_behind (l : Layout t site d) {body b w : Text}
    (hb : ∀ c ∈ b, isBlank c = true)
    (hscan : Scan.go (l.head.start.advance (body ++ b)) [] 0 w = ⟨l.sep ++ l.post, .complete⟩) :
    ∃ y lead xs, Scan.go (l.head.start.advance y) lead 0
        ((b ++ w).pastSemicolon.dropWhile isBlank) = ⟨xs ++ l.post, .complete⟩ ∧
      Spelled l.last [] xs := by
  have hending := l.tokens.ending
  by_cases hsemi : (b ++ w).head? = some ';'
  · -- the semicolon is the next token
    obtain rfl : b = [] := by
      cases b with
      | nil => rfl
      | cons c b =>
        obtain rfl : c = ';' := Option.some.inj hsemi
        exact absurd (hb ';' List.mem_cons_self) (by decide)
    obtain ⟨r, rfl⟩ := List.head?_eq_some_iff.mp hsemi
    rw [Scan.go_token _ _ (Lexeme.token?_semicolon r), Scan.push] at hscan
    injection hscan with htokens hcomplete
    obtain ⟨next, us, hnext, hkind⟩ := l.next
    rw [hnext] at htokens
    obtain ⟨rfl, rfl⟩ := List.cons.inj htokens
    have hlast : l.last = false := by
      cases hlast : l.last with
      | false => rfl
      | true =>
        rw [hlast] at hkind
        cases hkind
    rw [hlast] at hending
    obtain ⟨semicolon, hsep, _⟩ := hending
    rw [hsep, List.singleton_append] at hnext
    obtain ⟨_, hpost⟩ := List.cons.inj hnext
    have hrest : Scan.go ((l.head.start.advance (body ++ [])).advance [';']) [] 0 r =
        ⟨l.post, .complete⟩ := by
      rw [hpost, ← hcomplete]
      rfl
    obtain ⟨y, lead, hy⟩ := Scan.exists_go_dropWhile hrest
    refine ⟨body ++ [] ++ [';'] ++ y, lead, [], ?_, .nil⟩
    rw [SourcePosition.advance_append, SourcePosition.advance_append]
    exact hy
  · -- a semicolon further on stays and spells nothing
    rw [Text.pastSemicolon_of_ne hsemi, List.dropWhile_append_of_pos hb]
    obtain ⟨y, lead, hy⟩ := Scan.exists_go_dropWhile hscan
    refine ⟨body ++ b ++ y, lead, l.sep, ?_, ?_⟩
    · rw [SourcePosition.advance_append]
      exact hy
    · cases hlast : l.last with
      | true =>
        rw [hlast] at hending
        have hsep : l.sep = [] := hending
        rw [hsep]
        exact .nil
      | false =>
        rw [hlast] at hending
        obtain ⟨semicolon, hsep, hs⟩ := hending
        rw [hsep]
        exact .empty hs .nil

/-- Where spaces only are left behind and no address comes into being, the text without the
declaration has the tree without it. -/
theorem parse_removed (l : Layout t site d) {w s z y lead : Text} {xs : List Token}
    (hw : Ignorable w) (hs : ∀ c ∈ s, Lexeme.isSpace c = true)
    (haddr : Unaddressed l.pre (w ++ (s ++ z)))
    (hbrace : '}' ∈ w ++ (s ++ z) → '}' ∈ l.head.lead ++ l.rest)
    (hscan : Scan.go (l.head.start.advance y) lead 0 z = ⟨xs ++ l.post, .complete⟩)
    (hxs : Spelled l.last [] xs) :
    ∃ s', Stylesheet.parse (source l.pre ++ (w ++ (s ++ z))) = .ok s' ∧
      Node.bare s'.nodes = Node.bare (site.plug []) := by
  have hlex := l.lexes.relay l.endsStatement haddr hbrace
  -- the tokens behind have moved
  obtain ⟨zs, hzs, halike⟩ := Scan.go_moved rfl hscan
    (((SourcePosition.first.advance (source l.pre)).advance w).advance s) (w ++ s)
  obtain ⟨fresh, ps, post, rfl, hps, hpost⟩ := halike.split
  have hgo : Scan.go (SourcePosition.first.advance (source l.pre)) [] 0 (w ++ (s ++ z)) =
      ⟨ps ++ post, .complete⟩ := by
    rw [Scan.go_ignorable _ _ hw, Scan.go_spaces _ _ hs, List.nil_append]
    exact hzs
  obtain ⟨X, hX, hnodes⟩ := hxs.alike hps
  exact ⟨_, l.parse_splice hlex hgo hpost hX (hnodes [] rfl), site.bare_plug_congr _ rfl⟩

/-- The tokens around the declaration spell the tree without it. -/
theorem exists_spelled_removed (l : Layout t site d) :
    ∃ sts nodes, Spelled false sts (l.pre ++ l.post) ∧ Statement.toNodes sts = .ok nodes ∧
      Node.bare nodes = Node.bare (site.plug []) := by
  obtain ⟨sts, hspelled, hnodes⟩ :=
    l.slot id id true l.pre l.post (.refl _) (.refl _) [] [] [] .nil rfl
  exact ⟨sts, _, hspelled, hnodes, site.bare_plug_congr _ rfl⟩

/-- Where an address comes into being, the text without the declaration has another tree than the
one without it. -/
theorem unaddressed_of_parse (l : Layout t site d) {v : Text} {s' : Stylesheet}
    (hbrace : '}' ∈ v → '}' ∈ l.head.lead ++ l.rest)
    (h : Stylesheet.parse (source l.pre ++ v) = .ok s')
    (hbare : Node.bare s'.nodes = Node.bare (site.plug [])) : Unaddressed l.pre v := by
  refine Classical.byContradiction fun haddr => ?_
  obtain ⟨us, k, vs, k', zs, e, hpre, hkind, hkind', hprefix, hgo⟩ :=
    Scan.exists_go_longer l.lexes l.placed l.endsStatement hbrace haddr
  obtain ⟨ts', sts', hscan', hspelled', hnodes'⟩ := Stylesheet.parse_eq_ok_iff.mp h
  obtain rfl : ts' = us ++ k' :: zs := congrArg Scan.tokens (hscan'.symm.trans hgo)
  -- the longer chunk takes in the next boundary, which has ink of its own
  have hk : k.kind.isBoundary = false := by
    rw [hkind]
    rfl
  have hends := l.endsStatement
  rw [hpre] at hends
  obtain ⟨ts, b, ws, rfl, hts, hb⟩ := hends.exists_boundary hk
  have hinked := Scan.inked l.scan_text
  have hlong : Token.ink (k :: ts) < Text.ink k'.text := by
    have hle := ink_le_source (ts ++ b :: ws)
    have hpos := (hinked b (by rw [hpre]; simp)).ink_pos
    have hle' : Text.ink (k.text ++ source (ts ++ b :: ws)) ≤ Text.ink k'.text :=
      hprefix.sublist.countP_le
    rw [Token.ink_append, Token.ink_cons] at hle
    rw [Text.ink_append] at hle'
    rw [Token.ink_cons]
    omega
  obtain ⟨sts, nodes, hspelled, hnodes, hbare'⟩ := l.exists_spelled_removed
  have htokens : l.pre ++ l.post = us ++ (k :: ts ++ b :: (ws ++ l.post)) := by
    rw [hpre]
    simp
  rw [htokens] at hspelled
  refine hspelled.bare_ne ?_ hnodes hspelled' (Scan.inked hscan') hnodes'
    (List.forall_mem_cons.mpr ⟨hk, hts⟩) hb (by rw [hkind']; rfl) ?_ hlong
    (hbare.trans hbare'.symm)
  · rw [← htokens]
    intro u hu
    apply hinked
    rcases List.mem_append.mp hu with hu | hu <;> simp [hu]
  · rw [Token.ink_cons]
    exact Nat.add_pos_left (hinked k (by rw [hpre]; simp)).ink_pos _

/-- Where the text without the declaration has a tree, blanks that are left behind are spaces. -/
theorem spaces_of_parse (l : Layout t site d) {w b z : Text} {s' : Stylesheet} (hw : Ignorable w)
    (hb : ∀ c ∈ b, isBlank c = true) (haddr : Unaddressed l.pre (w ++ (b ++ z)))
    (hbrace : '}' ∈ w ++ (b ++ z) → '}' ∈ l.head.lead ++ l.rest)
    (h : Stylesheet.parse (source l.pre ++ (w ++ (b ++ z))) = .ok s') :
    ∀ c ∈ b, Lexeme.isSpace c = true := by
  have hlex := l.lexes.relay l.endsStatement haddr hbrace
  obtain ⟨ts, _, hscan, _⟩ := Stylesheet.parse_eq_ok_iff.mp h
  have hgo := Scan.go_append hlex l.placed (Scan.go_ignorable _ [] hw _)
  have hend := congrArg Scan.ending (hgo.symm.trans hscan)
  exact Scan.spaces_of_complete hb hend

end Layout

/-! ## When the removal does what it says -/

instance Token.decidableUnaddressed : (ts : List Token) → (rest : Text) →
    Decidable (Unaddressed ts rest)
  | [], _ => isTrue trivial
  | t :: ts, rest =>
    have := decidableUnaddressed ts rest
    inferInstanceAs (Decidable ((t.kind = .chunk → addressWord <:+ t.text →
      Lexeme.address? (addressWord ++ (source ts ++ rest)) = none) ∧ Unaddressed ts rest))

/-- The tokens of a text that start in front of a place. -/
def Scan.tokensBefore (t : Text) (place : SourcePosition) : List Token :=
  (ofText t).tokens.takeWhile (·.start < place)

namespace QuickFix

/-- A text closes over the removal of a finding: blanks at the start of what is left behind it are
spaces, and no chunk in front of it becomes the start of an address. -/
structure Mends (t : Text) (finding : Diagnostic) : Prop where
  spaces : ((t.drop (t.offsetAt (removeFor finding t).edit.range.stop)).takeWhile isBlank).all
    Lexeme.isSpace = true
  unaddressed :
    let pre := Scan.tokensBefore t finding.range.start.toSource
    Unaddressed pre (((removeFor finding t).edit.apply t).drop (source pre).length)

instance (t : Text) (finding : Diagnostic) : Decidable (Mends t finding) :=
  decidable_of_iff (_ ∧ _) ⟨fun h => ⟨h.1, h.2⟩, fun h => ⟨h.spaces, h.unaddressed⟩⟩

example : Mends "a \x7b\n  z-index: 1;\n\x7d".toList
    (Publication.finding {} ⟨⟨1, 2⟩, ⟨1, 12⟩⟩) := by
  decide +kernel

-- a blank that is no space is left at the start of the block
example : ¬Mends "a\x7bz-index:1\u00a0/* c */;\x7d".toList
    (Publication.finding {} ⟨⟨0, 2⟩, ⟨0, 11⟩⟩) := by
  decide +kernel

end QuickFix

/-- The text after the removal has the tree without the declaration exactly if the text closes over
it. -/
theorem Layout.parse_removal_iff {t : Text} {site : Site} {d : Declaration} (l : Layout t site d)
    {finding : Diagnostic} (hrange : finding.range =
      .ofSpan ⟨l.head.start, Prelude.stop (l.head :: l.tail)⟩) :
    (∃ s', Stylesheet.parse ((QuickFix.removeFor finding t).edit.apply t) = .ok s' ∧
      Node.bare s'.nodes = Node.bare (site.plug [])) ↔ QuickFix.Mends t finding := by
  obtain ⟨body, b, w, hrest, hfirst, hlast, hb, hstop, hscan⟩ := l.exists_body
  have htext : l.before ++ (body ++ (b ++ w)) = t := by
    rw [← hrest]
    exact l.text_eq_before.symm
  have hstart : finding.range.start = Text.positionAfter l.before := by
    rw [hrange]
    exact l.ofSource_start
  have hend : finding.range.stop = Text.positionAfter (l.before ++ body) := by
    rw [hrange, Range.ofSpan, hstop, l.start_eq, ← SourcePosition.advance_append]
    rfl
  -- what is left of the text
  obtain ⟨m, gap, semicolon, k, v, htakes, hremove⟩ :=
    QuickFix.exists_takesAlong (r := b ++ w) hstart hend hfirst hlast
  have hkv := htakes.rest
  obtain ⟨happly, hdrop⟩ := htakes.apply_eq hfirst hlast (congrArg QuickFix.edit hremove)
  rw [htext] at happly hdrop
  obtain ⟨u, rfl, hlead, hu⟩ :=
    l.exists_front htakes.front (fun c hc => (htakes.lead c hc).1) htakes.lineStart
  have hv : v.takeWhile isBlank ++ v.dropWhile isBlank = v := List.takeWhile_append_dropWhile
  have hblank : ∀ c ∈ v.takeWhile isBlank, isBlank c = true :=
    fun c hc => List.all_eq_true.mp List.all_takeWhile c hc
  -- no interpolation is closed that was not before
  have hbrace : '}' ∈ u ++ v → '}' ∈ l.head.lead ++ l.rest := by
    intro hmem
    rcases List.mem_append.mp hmem with hmem | hmem
    · rw [hlead]
      simp [hmem]
    · have hbehind : '}' ∈ b ++ w :=
        Text.mem_of_mem_pastSemicolon (by rw [hkv]; exact List.mem_append_right k hmem)
      rw [hrest]
      simp only [List.mem_append] at hbehind ⊢
      exact Or.inr (Or.inr hbehind)
  have hpre : Scan.tokensBefore t finding.range.start.toSource = l.pre := by
    rw [hrange, Range.ofSpan, Position.toSource_ofSource]
    exact l.takeWhile_tokens
  rw [happly, List.append_assoc]
  constructor
  · rintro ⟨s', hparse, hbare⟩
    have haddr := l.unaddressed_of_parse hbrace hparse hbare
    refine ⟨?_, ?_⟩
    · rw [hdrop, List.all_eq_true]
      rw [← hv] at hparse haddr hbrace
      exact l.spaces_of_parse hu hblank haddr hbrace hparse
    · simp only
      rw [hpre, happly, List.append_assoc, List.drop_left]
      exact haddr
  · rintro ⟨hspaces, haddr⟩
    simp only at haddr
    rw [hpre, happly, List.append_assoc, List.drop_left] at haddr
    rw [hdrop, List.all_eq_true] at hspaces
    obtain ⟨y, lead, xs, hbehind, hxs⟩ := l.exists_scan_behind hb hscan
    rw [hkv, List.dropWhile_append_of_pos htakes.trail] at hbehind
    rw [← hv] at haddr hbrace ⊢
    exact l.parse_removed hu hspaces haddr hbrace hbehind hxs

namespace QuickFix

theorem exists_removeFor (finding : Diagnostic) (t : Text) :
    ∃ range, removeFor finding t = .removeDeclaration range := by
  simp only [removeFor]
  split <;> exact ⟨_, rfl⟩

/-- The removal does what it says exactly if the text closes over it: then the text after it parses,
and its tree is the old one without the flagged declaration. -/
theorem removal_removes_iff {uri : String} {version : Int} {p : Publication} {t : Text}
    {a : Analysis} {finding : Diagnostic} (h : Analysis.ofText uri version p t = .ok a)
    (hf : finding ∈ a.diagnostics) :
    ∃ (s : Stylesheet) (site : Site) (flagged : Declaration) (insertion : QuickFix) (range : Range),
      Stylesheet.parse t = .ok s ∧ s.nodes = site.plug [.declaration flagged] ∧
      (site.occurrence flagged).finding? p = some finding ∧
      forDiagnostic finding t = .ok [insertion, .removeDeclaration range] ∧
      ((∃ s', Stylesheet.parse ((removeDeclaration range).edit.apply t) = .ok s' ∧
        Node.bare s'.nodes = Node.bare (site.plug [])) ↔ Mends t finding) := by
  obtain ⟨s, site, flagged, hs, hsite, hfinding, l, rfl⟩ := Analysis.exists_layout h hf
  obtain ⟨spaces, _, hinsert⟩ := l.exists_insertFor
    (show (p.finding (.ofSpan ⟨l.head.start, Prelude.stop (l.head :: l.tail)⟩)).range.start =
      .ofSource l.head.start from rfl)
  obtain ⟨range, hrange⟩ := exists_removeFor
    (p.finding (.ofSpan ⟨l.head.start, Prelude.stop (l.head :: l.tail)⟩)) t
  have hiff := l.parse_removal_iff
    (show (p.finding (.ofSpan ⟨l.head.start, Prelude.stop (l.head :: l.tail)⟩)).range = _ from rfl)
  rw [hrange] at hiff
  have hfixes :
      forDiagnostic (p.finding (.ofSpan ⟨l.head.start, Prelude.stop (l.head :: l.tail)⟩)) t =
        .ok [.insertIsolation (.ofSource l.head.start) (isolation ++ spaces),
          .removeDeclaration range] := by
    rw [forDiagnostic, if_neg (by simp [Publication.finding]), hinsert, hrange]
  exact ⟨s, site, flagged, _, range, hs, hsite, hfinding, hfixes, hiff⟩

/-- Here `url(` in front of the declaration has its closing parenthesis behind a backslash, and
takes in what follows once the blank within the declaration is gone. -/
theorem removal_removes_iff_swallowing :
    ∃ (t : Text) (a : Analysis) (finding : Diagnostic) (s : Stylesheet) (site : Site)
      (flagged : Declaration) (insertion : QuickFix) (range : Range),
      Analysis.ofText "a" 0 {} t = .ok a ∧ finding ∈ a.diagnostics ∧
      Stylesheet.parse t = .ok s ∧ s.nodes = site.plug [.declaration flagged] ∧
      forDiagnostic finding t = .ok [insertion, .removeDeclaration range] ∧
      ¬∃ s', Stylesheet.parse ((removeDeclaration range).edit.apply t) = .ok s' ∧
        Node.bare s'.nodes = Node.bare (site.plug []) := by
  have h : Analysis.ofText "a" 0 {} "a\x7bb:url(\\);z-index: 1;c:\\()\x7d".toList = .ok
      { uri := "a", diagnostics := [Publication.finding {} ⟨⟨0, 11⟩, ⟨0, 21⟩⟩] } :=
    Analysis.ofText_eq_ok_of_toOption (by decide +kernel)
  obtain ⟨s, site, flagged, insertion, range, hs, hsite, _, hfixes, hiff⟩ :=
    removal_removes_iff h (List.mem_singleton_self _)
  have hnot : ¬Mends "a\x7bb:url(\\);z-index: 1;c:\\()\x7d".toList
      (Publication.finding {} ⟨⟨0, 11⟩, ⟨0, 21⟩⟩) := by
    decide +kernel
  exact ⟨_, _, _, s, site, flagged, insertion, range, h, List.mem_singleton_self _, hs, hsite,
    hfixes, fun hremoved => hnot (hiff.mp hremoved)⟩

end QuickFix
end Stacking
