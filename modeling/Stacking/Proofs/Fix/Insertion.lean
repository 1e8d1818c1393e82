import Stacking.Fix
import Stacking.Proofs.Analysis
import Stacking.Proofs.Style.Owners

/-!
# Inserting `isolation: isolate`

The first fix for a `z-index` without effect puts a declaration in front of it. The text in front
of the insertion is read as before, since no address can run into the inserted text
(`Lexeme.address?_isolation`); the text behind it only moves. So the tree gets one declaration more
(`Layout.parse_isolated`), and as this one establishes a stacking context, the findings of its rule
are gone while those of all others stay (`QuickFix.insertion_isolates`).
-/

namespace Stacking

open Token

/-! ## The inserted text -/

/-- The inserted declaration without its semicolon. -/
def isolationChunk : Text :=
  ['i', 's', 'o', 'l', 'a', 't', 'i', 'o', 'n', ':', ' ', 'i', 's', 'o', 'l', 'a', 't', 'e']

theorem isolation_eq : QuickFix.isolation = isolationChunk ++ [';'] := by decide

namespace Lexeme

theorem addressRest?_isolationChunk (v : Text) :
    addressRest? (isolationChunk ++ v) = none ∧ addressRest? (isolationChunk.tail ++ v) = none := by
  constructor <;>
    simp [isolationChunk, addressRest?, isBlank, inIntervals, blankIntervals, addressEnd?, blanks]

/-- Blanks in front of the inserted text end there. -/
theorem length_le_of_blanks {w v b r : Text} (h : w ++ (isolationChunk ++ v) = b ++ r)
    (hb : ∀ c ∈ b, isBlank c = true) : b.length ≤ w.length := by
  refine Nat.le_of_not_lt fun hlt => ?_
  have hget : (b ++ r)[w.length]? = some 'i' := by
    rw [← h, List.getElem?_append_right (Nat.le_refl _), Nat.sub_self]
    rfl
  rw [List.getElem?_append_left hlt] at hget
  exact absurd (hb 'i' (List.mem_of_getElem? hget)) (by decide)

/-- An address that starts in front of the inserted text ends there. -/
theorem addressRest?_append_isolation {w v : Text} {n : Nat}
    (h : addressRest? (w ++ (isolationChunk ++ v)) = some n) : n ≤ w.length := by
  induction hl : w.length using Nat.strongRecOn generalizing w n with
  | ind l ih =>
    cases w with
    | nil =>
      rw [List.nil_append, (addressRest?_isolationChunk v).1] at h
      exact nomatch h
    | cons c w =>
      rw [List.cons_append, addressRest?.eq_def] at h
      simp only [List.length_cons] at hl
      simp only at h
      split at h
      · -- the character behind a backslash may be the first one inserted
        cases w with
        | nil =>
          have hrest : ([] : Text) ++ (isolationChunk ++ v) =
              'i' :: (isolationChunk.tail ++ v) := rfl
          rw [hrest] at h
          simp only [(addressRest?_isolationChunk v).2] at h
          exact nomatch h
        | cons d w =>
          simp only [List.cons_append] at h
          split at h
          · exact nomatch h
          · obtain ⟨m, hm, rfl⟩ := Option.map_eq_some_iff.mp h
            have := ih w.length (by simp at hl; omega) hm rfl
            simp only [List.length_cons] at hl
            omega
      · split at h
        · obtain ⟨b, r, hbr, hb, rfl⟩ := addressEnd?_eq_some h
          have hle := length_le_of_blanks (w := c :: w) hbr hb
          simp only [List.length_cons] at hle
          -- the parenthesis behind the blanks is not the first character inserted
          have hne : b.length ≠ w.length + 1 := by
            intro hlen
            have hget : (b ++ ')' :: r)[b.length]? = some 'i' := by
              rw [← hbr, hlen, ← List.cons_append, List.getElem?_append_right (by simp)]
              simp [isolationChunk]
            simp at hget
          omega
        · split at h
          · exact nomatch h
          · obtain ⟨m, hm, rfl⟩ := Option.map_eq_some_iff.mp h
            have := ih w.length (by omega) hm rfl
            omega

/-- No address runs into the inserted text. -/
theorem address?_append_isolation {w v : Text} {n : Nat}
    (h : address? (addressWord ++ (w ++ (isolationChunk ++ v))) = some n) :
    n ≤ addressWord.length + w.length := by
  obtain ⟨rest, hrest⟩ := address?_eq_some h
  cases w with
  | nil => exact absurd hrest (by simp [addressWord, isolationChunk])
  | cons c w =>
    simp only [addressWord, List.cons_append, List.nil_append, List.cons.injEq, true_and] at hrest
    obtain ⟨rfl, rfl⟩ := hrest
    obtain ⟨b, u, hbu, hb, _, hlen⟩ := exists_blanks (w ++ (isolationChunk ++ v))
    have hle := length_le_of_blanks hbu hb
    have hm : ∃ m, addressRest? (w.drop b.length ++ (isolationChunk ++ v)) = some m ∧
        m + (b.length + 4) = n := by
      rw [← List.drop_append_of_le_length hle, ← hlen]
      exact Option.map_eq_some_iff.mp h
    obtain ⟨m, hm, rfl⟩ := hm
    have := addressRest?_append_isolation hm
    simp only [List.length_drop, addressWord, List.length_cons, List.length_nil] at this ⊢
    omega

theorem token?_isolation (v : Text) :
    token? (isolationChunk ++ ';' :: v) = some (.chunk, isolationChunk.length) := by
  have hrest : chunkRest 0 (isolationChunk ++ ([';'] ++ v)) = isolationChunk.length :=
    chunkRest_append (v := []) (by decide) (Or.inl ⟨';', [], rfl, by simp⟩)
      (fun h => absurd h (by decide)) (fun h => absurd h (by decide))
  exact token?_eq_some_iff.mpr (Or.inr (Or.inr
    ⟨rfl, by decide, by decide, by decide, hrest, by decide⟩))

theorem token?_semicolon (v : Text) : token? (';' :: v) = some (.semicolon, 1) := rfl

end Lexeme

/-- The inserted declaration, when it is put at `start`. -/
def Declaration.isolation (start : SourcePosition) : Declaration :=
  ⟨"isolation", "isolate", false, some ⟨start, start.advance isolationChunk⟩⟩

/-- What is inserted spells one declaration. -/
theorem Declaration.ofPrelude_isolation (lead : Text) (start : SourcePosition) :
    ofPrelude [⟨.chunk, lead, isolationChunk, start⟩] = .ok (isolation start) := by
  have hcontent : isolationChunk.trimEnd = isolationChunk := by decide
  have hread : ofText? isolationChunk none = some ⟨"isolation", "isolate", false, none⟩ := by
    decide
  have hspan := (ofText?_span hread).2 (some ⟨start, start.advance isolationChunk⟩)
  simp [ofPrelude, Prelude.text, Prelude.textAfter, Prelude.start, Prelude.stop, Token.stop,
    Token.content, hcontent, hspan, isolation]

/-- In front of the inserted text no address comes into being. -/
theorem Token.Unaddressed.isolated {ts : List Token} {w v : Text} (h : Unaddressed ts (w ++ v))
    (v' : Text) : Unaddressed ts (w ++ (isolationChunk ++ v')) := by
  induction ts with
  | nil => trivial
  | cons t ts ih =>
    refine ⟨fun hkind hurl => ?_, ih h.2⟩
    have hnone := h.1 hkind hurl
    have hassoc : ∀ z : Text, addressWord ++ (source ts ++ (w ++ z)) =
        addressWord ++ (source ts ++ w) ++ z := by simp
    rw [hassoc] at hnone ⊢
    cases haddr : Lexeme.address? (addressWord ++ (source ts ++ w) ++ (isolationChunk ++ v')) with
    | none => rfl
    | some n =>
      have hle := Lexeme.address?_append_isolation (by rwa [List.append_assoc] at haddr)
      rw [Lexeme.address?_closedBy.append haddr (by simpa using hle) v] at hnone
      exact nomatch hnone

namespace QuickFix

theorem eq_of_mem_indentation {c : Char} {line : Text} (h : c ∈ indentation line) :
    c = ' ' ∨ c = '\t' := by
  simpa using List.all_eq_true.mp List.all_takeWhile c h

/-- What is inserted at a place of a text is the declaration, a line break and the indentation of a
line. -/
theorem exists_insertFor_eq {x y : Text} {d : Diagnostic}
    (h : d.range.start = Text.positionAfter x) :
    ∃ line, insertFor d (x ++ y) = .ok (.insertIsolation (Text.positionAfter x)
      (isolation ++ Text.lineBreak (x ++ y) ++ indentation line)) := by
  obtain ⟨ls, l, m, ms, hcut⟩ := Text.exists_cut x y
  refine ⟨Text.lineContent (l ++ m), ?_⟩
  have hcount := hcut.lineCount
  rw [insertFor, h, hcut.position]
  simp only
  rw [if_pos (by omega), hcut.lineText?]

end QuickFix

/-! ## The tree after the insertion -/

namespace Layout

variable {t : Text} {site : Site} {d : Declaration}

/-- The place to which the declaration moves when `isolation: isolate;` and spaces are put in front
of it. -/
def isolatedStart (l : Layout t site d) (spaces : Text) : SourcePosition :=
  l.head.start.advance (QuickFix.isolation ++ spaces)

/-- How spans change when `isolation: isolate;` and spaces are put in front of the declaration. -/
def isolatedSpan (l : Layout t site d) (spaces : Text) : Option Span → Option Span :=
  carry (l.head.start.startMoved l.head.start (l.isolatedStart spaces))
    (l.head.start.stopMoved l.head.start (l.isolatedStart spaces))

/-- The text with `isolation: isolate;` and spaces in front of a declaration has the tree with that
declaration in front of it. -/
theorem parse_isolated (l : Layout t site d) {spaces : Text}
    (hspaces : ∀ c ∈ spaces, Lexeme.isSpace c = true) :
    Stylesheet.parse (source l.pre ++ l.head.lead ++ (QuickFix.isolation ++ spaces) ++ l.rest) =
      .ok ⟨(site.mapSpans (l.isolatedSpan spaces)).plug
        [.declaration (.isolation l.head.start),
          .declaration (d.mapSpan (l.isolatedSpan spaces))]⟩ := by
  -- the tokens from the declaration on have moved
  obtain ⟨zs, hrest, halike⟩ := Scan.go_moved (s := l.head.start)
    (a := l.head.start) (v := []) rfl l.scan_eq (l.isolatedStart spaces) spaces
  obtain ⟨fresh, ps, post, rfl, hps, hpost⟩ := halike.split
  -- the tokens of the inserted text
  let chunk : Token := ⟨.chunk, l.head.lead, isolationChunk, l.head.start⟩
  let semicolon : Token := ⟨.semicolon, [], [';'], l.head.start.advance isolationChunk⟩
  have hinserted : Scan.go (SourcePosition.first.advance (source l.pre)) [] 0
      (l.head.lead ++ (isolationChunk ++ (';' :: (spaces ++ l.rest)))) =
      ⟨(chunk :: semicolon :: ps) ++ post, .complete⟩ := by
    rw [Scan.go_ignorable _ _ l.ignorable, ← SourcePosition.advance_append, ← l.start_eq,
      Scan.go_token _ _ (Lexeme.token?_isolation _), List.take_left, List.drop_left,
      Scan.go_token _ _ (Lexeme.token?_semicolon _)]
    simp only [List.take_succ_cons, List.take_zero, List.drop_succ_cons, List.drop_zero]
    rw [Scan.go_spaces _ _ hspaces, ← SourcePosition.advance_append,
      ← SourcePosition.advance_append, ← List.append_assoc, ← isolation_eq]
    exact congrArg (fun s => (s.push semicolon).push chunk) hrest
  -- the text in front is cut as before
  have hlex : Lexes l.pre (l.head.lead ++ (isolationChunk ++ (';' :: (spaces ++ l.rest)))) := by
    refine l.lexes.relay l.endsStatement (l.lexes.unaddressed.isolated _) fun hbrace => ?_
    have hnot : '}' ∉ isolationChunk := by decide
    have hspace : '}' ∉ spaces := fun h => absurd (hspaces _ h) (by decide)
    simpa [hnot, hspace] using hbrace
  obtain ⟨sts, hspelled, hnodes⟩ := l.tokens.spelled.alike hps
  have hd : Statement.toNodes [.declaration (l.head :: l.tail)] = .ok [.declaration d] := by
    simp [Statement.toNodes, Statement.toNode, l.tokens.spells]
  have hreaches : Opening.Reaches ⟨none, [chunk]⟩ 0 :=
    { parens := rfl
      keyword := fun _ hk => absurd hk (by simp)
      prelude := fun _ => List.cons_ne_nil _ _ }
  have hX : Spelled l.last (.declaration [chunk] :: sts) (chunk :: semicolon :: ps) :=
    .ended hreaches rfl hspelled
  have hchunk : (Statement.declaration [chunk]).toNode =
      .ok (.declaration (.isolation l.head.start)) := by
    simp [Statement.toNode, chunk, Declaration.ofPrelude_isolation]
  have hXnodes := Statement.toNodes_cons.mpr ⟨_, _, hchunk, hnodes _ hd, rfl⟩
  have hparse := l.parse_splice hlex hinserted hpost hX hXnodes
  have htext : source l.pre ++ l.head.lead ++ (QuickFix.isolation ++ spaces) ++ l.rest =
      source l.pre ++ (l.head.lead ++ (isolationChunk ++ (';' :: (spaces ++ l.rest)))) := by
    simp [isolation_eq]
  rw [htext, hparse]
  rfl

/-! ## The edit -/

/-- The insertion is a line break and an indentation away from the declaration. -/
theorem exists_insertFor (l : Layout t site d) {finding : Diagnostic}
    (h : finding.range.start = .ofSource l.head.start) :
    ∃ spaces, (∀ c ∈ spaces, Lexeme.isSpace c = true) ∧
      QuickFix.insertFor finding t =
        .ok (.insertIsolation (.ofSource l.head.start) (QuickFix.isolation ++ spaces)) := by
  obtain ⟨line, hinsert⟩ := QuickFix.exists_insertFor_eq (y := l.rest) (h.trans l.ofSource_start)
  rw [← l.text_eq_before, ← l.ofSource_start, List.append_assoc] at hinsert
  -- the line break and the indentation are spaces
  refine ⟨t.lineBreak ++ QuickFix.indentation line, fun c hc => ?_, hinsert⟩
  rcases List.mem_append.mp hc with hc | hc
  · have hbreak : t.lineBreak = ['\r', '\n'] ∨ t.lineBreak = ['\n'] := by
      unfold Text.lineBreak
      split
      · split <;> simp
      · simp
    rcases hbreak with h | h <;> rw [h] at hc <;> simp at hc
    · rcases hc with rfl | rfl <;> decide
    · subst hc
      decide
  · rcases QuickFix.eq_of_mem_indentation hc with rfl | rfl <;> decide

/-- The edit puts its text in front of the declaration. -/
theorem apply_insertion (l : Layout t site d) (text : Text) :
    (QuickFix.insertIsolation (.ofSource l.head.start) text).edit.apply t =
      l.before ++ text ++ l.rest := by
  obtain ⟨c, v, hrest, hb⟩ := l.exists_rest_eq_cons
  have hoffset : (l.before ++ l.rest).offsetAt (.ofSource l.head.start) = l.before.length := by
    rw [l.ofSource_start]
    exact Text.offsetAt_positionAfter hb (Or.inl (by simp [hrest]))
  have happly : (QuickFix.insertIsolation (.ofSource l.head.start) text).edit.apply
      (l.before ++ l.rest) = l.before ++ text ++ l.rest := by
    rw [QuickFix.edit, Edit.apply, hoffset, List.take_left, List.drop_left]
  rwa [← l.text_eq_before] at happly

end Layout

/-! ## The findings after the insertion -/

theorem Declaration.isolation_establishes (start : SourcePosition) (zIndexApplies : Bool) :
    (Declaration.isolation start).establishes zIndexApplies = true := by
  simp [Declaration.isolation, Declaration.establishes, contextProperties, neutralValues,
    noneDisabledProperties]

theorem Declaration.establishes_mapSpan (f : Option Span → Option Span) (b : Bool)
    (d : Declaration) : (d.mapSpan f).establishes b = d.establishes b := rfl

theorem Occurrence.zIndexApplies_mapSpans (f : Option Span → Option Span) (o : Occurrence) :
    (o.mapSpans f).zIndexApplies = o.zIndexApplies := by
  have howner : (o.owner.mapSpan f).isRuleLike = o.owner.isRuleLike := by
    cases o.owner <;> rfl
  have henables : ∀ d : Declaration, (d.mapSpan f).enablesZIndex = d.enablesZIndex := fun _ => rfl
  simp only [zIndexApplies, mapSpans, howner, List.any_map, Function.comp_def, henables]

/-- Spans do not count for the verdict. -/
theorem Occurrence.isIneffective_mapSpans (f : Option Span → Option Span) (o : Occurrence) :
    (o.mapSpans f).isIneffective = o.isIneffective := by
  have hsets : ∀ d : Declaration, (d.mapSpan f).setsZIndex = d.setsZIndex := fun _ => rfl
  rw [isIneffective, isIneffective, o.zIndexApplies_mapSpans f]
  simp only [mapSpans, hsets, List.any_map, Function.comp_def, Declaration.establishes_mapSpan]

/-- A finding moves when a text is put in. -/
def Diagnostic.pushed (point : Position) (text : Text) (d : Diagnostic) : Diagnostic :=
  { d with range := d.range.pushed point text }

theorem Occurrence.finding?_mapSpans (p : Publication) (o : Occurrence) (a : SourcePosition)
    (text : Text) :
    (o.mapSpans (carry (a.startMoved a (a.advance text))
      (a.stopMoved a (a.advance text)))).finding? p =
      (o.finding? p).map (·.pushed (.ofSource a) text) := by
  rw [finding?, finding?, isIneffective_mapSpans]
  split
  · cases hspan : o.declaration.span with
    | none => simp [mapSpans, Declaration.mapSpan, hspan]
    | some span =>
      simp [mapSpans, Declaration.mapSpan, hspan, Diagnostic.pushed, Publication.finding,
        Range.ofSpan, Range.pushed, Position.toSource_ofSource, Span.carried]
  · rfl

/-- Beside a declaration that establishes a stacking context there is no finding. -/
theorem Occurrence.finding?_eq_none {p : Publication} {o : Occurrence} {d : Declaration}
    (hd : d ∈ o.siblings) (h : ∀ b, d.establishes b = true) : o.finding? p = none := by
  have hany : o.siblings.any (·.establishes o.zIndexApplies) = true :=
    List.any_eq_true.mpr ⟨d, hd, h _⟩
  rw [finding?, isIneffective, hany]
  simp

theorem Occurrence.finding?_eq_some {p : Publication} {o : Occurrence} {finding : Diagnostic}
    (h : o.finding? p = some finding) :
    ∃ span, o.declaration.span = some span ∧ finding = p.finding (.ofSpan span) := by
  rw [finding?] at h
  split at h
  · obtain ⟨span, hspan, rfl⟩ := Option.map_eq_some_iff.mp h
    exact ⟨span, hspan, rfl⟩
  · exact nomatch h

/-- Every finding about a text is that of a declaration in it, which stands at some site and lies
somewhere in the text. -/
theorem Analysis.exists_layout {uri : String} {version : Int} {p : Publication} {t : Text}
    {a : Analysis} {finding : Diagnostic} (h : Analysis.ofText uri version p t = .ok a)
    (hf : finding ∈ a.diagnostics) :
    ∃ (s : Stylesheet) (site : Site) (flagged : Declaration),
      Stylesheet.parse t = .ok s ∧ s.nodes = site.plug [.declaration flagged] ∧
      (site.occurrence flagged).finding? p = some finding ∧
      ∃ l : Layout t site flagged, finding = p.finding
        (.ofSpan ⟨l.head.start, Prelude.stop (l.head :: l.tail)⟩) := by
  obtain ⟨s, hs, _, _, hdiag⟩ := Analysis.ofText_eq_ok h
  rw [hdiag, List.mem_filterMap] at hf
  obtain ⟨o, ho, hfinding⟩ := hf
  obtain ⟨site, hsite, hoccurrence⟩ := Site.exists_of_mem_occurrences ho
  obtain ⟨l⟩ := Stylesheet.exists_layout hs hsite
  refine ⟨s, site, o.declaration, hs, hsite, hoccurrence ▸ hfinding, l, ?_⟩
  obtain ⟨span, hspan, rfl⟩ := Occurrence.finding?_eq_some hfinding
  rw [Declaration.ofPrelude_span l.tokens.spells] at hspan
  obtain rfl := Option.some.inj hspan
  rfl

/-- The insertion does what it says: the text after it parses, its tree is the old one with
`isolation: isolate` right in front of the flagged declaration, and its findings are those of the
declarations with another owner. -/
theorem QuickFix.insertion_isolates {uri : String} {version : Int} {p : Publication} {t : Text}
    {a : Analysis} {finding : Diagnostic} (h : Analysis.ofText uri version p t = .ok a)
    (hf : finding ∈ a.diagnostics) :
    ∃ (s : Stylesheet) (site : Site) (flagged : Declaration) (point : Position) (text : Text)
      (s' : Stylesheet) (a' : Analysis),
      Stylesheet.parse t = .ok s ∧ s.nodes = site.plug [.declaration flagged] ∧
      (site.occurrence flagged).finding? p = some finding ∧
      forDiagnostic finding t = .ok [.insertIsolation point text, removeFor finding t] ∧
      Stylesheet.parse ((QuickFix.insertIsolation point text).edit.apply t) = .ok s' ∧
      Node.bare s'.nodes = Node.bare (site.plug
        [.declaration ⟨"isolation", "isolate", false, none⟩, .declaration flagged]) ∧
      Analysis.ofText uri version p ((QuickFix.insertIsolation point text).edit.apply t) = .ok a' ∧
      a'.diagnostics = ((s.occurrences.filter (·.owner ≠ site.owner .stylesheet)).filterMap
        (·.finding? p)).map (·.pushed point text) := by
  obtain ⟨s, site, flagged, hs, hsite, hfinding, l, rfl⟩ := Analysis.exists_layout h hf
  obtain ⟨spaces, hspaces, hinsert⟩ := l.exists_insertFor
    (show (p.finding (.ofSpan ⟨l.head.start, Prelude.stop (l.head :: l.tail)⟩)).range.start =
      .ofSource l.head.start from rfl)
  have hparse := l.parse_isolated hspaces
  have happly := l.apply_insertion (isolation ++ spaces)
  rw [← Layout.before, ← happly] at hparse
  obtain ⟨a', ha', hdiag⟩ := Analysis.exists_ofText_eq_ok uri version p hparse
  refine ⟨s, site, flagged, .ofSource l.head.start, isolation ++ spaces, _, a', hs, hsite,
    hfinding, ?_, hparse, ?_, ha', ?_⟩
  · rw [forDiagnostic, if_neg (by simp [Publication.finding]), hinsert]
  · exact site.bare_plug_congr _ rfl
  · -- beside the insertion nothing is found, elsewhere everything has moved
    rw [hdiag, ← Stylesheet.elsewhere_eq_filter hs hsite, Stylesheet.occurrences,
      Site.filterMap_occurrencesIn_plug rfl]
    · have hroot : (site.mapSpans (l.isolatedSpan spaces)).elsewhere .stylesheet =
          (site.elsewhere .stylesheet).map (·.mapSpans (l.isolatedSpan spaces)) :=
        Site.elsewhere_mapSpans _ .stylesheet site
      have hpushed : ∀ o : Occurrence, (o.mapSpans (l.isolatedSpan spaces)).finding? p =
          (o.finding? p).map (·.pushed (.ofSource l.head.start) (isolation ++ spaces)) :=
        fun o => o.finding?_mapSpans p l.head.start (isolation ++ spaces)
      rw [hroot, List.filterMap_map, List.map_filterMap]
      exact congrArg (List.filterMap · _) (funext hpushed)
    · intro d
      exact Occurrence.finding?_eq_none (d := .isolation l.head.start)
        (Site.mem_siblings (by simp) _) (Declaration.isolation_establishes _)

/-- The finding of a declaration behind a comment, in a block that holds another flagged one: the
insertion goes between the comment and the declaration, and the finding of the inner block moves
down. -/
theorem QuickFix.insertion_isolates_nested :
    let t := (".a \x7b\n  /* over */ z-index: 1;\n" ++
      "  b \x7b\n    z-index: 2\n  \x7d\n  color: red;\n\x7d").toList
    let t' := (".a \x7b\n  /* over */ isolation: isolate;\n  z-index: 1;\n" ++
      "  b \x7b\n    z-index: 2\n  \x7d\n  color: red;\n\x7d").toList
    let finding := Publication.finding {} ⟨⟨1, 13⟩, ⟨1, 23⟩⟩
    ∃ a fix s' a', Analysis.ofText "a" 0 {} t = .ok a ∧
      a.diagnostics = [finding, Publication.finding {} ⟨⟨3, 4⟩, ⟨3, 14⟩⟩] ∧
      forDiagnostic finding t = .ok [fix, removeFor finding t] ∧ fix.edit.apply t = t' ∧
      Stylesheet.parse t' = .ok s' ∧
      s'.occurrences.map (fun o => (o.declaration.value, o.siblings.map (·.property))) =
        [("isolate", ["isolation", "z-index", "color"]), ("1", ["isolation", "z-index", "color"]),
          ("2", ["z-index"]), ("red", ["isolation", "z-index", "color"])] ∧
      Analysis.ofText "a" 0 {} t' = .ok a' ∧
      a'.diagnostics = [Publication.finding {} ⟨⟨4, 4⟩, ⟨4, 14⟩⟩] := by
  intro t t' finding
  have hanalysis : (Analysis.ofText "a" 0 {} t).toOption.map (·.diagnostics) =
      some [finding, Publication.finding {} ⟨⟨3, 4⟩, ⟨3, 14⟩⟩] := by decide +kernel
  obtain ⟨a, ha, hdiagnostics⟩ := Option.map_eq_some_iff.mp hanalysis
  have ha := Analysis.ofText_eq_ok_of_toOption ha
  obtain ⟨s, site, flagged, point, text, s', a', -, -, -, hfix, hparse, -, ha', -⟩ :=
    insertion_isolates ha (hdiagnostics ▸ List.mem_cons_self)
  have hconcrete : (forDiagnostic finding t).toOption = some
      [.insertIsolation ⟨1, 13⟩ "isolation: isolate;\n  ".toList, removeFor finding t] := by
    decide +kernel
  have hinserted : insertIsolation point text =
      .insertIsolation ⟨1, 13⟩ "isolation: isolate;\n  ".toList := by
    rw [hfix] at hconcrete
    exact (List.cons.inj (Option.some.inj hconcrete)).1
  have happly : (insertIsolation point text).edit.apply t = t' := by
    rw [hinserted]
    decide +kernel
  rw [happly] at hparse ha'
  have hoccurrences : (Stylesheet.parse t').toOption.map (fun s => s.occurrences.map
      (fun o => (o.declaration.value, o.siblings.map (·.property)))) = some
      [("isolate", ["isolation", "z-index", "color"]), ("1", ["isolation", "z-index", "color"]),
        ("2", ["z-index"]), ("red", ["isolation", "z-index", "color"])] := by decide +kernel
  have hremaining : (Analysis.ofText "a" 0 {} t').toOption.map (·.diagnostics) =
      some [Publication.finding {} ⟨⟨4, 4⟩, ⟨4, 14⟩⟩] := by decide +kernel
  rw [hparse] at hoccurrences
  rw [ha'] at hremaining
  exact ⟨a, _, s', a', ha, hdiagnostics, hfix, happly, hparse, Option.some.inj hoccurrences, ha',
    Option.some.inj hremaining⟩

end Stacking
