import Stacking.Proofs.Style.Parsing
import Stacking.Proofs.Style.Viable

/-!
# Where syntax errors point

An error that parsing reports stands at the first offending token
(`Stylesheet.parse_error_locates`). What that means depends on the cause (`ParseError.Locates`):
with an unexpected token no sentence goes on, at an unexpected character no terminal matches, an
unexpected end leaves a sentence unfinished, and a malformed declaration is the first one of a text
that is a sentence otherwise.
-/

namespace Stacking

/-! ## Cutting a text up to a place -/

/-- The text from `place` on is cut into tokens from left to right, up to where `rest` is left: the
expression of a kind of token or of ignored text is matched at its start, then one at what is left,
and so on. -/
inductive CutsTo : SourcePosition → Text → List Leaf → SourcePosition → Text → Prop
  | here {place : SourcePosition} {t : Text} : CutsTo place t [] place t
  | token {place stop : SourcePosition} {kind : TokenKind} {x t rest : Text} {ls : List Leaf} :
      kind.regex.match? (x ++ t) = some t → CutsTo (place.advance x) t ls stop rest →
      CutsTo place (x ++ t) (⟨kind, x⟩ :: ls) stop rest
  | ignored {place stop : SourcePosition} {filler : Filler} {x t rest : Text} {ls : List Leaf} :
      filler.regex.match? (x ++ t) = some t → CutsTo (place.advance x) t ls stop rest →
      CutsTo place (x ++ t) ls stop rest

/-- Behind the tokens at the start of a text stands another one, at the place. -/
def TokenAt (t : Text) (before : List Leaf) (l : Leaf) (place : SourcePosition) : Prop :=
  ∃ rest, CutsTo .first t before place (l.text ++ rest) ∧
    l.kind.regex.match? (l.text ++ rest) = some rest

namespace Scan

/-- Where nothing is ignored, the first token of a scan stands right there. -/
theorem exists_of_go_eq_cons {place : SourcePosition} {lead t : Text} {tok : Token}
    {us : List Token} {e : ScanEnd} (hign : Lexeme.ignored? t = none)
    (h : go place lead 0 t = ⟨tok :: us, e⟩) :
    ∃ v, t = tok.text ++ v ∧ tok.start = place ∧ tok.kind.regex.match? (tok.text ++ v) = some v ∧
      tok.text ≠ [] ∧ go (place.advance tok.text) [] 0 v = ⟨us, e⟩ := by
  cases htok : Lexeme.token? t with
  | none =>
    cases t with
    | nil => cases h
    | cons c t =>
      rw [go, hign, htok] at h
      cases h
  | some found =>
    obtain ⟨kind, n⟩ := found
    obtain ⟨_, hpos, hle⟩ := Lexeme.token?_le_length htok
    obtain ⟨x, v, rfl, rfl⟩ := exists_append_of_le_length hle
    rw [go_token place lead htok, List.take_left, List.drop_left] at h
    injection h with hcons hend
    obtain ⟨rfl, hus⟩ := List.cons.inj hcons
    refine ⟨v, rfl, rfl, TokenKind.match?_regex.mpr ⟨_, htok, List.drop_left⟩, ?_, ?_⟩
    · exact List.length_pos_iff.mp hpos
    · rw [← hus, ← hend]

/-- A scan cuts the text up to each of its tokens and up to its end. -/
theorem exists_cutsTo {place : SourcePosition} {lead t : Text} {ts us : List Token} {e : ScanEnd}
    (h : go place lead 0 t = ⟨ts ++ us, e⟩) :
    ∃ stop lead' rest, CutsTo place t (ts.map Token.leaf) stop rest ∧
      Lexeme.ignored? rest = none ∧ go stop lead' 0 rest = ⟨us, e⟩ := by
  induction hl : t.length using Nat.strongRecOn generalizing place lead t ts with
  | ind l ih =>
    cases hign : Lexeme.ignored? t with
    | some n =>
      obtain ⟨hpos, hle⟩ := Lexeme.ignored?_le_length hign
      obtain ⟨x, v, rfl, rfl⟩ := exists_append_of_le_length hle
      obtain ⟨filler, hmatch⟩ := Filler.match?_regex.mpr ⟨_, hign, List.drop_left⟩
      rw [List.length_append] at hl
      rw [go_ignored place lead hign, List.drop_left, List.take_left] at h
      obtain ⟨stop, lead', rest, hcuts, hrest⟩ := ih v.length (by omega) h rfl
      exact ⟨stop, lead', rest, .ignored hmatch hcuts, hrest⟩
    | none =>
      cases ts with
      | nil => exact ⟨place, lead, t, .here, hign, h⟩
      | cons tok ts =>
        obtain ⟨v, rfl, _, hmatch, hne, hgo⟩ := exists_of_go_eq_cons hign h
        have hpos := List.length_pos_iff.mpr hne
        rw [List.length_append] at hl
        obtain ⟨stop, lead', rest, hcuts, hrest⟩ := ih v.length (by omega) hgo rfl
        exact ⟨stop, lead', rest, .token hmatch hcuts, hrest⟩

/-- Every token of a scan stands behind those in front of it. -/
theorem tokenAt {t : Text} {ts us : List Token} {tok : Token}
    (h : (ofText t).tokens = ts ++ tok :: us) :
    TokenAt t (ts.map Token.leaf) tok.leaf tok.start := by
  have hgo : go .first [] 0 t = ⟨ts ++ tok :: us, (ofText t).ending⟩ := by
    rw [← h]
    rfl
  obtain ⟨stop, lead, rest, hcuts, hign, hrest⟩ := exists_cutsTo hgo
  obtain ⟨v, rfl, rfl, hmatch, _⟩ := exists_of_go_eq_cons hign hrest
  exact ⟨v, hcuts, hmatch⟩

/-- A scan that is stuck stands before a character at which nothing matches. -/
theorem stuck_at {t : Text} {c : Char} {place : SourcePosition}
    (h : (ofText t).ending = .stuck c place) :
    ∃ rest, CutsTo .first t ((ofText t).tokens.map Token.leaf) place (c :: rest) ∧
      (∀ kind : TokenKind, kind.regex.match? (c :: rest) = none) ∧
      ∀ filler : Filler, filler.regex.match? (c :: rest) = none := by
  have hgo : go .first [] 0 t = ⟨(ofText t).tokens ++ [], .stuck c place⟩ := by
    rw [List.append_nil, ← h]
    rfl
  obtain ⟨stop, lead, rest, hcuts, hign, hrest⟩ := exists_cutsTo hgo
  cases rest with
  | nil => cases hrest
  | cons d rest =>
    rw [go, hign] at hrest
    cases htok : Lexeme.token? (d :: rest) with
    | some found =>
      rw [htok] at hrest
      cases hrest
    | none =>
      rw [htok] at hrest
      obtain ⟨rfl, rfl⟩ := ScanEnd.stuck.inj (Scan.mk.inj hrest).2
      refine ⟨rest, hcuts, fun kind => ?_, fun filler => ?_⟩
      · refine Option.eq_none_iff_forall_ne_some.mpr fun r hr => ?_
        obtain ⟨n, hn, _⟩ := TokenKind.match?_regex.mp hr
        rw [htok] at hn
        cases hn
      · refine Option.eq_none_iff_forall_ne_some.mpr fun r hr => ?_
        obtain ⟨n, hn, _⟩ := Filler.match?_regex.mp ⟨filler, hr⟩
        rw [hign] at hn
        cases hn

end Scan

/-! ## The first malformed declaration -/

/-- What corresponds to an element of a list stands behind what corresponds to those before it. -/
theorem exists_append_of_forall₂ {α β : Type} {R : α → β → Prop} {xs : List α} {ys zs : List β}
    {y : β} (h : List.Forall₂ R xs (ys ++ y :: zs)) :
    ∃ us x vs, xs = us ++ x :: vs ∧ List.Forall₂ R us ys ∧ R x y := by
  have hbefore := List.forall₂_take_append xs ys (y :: zs) h
  have hafter := List.forall₂_drop_append xs ys (y :: zs) h
  obtain ⟨x, vs, hx, _, hdrop⟩ := List.forall₂_cons_right_iff.mp hafter
  exact ⟨_, x, vs, by rw [← hdrop, List.take_append_drop], hbefore, hx⟩

theorem Declaration.not_hasProperty_of_error {p : List Token} {e : ParseError}
    (h : ofPrelude p = .error e) :
    e.fault = .malformedDeclaration (Prelude.text p) ∧ e.place = Prelude.start p ∧
      ¬Text.HasProperty (p.flatMap (·.text)) := by
  refine ⟨?_, ?_, ?_⟩
  · rw [ofPrelude] at h
    split at h
    · rw [← Except.error.inj h]
    · cases h
  · rw [ofPrelude] at h
    split at h
    · rw [← Except.error.inj h]
    · cases h
  · rw [← exists_ofPrelude_iff, h]
    rintro ⟨d, hd⟩
    cases hd

namespace Statement

mutual

/-- The declaration that is reported is the first one in a statement that is malformed. -/
theorem toNode_eq_error {st : Statement} {e : ParseError} (h : st.toNode = .error e) :
    ∃ before p after, st.preludes = before ++ p :: after ∧
      (∀ q ∈ before, Text.HasProperty (q.flatMap (·.text))) ∧
      Declaration.ofPrelude p = .error e := by
  cases st with
  | declaration p =>
    rw [toNode] at h
    split at h
    · rename_i hp
      obtain rfl := Except.error.inj h
      exact ⟨[], p, [], rfl, nofun, hp⟩
    · exact nomatch h
  | atStatement k p =>
    rw [toNode] at h
    exact nomatch h
  | block k p body close =>
    rw [toNode] at h
    split at h
    · rename_i hbody
      obtain rfl := Except.error.inj h
      exact toNodes_eq_error hbody
    · exact nomatch h

/-- The declaration that is reported is the first one among statements that is malformed. -/
theorem toNodes_eq_error {sts : List Statement} {e : ParseError} (h : toNodes sts = .error e) :
    ∃ before p after, preludesIn sts = before ++ p :: after ∧
      (∀ q ∈ before, Text.HasProperty (q.flatMap (·.text))) ∧
      Declaration.ofPrelude p = .error e := by
  cases sts with
  | nil =>
    rw [toNodes] at h
    exact nomatch h
  | cons st sts =>
    rw [toNodes] at h
    split at h
    · rename_i hst
      obtain rfl := Except.error.inj h
      obtain ⟨before, p, after, hst', hrest⟩ := toNode_eq_error hst
      exact ⟨before, p, after ++ preludesIn sts, by simp [preludesIn, hst'], hrest⟩
    · rename_i node hst
      split at h
      · rename_i hsts
        obtain rfl := Except.error.inj h
        obtain ⟨before, p, after, hsts', hbefore, hp⟩ := toNodes_eq_error hsts
        refine ⟨st.preludes ++ before, p, after, by simp [preludesIn, hsts'], ?_, hp⟩
        have hall := (exists_toNode_iff st).mp ⟨node, hst⟩
        rw [declared_eq_map, List.forall_mem_map] at hall
        exact List.forall_mem_append.mpr ⟨hall, hbefore⟩
      · exact nomatch h

end

end Statement

/-! ## Errors -/

namespace ParseError

/-- What an error says about the text that it is reported for. -/
def Locates (e : ParseError) (t : Text) : Prop :=
  match e.fault with
  | .unexpectedToken text =>
    ∃ before l, TokenAt t before l e.place ∧ l.text = text ∧ Viable before ∧
      ¬Viable (before ++ [l])
  | .unexpectedCharacter c =>
    ∃ before rest, CutsTo .first t before e.place (c :: rest) ∧
      (∀ kind : TokenKind, kind.regex.match? (c :: rest) = none) ∧
      (∀ filler : Filler, filler.regex.match? (c :: rest) = none) ∧ Viable before
  | .unexpectedEnd =>
    ∃ ls, Splits t ls ∧ Viable ls ∧ ¬Sentence ls ∧ (ls = [] → e.place = .first) ∧
      ∀ before l, ls = before ++ [l] → TokenAt t before l e.place
  | .malformedDeclaration _ =>
    ∃ ls, Splits t ls ∧ Sentence ls ∧ ∀ tree : ParseTree, tree.Derives .start ls →
      ∃ well found rest, tree.declaredFrom 0 = well ++ found :: rest ∧
        (∀ d ∈ well, d.2.HasProperty) ∧ ¬found.2.HasProperty ∧
        ∃ before l after, ls = before ++ l :: after ∧ before.length = found.1 ∧
          TokenAt t before l e.place

theorem Locates.unexpectedToken {t : Text} {tok : Token}
    (h : Reading.start.readAll (Scan.ofText t).tokens = .error tok) :
    Locates ⟨.unexpectedToken tok.text, tok.start⟩ t := by
  obtain ⟨us, vs, hts, hviable, hstuck⟩ := Reading.viable_of_readAll_eq_error h
  exact ⟨_, tok.leaf, Scan.tokenAt hts, rfl, hviable, hstuck⟩

theorem Locates.unexpectedCharacter {t : Text} {r : Reading} {c : Char} {place : SourcePosition}
    (h : Reading.start.readAll (Scan.ofText t).tokens = .ok r)
    (hend : (Scan.ofText t).ending = .stuck c place) :
    Locates ⟨.unexpectedCharacter c, place⟩ t := by
  obtain ⟨rest, hcuts, hkinds, hfillers⟩ := Scan.stuck_at hend
  exact ⟨_, rest, hcuts, hkinds, hfillers, viable_iff_readAll.mpr ⟨r, h⟩⟩

theorem Locates.unexpectedEnd {t : Text} {r : Reading}
    (h : Reading.start.readAll (Scan.ofText t).tokens = .ok r)
    (hend : (Scan.ofText t).ending = .complete) (hopen : r.complete? = none) :
    Locates ⟨.unexpectedEnd, (Scan.ofText t).lastStart⟩ t := by
  refine ⟨_, splits_iff.mpr ⟨hend, rfl⟩, viable_iff_readAll.mpr ⟨r, h⟩, ?_, ?_, ?_⟩
  · rw [sentence_iff_spelled]
    rintro ⟨sts, hsts⟩
    obtain ⟨r', hr', hcomplete⟩ := Reading.readAll_complete_iff.mpr hsts
    obtain rfl := Except.ok.inj (h.symm.trans hr')
    rw [hopen] at hcomplete
    exact nomatch hcomplete
  · intro hnil
    simp [Scan.lastStart, List.map_eq_nil_iff.mp hnil]
  · intro before l hls
    obtain ⟨us, vs, hts, rfl, hvs⟩ := List.map_eq_append_iff.mp hls
    obtain ⟨tok, rfl, rfl⟩ := List.map_eq_singleton_iff.mp hvs
    have hplace : (Scan.ofText t).lastStart = tok.start := by simp [Scan.lastStart, hts]
    rw [hplace]
    exact Scan.tokenAt hts

theorem Locates.malformedDeclaration {t : Text} {sts : List Statement} {e : ParseError}
    (hend : (Scan.ofText t).ending = .complete) (hsts : Spelled false sts (Scan.ofText t).tokens)
    (h : Statement.toNodes sts = .error e) : Locates e t := by
  obtain ⟨before, p, after, hps, hbefore, hp⟩ := Statement.toNodes_eq_error h
  obtain ⟨hfault, hplace, hflawed⟩ := Declaration.not_hasProperty_of_error hp
  rw [Locates, hfault]
  refine ⟨_, splits_iff.mpr ⟨hend, rfl⟩, sentence_iff_spelled.mpr ⟨sts, hsts⟩, fun tree htree => ?_⟩
  have hstanding := htree.forall_standing hsts
  rw [hps] at hstanding
  obtain ⟨well, found, rest, hfound, hwell, hone⟩ := exists_append_of_forall₂ hstanding
  obtain ⟨us, vs, hts, hlen⟩ := hone.stands
  obtain ⟨tok, p, rfl⟩ := List.exists_cons_of_ne_nil hone.ne_nil
  refine ⟨well, found, rest, hfound, ?_, by rwa [hone.text], us.map Token.leaf, tok.leaf,
    (p ++ vs).map Token.leaf, by simp [hts], by simpa using hlen, ?_⟩
  · have htexts := ParseTree.StandsIn.map_text hwell
    intro d hd
    have hmem : d.2 ∈ well.map (·.2) := List.mem_map_of_mem hd
    rw [htexts] at hmem
    obtain ⟨q, hq, hd⟩ := List.mem_map.mp hmem
    exact hd ▸ hbefore q hq
  · rw [hplace]
    exact Scan.tokenAt hts

end ParseError

namespace Stylesheet

/-- Every error points at the first offending token. An unexpected token stands behind tokens with
which a sentence starts, and with it none does. At an unexpected character no terminal matches, and
a sentence starts with the tokens before it. At an unexpected end all tokens start a sentence that
is not finished; the place is the start of the last token. A malformed declaration is the first one
of a sentence whose prelude has no colon with more than blanks before it, and the place is its
start. -/
theorem parse_error_locates {t : Text} {e : ParseError} (h : parse t = .error e) : e.Locates t := by
  rw [parse, Scan.statements] at h
  cases hread : Reading.start.readAll (Scan.ofText t).tokens with
  | error tok =>
    simp only [hread] at h
    exact Except.error.inj h ▸ .unexpectedToken hread
  | ok r =>
    simp only [hread] at h
    cases hend : (Scan.ofText t).ending with
    | stuck c place =>
      simp only [hend] at h
      exact Except.error.inj h ▸ .unexpectedCharacter hread hend
    | complete =>
      simp only [hend] at h
      cases hcomplete : r.complete? with
      | none =>
        simp only [hcomplete] at h
        exact Except.error.inj h ▸ .unexpectedEnd hread hend hcomplete
      | some sts =>
        simp only [hcomplete] at h
        have hsts : Spelled false sts (Scan.ofText t).tokens :=
          Reading.spelled_of_readAll hread hcomplete
        split at h
        · rename_i hnodes
          exact Except.error.inj h ▸ .malformedDeclaration hend hsts hnodes
        · cases h

/-- The error of a result, if it is one. -/
def fault? (x : Except ParseError Stylesheet) : Option ParseError :=
  match x with
  | .error e => some e
  | .ok _ => none

theorem eq_error_of_fault? {x : Except ParseError Stylesheet} {e : ParseError}
    (h : fault? x = some e) : x = .error e := by
  cases x with
  | error e' => exact congrArg Except.error (Option.some.inj h)
  | ok s => exact nomatch h

theorem parse_error_locates_each :
    (∃ t e, t = "a{b:c;@m (d @k) @k}".toList ∧ e = ⟨.unexpectedToken "@k".toList, ⟨1, 17⟩⟩ ∧
      parse t = .error e ∧ e.Locates t) ∧
    (∃ t e, t = "a{b:c}\n'd".toList ∧ e = ⟨.unexpectedCharacter '\'', ⟨2, 1⟩⟩ ∧
      parse t = .error e ∧ e.Locates t) ∧
    (∃ t e, t = "@m (a) {b:c;} /* d */ e ".toList ∧ e = ⟨.unexpectedEnd, ⟨1, 23⟩⟩ ∧
      parse t = .error e ∧ e.Locates t) ∧
    ∃ t e, t = "a{b:c;d{e:f} g}".toList ∧ e = ⟨.malformedDeclaration "g".toList, ⟨1, 14⟩⟩ ∧
      parse t = .error e ∧ e.Locates t := by
  have htoken : fault? (parse "a{b:c;@m (d @k) @k}".toList) =
      some ⟨.unexpectedToken "@k".toList, ⟨1, 17⟩⟩ := by
    decide +kernel
  have hcharacter : fault? (parse "a{b:c}\n'd".toList) =
      some ⟨.unexpectedCharacter '\'', ⟨2, 1⟩⟩ := by
    decide +kernel
  have hend : fault? (parse "@m (a) {b:c;} /* d */ e ".toList) =
      some ⟨.unexpectedEnd, ⟨1, 23⟩⟩ := by
    decide +kernel
  have hmalformed : fault? (parse "a{b:c;d{e:f} g}".toList) =
      some ⟨.malformedDeclaration "g".toList, ⟨1, 14⟩⟩ := by
    decide +kernel
  have htoken := eq_error_of_fault? htoken
  have hcharacter := eq_error_of_fault? hcharacter
  have hend := eq_error_of_fault? hend
  have hmalformed := eq_error_of_fault? hmalformed
  exact ⟨⟨_, _, rfl, rfl, htoken, parse_error_locates htoken⟩,
    ⟨_, _, rfl, rfl, hcharacter, parse_error_locates hcharacter⟩,
    ⟨_, _, rfl, rfl, hend, parse_error_locates hend⟩,
    ⟨_, _, rfl, rfl, hmalformed, parse_error_locates hmalformed⟩⟩

end Stylesheet
end Stacking
