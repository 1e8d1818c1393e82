import Stacking.Proofs.Fix.Removal
import Stacking.Proofs.Ranges

/-!
# The edits of a repair stay apart

A repair computes all its edits against the text as it is, and makes them one after the other. An
insertion stands in front of its declaration. A removal takes along blanks and a semicolon, but
nothing that another one takes along (`QuickFix.TakesAlong.exists_gap`). So the edits follow each
other in the text, the later ones leave the earlier ones their ranges (`Repair.precedes`), and the
repaired text is the text with all edits made at once (`Repair.applyAll_eq_substitute`).
-/

namespace Stacking

open Text

/-! ## Stretches of a text -/

/-- The stretch `c` between `x` and `r` is what the range covers in the text. It neither starts nor
ends with a blank. -/
structure Range.Covers (t : Text) (range : Range) (x c r : Text) : Prop where
  text_eq : t = x ++ (c ++ r)
  start_eq : range.start = positionAfter x
  stop_eq : range.stop = positionAfter (x ++ c)
  first : ∃ e ∈ c.head?, isBlank e = false
  last : ∃ e ∈ c.getLast?, isBlank e = false

/-- An exact range covers the stretch between its ends. -/
theorem Range.Exact.exists_covers {t : Text} {range : Range} (h : range.Exact t) :
    ∃ x c r, range.Covers t x c r := by
  have hlt := h.lt
  have hle := h.le
  have htext := (List.take_append_drop (t.offsetAt range.start) t).symm
  rw [drop_eq_append (Nat.le_of_lt hlt) t] at htext
  refine ⟨_, _, _, htext, ?_, ?_, ?_, ?_⟩
  · rw [positionAfter_take (by omega), h.start_eq]
  · have hfront : t.take (t.offsetAt range.start) ++
        (t.take (t.offsetAt range.stop)).drop (t.offsetAt range.start) =
          t.take (t.offsetAt range.stop) := by
      have htake : t.take (t.offsetAt range.start) =
          (t.take (t.offsetAt range.stop)).take (t.offsetAt range.start) := by
        rw [List.take_take, Nat.min_eq_left (Nat.le_of_lt hlt)]
      rw [htake, List.take_append_drop]
    rw [hfront, positionAfter_take hle, h.stop_eq]
  · rw [List.head?_drop, List.getElem?_take_of_lt hlt]
    exact h.first
  · rw [List.getLast?_drop, List.getLast?_eq_getElem?, List.length_take_of_le hle,
      if_neg (by omega), List.getElem?_take_of_lt (by omega)]
    exact h.last

namespace Range.Covers

variable {t x c r x' c' r' : Text} {range range' : Range}

/-- Where one range ends in front of another, something stands between the stretches. -/
theorem exists_between (h : range.Covers t x c r) (h' : range'.Covers t x' c' r')
    (hlt : range.stop < range'.start) : ∃ g, g ≠ [] ∧ x' = x ++ (c ++ g) ∧ r = g ++ (c' ++ r') := by
  have hp : x ++ c <+: t := ⟨r, by rw [h.text_eq, List.append_assoc]⟩
  have hp' : x' <+: t := ⟨c' ++ r', h'.text_eq.symm⟩
  rw [h.stop_eq, h'.start_eq] at hlt
  rcases List.prefix_or_prefix_of_prefix hp hp' with ⟨g, rfl⟩ | ⟨g, hg⟩
  · refine ⟨g, ?_, List.append_assoc _ _ _, ?_⟩
    · rintro rfl
      rw [List.append_nil, Position.lt_iff] at hlt
      omega
    · have htext := h.text_eq.symm.trans h'.text_eq
      simpa using htext
  · -- the second one would not start behind the first
    have hle := positionAfter_le_append x' g
    rw [hg] at hle
    simp only [Position.lt_iff, Position.le_iff] at hlt hle
    omega

end Range.Covers

/-! ## What removals take along -/

namespace QuickFix.TakesAlong

variable {x c r m b w k v x' c' r' m' b' w' k' v' g : Text}

/-- What a removal takes along lies in front of the next declaration. -/
theorem exists_eq_append (h : TakesAlong x r m b w k v)
    (hfirst' : ∃ e ∈ c'.head?, isBlank e = false) (hg : g ≠ []) (hr : r = g ++ (c' ++ r')) :
    ∃ g', g = w ++ k ++ g' := by
  have hsplit : w ++ k ++ v = g ++ (c' ++ r') := by
    rw [← hr, h.behind, List.append_assoc]
  rcases List.append_eq_append_iff.mp hsplit with ⟨g', hg', _⟩ | ⟨a, hwk, ha⟩
  · exact ⟨g', hg'⟩
  · cases a with
    | nil => exact ⟨[], by simpa using hwk.symm⟩
    | cons d a =>
      -- the first character of the declaration would be one of the blanks
      obtain ⟨e, he, heb⟩ := hfirst'
      obtain ⟨c'', rfl⟩ := List.head?_eq_some_iff.mp he
      obtain ⟨rfl, _⟩ := List.cons.inj ha
      have hmem : e ∈ k := by
        obtain ⟨f, g, rfl⟩ := List.exists_cons_of_ne_nil hg
        rcases h.semicolon with rfl | rfl
        · rw [List.nil_append] at hwk
          rw [hwk]
          simp
        · have hk : k = g ++ e :: a := (List.cons.inj hwk).2
          rw [hk]
          simp
      rw [h.trail e hmem] at heb
      exact nomatch heb

/-- What the removals of two declarations take along does not overlap. -/
theorem exists_gap (h : TakesAlong x r m b w k v) (h' : TakesAlong x' r' m' b' w' k' v')
    (hlast : ∃ e ∈ c.getLast?, isBlank e = false) (hfirst' : ∃ e ∈ c'.head?, isBlank e = false)
    (hg : g ≠ []) (hx' : x' = x ++ (c ++ g)) (hr : r = g ++ (c' ++ r')) :
    ∃ gap, m' = x ++ (c ++ (w ++ k)) ++ gap := by
  obtain ⟨g', rfl⟩ := h.exists_eq_append hfirst' hg hr
  have hsplit : m' ++ b' = x ++ (c ++ (w ++ k)) ++ g' := by
    rw [← h'.front, hx']
    simp
  rcases List.append_eq_append_iff.mp hsplit with ⟨a, hz, hb'⟩ | ⟨gap, hm', _⟩
  · -- the first removal does not end among the blanks in front of the second declaration
    rcases List.eq_nil_or_concat a with rfl | ⟨a, d, rfl⟩
    · exact ⟨[], by rw [List.append_nil, hz, List.append_nil]⟩
    · obtain ⟨e, he, heb⟩ := h.exists_last hlast
      have hd : (x ++ (c ++ (w ++ k))).getLast? = some e := by
        rw [List.getLast?_append, he, Option.some_or]
      rw [hz, List.concat_eq_append, ← List.append_assoc, List.getLast?_concat] at hd
      obtain rfl := Option.some.inj hd
      obtain ⟨hblank, hne⟩ := h'.lead d (by rw [hb']; simp)
      rcases heb with heb | heb
      · rw [hblank] at heb
        exact nomatch heb
      · exact absurd heb hne
  · exact ⟨gap, hm'⟩

end QuickFix.TakesAlong

/-! ## Edits in their places -/

namespace Edit

/-- The edit replaces the text `v` between `m` and `w`, and finds it as long as `m`, `v` and `w`
start the text. -/
structure Pinned (e : Edit) (m v w : Text) : Prop where
  start_eq : e.range.start = positionAfter m
  offsetAt_start : ∀ y, Text.offsetAt (m ++ (v ++ (w ++ y))) e.range.start = m.length
  offsetAt_stop : ∀ y, Text.offsetAt (m ++ (v ++ (w ++ y))) e.range.stop = (m ++ v).length

/-- The edit `e` stands in front of `f`, which may be made before. -/
structure Precedes (t : Text) (e f : Edit) : Prop where
  start_lt : e.range.start < f.range.start
  clear : Clear t e f

/-- Edits precede each other where what they are pinned to does. -/
theorem Pinned.precedes {e f : Edit} {m v w m' v' w' y gap : Text} (he : e.Pinned m v w)
    (hf : f.Pinned m' v' w') (hne : v ++ w ≠ []) (hm' : m' = m ++ (v ++ (w ++ gap))) :
    Precedes (m' ++ (v' ++ (w' ++ y))) e f := by
  have htake : List.take (Text.offsetAt (m' ++ (v' ++ (w' ++ y))) f.range.start)
      (m' ++ (v' ++ (w' ++ y))) = m' := by
    rw [hf.offsetAt_start, List.take_left]
  have hstart : ∀ z, Text.offsetAt (m' ++ z) e.range.start = m.length := fun z => by
    rw [hm', ← he.offsetAt_start (gap ++ z)]
    simp
  have hstop : ∀ z, Text.offsetAt (m' ++ z) e.range.stop = (m ++ v).length := fun z => by
    rw [hm', ← he.offsetAt_stop (gap ++ z)]
    simp
  refine ⟨?_, ?_, fun z => ?_, fun z => ?_⟩
  · rw [he.start_eq, hf.start_eq, hm', ← List.append_assoc v]
    exact positionAfter_lt_append m fun hnil => hne (List.append_eq_nil_iff.mp hnil).1
  · rw [hstop, hf.offsetAt_start, hm']
    simp only [List.length_append]
    omega
  · rw [htake, hstart, hstart]
  · rw [htake, hstop, hstop]

end Edit

namespace Repair

variable {t x c r x' c' r' : Text} {d d' : Diagnostic}

/-! ## The edit for a finding -/

/-- With `isolate` a finding is corrected by an insertion in front of what it is about. -/
theorem editsFor_isolate (hcode : d.code = ineffectiveCode) (h : d.range.Covers t x c r) :
    ∃ e line, editsFor .isolate t d = [e] ∧ e.Pinned x [] c ∧
      e.newText = QuickFix.isolation ++ t.lineBreak ++ QuickFix.indentation line := by
  obtain ⟨line, hinsert⟩ := QuickFix.exists_insertFor_eq (y := c ++ r) h.start_eq
  rw [← h.text_eq] at hinsert
  obtain ⟨f, hf, hfb⟩ := h.first
  have hoffset : ∀ y, Text.offsetAt (x ++ (c ++ y)) (positionAfter x) = x.length := fun y =>
    offsetAt_positionAfter hfb (Or.inl (by rw [List.head?_append, hf]; rfl))
  refine ⟨(QuickFix.insertIsolation (positionAfter x)
    (QuickFix.isolation ++ t.lineBreak ++ QuickFix.indentation line)).edit, line,
    (editsFor_eq hcode hinsert).1, ⟨rfl, hoffset, fun y => ?_⟩, rfl⟩
  rw [List.append_nil]
  exact hoffset y

/-- With `remove` a finding is corrected by the removal of what it is about, and of what is taken
along. -/
theorem editsFor_remove (hcode : d.code = ineffectiveCode) (h : d.range.Covers t x c r) :
    ∃ e m b w k v, editsFor .remove t d = [e] ∧ QuickFix.TakesAlong x r m b w k v ∧
      e.Pinned m (b ++ (c ++ (w ++ k))) [] ∧ e.newText = [] := by
  obtain ⟨line, hinsert⟩ := QuickFix.exists_insertFor_eq (y := c ++ r) h.start_eq
  obtain ⟨m, b, w, k, v, htakes, hremove⟩ :=
    QuickFix.exists_takesAlong (r := r) h.start_eq h.stop_eq h.first h.last
  rw [← h.text_eq] at hinsert hremove
  have hfront : ∀ z, m ++ (b ++ z) = x ++ z := fun z => by rw [htakes.front, List.append_assoc]
  refine ⟨(QuickFix.removeDeclaration
    ⟨positionAfter m, positionAfter (x ++ (c ++ (w ++ k)))⟩).edit, m, b, w, k, v, ?_, htakes,
    ⟨rfl, fun y => ?_, fun y => ?_⟩, rfl⟩
  · rw [(editsFor_eq hcode hinsert).2, hremove]
  · rw [List.nil_append, List.append_assoc b, hfront, List.append_assoc c]
    exact htakes.offsetAt_start h.first _
  · rw [List.nil_append, List.append_assoc b, hfront, hfront, ← List.append_assoc x]
    exact htakes.offsetAt_stop h.last y

/-- The edits for two findings that follow each other do so too. -/
theorem precedes (strategy : Strategy) (hcode : d.code = ineffectiveCode)
    (hcode' : d'.code = ineffectiveCode) (h : d.range.Covers t x c r)
    (h' : d'.range.Covers t x' c' r') (hlt : d.range.stop < d'.range.start) :
    ∀ e ∈ editsFor strategy t d, ∀ f ∈ editsFor strategy t d', e.Precedes t f := by
  obtain ⟨g, hg, hx', hr⟩ := h.exists_between h' hlt
  have hne : c ≠ [] := by
    obtain ⟨_, hc, _⟩ := h.first
    rintro rfl
    exact nomatch hc
  cases strategy with
  | isolate =>
    obtain ⟨e, _, hedit, he, _⟩ := editsFor_isolate hcode h
    obtain ⟨f, _, hedit', hf, _⟩ := editsFor_isolate hcode' h'
    rw [hedit, hedit', List.forall_mem_singleton, List.forall_mem_singleton, h'.text_eq]
    exact he.precedes hf (by simpa using hne) (by simpa using hx')
  | remove =>
    obtain ⟨e, m, b, w, k, v, hedit, htakes, he, _⟩ := editsFor_remove hcode h
    obtain ⟨f, m', b', w', k', v', hedit', htakes', hf, _⟩ := editsFor_remove hcode' h'
    obtain ⟨gap, hm'⟩ := htakes.exists_gap htakes' h.last h'.first hg hx' hr
    have htext : t = m' ++ (b' ++ (c' ++ (w' ++ k')) ++ ([] ++ v')) := by
      rw [h'.text_eq, htakes'.front, htakes'.behind]
      simp
    have hgap : m' = m ++ (b ++ (c ++ (w ++ k)) ++ ([] ++ gap)) := by
      rw [hm', htakes.front]
      simp
    rw [hedit, hedit', List.forall_mem_singleton, List.forall_mem_singleton, htext]
    exact he.precedes hf (by simp [hne]) hgap

/-! ## The edits for all findings -/

/-- A finding of a text is about a `z-index` without effect, and has an exact range. -/
structure Located (t : Text) (d : Diagnostic) : Prop where
  code : d.code = ineffectiveCode
  exact_range : d.range.Exact t

/-- The findings of a parsed text are about stretches of it that follow each other. -/
theorem diagnostics_located {s : Stylesheet} (h : Stylesheet.parse t = .ok s) :
    (∀ d ∈ (Analysis.ofStylesheet "" 0 {} s).diagnostics, Located t d) ∧
      (Analysis.ofStylesheet "" 0 {} s).diagnostics.Pairwise fun d d' =>
        d.range.stop < d'.range.start := by
  have hrange : ∀ {o : Occurrence} {d : Diagnostic}, o.finding? {} = some d →
      (Node.declaration o.declaration).range? = some d.range ∧ d.code = ineffectiveCode := by
    intro o d hd
    obtain ⟨span, hspan, rfl⟩ := Occurrence.finding?_eq_some hd
    exact ⟨congrArg (Option.map _) hspan, rfl⟩
  rw [diagnostics_eq_filterMap, flagged, ← s.declarations_eq_occurrences]
  constructor
  · intro d hd
    obtain ⟨o, ho, hd⟩ := List.mem_filterMap.mp hd
    obtain ⟨v, hv, hvisit⟩ := List.mem_filterMap.mp (List.mem_filter.mp ho).1
    obtain ⟨range, hr, hexact⟩ := Stylesheet.exists_exact h hv
    rw [(Visit.node_of_occurrence? hvisit).1, (hrange hd).1] at hr
    exact ⟨(hrange hd).2, Option.some.inj hr ▸ hexact⟩
  · rw [List.pairwise_filterMap]
    refine ((Stylesheet.pairwise_declarations h).sublist List.filter_sublist).imp
      fun {o o'} hbefore d hd d' hd' => ?_
    obtain ⟨r, q, hr, hq, _, hlt, _⟩ := hbefore
    rw [(hrange hd).1] at hr
    rw [(hrange hd').1] at hq
    rwa [Option.some.inj hr, Option.some.inj hq]

theorem firstOfEachOwner_sublist (owners : Table Range Owner) (isolated : List (Option Owner))
    (found : List Diagnostic) : (firstOfEachOwner owners isolated found).Sublist found := by
  induction found generalizing isolated with
  | nil => exact .slnil
  | cons d rest ih =>
    rw [firstOfEachOwner]
    split
    · exact (ih _).cons d
    · exact (ih _).cons_cons d

theorem chosen_sublist (strategy : Strategy) (s : Stylesheet) (found : List Diagnostic) :
    (chosen strategy s found).Sublist found := by
  cases strategy with
  | isolate => exact firstOfEachOwner_sublist _ _ _
  | remove => exact List.Sublist.refl _

/-- Among any findings there is one that is corrected by an edit of its own. -/
theorem chosen_eq_nil_iff (strategy : Strategy) (s : Stylesheet) (found : List Diagnostic) :
    chosen strategy s found = [] ↔ found = [] := by
  cases strategy with
  | isolate => cases found <;> simp [chosen, firstOfEachOwner]
  | remove => rfl

/-- A finding is corrected by one edit. -/
theorem exists_editsFor_eq (strategy : Strategy) (h : Located t d) :
    ∃ e, editsFor strategy t d = [e] ∧
      t.offsetAt e.range.start ≤ t.offsetAt e.range.stop ∧
      (e.newText = [] ∨ ∃ line,
        e.newText = QuickFix.isolation ++ t.lineBreak ++ QuickFix.indentation line) := by
  obtain ⟨x, c, r, hcovers⟩ := h.exact_range.exists_covers
  cases strategy with
  | isolate =>
    obtain ⟨e, line, hedit, he, htext⟩ := editsFor_isolate h.code hcovers
    refine ⟨e, hedit, ?_, Or.inr ⟨line, htext⟩⟩
    have ht : t = x ++ ([] ++ (c ++ r)) := hcovers.text_eq
    rw [ht, he.offsetAt_start, he.offsetAt_stop]
    simp
  | remove =>
    obtain ⟨e, m, b, w, k, v, hedit, htakes, he, htext⟩ := editsFor_remove h.code hcovers
    refine ⟨e, hedit, ?_, Or.inl htext⟩
    have ht : t = m ++ (b ++ (c ++ (w ++ k)) ++ ([] ++ v)) := by
      rw [hcovers.text_eq, htakes.front, htakes.behind]
      simp
    rw [ht, he.offsetAt_start, he.offsetAt_stop]
    simp

/-- The edits of a repair, in the order of the findings that they correct. -/
theorem pairwise_precedes {s : Stylesheet} (strategy : Strategy) (h : Stylesheet.parse t = .ok s) :
    ((chosen strategy s (Analysis.ofStylesheet "" 0 {} s).diagnostics).flatMap
      (editsFor strategy t)).Pairwise (Edit.Precedes t) := by
  obtain ⟨hlocated, hlt⟩ := diagnostics_located h
  have hsub := chosen_sublist strategy s (Analysis.ofStylesheet "" 0 {} s).diagnostics
  refine List.pairwise_flatMap.mpr ⟨fun d hd => ?_, ?_⟩
  · obtain ⟨e, hedit, _⟩ := exists_editsFor_eq strategy (hlocated d (hsub.subset hd))
    rw [hedit]
    exact List.pairwise_singleton _ _
  · refine (hlt.sublist hsub).imp_of_mem fun {d d'} hd hd' hlt => ?_
    have hd := hlocated d (hsub.subset hd)
    have hd' := hlocated d' (hsub.subset hd')
    obtain ⟨x, c, r, hcovers⟩ := hd.exact_range.exists_covers
    obtain ⟨x', c', r', hcovers'⟩ := hd'.exact_range.exists_covers
    exact precedes strategy hd.code hd'.code hcovers hcovers' hlt

/-- The repaired text is the text with all edits made at once. -/
theorem applyAll_eq_substitute {s : Stylesheet} (strategy : Strategy)
    (h : Stylesheet.parse t = .ok s) :
    let found := (Analysis.ofStylesheet "" 0 {} s).diagnostics
    let edits := (chosen strategy s found).flatMap (editsFor strategy t)
    Edit.InOrder t edits ∧ Edit.applyAll t edits = Edit.substitute t 0 edits := by
  intro found edits
  have hprecedes := pairwise_precedes strategy h
  have horder : Edit.InOrder t edits := by
    refine ⟨fun e he => ?_, hprecedes.imp fun hef => hef.clear.stop_le_start⟩
    obtain ⟨d, hd, he⟩ := List.mem_flatMap.mp he
    have hlocated := (diagnostics_located h).1 d ((chosen_sublist strategy s found).subset hd)
    obtain ⟨f, hedit, hle, _⟩ := exists_editsFor_eq strategy hlocated
    rw [hedit, List.mem_singleton] at he
    rwa [he]
  exact ⟨horder, Edit.applyAll_eq_substitute horder (hprecedes.imp fun hef => hef.start_lt)
    (hprecedes.imp fun hef => hef.clear)⟩

end Repair

end Stacking
