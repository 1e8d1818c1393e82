import Stacking.Proofs.Fix.Insertion
import Stacking.Proofs.Style.Starts

/-!
# Several insertions

Insertions of `isolation: isolate` at several places, all of them computed for one text, are made
from the last place to the first. An insertion leaves in place what starts in front of it
(`Stylesheet.exists_parse_isolated`), so each finds its declaration where it was, and in the end all
declarations at these places have `isolation: isolate` in front of them and nothing else has changed
(`Stylesheet.exists_parse_foldl`).
-/

namespace Stacking

/-! ## Declarations in front of others -/

namespace Node

mutual

/-- A node with `new` in front of every declaration in and below it that satisfies `p`. -/
def preceded (new : Declaration) (p : Declaration → Bool) : Node → List Node
  | .declaration d => if p d then [.declaration new, .declaration d] else [.declaration d]
  | .block head span body => [.block head span (precededIn new p body)]
  | .atStatement name params span => [.atStatement name params span]

/-- Nodes with `new` in front of every declaration in and below them that satisfies `p`. -/
def precededIn (new : Declaration) (p : Declaration → Bool) : List Node → List Node
  | [] => []
  | node :: rest => node.preceded new p ++ precededIn new p rest

end

@[simp] theorem precededIn_append (new : Declaration) (p : Declaration → Bool)
    (ns ms : List Node) :
    precededIn new p (ns ++ ms) = precededIn new p ns ++ precededIn new p ms := by
  induction ns with
  | nil => rfl
  | cons node rest ih => simp [precededIn, ih]

@[simp] theorem bare_append (ns ms : List Node) : bare (ns ++ ms) = bare ns ++ bare ms :=
  mapSpansIn_append _ ns ms

mutual

theorem preceded_of_false {new : Declaration} {p : Declaration → Bool} : ∀ node : Node,
    (∀ d ∈ node.declarations, p d = false) → node.preceded new p = [node]
  | .declaration d, h => by
    rw [preceded, h d (by simp [declarations])]
    rfl
  | .atStatement .., _ => rfl
  | .block head span body, h => by rw [preceded, precededIn_of_false body fun d hd => h d hd]

/-- Where no declaration is chosen nothing changes. -/
theorem precededIn_of_false {new : Declaration} {p : Declaration → Bool} : ∀ nodes : List Node,
    (∀ d ∈ declarationsIn nodes, p d = false) → precededIn new p nodes = nodes
  | [], _ => rfl
  | node :: rest, h => by
    rw [declarationsIn, List.forall_mem_append] at h
    rw [precededIn, preceded_of_false node h.1, precededIn_of_false rest h.2]
    rfl

end

/-- The bare tree of a block is that of what is in it. -/
theorem bare_block (head : BlockHead) (span : Option Span) (body : List Node) :
    bare [.block head span body] = [.block head none (bare body)] := rfl

mutual

theorem bare_preceded_mapSpans {f : Option Span → Option Span} {new : Declaration}
    {p q : Declaration → Bool} : ∀ node : Node,
      (∀ d ∈ node.declarations, q (d.mapSpan f) = p d) →
      bare ((node.mapSpans f).preceded new q) = bare (node.preceded new p)
  | .declaration d, h => by
    rw [mapSpans, preceded, preceded, h d (by simp [declarations])]
    split <;> rfl
  | .atStatement .., _ => rfl
  | .block head span body, h => by
    rw [mapSpans, preceded, preceded, bare_block, bare_block,
      bare_precededIn_mapSpansIn body fun d hd => h d hd]

/-- Other spans do not show where they do not change what is chosen. -/
theorem bare_precededIn_mapSpansIn {f : Option Span → Option Span} {new : Declaration}
    {p q : Declaration → Bool} : ∀ nodes : List Node,
      (∀ d ∈ declarationsIn nodes, q (d.mapSpan f) = p d) →
      bare (precededIn new q (mapSpansIn f nodes)) = bare (precededIn new p nodes)
  | [], _ => rfl
  | node :: rest, h => by
    rw [declarationsIn, List.forall_mem_append] at h
    rw [mapSpansIn, precededIn, precededIn, bare_append, bare_append,
      bare_preceded_mapSpans node h.1, bare_precededIn_mapSpansIn rest h.2]

end

end Node

open Node in
theorem Site.bare_precededIn_plug {f : Option Span → Option Span} {new : Declaration}
    {p q : Declaration → Bool} {ns ms : List Node} {site : Site}
    (hothers : ∀ e ∈ site.others, q (e.mapSpan f) = p e)
    (h : bare (precededIn new q ns) = bare (precededIn new p ms)) :
    bare (precededIn new q ((site.mapSpans f).plug ns)) =
      bare (precededIn new p (site.plug ms)) := by
  induction site with
  | here before after =>
    rw [others, List.forall_mem_append] at hothers
    simp only [mapSpans, plug, precededIn_append, bare_append, h,
      bare_precededIn_mapSpansIn before hothers.1, bare_precededIn_mapSpansIn after hothers.2]
  | within before head span inner after ih =>
    rw [others, List.forall_mem_append, List.forall_mem_append] at hothers
    simp only [mapSpans, plug, precededIn_append, precededIn, preceded, bare_append, bare_block,
      ih hothers.2.1, bare_precededIn_mapSpansIn before hothers.1,
      bare_precededIn_mapSpansIn after hothers.2.2]

/-! ## One insertion -/

/-- The declaration `isolation: isolate`. -/
def Declaration.isolate : Declaration := ⟨"isolation", "isolate", false, none⟩

/-- Whether a declaration starts at one of the places. -/
def Declaration.startsIn (places : List SourcePosition) (d : Declaration) : Bool :=
  places.any fun p => d.start? = some p

/-- The place at which an edit starts. -/
def Edit.place (e : Edit) : SourcePosition := e.range.start.toSource

/-- The edit puts `isolation: isolate;` and spaces at its place. -/
def Edit.Isolates (e : Edit) : Prop :=
  ∃ spaces, (∀ c ∈ spaces, Lexeme.isSpace c = true) ∧
    e = (QuickFix.insertIsolation (.ofSource e.place) (QuickFix.isolation ++ spaces)).edit

/-- Where a declaration starts when `isolation: isolate` has been put in at `a`. -/
theorem Declaration.start?_isolated {e : Declaration} {r a b : SourcePosition}
    (g : SourcePosition → SourcePosition) (h : e.start? = some r) :
    (e.mapSpan (carry (a.startMoved a b) g)).start? = some (a.startMoved a b r) := by
  obtain ⟨span, hspan, rfl⟩ := Option.map_eq_some_iff.mp h
  simp [Declaration.start?, Declaration.mapSpan, hspan, Span.carried]

theorem Declaration.startsIn_isolated {e : Declaration} {r a b : SourcePosition}
    (g : SourcePosition → SourcePosition) (h : e.start? = some r) (hb : a < b)
    {places : List SourcePosition} (hplaces : ∀ p ∈ places, p < a) :
    (e.mapSpan (carry (a.startMoved a b) g)).startsIn places = e.startsIn places := by
  rw [startsIn, startsIn, Bool.eq_iff_iff, List.any_eq_true, List.any_eq_true]
  refine exists_congr fun p => and_congr_right fun hp => ?_
  simp [start?_isolated g h, h, SourcePosition.startMoved_eq_iff hb (hplaces p hp)]

theorem Declaration.startsIn_eq_false {d : Declaration} {a : SourcePosition}
    (h : d.start? = some a) {places : List SourcePosition} (hplaces : ∀ p ∈ places, p < a) :
    d.startsIn places = false := by
  refine List.any_eq_false.mpr fun p hp heq => ?_
  obtain rfl : a = p := by simpa [h] using heq
  have := SourcePosition.lt_iff.mp (hplaces a hp)
  omega

/-- An insertion in front of a declaration does not move what starts in front of that, and it puts
`isolation: isolate` there and changes nothing else. -/
theorem Stylesheet.exists_parse_isolated {t : Text} {s : Stylesheet} {e : Edit} {d : Declaration}
    (h : parse t = .ok s) (he : e.Isolates) (hd : d ∈ Node.declarationsIn s.nodes)
    (hstart : d.start? = some e.place) :
    ∃ s', parse (e.apply t) = .ok s' ∧
      (∀ p, p < e.place → (∃ o ∈ Node.declarationsIn s.nodes, o.start? = some p) →
        ∃ o ∈ Node.declarationsIn s'.nodes, o.start? = some p) ∧
      ∀ places : List SourcePosition, (∀ p ∈ places, p < e.place) →
        Node.bare (Node.precededIn .isolate (·.startsIn places) s'.nodes) =
          Node.bare (Node.precededIn .isolate (·.startsIn (e.place :: places)) s.nodes) := by
  obtain ⟨spaces, hspaces, hedit⟩ := he
  rw [← s.map_occurrences] at hd
  obtain ⟨o, ho, rfl⟩ := List.mem_map.mp hd
  obtain ⟨site, hsite, _⟩ := Site.exists_of_mem_occurrences ho
  obtain ⟨l⟩ := exists_layout h hsite
  have hplace : e.place = l.head.start := by
    rw [Declaration.start?, Declaration.ofPrelude_span l.tokens.spells] at hstart
    exact (Option.some.inj hstart).symm
  have hparse := l.parse_isolated hspaces
  rw [← Layout.before, ← l.apply_insertion, ← hplace, ← hedit] at hparse
  have hlt : l.head.start < l.isolatedStart spaces :=
    SourcePosition.lt_advance _ (by simp [isolation_eq])
  rw [hplace] at hparse hstart ⊢
  have hothers := start?_ne_of_others h hsite
  have hperm := site.declarationsIn_plug [.declaration o.declaration]
  rw [← hsite] at hperm
  refine ⟨_, hparse, ?_, ?_⟩
  · rintro p hp ⟨e', he', hstart'⟩
    rcases List.mem_cons.mp (hperm.mem_iff.mp he') with rfl | he'
    · obtain rfl := Option.some.inj (hstart.symm.trans hstart')
      exact absurd hp (SourcePosition.not_advance_lt _ [])
    · refine ⟨e'.mapSpan (l.isolatedSpan spaces), ?_, ?_⟩
      · refine (Site.declarationsIn_plug _ _).mem_iff.mpr (List.mem_append_right _ ?_)
        rw [Site.others_mapSpans]
        exact List.mem_map_of_mem he'
      · rw [Layout.isolatedSpan, Declaration.start?_isolated _ hstart']
        exact congrArg some ((SourcePosition.startMoved_eq_iff hlt hp).mpr rfl)
  · intro places hplaces
    rw [hsite]
    refine Site.bare_precededIn_plug (fun e' he' => ?_) ?_
    · -- another declaration starts elsewhere, and is chosen if it was
      have hmem := hperm.mem_iff.mpr (List.mem_cons_of_mem o.declaration he')
      obtain ⟨r, hr⟩ := (nodup_starts h).2 e' hmem
      have hne : e'.start? ≠ some l.head.start := hstart ▸ hothers e' he'
      rw [Layout.isolatedSpan, Declaration.startsIn_isolated _ hr hlt hplaces]
      simp [Declaration.startsIn, hne]
    · -- at the place itself nothing more is put in
      have hnew : (Declaration.isolation l.head.start).startsIn places = false :=
        Declaration.startsIn_eq_false rfl hplaces
      have hold : (o.declaration.mapSpan (l.isolatedSpan spaces)).startsIn places = false := by
        rw [Layout.isolatedSpan, Declaration.startsIn_isolated _ hstart hlt hplaces]
        exact Declaration.startsIn_eq_false hstart hplaces
      have hchosen : o.declaration.startsIn (l.head.start :: places) = true := by
        simp [Declaration.startsIn, hstart]
      simp only [Node.precededIn, Node.preceded, hnew, hold, hchosen]
      rfl

/-! ## One after the other -/

/-- Insertions in front of declarations, made from the last to the first, put `isolation: isolate`
there and change nothing else. -/
theorem Stylesheet.exists_parse_foldl {edits : List Edit} {t : Text} {s : Stylesheet}
    (h : parse t = .ok s) (hisolates : ∀ e ∈ edits, e.Isolates)
    (horder : edits.Pairwise fun e f => f.place < e.place)
    (hplaces : ∀ e ∈ edits, ∃ d ∈ Node.declarationsIn s.nodes, d.start? = some e.place) :
    ∃ s', parse (edits.foldl Edit.apply t) = .ok s' ∧
      Node.bare s'.nodes =
        Node.bare (Node.precededIn .isolate (·.startsIn (edits.map (·.place))) s.nodes) := by
  induction edits generalizing t s with
  | nil => exact ⟨s, h, by rw [Node.precededIn_of_false]; simp [Declaration.startsIn]⟩
  | cons e edits ih =>
    obtain ⟨he, hisolates⟩ := List.forall_mem_cons.mp hisolates
    obtain ⟨hbelow, horder⟩ := List.pairwise_cons.mp horder
    obtain ⟨⟨d, hd, hstart⟩, hplaces⟩ := List.forall_mem_cons.mp hplaces
    obtain ⟨s₁, hparse, hstay, hbare⟩ := exists_parse_isolated h he hd hstart
    obtain ⟨s', hs', hbare'⟩ := ih hparse hisolates horder fun f hf =>
      hstay f.place (hbelow f hf) (hplaces f hf)
    refine ⟨s', hs', ?_⟩
    rw [hbare', List.map_cons]
    exact hbare _ (by simpa using hbelow)

end Stacking
