import Mathlib.Data.List.Infix
import Stacking.Proofs.Session.Waiting

/-!
# Analyses go forward

A document may stand in several batches at once, be shown and worked on, fail and be tried again,
and be analysed from within a listener. Still no version of it is analysed twice while it stays
open, and none after a newer one: in the journal, between two entries that tell of its opening or
closing, the versions told as analysed increase (`Session.analyses_in_order`).

The proof compares the versions told since the document was last opened or closed with what is known
of the document (`Record.Advancing`): none is above its version, and where it is due, all are below.
-/

namespace Stacking

/-! ## What the journal tells of a document -/

namespace Notice

variable {τ : Type}

/-- The version of a document that an entry tells the analysis of. -/
def analysed? (uri : String) : Notice τ → Option Int
  | .event (.updated u result) => if u = uri then some result.version else none
  | .event (.failed u version _) => if u = uri then some version else none
  | _ => none

/-- Whether an entry tells that a document was opened or closed. -/
def turns (uri : String) : Notice τ → Bool
  | .opened u => u = uri
  | .event (.forgotten u) => u = uri
  | _ => false

/-- Whether an entry tells of an analysis. -/
def isAnalysis : Notice τ → Bool
  | .event (.updated ..) => true
  | .event (.failed ..) => true
  | _ => false

/-- The versions told as analysed since the document was last opened or closed, the latest first;
so is the journal. -/
def since (uri : String) (journal : List (Notice τ)) : List Int :=
  (journal.takeWhile fun n => !n.turns uri).filterMap (·.analysed? uri)

/-- Between two entries that tell of its opening or closing, the versions of a document told as
analysed fall from the latest on. -/
def Falling (uri : String) (journal : List (Notice τ)) : Prop :=
  ∀ stretch, stretch <:+: journal → (∀ n ∈ stretch, n.turns uri = false) →
    (stretch.filterMap (·.analysed? uri)).Pairwise (· > ·)

/-- An entry says nothing of a document. -/
def Passes (uri : String) (n : Notice τ) : Prop := n.analysed? uri = none ∧ n.turns uri = false

variable {uri : String} {n : Notice τ} {journal : List (Notice τ)}

theorem since_of_turns (h : n.turns uri = true) : since uri (n :: journal) = [] := by
  rw [since, List.takeWhile_cons, h]
  rfl

theorem since_of_analysed? {version : Int} (ht : n.turns uri = false)
    (h : n.analysed? uri = some version) :
    since uri (n :: journal) = version :: since uri journal := by
  rw [since, List.takeWhile_cons, ht]
  simp [h, since]

theorem since_of_passes (h : n.Passes uri) : since uri (n :: journal) = since uri journal := by
  rw [since, List.takeWhile_cons, h.2]
  simp [h.1, since]

/-- One more entry keeps versions falling if it tells of a version above those told since the
document was last opened or closed. -/
theorem Falling.cons (h : Falling uri journal)
    (hn : n.turns uri = false → ∀ v, n.analysed? uri = some v → ∀ w ∈ since uri journal, w < v) :
    Falling uri (n :: journal) := by
  intro stretch hin hturns
  rcases List.infix_cons_iff.mp hin with hfront | hin
  · rcases List.prefix_cons_iff.mp hfront with rfl | ⟨rest, rfl, hrest⟩
    · exact .nil
    · obtain ⟨hturn, hturns⟩ := List.forall_mem_cons.mp hturns
      have hfalling := h rest hrest.isInfix hturns
      cases hv : n.analysed? uri with
      | none => rwa [List.filterMap_cons_none hv]
      | some v =>
        rw [List.filterMap_cons_some hv]
        refine List.pairwise_cons.mpr ⟨fun w hw => hn hturn v hv w ?_, hfalling⟩
        -- the stretch goes back no further than to the last opening or closing
        obtain ⟨older, rfl⟩ := hrest
        rw [since, List.takeWhile_append_of_pos (by simpa using hturns), List.filterMap_append]
        exact List.mem_append_left _ hw
  · exact h stretch hin hturns

end Notice

/-! ## One document -/

/-- The analyses of a document go forward: the versions told as analysed have been falling, those
since it was last opened or closed are not above its version, and below it if it is due. -/
structure Record.Advancing {τ : Type} (uri : String) (journal : List (Notice τ)) (k : Record) :
    Prop where
  falling : Notice.Falling uri journal
  ahead : ∀ v ∈ Notice.since uri journal, ∃ d, k.document = some d ∧ v ≤ d.version ∧
    (k.needsAnalysis = true → v < d.version)

namespace Record

variable {τ : Type} {uri : String} {n : Notice τ} {journal : List (Notice τ)} {k k' : Record}

theorem Advancing.pass (h : k.Advancing uri journal) (hn : n.Passes uri) :
    k.Advancing uri (n :: journal) where
  falling := h.falling.cons fun _ v hv => by rw [hn.1] at hv; cases hv
  ahead := by rw [Notice.since_of_passes hn]; exact h.ahead

/-- A document that is opened or closed starts anew. -/
theorem Advancing.turn (h : k.Advancing uri journal) (hn : n.turns uri = true) (k' : Record) :
    k'.Advancing uri (n :: journal) where
  falling := h.falling.cons fun ht => by rw [hn] at ht; cases ht
  ahead := by
    rw [Notice.since_of_turns hn]
    exact fun v hv => absurd hv List.not_mem_nil

/-- A newer text is ahead of all versions told. -/
theorem Advancing.place (h : k.Advancing uri journal) (text : Text) (version : Int)
    (hnew : ∀ d, k.document = some d → d.version < version) :
    (k.place text version).Advancing uri journal where
  falling := h.falling
  ahead := by
    intro v hv
    obtain ⟨d, hd, hle, _⟩ := h.ahead v hv
    have hlt := hnew d hd
    refine ⟨⟨text, version⟩, rfl, ?_, fun _ => ?_⟩
    · show v ≤ version
      omega
    · show v < version
      omega

/-- The analysis of a document that is due is told after those of older versions, and the document
is not due then. -/
theorem Advancing.tell (h : k.Advancing uri journal) {d : OpenDocument}
    (hd : k.document = some d) (hdue : k.needsAnalysis = true) (hturn : n.turns uri = false)
    (hn : n.analysed? uri = some d.version) (hd' : k'.document = some d)
    (hdone : k'.needsAnalysis = false) : k'.Advancing uri (n :: journal) := by
  have hbelow : ∀ w ∈ Notice.since uri journal, w < d.version := by
    intro w hw
    obtain ⟨d', hd', _, hlt⟩ := h.ahead w hw
    obtain rfl := Option.some.inj (hd.symm.trans hd')
    exact hlt hdue
  refine ⟨h.falling.cons fun _ v hv w hw => ?_, fun v hv => ?_⟩
  · obtain rfl := Option.some.inj (hn.symm.trans hv)
    exact hbelow w hw
  · rw [Notice.since_of_analysed? hturn hn] at hv
    refine ⟨d, hd', ?_, fun hneeds => by rw [hdone] at hneeds; cases hneeds⟩
    rcases List.mem_cons.mp hv with rfl | hv
    · exact Int.le_refl _
    · exact Int.le_of_lt (hbelow v hv)

end Record

/-! ## All documents -/

namespace Session

variable {τ : Type}

/-- The analyses of all documents go forward, and the session counts the analyses that the journal
tells of. -/
structure Advancing (s : Session τ) : Prop where
  record : ∀ uri, (s.record uri).Advancing uri s.journal
  runs : s.runs = s.journal.countP Notice.isAnalysis

variable {s s' : Session τ} {uri : String} {n : Notice τ}

theorem Advancing.congr (h : s.Advancing) (hr : ∀ u, s'.record u = s.record u)
    (hj : s'.journal = s.journal) (hruns : s'.runs = s.runs) : s'.Advancing where
  record u := by rw [hr u, hj]; exact h.record u
  runs := by rw [hruns, hj]; exact h.runs

/-- The knowledge of one document changes, and the journal tells no more. -/
theorem Advancing.update (h : s.Advancing) (f : Record → Record)
    (hr : ∀ u, s'.record u = if uri = u then f (s.record u) else s.record u)
    (hj : s'.journal = s.journal) (hruns : s'.runs = s.runs)
    (hk : (f (s.record uri)).Advancing uri s.journal) : s'.Advancing := by
  refine ⟨fun u => ?_, by rw [hruns, hj]; exact h.runs⟩
  rw [hr u, hj]
  by_cases hu : uri = u
  · subst hu
    rw [if_pos rfl]
    exact hk
  · rw [if_neg hu]
    exact h.record u

/-- The knowledge of one document changes, and the journal tells one thing more of it. -/
theorem Advancing.tell (h : s.Advancing) (f : Record → Record)
    (hr : ∀ u, s'.record u = if uri = u then f (s.record u) else s.record u)
    (hj : s'.journal = n :: s.journal) (hruns : s'.runs = s.runs + if n.isAnalysis then 1 else 0)
    (hpass : ∀ u, uri ≠ u → n.Passes u)
    (hk : (f (s.record uri)).Advancing uri (n :: s.journal)) : s'.Advancing := by
  refine ⟨fun u => ?_, by rw [hruns, hj, List.countP_cons, h.runs]⟩
  rw [hr u, hj]
  by_cases hu : uri = u
  · subst hu
    rw [if_pos rfl]
    exact hk
  · rw [if_neg hu]
    exact (h.record u).pass (hpass u hu)

/-- The journal tells something of no document. -/
theorem Advancing.pass (h : s.Advancing) (hn : ∀ u, n.Passes u) (hruns : n.isAnalysis = false) :
    (s.note n).Advancing where
  record u := (h.record u).pass (hn u)
  runs := by
    show s.runs = (n :: s.journal).countP Notice.isAnalysis
    rw [List.countP_cons, hruns, h.runs]
    rfl

/-- In the order of the journal, the versions of a document that are told as analysed increase from
one entry that tells of its opening or closing to the next, and the session counts the analyses
told. -/
structure AnalysesInOrder (s : Session τ) : Prop where
  versions : ∀ uri stretch, stretch <:+: s.journal.reverse →
    (∀ n ∈ stretch, n.turns uri = false) →
    (stretch.filterMap (·.analysed? uri)).Pairwise (· < ·)
  runs : s.runs = s.journal.countP Notice.isAnalysis

theorem Advancing.analysesInOrder (h : s.Advancing) : s.AnalysesInOrder where
  runs := h.runs
  versions := by
    intro uri stretch hin hturns
    have hfalling := (h.record uri).falling stretch.reverse
      (by rw [← List.reverse_infix, List.reverse_reverse]; exact hin) (by simpa using hturns)
    rw [List.filterMap_reverse, List.pairwise_reverse] at hfalling
    exact hfalling

theorem Advancing.trigger (h : s.Advancing) (key : BatchKey) : (s.trigger key).Advancing :=
  h.pass (fun _ => ⟨rfl, rfl⟩) rfl

theorem Advancing.drop (h : s.Advancing) (key : BatchKey) : (s.drop key).Advancing := by
  rw [drop_eq]
  exact h.congr (fun _ => rfl) rfl rfl

variable [TimeScale τ]

/-- Every update keeps analyses going forward; what is owed does not matter. -/
theorem advancing_invariant : Invariant (τ := τ) Step.Regular fun _ s => s.Advancing where
  owe _ h := h
  skip _ h := h.pass (fun _ => ⟨rfl, rfl⟩) rfl
  settle _ h := h
  refuse {_ s uri d e} hd hn _ h := by
    refine h.tell (.refuse d.version) (record_refuse s.counted uri d.version) rfl rfl ?_ ?_
    · exact fun u hu => ⟨if_neg hu, rfl⟩
    · exact (h.record uri).tell hd hn rfl (if_pos rfl) hd (Record.needsAnalysis_refuse hd)
  accept {_ s uri d r} hd hn hr _ h := by
    obtain ⟨_, _, huri, hversion, _⟩ := Analysis.ofText_eq_ok hr
    subst huri
    refine h.tell (.accept r) (record_accept s.counted r) rfl rfl ?_ ?_
    · exact fun u hu => ⟨if_neg hu, rfl⟩
    · exact (h.record r.uri).tell hd hn rfl ((if_pos rfl).trans (congrArg some hversion)) hd
        (Record.needsAnalysis_accept hd hversion)
  -- findings that were computed from a document that is due are never thrown away
  discard hd hn hr hs _ := by
    obtain ⟨_, _, huri, hversion, _⟩ := Analysis.ofText_eq_ok hr
    rw [isStale_eq_false_of_due hd hn huri hversion] at hs
    cases hs
  overrun _ h := h.pass (fun _ => ⟨rfl, rfl⟩) rfl
  take _ _ h := h.drop _
  force _ _ h := ((h.trigger _).drop _).pass (fun _ => ⟨rfl, rfl⟩) rfl
  wait _ _ h := ((h.trigger _).drop _).congr (fun _ => rfl) rfl rfl
  beyondClock _ h := h.trigger _
  fire {_ s _ _ t b} _ _ _ h := by
    have hpass := h.pass (n := .ripened t.key b.first b.forced (s.expire t).now)
      (fun _ => ⟨rfl, rfl⟩) rfl
    exact hpass.congr (fun _ => rfl) rfl rfl
  lapse _ _ _ h := h.congr (fun _ => rfl) rfl rfl
  arrive _ _ h := h.congr (fun _ => rfl) rfl rfl
  hear _ h := h.congr (fun _ => rfl) rfl rfl
  openDocument {_ s uri text version} _ h := by
    have hopen : Advancing { s.enrol uri text version with journal := .opened uri :: s.journal } := by
      refine h.tell (.enrol text version) (record_enrol s uri text version) rfl rfl ?_ ?_
      · exact fun u hu => ⟨rfl, decide_eq_false hu⟩
      · exact (h.record uri).turn (n := .opened uri) (decide_eq_true rfl) _
    exact hopen.pass (n := .received uri version s.now) (fun _ => ⟨rfl, rfl⟩) rfl
  changeDocument {_ s uri text version} _ hacc h := by
    have hplace : (s.place uri text version).Advancing := by
      refine h.update (.place text version) (record_place s uri text version) rfl rfl ?_
      refine (h.record uri).place text version fun d hd => ?_
      have hd' : s.documents.get? uri = some d := hd
      simpa [accepts, hd'] using hacc
    exact hplace.pass (fun _ => ⟨rfl, rfl⟩) rfl
  closeDocument {_ s uri} _ h := by
    have hj : (s.forget uri).journal = s.journal := by rw [forget, drop_eq]; rfl
    have hruns : (s.forget uri).runs = s.runs := by rw [forget, drop_eq]; rfl
    refine h.tell (fun _ => .closed) (record_forget s uri) (congrArg (_ :: ·) hj) hruns ?_ ?_
    · exact fun u hu => ⟨rfl, decide_eq_false hu⟩
    · exact (h.record uri).turn (n := .event (.forgotten uri)) (decide_eq_true rfl) _
  showDocuments _ h := h.congr (fun _ => rfl) rfl rfl
  activate _ h := h.congr (fun _ => rfl) rfl rfl
  shutdown _ h := by rw [shutdown_eq]; exact h.congr (fun _ => rfl) rfl rfl
  advance _ h := h.congr (fun _ => rfl) rfl rfl
  stall _ h := h.congr (fun _ => rfl) rfl rfl
  placeDocument ha := nomatch ha
  reviseDocument ha := nomatch ha
  dropDocument ha := nomatch ha
  submitResult ha := nomatch ha

theorem advancing_new (settings : Settings) (hooks : List (Hook τ)) :
    (new settings hooks).Advancing where
  runs := rfl
  record uri := by
    refine ⟨fun stretch hin _ => ?_, nofun⟩
    rw [List.infix_nil.mp hin]
    exact .nil

/-- In every state of a session that an editor, the clock and listeners can bring about, also in
those that listeners see in the midst of a step, each document has been analysed at ever newer
versions between one opening or closing and the next, and every analysis made has been told. -/
theorem analyses_in_order (settings : Settings) (hooks : List (Hook τ))
    (hh : ∀ hook ∈ hooks, ∀ e es step, hook.respond e es = some step → step.Regular)
    (actions : List Step) (ha : ∀ action ∈ actions, action.Regular) :
    ((new settings hooks).steps actions).AnalysesInOrder ∧
      ToldWithin AnalysesInOrder (new settings hooks) actions := by
  obtain ⟨hadvancing, htold⟩ := steps_kept advancing_invariant (R := [])
    (fun h => h.analysesInOrder) (advancing_new settings hooks) (hooksAllow_new settings hh) ha
  exact ⟨hadvancing.analysesInOrder, htold⟩

/-- A listener that mends a document as soon as it hears that it could not be analysed. -/
def mendingHook : Hook Int where
  respond e _ :=
    match e with
    | .failed uri version _ => some (.changeDocument uri "a { z-index: 1 }".toList (version + 1))
    | _ => none

/-- A document that fails, is mended and is then opened again at a lower version: it is analysed at
the versions 7 and 8, and after it has turned at 1. -/
theorem analyses_in_order_mending :
    let actions : List Step := [.openDocument "a" "a \x7b".toList 7, .flush, .flush,
      .openDocument "a" "b { z-index: 2 }".toList 1, .advance 400]
    ((new {} [mendingHook]).steps actions).journal.reverse.filterMap (·.analysed? "a") =
        [7, 8, 1] ∧
      ((new {} [mendingHook]).steps actions).AnalysesInOrder ∧
      ToldWithin AnalysesInOrder (new {} [mendingHook]) actions := by
  refine ⟨by decide +kernel, analyses_in_order {} [mendingHook] ?_ _ ?_⟩
  · intro hook hm e es step hstep
    obtain rfl := List.mem_singleton.mp hm
    cases e with
    | failed uri version error =>
      obtain rfl := Option.some.inj hstep
      trivial
    | updated | overrun | forgotten => exact nomatch hstep
  · intro action hm
    simp only [List.mem_cons, List.not_mem_nil, or_false] at hm
    rcases hm with rfl | rfl | rfl | rfl | rfl <;> trivial

end Session
end Stacking
