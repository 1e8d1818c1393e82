import Stacking.Proofs.Bus.Proceeding

/-!
# Delivery of events

Listeners act on the bus that calls them: they register and unregister others and themselves, emit
further events and fail. Who is called is decided when an emission begins.

* `History.Delivers` says of a part of a history that its emissions do what they should.
* `Dispatch.Alike` says that a limit on how deep emissions nest matters only where it is reached.
* `Dispatch.delivery_isolated` puts together what holds of every run, whatever listeners do.
-/

namespace Stacking

variable {κ ν : Type}

/-! ## Histories -/

/-- Whether this is something an emission does after it has begun: it calls someone, or it ends. -/
def Happening.isOf (e : Nat) : Happening κ ν → Bool
  | .called emission _ _ => emission == e
  | .ended emission => emission == e
  | _ => false

namespace History

/-- What an emission does within a part of a history, in the order in which it does it. -/
def courseOf (e : Nat) (h : History κ ν) : List (Happening κ ν) :=
  (h.reverse.map (·.happening)).filter (·.isOf e)

/-- A moment of two parts of a history is a moment of the later or of the earlier part. -/
theorem append_eq_append_cons {x y later earlier : History κ ν} {m : Moment κ ν}
    (h : x ++ y = later ++ m :: earlier) :
    (∃ older, x = later ++ m :: older ∧ earlier = older ++ y) ∨
      ∃ newer, later = x ++ newer ∧ y = newer ++ m :: earlier := by
  rcases List.append_eq_append_iff.mp h with ⟨newer, hlater, hy⟩ | ⟨older, hx, hm⟩
  · exact Or.inr ⟨newer, hlater, hy⟩
  · cases older with
    | nil => exact Or.inr ⟨[], by simpa using hx.symm, by simpa using hm.symm⟩
    | cons m' older =>
      obtain ⟨rfl, rfl⟩ := List.cons.inj hm
      exact Or.inl ⟨older, hx, rfl⟩

theorem eq_of_singleton {b m : Moment κ ν} {newer earlier : History κ ν}
    (h : [b] = newer ++ m :: earlier) : newer = [] ∧ m = b ∧ earlier = [] := by
  cases newer with
  | nil =>
    obtain ⟨rfl, rfl⟩ := List.cons.inj h
    exact ⟨rfl, rfl, rfl⟩
  | cons _ newer => simp at h

theorem courseOf_append (e : Nat) (x y : History κ ν) :
    courseOf e (x ++ y) = courseOf e y ++ courseOf e x := by
  simp [courseOf]

theorem courseOf_eq_nil {e : Nat} {h : History κ ν} (hh : ∀ m ∈ h, m.happening.isOf e = false) :
    courseOf e h = [] := by
  simpa [courseOf] using hh

end History

/-! ## Who is called -/

namespace History

variable [DecidableEq κ]

/-- In what is added to a history of `n` moments, emissions do what they should. What an emission
does is done by one that has begun, here or as the `own` one before; and those that begin here call
the listeners of that time, one after the other, and end. -/
structure Delivers (own : Option Nat) (n : Nat) (added : History κ ν) : Prop where
  begun : Throughout (fun m earlier => ∀ e, m.happening.isOf e = true →
    own = some e ∨ ∃ newer b older k, earlier = newer ++ b :: older ∧ n + older.length = e ∧
      b.happening = .took (.emit k)) added
  delivered : ∀ later m earlier k, added = later ++ m :: earlier →
    m.happening = .took (.emit k) →
    courseOf (n + earlier.length) later =
      (m.bus.audience k).map (.called (n + earlier.length) · k) ++ [.ended (n + earlier.length)]

namespace Delivers

variable {own : Option Nat} {n : Nat}

theorem nil (own : Option Nat) (n : Nat) : Delivers own n ([] : History κ ν) where
  begun := throughout_nil _
  delivered later m earlier k h := by simp at h

/-- A moment at which no emission begins, and nothing is done by one but the `own` one. -/
theorem single {m : Moment κ ν} (hown : ∀ e, m.happening.isOf e = true → own = some e)
    (hm : ∀ k, m.happening ≠ .took (.emit k)) : Delivers own n [m] where
  begun := (throughout_nil _).cons fun e he => Or.inl (hown e he)
  delivered later m' earlier k h htook := by
    obtain ⟨-, rfl, -⟩ := eq_of_singleton h
    exact absurd htook (hm k)

theorem weaken {added : History κ ν} (h : Delivers none n added) : Delivers own n added where
  begun later m earlier heq e he := by
    obtain hown | hbegun := h.begun later m earlier heq e he
    · exact nomatch hown
    · exact Or.inr hbegun
  delivered := h.delivered

/-- Emissions that began before, but for the `own` one, do nothing any more. -/
theorem courseOf_eq_nil {added : History κ ν} (h : Delivers own n added) {e : Nat} (he : e < n)
    (hown : own ≠ some e) : courseOf e added = [] := by
  refine History.courseOf_eq_nil fun m hm => ?_
  obtain ⟨later, earlier, heq⟩ := List.append_of_mem hm
  rw [Bool.eq_false_iff]
  intro hof
  obtain hsame | ⟨_, _, older, _, -, hlength, -⟩ := h.begun later m earlier heq e hof
  · exact hown hsame
  · omega

/-- One part of a history after the other. -/
theorem append {x y : History κ ν} (hx : Delivers own (n + y.length) x) (hy : Delivers own n y)
    (hown : ∀ e ∈ own, e < n) : Delivers own n (x ++ y) where
  begun later m earlier heq e he := by
    rcases append_eq_append_cons heq with ⟨older, hsplit, rfl⟩ | ⟨newer, rfl, hsplit⟩
    · refine (hx.begun later m older hsplit e he).imp_right ?_
      rintro ⟨newer, b, oldest, k, rfl, rfl, hb⟩
      refine ⟨newer, b, oldest ++ y, k, by simp, ?_, hb⟩
      rw [List.length_append]
      omega
    · exact hy.begun newer m earlier hsplit e he
  delivered later m earlier k heq hm := by
    rcases append_eq_append_cons heq with ⟨older, hsplit, rfl⟩ | ⟨newer, rfl, hsplit⟩
    · have hlength : n + (older ++ y).length = n + y.length + older.length := by
        rw [List.length_append]
        omega
      rw [hlength]
      exact hx.delivered later m older k hsplit hm
    · -- an emission that begins in `y` is over before `x`
      have hshort : n + earlier.length < n + y.length := by
        rw [hsplit, List.length_append, List.length_cons]
        omega
      have hover : courseOf (n + earlier.length) x = [] := by
        refine hx.courseOf_eq_nil hshort fun h => ?_
        have := hown _ h
        omega
      rw [courseOf_append, hover, List.append_nil]
      exact hy.delivered newer m earlier k hsplit hm

/-- A whole emission: it begins, it makes its calls, and it ends. -/
theorem emission {calls : History κ ν} {b e : Moment κ ν} {k : κ}
    (hb : b.happening = .took (.emit k)) (he : e.happening = .ended n)
    (h : Delivers (some n) (n + 1) calls)
    (hcalls : courseOf n calls = (b.bus.audience k).map (.called n · k)) :
    Delivers none n (e :: (calls ++ [b])) where
  begun := by
    refine Throughout.cons ?_ ?_
    · intro later m earlier heq e' he'
      rcases append_eq_append_cons heq with ⟨older, hsplit, rfl⟩ | ⟨newer, rfl, hsplit⟩
      · obtain hown | ⟨newer, b', oldest, k', rfl, rfl, hb'⟩ := h.begun later m older hsplit e' he'
        · obtain rfl := Option.some.inj hown
          exact Or.inr ⟨older, b, [], k, rfl, rfl, hb⟩
        · refine Or.inr ⟨newer, b', oldest ++ [b], k', by simp, ?_, hb'⟩
          rw [List.length_append, List.length_singleton]
          omega
      · obtain ⟨-, rfl, -⟩ := eq_of_singleton hsplit
        rw [hb] at he'
        exact nomatch he'
    · intro e' he'
      rw [he] at he'
      obtain rfl : n = e' := by simpa [Happening.isOf] using he'
      exact Or.inr ⟨calls, b, [], k, rfl, rfl, hb⟩
  delivered later m earlier k' heq hm := by
    cases later with
    | nil =>
      obtain ⟨rfl, -⟩ := List.cons.inj heq
      rw [he] at hm
      exact nomatch hm
    | cons e' later =>
      obtain ⟨rfl, hrest⟩ := List.cons.inj heq
      rw [← List.singleton_append, courseOf_append]
      rcases append_eq_append_cons hrest with ⟨older, hsplit, rfl⟩ | ⟨newer, rfl, hsplit⟩
      · -- an emission within a call: the end is not its own
        have hlength : n + (older ++ [b]).length = n + 1 + older.length := by
          rw [List.length_append, List.length_singleton]
          omega
        have hother : courseOf (n + 1 + older.length) [e] = [] := by
          refine History.courseOf_eq_nil ?_
          rintro _ (_ | ⟨_, ⟨⟩⟩)
          simp only [he, Happening.isOf, beq_eq_false_iff_ne]
          omega
        rw [hlength, hother, List.append_nil]
        exact h.delivered later m older k' hsplit hm
      · obtain ⟨rfl, rfl, rfl⟩ := eq_of_singleton hsplit
        obtain rfl : k = k' := by simpa [hb] using hm
        have hend : courseOf n [e] = [.ended n] := by simp [courseOf, he, Happening.isOf]
        rw [List.append_nil, List.length_nil, Nat.add_zero, hcalls, hend]

end Delivers
end History

namespace Dispatch

section Calling

variable [DecidableEq κ]

/-- What comes to the history from a state to a later one delivers. -/
def Adds (own : Option Nat) (d d' : Dispatch κ ν) : Prop :=
  ∃ added, d'.history = added ++ d.history ∧ History.Delivers own d.history.length added

theorem Adds.trans {own : Option Nat} {d d₁ d₂ : Dispatch κ ν} (h : Adds own d d₁)
    (h' : Adds own d₁ d₂) (hown : ∀ e ∈ own, e < d.history.length) : Adds own d d₂ := by
  obtain ⟨y, hy, hdelivers⟩ := h
  obtain ⟨x, hx, hdelivers'⟩ := h'
  refine ⟨x ++ y, by rw [hx, hy, List.append_assoc], ?_⟩
  rw [hy, List.length_append, Nat.add_comm] at hdelivers'
  exact hdelivers'.append hdelivers hown

/-- Going through an audience, an emission makes its calls in turn, whatever happens in between. -/
theorem Calls.adds {emission : Nat} {kind : κ} {audience : List ν} {d d' : Dispatch κ ν}
    (h : Calls (Adds none) emission kind audience d d') (hlt : emission < d.history.length) :
    ∃ calls, d'.history = calls ++ d.history ∧
      History.Delivers (some emission) d.history.length calls ∧
      History.courseOf emission calls = audience.map (.called emission · kind) := by
  induction h with
  | nil d => exact ⟨[], rfl, .nil _ _, rfl⟩
  | @cons n rest d d₁ d₂ responded called ih =>
    obtain ⟨added, hadded, hdelivers⟩ := responded
    have hlength : d₁.history.length = d.history.length + 1 + added.length := by
      rw [hadded, List.length_append, Nat.add_comm]
      rfl
    obtain ⟨calls, hcalls, hdelivers', hcourse⟩ := ih (by omega)
    have hcall : History.Delivers (some emission) d.history.length
        [⟨.called emission n kind, d.bus⟩] :=
      .single (fun e he => by simpa [Happening.isOf] using he) nofun
    have hown : ∀ e ∈ some emission, e < d.history.length := by
      rintro e ⟨⟩
      exact hlt
    refine ⟨calls ++ (added ++ [⟨.called emission n kind, d.bus⟩]), ?_, ?_, ?_⟩
    · rw [hcalls, hadded]
      simp [note]
    · refine .append ?_ (.append hdelivers.weaken hcall hown) hown
      rw [List.length_append, List.length_singleton, Nat.add_comm added.length, ← Nat.add_assoc,
        ← hlength]
      exact hdelivers'
    · have hwithin : History.courseOf emission added = [] :=
        hdelivers.courseOf_eq_nil (Nat.lt_succ_of_lt hlt) nofun
      rw [History.courseOf_append, History.courseOf_append, hwithin, hcourse]
      simp [History.courseOf, Happening.isOf]

variable [DecidableEq ν]

theorem adds_kept : Kept fun _ => Adds (κ := κ) (ν := ν) none where
  rest _ d := ⟨[], rfl, .nil _ _⟩
  follow h h' := h.trans h' nofun
  take _ d action hemit := by
    refine ⟨[⟨.took action, d.bus.after action⟩], rfl, .single nofun fun k hk => ?_⟩
    exact hemit k (Happening.took.inj hk)
  refuse d action := ⟨[⟨.refused action, d.bus⟩], rfl, .single nofun nofun⟩
  emit {_ d d' k} h := by
    have hlength : (d.take (.emit k)).history.length = d.history.length + 1 := rfl
    obtain ⟨calls, hcalls, hdelivers, hcourse⟩ := h.adds (by omega)
    refine ⟨⟨.ended d.history.length, d'.bus⟩ ::
      (calls ++ [⟨.took (.emit k), d.bus⟩]), ?_, ?_⟩
    · show _ :: d'.history = _
      rw [hcalls]
      simp [Dispatch.take, note, Bus.after]
    · exact .emission (b := ⟨.took (.emit k), d.bus⟩) rfl rfl hdelivers hcourse

end Calling

/-! ## Nesting deeper -/

section Limits

variable [DecidableEq κ] [DecidableEq ν] {listeners : Listeners κ ν} {depth higher : Nat}

omit [DecidableEq κ] [DecidableEq ν] in
theorem Calls.grows {emission : Nat} {kind : κ} {audience : List ν} {d d' : Dispatch κ ν}
    (h : Calls (fun d d' => d.history <:+ d'.history) emission kind audience d d') :
    d.history <:+ d'.history :=
  h.chain (fun _ => List.suffix_rfl) .trans fun _ _ => List.suffix_cons _ _

theorem grows_kept : Kept fun _ (d d' : Dispatch κ ν) => d.history <:+ d'.history where
  rest _ _ := List.suffix_rfl
  follow h h' := h.trans h'
  take _ _ _ _ := List.suffix_cons _ _
  refuse _ _ := List.suffix_cons _ _
  emit h := (List.suffix_cons _ _).trans (h.grows.trans (List.suffix_cons _ _))

/-- No action is refused. -/
def Unrefused (d : Dispatch κ ν) : Prop := ∀ m ∈ d.history, ∀ action, m.happening ≠ .refused action

omit [DecidableEq κ] [DecidableEq ν] in
theorem Unrefused.before {d d' : Dispatch κ ν} (hfree : d'.Unrefused)
    (h : d.history <:+ d'.history) : d.Unrefused :=
  fun m hm => hfree m (h.subset hm)

omit [DecidableEq κ] [DecidableEq ν] in
theorem not_unrefused_note (d : Dispatch κ ν) (action : BusAction κ ν) :
    ¬(d.note (.refused action)).Unrefused :=
  fun hfree => hfree _ List.mem_cons_self action rfl

/-- Whatever is done without a refusal is done alike where emissions may nest deeper. -/
def Alike (listeners : Listeners κ ν) (depth higher : Nat) : Prop :=
  ∀ action d d', perform listeners depth action d = some d' → d'.Unrefused →
    perform listeners higher action d = some d'

theorem Alike.respond (h : Alike listeners depth higher) (c : Conduct κ ν) (d : Dispatch κ ν)
    (hfree : (respond (perform listeners depth) c d).Unrefused) :
    respond (perform listeners higher) c d = respond (perform listeners depth) c d := by
  induction c generalizing d with
  | leave => rfl
  | fail => rfl
  | act action next ih =>
    rw [Dispatch.respond] at hfree ⊢
    rw [Dispatch.respond]
    cases hd : perform listeners depth action d with
    | none =>
      rw [hd] at hfree
      exact absurd hfree (not_unrefused_note d action)
    | some d₁ =>
      rw [hd] at hfree
      rw [h action d d₁ hd (hfree.before (grows_kept.responds listeners depth _ d₁))]
      exact ih d₁.history d₁ hfree

theorem Alike.call (h : Alike listeners depth higher) {emission : Nat} {kind : κ}
    {audience : List ν} {d : Dispatch κ ν}
    (hfree : (call listeners (perform listeners depth) emission kind audience d).Unrefused) :
    call listeners (perform listeners higher) emission kind audience d =
      call listeners (perform listeners depth) emission kind audience d := by
  induction audience generalizing d with
  | nil => rfl
  | cons n rest ih =>
    rw [Dispatch.call] at hfree ⊢
    have hresponded := hfree.before (grows_kept.calls listeners depth emission kind rest _).grows
    rw [Dispatch.call, h.respond _ _ hresponded]
    exact ih hfree

theorem alike_of_le (hle : depth ≤ higher) : Alike listeners depth higher := by
  induction depth generalizing higher with
  | zero => exact fun _ _ _ hd => nomatch hd
  | succ depth ih =>
    obtain ⟨higher, rfl⟩ := Nat.exists_eq_add_of_le' (Nat.lt_of_lt_of_le depth.succ_pos hle)
    intro action d d' hd hfree
    cases action with
    | emit k =>
      obtain rfl := Option.some.inj hd
      have hwithin : Alike listeners depth higher := ih (by omega)
      rw [perform, hwithin.call (hfree.before (List.suffix_cons _ _))]
    | _ => exact hd

/-- A run in which no action is refused goes the same way where emissions may nest deeper. -/
theorem run_eq_of_le {limit : Nat} (hle : limit ≤ higher) {actions : List (BusAction κ ν)}
    (hfree : (run listeners limit actions).Unrefused) :
    run listeners higher actions = run listeners limit actions := by
  unfold run at hfree ⊢
  generalize ({} : Dispatch κ ν) = d at hfree ⊢
  induction actions generalizing d with
  | nil => rfl
  | cons action actions ih =>
    rw [List.foldl_cons] at hfree ⊢
    rw [List.foldl_cons, ← ih _ hfree]
    congr 1
    have hstep := hfree.before (grows_kept.steps listeners _ actions)
    rw [step] at hstep ⊢
    cases hd : perform listeners limit action d with
    | none =>
      rw [hd] at hstep
      exact absurd hstep (not_unrefused_note d action)
    | some d₁ =>
      rw [hd] at hstep
      rw [step, alike_of_le hle action d d₁ hd hstep, hd]

end Limits

/-! ## Runs -/

section Runs

variable [DecidableEq κ] [DecidableEq ν]

/-- What holds of a run of actions in which emissions nest no deeper than `limit`. -/
structure Isolated (listeners : Listeners κ ν) (limit : Nat) (actions : List (BusAction κ ν))
    (d : Dispatch κ ν) : Prop where
  /-- The actions are carried out one after the other. Every emission calls those who are registered
  by then, every listener that is called acts as its conduct says, and each action leaves a moment
  of its own, as do all calls and ends of emissions. -/
  proceeded : History.Proceeds listeners limit (.actions actions) [] d.history
  /-- What is taken or refused while no emission is running are the actions, in their order. -/
  undertaken : d.history.undertaken = actions
  /-- An emission that has begun calls the listeners for every event and then those for its kind, as
  they are when it begins, each as often as it is registered and in the order of registration; then
  it ends. -/
  delivered : ∀ later m earlier k, d.history = later ++ m :: earlier →
    m.happening = .took (.emit k) →
    History.courseOf earlier.length later =
      (m.bus.everywhere ++ m.bus.registered k).map (.called earlier.length · k) ++
        [.ended earlier.length]
  /-- Nobody is called but by an emission that has begun. -/
  begun : Throughout (fun m earlier => ∀ e, m.happening.isOf e = true →
    ∃ newer b older k, earlier = newer ++ b :: older ∧ older.length = e ∧
      b.happening = .took (.emit k)) d.history
  /-- The registrations, at every moment and in the end, come of what has been done. -/
  recorded : d.Recorded
  /-- An action is refused only where as many emissions are running as may be. -/
  refused : RefusedAt limit d.history

/-- Delivery is isolated from what listeners do. In every run the actions are carried out in turn,
and so are those of every listener that is called; whatever listeners do, every emission goes to
those who are registered when it begins, and comes to its end; and the registrations are those that
come of the actions in the order in which they are taken. How deep emissions may nest matters only
where they nest deeper: a run in which nothing is refused is the run without any limit. -/
theorem delivery_isolated (listeners : Listeners κ ν) (limit : Nat)
    (actions : List (BusAction κ ν)) :
    (run listeners limit actions).Isolated listeners limit actions ∧
      ((run listeners limit actions).Unrefused → ∀ higher, limit ≤ higher →
        run listeners higher actions = run listeners limit actions) := by
  refine ⟨?_, fun hfree higher hle => run_eq_of_le hle hfree⟩
  have hadds : Adds none {} (run listeners limit actions) := adds_kept.steps listeners {} actions
  have hnests : Nests limit {} (run listeners limit actions) :=
    nests_kept.steps listeners {} actions
  have hrecorded : ({} : Dispatch κ ν).Recorded → (run listeners limit actions).Recorded :=
    recorded_kept.steps listeners {} actions
  have hproceeds := run_proceeds listeners limit actions
  obtain ⟨added, hadded, hdelivers⟩ := hadds
  have hhistory : (run listeners limit actions).history = added :=
    hadded.trans (List.append_nil added)
  constructor
  · exact hproceeds
  · exact hproceeds.undertaken_actions rfl
  · intro later m earlier k heq hm
    have hcourse := hdelivers.delivered later m earlier k (hhistory ▸ heq) hm
    rw [List.length_nil, Nat.zero_add] at hcourse
    exact hcourse
  · intro later m earlier heq e he
    obtain hown | ⟨newer, b, older, k, hsplit, hlength, hb⟩ :=
      hdelivers.begun later m earlier (hhistory ▸ heq) e he
    · exact nomatch hown
    · rw [List.length_nil, Nat.zero_add] at hlength
      exact ⟨newer, b, older, k, hsplit, hlength, hb⟩
  · exact hrecorded ⟨rfl, fun _ => rfl, throughout_nil _⟩
  · exact hnests.2 limit (Int.zero_add _) (throughout_nil _)

/-- A listener that takes back the registration of one behind it, registers another, emits an event
of another kind and then fails. Those who were registered when the first emission began are called
nevertheless, the one taken back as often as it was registered; the next emission goes to those left
and to the new one. Listener 2 fails, too, and listener 4 hears of everything. -/
theorem delivery_isolated_reentrant :
    let listeners : Listeners Nat Nat := fun n _ =>
      if n = 0 then .act (.unsubscribe 0 1) fun _ => .act (.subscribe 0 3) fun _ =>
        .act (.emit 1) fun _ => .fail
      else if n = 2 then .fail else .leave
    let actions : List (BusAction Nat Nat) := [.onAll 4, .subscribe 0 0, .subscribe 0 1,
      .subscribe 0 1, .subscribe 1 2, .emit 0, .emit 0]
    let d := run listeners 2 actions
    d.calls.reverse =
        [(4, 0), (0, 0), (4, 1), (2, 1), (1, 0), (1, 0),
          (4, 0), (0, 0), (4, 1), (2, 1), (1, 0), (3, 0)] ∧
      History.registered 0 d.history = [0, 3, 3] ∧
      d.Isolated listeners 2 actions ∧ d.Unrefused ∧
      (run listeners maxDepth actions).calls = d.calls := by
  intro listeners actions d
  obtain ⟨hisolated, hhigher⟩ := delivery_isolated listeners 2 actions
  have hfree : d.Unrefused := by
    have hnone : (d.history.map (·.happening)).all fun
        | .refused _ => false
        | _ => true := by decide +kernel
    intro m hm action hrefused
    have hmoment := List.all_eq_true.mp hnone _ (List.mem_map_of_mem hm)
    rw [hrefused] at hmoment
    exact Bool.false_ne_true hmoment
  refine ⟨by decide +kernel, by decide +kernel, hisolated, hfree, ?_⟩
  rw [hhigher hfree maxDepth (by decide)]

end Runs

end Dispatch
end Stacking
