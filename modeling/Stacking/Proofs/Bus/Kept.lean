import Stacking.Bus
import Stacking.Proofs.Chronicle

/-!
# What everything on a bus keeps

A relation between two states of a bus that everything which happens keeps is a `Dispatch.Kept`.
That a run keeps it is proved once, by induction on how deep emissions may still nest and on the
conduct of listeners. Two such relations are

* `Dispatch.Recorded`: the registrations come of what has been done;
* `Dispatch.Nests`: no emission is left running, and nothing is refused but at the limit.
-/

namespace Stacking

variable {κ ν : Type}

/-! ## Histories -/

namespace History

/-- The number of emissions that have begun and not ended. -/
def running : History κ ν → Int
  | [] => 0
  | m :: earlier =>
    match m.happening with
    | .took (.emit _) => running earlier + 1
    | .ended _ => running earlier - 1
    | _ => running earlier

/-- The listeners for every event, from what has been done. -/
def everywhere : History κ ν → List ν
  | [] => []
  | m :: earlier =>
    match m.happening with
    | .took (.onAll n) => everywhere earlier ++ [n]
    | _ => everywhere earlier

/-- The listeners for one kind of event, from what has been done. Each registration goes to the end,
and taking one back concerns the earliest of that listener, if there is one. -/
def registered [DecidableEq κ] [DecidableEq ν] (k : κ) : History κ ν → List ν
  | [] => []
  | m :: earlier =>
    match m.happening with
    | .took (.subscribe k' n) =>
      if k' = k then registered k earlier ++ [n] else registered k earlier
    | .took (.unsubscribe k' n) =>
      if k' = k then (registered k earlier).erase n else registered k earlier
    | _ => registered k earlier

end History

/-! ## What everything keeps -/

namespace Dispatch

/-- From a call to the next, an emission goes through its audience; in between, listeners do
something that keeps `P`. -/
inductive Calls (P : Dispatch κ ν → Dispatch κ ν → Prop) (emission : Nat) (kind : κ) :
    List ν → Dispatch κ ν → Dispatch κ ν → Prop
  | nil (d : Dispatch κ ν) : Calls P emission kind [] d d
  | cons {n : ν} {rest : List ν} {d d₁ d₂ : Dispatch κ ν}
      (responded : P (d.note (.called emission n kind)) d₁)
      (called : Calls P emission kind rest d₁ d₂) : Calls P emission kind (n :: rest) d d₂

/-- What a single call keeps, too, is kept by all of them. -/
theorem Calls.chain {P : Dispatch κ ν → Dispatch κ ν → Prop} {emission : Nat} {kind : κ}
    {audience : List ν} {d d' : Dispatch κ ν} (h : Calls P emission kind audience d d')
    (rest : ∀ d, P d d) (follow : ∀ {d d₁ d₂}, P d d₁ → P d₁ d₂ → P d d₂)
    (call : ∀ d n, P d (d.note (.called emission n kind))) : P d d' := by
  induction h with
  | nil d => exact rest d
  | cons responded called ih => exact follow (follow (call _ _) responded) ih

section Keeping

variable [DecidableEq κ] [DecidableEq ν]

/-- A relation between a state and a later one, where emissions may nest so deep, that is kept by
everything that happens. -/
structure Kept (P : Nat → Dispatch κ ν → Dispatch κ ν → Prop) : Prop where
  rest : ∀ depth d, P depth d d
  follow : ∀ {depth d d₁ d₂}, P depth d d₁ → P depth d₁ d₂ → P depth d d₂
  take : ∀ depth d action, (∀ k, action ≠ .emit k) → P (depth + 1) d (d.take action)
  refuse : ∀ d action, P 0 d (d.note (.refused action))
  emit : ∀ {depth d d' k}, Calls (P depth) d.history.length k (d.bus.audience k)
    (d.take (.emit k)) d' → P (depth + 1) d (d'.note (.ended d.history.length))

theorem perform_eq_none {listeners : Listeners κ ν} {depth : Nat} {action : BusAction κ ν}
    {d : Dispatch κ ν} (h : perform listeners depth action d = none) : depth = 0 := by
  cases depth with
  | zero => rfl
  | succ depth => cases action <;> simp [perform] at h

namespace Kept

variable {P : Nat → Dispatch κ ν → Dispatch κ ν → Prop} {depth : Nat}

theorem respond (h : Kept P) {perform : BusAction κ ν → Dispatch κ ν → Option (Dispatch κ ν)}
    (hsome : ∀ action d d', perform action d = some d' → P depth d d')
    (hnone : ∀ action d, perform action d = none → depth = 0) (c : Conduct κ ν)
    (d : Dispatch κ ν) : P depth d (respond perform c d) := by
  induction c generalizing d with
  | leave => exact h.rest depth d
  | fail => exact h.rest depth d
  | act action next ih =>
    rw [Dispatch.respond]
    split
    · rename_i hrefused
      obtain rfl := hnone action d hrefused
      exact h.refuse d action
    · rename_i d₁ htaken
      exact h.follow (hsome action d d₁ htaken) (ih d₁.history d₁)

theorem call (h : Kept P) {perform : BusAction κ ν → Dispatch κ ν → Option (Dispatch κ ν)}
    (hsome : ∀ action d d', perform action d = some d' → P depth d d')
    (hnone : ∀ action d, perform action d = none → depth = 0) (listeners : Listeners κ ν)
    (emission : Nat) (kind : κ) (audience : List ν) (d : Dispatch κ ν) :
    Calls (P depth) emission kind audience d
      (call listeners perform emission kind audience d) := by
  induction audience generalizing d with
  | nil => exact .nil d
  | cons n rest ih => exact .cons (h.respond hsome hnone _ _) (ih _)

theorem perform (h : Kept P) {listeners : Listeners κ ν} {action : BusAction κ ν}
    {d d' : Dispatch κ ν} (hd : perform listeners depth action d = some d') : P depth d d' := by
  induction depth generalizing action d d' with
  | zero => exact nomatch hd
  | succ depth ih =>
    cases action with
    | subscribe k n =>
      obtain rfl := Option.some.inj hd
      exact h.take depth d _ (by simp)
    | unsubscribe k n =>
      obtain rfl := Option.some.inj hd
      exact h.take depth d _ (by simp)
    | onAll n =>
      obtain rfl := Option.some.inj hd
      exact h.take depth d _ (by simp)
    | emit k =>
      obtain rfl := Option.some.inj hd
      exact h.emit (h.call (fun _ _ _ => ih) (fun _ _ => perform_eq_none) listeners _ _ _ _)

theorem responds (h : Kept P) (listeners : Listeners κ ν) (depth : Nat) (c : Conduct κ ν)
    (d : Dispatch κ ν) : P depth d (Dispatch.respond (Dispatch.perform listeners depth) c d) :=
  h.respond (fun _ _ _ => h.perform) (fun _ _ => perform_eq_none) c d

theorem calls (h : Kept P) (listeners : Listeners κ ν) (depth emission : Nat) (kind : κ)
    (audience : List ν) (d : Dispatch κ ν) :
    Calls (P depth) emission kind audience d
      (Dispatch.call listeners (Dispatch.perform listeners depth) emission kind audience d) :=
  h.call (fun _ _ _ => h.perform) (fun _ _ => perform_eq_none) listeners emission kind audience d

theorem step (h : Kept P) (listeners : Listeners κ ν) (d : Dispatch κ ν)
    (action : BusAction κ ν) : P depth d (step listeners depth d action) := by
  rw [Dispatch.step]
  cases hd : Dispatch.perform listeners depth action d with
  | none =>
    obtain rfl := perform_eq_none hd
    exact h.refuse d action
  | some d' => exact h.perform hd

theorem steps (h : Kept P) (listeners : Listeners κ ν) (d : Dispatch κ ν)
    (actions : List (BusAction κ ν)) :
    P depth d (actions.foldl (Dispatch.step listeners depth) d) := by
  induction actions generalizing d with
  | nil => exact h.rest depth d
  | cons action actions ih => exact h.follow (h.step listeners d action) (ih _)

end Kept

end Keeping

/-! ## Who is registered -/

section Recording

variable [DecidableEq κ] [DecidableEq ν]

/-- The registrations, now and at every moment before, are those that come of what has been done. -/
structure Recorded (d : Dispatch κ ν) : Prop where
  everywhere : d.bus.everywhere = History.everywhere d.history
  registered : ∀ k, d.bus.registered k = History.registered k d.history
  before : Throughout (fun m earlier =>
    m.bus.everywhere = History.everywhere (m :: earlier) ∧
      ∀ k, m.bus.registered k = History.registered k (m :: earlier)) d.history

theorem Recorded.note {d : Dispatch κ ν} (hd : d.Recorded) {h : Happening κ ν}
    (hh : ∀ action, h ≠ .took action) : (d.note h).Recorded := by
  have heverywhere : History.everywhere (d.note h).history = History.everywhere d.history := by
    cases h with
    | took action => exact absurd rfl (hh action)
    | _ => rfl
  have hregistered : ∀ k, History.registered k (d.note h).history =
      History.registered k d.history := by
    intro k
    cases h with
    | took action => exact absurd rfl (hh action)
    | _ => rfl
  have hall : d.bus.everywhere = History.everywhere (d.note h).history :=
    hd.everywhere.trans heverywhere.symm
  have hkind : ∀ k, d.bus.registered k = History.registered k (d.note h).history :=
    fun k => (hd.registered k).trans (hregistered k).symm
  exact ⟨hall, hkind, hd.before.cons ⟨hall, hkind⟩⟩

theorem Recorded.take {d : Dispatch κ ν} (hd : d.Recorded) (action : BusAction κ ν) :
    (d.take action).Recorded := by
  have hall : (d.take action).bus.everywhere = History.everywhere (d.take action).history := by
    have heverywhere := hd.everywhere
    cases action with
    | onAll n =>
      show d.bus.everywhere ++ [n] = History.everywhere d.history ++ [n]
      rw [heverywhere]
    | _ => exact heverywhere
  have hkind : ∀ k, (d.take action).bus.registered k =
      History.registered k (d.take action).history := by
    intro k
    have hregistered := hd.registered k
    cases action with
    | subscribe k' n =>
      show (d.bus.subscribe k' n).registered k =
        if k' = k then History.registered k d.history ++ [n] else History.registered k d.history
      rw [Bus.registered_subscribe, hregistered]
    | unsubscribe k' n =>
      show (d.bus.unsubscribe k' n).registered k =
        if k' = k then (History.registered k d.history).erase n
        else History.registered k d.history
      rw [Bus.registered_unsubscribe, hregistered]
    | _ => exact hregistered
  exact ⟨hall, hkind, hd.before.cons ⟨hall, hkind⟩⟩

theorem recorded_kept : Kept fun _ (d d' : Dispatch κ ν) => d.Recorded → d'.Recorded where
  rest _ _ hd := hd
  follow h h' hd := h' (h hd)
  take _ _ action _ hd := hd.take action
  refuse _ _ hd := hd.note nofun
  emit h hd := by
    have hcalls := h.chain (fun _ hd => hd) (fun h h' hd => h' (h hd)) fun _ _ hd => hd.note nofun
    exact (hcalls (hd.take _)).note nofun

end Recording

/-! ## Where emissions may not nest -/

section Nesting

/-- Actions are refused only where as many emissions are running as may be. -/
def RefusedAt (limit : Nat) (h : History κ ν) : Prop :=
  Throughout (fun m earlier => ∀ action, m.happening = .refused action →
    History.running earlier = limit) h

/-- From a state to a later one no emission is left running, and no action is refused while there
are fewer than `limit`. -/
def Nests (depth : Nat) (d d' : Dispatch κ ν) : Prop :=
  History.running d'.history = History.running d.history ∧
    ∀ limit : Nat, History.running d.history + depth = limit → RefusedAt limit d.history →
      RefusedAt limit d'.history

theorem Nests.rest (depth : Nat) (d : Dispatch κ ν) : Nests depth d d := ⟨rfl, fun _ _ hd => hd⟩

theorem Nests.follow {depth : Nat} {d d₁ d₂ : Dispatch κ ν} (h : Nests depth d d₁)
    (h' : Nests depth d₁ d₂) : Nests depth d d₂ := by
  refine ⟨h'.1.trans h.1, fun limit hsum hd => ?_⟩
  exact h'.2 limit (h.1 ▸ hsum) (h.2 limit hsum hd)

variable [DecidableEq κ] [DecidableEq ν]

theorem nests_kept : Kept (κ := κ) (ν := ν) Nests where
  rest := .rest
  follow := .follow
  take _ d action hemit := by
    refine ⟨?_, fun _ _ hd => hd.cons nofun⟩
    cases action with
    | emit k => exact absurd rfl (hemit k)
    | _ => rfl
  refuse d action := by
    refine ⟨rfl, fun limit hsum hd => hd.cons fun _ _ => ?_⟩
    omega
  emit {depth d d' k} h := by
    obtain ⟨hrunning, hlimit⟩ := h.chain (.rest depth) .follow fun _ _ =>
      ⟨rfl, fun _ _ hd => hd.cons nofun⟩
    have hbegun : History.running (d.take (.emit k)).history = History.running d.history + 1 := rfl
    have hended : History.running (d'.note (.ended d.history.length)).history =
        History.running d'.history - 1 := rfl
    rw [hbegun] at hrunning hlimit
    refine ⟨by omega, fun limit hsum hd => ?_⟩
    exact (hlimit limit (by omega) (hd.cons nofun)).cons nofun

end Nesting

end Dispatch
end Stacking
