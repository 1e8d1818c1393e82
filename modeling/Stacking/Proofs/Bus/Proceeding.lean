import Stacking.Proofs.Bus.Kept

/-!
# How a history proceeds

What is to happen on a bus when something is done follows from the history alone: an emission calls
those who are registered by then, each listener acts as its conduct says, and every action leaves a
moment of its own. `History.Proceeds` says so, in one relation over all that can be under way on a
bus (`Deed`). The history of a run proceeds by its actions, whatever listeners do
(`Dispatch.run_proceeds`).
-/

namespace Stacking

variable {κ ν : Type}

/-- Something that is under way on a bus. -/
inductive Deed (κ ν : Type) where
  /-- Actions one after the other that no listener takes. -/
  | actions (actions : List (BusAction κ ν))
  /-- One action, be it a listener's or not. -/
  | action (action : BusAction κ ν)
  /-- What a listener does that has been called. -/
  | conduct (conduct : Conduct κ ν)
  /-- The calls that an emission has still to make. -/
  | calls (emission : Nat) (kind : κ) (audience : List ν)

namespace History

variable [DecidableEq κ] [DecidableEq ν]

/-- By something under way a history proceeds to a later one, moment by moment, where emissions nest
no deeper than `limit`. -/
inductive Proceeds (listeners : Listeners κ ν) (limit : Nat) :
    Deed κ ν → History κ ν → History κ ν → Prop
  | idle (h : History κ ν) : Proceeds listeners limit (.actions []) h h
  | next {action actions h h₁ h₂} (first : Proceeds listeners limit (.action action) h h₁)
      (rest : Proceeds listeners limit (.actions actions) h₁ h₂) :
      Proceeds listeners limit (.actions (action :: actions)) h h₂
  /-- An action other than an emission is one moment. -/
  | register {action m h} (hroom : running h < limit) (haction : ∀ k, action ≠ .emit k)
      (hm : m.happening = .took action) : Proceeds listeners limit (.action action) h (m :: h)
  /-- An emission begins, calls those who are registered by then, and ends. -/
  | emit {k b e h h'} (hroom : running h < limit) (hb : b.happening = .took (.emit k))
      (calls : Proceeds listeners limit (.calls h.length k (everywhere h ++ registered k h))
        (b :: h) h')
      (he : e.happening = .ended h.length) :
      Proceeds listeners limit (.action (.emit k)) h (e :: h')
  | refuse {action m h} (hfull : running h = limit) (hm : m.happening = .refused action) :
      Proceeds listeners limit (.action action) h (m :: h)
  | done (emission : Nat) (kind : κ) (h : History κ ν) :
      Proceeds listeners limit (.calls emission kind []) h h
  /-- A listener is called and does what it does, then it is the next one's turn. -/
  | call {emission kind n audience m h h₁ h₂} (hm : m.happening = .called emission n kind)
      (responds : Proceeds listeners limit (.conduct (listeners n (m :: h))) (m :: h) h₁)
      (rest : Proceeds listeners limit (.calls emission kind audience) h₁ h₂) :
      Proceeds listeners limit (.calls emission kind (n :: audience)) h h₂
  | leave (h : History κ ν) : Proceeds listeners limit (.conduct .leave) h h
  | fail (h : History κ ν) : Proceeds listeners limit (.conduct .fail) h h
  /-- A listener takes an action and goes on, knowing what has happened by then. -/
  | act {action next h h₁ h₂} (hroom : running h < limit)
      (taken : Proceeds listeners limit (.action action) h h₁)
      (rest : Proceeds listeners limit (.conduct (next h₁)) h₁ h₂) :
      Proceeds listeners limit (.conduct (.act action next)) h h₂
  /-- A listener that is refused an action does nothing more. -/
  | stop {action next h h₁} (hfull : running h = limit)
      (refused : Proceeds listeners limit (.action action) h h₁) :
      Proceeds listeners limit (.conduct (.act action next)) h h₁

/-! ## What is undertaken outside of emissions -/

/-- The actions that were taken or refused while no emission was running, in their order. -/
def undertaken : History κ ν → List (BusAction κ ν)
  | [] => []
  | m :: earlier =>
    match m.happening with
    | .took action | .refused action =>
      if running earlier = 0 then undertaken earlier ++ [action] else undertaken earlier
    | _ => undertaken earlier

section Moments

omit [DecidableEq κ] [DecidableEq ν]

variable {m : Moment κ ν} {h : History κ ν} {action : BusAction κ ν}

theorem running_took (haction : ∀ k, action ≠ .emit k) (hm : m.happening = .took action) :
    running (m :: h) = running h := by
  rw [running, hm]
  cases action with
  | emit k => exact absurd rfl (haction k)
  | _ => rfl

theorem running_emit {k : κ} (hm : m.happening = .took (.emit k)) :
    running (m :: h) = running h + 1 := by rw [running, hm]

theorem running_refused (hm : m.happening = .refused action) : running (m :: h) = running h := by
  rw [running, hm]

theorem running_called {e : Nat} {n : ν} {k : κ} (hm : m.happening = .called e n k) :
    running (m :: h) = running h := by rw [running, hm]

theorem running_ended {e : Nat} (hm : m.happening = .ended e) :
    running (m :: h) = running h - 1 := by rw [running, hm]

theorem undertaken_cons_of_ne (hne : running h ≠ 0) (m : Moment κ ν) :
    undertaken (m :: h) = undertaken h := by
  rw [undertaken]
  split
  · exact if_neg hne
  · exact if_neg hne
  · rfl

theorem undertaken_took (hzero : running h = 0) (hm : m.happening = .took action) :
    undertaken (m :: h) = undertaken h ++ [action] := by
  rw [undertaken, hm]
  exact if_pos hzero

theorem undertaken_refused (hzero : running h = 0) (hm : m.happening = .refused action) :
    undertaken (m :: h) = undertaken h ++ [action] := by
  rw [undertaken, hm]
  exact if_pos hzero

end Moments

namespace Proceeds

variable {listeners : Listeners κ ν} {limit : Nat} {deed : Deed κ ν} {h h' : History κ ν}

/-- No emission is left running. -/
theorem running_eq (hp : Proceeds listeners limit deed h h') : running h' = running h := by
  induction hp with
  | idle h => rfl
  | next _ _ ihFirst ihRest => exact ihRest.trans ihFirst
  | register _ haction hm => exact running_took haction hm
  | emit _ hb _ he ih =>
    rw [running_ended he, ih, running_emit hb]
    omega
  | refuse _ hm => exact running_refused hm
  | done _ _ h => rfl
  | call hm _ _ ihResponds ihRest => exact ihRest.trans (ihResponds.trans (running_called hm))
  | leave h => rfl
  | fail h => rfl
  | act _ _ _ ihTaken ihRest => exact ihRest.trans ihTaken
  | stop _ _ ih => exact ih

/-- Nothing that is done within an emission is undertaken outside of any. -/
theorem undertaken_within (hp : Proceeds listeners limit deed h h') (hwithin : 0 < running h) :
    undertaken h' = undertaken h := by
  induction hp with
  | idle h => rfl
  | next first _ ihFirst ihRest =>
    exact (ihRest (first.running_eq ▸ hwithin)).trans (ihFirst hwithin)
  | register _ _ _ => exact undertaken_cons_of_ne (by omega) _
  | @emit _ _ _ h _ _ hb calls _ ih =>
    have hbegun := running_emit (h := h) hb
    have hrunning := calls.running_eq
    rw [undertaken_cons_of_ne (by omega), ih (by omega), undertaken_cons_of_ne (by omega)]
  | refuse _ _ => exact undertaken_cons_of_ne (by omega) _
  | done _ _ h => rfl
  | @call _ _ _ _ _ h _ _ hm responds _ ihResponds ihRest =>
    have hcalled := running_called (h := h) hm
    have hrunning := responds.running_eq
    rw [ihRest (by omega), ihResponds (by omega), undertaken_cons_of_ne (by omega)]
  | leave h => rfl
  | fail h => rfl
  | act _ taken _ ihTaken ihRest =>
    exact (ihRest (taken.running_eq ▸ hwithin)).trans (ihTaken hwithin)
  | stop _ _ ih => exact ih hwithin

/-- An action outside of emissions is undertaken, whatever comes of it. -/
theorem undertaken_action {action : BusAction κ ν}
    (hp : Proceeds listeners limit (.action action) h h') (hzero : running h = 0) :
    undertaken h' = undertaken h ++ [action] := by
  cases hp with
  | register _ _ hm => exact undertaken_took hzero hm
  | refuse _ hm => exact undertaken_refused hzero hm
  | emit _ hb calls _ =>
    have hbegun := running_emit (h := h) hb
    have hrunning := calls.running_eq
    rw [undertaken_cons_of_ne (by omega), calls.undertaken_within (by omega),
      undertaken_took hzero hb]

theorem undertaken_actions {actions : List (BusAction κ ν)}
    (hp : Proceeds listeners limit (.actions actions) h h') (hzero : running h = 0) :
    undertaken h' = undertaken h ++ actions := by
  induction actions generalizing h with
  | nil =>
    cases hp with
    | idle _ => exact (List.append_nil _).symm
  | cons action actions ih =>
    cases hp with
    | next first rest =>
      rw [ih rest (first.running_eq.trans hzero), first.undertaken_action hzero, List.append_assoc]
      rfl

end Proceeds

end History

namespace Dispatch

variable [DecidableEq κ] [DecidableEq ν] {listeners : Listeners κ ν} {limit depth : Nat}

/-- In a state in which registrations come of what has been done, emissions may nest `depth` times
deeper. -/
structure Room (limit depth : Nat) (d : Dispatch κ ν) : Prop where
  recorded : d.Recorded
  running : History.running d.history + depth = limit

/-- What happens to a state leaves as much room. -/
theorem Room.after {d d' : Dispatch κ ν} (h : Room limit depth d)
    (hrecorded : d.Recorded → d'.Recorded) (hnests : Nests depth d d') : Room limit depth d' :=
  ⟨hrecorded h.recorded, by rw [hnests.1]; exact h.running⟩

/-- What is done where emissions may nest so deep is what is to happen. -/
def Enacts (listeners : Listeners κ ν) (limit depth : Nat) : Prop :=
  ∀ action d d', Room limit depth d → perform listeners depth action d = some d' →
    History.Proceeds listeners limit (.action action) d.history d'.history

theorem Enacts.respond (h : Enacts listeners limit depth) (c : Conduct κ ν) {d : Dispatch κ ν}
    (hd : Room limit depth d) :
    History.Proceeds listeners limit (.conduct c) d.history
      (respond (perform listeners depth) c d).history := by
  induction c generalizing d with
  | leave => exact .leave _
  | fail => exact .fail _
  | act action next ih =>
    have hrunning := hd.running
    rw [Dispatch.respond]
    cases htaken : perform listeners depth action d with
    | none =>
      obtain rfl := perform_eq_none htaken
      have hfull : History.running d.history = limit := by omega
      exact .stop hfull (.refuse hfull rfl)
    | some d₁ =>
      have hdepth : depth ≠ 0 := by
        rintro rfl
        cases htaken
      have hd₁ := hd.after (recorded_kept.perform htaken) (nests_kept.perform htaken)
      exact .act (by omega) (h action d d₁ hd htaken) (ih d₁.history hd₁)

theorem Enacts.call (h : Enacts listeners limit depth) (emission : Nat) (kind : κ)
    (audience : List ν) {d : Dispatch κ ν} (hd : Room limit depth d) :
    History.Proceeds listeners limit (.calls emission kind audience) d.history
      (call listeners (perform listeners depth) emission kind audience d).history := by
  induction audience generalizing d with
  | nil => exact .done emission kind _
  | cons n rest ih =>
    have hcalled : Room limit depth (d.note (.called emission n kind)) :=
      ⟨hd.recorded.note nofun, hd.running⟩
    rw [Dispatch.call]
    refine .call rfl (h.respond _ hcalled) (ih (hcalled.after ?_ ?_))
    · exact recorded_kept.responds listeners depth _ _
    · exact nests_kept.responds listeners depth _ _

theorem enacts (listeners : Listeners κ ν) (limit depth : Nat) : Enacts listeners limit depth := by
  induction depth with
  | zero => exact fun _ _ _ _ hd => nomatch hd
  | succ depth ih =>
    intro action d d' hd htaken
    have hrunning := hd.running
    have hroom : History.running d.history < limit := by omega
    cases action with
    | emit k =>
      obtain rfl := Option.some.inj htaken
      -- those who are called are those who are registered by the history
      have haudience : d.bus.audience k =
          History.everywhere d.history ++ History.registered k d.history := by
        rw [Bus.audience, hd.recorded.everywhere, hd.recorded.registered]
      have hbegun : Room limit depth (d.take (.emit k)) := by
        refine ⟨hd.recorded.take _, ?_⟩
        show History.running d.history + 1 + depth = limit
        omega
      refine .emit (b := ⟨.took (.emit k), d.bus⟩) hroom rfl ?_ rfl
      rw [← haudience]
      exact ih.call d.history.length k _ hbegun
    | subscribe k n =>
      obtain rfl := Option.some.inj htaken
      exact .register hroom nofun rfl
    | unsubscribe k n =>
      obtain rfl := Option.some.inj htaken
      exact .register hroom nofun rfl
    | onAll n =>
      obtain rfl := Option.some.inj htaken
      exact .register hroom nofun rfl

theorem step_proceeds {d : Dispatch κ ν} (hd : Room limit limit d) (action : BusAction κ ν) :
    History.Proceeds listeners limit (.action action) d.history
      (step listeners limit d action).history := by
  rw [step]
  cases htaken : perform listeners limit action d with
  | none =>
    have hrunning := hd.running
    have hzero := perform_eq_none htaken
    exact .refuse (by omega) rfl
  | some d' => exact enacts listeners limit limit action d d' hd htaken

/-- Whatever listeners do, the history of a run is the one that its actions bring about. -/
theorem run_proceeds (listeners : Listeners κ ν) (limit : Nat) (actions : List (BusAction κ ν)) :
    History.Proceeds listeners limit (.actions actions) []
      (run listeners limit actions).history := by
  have hstart : Room limit limit ({} : Dispatch κ ν) :=
    ⟨⟨rfl, fun _ => rfl, throughout_nil _⟩, Int.zero_add _⟩
  show History.Proceeds listeners limit _ ({} : Dispatch κ ν).history _
  unfold run
  generalize ({} : Dispatch κ ν) = d at hstart ⊢
  induction actions generalizing d with
  | nil => exact .idle _
  | cons action actions ih =>
    refine .next (step_proceeds hstart action) (ih _ (hstart.after ?_ ?_))
    · exact recorded_kept.step listeners d action
    · exact nests_kept.step listeners d action

end Dispatch
end Stacking
