import Stacking.Table

/-!
# Event bus

Listeners register for one kind of event or for every event. An event goes to the listeners that
are registered when it is emitted: those for every event first, then those for its kind, each as
often as it is registered and in the order of registration. What a listener does when it is called,
further registrations and emissions included, and whether it fails, has no effect on who else is
called. Emissions nest only so deep: listeners at the deepest level are called, but fail as soon as
they act. A history is kept of all that happens.
-/

namespace Stacking

/-- The registrations, for kinds of event `κ` and listeners `ν`. -/
structure Bus (κ ν : Type) where
  everywhere : List ν := []
  byKind : Table κ (List ν) := {}

namespace Bus

variable {κ ν : Type} [DecidableEq κ] [DecidableEq ν]

/-- The listeners registered for one kind of event. -/
def registered (b : Bus κ ν) (k : κ) : List ν := (b.byKind.get? k).getD []

/-- Registers a listener for one kind of event. -/
def subscribe (b : Bus κ ν) (k : κ) (n : ν) : Bus κ ν :=
  { b with byKind := b.byKind.put k (b.registered k ++ [n]) }

/-- Takes back the earliest registration of a listener for one kind of event, if there is one. -/
def unsubscribe (b : Bus κ ν) (k : κ) (n : ν) : Bus κ ν :=
  { b with byKind := b.byKind.put k ((b.registered k).erase n) }

/-- Registers a listener for every event. -/
def onAll (b : Bus κ ν) (n : ν) : Bus κ ν := { b with everywhere := b.everywhere ++ [n] }

/-- Whom an event of a kind goes to. -/
def audience (b : Bus κ ν) (k : κ) : List ν := b.everywhere ++ b.registered k

omit [DecidableEq ν] in
theorem registered_subscribe (b : Bus κ ν) (k k' : κ) (n : ν) :
    (b.subscribe k n).registered k' =
      if k = k' then b.registered k' ++ [n] else b.registered k' := by
  rw [registered, subscribe, Table.get?_put]
  split
  · rename_i hk
    rw [hk]
    rfl
  · rfl

theorem registered_unsubscribe (b : Bus κ ν) (k k' : κ) (n : ν) :
    (b.unsubscribe k n).registered k' =
      if k = k' then (b.registered k').erase n else b.registered k' := by
  rw [registered, unsubscribe, Table.get?_put]
  split
  · rename_i hk
    rw [hk]
    rfl
  · rfl

end Bus

/-! ## Listeners -/

/-- What can be done with a bus. -/
inductive BusAction (κ ν : Type) where
  | subscribe (kind : κ) (listener : ν)
  | unsubscribe (kind : κ) (listener : ν)
  | onAll (listener : ν)
  | emit (kind : κ)
deriving DecidableEq

/-- The registrations after an action; an emission leaves them as they are. -/
def Bus.after {κ ν : Type} [DecidableEq κ] [DecidableEq ν] (b : Bus κ ν) : BusAction κ ν → Bus κ ν
  | .subscribe k n => b.subscribe k n
  | .unsubscribe k n => b.unsubscribe k n
  | .onAll n => b.onAll n
  | .emit _ => b

/-- What happens on a bus. An emission is known by the number of moments before it began. -/
inductive Happening (κ ν : Type) where
  /-- An action is carried out; if it is an emission, it begins. -/
  | took (action : BusAction κ ν)
  /-- An action is not carried out, since emissions are nested as deep as they may be. -/
  | refused (action : BusAction κ ν)
  /-- An emission calls a listener. -/
  | called (emission : Nat) (listener : ν) (kind : κ)
  /-- An emission has called everyone it goes to. -/
  | ended (emission : Nat)
deriving DecidableEq

/-- An entry of the history of a bus: what happened, and the registrations at that time. -/
structure Moment (κ ν : Type) where
  happening : Happening κ ν
  bus : Bus κ ν

/-- All that has happened on a bus, the latest first. -/
abbrev History (κ ν : Type) := List (Moment κ ν)

/-- What a listener does when it is called: it comes to an end, it fails, or it acts on the bus and
goes on as it sees fit, knowing all that has happened by then. -/
inductive Conduct (κ ν : Type) where
  | leave
  | fail
  | act (action : BusAction κ ν) (next : History κ ν → Conduct κ ν)

/-- What every listener does when it is called, knowing all that has happened by then, its own call
the latest. -/
abbrev Listeners (κ ν : Type) := ν → History κ ν → Conduct κ ν

/-- A line of a script: the listener acts on the bus, or it fails. -/
inductive Reaction (κ ν : Type) where
  | act (action : BusAction κ ν)
  | fail

/-- Following a script, whatever happens: up to its end, or to the first line at which to fail. -/
def Conduct.ofScript {κ ν : Type} : List (Reaction κ ν) → Conduct κ ν
  | [] => .leave
  | .fail :: _ => .fail
  | .act action :: rest => .act action fun _ => ofScript rest

/-! ## Dispatch -/

/-- A bus with its history. -/
structure Dispatch (κ ν : Type) where
  bus : Bus κ ν := {}
  history : History κ ν := []

namespace Dispatch

variable {κ ν : Type}

/-- The calls made so far, the latest first. -/
def calls (d : Dispatch κ ν) : List (ν × κ) :=
  d.history.filterMap fun m =>
    match m.happening with
    | .called _ n k => some (n, k)
    | _ => none

/-- Enters into the history what happens. -/
def note (d : Dispatch κ ν) (h : Happening κ ν) : Dispatch κ ν :=
  { d with history := ⟨h, d.bus⟩ :: d.history }

/-- Lets a listener do what it does, up to where it ends, fails or is refused an action. -/
def respond (perform : BusAction κ ν → Dispatch κ ν → Option (Dispatch κ ν)) :
    Conduct κ ν → Dispatch κ ν → Dispatch κ ν
  | .leave, d => d
  | .fail, d => d
  | .act action next, d =>
    match perform action d with
    | none => d.note (.refused action)
    | some d => respond perform (next d.history) d

/-- Calls each listener of an audience in turn. -/
def call (listeners : Listeners κ ν)
    (perform : BusAction κ ν → Dispatch κ ν → Option (Dispatch κ ν)) (emission : Nat) (kind : κ) :
    List ν → Dispatch κ ν → Dispatch κ ν
  | [], d => d
  | n :: rest, d =>
    let d := d.note (.called emission n kind)
    call listeners perform emission kind rest (respond perform (listeners n d.history) d)

variable [DecidableEq κ] [DecidableEq ν]

/-- Carries out an action as far as it concerns registrations. -/
def take (d : Dispatch κ ν) (action : BusAction κ ν) : Dispatch κ ν :=
  { d with bus := d.bus.after action }.note (.took action)

/-- Carries out an action from which emissions may nest as deep as the first argument says; at depth
zero nothing can be done. -/
def perform (listeners : Listeners κ ν) :
    Nat → BusAction κ ν → Dispatch κ ν → Option (Dispatch κ ν)
  | 0, _, _ => none
  | depth + 1, .emit k, d =>
    let emission := d.history.length
    let d := call listeners (perform listeners depth) emission k (d.bus.audience k)
      (d.take (.emit k))
    some (d.note (.ended emission))
  | _ + 1, action, d => some (d.take action)

/-- Carries out an action that no listener takes, with emissions nesting no deeper than `limit`. -/
def step (listeners : Listeners κ ν) (limit : Nat) (d : Dispatch κ ν) (action : BusAction κ ν) :
    Dispatch κ ν :=
  (perform listeners limit action d).getD (d.note (.refused action))

/-- Carries out actions one after the other on a bus where nobody is registered. -/
def run (listeners : Listeners κ ν) (limit : Nat) (actions : List (BusAction κ ν)) :
    Dispatch κ ν :=
  actions.foldl (step listeners limit) {}

/-- How deep emissions may nest. -/
def maxDepth : Nat := 331

/-- Carries out an action that no listener takes, where listeners follow scripts. -/
def act (script : ν → List (Reaction κ ν)) (action : BusAction κ ν) (d : Dispatch κ ν) :
    Dispatch κ ν :=
  step (fun n _ => .ofScript (script n)) maxDepth d action

end Dispatch
end Stacking
