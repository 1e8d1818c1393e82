import Stacking.Rounding

/-!
# Time scales

What a session asks of a clock: times that can be added, subtracted and compared, and the time that
a number of milliseconds is, unless it is too long for the clock. A host's clock counts seconds in
floating point; the exact scale counts milliseconds.
-/

namespace Stacking

/-- A type of times and durations. Both comparisons are given, since a clock in floating point may
show what is not a number, to which neither holds. -/
class TimeScale (τ : Type) where
  zero : τ
  /-- The duration of a number of milliseconds; there is none if it is too long for the clock. -/
  ofMillis? : Int → Option τ
  add : τ → τ → τ
  sub : τ → τ → τ
  /-- Whether the first time is not after the second. -/
  le : τ → τ → Bool
  /-- Whether the first time is before the second. -/
  lt : τ → τ → Bool

namespace TimeScale

variable {τ : Type} [TimeScale τ]

/-- The earlier of two times. -/
def earlier (a b : τ) : τ := if lt b a then b else a

/-- The later of two times. -/
def later (a b : τ) : τ := if lt a b then b else a

end TimeScale

/-- Seconds in floating point. -/
instance : TimeScale Float where
  zero := 0.0
  ofMillis? n := (nearestFloat? n).map (· / 1000.0)
  add := (· + ·)
  sub := (· - ·)
  le a b := a ≤ b
  lt a b := a < b

/-- Milliseconds, exactly. -/
instance : TimeScale Int where
  zero := 0
  ofMillis? n := some n
  add := (· + ·)
  sub := (· - ·)
  le a b := a ≤ b
  lt a b := a < b

/-! ## The exact scale -/

namespace TimeScale

@[simp] theorem zero_int : (zero : Int) = 0 := rfl

@[simp] theorem add_int (a b : Int) : add a b = a + b := rfl

@[simp] theorem sub_int (a b : Int) : sub a b = a - b := rfl

@[simp] theorem le_int (a b : Int) : le a b = decide (a ≤ b) := rfl

@[simp] theorem lt_int (a b : Int) : lt a b = decide (a < b) := rfl

@[simp] theorem earlier_int (a b : Int) : earlier a b = min a b := by
  simp only [earlier, lt_int, decide_eq_true_eq]
  omega

@[simp] theorem later_int (a b : Int) : later a b = max a b := by
  simp only [later, lt_int, decide_eq_true_eq]
  omega

end TimeScale

end Stacking
