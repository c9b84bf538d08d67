import Mathlib

/-!
# Computations that can fail

How a computation in `Except` that returned is taken apart, statement by statement.
-/

namespace Fallible

variable {ε α β : Type}

/-- Peel the first statement off a computation that returned. -/
theorem bind_eq_ok {x : Except ε α} {k : α → Except ε β} {r : β} :
    x >>= k = .ok r ↔ ∃ a, x = .ok a ∧ k a = .ok r := by
  cases x with
  | error e | ok a => simp [bind, Except.bind]

/-- The computation gave `a`, if what went wrong does not matter. -/
theorem toOption_eq_some {x : Except ε α} {a : α} : x.toOption = some a ↔ x = .ok a := by
  cases x with
  | error e | ok b => simp [Except.toOption]

end Fallible
