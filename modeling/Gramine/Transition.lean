import Mathlib

/-!
# Runs of a transition system

A component of the library OS is modelled as a set of initial states and a
labelled step relation; a *run* takes any number of steps in any order. This
module has the induction every safety statement rests on (`Reachable.invariant`),
the runs whose steps all meet a condition (`Guarded`), and runs that are computed
from a list of labels. It knows nothing about the components.
-/

namespace Transition

variable {S A : Type*}

/-- The states some run ends in: an initial state, or a step away from one. -/
inductive Reachable (init : S → Prop) (step : S → A → S → Prop) : S → Prop
  | init {s : S} (h : init s) : Reachable init step s
  | step {s s' : S} (a : A) (hr : Reachable init step s) (hs : step s a s') :
      Reachable init step s'

/-- The steps that also meet a condition on the state before and the label. -/
def Guarded (guard : S → A → Prop) (step : S → A → S → Prop) (s : S) (a : A) (s' : S) : Prop :=
  guard s a ∧ step s a s'

namespace Reachable
variable {init : S → Prop} {step : S → A → S → Prop}

/-- **The invariant rule**: what holds initially and is preserved by every step
holds in every reachable state. -/
theorem invariant {inv : S → Prop} (hinit : ∀ s, init s → inv s)
    (hstep : ∀ s a s', inv s → step s a s' → inv s') {s : S} (h : Reachable init step s) :
    inv s := by
  induction h with
  | init h => exact hinit _ h
  | step a _ hs ih => exact hstep _ a _ ih hs

/-- A run that is computed. -/
theorem of_foldlM (next : S → A → Option S) (hnext : ∀ s a s', next s a = some s' → step s a s')
    {s s' : S} (h : Reachable init step s) (l : List A) (hl : l.foldlM next s = some s') :
    Reachable init step s' := by
  induction l generalizing s with
  | nil =>
    obtain rfl := Option.some.inj hl
    exact h
  | cons a l ih =>
    obtain ⟨s1, hs1, hl⟩ := Option.bind_eq_some_iff.1 hl
    exact ih (.step a h (hnext s a s1 hs1)) hl

theorem mono {step' : S → A → S → Prop} (hstep : ∀ s a s', step s a s' → step' s a s') {s : S}
    (h : Reachable init step s) : Reachable init step' s := by
  induction h with
  | init h => exact .init h
  | step a _ hs ih => exact .step a ih (hstep _ a _ hs)

theorem of_guarded {guard : S → A → Prop} {s : S}
    (h : Reachable init (Guarded guard step) s) : Reachable init step s :=
  h.mono fun _ _ _ hs => hs.2

end Reachable

end Transition
