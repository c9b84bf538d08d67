import Mathlib

/-!
# References and locks held by threads

A system of finitely many threads, each at some place of its program. At each place a thread
holds certain references and at most one lock. A reference count is right if it is the number of
references that all threads together hold, and a lock names its owner; both are preserved because a
step moves one thread. The places, the objects and the locks are any types.
-/

open Function

namespace Holders

open Finset

variable {T P R L : Type*}

theorem sum_add_eq_sum_add {ι : Type*} [DecidableEq ι] {s : Finset ι} {f g : ι → Nat} {i : ι}
    (hi : i ∈ s) (h : ∀ x, x ≠ i → f x = g x) :
    ∑ x ∈ s, f x + g i = ∑ x ∈ s, g x + f i := by
  have hrest : ∑ x ∈ s.erase i, f x = ∑ x ∈ s.erase i, g x :=
    sum_congr rfl fun x hx => h x (ne_of_mem_erase hx)
  rw [← sum_erase_add s f hi, ← sum_erase_add s g hi, hrest, Nat.add_right_comm]

section References
variable [Fintype T] [DecidableEq R] {refs : P → List R} {pc : T → P} {t : T} {p : P} {r : R}

/-- The number of references to an object that all threads together hold. -/
def total (refs : P → List R) (pc : T → P) (r : R) : Nat := ∑ t, (refs (pc t)).count r

theorem count_le_total (refs : P → List R) (pc : T → P) (t : T) (r : R) :
    (refs (pc t)).count r ≤ total refs pc r :=
  single_le_sum (f := fun u => (refs (pc u)).count r) (fun _ _ => Nat.zero_le _)
    (mem_univ t)

theorem total_pos (h : r ∈ refs (pc t)) : 0 < total refs pc r :=
  lt_of_lt_of_le (List.count_pos_iff.2 h) (count_le_total refs pc t r)

theorem total_eq_zero (h : ∀ t, r ∉ refs (pc t)) : total refs pc r = 0 :=
  sum_eq_zero fun t _ => List.count_eq_zero.2 (h t)

/-- **A thread moves**: its new references are counted, and its old ones no longer. -/
theorem total_update [DecidableEq T] (refs : P → List R) (pc : T → P) (t : T) (p : P) (r : R) :
    total refs (update pc t p) r + (refs (pc t)).count r = total refs pc r + (refs p).count r := by
  have hsum := sum_add_eq_sum_add (mem_univ t) (f := fun u =>
    (refs (update pc t p u)).count r) (g := fun u => (refs (pc u)).count r) fun u hu => by
      rw [update_of_ne hu]
  rwa [update_self] at hsum

end References

section Locks
variable {holds : P → Option L} {pc : T → P} {lock : L → Option T} {t u : T} {l : L} {p : P}

/-- Each lock names the thread that holds it. -/
def Owned (holds : P → Option L) (pc : T → P) (lock : L → Option T) : Prop :=
  ∀ t l, lock l = some t ↔ holds (pc t) = some l

/-- **Mutual exclusion**. -/
theorem Owned.unique (h : Owned holds pc lock) (ht : holds (pc t) = some l)
    (hu : holds (pc u) = some l) : t = u :=
  Option.some.inj (((h t l).2 ht).symm.trans ((h u l).2 hu))

variable [DecidableEq T]

theorem Owned.keep (h : Owned holds pc lock) (hp : holds p = holds (pc t)) :
    Owned holds (update pc t p) lock := by
  intro u l
  by_cases hu : u = t
  · subst hu
    rw [update_self, hp]
    exact h u l
  · rw [update_of_ne hu]
    exact h u l

variable [DecidableEq L]

theorem Owned.acquire (h : Owned holds pc lock) (hfree : lock l = none)
    (hnone : holds (pc t) = none) (hp : holds p = some l) :
    Owned holds (update pc t p) (update lock l (some t)) := by
  intro u k
  by_cases hu : u = t
  · subst hu
    rw [update_self, hp]
    by_cases hk : k = l
    · simp [hk]
    · rw [update_of_ne hk, h u k, hnone]
      simp [Ne.symm hk]
  · rw [update_of_ne hu, ← h u k]
    by_cases hk : k = l
    · subst hk
      simp [hfree, Ne.symm hu]
    · rw [update_of_ne hk]

theorem Owned.release (h : Owned holds pc lock) (hl : holds (pc t) = some l) (hp : holds p = none) :
    Owned holds (update pc t p) (update lock l none) := by
  intro u k
  by_cases hu : u = t
  · subst hu
    rw [update_self, hp]
    by_cases hk : k = l
    · simp [hk]
    · rw [update_of_ne hk, h u k, hl]
      simp [Ne.symm hk]
  · rw [update_of_ne hu, ← h u k]
    by_cases hk : k = l
    · subst hk
      have howner := (h t k).2 hl
      simp [howner, Ne.symm hu]
    · rw [update_of_ne hk]

end Locks

end Holders
