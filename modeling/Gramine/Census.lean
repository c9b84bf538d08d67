import Mathlib

/-!
# Counting threads

A system of finitely many threads, each at some place of its program. Shared counters
of the program stand for numbers of threads at certain places; the equations between
them are preserved because a step moves one thread. The places are any type.
-/

open Function

namespace Census

open Finset

variable {T L : Type*} [Fintype T] {p q : L → Bool} {pc : T → L} {t : T} {l : L}

/-- The number of threads at a place that satisfies `p`. -/
def count (p : L → Bool) (pc : T → L) : Nat := (univ.filter fun t => p (pc t)).card

theorem count_eq_zero : count p pc = 0 ↔ ∀ t, p (pc t) = false := by
  simp [count]

theorem count_pos (h : p (pc t) = true) : 0 < count p pc :=
  card_pos.2 ⟨t, by simpa using h⟩

theorem exists_of_count_ne_zero (h : count p pc ≠ 0) : ∃ t, p (pc t) = true := by
  obtain ⟨t, ht⟩ := card_pos.1 (Nat.pos_of_ne_zero h)
  exact ⟨t, by simpa using ht⟩

theorem count_le_card (p : L → Bool) (pc : T → L) : count p pc ≤ Fintype.card T :=
  card_le_univ _

theorem count_congr {pc' : T → L} (h : ∀ t, p (pc' t) = p (pc t)) : count p pc' = count p pc := by
  simp [count, h]

theorem count_add_count_le (h : ∀ l, p l = true → q l = false) (pc : T → L) :
    count p pc + count q pc ≤ Fintype.card T := by
  classical
  have hdisj : Disjoint (univ.filter fun t => p (pc t)) (univ.filter fun t => q (pc t)) := by
    refine disjoint_filter.2 fun t _ hp hq => ?_
    rw [h _ hp] at hq
    cases hq
  rw [count, count, ← card_union_of_disjoint hdisj]
  exact card_le_univ _

section Update
variable [DecidableEq T]

/-- **A thread moves**: it is counted where it arrives, and no longer where it was. -/
theorem count_update (p : L → Bool) (pc : T → L) (t : T) (l : L) :
    count p (update pc t l) + (if p (pc t) then 1 else 0) = count p pc + if p l then 1 else 0 := by
  have hsplit : ∀ pc' : T → L, count p pc' =
      (univ.filter fun u => u ≠ t ∧ p (pc' u) = true).card + if p (pc' t) then 1 else 0 := by
    intro pc'
    by_cases ht : p (pc' t) = true
    · have hinsert : (univ.filter fun u => p (pc' u) = true) =
          insert t (univ.filter fun u => u ≠ t ∧ p (pc' u) = true) := by
        ext u
        by_cases hu : u = t
        · subst hu
          simp [ht]
        · simp [hu]
      rw [count, hinsert, card_insert_of_notMem (by simp), if_pos ht]
    · have hsame : (univ.filter fun u => p (pc' u) = true) =
          univ.filter fun u => u ≠ t ∧ p (pc' u) = true := by
        refine filter_congr fun u _ => ⟨fun hu => ⟨?_, hu⟩, fun hu => hu.2⟩
        rintro rfl
        exact ht hu
      rw [count, hsame, if_neg ht, Nat.add_zero]
  have hrest : (univ.filter fun u => u ≠ t ∧ p (update pc t l u) = true) =
      univ.filter fun u => u ≠ t ∧ p (pc u) = true := by
    refine filter_congr fun u _ => ?_
    constructor
    · rintro ⟨hu, hp⟩
      rw [update_of_ne hu] at hp
      exact ⟨hu, hp⟩
    · rintro ⟨hu, hp⟩
      rw [update_of_ne hu]
      exact ⟨hu, hp⟩
  rw [hsplit (update pc t l), hsplit pc, hrest, update_self]
  omega

end Update

end Census
