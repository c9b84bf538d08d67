import Mathlib

/-!
# The window of a ring buffer

A ring buffer of capacity `n` keeps two counters that only its users move: elements are written at
`last`, read at `first`, and the counters are taken modulo `n` when they index the slots. The
elements in the buffer are the slots of the window `[first, last)`.
-/

open List Function

namespace RingWindow

variable {α : Type*}

/-- The elements between the counters, oldest first. -/
def window (n : Nat) (slots : Nat → α) (first last : Nat) : List α :=
  (List.range' first (last - first)).map fun i => slots (i % n)

@[simp] theorem length_window (n : Nat) (slots : Nat → α) (first last : Nat) :
    (window n slots first last).length = last - first := by
  rw [window, length_map, length_range']

variable {first last n : Nat} {slots : Nat → α}

theorem window_eq_nil_iff : window n slots first last = [] ↔ last ≤ first := by
  rw [← length_eq_zero_iff, length_window, Nat.sub_eq_zero_iff_le]

/-- The element read at `first` is the oldest one. -/
theorem window_pop (h : first < last) :
    window n slots first last = slots (first % n) :: window n slots (first + 1) last := by
  have hlen : last - first = last - (first + 1) + 1 := by omega
  rw [window, hlen, range'_succ, map_cons, window]

/-- Two counters less than the capacity apart use different slots. -/
theorem mod_ne_of_lt {i : Nat} (hi : i < last) (hn : last < i + n) : i % n ≠ last % n := by
  intro heq
  have hdvd : n ∣ last - i := Nat.dvd_of_mod_eq_zero (Nat.sub_mod_eq_zero_of_mod_eq heq.symm)
  have hzero : last - i = 0 := Nat.eq_zero_of_dvd_of_lt hdvd (by omega)
  omega

/-- An element written at `last` becomes the newest one, if the buffer is not full. -/
theorem window_push (hle : first ≤ last) (hfull : last - first < n) (x : α) :
    window n (update slots (last % n) x) first (last + 1) = window n slots first last ++ [x] := by
  have hlen : last + 1 - first = last - first + 1 := by omega
  have hlast : first + 1 * (last - first) = last := by omega
  have hold : ∀ i ∈ List.range' first (last - first),
      update slots (last % n) x (i % n) = slots (i % n) := by
    intro i hi
    have hmem := mem_range'_1.1 hi
    have hne : i % n ≠ last % n := mod_ne_of_lt (by omega) (by omega)
    exact update_of_ne hne x slots
  rw [window, hlen, range'_concat, map_append, hlast, map_cons, map_nil,
    update_self, map_congr_left hold, window]

theorem window_sub (hn : n ≤ first) (hle : first ≤ last) :
    window n slots (first - n) (last - n) = window n slots first last := by
  have hlen : last - n - (first - n) = last - first := by omega
  have hrange : List.range' first (last - first) =
      (List.range' (first - n) (last - first)).map (n + ·) := by
    rw [map_add_range', Nat.add_sub_cancel' hn]
  rw [window, window, hlen, hrange, map_map]
  refine map_congr_left fun i _ => ?_
  rw [comp_apply, Nat.add_mod_left]

end RingWindow
