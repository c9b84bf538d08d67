import Mathlib

/-!
# Rounding to multiples

Numbers are rounded to multiples of `p`, a divisor of the size `w` of a word. Rounding down is that
of natural numbers; rounding up adds `p - 1` modulo `w` first, so that a number in the last multiple
of `p` below `w` is rounded up to `0`.
-/

namespace Rounding

variable {w p m n : Nat}

/-- The last multiple of `p` up to `n`. -/
def down (p n : Nat) : Nat := n / p * p

/-- The first multiple of `p` from `n` on, in words of size `w`. -/
def up (w p n : Nat) : Nat := (n + p - 1) % w / p * p

theorem dvd_down (p n : Nat) : p ∣ down p n := Nat.dvd_mul_left _ _

theorem dvd_up (w p n : Nat) : p ∣ up w p n := Nat.dvd_mul_left _ _

theorem down_le (p n : Nat) : down p n ≤ n := Nat.div_mul_le_self n p

theorem lt_down_add (hp : 0 < p) (n : Nat) : n < down p n + p := by
  have hdm := Nat.div_add_mod n p
  have hlt := Nat.mod_lt n hp
  rw [down, Nat.mul_comm]
  omega

theorem down_mono (p : Nat) (h : m ≤ n) : down p m ≤ down p n :=
  Nat.mul_le_mul_right p (Nat.div_le_div_right h)

/-- A multiple of `p` up to `n` is not above the last one. -/
theorem le_down (h : p ∣ m) (hle : m ≤ n) : m ≤ down p n := by
  calc m = down p m := (Nat.div_mul_cancel h).symm
    _ ≤ down p n := down_mono p hle

/-- A multiple of `p` above `n` is above the last one by at least `p`. -/
theorem down_add_le (hp : 0 < p) (h : p ∣ m) (hlt : n < m) : down p n + p ≤ m := by
  obtain ⟨k, rfl⟩ := h
  have hk : n / p < k := (Nat.div_lt_iff_lt_mul hp).2 (by rwa [Nat.mul_comm])
  calc down p n + p = p * (n / p + 1) := by rw [down, Nat.mul_comm, Nat.mul_succ]
    _ ≤ p * k := Nat.mul_le_mul_left p hk

section Word
variable (hp : 0 < p) (hdvd : p ∣ w)
include hp hdvd

/-- Below the last multiple of `p`, nothing wraps around. -/
theorem up_eq (hn : n ≤ w - p) : up w p n = down p (n + p - 1) := by
  rcases Nat.eq_zero_or_pos w with rfl | hw
  · rw [up, down, Nat.mod_zero]
  · have hle : p ≤ w := Nat.le_of_dvd hw hdvd
    rw [up, down, Nat.mod_eq_of_lt (by omega)]

theorem le_up (hn : n ≤ w - p) : n ≤ up w p n := by
  rw [up_eq hp hdvd hn]
  have := lt_down_add hp (n + p - 1)
  omega

theorem up_lt_add (hn : n ≤ w - p) : up w p n < n + p := by
  rw [up_eq hp hdvd hn]
  have := down_le p (n + p - 1)
  omega

theorem up_mono (hmn : m ≤ n) (hn : n ≤ w - p) : up w p m ≤ up w p n := by
  rw [up_eq hp hdvd hn, up_eq hp hdvd (hmn.trans hn)]
  exact down_mono p (by omega)

/-- In the last multiple of `p`, rounding up gives `0`. -/
theorem up_eq_zero (hn : w - p < n) (hlt : n < w) : up w p n = 0 := by
  have hle : p ≤ w := Nat.le_of_dvd (by omega) hdvd
  have hmod : (n + p - 1) % w = n + p - 1 - w := by
    rw [Nat.mod_eq_sub_mod (by omega), Nat.mod_eq_of_lt (by omega)]
  rw [up, Nat.div_eq_of_lt (by omega), zero_mul]

/-- A number is not above what it is rounded up to exactly if it is not in the last multiple of
`p`. -/
theorem le_up_iff (hlt : n < w) : n ≤ up w p n ↔ n ≤ w - p := by
  constructor
  · intro h
    by_contra hn
    rw [up_eq_zero hp hdvd (by omega) hlt] at h
    omega
  · exact le_up hp hdvd

theorem up_le (hlt : n < w) : up w p n ≤ w - p := by
  have hup : up w p n < w := by
    refine lt_of_le_of_lt (down_le p _) (Nat.mod_lt _ (by omega))
  have h := down_add_le hp hdvd hup
  have heq : down p (up w p n) = up w p n := Nat.div_mul_cancel (dvd_up w p n)
  omega

/-- A multiple of `p` is rounded up to itself. -/
theorem up_of_dvd (hn : p ∣ n) (hlt : n < w) : up w p n = n := by
  have hle : n + p ≤ w := by
    have h := down_add_le hp hdvd hlt
    rwa [down, Nat.div_mul_cancel hn] at h
  have hge := le_up hp hdvd (n := n) (by omega)
  have hlt' := up_lt_add hp hdvd (n := n) (by omega)
  obtain ⟨j, hj⟩ := Nat.dvd_sub (dvd_up w p n) hn
  rcases Nat.eq_zero_or_pos j with rfl | hpos
  · omega
  · have := Nat.le_mul_of_pos_right p hpos
    omega

end Word

end Rounding
