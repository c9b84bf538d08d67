import Mathlib

/-!
# Files as lists of bytes

A file is the list of its bytes. Reading past the end gives fewer bytes, writing past the end
fills the gap with zeros, and changing the size cuts the file off or appends zeros.

Two files are compared byte by byte (`ext_byteAt`): `byteAt` is zero past the end, so that it
goes through `resize` and `writeAt` without a case for the gap.
-/

open List

namespace ByteFile

variable {α : Type*} [Zero α]

/-- The byte at a position, zero past the end. -/
def byteAt (a : List α) (i : Nat) : α := a.getD i 0

/-- Read up to `size` bytes from a position on. -/
def readAt (a : List α) (pos size : Nat) : List α := (a.drop pos).take size

/-- Change the size. -/
def resize (a : List α) (n : Nat) : List α := a.take n ++ List.replicate (n - a.length) 0

/-- Write at a position. -/
def writeAt (a : List α) (pos : Nat) (d : List α) : List α :=
  if d = [] then a else resize a pos ++ d ++ a.drop (pos + d.length)

variable {a : List α}

theorem byteAt_of_le {i : Nat} (h : a.length ≤ i) : byteAt a i = 0 := by
  rw [byteAt, getD_eq_default _ _ h]

theorem byteAt_eq_getElem {i : Nat} (h : i < a.length) : byteAt a i = a[i] := by
  rw [byteAt, getD_eq_getElem _ _ h]

theorem ext_byteAt {b : List α} (hl : a.length = b.length)
    (h : ∀ i, i < a.length → byteAt a i = byteAt b i) : a = b := by
  refine ext_getElem hl fun i ha hb => ?_
  rw [← byteAt_eq_getElem ha, ← byteAt_eq_getElem hb]
  exact h i ha

theorem byteAt_append (a b : List α) (i : Nat) :
    byteAt (a ++ b) i = if i < a.length then byteAt a i else byteAt b (i - a.length) := by
  split
  · rename_i h
    rw [byteAt, getD_append _ _ _ _ h, byteAt]
  · rename_i h
    rw [byteAt, getD_append_right _ _ _ _ (Nat.le_of_not_lt h), byteAt]

theorem byteAt_replicate (n i : Nat) : byteAt (List.replicate n (0 : α)) i = 0 := by
  by_cases h : i < n
  · rw [byteAt_eq_getElem (by simpa using h), getElem_replicate]
  · exact byteAt_of_le (by simpa using h)

theorem byteAt_take {n i : Nat} (h : i < n) : byteAt (a.take n) i = byteAt a i := by
  by_cases hi : i < a.length
  · rw [byteAt_eq_getElem (by rw [length_take]; omega), byteAt_eq_getElem hi,
      getElem_take]
  · rw [byteAt_of_le (by rw [length_take]; omega), byteAt_of_le (Nat.le_of_not_lt hi)]

theorem byteAt_drop (a : List α) (n i : Nat) : byteAt (a.drop n) i = byteAt a (n + i) := by
  by_cases hi : n + i < a.length
  · rw [byteAt_eq_getElem (by rw [length_drop]; omega), byteAt_eq_getElem hi,
      getElem_drop]
  · rw [byteAt_of_le (by rw [length_drop]; omega), byteAt_of_le (Nat.le_of_not_lt hi)]

@[simp] theorem length_resize (a : List α) (n : Nat) : (resize a n).length = n := by
  rw [resize, length_append, length_take, length_replicate]
  omega

theorem byteAt_resize {n i : Nat} (h : i < n) : byteAt (resize a n) i = byteAt a i := by
  rw [resize, byteAt_append]
  split
  · exact byteAt_take h
  · rename_i hi
    rw [length_take] at hi
    rw [byteAt_replicate, byteAt_of_le (by omega)]

theorem resize_of_le {n : Nat} (h : n ≤ a.length) : resize a n = a.take n := by
  rw [resize, Nat.sub_eq_zero_of_le h, replicate_zero, append_nil]

theorem length_writeAt {d : List α} {pos : Nat} (hd : d ≠ []) :
    (writeAt a pos d).length = max a.length (pos + d.length) := by
  rw [writeAt, if_neg hd, length_append, length_append, length_resize, length_drop]
  omega

theorem byteAt_writeAt {d : List α} {pos : Nat} (hd : d ≠ []) (i : Nat) :
    byteAt (writeAt a pos d) i =
      if pos ≤ i ∧ i < pos + d.length then byteAt d (i - pos) else byteAt a i := by
  rw [writeAt, if_neg hd, byteAt_append, byteAt_append, length_append, length_resize]
  by_cases hlt : i < pos
  · rw [if_pos (by omega), if_pos hlt, if_neg (by omega), byteAt_resize hlt]
  by_cases hmid : i < pos + d.length
  · rw [if_pos hmid, if_neg hlt, if_pos (by omega)]
  · rw [if_neg hmid, if_neg (by omega), byteAt_drop]
    congr 1
    omega

end ByteFile
