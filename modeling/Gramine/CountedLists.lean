import Mathlib

/-!
# Lists with counters

Entries are kept in one list for each owner, and next to each list is a counter. An entry is only
in the list of its owner, and only once.
-/

open List

namespace CountedLists

variable {I K : Type*} [DecidableEq I] [DecidableEq K] {owner : I → K} {list list' : K → List I}
  {count count' : K → Nat} {i : I}

structure Valid (owner : I → K) (list : K → List I) (count : K → Nat) : Prop where
  nodup : ∀ k, (list k).Nodup
  owner_eq : ∀ k, ∀ i ∈ list k, owner i = k
  count_eq : ∀ k, count k = (list k).length

omit [DecidableEq I] in
/-- What is in its owner's list after `i` was appended to the list of its owner. -/
theorem mem_insert {x : I} (hlist : ∀ k, list' k = list k ++ if k = owner i then [i] else []) :
    x ∈ list' (owner x) ↔ x ∈ list (owner x) ∨ x = i := by
  rw [hlist, mem_append]
  split <;> grind

namespace Valid

omit [DecidableEq I] [DecidableEq K] in
theorem nothing : Valid owner (fun _ => []) fun _ => 0 := by
  constructor <;> simp

omit [DecidableEq I] [DecidableEq K] in
theorem mem (h : Valid owner list count) {k : K} (hi : i ∈ list k) : i ∈ list (owner i) := by
  rwa [h.owner_eq k i hi]

omit [DecidableEq I] in
theorem insert (h : Valid owner list count) (hout : i ∉ list (owner i))
    (hlist : ∀ k, list' k = list k ++ if k = owner i then [i] else [])
    (hcount : ∀ k, count' k = count k + if k = owner i then 1 else 0) :
    Valid owner list' count' where
  nodup k := by
    rw [hlist]
    split
    · rename_i hk
      subst hk
      exact nodup_append.2 ⟨h.nodup _, nodup_singleton i, fun a ha b hb => by
        rintro rfl
        exact hout (mem_singleton.1 hb ▸ ha)⟩
    · rw [append_nil]
      exact h.nodup k
  owner_eq k j hj := by
    rw [hlist] at hj
    rcases mem_append.1 hj with hold | hnew
    · exact h.owner_eq k j hold
    split at hnew
    · rename_i hk
      rw [mem_singleton.1 hnew, hk]
    · cases hnew
  count_eq k := by
    rw [hlist, hcount, h.count_eq, length_append]
    split <;> rfl

omit [DecidableEq K] in
theorem mem_erase (h : Valid owner list count) {x : I} (hlist : ∀ k, list' k = (list k).erase i) :
    x ∈ list' (owner x) ↔ x ∈ list (owner x) ∧ x ≠ i := by
  rw [hlist, (h.nodup _).mem_erase_iff, and_comm]

theorem erase (h : Valid owner list count) (hin : i ∈ list (owner i))
    (hlist : ∀ k, list' k = (list k).erase i)
    (hcount : ∀ k, count' k = count k - if k = owner i then 1 else 0) :
    Valid owner list' count' where
  nodup k := by
    rw [hlist]
    exact (h.nodup k).erase i
  owner_eq k j hj := by
    rw [hlist] at hj
    exact h.owner_eq k j (mem_of_mem_erase hj)
  count_eq k := by
    rw [hlist, hcount, h.count_eq]
    split
    · rename_i hk
      subst hk
      rw [length_erase_of_mem hin]
    · rename_i hk
      have hout : i ∉ list k := fun hi => hk (h.owner_eq k i hi).symm
      rw [erase_of_not_mem hout, Nat.sub_zero]

end Valid

end CountedLists
