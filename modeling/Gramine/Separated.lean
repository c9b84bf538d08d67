import Mathlib

/-!
# Lists joined with a separator

A list of lists, none of which contains the separator, written one after another with
one separator between them. `List.splitOn` takes such a list apart again; here is how
joining goes together with appending, and what it means for the joined lists that one
list of lists begins with another (`isPrefix_iff`).
-/

open List

namespace Separated
variable {α : Type*} {x : α} {a b : List (List α)} {l : List α}

/-- The lists, with `x` between them. -/
def join (x : α) (a : List (List α)) : List α := [x].intercalate a

@[simp] theorem join_nil : join x ([] : List (List α)) = [] := rfl

@[simp] theorem join_singleton : join x [l] = l := by
  simp [join]

theorem join_cons (h : a ≠ []) : join x (l :: a) = l ++ x :: join x a := by
  rw [join, intercalate_cons_of_ne_nil h, append_assoc]
  rfl

theorem join_append (ha : a ≠ []) (hb : b ≠ []) : join x (a ++ b) = join x a ++ x :: join x b := by
  induction a with
  | nil => exact absurd rfl ha
  | cons l a ih =>
    rw [cons_append, join_cons (by simp [hb])]
    by_cases h : a = []
    · rw [h, join_singleton, nil_append]
    · rw [ih h, join_cons h, append_assoc, cons_append]

theorem join_ne_nil (hne : a ≠ []) (h : ∀ l ∈ a, l ≠ []) : join x a ≠ [] := by
  cases a with
  | nil => exact absurd rfl hne
  | cons l a =>
    have hl := h l mem_cons_self
    by_cases ha : a = []
    · rwa [ha, join_singleton]
    · rw [join_cons ha]
      simp

theorem head?_join_ne (h : ∀ l ∈ a, l ≠ [] ∧ x ∉ l) : (join x a).head? ≠ some x := by
  cases a with
  | nil => nofun
  | cons l a =>
    obtain ⟨hne, hx⟩ := h l mem_cons_self
    obtain ⟨c, l, rfl⟩ := exists_cons_of_ne_nil hne
    have hc : c ≠ x := fun hc => hx (hc ▸ mem_cons_self)
    by_cases ha : a = []
    · rw [ha]
      simpa using hc
    · rw [join_cons ha]
      simpa using hc

theorem getLast?_join_ne (h : ∀ l ∈ a, l ≠ [] ∧ x ∉ l) : (join x a).getLast? ≠ some x := by
  induction a with
  | nil => nofun
  | cons l a ih =>
    by_cases ha : a = []
    · obtain ⟨hne, hx⟩ := h l mem_cons_self
      rw [ha, join_singleton]
      exact fun hlast => hx (mem_of_getLast? hlast)
    have ha' := fun l hl => h l (mem_cons_of_mem _ hl)
    have hjoin : join x a ≠ [] := join_ne_nil ha fun l hl => (ha' l hl).1
    obtain ⟨y, hy⟩ := Option.ne_none_iff_exists'.1 (mt getLast?_eq_none_iff.1 hjoin)
    have hne := ih ha'
    rw [join_cons ha]
    simpa [getLast?_append, getLast?_cons, hy] using hne

section
variable [DecidableEq α]

theorem splitOn_join (hne : a ≠ []) (h : ∀ l ∈ a, x ∉ l) : (join x a).splitOn x = a :=
  splitOn_intercalate x h hne

theorem join_inj (h : ∀ l ∈ a, l ≠ [] ∧ x ∉ l) (h' : ∀ l ∈ b, l ≠ [] ∧ x ∉ l)
    (heq : join x a = join x b) : a = b := by
  by_cases ha : a = []
  · by_cases hb : b = []
    · rw [ha, hb]
    · rw [ha] at heq
      exact absurd heq.symm (join_ne_nil hb fun l hl => (h' l hl).1)
  · by_cases hb : b = []
    · rw [hb] at heq
      exact absurd heq (join_ne_nil ha fun l hl => (h l hl).1)
    · rw [← splitOn_join ha fun l hl => (h l hl).2, heq, splitOn_join hb fun l hl => (h' l hl).2]

/-- **A list of lists begins with another** exactly if the joined list is the other's, or
goes on after it with a separator. -/
theorem isPrefix_iff (ha : a ≠ []) (h : ∀ l ∈ a, l ≠ [] ∧ x ∉ l) (h' : ∀ l ∈ b, l ≠ [] ∧ x ∉ l) :
    a <+: b ↔ join x b = join x a ∨ ∃ r, join x b = join x a ++ x :: r := by
  constructor
  · rintro ⟨c, rfl⟩
    by_cases hc : c = []
    · rw [hc, append_nil]
      exact .inl rfl
    · exact .inr ⟨join x c, join_append ha hc⟩
  · rintro (heq | ⟨r, heq⟩)
    · obtain rfl := join_inj h' h heq
      exact prefix_rfl
    · have hb : b ≠ [] := by
        rintro rfl
        simp at heq
      have hsplit := splitOn_join hb fun l hl => (h' l hl).2
      rw [heq, splitOn_append_cons_self, splitOn_join ha fun l hl => (h l hl).2] at hsplit
      exact ⟨_, hsplit⟩

end

end Separated
