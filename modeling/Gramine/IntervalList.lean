import Mathlib

/-!
# Lists of disjoint intervals

Lists of things that occupy half-open ranges `[lo a, hi a)` of addresses, in
ascending order and without overlap.
-/

open List

namespace IntervalList

variable {α β : Type*} {lo hi : α → Nat}

/-- The ranges are nonempty, and each ends before the later ones begin. -/
structure Ordered (lo hi : α → Nat) (l : List α) : Prop where
  nonempty : ∀ a ∈ l, lo a < hi a
  apart : l.Pairwise fun a b => hi a ≤ lo b

/-- The number of addresses in the ranges. -/
def size (lo hi : α → Nat) (l : List α) : Nat := (l.map fun a => hi a - lo a).sum

@[simp] theorem size_nil : size lo hi [] = 0 := rfl

@[simp] theorem size_cons (a : α) (l : List α) :
    size lo hi (a :: l) = hi a - lo a + size lo hi l := by
  simp [size]

@[simp] theorem size_append (l1 l2 : List α) :
    size lo hi (l1 ++ l2) = size lo hi l1 + size lo hi l2 := by
  simp [size]

namespace Ordered

theorem nil : Ordered lo hi [] := ⟨by simp, List.Pairwise.nil⟩

theorem append_iff {l1 l2 : List α} : Ordered lo hi (l1 ++ l2) ↔
    Ordered lo hi l1 ∧ Ordered lo hi l2 ∧ ∀ a ∈ l1, ∀ b ∈ l2, hi a ≤ lo b := by
  constructor
  · rintro ⟨hne, hap⟩
    rw [pairwise_append] at hap
    exact ⟨⟨fun a ha => hne a (mem_append_left _ ha), hap.1⟩,
      ⟨fun a ha => hne a (mem_append_right _ ha), hap.2.1⟩, hap.2.2⟩
  · rintro ⟨⟨hne1, hap1⟩, ⟨hne2, hap2⟩, h⟩
    refine ⟨fun a ha => ?_, pairwise_append.2 ⟨hap1, hap2, h⟩⟩
    rcases mem_append.1 ha with ha | ha
    · exact hne1 a ha
    · exact hne2 a ha

variable {l : List α}

theorem cons_iff {a : α} : Ordered lo hi (a :: l) ↔
    lo a < hi a ∧ (∀ b ∈ l, hi a ≤ lo b) ∧ Ordered lo hi l := by
  constructor
  · rintro ⟨hne, hap⟩
    rw [pairwise_cons] at hap
    exact ⟨hne a mem_cons_self, hap.1, fun b hb => hne b (mem_cons_of_mem _ hb), hap.2⟩
  · rintro ⟨ha, hal, hne, hap⟩
    exact ⟨forall_mem_cons.2 ⟨ha, hne⟩, pairwise_cons.2 ⟨hal, hap⟩⟩

theorem map_iff {f : β → α} {l : List β} :
    Ordered lo hi (l.map f) ↔ Ordered (lo ∘ f) (hi ∘ f) l := by
  constructor
  · rintro ⟨hne, hap⟩
    exact ⟨fun a ha => hne _ (mem_map_of_mem ha), pairwise_map.1 hap⟩
  rintro ⟨hne, hap⟩
  refine ⟨fun a ha => ?_, pairwise_map.2 hap⟩
  obtain ⟨b, hb, rfl⟩ := mem_map.1 ha
  exact hne b hb

/-- **A range is replaced by pieces of it**: none, a shorter one, or several. -/
theorem replace {l1 l2 : List α} {a : α} (h : Ordered lo hi (l1 ++ a :: l2)) (ps : List α)
    (hps : Ordered lo hi ps) (hin : ∀ p ∈ ps, lo a ≤ lo p ∧ hi p ≤ hi a) :
    Ordered lo hi (l1 ++ (ps ++ l2)) := by
  rw [append_iff, cons_iff] at h
  obtain ⟨h1, ⟨ha, hal, h2⟩, hl⟩ := h
  refine append_iff.2 ⟨h1, append_iff.2 ⟨hps, h2, fun p hp b hb => ?_⟩, fun x hx b hb => ?_⟩
  · exact Nat.le_trans (hin p hp).2 (hal b hb)
  · rcases mem_append.1 hb with hb | hb
    · exact Nat.le_trans (hl x hx a mem_cons_self) (hin b hb).1
    · exact hl x hx b (mem_cons_of_mem _ hb)

theorem insert {l1 l2 : List α} {a : α} (h : Ordered lo hi (l1 ++ l2)) (ha : lo a < hi a)
    (hbefore : ∀ x ∈ l1, hi x ≤ lo a) (hafter : ∀ x ∈ l2, hi a ≤ lo x) :
    Ordered lo hi (l1 ++ a :: l2) := by
  rw [append_iff] at h
  refine append_iff.2 ⟨h.1, cons_iff.2 ⟨ha, hafter, h.2.1⟩, fun x hx b hb => ?_⟩
  rcases mem_cons.1 hb with rfl | hb
  · exact hbefore x hx
  · exact h.2.2 x hx b hb

variable (h : Ordered lo hi l)

include h

theorem pairwise_hi : l.Pairwise fun a b => hi a ≤ hi b := by
  refine h.apart.imp_of_mem fun {a b} _ hb hab => ?_
  exact Nat.le_trans hab (Nat.le_of_lt (h.nonempty b hb))

theorem exists_split (x : Nat) :
    ∃ l1 l2, l = l1 ++ l2 ∧ (∀ a ∈ l1, hi a ≤ x) ∧ (∀ a ∈ l2, x < hi a) ∧
      l.find? (fun a => x < hi a) = l2.head? := by
  induction l with
  | nil => exact ⟨[], [], rfl, by simp, by simp, rfl⟩
  | cons a l ih =>
    by_cases ha : x < hi a
    · refine ⟨[], a :: l, rfl, by simp, ?_, by simp [ha]⟩
      intro b hb
      rcases mem_cons.1 hb with rfl | hb
      · exact ha
      · exact Nat.lt_of_lt_of_le ha ((pairwise_cons.1 h.pairwise_hi).1 b hb)
    · obtain ⟨l1, l2, rfl, h1, h2, hfind⟩ := ih (cons_iff.1 h).2.2
      refine ⟨a :: l1, l2, rfl, ?_, h2, by simp [ha, hfind]⟩
      exact forall_mem_cons.2 ⟨Nat.le_of_not_lt ha, h1⟩

theorem size_le {x y : Nat} (hxy : x ≤ y) (hl : ∀ a ∈ l, x ≤ lo a ∧ hi a ≤ y) :
    x + size lo hi l ≤ y := by
  induction l generalizing x with
  | nil => simpa using hxy
  | cons a l ih =>
    rw [cons_iff] at h
    have ha := hl a mem_cons_self
    have hrest := ih h.2.2 ha.2 fun b hb => ⟨h.2.1 b hb, (hl b (mem_cons_of_mem _ hb)).2⟩
    rw [size_cons]
    omega

section
variable {a b : α} (ha : a ∈ l) (hb : b ∈ l)
include ha hb

theorem eq_or_apart : a = b ∨ hi a ≤ lo b ∨ hi b ≤ lo a := by
  induction l with
  | nil => cases ha
  | cons c l ih =>
    obtain ⟨-, hafter, hrest⟩ := cons_iff.1 h
    rcases mem_cons.1 ha with rfl | hal <;> rcases mem_cons.1 hb with rfl | hbl
    · exact .inl rfl
    · exact .inr (.inl (hafter b hbl))
    · exact .inr (.inr (hafter a hal))
    · exact ih hrest hal hbl

theorem eq_of_covers {x : Nat} (hxa : lo a ≤ x ∧ x < hi a) (hxb : lo b ≤ x ∧ x < hi b) : a = b := by
  rcases h.eq_or_apart ha hb with heq | hab
  · exact heq
  · omega

theorem hi_le_lo (hlt : lo a < lo b) : hi a ≤ lo b := by
  have hne := h.nonempty b hb
  rcases h.eq_or_apart ha hb with rfl | hab <;> omega

end

end Ordered

theorem place_unique (hi : α → Nat) {l l1 l2 k1 k2 : List α} {x : Nat} (hl : l = l1 ++ l2)
    (hk : l = k1 ++ k2) (hl1 : ∀ a ∈ l1, hi a < x) (hl2 : ∀ a ∈ l2, x ≤ hi a)
    (hk1 : ∀ a ∈ k1, hi a < x) (hk2 : ∀ a ∈ k2, x ≤ hi a) : l1 = k1 ∧ l2 = k2 := by
  have hfilter : ∀ m1 m2 : List α, l = m1 ++ m2 → (∀ a ∈ m1, hi a < x) → (∀ a ∈ m2, x ≤ hi a) →
      l.filter (fun a => hi a < x) = m1 := by
    rintro m1 m2 rfl h1 h2
    rw [filter_append, filter_eq_self.2 (by simpa using h1),
      filter_eq_nil_iff.2 (by simpa using h2), append_nil]
  have heq : l1 = k1 := (hfilter l1 l2 hl hl1 hl2).symm.trans (hfilter k1 k2 hk hk1 hk2)
  subst heq
  exact ⟨rfl, append_cancel_left (hl.symm.trans hk)⟩

end IntervalList
