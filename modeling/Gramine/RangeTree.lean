import Gramine.IntervalList

/-!
# Search trees of ranges

A search tree whose nodes are ranges of numbers without overlap, as the list of its nodes in
order: ranges `[start, last]` with something attached. Nodes are inserted where they belong,
changed in place, and looked up by a number or by a range.
-/

open List

namespace RangeTree

open IntervalList.Ordered

/-- A range with both ends, and what is attached to it. -/
structure Range (α : Type) where
  start : Nat
  last : Nat
  tag : α
  deriving DecidableEq, Repr

variable {α : Type}

def Range.has (r : Range α) (id : Nat) : Bool := decide (r.start ≤ id) && decide (id ≤ r.last)

/-- The ends alone. -/
def Range.key (r : Range α) : Nat × Nat := (r.start, r.last)

/-- A node is inserted before the first one that does not end before it. -/
def insertRange (r : Range α) : List (Range α) → List (Range α)
  | [] => [r]
  | a :: l => if r.start ≤ a.last then r :: a :: l else a :: insertRange r l

/-- The first node that does not end before `id`. -/
def lowerBound (id : Nat) (l : List (Range α)) : Option (Range α) :=
  l.find? fun r => decide (id ≤ r.last)

/-- The first node that overlaps the range. -/
def findOverlap (start last : Nat) (l : List (Range α)) : Option (Range α) :=
  l.find? fun r => decide (start ≤ r.last) && decide (r.start ≤ last)

/-- The node `r` is changed in place. -/
def put [DecidableEq α] (r r' : Range α) (l : List (Range α)) : List (Range α) :=
  l.map fun x => if x = r then r' else x

/-- What is left of a range without one of its numbers. -/
def parts (k : Nat × Nat) (id : Nat) : List (Nat × Nat) :=
  (if k.1 < id then [(k.1, id - 1)] else []) ++ (if id < k.2 then [(id + 1, k.2)] else [])

/-- Two ranges have no number in common. -/
def Apart (k k' : Nat × Nat) : Prop := k.2 < k'.1 ∨ k'.2 < k.1

/-- The nodes are in order and without overlap. -/
abbrev Ordered (l : List (Range α)) : Prop :=
  IntervalList.Ordered Range.start (fun r : Range α => r.last + 1) l

variable {l : List (Range α)} {r r' a b : Range α} {id : Nat}

theorem has_iff : r.has id = true ↔ r.start ≤ id ∧ id ≤ r.last := by
  simp [Range.has]

theorem Ordered.start_le (h : Ordered l) (ha : a ∈ l) : a.start ≤ a.last :=
  Nat.le_of_lt_succ (h.nonempty a ha)

theorem Ordered.nodup (h : Ordered l) : l.Nodup := by
  refine List.Pairwise.imp_of_mem ?_ h.apart
  intro a b ha _ hab heq
  subst heq
  have := h.start_le ha
  omega

variable {k : Nat × Nat}

theorem Apart.symm {k' : Nat × Nat} (h : Apart k k') : Apart k' k := Or.symm h

theorem Ordered.apart_keys (h : Ordered l) : (l.map Range.key).Pairwise Apart := by
  rw [pairwise_map]
  exact h.apart.imp fun {a b} hab => .inl hab

theorem parts_one (hfirst : k.1 = id) (hlast : id = k.2) : parts k id = [] := by
  rw [parts, if_neg (by omega), if_neg (by omega)]
  rfl

theorem parts_first (hfirst : k.1 = id) (hlast : id < k.2) : parts k id = [(id + 1, k.2)] := by
  rw [parts, if_neg (by omega), if_pos hlast]
  rfl

theorem parts_last (hfirst : k.1 < id) (hlast : id = k.2) : parts k id = [(k.1, id - 1)] := by
  rw [parts, if_pos hfirst, if_neg (by omega)]
  rfl

theorem parts_middle (hfirst : k.1 < id) (hlast : id < k.2) :
    parts k id = [(k.1, id - 1), (id + 1, k.2)] := by
  rw [parts, if_pos hfirst, if_pos hlast]
  rfl

/-- A part lies within the range and leaves the id out. -/
theorem mem_parts {k' : Nat × Nat} (hid : k.1 ≤ id ∧ id ≤ k.2) (h : k' ∈ parts k id) :
    k.1 ≤ k'.1 ∧ k'.2 ≤ k.2 ∧ k'.1 ≤ k'.2 ∧ (k'.2 < id ∨ id < k'.1) := by
  rcases mem_append.1 h with h | h
  all_goals
    split_ifs at h
    · obtain rfl := mem_singleton.1 h
      omega
    · cases h

/-! ## Lookups -/

/-- The first range from the left with a property that no range further left has. -/
theorem Ordered.find?_eq (h : Ordered l) (hr : r ∈ l) {p : Range α → Bool} (hp : p r = true)
    (hbefore : ∀ a : Range α, a.last < r.start → p a = false) : l.find? p = some r := by
  induction l with
  | nil => cases hr
  | cons a l ih =>
    obtain ⟨-, hafter, hl⟩ := cons_iff.1 h
    rcases mem_cons.1 hr with rfl | hr
    · exact find?_cons_of_pos hp
    · rw [find?_cons_of_neg (by simp [hbefore a (hafter r hr)])]
      exact ih hl hr

/-- The lookup of a number finds the node it is in. -/
theorem Ordered.lowerBound_eq (h : Ordered l) (hr : r ∈ l) (hid : r.has id = true) :
    lowerBound id l = some r := by
  rw [has_iff] at hid
  refine h.find?_eq hr (decide_eq_true hid.2) fun a ha => decide_eq_false ?_
  omega

/-- An id is in at most one range. -/
theorem Ordered.unique (h : Ordered l) (ha : a ∈ l) (hb : b ∈ l) (hida : a.has id = true)
    (hidb : b.has id = true) : a = b :=
  Option.some.inj ((h.lowerBound_eq ha hida).symm.trans (h.lowerBound_eq hb hidb))

theorem Ordered.apart_of_ne (h : Ordered l) (ha : a ∈ l) (hb : b ∈ l) (hne : a ≠ b) :
    a.last < b.start ∨ b.last < a.start :=
  (h.eq_or_apart ha hb).resolve_left hne

/-- A lookup by the bounds of a range finds that range. -/
theorem Ordered.findOverlap_eq (h : Ordered l) (hr : r ∈ l) :
    findOverlap r.start r.last l = some r := by
  refine h.find?_eq hr (by simp [h.start_le hr]) fun a ha => ?_
  simp [Nat.not_le.2 ha]

/-! ## Changes -/

theorem insertRange_perm (r : Range α) (l : List (Range α)) : (insertRange r l).Perm (r :: l) := by
  induction l with
  | nil => exact .refl _
  | cons a l ih =>
    rw [insertRange]
    split_ifs
    · exact .refl _
    · exact (ih.cons a).trans (.swap r a l)

/-- A range that lies apart from the others finds its place in the order. -/
theorem Ordered.insertRange (h : Ordered l) (hr : r.start ≤ r.last)
    (hapart : ∀ a ∈ l, a.last < r.start ∨ r.last < a.start) : Ordered (insertRange r l) := by
  induction l with
  | nil => exact cons_iff.2 ⟨Nat.lt_succ_of_le hr, by simp, .nil⟩
  | cons a l ih =>
    obtain ⟨ha, hafter, hl⟩ := cons_iff.1 h
    have hhead := hapart a mem_cons_self
    rw [RangeTree.insertRange]
    split_ifs with hle
    · refine cons_iff.2 ⟨Nat.lt_succ_of_le hr, fun b hb => ?_, h⟩
      have hgt : r.last < a.start := hhead.resolve_left (by omega)
      rcases mem_cons.1 hb with rfl | hb
      · exact hgt
      · have := hafter b hb
        omega
    · refine cons_iff.2 ⟨ha, fun b hb => ?_,
        ih hl fun b hb => hapart b (mem_cons_of_mem _ hb)⟩
      rcases mem_cons.1 ((insertRange_perm r l).mem_iff.1 hb) with rfl | hb
      · exact Nat.lt_of_not_le hle
      · exact hafter b hb

theorem Ordered.sublist {l' : List (Range α)} (h : Ordered l) (hsub : l'.Sublist l) : Ordered l' :=
  ⟨fun a ha => h.nonempty a (hsub.subset ha), h.apart.sublist hsub⟩

variable [DecidableEq α]

section
variable {new : Range α} (h : Ordered l) (hr' : r'.start ≤ r'.last) (hstart : r.start ≤ r'.start)
  (hlast : r'.last ≤ r.last)
include h hr' hstart hlast

/-- A range may change in place as long as it does not grow. -/
theorem Ordered.put : Ordered (put r r' l) := by
  have hpart : ∀ x : Range α, x.start ≤ (if x = r then r' else x).start ∧
      (if x = r then r' else x).last ≤ x.last := by
    intro x
    split_ifs with hx
    · subst hx
      exact ⟨hstart, hlast⟩
    · exact ⟨Nat.le_refl _, Nat.le_refl _⟩
  refine ⟨fun a ha => ?_, ?_⟩
  · obtain ⟨x, hx, rfl⟩ := mem_map.1 ha
    split_ifs
    · exact Nat.lt_succ_of_le hr'
    · exact h.nonempty x hx
  · rw [RangeTree.put, pairwise_map]
    refine h.apart.imp fun {x y} hxy => ?_
    have hx := (hpart x).2
    have hy := (hpart y).1
    omega

/-- One range becomes two: it shrinks in place, and the rest of it is inserted. -/
theorem Ordered.insertRange_put (hr : r ∈ l) (hnew : new.start ≤ new.last)
    (hin : r.start ≤ new.start ∧ new.last ≤ r.last)
    (hout : r'.last < new.start ∨ new.last < r'.start) :
    Ordered (RangeTree.insertRange new (RangeTree.put r r' l)) := by
  refine (h.put hr' hstart hlast).insertRange hnew fun a ha => ?_
  obtain ⟨x, hx, rfl⟩ := mem_map.1 ha
  split_ifs with hxr
  · exact hout
  · have := h.apart_of_ne hx hr hxr
    omega

end

theorem Ordered.put_perm (h : Ordered l) (hr : r ∈ l) :
    (RangeTree.put r r' l).Perm (r' :: l.erase r) := by
  have hnodup := h.nodup
  clear h
  induction l with
  | nil => cases hr
  | cons a l ih =>
    obtain ⟨hnot, hl⟩ := nodup_cons.1 hnodup
    by_cases har : a = r
    · subst har
      have hsame : RangeTree.put a r' l = l := by
        refine (map_congr_left fun x hx => ?_).trans (map_id l)
        rw [if_neg]
        · rfl
        · rintro rfl
          exact hnot hx
      rw [RangeTree.put, map_cons, if_pos rfl, erase_cons_head]
      rw [show l.map (fun x => if x = a then r' else x) = RangeTree.put a r' l from rfl, hsame]
    · have hr : r ∈ l := (mem_cons.1 hr).resolve_left (Ne.symm har)
      have ih := ih hr hl
      rw [RangeTree.put, map_cons, if_neg har, erase_cons_tail (by simpa using har)]
      exact (ih.cons a).trans (.swap r' a _)

/-! ## Ranges by owner -/

section keysFor

variable {β : Type} (owner : β → Nat) (key : β → Nat × Nat)

/-- The ranges of what belongs to `p`. -/
def keysFor (l : List β) (p : Nat) : List (Nat × Nat) := (l.filter fun b => owner b = p).map key

theorem keysFor_cons (b : β) (l : List β) (p : Nat) : keysFor owner key (b :: l) p =
      (if owner b = p then [key b] else []) ++ keysFor owner key l p := by
  by_cases h : owner b = p <;> simp [keysFor, h]

theorem keysFor_append (l l' : List β) (p : Nat) :
    keysFor owner key (l ++ l') p = keysFor owner key l p ++ keysFor owner key l' p := by
  simp [keysFor]

theorem keysFor_perm {l l' : List β} (h : l.Perm l') (p : Nat) :
    (keysFor owner key l p).Perm (keysFor owner key l' p) :=
  (h.filter _).map _

/-- A range that goes takes one key away from its owner. -/
theorem keysFor_erase [BEq β] [LawfulBEq β] {b : β} {l : List β} (h : b ∈ l) (p : Nat) :
    (keysFor owner key l p).Perm
      ((if owner b = p then [key b] else []) ++ keysFor owner key (l.erase b) p) := by
  rw [← keysFor_cons]
  exact keysFor_perm owner key (perm_cons_erase h) p

theorem keysFor_map {f : β → β} (howner : ∀ b, owner (f b) = owner b)
    (hkey : ∀ b, key (f b) = key b) (l : List β) (p : Nat) :
    keysFor owner key (l.map f) p = keysFor owner key l p := by
  induction l with
  | nil => rfl
  | cons b l ih => rw [map_cons, keysFor_cons, keysFor_cons, howner, hkey, ih]

theorem mem_keysFor {k : Nat × Nat} {l : List β} {p : Nat} :
    k ∈ keysFor owner key l p ↔ ∃ b ∈ l, owner b = p ∧ key b = k := by
  simp [keysFor, and_assoc]

end keysFor

/-! ## Ranges with a count

Ranges that count which of their numbers are in use. -/

/-- Every number in use is in one of the ranges, and each of them counts its own. -/
structure Counted (ranges : List (Range Nat)) (held : List Nat) : Prop where
  taken : ∀ r ∈ ranges, r.tag = held.countP r.has
  covered : ∀ id ∈ held, ∃ r ∈ ranges, r.has id = true

namespace Counted

variable {ranges ranges' : List (Range Nat)} {held : List Nat} {r r' : Range Nat}

theorem perm (h : Counted ranges held) (hperm : ranges'.Perm ranges) : Counted ranges' held := by
  refine ⟨fun r hr => h.taken r (hperm.mem_iff.1 hr), fun id hid => ?_⟩
  obtain ⟨r, hr, hhas⟩ := h.covered id hid
  exact ⟨r, hperm.mem_iff.2 hr, hhas⟩

/-- The bounds of a range may change as long as it keeps the ids in use. -/
theorem congr_head (h : Counted (r :: ranges) held) (htag : r'.tag = r.tag)
    (hhas : ∀ id ∈ held, r'.has id = r.has id) : Counted (r' :: ranges) held := by
  refine ⟨fun u hu => ?_, fun id hid => ?_⟩
  · rcases mem_cons.1 hu with rfl | hu
    · rw [htag, h.taken r mem_cons_self]
      exact (countP_congr fun id hid => by rw [hhas id hid]).symm
    · exact h.taken u (mem_cons_of_mem _ hu)
  · obtain ⟨u, hu, hu_has⟩ := h.covered id hid
    rcases mem_cons.1 hu with rfl | hu
    · exact ⟨r', mem_cons_self, (hhas id hid).trans hu_has⟩
    · exact ⟨u, mem_cons_of_mem _ hu, hu_has⟩

/-- A range without an id in use has the count 0. -/
theorem eq_zero (h : Counted ranges held) (hr : r ∈ ranges)
    (hnone : ∀ id ∈ held, r.has id = false) : r.tag = 0 := by
  rw [h.taken r hr, countP_eq_zero]
  intro id hid
  rw [hnone id hid]
  exact Bool.false_ne_true

/-- A range with the count 0 has no id in use. -/
theorem has_eq_false (h : Counted ranges held) (hr : r ∈ ranges) (htag : r.tag = 0)
    (hid : id ∈ held) : r.has id = false := by
  rw [h.taken r hr, countP_eq_zero] at htag
  exact Bool.eq_false_iff.2 (htag id hid)

theorem tail (h : Counted (r :: ranges) held) (hnone : ∀ id ∈ held, r.has id = false) :
    Counted ranges held := by
  refine ⟨fun u hu => h.taken u (mem_cons_of_mem _ hu), fun id hid => ?_⟩
  obtain ⟨u, hu, hhas⟩ := h.covered id hid
  rcases mem_cons.1 hu with rfl | hu
  · rw [hnone id hid] at hhas
    cases hhas
  · exact ⟨u, hu, hhas⟩

theorem cons (h : Counted ranges held) (htag : r.tag = 0)
    (hnone : ∀ id ∈ held, r.has id = false) : Counted (r :: ranges) held := by
  refine ⟨fun u hu => ?_, fun id hid => ?_⟩
  · rcases mem_cons.1 hu with rfl | hu
    · rw [htag, countP_eq_zero.2]
      intro id hid
      rw [hnone id hid]
      exact Bool.false_ne_true
    · exact h.taken u hu
  · obtain ⟨u, hu, hhas⟩ := h.covered id hid
    exact ⟨u, mem_cons_of_mem _ hu, hhas⟩

/-- An id is taken: the count of its one range goes up. -/
theorem take (h : Counted (r :: ranges) held) (hid : r.has id = true)
    (hothers : ∀ u ∈ ranges, u.has id = false) :
    Counted ({ r with tag := r.tag + 1 } :: ranges) (id :: held) := by
  refine ⟨fun u hu => ?_, fun x hx => ?_⟩
  · rcases mem_cons.1 hu with rfl | hu
    · have hcount : (id :: held).countP r.has = held.countP r.has + 1 :=
        countP_cons_of_pos hid
      exact (congrArg (· + 1) (h.taken r mem_cons_self)).trans hcount.symm
    · rw [countP_cons_of_neg (by rw [hothers u hu]; exact Bool.false_ne_true)]
      exact h.taken u (mem_cons_of_mem _ hu)
  · rcases mem_cons.1 hx with rfl | hx
    · exact ⟨_, mem_cons_self, hid⟩
    · obtain ⟨u, hu, hhas⟩ := h.covered x hx
      rcases mem_cons.1 hu with rfl | hu
      · exact ⟨_, mem_cons_self, hhas⟩
      · exact ⟨u, mem_cons_of_mem _ hu, hhas⟩

/-- An id is given back: the count of its one range goes down. -/
theorem give (h : Counted (r :: ranges) held) (hheld : id ∈ held) (hid : r.has id = true)
    (hothers : ∀ u ∈ ranges, u.has id = false) :
    Counted ({ r with tag := r.tag - 1 } :: ranges) (held.erase id) := by
  refine ⟨fun u hu => ?_, fun x hx => ?_⟩
  · rcases mem_cons.1 hu with rfl | hu
    · have hcount : (held.erase id).countP r.has = held.countP r.has - 1 := by
        rw [countP_erase, if_pos ⟨hheld, hid⟩]
      exact (congrArg (· - 1) (h.taken r mem_cons_self)).trans hcount.symm
    · rw [countP_erase, if_neg (by simp [hothers u hu])]
      exact h.taken u (mem_cons_of_mem _ hu)
  · obtain ⟨u, hu, hhas⟩ := h.covered x (mem_of_mem_erase hx)
    rcases mem_cons.1 hu with rfl | hu
    · exact ⟨_, mem_cons_self, hhas⟩
    · exact ⟨u, mem_cons_of_mem _ hu, hhas⟩

/-- The count does not underflow while one of the ids is in use. -/
theorem pos (h : Counted ranges held) (hr : r ∈ ranges) (hheld : id ∈ held)
    (hid : r.has id = true) : 0 < r.tag := by
  rw [h.taken r hr]
  exact countP_pos_iff.2 ⟨id, hheld, hid⟩

end Counted

end RangeTree
