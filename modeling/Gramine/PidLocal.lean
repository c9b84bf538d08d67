import Gramine.Pid

/-!
# The ranges of a process

`get_new_id` and `release_id` on the ranges of one process: every ID in use is in one of its
ranges, `taken_count` counts them, and no ID behind `g_last_used_id` is in use.
-/

open List

namespace Pid

open RangeTree Range

/-- The ranges of a process, for the IDs it uses. -/
structure ProcInv (proc : Proc) (held : List Nat) : Prop where
  ordered : Ordered proc.used
  apart : ∀ r ∈ proc.lastRange, ∀ u ∈ proc.used, u.last < r.start ∨ r.last < u.start
  last : ∀ r ∈ proc.lastRange, r.start ≤ proc.lastUsedId + 1 ∧ proc.lastUsedId < r.last
  counted : Counted proc.ranges held
  fresh : ∀ r ∈ proc.lastRange, ∀ id ∈ held, r.has id = true → id ≤ proc.lastUsedId
  nodup : held.Nodup

/-- The ends of the ranges. -/
def Proc.keys (proc : Proc) : List (Nat × Nat) := proc.ranges.map key

variable {proc : Proc} {held : List Nat} {r u : Range Nat} {id dest : Nat}

theorem has_eq_false_iff : r.has id = false ↔ id < r.start ∨ r.last < id := by
  rw [Bool.eq_false_iff, ne_eq, has_iff]
  omega

theorem mem_ranges : u ∈ proc.ranges ↔ u ∈ proc.used ∨ u ∈ proc.lastRange := by
  simp [Proc.ranges]

theorem ranges_perm (hr : proc.lastRange = some r) : proc.ranges.Perm (r :: proc.used) := by
  rw [Proc.ranges, hr]
  exact perm_append_singleton r proc.used

theorem keys_perm (hr : proc.lastRange = some r) : proc.keys.Perm (r.key :: proc.used.map key) :=
  (ranges_perm hr).map key

theorem ranges_eq (hr : proc.lastRange = none) : proc.ranges = proc.used := by
  rw [Proc.ranges, hr]
  exact append_nil _

/-- As many distinct numbers within bounds as there are between them. -/
theorem countP_le_of_bounds {l : List Nat} {p : Nat → Bool} {a b : Nat} (hl : l.Nodup)
    (hbounds : ∀ x ∈ l, p x = true → a ≤ x ∧ x < b) : l.countP p ≤ b - a := by
  rw [countP_eq_length_filter, ← toFinset_card_of_nodup (hl.filter _), ← Nat.card_Ico a b]
  refine Finset.card_le_card fun x hx => ?_
  have := mem_filter.1 (mem_toFinset.1 hx)
  exact Finset.mem_Ico.2 (hbounds x this.1 this.2)

theorem ProcInv.of_used {proc' : Proc} {held' : List Nat} (h : Ordered proc.used)
    (hr : r.start ≤ r.last) (hapart : ∀ u ∈ proc.used, u.last < r.start ∨ r.last < u.start)
    (hcounted : Counted (r :: proc.used) held') (hnodup : held'.Nodup)
    (hused : proc'.used = insertRange r proc.used) (hlast : proc'.lastRange = none) :
    ProcInv proc' held' where
  ordered := by
    rw [hused]
    exact h.insertRange hr hapart
  apart := by simp [hlast]
  last := by simp [hlast]
  counted := by
    rw [ranges_eq hlast, hused]
    exact hcounted.perm (insertRange_perm _ _)
  fresh := by simp [hlast]
  nodup := hnodup

theorem ProcInv.with_pc (h : ProcInv proc held) (pc : Pc) : ProcInv { proc with pc := pc } held :=
  ⟨h.ordered, h.apart, h.last, h.counted, h.fresh, h.nodup⟩

/-- A range from the leader becomes the last range. -/
theorem ProcInv.add_range (h : ProcInv proc held) (hnone : proc.lastRange = none) {k : Nat × Nat}
    (hpos : 0 < k.1) (hle : k.1 ≤ k.2) (hapart : ∀ u ∈ proc.used, Apart k u.key) :
    ProcInv { proc with
      lastRange := some ⟨k.1, k.2, 0⟩
      lastUsedId := k.1 - 1
      pc := .idle } held := by
  have hcounted : Counted proc.used held := ranges_eq hnone ▸ h.counted
  have hout : ∀ x ∈ held, has ⟨k.1, k.2, 0⟩ x = false := by
    intro x hx
    obtain ⟨u, hu, hhas⟩ := hcounted.covered x hx
    have := hapart u hu
    simp only [Apart, key] at this
    rw [has_iff] at hhas
    rw [has_eq_false_iff]
    simp only
    omega
  refine ⟨h.ordered, ?_, ?_, (hcounted.cons rfl hout).perm (ranges_perm rfl), ?_, h.nodup⟩
  · rintro _ ⟨⟩ u hu
    exact (hapart u hu).symm
  · rintro _ ⟨⟩
    simp only
    omega
  · rintro _ ⟨⟩ x hx hhas
    rw [hout x hx] at hhas
    cases hhas

/-! ## Taking an ID -/

section TakeId
variable (h : ProcInv proc held) (hr : proc.lastRange = some r)

include h hr

/-- The next id lies in the last range and is not in use. -/
theorem ProcInv.next : r.start ≤ proc.lastUsedId + 1 ∧ proc.lastUsedId + 1 ≤ r.last ∧
      proc.lastUsedId + 1 ∉ held ∧ r.tag < r.last - r.start + 1 ∧
      ∀ id ∈ held, r.has id = true → id < proc.lastUsedId + 1 := by
  have hmem : r ∈ proc.lastRange := hr
  obtain ⟨hstart, hlast⟩ := h.last r hmem
  have hfresh : ∀ id ∈ held, r.has id = true → id < proc.lastUsedId + 1 := fun id hid hhas =>
    Nat.lt_succ_of_le (h.fresh r hmem id hid hhas)
  refine ⟨hstart, hlast, fun hheld => ?_, ?_, hfresh⟩
  · exact lt_irrefl _ (hfresh _ hheld (has_iff.2 ⟨hstart, hlast⟩))
  rw [h.counted.taken r (mem_ranges.2 (.inr hmem))]
  have hcount : held.countP r.has ≤ proc.lastUsedId + 1 - r.start :=
    countP_le_of_bounds h.nodup fun x hx hhas => ⟨(has_iff.1 hhas).1, hfresh x hx hhas⟩
  omega

/-- The ids of the last range are in no other range. -/
theorem ProcInv.not_used (hid : r.has id = true) (hu : u ∈ proc.used) : u.has id = false := by
  have := h.apart r hr u hu
  rw [has_iff] at hid
  rw [has_eq_false_iff]
  omega

/-- `get_new_id` without a new owner: the ID is in use now. -/
theorem ProcInv.takeId_keep (memory : Bool) :
    ∃ proc', takeId proc r 0 memory = .ok (proc', some (proc.lastUsedId + 1)) ∧
      ProcInv proc' ((proc.lastUsedId + 1) :: held) ∧ proc'.keys.Perm proc.keys ∧
      proc'.initialized = proc.initialized := by
  obtain ⟨hstart, hlast, hnot, htag, hfresh⟩ := h.next hr
  have hhas : r.has (proc.lastUsedId + 1) = true := has_iff.2 ⟨hstart, hlast⟩
  have hkeys := keys_perm hr
  have hcounted : Counted ({ r with tag := r.tag + 1 } :: proc.used)
      ((proc.lastUsedId + 1) :: held) :=
    (h.counted.perm (ranges_perm hr).symm).take hhas fun u hu => h.not_used hr hhas hu
  have hnodup : ((proc.lastUsedId + 1) :: held).Nodup := nodup_cons.2 ⟨hnot, h.nodup⟩
  rw [takeId]
  simp only
  rw [if_neg (by omega), if_neg (by omega)]
  by_cases hend : proc.lastUsedId + 1 = r.last
  · rw [if_pos hend]
    refine ⟨_, rfl, .of_used (r := { r with tag := r.tag + 1 }) h.ordered
      (le_trans hstart hlast) (h.apart r hr) hcounted hnodup rfl rfl, ?_, rfl⟩
    rw [Proc.keys, ranges_eq rfl]
    exact ((insertRange_perm _ _).map key).trans hkeys.symm
  · rw [if_neg hend]
    refine ⟨_, rfl, ⟨h.ordered, ?_, ?_, hcounted.perm (ranges_perm rfl), ?_, hnodup⟩,
      (keys_perm (r := { r with tag := r.tag + 1 }) rfl).trans hkeys.symm, rfl⟩
    · rintro _ ⟨⟩
      exact h.apart r hr
    · rintro _ ⟨⟩
      simp only
      omega
    · rintro _ ⟨⟩ id hid hidr
      rcases mem_cons.1 hid with rfl | hid
      · exact le_rfl
      · exact le_of_lt (hfresh id hid hidr)

/-! An ID for a new owner is cut out of the last range, in one of four ways. -/

/-- Nothing is in use of a range that begins with the next id. -/
theorem ProcInv.not_held
    (hfirst : r.start = proc.lastUsedId + 1) {x : Nat} (hx : x ∈ held) : r.has x = false := by
  obtain ⟨-, -, -, -, hfresh⟩ := h.next hr
  rw [Bool.eq_false_iff]
  intro hhas
  have := hfresh x hx hhas
  have := has_iff.1 hhas
  omega

theorem ProcInv.counted_before :
    Counted ({ r with last := proc.lastUsedId + 1 - 1 } :: proc.used) held := by
  obtain ⟨-, hlast, -, -, hfresh⟩ := h.next hr
  refine (h.counted.perm (ranges_perm hr).symm).congr_head rfl fun x hx => ?_
  have := hfresh x hx
  rw [has_iff] at this
  rw [Bool.eq_iff_iff, has_iff, has_iff]
  simp only
  omega

/-- The next id was the only one of the last range. -/
theorem ProcInv.cut_one (hfirst : r.start = proc.lastUsedId + 1) :
    ProcInv { proc with lastUsedId := proc.lastUsedId + 1, lastRange := none } held := by
  refine ⟨h.ordered, by simp, by simp, ?_, by simp, h.nodup⟩
  rw [ranges_eq rfl]
  exact (h.counted.perm (ranges_perm hr).symm).tail fun x hx => h.not_held hr hfirst hx

/-- The next id was its first one. -/
theorem ProcInv.cut_first
    (hfirst : r.start = proc.lastUsedId + 1) (hlast : proc.lastUsedId + 1 < r.last) :
    ProcInv { proc with
      lastUsedId := proc.lastUsedId + 1
      lastRange := some { r with start := r.start + 1 } } held := by
  have htag : r.tag = 0 :=
    h.counted.eq_zero (mem_ranges.2 (.inr hr)) fun _ hx => h.not_held hr hfirst hx
  have hrest := (h.cut_one hr hfirst).add_range (k := (r.start + 1, r.last)) rfl (Nat.succ_pos _)
    (show r.start + 1 ≤ r.last by omega) fun u hu => by
      have := h.apart r hr u hu
      simp only [Apart, key]
      omega
  simpa [htag, hfirst] using hrest.with_pc proc.pc

/-- The ids before the next one stay with the process. -/
theorem ProcInv.cut_before (hfirst : r.start < proc.lastUsedId + 1) :
    ProcInv { proc with
      lastUsedId := proc.lastUsedId + 1
      lastRange := none
      used := insertRange { r with last := proc.lastUsedId + 1 - 1 } proc.used } held := by
  refine .of_used (r := { r with last := proc.lastUsedId + 1 - 1 }) h.ordered
    (show r.start ≤ proc.lastUsedId + 1 - 1 by omega) (fun u hu => ?_) (h.counted_before hr)
    h.nodup rfl rfl
  have := h.apart r hr u hu
  have := (h.next hr).2.1
  simp only
  omega

/-- The next id divides the last range. -/
theorem ProcInv.cut_middle
    (hfirst : r.start < proc.lastUsedId + 1) (hlast : proc.lastUsedId + 1 < r.last) :
    ProcInv { proc with
      lastUsedId := proc.lastUsedId + 1
      lastRange := some ⟨proc.lastUsedId + 1 + 1, r.last, 0⟩
      used := insertRange { r with last := proc.lastUsedId + 1 - 1 } proc.used } held := by
  refine ((h.cut_before hr hfirst).add_range (k := (proc.lastUsedId + 1 + 1, r.last)) rfl
    (Nat.succ_pos _) hlast fun u hu => ?_).with_pc proc.pc
  simp only [Apart, key]
  rcases mem_cons.1 ((insertRange_perm _ _).mem_iff.1 hu) with rfl | hu
  · simp only
    omega
  · have := h.apart r hr u hu
    omega

/-- `get_new_id` with a new owner: the ID is cut out of the last range, unless there is no memory
for a second one. -/
theorem ProcInv.takeId_move (memory : Bool) (hdest : dest ≠ 0) :
    takeId proc r dest memory = .ok (proc, none) ∨
    ∃ proc', takeId proc r dest memory = .ok (proc', some (proc.lastUsedId + 1)) ∧
      ProcInv proc' held ∧ proc'.initialized = proc.initialized ∧
      proc'.keys.Perm (parts r.key (proc.lastUsedId + 1) ++ proc.used.map key) := by
  obtain ⟨hstart, hlast, -, htag, -⟩ := h.next hr
  have hzero : r.start = proc.lastUsedId + 1 → r.tag = 0 := fun hfirst =>
    h.counted.eq_zero (mem_ranges.2 (.inr hr)) fun _ hx => h.not_held hr hfirst hx
  rw [takeId]
  rw [if_neg (by omega), if_neg (by omega), if_neg hdest]
  by_cases hone : r.start = r.last
  · have hfirst : r.start = proc.lastUsedId + 1 := by omega
    rw [if_pos hone, if_pos (hzero hfirst), parts_one (k := r.key) hfirst (hfirst.symm.trans hone)]
    refine .inr ⟨_, rfl, h.cut_one hr hfirst, rfl, ?_⟩
    rw [Proc.keys, ranges_eq rfl]
    exact .refl _
  rw [if_neg hone]
  by_cases hfirst : r.start = proc.lastUsedId + 1
  · have hlast : proc.lastUsedId + 1 < r.last := by omega
    rw [if_pos hfirst, if_pos (hzero hfirst), parts_first (k := r.key) hfirst hlast]
    refine .inr ⟨_, rfl, h.cut_first hr hfirst hlast, rfl, ?_⟩
    rw [← hfirst]
    exact keys_perm (r := { r with start := r.start + 1 }) rfl
  rw [if_neg hfirst]
  have hfirst : r.start < proc.lastUsedId + 1 := by omega
  by_cases hend : r.last = proc.lastUsedId + 1
  · rw [if_pos hend, parts_last (k := r.key) hfirst hend.symm, hend]
    refine .inr ⟨_, rfl, h.cut_before hr hfirst, rfl, ?_⟩
    rw [Proc.keys, ranges_eq rfl]
    exact (insertRange_perm _ _).map key
  rw [if_neg hend]
  cases memory with
  | false => exact .inl rfl
  | true =>
    have hlast : proc.lastUsedId + 1 < r.last := by omega
    rw [if_neg (by simp), if_neg (by omega), parts_middle (k := r.key) hfirst hlast]
    refine .inr ⟨_, rfl, h.cut_middle hr hfirst hlast, rfl, ?_⟩
    refine (keys_perm (r := ⟨proc.lastUsedId + 1 + 1, r.last, 0⟩) rfl).trans ?_
    exact (((insertRange_perm _ _).map key).cons _).trans (.swap _ _ _)

end TakeId

/-! ## Releasing an ID -/

theorem ranges_perm_erase (hu : u ∈ proc.used) :
    proc.ranges.Perm (u :: (proc.used.erase u ++ proc.lastRange.toList)) :=
  (perm_cons_erase hu).append_right _

theorem ProcInv.not_others (h : ProcInv proc held) (hu : u ∈ proc.used) (hid : u.has id = true) :
    ∀ x ∈ proc.used.erase u ++ proc.lastRange.toList, x.has id = false := by
  intro x hx
  rcases mem_append.1 hx with hx | hx
  · rw [Bool.eq_false_iff]
    intro hhas
    obtain ⟨hne, hx⟩ := h.ordered.nodup.mem_erase_iff.1 hx
    exact hne (h.ordered.unique hx hu hhas hid)
  · have := h.apart x (Option.mem_toList.1 hx) u hu
    rw [has_iff] at hid
    rw [has_eq_false_iff]
    omega

/-- `release_id` on the tree. -/
theorem ProcInv.releaseUsed_spec (h : ProcInv proc held) (hid : id ∈ held) (hu : u ∈ proc.used)
    (hhas : u.has id = true) :
    ∃ proc' range, releaseUsed proc id = .ok (proc', range) ∧ ProcInv proc' (held.erase id) ∧
      proc'.initialized = proc.initialized ∧ proc'.pc = proc.pc ∧
      proc.keys.Perm (range.toList ++ proc'.keys) := by
  have hcounted := h.counted.perm (ranges_perm_erase hu).symm
  have hgive := hcounted.give hid hhas (h.not_others hu hhas)
  have hpos := hcounted.pos mem_cons_self hid hhas
  have hfresh : ∀ r ∈ proc.lastRange, ∀ x ∈ held.erase id, r.has x = true →
      x ≤ proc.lastUsedId := fun r hr x hx => h.fresh r hr x (mem_of_mem_erase hx)
  have hkeys := (ranges_perm_erase hu).map key
  have hin := has_iff.1 hhas
  rw [releaseUsed, h.ordered.lowerBound_eq hu hhas]
  simp only
  rw [if_neg (by omega), if_neg (by omega)]
  by_cases hzero : u.tag - 1 = 0
  · rw [if_pos hzero]
    refine ⟨_, _, rfl, ⟨h.ordered.sublist erase_sublist, fun r hr x hx => ?_, h.last, ?_,
      hfresh, h.nodup.erase id⟩, rfl, rfl, hkeys⟩
    · exact h.apart r hr x (mem_of_mem_erase hx)
    · exact hgive.tail fun x hx => hgive.has_eq_false mem_cons_self hzero hx
  · rw [if_neg hzero]
    have hput : (put u { u with tag := u.tag - 1 } proc.used).Perm
        ({ u with tag := u.tag - 1 } :: proc.used.erase u) := h.ordered.put_perm hu
    have hle := h.ordered.start_le hu
    refine ⟨_, _, rfl, ⟨h.ordered.put hle le_rfl le_rfl,
      fun r hr x hx => ?_, h.last, hgive.perm (hput.append_right _), hfresh, h.nodup.erase id⟩,
      rfl, rfl, hkeys.trans ((hput.append_right _).map key).symm⟩
    rcases mem_cons.1 (hput.mem_iff.1 hx) with rfl | hx
    · exact h.apart r hr u hu
    · exact h.apart r hr x (mem_of_mem_erase hx)

/-- `release_id`: the ID is not in use any more, and a range of which none is may be released. -/
theorem ProcInv.releaseId_spec (h : ProcInv proc held) (hid : id ∈ held) :
    ∃ proc' range, releaseId proc id = .ok (proc', range) ∧ ProcInv proc' (held.erase id) ∧
      proc'.initialized = proc.initialized ∧ proc'.pc = proc.pc ∧
      proc.keys.Perm (range.toList ++ proc'.keys) := by
  obtain ⟨u, hu, hhas⟩ := h.counted.covered id hid
  rw [releaseId]
  rcases mem_ranges.1 hu with hu | hu
  · have hspec := h.releaseUsed_spec hid hu hhas
    cases hr : proc.lastRange with
    | none => exact hspec
    | some r =>
      have := h.apart r hr u hu
      have := has_iff.1 hhas
      simp only
      rwa [if_neg (by omega)]
  · have hr : proc.lastRange = some u := hu
    have hcounted := h.counted.perm (ranges_perm hr).symm
    have hpos := hcounted.pos mem_cons_self hid hhas
    simp only [hr]
    rw [if_pos (has_iff.1 hhas), if_neg (by omega)]
    refine ⟨_, _, rfl, ⟨h.ordered, ?_, ?_, ?_, ?_, h.nodup.erase id⟩, rfl, rfl, ?_⟩
    · rintro _ ⟨⟩
      exact h.apart u hr
    · rintro _ ⟨⟩
      exact h.last u hr
    · refine Counted.perm ?_ (ranges_perm rfl)
      exact hcounted.give hid hhas fun x hx => h.not_used hr hhas hx
    · rintro _ ⟨⟩ x hx hhas
      exact h.fresh u hr x (mem_of_mem_erase hx) hhas
    · exact (keys_perm hr).trans
        (List.Perm.symm (keys_perm (r := { u with tag := u.tag - 1 }) rfl))

end Pid
