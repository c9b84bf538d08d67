import Gramine.Pid

/-!
# The leader's ranges

What the leader does to its tree: a new range lies behind all earlier ones, a change of the
owner takes one ID out of its range, and a release removes a range.
-/

open List

namespace Pid

open RangeTree

variable {leader : Leader} {tree : List (Range Nat)} {r : Range Nat} {id owner : Nat}

/-- The ranges are apart, and `g_last_id` is not before any of them. -/
structure LeaderInv (leader : Leader) : Prop where
  ordered : Ordered leader.tree
  bounds : ∀ r ∈ leader.tree, 0 < r.start ∧ r.last ≤ leader.lastId
  lastId : leader.lastId ≤ pidMax

/-- The ranges of an owner. -/
abbrev keysOf (tree : List (Range Nat)) (owner : Nat) : List (Nat × Nat) :=
  keysFor Range.tag Range.key tree owner

/-- A range with its owner. -/
def ownedBy (owner : Nat) (k : Nat × Nat) : Range Nat := ⟨k.1, k.2, owner⟩

theorem keysOf_ownedBy (keys : List (Nat × Nat)) (p owner : Nat) :
    keysOf (keys.map (ownedBy p)) owner = if p = owner then keys else [] := by
  induction keys with
  | nil => exact (ite_self _).symm
  | cons k keys ih =>
    rw [keysOf] at ih
    rw [map_cons, keysOf, keysFor_cons, ih]
    show (if p = owner then [k] else []) ++ _ = _
    split_ifs <;> rfl

theorem mem_keysOf {k : Nat × Nat} : k ∈ keysOf tree owner ↔ ownedBy owner k ∈ tree := by
  rw [mem_keysFor]
  constructor
  · rintro ⟨r, hr, rfl, rfl⟩
    exact hr
  · intro h
    exact ⟨_, h, rfl, rfl⟩

theorem keysOf_apart (h : Ordered tree) (owner : Nat) : (keysOf tree owner).Pairwise Apart :=
  (h.sublist filter_sublist).apart_keys

theorem findIdOwner_eq (h : Ordered tree) (hr : r ∈ tree) (hid : r.has id = true) :
    findIdOwner tree id = r.tag := by
  rw [findIdOwner, h.lowerBound_eq hr hid]
  have := has_iff.1 hid
  exact if_neg (by omega)

/-! ## A new range -/

/-- No range ends behind `g_last_id`, so the loop finds none. -/
theorem LeaderInv.findFreeIdRange_eq (h : LeaderInv leader) (hmax : leader.lastId < pidMax) :
    findFreeIdRange leader = .ok (some (leader.lastId + 1, rangeEnd (leader.lastId + 1))) := by
  have hnone : leader.tree.dropWhile (fun r => !decide (leader.lastId + 1 ≤ r.last)) = [] := by
    rw [dropWhile_eq_nil_iff]
    intro r hr
    have := (h.bounds r hr).2
    simp only [Bool.not_eq_true', decide_eq_false_iff_not]
    omega
  rw [findFreeIdRange, if_neg (by omega), hnone, scanRanges]

theorem validRange_iff {start last : Nat} : validRange start last = true ↔
    start ≤ last ∧ last - start + 1 ≤ maxRangeSize ∧ 0 < start := by
  simp [validRange, and_assoc]

theorem rangeEnd_bounds {start : Nat} (hpos : 0 < start) (hmax : start ≤ pidMax) :
    start ≤ rangeEnd start ∧ rangeEnd start ≤ pidMax ∧
      validRange start (rangeEnd start) = true := by
  rw [validRange_iff]
  simp only [rangeEnd, maxRangeSize]
  omega

/-- The leader either stops at `PID_MAX` or gives a range behind all others. -/
theorem LeaderInv.allocIdRange_spec (h : LeaderInv leader) (howner : owner ≠ 0) :
    allocIdRange leader owner = .error .pidMax ∨
    ∃ leader' k, allocIdRange leader owner = .ok (leader', k) ∧ LeaderInv leader' ∧
      leader'.tree.Perm (ownedBy owner k :: leader.tree) ∧ validRange k.1 k.2 = true := by
  by_cases hmax : leader.lastId < pidMax
  · obtain ⟨hle, hend, hvalid⟩ := rangeEnd_bounds
      (show 0 < leader.lastId + 1 from Nat.succ_pos leader.lastId) hmax
    let k := (leader.lastId + 1, rangeEnd (leader.lastId + 1))
    refine .inr ⟨⟨insertRange (ownedBy owner k) leader.tree, k.2⟩, k, ?_, ?_,
      insertRange_perm _ _, hvalid⟩
    · rw [allocIdRange, if_neg howner, h.findFreeIdRange_eq hmax]
      exact if_neg (by omega)
    refine ⟨h.ordered.insertRange hle fun a ha => ?_, fun a ha => ?_, hend⟩
    · exact .inl (Nat.lt_succ_of_le (h.bounds a ha).2)
    show 0 < a.start ∧ a.last ≤ rangeEnd (leader.lastId + 1)
    rcases mem_cons.1 ((insertRange_perm _ _).mem_iff.1 ha) with rfl | ha
    · exact ⟨Nat.succ_pos _, le_rfl⟩
    · have := h.bounds a ha
      omega
  · left
    rw [allocIdRange, if_neg howner, findFreeIdRange, if_pos (by omega)]

/-! ## A change of the owner -/

theorem LeaderInv.changeIdOwner_spec (h : LeaderInv leader) (hr : r ∈ leader.tree)
    (hid : r.has id = true) (dest : Nat) :
    ∃ tree, changeIdOwner leader.tree id dest = .ok tree ∧ LeaderInv { leader with tree := tree } ∧
      tree.Perm (ownedBy dest (id, id) ::
        ((parts r.key id).map (ownedBy r.tag) ++ leader.tree.erase r)) := by
  obtain ⟨hstart, hlast⟩ := has_iff.1 hid
  have hbounds := h.bounds r hr
  -- the bounds hold for every range within the old one
  suffices hspec : ∃ tree, changeIdOwner leader.tree id dest = .ok tree ∧ Ordered tree ∧
      tree.Perm (ownedBy dest (id, id) ::
        ((parts r.key id).map (ownedBy r.tag) ++ leader.tree.erase r)) by
    obtain ⟨tree, heq, hordered, hperm⟩ := hspec
    refine ⟨tree, heq, ⟨hordered, fun a ha => ?_, h.lastId⟩, hperm⟩
    show 0 < a.start ∧ a.last ≤ leader.lastId
    rcases mem_cons.1 (hperm.mem_iff.1 ha) with rfl | ha
    · exact ⟨by show 0 < id; omega, by show id ≤ _; omega⟩
    rcases mem_append.1 ha with ha | ha
    · obtain ⟨k, hk, rfl⟩ := mem_map.1 ha
      have := mem_parts (k := r.key) ⟨hstart, hlast⟩ hk
      simp only [Range.key, ownedBy] at this ⊢
      omega
    · exact h.bounds a (mem_of_mem_erase ha)
  rw [changeIdOwner, h.ordered.lowerBound_eq hr hid]
  simp only
  rw [if_neg (by omega)]
  have hle := h.ordered.start_le hr
  by_cases hone : r.start = r.last
  · have hid : r.start = id := by omega
    rw [if_pos hone, if_pos hid.symm, parts_one (k := r.key) hid (hid.symm.trans hone)]
    have hid' : ownedBy dest (id, id) = { r with tag := dest } := by
      show (⟨id, id, dest⟩ : Range Nat) = ⟨r.start, r.last, dest⟩
      congr 1 <;> omega
    rw [hid']
    exact ⟨_, rfl, h.ordered.put hle le_rfl le_rfl, h.ordered.put_perm hr⟩
  rw [if_neg hone]
  by_cases hfirst : r.start = id
  · rw [if_pos hfirst, parts_first (k := r.key) hfirst (show id < r.last by omega), ← hfirst]
    refine ⟨_, rfl, h.ordered.insertRange_put ?_ ?_ le_rfl hr le_rfl ?_ ?_,
      (insertRange_perm _ _).trans ((h.ordered.put_perm hr).cons _)⟩
    all_goals simp only; omega
  rw [if_neg hfirst]
  by_cases hend : r.last = id
  · subst hend
    rw [if_pos rfl, parts_last (k := r.key) (show r.start < r.last by omega) rfl]
    refine ⟨_, rfl, h.ordered.insertRange_put ?_ le_rfl ?_ hr le_rfl ?_ ?_,
      (insertRange_perm _ _).trans ((h.ordered.put_perm hr).cons _)⟩
    all_goals simp only; omega
  rw [if_neg hend, if_neg (by omega),
    parts_middle (k := r.key) (show r.start < id by omega) (show id < r.last by omega)]
  have hput : Ordered
      (insertRange ⟨id, id, dest⟩ (put r { r with last := id - 1 } leader.tree)) := by
    refine h.ordered.insertRange_put ?_ le_rfl ?_ hr le_rfl ?_ ?_
    all_goals simp only; omega
  have hperm : (insertRange ⟨id, id, dest⟩ (put r { r with last := id - 1 } leader.tree)).Perm
      (ownedBy dest (id, id) :: { r with last := id - 1 } :: leader.tree.erase r) :=
    (insertRange_perm _ _).trans ((h.ordered.put_perm hr).cons _)
  refine ⟨_, rfl, hput.insertRange (by simp only; omega) fun a ha => ?_, ?_⟩
  · rcases mem_cons.1 (hperm.mem_iff.1 ha) with rfl | ha
    · exact .inl (Nat.lt_succ_self id)
    rcases mem_cons.1 ha with rfl | ha
    · simp only
      omega
    have hne : a ≠ r := fun heq => (h.ordered.nodup.mem_erase_iff.1 ha).1 heq
    have := h.ordered.apart_of_ne (mem_of_mem_erase ha) hr hne
    simp only
    omega
  · refine (insertRange_perm _ _).trans ((hperm.cons _).trans ?_)
    exact (List.Perm.swap _ _ _).trans ((List.Perm.swap _ _ _).cons _)

/-! ## A release -/

theorem LeaderInv.releaseIdRange_spec (h : LeaderInv leader) (hr : r ∈ leader.tree) :
    releaseIdRange leader.tree r.start r.last = .ok (leader.tree.erase r) ∧
      LeaderInv { leader with tree := leader.tree.erase r } := by
  refine ⟨?_, ⟨h.ordered.sublist erase_sublist, fun a ha => ?_, h.lastId⟩⟩
  · rw [releaseIdRange, h.ordered.findOverlap_eq hr]
    exact if_neg (by simp)
  · exact h.bounds a (mem_of_mem_erase ha)

end Pid
