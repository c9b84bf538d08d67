import Gramine.PidRun

/-!
# Ranges that are given back

A range goes back to the leader with the last of its IDs in use, from the tree only. A range that
gets into the tree when none of its IDs is in use stays there.
-/

open Function List Transition

namespace Pid

open RangeTree

variable {s s' : State} {l : Label} {p dest id : Nat} {memory : Bool} {r u : Range Nat}
  {proc proc' : Proc} {tree : List (Range Nat)}

/-- Every range in the trees counts its IDs in use, and there are some. -/
def State.InUse (s : State) : Prop :=
  ∀ p, ∀ r ∈ (s.proc p).used, r.tag = (s.held p).countP r.has ∧ 0 < r.tag

/-- An ID is cut out of the last range for a new owner, and leaves a part before it of which no ID
is in use. -/
def Proc.Strands (proc : Proc) (r : Range Nat) (dest : Nat) (memory : Bool) : Prop :=
  dest ≠ 0 ∧ r.tag = 0 ∧ r.start < proc.lastUsedId + 1 ∧
    (r.last = proc.lastUsedId + 1 ∨ memory = true)

def State.Strands (s : State) : Label → Prop
  | .getNewId p dest memory => ∃ r ∈ (s.proc p).lastRange, (s.proc p).Strands r dest memory
  | _ => False

/-- No count is 0. -/
def Positive (tree : List (Range Nat)) : Prop := ∀ r ∈ tree, 0 < r.tag

theorem positive_insertRange : Positive (insertRange r tree) ↔ 0 < r.tag ∧ Positive tree := by
  simp only [Positive, (insertRange_perm r tree).mem_iff, forall_mem_cons]

/-- `get_new_id` from the point on where there is a range. -/
theorem takeId_positive {ret : Option Nat} (h : takeId proc r dest memory = .ok (proc', ret))
    (hstart : r.start ≤ proc.lastUsedId + 1) :
    Positive proc'.used ↔ Positive proc.used ∧ ¬ proc.Strands r dest memory := by
  simp only [takeId] at h
  split_ifs at h <;> cases h
  all_goals grind [positive_insertRange, Proc.Strands]

theorem releaseUsed_positive {range : Option (Nat × Nat)}
    (h : releaseUsed proc id = .ok (proc', range)) : Positive proc'.used ↔ Positive proc.used := by
  rw [releaseUsed] at h
  split at h
  · cases h
  rename_i u hu
  split_ifs at h with _ hpos hlast <;> cases h
  · refine ⟨fun hrest r hr => ?_, fun hall r hr => hall r (mem_of_mem_erase hr)⟩
    by_cases hru : r = u
    · rw [hru]
      exact Nat.pos_of_ne_zero hpos
    · exact hrest r ((mem_erase_of_ne hru).2 hr)
  · refine forall_mem_map.trans (forall₂_congr fun r _ => ?_)
    split_ifs with hru
    · subst hru
      exact ⟨fun _ => Nat.pos_of_ne_zero hpos, fun _ => Nat.pos_of_ne_zero hlast⟩
    · rfl

theorem releaseId_positive {range : Option (Nat × Nat)}
    (h : releaseId proc id = .ok (proc', range)) : Positive proc'.used ↔ Positive proc.used := by
  rw [releaseId] at h
  split at h
  · split_ifs at h
    · cases h
      rfl
    · exact releaseUsed_positive h
  · exact releaseUsed_positive h

/-- No count is 0 in any tree. -/
def State.Positive (s : State) : Prop := ∀ p, Pid.Positive (s.proc p).used

theorem positive_iff {c : Prop} (hproc : s'.proc = update s.proc p proc)
    (h : Positive proc.used ↔ Positive (s.proc p).used ∧ ¬ c) : s'.Positive ↔ s.Positive ∧ ¬ c := by
  rw [State.Positive, hproc, forall_update_iff s.proc fun _ proc => Positive proc.used, h,
    and_right_comm]
  exact and_congr_left fun _ => ⟨fun ⟨hp, hrest⟩ q => if hq : q = p then hq ▸ hp else hrest q hq,
    fun hall => ⟨hall p, fun q _ => hall q⟩⟩

theorem take_positive {ret : Option Nat} (h : s.take p r dest memory = .ok (s', ret))
    (hstart : r.start ≤ (s.proc p).lastUsedId + 1) :
    s'.Positive ↔ s.Positive ∧ ¬ (s.proc p).Strands r dest memory := by
  rw [State.take] at h
  split at h
  · cases h
  all_goals
    rename_i htake
    have hpos := takeId_positive htake hstart
  · cases h
    exact positive_iff rfl hpos
  · split_ifs at h <;> cases h <;> exact positive_iff rfl hpos

/-- **The step lemma**: where a range without an ID in use gets into a tree. -/
theorem Inv.step_positive (h : Inv s) (hs : Step s l s') :
    s'.Positive ↔ s.Positive ∧ ¬ s.Strands l := by
  obtain ⟨ret, hs⟩ := hs
  cases l <;> simp only [step] at hs <;> simp only [State.Strands]
  case getNewId p dest memory =>
    split_ifs at hs with hidle
    rw [State.getNewId] at hs
    cases hr : (s.proc p).lastRange with
    | none =>
      rw [hr] at hs
      split_ifs at hs <;> cases hs
      · exact positive_iff rfl (by simp)
      · simp
    | some r =>
      rw [hr] at hs
      have hstart := ((h.each p).proc.last r hr).1
      rw [take_positive (Option.some.inj hs) hstart]
      simp
  case allocRange p memory =>
    split at hs
    · split_ifs at hs
      · split at hs <;> cases hs
        exact positive_iff rfl (by simp)
      · cases hs
        exact positive_iff rfl (by simp)
    · cases hs
  case gotRange p memory =>
    split at hs
    · cases hs
      exact positive_iff rfl (by simp)
    · rename_i dest start last _
      split_ifs at hs with hvalid
      · -- nothing of a new range is before its first ID
        have hpos : 0 < start := by simp_all [validRange]
        have hsame : (s.setProc p { s.proc p with
            lastRange := some ⟨start, last, 0⟩, lastUsedId := start - 1, pc := .idle }).Positive ↔
              s.Positive ∧ ¬ False := positive_iff rfl (by simp)
        rw [take_positive (Option.some.inj hs) (by simp [State.setProc]; omega), hsame]
        simp [State.setProc, Proc.Strands]
        omega
      · cases hs
    · cases hs
  case changeOwner p =>
    split at hs
    · split at hs <;> cases hs
      exact positive_iff rfl (by simp)
    · cases hs
  case gotOwner p =>
    split at hs <;> cases hs
    exact positive_iff rfl (by simp)
  case release p id =>
    split_ifs at hs
    split at hs
    · cases hs
    · rename_i hrel
      cases hs
      exact positive_iff rfl (by simp [releaseId_positive hrel])
  case releaseRange p range =>
    split_ifs at hs
    split at hs <;> cases hs
    simp [State.Positive]
  case init p id =>
    split_ifs at hs
    cases hs
    exact positive_iff rfl (by simp [positive_insertRange])

theorem Inv.range_released (h : Inv s) (hs : Step s (.release p id) s')
    (hu : u ∈ (s.proc p).used) (hid : u.has id = true)
    (hlast : ∀ x ∈ (s.held p).erase id, u.has x = false) : (p, u.key) ∈ s'.releases := by
  obtain ⟨ret, hs⟩ := hs
  have hproc := (h.each p).proc
  have hin := has_iff.1 hid
  simp only [step] at hs
  split_ifs at hs with hheld
  have htag : u.tag = 1 := by
    rw [hproc.counted.taken u (mem_ranges.2 (.inl hu)), (perm_cons_erase hheld.2).countP_eq,
      countP_cons_of_pos hid, countP_eq_zero.2 fun x hx => by simp [hlast x hx]]
  have hrel : releaseId (s.proc p) id = releaseUsed (s.proc p) id := by
    rw [releaseId]
    split
    · rename_i r hr
      have := hproc.apart r hr u hu
      rw [if_neg (by omega)]
    · rfl
  rw [hrel, releaseUsed, hproc.ordered.lowerBound_eq hu hid] at hs
  simp only at hs
  rw [if_neg (by omega), if_neg (by omega), if_pos (by omega)] at hs
  cases hs
  exact mem_cons_self

/-- **Ranges are given back** in the runs in which no ID is moved to a new owner when the IDs before
it in the last range have all been released, and only in these. -/
theorem ranges_returned_iff (s : State) :
    (Reachable Initial (Guarded (fun s l => ¬ s.Strands l) Step) s ↔
      Reachable Initial Step s ∧ s.InUse) ∧
    (Reachable Initial Step s → ∀ p id s', Step s (.release p id) s' →
      ∀ u ∈ (s.proc p).used, u.has id = true → (∀ x ∈ (s.held p).erase id, u.has x = false) →
        (p, u.key) ∈ s'.releases) := by
  have hinUse : ∀ {s}, Reachable Initial Step s → (s.InUse ↔ s.Positive) := fun hr =>
    forall₃_congr fun p r hu => and_iff_right
      (((inv_of_reachable hr).each p).proc.counted.taken r (mem_ranges.2 (.inl hu)))
  refine ⟨⟨fun hr => ⟨hr.of_guarded, (hinUse hr.of_guarded).2 ?_⟩, fun h => ?_⟩,
    fun hr p id s' hs u hu => (inv_of_reachable hr).range_released hs hu⟩
  · induction hr with
    | init h => simp [State.Positive, Positive, h.2.1, Proc.empty]
    | step l hr hs ih => exact ((inv_of_reachable hr.of_guarded).step_positive hs.2).2 ⟨ih, hs.1⟩
  · obtain ⟨hr, huse⟩ := h
    rw [hinUse hr] at huse
    induction hr with
    | init h => exact .init h
    | step l hr hs ih =>
      obtain ⟨hpos, hnot⟩ := ((inv_of_reachable hr).step_positive hs).1 huse
      exact .step l (ih hpos) ⟨hnot, hs⟩

/-- The first ID is released before the second one is moved: its range stays in the tree. -/
theorem range_not_returned : ∃ s, Reachable Initial Step s ∧ (s.proc 1).pc = .idle ∧
    s.held 1 = [] ∧ ⟨1, 1, 0⟩ ∈ (s.proc 1).used ∧ s.releases = [] ∧ ¬ s.InUse := by
  have h1 := reachable_empty.step (Label.getNewId 1 0 true) ⟨none, rfl⟩
  have h2 := h1.step (Label.allocRange 1 true) ⟨none, rfl⟩
  have h3 := h2.step (Label.gotRange 1 true) ⟨some 1, rfl⟩
  have h4 := h3.step (Label.release 1 1) ⟨none, rfl⟩
  have h5 := h4.step (Label.getNewId 1 2 true) ⟨none, rfl⟩
  have h6 := h5.step (Label.changeOwner 1) ⟨none, rfl⟩
  have h7 := h6.step (Label.gotOwner 1) ⟨some 2, rfl⟩
  have hmem : (⟨1, 1, 0⟩ : Range Nat) ∈ [⟨1, 1, 0⟩] := mem_cons_self
  exact ⟨_, h7, rfl, rfl, hmem, rfl, fun huse => absurd (huse 1 _ hmem).2 (by decide)⟩

end Pid
