import Gramine.RwLock

/-!
# Steps of the readers-writer lock

Each step keeps the invariant. A step of a reader changes the numbers of readers and at
most one field; a step of the writer takes the lock from one phase to the next.
-/

open Function

namespace RwLock

variable {T : Type} [Fintype T] [DecidableEq T] {s s' : State T} {t u : T}

/-! ## Steps of readers -/

theorem tally_readers (pc : T → Pc) (t : T) (l : Pc) :
    ∀ c ∈ [Pc.readLockWait, .readLockWoken, .readLockLast, .reading, .readUnlockSlow,
      .readUnlockLast], tally (update pc t l) c + (if pc t = c then 1 else 0) =
        tally pc c + if l = c then 1 else 0 :=
  fun c _ => tally_update pc t l c

/-- `rwlock_read_lock`. -/
theorem readLock_inv (hcard : Fintype.card T < 2 ^ 60) (h : Inv s) (hpc : s.pc t = .idle) :
    Inv ({ s with state := s.state + 1 }.goto t
      (if s.state < 0 then .readLockWait else .reading)) := by
  have hphase := h.phase
  have hlt := tally_lt hcard s.pc
  have hwait := tally_readers s.pc t .readLockWait
  have hread := tally_readers s.pc t .reading
  simp [hpc] at hwait hread
  split_ifs
  all_goals
    refine h.reader hpc rfl (by decide) rfl rfl ?_
    cases hw : s.writer <;> simp only [hw, Phase, Handoff, State.goto] at hphase ⊢ <;> omega

variable (h : Inv s)

include h

theorem readLockWait_inv (hpc : s.pc t = .readLockWait)
    (hset : s.readersWait = true) : Inv (s.goto t .readLockWoken) := by
  have hphase := h.phase
  have hn := tally_readers s.pc t .readLockWoken
  simp [hpc] at hn
  refine h.reader hpc rfl (by decide) rfl rfl ?_
  cases hw : s.writer <;>
    simp only [hw, Phase, Handoff, State.goto, hset, Bool.toNat_true, true_and] at hphase ⊢ <;>
    omega

omit h in
theorem readLockWoken_inv (hcard : Fintype.card T < 2 ^ 60) (h : Inv s)
    (hpc : s.pc t = .readLockWoken) :
    Inv ({ s with waitingReaders := (s.waitingReaders + (2 ^ 64 - 1)) % 2 ^ 64 }.goto t
      (if (s.waitingReaders + (2 ^ 64 - 1)) % 2 ^ 64 = 0 then .readLockLast else .reading)) := by
  have hphase := h.phase
  have hle : tally s.pc .readLockWait + tally s.pc .readLockWoken ≤ Fintype.card T := by
    refine Census.count_add_count_le ?_ s.pc
    intro l hl
    rw [beq_iff_eq.1 hl]
    rfl
  -- it is one of those that are counted, so the counter does not wrap around
  have hpos : 0 < tally s.pc .readLockWoken := Census.count_pos (t := t) (by simp [hpc])
  have hsub : s.writer = .writeUnlockWait → (s.waitingReaders + (2 ^ 64 - 1)) % 2 ^ 64 =
      s.waitingReaders - 1 := by
    intro hw
    simp only [hw, Phase] at hphase
    omega
  have hwait : s.writer = .writeUnlockWait := by
    cases hw : s.writer <;> simp only [hw, Phase] at hphase <;> first | rfl | omega
  rw [hsub hwait]
  simp only [hwait, Phase, Handoff] at hphase
  have hlast := tally_readers s.pc t .readLockLast
  have hread := tally_readers s.pc t .reading
  simp [hpc] at hlast hread
  split_ifs
  all_goals
    refine h.reader hpc rfl (by decide) rfl rfl ?_
    simp only [hwait, Phase, Handoff, State.goto]
    omega

theorem lastReader_inv {l : Pc}
    (hpc : s.pc t = .readLockLast ∧ l = .reading ∨ s.pc t = .readUnlockLast ∧ l = .idle) :
    Inv ({ s with writerWait := true }.goto t l) := by
  have hphase := h.phase
  have hn := tally_readers s.pc t l
  rcases hpc with ⟨hpc, rfl⟩ | ⟨hpc, rfl⟩ <;> simp [hpc] at hn
  all_goals
    refine h.reader hpc rfl (by decide) rfl rfl ?_
    cases hw : s.writer <;>
      simp only [hw, Phase, Handoff, State.goto, Bool.toNat_true, and_true] at hphase ⊢ <;> omega

omit h in
/-- `rwlock_read_unlock`. -/
theorem readUnlock_inv (hcard : Fintype.card T < 2 ^ 60) (h : Inv s) (hpc : s.pc t = .reading) :
    Inv ({ s with state := s.state - 1 }.goto t
      (if s.state - 1 < 0 then .readUnlockSlow else .idle)) := by
  have hphase := h.phase
  have hlt := tally_lt hcard s.pc
  have hslow := tally_readers s.pc t .readUnlockSlow
  have hidle := tally_readers s.pc t .idle
  simp [hpc] at hslow hidle
  split_ifs
  all_goals
    refine h.reader hpc rfl (by decide) rfl rfl ?_
    cases hw : s.writer <;> simp only [hw, Phase, Handoff, State.goto] at hphase ⊢ <;> omega

theorem readUnlockSlow_inv (hpc : s.pc t = .readUnlockSlow) :
    Inv ({ s with departingReaders := s.departingReaders - 1 }.goto t
      (if s.departingReaders - 1 = 0 then .readUnlockLast else .idle)) := by
  have hphase := h.phase
  have hlast := tally_readers s.pc t .readUnlockLast
  have hidle := tally_readers s.pc t .idle
  simp [hpc] at hlast hidle
  split_ifs
  all_goals
    refine h.reader hpc rfl (by decide) rfl rfl ?_
    cases hw : s.writer <;> simp only [hw, Phase, Handoff, State.goto] at hphase ⊢ <;> omega

/-! ## Steps of writers -/

/-- `rwlock_write_lock` is called. -/
theorem writeLock_inv (hpc : s.pc t = .idle) : Inv (s.goto t .writeLock) := by
  refine h.reader hpc rfl (by decide) rfl rfl ?_
  refine Phase.congr (s := s) h.phase fun c hc => ?_
  exact tally_update_of_not_reader (by rw [hpc]; rfl) rfl hc

/-- A writer takes `writers_lock`. -/
theorem takeWritersLock_inv (hpc : s.pc t = .writeLock) (hfree : s.writersLock = none) :
    Inv ({ s with writersLock := some t }.goto t .writeLockBegin) := by
  have hphase : Phase s (tally s.pc) .writeLockBegin := by
    have := h.phase
    rwa [State.writer, hfree] at this
  have hwriter : ({ s with writersLock := some t }.goto t .writeLockBegin : State T).writer =
      .writeLockBegin := by
    simp [State.writer, State.goto]
  refine h.move (l := .writeLockBegin) rfl (by decide) (by simp [State.goto, Pc.isWriter])
    (fun u hu => by simp [State.goto, hfree, Ne.symm hu]) ?_
  rw [hwriter]
  refine Phase.congr (n := tally s.pc) hphase fun c hc => ?_
  exact tally_update_of_not_reader (by rw [hpc]; rfl) rfl hc

/-- `rwlock_write_lock` hinders new readers. -/
theorem writeLockBegin_inv (hpc : s.pc t = .writeLockBegin) :
    Inv ({ s with state := s.state - writerWeight }.goto t
      (if 0 < s.state then .writeLockDepart s.state else .writing)) := by
  split_ifs with hpos
  all_goals
    refine h.writer hpc rfl rfl rfl rfl fun hphase => ?_
    simp only [Phase, State.goto] at hphase ⊢
    omega

/-- The readers that were found are added to those that have left already; the
assertion holds. -/
theorem writeLockDepart_inv {state : Int} (hpc : s.pc t = .writeLockDepart state) :
    Inv ({ s with departingReaders := s.departingReaders + state }.goto t
      (if s.departingReaders + state = 0 then .writing
        else if 0 < s.departingReaders + state then .writeLockWait else .assertFailed)) := by
  have hphase := h.phase_of hpc rfl
  simp only [Phase] at hphase
  split_ifs with hzero hpos
  · refine h.writer hpc rfl rfl rfl rfl fun _ => ?_
    simp only [Phase, State.goto]
    omega
  · refine h.writer hpc rfl rfl rfl rfl fun _ => ?_
    simp only [Phase, Handoff, State.goto]
    omega
  · omega

theorem writeLockWait_inv (hpc : s.pc t = .writeLockWait) (hset : s.writerWait = true) :
    Inv ({ s with writerWait := false }.goto t .writing) := by
  refine h.writer hpc rfl rfl rfl rfl fun hphase => ?_
  simp only [Phase, Handoff, State.goto, hset, Bool.toNat_true, Bool.toNat_false,
    true_and] at hphase ⊢
  omega

/-- `rwlock_write_unlock` lets new readers in; the assertion holds. -/
theorem writeUnlock_inv (hpc : s.pc t = .writing) :
    Inv ({ s with state := s.state + writerWeight }.goto t
      (if s.state + writerWeight < 0 then .assertFailed
        else if s.state + writerWeight = 0 then .writeUnlockEnd
        else .writeUnlockStore (s.state + writerWeight))) := by
  have hphase := h.phase_of hpc rfl
  simp only [Phase] at hphase
  split_ifs with hneg hzero
  · omega
  all_goals
    refine h.writer hpc rfl rfl rfl rfl fun _ => ?_
    simp only [Phase, State.goto]
    omega

omit h in
theorem writeUnlockStore_inv {state : Int} (hcard : Fintype.card T < 2 ^ 60) (h : Inv s)
    (hpc : s.pc t = .writeUnlockStore state) :
    Inv ({ s with waitingReaders := (state % 2 ^ 64).toNat }.goto t .writeUnlockSet) := by
  have hle := Census.count_le_card (· == Pc.readLockWait) s.pc
  refine h.writer hpc rfl rfl rfl rfl fun hphase => ?_
  simp only [Phase, State.goto, tally] at hphase ⊢
  omega

theorem writeUnlockSet_inv (hpc : s.pc t = .writeUnlockSet) :
    Inv ({ s with readersWait := true }.goto t .writeUnlockWait) := by
  refine h.writer hpc rfl rfl rfl rfl fun hphase => ?_
  simp only [Phase, Handoff, State.goto, Bool.toNat_true, true_and] at hphase ⊢
  omega

theorem writeUnlockWait_inv (hpc : s.pc t = .writeUnlockWait) (hset : s.writerWait = true) :
    Inv ({ s with writerWait := false }.goto t .writeUnlockClear) := by
  refine h.writer hpc rfl rfl rfl rfl fun hphase => ?_
  simp only [Phase, Handoff, State.goto, hset, Bool.toNat_true, Bool.toNat_false,
    true_and] at hphase ⊢
  omega

theorem writeUnlockClear_inv (hpc : s.pc t = .writeUnlockClear) :
    Inv ({ s with readersWait := false }.goto t .writeUnlockEnd) := by
  refine h.writer hpc rfl rfl rfl rfl fun hphase => ?_
  simp only [Phase, State.goto, Bool.toNat_false, true_and] at hphase ⊢
  omega

/-- A writer releases `writers_lock`. -/
theorem writeUnlockEnd_inv (hpc : s.pc t = .writeUnlockEnd) :
    Inv ({ s with writersLock := none }.goto t .idle) := by
  have hphase := h.phase_of hpc rfl
  have howner := (h.owner t).1 (by rw [hpc]; rfl)
  refine h.move (l := .idle) rfl (by decide) (by simp [State.goto, Pc.isWriter])
    (fun u hu => by simp [State.goto, howner, Ne.symm hu]) ?_
  refine Phase.congr (n := tally s.pc) hphase fun c hc => ?_
  exact tally_update_of_not_reader (by rw [hpc]; rfl) rfl hc

omit h

/-! ## All steps -/

omit [DecidableEq T] in
theorem initial_inv (h : Initial s) : Inv s := by
  obtain ⟨h1, h2, h3, h4, h5, h6, hpc⟩ := h
  have hzero : ∀ c : Pc, c ≠ .idle → tally s.pc c = 0 := by
    intro c hc
    refine Census.count_eq_zero.2 fun t => ?_
    simpa [hpc t] using hc.symm
  refine ⟨fun t => by simp [hpc t, h6, Pc.isWriter], ?_, fun t => by simp [hpc t]⟩
  rw [State.writer, h6]
  simp [Phase, hzero, h1, h2, h3, h4, h5]

/-- **Every step keeps the invariant.** -/
theorem step_inv (hcard : Fintype.card T < 2 ^ 60) {action : Action} (h : Inv s)
    (hs : step s t action = some s') : Inv s' := by
  unfold step at hs
  split at hs
  case h_1 hpc =>
    cases hs
    exact readLock_inv hcard h hpc
  case h_2 hpc =>
    split_ifs at hs with hset
    cases hs
    exact readLockWait_inv h hpc hset
  case h_3 hpc =>
    cases hs
    exact readLockWoken_inv hcard h hpc
  case h_4 hpc =>
    cases hs
    exact lastReader_inv h (.inl ⟨hpc, rfl⟩)
  case h_5 hpc =>
    cases hs
    exact readUnlock_inv hcard h hpc
  case h_6 hpc =>
    cases hs
    exact readUnlockSlow_inv h hpc
  case h_7 hpc =>
    cases hs
    exact lastReader_inv h (.inr ⟨hpc, rfl⟩)
  case h_8 hpc =>
    cases hs
    exact writeLock_inv h hpc
  case h_9 hpc =>
    split_ifs at hs with hfree
    cases hs
    exact takeWritersLock_inv h hpc hfree
  case h_10 hpc =>
    cases hs
    exact writeLockBegin_inv h hpc
  case h_11 hpc =>
    cases hs
    exact writeLockDepart_inv h hpc
  case h_12 hpc =>
    split_ifs at hs with hset
    cases hs
    exact writeLockWait_inv h hpc hset
  case h_13 hpc =>
    cases hs
    exact writeUnlock_inv h hpc
  case h_14 hpc =>
    cases hs
    exact writeUnlockStore_inv hcard h hpc
  case h_15 hpc =>
    cases hs
    exact writeUnlockSet_inv h hpc
  case h_16 hpc =>
    split_ifs at hs with hset
    cases hs
    exact writeUnlockWait_inv h hpc hset
  case h_17 hpc =>
    cases hs
    exact writeUnlockClear_inv h hpc
  case h_18 hpc =>
    cases hs
    exact writeUnlockEnd_inv h hpc
  case h_19 => cases hs

end RwLock
