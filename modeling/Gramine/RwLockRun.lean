import Gramine.RwLockInvariant

/-!
# The readers-writer lock is correct

Exclusion, the use of the two events and progress follow from the invariant: where the
writer is fixes the values of the fields and the places of the readers, so each property
is read off phase by phase. The counters stay within `int64_t`, and no reader overtakes a
writer that waits.
-/

namespace RwLock

variable {T : Type} [Fintype T] [DecidableEq T] {s s' : State T} {t u : T}

/-! ## Properties -/

/-- The thread has the lock. -/
def Pc.holds : Pc → Bool
  | .reading | .writing => true
  | _ => false

/-- The thread is in `rwlock_read_lock` or `rwlock_write_lock`. -/
def Pc.inLock : Pc → Bool
  | .readLockWait | .readLockWoken | .readLockLast | .writeLock | .writeLockBegin
  | .writeLockDepart _ | .writeLockWait => true
  | _ => false

/-- The thread is in `rwlock_read_unlock` or `rwlock_write_unlock`. -/
def Pc.inUnlock : Pc → Bool
  | .readUnlockSlow | .readUnlockLast | .writeUnlockStore _ | .writeUnlockSet | .writeUnlockWait
  | .writeUnlockClear | .writeUnlockEnd => true
  | _ => false

/-- The thread waits for an event that is not set, or for `writers_lock`. -/
def Blocked (s : State T) (t : T) : Prop :=
  match s.pc t with
  | .readLockWait => s.readersWait = false
  | .writeLockWait | .writeUnlockWait => s.writerWait = false
  | .writeLock => s.writersLock ≠ none
  | _ => False

/-- What the lock guarantees. -/
structure Correct (s : State T) : Prop where
  /-- A writer has the lock alone. -/
  exclusion : ∀ t u, s.pc t = .writing → u ≠ t → s.pc u ≠ .writing ∧ s.pc u ≠ .reading
  /-- While no writer waits, `writer_wait` is not set and nobody is about to set it. -/
  no_leftover : (∀ t, s.pc t ≠ .writeLockWait ∧ s.pc t ≠ .writeUnlockWait) →
    s.writerWait = false ∧ ∀ t, s.pc t ≠ .readLockLast ∧ s.pc t ≠ .readUnlockLast
  /-- It is set when the readers that the writer waits for have left or woken up. -/
  writer_wait : s.writerWait = true → (∃ t, s.pc t = .writeLockWait) ∧ s.departingReaders = 0 ∨
      (∃ t, s.pc t = .writeUnlockWait) ∧ s.waitingReaders = 0
  readers_wait : s.writersLock = none → s.readersWait = false
  /-- If nobody has the lock, somebody can go on. -/
  progress : (∀ t, (s.pc t).holds = false) → (∃ t, (s.pc t).inLock ∨ (s.pc t).inUnlock) →
    ∃ t, ((s.pc t).inLock ∨ (s.pc t).inUnlock) ∧ ¬ Blocked s t
  /-- If nobody has the lock or wants it, it is as it was created. -/
  quiescent : (∀ t, (s.pc t).holds = false ∧ (s.pc t).inLock = false) →
    s.state = 0 ∧ s.departingReaders = 0 ∧ s.waitingReaders = 0
  no_assert : ∀ t, s.pc t ≠ .assertFailed

/-! ## Consequences of the invariant -/

section Inv

section
omit [DecidableEq T]

theorem tally_ne_zero {pc : T → Pc} {l : Pc} (h : pc t = l) : tally pc l ≠ 0 :=
  ne_of_gt (Census.count_pos (t := t) (by simp [h]))

theorem tally_eq_zero {pc : T → Pc} {l : Pc} (h : ∀ t, pc t ≠ l) : tally pc l = 0 :=
  Census.count_eq_zero.2 fun t => by simpa using h t

theorem exists_of_tally_ne_zero {pc : T → Pc} {l : Pc} (h : tally pc l ≠ 0) : ∃ t, pc t = l := by
  obtain ⟨t, ht⟩ := Census.exists_of_count_ne_zero h
  exact ⟨t, by simpa using ht⟩

end

namespace Inv

section
omit [DecidableEq T]

theorem writer_cases (h : Inv s) : (s.writersLock = none ∧ s.writer = .idle) ∨
    ∃ t, s.writersLock = some t ∧ s.pc t = s.writer ∧ s.writer.isWriter = true := by
  cases hlock : s.writersLock with
  | none => exact .inl ⟨rfl, by rw [State.writer, hlock]⟩
  | some t =>
    have hw : s.pc t = s.writer := by rw [State.writer, hlock]
    exact .inr ⟨t, rfl, hw, hw ▸ (h.owner t).2 hlock⟩

theorem exclusion (h : Inv s) (ht : s.pc t = .writing) (hut : u ≠ t) :
    s.pc u ≠ .writing ∧ s.pc u ≠ .reading := by
  have hphase := h.phase_of ht rfl
  have howner := (h.owner t).1 (by rw [ht]; rfl)
  simp only [Phase] at hphase
  refine ⟨fun hu => ?_, fun hu => ?_⟩
  · have := (h.owner u).1 (by rw [hu]; rfl)
    rw [howner] at this
    exact hut (Option.some.inj this).symm
  · have := tally_ne_zero hu
    omega

/-- Where the writer is not waiting, `writer_wait` is not set, and no reader is about to
set it. -/
theorem no_leftover (h : Inv s) (hwait : ∀ t, s.pc t ≠ .writeLockWait ∧ s.pc t ≠ .writeUnlockWait) :
    s.writerWait = false ∧ ∀ t, s.pc t ≠ .readLockLast ∧ s.pc t ≠ .readUnlockLast := by
  have hphase := h.phase
  have hne : s.writer ≠ .writeLockWait ∧ s.writer ≠ .writeUnlockWait := by
    rcases h.writer_cases with ⟨-, hw⟩ | ⟨t, -, hw, -⟩
    · simp [hw]
    · exact hw ▸ hwait t
  have hclear : s.writerWait.toNat = 0 ∧ tally s.pc .readLockLast = 0 ∧
      tally s.pc .readUnlockLast = 0 := by
    cases hw : s.writer <;> simp only [hw, Phase] at hphase <;>
      first | omega | exact absurd hw hne.1 | exact absurd hw hne.2
  refine ⟨Bool.toNat_eq_zero.1 hclear.1, fun t => ⟨fun ht => ?_, fun ht => ?_⟩⟩
  · exact tally_ne_zero ht hclear.2.1
  · exact tally_ne_zero ht hclear.2.2

theorem writer_wait (h : Inv s) (hset : s.writerWait = true) :
    (∃ t, s.pc t = .writeLockWait) ∧ s.departingReaders = 0 ∨
      (∃ t, s.pc t = .writeUnlockWait) ∧ s.waitingReaders = 0 := by
  have hphase := h.phase
  rcases h.writer_cases with ⟨-, hw⟩ | ⟨t, -, ht, -⟩
  · simp [hw, Phase, hset] at hphase
  rw [← ht] at hphase
  cases hpc : s.pc t <;> simp only [hpc, Phase, Handoff, hset, Bool.toNat_true] at hphase
  case writeLockWait => exact .inl ⟨⟨t, hpc⟩, by omega⟩
  case writeUnlockWait => exact .inr ⟨⟨t, hpc⟩, by omega⟩
  all_goals omega

theorem readers_wait (h : Inv s) (hfree : s.writersLock = none) : s.readersWait = false := by
  have hphase := h.phase
  rw [State.writer, hfree] at hphase
  exact Bool.toNat_eq_zero.1 hphase.2.2.2.1

/-- Without a writer, nobody has to wait. -/
theorem progress_free (h : Inv s) (hfree : s.writersLock = none) : ¬ Blocked s t := by
  have hphase := h.phase
  have hwriter : (s.pc t).isWriter = false := by
    by_contra hw
    have := (h.owner t).1 (by simpa using hw)
    rw [hfree] at this
    cases this
  rw [State.writer, hfree] at hphase
  have hcount : ∀ l, s.pc t = l → tally s.pc l ≠ 0 := fun l hl => tally_ne_zero hl
  unfold Blocked
  cases hpc : s.pc t <;> simp only [hpc] at hwriter hcount
  case readLockWait => exact absurd hphase.2.2.2.2.2.1 (hcount _ rfl)
  case writeLock => exact fun hblocked => hblocked hfree
  all_goals first | exact id | simp [Pc.isWriter] at hwriter

theorem exists_not_blocked {l : Pc} (hl : tally s.pc l ≠ 0)
    (hin : l = .readLockWoken ∨ l = .readLockLast ∨ l = .readUnlockSlow ∨ l = .readUnlockLast) :
    ∃ t, ((s.pc t).inLock ∨ (s.pc t).inUnlock) ∧ ¬ Blocked s t := by
  obtain ⟨t, ht⟩ := exists_of_tally_ne_zero hl
  refine ⟨t, ?_, ?_⟩
  · rw [ht]
    rcases hin with rfl | rfl | rfl | rfl <;> decide
  · unfold Blocked
    rw [ht]
    rcases hin with rfl | rfl | rfl | rfl <;> exact id

theorem progress (h : Inv s) (hfree : ∀ t, (s.pc t).holds = false)
    (hin : ∃ t, (s.pc t).inLock ∨ (s.pc t).inUnlock) :
    ∃ t, ((s.pc t).inLock ∨ (s.pc t).inUnlock) ∧ ¬ Blocked s t := by
  rcases h.writer_cases with ⟨hlock, -⟩ | ⟨t, -, ht, hwriter⟩
  · obtain ⟨t, ht⟩ := hin
    exact ⟨t, ht, h.progress_free hlock⟩
  have hphase := h.phase
  have hreading : tally s.pc .reading = 0 := tally_eq_zero fun u hu => by
    have := hfree u
    rw [hu] at this
    cases this
  have hself : ((s.pc t).inLock ∨ (s.pc t).inUnlock) → ¬ Blocked s t →
      ∃ t, ((s.pc t).inLock ∨ (s.pc t).inUnlock) ∧ ¬ Blocked s t := fun h1 h2 => ⟨t, h1, h2⟩
  have hheld := hfree t
  rw [← ht] at hphase hwriter
  unfold Blocked at hself
  cases hpc : s.pc t <;> rw [hpc] at hphase hwriter hself hheld
  case writing => cases hheld
  case writeLockWait =>
    -- the readers it waits for go on, or one of them tells it, or it has been told
    simp only [Phase, Handoff] at hphase
    by_cases hset : s.writerWait = true
    · exact hself (by decide) (by simp [hset])
    by_cases hlast : tally s.pc .readUnlockLast = 0
    · refine exists_not_blocked (l := .readUnlockSlow) ?_ (by simp)
      have := Bool.toNat_eq_zero.2 (by simpa using hset)
      omega
    · exact exists_not_blocked hlast (by simp)
  case writeUnlockWait =>
    simp only [Phase, Handoff] at hphase
    by_cases hset : s.writerWait = true
    · exact hself (by decide) (by simp [hset])
    by_cases hlast : tally s.pc .readLockLast = 0
    · by_cases hwoken : tally s.pc .readLockWoken = 0
      · have hwaiting : tally s.pc .readLockWait ≠ 0 := by
          have := Bool.toNat_eq_zero.2 (by simpa using hset)
          omega
        obtain ⟨u, hu⟩ := exists_of_tally_ne_zero hwaiting
        refine ⟨u, by rw [hu]; decide, ?_⟩
        unfold Blocked
        rw [hu]
        simpa using Bool.toNat_eq_one.1 hphase.2.2.2.1
      · exact exists_not_blocked hwoken (by simp)
    · exact exists_not_blocked hlast (by simp)
  all_goals first
    | (simp [Pc.isWriter] at hwriter; done)
    | exact hself (by simp [Pc.inLock, Pc.inUnlock]) id

theorem quiescent (h : Inv s) (hidle : ∀ t, (s.pc t).holds = false ∧ (s.pc t).inLock = false) :
    s.state = 0 ∧ s.departingReaders = 0 ∧ s.waitingReaders = 0 := by
  have hzero : ∀ l : Pc, l.holds = true ∨ l.inLock = true → tally s.pc l = 0 := by
    intro l hl
    refine tally_eq_zero fun t ht => ?_
    have := hidle t
    rw [ht] at this
    rcases hl with hl | hl
    · rw [hl] at this
      cases this.1
    · rw [hl] at this
      cases this.2
  have h1 := hzero .readLockWait (by decide)
  have h2 := hzero .readLockWoken (by decide)
  have h3 := hzero .readLockLast (by decide)
  have h4 := hzero .reading (by decide)
  have hphase := h.phase
  rcases h.writer_cases with ⟨-, hw⟩ | ⟨t, -, ht, hwriter⟩
  · simp only [hw, Phase] at hphase
    omega
  have := hidle t
  rw [← ht] at hphase hwriter
  cases hpc : s.pc t <;> rw [hpc] at hphase hwriter this <;> simp only [Phase] at hphase
  all_goals first
    | omega
    | simp [Pc.holds, Pc.inLock] at this

end

end Inv

end Inv

/-! ## Every run -/

theorem reachable_inv (hcard : Fintype.card T < 2 ^ 60)
    (hr : Transition.Reachable Initial Step s) : Inv s := by
  refine hr.invariant (fun s hs => initial_inv hs) ?_
  intro s label s' h hs
  exact step_inv hcard h hs

/-- `IDTYPE`, by which a thread is known. -/
abbrev IdType := Fin (2 ^ 32)

/-- There are too few threads to outweigh a writer. -/
theorem card_idType : Fintype.card IdType < 2 ^ 60 := by
  rw [Fintype.card_fin]
  decide

/-- **The readers-writer lock is correct** in every state that any number of threads can
reach. -/
theorem rwlock_correct {s : State IdType} (hr : Transition.Reachable Initial Step s) :
    Correct s := by
  have hinv := reachable_inv card_idType hr
  exact ⟨fun t u => hinv.exclusion, hinv.no_leftover, hinv.writer_wait, hinv.readers_wait,
    hinv.progress, hinv.quiescent, hinv.alive⟩

/-- A new lock. -/
def newLock : State IdType := ⟨0, 0, false, false, 0, none, fun _ => .idle⟩

/-- A writer waits for a reader. -/
theorem rwlock_correct_waiting : ∃ s : State IdType,
    s.pc 0 = .reading ∧ s.pc 1 = .writeLockWait ∧ Correct s :=
  ⟨_, rfl, rfl, rwlock_correct (.of_foldlM (fun s label => step s label.1 label.2)
    (fun _ _ _ hs => hs)
    (.init (show Initial newLock from ⟨rfl, rfl, rfl, rfl, rfl, rfl, fun _ => rfl⟩))
    [(0, .readLock), (1, .writeLock), (1, .run), (1, .run), (1, .run)] rfl)⟩

/-! ## The width of the counters

`state` and `departing_readers` are of type `int64_t`; the model has integers for them. No run
leaves the range of the type, so that the two agree. -/

/-- The writer remembers the readers that it has found. -/
theorem depart_of_step {T : Type} [DecidableEq T] {s s' : State T} {t u : T} {action : Action}
    {state : Int} (hs : step s t action = some s') (hu : s'.pc u = .writeLockDepart state) :
    s.pc u = .writeLockDepart state ∨ (s.pc u = .writeLockBegin ∧ s.state = state) := by
  by_cases hut : u = t
  case neg =>
    have hgoto : ∀ (s : State T) pc, (s.goto t pc).pc u = s.pc u :=
      fun s pc => Function.update_of_ne hut ..
    unfold step at hs
    split at hs <;>
      simp only [Option.ite_none_right_eq_some, Option.some.injEq, reduceCtorEq] at hs
    case h_2 | h_9 | h_12 | h_16 =>
      obtain ⟨-, rfl⟩ := hs
      rw [hgoto] at hu
      exact .inl hu
    all_goals
      subst hs
      rw [hgoto] at hu
      exact .inl hu
  case pos =>
    subst hut
    have hgoto : ∀ (s : State T) pc, (s.goto u pc).pc u = pc :=
      fun s pc => Function.update_self ..
    unfold step at hs
    split at hs <;>
      simp only [Option.ite_none_right_eq_some, Option.some.injEq, reduceCtorEq] at hs
    case h_2 | h_9 | h_12 | h_16 =>
      obtain ⟨-, rfl⟩ := hs
      rw [hgoto] at hu
      exact absurd hu Pc.noConfusion
    case h_10 hbegin =>
      subst hs
      rw [hgoto] at hu
      split_ifs at hu
      exact .inr ⟨hbegin, Pc.writeLockDepart.inj hu⟩
    all_goals
      subst hs
      rw [hgoto] at hu
      (try split_ifs at hu) <;> exact absurd hu Pc.noConfusion

theorem reachable_depart_lt (hcard : Fintype.card T < 2 ^ 60)
    (hr : Transition.Reachable Initial Step s) :
    ∀ u state, s.pc u = .writeLockDepart state → state < writerWeight := by
  induction hr with
  | init hs =>
    intro u state hu
    rw [hs.2.2.2.2.2.2 u] at hu
    exact absurd hu Pc.noConfusion
  | @step s s' label hr hs ih =>
    intro u state hu
    rcases depart_of_step hs hu with hdepart | ⟨hbegin, heq⟩
    · exact ih u state hdepart
    · -- the readers that it finds are threads
      obtain ⟨hstate, -⟩ := (reachable_inv hcard hr).phase_of hbegin rfl
      have hbound := tally_lt hcard s.pc
      omega

/-- **The counters fit their type**, with room for the results of every addition in `step`. -/
theorem counters_fit (hcard : Fintype.card T < 2 ^ 60)
    (hr : Transition.Reachable Initial Step s) :
    (-2 ^ 62 ≤ s.state ∧ s.state < 2 ^ 62) ∧
      -2 ^ 62 ≤ s.departingReaders ∧ s.departingReaders < 2 ^ 62 := by
  have hinv := reachable_inv hcard hr
  have hcount : ∀ l, tally s.pc l < 2 ^ 60 := fun l =>
    (Census.count_le_card (· == l) s.pc).trans_lt hcard
  have hwait := hcount .readLockWait
  have hwoken := hcount .readLockWoken
  have hlast := hcount .readLockLast
  have hreading := hcount .reading
  have hslow := hcount .readUnlockSlow
  have hdepart : ∀ state, s.writer = .writeLockDepart state → state < writerWeight := by
    intro state hw
    rcases hinv.writer_cases with ⟨-, hidle⟩ | ⟨t, -, ht, -⟩
    · rw [hidle] at hw
      exact absurd hw Pc.noConfusion
    · exact reachable_depart_lt hcard hr t state (ht.trans hw)
  have hphase := hinv.phase
  rw [writerWeight] at hdepart
  cases hw : s.writer <;> rw [hw] at hphase <;> simp only [Phase, writerWeight] at hphase
  case writeLockDepart state =>
    have hlt := hdepart state hw
    omega
  all_goals omega

/-! ## Fairness -/

/-- How a reader gets the lock. -/
theorem reading_of_step {T : Type} [DecidableEq T] {s s' : State T} {t : T} {action : Action}
    (hs : step s t action = some s') (ht : s'.pc t = .reading) :
    (s.pc t = .idle ∧ 0 ≤ s.state) ∨ s.pc t = .readLockWoken ∨ s.pc t = .readLockLast := by
  have hgoto : ∀ (s : State T) pc, (s.goto t pc).pc t = pc := fun s pc => Function.update_self ..
  unfold step at hs
  split at hs <;>
    simp only [Option.ite_none_right_eq_some, Option.some.injEq, reduceCtorEq] at hs <;> grind

/-- **The lock is fair between readers and writers**: no reader gets it while a writer waits for
the others or has it, and when the writer has released it no reader waits any more. -/
theorem phase_fair {s : State IdType} (hr : Transition.Reachable Initial Step s) :
    (∀ t, s.pc t = .writeLockWait ∨ s.pc t = .writing →
      ∀ u action s', Step s (u, action) s' → s'.pc u ≠ .reading) ∧
    (s.writersLock = none → ∀ u, s.pc u ≠ .readLockWait ∧ s.pc u ≠ .readLockWoken ∧
      s.pc u ≠ .readLockLast) := by
  have hinv := reachable_inv card_idType hr
  refine ⟨fun t ht u action s' hs hu => ?_, fun hfree u => ?_⟩
  · -- the weight of the writer keeps `state` negative
    have hlt := tally_lt card_idType s.pc
    have hin : s.state < 0 ∧ tally s.pc .readLockWoken = 0 ∧ tally s.pc .readLockLast = 0 := by
      rcases ht with ht | ht
      · obtain ⟨hstate, -, -, -, hwoken, hlast, -⟩ := hinv.phase_of ht rfl
        exact ⟨by omega, hwoken, hlast⟩
      · obtain ⟨hstate, -, -, -, -, -, hwoken, hlast, -⟩ := hinv.phase_of ht rfl
        exact ⟨by omega, hwoken, hlast⟩
    rcases reading_of_step hs hu with ⟨-, h⟩ | h | h
    · exact absurd hin.1 (Int.not_lt.2 h)
    · exact tally_ne_zero h hin.2.1
    · exact tally_ne_zero h hin.2.2
  · have hphase := hinv.phase
    rw [State.writer, hfree] at hphase
    obtain ⟨-, -, -, -, -, hwait, hwoken, hlast, -⟩ := hphase
    exact ⟨fun h => tally_ne_zero h hwait, fun h => tally_ne_zero h hwoken,
      fun h => tally_ne_zero h hlast⟩

/-- A reader that comes while a writer waits for another one has to wait. -/
theorem phase_fair_late : ∃ s : State IdType, s.pc 0 = .reading ∧ s.pc 1 = .writeLockWait ∧
    ∀ s', Step s (2, .readLock) s' → s'.pc 2 ≠ .reading :=
  ⟨_, rfl, rfl, (phase_fair (.of_foldlM (fun s label => step s label.1 label.2)
    (fun _ _ _ hs => hs)
    (.init (show Initial newLock from ⟨rfl, rfl, rfl, rfl, rfl, rfl, fun _ => rfl⟩))
    [(0, .readLock), (1, .writeLock), (1, .run), (1, .run), (1, .run)] rfl)).1 1 (.inl rfl) 2
    .readLock⟩

end RwLock
