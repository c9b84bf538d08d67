import Gramine.Census
import Gramine.Transition

/-!
# Readers-writer lock

`libos_rwlock.c`: `state` counts the readers, less `WRITER_WEIGHT` while a writer has
the lock or waits for it. A reader that finds it negative waits on `readers_wait` until
the writer is done; the writer waits on `writer_wait` until the readers it found have
left, and when it is done, until the readers that wait have woken up.

Each step is one atomic operation, one operation on an event, or taking or releasing
`writers_lock`; `PalEventWait` succeeds when the event is set, and a failed wait is
repeated, so it is not a step.
-/

open Function

namespace RwLock

/-- `WRITER_WEIGHT`. -/
def writerWeight : Int := 2 ^ 60

/-- Where a thread is. -/
inductive Pc
  /-- Outside of all functions, without the lock. -/
  | idle
  /-- `rwlock_read_lock_slow_path`: waits on `readers_wait`, -/
  | readLockWait
  /-- decrements `waiting_readers`, -/
  | readLockWoken
  /-- and sets `writer_wait`, if it was the last. -/
  | readLockLast
  /-- With the lock, as a reader. -/
  | reading
  /-- `rwlock_read_unlock_slow_path`: decrements `departing_readers`, -/
  | readUnlockSlow
  /-- and sets `writer_wait`, if it was the last. -/
  | readUnlockLast
  /-- `rwlock_write_lock`: takes `writers_lock`, -/
  | writeLock
  /-- subtracts the weight from `state`, -/
  | writeLockBegin
  /-- adds the readers it has found to `departing_readers`, -/
  | writeLockDepart (state : Int)
  /-- and waits on `writer_wait`. -/
  | writeLockWait
  /-- With the lock, as a writer. -/
  | writing
  /-- `rwlock_write_unlock`: sets `waiting_readers`, -/
  | writeUnlockStore (state : Int)
  /-- sets `readers_wait`, -/
  | writeUnlockSet
  /-- waits on `writer_wait`, -/
  | writeUnlockWait
  /-- clears `readers_wait`, -/
  | writeUnlockClear
  /-- and releases `writers_lock`. -/
  | writeUnlockEnd
  /-- An assertion has failed. -/
  | assertFailed
  deriving DecidableEq, Repr

/-- `struct libos_rwlock`, and the threads. The two `int64_t` counters are integers: no run
leaves the range of their type (`counters_fit`). -/
structure State (T : Type) where
  state : Int
  departingReaders : Int
  writerWait : Bool
  readersWait : Bool
  waitingReaders : Nat
  writersLock : Option T
  pc : T → Pc

/-- What a thread does next. -/
inductive Action
  | readLock
  | writeLock
  | unlock
  /-- It goes on within a function. -/
  | run
  deriving DecidableEq, Repr

section Step
variable {T : Type} [DecidableEq T]

/-- A thread moves on. -/
def State.goto (s : State T) (t : T) (pc : Pc) : State T :=
  { s with pc := update s.pc t pc }

/-- One step of a thread, if it is not blocked. -/
def step (s : State T) (t : T) (action : Action) : Option (State T) :=
  match s.pc t, action with
  | .idle, .readLock =>
    some ({ s with state := s.state + 1 }.goto t (if s.state < 0 then .readLockWait else .reading))
  | .readLockWait, .run => if s.readersWait then some (s.goto t .readLockWoken) else none
  | .readLockWoken, .run =>
    let waitingReaders := (s.waitingReaders + (2 ^ 64 - 1)) % 2 ^ 64
    some ({ s with waitingReaders := waitingReaders }.goto t
      (if waitingReaders = 0 then .readLockLast else .reading))
  | .readLockLast, .run => some ({ s with writerWait := true }.goto t .reading)
  | .reading, .unlock =>
    some ({ s with state := s.state - 1 }.goto t
      (if s.state - 1 < 0 then .readUnlockSlow else .idle))
  | .readUnlockSlow, .run =>
    let departing := s.departingReaders - 1
    some ({ s with departingReaders := departing }.goto t
      (if departing = 0 then .readUnlockLast else .idle))
  | .readUnlockLast, .run => some ({ s with writerWait := true }.goto t .idle)
  | .idle, .writeLock => some (s.goto t .writeLock)
  | .writeLock, .run =>
    if s.writersLock = none then some ({ s with writersLock := some t }.goto t .writeLockBegin)
    else none
  | .writeLockBegin, .run =>
    some ({ s with state := s.state - writerWeight }.goto t
      (if 0 < s.state then .writeLockDepart s.state else .writing))
  | .writeLockDepart state, .run =>
    let departing := s.departingReaders + state
    some ({ s with departingReaders := departing }.goto t
      (if departing = 0 then .writing else if 0 < departing then .writeLockWait else .assertFailed))
  | .writeLockWait, .run =>
    if s.writerWait then some ({ s with writerWait := false }.goto t .writing) else none
  | .writing, .unlock =>
    let state := s.state + writerWeight
    some ({ s with state := state }.goto t (if state < 0 then .assertFailed
        else if state = 0 then .writeUnlockEnd else .writeUnlockStore state))
  | .writeUnlockStore state, .run =>
    some ({ s with waitingReaders := (state % 2 ^ 64).toNat }.goto t .writeUnlockSet)
  | .writeUnlockSet, .run => some ({ s with readersWait := true }.goto t .writeUnlockWait)
  | .writeUnlockWait, .run =>
    if s.writerWait then some ({ s with writerWait := false }.goto t .writeUnlockClear) else none
  | .writeUnlockClear, .run => some ({ s with readersWait := false }.goto t .writeUnlockEnd)
  | .writeUnlockEnd, .run => some ({ s with writersLock := none }.goto t .idle)
  | _, _ => none

/-- After `rwlock_create`. -/
def Initial (s : State T) : Prop :=
  s.state = 0 ∧ s.departingReaders = 0 ∧ s.writerWait = false ∧ s.readersWait = false ∧
    s.waitingReaders = 0 ∧ s.writersLock = none ∧ ∀ t, s.pc t = .idle

/-- A step of some thread. -/
def Step (s : State T) (label : T × Action) (s' : State T) : Prop :=
  step s label.1 label.2 = some s'

end Step

/-! ## Numbers of readers -/

section Inv
variable {T : Type} [Fintype T] [DecidableEq T] {s s' : State T} {t u : T}

/-- How many threads are at a place. -/
def tally (pc : T → Pc) (l : Pc) : Nat := Census.count (· == l) pc

/-- The thread has taken `writers_lock`. -/
def Pc.isWriter : Pc → Bool
  | .writeLockBegin | .writeLockDepart _ | .writeLockWait | .writing | .writeUnlockStore _
  | .writeUnlockSet | .writeUnlockWait | .writeUnlockClear | .writeUnlockEnd => true
  | _ => false

/-- Where the writer is; `idle` if there is none. -/
def State.writer (s : State T) : Pc :=
  match s.writersLock with
  | none => .idle
  | some t => s.pc t

/-- What is left to do for the one wait on `writer_wait` that is under way: `left` readers
have to pass first, the last one sets the event, and then it is set. -/
def Handoff (left : Int) (last writerWait : Nat) : Prop :=
  (0 < left ∧ last = 0 ∧ writerWait = 0) ∨ (left = 0 ∧ last = 1 ∧ writerWait = 0) ∨
    (left = 0 ∧ last = 0 ∧ writerWait = 1)

/-- The values of the lock's fields, by where the writer is and how many readers are
where. The events count as 1 when they are set. -/
def Phase (s : State T) (n : Pc → Nat) : Pc → Prop
  -- the readers there are have the lock
  | .idle | .writeLockBegin | .writeUnlockEnd =>
    s.state = n .reading ∧ s.departingReaders = 0 ∧ s.waitingReaders = 0 ∧
      s.readersWait.toNat = 0 ∧ s.writerWait.toNat = 0 ∧ n .readLockWait = 0 ∧
      n .readLockWoken = 0 ∧ n .readLockLast = 0 ∧ n .readUnlockSlow = 0 ∧ n .readUnlockLast = 0
  | .writeUnlockClear =>
    s.state = n .reading ∧ s.departingReaders = 0 ∧ s.waitingReaders = 0 ∧
      s.readersWait.toNat = 1 ∧ s.writerWait.toNat = 0 ∧ n .readLockWait = 0 ∧
      n .readLockWoken = 0 ∧ n .readLockLast = 0 ∧ n .readUnlockSlow = 0 ∧ n .readUnlockLast = 0
  -- the readers that the writer has found leave, and new ones wait
  | .writeLockDepart state =>
    s.state = n .readLockWait + n .reading - writerWeight ∧ 0 < state ∧
      s.departingReaders + state = n .reading + n .readUnlockSlow ∧ s.departingReaders ≤ 0 ∧
      s.waitingReaders = 0 ∧ s.readersWait.toNat = 0 ∧ s.writerWait.toNat = 0 ∧
      n .readLockWoken = 0 ∧ n .readLockLast = 0 ∧ n .readUnlockLast = 0
  | .writeLockWait =>
    s.state = n .readLockWait + n .reading - writerWeight ∧
      s.departingReaders = n .reading + n .readUnlockSlow ∧ s.waitingReaders = 0 ∧
      s.readersWait.toNat = 0 ∧ n .readLockWoken = 0 ∧ n .readLockLast = 0 ∧
      Handoff s.departingReaders (n .readUnlockLast) s.writerWait.toNat
  | .writing =>
    s.state = n .readLockWait - writerWeight ∧ s.departingReaders = 0 ∧ s.waitingReaders = 0 ∧
      s.readersWait.toNat = 0 ∧ s.writerWait.toNat = 0 ∧ n .reading = 0 ∧
      n .readLockWoken = 0 ∧ n .readLockLast = 0 ∧ n .readUnlockSlow = 0 ∧ n .readUnlockLast = 0
  -- the readers that wait get the lock, and new ones get it at once
  | .writeUnlockStore state =>
    s.state = n .readLockWait + n .reading ∧ 0 < state ∧ state = n .readLockWait ∧
      s.departingReaders = 0 ∧ s.waitingReaders = 0 ∧ s.readersWait.toNat = 0 ∧
      s.writerWait.toNat = 0 ∧ n .readLockWoken = 0 ∧ n .readLockLast = 0 ∧
      n .readUnlockSlow = 0 ∧ n .readUnlockLast = 0
  | .writeUnlockSet =>
    s.state = n .readLockWait + n .reading ∧ 0 < s.waitingReaders ∧
      s.waitingReaders = n .readLockWait ∧ s.departingReaders = 0 ∧ s.readersWait.toNat = 0 ∧
      s.writerWait.toNat = 0 ∧ n .readLockWoken = 0 ∧ n .readLockLast = 0 ∧
      n .readUnlockSlow = 0 ∧ n .readUnlockLast = 0
  | .writeUnlockWait =>
    s.state = n .readLockWait + n .readLockWoken + n .readLockLast + n .reading ∧
      s.waitingReaders = n .readLockWait + n .readLockWoken ∧ s.departingReaders = 0 ∧
      s.readersWait.toNat = 1 ∧ n .readUnlockSlow = 0 ∧ n .readUnlockLast = 0 ∧
      Handoff s.waitingReaders (n .readLockLast) s.writerWait.toNat
  | _ => False

/-- The invariant. -/
structure Inv (s : State T) : Prop where
  owner : ∀ t, (s.pc t).isWriter = true ↔ s.writersLock = some t
  phase : Phase s (tally s.pc) s.writer
  alive : ∀ t, s.pc t ≠ .assertFailed

theorem tally_update (pc : T → Pc) (t : T) (l c : Pc) :
    tally (update pc t l) c + (if pc t = c then 1 else 0) =
      tally pc c + if l = c then 1 else 0 := by
  simpa [tally] using Census.count_update (· == c) pc t l

omit [DecidableEq T] in
theorem tally_lt (hcard : Fintype.card T < 2 ^ 60) (pc : T → Pc) :
    (tally pc .readLockWait : Int) + tally pc .reading < writerWeight := by
  have hle := Census.count_add_count_le
    (show ∀ l : Pc, (l == .readLockWait) = true → (l == .reading) = false by
      intro l hl
      rw [beq_iff_eq.1 hl]
      rfl) pc
  rw [writerWeight, tally, tally]
  omega

/-- A thread moves: what is left to show is about it, and the phase. -/
theorem Inv.move {l : Pc} (h : Inv s) (hpc : s'.pc = update s.pc t l) (halive : l ≠ .assertFailed)
    (hself : l.isWriter = true ↔ s'.writersLock = some t)
    (hrest : ∀ u, u ≠ t → (s.writersLock = some u ↔ s'.writersLock = some u))
    (hphase : Phase s' (tally (update s.pc t l)) s'.writer) : Inv s' where
  owner := by
    rw [hpc, forall_update_iff s.pc fun u c => c.isWriter = true ↔ s'.writersLock = some u]
    exact ⟨hself, fun u hu => (h.owner u).trans (hrest u hu)⟩
  phase := by rwa [hpc]
  alive := by
    rw [hpc, forall_update_iff s.pc fun _ c => c ≠ .assertFailed]
    exact ⟨halive, fun u _ => h.alive u⟩

theorem Inv.reader {l l' : Pc} (h : Inv s) (hpc : s.pc t = l) (hl : l.isWriter = false)
    (hl' : l'.isWriter = false ∧ l' ≠ .assertFailed) (hlock : s'.writersLock = s.writersLock)
    (hpc' : s'.pc = update s.pc t l')
    (hphase : Phase s' (tally (update s.pc t l')) s.writer) : Inv s' := by
  have hne : s.writersLock ≠ some t := by
    intro he
    have ht := (h.owner t).2 he
    rw [hpc, hl] at ht
    cases ht
  have hwriter : s'.writer = s.writer := by
    rw [State.writer, State.writer, hlock]
    cases hw : s.writersLock with
    | none => rfl
    | some u =>
      have hut : u ≠ t := by
        rintro rfl
        exact hne hw
      simp [hpc', update_of_ne hut]
  exact h.move hpc' hl'.2 (by simp [hl'.1, hlock, hne]) (fun u _ => by rw [hlock])
    (by rwa [hwriter])

/-- A reader is not counted among the places of a writer. -/
def Pc.isReader : Pc → Bool
  | .readLockWait | .readLockWoken | .readLockLast | .reading | .readUnlockSlow
  | .readUnlockLast => true
  | _ => false

theorem tally_update_of_not_reader {l c : Pc} (ht : (s.pc t).isReader = false)
    (hl : l.isReader = false) (hc : c.isReader = true) :
    tally (update s.pc t l) c = tally s.pc c := by
  have hup := tally_update s.pc t l c
  have h1 : s.pc t ≠ c := by
    rintro rfl
    cases hc.symm.trans ht
  have h2 : l ≠ c := by
    rintro rfl
    cases hc.symm.trans hl
  simpa [h1, h2] using hup

omit [Fintype T] [DecidableEq T] in
theorem Phase.congr {n n' : Pc → Nat} {l : Pc} (h : Phase s n l)
    (hn : ∀ c, c.isReader = true → n' c = n c) : Phase s n' l := by
  have h1 := hn .readLockWait rfl
  have h2 := hn .readLockWoken rfl
  have h3 := hn .readLockLast rfl
  have h4 := hn .reading rfl
  have h5 := hn .readUnlockSlow rfl
  have h6 := hn .readUnlockLast rfl
  cases l <;> simp only [Phase, h1, h2, h3, h4, h5, h6] at h ⊢ <;> exact h

omit [DecidableEq T] in
/-- The phase is that of the thread that has `writers_lock`. -/
theorem Inv.phase_of {l : Pc} (h : Inv s) (hpc : s.pc t = l) (hl : l.isWriter = true) :
    Phase s (tally s.pc) l := by
  have howner := (h.owner t).1 (by rw [hpc]; exact hl)
  have hwriter : s.writer = l := by
    rwa [State.writer, howner]
  exact hwriter ▸ h.phase

/-- A step of the thread that has `writers_lock`. -/
theorem Inv.writer {l l' : Pc} (h : Inv s) (hpc : s.pc t = l) (hl : l.isWriter = true)
    (hl' : l'.isWriter = true) (hlock : s'.writersLock = s.writersLock)
    (hpc' : s'.pc = update s.pc t l')
    (hphase : Phase s (tally s.pc) l → Phase s' (tally s.pc) l') : Inv s' := by
  have howner := (h.owner t).1 (by rw [hpc]; exact hl)
  have hreader : ∀ c : Pc, c.isWriter = true → c.isReader = false := by
    intro c hc
    cases c <;> first | rfl | cases hc
  have hwriter : s'.writer = l' := by
    rw [State.writer, hlock, howner, hpc']
    exact update_self ..
  refine h.move hpc' ?_ (by simp [hl', hlock, howner]) (fun u _ => by rw [hlock]) ?_
  · rintro rfl
    cases hl'
  · rw [hwriter]
    refine (hphase (h.phase_of hpc hl)).congr fun c hc => ?_
    refine tally_update_of_not_reader ?_ (hreader _ hl') hc
    rw [hpc]
    exact hreader _ hl

end Inv

end RwLock
