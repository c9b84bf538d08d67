import Gramine.FileLockOrigin

/-!
# Lock ranges in `fcntl`

`F_SETLK`, `F_SETLKW` and `F_GETLK` of `libos_fcntl.c`. A range is given by
`l_whence`, `l_start` and `l_len` of a `struct flock`, with signed 64-bit offsets;
inside it is a pair of unsigned 64-bit numbers, the first and the last byte.
`flockToFileLock` converts in one direction, `F_GETLK` in the other (`fileLockToFlock`).

The conversion to unsigned numbers is exact. The one back is not: a range that begins
at 2^63 or later, or that is 2^63 bytes long or longer and does not go on to the end of
the file, is reported with a negative `l_start` or `l_len`.
-/

open Transition Fallible

namespace FileLock

open LockType

/-! ## Signed offsets -/

/-- The values of `file_off_t`, a signed 64-bit number. -/
abbrev Off := { x : Int // -2 ^ 63 ≤ x ∧ x < 2 ^ 63 }

/-- The conversion of a number to `file_off_t`. -/
def Off.wrap (x : Int) : Off :=
  ⟨Int.bmod x (2 ^ 64), by
    have h1 := @Int.le_bmod x (2 ^ 64) (by decide)
    have h2 := @Int.bmod_lt x (2 ^ 64) (by decide)
    omega⟩

theorem Off.wrap_of_lt {n : Nat} (h : n < 2 ^ 63) : (Off.wrap n).1 = n := by
  simp only [Off.wrap, Int.bmod_def]
  omega

theorem Off.wrap_of_ge {n : Nat} (h : 2 ^ 63 ≤ n) (hn : n < 2 ^ 64) :
    (Off.wrap n).1 = n - 2 ^ 64 := by
  simp only [Off.wrap, Int.bmod_def]
  omega

/-- `__builtin_add_overflow` with an unsigned 64-bit result: the sum, if it fits. -/
def addOverflow (a b : Int) : Option Nat :=
  if 0 ≤ a + b ∧ a + b < 2 ^ 64 then some (a + b).toNat else none

theorem addOverflow_eq_some {a b : Int} {n : Nat} :
    addOverflow a b = some n ↔ a + b = n ∧ n ≤ fsLockEof := by
  unfold addOverflow fsLockEof
  split
  · simp only [Option.some.injEq]
    omega
  · simp only [reduceCtorEq, false_iff]
    omega

theorem addOverflow_eq_none {a b : Int} : addOverflow a b = none ↔ a + b < 0 ∨ 2 ^ 64 ≤ a + b := by
  unfold addOverflow
  split
  · simp only [reduceCtorEq, false_iff]
    omega
  · simp only [true_iff]
    omega

/-! ## The system call -/

/-- `struct flock`, as the application fills it in; `lType` and `lWhence` may be any
number. -/
structure Flock where
  lType : Int
  lWhence : Int
  lStart : Off
  lLen : Off
  lPid : Int
  deriving DecidableEq

/-- The error codes. -/
inductive FcntlError
  | efault
  | einval
  | eoverflow
  /-- What `seek` or `hstat` of the file system failed with. -/
  | fs (code : Int)
  deriving DecidableEq, Repr

/-- `F_RDLCK`, `F_WRLCK`, `F_UNLCK` as numbers. -/
def LockType.toInt : LockType → Int
  | .rdlck => 0
  | .wrlck => 1
  | .unlck => 2

/-- The lock type a number stands for. -/
def LockType.ofInt (x : Int) : Option LockType :=
  if x = 0 then some .rdlck else if x = 1 then some .wrlck else if x = 2 then some .unlck else none

@[simp] theorem LockType.ofInt_toInt (ty : LockType) : ofInt ty.toInt = some ty := by
  cases ty <;> rfl

/-- What `fcntl` reads of a handle: the result of `seek(hdl, 0, SEEK_CUR)`, and of
`hstat`, if the file system has these operations; and the access mode. -/
structure Handle (Dent : Type) where
  dentry : Option Dent
  seek : Option Off
  hstat : Option (Except Int (Fin (2 ^ 63)))
  mayRead : Bool
  mayWrite : Bool

/-- The origin the offset `l_start` counts from, by `l_whence`. -/
def whenceOrigin {Dent : Type} (hdl : Handle Dent) (whence : Int) : Except FcntlError Nat :=
  if whence = 0 then pure 0
  else if whence = 1 then
    match hdl.seek with
    | none => throw .einval
    | some pos => if pos.1 < 0 then throw (.fs pos.1) else pure pos.1.toNat
  else if whence = 2 then
    match hdl.hstat with
    | none => throw .einval
    | some (.error code) => throw (.fs code)
    | some (.ok size) => pure size.1
  else throw .einval

/-- The range of a `struct flock`, given the origin after `l_start` was added. -/
def flockRange (origin : Nat) (len : Off) : Except FcntlError (Nat × Nat) :=
  if 0 < len.1 then
    match addOverflow origin (len.1 - 1) with
    | none => throw .eoverflow
    | some stop => pure (origin, stop)
  else if len.1 < 0 then
    match addOverflow origin len.1 with
    | none => throw .einval
    | some start =>
      match addOverflow origin (-1) with
      | none => throw .einval
      | some stop => pure (start, stop)
  else pure (origin, fsLockEof)

/-- `flock_to_file_lock`; `pid` is `g_process.pid`. -/
def flockToFileLock {Dent : Type} (hdl : Handle Dent) (pid : Nat) (fl : Flock) :
    Except FcntlError Lock :=
  match ofInt fl.lType with
  | none => throw .einval
  | some type => do
    let base ← whenceOrigin hdl fl.lWhence
    match addOverflow base fl.lStart.1 with
    | none => throw (if 0 < fl.lStart.1 then .eoverflow else .einval)
    | some origin => do
      let (start, stop) ← flockRange origin fl.lLen
      pure ⟨.posix, type, start, stop, pid, 0⟩

/-- `F_SETLK` and `F_SETLKW`, up to the call of `file_lock_set`: the dentry and the lock
to be set. `none` is a `struct flock` that cannot be read. -/
def fcntlSetlk {Dent : Type} (hdl : Handle Dent) (pid : Nat) (fl : Option Flock) :
    Except FcntlError (Dent × Lock) :=
  match fl with
  | none => throw .efault
  | some fl =>
    match hdl.dentry with
    | none => throw .einval
    | some dent =>
      if ofInt fl.lType = some .rdlck ∧ hdl.mayRead = false then throw .einval
      else if ofInt fl.lType = some .wrlck ∧ hdl.mayWrite = false then throw .einval
      else do
        let fileLock ← flockToFileLock hdl pid fl
        pure (dent, fileLock)

/-- What `F_GETLK` writes for a lock that is in the way. -/
def fileLockToFlock (l : Lock) : Flock where
  lType := l.type.toInt
  lWhence := 0
  lStart := Off.wrap l.start
  -- the range until EOF is encoded as `len == 0`
  lLen := if l.stop = fsLockEof then Off.wrap 0
    else Off.wrap (((l.stop + 2 ^ 64 - l.start) % 2 ^ 64 + 1) % 2 ^ 64 : Nat)
  lPid := Int.bmod l.pid (2 ^ 32)

/-- `F_GETLK` with the table of the leader. -/
def fcntlGetlk {Dent : Type} [DecidableEq Dent] (t : Table Dent) (hdl : Handle Dent) (pid : Nat)
    (fl : Option Flock) : Table Dent × Except FcntlError Flock :=
  match fl with
  | none => (t, .error .efault)
  | some fl =>
    match hdl.dentry with
    | none => (t, .error .einval)
    | some dent =>
      match flockToFileLock hdl pid fl with
      | .error e => (t, .error e)
      | .ok fileLock =>
        if fileLock.type = .unlck then (t, .error .einval)
        else
          match t.fileLockGet dent fileLock with
          | (t, some fileLock2) => (t, .ok (fileLockToFlock fileLock2))
          | (t, none) => (t, .ok { fl with lType := unlck.toInt })

/-! ## The range of a request -/

/-- The offset `l_start` counts from: the beginning of the file, the position of the
handle or the size of the file. -/
def Flock.Origin {Dent : Type} (hdl : Handle Dent) (fl : Flock) (base : Nat) : Prop :=
  fl.lWhence = 0 ∧ base = 0 ∨
    fl.lWhence = 1 ∧ (∃ pos, hdl.seek = some pos ∧ pos.1 = base) ∨
    fl.lWhence = 2 ∧ ∃ size, hdl.hstat = some (.ok size) ∧ size.1 = base

/-- The byte belongs to the range that `fcntl(2)` describes: `l_len` bytes from
`l_start` on, the bytes before it if `l_len` is negative, and all bytes up to the last
offset if it is 0. -/
def Flock.Describes {Dent : Type} (hdl : Handle Dent) (fl : Flock) (b : Int) : Prop :=
  ∃ base, fl.Origin hdl base ∧
    (0 < fl.lLen.1 ∧ base + fl.lStart.1 ≤ b ∧ b ≤ base + fl.lStart.1 + fl.lLen.1 - 1 ∨
      fl.lLen.1 < 0 ∧ base + fl.lStart.1 + fl.lLen.1 ≤ b ∧ b ≤ base + fl.lStart.1 - 1 ∨
      fl.lLen.1 = 0 ∧ base + fl.lStart.1 ≤ b ∧ b ≤ fsLockEof)

/-- The request stays below 2^63: it begins there, and ends before the last such byte
or goes on to the end of the file. -/
def Flock.Small {Dent : Type} (hdl : Handle Dent) (fl : Flock) : Prop :=
  ∀ base, fl.Origin hdl base → base + fl.lStart.1 < 2 ^ 63 ∧
    (fl.lLen.1 = 0 ∨ base + fl.lStart.1 + fl.lLen.1 < 2 ^ 63)

section
variable {Dent : Type} {hdl : Handle Dent} {fl : Flock}

theorem whenceOrigin_eq_ok {base : Nat} :
    whenceOrigin hdl fl.lWhence = .ok base ↔ fl.Origin hdl base := by
  unfold Flock.Origin
  unfold whenceOrigin
  split
  · rename_i h0
    simp [h0, pure, Except.pure, eq_comm]
  split
  · rename_i h1
    cases hs : hdl.seek with
    | none => simp [h1]
    | some pos =>
      by_cases hneg : pos.1 < 0
      · simp [h1, hneg]
        omega
      · simp [hneg, pure, Except.pure]
        omega
  split
  · rename_i h2
    cases hs : hdl.hstat with
    | none => simp [h2]
    | some res =>
      cases res <;> simp [h2, pure, Except.pure]
  · rename_i h0 h1 h2
    simp [h0, h1, h2]

theorem flockRange_eq_ok {origin start stop : Nat} {len : Off} (ho : origin ≤ fsLockEof) :
    flockRange origin len = .ok (start, stop) ↔
      stop ≤ fsLockEof ∧
      (0 < len.1 ∧ start = origin ∧ (stop : Int) = origin + len.1 - 1 ∨
        len.1 < 0 ∧ (start : Int) = origin + len.1 ∧ (stop : Int) = origin - 1 ∨
        len.1 = 0 ∧ start = origin ∧ stop = fsLockEof) := by
  unfold flockRange
  by_cases hpos : 0 < len.1
  · rw [if_pos hpos]
    cases hadd : addOverflow origin (len.1 - 1) with
    | none =>
      have := addOverflow_eq_none.1 hadd
      simp only [reduceCtorEq, false_iff, fsLockEof]
      omega
    | some stop' =>
      have := addOverflow_eq_some.1 hadd
      simp only [pure, Except.pure, Except.ok.injEq, Prod.mk.injEq]
      omega
  rw [if_neg hpos]
  by_cases hneg : len.1 < 0
  · rw [if_pos hneg]
    cases hadd : addOverflow origin len.1 with
    | none =>
      have := addOverflow_eq_none.1 hadd
      simp only [reduceCtorEq, false_iff]
      unfold fsLockEof at *
      omega
    | some start' =>
      have hstart := addOverflow_eq_some.1 hadd
      cases hadd' : addOverflow origin (-1) with
      | none =>
        have := addOverflow_eq_none.1 hadd'
        unfold fsLockEof at *
        omega
      | some stop' =>
        have := addOverflow_eq_some.1 hadd'
        simp only [pure, Except.pure, Except.ok.injEq, Prod.mk.injEq]
        omega
  · rw [if_neg hneg]
    simp only [pure, Except.pure, Except.ok.injEq, Prod.mk.injEq]
    omega

variable {l : Lock}

theorem flockToFileLock_eq_ok {pid : Nat} : flockToFileLock hdl pid fl = .ok l ↔
      ∃ type base origin start stop, ofInt fl.lType = some type ∧
        whenceOrigin hdl fl.lWhence = .ok base ∧
        addOverflow base fl.lStart.1 = some origin ∧
        flockRange origin fl.lLen = .ok (start, stop) ∧
        l = ⟨.posix, type, start, stop, pid, 0⟩ := by
  unfold flockToFileLock
  cases hty : ofInt fl.lType with
  | none => simp
  | some type =>
    rw [bind_eq_ok]
    constructor
    · rintro ⟨base, hbase, h⟩
      cases hadd : addOverflow base fl.lStart.1 with
      | none =>
        rw [hadd] at h
        cases h
      | some origin =>
        rw [hadd] at h
        obtain ⟨⟨start, stop⟩, hrange, h⟩ := bind_eq_ok.1 h
        cases h
        exact ⟨type, base, origin, start, stop, rfl, hbase, hadd, hrange, rfl⟩
    · rintro ⟨type', base, origin, start, stop, hty', hbase, hadd, hrange, rfl⟩
      cases hty'
      refine ⟨base, hbase, ?_⟩
      rw [hadd]
      exact bind_eq_ok.2 ⟨(start, stop), hrange, rfl⟩

/-- **The range of a request** that is accepted is the one the application described. -/
theorem flockToFileLock_describes {pid : Nat} (h : flockToFileLock hdl pid fl = .ok l) :
    l.start ≤ l.stop ∧ l.stop ≤ fsLockEof ∧
      ∀ b : Int, (l.start : Int) ≤ b ∧ b ≤ l.stop ↔ fl.Describes hdl b := by
  obtain ⟨type, base, origin, start, stop, -, hbase, hadd, hrange, rfl⟩ :=
    flockToFileLock_eq_ok.1 h
  obtain ⟨horigin, hmax⟩ := addOverflow_eq_some.1 hadd
  obtain ⟨hstop, hrange⟩ := (flockRange_eq_ok hmax).1 hrange
  refine ⟨?_, hstop, fun b => ?_⟩
  · dsimp only
    omega
  dsimp only
  constructor
  · intro hb
    refine ⟨base, whenceOrigin_eq_ok.1 hbase, ?_⟩
    omega
  rintro ⟨base', hbase', hb⟩
  have : base' = base := by
    have hok := whenceOrigin_eq_ok.2 hbase'
    cases hbase.symm.trans hok
    rfl
  omega

/-! ## The range of an answer -/

/-- What `F_GETLK` writes for a lock is accepted, and stands for the range of the lock. -/
def Lock.RoundTrips (l : Lock) : Prop :=
  ∀ (Dent : Type) (hdl : Handle Dent) (pid : Nat), ∃ l',
    flockToFileLock hdl pid (fileLockToFlock l) = .ok l' ∧ l'.start = l.start ∧ l'.stop = l.stop

/-- The range fits into signed numbers. -/
def Representable (start stop : Nat) : Prop :=
  start < 2 ^ 63 ∧ (stop = fsLockEof ∨ stop - start + 1 < 2 ^ 63)

theorem roundTrips_iff_range : l.RoundTrips ↔ ∃ origin,
    addOverflow 0 (Off.wrap l.start).1 = some origin ∧
      flockRange origin (fileLockToFlock l).lLen = .ok (l.start, l.stop) := by
  have hzero : ∀ (Dent : Type) (hdl : Handle Dent),
      whenceOrigin hdl (fileLockToFlock l).lWhence = .ok 0 := fun _ _ => rfl
  have htype : ofInt (fileLockToFlock l).lType = some l.type := ofInt_toInt _
  constructor
  · intro h
    obtain ⟨l', hl', hstart, hstop⟩ := h Unit ⟨none, none, none, false, false⟩ 0
    obtain ⟨type, base, origin, start, stop, -, hbase, hadd, hrange, rfl⟩ :=
      flockToFileLock_eq_ok.1 hl'
    cases hbase
    cases hstart
    cases hstop
    exact ⟨origin, hadd, hrange⟩
  · rintro ⟨origin, hadd, hrange⟩ Dent hdl pid
    exact ⟨_, flockToFileLock_eq_ok.2 ⟨l.type, 0, origin, l.start, l.stop, htype, hzero Dent hdl,
      hadd, hrange, rfl⟩, rfl, rfl⟩

/-- The length `F_GETLK` computes. -/
theorem fileLockToFlock_lLen (hrange : l.start ≤ l.stop) (heof : l.stop < fsLockEof) :
    (fileLockToFlock l).lLen = Off.wrap (l.stop - l.start + 1 : Nat) := by
  have hne : l.stop ≠ fsLockEof := by omega
  unfold fsLockEof at heof
  have hlen : ((l.stop + 2 ^ 64 - l.start) % 2 ^ 64 + 1) % 2 ^ 64 = l.stop - l.start + 1 := by omega
  rw [fileLockToFlock, if_neg hne, hlen]

/-- **What `F_GETLK` reports** stands for the range of the lock exactly if the range
fits into signed numbers. -/
theorem Lock.roundTrips_iff (hrange : l.start ≤ l.stop) (heof : l.stop ≤ fsLockEof) :
    l.RoundTrips ↔ Representable l.start l.stop := by
  rw [roundTrips_iff_range, Representable]
  by_cases hstart : l.start < 2 ^ 63
  · have hadd : addOverflow 0 (Off.wrap l.start).1 = some l.start := by
      rw [Off.wrap_of_lt hstart]
      exact addOverflow_eq_some.2 ⟨by omega, by omega⟩
    simp only [hadd, Option.some.injEq, exists_eq_left']
    rw [flockRange_eq_ok (by omega)]
    by_cases hstop : l.stop = fsLockEof
    · have hlen : (fileLockToFlock l).lLen.1 = 0 := by
        rw [fileLockToFlock, if_pos hstop]
        rfl
      omega
    · rw [fileLockToFlock_lLen hrange (by omega)]
      unfold fsLockEof at *
      by_cases hlen : l.stop - l.start + 1 < 2 ^ 63
      · rw [Off.wrap_of_lt hlen]
        omega
      · rw [Off.wrap_of_ge (by omega) (by omega)]
        omega
  · have hadd : addOverflow 0 (Off.wrap l.start).1 = none := by
      unfold fsLockEof at heof
      rw [Off.wrap_of_ge (by omega) (by omega)]
      exact addOverflow_eq_none.2 (by omega)
    simp only [hadd, hstart, reduceCtorEq, false_and, exists_false]

end

/-! ## Runs -/

/-- Who calls `file_lock_set`: a thread of the leader, with what `PalEventCreate`
gives, or a thread of another process, with the dentry its path leads to in the
leader. -/
inductive Caller (Dent : Type)
  | leader (event : Option Nat)
  | client (dent : Option Dent) (vmid seq : Nat)

/-- The call that is processed by the leader. -/
def Caller.call {Dent : Type} (c : Caller Dent) (dent : Dent) (fl : Lock) (wait : Bool) :
    Table.Call Dent :=
  match c with
  | .leader event => .set dent fl wait event
  | .client dent vmid seq => .setFromIpc dent fl wait vmid seq

/-- The calls of a run: `F_SETLK` (or `F_SETLKW`), `F_GETLK`, and the end of a process. -/
inductive FcntlCall (Dent : Type)
  | setlk (hdl : Handle Dent) (pid : Nat) (fl : Option Flock) (wait : Bool) (caller : Caller Dent)
  | getlk (hdl : Handle Dent) (pid : Nat) (fl : Option Flock)
  | exit (pid : Nat)

/-- The request stays below 2^63. -/
def FcntlCall.Small {Dent : Type} : FcntlCall Dent → Prop
  | .setlk hdl _ (some fl) _ _ => fl.Small hdl
  | _ => True

section
variable {Dent : Type} [DecidableEq Dent]

/-- Process one call. -/
def fcntlExec (alloc : Nat → Bool) (t : Table Dent) : FcntlCall Dent → Except Fault (Table Dent)
  | .setlk hdl pid fl wait caller =>
    match fcntlSetlk hdl pid fl with
    | .error _ => pure t
    | .ok (dent, fileLock) => Table.exec alloc t (caller.call dent fileLock wait)
  | .getlk hdl pid fl => pure (fcntlGetlk t hdl pid fl).1
  | .exit pid => Table.exec alloc t (.clearPid pid)

/-- One call of a run. -/
def FcntlStep (alloc : Nat → Bool) (t : Table Dent) (c : FcntlCall Dent) (t' : Table Dent) : Prop :=
  fcntlExec alloc t c = .ok t'

/-- The tables of all runs from the empty one. -/
def FcntlReachable (alloc : Nat → Bool) : Table Dent → Prop :=
  Reachable (fun t => t = Table.initial) (FcntlStep alloc)

/-- The tables of the runs whose requests stay below 2^63. -/
def SmallReachable (alloc : Nat → Bool) : Table Dent → Prop :=
  Reachable (fun t => t = Table.initial)
    (Guarded (fun _ c => c.Small) (FcntlStep alloc))

omit [DecidableEq Dent] in
theorem fcntlSetlk_eq_ok {hdl : Handle Dent} {pid : Nat} {fl : Option Flock} {dent : Dent}
    {l : Lock} (h : fcntlSetlk hdl pid fl = .ok (dent, l)) :
    ∃ fl', fl = some fl' ∧ flockToFileLock hdl pid fl' = .ok l := by
  unfold fcntlSetlk at h
  split at h
  · cases h
  rename_i fl'
  split at h
  · cases h
  split at h
  · cases h
  split at h
  · cases h
  obtain ⟨_, hl', h⟩ := bind_eq_ok.1 h
  cases h
  exact ⟨fl', rfl, hl'⟩

variable {t : Table Dent}

theorem Table.AllIn.fcntlGetlk {P : Nat → Nat → Prop} (h : t.AllIn P) (hdl : Handle Dent)
    (pid : Nat) (fl : Option Flock) : (fcntlGetlk t hdl pid fl).1.AllIn P := by
  unfold FileLock.fcntlGetlk
  split
  · exact h
  split
  · exact h
  rename_i dent _
  split
  · exact h
  split
  · exact h
  rename_i fileLock _ _
  have hget : (fileLockGet t dent fileLock).1.AllIn P := Table.Every.fileLockGet h dent fileLock
  split
  all_goals
    rename_i hres
    rwa [hres] at hget

variable {alloc : Nat → Bool}

/-- A set of ranges that is closed, and contains the ranges the call asks for, is kept. -/
theorem FcntlStep.allIn {P : Nat → Nat → Prop} (hP : RangeClosed P) {t' : Table Dent}
    {c : FcntlCall Dent} (h : t.AllIn P)
    (hc : ∀ hdl pid fl wait caller, c = .setlk hdl pid (some fl) wait caller → ∀ l, flockToFileLock
      hdl pid fl = .ok l → l.In P) (hs : FcntlStep alloc t c t') : t'.AllIn P := by
  cases c with
  | setlk hdl pid fl wait caller =>
    unfold FcntlStep fcntlExec at hs
    cases hset : fcntlSetlk hdl pid fl with
    | error e =>
      simp only [hset] at hs
      cases hs
      exact h
    | ok res =>
      obtain ⟨dent, l⟩ := res
      obtain ⟨fl', rfl, hl⟩ := fcntlSetlk_eq_ok hset
      have hin : l.In P := hc hdl pid fl' wait caller rfl l hl
      simp only [hset] at hs
      refine h.step hP ?_ hs
      cases caller <;> rintro _ ⟨⟩ <;> exact hin
  | getlk hdl pid fl =>
    cases hs
    exact h.fcntlGetlk hdl pid fl
  | exit pid => exact h.step hP (c := .clearPid pid) nofun hs

theorem rangeClosed_valid : RangeClosed fun s e => s ≤ e ∧ e ≤ fsLockEof :=
  ⟨by omega, by omega, by omega, by decide⟩

/-- The ranges that begin below 2^63, and end before the last byte below or go on to
the end of the file. -/
theorem rangeClosed_small :
    RangeClosed fun s e => s < 2 ^ 63 ∧ s ≤ e ∧ (e = fsLockEof ∨ e + 1 < 2 ^ 63) := by
  exact ⟨by omega, by omega, by omega, by decide⟩

theorem FcntlReachable.valid (h : FcntlReachable alloc t) :
    t.AllIn fun s e => s ≤ e ∧ e ≤ fsLockEof := by
  induction h with
  | init h =>
    subst h
    exact Table.allIn_initial
  | step c _ hs ih =>
    refine FcntlStep.allIn rangeClosed_valid ih ?_ hs
    intro hdl pid fl wait caller _ l hl
    obtain ⟨hrange, heof, -⟩ := flockToFileLock_describes hl
    exact ⟨hrange, heof⟩

omit [DecidableEq Dent] in
theorem Flock.Small.range {hdl : Handle Dent} {pid : Nat} {fl : Flock} {l : Lock}
    (h : fl.Small hdl) (hl : flockToFileLock hdl pid fl = .ok l) :
    l.start < 2 ^ 63 ∧ l.start ≤ l.stop ∧ (l.stop = fsLockEof ∨ l.stop + 1 < 2 ^ 63) := by
  obtain ⟨hvalid, -⟩ := flockToFileLock_describes hl
  obtain ⟨type, base, origin, start, stop, -, hbase, hadd, hrange, rfl⟩ :=
    flockToFileLock_eq_ok.1 hl
  obtain ⟨_, hmax⟩ := addOverflow_eq_some.1 hadd
  obtain ⟨hstop, hrange⟩ := (flockRange_eq_ok hmax).1 hrange
  have hsmall := h base (whenceOrigin_eq_ok.1 hbase)
  dsimp only at hvalid ⊢
  omega

theorem SmallReachable.small (h : SmallReachable alloc t) :
    t.AllIn fun s e => s < 2 ^ 63 ∧ s ≤ e ∧ (e = fsLockEof ∨ e + 1 < 2 ^ 63) := by
  induction h with
  | init h =>
    subst h
    exact Table.allIn_initial
  | step c _ hs ih =>
    refine FcntlStep.allIn rangeClosed_small ih ?_ hs.2
    rintro hdl pid fl wait caller rfl l hl
    have hsmall : fl.Small hdl := hs.1
    exact hsmall.range hl

/-- **Lock ranges and their encoding.** An accepted `struct flock` gives exactly the
range it describes. In the other direction, what `F_GETLK` writes for a lock that is
held stands for its range exactly if the range begins below 2^63, and is shorter than
2^63 bytes or goes on to the end of the file. In runs whose requests stay below 2^63
this is so for all locks, merged and split ones too. -/
theorem fcntl_ranges (alloc : Nat → Bool) :
    (∀ (hdl : Handle Dent) (pid : Nat) (fl : Flock) (l : Lock),
      flockToFileLock hdl pid fl = .ok l → l.start ≤ l.stop ∧ l.stop ≤ fsLockEof ∧
        ∀ b : Int, (l.start : Int) ≤ b ∧ b ≤ l.stop ↔ fl.Describes hdl b) ∧
    (∀ t : Table Dent, FcntlReachable alloc t → ∀ dent, ∀ l ∈ t.held dent,
      (l.RoundTrips ↔ Representable l.start l.stop)) ∧
    ∀ t : Table Dent, SmallReachable alloc t → ∀ dent, ∀ l ∈ t.held dent, l.RoundTrips := by
  refine ⟨fun hdl pid fl l h => flockToFileLock_describes h, fun t ht dent l hl => ?_,
    fun t ht dent l hl => ?_⟩
  · obtain ⟨hrange, heof⟩ := ht.valid.held hl
    exact Lock.roundTrips_iff hrange heof
  have hreach : FcntlReachable alloc t := Reachable.of_guarded ht
  obtain ⟨hrange, heof⟩ := hreach.valid.held hl
  obtain ⟨hstart, -, hstop⟩ := ht.small.held hl
  exact (Lock.roundTrips_iff hrange heof).2 ⟨hstart, by omega⟩

end

/-- A request for a write lock of `len` bytes from `start` on, by process 1 of the leader,
through a handle that may read and write. -/
def exampleSetlk (start len : Int) : FcntlCall Unit :=
  .setlk ⟨some (), none, none, true, true⟩ 1 (some ⟨1, 0, Off.wrap start, Off.wrap len, 0⟩) false
    (.leader none)

theorem fcntlReachable_of_run {cs : List (FcntlCall Unit)} {t : Table Unit}
    (h : cs.foldlM (fun t c => (fcntlExec (fun _ => true) t c).toOption) Table.initial = some t) :
    FcntlReachable (fun _ => true) t := by
  have hinit : FcntlReachable (fun _ => true) (Table.initial : Table Unit) := .init rfl
  have hnext : ∀ (t : Table Unit) c t', (fcntlExec (fun _ => true) t c).toOption = some t' →
      FcntlStep (fun _ => true) t c t' := fun _ _ _ hs => toOption_eq_some.1 hs
  exact Reachable.of_foldlM _ hnext hinit cs h

/-- Two locks next to each other: bytes 10 to 19 are held, and reported as such. -/
theorem fcntl_ranges_merged : ∃ t : Table Unit,
    t.held () = [⟨.posix, .wrlck, 10, 19, 1, 0⟩] ∧ ∀ l ∈ t.held (), l.RoundTrips := by
  have hrun : (([exampleSetlk 10 5, exampleSetlk 15 5].foldlM
      (fun t c => (fcntlExec (fun _ => true) t c).toOption) Table.initial).map
        fun t => t.held ()) = some [⟨.posix, .wrlck, 10, 19, 1, 0⟩] := by decide +kernel
  obtain ⟨t, ht, hheld⟩ := Option.map_eq_some_iff.1 hrun
  refine ⟨t, hheld, fun l hl => ?_⟩
  refine ((fcntl_ranges (fun _ => true)).2.1 t (fcntlReachable_of_run ht) () l hl).2 ?_
  rw [hheld, List.mem_singleton] at hl
  subst hl
  unfold Representable
  decide

/-- The largest range one request can ask for from the beginning of the file, and the
byte after it: the merged lock of bytes 0 to 2^63 - 1 is reported with the length
-2^63, which `flock_to_file_lock` refuses. -/
theorem getlk_reports_negative_length : ∃ t : Table Unit, FcntlReachable (fun _ => true) t ∧
    t.held () = [⟨.posix, .wrlck, 0, 2 ^ 63 - 1, 1, 0⟩] ∧
    ∀ l ∈ t.held (), (fileLockToFlock l).lLen.1 = -2 ^ 63 ∧
      flockToFileLock (⟨some (), none, none, true, true⟩ : Handle Unit) 2 (fileLockToFlock l) =
        .error .einval ∧ ¬ l.RoundTrips := by
  have hrun : (([exampleSetlk 0 (2 ^ 63 - 1), exampleSetlk (2 ^ 63 - 1) 1].foldlM
      (fun t c => (fcntlExec (fun _ => true) t c).toOption) Table.initial).map
        fun t => t.held ()) = some [⟨.posix, .wrlck, 0, 2 ^ 63 - 1, 1, 0⟩] := by decide +kernel
  obtain ⟨t, ht, hheld⟩ := Option.map_eq_some_iff.1 hrun
  refine ⟨t, fcntlReachable_of_run ht, hheld, fun l hl => ?_⟩
  rw [hheld, List.mem_singleton] at hl
  subst hl
  refine ⟨by decide +kernel, rfl, fun hround => ?_⟩
  obtain ⟨l', hl', -⟩ := hround Unit ⟨some (), none, none, true, true⟩ 2
  cases hl'

end FileLock
