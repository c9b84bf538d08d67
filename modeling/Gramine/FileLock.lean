import Gramine.Transition

/-!
# File locks in the leader process

`libos_fs_lock.c`, as the leader runs it. For every dentry with held locks or
pending requests there is a `dent_file_locks` object with the list of held locks
(POSIX and flock) and the list of requests that wait.

`malloc` can fail at any call: `alloc n` says whether the `n`-th call succeeds,
and every function that allocates takes and returns the number of calls made so
far. A failed `assert`, and a request answered before its `notify` part was
filled in, is a `Fault`. The IPC layer is reduced to the answers the leader
sends; that sending one can fail only logs a warning.
-/

namespace FileLock

/-- `enum libos_file_lock_family`. -/
inductive Family
  | posix
  | flock
  deriving DecidableEq, Repr

/-- `F_RDLCK`, `F_WRLCK`, `F_UNLCK`. -/
inductive LockType
  | rdlck
  | wrlck
  | unlck
  deriving DecidableEq, Repr

/-- `FS_LOCK_EOF`, the largest `uint64_t`. -/
def fsLockEof : Nat := 2 ^ 64 - 1

/-- `struct libos_file_lock`; `stop` is the source's `end`, the last byte of the
range. -/
structure Lock where
  family : Family
  type : LockType
  start : Nat
  stop : Nat
  pid : Nat
  handleId : Nat
  deriving DecidableEq, Repr

/-- The error codes the leader returns. -/
inductive Errno
  | enomem
  | eperm
  | eagain
  /-- Whatever `PalEventCreate` or the wait for the event failed with. -/
  | event
  /-- Whatever the dentry lookup failed with. -/
  | lookup
  deriving DecidableEq, Repr

/-- What a function returns: 0, or an error code. -/
abbrev Ret := Option Errno

/-- Whom a request answers to: a thread of the leader that waits for an event, or
another process that waits for an IPC response. -/
inductive Notify
  | event (event : Nat)
  | ipc (vmid seq : Nat)
  deriving DecidableEq, Repr

/-- `struct file_lock_request`; `notify` is `none` until it is filled in. -/
structure Request where
  fileLock : Lock
  notify : Option Notify
  deriving DecidableEq, Repr

/-- `struct dent_file_locks`. -/
structure DentFileLocks where
  posixUsed : Bool
  flockUsed : Bool
  fileLocks : List Lock
  fileLockRequests : List Request
  deriving DecidableEq, Repr

/-- Undefined behaviour and failed assertions. -/
inductive Fault
  /-- `file_lock_process_requests` reads a `notify` that was not filled in. -/
  | uninitialized
  /-- `assert(!req->notify.event)` in `file_lock_clear_pid_from_dentry`. -/
  | clearPid
  deriving DecidableEq, Repr

/-- An answer that was sent. -/
structure Answer where
  notify : Notify
  result : Ret
  deriving DecidableEq, Repr

/-! ## One dentry -/

/-- The condition `file_lock_find_conflict` looks for. -/
def Conflict (fl cur : Lock) : Prop :=
  match fl.family with
  | .posix => cur.pid ≠ fl.pid ∧ fl.start ≤ cur.stop ∧ cur.start ≤ fl.stop ∧
      (cur.type = .wrlck ∨ fl.type = .wrlck)
  | .flock => cur.handleId ≠ fl.handleId ∧ (cur.type = .wrlck ∨ fl.type = .wrlck)

instance (fl cur : Lock) : Decidable (Conflict fl cur) := by
  unfold Conflict
  split <;> infer_instance

/-- `file_lock_find_conflict`. -/
def fileLockFindConflict (locks : List Lock) (fl : Lock) : Option Lock :=
  locks.find? (fun cur => Conflict fl cur)

/-- Where the loop of `_posix_lock_set` ended: the locks up to `prev`, the ones
after it, and the target range. -/
structure Split where
  before : List Lock
  after : List Lock
  start : Nat
  stop : Nat
  deriving DecidableEq, Repr

/-- The loop of `_posix_lock_set`. `before` are the locks up to `prev`, `skipped`
the ones after it that were passed over. -/
def posixLockLoop (fl : Lock) (before skipped : List Lock) (start stop : Nat) : List Lock → Split
  | [] => ⟨before, skipped, start, stop⟩
  | cur :: rest =>
    if cur.family ≠ .posix then posixLockLoop fl before (skipped ++ [cur]) start stop rest
    else if cur.pid < fl.pid then
      posixLockLoop fl (before ++ skipped ++ [cur]) [] start stop rest
    else if fl.pid < cur.pid then ⟨before, skipped ++ cur :: rest, start, stop⟩
    else if cur.type = fl.type then
      if 0 < start ∧ cur.stop < start - 1 then
        -- ends before the target range begins, and is not even adjacent
        posixLockLoop fl (before ++ skipped ++ [cur]) [] start stop rest
      else if stop < fsLockEof ∧ stop + 1 < cur.start then
        ⟨before, skipped ++ cur :: rest, start, stop⟩
      else
        -- adjacent or overlapping: delete it and expand the target range
        posixLockLoop fl before skipped (min start cur.start) (max stop cur.stop) rest
    else if cur.stop < start then
      posixLockLoop fl (before ++ skipped ++ [cur]) [] start stop rest
    else if stop < cur.start then ⟨before, skipped ++ cur :: rest, start, stop⟩
    else if cur.start < start ∧ cur.stop ≤ stop then
      -- overlaps with the beginning of the target range
      posixLockLoop fl (before ++ skipped ++ [{ cur with stop := start - 1 }]) [] start stop rest
    else if cur.start < start ∧ stop < cur.stop then
      -- the target range is inside: split
      ⟨before ++ skipped ++ [{ cur with stop := start - 1 }],
        ⟨.posix, cur.type, stop + 1, cur.stop, cur.pid, 0⟩ :: rest, start, stop⟩
    else if start ≤ cur.start ∧ cur.stop ≤ stop then
      -- completely covered
      posixLockLoop fl before skipped start stop rest
    else
      -- overlaps with the end of the target range
      ⟨before, skipped ++ { cur with start := stop + 1 } :: rest, start, stop⟩

section Alloc
variable (alloc : Nat → Bool)

/-- `_posix_lock_set`: the calls to `malloc` so far, the result, and the locks. -/
def posixLockSet (n : Nat) (locks : List Lock) (fl : Lock) : Nat × Ret × List Lock :=
  if fl.type ≠ .unlck then
    if alloc n = false then (n + 1, some .enomem, locks)
    else if alloc (n + 1) = false then (n + 2, some .enomem, locks)
    else
      let r := posixLockLoop fl [] [] fl.start fl.stop locks
      (n + 2, none, r.before ++ [⟨.posix, fl.type, r.start, r.stop, fl.pid, 0⟩] ++ r.after)
  else
    if alloc n = false then (n + 1, some .enomem, locks)
    else
      let r := posixLockLoop fl [] [] fl.start fl.stop locks
      (n + 1, none, r.before ++ r.after)

/-- `_flock_lock_set`. -/
def flockLockSet (n : Nat) (locks : List Lock) (fl : Lock) : Nat × Ret × List Lock :=
  if fl.type ≠ .unlck ∧ alloc n = false then (n + 1, some .enomem, locks)
  else
    let locks := locks.eraseP (fun cur => cur.family = .flock ∧ cur.handleId = fl.handleId)
    if fl.type ≠ .unlck then
      (n + 1, none, ⟨.flock, fl.type, 0, 0, 0, fl.handleId⟩ :: locks)
    else (n, none, locks)

/-- The lock is set or removed in the list of its family. -/
def lockSet (n : Nat) (locks : List Lock) (fl : Lock) : Nat × Ret × List Lock :=
  match fl.family with
  | .posix => posixLockSet alloc n locks fl
  | .flock => flockLockSet alloc n locks fl

/-- What `file_lock_process_requests` works on: the calls to `malloc`, the held
locks and the requests left, the answers sent, and `changed`. -/
structure Pass where
  mallocs : Nat
  locks : List Lock
  requests : List Request
  answers : List Answer
  changed : Bool
  deriving DecidableEq, Repr

/-- One pass over the requests: every request without a conflict is processed,
answered and removed. -/
def processPass (n : Nat) (locks : List Lock) : List Request → Except Fault Pass
  | [] => pure ⟨n, locks, [], [], false⟩
  | req :: rest =>
    match fileLockFindConflict locks req.fileLock with
    | some _ => do
      let p ← processPass n locks rest
      pure { p with requests := req :: p.requests }
    | none =>
      let (n, result, locks) := lockSet alloc n locks req.fileLock
      match req.notify with
      | none => throw .uninitialized
      | some notify => do
        let p ← processPass n locks rest
        pure { p with answers := ⟨notify, result⟩ :: p.answers, changed := true }

/-- The `do … while (changed)` loop of `file_lock_process_requests`. A pass that
changes something removes a request, so the number of requests bounds the passes. -/
def processLoop : Nat → Nat → List Lock → List Request → Except Fault Pass
  | 0, n, locks, reqs => processPass alloc n locks reqs
  | fuel + 1, n, locks, reqs => do
    let p ← processPass alloc n locks reqs
    if p.changed then
      let p' ← processLoop fuel p.mallocs p.locks p.requests
      pure { p' with answers := p.answers ++ p'.answers }
    else pure p

/-- `file_lock_process_requests`. -/
def fileLockProcessRequests (n : Nat) (d : DentFileLocks) :
    Except Fault (Nat × DentFileLocks × List Answer) := do
  let p ← processLoop alloc d.fileLockRequests.length n d.fileLocks d.fileLockRequests
  pure (p.mallocs, { d with fileLocks := p.locks, fileLockRequests := p.requests }, p.answers)

end Alloc

/-! ## All dentries -/

/-- `dent->file_locks` of every dentry, `g_dent_file_locks_list`, the number of
calls to `malloc`, and the answers sent so far. -/
structure Table (Dent : Type) where
  fileLocks : Dent → Option DentFileLocks
  list : List Dent
  mallocs : Nat
  answers : List Answer

namespace Table
variable {Dent : Type} [DecidableEq Dent]

/-- No locks and no requests. -/
def initial : Table Dent := ⟨fun _ => none, [], 0, []⟩

/-- Store a dentry's object. -/
def put (t : Table Dent) (dent : Dent) (d : DentFileLocks) : Table Dent :=
  { t with fileLocks := Function.update t.fileLocks dent (some d) }

/-- `dent_file_locks_gc`. -/
def dentFileLocksGc (t : Table Dent) (dent : Dent) : Table Dent :=
  match t.fileLocks dent with
  | some d =>
    if d.fileLocks = [] ∧ d.fileLockRequests = [] then
      { t with fileLocks := Function.update t.fileLocks dent none, list := t.list.erase dent }
    else t
  | none => t

/-- The object `find_dent_file_locks` creates. -/
def withObject (t : Table Dent) (dent : Dent) : Table Dent :=
  { t.put dent ⟨false, false, [], []⟩ with list := dent :: t.list, mallocs := t.mallocs + 1 }

section Alloc
variable (alloc : Nat → Bool)

/-- `find_dent_file_locks`. -/
def findDentFileLocks (t : Table Dent) (dent : Dent) (create : Bool) :
    Table Dent × Except Errno (Option DentFileLocks) :=
  match t.fileLocks dent with
  | some d => (t, .ok (some d))
  | none =>
    if create then
      if alloc t.mallocs = false then ({ t with mallocs := t.mallocs + 1 }, .error .enomem)
      else (t.withObject dent, .ok (some ⟨false, false, [], []⟩))
    else (t, .ok none)

/-- The object after `file_lock_set_or_add_request` succeeded: the family is in
use. -/
def DentFileLocks.use (d : DentFileLocks) (fl : Lock) : DentFileLocks :=
  if fl.type ≠ .unlck then
    match fl.family with
    | .posix => { d with posixUsed := true }
    | .flock => { d with flockUsed := true }
  else d

/-- `file_lock_set_or_add_request` on an existing object, up to `out`: the result,
and whether a request was added. -/
def setOrAdd (t : Table Dent) (dent : Dent) (d : DentFileLocks) (fl : Lock) (wait : Bool) :
    Except Fault (Table Dent × Ret × Bool) :=
  if fl.type ≠ .unlck ∧ ((fl.family = .flock ∧ d.posixUsed) ∨ (fl.family = .posix ∧ d.flockUsed))
  then pure (t, some .eperm, false)
  else if fl.type ≠ .unlck ∧ (fileLockFindConflict d.fileLocks fl).isSome then
    if wait = false then pure (t, some .eagain, false)
    else if alloc t.mallocs = false then
      pure ({ t with mallocs := t.mallocs + 1 }, some .enomem, false)
    else
      -- `file_lock_add_request`; `notify` is filled in by the caller
      let d := { d with fileLockRequests := ⟨fl, none⟩ :: d.fileLockRequests }
      pure ({ t.put dent (DentFileLocks.use d fl) with mallocs := t.mallocs + 1 }, none, true)
  else
    match lockSet alloc t.mallocs d.fileLocks fl with
    | (n, some e, _) => pure ({ t with mallocs := n }, some e, false)
    | (n, none, locks) => do
      let (n, d, answers) ← fileLockProcessRequests alloc n { d with fileLocks := locks }
      pure ({ t.put dent (DentFileLocks.use d fl) with
        mallocs := n, answers := t.answers ++ answers }, none, false)

/-- `file_lock_set_or_add_request`. -/
def fileLockSetOrAddRequest (t : Table Dent) (dent : Dent) (fl : Lock) (wait : Bool) :
    Except Fault (Table Dent × Ret × Bool) :=
  match findDentFileLocks alloc t dent (fl.type ≠ .unlck) with
  | (t, .error e) => pure (t, some e, false)
  | (t, .ok none) => pure (t, none, false)
  | (t, .ok (some d)) => do
    let (t, ret, added) ← setOrAdd alloc t dent d fl wait
    pure (t.dentFileLocksGc dent, ret, added)

/-- Fill in the `notify` part of the request just added. -/
def setNotify (t : Table Dent) (dent : Dent) (notify : Notify) : Table Dent :=
  match t.fileLocks dent with
  | some ⟨posixUsed, flockUsed, locks, req :: reqs⟩ =>
    t.put dent ⟨posixUsed, flockUsed, locks, { req with notify := some notify } :: reqs⟩
  | _ => t

/-- What a call of `file_lock_set` in the leader returns; `waiting` is a thread
that waits for its event. -/
inductive Outcome
  | returned (ret : Ret)
  | waiting
  deriving DecidableEq, Repr

/-- `file_lock_set` in the leader, until it returns or waits; `event` is what
`PalEventCreate` gives. -/
def fileLockSet (t : Table Dent) (dent : Dent) (fl : Lock) (wait : Bool) (event : Option Nat) :
    Except Fault (Table Dent × Outcome) := do
  let (t, ret, added) ← fileLockSetOrAddRequest alloc t dent fl wait
  if ret ≠ none then pure (t, .returned ret)
  else if added then
    match event with
    | none => pure (t, .returned (some .event))
    | some e => pure (t.setNotify dent (.event e), .waiting)
  else pure (t, .returned none)

/-- `file_lock_set_from_ipc`; `dent` is the dentry that `path` leads to. -/
def fileLockSetFromIpc (t : Table Dent) (dent : Option Dent) (fl : Lock) (wait : Bool)
    (vmid seq : Nat) : Except Fault (Table Dent) :=
  match dent with
  | none => pure { t with answers := t.answers ++ [⟨.ipc vmid seq, some .lookup⟩] }
  | some dent => do
    let (t, ret, added) ← fileLockSetOrAddRequest alloc t dent fl wait
    -- `notify.seq` is an `unsigned int`
    if added then pure (t.setNotify dent (.ipc vmid (seq % 2 ^ 32)))
    else pure { t with answers := t.answers ++ [⟨.ipc vmid seq, ret⟩] }

/-- `file_lock_get`: the first conflicting lock. -/
def fileLockGet (t : Table Dent) (dent : Dent) (fl : Lock) : Table Dent × Option Lock :=
  match t.fileLocks dent with
  | some d => (t.dentFileLocksGc dent, fileLockFindConflict d.fileLocks fl)
  | none => (t, none)

/-- The request belongs to a process whose locks are cleared. -/
def ofPid (pid : Nat) (fl : Lock) : Bool := fl.family = .posix ∧ fl.pid = pid

/-- `file_lock_clear_pid_from_dentry`. -/
def fileLockClearPidFromDentry (t : Table Dent) (dent : Dent) (pid : Nat) :
    Except Fault (Table Dent) :=
  match t.fileLocks dent with
  | none => pure t
  | some d =>
    let locks := d.fileLocks.filter (fun l => ! ofPid pid l)
    let reqs := d.fileLockRequests.filter (fun r => ! ofPid pid r.fileLock)
    -- only requests of other processes are removed here
    if d.fileLockRequests.any (fun r => ofPid pid r.fileLock &&
        match r.notify with | some (.event _) => true | _ => false) then throw .clearPid
    else
      let d' := { d with fileLocks := locks, fileLockRequests := reqs }
      if d.fileLocks.any (ofPid pid) then do
        let (n, d', answers) ← fileLockProcessRequests alloc t.mallocs d'
        pure ({ t.put dent d' with
          mallocs := n, answers := t.answers ++ answers }.dentFileLocksGc dent)
      else pure (t.put dent d')

/-- The loop of `file_lock_clear_pid`. The next dentry is read before the current
one is handled, which removes at most the current one from the list. -/
def clearPidLoop (pid : Nat) : List Dent → Table Dent → Except Fault (Table Dent)
  | [], t => pure t
  | dent :: rest, t => do
    let t ← fileLockClearPidFromDentry alloc t dent pid
    clearPidLoop pid rest t

/-- `file_lock_clear_pid` in the leader. -/
def fileLockClearPid (t : Table Dent) (pid : Nat) : Except Fault (Table Dent) :=
  clearPidLoop alloc pid t.list t

end Alloc

end Table

end FileLock
