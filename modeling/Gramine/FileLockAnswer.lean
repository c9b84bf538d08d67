import Gramine.Fallible
import Gramine.FileLock
import Gramine.GrantLoop
import Gramine.Ledger

/-!
# Answers to queued lock requests

The calls that lock and unlock files in the leader: its own threads in `file_lock_set`, and the IPC
worker in `file_lock_set_from_ipc`. A section under `g_fs_lock_lock` is one step. A call that
waits has queued a request, and the section that grants it later finds in the `notify` part of the
request whom to tell. The IPC worker fills that part in after it has released the lock, which is a
step of its own, and so is the return of a thread of the leader from its wait, which may fail.

Requests carry the number of the call that has queued them, and the state records what happened to
each of them; without these records a section is that of the lock table
(`fileLockSetOrAddRequest_forget`). What a section does to the requests of a dentry is said once, by
`Moves` and `Adds`, and the invariant of the runs is derived from that: each request waits at one
dentry, was answered, or was removed, and only the request that the IPC worker is about to fill in
has no `notify` part.
-/

open Function List Transition

namespace FileLock.Leader

/-! ## Data -/

/-- `struct file_lock_request`, with the call that has queued it. -/
structure Ticket where
  call : Nat
  fileLock : Lock
  notify : Option Notify
  deriving DecidableEq, Repr

/-- `struct dent_file_locks`. -/
structure DentLocks where
  posixUsed : Bool
  flockUsed : Bool
  fileLocks : List Lock
  requests : List Ticket
  deriving DecidableEq, Repr

/-- A notification about a queued request. -/
structure Sent where
  call : Nat
  answer : Answer
  deriving DecidableEq, Repr

/-- Failed assertions, and reads and writes of memory that is not there. -/
inductive Fault
  /-- `file_lock_process_requests` reads a `notify` that was not filled in. -/
  | uninitialized
  /-- `assert(!req->notify.event)` in `file_lock_clear_pid_from_dentry`. -/
  | clearPid
  /-- The request that `notify` is written to has been freed. -/
  | freed
  /-- `file_lock_process_requests` sets the event and the result of a call that has returned: the
  event is destroyed, and the result was a variable of that call. -/
  | destroyed
  deriving DecidableEq, Repr

/-- The request that the IPC worker has queued, and what it will write to it. -/
structure Filling (Dent : Type) where
  dent : Dent
  call : Nat
  notify : Notify
  deriving DecidableEq, Repr

/-- The leader: `dent->file_locks`, `g_dent_file_locks_list` and the calls to `malloc`, and what has
become of the calls. -/
structure State (Dent : Type) where
  fileLocks : Dent → Option DentLocks
  list : List Dent
  mallocs : Nat
  /-- The number of calls so far. -/
  calls : Nat
  /-- Whom a call has to be answered to. -/
  caller : Nat → Notify
  /-- The calls that have queued a request. -/
  queued : List Nat
  /-- The notifications about queued requests. -/
  sent : List Sent
  /-- The calls whose request was removed with the locks of its process. -/
  cleared : List Nat
  /-- The calls of the leader that have returned, and those for which the IPC worker has sent the
  response itself. -/
  returned : List (Nat × Ret)
  /-- The IPC worker, between its section and the end of `file_lock_set_from_ipc`. -/
  worker : Option (Filling Dent)

variable {Dent : Type} [DecidableEq Dent]

namespace State

/-- No locks, and no calls. -/
def initial : State Dent :=
  ⟨fun _ => none, [], 0, 0, fun _ => .event 0, [], [], [], [], none⟩

/-- The requests of a dentry. -/
def tickets (s : State Dent) (dent : Dent) : List Ticket :=
  ((s.fileLocks dent).map DentLocks.requests).getD []

/-- Store a dentry's object. -/
def put (s : State Dent) (dent : Dent) (d : DentLocks) : State Dent :=
  { s with fileLocks := update s.fileLocks dent (some d) }

/-- `dent_file_locks_gc`. -/
def dentFileLocksGc (s : State Dent) (dent : Dent) : State Dent :=
  match s.fileLocks dent with
  | some d =>
    if d.fileLocks = [] ∧ d.requests = [] then
      { s with fileLocks := update s.fileLocks dent none, list := s.list.erase dent }
    else s
  | none => s

/-- The object `find_dent_file_locks` creates. -/
def withObject (s : State Dent) (dent : Dent) : State Dent :=
  { s.put dent ⟨false, false, [], []⟩ with list := dent :: s.list, mallocs := s.mallocs + 1 }

/-- A call begins. -/
def begins (s : State Dent) (caller : Notify) : State Dent :=
  { s with calls := s.calls + 1, caller := update s.caller s.calls caller }

/-- A call returns, or its response is sent. -/
def returns (s : State Dent) (call : Nat) (ret : Ret) : State Dent :=
  { s with returned := (call, ret) :: s.returned }

end State

/-! ## Sections under the lock -/

section Alloc
variable (alloc : Nat → Bool)

/-- Whether a held lock keeps the request waiting. -/
def blocked (held : Nat × List Lock) (req : Ticket) : Bool :=
  (fileLockFindConflict held.2 req.fileLock).isSome

/-- The lock of a request is set. -/
def grant (held : Nat × List Lock) (req : Ticket) : (Nat × List Lock) × Ret :=
  let r := lockSet alloc held.1 held.2 req.fileLock
  ((r.1, r.2.2), r.2.1)

/-- `req->notify.event`. -/
def Ticket.hasEvent (t : Ticket) : Bool :=
  match t.notify with
  | some (.event _) => true
  | _ => false

/-- The notification about a request that was processed. -/
def notifyOf (returned : List (Nat × Ret)) (granted : Ticket × Ret) : Except Fault Sent :=
  match granted.1.notify with
  | none => throw .uninitialized
  | some notify =>
    if granted.1.hasEvent ∧ granted.1.call ∈ returned.map Prod.fst then throw .destroyed
    else pure ⟨granted.1.call, ⟨notify, granted.2⟩⟩

/-- `file_lock_process_requests`, when some calls have returned. -/
def fileLockProcessRequests (returned : List (Nat × Ret)) (n : Nat) (d : DentLocks) :
    Except Fault (Nat × DentLocks × List Sent) := do
  let p := GrantLoop.loop blocked (grant alloc) d.requests.length (n, d.fileLocks) d.requests
  let sent ← p.granted.mapM (notifyOf returned)
  pure (p.state.1, { d with fileLocks := p.state.2, requests := p.waiting }, sent)

/-- `find_dent_file_locks`. -/
def findDentFileLocks (s : State Dent) (dent : Dent) (create : Bool) :
    State Dent × Except Errno (Option DentLocks) :=
  match s.fileLocks dent with
  | some d => (s, .ok (some d))
  | none =>
    if create then
      if alloc s.mallocs = false then ({ s with mallocs := s.mallocs + 1 }, .error .enomem)
      else (s.withObject dent, .ok (some ⟨false, false, [], []⟩))
    else (s, .ok none)

/-- The object after `file_lock_set_or_add_request` succeeded: the family is in use. -/
def DentLocks.use (d : DentLocks) (fl : Lock) : DentLocks :=
  if fl.type ≠ .unlck then
    match fl.family with
    | .posix => { d with posixUsed := true }
    | .flock => { d with flockUsed := true }
  else d

/-- `file_lock_set_or_add_request` on an existing object, up to `out`: the result, and whether a
request was added. -/
def setOrAdd (s : State Dent) (call : Nat) (dent : Dent) (d : DentLocks) (fl : Lock) (wait : Bool) :
    Except Fault (State Dent × Ret × Bool) :=
  if fl.type ≠ .unlck ∧ ((fl.family = .flock ∧ d.posixUsed) ∨ (fl.family = .posix ∧ d.flockUsed))
  then pure (s, some .eperm, false)
  else if fl.type ≠ .unlck ∧ (fileLockFindConflict d.fileLocks fl).isSome then
    if wait = false then pure (s, some .eagain, false)
    else if alloc s.mallocs = false then
      pure ({ s with mallocs := s.mallocs + 1 }, some .enomem, false)
    else
      -- `file_lock_add_request`; `notify` is filled in by the caller
      let d := { d with requests := ⟨call, fl, none⟩ :: d.requests }
      pure ({ s.put dent (d.use fl) with mallocs := s.mallocs + 1, queued := call :: s.queued },
        none, true)
  else
    match lockSet alloc s.mallocs d.fileLocks fl with
    | (n, some e, _) => pure ({ s with mallocs := n }, some e, false)
    | (n, none, locks) => do
      let (n, d, sent) ← fileLockProcessRequests alloc s.returned n { d with fileLocks := locks }
      pure ({ s.put dent (d.use fl) with mallocs := n, sent := s.sent ++ sent }, none, false)

/-- `file_lock_set_or_add_request`. -/
def fileLockSetOrAddRequest (s : State Dent) (call : Nat) (dent : Dent) (fl : Lock) (wait : Bool) :
    Except Fault (State Dent × Ret × Bool) :=
  match findDentFileLocks alloc s dent (fl.type ≠ .unlck) with
  | (s, .error e) => pure (s, some e, false)
  | (s, .ok none) => pure (s, none, false)
  | (s, .ok (some d)) => do
    let (s, ret, added) ← setOrAdd alloc s call dent d fl wait
    pure (s.dentFileLocksGc dent, ret, added)

/-- The `notify` part of a request is written. -/
def fillNotify (s : State Dent) (dent : Dent) (call : Nat) (notify : Notify) :
    Except Fault (State Dent) :=
  match s.fileLocks dent with
  | none => throw .freed
  | some d =>
    if call ∈ d.requests.map Ticket.call then
      pure (s.put dent { d with requests := d.requests.map fun t =>
        if t.call = call then { t with notify := some notify } else t })
    else throw .freed

/-- `file_lock_set` in the leader, until it returns or waits; `event` says if `PalEventCreate`
succeeds. The event of a call is known by the number of the call. -/
def fileLockSet (s : State Dent) (dent : Dent) (fl : Lock) (wait event : Bool) :
    Except Fault (State Dent) := do
  let call := s.calls
  let (s, ret, added) ←
    fileLockSetOrAddRequest alloc (s.begins (.event call)) call dent fl wait
  if ret ≠ none then pure (s.returns call ret)
  else if added then
    if event then fillNotify s dent call (.event call)
    else pure (s.returns call (some .event))
  else pure (s.returns call none)

/-- The rest of `file_lock_set`, after `event_wait_with_retry`; `ok` says if that succeeded. A wait
that failed leaves the request where it is. -/
def fileLockSetWoken (s : State Dent) (call : Nat) (ok : Bool) : State Dent :=
  if ok then
    match s.sent.find? fun a => a.call = call with
    | some a => s.returns call a.answer.result
    | none => s
  else s.returns call (some .event)

/-- `file_lock_set_from_ipc` up to the end of its section, or to the end if it has not added a
request; `dent` is the dentry that `path` leads to. `notify.seq` is an `unsigned int`. -/
def fileLockSetFromIpc (s : State Dent) (dent : Option Dent) (fl : Lock) (wait : Bool)
    (vmid seq : Nat) : Except Fault (State Dent) :=
  let call := s.calls
  let s := s.begins (.ipc vmid seq)
  match dent with
  | none => pure (s.returns call (some .lookup))
  | some dent => do
    let (s, ret, added) ← fileLockSetOrAddRequest alloc s call dent fl wait
    if added then pure { s with worker := some ⟨dent, call, .ipc vmid (seq % 2 ^ 32)⟩ }
    else pure (s.returns call ret)

/-- The rest of `file_lock_set_from_ipc`, without the lock. -/
def fillFromIpc (s : State Dent) : Except Fault (State Dent) :=
  match s.worker with
  | none => pure s
  | some w => do
    let s ← fillNotify s w.dent w.call w.notify
    pure { s with worker := none }

/-- The request or lock belongs to a process whose locks are cleared. -/
def ofPid (pid : Nat) (fl : Lock) : Bool := fl.family = .posix ∧ fl.pid = pid

/-- `file_lock_clear_pid_from_dentry`. -/
def fileLockClearPidFromDentry (s : State Dent) (dent : Dent) (pid : Nat) :
    Except Fault (State Dent) :=
  match s.fileLocks dent with
  | none => pure s
  | some d =>
    -- only requests of other processes are removed here
    if d.requests.any (fun r => ofPid pid r.fileLock && r.hasEvent) then throw .clearPid
    else
      let d' := { d with
        fileLocks := d.fileLocks.filter fun l => !ofPid pid l
        requests := d.requests.filter fun r => !ofPid pid r.fileLock }
      let gone := (d.requests.filter fun r => ofPid pid r.fileLock).map Ticket.call
      let s := { s with cleared := s.cleared ++ gone }
      if d.fileLocks.any (ofPid pid) then do
        let (n, d', sent) ← fileLockProcessRequests alloc s.returned s.mallocs d'
        pure ({ s.put dent d' with mallocs := n, sent := s.sent ++ sent }.dentFileLocksGc dent)
      else pure (s.put dent d')

/-- The loop of `file_lock_clear_pid`. The next dentry is read before the current one is handled,
which removes at most the current one from the list. -/
def clearPidLoop (pid : Nat) : List Dent → State Dent → Except Fault (State Dent)
  | [], s => pure s
  | dent :: rest, s => do
    let s ← fileLockClearPidFromDentry alloc s dent pid
    clearPidLoop pid rest s

/-- `file_lock_clear_pid` in the leader. -/
def fileLockClearPid (s : State Dent) (pid : Nat) : Except Fault (State Dent) :=
  clearPidLoop alloc pid s.list s

/-! ## Runs -/

/-- What the leader does next. -/
inductive Label (Dent : Type)
  /-- A thread of the leader locks or unlocks a file. -/
  | set (dent : Dent) (fl : Lock) (wait event : Bool)
  /-- The IPC worker handles a message. -/
  | setFromIpc (dent : Option Dent) (fl : Lock) (wait : Bool) (vmid seq : Nat)
  /-- The IPC worker goes on after its section. -/
  | fillFromIpc
  /-- A process has exited. -/
  | clearPid (pid : Nat)
  /-- The wait of a thread of the leader ends. -/
  | wake (call : Nat) (ok : Bool)

/-- A call of the leader that waits for its event. -/
def State.Waits (s : State Dent) (call : Nat) : Prop :=
  call ∈ s.queued ∧ s.caller call = .event call ∧ call ∉ s.returned.map Prod.fst

/-- The IPC worker handles one message after the other, and a wait succeeds only if the event was
set. -/
def Label.Enabled (s : State Dent) : Label Dent → Prop
  | .setFromIpc .. => s.worker = none
  | .wake call ok => s.Waits call ∧ (ok = true → call ∈ s.sent.map Sent.call)
  | _ => True

def exec (s : State Dent) : Label Dent → Except Fault (State Dent)
  | .set dent fl wait event => fileLockSet alloc s dent fl wait event
  | .setFromIpc dent fl wait vmid seq => fileLockSetFromIpc alloc s dent fl wait vmid seq
  | .fillFromIpc => fillFromIpc s
  | .clearPid pid => fileLockClearPid alloc s pid
  | .wake call ok => .ok (fileLockSetWoken s call ok)

def Step (s : State Dent) (l : Label Dent) (s' : State Dent) : Prop :=
  l.Enabled s ∧ exec alloc s l = .ok s'

end Alloc

/-! ## The lock table

Without the numbers of the calls and the records of what has become of them, the state is the lock
table of the leader, and a section does to the table what the function does there. -/

/-- The request without its call. -/
def Ticket.forget (t : Ticket) : Request := ⟨t.fileLock, t.notify⟩

def DentLocks.forget (d : DentLocks) : DentFileLocks :=
  ⟨d.posixUsed, d.flockUsed, d.fileLocks, d.requests.map Ticket.forget⟩

/-- The lock table, with the answers to queued requests. -/
def State.forget (s : State Dent) : Table Dent :=
  ⟨fun dent => (s.fileLocks dent).map DentLocks.forget, s.list, s.mallocs, s.sent.map Sent.answer⟩

section Forget
variable {alloc : Nat → Bool} {returned : List (Nat × Ret)} {n fuel : Nat} {locks : List Lock}
  {tickets : List Ticket} {sent : List Sent}

theorem notifyOf_eq_ok {g : Ticket × Ret} {a : Sent} (h : notifyOf returned g = .ok a) :
    g.1.notify = some a.answer.notify ∧ a.answer.result = g.2 := by
  unfold notifyOf at h
  split at h
  · cases h
  · rename_i notify hn
    split_ifs at h
    cases h
    exact ⟨hn, rfl⟩

theorem pass_forget (h : (GrantLoop.pass blocked (grant alloc) (n, locks) tickets).granted.mapM
      (notifyOf returned) = .ok sent) :
    let p := GrantLoop.pass blocked (grant alloc) (n, locks) tickets
    processPass alloc n locks (tickets.map Ticket.forget) =
      .ok ⟨p.state.1, p.state.2, p.waiting.map Ticket.forget, sent.map Sent.answer,
        !p.granted.isEmpty⟩ := by
  induction tickets generalizing n locks sent with
  | nil =>
    cases h
    rfl
  | cons t tickets ih =>
    rw [map_cons, processPass]
    by_cases hb : blocked (n, locks) t = true
    · obtain ⟨l, hl⟩ := Option.isSome_iff_exists.1 hb
      have hfind : fileLockFindConflict locks t.fileLock = some l := hl
      rw [GrantLoop.pass, if_pos hb] at h ⊢
      simp only [Ticket.forget, hfind, ih h]
      rfl
    · have hfind : fileLockFindConflict locks t.fileLock = none :=
        Option.not_isSome_iff_eq_none.1 hb
      rw [GrantLoop.pass, if_neg hb] at h ⊢
      rw [mapM_cons] at h
      obtain ⟨a, ha, h⟩ := Fallible.bind_eq_ok.1 h
      obtain ⟨rest, hrest, h⟩ := Fallible.bind_eq_ok.1 h
      cases h
      obtain ⟨hnotify, hresult⟩ := notifyOf_eq_ok ha
      have hpass := ih hrest
      simp only [grant] at hpass hresult hnotify
      simp only [Ticket.forget, hfind, hnotify, hpass, ← hresult]
      rfl

theorem loop_forget (h : (GrantLoop.loop blocked (grant alloc) fuel (n, locks) tickets).granted.mapM
      (notifyOf returned) = .ok sent) :
    let p := GrantLoop.loop blocked (grant alloc) fuel (n, locks) tickets
    ∃ changed, processLoop alloc fuel n locks (tickets.map Ticket.forget) =
      .ok ⟨p.state.1, p.state.2, p.waiting.map Ticket.forget, sent.map Sent.answer, changed⟩ := by
  induction fuel generalizing n locks tickets sent with
  | zero => exact ⟨_, pass_forget h⟩
  | succ fuel ih =>
    simp only [GrantLoop.loop] at h ⊢
    by_cases hnone : (GrantLoop.pass blocked (grant alloc) (n, locks) tickets).granted.isEmpty
    · rw [if_pos hnone] at h
      simp only [processLoop, pass_forget h, if_pos hnone]
      exact ⟨_, if_neg (by simp [hnone])⟩
    · rw [if_neg hnone, mapM_append] at h
      obtain ⟨first, hfirst, h⟩ := Fallible.bind_eq_ok.1 h
      obtain ⟨rest, hrest, h⟩ := Fallible.bind_eq_ok.1 h
      cases h
      obtain ⟨changed, hloop⟩ := ih hrest
      simp only [processLoop, pass_forget hfirst, if_neg hnone]
      refine ⟨changed, (if_pos (by simp [hnone])).trans ?_⟩
      simp only [hloop, map_append]
      rfl

/-- `file_lock_process_requests` is that of the lock table. -/
theorem fileLockProcessRequests_forget {d d' : DentLocks} {n' : Nat}
    (h : fileLockProcessRequests alloc returned n d = .ok (n', d', sent)) :
    FileLock.fileLockProcessRequests alloc n d.forget =
      .ok (n', d'.forget, sent.map Sent.answer) := by
  obtain ⟨answers, hsent, h⟩ := Fallible.bind_eq_ok.1 h
  cases h
  obtain ⟨changed, hloop⟩ := loop_forget hsent
  simp only [FileLock.fileLockProcessRequests, DentLocks.forget, length_map, hloop]
  rfl

theorem forget_put (s : State Dent) (dent : Dent) (d : DentLocks) :
    (s.put dent d).forget = s.forget.put dent d.forget := by
  simp only [State.forget, State.put, Table.put]
  congr 1
  funext x
  simp only [update_apply]
  split <;> rfl

theorem forget_use (d : DentLocks) (fl : Lock) :
    (d.use fl).forget = Table.DentFileLocks.use d.forget fl := by
  unfold DentLocks.use Table.DentFileLocks.use
  split_ifs
  · cases fl.family <;> rfl
  · rfl

theorem forget_gc (s : State Dent) (dent : Dent) :
    (s.dentFileLocksGc dent).forget = s.forget.dentFileLocksGc dent := by
  unfold State.dentFileLocksGc Table.dentFileLocksGc
  cases hd : s.fileLocks dent with
  | none => simp [State.forget, hd]
  | some d =>
    have hforget : s.forget.fileLocks dent = some d.forget := by simp [State.forget, hd]
    have hempty : (d.forget.fileLocks = [] ∧ d.forget.fileLockRequests = []) ↔
        d.fileLocks = [] ∧ d.requests = [] := by simp [DentLocks.forget]
    simp only [hforget, hempty]
    split_ifs
    · simp only [State.forget]
      congr 1
      funext x
      simp only [update_apply]
      split <;> rfl
    · rfl

theorem forget_withObject (s : State Dent) (dent : Dent) :
    (s.withObject dent).forget = s.forget.withObject dent := by
  have hput := forget_put s dent ⟨false, false, [], []⟩
  exact congrArg (fun t : Table Dent =>
    { t with list := dent :: s.list, mallocs := s.mallocs + 1 }) hput

theorem setOrAdd_forget {s s' : State Dent} {call : Nat} {dent : Dent} {d : DentLocks} {fl : Lock}
    {wait added : Bool} {ret : Ret}
    (h : setOrAdd alloc s call dent d fl wait = .ok (s', ret, added)) :
    Table.setOrAdd alloc s.forget dent d.forget fl wait = .ok (s'.forget, ret, added) := by
  unfold setOrAdd at h
  unfold Table.setOrAdd
  split_ifs at h with hfamily hconflict hwait halloc
  · cases h
    exact if_pos hfamily
  · cases h
    exact (if_neg hfamily).trans ((if_pos hconflict).trans (if_pos hwait))
  · cases h
    exact (if_neg hfamily).trans ((if_pos hconflict).trans ((if_neg hwait).trans (if_pos halloc)))
  · cases h
    refine (if_neg hfamily).trans ((if_pos hconflict).trans
      ((if_neg hwait).trans ((if_neg halloc).trans ?_)))
    have hput := forget_put s dent
      (DentLocks.use { d with requests := ⟨call, fl, none⟩ :: d.requests } fl)
    rw [forget_use] at hput
    exact congrArg (fun t : Table Dent => Except.ok
      (({ t with mallocs := s.mallocs + 1 } : Table Dent), (none : Ret), true)) hput.symm
  · refine (if_neg hfamily).trans ((if_neg hconflict).trans ?_)
    have hlock : lockSet alloc s.forget.mallocs d.forget.fileLocks fl =
        lockSet alloc s.mallocs d.fileLocks fl := rfl
    rw [hlock]
    generalize lockSet alloc s.mallocs d.fileLocks fl = r at h ⊢
    obtain ⟨n, e, locks⟩ := r
    cases e with
    | some e =>
      cases h
      rfl
    | none =>
      obtain ⟨⟨n', d', sent⟩, hprocess, h⟩ := Fallible.bind_eq_ok.1 h
      cases h
      have hforget : FileLock.fileLockProcessRequests alloc n { d.forget with fileLocks := locks } =
          _ := fileLockProcessRequests_forget hprocess
      have hput := forget_put s dent (d'.use fl)
      rw [forget_use] at hput
      have hanswers : (s.sent ++ sent).map Sent.answer =
          s.forget.answers ++ sent.map Sent.answer := map_append
      simp only [hforget, State.forget, hanswers]
      exact congrArg (fun t : Table Dent => Except.ok (({ t with
        mallocs := n', answers := s.forget.answers ++ sent.map Sent.answer } : Table Dent),
        (none : Ret), false)) hput.symm

/-- **A section is that of the lock table.** -/
theorem fileLockSetOrAddRequest_forget {s s' : State Dent} {call : Nat} {dent : Dent} {fl : Lock}
    {wait added : Bool} {ret : Ret}
    (h : fileLockSetOrAddRequest alloc s call dent fl wait = .ok (s', ret, added)) :
    s.forget.fileLockSetOrAddRequest alloc dent fl wait = .ok (s'.forget, ret, added) := by
  unfold fileLockSetOrAddRequest findDentFileLocks at h
  unfold Table.fileLockSetOrAddRequest Table.findDentFileLocks
  have hset : ∀ {s1 : State Dent} {d : DentLocks},
      (setOrAdd alloc s1 call dent d fl wait >>= fun r =>
        pure (r.1.dentFileLocksGc dent, r.2.1, r.2.2)) = .ok (s', ret, added) →
      (s1.forget.setOrAdd alloc dent d.forget fl wait >>= fun r =>
        pure (r.1.dentFileLocksGc dent, r.2.1, r.2.2)) = .ok (s'.forget, ret, added) := by
    intro s1 d h
    obtain ⟨⟨s2, ret', added'⟩, hset, h⟩ := Fallible.bind_eq_ok.1 h
    cases h
    rw [setOrAdd_forget hset, forget_gc]
    rfl
  cases hd : s.fileLocks dent with
  | some d =>
    have hforget : s.forget.fileLocks dent = some d.forget := by simp [State.forget, hd]
    rw [hd] at h
    rw [hforget]
    exact hset h
  | none =>
    have hforget : s.forget.fileLocks dent = none := by simp [State.forget, hd]
    rw [hd] at h
    rw [hforget]
    have hmallocs : s.forget.mallocs = s.mallocs := rfl
    simp only [hmallocs]
    by_cases hcreate : decide (fl.type ≠ .unlck) = true
    · by_cases halloc : alloc s.mallocs = false
      · simp only [if_pos hcreate, if_pos halloc] at h ⊢
        cases h
        rfl
      · simp only [if_pos hcreate, if_neg halloc] at h ⊢
        rw [← forget_withObject]
        exact hset h
    · simp only [if_neg hcreate] at h ⊢
      cases h
      rfl

end Forget

/-! ## What a section does to the requests of a dentry -/

variable {alloc : Nat → Bool} {s s' : State Dent} {dent : Dent} {before rest : List Ticket}
  {sent : List Sent} {gone : List Nat}

namespace State

omit [DecidableEq Dent] in
theorem tickets_of_some {d : DentLocks} (h : s.fileLocks dent = some d) :
    s.tickets dent = d.requests := by
  rw [tickets, h]
  rfl

omit [DecidableEq Dent] in
theorem tickets_of_none (h : s.fileLocks dent = none) : s.tickets dent = [] := by
  rw [tickets, h]
  rfl

theorem tickets_put (s : State Dent) (dent : Dent) (d : DentLocks) :
    (s.put dent d).tickets = update s.tickets dent d.requests := by
  funext x
  simp only [tickets, put, update_apply]
  split <;> rfl

theorem tickets_gc (s : State Dent) (dent : Dent) :
    (s.dentFileLocksGc dent).tickets = s.tickets := by
  unfold dentFileLocksGc
  split
  · rename_i d hd
    split_ifs with hempty
    · funext x
      simp only [tickets, update_apply]
      split <;> simp [*]
    · rfl
  · rfl

end State

/-- What has become of the requests of a dentry: some wait on, some were granted, with a
notification each, and some were removed. -/
structure Settles (before rest : List Ticket) (sent : List Sent) (gone : List Nat) : Prop where
  perm : (before.map Ticket.call).Perm
    (rest.map Ticket.call ++ (sent.map Sent.call ++ gone))
  sub : ∀ t ∈ rest, t ∈ before
  told : ∀ a ∈ sent, ∃ t ∈ before, t.call = a.call ∧ t.notify = some a.answer.notify

theorem Settles.refl (before : List Ticket) : Settles before before [] [] :=
  ⟨by simp, fun _ ht => ht, nofun⟩

theorem Settles.remove (remove : Ticket → Bool)
    (h : Settles (before.filter fun t => !remove t) rest sent []) :
    Settles before rest sent ((before.filter remove).map Ticket.call) := by
  refine ⟨?_, fun t ht => (mem_filter.1 (h.sub t ht)).1, fun a ha => ?_⟩
  · have hperm := (filter_append_perm remove before).symm.map Ticket.call
    rw [map_append] at hperm
    have hkept := h.perm
    rw [append_nil] at hkept
    refine hperm.trans (perm_append_comm.trans ((hkept.append_right _).trans ?_))
    rw [append_assoc]
  · obtain ⟨t, ht, hta⟩ := h.told a ha
    exact ⟨t, (mem_filter.1 ht).1, hta⟩

/-- The request can be answered: it is filled in, and its call has not returned. -/
def Ticket.Ready (returned : List (Nat × Ret)) (t : Ticket) : Prop :=
  t.notify ≠ none ∧ t.call ∉ returned.map Prod.fst

theorem mapM_notifyOf {returned : List (Nat × Ret)} (granted : List (Ticket × Ret))
    (h : ∀ g ∈ granted, g.1.Ready returned) :
    ∃ sent, granted.mapM (notifyOf returned) = .ok sent ∧
      sent.map Sent.call = (granted.map Prod.fst).map Ticket.call ∧
      ∀ a ∈ sent, ∃ g ∈ granted, g.1.call = a.call ∧ g.1.notify = some a.answer.notify := by
  induction granted with
  | nil => exact ⟨[], rfl, rfl, nofun⟩
  | cons g granted ih =>
    obtain ⟨sent, hrun, hcalls, htold⟩ := ih fun x hx => h x (mem_cons_of_mem _ hx)
    obtain ⟨hfilled, hreturned⟩ := h g mem_cons_self
    obtain ⟨notify, hn⟩ := Option.ne_none_iff_exists'.1 hfilled
    refine ⟨⟨g.1.call, ⟨notify, g.2⟩⟩ :: sent, ?_, ?_, fun a ha => ?_⟩
    · have hg : notifyOf returned g = .ok ⟨g.1.call, ⟨notify, g.2⟩⟩ := by
        rw [notifyOf, hn]
        exact if_neg fun hevent => hreturned hevent.2
      rw [mapM_cons, hg, hrun]
      rfl
    · rw [map_cons, map_cons, map_cons, hcalls]
    rcases mem_cons.1 ha with rfl | ha
    · exact ⟨g, mem_cons_self, rfl, hn⟩
    · obtain ⟨x, hx, hcall⟩ := htold a ha
      exact ⟨x, mem_cons_of_mem _ hx, hcall⟩

/-- **`file_lock_process_requests`** answers the requests it grants, if all can be answered. -/
theorem fileLockProcessRequests_spec (alloc : Nat → Bool) {returned : List (Nat × Ret)} (n : Nat)
    (d : DentLocks) (h : ∀ t ∈ d.requests, t.Ready returned) :
    ∃ n' locks rest sent, fileLockProcessRequests alloc returned n d =
        .ok (n', { d with fileLocks := locks, requests := rest }, sent) ∧
      Settles d.requests rest sent [] := by
  have hperm := GrantLoop.loop_perm blocked (grant alloc) d.requests.length (n, d.fileLocks)
    d.requests
  generalize hp : GrantLoop.loop blocked (grant alloc) d.requests.length (n, d.fileLocks)
    d.requests = p at hperm
  have hmem : ∀ g ∈ p.granted, g.1 ∈ d.requests := fun g hg =>
    hperm.mem_iff.1 (mem_append_left _ (mem_map_of_mem hg))
  obtain ⟨sent, hsent, hcalls, htold⟩ := mapM_notifyOf p.granted fun g hg => h _ (hmem g hg)
  refine ⟨p.state.1, p.state.2, p.waiting, sent, ?_, ?_, fun t ht => ?_, fun a ha => ?_⟩
  · simp only [fileLockProcessRequests, hp, hsent]
    rfl
  · rw [hcalls, append_nil]
    refine (hperm.map Ticket.call).symm.trans ?_
    rw [map_append]
    exact perm_append_comm
  · exact hperm.mem_iff.1 (mem_append_right _ ht)
  · obtain ⟨g, hg, hga⟩ := htold a ha
    exact ⟨g.1, hmem g hg, hga⟩

/-- The requests and the records are the same. -/
structure Same (s s' : State Dent) : Prop where
  tickets : s'.tickets = s.tickets
  calls : s'.calls = s.calls
  caller : s'.caller = s.caller
  queued : s'.queued = s.queued
  sent : s'.sent = s.sent
  cleared : s'.cleared = s.cleared
  returned : s'.returned = s.returned
  worker : s'.worker = s.worker

/-! ## Sections -/

/-- What a section changes: the requests of one dentry, and the records of what has become of
them. -/
structure Moves (s s' : State Dent) (dent : Dent) (rest : List Ticket) (sent : List Sent)
    (gone : List Nat) : Prop where
  tickets : s'.tickets = update s.tickets dent rest
  settles : Settles (s.tickets dent) rest sent gone
  calls : s'.calls = s.calls
  caller : s'.caller = s.caller
  queued : s'.queued = s.queued
  sent : s'.sent = s.sent ++ sent
  cleared : s'.cleared = s.cleared ++ gone
  returned : s'.returned = s.returned
  worker : s'.worker = s.worker

/-- A request is queued. -/
structure Adds (s s' : State Dent) (dent : Dent) (call : Nat) (fl : Lock) : Prop where
  tickets : s'.tickets = update s.tickets dent (⟨call, fl, none⟩ :: s.tickets dent)
  queued : s'.queued = call :: s.queued
  calls : s'.calls = s.calls
  caller : s'.caller = s.caller
  sent : s'.sent = s.sent
  cleared : s'.cleared = s.cleared
  returned : s'.returned = s.returned
  worker : s'.worker = s.worker

omit [DecidableEq Dent] in
theorem Same.refl (s : State Dent) : Same s s := ⟨rfl, rfl, rfl, rfl, rfl, rfl, rfl, rfl⟩

omit [DecidableEq Dent] in
theorem Same.setMallocs (s : State Dent) (n : Nat) : Same s { s with mallocs := n } :=
  ⟨rfl, rfl, rfl, rfl, rfl, rfl, rfl, rfl⟩

theorem Same.moves (h : Same s s') (dent : Dent) : Moves s s' dent (s.tickets dent) [] [] :=
  ⟨by rw [h.tickets, update_eq_self], .refl _, h.calls, h.caller, h.queued,
    by rw [h.sent, append_nil], by rw [h.cleared, append_nil], h.returned, h.worker⟩

theorem Same.gc (s : State Dent) (dent : Dent) : Same s (s.dentFileLocksGc dent) := by
  refine ⟨s.tickets_gc dent, ?_, ?_, ?_, ?_, ?_, ?_, ?_⟩ <;>
  · unfold State.dentFileLocksGc
    split
    · split_ifs <;> rfl
    · rfl

theorem Moves.gc {rest : List Ticket} (h : Moves s s' dent rest sent gone) :
    Moves s (s'.dentFileLocksGc dent) dent rest sent gone := by
  have hgc := Same.gc s' dent
  exact ⟨hgc.tickets.trans h.tickets, h.settles, hgc.calls.trans h.calls,
    hgc.caller.trans h.caller, hgc.queued.trans h.queued, hgc.sent.trans h.sent,
    hgc.cleared.trans h.cleared, hgc.returned.trans h.returned, hgc.worker.trans h.worker⟩

variable {call : Nat} {fl : Lock}

theorem Adds.gc (h : Adds s s' dent call fl) : Adds s (s'.dentFileLocksGc dent) dent call fl := by
  have hgc := Same.gc s' dent
  exact ⟨hgc.tickets.trans h.tickets, hgc.queued.trans h.queued, hgc.calls.trans h.calls,
    hgc.caller.trans h.caller, hgc.sent.trans h.sent, hgc.cleared.trans h.cleared,
    hgc.returned.trans h.returned, hgc.worker.trans h.worker⟩

theorem Moves.of_same {s1 : State Dent} {rest : List Ticket}
    (h : Moves s1 s' dent rest sent gone) (hs : Same s s1) : Moves s s' dent rest sent gone :=
  ⟨by rw [h.tickets, hs.tickets], by rw [← hs.tickets]; exact h.settles, h.calls.trans hs.calls,
    h.caller.trans hs.caller, h.queued.trans hs.queued, by rw [h.sent, hs.sent],
    by rw [h.cleared, hs.cleared], h.returned.trans hs.returned, h.worker.trans hs.worker⟩

theorem Adds.of_same {s1 : State Dent} (h : Adds s1 s' dent call fl) (hs : Same s s1) :
    Adds s s' dent call fl :=
  ⟨by rw [h.tickets, hs.tickets], by rw [h.queued, hs.queued], h.calls.trans hs.calls,
    h.caller.trans hs.caller, h.sent.trans hs.sent, h.cleared.trans hs.cleared,
    h.returned.trans hs.returned, h.worker.trans hs.worker⟩

/-- What `file_lock_set_or_add_request` does: it queues a request, or settles others. -/
inductive SetResult (s : State Dent) (call : Nat) (dent : Dent) (fl : Lock) :
    State Dent × Ret × Bool → Prop
  | added {s' : State Dent} (adds : Adds s s' dent call fl) :
    SetResult s call dent fl (s', none, true)
  | settled {s' : State Dent} {ret : Ret} {rest : List Ticket} {sent : List Sent}
      (moves : Moves s s' dent rest sent []) : SetResult s call dent fl (s', ret, false)

theorem requests_use (d : DentLocks) (fl : Lock) : (d.use fl).requests = d.requests := by
  unfold DentLocks.use
  split_ifs
  · split <;> rfl
  · rfl

theorem setOrAdd_spec (alloc : Nat → Bool) (s : State Dent) (call : Nat) (dent : Dent)
    (d : DentLocks) (fl : Lock) (wait : Bool) (htickets : s.tickets dent = d.requests)
    (h : ∀ t ∈ d.requests, t.Ready s.returned) :
    ∃ r, setOrAdd alloc s call dent d fl wait = .ok r ∧ SetResult s call dent fl r := by
  unfold setOrAdd
  split_ifs with hfamily hconflict hwait halloc
  · exact ⟨_, rfl, .settled ((Same.refl s).moves dent)⟩
  · exact ⟨_, rfl, .settled ((Same.refl s).moves dent)⟩
  · exact ⟨_, rfl, .settled ((Same.setMallocs s _).moves dent)⟩
  · refine ⟨_, rfl, .added ⟨?_, rfl, rfl, rfl, rfl, rfl, rfl, rfl⟩⟩
    rw [htickets]
    exact (State.tickets_put s dent _).trans (by rw [requests_use])
  obtain ⟨n, ret, locks⟩ := lockSet alloc s.mallocs d.fileLocks fl
  cases ret with
  | some e => exact ⟨_, rfl, .settled ((Same.setMallocs s _).moves dent)⟩
  | none =>
    obtain ⟨n', locks', rest, sent, hrun, hsettles⟩ :=
      fileLockProcessRequests_spec alloc n { d with fileLocks := locks } h
    simp only [hrun]
    rw [← htickets] at hsettles
    refine ⟨_, rfl, .settled ⟨?_, hsettles, rfl, rfl, rfl, rfl, (append_nil _).symm, rfl, rfl⟩⟩
    exact (State.tickets_put s dent _).trans (by rw [requests_use])

theorem Same.withObject (h : s.fileLocks dent = none) : Same s (s.withObject dent) := by
  refine ⟨?_, rfl, rfl, rfl, rfl, rfl, rfl, rfl⟩
  refine (State.tickets_put s dent _).trans ?_
  rw [← State.tickets_of_none h, update_eq_self]

/-- **`file_lock_set_or_add_request`**, when the requests of the dentry can be answered. -/
theorem fileLockSetOrAddRequest_spec (alloc : Nat → Bool) (call : Nat) (fl : Lock) (wait : Bool)
    (h : ∀ t ∈ s.tickets dent, t.Ready s.returned) :
    ∃ r, fileLockSetOrAddRequest alloc s call dent fl wait = .ok r ∧
      SetResult s call dent fl r := by
  unfold fileLockSetOrAddRequest findDentFileLocks
  cases hd : s.fileLocks dent with
  | some d =>
    have htickets := State.tickets_of_some hd
    obtain ⟨r, hrun, hres⟩ := setOrAdd_spec alloc s call dent d fl wait htickets (htickets ▸ h)
    simp only [hrun]
    cases hres with
    | added adds => exact ⟨_, rfl, .added adds.gc⟩
    | settled moves => exact ⟨_, rfl, .settled moves.gc⟩
  | none =>
    split_ifs with hcreate halloc
    · exact ⟨_, rfl, .settled ((Same.setMallocs s _).moves dent)⟩
    · have hsame := Same.withObject hd
      obtain ⟨r, hrun, hres⟩ := setOrAdd_spec alloc (s.withObject dent) call dent
        ⟨false, false, [], []⟩ fl wait
        (by rw [hsame.tickets, State.tickets_of_none hd]) (by simp)
      simp only [hrun]
      cases hres with
      | added adds => exact ⟨_, rfl, .added (adds.of_same hsame).gc⟩
      | settled moves => exact ⟨_, rfl, .settled (moves.of_same hsame).gc⟩
    · exact ⟨_, rfl, .settled ((Same.refl s).moves dent)⟩

/-- What `file_lock_clear_pid_from_dentry` does to a dentry, if the requests there can be answered
or the process has no locks there. -/
theorem fileLockClearPidFromDentry_spec (alloc : Nat → Bool) (s : State Dent) (dent : Dent)
    (pid : Nat) (h : (∀ t ∈ s.tickets dent, t.Ready s.returned) ∨
      ∀ d, s.fileLocks dent = some d → d.fileLocks.any (ofPid pid) = false) :
    fileLockClearPidFromDentry alloc s dent pid = .error .clearPid ∨
    ∃ s' rest sent gone, fileLockClearPidFromDentry alloc s dent pid = .ok s' ∧
      Moves s s' dent rest sent gone ∧
      ((∀ t ∈ s.tickets dent, ofPid pid t.fileLock = false) →
        (∀ d, s.fileLocks dent = some d → d.fileLocks.any (ofPid pid) = false) →
        rest = s.tickets dent ∧ sent = [] ∧ gone = []) := by
  unfold fileLockClearPidFromDentry
  cases hd : s.fileLocks dent with
  | none => exact .inr ⟨s, _, [], [], rfl, (Same.refl s).moves dent, fun _ _ => ⟨rfl, rfl, rfl⟩⟩
  | some d =>
    simp only
    split_ifs with hassert hlocks
    · exact .inl rfl
    · have hfilled : ∀ t ∈ s.tickets dent, t.Ready s.returned := by
        refine h.resolve_right fun hno => ?_
        rw [hno d hd] at hlocks
        cases hlocks
      rw [State.tickets_of_some hd] at hfilled
      obtain ⟨n', locks, rest, sent, hrun, hsettles⟩ := fileLockProcessRequests_spec alloc s.mallocs
        { d with
          fileLocks := d.fileLocks.filter fun l => !ofPid pid l
          requests := d.requests.filter fun r => !ofPid pid r.fileLock }
        fun t ht => hfilled t (mem_filter.1 ht).1
      simp only [hrun]
      have hmoves := hsettles.remove
      refine .inr ⟨_, rest, sent,
        (d.requests.filter fun r => ofPid pid r.fileLock).map Ticket.call, rfl,
        Moves.gc ⟨State.tickets_put s dent _, by rw [State.tickets_of_some hd]; exact hmoves,
        rfl, rfl, rfl, rfl, rfl, rfl, rfl⟩, fun _ hno => ?_⟩
      rw [hno d rfl] at hlocks
      cases hlocks
    · have hmoves := (Settles.refl (d.requests.filter fun r => !ofPid pid r.fileLock)).remove
      refine .inr ⟨_, d.requests.filter fun r => !ofPid pid r.fileLock, [],
        (d.requests.filter fun r => ofPid pid r.fileLock).map Ticket.call, rfl,
        ⟨State.tickets_put s dent _, by rw [State.tickets_of_some hd]; exact hmoves, rfl, rfl, rfl,
        (append_nil _).symm, rfl, rfl, rfl⟩, fun hno _ => ?_⟩
      rw [State.tickets_of_some hd] at hno ⊢
      refine ⟨filter_eq_self.2 fun t ht => ?_, rfl, ?_⟩
      · rw [hno t ht]
        rfl
      · rw [map_eq_nil_iff, filter_eq_nil_iff]
        exact fun t ht => by rw [hno t ht]; exact Bool.false_ne_true

/-! ## The invariant -/

/-- The calls whose requests wait at a dentry. -/
def State.waiting (s : State Dent) (dent : Dent) : List Nat := (s.tickets dent).map Ticket.call

theorem State.waiting_eq (h : s'.tickets = update s.tickets dent rest) :
    s'.waiting = update s.waiting dent (rest.map Ticket.call) := by
  change map Ticket.call ∘ s'.tickets = _
  rw [h, comp_update]
  rfl

/-- Each request is in one place: it waits at a dentry, or was answered once, or removed. All but
the one that the IPC worker has just queued are filled in. -/
structure Inv (s : State Dent) : Prop where
  ledger : Ledger.Valid s.queued s.waiting (s.sent.map Sent.call) s.cleared
  nodup : ∀ dent, (s.waiting dent).Nodup
  bound : ∀ c ∈ s.queued, c < s.calls
  returned : ∀ r ∈ s.returned, r.1 < s.calls ∧ ∀ dent, r.1 ∉ s.waiting dent
  filled : ∀ dent, ∀ t ∈ s.tickets dent, t.notify = some (s.caller t.call) ∨
    ∃ w, s.worker = some w ∧ w.dent = dent ∧ w.call = t.call
  worker : ∀ w, s.worker = some w → w.notify = s.caller w.call ∧ w.call ∈ s.waiting w.dent
  sent : ∀ a ∈ s.sent, a.answer.notify = s.caller a.call

omit [DecidableEq Dent] in
theorem Inv.initial : Inv (State.initial : State Dent) := by
  refine ⟨?_, fun _ => nodup_nil, nofun, nofun, nofun, nofun, nofun⟩
  exact Ledger.Valid.nothing

omit [DecidableEq Dent] in
/-- Where the IPC worker is not at work, all requests can be answered. -/
theorem Inv.ready (h : Inv s) (hworker : ∀ w, s.worker = some w → w.dent ≠ dent) :
    ∀ t ∈ s.tickets dent, t.Ready s.returned := by
  intro t ht
  constructor
  · rcases h.filled dent t ht with hn | ⟨w, hw, hdent, -⟩
    · rw [hn]
      exact Option.some_ne_none _
    · exact absurd hdent (hworker w hw)
  · intro hmem
    obtain ⟨r, hr, hcall⟩ := mem_map.1 hmem
    exact (h.returned r hr).2 dent (hcall ▸ mem_map_of_mem ht)

omit [DecidableEq Dent] in
theorem Inv.not_waiting (h : Inv s) {call : Nat} (hnew : call ∉ s.queued) (dent : Dent) :
    call ∉ s.waiting dent := (h.ledger.not_mem hnew).2.2 dent

/-- **A section settles requests** of a dentry where the IPC worker is not at work, or leaves them
alone. -/
theorem Inv.moves (h : Inv s) (hm : Moves s s' dent rest sent gone)
    (hworker : ∀ w, s.worker = some w → w.dent = dent →
      rest = s.tickets dent ∧ sent = []) : Inv s' := by
  have hwaiting := State.waiting_eq hm.tickets
  have hsub : ∀ x, ∀ t ∈ s'.tickets x, t ∈ s.tickets x := by
    rw [hm.tickets, forall_update_iff s.tickets fun x l => ∀ t ∈ l, t ∈ s.tickets x]
    exact ⟨hm.settles.sub, fun _ _ _ => id⟩
  refine ⟨?_, ?_, ?_, ?_, fun x t ht => ?_, fun w hw => ?_, fun a ha => ?_⟩
  · rw [hm.queued, hwaiting, hm.sent, hm.cleared, map_append]
    exact h.ledger.settle (h.nodup dent) hm.settles.perm
  · rw [hwaiting, forall_update_iff s.waiting fun _ l => l.Nodup]
    have hnodup := hm.settles.perm.nodup_iff.1 (h.nodup dent)
    exact ⟨(nodup_append'.1 hnodup).1, fun x _ => h.nodup x⟩
  · rw [hm.queued, hm.calls]
    exact h.bound
  · intro r hr
    rw [hm.returned] at hr
    refine ⟨hm.calls ▸ (h.returned r hr).1, fun x hmem => (h.returned r hr).2 x ?_⟩
    obtain ⟨t, ht, hcall⟩ := mem_map.1 hmem
    exact hcall ▸ mem_map_of_mem (hsub x t ht)
  · rw [hm.caller, hm.worker]
    exact h.filled x t (hsub x t ht)
  · rw [hm.worker] at hw
    obtain ⟨hnotify, hmem⟩ := h.worker w hw
    refine ⟨by rw [hm.caller]; exact hnotify, ?_⟩
    rw [hwaiting]
    by_cases hx : w.dent = dent
    · rw [hx, update_self, (hworker w hw hx).1]
      rwa [hx] at hmem
    · rwa [update_of_ne hx]
  · rw [hm.caller]
    rw [hm.sent] at ha
    rcases mem_append.1 ha with ha | ha
    · exact h.sent a ha
    obtain ⟨t, ht, hcall, hnotify⟩ := hm.settles.told a ha
    rcases h.filled dent t ht with hn | ⟨w, hw, hdent, -⟩
    · rw [hn] at hnotify
      rw [← hcall]
      exact (Option.some.inj hnotify).symm
    · rw [(hworker w hw hdent).2] at ha
      cases ha

omit [DecidableEq Dent] in
theorem Inv.begins (h : Inv s) (caller : Notify) : Inv (s.begins caller) := by
  have hold : ∀ c ∈ s.queued, (s.begins caller).caller c = s.caller c := by
    intro c hc
    exact update_of_ne (Nat.ne_of_lt (h.bound c hc)) _ _
  have hwaiting : ∀ x, ∀ c ∈ s.waiting x, c ∈ s.queued := fun x c hc =>
    (h.ledger.mem_issued c).2 (.inr (.inr ⟨x, hc⟩))
  refine ⟨h.ledger, h.nodup, fun c hc => Nat.lt_succ_of_lt (h.bound c hc), fun r hr => ?_,
    fun x t ht => ?_, fun w hw => ?_, fun a ha => ?_⟩
  · exact ⟨Nat.lt_succ_of_lt (h.returned r hr).1, (h.returned r hr).2⟩
  · rw [hold t.call (hwaiting x _ (mem_map_of_mem ht))]
    exact h.filled x t ht
  · obtain ⟨hnotify, hmem⟩ := h.worker w hw
    exact ⟨by rw [hold w.call (hwaiting _ _ hmem)]; exact hnotify, hmem⟩
  have hc : a.call ∈ s.queued :=
    (h.ledger.mem_issued _).2 (.inl (mem_map_of_mem ha))
  rw [hold a.call hc]
  exact h.sent a ha

omit [DecidableEq Dent] in
theorem Inv.returns (h : Inv s) (hcall : call < s.calls) (hnot : ∀ dent, call ∉ s.waiting dent)
    (ret : Ret) : Inv (s.returns call ret) := by
  refine ⟨h.ledger, h.nodup, h.bound, fun r hr => ?_, h.filled, h.worker, h.sent⟩
  rcases mem_cons.1 hr with rfl | hr
  · exact ⟨hcall, hnot⟩
  · exact h.returned r hr

/-- A call queues a request, whose `notify` part is as given. -/
structure Queues (s s' : State Dent) (dent : Dent) (call : Nat) (fl : Lock)
    (notify : Option Notify) : Prop where
  tickets : s'.tickets = update s.tickets dent (⟨call, fl, notify⟩ :: s.tickets dent)
  queued : s'.queued = call :: s.queued
  calls : s'.calls = s.calls
  caller : s'.caller = s.caller
  sent : s'.sent = s.sent
  cleared : s'.cleared = s.cleared
  returned : s'.returned = s.returned

/-- **A request is queued**, filled in or with the IPC worker at it. -/
theorem Inv.queues {notify : Option Notify} (h : Inv s) (hq : Queues s s' dent call fl notify)
    (hcall : call < s.calls) (hnew : call ∉ s.queued) (hreturned : ∀ r ∈ s.returned, r.1 ≠ call)
    (hworker : notify = some (s.caller call) ∧ s'.worker = s.worker ∨ s.worker = none ∧ s'.worker =
      some ⟨dent, call, s.caller call⟩) : Inv s' := by
  have hwaiting : s'.waiting = update s.waiting dent (call :: s.waiting dent) :=
    State.waiting_eq hq.tickets
  have hmem : ∀ x, ∀ c ∈ s.waiting x, c ∈ s'.waiting x := by
    rw [hwaiting, forall_update_iff s.waiting fun x l => ∀ c ∈ s.waiting x, c ∈ l]
    exact ⟨fun _ => mem_cons_of_mem _, fun _ _ _ => id⟩
  have hfilled : ∀ x, ∀ t ∈ s.tickets x, t.notify = some (s.caller t.call) ∨
      ∃ w, s'.worker = some w ∧ w.dent = x ∧ w.call = t.call := by
    intro x t ht
    refine (h.filled x t ht).imp id fun hw => ?_
    obtain ⟨w, hw, hwt⟩ := hw
    rcases hworker with ⟨-, hsame⟩ | ⟨hnone, -⟩
    · exact ⟨w, hsame.trans hw, hwt⟩
    · cases hnone.symm.trans hw
  refine ⟨?_, ?_, fun c hc => ?_, fun r hr => ?_, ?_, fun w hw => ?_, ?_⟩
  · rw [hq.queued, hwaiting, hq.sent, hq.cleared]
    exact h.ledger.add hnew
  · rw [hwaiting, forall_update_iff s.waiting fun _ l => l.Nodup]
    exact ⟨nodup_cons.2 ⟨(h.ledger.not_mem hnew).2.2 dent, h.nodup dent⟩, fun x _ => h.nodup x⟩
  · rw [hq.calls]
    rw [hq.queued] at hc
    rcases mem_cons.1 hc with rfl | hc
    · exact hcall
    · exact h.bound c hc
  · rw [hq.returned] at hr
    obtain ⟨hlt, hnot⟩ := h.returned r hr
    rw [hq.calls, hwaiting, forall_update_iff s.waiting fun _ l => r.1 ∉ l]
    refine ⟨hlt, fun hmem => ?_, fun x _ => hnot x⟩
    rcases mem_cons.1 hmem with heq | hmem
    · exact hreturned r hr heq
    · exact hnot dent hmem
  · rw [hq.caller, hq.tickets, forall_update_iff s.tickets fun x l => ∀ t ∈ l,
      t.notify = some (s.caller t.call) ∨ ∃ w, s'.worker = some w ∧ w.dent = x ∧ w.call = t.call]
    refine ⟨forall_mem_cons.2 ⟨?_, hfilled dent⟩, fun x _ => hfilled x⟩
    rcases hworker with ⟨hn, -⟩ | ⟨-, hw⟩
    · exact .inl hn
    · exact .inr ⟨_, hw, rfl, rfl⟩
  · rw [hq.caller]
    rcases hworker with ⟨-, hsame⟩ | ⟨-, hsome⟩
    · obtain ⟨hn, hc⟩ := h.worker w (hsame.symm.trans hw)
      exact ⟨hn, hmem _ _ hc⟩
    obtain rfl := Option.some.inj (hsome.symm.trans hw)
    refine ⟨rfl, ?_⟩
    rw [hwaiting, update_self]
    exact mem_cons_self
  · rw [hq.sent, hq.caller]
    exact h.sent

/-! ## Filling in -/

/-- The `notify` part of one request is written. -/
def Ticket.fill (call : Nat) (notify : Notify) (t : Ticket) : Ticket :=
  if t.call = call then { t with notify := some notify } else t

theorem Ticket.fill_call (call : Nat) (notify : Notify) (t : Ticket) :
    (t.fill call notify).call = t.call := by
  unfold Ticket.fill
  split_ifs <;> rfl

/-- **The request is still there**, and is filled in. -/
theorem fillNotify_spec (notify : Notify) (h : call ∈ s.waiting dent) :
    ∃ d, fillNotify s dent call notify = .ok (s.put dent d) ∧
      d.requests = (s.tickets dent).map (Ticket.fill call notify) := by
  unfold fillNotify
  cases hd : s.fileLocks dent with
  | none =>
    rw [State.waiting, State.tickets_of_none hd] at h
    cases h
  | some d =>
    rw [State.waiting, State.tickets_of_some hd] at h
    simp only [if_pos h]
    refine ⟨_, rfl, ?_⟩
    rw [State.tickets_of_some hd]
    rfl

theorem Adds.fill (h : Adds s s' dent call fl) (hnew : call ∉ s.waiting dent) (notify : Notify) :
    ∃ s'', fillNotify s' dent call notify = .ok s'' ∧
      Queues s s'' dent call fl (some notify) ∧ s''.worker = s.worker := by
  have htickets : s'.tickets dent = ⟨call, fl, none⟩ :: s.tickets dent := by
    rw [h.tickets, update_self]
  have hmem : call ∈ s'.waiting dent := by
    rw [State.waiting, htickets]
    exact mem_cons_self
  obtain ⟨d, hrun, hd⟩ := fillNotify_spec notify hmem
  refine ⟨_, hrun, ⟨?_, h.queued, h.calls, h.caller, h.sent, h.cleared, h.returned⟩, h.worker⟩
  have hfill : (s.tickets dent).map (Ticket.fill call notify) = s.tickets dent := by
    refine (map_congr_left fun t ht => ?_).trans (map_id _)
    refine if_neg fun heq => hnew ?_
    exact heq ▸ mem_map_of_mem ht
  rw [State.tickets_put, hd, htickets, h.tickets, update_idem, map_cons, hfill]
  have hhead : Ticket.fill call notify ⟨call, fl, none⟩ = ⟨call, fl, some notify⟩ := if_pos rfl
  rw [hhead]

/-- **The IPC worker fills in its request.** -/
theorem Inv.fillFromIpc {w : Filling Dent} (h : Inv s) (hw : s.worker = some w) :
    ∃ s', Leader.fillFromIpc s = .ok s' ∧ Inv s' := by
  obtain ⟨hnotify, hmem⟩ := h.worker w hw
  obtain ⟨d, hrun, hd⟩ := fillNotify_spec w.notify hmem
  refine ⟨{ s.put w.dent d with worker := none }, ?_, ?_⟩
  · simp only [Leader.fillFromIpc, hw, hrun]
    rfl
  have htickets : ({ s.put w.dent d with worker := none } : State Dent).tickets =
      update s.tickets w.dent ((s.tickets w.dent).map (Ticket.fill w.call w.notify)) := by
    rw [← hd]
    exact State.tickets_put s w.dent d
  have hwaiting : ({ s.put w.dent d with worker := none } : State Dent).waiting = s.waiting := by
    rw [State.waiting_eq htickets, map_map, update_eq_self_iff]
    exact map_congr_left fun t _ => t.fill_call w.call w.notify
  refine ⟨by rw [hwaiting]; exact h.ledger, by rw [hwaiting]; exact h.nodup, h.bound,
    by rw [hwaiting]; exact h.returned, fun x t ht => .inl ?_, nofun, h.sent⟩
  show t.notify = some (s.caller t.call)
  rw [htickets] at ht
  -- the only request that was not filled in is the one of the worker
  have hother : ∀ t ∈ s.tickets x, (x ≠ w.dent ∨ t.call ≠ w.call) →
      t.notify = some (s.caller t.call) := by
    intro t ht hne
    refine (h.filled x t ht).resolve_right ?_
    rintro ⟨w', hw', rfl, hcall⟩
    obtain rfl := Option.some.inj (hw.symm.trans hw')
    rcases hne with hne | hne
    · exact hne rfl
    · exact hne hcall.symm
  by_cases hx : x = w.dent
  · subst hx
    rw [update_self] at ht
    obtain ⟨t', ht', rfl⟩ := mem_map.1 ht
    by_cases hcall : t'.call = w.call
    · rw [Ticket.fill, if_pos hcall]
      simp [hnotify, hcall]
    · rw [Ticket.fill, if_neg hcall]
      exact hother t' ht' (.inr hcall)
  · rw [update_of_ne hx] at ht
    exact hother t ht (.inl hx)

/-! ## One step -/

/-- The process has no lock and no request on the dentry. -/
def State.Untouched (s : State Dent) (dent : Dent) (pid : Nat) : Prop :=
  (∀ t ∈ s.tickets dent, ofPid pid t.fileLock = false) ∧
    ∀ d, s.fileLocks dent = some d → d.fileLocks.any (ofPid pid) = false

/-- The condition on a step: `PalEventCreate` and the wait for the event succeed, sequence numbers
fit an `unsigned int`, and no other section uses a dentry between the section of the IPC worker and
the end of `file_lock_set_from_ipc`. -/
def Guard (s : State Dent) : Label Dent → Prop
  | .set dent _ _ event => event = true ∧ ∀ w, s.worker = some w → w.dent ≠ dent
  | .setFromIpc _ _ _ _ seq => seq < 2 ^ 32
  | .fillFromIpc => True
  | .clearPid pid => ∀ w, s.worker = some w → s.Untouched w.dent pid
  | .wake _ ok => ok = true

/-- **A thread of the leader** locks or unlocks a file. -/
theorem Inv.set (h : Inv s) (alloc : Nat → Bool) (fl : Lock) (wait : Bool)
    (hworker : ∀ w, s.worker = some w → w.dent ≠ dent) :
    ∃ s', fileLockSet alloc s dent fl wait true = .ok s' ∧ Inv s' := by
  have hb := h.begins (.event s.calls)
  have hnew : s.calls ∉ s.queued := fun hmem => Nat.lt_irrefl _ (h.bound _ hmem)
  have hcaller : (s.begins (.event s.calls)).caller s.calls = .event s.calls :=
    update_self ..
  obtain ⟨r, hrun, hres⟩ := fileLockSetOrAddRequest_spec alloc s.calls fl wait
    (hb.ready hworker)
  unfold fileLockSet
  simp only [hrun]
  cases hres with
  | added adds =>
    obtain ⟨s'', hfill, hq, hsame⟩ := adds.fill ((hb.ledger.not_mem hnew).2.2 dent) (.event s.calls)
    refine ⟨s'', hfill, hb.queues hq (Nat.lt_succ_self _) hnew (fun r hr => ?_) (.inl ?_)⟩
    · exact Nat.ne_of_lt (h.returned r hr).1
    · exact ⟨congrArg some hcaller.symm, hsame⟩
  | @settled s' ret rest sent moves =>
    have hinv : Inv s' := hb.moves moves fun w hw hdent => absurd hdent (hworker w hw)
    have hreturns : ∀ ret, Inv (s'.returns s.calls ret) := by
      refine hinv.returns ?_ ?_
      · rw [moves.calls]
        exact Nat.lt_succ_self _
      · exact hinv.not_waiting (by rwa [moves.queued])
    by_cases hret : ret ≠ none
    · exact ⟨_, if_pos hret, hreturns _⟩
    · exact ⟨_, if_neg hret, hreturns _⟩

/-- **The IPC worker** handles a request to lock or unlock a file. -/
theorem Inv.setFromIpc (h : Inv s) (alloc : Nat → Bool) (dent : Option Dent) (fl : Lock)
    (wait : Bool) (vmid : Nat) {seq : Nat} (hseq : seq < 2 ^ 32) (hworker : s.worker = none) :
    ∃ s', fileLockSetFromIpc alloc s dent fl wait vmid seq = .ok s' ∧ Inv s' := by
  have hb := h.begins (.ipc vmid seq)
  have hnew : s.calls ∉ s.queued := fun hmem => Nat.lt_irrefl _ (h.bound _ hmem)
  have hcaller : (s.begins (.ipc vmid seq)).caller s.calls = .ipc vmid seq :=
    update_self ..
  have hnone : ∀ w, (s.begins (.ipc vmid seq)).worker ≠ some w := by
    intro w hw
    exact Option.some_ne_none w (hw.symm.trans hworker)
  unfold fileLockSetFromIpc
  cases dent with
  | none => exact ⟨_, rfl, hb.returns (Nat.lt_succ_self _) (hb.not_waiting hnew) _⟩
  | some dent =>
    have hfilled : ∀ t ∈ (s.begins (.ipc vmid seq)).tickets dent,
        t.Ready (s.begins (.ipc vmid seq)).returned :=
      hb.ready fun w hw => absurd hw (hnone w)
    obtain ⟨r, hrun, hres⟩ := fileLockSetOrAddRequest_spec alloc s.calls fl wait hfilled
    simp only [hrun]
    cases hres with
    | @added s' adds =>
      refine ⟨{ s' with worker := some ⟨dent, s.calls, .ipc vmid (seq % 2 ^ 32)⟩ }, rfl, ?_⟩
      have hq : Queues (s.begins (.ipc vmid seq))
          { s' with worker := some ⟨dent, s.calls, .ipc vmid (seq % 2 ^ 32)⟩ }
          dent s.calls fl none :=
        ⟨adds.tickets, adds.queued, adds.calls, adds.caller, adds.sent, adds.cleared, adds.returned⟩
      refine hb.queues hq (Nat.lt_succ_self _) hnew (fun r hr => ?_) (.inr ⟨hworker, ?_⟩)
      · exact Nat.ne_of_lt (h.returned r hr).1
      · rw [hcaller, Nat.mod_eq_of_lt hseq]
    | @settled s' ret rest sent moves =>
      have hinv : Inv s' := hb.moves moves fun w hw => absurd hw (hnone w)
      refine ⟨_, rfl, hinv.returns ?_ ?_ _⟩
      · rw [moves.calls]
        exact Nat.lt_succ_self _
      · exact hinv.not_waiting (by rwa [moves.queued])

theorem fileLocks_gc_of_ne (s : State Dent) {x : Dent} (hx : x ≠ dent) :
    (s.dentFileLocksGc dent).fileLocks x = s.fileLocks x := by
  unfold State.dentFileLocksGc
  split
  · split_ifs
    · exact update_of_ne hx _ _
    · rfl
  · rfl

theorem fileLocks_clear_of_ne {x : Dent} {pid : Nat} {d : DentLocks}
    (hd : s.fileLocks dent = some d) (hx : x ≠ dent)
    (hrun : fileLockClearPidFromDentry alloc s dent pid = .ok s') :
    s'.fileLocks x = s.fileLocks x := by
  unfold fileLockClearPidFromDentry at hrun
  simp only [hd] at hrun
  split_ifs at hrun with hassert hlocks
  · obtain ⟨r, -, hr⟩ := Fallible.bind_eq_ok.1 hrun
    cases hr
    exact (fileLocks_gc_of_ne _ hx).trans (update_of_ne hx _ _)
  · cases hrun
    exact update_of_ne hx _ _

theorem State.Untouched.clear {x : Dent} {pid : Nat} (h : s.Untouched x pid)
    (hrun : fileLockClearPidFromDentry alloc s dent pid = .ok s') : s'.Untouched x pid := by
  unfold fileLockClearPidFromDentry at hrun
  cases hd : s.fileLocks dent with
  | none =>
    rw [hd] at hrun
    cases hrun
    exact h
  | some d =>
    by_cases hx : x = dent
    · subst hx
      simp only [hd, h.2 d hd] at hrun
      split_ifs at hrun with hassert hfalse
      · cases hfalse
      cases hrun
      refine ⟨fun t ht => ?_, fun d' hd' => ?_⟩
      · rw [State.tickets_put, update_self] at ht
        refine h.1 t ?_
        rw [State.tickets_of_some hd]
        exact (mem_filter.1 ht).1
      · simp only [State.put, update_self, Option.some.injEq] at hd'
        rw [← hd', any_eq_false]
        exact fun l hl => by simpa using (mem_filter.1 hl).2
    · have hfile : s'.fileLocks x = s.fileLocks x := fileLocks_clear_of_ne hd hx hrun
      have htickets : s'.tickets x = s.tickets x := by rw [State.tickets, hfile, State.tickets]
      exact ⟨htickets ▸ h.1, hfile ▸ h.2⟩

/-- **The locks of a process are cleared.** -/
theorem Inv.clearPidLoop (alloc : Nat → Bool) (pid : Nat) (dents : List Dent) (h : Inv s)
    (hworker : ∀ w, s.worker = some w → s.Untouched w.dent pid) :
    Leader.clearPidLoop alloc pid dents s = .error .clearPid ∨
      ∃ s', Leader.clearPidLoop alloc pid dents s = .ok s' ∧ Inv s' := by
  induction dents generalizing s with
  | nil => exact .inr ⟨s, rfl, h⟩
  | cons dent dents ih =>
    have hfilled : (∀ t ∈ s.tickets dent, t.Ready s.returned) ∨
        ∀ d, s.fileLocks dent = some d → d.fileLocks.any (ofPid pid) = false := by
      by_cases hw : ∃ w, s.worker = some w ∧ w.dent = dent
      · obtain ⟨w, hw, rfl⟩ := hw
        exact .inr (hworker w hw).2
      · exact .inl (h.ready fun w hw' hdent => hw ⟨w, hw', hdent⟩)
    rw [Leader.clearPidLoop]
    rcases fileLockClearPidFromDentry_spec alloc s dent pid hfilled with herror |
      ⟨s1, rest, sent, gone, hrun, hmoves, hsame⟩
    · rw [herror]
      exact .inl rfl
    rw [hrun]
    refine ih (h.moves hmoves fun w hw hdent => ?_) fun w hw => ?_
    · subst hdent
      obtain ⟨hrest, hsent, -⟩ := hsame (hworker w hw).1 (hworker w hw).2
      exact ⟨hrest, hsent⟩
    · exact (hworker w (hmoves.worker.symm.trans hw)).clear hrun

omit [DecidableEq Dent] in
/-- **A thread of the leader wakes up**: its request was answered, so it waits at no dentry. -/
theorem Inv.woken (h : Inv s) (hqueued : call ∈ s.queued) (hsent : call ∈ s.sent.map Sent.call) :
    Inv (fileLockSetWoken s call true) := by
  have hnot : ∀ dent, call ∉ s.waiting dent := fun dent hmem =>
    (h.ledger.held_only dent call hmem).1 hsent
  rw [fileLockSetWoken, if_pos rfl]
  split
  · exact h.returns (h.bound call hqueued) hnot _
  · exact h

/-- **Every step** that meets the condition keeps the invariant, or stops at the assertion in
`file_lock_clear_pid_from_dentry`. -/
theorem Inv.exec (h : Inv s) (alloc : Nat → Bool) {l : Label Dent} (henabled : l.Enabled s)
    (hguard : Guard s l) :
    Leader.exec alloc s l = .error .clearPid ∨ ∃ s', Leader.exec alloc s l = .ok s' ∧ Inv s' := by
  cases l with
  | set dent fl wait event =>
    obtain ⟨rfl, hworker⟩ := hguard
    exact .inr (h.set alloc fl wait hworker)
  | setFromIpc dent fl wait vmid seq =>
    exact .inr (h.setFromIpc alloc dent fl wait vmid hguard henabled)
  | fillFromIpc =>
    refine .inr ?_
    cases hw : s.worker with
    | none =>
      refine ⟨s, ?_, h⟩
      rw [Leader.exec, Leader.fillFromIpc, hw]
      rfl
    | some w => exact h.fillFromIpc hw
  | clearPid pid => exact h.clearPidLoop alloc pid s.list hguard
  | wake call ok =>
    obtain rfl : ok = true := hguard
    exact .inr ⟨_, rfl, h.woken henabled.1.1 (henabled.2 rfl)⟩

/-! ## Every run -/

/-- What has become of the requests. -/
structure State.Answered (s : State Dent) : Prop where
  /-- A request that has left the queue, and was not removed with the locks of its process, was
  answered exactly once. -/
  once : ∀ c ∈ s.queued, (∀ dent, c ∉ s.waiting dent) → c ∉ s.cleared →
    (s.sent.map Sent.call).count c = 1
  /-- No other request was answered. -/
  only : ∀ c ∈ s.sent.map Sent.call, c ∈ s.queued ∧ (∀ dent, c ∉ s.waiting dent) ∧ c ∉ s.cleared
  /-- The answer goes to the call that has queued the request. -/
  toRequester : ∀ a ∈ s.sent, a.answer.notify = s.caller a.call
  /-- A call that has returned an error has no request in the queue. -/
  errors : ∀ c e, (c, some e) ∈ s.returned → ∀ dent, c ∉ s.waiting dent

omit [DecidableEq Dent] in
theorem Inv.answered (h : Inv s) : s.Answered := by
  have honly : ∀ c ∈ s.sent.map Sent.call,
      c ∈ s.queued ∧ (∀ dent, c ∉ s.waiting dent) ∧ c ∉ s.cleared := by
    intro c hc
    refine ⟨(h.ledger.mem_issued c).2 (.inl hc), fun dent hmem => ?_, h.ledger.not_gone c hc⟩
    exact (h.ledger.held_only dent c hmem).1 hc
  refine ⟨fun c hc hnot hcleared => ?_, honly, h.sent, fun c e hr dent hmem => ?_⟩
  · refine count_eq_one_of_mem h.ledger.out_nodup ?_
    rcases (h.ledger.mem_issued c).1 hc with hout | hgone | ⟨dent, hmem⟩
    · exact hout
    · exact absurd hgone hcleared
    · exact absurd hmem (hnot dent)
  · exact (h.returned _ hr).2 dent hmem

/-- **Every queued request is answered exactly once**, to the call that has queued it, and a call
that returns an error leaves none, in every run whose steps meet the condition; no step reads a
request that was not filled in, writes to one that was freed, or answers a call that has
returned. -/
theorem requests_answered_once (alloc : Nat → Bool)
    (h : Reachable (· = State.initial) (Guarded Guard (Step alloc)) s) :
    s.Answered ∧ ∀ l, l.Enabled s → Guard s l →
      exec alloc s l ≠ .error .uninitialized ∧ exec alloc s l ≠ .error .freed ∧
      exec alloc s l ≠ .error .destroyed := by
  have hinv : Inv s := by
    apply h.invariant
    · intro s hs
      rw [hs]
      exact Inv.initial
    intro s l s' hs hstep
    obtain ⟨hguard, henabled, hexec⟩ := hstep
    rcases hs.exec alloc henabled hguard with herror | ⟨s1, hrun, hs1⟩
    · cases herror.symm.trans hexec
    · obtain rfl := Except.ok.inj (hrun.symm.trans hexec)
      exact hs1
  refine ⟨hinv.answered, fun l henabled hguard => ?_⟩
  rcases hinv.exec alloc henabled hguard with herror | ⟨_, hrun, -⟩
  · rw [herror]
    exact ⟨nofun, nofun, nofun⟩
  · rw [hrun]
    exact ⟨nofun, nofun, nofun⟩

/-! ## Runs of two processes -/

/-- The first ten bytes, for a process. -/
def exampleLock (type : LockType) (pid : Nat) : Lock := ⟨.posix, type, 0, 9, pid, 0⟩

instance (s : State Nat) (l : Label Nat) : Decidable (l.Enabled s) := by
  cases l <;> unfold Label.Enabled State.Waits <;> infer_instance

/-- A step, when `malloc` does not fail. -/
def next (s : State Nat) (l : Label Nat) : Option (State Nat) :=
  if l.Enabled s then (exec (fun _ => true) s l).toOption else none

theorem step_of_next (s : State Nat) (l : Label Nat) (s' : State Nat) (h : next s l = some s') :
    Step (fun _ => true) s l s' := by
  obtain ⟨henabled, hexec⟩ := Option.ite_none_right_eq_some.1 h
  refine ⟨henabled, ?_⟩
  cases hrun : exec (fun _ => true) s l with
  | error e =>
    rw [hrun] at hexec
    cases hexec
  | ok s1 =>
    rw [hrun] at hexec
    cases hexec
    rfl

/-- The leader locks a file, and another process asks for the same lock. -/
def exampleRun (seq : Nat) : List (Label Nat) :=
  [.set 0 (exampleLock .wrlck 1) false true, .setFromIpc (some 0) (exampleLock .wrlck 2) true 2 seq]

/-- The leader unlocks the file again. -/
def exampleUnlock : Label Nat := .set 0 (exampleLock .unlck 1) false true

/-- The condition on a step, as a test. -/
def meets (s : State Nat) : Label Nat → Bool
  | .set dent _ _ event => event && s.worker.all fun w => w.dent ≠ dent
  | .setFromIpc _ _ _ _ seq => seq < 2 ^ 32
  | .fillFromIpc => true
  | .clearPid _ => s.worker.isNone
  | .wake _ ok => ok

theorem guard_of_meets (s : State Nat) (l : Label Nat) (h : meets s l = true) : Guard s l := by
  cases l with
  | set dent fl wait event =>
    obtain ⟨hevent, hworker⟩ := (Bool.and_eq_true_iff ..).1 h
    refine ⟨hevent, fun w hw => ?_⟩
    rw [hw] at hworker
    exact of_decide_eq_true hworker
  | setFromIpc dent fl wait vmid seq =>
    have hseq : seq < 2 ^ 32 := of_decide_eq_true h
    exact hseq
  | fillFromIpc => trivial
  | clearPid pid =>
    intro w hw
    rw [meets, hw] at h
    cases h
  | wake call ok => exact h

theorem requests_answered_once_two : ∃ s : State Nat, s.sent = [⟨1, .ipc 2 7, none⟩] ∧
    s.Answered := by
  have hrun : ((exampleRun 7 ++ [.fillFromIpc, exampleUnlock]).foldlM
      (fun s l => if meets s l then next s l else none) State.initial).map State.sent =
      some [⟨1, .ipc 2 7, none⟩] := by decide +kernel
  obtain ⟨s, hs, hsent⟩ := Option.map_eq_some_iff.1 hrun
  refine ⟨s, hsent, (requests_answered_once (fun _ => true) ?_).1⟩
  refine .of_foldlM _ (fun s l s' h => ?_) (.init rfl) _ hs
  obtain ⟨hmeets, hnext⟩ := Option.ite_none_right_eq_some.1 h
  exact ⟨guard_of_meets s l hmeets, step_of_next s l s' hnext⟩

/-- The fault that a call ended in. -/
def failure : Except Fault (State Nat) → Option Fault
  | .error e => some e
  | .ok _ => none

theorem eq_error_of_failure {r : Except Fault (State Nat)} {e : Fault} (h : failure r = some e) :
    r = .error e := by
  cases r with
  | error e' => rw [Option.some.inj h]
  | ok s => cases h

/-- Four ways to lose an answer: the lock is released before the IPC worker has filled in its
request; `PalEventCreate` fails after the request was queued; the wait for the event fails, and the
event is destroyed when the lock is released; the sequence number does not fit. -/
theorem request_not_answered :
    (∃ s : State Nat, Reachable (· = State.initial) (Step fun _ => true) s ∧
      exec (fun _ => true) s exampleUnlock = .error .uninitialized) ∧
    (∃ s : State Nat, Reachable (· = State.initial) (Step fun _ => true) s ∧
      (1, some .event) ∈ s.returned ∧ 1 ∈ s.waiting 0) ∧
    (∃ s : State Nat, Reachable (· = State.initial) (Step fun _ => true) s ∧
      (1, some .event) ∈ s.returned ∧ 1 ∈ s.waiting 0 ∧
      exec (fun _ => true) s exampleUnlock = .error .destroyed) ∧
    ∃ s : State Nat, Reachable (· = State.initial) (Step fun _ => true) s ∧
      s.sent = [⟨1, .ipc 2 5, none⟩] ∧ s.caller 1 = .ipc 2 (2 ^ 32 + 5) := by
  have hreach : ∀ (run : List (Label Nat)) (s : State Nat), run.foldlM next State.initial = some s →
      Reachable (· = State.initial) (Step fun _ => true) s :=
    fun run s hs => .of_foldlM next step_of_next (.init rfl) run hs
  have hleft : ∀ s : State Nat, (s.returned, s.waiting 0) = ([(1, some .event), (0, none)], [1]) →
      (1, some .event) ∈ s.returned ∧ 1 ∈ s.waiting 0 := by
    intro s heq
    obtain ⟨hreturned, hwaiting⟩ := Prod.mk.inj heq
    rw [hreturned, hwaiting]
    exact ⟨mem_cons_self, mem_cons_self⟩
  refine ⟨?_, ?_, ?_, ?_⟩
  · have hrun : ((exampleRun 7).foldlM next State.initial).map
        (fun s => failure (exec (fun _ => true) s exampleUnlock)) = some (some .uninitialized) := by
      decide +kernel
    obtain ⟨s, hs, heq⟩ := Option.map_eq_some_iff.1 hrun
    exact ⟨s, hreach _ s hs, eq_error_of_failure heq⟩
  · have hrun : ([.set 0 (exampleLock .wrlck 1) false true,
        .set 0 (exampleLock .wrlck 2) true false].foldlM next State.initial).map
        (fun s => (s.returned, s.waiting 0)) = some ([(1, some .event), (0, none)], [1]) := by
      decide +kernel
    obtain ⟨s, hs, heq⟩ := Option.map_eq_some_iff.1 hrun
    exact ⟨s, hreach _ s hs, hleft s heq⟩
  · have hrun : ([.set 0 (exampleLock .wrlck 1) false true,
        .set 0 (exampleLock .wrlck 2) true true, .wake 1 false].foldlM next State.initial).map
        (fun s => ((s.returned, s.waiting 0),
          failure (exec (fun _ => true) s exampleUnlock))) =
        some (([(1, some .event), (0, none)], [1]), some .destroyed) := by
      decide +kernel
    obtain ⟨s, hs, heq⟩ := Option.map_eq_some_iff.1 hrun
    obtain ⟨hstate, hfailure⟩ := Prod.mk.inj heq
    exact ⟨s, hreach _ s hs, (hleft s hstate).1, (hleft s hstate).2, eq_error_of_failure hfailure⟩
  · have hrun : ((exampleRun (2 ^ 32 + 5) ++ [.fillFromIpc, exampleUnlock]).foldlM next
        State.initial).map (fun s => (s.sent, s.caller 1)) =
        some ([⟨1, .ipc 2 5, none⟩], .ipc 2 (2 ^ 32 + 5)) := by decide +kernel
    obtain ⟨s, hs, heq⟩ := Option.map_eq_some_iff.1 hrun
    obtain ⟨hsent, hcaller⟩ := Prod.mk.inj heq
    exact ⟨s, hreach _ s hs, hsent, hcaller⟩

end FileLock.Leader
