import Gramine.FileLockOrigin

/-!
# Locks and inodes

Processes open, lock, close, rename and unlink the regular files of one file system
(`libos_file.c`, `libos_namei.c`, `libos_fcntl.c`, `libos_handle.c`). A handle keeps
the dentry it was opened at and the inode that dentry had then; a lock is taken on
the handle's dentry. `do_rename` moves the inode to another dentry, `unlink` takes
it away, and both leave the handles and the locks where they are.

A dentry is named by its path. Every process has a cache of its own; what a process
believes and the host contradicts makes the operation fail at the host, so `inode`
is the file system's own state and every operation may be refused.

As long as names that are in use, with an open handle, a lock or a request that
waits, are neither renamed, replaced nor unlinked, a dentry stands for one inode and
locking names is locking files (`inode_locks_exclusive`).
-/

open Function List Transition Fallible

namespace FileLock.Files

/-- The errors of the file operations. -/
inductive Errno
  | enoent
  | eexist
  | einval
  /-- Whatever a permission check or the file system answers. -/
  | refused
  deriving DecidableEq, Repr

/-- The flags of `open` that matter here: `O_CREAT`, `O_EXCL`, and the access mode. -/
structure OpenFlags where
  creat : Bool
  excl : Bool
  mayRead : Bool
  mayWrite : Bool
  deriving DecidableEq, Repr

/-- `struct libos_handle` of a regular file; `mayRead` and `mayWrite` are its
`acc_mode`. -/
structure Handle (Name : Type) where
  pid : Nat
  id : Nat
  dentry : Name
  inode : Nat
  mayRead : Bool
  mayWrite : Bool
  deriving DecidableEq, Repr

/-- A lock that was asked for, and the inode of the handle it was asked through. -/
structure Asked where
  inode : Nat
  lock : Lock
  deriving DecidableEq, Repr

/-- The file system, the open handles and the leader's table. -/
structure State (Name : Type) where
  /-- `dent->inode`. -/
  inode : Name → Option Nat
  nextInode : Nat
  /-- `local_id_counter` of each process. -/
  localIdCounter : Nat → Nat
  handles : List (Handle Name)
  /-- `dent->maybe_has_file_locks` of each process. -/
  maybeHasFileLocks : Nat → Name → Bool
  table : Table Name
  /-- What was asked for on each dentry since it was last free of locks and requests.
  The code has no such record. -/
  asked : Name → List Asked

/-- What a call of `file_lock_set` meets: the event `PalEventCreate` gives in the
leader; in any other process whether the request is sent, under which numbers, and
whether the leader finds the dentry. -/
structure Env where
  event : Option Nat
  sent : Bool
  found : Bool
  vmid : Nat
  seq : Nat
  deriving DecidableEq, Repr

section Model
variable {Name : Type} [DecidableEq Name]

/-! ## Files -/

/-- `get_new_handle`: the counter is a `uint32_t`, and its overflow ends the process. -/
def getNewHandle (s : State Name) (pid : Nat) : Option (State Name × Nat) :=
  let next := (s.localIdCounter pid + 1) % 2 ^ 32
  if next = 0 then none
  else some ({ s with localIdCounter := update s.localIdCounter pid next }, pid * 2 ^ 32 + next)

/-- `assoc_handle_with_dentry`. -/
def assocHandleWithDentry (s : State Name) (pid id : Nat) (dent : Name) (inode : Nat)
    (flags : OpenFlags) : State Name :=
  { s with handles := ⟨pid, id, dent, inode, flags.mayRead, flags.mayWrite⟩ :: s.handles }

/-- What `d_ops->creat` leaves. -/
def creat (s : State Name) (dent : Name) : State Name :=
  { s with inode := update s.inode dent (some s.nextInode), nextInode := s.nextInode + 1 }

/-- `open_namei`. -/
def openNamei (s : State Name) (pid id : Nat) (dent : Name) (flags : OpenFlags) (refused : Bool) :
    State Name × Option Errno :=
  match s.inode dent with
  | none =>
    if flags.creat = false then (s, some .enoent)
    else if refused then (s, some .refused)
    else (assocHandleWithDentry (creat s dent) pid id dent s.nextInode flags, none)
  | some inode =>
    if flags.creat ∧ flags.excl then (s, some .eexist)
    else if refused then (s, some .refused)
    else (assocHandleWithDentry s pid id dent inode flags, none)

/-- `unlinkat`. -/
def unlinkat (s : State Name) (dent : Name) (refused : Bool) : State Name × Option Errno :=
  match s.inode dent with
  | none => (s, some .enoent)
  | some _ =>
    if refused then (s, some .refused)
    else ({ s with inode := update s.inode dent none }, none)

/-- `do_rename`. -/
def doRename (s : State Name) (old new : Name) (refused : Bool) : State Name × Option Errno :=
  match s.inode old with
  | none => (s, some .enoent)
  | some inode =>
    -- `dentry_is_ancestor`
    if old = new then (s, some .einval)
    else if refused then (s, some .refused)
    else ({ s with
      inode := update (update s.inode new (some inode)) old none }, none)

/-! ## Locks -/

/-- A new table, and the record that goes with it. -/
def State.setTable (s : State Name) (t : Table Name) (asked : Name → List Asked) : State Name :=
  { s with
    table := t
    asked := fun n => if t.fileLocks n = none then [] else asked n ++ s.asked n }

/-- `dent->maybe_has_file_locks = true`. -/
def State.setMaybe (s : State Name) (pid : Nat) (dent : Name) : State Name :=
  let flags := update (s.maybeHasFileLocks pid) dent true
  { s with maybeHasFileLocks := update s.maybeHasFileLocks pid flags }

/-- The record of one request. -/
def ask (h : Handle Name) (fl : Lock) (n : Name) : List Asked :=
  if n = h.dentry ∧ fl.type ≠ .unlck then [⟨h.inode, fl⟩] else []

/-- `file_lock_set` on the dentry of a handle, until it returns or waits. -/
def fileLockSet (alloc : Nat → Bool) (leader : Nat) (s : State Name) (h : Handle Name) (fl : Lock)
    (wait : Bool) (env : Env) : Except Fault (State Name) :=
  if h.pid = leader then do
    let t ← s.table.exec alloc (.set h.dentry fl wait env.event)
    pure (s.setTable t (ask h fl))
  else if fl.type = .unlck ∧ s.maybeHasFileLocks h.pid h.dentry = false then pure s
  else
    let s := if fl.type = .unlck then s else s.setMaybe h.pid h.dentry
    if env.sent = false then pure s
    else do
      let dent := if env.found then some h.dentry else none
      let t ← s.table.exec alloc (.setFromIpc dent fl wait env.vmid env.seq)
      pure (s.setTable t (ask h fl))

section Calls
variable (alloc : Nat → Bool) (leader : Nat)

/-- `fcntl` with `F_SETLK` or `F_SETLKW`; the range is the one `flock_to_file_lock`
computes, which refuses what is none. -/
def fcntlSetlk (s : State Name) (h : Handle Name) (type : LockType) (start stop : Nat)
    (wait : Bool) (env : Env) : Except Fault (State Name) :=
  if type = .rdlck ∧ h.mayRead = false then pure s
  else if type = .wrlck ∧ h.mayWrite = false then pure s
  else if ¬ (start ≤ stop ∧ stop ≤ fsLockEof) then pure s
  else fileLockSet alloc leader s h ⟨.posix, type, start, stop, h.pid, 0⟩ wait env

/-- `flock`. -/
def flock (s : State Name) (h : Handle Name) (type : LockType) (wait : Bool) (env : Env) :
    Except Fault (State Name) :=
  fileLockSet alloc leader s h ⟨.flock, type, 0, 0, 0, h.id⟩ wait env

/-- `detach_fd_handle`: `clear_posix_locks` whenever a file descriptor is closed. -/
def detachFdHandle (s : State Name) (h : Handle Name) (env : Env) : Except Fault (State Name) :=
  fileLockSet alloc leader s h ⟨.posix, .unlck, 0, fsLockEof, h.pid, 0⟩ false env

/-- `put_handle` of the last reference: `clear_flock_locks`, and the handle is gone. -/
def putHandle (s : State Name) (h : Handle Name) (env : Env) : Except Fault (State Name) := do
  let s ← fileLockSet alloc leader s h ⟨.flock, .unlck, 0, 0, 0, h.id⟩ false env
  pure { s with handles := s.handles.erase h }

end Calls

/-! ## Runs -/

/-- The operations, with what the host and the leader answer. Closing a file
descriptor detaches it; the handle goes with its last reference, which may be a
duplicate or a thread that waits for a lock. -/
inductive Label (Name : Type)
  | openat (pid : Nat) (dent : Name) (flags : OpenFlags) (refused : Bool)
  | setlk (h : Handle Name) (type : LockType) (start stop : Nat) (wait : Bool) (env : Env)
  | flock (h : Handle Name) (type : LockType) (wait : Bool) (env : Env)
  | detach (h : Handle Name) (env : Env)
  | put (h : Handle Name) (env : Env)
  | unlink (dent : Name) (refused : Bool)
  | rename (old new : Name) (refused : Bool)
  /-- The leader's `file_lock_clear_pid`, when a process exits. -/
  | clearPid (pid : Nat)

/-- The handle a label uses is open. -/
def Label.Enabled (s : State Name) : Label Name → Prop
  | .setlk h .. | .flock h .. | .detach h _ | .put h _ => h ∈ s.handles
  | _ => True

/-- One operation. Without a result the process ends, or the leader does. -/
def exec (alloc : Nat → Bool) (leader : Nat) (s : State Name) : Label Name → Option (State Name)
  | .openat pid dent flags refused =>
    (getNewHandle s pid).map fun r => (openNamei r.1 pid r.2 dent flags refused).1
  | .setlk h type start stop wait env =>
    (fcntlSetlk alloc leader s h type start stop wait env).toOption
  | .flock h type wait env => (flock alloc leader s h type wait env).toOption
  | .detach h env => (detachFdHandle alloc leader s h env).toOption
  | .put h env => (putHandle alloc leader s h env).toOption
  | .unlink dent refused => some (unlinkat s dent refused).1
  | .rename old new refused => some (doRename s old new refused).1
  | .clearPid pid =>
    ((s.table.exec alloc (.clearPid pid)).map fun t => s.setTable t fun _ => []).toOption

def Step (alloc : Nat → Bool) (leader : Nat) (s : State Name) (l : Label Name) (s' : State Name) :
    Prop :=
  l.Enabled s ∧ exec alloc leader s l = some s'

/-- Before the first operation: any files without hard links, nothing open or
locked. -/
structure Initial (s : State Name) : Prop where
  below : ∀ n i, s.inode n = some i → i < s.nextInode
  injective : ∀ n m i, s.inode n = some i → s.inode m = some i → n = m
  handles : s.handles = []
  table : s.table = .initial
  asked : ∀ n, s.asked n = []

/-- The name is in no use: no handle is open on it, and no lock is held or awaited. -/
def Idle (s : State Name) (n : Name) : Prop :=
  (∀ h ∈ s.handles, h.dentry ≠ n) ∧ s.table.held n = [] ∧ s.table.waiting n = []

/-- Names in use are neither renamed, replaced nor unlinked. -/
def Guard (s : State Name) : Label Name → Prop
  | .unlink dent _ => Idle s dent
  | .rename old new _ => Idle s old ∧ Idle s new
  | _ => True

/-- The locks held through a handle: on its dentry, by its owner. -/
def State.heldThrough (s : State Name) (h : Handle Name) : List Lock :=
  (s.table.held h.dentry).filter fun l =>
    match l.family with
    | .posix => l.pid = h.pid
    | .flock => l.handleId = h.id

/-- Locks protect files: handles of one inode never have conflicting locks, and a
request through a handle meets only locks that were asked for through handles of the
same inode. -/
structure Protected (s : State Name) : Prop where
  exclusive : ∀ h₁ ∈ s.handles, ∀ h₂ ∈ s.handles, h₁.inode = h₂.inode →
    ∀ a ∈ s.heldThrough h₁, ∀ b ∈ s.heldThrough h₂, ¬ Conflict a b
  origin : ∀ h ∈ s.handles, ∀ fl, ∀ cur ∈ s.table.held h.dentry, Conflict fl cur →
    (∃ q ∈ s.asked h.dentry, q.lock.Like cur) ∧
      ∀ q ∈ s.asked h.dentry, q.lock.Like cur → q.inode = h.inode

/-! ## The invariant -/

/-- What is true in every run whose steps meet the guard. -/
structure Inv (s : State Name) : Prop where
  below : ∀ n i, s.inode n = some i → i < s.nextInode
  injective : ∀ n m i, s.inode n = some i → s.inode m = some i → n = m
  handle : ∀ h ∈ s.handles, s.inode h.dentry = some h.inode
  table : s.table.Ok
  asked : ∀ n, ∀ q ∈ s.asked n, s.inode n = some q.inode
  free : ∀ n, s.table.fileLocks n = none → s.asked n = []
  origin : s.table.Every fun n l => ∃ q ∈ s.asked n, q.lock.Like l

omit [DecidableEq Name] in
theorem Initial.inv {s : State Name} (h : Initial s) : Inv s where
  below := h.below
  injective := h.injective
  handle := by simp [h.handles]
  table := by
    rw [h.table]
    exact Table.ok_initial
  asked := by simp [h.asked]
  free := fun n _ => h.asked n
  origin := by
    rw [h.table]
    intro dent d hd
    cases hd

section Steps
variable {alloc : Nat → Bool} {leader : Nat} {s s' : State Name}

/-- **The leader processes a call.** What the call asks for was asked through an
open handle. -/
theorem Inv.setTable (hi : Inv s) {c : Table.Call Name} {t : Table Name}
    {asked : Name → List Asked} (hv : c.Valid) (ht : s.table.exec alloc c = .ok t)
    (hc : ∀ dent fl, Table.Call.Asks dent fl c → fl.type ≠ .unlck → ∃ q ∈ asked dent, q.lock = fl)
    (hasked : ∀ n, ∀ q ∈ asked n, s.inode n = some q.inode) : Inv (s.setTable t asked) where
  below := hi.below
  injective := hi.injective
  handle := hi.handle
  table := (hi.table.step ⟨hv, ht⟩).1
  asked := by
    intro n q hq
    simp only [State.setTable] at hq
    split at hq
    · cases hq
    · exact (mem_append.1 hq).elim (hasked n q) (hi.asked n q)
  free := by
    intro n hn
    exact if_pos hn
  origin := by
    have hevery : t.Every fun n l => ∃ q ∈ asked n ++ s.asked n, q.lock.Like l := by
      refine Table.Every.exec (fun dent => Kept.of_like ?_) (hi.origin.mono ?_)
        (fun _ _ => trivial) ?_ ht
      · rintro a b hab ⟨q, hq, hqa⟩
        exact ⟨q, hq, hqa.trans hab⟩
      · rintro dent l ⟨q, hq, hql⟩
        exact ⟨q, mem_append_right _ hq, hql⟩
      · intro dent fl hasks hty
        obtain ⟨q, hq, rfl⟩ := hc dent fl hasks hty
        exact ⟨q, mem_append_left _ hq, .refl _⟩
    intro n d hd
    have hsome : t.fileLocks n ≠ none := by
      rw [show t.fileLocks n = some d from hd]
      simp
    simp only [State.setTable, if_neg hsome]
    exact hevery n d hd

omit [DecidableEq Name] in
/-- Everything but the bookkeeping of the clients is as before. -/
theorem Inv.of_same (hi : Inv s) (h1 : s'.inode = s.inode) (h2 : s'.nextInode = s.nextInode)
    (h3 : ∀ h ∈ s'.handles, h ∈ s.handles) (h4 : s'.table = s.table) (h5 : s'.asked = s.asked) :
    Inv s' where
  below := by
    rw [h1, h2]
    exact hi.below
  injective := by
    rw [h1]
    exact hi.injective
  handle := by
    rw [h1]
    exact fun h hh => hi.handle h (h3 h hh)
  table := h4 ▸ hi.table
  asked := by
    rw [h1, h5]
    exact hi.asked
  free := by
    rw [h4, h5]
    exact hi.free
  origin := by
    rw [h4, h5]
    exact hi.origin

theorem Inv.fileLockSet {h : Handle Name} {fl : Lock} {wait : Bool} {env : Env} (hi : Inv s)
    (hh : h ∈ s.handles) (hv : fl.Valid)
    (he : fileLockSet alloc leader s h fl wait env = .ok s') :
    Inv s' ∧ s'.handles = s.handles := by
  -- the request is recorded under the handle's dentry, with the handle's inode
  have hasked : ∀ n, ∀ q ∈ ask h fl n, s.inode n = some q.inode := by
    intro n q hq
    unfold ask at hq
    split at hq
    · rename_i hn
      obtain rfl := mem_singleton.1 hq
      rw [hn.1]
      exact hi.handle h hh
    · cases hq
  have hmem : fl.type ≠ .unlck → ∃ q ∈ ask h fl h.dentry, q.lock = fl := by
    intro hty
    exact ⟨⟨h.inode, fl⟩, by simp [ask, hty], rfl⟩
  unfold Files.fileLockSet at he
  split at he
  · obtain ⟨t, ht, he⟩ := bind_eq_ok.1 he
    cases he
    have hvalid : (Table.Call.set h.dentry fl wait env.event).Valid := hv
    refine ⟨hi.setTable hvalid ht ?_ hasked, rfl⟩
    rintro dent k ⟨rfl, rfl⟩ hty
    exact hmem hty
  split at he
  · cases he
    exact ⟨hi, rfl⟩
  have hmaybe : Inv (if fl.type = .unlck then s else s.setMaybe h.pid h.dentry) ∧
      (if fl.type = .unlck then s else s.setMaybe h.pid h.dentry).inode = s.inode ∧
      (if fl.type = .unlck then s else s.setMaybe h.pid h.dentry).handles = s.handles := by
    split
    · exact ⟨hi, rfl, rfl⟩
    · exact ⟨hi.of_same rfl rfl (fun _ h => h) rfl rfl, rfl, rfl⟩
  generalize (if fl.type = .unlck then s else s.setMaybe h.pid h.dentry) = s1 at he hmaybe
  obtain ⟨hi1, hinode, hhandles⟩ := hmaybe
  split at he
  · cases he
    exact ⟨hi1, hhandles⟩
  obtain ⟨_, ht, he⟩ := bind_eq_ok.1 he
  cases he
  have hvalid : (Table.Call.setFromIpc (if env.found then some h.dentry else none) fl wait
      env.vmid env.seq).Valid := hv
  refine ⟨hi1.setTable hvalid ht ?_ (hinode ▸ hasked), hhandles⟩
  rintro dent k ⟨hto, rfl⟩ hty
  split at hto
  · obtain rfl := Option.some.inj hto
    exact hmem hty
  · cases hto

variable {id pid : Nat}

omit [DecidableEq Name] in
theorem getNewHandle_spec (hn : getNewHandle s pid = some (s', id)) :
    s'.inode = s.inode ∧ s'.nextInode = s.nextInode ∧ s'.handles = s.handles ∧
      s'.table = s.table ∧ s'.asked = s.asked := by
  unfold getNewHandle at hn
  dsimp only at hn
  split at hn
  · cases hn
  · cases hn
    exact ⟨rfl, rfl, rfl, rfl, rfl⟩

variable {dent : Name}

omit [DecidableEq Name] in
theorem Inv.assocHandleWithDentry {inode : Nat} {flags : OpenFlags} (hi : Inv s)
    (hd : s.inode dent = some inode) :
    Inv (assocHandleWithDentry s pid id dent inode flags) where
  below := hi.below
  injective := hi.injective
  handle := forall_mem_cons.2 ⟨hd, hi.handle⟩
  table := hi.table
  asked := hi.asked
  free := hi.free
  origin := hi.origin

theorem Inv.creat (hi : Inv s) (hd : s.inode dent = none) : Inv (creat s dent) := by
  have hother : ∀ {n i}, s.inode n = some i → (Files.creat s dent).inode n = some i := by
    intro n i hn
    have hne : n ≠ dent := by
      rintro rfl
      cases hd.symm.trans hn
    exact (update_of_ne hne _ _).trans hn
  have hcases : ∀ {n i}, (Files.creat s dent).inode n = some i →
      (n = dent ∧ i = s.nextInode) ∨ s.inode n = some i := by
    intro n i hn
    by_cases hne : n = dent
    · subst hne
      rw [show (Files.creat s n).inode n = some s.nextInode from update_self ..] at hn
      exact .inl ⟨rfl, (Option.some.inj hn).symm⟩
    · exact .inr ((update_of_ne hne _ _).symm.trans hn)
  constructor
  case below =>
    intro n i hn
    show i < s.nextInode + 1
    rcases hcases hn with ⟨-, rfl⟩ | hn
    · omega
    · have := hi.below n i hn
      omega
  case injective =>
    intro n m i hn hm
    rcases hcases hn with ⟨hnd, hni⟩ | hn'
    · rcases hcases hm with ⟨hmd, -⟩ | hm'
      · exact hnd.trans hmd.symm
      · exact absurd (hi.below m i hm') (by omega)
    · rcases hcases hm with ⟨-, hmi⟩ | hm'
      · exact absurd (hi.below n i hn') (by omega)
      · exact hi.injective n m i hn' hm'
  case handle => exact fun h hh => hother (hi.handle h hh)
  case table => exact hi.table
  case asked => exact fun n q hq => hother (hi.asked n q hq)
  case free => exact hi.free
  case origin => exact hi.origin

variable {refused : Bool}

theorem Inv.openNamei {flags : OpenFlags} (hi : Inv s) :
    Inv (openNamei s pid id dent flags refused).1 := by
  unfold Files.openNamei
  split
  · rename_i hd
    split
    · exact hi
    split
    · exact hi
    · exact (hi.creat hd).assocHandleWithDentry (update_self ..)
  · rename_i inode hd
    split
    · exact hi
    split
    · exact hi
    · exact hi.assocHandleWithDentry hd

omit [DecidableEq Name] in
theorem Inv.asked_of_idle {n : Name} (hi : Inv s) (hn : Idle s n) : s.asked n = [] := by
  refine hi.free n ?_
  cases hd : s.table.fileLocks n with
  | none => rfl
  | some d =>
    obtain ⟨-, hheld, hwaiting⟩ := hn
    simp only [Table.held, Table.waiting, hd] at hheld hwaiting
    rcases hi.table.nonEmpty n d (by simp) hd with hne | hne
    · exact absurd hheld hne
    · exact absurd hwaiting hne

omit [DecidableEq Name] in
/-- Names in no use lose or swap their inodes, and no inode gets a second name. -/
theorem Inv.setInode {inode : Name → Option Nat} (hi : Inv s)
    (hbelow : ∀ n i, inode n = some i → i < s.nextInode)
    (hinj : ∀ n m i, inode n = some i → inode m = some i → n = m)
    (hsame : ∀ n, ¬ Idle s n → inode n = s.inode n) : Inv { s with inode := inode } where
  below := hbelow
  injective := hinj
  handle := by
    intro h hh
    refine (hsame _ ?_).trans (hi.handle h hh)
    exact fun hidle => hidle.1 h hh rfl
  table := hi.table
  asked := by
    intro n q hq
    refine (hsame n ?_).trans (hi.asked n q hq)
    intro hidle
    rw [hi.asked_of_idle hidle] at hq
    cases hq
  free := hi.free
  origin := hi.origin

theorem Inv.unlinkat (hi : Inv s) (hg : Idle s dent) : Inv (unlinkat s dent refused).1 := by
  unfold Files.unlinkat
  split
  · exact hi
  split
  · exact hi
  have hcases : ∀ {n i}, update s.inode dent none n = some i → s.inode n = some i := by
    intro n i hn
    by_cases hne : n = dent
    · simp [hne] at hn
    · simpa [hne] using hn
  refine hi.setInode ?_ ?_ ?_
  · exact fun n i hn => hi.below n i (hcases hn)
  · exact fun n m i hn hm => hi.injective n m i (hcases hn) (hcases hm)
  intro n hn
  refine update_of_ne ?_ _ _
  rintro rfl
  exact hn hg

theorem Inv.doRename {old new : Name} (hi : Inv s) (hold : Idle s old) (hnew : Idle s new) :
    Inv (doRename s old new refused).1 := by
  unfold Files.doRename
  split
  · exact hi
  rename_i inode hinode
  split
  · exact hi
  split
  · exact hi
  -- the inode of `new` is the one `old` had; every other name keeps its own
  have hcases : ∀ {n i}, update (update s.inode new (some inode)) old none n =
      some i → (n = new ∧ i = inode) ∨ (n ≠ old ∧ s.inode n = some i) := by
    intro n i hn
    by_cases ho : n = old
    · simp [ho] at hn
    by_cases hw : n = new
    · rw [update_of_ne ho, hw, update_self] at hn
      exact .inl ⟨hw, (Option.some.inj hn).symm⟩
    · exact .inr ⟨ho, by simpa [ho, hw] using hn⟩
  refine hi.setInode ?_ ?_ ?_
  · intro n i hn
    rcases hcases hn with ⟨-, rfl⟩ | ⟨-, hn⟩
    · exact hi.below old _ hinode
    · exact hi.below n i hn
  · intro n m i hn hm
    rcases hcases hn with ⟨hnn, hni⟩ | ⟨hno, hn'⟩
    · rcases hcases hm with ⟨hmn, -⟩ | ⟨hmo, hm'⟩
      · exact hnn.trans hmn.symm
      · exact absurd (hi.injective m old i hm' (hni ▸ hinode)) hmo
    · rcases hcases hm with ⟨-, hmi⟩ | ⟨-, hm'⟩
      · exact absurd (hi.injective n old i hn' (hmi ▸ hinode)) hno
      · exact hi.injective n m i hn' hm'
  · intro n hn
    have ho : n ≠ old := by
      rintro rfl
      exact hn hold
    have hw : n ≠ new := by
      rintro rfl
      exact hn hnew
    rw [update_of_ne ho, update_of_ne hw]

theorem valid_zero {family : Family} {type : LockType} :
    (⟨family, type, 0, 0, pid, id⟩ : Lock).Valid := ⟨Nat.le_refl 0, Nat.zero_le _⟩

/-- **Every operation keeps the invariant.** -/
theorem Inv.step {l : Label Name} (hi : Inv s) (hg : Guard s l) (hs : Step alloc leader s l s') :
    Inv s' := by
  obtain ⟨hen, he⟩ := hs
  cases l with
  | openat pid dent flags refused =>
    obtain ⟨⟨s1, id⟩, hnew, rfl⟩ := Option.map_eq_some_iff.1 he
    obtain ⟨h1, h2, h3, h4, h5⟩ := getNewHandle_spec hnew
    have hi1 : Inv s1 := hi.of_same h1 h2 (fun h hh => h3 ▸ hh) h4 h5
    exact hi1.openNamei
  | setlk h type start stop wait env =>
    have he := toOption_eq_some.1 he
    unfold fcntlSetlk at he
    split at he
    · cases he
      exact hi
    split at he
    · cases he
      exact hi
    split at he
    · cases he
      exact hi
    · rename_i hrange
      have hrange := not_not.1 hrange
      exact (hi.fileLockSet hen ⟨hrange.1, hrange.2⟩ he).1
  | flock h type wait env =>
    exact (hi.fileLockSet hen valid_zero (toOption_eq_some.1 he)).1
  | detach h env =>
    exact (hi.fileLockSet hen ⟨Nat.zero_le _, Nat.le_refl _⟩ (toOption_eq_some.1 he)).1
  | put h env =>
    have he := toOption_eq_some.1 he
    obtain ⟨s1, hset, he⟩ := bind_eq_ok.1 he
    cases he
    obtain ⟨hi1, -⟩ := hi.fileLockSet hen valid_zero hset
    exact hi1.of_same rfl rfl (fun _ => mem_of_mem_erase) rfl rfl
  | unlink dent refused =>
    cases he
    exact hi.unlinkat hg
  | rename old new refused =>
    cases he
    exact hi.doRename hg.1 hg.2
  | clearPid pid =>
    have he := toOption_eq_some.1 he
    cases ht : s.table.exec alloc (.clearPid pid) with
    | error f =>
      rw [ht] at he
      cases he
    | ok t =>
      rw [ht] at he
      cases he
      have hvalid : (Table.Call.clearPid pid : Table.Call Name).Valid := trivial
      exact hi.setTable hvalid ht (fun _ _ h => h.elim) (by simp)

omit [DecidableEq Name] in
/-- One name for an inode, and one inode for a name: locking names is locking files. -/
theorem Inv.protected (hi : Inv s) : Protected s := by
  constructor
  · intro h₁ hh1 h₂ hh2 heq a ha b hb
    -- the two handles were opened at one dentry
    have hdent : h₁.dentry = h₂.dentry := by
      refine hi.injective _ _ h₁.inode (hi.handle h₁ hh1) ?_
      rw [heq]
      exact hi.handle h₂ hh2
    have ha := (mem_filter.1 ha).1
    have hb := (mem_filter.1 hb).1
    rw [← hdent] at hb
    cases hd : s.table.fileLocks h₁.dentry with
    | none => simp [Table.held, hd] at ha
    | some d =>
      simp only [Table.held, hd] at ha hb
      obtain ⟨_, hfam⟩ := hi.table.dent _ d hd
      exact hfam.locks.noConflict a ha b hb
  · intro h hh fl cur hcur _
    refine ⟨?_, ?_⟩
    · cases hd : s.table.fileLocks h.dentry with
      | none => simp [Table.held, hd] at hcur
      | some d =>
        simp only [Table.held, hd] at hcur
        exact (hi.origin _ d hd).1 cur hcur
    · intro q hq _
      exact Option.some.inj ((hi.asked _ q hq).symm.trans (hi.handle h hh))

/-- **Locks protect files**, in every run in which names in use are neither renamed,
replaced nor unlinked. -/
theorem inode_locks_exclusive (hr : Reachable Initial (Guarded Guard (Step alloc leader)) s) :
    Protected s := by
  refine Inv.protected (Reachable.invariant ?_ ?_ hr)
  · intro s h
    exact h.inv
  · intro s l s' hi hs
    exact hi.step hs.1 hs.2

end Steps

/-! ## Runs on two names -/

instance (s : State Name) (l : Label Name) : Decidable (l.Enabled s) := by
  cases l <;> unfold Label.Enabled <;> infer_instance

instance (s : State Name) (n : Name) : Decidable (Idle s n) := by
  unfold Idle
  infer_instance

instance (s : State Name) (l : Label Name) : Decidable (Guard s l) := by
  cases l <;> unfold Guard <;> infer_instance

/-- One step, where every allocation succeeds and process 1 is the leader. -/
def next (s : State Name) (l : Label Name) : Option (State Name) :=
  if l.Enabled s then exec (fun _ => true) 1 s l else none

theorem step_of_next (s : State Name) (l : Label Name) (s' : State Name)
    (h : next s l = some s') : Step (fun _ => true) 1 s l s' := by
  obtain ⟨hen, he⟩ := Option.ite_none_right_eq_some.1 h
  exact ⟨hen, he⟩

/-- One step that meets the guard. -/
def nextGuarded (s : State Name) (l : Label Name) : Option (State Name) :=
  if Guard s l then next s l else none

theorem step_of_nextGuarded (s : State Name) (l : Label Name) (s' : State Name)
    (h : nextGuarded s l = some s') :
    Guarded Guard (Step (fun _ => true) 1) s l s' := by
  obtain ⟨hg, he⟩ := Option.ite_none_right_eq_some.1 h
  exact ⟨hg, step_of_next s l s' he⟩

/-- An empty file system. -/
def empty : State Name :=
  ⟨fun _ => none, 0, fun _ => 0, [], fun _ _ => false, .initial, fun _ => []⟩

omit [DecidableEq Name] in
theorem initial_empty : Initial (empty : State Name) :=
  ⟨by simp [empty], by simp [empty], rfl, rfl, fun _ => rfl⟩

end Model

/-- A handle of the first file process `pid` opens. -/
def handle (pid : Nat) (dentry inode : Nat) : Handle Nat :=
  ⟨pid, pid * 2 ^ 32 + 1, dentry, inode, true, true⟩

/-- The leader opens a file and locks all of it. -/
def lockFirst : List (Label Nat) :=
  [.openat 1 0 ⟨true, false, true, true⟩ false,
   .setlk (handle 1 0 0) .wrlck 0 fsLockEof false ⟨none, true, true, 0, 0⟩]

/-- Another process opens the name and asks for a lock of the whole file. -/
def lockSecond (dentry inode : Nat) : List (Label Nat) :=
  [.openat 2 dentry ⟨true, false, true, true⟩ false,
   .setlk (handle 2 dentry inode) .wrlck 0 fsLockEof false ⟨none, true, true, 2, 0⟩]

/-- A third process creates the file under another name, closes it and renames it. -/
def createAndRename : List (Label Nat) :=
  [.openat 3 1 ⟨true, true, true, true⟩ false,
   .detach (handle 3 1 0) ⟨none, true, true, 3, 0⟩,
   .put (handle 3 1 0) ⟨none, true, true, 3, 1⟩,
   .rename 1 0 false]

/-- What is looked at after a run: the handles, and the locks held through two of
them. -/
def observe (h₁ h₂ : Handle Nat) (s : State Nat) : List (Handle Nat) × List Lock × List Lock :=
  (s.handles, s.heldThrough h₁, s.heldThrough h₂)

/-- A file that is in no use is renamed; then two processes open it under its new
name, and the second one's lock is refused. -/
theorem inode_locks_exclusive_renamed : ∃ s : State Nat,
    Reachable Initial (Guarded Guard (Step (fun _ => true) 1)) s ∧
    s.handles = [handle 2 0 0, handle 1 0 0] ∧ s.heldThrough (handle 1 0 0) ≠ [] ∧
    s.heldThrough (handle 2 0 0) = [] ∧ Protected s := by
  have hrun : ((createAndRename ++ lockFirst ++ lockSecond 0 0).foldlM nextGuarded empty).map
      (observe (handle 1 0 0) (handle 2 0 0)) =
      some ([handle 2 0 0, handle 1 0 0], [⟨.posix, .wrlck, 0, fsLockEof, 1, 0⟩], []) := by
    decide +kernel
  obtain ⟨s, hs, hobs⟩ := Option.map_eq_some_iff.1 hrun
  have hr := Reachable.of_foldlM nextGuarded step_of_nextGuarded (.init initial_empty) _ hs
  obtain ⟨h1, h2, h3⟩ : s.handles = [handle 2 0 0, handle 1 0 0] ∧
      s.heldThrough (handle 1 0 0) = [⟨.posix, .wrlck, 0, fsLockEof, 1, 0⟩] ∧
      s.heldThrough (handle 2 0 0) = [] := by
    simpa [observe] using hobs
  exact ⟨s, hr, h1, by simp [h2], h3, inode_locks_exclusive hr⟩

/-- A file that is locked gets another name, and is locked there by another process;
and a file that is unlinked while locked keeps a new file of that name from being
locked. -/
theorem locks_stay_with_name : (∃ s : State Nat, Reachable Initial (Step (fun _ => true) 1) s ∧
      handle 1 0 0 ∈ s.handles ∧ handle 2 1 0 ∈ s.handles ∧
      ∃ a ∈ s.heldThrough (handle 1 0 0), ∃ b ∈ s.heldThrough (handle 2 1 0), Conflict a b) ∧
    ∃ s : State Nat, Reachable Initial (Step (fun _ => true) 1) s ∧
      handle 2 0 1 ∈ s.handles ∧ ∃ cur ∈ s.table.held 0,
        Conflict ⟨.posix, .wrlck, 0, fsLockEof, 2, 0⟩ cur ∧
        ∃ q ∈ s.asked 0, q.lock.Like cur ∧ q.inode ≠ (handle 2 0 1).inode := by
  constructor
  · have hrun : ((lockFirst ++ .rename 0 1 false :: lockSecond 1 0).foldlM next empty).map
        (observe (handle 1 0 0) (handle 2 1 0)) =
        some ([handle 2 1 0, handle 1 0 0], [⟨.posix, .wrlck, 0, fsLockEof, 1, 0⟩],
          [⟨.posix, .wrlck, 0, fsLockEof, 2, 0⟩]) := by
      decide +kernel
    obtain ⟨s, hs, hobs⟩ := Option.map_eq_some_iff.1 hrun
    obtain ⟨h1, h2, h3⟩ : s.handles = [handle 2 1 0, handle 1 0 0] ∧
        s.heldThrough (handle 1 0 0) = [⟨.posix, .wrlck, 0, fsLockEof, 1, 0⟩] ∧
        s.heldThrough (handle 2 1 0) = [⟨.posix, .wrlck, 0, fsLockEof, 2, 0⟩] := by
      simpa [observe] using hobs
    refine ⟨s, Reachable.of_foldlM next step_of_next (.init initial_empty) _ hs,
      by simp [h1], by simp [h1], ?_⟩
    rw [h2, h3]
    exact ⟨_, mem_singleton_self _, _, mem_singleton_self _, by decide⟩
  · have hrun : ((lockFirst ++ .unlink 0 false :: lockSecond 0 1).foldlM next empty).map
        (fun s => (s.handles, s.table.held 0, s.asked 0)) =
        some ([handle 2 0 1, handle 1 0 0], [⟨.posix, .wrlck, 0, fsLockEof, 1, 0⟩],
          [⟨1, ⟨.posix, .wrlck, 0, fsLockEof, 2, 0⟩⟩, ⟨0, ⟨.posix, .wrlck, 0, fsLockEof, 1, 0⟩⟩])
        := by
      decide +kernel
    obtain ⟨s, hs, hobs⟩ := Option.map_eq_some_iff.1 hrun
    simp only [Prod.mk.injEq] at hobs
    obtain ⟨h1, h2, h3⟩ := hobs
    refine ⟨s, Reachable.of_foldlM next step_of_next (.init initial_empty) _ hs, by simp [h1], ?_⟩
    rw [h2, h3]
    exact ⟨_, mem_singleton_self _, by decide, _,
      mem_cons_of_mem _ (mem_singleton_self _), .refl _, by decide⟩

end FileLock.Files
