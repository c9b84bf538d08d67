import Gramine.Fallible
import Gramine.Transition

/-!
# Epoll

`sys/libos_epoll.c`. An item says that an epoll instance watches a descriptor. It is in two lists,
one of its epoll, guarded by `epoll->lock`, and one of the handle behind the descriptor, guarded by
`handle->lock`; each list has a counter next to it. The item goes away when both lists and all
operations under way have dropped it, and drops its references to the two handles then.

A section under `handle->lock` is a single step. A section under `epoll->lock` that takes
`handle->lock` inside is not: the lock is part of the state, and other threads may run between
the parts. A section that does not is a single step, from a state in which the lock is free.
-/

open Function

namespace Epoll

inductive Errno
  | ebadf
  | eexist
  | efault
  | einval
  | enoent
  | enomem
  | eperm
  /-- What `PalStreamsWaitEvents` failed with. -/
  | pal (code : Nat)
  deriving DecidableEq, Repr

inductive Fault
  /-- A failed assertion. -/
  | assertion
  /-- A reference to an object that is already gone: taken, or put once more. -/
  | refcount
  deriving DecidableEq, Repr

abbrev Flags := BitVec 32

def epollin : Flags := 0x1
def epollout : Flags := 0x4
def epollerr : Flags := 0x8
def epollhup : Flags := 0x10
def epollrdnorm : Flags := 0x40
def epollwrnorm : Flags := 0x100
def epollexclusive : Flags := 1 <<< 28
def epollwakeup : Flags := 1 <<< 29
def epolloneshot : Flags := 1 <<< 30
def epollet : Flags := 1 <<< 31

/-- `EPOLL_NEEDS_REARM`, a bit that no event has. -/
def epollNeedsRearm : Flags := 1 <<< 24

/-- `flags & mask`, as a condition. -/
def Flags.has (flags mask : Flags) : Bool := flags &&& mask ≠ 0

/-- `WITHIN_MASK`. -/
def Flags.within (flags mask : Flags) : Bool := flags ||| mask = mask

inductive HandleType
  | pipe
  | sock
  | eventfd
  | epoll
  | other
  deriving DecidableEq, Repr

/-- The fields of `struct libos_handle` that matter here; `mayRead` and `mayWrite` are
`acc_mode`. -/
structure Handle where
  type : HandleType
  mayRead : Bool
  mayWrite : Bool
  epollItems : List Nat
  epollItemsCount : Nat
  needsEtPollIn : Bool
  needsEtPollOut : Bool
  deriving DecidableEq, Repr

/-- `struct libos_epoll_handle`, with the thread that holds the lock. -/
structure EpollHandle (T : Type) where
  items : List Nat
  itemsCount : Nat
  waiters : List T
  lock : Option T
  deriving DecidableEq, Repr

/-- `struct libos_epoll_item`, without the links and the reference count. -/
structure Item where
  epollHandle : Nat
  handle : Nat
  fd : Nat
  events : Flags
  data : BitVec 64
  deriving DecidableEq, Repr

/-- `struct epoll_event`. -/
structure Event where
  events : Flags
  data : BitVec 64
  deriving DecidableEq, Repr

/-- The objects by number. `epoll` has `handle->info.epoll`; the `ref_count` of an item or a handle
that is gone is 0; `fds` has the descriptors of all handle maps, with their handles. -/
structure Heap (T : Type) where
  handle : Nat → Handle
  epoll : Nat → EpollHandle T
  handleRefCount : Nat → Nat
  item : Nat → Item
  itemRefCount : Nat → Nat
  nextHandle : Nat
  nextItem : Nat
  fds : List (Nat × Nat)

variable {T : Type}

namespace Heap

def setHandle (m : Heap T) (h : Nat) (x : Handle) : Heap T :=
  { m with handle := update m.handle h x }

def setEpoll (m : Heap T) (e : Nat) (x : EpollHandle T) : Heap T :=
  { m with epoll := update m.epoll e x }

def setItem (m : Heap T) (i : Nat) (x : Item) : Heap T :=
  { m with item := update m.item i x }

def setHandleRefCount (m : Heap T) (h n : Nat) : Heap T :=
  { m with handleRefCount := update m.handleRefCount h n }

def setItemRefCount (m : Heap T) (i n : Nat) : Heap T :=
  { m with itemRefCount := update m.itemRefCount i n }

/-- `lock(&epoll->lock)` and `unlock(&epoll->lock)`. -/
def setLock (m : Heap T) (e : Nat) (owner : Option T) : Heap T :=
  m.setEpoll e { m.epoll e with lock := owner }

end Heap

/-! ## Reference counts -/

def getHandle (h : Nat) (m : Heap T) : Except Fault (Heap T) :=
  if m.handleRefCount h = 0 then throw .refcount
  else pure (m.setHandleRefCount h (m.handleRefCount h + 1))

/-- What `epoll_close` asserts. -/
def epollClose [DecidableEq T] (x : EpollHandle T) : Except Fault Unit :=
  if x.waiters ≠ [] ∨ x.items ≠ [] ∨ x.itemsCount ≠ 0 then throw .assertion else pure ()

/-- `put_handle`; the last reference destroys the handle. -/
def putHandle [DecidableEq T] (h : Nat) (m : Heap T) : Except Fault (Heap T) := do
  if m.handleRefCount h = 0 then throw .refcount
  else
    let m := m.setHandleRefCount h (m.handleRefCount h - 1)
    if m.handleRefCount h = 0 then
      if (m.handle h).epollItemsCount ≠ 0 ∨ (m.handle h).epollItems ≠ [] then throw .assertion
      else if (m.handle h).type = .epoll then epollClose (m.epoll h)
      else pure ()
    pure m

def getEpollItem (i : Nat) (m : Heap T) : Except Fault (Heap T) :=
  if m.itemRefCount i = 0 then throw .refcount
  else pure (m.setItemRefCount i (m.itemRefCount i + 1))

/-- `put_epoll_item`; the last reference frees the item. -/
def putEpollItem [DecidableEq T] (i : Nat) (m : Heap T) : Except Fault (Heap T) := do
  if m.itemRefCount i = 0 then throw .refcount
  else
    let m := m.setItemRefCount i (m.itemRefCount i - 1)
    if m.itemRefCount i = 0 then
      let m ← putHandle (m.item i).epollHandle m
      putHandle (m.item i).handle m
    else pure m

/-- The loops that collect items: each gets a reference. -/
def getEpollItems (items : List Nat) (m : Heap T) : Except Fault (Heap T) :=
  items.foldlM (fun m i => getEpollItem i m) m

/-! ## The lists -/

/-- `_interrupt_epoll_waiters`. -/
def interruptEpollWaiters (e : Nat) (m : Heap T) : Heap T :=
  m.setEpoll e { m.epoll e with waiters := [] }

/-- The item goes into the list of its epoll. -/
def linkEpoll (i : Nat) (m : Heap T) : Except Fault (Heap T) := do
  let e := (m.item i).epollHandle
  let m := m.setEpoll e { m.epoll e with items := (m.epoll e).items ++ [i] }
  let m ← getEpollItem i m
  pure (m.setEpoll e { m.epoll e with itemsCount := (m.epoll e).itemsCount + 1 })

/-- The item goes into the list of its handle. -/
def linkHandle (i : Nat) (m : Heap T) : Except Fault (Heap T) := do
  let h := (m.item i).handle
  let m := m.setHandle h { m.handle h with epollItems := (m.handle h).epollItems ++ [i] }
  let m ← getEpollItem i m
  pure (m.setHandle h { m.handle h with epollItemsCount := (m.handle h).epollItemsCount + 1 })

/-- `_unlink_epoll_item`, the section under `handle->lock`. -/
def unlinkHandle [DecidableEq T] (i : Nat) (m : Heap T) : Except Fault (Heap T) :=
  let h := (m.item i).handle
  if i ∈ (m.handle h).epollItems then
    putEpollItem i (m.setHandle h { m.handle h with
      epollItems := (m.handle h).epollItems.erase i
      epollItemsCount := (m.handle h).epollItemsCount - 1 })
  else pure m

/-- The rest of `_unlink_epoll_item`. -/
def unlinkEpoll [DecidableEq T] (i : Nat) (m : Heap T) : Except Fault (Heap T) :=
  let e := (m.item i).epollHandle
  if i ∈ (m.epoll e).items then
    putEpollItem i (m.setEpoll e { m.epoll e with
      items := (m.epoll e).items.erase i
      itemsCount := (m.epoll e).itemsCount - 1 })
  else pure m

/-- An item with this descriptor and handle in the list of an epoll. -/
def Heap.find (m : Heap T) (e fd h : Nat) : Option Nat :=
  (m.epoll e).items.find? fun i => (m.item i).fd = fd ∧ (m.item i).handle = h

/-- An item with this descriptor in the list of a handle; the handles of the items seen on the way
are compared. -/
def Heap.findFd (m : Heap T) (fd h : Nat) : Except Fault (Option Nat) :=
  (m.handle h).epollItems.foldr
    (fun i rest =>
      if (m.item i).handle ≠ h then throw .assertion
      else if (m.item i).fd = fd then pure (some i) else rest)
    (pure none)

/-- `needs_et_poll_in` and `needs_et_poll_out` are set. -/
def setNeedsEt (h : Nat) (events : Flags) (m : Heap T) : Heap T :=
  if events.has epollet then
    m.setHandle h { m.handle h with needsEtPollIn := true, needsEtPollOut := true }
  else m

/-! ## The operations -/

inductive Op
  | add (event : Event)
  | mod (event : Event)
  | del
  | invalid
  deriving DecidableEq, Repr

/-- The answers from outside: what `get_fd_handle` finds for `fd`, whether the application's memory
is accessible, whether `malloc` succeeds, which items have a PAL handle, and what
`PalStreamsWaitEvents` returns: an error, or the items with the events that are reported. -/
structure Env where
  found : Option Nat
  accessible : Bool
  allocated : Bool
  hasPalHandle : Nat → Bool
  polled : Except Errno (List (Nat × Flags))

/-- The checks of `epoll_ctl`, and those that `do_epoll_add` and `do_epoll_mod` begin with. -/
def ctlCheck (m : Heap T) (epfd e fd h : Nat) (op : Op) (env : Env) : Except Errno Unit :=
  if epfd = fd ∨ (m.handle e).type ≠ .epoll then .error .einval
  else
    match (m.handle h).type with
    | .pipe | .sock | .eventfd =>
      match op with
      | .add event =>
        if env.accessible = false then .error .efault
        else if event.events.has epollexclusive ∧ event.events.within (epollin ||| epollout |||
            epollhup ||| epollerr ||| epollwakeup ||| epollet ||| epollexclusive) = false then
          .error .einval
        else if env.allocated = false then .error .enomem
        else .ok ()
      | .mod event =>
        if env.accessible = false then .error .efault
        else if event.events.has epollexclusive then .error .einval
        else .ok ()
      | .del => .ok ()
      | .invalid => .error .einval
    | _ => .error .eperm

/-- The events of a new item. -/
def newEvents (x : Handle) (event : Event) : Flags :=
  let events := event.events &&& ~~~epollNeedsRearm
  let events := if x.mayRead then events else events &&& ~~~(epollin ||| epollrdnorm)
  if x.mayWrite then events else events &&& ~~~(epollout ||| epollwrnorm)

/-- An item with one reference. -/
def Heap.addItem (m : Heap T) (x : Item) : Heap T :=
  { m with
    item := update m.item m.nextItem x
    itemRefCount := update m.itemRefCount m.nextItem 1
    nextItem := m.nextItem + 1 }

/-- The new item of `do_epoll_add`, with its references to the handles. -/
def newItem (e h fd : Nat) (event : Event) (m : Heap T) : Except Fault (Heap T) := do
  let m ← getHandle h m
  let m ← getHandle e m
  pure (m.addItem ⟨e, h, fd, newEvents (m.handle h) event, event.data⟩)

/-- The section of `do_epoll_mod`. -/
def epollMod (e h fd : Nat) (event : Event) (m : Heap T) : Except Errno Unit × Heap T :=
  match m.find e fd h with
  | none => (.error .enoent, m)
  | some i =>
    if (m.item i).events.has epollexclusive then (.error .einval, m)
    else
      let m := m.setItem i { m.item i with
        events := event.events &&& ~~~epollNeedsRearm
        data := event.data }
      let m := setNeedsEt h (m.item i).events m
      (.ok (), interruptEpollWaiters e m)

/-- The items that `do_epoll_wait` waits for. -/
def gathered (m : Heap T) (e : Nat) (env : Env) : List Nat :=
  (m.epoll e).items.filter fun i =>
    env.hasPalHandle i && !(m.item i).events.has epollNeedsRearm

/-- `needs_et_poll_in` and `needs_et_poll_out` are cleared, if these events are reported. -/
def clearNeedsEt (h : Nat) (events reported : Flags) (m : Heap T) : Heap T :=
  if events.has epollet then
    m.setHandle h { m.handle h with
      needsEtPollIn := (m.handle h).needsEtPollIn && !reported.has (epollin ||| epollrdnorm)
      needsEtPollOut := (m.handle h).needsEtPollOut && !reported.has (epollout ||| epollwrnorm) }
  else m

/-- An item for which `this_item_events` are reported. -/
def reportItem (m : Heap T) (r : Nat × Flags) : Heap T :=
  let m := clearNeedsEt (m.item r.1).handle (m.item r.1).events r.2 m
  if (m.item r.1).events.has epolloneshot then
    m.setItem r.1 { m.item r.1 with events := (m.item r.1).events ||| epollNeedsRearm }
  else m

/-- Who called `_unlink_epoll_item`. -/
inductive Caller
  /-- `do_epoll_del`. -/
  | del (h : Nat)
  /-- `delete_epoll_items_for_fd`. -/
  | delete (fd h : Nat)
  deriving DecidableEq, Repr

/-- What a thread goes on with after it has put its references to items. -/
inductive Cont
  | ctl (e h : Nat) (ret : Except Errno Unit)
  | delete (fd h : Nat)
  | interrupt (h : Nat)
  /-- Under `epoll->lock`; the loop of `do_epoll_wait` goes on if there is nothing to return. -/
  | wait (e : Nat) (ret : Option (Except Errno Unit))
  deriving DecidableEq

/-- Where a thread is. -/
inductive Pc
  | idle
  /-- `epoll_ctl` has a reference to the epoll. -/
  | ctlEpoll (epfd e fd : Nat) (op : Op)
  /-- And one to the handle. -/
  | ctl (epfd e fd h : Nat) (op : Op)
  /-- `do_epoll_add` with its new item, before `epoll->lock`. -/
  | adding (e h i : Nat)
  /-- Under `epoll->lock`, before `handle->lock`. -/
  | linking (e h i : Nat)
  /-- `do_epoll_mod`, before `epoll->lock`. -/
  | modifying (e h fd : Nat) (event : Event)
  /-- `do_epoll_del`, before `epoll->lock`. -/
  | removing (e h fd : Nat)
  /-- `_unlink_epoll_item`, before `handle->lock`. -/
  | unlinking (e i : Nat) (caller : Caller)
  /-- And after it. -/
  | unlinkingEpoll (e i : Nat) (caller : Caller)
  /-- The loop of `delete_epoll_items_for_fd`. -/
  | deleting (fd h : Nat)
  /-- It has found an item. -/
  | found (fd h i : Nat)
  /-- `interrupt_epolls`. -/
  | collecting (h : Nat)
  | interrupting (h : Nat) (items todo : List Nat)
  /-- The loop of `do_epoll_wait`. -/
  | gathering (e : Nat)
  /-- `PalStreamsWaitEvents`. -/
  | waiting (e : Nat) (items : List Nat)
  | putting (items : List Nat) (k : Cont)
  /-- The references to handles are put. -/
  | leaving (handles : List Nat) (ret : Except Errno Unit)
  deriving DecidableEq

structure State (T : Type) where
  heap : Heap T
  pc : T → Pc

/-- The call of an idle thread, with the handle that it finds for its descriptor. -/
inductive Call
  | epollCtl (epfd e fd : Nat) (op : Op)
  /-- `close`, and the other callers of `__detach_fd_handle`. -/
  | close (fd h : Nat)
  /-- An operation on the handle that calls `interrupt_epolls`. -/
  | interruptEpolls (fd h : Nat)
  | epollWait (epfd e : Nat)

/-- The descriptor and the handle of a call. -/
def Call.entry : Call → Nat × Nat
  | .epollCtl epfd e _ _ => (epfd, e)
  | .close fd h => (fd, h)
  | .interruptEpolls fd h => (fd, h)
  | .epollWait epfd e => (epfd, e)

inductive Label (T : Type)
  /-- A new handle with a descriptor. -/
  | openHandle (fd : Nat) (type : HandleType) (mayRead mayWrite : Bool)
  /-- Another descriptor for the handle of `fd`. -/
  | dup (fd h newfd : Nat)
  | call (t : T) (c : Call)
  | run (t : T) (env : Env)

/-- The epoll whose lock a thread takes next. -/
def Pc.locks (m : Heap T) : Pc → Option Nat
  | .adding e _ _ | .modifying e _ _ _ | .removing e _ _ | .gathering e | .waiting e _ => some e
  | .found _ _ i => some (m.item i).epollHandle
  | .interrupting _ _ (i :: _) => some (m.item i).epollHandle
  | _ => none

/-- The handle that `get_fd_handle` finds for the second descriptor is there. -/
def Pc.finds (m : Heap T) (env : Env) : Pc → Prop
  | .ctlEpoll _ _ fd _ => ∀ h ∈ env.found, (fd, h) ∈ m.fds
  | _ => True

instance (m : Heap T) (env : Env) (p : Pc) : Decidable (p.finds m env) := by
  cases p <;> unfold Pc.finds <;> infer_instance

/-- What has to be the case for a step. -/
def State.Enabled (s : State T) : Label T → Prop
  | .openHandle .. => True
  | .dup fd h _ => (fd, h) ∈ s.heap.fds
  | .call t c => s.pc t = .idle ∧ c.entry ∈ s.heap.fds
  | .run t env => s.pc t ≠ .idle ∧ (s.pc t).finds s.heap env ∧
      ∀ e ∈ (s.pc t).locks s.heap, (s.heap.epoll e).lock = none

instance [DecidableEq T] (s : State T) (l : Label T) : Decidable (s.Enabled l) := by
  cases l <;> unfold State.Enabled <;> infer_instance

section Exec
variable [DecidableEq T]

/-- `epoll_ctl` after the handles have been found. -/
def execCtl (epfd e fd h : Nat) (op : Op) (env : Env) (m : Heap T) : Except Fault (Heap T × Pc) :=
  match ctlCheck m epfd e fd h op env with
  | .error err => pure (m, .leaving [e, h] (.error err))
  | .ok () =>
    match op with
    | .add event => do
      let m' ← newItem e h fd event m
      pure (m', .adding e h m.nextItem)
    | .mod event => pure (m, .modifying e h fd event)
    | .del => pure (m, .removing e h fd)
    | .invalid => pure (m, .leaving [e, h] (.error .einval))

/-- `do_epoll_add` under `epoll->lock`, up to `handle->lock`. -/
def execAdding (t : T) (e h i : Nat) (m : Heap T) : Except Fault (Heap T × Pc) :=
  match m.find e (m.item i).fd h with
  | some _ => pure (m, .putting [i] (.ctl e h (.error .eexist)))
  | none => do
    let m ← linkEpoll i m
    pure (m.setLock e (some t), .linking e h i)

/-- And from there to the end of the section. -/
def execLinking (e h i : Nat) (m : Heap T) : Except Fault (Heap T × Pc) := do
  let m ← linkHandle i m
  let m := interruptEpollWaiters e (setNeedsEt h (m.item i).events m)
  pure (m.setLock e none, .putting [i] (.ctl e h (.ok ())))

/-- `do_epoll_del` under `epoll->lock`, up to `handle->lock`. -/
def execRemoving (t : T) (e h fd : Nat) (m : Heap T) : Except Fault (Heap T × Pc) :=
  match m.find e fd h with
  | none => pure (m, .leaving [e, h] (.error .enoent))
  | some i => do
    let m ← getEpollItem i m
    pure (m.setLock e (some t), .unlinking e i (.del h))

/-- The end of the section after `_unlink_epoll_item`. -/
def execUnlinkingEpoll (e i : Nat) (caller : Caller) (m : Heap T) : Except Fault (Heap T × Pc) := do
  let m ← unlinkEpoll i m
  let m := interruptEpollWaiters e m
  match caller with
  | .del h => do
    let m ← putEpollItem i m
    pure (m.setLock e none, .leaving [e, h] (.ok ()))
  | .delete fd h => pure (m.setLock e none, .putting [i] (.delete fd h))

/-- The search of `delete_epoll_items_for_fd`. -/
def execDeleting (fd h : Nat) (m : Heap T) : Except Fault (Heap T × Pc) := do
  match ← m.findFd fd h with
  | none => pure (m, .leaving [h] (.ok ()))
  | some i => do
    let m ← getEpollItem i m
    pure (m, .found fd h i)

/-- The first section of `interrupt_epolls`. -/
def execCollecting (h : Nat) (m : Heap T) : Except Fault (Heap T × Pc) := do
  let items := (m.handle h).epollItems
  let m ← getEpollItems items m
  if items.length ≠ (m.handle h).epollItemsCount then throw .assertion
  else pure (m, .interrupting h items items)

/-- `do_epoll_wait` collects its items and joins the waiters; the arrays have to be allocated. -/
def execGathering (t : T) (e : Nat) (env : Env) (m : Heap T) : Except Fault (Heap T × Pc) :=
  if env.allocated = false then pure (m, .leaving [e] (.error .enomem))
  else do
    let items := gathered m e env
    let m ← getEpollItems items m
    pure (m.setEpoll e { m.epoll e with waiters := (m.epoll e).waiters ++ [t] }, .waiting e items)

/-- `do_epoll_wait` after `PalStreamsWaitEvents`. -/
def execWaiting (t : T) (e : Nat) (items : List Nat) (env : Env) (m : Heap T) : Heap T × Pc :=
  let m := m.setEpoll e { m.epoll e with waiters := (m.epoll e).waiters.erase t, lock := some t }
  match env.polled with
  | .error err => (m, .putting items (.wait e (some (.error err))))
  | .ok reported =>
    let reported := reported.filter (·.1 ∈ items)
    (reported.foldl reportItem m,
      .putting items (.wait e (if reported = [] then none else some (.ok ()))))

/-- All references to items have been put. -/
def execCont (m : Heap T) : Cont → Heap T × Pc
  | .ctl e h ret => (m, .leaving [e, h] ret)
  | .delete fd h => (m, .deleting fd h)
  | .interrupt h => (m, .leaving [h] (.ok ()))
  | .wait e (some ret) => (m.setLock e none, .leaving [e] ret)
  | .wait e none => (m.setLock e none, .gathering e)

/-- The next step of a thread. -/
def execPc (t : T) (env : Env) (m : Heap T) : Pc → Except Fault (Heap T × Pc)
  | .idle => pure (m, .idle)
  | .ctlEpoll epfd e fd op =>
    match env.found with
    | none => pure (m, .leaving [e] (.error .ebadf))
    | some h => do
      let m ← getHandle h m
      pure (m, .ctl epfd e fd h op)
  | .ctl epfd e fd h op => execCtl epfd e fd h op env m
  | .adding e h i => execAdding t e h i m
  | .linking e h i => execLinking e h i m
  | .modifying e h fd event =>
    pure ((epollMod e h fd event m).2, .leaving [e, h] (epollMod e h fd event m).1)
  | .removing e h fd => execRemoving t e h fd m
  | .unlinking e i caller => do
    let m ← unlinkHandle i m
    pure (m, .unlinkingEpoll e i caller)
  | .unlinkingEpoll e i caller => execUnlinkingEpoll e i caller m
  | .deleting fd h => execDeleting fd h m
  | .found fd h i =>
    let e := (m.item i).epollHandle
    pure (m.setLock e (some t), .unlinking e i (.delete fd h))
  | .collecting h => execCollecting h m
  | .interrupting h items [] => pure (m, .putting items (.interrupt h))
  | .interrupting h items (i :: todo) =>
    pure (interruptEpollWaiters (m.item i).epollHandle m, .interrupting h items todo)
  | .gathering e => execGathering t e env m
  | .waiting e items => pure (execWaiting t e items env m)
  | .putting [] k => pure (execCont m k)
  | .putting (i :: items) k => do
    let m ← putEpollItem i m
    pure (m, .putting items k)
  | .leaving [] _ => pure (m, .idle)
  | .leaving (h :: handles) ret => do
    let m ← putHandle h m
    pure (m, .leaving handles ret)

/-- The first step of a call. -/
def execCall (m : Heap T) : Call → Except Fault (Heap T × Pc)
  | .epollCtl epfd e fd op => do
    let m ← getHandle e m
    pure (m, .ctlEpoll epfd e fd op)
  | .close fd h => pure ({ m with fds := m.fds.erase (fd, h) }, .deleting fd h)
  | .interruptEpolls _ h => do
    let m ← getHandle h m
    pure (m, .collecting h)
  | .epollWait _ e => do
    let m ← getHandle e m
    pure (m, if (m.handle e).type = .epoll then .gathering e else .leaving [e] (.error .einval))

def State.goto (s : State T) (t : T) (r : Heap T × Pc) : State T :=
  { s with heap := r.1, pc := update s.pc t r.2 }

/-- A handle with one reference. -/
def Heap.addHandle (m : Heap T) (x : Handle) : Heap T :=
  { m with
    handle := update m.handle m.nextHandle x
    epoll := update m.epoll m.nextHandle ⟨[], 0, [], none⟩
    handleRefCount := update m.handleRefCount m.nextHandle 1
    nextHandle := m.nextHandle + 1 }

/-- The effect of a step. -/
def exec (s : State T) : Label T → Except Fault (State T)
  | .openHandle fd type mayRead mayWrite =>
    let m := s.heap.addHandle ⟨type, mayRead, mayWrite, [], 0, false, false⟩
    pure { s with heap := { m with fds := (fd, s.heap.nextHandle) :: m.fds } }
  | .dup _ h newfd => do
    let m ← getHandle h s.heap
    pure { s with heap := { m with fds := (newfd, h) :: m.fds } }
  | .call t c => do
    let r ← execCall s.heap c
    pure (s.goto t r)
  | .run t env => do
    let r ← execPc t env s.heap (s.pc t)
    pure (s.goto t r)

end Exec

/-- A step that the program can take. -/
def Step [DecidableEq T] (s : State T) (l : Label T) (s' : State T) : Prop :=
  s.Enabled l ∧ exec s l = .ok s'

/-- No handles, no items, and no calls. -/
structure Initial (s : State T) : Prop where
  idle : ∀ t, s.pc t = .idle
  fds : s.heap.fds = []
  handles : ∀ h, s.heap.handleRefCount h = 0
  items : ∀ i, s.heap.itemRefCount i = 0
  nextItem : s.heap.nextItem = 0
  lists : ∀ h, (s.heap.handle h).epollItems = [] ∧ (s.heap.handle h).epollItemsCount = 0 ∧
    s.heap.epoll h = ⟨[], 0, [], none⟩

end Epoll
