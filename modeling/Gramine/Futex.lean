import Gramine.SafeIteration
import Gramine.Transition

/-!
# Futexes

`libos_futex.c`: threads wait on futexes, which are found by the address of the futex word in
`g_futex_tree`, and other threads wake them or move them to another futex.

A step is what a thread does between taking the first and releasing the last of the futex locks.
A futex that a step leaves without waiters is taken off the tree by a later step of the same thread,
which takes the locks again. A blocked thread can go on at any time (woken, by a timeout or a
signal, or for no reason). Objects have identities that are never reused, and reference counts are
left out; the tree is the list of the objects in it.
-/

open Function

namespace Futex

/-- `uint32_t`. -/
abbrev Word := BitVec 32

/-- The errors of the calls. -/
inductive Errno
  | again
  | nomem
  | inval
  | nosys
  | restartsys
  | timedout
  deriving DecidableEq, Repr

/-- `struct futex_waiter` of a thread. -/
structure FutexWaiter where
  bitset : Word
  futex : Nat
  deriving DecidableEq, Repr

/-- `struct libos_futex`. -/
structure LibosFutex where
  uaddr : Nat
  waiters : List Nat
  inTree : Bool
  deriving DecidableEq, Repr

/-- Where a thread is, between two steps. -/
inductive Pc
  /-- In no call. -/
  | idle
  /-- In `futex_wait`, with the new futex. -/
  | waitCreated (uaddr : Nat) (val bitset : Word)
  /-- In `thread_wait`. -/
  | blocked
  /-- In `futex_requeue`, with the new futex. -/
  | requeueCreated (uaddr1 uaddr2 toWake toRequeue : Nat) (val : Option Word)
  /-- Before `maybe_dequeue_futex` or `maybe_dequeue_two_futexes`. -/
  | dequeue (futexes : List Nat)
  deriving DecidableEq, Repr

/-- `g_futex_tree`, the futexes and the next new one, the waiters and places of the threads, and the
memory of the application. `woken` records the threads taken off a list since they blocked. -/
structure State where
  tree : List Nat
  futexes : Nat → LibosFutex
  fresh : Nat
  waiter : Nat → FutexWaiter
  pc : Nat → Pc
  mem : Nat → Word
  woken : Nat → Bool

/-- The waiters of a futex. -/
def State.waiters (s : State) (f : Nat) : List Nat := (s.futexes f).waiters

/-- What a step did for its call: the bitset that waiters had to match (0 for any), those woken and
those requeued, in this order, and the return value, if there is one. -/
structure Effect where
  bitset : Word
  woken : List Nat
  requeued : List Nat
  ret : Option (Except Errno Nat)

/-- A step that touches no waiter of another thread. -/
def Effect.quiet (ret : Option (Except Errno Nat)) : Effect := ⟨0#32, [], [], ret⟩

/-! ## Futexes and their waiters -/

/-- Other waiters for a futex. -/
def State.setWaiters (s : State) (f : Nat) (l : List Nat) : State :=
  { s with futexes := update s.futexes f { s.futexes f with waiters := l } }

/-- Another place for a thread. -/
def State.setPc (s : State) (tid : Nat) (pc : Pc) : State :=
  { s with pc := update s.pc tid pc }

/-- `find_futex`. -/
def findFutex (s : State) (uaddr : Nat) : Option Nat :=
  s.tree.find? fun f => (s.futexes f).uaddr = uaddr

/-- `create_new_futex` and `enqueue_futex`: the new futex is `s.fresh`. -/
def enqueueNewFutex (s : State) (uaddr : Nat) : State :=
  { s with futexes := update s.futexes s.fresh ⟨uaddr, [], true⟩,
           tree := s.tree ++ [s.fresh], fresh := s.fresh + 1 }

/-- `check_dequeue_futex`. -/
def checkDequeueFutex (s : State) (f : Nat) : Bool := s.waiters f = [] ∧ (s.futexes f).inTree

/-- `_maybe_dequeue_futex`. -/
def maybeDequeueFutex (s : State) (f : Nat) : State :=
  if checkDequeueFutex s f then
    { s with tree := s.tree.erase f,
             futexes := update s.futexes f { s.futexes f with inTree := false } }
  else s

/-- `add_futex_waiter` for the current thread. -/
def addFutexWaiter (s : State) (tid f : Nat) (bitset : Word) : State :=
  { s.setWaiters f (s.waiters f ++ [tid]) with
    waiter := update s.waiter tid ⟨bitset, f⟩,
    woken := update s.woken tid false }

/-- `remove_futex_waiter`. -/
def removeFutexWaiter (s : State) (tid f : Nat) : State :=
  s.setWaiters f ((s.waiters f).erase tid)

/-- `remove_futex_waiter` and `add_thread_to_queue`. -/
def wakeFutexWaiter (s : State) (tid f : Nat) : State :=
  { removeFutexWaiter s tid f with woken := update s.woken tid true }

/-- `move_futex_waiter`. -/
def moveFutexWaiter (s : State) (tid f1 f2 : Nat) : State :=
  let s := removeFutexWaiter s tid f1
  let s := { s with waiter := update s.waiter tid { s.waiter tid with futex := f2 } }
  s.setWaiters f2 (s.waiters f2 ++ [tid])

/-! ## Waking -/

/-- The check of `move_to_wake_queue`; a bitset of 0 is not checked. -/
def Matches (s : State) (bitset : Word) (tid : Nat) : Prop :=
  bitset = 0#32 ∨ (s.waiter tid).bitset &&& bitset ≠ 0#32

instance (s : State) (bitset : Word) (tid : Nat) : Decidable (Matches s bitset tid) :=
  inferInstanceAs (Decidable (_ ∨ _))

/-- The body of the loop of `move_to_wake_queue`, with those woken so far. -/
def wakeBody (f : Nat) (bitset : Word) (toWake : Int) (r : State × List Nat) (tid : Nat) :
    (State × List Nat) × Bool :=
  if ¬ Matches r.1 bitset tid then (r, false)
  else
    let woken := r.2 ++ [tid]
    ((wakeFutexWaiter r.1 tid f, woken), toWake ≤ (woken.length : Int))

/-- The list that the loop of `move_to_wake_queue` goes over. -/
def wakeItems (f : Nat) (r : State × List Nat) : List Nat := r.1.waiters f

/-- `move_to_wake_queue`. -/
def moveToWakeQueue (s : State) (f : Nat) (bitset : Word) (toWake : Int) :
    Option (State × List Nat) :=
  SafeIteration.forEach (wakeItems f) (wakeBody f bitset toWake) ((s.waiters f).length + 1) (s, [])

/-- The end of a step: some futexes may have to be taken off the tree. -/
def finish (s : State) (tid : Nat) (needsDequeue : Bool) (futexes : List Nat) : State :=
  s.setPc tid (if needsDequeue then .dequeue futexes else .idle)

/-- `futex_wake`. -/
def futexWake (s : State) (tid uaddr : Nat) (toWake : Int) (bitset : Word) :
    Option (State × Effect) :=
  if bitset = 0#32 then some (s, .quiet (some (.error .inval)))
  else
    match findFutex s uaddr with
    | none => some (s, .quiet (some (.ok 0)))
    | some f => do
      let (s, woken) ← moveToWakeQueue s f bitset toWake
      some (finish s tid (checkDequeueFutex s f) [f], ⟨bitset, woken, [], some (.ok woken.length)⟩)

/-! ### `FUTEX_WAKE_OP` -/

/-- `wakeop_arg_extend`. -/
def wakeopArgExtend (x : Word) : Word := if 0x800#32 ≤ x then 0xfffff000#32 ||| x else x

/-- `oparg` of `futex_wake_op`. -/
def wakeOpArg (val3 : Word) : Word :=
  let oparg := wakeopArgExtend ((val3 >>> 12) &&& 0xfff#32)
  if (val3 >>> 28) &&& 8#32 ≠ 0#32 then
    let oparg := if oparg.toInt < 0 ∨ 31 < oparg.toInt then oparg &&& 0x1f#32 else oparg
    if oparg = 31#32 then 0x80000000#32 else 1#32 <<< oparg
  else oparg

/-- The operation on the futex word. -/
def wakeOpApply (val3 oldval : Word) : Option Word :=
  let oparg := wakeOpArg val3
  match ((val3 >>> 28) &&& 7#32).toNat with
  | 0 => some oparg
  | 1 => some (oldval + oparg)
  | 2 => some (oldval ||| oparg)
  | 3 => some (oldval &&& ~~~ oparg)
  | 4 => some (oldval ^^^ oparg)
  | _ => none

/-- The comparison with the value of before. -/
def wakeOpCmp (val3 oldval : Word) : Option Bool :=
  let oldval := oldval.toInt
  let cmparg := (wakeopArgExtend (val3 &&& 0xfff#32)).toInt
  match ((val3 >>> 24) &&& 0xf#32).toNat with
  | 0 => some (oldval = cmparg)
  | 1 => some (oldval ≠ cmparg)
  | 2 => some (oldval < cmparg)
  | 3 => some (oldval ≤ cmparg)
  | 4 => some (oldval > cmparg)
  | 5 => some (oldval ≥ cmparg)
  | _ => none

/-- `move_to_wake_queue` on a futex that may not be there, and whether to dequeue it. -/
def wakeOpQueue (s : State) (toWake : Int) : Option Nat → Option (State × List Nat × Bool)
  | none => some (s, [], false)
  | some f => do
    let (s, woken) ← moveToWakeQueue s f 0#32 toWake
    some (s, woken, checkDequeueFutex s f)

/-- `futex_wake_op`. -/
def futexWakeOp (s : State) (tid uaddr1 uaddr2 : Nat) (toWake1 toWake2 : Int) (val3 : Word) :
    Option (State × Effect) :=
  let f1 := findFutex s uaddr1
  let f2 := findFutex s uaddr2
  let oldval := s.mem uaddr2
  match wakeOpApply val3 oldval with
  | none => some (s, .quiet (some (.error .nosys)))
  | some newval =>
    let s := { s with mem := update s.mem uaddr2 newval }
    match wakeOpCmp val3 oldval with
    | none => some (s, .quiet (some (.error .nosys)))
    | some cmpval => do
      let (s, woken1, needsDequeue1) ← wakeOpQueue s toWake1 f1
      let (s, woken2, needsDequeue2) ← wakeOpQueue s toWake2 (if cmpval then f2 else none)
      some (finish s tid (needsDequeue1 || needsDequeue2) (f1.toList ++ f2.toList),
        ⟨0#32, woken1 ++ woken2, [], some (.ok (woken1.length + woken2.length))⟩)

/-! ## Requeueing -/

/-- The body of the loop of `futex_requeue`, with those woken and those requeued so far. -/
def requeueBody (f1 f2 toWake toRequeue : Nat) (r : State × List Nat × List Nat) (tid : Nat) :
    (State × List Nat × List Nat) × Bool :=
  let (s, woken, requeued) := r
  if woken.length < toWake then ((wakeFutexWaiter s tid f1, woken ++ [tid], requeued), false)
  else if requeued.length < toRequeue then
    ((moveFutexWaiter s tid f1 f2, woken, requeued ++ [tid]), false)
  else (r, true)

/-- The list that the loop of `futex_requeue` goes over. -/
def requeueItems (f1 : Nat) (r : State × List Nat × List Nat) : List Nat := r.1.waiters f1

/-- The loop of `futex_requeue`. -/
def requeueLoop (s : State) (f1 f2 toWake toRequeue : Nat) : Option (State × List Nat × List Nat) :=
  SafeIteration.forEach (requeueItems f1) (requeueBody f1 f2 toWake toRequeue)
    ((s.waiters f1).length + toRequeue + 2) (s, [], [])

/-- The part of `futex_requeue` with both locks; `created` is `needs_dequeue2`. -/
def requeueLocked (s : State) (tid uaddr1 f2 : Nat) (created : Bool) (toWake toRequeue : Nat)
    (val : Option Word) : Option (State × Effect) :=
  let f1 := findFutex s uaddr1
  if val.any (fun v => s.mem uaddr1 ≠ v) then
    some (finish s tid created (f1.toList ++ [f2]), .quiet (some (.error .again)))
  else
    match f1 with
    | none => some (finish s tid created [f2], .quiet (some (.ok 0)))
    | some f1 => do
      let (s, woken, requeued) ← requeueLoop s f1 f2 toWake toRequeue
      some (finish s tid (checkDequeueFutex s f1 || checkDequeueFutex s f2) [f1, f2],
        ⟨0#32, woken, requeued, some (.ok (woken.length + requeued.length))⟩)

/-- `futex_requeue`, up to the end or to the creation of a futex. -/
def futexRequeue (s : State) (tid uaddr1 uaddr2 : Nat) (toWake toRequeue : Int)
    (val : Option Word) : Option (State × Effect) :=
  if toWake < 0 ∨ toRequeue < 0 then some (s, .quiet (some (.error .inval)))
  else
    match findFutex s uaddr2 with
    | none =>
      some (s.setPc tid (.requeueCreated uaddr1 uaddr2 toWake.toNat toRequeue.toNat val),
        .quiet none)
    | some f2 => requeueLocked s tid uaddr1 f2 false toWake.toNat toRequeue.toNat val

/-- `futex_requeue` after the creation of a futex. -/
def futexRequeueCreated (s : State) (tid uaddr1 uaddr2 toWake toRequeue : Nat)
    (val : Option Word) : Option (State × Effect) :=
  match findFutex s uaddr2 with
  | none =>
    requeueLocked (enqueueNewFutex s uaddr2) tid uaddr1 s.fresh true toWake toRequeue val
  | some f2 => requeueLocked s tid uaddr1 f2 true toWake toRequeue val

/-! ## Waiting -/

/-- The part of `futex_wait` with the lock of the futex. -/
def waitLocked (s : State) (tid uaddr f : Nat) (val bitset : Word) : State × Effect :=
  if s.mem uaddr ≠ val then
    (finish s tid (checkDequeueFutex s f) [f], .quiet (some (.error .again)))
  else ((addFutexWaiter s tid f bitset).setPc tid .blocked, .quiet none)

/-- `futex_wait`, up to blocking or to the creation of a futex. -/
def futexWait (s : State) (tid uaddr : Nat) (val bitset : Word) : State × Effect :=
  match findFutex s uaddr with
  | none => (s.setPc tid (.waitCreated uaddr val bitset), .quiet none)
  | some f => waitLocked s tid uaddr f val bitset

/-- `futex_wait` after the creation of a futex. -/
def futexWaitCreated (s : State) (tid uaddr : Nat) (val bitset : Word) : State × Effect :=
  match findFutex s uaddr with
  | none => waitLocked (enqueueNewFutex s uaddr) tid uaddr s.fresh val bitset
  | some f => waitLocked s tid uaddr f val bitset

/-- What `thread_wait` returns. -/
inductive WaitResult
  | ok
  | timedout
  | intr
  deriving DecidableEq, Repr

/-- `futex_wait` after `thread_wait`. -/
def futexWaitResume (s : State) (tid : Nat) (ret : WaitResult) : State × Effect :=
  let f := (s.waiter tid).futex
  if tid ∈ s.waiters f then
    let s := removeFutexWaiter s tid f
    (finish s tid (checkDequeueFutex s f) [f],
      .quiet (some (.error (if ret = .timedout then .timedout else .restartsys))))
  else
    (finish s tid (checkDequeueFutex s f) [f],
      .quiet (some (if ret = .timedout then .error .timedout else .ok 0)))

/-! ## Runs -/

/-- The steps of a thread, and a write by the application to its memory. -/
inductive Label
  | wait (tid uaddr : Nat) (val bitset : Word)
  | waitCreate (tid : Nat) (allocated : Bool)
  | resume (tid : Nat) (ret : WaitResult)
  | wake (tid uaddr : Nat) (toWake : Int) (bitset : Word)
  | wakeOp (tid uaddr1 uaddr2 : Nat) (toWake1 toWake2 : Int) (val3 : Word)
  | requeue (tid uaddr1 uaddr2 : Nat) (toWake toRequeue : Int) (val : Option Word)
  | requeueCreate (tid : Nat) (allocated : Bool)
  | dequeue (tid : Nat)
  | write (addr : Nat) (val : Word)

/-- What a step does; `none` if the thread is not where the step starts. -/
def exec (s : State) : Label → Option (State × Effect)
  | .wait tid uaddr val bitset =>
    if s.pc tid = .idle then some (futexWait s tid uaddr val bitset) else none
  | .waitCreate tid allocated =>
    match s.pc tid with
    | .waitCreated uaddr val bitset =>
      if allocated then some (futexWaitCreated s tid uaddr val bitset)
      else some (s.setPc tid .idle, .quiet (some (.error .nomem)))
    | _ => none
  | .resume tid ret =>
    if s.pc tid = .blocked then some (futexWaitResume s tid ret) else none
  | .wake tid uaddr toWake bitset =>
    if s.pc tid = .idle then futexWake s tid uaddr toWake bitset else none
  | .wakeOp tid uaddr1 uaddr2 toWake1 toWake2 val3 =>
    if s.pc tid = .idle then futexWakeOp s tid uaddr1 uaddr2 toWake1 toWake2 val3 else none
  | .requeue tid uaddr1 uaddr2 toWake toRequeue val =>
    if s.pc tid = .idle then futexRequeue s tid uaddr1 uaddr2 toWake toRequeue val else none
  | .requeueCreate tid allocated =>
    match s.pc tid with
    | .requeueCreated uaddr1 uaddr2 toWake toRequeue val =>
      if allocated then futexRequeueCreated s tid uaddr1 uaddr2 toWake toRequeue val
      else some (s.setPc tid .idle, .quiet (some (.error .nomem)))
    | _ => none
  | .dequeue tid =>
    match s.pc tid with
    | .dequeue futexes =>
      some ((futexes.foldl maybeDequeueFutex s).setPc tid .idle, .quiet none)
    | _ => none
  | .write addr val =>
    some ({ s with mem := update s.mem addr val }, .quiet none)

/-- No futex, and all threads idle. -/
def initial (mem : Nat → Word) : State :=
  ⟨[], fun _ => ⟨0, [], false⟩, 0, fun _ => ⟨0, 0⟩, fun _ => .idle, mem, fun _ => false⟩

/-- One step. -/
def Step (s : State) (l : Label) (s' : State) : Prop := ∃ e, exec s l = some (s', e)

/-- The states of all runs, from any contents of the memory. -/
def Reachable (s : State) : Prop := Transition.Reachable (fun s => ∃ mem, s = initial mem) Step s

/-! ## The system call -/

/-- The commands. -/
inductive Cmd
  | wait
  | waitBitset
  | wake
  | wakeBitset
  | wakeOp
  | requeue
  | cmpRequeue
  deriving DecidableEq, Repr

/-- `FUTEX_BITSET_MATCH_ANY`. -/
def bitsetMatchAny : Word := 0xffffffff#32

/-- `_libos_syscall_futex` after its checks: the call with these arguments. Counts are converted
from `uint32_t` to `int`. -/
def syscallFutex (tid uaddr : Nat) (cmd : Cmd) (val val2 : Word) (uaddr2 : Nat) (val3 : Word) :
    Label :=
  match cmd with
  | .wait => .wait tid uaddr val bitsetMatchAny
  | .waitBitset => .wait tid uaddr val val3
  | .wake => .wake tid uaddr val.toInt bitsetMatchAny
  | .wakeBitset => .wake tid uaddr val.toInt val3
  | .wakeOp => .wakeOp tid uaddr uaddr2 val.toInt val2.toInt val3
  | .requeue => .requeue tid uaddr uaddr2 val.toInt val2.toInt none
  | .cmpRequeue => .requeue tid uaddr uaddr2 val.toInt val2.toInt (some val3)

end Futex
