import Gramine.Signal
import Gramine.Transition

/-!
# Pending signals of threads and processes

The queues of `Gramine.Signal` in use: signals are appended to the queue of a thread or of a
process, and every thread takes unblocked signals from its own queue and from that of its process.
A thread is created in the same process, or as the first thread of a forked child: the child gets
a checkpoint of a thread that the parent made for it.

Every part of a call under the locks is one step. The run also records, for each queue, the signals
that were put there and those that were taken.
-/

open Function List

namespace Signal

open SignalQueue

/-! ## Threads and processes -/

/-- The counters are `uint64_t`. -/
def incCnt (n : Nat) : Nat := (n + 1) % 2 ^ 64

/-- The counters are `uint64_t`. -/
def decCnt (n : Nat) : Nat := (n + (2 ^ 64 - 1)) % 2 ^ 64

/-- `struct libos_thread`: its signals. -/
structure Thread where
  signalMask : Sigset
  signalQueue : SignalQueue
  pendingSignals : Nat

/-- A process: its threads by `tid`, `g_process_signal_queue`, `g_process_pending_signals_cnt` and
`g_host_injected_signal`. -/
structure Process where
  threads : Nat → Option Thread
  processSignalQueue : SignalQueue
  processPendingSignalsCnt : Nat
  hostInjectedSignal : Int

/-- `append_thread_signal`. -/
def appendThreadSignal (t : Thread) (signal : Siginfo) : Thread × Bool :=
  let (q, ret) := queueAppendSignal t.signalQueue signal
  ({ t with signalQueue := q,
            pendingSignals := if ret then incCnt t.pendingSignals else t.pendingSignals }, ret)

/-- `append_process_signal`. -/
def appendProcessSignal (p : Process) (signal : Siginfo) : Process × Bool :=
  let (q, ret) := queueAppendSignal p.processSignalQueue signal
  let cnt := p.processPendingSignalsCnt
  ({ p with processSignalQueue := q,
            processPendingSignalsCnt := if ret then incCnt cnt else cnt }, ret)

/-- Where a signal was found. -/
inductive Origin
  | thread
  | process
  | host
  deriving DecidableEq, Repr

/-- The loop of `pop_unblocked_signal` over the signals. -/
def popLoop (blocked : Sigset) (t : Thread) (p : Process) :
    List Nat → Thread × Process × Option (Origin × Siginfo)
  | [] => (t, p, none)
  | sig :: sigs =>
    if sigismember blocked sig then popLoop blocked t p sigs
    else
      match popSignal t.signalQueue sig with
      | some (q, signal) =>
        ({ t with signalQueue := q, pendingSignals := decCnt t.pendingSignals }, p,
          some (.thread, signal))
      | none =>
        match popSignal p.processSignalQueue sig with
        | some (q, signal) =>
          (t, { p with processSignalQueue := q,
                       processPendingSignalsCnt := decCnt p.processPendingSignalsCnt },
            some (.process, signal))
        | none => popLoop blocked t p sigs

/-- `SI_USER`. -/
def siUser : Int := 0

/-- `pop_unblocked_signal`. The first check reads the two counters without locks; `seen` is what it
saw, which may be old. -/
def popUnblockedSignal (mask : Option Sigset) (seen : Nat × Nat) (t : Thread) (p : Process) :
    Thread × Process × Option (Origin × Siginfo) :=
  let blocked := mask.getD t.signalMask
  if seen.1 ≠ 0 ∨ seen.2 ≠ 0 then popLoop blocked t p (List.range' 1 sigsCnt)
  else if p.hostInjectedSignal ≠ 0 then
    if sigismember blocked sigTerm then (t, p, none)
    else
      let sig := p.hostInjectedSignal
      let p := { p with hostInjectedSignal := -1 }
      if sig ≠ -1 then (t, p, some (.host, ⟨sig, siUser, 0⟩)) else (t, p, none)
  else (t, p, none)

/-- `quit_upcall`, when the manifest allows it: only one signal is ever injected. -/
def quitUpcall (p : Process) : Process :=
  if p.hostInjectedSignal = 0 then { p with hostInjectedSignal := sigTerm } else p

/-- `get_new_thread`: the memory is zeroed, and the mask is that of the current thread. -/
def getNewThread (current : Thread) : Thread := ⟨current.signalMask, .empty, 0⟩

/-- `BEGIN_CP_FUNC(thread)` and the restoring of the thread: a copy with a zeroed queue. -/
def cpThread (t : Thread) : Thread := { t with signalQueue := .empty }

/-- The child of a fork by `current`: what is not in the checkpoint is as at the start of any
process. -/
def forkProcess (current : Thread) (tid : Nat) : Process :=
  ⟨update (fun _ => none) tid (some (cpThread (getNewThread current))), .empty, 0, 0⟩

/-! ## Runs -/

/-- A queue: of a thread of a process, or (without `tid`) of the process. -/
structure QueueId where
  pid : Nat
  tid : Option Nat
  deriving DecidableEq, Repr

/-- All processes, and what was put into and taken from each queue. -/
structure State where
  processes : Nat → Option Process
  appended : QueueId → List Siginfo
  popped : QueueId → List Siginfo

/-- One process with one thread. -/
def initial : State :=
  ⟨update (fun _ => none) 1
      (some ⟨update (fun _ => none) 1 (some ⟨0#64, .empty, 0⟩), .empty, 0, 0⟩),
    fun _ => [], fun _ => []⟩

/-- The steps: `append_signal` for a thread or the process, `pop_unblocked_signal`, a new signal
mask, the creation of a thread, a fork, and a signal from the host. -/
inductive Label
  | appendThread (pid tid : Nat) (signal : Siginfo)
  | appendProcess (pid : Nat) (signal : Siginfo)
  | pop (pid tid : Nat) (mask : Option Sigset) (seen : Nat × Nat)
  | setMask (pid tid : Nat) (mask : Sigset)
  | clone (pid tid newTid : Nat)
  | fork (pid tid newPid newTid : Nat)
  | inject (pid : Nat)

/-- A process after a step of one of its own. -/
def State.setProcess (s : State) (pid : Nat) (p : Process) : State :=
  { s with processes := update s.processes pid (some p) }

/-- A thread after a step of its own. -/
def Process.setThread (p : Process) (tid : Nat) (t : Thread) : Process :=
  { p with threads := update p.threads tid (some t) }

/-- Record that a signal was put into a queue. -/
def State.logAppend (s : State) (id : QueueId) (signal : Siginfo) (ret : Bool) : State :=
  if ret then { s with appended := update s.appended id (s.appended id ++ [signal]) }
  else s

/-- Record that a signal was taken from a queue. -/
def State.logPop (s : State) (pid tid : Nat) : Option (Origin × Siginfo) → State
  | some (.thread, signal) =>
    let id := ⟨pid, some tid⟩
    { s with popped := update s.popped id (s.popped id ++ [signal]) }
  | some (.process, signal) =>
    let id := ⟨pid, none⟩
    { s with popped := update s.popped id (s.popped id ++ [signal]) }
  | some (.host, _) => s
  | none => s

/-- What a step does; `none` if it cannot be taken. -/
def next (s : State) : Label → Option State
  | .appendThread pid tid signal => do
    let p ← s.processes pid
    let t ← p.threads tid
    let (t, ret) := appendThreadSignal t signal
    some ((s.setProcess pid (p.setThread tid t)).logAppend ⟨pid, some tid⟩ signal ret)
  | .appendProcess pid signal => do
    let p ← s.processes pid
    let (p, ret) := appendProcessSignal p signal
    some ((s.setProcess pid p).logAppend ⟨pid, none⟩ signal ret)
  | .pop pid tid mask seen => do
    let p ← s.processes pid
    let t ← p.threads tid
    let (t, p, signal) := popUnblockedSignal mask seen t p
    some ((s.setProcess pid (p.setThread tid t)).logPop pid tid signal)
  | .setMask pid tid mask => do
    let p ← s.processes pid
    let t ← p.threads tid
    some (s.setProcess pid (p.setThread tid { t with signalMask := mask }))
  | .clone pid tid newTid => do
    let p ← s.processes pid
    let t ← p.threads tid
    if (p.threads newTid).isNone then
      some (s.setProcess pid (p.setThread newTid (getNewThread t)))
    else none
  | .fork pid tid newPid newTid => do
    let p ← s.processes pid
    let t ← p.threads tid
    if (s.processes newPid).isNone then some (s.setProcess newPid (forkProcess t newTid))
    else none
  | .inject pid => do
    let p ← s.processes pid
    some (s.setProcess pid (quitUpcall p))

/-- One step. -/
def Step (s : State) (l : Label) (s' : State) : Prop := next s l = some s'

/-- The states of all runs. -/
def Reachable (s : State) : Prop := Transition.Reachable (fun s => s = initial) Step s

/-- The queue of a thread, and its counter. -/
def Thread.queue (t : Thread) : SignalQueue × Nat := (t.signalQueue, t.pendingSignals)

/-- The queues of a process, with their counters. -/
def Process.queue (p : Process) : Option Nat → Option (SignalQueue × Nat)
  | none => some (p.processSignalQueue, p.processPendingSignalsCnt)
  | some tid => (p.threads tid).map Thread.queue

/-- All queues, with their counters. -/
def State.queue (s : State) (id : QueueId) : Option (SignalQueue × Nat) :=
  (s.processes id.pid).bind fun p => p.queue id.tid

theorem queue_setThread (p : Process) (tid : Nat) (t : Thread) (o : Option Nat) :
    (p.setThread tid t).queue o = if o = some tid then some t.queue else p.queue o := by
  cases o with
  | none => rfl
  | some tid' =>
    by_cases heq : tid' = tid
    · subst heq
      simp [Process.queue, Process.setThread]
    · have hne : some tid' ≠ some tid := fun h => heq (Option.some.inj h)
      simp only [Process.queue, Process.setThread, update_of_ne heq, if_neg hne]

theorem queue_setProcess (s : State) (pid : Nat) (p : Process) (id : QueueId) :
    (s.setProcess pid p).queue id = if id.pid = pid then p.queue id.tid else s.queue id := by
  rw [State.queue, State.setProcess]
  by_cases heq : id.pid = pid
  · rw [if_pos heq, heq]
    simp
  · rw [if_neg heq, State.queue]
    simp [update_of_ne heq]

theorem queue_eq {s : State} {id : QueueId} {p : Process} (hp : s.processes id.pid = some p) :
    s.queue id = p.queue id.tid := by
  rw [State.queue, hp, Option.bind_some]

/-! ## What one call does to a queue and its counter -/

/-- A queue, its counter, and what was put there and taken from there. -/
structure QueueOk (c : SignalQueue × Nat) (appended popped : List Siginfo) : Prop where
  ok : c.1.Ok
  count : c.2 = c.1.total
  fifo : Fifo appended popped c.1

theorem SignalQueue.Ok.length_le {q : SignalQueue} (h : q.Ok) (sig : Nat) :
    (q.contents sig).length ≤ maxSignalLog := by
  by_cases hstd : sig < sigRtMin
  · rw [contents_standard hstd]
    split
    · exact (by decide : 1 ≤ maxSignalLog)
    · exact Nat.zero_le _
  · rw [contents_rt hstd, RtSignalQueue.contents, RingWindow.length_window]
    exact Nat.sub_le_iff_le_add'.2 (h.ring sig hstd).put_le

/-- The counter is far from wrapping around. -/
theorem SignalQueue.Ok.total_le {q : SignalQueue} (h : q.Ok) :
    q.total ≤ sigsCnt * maxSignalLog := by
  have hcard := Finset.sum_le_card_nsmul (Finset.Icc 1 sigsCnt)
    (fun sig => (q.contents sig).length) maxSignalLog (fun sig _ => h.length_le sig)
  rwa [Nat.card_Icc] at hcard

theorem QueueOk.empty : QueueOk (empty, 0) [] [] := by
  refine ⟨.empty, ?_, fun sig _ => ?_⟩
  · simp [total]
  · rw [contents_empty]
    rfl

section
variable {c : SignalQueue × Nat} {appended popped : List Siginfo} (h : QueueOk c appended popped)
  {signal : Siginfo} {q' : SignalQueue}
include h

/-- A signal that is refused changes neither the counter nor the log. -/
theorem QueueOk.append {ret : Bool} (happ : queueAppendSignal c.1 signal = (q', ret)) :
    QueueOk (q', if ret then incCnt c.2 else c.2)
      (if ret then appended ++ [signal] else appended) popped := by
  rw [queueAppendSignal] at happ
  by_cases hrange : signal.siSigno < 1 ∨ (sigsCnt : Int) < signal.siSigno
  · rw [if_pos hrange] at happ
    cases happ
    exact h
  rw [if_neg hrange] at happ
  have hsig : IsSig signal.siSigno.toNat := by
    constructor <;> omega
  have hsigno : signal.siSigno = (signal.siSigno.toNat : Int) := by omega
  cases ret with
  | false =>
    obtain ⟨hok, hcontents⟩ := queueAppendSig_false h.ok happ
    refine ⟨hok, h.count.trans (total_congr hcontents).symm, fun sig hsig' => ?_⟩
    rw [hcontents]
    exact h.fifo sig hsig'
  | true =>
    obtain ⟨hok, happends⟩ := queueAppendSig_true h.ok hsig hsigno happ
    refine ⟨hok, ?_, h.fifo.append hsigno happends⟩
    have hle := h.ok.total_le
    have hmax : sigsCnt * maxSignalLog + 1 < 2 ^ 64 := by decide
    have hmod : incCnt c.2 = c.2 + 1 := Nat.mod_eq_of_lt (by rw [h.count]; omega)
    rw [happends.total hsig, if_pos rfl, hmod, h.count]

/-- The counter and the log follow the instance that was taken. -/
theorem QueueOk.pop {sig : Nat} (hsig : IsSig sig) (hpop : popSignal c.1 sig = some (q', signal)) :
    QueueOk (q', decCnt c.2) appended (popped ++ [signal]) := by
  obtain ⟨hok, ptr, hpops, rfl⟩ := popSignal_some h.ok hsig hpop
  refine ⟨hok, ?_, h.fifo.pop hsig hpops⟩
  have htotal := hpops.total hsig
  have hle := h.ok.total_le
  have hmax : sigsCnt * maxSignalLog + 1 < 2 ^ 64 := by decide
  rw [decCnt, h.count]
  simp only
  omega

end

/-! ## All queues of a run -/

/-- A queue that does not exist was never used. -/
def QueueInv : Option (SignalQueue × Nat) → List Siginfo → List Siginfo → Prop
  | some c, appended, popped => QueueOk c appended popped
  | none, appended, popped => appended = [] ∧ popped = []

/-- Every queue is in step with its counter and with its history. -/
def Inv (s : State) : Prop := ∀ id, QueueInv (s.queue id) (s.appended id) (s.popped id)

theorem Inv.same {s s' : State} (h : Inv s) (hq : s'.queue = s.queue)
    (ha : s'.appended = s.appended) (hp : s'.popped = s.popped) : Inv s' := by
  intro id
  rw [hq, ha, hp]
  exact h id

section Frame
variable {s : State} {pid : Nat} {p : Process}

section
variable (hp : s.processes pid = some p)
include hp

/-- The invariant for the queue of one thread, -/
theorem Inv.thread (h : Inv s) {tid : Nat} {t : Thread} (ht : p.threads tid = some t) :
    QueueOk t.queue (s.appended ⟨pid, some tid⟩) (s.popped ⟨pid, some tid⟩) := by
  have hq : s.queue ⟨pid, some tid⟩ = some t.queue := by
    rw [queue_eq hp, Process.queue, ht, Option.map_some]
  have hinv := h ⟨pid, some tid⟩
  rwa [hq] at hinv

/-- and for the queue of the process. -/
theorem Inv.process (h : Inv s) :
    QueueOk (p.processSignalQueue, p.processPendingSignalsCnt) (s.appended ⟨pid, none⟩)
      (s.popped ⟨pid, none⟩) := by
  have hinv := h ⟨pid, none⟩
  rwa [queue_eq hp] at hinv

/-- One queue of one process changes, and its logs with it; all others stay as they are. -/
theorem Inv.put (h : Inv s) {s' : State} {p' : Process} {o : Option Nat} {c : SignalQueue × Nat}
    {appended popped : List Siginfo} (hproc : s'.processes = update s.processes pid (some p'))
    (happ : s'.appended = update s.appended ⟨pid, o⟩ appended)
    (hpop : s'.popped = update s.popped ⟨pid, o⟩ popped)
    (hsame : ∀ o', o' ≠ o → p'.queue o' = p.queue o') (hq : p'.queue o = some c)
    (hok : QueueOk c appended popped) : Inv s' := by
  have hqueue : s'.queue = (s.setProcess pid p').queue := by
    funext id
    rw [State.queue, hproc]
    rfl
  intro id
  rw [hqueue, queue_setProcess, happ, hpop]
  by_cases hid : id = ⟨pid, o⟩
  · subst hid
    rwa [if_pos rfl, hq, update_self, update_self]
  rw [update_of_ne hid, update_of_ne hid]
  by_cases hpid : id.pid = pid
  · have htid : id.tid ≠ o := by
      rintro rfl
      exact hid (by rw [← hpid])
    rw [if_pos hpid, hsame id.tid htid, ← queue_eq (hpid ▸ hp)]
    exact h id
  · rw [if_neg hpid]
    exact h id

theorem queue_same {p' : Process} (hsame : p'.queue = p.queue) :
    (s.setProcess pid p').queue = s.queue := by
  funext id
  rw [queue_setProcess]
  by_cases hpid : id.pid = pid
  · rw [if_pos hpid, hsame, queue_eq (hpid ▸ hp)]
  · rw [if_neg hpid]

end

end Frame

theorem isSig_of_mem {sig : Nat} (h : sig ∈ List.range' 1 sigsCnt) : IsSig sig := by
  have hrange := mem_range'_1.1 h
  exact ⟨hrange.1, by omega⟩

/-- What `pop_unblocked_signal` can do: leave the queues alone, or take one signal from the queue of
the thread or of the process. -/
inductive Popped (t : Thread) (p : Process) : Thread × Process × Option (Origin × Siginfo) → Prop
  | nothing (host : Int) : Popped t p (t, { p with hostInjectedSignal := host }, none)
  | host (host : Int) (info : Siginfo) :
      Popped t p (t, { p with hostInjectedSignal := host }, some (.host, info))
  | thread {sig : Nat} {q : SignalQueue} {signal : Siginfo} (hsig : IsSig sig)
      (hpop : popSignal t.signalQueue sig = some (q, signal)) :
      Popped t p ({ t with signalQueue := q, pendingSignals := decCnt t.pendingSignals }, p,
        some (.thread, signal))
  | process {sig : Nat} {q : SignalQueue} {signal : Siginfo} (hsig : IsSig sig)
      (hpop : popSignal p.processSignalQueue sig = some (q, signal)) :
      Popped t p (t, { p with processSignalQueue := q,
                              processPendingSignalsCnt := decCnt p.processPendingSignalsCnt },
        some (.process, signal))

/-- The loop takes from the queue of the thread first, for each signal in turn. -/
theorem popLoop_popped (blocked : Sigset) (t : Thread) (p : Process) (sigs : List Nat)
    (hsigs : ∀ sig ∈ sigs, IsSig sig) : Popped t p (popLoop blocked t p sigs) := by
  induction sigs with
  | nil => exact .nothing p.hostInjectedSignal
  | cons sig sigs ih =>
    have hsig := hsigs sig mem_cons_self
    have ih := ih fun sig' hmem => hsigs sig' (mem_cons_of_mem sig hmem)
    rw [popLoop]
    split
    · exact ih
    split
    · rename_i hpop
      exact .thread hsig hpop
    split
    · rename_i hpop
      exact .process hsig hpop
    · exact ih

/-- What is taken comes from one of the two queues, or nothing is taken. -/
theorem popUnblockedSignal_popped (mask : Option Sigset) (seen : Nat × Nat) (t : Thread)
    (p : Process) : Popped t p (popUnblockedSignal mask seen t p) := by
  rw [popUnblockedSignal]
  split
  · exact popLoop_popped _ t p _ fun sig hmem => isSig_of_mem hmem
  split
  · split
    · exact .nothing p.hostInjectedSignal
    · simp only
      split
      · exact .host (-1) _
      · exact .nothing (-1)
  · exact .nothing p.hostInjectedSignal

/-! ### The steps -/

section Steps
variable {s : State} {pid : Nat} {p : Process} {tid : Nat} {t : Thread}

theorem setThread_self (p : Process) (tid : Nat) (t : Thread) :
    (p.setThread tid t).queue (some tid) = some t.queue := by
  rw [queue_setThread, if_pos rfl]

theorem setThread_other (p : Process) (tid : Nat) (t : Thread) (o : Option Nat)
    (hne : o ≠ some tid) : (p.setThread tid t).queue o = p.queue o := by
  rw [queue_setThread, if_neg hne]

/-- A thread changes in something else than its queue. -/
theorem setThread_same (ht : p.threads tid = some t) {p' : Process} (hp : p'.queue = p.queue)
    {t' : Thread} (hq : t'.queue = t.queue) : (p'.setThread tid t').queue = p.queue := by
  funext o
  rw [queue_setThread, hp]
  by_cases heq : o = some tid
  · rw [if_pos heq, heq, hq, Process.queue, ht, Option.map_some]
  · rw [if_neg heq]

section
variable (s) (id : QueueId) (signal : Siginfo) (ret : Bool)

theorem logAppend_processes : (s.logAppend id signal ret).processes = s.processes := by
  cases ret with
  | true | false => rfl

theorem logAppend_popped : (s.logAppend id signal ret).popped = s.popped := by
  cases ret with
  | true | false => rfl

theorem logAppend_appended : (s.logAppend id signal ret).appended = update s.appended id
      (if ret then s.appended id ++ [signal] else s.appended id) := by
  cases ret with
  | true => rfl
  | false => exact (update_eq_self _ _).symm

end

section
variable (h : Inv s) (hp : s.processes pid = some p)
include h hp

theorem Inv.appendThread (ht : p.threads tid = some t) (signal : Siginfo) :
    Inv ((s.setProcess pid (p.setThread tid (appendThreadSignal t signal).1)).logAppend
      ⟨pid, some tid⟩ signal (appendThreadSignal t signal).2) :=
  h.put hp (logAppend_processes _ _ _ _) (logAppend_appended _ _ _ _)
    ((logAppend_popped _ _ _ _).trans (update_eq_self _ _).symm)
    (setThread_other p tid _) (setThread_self p tid _) ((h.thread hp ht).append rfl)

theorem Inv.appendProcess (signal : Siginfo) :
    Inv ((s.setProcess pid (appendProcessSignal p signal).1).logAppend
      ⟨pid, none⟩ signal (appendProcessSignal p signal).2) := by
  refine h.put hp (logAppend_processes _ _ _ _) (logAppend_appended _ _ _ _)
    ((logAppend_popped _ _ _ _).trans (update_eq_self _ _).symm)
    (fun o hne => ?_) rfl ((h.process hp).append rfl)
  cases o with
  | none => exact absurd rfl hne
  | some tid => rfl

/-- The log of the queue from which the signal came grows. -/
theorem Inv.pop (ht : p.threads tid = some t) {r : Thread × Process × Option (Origin × Siginfo)}
    (hr : Popped t p r) :
    Inv ((s.setProcess pid (r.2.1.setThread tid r.1)).logPop pid tid r.2.2) := by
  cases hr with
  | nothing host | host host info =>
    exact h.same (queue_same hp (setThread_same ht rfl rfl)) rfl rfl
  | thread hsig hpop =>
    exact h.put hp rfl (update_eq_self _ _).symm rfl (setThread_other p tid _)
      (setThread_self p tid _) ((h.thread hp ht).pop hsig hpop)
  | process hsig hpop =>
    refine h.put hp rfl (update_eq_self _ _).symm rfl (fun o hne => ?_) rfl
      ((h.process hp).pop hsig hpop)
    rw [queue_setThread]
    cases o with
    | none => exact absurd rfl hne
    | some tid' =>
      by_cases heq : some tid' = some tid
      · rw [if_pos heq, heq, Process.queue, ht, Option.map_some]
      · rw [if_neg heq]
        rfl

/-- A new thread starts with an empty queue, and nothing was logged for it. -/
theorem Inv.clone (hnew : p.threads tid = none) (current : Thread) :
    Inv (s.setProcess pid (p.setThread tid (getNewThread current))) := by
  have hnone := h ⟨pid, some tid⟩
  rw [queue_eq hp, Process.queue, hnew] at hnone
  refine h.put hp rfl (update_eq_self _ _).symm (update_eq_self _ _).symm
    (setThread_other p tid _) (setThread_self p tid _) ?_
  change QueueOk _ (s.appended _) (s.popped _)
  rw [hnone.1, hnone.2]
  exact .empty

end

/-- A checkpointed thread is in step with its queue only if it had no pending signals: the counter
is copied, and the queue is not. The thread made for a fork has none. -/
theorem cpThread_ok_iff (t : Thread) : QueueOk (cpThread t).queue [] [] ↔ t.pendingSignals = 0 := by
  have hempty : empty.total = 0 := by simp [total]
  constructor
  · intro h
    exact h.count.trans hempty
  · intro h
    refine ⟨.empty, h.trans hempty.symm, QueueOk.empty.fifo⟩

/-- All queues of a new process are empty. -/
theorem Inv.fork (h : Inv s) (hnew : s.processes pid = none) (current : Thread) :
    Inv (s.setProcess pid (forkProcess current tid)) := by
  intro id
  have hlogs : id.pid = pid → s.appended id = [] ∧ s.popped id = [] := by
    intro hpid
    have hnone := h id
    rwa [State.queue, hpid, hnew] at hnone
  rw [queue_setProcess]
  by_cases hpid : id.pid = pid
  · have hlog : (s.setProcess pid (forkProcess current tid)).appended id = [] ∧
        (s.setProcess pid (forkProcess current tid)).popped id = [] := hlogs hpid
    rw [if_pos hpid, hlog.1, hlog.2]
    cases htid : id.tid with
    | none => exact .empty
    | some tid' =>
      by_cases heq : tid' = tid
      · subst heq
        rw [Process.queue, forkProcess]
        simp only [update_self]
        exact (cpThread_ok_iff _).2 rfl
      · rw [Process.queue, forkProcess]
        simp only [update_of_ne heq]
        exact ⟨rfl, rfl⟩
  · rw [if_neg hpid]
    exact h id

end Steps

/-- **Every step keeps the queues in step with the logs.** -/
theorem Inv.step {s s' : State} {l : Label} (h : Inv s) (hs : Step s l s') : Inv s' := by
  cases l <;> obtain ⟨p, hp, hs⟩ := Option.bind_eq_some_iff.1 hs
  case appendThread pid tid signal _ =>
    obtain ⟨t, ht, hs⟩ := Option.bind_eq_some_iff.1 hs
    cases hs
    exact h.appendThread hp ht signal
  case appendProcess pid signal _ =>
    cases hs
    exact h.appendProcess hp signal
  case pop pid tid mask seen _ =>
    obtain ⟨t, ht, hs⟩ := Option.bind_eq_some_iff.1 hs
    cases hs
    exact h.pop hp ht (popUnblockedSignal_popped mask seen t p)
  case setMask pid tid mask _ =>
    obtain ⟨t, ht, hs⟩ := Option.bind_eq_some_iff.1 hs
    cases hs
    exact h.same (queue_same hp (setThread_same ht rfl rfl)) rfl rfl
  case clone pid tid newTid _ =>
    obtain ⟨t, ht, hs⟩ := Option.bind_eq_some_iff.1 hs
    obtain ⟨hnew, hs⟩ := Option.ite_none_right_eq_some.1 hs
    cases hs
    exact h.clone hp (Option.isNone_iff_eq_none.1 hnew) t
  case fork pid tid newPid newTid _ =>
    obtain ⟨t, -, hs⟩ := Option.bind_eq_some_iff.1 hs
    obtain ⟨hnew, hs⟩ := Option.ite_none_right_eq_some.1 hs
    cases hs
    exact h.fork (Option.isNone_iff_eq_none.1 hnew) t
  case inject pid _ =>
    cases hs
    refine h.same (queue_same hp ?_) rfl rfl
    rw [quitUpcall]
    split <;> rfl

theorem Inv.initial : Inv initial := by
  have hnone : Inv ⟨fun _ => none, fun _ => [], fun _ => []⟩ := fun _ => ⟨rfl, rfl⟩
  exact hnone.fork rfl ⟨0#64, .empty, 0⟩

theorem Reachable.inv {s : State} (h : Reachable s) : Inv s := by
  apply h.invariant
  · intro s hs
    subst hs
    exact .initial
  · intro s l s' ih hs
    exact ih.step hs

/-! ## The records stay in step -/

/-- The records of one queue: the mask, the counter, the indices of ring buffers, and the order in
which the instances of a real-time signal were taken. -/
structure InStep (q : SignalQueue) (cnt : Nat) (appended popped : List Siginfo) : Prop where
  mask : ∀ sig, IsSig sig → (sigismember q.pendingMask sig = true ↔ 0 < (q.contents sig).length)
  count : cnt = ∑ sig ∈ Finset.Icc 1 sigsCnt, (q.contents sig).length
  indices : ∀ i, i ≤ sigsCnt - sigRtMin →
    (q.rtSignalQueues i).getIdx ≤ (q.rtSignalQueues i).putIdx ∧
      (q.rtSignalQueues i).putIdx ≤ (q.rtSignalQueues i).getIdx + maxSignalLog
  order : ∀ sig, IsSig sig → sigRtMin ≤ sig →
    instances sig appended = instances sig popped ++ q.contents sig

/-- In every run, all queues of all threads and processes are in step with their records. -/
theorem signal_queues_inStep {s : State} (h : Reachable s) {id : QueueId} {q : SignalQueue}
    {cnt : Nat} (hq : s.queue id = some (q, cnt)) :
    InStep q cnt (s.appended id) (s.popped id) := by
  have hinv := h.inv id
  rw [hq] at hinv
  refine ⟨fun sig hsig => ?_, hinv.count, fun i _ => ?_, fun sig hsig _ => hinv.fifo sig hsig⟩
  · rw [length_pos_iff]
    exact hinv.ok.mask sig hsig
  · have hring := hinv.ok.ring (i + sigRtMin) (not_lt.2 (Nat.le_add_left _ _))
    exact ⟨hring.get_le_put, hring.put_le⟩

/-- Two instances of one real-time signal and one of another; one is taken, and a fork follows. -/
def forkRun : List Label :=
  [.appendThread 1 1 ⟨34, 0, 7⟩, .appendThread 1 1 ⟨34, 0, 8⟩, .appendThread 1 1 ⟨40, 0, 9⟩,
    .pop 1 1 none (3, 0), .fork 1 1 2 5]

theorem signal_queues_inStep_fork : ∃ s q cnt child, Reachable s ∧
    s.queue ⟨1, some 1⟩ = some (q, cnt) ∧ cnt = 2 ∧
    s.appended ⟨1, some 1⟩ = [⟨34, 0, 7⟩, ⟨34, 0, 8⟩, ⟨40, 0, 9⟩] ∧
    s.popped ⟨1, some 1⟩ = [⟨34, 0, 7⟩] ∧
    InStep q cnt (s.appended ⟨1, some 1⟩) (s.popped ⟨1, some 1⟩) ∧
    -- the thread of the new process starts with an empty queue
    s.queue ⟨2, some 5⟩ = some (child, 0) ∧
    InStep child 0 (s.appended ⟨2, some 5⟩) (s.popped ⟨2, some 5⟩) := by
  have hrun : ((forkRun.foldlM next initial).bind fun s => (s.queue ⟨1, some 1⟩).bind fun c =>
      (s.queue ⟨2, some 5⟩).map fun d => (c.2, s.appended ⟨1, some 1⟩, s.popped ⟨1, some 1⟩, d.2)) =
      some (2, [⟨34, 0, 7⟩, ⟨34, 0, 8⟩, ⟨40, 0, 9⟩], [⟨34, 0, 7⟩], 0) := by decide +kernel
  obtain ⟨s, hs, hc⟩ := Option.bind_eq_some_iff.1 hrun
  obtain ⟨⟨q, cnt⟩, hq, hd⟩ := Option.bind_eq_some_iff.1 hc
  obtain ⟨⟨child, cnt'⟩, hchild, heq⟩ := Option.map_eq_some_iff.1 hd
  obtain ⟨hcnt, hlogs⟩ := Prod.mk.inj heq
  obtain ⟨happ, hlogs⟩ := Prod.mk.inj hlogs
  obtain ⟨hpop, hzero⟩ := Prod.mk.inj hlogs
  dsimp only at hzero
  subst hzero
  have hreach : Reachable s :=
    Transition.Reachable.of_foldlM next (fun _ _ _ h => h) (.init rfl) forkRun hs
  exact ⟨s, q, cnt, child, hreach, hq, hcnt, happ, hpop, signal_queues_inStep hreach hq, hchild,
    signal_queues_inStep hreach hchild⟩

end Signal
