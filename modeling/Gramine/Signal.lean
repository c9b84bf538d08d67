import Gramine.RingWindow

/-!
# Signal queues

`libos_signal.c`: each thread and each process have a queue of pending signals. A standard signal
has one slot, a real-time signal a ring buffer of its own, and next to them the queue keeps a mask
of the signals it holds; the number of pending signals is kept outside the queue.

This module has the functions on one queue, and what they do to the instances it holds.
-/

open List Function

namespace Signal

open Finset

/-! ## Signal sets -/

/-- `SIGS_CNT`. -/
def sigsCnt : Nat := 64

/-- `SIGRTMIN`. -/
def sigRtMin : Nat := 32

/-- `SIGTERM`. -/
def sigTerm : Nat := 15

/-- `__sigset_t`: one word. -/
abbrev Sigset := BitVec 64

/-- `__sigmask`. -/
def sigmask (sig : Nat) : Sigset := 1#64 <<< ((sig - 1) % 64)

/-- `__sigaddset`. -/
def sigaddset (set : Sigset) (sig : Nat) : Sigset := set ||| sigmask sig

/-- `__sigdelset`. -/
def sigdelset (set : Sigset) (sig : Nat) : Sigset := set &&& ~~~ sigmask sig

/-- `__sigismember`. -/
def sigismember (set : Sigset) (sig : Nat) : Bool := set &&& sigmask sig != 0#64

theorem sigismember_eq_getLsbD (set : Sigset) (sig : Nat) :
    sigismember set sig = set.getLsbD ((sig - 1) % 64) := by
  have hlt : (sig - 1) % 64 < 64 := Nat.mod_lt _ (by decide)
  rw [sigismember, sigmask, ← BitVec.twoPow_eq, BitVec.and_twoPow]
  cases set.getLsbD ((sig - 1) % 64) with
  | true =>
    rw [bne_iff_ne]
    intro h
    have hbit := congrArg (fun v => BitVec.getLsbD v ((sig - 1) % 64)) h
    simp [hlt] at hbit
  | false => simp

/-- The numbers of signals. -/
def IsSig (sig : Nat) : Prop := 1 ≤ sig ∧ sig ≤ sigsCnt

variable {sig sig' : Nat}

/-- No two signals share a bit of the mask. -/
theorem sub_one_mod_inj (h : IsSig sig) (h' : IsSig sig') :
    (sig - 1) % 64 = (sig' - 1) % 64 ↔ sig = sig' := by
  obtain ⟨_, h2⟩ := h
  obtain ⟨h1', h2'⟩ := h'
  rw [sigsCnt] at h2 h2'
  omega

theorem sigismember_sigaddset (h : IsSig sig) (h' : IsSig sig') (set : Sigset) :
    sigismember (sigaddset set sig) sig' = (sigismember set sig' || decide (sig = sig')) := by
  have hlt : (sig - 1) % 64 < 64 := Nat.mod_lt _ (by decide)
  rw [sigismember_eq_getLsbD, sigismember_eq_getLsbD, sigaddset, sigmask, BitVec.getLsbD_or,
    ← BitVec.twoPow_eq, BitVec.getLsbD_twoPow]
  simp [sub_one_mod_inj h h', hlt]

theorem sigismember_sigdelset (h : IsSig sig) (h' : IsSig sig') (set : Sigset) :
    sigismember (sigdelset set sig) sig' = (sigismember set sig' && !decide (sig = sig')) := by
  have hlt : (sig - 1) % 64 < 64 := Nat.mod_lt _ (by decide)
  have hlt' : (sig' - 1) % 64 < 64 := Nat.mod_lt _ (by decide)
  rw [sigismember_eq_getLsbD, sigismember_eq_getLsbD, sigdelset, sigmask, BitVec.getLsbD_and,
    BitVec.getLsbD_not, ← BitVec.twoPow_eq, BitVec.getLsbD_twoPow]
  simp [sub_one_mod_inj h h', hlt, hlt']

/-! ## Queues -/

/-- `MAX_SIGNAL_LOG`. -/
def maxSignalLog : Nat := 32

/-- `siginfo_t`: the number, the code, and the rest. -/
structure Siginfo where
  siSigno : Int
  siCode : Int
  value : Nat
  deriving DecidableEq, Repr

/-- All bytes zero. -/
def Siginfo.zero : Siginfo := ⟨0, 0, 0⟩

/-- `struct libos_rt_signal_queue`; a slot is a pointer. -/
structure RtSignalQueue where
  putIdx : Nat
  getIdx : Nat
  queue : Nat → Option Siginfo

/-- `struct libos_signal_queue`. -/
structure SignalQueue where
  pendingMask : Sigset
  standardSignals : Nat → Siginfo
  rtSignalQueues : Nat → RtSignalQueue

/-- A queue of zeroed memory. -/
def SignalQueue.empty : SignalQueue := ⟨0#64, fun _ => .zero, fun _ => ⟨0, 0, fun _ => none⟩⟩

/-- Another slot for the standard signal `sig`. -/
def SignalQueue.setStandard (q : SignalQueue) (sig : Nat) (slot : Siginfo) : SignalQueue :=
  { q with standardSignals := update q.standardSignals (sig - 1) slot }

/-- Another ring buffer for the real-time signal `sig`. -/
def SignalQueue.setRt (q : SignalQueue) (sig : Nat) (rt : RtSignalQueue) : SignalQueue :=
  { q with rtSignalQueues := update q.rtSignalQueues (sig - sigRtMin) rt }

/-- `is_rt_sq_empty`. -/
def isRtSqEmpty (queue : RtSignalQueue) : Bool := queue.getIdx = queue.putIdx

/-- `has_standard_signal`. -/
def hasStandardSignal (slot : Siginfo) : Bool := slot.siSigno ≠ 0

/-- `recalc_pending_mask`. -/
def recalcPendingMask (q : SignalQueue) (sig : Nat) : SignalQueue :=
  if sig < sigRtMin then
    if !hasStandardSignal (q.standardSignals (sig - 1)) then
      { q with pendingMask := sigdelset q.pendingMask sig }
    else q
  else if isRtSqEmpty (q.rtSignalQueues (sig - sigRtMin)) then
    { q with pendingMask := sigdelset q.pendingMask sig }
  else q

/-- `append_standard_signal`: the new slot, if the signal was put there. -/
def appendStandardSignal (slot signal : Siginfo) : Option Siginfo :=
  if hasStandardSignal slot then none else some signal

/-- The start of `append_rt_signal`, which keeps the indices small. -/
def RtSignalQueue.rebase (q : RtSignalQueue) : RtSignalQueue :=
  if maxSignalLog ≤ q.getIdx then
    { q with getIdx := q.getIdx - maxSignalLog, putIdx := q.putIdx - maxSignalLog }
  else q

/-- `append_rt_signal`. -/
def appendRtSignal (q : RtSignalQueue) (signal : Siginfo) : RtSignalQueue × Bool :=
  let q := q.rebase
  if maxSignalLog ≤ q.putIdx - q.getIdx then (q, false)
  else
    ({ q with queue := update q.queue (q.putIdx % maxSignalLog) (some signal),
              putIdx := q.putIdx + 1 }, true)

/-- `queue_append_signal`, for a signal number in range. -/
def queueAppendSig (q : SignalQueue) (sig : Nat) (signal : Siginfo) : SignalQueue × Bool :=
  let (q, ret) :=
    if sig < sigRtMin then
      match appendStandardSignal (q.standardSignals (sig - 1)) signal with
      | some slot => (q.setStandard sig slot, true)
      | none => (q, false)
    else
      let (rt, ret) := appendRtSignal (q.rtSignalQueues (sig - sigRtMin)) signal
      (q.setRt sig rt, ret)
  if ret then ({ q with pendingMask := sigaddset q.pendingMask sig }, ret) else (q, ret)

/-- `queue_append_signal`. -/
def queueAppendSignal (q : SignalQueue) (signal : Siginfo) : SignalQueue × Bool :=
  if signal.siSigno < 1 ∨ (sigsCnt : Int) < signal.siSigno then (q, false)
  else queueAppendSig q signal.siSigno.toNat signal

/-- `pop_standard_signal`: the slot and the signal that was in it. -/
def popStandardSignal (slot : Siginfo) : Option (Siginfo × Siginfo) :=
  if !hasStandardSignal slot then none else some ({ slot with siSigno := 0 }, slot)

/-- `pop_rt_signal`: the queue and the pointer. -/
def popRtSignal (q : RtSignalQueue) : Option (RtSignalQueue × Option Siginfo) :=
  if q.getIdx < q.putIdx then
    some ({ q with getIdx := q.getIdx + 1 }, q.queue (q.getIdx % maxSignalLog))
  else none

/-- What `pop_unblocked_signal` does to the queue it finds an instance of `sig` in; a null pointer
leaves the zeroed signal of its caller as it is. -/
def popSignal (q : SignalQueue) (sig : Nat) : Option (SignalQueue × Siginfo) :=
  if sig < sigRtMin then
    (popStandardSignal (q.standardSignals (sig - 1))).map fun (slot, signal) =>
      (recalcPendingMask (q.setStandard sig slot) sig, signal)
  else
    (popRtSignal (q.rtSignalQueues (sig - sigRtMin))).map fun (rt, ptr) =>
      (recalcPendingMask (q.setRt sig rt) sig, ptr.getD .zero)

/-! ## The instances a queue holds -/

/-- The instances of one real-time signal, oldest first. -/
def RtSignalQueue.contents (q : RtSignalQueue) : List (Option Siginfo) :=
  RingWindow.window maxSignalLog q.queue q.getIdx q.putIdx

/-- The instances of a signal in a queue, oldest first. -/
def SignalQueue.contents (q : SignalQueue) (sig : Nat) : List (Option Siginfo) :=
  if sig < sigRtMin then
    if hasStandardSignal (q.standardSignals (sig - 1)) then
      [some (q.standardSignals (sig - 1))]
    else []
  else (q.rtSignalQueues (sig - sigRtMin)).contents

/-- The indices of a ring buffer. The second bound is why they never wrap around. -/
structure RtSignalQueue.Ok (q : RtSignalQueue) : Prop where
  get_le_put : q.getIdx ≤ q.putIdx
  put_le : q.putIdx ≤ q.getIdx + maxSignalLog
  small : q.putIdx < 2 * maxSignalLog

variable {q : SignalQueue}

/-- A standard signal is pending once or not at all. -/
theorem contents_standard (h : sig < sigRtMin) :
    q.contents sig = if hasStandardSignal (q.standardSignals (sig - 1)) then
      [some (q.standardSignals (sig - 1))] else [] := if_pos h

theorem contents_rt (h : ¬ sig < sigRtMin) :
    q.contents sig = (q.rtSignalQueues (sig - sigRtMin)).contents := if_neg h

variable {q' : SignalQueue}

theorem contents_congr (hstd : q'.standardSignals (sig - 1) = q.standardSignals (sig - 1))
    (hrt : q'.rtSignalQueues (sig - sigRtMin) = q.rtSignalQueues (sig - sigRtMin)) :
    q'.contents sig = q.contents sig := by
  rw [SignalQueue.contents, SignalQueue.contents, hstd, hrt]

theorem contents_setStandard (slot : Siginfo) (h : IsSig sig) (hstd : sig < sigRtMin)
    (h' : IsSig sig') :
    (q.setStandard sig slot).contents sig' =
      if sig' = sig then (if hasStandardSignal slot then [some slot] else [])
      else q.contents sig' := by
  by_cases heq : sig' = sig
  · subst heq
    rw [if_pos rfl, contents_standard hstd]
    simp [SignalQueue.setStandard]
  have hne : sig' - 1 ≠ sig - 1 := by
    have := h.1
    have := h'.1
    omega
  rw [if_neg heq]
  exact contents_congr (update_of_ne hne _ _) rfl

theorem contents_setRt (rt : RtSignalQueue) (hrt : ¬ sig < sigRtMin) :
    (q.setRt sig rt).contents sig' = if sig' = sig then rt.contents else q.contents sig' := by
  by_cases heq : sig' = sig
  · subst heq
    rw [if_pos rfl, contents_rt hrt]
    simp [SignalQueue.setRt]
  rw [if_neg heq]
  by_cases hstd' : sig' < sigRtMin
  · rw [contents_standard hstd', contents_standard hstd']
    rfl
  · have hne : sig' - sigRtMin ≠ sig - sigRtMin := by omega
    exact contents_congr rfl (update_of_ne hne _ _)

/-- Equal indices mean an empty ring, because the indices never cross. -/
theorem isRtSqEmpty_iff {q : RtSignalQueue} (h : q.Ok) :
    isRtSqEmpty q = true ↔ q.contents = [] := by
  have hle := h.get_le_put
  rw [isRtSqEmpty, decide_eq_true_iff, RtSignalQueue.contents, RingWindow.window_eq_nil_iff]
  omega

/-! ### Appending to a ring buffer, and taking from it -/

theorem RtSignalQueue.Ok.rebase {q : RtSignalQueue} (h : q.Ok) : q.rebase.Ok := by
  obtain ⟨h1, h2, h3⟩ := h
  rw [RtSignalQueue.rebase]
  split
  · exact ⟨by simp only; omega, by simp only; omega, by simp only; omega⟩
  · exact ⟨h1, h2, h3⟩

/-- There is room for a whole ring of additions before the indices are made small again. -/
theorem RtSignalQueue.Ok.rebase_get {q : RtSignalQueue} (h : q.Ok) :
    q.rebase.getIdx < maxSignalLog := by
  obtain ⟨_, _, _⟩ := h
  rw [RtSignalQueue.rebase]
  split
  · simp only
    omega
  · omega

theorem RtSignalQueue.Ok.contents_rebase {q : RtSignalQueue} (h : q.Ok) :
    q.rebase.contents = q.contents := by
  rw [RtSignalQueue.rebase]
  split
  · rename_i hle
    exact RingWindow.window_sub hle h.get_le_put
  · rfl

variable {signal : Siginfo}

/-- A full ring refuses the signal and stays as it is. -/
theorem appendRtSignal_false {q q' : RtSignalQueue} (h : q.Ok)
    (happ : appendRtSignal q signal = (q', false)) : q'.Ok ∧ q'.contents = q.contents := by
  rw [appendRtSignal] at happ
  split at happ
  · cases happ
    exact ⟨h.rebase, h.contents_rebase⟩
  · cases happ

/-- The signal is behind those in the ring. -/
theorem appendRtSignal_true {q q' : RtSignalQueue} (h : q.Ok)
    (happ : appendRtSignal q signal = (q', true)) :
    q'.Ok ∧ q'.contents = q.contents ++ [some signal] := by
  rw [appendRtSignal] at happ
  split at happ
  · cases happ
  rename_i hroom
  cases happ
  have hroom : q.rebase.putIdx - q.rebase.getIdx < maxSignalLog := not_le.1 hroom
  obtain ⟨h1, -⟩ := h.rebase
  have hget := h.rebase_get
  refine ⟨⟨by simp only; omega, by simp only; omega, by simp only; omega⟩, ?_⟩
  rw [← h.contents_rebase]
  exact RingWindow.window_push h1 hroom _

variable {ptr : Option Siginfo}

/-- The oldest signal comes out first. -/
theorem popRtSignal_some {q q' : RtSignalQueue} (h : q.Ok) (hpop : popRtSignal q = some (q', ptr)) :
    q'.Ok ∧ q.contents = ptr :: q'.contents := by
  rw [popRtSignal, Option.ite_none_right_eq_some] at hpop
  obtain ⟨hlt, heq⟩ := hpop
  cases heq
  obtain ⟨_, _, h3⟩ := h
  exact ⟨⟨hlt, by simp only; omega, h3⟩, RingWindow.window_pop hlt⟩

/-! ### The same for a queue -/

/-- What a queue keeps in step: the mask with the instances, and the indices of ring buffers. -/
structure SignalQueue.Ok (q : SignalQueue) : Prop where
  mask : ∀ sig, IsSig sig → (sigismember q.pendingMask sig = true ↔ q.contents sig ≠ [])
  ring : ∀ sig, ¬ sig < sigRtMin → (q.rtSignalQueues (sig - sigRtMin)).Ok

/-- `q'` holds one more instance of `sig` than `q`, the newest. -/
def Appends (q : SignalQueue) (sig : Nat) (signal : Siginfo) (q' : SignalQueue) : Prop :=
  ∀ sig', IsSig sig' → q'.contents sig' =
    if sig' = sig then q.contents sig' ++ [some signal] else q.contents sig'

/-- `q'` holds one instance of `sig` less than `q`: not the oldest any more. -/
def Pops (q : SignalQueue) (sig : Nat) (ptr : Option Siginfo) (q' : SignalQueue) : Prop :=
  ∀ sig', IsSig sig' → q.contents sig' =
    if sig' = sig then ptr :: q'.contents sig' else q'.contents sig'

@[simp] theorem contents_empty (sig : Nat) : SignalQueue.empty.contents sig = [] := by
  rw [SignalQueue.contents]
  split <;> rfl

theorem SignalQueue.Ok.empty : SignalQueue.empty.Ok := by
  refine ⟨fun sig _ => ?_, fun _ _ => ⟨Nat.le_refl 0, Nat.zero_le _, Nat.zero_lt_succ _⟩⟩
  have hmask : sigismember SignalQueue.empty.pendingMask sig = false := by
    simp [SignalQueue.empty, sigismember]
  rw [hmask]
  simp

theorem ring_setRt (hq : q.Ok) (hrt : ¬ sig < sigRtMin) {rt : RtSignalQueue} (hok : rt.Ok)
    (sig' : Nat) (hrt' : ¬ sig' < sigRtMin) :
    ((q.setRt sig rt).rtSignalQueues (sig' - sigRtMin)).Ok := by
  rw [SignalQueue.setRt]
  by_cases heq : sig' = sig
  · simp only [heq, update_self]
    exact hok
  · have hne : sig' - sigRtMin ≠ sig - sigRtMin := by omega
    simp only [update_of_ne hne]
    exact hq.ring sig' hrt'

/-- The slots after a successful append, with the mask of before. -/
theorem SignalQueue.Ok.addset (hq : q.Ok) (hsig : IsSig sig) (happ : Appends q sig signal q')
    (hmask : q'.pendingMask = q.pendingMask)
    (hring : ∀ sig, ¬ sig < sigRtMin → (q'.rtSignalQueues (sig - sigRtMin)).Ok) :
    SignalQueue.Ok { q' with pendingMask := sigaddset q'.pendingMask sig } := by
  refine ⟨fun sig' hsig' => ?_, hring⟩
  have hcontents : SignalQueue.contents
      { q' with pendingMask := sigaddset q'.pendingMask sig } sig' = q'.contents sig' := rfl
  rw [hcontents, happ sig' hsig', sigismember_sigaddset hsig hsig', hmask]
  by_cases heq : sig' = sig
  · simp [heq]
  · rw [if_neg heq, ← hq.mask sig' hsig']
    simp [Ne.symm heq]

/-- The queue takes the signal, and its bit of the mask is set. -/
theorem queueAppendSig_true (hq : q.Ok) (hsig : IsSig sig) (hsigno : signal.siSigno = sig)
    (happ : queueAppendSig q sig signal = (q', true)) : q'.Ok ∧ Appends q sig signal q' := by
  rw [queueAppendSig] at happ
  by_cases hstd : sig < sigRtMin
  · rw [if_pos hstd, appendStandardSignal] at happ
    by_cases hslot : hasStandardSignal (q.standardSignals (sig - 1)) = true
    · rw [if_pos hslot] at happ
      cases happ
    rw [if_neg hslot] at happ
    cases happ
    have hnew : hasStandardSignal signal = true := by
      have := hsig.1
      rw [hasStandardSignal]
      simp
      omega
    have happ' : Appends q sig signal (q.setStandard sig signal) := by
      intro sig' hsig'
      rw [contents_setStandard signal hsig hstd hsig', if_pos hnew]
      split_ifs with heq
      · rw [heq, contents_standard hstd, if_neg hslot, nil_append]
      · rfl
    exact ⟨hq.addset hsig happ' rfl hq.ring, happ'⟩
  · rw [if_neg hstd] at happ
    cases hrt : appendRtSignal (q.rtSignalQueues (sig - sigRtMin)) signal with
    | mk rt ret =>
      rw [hrt] at happ
      cases ret with
      | false => cases happ
      | true =>
        cases happ
        obtain ⟨hok, hcontents⟩ := appendRtSignal_true (hq.ring sig hstd) hrt
        have happ' : Appends q sig signal (q.setRt sig rt) := by
          intro sig' _
          rw [contents_setRt rt hstd]
          split_ifs with heq
          · rw [heq, contents_rt hstd, hcontents]
          · rfl
        exact ⟨hq.addset hsig happ' rfl (ring_setRt hq hstd hok), happ'⟩

/-- A queue that dropped a signal holds what it held; the indices of a ring buffer may have been
moved back. -/
theorem queueAppendSig_false (hq : q.Ok) (happ : queueAppendSig q sig signal = (q', false)) :
    q'.Ok ∧ q'.contents = q.contents := by
  rw [queueAppendSig] at happ
  by_cases hstd : sig < sigRtMin
  · rw [if_pos hstd] at happ
    cases hslot : appendStandardSignal (q.standardSignals (sig - 1)) signal with
    | some slot =>
      rw [hslot] at happ
      cases happ
    | none =>
      rw [hslot] at happ
      cases happ
      exact ⟨hq, rfl⟩
  · rw [if_neg hstd] at happ
    cases hrt : appendRtSignal (q.rtSignalQueues (sig - sigRtMin)) signal with
    | mk rt ret =>
      rw [hrt] at happ
      cases ret with
      | true => cases happ
      | false =>
        cases happ
        obtain ⟨hok, hcontents⟩ := appendRtSignal_false (hq.ring sig hstd) hrt
        have hsame : (q.setRt sig rt).contents = q.contents := by
          funext sig'
          rw [contents_setRt rt hstd]
          split_ifs with heq
          · rw [heq, contents_rt hstd, hcontents]
          · rfl
        refine ⟨⟨fun sig' hsig' => ?_, ring_setRt hq hstd hok⟩, hsame⟩
        have hmask := hq.mask sig' hsig'
        rwa [← hsame] at hmask

/-- The bit of the mask goes with the last instance. -/
theorem recalcPendingMask_eq (hring : ¬ sig < sigRtMin → (q.rtSignalQueues (sig - sigRtMin)).Ok) :
    recalcPendingMask q sig =
      if q.contents sig = [] then { q with pendingMask := sigdelset q.pendingMask sig } else q := by
  rw [recalcPendingMask]
  by_cases hstd : sig < sigRtMin
  · rw [if_pos hstd, contents_standard hstd]
    by_cases hslot : hasStandardSignal (q.standardSignals (sig - 1)) = true <;> simp
  · rw [if_neg hstd, contents_rt hstd]
    simp [isRtSqEmpty_iff (hring hstd)]

/-- The slots after an instance was taken, with the mask of before. -/
theorem SignalQueue.Ok.recalc (hq : q.Ok) (hsig : IsSig sig) (hpop : Pops q sig ptr q')
    (hmask : q'.pendingMask = q.pendingMask)
    (hring : ∀ sig, ¬ sig < sigRtMin → (q'.rtSignalQueues (sig - sigRtMin)).Ok) :
    (recalcPendingMask q' sig).Ok ∧ (recalcPendingMask q' sig).contents = q'.contents := by
  rw [recalcPendingMask_eq (hring sig)]
  have hne : ∀ sig', IsSig sig' → sig' ≠ sig →
      (sigismember q'.pendingMask sig' = true ↔ q'.contents sig' ≠ []) := by
    intro sig' hsig' hne
    have hcontents := hpop sig' hsig'
    rw [if_neg hne] at hcontents
    rw [hmask, ← hcontents]
    exact hq.mask sig' hsig'
  by_cases hnil : q'.contents sig = []
  · rw [if_pos hnil]
    refine ⟨⟨fun sig' hsig' => ?_, hring⟩, rfl⟩
    have hcontents : SignalQueue.contents
        { q' with pendingMask := sigdelset q'.pendingMask sig } sig' = q'.contents sig' := rfl
    rw [hcontents, sigismember_sigdelset hsig hsig']
    by_cases heq : sig' = sig
    · simp [heq, hnil]
    · rw [← hne sig' hsig' heq]
      simp [Ne.symm heq]
  · rw [if_neg hnil]
    refine ⟨⟨fun sig' hsig' => ?_, hring⟩, rfl⟩
    by_cases heq : sig' = sig
    · have hmem : sigismember q.pendingMask sig = true := by
        rw [hq.mask sig hsig, hpop sig hsig, if_pos rfl]
        exact cons_ne_nil _ _
      rw [heq, hmask]
      exact ⟨fun _ => hnil, fun _ => hmem⟩
    · exact hne sig' hsig' heq

/-- What comes out is the oldest instance, and the mask is correct again. -/
theorem popSignal_some (hq : q.Ok) (hsig : IsSig sig) (hpop : popSignal q sig = some (q', signal)) :
    q'.Ok ∧ ∃ ptr, Pops q sig ptr q' ∧ signal = ptr.getD .zero := by
  rw [popSignal] at hpop
  by_cases hstd : sig < sigRtMin
  · rw [if_pos hstd, popStandardSignal] at hpop
    by_cases hslot : hasStandardSignal (q.standardSignals (sig - 1)) = true
    · simp only [hslot] at hpop
      obtain ⟨rfl, rfl⟩ := hpop
      have hpops : Pops q sig (some (q.standardSignals (sig - 1)))
          (q.setStandard sig { q.standardSignals (sig - 1) with siSigno := 0 }) := by
        intro sig' hsig'
        rw [contents_setStandard _ hsig hstd hsig']
        by_cases heq : sig' = sig
        · rw [if_pos heq, if_pos heq, heq, contents_standard hstd, if_pos hslot]
          rfl
        · rw [if_neg heq, if_neg heq]
      obtain ⟨hok, hcontents⟩ := hq.recalc hsig hpops rfl hq.ring
      refine ⟨hok, some (q.standardSignals (sig - 1)), fun sig' hsig' => ?_, rfl⟩
      rw [hcontents]
      exact hpops sig' hsig'
    · simp [hslot] at hpop
  · rw [if_neg hstd] at hpop
    obtain ⟨⟨rt, ptr⟩, hrt, heq⟩ := Option.map_eq_some_iff.1 hpop
    cases heq
    obtain ⟨hok, hcontents⟩ := popRtSignal_some (hq.ring sig hstd) hrt
    have hpops : Pops q sig ptr (q.setRt sig rt) := by
      intro sig' _
      rw [contents_setRt rt hstd]
      split_ifs with heq
      · rw [heq, contents_rt hstd, hcontents]
      · rfl
    obtain ⟨hok', hcontents'⟩ := hq.recalc hsig hpops rfl (ring_setRt hq hstd hok)
    refine ⟨hok', ptr, fun sig' hsig' => ?_, rfl⟩
    rw [hcontents']
    exact hpops sig' hsig'

/-! ## Counting and order -/

/-- The number of instances in a queue. -/
def SignalQueue.total (q : SignalQueue) : Nat :=
  ∑ sig ∈ Icc 1 sigsCnt, (q.contents sig).length

theorem total_congr (h : q'.contents = q.contents) : q'.total = q.total := by
  rw [SignalQueue.total, h, SignalQueue.total]

/-- One more instance of one signal is one more in all. -/
theorem total_succ (hsig : IsSig sig)
    (h : ∀ sig', IsSig sig' → (q'.contents sig').length = (q.contents sig').length + if sig' = sig
      then 1 else 0) :
    q'.total = q.total + 1 := by
  have hmem : sig ∈ Icc 1 sigsCnt := mem_Icc.2 hsig
  calc q'.total
      = ∑ sig' ∈ Icc 1 sigsCnt, ((q.contents sig').length + if sig' = sig then 1 else 0) :=
        sum_congr rfl fun sig' hsig' => h sig' (mem_Icc.1 hsig')
    _ = q.total + 1 := by
        rw [sum_add_distrib, sum_ite_eq', if_pos hmem, SignalQueue.total]

theorem Appends.total (hsig : IsSig sig) (h : Appends q sig signal q') :
    q'.total = q.total + 1 := by
  refine total_succ hsig fun sig' hsig' => ?_
  rw [h sig' hsig']
  split
  · rw [length_append, length_singleton]
  · rfl

theorem Pops.total (hsig : IsSig sig) (h : Pops q sig ptr q') : q.total = q'.total + 1 := by
  refine total_succ hsig fun sig' hsig' => ?_
  rw [h sig' hsig']
  split
  · rw [length_cons]
  · rfl

/-- The instances of one signal among others. -/
def instances (sig : Nat) (l : List Siginfo) : List (Option Siginfo) :=
  (l.filter fun s => s.siSigno = (sig : Int)).map some

theorem instances_append (sig : Nat) (l : List Siginfo) (s : Siginfo) : instances sig (l ++ [s]) =
      if s.siSigno = (sig : Int) then instances sig l ++ [some s] else instances sig l := by
  rw [instances, filter_append, map_append, ← instances]
  by_cases h : s.siSigno = (sig : Int) <;> simp [h]

/-- What was put into a queue is what was taken from it, followed by what is in it. -/
def Fifo (appended popped : List Siginfo) (q : SignalQueue) : Prop :=
  ∀ sig, IsSig sig → instances sig appended = instances sig popped ++ q.contents sig

variable {appended popped : List Siginfo}

/-- The log of additions and the queue grow by the same instance. -/
theorem Fifo.append (h : Fifo appended popped q) (hsigno : signal.siSigno = sig)
    (happ : Appends q sig signal q') : Fifo (appended ++ [signal]) popped q' := by
  intro sig' hsig'
  have hiff : signal.siSigno = (sig' : Int) ↔ sig' = sig := by omega
  rw [instances_append, h sig' hsig', happ sig' hsig']
  by_cases heq : sig' = sig
  · rw [if_pos heq, if_pos (hiff.2 heq), append_assoc]
  · rw [if_neg heq, if_neg (mt hiff.1 heq)]

/-- The slot that is taken holds an instance of the signal. -/
theorem Fifo.ptr_eq (h : Fifo appended popped q) (hsig : IsSig sig) (hpop : Pops q sig ptr q') :
    ∃ s, ptr = some s ∧ s.siSigno = sig := by
  have hmem : ptr ∈ instances sig appended := by
    rw [h sig hsig, hpop sig hsig, if_pos rfl]
    exact mem_append_right _ mem_cons_self
  obtain ⟨s, hs, rfl⟩ := mem_map.1 hmem
  exact ⟨s, rfl, by simpa using (mem_filter.1 hs).2⟩

/-- The instance moves from the front of the queue to the end of the log. -/
theorem Fifo.pop (h : Fifo appended popped q) (hsig : IsSig sig) (hpop : Pops q sig ptr q') :
    Fifo appended (popped ++ [ptr.getD .zero]) q' := by
  obtain ⟨s, rfl, _⟩ := h.ptr_eq hsig hpop
  intro sig' hsig'
  have hiff : s.siSigno = (sig' : Int) ↔ sig' = sig := by omega
  rw [Option.getD_some, instances_append, h sig' hsig', hpop sig' hsig']
  by_cases heq : sig' = sig
  · rw [if_pos heq, if_pos (hiff.2 heq), append_assoc, singleton_append]
  · rw [if_neg heq, if_neg (mt hiff.1 heq)]

end Signal
