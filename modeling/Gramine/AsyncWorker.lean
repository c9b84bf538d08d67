import Gramine.Transition

/-!
# The async worker

`libos_async.c`: threads install events (alarms and timers, asynchronous IO, threads to clean up)
in `async_list`, and the async worker waits for them. In a loop, the worker reads the clock, goes
over the list under the lock to find what to wait for and how long, waits without the lock, reads
the clock again and, under the lock, takes off the list what has happened.

A step is the part of a call under `async_worker_lock`, or a reading of the clock. The clock never
goes back, and everybody who read it may be late to use the reading. Failing allocations and
PAL calls in the worker end the process and are not modelled; `PalThreadCreate` may fail.
-/

open List Function

namespace AsyncWorker

/-- The function called when an event happens: `cleanup_thread`, or another one. -/
inductive Callback
  | cleanupThread
  | other (f : Nat)
  deriving DecidableEq, Repr

/-- `struct async_event`. -/
structure AsyncEvent where
  caller : Nat
  callback : Callback
  arg : Nat
  object : Option Nat
  expireTimeUs : Nat
  deriving DecidableEq, Repr

/-- `IDLE_SLEEP_TIME_US`. -/
def idleSleepTimeUs : Nat := 1000000

/-- `MAX_IDLE_CYCLES`. -/
def maxIdleCycles : Nat := 10000

/-! ## Installing an event -/

/-- `event->expire_time_us`; the sum is a `uint64_t`. -/
def expireTime (nowUs timeUs : Nat) : Nat := if timeUs ≠ 0 then (nowUs + timeUs) % 2 ^ 64 else 0

/-- The largest expiration time of the alarms that `install_async_event` cancels. -/
def maxPrevExpireTime (nowUs : Nat) (events : List AsyncEvent) : Nat :=
  events.foldl (fun m e => if e.expireTimeUs ≠ 0 ∧ m < e.expireTimeUs then e.expireTimeUs else m)
    nowUs

/-- The part of `install_async_event` under the lock, up to the creation of the worker: the list,
whether an event was added, and the value to return. -/
def installAsyncEvent (nowUs : Nat) (caller : Nat) (object : Option Nat) (timeUs : Nat)
    (callback : Callback) (arg : Nat) (events : List AsyncEvent) :
    List AsyncEvent × Bool × Nat :=
  let event := ⟨caller, callback, arg, object, expireTime nowUs timeUs⟩
  if callback ≠ .cleanupThread ∧ object = none then
    -- an alarm or timer cancels the pending ones
    let ret := maxPrevExpireTime nowUs events - nowUs
    let events := events.filter (fun e => e.expireTimeUs = 0)
    if timeUs = 0 then (events, false, ret) else (events ++ [event], true, ret)
  else (events ++ [event], true, 0)

/-! ## The worker -/

/-- What the worker finds on the list: the objects to wait for, the next expiring alarm or timer
(0 if there is none), and whether there is any other event. -/
structure Scan where
  pals : List Nat
  nextExpireTimeUs : Nat
  otherEvent : Bool
  deriving DecidableEq, Repr

/-- The body of the loop over `async_list`. -/
def scanEvent (nowUs : Nat) (r : Scan) (e : AsyncEvent) : Scan :=
  match e.object with
  | some object => { r with pals := r.pals ++ [object] }
  | none =>
    if e.expireTimeUs ≠ 0 ∧ nowUs < e.expireTimeUs then
      if r.nextExpireTimeUs = 0 ∨ e.expireTimeUs < r.nextExpireTimeUs then
        { r with nextExpireTimeUs := e.expireTimeUs }
      else r
    else { r with otherEvent := true }

/-- The loop over `async_list`. -/
def scan (nowUs : Nat) (events : List AsyncEvent) : Scan :=
  events.foldl (scanEvent nowUs) ⟨[], 0, false⟩

/-- How long to wait (`none` is `inf_sleep`), and the new `idle_cycles`. -/
def sleepTime (nowUs idleCycles : Nat) (r : Scan) : Option Nat × Nat :=
  if r.nextExpireTimeUs ≠ 0 then (some (r.nextExpireTimeUs - nowUs), 0)
  else if r.pals ≠ [] ∨ r.otherEvent then (none, 0)
  else (some idleSleepTimeUs, idleCycles + 1)

/-- A call of `PalStreamsWaitEvents`, with the list and the reading of the clock it was computed
from. -/
structure Wait where
  events : List AsyncEvent
  nowUs : Nat
  pals : List Nat
  timeout : Option Nat
  idleCycles : Nat
  deriving DecidableEq, Repr

/-- The call that follows a scan. -/
def waitFor (nowUs idleCycles : Nat) (events : List AsyncEvent) : Wait :=
  let r := scan nowUs events
  let (timeout, idleCycles) := sleepTime nowUs idleCycles r
  ⟨events, nowUs, r.pals, timeout, idleCycles⟩

/-- The objects of a call that are ready, as the events they belong to. -/
def triggeredObjects (ready : List Nat) (events : List AsyncEvent) : List AsyncEvent :=
  ready.filterMap fun object => events.find? (fun e => e.object = some object)

/-- The events that have happened besides those on objects. -/
def Due (nowUs : Nat) (e : AsyncEvent) : Prop :=
  e.callback = .cleanupThread ∨ e.expireTimeUs ≠ 0 ∧ e.expireTimeUs ≤ nowUs

instance (nowUs : Nat) (e : AsyncEvent) : Decidable (Due nowUs e) := by
  unfold Due
  infer_instance

/-- After the wait: the events left on the list, and those to call back. -/
def trigger (nowUs : Nat) (ready : List Nat) (events : List AsyncEvent) :
    List AsyncEvent × List AsyncEvent :=
  (events.filter (fun e => ¬ Due nowUs e),
    triggeredObjects ready events ++ events.filter (fun e => Due nowUs e))

/-! ## The system -/

/-- Where a worker is. -/
inductive Worker
  /-- There is no such thread. -/
  | absent
  /-- Created; it has not yet compared itself with `async_worker_thread`. -/
  | created
  /-- At the head of its loop. -/
  | loop (idleCycles : Nat)
  /-- It has read the clock, and will take the lock. -/
  | scanning (idleCycles nowUs : Nat)
  /-- In `PalStreamsWaitEvents`. -/
  | waiting (w : Wait)
  /-- Back from it, and it has read the clock. -/
  | woken (idleCycles nowUs : Nat) (ready : List Nat)
  /-- The thread has ended. -/
  | exited
  deriving DecidableEq, Repr

/-- The list, the state and the current worker, all threads that are or were workers, the clock,
and the events called back so far. -/
structure State where
  asyncList : List AsyncEvent
  alive : Bool
  asyncWorkerThread : Option Nat
  workers : Nat → Worker
  clock : Nat
  called : List AsyncEvent

/-- The steps. -/
inductive Label
  | tick (nowUs : Nat)
  | install (nowUs caller : Nat) (object : Option Nat) (timeUs : Nat) (callback : Callback)
      (arg : Nat) (created : Option Nat)
  | start (k : Nat)
  | readClock (k : Nat)
  | scan (k : Nat)
  | wake (k : Nat) (ready : List Nat)
  | trigger (k : Nat)
  | terminate
  deriving DecidableEq, Repr

/-- No event was ever installed. -/
def initial : State := ⟨[], false, none, fun _ => .absent, 0, []⟩

/-- What a step does; `none` if it cannot be taken. -/
def next (s : State) : Label → Option State
  | .tick nowUs => if s.clock ≤ nowUs then some { s with clock := nowUs } else none
  | .install nowUs caller object timeUs callback arg created =>
    -- the clock was read before the lock was taken
    if nowUs ≤ s.clock ∧ (object = none ∨ timeUs = 0) then
      let (events, added, _) :=
        installAsyncEvent nowUs caller object timeUs callback arg s.asyncList
      let s := { s with asyncList := events }
      if added ∧ s.alive = false then
        match created with
        | some k =>
          -- `create_async_worker`
          if s.workers k = .absent then
            some { s with alive := true, asyncWorkerThread := some k,
                          workers := update s.workers k .created }
          else none
        | none => some s
      else some s
    else none
  | .start k =>
    match s.workers k with
    | .created =>
      let w := if s.asyncWorkerThread = some k then .loop 0 else .exited
      some { s with workers := update s.workers k w }
    | _ => none
  | .readClock k =>
    match s.workers k with
    | .loop idleCycles =>
      some { s with workers := update s.workers k (.scanning idleCycles s.clock) }
    | _ => none
  | .scan k =>
    match s.workers k with
    | .scanning idleCycles nowUs =>
      if s.alive = false then
        some { s with asyncWorkerThread := none, workers := update s.workers k .exited }
      else
        let w := waitFor nowUs idleCycles s.asyncList
        if w.idleCycles = maxIdleCycles then
          some { s with alive := false, asyncWorkerThread := none,
                        workers := update s.workers k .exited }
        else some { s with workers := update s.workers k (.waiting w) }
    | _ => none
  | .wake k ready =>
    match s.workers k with
    | .waiting w =>
      if ∀ object ∈ ready, object ∈ w.pals then
        some { s with workers := update s.workers k (.woken w.idleCycles s.clock ready) }
      else none
    | _ => none
  | .trigger k =>
    match s.workers k with
    | .woken idleCycles nowUs ready =>
      let (events, triggered) := trigger nowUs ready s.asyncList
      some { s with asyncList := events, called := s.called ++ triggered,
                    workers := update s.workers k (.loop idleCycles) }
    | _ => none
  | .terminate => some { s with alive := false }

/-- One step. -/
def Step (s : State) (l : Label) (s' : State) : Prop := next s l = some s'

/-- The states of all runs. -/
def Reachable (s : State) : Prop := Transition.Reachable (fun s => s = initial) Step s

/-! ## What a scan finds -/

/-- An alarm or timer. -/
def Timer (e : AsyncEvent) : Prop := e.object = none ∧ e.callback ≠ .cleanupThread

/-- An event that is not on an object and expires later. -/
def Future (nowUs : Nat) (e : AsyncEvent) : Prop := e.object = none ∧ nowUs < e.expireTimeUs

/-- What the loop over `async_list` has found. -/
structure ScanSpec (nowUs : Nat) (events : List AsyncEvent) (r : Scan) : Prop where
  next_zero : r.nextExpireTimeUs = 0 → ∀ e ∈ events, ¬ Future nowUs e
  next_mem : r.nextExpireTimeUs ≠ 0 → ∃ e ∈ events, Future nowUs e ∧
    e.expireTimeUs = r.nextExpireTimeUs
  next_le : ∀ e ∈ events, Future nowUs e → r.nextExpireTimeUs ≤ e.expireTimeUs
  other : ∀ e ∈ events, e.object = none → ¬ Future nowUs e → r.otherEvent = true

section
variable {nowUs : Nat} {events : List AsyncEvent} {e : AsyncEvent} {r r' : Scan}
  (h : ScanSpec nowUs events r)
include h

theorem ScanSpec.skip (he : ¬ Future nowUs e) (hnext : r'.nextExpireTimeUs = r.nextExpireTimeUs)
    (hother : r.otherEvent = true ∨ e.object = none → r'.otherEvent = true) :
    ScanSpec nowUs (events ++ [e]) r' := by
  refine ⟨?_, ?_, ?_, ?_⟩
  · intro h0 x hx
    rcases mem_append.1 hx with hx | hx
    · exact h.next_zero (hnext ▸ h0) x hx
    · rwa [mem_singleton.1 hx]
  · intro h0
    rw [hnext] at h0
    obtain ⟨x, hx, hf, hxe⟩ := h.next_mem h0
    exact ⟨x, mem_append_left _ hx, hf, hxe.trans hnext.symm⟩
  · intro x hx hf
    rcases mem_append.1 hx with hx | hx
    · rw [hnext]
      exact h.next_le x hx hf
    · rw [mem_singleton.1 hx] at hf
      exact absurd hf he
  · intro x hx hobj hf
    rcases mem_append.1 hx with hx | hx
    · exact hother (.inl (h.other x hx hobj hf))
    · rw [mem_singleton.1 hx] at hobj
      exact hother (.inr hobj)

theorem ScanSpec.future (he : Future nowUs e)
    (hnext : r'.nextExpireTimeUs = r.nextExpireTimeUs ∧ r.nextExpireTimeUs ≠ 0 ∧
      r.nextExpireTimeUs ≤ e.expireTimeUs ∨
      r'.nextExpireTimeUs = e.expireTimeUs ∧
      (r.nextExpireTimeUs = 0 ∨ e.expireTimeUs < r.nextExpireTimeUs))
    (hother : r'.otherEvent = r.otherEvent) : ScanSpec nowUs (events ++ [e]) r' := by
  have he0 : e.expireTimeUs ≠ 0 := Nat.ne_of_gt (Nat.zero_lt_of_lt he.2)
  refine ⟨?_, ?_, ?_, ?_⟩
  · intro h0
    rcases hnext with ⟨h1, h2, -⟩ | ⟨h1, -⟩
    · exact absurd (h1 ▸ h0) h2
    · exact absurd (h1 ▸ h0) he0
  · intro _
    rcases hnext with ⟨h1, h2, -⟩ | ⟨h1, -⟩
    · obtain ⟨x, hx, hf, hxe⟩ := h.next_mem h2
      exact ⟨x, mem_append_left _ hx, hf, hxe.trans h1.symm⟩
    · exact ⟨e, mem_append_right _ mem_cons_self, he, h1.symm⟩
  · intro x hx hf
    rcases mem_append.1 hx with hx | hx
    · have hle := h.next_le x hx hf
      rcases hnext with ⟨h1, -, -⟩ | ⟨h1, h2 | h2⟩
      · omega
      · exact absurd hf (h.next_zero h2 x hx)
      · omega
    · rw [mem_singleton.1 hx]
      omega
  · intro x hx hobj hf
    rw [hother]
    rcases mem_append.1 hx with hx | hx
    · exact h.other x hx hobj hf
    · rw [mem_singleton.1 hx] at hf
      exact absurd he hf

end

theorem scan_spec (nowUs : Nat) (events : List AsyncEvent) :
    ScanSpec nowUs events (scan nowUs events) := by
  induction events using List.reverseRecOn with
  | nil => exact ⟨by simp, by simp [scan], by simp, by simp⟩
  | append_singleton events e ih =>
    rw [scan, foldl_append, foldl_cons, foldl_nil, ← scan]
    cases hobj : e.object with
    | some object =>
      refine ih.skip (fun hf => ?_) ?_ ?_
      · rw [Future, hobj] at hf
        cases hf.1
      · rw [scanEvent, hobj]
      rw [scanEvent, hobj]
      rintro (h | h)
      · exact h
      · cases h
    | none =>
      by_cases hfut : e.expireTimeUs ≠ 0 ∧ nowUs < e.expireTimeUs
      · refine ih.future ⟨hobj, hfut.2⟩ ?_ ?_
        · rw [scanEvent, hobj]
          simp only [if_pos hfut]
          by_cases hlt : (scan nowUs events).nextExpireTimeUs = 0 ∨
              e.expireTimeUs < (scan nowUs events).nextExpireTimeUs
          · rw [if_pos hlt]
            exact .inr ⟨rfl, hlt⟩
          · rw [if_neg hlt]
            exact .inl ⟨rfl, by omega, by omega⟩
        · rw [scanEvent, hobj]
          simp only [if_pos hfut]
          split <;> rfl
      · refine ih.skip (fun hf => hfut ⟨Nat.ne_of_gt (Nat.zero_lt_of_lt hf.2), hf.2⟩) ?_ ?_
        · rw [scanEvent, hobj]
          simp [if_neg hfut]
        · rw [scanEvent, hobj]
          simp [if_neg hfut]

/-! ## Timers and the wait -/

/-- The call does not sleep past an alarm or timer of the list: there is a timeout, and it is over
when the earliest one expires. Without a timeout there is none on the list. -/
structure Wait.NeverLate (w : Wait) : Prop where
  timeout : (∃ e ∈ w.events, Timer e) → ∃ t, w.timeout = some t ∧
    ∀ e ∈ w.events, Timer e → t ≤ e.expireTimeUs - w.nowUs
  infinite : w.timeout = none → ∀ e ∈ w.events, ¬ Timer e

/-- No alarm or timer of the list had expired when the worker read the clock. -/
def Wait.NoneExpired (w : Wait) : Prop := ∀ e ∈ w.events, Timer e → w.nowUs < e.expireTimeUs

/-- The call after a scan is right about the timers unless one of them had expired: the scan takes
an expired one for an event that needs no timeout. -/
theorem waitFor_neverLate_iff (nowUs idleCycles : Nat) (events : List AsyncEvent) :
    (waitFor nowUs idleCycles events).NeverLate ↔
      (waitFor nowUs idleCycles events).NoneExpired := by
  have hspec := scan_spec nowUs events
  have htimeout : (waitFor nowUs idleCycles events).timeout =
      (sleepTime nowUs idleCycles (scan nowUs events)).1 := rfl
  constructor
  · intro h e he ht
    refine not_le.1 fun hle => ?_
    obtain ⟨t, hsome, hmax⟩ := h.timeout ⟨e, he, ht⟩
    have ht0 : t ≤ e.expireTimeUs - nowUs := hmax e he ht
    rw [htimeout, sleepTime] at hsome
    -- an expired timer gives no timeout, and a timer that has not expired a positive one
    split at hsome
    · rename_i hnext
      obtain ⟨x, -, hx, hxe⟩ := hspec.next_mem hnext
      have hlt : nowUs < x.expireTimeUs := hx.2
      have hsub : (scan nowUs events).nextExpireTimeUs - nowUs = t := Option.some.inj hsome
      have hle' : e.expireTimeUs ≤ nowUs := hle
      omega
    · have hother := hspec.other e he ht.1 (fun hf => absurd hf.2 (not_lt.2 hle))
      rw [if_pos (.inr hother)] at hsome
      cases hsome
  · intro h
    have hfut : ∀ e ∈ events, Timer e → Future nowUs e := fun e he ht => ⟨ht.1, h e he ht⟩
    by_cases hnext : (scan nowUs events).nextExpireTimeUs = 0
    · have hnone : ∀ e ∈ events, ¬ Timer e :=
        fun e he ht => hspec.next_zero hnext e he (hfut e he ht)
      exact ⟨fun ⟨e, he, ht⟩ => absurd ht (hnone e he), fun _ => hnone⟩
    have hsome : (waitFor nowUs idleCycles events).timeout =
        some ((scan nowUs events).nextExpireTimeUs - nowUs) := by
      rw [htimeout, sleepTime, if_pos hnext]
    refine ⟨fun _ => ⟨_, hsome, fun e he ht => ?_⟩, fun hn => ?_⟩
    · have hle := hspec.next_le e he (hfut e he ht)
      exact Nat.sub_le_sub_right hle nowUs
    · cases hsome.symm.trans hn

/-- What a worker waits for is what its scan found. -/
def Worker.Ok (x : Worker) : Prop :=
  ∀ w, x = .waiting w → ∃ idleCycles, w = waitFor w.nowUs idleCycles w.events

/-- Every worker waits for what its scan found. -/
def WaitsOk (s : State) : Prop := ∀ k, (s.workers k).Ok

/-- What a step can make of a worker. -/
def Worker.Fresh (clock : Nat) : Worker → Prop
  | .waiting w => ∃ idleCycles, w = waitFor w.nowUs idleCycles w.events
  | .woken _ nowUs _ => nowUs = clock
  | _ => True

theorem next_workers {s s' : State} {l : Label} (hs : next s l = some s') : s.clock ≤ s'.clock ∧
      ∀ j, s'.workers j = s.workers j ∨ (s'.workers j).Fresh s.clock := by
  have hsame : s.clock ≤ s.clock ∧ ∀ j, s.workers j = s.workers j ∨ (s.workers j).Fresh s.clock :=
    ⟨le_rfl, fun _ => .inl rfl⟩
  have hupdate : ∀ k x, Worker.Fresh s.clock x → s.clock ≤ s.clock ∧
      ∀ j, update s.workers k x j = s.workers j ∨ (update s.workers k x j).Fresh s.clock := by
    refine fun k x hx => ⟨le_rfl, fun j => ?_⟩
    by_cases hj : j = k
    · rw [hj, update_self]
      exact .inr hx
    · exact .inl (update_of_ne hj _ _)
  cases l <;> simp only [next] at hs
  case tick nowUs =>
    obtain ⟨hle, hs⟩ := Option.ite_none_right_eq_some.1 hs
    cases hs
    exact ⟨hle, fun _ => .inl rfl⟩
  case install nowUs caller object timeUs callback arg created =>
    obtain ⟨-, hs⟩ := Option.ite_none_right_eq_some.1 hs
    split at hs
    · cases created with
      | none =>
        cases hs
        exact hsame
      | some k =>
        obtain ⟨-, hs⟩ := Option.ite_none_right_eq_some.1 hs
        cases hs
        exact hupdate k _ trivial
    · cases hs
      exact hsame
  case start k =>
    split at hs
    · cases hs
      refine hupdate k _ ?_
      split <;> trivial
    · cases hs
  case readClock k | trigger k =>
    split at hs
    · cases hs
      exact hupdate k _ trivial
    · cases hs
  case scan k =>
    split at hs
    · split at hs
      · cases hs
        exact hupdate k _ trivial
      · split at hs
        · cases hs
          exact hupdate k _ trivial
        · cases hs
          exact hupdate k _ ⟨_, rfl⟩
    · cases hs
  case wake k ready =>
    split at hs
    · obtain ⟨-, hs⟩ := Option.ite_none_right_eq_some.1 hs
      cases hs
      exact hupdate k _ rfl
    · cases hs
  case terminate =>
    cases hs
    exact hsame

theorem WaitsOk.step {s s' : State} {l : Label} (h : WaitsOk s) (hs : Step s l s') :
    WaitsOk s' := by
  intro k w hw
  rcases (next_workers hs).2 k with hsame | hfresh
  · exact h k w (hsame ▸ hw)
  · rw [hw] at hfresh
    exact hfresh

theorem Reachable.of_run {s : State} {run : List Label} (h : run.foldlM next initial = some s) :
    Reachable s :=
  Transition.Reachable.of_foldlM next (fun _ _ _ h => h) (.init rfl) run h

theorem Reachable.waitsOk {s : State} (h : Reachable s) : WaitsOk s := by
  apply h.invariant
  · intro s hs k
    subst hs
    exact fun w hw => nomatch hw
  · intro s l s' ih hs
    exact ih.step hs

/-- In every run, a call of `PalStreamsWaitEvents` never sleeps past an alarm or timer exactly when
none of the list had expired at the clock reading of its scan. -/
theorem worker_wait_neverLate_iff {s : State} (h : Reachable s) {k : Nat} {w : Wait}
    (hw : s.workers k = .waiting w) : w.NeverLate ↔ w.NoneExpired := by
  obtain ⟨idleCycles, hwait⟩ := h.waitsOk k w hw
  rw [hwait]
  exact waitFor_neverLate_iff _ _ _

/-- An alarm after 10 microseconds, and the worker that was created for it waits. -/
def alarmRun : List Label :=
  [.install 0 1 none 10 (.other 0) 0 (some 7), .start 7, .readClock 7, .scan 7]

theorem worker_wait_neverLate_iff_alarm : let w := waitFor 0 0 [⟨1, .other 0, 0, none, 10⟩]
    (w.NeverLate ↔ w.NoneExpired) ∧ w.timeout = some 10 := by
  have hrun : ∃ s, alarmRun.foldlM next initial = some s ∧
      s.workers 7 = .waiting (waitFor 0 0 [⟨1, .other 0, 0, none, 10⟩]) := ⟨_, rfl, rfl⟩
  obtain ⟨s, hs, hw⟩ := hrun
  exact ⟨worker_wait_neverLate_iff (.of_run hs) hw, rfl⟩

/-- The worker is woken (by `install_new_event`) and reads the clock just before the alarm expires,
so the alarm stays on the list. When the worker reads the clock again, the alarm has expired. -/
def lateRun : List Label :=
  alarmRun ++ [.tick 9, .wake 7 [], .trigger 7, .tick 11, .readClock 7, .scan 7]

theorem alarm_sleeps_forever : ∃ s w, Reachable s ∧ s.workers 7 = .waiting w ∧
    ⟨1, .other 0, 0, none, 10⟩ ∈ w.events ∧ w.timeout = none ∧ ¬ w.NeverLate := by
  have hrun : ∃ s, lateRun.foldlM next initial = some s ∧
      s.workers 7 = .waiting (waitFor 11 0 [⟨1, .other 0, 0, none, 10⟩]) := ⟨_, rfl, rfl⟩
  obtain ⟨s, hs, hw⟩ := hrun
  have hmem : (⟨1, .other 0, 0, none, 10⟩ : AsyncEvent) ∈
      (waitFor 11 0 [⟨1, .other 0, 0, none, 10⟩]).events := mem_cons_self
  refine ⟨s, _, .of_run hs, hw, hmem, rfl, fun h => ?_⟩
  exact h.infinite rfl _ hmem ⟨rfl, by decide⟩

end AsyncWorker
