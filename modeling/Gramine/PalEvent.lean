import Gramine.Census
import Gramine.Transition

/-!
# PAL events

`pal_events.c` of the Linux-like hosts: an event is a word on which threads sleep with a
futex, a count of the threads in `_PalEventWait`, and a spinlock for both. The sections
under the spinlock are single steps. `_PalEventSet` wakes threads up after it has
released the lock, and a thread goes to sleep after it has released the lock, so anything
may happen in between.

The host's futex: a wait sleeps only if the word is 0 when it is made, and may end
early, with or without an error; a wake ends one sleep, or all of them.
-/

open Function

namespace PalEvent

open Census

/-- What a `FUTEX_WAIT` returns. -/
inductive FutexRet
  | ok
  | eagain
  | eintr
  | etimedout
  deriving DecidableEq, Repr

/-- `PAL_ERROR_INTERRUPTED` and `PAL_ERROR_TRYAGAIN`. -/
inductive PalError
  | interrupted
  | tryagain
  deriving DecidableEq, Repr

/-- The error that makes `_PalEventWait` return, by `unix_to_pal_error`; none if it goes on. -/
def FutexRet.error : FutexRet → Option PalError
  | .ok | .eagain => none
  | .eintr => some .interrupted
  | .etimedout => some .tryagain

/-- Where a thread is. -/
inductive Pc
  | idle
  /-- `_PalEventSet` after the section under the lock: threads have to be woken up. -/
  | setWake
  /-- `_PalEventWait` before the call of the futex, with or without a timeout. -/
  | waitFutex (timeout : Bool)
  /-- `_PalEventWait` asleep in the futex. -/
  | waitAsleep (timeout : Bool)
  /-- `_PalEventWait` after the call of the futex. -/
  | waitLock (timeout : Bool) (ret : FutexRet)
  deriving DecidableEq, Repr

/-- The event, the threads, and a record of what happened: the number of sets, of those
that found the event set already, of clears that found it set, and what the waits
returned. -/
structure State (T : Type) where
  autoClear : Bool
  initSignaled : Bool
  signaled : Bool
  waitersCnt : Nat
  pc : T → Pc
  sets : Nat
  merged : Nat
  cleared : Nat
  returned : List (T × Except PalError Unit)

/-- What a thread does next, or what the host does to it. -/
inductive Action (T : Type)
  | set
  | clear
  | wait (timeout : Bool)
  /-- `FUTEX_WAKE`: the thread that is woken up, if only one is. -/
  | wake (woken : Option T)
  /-- `FUTEX_WAIT` compares the word, and goes to sleep or not. -/
  | futexWait
  /-- `FUTEX_WAIT` ends without being woken up. -/
  | futexEnd (ret : FutexRet)
  /-- `_PalEventWait` takes the lock again. -/
  | lock
  deriving DecidableEq, Repr

section Step
variable {T : Type} [DecidableEq T]

/-- A thread moves on. -/
def State.goto (s : State T) (t : T) (pc : Pc) : State T :=
  { s with pc := update s.pc t pc }

/-- `_PalEventWait` returns: the waiter is no longer counted. -/
def State.leave (s : State T) (t : T) (ret : Except PalError Unit) : State T :=
  { s with
    waitersCnt := s.waitersCnt - 1
    returned := (t, ret) :: s.returned }.goto t .idle

/-- One round of the loop in `_PalEventWait`, under the lock. -/
def State.check (s : State T) (t : T) (timeout : Bool) : State T :=
  if s.signaled then
    -- an event that clears itself is taken
    { s with signaled := !s.autoClear }.leave t (.ok ())
  else s.goto t (.waitFutex timeout)

/-- `_PalEventSet`, under the lock. -/
def State.set (s : State T) (t : T) : State T :=
  { s with
    signaled := true
    sets := s.sets + 1
    merged := s.merged + s.signaled.toNat }.goto t (if 0 < s.waitersCnt then .setWake else .idle)

/-- `_PalEventClear`. -/
def State.clear (s : State T) : State T :=
  { s with
    signaled := false
    cleared := s.cleared + s.signaled.toNat }

/-- A thread that is woken up. -/
def Pc.wakeUp : Pc → Pc
  | .waitAsleep timeout => .waitLock timeout .ok
  | pc => pc

def Pc.isAsleep : Pc → Bool
  | .waitAsleep _ => true
  | _ => false

/-- A wait ends with a timeout only if there is one. -/
def FutexRet.allowed (ret : FutexRet) (timeout : Bool) : Prop := ret = .etimedout → timeout = true

/-- The steps. -/
inductive Step : State T → T × Action T → State T → Prop
  | set {s : State T} {t : T} (hpc : s.pc t = .idle) : Step s (t, .set) (s.set t)
  /-- An event that clears itself wakes up one thread, if one is asleep. -/
  | wakeOne {s : State T} {t u : T} (hpc : s.pc t = .setWake) (hauto : s.autoClear = true)
      (hu : (s.pc u).isAsleep = true) :
    Step s (t, .wake (some u)) ((s.goto u (s.pc u).wakeUp).goto t .idle)
  | wakeNone {s : State T} {t : T} (hpc : s.pc t = .setWake) (hauto : s.autoClear = true)
      (hnone : ∀ u, (s.pc u).isAsleep = false) :
    Step s (t, .wake none) (s.goto t .idle)
  /-- An event that does not clear itself wakes up all of them. -/
  | wakeAll {s : State T} {t : T} (hpc : s.pc t = .setWake) (hauto : s.autoClear = false) :
    Step s (t, .wake none) ({ s with pc := fun u => (s.pc u).wakeUp }.goto t .idle)
  | clear {s : State T} {t : T} (hpc : s.pc t = .idle) : Step s (t, .clear) s.clear
  | wait {s : State T} {t : T} (timeout : Bool) (hpc : s.pc t = .idle) :
    Step s (t, .wait timeout) ({ s with waitersCnt := s.waitersCnt + 1 }.check t timeout)
  | futexWait {s : State T} {t : T} {timeout : Bool} (hpc : s.pc t = .waitFutex timeout) :
    Step s (t, .futexWait)
      (s.goto t (if s.signaled then .waitLock timeout .eagain else .waitAsleep timeout))
  | futexEnd {s : State T} {t : T} {timeout : Bool} (ret : FutexRet)
      (hpc : s.pc t = .waitFutex timeout ∨ s.pc t = .waitAsleep timeout)
      (hret : ret.allowed timeout) :
    Step s (t, .futexEnd ret) (s.goto t (.waitLock timeout ret))
  | lock {s : State T} {t : T} {timeout : Bool} {ret : FutexRet}
      (hpc : s.pc t = .waitLock timeout ret) :
    Step s (t, .lock)
      (match ret.error with
        | some e => s.leave t (.error e)
        | none => s.check t timeout)

/-- After `_PalEventCreate`. -/
def Initial (s : State T) : Prop :=
  s.signaled = s.initSignaled ∧ s.waitersCnt = 0 ∧ (∀ t, s.pc t = .idle) ∧ s.sets = 0 ∧
    s.merged = 0 ∧ s.cleared = 0 ∧ s.returned = []

end Step

/-! ## Invariant -/

section Inv
variable {T : Type} [Fintype T] [DecidableEq T] {s s' : State T} {t u : T}

/-- The thread is in `_PalEventWait`. -/
def Pc.inWait : Pc → Bool
  | .waitFutex _ | .waitAsleep _ | .waitLock _ _ => true
  | _ => false

/-- The thread is about to look at the event again. -/
def Pc.rechecks : Pc → Bool
  | .waitLock _ ret => ret.error.isNone
  | _ => false

/-- The number of waits that returned 0. -/
def State.oks (s : State T) : Nat := s.returned.countP fun r => r.2.isOk

/-- The invariant: a set that nobody has seen yet leaves a thread that wakes up others, or
one that is awake already, unless nobody is asleep. -/
structure Inv (s : State T) : Prop where
  waiters : s.waitersCnt = count Pc.inWait s.pc
  balance : s.autoClear = true → s.initSignaled.toNat + s.sets =
    s.oks + s.merged + s.cleared + s.signaled.toNat
  wakes : s.signaled = true → (∃ t, s.pc t = .setWake) ∨ (∀ t, (s.pc t).isAsleep = false) ∨
    s.autoClear = true ∧ ∃ t, (s.pc t).rechecks = true

theorem Pc.inWait_wakeUp (l : Pc) : l.wakeUp.inWait = l.inWait := by cases l <;> rfl

theorem Pc.isAsleep_wakeUp (l : Pc) : l.wakeUp.isAsleep = false := by cases l <;> rfl

omit [DecidableEq T] in
theorem initial_inv (h : Initial s) : Inv s := by
  obtain ⟨hsig, hcnt, hpc, hsets, hmerged, hcleared, hret⟩ := h
  refine ⟨?_, fun _ => ?_, fun _ => .inr (.inl fun t => by rw [hpc t]; rfl)⟩
  · rw [hcnt, count_eq_zero.2 fun t => by rw [hpc t]; rfl]
  · simp [State.oks, hsig, hsets, hmerged, hcleared, hret]

omit [Fintype T] in
theorem wakes_update {A : Prop} {pc : T → Pc} {l : Pc}
    (h : (∃ u, pc u = .setWake) ∨ (∀ u, (pc u).isAsleep = false) ∨ A ∧ ∃ u, (pc u).rechecks = true)
    (hset : pc t ≠ .setWake) (hl : l.isAsleep = false)
    (hcheck : A → (pc t).rechecks = true → l.rechecks = true) :
    (∃ u, update pc t l u = .setWake) ∨ (∀ u, (update pc t l u).isAsleep = false) ∨
      A ∧ ∃ u, (update pc t l u).rechecks = true := by
  rcases h with ⟨u, hu⟩ | hnone | ⟨hauto, u, hu⟩
  · have hut : u ≠ t := by
      rintro rfl
      exact hset hu
    exact .inl ⟨u, (update_of_ne hut _ _).trans hu⟩
  · refine .inr (.inl ?_)
    exact (forall_update_iff pc fun _ l => l.isAsleep = false).2 ⟨hl, fun u _ => hnone u⟩
  refine .inr (.inr ⟨hauto, u, ?_⟩)
  by_cases hut : u = t
  · subst hut
    simpa using hcheck hauto hu
  · simpa [hut] using hu

theorem Inv.goto {l : Pc} (h : Inv s) (hwait : l.inWait = (s.pc t).inWait)
    (hset : s.pc t ≠ .setWake) (hasleep : l.isAsleep = true → s.signaled = false)
    (hcheck : (s.pc t).rechecks = true → l.rechecks = true) : Inv (s.goto t l) := by
  refine ⟨?_, h.balance, fun hsig => ?_⟩
  · have hcount := count_update Pc.inWait s.pc t l
    rw [hwait] at hcount
    exact h.waiters.trans (Nat.add_right_cancel hcount).symm
  have hl : l.isAsleep = false := by
    by_contra hl
    have := hasleep (by simpa using hl)
    rw [show s.signaled = true from hsig] at this
    cases this
  exact wakes_update (h.wakes hsig) hset hl fun _ => hcheck

/-- The thread leaves `_PalEventWait`; `hcnt` says that it is counted. -/
theorem leave_waiters {ret : Except PalError Unit}
    (hcnt : s.waitersCnt + (if (s.pc t).inWait then 1 else 0) = count Pc.inWait s.pc + 1) :
    (s.leave t ret).waitersCnt = count Pc.inWait (s.leave t ret).pc := by
  have hcount := count_update Pc.inWait s.pc t .idle
  rw [show Pc.idle.inWait = false from rfl, if_neg Bool.false_ne_true] at hcount
  show s.waitersCnt - 1 = count Pc.inWait (update s.pc t .idle)
  omega

/-- A round of the loop of `_PalEventWait`. -/
theorem Inv.check {n : Nat} (timeout : Bool) (h : Inv s) (hset : s.pc t ≠ .setWake)
    (hcnt : n + (if (s.pc t).inWait then 1 else 0) = count Pc.inWait s.pc + 1) :
    Inv ({ s with waitersCnt := n }.check t timeout) := by
  unfold State.check
  split_ifs with hsig
  · refine ⟨leave_waiters hcnt, fun hauto => ?_, fun hsig' => ?_⟩
    · have hbalance := h.balance hauto
      rw [show s.signaled = true from hsig, Bool.toNat_true] at hbalance
      have hauto' : s.autoClear = true := hauto
      have hok : (Except.ok () : Except PalError Unit).isOk = true := rfl
      simp only [State.leave, State.goto, State.oks, List.countP_cons, hauto', hok, Bool.not_true,
        Bool.toNat_false, if_true] at hbalance ⊢
      omega
    · -- it is still set, so it does not clear itself
      have hauto : s.autoClear = false := by simpa [State.leave, State.goto] using hsig'
      refine wakes_update (h.wakes hsig) hset rfl fun hauto' => ?_
      cases hauto.symm.trans hauto'
  · refine ⟨?_, h.balance, fun hsig' => absurd hsig' hsig⟩
    have hcount := count_update Pc.inWait s.pc t (.waitFutex timeout)
    rw [show (Pc.waitFutex timeout).inWait = true from rfl, if_pos rfl] at hcount
    show n = count Pc.inWait (update s.pc t (.waitFutex timeout))
    omega

theorem Inv.leaveError {e : PalError} (h : Inv s) (hwait : (s.pc t).inWait = true)
    (hcheck : (s.pc t).rechecks = false) (hset : s.pc t ≠ .setWake) :
    Inv (s.leave t (.error e)) := by
  refine ⟨leave_waiters (by rw [hwait, if_pos rfl, h.waiters]), fun hauto => ?_, fun hsig => ?_⟩
  · have hbalance := h.balance hauto
    simpa [State.leave, State.goto, State.oks, Except.isOk, Except.toBool] using hbalance
  refine wakes_update (h.wakes hsig) hset rfl fun _ hu => ?_
  cases hcheck.symm.trans hu

theorem Inv.set (h : Inv s) (hpc : s.pc t = .idle) : Inv (s.set t) := by
  unfold State.set
  refine ⟨?_, fun hauto => ?_, fun _ => ?_⟩
  · have hcount := count_update Pc.inWait s.pc t
      (if 0 < s.waitersCnt then .setWake else .idle)
    have hl : (if 0 < s.waitersCnt then Pc.setWake else .idle).inWait = false := by
      split_ifs <;> rfl
    rw [hpc, hl] at hcount
    exact h.waiters.trans hcount.symm
  · have hbalance := h.balance hauto
    simp only [State.goto, State.oks, Bool.toNat_true] at hbalance ⊢
    omega
  split_ifs with hwaiters
  · exact .inl ⟨t, update_self ..⟩
  -- nobody is in `_PalEventWait`, let alone asleep
  have hnone : ∀ u, (s.pc u).inWait = false :=
    count_eq_zero.1 (by rw [← h.waiters]; omega)
  refine .inr (.inl ((forall_update_iff s.pc fun _ l => l.isAsleep = false).2 ⟨rfl, fun u _ => ?_⟩))
  have hu := hnone u
  cases hl : s.pc u <;> rw [hl] at hu <;> first | rfl | cases hu

omit [DecidableEq T] in
theorem Inv.clear (h : Inv s) : Inv s.clear := by
  refine ⟨h.waiters, fun hauto => ?_, fun hsig => by cases hsig⟩
  have hbalance := h.balance hauto
  simp only [State.clear, State.oks, Bool.toNat_false] at hbalance ⊢
  omega

omit [DecidableEq T] in
/-- Threads are woken up: none of them sleeps on, or one of them looks at the event. -/
theorem Inv.wake {pc' : T → Pc} (h : Inv s) (hwait : ∀ u, (pc' u).inWait = (s.pc u).inWait)
    (hwoken : (∀ u, (pc' u).isAsleep = false) ∨
      s.autoClear = true ∧ ∃ u, (pc' u).rechecks = true) : Inv { s with pc := pc' } :=
  ⟨h.waiters.trans (count_congr fun u => hwait u).symm, h.balance, fun _ => .inr hwoken⟩

/-- **Every step keeps the invariant.** -/
theorem step_inv {label : T × Action T} (h : Inv s) (hs : Step s label s') : Inv s' := by
  cases hs with
  | set hpc => exact h.set hpc
  | clear hpc => exact h.clear
  | wait timeout hpc =>
    refine h.check timeout (by simp [hpc]) ?_
    rw [hpc, h.waiters]
    rfl
  | @futexWait t timeout hpc =>
    split_ifs with hsig
    · refine h.goto (by rw [hpc]; rfl) (by simp [hpc]) ?_ fun _ => rfl
      intro hasleep
      cases hasleep
    · refine h.goto (by rw [hpc]; rfl) (by simp [hpc]) (fun _ => by simpa using hsig) ?_
      rw [hpc]
      intro hcheck
      cases hcheck
  | @futexEnd t timeout ret hpc hret =>
    rcases hpc with hpc | hpc
    · refine h.goto (by rw [hpc]; rfl) (by simp [hpc]) (fun hasleep => by cases hasleep) ?_
      rw [hpc]
      intro hcheck
      cases hcheck
    · refine h.goto (by rw [hpc]; rfl) (by simp [hpc]) (fun hasleep => by cases hasleep) ?_
      rw [hpc]
      intro hcheck
      cases hcheck
  | @lock t timeout ret hpc =>
    cases he : ret.error with
    | some e =>
      refine h.leaveError (by rw [hpc]; rfl) ?_ (by simp [hpc])
      rw [hpc, Pc.rechecks, he]
      rfl
    | none =>
      refine h.check (n := s.waitersCnt) timeout (by simp [hpc]) ?_
      rw [hpc, h.waiters]
      rfl
  | @wakeOne t u hpc hauto hu =>
    have hut : u ≠ t := by
      rintro rfl
      rw [hpc] at hu
      cases hu
    have hwaked : (update (s.goto u (s.pc u).wakeUp).pc t .idle u).rechecks = true := by
      rw [update_of_ne hut, show (s.goto u (s.pc u).wakeUp).pc u = (s.pc u).wakeUp from
        update_self _ _ _]
      cases hl : s.pc u <;> rw [hl] at hu <;> first | rfl | cases hu
    refine h.wake (fun x => ?_) (.inr ⟨hauto, u, hwaked⟩)
    by_cases hxt : x = t
    · subst hxt
      simp [hpc, Pc.inWait]
    by_cases hxu : x = u
    · subst hxu
      simp [State.goto, hxt, Pc.inWait_wakeUp]
    · simp [State.goto, hxt, hxu]
  | @wakeNone t hpc hauto hnone =>
    refine h.wake ?_ (.inl ?_)
    · exact (forall_update_iff s.pc fun u l => l.inWait = (s.pc u).inWait).2
        ⟨by rw [hpc]; rfl, fun _ _ => rfl⟩
    · exact (forall_update_iff s.pc fun _ l => l.isAsleep = false).2 ⟨rfl, fun u _ => hnone u⟩
  | @wakeAll t hpc hauto =>
    refine h.wake ?_ (.inl ?_)
    · exact (forall_update_iff _ fun u (l : Pc) => l.inWait = (s.pc u).inWait).2
        ⟨by rw [hpc]; rfl, fun u _ => Pc.inWait_wakeUp _⟩
    · exact (forall_update_iff _ fun _ (l : Pc) => l.isAsleep = false).2
        ⟨rfl, fun u _ => Pc.isAsleep_wakeUp _⟩

omit [Fintype T] in
theorem check_returned (s : State T) (t : T) (timeout : Bool) :
    (s.check t timeout).returned = s.returned ∨
      (s.check t timeout).returned = (t, .ok ()) :: s.returned := by
  unfold State.check
  split_ifs
  · exact .inr rfl
  · exact .inl rfl

omit [Fintype T] in
theorem error_keeps_signaled {label : T × Action T} {e : PalError} (hs : Step s label s')
    (he : s'.returned = (t, .error e) :: s.returned) :
    s'.signaled = s.signaled ∧ s'.sets = s.sets := by
  have hsame : s'.returned ≠ s.returned := by
    rw [he]
    exact List.cons_ne_self _ _
  have hcheck : ∀ (r : State T) (u : T) (timeout : Bool), r.returned = s.returned →
      s' ≠ r.check u timeout := by
    rintro r u timeout hr rfl
    rcases check_returned r u timeout with h | h
    · exact hsame (h.trans hr)
    · rw [he] at h
      injection h with h
      cases h
  cases hs with
  | set hpc | wakeOne hpc hauto hu | wakeNone hpc hauto hnone | wakeAll hpc hauto | clear hpc =>
    exact absurd rfl hsame
  | wait timeout hpc => exact absurd rfl (hcheck _ _ timeout rfl)
  | futexWait hpc | futexEnd ret hpc hret => exact absurd rfl hsame
  | @lock u timeout ret hpc =>
    cases hr : ret.error with
    | some e => exact ⟨rfl, rfl⟩
    | none =>
      rw [hr] at hcheck
      exact absurd rfl (hcheck s u timeout rfl)

/-! ## Every run -/

/-- **Events lose no wake-up**: for any number of threads and every order of their steps,
the waiters are counted right; the waits that succeed on an event that clears itself are no
more than the sets, as each set is used up by one of them, or found by another set or by a
clear, or still there, and a wait that fails uses up none; and when the event is set and no
thread is about to wake up others, the threads in `_PalEventWait` are not all asleep. -/
theorem no_lost_wakeup (hr : Transition.Reachable Initial Step s) :
    s.waitersCnt = (Finset.univ.filter fun t => (s.pc t).inWait = true).card ∧
    (s.autoClear = true → s.oks ≤ s.sets + s.initSignaled.toNat ∧
      s.initSignaled.toNat + s.sets = s.oks + s.merged + s.cleared + s.signaled.toNat) ∧
    (∀ label s' t e, Step s label s' → s'.returned = (t, .error e) :: s.returned →
      s'.signaled = s.signaled ∧ s'.sets = s.sets) ∧
    ¬ (s.signaled = true ∧ (∀ t, s.pc t ≠ .setWake) ∧ (∃ t, (s.pc t).inWait = true) ∧
      ∀ t, (s.pc t).inWait = true → (s.pc t).isAsleep = true) := by
  have hinv : Inv s := hr.invariant (fun _ hs => initial_inv hs) fun _ _ _ h hs => step_inv h hs
  refine ⟨hinv.waiters, fun hauto => ?_, fun _ _ _ _ => error_keeps_signaled, ?_⟩
  · have hbalance := hinv.balance hauto
    exact ⟨by omega, hbalance⟩
  rintro ⟨hsig, hset, ⟨t, ht⟩, hall⟩
  rcases hinv.wakes hsig with ⟨u, hu⟩ | hnone | ⟨-, u, hu⟩
  · exact hset u hu
  · have := hall t ht
    rw [hnone t] at this
    cases this
  · cases hl : s.pc u <;> rw [hl] at hu <;> first | cases hu | skip
    have := hall u (by rw [hl]; rfl)
    rw [hl] at this
    cases this

/-- A thread is asleep when another sets the event, and is woken up. -/
theorem no_lost_wakeup_set :
    ∃ s : State (Fin 2), Transition.Reachable Initial Step s ∧ s.waitersCnt = 1 ∧
      s.signaled = true ∧ (s.pc 0).isAsleep = true ∧ (s.autoClear = true → s.oks ≤ s.sets) := by
  let s0 : State (Fin 2) := ⟨true, false, false, 0, fun _ => .idle, 0, 0, 0, []⟩
  have h0 : Transition.Reachable Initial Step s0 :=
    .init ⟨rfl, rfl, fun _ => rfl, rfl, rfl, rfl, rfl⟩
  have h1 := h0.step (0, .wait false) (.wait false rfl)
  have h2 := h1.step (0, .futexWait) (.futexWait rfl)
  have h3 := h2.step (1, .set) (.set rfl)
  exact ⟨_, h3, rfl, rfl, rfl, fun hauto => ((no_lost_wakeup h3).2.1 hauto).1⟩

end Inv

end PalEvent
