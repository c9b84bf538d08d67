import Gramine.EpollRun

/-!
# Modifying an item, and adding it again

`EPOLL_CTL_MOD` next to `EPOLL_CTL_DEL` followed by `EPOLL_CTL_ADD` with the same event, by one
thread that is not interrupted.
-/

open Function List Transition

namespace Epoll

open Heap

section
variable {T : Type}

/-- The access mode and the edge-trigger flags of a handle. -/
def Handle.flags (x : Handle) : (Bool × Bool) × Bool × Bool :=
  ((x.mayRead, x.mayWrite), x.needsEtPollIn, x.needsEtPollOut)

theorem flags_setNeedsEt (h : Nat) (events : Flags) (m : Heap T) :
    ((setNeedsEt h events m).handle h).flags =
      if events.has epollet then ((m.handle h).flags.1, true, true) else (m.handle h).flags := by
  unfold setNeedsEt
  split
  · simp [setHandle, Handle.flags]
  · rfl

theorem of_find {m : Heap T} {e fd h i : Nat} (hfind : m.find e fd h = some i) :
    i ∈ (m.epoll e).items ∧ (m.item i).fd = fd ∧ (m.item i).handle = h :=
  ⟨mem_of_find?_eq_some hfind, by simpa using find?_some hfind⟩

variable [DecidableEq T]

/-- The next `n` steps of a thread, with nothing in between. -/
def steps (t : T) (env : Env) : Nat → Heap T × Pc → Except Fault (Heap T × Pc)
  | 0, r => pure r
  | n + 1, r => execPc t env r.1 r.2 >>= steps t env n

/-- `do_epoll_del`, and then `do_epoll_add`. -/
def delAdd (t : T) (env : Env) (e h fd : Nat) (event : Event) (m : Heap T) :
    Except Fault (Heap T) := do
  let r ← steps t env 3 (m, .removing e h fd)
  let m ← newItem e h fd event r.1
  let r ← steps t env 3 (m, .adding e h r.1.nextItem)
  pure r.1

/-- The same items of an epoll up to their order, the same flags of a handle, and the same waiters
that have not been woken up. -/
structure SameView (e h : Nat) (m m' : Heap T) : Prop where
  items : ((m.epoll e).items.map m.item).Perm ((m'.epoll e).items.map m'.item)
  flags : (m.handle h).flags = (m'.handle h).flags
  waiters : (m.epoll e).waiters = (m'.epoll e).waiters

/-- The events that a handle cannot have, because of its access mode. -/
def Handle.cannot (x : Handle) : Flags :=
  (if x.mayRead then 0 else epollin ||| epollrdnorm) |||
    if x.mayWrite then 0 else epollout ||| epollwrnorm

theorem and_not_eq_self {x k : Flags} : x &&& ~~~k = x ↔ x &&& k = 0 := by
  constructor
  · intro hx
    rw [← hx, BitVec.and_assoc]
    simp
  · intro hx
    ext i hi
    have := congrArg (·[i]) hx
    grind

/-- When `do_epoll_add` stores what `do_epoll_mod` would. -/
theorem newEvents_eq_iff (x : Handle) (event : Event) :
    newEvents x event = event.events &&& ~~~epollNeedsRearm ↔ event.events &&& x.cannot = 0 := by
  have hmask : ∀ (b : Bool) (y k : Flags),
      (if b then y else y &&& ~~~k) = y &&& ~~~(if b then 0 else k) := by
    intro b y k
    cases b with
    | false => rfl
    | true => exact (and_not_eq_self.2 (BitVec.and_zero)).symm
  have hcannot : ~~~epollNeedsRearm &&& x.cannot = x.cannot := by
    unfold Handle.cannot
    cases x.mayRead <;> cases x.mayWrite <;> decide
  have hnew : newEvents x event = event.events &&& ~~~epollNeedsRearm &&& ~~~x.cannot := by
    simp only [newEvents, hmask]
    rw [Handle.cannot, BitVec.not_or, ← BitVec.and_assoc]
  rw [hnew, and_not_eq_self, BitVec.and_assoc, hcannot]

variable [Fintype T] {s : State T} {t : T} {env : Env} {e h fd i : Nat} {event : Event}

/-- `do_epoll_del` takes the item out of both lists and wakes the waiters up. -/
theorem Inv.del_alone (env : Env) (hinv : Inv s) (ht : s.pc t = .modifying e h fd event)
    (hfree : (s.heap.epoll e).lock = none) (hfind : s.heap.find e fd h = some i) :
    ∃ m, steps t env 3 (s.heap, .removing e h fd) = .ok (m, .leaving [e, h] (.ok ())) ∧
      s.BalancedAt t m (.modifying e h fd event) ∧ m.item = s.heap.item ∧
      m.nextItem = s.heap.nextItem ∧
      (m.handle h).flags = (s.heap.handle h).flags ∧
      (m.epoll e).items = (s.heap.epoll e).items.erase i := by
  have hb := hinv.balanced_at ht
  obtain ⟨hmem, hkey⟩ := of_find hfind
  have hie := hb.linked.items.owner_eq e i hmem
  have hepoll := hb.inEpoll hmem
  have hhandle := (hinv.agree i (hinv.not_half_of_free (by rw [hie]; exact hfree))).1 hepoll
  obtain ⟨hget, hb1⟩ := hb.getEpollItem (hb.alive_of_inEpoll hepoll)
  have hown : s.restItems t i + (Pc.modifying e h fd event).itemRefs.count i + [i].count i ≠ 0 := by
    rw [count_singleton_self]
    exact Nat.succ_ne_zero _
  set m1 := (s.heap.setItemRefCount i (s.heap.itemRefCount i + 1)).setLock e (some t) with hm1
  have hlocked := Heap.Alike.setLock (s.heap.setItemRefCount i (s.heap.itemRefCount i + 1)) e
    (some t)
  have hepoll1 : m1.InEpoll i := (hlocked.inEpoll_iff i).2 hepoll
  have hhandle1 : m1.InHandle i := hhandle
  obtain ⟨h2, hb2⟩ := (hb1.alike hlocked).unlinkHandle hown
  rw [← hm1, if_pos hhandle1] at h2 hb2
  obtain ⟨h3, hb3⟩ := hb2.unlinkEpoll hown
  have hepoll2 : (m1.unlinkedHandle i).InEpoll i := hepoll1
  rw [if_pos hepoll2] at h3 hb3
  have hb4 := hb3.alike (.interruptEpollWaiters _ e)
  have hwaiters : ∀ y, ((interruptEpollWaiters e ((m1.unlinkedHandle i).unlinkedEpoll i)).epoll
      y).waiters ≠ [] → (s.heap.epoll y).waiters ≠ [] := by
    intro y hy h0
    by_cases hye : y = e <;> simp [interruptEpollWaiters, setEpoll, hye, unlinkedEpoll,
      unlinkedHandle, m1, hie, setLock, setItemRefCount, setHandle, h0] at hy
  obtain ⟨m', h5, ⟨rc, hrc, rfl⟩, hb5⟩ := hb4.putEpollItem fun y hy => by
    have := hinv.restHandles_ne_zero ht (by simp) (hwaiters y hy)
    omega
  have hb6 := hb5.alike (.setLock _ e none)
  refine ⟨_, ?_, hb6, rfl, rfl, ?_, ?_⟩
  · simp [steps, execPc, execRemoving, hfind, hget, bind, Except.bind, pure, Except.pure, ← hm1,
      h2, execUnlinkingEpoll, h3, h5]
  · simp [setLock, setEpoll, interruptEpollWaiters, unlinkedEpoll,
      unlinkedHandle, setHandle, hkey, m1, Handle.flags, setItemRefCount]
  · simp [setLock, setEpoll, interruptEpollWaiters, unlinkedEpoll,
      unlinkedHandle, setHandle, hie, m1, setItemRefCount]

omit [Fintype T] in
/-- `do_epoll_add` puts its new item at the end of the list. -/
theorem add_alone (env : Env) {m : Heap T} {x : Item} (he : x.epollHandle = e) (hh : x.handle = h)
    (hnew : ∀ y ∈ (m.epoll e).items, y ≠ m.nextItem ∧
      ((m.item y).fd = x.fd → (m.item y).handle ≠ h)) :
    ∃ m', steps t env 3 (m.addItem x, .adding e h m.nextItem) =
        .ok (m', .putting [] (.ctl e h (.ok ()))) ∧
      (m'.epoll e).items = (m.epoll e).items ++ [m.nextItem] ∧ (m'.epoll e).waiters = [] ∧
      m'.item = update m.item m.nextItem x ∧
      (m'.handle h).flags = if x.events.has epollet then ((m.handle h).flags.1, true, true)
        else (m.handle h).flags := by
  have hfind : (m.addItem x).find e x.fd h = none := by
    refine find?_eq_none.2 fun y hy => ?_
    obtain ⟨hne, hother⟩ := hnew y hy
    simpa [addItem, hne] using hother
  have hitem : (m.addItem x).item m.nextItem = x := by simp [addItem]
  subst he hh
  simp only [steps, execPc, execAdding, hitem, hfind, linkEpoll, execLinking, linkHandle,
    getEpollItem, putEpollItem, bind, Except.bind, pure, Except.pure]
  by_cases het : x.events.has epollet = true <;>
    simp [addItem, setEpoll, setLock, setItemRefCount, setHandle,
      interruptEpollWaiters, setNeedsEt, het, Handle.flags]

/-- **Modifying is not the same as deleting and adding.** In every state that can be reached,
`EPOLL_CTL_MOD` with an event leaves the items, the flags and the waiters that `EPOLL_CTL_DEL` and
`EPOLL_CTL_ADD` leave exactly if the event has none that the handle cannot have. -/
theorem epollMod_eq_delAdd_iff (hr : Reachable Initial Step s)
    (ht : s.pc t = .modifying e h fd event) (hfree : (s.heap.epoll e).lock = none)
    (hfind : s.heap.find e fd h = some i)
    (hold : (s.heap.item i).events.has epollexclusive = false) (env : Env) :
    ∃ m, delAdd t env e h fd event s.heap = .ok m ∧
      (SameView e h (epollMod e h fd event s.heap).2 m ↔
        event.events &&& (s.heap.handle h).cannot = 0) := by
  have hinv := inv_of_reachable hr
  have hlinked := hinv.balanced.linked
  obtain ⟨m, hdel, hb, hitem, hnext, hflags, hitems⟩ := hinv.del_alone env ht hfree hfind
  have halive : ∀ x ∈ [e, h], m.handleRefCount x ≠ 0 := fun x hx =>
    hb.handle_alive_of_own (by
      have : 0 < (Pc.modifying e h fd event).handleRefs.count x := count_pos_iff.2 hx
      omega)
  obtain ⟨m1, x, ⟨rc, hrc, rfl⟩, hx, hnew, -⟩ := hb.newItem fd event (halive e (by simp))
    (halive h (by simp))
  obtain ⟨hmem, hkey⟩ := of_find hfind
  have hnodup := hlinked.items.nodup e
  have hold' : ∀ y ∈ (m.epoll e).items, y ≠ m.nextItem ∧
      ((m.item y).fd = x.fd → (m.item y).handle ≠ h) := by
    intro y hy
    rw [hitems] at hy
    have hy' := mem_of_mem_erase hy
    refine ⟨Nat.ne_of_lt ?_, fun hfd hh => ?_⟩
    · rw [hnext]
      exact hinv.balanced.lt_nextItem (hinv.balanced.alive_of_inEpoll (hinv.balanced.inEpoll hy'))
    rw [hitem] at hfd hh
    rw [hx] at hfd
    obtain rfl := hlinked.unique e y hy' i hmem (hfd.trans hkey.1.symm) (hh.trans hkey.2.symm)
    exact hnodup.not_mem_erase hy
  obtain ⟨m', hadd, hitems', hw', hitem', hflags'⟩ := add_alone (t := t)
    (m := { m with itemRefCount := rc, handleRefCount := hrc }) env (by rw [hx]) (by rw [hx]) hold'
  refine ⟨m', ?_, ?_⟩
  · simp only [delAdd, hdel, bind, Except.bind, hnew]
    exact congrArg (· >>= fun r => pure r.1) hadd
  have hmodes := (Prod.mk.inj hflags).1
  have hnewEvents : newEvents (m.handle h) event = newEvents (s.heap.handle h) event := by
    simp [newEvents, (Prod.mk.inj hmodes).1, (Prod.mk.inj hmodes).2]
  let y : Item := ⟨e, h, fd, event.events &&& ~~~epollNeedsRearm, event.data⟩
  have hyx : y = x ↔ event.events &&& (s.heap.handle h).cannot = 0 := by
    rw [← newEvents_eq_iff, hx, hnewEvents]
    simp [y, eq_comm]
  have hmod : (epollMod e h fd event s.heap).2 =
      interruptEpollWaiters e (setNeedsEt h y.events (s.heap.setItem i y)) := by
    simp [epollMod, hfind, hold, setItem, y, hlinked.items.owner_eq e i hmem, hkey]
  have hlists : ((s.heap.epoll e).items.map (update s.heap.item i y)).Perm
      ((m'.epoll e).items.map m'.item) ↔ y = x := by
    have hmap : ∀ (l : List Nat) j z, j ∉ l → l.map (update s.heap.item j z) = l.map s.heap.item :=
      fun l j z hj => map_congr_left fun k hk => update_of_ne (by rintro rfl; exact hj hk) ..
    have hleft := (perm_cons_erase hmem).map (update s.heap.item i y)
    rw [map_cons, update_self, hmap _ _ _ hnodup.not_mem_erase, ← hitems] at hleft
    rw [hleft.congr_left, hitems', hitem', map_append, hitem, hmap _ _ _ fun hn => (hold' _ hn).1
      rfl,
      map_singleton, update_self]
    exact (perm_append_comm.congr_right _).trans
      ((@perm_append_right_iff _ [y] [x] _).trans singleton_perm_singleton)
  rw [← hyx, hmod, ← hlists]
  constructor
  · rintro ⟨hi, -, -⟩
    simpa [interruptEpollWaiters, setEpoll, setItem] using hi
  intro hp
  refine ⟨?_, ?_, ?_⟩
  · simpa [interruptEpollWaiters, setEpoll, setItem] using hp
  · rw [hflags', ← hlists.1 hp]
    exact (flags_setNeedsEt ..).trans (by rw [hflags]; rfl)
  · rw [hw']
    simp [interruptEpollWaiters, setEpoll]

end

theorem epollMod_eq_delAdd_in : ∃ s, (modRun ⟨epollin, 9⟩).foldlM next exampleState = some s ∧
    ∃ m, delAdd 0 exampleEnv 0 1 4 ⟨epollin, 9⟩ s.heap = .ok m ∧
      SameView 0 1 (epollMod 0 1 4 ⟨epollin, 9⟩ s.heap).2 m := by
  obtain ⟨s, hs, hpc, hfree, hfind, hold, hread⟩ : ∃ s,
      (modRun ⟨epollin, 9⟩).foldlM next exampleState = some s ∧
      s.pc 0 = .modifying 0 1 4 ⟨epollin, 9⟩ ∧ (s.heap.epoll 0).lock = none ∧
      s.heap.find 0 4 1 = some 0 ∧ (s.heap.item 0).events.has epollexclusive = false ∧
      epollin &&& (s.heap.handle 1).cannot = 0 := by
    refine ⟨_, rfl, rfl, rfl, ?_, ?_, ?_⟩ <;> decide
  have hr := Reachable.of_foldlM next step_of_next (.init exampleState_initial) _ hs
  obtain ⟨m, hm, hiff⟩ := epollMod_eq_delAdd_iff hr hpc hfree hfind hold exampleEnv
  exact ⟨s, hs, m, hm, hiff.2 hread⟩

/-- With `EPOLLOUT`, the item is left with an event that the pipe cannot have. -/
theorem epollMod_out : ∃ s m, Reachable Initial Step s ∧
    s.pc (0 : Fin 2) = .modifying 0 1 4 ⟨epollout, 9⟩ ∧ (s.heap.epoll 0).items = [0] ∧
    ((epollMod 0 1 4 ⟨epollout, 9⟩ s.heap).2.item 0).events = epollout ∧
    delAdd 0 exampleEnv 0 1 4 ⟨epollout, 9⟩ s.heap = .ok m ∧ (m.epoll 0).items = [1] ∧
    (m.item 1).events = 0 := by
  refine ⟨_, _, .of_foldlM next step_of_next (.init exampleState_initial) (modRun ⟨epollout, 9⟩)
    rfl, rfl, rfl, ?_, rfl, rfl, ?_⟩ <;> decide

end Epoll
