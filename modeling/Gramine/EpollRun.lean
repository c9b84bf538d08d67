import Gramine.EpollRefs

/-!
# Epoll: all interleavings

What holds in every state that the operations of any number of threads can reach: the counters are
right, the two lists of an item agree unless its epoll is locked, and the reference counts are the
numbers of lists and operations that have references. No assertion fails on the way.
-/

open Function List Transition Fallible

namespace Epoll

open Holders

variable {T : Type}

/-! ## What the operations hold -/

/-- The references to items. -/
def Pc.itemRefs : Pc → List Nat
  | .adding _ _ i | .linking _ _ i | .unlinking _ i _ | .unlinkingEpoll _ i _ | .found _ _ i => [i]
  | .interrupting _ items _ | .waiting _ items | .putting items _ => items
  | _ => []

def Caller.handleRefs (e : Nat) : Caller → List Nat
  | .del h => [e, h]
  | .delete _ h => [h]

def Cont.handleRefs : Cont → List Nat
  | .ctl e h _ => [e, h]
  | .delete _ h | .interrupt h => [h]
  | .wait e _ => [e]

/-- The references to handles. -/
def Pc.handleRefs : Pc → List Nat
  | .idle => []
  | .ctlEpoll _ e _ _ | .gathering e | .waiting e _ => [e]
  | .ctl _ e _ h _ | .adding e h _ | .linking e h _ | .modifying e h _ _ | .removing e h _ => [e, h]
  | .unlinking e _ caller | .unlinkingEpoll e _ caller => caller.handleRefs e
  | .deleting _ h | .found _ h _ | .collecting h | .interrupting h _ _ => [h]
  | .putting _ k => k.handleRefs
  | .leaving handles _ => handles

/-- The epoll whose lock a thread holds. -/
def Pc.holds : Pc → Option Nat
  | .linking e _ _ | .unlinking e _ _ | .unlinkingEpoll e _ _ | .putting _ (.wait e _) => some e
  | _ => none

/-- The item whose lists may disagree because the thread is between its two lists. -/
def Pc.half : Pc → Option Nat
  | .linking _ _ i | .unlinkingEpoll _ i _ => some i
  | _ => none

/-- The item that the thread is about to add. -/
def Pc.pending : Pc → Option Nat
  | .adding _ _ i | .linking _ _ i => some i
  | _ => none

/-- The item that the thread links or unlinks. -/
def Pc.about : Pc → Option Nat
  | .adding _ _ i | .linking _ _ i | .unlinking _ i _ | .unlinkingEpoll _ i _ => some i
  | _ => none

/-- What a thread knows about its item. -/
def Pc.Fits (m : Heap T) : Pc → Prop
  | .adding e h i =>
    (m.item i).epollHandle = e ∧ (m.item i).handle = h ∧ ¬m.InEpoll i ∧ ¬m.InHandle i
  | .linking e h i =>
    (m.item i).epollHandle = e ∧ (m.item i).handle = h ∧ m.InEpoll i ∧ ¬m.InHandle i
  | .unlinking e i _ => (m.item i).epollHandle = e
  | .unlinkingEpoll e i _ => (m.item i).epollHandle = e ∧ ¬m.InHandle i
  | _ => True

section Inv
variable [Fintype T]

structure Inv (s : State T) : Prop where
  balanced : s.heap.Balanced (total Pc.itemRefs s.pc) (total Pc.handleRefs s.pc)
  locks : Holders.Owned Pc.holds s.pc fun e => (s.heap.epoll e).lock
  fits : ∀ t, (s.pc t).Fits s.heap
  /-- Each new item has one thread that adds it. -/
  pending : ∀ t u i, (s.pc t).pending = some i → (s.pc u).pending = some i → t = u
  /-- An item is in both lists or in neither, unless some thread is between the two. -/
  agree : ∀ i, (∀ t, (s.pc t).half ≠ some i) → (s.heap.InEpoll i ↔ s.heap.InHandle i)
  waiters : ∀ e, ∀ t ∈ (s.heap.epoll e).waiters, ∃ items, s.pc t = .waiting e items
  waiters_nodup : ∀ e, (s.heap.epoll e).waiters.Nodup

theorem inv_initial {s : State T} (h : Initial s) : Inv s := by
  have hitems : ∀ i, total Pc.itemRefs s.pc i = 0 := fun i =>
    total_eq_zero fun t => by simp [h.idle t, Pc.itemRefs]
  have hhandles : ∀ i, total Pc.handleRefs s.pc i = 0 := fun i =>
    total_eq_zero fun t => by simp [h.idle t, Pc.handleRefs]
  have hepoll : ∀ e, s.heap.epoll e = ⟨[], 0, [], none⟩ := fun e => (h.lists e).2.2
  refine
    { balanced := ⟨⟨?_, ?_, ?_⟩, fun i => ?_, fun x => ?_, fun i _ => h.items i,
        fun x _ => h.handles x⟩
      locks := fun t e => by simp [hepoll, h.idle t, Pc.holds]
      fits := fun t => by simp [h.idle t, Pc.Fits]
      pending := fun t u i ht => by simp [h.idle t, Pc.pending] at ht
      agree := fun i _ => by simp [Heap.InEpoll, Heap.InHandle, hepoll, (h.lists _).1]
      waiters := fun e t ht => by simp [hepoll] at ht
      waiters_nodup := fun e => by simp [hepoll] }
  · simp only [hepoll]
    exact .nothing
  · simp only [(h.lists _).1, (h.lists _).2.1]
    exact .nothing
  · intro e i hi
    simp [hepoll] at hi
  · simp [h.items, hitems, Heap.listRefs, Heap.InEpoll, Heap.InHandle, hepoll, (h.lists _).1]
  · simp [h.handles, h.fds, h.nextItem, hhandles]

end Inv

/-- What a step does to the items that exist: they stay what they are, and only the thread that is
about to add an item puts it into a list. -/
structure Grows (s s' : State T) : Prop where
  nextItem : s.heap.nextItem ≤ s'.heap.nextItem
  item : ∀ i < s.heap.nextItem, (s'.heap.item i).epollHandle = (s.heap.item i).epollHandle ∧
    (s'.heap.item i).handle = (s.heap.item i).handle ∧ (s'.heap.item i).fd = (s.heap.item i).fd
  pending : ∀ i < s.heap.nextItem, ∀ t, (s'.pc t).pending = some i → (s.pc t).pending = some i
  linked : ∀ i < s.heap.nextItem, s'.heap.InHandle i →
    s.heap.InHandle i ∨ ∃ t, (s.pc t).pending = some i

/-- A step that is as it should be. -/
structure Next [Fintype T] (s s' : State T) : Prop where
  inv : Inv s'
  grows : Grows s s'

/-! ## Small changes of the heap -/

section Heap
variable {m m' : Heap T} {p : Pc}

theorem Pc.Fits.same (h : p.Fits m) (hs : m.Same m') : p.Fits m' := by
  cases p <;>
    simp only [Pc.Fits, hs.epollHandle, hs.itemHandle, hs.inEpoll_iff, hs.inHandle_iff] at * <;>
    exact h

theorem Pc.Fits.of_about (h : p.Fits m) (hitem : ∀ i ∈ p.about, m'.item i = m.item i)
    (hepoll : ∀ i ∈ p.about, (m'.InEpoll i ↔ m.InEpoll i))
    (hhandle : ∀ i ∈ p.about, (m'.InHandle i ↔ m.InHandle i)) : p.Fits m' := by
  cases p <;> simp only [Pc.Fits, Pc.about] at * <;>
    simp_all

section
variable {j : Nat} (h : p.Fits m) (habout : p.about = some j) (hhalf : p.half ≠ some j)
  (hitem : m'.item j = m.item j)
include h habout hhalf hitem

theorem Pc.Fits.of_unlinking (hpending : p.pending ≠ some j) : p.Fits m' := by
  cases p <;> simp_all [Pc.Fits, Pc.about, Pc.pending, Pc.half]

theorem Pc.Fits.of_unlinked (hepoll : m'.InEpoll j → m.InEpoll j)
    (hhandle : m'.InHandle j → m.InHandle j) : p.Fits m' := by
  cases p <;> simp_all [Pc.Fits, Pc.about, Pc.half]

end

/-- A thread between the lists of an item holds the lock of its epoll. -/
theorem Pc.Fits.holds_of_half {j : Nat} (h : p.Fits m) (hhalf : p.half = some j) :
    p.holds = some (m.item j).epollHandle := by
  cases p <;> simp_all [Pc.Fits, Pc.half, Pc.holds]

theorem Pc.about_mem_itemRefs {i : Nat} (h : p.about = some i) : i ∈ p.itemRefs := by
  cases p <;> simp_all [Pc.about, Pc.itemRefs]

theorem Pc.about_of_pending {i : Nat} (h : p.pending = some i) : p.about = some i := by
  cases p <;> simp_all [Pc.about, Pc.pending]

theorem Heap.Counted.same (h : m.Counted m') : m.Same m' := by
  obtain ⟨-, -, rfl⟩ := h
  constructor <;> intros <;> rfl

theorem Heap.Counted.epoll (h : m.Counted m') : m'.epoll = m.epoll := by
  obtain ⟨-, -, rfl⟩ := h
  rfl

theorem lock_setEpoll (e : Nat) (x : EpollHandle T) : (fun y => ((m.setEpoll e x).epoll y).lock) =
    update (fun y => (m.epoll y).lock) e x.lock := by
  funext y
  simp only [Heap.setEpoll, update_apply]
  split <;> rfl

theorem waiters_setEpoll (e y : Nat) (x : EpollHandle T) : ((m.setEpoll e x).epoll y).waiters =
    if y = e then x.waiters else (m.epoll y).waiters := by
  simp only [Heap.setEpoll, update_apply]
  split <;> rfl

theorem lock_setEpoll_self {e : Nat} {x : EpollHandle T} (hx : x.lock = (m.epoll e).lock) :
    (fun y => ((m.setEpoll e x).epoll y).lock) = fun y => (m.epoll y).lock :=
  funext (field_update EpollHandle.lock hx)

theorem waiters_setEpoll_self {e : Nat} {x : EpollHandle T} (hx : x.waiters = (m.epoll e).waiters)
    (y : Nat) : ((m.setEpoll e x).epoll y).waiters = (m.epoll y).waiters :=
  field_update EpollHandle.waiters hx y

theorem lock_setLock (e : Nat) (owner : Option T) : (fun y => ((m.setLock e owner).epoll y).lock) =
    update (fun y => (m.epoll y).lock) e owner :=
  lock_setEpoll e _

theorem waiters_setLock (e y : Nat) (owner : Option T) :
    ((m.setLock e owner).epoll y).waiters = (m.epoll y).waiters :=
  waiters_setEpoll_self (by rfl) y

theorem lock_interrupt (e : Nat) :
    (fun y => ((interruptEpollWaiters e m).epoll y).lock) = fun y => (m.epoll y).lock :=
  lock_setEpoll_self (by rfl)

theorem waiters_interrupt (e y : Nat) :
    ((interruptEpollWaiters e m).epoll y).waiters = (m.epoll y).waiters ∨
      ((interruptEpollWaiters e m).epoll y).waiters = [] := by
  rw [interruptEpollWaiters, waiters_setEpoll]
  split
  · exact .inr rfl
  · exact .inl rfl

@[simp] theorem epoll_setNeedsEt (h : Nat) (events : Flags) :
    (setNeedsEt h events m).epoll = m.epoll := by
  unfold setNeedsEt
  split <;> rfl

@[simp] theorem item_setNeedsEt (h : Nat) (events : Flags) :
    (setNeedsEt h events m).item = m.item := by
  unfold setNeedsEt
  split <;> rfl

theorem reportItem_spec (m : Heap T) (r : Nat × Flags) :
    m.Alike (reportItem m r) ∧ (reportItem m r).epoll = m.epoll := by
  have hclear := Heap.Alike.clearNeedsEt m (m.item r.1).handle (m.item r.1).events r.2
  have hepoll : (clearNeedsEt (m.item r.1).handle (m.item r.1).events r.2 m).epoll = m.epoll := by
    unfold clearNeedsEt
    split <;> rfl
  simp only [reportItem]
  split
  · exact ⟨hclear.trans (.setItem _ rfl rfl rfl), hepoll⟩
  · exact ⟨hclear, hepoll⟩

theorem foldl_reportItem_spec (reported : List (Nat × Flags)) (m : Heap T) :
    m.Alike (reported.foldl reportItem m) ∧ (reported.foldl reportItem m).epoll = m.epoll := by
  induction reported generalizing m with
  | nil => exact ⟨.refl m, rfl⟩
  | cons r reported ih =>
    obtain ⟨hone, hepoll⟩ := reportItem_spec m r
    obtain ⟨hrest, hepoll'⟩ := ih (reportItem m r)
    exact ⟨hone.trans hrest, hepoll'.trans hepoll⟩

/-- `do_epoll_mod` changes events and data, and wakes up the waiters. -/
theorem epollMod_spec (e h fd : Nat) (event : Event) (m : Heap T) :
    m.Alike (epollMod e h fd event m).2 ∧
    ((fun y => ((epollMod e h fd event m).2.epoll y).lock) = fun y => (m.epoll y).lock) ∧
    ∀ y, ((epollMod e h fd event m).2.epoll y).waiters = (m.epoll y).waiters ∨
      ((epollMod e h fd event m).2.epoll y).waiters = [] := by
  have hstay : m.Alike m ∧ ((fun y => (m.epoll y).lock) = fun y => (m.epoll y).lock) ∧
      ∀ y, (m.epoll y).waiters = (m.epoll y).waiters ∨ (m.epoll y).waiters = [] :=
    ⟨.refl m, rfl, fun _ => .inl rfl⟩
  unfold epollMod
  split
  · exact hstay
  rename_i i _
  split
  · exact hstay
  have hitem : m.Alike (m.setItem i { m.item i with
      events := event.events &&& ~~~epollNeedsRearm
      data := event.data }) := .setItem _ rfl rfl rfl
  refine ⟨(hitem.trans (.setNeedsEt _ h _)).trans (.interruptEpollWaiters _ e), ?_, fun y => ?_⟩
  · simp only [lock_interrupt, epoll_setNeedsEt]
    rfl
  have hw := waiters_interrupt (m := setNeedsEt h (event.events &&& ~~~epollNeedsRearm)
    (m.setItem i { m.item i with
      events := event.events &&& ~~~epollNeedsRearm
      data := event.data })) e y
  simp only [epoll_setNeedsEt] at hw
  simpa [Heap.setItem] using hw

/-- The search of `delete_epoll_items_for_fd`: its assertion holds. -/
theorem findFd_eq (fd : Nat) {h : Nat}
    (howner : ∀ i ∈ (m.handle h).epollItems, (m.item i).handle = h) :
    m.findFd fd h = .ok ((m.handle h).epollItems.find? fun i => (m.item i).fd = fd) := by
  unfold Heap.findFd
  generalize (m.handle h).epollItems = items at howner
  induction items with
  | nil => rfl
  | cons i items ih =>
    rw [foldr_cons, if_neg (not_not.2 (howner i mem_cons_self)), find?_cons]
    by_cases hfd : (m.item i).fd = fd
    · simp [hfd, pure, Except.pure]
    · simp only [hfd]
      exact ih fun j hj => howner j (mem_cons_of_mem i hj)

end Heap

/-! ## The step of one thread -/

section Thread
variable [Fintype T] [DecidableEq T] {s : State T} {t : T} {m m' : Heap T} {p p' : Pc}

/-- The references to items of the other threads. -/
def State.restItems (s : State T) (t : T) : Nat → Nat :=
  total Pc.itemRefs (update s.pc t .idle)

/-- The references to handles of the other threads. -/
def State.restHandles (s : State T) (t : T) : Nat → Nat :=
  total Pc.handleRefs (update s.pc t .idle)

theorem total_update_idle (refs : Pc → List Nat) (hidle : refs .idle = []) (pc : T → Pc) (t : T)
    (p : Pc) (x : Nat) : total refs (update pc t p) x =
      total refs (update pc t .idle) x + (refs p).count x := by
  have hmove := total_update refs (update pc t .idle) t p x
  rwa [update_idem, update_self, hidle] at hmove

/-- The counts, with the references of one thread apart. -/
def State.BalancedAt (s : State T) (t : T) (m : Heap T) (p : Pc) : Prop :=
  m.Balanced (fun x => s.restItems t x + p.itemRefs.count x)
    fun x => s.restHandles t x + p.handleRefs.count x

theorem Inv.balanced_at (hinv : Inv s) (ht : s.pc t = p) : s.BalancedAt t s.heap p := by
  have hself : update s.pc t p = s.pc := by
    rw [← ht]
    exact update_eq_self t s.pc
  refine hinv.balanced.congr (fun x => ?_) fun x => ?_
  · rw [State.restItems, ← total_update_idle Pc.itemRefs rfl, hself]
  · rw [State.restHandles, ← total_update_idle Pc.handleRefs rfl, hself]

theorem balanced_goto (hb : s.BalancedAt t m' p') :
    m'.Balanced (total Pc.itemRefs (update s.pc t p'))
      (total Pc.handleRefs (update s.pc t p')) :=
  hb.congr (fun x => (total_update_idle Pc.itemRefs rfl s.pc t p' x).symm)
    fun x => (total_update_idle Pc.handleRefs rfl s.pc t p' x).symm

section
omit [DecidableEq T]

theorem Inv.alive (hinv : Inv s) {i : Nat} (h : i ∈ (s.pc t).itemRefs) :
    s.heap.itemRefCount i ≠ 0 :=
  hinv.balanced.alive_of_own (pos_iff_ne_zero.1 (total_pos h))

theorem Inv.not_half_of_free (hinv : Inv s) {i : Nat}
    (hfree : (s.heap.epoll (s.heap.item i).epollHandle).lock = none) (u : T) :
    (s.pc u).half ≠ some i := by
  intro hu
  have hlock : (s.heap.epoll (s.heap.item i).epollHandle).lock = some u :=
    (hinv.locks u _).2 ((hinv.fits u).holds_of_half hu)
  cases hfree.symm.trans hlock

theorem Inv.not_half_of_holds (hinv : Inv s) {i : Nat}
    (hholds : (s.pc t).holds = some (s.heap.item i).epollHandle) {u : T} (hu : u ≠ t) :
    (s.pc u).half ≠ some i := fun hhalf =>
  hu (hinv.locks.unique ((hinv.fits u).holds_of_half hhalf) hholds)

end

variable {e : Nat}

theorem Inv.restHandles_ne_zero (hinv : Inv s) (ht : s.pc t = p)
    (hne : ∀ items, p ≠ .waiting e items) (hw : (s.heap.epoll e).waiters ≠ []) : s.restHandles t e
      ≠ 0 := by
  obtain ⟨u, hu⟩ := exists_mem_of_ne_nil _ hw
  obtain ⟨items, hitems⟩ := hinv.waiters e u hu
  have hut : u ≠ t := by
    rintro rfl
    exact hne items (ht.symm.trans hitems)
  refine pos_iff_ne_zero.1 (total_pos (t := u) ?_)
  rw [update_of_ne hut, hitems]
  exact mem_singleton_self e

/-- The waiters after a step of `t`: the old ones, and `t` where it waits. -/
def State.Waiters (s : State T) (t : T) (m' : Heap T) (p' : Pc) : Prop :=
  (∀ e, ∀ u ∈ (m'.epoll e).waiters,
    u ≠ t ∧ u ∈ (s.heap.epoll e).waiters ∨ u = t ∧ ∃ items, p' = .waiting e items) ∧
  ∀ e, (m'.epoll e).waiters.Nodup

theorem State.Waiters.waits (h : s.Waiters t m' p') (hinv : Inv s) (e : Nat) (u : T)
    (hu : u ∈ (m'.epoll e).waiters) :
    ∃ items, update s.pc t p' u = .waiting e items := by
  rcases h.1 e u hu with ⟨hut, hold⟩ | ⟨rfl, items, hp⟩
  · obtain ⟨items, hitems⟩ := hinv.waiters e u hold
    exact ⟨items, (update_of_ne hut _ _).trans hitems⟩
  · exact ⟨items, (update_self ..).trans hp⟩

/-- **A step that changes no list.** -/
theorem Inv.same_lists (hinv : Inv s) (hs : s.heap.Same m') (hb : s.BalancedAt t m' p')
    (hlocks : Holders.Owned Pc.holds (update s.pc t p') fun e => (m'.epoll e).lock)
    (hfits : p'.Fits m') (hpending : p'.pending = none) (hhalf : (s.pc t).half = none)
    (hwaiters : s.Waiters t m' p') : Next s (s.goto t (m', p')) := by
  have hpend : ∀ i w, (update s.pc t p' w).pending = some i →
      (s.pc w).pending = some i := by
    intro i
    refine (forall_update_iff s.pc fun w p => p.pending = some i → _).2 ⟨?_, fun _ _ => id⟩
    rw [hpending]
    nofun
  refine
    { inv :=
        { balanced := balanced_goto hb
          locks := hlocks
          fits := (forall_update_iff s.pc fun _ p => p.Fits m').2
            ⟨hfits, fun u _ => (hinv.fits u).same hs⟩
          pending := fun u v i hu hv => hinv.pending u v i (hpend i u hu) (hpend i v hv)
          agree := fun i hi => ?_
          waiters := hwaiters.waits hinv
          waiters_nodup := hwaiters.2 }
      grows :=
        { nextItem := le_of_eq hs.nextItem.symm
          item := fun i _ => ⟨hs.epollHandle i, hs.itemHandle i, hs.fd i⟩
          pending := fun i _ => hpend i
          linked := fun i _ hi => .inl ((hs.inHandle_iff i).1 hi) } }
  refine (hs.inEpoll_iff i).trans ((hinv.agree i fun u => ?_).trans (hs.inHandle_iff i).symm)
  by_cases hut : u = t
  · subst hut
    rw [hhalf]
    nofun
  · simpa [State.goto, hut] using hi u

/-- **A step that changes the lists of one item.** -/
theorem Inv.one_item (hinv : Inv s) (j : Nat) (hb : s.BalancedAt t m' p')
    (hlocks : Holders.Owned Pc.holds (update s.pc t p') fun e => (m'.epoll e).lock)
    (hitem : ∀ i, i ≠ j → m'.item i = s.heap.item i)
    (hepoll : ∀ i, i ≠ j → (m'.InEpoll i ↔ s.heap.InEpoll i))
    (hhandle : ∀ i, i ≠ j → (m'.InHandle i ↔ s.heap.InHandle i))
    (hothers : ∀ u, u ≠ t → (s.pc u).about = some j → (s.pc u).Fits m') (hfits : p'.Fits m')
    (hpending : ∀ i, p'.pending = some i → i = j ∧ ∀ u, u ≠ t → (s.pc u).pending ≠ some i)
    (hhalf : ∀ i, (s.pc t).half = some i → i = j)
    (hagree : p'.half ≠ some j → (m'.InEpoll j ↔ m'.InHandle j))
    (hnext : s.heap.nextItem ≤ m'.nextItem)
    (hold : j < s.heap.nextItem → m'.item j = s.heap.item j ∧
      (p'.pending = some j → (s.pc t).pending = some j) ∧
      (m'.InHandle j → s.heap.InHandle j ∨ (s.pc t).pending = some j))
    (hwaiters : s.Waiters t m' p') : Next s (s.goto t (m', p')) := by
  refine
    { inv :=
        { balanced := balanced_goto hb
          locks := hlocks
          fits := (forall_update_iff s.pc fun _ p => p.Fits m').2 ⟨hfits, fun u hut => ?_⟩
          pending := fun u v i hu hv => ?_
          agree := fun i hi => ?_
          waiters := hwaiters.waits hinv
          waiters_nodup := hwaiters.2 }
      grows :=
        { nextItem := hnext
          item := fun i hi => ?_
          pending := fun i hi => (forall_update_iff s.pc fun u p => p.pending = some i → _).2
            ⟨fun hp => ?_, fun _ _ => id⟩
          linked := fun i hi hin => ?_ } }
  · by_cases hj : (s.pc u).about = some j
    · exact hothers u hut hj
    · have hne : ∀ i ∈ (s.pc u).about, i ≠ j := by
        rintro i hi rfl
        exact hj hi
      exact (hinv.fits u).of_about (fun i hi => hitem i (hne i hi))
        (fun i hi => hepoll i (hne i hi)) fun i hi => hhandle i (hne i hi)
  · simp only [State.goto] at hu hv
    by_cases hut : u = t <;> by_cases hvt : v = t
    · exact hut.trans hvt.symm
    · rw [hut, update_self] at hu
      rw [update_of_ne hvt] at hv
      exact absurd hv ((hpending i hu).2 v hvt)
    · rw [hvt, update_self] at hv
      rw [update_of_ne hut] at hu
      exact absurd hu ((hpending i hv).2 u hut)
    · rw [update_of_ne hut] at hu
      rw [update_of_ne hvt] at hv
      exact hinv.pending u v i hu hv
  · by_cases hij : i = j
    · subst hij
      refine hagree ?_
      simpa [State.goto] using hi t
    · refine (hepoll i hij).trans ((hinv.agree i fun u hu => ?_).trans (hhandle i hij).symm)
      by_cases hut : u = t
      · subst hut
        exact hij (hhalf i hu)
      · exact hi u (by simpa [State.goto, hut] using hu)
  · have heq : m'.item i = s.heap.item i := by
      by_cases hij : i = j
      · subst hij
        exact (hold hi).1
      · exact hitem i hij
    simp [State.goto, heq]
  · obtain rfl := (hpending i hp).1
    exact (hold hi).2.1 hp
  by_cases hij : i = j
  · subst hij
    exact ((hold hi).2.2 hin).imp_right fun h => ⟨t, h⟩
  · exact .inl ((hhandle i hij).1 hin)

omit [DecidableEq T] in
theorem Inv.waiters_sub (hinv : Inv s) (m' : Heap T) (p' : Pc) (ht : s.pc t = p)
    (hne : ∀ e items, p ≠ .waiting e items)
    (hsub : ∀ e, (m'.epoll e).waiters = (s.heap.epoll e).waiters ∨ (m'.epoll e).waiters = []) :
    s.Waiters t m' p' := by
  refine ⟨fun e u hu => .inl ?_, fun e => ?_⟩
  · rcases hsub e with hsame | hnil
    · rw [hsame] at hu
      refine ⟨?_, hu⟩
      rintro rfl
      obtain ⟨items, hitems⟩ := hinv.waiters e u hu
      exact hne e items (ht.symm.trans hitems)
    · rw [hnil] at hu
      cases hu
  · rcases hsub e with hsame | hnil
    · rw [hsame]
      exact hinv.waiters_nodup e
    · rw [hnil]
      exact nodup_nil

omit [DecidableEq T] in
theorem Inv.waiters_one (hinv : Inv s) (e : Nat) (ws : List T)
    (hm : ∀ y, (m'.epoll y).waiters = if y = e then ws else (s.heap.epoll y).waiters)
    (hne : ∀ y items, s.pc t = .waiting y items → y = e)
    (hws : ∀ u ∈ ws, u ≠ t ∧ u ∈ (s.heap.epoll e).waiters ∨ u = t ∧ ∃ items, p' = .waiting e items)
    (hnodup : ws.Nodup) : s.Waiters t m' p' := by
  refine ⟨fun y u hu => ?_, fun y => ?_⟩
  · rw [hm] at hu
    split at hu
    · rename_i hy
      exact hy ▸ hws u hu
    rename_i hy
    refine .inl ⟨?_, hu⟩
    rintro rfl
    obtain ⟨items, hitems⟩ := hinv.waiters y u hu
    exact hy (hne y items hitems)
  · rw [hm]
    split
    · exact hnodup
    · exact hinv.waiters_nodup y

theorem Inv.same_epolls (hinv : Inv s) (ht : s.pc t = p) (hs : s.heap.Same m')
    (hepoll : m'.epoll = s.heap.epoll)
    (hb : s.BalancedAt t m' p')
    (hne : ∀ e items, p ≠ .waiting e items) (hhalf : p.half = none) (hholds : p'.holds = p.holds)
    (hpending : p'.pending = none) (hfits : p'.Fits m') : Next s (s.goto t (m', p')) := by
  subst ht
  have hw := hinv.waiters_sub m' p' rfl hne fun e => .inl (by rw [hepoll])
  refine hinv.same_lists hs hb ?_ hfits hpending hhalf hw
  rw [hepoll]
  exact hinv.locks.keep hholds

theorem Inv.stay (hinv : Inv s) (ht : s.pc t = p) (hb : s.BalancedAt t s.heap p')
    (hne : ∀ e items, p ≠ .waiting e items) (hhalf : p.half = none)
    (h : p'.holds = p.holds ∧ p'.pending = none ∧ p'.Fits s.heap) :
    Next s (s.goto t (s.heap, p')) :=
  hinv.same_epolls ht (.refl _) rfl hb hne hhalf h.1 h.2.1 h.2.2

variable {fd h : Nat}

theorem Inv.get_first (hinv : Inv s) (ht : s.pc t = .idle) (hfd : (fd, h) ∈ s.heap.fds) :
    ∃ m', getHandle h s.heap = .ok m' ∧ m'.handle = s.heap.handle ∧
      ∀ p' : Pc, p'.itemRefs = [] → p'.handleRefs = [h] → p'.holds = none → p'.pending = none →
        p'.Fits m' → Next s (s.goto t (m', p')) := by
  have hb := hinv.balanced_at ht
  obtain ⟨hget, hb'⟩ := hb.getHandle (hb.handle_alive_of_fd hfd)
  have hm' : s.heap.Counted (s.heap.setHandleRefCount h (s.heap.handleRefCount h + 1)) :=
    ⟨_, _, rfl⟩
  refine ⟨_, hget, rfl, fun p' hitems hhandles hholds hpending hfits => ?_⟩
  refine hinv.same_epolls ht hm'.same hm'.epoll (hb'.congr (fun x => ?_) fun x => ?_) nofun rfl
    hholds hpending hfits
  · rw [hitems]
    rfl
  · rw [hhandles]
    rfl

theorem Inv.call {c : Call} (hinv : Inv s) (ht : s.pc t = .idle) (hc : c.entry ∈ s.heap.fds) :
    ∃ r, execCall s.heap c = .ok r ∧ Next s (s.goto t r) := by
  cases c with
  | epollCtl epfd e fd op =>
    obtain ⟨m', hget, -, hgoto⟩ := hinv.get_first ht hc
    refine ⟨_, ?_, hgoto (.ctlEpoll epfd e fd op) rfl rfl rfl rfl trivial⟩
    simp only [execCall, hget]
    rfl
  | close fd h =>
    have hb := (hinv.balanced_at ht).detachFd hc
    refine ⟨_, rfl, hinv.same_epolls ht ?_ rfl hb nofun rfl rfl rfl trivial⟩
    constructor <;> intros <;> rfl
  | interruptEpolls fd h =>
    obtain ⟨m', hget, -, hgoto⟩ := hinv.get_first ht hc
    refine ⟨_, ?_, hgoto (.collecting h) rfl rfl rfl rfl trivial⟩
    simp only [execCall, hget]
    rfl
  | epollWait epfd e =>
    obtain ⟨m', hget, hhandle, hgoto⟩ := hinv.get_first ht hc
    by_cases htype : (s.heap.handle e).type = .epoll
    · refine ⟨_, ?_, hgoto (.gathering e) rfl rfl rfl rfl trivial⟩
      simp only [execCall, hget, bind, Except.bind, hhandle, htype]
      rfl
    · refine ⟨_, ?_, hgoto (.leaving [e] (.error .einval)) rfl rfl rfl rfl trivial⟩
      simp only [execCall, hget, bind, Except.bind, hhandle, htype]
      rfl

theorem count_cons_eq (i : Nat) (l : List Nat) (x : Nat) :
    (i :: l).count x = l.count x + [i].count x := by
  have hsplit : ([i] ++ l).count x = [i].count x + l.count x := count_append
  rw [singleton_append] at hsplit
  omega

variable {env : Env}

/-- `epoll_ctl` finds the second handle. -/
theorem Inv.ctlEpoll {epfd : Nat} {op : Op} (hinv : Inv s) (ht : s.pc t = .ctlEpoll epfd e fd op)
    (hfound : ∀ h ∈ env.found, (fd, h) ∈ s.heap.fds) :
    ∃ r, execPc t env s.heap (.ctlEpoll epfd e fd op) = .ok r ∧ Next s (s.goto t r) := by
  have hb := hinv.balanced_at ht
  cases hfd : env.found with
  | none =>
    refine ⟨(s.heap, .leaving [e] (.error .ebadf)), by rw [execPc, hfd]; rfl, ?_⟩
    exact hinv.stay ht hb nofun rfl ⟨rfl, rfl, trivial⟩
  | some h =>
    obtain ⟨hget, hb'⟩ := hb.getHandle (hb.handle_alive_of_fd (hfound h hfd))
    refine ⟨(_, .ctl epfd e fd h op), by simp only [execPc, hfd, hget]; rfl, ?_⟩
    refine hinv.same_epolls ht (.setHandleRefCount ..) rfl (hb'.congr (fun _ => rfl) fun x => ?_)
      nofun rfl rfl rfl trivial
    change _ + [e].count x + [h].count x = _ + [e, h].count x
    rw [count_cons_eq e [h] x]
    omega

/-- `epoll_ctl` with its two handles. -/
theorem Inv.ctl {epfd : Nat} {op : Op} (hinv : Inv s) (ht : s.pc t = .ctl epfd e fd h op) :
    ∃ r, execCtl epfd e fd h op env s.heap = .ok r ∧ Next s (s.goto t r) := by
  have hb := hinv.balanced_at ht
  have hstay : ∀ p' : Pc, p'.itemRefs = [] → p'.handleRefs = [e, h] → p'.holds = none →
      p'.pending = none → p'.Fits s.heap → Next s (s.goto t (s.heap, p')) := by
    intro p' hitems hhandles hholds hpending hfits
    refine hinv.same_epolls ht (.refl _) rfl (hb.congr (fun x => ?_) fun x => ?_) nofun rfl hholds
      hpending hfits
    · rw [hitems]
      rfl
    · rw [hhandles]
      rfl
  cases hcheck : ctlCheck s.heap epfd e fd h op env with
  | error err =>
    refine ⟨_, ?_, hstay (.leaving [e, h] (.error err)) rfl rfl rfl rfl trivial⟩
    simp only [execCtl, hcheck]
    rfl
  | ok _ =>
    cases op with
    | mod event =>
      refine ⟨_, ?_, hstay (.modifying e h fd event) rfl rfl rfl rfl trivial⟩
      simp only [execCtl, hcheck]
      rfl
    | del =>
      refine ⟨_, ?_, hstay (.removing e h fd) rfl rfl rfl rfl trivial⟩
      simp only [execCtl, hcheck]
      rfl
    | invalid =>
      refine ⟨_, ?_, hstay (.leaving [e, h] (.error .einval)) rfl rfl rfl rfl trivial⟩
      simp only [execCtl, hcheck]
      rfl
    | add event =>
      have halive : ∀ x ∈ [e, h], s.heap.handleRefCount x ≠ 0 := fun x hx =>
        hb.handle_alive_of_own (by
          have : 0 < (Pc.ctl epfd e fd h (.add event)).handleRefs.count x := count_pos_iff.2 hx
          omega)
      obtain ⟨m1, x, hm1, hx, hnew, hb'⟩ := hb.newItem fd event
        (halive e (by simp)) (halive h (by simp))
      refine ⟨(m1.addItem x, .adding e h s.heap.nextItem), ?_, ?_⟩
      · simp only [execCtl, hcheck, hnew]
        rfl
      obtain ⟨_, _, rfl⟩ := hm1
      obtain ⟨hepoll, hhandle⟩ := hb.not_mem_of_gone (hb.freshItem _ le_rfl)
      have hnone : ∀ u i, (s.pc u).about = some i → i ≠ s.heap.nextItem := by
        rintro u i hu rfl
        exact hinv.alive (Pc.about_mem_itemRefs hu) (hb.freshItem _ le_rfl)
      have hitem : ∀ i, i ≠ s.heap.nextItem →
          update s.heap.item s.heap.nextItem x i = s.heap.item i := fun i hi =>
        update_of_ne hi ..
      have hw := hinv.waiters_sub s.heap (.adding e h s.heap.nextItem) ht nofun fun _ => .inl rfl
      refine hinv.one_item s.heap.nextItem hb' (hinv.locks.keep (by rw [ht]; rfl)) hitem
        (fun i hi => ?_) (fun i hi => ?_) (fun u _ hu => absurd rfl (hnone u _ hu)) ?_
        (fun i hi => ?_) (fun i hi => ?_) (fun _ => ?_) (Nat.le_succ _)
        (fun hlt => absurd hlt (lt_irrefl _)) hw
      · simp [Heap.InEpoll, Heap.addItem, hitem i hi]
      · simp [Heap.InHandle, Heap.addItem, hitem i hi]
      · refine ⟨?_, ?_, hepoll _, hhandle _⟩
        · simp [Heap.addItem, hx]
        · simp [Heap.addItem, hx]
      · obtain rfl : s.heap.nextItem = i := Option.some.inj hi
        exact ⟨rfl, fun u _ hu => hnone u _ (Pc.about_of_pending hu) rfl⟩
      · rw [ht] at hi
        cases hi
      · exact iff_of_false (hepoll _) (hhandle _)

variable {i : Nat}

/-- `do_epoll_add`, up to the section under `handle->lock`. -/
theorem Inv.adding (hinv : Inv s) (ht : s.pc t = .adding e h i)
    (hfree : (s.heap.epoll e).lock = none) :
    ∃ r, execAdding t e h i s.heap = .ok r ∧ Next s (s.goto t r) := by
  have hb := hinv.balanced_at ht
  have hfits := hinv.fits t
  rw [ht] at hfits
  obtain ⟨hie, hih, houtEpoll, houtHandle⟩ := hfits
  cases hfind : s.heap.find e (s.heap.item i).fd h with
  | some j =>
    refine ⟨(s.heap, .putting [i] (.ctl e h (.error .eexist))), ?_, ?_⟩
    · simp only [execAdding, hfind]
      rfl
    · exact hinv.stay ht hb (by simp) rfl ⟨rfl, rfl, trivial⟩
  | none =>
    obtain ⟨hlink, hb'⟩ := hb.linkEpoll (i := i) (by simp [Pc.itemRefs]) houtEpoll
      (by rwa [hie, hih])
    have hs := Heap.Alike.setLock (s.heap.linkedEpoll i) e (some t)
    refine ⟨((s.heap.linkedEpoll i).setLock e (some t), .linking e h i), ?_, ?_⟩
    · simp only [execAdding, hfind, hlink]
      rfl
    have hw := hinv.waiters_sub ((s.heap.linkedEpoll i).setLock e (some t)) (.linking e h i) ht
      (by simp) fun y => .inl (by
        exact (waiters_setLock ..).trans (waiters_setEpoll_self (by rfl) y))
    have hhalf := hinv.not_half_of_free (i := i) (by rwa [hie])
    refine hinv.one_item i (hb'.alike hs) ?_ (fun _ _ => rfl) (fun x hx => ?_)
      (fun x hx => Iff.rfl) (fun u hut hu => ?_) ?_ (fun x hx => ?_) (fun x hx => ?_)
      (fun hne => absurd rfl hne) le_rfl (fun _ => ⟨rfl, fun _ => by rw [ht]; rfl, .inl⟩)
      hw
    · rw [lock_setLock, Heap.linkedEpoll, lock_setEpoll_self (by rfl)]
      exact hinv.locks.acquire hfree (by rw [ht]; rfl) rfl
    · rw [hs.inEpoll_iff, Heap.inEpoll_linkedEpoll]
      exact or_iff_left hx
    · refine (hinv.fits u).of_unlinking hu (hhalf u) rfl fun hp => hut ?_
      exact hinv.pending u t i hp (by rw [ht]; rfl)
    · have hin : (s.heap.linkedEpoll i).InEpoll i := (Heap.inEpoll_linkedEpoll i i).2 (.inr rfl)
      exact ⟨hie, hih, (hs.inEpoll_iff i).2 hin, houtHandle⟩
    · obtain rfl : i = x := Option.some.inj hx
      exact ⟨rfl, fun u hut hu => hut (hinv.pending u t i hu (by rw [ht]; rfl))⟩
    · exact absurd hx (by rw [ht]; simp [Pc.half])

/-- `do_epoll_add`, from the section under `handle->lock` to the end. -/
theorem Inv.linking (hinv : Inv s) (ht : s.pc t = .linking e h i) :
    ∃ r, execLinking e h i s.heap = .ok r ∧ Next s (s.goto t r) := by
  have hb := hinv.balanced_at ht
  have hfits := hinv.fits t
  rw [ht] at hfits
  obtain ⟨hie, -, hinEpoll, houtHandle⟩ := hfits
  obtain ⟨hlink, hb'⟩ := hb.linkHandle (i := i) (by simp [Pc.itemRefs]) houtHandle
  let m1 := s.heap.linkedHandle i
  let m2 := setNeedsEt h (m1.item i).events m1
  let m3 := (interruptEpollWaiters e m2).setLock e none
  have hepoll2 : m2.epoll = s.heap.epoll := epoll_setNeedsEt h _
  have hitem3 : m3.item = s.heap.item := item_setNeedsEt h (m1.item i).events
  have hs : m1.Alike m3 :=
    ((Heap.Alike.setNeedsEt m1 h _).trans (.interruptEpollWaiters m2 e)).trans (.setLock _ e none)
  have hw := hinv.waiters_sub m3 (.putting [i] (.ctl e h (.ok ()))) ht nofun fun y => by
      rw [waiters_setLock, ← hepoll2]
      exact waiters_interrupt e y
  refine ⟨(m3, .putting [i] (.ctl e h (.ok ()))), ?_, ?_⟩
  · simp only [execLinking, hlink]
    rfl
  refine hinv.one_item i (hb'.alike hs) ?_ (fun _ _ => by rw [hitem3]) (fun x hx => ?_)
    (fun x hx => ?_) (fun u hut hu => ?_) trivial nofun (fun x hx => ?_) (fun _ => ?_)
    (le_of_eq hs.nextItem.symm)
    (fun _ => ⟨by rw [hitem3], nofun, fun _ => .inr (by rw [ht]; rfl)⟩) hw
  · rw [lock_setLock, lock_interrupt, hepoll2]
    exact hinv.locks.release (by rw [ht]; rfl) rfl
  · rw [hs.inEpoll_iff]
    rfl
  · rw [hs.inHandle_iff, Heap.inHandle_linkedHandle]
    exact or_iff_left hx
  · refine (hinv.fits u).of_unlinking hu (hinv.not_half_of_holds (by rw [ht, hie]; rfl) hut)
      (by rw [hitem3]) fun hp => hut ?_
    exact hinv.pending u t i hp (by rw [ht]; rfl)
  · rw [ht] at hx
    exact (Option.some.inj hx).symm
  · rw [hs.inEpoll_iff, hs.inHandle_iff, Heap.inHandle_linkedHandle]
    exact iff_of_true hinEpoll (.inr rfl)

variable {caller : Caller}

variable (hinv : Inv s)

include hinv

/-- `_unlink_epoll_item`, the section under `handle->lock`. -/
theorem Inv.unlinking (ht : s.pc t = .unlinking e i caller) :
    ∃ r, execPc t env s.heap (.unlinking e i caller) = .ok r ∧ Next s (s.goto t r) := by
  have hb := hinv.balanced_at ht
  have hie := hinv.fits t
  rw [ht] at hie
  obtain ⟨hunlink, hb'⟩ := hb.unlinkHandle (i := i) (by simp [Pc.itemRefs])
  refine ⟨(_, .unlinkingEpoll e i caller), by simp only [execPc, hunlink]; rfl, ?_⟩
  by_cases hin : s.heap.InHandle i
  · simp only [if_pos hin] at hb' ⊢
    have hw := hinv.waiters_sub (s.heap.unlinkedHandle i) (.unlinkingEpoll e i caller) ht nofun fun
      y => .inl rfl
    have hout : ¬(s.heap.unlinkedHandle i).InHandle i := fun h =>
      ((hb.linked.inHandle_unlinkedHandle i i).1 h).2 rfl
    refine hinv.one_item i hb' (hinv.locks.keep (by rw [ht]; rfl)) (fun _ _ => rfl)
      (fun _ _ => Iff.rfl) (fun x hx => ?_) (fun u hut hu => ?_) ⟨hie, hout⟩ nofun (fun x hx => ?_)
      (fun hne => absurd rfl hne) le_rfl (fun _ => ⟨rfl, nofun, fun h => absurd h hout⟩)
      hw
    · rw [hb.linked.inHandle_unlinkedHandle]
      exact and_iff_left hx
    · exact (hinv.fits u).of_unlinked hu (hinv.not_half_of_holds (by rw [ht, hie]; rfl) hut) rfl id
        fun h => absurd h hout
    · exact absurd hx (by rw [ht]; nofun)
  · simp only [if_neg hin] at hb' ⊢
    exact hinv.same_epolls ht (.refl _) rfl hb' nofun rfl rfl rfl ⟨hie, hin⟩

theorem Inv.unlinked (ht : s.pc t = .unlinkingEpoll e i caller)
    (hitem : m'.item = s.heap.item) (hnext : m'.nextItem = s.heap.nextItem)
    (hepoll : ∀ x, m'.InEpoll x ↔ s.heap.InEpoll x ∧ x ≠ i)
    (hhandle : ∀ x, m'.InHandle x ↔ s.heap.InHandle x)
    (hlock : (fun y => (m'.epoll y).lock) = update (fun y => (s.heap.epoll y).lock) e none)
    (hwaiters : ∀ y, (m'.epoll y).waiters = (s.heap.epoll y).waiters ∨ (m'.epoll y).waiters = [])
    (hb : s.BalancedAt t m' p') (hholds : p'.holds = none) (hpending : p'.pending = none)
    (hfits : p'.Fits m') :
    Next s (s.goto t (m', p')) := by
  have hfit := hinv.fits t
  rw [ht] at hfit
  obtain ⟨hie, hout⟩ := hfit
  have hw := hinv.waiters_sub m' p' ht nofun hwaiters
  refine hinv.one_item i hb ?_ (fun _ _ => by rw [hitem]) (fun x hx => ?_) (fun x _ => hhandle x)
    (fun u hut hu => ?_) hfits (fun x hx => ?_) (fun x hx => ?_) (fun _ => ?_)
    (le_of_eq hnext.symm)
    (fun _ => ⟨by rw [hitem], fun h => ?_, fun h => .inl ((hhandle i).1 h)⟩) hw
  · rw [hlock]
    exact hinv.locks.release (by rw [ht]; rfl) hholds
  · rw [hepoll]
    exact and_iff_left hx
  · exact (hinv.fits u).of_unlinked hu (hinv.not_half_of_holds (by rw [ht, hie]; rfl) hut)
      (by rw [hitem]) (fun h => ((hepoll i).1 h).1) (hhandle i).1
  · cases hpending.symm.trans hx
  · rw [ht] at hx
    exact (Option.some.inj hx).symm
  · rw [hepoll, hhandle]
    exact iff_of_false (fun h => h.2 rfl) hout
  · cases hpending.symm.trans h

/-- `_unlink_epoll_item` after the section under `handle->lock`, and the end of the section under
`epoll->lock`. -/
theorem Inv.unlinkingEpoll (ht : s.pc t = .unlinkingEpoll e i caller) :
    ∃ r, execUnlinkingEpoll e i caller s.heap = .ok r ∧ Next s (s.goto t r) := by
  have hb := hinv.balanced_at ht
  obtain ⟨hunlink, hb1⟩ := hb.unlinkEpoll (i := i) (by simp [Pc.itemRefs])
  obtain ⟨m1, hm1⟩ : ∃ m1, m1 = if s.heap.InEpoll i then s.heap.unlinkedEpoll i else s.heap :=
    ⟨_, rfl⟩
  rw [← hm1] at hunlink hb1
  have hm : m1.item = s.heap.item ∧ m1.nextItem = s.heap.nextItem ∧
      (∀ x, m1.InEpoll x ↔ s.heap.InEpoll x ∧ x ≠ i) ∧
      (∀ x, m1.InHandle x ↔ s.heap.InHandle x) ∧
      ((fun y => (m1.epoll y).lock) = fun y => (s.heap.epoll y).lock) ∧
      ∀ y, (m1.epoll y).waiters = (s.heap.epoll y).waiters := by
    by_cases hin : s.heap.InEpoll i
    · rw [hm1, if_pos hin]
      exact ⟨rfl, rfl, hb.linked.inEpoll_unlinkedEpoll i, fun _ => Iff.rfl,
        lock_setEpoll_self (by rfl), waiters_setEpoll_self (by rfl)⟩
    · rw [hm1, if_neg hin]
      refine ⟨rfl, rfl, fun x => (and_iff_left_of_imp ?_).symm, fun _ => Iff.rfl, rfl, fun _ => rfl⟩
      rintro hx rfl
      exact hin hx
  obtain ⟨hitem, hnext, hepoll, hhandle, hlock, hwaiters⟩ := hm
  have hs2 := Heap.Alike.interruptEpollWaiters m1 e
  have hb2 := hb1.alike hs2
  have hw2 : ∀ y, ((interruptEpollWaiters e m1).epoll y).waiters = (s.heap.epoll y).waiters ∨
      ((interruptEpollWaiters e m1).epoll y).waiters = [] := fun y => by
    rw [← hwaiters]
    exact waiters_interrupt e y
  cases caller with
  | delete fd h =>
    have hs := hs2.trans (Heap.Alike.setLock (interruptEpollWaiters e m1) e none)
    refine ⟨((interruptEpollWaiters e m1).setLock e none, .putting [i] (.delete fd h)), ?_, ?_⟩
    · simp only [execUnlinkingEpoll, hunlink]
      rfl
    refine hinv.unlinked ht hitem hnext (fun x => ?_) (fun x => ?_) ?_ (fun y => ?_)
      (hb1.alike hs) rfl rfl trivial
    · rw [hs.inEpoll_iff, hepoll]
    · rw [hs.inHandle_iff, hhandle]
    · rw [lock_setLock, lock_interrupt, hlock]
    · rw [waiters_setLock]
      exact hw2 y
  | del h =>
    have hput : ∀ y, ((interruptEpollWaiters e m1).epoll y).waiters ≠ [] →
        s.restHandles t y + [e, h].count y ≠ 0 := by
      intro y hy
      have hold : (s.heap.epoll y).waiters ≠ [] := by
        rcases hw2 y with hsame | hnil
        · rwa [← hsame]
        · exact absurd hnil hy
      have := hinv.restHandles_ne_zero ht nofun hold
      omega
    obtain ⟨m3, hm3, hcounted, hb3⟩ := hb2.putEpollItem hput
    have hs3 := hcounted.same
    have hs := Heap.Alike.setLock m3 e none
    refine ⟨(m3.setLock e none, .leaving [e, h] (.ok ())), ?_, ?_⟩
    · simp only [execUnlinkingEpoll, hunlink, bind, Except.bind, hm3]
      rfl
    refine hinv.unlinked ht ?_ ?_ (fun x => ?_) (fun x => ?_) ?_ (fun y => ?_)
      (hb3.alike hs) rfl rfl trivial
    · obtain ⟨-, -, rfl⟩ := hcounted
      exact hitem
    · exact hs.nextItem.trans (hs3.nextItem.trans hnext)
    · rw [hs.inEpoll_iff, hs3.inEpoll_iff, hs2.inEpoll_iff, hepoll]
    · rw [hs.inHandle_iff, hs3.inHandle_iff, hs2.inHandle_iff, hhandle]
    · rw [lock_setLock, hcounted.epoll, lock_interrupt, hlock]
    · rw [waiters_setLock, hcounted.epoll]
      exact hw2 y

theorem Inv.alike (ht : s.pc t = p) (hs : s.heap.Alike m')
    (hlock : (fun y => (m'.epoll y).lock) = fun y => (s.heap.epoll y).lock)
    (hwaiters : ∀ y, (m'.epoll y).waiters = (s.heap.epoll y).waiters ∨ (m'.epoll y).waiters = [])
    (hne : ∀ e items, p ≠ .waiting e items) (hhalf : p.half = none)
    (hitems : p'.itemRefs = p.itemRefs) (hhandles : p'.handleRefs = p.handleRefs)
    (hholds : p'.holds = p.holds) (hpending : p'.pending = none) (hfits : p'.Fits m') :
    Next s (s.goto t (m', p')) := by
  have hb := (hinv.balanced_at ht).alike hs
  rw [← hitems, ← hhandles] at hb
  subst ht
  have hw := hinv.waiters_sub m' p' rfl hne hwaiters
  refine hinv.same_lists hs.toSame hb ?_ hfits hpending hhalf hw
  rw [hlock]
  exact hinv.locks.keep hholds

/-- `do_epoll_mod`. -/
theorem Inv.modifying {event : Event} (ht : s.pc t = .modifying e h fd event) :
    ∃ r, execPc t env s.heap (.modifying e h fd event) = .ok r ∧ Next s (s.goto t r) := by
  obtain ⟨hs, hlock, hwaiters⟩ := epollMod_spec e h fd event s.heap
  exact ⟨((epollMod e h fd event s.heap).2, .leaving [e, h] (epollMod e h fd event s.heap).1), rfl,
    hinv.alike ht hs hlock hwaiters nofun rfl rfl rfl rfl rfl trivial⟩

theorem Inv.lock_item (ht : s.pc t = p) (hs : s.heap.Counted m)
    (hfree : (s.heap.epoll e).lock = none) (hie : (s.heap.item i).epollHandle = e)
    (hb : m.Balanced (fun x => s.restItems t x + [i].count x) fun x => s.restHandles t x +
      (caller.handleRefs e).count x) (hne : ∀ e items, p ≠ .waiting e items) (hhalf : p.half = none)
    (hholds : p.holds = none) :
    Next s (s.goto t (m.setLock e (some t), .unlinking e i caller)) := by
  subst ht
  have hw := hinv.waiters_sub (m.setLock e (some t)) (.unlinking e i caller) rfl hne fun y => .inl
    (by
    rw [waiters_setLock, hs.epoll])
  have hs' := Heap.Alike.setLock m e (some t)
  refine hinv.same_lists (hs.same.trans hs'.toSame) (hb.alike hs') ?_ ?_ rfl hhalf hw
  · rw [lock_setLock, hs.epoll]
    exact hinv.locks.acquire hfree hholds rfl
  · obtain ⟨-, -, rfl⟩ := hs
    exact hie

/-- `do_epoll_del`, up to `_unlink_epoll_item`. -/
theorem Inv.removing (ht : s.pc t = .removing e h fd) (hfree : (s.heap.epoll e).lock = none) :
    ∃ r, execRemoving t e h fd s.heap = .ok r ∧ Next s (s.goto t r) := by
  have hb := hinv.balanced_at ht
  cases hfind : s.heap.find e fd h with
  | none =>
    refine ⟨(s.heap, .leaving [e, h] (.error .enoent)), ?_, ?_⟩
    · simp only [execRemoving, hfind]
      rfl
    · exact hinv.stay ht hb nofun rfl ⟨rfl, rfl, trivial⟩
  | some i =>
    have hmem := mem_of_find?_eq_some hfind
    obtain ⟨hget, hb'⟩ := hb.getEpollItem (hb.alive_of_inEpoll (hb.inEpoll hmem))
    refine ⟨(_, .unlinking e i (.del h)), ?_, hinv.lock_item ht ⟨_, _, rfl⟩ hfree
      (hb.linked.items.owner_eq e i hmem) hb' nofun rfl rfl⟩
    simp only [execRemoving, hfind, hget]
    rfl

/-- `delete_epoll_items_for_fd` has found an item. -/
theorem Inv.found (ht : s.pc t = .found fd h i)
    (hfree : (s.heap.epoll (s.heap.item i).epollHandle).lock = none) :
    ∃ r, execPc t env s.heap (.found fd h i) = .ok r ∧ Next s (s.goto t r) :=
  ⟨_, rfl, hinv.lock_item ht ⟨_, _, rfl⟩ hfree rfl
    (hinv.balanced_at ht) nofun rfl rfl⟩

/-- The loop of `delete_epoll_items_for_fd`. -/
theorem Inv.deleting (ht : s.pc t = .deleting fd h) :
    ∃ r, execDeleting fd h s.heap = .ok r ∧ Next s (s.goto t r) := by
  have hb := hinv.balanced_at ht
  have hsearch := findFd_eq fd (hb.linked.epollItems.owner_eq h)
  cases hfind : (s.heap.handle h).epollItems.find? fun i => (s.heap.item i).fd = fd with
  | none =>
    refine ⟨(s.heap, .leaving [h] (.ok ())), ?_, ?_⟩
    · simp only [execDeleting, hsearch, hfind]
      rfl
    · exact hinv.stay ht hb nofun rfl ⟨rfl, rfl, trivial⟩
  | some i =>
    have hmem := mem_of_find?_eq_some hfind
    obtain ⟨hget, hb'⟩ := hb.getEpollItem (hb.alive_of_inHandle (hb.inHandle hmem))
    refine ⟨(_, .found fd h i), ?_, hinv.same_epolls ht (.setItemRefCount ..) rfl
      hb' nofun rfl rfl rfl trivial⟩
    simp only [execDeleting, hsearch, hfind, bind, Except.bind, hget]
    rfl

/-- The first section of `interrupt_epolls`. -/
theorem Inv.collecting (ht : s.pc t = .collecting h) :
    ∃ r, execCollecting h s.heap = .ok r ∧ Next s (s.goto t r) := by
  have hb := hinv.balanced_at ht
  obtain ⟨m', hget, hcounted, hb'⟩ := hb.getEpollItems (s.heap.handle h).epollItems fun i hi =>
    hb.alive_of_inHandle (hb.inHandle hi)
  have hcount : (s.heap.handle h).epollItems.length = (m'.handle h).epollItemsCount := by
    obtain ⟨-, -, rfl⟩ := hcounted
    exact (hb.linked.epollItems.count_eq h).symm
  refine ⟨(m', .interrupting h (s.heap.handle h).epollItems (s.heap.handle h).epollItems), ?_,
    hinv.same_epolls ht hcounted.same hcounted.epoll (hb'.congr (fun x => ?_) fun _ => rfl) nofun
      rfl rfl rfl trivial⟩
  · simp only [execCollecting, hget, bind, Except.bind, hcount, ne_eq]
    rfl
  · simp [Pc.itemRefs]

omit hinv

variable {items : List Nat}

/-- `interrupt_epolls` wakes up the waiters of its items, one by one. -/
theorem Inv.interrupting {todo : List Nat} (hinv : Inv s) (ht : s.pc t = .interrupting h items todo)
    :
    ∃ r, execPc t env s.heap (.interrupting h items todo) = .ok r ∧ Next s (s.goto t r) := by
  cases todo with
  | nil =>
    exact ⟨(s.heap, .putting items (.interrupt h)), rfl, hinv.alike ht (.refl _) rfl
      (fun _ => .inl rfl) nofun rfl rfl rfl rfl rfl trivial⟩
  | cons i todo =>
    exact ⟨(_, .interrupting h items todo), rfl, hinv.alike ht (.interruptEpollWaiters _ _)
      (lock_interrupt _) (waiters_interrupt _) nofun rfl rfl rfl rfl rfl trivial⟩

/-- `do_epoll_wait` collects its items and joins the waiters. -/
theorem Inv.gathering (hinv : Inv s) (ht : s.pc t = .gathering e) :
    ∃ r, execGathering t e env s.heap = .ok r ∧ Next s (s.goto t r) := by
  have hb := hinv.balanced_at ht
  by_cases halloc : env.allocated = false
  · refine ⟨(s.heap, .leaving [e] (.error .enomem)), ?_,
      hinv.stay ht hb nofun rfl ⟨rfl, rfl, trivial⟩⟩
    simp only [execGathering, halloc]
    rfl
  obtain ⟨m', hget, hcounted, hb'⟩ := hb.getEpollItems (gathered s.heap e env) fun i hi =>
    hb.alive_of_inEpoll (hb.inEpoll (mem_of_mem_filter hi))
  have hnot : t ∉ (s.heap.epoll e).waiters := fun hin => by
    obtain ⟨items, hitems⟩ := hinv.waiters e t hin
    cases ht.symm.trans hitems
  have hs : m'.Alike (m'.setEpoll e { m'.epoll e with waiters := (m'.epoll e).waiters ++ [t] }) :=
    .setEpoll _ rfl rfl
  refine ⟨(_, .waiting e (gathered s.heap e env)), ?_, hinv.same_lists
    (hcounted.same.trans hs.toSame) ((hb'.alike hs).congr (fun x => ?_) fun _ => rfl) ?_ trivial
    rfl (by rw [ht]; rfl) (hinv.waiters_one e ((s.heap.epoll e).waiters ++ [t]) (fun y => ?_)
      (fun y items hw => ?_) (fun u hu => ?_) ?_)⟩
  · simp only [execGathering, halloc, hget]
    rfl
  · simp [Pc.itemRefs]
  · rw [lock_setEpoll, hcounted.epoll, update_eq_self]
    exact hinv.locks.keep (by rw [ht]; rfl)
  · rw [waiters_setEpoll, hcounted.epoll]
  · cases ht.symm.trans hw
  · rcases mem_append.1 hu with hold | hnew
    · refine .inl ⟨?_, hold⟩
      rintro rfl
      exact hnot hold
    · exact .inr ⟨mem_singleton.1 hnew, _, rfl⟩
  · refine nodup_append.2 ⟨hinv.waiters_nodup e, nodup_singleton t, fun a ha b hb => ?_⟩
    rintro rfl
    exact hnot (mem_singleton.1 hb ▸ ha)

/-- `do_epoll_wait` after `PalStreamsWaitEvents`. -/
theorem Inv.waiting (hinv : Inv s) (ht : s.pc t = .waiting e items)
    (hfree : (s.heap.epoll e).lock = none) :
    Next s (s.goto t (execWaiting t e items env s.heap)) := by
  have hb := hinv.balanced_at ht
  obtain ⟨m1, hm1⟩ : ∃ m1, m1 = s.heap.setEpoll e { s.heap.epoll e with
      waiters := (s.heap.epoll e).waiters.erase t
      lock := some t } := ⟨_, rfl⟩
  have hs1 : s.heap.Alike m1 := by
    rw [hm1]
    exact .setEpoll _ rfl rfl
  -- What is reported does not matter to the lists, the lock and the waiters.
  have hgoto : ∀ m' ret, m1.Alike m' → m'.epoll = m1.epoll →
      Next s (s.goto t (m', .putting items (.wait e ret))) := by
    intro m' ret hs' hepoll
    refine hinv.same_lists (hs1.trans hs').toSame
      (hb.alike (hs1.trans hs')) ?_ trivial rfl
      (by rw [ht]; rfl) (hinv.waiters_one e ((s.heap.epoll e).waiters.erase t) (fun y => ?_)
        (fun y items' hw => ?_) (fun u hu => .inl ((hinv.waiters_nodup e).mem_erase_iff.1 hu))
        ((hinv.waiters_nodup e).erase t))
    · rw [hepoll, hm1, lock_setEpoll]
      exact hinv.locks.acquire hfree (by rw [ht]; rfl) rfl
    · rw [hepoll, hm1, waiters_setEpoll]
    · cases ht.symm.trans hw
      rfl
  unfold execWaiting
  rw [← hm1]
  cases env.polled with
  | error err => exact hgoto m1 _ (.refl m1) rfl
  | ok reported =>
    obtain ⟨hs', hepoll⟩ := foldl_reportItem_spec (reported.filter (·.1 ∈ items)) m1
    exact hgoto _ _ hs' hepoll

theorem Inv.putting {k : Cont} (hinv : Inv s) (ht : s.pc t = .putting items k) :
    ∃ r, execPc t env s.heap (.putting items k) = .ok r ∧ Next s (s.goto t r) := by
  have hb := hinv.balanced_at ht
  cases items with
  | cons i items =>
    have hb' : s.heap.Balanced (fun x => s.restItems t x + items.count x + [i].count x)
        fun x => s.restHandles t x + k.handleRefs.count x := hb.congr (fun x => by
      have := count_cons_eq i items x
      change _ + (i :: items).count x = _
      omega) fun _ => rfl
    obtain ⟨m', hput, hcounted, hb''⟩ := hb'.putEpollItem fun e he => by
      have := hinv.restHandles_ne_zero ht nofun he
      omega
    refine ⟨(m', .putting items k), by simp only [execPc, hput]; rfl, hinv.same_epolls ht
      hcounted.same hcounted.epoll hb'' nofun rfl ?_ rfl
      trivial⟩
    cases k <;> rfl
  | nil =>
    refine ⟨execCont s.heap k, rfl, ?_⟩
    cases k with
    | ctl e h ret | delete fd h | interrupt h =>
      exact hinv.stay ht hb nofun rfl ⟨rfl, rfl, trivial⟩
    | wait e ret =>
      have hs := Heap.Alike.setLock s.heap e none
      have hunlock : ∀ p' : Pc, p'.itemRefs = [] → p'.handleRefs = [e] → p'.holds = none →
          p'.pending = none → p'.Fits (s.heap.setLock e none) →
          Next s (s.goto t (s.heap.setLock e none, p')) := by
        intro p' hitems hhandles hholds hpending hfits
        have hw := hinv.waiters_sub (s.heap.setLock e none) p' ht nofun fun y => .inl
          (waiters_setLock e y none)
        refine hinv.same_lists hs.toSame ((hb.alike hs).congr (fun x => ?_) fun x => ?_) ?_ hfits
          hpending (by rw [ht]; rfl) hw
        · rw [hitems]
          rfl
        · rw [hhandles]
          rfl
        · rw [lock_setLock]
          exact hinv.locks.release (by rw [ht]; rfl) hholds
      cases ret with
      | none => exact hunlock (.gathering e) rfl rfl rfl rfl trivial
      | some ret => exact hunlock (.leaving [e] ret) rfl rfl rfl rfl trivial

theorem Inv.leaving {handles : List Nat} {ret : Except Errno Unit} (hinv : Inv s)
    (ht : s.pc t = .leaving handles ret) :
    ∃ r, execPc t env s.heap (.leaving handles ret) = .ok r ∧ Next s (s.goto t r) := by
  have hb := hinv.balanced_at ht
  cases handles with
  | nil =>
    exact ⟨(s.heap, .idle), rfl, hinv.stay ht hb nofun rfl ⟨rfl, rfl, trivial⟩⟩
  | cons h handles =>
    have hb' : s.heap.Balanced (fun x => s.restItems t x + ([] : List Nat).count x)
        fun x => s.restHandles t x + handles.count x + [h].count x :=
      hb.congr (fun _ => rfl) fun x => by
        have := count_cons_eq h handles x
        change _ + (h :: handles).count x = _
        omega
    obtain ⟨hput, hb''⟩ := hb'.putHandle fun he => by
      have := hinv.restHandles_ne_zero ht nofun he
      omega
    exact ⟨(_, .leaving handles ret), by simp only [execPc, hput]; rfl, hinv.same_epolls ht
      (.setHandleRefCount ..) rfl hb'' nofun rfl rfl rfl
      trivial⟩

/-- **A step of a thread** does not fail and keeps the invariant. -/
theorem Inv.run (hinv : Inv s) (hen : s.Enabled (.run t env)) :
    ∃ r, execPc t env s.heap (s.pc t) = .ok r ∧ Next s (s.goto t r) := by
  obtain ⟨hidle, hfinds, hfree⟩ := hen
  cases ht : s.pc t with
  | idle => exact absurd ht hidle
  | ctlEpoll epfd e fd op =>
    rw [ht] at hfinds
    exact hinv.ctlEpoll ht hfinds
  | ctl epfd e fd h op => exact hinv.ctl ht
  | adding e h i => exact hinv.adding ht (hfree e (by rw [ht]; rfl))
  | linking e h i => exact hinv.linking ht
  | modifying e h fd event => exact hinv.modifying ht
  | removing e h fd => exact hinv.removing ht (hfree e (by rw [ht]; rfl))
  | unlinking e i caller => exact hinv.unlinking ht
  | unlinkingEpoll e i caller => exact hinv.unlinkingEpoll ht
  | deleting fd h => exact hinv.deleting ht
  | found fd h i => exact hinv.found ht (hfree _ (by rw [ht]; rfl))
  | collecting h => exact hinv.collecting ht
  | interrupting h items todo => exact hinv.interrupting ht
  | gathering e => exact hinv.gathering ht
  | waiting e items => exact ⟨_, rfl, hinv.waiting ht (hfree e (by rw [ht]; rfl))⟩
  | putting items k => exact hinv.putting ht
  | leaving handles ret => exact hinv.leaving ht

/-! ## All steps -/

section
omit [DecidableEq T]

theorem Inv.heap (hinv : Inv s) (hs : s.heap.Same m')
    (hb : m'.Balanced (total Pc.itemRefs s.pc) (total Pc.handleRefs s.pc))
    (hlock : ∀ y, (m'.epoll y).lock = (s.heap.epoll y).lock)
    (hwaiters : ∀ y, (m'.epoll y).waiters = (s.heap.epoll y).waiters) :
    Next s { s with heap := m' } := by
  refine
    { inv :=
        { balanced := hb
          locks := fun t e => ?_
          fits := fun t => (hinv.fits t).same hs
          pending := hinv.pending
          agree := fun i hi =>
            (hs.inEpoll_iff i).trans ((hinv.agree i hi).trans (hs.inHandle_iff i).symm)
          waiters := fun e t ht => ?_
          waiters_nodup := fun e => ?_ }
      grows :=
        { nextItem := le_of_eq hs.nextItem.symm
          item := fun i _ => ⟨hs.epollHandle i, hs.itemHandle i, hs.fd i⟩
          pending := fun _ _ _ h => h
          linked := fun i _ hi => .inl ((hs.inHandle_iff i).1 hi) } }
  · change (m'.epoll e).lock = some t ↔ _
    rw [hlock]
    exact hinv.locks t e
  · rw [hwaiters] at ht
    exact hinv.waiters e t ht
  · rw [hwaiters]
    exact hinv.waiters_nodup e

theorem Inv.alive_of_holds (hinv : Inv s) {e : Nat} (h : (s.pc t).holds = some e) :
    s.heap.handleRefCount e ≠ 0 := by
  have hown : ∀ x ∈ (s.pc t).handleRefs, s.heap.handleRefCount x ≠ 0 := fun x hx =>
    hinv.balanced.handle_alive_of_own (pos_iff_ne_zero.1 (total_pos hx))
  have hitem : ∀ i ∈ (s.pc t).itemRefs, s.heap.handleRefCount (s.heap.item i).epollHandle ≠ 0 :=
    fun i hi => hinv.balanced.handle_alive (hinv.alive hi) (.inl rfl)
  have hfits := hinv.fits t
  cases ht : s.pc t with
  | linking e' h' i =>
    rw [ht] at h hown
    obtain rfl := Option.some.inj h
    exact hown e' (by simp [Pc.handleRefs])
  | unlinking e' i caller =>
    rw [ht] at h hitem hfits
    obtain rfl := Option.some.inj h
    rw [← show (s.heap.item i).epollHandle = e' from hfits]
    exact hitem i (by simp [Pc.itemRefs])
  | unlinkingEpoll e' i caller =>
    rw [ht] at h hitem hfits
    obtain rfl := Option.some.inj h
    rw [← hfits.1]
    exact hitem i (by simp [Pc.itemRefs])
  | putting items k =>
    rw [ht] at h hown
    cases k with
    | wait e' ret =>
      obtain rfl := Option.some.inj h
      exact hown e' (by simp [Pc.handleRefs, Cont.handleRefs])
    | ctl | delete | interrupt => cases h
  | _ =>
    rw [ht] at h
    cases h

theorem Inv.fresh_epoll (hinv : Inv s) : (s.heap.epoll s.heap.nextHandle).lock = none ∧
    (s.heap.epoll s.heap.nextHandle).waiters = [] := by
  have hgone := hinv.balanced.freshHandle s.heap.nextHandle le_rfl
  constructor
  · refine Option.eq_none_iff_forall_ne_some.2 fun t ht => ?_
    exact hinv.alive_of_holds ((hinv.locks t _).1 ht) hgone
  refine eq_nil_iff_forall_not_mem.2 fun t ht => ?_
  obtain ⟨items, hitems⟩ := hinv.waiters _ t ht
  refine hinv.balanced.handle_alive_of_own (pos_iff_ne_zero.1 (total_pos (t := t) ?_))
    hgone
  rw [hitems]
  exact mem_singleton_self _

end

/-- **No step fails**, and every step keeps the invariant. -/
theorem Inv.exec {l : Label T} (hinv : Inv s) (hen : s.Enabled l) :
    ∃ s', exec s l = .ok s' ∧ Next s s' := by
  cases l with
  | openHandle fd type mayRead mayWrite =>
    have hb := hinv.balanced
    obtain ⟨hlock, hwaiters⟩ := hinv.fresh_epoll
    exact ⟨_, rfl, hinv.heap (hb.addHandle_same _ fd rfl rfl) (hb.addHandle _ fd rfl rfl)
      (field_update EpollHandle.lock hlock.symm) (field_update EpollHandle.waiters hwaiters.symm)⟩
  | dup fd h newfd =>
    have hb := hinv.balanced
    obtain ⟨hget, hb'⟩ := hb.getHandle (hb.handle_alive_of_fd hen)
    refine ⟨_, by simp only [Epoll.exec, hget]; rfl, hinv.heap ?_ (hb'.addFd newfd) (fun _ => rfl)
      fun _ => rfl⟩
    constructor <;> intros <;> rfl
  | call t c =>
    obtain ⟨r, hr, hinv'⟩ := hinv.call hen.1 hen.2
    exact ⟨_, by simp only [Epoll.exec, hr]; rfl, hinv'⟩
  | run t env =>
    obtain ⟨r, hr, hinv'⟩ := hinv.run hen
    exact ⟨_, by simp only [Epoll.exec, hr]; rfl, hinv'⟩

variable {s' : State T}

theorem Inv.step {l : Label T} (hinv : Inv s) (hstep : Step s l s') : Next s s' := by
  obtain ⟨_, hs1, _⟩ := hinv.exec hstep.1
  rw [hstep.2] at hs1
  rwa [Except.ok.inj hs1]

theorem inv_of_reachable (hr : Reachable Initial Step s) : Inv s := by
  induction hr with
  | init h => exact inv_initial h
  | step _ _ hstep hinv => exact (hinv.step hstep).inv

/-- The states that a run from `s` comes to. -/
def Run (s : State T) : State T → Prop := Reachable (· = s) Step

theorem Inv.run_from (hinv : Inv s) (hrun : Run s s') : Inv s' := by
  induction hrun with
  | init h => exact h ▸ hinv
  | step _ _ hstep ih => exact (ih.step hstep).inv

/-! ## `delete_epoll_items_for_fd` -/

/-- An item that exists, other than one that `do_epoll_add` has yet to put into the lists. -/
def State.Added (s : State T) (i : Nat) : Prop :=
  i < s.heap.nextItem ∧ ∀ t, (s.pc t).pending ≠ some i

/-- The thread is in `delete_epoll_items_for_fd`. -/
def Pc.InDelete (fd h : Nat) : Pc → Prop
  | .deleting fd' h' | .found fd' h' _ | .unlinking _ _ (.delete fd' h')
  | .unlinkingEpoll _ _ (.delete fd' h') | .putting _ (.delete fd' h') => fd' = fd ∧ h' = h
  | _ => False

omit [Fintype T] in
/-- The function is left only when it finds no more items. -/
theorem inDelete_or_none (hexec : execPc t env m p = .ok (m', p')) (hp : p.InDelete fd h) :
    p'.InDelete fd h ∨ m' = m ∧ m.findFd fd h = .ok none := by
  cases p with
  | deleting fd' h' =>
    obtain ⟨rfl, rfl⟩ := hp
    obtain ⟨found, hfound, hexec⟩ := bind_eq_ok.1 hexec
    cases found with
    | none =>
      cases hexec
      exact .inr ⟨rfl, hfound⟩
    | some i =>
      obtain ⟨m1, -, hexec⟩ := bind_eq_ok.1 hexec
      cases hexec
      exact .inl ⟨rfl, rfl⟩
  | found fd' h' i =>
    cases hexec
    exact .inl hp
  | unlinking e i caller =>
    obtain ⟨m1, -, hexec⟩ := bind_eq_ok.1 hexec
    cases hexec
    cases caller with
    | del => exact hp.elim
    | delete => exact .inl hp
  | unlinkingEpoll e i caller =>
    cases caller with
    | del => exact hp.elim
    | delete fd' h' =>
      obtain ⟨m1, -, hexec⟩ := bind_eq_ok.1 hexec
      cases hexec
      exact .inl hp
  | putting items k =>
    cases k with
    | delete fd' h' =>
      cases items with
      | nil =>
        cases hexec
        exact .inl hp
      | cons i items =>
        obtain ⟨_, -, hexec⟩ := bind_eq_ok.1 hexec
        cases hexec
        exact .inl hp
    | ctl | interrupt | wait => exact hp.elim
  | _ => exact hp.elim

omit [Fintype T] in
/-- So does a step of any thread. -/
theorem Step.inDelete {l : Label T} (hstep : Step s l s') (hp : (s.pc t).InDelete fd h) :
    (s'.pc t).InDelete fd h ∨ s'.heap = s.heap ∧ s.heap.findFd fd h = .ok none := by
  obtain ⟨hen, hexec⟩ := hstep
  cases l with
  | openHandle =>
    obtain rfl := Except.ok.inj hexec
    exact .inl hp
  | dup =>
    obtain ⟨m, -, hexec⟩ := bind_eq_ok.1 hexec
    obtain rfl := Except.ok.inj hexec
    exact .inl hp
  | call u c =>
    obtain ⟨r, -, hexec⟩ := bind_eq_ok.1 hexec
    obtain rfl := Except.ok.inj hexec
    have hut : t ≠ u := by
      rintro rfl
      rwa [hen.1] at hp
    exact .inl (by simpa [State.goto, hut] using hp)
  | run u env =>
    obtain ⟨r, hr, hexec⟩ := bind_eq_ok.1 hexec
    obtain rfl := Except.ok.inj hexec
    by_cases hut : t = u
    · subst hut
      refine (inDelete_or_none hr hp).imp_left fun h => ?_
      simpa [State.goto] using h
    · exact .inl (by simpa [State.goto, hut] using hp)

omit [DecidableEq T] in
theorem Next.added (hnext : Next s s') (hi : s.Added i) : s'.Added i :=
  ⟨lt_of_lt_of_le hi.1 hnext.grows.nextItem, fun t ht =>
    hi.2 t (hnext.grows.pending i hi.1 t ht)⟩

omit [DecidableEq T] in
theorem Next.not_inHandle (hnext : Next s s') (hi : s.Added i) (hout : ¬s.heap.InHandle i) :
    ¬s'.heap.InHandle i := by
  intro hin
  rcases hnext.grows.linked i hi.1 hin with hold | ⟨t, ht⟩
  · exact hout hold
  · exact hi.2 t ht

theorem Inv.stays_out (hinv : Inv s) (hi : s.Added i) (hout : ¬s.heap.InHandle i) (hrun : Run s s')
    : ¬s'.heap.InHandle i := by
  suffices h : Inv s' ∧ s'.Added i ∧ ¬s'.heap.InHandle i from h.2.2
  induction hrun with
  | init h => exact h ▸ ⟨hinv, hi, hout⟩
  | step _ _ hstep ih =>
    have hnext := ih.1.step hstep
    exact ⟨hnext.inv, hnext.added ih.2.1, hnext.not_inHandle ih.2.1 ih.2.2⟩

/-- **When the function has returned**, its items are gone from the list of the handle. -/
theorem Inv.deleted (hinv : Inv s) (ht : (s.pc t).InDelete fd h) (hi : s.Added i)
    (hfd : (s.heap.item i).fd = fd) (hh : (s.heap.item i).handle = h) (hrun : Run s s') :
    Inv s' ∧ s'.Added i ∧ (s'.heap.item i).fd = fd ∧ (s'.heap.item i).handle = h ∧
      ((s'.pc t).InDelete fd h ∨ ¬s'.heap.InHandle i) := by
  induction hrun with
  | init h => exact h ▸ ⟨hinv, hi, hfd, hh, .inl ht⟩
  | @step s1 s2 _ _ hstep ih =>
    obtain ⟨hinv1, hi1, hfd1, hh1, hor⟩ := ih
    have hnext := hinv1.step hstep
    obtain ⟨-, hhandle, hfd'⟩ := hnext.grows.item i hi1.1
    refine ⟨hnext.inv, hnext.added hi1, hfd'.trans hfd1, hhandle.trans hh1, ?_⟩
    rcases hor with hin | hout
    · refine (hstep.inDelete hin).imp_right ?_
      rintro ⟨hheap, hfind⟩
      rw [hheap]
      intro hlist
      rw [findFd_eq fd (hinv1.balanced.linked.epollItems.owner_eq h)] at hfind
      have hnone := find?_eq_none.1 (Except.ok.inj hfind) i (hh1 ▸ hlist)
      simp [hfd1] at hnone
    · exact .inr (hnext.not_inHandle hi1 hout)

/-- **Epoll bookkeeping.** In every reachable state the counters are the lengths of the lists, the
items of a list belong there, and the reference counts are right. An item is in both its lists or
in neither when its epoll is not locked; no epoll has two items with the same descriptor and handle.
The items that have been added when `delete_epoll_items_for_fd` is called for their descriptor and
handle are in no list when it has returned, and from then on. And no assertion fails. -/
theorem epoll_bookkeeping (hr : Reachable Initial Step s) :
    (∀ e, (s.heap.epoll e).itemsCount = (s.heap.epoll e).items.length ∧
      (s.heap.epoll e).items.Nodup ∧
      ∀ i ∈ (s.heap.epoll e).items, (s.heap.item i).epollHandle = e) ∧
    (∀ h, (s.heap.handle h).epollItemsCount = (s.heap.handle h).epollItems.length ∧
      (s.heap.handle h).epollItems.Nodup ∧
      ∀ i ∈ (s.heap.handle h).epollItems, (s.heap.item i).handle = h) ∧
    (∀ i, (s.heap.epoll (s.heap.item i).epollHandle).lock = none →
      (s.heap.InEpoll i ↔ s.heap.InHandle i)) ∧
    (∀ i, s.heap.itemRefCount i = s.heap.listRefs i + total Pc.itemRefs s.pc i) ∧
    (∀ e, ∀ i ∈ (s.heap.epoll e).items, ∀ j ∈ (s.heap.epoll e).items,
      (s.heap.item i).fd = (s.heap.item j).fd → (s.heap.item i).handle = (s.heap.item j).handle →
        i = j) ∧
    (∀ t fd h, s.pc t = .deleting fd h → ∀ i, s.Added i → (s.heap.item i).fd = fd →
      (s.heap.item i).handle = h → ∀ s1, Run s s1 → ¬(s1.pc t).InDelete fd h → ∀ s2, Run s1 s2 →
        (∀ x, i ∉ (s2.heap.handle x).epollItems) ∧
        ((s2.heap.epoll (s2.heap.item i).epollHandle).lock = none →
          ∀ e, i ∉ (s2.heap.epoll e).items)) ∧
    ∀ l, s.Enabled l → ∃ s', exec s l = .ok s' := by
  have hinv := inv_of_reachable hr
  have hl := hinv.balanced.linked
  refine ⟨fun e => ⟨hl.items.count_eq e, hl.items.nodup e, hl.items.owner_eq e⟩,
    fun h => ⟨hl.epollItems.count_eq h, hl.epollItems.nodup h, hl.epollItems.owner_eq h⟩,
    fun i hfree => hinv.agree i (hinv.not_half_of_free hfree), hinv.balanced.item, hl.unique, ?_,
    fun l hen => ?_⟩
  · intro t fd h ht i hi hfd hh s1 hrun1 hreturned s2 hrun2
    have hdel : (s.pc t).InDelete fd h := by
      rw [ht]
      exact ⟨rfl, rfl⟩
    obtain ⟨hinv1, hi1, -, -, hor⟩ := hinv.deleted hdel hi hfd hh hrun1
    have hinv2 := hinv1.run_from hrun2
    have hout2 := hinv1.stays_out hi1 (hor.resolve_left hreturned) hrun2
    refine ⟨fun x hx => hout2 (hinv2.balanced.inHandle hx), fun hfree e he => hout2 ?_⟩
    exact (hinv2.agree i (hinv2.not_half_of_free hfree)).1 (hinv2.balanced.inEpoll he)
  · obtain ⟨s', hs', -⟩ := hinv.exec hen
    exact ⟨s', hs'⟩

/-- **A handle is freed exactly when nothing refers to it**, in every interleaving: no descriptor,
no item that is in use, and no operation under way. -/
theorem handle_freed_iff (hr : Reachable Initial Step s) (h : Nat) :
    s.heap.handleRefCount h = 0 ↔ (∀ fd ∈ s.heap.fds, fd.2 ≠ h) ∧
      (∀ i, s.heap.itemRefCount i ≠ 0 →
        (s.heap.item i).epollHandle ≠ h ∧ (s.heap.item i).handle ≠ h) ∧
      ∀ t, h ∉ (s.pc t).handleRefs := by
  have hb := (inv_of_reachable hr).balanced
  have hitem : ∀ i, s.heap.itemRefs h i = 0 ↔ (s.heap.itemRefCount i ≠ 0 →
      (s.heap.item i).epollHandle ≠ h ∧ (s.heap.item i).handle ≠ h) := by
    intro i
    unfold Heap.itemRefs
    split <;> grind
  have htotal : total Pc.handleRefs s.pc h = 0 ↔ ∀ t, h ∉ (s.pc t).handleRefs := by
    simp [total, List.count_eq_zero]
  rw [hb.handle h, Nat.add_eq_zero_iff, Nat.add_eq_zero_iff, htotal, and_assoc]
  refine and_congr (by simp) (and_congr_left fun _ => ?_)
  rw [Finset.sum_eq_zero_iff]
  refine ⟨fun hsum i hi => ?_, fun hrefs i _ => (hitem i).2 (hrefs i)⟩
  have hlt : i < s.heap.nextItem := Nat.lt_of_not_le fun hle => hi (hb.freshItem i hle)
  exact (hitem i).1 (hsum i (Finset.mem_range.2 hlt)) hi

end Thread

/-- A step, computed. -/
def next (s : State (Fin 2)) (l : Label (Fin 2)) : Option (State (Fin 2)) :=
  if s.Enabled l then (exec s l).toOption else none

theorem step_of_next (s : State (Fin 2)) (l : Label (Fin 2)) (s' : State (Fin 2))
    (h : next s l = some s') : Step s l s' := by
  obtain ⟨hen, hexec⟩ := Option.ite_none_right_eq_some.1 h
  exact ⟨hen, toOption_eq_some.1 hexec⟩

def exampleState : State (Fin 2) where
  heap :=
    { handle := fun _ => ⟨.other, false, false, [], 0, false, false⟩
      epoll := fun _ => ⟨[], 0, [], none⟩
      handleRefCount := fun _ => 0
      item := fun _ => ⟨0, 0, 0, 0, 0⟩
      itemRefCount := fun _ => 0
      nextHandle := 0
      nextItem := 0
      fds := [] }
  pc := fun _ => .idle

theorem exampleState_initial : Initial exampleState where
  idle _ := rfl
  fds := rfl
  handles _ := rfl
  items _ := rfl
  nextItem := rfl
  lists _ := ⟨rfl, rfl, rfl⟩

def exampleEnv : Env := ⟨some 1, true, true, fun _ => true, .ok []⟩

/-- A pipe with descriptor 4 is added to an epoll, and its descriptor is closed. -/
def exampleRun : List (Label (Fin 2)) :=
  [.openHandle 3 .epoll true true, .openHandle 4 .pipe true true,
    .call 0 (.epollCtl 3 0 4 (.add ⟨epollin, 7⟩))] ++ List.replicate 9 (.run 0 exampleEnv) ++
  [.call 0 (.close 4 1)]

/-- A pipe that can only be read, with descriptor 4, is added to an epoll, and is about to be
modified. -/
def modRun (event : Event) : List (Label (Fin 2)) :=
  [.openHandle 3 .epoll true true, .openHandle 4 .pipe true false,
    .call 0 (.epollCtl 3 0 4 (.add ⟨epollin, 7⟩))] ++ List.replicate 9 (.run 0 exampleEnv) ++
  .call 0 (.epollCtl 3 0 4 (.mod event)) :: List.replicate 2 (.run 0 exampleEnv)

/-- When the descriptor is closed, the item is in both lists; when the function has returned, it is
in neither. -/
theorem epoll_bookkeeping_close : ∃ s s1, exampleRun.foldlM next exampleState = some s ∧
    s.pc 0 = .deleting 4 1 ∧ s.heap.InEpoll 0 ∧ s.heap.InHandle 0 ∧
    (List.replicate 7 (.run 0 exampleEnv)).foldlM next s = some s1 ∧
    s1.pc 0 = .leaving [1] (.ok ()) ∧ (∀ x, 0 ∉ (s1.heap.handle x).epollItems) ∧
    ∀ e, 0 ∉ (s1.heap.epoll e).items := by
  obtain ⟨s, s1, hs, hpc, hepoll, hhandle, hadded, hitem, hs1, hpc1, hfree⟩ : ∃ s s1,
      exampleRun.foldlM next exampleState = some s ∧ s.pc 0 = .deleting 4 1 ∧ s.heap.InEpoll 0 ∧
      s.heap.InHandle 0 ∧ (0 < s.heap.nextItem ∧ ∀ t, (s.pc t).pending ≠ some 0) ∧
      ((s.heap.item 0).fd = 4 ∧ (s.heap.item 0).handle = 1) ∧
      (List.replicate 7 (.run 0 exampleEnv)).foldlM next s = some s1 ∧
      s1.pc 0 = .leaving [1] (.ok ()) ∧
      (s1.heap.epoll (s1.heap.item 0).epollHandle).lock = none := by
    refine ⟨_, _, rfl, rfl, ?_, ?_, ⟨?_, ?_⟩, ⟨rfl, rfl⟩, rfl, rfl, rfl⟩ <;> decide
  have hr := Reachable.of_foldlM next step_of_next (.init exampleState_initial) _ hs
  have hrun : Run s s1 := Reachable.of_foldlM next step_of_next (.init rfl) _ hs1
  obtain ⟨-, -, -, -, -, hdelete, -⟩ := epoll_bookkeeping hr
  obtain ⟨hout, hout'⟩ := hdelete 0 4 1 hpc 0 hadded hitem.1 hitem.2 s1 hrun
    (by rw [hpc1]; exact id) s1 (.init rfl)
  exact ⟨s, s1, hs, hpc, hepoll, hhandle, hs1, hpc1, hout, hout' hfree⟩

/-- The closed pipe is not freed yet: the item still refers to it. -/
theorem handle_freed_iff_close : ∃ s, exampleRun.foldlM next exampleState = some s ∧
    s.heap.handleRefCount 1 ≠ 0 := by
  obtain ⟨s, hs, hitem⟩ : ∃ s, exampleRun.foldlM next exampleState = some s ∧
      s.heap.itemRefCount 0 ≠ 0 ∧ (s.heap.item 0).handle = 1 := ⟨_, rfl, by decide, rfl⟩
  have hr := Reachable.of_foldlM next step_of_next (.init exampleState_initial) _ hs
  exact ⟨s, hs, fun h => ((handle_freed_iff hr 1).1 h).2.1 0 hitem.1 |>.2 hitem.2⟩

end Epoll
