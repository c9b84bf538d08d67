import Gramine.CountedLists
import Gramine.Epoll
import Gramine.Holders

/-!
# The references of epoll items

Which references there are to an item and to a handle, and that each operation on the lists and the
counts keeps the counts right. The references that the operations under way hold are functions
here, `own` for items and `hown` for handles; what the threads hold comes later.
-/

open Function List

namespace Epoll

variable {T : Type} {m : Heap T} {own hown : Nat → Nat} {e h i : Nat}

/-- An item is in the list of its epoll. -/
def Heap.InEpoll (m : Heap T) (i : Nat) : Prop := i ∈ (m.epoll (m.item i).epollHandle).items

/-- An item is in the list of its handle. -/
def Heap.InHandle (m : Heap T) (i : Nat) : Prop := i ∈ (m.handle (m.item i).handle).epollItems

instance (m : Heap T) (i : Nat) : Decidable (m.InEpoll i) :=
  inferInstanceAs (Decidable (i ∈ (m.epoll (m.item i).epollHandle).items))

instance (m : Heap T) (i : Nat) : Decidable (m.InHandle i) :=
  inferInstanceAs (Decidable (i ∈ (m.handle (m.item i).handle).epollItems))

/-- The number of lists that hold an item. -/
def Heap.listRefs (m : Heap T) (i : Nat) : Nat :=
  (if m.InEpoll i then 1 else 0) + if m.InHandle i then 1 else 0

/-- The references that an item has to a handle. -/
def Heap.itemRefs (m : Heap T) (h i : Nat) : Nat :=
  if m.itemRefCount i = 0 then 0
  else [(m.item i).epollHandle, (m.item i).handle].count h

/-- The lists and their counters. -/
structure Heap.Linked (m : Heap T) : Prop where
  items : CountedLists.Valid (fun i => (m.item i).epollHandle) (fun e => (m.epoll e).items)
    fun e => (m.epoll e).itemsCount
  epollItems : CountedLists.Valid (fun i => (m.item i).handle) (fun h => (m.handle h).epollItems)
    fun h => (m.handle h).epollItemsCount
  /-- No two items of one epoll have the same descriptor and handle. -/
  unique : ∀ e, ∀ i ∈ (m.epoll e).items, ∀ j ∈ (m.epoll e).items,
    (m.item i).fd = (m.item j).fd → (m.item i).handle = (m.item j).handle → i = j

/-- The counts are right, if the operations under way hold `own` and `hown`. -/
structure Heap.Balanced (m : Heap T) (own hown : Nat → Nat) : Prop where
  linked : m.Linked
  item : ∀ i, m.itemRefCount i = m.listRefs i + own i
  handle : ∀ h, m.handleRefCount h = m.fds.countP (·.2 = h) +
    ∑ i ∈ Finset.range m.nextItem, m.itemRefs h i + hown h
  freshItem : ∀ i, m.nextItem ≤ i → m.itemRefCount i = 0
  freshHandle : ∀ h, m.nextHandle ≤ h → m.handleRefCount h = 0

/-- Only reference counts are different. -/
def Heap.Counted (m m' : Heap T) : Prop :=
  ∃ items handles, m' = { m with itemRefCount := items, handleRefCount := handles }

/-- Two heaps with the same lists and items. -/
structure Heap.Same (m m' : Heap T) : Prop where
  items : ∀ e, (m'.epoll e).items = (m.epoll e).items
  itemsCount : ∀ e, (m'.epoll e).itemsCount = (m.epoll e).itemsCount
  epollItems : ∀ h, (m'.handle h).epollItems = (m.handle h).epollItems
  epollItemsCount : ∀ h, (m'.handle h).epollItemsCount = (m.handle h).epollItemsCount
  epollHandle : ∀ i, (m'.item i).epollHandle = (m.item i).epollHandle
  itemHandle : ∀ i, (m'.item i).handle = (m.item i).handle
  fd : ∀ i, (m'.item i).fd = (m.item i).fd
  nextItem : m'.nextItem = m.nextItem

namespace Heap.Same
variable {m' m'' : Heap T}

theorem refl (m : Heap T) : m.Same m := by
  constructor <;> intros <;> rfl

theorem trans (h : m.Same m') (h' : m'.Same m'') : m.Same m'' where
  items e := (h'.items e).trans (h.items e)
  itemsCount e := (h'.itemsCount e).trans (h.itemsCount e)
  epollItems x := (h'.epollItems x).trans (h.epollItems x)
  epollItemsCount x := (h'.epollItemsCount x).trans (h.epollItemsCount x)
  epollHandle i := (h'.epollHandle i).trans (h.epollHandle i)
  itemHandle i := (h'.itemHandle i).trans (h.itemHandle i)
  fd i := (h'.fd i).trans (h.fd i)
  nextItem := h'.nextItem.trans h.nextItem

theorem inEpoll_iff (h : m.Same m') (i : Nat) : m'.InEpoll i ↔ m.InEpoll i := by
  simp [InEpoll, h.epollHandle, h.items]

theorem inHandle_iff (h : m.Same m') (i : Nat) : m'.InHandle i ↔ m.InHandle i := by
  simp [InHandle, h.itemHandle, h.epollItems]

theorem listRefs_eq (h : m.Same m') (i : Nat) : m'.listRefs i = m.listRefs i := by
  simp [listRefs, h.inEpoll_iff, h.inHandle_iff]

/-- Links depend only on the lists and on what the items name. -/
theorem linked (h : m.Same m') (hl : m.Linked) : m'.Linked where
  items := by
    simp only [h.epollHandle, h.items, h.itemsCount]
    exact hl.items
  epollItems := by
    simp only [h.itemHandle, h.epollItems, h.epollItemsCount]
    exact hl.epollItems
  unique e i hi j hj hfd hh := by
    rw [h.items] at hi hj
    rw [h.fd, h.fd] at hfd
    rw [h.itemHandle, h.itemHandle] at hh
    exact hl.unique e i hi j hj hfd hh

/-- A change of a reference count changes no list. -/
theorem setHandleRefCount (m : Heap T) (h n : Nat) : m.Same (m.setHandleRefCount h n) := by
  constructor <;> intros <;> rfl

theorem setItemRefCount (m : Heap T) (i n : Nat) : m.Same (m.setItemRefCount i n) := by
  constructor <;> intros <;> rfl

end Heap.Same

/-- The counts and the descriptors are the same too. -/
structure Heap.Alike (m m' : Heap T) : Prop extends m.Same m' where
  itemRefCount : m'.itemRefCount = m.itemRefCount
  handleRefCount : m'.handleRefCount = m.handleRefCount
  fds : m'.fds = m.fds
  nextHandle : m'.nextHandle = m.nextHandle

theorem field_update {A B : Type} {f : Nat → A} {x : A} (g : A → B) (hx : g x = g (f i)) (j : Nat) :
    g (update f i x j) = g (f j) := by
  rw [update_apply]
  split <;> simp [*]

namespace Heap.Alike
variable {m' m'' : Heap T}

theorem refl (m : Heap T) : m.Alike m := ⟨.refl m, rfl, rfl, rfl, rfl⟩

theorem trans (h : m.Alike m') (h' : m'.Alike m'') : m.Alike m'' :=
  ⟨h.toSame.trans h'.toSame, h'.itemRefCount.trans h.itemRefCount,
    h'.handleRefCount.trans h.handleRefCount, h'.fds.trans h.fds,
    h'.nextHandle.trans h.nextHandle⟩

/-- A change that keeps lists and counts keeps all that the invariant reads. -/
theorem setEpoll (x : EpollHandle T) (hitems : x.items = (m.epoll e).items)
    (hcount : x.itemsCount = (m.epoll e).itemsCount) : m.Alike (m.setEpoll e x) := by
  refine ⟨{ Same.refl m with
    items := field_update EpollHandle.items hitems
    itemsCount := field_update EpollHandle.itemsCount hcount }, rfl, rfl, rfl, rfl⟩

theorem setHandle (x : Handle) (hitems : x.epollItems = (m.handle h).epollItems)
    (hcount : x.epollItemsCount = (m.handle h).epollItemsCount) : m.Alike (m.setHandle h x) := by
  refine ⟨{ Same.refl m with
    epollItems := field_update Handle.epollItems hitems
    epollItemsCount := field_update Handle.epollItemsCount hcount }, rfl, rfl, rfl, rfl⟩

theorem setItem (x : Item) (hepoll : x.epollHandle = (m.item i).epollHandle)
    (hhandle : x.handle = (m.item i).handle) (hfd : x.fd = (m.item i).fd) :
    m.Alike (m.setItem i x) := by
  refine ⟨{ Same.refl m with
    epollHandle := field_update Item.epollHandle hepoll
    itemHandle := field_update Item.handle hhandle
    fd := field_update Item.fd hfd }, rfl, rfl, rfl, rfl⟩

theorem setLock (m : Heap T) (e : Nat) (owner : Option T) : m.Alike (m.setLock e owner) :=
  .setEpoll _ rfl rfl

theorem interruptEpollWaiters (m : Heap T) (e : Nat) : m.Alike (interruptEpollWaiters e m) :=
  .setEpoll _ rfl rfl

theorem setNeedsEt (m : Heap T) (h : Nat) (events : Flags) : m.Alike (setNeedsEt h events m) := by
  unfold Epoll.setNeedsEt
  split
  · exact .setHandle _ rfl rfl
  · exact .refl m

theorem clearNeedsEt (m : Heap T) (h : Nat) (events reported : Flags) :
    m.Alike (clearNeedsEt h events reported m) := by
  unfold Epoll.clearNeedsEt
  split
  · exact .setHandle _ rfl rfl
  · exact .refl m

end Heap.Alike

namespace Heap

/-- An item has gone into the list of its epoll. -/
def linkedEpoll (m : Heap T) (i : Nat) : Heap T :=
  let e := (m.item i).epollHandle
  (m.setItemRefCount i (m.itemRefCount i + 1)).setEpoll e { m.epoll e with
    items := (m.epoll e).items ++ [i]
    itemsCount := (m.epoll e).itemsCount + 1 }

/-- An item has gone into the list of its handle. -/
def linkedHandle (m : Heap T) (i : Nat) : Heap T :=
  let h := (m.item i).handle
  (m.setItemRefCount i (m.itemRefCount i + 1)).setHandle h { m.handle h with
    epollItems := (m.handle h).epollItems ++ [i]
    epollItemsCount := (m.handle h).epollItemsCount + 1 }

/-- An item has been taken out of the list of its epoll. -/
def unlinkedEpoll (m : Heap T) (i : Nat) : Heap T :=
  let e := (m.item i).epollHandle
  (m.setItemRefCount i (m.itemRefCount i - 1)).setEpoll e { m.epoll e with
    items := (m.epoll e).items.erase i
    itemsCount := (m.epoll e).itemsCount - 1 }

/-- An item has been taken out of the list of its handle. -/
def unlinkedHandle (m : Heap T) (i : Nat) : Heap T :=
  let h := (m.item i).handle
  (m.setItemRefCount i (m.itemRefCount i - 1)).setHandle h { m.handle h with
    epollItems := (m.handle h).epollItems.erase i
    epollItemsCount := (m.handle h).epollItemsCount - 1 }

/-- The item is the last of its epoll instance, and the other lists stay as they are. -/
theorem items_linkedEpoll (m : Heap T) (i e : Nat) : ((m.linkedEpoll i).epoll e).items =
    (m.epoll e).items ++ if e = (m.item i).epollHandle then [i] else [] := by
  simp only [linkedEpoll, setEpoll, setItemRefCount, update_apply]
  split <;> simp [*]

theorem epollItems_linkedHandle (m : Heap T) (i h : Nat) :
    ((m.linkedHandle i).handle h).epollItems =
      (m.handle h).epollItems ++ if h = (m.item i).handle then [i] else [] := by
  simp only [linkedHandle, setHandle, setItemRefCount, update_apply]
  split <;> simp [*]

variable (hl : m.Linked)

include hl

/-- An item is in one list, so that it can be erased from all of them. -/
theorem Linked.items_unlinkedEpoll (i e : Nat) :
    ((m.unlinkedEpoll i).epoll e).items = (m.epoll e).items.erase i := by
  simp only [unlinkedEpoll, setEpoll, setItemRefCount, update_apply]
  split
  · simp [*]
  · exact (erase_of_not_mem fun hi => ‹¬_› (hl.items.owner_eq e i hi).symm).symm

theorem Linked.epollItems_unlinkedHandle (i h : Nat) :
    ((m.unlinkedHandle i).handle h).epollItems = (m.handle h).epollItems.erase i := by
  simp only [unlinkedHandle, setHandle, setItemRefCount, update_apply]
  split
  · simp [*]
  · exact (erase_of_not_mem fun hi => ‹¬_› (hl.epollItems.owner_eq h i hi).symm).symm

omit hl in
theorem inEpoll_linkedEpoll (i x : Nat) : (m.linkedEpoll i).InEpoll x ↔ m.InEpoll x ∨ x = i :=
  @CountedLists.mem_insert _ _ _ (fun j => (m.item j).epollHandle) (fun e => (m.epoll e).items)
    (fun e => ((m.linkedEpoll i).epoll e).items) i x (m.items_linkedEpoll i)

omit hl in
theorem inHandle_linkedHandle (i x : Nat) :
    (m.linkedHandle i).InHandle x ↔ m.InHandle x ∨ x = i :=
  @CountedLists.mem_insert _ _ _ (fun j => (m.item j).handle) (fun h => (m.handle h).epollItems)
    (fun h => ((m.linkedHandle i).handle h).epollItems) i x (m.epollItems_linkedHandle i)

theorem Linked.inEpoll_unlinkedEpoll (i x : Nat) :
    (m.unlinkedEpoll i).InEpoll x ↔ m.InEpoll x ∧ x ≠ i :=
  hl.items.mem_erase (hl.items_unlinkedEpoll i)

theorem Linked.inHandle_unlinkedHandle (i x : Nat) :
    (m.unlinkedHandle i).InHandle x ↔ m.InHandle x ∧ x ≠ i :=
  hl.epollItems.mem_erase (hl.epollItems_unlinkedHandle i)

/-- The item was in no list, and no other has its descriptor and handle. -/
theorem Linked.linkedEpoll (hout : ¬m.InEpoll i)
    (hfind : m.find (m.item i).epollHandle (m.item i).fd (m.item i).handle = none) :
    (m.linkedEpoll i).Linked where
  items := by
    refine hl.items.insert hout (m.items_linkedEpoll i) fun e => ?_
    simp only [Heap.linkedEpoll, setEpoll, setItemRefCount, update_apply]
    split <;> simp [*]
  epollItems := hl.epollItems
  unique e j hj k hk hfd hh := by
    rw [items_linkedEpoll] at hj hk
    have hnew : ∀ x ∈ (if e = (m.item i).epollHandle then [i] else []),
        x = i ∧ e = (m.item i).epollHandle := by
      intro x hx
      split at hx
      · exact ⟨mem_singleton.1 hx, ‹_›⟩
      · cases hx
    have hother : ∀ x ∈ (m.epoll (m.item i).epollHandle).items, (m.item x).fd = (m.item i).fd →
        (m.item x).handle = (m.item i).handle → False := by
      intro x hx hxfd hxh
      have := find?_eq_none.1 hfind x hx
      simp [hxfd, hxh] at this
    rcases mem_append.1 hj with hj1 | hj1 <;> rcases mem_append.1 hk with hk1 | hk1
    · exact hl.unique e j hj1 k hk1 hfd hh
    · obtain ⟨rfl, rfl⟩ := hnew k hk1
      exact (hother j hj1 hfd hh).elim
    · obtain ⟨rfl, rfl⟩ := hnew j hj1
      exact (hother k hk1 hfd.symm hh.symm).elim
    · rw [(hnew j hj1).1, (hnew k hk1).1]

theorem Linked.linkedHandle (hout : ¬m.InHandle i) : (m.linkedHandle i).Linked where
  items := hl.items
  epollItems := by
    refine hl.epollItems.insert hout (m.epollItems_linkedHandle i) fun h => ?_
    simp only [Heap.linkedHandle, setHandle, setItemRefCount, update_apply]
    split <;> simp [*]
  unique := hl.unique

/-- An item leaves the list of its epoll instance, -/
theorem Linked.unlinkedEpoll (hin : m.InEpoll i) : (m.unlinkedEpoll i).Linked where
  items := by
    refine hl.items.erase hin (hl.items_unlinkedEpoll i) fun e => ?_
    simp only [Heap.unlinkedEpoll, setEpoll, setItemRefCount, update_apply]
    split <;> simp [*]
  epollItems := hl.epollItems
  unique e j hj k hk := by
    rw [hl.items_unlinkedEpoll] at hj hk
    exact hl.unique e j (mem_of_mem_erase hj) k (mem_of_mem_erase hk)

/-- and that of its handle. -/
theorem Linked.unlinkedHandle (hin : m.InHandle i) : (m.unlinkedHandle i).Linked where
  items := hl.items
  epollItems := by
    refine hl.epollItems.erase hin (hl.epollItems_unlinkedHandle i) fun h => ?_
    simp only [Heap.unlinkedHandle, setHandle, setItemRefCount, update_apply]
    split <;> simp [*]
  unique := hl.unique

end Heap

namespace Heap.Balanced

theorem congr {own' hown' : Nat → Nat} (hb : m.Balanced own hown) (ho : ∀ i, own i = own' i)
    (hh : ∀ h, hown h = hown' h) : m.Balanced own' hown' := by
  rwa [← funext ho, ← funext hh]

variable {m' : Heap T} (hb : m.Balanced own hown)

include hb

/-- References balance where nothing but other fields has changed. -/
theorem alike (hs : m.Alike m') : m'.Balanced own hown where
  linked := hs.linked hb.linked
  item i := by
    rw [hs.itemRefCount, hs.listRefs_eq]
    exact hb.item i
  handle h := by
    simp only [hs.handleRefCount, hs.fds, hs.nextItem, itemRefs, hs.itemRefCount, hs.epollHandle,
      hs.itemHandle]
    exact hb.handle h
  freshItem i hi := by
    rw [hs.itemRefCount]
    exact hb.freshItem i (hs.nextItem ▸ hi)
  freshHandle h hh := by
    rw [hs.handleRefCount]
    exact hb.freshHandle h (hs.nextHandle ▸ hh)

theorem inEpoll (hi : i ∈ (m.epoll e).items) : m.InEpoll i :=
  hb.linked.items.mem hi

theorem inHandle (hi : i ∈ (m.handle h).epollItems) : m.InHandle i :=
  hb.linked.epollItems.mem hi

/-- A list holds a reference to each of its items. -/
theorem alive_of_inEpoll (hi : m.InEpoll i) : m.itemRefCount i ≠ 0 := by
  have hlist : m.listRefs i ≠ 0 := by simp [listRefs, hi]
  have := hb.item i
  omega

theorem alive_of_inHandle (hi : m.InHandle i) : m.itemRefCount i ≠ 0 := by
  have hlist : m.listRefs i ≠ 0 := by simp [listRefs, hi]
  have := hb.item i
  omega

/-- Items that are alive were allocated. -/
theorem lt_nextItem (hi : m.itemRefCount i ≠ 0) : i < m.nextItem :=
  not_le.1 fun hle => hi (hb.freshItem i hle)

/-- An item holds a reference to both of its handles. -/
theorem handle_alive (hi : m.itemRefCount i ≠ 0)
    (hh : (m.item i).epollHandle = h ∨ (m.item i).handle = h) : m.handleRefCount h ≠ 0 := by
  have hone : 1 ≤ m.itemRefs h i := by
    rw [itemRefs, if_neg hi]
    rcases hh with rfl | rfl <;> simp
  have hsum : m.itemRefs h i ≤ ∑ j ∈ Finset.range m.nextItem, m.itemRefs h j :=
    Finset.single_le_sum (f := fun j => m.itemRefs h j) (fun _ _ => Nat.zero_le _)
      (Finset.mem_range.2 (hb.lt_nextItem hi))
  have := hb.handle h
  omega

/-- A thread that holds a reference keeps the handle alive, -/
theorem handle_alive_of_own (hh : hown h ≠ 0) : m.handleRefCount h ≠ 0 := by
  have := hb.handle h
  omega

/-- and so does a descriptor. -/
theorem handle_alive_of_fd {fd : Nat} (hfd : (fd, h) ∈ m.fds) : m.handleRefCount h ≠ 0 := by
  have hpos : 0 < m.fds.countP (·.2 = h) := countP_pos_iff.2 ⟨(fd, h), hfd, by simp⟩
  have := hb.handle h
  omega

/-- A handle that is gone has no items: each of them would keep it alive. -/
theorem lists_of_gone (hh : m.handleRefCount h = 0) :
    (m.epoll h).items = [] ∧ (m.handle h).epollItems = [] := by
  constructor
  · refine eq_nil_iff_forall_not_mem.2 fun i hi => ?_
    exact hb.handle_alive (hb.alive_of_inEpoll (hb.inEpoll hi))
      (.inl (hb.linked.items.owner_eq h i hi)) hh
  · refine eq_nil_iff_forall_not_mem.2 fun i hi => ?_
    exact hb.handle_alive (hb.alive_of_inHandle (hb.inHandle hi))
      (.inr (hb.linked.epollItems.owner_eq h i hi)) hh

/-! ### Reference counts of handles -/

variable {n : Nat}

/-- The count of a handle and the references to it change alike. -/
theorem setHandleRefCount {hown' : Nat → Nat}
    (hn : n + hown h = m.handleRefCount h + hown' h) (hrest : ∀ x, x ≠ h → hown' x = hown x)
    (hnext : h < m.nextHandle) : (m.setHandleRefCount h n).Balanced own hown' where
  linked := (Same.setHandleRefCount m h n).linked hb.linked
  item := hb.item
  handle := by
    refine (forall_update_iff m.handleRefCount fun x k => k = m.fds.countP (·.2 = x) +
      ∑ i ∈ Finset.range m.nextItem, m.itemRefs x i + hown' x).2 ⟨?_, fun x hx => ?_⟩
    · have := hb.handle h
      omega
    · rw [hrest x hx]
      exact hb.handle x
  freshItem := hb.freshItem
  freshHandle x hx :=
    (update_of_ne (ne_of_gt (hnext.trans_le hx)) ..).trans (hb.freshHandle x hx)

theorem lt_nextHandle (hh : m.handleRefCount h ≠ 0) : h < m.nextHandle :=
  not_le.1 fun hle => hh (hb.freshHandle h hle)

/-- `get_handle`: the thread holds one reference more. -/
theorem getHandle (hh : m.handleRefCount h ≠ 0) :
    getHandle h m = .ok (m.setHandleRefCount h (m.handleRefCount h + 1)) ∧
      (m.setHandleRefCount h (m.handleRefCount h + 1)).Balanced own
        fun x => hown x + [h].count x := by
  refine ⟨if_neg hh, hb.setHandleRefCount ?_ (fun x hx => ?_) (hb.lt_nextHandle hh)⟩
  · simp only [count_singleton_self]
    omega
  · simp [Ne.symm hx]

omit hb in
/-- **`put_handle`** puts a reference that an operation holds. Its assertions hold: a handle that
goes away has no items, and there are waiters only as long as they have references. -/
theorem putHandle [DecidableEq T] (hb : m.Balanced own fun x => hown x + [h].count x)
    (hw : (m.epoll h).waiters ≠ [] → hown h ≠ 0) :
    putHandle h m = .ok (m.setHandleRefCount h (m.handleRefCount h - 1)) ∧
      (m.setHandleRefCount h (m.handleRefCount h - 1)).Balanced own hown := by
  have hcount := hb.handle h
  simp only [count_singleton_self] at hcount
  have hb' : (m.setHandleRefCount h (m.handleRefCount h - 1)).Balanced own hown := by
    refine hb.setHandleRefCount ?_ (fun x hx => ?_) (hb.lt_nextHandle (by omega))
    · simp only [count_singleton_self]
      omega
    · simp [Ne.symm hx]
  refine ⟨?_, hb'⟩
  rw [Epoll.putHandle, if_neg (by omega)]
  by_cases hgone : (m.setHandleRefCount h (m.handleRefCount h - 1)).handleRefCount h = 0
  · obtain ⟨hitems, hepollItems⟩ := hb'.lists_of_gone hgone
    have hitemsCount := hb'.linked.items.count_eq h
    have hepollItemsCount := hb'.linked.epollItems.count_eq h
    rw [hitems] at hitemsCount
    have hwaiters : (m.epoll h).waiters = [] := by
      by_contra hne
      have := hw hne
      have := hb'.handle h
      omega
    have hclose : epollClose ((m.setHandleRefCount h (m.handleRefCount h - 1)).epoll h) =
        .ok () := by
      refine if_neg ?_
      rintro (hne | hne | hne)
      · exact hne hwaiters
      · exact hne hitems
      · exact hne hitemsCount
    simp only [hgone, hepollItems, hepollItemsCount, hclose, length_nil, if_true, ne_eq,
      not_true_eq_false, or_self, if_false]
    split <;> rfl
  · simp only [hgone]
    rfl

/-! ### Reference counts of items -/

/-- The count of an item that stays and the references to it change alike. -/
theorem setItemRefCount {own' : Nat → Nat}
    (hn : n + own i = m.itemRefCount i + own' i) (hrest : ∀ x, x ≠ i → own' x = own x)
    (hold : m.itemRefCount i ≠ 0) (hnew : n ≠ 0) :
    (m.setItemRefCount i n).Balanced own' hown where
  linked := (Same.setItemRefCount m i n).linked hb.linked
  item := by
    refine (forall_update_iff m.itemRefCount fun x k => k = m.listRefs x + own' x).2
      ⟨?_, fun x hx => ?_⟩
    · have := hb.item i
      omega
    · rw [hrest x hx]
      exact hb.item x
  handle x := by
    have hrefs : ∀ j, (m.setItemRefCount i n).itemRefs x j = m.itemRefs x j := by
      intro j
      simp only [itemRefs, Heap.setItemRefCount, update_apply]
      split <;> simp [*]
    simp only [hrefs]
    exact hb.handle x
  freshItem := (forall_update_iff m.itemRefCount fun x k => m.nextItem ≤ x → k = 0).2
    ⟨fun hi => absurd (hb.freshItem i hi) hold, fun x _ => hb.freshItem x⟩
  freshHandle := hb.freshHandle

/-- `get_epoll_item`: the thread holds one reference more. -/
theorem getEpollItem (hi : m.itemRefCount i ≠ 0) :
    getEpollItem i m = .ok (m.setItemRefCount i (m.itemRefCount i + 1)) ∧
      (m.setItemRefCount i (m.itemRefCount i + 1)).Balanced (fun x => own x + [i].count x)
        hown := by
  refine ⟨if_neg hi, hb.setItemRefCount ?_ (fun x hx => ?_) hi (Nat.succ_ne_zero _)⟩
  · simp only [count_singleton_self]
    omega
  · simp [Ne.symm hx]

/-- The thread holds one reference more to each item that it has collected. -/
theorem getEpollItems (items : List Nat) (hi : ∀ i ∈ items, m.itemRefCount i ≠ 0) :
    ∃ m', getEpollItems items m = .ok m' ∧ m.Counted m' ∧
      m'.Balanced (fun x => own x + items.count x) hown := by
  induction items generalizing m own with
  | nil => exact ⟨m, rfl, ⟨_, _, rfl⟩, hb.congr (fun _ => by simp) fun _ => rfl⟩
  | cons i items ih =>
    obtain ⟨hget, hb1⟩ := hb.getEpollItem (hi i mem_cons_self)
    obtain ⟨m', hm', ⟨rc, hrc, rfl⟩, hb'⟩ := ih hb1 fun j hj => by
      by_cases hji : j = i
      · subst hji
        simp [Heap.setItemRefCount]
      · simpa [Heap.setItemRefCount, hji] using hi j (mem_cons_of_mem i hj)
    refine ⟨_, ?_, ⟨rc, hrc, rfl⟩, hb'.congr (fun x => ?_) fun _ => rfl⟩
    · rwa [Epoll.getEpollItems, foldlM_cons, hget]
    · have hsplit : ([i] ++ items).count x = [i].count x + items.count x := count_append
      rw [singleton_append] at hsplit
      omega

omit hb in
/-- An item that is in no list and that no operation has a reference to any more is freed: its
references to the two handles are put. -/
theorem free (hb : m.Balanced (fun x => own x + [i].count x) hown) (hone : m.itemRefCount i = 1) :
    (m.setItemRefCount i 0).Balanced own
      fun x => hown x + [(m.item i).epollHandle, (m.item i).handle].count x where
  linked := (Same.setItemRefCount m i 0).linked hb.linked
  item := by
    refine (forall_update_iff m.itemRefCount fun x k => k = m.listRefs x + own x).2
      ⟨?_, fun x hx => ?_⟩
    · have := hb.item i
      simp only [count_singleton_self] at this
      omega
    · simpa [Ne.symm hx] using hb.item x
  handle x := by
    have hsum := Holders.sum_add_eq_sum_add (f := fun j => (m.setItemRefCount i 0).itemRefs x j)
      (g := fun j => m.itemRefs x j) (Finset.mem_range.2 (hb.lt_nextItem (i := i) (by omega)))
      fun j hj => by simp [itemRefs, Heap.setItemRefCount, hj]
    have hold : m.itemRefs x i = [(m.item i).epollHandle, (m.item i).handle].count x := by
      simp [itemRefs, hone]
    have hnew : (m.setItemRefCount i 0).itemRefs x i = 0 := by
      simp [itemRefs, Heap.setItemRefCount]
    have hx := hb.handle x
    change m.handleRefCount x = m.fds.countP (·.2 = x) +
      ∑ j ∈ Finset.range m.nextItem, (m.setItemRefCount i 0).itemRefs x j + _
    omega
  freshItem := (forall_update_iff m.itemRefCount fun x k => m.nextItem ≤ x → k = 0).2
    ⟨fun _ => rfl, fun x _ => hb.freshItem x⟩
  freshHandle := hb.freshHandle

omit hb in
/-- There is another reference, so the item stays. -/
theorem putEpollItem_of_two [DecidableEq T] (hn : 2 ≤ m.itemRefCount i) :
    Epoll.putEpollItem i m = .ok (m.setItemRefCount i (m.itemRefCount i - 1)) := by
  rw [Epoll.putEpollItem, if_neg (by omega)]
  simp only [Heap.setItemRefCount, update_self]
  rw [if_neg (by omega)]
  rfl

omit hb in
/-- **`put_epoll_item`** puts a reference that an operation holds. -/
theorem putEpollItem [DecidableEq T] (hb : m.Balanced (fun x => own x + [i].count x) hown)
    (hw : ∀ e, (m.epoll e).waiters ≠ [] → hown e ≠ 0) :
    ∃ m', putEpollItem i m = .ok m' ∧ m.Counted m' ∧ m'.Balanced own hown := by
  have hcount := hb.item i
  simp only [count_singleton_self] at hcount
  by_cases hone : m.itemRefCount i = 1
  · have hfree : (m.setItemRefCount i 0).Balanced own fun x =>
        hown x + [(m.item i).handle].count x + [(m.item i).epollHandle].count x :=
      (hb.free hone).congr (fun _ => rfl) fun x => by
        rw [← singleton_append, count_append]
        omega
    obtain ⟨hput1, hb1⟩ := hfree.putHandle fun hne => by
      have := hw _ hne
      omega
    obtain ⟨hput2, hb2⟩ := hb1.putHandle (hw _)
    refine ⟨_, ?_, ⟨_, _, rfl⟩, hb2⟩
    rw [Epoll.putEpollItem, hone]
    simp only [Heap.setItemRefCount, update_self]
    simp only [Heap.setItemRefCount] at hput1 hput2
    rwa [hput1]
  · refine ⟨_, putEpollItem_of_two (by omega), ⟨_, _, rfl⟩,
      hb.setItemRefCount ?_ (fun x hx => ?_) (by omega) (by omega)⟩
    · simp only [count_singleton_self]
      omega
    · simp [Ne.symm hx]

/-! ### The lists -/

/-- An item goes into a list or out of one, and its count changes by that. -/
theorem relist (hlinked : m'.Linked) (hitem : m'.item = m.item)
    (hcount : m'.itemRefCount = update m.itemRefCount i n) (hold : m.itemRefCount i ≠ 0)
    (hnew : n ≠ 0) (hi : n + m.listRefs i = m.itemRefCount i + m'.listRefs i)
    (hepoll : ∀ x, x ≠ i → (m'.InEpoll x ↔ m.InEpoll x))
    (hhandles : ∀ x, x ≠ i → (m'.InHandle x ↔ m.InHandle x))
    (hhandle : m'.handleRefCount = m.handleRefCount) (hfds : m'.fds = m.fds)
    (hnextItem : m'.nextItem = m.nextItem) (hnextHandle : m'.nextHandle = m.nextHandle) :
    m'.Balanced own hown := by
  have hzero : ∀ x, m'.itemRefCount x = 0 ↔ m.itemRefCount x = 0 := by
    rw [hcount, forall_update_iff m.itemRefCount fun x k => k = 0 ↔ m.itemRefCount x = 0]
    exact ⟨iff_of_false hnew hold, fun _ _ => Iff.rfl⟩
  refine ⟨hlinked, ?_, fun h => ?_, fun x hx => ?_, fun h hh => ?_⟩
  · rw [hcount, forall_update_iff m.itemRefCount fun x k => k = m'.listRefs x + own x]
    refine ⟨?_, fun x hx => ?_⟩
    · have := hb.item i
      omega
    · simpa only [listRefs, hepoll x hx, hhandles x hx] using hb.item x
  · simp only [hhandle, hfds, hnextItem, itemRefs, hzero, hitem]
    exact hb.handle h
  · exact (hzero x).2 (hb.freshItem x (hnextItem ▸ hx))
  · rw [hhandle]
    exact hb.freshHandle h (hnextHandle ▸ hh)

theorem alive_of_own (hi : own i ≠ 0) : m.itemRefCount i ≠ 0 := by
  have := hb.item i
  omega

/-- The list of the epoll instance takes a reference of its own. -/
theorem linkEpoll (hi : own i ≠ 0) (hout : ¬m.InEpoll i)
    (hfind : m.find (m.item i).epollHandle (m.item i).fd (m.item i).handle = none) :
    linkEpoll i m = .ok (m.linkedEpoll i) ∧ (m.linkedEpoll i).Balanced own hown := by
  have halive := hb.alive_of_own hi
  have hin : (m.linkedEpoll i).InEpoll i := (inEpoll_linkedEpoll i i).2 (.inr rfl)
  refine ⟨?_, hb.relist (hb.linked.linkedEpoll hout hfind) rfl rfl halive (Nat.succ_ne_zero _) ?_
    (fun x hx => ?_) (fun _ _ => Iff.rfl) rfl rfl rfl rfl⟩
  · simp [Epoll.linkEpoll, Epoll.getEpollItem, Heap.setEpoll, bind, Except.bind, pure, Except.pure,
      linkedEpoll, Heap.setItemRefCount, halive]
  · have hhandle : (m.linkedEpoll i).InHandle i ↔ m.InHandle i := Iff.rfl
    simp only [listRefs, if_pos hin, if_neg hout, hhandle]
    omega
  · simp [inEpoll_linkedEpoll, hx]

/-- The same for the list of the handle. -/
theorem linkHandle (hi : own i ≠ 0) (hout : ¬m.InHandle i) :
    linkHandle i m = .ok (m.linkedHandle i) ∧ (m.linkedHandle i).Balanced own hown := by
  have halive := hb.alive_of_own hi
  have hin : (m.linkedHandle i).InHandle i := (inHandle_linkedHandle i i).2 (.inr rfl)
  refine ⟨?_, hb.relist (hb.linked.linkedHandle hout) rfl rfl halive (Nat.succ_ne_zero _) ?_
    (fun _ _ => Iff.rfl) (fun x hx => ?_) rfl rfl rfl rfl⟩
  · simp [Epoll.linkHandle, Epoll.getEpollItem, Heap.setHandle, bind, Except.bind, pure,
      Except.pure, linkedHandle, Heap.setItemRefCount, halive]
  · have hepoll : (m.linkedHandle i).InEpoll i ↔ m.InEpoll i := Iff.rfl
    simp only [listRefs, if_pos hin, if_neg hout, hepoll]
    omega
  · simp [inHandle_linkedHandle, hx]

/-- The item leaves the list of its handle, unless it has left it before. -/
theorem unlinkHandle [DecidableEq T] (hi : own i ≠ 0) :
    unlinkHandle i m = .ok (if m.InHandle i then m.unlinkedHandle i else m) ∧
      (if m.InHandle i then m.unlinkedHandle i else m).Balanced own hown := by
  by_cases hin : m.InHandle i
  · have hcount := hb.item i
    rw [listRefs, if_pos hin] at hcount
    have hout : ¬(m.unlinkedHandle i).InHandle i := fun h =>
      ((hb.linked.inHandle_unlinkedHandle i i).1 h).2 rfl
    simp only [if_pos hin]
    refine ⟨?_, hb.relist (hb.linked.unlinkedHandle hin) rfl rfl (by omega) (by omega) ?_
      (fun _ _ => Iff.rfl) (fun x hx => ?_) rfl rfl rfl rfl⟩
    · rw [Epoll.unlinkHandle]
      simp only [if_pos (show i ∈ (m.handle (m.item i).handle).epollItems from hin)]
      rw [putEpollItem_of_two]
      · rfl
      · change 2 ≤ m.itemRefCount i
        omega
    · have hepoll : (m.unlinkedHandle i).InEpoll i ↔ m.InEpoll i := Iff.rfl
      simp only [listRefs, if_pos hin, if_neg hout, hepoll]
      omega
    · simp [hb.linked.inHandle_unlinkedHandle, hx]
  · simp only [if_neg hin]
    exact ⟨if_neg hin, hb⟩

/-- The item leaves the list of the epoll instance, unless it has left it before. -/
theorem unlinkEpoll [DecidableEq T] (hi : own i ≠ 0) :
    unlinkEpoll i m = .ok (if m.InEpoll i then m.unlinkedEpoll i else m) ∧
      (if m.InEpoll i then m.unlinkedEpoll i else m).Balanced own hown := by
  by_cases hin : m.InEpoll i
  · have hcount := hb.item i
    rw [listRefs, if_pos hin] at hcount
    have hout : ¬(m.unlinkedEpoll i).InEpoll i := fun h =>
      ((hb.linked.inEpoll_unlinkedEpoll i i).1 h).2 rfl
    simp only [if_pos hin]
    refine ⟨?_, hb.relist (hb.linked.unlinkedEpoll hin) rfl rfl (by omega) (by omega) ?_
      (fun x hx => ?_) (fun _ _ => Iff.rfl) rfl rfl rfl rfl⟩
    · rw [Epoll.unlinkEpoll]
      simp only [if_pos (show i ∈ (m.epoll (m.item i).epollHandle).items from hin)]
      rw [putEpollItem_of_two]
      · rfl
      · change 2 ≤ m.itemRefCount i
        omega
    · have hhandle : (m.unlinkedEpoll i).InHandle i ↔ m.InHandle i := Iff.rfl
      simp only [listRefs, if_pos hin, if_neg hout, hhandle]
      omega
    · simp [hb.linked.inEpoll_unlinkedEpoll, hx]
  · simp only [if_neg hin]
    exact ⟨if_neg hin, hb⟩

/-! ### New items, handles and descriptors -/

/-- An item that is gone is in no list. -/
theorem not_mem_of_gone (hi : m.itemRefCount i = 0) :
    (∀ e, i ∉ (m.epoll e).items) ∧ ∀ h, i ∉ (m.handle h).epollItems :=
  ⟨fun _ hin => hb.alive_of_inEpoll (hb.inEpoll hin) hi,
    fun _ hin => hb.alive_of_inHandle (hb.inHandle hin) hi⟩

omit hb in
/-- A new item takes over the two references to its handles. -/
theorem addItem (x : Item)
    (hb : m.Balanced own fun y => hown y + [x.handle].count y + [x.epollHandle].count y) :
    (m.addItem x).Balanced (fun y => own y + [m.nextItem].count y) hown := by
  have hgone := hb.freshItem m.nextItem le_rfl
  obtain ⟨hepoll, hhandle⟩ := hb.not_mem_of_gone hgone
  have hitem : ∀ j, j ≠ m.nextItem → (m.addItem x).item j = m.item j := fun j hj =>
    update_of_ne hj ..
  have hcount : ∀ j, j ≠ m.nextItem → (m.addItem x).itemRefCount j = m.itemRefCount j := fun j hj =>
    update_of_ne hj ..
  have hne : ∀ {e j}, j ∈ (m.epoll e).items → j ≠ m.nextItem := by
    rintro e j hj rfl
    exact hepoll e hj
  have hne' : ∀ {h j}, j ∈ (m.handle h).epollItems → j ≠ m.nextItem := by
    rintro h j hj rfl
    exact hhandle h hj
  constructor
  · refine ⟨⟨hb.linked.items.nodup, fun e j hj => ?_, hb.linked.items.count_eq⟩,
      ⟨hb.linked.epollItems.nodup, fun h j hj => ?_, hb.linked.epollItems.count_eq⟩,
      fun e j hj k hk hfd hh => ?_⟩
    · simp only [hitem j (hne hj)]
      exact hb.linked.items.owner_eq e j hj
    · simp only [hitem j (hne' hj)]
      exact hb.linked.epollItems.owner_eq h j hj
    · rw [hitem j (hne hj), hitem k (hne hk)] at hfd hh
      exact hb.linked.unique e j hj k hk hfd hh
  · intro j
    by_cases hj : j = m.nextItem
    · subst hj
      have hlist : (m.addItem x).listRefs m.nextItem = 0 := by
        rw [listRefs, if_neg (show ¬(m.addItem x).InEpoll m.nextItem from hepoll _),
          if_neg (show ¬(m.addItem x).InHandle m.nextItem from hhandle _)]
      have hown := hb.item m.nextItem
      rw [count_singleton_self]
      change update m.itemRefCount m.nextItem 1 m.nextItem = _
      rw [update_self]
      omega
    · have hlist : (m.addItem x).listRefs j = m.listRefs j := by
        simp only [listRefs, InEpoll, InHandle, hitem j hj]
        rfl
      rw [hcount j hj, hlist, hb.item j]
      simp [Ne.symm hj]
  · intro h
    have hnew : (m.addItem x).itemRefs h m.nextItem =
        [x.handle].count h + [x.epollHandle].count h := by
      simp only [itemRefs, Heap.addItem, update_self]
      rw [if_neg one_ne_zero, ← singleton_append, count_append, add_comm]
    have hold : ∀ j ∈ Finset.range m.nextItem, (m.addItem x).itemRefs h j = m.itemRefs h j := by
      intro j hj
      have hj' := ne_of_lt (Finset.mem_range.1 hj)
      rw [itemRefs, itemRefs, hitem j hj', hcount j hj']
    change m.handleRefCount h = m.fds.countP (·.2 = h) +
      ∑ j ∈ Finset.range (m.nextItem + 1), (m.addItem x).itemRefs h j + hown h
    have hsum : ∑ j ∈ Finset.range m.nextItem, (m.addItem x).itemRefs h j =
        ∑ j ∈ Finset.range m.nextItem, m.itemRefs h j := Finset.sum_congr rfl hold
    have := hb.handle h
    rw [Finset.sum_range_succ]
    omega
  · intro j hj
    have hlt : m.nextItem < j := hj
    rw [hcount j (ne_of_gt hlt)]
    exact hb.freshItem j (le_of_lt hlt)
  · exact hb.freshHandle

/-- The new item of `do_epoll_add`, to which the operation has the only reference. -/
theorem newItem (fd : Nat) (event : Event)
    (he : m.handleRefCount e ≠ 0) (hh : m.handleRefCount h ≠ 0) :
    ∃ m1 x, m.Counted m1 ∧ x = ⟨e, h, fd, newEvents (m.handle h) event, event.data⟩ ∧
      newItem e h fd event m = .ok (m1.addItem x) ∧
      (m1.addItem x).Balanced (fun y => own y + [m.nextItem].count y) hown := by
  obtain ⟨hget1, hb1⟩ := hb.getHandle hh
  obtain ⟨hget2, hb2⟩ := hb1.getHandle (h := e) (by
    by_cases heh : e = h
    · subst heh
      simp [Heap.setHandleRefCount]
    · simpa [Heap.setHandleRefCount, heh] using he)
  have hnew := Heap.Balanced.addItem ⟨e, h, fd, newEvents (m.handle h) event, event.data⟩ hb2
  refine ⟨_, _, ⟨_, _, rfl⟩, rfl, ?_, hnew⟩
  rw [Epoll.newItem, hget1]
  simp only [bind, Except.bind, hget2]
  rfl

omit hb in
theorem countP_fds (fds : List (Nat × Nat)) (fd h x : Nat) :
    ((fd, h) :: fds).countP (·.2 = x) = fds.countP (·.2 = x) + [h].count x := by
  simp [countP_cons, count_singleton]

section
variable (x : Handle) (fd : Nat) (hx : x.epollItems = []) (hcount : x.epollItemsCount = 0)
include x fd hx hcount

theorem addHandle_same : m.Same { m.addHandle x with fds := (fd, m.nextHandle) :: m.fds } := by
  obtain ⟨hitems, hepollItems⟩ := hb.lists_of_gone (hb.freshHandle m.nextHandle le_rfl)
  have hzero := hb.linked.items.count_eq m.nextHandle
  have hzero' := hb.linked.epollItems.count_eq m.nextHandle
  simp only [hitems, hepollItems, length_nil] at hzero hzero'
  exact { Same.refl m with
    items := field_update EpollHandle.items hitems.symm
    itemsCount := field_update EpollHandle.itemsCount hzero.symm
    epollItems := field_update Handle.epollItems (hx.trans hepollItems.symm)
    epollItemsCount := field_update Handle.epollItemsCount (hcount.trans hzero'.symm) }

/-- The first reference to a new handle is that of its descriptor. -/
theorem addHandle :
    Heap.Balanced { m.addHandle x with fds := (fd, m.nextHandle) :: m.fds } own hown := by
  have hgone := hb.freshHandle m.nextHandle le_rfl
  have hsame := hb.addHandle_same x fd hx hcount
  refine ⟨hsame.linked hb.linked, fun i => ?_, fun h => ?_, hb.freshItem, fun h hh => ?_⟩
  · rw [hsame.listRefs_eq]
    exact hb.item i
  · have hold := hb.handle h
    change update m.handleRefCount m.nextHandle 1 h =
      ((fd, m.nextHandle) :: m.fds).countP (·.2 = h) +
        ∑ i ∈ Finset.range m.nextItem, m.itemRefs h i + hown h
    rw [countP_fds, count_singleton, update_apply]
    split <;> grind
  · have hlt : m.nextHandle < h := hh
    change update m.handleRefCount m.nextHandle 1 h = 0
    rw [update_of_ne (ne_of_gt hlt)]
    exact hb.freshHandle h (le_of_lt hlt)

end

omit hb in
/-- A descriptor takes over a reference of the thread. -/
theorem addFd (fd : Nat) (hb : m.Balanced own fun x => hown x + [h].count x) :
    Heap.Balanced { m with fds := (fd, h) :: m.fds } own hown := by
  refine ⟨⟨hb.linked.items, hb.linked.epollItems, hb.linked.unique⟩, hb.item, fun x => ?_,
    hb.freshItem, hb.freshHandle⟩
  have hold := hb.handle x
  change m.handleRefCount x = ((fd, h) :: m.fds).countP (·.2 = x) +
    ∑ i ∈ Finset.range m.nextItem, m.itemRefs x i + hown x
  rw [countP_fds]
  omega

/-- A descriptor that is closed leaves its reference to the thread. -/
theorem detachFd {fd : Nat} (hfd : (fd, h) ∈ m.fds) :
    Heap.Balanced { m with fds := m.fds.erase (fd, h) } own fun x => hown x + [h].count x := by
  refine ⟨⟨hb.linked.items, hb.linked.epollItems, hb.linked.unique⟩, hb.item, fun x => ?_,
    hb.freshItem, hb.freshHandle⟩
  have hold := hb.handle x
  have hperm := (perm_cons_erase hfd).countP_eq (fun y => decide (y.2 = x))
  rw [countP_fds] at hperm
  change m.handleRefCount x = (m.fds.erase (fd, h)).countP (·.2 = x) +
    ∑ i ∈ Finset.range m.nextItem, m.itemRefs x i + (hown x + [h].count x)
  omega

end Heap.Balanced

end Epoll
