import Gramine.Transition

/-!
# The object manager

`memmgr.h`: objects of one size are handed out from areas of memory. The manager goes
through its newest area object by object (`obj` up to `obj_top`), after the objects on its
list of free ones; a thread that finds nothing left asks the system for another area, and
drops the lock while it does so. The sections under the lock are single steps.
-/

open List Transition

namespace MemMgr

/-- `sizeof(MEM_OBJ_TYPE)`, `sizeof(MEM_AREA_TYPE)` and `sizeof(MEM_MGR_TYPE)`. -/
structure Layout where
  objSize : Nat
  areaSize : Nat
  mgrSize : Nat

/-- What `enlarge` asks of `system_malloc`, in the arithmetic of `size_t`. -/
def Layout.areaBytes (c : Layout) (size : Nat) : Nat :=
  (c.areaSize + c.objSize * size) % 2 ^ 64

/-- `__MAX_MEM_SIZE`. -/
def Layout.maxMemSize (c : Layout) (size : Nat) : Nat :=
  (c.mgrSize + c.areaSize + c.objSize * size) % 2 ^ 64

/-- `struct mem_area`, with the number of bytes it was given. -/
structure Area where
  id : Nat
  size : Nat
  bytes : Nat
  deriving DecidableEq, Repr

/-- `&area->objs[index]`. -/
structure Mobj where
  area : Nat
  index : Nat
  deriving DecidableEq, Repr

/-- Where a thread is: outside, or waiting for `system_malloc` with the size it asked for
and the `mgr->size` it has seen. -/
inductive Pc
  | idle
  | enlarging (size : Nat) (mgrSize : Nat)
  deriving DecidableEq, Repr

/-- `struct mem_mgr`, the threads, the objects handed out and not given back, and the
name of the next area. -/
structure State (T : Type) where
  areaList : List Area
  freeList : List Mobj
  size : Nat
  obj : Mobj
  objTop : Mobj
  activeArea : Nat
  pc : T → Pc
  held : List Mobj
  nextArea : Nat

/-- `LISTP_PREV_ENTRY`: the area in front of this one. -/
def prevEntry (id : Nat) : List Area → Option Area
  | a :: b :: l => if b.id = id then some a else prevEntry id (b :: l)
  | _ => none

section Step
variable {T : Type} [DecidableEq T]

/-- `__set_free_mem_area`. -/
def State.setFreeMemArea (s : State T) (area : Area) : State T :=
  { s with
    size := (s.size + area.size) % 2 ^ 64
    obj := ⟨area.id, 0⟩
    objTop := ⟨area.id, area.size⟩
    activeArea := area.id }

/-- `use_free_list`: a sanitized build prefers new objects over freed ones. -/
def State.useFreeList (asan : Bool) (s : State T) : Bool :=
  if asan then s.obj == s.objTop else !s.freeList.isEmpty

/-- From `alloc:` on. -/
def State.alloc (asan : Bool) (s : State T) : Option (State T) :=
  if s.useFreeList asan then
    match s.freeList with
    | [] => none -- the assertion of the sanitized build fails
    | mobj :: l => some { s with freeList := l, held := mobj :: s.held }
  else some { s with obj := ⟨s.obj.area, s.obj.index + 1⟩, held := s.obj :: s.held }

/-- A thread moves on. -/
def State.goto (s : State T) (t : T) (pc : Pc) : State T :=
  { s with pc := Function.update s.pc t pc }

/-- `get_mem_obj_from_mgr_enlarge` up to the call of `system_malloc`, or to its end. -/
def State.getMemObj (asan : Bool) (s : State T) (t : T) (size : Nat) : Option (State T) :=
  if s.obj = s.objTop ∧ s.freeList = [] then
    match prevEntry s.activeArea s.areaList with
    | some area => (s.setFreeMemArea area).alloc asan
    | none =>
      -- the caller gets `NULL`, or the manager is enlarged without the lock
      if size = 0 then some s else some (s.goto t (.enlarging size s.size))
  else s.alloc asan

/-- `LISTP_ADD` of a new area. -/
def State.addArea (c : Layout) (s : State T) (size : Nat) : State T :=
  { s with
    areaList := ⟨s.nextArea, size, c.areaBytes size⟩ :: s.areaList
    nextArea := s.nextArea + 1 }

/-- `get_mem_obj_from_mgr_enlarge` after `system_malloc`. -/
def State.enlarge (c : Layout) (asan : Bool) (s : State T) (size mgrSize : Nat) :
    Option (State T) :=
  if mgrSize = s.size then
    ((s.addArea c size).setFreeMemArea ⟨s.nextArea, size, c.areaBytes size⟩).alloc asan
  else (s.addArea c size).alloc asan

/-- `free_mem_obj_to_mgr`: an object from a checkpoint is not given back. -/
def State.freeMemObj (migrated : Mobj → Bool) (s : State T) (mobj : Mobj) : State T :=
  if migrated mobj then { s with held := s.held.erase mobj }
  else { s with held := s.held.erase mobj, freeList := s.freeList ++ [mobj] }

/-- What a thread does next. -/
inductive Action
  /-- `get_mem_obj_from_mgr_enlarge`; `get_mem_obj_from_mgr` is the call with 0. -/
  | get (size : Nat)
  /-- `system_malloc` returns an area. -/
  | malloc
  /-- `system_malloc` returns `NULL`. -/
  | mallocFails
  /-- `free_mem_obj_to_mgr` of an object that was handed out. -/
  | free (mobj : Mobj)
  /-- `enlarge_mem_mgr`, called for at least one object. -/
  | enlargeMgr (size : Nat)
  deriving DecidableEq, Repr

/-- One step of a thread. -/
def step (c : Layout) (asan : Bool) (migrated : Mobj → Bool) (s : State T) (t : T) (a : Action) :
    Option (State T) :=
  match a, s.pc t with
  | .get size, .idle => s.getMemObj asan t size
  | .malloc, .enlarging size mgrSize =>
    (s.enlarge c asan size mgrSize).map fun s' => s'.goto t .idle
  | .mallocFails, .enlarging _ _ => some (s.goto t .idle)
  | .free mobj, .idle => if mobj ∈ s.held then some (s.freeMemObj migrated mobj) else none
  | .enlargeMgr size, .idle => if size = 0 then none else some (s.addArea c size)
  | _, _ => none

/-- After `create_mem_mgr`: the first area lies behind the manager. -/
def create (c : Layout) (size : Nat) : State T :=
  let area : Area := ⟨0, size, c.maxMemSize size - c.mgrSize⟩
  { areaList := [area]
    freeList := []
    size := 0
    obj := ⟨0, 0⟩
    objTop := ⟨0, 0⟩
    activeArea := 0
    pc := fun _ => .idle
    held := []
    nextArea := 1 : State T }.setFreeMemArea area

/-- The size of an area fits a `size_t`. -/
def Layout.fits (c : Layout) (size : Nat) : Prop := c.areaSize + c.objSize * size < 2 ^ 64

def Initial (c : Layout) (s : State T) : Prop :=
  ∃ size, c.mgrSize + c.areaSize + c.objSize * size < 2 ^ 64 ∧ s = create c size

/-- The bump pointer is within its area, every object handed out lies within an area, and
none is handed out twice. -/
structure Safe (c : Layout) (s : State T) : Prop where
  obj_le : s.obj.area = s.objTop.area ∧ s.obj.index ≤ s.objTop.index
  inside : ∀ o ∈ s.held, ∃ a ∈ s.areaList, a.id = o.area ∧
    c.areaSize + c.objSize * (o.index + 1) ≤ a.bytes
  nodup : s.held.Nodup

/-- When a thread comes back with an area, nobody has enlarged the manager, or an object is
left; and the sizes asked for fit a `size_t`. -/
def Sound (c : Layout) (s : State T) (label : T × Action) : Prop :=
  match label.2, s.pc label.1 with
  | .malloc, .enlarging _ mgrSize => mgrSize = s.size ∨ s.obj ≠ s.objTop ∨ s.freeList ≠ []
  | .get size, _ => c.fits size
  | .enlargeMgr size, _ => c.fits size
  | _, _ => True

end Step

/-! ## Invariant -/

section Inv
variable {T : Type} {c : Layout} {s s' : State T} {newer older : List Area} {active : Area}

/-- The areas before the active one are unused; those behind it have been used up or
passed over. -/
structure Inv (c : Layout) (s : State T) (newer : List Area) (active : Area)
    (older : List Area) : Prop where
  areas : s.areaList = newer ++ active :: older
  ids : (s.areaList.map Area.id).Nodup
  fresh : ∀ a ∈ s.areaList, a.id < s.nextArea
  room : ∀ a ∈ s.areaList, c.areaSize + c.objSize * a.size ≤ a.bytes
  nonempty : ∀ a ∈ newer, 0 < a.size
  activeArea : s.activeArea = active.id
  obj : s.obj.area = active.id ∧ s.obj.index ≤ active.size
  objTop : s.objTop = ⟨active.id, active.size⟩
  used : ∀ o ∈ s.freeList ++ s.held, ∃ a ∈ active :: older, a.id = o.area ∧ o.index < a.size ∧
    (a.id = active.id → o.index < s.obj.index)
  nodup : (s.freeList ++ s.held).Nodup
  pending : ∀ t size mgrSize, s.pc t = .enlarging size mgrSize → 0 < size ∧ c.fits size

/-- The invariant, whatever the areas are. -/
def Good (c : Layout) (s : State T) : Prop := ∃ newer active older, Inv c s newer active older

theorem prevEntry_append {a : Area} (l r : List Area)
    (h : ((l ++ a :: active :: r).map Area.id).Nodup) :
    prevEntry active.id (l ++ a :: active :: r) = some a := by
  induction l with
  | nil => simp [prevEntry]
  | cons b l ih =>
    have ih := ih (nodup_cons.1 h).2
    cases l with
    | nil =>
      have hne : a.id ≠ active.id := by
        intro heq
        simp [heq] at h
      simp [prevEntry, hne]
    | cons d l =>
      have hne : d.id ≠ active.id := by
        intro heq
        simp [heq] at h
      simpa [prevEntry, hne] using ih

theorem prevEntry_head (r : List Area) (h : ((active :: r).map Area.id).Nodup) :
    prevEntry active.id (active :: r) = none := by
  have hnone : ∀ (l : List Area) (a : Area), active.id ∉ l.map Area.id →
      prevEntry active.id (a :: l) = none := by
    intro l
    induction l with
    | nil => intros; rfl
    | cons b l ih =>
      intro a hl
      rw [map_cons, mem_cons, not_or] at hl
      rw [prevEntry, if_neg (Ne.symm hl.1)]
      exact ih b hl.2
  exact hnone r active (nodup_cons.1 h).1

variable (h : Inv c s newer active older)

include h

theorem Inv.safe : Safe c s := by
  refine ⟨?_, fun o ho => ?_, (nodup_append.1 h.nodup).2.1⟩
  · rw [h.objTop]
    exact h.obj
  obtain ⟨a, ha, hid, hlt, -⟩ := h.used o (mem_append_right _ ho)
  have hmem : a ∈ s.areaList := by
    rw [h.areas]
    exact mem_append_right _ ha
  refine ⟨a, hmem, hid, Nat.le_trans ?_ (h.room a hmem)⟩
  exact Nat.add_le_add_left (Nat.mul_le_mul_left _ hlt) _

omit h in
theorem create_inv (size : Nat) (hfits : c.mgrSize + c.areaSize + c.objSize * size < 2 ^ 64) :
    Inv c (create c size : State T) [] ⟨0, size, c.maxMemSize size - c.mgrSize⟩ [] := by
  have hbytes : c.areaSize + c.objSize * size ≤ c.maxMemSize size - c.mgrSize := by
    rw [Layout.maxMemSize]
    omega
  refine ⟨rfl, by simp [create, State.setFreeMemArea], ?_, ?_, by simp, rfl, ⟨rfl, by simp [create,
    State.setFreeMemArea]⟩, rfl, by simp [create, State.setFreeMemArea], by simp [create,
    State.setFreeMemArea], ?_⟩
  · intro a ha
    obtain rfl := mem_singleton.1 ha
    exact Nat.zero_lt_one
  · intro a ha
    obtain rfl := mem_singleton.1 ha
    exact hbytes
  · intro t n m h
    cases h

/-- Unless it is used up, the active area has an object at the bump pointer. -/
theorem Inv.index_lt (hne : s.obj ≠ s.objTop) : s.obj.index < active.size := by
  refine Nat.lt_of_le_of_ne h.obj.2 fun heq => hne ?_
  rw [h.objTop, ← h.obj.1, ← heq]

theorem Inv.alloc {asan : Bool}
    (hleft : s.obj ≠ s.objTop ∨ s.freeList ≠ []) (hs : s.alloc asan = some s') :
    Inv c s' newer active older := by
  unfold State.alloc at hs
  split_ifs at hs with huse
  · cases hfree : s.freeList with
    | nil =>
      rw [hfree] at hs
      cases hs
    | cons mobj l =>
      rw [hfree] at hs
      cases hs
      have hperm : (l ++ mobj :: s.held).Perm (s.freeList ++ s.held) := by
        rw [hfree]
        exact perm_middle
      exact { h with
        used := fun o ho => h.used o (hperm.mem_iff.1 ho)
        nodup := hperm.nodup_iff.2 h.nodup }
  · cases hs
    have hne : s.obj ≠ s.objTop := by
      rcases hleft with hne | hne
      · exact hne
      · cases asan
        · exact absurd (by simpa [State.useFreeList] using hne) huse
        · simpa [State.useFreeList] using huse
    have hlt := h.index_lt hne
    have hperm : (s.freeList ++ s.obj :: s.held).Perm (s.obj :: (s.freeList ++ s.held)) :=
      perm_middle
    refine { h with obj := ⟨h.obj.1, hlt⟩, used := ?_, nodup := ?_ }
    · intro o ho
      rcases mem_cons.1 (hperm.mem_iff.1 ho) with rfl | ho
      · exact ⟨active, mem_cons_self, h.obj.1.symm, hlt, fun _ => Nat.lt_succ_self _⟩
      · obtain ⟨a, ha, hid, hidx, hact⟩ := h.used o ho
        exact ⟨a, ha, hid, hidx, fun heq => Nat.lt_succ_of_lt (hact heq)⟩
    · refine hperm.nodup_iff.2 (nodup_cons.2 ⟨fun hmem => ?_, h.nodup⟩)
      -- the object is in the active area, but not below itself
      obtain ⟨_, -, hid, -, hact⟩ := h.used _ hmem
      exact Nat.lt_irrefl _ (hact (hid.trans h.obj.1))

omit h in
theorem Inv.setFreeMemArea {a : Area} {l r : List Area} (h : Inv c s (l ++ a :: r) active older) :
    Inv c (s.setFreeMemArea a) l a (r ++ active :: older) := by
  have hareas : s.areaList = l ++ a :: (r ++ active :: older) := by
    rw [h.areas, append_assoc, cons_append]
  refine { h with
    areas := hareas
    nonempty := fun b hb => h.nonempty b (mem_append_left _ hb)
    activeArea := rfl
    obj := ⟨rfl, Nat.zero_le _⟩
    objTop := rfl
    used := ?_ }
  intro o ho
  obtain ⟨b, hb, hid, hidx, -⟩ := h.used o ho
  have hb := mem_append_right r hb
  refine ⟨b, mem_cons_of_mem _ hb, hid, hidx, fun heq => ?_⟩
  have hnodup := h.ids
  rw [hareas, map_append] at hnodup
  have hnot := (nodup_cons.1 (nodup_append.1 hnodup).2.1).1
  exact absurd (heq ▸ mem_map_of_mem hb) hnot

omit h in
/-- The area that was activated has objects. -/
theorem Inv.setFreeMemArea_left {a : Area} {l r : List Area}
    (h : Inv c s (l ++ a :: r) active older) :
    (s.setFreeMemArea a).obj ≠ (s.setFreeMemArea a).objTop := by
  have hpos := h.nonempty a (mem_append_right _ mem_cons_self)
  intro heq
  injection heq with _ hidx
  omega

omit h in
theorem Inv.prevEntry_eq_none (h : Inv c s [] active older) :
    prevEntry s.activeArea s.areaList = none := by
  rw [h.activeArea, h.areas]
  exact prevEntry_head older (by simpa [h.areas] using h.ids)

omit h in
theorem Inv.prevEntry_eq_some {a : Area} {l : List Area} (h : Inv c s (l ++ [a]) active older) :
    prevEntry s.activeArea s.areaList = some a := by
  have hareas : s.areaList = l ++ a :: active :: older := by
    rw [h.areas, append_assoc, singleton_append]
  rw [h.activeArea, hareas]
  exact prevEntry_append l older (hareas ▸ h.ids)

theorem Inv.addArea {size : Nat} (hsize : 0 < size) (hfits : c.fits size) :
    Inv c (s.addArea c size) (⟨s.nextArea, size, c.areaBytes size⟩ :: newer) active older := by
  have hbytes : c.areaSize + c.objSize * size ≤ c.areaBytes size :=
    Nat.le_of_eq (Nat.mod_eq_of_lt hfits).symm
  refine { h with
    areas := by rw [State.addArea, h.areas]; rfl
    ids := ?_
    fresh := ?_
    room := ?_
    nonempty := ?_ }
  · refine nodup_cons.2 ⟨fun hmem => ?_, h.ids⟩
    obtain ⟨a, ha, hid⟩ := mem_map.1 hmem
    exact Nat.lt_irrefl _ (hid ▸ h.fresh a ha)
  · intro a ha
    rcases mem_cons.1 ha with rfl | ha
    · exact Nat.lt_succ_self _
    · exact Nat.lt_succ_of_lt (h.fresh a ha)
  · intro a ha
    rcases mem_cons.1 ha with rfl | ha
    · exact hbytes
    · exact h.room a ha
  · intro a ha
    rcases mem_cons.1 ha with rfl | ha
    · exact hsize
    · exact h.nonempty a ha

theorem Inv.goto [DecidableEq T] {t : T} {pc : Pc}
    (hpc : ∀ size mgrSize, pc = .enlarging size mgrSize → 0 < size ∧ c.fits size) :
    Inv c (s.goto t pc) newer active older := by
  refine { h with pending := fun u size mgrSize hu => ?_ }
  by_cases hut : u = t
  · subst hut
    exact hpc size mgrSize ((Function.update_self _ _ _).symm.trans hu)
  · exact h.pending u size mgrSize ((Function.update_of_ne hut _ _).symm.trans hu)

theorem Inv.freeMemObj {migrated : Mobj → Bool} {mobj : Mobj}
    (hmem : mobj ∈ s.held) : Inv c (s.freeMemObj migrated mobj) newer active older := by
  unfold State.freeMemObj
  split_ifs
  · have hsub : (s.freeList ++ s.held.erase mobj).Sublist (s.freeList ++ s.held) :=
      List.Sublist.append_left erase_sublist _
    exact { h with
      used := fun o ho => h.used o (hsub.subset ho)
      nodup := hsub.nodup h.nodup }
  · have hperm : ((s.freeList ++ [mobj]) ++ s.held.erase mobj).Perm (s.freeList ++ s.held) := by
      rw [append_assoc]
      exact (perm_cons_erase hmem).symm.append_left _
    exact { h with
      used := fun o ho => h.used o (hperm.mem_iff.1 ho)
      nodup := hperm.nodup_iff.2 h.nodup }

/-- `get_mem_obj_from_mgr_enlarge` with the lock held for the first time. -/
theorem Inv.getMemObj [DecidableEq T] {asan : Bool} {t : T} {size : Nat} (hfits : c.fits size)
    (hs : s.getMemObj asan t size = some s') :
    Good c s' := by
  unfold State.getMemObj at hs
  by_cases hnone : s.obj = s.objTop ∧ s.freeList = []
  · rw [if_pos hnone] at hs
    rcases eq_nil_or_concat newer with rfl | ⟨newer, a, rfl⟩
    · simp only [h.prevEntry_eq_none] at hs
      split_ifs at hs with hsize
      · cases hs
        exact ⟨_, _, _, h⟩
      cases hs
      refine ⟨_, _, _, h.goto fun n m heq => ?_⟩
      injection heq with hn
      exact hn ▸ ⟨Nat.pos_of_ne_zero hsize, hfits⟩
    · rw [concat_eq_append] at h
      simp only [h.prevEntry_eq_some] at hs
      exact ⟨_, _, _, h.setFreeMemArea.alloc (.inl h.setFreeMemArea_left) hs⟩
  · rw [if_neg hnone] at hs
    refine ⟨_, _, _, h.alloc ?_ hs⟩
    by_contra hleft
    rw [not_or, not_not, not_not] at hleft
    exact hnone hleft

/-- `get_mem_obj_from_mgr_enlarge` with the lock held again. -/
theorem Inv.enlarge {asan : Bool} {size mgrSize : Nat} (hsize : 0 < size) (hfits : c.fits size)
    (hleft : mgrSize = s.size ∨ s.obj ≠ s.objTop ∨ s.freeList ≠ [])
    (hs : s.enlarge c asan size mgrSize = some s') :
    Good c s' := by
  unfold State.enlarge at hs
  have hadd := h.addArea hsize hfits
  split_ifs at hs with heq
  · -- the areas that were put in front meanwhile are passed over
    have hset : Inv c _ [] _ (newer ++ active :: older) := Inv.setFreeMemArea hadd
    refine ⟨_, _, _, hset.alloc (.inl fun heq => ?_) hs⟩
    injection heq with _ hidx
    exact absurd hidx (Nat.ne_of_lt hsize)
  · exact ⟨_, _, _, hadd.alloc (hleft.resolve_left heq) hs⟩

end Inv

/-! ## Every run -/

section Run
variable {T : Type} [DecidableEq T] {c : Layout} {asan : Bool} {migrated : Mobj → Bool}
  {s s' : State T} {t : T} {a : Action}

/-- The steps of all threads. -/
def Step (c : Layout) (asan : Bool) (migrated : Mobj → Bool) (s : State T) (label : T × Action)
    (s' : State T) : Prop :=
  step c asan migrated s label.1 label.2 = some s'

/-- **Every sound step keeps the invariant.** -/
theorem step_inv (h : Good c s) (hsound : Sound c s (t, a))
    (hs : step c asan migrated s t a = some s') :
    Good c s' := by
  obtain ⟨newer, active, older, h⟩ := h
  unfold step at hs
  unfold Sound at hsound
  cases a with
  | get size =>
    cases hpc : s.pc t <;> simp only [hpc, reduceCtorEq] at hs
    exact h.getMemObj hsound hs
  | malloc =>
    cases hpc : s.pc t with
    | idle => simp only [hpc, reduceCtorEq] at hs
    | enlarging size mgrSize =>
      simp only [hpc] at hs hsound
      obtain ⟨s1, hs1, rfl⟩ := Option.map_eq_some_iff.1 hs
      obtain ⟨hsize, hfits⟩ := h.pending t size mgrSize hpc
      obtain ⟨_, _, _, h1⟩ := h.enlarge hsize hfits hsound hs1
      refine ⟨_, _, _, h1.goto fun _ _ heq => ?_⟩
      cases heq
  | mallocFails =>
    cases hpc : s.pc t <;> simp only [hpc, reduceCtorEq, Option.some.injEq] at hs
    subst hs
    refine ⟨_, _, _, h.goto fun _ _ heq => ?_⟩
    cases heq
  | free mobj =>
    cases hpc : s.pc t <;> simp only [hpc, reduceCtorEq] at hs
    split_ifs at hs with hmem
    cases hs
    exact ⟨_, _, _, h.freeMemObj hmem⟩
  | enlargeMgr size =>
    cases hpc : s.pc t <;> simp only [hpc, reduceCtorEq] at hs
    split_ifs at hs with hsize
    cases hs
    exact ⟨_, _, _, h.addArea (Nat.pos_of_ne_zero hsize) hsound⟩

/-- A thread that comes back when the manager was enlarged and used up gets an object past
the end of the area. -/
theorem malloc_past_end (hs : step c asan migrated s t .malloc = some s')
    (hsound : ¬ Sound c s (t, .malloc)) : ¬ Safe c s' := by
  unfold step at hs
  unfold Sound at hsound
  cases hpc : s.pc t with
  | idle => simp only [hpc, reduceCtorEq] at hs
  | enlarging size mgrSize =>
    simp only [hpc, not_or, not_not] at hs hsound
    obtain ⟨hsize, hobj, hfree⟩ := hsound
    obtain ⟨s1, hs1, rfl⟩ := Option.map_eq_some_iff.1 hs
    rw [State.enlarge, if_neg hsize] at hs1
    intro hsafe
    cases asan
    · have huse : (s.addArea c size).useFreeList false = false := by
        simp [State.useFreeList, State.addArea, hfree]
      rw [State.alloc, huse] at hs1
      cases hs1
      have hle : s.obj.index + 1 ≤ s.objTop.index := hsafe.obj_le.2
      rw [hobj] at hle
      exact Nat.not_succ_le_self _ hle
    · have huse : (s.addArea c size).useFreeList true = true := by
        simp [State.useFreeList, State.addArea, hobj]
      rw [State.alloc, huse, if_pos rfl] at hs1
      simp only [State.addArea, hfree, reduceCtorEq] at hs1

/-- **The object manager**: for any number of threads and every order of their steps in which
a thread that comes back with an area finds the manager not enlarged or not used up, the bump
pointer stays within its area, and the objects handed out lie within the areas, each handed
out once. Any other such return breaks this. -/
theorem mem_mgr_safe (hr : Reachable (Initial c) (Guarded (Sound c) (Step c asan migrated)) s) :
    Safe c s ∧ ∀ t s', Step c asan migrated s (t, .malloc) s' → ¬ Sound c s (t, .malloc) →
      ¬ Safe c s' := by
  have hgood : Good c s := by
    refine hr.invariant ?_ ?_
    · rintro s ⟨size, hfits, rfl⟩
      exact ⟨_, _, _, create_inv size hfits⟩
    · rintro s ⟨t, a⟩ s' h ⟨hsound, hs⟩
      exact step_inv h hsound hs
  obtain ⟨_, _, _, h⟩ := hgood
  exact ⟨h.safe, fun t s' => malloc_past_end⟩

/-- Two threads enlarge the manager, and the first to come back leaves an object. -/
theorem mem_mgr_safe_left :
    ∃ s : State (Fin 2), s.areaList.length = 3 ∧ s.held.length = 3 ∧ Safe ⟨16, 24, 48⟩ s := by
  have h0 : Reachable (Initial ⟨16, 24, 48⟩) (Guarded (Sound ⟨16, 24, 48⟩)
      (Step ⟨16, 24, 48⟩ false fun _ => false)) (create ⟨16, 24, 48⟩ 1 : State (Fin 2)) :=
    .init ⟨1, by decide, rfl⟩
  have hfits : (⟨16, 24, 48⟩ : Layout).fits 2 := show 24 + 16 * 2 < 2 ^ 64 by decide
  have h1 := h0.step (0, Action.get 2) ⟨hfits, rfl⟩
  have h2 := h1.step (0, Action.get 2) ⟨hfits, rfl⟩
  have h3 := h2.step (1, Action.get 2) ⟨hfits, rfl⟩
  have h4 := h3.step (1, Action.malloc) ⟨.inl rfl, rfl⟩
  have h5 := h4.step (0, Action.malloc) ⟨.inr (.inl (by decide)), rfl⟩
  exact ⟨_, rfl, rfl, (mem_mgr_safe h5).1⟩

/-- Two threads enlarge the manager, and the second to come back finds the area of the first
used up: it gets an object that lies in no area. -/
theorem mem_mgr_overrun : ∃ s : State (Fin 2), Reachable (Initial ⟨16, 24, 48⟩)
        (Step ⟨16, 24, 48⟩ false fun _ => false) s ∧
      s.obj.index = s.objTop.index + 1 ∧ s.held.head? = some ⟨1, 1⟩ ∧
      s.areaList = [⟨2, 1, 40⟩, ⟨1, 1, 40⟩, ⟨0, 1, 40⟩] ∧ ¬ Safe ⟨16, 24, 48⟩ s := by
  refine ⟨_, .of_foldlM (fun s label => step ⟨16, 24, 48⟩ false (fun _ => false) s label.1 label.2)
    (fun _ _ _ hs => hs) (.init ⟨1, by decide, rfl⟩)
    [(0, .get 1), (0, .get 1), (1, .get 1), (1, .malloc), (0, .malloc)] rfl, rfl, rfl, rfl, ?_⟩
  intro hsafe
  exact absurd hsafe.obj_le.2 (by decide)

end Run

end MemMgr
