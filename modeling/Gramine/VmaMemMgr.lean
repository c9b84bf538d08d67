import Gramine.MemMgr
import Gramine.VmaTree

/-!
# The object manager of the vmas

The vma bookkeeping has its own, smaller model of the object manager: the objects that it
can still get, which are the freed ones, the rest of the active area and the areas added
after it. `State.view` is that part of a state of `memmgr.h`. Where the manager's invariant
holds, which its runs keep, taking an object, giving one back and adding an area change the
view as the functions of the bookkeeping change theirs. Each of the three is one section
under the manager's lock; the build is one that is not sanitized.
-/

open List

namespace MemMgr

variable {T : Type} {c : Layout} {s : State T} {newer older : List Area} {active : Area}

/-- The objects of an area from an index on. -/
def Area.mobjsFrom (a : Area) (index : Nat) : List Mobj :=
  (range' index (a.size - index)).map fun i => ⟨a.id, i⟩

/-- What the bookkeeping of vmas sees of the manager. -/
def State.view (s : State T) : Vma.MemMgr Mobj where
  freeList := s.freeList
  objs := (range' s.obj.index (s.objTop.index - s.obj.index)).map fun i => ⟨s.obj.area, i⟩
  areas := (s.areaList.takeWhile fun a => a.id ≠ s.activeArea).reverse.map fun a => a.mobjsFrom 0

theorem Area.mobjsFrom_of_lt {a : Area} {index : Nat} (h : index < a.size) :
    a.mobjsFrom index = ⟨a.id, index⟩ :: a.mobjsFrom (index + 1) := by
  obtain ⟨n, hn⟩ := Nat.exists_eq_add_of_lt h
  rw [mobjsFrom, mobjsFrom, show a.size - index = n + 1 by omega, range'_succ, map_cons,
    show a.size - (index + 1) = n by omega]

/-- The view, when the invariant tells which area is active. -/
theorem Inv.view (h : Inv c s newer active older) : s.view =
    ⟨s.freeList, active.mobjsFrom s.obj.index, newer.reverse.map fun a => a.mobjsFrom 0⟩ := by
  have hids := h.ids
  rw [h.areas, map_append, map_cons, nodup_middle, nodup_cons, mem_append, not_or] at hids
  have hnewer : s.areaList.takeWhile (fun a => a.id ≠ s.activeArea) = newer := by
    rw [h.areas, h.activeArea, takeWhile_append_of_pos, takeWhile_cons_of_neg (by simp), append_nil]
    intro a ha
    refine decide_eq_true fun heq => hids.1.1 ?_
    rw [← heq]
    exact mem_map_of_mem ha
  rw [State.view, hnewer, h.objTop, h.obj.1]
  rfl

/-- An object is taken from the free list, or else from the active area. -/
theorem Inv.alloc_view (h : Inv c s newer active older)
    (hleft : s.obj ≠ s.objTop ∨ s.freeList ≠ []) : ∃ s' o, s.alloc false = some s' ∧
      s'.held = o :: s.held ∧
      ∀ v : Vma.State Mobj, v.mgr.activate = some s.view →
        Vma.getMemObjFromMgr v = .ok (some o) { v with mgr := s'.view } := by
  cases hfree : s.freeList with
  | cons mobj l =>
    refine ⟨{ s with freeList := l, held := mobj :: s.held }, mobj, ?_, rfl, fun v hv => ?_⟩
    · simp [State.alloc, State.useFreeList, hfree]
    · rw [Vma.getMemObjFromMgr, Vma.get_bind, hv, State.view, hfree]
      rfl
  | nil =>
    have hne : s.obj ≠ s.objTop := hleft.resolve_right (not_not.2 hfree)
    have hlt := h.index_lt hne
    have halloc : s.alloc false = some { s with
        obj := ⟨s.obj.area, s.obj.index + 1⟩, held := s.obj :: s.held } := by
      simp [State.alloc, State.useFreeList, hfree]
    refine ⟨_, s.obj, halloc, rfl, fun v hv => ?_⟩
    have hview := (h.alloc hleft halloc).view
    rw [Vma.getMemObjFromMgr, Vma.get_bind, hv, hview, h.view, hfree, Area.mobjsFrom_of_lt hlt,
      ← h.obj.1]
    rfl

/-- **`get_mem_obj_from_mgr`**: the bookkeeping gets the object that the manager hands out, or
nothing when the manager has none. -/
theorem Good.getMemObj_view [DecidableEq T] (h : Good c s) (t : T) {v : Vma.State Mobj}
    (hv : v.mgr = s.view) : ∃ s', s.getMemObj false t 0 = some s' ∧
      ((s' = s ∧ Vma.getMemObjFromMgr v = .ok none v) ∨
        ∃ o, s'.held = o :: s.held ∧
          Vma.getMemObjFromMgr v = .ok (some o) { v with mgr := s'.view }) := by
  obtain ⟨newer, active, older, h⟩ := h
  by_cases hnone : s.obj = s.objTop ∧ s.freeList = []
  · have hobjs : active.mobjsFrom s.obj.index = [] := by
      rw [hnone.1, h.objTop, Area.mobjsFrom, Nat.sub_self]
      rfl
    have hmgr := hv.trans h.view
    rw [hobjs, hnone.2] at hmgr
    rcases eq_nil_or_concat newer with rfl | ⟨newer, a, rfl⟩
    · refine ⟨s, ?_, .inl ⟨rfl, ?_⟩⟩
      · rw [State.getMemObj, if_pos hnone, h.prevEntry_eq_none]
        rfl
      · rw [Vma.getMemObjFromMgr, Vma.get_bind, hmgr]
        rfl
    · -- the next area is activated
      rw [concat_eq_append] at h hmgr
      have hnext := h.setFreeMemArea
      obtain ⟨s', o, halloc, hheld, hget⟩ := hnext.alloc_view (.inl h.setFreeMemArea_left)
      refine ⟨s', ?_, .inr ⟨o, hheld, hget v ?_⟩⟩
      · rw [State.getMemObj, if_pos hnone, h.prevEntry_eq_some]
        exact halloc
      · have hfree : (s.setFreeMemArea a).freeList = [] := hnone.2
        rw [hmgr, hnext.view, hfree, reverse_append]
        rfl
  · have hleft : s.obj ≠ s.objTop ∨ s.freeList ≠ [] := not_and_or.1 hnone
    obtain ⟨s', o, halloc, hheld, hget⟩ := h.alloc_view hleft
    refine ⟨s', by rw [State.getMemObj, if_neg hnone, halloc], .inr ⟨o, hheld, hget v ?_⟩⟩
    rw [hv, Vma.MemMgr.activate, if_neg]
    rw [h.view]
    rintro ⟨hobjs, hfree⟩
    have hlt := h.index_lt (hleft.resolve_right (not_not.2 hfree))
    rw [Area.mobjsFrom_of_lt hlt] at hobjs
    exact cons_ne_nil _ _ hobjs

/-- `free_mem_obj_to_mgr`. -/
theorem freeMemObj_view {env : Vma.Env Mobj} (mobj : Mobj) {v : Vma.State Mobj}
    (hv : v.mgr = s.view) : Vma.freeMemObjToMgr env mobj v =
      .ok () { v with mgr := (s.freeMemObj env.memoryMigrated mobj).view } := by
  obtain ⟨_, _, _, _, _, _, mgr, _, _⟩ := v
  subst hv
  rw [Vma.freeMemObjToMgr, State.freeMemObj]
  split_ifs <;> rfl

/-- `enlarge_mem_mgr`, as `alloc_vma` calls it. -/
theorem Good.addArea_view (h : Good c s) {size : Nat} (hsize : 0 < size) (hfits : c.fits size) :
    (s.addArea c size).view = { s.view with
      areas := s.view.areas ++ [(⟨s.nextArea, size, c.areaBytes size⟩ : Area).mobjsFrom 0] } := by
  obtain ⟨newer, active, older, h⟩ := h
  rw [(h.addArea hsize hfits).view, h.view, reverse_cons, map_append]
  rfl

end MemMgr
