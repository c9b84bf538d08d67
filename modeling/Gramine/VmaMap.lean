import Gramine.VmaAlloc

/-!
# Mapping and unmapping

`bkeep_munmap`, `bkeep_mmap_fixed`, `bkeep_mmap_any_in_range` and the functions on
temporary vmas: each starts and ends with the tree in order and all objects accounted
for, whether it succeeds or fails.
-/

open IntervalList Function List

namespace Vma

variable {Addr : Type} {s s' : State Addr} {l l1 l2 xs ys : List Addr}
  {a : Addr} {env : Env Addr} {pal : PalPublicState} {begin stop : Nat}

/-! ## The vmas of a function -/

namespace Good

theorem perm {xs' : List Addr} (h : Good ys s l xs) (hp : xs.Perm xs') : Good ys s l xs' :=
  ⟨h.inv.perm hp, h.pool.perm ((hp.append_left l).append_left ys)⟩

theorem setOutside {vma' : Addr → LibosVma} {num : Nat → Nat} {v : LibosVma}
    (h : Good ys s l (a :: xs)) (hv : vma' a = v) (hother : ∀ x, x ≠ a → vma' x = s.vma x)
    (hnum : ∀ i, num i + (if (s.vma a).inode = some i then 1 else 0) =
      s.numMmapped i + if v.inode = some i then 1 else 0) :
    Good ys { s with vma := vma', numMmapped := num } l (a :: xs) :=
  ⟨h.inv.setOutside hv hother hnum, h.pool.same ⟨rfl, rfl, rfl⟩⟩

theorem notMem (h : Good ys s l (a :: xs)) : a ∉ l ++ xs := fun ha => h.inv.ne_of_mem ha rfl

end Good

/-! ## Room for a vma -/

/-- No vma in the tree overlaps the range. -/
def Room (s : State Addr) (l : List Addr) (begin stop : Nat) : Prop :=
  ∀ x ∈ l, (s.vma x).stop ≤ begin ∨ stop ≤ (s.vma x).begin

theorem Inv.room_split (h : Inv s l xs) (hroom : Room s l begin stop) :
    ∃ l1 l2, l = l1 ++ l2 ∧ (∀ x ∈ l1, (s.vma x).stop ≤ begin) ∧
      ∀ x ∈ l2, stop ≤ (s.vma x).begin := by
  obtain ⟨l1, l2, rfl, h1, h2, -⟩ := (Ordered.map_iff.1 h.ordered).exists_split begin
  refine ⟨l1, l2, rfl, h1, fun x hx => ?_⟩
  rcases hroom x (mem_append_right _ hx) with hbefore | hbehind
  · exact absurd (h2 x hx) (not_lt.2 hbefore)
  · exact hbehind

variable [DecidableEq Addr]

/-- **A vma is put where there is room.** -/
theorem Good.insert {v : LibosVma} (h : Good ys s l (a :: xs)) (hv : s.vma a = v)
    (hlt : v.begin < v.stop) (hbound : v.stop < 2 ^ 64) (hroom : Room s l v.begin v.stop) :
    ∃ t s' l', treeCall (.insert a) s = .ok ⟨⟩ { s with vmaTree := t } ∧
      totalMemorySizeAdd (v.stop - v.begin) { s with vmaTree := t } = .ok ⟨⟩ s' ∧
      Good ys s' l' xs ∧ s'.vma = s.vma ∧ ∀ x, x ∈ l' ↔ x = a ∨ x ∈ l := by
  obtain ⟨l1, l2, rfl, h1, h2⟩ := h.inv.room_split hroom
  obtain ⟨t, s', hrun, hadd, hinv, hsame, hvma⟩ := h.inv.insert hv hlt hbound h1 h2
  refine ⟨t, s', _, hrun, hadd, ⟨hinv, ?_⟩, hvma, fun x => perm_middle.mem_iff.trans ?_⟩
  · refine (h.pool.same hsame).perm (List.Perm.append_left ys ?_)
    simp only [append_assoc]
    exact perm_middle.append_left l1 |>.trans (by simp)
  · exact mem_cons

omit [DecidableEq Addr] in
/-- The check for a vma in a range, as `MAP_FIXED_NOREPLACE` makes it. -/
theorem lookupVma_room (h : Inv s l xs) (begin stop : Nat) : ∃ r, lookupVma begin s = .ok r s ∧
      ((¬ ∃ a ∈ r, (s.vma a).begin < stop) → Room s l begin stop) := by
  obtain ⟨l1, l2, rfl, h1, h2, hlookup⟩ := h.tree.lookupVma h.ordered begin
  refine ⟨_, hlookup, fun hnone x hx => ?_⟩
  rcases mem_append.1 hx with hx | hx
  · exact .inl (h1 x hx)
  cases l2 with
  | nil => cases hx
  | cons b l2 =>
    have hb : stop ≤ (s.vma b).begin := by
      refine not_lt.1 fun hlt => hnone ⟨b, rfl, hlt⟩
    have hord := h.ordered
    rw [map_append, map_cons, Ordered.append_iff, Ordered.cons_iff] at hord
    obtain ⟨-, ⟨hlt, hafter, -⟩, -⟩ := hord
    rcases mem_cons.1 hx with rfl | hx
    · exact .inr hb
    · have := hafter _ (mem_map_of_mem hx)
      exact .inr (by omega)

/-- The vmas of the application are cut off at a range. -/
def CutOff (begin stop : Nat) (s s' : State Addr) : Prop :=
  ∀ v, s'.UserVma v ↔ ∃ u, s.UserVma u ∧ v ∈ u.cut begin stop

theorem isInternal_of_mem_cut {v w : LibosVma} (hw : w ∈ v.cut begin stop) :
    w.isInternal = v.isInternal := by
  unfold LibosVma.cut at hw
  split_ifs at hw with h1 h2 h3 <;> simp only [nil_append, mem_append,
    mem_cons, not_mem_nil, or_false] at hw
  · rw [hw]
  · rcases hw with rfl | rfl
    · rfl
    · rfl
  · rw [hw]
    rfl
  · rw [hw]
    rfl

omit [DecidableEq Addr] in
theorem CutOff.of_map {l' xs' : List Addr} (h : Inv s l xs) (h' : Inv s' l' xs')
    (hmap : l'.map s'.vma = (l.map s.vma).flatMap (LibosVma.cut begin stop)) :
    CutOff begin stop s s' := by
  intro v
  rw [h'.userVma_iff, hmap, mem_flatMap]
  constructor
  · rintro ⟨⟨u, hu, hcut⟩, hv⟩
    exact ⟨u, h.userVma_iff.2 ⟨hu, (isInternal_of_mem_cut hcut).symm.trans hv⟩, hcut⟩
  · rintro ⟨u, hu, hcut⟩
    obtain ⟨hmem, hint⟩ := h.userVma_iff.1 hu
    exact ⟨⟨u, hmem, hcut⟩, (isInternal_of_mem_cut hcut).trans hint⟩

omit [DecidableEq Addr] in
theorem CutOff.of_room (h : Inv s l xs) (hroom : Room s l begin stop) : CutOff begin stop s s := by
  refine .of_map h h (flatMap_cut_of_apart fun v hv => ?_).symm
  obtain ⟨x, hx, rfl⟩ := mem_map.1 hv
  exact hroom x hx

/-- What is left to do after a range was cleared. -/
structure RoomResult (ys : List Addr) (s : State Addr) (xs : List Addr) (begin stop : Nat)
    (r : Removed Addr) (s' : State Addr) (l' : List Addr) : Prop where
  good : Good ys s' l' (r.vmasToFree ++ (r.newVma.toList ++ xs))
  room : r.ret = .ok () → Room s' l' begin stop
  same : ∀ x ∈ xs, s'.vma x = s.vma x
  cleared : r.ret = .ok () → CutOff begin stop s s'
  kept : ∀ e, r.ret = .error e → SameUser s s'

omit [DecidableEq Addr] in
theorem RemoveResult.room {isInternal : Bool} {newVma : Option Addr} {r : Removed Addr}
    (h : Good ys s l (newVma.toList ++ xs))
    (hr : RemoveResult s l xs begin stop isInternal newVma r s') :
    ∃ l', RoomResult ys s xs begin stop r s' l' := by
  have hxs : ∀ x ∈ xs, x ∉ l ∧ x ∉ newVma := by
    intro x hx
    have hnd := nodup_append'.1 h.inv.nodup
    refine ⟨fun hl => hnd.2.2 hl (mem_append_right _ hx), fun hn => ?_⟩
    exact (nodup_append'.1 hnd.2.1).2.2 (Option.mem_toList.2 hn) hx
  cases hr with
  | acces _ => exact ⟨l, h, nofun, fun x _ => rfl, nofun, fun _ _ => .refl s⟩
  | nomem hnew _ _ =>
    subst hnew
    exact ⟨l, h, nofun, fun x _ => rfl, nofun, fun _ _ => .refl s⟩
  | @removed _ l' freed rest _ _ _ hinv hpool hperm hsame hvmas =>
    refine ⟨l', ⟨hinv, ?_⟩, fun _ x hx => ?_, fun x hx => hsame x (hxs x hx).1 (hxs x hx).2,
      fun _ => .of_map h.inv hinv hvmas, nofun⟩
    · refine (h.pool.same hpool).perm (List.Perm.append_left ys ?_)
      have := (hperm.append_right xs).symm
      simpa only [append_assoc] using this
    · have hmem : s'.vma x ∈ (l.map s.vma).flatMap (LibosVma.cut begin stop) :=
        hvmas ▸ mem_map_of_mem hx
      obtain ⟨_, -, hv⟩ := mem_flatMap.1 hmem
      exact apart_of_mem_cut hv

/-- **`_vma_bkeep_remove`**, when all objects are accounted for. -/
theorem vmaBkeepRemove_room (isInternal : Bool) {newVma : Option Addr}
    (h : Good ys s l (newVma.toList ++ xs)) (hnew : ∀ b ∈ newVma, s.vma b = .zero)
    (hle : begin ≤ stop) (halign : pal.isAllocAligned begin ∧ pal.isAllocAligned stop) :
    ∃ r s' l', vmaBkeepRemove pal begin stop isInternal newVma s = .ok r s' ∧
      RoomResult ys s xs begin stop r s' l' := by
  obtain ⟨r, s', hrun, hres⟩ := vmaBkeepRemove_spec isInternal h.inv
    (fun b hb => by rw [hnew b hb]; rfl) hle halign
  obtain ⟨l', hroom⟩ := hres.room h
  exact ⟨r, s', l', hrun, hroom⟩

theorem isAllocAligned_add {m n : Nat} (hm : pal.isAllocAligned m) (hn : pal.isAllocAligned n) :
    pal.isAllocAligned (m + n) := by
  unfold PalPublicState.isAllocAligned at *
  rw [decide_eq_true_eq] at *
  rw [Nat.add_mod, hm, hn, Nat.zero_mod]

/-! ## Unmapping -/

/-- The state between two calls of the functions below: the tree is in order, and no
object is with a function. -/
def Settled (env : Env Addr) (s : State Addr) : Prop := ∃ l, Good [env.tmpVma] s l []

omit [DecidableEq Addr] in
theorem freeRest_spec {ws : List Addr} {w : Option Addr}
    (h : Good [env.tmpVma] s l (ws ++ w.toList)) :
    ∃ s' s'', freeVmasFreelist env ws s = .ok ⟨⟩ s' ∧ freeOptVma env w s' = .ok ⟨⟩ s'' ∧
      Settled env s'' ∧ SameUser s s'' := by
  obtain ⟨s', hrun, h', hvma⟩ := freeVmasFreelist_spec env h
  obtain ⟨s'', hrun', h'', hvma'⟩ :=
    freeOptVma_spec env (h'.perm (.of_eq (append_nil _).symm))
  refine ⟨s', s'', hrun, hrun', ⟨l, h''⟩, .of_same h.inv h''.inv fun x _ => ?_⟩
  rw [hvma', hvma]

theorem addUnmappedVma_spec (h : Good ys s l (a :: xs)) (hzero : s.vma a = .zero)
    (hlt : begin < stop) (hbound : stop < 2 ^ 64) (hroom : Room s l begin stop) :
    ∃ s' l', addUnmappedVma begin stop a s = .ok ⟨⟩ s' ∧ Good ys s' l' xs := by
  have hset := h.setOutside (update_self a
    (⟨begin, stop, 0, vmaInternal ||| vmaUnmapped, none, 0, copyComment []⟩ : LibosVma) s.vma)
    (fun x hx => update_of_ne hx _ _)
    (show ∀ i, s.numMmapped i + _ = _ from fun i => by rw [hzero]; rfl)
  obtain ⟨t, s', l', hins, hadd, hgood, -⟩ := hset.insert (update_self ..) hlt hbound fun x hx => by
      simp only [update_of_ne (h.inv.ne_of_mem (mem_append_left _ hx))]
      exact hroom x hx
  refine ⟨s', l', ?_, hgood⟩
  exact (bind_of_ok hins).trans hadd

variable {length : Nat}

/-- **`bkeep_munmap`**. -/
theorem bkeepMunmap_spec {addr : Nat} (isInternal : Bool) (h : Settled env s)
    (hbound : addr + length < 2 ^ 64) :
    Runs [.alignment] (bkeepMunmap pal env addr length isInternal s)
      fun _ s' => Settled env s' := by
  unfold bkeepMunmap
  split_ifs with hargs
  · exact h
  simp only [not_or, Bool.not_eq_false] at hargs
  obtain ⟨_, hlength, haddr⟩ := hargs
  obtain ⟨l, hl⟩ := h
  refine (allocVmaTop_spec hl).bind fun vma1 s1 h1 => ?_
  cases vma1 with
  | none => exact h1.good
  | some a =>
    obtain ⟨_, hg1⟩ := h1.good
    refine (allocVmaTop_spec hg1).bind fun vma2 s2 h2 => ?_
    obtain ⟨_, hg2⟩ := h2.good
    obtain ⟨r, s3, l3, hremove, hres⟩ := vmaBkeepRemove_room isInternal hg2 h2.zero
      (Nat.le_add_right addr length) ⟨haddr, isAllocAligned_add haddr hlength⟩
    have hzero : s3.vma a = .zero := by
      rw [hres.same a (by simp), h2.same a (by simp), h1.zero a rfl]
    have hg3 : Good [env.tmpVma] s3 l3 (a :: (r.vmasToFree ++ r.newVma.toList)) := by
      refine hres.good.perm ?_
      simp only [← append_assoc, append_nil]
      exact perm_append_singleton _ _
    simp only [Nat.mod_eq_of_lt hbound]
    rw [bind_of_ok hremove]
    cases hret : r.ret with
    | error e =>
      obtain ⟨s4, hfree, hg4, -⟩ := freeVmasFreelist_spec env (hg3.perm perm_middle.symm)
      obtain ⟨s5, hfree', hg5, -⟩ := freeVma_spec env hg4
      obtain ⟨s6, hopt, hg6, -⟩ := freeOptVma_spec env (hg5.perm (.of_eq (append_nil _).symm))
      exact Runs.of_ok ((bind_of_ok hfree).trans ((bind_of_ok hfree').trans (bind_of_ok hopt)))
        ⟨l3, hg6⟩
    | ok u =>
      obtain ⟨_, _, hadd, hg4⟩ := addUnmappedVma_spec hg3 hzero (by omega) hbound (hres.room hret)
      obtain ⟨s5, s6, hfree, hopt, hs6, -⟩ := freeRest_spec hg4
      exact Runs.of_ok ((bind_of_ok hadd).trans ((bind_of_ok hfree).trans (bind_of_ok hopt))) hs6

/-! ## Temporary vmas -/

omit [DecidableEq Addr] in
theorem Inv.exists_split (h : Inv s l xs) (ha : a ∈ s.vmaTree.nodes) : ∃ l1 l2, l = l1 ++ a :: l2 :=
  append_of_mem (h.tree.nodes.mem_iff.2 ha)

section
variable (h : Settled env s) (ha : a ∈ s.vmaTree.nodes)
  (hflags : (s.vma a).flags = vmaInternal ||| vmaUnmapped)
include h ha hflags

/-- **`bkeep_remove_tmp_vma`**. -/
theorem bkeepRemoveTmpVma_spec :
    Runs [] (bkeepRemoveTmpVma env a s) fun _ s' => Settled env s' := by
  obtain ⟨l, hl⟩ := h
  obtain ⟨l1, l2, rfl⟩ := hl.inv.exists_split ha
  obtain ⟨t, hdelete, hinv⟩ := hl.inv.delete
  have hgood : Good [env.tmpVma] { s with
      vmaTree := t
      totalMemorySize := s.totalMemorySize - ((s.vma a).stop - (s.vma a).begin) }
      (l1 ++ l2) [a] := by
    refine ⟨hinv, (hl.pool.perm (List.Perm.append_left _ ?_)).same ⟨rfl, rfl, rfl⟩⟩
    simp only [append_assoc, append_nil]
    exact (perm_append_singleton a l2).symm.append_left l1
  obtain ⟨s', hfree, hs', -⟩ := freeVma_spec env hgood
  have hrun : bkeepRemoveTmpVma env a s = .ok ⟨⟩ s' := by
    have hle := hl.inv.le_total
    rw [bkeepRemoveTmpVma, getVma_bind, assertion_bind hflags, bind_of_ok hdelete,
      totalMemorySizeSub_bind (by exact hle)]
    exact hfree
  exact Runs.of_ok hrun ⟨_, hs'⟩

/-- **`bkeep_convert_tmp_vma_to_user`**. -/
theorem bkeepConvertTmpVmaToUser_spec :
    Runs [] (bkeepConvertTmpVmaToUser a s) fun _ s' => Settled env s' := by
  obtain ⟨l, hl⟩ := h
  obtain ⟨l1, l2, rfl⟩ := hl.inv.exists_split ha
  have hinv := hl.inv.modify (n := s.totalMemorySize) (update_self a
    { s.vma a with flags := (s.vma a).flags &&& ~~~ vmaInternal } s.vma)
    (fun x hx => update_of_ne hx _ _) le_rfl hl.inv.range le_rfl rfl rfl
  rw [bkeepConvertTmpVmaToUser, getVma_bind, assertion_bind hflags]
  exact ⟨_, hinv, hl.pool.same ⟨rfl, rfl, rfl⟩⟩

end

/-! ## Mapping -/

/-- `makeRoom` clears the range, or leaves it as it is. -/
theorem makeRoom_spec (pal : PalPublicState) (flags : Flags) {vma1 : Option Addr}
    (h : Good ys s l (vma1.toList ++ xs))
    (hnew : ∀ b ∈ vma1, s.vma b = .zero) (hle : begin ≤ stop)
    (halign : pal.isAllocAligned begin ∧ pal.isAllocAligned stop) :
    ∃ r s' l', makeRoom pal begin stop flags vma1 s = .ok r s' ∧
      RoomResult ys s xs begin stop r s' l' := by
  unfold makeRoom
  split_ifs with hfixed
  · obtain ⟨_, hlookup, hroom⟩ := lookupVma_room h.inv begin stop
    rw [bind_of_ok hlookup, get_bind]
    split_ifs with hany
    · exact ⟨_, s, l, rfl, h, nofun, fun x _ => rfl, nofun, fun _ _ => .refl s⟩
    · exact ⟨_, s, l, rfl, h, fun _ => hroom hany, fun x _ => rfl,
        fun _ => .of_room h.inv (hroom hany), nofun⟩
  · exact vmaBkeepRemove_room _ h hnew hle halign

/-- What `bkeep_mmap_fixed` does to the vmas of the application: the new one takes the place of
what was in its range, or nothing changes. -/
structure MapResult (env : Env Addr) (addr length : Nat) (map : Mapping) (s : State Addr)
    (r : Except Errno Unit) (s' : State Addr) : Prop where
  settled : Settled env s'
  mapped : r = .ok () → (map.vma addr (addr + length)).isInternal = false →
    ∀ v, s'.UserVma v ↔ v = map.vma addr (addr + length) ∨
      ∃ u, s.UserVma u ∧ v ∈ u.cut addr (addr + length)
  kept : ∀ e, r = .error e → SameUser s s'

variable {map : Mapping}

section
variable {addr : Nat} (h : Settled env s) (hflags : has map.flags (mapFixed ||| mapFixedNoreplace))
  (hbound : addr + length < 2 ^ 64)
include h hflags hbound

/-- **`bkeep_mmap_fixed`** and the vmas of the application. -/
theorem bkeepMmapFixed_result :
    Runs [.alignment] (bkeepMmapFixed pal env addr length map s)
      (MapResult env addr length map s) := by
  rw [bkeepMmapFixed, assertion_bind hflags]
  split_ifs with hargs
  · exact ⟨h, nofun, fun _ _ => .refl s⟩
  simp only [not_or, Bool.not_eq_false] at hargs
  obtain ⟨_, hlength, haddr⟩ := hargs
  obtain ⟨l, hl⟩ := h
  refine (allocVmaTop_spec hl).bind fun newVma s1 h1 => ?_
  cases newVma with
  | none => exact ⟨h1.good, nofun, fun _ _ => h1.user⟩
  | some a =>
    obtain ⟨_, hg1⟩ := h1.good
    refine (allocVmaTop_spec hg1).bind fun vma1 s2 h2 => ?_
    obtain ⟨l2, hg2⟩ := h2.good
    have hzero : s2.vma a = .zero := by
      rw [h2.same a (by simp), h1.zero a rfl]
    simp only [Nat.mod_eq_of_lt hbound]
    rw [modifyVma_bind, bind_of_ok (countMmapped_eq _ _)]
    generalize hs3 : { s2 with
      vma := update s2.vma a (map.vma addr (addr + length))
      numMmapped := bump map.file s2.numMmapped } = s3
    have hg3 : Good [env.tmpVma] s3 l2 (a :: vma1.toList) := by
      rw [← hs3]
      refine (hg2.perm perm_append_comm).setOutside (update_self ..)
        (fun x hx => update_of_ne hx _ _) fun i => ?_
      rw [hzero, bump_apply]
      rfl
    have huser3 : SameUser s s3 := by
      refine h1.user.trans (.trans h2.user (.of_same hg2.inv hg3.inv fun x hx => ?_))
      rw [← hs3]
      exact update_of_ne (hg3.inv.ne_of_mem (mem_append_left _ hx)) _ _
    have hnew : ∀ b ∈ vma1, s3.vma b = .zero := by
      intro b hb
      have hba : b ≠ a := hg3.inv.ne_of_mem (mem_append_right _ (Option.mem_toList.2 hb))
      rw [← hs3]
      exact (update_of_ne hba _ _).trans (h2.zero b hb)
    obtain ⟨r, s4, l4, hroom, hres⟩ := makeRoom_spec pal map.flags
      (hg3.perm (perm_append_singleton a _).symm) hnew (Nat.le_add_right addr length)
      ⟨haddr, isAllocAligned_add haddr hlength⟩
    have hva : s4.vma a = map.vma addr (addr + length) := by
      rw [hres.same a (by simp), ← hs3]
      exact update_self ..
    have hg4 : Good [env.tmpVma] s4 l4 (a :: (r.vmasToFree ++ r.newVma.toList)) := by
      refine hres.good.perm ?_
      rw [← append_assoc]
      exact perm_append_singleton _ _
    rw [bind_of_ok hroom]
    cases hret : r.ret with
    | error e =>
      obtain ⟨s5, hfree, hg5, hvma5⟩ := freeVmasFreelist_spec env
        (hg4.perm (perm_append_singleton a _).symm |>.perm (.of_eq (append_assoc ..)))
      obtain ⟨s6, hopt, hg6, hvma6⟩ := freeOptVma_spec env hg5
      obtain ⟨s7, hfree', hg7, hvma7, -⟩ := freeVma_spec env hg6
      refine Runs.of_ok ((bind_of_ok hfree).trans ((bind_of_ok hopt).trans (bind_of_ok hfree')))
        ⟨⟨l4, hg7⟩, nofun, fun _ _ => huser3.trans (.trans (hres.kept e hret) ?_)⟩
      refine .of_same hg4.inv hg7.inv fun x _ => ?_
      rw [hvma7, hvma6, hvma5]
    | ok u =>
      obtain ⟨_, _, _, hins, hadd, hg5, hvma5, hl5⟩ := hg4.insert hva
        (show addr < addr + length by omega) hbound (hres.room hret)
      obtain ⟨_, _, hfree, hopt, hs7, huser7⟩ := freeRest_spec hg5
      refine Runs.of_ok ((bind_of_ok hins).trans ((bind_of_ok hadd).trans ((bind_of_ok hfree).trans
        (bind_of_ok hopt)))) ⟨hs7, fun _ hint v => ?_, nofun⟩
      rw [huser7 v, hg5.inv.userVma_iff, hvma5]
      have hold : (∃ u, s.UserVma u ∧ v ∈ u.cut addr (addr + length)) ↔ s4.UserVma v :=
        .trans (by simp [huser3 _]) (hres.cleared hret v).symm
      rw [hold, hg4.inv.userVma_iff]
      simp only [mem_map, hl5]
      constructor
      · rintro ⟨⟨x, rfl | hx, rfl⟩, hv⟩
        · exact .inl hva
        · exact .inr ⟨⟨x, hx, rfl⟩, hv⟩
      · rintro (rfl | ⟨⟨x, hx, rfl⟩, hv⟩)
        · exact ⟨⟨a, .inl rfl, hva⟩, hint⟩
        · exact ⟨⟨x, .inr hx, rfl⟩, hv⟩

/-- **`bkeep_mmap_fixed`**. -/
theorem bkeepMmapFixed_spec :
    Runs [.alignment] (bkeepMmapFixed pal env addr length map s) fun _ s' => Settled env s' :=
  (bkeepMmapFixed_result h hflags hbound).mono fun _ _ hres => hres.settled

end

/-- What `bkeep_mmap_any_in_range` does to the vmas of the application: the new one is put where
none of them was, and all of them are kept. -/
structure AnyResult (env : Env Addr) (length : Nat) (s : State Addr) (r : Except Errno Nat)
    (s' : State Addr) : Prop where
  settled : Settled env s'
  free : ∀ addr, r = .ok addr → addr + length < 2 ^ 64 ∧
    ∀ v, s.UserVma v → v.stop ≤ addr ∨ addr + length ≤ v.begin
  kept : ∀ v, s.UserVma v → s'.UserVma v

omit [DecidableEq Addr] in
theorem AnyResult.after {s'' : State Addr} {r : Except Errno Nat}
    (h : AnyResult env length s' r s'') (hkept : ∀ v, s.UserVma v → s'.UserVma v) :
    AnyResult env length s r s'' where
  settled := h.settled
  free addr hr := ⟨(h.free addr hr).1, fun v hv => (h.free addr hr).2 v (hkept v hv)⟩
  kept v hv := h.kept v (hkept v hv)

/-- **`bkeep_mmap_any_in_range`** and the vmas of the application. -/
theorem bkeepMmapAnyInRange_result {bottomAddr topAddr : Nat} (h : Settled env s)
    (hlt : bottomAddr < topAddr)
    (hrange : pal.memoryAddressStart ≤ bottomAddr ∧ topAddr ≤ pal.memoryAddressEnd ∨
      pal.sharedAddressStart ≤ bottomAddr ∧ topAddr ≤ pal.sharedAddressEnd) :
    Runs [.alignment]
      (bkeepMmapAnyInRange pal env (allocVmaTop pal env) bottomAddr topAddr length map s)
      (AnyResult env length s) := by
  have hs := h
  obtain ⟨l, hl⟩ := h
  refine bkeepMmapAnyInRange_rule hlt hrange (allocVmaTop_spec hl)
    (fun e => ⟨hs, nofun, fun _ hv => hv⟩)
    (fun s' h1 => ⟨h1.good, nofun, fun v hv => (h1.user v).2 hv⟩) ?_
  intro a s1 bottomAddr topAddr h1 hlen htop
  obtain ⟨l1, hg1⟩ := h1.good
  obtain ⟨r, s2, hplace, hres, hhigh⟩ := mmapAnyInRangeLocked_highest env bottomAddr map hg1
    (h1.zero a rfl) hlen htop
  have hne : ∀ x ∈ l1, x ≠ a := fun x hx => hg1.inv.ne_of_mem (mem_append_left _ hx)
  refine Runs.of_ok hplace ?_
  cases hres with
  | full good same _ =>
    refine ⟨⟨_, good⟩, nofun, fun v hv => ?_⟩
    have huser : SameUser s1 s2 := .of_same hg1.inv good.inv fun x hx => same x (hne x hx)
    exact (huser v).2 ((h1.user v).2 hv)
  | @placed _ l2 l3 addr hsplit good same _ _ =>
    obtain ⟨-, hend, hfree⟩ := hhigh.1
    refine ⟨⟨_, good⟩, fun addr' haddr => ?_, fun v hv => ?_⟩
    · obtain rfl := Except.ok.inj haddr
      refine ⟨by omega, fun v hv => ?_⟩
      obtain ⟨hmem, -⟩ := hg1.inv.userVma_iff.1 ((h1.user v).2 hv)
      obtain ⟨x, hx, rfl⟩ := mem_map.1 hmem
      exact hfree x hx
    · obtain ⟨hmem, hint⟩ := hg1.inv.userVma_iff.1 ((h1.user v).2 hv)
      obtain ⟨x, hx, rfl⟩ := mem_map.1 hmem
      refine good.inv.userVma_iff.2 ⟨?_, hint⟩
      rw [← same x (hne x hx)]
      refine mem_map_of_mem ?_
      rw [hsplit] at hx
      simp only [mem_append, mem_cons] at hx ⊢
      exact hx.imp_right .inr

end Vma
