import Gramine.VmaRun

/-!
# The map of the address space

The tree of vmas as a function from addresses: what is mapped there, with which
protection, flags and file, and at which offset of the file. `_vma_bkeep_remove` makes
it undefined on its range and leaves it as it is elsewhere, and
`bkeep_mmap_any_in_range` adds a mapping at the highest place where it was undefined.
-/

open IntervalList List

namespace Vma

open LibosVma

variable {Addr : Type} [DecidableEq Addr] {s s' : State Addr} {l l1 l2 xs ys : List Addr}
  {a b : Addr} {env : Env Addr} {pal : PalPublicState} {begin stop x : Nat}

/-- What is mapped at an address; `offset` is the offset of that address in the file. -/
structure Page where
  prot : Flags
  flags : Flags
  file : Option LibosHandle
  offset : Nat
  deriving DecidableEq, Repr

/-- The address lies in the vma. -/
def LibosVma.Covers (v : LibosVma) (x : Nat) : Prop := v.begin ≤ x ∧ x < v.stop

instance (v : LibosVma) (x : Nat) : Decidable (v.Covers x) := inferInstanceAs (Decidable (_ ∧ _))

/-- What a vma says about one of its addresses. -/
def LibosVma.pageAt (v : LibosVma) (x : Nat) : Page where
  prot := v.prot
  flags := v.flags
  file := v.file
  offset := if v.file.isSome then (v.offset + (x - v.begin)) % 2 ^ 64 else v.offset

/-- The map. -/
def State.page (s : State Addr) (x : Nat) : Option Page :=
  ((s.vmaTree.nodes.map s.vma).find? fun v => v.Covers x).map fun v => v.pageAt x

/-- The vmas in the tree. -/
def State.HasVma (s : State Addr) (v : LibosVma) : Prop := ∃ a ∈ s.vmaTree.nodes, s.vma a = v

section
omit [DecidableEq Addr]

theorem Inv.hasVma_iff (h : Inv s l xs) {v : LibosVma} : s.HasVma v ↔ v ∈ l.map s.vma := by
  rw [mem_map]
  refine exists_congr fun a => and_congr_left fun _ => ?_
  exact h.tree.nodes.mem_iff.symm

theorem Inv.page_eq_some (h : Inv s l xs) {p : Page} :
    s.page x = some p ↔ ∃ v ∈ l.map s.vma, v.Covers x ∧ v.pageAt x = p := by
  have hmem : ∀ v, v ∈ s.vmaTree.nodes.map s.vma ↔ v ∈ l.map s.vma := fun v =>
    (h.tree.nodes.map s.vma).mem_iff.symm
  rw [State.page, Option.map_eq_some_iff]
  constructor
  · rintro ⟨v, hfind, rfl⟩
    have hcov := find?_some hfind
    exact ⟨v, (hmem v).1 (mem_of_find?_eq_some hfind), of_decide_eq_true hcov, rfl⟩
  rintro ⟨v, hv, hcov, rfl⟩
  obtain ⟨w, hfind⟩ : ∃ w, (s.vmaTree.nodes.map s.vma).find? (fun v => v.Covers x) = some w := by
    refine Option.isSome_iff_exists.1 (find?_isSome.2 ⟨v, (hmem v).2 hv, ?_⟩)
    exact decide_eq_true hcov
  refine ⟨w, hfind, ?_⟩
  have hw := (hmem w).1 (mem_of_find?_eq_some hfind)
  have hwcov := find?_some hfind
  rw [h.ordered.eq_of_covers hw hv (of_decide_eq_true hwcov) hcov]

theorem Inv.page_eq_none (h : Inv s l xs) : s.page x = none ↔ ∀ v ∈ l.map s.vma, ¬ v.Covers x := by
  rw [Option.eq_none_iff_forall_ne_some]
  constructor
  · intro hnone v hv hcov
    exact hnone _ (h.page_eq_some.2 ⟨v, hv, hcov, rfl⟩)
  · intro hnone p hp
    obtain ⟨v, hv, hcov, -⟩ := h.page_eq_some.1 hp
    exact hnone v hv hcov

theorem Inv.page_congr {l' xs' : List Addr} (h : Inv s l xs) (h' : Inv s' l' xs')
    (hiff : ∀ p, (∃ v ∈ l'.map s'.vma, v.Covers x ∧ v.pageAt x = p) ↔
      ∃ v ∈ l.map s.vma, v.Covers x ∧ v.pageAt x = p) : s'.page x = s.page x := by
  refine Option.ext fun p => ?_
  exact (h'.page_eq_some.trans (hiff p)).trans h.page_eq_some.symm

end

/-! ## Removing -/

/-- The offset of an address does not change when the front of a vma is cut off. -/
theorem LibosVma.pageAt_dropTo {v : LibosVma} (hv : v.begin ≤ stop) (hx : stop ≤ x) :
    (v.dropTo stop).pageAt x = v.pageAt x := by
  unfold pageAt dropTo
  by_cases hf : v.file.isSome
  · simp only [hf, if_true, Nat.mod_add_mod]
    congr 2
    omega
  · simp [hf]

/-- What a vma says about an address outside the range is what its pieces say. -/
theorem LibosVma.exists_cut_iff {v : LibosVma} {p : Page} (hx : ¬ (begin ≤ x ∧ x < stop)) :
    (∃ w ∈ v.cut begin stop, w.Covers x ∧ w.pageAt x = p) ↔ v.Covers x ∧ v.pageAt x = p := by
  unfold cut
  split_ifs with h1 h2 h3 h4 <;>
    simp only [nil_append, cons_append, mem_cons,
      not_mem_nil, or_false, exists_eq_left, false_and, exists_false, exists_eq_or_imp,
      Covers, dropTo_begin]
  · -- both ends are left
    constructor
    · rintro (⟨hcov, hp⟩ | ⟨hcov, hp⟩)
      · exact ⟨⟨hcov.1, by omega⟩, hp⟩
      · rw [pageAt_dropTo (by omega) hcov.1] at hp
        exact ⟨⟨by omega, hcov.2⟩, hp⟩
    rintro ⟨hcov, hp⟩
    by_cases hlow : x < begin
    · exact .inl ⟨⟨hcov.1, hlow⟩, hp⟩
    · refine .inr ⟨⟨by omega, hcov.2⟩, ?_⟩
      rwa [pageAt_dropTo (by omega) (by omega)]
  · constructor
    · rintro ⟨hcov, hp⟩
      exact ⟨⟨hcov.1, by omega⟩, hp⟩
    · rintro ⟨hcov, hp⟩
      exact ⟨⟨hcov.1, by omega⟩, hp⟩
  · constructor
    · rintro ⟨hcov, hp⟩
      rw [pageAt_dropTo (by omega) hcov.1] at hp
      exact ⟨⟨by omega, hcov.2⟩, hp⟩
    · rintro ⟨hcov, hp⟩
      refine ⟨⟨by omega, hcov.2⟩, ?_⟩
      rwa [pageAt_dropTo (by omega) (by omega)]
  · refine iff_of_false id ?_
    rintro ⟨hcov, -⟩
    omega

omit [DecidableEq Addr] in
theorem Inv.page_cut {l' xs' : List Addr} (h : Inv s l xs) (h' : Inv s' l' xs')
    (hvmas : l'.map s'.vma = (l.map s.vma).flatMap (cut begin stop)) (x : Nat) :
    s'.page x = if begin ≤ x ∧ x < stop then none else s.page x := by
  split_ifs with hx
  · refine h'.page_eq_none.2 fun w hw hcov => ?_
    rw [hvmas] at hw
    obtain ⟨v, -, hw⟩ := mem_flatMap.1 hw
    have := apart_of_mem_cut hw
    unfold Covers at hcov
    omega
  · refine h.page_congr h' fun p => ?_
    rw [hvmas]
    constructor
    · rintro ⟨w, hw, hcov, hp⟩
      obtain ⟨v, hv, hw⟩ := mem_flatMap.1 hw
      exact ⟨v, hv, (exists_cut_iff hx).1 ⟨w, hw, hcov, hp⟩⟩
    · rintro ⟨v, hv, hcov⟩
      obtain ⟨w, hw, hp⟩ := (exists_cut_iff hx).2 hcov
      exact ⟨w, mem_flatMap.2 ⟨v, hv, hw⟩, hp⟩

/-- A vma of the other kind overlaps the range. -/
def State.OtherKind (s : State Addr) (begin stop : Nat) (isInternal : Bool) : Prop :=
  ∃ a ∈ s.vmaTree.nodes, (s.vma a).Meets begin stop ∧ (s.vma a).isInternal ≠ isInternal

/-- A vma extends beyond the range on both sides. -/
def State.StrictlyContained (s : State Addr) (begin stop : Nat) : Prop :=
  ∃ a ∈ s.vmaTree.nodes, (s.vma a).begin < begin ∧ stop < (s.vma a).stop

omit [DecidableEq Addr] in
/-- A vma that extends beyond the range on both sides leaves two pieces, and no other
vma is cut or lies in the range: there is a vma more than before. -/
theorem Inv.length_cut (h : Inv s l xs) (ha : a ∈ l) (hlow : (s.vma a).begin < begin)
    (hhigh : stop < (s.vma a).stop) (hle : begin ≤ stop) :
    ((l.map s.vma).flatMap (cut begin stop)).length = l.length + 1 := by
  obtain ⟨l1, l2, rfl⟩ := append_of_mem ha
  have h1 : (l1.map s.vma).flatMap (cut begin stop) = l1.map s.vma := by
    refine flatMap_cut_of_apart fun v hv => ?_
    obtain ⟨y, hy, rfl⟩ := mem_map.1 hv
    have := h.before y hy
    omega
  have h2 : (l2.map s.vma).flatMap (cut begin stop) = l2.map s.vma := by
    refine flatMap_cut_of_apart fun v hv => ?_
    obtain ⟨y, hy, rfl⟩ := mem_map.1 hv
    have := h.after y hy
    omega
  rw [map_append, map_cons, flatMap_append, flatMap_cons, h1, h2,
    cut, if_neg (by omega), if_pos hlow, if_pos hhigh]
  simp only [length_append, length_map, length_cons, length_nil]
  omega

/-- **`_vma_bkeep_remove` removes exactly the range**, or says why it does not. -/
theorem vmaBkeepRemove_exact (pal : PalPublicState) (isInternal : Bool) {newVma : Option Addr}
    (h : Inv s l (newVma.toList ++ xs)) (hnew : ∀ b ∈ newVma, (s.vma b).inode = none)
    (hle : begin ≤ stop) (halign : pal.isAllocAligned begin ∧ pal.isAllocAligned stop) :
    ∃ r s', vmaBkeepRemove pal begin stop isInternal newVma s = .ok r s' ∧
      (r.ret = .ok () → (∀ x, s'.page x = if begin ≤ x ∧ x < stop then none else s.page x) ∧
        r.vmasToFree.Nodup ∧
        ∀ a, a ∈ r.vmasToFree ↔ a ∈ s.vmaTree.nodes ∧ (s.vma a).Inside begin stop) ∧
      (r.ret = .error .eacces ↔ s.OtherKind begin stop isInternal) ∧
      (r.ret = .error .enomem ↔ ¬ s.OtherKind begin stop isInternal ∧
        s.StrictlyContained begin stop ∧ newVma = none) ∧
      ∀ e, r.ret = .error e → (e = .eacces ∨ e = .enomem) ∧ s' = s := by
  have hmem : ∀ a, a ∈ s.vmaTree.nodes ↔ a ∈ l := fun a => h.tree.nodes.mem_iff.symm
  obtain ⟨r, s', hrun, hres⟩ := vmaBkeepRemove_spec isInternal h hnew hle halign
  refine ⟨r, s', hrun, ?_⟩
  have hother : s.OtherKind begin stop isInternal ↔
      ∃ a ∈ l, (s.vma a).Meets begin stop ∧ (s.vma a).isInternal ≠ isInternal := by
    simp [State.OtherKind, hmem]
  have hsame : (∀ a ∈ l, (s.vma a).Meets begin stop → (s.vma a).isInternal = isInternal) →
      ¬ s.OtherKind begin stop isInternal := by
    rintro hkind hoth
    obtain ⟨a, ha, hmeets, hne⟩ := hother.1 hoth
    exact hne (hkind a ha hmeets)
  cases hres with
  | acces hkind =>
    refine ⟨by simp, ?_, ?_, by simp⟩
    · exact iff_of_true rfl (hother.2 hkind)
    · exact iff_of_false (by simp) fun hno => hno.1 (hother.2 hkind)
  | nomem hnone hkind houter =>
    refine ⟨by simp, ?_, ?_, by simp⟩
    · exact iff_of_false (by simp) (hsame hkind)
    · refine iff_of_true rfl ⟨hsame hkind, ?_, hnone⟩
      obtain ⟨a, ha, hout⟩ := houter
      exact ⟨a, (hmem a).2 ha, hout⟩
  | removed hkind hrest hfreed hinv hpool hperm hothers hvmas =>
    refine ⟨fun _ => ⟨h.page_cut hinv hvmas, ?_, ?_⟩, ?_, ?_, by simp⟩
    · rw [hfreed]
      exact h.tree.nodup.filter _
    · intro a
      rw [hfreed, mem_filter, hmem, decide_eq_true_eq]
    · exact iff_of_false (by simp) (hsame hkind)
    refine iff_of_false (by simp) ?_
    rintro ⟨-, ⟨a, ha, hlow, hhigh⟩, rfl⟩
    have hlength := h.length_cut ((hmem a).1 ha) hlow hhigh hle
    have hsum := hperm.length_eq
    rw [← hvmas, length_map] at hlength
    simp only [length_append, Option.toList_none, length_nil] at hsum
    omega

theorem exampleInitial_rest : ∃ l, Rest exampleInitial l := by
  have hspec := exec_spec (Rest.initial exampleState_initial) exampleInitial_step.1
  rwa [exampleInitial_step.2] at hspec

/-- What a call of `_vma_bkeep_remove` without a vma to spare returns. -/
def removeRet (s : State Nat) (begin stop : Nat) : Option (Except Errno Unit) :=
  match vmaBkeepRemove examplePal begin stop true none s with
  | .ok r _ => some r.ret
  | .error _ _ => none

/-- The first of three pages is removed; to remove the one in the middle a vma is
needed. -/
theorem vmaBkeepRemove_exact_pages :
    (∃ r s', vmaBkeepRemove examplePal 65536 69632 true none exampleInitial = .ok r s' ∧
      r.ret = .ok () ∧ s'.page 65536 = none ∧ s'.page 69632 = exampleInitial.page 69632) ∧
    ∃ r s', vmaBkeepRemove examplePal 69632 73728 true none exampleInitial = .ok r s' ∧
      r.ret = .error .enomem ∧ s' = exampleInitial := by
  obtain ⟨l, hl⟩ := exampleInitial_rest
  have hinv : Inv exampleInitial l ((none : Option Nat).toList ++ []) := hl.inv
  constructor
  · obtain ⟨r, s', hrun, hok, -, -, -⟩ := vmaBkeepRemove_exact examplePal true
      hinv (by simp) (show 65536 ≤ 69632 by decide)
      ⟨by decide, by decide⟩
    have hret : removeRet exampleInitial 65536 69632 = some (.ok ()) := by decide +kernel
    rw [removeRet, hrun] at hret
    obtain ⟨hpage, -⟩ := hok (Option.some.inj hret)
    exact ⟨r, s', hrun, Option.some.inj hret, hpage 65536, hpage 69632⟩
  · obtain ⟨r, s', hrun, -, -, -, herror⟩ := vmaBkeepRemove_exact examplePal true
      hinv (by simp) (show 69632 ≤ 73728 by decide)
      ⟨by decide, by decide⟩
    have hret : removeRet exampleInitial 69632 73728 = some (.error .enomem) := by decide +kernel
    rw [removeRet, hrun] at hret
    exact ⟨r, s', hrun, Option.some.inj hret, (herror _ (Option.some.inj hret)).2⟩

/-! ## Mapping at any address -/

/-- There is room for `length` bytes at `addr`, inside the range. -/
structure State.HasRoom (s : State Addr) (bottomAddr topAddr length addr : Nat) : Prop where
  bottom : bottomAddr ≤ addr
  top : addr + length ≤ topAddr
  free : ∀ v, s.HasVma v → ¬ v.Meets addr (addr + length)

omit [DecidableEq Addr] in
theorem Inv.hasRoom_iff (h : Inv s l xs) {bottomAddr topAddr length addr : Nat} :
    s.HasRoom bottomAddr topAddr length addr ↔ Fits s l bottomAddr topAddr length addr := by
  constructor
  · rintro ⟨hbottom, htop, hfree⟩
    refine ⟨hbottom, htop, fun y hy => ?_⟩
    have := hfree _ (h.hasVma_iff.2 (mem_map_of_mem hy))
    unfold Meets at this
    omega
  · rintro ⟨hbottom, htop, hfree⟩
    refine ⟨hbottom, htop, fun v hv hmeets => ?_⟩
    obtain ⟨y, hy, rfl⟩ := mem_map.1 (h.hasVma_iff.1 hv)
    have := hfree y hy
    unfold Meets at hmeets
    omega

/-- **`bkeep_mmap_any_in_range` finds the highest gap**, whenever there is one: once it
has a vma, it succeeds exactly if the range has room, and adds the mapping to the map and
nothing else. -/
theorem mmapAnyInRange_highest_gap (pal : PalPublicState) {alloc : M Addr (Option Addr)}
    {s1 : State Addr} {bottomAddr topAddr length : Nat} {map : Mapping} (hlt : bottomAddr < topAddr)
    (hrange : pal.memoryAddressStart ≤ bottomAddr ∧ topAddr ≤ pal.memoryAddressEnd ∨
      pal.sharedAddressStart ≤ bottomAddr ∧ topAddr ≤ pal.sharedAddressEnd)
    (hbottom : pal.isAllocAligned bottomAddr) (htop : pal.isAllocAligned topAddr)
    (hlength : pal.isAllocAligned length) (hlen : 0 < length)
    (hreceived : s.receivedUserMemory = true) (h32 : has map.flags map32Bit = false)
    (halloc : alloc s = .ok (some b) s1) (hzero : s1.vma b = .zero)
    (h : Good ys s1 l (b :: xs)) :
    ∃ r s', bkeepMmapAnyInRange pal env alloc bottomAddr topAddr length map s = .ok r s' ∧
      ((∃ addr, r = .ok addr) ↔ ∃ addr, s1.HasRoom bottomAddr topAddr length addr) ∧
      (∀ addr, r = .ok addr → s1.HasRoom bottomAddr topAddr length addr ∧
        (∀ addr', s1.HasRoom bottomAddr topAddr length addr' → addr' ≤ addr) ∧
        ∀ v, s'.HasVma v ↔ s1.HasVma v ∨ v = map.vma addr (addr + length)) ∧
      ∀ e, r = .error e → e = .enomem ∧ ∀ v, s'.HasVma v ↔ s1.HasVma v := by
  have hbound : topAddr < 2 ^ 64 := by
    have h1 := pal.memory_bound
    have h2 := pal.shared_bound
    omega
  obtain ⟨r, s', hrun, hres, hhigh⟩ := mmapAnyInRangeLocked_highest env bottomAddr map h hzero hlen
    hbound
  refine ⟨r, s', ?_, ?_⟩
  · have hearly : earlyRange pal s.receivedUserMemory map.flags bottomAddr topAddr =
        some (bottomAddr, topAddr) := by
      simp [earlyRange, hreceived]
    have hbits : range32Bit map.flags bottomAddr topAddr = some (bottomAddr, topAddr) := by
      simp [range32Bit, h32]
    rw [bkeepMmapAnyInRange, assertion_bind hlt, assertion_bind hrange,
      if_neg (by simp only [hlength, Bool.true_eq_false, or_false]; omega),
      if_neg (by simp [hbottom, htop]), get_bind, hearly]
    simp only
    rw [assertion_bind hlt, hbits]
    simp only
    rwa [bind_of_ok halloc]
  · have hroom : ∀ addr, s1.HasRoom bottomAddr topAddr length addr ↔
        Fits s1 l bottomAddr topAddr length addr := fun addr => h.inv.hasRoom_iff
    have hb : b ∉ l := fun hmem => h.notMem (mem_append_left _ hmem)
    have hvma : (∀ y, y ≠ b → s'.vma y = s1.vma y) → l.map s'.vma = l.map s1.vma := fun hsame =>
      map_congr_of_notMem hsame hb
    cases hres with
    | full good same cache =>
      refine ⟨?_, by simp, fun e he => ?_⟩
      · refine iff_of_false (by simp) ?_
        rintro ⟨addr, hfits⟩
        exact hhigh.2 addr ((hroom addr).1 hfits)
      · refine ⟨(Except.error.inj he).symm, fun v => ?_⟩
        rw [good.inv.hasVma_iff, h.inv.hasVma_iff, hvma same]
    | placed hl good same pool vma =>
      rename_i l1 l2 addr
      refine ⟨iff_of_true ⟨addr, rfl⟩ ⟨addr, (hroom addr).2 hhigh.1⟩, fun addr' haddr => ?_,
        by simp⟩
      cases haddr
      refine ⟨(hroom _).2 hhigh.1, fun addr' hfits => hhigh.2 addr' ((hroom addr').1 hfits), ?_⟩
      intro v
      rw [good.inv.hasVma_iff, h.inv.hasVma_iff, ← hvma same, hl, map_append, map_cons,
        map_append, vma]
      simp only [mem_append, mem_cons]
      tauto

/-- Private anonymous memory. -/
def exampleMapping : Mapping := ⟨protRead, mapPrivate ||| mapAnonymous, none, 0, []⟩

/-- Thread 0, with its `tmp_vma` at 0. -/
def exampleEnv : Env Nat := ⟨0, 0, fun _ => false⟩

/-- A state in which three pages are in use, from 65536. -/
def exampleThree : State Nat := { exampleInitial with pal := [] }

/-- The vma that `alloc_vma` gives, and the state it leaves. -/
def exampleAlloc (s : State Nat) : Option (Nat × State Nat) :=
  match allocVmaTop examplePal exampleEnv s with
  | .ok (some b) s' => some (b, s')
  | _ => none

/-- What there is to know about a vma that `alloc_vma` gave. -/
theorem exampleAlloc_spec {s s1 : State Nat} {l xs : List Nat} {b : Nat}
    (h : Good [exampleEnv.tmpVma] s l xs) (hsome : exampleAlloc s = some (b, s1)) :
    allocVmaTop examplePal exampleEnv s = .ok (some b) s1 ∧ s1.vma b = .zero ∧
      (∀ x ∈ xs, s1.vma x = s.vma x) ∧ ∃ l', Good [exampleEnv.tmpVma] s1 l' (b :: xs) := by
  have hspec : Runs [.alignment] (allocVmaTop examplePal exampleEnv s)
      (AllocResult exampleEnv s xs) :=
    allocVmaTop_spec h
  unfold exampleAlloc at hsome
  split at hsome
  · rename_i b' s' hrun
    obtain ⟨rfl, rfl⟩ := Prod.mk.inj (Option.some.inj hsome)
    rw [hrun] at hspec
    exact ⟨hrun, hspec.zero b' rfl, hspec.same, hspec.good⟩
  · cases hsome

theorem exampleThree_good : ∃ l, Good [exampleEnv.tmpVma] exampleThree l [] := by
  obtain ⟨l, hl⟩ := exampleInitial_rest
  exact hl.start (exampleInitial_fresh .receiveUserMemory)

/-- A call of `bkeep_mmap_any_in_range` below 86016. -/
def mmapBelow (length : Nat) : M Nat (Except Errno Nat) :=
  bkeepMmapAnyInRange examplePal exampleEnv (allocVmaTop examplePal exampleEnv) 65536 86016 length
    exampleMapping

/-- Below 86016 two pages fit at 77824. -/
theorem mmapAnyInRange_highest_gap_pages : ∃ s', mmapBelow 8192 exampleThree = .ok (.ok 77824) s' ∧
    s'.HasVma (exampleMapping.vma 77824 (77824 + 8192)) := by
  obtain ⟨l0, hgood0⟩ := exampleThree_good
  have hsome : (exampleAlloc exampleThree).isSome = true := by decide +kernel
  obtain ⟨⟨b, s1⟩, hb⟩ := Option.isSome_iff_exists.1 hsome
  obtain ⟨halloc, hzero, -, l, hgood⟩ := exampleAlloc_spec hgood0 hb
  obtain ⟨r, s', hrun, -, hok, -⟩ := mmapAnyInRange_highest_gap examplePal
    (show 65536 < 86016 by decide) (.inl ⟨by decide, by decide⟩) (by decide) (by decide)
    (show examplePal.isAllocAligned 8192 by decide) (by decide) (by decide +kernel)
    (show has exampleMapping.flags map32Bit = false by decide) halloc hzero hgood
  have hret : (match mmapBelow 8192 exampleThree with
    | .ok r _ => some r
    | .error _ _ => none) = some (.ok 77824) := by decide +kernel
  have hrun : mmapBelow 8192 exampleThree = .ok r s' := hrun
  rw [hrun] at hret
  cases hret
  obtain ⟨-, -, hmap⟩ := hok 77824 rfl
  exact ⟨s', hrun, (hmap _).2 (.inr rfl)⟩

/-! ## Fixed mappings -/

/-- What the application has mapped at an address. -/
def State.UserPage (s : State Addr) (x : Nat) (p : Page) : Prop :=
  ∃ v, s.UserVma v ∧ v.Covers x ∧ v.pageAt x = p

/-- **`bkeep_mmap_fixed` replaces exactly its range**: in any state that calls lead to, the
application then has the mapping in the range and what it had before elsewhere; after an error it
has everywhere what it had. -/
theorem mmapFixed_replaces (pal : PalPublicState) (hr : Transition.Reachable Initial (Step pal) s)
    {call : Call Addr} (hfresh : call.Fresh s) {addr length : Nat} {map : Mapping}
    (hflags : has map.flags (mapFixed ||| mapFixedNoreplace)) (hbound : addr + length < 2 ^ 64)
    (huser : (map.vma addr (addr + length)).isInternal = false) {r : Except Errno Unit}
    (h : bkeepMmapFixed pal call.env addr length map { s with pal := call.areas } = .ok r s') :
    ∀ x p, s'.UserPage x p ↔ if r = .ok () ∧ addr ≤ x ∧ x < addr + length
      then (map.vma addr (addr + length)).pageAt x = p else s.UserPage x p := by
  have hrest : ∃ l, Rest s l := by
    refine hr.invariant (show ∀ s : State Addr, Initial s → ∃ l, Rest s l from
      fun s hs => ⟨[], Rest.initial hs⟩) ?_
    rintro s call s' ⟨l, hl⟩ ⟨hlegal, hexec⟩
    have hres := exec_spec hl hlegal
    rwa [hexec] at hres
  obtain ⟨l, hl⟩ := hrest
  have hres : MapResult call.env addr length map { s with pal := call.areas } r s' := by
    have hruns : Runs [.alignment] (bkeepMmapFixed pal _ addr length map _) _ :=
      bkeepMmapFixed_result (hl.start hfresh) hflags hbound
    rwa [h] at hruns
  intro x p
  cases r with
  | error e =>
    rw [if_neg (by simp)]
    exact exists_congr fun v => and_congr_left' (hres.kept e rfl v)
  | ok u =>
    simp only [State.UserPage, hres.mapped rfl huser, true_and]
    split_ifs with hx
    · refine ⟨?_, fun hp => ⟨_, .inl rfl, hx, hp⟩⟩
      rintro ⟨v, rfl | ⟨u, -, hv⟩, hcov, hp⟩
      · exact hp
      · have := apart_of_mem_cut hv
        unfold Covers at hcov
        omega
    · constructor
      · rintro ⟨v, rfl | ⟨u, hu, hv⟩, hcov⟩
        · exact absurd hcov.1 hx
        · exact ⟨u, hu, (exists_cut_iff hx).1 ⟨v, hv, hcov⟩⟩
      · rintro ⟨u, hu, hcov⟩
        obtain ⟨v, hv, hcov⟩ := (exists_cut_iff hx).2 hcov
        exact ⟨v, .inr ⟨u, hu, hv⟩, hcov⟩

def fixedMapping : Mapping := { exampleMapping with flags := mapFixed ||| mapPrivate }

/-- The page behind three in use is mapped. -/
def mmapBehind : M Nat (Except Errno Unit) :=
  bkeepMmapFixed examplePal exampleEnv 77824 4096 fixedMapping

def mmapRet : Option (Except Errno Unit) :=
  match mmapBehind exampleThree with
  | .ok r _ => some r
  | .error _ _ => none

theorem mmapFixed_replaces_page : ∃ s', mmapBehind exampleThree = .ok (.ok ()) s' ∧
    s'.UserPage 77824 ((fixedMapping.vma 77824 81920).pageAt 77824) := by
  have hret : mmapRet = some (.ok ()) := by decide +kernel
  unfold mmapRet at hret
  split at hret
  · next r s' h =>
    cases hret
    refine ⟨s', h, (mmapFixed_replaces examplePal (.step _ (.init exampleState_initial)
      exampleInitial_step) (exampleInitial_fresh .receiveUserMemory) (by decide) (by decide) rfl h
      77824 _).2 ?_⟩
    simp
  · cases hret

end Vma
