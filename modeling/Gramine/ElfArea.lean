import Gramine.Elf
import Gramine.Fallible
import Gramine.Rounding
import Gramine.VmaView

/-!
# Where ELF objects are mapped

What the comment on `struct loadcmd` states of every load command, which ranges the loader passes
on for it, and when all of them lie between `l_map_start` and `l_map_end`.
-/

open Vma List

namespace Elf

open Rounding LinkMap

/-! ## What is asserted of a load command -/

/-- The properties of a load command that `struct loadcmd` documents and `read_loadcmd` asserts. -/
structure Loadcmd.Asserted (pal : PalPublicState) (c : Loadcmd) : Prop where
  start_le : c.start ≤ c.dataEnd
  data_le : c.dataEnd ≤ c.mapEnd
  map_le : c.mapEnd ≤ c.allocEnd
  start_aligned : pal.isAllocAligned c.start
  map_aligned : pal.isAllocAligned c.mapEnd
  alloc_aligned : pal.isAllocAligned c.allocEnd
  off_aligned : pal.isAllocAligned c.mapOff

/-- The segment ends before the last page of the address space. The only other segments that are
as asserted are larger than the rest of the address space, and their ends wrap around into a page
where they do no harm. -/
def Phdr.Fits (pal : PalPublicState) (ph : Phdr) : Prop :=
  ph.vaddr.toNat + ph.memsz.toNat ≤ 2 ^ 64 - pal.allocAlign ∨
    2 ^ 64 - pal.allocAlign < ph.memsz.toNat ∧ allocAlignDown pal ph.vaddr.toNat ≤ ph.fileEnd ∧
      ph.fileEnd ≤ 2 ^ 64 - pal.allocAlign ∧
      Brk.allocAlignUpPtr pal ph.fileEnd ≤ Brk.allocAlignUpPtr pal ph.memEnd

section Align
variable {pal : PalPublicState} {m n : Nat}

theorem allocAlignDown_eq (pal : PalPublicState) (n : Nat) :
    allocAlignDown pal n = down pal.allocAlign n := rfl

theorem allocAlignUpPtr_eq (pal : PalPublicState) (n : Nat) :
    Brk.allocAlignUpPtr pal n = up (2 ^ 64) pal.allocAlign n := rfl

theorem isAllocAligned_iff : pal.isAllocAligned n = true ↔ pal.allocAlign ∣ n := by
  rw [PalPublicState.isAllocAligned, decide_eq_true_eq, Nat.dvd_iff_mod_eq_zero]

theorem allocAlign_pos (hpage : pal.allocAlign ∣ 2 ^ 64) : 0 < pal.allocAlign :=
  Nat.pos_of_dvd_of_pos hpage (by decide)

end Align

namespace Phdr
variable {pal : PalPublicState} {ph : Phdr}

theorem fileEnd_eq (ph : Phdr) : ph.fileEnd = (ph.vaddr.toNat + ph.filesz.toNat) % 2 ^ 64 :=
  BitVec.toNat_add ..

theorem memEnd_eq (ph : Phdr) : ph.memEnd = (ph.vaddr.toNat + ph.memsz.toNat) % 2 ^ 64 :=
  BitVec.toNat_add ..

theorem asserted_of_le (hstart : (ph.loadcmd pal).start ≤ (ph.loadcmd pal).dataEnd)
    (hdata : (ph.loadcmd pal).dataEnd ≤ (ph.loadcmd pal).mapEnd)
    (hmap : (ph.loadcmd pal).mapEnd ≤ (ph.loadcmd pal).allocEnd) :
    (ph.loadcmd pal).Asserted pal :=
  ⟨hstart, hdata, hmap, isAllocAligned_iff.2 (dvd_down _ _),
    isAllocAligned_iff.2 (dvd_up _ _ _), isAllocAligned_iff.2 (dvd_up _ _ _),
    isAllocAligned_iff.2 (dvd_down _ _)⟩

section
variable (hpage : pal.allocAlign ∣ 2 ^ 64) (hsize : ph.filesz.toNat ≤ ph.memsz.toNat)
include hpage hsize

/-- A segment that ends before the last page: no sum wraps around. -/
theorem asserted_of_end_le (hend : ph.vaddr.toNat + ph.memsz.toNat ≤ 2 ^ 64 - pal.allocAlign) :
    (ph.loadcmd pal).Asserted pal := by
  have hpos := allocAlign_pos hpage
  have hfile : ph.fileEnd = ph.vaddr.toNat + ph.filesz.toNat := by
    rw [fileEnd_eq, Nat.mod_eq_of_lt (by omega)]
  have hmem : ph.memEnd = ph.vaddr.toNat + ph.memsz.toNat := by
    rw [memEnd_eq, Nat.mod_eq_of_lt (by omega)]
  apply asserted_of_le
  · show allocAlignDown pal ph.vaddr.toNat ≤ ph.fileEnd
    have := down_le pal.allocAlign ph.vaddr.toNat
    rw [allocAlignDown_eq]
    omega
  · exact le_up hpos hpage (show ph.fileEnd ≤ _ by omega)
  · exact up_mono hpos hpage (show ph.fileEnd ≤ ph.memEnd by omega) (by omega)

/-- A segment that is not larger than the rest of the address space is as asserted only if it ends
before the last page. -/
theorem end_le_of_asserted (hmem : ph.memsz.toNat ≤ 2 ^ 64 - pal.allocAlign)
    (h : (ph.loadcmd pal).Asserted pal) :
    ph.vaddr.toNat + ph.memsz.toNat ≤ 2 ^ 64 - pal.allocAlign := by
  have hpos := allocAlign_pos hpage
  have hlow := lt_down_add hpos ph.vaddr.toNat
  have hfile : ph.fileEnd < 2 ^ 64 := (ph.vaddr + ph.filesz).isLt
  have hmem' : ph.memEnd < 2 ^ 64 := (ph.vaddr + ph.memsz).isLt
  have hstart : down pal.allocAlign ph.vaddr.toNat ≤ ph.fileEnd := h.start_le
  have hup : ph.fileEnd ≤ up (2 ^ 64) pal.allocAlign ph.memEnd :=
    le_trans h.data_le h.map_le
  -- the file data does not reach the end of the address space: otherwise it would end before the
  -- page it starts in
  have hfile_eq : ph.fileEnd = ph.vaddr.toNat + ph.filesz.toNat := by
    rw [fileEnd_eq] at hstart ⊢
    omega
  by_cases hlast : 2 ^ 64 - pal.allocAlign < ph.memEnd
  · -- the end is in the last page, so nothing is allocated, and nothing can be mapped
    rw [up_eq_zero hpos hpage hlast hmem'] at hup
    omega
  · -- the end wraps around, and lies before the segment
    have hlt := up_lt_add hpos hpage (not_lt.1 hlast)
    rw [memEnd_eq] at hlast hlt hup
    omega

/-- **Which headers are as asserted.** -/
theorem asserted_iff : (ph.loadcmd pal).Asserted pal ↔ ph.Fits pal := by
  have hpos := allocAlign_pos hpage
  have hfile : ph.fileEnd < 2 ^ 64 := (ph.vaddr + ph.filesz).isLt
  constructor
  · intro h
    rcases lt_or_ge (2 ^ 64 - pal.allocAlign) ph.memsz.toNat with hmem | hmem
    · exact .inr ⟨hmem, h.start_le, (le_up_iff hpos hpage hfile).1 h.data_le, h.map_le⟩
    · exact .inl (end_le_of_asserted hpage hsize hmem h)
  · rintro (hend | ⟨-, hstart, hdata, hmap⟩)
    · exact asserted_of_end_le hpage hsize hend
    · exact asserted_of_le hstart (le_up hpos hpage hdata) hmap

end

end Phdr

/-! ## Reading the headers -/

/-- The headers of the segments. -/
def Object.loads (obj : Object) : List Phdr := obj.phdrs.filter fun ph => ph.type = .load

section Read
variable {pal : PalPublicState} {ph : Phdr} {c : Loadcmd} {cs : List Loadcmd}

theorem readLoadcmd_ok (h : readLoadcmd pal ph = .ok c) :
    c = ph.loadcmd pal ∧ ph.filesz.toNat ≤ ph.memsz.toNat := by
  unfold readLoadcmd at h
  split_ifs at h with _ _ _ hsize
  exact ⟨(Except.ok.inj h).symm, not_lt.1 hsize⟩

/-- What is known once the headers are read: there is a load command for each segment, and the
segments are in order. -/
structure ReadResult (pal : PalPublicState) (loads : List Phdr) (cs : List Loadcmd) : Prop where
  cmds : cs = loads.map (Phdr.loadcmd pal)
  sizes : ∀ ph ∈ loads, ph.filesz.toNat ≤ ph.memsz.toNat
  ascending : loads.Pairwise fun ph ph' => ph.vaddr < ph'.vaddr

theorem readLoadcmds_ok {prev : Option Phdr} {phdrs : List Phdr}
    (h : readLoadcmds pal prev phdrs = .ok cs) :
    ReadResult pal (phdrs.filter fun ph => ph.type = .load) cs ∧
      ∀ p ∈ prev, ∀ ph ∈ phdrs, ph.type = .load → p.vaddr < ph.vaddr := by
  induction phdrs generalizing prev cs with
  | nil =>
    cases h
    exact ⟨⟨rfl, nofun, .nil⟩, nofun⟩
  | cons ph phdrs ih =>
    rw [readLoadcmds] at h
    by_cases hload : ph.type = .load
    · split_ifs at h with hprev
      obtain ⟨_, hc, h⟩ := Fallible.bind_eq_ok.1 h
      obtain ⟨cs', hcs, h⟩ := Fallible.bind_eq_ok.1 h
      cases h
      obtain ⟨rfl, hsize⟩ := readLoadcmd_ok hc
      obtain ⟨hread, hlater⟩ := ih hcs
      rw [filter_cons_of_pos (by simpa using hload)]
      refine ⟨⟨?_, ?_, ?_⟩, fun p hp ph' hph' hload' => ?_⟩
      · rw [map_cons, ← hread.cmds]
      · exact forall_mem_cons.2 ⟨hsize, hread.sizes⟩
      · refine pairwise_cons.2 ⟨fun ph' hph' => ?_, hread.ascending⟩
        obtain ⟨hmem, hload'⟩ := mem_filter.1 hph'
        exact hlater ph rfl ph' hmem (by simpa using hload')
      have hlt : p.vaddr < ph.vaddr := by
        by_contra hlt
        exact hprev ⟨p, hp, hlt⟩
      rcases mem_cons.1 hph' with rfl | hmem
      · exact hlt
      · exact BitVec.lt_trans hlt (hlater ph rfl ph' hmem hload')
    · rw [if_neg hload] at h
      obtain ⟨hread, hlater⟩ := ih h
      rw [filter_cons_of_neg (by simpa using hload)]
      refine ⟨hread, fun p hp ph' hph' hload' => ?_⟩
      rcases mem_cons.1 hph' with rfl | hmem
      · exact absurd hload' hload
      · exact hlater p hp ph' hmem hload'

/-- **`read_all_loadcmds`.** -/
theorem readAllLoadcmds_ok {malloc : Bool} {obj : Object}
    (h : readAllLoadcmds pal malloc obj.phdrs = .ok cs) : ReadResult pal obj.loads cs := by
  unfold readAllLoadcmds at h
  split_ifs at h with hnone
  · cases h
    have hloads : obj.loads = [] := by
      rwa [Object.loads, ← length_eq_zero_iff, ← countP_eq_length_filter]
    rw [hloads]
    exact ⟨rfl, nofun, .nil⟩
  · exact (readLoadcmds_ok h).1

end Read

/-! ## What is done for a load command -/

/-- Whether `execute_loadcmd` returns before it allocates the last pages, without an error. -/
def Loadcmd.returns (ans : SegmentAnswers) (c : Loadcmd) : Bool :=
  c.dataEnd < c.mapEnd ∧ has c.prot protWrite = false ∧ (ans.unprotectFails ∨ ans.protectFails)

/-- The end of what is mapped for a load command. -/
def Loadcmd.reach (ans : SegmentAnswers) (c : Loadcmd) : Nat :=
  if c.returns ans then c.mapEnd else c.allocEnd

/-- The ranges that `mapFile` passes on. -/
def Loadcmd.fileAccesses (baseDiff : Nat) (c : Loadcmd) : List Access :=
  if c.start < c.mapEnd then
    [⟨.bkeepMmapFixed, moved baseDiff c.start, c.mapEnd - c.start⟩,
      ⟨.mmap, moved baseDiff c.start, c.mapEnd - c.start⟩]
  else []

/-- The ranges that `zeroTail` passes on. -/
def Loadcmd.tailAccesses (pal : PalPublicState) (ans : SegmentAnswers) (baseDiff : Nat)
    (c : Loadcmd) : List Access :=
  let memset : Access := ⟨.memset, moved baseDiff c.dataEnd, c.mapEnd - c.dataEnd⟩
  let protect : Access :=
    ⟨.protect, allocAlignDown pal (moved baseDiff c.dataEnd), pal.allocAlign⟩
  if c.dataEnd < c.mapEnd then
    if has c.prot protWrite then [memset]
    else if ans.unprotectFails then [protect]
    else [protect, memset, protect]
  else []

/-- The ranges that `allocPages` passes on. -/
def Loadcmd.pageAccesses (baseDiff : Nat) (c : Loadcmd) : List Access :=
  if c.mapEnd < c.allocEnd then
    [⟨.bkeepMmapFixed, moved baseDiff c.mapEnd, c.allocEnd - c.mapEnd⟩,
      ⟨.alloc, moved baseDiff c.mapEnd, c.allocEnd - c.mapEnd⟩]
  else []

/-- The ranges that `execute_loadcmd` passes on. -/
def Loadcmd.accesses (pal : PalPublicState) (ans : SegmentAnswers) (baseDiff : Nat) (c : Loadcmd) :
    List Access :=
  c.fileAccesses baseDiff ++ (c.tailAccesses pal ans baseDiff ++
    if c.returns ans then [] else c.pageAccesses baseDiff)

section Execute
variable {Addr : Type} [DecidableEq Addr] {L : Loader Addr} {s s' s'' : State Addr}
  {file : LibosHandle} {ans : SegmentAnswers} {baseDiff : Nat} {c : Loadcmd}

omit [DecidableEq Addr] in
theorem bind_ok {α β : Type} {x : M Addr α} {f : α → M Addr β} {r : β}
    (h : (x >>= f) s = .ok r s') : ∃ a s1, x s = .ok a s1 ∧ f a s1 = .ok r s' := by
  simp only [bind, EStateM.bind] at h
  split at h
  · exact ⟨_, _, ‹_›, h⟩
  · cases h

omit [DecidableEq Addr] in
theorem bind_ok_ok {ε ε' α β : Type} {x : M Addr (Except ε α)}
    {f : Except ε α → M Addr (Except ε' β)} {r : β} (h : (x >>= f) s = .ok (.ok r) s')
    (hf : ∀ e s1, f (.error e) s1 ≠ .ok (.ok r) s') :
    ∃ a s1, x s = .ok (.ok a) s1 ∧ f (.ok a) s1 = .ok (.ok r) s' := by
  obtain ⟨ret, s1, hx, h⟩ := bind_ok h
  cases ret with
  | error e => exact absurd h (hf e s1)
  | ok a => exact ⟨a, s1, hx, h⟩

omit [DecidableEq Addr] in
theorem bkeep_ok {α : Type} {x : Vma.M Addr α} {r : α} (h : bkeep x s = .ok r s') :
    ∃ vmas, x s.vmas = .ok r vmas ∧ s' = { s with vmas := vmas } := by
  unfold bkeep at h
  split at h
  · cases h
    exact ⟨_, ‹_›, rfl⟩
  · cases h

variable {map : Mapping}

/-- `bkeep_mmap_fixed` does not map a range that is not aligned. -/
theorem isAllocAligned_of_mapped {pal : PalPublicState} {env : Env Addr} {addr size : Nat}
    {v v' : Vma.State Addr} (h : bkeepMmapFixed pal env addr size map v = .ok (.ok ()) v') :
    pal.isAllocAligned addr := by
  by_contra haddr
  rw [Bool.not_eq_true] at haddr
  by_cases hflags : has map.flags (mapFixed ||| mapFixedNoreplace)
  · rw [bkeepMmapFixed, assertion_bind hflags, if_pos (.inr (.inr haddr))] at h
    cases h
  · rw [bkeepMmapFixed, assertion, if_neg hflags] at h
    cases h

/-- Some ranges are passed on; those for `bkeep_mmap_fixed` are aligned, and the vmas change by its
calls only. -/
structure Passed (L : Loader Addr) (xs : List Access) (s s' : State Addr) : Prop where
  accesses : s'.accesses = s.accesses ++ xs
  area : s'.area = s.area
  aligned : ∀ a ∈ xs, a.op = .bkeepMmapFixed → L.pal.isAllocAligned a.addr
  vmas : ∀ K : Vma.State Addr → Prop, K s.vmas →
    (∀ a ∈ xs, a.op = .bkeepMmapFixed → ∀ map : Mapping,
      has map.flags (mapFixed ||| mapFixedNoreplace) →
      (∀ b e, (map.vma b e).isInternal = false) → ∀ v v', K v →
      bkeepMmapFixed L.pal L.env a.addr a.size map v = .ok (.ok ()) v' → K v') → K s'.vmas

namespace Passed

theorem nil (L : Loader Addr) (s : State Addr) : Passed L [] s s :=
  ⟨(append_nil _).symm, rfl, nofun, fun _ hK _ => hK⟩

theorem append {xs ys : List Access} (h : Passed L xs s s') (h' : Passed L ys s' s'') :
    Passed L (xs ++ ys) s s'' := by
  refine ⟨?_, h'.area.trans h.area, ?_, fun K hK hstep => ?_⟩
  · rw [h'.accesses, h.accesses, append_assoc]
  · intro a ha hop
    rcases mem_append.1 ha with ha | ha
    · exact h.aligned a ha hop
    · exact h'.aligned a ha hop
  · apply h'.vmas K
    · exact h.vmas K hK fun a ha => hstep a (mem_append_left _ ha)
    · exact fun a ha => hstep a (mem_append_right _ ha)

theorem pass (L : Loader Addr) {op : Op} (hop : op ≠ .bkeepMmapFixed) (addr size : Nat)
    (h : Elf.pass op addr size s = .ok () s') : Passed L [⟨op, addr, size⟩] s s' := by
  obtain rfl : { s with accesses := s.accesses ++ [⟨op, addr, size⟩] } = s' := by
    cases h
    rfl
  refine ⟨rfl, rfl, ?_, fun _ hK _ => hK⟩
  intro a ha hop'
  obtain rfl := mem_singleton.1 ha
  exact absurd hop' hop

theorem bkeepRange {addr size : Nat} (hflags : has map.flags (mapFixed ||| mapFixedNoreplace))
    (hinternal : ∀ b e, (map.vma b e).isInternal = false)
    (h : bkeepRange L addr size map s = .ok (.ok ()) s') :
    Passed L [⟨.bkeepMmapFixed, addr, size⟩] s s' := by
  obtain ⟨_, s1, hpass, h⟩ := bind_ok h
  cases hpass
  obtain ⟨vmas, hmap, rfl⟩ := bkeep_ok h
  refine ⟨rfl, rfl, ?_, fun K hK hstep => ?_⟩
  · intro a ha _
    obtain rfl := mem_singleton.1 ha
    exact isAllocAligned_of_mapped hmap
  · exact hstep _ (mem_singleton_self _) rfl map hflags hinternal _ _ hK hmap

end Passed

theorem vma_isInternal (b e : Nat)
    (h : has (filterSavedFlags map.flags ||| vmaTainted) vmaInternal = false)
    (h' : has (filterSavedFlags map.flags ||| 0) vmaInternal = false) :
    (map.vma b e).isInternal = false := by
  rw [Mapping.vma]
  by_cases htaint : map.file.isSome ∧ has map.prot protWrite
  · rwa [if_pos htaint]
  · rwa [if_neg htaint]

theorem fileMapping_isInternal (file : LibosHandle) (c : Loadcmd) (b e : Nat) :
    ((fileMapping file c).vma b e).isInternal = false :=
  vma_isInternal b e
    (show has (filterSavedFlags (mapFixed ||| mapPrivate) ||| vmaTainted) _ = false by decide)
    (show has (filterSavedFlags (mapFixed ||| mapPrivate) ||| 0) _ = false by decide)

theorem zeroMapping_isInternal (c : Loadcmd) (b e : Nat) :
    ((zeroMapping c).vma b e).isInternal = false :=
  vma_isInternal b e
    (show has (filterSavedFlags (mapFixed ||| mapPrivate ||| mapAnonymous) ||| vmaTainted) _ = false
      by decide)
    (show has (filterSavedFlags (mapFixed ||| mapPrivate ||| mapAnonymous) ||| 0) _ = false
      by decide)

theorem mapFile_ok (h : mapFile L file ans baseDiff c s = .ok (.ok ()) s') :
    Passed L (c.fileAccesses baseDiff) s s' := by
  rw [mapFile] at h
  rw [Loadcmd.fileAccesses]
  by_cases hmap : c.start < c.mapEnd
  · rw [if_pos hmap] at h ⊢
    obtain ⟨_, _, hrange, h⟩ := bind_ok_ok h fun _ _ h => by cases h
    obtain ⟨_, s2, hpass, h⟩ := bind_ok h
    have h1 := Passed.bkeepRange
      (show has (mapFixed ||| mapPrivate) (mapFixed ||| mapFixedNoreplace) by decide)
      (fileMapping_isInternal file c) hrange
    cases hmmap : ans.mmap <;> rw [hmmap] at h <;> cases h
    exact h1.append (.pass L (by decide) _ _ hpass)
  · rw [if_neg hmap] at h ⊢
    cases h
    exact .nil L s

theorem zeroTail_ok {returned : Bool} (h : zeroTail L ans baseDiff c s = .ok returned s') :
    Passed L (c.tailAccesses L.pal ans baseDiff) s s' ∧ returned = c.returns ans := by
  rw [zeroTail] at h
  rw [Loadcmd.tailAccesses, Loadcmd.returns]
  by_cases hdata : c.dataEnd < c.mapEnd
  · rw [if_pos hdata] at h ⊢
    by_cases hwrite : has c.prot protWrite = true
    · rw [if_pos hwrite] at h ⊢
      obtain ⟨_, s1, hpass, h⟩ := bind_ok h
      cases h
      exact ⟨.pass L (by decide) _ _ hpass, by simp [hwrite]⟩
    rw [if_neg hwrite] at h ⊢
    obtain ⟨_, s1, hpass, h⟩ := bind_ok h
    have h1 := Passed.pass L (by decide) _ _ hpass
    by_cases hfails : ans.unprotectFails = true
    · rw [if_pos hfails] at h ⊢
      cases h
      exact ⟨h1, by simp [hdata, hwrite, hfails]⟩
    rw [if_neg hfails] at h ⊢
    obtain ⟨_, s2, hpass, h⟩ := bind_ok h
    have h2 := Passed.pass L (by decide) _ _ hpass
    obtain ⟨_, s3, hpass, h⟩ := bind_ok h
    have h3 := Passed.pass L (by decide) _ _ hpass
    cases h
    exact ⟨h1.append (h2.append h3), by simp [hdata, hwrite, hfails]⟩
  · rw [if_neg hdata] at h ⊢
    cases h
    exact ⟨.nil L s, by simp [hdata]⟩

theorem allocPages_ok (h : allocPages L ans baseDiff c s = .ok (.ok ()) s') :
    Passed L (c.pageAccesses baseDiff) s s' := by
  rw [allocPages] at h
  rw [Loadcmd.pageAccesses]
  by_cases hpages : c.mapEnd < c.allocEnd
  · rw [if_pos hpages] at h ⊢
    obtain ⟨_, _, hrange, h⟩ := bind_ok_ok h fun _ _ h => by cases h
    obtain ⟨_, s2, hpass, h⟩ := bind_ok h
    have h1 := Passed.bkeepRange
      (show has (mapFixed ||| mapPrivate ||| mapAnonymous) (mapFixed ||| mapFixedNoreplace) by
        decide)
      (zeroMapping_isInternal c) hrange
    cases halloc : ans.alloc <;> rw [halloc] at h <;> cases h
    exact h1.append (.pass L (by decide) _ _ hpass)
  · rw [if_neg hpages] at h ⊢
    cases h
    exact .nil L s

/-- **`execute_loadcmd`**, where it returns no error. -/
theorem executeLoadcmd_ok (h : executeLoadcmd L file ans baseDiff c s = .ok (.ok ()) s') :
    Passed L (c.accesses L.pal ans baseDiff) s s' := by
  obtain ⟨_, s1, hfile, h⟩ := bind_ok_ok h fun _ _ h => by cases h
  obtain ⟨returned, s2, htail, h⟩ := bind_ok h
  obtain ⟨h2, rfl⟩ := zeroTail_ok htail
  refine (mapFile_ok hfile).append (h2.append ?_)
  by_cases hreturns : c.returns ans = true
  · rw [if_pos hreturns] at h ⊢
    cases h
    exact .nil L _
  · rw [if_neg hreturns] at h ⊢
    exact allocPages_ok h

/-- The ranges for all load commands, from the one with number `i` on. -/
def accessesFrom (pal : PalPublicState) (ans : Answers) (baseDiff : Nat) :
    Nat → List Loadcmd → List Access
  | _, [] => []
  | i, c :: cs =>
    c.accesses pal (ans.segment i) baseDiff ++ accessesFrom pal ans baseDiff (i + 1) cs

variable {cs : List Loadcmd}

theorem mem_accessesFrom {pal : PalPublicState} {ans : Answers} {i : Nat} {a : Access} :
    a ∈ accessesFrom pal ans baseDiff i cs ↔ ∃ (j : Nat) (c : Loadcmd), cs[j]? = some c ∧
        a ∈ c.accesses pal (ans.segment (i + j)) baseDiff := by
  induction cs generalizing i with
  | nil => simp [accessesFrom]
  | cons c cs ih =>
    rw [accessesFrom, mem_append, ih]
    constructor
    · rintro (ha | ⟨j, c', hj, ha⟩)
      · exact ⟨0, c, rfl, ha⟩
      · refine ⟨j + 1, c', hj, ?_⟩
        rwa [add_comm j, ← add_assoc]
    rintro ⟨j, c', hj, ha⟩
    cases j with
    | zero =>
      cases hj
      exact .inl ha
    | succ j =>
      refine .inr ⟨j, c', hj, ?_⟩
      rwa [Nat.add_right_comm]

section Fields
variable {obj : Object} {ans : Answers} {l l' : LinkMap}

/-- The part of the link map that is fixed before the load commands are executed. -/
def LinkMap.place (l : LinkMap) : Nat × Nat × Nat := (l.baseDiff, l.mapStart, l.mapEnd)

theorem LinkMap.findPhdr_place : (l.findPhdr obj c).place = l.place := by
  rw [findPhdr, apply_ite place]
  exact ite_self _

theorem LinkMap.findInterp_place (h : l.findInterp obj ans c = .ok l') : l'.place = l.place := by
  rw [findInterp] at h
  split_ifs at h <;> exact (congrArg place (Except.ok.inj h)).symm

theorem LinkMap.findEntry_place : (l.findEntry obj c).place = l.place := by
  rw [findEntry, apply_ite place]
  exact ite_self _

theorem LinkMap.addData_place : (l.addData c).place = l.place := by
  rw [addData]
  split
  · rfl
  · simp [place]

theorem LinkMap.finish_place (h : l.finish obj = .ok l') : l'.place = l.place := by
  rw [finish] at h
  split_ifs at h
  exact (congrArg place (Except.ok.inj h)).symm

end Fields

theorem executeLoadcmds_cons {obj : Object} {ans : Answers} {i : Nat} {l l' : LinkMap}
    (h : executeLoadcmds L obj ans i (c :: cs) l s = .ok (.ok l') s') :
    ∃ l1 s1, executeLoadcmd L obj.file (ans.segment i) l.baseDiff c s = .ok (.ok ()) s1 ∧
      l1.place = l.place ∧ executeLoadcmds L obj ans (i + 1) cs l1 s1 = .ok (.ok l') s' := by
  obtain ⟨_, s1, hexec, h⟩ := bind_ok_ok h fun _ _ h => by cases h
  cases hinterp : (l.findPhdr obj c).findInterp obj ans c with
  | error e =>
    simp only [hinterp] at h
    cases h
  | ok l1 =>
    simp only [hinterp] at h
    refine ⟨_, s1, hexec, ?_, h⟩
    rw [addData_place, findEntry_place, findInterp_place hinterp, findPhdr_place]

/-- **The loop over the load commands.** -/
theorem executeLoadcmds_ok {obj : Object} {ans : Answers} {i : Nat} {l l' : LinkMap}
    (h : executeLoadcmds L obj ans i cs l s = .ok (.ok l') s') :
    l'.place = l.place ∧ Passed L (accessesFrom L.pal ans l.baseDiff i cs) s s' := by
  induction cs generalizing i l s with
  | nil =>
    cases h
    exact ⟨rfl, .nil L _⟩
  | cons c cs ih =>
    obtain ⟨l1, _, hexec, hsame, h⟩ := executeLoadcmds_cons h
    obtain ⟨hplace, hrest⟩ := ih h
    have hbase : l1.baseDiff = l.baseDiff := congrArg Prod.fst hsame
    rw [hbase] at hrest
    exact ⟨hplace.trans hsame, (executeLoadcmd_ok hexec).append hrest⟩

end Execute

/-! ## Where the ranges lie -/

/-- The range lies between two addresses. -/
def Access.Within (low high : Nat) (a : Access) : Prop := low ≤ a.addr ∧ a.addr + a.size ≤ high

theorem moved_eq {baseDiff addr : Nat} (h : addr + baseDiff < 2 ^ 64) :
    moved baseDiff addr = addr + baseDiff :=
  Nat.mod_eq_of_lt h

namespace Loadcmd
variable {pal : PalPublicState} {ans : SegmentAnswers} {baseDiff : Nat} {c : Loadcmd} {a : Access}

theorem mem_twice {op op' : Op} {low high : Nat}
    (ha : a ∈ if low < high then [⟨op, moved baseDiff low, high - low⟩,
      ⟨op', moved baseDiff low, high - low⟩] else []) :
    low < high ∧ a.addr = moved baseDiff low ∧ a.size = high - low := by
  split_ifs at ha with hlt
  · simp only [mem_cons, not_mem_nil, or_false] at ha
    rcases ha with rfl | rfl
    · exact ⟨hlt, rfl, rfl⟩
    · exact ⟨hlt, rfl, rfl⟩
  · cases ha

theorem mem_fileAccesses (ha : a ∈ c.fileAccesses baseDiff) :
    c.start < c.mapEnd ∧ a.addr = moved baseDiff c.start ∧ a.size = c.mapEnd - c.start :=
  mem_twice ha

theorem mem_tailAccesses (ha : a ∈ c.tailAccesses pal ans baseDiff) : c.dataEnd < c.mapEnd ∧
      (a.addr = moved baseDiff c.dataEnd ∧ a.size = c.mapEnd - c.dataEnd ∨
        a.addr = allocAlignDown pal (moved baseDiff c.dataEnd) ∧ a.size = pal.allocAlign) := by
  unfold tailAccesses at ha
  split_ifs at ha with hdata hwrite hfails
  · obtain rfl := mem_singleton.1 ha
    exact ⟨hdata, .inl ⟨rfl, rfl⟩⟩
  · obtain rfl := mem_singleton.1 ha
    exact ⟨hdata, .inr ⟨rfl, rfl⟩⟩
  · simp only [mem_cons, not_mem_nil, or_false] at ha
    rcases ha with rfl | rfl | rfl
    · exact ⟨hdata, .inr ⟨rfl, rfl⟩⟩
    · exact ⟨hdata, .inl ⟨rfl, rfl⟩⟩
    · exact ⟨hdata, .inr ⟨rfl, rfl⟩⟩
  · cases ha

theorem mem_pageAccesses (ha : a ∈ c.pageAccesses baseDiff) :
    c.mapEnd < c.allocEnd ∧ a.addr = moved baseDiff c.mapEnd ∧ a.size = c.allocEnd - c.mapEnd :=
  mem_twice ha

theorem bkeepFile_mem (pal : PalPublicState) (ans : SegmentAnswers) (baseDiff : Nat)
    (hmap : c.start < c.mapEnd) :
    ⟨.bkeepMmapFixed, moved baseDiff c.start, c.mapEnd - c.start⟩ ∈
      c.accesses pal ans baseDiff := by
  refine mem_append_left _ ?_
  rw [fileAccesses, if_pos hmap]
  exact mem_cons_self

theorem bkeepPages_mem (pal : PalPublicState) (baseDiff : Nat) (hreturns : ¬ c.returns ans)
    (hpages : c.mapEnd < c.allocEnd) :
    ⟨.bkeepMmapFixed, moved baseDiff c.mapEnd, c.allocEnd - c.mapEnd⟩ ∈
      c.accesses pal ans baseDiff := by
  refine mem_append_right _ (mem_append_right _ ?_)
  rw [if_neg hreturns, pageAccesses, if_pos hpages]
  exact mem_cons_self

theorem Asserted.mapEnd_le_reach (h : c.Asserted pal) (ans : SegmentAnswers) :
    c.mapEnd ≤ c.reach ans := by
  unfold reach
  split
  · exact le_rfl
  · exact h.map_le

/-- **All ranges for a load command lie between its first page and the end of what is mapped.** -/
theorem Asserted.within (h : c.Asserted pal) (hpage : pal.allocAlign ∣ 2 ^ 64)
    (hend : c.reach ans + baseDiff < 2 ^ 64)
    (haligned : c.start < c.mapEnd → pal.isAllocAligned (moved baseDiff c.start))
    (ha : a ∈ c.accesses pal ans baseDiff) :
    a.Within (c.start + baseDiff) (c.reach ans + baseDiff) := by
  have hreach := h.mapEnd_le_reach ans
  have hstart := h.start_le
  have hdata := h.data_le
  rw [accesses, mem_append, mem_append] at ha
  rcases ha with ha | ha | ha
  · obtain ⟨hlt, haddr, hsize⟩ := mem_fileAccesses ha
    rw [moved_eq (by omega)] at haddr
    constructor <;> omega
  · obtain ⟨hlt, ⟨haddr, hsize⟩ | ⟨haddr, hsize⟩⟩ := mem_tailAccesses ha
    · rw [moved_eq (by omega)] at haddr
      constructor <;> omega
    · -- the page of the first byte that is cleared
      rw [moved_eq (by omega), allocAlignDown_eq] at haddr
      have hlow : pal.allocAlign ∣ c.start + baseDiff := by
        have := haligned (by omega)
        rw [moved_eq (by omega)] at this
        exact isAllocAligned_iff.1 this
      have hhigh : pal.allocAlign ∣ c.mapEnd + baseDiff := by
        have hdiff := Nat.dvd_sub (isAllocAligned_iff.1 h.map_aligned)
          (isAllocAligned_iff.1 h.start_aligned)
        have hsum := Nat.dvd_add hlow hdiff
        rwa [show c.start + baseDiff + (c.mapEnd - c.start) = c.mapEnd + baseDiff by omega] at hsum
      have h1 := le_down hlow (show _ ≤ c.dataEnd + baseDiff by omega)
      have h2 := down_add_le (allocAlign_pos hpage) hhigh (show c.dataEnd + baseDiff < _ by omega)
      constructor <;> omega
  · split at ha
    · cases ha
    · rename_i hreturns
      obtain ⟨_, haddr, _⟩ := mem_pageAccesses ha
      have heq : c.reach ans = c.allocEnd := if_neg hreturns
      rw [moved_eq (by omega)] at haddr
      constructor <;> omega

theorem reach_le (pal : PalPublicState) {top : Nat} (hstart : c.start ≤ top)
    (htop : top + baseDiff < 2 ^ 64)
    (hin : ∀ a ∈ c.accesses pal ans baseDiff, a.addr + a.size ≤ top + baseDiff) :
    c.reach ans ≤ top := by
  have hmap : c.mapEnd ≤ top := by
    by_cases hlt : c.start < c.mapEnd
    · have := hin _ (bkeepFile_mem pal ans baseDiff hlt)
      simp only [moved_eq (show c.start + baseDiff < 2 ^ 64 by omega)] at this
      omega
    · omega
  unfold reach
  split
  · exact hmap
  rename_i hreturns
  by_cases hlt : c.mapEnd < c.allocEnd
  · have := hin _ (bkeepPages_mem pal baseDiff hreturns hlt)
    simp only [moved_eq (show c.mapEnd + baseDiff < 2 ^ 64 by omega)] at this
    omega
  · omega

end Loadcmd

/-! ## The area of the object -/

section Area
variable {Addr : Type} [DecidableEq Addr] {L : Loader Addr} {s s' : State Addr} {obj : Object}
  {ans : Answers}

/-- `load_end`: where the last segment ends. -/
def Object.loadEnd (pal : PalPublicState) (obj : Object) : Nat :=
  match obj.loads.getLast? with
  | none => 0
  | some ph => Brk.allocAlignUpPtr pal ph.memEnd

/-- **`bkeep_mmap_any_aslr`** and the vmas of the application. -/
theorem bkeepMmapAnyAslr_result {length : Nat} {map : Mapping} {v : Vma.State Addr}
    (h : Settled L.env v) :
    Runs [.alignment] (bkeepMmapAnyAslr L length map v) (AnyResult L.env length v) := by
  refine (bkeepMmapAnyInRange_result h L.aslr_lt (.inl ⟨le_rfl, L.aslr_le⟩)).bind fun r v1 h1 => ?_
  cases r with
  | ok addr => exact h1
  | error e =>
    refine (bkeepMmapAnyInRange_result h1.settled L.pal.memory_lt
      (.inl ⟨le_rfl, le_rfl⟩)).mono fun r v2 h2 => ?_
    exact h2.after h1.kept

/-- What `l_base_diff` can be. -/
inductive BaseDiff (L : Loader Addr) (obj : Object) (loadEnd : Nat) (s : State Addr) :
    Nat → State Addr → Prop
  /-- The addresses are those of the file. -/
  | exec (htype : obj.type = .exec) : BaseDiff L obj loadEnd s 0 s
  /-- The area was found. -/
  | found (htype : obj.type = .dyn) {addr : Nat} {vmas : Vma.State Addr}
      (hrun : bkeepMmapAnyAslr L (Brk.allocAlignUpPtr L.pal loadEnd) reservation s.vmas =
        .ok (.ok addr) vmas) :
    BaseDiff L obj loadEnd s addr { s with
      vmas := vmas
      area := some (addr, addr + Brk.allocAlignUpPtr L.pal loadEnd) }
  /-- No area was found, and `addr` was never set. -/
  | lost (htype : obj.type = .dyn) {e : Errno} {baseDiff : Nat} {vmas : Vma.State Addr}
      (hrun : bkeepMmapAnyAslr L (Brk.allocAlignUpPtr L.pal loadEnd) reservation s.vmas =
        .ok (.error e) vmas) :
    BaseDiff L obj loadEnd s baseDiff { s with vmas := vmas }

variable {baseDiff : Nat}

theorem loadAddress_ok {loadEnd : Nat}
    (h : loadAddress L obj ans loadEnd s = .ok (.ok baseDiff) s') :
    BaseDiff L obj loadEnd s baseDiff s' := by
  rw [loadAddress] at h
  cases htype : obj.type with
  | exec =>
    rw [htype] at h
    cases h
    exact .exec htype
  | dyn =>
    rw [htype] at h
    obtain ⟨⟨ret, addr⟩, s1, hreserve, h⟩ := bind_ok h
    obtain ⟨r, s2, hbkeep, hreserve⟩ := bind_ok hreserve
    obtain ⟨vmas, hrun, rfl⟩ := bkeep_ok hbkeep
    cases r with
    | error e =>
      cases hreserve
      cases h
      exact .lost htype hrun
    | ok addr =>
      cases hreserve
      cases h
      exact .found htype hrun

theorem BaseDiff.accesses {loadEnd : Nat} (h : BaseDiff L obj loadEnd s baseDiff s') :
    s'.accesses = s.accesses := by
  cases h with
  | exec | found | lost => rfl

/-- What is known of an object that was mapped. -/
structure Mapped (L : Loader Addr) (obj : Object) (ans : Answers) (s s' : State Addr) (l : LinkMap)
    (c : Loadcmd) (cs : List Loadcmd) : Prop where
  read : readAllLoadcmds L.pal ans.mallocLoadcmds obj.phdrs = .ok (c :: cs)
  loaded : ∃ s1, BaseDiff L obj (obj.loadEnd L.pal) s l.baseDiff s1 ∧
    Passed L (accessesFrom L.pal ans l.baseDiff 0 (c :: cs)) s1 s'
  mapStart : l.mapStart = moved l.baseDiff c.start
  mapEnd : l.mapEnd = moved l.baseDiff (obj.loadEnd L.pal)

theorem ReadResult.loadEnd {pal : PalPublicState} {c : Loadcmd} {cs : List Loadcmd}
    (h : ReadResult pal obj.loads (c :: cs)) :
    ((c :: cs).getLast (cons_ne_nil c cs)).allocEnd = obj.loadEnd pal := by
  have hlast : obj.loads.getLast?.map (Phdr.loadcmd pal) = (c :: cs).getLast? := by
    rw [h.cmds, getLast?_map]
  obtain ⟨ph, hph, heq⟩ := Option.map_eq_some_iff.1 hlast
  simp only [Object.loadEnd, hph, ← heq]
  rfl

/-- The calls of `map_elf_object`, where it succeeds. -/
theorem mapElfObject_run {l : LinkMap} (h : mapElfObject L obj ans s = .ok (.ok l) s') :
    ∃ c cs s1 l1, readAllLoadcmds L.pal ans.mallocLoadcmds obj.phdrs = .ok (c :: cs) ∧
      loadAddress L obj ans (obj.loadEnd L.pal) s = .ok (.ok l.baseDiff) s1 ∧
      executeLoadcmds L obj ans 0 (c :: cs) (.start c.start (obj.loadEnd L.pal) l.baseDiff) s1 =
        .ok (.ok l1) s' ∧ l1.finish obj = .ok l := by
  rw [mapElfObject] at h
  split_ifs at h
  · cases h
  · cases h
  · cases h
  cases hphdr : ans.readPhdr with
  | some e =>
    rw [hphdr] at h
    cases h
  | none =>
    rw [hphdr] at h
    cases hread : readAllLoadcmds L.pal ans.mallocLoadcmds obj.phdrs with
    | error e =>
      simp only [hread] at h
      cases h
    | ok cmds =>
      cases cmds with
      | nil =>
        simp only [hread] at h
        cases h
      | cons c cs =>
        simp only [hread] at h
        obtain ⟨baseDiff, s1, haddress, h⟩ := bind_ok_ok h fun _ _ h => by cases h
        obtain ⟨l1, s2, hexec, h⟩ := bind_ok_ok h fun _ _ h => by cases h
        rw [(readAllLoadcmds_ok hread).loadEnd] at haddress hexec
        obtain ⟨hfinish, rfl⟩ : l1.finish obj = .ok l ∧ s2 = s' := EStateM.Result.ok.inj h
        obtain rfl : l.baseDiff = baseDiff :=
          congrArg Prod.fst ((finish_place hfinish).trans (executeLoadcmds_ok hexec).1)
        exact ⟨c, cs, s1, l1, rfl, haddress, hexec, hfinish⟩

/-- **`map_elf_object`**, where it succeeds. -/
theorem mapElfObject_ok {l : LinkMap} (h : mapElfObject L obj ans s = .ok (.ok l) s') :
    ∃ c cs, Mapped L obj ans s s' l c cs := by
  obtain ⟨c, cs, s1, l1, hread, haddress, hexec, hfinish⟩ := mapElfObject_run h
  obtain ⟨hplace, hpassed⟩ := executeLoadcmds_ok hexec
  have hplace' := (finish_place hfinish).trans hplace
  exact ⟨c, cs, hread, ⟨s1, loadAddress_ok haddress, hpassed⟩,
    congrArg (fun p => p.2.1) hplace', congrArg (fun p => p.2.2) hplace'⟩

/-- The end of what is mapped for a segment. -/
def Phdr.reach (pal : PalPublicState) (ans : SegmentAnswers) (ph : Phdr) : Nat :=
  (ph.loadcmd pal).reach ans

/-- The state before an object is mapped. -/
def State.start (vmas : Vma.State Addr) : State Addr := ⟨vmas, [], none⟩

/-- The object is mapped inside its own area: every load command is as asserted, every range lies
between `l_map_start` and `l_map_end`, and those of a position-independent object lie in the area
that `reserve_dyn` has found, so that the vmas of the application are all kept. -/
structure Inside (L : Loader Addr) (obj : Object) (ans : Answers) (vmas : Vma.State Addr)
    (l : LinkMap) (s' : State Addr) : Prop where
  asserted : ∀ cs, readAllLoadcmds L.pal ans.mallocLoadcmds obj.phdrs = .ok cs →
    ∀ c ∈ cs, c.Asserted L.pal
  within : ∀ a ∈ s'.accesses, a.Within l.mapStart l.mapEnd
  area : obj.type = .dyn → ∃ begin stop, s'.area = some (begin, stop) ∧
    begin ≤ l.mapStart ∧ l.mapEnd ≤ stop
  kept : obj.type = .dyn → ∀ v, vmas.UserVma v → s'.vmas.UserVma v

/-- The object can be mapped inside its own area: no segment reaches the last page of the address
space, none ends after the last one, and there is room for the object. -/
structure Contained (L : Loader Addr) (obj : Object) (ans : Answers) (vmas : Vma.State Addr) :
    Prop where
  fits : ∀ ph ∈ obj.loads, ph.Fits L.pal
  ends : ∀ (i : Nat) (ph : Phdr), obj.loads[i]? = some ph →
    ph.reach L.pal (ans.segment i) ≤ obj.loadEnd L.pal
  room : obj.type = .dyn → ∃ addr vmas',
    bkeepMmapAnyAslr L (obj.loadEnd L.pal) reservation vmas = .ok (.ok addr) vmas'

section
omit [DecidableEq Addr]

theorem Object.loadEnd_lt (L : Loader Addr) (obj : Object) : obj.loadEnd L.pal < 2 ^ 64 := by
  have hpos := allocAlign_pos L.page
  unfold Object.loadEnd
  split
  · decide
  rename_i ph _
  have := up_le hpos L.page (n := ph.memEnd) (ph.vaddr + ph.memsz).isLt
  rw [allocAlignUpPtr_eq]
  omega

theorem allocAlignUpPtr_loadEnd (L : Loader Addr) (obj : Object) :
    Brk.allocAlignUpPtr L.pal (obj.loadEnd L.pal) = obj.loadEnd L.pal := by
  apply up_of_dvd (allocAlign_pos L.page) L.page _ (obj.loadEnd_lt L)
  unfold Object.loadEnd
  split
  · exact Nat.dvd_zero _
  · exact dvd_up _ _ _

theorem start_mono (L : Loader Addr) {i j : Nat} {ph ph' : Phdr}
    (h : obj.loads.Pairwise fun ph ph' => ph.vaddr < ph'.vaddr) (hi : obj.loads[i]? = some ph)
    (hj : obj.loads[j]? = some ph') (hij : i ≤ j) :
    (ph.loadcmd L.pal).start ≤ (ph'.loadcmd L.pal).start := by
  apply down_mono
  rcases eq_or_lt_of_le hij with rfl | hlt
  · obtain rfl := Option.some.inj (hi.symm.trans hj)
    exact le_rfl
  · obtain ⟨hi', rfl⟩ := List.getElem?_eq_some_iff.1 hi
    obtain ⟨hj', rfl⟩ := List.getElem?_eq_some_iff.1 hj
    exact le_of_lt (pairwise_iff_getElem.1 h i j hi' hj' hlt)

end

namespace Mapped
variable {vmas : Vma.State Addr} {l : LinkMap} {c : Loadcmd} {cs : List Loadcmd}
  (h : Mapped L obj ans s s' l c cs)

include h

theorem readResult : ReadResult L.pal obj.loads (c :: cs) :=
  readAllLoadcmds_ok h.read

theorem getElem?_cmds {i : Nat} {c' : Loadcmd} :
    (c :: cs)[i]? = some c' ↔ ∃ ph, obj.loads[i]? = some ph ∧ ph.loadcmd L.pal = c' := by
  rw [h.readResult.cmds, getElem?_map, Option.map_eq_some_iff]

theorem asserted_iff : (∀ c' ∈ c :: cs, c'.Asserted L.pal) ↔ ∀ ph ∈ obj.loads, ph.Fits L.pal := by
  have hread := h.readResult
  rw [hread.cmds, forall_mem_map]
  refine forall₂_congr fun ph hph => ?_
  exact Phdr.asserted_iff L.page (hread.sizes ph hph)

theorem start_le_loadEnd (hasserted : ∀ c' ∈ c :: cs, c'.Asserted L.pal) {i : Nat} {ph : Phdr}
    (hi : obj.loads[i]? = some ph) : (ph.loadcmd L.pal).start ≤ obj.loadEnd L.pal := by
  have hread := h.readResult
  have hne : obj.loads ≠ [] := by
    rintro hnil
    rw [hnil] at hi
    cases hi
  have hlast := getLast?_eq_some_getLast hne
  have hend : obj.loadEnd L.pal = ((obj.loads.getLast hne).loadcmd L.pal).allocEnd := by
    rw [Object.loadEnd, hlast]
    rfl
  have hmem : (obj.loads.getLast hne).loadcmd L.pal ∈ c :: cs := by
    rw [hread.cmds]
    exact mem_map_of_mem (getLast_mem hne)
  have has := hasserted _ hmem
  rw [getLast?_eq_getElem?] at hlast
  have hij : i ≤ obj.loads.length - 1 := by
    have := (List.getElem?_eq_some_iff.1 hi).1
    omega
  have hstart := start_mono L hread.ascending hi hlast hij
  have h1 := has.start_le
  have h2 := has.data_le
  have h3 := has.map_le
  omega

variable (haccesses : s.accesses = [])

include haccesses

theorem accesses : s'.accesses = accessesFrom L.pal ans l.baseDiff 0 (c :: cs) := by
  obtain ⟨s1, hbase, hpassed⟩ := h.loaded
  rw [hpassed.accesses, hbase.accesses, haccesses, nil_append]

/-- The ranges for the segment with number `i`. -/
theorem mem_accesses {a : Access} :
    a ∈ s'.accesses ↔ ∃ (i : Nat) (ph : Phdr), obj.loads[i]? = some ph ∧
      a ∈ (ph.loadcmd L.pal).accesses L.pal (ans.segment i) l.baseDiff := by
  rw [h.accesses haccesses, mem_accessesFrom]
  constructor
  · rintro ⟨i, c', hi, ha⟩
    obtain ⟨ph, hph, rfl⟩ := h.getElem?_cmds.1 hi
    exact ⟨i, ph, hph, by rwa [zero_add] at ha⟩
  · rintro ⟨i, ph, hi, ha⟩
    exact ⟨i, _, h.getElem?_cmds.2 ⟨ph, hi, rfl⟩, by rwa [zero_add]⟩

theorem aligned {i : Nat} {ph : Phdr} (hi : obj.loads[i]? = some ph)
    (hlt : (ph.loadcmd L.pal).start < (ph.loadcmd L.pal).mapEnd) :
    L.pal.isAllocAligned (moved l.baseDiff (ph.loadcmd L.pal).start) := by
  obtain ⟨_, -, hpassed⟩ := h.loaded
  have hmem := (h.mem_accesses haccesses).2
    ⟨i, ph, hi, Loadcmd.bkeepFile_mem L.pal (ans.segment i) l.baseDiff hlt⟩
  rw [h.accesses haccesses] at hmem
  exact hpassed.aligned _ hmem rfl

variable (hasserted : ∀ c' ∈ c :: cs, c'.Asserted L.pal)

include hasserted

/-- **All ranges of the object lie between `l_map_start` and `l_map_end`**, if no segment ends after
the last one and the object does not wrap around. -/
theorem within
    (hends : ∀ (i : Nat) (ph : Phdr), obj.loads[i]? = some ph →
      ph.reach L.pal (ans.segment i) ≤ obj.loadEnd L.pal)
    (htop : obj.loadEnd L.pal + l.baseDiff < 2 ^ 64) :
    ∀ a ∈ s'.accesses, a.Within l.mapStart l.mapEnd := by
  intro a ha
  obtain ⟨i, ph, hi, ha'⟩ := (h.mem_accesses haccesses).1 ha
  have hcmd : ph.loadcmd L.pal ∈ c :: cs :=
    mem_of_getElem? (h.getElem?_cmds.2 ⟨ph, hi, rfl⟩)
  have hreach : (ph.loadcmd L.pal).reach (ans.segment i) ≤ obj.loadEnd L.pal := hends i ph hi
  have hwithin := (hasserted _ hcmd).within L.page (by omega) (h.aligned haccesses hi) ha'
  -- the first segment starts at `l_map_start`
  obtain ⟨ph0, hfirst, rfl⟩ := h.getElem?_cmds.1 (show (c :: cs)[0]? = some c from rfl)
  have hstart := start_mono L h.readResult.ascending hfirst hi (Nat.zero_le i)
  have hle := h.start_le_loadEnd hasserted hi
  rw [h.mapStart, h.mapEnd, moved_eq htop, moved_eq (by omega)]
  obtain ⟨hlow, hhigh⟩ := hwithin
  constructor <;> omega

omit haccesses in
theorem bounds (htop : obj.loadEnd L.pal + l.baseDiff < 2 ^ 64) :
    l.baseDiff ≤ l.mapStart ∧ l.mapEnd ≤ l.baseDiff + obj.loadEnd L.pal := by
  obtain ⟨ph0, hfirst, rfl⟩ := h.getElem?_cmds.1 (show (c :: cs)[0]? = some c from rfl)
  have hle := h.start_le_loadEnd hasserted hfirst
  rw [h.mapStart, h.mapEnd, moved_eq htop, moved_eq (by omega)]
  constructor <;> omega

/-- Where all ranges end before `l_map_end`, no segment ends after the last one. -/
theorem ends
    (htop : obj.loadEnd L.pal + l.baseDiff < 2 ^ 64)
    (hwithin : ∀ a ∈ s'.accesses, a.Within l.mapStart l.mapEnd) {i : Nat} {ph : Phdr}
    (hi : obj.loads[i]? = some ph) : ph.reach L.pal (ans.segment i) ≤ obj.loadEnd L.pal := by
  apply Loadcmd.reach_le L.pal (h.start_le_loadEnd hasserted hi) htop
  intro a ha
  have hend := (hwithin a ((h.mem_accesses haccesses).2 ⟨i, ph, hi, ha⟩)).2
  rwa [h.mapEnd, moved_eq htop] at hend

end Mapped

variable {vmas : Vma.State Addr}

/-- **Mapping inside a free area keeps the vmas of the application.** -/
theorem Passed.kept {xs : List Access} {low high : Nat} (h : Passed L xs s s')
    (hsettled : Settled L.env s.vmas) (hfree : ∀ v, vmas.UserVma v → v.stop ≤ low ∨ high ≤ v.begin)
    (hhigh : high < 2 ^ 64) (hin : ∀ a ∈ xs, a.Within low high)
    (hkept : ∀ v, vmas.UserVma v → s.vmas.UserVma v) :
    ∀ v, vmas.UserVma v → s'.vmas.UserVma v := by
  let K : Vma.State Addr → Prop := fun v =>
    Settled L.env v ∧ ∀ u, vmas.UserVma u → v.UserVma u
  have hK : K s'.vmas := by
    refine h.vmas K ⟨hsettled, hkept⟩ fun a ha _ map hflags hinternal v v' hv hrun => ?_
    obtain ⟨hlow, hend⟩ := hin a ha
    have hres : Runs [.alignment] (bkeepMmapFixed L.pal L.env a.addr a.size map v) _ :=
      bkeepMmapFixed_result hv.1 hflags (by omega)
    rw [hrun] at hres
    refine ⟨hres.settled, fun u hu => ?_⟩
    refine (hres.mapped rfl (hinternal _ _) u).2 (.inr ⟨u, hv.2 u hu, ?_⟩)
    have hapart := hfree u hu
    rw [Brk.cut_of_apart (by omega)]
    exact mem_singleton_self u
  exact hK.2

/-- The area of a position-independent object: nothing of the application is there. -/
structure Area (L : Loader Addr) (vmas : Vma.State Addr) (addr loadEnd : Nat) (s : State Addr) :
    Prop where
  reserved : ∃ vmas', bkeepMmapAnyAslr L loadEnd reservation vmas = .ok (.ok addr) vmas'
  area : s.area = some (addr, addr + loadEnd)
  settled : Settled L.env s.vmas
  free : ∀ v, vmas.UserVma v → v.stop ≤ addr ∨ addr + loadEnd ≤ v.begin
  kept : ∀ v, vmas.UserVma v → s.vmas.UserVma v

/-- Where `reserve_dyn` finds an area, if it has to, the object does not wrap around. -/
theorem BaseDiff.placed (hvmas : Settled L.env vmas)
    (h : BaseDiff L obj (obj.loadEnd L.pal) (.start vmas) baseDiff s)
    (hfound : obj.type = .dyn → s.area ≠ none) :
    obj.loadEnd L.pal + baseDiff < 2 ^ 64 ∧
      (obj.type = .dyn → Area L vmas baseDiff (obj.loadEnd L.pal) s) := by
  have hlt := obj.loadEnd_lt L
  cases h with
  | exec htype =>
    refine ⟨hlt, fun hdyn => ?_⟩
    cases htype.symm.trans hdyn
  | lost htype hrun => exact absurd rfl (hfound htype)
  | @found htype _ vmas' hrun =>
    rw [allocAlignUpPtr_loadEnd L obj] at hrun ⊢
    have hres : Runs [.alignment] (bkeepMmapAnyAslr L (obj.loadEnd L.pal) reservation vmas) _ :=
      bkeepMmapAnyAslr_result hvmas
    have hrun' : bkeepMmapAnyAslr L (obj.loadEnd L.pal) reservation vmas =
      .ok (.ok baseDiff) vmas' := hrun
    rw [hrun'] at hres
    obtain ⟨_, hfree⟩ := hres.free baseDiff rfl
    exact ⟨by omega, fun _ => ⟨⟨vmas', hrun⟩, rfl, hres.settled, hfree, hres.kept⟩⟩

theorem BaseDiff.area_ne_none (h : BaseDiff L obj (obj.loadEnd L.pal) (.start vmas) baseDiff s)
    (hdyn : obj.type = .dyn)
    (hroom : ∃ addr vmas', bkeepMmapAnyAslr L (obj.loadEnd L.pal) reservation vmas = .ok (.ok addr)
      vmas') : s.area ≠ none := by
  cases h with
  | exec htype =>
    cases htype.symm.trans hdyn
  | found htype hrun => nofun
  | lost htype hrun =>
    obtain ⟨addr, vmas', hroom⟩ := hroom
    rw [allocAlignUpPtr_loadEnd L obj] at hrun
    cases hrun.symm.trans hroom

/-- **An object is mapped inside its own area exactly if no segment reaches the last page of the
address space, none ends after the last one, and there is room for it.** -/
theorem mapElfObject_inside_iff {vmas : Vma.State Addr} {l : LinkMap} (hvmas : Settled L.env vmas)
    (h : mapElfObject L obj ans (.start vmas) = .ok (.ok l) s') :
    Inside L obj ans vmas l s' ↔ Contained L obj ans vmas := by
  obtain ⟨c, cs, hmapped⟩ := mapElfObject_ok h
  obtain ⟨s1, hbase, hpassed⟩ := hmapped.loaded
  constructor
  · intro hinside
    have hasserted := hinside.asserted _ hmapped.read
    obtain ⟨htop, harea⟩ := hbase.placed hvmas fun hdyn hnone => by
      obtain ⟨begin, stop, hsome, -⟩ := hinside.area hdyn
      rw [hpassed.area, hnone] at hsome
      cases hsome
    refine ⟨hmapped.asserted_iff.1 hasserted, fun i ph hi => ?_, fun hdyn => ?_⟩
    · exact hmapped.ends rfl hasserted htop hinside.within hi
    · exact ⟨l.baseDiff, (harea hdyn).reserved⟩
  · intro hcontained
    have hasserted := hmapped.asserted_iff.2 hcontained.fits
    obtain ⟨htop, harea⟩ := hbase.placed hvmas fun hdyn =>
      hbase.area_ne_none hdyn (hcontained.room hdyn)
    have hwithin := hmapped.within rfl hasserted hcontained.ends htop
    obtain ⟨hlow, hhigh⟩ := hmapped.bounds hasserted htop
    refine ⟨fun cs' hread => ?_, hwithin, fun hdyn => ?_, fun hdyn => ?_⟩
    · rw [hmapped.read] at hread
      exact Except.ok.inj hread ▸ hasserted
    · exact ⟨_, _, hpassed.area.trans (harea hdyn).area, hlow, hhigh⟩
    have ha := harea hdyn
    refine hpassed.kept ha.settled ha.free (by omega) (fun a hmem => ?_) ha.kept
    rw [← hmapped.accesses rfl] at hmem
    have := hwithin a hmem
    exact ⟨le_trans hlow this.1, le_trans this.2 hhigh⟩

end Area

/-! ## Two objects -/

/-- Memory of the application, in the last pages of the address space. -/
def exampleMapping : Mapping := ⟨protRead, mapFixed ||| mapPrivate ||| mapAnonymous, none, 0, []⟩

/-- The vmas before the memory is mapped. -/
def exampleEmpty : Vma.State Nat :=
  { Vma.exampleState with mgr := ⟨[], [2, 3, 4, 5, 6, 7, 8, 9, 10, 11], []⟩ }

/-- The vmas before an object is loaded: the application has 16 pages. -/
def exampleVmas : Vma.State Nat :=
  match bkeepMmapFixed examplePal exampleEnv 983040 65536 exampleMapping exampleEmpty with
  | .ok _ vmas => vmas
  | .error _ vmas => vmas

def exampleLoader : Loader Nat where
  pal := examplePal
  env := exampleEnv
  aslrAddrTop := 1048576
  page := by decide
  aslr_lt := by decide
  aslr_le := by decide

/-- Nothing fails; without an area the address would be `0`. -/
def exampleAnswers : Answers where
  fsOps := true
  mallocLinkMap := true
  mallocPhdr := true
  mallocLoadcmds := true
  readPhdr := none
  addr := 0
  libnameLen := 0
  segment _ := ⟨none, false, false, none⟩

/-- A position-independent object with two segments of one page in the file; the first needs
`memsz` bytes in memory. -/
def exampleObject (memsz : BitVec 64) : Object where
  file := ⟨1, none, false⟩
  type := .dyn
  entry := 0
  phoff := 64
  phdrs := [⟨.load, pfR, 0, 0, 4096, memsz, 4096⟩, ⟨.load, pfR, 4096, 4096, 2048, 4096, 4096⟩]
  phnum_lt := show 2 < 2 ^ 16 by decide

theorem exampleVmas_settled : Settled exampleLoader.env exampleVmas := by
  have hinitial : Vma.Initial exampleEmpty :=
    ⟨⟨rfl, rfl⟩, rfl, fun _ => rfl, by decide, by decide, fun _ => rfl⟩
  have hfresh : (Vma.exampleCall .receiveUserMemory).Fresh exampleEmpty :=
    ⟨by decide, by simp [Vma.exampleCall, State.InUse, exampleEmpty, Vma.exampleState,
      MemMgr.objects], by simp [Vma.exampleCall]⟩
  have hsettled : Settled exampleEnv exampleEmpty := (Rest.initial hinitial).start hfresh
  have hok : (match bkeepMmapFixed examplePal exampleEnv 983040 65536 exampleMapping exampleEmpty
    with
    | .ok _ _ => true
    | .error _ _ => false) = true := by decide +kernel
  have hres : Runs [.alignment]
      (bkeepMmapFixed examplePal exampleEnv 983040 65536 exampleMapping exampleEmpty) _ :=
    bkeepMmapFixed_spec hsettled (by decide) (by decide)
  unfold exampleVmas
  split
  · rename_i hrun
    rw [hrun] at hres
    exact hres
  · rename_i hrun
    rw [hrun] at hok
    cases hok

/-- What a call of `map_elf_object` shows: the link map, the ranges, and the vmas. -/
def exampleRun (memsz : BitVec 64) : Option (LinkMap × State Nat) :=
  match mapElfObject exampleLoader (exampleObject memsz) exampleAnswers (.start exampleVmas) with
  | .ok (.ok l) s => some (l, s)
  | _ => none

theorem exampleRun_eq {memsz : BitVec 64} {l : LinkMap} {s : State Nat}
    (h : exampleRun memsz = some (l, s)) :
    mapElfObject exampleLoader (exampleObject memsz) exampleAnswers (.start exampleVmas) =
      .ok (.ok l) s := by
  unfold exampleRun at h
  split at h
  · rename_i hrun
    obtain ⟨rfl, rfl⟩ := Prod.mk.inj (Option.some.inj h)
    exact hrun
  · cases h

instance (s : Vma.State Nat) (v : LibosVma) : Decidable (s.UserVma v) :=
  inferInstanceAs (Decidable (∃ a ∈ s.vmaTree.nodes, s.vma a = v ∧ v.isInternal = false))

instance (low high : Nat) (a : Access) : Decidable (a.Within low high) :=
  inferInstanceAs (Decidable (_ ∧ _))

/-- Whether a call returned a value. -/
def succeeds {ε σ ε' α : Type} : EStateM.Result ε σ (Except ε' α) → Bool
  | .ok (.ok _) _ => true
  | _ => false

theorem exists_of_succeeds {ε σ ε' α : Type} {r : EStateM.Result ε σ (Except ε' α)}
    (h : succeeds r = true) : ∃ a s, r = .ok (.ok a) s := by
  unfold succeeds at h
  split at h
  · exact ⟨_, _, rfl⟩
  · cases h

theorem exampleRoom : ∃ addr vmas, bkeepMmapAnyAslr exampleLoader
    ((exampleObject 4096).loadEnd examplePal) reservation exampleVmas = .ok (.ok addr) vmas := by
  have hroom : succeeds (bkeepMmapAnyAslr exampleLoader ((exampleObject 4096).loadEnd examplePal)
    reservation exampleVmas) = true := by decide +kernel
  exact exists_of_succeeds hroom

/-- The first segment needs one page: the object is mapped in the two pages below the memory of the
application, which is kept. -/
theorem mapElfObject_inside_iff_two_pages : ∃ l s',
    mapElfObject exampleLoader (exampleObject 4096) exampleAnswers (.start exampleVmas) =
      .ok (.ok l) s' ∧ l.mapStart = 974848 ∧ l.mapEnd = 983040 ∧ s'.accesses.length = 7 ∧
    Inside exampleLoader (exampleObject 4096) exampleAnswers exampleVmas l s' := by
  have hobs : (exampleRun 4096).map (fun r => (r.1.mapStart, r.1.mapEnd, r.2.accesses.length)) =
      some (974848, 983040, 7) := by decide +kernel
  obtain ⟨⟨l, s'⟩, hrun, heq⟩ := Option.map_eq_some_iff.1 hobs
  simp only [Prod.mk.injEq] at heq
  refine ⟨l, s', exampleRun_eq hrun, heq.1, heq.2.1, heq.2.2,
    (mapElfObject_inside_iff exampleVmas_settled (exampleRun_eq hrun)).2 ⟨?_, ?_, fun _ => ?_⟩⟩
  · intro ph hph
    refine .inl ?_
    have hall : ∀ ph ∈ (exampleObject 4096).loads,
        ph.vaddr.toNat + ph.memsz.toNat ≤ 2 ^ 64 - examplePal.allocAlign := by decide
    exact hall ph hph
  · intro i ph hi
    have hall : ∀ ph ∈ (exampleObject 4096).loads, ph.reach examplePal ⟨none, false, false, none⟩ ≤
          (exampleObject 4096).loadEnd examplePal := by decide
    exact hall ph (mem_of_getElem? hi)
  · exact exampleRoom

/-- The first segment needs four pages, and two are reserved: the next two pages belong to the
application, and are replaced. -/
theorem mapElfObject_replaces : ∃ l s',
    mapElfObject exampleLoader (exampleObject 16384) exampleAnswers (.start exampleVmas) =
      .ok (.ok l) s' ∧
    (∃ a ∈ s'.accesses, ¬ a.Within l.mapStart l.mapEnd) ∧
    exampleVmas.UserVma (exampleMapping.vma 983040 1048576) ∧
    ¬ s'.vmas.UserVma (exampleMapping.vma 983040 1048576) := by
  have hobs : (exampleRun 16384).map (fun r => decide (
      (∃ a ∈ r.2.accesses, ¬ a.Within r.1.mapStart r.1.mapEnd) ∧
      exampleVmas.UserVma (exampleMapping.vma 983040 1048576) ∧
      ¬ r.2.vmas.UserVma (exampleMapping.vma 983040 1048576))) = some true := by decide +kernel
  obtain ⟨⟨l, s'⟩, hrun, heq⟩ := Option.map_eq_some_iff.1 hobs
  exact ⟨l, s', exampleRun_eq hrun, of_decide_eq_true heq⟩

end Elf
