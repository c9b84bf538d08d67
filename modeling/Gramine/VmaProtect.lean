import Gramine.VmaView

/-!
# What a change of protection does to the map

`_vma_bkeep_change` gives the pages of its range the new protection. Where one vma
extends beyond the range on both sides, the piece behind the range is split off after the
vma was changed, and `vma_update_prot` is then called to give it back its protection.
That does not undo everything: the piece keeps `VMA_TAINTED`, and it gets it if its own
protection has `PROT_WRITE`.
-/

open IntervalList List

namespace Vma

open LibosVma

variable {Addr : Type} [DecidableEq Addr] {s s' : State Addr} {l l1 l2 xs ys : List Addr}
  {a b : Addr} {pal : PalPublicState} {begin stop x : Nat} {prot : Flags}

/-- What `vma_update_prot` makes of a page. -/
def Page.updateProt (p : Page) (prot : Flags) : Page :=
  { p with
    prot := prot &&& (protRead ||| protWrite ||| protExec)
    flags := if p.file.isSome ∧ has prot protWrite then p.flags ||| vmaTainted else p.flags }

theorem LibosVma.pageAt_updateProt (v : LibosVma) (prot : Flags) (x : Nat) :
    (v.updateProt prot).pageAt x = (v.pageAt x).updateProt prot := rfl

theorem or_vmaTainted_iff {flags : Flags} :
    flags ||| vmaTainted = flags ↔ has flags vmaTainted = true := by
  have hbit : vmaTainted = BitVec.twoPow 32 30 := by decide
  rw [has, hbit, decide_eq_true_eq, BitVec.and_twoPow]
  by_cases h30 : flags.getLsbD 30 = true
  · rw [if_pos h30]
    refine iff_of_true (BitVec.eq_of_getLsbD_eq fun i _ => ?_) (by decide)
    rw [BitVec.getLsbD_or, BitVec.getLsbD_twoPow]
    by_cases hi : 30 = i
    · rw [← hi, h30, Bool.true_or]
    · simp [hi]
  · rw [if_neg h30]
    refine iff_of_false (fun h => h30 ?_) fun h => h rfl
    rw [← h, BitVec.getLsbD_or]
    exact Bool.or_true _

/-! ## The pages of the pieces -/

/-- What the pieces of a vma say about one of its addresses after the change. -/
def LibosVma.changedPage (v : LibosVma) (begin stop : Nat) (prot : Flags) (x : Nat) : Page :=
  if begin ≤ x ∧ x < stop then (v.pageAt x).updateProt prot
  else if (v.begin < begin ∧ stop < v.stop) ∧ stop ≤ x then
    ((v.pageAt x).updateProt prot).updateProt v.prot
  else v.pageAt x

variable {v : LibosVma}

theorem LibosVma.changedPage_low (hx : x < begin) (hrange : begin < stop) :
    v.changedPage begin stop prot x = v.pageAt x := by
  rw [changedPage, if_neg (by omega), if_neg (by omega)]

theorem LibosVma.changedPage_inside (hx : begin ≤ x) (hx' : x < stop) :
    v.changedPage begin stop prot x = (v.pageAt x).updateProt prot := by
  rw [changedPage, if_pos ⟨hx, hx'⟩]

/-- Behind the range nothing is changed, unless the vma extends beyond it on both
sides. -/
theorem LibosVma.changedPage_high (hx : stop ≤ x) (hv : begin ≤ v.begin ∨ v.stop ≤ stop) :
    v.changedPage begin stop prot x = v.pageAt x := by
  rw [changedPage, if_neg (by omega), if_neg (by omega)]

variable {p : Page}

theorem covers_pieces_iff (m : Nat) {w1 w2 : LibosVma} {q q1 q2 : Page}
    (h1 : w1.begin = v.begin ∧ w1.stop = m) (h2 : w2.begin = m ∧ w2.stop = v.stop)
    (hm : v.begin < m ∧ m < v.stop) (hq1 : v.begin ≤ x → x < m → q1 = q)
    (hq2 : m ≤ x → x < v.stop → q2 = q) :
    (w1.Covers x ∧ q1 = p ∨ w2.Covers x ∧ q2 = p) ↔ v.Covers x ∧ q = p := by
  unfold LibosVma.Covers
  rw [h1.1, h1.2, h2.1, h2.2]
  constructor
  · rintro (⟨hcov, rfl⟩ | ⟨hcov, rfl⟩)
    · exact ⟨by omega, (hq1 hcov.1 hcov.2).symm⟩
    · exact ⟨by omega, (hq2 hcov.1 hcov.2).symm⟩
  · rintro ⟨hcov, rfl⟩
    by_cases hx : x < m
    · exact .inl ⟨⟨hcov.1, hx⟩, hq1 hcov.1 hx⟩
    · exact .inr ⟨⟨not_lt.1 hx, hcov.2⟩, hq2 (not_lt.1 hx) hcov.2⟩

variable {vs : List LibosVma}

theorem exists_changedPage_iff (hbegin : ∀ v ∈ vs, begin ≤ v.begin)
    (hstop : ∀ v ∈ vs, stop ≤ v.begin) :
    (∃ v ∈ vs, v.Covers x ∧ v.changedPage begin stop prot x = p) ↔
      ∃ v ∈ vs, v.Covers x ∧ v.pageAt x = p := by
  refine exists_congr fun v => and_congr_right fun hv => and_congr_right fun hcov => ?_
  rw [changedPage_high ((hstop v hv).trans hcov.1) (.inl (hbegin v hv))]

theorem exists_changeUpTo_iff (hvs : Ordered LibosVma.begin LibosVma.stop vs)
    (hbegin : ∀ v ∈ vs, begin ≤ v.begin) :
    (∃ w ∈ changeUpTo stop prot vs, w.Covers x ∧ w.pageAt x = p) ↔
      ∃ v ∈ vs, v.Covers x ∧ v.changedPage begin stop prot x = p := by
  induction vs with
  | nil => simp [changeUpTo]
  | cons v vs ih =>
    obtain ⟨hne, hafter, hvs⟩ := Ordered.cons_iff.1 hvs
    have hv : begin ≤ v.begin := hbegin v mem_cons_self
    have hbegin' : ∀ w ∈ vs, begin ≤ w.begin := fun w hw => hbegin w (mem_cons_of_mem _ hw)
    rw [changeUpTo]
    by_cases hend : v.stop ≤ stop
    · rw [if_pos hend]
      simp only [mem_cons, exists_eq_or_imp, ih hvs hbegin']
      refine or_congr_left (and_congr_right fun hcov => ?_)
      rw [changedPage_inside (hv.trans hcov.1) (hcov.2.trans_le hend), pageAt_updateProt]
    rw [if_neg hend]
    have hbehind' : ∀ w ∈ vs, stop ≤ w.begin := fun w hw =>
      (Nat.le_of_not_le hend).trans (hafter w hw)
    by_cases hbehind : stop ≤ v.begin
    · rw [if_pos hbehind]
      simp only [mem_cons, exists_eq_or_imp, exists_changedPage_iff hbegin' hbehind']
      refine or_congr_left (and_congr_right fun hcov => ?_)
      rw [changedPage_high (hbehind.trans hcov.1) (.inl hv)]
    rw [if_neg hbehind]
    simp only [mem_cons, exists_eq_or_imp, exists_changedPage_iff hbegin' hbehind']
    rw [← or_assoc]
    refine or_congr_left (covers_pieces_iff stop ⟨rfl, rfl⟩ ⟨rfl, rfl⟩
      ⟨not_le.1 hbehind, not_le.1 hend⟩ (fun hx hx' => ?_) fun hx _ => ?_)
    · rw [changedPage_inside (hv.trans hx) hx']
      rfl
    · rw [changedPage_high hx (.inl hv),
        pageAt_dropTo (Nat.le_of_not_le hbehind) hx]

theorem exists_changeFrom_iff (hvs : Ordered LibosVma.begin LibosVma.stop (v :: vs))
    (hv : v.begin ≤ begin) (hv' : begin < v.stop) (hrange : begin < stop) :
    (∃ w ∈ changeFrom begin stop prot v vs, w.Covers x ∧ w.pageAt x = p) ↔
      ∃ w ∈ v :: vs, w.Covers x ∧ w.changedPage begin stop prot x = p := by
  obtain ⟨-, hafter, hrest⟩ := Ordered.cons_iff.1 hvs
  have hbegin : ∀ w ∈ vs, begin ≤ w.begin := fun w hw =>
    (hv'.le).trans (hafter w hw)
  rw [changeFrom]
  by_cases hlow : v.begin < begin
  · rw [if_pos hlow]
    by_cases hhigh : stop < v.stop
    · rw [if_pos hhigh]
      have hmid : ∀ p,
          (({ (v.dropTo begin).updateProt prot with stop := stop } : LibosVma).Covers x ∧
            ({ (v.dropTo begin).updateProt prot with stop := stop } : LibosVma).pageAt x = p ∨
          ((((v.dropTo begin).updateProt prot).dropTo stop).updateProt v.prot).Covers x ∧
            ((((v.dropTo begin).updateProt prot).dropTo stop).updateProt v.prot).pageAt x = p) ↔
          (v.dropTo begin).Covers x ∧ v.changedPage begin stop prot x = p := fun p => by
        refine covers_pieces_iff stop ⟨rfl, rfl⟩ ⟨rfl, rfl⟩ ⟨hrange, hhigh⟩ (fun hx hx' => ?_)
          fun hx _ => ?_
        · have hx : begin ≤ x := hx
          rw [changedPage_inside hx hx', ← pageAt_dropTo hv hx]
          rfl
        · rw [changedPage, if_neg (by omega), if_pos ⟨⟨hlow, hhigh⟩, hx⟩,
            pageAt_updateProt, pageAt_dropTo hrange.le hx,
            pageAt_updateProt, pageAt_dropTo hv (by omega)]
      have hbehind : ∀ w ∈ vs, stop ≤ w.begin := fun w hw =>
        (hhigh.le).trans (hafter w hw)
      simp only [mem_cons, exists_eq_or_imp, exists_changedPage_iff hbegin hbehind]
      rw [← or_assoc (c := ∃ w, _), hmid, ← or_assoc]
      refine or_congr_left (covers_pieces_iff begin ⟨rfl, rfl⟩ ⟨rfl, rfl⟩ ⟨hlow, hv'⟩
        (fun _ hx => ?_) fun _ _ => rfl)
      rw [changedPage_low hx hrange]
      rfl
    · rw [if_neg hhigh]
      simp only [mem_cons, exists_eq_or_imp, exists_changeUpTo_iff hrest hbegin]
      rw [← or_assoc]
      refine or_congr_left (covers_pieces_iff begin ⟨rfl, rfl⟩ ⟨rfl, rfl⟩ ⟨hlow, hv'⟩
        (fun _ hx => ?_) fun hx hx' => ?_)
      · rw [changedPage_low hx hrange]
        rfl
      · rw [changedPage_inside hx (by omega), pageAt_updateProt,
          pageAt_dropTo hv hx]
  · rw [if_neg hlow]
    refine exists_changeUpTo_iff hvs ?_
    exact forall_mem_cons.2 ⟨not_lt.1 hlow, hbegin⟩

omit [DecidableEq Addr] in
theorem Inv.page_changed {l' xs' : List Addr} (h : Inv s (l1 ++ a :: l2) xs) (h' : Inv s' l' xs')
    (hbefore : ∀ y ∈ l1, (s.vma y).stop ≤ begin)
    (hfirst : (s.vma a).begin ≤ begin ∧ begin < (s.vma a).stop) (hrange : begin < stop)
    (hvmas : l'.map s'.vma = l1.map s.vma ++ changeFrom begin stop prot (s.vma a) (l2.map s.vma)) :
    s'.page x = some p ↔ ∃ v, s.HasVma v ∧ v.Covers x ∧ v.changedPage begin stop prot x = p := by
  have hord : Ordered LibosVma.begin LibosVma.stop (s.vma a :: l2.map s.vma) := by
    have := h.ordered
    rw [map_append] at this
    exact (Ordered.append_iff.1 this).2.1
  have hlow : (∃ v ∈ l1.map s.vma, v.Covers x ∧ v.pageAt x = p) ↔
      ∃ v ∈ l1.map s.vma, v.Covers x ∧ v.changedPage begin stop prot x = p := by
    refine exists_congr fun v => and_congr_right fun hv => and_congr_right fun hcov => ?_
    obtain ⟨y, hy, rfl⟩ := mem_map.1 hv
    rw [changedPage_low (hcov.2.trans_le (hbefore y hy)) hrange]
  rw [h'.page_eq_some, hvmas]
  simp only [h.hasVma_iff, map_append, mem_append, or_and_right, exists_or]
  rw [hlow, exists_changeFrom_iff hord hfirst.1 hfirst.2 hrange, map_cons]

/-! ## The change is exact -/

/-- The pages of the range have the new protection, and all others are as before. -/
structure ChangesExactly (s s' : State Addr) (begin stop : Nat) (prot : Flags) : Prop where
  inside : ∀ x, begin ≤ x → x < stop →
    ∃ p, s.page x = some p ∧ s'.page x = some (p.updateProt prot)
  outside : ∀ x, ¬ (begin ≤ x ∧ x < stop) → s'.page x = s.page x

/-- To change a vma and to give it back its protection leaves no trace: the protection has
only the bits that `vma_update_prot` keeps, and if a file is mapped and made writable, or
is writable, the vma is already tainted. -/
def LibosVma.Restored (v : LibosVma) (prot : Flags) : Prop :=
  v.prot &&& (protRead ||| protWrite ||| protExec) = v.prot ∧
    (v.file.isSome → (has prot protWrite ∨ has v.prot protWrite) → has v.flags vmaTainted)

instance (v : LibosVma) (prot : Flags) : Decidable (v.Restored prot) :=
  inferInstanceAs (Decidable (_ ∧ _))

/-- A vma that extends beyond the range on both sides can be changed and restored. -/
def State.OuterRestored (s : State Addr) (begin stop : Nat) (prot : Flags) : Prop :=
  ∀ v, s.HasVma v → v.begin < begin → stop < v.stop → v.Restored prot

theorem LibosVma.restored_iff :
    ((v.pageAt x).updateProt prot).updateProt v.prot = v.pageAt x ↔ v.Restored prot := by
  unfold Page.updateProt pageAt LibosVma.Restored
  simp only
  cases hfile : v.file.isSome with
  | false => simp
  | true =>
    by_cases hp : has prot protWrite = true <;> by_cases hv : has v.prot protWrite = true <;>
      simp [hp, or_vmaTainted_iff, BitVec.or_assoc]

/-- Outside the range a page is as before, if vmas beyond it on both sides are restored. -/
theorem LibosVma.changedPage_outside (hx : ¬ (begin ≤ x ∧ x < stop))
    (hv : v.begin < begin → stop < v.stop → v.Restored prot) :
    v.changedPage begin stop prot x = v.pageAt x := by
  rw [changedPage]
  split_ifs with houter
  · exact restored_iff.2 (hv houter.1.1 houter.1.2)
  · rfl

/-- **What `_vma_bkeep_change` does to the map**: if it fails nothing changes; if it
succeeds the pages of the range are mapped and changed, and the others are left as they
are unless a vma extends beyond the range on both sides and cannot be restored. It does
not return if the range begins inside the last vma and ends with it. -/
theorem vmaBkeepChange_exact_iff (pal : PalPublicState) (isInternal : Bool) {c : Addr}
    (h : Good ys s l (b :: c :: xs)) (hb : s.vma b = .zero) (hc : s.vma c = .zero)
    (hrange : begin < stop) (halign : pal.isAllocAligned begin ∧ pal.isAllocAligned stop)
    (hprot : has prot protGrowsdown = false) :
    match vmaBkeepChange pal begin stop prot isInternal b c s with
    | .ok (.ok (), _) s' =>
      (∀ x, begin ≤ x → x < stop → ∃ p, s.page x = some p ∧ s'.page x = some (p.updateProt prot)) ∧
      (ChangesExactly s s' begin stop prot ↔ s.OuterRestored begin stop prot)
    | .ok (.error _, _) s' => s' = s
    | .error e _ => e = .noNextVma ∧
      ∃ v, s.HasVma v ∧ v.begin < begin ∧ v.stop = stop ∧ ∀ w, s.HasVma w → w.stop ≤ v.stop := by
  have hres := vmaBkeepChange_spec prot isInternal h hb hc hrange halign
  generalize vmaBkeepChange pal begin stop prot isInternal b c s = res at hres ⊢
  cases hres with
  | failed e => rfl
  | last hl hlt hstop hinv =>
    rename_i s' l' xs' l1 a
    subst hl
    refine ⟨rfl, s.vma a, h.inv.hasVma_iff.2 (by simp), hlt, hstop.symm, fun w hw => ?_⟩
    obtain ⟨y, hy, rfl⟩ := mem_map.1 (h.inv.hasVma_iff.1 hw)
    rcases mem_append.1 hy with hy | hy
    · have hbefore := h.inv.before y hy
      omega
    · exact mem_singleton.1 hy ▸ le_rfl
  | changed hl good before first covered vmas =>
    rename_i r1 r2 s' l' l1 l2 a
    subst hl
    have hold : ∀ x p, s.page x = some p ↔ ∃ v, s.HasVma v ∧ v.Covers x ∧ v.pageAt x = p := by
      intro x p
      simp [h.inv.page_eq_some, h.inv.hasVma_iff]
    have hnew : ∀ x p, s'.page x = some p ↔
        ∃ v, s.HasVma v ∧ v.Covers x ∧ v.changedPage begin stop prot x = p := fun x p =>
      h.inv.page_changed good.inv before first hrange (vmas hprot)
    have hinside : ∀ x, begin ≤ x → x < stop →
        ∃ p, s.page x = some p ∧ s'.page x = some (p.updateProt prot) := by
      intro x hx hx'
      obtain ⟨y, hy, hcov⟩ := covered x (first.1.trans hx) hx'
      have hvma : s.HasVma (s.vma y) :=
        h.inv.hasVma_iff.2 (mem_map_of_mem (mem_append_right _ hy))
      refine ⟨_, (hold x _).2 ⟨_, hvma, hcov, rfl⟩, (hnew x _).2 ⟨_, hvma, hcov, ?_⟩⟩
      exact changedPage_inside hx hx'
    refine ⟨hinside, fun hexact v hv hlow hhigh => ?_, fun hres => ⟨hinside, fun x hx => ?_⟩⟩
    · -- the first page behind the range shows whether the vma was restored
      have hcov : v.Covers stop := ⟨by omega, hhigh⟩
      have hpage : s'.page stop = some (v.changedPage begin stop prot stop) :=
        (hnew stop _).2 ⟨v, hv, hcov, rfl⟩
      rw [hexact.outside stop (by omega), (hold stop _).2 ⟨v, hv, hcov, rfl⟩,
        changedPage, if_neg (by omega), if_pos ⟨⟨hlow, hhigh⟩, le_rfl⟩] at hpage
      exact restored_iff.1 (Option.some.inj hpage).symm
    · refine Option.ext fun p => (hnew x p).trans (Iff.trans ?_ (hold x p).symm)
      refine exists_congr fun v => and_congr_right fun hv => and_congr_right fun _ => ?_
      rw [changedPage_outside hx (hres v hv)]

/-- Three pages in use, and two vmas taken. -/
def exampleSpare : Option (Nat × Nat × State Nat) :=
  (exampleAlloc exampleThree).bind fun (c, s1) => (exampleAlloc s1).map fun (b, s2) => (b, c, s2)

/-- The page in the middle is made writable; no file is mapped there, and the vma around it
has no other bits in its protection. -/
def exampleChanges (b c : Nat) (s : State Nat) : Bool :=
  (s.vmaTree.nodes.all fun a => (s.vma a).Restored protWrite) &&
    match vmaBkeepChange examplePal 69632 73728 protWrite true b c s with
    | .ok (.ok (), _) _ => true
    | _ => false

/-- So the pages beside it are left as they are. -/
theorem vmaBkeepChange_exact_middle : ∃ b c s r s', exampleSpare = some (b, c, s) ∧
    vmaBkeepChange examplePal 69632 73728 protWrite true b c s = .ok (.ok (), r) s' ∧
    ChangesExactly s s' 69632 73728 protWrite := by
  have hsome : exampleSpare.any (fun p => exampleChanges p.1 p.2.1 p.2.2) = true := by
    decide +kernel
  obtain ⟨⟨b, c, s⟩, hs, hchanges⟩ := (Option.any_eq_true ..).1 hsome
  obtain ⟨⟨c', s1⟩, hc, hs1⟩ := Option.bind_eq_some_iff.1 hs
  obtain ⟨⟨b', s2⟩, hb, heq⟩ := Option.map_eq_some_iff.1 hs1
  obtain rfl : s2 = s := congrArg (fun p => p.2.2) heq
  obtain rfl : c' = c := congrArg (fun p => p.2.1) heq
  obtain rfl : b' = b := congrArg Prod.fst heq
  obtain ⟨l0, hgood0⟩ := exampleThree_good
  obtain ⟨-, hzero1, -, l1, hgood1⟩ := exampleAlloc_spec hgood0 hc
  obtain ⟨-, hzero2, hsame, l2, hgood2⟩ := exampleAlloc_spec hgood1 hb
  obtain ⟨hrestored, hret⟩ := Bool.and_eq_true_iff.1 hchanges
  have hspec := vmaBkeepChange_exact_iff examplePal true hgood2 hzero2
    ((hsame _ mem_cons_self).trans hzero1) (show 69632 < 73728 by decide)
    ⟨by decide, by decide⟩ (show has protWrite protGrowsdown = false by decide)
  split at hret
  · rename_i r s' hrun
    rw [hrun] at hspec
    refine ⟨b', c', s2, r, s', hs, hrun, hspec.2.2 ?_⟩
    rintro v ⟨a, ha, rfl⟩ - -
    exact of_decide_eq_true (all_eq_true.1 hrestored a ha)
  · cases hret

/-- A file of three pages, mapped for reading. -/
def exampleFileMapping : Mapping :=
  ⟨protRead, mapPrivate ||| mapFixed, some ⟨0, some 0, true⟩, 0, []⟩

/-- The file is mapped, and then its second page is made writable. -/
def exampleFileChange : Option (Option Page × Except Errno Unit × Option Page) :=
  match bkeepMmapFixed examplePal exampleEnv 65536 12288 exampleFileMapping exampleState with
  | .ok (.ok ()) s =>
    match bkeepMprotect examplePal exampleEnv 69632 4096 (protRead ||| protWrite) false s with
    | .ok ret s' => some (s.page 73728, ret, s'.page 73728)
    | .error _ _ => none
  | _ => none

/-- The third page is tainted by that, although nobody can have written to it. -/
theorem page_behind_range_tainted : exampleFileChange =
    some (some ⟨protRead, mapPrivate, some ⟨0, some 0, true⟩, 8192⟩, .ok (),
      some ⟨protRead, mapPrivate ||| vmaTainted, some ⟨0, some 0, true⟩, 8192⟩) := by
  decide +kernel

end Vma
