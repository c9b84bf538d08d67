import Gramine.VmaMap

/-!
# Changing protections

`_vma_bkeep_change` first checks that the range is covered, and then splits the vmas
at its ends and changes those in between. When the range begins inside the last vma and
ends with it, there is no next vma and `assert(next)` fails; the tree is in order even then.
-/

open IntervalList Function List

namespace Vma

variable {Addr : Type} [DecidableEq Addr] {s s' : State Addr} {l l1 l2 xs ys : List Addr}
  {a b : Addr} {env : Env Addr} {pal : PalPublicState} {begin stop : Nat}

namespace Good

theorem modify {v : LibosVma} (h : Good ys s (l1 ++ a :: l2) xs)
    (hbegin : v.begin = (s.vma a).begin) (hstop : v.stop = (s.vma a).stop)
    (hinode : v.inode = (s.vma a).inode) :
    Good ys { s with vma := update s.vma a v } (l1 ++ a :: l2) xs := by
  refine ⟨h.inv.modify (n := s.totalMemorySize) (update_self ..)
    (fun x hx => update_of_ne hx _ _) hbegin.symm.le ?_ hstop.le
    hinode ?_, h.pool.same ⟨rfl, rfl, rfl⟩⟩
  · rw [hbegin, hstop]
    exact h.inv.range
  · rw [hbegin, hstop]

/-- **A vma is split in two**, and the second part put in the tree. -/
theorem split {addr : Nat} {vma' : Addr → LibosVma} {v w : LibosVma}
    (h : Good ys s (l1 ++ a :: l2) (b :: xs)) (hb : (s.vma b).inode = none) (hv : vma' a = v)
    (hw : vma' b = w) (hother : ∀ x, x ≠ a → x ≠ b → vma' x = s.vma x)
    (hv1 : v.begin = (s.vma a).begin) (hv2 : v.stop = addr) (hv3 : v.inode = (s.vma a).inode)
    (hw1 : w.begin = addr) (hw2 : w.stop = (s.vma a).stop) (hw3 : w.inode = (s.vma a).inode)
    (hlt : (s.vma a).begin < addr) (hlt' : addr < (s.vma a).stop) :
    ∃ t s', treeCall (.insert b)
        { s with vma := vma', numMmapped := bump (s.vma a).file s.numMmapped } = .ok ⟨⟩ s' ∧
      s' = { s with
        vma := vma'
        numMmapped := bump (s.vma a).file s.numMmapped
        vmaTree := t } ∧
      Good ys s' (l1 ++ a :: b :: l2) xs := by
  obtain ⟨t, hrun, hinv⟩ := h.inv.split hb hv hw hother hv1.symm.le
    (by omega) (by omega) (by omega) (by omega) hv3 hw3
  refine ⟨t, _, hrun, rfl, hinv s.totalMemorySize (by omega), ?_⟩
  refine (h.pool.perm (List.Perm.append_left ys ?_)).same ⟨rfl, rfl, rfl⟩
  simp only [append_assoc]
  exact (perm_middle.cons a).append_left l1

end Good

/-! ## The check -/

/-- The loop that checks the range changes nothing, and finds an error unless the vmas
cover the range to its end. -/
theorem checkChange_spec (prot : Flags) (isInternal : Bool) {fuel : Nat} {isContinuous : Bool}
    (h : TreeHolds s.vmaTree (l1 ++ a :: l2)) (hfuel : l2.length < fuel) :
    ∃ r, checkChange stop prot isInternal fuel a isContinuous s = .ok r s ∧
      (r = .ok () → isContinuous = true ∧ (∃ x ∈ a :: l2, stop ≤ (s.vma x).stop) ∧
        ∀ x, (s.vma a).begin ≤ x → x < stop →
          ∃ y ∈ a :: l2, (s.vma y).begin ≤ x ∧ x < (s.vma y).stop) := by
  induction fuel generalizing l1 l2 a isContinuous with
  | zero => exact absurd hfuel (Nat.not_lt_zero _)
  | succ fuel ih =>
    rw [checkChange, getVma_bind]
    cases (s.vma a).changeError prot isInternal with
    | some e => exact ⟨_, rfl, fun hr => by cases hr⟩
    | none =>
      by_cases hend : stop ≤ (s.vma a).stop
      · simp only [if_pos hend]
        refine ⟨_, rfl, fun hr => ?_⟩
        cases isContinuous with
        | false => cases hr
        | true =>
          refine ⟨rfl, ⟨a, mem_cons_self, hend⟩, fun x hx hxstop => ?_⟩
          exact ⟨a, mem_cons_self, hx, hxstop.trans_le hend⟩
      · simp only [if_neg hend]
        rw [bind_of_ok h.getNextVma]
        cases l2 with
        | nil => exact ⟨_, rfl, fun hr => by cases hr⟩
        | cons c l2 =>
          obtain ⟨r, hrun, hr⟩ := ih
            (show TreeHolds s.vmaTree ((l1 ++ [a]) ++ c :: l2) by simpa using h)
            (Nat.lt_of_succ_lt_succ hfuel)
          refine ⟨r, hrun, fun hok => ?_⟩
          obtain ⟨hcont, ⟨y, hy, hstop⟩, hcover⟩ := hr hok
          rw [Bool.and_eq_true_iff, decide_eq_true_eq] at hcont
          refine ⟨hcont.1, ⟨y, mem_cons_of_mem _ hy, hstop⟩, fun x hx hxstop => ?_⟩
          -- the next vma begins where this one ends
          by_cases hxa : x < (s.vma a).stop
          · exact ⟨a, mem_cons_self, hx, hxa⟩
          · obtain ⟨z, hz, hcov⟩ := hcover x (by omega) hxstop
            exact ⟨z, mem_cons_of_mem _ hz, hcov⟩

/-! ## The change -/

/-- The vmas from one in the range on, after the change: those that end in the range are
changed, and of the one that ends behind it the first part is. -/
def changeUpTo (stop : Nat) (prot : Flags) : List LibosVma → List LibosVma
  | [] => []
  | v :: vs =>
    if v.stop ≤ stop then v.updateProt prot :: changeUpTo stop prot vs
    else if stop ≤ v.begin then v :: vs
    else ({ v with stop := stop } : LibosVma).updateProt prot :: v.dropTo stop :: vs

/-- The vmas from the one on in which the range begins. Where the vma extends beyond the
range on both sides, what is left behind the range is split off the part that was already
changed. -/
def changeFrom (begin stop : Nat) (prot : Flags) (v : LibosVma) (vs : List LibosVma) :
    List LibosVma :=
  if v.begin < begin then
    { v with stop := begin } ::
      if stop < v.stop then
        ({ (v.dropTo begin).updateProt prot with stop := stop } : LibosVma) ::
          (((v.dropTo begin).updateProt prot).dropTo stop).updateProt v.prot :: vs
      else (v.dropTo begin).updateProt prot :: changeUpTo stop prot vs
  else changeUpTo stop prot (v :: vs)

theorem splitChange_spec (prot : Flags) (h : Good ys s (l1 ++ a :: l2) (b :: xs))
    (hb : (s.vma b).inode = none) (hlt : (s.vma a).begin < stop) (hlt' : stop < (s.vma a).stop) :
    ∃ s', (do
        splitVma a b stop
        modifyVma a fun w => w.updateProt prot
        treeCall (.insert b)
        pure none : M Addr (Option Addr)) s = .ok none s' ∧
      Good ys s' (l1 ++ a :: b :: l2) xs ∧
      (l1 ++ a :: b :: l2).map s'.vma = l1.map s.vma ++
        (({ s.vma a with stop := stop } : LibosVma).updateProt prot ::
          (s.vma a).dropTo stop :: l2.map s.vma) := by
  have hab : a ≠ b := h.inv.ne_of_mem (by simp)
  have hother : ∀ x, x ≠ a → x ≠ b → update (update s.vma b
      ((s.vma a).dropTo stop)) a (({ s.vma a with stop := stop } : LibosVma).updateProt prot) x =
      s.vma x := fun x hxa hxb => by
    rw [update_of_ne hxa, update_of_ne hxb]
  obtain ⟨t, s', hrun, hs', hgood⟩ := h.split hb
    (update_self a (({ s.vma a with stop := stop } : LibosVma).updateProt prot)
      (update s.vma b ((s.vma a).dropTo stop)))
    ((update_of_ne hab.symm _ _).trans (update_self ..)) hother
    rfl rfl rfl rfl rfl rfl hlt hlt'
  refine ⟨s', ?_, hgood, ?_⟩
  · rw [bind_of_ok (splitVma_eq hab hlt hlt'), modifyVma_bind]
    simp only [update_self, update_idem]
    exact bind_of_ok hrun
  rw [map_congr_of_two (by rw [hs']; exact hother) hgood.inv.tree.nodup, hs']
  simp [update_of_ne hab.symm]

theorem changeLoop_spec (prot : Flags) {fuel : Nat} (h : Good ys s (l1 ++ a :: l2) (b :: xs))
    (hb : (s.vma b).inode = none) (hreach : ∃ x ∈ a :: l2, stop ≤ (s.vma x).stop)
    (hfuel : l2.length < fuel) :
    ∃ r s' l', changeLoop stop prot b fuel a s = .ok r s' ∧ Good ys s' l' (r.toList ++ xs) ∧
      l'.map s'.vma = l1.map s.vma ++ changeUpTo stop prot ((a :: l2).map s.vma) := by
  induction fuel generalizing s l1 l2 a with
  | zero => exact absurd hfuel (Nat.not_lt_zero _)
  | succ fuel ih =>
    rw [changeLoop, getVma_bind]
    by_cases hend : (s.vma a).stop ≤ stop
    · have hgood := h.modify (v := (s.vma a).updateProt prot) rfl rfl rfl
      have hnd := h.inv.nodup
      simp only [append_assoc, cons_append, nodup_middle, nodup_cons, mem_append, not_or] at hnd
      have hmap : ∀ k : List Addr, a ∉ k →
          k.map (update s.vma a ((s.vma a).updateProt prot)) = k.map s.vma := fun k hk =>
        map_congr_of_notMem (fun x hx => update_of_ne hx _ _) hk
      rw [if_pos hend, modifyVma_bind, bind_of_ok hgood.inv.tree.getNextVma]
      cases l2 with
      | nil =>
        -- the range was checked to reach its end, so this is where it ends
        obtain ⟨x, hx, hstop⟩ := hreach
        obtain rfl := mem_singleton.1 hx
        refine ⟨some b, _, _, assertion_bind (Nat.le_antisymm hend hstop) .., hgood, ?_⟩
        simp [hmap l1 hnd.1.1, changeUpTo, if_pos hend]
      | cons c l2 =>
        simp only [mem_cons, not_or] at hnd
        have hreach' : ∃ x ∈ c :: l2,
            stop ≤ (update s.vma a ((s.vma a).updateProt prot) x).stop := by
          obtain ⟨x, hx, hstop⟩ := hreach
          by_cases hxa : x = a
          · subst hxa
            have hca : c ≠ x := Ne.symm hnd.1.2.1.1
            have hc := h.inv.ordered.nonempty _
              (mem_map_of_mem (show c ∈ l1 ++ x :: c :: l2 by simp))
            have hafter := h.inv.after c mem_cons_self
            refine ⟨c, mem_cons_self, ?_⟩
            rw [update_of_ne hca]
            omega
          · refine ⟨x, (mem_cons.1 hx).resolve_left hxa, ?_⟩
            rwa [update_of_ne hxa]
        obtain ⟨r, s', l', hrun, hgood', hvmas⟩ := ih
          (show Good ys _ ((l1 ++ [a]) ++ c :: l2) (b :: xs) by simpa using hgood)
          (by simpa only [update_of_ne (Ne.symm hnd.1.2.2.1)] using hb) hreach'
          (Nat.lt_of_succ_lt_succ hfuel)
        refine ⟨r, s', l', hrun, hgood', hvmas.trans ?_⟩
        have hrest : changeUpTo stop prot ((a :: c :: l2).map s.vma) =
            (s.vma a).updateProt prot :: changeUpTo stop prot ((c :: l2).map s.vma) := by
          rw [map_cons, changeUpTo, if_pos hend]
        rw [map_append, hmap l1 hnd.1.1, hmap (c :: l2) (by simp [hnd.1.2.1]), hrest]
        simp
    · rw [if_neg hend]
      by_cases hbehind : stop ≤ (s.vma a).begin
      · rw [if_pos hbehind]
        refine ⟨some b, s, _, rfl, h, ?_⟩
        rw [map_append, map_cons, changeUpTo, if_neg hend, if_pos hbehind]
      rw [if_neg hbehind]
      obtain ⟨s', hrun, hgood, hvmas⟩ := splitChange_spec prot h hb (not_le.1 hbehind)
        (not_le.1 hend)
      refine ⟨none, s', _, hrun, hgood, hvmas.trans ?_⟩
      rw [map_cons, changeUpTo, if_neg hend, if_neg hbehind]

theorem changeInside_spec (prot : Flags) {c : Addr} (h : Good ys s (l1 ++ a :: l2) (b :: c :: xs))
    (hb : (s.vma b).inode = none) (hc : (s.vma c).inode = none) (hlt : (s.vma a).begin < begin)
    (hlt' : begin < (s.vma a).stop) (hrange : begin < stop)
    (hreach : ∃ x ∈ a :: l2, stop ≤ (s.vma x).stop) :
    (∃ r s' l', changeInside begin stop prot a b c s = .ok r s' ∧ Good ys s' l' (r.toList ++ xs) ∧
      l'.map s'.vma = l1.map s.vma ++ changeFrom begin stop prot (s.vma a) (l2.map s.vma)) ∨
    (l2 = [] ∧ (s.vma a).stop ≤ stop ∧
      ∃ s' l' xs', changeInside begin stop prot a b c s = .error .noNextVma s' ∧
        Inv s' l' xs') := by
  have hnd := h.inv.nodup
  simp only [append_assoc, cons_append, nodup_middle, nodup_cons,
    mem_append, mem_cons, not_or] at hnd
  have hab : a ≠ b := hnd.1.2.2.1
  have hac : a ≠ c := hnd.1.2.2.2.1
  have hbmem := h.notMem
  simp only [mem_append, mem_cons, not_or] at hbmem
  have hbc : b ≠ c := hbmem.2.1
  have hother : ∀ x, x ≠ a → x ≠ b → update (update (update s.vma b
      ((s.vma a).dropTo begin)) a { s.vma a with stop := begin }) b
      (((s.vma a).dropTo begin).updateProt prot) x = s.vma x := fun x hxa hxb => by
    rw [update_of_ne hxb, update_of_ne hxa, update_of_ne hxb]
  have hva : update (update (update s.vma b
      ((s.vma a).dropTo begin)) a { s.vma a with stop := begin }) b
      (((s.vma a).dropTo begin).updateProt prot) a = { s.vma a with stop := begin } := by
    rw [update_of_ne hab, update_self]
  obtain ⟨t, s2, hins, hs2, hgood⟩ := h.split hb hva (update_self ..) hother
    rfl rfl rfl rfl rfl rfl hlt hlt'
  have hvb2 : s2.vma b = ((s.vma a).dropTo begin).updateProt prot := by
    rw [hs2]
    exact update_self ..
  have hother2 : ∀ x, x ≠ a → x ≠ b → s2.vma x = s.vma x := by
    rwa [hs2]
  have hsame : ∀ k : List Addr, a ∉ k → b ∉ k → ∀ x ∈ k, s2.vma x = s.vma x :=
    fun k ha hb x hx => hother2 x (by rintro rfl; exact ha hx) (by rintro rfl; exact hb hx)
  have hc2 : (s2.vma c).inode = none := by rw [hother2 c hac.symm hbc.symm, hc]
  rw [changeInside, get_bind, bind_of_ok (splitVma_eq hab hlt hlt'), modifyVma_bind]
  simp only [update_of_ne hab.symm, update_self]
  rw [bind_of_ok (TreeHolds.getNextVma (by exact h.inv.tree)), bind_of_ok hins, getVma_bind]
  have hstop2 : (s2.vma b).stop = (s.vma a).stop := by rw [hvb2]; rfl
  have hva2 : s2.vma a = { s.vma a with stop := begin } := by
    rwa [hs2]
  have hfront : (l1 ++ [a]).map s2.vma = l1.map s.vma ++ [{ s.vma a with stop := begin }] := by
    rw [map_append, map_cons, hva2]
    exact congrArg (· ++ _) (map_congr_left (hsame l1 hnd.1.1 hbmem.1.1))
  have hback := hsame l2 hnd.1.2.1 hbmem.1.2.2
  by_cases hend : stop < (s2.vma b).stop
  · -- it also ends there, so the vma is split in three
    rw [if_pos hend]
    have hlt2 : (s2.vma b).begin < stop := by
      rwa [hvb2]
    obtain ⟨t', s3, hins', hs3, hgood'⟩ := Good.split
      (show Good ys s2 ((l1 ++ [a]) ++ b :: l2) (c :: xs) by simpa using hgood) hc2
      ((update_of_ne hbc _ _).trans (update_self b ({ s2.vma b with stop := stop } : LibosVma)
          (update s2.vma c ((s2.vma b).dropTo stop))))
      (update_self c (((s2.vma b).dropTo stop).updateProt (s2.vma a).prot) _)
      (fun x hxb hxc => by
        rw [update_of_ne hxc, update_of_ne hxb, update_of_ne hxc])
      rfl rfl rfl rfl rfl rfl hlt2 hend
    have hrun : (do
        splitVma b c stop
        let v ← getVma a
        modifyVma c fun w => w.updateProt v.prot
        treeCall (.insert c)
        pure none : M Addr (Option Addr)) s2 = .ok none s3 := by
      rw [bind_of_ok (splitVma_eq hbc hlt2 hend), getVma_bind, modifyVma_bind]
      simp only [update_of_ne hbc.symm, update_of_ne hab, update_of_ne hac, update_self]
      exact bind_of_ok hins'
    refine .inl ⟨none, s3, _, hrun, hgood', ?_⟩
    have hother3 : ∀ x, x ≠ b → x ≠ c → s3.vma x = s2.vma x := fun x hxb hxc => by
      rw [hs3]
      simp [update_of_ne hxc, update_of_ne hxb]
    rw [hstop2] at hend
    rw [map_congr_of_two hother3 hgood'.inv.tree.nodup, hfront, map_congr_left hback, changeFrom,
      if_pos hlt, if_pos hend, hs3]
    simp [update_of_ne hbc, hvb2, hva2]
  · rw [if_neg hend]
    rw [hstop2] at hend
    cases l2 with
    | nil =>
      -- there is no next vma, whatever the comment says
      exact .inr ⟨rfl, not_lt.1 hend, _, _, _, rfl, hgood.inv⟩
    | cons d l2 =>
      have hfuel : l2.length < s.fuel := by
        rw [State.fuel, ← h.inv.tree.nodes.length_eq, length_append, length_cons, length_cons]
        omega
      have hreach2 : ∃ x ∈ d :: l2, stop ≤ (s2.vma x).stop := by
        obtain ⟨x, hx, hstop⟩ := hreach
        rcases mem_cons.1 hx with rfl | hx
        · have hd := h.inv.ordered.nonempty _
            (mem_map_of_mem (show d ∈ l1 ++ x :: d :: l2 by simp))
          have hafter := h.inv.after d mem_cons_self
          refine ⟨d, mem_cons_self, ?_⟩
          rw [hback d mem_cons_self]
          omega
        · exact ⟨x, hx, by rw [hback x hx]; exact hstop⟩
      obtain ⟨r, s3, l', hrun, hgood', hvmas⟩ := changeLoop_spec prot
        (show Good ys s2 ((l1 ++ [a] ++ [b]) ++ d :: l2) (c :: xs) by simpa using hgood) hc2
        hreach2 hfuel
      refine .inl ⟨r, s3, l', hrun, hgood', ?_⟩
      rw [hvmas, map_append, hfront, map_congr_left hback, changeFrom, if_pos hlt,
        if_neg hend, map_cons, map_nil, hvb2]
      simp

/-- The ways in which `_vma_bkeep_change` can end. -/
inductive ChangeResult (ys : List Addr) (s : State Addr) (l : List Addr) (begin stop : Nat)
    (prot : Flags) (b c : Addr) (xs : List Addr) :
    EStateM.Result Fault (State Addr) (Except Errno Unit × Option Addr × Option Addr) → Prop where
  | failed (e : Errno) : ChangeResult ys s l begin stop prot b c xs
      (.ok (.error e, some b, some c) s)
  | changed {r1 r2 : Option Addr} {s' : State Addr} {l' l1 l2 : List Addr} {a : Addr}
      (hl : l = l1 ++ a :: l2) (good : Good ys s' l' (r1.toList ++ (r2.toList ++ xs)))
      (before : ∀ y ∈ l1, (s.vma y).stop ≤ begin)
      (first : (s.vma a).begin ≤ begin ∧ begin < (s.vma a).stop)
      (covered : ∀ x, (s.vma a).begin ≤ x → x < stop →
        ∃ y ∈ a :: l2, (s.vma y).begin ≤ x ∧ x < (s.vma y).stop)
      (vmas : has prot protGrowsdown = false →
        l'.map s'.vma = l1.map s.vma ++ changeFrom begin stop prot (s.vma a) (l2.map s.vma)) :
      ChangeResult ys s l begin stop prot b c xs (.ok (.ok (), r1, r2) s')
  | last {s' : State Addr} {l' xs' l1 : List Addr} {a : Addr} (hl : l = l1 ++ [a])
      (hlt : (s.vma a).begin < begin) (hstop : stop = (s.vma a).stop) (inv : Inv s' l' xs') :
      ChangeResult ys s l begin stop prot b c xs (.error .noNextVma s')

/-- **`_vma_bkeep_change`** on an aligned range. -/
theorem vmaBkeepChange_spec (prot : Flags) (isInternal : Bool) {c : Addr}
    (h : Good ys s l (b :: c :: xs)) (hb : s.vma b = .zero) (hc : s.vma c = .zero)
    (hrange : begin < stop) (halign : pal.isAllocAligned begin ∧ pal.isAllocAligned stop) :
    ChangeResult ys s l begin stop prot b c xs
      (vmaBkeepChange pal begin stop prot isInternal b c s) := by
  have hb' : (s.vma b).inode = none := by rw [hb]; rfl
  have hc' : (s.vma c).inode = none := by rw [hc]; rfl
  obtain ⟨l1, l2, rfl, h1, h2, hlookup⟩ := h.inv.tree.lookupVma h.inv.ordered begin
  rw [vmaBkeepChange, assertion_bind halign, assertion_bind hrange, bind_of_ok hlookup]
  cases l2 with
  | nil => exact .failed _
  | cons a l2 =>
    have hfuel : l2.length < s.fuel := by
      rw [State.fuel, ← h.inv.tree.nodes.length_eq, length_append, length_cons]
      omega
    have hin : begin < (s.vma a).stop := h2 a mem_cons_self
    simp only [head?_cons]
    rw [get_bind, getVma_bind]
    by_cases hgap : begin < (s.vma a).begin
    · rw [if_pos hgap]
      exact .failed _
    rw [if_neg hgap]
    obtain ⟨ret, hcheck, hcover⟩ := checkChange_spec prot isInternal h.inv.tree hfuel
    rw [bind_of_ok hcheck]
    cases ret with
    | error e => exact .failed e
    | ok u =>
      obtain ⟨-, hreach, hcover⟩ := hcover rfl
      simp only
      by_cases hlow : (s.vma a).begin < begin ∧ has prot protGrowsdown = false
      · rw [if_pos hlow]
        rcases changeInside_spec prot h hb' hc' hlow.1 hin hrange hreach with
          ⟨r, s', l', hrun, hgood, hvmas⟩ | ⟨rfl, hstop, s', l', xs', hrun, hinv⟩
        · rw [bind_of_ok hrun]
          exact .changed rfl hgood h1 ⟨not_lt.1 hgap, hin⟩ hcover fun _ => hvmas
        obtain ⟨x, hx, hreach⟩ := hreach
        obtain rfl := mem_singleton.1 hx
        rw [bind_of_error hrun]
        exact .last rfl hlow.1 (Nat.le_antisymm hreach hstop) hinv
      · rw [if_neg hlow]
        obtain ⟨r, s', l', hrun, hgood, hvmas⟩ := changeLoop_spec prot
          (h.perm (List.Perm.swap ..)) hc' hreach hfuel
        rw [bind_of_ok hrun]
        refine .changed rfl (hgood.perm perm_middle) h1 ⟨not_lt.1 hgap, hin⟩ hcover fun hgrows => ?_
        rw [hvmas, changeFrom, if_neg fun hlt => hlow ⟨hlt, hgrows⟩, map_cons]

omit [DecidableEq Addr] in
/-- What every way of ending leaves. -/
theorem ChangeResult.runs {c : Addr} {prot : Flags}
    {r : EStateM.Result Fault (State Addr) (Except Errno Unit × Option Addr × Option Addr)}
    (h : Good ys s l (b :: c :: xs)) (hres : ChangeResult ys s l begin stop prot b c xs r) :
    Runs [.noNextVma, .alignment] r fun r s' =>
      ∃ l', Good ys s' l' (r.2.1.toList ++ (r.2.2.toList ++ xs)) := by
  cases hres with
  | failed e => exact ⟨l, h⟩
  | changed hl good before first covered vmas => exact ⟨_, good⟩
  | last hl hlt hstop inv => exact ⟨mem_cons_self, _, _, inv⟩

/-- **`bkeep_mprotect`**. -/
theorem bkeepMprotect_spec {addr length : Nat} (prot : Flags) (isInternal : Bool)
    (h : Settled env s) (hbound : addr + length < 2 ^ 64) :
    Runs [.noNextVma, .alignment] (bkeepMprotect pal env addr length prot isInternal s)
      fun _ s' => Settled env s' := by
  unfold bkeepMprotect
  split_ifs with hargs
  · exact h
  simp only [not_or, Bool.not_eq_false] at hargs
  obtain ⟨hlen, hlength, haddr⟩ := hargs
  obtain ⟨l, hl⟩ := h
  have halloc {s : State Addr} {l xs : List Addr} (h : Good [env.tmpVma] s l xs) :
      Runs [.noNextVma, .alignment] (allocVmaTop pal env s) (AllocResult env s xs) :=
    (allocVmaTop_spec h).weaken (subset_cons_self _ _)
  refine (halloc hl).bind fun vma1 s1 h1 => ?_
  cases vma1 with
  | none => exact h1.good
  | some b =>
    obtain ⟨l1, hg1⟩ := h1.good
    refine (halloc hg1).bind fun vma2 s2 h2 => ?_
    obtain ⟨l2, hg2⟩ := h2.good
    cases vma2 with
    | none =>
      obtain ⟨s3, hfree, hg3, -⟩ := freeVma_spec env hg2
      exact Runs.of_ok (bind_of_ok hfree) ⟨l2, hg3⟩
    | some c =>
      have hzero : s2.vma b = .zero := by
        rw [h2.same b (by simp), h1.zero b rfl]
      simp only [Nat.mod_eq_of_lt hbound]
      have hg2 := hg2.perm (List.Perm.swap ..)
      refine ((vmaBkeepChange_spec prot isInternal hg2 hzero (h2.zero c rfl) (by omega)
        ⟨haddr, isAllocAligned_add haddr hlength⟩).runs hg2).bind fun r s3 ⟨l3, hg3⟩ => ?_
      obtain ⟨s4, hfree, hg4, -⟩ := freeOptVma_spec env hg3
      obtain ⟨s5, hfree', hg5, -⟩ := freeOptVma_spec env hg4
      exact Runs.of_ok ((bind_of_ok hfree).trans (bind_of_ok hfree')) ⟨l3, hg5⟩

end Vma
