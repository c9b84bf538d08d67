import Gramine.VmaTree

/-!
# Removing a range

The invariant of the bookkeeping, with the vmas that a function has taken out of the
tree or is about to put there, and what `_vma_bkeep_remove` does to it: every vma is
replaced by its pieces outside the range.
-/

open IntervalList Function List

namespace Vma

open Ordered LibosVma

variable {Addr : Type} [DecidableEq Addr] {s s' : State Addr} {l l1 l2 xs : List Addr} {a : Addr}

/-! ## The invariant -/

/-- The tree holds the vmas `l`, in order and apart, and the counters agree with
them; the vmas `xs` belong to the function that runs. -/
structure Inv (s : State Addr) (l xs : List Addr) : Prop where
  tree : TreeHolds s.vmaTree l
  nodup : (l ++ xs).Nodup
  ordered : Ordered LibosVma.begin LibosVma.stop (l.map s.vma)
  bound : ∀ a ∈ l, (s.vma a).stop < 2 ^ 64
  total : s.totalMemorySize = size LibosVma.begin LibosVma.stop (l.map s.vma)
  mmapped : ∀ i, s.numMmapped i = ((l ++ xs).map s.vma).countP fun v => v.inode = some i

/-- The objects for vmas are the same. -/
structure SamePool (s s' : State Addr) : Prop where
  cache : s'.cache = s.cache
  mgr : s'.mgr = s.mgr
  pal : s'.pal = s.pal

section
omit [DecidableEq Addr]

theorem SamePool.refl (s : State Addr) : SamePool s s := ⟨rfl, rfl, rfl⟩

theorem SamePool.trans {s s' s'' : State Addr} (h : SamePool s s') (h' : SamePool s' s'') :
    SamePool s s'' :=
  ⟨h'.cache.trans h.cache, h'.mgr.trans h.mgr, h'.pal.trans h.pal⟩

theorem map_congr_of_notMem {f g : Addr → LibosVma} (h : ∀ x, x ≠ a → g x = f x) (ha : a ∉ l) :
    l.map g = l.map f := by
  refine map_congr_left fun x hx => h x ?_
  rintro rfl
  exact ha hx

theorem map_congr_of_two {f g : Addr → LibosVma} {b : Addr} (h : ∀ x, x ≠ a → x ≠ b → g x = f x)
    (hnd : (l1 ++ a :: b :: l2).Nodup) :
    (l1 ++ a :: b :: l2).map g = l1.map f ++ g a :: g b :: l2.map f := by
  have h1 : ∀ l : List Addr, a ∉ l → b ∉ l → l.map g = l.map f := fun l ha hb =>
    map_congr_left fun x hx => h x (by rintro rfl; exact ha hx) (by rintro rfl; exact hb hx)
  simp only [nodup_middle, nodup_cons, mem_append, mem_cons, not_or] at hnd
  rw [map_append, map_cons, map_cons, h1 l1 hnd.1.1 hnd.2.1.1, h1 l2 hnd.1.2.2 hnd.2.1.2]

end

namespace Inv

section
omit [DecidableEq Addr]

theorem congr (h : Inv s l xs) (htree : s'.vmaTree = s.vmaTree) (hvma : s'.vma = s.vma)
    (htotal : s'.totalMemorySize = s.totalMemorySize) (hnum : s'.numMmapped = s.numMmapped) :
    Inv s' l xs := by
  obtain ⟨h1, h2, h3, h4, h5, h6⟩ := h
  rw [← htree] at h1
  rw [← hvma] at h3 h4 h5 h6
  rw [← htotal] at h5
  rw [← hnum] at h6
  exact ⟨h1, h2, h3, h4, h5, h6⟩

theorem ne_of_mem {x : Addr} (h : Inv s l (a :: xs)) (hx : x ∈ l ++ xs) : x ≠ a := by
  have hnd := h.nodup
  rw [nodup_middle, nodup_cons] at hnd
  rintro rfl
  exact hnd.1 hx

theorem perm {ys : List Addr} (h : Inv s l xs) (hp : xs.Perm ys) : Inv s l ys where
  tree := h.tree
  nodup := ((List.Perm.append_left l hp).nodup_iff).1 h.nodup
  ordered := h.ordered
  bound := h.bound
  total := h.total
  mmapped i := (h.mmapped i).trans (((List.Perm.append_left l hp).map s.vma).countP_eq _)

variable (h : Inv s (l1 ++ a :: l2) xs)

include h

theorem le_total : (s.vma a).stop - (s.vma a).begin ≤ s.totalMemorySize := by
  rw [h.total, map_append, map_cons, size_append, size_cons]
  omega

theorem range : (s.vma a).begin < (s.vma a).stop :=
  h.ordered.nonempty _ (mem_map_of_mem (by simp))

variable {vma' : Addr → LibosVma}

/-- **A vma in the tree is changed in place**, within its range. -/
theorem modify {n : Nat} {v : LibosVma} (hv : vma' a = v) (hother : ∀ x, x ≠ a → vma' x = s.vma x)
    (hbegin : (s.vma a).begin ≤ v.begin) (hlt : v.begin < v.stop) (hstop : v.stop ≤ (s.vma a).stop)
    (hinode : v.inode = (s.vma a).inode)
    (hn : n + ((s.vma a).stop - (s.vma a).begin) = s.totalMemorySize + (v.stop - v.begin)) :
    Inv { s with vma := vma', totalMemorySize := n } (l1 ++ a :: l2) xs := by
  subst hv
  have hnd := h.nodup
  simp only [append_assoc, cons_append, nodup_middle, nodup_cons, mem_append, not_or] at hnd
  have h1 := map_congr_of_notMem hother hnd.1.1
  have h2 := map_congr_of_notMem hother hnd.1.2.1
  have hx := map_congr_of_notMem hother hnd.1.2.2
  refine ⟨h.tree, h.nodup, ?_, ?_, ?_, fun i => ?_⟩
  · have hord := h.ordered
    simp only [map_append] at hord
    simp only [map_append, map_cons, h1, h2]
    refine hord.replace [vma' a] (cons_iff.2 ⟨hlt, by simp, nil⟩) ?_
    simpa using ⟨hbegin, hstop⟩
  · intro x hx
    by_cases hxa : x = a
    · subst hxa
      exact hstop.trans_lt (h.bound x (by simp))
    · simp only [hother x hxa]
      exact h.bound x hx
  · have htotal := h.total
    simp only [map_append, map_cons, size_append, size_cons] at htotal
    simp only [map_append, map_cons, size_append, size_cons, h1, h2]
    omega
  · have hcount := h.mmapped i
    simp only [map_append, map_cons, countP_append, countP_cons] at hcount
    simp only [map_append, map_cons, countP_append, countP_cons, h1, h2, hx, hinode]
    exact hcount

omit h in
theorem setOutside {num : Nat → Nat} {v : LibosVma} (h : Inv s l (a :: xs)) (hv : vma' a = v)
    (hother : ∀ x, x ≠ a → vma' x = s.vma x)
    (hnum : ∀ i, num i + (if (s.vma a).inode = some i then 1 else 0) =
      s.numMmapped i + if v.inode = some i then 1 else 0) :
    Inv { s with vma := vma', numMmapped := num } l (a :: xs) := by
  subst hv
  have hnd := h.nodup
  simp only [nodup_middle, nodup_cons, mem_append, not_or] at hnd
  have hl := map_congr_of_notMem hother hnd.1.1
  have hx := map_congr_of_notMem hother hnd.1.2
  refine ⟨h.tree, h.nodup, ?_, fun x hxl => ?_, ?_, fun i => ?_⟩
  · simpa only [hl] using h.ordered
  · simp only [hother x (h.ne_of_mem (mem_append_left _ hxl))]
    exact h.bound x hxl
  · simpa only [hl] using h.total
  have hcount := h.mmapped i
  have hi := hnum i
  simp only [map_append, map_cons, countP_append, countP_cons, decide_eq_true_eq] at hcount
  simp only [map_append, map_cons, countP_append, countP_cons, decide_eq_true_eq, hl, hx]
  omega

theorem after : ∀ x ∈ l2, (s.vma a).stop ≤ (s.vma x).begin := by
  intro x hx
  have hord := h.ordered
  rw [map_append, map_cons, append_iff, cons_iff] at hord
  exact hord.2.1.2.1 _ (mem_map_of_mem hx)

theorem before : ∀ x ∈ l1, (s.vma x).stop ≤ (s.vma a).begin := by
  intro x hx
  have hord := h.ordered
  rw [map_append, append_iff] at hord
  exact hord.2.2 _ (mem_map_of_mem hx) _ mem_cons_self

omit h

end

/-- **A vma is taken out of the tree.** -/
theorem delete (h : Inv s (l1 ++ a :: l2) xs) :
    ∃ t, treeCall (.delete a) s = .ok ⟨⟩ { s with vmaTree := t } ∧ Inv { s with
        vmaTree := t
        totalMemorySize := s.totalMemorySize - ((s.vma a).stop - (s.vma a).begin) }
        (l1 ++ l2) (a :: xs) := by
  obtain ⟨t, hrun, htree⟩ := h.tree.delete
  have hperm : (l1 ++ a :: l2 ++ xs).Perm (l1 ++ l2 ++ a :: xs) := by
    simp only [append_assoc]
    exact perm_middle.trans (((perm_middle.append_left l1).trans perm_middle).symm)
  refine ⟨t, hrun, htree, hperm.nodup_iff.1 h.nodup, ?_, fun x hx => h.bound x ?_, ?_, fun i => ?_⟩
  · have hord := h.ordered
    simp only [map_append] at hord
    simpa using hord.replace [] nil (by simp)
  · rw [mem_append, mem_cons]
    rcases mem_append.1 hx with hx | hx
    · exact .inl hx
    · exact .inr (.inr hx)
  · have htotal := h.total
    simp only [map_append, map_cons, size_append, size_cons] at htotal ⊢
    omega
  · exact (h.mmapped i).trans ((hperm.map s.vma).countP_eq _)

section
variable {v : LibosVma} (h : Inv s (l1 ++ l2) (a :: xs)) (hv : s.vma a = v) (hlt : v.begin < v.stop)
  (hbound : v.stop < 2 ^ 64) (h1 : ∀ x ∈ l1, (s.vma x).stop ≤ v.begin)
  (h2 : ∀ x ∈ l2, v.stop ≤ (s.vma x).begin)
include h hv hlt hbound h1 h2

/-- **A vma is put in the tree**, in a gap. -/
theorem putIn : ∃ t, (∀ m, treeCall (.insert a) { s with totalMemorySize := m } =
        .ok ⟨⟩ { s with totalMemorySize := m, vmaTree := t }) ∧
      s.totalMemorySize + (v.stop - v.begin) < 2 ^ 64 ∧
      Inv { s with vmaTree := t, totalMemorySize := s.totalMemorySize + (v.stop - v.begin) }
        (l1 ++ a :: l2) xs := by
  subst hv
  have hperm : (l1 ++ l2 ++ a :: xs).Perm (l1 ++ a :: l2 ++ xs) := by
    simp only [append_assoc]
    exact ((perm_middle.append_left l1).trans perm_middle).trans perm_middle.symm
  have hnd := hperm.nodup_iff.1 h.nodup
  have ha : a ∉ l1 ++ l2 := by
    have := hnd
    simp only [append_assoc, cons_append, nodup_middle, nodup_cons, mem_append, not_or] at this ⊢
    exact ⟨this.1.1, this.1.2.1⟩
  have hlt2 : ∀ x ∈ l2, (s.vma x).begin < (s.vma x).stop := fun x hx =>
    h.ordered.nonempty _ (mem_map_of_mem (mem_append_right _ hx))
  obtain ⟨t, hrun, htree⟩ := h.tree.insert h.ordered ha (fun x hx => (h1 x hx).trans_lt hlt)
    (fun x hx => (h2 x hx).trans ((hlt2 x hx).le))
  have hexec : AvlTree.exec (vmaTreeCmp s.vma) s.vmaTree (.insert a) = some t := by
    unfold treeCall at hrun
    split at hrun
    · cases hrun
    · injection hrun with _ hs
      injection hs with ht
      rwa [← ht]
  have hord : Ordered LibosVma.begin LibosVma.stop ((l1 ++ a :: l2).map s.vma) := by
    have hold := h.ordered
    rw [map_append] at hold
    rw [map_append]
    refine hold.insert hlt ?_ ?_
    · simpa using h1
    · simpa using h2
  have hb : ∀ x ∈ l1 ++ a :: l2, (s.vma x).stop < 2 ^ 64 := by
    intro x hx
    simp only [mem_append, mem_cons] at hx
    rcases hx with hx | rfl | hx
    · exact h.bound x (mem_append_left _ hx)
    · exact hbound
    · exact h.bound x (mem_append_right _ hx)
  -- the sum of all sizes still fits, as the vmas are disjoint
  have hsum : s.totalMemorySize + ((s.vma a).stop - (s.vma a).begin) =
      size LibosVma.begin LibosVma.stop ((l1 ++ a :: l2).map s.vma) := by
    have htotal := h.total
    simp only [map_append, map_cons, size_append, size_cons] at htotal ⊢
    omega
  have hle := hord.size_le (show 0 ≤ 2 ^ 64 - 1 by omega) fun v hv => by
    obtain ⟨b, hb', rfl⟩ := mem_map.1 hv
    have := hb b hb'
    exact ⟨Nat.zero_le _, by omega⟩
  refine ⟨t, fun m => by simp only [treeCall, hexec], by omega, htree, hnd, hord, hb, hsum,
    fun i => (h.mmapped i).trans ((hperm.map s.vma).countP_eq _)⟩

theorem insert : ∃ t s', treeCall (.insert a) s = .ok ⟨⟩ { s with vmaTree := t } ∧
      totalMemorySizeAdd (v.stop - v.begin) { s with vmaTree := t } = .ok ⟨⟩ s' ∧
      Inv s' (l1 ++ a :: l2) xs ∧ SamePool s s' ∧ s'.vma = s.vma := by
  obtain ⟨t, hrun, hsum, hinv⟩ := h.putIn hv hlt hbound h1 h2
  refine ⟨t, _, hrun _, rfl, ?_, ⟨rfl, rfl, rfl⟩, rfl⟩
  exact hinv.congr rfl rfl (Nat.mod_eq_of_lt hsum) rfl

end

end Inv

/-- The counters after one more vma with the file. -/
def bump (file : Option LibosHandle) (num : Nat → Nat) : Nat → Nat :=
  match file.bind LibosHandle.inode with
  | none => num
  | some i => update num i (num i + 1)

theorem bump_apply (file : Option LibosHandle) (num : Nat → Nat) (j : Nat) :
    bump file num j = num j + if file.bind LibosHandle.inode = some j then 1 else 0 := by
  unfold bump
  cases file.bind LibosHandle.inode with
  | none => simp
  | some i =>
    by_cases hij : j = i
    · subst hij
      simp
    · simp [hij, Ne.symm hij]

omit [DecidableEq Addr] in
theorem countMmapped_eq (file : Option LibosHandle) (s : State Addr) :
    countMmapped file s = .ok ⟨⟩ { s with numMmapped := bump file s.numMmapped } := by
  unfold countMmapped bump
  cases file.bind LibosHandle.inode <;> rfl

@[simp] theorem LibosVma.dropTo_begin (v : LibosVma) (addr : Nat) : (v.dropTo addr).begin = addr :=
  rfl

@[simp] theorem LibosVma.dropTo_stop (v : LibosVma) (addr : Nat) : (v.dropTo addr).stop = v.stop :=
  rfl

theorem copyComment_val (c : Comment) : copyComment c.val = c := by
  apply Subtype.ext
  have hc : c.val.length ≤ vmaCommentLen - 1 := Nat.le_sub_one_of_lt c.property
  exact take_of_length_le hc

theorem splitVma_eq {old new : Addr} {addr : Nat} (hne : old ≠ new)
    (h1 : (s.vma old).begin < addr) (h2 : addr < (s.vma old).stop) :
    splitVma old new addr s = .ok ⟨⟩ { s with
      numMmapped := bump (s.vma old).file s.numMmapped
      vma := update (update s.vma new ((s.vma old).dropTo addr)) old
        { s.vma old with stop := addr } } := by
  rw [splitVma, getVma_bind, assertion_bind ⟨h1, h2⟩]
  have hcopy : copyVma old new s = .ok ⟨⟩ { s with
      numMmapped := bump (s.vma old).file s.numMmapped
      vma := update s.vma new (s.vma old) } := by
    rw [copyVma, getVma_bind, bind_of_ok (countMmapped_eq _ _), copyComment_val]
    rfl
  rw [bind_of_ok hcopy, modifyVma_bind]
  simp only [update_self, update_idem]
  show EStateM.Result.ok _ _ = _
  simp [hne]

namespace Inv

/-- **A vma is split in two**, which may be shortened: the second part, in a vma from
outside, is put in the tree after the first. -/
theorem split {b : Addr} (h : Inv s (l1 ++ a :: l2) (b :: xs)) (hb : (s.vma b).inode = none)
    {vma' : Addr → LibosVma} {v w : LibosVma} (hv : vma' a = v) (hw : vma' b = w)
    (hother : ∀ x, x ≠ a → x ≠ b → vma' x = s.vma x) (hbegin : (s.vma a).begin ≤ v.begin)
    (hlt : v.begin < v.stop) (hmid : v.stop ≤ w.begin) (hlt' : w.begin < w.stop)
    (hstop : w.stop ≤ (s.vma a).stop) (hinode : v.inode = (s.vma a).inode)
    (hinode' : w.inode = (s.vma a).inode) :
    ∃ t, treeCall (.insert b)
        { s with vma := vma', numMmapped := bump (s.vma a).file s.numMmapped } =
          .ok ⟨⟩ { s with
            vma := vma'
            numMmapped := bump (s.vma a).file s.numMmapped
            vmaTree := t } ∧
      ∀ n, n + ((s.vma a).stop - (s.vma a).begin) =
          s.totalMemorySize + (v.stop - v.begin) + (w.stop - w.begin) →
        Inv { s with
          vma := vma'
          numMmapped := bump (s.vma a).file s.numMmapped
          vmaTree := t
          totalMemorySize := n } (l1 ++ a :: b :: l2) xs := by
  have hnd := h.nodup
  simp only [append_assoc, cons_append, nodup_middle, nodup_cons,
    mem_append, mem_cons, not_or] at hnd
  obtain ⟨⟨-, ha2, hab, -⟩, hnd⟩ := hnd
  have hb2 : b ∉ l2 := by
    rw [((perm_middle.append_left l1).trans perm_middle).nodup_iff, nodup_cons] at hnd
    exact fun hmem => hnd.1 (by simp [hmem])
  have hsize := h.le_total
  have hbound := h.bound a (by simp)
  have hnum : ∀ i,
      bump (s.vma a).file s.numMmapped i + (if (s.vma b).inode = some i then 1 else 0) =
      s.numMmapped i + if w.inode = some i then 1 else 0 := fun i => by
    rw [bump_apply, hb, hinode']
    rfl
  have hvma : ∀ x, x ≠ a → vma' x = update s.vma b w x := fun x hxa => by
    by_cases hxb : x = b
    · rw [hxb, hw, update_self]
    · rw [update_of_ne hxb, hother x hxa hxb]
  -- the vma outside becomes the second part, and the one in the tree the first
  have hout := h.setOutside (update_self b w s.vma) (fun x hx => update_of_ne hx _ _) hnum
  have hin := hout.modify
    (n := s.totalMemorySize + (v.stop - v.begin) - ((s.vma a).stop - (s.vma a).begin)) hv hvma
    (by simpa [hab] using hbegin) hlt (by simp [hab]; omega) (by simpa [hab] using hinode)
    (by simp [hab]; omega)
  have hlow : ∀ x ∈ l1 ++ [a], (vma' x).stop ≤ w.begin := fun x hx => by
    rcases mem_append.1 hx with hx | hx
    · have := hin.before x hx
      simp only [hv] at this
      omega
    · rwa [mem_singleton.1 hx, hv]
  have hhigh : ∀ x ∈ l2, w.stop ≤ (vma' x).begin := fun x hx => by
    have := h.after x hx
    rw [hother x (fun heq => ha2 (heq ▸ hx)) fun heq => hb2 (heq ▸ hx)]
    omega
  rw [append_cons] at hin
  obtain ⟨t, hrun, -, hinv⟩ := hin.putIn hw hlt' (by omega) hlow hhigh
  refine ⟨t, hrun _, fun n hn => ?_⟩
  rw [show n = s.totalMemorySize + (v.stop - v.begin) - ((s.vma a).stop - (s.vma a).begin) +
    (w.stop - w.begin) by omega]
  simpa using hinv

end Inv

/-! ## Pieces outside a range -/

/-- The pieces of a vma outside a range. -/
def LibosVma.cut (begin stop : Nat) (v : LibosVma) : List LibosVma :=
  if v.stop ≤ begin ∨ stop ≤ v.begin then [v]
  else (if v.begin < begin then [{ v with stop := begin }] else []) ++
    (if stop < v.stop then [v.dropTo stop] else [])

/-- The vma lies in the range. -/
def LibosVma.Inside (begin stop : Nat) (v : LibosVma) : Prop := begin ≤ v.begin ∧ v.stop ≤ stop

instance (begin stop : Nat) (v : LibosVma) : Decidable (v.Inside begin stop) :=
  inferInstanceAs (Decidable (_ ∧ _))

/-- The vma and the range overlap. -/
def LibosVma.Meets (begin stop : Nat) (v : LibosVma) : Prop := begin < v.stop ∧ v.begin < stop

variable {begin stop : Nat}

theorem flatMap_cut_of_apart {vs : List LibosVma} (h : ∀ v ∈ vs, v.stop ≤ begin ∨ stop ≤ v.begin) :
    vs.flatMap (cut begin stop) = vs := by
  induction vs with
  | nil => rfl
  | cons v vs ih =>
    rw [flatMap_cons, cut, if_pos (h v mem_cons_self),
      ih fun w hw => h w (mem_cons_of_mem _ hw), singleton_append]

theorem LibosVma.cut_of_inside {v : LibosVma} (h : v.Inside begin stop) (hv : v.begin < v.stop) :
    v.cut begin stop = [] := by
  obtain ⟨hbegin, hstop⟩ := h
  rw [cut, if_neg (by omega), if_neg (by omega), if_neg (by omega)]
  rfl

theorem apart_of_mem_cut {v w : LibosVma} (hw : w ∈ v.cut begin stop) :
    w.stop ≤ begin ∨ stop ≤ w.begin := by
  unfold cut at hw
  split_ifs at hw with h1 h2 h3 <;> simp only [nil_append, mem_append,
    mem_cons, not_mem_nil, or_false] at hw
  · rwa [hw]
  · rcases hw with rfl | rfl
    · exact .inl le_rfl
    · exact .inr le_rfl
  · rw [hw]
    exact .inl le_rfl
  · rw [hw]
    exact .inr le_rfl

/-! ## The loops -/

variable {fuel : Nat}

/-- **The first loop** decides whether the vmas that meet the range are all internal, or
all not. -/
theorem checkInternal_spec (stop : Nat) (isInternal : Bool) (h : TreeHolds s.vmaTree (l1 ++ l2))
    (hord : Ordered LibosVma.begin LibosVma.stop (l2.map s.vma)) (hfuel : l2.length ≤ fuel) :
    ∃ r, checkInternal stop isInternal fuel l2.head? s = .ok r s ∧
      (r = true ↔ ∀ x ∈ l2, (s.vma x).begin < stop → (s.vma x).isInternal = isInternal) := by
  induction l2 generalizing l1 fuel with
  | nil => exact ⟨true, by cases fuel <;> rfl, by simp⟩
  | cons a l2 ih =>
    obtain ⟨fuel, rfl⟩ := Nat.exists_eq_add_one_of_ne_zero (show fuel ≠ 0 by simp at hfuel; omega)
    rw [map_cons, cons_iff] at hord
    rw [head?_cons, checkInternal, getVma_bind]
    by_cases hbegin : (s.vma a).begin < stop
    · rw [if_pos hbegin]
      by_cases hint : (s.vma a).isInternal = isInternal
      · obtain ⟨r, hrun, hr⟩ := ih (show TreeHolds s.vmaTree ((l1 ++ [a]) ++ l2) by simpa using h)
          hord.2.2 (Nat.le_of_succ_le_succ hfuel)
        refine ⟨r, ?_, ?_⟩
        · rw [if_neg (not_not.2 hint), bind_of_ok h.getNextVma, hrun]
        · rw [hr, forall_mem_cons]
          exact ⟨fun hl => ⟨fun _ => hint, hl⟩, fun hl => hl.2⟩
      · refine ⟨false, by rw [if_pos hint]; rfl, ?_⟩
        rw [forall_mem_cons]
        exact ⟨fun hf => absurd hf (by decide), fun hl => absurd (hl.1 hbegin) hint⟩
    · refine ⟨true, by rw [if_neg hbegin]; rfl, ?_⟩
      rw [forall_mem_cons]
      refine ⟨fun _ => ⟨fun hlt => absurd hlt hbegin, fun x hx hlt => ?_⟩, fun _ => rfl⟩
      -- the vmas after one that begins behind the range begin behind it as well
      have := hord.2.1 _ (mem_map_of_mem hx)
      omega

/-- The part of the range that a loop over the vmas `l` has cleared. -/
structure Cleared (s s' : State Addr) (begin stop : Nat) (l l' : List Addr) : Prop where
  pool : SamePool s s'
  same : ∀ x ∉ l, s'.vma x = s.vma x
  perm : (l' ++ l.filter fun x => (s.vma x).Inside begin stop).Perm l
  vmas : l'.map s'.vma = (l.map s.vma).flatMap (cut begin stop)

section
omit [DecidableEq Addr]

theorem Inv.filter_inside {begin stop : Nat} (h : Inv s (l1 ++ a :: l2) xs)
    (hstop : stop < (s.vma a).stop) :
    (a :: l2).filter (fun x => (s.vma x).Inside begin stop) = [] := by
  refine filter_eq_nil_iff.2 fun x hx hin => ?_
  have hxstop : (s.vma x).stop ≤ stop := (of_decide_eq_true hin).2
  rcases mem_cons.1 hx with rfl | hx
  · omega
  · have := h.after x hx
    have := h.ordered.nonempty (s.vma x) (mem_map_of_mem (by simp [hx]))
    omega

theorem Inv.cut_after (begin : Nat) {stop : Nat} (h : Inv s (l1 ++ a :: l2) xs)
    (hstop : stop < (s.vma a).stop) :
    (l2.map s.vma).flatMap (cut begin stop) = l2.map s.vma := by
  refine flatMap_cut_of_apart fun v hv => .inr ?_
  obtain ⟨x, hx, rfl⟩ := mem_map.1 hv
  exact (hstop.le).trans (h.after x hx)

end

section
variable (acc : List Addr) (h : Inv s (l1 ++ a :: l2) xs)
include acc h

/-- The loop ends at a vma that ends behind the range: its part in the range is cut
off. -/
theorem removeLoop_end (fuel : Nat) (hbegin : begin ≤ (s.vma a).begin)
    (hstop : stop < (s.vma a).stop) :
    ∃ s', removeLoop stop (fuel + 1) a acc s = .ok acc s' ∧ Inv s' (l1 ++ a :: l2) xs ∧
      Cleared s s' begin stop (a :: l2) (a :: l2) := by
  have hperm : ((a :: l2) ++ (a :: l2).filter fun x => (s.vma x).Inside begin stop).Perm
      (a :: l2) := by
    rw [h.filter_inside hstop, append_nil]
  have hafter := h.cut_after begin hstop
  rw [removeLoop, getVma_bind, if_neg (Nat.not_le_of_lt hstop)]
  by_cases hmeet : (s.vma a).begin < stop
  · have hsize := h.le_total
    rw [if_pos hmeet, totalMemorySizeSub_bind (by omega)]
    refine ⟨_, rfl, h.modify (update_self ..) (fun x hx => update_of_ne hx _ _)
      (hmeet.le) hstop le_rfl rfl ?_, ⟨rfl, rfl, rfl⟩, ?_, hperm, ?_⟩
    · simp only [dropTo_begin, dropTo_stop]
      omega
    · intro x hx
      exact update_of_ne (by rintro rfl; exact hx mem_cons_self) _ _
    have hnd := h.nodup
    simp only [append_assoc, cons_append, nodup_middle, nodup_cons, mem_append, not_or] at hnd
    have hmap := map_congr_of_notMem (f := s.vma) (g := update s.vma a ((s.vma a).dropTo stop))
      (fun x hx => update_of_ne hx _ _) hnd.1.2.1
    rw [map_cons, map_cons, flatMap_cons, hafter, hmap, cut,
      if_neg (by omega), if_neg (by omega), if_pos hstop]
    simp
  · rw [if_neg hmeet]
    refine ⟨s, rfl, h, SamePool.refl s, fun x _ => rfl, hperm, ?_⟩
    rw [map_cons, flatMap_cons, hafter, cut, if_pos (by omega)]
    rfl

theorem removeLoop_delete (fuel : Nat) (hstop : (s.vma a).stop ≤ stop) :
    ∃ s', Inv s' (l1 ++ l2) (a :: xs) ∧ s'.vma = s.vma ∧ SamePool s s' ∧
      removeLoop stop (fuel + 1) a acc s = match l2.head? with
        | none => .ok (acc ++ [a]) s'
        | some next => removeLoop stop fuel next (acc ++ [a]) s' := by
  obtain ⟨t, hrun, hinv⟩ := h.delete
  refine ⟨_, hinv, rfl, ⟨rfl, rfl, rfl⟩, ?_⟩
  rw [removeLoop, getVma_bind, if_pos hstop, bind_of_ok h.tree.getNextVma, bind_of_ok hrun,
    totalMemorySizeSub_bind]
  · cases l2.head? <;> rfl
  · exact h.le_total

/-- **The second loop** deletes the vmas in the range and shortens the one behind. -/
theorem removeLoop_spec (begin stop : Nat) (hbegin : ∀ x ∈ a :: l2, begin ≤ (s.vma x).begin)
    (hfuel : l2.length < fuel) :
    ∃ s' l', removeLoop stop fuel a acc s =
        .ok (acc ++ (a :: l2).filter fun x => (s.vma x).Inside begin stop) s' ∧
      Inv s' (l1 ++ l') (((a :: l2).filter fun x => (s.vma x).Inside begin stop) ++ xs) ∧
      Cleared s s' begin stop (a :: l2) l' := by
  induction fuel generalizing a l2 s xs acc with
  | zero => exact absurd hfuel (Nat.not_lt_zero _)
  | succ fuel ih =>
    have ha := hbegin a mem_cons_self
    rcases lt_or_ge stop (s.vma a).stop with hstop | hstop
    · obtain ⟨s', hrun, hinv, hclear⟩ := removeLoop_end acc h fuel ha hstop
      rw [h.filter_inside hstop, append_nil]
      exact ⟨s', _, hrun, hinv, hclear⟩
    obtain ⟨s1, hinv1, hvma, hpool, hrun⟩ := removeLoop_delete acc h fuel hstop
    have hin : (s.vma a).Inside begin stop := ⟨ha, hstop⟩
    have hcut := cut_of_inside hin h.range
    have hfilter := fun l => filter_cons_of_pos (l := l)
      (p := fun x => decide ((s.vma x).Inside begin stop)) (decide_eq_true hin)
    rw [hfilter]
    cases l2 with
    | nil =>
      refine ⟨s1, [], hrun, hinv1, hpool, fun x _ => by rw [hvma], ?_, by simp [hcut]⟩
      rw [hfilter]
      exact List.Perm.refl _
    | cons c l2 =>
      obtain ⟨s', l', hrun', hinv', hclear⟩ := ih (acc ++ [a]) hinv1
        (by rw [hvma]; exact fun x hx => hbegin x (mem_cons_of_mem _ hx))
        (Nat.lt_of_succ_lt_succ hfuel)
      simp only [hvma] at hrun' hinv'
      refine ⟨s', l', ?_, hinv'.perm perm_middle, hpool.trans hclear.pool, fun x hx => ?_, ?_, ?_⟩
      · rw [hrun]
        simpa using hrun'
      · rw [hclear.same x fun hmem => hx (mem_cons_of_mem _ hmem), hvma]
      · rw [hfilter]
        have hperm := hclear.perm
        simp only [hvma] at hperm
        exact perm_middle.trans (hperm.cons a)
      · rw [hclear.vmas, hvma, map_cons, map_cons, map_cons, flatMap_cons,
          flatMap_cons, flatMap_cons, hcut, nil_append]

end

theorem removeRest_spec (begin stop : Nat) (newVma : Option Addr) (h : Inv s (l1 ++ l2) xs)
    (hbegin : ∀ x ∈ l2, begin ≤ (s.vma x).begin) (hfuel : l2.length ≤ fuel) :
    ∃ s' l', (match l2.head? with
        | none => pure ⟨.ok (), newVma, []⟩
        | some next => do
          let vmasToFree ← removeLoop stop fuel next []
          pure ⟨.ok (), newVma, vmasToFree⟩ : M Addr (Removed Addr)) s =
        .ok ⟨.ok (), newVma, l2.filter fun x => (s.vma x).Inside begin stop⟩ s' ∧
      Inv s' (l1 ++ l') ((l2.filter fun x => (s.vma x).Inside begin stop) ++ xs) ∧
      Cleared s s' begin stop l2 l' := by
  cases l2 with
  | nil =>
    exact ⟨s, [], rfl, h, SamePool.refl s, fun x _ => rfl, List.Perm.refl _, rfl⟩
  | cons c l2 =>
    obtain ⟨s', l', hrun, hinv, hclear⟩ := removeLoop_spec [] h begin stop hbegin
      (Nat.lt_of_succ_le hfuel)
    refine ⟨s', l', ?_, hinv, hclear⟩
    exact bind_of_ok hrun

/-! ## The whole function -/

/-- What `_vma_bkeep_remove` returns, and the state it leaves. -/
inductive RemoveResult (s : State Addr) (l xs : List Addr) (begin stop : Nat) (isInternal : Bool)
    (newVma : Option Addr) : Removed Addr → State Addr → Prop
  /-- Some vma in the range is of the other kind. -/
  | acces (hkind : ∃ a ∈ l, (s.vma a).Meets begin stop ∧ (s.vma a).isInternal ≠ isInternal) :
    RemoveResult s l xs begin stop isInternal newVma ⟨.error .eacces, newVma, []⟩ s
  /-- A vma extends beyond the range on both sides, and there is no other to spare. -/
  | nomem (hnew : newVma = none)
      (hkind : ∀ a ∈ l, (s.vma a).Meets begin stop → (s.vma a).isInternal = isInternal)
      (houter : ∃ a ∈ l, (s.vma a).begin < begin ∧ stop < (s.vma a).stop) :
    RemoveResult s l xs begin stop isInternal newVma ⟨.error .enomem, none, []⟩ s
  /-- The vmas are replaced by their pieces outside the range. -/
  | removed {s' : State Addr} {l' freed : List Addr} {rest : Option Addr}
      (hkind : ∀ a ∈ l, (s.vma a).Meets begin stop → (s.vma a).isInternal = isInternal)
      (hrest : rest = newVma ∨ rest = none)
      (hfreed : freed = l.filter fun x => (s.vma x).Inside begin stop)
      (hinv : Inv s' l' (freed ++ (rest.toList ++ xs))) (pool : SamePool s s')
      (perm : (l' ++ (freed ++ rest.toList)).Perm (l ++ newVma.toList))
      (same : ∀ x, x ∉ l → x ∉ newVma → s'.vma x = s.vma x)
      (vmas : l'.map s'.vma = (l.map s.vma).flatMap (cut begin stop)) :
    RemoveResult s l xs begin stop isInternal newVma ⟨.ok (), rest, freed⟩ s'

/-- The vmas that lookup has left behind: they end before the range, and are neither
in it nor cut. -/
structure Behind (s : State Addr) (begin stop : Nat) (l1 : List Addr) : Prop where
  stop_le : ∀ x ∈ l1, (s.vma x).stop ≤ begin
  filter : l1.filter (fun x => (s.vma x).Inside begin stop) = []
  cut : (l1.map s.vma).flatMap (cut begin stop) = l1.map s.vma

omit [DecidableEq Addr] in
theorem Inv.behind (h : Inv s (l1 ++ l2) xs) (h1 : ∀ x ∈ l1, (s.vma x).stop ≤ begin) (stop : Nat) :
    Behind s begin stop l1 := by
  refine ⟨h1, filter_eq_nil_iff.2 fun x hx hin => ?_, flatMap_cut_of_apart fun v hv => ?_⟩
  · have := h1 x hx
    have := h.ordered.nonempty (s.vma x) (mem_map_of_mem (mem_append_left _ hx))
    have hbegin : begin ≤ (s.vma x).begin := (of_decide_eq_true hin).1
    omega
  · obtain ⟨x, hx, rfl⟩ := mem_map.1 hv
    exact .inl (h1 x hx)

/-- The range lies inside one vma, which is split. -/
theorem removeInside_spec {b : Addr} (h : Inv s (l1 ++ a :: l2) (b :: xs))
    (hb : (s.vma b).inode = none) (hle : begin ≤ stop) (hbegin : (s.vma a).begin < begin)
    (hstop : stop < (s.vma a).stop) :
    ∃ s', (do
        splitVma a b stop
        modifyVma a fun w => { w with stop := begin }
        treeCall (.insert b)
        totalMemorySizeSub (stop - begin)
        pure ⟨.ok (), none, []⟩ : M Addr (Removed Addr)) s = .ok ⟨.ok (), none, []⟩ s' ∧
      Inv s' (l1 ++ a :: b :: l2) xs ∧ SamePool s s' ∧
      (∀ x, x ≠ a → x ≠ b → s'.vma x = s.vma x) ∧ s'.vma a = { s.vma a with stop := begin } ∧
      s'.vma b = (s.vma a).dropTo stop := by
  have hnd := h.nodup
  simp only [append_assoc, cons_append, nodup_middle, nodup_cons,
    mem_append, mem_cons, not_or] at hnd
  have hab : a ≠ b := hnd.1.2.2.1
  have hsize := h.le_total
  have hother : ∀ x, x ≠ a → x ≠ b → update (update s.vma b ((s.vma a).dropTo stop)) a
        { s.vma a with stop := begin } x = s.vma x := fun x hxa hxb => by
    rw [update_of_ne hxa, update_of_ne hxb]
  have hvb : update (update s.vma b ((s.vma a).dropTo stop)) a
      { s.vma a with stop := begin } b = (s.vma a).dropTo stop := by
    rw [update_of_ne hab.symm, update_self]
  obtain ⟨t, hrun, hinv⟩ := h.split hb (update_self ..) hvb hother le_rfl hbegin
    hle hstop le_rfl rfl rfl
  refine ⟨_, ?_, hinv (s.totalMemorySize - (stop - begin)) ?_, ⟨rfl, rfl, rfl⟩, hother,
    update_self .., hvb⟩
  · rw [bind_of_ok (splitVma_eq hab (hbegin.trans_le hle) hstop), modifyVma_bind]
    simp only [update_self, update_idem]
    rw [bind_of_ok hrun, totalMemorySizeSub_bind]
    · rfl
    · show stop - begin ≤ s.totalMemorySize
      omega
  · simp only [dropTo_begin, dropTo_stop]
    omega

/-- The range begins inside a vma, which is shortened, and goes on to its end or
behind it. -/
theorem removeLeft_spec (newVma : Option Addr) (h : Inv s (l1 ++ a :: l2) xs)
    (hbegin : (s.vma a).begin < begin) (hmeet : begin < (s.vma a).stop)
    (hstop : (s.vma a).stop ≤ stop) (hfuel : l2.length ≤ fuel) :
    ∃ s' l', (do
        totalMemorySizeSub ((s.vma a).stop - begin)
        modifyVma a fun w => { w with stop := begin }
        let next ← getNextVma a
        match next with
        | none => pure ⟨.ok (), newVma, []⟩
        | some next => do
          let vmasToFree ← removeLoop stop fuel next []
          pure ⟨.ok (), newVma, vmasToFree⟩ : M Addr (Removed Addr)) s =
        .ok ⟨.ok (), newVma, (a :: l2).filter fun x => (s.vma x).Inside begin stop⟩ s' ∧
      Inv s' (l1 ++ a :: l') (((a :: l2).filter fun x => (s.vma x).Inside begin stop) ++ xs) ∧
      Cleared s s' begin stop (a :: l2) (a :: l') := by
  have hsize := h.le_total
  have hnd := h.nodup
  simp only [append_assoc, cons_append, nodup_middle, nodup_cons, mem_append, not_or] at hnd
  have hinv1 := h.modify (n := s.totalMemorySize - ((s.vma a).stop - begin))
    (update_self a ({ s.vma a with stop := begin } : LibosVma) s.vma)
    (fun x hx => update_of_ne hx _ _) le_rfl hbegin hmeet.le rfl
    (by simp only; omega)
  have hsame : ∀ x ∈ l2, update s.vma a { s.vma a with stop := begin } x = s.vma x := by
    intro x hx
    refine update_of_ne ?_ _ _
    rintro rfl
    exact hnd.1.2.1 hx
  obtain ⟨s', l', hrun, hinv, hclear⟩ := removeRest_spec begin stop newVma
    (show Inv _ ((l1 ++ [a]) ++ l2) xs by simpa using hinv1)
    (fun x hx => by
      simp only [hsame x hx]
      exact (hmeet.le).trans (h.after x hx)) hfuel
  have hfilter : l2.filter (fun x => decide ((update s.vma a
      { s.vma a with stop := begin } x).Inside begin stop)) =
      (a :: l2).filter fun x => decide ((s.vma x).Inside begin stop) := by
    rw [filter_cons_of_neg (by simpa using fun hin => Nat.not_le_of_lt hbegin hin.1)]
    exact filter_congr fun x hx => by simp [hsame x hx]
  have hperm := hclear.perm
  simp only [hfilter] at hrun hinv hperm
  refine ⟨s', l', ?_, by simpa using hinv, ⟨hclear.pool.1, hclear.pool.2, hclear.pool.3⟩,
    fun x hx => ?_, hperm.cons a, ?_⟩
  · rw [totalMemorySizeSub_bind (by omega), modifyVma_bind]
    rwa [bind_of_ok (hinv1.tree.getNextVma)]
  · simp only [mem_cons, not_or] at hx
    rw [hclear.same x hx.2]
    exact update_of_ne hx.1 _ _
  · have hcut : (s.vma a).cut begin stop = [{ s.vma a with stop := begin }] := by
      rw [cut, if_neg (by omega), if_pos hbegin, if_neg (by omega)]
      rfl
    rw [map_cons, hclear.vmas, hclear.same a hnd.1.2.1, map_cons, flatMap_cons, hcut]
    exact congrArg₂ cons (update_self ..) (congrArg (List.flatMap _) (map_congr_left hsame))

omit [DecidableEq Addr] in
theorem Cleared.removed {newVma : Option Addr} {isInternal : Bool} {k : List Addr}
    (hclear : Cleared s s' begin stop l2 k) (hnd : (l1 ++ l2).Nodup)
    (hbehind : Behind s begin stop l1)
    (hkind : ∀ x ∈ l1 ++ l2, (s.vma x).Meets begin stop → (s.vma x).isInternal = isInternal)
    (hinv : Inv s' (l1 ++ k)
      ((l2.filter fun x => (s.vma x).Inside begin stop) ++ (newVma.toList ++ xs))) :
    RemoveResult s (l1 ++ l2) xs begin stop isInternal newVma
      ⟨.ok (), newVma, l2.filter fun x => (s.vma x).Inside begin stop⟩ s' := by
  refine .removed hkind (.inl rfl) ?_ hinv hclear.pool ?_ (fun x hx _ => ?_) ?_
  · rw [filter_append, hbehind.filter, nil_append]
  · rw [← append_assoc]
    refine List.Perm.append_right _ ?_
    rw [append_assoc]
    exact hclear.perm.append_left l1
  · exact hclear.same x fun hmem => hx (mem_append_right _ hmem)
  have hmap1 : l1.map s'.vma = l1.map s.vma := map_congr_left fun x hx =>
    hclear.same x fun hmem => disjoint_of_nodup_append hnd hx hmem
  rw [map_append, map_append, flatMap_append, hbehind.cut, hclear.vmas, hmap1]

/-- **`_vma_bkeep_remove`** on an aligned range. -/
theorem vmaBkeepRemove_spec {pal : PalPublicState} (isInternal : Bool) {newVma : Option Addr}
    (h : Inv s l (newVma.toList ++ xs)) (hnew : ∀ b ∈ newVma, (s.vma b).inode = none)
    (hle : begin ≤ stop) (halign : pal.isAllocAligned begin ∧ pal.isAllocAligned stop) :
    ∃ r s', vmaBkeepRemove pal begin stop isInternal newVma s = .ok r s' ∧
      RemoveResult s l xs begin stop isInternal newVma r s' := by
  obtain ⟨l1, l2, rfl, h1, h2, hlookup⟩ := h.tree.lookupVma h.ordered begin
  have hbehind := h.behind h1 stop
  have hord := h.ordered
  rw [map_append, append_iff] at hord
  have hfuel := h.tree.length_lt_fuel.le
  rw [vmaBkeepRemove, assertion_bind halign, bind_of_ok hlookup]
  cases l2 with
  | nil =>
    refine ⟨_, s, rfl, .removed (fun x hx hmeet => ?_) (.inl rfl) ?_ h (SamePool.refl s)
      (by simp) (fun x _ _ => rfl) ?_⟩
    · exact absurd (h1 x (by simpa using hx)) (Nat.not_le_of_lt hmeet.1)
    · rw [append_nil, hbehind.filter]
    · rw [append_nil, hbehind.cut]
  | cons a l2 =>
    obtain ⟨agree, hcheck, hagree⟩ := checkInternal_spec stop isInternal h.tree hord.2.1
      (le_trans (by simp) hfuel)
    rw [head?_cons] at hcheck ⊢
    simp only
    rw [get_bind, bind_of_ok hcheck]
    have hkind : agree = true → ∀ x ∈ l1 ++ a :: l2, (s.vma x).Meets begin stop →
        (s.vma x).isInternal = isInternal := by
      intro hag x hx hmeet
      rcases mem_append.1 hx with hx | hx
      · exact absurd (h1 x hx) (Nat.not_le_of_lt hmeet.1)
      · exact hagree.1 hag x hx hmeet.2
    cases agree with
    | false =>
      obtain ⟨x, hx, hlt, hne⟩ : ∃ x ∈ a :: l2, (s.vma x).begin < stop ∧
          (s.vma x).isInternal ≠ isInternal := by
        by_contra hnot
        push Not at hnot
        exact Bool.false_ne_true (hagree.2 hnot)
      exact ⟨_, s, rfl, .acces ⟨x, mem_append_right _ hx, ⟨h2 x hx, hlt⟩, hne⟩⟩
    | true =>
      rw [if_neg (by simp), getVma_bind]
      by_cases hbegin : (s.vma a).begin < begin
      · rw [if_pos hbegin]
        by_cases hstop : stop < (s.vma a).stop
        · rw [if_pos hstop]
          cases newVma with
          | none =>
            exact ⟨_, s, rfl, .nomem rfl (hkind rfl) ⟨a, by simp, hbegin, hstop⟩⟩
          | some b =>
            obtain ⟨s', hrun, hinv, hpool, hsame, hva, hvb⟩ := removeInside_spec
              (show Inv s (l1 ++ a :: l2) (b :: xs) from h) (hnew b rfl) hle hbegin hstop
            refine ⟨_, s', hrun, .removed (hkind rfl) (.inr rfl) ?_ hinv hpool ?_
              (fun x hx hxb => ?_) ?_⟩
            · rw [filter_append, hbehind.filter, h.filter_inside hstop, nil_append]
            · simpa using ((perm_append_singleton b l2).symm.cons a).append_left l1
            · refine hsame x ?_ ?_
              · rintro rfl; exact hx (by simp)
              · rintro rfl; exact hxb rfl
            have hafter := h.cut_after begin hstop
            have hcut : (s.vma a).cut begin stop =
                [{ s.vma a with stop := begin }, (s.vma a).dropTo stop] := by
              rw [cut, if_neg (by omega), if_pos hbegin, if_pos hstop]
              rfl
            rw [map_congr_of_two hsame hinv.tree.nodup, hva, hvb]
            simp [hbehind.cut, hafter, hcut]
        · obtain ⟨s', l', hrun, hinv, hclear⟩ := removeLeft_spec newVma h hbegin
            (h2 a mem_cons_self) (not_lt.1 hstop)
            (le_trans (show l2.length ≤ (l1 ++ a :: l2).length by simp; omega) hfuel)
          rw [if_neg hstop]
          exact ⟨_, s', hrun, hclear.removed h.tree.nodup hbehind (hkind rfl) hinv⟩
      · have hafter : ∀ x ∈ a :: l2, begin ≤ (s.vma x).begin := by
          intro x hx
          have hlt := h.range
          rcases mem_cons.1 hx with rfl | hx
          · exact not_lt.1 hbegin
          · exact le_trans (by omega) (h.after x hx)
        obtain ⟨s', _, hrun, hinv, hclear⟩ := removeRest_spec begin stop newVma h hafter
          (le_trans (by simp) hfuel)
        rw [if_neg hbegin]
        exact ⟨_, s', hrun, hclear.removed h.tree.nodup hbehind (hkind rfl) hinv⟩

end Vma
