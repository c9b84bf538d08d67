import Gramine.VmaRemove

/-!
# Objects for vmas

Every object is in one place: in the tree, with the function that runs, in the cache
of a thread, or in the memory manager. `alloc_vma` may map memory for new objects on
the way, which adds a vma to the tree; the object that stands for it until then is on
the stack.
-/

open IntervalList Function List

namespace Vma

open LibosVma

variable {Addr : Type} {s s' : State Addr} {l l1 l2 xs taken : List Addr}
  {a : Addr} {α β : Type}

/-! ## Runs that may stop -/

/-- The computation ends with a result as described, or stops at one of the faults, with the
tree still in order. -/
def Runs (faults : List Fault) (r : EStateM.Result Fault (State Addr) α)
    (Q : α → State Addr → Prop) : Prop :=
  match r with
  | .ok a s' => Q a s'
  | .error e s' => e ∈ faults ∧ ∃ l xs, Inv s' l xs

section Runs
variable {faults faults' : List Fault} {r : EStateM.Result Fault (State Addr) α}
  {P Q : α → State Addr → Prop}

theorem Runs.of_ok {x : α} (h : r = .ok x s') (hq : Q x s') : Runs faults r Q := by
  rwa [h]

theorem Runs.mono (h : Runs faults r P) (hpq : ∀ x s', P x s' → Q x s') : Runs faults r Q := by
  cases r with
  | ok x s' => exact hpq x s' h
  | error e s' => exact h

theorem Runs.weaken (h : Runs faults r P) (hsub : faults ⊆ faults') : Runs faults' r P := by
  cases r with
  | ok x s' => exact h
  | error e s' => exact ⟨hsub h.1, h.2⟩

theorem Runs.bind {x : M Addr α} {f : α → M Addr β} {Q : β → State Addr → Prop}
    (h : Runs faults (x s) P) (hf : ∀ y s', P y s' → Runs faults (f y s') Q) :
    Runs faults ((x >>= f) s) Q := by
  cases hx : x s with
  | ok y s' =>
    rw [bind_of_ok hx]
    rw [hx] at h
    exact hf y s' h
  | error e s' =>
    rw [bind_of_error hx]
    rwa [hx] at h

end Runs

/-! ## Where the objects are -/

/-- The objects that can still be handed out. -/
def State.spare (s : State Addr) : List Addr := s.mgr.objects ++ s.pal.reduceOption.flatten

/-- The objects in caches and in the memory manager are distinct from each other and
from the ones that are taken. -/
structure Pool (s : State Addr) (taken : List Addr) : Prop where
  nodup : ∀ t, (s.cache t ++ (s.spare ++ taken)).Nodup
  caches : ∀ t t', t ≠ t' → (s.cache t).Disjoint (s.cache t')
  areas : [] ∉ s.mgr.areas
  pal : some [] ∉ s.pal

namespace Pool

variable {taken' : List Addr}

variable (h : Pool s taken)

include h

theorem exchange (hcache : s'.cache = s.cache)
    (hperm : (s.spare ++ taken).Perm (s'.spare ++ taken')) (hareas : [] ∉ s'.mgr.areas)
    (hpal : some [] ∉ s'.pal) : Pool s' taken' := by
  refine ⟨fun t => ?_, by rw [hcache]; exact h.caches, hareas, hpal⟩
  rw [hcache]
  exact (hperm.append_left _).nodup_iff.1 (h.nodup t)

theorem perm (hperm : taken.Perm taken') : Pool s taken' :=
  h.exchange rfl (hperm.append_left _) h.areas h.pal

theorem same (hs : SamePool s s') : Pool s' taken := by
  refine h.exchange hs.cache ?_ (by rw [hs.mgr]; exact h.areas) (by rw [hs.pal]; exact h.pal)
  rw [State.spare, State.spare, hs.mgr, hs.pal]

theorem nodup_taken : taken.Nodup :=
  (nodup_append'.1 (nodup_append'.1 (h.nodup 0)).2.1).2.1

theorem sublist (hsub : taken'.Sublist taken) : Pool s taken' :=
  ⟨fun t => (h.nodup t).sublist ((hsub.append_left _).append_left _), h.caches, h.areas, h.pal⟩

omit h in
theorem nodup_front {k : List Addr} :
    (k ++ (s.spare ++ a :: taken)).Nodup ↔ (a :: (k ++ (s.spare ++ taken))).Nodup :=
  ((perm_middle.append_left k).trans perm_middle).nodup_iff

theorem takeCache {t : Nat} {rest : List Addr} (hcache : (s.cache t).Perm (a :: rest)) :
    Pool { s with cache := update s.cache t rest } (a :: taken) := by
  have ht : (a :: (rest ++ (s.spare ++ taken))).Nodup :=
    (hcache.append_right _).nodup_iff.1 (h.nodup t)
  have ha : a ∈ s.cache t := hcache.mem_iff.2 mem_cons_self
  have hsub : ∀ t', ∀ x ∈ update s.cache t rest t', x ∈ s.cache t' :=
    (forall_update_iff s.cache fun t' k => ∀ x ∈ k, x ∈ s.cache t').2
      ⟨fun x hx => hcache.mem_iff.2 (mem_cons_of_mem _ hx), fun _ _ _ => id⟩
  refine ⟨(forall_update_iff s.cache fun _ k => (k ++ (s.spare ++ a :: taken)).Nodup).2
    ⟨nodup_front.2 ht, fun t' htt => nodup_front.2 (nodup_cons.2 ⟨fun hmem => ?_, h.nodup t'⟩)⟩,
    fun t1 t2 hne x h1 h2 => h.caches t1 t2 hne (hsub t1 x h1) (hsub t2 x h2), h.areas, h.pal⟩
  rcases mem_append.1 hmem with hmem | hmem
  · exact h.caches t' t htt hmem ha
  · exact (nodup_cons.1 ht).1 (mem_append_right _ hmem)

omit h

theorem putCache {t : Nat} (h : Pool s (a :: taken)) :
    Pool { s with cache := update s.cache t (a :: s.cache t) } taken := by
  have hnot : ∀ t', a ∉ s.cache t' := fun t' hmem =>
    disjoint_of_nodup_append (h.nodup t') hmem (by simp)
  refine ⟨(forall_update_iff s.cache fun _ k => (k ++ (s.spare ++ taken)).Nodup).2
    ⟨nodup_front.1 (h.nodup t), fun t' _ => (nodup_cons.1 (nodup_front.1 (h.nodup t'))).2⟩,
    fun t1 t2 hne => ?_, h.areas, h.pal⟩
  by_cases h1 : t1 = t
  · subst h1
    simp only [update_self, update_of_ne (Ne.symm hne)]
    exact disjoint_cons_left.2 ⟨hnot t2, h.caches t1 t2 hne⟩
  · by_cases h2 : t2 = t
    · subst h2
      simp only [update_self, update_of_ne hne]
      exact disjoint_cons_right.2 ⟨hnot t1, h.caches t1 t2 hne⟩
    · simp only [update_of_ne h1, update_of_ne h2]
      exact h.caches t1 t2 hne

end Pool

/-- The invariant of the tree, and of the objects: `l` in the tree, `xs` with the
function that runs, and `ys` besides. -/
structure Good (ys : List Addr) (s : State Addr) (l xs : List Addr) : Prop where
  inv : Inv s l xs
  pool : Pool s (ys ++ (l ++ xs))

/-! ## Freeing -/

section Free
variable {ys : List Addr} (env : Env Addr)

theorem uncountMmapped_spec (h : Inv s l (a :: xs)) :
    ∃ num, uncountMmapped (s.vma a).file s = .ok ⟨⟩ { s with numMmapped := num } ∧
      Inv { s with numMmapped := num } l xs := by
  have hnd : (l ++ xs).Nodup := h.nodup.sublist ((sublist_cons_self a xs).append_left l)
  have hcount : ∀ i, s.numMmapped i = ((l ++ xs).map s.vma).countP (fun v => v.inode = some i) +
      if (s.vma a).inode = some i then 1 else 0 := by
    intro i
    rw [h.mmapped i]
    simp only [map_append, map_cons, countP_append, countP_cons, decide_eq_true_eq]
    omega
  unfold uncountMmapped
  cases hi : (s.vma a).file.bind LibosHandle.inode with
  | none =>
    refine ⟨s.numMmapped, rfl, h.tree, hnd, h.ordered, h.bound, h.total, fun i => ?_⟩
    simpa [inode, hi] using hcount i
  | some i =>
    have hpos : 0 < s.numMmapped i := by
      rw [hcount i, inode, hi, if_pos rfl]
      exact Nat.succ_pos _
    refine ⟨update s.numMmapped i (s.numMmapped i - 1), ?_, h.tree, hnd, h.ordered,
      h.bound, h.total, fun j => ?_⟩
    · simp only
      rw [get_bind, assertion_bind hpos]
      rfl
    have hj := hcount j
    rw [inode, hi] at hj
    by_cases hij : j = i
    · subst hij
      simp only [update_self]
      rw [if_pos rfl] at hj
      exact Nat.sub_eq_of_eq_add hj
    · simp only [update_of_ne hij]
      rwa [if_neg (fun he => hij (Option.some.inj he).symm)] at hj

/-- **`free_vma`** gives an object back. -/
theorem freeVma_spec (h : Good ys s l (a :: xs)) :
    ∃ s', freeVma env a s = .ok ⟨⟩ s' ∧ Good ys s' l xs ∧ s'.vma = s.vma ∧
      (s.cache env.tid = [] → s'.cache env.tid = [a]) := by
  obtain ⟨num, hrun, hinv⟩ := uncountMmapped_spec h.inv
  have hpool : Pool { s with numMmapped := num } (a :: (ys ++ (l ++ xs))) := by
    have hsame : SamePool s { s with numMmapped := num } := ⟨rfl, rfl, rfl⟩
    exact (h.pool.same hsame).perm ((perm_middle.append_left ys).trans perm_middle)
  rw [freeVma, getVma_bind, bind_of_ok hrun]
  by_cases hfull : vmaCacheSize ≤ (s.cache env.tid).length
  · have hadd : addToThreadVmaCache env a { s with numMmapped := num } =
        .ok false { s with numMmapped := num } := by
      rw [addToThreadVmaCache, get_bind, if_pos hfull]
      rfl
    have hne : s.cache env.tid ≠ [] := by
      intro he
      rw [he, length_nil] at hfull
      exact absurd hfull (by decide)
    rw [bind_of_ok hadd]
    unfold freeMemObjToMgr
    by_cases hmig : env.memoryMigrated a = true
    · rw [if_pos hmig]
      exact ⟨_, rfl, ⟨hinv, hpool.sublist (sublist_cons_self _ _)⟩, rfl, fun he => absurd he hne⟩
    rw [if_neg hmig]
    refine ⟨_, rfl, ⟨hinv.congr rfl rfl rfl rfl, ?_⟩, rfl, fun he => absurd he hne⟩
    refine hpool.exchange rfl ?_ hpool.areas hpool.pal
    simp only [State.spare, MemMgr.objects, append_assoc]
    refine List.Perm.append_left _ ?_
    simp only [← append_assoc]
    rw [append_assoc _ ys, append_assoc _ (ys ++ l)]
    exact perm_middle
  · have hadd : addToThreadVmaCache env a { s with numMmapped := num } = .ok true
        { s with
          numMmapped := num
          cache := update s.cache env.tid (a :: s.cache env.tid) } := by
      rw [addToThreadVmaCache, get_bind, if_neg hfull]
      rfl
    rw [bind_of_ok hadd]
    refine ⟨_, rfl, ⟨hinv.congr rfl rfl rfl rfl, hpool.putCache⟩, rfl, fun he => ?_⟩
    simp [he]

theorem freeVmasFreelist_spec {ws : List Addr} (h : Good ys s l (ws ++ xs)) :
    ∃ s', freeVmasFreelist env ws s = .ok ⟨⟩ s' ∧ Good ys s' l xs ∧ s'.vma = s.vma := by
  induction ws generalizing s with
  | nil => exact ⟨s, rfl, h, rfl⟩
  | cons w ws ih =>
    obtain ⟨s1, hrun1, h1, hvma1, -⟩ := freeVma_spec env h
    obtain ⟨s2, hrun2, h2, hvma2⟩ := ih h1
    exact ⟨s2, by rw [freeVmasFreelist, bind_of_ok hrun1, hrun2], h2, hvma2.trans hvma1⟩

theorem freeOptVma_spec {w : Option Addr} (h : Good ys s l (w.toList ++ xs)) :
    ∃ s', freeOptVma env w s = .ok ⟨⟩ s' ∧ Good ys s' l xs ∧ s'.vma = s.vma := by
  cases w with
  | none => exact ⟨s, rfl, h, rfl⟩
  | some w =>
    obtain ⟨s', hrun, h', hvma, -⟩ := freeVma_spec env h
    exact ⟨s', hrun, h', hvma⟩

end Free

variable [DecidableEq Addr]

/-! ## Searching a gap -/

section Search
variable {ys : List Addr} {env : Env Addr}

/-- The gap that was found: between two neighbours, and in the range. -/
structure Gap (s : State Addr) (l : List Addr) (bottomAddr topAddr length m : Nat) : Prop where
  bottom : bottomAddr + length ≤ m
  top : m ≤ topAddr
  split : ∃ l1 l2, l = l1 ++ l2 ∧ (∀ x ∈ l1, (s.vma x).stop + length ≤ m) ∧
    ∀ x ∈ l2, m ≤ (s.vma x).begin

variable {bottomAddr length topAddr : Nat}

omit [DecidableEq Addr] in
theorem Gap.of_low {m m' : Nat} (hm : m ≤ topAddr) (h2 : ∀ x ∈ l2, m ≤ (s.vma x).begin)
    (hlow : ∀ x ∈ l1, (s.vma x).stop < bottomAddr)
    (hm' : m' ∈ if bottomAddr ≤ m ∧ length ≤ m - bottomAddr then some m else none) :
    Gap s (l1 ++ l2) bottomAddr topAddr length m' := by
  split_ifs at hm' with hc
  · cases hm'
    refine ⟨by omega, hm, l1, l2, rfl, fun x hx => ?_, h2⟩
    have := hlow x hx
    omega
  · cases hm'

/-- There is room for `length` bytes at `addr`, inside the range. -/
structure Fits (s : State Addr) (l : List Addr) (bottomAddr topAddr length addr : Nat) : Prop where
  bottom : bottomAddr ≤ addr
  top : addr + length ≤ topAddr
  free : ∀ x ∈ l, (s.vma x).stop ≤ addr ∨ addr + length ≤ (s.vma x).begin

/-- What the search gives is the highest place there is, and it gives nothing only if
there is none. -/
def Best (s : State Addr) (l : List Addr) (bottomAddr topAddr length : Nat) (r : Option Nat) :
    Prop :=
  (∀ m ∈ r, ∀ addr, Fits s l bottomAddr topAddr length addr → addr + length ≤ m) ∧
    (r = none → ∀ addr, ¬ Fits s l bottomAddr topAddr length addr)

omit [DecidableEq Addr] in
/-- The check after the loop: all places left are between `bottom_addr` and `m`. -/
theorem Best.of_low {m : Nat}
    (hbest : ∀ addr, Fits s l bottomAddr topAddr length addr → addr + length ≤ m) :
    Best s l bottomAddr topAddr length
      (if bottomAddr ≤ m ∧ length ≤ m - bottomAddr then some m else none) := by
  split_ifs with hc
  · refine ⟨?_, by simp⟩
    intro m' hm' addr hfits
    cases hm'
    exact hbest addr hfits
  · refine ⟨by simp, ?_⟩
    intro _ addr hfits
    have := hbest addr hfits
    have := hfits.bottom
    omega

/-- The loop goes down from the vmas `l2`, which begin at `m` or behind; no place is
higher than `m`. -/
theorem findGap_best (bottomAddr length : Nat) {fuel m : Nat} (h : TreeHolds s.vmaTree (l1 ++ l2))
    (hord : Ordered begin stop ((l1 ++ l2).map s.vma)) (hm : m ≤ topAddr)
    (h1 : ∀ x ∈ l1, (s.vma x).stop ≤ m) (h2 : ∀ x ∈ l2, m ≤ (s.vma x).begin)
    (hfuel : l1.length ≤ fuel)
    (hbest : ∀ addr, Fits s (l1 ++ l2) bottomAddr topAddr length addr → addr + length ≤ m) :
    ∃ r, findGap bottomAddr length fuel m l1.getLast? s = .ok r s ∧
      (∀ m' ∈ r, Gap s (l1 ++ l2) bottomAddr topAddr length m') ∧
      Best s (l1 ++ l2) bottomAddr topAddr length r := by
  induction l1 using List.reverseRecOn generalizing l2 fuel m with
  | nil =>
    have hrun : findGap bottomAddr length fuel m (none : Option Addr) s =
        .ok (if bottomAddr ≤ m ∧ length ≤ m - bottomAddr then some m else none) s := by
      cases fuel <;> rfl
    exact ⟨_, hrun, fun m' hm' => Gap.of_low hm h2 (by simp) hm', .of_low hbest⟩
  | append_singleton k a ih =>
    rw [length_append, length_singleton] at hfuel
    obtain ⟨fuel, rfl⟩ := Nat.exists_eq_add_one_of_ne_zero (show fuel ≠ 0 by omega)
    rw [append_assoc, singleton_append] at h hord hbest
    have hord' := hord
    rw [map_append, map_cons, Ordered.append_iff, Ordered.cons_iff] at hord'
    obtain ⟨-, ⟨hlt, hafter, -⟩, hbefore⟩ := hord'
    have hka : ∀ x ∈ k, (s.vma x).stop ≤ (s.vma a).begin := fun x hx =>
      hbefore _ (mem_map_of_mem hx) _ mem_cons_self
    have ham := h1 a (by simp)
    have hle : ∀ x ∈ k ++ [a], (s.vma x).stop ≤ (s.vma a).stop := by
      intro x hx
      rcases mem_append.1 hx with hx | hx
      · exact (hka x hx).trans hlt.le
      · exact mem_singleton.1 hx ▸ le_rfl
    rw [getLast?_concat, findGap, getVma_bind]
    by_cases hbot : bottomAddr ≤ (s.vma a).stop
    · rw [if_pos hbot, assertion_bind ham]
      by_cases hfits : length ≤ m - (s.vma a).stop
      · rw [if_pos hfits]
        refine ⟨_, rfl, fun m' hm' => ?_, ?_, by simp⟩
        · cases hm'
          refine ⟨by omega, hm, k ++ [a], l2, rfl, fun x hx => ?_, h2⟩
          have := hle x hx
          omega
        · intro m' hm' addr hfit
          cases hm'
          exact hbest addr (by simpa using hfit)
      · rw [if_neg hfits, bind_of_ok h.getPrevVma]
        rw [append_assoc]
        refine ih h hord (by omega) hka (fun x hx => ?_) (by omega) ?_
        · rcases mem_cons.1 hx with rfl | hx
          · exact le_rfl
          · have := hafter _ (mem_map_of_mem hx)
            omega
        -- between this vma and `m` there is too little room
        intro addr hfit
        have hbelow := hbest addr hfit
        rcases hfit.free a (by simp) with hfree | hfree
        · omega
        · exact hfree
    · rw [if_neg hbot]
      refine ⟨_, rfl, fun m' hm' => Gap.of_low hm h2 (fun x hx => ?_) hm',
        .of_low (by simpa using hbest)⟩
      have := hle x hx
      omega

/-- Where the search starts: no vma below reaches `max_addr`. -/
theorem searchStart_spec (h : TreeHolds s.vmaTree l)
    (hord : Ordered begin stop (l.map s.vma)) (topAddr : Nat) :
    ∃ m l1 l2, searchStart topAddr s = .ok (m, l1.getLast?) s ∧ l = l1 ++ l2 ∧ m ≤ topAddr ∧
      (∀ x ∈ l1, (s.vma x).stop ≤ m) ∧ (∀ x ∈ l2, m ≤ (s.vma x).begin) ∧
      ∀ bottomAddr length, 0 < length → ∀ addr, Fits s l bottomAddr topAddr length addr →
        addr + length ≤ m := by
  obtain ⟨k1, k2, rfl, h1, h2, hlookup⟩ := h.lookupVma hord topAddr
  cases k2 with
  | nil =>
    refine ⟨topAddr, k1, [], ?_, rfl, le_rfl, h1, by simp, fun _ _ _ _ hfit => hfit.top⟩
    rw [searchStart, bind_of_ok hlookup]
    simp only [head?_nil]
    rw [bind_of_ok h.getLastVma, append_nil]
    rfl
  | cons a k2 =>
    rw [map_append, map_cons, Ordered.append_iff, Ordered.cons_iff] at hord
    obtain ⟨-, ⟨hlt, hafter, -⟩, hbefore⟩ := hord
    refine ⟨min topAddr (s.vma a).begin, k1, a :: k2, ?_, rfl, min_le_left _ _, ?_, ?_, ?_⟩
    · rw [searchStart, bind_of_ok hlookup]
      simp only [head?_cons]
      rw [getVma_bind, bind_of_ok h.getPrevVma]
      rfl
    · intro x hx
      exact Nat.le_min.2 ⟨h1 x hx, hbefore _ (mem_map_of_mem hx) _ mem_cons_self⟩
    · intro x hx
      refine (Nat.min_le_right _ _).trans ?_
      rcases mem_cons.1 hx with rfl | hx
      · exact le_rfl
      · exact (hlt.le).trans (hafter _ (mem_map_of_mem hx))
    · -- the vma ends behind `top_addr`, so a place in the range is before it
      intro bottomAddr length hlen addr hfit
      have htop := hfit.top
      have hbehind := h2 a mem_cons_self
      rcases hfit.free a (by simp) with hfree | hfree
      · omega
      · exact Nat.le_min.2 ⟨htop, hfree⟩

/-- What `bkeep_mmap_any_in_range` does with the vma it has allocated. -/
inductive PlaceResult (env : Env Addr) (ys : List Addr) (s : State Addr) (l xs : List Addr)
    (length : Nat) (map : Mapping) (newVma : Addr) : Except Errno Nat → State Addr → Prop
  | full {s' : State Addr} (good : Good ys s' l xs)
      (same : ∀ x, x ≠ newVma → s'.vma x = s.vma x)
      (cache : s.cache env.tid = [] → s'.cache env.tid = [newVma]) :
    PlaceResult env ys s l xs length map newVma (.error .enomem) s'
  | placed {s' : State Addr} {l1 l2 : List Addr} {addr : Nat} (hl : l = l1 ++ l2)
      (good : Good ys s' (l1 ++ newVma :: l2) xs) (same : ∀ x, x ≠ newVma → s'.vma x = s.vma x)
      (pool : SamePool s s') (vma : s'.vma newVma = map.vma addr (addr + length)) :
    PlaceResult env ys s l xs length map newVma (.ok addr) s'

omit [DecidableEq Addr] in
theorem Fits.congr {addr : Nat} (hvma : ∀ x ∈ l, s'.vma x = s.vma x) :
    Fits s' l bottomAddr topAddr length addr ↔ Fits s l bottomAddr topAddr length addr := by
  constructor
  · rintro ⟨hbottom, htop, hfree⟩
    exact ⟨hbottom, htop, fun x hx => hvma x hx ▸ hfree x hx⟩
  · rintro ⟨hbottom, htop, hfree⟩
    exact ⟨hbottom, htop, fun x hx => (hvma x hx).symm ▸ hfree x hx⟩

/-- What is returned is the highest place, if there is one. -/
def Highest (s : State Addr) (l : List Addr) (bottomAddr topAddr length : Nat) :
    Except Errno Nat → Prop
  | .ok addr => Fits s l bottomAddr topAddr length addr ∧
      ∀ addr', Fits s l bottomAddr topAddr length addr' → addr' ≤ addr
  | .error e => e = .enomem ∧ ∀ addr, ¬ Fits s l bottomAddr topAddr length addr

/-- **The search under the lock**: the new vma is put at the highest place. -/
theorem mmapAnyInRangeLocked_highest (env : Env Addr) (bottomAddr : Nat) (map : Mapping)
    {newVma : Addr} (h : Good ys s l (newVma :: xs)) (hnew : s.vma newVma = .zero)
    (hlen : 0 < length) (htop : topAddr < 2 ^ 64) :
    ∃ r s', mmapAnyInRangeLocked env bottomAddr topAddr length map newVma s = .ok r s' ∧
      PlaceResult env ys s l xs length map newVma r s' ∧
      Highest s l bottomAddr topAddr length r := by
  generalize hs1 : { s with
    vma := update s.vma newVma (map.vma 0 0)
    numMmapped := bump map.file s.numMmapped } = s1
  have hinv1 : Inv s1 l (newVma :: xs) := by
    rw [← hs1]
    refine h.inv.setOutside (update_self ..) (fun x hx => update_of_ne hx _ _) ?_
    intro i
    rw [hnew, bump_apply]
    rfl
  have hpool1 : SamePool s s1 := by
    rw [← hs1]
    exact ⟨rfl, rfl, rfl⟩
  have hsame1 : ∀ x, x ≠ newVma → s1.vma x = s.vma x := by
    rw [← hs1]
    exact fun x hx => update_of_ne hx _ _
  have hvma1 : s1.vma newVma = map.vma 0 0 := by
    rw [← hs1]
    exact update_self ..
  have hrun1 : mmapAnyInRangeLocked env bottomAddr topAddr length map newVma s =
      placeInGap env bottomAddr topAddr length newVma s1 := by
    rw [mmapAnyInRangeLocked, modifyVma_bind, bind_of_ok (countMmapped_eq _ _), hnew, ← hs1]
    rfl
  have hfits1 : ∀ addr, Fits s1 l bottomAddr topAddr length addr ↔
      Fits s l bottomAddr topAddr length addr := by
    exact fun addr => Fits.congr fun x hx => hsame1 x (h.inv.ne_of_mem (mem_append_left _ hx))
  obtain ⟨m, l1, l2, hstart, rfl, hm, h1, h2, hbest⟩ :=
    searchStart_spec hinv1.tree hinv1.ordered topAddr
  have hfuel : l1.length ≤ s1.fuel := by
    rw [State.fuel, ← hinv1.tree.nodes.length_eq, length_append]
    omega
  obtain ⟨r, hgap, hr, hhigh, hnone⟩ := findGap_best bottomAddr length hinv1.tree hinv1.ordered
    hm h1 h2 hfuel (hbest bottomAddr length hlen)
  have hlast : ∀ a ∈ l1.getLast?, (s1.vma a).stop ≤ m := fun a ha =>
    h1 a (mem_of_getLast? ha)
  rw [hrun1, placeInGap, bind_of_ok hstart, get_bind, assertion_bind hlast, bind_of_ok hgap]
  cases r with
  | none =>
    obtain ⟨s', hfree, hgood, hvma, hcache⟩ := freeVma_spec env ⟨hinv1, h.pool.same hpool1⟩
    refine ⟨_, s', bind_of_ok hfree, .full hgood (fun x hx => ?_) fun he => ?_, rfl, ?_⟩
    · rw [hvma, hsame1 x hx]
    · exact hcache (by rw [hpool1.cache]; exact he)
    · exact fun addr hfit => hnone rfl addr ((hfits1 addr).2 hfit)
  | some m' =>
    have hg := hr m' rfl
    have hbot := hg.bottom
    have htop' := hg.top
    obtain ⟨k1, k2, hk, hk1, hk2⟩ := hg.split
    have hinv2 : Inv { s1 with vma := update s1.vma newVma (map.vma (m' - length) m') }
        (k1 ++ k2) (newVma :: xs) :=
      (hk ▸ hinv1).setOutside (update_self ..) (fun x hx => update_of_ne hx _ _)
        fun i => by rw [hvma1]; rfl
    have hother : ∀ x ∈ k1 ++ k2, update s1.vma newVma (map.vma (m' - length) m') x = s1.vma x :=
      fun x hx => update_of_ne (hinv2.ne_of_mem (mem_append_left _ hx)) _ _
    obtain ⟨t, s', hins, hadd, hinv', hpool', hvma'⟩ := hinv2.insert (update_self ..)
      (show m' - length < m' by omega) (htop'.trans_lt htop)
      (fun x hx => by
        have hkx := hk1 x hx
        simp only [hother x (mem_append_left _ hx)]
        exact Nat.le_sub_of_add_le hkx)
      (fun x hx => by
        simp only [hother x (mem_append_right _ hx)]
        exact hk2 x hx)
    simp only at hvma'
    have hpool : SamePool s s' := hpool1.trans ⟨hpool'.cache, hpool'.mgr, hpool'.pal⟩
    refine ⟨.ok (m' - length), s', ?_, .placed hk ⟨hinv', ?_⟩ (fun x hx => ?_) hpool ?_, ?_, ?_⟩
    · simp only [modifyVma_bind, hvma1]
      exact (bind_of_ok hins).trans (bind_of_ok hadd)
    · refine (h.pool.same hpool).perm (List.Perm.append_left ys ?_)
      rw [hk]
      simp only [append_assoc]
      exact ((perm_middle.append_left k1)).trans (by simp)
    · rw [hvma', update_of_ne hx, hsame1 x hx]
    · rw [hvma', update_self, Nat.sub_add_cancel (by omega)]
    · refine (hfits1 _).1 ⟨by omega, by omega, fun x hx => ?_⟩
      rw [hk] at hx
      rcases mem_append.1 hx with hx | hx
      · have := hk1 x hx
        omega
      · have := hk2 x hx
        omega
    · intro addr' hfit
      have := hhigh m' rfl addr' ((hfits1 addr').2 hfit)
      omega

end Search

/-! ## The vmas of the application -/

/-- A vma in the tree that is not internal. -/
def State.UserVma (s : State Addr) (v : LibosVma) : Prop :=
  ∃ a ∈ s.vmaTree.nodes, s.vma a = v ∧ v.isInternal = false

omit [DecidableEq Addr] in
theorem Inv.userVma_iff (h : Inv s l xs) {v : LibosVma} :
    s.UserVma v ↔ v ∈ l.map s.vma ∧ v.isInternal = false := by
  constructor
  · rintro ⟨a, ha, rfl, hv⟩
    exact ⟨mem_map_of_mem (h.tree.nodes.mem_iff.2 ha), hv⟩
  · rintro ⟨hmem, hv⟩
    obtain ⟨a, ha, rfl⟩ := mem_map.1 hmem
    exact ⟨a, h.tree.nodes.mem_iff.1 ha, rfl, hv⟩

/-- The application has the same vmas. -/
def SameUser (s s' : State Addr) : Prop := ∀ v, s'.UserVma v ↔ s.UserVma v

namespace SameUser

section
omit [DecidableEq Addr]

theorem refl (s : State Addr) : SameUser s s := fun _ => Iff.rfl

theorem trans {s'' : State Addr} (h : SameUser s s') (h' : SameUser s' s'') : SameUser s s'' :=
  fun v => (h' v).trans (h v)

variable {xs' : List Addr}

theorem of_map {l' : List Addr} (h : Inv s l xs) (h' : Inv s' l' xs')
    (hmap : l'.map s'.vma = l.map s.vma) : SameUser s s' := by
  intro v
  rw [h.userVma_iff, h'.userVma_iff, hmap]

theorem of_same (h : Inv s l xs) (h' : Inv s' l xs') (hsame : ∀ x ∈ l, s'.vma x = s.vma x) :
    SameUser s s' :=
  of_map h h' (map_congr_left hsame)

theorem of_internal (h : Inv s (l1 ++ l2) xs) (h' : Inv s' (l1 ++ a :: l2) xs')
    (hsame : ∀ x ∈ l1 ++ l2, s'.vma x = s.vma x) (ha : (s'.vma a).isInternal = true) :
    SameUser s s' := by
  intro v
  rw [h.userVma_iff, h'.userVma_iff, ← map_congr_left hsame]
  simp only [map_append, map_cons, mem_append, mem_cons]
  constructor
  · rintro ⟨h1 | rfl | h2, hv⟩
    · exact ⟨.inl h1, hv⟩
    · cases ha.symm.trans hv
    · exact ⟨.inr h2, hv⟩
  · rintro ⟨h1 | h2, hv⟩
    · exact ⟨.inl h1, hv⟩
    · exact ⟨.inr (.inr h2), hv⟩

end

end SameUser

/-! ## Allocation -/

section Alloc
variable {ys : List Addr} {env : Env Addr} {pal : PalPublicState}

omit [DecidableEq Addr] in
theorem Inv.addOutside {vma' : Addr → LibosVma} {t : AvlTree.State Addr} (h : Inv s l xs)
    (ha : a ∉ l ++ xs) (hv : (vma' a).inode = none) (hother : ∀ x, x ≠ a → vma' x = s.vma x)
    (ht : TreeHolds t l) : Inv { s with vma := vma', vmaTree := t } l (a :: xs) := by
  rw [mem_append, not_or] at ha
  have hl := map_congr_of_notMem hother ha.1
  have hx := map_congr_of_notMem hother ha.2
  refine ⟨ht, ?_, ?_, fun x hxl => ?_, ?_, fun i => ?_⟩
  · rw [nodup_middle, nodup_cons, mem_append, not_or]
    exact ⟨ha, h.nodup⟩
  · simpa only [hl] using h.ordered
  · have hxa : x ≠ a := by
      rintro rfl
      exact ha.1 hxl
    simp only [hother x hxa]
    exact h.bound x hxl
  · simpa only [hl] using h.total
  · simpa [hl, hx, hv, countP_cons] using h.mmapped i

/-- `memset` of an object that is taken, but was not described yet. -/
theorem zeroVma_spec (h : Inv s l xs) (hpool : Pool s (a :: taken))
    (hsub : ∀ x ∈ l ++ xs, x ∈ taken) :
    ∃ s', zeroVma a s = .ok ⟨⟩ s' ∧ Inv s' l (a :: xs) ∧ SamePool s s' ∧ s'.vma a = .zero ∧
      ∀ x, x ≠ a → s'.vma x = s.vma x := by
  have ha : a ∉ l ++ xs := fun hmem =>
    (nodup_cons.1 hpool.nodup_taken).1 (hsub a hmem)
  refine ⟨_, rfl, h.addOutside ha (by rw [update_self]; rfl)
    (fun x hx => update_of_ne hx _ _) ?_, ⟨rfl, rfl, rfl⟩, update_self ..,
    fun x hx => update_of_ne hx _ _⟩
  exact h.tree.initNode fun hmem => ha (mem_append_left _ hmem)

omit [DecidableEq Addr] in
theorem Pool.takeObj {mgr : MemMgr Addr} (h : Pool s taken)
    (hobj : s.mgr.objects = a :: mgr.objects) (hareas : [] ∉ mgr.areas) :
    Pool { s with mgr := mgr } (a :: taken) := by
  refine h.exchange rfl ?_ hareas h.pal
  rw [State.spare, hobj]
  exact perm_middle.symm

omit [DecidableEq Addr] in
/-- **`get_mem_obj_from_mgr`** returns an object, unless there is none. -/
theorem getMemObjFromMgr_spec (h : Pool s taken) :
    (getMemObjFromMgr s = .ok none s ∧ s.mgr.areas = []) ∨
      ∃ b mgr, getMemObjFromMgr s = .ok (some b) { s with mgr := mgr } ∧
        Pool { s with mgr := mgr } (b :: taken) := by
  have hareas := h.areas
  rw [getMemObjFromMgr, get_bind, MemMgr.activate]
  by_cases hused : s.mgr.objs = [] ∧ s.mgr.freeList = []
  · rw [if_pos hused]
    cases hs : s.mgr.areas with
    | nil => exact .inl ⟨rfl, rfl⟩
    | cons area rest =>
      rw [hs, mem_cons, not_or] at hareas
      obtain ⟨obj, objs, rfl⟩ := exists_cons_of_ne_nil (Ne.symm hareas.1)
      refine .inr ⟨obj, ⟨[], objs, rest⟩, ?_, h.takeObj ?_ hareas.2⟩
      · simp only [hused.2]
        rfl
      · simp [MemMgr.objects, hused, hs]
  · rw [if_neg hused]
    cases hf : s.mgr.freeList with
    | cons obj rest =>
      refine .inr ⟨obj, { s.mgr with freeList := rest }, ?_, h.takeObj ?_ hareas⟩
      · simp only [hf]
        rfl
      · simp [MemMgr.objects, hf]
    | nil =>
      cases ho : s.mgr.objs with
      | nil => exact absurd ⟨ho, hf⟩ hused
      | cons obj rest =>
        refine .inr ⟨obj, { s.mgr with objs := rest }, ?_, h.takeObj ?_ hareas⟩
        · simp only [hf, ho]
          rfl
        · simp [MemMgr.objects, hf, ho]

/-- **`bkeep_mmap_any_in_range`**: an error before anything is done, or a vma is allocated
and placed. -/
theorem bkeepMmapAnyInRange_rule {alloc : M Addr (Option Addr)} {bottomAddr topAddr length : Nat}
    {map : Mapping} {P : Option Addr → State Addr → Prop} {Q : Except Errno Nat → State Addr → Prop}
    (hlt : bottomAddr < topAddr)
    (hrange : pal.memoryAddressStart ≤ bottomAddr ∧ topAddr ≤ pal.memoryAddressEnd ∨
      pal.sharedAddressStart ≤ bottomAddr ∧ topAddr ≤ pal.sharedAddressEnd)
    (halloc : Runs [.alignment] (alloc s) P) (herror : ∀ e, Q (.error e) s)
    (hnone : ∀ s', P none s' → Q (.error .enomem) s')
    (hsome : ∀ b s' bottomAddr topAddr, P (some b) s' → 0 < length → topAddr < 2 ^ 64 →
      Runs [.alignment] (mmapAnyInRangeLocked env bottomAddr topAddr length map b s') Q) :
    Runs [.alignment] (bkeepMmapAnyInRange pal env alloc bottomAddr topAddr length map s) Q := by
  have hbound : topAddr < 2 ^ 64 := by
    have h1 := pal.memory_bound
    have h2 := pal.shared_bound
    omega
  rw [bkeepMmapAnyInRange, assertion_bind hlt, assertion_bind hrange]
  by_cases hlen : length = 0 ∨ pal.isAllocAligned length = false
  · rw [if_pos hlen]
    exact herror _
  rw [if_neg hlen]
  by_cases halign : pal.isAllocAligned bottomAddr = false ∨ pal.isAllocAligned topAddr = false
  · rw [if_pos halign]
    exact herror _
  rw [if_neg halign, get_bind]
  cases hearly : earlyRange pal s.receivedUserMemory map.flags bottomAddr topAddr with
  | none => exact herror _
  | some range =>
    obtain ⟨b1, t1⟩ := range
    have hearly' : b1 < t1 ∧ t1 ≤ topAddr := by
      unfold earlyRange at hearly
      have hpal := pal.early_lt
      split_ifs at hearly with h1 h2
      · obtain ⟨rfl, rfl⟩ := Prod.mk.inj (Option.some.inj hearly)
        omega
      · obtain ⟨rfl, rfl⟩ := Prod.mk.inj (Option.some.inj hearly)
        exact ⟨hlt, le_rfl⟩
    simp only
    rw [assertion_bind hearly'.1]
    cases h32 : range32Bit map.flags b1 t1 with
    | none => exact herror _
    | some range =>
      obtain ⟨b2, t2⟩ := range
      have h32' : t2 ≤ t1 := by
        unfold range32Bit at h32
        split_ifs at h32 with h1 h2
        · obtain ⟨rfl, rfl⟩ := Prod.mk.inj (Option.some.inj h32)
          exact min_le_left _ _
        · obtain ⟨rfl, rfl⟩ := Prod.mk.inj (Option.some.inj h32)
          exact le_rfl
      refine halloc.bind fun r s' hr => ?_
      cases r with
      | none => exact hnone s' hr
      | some b => exact hsome b s' b2 t2 hr (by omega) (by omega)

/-- `alloc_vma` when the cache of the thread has an object. -/
theorem allocVma_cached (pal : PalPublicState) (depth : Nat) {rest : List Addr} (hinv : Inv s l xs)
    (hpool : Pool s (ys ++ (l ++ xs))) (hcache : s.cache env.tid = a :: rest) :
    ∃ s', allocVma pal env (depth + 1) s = .ok (some a) s' ∧ Good ys s' l (a :: xs) ∧
      s'.vma a = .zero ∧ (∀ x, x ≠ a → s'.vma x = s.vma x) ∧ s'.cache env.tid = rest ∧
      s'.pal = s.pal := by
  have hpool1 := hpool.takeCache (List.Perm.of_eq hcache)
  obtain ⟨s', hzero, hinv', hsame, hva, hother⟩ := zeroVma_spec
    (s := { s with cache := update s.cache env.tid rest })
    (hinv.congr rfl rfl rfl rfl) hpool1
    (fun x hx => mem_append_right _ hx)
  refine ⟨s', ?_, ⟨hinv', ?_⟩, hva, hother, ?_, hsame.pal⟩
  · have htake : takeVma pal env (allocVma pal env depth) s =
        .ok (some a) { s with cache := update s.cache env.tid rest } := by
      rw [takeVma, getFromThreadVmaCache, bind_assoc, get_bind]
      simp only [hcache]
      rfl
    rw [allocVma, bind_of_ok htake]
    exact bind_of_ok hzero
  · refine (hpool1.same hsame).perm ?_
    exact (perm_middle.symm).trans (List.Perm.append_left ys perm_middle.symm)
  · rw [hsame.cache]
    exact update_self ..

theorem areaMapping_isInternal (begin stop : Nat) :
    (areaMapping.vma begin stop).isInternal = true := by
  have h : (areaMapping.vma 0 0).isInternal = true := by decide
  exact h

theorem RemoveResult.area {addr size : Nat} {tmp : Addr} {r : Removed Addr}
    (h : Inv s (l1 ++ tmp :: l2) xs) (hvma : s.vma tmp = areaMapping.vma addr (addr + size))
    (hr : RemoveResult s (l1 ++ tmp :: l2) xs addr (addr + size) true none r s') :
    r.ret = .ok () ∧ r.vmasToFree = [tmp] ∧ SamePool s s' ∧
      (∀ x ∉ l1 ++ tmp :: l2, s'.vma x = s.vma x) ∧
      ∃ l', Inv s' l' (tmp :: xs) ∧ (l' ++ [tmp]).Perm (l1 ++ tmp :: l2) ∧ SameUser s s' := by
  have hout : ∀ x ∈ l1 ++ tmp :: l2, x ≠ tmp → (s.vma x).begin < (s.vma x).stop ∧
        ((s.vma x).stop ≤ addr ∨ addr + size ≤ (s.vma x).begin) := by
    intro x hx hne
    refine ⟨h.ordered.nonempty _ (mem_map_of_mem hx), ?_⟩
    simp only [mem_append, mem_cons] at hx
    rcases hx with hx | hx | hx
    · have := h.before x hx
      rw [hvma] at this
      exact .inl this
    · exact absurd hx hne
    · have := h.after x hx
      rw [hvma] at this
      exact .inr this
  have hnd := h.tree.nodup
  have hfilter : (l1 ++ tmp :: l2).filter (fun x => (s.vma x).Inside addr (addr + size)) =
      [tmp] := by
    have hnone : ∀ k : List Addr, (∀ x ∈ k, x ∈ l1 ++ tmp :: l2 ∧ x ≠ tmp) →
        k.filter (fun x => (s.vma x).Inside addr (addr + size)) = [] := by
      intro k hk
      refine filter_eq_nil_iff.2 fun x hx hin => ?_
      have hin' : addr ≤ (s.vma x).begin ∧ (s.vma x).stop ≤ addr + size := of_decide_eq_true hin
      have := hout x (hk x hx).1 (hk x hx).2
      omega
    have htmp : (s.vma tmp).Inside addr (addr + size) := by
      rw [hvma]
      exact ⟨le_rfl, le_rfl⟩
    rw [nodup_middle, nodup_cons, mem_append, not_or] at hnd
    rw [filter_append, filter_cons, if_pos (decide_eq_true htmp), hnone l1, hnone l2]
    · rfl
    · exact fun x hx => ⟨by simp [hx], by rintro rfl; exact hnd.1.2 hx⟩
    · exact fun x hx => ⟨by simp [hx], by rintro rfl; exact hnd.1.1 hx⟩
  cases hr with
  | acces hkind =>
    obtain ⟨x, hx, hmeet, hne⟩ := hkind
    by_cases hxt : x = tmp
    · subst hxt
      rw [hvma] at hne
      exact absurd (areaMapping_isInternal addr (addr + size)) hne
    · have := hout x hx hxt
      have hm1 := hmeet.1
      have hm2 := hmeet.2
      omega
  | nomem _ _ houter =>
    obtain ⟨x, hx, h1, _⟩ := houter
    by_cases hxt : x = tmp
    · subst hxt
      rw [hvma] at h1
      exact absurd h1 (lt_irrefl _)
    · have := hout x hx hxt
      omega
  | removed _ hrest hfreed hinv pool perm same vmas =>
    obtain rfl : _ = none := hrest.elim id id
    rw [hfilter] at hfreed
    subst hfreed
    refine ⟨rfl, rfl, pool, fun x hx => same x hx (by simp), _, hinv, by simpa using perm, ?_⟩
    intro v
    rw [h.userVma_iff, hinv.userVma_iff, vmas]
    refine and_congr_left fun hv => ?_
    simp only [mem_flatMap, mem_map]
    constructor
    · rintro ⟨_, ⟨x, hx, rfl⟩, hcut⟩
      by_cases hxt : x = tmp
      · subst hxt
        have hin : (s.vma x).Inside addr (addr + size) := by
          rw [hvma]
          exact ⟨le_rfl, le_rfl⟩
        rw [cut_of_inside hin h.range] at hcut
        cases hcut
      · rw [cut, if_pos (hout x hx hxt).2, mem_singleton] at hcut
        exact ⟨x, hx, hcut.symm⟩
    · rintro ⟨x, hx, rfl⟩
      refine ⟨_, ⟨x, hx, rfl⟩, ?_⟩
      have hxt : x ≠ tmp := by
        rintro rfl
        rw [hvma, areaMapping_isInternal] at hv
        cases hv
      rw [cut, if_pos (hout x hx hxt).2]
      exact mem_singleton_self _

/-- What `_vma_malloc` leaves, when `tmp_vma` is the object in the cache. -/
inductive MallocResult (env : Env Addr) (s : State Addr) (l xs : List Addr) :
    Option (List Addr) → State Addr → Prop
  | failed {s' : State Addr} {l' : List Addr} (good : Good [] s' l' xs)
      (cache : s'.cache env.tid = [env.tmpVma]) (same : ∀ x ∈ xs, s'.vma x = s.vma x)
      (user : SameUser s s') :
    MallocResult env s l xs none s'
  | mapped {s' : State Addr} {l1 l2 objs : List Addr} (inv : Inv s' (l1 ++ env.tmpVma :: l2) xs)
      (pool : Pool s' (objs ++ (l1 ++ env.tmpVma :: l2 ++ xs))) (hobjs : objs ≠ [])
      (file : (s'.vma env.tmpVma).file = none) (cache : s'.cache env.tid = [])
      (same : ∀ x ∈ xs, s'.vma x = s.vma x) (user : SameUser s s') :
    MallocResult env s l xs (some objs) s'

/-- The memory of a new area is mapped, with `tmp_vma` as its vma. -/
theorem bkeepMmapAny_area (size : Nat) (h : Good [] s l xs)
    (hcache : s.cache env.tid = [env.tmpVma]) :
    Runs [.alignment] (bkeepMmapAny pal env (allocVma pal env 1) size areaMapping s) fun ret s' =>
      (∀ x ∈ xs, s'.vma x = s.vma x) ∧ SameUser s s' ∧ match ret with
      | .error _ => Good [] s' l xs ∧ s'.cache env.tid = [env.tmpVma]
      | .ok addr => s'.cache env.tid = [] ∧ s'.vma env.tmpVma = areaMapping.vma addr (addr + size) ∧
          ∃ l1 l2, Good [] s' (l1 ++ env.tmpVma :: l2) xs := by
  obtain ⟨s1, hrun, hgood, hzero, hother, hcache1, -⟩ :=
    allocVma_cached pal 0 h.inv h.pool hcache
  have htmp : ∀ x ∈ xs, x ≠ env.tmpVma := fun x hx =>
    hgood.inv.ne_of_mem (mem_append_right _ hx)
  have htree : ∀ x ∈ l, x ≠ env.tmpVma := fun x hx => hgood.inv.ne_of_mem (mem_append_left _ hx)
  refine bkeepMmapAnyInRange_rule (P := fun r s' => r = some env.tmpVma ∧ s' = s1) pal.memory_lt
    (.inl ⟨le_rfl, le_rfl⟩) (Runs.of_ok hrun ⟨rfl, rfl⟩)
    (fun e => ⟨fun x _ => rfl, .refl s, h, hcache⟩) (fun s' hP => by cases hP.1) ?_
  rintro b s' bottomAddr topAddr ⟨hb, rfl⟩ hlen htop
  cases hb
  obtain ⟨r, s2, hplace, hres, -⟩ := mmapAnyInRangeLocked_highest env bottomAddr areaMapping hgood
    hzero hlen htop
  refine Runs.of_ok hplace ?_
  cases hres with
  | full good same cache =>
    refine ⟨fun x hx => (same x (htmp x hx)).trans (hother x (htmp x hx)), ?_, good, cache hcache1⟩
    exact .of_same h.inv good.inv fun x hx =>
      (same x (htree x hx)).trans (hother x (htree x hx))
  | placed hl good same pool vma =>
    subst hl
    refine ⟨fun x hx => (same x (htmp x hx)).trans (hother x (htmp x hx)), ?_,
      by rw [pool.cache]; exact hcache1, vma, _, _, good⟩
    refine .of_internal h.inv good.inv (fun x hx => ?_) (by rw [vma, areaMapping_isInternal])
    exact (same x (htree x hx)).trans (hother x (htree x hx))

omit [DecidableEq Addr] in
/-- `PalVirtualMemoryAlloc` fails, or returns memory with new objects. -/
theorem palVirtualMemoryAlloc_spec (h : Pool s taken) :
    ∃ r p, palVirtualMemoryAlloc s = .ok r { s with pal := p } ∧ r ≠ some [] ∧
      Pool { s with pal := p } (r.getD [] ++ taken) := by
  have hpal := h.pal
  rw [palVirtualMemoryAlloc, get_bind]
  cases hs : s.pal with
  | nil => exact ⟨none, s.pal, rfl, by simp, h.exchange rfl (List.Perm.refl _) h.areas h.pal⟩
  | cons area rest =>
    rw [hs, mem_cons, not_or] at hpal
    refine ⟨area, rest, rfl, Ne.symm hpal.1, h.exchange rfl ?_ h.areas hpal.2⟩
    rw [State.spare, State.spare, hs]
    cases area with
    | none => simp
    | some objs =>
      simp only [append_assoc]
      refine List.Perm.append_left _ ?_
      simp only [← append_assoc]
      exact perm_append_comm.append_right _

/-- **`_vma_malloc`**, when `tmp_vma` is the object in the cache. -/
theorem vmaMalloc_spec (h : Good [] s l xs) (hcache : s.cache env.tid = [env.tmpVma]) :
    Runs [.alignment] (vmaMalloc pal env (allocVma pal env 1) s) (MallocResult env s l xs) := by
  refine (bkeepMmapAny_area (pal.allocAlignUp pal.areaSize) h hcache).bind fun ret s1 hret => ?_
  cases ret with
  | error e => exact MallocResult.failed hret.2.2.1 hret.2.2.2 hret.1 hret.2.1
  | ok addr =>
    obtain ⟨hsame, huser, hcache1, hvma, l1, l2, hgood⟩ := hret
    obtain ⟨r, p, halloc, hne, hpool⟩ := palVirtualMemoryAlloc_spec hgood.pool
    have hinv2 : Inv { s1 with pal := p } (l1 ++ env.tmpVma :: l2) xs :=
      hgood.inv.congr rfl rfl rfl rfl
    simp only
    rw [bind_of_ok halloc]
    cases r with
    | some objs =>
      refine MallocResult.mapped hinv2 (by simpa using hpool) (fun he => hne (congrArg some he)) ?_
        hcache1 hsame huser
      exact (congrArg file hvma).trans rfl
    | none =>
      simp only
      by_cases halign : pal.isAllocAligned addr ∧
          pal.isAllocAligned (addr + pal.allocAlignUp pal.areaSize)
      · obtain ⟨removed, s3, hremove, hres⟩ := vmaBkeepRemove_spec true
          (show Inv { s1 with pal := p } (l1 ++ env.tmpVma :: l2)
            ((none : Option Addr).toList ++ xs) from hinv2) (by simp) (Nat.le_add_right _ _) halign
        obtain ⟨hret, hfree, hpool3, hsame3, l', hinv3, hperm, huser3⟩ := hres.area hinv2 hvma
        have hgood3 : Good [] s3 l' (env.tmpVma :: xs) := by
          refine ⟨hinv3, (hpool.same hpool3).perm ?_⟩
          have := (hperm.append_right xs).symm
          simpa using this
        obtain ⟨s4, hrun4, hgood4, hvma4, hcache4⟩ := freeVma_spec env hgood3
        have hlist : freeVmasFreelist env removed.vmasToFree s3 = .ok ⟨⟩ s4 := by
          rw [hfree, freeVmasFreelist, bind_of_ok hrun4]
          rfl
        rw [bind_of_ok hremove, hret]
        simp only
        rw [bind_of_ok hlist]
        refine MallocResult.failed hgood4 (hcache4 ?_) (fun x hx => ?_) ?_
        · rwa [hpool3.cache]
        · rw [hvma4, hsame3 x ?_]
          · exact hsame x hx
          · exact fun hmem => disjoint_of_nodup_append hinv2.nodup hmem hx
        · refine huser.trans (.trans huser3 (.of_same hgood3.inv hgood4.inv fun x _ => ?_))
          rw [hvma4]
      · -- the assertion on the alignment fails
        have hremove : vmaBkeepRemove pal addr (addr + pal.allocAlignUp pal.areaSize) true
            (none : Option Addr) { s1 with pal := p } = .error .alignment { s1 with pal := p } := by
          rw [vmaBkeepRemove, assertion, if_neg halign]
          rfl
        rw [bind_of_error hremove]
        exact ⟨mem_singleton_self _, _, _, hinv2⟩

/-- `tmp_vma` in the tree is replaced by an object of the memory manager. -/
theorem migrateTmpVma_spec {m : Addr} (h : Inv s (l1 ++ env.tmpVma :: l2) xs)
    (hm : m ∉ l1 ++ env.tmpVma :: l2 ++ xs) (hfile : (s.vma env.tmpVma).file = none) :
    ∃ s', migrateTmpVma env m s = .ok ⟨⟩ s' ∧ Inv s' (l1 ++ m :: l2) xs ∧ SamePool s s' ∧
      (∀ x, x ≠ m → s'.vma x = s.vma x) ∧ SameUser s s' := by
  have hnd := h.nodup
  simp only [append_assoc, cons_append, mem_append, mem_cons, not_or] at hm
  simp only [append_assoc, cons_append, nodup_middle, nodup_cons] at hnd
  have hother : ∀ x, x ≠ m → update s.vma m (s.vma env.tmpVma) x = s.vma x :=
    fun x hx => update_of_ne hx _ _
  have htmp := hother env.tmpVma (Ne.symm hm.2.1)
  obtain ⟨t, _, htree⟩ := TreeHolds.swapNode
    (s := { s with vma := update s.vma m (s.vma env.tmpVma) }) h.tree
    (show m ∉ l1 ++ env.tmpVma :: l2 by simp [hm.1, hm.2.1, hm.2.2.1])
    (by simp [htmp])
  have h1 := map_congr_of_notMem hother hm.1
  have h2 := map_congr_of_notMem hother hm.2.2.1
  have hx := map_congr_of_notMem hother hm.2.2.2
  have hvals : (l1 ++ m :: l2).map (update s.vma m (s.vma env.tmpVma)) =
      (l1 ++ env.tmpVma :: l2).map s.vma := by
    simp [h1, h2]
  have hinv : Inv { s with
      vma := update s.vma m (s.vma env.tmpVma)
      vmaTree := t } (l1 ++ m :: l2) xs := by
    refine ⟨htree, ?_, ?_, fun x hxl => ?_, ?_, fun i => ?_⟩
    · simp only [append_assoc, cons_append, nodup_middle, nodup_cons,
        mem_append, not_or]
      exact ⟨⟨hm.1, hm.2.2.1, hm.2.2.2⟩, hnd.2⟩
    · simpa only [hvals] using h.ordered
    · have hv : update s.vma m (s.vma env.tmpVma) x ∈ (l1 ++ env.tmpVma :: l2).map s.vma :=
        hvals ▸ mem_map_of_mem hxl
      obtain ⟨y, hy, hyx⟩ := mem_map.1 hv
      simp only [← hyx]
      exact h.bound y hy
    · simpa only [hvals] using h.total
    have hcount := h.mmapped i
    rw [map_append] at hcount
    rw [map_append]
    simpa only [hvals, hx] using hcount
  refine ⟨_, ?_, hinv, ⟨rfl, rfl, rfl⟩, hother, .of_map h hinv hvals⟩
  have hcopy : copyVma env.tmpVma m s =
      .ok ⟨⟩ { s with vma := update s.vma m (s.vma env.tmpVma) } := by
    have hnum : bump (s.vma env.tmpVma).file s.numMmapped = s.numMmapped := by
      rw [hfile]
      rfl
    rw [copyVma, getVma_bind, bind_of_ok (countMmapped_eq _ _), hnum, copyComment_val]
    rfl
  rwa [migrateTmpVma, get_bind, if_pos (h.tree.linked (by simp)), bind_of_ok hcopy]

/-- What an allocation leaves: an object or none, and perhaps a new vma in the tree. -/
structure TakeResult (env : Env Addr) (s : State Addr) (xs : List Addr) (r : Option Addr)
    (s' : State Addr) (l' : List Addr) : Prop where
  inv : Inv s' l' xs
  pool : Pool s' (r.toList ++ (env.tmpVma :: (l' ++ xs)))
  same : ∀ x ∈ xs, s'.vma x = s.vma x
  user : SameUser s s'

omit [DecidableEq Addr] in
theorem Inv.dropOutside (h : Inv s l (a :: xs)) (ha : (s.vma a).inode = none) : Inv s l xs where
  tree := h.tree
  nodup := h.nodup.sublist ((sublist_cons_self a xs).append_left l)
  ordered := h.ordered
  bound := h.bound
  total := h.total
  mmapped i := by
    have hcount := h.mmapped i
    simpa [countP_cons, ha] using hcount

omit [DecidableEq Addr] in
theorem getMemObjFromMgr_take {s0 : State Addr} (h : TakeResult env s0 xs none s l) :
    ∃ r s', getMemObjFromMgr s = .ok r s' ∧ TakeResult env s0 xs r s' l := by
  rcases getMemObjFromMgr_spec h.pool with ⟨hrun, -⟩ | ⟨b, mgr, hrun, hpool⟩
  · exact ⟨none, s, hrun, h⟩
  · exact ⟨some b, _, hrun, h.inv.congr rfl rfl rfl rfl, hpool, h.same, h.user⟩

/-- **The memory manager is enlarged.** -/
theorem allocVmaEnlarge_spec (h : Good [env.tmpVma] s l xs) (hcache : s.cache env.tid = []) :
    Runs [.alignment] (allocVmaEnlarge pal env (allocVma pal env 1) s) fun r s' =>
      ∃ l', TakeResult env s xs r s' l' := by
  obtain ⟨s1, hzero, hinv1, hsame1, hvma1, hother1⟩ := zeroVma_spec h.inv h.pool fun x hx => hx
  have huser1 : SameUser s s1 := .of_same h.inv hinv1 fun x hx =>
    hother1 x (hinv1.ne_of_mem (mem_append_left _ hx))
  have hcache1 : s1.cache env.tid = [] := by
    rwa [hsame1.cache]
  have hadd : addToThreadVmaCache env env.tmpVma s1 = .ok true
      { s1 with cache := update s1.cache env.tid (env.tmpVma :: s1.cache env.tid) } := by
    rw [addToThreadVmaCache, get_bind, if_neg (by simp [hcache1, vmaCacheSize])]
    rfl
  have hinv2 := hinv1.dropOutside (by rw [hvma1]; rfl)
  have hgood2 : Good [] { s1 with
      cache := update s1.cache env.tid (env.tmpVma :: s1.cache env.tid) } l xs :=
    ⟨hinv2.congr rfl rfl rfl rfl, (h.pool.same hsame1).putCache⟩
  rw [allocVmaEnlarge, bind_of_ok hzero, bind_of_ok hadd]
  refine (vmaMalloc_spec hgood2 (by simp [hcache1])).bind fun area s3 hres => ?_
  have hsame2 : ∀ s' : State Addr, (∀ x ∈ xs, s'.vma x = s1.vma x) → ∀ x ∈ xs, s'.vma x = s.vma x :=
    fun s' hs' x hx => (hs' x hx).trans (hother1 x (hinv1.ne_of_mem (mem_append_right _ hx)))
  cases hres with
  | @failed _ l' good cache same user =>
    have hpool : Pool { s3 with cache := update s3.cache env.tid [] }
        (env.tmpVma :: (l' ++ xs)) := good.pool.takeCache (List.Perm.of_eq cache)
    have hremove : removeFromThreadVmaCache env env.tmpVma s3 =
        .ok ⟨⟩ { s3 with cache := update s3.cache env.tid [] } := by
      rw [removeFromThreadVmaCache, get_bind, cache, erase_cons_head]
      rfl
    simp only
    rw [bind_of_ok hremove]
    exact ⟨l', good.inv.congr rfl rfl rfl rfl, hpool, hsame2 _ same, huser1.trans user⟩
  | @mapped _ l1 l2 objs inv pool hobjs file cache same user =>
    simp only
    rw [modify_bind]
    generalize hs4 : { s3 with mgr := { s3.mgr with areas := s3.mgr.areas ++ [objs] } } = s4
    have hpool4 : Pool s4 (l1 ++ env.tmpVma :: l2 ++ xs) := by
      rw [← hs4]
      refine pool.exchange rfl ?_ ?_ pool.pal
      · simp only [State.spare, MemMgr.objects, flatten_append, flatten_cons,
          append_assoc]
        exact (((perm_append_comm_assoc ..).append_left _).append_left _).append_left _
      · simp only [mem_append, mem_singleton, not_or]
        exact ⟨pool.areas, Ne.symm hobjs⟩
    have hinv4 : Inv s4 (l1 ++ env.tmpVma :: l2) xs := by
      rw [← hs4]
      exact inv.congr rfl rfl rfl rfl
    have hvma4 : s4.vma = s3.vma := by rw [← hs4]
    rcases getMemObjFromMgr_spec hpool4 with ⟨-, hareas⟩ | ⟨m, mgr, hget, hpool5⟩
    · rw [← hs4] at hareas
      simp at hareas
    have hm := (nodup_cons.1 hpool5.nodup_taken).1
    have hinv5 : Inv { s4 with mgr := mgr } (l1 ++ env.tmpVma :: l2) xs :=
      hinv4.congr rfl rfl rfl rfl
    obtain ⟨s6, hmigrate, hinv6, hsame6, hvma6, huser6⟩ := migrateTmpVma_spec hinv5 hm
      (by simp only [hvma4]; exact file)
    have huser5 : SameUser s { s4 with mgr := mgr } := by
      refine huser1.trans (.trans user (.of_same inv hinv5 fun x _ => ?_))
      exact congrFun hvma4 x
    have hpool6 : Pool s6 (env.tmpVma :: (l1 ++ m :: l2 ++ xs)) := by
      refine (hpool5.same hsame6).perm ?_
      simp only [append_assoc]
      refine (perm_middle.cons m).trans ((List.Perm.swap ..).trans (List.Perm.cons _ ?_))
      exact perm_middle.symm
    have hcache6 : s6.cache env.tid = [] := by
      rw [hsame6.cache, ← hs4]
      exact cache
    have hremove : removeFromThreadVmaCache env env.tmpVma s6 = .ok ⟨⟩ s6 := by
      have hcache := update_eq_self env.tid s6.cache
      rw [hcache6] at hcache
      rw [removeFromThreadVmaCache, get_bind, hcache6]
      show EStateM.Result.ok _ { s6 with cache := update s6.cache env.tid [] } = _
      rw [hcache]
    have hxs6 : ∀ x ∈ xs, s6.vma x = s.vma x := by
      refine hsame2 s6 fun x hx => ?_
      rw [hvma6 x]
      · simp only [hvma4]
        exact same x hx
      · rintro rfl
        exact hm (mem_append_right _ hx)
    obtain ⟨r, s7, hlast, hres⟩ :=
      getMemObjFromMgr_take ⟨hinv6, hpool6, hxs6, huser5.trans huser6⟩
    rw [bind_of_ok hget]
    simp only
    rw [bind_of_ok hmigrate, bind_of_ok hremove]
    exact Runs.of_ok hlast ⟨_, hres⟩

theorem takeVma_spec (h : Good [env.tmpVma] s l xs) :
    Runs [.alignment] (takeVma pal env (allocVma pal env 1) s) fun r s' =>
      ∃ l', TakeResult env s xs r s' l' := by
  rw [takeVma, getFromThreadVmaCache, bind_assoc, get_bind]
  cases hcache : s.cache env.tid with
  | cons a rest =>
    exact ⟨l, h.inv.congr rfl rfl rfl rfl, h.pool.takeCache (List.Perm.of_eq hcache),
      fun x _ => rfl, .refl s⟩
  | nil =>
    simp only [pure_bind]
    rcases getMemObjFromMgr_spec h.pool with ⟨hrun, -⟩ | ⟨_, _, hrun, hpool⟩
    · rw [bind_of_ok hrun]
      exact allocVmaEnlarge_spec h hcache
    · rw [bind_of_ok hrun]
      exact ⟨l, h.inv.congr rfl rfl rfl rfl, hpool, fun x _ => rfl, .refl s⟩

/-- What `alloc_vma` leaves: a cleared object, or none. -/
structure AllocResult (env : Env Addr) (s : State Addr) (xs : List Addr) (r : Option Addr)
    (s' : State Addr) : Prop where
  good : ∃ l', Good [env.tmpVma] s' l' (r.toList ++ xs)
  zero : ∀ a ∈ r, s'.vma a = .zero
  same : ∀ x ∈ xs, s'.vma x = s.vma x
  user : SameUser s s'

/-- **`alloc_vma`** keeps the tree in order. -/
theorem allocVmaTop_spec (h : Good [env.tmpVma] s l xs) :
    Runs [.alignment] (allocVmaTop pal env s) (AllocResult env s xs) := by
  refine (takeVma_spec h).bind fun r s1 ⟨l', hres⟩ => ?_
  cases r with
  | none => exact ⟨⟨l', hres.inv, hres.pool⟩, by simp, hres.same, hres.user⟩
  | some a =>
    obtain ⟨s2, hzero, hinv, hsame, hva, hother⟩ := zeroVma_spec hres.inv hres.pool
      fun x hx => mem_cons_of_mem _ hx
    have hne : ∀ x ∈ l' ++ xs, x ≠ a := by
      rintro x hx rfl
      exact (nodup_cons.1 hres.pool.nodup_taken).1 (mem_cons_of_mem _ hx)
    refine Runs.of_ok (bind_of_ok hzero) ⟨⟨l', hinv, ?_⟩, ?_, fun x hx => ?_, ?_⟩
    · refine (hres.pool.same hsame).perm ?_
      exact (List.Perm.swap ..).trans (perm_middle.symm.cons _)
    · intro b hb
      exact Option.some.inj hb ▸ hva
    · exact (hother x (hne x (mem_append_right _ hx))).trans (hres.same x hx)
    · exact hres.user.trans (.of_same hres.inv hinv fun x hx =>
        hother x (hne x (mem_append_left _ hx)))

end Alloc

end Vma
