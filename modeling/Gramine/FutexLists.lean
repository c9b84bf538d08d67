import Gramine.Futex

/-!
# The lists of futexes

What the steps on one waiter or one futex keep: every waiter is on the list of the futex it names or
was woken, and the tree holds the futexes that say so, one for each address.
-/

open Function List

namespace Futex

/-! ## The fields after an update -/

section Fields
variable (s : State) (f g : Nat) (l : List Nat) (tid : Nat)

theorem waiters_setWaiters : (s.setWaiters f l).waiters g = if g = f then l else s.waiters g := by
  simp only [State.waiters, State.setWaiters, update_apply]
  split <;> rfl

@[simp] theorem uaddr_setWaiters : ((s.setWaiters f l).futexes g).uaddr = (s.futexes g).uaddr := by
  simp only [State.setWaiters, update_apply]
  split <;> simp [*]

@[simp] theorem inTree_setWaiters :
    ((s.setWaiters f l).futexes g).inTree = (s.futexes g).inTree := by
  simp only [State.setWaiters, update_apply]
  split <;> simp [*]

/-- The list that a waiter is woken from loses it, and no other list changes. -/
theorem waiters_wake : (wakeFutexWaiter s tid f).waiters g =
    if g = f then (s.waiters f).erase tid else s.waiters g :=
  waiters_setWaiters s f g _

theorem waiters_remove : (removeFutexWaiter s tid f).waiters g =
    if g = f then (s.waiters f).erase tid else s.waiters g :=
  waiters_setWaiters s f g _

theorem waiters_add (bitset : Word) : (addFutexWaiter s tid f bitset).waiters g =
    if g = f then s.waiters f ++ [tid] else s.waiters g :=
  waiters_setWaiters s f g _

/-- A waiter that is moved is the last in its new list, which may be its old one. -/
theorem waiters_move (f1 f2 : Nat) : (moveFutexWaiter s tid f1 f2).waiters g =
    if g = f2 then (if f2 = f1 then (s.waiters f1).erase tid else s.waiters f2) ++ [tid]
    else if g = f1 then (s.waiters f1).erase tid else s.waiters g := by
  rw [moveFutexWaiter, waiters_setWaiters]
  by_cases heq : g = f2
  · rw [if_pos heq, if_pos heq]
    exact congrArg (· ++ [tid]) (waiters_remove s f1 f2 tid)
  · rw [if_neg heq, if_neg heq]
    exact waiters_remove s f1 g tid

theorem uaddr_move (f1 f2 : Nat) :
    ((moveFutexWaiter s tid f1 f2).futexes g).uaddr = (s.futexes g).uaddr := by
  rw [moveFutexWaiter, uaddr_setWaiters]
  exact uaddr_setWaiters s f1 g _

theorem inTree_move (f1 f2 : Nat) :
    ((moveFutexWaiter s tid f1 f2).futexes g).inTree = (s.futexes g).inTree := by
  rw [moveFutexWaiter, inTree_setWaiters]
  exact inTree_setWaiters s f1 g _

theorem waiter_move (f1 f2 t : Nat) : (moveFutexWaiter s tid f1 f2).waiter t =
    if t = tid then { s.waiter tid with futex := f2 } else s.waiter t :=
  update_apply ..

end Fields

/-! ## Waiters -/

/-- Every waiter on a list belongs to a blocked thread, names the futex of the list and was not
woken; and every blocked thread that was not woken is on the list it names. -/
structure ListsOk (s : State) : Prop where
  mem : ∀ f t, t ∈ s.waiters f → s.pc t = .blocked ∧ (s.waiter t).futex = f ∧ s.woken t = false
  nodup : ∀ f, (s.waiters f).Nodup
  placed : ∀ t, s.pc t = .blocked → s.woken t = false → t ∈ s.waiters (s.waiter t).futex

namespace ListsOk
variable {s : State} {t f : Nat}

variable (h : ListsOk s)

include h

/-- The invariant reads the lists, the program counters, the waiters and the flags. -/
theorem congr {s' : State} (hwaiters : s'.waiters = s.waiters)
    (hpc : s'.pc = s.pc) (hwaiter : s'.waiter = s.waiter) (hwoken : s'.woken = s.woken) :
    ListsOk s' := by
  refine ⟨fun f t hmem => ?_, fun f => ?_, fun t hblocked hw => ?_⟩
  · rw [hwaiters] at hmem
    rw [hpc, hwaiter, hwoken]
    exact h.mem f t hmem
  · rw [hwaiters]
    exact h.nodup f
  rw [hpc] at hblocked
  rw [hwoken] at hw
  rw [hwaiters, hwaiter]
  exact h.placed t hblocked hw

/-- A thread waits in one list. -/
theorem eq_of_mem {f' : Nat} (ht : t ∈ s.waiters f) (ht' : t ∈ s.waiters f') : f = f' :=
  (h.mem f t ht).2.1.symm.trans (h.mem f' t ht').2.1

theorem mem_erase {t' : Nat} : t' ∈ (s.waiters f).erase t ↔
    t' ≠ t ∧ t' ∈ s.waiters f := (h.nodup f).mem_erase_iff

/-- A thread is taken off its list; if it is still blocked it has been woken. -/
theorem off {s' : State} (hf : ∀ g, t ∈ s.waiters g → g = f)
    (hwaiters : ∀ g, s'.waiters g = if g = f then (s.waiters f).erase t else s.waiters g)
    (hwaiter : s'.waiter = s.waiter)
    (hkeep : ∀ t', t' ≠ t → s'.pc t' = s.pc t' ∧ s'.woken t' = s.woken t')
    (hgone : s'.pc t = .blocked → s'.woken t = true) : ListsOk s' := by
  have hmem : ∀ g t', t' ∈ s'.waiters g ↔ t' ≠ t ∧ t' ∈ s.waiters g := by
    intro g t'
    rw [hwaiters]
    by_cases hg : g = f
    · rw [if_pos hg, hg, h.mem_erase]
    rw [if_neg hg]
    refine ⟨fun ht' => ⟨?_, ht'⟩, And.right⟩
    rintro rfl
    exact hg (hf g ht')
  refine ⟨fun g t' ht' => ?_, fun g => ?_, fun t' hblocked hw => ?_⟩
  · obtain ⟨hne, ht'⟩ := (hmem g t').1 ht'
    rw [(hkeep t' hne).1, (hkeep t' hne).2, hwaiter]
    exact h.mem g t' ht'
  · rw [hwaiters]
    split
    · exact (h.nodup f).erase t
    · exact h.nodup g
  have hne : t' ≠ t := by
    rintro rfl
    cases hw.symm.trans (hgone hblocked)
  rw [(hkeep t' hne).1] at hblocked
  rw [(hkeep t' hne).2] at hw
  rw [hmem, hwaiter]
  exact ⟨hne, h.placed t' hblocked hw⟩

theorem wake (ht : t ∈ s.waiters f) : ListsOk (wakeFutexWaiter s t f) :=
  h.off (fun _ hg => h.eq_of_mem hg ht) (fun _ => waiters_wake ..) rfl
    (fun _ hne => ⟨rfl, update_of_ne hne ..⟩) fun _ => update_self ..

/-- The waiter follows: its futex is the one whose list it is in. -/
theorem move {f1 f2 : Nat} (ht : t ∈ s.waiters f1) : ListsOk (moveFutexWaiter s t f1 f2) := by
  have hmem : ∀ g t', t' ∈ (moveFutexWaiter s t f1 f2).waiters g ↔
      t' ≠ t ∧ t' ∈ s.waiters g ∨ t' = t ∧ g = f2 := by
    intro g t'
    have hother : ∀ g, g ≠ f1 → t' ∈ s.waiters g → t' ≠ t := by
      rintro g hg ht' rfl
      exact hg (h.eq_of_mem ht' ht)
    rw [waiters_move]
    by_cases hg : g = f2
    · rw [if_pos hg, hg]
      by_cases hf : f2 = f1
      · rw [if_pos hf, hf, mem_append, h.mem_erase]
        simp
      · rw [if_neg hf, mem_append, mem_singleton]
        tauto
    · rw [if_neg hg]
      by_cases hf : g = f1
      · rw [if_pos hf, hf, h.mem_erase]
        rw [hf] at hg
        tauto
      · rw [if_neg hf]
        tauto
  refine ⟨fun g t' ht' => ?_, fun g => ?_, fun t' hblocked hw => ?_⟩
  · rw [waiter_move]
    rcases (hmem g t').1 ht' with ⟨hne, ht'⟩ | ⟨rfl, rfl⟩
    · rw [if_neg hne]
      exact h.mem g t' ht'
    · rw [if_pos rfl]
      exact ⟨(h.mem f1 t' ht).1, rfl, (h.mem f1 t' ht).2.2⟩
  · rw [waiters_move]
    have herase : ((s.waiters f1).erase t).Nodup := (h.nodup f1).erase t
    split
    · refine nodup_append.2 ⟨?_, nodup_singleton t, ?_⟩
      · split
        · exact herase
        · exact h.nodup f2
      · intro a ha b hb
        rw [mem_singleton.1 hb]
        split at ha
        · exact (h.mem_erase.1 ha).1
        · rename_i hf
          rintro rfl
          exact hf (h.eq_of_mem ha ht)
    · split
      · exact herase
      · exact h.nodup g
  · rw [waiter_move]
    by_cases heq : t' = t
    · rw [if_pos heq, heq]
      exact (hmem f2 t).2 (.inr ⟨rfl, rfl⟩)
    · rw [if_neg heq]
      exact (hmem _ t').2 (.inl ⟨heq, h.placed t' hblocked hw⟩)

/-- A thread that does not block is in no list before and after. -/
theorem setPc {pc : Pc} (hold : s.pc t ≠ .blocked) (hnew : pc ≠ .blocked) :
    ListsOk (s.setPc t pc) := by
  have hpc : ∀ t', (s.setPc t pc).pc t' = if t' = t then pc else s.pc t' :=
    fun t' => update_apply ..
  refine ⟨fun f t' hmem => ?_, h.nodup, fun t' hblocked hw => ?_⟩
  · obtain ⟨hblocked, hrest⟩ := h.mem f t' hmem
    have hne : t' ≠ t := fun heq => hold (heq ▸ hblocked)
    rw [hpc, if_neg hne]
    exact ⟨hblocked, hrest⟩
  · rw [hpc] at hblocked
    split at hblocked
    · exact absurd hblocked hnew
    · exact h.placed t' hblocked hw

/-- A thread that blocks was in no list, so it is in one now. -/
theorem add (hold : s.pc t ≠ .blocked) (bitset : Word) :
    ListsOk ((addFutexWaiter s t f bitset).setPc t .blocked) := by
  have hpc : ∀ t', ((addFutexWaiter s t f bitset).setPc t .blocked).pc t' =
      if t' = t then .blocked else s.pc t' := fun t' => update_apply ..
  have hwoken : ∀ t', ((addFutexWaiter s t f bitset).setPc t .blocked).woken t' =
      if t' = t then false else s.woken t' := fun t' => update_apply ..
  have hwaiter : ∀ t', ((addFutexWaiter s t f bitset).setPc t .blocked).waiter t' =
      if t' = t then ⟨bitset, f⟩ else s.waiter t' := fun t' => update_apply ..
  have hwaiters : ∀ g, ((addFutexWaiter s t f bitset).setPc t .blocked).waiters g =
      if g = f then s.waiters f ++ [t] else s.waiters g := fun g => waiters_add s f g t bitset
  have hnot : ∀ g, t ∉ s.waiters g := fun g hmem => hold (h.mem g t hmem).1
  refine ⟨fun g t' hmem => ?_, fun g => ?_, fun t' hblocked hw => ?_⟩
  · have hcase : t' ∈ s.waiters g ∨ t' = t ∧ g = f := by
      rw [hwaiters] at hmem
      split at hmem
      · rename_i hg
        rcases mem_append.1 hmem with hmem | hmem
        · exact .inl (hg ▸ hmem)
        · exact .inr ⟨mem_singleton.1 hmem, hg⟩
      · exact .inl hmem
    rw [hpc, hwoken, hwaiter]
    rcases hcase with hmem | ⟨rfl, rfl⟩
    · have hne : t' ≠ t := fun heq => hnot g (heq ▸ hmem)
      rw [if_neg hne, if_neg hne, if_neg hne]
      exact h.mem g t' hmem
    · rw [if_pos rfl, if_pos rfl, if_pos rfl]
      exact ⟨rfl, rfl, rfl⟩
  · rw [hwaiters]
    split
    · refine nodup_append.2 ⟨h.nodup f, nodup_singleton t, fun a ha b hb => ?_⟩
      rw [mem_singleton.1 hb]
      rintro rfl
      exact hnot f ha
    · exact h.nodup g
  · rw [hwaiters, hwaiter]
    by_cases heq : t' = t
    · rw [if_pos heq, if_pos rfl, heq]
      exact mem_append_right _ (mem_singleton_self t)
    rw [hpc, if_neg heq] at hblocked
    rw [hwoken, if_neg heq] at hw
    have hmem := h.placed t' hblocked hw
    rw [if_neg heq]
    split
    · rename_i hg
      rw [hg] at hmem
      exact mem_append_left _ hmem
    · exact hmem

/-- A thread that goes on takes itself off the list that its waiter names. -/
theorem resume (hf : f = (s.waiter t).futex) {pc : Pc} (hnew : pc ≠ .blocked) :
    ListsOk ((removeFutexWaiter s t f).setPc t pc) :=
  h.off (fun g hg => (h.mem g t hg).2.1.symm.trans hf.symm) (waiters_remove s f · t) rfl
    (fun _ hne => ⟨update_of_ne hne .., rfl⟩)
    fun hblocked => absurd ((update_self ..).symm.trans hblocked) hnew

end ListsOk

/-! ## The tree -/

/-- The tree holds the futexes whose flag is set, one for each address, and every futex with
waiters. -/
structure TreeOk (s : State) : Prop where
  mem_iff : ∀ f, f ∈ s.tree ↔ (s.futexes f).inTree = true
  nodup : s.tree.Nodup
  uaddr_inj : ∀ f ∈ s.tree, ∀ g ∈ s.tree, (s.futexes f).uaddr = (s.futexes g).uaddr → f = g
  fresh : ∀ f ∈ s.tree, f < s.fresh
  waiters : ∀ f, s.waiters f ≠ [] → f ∈ s.tree

namespace TreeOk
variable {s s' : State}

variable (h : TreeOk s)

include h

section
variable (htree : s'.tree = s.tree) (hfresh : s'.fresh = s.fresh)
  (huaddr : ∀ f, (s'.futexes f).uaddr = (s.futexes f).uaddr)
  (hinTree : ∀ f, (s'.futexes f).inTree = (s.futexes f).inTree)
include htree hfresh huaddr hinTree

/-- A futex with waiters has to be in the tree. -/
theorem congr (hwaiters : ∀ f, s'.waiters f ≠ [] → f ∈ s.tree) : TreeOk s' := by
  refine ⟨fun f => ?_, ?_, fun f hf g hg => ?_, fun f hf => ?_, fun f hf => ?_⟩
  · rw [htree, hinTree]
    exact h.mem_iff f
  · rw [htree]
    exact h.nodup
  · rw [htree] at hf hg
    rw [huaddr, huaddr]
    exact h.uaddr_inj f hf g hg
  · rw [htree] at hf
    rw [hfresh]
    exact h.fresh f hf
  · rw [htree]
    exact hwaiters f hf

/-- Lists that lose waiters keep every futex they need in the tree. -/
theorem shrink (hwaiters : ∀ f, s'.waiters f ⊆ s.waiters f) : TreeOk s' := by
  refine h.congr htree hfresh huaddr hinTree fun f hf => h.waiters f fun hnil => hf ?_
  exact subset_nil.1 (hnil ▸ hwaiters f)

end

theorem remove (t f : Nat) : TreeOk (removeFutexWaiter s t f) := by
  refine h.shrink rfl rfl (uaddr_setWaiters s f · _) (inTree_setWaiters s f · _) fun g => ?_
  rw [waiters_remove]
  split
  · rename_i hg
    rw [hg]
    exact erase_subset
  · exact List.Subset.refl _

theorem wake (t f : Nat) : TreeOk (wakeFutexWaiter s t f) :=
  (h.remove t f).shrink rfl rfl (fun _ => rfl) (fun _ => rfl) fun _ => List.Subset.refl _

theorem move (t f1 f2 : Nat) (hf2 : f2 ∈ s.tree) : TreeOk (moveFutexWaiter s t f1 f2) := by
  refine h.congr rfl rfl (uaddr_move s · t f1 f2) (inTree_move s · t f1 f2) fun g hg => ?_
  rw [waiters_move] at hg
  split at hg
  · rename_i heq
    rwa [heq]
  split at hg
  · rename_i heq
    rw [heq]
    refine h.waiters f1 fun hnil => hg ?_
    rw [hnil]
    rfl
  · exact h.waiters g hg

theorem add (t f : Nat) (bitset : Word) (hf : f ∈ s.tree) :
    TreeOk (addFutexWaiter s t f bitset) := by
  refine h.congr rfl rfl (uaddr_setWaiters s f · _) (inTree_setWaiters s f · _) fun g hg => ?_
  rw [waiters_add] at hg
  split at hg
  · rename_i heq
    rwa [heq]
  · exact h.waiters g hg

/-- No futex of the tree has this address, so the addresses stay distinct. -/
theorem enqueueNew {uaddr : Nat} (hnone : findFutex s uaddr = none) :
    TreeOk (enqueueNewFutex s uaddr) := by
  have hnot : s.fresh ∉ s.tree := fun hmem => absurd (h.fresh _ hmem) (Nat.lt_irrefl _)
  have hold : ∀ f ∈ s.tree, (enqueueNewFutex s uaddr).futexes f = s.futexes f := by
    intro f hf
    have hne : f ≠ s.fresh := fun heq => hnot (heq ▸ hf)
    exact update_of_ne hne ..
  have hnew : (enqueueNewFutex s uaddr).futexes s.fresh = ⟨uaddr, [], true⟩ :=
    update_self ..
  have huaddr : ∀ f ∈ s.tree, (s.futexes f).uaddr ≠ uaddr := by
    intro f hf
    simpa using find?_eq_none.1 hnone f hf
  have hmem : ∀ f, f ∈ (enqueueNewFutex s uaddr).tree ↔ f ∈ s.tree ∨ f = s.fresh := by
    intro f
    rw [enqueueNewFutex, mem_append, mem_singleton]
  refine ⟨fun f => ?_, ?_, fun f hf g hg heq => ?_, fun f hf => ?_, fun f hf => ?_⟩
  · rw [hmem]
    by_cases heq : f = s.fresh
    · rw [heq, hnew]
      simp
    · have hf : (enqueueNewFutex s uaddr).futexes f = s.futexes f := update_of_ne heq ..
      rw [hf, ← h.mem_iff f]
      simp [heq]
  · refine nodup_append.2 ⟨h.nodup, nodup_singleton _, fun a ha b hb => ?_⟩
    rw [mem_singleton.1 hb]
    rintro rfl
    exact hnot ha
  · rcases (hmem f).1 hf with hf | rfl
    · rcases (hmem g).1 hg with hg | rfl
      · rw [hold f hf, hold g hg] at heq
        exact h.uaddr_inj f hf g hg heq
      · rw [hold f hf, hnew] at heq
        exact absurd heq (huaddr f hf)
    · rcases (hmem g).1 hg with hg | rfl
      · rw [hold g hg, hnew] at heq
        exact absurd heq.symm (huaddr g hg)
      · rfl
  · rcases (hmem f).1 hf with hf | rfl
    · exact Nat.lt_succ_of_lt (h.fresh f hf)
    · exact Nat.lt_succ_self _
  rw [hmem]
  by_cases heq : f = s.fresh
  · exact .inr heq
  have hsame : (enqueueNewFutex s uaddr).waiters f = s.waiters f :=
    congrArg LibosFutex.waiters (update_of_ne heq ..)
  rw [hsame] at hf
  exact .inl (h.waiters f hf)

/-- Only a futex without waiters is taken out of the tree. -/
theorem maybeDequeue (f : Nat) : TreeOk (maybeDequeueFutex s f) := by
  rw [maybeDequeueFutex]
  split
  · rename_i hcheck
    obtain ⟨hnil, -⟩ := of_decide_eq_true hcheck
    have hfut : ∀ g, g ≠ f → update s.futexes f
        { s.futexes f with inTree := false } g = s.futexes g :=
      fun g hg => update_of_ne hg ..
    have hmem : ∀ g, g ∈ s.tree.erase f ↔ g ≠ f ∧ g ∈ s.tree := fun g => h.nodup.mem_erase_iff
    refine ⟨fun g => ?_, h.nodup.erase f, fun a ha b hb heq => ?_, fun g hg => ?_, fun g hg => ?_⟩
    · by_cases hg : g = f
      · subst hg
        simp [h.nodup.mem_erase_iff]
      · simp only [hfut g hg, hmem, hg, ne_eq, not_false_eq_true, true_and]
        exact h.mem_iff g
    · obtain ⟨hne, ha⟩ := (hmem a).1 ha
      obtain ⟨hne', hb⟩ := (hmem b).1 hb
      simp only [hfut a hne, hfut b hne'] at heq
      exact h.uaddr_inj a ha b hb heq
    · exact h.fresh g ((hmem g).1 hg).2
    have hwaiters : ∀ g, State.waiters { s with
        tree := s.tree.erase f,
        futexes := update s.futexes f { s.futexes f with inTree := false } } g =
        s.waiters g := by
      intro g
      simp only [State.waiters, update_apply]
      split <;> simp [*]
    rw [hwaiters] at hg
    refine (hmem g).2 ⟨?_, h.waiters g hg⟩
    rintro rfl
    exact hg hnil
  · exact h

end TreeOk

end Futex
