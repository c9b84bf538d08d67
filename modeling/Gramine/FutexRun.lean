import Gramine.FutexLoops

/-!
# Futexes in all runs

The invariant of the futexes over all runs, what one operation does to the waiters, and whether a
waiter can be woken. Between two sections under the lock a futex may be in the tree without
waiters; then a thread is about to dequeue it, and its program counter says so. With that added to
the invariant of the lists and the tree, each section keeps it.
-/

open Function List

namespace Futex

/-! ## The invariant -/

/-- The lists and the tree are in order; and for every futex in the tree without waiters there is a
thread that will look at it again. -/
structure Inv (s : State) : Prop where
  lists : ListsOk s
  tree : TreeOk s
  pending : ∀ f ∈ s.tree, s.waiters f = [] → ∃ t fs, s.pc t = .dequeue fs ∧ f ∈ fs

/-- A thread that is not blocked, and has no futex to look at. -/
def Pc.Free (pc : Pc) : Prop := pc ≠ .blocked ∧ ∀ fs, pc ≠ .dequeue fs

variable {s : State}

/-- A futex that is found has the address asked for. -/
theorem findFutex_mem {uaddr f : Nat} (h : findFutex s uaddr = some f) :
    f ∈ s.tree ∧ (s.futexes f).uaddr = uaddr :=
  ⟨mem_of_find?_eq_some h, by simpa using find?_some h⟩

theorem findFutex_of_if {c : Bool} {uaddr f : Nat}
    (h : (if c then findFutex s uaddr else none) = some f) : findFutex s uaddr = some f := by
  split at h
  · exact h
  · cases h

/-- Whether a futex can leave the tree is whether nobody waits. -/
theorem TreeOk.checkDequeue (h : TreeOk s) {f : Nat} (hf : f ∈ s.tree) :
    checkDequeueFutex s f = true ↔ s.waiters f = [] := by
  rw [checkDequeueFutex, decide_eq_true_iff, ← h.mem_iff f]
  exact and_iff_left hf

section
variable {s' : State} (h : Inv s) (hl : ListsOk s') (ht : TreeOk s') (hpc : s'.pc = s.pc)
  {tid : Nat} (hold : (s.pc tid).Free)
include h hl ht hpc hold

/-- A thread goes on; it remembers each futex whose last waiter it has taken off. -/
theorem Inv.setPc {pc : Pc} (hnew : pc ≠ .blocked)
    (hempty : ∀ f ∈ s'.tree, s'.waiters f = [] → f ∈ s.tree ∧ s.waiters f = [] ∨
      ∃ fs, pc = .dequeue fs ∧ f ∈ fs) :
    Inv (s'.setPc tid pc) := by
  have hpc' : ∀ t, (s'.setPc tid pc).pc t = if t = tid then pc else s.pc t := by
    intro t
    rw [← hpc]
    exact update_apply ..
  refine ⟨hl.setPc (hpc ▸ hold.1) hnew, ?_, fun f hf hnil => ?_⟩
  · exact ht.congr rfl rfl (fun _ => rfl) (fun _ => rfl) ht.waiters
  rcases hempty f hf hnil with ⟨hf, hnil⟩ | ⟨fs, hfs, hmem⟩
  · obtain ⟨t, fs, ht, hmem⟩ := h.pending f hf hnil
    have hne : t ≠ tid := fun heq => hold.2 fs (heq ▸ ht)
    exact ⟨t, fs, by rw [hpc', if_neg hne]; exact ht, hmem⟩
  · exact ⟨tid, fs, by rw [hpc', if_pos rfl]; exact hfs, hmem⟩

/-- The end of an operation, which dequeues the futexes it has emptied, if any. -/
theorem Inv.finish {needs : Bool} {fs : List Nat}
    (hempty : ∀ f ∈ s'.tree, s'.waiters f = [] → f ∈ s.tree ∧ s.waiters f = [] ∨
      needs = true ∧ f ∈ fs) :
    Inv (finish s' tid needs fs) := by
  refine h.setPc hl ht hpc hold ?_ fun f hf hnil => ?_
  · cases needs with
    | true | false => exact nofun
  · rcases hempty f hf hnil with hold | ⟨rfl, hmem⟩
    · exact .inl hold
    · exact .inr ⟨fs, rfl, hmem⟩

end

/-! ### The steps -/

section Steps
variable {s : State} {tid : Nat}

variable {r : State × Effect}

/-- `futex_wake`. -/
theorem Inv.wake (h : Inv s) (hold : (s.pc tid).Free) {uaddr : Nat} {toWake : Int} {bitset : Word}
    (hr : futexWake s tid uaddr toWake bitset = some r) : Inv r.1 := by
  rw [futexWake] at hr
  split at hr
  · cases hr
    exact h
  split at hr
  · cases hr
    exact h
  rename_i f hfind
  obtain ⟨s', hmove, hok⟩ := moveToWakeQueue_spec h.lists h.tree f bitset toWake
  rw [hmove] at hr
  cases hr
  have hf : f ∈ s'.tree := by
    rw [hok.tree_eq]
    exact (findFutex_mem hfind).1
  refine h.finish hok.lists hok.tree hok.pc hold fun g hg hnil => ?_
  by_cases heq : g = f
  · rw [heq] at hnil
    exact .inr ⟨(hok.tree.checkDequeue hf).2 hnil, heq ▸ mem_singleton_self g⟩
  · rw [hok.tree_eq] at hg
    rw [hok.other g (fun hmem => heq (mem_singleton.1 hmem))] at hnil
    exact .inl ⟨hg, hnil⟩

/-- The two parts of `futex_wake_op` that wake. -/
theorem wakeOpQueue_spec (hl : ListsOk s) (ht : TreeOk s) (toWake : Int) (f : Option Nat)
    (hf : ∀ g, f = some g → g ∈ s.tree) :
    ∃ s' needs, wakeOpQueue s toWake f =
        some (s', (f.elim [] fun f => toBeWoken s f 0#32 toWake), needs) ∧
      LoopOk f.toList s s' ∧ (∀ g, f = some g → WakeOk g s s' (toBeWoken s g 0#32 toWake)) ∧
      (∀ g, f = some g → (needs = true ↔ s'.waiters g = [])) := by
  cases f with
  | none => exact ⟨s, false, rfl, .refl hl ht, nofun, nofun⟩
  | some f =>
    obtain ⟨s', hmove, hok⟩ := moveToWakeQueue_spec hl ht f 0#32 toWake
    have hf' : f ∈ s'.tree := by
      rw [hok.tree_eq]
      exact hf f rfl
    refine ⟨s', checkDequeueFutex s' f, ?_, hok.toLoopOk, ?_, ?_⟩
    · rw [wakeOpQueue, hmove]
      rfl
    · rintro g ⟨⟩
      exact hok
    · rintro g ⟨⟩
      exact hok.tree.checkDequeue hf'

theorem Inv.setMem (h : Inv s) (mem : Nat → Word) : Inv { s with mem := mem } :=
  ⟨h.lists.congr rfl rfl rfl rfl, h.tree.congr rfl rfl (fun _ => rfl) (fun _ => rfl) h.tree.waiters,
    h.pending⟩

variable {uaddr1 uaddr2 : Nat}

/-- `futex_wake_op`. -/
theorem Inv.wakeOp (h : Inv s) (hold : (s.pc tid).Free) {toWake1 toWake2 : Int} {val3 : Word}
    (hr : futexWakeOp s tid uaddr1 uaddr2 toWake1 toWake2 val3 = some r) : Inv r.1 := by
  rw [futexWakeOp] at hr
  split at hr
  · cases hr
    exact h
  rename_i newval _
  have hm : Inv { s with mem := update s.mem uaddr2 newval } := h.setMem _
  simp only at hr
  split at hr
  · cases hr
    exact hm
  rename_i cmpval _
  obtain ⟨s1, needs1, hq1, hok1, -, hneeds1⟩ :=
    wakeOpQueue_spec hm.lists hm.tree toWake1 (findFutex s uaddr1)
      fun g hg => (findFutex_mem hg).1
  obtain ⟨s2, needs2, hq2, hok2, -, hneeds2⟩ :=
    wakeOpQueue_spec hok1.lists hok1.tree toWake2 (if cmpval then findFutex s uaddr2 else none)
      (fun g hg => by
        rw [hok1.tree_eq]
        exact (findFutex_mem (findFutex_of_if hg)).1)
  rw [hq1] at hr
  simp only [Option.bind_eq_bind, Option.bind_some] at hr
  rw [hq2] at hr
  cases hr
  have hok := hok1.trans hok2
  refine hm.finish hok.lists hok.tree hok.pc hold fun g hg hnil => ?_
  rw [hok.tree_eq] at hg
  -- a futex that the second part emptied, the first part emptied, or nobody touched
  by_cases h2 : (if cmpval then findFutex s uaddr2 else none) = some g
  · refine .inr ⟨?_, mem_append_right _ ?_⟩
    · rw [(hneeds2 g h2).2 hnil, Bool.or_true]
    · rw [findFutex_of_if h2]
      exact mem_singleton_self g
  have hnot2 : g ∉ (if cmpval then findFutex s uaddr2 else none).toList :=
    fun hmem => h2 (Option.mem_toList.1 hmem)
  rw [hok2.other g hnot2] at hnil
  by_cases h1 : findFutex s uaddr1 = some g
  · refine .inr ⟨?_, mem_append_left _ ?_⟩
    · rw [(hneeds1 g h1).2 hnil, Bool.true_or]
    · rw [h1]
      exact mem_singleton_self g
  · rw [hok1.other g (fun hmem => h1 (Option.mem_toList.1 hmem))] at hnil
    exact .inl ⟨hg, hnil⟩

variable {val : Option Word}

/-- `s0` is the state before the new futex, if there is one. -/
theorem Inv.requeueLocked {s0 : State} (h : Inv s0) (hl : ListsOk s) (ht : TreeOk s)
    (hpc : s.pc = s0.pc) (hold : (s0.pc tid).Free) {f2 : Nat} (hf2 : f2 ∈ s.tree) {created : Bool}
    {toWake toRequeue : Nat}
    (hempty : ∀ f ∈ s.tree, s.waiters f = [] → f ∈ s0.tree ∧ s0.waiters f = [] ∨ created = true ∧ f
      = f2) (hr : requeueLocked s tid uaddr1 f2 created toWake toRequeue val = some r) :
    Inv r.1 := by
  rw [Futex.requeueLocked] at hr
  split at hr
  · cases hr
    refine h.finish hl ht hpc hold fun g hg hnil => ?_
    exact (hempty g hg hnil).imp_right fun ⟨hc, heq⟩ => ⟨hc, by simp [heq]⟩
  split at hr
  · cases hr
    refine h.finish hl ht hpc hold fun g hg hnil => ?_
    exact (hempty g hg hnil).imp_right fun ⟨hc, heq⟩ => ⟨hc, by simp [heq]⟩
  rename_i f1 hfind
  obtain ⟨s', hloop, hok, -⟩ := requeueLoop_spec hl ht f1 hf2 toWake toRequeue
  rw [hloop] at hr
  cases hr
  have hmem1 : f1 ∈ s'.tree := by
    rw [hok.tree_eq]
    exact (findFutex_mem hfind).1
  have hmem2 : f2 ∈ s'.tree := by
    rw [hok.tree_eq]
    exact hf2
  refine h.finish hok.lists hok.tree (hok.pc.trans hpc) hold fun g hg hnil => ?_
  by_cases h1 : g = f1
  · rw [h1] at hnil
    exact .inr ⟨by rw [(hok.tree.checkDequeue hmem1).2 hnil, Bool.true_or], by simp [h1]⟩
  by_cases h2 : g = f2
  · rw [h2] at hnil
    exact .inr ⟨by rw [(hok.tree.checkDequeue hmem2).2 hnil, Bool.or_true], by simp [h2]⟩
  · rw [hok.tree_eq] at hg
    rw [hok.other g (by simp [h1, h2])] at hnil
    exact (hempty g hg hnil).imp_right fun ⟨_, heq⟩ => absurd heq h2

theorem waiters_enqueueNew (h : TreeOk s) (uaddr : Nat) :
    (enqueueNewFutex s uaddr).waiters = s.waiters := by
  funext f
  by_cases heq : f = s.fresh
  · have hnil : s.waiters f = [] := by
      refine Decidable.byContradiction fun hne => ?_
      exact absurd (h.fresh f (h.waiters f hne)) (heq ▸ Nat.lt_irrefl _)
    rw [hnil, heq, State.waiters, enqueueNewFutex]
    simp
  · exact congrArg LibosFutex.waiters (update_of_ne heq ..)

theorem ListsOk.enqueueNew (h : ListsOk s) (ht : TreeOk s) (uaddr : Nat) :
    ListsOk (enqueueNewFutex s uaddr) :=
  h.congr (waiters_enqueueNew ht uaddr) rfl rfl rfl

theorem mem_enqueueNew (s : State) (uaddr : Nat) : s.fresh ∈ (enqueueNewFutex s uaddr).tree :=
  mem_append_right _ (mem_singleton_self _)

/-- Only the new futex is one that has no waiters and was not there before. -/
theorem empty_enqueueNew (h : TreeOk s) (uaddr : Nat) (f : Nat)
    (hf : f ∈ (enqueueNewFutex s uaddr).tree) (hnil : (enqueueNewFutex s uaddr).waiters f = []) :
    f ∈ s.tree ∧ s.waiters f = [] ∨ f = s.fresh := by
  rw [waiters_enqueueNew h] at hnil
  rcases mem_append.1 hf with hf | hf
  · exact .inl ⟨hf, hnil⟩
  · exact .inr (mem_singleton.1 hf)

/-- `futex_requeue`, up to its end or to the creation of a futex. -/
theorem Inv.requeue (h : Inv s) (hold : (s.pc tid).Free) {toWake toRequeue : Int}
    (hr : futexRequeue s tid uaddr1 uaddr2 toWake toRequeue val = some r) : Inv r.1 := by
  rw [futexRequeue] at hr
  split at hr
  · cases hr
    exact h
  split at hr
  · cases hr
    exact h.setPc h.lists h.tree rfl hold nofun fun f hf hnil => .inl ⟨hf, hnil⟩
  · rename_i f2 hfind
    exact h.requeueLocked h.lists h.tree rfl hold (findFutex_mem hfind).1
      (fun f hf hnil => .inl ⟨hf, hnil⟩) hr

/-- `futex_requeue` after the creation. -/
theorem Inv.requeueCreated (h : Inv s) (hold : (s.pc tid).Free) {toWake toRequeue : Nat}
    (hr : futexRequeueCreated s tid uaddr1 uaddr2 toWake toRequeue val = some r) : Inv r.1 := by
  rw [futexRequeueCreated] at hr
  split at hr
  · rename_i hnone
    refine h.requeueLocked (h.lists.enqueueNew h.tree uaddr2) (h.tree.enqueueNew hnone) rfl hold
      (mem_enqueueNew s uaddr2) (fun f hf hnil => ?_) hr
    exact (empty_enqueueNew h.tree uaddr2 f hf hnil).imp_right fun heq => ⟨rfl, heq⟩
  · rename_i f2 hfind
    exact h.requeueLocked h.lists h.tree rfl hold (findFutex_mem hfind).1
      (fun f hf hnil => .inl ⟨hf, hnil⟩) hr

/-- `s0` is the state before the new futex, if there is one. -/
theorem Inv.waitLocked {s0 : State} (h : Inv s0) (hl : ListsOk s) (ht : TreeOk s)
    (hpc : s.pc = s0.pc) (hold : (s0.pc tid).Free) {uaddr f : Nat} (hf : f ∈ s.tree)
    {val bitset : Word} (hempty : ∀ g ∈ s.tree, s.waiters g = [] →
      g ∈ s0.tree ∧ s0.waiters g = [] ∨ g = f) :
    Inv (waitLocked s tid uaddr f val bitset).1 := by
  rw [Futex.waitLocked]
  split
  · refine h.finish hl ht hpc hold fun g hg hnil => ?_
    rcases hempty g hg hnil with hbefore | rfl
    · exact .inl hbefore
    · exact .inr ⟨(ht.checkDequeue hg).2 hnil, mem_singleton_self g⟩
  have hblocked : s.pc tid ≠ .blocked := hpc ▸ hold.1
  have ht' := ht.add tid f bitset hf
  refine ⟨hl.add hblocked bitset, ?_, fun g hg hnil => ?_⟩
  · exact ht'.congr rfl rfl (fun _ => rfl) (fun _ => rfl) ht'.waiters
  have hwaiters : (addFutexWaiter s tid f bitset).waiters g = [] := hnil
  rw [waiters_add] at hwaiters
  split at hwaiters
  · exact absurd hwaiters (append_ne_nil_of_right_ne_nil _ (cons_ne_nil _ _))
  rename_i hne
  rcases hempty g hg hwaiters with ⟨hg', hnil'⟩ | heq
  · obtain ⟨t, fs, hpending, hmem⟩ := h.pending g hg' hnil'
    have hne' : t ≠ tid := fun heq => hold.2 fs (heq ▸ hpending)
    refine ⟨t, fs, ?_, hmem⟩
    rw [← hpc] at hpending
    exact (update_of_ne hne' ..).trans hpending
  · exact absurd heq hne

/-- `futex_wait`, up to blocking or to the creation of a futex. -/
theorem Inv.wait (h : Inv s) (hold : (s.pc tid).Free) (uaddr : Nat) (val bitset : Word) :
    Inv (futexWait s tid uaddr val bitset).1 := by
  rw [futexWait]
  split
  · exact h.setPc h.lists h.tree rfl hold nofun fun f hf hnil => .inl ⟨hf, hnil⟩
  · rename_i f hfind
    exact h.waitLocked h.lists h.tree rfl hold (findFutex_mem hfind).1
      fun g hg hnil => .inl ⟨hg, hnil⟩

/-- `futex_wait` after the creation. -/
theorem Inv.waitCreated (h : Inv s) (hold : (s.pc tid).Free) (uaddr : Nat) (val bitset : Word) :
    Inv (futexWaitCreated s tid uaddr val bitset).1 := by
  rw [futexWaitCreated]
  split
  · rename_i hnone
    exact h.waitLocked (h.lists.enqueueNew h.tree uaddr) (h.tree.enqueueNew hnone) rfl hold
      (mem_enqueueNew s uaddr) (empty_enqueueNew h.tree uaddr)
  · rename_i f hfind
    exact h.waitLocked h.lists h.tree rfl hold (findFutex_mem hfind).1
      fun g hg hnil => .inl ⟨hg, hnil⟩

/-- `futex_wait` after the thread was woken, interrupted or timed out. -/
theorem Inv.resume (h : Inv s) (hblocked : s.pc tid = .blocked) (ret : WaitResult) :
    Inv (futexWaitResume s tid ret).1 := by
  have hremove : ∀ needs, needs = checkDequeueFutex (removeFutexWaiter s tid
      (s.waiter tid).futex) (s.waiter tid).futex →
      Inv (Futex.finish (removeFutexWaiter s tid (s.waiter tid).futex) tid needs
        [(s.waiter tid).futex]) := by
    intro needs hneeds
    have ht := h.tree.remove tid (s.waiter tid).futex
    refine ⟨h.lists.resume rfl ?_, ht.congr rfl rfl (fun _ => rfl) (fun _ => rfl) ht.waiters,
      fun g hg hnil => ?_⟩
    · cases needs with
      | true | false => exact nofun
    by_cases heq : g = (s.waiter tid).futex
    · have hcheck : needs = true := by
        rw [hneeds, ht.checkDequeue (heq ▸ hg)]
        rwa [heq] at hnil
      refine ⟨tid, [(s.waiter tid).futex], ?_, heq ▸ mem_singleton_self g⟩
      rw [hcheck]
      exact update_self ..
    · have hwaiters : (removeFutexWaiter s tid (s.waiter tid).futex).waiters g = [] := hnil
      rw [waiters_remove, if_neg heq] at hwaiters
      obtain ⟨t, fs, hpending, hmem⟩ := h.pending g hg hwaiters
      have hne : t ≠ tid := by
        rintro rfl
        cases hblocked.symm.trans hpending
      exact ⟨t, fs, (update_of_ne hne ..).trans hpending, hmem⟩
  rw [futexWaitResume]
  split
  · exact hremove _ rfl
  rename_i hnot
  -- a thread that is on no list: removing it changes nothing
  have hsame : removeFutexWaiter s tid (s.waiter tid).futex = s := by
    rw [removeFutexWaiter, erase_of_not_mem hnot, State.setWaiters]
    have hself : update s.futexes (s.waiter tid).futex
        { s.futexes (s.waiter tid).futex with waiters := s.waiters (s.waiter tid).futex } =
        s.futexes := update_eq_self _ _
    rw [hself]
  have hinv := hremove _ rfl
  rwa [hsame] at hinv

theorem maybeDequeue_waiters (s : State) (f : Nat) :
    (maybeDequeueFutex s f).waiters = s.waiters := by
  rw [maybeDequeueFutex]
  split
  · funext g
    by_cases heq : g = f
    · subst heq
      simp [State.waiters]
    · exact congrArg LibosFutex.waiters (update_of_ne heq ..)
  · rfl

theorem maybeDequeue_keep (s : State) (f : Nat) : (maybeDequeueFutex s f).pc = s.pc ∧
    (maybeDequeueFutex s f).waiter = s.waiter ∧ (maybeDequeueFutex s f).woken = s.woken := by
  rw [maybeDequeueFutex]
  split <;> exact ⟨rfl, rfl, rfl⟩

/-- What is left in the tree: futexes that were there, and `f` only if it has waiters. -/
theorem maybeDequeue_tree (h : TreeOk s) {f g : Nat} (hg : g ∈ (maybeDequeueFutex s f).tree) :
    g ∈ s.tree ∧ (g = f → s.waiters f ≠ []) := by
  rw [maybeDequeueFutex] at hg
  split at hg
  · obtain ⟨hne, hmem⟩ := h.nodup.mem_erase_iff.1 hg
    exact ⟨hmem, fun heq => absurd heq hne⟩
  rename_i hcheck
  refine ⟨hg, ?_⟩
  rintro rfl hnil
  exact hcheck ((h.checkDequeue hg).2 hnil)

/-- The futexes in the list leave the tree, unless somebody waits again. -/
theorem foldl_maybeDequeue (hl : ListsOk s) (ht : TreeOk s) (fs : List Nat) :
    ListsOk (fs.foldl maybeDequeueFutex s) ∧ TreeOk (fs.foldl maybeDequeueFutex s) ∧
      (fs.foldl maybeDequeueFutex s).pc = s.pc ∧
      (fs.foldl maybeDequeueFutex s).waiters = s.waiters ∧
      ∀ g ∈ (fs.foldl maybeDequeueFutex s).tree, g ∈ s.tree ∧ (g ∈ fs → s.waiters g ≠ []) := by
  induction fs generalizing s with
  | nil => exact ⟨hl, ht, rfl, rfl, fun g hg => ⟨hg, nofun⟩⟩
  | cons f fs ih =>
    have hwaiters := maybeDequeue_waiters s f
    obtain ⟨hpc, hwaiter, hwoken⟩ := maybeDequeue_keep s f
    obtain ⟨hl', ht', hpc', hwaiters', htree⟩ :=
      ih (hl.congr hwaiters hpc hwaiter hwoken) (ht.maybeDequeue f)
    refine ⟨hl', ht', hpc'.trans hpc, hwaiters'.trans hwaiters, fun g hg => ?_⟩
    obtain ⟨hg', hfs⟩ := htree g hg
    obtain ⟨hmem, hf⟩ := maybeDequeue_tree ht hg'
    refine ⟨hmem, fun hin => ?_⟩
    rcases mem_cons.1 hin with rfl | hin
    · exact hf rfl
    · rw [← hwaiters]
      exact hfs hin

/-- What the thread has emptied is dequeued, so it has nothing left to remember. -/
theorem Inv.dequeue (h : Inv s) {fs : List Nat} (hpc : s.pc tid = .dequeue fs) :
    Inv ((fs.foldl maybeDequeueFutex s).setPc tid .idle) := by
  obtain ⟨hl, ht, hpc', hwaiters, htree⟩ := foldl_maybeDequeue h.lists h.tree fs
  have hold : (fs.foldl maybeDequeueFutex s).pc tid ≠ .blocked := by
    rw [hpc', hpc]
    exact nofun
  refine ⟨hl.setPc hold nofun, ht.congr rfl rfl (fun _ => rfl) (fun _ => rfl) ht.waiters,
    fun g hg hnil => ?_⟩
  obtain ⟨hg', hfs⟩ := htree g hg
  have hnil' : s.waiters g = [] := by
    rwa [← hwaiters]
  obtain ⟨t, fs', hpending, hmem⟩ := h.pending g hg' hnil'
  have hne : t ≠ tid := by
    rintro rfl
    cases hpc.symm.trans hpending
    exact hfs hmem hnil'
  refine ⟨t, fs', ?_, hmem⟩
  rw [← hpc'] at hpending
  exact (update_of_ne hne ..).trans hpending

end Steps

theorem Pc.Free.of_eq {pc : Pc} (h : pc = .idle ∨ (∃ u v b, pc = .waitCreated u v b) ∨
    ∃ u1 u2 n m v, pc = .requeueCreated u1 u2 n m v) : pc.Free := by
  rcases h with rfl | ⟨u, v, b, rfl⟩ | ⟨u1, u2, n, m, v, rfl⟩
  · exact ⟨nofun, nofun⟩
  · exact ⟨nofun, nofun⟩
  · exact ⟨nofun, nofun⟩

/-- **Every section under the lock keeps the invariant.** -/
theorem Inv.exec (h : Inv s) {l : Label} {r : State × Effect} (hr : exec s l = some r) :
    Inv r.1 := by
  have hfail : ∀ tid, (s.pc tid).Free → Inv (s.setPc tid .idle) := fun tid hfree =>
    h.setPc h.lists h.tree rfl hfree nofun fun f hf hnil => .inl ⟨hf, hnil⟩
  cases l with
  | wait tid uaddr val bitset =>
    obtain ⟨hpc, hr⟩ := Option.ite_none_right_eq_some.1 hr
    cases hr
    exact h.wait (.of_eq (.inl hpc)) uaddr val bitset
  | waitCreate tid allocated =>
    rw [Futex.exec] at hr
    split at hr
    · rename_i uaddr val bitset hpc
      have hfree : (s.pc tid).Free := .of_eq (.inr (.inl ⟨_, _, _, hpc⟩))
      split at hr
      · cases hr
        exact h.waitCreated hfree uaddr val bitset
      · cases hr
        exact hfail tid hfree
    · cases hr
  | resume tid ret =>
    obtain ⟨hpc, hr⟩ := Option.ite_none_right_eq_some.1 hr
    cases hr
    exact h.resume hpc ret
  | wake tid uaddr toWake bitset =>
    obtain ⟨hpc, hr⟩ := Option.ite_none_right_eq_some.1 hr
    exact h.wake (.of_eq (.inl hpc)) hr
  | wakeOp tid uaddr1 uaddr2 toWake1 toWake2 val3 =>
    obtain ⟨hpc, hr⟩ := Option.ite_none_right_eq_some.1 hr
    exact h.wakeOp (.of_eq (.inl hpc)) hr
  | requeue tid uaddr1 uaddr2 toWake toRequeue val =>
    obtain ⟨hpc, hr⟩ := Option.ite_none_right_eq_some.1 hr
    exact h.requeue (.of_eq (.inl hpc)) hr
  | requeueCreate tid allocated =>
    rw [Futex.exec] at hr
    split at hr
    · rename_i uaddr1 uaddr2 toWake toRequeue val hpc
      have hfree : (s.pc tid).Free := .of_eq (.inr (.inr ⟨_, _, _, _, _, hpc⟩))
      split at hr
      · exact h.requeueCreated hfree hr
      · cases hr
        exact hfail tid hfree
    · cases hr
  | dequeue tid =>
    rw [Futex.exec] at hr
    split at hr
    · rename_i fs hpc
      cases hr
      exact h.dequeue hpc
    · cases hr
  | write addr val =>
    cases hr
    exact h.setMem _

theorem Reachable.inv (h : Reachable s) : Inv s := by
  apply h.invariant
  · rintro s ⟨mem, rfl⟩
    refine ⟨⟨nofun, fun _ => nodup_nil, nofun⟩, ?_, nofun⟩
    exact ⟨fun f => ⟨nofun, nofun⟩, nodup_nil, nofun, nofun, fun f hf => absurd rfl hf⟩
  · rintro s l s' hs ⟨e, he⟩
    exact hs.exec he

end Futex
