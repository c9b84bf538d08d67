import Gramine.FutexLists

/-!
# The loops over the waiters of a futex

What `move_to_wake_queue` and the loop of `futex_requeue` take off the list and in which order, and
that they keep the lists and the tree in order.

Both loops are followed with one invariant for each pass: `LoopOk` says what stays in order, and
`Taken` where the threads are that were woken or requeued so far, and that all others are where they
were. The second loop needs care when both futexes are the same, since it then meets the waiters it
has moved.
-/

open List

namespace Futex

open SafeIteration

/-! ## Threads that are left alone -/

/-- Only waiters of the threads `ts` are touched between the two states: the others have the same
waiter, and on every list they stand in the same order. -/
structure Touches (ts : List Nat) (s s' : State) : Prop where
  waiters : ∀ f, (s'.waiters f).filter (fun t => t ∉ ts) = (s.waiters f).filter (fun t => t ∉ ts)
  waiter : ∀ t, t ∉ ts → s'.waiter t = s.waiter t
  woken : ∀ t, t ∉ ts → s'.woken t = s.woken t

namespace Touches
variable {ts ts' : List Nat} {s s' s'' : State}

theorem of_eq (hwaiters : s'.waiters = s.waiters) (hwaiter : s'.waiter = s.waiter)
    (hwoken : s'.woken = s.woken) : Touches ts s s' :=
  ⟨fun f => by rw [hwaiters], fun t _ => by rw [hwaiter], fun t _ => by rw [hwoken]⟩

/-- Two operations on the same threads, one after the other. -/
theorem trans (h : Touches ts s s') (h' : Touches ts s' s'') : Touches ts s s'' :=
  ⟨fun f => (h'.waiters f).trans (h.waiters f), fun t ht => (h'.waiter t ht).trans (h.waiter t ht),
    fun t ht => (h'.woken t ht).trans (h.woken t ht)⟩

theorem mono (h : Touches ts s s') (hsub : ts ⊆ ts') : Touches ts' s s' := by
  have hfilter : ∀ l : List Nat, (l.filter (fun t => t ∉ ts)).filter (fun t => t ∉ ts') =
      l.filter (fun t => t ∉ ts') := by
    intro l
    rw [filter_filter]
    refine filter_congr fun t _ => ?_
    by_cases ht : t ∈ ts'
    · simp [ht]
    · have hnot : t ∉ ts := fun hmem => ht (hsub hmem)
      simp [ht, hnot]
  refine ⟨fun f => ?_, fun t ht => h.waiter t fun hmem => ht (hsub hmem),
    fun t ht => h.woken t fun hmem => ht (hsub hmem)⟩
  rw [← hfilter, h.waiters, hfilter]

/-- Nobody else enters or leaves a list. -/
theorem mem_iff (h : Touches ts s s') {t f : Nat} (ht : t ∉ ts) :
    t ∈ s'.waiters f ↔ t ∈ s.waiters f := by
  have hmem : t ∈ (s'.waiters f).filter (fun t => t ∉ ts) ↔
      t ∈ (s.waiters f).filter (fun t => t ∉ ts) := by rw [h.waiters]
  simpa [ht] using hmem

theorem filter_erase {l : List Nat} (h : l.Nodup) (t : Nat) :
    (l.erase t).filter (fun t' => t' ∉ [t]) = l.filter (fun t' => t' ∉ [t]) := by
  rw [h.erase_eq_filter, filter_filter]
  refine filter_congr fun t' _ => ?_
  by_cases heq : t' = t <;> simp [heq]

/-- A thread leaves its list. -/
theorem remove (h : ListsOk s) (t f : Nat) : Touches [t] s (removeFutexWaiter s t f) := by
  refine ⟨fun g => ?_, fun _ _ => rfl, fun _ _ => rfl⟩
  rw [waiters_remove]
  split
  · rename_i heq
    rw [heq, filter_erase (h.nodup f)]
  · rfl

theorem wake (h : ListsOk s) (t f : Nat) : Touches [t] s (wakeFutexWaiter s t f) :=
  ⟨(Touches.remove h t f).waiters, fun _ _ => rfl, fun _ ht =>
    Function.update_of_ne (fun heq => ht (mem_singleton.2 heq)) ..⟩

/-- A thread changes its list. -/
theorem move (h : ListsOk s) (t f1 f2 : Nat) : Touches [t] s (moveFutexWaiter s t f1 f2) := by
  have hlast : ([t] : List Nat).filter (fun t' => t' ∉ [t]) = [] := by simp
  refine ⟨fun g => ?_, fun t' ht => ?_, fun _ _ => rfl⟩
  · rw [waiters_move]
    split
    · rename_i heq
      rw [filter_append, hlast, append_nil, heq]
      split
      · rename_i heq'
        rw [heq', filter_erase (h.nodup f1)]
      · rfl
    · split
      · rename_i heq
        rw [heq, filter_erase (h.nodup f1)]
      · rfl
  · rw [waiter_move, if_neg fun heq => ht (mem_singleton.2 heq)]

theorem add (s : State) (t f : Nat) (bitset : Word) :
    Touches [t] s (addFutexWaiter s t f bitset) := by
  refine ⟨fun g => ?_, fun t' ht => Function.update_of_ne (fun heq => ht (mem_singleton.2 heq)) ..,
    fun t' ht => Function.update_of_ne (fun heq => ht (mem_singleton.2 heq)) ..⟩
  rw [waiters_add]
  split
  · rename_i heq
    rw [heq, filter_append]
    simp
  · rfl

end Touches

/-- The threads in `woken` were woken, those in `requeued` are on the list of `target`, and the
others were left alone. -/
structure Taken (target : Option Nat) (s s' : State) (woken requeued : List Nat) : Prop where
  others : Touches (woken ++ requeued) s s'
  woken : ∀ t ∈ woken, s'.woken t = true
  requeued : ∀ t ∈ requeued, ∃ f, target = some f ∧ t ∈ s'.waiters f

namespace Taken
variable {target : Option Nat} {s s' : State} {woken requeued : List Nat} {t f1 f2 : Nat}

theorem refl (target : Option Nat) (s : State) : Taken target s s [] [] :=
  ⟨.of_eq rfl rfl rfl, fun _ ht => absurd ht not_mem_nil, fun _ ht => absurd ht not_mem_nil⟩

/-- One more thread is woken, which was not requeued before. -/
theorem wake (h : Taken target s s' woken requeued) (hl : ListsOk s') (f : Nat)
    (ht : t ∉ requeued) : Taken target s (wakeFutexWaiter s' t f) (woken ++ [t]) requeued := by
  refine ⟨?_, fun t' ht' => ?_, fun t' ht' => ?_⟩
  · exact (h.others.mono (by simp)).trans ((Touches.wake hl t f).mono (by simp))
  · rcases mem_append.1 ht' with ht' | ht'
    · by_cases heq : t' = t
      · rw [heq]
        exact Function.update_self ..
      · exact (Function.update_of_ne heq ..).trans (h.woken t' ht')
    · rw [mem_singleton.1 ht']
      exact Function.update_self ..
  · obtain ⟨g, hg, hmem⟩ := h.requeued t' ht'
    have hne : t' ∉ [t] := fun heq => ht (mem_singleton.1 heq ▸ ht')
    exact ⟨g, hg, ((Touches.wake hl t f).mem_iff hne).2 hmem⟩

/-- One more thread is requeued. -/
theorem move (h : Taken (some f2) s s' woken requeued) (hl : ListsOk s') :
    Taken (some f2) s (moveFutexWaiter s' t f1 f2) woken (requeued ++ [t]) := by
  have hlast : t ∈ (moveFutexWaiter s' t f1 f2).waiters f2 := by
    rw [waiters_move, if_pos rfl]
    exact mem_append_right _ (mem_singleton_self t)
  refine ⟨?_, h.woken, fun t' ht' => ⟨f2, rfl, ?_⟩⟩
  · exact (h.others.mono (by simp)).trans ((Touches.move hl t f1 f2).mono (by simp))
  · by_cases heq : t' = t
    · rwa [heq]
    · rcases mem_append.1 ht' with ht' | ht'
      · obtain ⟨g, hg, hmem⟩ := h.requeued t' ht'
        cases hg
        exact ((Touches.move hl t f1 f2).mem_iff fun hmem => heq (mem_singleton.1 hmem)).2 hmem
      · exact absurd (mem_singleton.1 ht') heq

/-- Two loops that only wake, one after the other. -/
theorem append {s'' : State} {woken' : List Nat} (h : Taken target s s' woken [])
    (h' : Taken target s' s'' woken' []) : Taken target s s'' (woken ++ woken') [] := by
  refine ⟨(h.others.mono (by simp)).trans (h'.others.mono (by simp)), fun t ht => ?_,
    fun _ ht => absurd ht not_mem_nil⟩
  by_cases hmem : t ∈ woken'
  · exact h'.woken t hmem
  · rw [h'.others.woken t (by simpa using hmem)]
    exact h.woken t ((mem_append.1 ht).resolve_right hmem)

end Taken

/-! ## What a loop keeps -/

/-- What a loop over the waiters of a futex leaves in order, and what it leaves alone: only lists
of the futexes `fs` change. -/
structure LoopOk (fs : List Nat) (s s' : State) : Prop where
  lists : ListsOk s'
  tree : TreeOk s'
  tree_eq : s'.tree = s.tree
  uaddr : ∀ f, (s'.futexes f).uaddr = (s.futexes f).uaddr
  pc : s'.pc = s.pc
  mem : s'.mem = s.mem
  bitset : ∀ t, (s'.waiter t).bitset = (s.waiter t).bitset
  other : ∀ f, f ∉ fs → s'.waiters f = s.waiters f

variable {s : State}

theorem LoopOk.refl {fs : List Nat} (hl : ListsOk s) (ht : TreeOk s) : LoopOk fs s s :=
  ⟨hl, ht, rfl, fun _ => rfl, rfl, rfl, fun _ => rfl, fun _ _ => rfl⟩

/-- Two loops, one after the other, over the futexes of both. -/
theorem LoopOk.trans {fs fs' : List Nat} {s' s'' : State} (h : LoopOk fs s s')
    (h' : LoopOk fs' s' s'') : LoopOk (fs ++ fs') s s'' := by
  refine ⟨h'.lists, h'.tree, h'.tree_eq.trans h.tree_eq, fun f => (h'.uaddr f).trans (h.uaddr f),
    h'.pc.trans h.pc, h'.mem.trans h.mem, fun t => (h'.bitset t).trans (h.bitset t),
    fun f hf => ?_⟩
  rw [mem_append, not_or] at hf
  exact (h'.other f hf.2).trans (h.other f hf.1)

/-- One round that wakes. -/
theorem LoopOk.wake {fs : List Nat} {s' : State} (h : LoopOk fs s s') {t f : Nat}
    (ht : t ∈ s'.waiters f) (hf : f ∈ fs) : LoopOk fs s (wakeFutexWaiter s' t f) := by
  refine ⟨h.lists.wake ht, h.tree.wake t f, h.tree_eq, fun g => ?_, h.pc, h.mem, h.bitset,
    fun g hg => ?_⟩
  · exact (uaddr_setWaiters s' f g _).trans (h.uaddr g)
  · have hne : g ≠ f := fun heq => hg (heq ▸ hf)
    rw [waiters_wake, if_neg hne]
    exact h.other g hg

/-- One round that moves a waiter. -/
theorem LoopOk.move {fs : List Nat} {s' : State} (h : LoopOk fs s s') {t f1 f2 : Nat}
    (ht : t ∈ s'.waiters f1) (hf2 : f2 ∈ s.tree) (h1 : f1 ∈ fs) (h2 : f2 ∈ fs) :
    LoopOk fs s (moveFutexWaiter s' t f1 f2) := by
  have htree : f2 ∈ s'.tree := by rw [h.tree_eq]; exact hf2
  refine ⟨h.lists.move ht, h.tree.move t f1 f2 htree, h.tree_eq, fun g => ?_, h.pc, h.mem,
    fun t' => ?_, fun g hg => ?_⟩
  · exact (uaddr_move s' g t f1 f2).trans (h.uaddr g)
  · rw [waiter_move]
    split
    · rename_i heq
      rw [heq]
      exact h.bitset t
    · exact h.bitset t'
  · have hne1 : g ≠ f1 := fun heq => hg (heq ▸ h1)
    have hne2 : g ≠ f2 := fun heq => hg (heq ▸ h2)
    rw [waiters_move, if_neg hne2, if_neg hne1]
    exact h.other g hg

/-! ## `move_to_wake_queue` -/

/-- The threads that `move_to_wake_queue` wakes: at least one, if there is any that matches. -/
def toBeWoken (s : State) (f : Nat) (bitset : Word) (toWake : Int) : List Nat :=
  ((s.waiters f).filter (fun t => Matches s bitset t)).take (max 1 toWake.toNat)

/-- The first waiters that match are woken, as many as asked for and one at least. -/
theorem visit_wakeBody {f : Nat} {bitset : Word} {toWake : Int} {woken l : List Nat}
    (hroom : woken.length < max 1 toWake.toNat) :
    (visit (wakeBody f bitset toWake) (s, woken) l).2 = woken ++
      (l.filter (fun t => Matches s bitset t)).take (max 1 toWake.toNat - woken.length) := by
  induction l generalizing s woken with
  | nil => simp [visit]
  | cons t l ih =>
    by_cases hmatch : Matches s bitset t
    · have hlen : (woken ++ [t]).length = woken.length + 1 := by simp
      obtain ⟨n, hn⟩ : ∃ n, max 1 toWake.toNat - woken.length = n + 1 :=
        ⟨max 1 toWake.toNat - woken.length - 1, by omega⟩
      have hfilter : ((t :: l).filter (fun t => Matches s bitset t)).take
          (max 1 toWake.toNat - woken.length) =
          t :: (l.filter (fun t => Matches s bitset t)).take n := by
        rw [filter_cons_of_pos (by simpa using hmatch), hn, take_succ_cons]
      rw [hfilter]
      by_cases hleave : toWake ≤ ((woken ++ [t]).length : Int)
      · have hbody : wakeBody f bitset toWake (s, woken) t =
            ((wakeFutexWaiter s t f, woken ++ [t]), true) := by
          rw [wakeBody, if_neg (not_not_intro hmatch)]
          simp only [decide_eq_true hleave]
        have hzero : n = 0 := by omega
        rw [visit_leave hbody, hzero, take_zero]
      · have hbody : wakeBody f bitset toWake (s, woken) t =
            ((wakeFutexWaiter s t f, woken ++ [t]), false) := by
          rw [wakeBody, if_neg (not_not_intro hmatch)]
          simp only [decide_eq_false hleave]
        have hroom' : (woken ++ [t]).length < max 1 toWake.toNat := by omega
        rw [visit_next hbody, ih hroom', hlen, append_assoc]
        have hn' : max 1 toWake.toNat - (woken.length + 1) = n := by omega
        rw [hn']
        rfl
    · have hbody : wakeBody f bitset toWake (s, woken) t = ((s, woken), false) := by
        rw [wakeBody, if_pos hmatch]
      rw [visit_next hbody, ih hroom, filter_cons_of_neg (by simpa using hmatch)]

/-- The loop takes off the waiter it looks at, or leaves the list alone. -/
theorem wakeBody_takesOff (f : Nat) (bitset : Word) (toWake : Int) :
    TakesOff (wakeItems f) (wakeBody f bitset toWake) := by
  intro r t _ _
  rw [wakeBody]
  split
  · exact .inl rfl
  · refine .inr ?_
    simp [wakeItems, waiters_wake]

/-- What `move_to_wake_queue` does: the others stay, in their order. -/
structure WakeOk (f : Nat) (s s' : State) (woken : List Nat) : Prop extends LoopOk [f] s s' where
  taken : Taken none s s' woken []
  waiters_eq : s'.waiters f = (s.waiters f).filter (fun t => t ∉ woken)

/-- One round keeps what is known about the waiters woken so far. -/
theorem WakeOk.wakeBody {f : Nat} {bitset : Word} {toWake : Int} {r : State × List Nat}
    (h : WakeOk f s r.1 r.2) {t : Nat} (ht : t ∈ r.1.waiters f) :
    WakeOk f s (wakeBody f bitset toWake r t).1.1 (wakeBody f bitset toWake r t).1.2 := by
  rw [Futex.wakeBody]
  split
  · exact h
  refine ⟨h.toLoopOk.wake ht (mem_singleton_self f), h.taken.wake h.lists f not_mem_nil, ?_⟩
  have herase : (r.1.waiters f).erase t = (s.waiters f).filter (fun t' => t' ∉ r.2 ++ [t]) := by
    rw [(h.lists.nodup f).erase_eq_filter, h.waiters_eq, filter_filter]
    refine filter_congr fun t' _ => ?_
    by_cases heq : t' = t <;> simp [heq]
  simp [waiters_wake, herase]

/-- `move_to_wake_queue` returns, and wakes the first threads that match. -/
theorem moveToWakeQueue_spec (hl : ListsOk s) (ht : TreeOk s) (f : Nat) (bitset : Word)
    (toWake : Int) :
    ∃ s', moveToWakeQueue s f bitset toWake = some (s', toBeWoken s f bitset toWake) ∧
      WakeOk f s s' (toBeWoken s f bitset toWake) := by
  have hnodup : (wakeItems f (s, [])).Nodup := hl.nodup f
  have hloop : moveToWakeQueue s f bitset toWake =
      some (visit (wakeBody f bitset toWake) (s, []) (s.waiters f)) :=
    forEach_eq_visit (wakeBody_takesOff f bitset toWake) hnodup
      (Nat.lt_succ_self _)
  have hwoken : (visit (wakeBody f bitset toWake) (s, []) (s.waiters f)).2 =
      toBeWoken s f bitset toWake := by
    have hroom : ([] : List Nat).length < max 1 toWake.toNat := by
      rw [length_nil]
      omega
    rw [visit_wakeBody hroom, nil_append, length_nil, Nat.sub_zero, toBeWoken]
  have hinit : WakeOk f s s [] :=
    { LoopOk.refl hl ht with taken := .refl none s, waiters_eq := by simp }
  have hok : WakeOk f s (visit (wakeBody f bitset toWake) (s, []) (s.waiters f)).1
      (visit (wakeBody f bitset toWake) (s, []) (s.waiters f)).2 :=
    (wakeBody_takesOff f bitset toWake).visit_invariant
      (fun r (hr : WakeOk f s r.1 r.2) => hr.lists.nodup f)
      (fun r t hr hmem => hr.wakeBody hmem) hinit (fun t hmem => hmem) (hl.nodup f)
  refine ⟨_, ?_, hwoken ▸ hok⟩
  rw [hloop, ← hwoken]

/-! ## The loop of `futex_requeue` -/

/-- The first `n` elements of a list when one goes round and round. -/
def rounds : Nat → List Nat → List Nat
  | 0, _ => []
  | _ + 1, [] => []
  | n + 1, x :: l => x :: rounds n (l ++ [x])

theorem rounds_nil (n : Nat) : rounds n [] = [] := by
  cases n with
  | zero | succ n => rfl

/-- A list that is long enough is not gone through again. -/
theorem rounds_append {n : Nat} {l l' : List Nat} (h : n ≤ l.length) :
    rounds n (l ++ l') = l.take n := by
  induction n generalizing l l' with
  | zero => rw [rounds, take_zero]
  | succ n ih =>
    cases l with
    | nil => cases h
    | cons x l =>
      rw [cons_append, rounds, append_assoc, ih (Nat.le_of_succ_le_succ h), take_succ_cons]

theorem rounds_of_le {n : Nat} {l : List Nat} (h : n ≤ l.length) : rounds n l = l.take n := by
  have happ : rounds n (l ++ []) = l.take n := rounds_append h
  rwa [append_nil] at happ

theorem length_rounds {n : Nat} {l : List Nat} (h : l ≠ []) : (rounds n l).length = n := by
  induction n generalizing l with
  | zero => rfl
  | succ n ih =>
    cases l with
    | nil => exact absurd rfl h
    | cons x l => rw [rounds, length_cons, ih (by simp)]

theorem rounds_subset (n : Nat) (l : List Nat) : rounds n l ⊆ l := by
  induction n generalizing l with
  | zero => exact nil_subset l
  | succ n ih =>
    cases l with
    | nil => exact nil_subset []
    | cons x l =>
      refine cons_subset.2 ⟨mem_cons_self, fun y hy => ?_⟩
      have hmem := ih _ hy
      rw [mem_append, mem_singleton] at hmem
      exact mem_cons.2 hmem.symm

section Body
variable {s : State} {f1 f2 toWake toRequeue t : Nat} {woken requeued : List Nat}

theorem requeueBody_wake (hwake : woken.length < toWake) :
    requeueBody f1 f2 toWake toRequeue (s, woken, requeued) t =
      ((wakeFutexWaiter s t f1, woken ++ [t], requeued), false) := by
  rw [requeueBody]
  simp [if_pos hwake]

theorem requeueBody_move (hwake : ¬ woken.length < toWake)
    (hrequeue : requeued.length < toRequeue) :
    requeueBody f1 f2 toWake toRequeue (s, woken, requeued) t =
      ((moveFutexWaiter s t f1 f2, woken, requeued ++ [t]), false) := by
  rw [requeueBody]
  simp [if_neg hwake, if_pos hrequeue]

theorem requeueBody_leave (hwake : ¬ woken.length < toWake)
    (hrequeue : ¬ requeued.length < toRequeue) :
    requeueBody f1 f2 toWake toRequeue (s, woken, requeued) t = ((s, woken, requeued), true) := by
  rw [requeueBody]
  simp [if_neg hwake, if_neg hrequeue]

end Body

theorem sub_length {n : Nat} {l : List Nat} (h : l.length < n) (t : Nat) :
    n - l.length = (n - (l ++ [t]).length) + 1 := by
  rw [length_append, length_singleton]
  omega

/-- The loop of `futex_requeue` between two futexes. -/
theorem visit_requeueBody {f1 f2 toWake toRequeue : Nat} {woken requeued l : List Nat} :
    (visit (requeueBody f1 f2 toWake toRequeue) (s, woken, requeued) l).2 =
      (woken ++ l.take (toWake - woken.length),
        requeued ++ (l.drop (toWake - woken.length)).take (toRequeue - requeued.length)) := by
  induction l generalizing s woken requeued with
  | nil => simp [visit]
  | cons t l ih =>
    by_cases hwake : woken.length < toWake
    · rw [visit_next (requeueBody_wake hwake), ih, sub_length hwake t,
        take_succ_cons, drop_succ_cons, append_assoc, singleton_append]
    have hzero : toWake - woken.length = 0 := by omega
    by_cases hrequeue : requeued.length < toRequeue
    · rw [visit_next (requeueBody_move hwake hrequeue), ih, hzero,
        sub_length hrequeue t, take_zero, take_zero, drop_zero, drop_zero,
        take_succ_cons, append_assoc, singleton_append]
    · have hzero' : toRequeue - requeued.length = 0 := by omega
      rw [visit_leave (requeueBody_leave hwake hrequeue), hzero, hzero',
        take_zero, take_zero, append_nil, append_nil]

/-- How many requeueings there are on one futex with `rest` waiters. -/
def roundCount (n rest : Nat) : Nat := if rest ≤ 1 then min n rest else n

/-- The loop of `futex_requeue` on one futex: with more than one waiter it goes round. -/
theorem turn_requeueBody {f toWake toRequeue fuel : Nat} {woken requeued l : List Nat}
    (hl : requeueItems f (s, woken, requeued) = l)
    (hfuel : l.length + (toRequeue - requeued.length) < fuel) :
    ∃ s', turn (requeueItems f) (requeueBody f f toWake toRequeue) fuel
      (s, woken, requeued) = some (s', woken ++ l.take (toWake - woken.length),
        requeued ++ rounds (roundCount (toRequeue - requeued.length)
          (l.drop (toWake - woken.length)).length) (l.drop (toWake - woken.length))) := by
  induction fuel generalizing s woken requeued l with
  | zero => exact absurd hfuel (Nat.not_lt_zero _)
  | succ fuel ih =>
    cases l with
    | nil =>
      refine ⟨s, ?_⟩
      rw [turn_nil hl, take_nil, drop_nil, rounds_nil, append_nil, append_nil]
    | cons t l =>
      rw [length_cons] at hfuel
      by_cases hwake : woken.length < toWake
      · have hl' : requeueItems f (wakeFutexWaiter s t f, woken ++ [t], requeued) = l := by
          rw [requeueItems] at hl ⊢
          rw [waiters_wake, if_pos rfl, hl, erase_cons_head]
        rw [sub_length hwake t, take_succ_cons, drop_succ_cons]
        cases l with
        | nil =>
          refine ⟨wakeFutexWaiter s t f, ?_⟩
          rw [turn_last hl (requeueBody_wake hwake), take_nil, drop_nil, rounds_nil, append_nil]
        | cons t' l =>
          obtain ⟨s', hs'⟩ := ih hl' (by omega)
          refine ⟨s', ?_⟩
          rw [turn_next hl (requeueBody_wake hwake), hs', append_assoc, singleton_append]
      · have hzero : toWake - woken.length = 0 := by omega
        rw [hzero, take_zero]
        by_cases hrequeue : requeued.length < toRequeue
        · have hl' : requeueItems f (moveFutexWaiter s t f f, woken, requeued ++ [t]) =
              l ++ [t] := by
            rw [requeueItems] at hl ⊢
            rw [waiters_move, if_pos rfl, if_pos rfl, hl, erase_cons_head]
          have hsub := sub_length hrequeue t
          rw [hsub]
          cases l with
          | nil =>
            rw [turn_last hl (requeueBody_move hwake hrequeue)]
            simp [roundCount, rounds]
          | cons t' l =>
            have hlen : ((t' :: l) ++ [t]).length = (t' :: l).length + 1 := by
              rw [length_append, length_singleton]
            obtain ⟨s', hs'⟩ := ih hl' (by omega)
            rw [turn_next hl (requeueBody_move hwake hrequeue), hs', hzero]
            simp [roundCount, rounds]
        · have hzero' : toRequeue - requeued.length = 0 := by omega
          rw [turn_leave hl (requeueBody_leave hwake hrequeue), hzero', roundCount]
          simp [rounds]

/-- Those that the loop of `futex_requeue` requeues, in order. -/
def toBeRequeued (s : State) (f1 f2 toWake toRequeue : Nat) : List Nat :=
  let rest := (s.waiters f1).drop toWake
  if f1 = f2 then rounds (roundCount toRequeue rest.length) rest else rest.take toRequeue

/-- What the loop of `futex_requeue` has done so far: it wakes before it requeues. -/
structure RequeueOk (f1 f2 toWake : Nat) (s : State) (r : State × List Nat × List Nat) : Prop
    extends LoopOk [f1, f2] s r.1 where
  taken : Taken (some f2) s r.1 r.2.1 r.2.2
  wakes_first : r.2.2 ≠ [] → toWake ≤ r.2.1.length

/-- One round keeps what is known about the waiters woken and moved so far. -/
theorem requeueBody_ok {f1 f2 toWake toRequeue : Nat} (hf2 : f2 ∈ s.tree)
    {r : State × List Nat × List Nat} (h : RequeueOk f1 f2 toWake s r) {t : Nat}
    (ht : t ∈ r.1.waiters f1) :
    RequeueOk f1 f2 toWake s (requeueBody f1 f2 toWake toRequeue r t).1 := by
  obtain ⟨s', woken, requeued⟩ := r
  rw [requeueBody]
  split
  · rename_i hwake
    have hnil : requeued = [] :=
      Decidable.byContradiction fun hne => absurd (h.wakes_first hne) (Nat.not_le.2 hwake)
    refine ⟨h.toLoopOk.wake ht (by simp), h.taken.wake h.lists f1 ?_, fun hne => absurd hnil hne⟩
    simp [hnil]
  · rename_i hwake
    split
    · exact ⟨h.toLoopOk.move ht hf2 (by simp) (by simp), h.taken.move h.lists,
        fun _ => Nat.not_lt.1 hwake⟩
    · exact h

/-- Between two futexes each waiter is met once, -/
theorem requeueBody_takesOff {f1 f2 : Nat} (hne : f1 ≠ f2) (toWake toRequeue : Nat) :
    TakesOff (requeueItems f1) (requeueBody f1 f2 toWake toRequeue) := by
  intro r t _ _
  rw [requeueBody]
  split
  · exact .inr (by simp [requeueItems, waiters_wake])
  · split
    · exact .inr (by simp [requeueItems, waiters_move, if_neg hne])
    · exact .inl rfl

/-- within one futex a waiter that was moved is met again at the end of the list. -/
theorem requeueBody_turns (f toWake toRequeue : Nat) :
    Turns (requeueItems f) (requeueBody f f toWake toRequeue) := by
  intro r r' t rest hitems hbody
  rw [requeueItems] at hitems
  rw [requeueBody] at hbody
  split at hbody
  · cases hbody
    refine .inl ?_
    simp [requeueItems, waiters_wake, hitems]
  split at hbody
  · cases hbody
    refine .inr ?_
    simp [requeueItems, waiters_move, hitems]
  · cases hbody

/-- The loop of `futex_requeue` returns. -/
theorem requeueLoop_spec (hl : ListsOk s) (ht : TreeOk s) (f1 : Nat) {f2 : Nat} (hf2 : f2 ∈ s.tree)
    (toWake toRequeue : Nat) :
    ∃ s', requeueLoop s f1 f2 toWake toRequeue =
        some (s', (s.waiters f1).take toWake, toBeRequeued s f1 f2 toWake toRequeue) ∧
      LoopOk [f1, f2] s s' ∧
      Taken (some f2) s s' ((s.waiters f1).take toWake)
        (toBeRequeued s f1 f2 toWake toRequeue) := by
  have hinit : RequeueOk f1 f2 toWake s (s, [], []) :=
    { LoopOk.refl hl ht with taken := .refl (some f2) s, wakes_first := fun h => absurd rfl h }
  have hnodup : (requeueItems f1 (s, [], [])).Nodup := hl.nodup f1
  by_cases heq : f1 = f2
  · subst heq
    obtain ⟨s', hs'⟩ := @turn_requeueBody s f1 toWake toRequeue
      ((s.waiters f1).length + toRequeue + 1) [] [] (s.waiters f1) rfl (by simp)
    rw [nil_append, nil_append, length_nil, Nat.sub_zero, Nat.sub_zero] at hs'
    have hrequeued : toBeRequeued s f1 f1 toWake toRequeue =
        rounds (roundCount toRequeue ((s.waiters f1).drop toWake).length)
          ((s.waiters f1).drop toWake) := if_pos rfl
    rw [← hrequeued] at hs'
    have hloop := forEach_eq_turn (requeueBody_turns f1 toWake toRequeue) hnodup hs'
    have hok := turn_invariant (RequeueOk f1 f1 toWake s)
      (fun r t hr hmem => requeueBody_ok hf2 hr hmem) hinit hs'
    exact ⟨s', hloop, hok.toLoopOk, hok.taken⟩
  · have htakes := requeueBody_takesOff heq toWake toRequeue
    have hloop : requeueLoop s f1 f2 toWake toRequeue =
        some (visit (requeueBody f1 f2 toWake toRequeue) (s, [], []) (s.waiters f1)) :=
      forEach_eq_visit htakes hnodup (by simp only [requeueItems]; omega)
    have hok : RequeueOk f1 f2 toWake s (visit (requeueBody f1 f2 toWake toRequeue)
        (s, [], []) (s.waiters f1)) :=
      htakes.visit_invariant (fun r (hr : RequeueOk f1 f2 toWake s r) => hr.lists.nodup f1)
        (fun r t hr hmem => requeueBody_ok hf2 hr hmem) hinit (fun t hmem => hmem) hnodup
    have hlists : (visit (requeueBody f1 f2 toWake toRequeue) (s, [], []) (s.waiters f1)).2 =
        ((s.waiters f1).take toWake, toBeRequeued s f1 f2 toWake toRequeue) := by
      rw [visit_requeueBody, toBeRequeued, if_neg heq]
      simp
    have htaken := hok.taken
    rw [hlists] at htaken
    refine ⟨_, ?_, hok.toLoopOk, htaken⟩
    rw [hloop]
    exact congrArg some (Prod.ext rfl hlists)

end Futex
