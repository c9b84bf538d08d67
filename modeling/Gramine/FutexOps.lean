import Gramine.FutexRun

/-!
# One futex operation

Which waiters an operation takes off the lists, in which order, and what it returns.

`Effect.Ok` is about what the operation says it did: whom it woke and requeued, and the number it
returns. `Effect.Done` is about the state it leaves: that it did this, and nothing else. The second
holds for every step of every call; the first fails for a requeue onto the same address that goes
round, and only then.
-/

open List

namespace Futex

/-! ## What an operation should do -/

/-- An operation wakes or requeues every waiter at most once, takes the waiters of each futex in the
order in which they were queued (among those that match), and returns how many there were. -/
structure Effect.Ok (s : State) (e : Effect) : Prop where
  once : (e.woken ++ e.requeued).Nodup
  order : ∀ f, (e.woken ++ e.requeued).filter (fun t => t ∈ s.waiters f) <+:
    (s.waiters f).filter (fun t => Matches s e.bitset t)
  count : ∀ n, e.ret = some (.ok n) → n = (e.woken ++ e.requeued).dedup.length

/-- A step that touches no waiter of another thread. -/
theorem Effect.Ok.quiet (s : State) {ret : Option (Except Errno Nat)}
    (hret : ∀ n, ret = some (.ok n) → n = 0) : (Effect.quiet ret).Ok s :=
  ⟨nodup_nil, fun _ => nil_prefix, hret⟩

/-- What a step leaves. The threads it woke are on no list; those it requeued are on the list of the
futex at the second address, which they name, and on no other; and besides the thread that waits or
stops waiting itself, all others are where they were. -/
structure Effect.Done (own : List Nat) (uaddr2 : Option Nat) (s s' : State) (e : Effect) :
    Prop where
  woken : ∀ t ∈ e.woken, s'.woken t = true ∧ ∀ f, t ∉ s'.waiters f
  requeued : ∀ t ∈ e.requeued, ∃ f2 ∈ s'.tree, uaddr2 = some (s'.futexes f2).uaddr ∧
    (s'.waiter t).futex = f2 ∧ ∀ f, t ∈ s'.waiters f ↔ f = f2
  others : Touches (own ++ e.woken ++ e.requeued) s s'

theorem Effect.Done.quiet {own : List Nat} {uaddr2 : Option Nat} {s s' : State}
    (h : Touches own s s') (ret : Option (Except Errno Nat)) :
    (Effect.quiet ret).Done own uaddr2 s s' :=
  ⟨fun _ ht => absurd ht not_mem_nil, fun _ ht => absurd ht not_mem_nil,
    h.mono (by simp [Effect.quiet])⟩

/-- What a loop has done, a step has done that ends with it. -/
theorem Effect.Done.of_taken {target uaddr2 : Option Nat} {s s' : State} {tid : Nat} {needs : Bool}
    {fs : List Nat} {e : Effect} (h : Taken target s s' e.woken e.requeued) (hl : ListsOk s')
    (htarget : ∀ f, target = some f → f ∈ s'.tree ∧ uaddr2 = some (s'.futexes f).uaddr) :
    e.Done [] uaddr2 s (finish s' tid needs fs) := by
  refine ⟨fun t ht => ⟨h.woken t ht, fun f hmem => ?_⟩, fun t ht => ?_, ?_⟩
  · exact absurd ((hl.mem f t hmem).2.2.symm.trans (h.woken t ht)) (by decide)
  · obtain ⟨f2, hf2, hmem⟩ := h.requeued t ht
    obtain ⟨htree, huaddr⟩ := htarget f2 hf2
    refine ⟨f2, htree, huaddr, (hl.mem f2 t hmem).2.1,
      fun f => ⟨fun hf => hl.eq_of_mem hf hmem, ?_⟩⟩
    rintro rfl
    exact hmem
  · exact h.others.trans (.of_eq rfl rfl rfl)

section Ok
variable {s : State} {bitset : Word} {woken requeued : List Nat}

theorem ListsOk.filter_nodup (h : ListsOk s) (f : Nat) (bitset : Word) :
    ((s.waiters f).filter (fun t => Matches s bitset t)).Nodup := (h.nodup f).filter _

theorem filter_waiters (h : ListsOk s) {f : Nat} {l : List Nat} (hl : l ⊆ s.waiters f) (g : Nat) :
    l.filter (fun t => t ∈ s.waiters g) = if g = f then l else [] := by
  by_cases heq : g = f
  · rw [if_pos heq, heq]
    exact filter_eq_self.2 fun t ht => decide_eq_true (hl ht)
  · rw [if_neg heq]
    refine filter_eq_nil_iff.2 fun t ht hmem => ?_
    exact heq (h.eq_of_mem (of_decide_eq_true hmem) (hl ht))

theorem subset_of_initial {f : Nat} {l : List Nat}
    (hl : l <+: (s.waiters f).filter (fun t => Matches s bitset t)) : l ⊆ s.waiters f :=
  fun _ ht => (mem_filter.1 (hl.subset ht)).1

theorem Effect.Ok.of_initial (h : ListsOk s) (f : Nat)
    (hl : woken ++ requeued <+: (s.waiters f).filter (fun t => Matches s bitset t)) {n : Nat}
    (hn : n = woken.length + requeued.length) :
    Effect.Ok s ⟨bitset, woken, requeued, some (.ok n)⟩ := by
  have hnodup : (woken ++ requeued).Nodup := (h.filter_nodup f bitset).sublist hl.sublist
  refine ⟨hnodup, fun g => ?_, fun m hm => ?_⟩
  · simp only [filter_waiters h (subset_of_initial hl) g]
    split
    · rename_i heq
      rwa [heq]
    · exact nil_prefix
  · rw [← Except.ok.inj (Option.some.inj hm), hn]
    simp [hnodup.dedup]

theorem Effect.Ok.of_two_initials (h : ListsOk s) {f1 f2 : Nat} (hne : f1 ≠ f2)
    {woken1 woken2 : List Nat}
    (hl1 : woken1 <+: (s.waiters f1).filter (fun t => Matches s bitset t))
    (hl2 : woken2 <+: (s.waiters f2).filter (fun t => Matches s bitset t)) :
    Effect.Ok s ⟨bitset, woken1 ++ woken2, [], some (.ok (woken1.length + woken2.length))⟩ := by
  have hnodup : (woken1 ++ woken2).Nodup := by
    refine nodup_append.2 ⟨(h.filter_nodup f1 bitset).sublist hl1.sublist,
      (h.filter_nodup f2 bitset).sublist hl2.sublist, ?_⟩
    rintro t ht1 _ ht2 rfl
    exact hne (h.eq_of_mem (subset_of_initial hl1 ht1) (subset_of_initial hl2 ht2))
  refine ⟨by simpa using hnodup, fun g => ?_, fun n hn => ?_⟩
  · simp only [append_nil, filter_append, filter_waiters h (subset_of_initial hl1) g,
      filter_waiters h (subset_of_initial hl2) g]
    by_cases h1 : g = f1
    · have h2 : g ≠ f2 := fun heq => hne (h1.symm.trans heq)
      rwa [if_pos h1, if_neg h2, append_nil, h1]
    rw [if_neg h1]
    split
    · rename_i h2
      rwa [h2]
    · exact nil_prefix
  · rw [← Except.ok.inj (Option.some.inj hn)]
    simp [hnodup.dedup]

end Ok

/-! ## Waking -/

section Wake
variable {s : State} {tid : Nat}

theorem futexWake_ok (h : Inv s) (uaddr : Nat) (toWake : Int) (bitset : Word) :
    ∃ r, futexWake s tid uaddr toWake bitset = some r ∧ r.2.Ok s ∧ r.2.Done [] none s r.1 := by
  have hsame : Touches [] s s := .of_eq rfl rfl rfl
  rw [futexWake]
  split
  · exact ⟨_, rfl, .quiet s (by simp), .quiet hsame _⟩
  split
  · refine ⟨_, rfl, .quiet s fun n hn => ?_, .quiet hsame _⟩
    exact (Except.ok.inj (Option.some.inj hn)).symm
  rename_i f hfind
  obtain ⟨s', hmove, hok⟩ := moveToWakeQueue_spec h.lists h.tree f bitset toWake
  rw [hmove]
  refine ⟨_, rfl, Effect.Ok.of_initial h.lists f ?_ rfl, .of_taken hok.taken hok.lists (by simp)⟩
  rw [append_nil]
  exact take_prefix _ _

theorem filter_matches_zero (s : State) (l : List Nat) : l.filter (fun t => Matches s 0#32 t) = l :=
  filter_eq_self.2 fun _ _ => decide_eq_true (.inl rfl)

theorem toBeWoken_zero (s : State) (f : Nat) (toWake : Int) :
    toBeWoken s f 0#32 toWake = (s.waiters f).take (max 1 toWake.toNat) := by
  rw [toBeWoken, filter_matches_zero]

theorem filter_not_mem_take {l : List Nat} (h : l.Nodup) (n : Nat) :
    l.filter (fun t => t ∉ l.take n) = l.drop n := by
  have hsplit : (l.take n ++ l.drop n).Nodup := by rwa [take_append_drop]
  conv_lhs => rw [← take_append_drop n l, filter_append, take_append_drop]
  have h1 : (l.take n).filter (fun t => t ∉ l.take n) = [] :=
    filter_eq_nil_iff.2 fun t ht => by simpa using ht
  have h2 : (l.drop n).filter (fun t => t ∉ l.take n) = l.drop n :=
    filter_eq_self.2 fun t ht => decide_eq_true fun hmem =>
      (nodup_append.1 hsplit).2.2 t hmem t ht rfl
  rw [h1, h2, nil_append]

/-- The waiters of two futexes, or twice the first waiters of one. -/
theorem wakeTwo_ok (h : ListsOk s) {s1 : State} {f1 f2 : Option Nat} {n m : Nat}
    (hs1 : ∀ f, s1.waiters f = if f1 = some f then (s.waiters f).drop n else s.waiters f) :
    let woken1 := f1.elim [] fun f => (s.waiters f).take n
    let woken2 := f2.elim [] fun f => (s1.waiters f).take m
    Effect.Ok s ⟨0#32, woken1 ++ woken2, [], some (.ok (woken1.length + woken2.length))⟩ := by
  intro woken1 woken2
  have hinitial : ∀ f k, (s.waiters f).take k <+:
      (s.waiters f).filter (fun t => Matches s 0#32 t) := by
    intro f k
    rw [filter_matches_zero]
    exact take_prefix _ _
  have hcount : woken1.length + woken2.length = (woken1 ++ woken2).length + 0 := by simp
  cases f1 with
  | none =>
    cases f2 with
    | none => exact .of_initial h 0 nil_prefix rfl
    | some b =>
      refine .of_initial h b ?_ hcount
      have hw : woken2 = (s.waiters b).take m := by
        simp [woken2, hs1]
      have hw1 : woken1 = [] := rfl
      rw [append_nil, hw1, hw]
      exact hinitial b m
  | some a =>
    have hw1 : woken1 = (s.waiters a).take n := rfl
    cases f2 with
    | none =>
      refine .of_initial h a ?_ hcount
      have hw2 : woken2 = [] := rfl
      rw [append_nil, hw2, append_nil]
      exact hinitial a n
    | some b =>
      by_cases heq : a = b
      · refine .of_initial h a ?_ hcount
        have hw2 : woken2 = ((s.waiters a).drop n).take m := by
          simp [woken2, hs1, heq]
        rw [append_nil, hw1, hw2, ← take_add]
        exact hinitial a (n + m)
      · have hne : some a ≠ some b := fun h => heq (Option.some.inj h)
        have hw2 : woken2 = (s.waiters b).take m := by
          simp only [woken2, Option.elim, hs1, if_neg hne]
        rw [hw2]
        exact .of_two_initials h heq (hinitial a n) (hinitial b m)

theorem wakeOpQueue_taken (hl : ListsOk s) (ht : TreeOk s) {s' : State} {toWake : Int}
    {f : Option Nat} {woken : List Nat} {needs : Bool}
    (h : wakeOpQueue s toWake f = some (s', woken, needs)) : Taken none s s' woken [] := by
  cases f with
  | none =>
    cases h
    exact .refl none s
  | some f =>
    obtain ⟨s1, hmove, hok⟩ := moveToWakeQueue_spec hl ht f 0#32 toWake
    rw [wakeOpQueue, hmove] at h
    cases h
    exact hok.taken

theorem futexWakeOp_ok (h : Inv s) (uaddr1 uaddr2 : Nat) (toWake1 toWake2 : Int) (val3 : Word) :
    ∃ r, futexWakeOp s tid uaddr1 uaddr2 toWake1 toWake2 val3 = some r ∧ r.2.Ok s ∧
      r.2.Done [] none s r.1 := by
  rw [futexWakeOp]
  split
  · refine ⟨_, rfl, .quiet s (by simp), ?_⟩
    refine .quiet ?_ _
    exact .of_eq rfl rfl rfl
  rename_i newval _
  have hm : Inv { s with mem := Function.update s.mem uaddr2 newval } := h.setMem _
  simp only
  split
  · refine ⟨_, rfl, .quiet s (by simp), ?_⟩
    refine .quiet ?_ _
    exact .of_eq rfl rfl rfl
  rename_i cmpval _
  obtain ⟨s1, needs1, hq1, hok1, hwake1, -⟩ :=
    wakeOpQueue_spec hm.lists hm.tree toWake1 (findFutex s uaddr1)
      fun g hg => (findFutex_mem hg).1
  obtain ⟨s2, needs2, hq2, hok2, -⟩ :=
    wakeOpQueue_spec hok1.lists hok1.tree toWake2 (if cmpval then findFutex s uaddr2 else none)
      (fun g hg => by
        rw [hok1.tree_eq]
        exact (findFutex_mem (findFutex_of_if hg)).1)
  rw [hq1]
  simp only [Option.bind_eq_bind, Option.bind_some]
  rw [hq2]
  have hs1 : ∀ f, s1.waiters f = if findFutex s uaddr1 = some f then
      (s.waiters f).drop (max 1 toWake1.toNat) else s.waiters f := by
    intro f
    split
    · rename_i hf1
      rw [(hwake1 f hf1).waiters_eq, toBeWoken_zero]
      exact filter_not_mem_take (h.lists.nodup f) _
    · rename_i hf1
      exact hok1.other f fun hmem => hf1 (Option.mem_toList.1 hmem)
  have htwo := @wakeTwo_ok s h.lists s1 (findFutex s uaddr1)
    (if cmpval then findFutex s uaddr2 else none) _ (max 1 toWake2.toNat) hs1
  have hmem : Touches [] s { s with mem := Function.update s.mem uaddr2 newval } :=
    .of_eq rfl rfl rfl
  have htaken := (wakeOpQueue_taken hm.lists hm.tree hq1).append
    (wakeOpQueue_taken hok1.lists hok1.tree hq2)
  refine ⟨_, rfl, ?_, .of_taken ⟨?_, htaken.woken, htaken.requeued⟩ hok2.lists (by simp)⟩
  · simp only [toBeWoken_zero]
    exact htwo
  · exact (hmem.mono (nil_subset _)).trans htaken.others

end Wake

/-! ## Requeueing -/

/-- A requeue onto the same address that may requeue more waiters than are left after waking, of
which there are at least two. -/
def Overtakes (s : State) (uaddr1 uaddr2 toWake toRequeue : Nat) (val : Option Word) : Prop :=
  uaddr1 = uaddr2 ∧ (∀ v, val = some v → s.mem uaddr1 = v) ∧
    ∃ f, findFutex s uaddr1 = some f ∧ 2 ≤ ((s.waiters f).drop toWake).length ∧
      ((s.waiters f).drop toWake).length < toRequeue

/-- The steps that go round. -/
def Label.Overtakes (s : State) : Label → Prop
  | .requeue _ uaddr1 uaddr2 toWake toRequeue val =>
    0 ≤ toWake ∧ 0 ≤ toRequeue ∧ Futex.Overtakes s uaddr1 uaddr2 toWake.toNat toRequeue.toNat val
  | .requeueCreate tid allocated => allocated = true ∧
    ∃ uaddr1 uaddr2 toWake toRequeue val,
      s.pc tid = .requeueCreated uaddr1 uaddr2 toWake toRequeue val ∧
      Futex.Overtakes s uaddr1 uaddr2 toWake toRequeue val
  | _ => False

variable {s : State}

/-- The threads that a requeue onto the same futex moves, if it does not go round. -/
theorem toBeRequeued_eq {f1 f2 toWake toRequeue : Nat}
    (h : f1 = f2 → ¬ (2 ≤ ((s.waiters f1).drop toWake).length ∧ ((s.waiters f1).drop toWake).length
      < toRequeue)) :
    toBeRequeued s f1 f2 toWake toRequeue = ((s.waiters f1).drop toWake).take toRequeue := by
  rw [toBeRequeued]
  split
  · rename_i heq
    rw [roundCount]
    split
    · rw [rounds_of_le (Nat.min_le_right _ _)]
      exact take_eq_take_min.symm
    · exact rounds_of_le (by omega)
  · rfl

/-- A requeue that goes round takes a waiter twice. -/
theorem toBeRequeued_not_nodup {f toWake toRequeue : Nat}
    (h2 : 2 ≤ ((s.waiters f).drop toWake).length)
    (hlt : ((s.waiters f).drop toWake).length < toRequeue) :
    ¬ (toBeRequeued s f f toWake toRequeue).Nodup := by
  intro hnodup
  have hrounds : toBeRequeued s f f toWake toRequeue =
      rounds toRequeue ((s.waiters f).drop toWake) := by
    rw [toBeRequeued]
    simp only [if_true]
    rw [roundCount, if_neg (by omega)]
  rw [hrounds] at hnodup
  have hne : (s.waiters f).drop toWake ≠ [] := fun hnil => by
    rw [hnil, length_nil] at h2
    omega
  have hle := (subperm_of_subset hnodup (rounds_subset _ _)).length_le
  rw [length_rounds hne] at hle
  omega

theorem requeueLocked_ok_iff (hl : ListsOk s) (ht : TreeOk s) {tid uaddr1 f2 : Nat}
    (hf2 : f2 ∈ s.tree) (created : Bool) (toWake toRequeue : Nat) (val : Option Word) :
    ∃ r, requeueLocked s tid uaddr1 f2 created toWake toRequeue val = some r ∧
      r.2.Done [] (some (s.futexes f2).uaddr) s r.1 ∧
      (r.2.Ok s ↔ ¬ Overtakes s uaddr1 (s.futexes f2).uaddr toWake toRequeue val) := by
  have hsame : ∀ needs fs, Touches [] s (finish s tid needs fs) := fun _ _ => .of_eq rfl rfl rfl
  rw [requeueLocked]
  split
  · rename_i hval
    refine ⟨_, rfl, .quiet (hsame ..) _, iff_of_true (.quiet s (by simp)) fun hover => ?_⟩
    obtain ⟨v, hv, hne⟩ := (Option.any_eq_true _ _).1 hval
    exact absurd (hover.2.1 v hv) (of_decide_eq_true hne)
  rename_i hval
  split
  · rename_i hnone
    refine ⟨_, rfl, .quiet (hsame ..) _, iff_of_true (.quiet s fun n hn => ?_) fun hover => ?_⟩
    · exact (Except.ok.inj (Option.some.inj hn)).symm
    · obtain ⟨-, -, f, hf, -⟩ := hover
      cases hnone.symm.trans hf
  · rename_i f1 hfind
    obtain ⟨s', hloop, hkeep, htaken⟩ := requeueLoop_spec hl ht f1 hf2 toWake toRequeue
    obtain ⟨hf1, huaddr⟩ := findFutex_mem hfind
    rw [hloop]
    refine ⟨_, rfl, .of_taken htaken hkeep.lists ?_, ?_⟩
    · rintro f ⟨⟩
      rw [hkeep.tree_eq, hkeep.uaddr]
      exact ⟨hf2, rfl⟩
    have hover : Overtakes s uaddr1 (s.futexes f2).uaddr toWake toRequeue val ↔
        f1 = f2 ∧ 2 ≤ ((s.waiters f1).drop toWake).length ∧
          ((s.waiters f1).drop toWake).length < toRequeue := by
      constructor
      · rintro ⟨hu, -, _, hf, hcount⟩
        cases hfind.symm.trans hf
        exact ⟨ht.uaddr_inj f1 hf1 f2 hf2 (huaddr.trans hu), hcount⟩
      · rintro ⟨rfl, hcount⟩
        refine ⟨huaddr.symm, fun v hv => ?_, f1, hfind, hcount⟩
        refine Decidable.byContradiction fun hne => hval ?_
        exact (Option.any_eq_true _ _).2 ⟨v, hv, decide_eq_true hne⟩
    rw [hover]
    constructor
    · rintro hok ⟨rfl, h2, hlt⟩
      exact toBeRequeued_not_nodup h2 hlt (nodup_append.1 hok.once).2.1
    intro hnot
    refine .of_initial hl f1 ?_ rfl
    rw [toBeRequeued_eq (fun heq hcount => hnot ⟨heq, hcount⟩), ← take_add, filter_matches_zero]
    exact take_prefix _ _

theorem futexRequeue_ok_iff (h : Inv s) (tid uaddr1 uaddr2 : Nat) (toWake toRequeue : Int)
    (val : Option Word) :
    ∃ r, futexRequeue s tid uaddr1 uaddr2 toWake toRequeue val = some r ∧
      r.2.Done [] (some uaddr2) s r.1 ∧ (r.2.Ok s ↔ ¬ (0 ≤ toWake ∧ 0 ≤ toRequeue ∧
        Overtakes s uaddr1 uaddr2 toWake.toNat toRequeue.toNat val)) := by
  rw [futexRequeue]
  split
  · refine ⟨_, rfl, ?_, iff_of_true (.quiet s (by simp)) (by omega)⟩
    refine .quiet ?_ _
    exact .of_eq rfl rfl rfl
  split
  · rename_i hnone
    refine ⟨_, rfl, ?_, iff_of_true (.quiet s (by simp)) ?_⟩
    · refine .quiet ?_ _
      exact .of_eq rfl rfl rfl
    rintro ⟨-, -, rfl, -, f, hf, -⟩
    cases hnone.symm.trans hf
  · rename_i f2 hfind
    obtain ⟨hf2, huaddr⟩ := findFutex_mem hfind
    obtain ⟨r, hr, hdone, hiff⟩ := @requeueLocked_ok_iff s h.lists h.tree tid uaddr1 f2 hf2 false
      toWake.toNat toRequeue.toNat val
    rw [huaddr] at hiff hdone
    refine ⟨r, hr, hdone, hiff.trans (not_congr ?_)⟩
    exact ⟨fun hover => ⟨by omega, by omega, hover⟩, fun hover => hover.2.2⟩

theorem futexRequeueCreated_ok_iff (h : Inv s) (tid uaddr1 uaddr2 toWake toRequeue : Nat)
    (val : Option Word) :
    ∃ r, futexRequeueCreated s tid uaddr1 uaddr2 toWake toRequeue val = some r ∧
      r.2.Done [] (some uaddr2) s r.1 ∧
      (r.2.Ok s ↔ ¬ Overtakes s uaddr1 uaddr2 toWake toRequeue val) := by
  rw [futexRequeueCreated]
  split
  · rename_i hnone
    have hwaiters := waiters_enqueueNew h.tree uaddr2
    obtain ⟨r, hr, hdone, hiff⟩ := @requeueLocked_ok_iff (enqueueNewFutex s uaddr2)
      (h.lists.enqueueNew h.tree uaddr2) (h.tree.enqueueNew hnone) tid uaddr1 s.fresh
      (mem_enqueueNew s uaddr2) true toWake toRequeue val
    -- the only futex with this address is the new one, which has no waiters
    have hnot : ¬ Overtakes (enqueueNewFutex s uaddr2) uaddr1
        ((enqueueNewFutex s uaddr2).futexes s.fresh).uaddr toWake toRequeue val := by
      rintro ⟨hu, -, f, hf, h2, -⟩
      obtain ⟨hmem, hfu⟩ := findFutex_mem hf
      have heq : f = s.fresh := (h.tree.enqueueNew hnone).uaddr_inj f hmem s.fresh
        (mem_enqueueNew s uaddr2) (hfu.trans hu)
      have hnil : (enqueueNewFutex s uaddr2).waiters f = [] := by
        rw [heq, State.waiters]
        simp [enqueueNewFutex]
      rw [hnil, drop_nil, length_nil] at h2
      omega
    have hok := hiff.2 hnot
    have hnew : Touches [] s (enqueueNewFutex s uaddr2) := .of_eq hwaiters rfl rfl
    have huaddr : ((enqueueNewFutex s uaddr2).futexes s.fresh).uaddr = uaddr2 := by
      simp [enqueueNewFutex]
    rw [huaddr] at hdone
    refine ⟨r, hr, ⟨hdone.woken, hdone.requeued, (hnew.mono (nil_subset _)).trans hdone.others⟩,
      iff_of_true ⟨hok.once, fun f => ?_, hok.count⟩ ?_⟩
    · have horder := hok.order f
      rwa [hwaiters] at horder
    · rintro ⟨rfl, -, f, hf, -⟩
      cases hnone.symm.trans hf
  · rename_i f2 hfind
    obtain ⟨hf2, huaddr⟩ := findFutex_mem hfind
    obtain ⟨r, hr, hdone, hiff⟩ := @requeueLocked_ok_iff s h.lists h.tree tid uaddr1 f2 hf2 true
      toWake toRequeue val
    rw [huaddr] at hiff hdone
    exact ⟨r, hr, hdone, hiff⟩

/-! ## All operations -/

/-- The thread is where the step starts. -/
def Label.Enabled (s : State) : Label → Prop
  | .wait tid _ _ _ => s.pc tid = .idle
  | .waitCreate tid _ => ∃ uaddr val bitset, s.pc tid = .waitCreated uaddr val bitset
  | .resume tid _ => s.pc tid = .blocked
  | .wake tid _ _ _ => s.pc tid = .idle
  | .wakeOp tid _ _ _ _ _ => s.pc tid = .idle
  | .requeue tid _ _ _ _ _ => s.pc tid = .idle
  | .requeueCreate tid _ => ∃ uaddr1 uaddr2 toWake toRequeue val,
      s.pc tid = .requeueCreated uaddr1 uaddr2 toWake toRequeue val
  | .dequeue tid => ∃ futexes, s.pc tid = .dequeue futexes
  | .write _ _ => True

/-- `maybe_dequeue_futex` leaves all waiters alone. -/
theorem foldl_maybeDequeue_keep (s : State) (fs : List Nat) :
    (fs.foldl maybeDequeueFutex s).waiters = s.waiters ∧
      (fs.foldl maybeDequeueFutex s).waiter = s.waiter ∧
      (fs.foldl maybeDequeueFutex s).woken = s.woken := by
  induction fs generalizing s with
  | nil => exact ⟨rfl, rfl, rfl⟩
  | cons f fs ih =>
    obtain ⟨hwaiters, hwaiter, hwoken⟩ := ih (maybeDequeueFutex s f)
    obtain ⟨-, hwaiter', hwoken'⟩ := maybeDequeue_keep s f
    exact ⟨hwaiters.trans (maybeDequeue_waiters s f), hwaiter.trans hwaiter', hwoken.trans hwoken'⟩

/-- The thread that a step puts on a list or takes off one, if it is its own. -/
def Label.own : Label → List Nat
  | .wait tid _ _ _ => [tid]
  | .waitCreate tid _ => [tid]
  | .resume tid _ => [tid]
  | _ => []

/-- The second address of a requeue. -/
def Label.uaddr2 (s : State) : Label → Option Nat
  | .requeue _ _ uaddr2 _ _ _ => some uaddr2
  | .requeueCreate tid _ =>
    match s.pc tid with
    | .requeueCreated _ uaddr2 _ _ _ => some uaddr2
    | _ => none
  | _ => none

theorem waitLocked_ok {s s' : State} {tid : Nat} (h : Touches [tid] s s') (uaddr f : Nat)
    (val bitset : Word) (uaddr2 : Option Nat) :
    (waitLocked s' tid uaddr f val bitset).2.Done [tid] uaddr2 s
        (waitLocked s' tid uaddr f val bitset).1 ∧
      (waitLocked s' tid uaddr f val bitset).2.Ok s := by
  rw [waitLocked]
  split
  · have hfinish : Touches [tid] s' (finish s' tid (checkDequeueFutex s' f) [f]) :=
      .of_eq rfl rfl rfl
    exact ⟨.quiet (h.trans hfinish) _, .quiet s (by simp)⟩
  · have hadd : Touches [tid] s' ((addFutexWaiter s' tid f bitset).setPc tid .blocked) :=
      (Touches.add s' tid f bitset).trans (.of_eq rfl rfl rfl)
    exact ⟨.quiet (h.trans hadd) _, .quiet s (by simp)⟩

theorem exec_ok_iff (h : Inv s) {l : Label} (hl : l.Enabled s) :
    ∃ r, exec s l = some r ∧ r.2.Done l.own (l.uaddr2 s) s r.1 ∧ (r.2.Ok s ↔ ¬ l.Overtakes s) := by
  cases l with
  | wait tid uaddr val bitset =>
    have hwait : (futexWait s tid uaddr val bitset).2.Done [tid] none s
        (futexWait s tid uaddr val bitset).1 ∧ (futexWait s tid uaddr val bitset).2.Ok s := by
      rw [futexWait]
      split
      · refine ⟨?_, .quiet s (by simp)⟩
        refine .quiet ?_ _
        exact .of_eq rfl rfl rfl
      · exact waitLocked_ok (.of_eq rfl rfl rfl) ..
    exact ⟨_, if_pos hl, hwait.1, iff_of_true hwait.2 id⟩
  | waitCreate tid allocated =>
    obtain ⟨uaddr, val, bitset, hpc⟩ := hl
    rw [exec, hpc]
    cases allocated with
    | true =>
      have hwait : (futexWaitCreated s tid uaddr val bitset).2.Done [tid] none s
          (futexWaitCreated s tid uaddr val bitset).1 ∧
          (futexWaitCreated s tid uaddr val bitset).2.Ok s := by
        rw [futexWaitCreated]
        split
        · exact waitLocked_ok (.of_eq (waiters_enqueueNew h.tree uaddr) rfl rfl) ..
        · exact waitLocked_ok (.of_eq rfl rfl rfl) ..
      exact ⟨_, rfl, hwait.1, iff_of_true hwait.2 id⟩
    | false =>
      refine ⟨_, rfl, ?_, iff_of_true (.quiet s (by simp)) id⟩
      refine .quiet ?_ _
      exact .of_eq rfl rfl rfl
  | resume tid ret =>
    have hresume : (futexWaitResume s tid ret).2.Done [tid] none s (futexWaitResume s tid ret).1 ∧
        (futexWaitResume s tid ret).2.Ok s := by
      rw [futexWaitResume]
      split
      · refine ⟨.quiet ?_ _, .quiet s (by simp)⟩
        exact (Touches.remove h.lists tid _).trans (.of_eq rfl rfl rfl)
      refine ⟨?_, .quiet s fun n hn => ?_⟩
      · refine .quiet ?_ _
        exact .of_eq rfl rfl rfl
      split at hn
      · cases hn
      · exact (Except.ok.inj (Option.some.inj hn)).symm
    exact ⟨_, if_pos hl, hresume.1, iff_of_true hresume.2 id⟩
  | wake tid uaddr toWake bitset =>
    obtain ⟨r, hr, hok, hdone⟩ := @futexWake_ok s tid h uaddr toWake bitset
    exact ⟨r, (if_pos hl).trans hr, hdone, iff_of_true hok id⟩
  | wakeOp tid uaddr1 uaddr2 toWake1 toWake2 val3 =>
    obtain ⟨r, hr, hok, hdone⟩ := @futexWakeOp_ok s tid h uaddr1 uaddr2 toWake1 toWake2 val3
    exact ⟨r, (if_pos hl).trans hr, hdone, iff_of_true hok id⟩
  | requeue tid uaddr1 uaddr2 toWake toRequeue val =>
    obtain ⟨r, hr, hdone, hiff⟩ := futexRequeue_ok_iff h tid uaddr1 uaddr2 toWake toRequeue val
    exact ⟨r, (if_pos hl).trans hr, hdone, hiff⟩
  | requeueCreate tid allocated =>
    obtain ⟨uaddr1, uaddr2, toWake, toRequeue, val, hpc⟩ := hl
    have huaddr2 : (Label.requeueCreate tid allocated).uaddr2 s = some uaddr2 := by
      simp [Label.uaddr2, hpc]
    rw [huaddr2, exec, hpc]
    cases allocated with
    | true =>
      obtain ⟨r, hr, hdone, hiff⟩ :=
        futexRequeueCreated_ok_iff h tid uaddr1 uaddr2 toWake toRequeue val
      refine ⟨r, hr, hdone,
        hiff.trans (not_congr ⟨fun hover => ⟨rfl, _, _, _, _, _, hpc, hover⟩, ?_⟩)⟩
      rintro ⟨-, _, _, _, _, _, hpc', hover⟩
      cases hpc.symm.trans hpc'
      exact hover
    | false =>
      refine ⟨_, rfl, ?_, iff_of_true (.quiet s (by simp)) fun hover => ?_⟩
      · refine .quiet ?_ _
        exact .of_eq rfl rfl rfl
      · exact absurd hover.1 (by decide)
  | dequeue tid =>
    obtain ⟨futexes, hpc⟩ := hl
    rw [exec, hpc]
    refine ⟨_, rfl, .quiet ?_ _, iff_of_true (.quiet s (by simp)) id⟩
    obtain ⟨hwaiters, hwaiter, hwoken⟩ := foldl_maybeDequeue_keep s futexes
    exact .of_eq hwaiters hwaiter hwoken
  | write addr val =>
    refine ⟨_, rfl, ?_, iff_of_true (.quiet s (by simp)) id⟩
    refine .quiet ?_ _
    exact .of_eq rfl rfl rfl

/-- The waiters and the tree, between two steps. A waiter is on the list of the futex it names and
on no other, or it was woken and is on none. -/
structure WaitersOk (s : State) : Prop where
  placed : ∀ t, s.pc t = .blocked →
    (s.woken t = false ∧ ∀ f, t ∈ s.waiters f ↔ f = (s.waiter t).futex) ∨
      (s.woken t = true ∧ ∀ f, t ∉ s.waiters f)
  blocked : ∀ f t, t ∈ s.waiters f → s.pc t = .blocked
  once : ∀ f, (s.waiters f).Nodup
  inTree : ∀ f ∈ s.tree, (s.futexes f).inTree = true
  uaddr : ∀ f ∈ s.tree, ∀ g ∈ s.tree, (s.futexes f).uaddr = (s.futexes g).uaddr → f = g
  quiet : (∀ t, s.pc t = .idle ∨ s.pc t = .blocked) → ∀ f, f ∈ s.tree ↔ s.waiters f ≠ []

theorem Inv.waitersOk (h : Inv s) : WaitersOk s := by
  refine ⟨fun t hpc => ?_, fun f t ht => (h.lists.mem f t ht).1, h.lists.nodup,
    fun f hf => (h.tree.mem_iff f).1 hf, h.tree.uaddr_inj, fun hquiet f => ⟨?_, h.tree.waiters f⟩⟩
  · cases hw : s.woken t with
    | false =>
      refine .inl ⟨rfl, fun f => ⟨fun ht => (h.lists.mem f t ht).2.1.symm, ?_⟩⟩
      rintro rfl
      exact h.lists.placed t hpc hw
    | true =>
      refine .inr ⟨rfl, fun f ht => ?_⟩
      rw [(h.lists.mem f t ht).2.2] at hw
      cases hw
  · intro hf hnil
    obtain ⟨t, fs, hpc, -⟩ := h.pending f hf hnil
    rcases hquiet t with hidle | hblocked
    · cases hidle.symm.trans hpc
    · cases hblocked.symm.trans hpc

/-- **Futex waiters.** In every run the waiters and the tree are in order, and every operation
returns. The threads it woke are then on no list, those it requeued on the list of the second futex,
and all others are where they were; and it takes each waiter once, in order, and returns their
number, exactly if it is not a requeue that goes round. -/
theorem futex_waiters {s : State} (h : Reachable s) : WaitersOk s ∧ ∀ l : Label, l.Enabled s →
      ∃ s' e, exec s l = some (s', e) ∧ e.Done l.own (l.uaddr2 s) s s' ∧
        (e.Ok s ↔ ¬ l.Overtakes s) := by
  refine ⟨h.inv.waitersOk, fun l hl => ?_⟩
  obtain ⟨⟨s', e⟩, hexec, hdone, hiff⟩ := exec_ok_iff h.inv hl
  exact ⟨s', e, hexec, hdone, hiff⟩

theorem Reachable.of_run (mem : Nat → Word) {run : List Label}
    (h : run.foldlM (fun s l => (exec s l).map Prod.fst) (initial mem) = some s) : Reachable s := by
  refine Transition.Reachable.of_foldlM _ (fun s l s' hs => ?_) (.init ⟨mem, rfl⟩) run h
  obtain ⟨⟨_, e⟩, he, rfl⟩ := Option.map_eq_some_iff.1 hs
  exact ⟨e, he⟩

/-- Threads 1 and 2 wait on the word at 100. -/
def waitRun : List Label :=
  [.wait 1 100 0 bitsetMatchAny, .waitCreate 1 true, .wait 2 100 0 bitsetMatchAny]

theorem waitRun_eq : ∃ s, Reachable s ∧ s.pc 3 = .idle ∧ s.mem 100 = 0#32 ∧
    findFutex s 100 = some 0 ∧ s.waiters 0 = [1, 2] := by
  have hrun : ((waitRun.foldlM (fun s l => (exec s l).map Prod.fst) (initial fun _ => 0)).map
      fun s => (s.pc 3, s.mem 100, findFutex s 100, s.waiters 0)) =
      some (.idle, 0#32, some 0, [1, 2]) := by decide +kernel
  obtain ⟨s, hs, heq⟩ := Option.map_eq_some_iff.1 hrun
  simp only [Prod.mk.injEq] at heq
  exact ⟨s, .of_run _ hs, heq.1, heq.2.1, heq.2.2.1, heq.2.2.2⟩

theorem futex_waiters_two : ∃ s, s.waiters 0 = [1, 2] ∧ WaitersOk s ∧
    ∃ s' e, exec s (syscallFutex 3 100 .requeue 0 2 100 0) = some (s', e) ∧
      e.Done [] (some 100) s s' ∧ e.Ok s := by
  obtain ⟨s, hs, hpc, -, hfind, hwaiters⟩ := waitRun_eq
  obtain ⟨hok, hops⟩ := futex_waiters hs
  obtain ⟨s', e, he, hdone, hiff⟩ := hops (syscallFutex 3 100 .requeue 0 2 100 0) hpc
  refine ⟨s, hwaiters, hok, s', e, he, hdone, hiff.2 ?_⟩
  rintro ⟨-, -, -, -, f, hf, -, hlt⟩
  cases hfind.symm.trans hf
  rw [hwaiters] at hlt
  exact absurd hlt (by decide)

/-- Two waiters, and a requeue of up to three onto the same address: one of the two is requeued
twice, and the call returns 3. -/
theorem requeue_same_address_twice : ∃ s s' e, Reachable s ∧ s.waiters 0 = [1, 2] ∧
    exec s (syscallFutex 3 100 .requeue 0 3 100 0) = some (s', e) ∧ e.requeued = [1, 2, 1] ∧
    e.ret = some (.ok 3) ∧ ¬ e.Ok s := by
  have hrun : ((waitRun.foldlM (fun s l => (exec s l).map Prod.fst) (initial fun _ => 0)).bind
      fun s => (exec s (syscallFutex 3 100 .requeue 0 3 100 0)).map fun r =>
        (s.waiters 0, r.2.requeued, r.2.ret.map Except.toOption)) =
      some ([1, 2], [1, 2, 1], some (some 3)) := by decide +kernel
  obtain ⟨s, hs, hbind⟩ := Option.bind_eq_some_iff.1 hrun
  obtain ⟨⟨s', e⟩, hexec, heq⟩ := Option.map_eq_some_iff.1 hbind
  simp only [Prod.mk.injEq] at heq
  obtain ⟨hwaiters, hrequeued, hret⟩ := heq
  refine ⟨s, s', e, .of_run _ hs, hwaiters, hexec, hrequeued, ?_, fun hok => ?_⟩
  · cases hr : e.ret with
    | none =>
      rw [hr] at hret
      cases hret
    | some r =>
      rw [hr] at hret
      cases r with
      | error err => cases hret
      | ok n =>
        cases hret
        rfl
  · have honce := (nodup_append.1 hok.once).2.1
    rw [hrequeued] at honce
    exact absurd honce (by decide)

/-! ## Waking everybody -/

/-- The threads that are queued on an address. -/
def queuedOn (s : State) (uaddr : Nat) : List Nat := (findFutex s uaddr).elim [] s.waiters

/-- `INT_MAX`. -/
def intMax : Nat := 2 ^ 31 - 1

theorem matches_any {t : Nat} : Matches s bitsetMatchAny t ↔ (s.waiter t).bitset ≠ 0#32 := by
  have hones : bitsetMatchAny = BitVec.allOnes 32 := by decide
  rw [Matches, hones, BitVec.and_allOnes]
  exact or_iff_right (by decide)

/-- The waiters that a wake of up to `INT_MAX` takes are all of them only if all of them match. -/
theorem toBeWoken_any_eq_iff {f : Nat} :
    (toBeWoken s f bitsetMatchAny intMax).length = (s.waiters f).length ↔
      (∀ t ∈ s.waiters f, (s.waiter t).bitset ≠ 0#32) ∧ (s.waiters f).length ≤ intMax := by
  have hmax : max 1 (intMax : Int).toNat = intMax := by decide
  have hle := length_filter_le (fun t => decide (Matches s bitsetMatchAny t)) (s.waiters f)
  rw [toBeWoken, hmax, length_take]
  constructor
  · intro hlen
    have hall : ((s.waiters f).filter fun t => Matches s bitsetMatchAny t).length =
        (s.waiters f).length := by omega
    rw [length_filter_eq_length_iff] at hall
    exact ⟨fun t ht => matches_any.1 (of_decide_eq_true (hall t ht)), by omega⟩
  · rintro ⟨hall, hlen⟩
    have hfilter : ((s.waiters f).filter fun t => Matches s bitsetMatchAny t) = s.waiters f :=
      filter_eq_self.2 fun t ht => decide_eq_true (matches_any.2 (hall t ht))
    rw [hfilter, Nat.min_eq_right hlen]

/-- In every run, `FUTEX_WAKE` with the count `INT_MAX` wakes every thread queued on the address,
and returns their number, exactly if none of them gave an empty bitset and they are not more than
`INT_MAX`. -/
theorem wake_everybody_iff {s : State} (h : Reachable s) {tid : Nat} (hidle : s.pc tid = .idle)
    (uaddr : Nat) (val2 : Word) (uaddr2 : Nat) (val3 : Word) :
    ∃ s' e, exec s (syscallFutex tid uaddr .wake 0x7fffffff#32 val2 uaddr2 val3) = some (s', e) ∧
      (((∀ t ∈ queuedOn s uaddr, t ∉ queuedOn s' uaddr) ∧
          e.ret = some (.ok (queuedOn s uaddr).length)) ↔
        (∀ t ∈ queuedOn s uaddr, (s.waiter t).bitset ≠ 0#32) ∧
          (queuedOn s uaddr).length ≤ intMax) := by
  have hcount : (0x7fffffff#32 : Word).toInt = (intMax : Int) := by decide
  have hnonzero : bitsetMatchAny ≠ 0#32 := by decide
  rw [syscallFutex]
  simp only [exec, if_pos hidle, futexWake, hcount]
  cases hfind : findFutex s uaddr with
  | none =>
    have hnil : queuedOn s uaddr = [] := by rw [queuedOn, hfind]; rfl
    refine ⟨s, _, rfl, ?_⟩
    rw [hnil]
    exact iff_of_true ⟨by simp, rfl⟩ ⟨by simp, Nat.zero_le _⟩
  | some f =>
    obtain ⟨s1, hmove, hok⟩ :=
      moveToWakeQueue_spec h.inv.lists h.inv.tree f bitsetMatchAny intMax
    have hq : queuedOn s uaddr = s.waiters f := by rw [queuedOn, hfind]; rfl
    have hfind' : findFutex s1 uaddr = some f := by
      rw [← hfind, findFutex, findFutex, hok.tree_eq]
      simp [hok.uaddr]
    simp only [hmove]
    refine ⟨_, _, rfl, ?_⟩
    have hq' : queuedOn (finish s1 tid (checkDequeueFutex s1 f) [f]) uaddr = s1.waiters f := by
      have hfind'' : findFutex (finish s1 tid (checkDequeueFutex s1 f) [f]) uaddr = some f := hfind'
      rw [queuedOn, hfind'']
      rfl
    have hret : (some (Except.ok (toBeWoken s f bitsetMatchAny intMax).length) :
        Option (Except Errno Nat)) = some (.ok (s.waiters f).length) ↔
        (toBeWoken s f bitsetMatchAny intMax).length = (s.waiters f).length := by simp
    simp only [hq, hq', hret, toBeWoken_any_eq_iff, hok.waiters_eq]
    refine ⟨And.right, fun hall => ⟨fun t ht hmem => ?_, hall⟩⟩
    have hlen := toBeWoken_any_eq_iff.2 hall
    have hsub : (toBeWoken s f bitsetMatchAny intMax).Sublist (s.waiters f) :=
      (take_sublist _ _).trans filter_sublist
    rw [hsub.eq_of_length hlen] at hmem
    simpa [ht] using (mem_filter.1 hmem).2

theorem wake_everybody_iff_two : ∃ s s' e, s.waiters 0 = [1, 2] ∧
    exec s (syscallFutex 3 100 .wake 0x7fffffff#32 0 0 0) = some (s', e) ∧
      (((∀ t ∈ queuedOn s 100, t ∉ queuedOn s' 100) ∧ e.ret = some (.ok (queuedOn s 100).length)) ↔
        (∀ t ∈ queuedOn s 100, (s.waiter t).bitset ≠ 0#32) ∧ (queuedOn s 100).length ≤ intMax) := by
  obtain ⟨s, hs, hpc, -, -, hwaiters⟩ := waitRun_eq
  obtain ⟨s', e, he, hiff⟩ := wake_everybody_iff hs hpc 100 0 0 0
  exact ⟨s, s', e, hwaiters, he, hiff⟩

/-- `FUTEX_WAIT_BITSET` with an empty bitset is accepted, and the thread is never woken by
`FUTEX_WAKE`. -/
theorem empty_bitset_not_woken : ∃ s s' e, Reachable s ∧ queuedOn s 100 = [1] ∧
    exec s (syscallFutex 3 100 .wake 0x7fffffff#32 0 0 0) = some (s', e) ∧
    queuedOn s' 100 = [1] ∧ e.woken = [] := by
  have hrun : (([syscallFutex 1 100 .waitBitset 0 0 0 0, .waitCreate 1 true].foldlM
      (fun s l => (exec s l).map Prod.fst) (initial fun _ => 0)).bind
      fun s => (exec s (syscallFutex 3 100 .wake 0x7fffffff#32 0 0 0)).map fun r =>
        (queuedOn s 100, queuedOn r.1 100, r.2.woken)) = some ([1], [1], []) := by decide +kernel
  obtain ⟨s, hs, hbind⟩ := Option.bind_eq_some_iff.1 hrun
  obtain ⟨⟨s', e⟩, hexec, heq⟩ := Option.map_eq_some_iff.1 hbind
  simp only [Prod.mk.injEq] at heq
  exact ⟨s, s', e, .of_run _ hs, heq.1, hexec, heq.2.1, heq.2.2⟩

end Futex
