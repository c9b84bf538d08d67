import Gramine.FileLock

/-!
# POSIX locks as byte ranges

The POSIX locks of a dentry are a partial map from a process and a byte to a lock
type (`Held`). `_posix_lock_set` overwrites the map on the requested range and
nowhere else (`PosixSet.held`), and keeps the list sorted by process and then by start
without overlaps (`Ordered`).

The loop is treated with its accumulators: the locks kept before the target range,
and a target range that grows over the locks merged into it.
-/

open List

namespace FileLock

/-- The lock covers byte `b` for process `p` with type `ty`. -/
def Lock.At (l : Lock) (p b : Nat) (ty : LockType) : Prop :=
  l.pid = p ∧ l.type = ty ∧ l.start ≤ b ∧ b ≤ l.stop

/-- Some lock of the list covers byte `b` for process `p` with type `ty`. -/
def Held (locks : List Lock) (p b : Nat) (ty : LockType) : Prop :=
  ∃ l ∈ locks, l.At p b ty

@[simp] theorem held_nil {p b : Nat} {ty : LockType} : Held [] p b ty ↔ False := by
  simp [Held]

@[simp] theorem held_cons {l : Lock} {ls : List Lock} {p b : Nat} {ty : LockType} :
    Held (l :: ls) p b ty ↔ l.At p b ty ∨ Held ls p b ty := by
  simp [Held]

@[simp] theorem held_append {a c : List Lock} {p b : Nat} {ty : LockType} :
    Held (a ++ c) p b ty ↔ Held a p b ty ∨ Held c p b ty := by
  simp [Held, or_and_right, exists_or]

/-- What is true of every POSIX lock on a list. -/
structure Lock.Posix (l : Lock) : Prop where
  family : l.family = .posix
  type : l.type ≠ .unlck
  range : l.start ≤ l.stop
  eof : l.stop ≤ fsLockEof

/-- The distance kept between two locks of a process: `k` bytes more than none if
they have the same type. -/
def sep (k : Nat) (a b : Lock) : Nat := if a.type = b.type then k else 0

theorem sep_le (k : Nat) (a b : Lock) : sep k a b ≤ k := by
  unfold sep
  split <;> omega

variable {k : Nat} {a b : Lock}

theorem sep_congr {a' b' : Lock} (ha : a'.type = a.type) (hb : b'.type = b.type) :
    sep k a' b' = sep k a b := by
  unfold sep
  rw [ha, hb]

/-- `a` comes before `b`: by process, then by range. With `k = 0` the ranges do
not overlap; with `k = 1` those of one type are not adjacent either. -/
def Ordered (k : Nat) (a b : Lock) : Prop :=
  a.pid < b.pid ∨ (a.pid = b.pid ∧ a.stop + sep k a b < b.start)

/-- The lock to be set, with the target range. -/
def target (fl : Lock) (start stop : Nat) : Lock := ⟨.posix, fl.type, start, stop, fl.pid, 0⟩

/-- The map after the request, in terms of the locks before. -/
def Overwritten (fl : Lock) (locks : List Lock) (start stop p b : Nat) (ty : LockType) : Prop :=
  (target fl start stop).At p b ty ∨ (Held locks p b ty ∧ ¬ (p = fl.pid ∧ start ≤ b ∧ b ≤ stop))

/-- What the loop of `_posix_lock_set` guarantees when it starts with the locks
`locks` and the target range from `start` to `stop`. -/
structure LoopSpec (k : Nat) (fl : Lock) (locks : List Lock) (start stop : Nat) (r : Split) :
    Prop where
  posix : ∀ l ∈ r.before ++ r.after, l.Posix
  range : r.start ≤ r.stop
  eof : r.stop ≤ fsLockEof
  sorted : (r.before ++ r.after).Pairwise (Ordered k)
  before : ∀ l ∈ r.before, Ordered k l (target fl r.start r.stop)
  after : ∀ l ∈ r.after, Ordered k (target fl r.start r.stop) l
  held : ∀ p b ty, (target fl r.start r.stop).At p b ty ∨ Held (r.before ++ r.after) p b ty ↔
    Overwritten fl locks start stop p b ty

/-- What the loop relies on. -/
structure LoopPre (k : Nat) (fl : Lock) (before rest : List Lock) (start stop : Nat) : Prop where
  gap : k ≤ 1
  posix : ∀ l ∈ before ++ rest, l.Posix
  range : start ≤ stop
  eof : stop ≤ fsLockEof
  sorted : (before ++ rest).Pairwise (Ordered k)
  before : ∀ l ∈ before, Ordered k l (target fl start stop)

variable {start stop : Nat}

/-- Two requests with the same effect have the same specification. -/
theorem LoopSpec.of_overwritten {fl : Lock} {locks locks' : List Lock} {start' stop' : Nat}
    {r : Split} (h : LoopSpec k fl locks' start' stop' r)
    (heq : ∀ p b ty, Overwritten fl locks' start' stop' p b ty ↔ Overwritten fl locks start stop p
      b ty) : LoopSpec k fl locks start stop r :=
  { h with held := fun p b ty => (h.held p b ty).trans (heq p b ty) }

variable {before rest : List Lock}

/-- The other locks of the process lie before or after the current one. -/
theorem LoopPre.clear {fl cur : Lock} (h : LoopPre k fl before (cur :: rest) start stop) (b : Nat)
    (ty : LockType) :
    (Held before cur.pid b ty → b < cur.start) ∧ (Held rest cur.pid b ty → cur.stop < b) := by
  have hs := pairwise_append.mp h.sorted
  constructor
  · rintro ⟨l, hl, hp, -, -, hb⟩
    have := hs.2.2 l hl cur mem_cons_self
    unfold Ordered at this
    omega
  · rintro ⟨l, hl, hp, -, hb, -⟩
    have := (pairwise_cons.mp hs.2.1).1 l hl
    unfold Ordered at this
    omega

/-- Whatever separates two locks separates those further apart. -/
theorem Ordered.trans {c : Lock} (hk : k ≤ 1) (h : Ordered k a b) (h' : Ordered k b c)
    (hb : b.start ≤ b.stop) : Ordered k a c := by
  have := sep_le k a c
  unfold Ordered at *
  omega

theorem Ordered.of_ne (hp : a.pid = b.pid) (ht : a.type ≠ b.type) (h : a.stop < b.start) :
    Ordered k a b :=
  .inr ⟨hp, by rwa [show sep k a b = 0 from if_neg ht]⟩

/-- Locks that shrink stay in order. -/
theorem Ordered.inside {a' b' : Lock} (h : Ordered k a b) (ha : a'.pid = a.pid)
    (hta : a'.type = a.type) (hstop : a'.stop ≤ a.stop) (hb : b'.pid = b.pid)
    (htb : b'.type = b.type) (hstart : b.start ≤ b'.start) : Ordered k a' b' := by
  have : sep k a' b' = sep k a b := sep_congr hta htb
  unfold Ordered at *
  omega

/-! ## The steps of the loop -/

/-- The loop has nothing left to do: all locks behind begin after the target. -/
theorem LoopSpec.final {fl : Lock} {after : List Lock} (h : LoopPre k fl before after start stop)
    (hafter : ∀ l ∈ after, Ordered k (target fl start stop) l) :
    LoopSpec k fl (before ++ after) start stop ⟨before, after, start, stop⟩ := by
  refine ⟨h.posix, h.range, h.eof, h.sorted, h.before, hafter, fun p b ty => ?_⟩
  have hclear : Held (before ++ after) p b ty → ¬ (p = fl.pid ∧ start ≤ b ∧ b ≤ stop) := by
    rintro ⟨l, hl, rfl, -, h1, h2⟩ ⟨hp, h3, h4⟩
    rcases mem_append.mp hl with hl | hl
    · have := h.before l hl
      simp only [Ordered, target] at this
      omega
    · have := hafter l hl
      simp only [Ordered, target] at this
      omega
  unfold Overwritten
  tauto

namespace LoopPre
variable {k : Nat} {fl cur : Lock} {before rest : List Lock} {start stop : Nat}

variable (h : LoopPre k fl before (cur :: rest) start stop)

include h

theorem drop : LoopPre k fl before rest start stop := by
  have hsub : (before ++ rest).Sublist (before ++ cur :: rest) :=
    (sublist_cons_self cur rest).append_left before
  exact { h with posix := fun l hl => h.posix l (hsub.subset hl), sorted := h.sorted.sublist hsub }

omit h in
/-- A lock that is split in two puts its second half in front of the rest. -/
theorem insert (h : LoopPre k fl before rest start stop) (extra : Lock) (hposix : extra.Posix)
    (hbefore : ∀ l ∈ before, Ordered k l extra) (hafter : ∀ l ∈ rest, Ordered k extra l) :
    LoopPre k fl before (extra :: rest) start stop := by
  obtain ⟨hk, hp, hr, he, hs, hb⟩ := h
  have hs' := pairwise_append.mp hs
  refine ⟨hk, ?_, hr, he, ?_, hb⟩
  · intro l hl
    simp only [mem_append, mem_cons] at hl
    rcases hl with hl | rfl | hl
    · exact hp l (by simp [hl])
    · exact hposix
    · exact hp l (by simp [hl])
  · refine pairwise_append.mpr ⟨hs'.1, pairwise_cons.mpr ⟨hafter, hs'.2.1⟩, ?_⟩
    intro a ha l hl
    rcases mem_cons.mp hl with rfl | hl
    · exact hbefore a ha
    · exact hs'.2.2 a ha l hl

section
variable {cur' : Lock} (hposix : cur'.Posix) (hpid : cur'.pid = cur.pid)
  (htype : cur'.type = cur.type) (hstart : cur.start ≤ cur'.start) (hstop : cur'.stop ≤ cur.stop)
include hposix hpid htype hstart hstop

theorem replace : LoopPre k fl before (cur' :: rest) start stop := by
  have hs := pairwise_append.mp h.sorted
  refine h.drop.insert cur' hposix (fun l hl => ?_) fun l hl => ?_
  · exact (hs.2.2 l hl cur mem_cons_self).inside rfl rfl le_rfl hpid htype hstart
  · exact ((pairwise_cons.mp hs.2.1).1 l hl).inside hpid htype hstop rfl rfl le_rfl

/-- The current lock, perhaps cut, ends before the target. -/
theorem keep (ho : Ordered k cur' (target fl start stop)) :
    LoopPre k fl (before ++ [cur']) rest start stop := by
  obtain ⟨hk, hp, hr, he, hs, hb⟩ := h.replace hposix hpid htype hstart hstop
  rw [append_cons] at hp hs
  refine ⟨hk, hp, hr, he, hs, fun l hl => ?_⟩
  rcases mem_append.mp hl with hl | hl
  · exact hb l hl
  · rwa [mem_singleton.mp hl]

end

/-- The current lock goes, and the target may have grown to cover it. -/
theorem delete {start' stop' : Nat}
    (hpid : cur.pid = fl.pid) (hr : start' ≤ stop') (he : stop' ≤ fsLockEof)
    (hstart : start ≤ start' ∨ (cur.type = fl.type ∧ min start cur.start ≤ start')) :
    LoopPre k fl before rest start' stop' := by
  refine { h.drop with range := hr, eof := he, before := fun l hl => ?_ }
  have h1 := h.before l hl
  have h2 := (pairwise_append.mp h.sorted).2.2 l hl cur mem_cons_self
  have hsep : sep k l (target fl start' stop') = sep k l (target fl start stop) := rfl
  rcases hstart with hstart | ⟨ht, hstart⟩
  · exact h1.inside rfl rfl le_rfl rfl rfl hstart
  have hsep' : sep k l (target fl start stop) = sep k l cur := sep_congr rfl ht.symm
  unfold Ordered at *
  simp only [target] at *
  omega

/-- The current lock begins after the target, so the loop stops before it. -/
theorem stop_before (ho : Ordered k (target fl start stop) cur) :
    LoopSpec k fl (before ++ cur :: rest) start stop ⟨before, cur :: rest, start, stop⟩ := by
  refine .final h fun l hl => ?_
  rcases mem_cons.mp hl with rfl | hl
  · exact ho
  · have hs' := pairwise_append.mp h.sorted
    exact Ordered.trans h.gap ho ((pairwise_cons.mp hs'.2.1).1 l hl) (h.posix cur (by simp)).range

end LoopPre

/-- **The loop of `_posix_lock_set`.** -/
theorem posixLockLoop_spec (fl : Lock) {skipped : List Lock} (hskip : skipped = [])
    (h : LoopPre k fl before rest start stop) :
    LoopSpec k fl (before ++ rest) start stop
      (posixLockLoop fl before skipped start stop rest) := by
  fun_induction posixLockLoop fl before skipped start stop rest
  case case1 before skipped start stop =>
    subst hskip
    exact .final h (by simp)
  case case2 before skipped start stop cur rest hf ih =>
    exact absurd (h.posix cur (by simp)).family hf
  case case3 before skipped start stop cur rest hf hlt ih =>
    subst hskip
    have hp := h.posix cur (by simp)
    have := ih rfl (by
      rw [append_nil]
      exact h.keep hp rfl rfl le_rfl le_rfl (.inl hlt))
    simpa using this
  case case4 before skipped start stop cur rest hf hlt hgt =>
    subst hskip
    exact h.stop_before (.inl hgt)
  case case5 before skipped start stop cur rest hf hlt hgt hty hend ih =>
    subst hskip
    have hk := h.gap
    have hsep := sep_le k cur (target fl start stop)
    have hp := h.posix cur (by simp)
    have hpid : cur.pid = fl.pid := by omega
    have := ih rfl (by
      rw [append_nil]
      exact h.keep hp rfl rfl le_rfl le_rfl
        (.inr ⟨hpid, show cur.stop + sep k cur (target fl start stop) < start by omega⟩))
    simpa using this
  case case6 before skipped start stop cur rest hf hlt hgt hty hend hbeg =>
    subst hskip
    have hk := h.gap
    have hsep := sep_le k (target fl start stop) cur
    exact h.stop_before (.inr ⟨show fl.pid = cur.pid by omega,
      show stop + sep k (target fl start stop) cur < cur.start by omega⟩)
  case case7 before skipped start stop cur rest hf hlt hgt hty hend hbeg ih =>
    subst hskip
    have hp := h.posix cur (by simp)
    have he := h.eof
    have hpid : cur.pid = fl.pid := by omega
    have hpr := hp.range
    have hpe := hp.eof
    refine (ih rfl (h.delete hpid (by omega) (by omega) (.inr ⟨hty, le_rfl⟩))).of_overwritten ?_
    intro p b ty
    have hclear := h.clear b ty
    simp only [Overwritten, held_append, held_cons, Lock.At, target]
    grind
  case case8 before skipped start stop cur rest hf hlt hgt hty hend ih =>
    subst hskip
    have hp := h.posix cur (by simp)
    have hpid : cur.pid = fl.pid := by omega
    have := ih rfl (by
      rw [append_nil]
      exact h.keep hp rfl rfl le_rfl le_rfl (.of_ne hpid hty hend))
    simpa using this
  case case9 before skipped start stop cur rest hf hlt hgt hty hend hbeg =>
    subst hskip
    exact h.stop_before (.of_ne (show fl.pid = cur.pid by omega) (Ne.symm hty) hbeg)
  case case10 before skipped start stop cur rest hf hlt hgt hty hend hbeg hcov ih =>
    subst hskip
    have hp := h.posix cur (by simp)
    have hpid : cur.pid = fl.pid := by omega
    have hpe := hp.eof
    have := ih rfl (by
      rw [append_nil]
      refine h.keep ⟨hp.family, hp.type, ?_, ?_⟩ rfl rfl le_rfl ?_
        (.of_ne hpid hty (show start - 1 < start by omega)) <;> simp only <;> omega)
    refine this.of_overwritten ?_
    intro p b ty
    simp only [Overwritten, held_append, held_cons, held_nil, Lock.At]
    grind
  case case11 before skipped start stop cur rest hf hlt hgt hty hend hbeg hcov hin =>
    subst hskip
    have hp := h.posix cur (by simp)
    have hpid : cur.pid = fl.pid := by omega
    have hpe := hp.eof
    have hr := h.range
    have hs := pairwise_append.mp h.sorted
    have hkeep : LoopPre k fl (before ++ [{ cur with stop := start - 1 }]) rest start stop := by
      refine h.keep ⟨hp.family, hp.type, ?_, ?_⟩ rfl rfl le_rfl ?_
        (.of_ne hpid hty (show start - 1 < start by omega)) <;> simp only <;> omega
    have hins := hkeep.insert ⟨.posix, cur.type, stop + 1, cur.stop, cur.pid, 0⟩
      ⟨rfl, hp.type, by simp only; omega, hpe⟩ ?_ ?_
    · rw [append_nil]
      refine (hins.stop_before (.of_ne hpid.symm (Ne.symm hty) (Nat.lt_succ_self _))
        ).of_overwritten fun p b ty => ?_
      simp only [Overwritten, held_append, held_cons, held_nil, Lock.At]
      grind
    · intro l hl
      rcases mem_append.mp hl with hl | hl
      · exact (hs.2.2 l hl cur mem_cons_self).inside rfl rfl le_rfl rfl rfl
          (show cur.start ≤ stop + 1 by omega)
      rw [mem_singleton.mp hl]
      have hk := hkeep.gap
      have hsep := sep_le k { cur with stop := start - 1 }
        ⟨.posix, cur.type, stop + 1, cur.stop, cur.pid, 0⟩
      exact .inr ⟨rfl, show start - 1 + sep k _ _ < stop + 1 by omega⟩
    · intro l hl
      exact ((pairwise_cons.mp hs.2.1).1 l hl).inside rfl rfl le_rfl rfl rfl le_rfl
  case case12 before skipped start stop cur rest hf hlt hgt hty hend hbeg hcov hin hdel ih =>
    subst hskip
    have hpid : cur.pid = fl.pid := by omega
    refine (ih rfl (h.delete hpid h.range h.eof (.inl le_rfl))).of_overwritten ?_
    intro p b ty
    simp only [Overwritten, held_append, held_cons, Lock.At]
    grind
  case case13 before skipped start stop cur rest hf hlt hgt hty hend hbeg hcov hin hdel =>
    subst hskip
    have hp := h.posix cur (by simp)
    have hpid : cur.pid = fl.pid := by omega
    have hrep := h.replace (show Lock.Posix { cur with start := stop + 1 } from
      ⟨hp.family, hp.type, by simp only; omega, hp.eof⟩) rfl rfl (by simp only; omega) le_rfl
    refine (hrep.stop_before (.of_ne hpid.symm (Ne.symm hty) (Nat.lt_succ_self _))
      ).of_overwritten fun p b ty => ?_
    simp only [Overwritten, held_append, held_cons, Lock.At]
    grind

/-! ## The whole function -/

/-- The effect of a successful `_posix_lock_set` on the list. -/
structure PosixSet (k : Nat) (fl : Lock) (locks locks' : List Lock) : Prop where
  posix : ∀ l ∈ locks', l.Posix
  sorted : locks'.Pairwise (Ordered k)
  held : ∀ p b ty, Held locks' p b ty ↔
    (fl.type ≠ .unlck ∧ (target fl fl.start fl.stop).At p b ty) ∨
      (Held locks p b ty ∧ ¬ (p = fl.pid ∧ fl.start ≤ b ∧ b ≤ fl.stop))

theorem not_held_unlck {locks : List Lock} (h : ∀ l ∈ locks, l.Posix) (p b : Nat) :
    ¬ Held locks p b .unlck := by
  rintro ⟨l, hl, -, ht, -⟩
  exact (h l hl).type ht

section
variable {k : Nat} {fl : Lock} {locks : List Lock}

/-- With the new lock put in its place the locks are those of POSIX. -/
theorem LoopSpec.posixSet {r : Split} (h : LoopSpec k fl locks fl.start fl.stop r)
    (hty : fl.type ≠ .unlck) :
    PosixSet k fl locks (r.before ++ [target fl r.start r.stop] ++ r.after) := by
  have hs := pairwise_append.mp h.sorted
  refine ⟨?_, ?_, fun p b ty => ?_⟩
  · intro l hl
    simp only [append_assoc, cons_append, nil_append, mem_append, mem_cons] at hl
    rcases hl with hl | rfl | hl
    · exact h.posix l (by simp [hl])
    · exact ⟨rfl, hty, h.range, h.eof⟩
    · exact h.posix l (by simp [hl])
  · rw [append_assoc]
    refine pairwise_append.mpr ⟨hs.1, pairwise_cons.mpr ⟨h.after, hs.2.1⟩, ?_⟩
    intro a ha l hl
    rcases mem_cons.mp hl with rfl | hl
    · exact h.before a ha
    · exact hs.2.2 a ha l hl
  · have := h.held p b ty
    simp only [held_append, held_cons, held_nil, Overwritten] at this ⊢
    tauto

/-- Without one they are those of POSIX after an unlock. -/
theorem LoopSpec.posixUnset {r : Split} (h : LoopSpec k fl locks fl.start fl.stop r)
    (hlocks : ∀ l ∈ locks, l.Posix) (hty : fl.type = .unlck) :
    PosixSet k fl locks (r.before ++ r.after) := by
  refine ⟨h.posix, h.sorted, fun p b ty => ?_⟩
  have hheld := h.held p b ty
  by_cases ht : ty = .unlck
  · subst ht
    have h1 := not_held_unlck h.posix p b
    have h2 := not_held_unlck hlocks p b
    tauto
  have h1 : ¬ (target fl r.start r.stop).At p b ty := by
    rintro ⟨-, h1, -⟩
    exact ht (h1.symm.trans hty)
  have h2 : ¬ (target fl fl.start fl.stop).At p b ty := by
    rintro ⟨-, h1, -⟩
    exact ht (h1.symm.trans hty)
  unfold Overwritten at hheld
  tauto

/-- **`_posix_lock_set` overwrites the requested range**, or fails for lack of
memory and changes nothing. -/
theorem posixLockSet_spec (alloc : Nat → Bool) (n : Nat) (hk : k ≤ 1)
    (hlocks : ∀ l ∈ locks, l.Posix) (hsorted : locks.Pairwise (Ordered k))
    (hrange : fl.start ≤ fl.stop) (heof : fl.stop ≤ fsLockEof) :
    ∃ n' ret locks', posixLockSet alloc n locks fl = (n', ret, locks') ∧
      ((ret = some .enomem ∧ locks' = locks) ∨ (ret = none ∧ PosixSet k fl locks locks')) := by
  have hloop : LoopSpec k fl locks fl.start fl.stop
      (posixLockLoop fl [] [] fl.start fl.stop locks) :=
    posixLockLoop_spec fl rfl
      (show LoopPre k fl [] locks _ _ from ⟨hk, hlocks, hrange, heof, hsorted, by simp⟩)
  unfold posixLockSet
  split
  · rename_i hty
    split
    · exact ⟨_, _, _, rfl, .inl ⟨rfl, rfl⟩⟩
    · split
      · exact ⟨_, _, _, rfl, .inl ⟨rfl, rfl⟩⟩
      · exact ⟨_, _, _, rfl, .inr ⟨rfl, hloop.posixSet hty⟩⟩
  · rename_i hty
    split
    · exact ⟨_, _, _, rfl, .inl ⟨rfl, rfl⟩⟩
    · exact ⟨_, _, _, rfl, .inr ⟨rfl, hloop.posixUnset hlocks (not_not.mp hty)⟩⟩

end

theorem posixLockLoop_skip (fl : Lock) {skipped : List Lock} (h : ∀ l ∈ rest, l.family ≠ .posix) :
    posixLockLoop fl before skipped start stop rest = ⟨before, skipped ++ rest, start, stop⟩ := by
  induction rest generalizing skipped with
  | nil => simp [posixLockLoop]
  | cons cur rest ih =>
    rw [posixLockLoop, if_pos (h cur mem_cons_self), ih fun l hl => h l (mem_cons_of_mem _ hl)]
    simp

end FileLock
