import Gramine.FileLockTable

/-!
# Where the held locks come from

The locks in the table are not only those that were asked for: locks are merged, cut
and split. What survives that (`Kept`) and is true of every request is true of every
lock (`Table.Every`), whichever call the leader processes. There are two such things.
Merging, cutting and splitting change the range of a lock and nothing else, so a lock
has the family, the type and the owner of a request on its dentry (`Lock.Like`); and
the ranges stay in every set of ranges that is closed under them (`RangeClosed`).
-/

open List Fallible

namespace FileLock

/-- Who a lock belongs to: a process, or for flock locks a handle. -/
def Lock.owner (l : Lock) : Nat :=
  match l.family with
  | .posix => l.pid
  | .flock => l.handleId

/-- The two locks differ in their ranges at most. -/
structure Lock.Like (a b : Lock) : Prop where
  family : a.family = b.family
  type : a.type = b.type
  owner : a.owner = b.owner

theorem Lock.Like.refl (a : Lock) : a.Like a := ⟨rfl, rfl, rfl⟩

theorem Lock.Like.trans {a b c : Lock} (h : a.Like b) (h' : b.Like c) : a.Like c :=
  ⟨h.family.trans h'.family, h.type.trans h'.type, h.owner.trans h'.owner⟩

theorem Lock.like_range (l : Lock) (start stop : Nat) :
    l.Like { l with start := start, stop := stop } := by
  refine ⟨rfl, rfl, ?_⟩
  cases hf : l.family <;> simp [Lock.owner, hf]

theorem Lock.like_posix {l : Lock} (h : l.family = .posix) (start stop : Nat) :
    l.Like ⟨.posix, l.type, start, stop, l.pid, 0⟩ :=
  ⟨h, rfl, by simp [Lock.owner, h]⟩

theorem Lock.like_flock {l : Lock} (h : l.family = .flock) :
    l.Like ⟨.flock, l.type, 0, 0, 0, l.handleId⟩ :=
  ⟨h, rfl, by simp [Lock.owner, h]⟩

/-- What is true of the locks, `P`, and of the range that is being set, `Q`, stays true of
what `_posix_lock_set` and `_flock_lock_set` make of them. -/
structure Kept (P : Lock → Prop) (Q : Nat → Nat → Prop) : Prop where
  range : ∀ ⦃l : Lock⦄, P l → Q l.start l.stop
  merge : ∀ ⦃l : Lock⦄ ⦃s e : Nat⦄, P l → Q s e → Q (min s l.start) (max e l.stop)
  left : ∀ ⦃l : Lock⦄ ⦃s e : Nat⦄, P l → Q s e → l.start < s → P { l with stop := s - 1 }
  right : ∀ ⦃l : Lock⦄ ⦃s e : Nat⦄, P l → Q s e → e < l.stop → P { l with start := e + 1 }
  posix : ∀ ⦃l : Lock⦄ ⦃s e : Nat⦄, P l → Q s e → l.family = .posix →
    P ⟨.posix, l.type, s, e, l.pid, 0⟩
  flock : ∀ ⦃l : Lock⦄, P l → l.family = .flock → P ⟨.flock, l.type, 0, 0, 0, l.handleId⟩

/-- What depends only on owner, family and type is kept by every cut. -/
theorem Kept.of_like {P : Lock → Prop} (hP : ∀ ⦃a b : Lock⦄, a.Like b → P a → P b) :
    Kept P fun _ _ => True where
  range := fun _ _ => trivial
  merge := fun _ _ _ _ _ => trivial
  left := fun l _ _ h _ _ => hP (l.like_range l.start _) h
  right := fun l _ _ h _ _ => hP (l.like_range _ l.stop) h
  posix := fun _ _ _ h _ hf => hP (Lock.like_posix hf _ _) h
  flock := fun _ h hf => hP (Lock.like_flock hf) h

/-- The set of ranges is closed under what `_posix_lock_set` makes of two ranges, and
contains the one that stands in the flock locks. -/
structure RangeClosed (P : Nat → Nat → Prop) : Prop where
  merge : ∀ ⦃s e s' e' : Nat⦄, P s e → P s' e' → P (min s s') (max e e')
  left : ∀ ⦃s e s' e' : Nat⦄, P s e → P s' e' → s < s' → P s (s' - 1)
  right : ∀ ⦃s e s' e' : Nat⦄, P s e → P s' e' → e' < e → P (e' + 1) e
  flock : P 0 0

/-- The lock's range belongs to the set. -/
def Lock.In (P : Nat → Nat → Prop) (l : Lock) : Prop := P l.start l.stop

theorem RangeClosed.kept {P : Nat → Nat → Prop} (hP : RangeClosed P) : Kept (Lock.In P) P where
  range := fun _ h => h
  merge := fun _ _ _ h hr => hP.merge hr h
  left := fun _ _ _ h hr hlt => hP.left h hr hlt
  right := fun _ _ _ h hr hlt => hP.right h hr hlt
  posix := fun _ _ _ _ hr _ => hr
  flock := fun _ _ _ => hP.flock

section Locks
variable {P : Lock → Prop} {Q : Nat → Nat → Prop} (hP : Kept P Q)
include hP

/-- The loop only cuts and drops locks, so what it leaves comes from the locks before. -/
theorem posixLockLoop_every (fl : Lock) (before skipped : List Lock) (start stop : Nat)
    (rest : List Lock) (hbefore : ∀ l ∈ before, P l) (hskipped : ∀ l ∈ skipped, P l)
    (hrest : ∀ l ∈ rest, P l) (hrange : Q start stop) :
    (∀ l ∈ (posixLockLoop fl before skipped start stop rest).before, P l) ∧
    (∀ l ∈ (posixLockLoop fl before skipped start stop rest).after, P l) ∧
    Q (posixLockLoop fl before skipped start stop rest).start
      (posixLockLoop fl before skipped start stop rest).stop := by
  -- a lock becomes `prev`, possibly trimmed, or it stays behind `prev`
  have hpass : ∀ {before skipped : List Lock} {k : Lock}, (∀ l ∈ before, P l) →
      (∀ l ∈ skipped, P l) → P k → ∀ l ∈ before ++ skipped ++ [k], P l := by
    intro before skipped k hbefore hskipped hk l hl
    simp only [mem_append, mem_singleton] at hl
    rcases hl with (hl | hl) | rfl
    · exact hbefore l hl
    · exact hskipped l hl
    · exact hk
  have hstay : ∀ {skipped rest : List Lock} {k : Lock}, (∀ l ∈ skipped, P l) → P k →
      (∀ l ∈ rest, P l) → ∀ l ∈ skipped ++ k :: rest, P l := by
    intro skipped rest k hskipped hk hrest
    exact forall_mem_append.2 ⟨hskipped, forall_mem_cons.2 ⟨hk, hrest⟩⟩
  have hnone : ∀ l ∈ ([] : List Lock), P l := by simp
  fun_induction posixLockLoop fl before skipped start stop rest
  case case1 => exact ⟨hbefore, hskipped, hrange⟩
  all_goals obtain ⟨hcur, htail⟩ := forall_mem_cons.1 hrest
  case case2 ih => exact ih hbefore (hstay hskipped hcur hnone) htail hrange
  case case3 ih | case5 ih | case8 ih =>
    exact ih (hpass hbefore hskipped hcur) hnone htail hrange
  case case4 | case6 | case9 => exact ⟨hbefore, hstay hskipped hcur htail, hrange⟩
  case case7 ih => exact ih hbefore hskipped htail (hP.merge hcur hrange)
  case case10 hcov ih =>
    exact ih (hpass hbefore hskipped (hP.left hcur hrange hcov.1)) hnone htail hrange
  case case11 hf _ _ _ _ _ _ hin =>
    have hright := hP.posix hcur (hP.range (hP.right hcur hrange hin.2)) (not_not.mp hf)
    exact ⟨hpass hbefore hskipped (hP.left hcur hrange hin.1),
      forall_mem_cons.2 ⟨hright, htail⟩, hrange⟩
  case case12 ih => exact ih hbefore hskipped htail hrange
  case case13 before skipped start stop cur rest _ _ _ _ hend hbeg hcov hin hdel =>
    have hlt : stop < cur.stop := by omega
    exact ⟨hbefore, hstay hskipped (hP.right hcur hrange hlt) htail, hrange⟩

variable {locks : List Lock}

section
variable (alloc : Nat → Bool) (hlocks : ∀ l ∈ locks, P l)
include alloc hlocks

/-- Setting a lock adds no lock but the one asked for. -/
theorem lockSet_every (n : Nat) {fl : Lock} (hrange : Q fl.start fl.stop)
    (hfl : fl.type ≠ .unlck → P fl) : ∀ l ∈ (lockSet alloc n locks fl).2.2, P l := by
  unfold lockSet
  cases hf : fl.family with
  | posix =>
    obtain ⟨hbefore, hafter, hrange⟩ := posixLockLoop_every hP fl [] [] fl.start fl.stop locks
      (by simp) (by simp) hlocks hrange
    simp only [posixLockSet]
    split
    · rename_i hty
      split
      · exact hlocks
      split
      · exact hlocks
      intro l hl
      simp only [mem_append, mem_singleton] at hl
      rcases hl with (hl | rfl) | hl
      · exact hbefore l hl
      · exact hP.posix (hfl hty) hrange hf
      · exact hafter l hl
    · split
      · exact hlocks
      · intro l hl
        exact (mem_append.mp hl).elim (hbefore l) (hafter l)
  | flock =>
    simp only [flockLockSet]
    split
    · exact hlocks
    split
    · rename_i hty
      intro l hl
      rcases mem_cons.mp hl with rfl | hl
      · exact hP.flock (hfl hty) hf
      · exact hlocks l (mem_of_mem_eraseP hl)
    · intro l hl
      exact hlocks l (mem_of_mem_eraseP hl)

/-- A pass over the requests adds only locks that were requested. -/
theorem processPass_every {n : Nat} {reqs : List Request} {p : Pass}
    (hreqs : ∀ r ∈ reqs, P r.fileLock) (hp : processPass alloc n locks reqs = .ok p) :
    (∀ l ∈ p.locks, P l) ∧ ∀ r ∈ p.requests, P r.fileLock := by
  induction reqs generalizing n locks p with
  | nil =>
    cases hp
    exact ⟨hlocks, by simp⟩
  | cons req rest ih =>
    have hreq := hreqs req mem_cons_self
    have hrest : ∀ r ∈ rest, P r.fileLock := fun r hr => hreqs r (mem_cons_of_mem _ hr)
    rw [processPass] at hp
    split at hp
    · obtain ⟨q, hq, hp⟩ := bind_eq_ok.1 hp
      cases hp
      obtain ⟨h1, h2⟩ := ih hlocks hrest hq
      exact ⟨h1, forall_mem_cons.2 ⟨hreq, h2⟩⟩
    have hset := lockSet_every hP alloc hlocks n (hP.range hreq) (fun _ => hreq)
    dsimp only at hp hset
    split at hp
    · cases hp
    obtain ⟨q, hq, hp⟩ := bind_eq_ok.1 hp
    obtain ⟨h1, h2⟩ := ih hset hrest hq
    cases hp
    exact ⟨h1, h2⟩

theorem processLoop_every (fuel : Nat) {n : Nat} {reqs : List Request} {p : Pass}
    (hreqs : ∀ r ∈ reqs, P r.fileLock) (hp : processLoop alloc fuel n locks reqs = .ok p) :
    (∀ l ∈ p.locks, P l) ∧ ∀ r ∈ p.requests, P r.fileLock := by
  induction fuel generalizing n locks reqs p with
  | zero => exact processPass_every hP alloc hlocks hreqs hp
  | succ fuel ih =>
    obtain ⟨q, hq, hp⟩ := bind_eq_ok.1 hp
    obtain ⟨h1, h2⟩ := processPass_every hP alloc hlocks hreqs hq
    split at hp
    · obtain ⟨q', hq', hp⟩ := bind_eq_ok.1 hp
      obtain ⟨h3, h4⟩ := ih h1 h2 hq'
      cases hp
      exact ⟨h3, h4⟩
    · cases hp
      exact ⟨h1, h2⟩

end

end Locks

namespace Table
variable {Dent : Type} [DecidableEq Dent]

/-- Every lock and every request on a dentry satisfies `P`. -/
def Every (P : Dent → Lock → Prop) (t : Table Dent) : Prop :=
  ∀ dent d, t.fileLocks dent = some d →
    (∀ l ∈ d.fileLocks, P dent l) ∧ ∀ r ∈ d.fileLockRequests, P dent r.fileLock

variable {P : Dent → Lock → Prop} {t t' : Table Dent} {dent : Dent} {d : DentFileLocks}

omit [DecidableEq Dent] in
theorem Every.mono {Q : Dent → Lock → Prop} (h : t.Every P) (hPQ : ∀ dent l, P dent l → Q dent l) :
    t.Every Q := fun dent d hd =>
  ⟨fun l hl => hPQ dent l ((h dent d hd).1 l hl), fun r hr => hPQ _ _ ((h dent d hd).2 r hr)⟩

/-- One dentry's locks and requests are replaced. -/
theorem Every.put (h : t.Every P) (hlocks : ∀ l ∈ d.fileLocks, P dent l)
    (hreqs : ∀ r ∈ d.fileLockRequests, P dent r.fileLock) : (t.put dent d).Every P := by
  intro x dx hx
  by_cases hxd : x = dent
  · subst hxd
    obtain rfl : d = dx := by simpa [Table.put] using hx
    exact ⟨hlocks, hreqs⟩
  · exact h x dx (by simpa [Table.put, hxd] using hx)

theorem Every.gc (h : t.Every P) (dent : Dent) : (t.dentFileLocksGc dent).Every P := by
  unfold dentFileLocksGc
  split
  · split
    · intro x dx hx
      by_cases hxd : x = dent
      · simp [hxd] at hx
      · exact h x dx (by simpa [hxd] using hx)
    · exact h
  · exact h

theorem Every.fileLockGet (h : t.Every P) (dent : Dent) (fl : Lock) :
    (fileLockGet t dent fl).1.Every P := by
  unfold Table.fileLockGet
  split
  · exact h.gc dent
  · exact h

section Alloc
variable {alloc : Nat → Bool} {fl : Lock} {Q : Nat → Nat → Prop} (hP : ∀ dent, Kept (P dent) Q)
include hP

omit [DecidableEq Dent] in
/-- A dentry's locks come from its locks and requests. -/
theorem fileLockProcessRequests_every {n n' : Nat} {d' : DentFileLocks} {answers : List Answer}
    (hlocks : ∀ l ∈ d.fileLocks, P dent l) (hreqs : ∀ r ∈ d.fileLockRequests, P dent r.fileLock)
    (hp : fileLockProcessRequests alloc n d = .ok (n', d', answers)) :
    (∀ l ∈ d'.fileLocks, P dent l) ∧ ∀ r ∈ d'.fileLockRequests, P dent r.fileLock := by
  obtain ⟨p, hloop, hp⟩ := bind_eq_ok.1 hp
  cases hp
  exact processLoop_every (hP dent) alloc hlocks _ hreqs hloop

variable {wait : Bool}

variable (h : t.Every P)

include h

section
variable {added : Bool} {ret : Ret} (hrange : Q fl.start fl.stop)
  (hfl : fl.type ≠ .unlck → P dent fl)
include hrange hfl

/-- A request that is set or added brings in its own lock only. -/
theorem Every.setOrAdd (hd : t.fileLocks dent = some d)
    (hs : setOrAdd alloc t dent d fl wait = .ok (t', ret, added)) : t'.Every P := by
  obtain ⟨hlocks, hreqs⟩ := h dent d hd
  -- `use` only sets a flag
  have huse : ∀ d' : DentFileLocks, (∀ l ∈ d'.fileLocks, P dent l) →
      (∀ r ∈ d'.fileLockRequests, P dent r.fileLock) →
      (t.put dent (DentFileLocks.use d' fl)).Every P := by
    intro d' hl hr
    refine h.put ?_ ?_
    · rwa [(use_fileLocks d' fl).1]
    · rwa [(use_fileLocks d' fl).2]
  unfold Table.setOrAdd at hs
  split at hs
  · cases hs
    exact h
  split at hs
  · rename_i hconf
    split at hs
    · cases hs
      exact h
    split at hs
    · cases hs
      exact h
    · cases hs
      exact huse _ hlocks (forall_mem_cons.2 ⟨hfl hconf.1, hreqs⟩)
  · have hset := lockSet_every (hP dent) alloc hlocks t.mallocs hrange hfl
    split at hs
    · cases hs
      exact h
    rename_i n locks heq
    rw [heq] at hset
    obtain ⟨⟨n', d', answers⟩, hp, hs⟩ := bind_eq_ok.1 hs
    cases hs
    obtain ⟨h1, h2⟩ := fileLockProcessRequests_every hP
      (d := { d with fileLocks := locks }) hset hreqs hp
    exact huse d' h1 h2

theorem Every.fileLockSetOrAddRequest
    (hs : fileLockSetOrAddRequest alloc t dent fl wait = .ok (t', ret, added)) : t'.Every P := by
  unfold Table.fileLockSetOrAddRequest findDentFileLocks at hs
  cases hd : t.fileLocks dent with
  | some d =>
    simp only [hd] at hs
    obtain ⟨⟨t1, ret1, added1⟩, hset, hs⟩ := bind_eq_ok.1 hs
    cases hs
    exact (h.setOrAdd hP hrange hfl hd hset).gc dent
  | none =>
    simp only [hd] at hs
    by_cases hty : fl.type = .unlck
    · simp only [hty] at hs
      cases hs
      exact h
    simp only [hty, ne_eq] at hs
    cases ha : alloc t.mallocs with
    | false =>
      simp only [ha] at hs
      cases hs
      exact h
    | true =>
      simp only [ha] at hs
      obtain ⟨⟨t1, ret1, added1⟩, hset, hs⟩ := bind_eq_ok.1 hs
      cases hs
      have hobj : (t.withObject dent).Every P := h.put (by simp) (by simp)
      exact (hobj.setOrAdd hP hrange hfl withObject_stored hset).gc dent

end

omit hP in
theorem Every.setNotify (dent : Dent) (notify : Notify) : (t.setNotify dent notify).Every P := by
  unfold Table.setNotify
  split
  · rename_i posixUsed flockUsed locks req reqs hd
    obtain ⟨hlocks, hreqs⟩ := h dent _ hd
    exact h.put hlocks (forall_mem_cons.2 (forall_mem_cons.1 hreqs))
  · exact h

theorem Every.fileLockSet {event : Option Nat} {o : Outcome}
    (hrange : Q fl.start fl.stop) (hfl : fl.type ≠ .unlck → P dent fl)
    (hs : fileLockSet alloc t dent fl wait event = .ok (t', o)) : t'.Every P := by
  obtain ⟨⟨t1, ret, added⟩, hset, hs⟩ := bind_eq_ok.1 hs
  have h₁ := h.fileLockSetOrAddRequest hP hrange hfl hset
  dsimp only at hs
  split at hs
  · cases hs
    exact h₁
  split at hs
  · split at hs
    · cases hs
      exact h₁
    · cases hs
      exact h₁.setNotify dent _
  · cases hs
    exact h₁

theorem Every.fileLockSetFromIpc {found : Option Dent} {vmid seq : Nat}
    (hrange : Q fl.start fl.stop) (hfl : ∀ dent, found = some dent → fl.type ≠ .unlck → P dent fl)
    (hs : fileLockSetFromIpc alloc t found fl wait vmid seq = .ok t') : t'.Every P := by
  cases found with
  | none =>
    cases hs
    exact h
  | some dent =>
    obtain ⟨⟨t1, ret, added⟩, hset, hs⟩ := bind_eq_ok.1 hs
    have h₁ := h.fileLockSetOrAddRequest hP hrange (hfl dent rfl) hset
    dsimp only at hs
    split at hs
    · cases hs
      exact h₁.setNotify dent _
    · cases hs
      exact h₁

/-- Clearing the locks of a process adds none. -/
theorem Every.fileLockClearPidFromDentry {pid : Nat}
    (hs : fileLockClearPidFromDentry alloc t dent pid = .ok t') : t'.Every P := by
  unfold Table.fileLockClearPidFromDentry at hs
  split at hs
  · cases hs
    exact h
  rename_i d hd
  obtain ⟨hlocks, hreqs⟩ := h dent d hd
  have hlocks' : ∀ l ∈ d.fileLocks.filter (fun l => ! ofPid pid l), P dent l :=
    fun l hl => hlocks l (mem_filter.1 hl).1
  have hreqs' : ∀ r ∈ d.fileLockRequests.filter (fun r => ! ofPid pid r.fileLock),
      P dent r.fileLock := fun r hr => hreqs r (mem_filter.1 hr).1
  split at hs
  · cases hs
  split at hs
  · obtain ⟨⟨n, d', answers⟩, hp, hs⟩ := bind_eq_ok.1 hs
    obtain ⟨h1, h2⟩ := fileLockProcessRequests_every hP hlocks' hreqs' hp
    cases hs
    refine Every.gc ?_ dent
    exact h.put h1 h2
  · cases hs
    exact h.put hlocks' hreqs'

theorem Every.clearPidLoop {pid : Nat} {dents : List Dent}
    (hs : clearPidLoop alloc pid dents t = .ok t') : t'.Every P := by
  induction dents generalizing t with
  | nil =>
    cases hs
    exact h
  | cons dent rest ih =>
    obtain ⟨t1, h₁, hs⟩ := bind_eq_ok.1 hs
    exact ih (h.fileLockClearPidFromDentry hP h₁) hs

omit h

/-- The lock a call asks for. -/
def Call.lock? : Call Dent → Option Lock
  | .set _ fl _ _ => some fl
  | .setFromIpc _ fl _ _ _ => some fl
  | _ => none

/-- The lock a call asks for, and the dentry it is for. -/
def Call.Asks (dent : Dent) (fl : Lock) : Call Dent → Prop
  | .set x k _ _ => x = dent ∧ k = fl
  | .setFromIpc x k _ _ _ => x = some dent ∧ k = fl
  | _ => False

/-- **Every lock comes from a request**: what is kept, and is true of the locks in the
table and of the one a call asks for, is true of the locks after the call. -/
theorem Every.exec {c : Call Dent} (h : t.Every P) (hrange : ∀ fl ∈ c.lock?, Q fl.start fl.stop)
    (hc : ∀ dent fl, Call.Asks dent fl c → fl.type ≠ .unlck → P dent fl)
    (he : Table.exec alloc t c = .ok t') : t'.Every P := by
  cases c with
  | set dent fl wait event =>
    rw [Table.exec] at he
    cases hset : Table.fileLockSet alloc t dent fl wait event with
    | error f =>
      rw [hset] at he
      cases he
    | ok res =>
      rw [hset] at he
      cases he
      exact h.fileLockSet hP (hrange fl rfl) (hc dent fl ⟨rfl, rfl⟩) hset
  | setFromIpc found fl wait vmid seq =>
    exact h.fileLockSetFromIpc hP (hrange fl rfl) (fun dent hto => hc dent fl ⟨hto, rfl⟩) he
  | get dent fl =>
    cases he
    exact h.fileLockGet dent fl
  | clearPid pid => exact h.clearPidLoop hP he

end Alloc

/-! ## Ranges -/

/-- The ranges of all locks and requests of the table belong to the set. -/
def AllIn (R : Nat → Nat → Prop) (t : Table Dent) : Prop := t.Every fun _ l => l.In R

variable {R : Nat → Nat → Prop}

/-- **One call** whose range belongs to the set keeps the table in it. -/
theorem AllIn.step (hR : RangeClosed R) {alloc : Nat → Bool} {c : Call Dent} (h : t.AllIn R)
    (hc : ∀ fl ∈ c.lock?, fl.In R) (he : Table.exec alloc t c = .ok t') :
    t'.AllIn R := by
  refine Every.exec (fun _ => hR.kept) h hc ?_ he
  intro dent fl hasks _
  cases c with
  | set | setFromIpc => exact hc fl (by rw [← hasks.2]; rfl)
  | get | clearPid => exact hasks.elim

omit [DecidableEq Dent] in
theorem allIn_initial : (initial : Table Dent).AllIn R := nofun

omit [DecidableEq Dent] in
theorem AllIn.held (h : t.AllIn R) {l : Lock} (hl : l ∈ t.held dent) : l.In R := by
  unfold Table.held at hl
  split at hl
  · rename_i d hd
    exact (h dent d hd).1 l hl
  · cases hl

/-! ## Processes that have ended -/

/-- What belongs to the process is on the given dentries. -/
def OnlyOn (pid : Nat) (dents : List Dent) : Table Dent → Prop :=
  Every fun dent l => dent ∈ dents ∨ ofPid pid l = false

variable {alloc : Nat → Bool} {pid : Nat}

/-- A dentry that was cleared holds no lock of the process any more, -/
theorem OnlyOn.fileLockClearPidFromDentry {rest : List Dent} (h : t.OnlyOn pid (dent :: rest))
    (hs : fileLockClearPidFromDentry alloc t dent pid = .ok t') : t'.OnlyOn pid rest := by
  have hput : ∀ d : DentFileLocks, (∀ l ∈ d.fileLocks, ofPid pid l = false) →
      (∀ r ∈ d.fileLockRequests, ofPid pid r.fileLock = false) →
      (t.put dent d).OnlyOn pid rest := by
    intro d hlocks hreqs x dx hx
    by_cases hxd : x = dent
    · subst hxd
      obtain rfl : d = dx := by simpa [Table.put] using hx
      exact ⟨fun l hl => .inr (hlocks l hl), fun r hr => .inr (hreqs r hr)⟩
    · simpa [hxd] using h x dx (by simpa [Table.put, hxd] using hx)
  -- locks that are granted now belong to other processes
  have hkept : ∀ _ : Dent, Kept (fun l => ofPid pid l = false) fun _ _ => True := by
    refine fun _ => .of_like fun a b hab ha => ?_
    have hfam := hab.family
    have howner := hab.owner
    cases hb : b.family <;> simp_all [ofPid, Lock.owner]
  unfold Table.fileLockClearPidFromDentry at hs
  split at hs
  · next hd =>
    cases hs
    intro x dx hx
    have hxd : x ≠ dent := by
      rintro rfl
      simp [hd] at hx
    simpa [hxd] using h x dx hx
  split at hs
  · cases hs
  split at hs
  · obtain ⟨⟨n, d', answers⟩, hp, hs⟩ := bind_eq_ok.1 hs
    obtain ⟨h1, h2⟩ := @fileLockProcessRequests_every _ _ dent _ _ _ hkept _ _ _ _ (by simp)
      (by simp) hp
    cases hs
    refine Every.gc ?_ dent
    exact hput d' h1 h2
  · cases hs
    exact hput _ (by simp) (by simp)

/-- and after the loop none does. -/
theorem OnlyOn.clearPidLoop {dents : List Dent} (h : t.OnlyOn pid dents)
    (hs : clearPidLoop alloc pid dents t = .ok t') : t'.OnlyOn pid [] := by
  induction dents generalizing t with
  | nil =>
    cases hs
    exact h
  | cons dent rest ih =>
    obtain ⟨t1, h1, hs⟩ := bind_eq_ok.1 hs
    exact ih (h.fileLockClearPidFromDentry h1) hs

/-- **A process that has ended holds no POSIX lock and waits for none**, on any dentry, after
`file_lock_clear_pid`. -/
theorem clearPid_complete (hr : Reachable alloc t) (hs : fileLockClearPid alloc t pid = .ok t')
    (dent : Dent) : (∀ l ∈ t'.held dent, ofPid pid l = false) ∧
      ∀ r ∈ t'.waiting dent, ofPid pid r.fileLock = false := by
  have hlist : t.OnlyOn pid t.list := by
    intro x d hd
    have hx : x ∈ t.list := (hr.ok.mem x).2 (by simp [hd])
    exact ⟨fun _ _ => .inl hx, fun _ _ => .inl hx⟩
  have h := OnlyOn.clearPidLoop hlist hs dent
  unfold held waiting
  cases hd : t'.fileLocks dent with
  | none => simp
  | some d => simpa using h d hd

/-- The lock of the process goes to the one that waits for it. -/
theorem clearPid_complete_granted : ∃ t' : Table Unit, (t'.held ()).length = 1 ∧
    ∀ l ∈ t'.held (), ofPid 1 l = false := by
  have hrun : ((initial.run (fun _ => true)
      [.setFromIpc (some ()) ⟨.posix, .wrlck, 0, 9, 1, 0⟩ false 1 1,
        .setFromIpc (some ()) ⟨.posix, .rdlck, 5, fsLockEof, 2, 0⟩ true 2 1]).bind fun t =>
        (fileLockClearPid (fun _ => true) t 1).toOption.map fun t' : Table Unit =>
          (t'.held ()).length) = some 1 := by decide
  obtain ⟨t, ht, hs⟩ := Option.bind_eq_some_iff.1 hrun
  obtain ⟨t', hs, hlen⟩ := Option.map_eq_some_iff.1 hs
  exact ⟨t', hlen, (clearPid_complete (Reachable.run (.init rfl) ht) (toOption_eq_some.1 hs) ()).1⟩

end Table

end FileLock
