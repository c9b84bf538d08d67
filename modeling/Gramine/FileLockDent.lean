import Gramine.FileLockRange
import Gramine.Fallible

/-!
# The locks of one dentry

What the leader keeps true of the locks and requests of a dentry, and that
setting a lock, removing one, and processing the requests keep it. The
invariant names the one family a dentry is used with (`DentOk`).

`processLoop_spec` is the fixpoint: when the passes end, every request left
conflicts with a held lock, and every request gone was answered.
-/

open List

namespace FileLock

/-- The other family. -/
def Family.other : Family → Family
  | .posix => .flock
  | .flock => .posix

/-- What is true of the locks held on a dentry that is used with one family. -/
structure LocksOk (fam : Family) (locks : List Lock) : Prop where
  family : ∀ l ∈ locks, l.family = fam
  type : ∀ l ∈ locks, l.type ≠ .unlck
  posix : fam = .posix → (∀ l ∈ locks, l.Posix) ∧ locks.Pairwise (Ordered 1)
  flock : fam = .flock → locks.Pairwise (fun a b => a.handleId ≠ b.handleId)
  noConflict : ∀ a ∈ locks, ∀ b ∈ locks, ¬ Conflict a b

theorem LocksOk.nil (fam : Family) : LocksOk fam [] := by
  constructor <;> simp

/-- The arguments a caller may pass: a range of bytes, possibly up to the end. -/
structure Lock.Valid (fl : Lock) : Prop where
  range : fl.start ≤ fl.stop
  eof : fl.stop ≤ fsLockEof

variable {locks : List Lock} {fl : Lock}

theorem findConflict_eq_none :
    fileLockFindConflict locks fl = none ↔ ∀ cur ∈ locks, ¬ Conflict fl cur := by
  simp [fileLockFindConflict]

theorem findConflict_isSome :
    (fileLockFindConflict locks fl).isSome = true ↔ ∃ cur ∈ locks, Conflict fl cur := by
  simp [fileLockFindConflict]

/-! ## Setting a lock -/

theorem conflict_at {a b : Lock} {x : Nat} (hf : a.family = .posix) (hp : b.pid ≠ a.pid)
    (ha : a.start ≤ x ∧ x ≤ a.stop) (hb : b.start ≤ x ∧ x ≤ b.stop)
    (hw : b.type = .wrlck ∨ a.type = .wrlck) : Conflict a b := by
  simp only [Conflict, hf]
  exact ⟨hp, by omega, by omega, hw⟩

/-- No two locks conflict after a successful `_posix_lock_set`. -/
theorem PosixSet.noConflict {locks' : List Lock} (h : PosixSet 1 fl locks locks')
    (hfl : fl.family = .posix) (hf : ∀ l ∈ locks, l.family = .posix)
    (hno : ∀ a ∈ locks, ∀ b ∈ locks, ¬ Conflict a b)
    (hfree : fl.type ≠ .unlck → ∀ cur ∈ locks, ¬ Conflict fl cur) :
    ∀ a ∈ locks', ∀ b ∈ locks', ¬ Conflict a b := by
  intro a ha b hb hc
  have hpa := h.posix a ha
  have hpb := h.posix b hb
  have hra := hpa.range
  have hrb := hpb.range
  simp only [Conflict, hpa.family] at hc
  obtain ⟨hpid, h1, h2, hw⟩ := hc
  -- the first byte both cover
  have hx : ∃ x, (a.start ≤ x ∧ x ≤ a.stop) ∧ (b.start ≤ x ∧ x ≤ b.stop) :=
    ⟨max a.start b.start, by omega, by omega⟩
  obtain ⟨x, hxa, hxb⟩ := hx
  have hheld : ∀ l ∈ locks', (l.start ≤ x ∧ x ≤ l.stop) →
      (fl.type ≠ .unlck ∧ l.pid = fl.pid ∧ l.type = fl.type ∧ fl.start ≤ x ∧ x ≤ fl.stop) ∨
      ∃ o ∈ locks, o.pid = l.pid ∧ o.type = l.type ∧ o.start ≤ x ∧ x ≤ o.stop := by
    intro l hl hlx
    rcases (h.held l.pid x l.type).mp ⟨l, hl, rfl, rfl, hlx.1, hlx.2⟩ with ⟨ht, h⟩ | ⟨h, -⟩
    · exact .inl ⟨ht, h.1.symm, h.2.1.symm, h.2.2⟩
    · exact .inr h
  rcases hheld a ha hxa with ⟨hta, hpa', hty, hr⟩ | ⟨a', ha', hpa', hty, hr⟩
  · rcases hheld b hb hxb with ⟨-, hpb', -, -⟩ | ⟨b', hb', hpb', htyb, hrb'⟩
    · exact hpid (hpb'.trans hpa'.symm)
    · refine hfree hta b' hb' (conflict_at hfl ?_ hr hrb' ?_)
      · rwa [hpb', ← hpa']
      · rwa [htyb, ← hty]
  · rcases hheld b hb hxb with ⟨htb, hpb', htyb, hrb'⟩ | ⟨b', hb', hpb', htyb, hrb'⟩
    · refine hfree htb a' ha' (conflict_at hfl ?_ hrb' hr ?_)
      · rw [hpa', ← hpb']
        exact Ne.symm hpid
      · rw [hty, ← htyb]
        exact hw.symm
    · refine hno a' ha' b' hb' (conflict_at (hf a' ha') ?_ hr hrb' ?_)
      · rwa [hpa', hpb']
      · rwa [hty, htyb]

/-- The locks after a successful `_flock_lock_set`. -/
def flockSet (fl : Lock) (locks : List Lock) : List Lock :=
  (if fl.type ≠ .unlck then [⟨.flock, fl.type, 0, 0, 0, fl.handleId⟩] else []) ++
    locks.eraseP (fun cur => cur.family = .flock ∧ cur.handleId = fl.handleId)

theorem flockLockSet_eq (alloc : Nat → Bool) (n : Nat) (locks : List Lock) (fl : Lock) :
    ∃ n' ret locks', flockLockSet alloc n locks fl = (n', ret, locks') ∧
      ((ret = some .enomem ∧ locks' = locks) ∨ (ret = none ∧ locks' = flockSet fl locks)) := by
  unfold flockLockSet flockSet
  split
  · exact ⟨_, _, _, rfl, .inl ⟨rfl, rfl⟩⟩
  by_cases ht : fl.type = .unlck
  · simp only [ht]
    exact ⟨_, _, _, rfl, .inr ⟨rfl, rfl⟩⟩
  · simp only [ne_eq, ht]
    exact ⟨_, _, _, rfl, .inr ⟨rfl, rfl⟩⟩

theorem handleId_ne_of_mem_eraseP {id : Nat} (hf : ∀ l ∈ locks, l.family = .flock)
    (hd : locks.Pairwise (fun a b => a.handleId ≠ b.handleId)) {l : Lock}
    (hl : l ∈ locks.eraseP (fun cur => cur.family = .flock ∧ cur.handleId = id)) :
    l.handleId ≠ id := by
  induction locks with
  | nil => simp at hl
  | cons k locks ih =>
    rw [pairwise_cons] at hd
    have hk := hf k mem_cons_self
    by_cases he : k.handleId = id
    · simp only [eraseP_cons, hk, he] at hl
      exact he ▸ Ne.symm (hd.1 l hl)
    simp only [eraseP_cons, he, and_false] at hl
    rcases mem_cons.mp hl with rfl | hl
    · exact he
    · exact ih (fun l hl => hf l (mem_cons_of_mem _ hl)) hd.2 hl

theorem LocksOk.flockSet (h : LocksOk .flock locks) (hfl : fl.family = .flock)
    (hfree : fl.type ≠ .unlck → ∀ cur ∈ locks, ¬ Conflict fl cur) :
    LocksOk .flock (flockSet fl locks) := by
  have hsub : ∀ l ∈ locks.eraseP (fun cur => cur.family = .flock ∧ cur.handleId = fl.handleId),
      l ∈ locks := fun l hl => mem_of_mem_eraseP hl
  have hpair := (h.flock rfl).sublist (eraseP_sublist
    (p := fun cur => cur.family = .flock ∧ cur.handleId = fl.handleId))
  have hne : ∀ l ∈ locks.eraseP (fun cur => cur.family = .flock ∧ cur.handleId = fl.handleId),
      l.handleId ≠ fl.handleId := fun l hl => handleId_ne_of_mem_eraseP h.family (h.flock rfl) hl
  unfold FileLock.flockSet
  by_cases ht : fl.type = .unlck
  · simp only [ht]
    exact ⟨fun l hl => h.family l (hsub l hl), fun l hl => h.type l (hsub l hl), by simp,
      fun _ => hpair, fun a ha b hb => h.noConflict a (hsub a ha) b (hsub b hb)⟩
  simp only [ne_eq, ht]
  have hfree := hfree ht
  refine ⟨?_, ?_, by simp, fun _ => ?_, ?_⟩
  · intro l hl
    rcases mem_cons.mp hl with rfl | hl
    · rfl
    · exact h.family l (hsub l hl)
  · intro l hl
    rcases mem_cons.mp hl with rfl | hl
    · exact ht
    · exact h.type l (hsub l hl)
  · exact pairwise_cons.mpr ⟨fun l hl => Ne.symm (hne l hl), hpair⟩
  intro a ha b hb hc
  rcases mem_cons.mp ha with rfl | ha <;> rcases mem_cons.mp hb with rfl | hb
  · exact absurd rfl hc.1
  · refine hfree b (hsub b hb) ?_
    simp only [Conflict, hfl] at hc ⊢
    exact hc
  · refine hfree a (hsub a ha) ?_
    simp only [Conflict, hfl, h.family a (hsub a ha)] at hc ⊢
    exact ⟨Ne.symm hc.1, hc.2.symm⟩
  · exact h.noConflict a (hsub a ha) b (hsub b hb) hc

variable {fam : Family}

/-- **Setting or removing a lock of the dentry's family keeps the locks in order**,
or fails for lack of memory and changes nothing. -/
theorem lockSet_spec (alloc : Nat → Bool) (n : Nat) (h : LocksOk fam locks) (hfl : fl.family = fam)
    (hv : fl.Valid) (hfree : fl.type ≠ .unlck → ∀ cur ∈ locks, ¬ Conflict fl cur) :
    ∃ n' ret locks', lockSet alloc n locks fl = (n', ret, locks') ∧
      ((ret = some .enomem ∧ locks' = locks) ∨ (ret = none ∧ LocksOk fam locks')) := by
  subst hfl
  unfold lockSet
  cases hf : fl.family with
  | posix =>
    rw [hf] at h
    obtain ⟨hposix, hsorted⟩ := h.posix rfl
    obtain ⟨n', ret, locks', he, hres⟩ :=
      posixLockSet_spec alloc n (Nat.le_refl 1) hposix hsorted hv.range hv.eof
    refine ⟨n', ret, locks', he, hres.imp_right ?_⟩
    rintro ⟨hret, hset⟩
    exact ⟨hret, fun l hl => (hset.posix l hl).family, fun l hl => (hset.posix l hl).type,
      fun _ => ⟨hset.posix, hset.sorted⟩, by simp,
      hset.noConflict hf h.family h.noConflict hfree⟩
  | flock =>
    rw [hf] at h
    obtain ⟨n', ret, locks', he, hres⟩ := flockLockSet_eq alloc n locks fl
    refine ⟨n', ret, locks', he, hres.imp_right ?_⟩
    rintro ⟨hret, rfl⟩
    exact ⟨hret, h.flockSet hf hfree⟩

theorem lockSet_other (alloc : Nat → Bool) (n : Nat) (h : LocksOk fam locks) (hfl : fl.family ≠ fam)
    (hty : fl.type = .unlck) :
    ∃ n' ret, lockSet alloc n locks fl = (n', ret, locks) := by
  unfold lockSet
  cases hf : fl.family with
  | posix =>
    have hskip : posixLockLoop fl [] [] fl.start fl.stop locks =
        ⟨[], [] ++ locks, fl.start, fl.stop⟩ :=
      posixLockLoop_skip fl fun l hl hp => hfl (by rw [hf, ← hp, h.family l hl])
    simp only [posixLockSet, hty, ne_eq, not_true, if_false, hskip]
    split <;> exact ⟨_, _, rfl⟩
  | flock =>
    have herase : locks.eraseP (fun cur => cur.family = .flock ∧ cur.handleId = fl.handleId) =
        locks := by
      refine eraseP_of_forall_not fun l hl hp => hfl ?_
      have := (of_decide_eq_true hp).1
      rw [hf, ← this, h.family l hl]
    simp only [flockLockSet, hty, herase]
    exact ⟨_, _, rfl⟩

theorem lockSet_locksOk {alloc : Nat → Bool} {n n' : Nat} {locks' : List Lock}
    (h : LocksOk fam locks) (hfl : fl.family ≠ fam → fl.type = .unlck) (hv : fl.Valid)
    (hfree : fl.type ≠ .unlck → ∀ cur ∈ locks, ¬ Conflict fl cur) {ret : Ret}
    (he : lockSet alloc n locks fl = (n', ret, locks')) : LocksOk fam locks' := by
  by_cases hf : fl.family = fam
  · obtain ⟨n'', ret', locks'', hset, hres⟩ := lockSet_spec alloc n h hf hv hfree
    cases hset.symm.trans he
    rcases hres with ⟨-, rfl⟩ | ⟨-, h'⟩
    · exact h
    · exact h'
  · obtain ⟨n'', ret', hset⟩ := lockSet_other alloc n h hf (hfl hf)
    cases hset.symm.trans he
    exact h

/-! ## Processing the requests -/

/-- What is true of every request on a dentry used with one family. -/
structure Request.Ok (fam : Family) (r : Request) : Prop where
  family : r.fileLock.family = fam
  type : r.fileLock.type ≠ .unlck
  valid : r.fileLock.Valid

/-- The request was answered. -/
def Request.AnsweredIn (r : Request) (answers : List Answer) : Prop :=
  ∃ notify result, r.notify = some notify ∧ ⟨notify, result⟩ ∈ answers

/-- What passes over the requests `reqs` leave. -/
structure PassSpec (fam : Family) (reqs : List Request) (p : Pass) : Prop where
  locks : LocksOk fam p.locks
  requests : p.requests.Sublist reqs
  answered : ∀ r ∈ reqs, r ∈ p.requests ∨ r.AnsweredIn p.answers

section
variable (alloc : Nat → Bool) {reqs : List Request} {p : Pass} (h : LocksOk fam locks)
  (hreqs : ∀ r ∈ reqs, r.Ok fam)
include alloc h hreqs

/-- **One pass over the requests.** A pass that changes nothing leaves all the
requests, each with a conflict. -/
theorem processPass_spec {n : Nat} (hp : processPass alloc n locks reqs = .ok p) :
    PassSpec fam reqs p ∧ (p.changed = true → p.requests.length < reqs.length) ∧
      (p.changed = false → p.locks = locks ∧ p.requests = reqs ∧
        ∀ r ∈ reqs, ∃ cur ∈ locks, Conflict r.fileLock cur) := by
  induction reqs generalizing n locks p with
  | nil =>
    cases hp
    exact ⟨⟨h, List.Sublist.refl _, by simp⟩, by simp, by simp⟩
  | cons req rest ih =>
    have hrest : ∀ r ∈ rest, r.Ok fam := fun r hr => hreqs r (mem_cons_of_mem _ hr)
    have hreq := hreqs req mem_cons_self
    rw [processPass] at hp
    cases hc : fileLockFindConflict locks req.fileLock with
    | some cur =>
      simp only [hc] at hp
      obtain ⟨q, hp', hp⟩ := Fallible.bind_eq_ok.1 hp
      cases hp
      obtain ⟨⟨hlocks, hsub, hans⟩, hlen, hsame⟩ := ih h hrest hp'
      refine ⟨⟨hlocks, hsub.cons_cons req, ?_⟩, ?_, ?_⟩
      · intro r hr
        rcases mem_cons.mp hr with rfl | hr
        · exact .inl mem_cons_self
        · exact (hans r hr).imp_left (mem_cons_of_mem _)
      · intro hch
        have := hlen hch
        simp only [length_cons]
        omega
      intro hch
      obtain ⟨h1, h2, h3⟩ := hsame hch
      refine ⟨h1, by simp [h2], ?_⟩
      intro r hr
      rcases mem_cons.mp hr with rfl | hr
      · exact findConflict_isSome.mp (by rw [hc]; rfl)
      · exact h3 r hr
    | none =>
      obtain ⟨n', ret, locks', hset⟩ : ∃ n' ret locks',
          lockSet alloc n locks req.fileLock = (n', ret, locks') := ⟨_, _, _, rfl⟩
      have hlocks' : LocksOk fam locks' := lockSet_locksOk h (fun hf => absurd hreq.family hf)
        hreq.valid (fun _ => findConflict_eq_none.mp hc) hset
      simp only [hc, hset] at hp
      cases hn : req.notify with
      | none => simp [hn] at hp
      | some notify =>
        simp only [hn] at hp
        obtain ⟨q, hp', hp⟩ := Fallible.bind_eq_ok.1 hp
        cases hp
        obtain ⟨⟨hlocks, hsub, hans⟩, hlen, hsame⟩ := ih hlocks' hrest hp'
        refine ⟨⟨hlocks, hsub.cons req, ?_⟩, ?_, by simp⟩
        · intro r hr
          rcases mem_cons.mp hr with rfl | hr
          · exact .inr ⟨notify, ret, hn, mem_cons_self⟩
          · refine (hans r hr).imp_right ?_
            rintro ⟨nt, res, h1, h2⟩
            exact ⟨nt, res, h1, mem_cons_of_mem _ h2⟩
        · intro _
          have := hsub.length_le
          simp only [length_cons]
          omega

/-- **The fixpoint**: when the passes end, every request left conflicts with a held
lock, and every other one was answered. -/
theorem processLoop_spec {fuel n : Nat} (hfuel : reqs.length ≤ fuel)
    (hp : processLoop alloc fuel n locks reqs = .ok p) :
    PassSpec fam reqs p ∧ ∀ r ∈ p.requests, ∃ cur ∈ p.locks, Conflict r.fileLock cur := by
  induction fuel generalizing n locks reqs p with
  | zero =>
    obtain rfl : reqs = [] := length_eq_zero_iff.mp (Nat.le_zero.mp hfuel)
    cases hp
    exact ⟨⟨h, List.Sublist.refl _, by simp⟩, by simp⟩
  | succ fuel ih =>
    obtain ⟨q, hpass, hp⟩ := Fallible.bind_eq_ok.1 hp
    obtain ⟨hq, hlen, hsame⟩ := processPass_spec alloc h hreqs hpass
    cases hch : q.changed with
    | false =>
      simp only [hch, pure, Except.pure, Bool.false_eq_true, if_false, Except.ok.injEq] at hp
      subst hp
      obtain ⟨h1, h2, h3⟩ := hsame hch
      exact ⟨hq, by rw [h1, h2]; exact h3⟩
    | true =>
      simp only [hch] at hp
      obtain ⟨q', hrec, hp⟩ := Fallible.bind_eq_ok.1 hp
      cases hp
      have := hlen hch
      obtain ⟨⟨hlocks, hsub, hans⟩, hconf⟩ := ih hq.locks
        (fun r hr => hreqs r (hq.requests.subset hr)) (by omega) hrec
      refine ⟨⟨hlocks, hsub.trans hq.requests, ?_⟩, hconf⟩
      intro r hr
      rcases hq.answered r hr with hr | ⟨nt, res, h1, h2⟩
      · refine (hans r hr).imp_right ?_
        rintro ⟨nt, res, h1, h2⟩
        exact ⟨nt, res, h1, mem_append_right _ h2⟩
      · exact .inr ⟨nt, res, h1, mem_append_left _ h2⟩

end

end FileLock
