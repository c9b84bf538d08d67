import Gramine.FileLockRange

/-!
# The lock map

The POSIX locks on a list, seen from outside: which type a process holds a byte with
(`lockMap`). `_posix_lock_set` is an overwrite of this map on one range of bytes of
one process.

The list may also hold flock locks. The loop passes over them, so what it does to
the POSIX locks is what it does to the list of the POSIX locks alone
(`posixLockLoop_posixLocks`).
-/

open List

namespace FileLock

/-- The POSIX locks of a list. -/
def posixLocks (locks : List Lock) : List Lock := locks.filter fun l => l.family = .posix

/-- The lock is the one process `p` holds byte `b` with. -/
def Lock.Holds (l : Lock) (p b : Nat) : Prop :=
  l.family = .posix ∧ l.pid = p ∧ l.start ≤ b ∧ b ≤ l.stop

instance (l : Lock) (p b : Nat) : Decidable (l.Holds p b) := by
  unfold Lock.Holds
  infer_instance

/-- The type process `p` holds byte `b` with. -/
def lockMap (locks : List Lock) (p b : Nat) : Option LockType :=
  (locks.find? fun l => l.Holds p b).map Lock.type

/-- What a request asks for on its range. -/
def LockType.requested : LockType → Option LockType
  | .unlck => none
  | ty => some ty

/-- Replace the map on a range of bytes of one process. -/
def overwrite (m : Nat → Nat → Option LockType) (pid start stop : Nat) (ty : Option LockType) :
    Nat → Nat → Option LockType :=
  fun p b => if p = pid ∧ start ≤ b ∧ b ≤ stop then ty else m p b

/-- The POSIX locks are locks of ranges of bytes, sorted by process and start, and
those of one process do not overlap. -/
structure Sorted (locks : List Lock) : Prop where
  type : ∀ l ∈ posixLocks locks, l.type ≠ .unlck
  range : ∀ l ∈ posixLocks locks, l.start ≤ l.stop ∧ l.stop ≤ fsLockEof
  order : (posixLocks locks).Pairwise fun a b => a.pid < b.pid ∨ a.pid = b.pid ∧ a.start ≤ b.start
  disjoint : (posixLocks locks).Pairwise fun a b =>
    a.pid = b.pid → a.stop < b.start ∨ b.stop < a.start

@[simp] theorem posixLocks_nil : posixLocks [] = [] := rfl

@[simp] theorem posixLocks_append (a b : List Lock) :
    posixLocks (a ++ b) = posixLocks a ++ posixLocks b :=
  filter_append ..

variable {l : Lock}

theorem posixLocks_cons_of (h : l.family = .posix) (ls : List Lock) :
    posixLocks (l :: ls) = l :: posixLocks ls :=
  filter_cons_of_pos (by simp [h])

theorem posixLocks_cons_of_ne (h : l.family ≠ .posix) (ls : List Lock) :
    posixLocks (l :: ls) = posixLocks ls :=
  filter_cons_of_neg (by simp [h])

variable {locks : List Lock}

theorem mem_posixLocks : l ∈ posixLocks locks ↔ l ∈ locks ∧ l.family = .posix := by
  simp [posixLocks]

theorem Sorted.ordered (h : Sorted locks) : (posixLocks locks).Pairwise (Ordered 0) := by
  refine (h.order.and h.disjoint).imp_of_mem ?_
  rintro a b ha hb ⟨horder, hdis⟩
  have hrb := h.range b hb
  have hsep := sep_le 0 a b
  unfold Ordered
  omega

theorem Sorted.posix (h : Sorted locks) : ∀ l ∈ posixLocks locks, l.Posix :=
  fun l hl => ⟨(mem_posixLocks.1 hl).2, h.type l hl, (h.range l hl).1, (h.range l hl).2⟩

theorem Sorted.of_ordered (hposix : ∀ l ∈ posixLocks locks, l.Posix)
    (h : (posixLocks locks).Pairwise (Ordered 0)) : Sorted locks := by
  refine ⟨fun l hl => (hposix l hl).type, fun l hl => ⟨(hposix l hl).range, (hposix l hl).eof⟩,
    ?_, ?_⟩
  · refine h.imp_of_mem fun {a b} ha hb hab => ?_
    have := (hposix a ha).range
    unfold Ordered at hab
    omega
  · refine h.imp fun {a b} hab hp => ?_
    unfold Ordered at hab
    omega

theorem Sorted.holds_unique (h : Sorted locks) {p b : Nat} {l' : Lock} (hl : l ∈ locks)
    (hl' : l' ∈ locks) (hh : l.Holds p b) (hh' : l'.Holds p b) : l = l' := by
  have : Std.Symm fun a c : Lock => ¬ (a.Holds p b ∧ c.Holds p b) :=
    ⟨fun a c hac hca => hac hca.symm⟩
  have hpair : (posixLocks locks).Pairwise fun a c => ¬ (a.Holds p b ∧ c.Holds p b) := by
    refine h.disjoint.imp fun {a c} hdis hac => ?_
    obtain ⟨⟨-, hpa, ha⟩, -, hpc, hc⟩ := hac
    omega
  by_contra hne
  exact hpair.forall (mem_posixLocks.2 ⟨hl, hh.1⟩) (mem_posixLocks.2 ⟨hl', hh'.1⟩) hne ⟨hh, hh'⟩

/-- At most one lock covers a byte of a process, so the map is what the list holds. -/
theorem Sorted.lockMap_iff (h : Sorted locks) {p b : Nat} {ty : LockType} :
    lockMap locks p b = some ty ↔ Held (posixLocks locks) p b ty := by
  unfold lockMap
  constructor
  · intro hm
    obtain ⟨l, hfind, hty⟩ := Option.map_eq_some_iff.1 hm
    have hh : l.Holds p b := by simpa using find?_some hfind
    obtain ⟨hf, hp, hb⟩ := hh
    exact ⟨l, mem_posixLocks.2 ⟨mem_of_find?_eq_some hfind, hf⟩, hp, hty, hb⟩
  · rintro ⟨l, hl, hp, hty, hb⟩
    obtain ⟨hl, hf⟩ := mem_posixLocks.1 hl
    have hh : l.Holds p b := ⟨hf, hp, hb⟩
    cases hfind : locks.find? fun l => l.Holds p b with
    | none => exact absurd hh (by simpa using find?_eq_none.1 hfind l hl)
    | some l' =>
      have hh' : l'.Holds p b := by simpa using find?_some hfind
      rw [h.holds_unique (mem_of_find?_eq_some hfind) hl hh' hh]
      exact congrArg some hty

/-! ## Lists with locks of both families -/

/-- **The loop does to the POSIX locks what it does to them alone.** -/
theorem posixLockLoop_posixLocks (fl : Lock) {before skipped rest : List Lock} {start stop : Nat}
    (hskip : posixLocks skipped = []) :
    posixLockLoop fl (posixLocks before) [] start stop (posixLocks rest) =
      ⟨posixLocks (posixLockLoop fl before skipped start stop rest).before,
        posixLocks (posixLockLoop fl before skipped start stop rest).after,
        (posixLockLoop fl before skipped start stop rest).start,
        (posixLockLoop fl before skipped start stop rest).stop⟩ := by
  induction rest generalizing before skipped start stop with
  | nil => simp [posixLockLoop, hskip]
  | cons cur rest ih =>
    by_cases hf : cur.family ≠ .posix
    · rw [posixLocks_cons_of_ne hf, posixLockLoop, if_pos hf]
      exact ih (by rw [posixLocks_append, hskip, posixLocks_cons_of_ne hf]; rfl)
    -- from here on the lock is a POSIX lock, and both loops take the same branch
    have hposix : cur.family = .posix := not_not.1 hf
    rw [posixLocks_cons_of hposix]
    have hpass := fun k : Lock => @ih (before ++ skipped ++ [k]) [] start stop rfl
    simp only [posixLockLoop, if_neg hf]
    split_ifs
    · simpa [hskip, posixLocks_cons_of, hposix] using hpass cur
    · simp [hskip, posixLocks_cons_of, hposix]
    · simpa [hskip, posixLocks_cons_of, hposix] using hpass cur
    · simp [hskip, posixLocks_cons_of, hposix]
    · exact ih hskip
    · simpa [hskip, posixLocks_cons_of, hposix] using hpass cur
    · simp [hskip, posixLocks_cons_of, hposix]
    · simpa [hskip, posixLocks_cons_of, hposix] using hpass { cur with stop := start - 1 }
    · simp [hskip, posixLocks_cons_of, hposix]
    · exact ih hskip
    · simp [hskip, posixLocks_cons_of, hposix]

/-- What `_posix_lock_set` returns: `ENOMEM` with the list as it was, if one of its
calls to `malloc` failed, and otherwise what it makes of the list; the POSIX locks are
what it makes of the POSIX locks alone. -/
theorem posixLockSet_cases (alloc : Nat → Bool) (n : Nat) (locks : List Lock) (fl : Lock) :
    (∃ n' i, n ≤ i ∧ i < n' ∧ alloc i = false ∧
      posixLockSet alloc n locks fl = (n', some .enomem, locks)) ∨
    ∃ n' locks', (∀ i, n ≤ i → i < n' → alloc i = true) ∧
      posixLockSet alloc n locks fl = (n', none, locks') ∧
      posixLockSet alloc n (posixLocks locks) fl = (n', none, posixLocks locks') := by
  have hloop := @posixLockLoop_posixLocks fl [] [] locks fl.start fl.stop rfl
  rw [posixLocks_nil] at hloop
  have hfirst : ∀ i, n ≤ i → i < n + 1 → i = n := by omega
  have hsecond : ∀ i, n ≤ i → i < n + 2 → i = n ∨ i = n + 1 := by omega
  unfold posixLockSet
  rw [hloop]
  by_cases hty : fl.type ≠ .unlck
  · rw [if_pos hty, if_pos hty]
    cases hn : alloc n with
    | false => exact .inl ⟨n + 1, n, le_refl _, by omega, hn, rfl⟩
    | true =>
      cases hn' : alloc (n + 1) with
      | false => exact .inl ⟨n + 2, n + 1, by omega, by omega, hn', rfl⟩
      | true =>
        refine .inr ⟨n + 2, _, fun i h1 h2 => ?_, rfl, ?_⟩
        · rcases hsecond i h1 h2 with rfl | rfl
          · exact hn
          · exact hn'
        · simp [posixLocks]
  · rw [if_neg hty, if_neg hty]
    cases hn : alloc n with
    | false => exact .inl ⟨n + 1, n, le_refl _, by omega, hn, rfl⟩
    | true =>
      refine .inr ⟨n + 1, _, fun i h1 h2 => ?_, rfl, ?_⟩
      · rw [hfirst i h1 h2, hn]
      · simp

/-- What `PosixSet` says about the list, as an equation of maps. -/
theorem PosixSet.lockMap {fl : Lock} {locks' : List Lock} (hsorted : Sorted locks)
    (hsorted' : Sorted locks') (h : PosixSet 0 fl (posixLocks locks) (posixLocks locks')) :
    lockMap locks' = overwrite (lockMap locks) fl.pid fl.start fl.stop fl.type.requested := by
  funext p b
  refine Option.ext fun ty => ?_
  rw [hsorted'.lockMap_iff, h.held p b ty, overwrite]
  by_cases hin : p = fl.pid ∧ fl.start ≤ b ∧ b ≤ fl.stop
  · have hnew : (target fl fl.start fl.stop).At p b ty ↔ fl.type = ty :=
      ⟨fun hat => hat.2.1, fun ht => ⟨hin.1.symm, ht, hin.2⟩⟩
    rw [hnew]
    cases hty : fl.type <;> simp [LockType.requested, hin]
  · rw [if_neg hin, hsorted.lockMap_iff]
    have hnew : ¬ (target fl fl.start fl.stop).At p b ty :=
      fun hat => hin ⟨hat.1.symm, hat.2.2⟩
    simp [hnew, hin]

/-- **`_posix_lock_set` is byte-range replacement**: if all its allocations succeed, it
replaces the map on the requested range, and nowhere else, by the requested type,
and the list is again sorted without overlaps; otherwise it changes nothing. -/
theorem posixLockSet_overwrites (alloc : Nat → Bool) (n : Nat) {locks : List Lock} {fl : Lock}
    (hsorted : Sorted locks) (hrange : fl.start ≤ fl.stop) (heof : fl.stop ≤ fsLockEof) :
    ∃ n' ret locks', posixLockSet alloc n locks fl = (n', ret, locks') ∧
      (ret = none ↔ ∀ i, n ≤ i → i < n' → alloc i = true) ∧
      (ret = none → Sorted locks' ∧
        lockMap locks' = overwrite (lockMap locks) fl.pid fl.start fl.stop fl.type.requested) ∧
      (ret ≠ none → ret = some .enomem ∧ locks' = locks) := by
  rcases posixLockSet_cases alloc n locks fl with
    ⟨n', i, hni, hin, hfail, heq⟩ | ⟨n', locks', halloc, heq, hposix⟩
  · refine ⟨n', _, _, heq, ⟨nofun, fun hall => ?_⟩, nofun, fun _ => ⟨rfl, rfl⟩⟩
    rw [hall i hni hin] at hfail
    cases hfail
  obtain ⟨n1, ret, locks1, heq1, hres⟩ := posixLockSet_spec alloc n (Nat.zero_le 1)
    hsorted.posix hsorted.ordered hrange heof
  cases hposix.symm.trans heq1
  have hset : PosixSet 0 fl (posixLocks locks) (posixLocks locks') := by
    rcases hres with ⟨hret, -⟩ | ⟨-, hset⟩
    · cases hret
    · exact hset
  have hsorted' : Sorted locks' := .of_ordered hset.posix hset.sorted
  exact ⟨n', _, _, heq, ⟨fun _ => halloc, fun _ => rfl⟩,
    fun _ => ⟨hsorted', hset.lockMap hsorted hsorted'⟩, fun h => absurd rfl h⟩

/-- A write lock inside a read lock to the end of the file, next to a flock lock: the
read lock is split. -/
theorem posixLockSet_overwrites_split : ∃ locks', (posixLockSet (fun _ => true) 0
        [⟨.flock, .rdlck, 0, 0, 0, 5⟩, ⟨.posix, .rdlck, 0, fsLockEof, 1, 0⟩]
        ⟨.posix, .wrlck, 10, 19, 1, 0⟩).2 = (none, locks') ∧
      lockMap locks' 1 9 = some .rdlck ∧ lockMap locks' 1 10 = some .wrlck ∧
      lockMap locks' 1 20 = some .rdlck ∧ lockMap locks' 2 10 = none := by
  obtain ⟨n', ret, locks', heq, hret, hok, -⟩ := @posixLockSet_overwrites (fun _ => true) 0
    [⟨.flock, .rdlck, 0, 0, 0, 5⟩, ⟨.posix, .rdlck, 0, fsLockEof, 1, 0⟩]
    ⟨.posix, .wrlck, 10, 19, 1, 0⟩
    ⟨by decide, by decide, by decide, by decide⟩ (by decide) (by decide)
  have hnone := hret.2 fun _ _ _ => rfl
  obtain ⟨-, hmap⟩ := hok hnone
  refine ⟨locks', ?_, ?_⟩
  · rw [heq, hnone]
  · rw [hmap]
    decide

end FileLock
