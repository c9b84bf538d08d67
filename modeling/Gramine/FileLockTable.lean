import Gramine.FileLockDent

/-!
# The file-lock table

The invariant of the leader's table over any sequence of calls, on any number of
dentries: each dentry's locks and requests are in order (`DentOk`), and an object
exists exactly for the dentries that have one or the other (`Table.Ok`).

A request leaves the table only by being answered, or with the process it belongs
to (`Table.Keeps`).
-/

open List Function Fallible

namespace FileLock

/-- The flag that says that a family is in use. -/
def DentFileLocks.used (d : DentFileLocks) : Family → Bool
  | .posix => d.posixUsed
  | .flock => d.flockUsed

/-- The object is needed. -/
def DentFileLocks.NonEmpty (d : DentFileLocks) : Prop :=
  d.fileLocks ≠ [] ∨ d.fileLockRequests ≠ []

/-- What is true of the object of a dentry that is used with the family `fam`. -/
structure DentOk (fam : Family) (d : DentFileLocks) : Prop where
  other : d.used fam.other = false
  used : d.NonEmpty → d.used fam = true
  locks : LocksOk fam d.fileLocks
  requests : ∀ r ∈ d.fileLockRequests, r.Ok fam
  pending : ∀ r ∈ d.fileLockRequests, ∃ cur ∈ d.fileLocks, Conflict r.fileLock cur

theorem DentOk.empty (fam : Family) : DentOk fam ⟨false, false, [], []⟩ := by
  refine ⟨?_, ?_, .nil fam, by simp, by simp⟩
  · cases fam <;> rfl
  · simp [DentFileLocks.NonEmpty]

/-- A lock that is not refused with EPERM is of the dentry's family. -/
theorem DentOk.of_unused {fam fam' : Family} {d : DentFileLocks} (h : DentOk fam d)
    (hother : d.used fam'.other = false) : DentOk fam' d := by
  by_cases he : fam = fam'
  · exact he ▸ h
  have hfam : fam = fam'.other := by cases fam <;> cases fam' <;> simp_all [Family.other]
  have hempty : ¬ d.NonEmpty := by
    intro hne
    rw [hfam] at h
    have := h.used hne
    rw [hother] at this
    cases this
  simp only [DentFileLocks.NonEmpty, not_or, not_not] at hempty
  refine ⟨hother, ?_, ?_, ?_, ?_⟩
  · simp [DentFileLocks.NonEmpty, hempty.1, hempty.2]
  · rw [hempty.1]
    exact .nil fam'
  · simp [hempty.2]
  · simp [hempty.2]

theorem DentOk.sublocks {fam : Family} {locks locks' : List Lock} (h : LocksOk fam locks)
    (hs : locks'.Sublist locks) : LocksOk fam locks' :=
  ⟨fun l hl => h.family l (hs.subset hl), fun l hl => h.type l (hs.subset hl),
    fun hf => ⟨fun l hl => (h.posix hf).1 l (hs.subset hl), (h.posix hf).2.sublist hs⟩,
    fun hf => (h.flock hf).sublist hs,
    fun a ha b hb => h.noConflict a (hs.subset ha) b (hs.subset hb)⟩

namespace Table
variable {Dent : Type} [DecidableEq Dent]

/-- The invariant of the table; the object of a dentry in `but` may be empty. -/
structure OkBut (but : Dent → Prop) (t : Table Dent) : Prop where
  dent : ∀ dent d, t.fileLocks dent = some d → ∃ fam, DentOk fam d
  nonEmpty : ∀ dent d, ¬ but dent → t.fileLocks dent = some d → d.NonEmpty
  nodup : t.list.Nodup
  mem : ∀ dent, dent ∈ t.list ↔ t.fileLocks dent ≠ none

/-- **The invariant of the table.** -/
abbrev Ok (t : Table Dent) : Prop := OkBut (fun _ => False) t

/-- The request waits on the dentry. -/
def Pending (t : Table Dent) (dent : Dent) (r : Request) : Prop :=
  ∃ d, t.fileLocks dent = some d ∧ r ∈ d.fileLockRequests

/-- Every request is still there, was answered, or was one of those `lost`. -/
def Keeps (lost : Request → Prop) (t t' : Table Dent) : Prop :=
  ∃ new, t'.answers = t.answers ++ new ∧ ∀ dent r, t.Pending dent r →
    t'.Pending dent r ∨ r.AnsweredIn new ∨ lost r

section
omit [DecidableEq Dent]

theorem Keeps.refl (lost : Request → Prop) (t : Table Dent) : Keeps lost t t :=
  ⟨[], by simp, fun _ _ h => .inl h⟩

theorem Keeps.trans {lost : Request → Prop} {t t' t'' : Table Dent} (h : Keeps lost t t')
    (h' : Keeps lost t' t'') : Keeps lost t t'' := by
  obtain ⟨new, he, hk⟩ := h
  obtain ⟨new', he', hk'⟩ := h'
  refine ⟨new ++ new', by rw [he', he, append_assoc], fun dent r hr => ?_⟩
  rcases hk dent r hr with hr | ⟨nt, res, h1, h2⟩ | hr
  · refine (hk' dent r hr).imp_right (Or.imp_left ?_)
    rintro ⟨nt, res, h1, h2⟩
    exact ⟨nt, res, h1, mem_append_right _ h2⟩
  · exact .inr (.inl ⟨nt, res, h1, mem_append_left _ h2⟩)
  · exact .inr (.inr hr)

theorem Ok.but {t : Table Dent} (h : t.Ok) (but : Dent → Prop) : t.OkBut but :=
  ⟨h.dent, fun x dx _ hx => h.nonEmpty x dx not_false hx, h.nodup, h.mem⟩

end

/-! ## Storing and collecting an object -/

section Put
variable {t t' : Table Dent} {dent : Dent} {d d' : DentFileLocks}

section
variable {but but' : Dent → Prop} (h : t.OkBut but) (hbut : ∀ x, x ≠ dent → but x → but' x)
include h hbut

theorem OkBut.update {o : Option DentFileLocks} (ht : t'.fileLocks = update t.fileLocks dent o)
    (ho : ∀ d, o = some d → (∃ fam, DentOk fam d) ∧ (¬ but' dent → d.NonEmpty))
    (hnodup : t'.list.Nodup) (hmem : dent ∈ t'.list ↔ o ≠ none)
    (hother : ∀ x, x ≠ dent → (x ∈ t'.list ↔ x ∈ t.list)) : t'.OkBut but' := by
  refine ⟨?_, ?_, hnodup, ?_⟩ <;> rw [ht]
  · exact (forall_update_iff t.fileLocks
      fun _ o => ∀ d, o = some d → ∃ fam, DentOk fam d).2
        ⟨fun d hd => (ho d hd).1, fun x _ => h.dent x⟩
  · refine (forall_update_iff t.fileLocks
      fun x o => ∀ d, ¬ but' x → o = some d → d.NonEmpty).2 ⟨fun d hb hd => (ho d hd).2 hb,
      fun x hx d hb => h.nonEmpty x d fun hbx => hb (hbut x hx hbx)⟩
  · exact (forall_update_iff t.fileLocks fun x o => x ∈ t'.list ↔ o ≠ none).2
      ⟨hmem, fun x hx => (hother x hx).trans (h.mem x)⟩

theorem OkBut.put (hd : t.fileLocks dent = some d) {fam : Family} (hok : DentOk fam d')
    (hne : ¬ but' dent → d'.NonEmpty) (ht : t'.fileLocks = (t.put dent d').fileLocks)
    (hl : t'.list = t.list) : t'.OkBut but' := by
  refine h.update hbut ht ?_ (hl ▸ h.nodup) ?_ fun x _ => by rw [hl]
  · rintro _ ⟨⟩
    exact ⟨⟨fam, hok⟩, hne⟩
  · rw [hl, h.mem, hd]
    simp

end

/-- `dent_file_locks_gc` completes the invariant. -/
theorem OkBut.gc (h : t.OkBut (fun x => x = dent)) : (t.dentFileLocksGc dent).Ok := by
  unfold dentFileLocksGc
  -- nothing is collected: `dent` has no object, or one that is needed
  have keep (hne : ∀ d, t.fileLocks dent = some d → d.NonEmpty) : t.Ok := by
    refine ⟨h.dent, fun x dx _ hx => ?_, h.nodup, h.mem⟩
    by_cases hxd : x = dent
    · exact hne dx (hxd ▸ hx)
    · exact h.nonEmpty x dx hxd hx
  cases hd : t.fileLocks dent with
  | none => exact keep (by simp [hd])
  | some d =>
    simp only
    split
    · exact h.update (fun _ hx he => hx he) rfl nofun (h.nodup.erase dent)
        (by simp [h.nodup.mem_erase_iff]) fun x hx => by simp [hx]
    rename_i hne
    refine keep fun d' hd' => ?_
    cases hd.symm.trans hd'
    exact not_and_or.1 hne

/-- `dent_file_locks_gc` removes no request. -/
theorem pending_gc {x : Dent} {r : Request} (h : t.Pending x r) :
    (t.dentFileLocksGc dent).Pending x r := by
  obtain ⟨dx, hx, hr⟩ := h
  unfold dentFileLocksGc
  cases hd : t.fileLocks dent with
  | none => exact ⟨dx, hx, hr⟩
  | some d =>
    simp only
    split
    · rename_i hempty
      have hxd : x ≠ dent := by
        intro he
        rw [he, hd] at hx
        cases hx
        rw [hempty.2] at hr
        cases hr
      exact ⟨dx, by simpa [hxd] using hx, hr⟩
    · exact ⟨dx, hx, hr⟩

theorem answers_gc : (t.dentFileLocksGc dent).answers = t.answers := by
  unfold dentFileLocksGc
  split
  · split <;> rfl
  · rfl

variable {lost : Request → Prop}

theorem Keeps.gc {t0 : Table Dent} (h : Keeps lost t0 t) :
    Keeps lost t0 (t.dentFileLocksGc dent) := by
  obtain ⟨new, he, hk⟩ := h
  exact ⟨new, by rw [answers_gc, he], fun x r hr => (hk x r hr).imp_left pending_gc⟩

theorem Keeps.put {new : List Answer} (hstored : t.fileLocks dent = some d)
    (ht : t'.fileLocks = (t.put dent d').fileLocks) (ha : t'.answers = t.answers ++ new)
    (hr : ∀ r ∈ d.fileLockRequests, r ∈ d'.fileLockRequests ∨ r.AnsweredIn new ∨ lost r) :
    Keeps lost t t' := by
  refine ⟨new, ha, ?_⟩
  rintro x r ⟨dx, hx, hrx⟩
  rw [Pending, ht]
  by_cases hxd : x = dent
  · subst hxd
    cases hstored.symm.trans hx
    exact (hr r hrx).imp_left fun hr' => ⟨d', update_self .., hr'⟩
  · exact .inl ⟨dx, by simpa [Table.put, hxd] using hx, hrx⟩

end Put

/-! ## The calls -/

section Calls
variable {alloc : Nat → Bool} {t t' : Table Dent} {dent : Dent} {d : DentFileLocks} {fl : Lock}

section
omit [DecidableEq Dent]

/-- `file_lock_process_requests` on an object whose locks just changed. -/
theorem fileLockProcessRequests_spec {fam : Family} {n n' : Nat} {d' : DentFileLocks}
    {answers : List Answer} (hl : LocksOk fam d.fileLocks)
    (hr : ∀ r ∈ d.fileLockRequests, r.Ok fam)
    (he : fileLockProcessRequests alloc n d = .ok (n', d', answers)) :
    d'.used = d.used ∧ LocksOk fam d'.fileLocks ∧ (∀ r ∈ d'.fileLockRequests, r.Ok fam) ∧
      (∀ r ∈ d'.fileLockRequests, ∃ cur ∈ d'.fileLocks, Conflict r.fileLock cur) ∧
      ∀ r ∈ d.fileLockRequests, r ∈ d'.fileLockRequests ∨ r.AnsweredIn answers := by
  obtain ⟨_, hp, he⟩ := bind_eq_ok.1 he
  cases he
  obtain ⟨hspec, hconf⟩ := processLoop_spec alloc hl hr (Nat.le_refl _) hp
  refine ⟨?_, hspec.locks, fun r h => hr r (hspec.requests.subset h), hconf, hspec.answered⟩
  cases fam <;> rfl

theorem use_used_self (hty : fl.type ≠ .unlck) (d : DentFileLocks) :
    (DentFileLocks.use d fl).used fl.family = true := by
  unfold DentFileLocks.use
  rw [if_pos hty]
  cases fl.family <;> rfl

theorem use_used_other (d : DentFileLocks) :
    (DentFileLocks.use d fl).used fl.family.other = d.used fl.family.other := by
  unfold DentFileLocks.use
  split
  · cases fl.family <;> rfl
  · rfl

theorem use_fileLocks (d : DentFileLocks) (fl : Lock) :
    (DentFileLocks.use d fl).fileLocks = d.fileLocks ∧
      (DentFileLocks.use d fl).fileLockRequests = d.fileLockRequests := by
  unfold DentFileLocks.use
  split
  · split <;> exact ⟨rfl, rfl⟩
  · exact ⟨rfl, rfl⟩

end

/-- What `setOrAdd` leaves of the object of its dentry. -/
structure SetSpec (t : Table Dent) (dent : Dent) (d : DentFileLocks) (fl : Lock) (added : Bool)
    (t' : Table Dent) (d' : DentFileLocks) (new : List Answer) : Prop where
  stored : t'.fileLocks = (t.put dent d').fileLocks
  list : t'.list = t.list
  answers : t'.answers = t.answers ++ new
  ok : ∃ fam, DentOk fam d'
  requests : ∀ r ∈ d.fileLockRequests, r ∈ d'.fileLockRequests ∨ r.AnsweredIn new
  added : added = true → d'.fileLockRequests = ⟨fl, none⟩ :: d.fileLockRequests

variable {fam : Family}

theorem SetSpec.unchanged (hd : DentOk fam d) (hstored : t.fileLocks dent = some d) (n : Nat) :
    SetSpec t dent d fl false { t with mallocs := n } d [] := by
  refine ⟨?_, rfl, by simp, ⟨fam, hd⟩, fun r hr => .inl hr, by simp⟩
  simp [Table.put, ← hstored]

theorem SetSpec.set {n : Nat} {locks : List Lock} {d' : DentFileLocks} {n' : Nat}
    {answers : List Answer} (hd : DentOk fam d) (hl : LocksOk fam locks)
    (hfam : fl.type ≠ .unlck → fl.family = fam) (hne : fl.type = .unlck → d.NonEmpty)
    (he : fileLockProcessRequests alloc n { d with fileLocks := locks } = .ok (n', d', answers)) :
    SetSpec t dent d fl false
      { t.put dent (DentFileLocks.use d' fl) with
        mallocs := n', answers := t.answers ++ answers } (DentFileLocks.use d' fl) answers := by
  obtain ⟨hused, hlocks, hreqs, hconf, hans⟩ :=
    fileLockProcessRequests_spec (d := { d with fileLocks := locks }) hl hd.requests he
  obtain ⟨hu1, hu2⟩ := use_fileLocks d' fl
  refine ⟨rfl, rfl, rfl, ⟨fam, ?_, ?_, hu1 ▸ hlocks, hu2 ▸ hreqs, ?_⟩, ?_, by simp⟩
  · by_cases hty : fl.type = .unlck
    · rw [DentFileLocks.use, if_neg (by simp [hty]), hused]
      exact hd.other
    · rw [← hfam hty, use_used_other, hused, hfam hty]
      exact hd.other
  · intro _
    by_cases hty : fl.type = .unlck
    · rw [DentFileLocks.use, if_neg (by simp [hty]), hused]
      exact hd.used (hne hty)
    · rw [← hfam hty]
      exact use_used_self hty d'
  · rwa [hu1, hu2]
  · rwa [hu2]

variable {added wait : Bool}

/-- **`file_lock_set_or_add_request` on an existing object.** -/
theorem setOrAdd_spec {ret : Ret} (hd : DentOk fam d) (hstored : t.fileLocks dent = some d)
    (hv : fl.Valid) (hne : fl.type = .unlck → d.NonEmpty)
    (he : setOrAdd alloc t dent d fl wait = .ok (t', ret, added)) :
    ∃ d' new, SetSpec t dent d fl added t' d' new := by
  unfold setOrAdd at he
  split at he
  · cases he
    exact ⟨d, [], .unchanged hd hstored t.mallocs⟩
  -- a lock that is not refused is of the dentry's family
  have hfam : fl.type ≠ .unlck → DentOk fl.family d := by
    intro hty
    refine hd.of_unused ?_
    cases hf : fl.family <;> cases hu : d.used fl.family.other <;>
      simp_all [Family.other, DentFileLocks.used]
  split at he
  · rename_i hconf
    split at he
    · cases he
      exact ⟨d, [], .unchanged hd hstored t.mallocs⟩
    split at he
    · cases he
      exact ⟨d, [], .unchanged hd hstored _⟩
    cases he
    have hdf := hfam hconf.1
    refine ⟨_, [], rfl, rfl, by simp [Table.put], ⟨fl.family, ?_, ?_, ?_, ?_, ?_⟩, ?_, ?_⟩
    · rw [use_used_other]
      exact hdf.other
    · intro _
      exact use_used_self hconf.1 _
    · rw [(use_fileLocks _ _).1]
      exact hdf.locks
    · rw [(use_fileLocks _ _).2]
      intro r hr
      rcases mem_cons.mp hr with rfl | hr
      · exact ⟨rfl, hconf.1, hv⟩
      · exact hdf.requests r hr
    · rw [(use_fileLocks _ _).1, (use_fileLocks _ _).2]
      intro r hr
      rcases mem_cons.mp hr with rfl | hr
      · exact findConflict_isSome.mp hconf.2
      · exact hdf.pending r hr
    · rw [(use_fileLocks _ _).2]
      exact fun r hr => .inl (mem_cons_of_mem _ hr)
    · rw [(use_fileLocks _ _).2]
      exact fun _ => rfl
  · rename_i hconf
    have hfree : fl.type ≠ .unlck → ∀ cur ∈ d.fileLocks, ¬ Conflict fl cur := by
      intro hty cur hcur hc
      exact hconf ⟨hty, findConflict_isSome.mpr ⟨cur, hcur, hc⟩⟩
    -- a lock that is removed may be of either family, and then the dentry's stays
    obtain ⟨fam', hd', hfam', hlock⟩ : ∃ fam', DentOk fam' d ∧
        (fl.type ≠ .unlck → fl.family = fam') ∧ (fl.family ≠ fam' → fl.type = .unlck) := by
      by_cases hty : fl.type = .unlck
      · exact ⟨fam, hd, fun h => absurd hty h, fun _ => hty⟩
      · exact ⟨fl.family, hfam hty, fun _ => rfl, fun h => absurd rfl h⟩
    split at he
    · cases he
      exact ⟨d, [], .unchanged hd hstored _⟩
    rename_i n locks hset
    obtain ⟨⟨_, _, _⟩, hp, he⟩ := bind_eq_ok.1 he
    cases he
    exact ⟨_, _, .set hd' (lockSet_locksOk hd'.locks hlock hv hfree hset) hfam' hne hp⟩

/-- The object changed by `setOrAdd`, collected if it is empty. -/
theorem SetSpec.gc {d' : DentFileLocks} {new : List Answer}
    (h : SetSpec t dent d fl added t' d' new) (lost : Request → Prop)
    (hok : t.OkBut (fun x => x = dent)) (hstored : t.fileLocks dent = some d) :
    (t'.dentFileLocksGc dent).Ok ∧ Keeps lost t (t'.dentFileLocksGc dent) ∧
      (added = true → (t'.dentFileLocksGc dent).fileLocks dent = some d') := by
  obtain ⟨fam, hd'⟩ := h.ok
  have hok' : t'.OkBut (fun x => x = dent) :=
    hok.put (fun _ _ h => h) hstored hd' (absurd rfl) h.stored h.list
  refine ⟨hok'.gc, Keeps.gc (Keeps.put hstored h.stored h.answers fun r hr =>
    (h.requests r hr).imp_right .inl), fun ha => ?_⟩
  have hs : t'.fileLocks dent = some d' := by
    rw [h.stored]
    exact update_self ..
  simp only [dentFileLocksGc, hs]
  rwa [if_neg (by rw [h.added ha]; simp)]

theorem withObject_stored : (t.withObject dent).fileLocks dent = some ⟨false, false, [], []⟩ := by
  simp [withObject, Table.put]

theorem withObject_other {x : Dent} (h : x ≠ dent) :
    (t.withObject dent).fileLocks x = t.fileLocks x := by
  simp [withObject, Table.put, h]

theorem OkBut.withObject (hok : t.Ok) (hd : t.fileLocks dent = none) :
    (t.withObject dent).OkBut (fun x => x = dent) := by
  have hnot : dent ∉ t.list := fun hmem => (hok.mem dent).1 hmem hd
  refine hok.update (fun _ _ => False.elim) rfl ?_ (nodup_cons.2 ⟨hnot, hok.nodup⟩) ?_ ?_
  · rintro _ ⟨⟩
    exact ⟨⟨.posix, .empty _⟩, absurd rfl⟩
  · simp [Table.withObject]
  · intro x hx
    simp [Table.withObject, hx]

/-- **`file_lock_set_or_add_request`.** -/
theorem fileLockSetOrAddRequest_spec {ret : Ret} (hok : t.Ok) (hv : fl.Valid)
    (he : fileLockSetOrAddRequest alloc t dent fl wait = .ok (t', ret, added)) :
    t'.Ok ∧ Keeps (fun _ => False) t t' ∧ (added = true → ∃ d rest,
      t'.fileLocks dent = some d ∧ d.fileLockRequests = ⟨fl, none⟩ :: rest ∧
        ∀ r, t.Pending dent r → r ∈ rest) := by
  unfold fileLockSetOrAddRequest findDentFileLocks at he
  cases hd : t.fileLocks dent with
  | some d =>
    simp only [hd] at he
    obtain ⟨⟨t1, ret1, added1⟩, hs, he⟩ := bind_eq_ok.1 he
    cases he
    obtain ⟨fam, hfam⟩ := hok.dent dent d hd
    obtain ⟨d', new, hspec⟩ := setOrAdd_spec hfam hd hv
      (fun _ => hok.nonEmpty dent d not_false hd) hs
    obtain ⟨h1, h2, h3⟩ := hspec.gc _ (hok.but _) hd
    refine ⟨h1, h2, fun ha => ⟨d', _, h3 ha, hspec.added ha, ?_⟩⟩
    rintro r ⟨dx, hx, hr⟩
    cases hd.symm.trans hx
    exact hr
  | none =>
    have hnone : ∀ r, ¬ t.Pending dent r := by
      rintro r ⟨dx, hx, -⟩
      cases hd.symm.trans hx
    by_cases hty : fl.type = .unlck
    · simp only [hd, hty] at he
      cases he
      exact ⟨hok, .refl _ _, by simp⟩
    simp only [hd, hty, ne_eq] at he
    cases ha : alloc t.mallocs with
    | false =>
      simp only [ha] at he
      cases he
      refine ⟨⟨hok.dent, hok.nonEmpty, hok.nodup, hok.mem⟩, ⟨[], by simp, ?_⟩, by simp⟩
      exact fun x r hr => .inl hr
    | true =>
      simp only [ha] at he
      obtain ⟨⟨t1, ret1, added1⟩, hs, he⟩ := bind_eq_ok.1 he
      cases he
      obtain ⟨d', new, hspec⟩ := setOrAdd_spec (DentOk.empty .posix) withObject_stored hv
        (fun h => absurd h hty) hs
      obtain ⟨h1, ⟨new', ha', hk⟩, h3⟩ := hspec.gc (fun _ => False)
        (OkBut.withObject hok hd) withObject_stored
      refine ⟨h1, ⟨new', ha', fun x r hr => hk x r ?_⟩, fun ha => ⟨d', _, h3 ha,
        hspec.added ha, fun r hr => absurd hr (hnone r)⟩⟩
      have hxd : x ≠ dent := by
        rintro rfl
        exact hnone r hr
      obtain ⟨dx, hx, hrx⟩ := hr
      exact ⟨dx, by rwa [withObject_other hxd], hrx⟩

/-- Filling in `notify` of the newest request. -/
theorem setNotify_spec {r : Request} {rest : List Request} (nt : Notify) (hok : t.Ok)
    (hd : t.fileLocks dent = some d) (hr : d.fileLockRequests = r :: rest) :
    (t.setNotify dent nt).Ok ∧ (t.setNotify dent nt).answers = t.answers ∧
      (∀ x k, x ≠ dent → t.Pending x k → (t.setNotify dent nt).Pending x k) ∧
      ∀ k ∈ rest, (t.setNotify dent nt).Pending dent k := by
  obtain ⟨posixUsed, flockUsed, locks, _⟩ := d
  subst hr
  have he : t.setNotify dent nt =
      t.put dent ⟨posixUsed, flockUsed, locks, { r with notify := some nt } :: rest⟩ := by
    simp [setNotify, hd]
  rw [he]
  obtain ⟨fam, hfam⟩ := hok.dent dent _ hd
  have hfam' : DentOk fam ⟨posixUsed, flockUsed, locks, { r with notify := some nt } :: rest⟩ := by
    refine ⟨hfam.other, fun _ => hfam.used (.inr (by simp)), hfam.locks, ?_, ?_⟩
    · intro k hk
      rcases mem_cons.mp hk with rfl | hk
      · have := hfam.requests r mem_cons_self
        exact ⟨this.family, this.type, this.valid⟩
      · exact hfam.requests k (mem_cons_of_mem _ hk)
    · intro k hk
      rcases mem_cons.mp hk with rfl | hk
      · exact hfam.pending r mem_cons_self
      · exact hfam.pending k (mem_cons_of_mem _ hk)
  refine ⟨hok.put (fun _ _ => id) hd hfam' (fun _ => .inr (by simp)) rfl rfl, rfl, ?_, ?_⟩
  · rintro x k hxd ⟨dx, hx, hk⟩
    exact ⟨dx, by simpa [Table.put, hxd] using hx, hk⟩
  · intro k hk
    exact ⟨_, update_self .., mem_cons_of_mem _ hk⟩

/-- The request added by a call is given its `notify`, and no other one is lost. -/
theorem Keeps.setNotify {t1 : Table Dent} {rest : List Request} (nt : Notify)
    (hok : t1.Ok) (hk : Keeps (fun _ => False) t t1)
    (hd : t1.fileLocks dent = some d) (hr : d.fileLockRequests = ⟨fl, none⟩ :: rest)
    (hrest : ∀ r, t.Pending dent r → r ∈ rest) :
    (t1.setNotify dent nt).Ok ∧ Keeps (fun _ => False) t (t1.setNotify dent nt) := by
  obtain ⟨h1, h2, h3, h4⟩ := setNotify_spec nt hok hd hr
  obtain ⟨new, ha, hk⟩ := hk
  refine ⟨h1, new, by rw [h2, ha], fun x r hr => ?_⟩
  by_cases hxd : x = dent
  · subst hxd
    exact .inl (h4 r (hrest r hr))
  · exact (hk x r hr).imp_left (h3 x r hxd)

theorem fileLockSet_spec {event : Option Nat} {o : Outcome} (hok : t.Ok) (hv : fl.Valid)
    (he : fileLockSet alloc t dent fl wait event = .ok (t', o)) :
    t'.Ok ∧ Keeps (fun _ => False) t t' := by
  obtain ⟨⟨t1, ret, added⟩, hs, he⟩ := bind_eq_ok.1 he
  obtain ⟨h1, h2, h3⟩ := fileLockSetOrAddRequest_spec hok hv hs
  dsimp only at he
  split at he
  · cases he
    exact ⟨h1, h2⟩
  split at he
  · rename_i hadd
    obtain ⟨d, rest, hd, hr, hrest⟩ := h3 hadd
    cases event with
    | none =>
      cases he
      exact ⟨h1, h2⟩
    | some ev =>
      cases he
      exact h2.setNotify _ h1 hd hr hrest
  · cases he
    exact ⟨h1, h2⟩

omit [DecidableEq Dent] in
theorem Keeps.answer {lost : Request → Prop} {t1 : Table Dent} (hk : Keeps lost t t1)
    (a : Answer) : Keeps lost t { t1 with answers := t1.answers ++ [a] } := by
  obtain ⟨new, ha, hk⟩ := hk
  refine ⟨new ++ [a], by simp [ha], fun x r hr => ?_⟩
  refine (hk x r hr).imp id (Or.imp_left ?_)
  rintro ⟨nt, res, h1, h2⟩
  exact ⟨nt, res, h1, mem_append_left _ h2⟩

theorem fileLockSetFromIpc_spec {dent : Option Dent} {vmid seq : Nat} (hok : t.Ok) (hv : fl.Valid)
    (he : fileLockSetFromIpc alloc t dent fl wait vmid seq = .ok t') :
    t'.Ok ∧ Keeps (fun _ => False) t t' := by
  cases dent with
  | none =>
    cases he
    exact ⟨⟨hok.dent, hok.nonEmpty, hok.nodup, hok.mem⟩, (Keeps.refl _ t).answer _⟩
  | some dent =>
    obtain ⟨⟨t1, ret, added⟩, hs, he⟩ := bind_eq_ok.1 he
    obtain ⟨h1, h2, h3⟩ := fileLockSetOrAddRequest_spec hok hv hs
    dsimp only at he
    split at he
    · rename_i hadd
      obtain ⟨d, rest, hd, hr, hrest⟩ := h3 hadd
      cases he
      exact h2.setNotify _ h1 hd hr hrest
    · cases he
      exact ⟨⟨h1.dent, h1.nonEmpty, h1.nodup, h1.mem⟩, h2.answer _⟩

theorem fileLockGet_spec (hok : t.Ok) (fl : Lock) :
    (fileLockGet t dent fl).1.Ok ∧ Keeps (fun _ => False) t (fileLockGet t dent fl).1 := by
  unfold fileLockGet
  split
  · exact ⟨(hok.but _).gc, (Keeps.refl _ t).gc⟩
  · exact ⟨hok, .refl _ t⟩

/-- The request belongs to the process. -/
def Lost (pid : Nat) (r : Request) : Prop := ofPid pid r.fileLock = true

omit [DecidableEq Dent] in
theorem locks_ne_nil (h : DentOk fam d) (hne : d.NonEmpty) : d.fileLocks ≠ [] := by
  rcases hne with hne | hne
  · exact hne
  · obtain ⟨r, rest, hr⟩ := exists_cons_of_ne_nil hne
    obtain ⟨cur, hcur, -⟩ := h.pending r (by rw [hr]; exact mem_cons_self)
    exact ne_nil_of_mem hcur

/-- `file_lock_clear_pid_from_dentry`. -/
theorem fileLockClearPidFromDentry_spec {pid : Nat} (hok : t.Ok)
    (he : fileLockClearPidFromDentry alloc t dent pid = .ok t') :
    t'.Ok ∧ Keeps (Lost pid) t t' := by
  unfold fileLockClearPidFromDentry at he
  cases hd : t.fileLocks dent with
  | none =>
    simp only [hd] at he
    cases he
    exact ⟨hok, .refl _ t⟩
  | some d =>
    simp only [hd] at he
    split at he
    · cases he
    obtain ⟨fam, hfam⟩ := hok.dent dent d hd
    have hne := hok.nonEmpty dent d (by simp) hd
    have hreqs : ∀ r ∈ d.fileLockRequests,
        r ∈ d.fileLockRequests.filter (fun r => ! ofPid pid r.fileLock) ∨ Lost pid r := by
      intro r hr
      cases ho : ofPid pid r.fileLock with
      | true => exact .inr ho
      | false => exact .inl (mem_filter.mpr ⟨hr, by simp [ho]⟩)
    split at he
    · -- locks were removed: requests are processed
      obtain ⟨⟨_, d', _⟩, hp, he⟩ := bind_eq_ok.1 he
      cases he
      obtain ⟨hused, hlocks, hrok, hconf, hans⟩ := fileLockProcessRequests_spec
        (DentOk.sublocks hfam.locks filter_sublist)
        (fun r hr => hfam.requests r (mem_filter.mp hr).1) hp
      have hok' : DentOk fam d' :=
        ⟨hused ▸ hfam.other, fun _ => hused ▸ hfam.used hne, hlocks, hrok, hconf⟩
      refine ⟨OkBut.gc (hok.put (fun _ _ => False.elim) hd hok' (absurd rfl) rfl rfl),
        Keeps.gc (Keeps.put hd rfl rfl ?_)⟩
      intro r hr
      rcases hreqs r hr with hr | hr
      · exact (hans r hr).imp_right .inl
      · exact .inr (.inr hr)
    · -- no lock of the process: its requests waited for locks that stay
      rename_i hany
      cases he
      have hsame : d.fileLocks.filter (fun l => ! ofPid pid l) = d.fileLocks := by
        refine filter_eq_self.mpr fun l hl => ?_
        simp only [any_eq_true, not_exists, not_and] at hany
        simp [hany l hl]
      rw [hsame]
      have hlocks := locks_ne_nil hfam hne
      have hok' : DentOk fam { d with
          fileLocks := d.fileLocks
          fileLockRequests := d.fileLockRequests.filter (fun r => ! ofPid pid r.fileLock) } :=
        ⟨hfam.other, fun _ => hfam.used hne, hfam.locks,
          fun r hr => hfam.requests r (mem_filter.mp hr).1,
          fun r hr => hfam.pending r (mem_filter.mp hr).1⟩
      refine ⟨hok.put (fun _ _ => id) hd hok' (fun _ => .inl hlocks) rfl rfl,
        Keeps.put hd rfl (append_nil _).symm ?_⟩
      intro r hr
      exact (hreqs r hr).imp_right .inr

/-- `file_lock_clear_pid` in the leader. -/
theorem clearPidLoop_spec {pid : Nat} {dents : List Dent} (hok : t.Ok)
    (he : clearPidLoop alloc pid dents t = .ok t') : t'.Ok ∧ Keeps (Lost pid) t t' := by
  induction dents generalizing t with
  | nil =>
    cases he
    exact ⟨hok, .refl _ _⟩
  | cons dent rest ih =>
    obtain ⟨t1, hs, he⟩ := bind_eq_ok.1 he
    obtain ⟨h1, h2⟩ := fileLockClearPidFromDentry_spec hok hs
    obtain ⟨h3, h4⟩ := ih h1 he
    exact ⟨h3, h2.trans h4⟩

end Calls

/-! ## Runs -/

/-- The calls the leader processes: its own, and those that arrive over IPC. -/
inductive Call (Dent : Type)
  | set (dent : Dent) (fl : Lock) (wait : Bool) (event : Option Nat)
  | setFromIpc (dent : Option Dent) (fl : Lock) (wait : Bool) (vmid seq : Nat)
  | get (dent : Dent) (fl : Lock)
  | clearPid (pid : Nat)

/-- The ranges are ranges. -/
def Call.Valid : Call Dent → Prop
  | .set _ fl _ _ => fl.Valid
  | .setFromIpc _ fl _ _ _ => fl.Valid
  | .get _ fl => fl.Valid
  | .clearPid _ => True

/-- Process one call. -/
def exec (alloc : Nat → Bool) (t : Table Dent) : Call Dent → Except Fault (Table Dent)
  | .set dent fl wait event => (fileLockSet alloc t dent fl wait event).map Prod.fst
  | .setFromIpc dent fl wait vmid seq => fileLockSetFromIpc alloc t dent fl wait vmid seq
  | .get dent fl => pure (fileLockGet t dent fl).1
  | .clearPid pid => fileLockClearPid alloc t pid

/-- One call of a run. -/
def Step (alloc : Nat → Bool) (t : Table Dent) (c : Call Dent) (t' : Table Dent) : Prop :=
  c.Valid ∧ exec alloc t c = .ok t'

/-- The tables of all runs from the empty one. -/
def Reachable (alloc : Nat → Bool) (t : Table Dent) : Prop :=
  Transition.Reachable (fun t => t = initial) (Step alloc) t

/-- The requests a call may remove without an answer. -/
def Call.Loses : Call Dent → Request → Prop
  | .clearPid pid, r => Lost pid r
  | _, _ => False

variable {alloc : Nat → Bool} {t : Table Dent}

/-- **One call keeps the table in order and loses no request.** -/
theorem Ok.step {t' : Table Dent} {c : Call Dent} (hok : t.Ok) (hs : Step alloc t c t') :
    t'.Ok ∧ Keeps c.Loses t t' := by
  obtain ⟨hv, he⟩ := hs
  cases c with
  | set dent fl wait event =>
    rw [exec] at he
    cases hset : fileLockSet alloc t dent fl wait event with
    | error f =>
      rw [hset] at he
      cases he
    | ok res =>
      rw [hset] at he
      cases he
      exact fileLockSet_spec hok hv hset
  | setFromIpc dent fl wait vmid seq => exact fileLockSetFromIpc_spec hok hv he
  | get dent fl =>
    cases he
    exact fileLockGet_spec hok fl
  | clearPid pid => exact clearPidLoop_spec hok he

omit [DecidableEq Dent] in
theorem ok_initial : (initial : Table Dent).Ok :=
  ⟨by simp [initial], by simp [initial], .nil, by simp [initial]⟩

theorem Reachable.ok (hr : Reachable alloc t) : t.Ok :=
  Transition.Reachable.invariant (fun _ h => h ▸ ok_initial) (fun _ _ _ h hs => (h.step hs).1) hr

/-- The locks held on a dentry. -/
def held (t : Table Dent) (dent : Dent) : List Lock :=
  match t.fileLocks dent with
  | some d => d.fileLocks
  | none => []

/-- The requests that wait on a dentry. -/
def waiting (t : Table Dent) (dent : Dent) : List Request :=
  match t.fileLocks dent with
  | some d => d.fileLockRequests
  | none => []

instance (fl : Lock) : Decidable fl.Valid :=
  decidable_of_iff (fl.start ≤ fl.stop ∧ fl.stop ≤ fsLockEof)
    ⟨fun h => ⟨h.1, h.2⟩, fun h => ⟨h.range, h.eof⟩⟩

instance (c : Call Dent) : Decidable c.Valid := by
  cases c <;> unfold Call.Valid <;> infer_instance

/-- Process the given calls in order. -/
def run (alloc : Nat → Bool) (t : Table Dent) : List (Call Dent) → Option (Table Dent)
  | [] => some t
  | c :: cs =>
    if c.Valid then
      match exec alloc t c with
      | .ok t' => run alloc t' cs
      | .error _ => none
    else none

theorem Reachable.run {t' : Table Dent} {cs : List (Call Dent)} (hr : Reachable alloc t)
    (h : t.run alloc cs = some t') : Reachable alloc t' := by
  induction cs generalizing t with
  | nil =>
    cases h
    exact hr
  | cons c cs ih =>
    rw [Table.run] at h
    split at h
    · rename_i hv
      cases he : exec alloc t c with
      | error f => simp [he] at h
      | ok t1 => exact ih (.step c hr ⟨hv, he⟩) (by simpa [he] using h)
    · cases h

/-- **The invariant of the file-lock table**, in every run, whichever allocations
fail. No two held locks conflict; the POSIX locks of a dentry are sorted by PID
and start, and those of one PID are disjoint, with a gap between locks of one type;
every request that waits conflicts with a held lock, and none leaves without an
answer, other than with its process; POSIX and flock locks are not mixed; and a
dentry has an object exactly when it has a lock or a request. -/
theorem table_invariant {alloc : Nat → Bool} {t : Table Dent} (hr : Reachable alloc t) :
    (∀ dent, ∀ a ∈ t.held dent, ∀ b ∈ t.held dent, ¬ Conflict a b) ∧
    (∀ dent, (t.held dent).Pairwise fun a b => a.family = .posix → b.family = .posix →
      a.pid < b.pid ∨ (a.pid = b.pid ∧ a.start < b.start ∧ a.stop < b.start ∧
        (a.type = b.type → a.stop + 1 < b.start))) ∧
    (∀ dent, ∀ r ∈ t.waiting dent, ∃ l ∈ t.held dent, Conflict r.fileLock l) ∧
    (∀ c t', Step alloc t c t' → Keeps c.Loses t t') ∧
    (∀ dent, ∀ a ∈ t.held dent, ∀ b ∈ t.held dent, a.family = b.family) ∧
    ∀ dent, t.fileLocks dent ≠ none ↔ t.held dent ≠ [] ∨ t.waiting dent ≠ [] := by
  have hok := hr.ok
  have hdent : ∀ dent, ∃ fam, LocksOk fam (t.held dent) ∧
      ∀ r ∈ t.waiting dent, ∃ l ∈ t.held dent, Conflict r.fileLock l := by
    intro dent
    unfold held waiting
    cases hd : t.fileLocks dent with
    | none => exact ⟨.posix, .nil _, by simp⟩
    | some d =>
      obtain ⟨fam, hfam⟩ := hok.dent dent d hd
      exact ⟨fam, hfam.locks, hfam.pending⟩
  refine ⟨fun dent => ?_, fun dent => ?_, fun dent => ?_, fun c t' hs => (hok.step hs).2,
    fun dent a ha b hb => ?_, fun dent => ?_⟩
  · obtain ⟨fam, hl, -⟩ := hdent dent
    exact hl.noConflict
  · obtain ⟨fam, hl, -⟩ := hdent dent
    cases fam with
    | flock =>
      refine (hl.flock rfl).imp_of_mem fun ha _ _ hp => ?_
      rw [hl.family _ ha] at hp
      cases hp
    | posix =>
      refine (hl.posix rfl).2.imp_of_mem fun {a b} ha _ hab _ _ => ?_
      have hra := ((hl.posix rfl).1 a ha).range
      refine hab.imp_right ?_
      rintro ⟨hp, hlt⟩
      refine ⟨hp, by omega, by omega, fun ht => ?_⟩
      rwa [show sep 1 a b = 1 from if_pos ht] at hlt
  · obtain ⟨fam, -, hw⟩ := hdent dent
    exact hw
  · obtain ⟨_, hl, -⟩ := hdent dent
    rw [hl.family a ha, hl.family b hb]
  unfold held waiting
  cases hd : t.fileLocks dent with
  | none => simp
  | some d =>
    have := hok.nonEmpty dent d (by simp) hd
    simpa [DentFileLocks.NonEmpty] using this

/-- A write lock is held by one process, and another one waits for a part of it. -/
theorem table_invariant_contended : ∃ t : Table Unit, (t.waiting ()).length = 1 ∧
    ∀ r ∈ t.waiting (), ∃ l ∈ t.held (), Conflict r.fileLock l := by
  have hrun : ((initial.run (fun _ => true)
      [.setFromIpc (some ()) ⟨.posix, .wrlck, 0, 9, 1, 0⟩ false 1 1,
        .setFromIpc (some ()) ⟨.posix, .rdlck, 5, fsLockEof, 2, 0⟩ true 2 1]).map
        fun t : Table Unit => (t.waiting ()).length) = some 1 := by decide
  obtain ⟨t, ht, hlen⟩ := Option.map_eq_some_iff.mp hrun
  exact ⟨t, hlen, (table_invariant (Reachable.run (.init rfl) ht)).2.2.1 ()⟩

end Table

end FileLock
