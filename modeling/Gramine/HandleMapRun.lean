import Gramine.HandleMap
import Gramine.Transition

/-!
# File descriptors over whole runs

What each operation does to what is installed, and what any sequence of them does. The
results are about the view of the map, in which free slots, the size of the table and
`fd_top` do not show.
-/

open List Function

namespace HandleMap

variable {H : Type} {env : Env} {m m' : Table H} {map : List (Option (FdHandle H))} {fd i : Nat}

/-! ## Detaching -/

theorem lowerTop_isTop {vfd : Nat} (hfree : ∀ fd, vfd ≤ fd → allocated map fd = false) :
    IsTop map (lowerTop map vfd) := by
  induction vfd with
  | zero => exact .inl ⟨rfl, fun fd => hfree fd (Nat.zero_le fd)⟩
  | succ vfd ih =>
    rw [lowerTop]
    split_ifs with halloc
    · refine .inr ⟨halloc, fun fd hfd => ?_⟩
      by_contra hgt
      rw [hfree fd (by omega)] at hfd
      cases hfd
    · refine ih fun fd hfd => ?_
      rcases Nat.eq_or_lt_of_le hfd with rfl | hlt
      · simpa using halloc
      · exact hfree fd hlt

/-- `__detach_fd_handle` takes away one entry. -/
theorem Inv.detachEntry (h : Inv m) (fd : Nat) :
    Inv (detachEntry m fd).2 ∧ (HandleMap.detachEntry m fd).1 = view m.map fd ∧
      (HandleMap.detachEntry m fd).2.map.length = m.map.length ∧
      ∀ i, view (HandleMap.detachEntry m fd).2.map i =
        if i = fd then none else view m.map i := by
  have hnone : view m.map fd = none →
      ∀ i, view m.map i = if i = fd then none else view m.map i := by
    intro hview i
    split_ifs with hi
    · rw [hi, hview]
    · rfl
  unfold HandleMap.detachEntry
  cases he : entry m.map fd with
  | none =>
    have hview : view m.map fd = none := by rw [view, he]
    exact ⟨h, hview.symm, rfl, hnone hview⟩
  | some x =>
    dsimp only
    by_cases hnull : x.vfd = fdNull
    · have hview : view m.map fd = none := by rw [view, he]; simp [hnull]
      rw [if_neg (not_not.2 hnull)]
      exact ⟨h, hview.symm, rfl, hnone hview⟩
    rw [if_pos hnull]
    have hfd := lt_length_of_entry he
    obtain ⟨rfl, -⟩ := h.own fd x he hnull
    have halloc : allocated m.map x.vfd = true := by simp [allocated, he, hnull]
    set map' := m.map.set x.vfd (some ⟨fdNull, false, none⟩) with hmap'
    have hentry : ∀ i, entry map' i = if i = x.vfd then some ⟨fdNull, false, none⟩
        else entry m.map i := fun i => entry_set hfd
    have halloc' : ∀ i, allocated map' i = if i = x.vfd then false else allocated m.map i := by
      intro i
      rw [allocated, hentry]
      split_ifs with hi <;> rfl
    have hlength : map'.length = m.map.length := length_set
    refine ⟨⟨fun i y hy hy' => ?_, ?_, hlength ▸ h.size⟩, ?_, hlength, fun i => ?_⟩
    · rw [hentry] at hy
      split_ifs at hy with hi
      · cases hy
        exact absurd rfl hy'
      · exact h.own i y hy hy'
    · split_ifs with htop
      · -- the largest number is gone: those from it on are free
        refine lowerTop_isTop fun i hi => ?_
        rw [halloc']
        split_ifs with heq
        · rfl
        · by_contra hne
          have := (h.of_allocated (Bool.not_eq_false _ ▸ hne : allocated m.map i = true)).2
          omega
      · obtain ⟨_, hmax, -⟩ := h.fdTop_lt (h.of_allocated halloc).1
        refine .inr ⟨?_, fun i hi => ?_⟩
        · rwa [halloc', if_neg (Ne.symm htop)]
        · rw [halloc'] at hi
          split_ifs at hi with heq
          exact hmax i hi
    · simp [view, he, hnull]
    · rw [view, hentry]
      split_ifs with hi <;> rfl

/-- `detach_fd_handle`: a number beyond the table has nothing installed. -/
theorem Inv.detachFdHandle (h : Inv m) (fd : Nat) :
    Inv (detachFdHandle m fd).2 ∧ (HandleMap.detachFdHandle m fd).1 = view m.map fd ∧
      ∀ i, view (HandleMap.detachFdHandle m fd).2.map i =
        if i = fd then none else view m.map i := by
  unfold HandleMap.detachFdHandle
  split_ifs with hfd
  · obtain ⟨hinv, hret, -, hview⟩ := h.detachEntry fd
    exact ⟨hinv, hret, hview⟩
  have hview : view m.map fd = none := by
    rw [h.view_eq_none]
    by_contra halloc
    exact hfd (lt_length_of_allocated (by simpa using halloc))
  refine ⟨h, hview.symm, fun i => ?_⟩
  split_ifs with hi
  · rw [hi, hview]
  · rfl

/-- What is left when the numbers from `i` on have been looked at. -/
def sweep (p : Bool → Bool) (i fd : Nat) (x : Option (H × Bool)) : Option (H × Bool) :=
  x.filter fun x => decide (fd < i) || !p x.2

variable {p : Bool → Bool}

theorem sweep_of_lt (h : fd < i) (x : Option (H × Bool)) : sweep p i fd x = x := by
  cases x <;> simp [sweep, h]

theorem sweep_succ (h : fd ≠ i) (x : Option (H × Bool)) :
    sweep p (i + 1) fd x = sweep p i fd x := by
  have hlt : fd < i + 1 ↔ fd < i := by omega
  rw [sweep, sweep]
  simp [hlt]

theorem Inv.detachFrom {fuel : Nat} (h : Inv m) (hfuel : m.map.length ≤ i + fuel) :
    Inv (detachFrom p m i fuel) ∧
      ∀ fd, view (HandleMap.detachFrom p m i fuel).map fd = sweep p i fd (view m.map fd) := by
  -- the loop ends: nothing is installed from `i` on
  have hdone : ∀ (m : Table H) i, (∀ fd, i ≤ fd → view m.map fd = none) →
      ∀ fd, view m.map fd = sweep p i fd (view m.map fd) := by
    intro m i hnone fd
    by_cases hi : fd < i
    · rw [sweep_of_lt hi]
    · rw [hnone fd (Nat.le_of_not_lt hi)]
      rfl
  induction fuel generalizing m i with
  | zero =>
    refine ⟨h, hdone m i fun fd hfd => ?_⟩
    rw [h.view_eq_none, Bool.eq_false_iff]
    intro halloc
    have := lt_length_of_allocated halloc
    omega
  | succ fuel ih =>
    rw [HandleMap.detachFrom]
    have hfuel' : m.map.length ≤ i + 1 + fuel := by omega
    split_ifs with htop
    · -- a round that detaches nothing
      have hskip : (∀ x, view m.map i = some x → p x.2 = false) →
          Inv (HandleMap.detachFrom p m (i + 1) fuel) ∧
          ∀ fd, view (HandleMap.detachFrom p m (i + 1) fuel).map fd =
            sweep p i fd (view m.map fd) := by
        intro hkeep
        obtain ⟨hinv, hview⟩ := ih h hfuel'
        refine ⟨hinv, fun fd => (hview fd).trans ?_⟩
        by_cases hfd : fd = i
        · subst hfd
          cases hx : view m.map fd with
          | none => rfl
          | some x => simp [sweep, Option.filter_some, hkeep x hx]
        · exact sweep_succ hfd _
      cases he : entry m.map i with
      | none =>
        refine hskip fun x hx => ?_
        rw [view, he] at hx
        cases hx
      | some x =>
        dsimp only
        split_ifs with hp
        · obtain ⟨hinv, -, hlength, hview⟩ := h.detachEntry i
          obtain ⟨hinv', hview'⟩ := ih hinv (hlength ▸ hfuel')
          refine ⟨hinv', fun fd => (hview' fd).trans ?_⟩
          rw [hview fd]
          split_ifs with hfd
          · subst hfd
            obtain ⟨-, hhandle⟩ := h.own fd x he hp.1
            obtain ⟨hdl, hhdl⟩ := Option.isSome_iff_exists.1 hhandle
            simp [sweep, Option.filter_some, view, he, hp.1, hp.2, hhdl]
          · exact sweep_succ hfd _
        · refine hskip fun y hy => ?_
          rw [view, he] at hy
          by_cases hnull : x.vfd = fdNull
          · simp [hnull] at hy
          · have hy : x.handle.map (·, x.cloexec) = some y := by simpa [hnull] using hy
            obtain ⟨-, -, rfl⟩ := Option.map_eq_some_iff.1 hy
            simpa [hnull] using hp
    · refine ⟨h, hdone m i fun fd hfd => ?_⟩
      rw [h.view_eq_none, Bool.eq_false_iff]
      intro halloc
      obtain ⟨hnull, hle⟩ := h.of_allocated halloc
      exact htop ⟨hnull, Nat.le_trans hfd hle⟩

/-! ## Installing -/

/-- The search ends at a number that is not in use, and has passed only numbers in use. -/
theorem findFree_spec (map : List (Option (FdHandle H))) (fdTop fd : Nat) :
    fd ≤ findFree map fdTop fd ∧
    (∀ k, fd ≤ k → k < findFree map fdTop fd → allocated map k = true) ∧
    ¬ (findFree map fdTop fd ≤ fdTop ∧ allocated map (findFree map fdTop fd) = true) := by
  fun_induction findFree map fdTop fd with
  | case1 fd h ih =>
    obtain ⟨_, hused, hfree⟩ := ih
    refine ⟨by omega, fun k hk hlt => ?_, hfree⟩
    rcases Nat.eq_or_lt_of_le hk with rfl | hgt
    · exact h.2
    · exact hused k hgt hlt
  | case2 fd h => exact ⟨Nat.le_refl fd, fun k hk hlt => by omega, h⟩

/-- The doubling ends above `fd`, and does not overflow for numbers below `2 ^ 31`. -/
theorem growSize_spec (fd newSize : Nat) (hpos : 0 < newSize) (hsize : newSize < 2 ^ 32) :
    (∀ size, growSize fd newSize hpos = some size → fd < size ∧ size < 2 ^ 32) ∧
    (fd < 2 ^ 31 → growSize fd newSize hpos ≠ none) := by
  fun_induction growSize fd newSize hpos with
  | case1 newSize hpos hle hlt ih => exact ih hlt
  | case2 newSize hpos hle hge => exact ⟨by simp, fun hfd => by omega⟩
  | case3 newSize hpos hgt =>
    refine ⟨fun size h => ?_, by simp⟩
    cases h
    exact ⟨by omega, hsize⟩

/-- Entries are the same, and there is one for `fd`. -/
structure Longer (m m' : Table H) (fd : Nat) : Prop where
  entry : ∀ i, entry m'.map i = entry m.map i
  fdTop : m'.fdTop = m.fdTop
  room : fd < m'.map.length
  size : m'.map.length < 2 ^ 32

theorem startSize_lt (h : Inv m) : startSize m.map.length < 2 ^ 32 := by
  unfold startSize
  split_ifs
  · decide
  · exact h.size

theorem reserve_spec (h : Inv m) (hm : reserve env m fd = .ok m') : Longer m m' fd := by
  unfold reserve at hm
  split_ifs at hm with hlt
  · cases hm
    exact ⟨fun _ => rfl, rfl, hlt, h.size⟩
  cases hgrow : growSize fd (startSize m.map.length) (startSize_pos _) with
  | none =>
    rw [hgrow] at hm
    cases hm
  | some size =>
    rw [hgrow] at hm
    obtain ⟨hgt, hsize⟩ := (growSize_spec fd _ (startSize_pos _) (startSize_lt h)).1 size hgrow
    have hlonger : ¬ size ≤ m.map.length := by omega
    dsimp only at hm
    rw [enlargeHandleMap] at hm
    split_ifs at hm with hmemory
    cases hm
    have hlength : (m.map ++ List.replicate (size - m.map.length) none).length = size := by
      rw [length_append, length_replicate]
      omega
    exact ⟨fun i => entry_append_replicate, rfl, Nat.lt_of_lt_of_eq hgt hlength.symm,
      Nat.lt_of_le_of_lt (Nat.le_of_eq hlength) hsize⟩

/-- Memory aside, the array is made long enough for numbers below `2 ^ 31`. -/
theorem reserve_ok (h : Inv m) (hfd : fd < 2 ^ 31) (henv : env.mapMemory = true) :
    ∃ m', reserve env m fd = .ok m' := by
  unfold reserve
  split_ifs with hlt
  · exact ⟨m, rfl⟩
  have hgrow := (growSize_spec fd _ (startSize_pos _) (startSize_lt h)).2 hfd
  obtain ⟨size, hsize⟩ := Option.ne_none_iff_exists'.1 hgrow
  rw [hsize]
  dsimp only
  unfold enlargeHandleMap
  split_ifs <;> exact ⟨_, rfl⟩

variable {cloexec : Bool}

theorem Inv.fill {hdl : H} (h : Inv m) (hlonger : Longer m m' fd) :
    Inv ⟨m'.map.set fd (some ⟨fd, cloexec, some hdl⟩),
      if m'.fdTop = fdNull ∨ m'.fdTop < fd then fd else m'.fdTop⟩ ∧
    ∀ i, view (m'.map.set fd (some ⟨fd, cloexec, some hdl⟩)) i =
      if i = fd then some (hdl, cloexec) else view m.map i := by
  have hnull : fd ≠ fdNull := by
    have hroom := hlonger.room
    have hsize := hlonger.size
    rw [fdNull]
    omega
  have hentry : ∀ i, HandleMap.entry (m'.map.set fd (some ⟨fd, cloexec, some hdl⟩)) i =
      if i = fd then some ⟨fd, cloexec, some hdl⟩ else HandleMap.entry m.map i := by
    intro i
    rw [entry_set hlonger.room, hlonger.entry]
  have halloc : ∀ i, allocated (m'.map.set fd (some ⟨fd, cloexec, some hdl⟩)) i =
      if i = fd then true else allocated m.map i := by
    intro i
    rw [allocated, hentry]
    split_ifs with hi
    · simp [hnull]
    · rfl
  refine ⟨⟨fun i x hx hx' => ?_, .inr ?_, ?_⟩, fun i => ?_⟩
  · rw [hentry] at hx
    split_ifs at hx with hi
    · cases hx
      exact ⟨hi.symm, rfl⟩
    · exact h.own i x hx hx'
  · rw [hlonger.fdTop]
    dsimp only
    split_ifs with htop
    · refine ⟨by rw [halloc, if_pos rfl], fun i hi => ?_⟩
      rw [halloc] at hi
      split_ifs at hi with heq
      · exact Nat.le_of_eq heq
      · obtain ⟨_, _⟩ := h.of_allocated hi
        omega
    · rw [not_or] at htop
      obtain ⟨halloc', hmax, -⟩ := h.fdTop_lt htop.1
      refine ⟨?_, fun i hi => ?_⟩
      · rw [halloc]
        split_ifs
        · rfl
        · exact halloc'
      · rw [halloc] at hi
        split_ifs at hi with heq
        · omega
        · exact hmax i hi
  · rw [length_set]
    exact hlonger.size
  rw [view, hentry]
  split_ifs with hi
  · simp [hnull]
  · rfl

theorem Inv.longer (h : Inv m) (hlonger : Longer m m' fd) :
    Inv m' ∧ ∀ i, view m'.map i = view m.map i := by
  have halloc : ∀ i, allocated m'.map i = allocated m.map i := fun i =>
    allocated_congr (hlonger.entry i)
  refine ⟨⟨fun i x hx => ?_, ?_, hlonger.size⟩, fun i => view_congr (hlonger.entry i)⟩
  · rw [hlonger.entry] at hx
    exact h.own i x hx
  · unfold IsTop
    simp only [halloc, hlonger.fdTop]
    exact h.top

theorem reserve_error {e : Errno} (h : reserve env m fd = .error e) : e ≠ .emfile := by
  rintro rfl
  unfold reserve at h
  split_ifs at h
  cases hgrow : growSize fd (startSize m.map.length) (startSize_pos _) with
  | none =>
    rw [hgrow] at h
    cases h
  | some size =>
    rw [hgrow] at h
    dsimp only at h
    unfold enlargeHandleMap at h
    split_ifs at h
    cases h

/-- What installing a handle at `fd` returns and does. -/
structure Installed (env : Env) (m : Table H) (fd : Nat) (hdl : H) (cloexec : Bool)
    (out : Except Errno Nat × Table H) : Prop where
  inv : Inv out.2
  view : (out.1 = .ok fd ∧
      ∀ i, view out.2.map i = if i = fd then some (hdl, cloexec) else view m.map i) ∨
    ((∃ e, out.1 = .error e) ∧ ∀ i, HandleMap.view out.2.map i = HandleMap.view m.map i)
  limit : out.1 = .error .emfile ↔ env.limit ≤ fd
  ok : fd < env.limit → fd < 2 ^ 31 → env.mapMemory = true → env.entryMemory = true →
    out.1 = .ok fd

/-- `__set_new_fd_handle` from the check of the limit on. -/
theorem Inv.install (h : Inv m) (fd : Nat) (hdl : H) (cloexec : Bool) :
    Installed env m fd hdl cloexec (install env m fd hdl cloexec) := by
  unfold HandleMap.install
  split_ifs with hlimit
  · exact ⟨h, .inr ⟨⟨_, rfl⟩, fun _ => rfl⟩, ⟨fun _ => hlimit, fun _ => rfl⟩, fun _ => by omega⟩
  cases hres : reserve env m fd with
  | error e =>
    refine ⟨h, .inr ⟨⟨_, rfl⟩, fun _ => rfl⟩, ⟨fun heq => ?_, fun hle => absurd hle hlimit⟩, ?_⟩
    · injection heq with heq
      exact absurd heq (reserve_error hres)
    · intro _ hfd hmap _
      obtain ⟨m', hm'⟩ := reserve_ok h hfd hmap
      cases hres.symm.trans hm'
  | ok m' =>
    have hlonger := reserve_spec h hres
    dsimp only
    unfold initHandle
    split_ifs with hentry
    · obtain ⟨hinv, hview⟩ := h.longer hlonger
      refine ⟨hinv, .inr ⟨⟨_, rfl⟩, hview⟩, ⟨fun heq => ?_, fun hle => absurd hle hlimit⟩, ?_⟩
      · cases heq
      · intro _ _ _ hmem
        exact absurd hmem hentry.2
    · obtain ⟨hinv, hview⟩ := h.fill hlonger
      refine ⟨hinv, .inl ⟨rfl, hview⟩, ⟨fun heq => ?_, fun hle => absurd hle hlimit⟩,
        fun _ _ _ _ => rfl⟩
      cases heq

/-- The smallest number from `fd` on with nothing installed. -/
def FirstFree (tbl : Nat → Option (H × Bool)) (fd n : Nat) : Prop :=
  fd ≤ n ∧ tbl n = none ∧ ∀ k, fd ≤ k → k < n → tbl k ≠ none

/-- `set_new_fd_handle_above_fd` takes the first number that is free. -/
theorem Inv.setAbove (env : Env) (h : Inv m) (fd : Nat) (hdl : H) (cloexec : Bool) :
    ∃ n, FirstFree (view m.map) fd n ∧
      Installed env m n hdl cloexec (setNewFdHandleCore env m fd hdl cloexec true) := by
  unfold setNewFdHandleCore
  by_cases htop : m.fdTop ≠ fdNull
  · rw [if_pos htop]
    obtain ⟨hle, hused, hfree⟩ := findFree_spec m.map m.fdTop fd
    refine ⟨findFree m.map m.fdTop fd, ⟨hle, ?_, fun k hk hlt => ?_⟩, h.install _ hdl cloexec⟩
    · rw [h.view_eq_none, Bool.eq_false_iff]
      exact fun halloc => hfree ⟨(h.of_allocated halloc).2, halloc⟩
    · rw [Ne, h.view_eq_none, hused k hk hlt]
      exact Bool.noConfusion
  · rw [if_neg htop]
    refine ⟨fd, ⟨Nat.le_refl fd, ?_, fun k hk hlt => by omega⟩, h.install _ hdl cloexec⟩
    rw [h.view_eq_none, Bool.eq_false_iff]
    exact fun halloc => htop (h.of_allocated halloc).1

/-- `set_new_fd_handle_by_fd` takes the number it is given, or none. -/
theorem Inv.setByFd (env : Env) (h : Inv m) (fd : Nat) (hdl : H) (cloexec : Bool) :
    (view m.map fd = none ∧
      Installed env m fd hdl cloexec (setNewFdHandleCore env m fd hdl cloexec false)) ∨
    (view m.map fd ≠ none ∧
      setNewFdHandleCore env m fd hdl cloexec false = (.error .ebadf, m)) := by
  unfold setNewFdHandleCore
  by_cases halloc : allocated m.map fd = true
  · obtain ⟨htop, hle⟩ := h.of_allocated halloc
    refine .inr ⟨fun hnone => ?_, ?_⟩
    · rw [h.view_eq_none, halloc] at hnone
      cases hnone
    · rw [if_pos htop, if_neg Bool.false_ne_true, if_pos ⟨hle, halloc⟩]
  · refine .inl ⟨h.view_eq_none.2 (by simpa using halloc), ?_⟩
    have hfree : ¬ (fd ≤ m.fdTop ∧ allocated m.map fd = true) := fun hboth => halloc hboth.2
    rw [if_neg Bool.false_ne_true, if_neg hfree, ite_self]
    exact h.install _ hdl cloexec

/-! ## Runs -/

inductive Op (H : Type)
  | setNewFdHandle (hdl : H) (cloexec : Bool)
  | setNewFdHandleByFd (fd : Nat) (hdl : H) (cloexec : Bool)
  | setNewFdHandleAboveFd (fd : Nat) (hdl : H) (cloexec : Bool)
  | detachFdHandle (fd : Nat)
  | detachAllFds
  | closeCloexecHandles

/-- What an operation returns. -/
inductive Ret (H : Type)
  | fd (r : Except Errno Nat)
  | handle (x : Option (H × Bool))
  | nothing

def exec (env : Env) (m : Table H) : Op H → Ret H × Table H
  | .setNewFdHandle hdl cloexec =>
    let out := setNewFdHandle env m hdl cloexec
    (.fd out.1, out.2)
  | .setNewFdHandleByFd fd hdl cloexec =>
    let out := setNewFdHandleByFd env m fd hdl cloexec
    (.fd out.1, out.2)
  | .setNewFdHandleAboveFd fd hdl cloexec =>
    let out := setNewFdHandleAboveFd env m fd hdl cloexec
    (.fd out.1, out.2)
  | .detachFdHandle fd =>
    let out := detachFdHandle m fd
    (.handle out.1, out.2)
  | .detachAllFds => (.nothing, detachAllFds m)
  | .closeCloexecHandles => (.nothing, closeCloexecHandles m)

/-- What is installed where: the history of the operations that succeeded. -/
abbrev Installs (H : Type) := Nat → Option (H × Bool)

/-- A handle is installed at the number that was returned. -/
def Installs.add (tbl : Installs H) (hdl : H) (cloexec : Bool) : Ret H → Installs H
  | .fd (.ok n) => update tbl n (some (hdl, cloexec))
  | _ => tbl

def Installs.apply (tbl : Installs H) (ret : Ret H) : Op H → Installs H
  | .setNewFdHandle hdl cloexec | .setNewFdHandleByFd _ hdl cloexec
  | .setNewFdHandleAboveFd _ hdl cloexec => tbl.add hdl cloexec ret
  | .detachFdHandle fd => update tbl fd none
  | .detachAllFds => fun _ => none
  | .closeCloexecHandles => fun fd => (tbl fd).filter fun x => !x.2

/-- The handle map, and what has been installed and not detached since. -/
def Initial (s : Table H × Installs H) : Prop :=
  ∃ size, size < 2 ^ 32 ∧ s = (getNewHandleMap size, fun _ => none)

def Step (s : Table H × Installs H) (label : Env × Op H) (s' : Table H × Installs H) : Prop :=
  s' = ((exec label.1 s.1 label.2).2, s.2.apply (exec label.1 s.1 label.2).1 label.2)

/-- The first free number from `fd` on, or an error: that there are too many exactly if it is
not below the limit. -/
def ReturnsAbove (env : Env) (tbl : Installs H) (fd : Nat) (r : Except Errno Nat) : Prop :=
  ∃ n, FirstFree tbl fd n ∧ (r = .ok n ∨ ∃ e, r = .error e) ∧ (r = .error .emfile ↔ env.limit ≤ n) ∧
    (n < env.limit → n < 2 ^ 31 → env.mapMemory = true → env.entryMemory = true → r = .ok n)

/-- What an operation may return. -/
def Returns (env : Env) (tbl : Installs H) : Op H → Ret H → Prop
  | .setNewFdHandle _ _, .fd r => ReturnsAbove env tbl 0 r
  | .setNewFdHandleAboveFd fd _ _, .fd r => ReturnsAbove env tbl fd r
  | .setNewFdHandleByFd fd _ _, .fd r => r = .ok fd ∧ tbl fd = none ∨ ∃ e, r = .error e
  | .detachFdHandle fd, .handle x => x = tbl fd
  | .detachAllFds, .nothing => True
  | .closeCloexecHandles, .nothing => True
  | _, _ => False

/-- The handle map represents what is installed. -/
structure Correct (m : Table H) (tbl : Installs H) : Prop where
  /-- `fd_top` is the largest number in use, or `FD_NULL`. -/
  top : (m.fdTop = fdNull ∧ ∀ fd, allocated m.map fd = false) ∨
    (m.fdTop ≠ fdNull ∧ allocated m.map m.fdTop = true ∧
      ∀ fd, allocated m.map fd = true → fd ≤ m.fdTop)
  /-- An entry in use is in the table, and has its own number. -/
  own : ∀ fd, allocated m.map fd = true →
    fd < m.map.length ∧ ∃ h, entry m.map fd = some h ∧ h.vfd = fd
  lookup : ∀ fd, getFdHandle m fd = tbl fd
  returns : ∀ env op, Returns env tbl op (exec env m op).1

/-- The map keeps its invariant, and represents what is installed. -/
def Rep (s : Table H × Installs H) : Prop := Inv s.1 ∧ ∀ fd, view s.1.map fd = s.2 fd

theorem Installed.rep {tbl : Installs H} {hdl : H} {n : Nat} {out : Except Errno Nat × Table H}
    (h : Installed env m n hdl cloexec out) (hview : ∀ fd, HandleMap.view m.map fd = tbl fd) :
    Rep (out.2, tbl.add hdl cloexec (.fd out.1)) := by
  refine ⟨h.inv, fun fd => ?_⟩
  rcases h.view with ⟨hret, hout⟩ | ⟨⟨_, hret⟩, hout⟩
  · rw [hout, hret]
    show _ = update tbl n (some (hdl, cloexec)) fd
    rw [update_apply, hview]
  · rw [hout, hret, hview]
    rfl

theorem detachFrom_rep (h : Inv m) (fd : Nat) :
    Inv (detachFrom p m 0 m.map.length) ∧ view (detachFrom p m 0 m.map.length).map fd =
      (view m.map fd).filter fun x => !p x.2 := by
  obtain ⟨hinv, hview⟩ := h.detachFrom (p := p) (i := 0) (Nat.le_add_left _ 0)
  refine ⟨hinv, (hview fd).trans ?_⟩
  simp [sweep]

/-- **Every operation** keeps the invariant and does to the table what it should. -/
theorem step_rep {s s' : Table H × Installs H} {label : Env × Op H} (h : Rep s)
    (hs : Step s label s') : Rep s' := by
  obtain ⟨m, tbl⟩ := s
  obtain ⟨env, op⟩ := label
  obtain ⟨hinv, hview⟩ := h
  subst hs
  cases op with
  | setNewFdHandle hdl cloexec =>
    obtain ⟨n, -, hin⟩ := hinv.setAbove env 0 hdl cloexec
    exact hin.rep hview
  | setNewFdHandleByFd fd hdl cloexec =>
    rcases hinv.setByFd env fd hdl cloexec with ⟨-, hin⟩ | ⟨-, hout⟩
    · exact hin.rep hview
    show Rep ((setNewFdHandleCore env m fd hdl cloexec false).2,
      tbl.add hdl cloexec (.fd (setNewFdHandleCore env m fd hdl cloexec false).1))
    rw [hout]
    exact ⟨hinv, hview⟩
  | setNewFdHandleAboveFd fd hdl cloexec =>
    obtain ⟨_, -, hin⟩ := hinv.setAbove env fd hdl cloexec
    exact hin.rep hview
  | detachFdHandle fd =>
    obtain ⟨hinv', -, hview'⟩ := hinv.detachFdHandle fd
    refine ⟨hinv', fun i => (hview' i).trans ?_⟩
    show _ = update tbl fd none i
    rw [update_apply, hview]
  | detachAllFds =>
    refine ⟨(detachFrom_rep hinv 0).1, fun fd => (detachFrom_rep hinv fd).2.trans ?_⟩
    cases view m.map fd <;> rfl
  | closeCloexecHandles =>
    refine ⟨(detachFrom_rep hinv 0).1, fun fd => (detachFrom_rep hinv fd).2.trans ?_⟩
    show _ = (tbl fd).filter _
    rw [hview]

theorem Installed.returnsAbove {tbl : Installs H} {hdl : H} {n : Nat}
    {out : Except Errno Nat × Table H} (h : Installed env m n hdl cloexec out)
    (hfree : FirstFree tbl fd n) : ReturnsAbove env tbl fd out.1 := by
  refine ⟨n, hfree, ?_, h.limit, h.ok⟩
  rcases h.view with ⟨hret, -⟩ | ⟨herr, -⟩
  · exact .inl hret
  · exact .inr herr

theorem Rep.returns {s : Table H × Installs H} (h : Rep s) (env : Env) (op : Op H) :
    Returns env s.2 op (exec env s.1 op).1 := by
  obtain ⟨m, tbl⟩ := s
  obtain ⟨hinv, hview⟩ := h
  obtain rfl : view m.map = tbl := funext hview
  cases op with
  | setNewFdHandle hdl cloexec =>
    obtain ⟨n, hfree, hin⟩ := hinv.setAbove env 0 hdl cloexec
    exact hin.returnsAbove hfree
  | setNewFdHandleByFd fd hdl cloexec =>
    rcases hinv.setByFd env fd hdl cloexec with ⟨hnone, hin⟩ | ⟨-, hout⟩
    · rcases hin.view with ⟨hret, -⟩ | ⟨herr, -⟩
      · exact .inl ⟨hret, hnone⟩
      · exact .inr herr
    · refine .inr ⟨.ebadf, ?_⟩
      show (setNewFdHandleCore env m fd hdl cloexec false).1 = _
      rw [hout]
  | setNewFdHandleAboveFd fd hdl cloexec =>
    obtain ⟨_, hfree, hin⟩ := hinv.setAbove env fd hdl cloexec
    exact hin.returnsAbove hfree
  | detachFdHandle fd => exact (hinv.detachFdHandle fd).2.1
  | detachAllFds | closeCloexecHandles => trivial

/-- **The table of file descriptors**: after every sequence of operations, whatever their
arguments, the limit and the memory, `fd_top` is the largest number in use, the lookup finds what
was installed last and not detached since, and the next operation returns what it should. -/
theorem handle_map_correct {s : Table H × Installs H}
    (hr : Transition.Reachable Initial Step s) : Correct s.1 s.2 := by
  have hrep : Rep s := by
    refine hr.invariant ?_ ?_
    · rintro s ⟨size, hsize, rfl⟩
      have hinv : Inv (getNewHandleMap size : Table H) := getNewHandleMap_inv hsize
      refine ⟨hinv, fun fd => ?_⟩
      rw [hinv.view_eq_none]
      rcases hinv.top with ⟨-, hnone⟩ | ⟨htop, -⟩
      · exact hnone fd
      · exact absurd rfl (hinv.of_allocated htop).1
    · intro s label s' h hs
      exact step_rep h hs
  obtain ⟨hinv, hview⟩ := hrep
  refine ⟨?_, fun fd hfd => ?_, fun fd => (hinv.getFdHandle fd).trans (hview fd),
    Rep.returns ⟨hinv, hview⟩⟩
  · rcases hinv.top with hnull | ⟨htop, hmax⟩
    · exact .inl hnull
    · exact .inr ⟨(hinv.of_allocated htop).1, htop, hmax⟩
  refine ⟨lt_length_of_allocated hfd, ?_⟩
  unfold allocated at hfd
  cases he : entry s.1.map fd with
  | none =>
    rw [he] at hfd
    cases hfd
  | some h =>
    rw [he] at hfd
    exact ⟨h, rfl, (hinv.own fd h he (by simpa using hfd)).1⟩

/-- Two handles are installed, and those to be closed are closed. -/
theorem handle_map_correct_closed :
    ∃ s : Table Bool × Installs Bool, Transition.Reachable Initial Step s ∧ s.1.fdTop = 0 ∧
      getFdHandle s.1 0 = some (true, false) ∧ getFdHandle s.1 2 = none := by
  let env : Env := ⟨1024, true, true⟩
  have h0 : Transition.Reachable Initial Step
      ((getNewHandleMap 4, fun _ => none) : Table Bool × Installs Bool) :=
    .init ⟨4, by decide, rfl⟩
  have h1 := h0.step (env, Op.setNewFdHandle true false) rfl
  have h2 := h1.step (env, Op.setNewFdHandleByFd 2 false true) rfl
  have h3 := h2.step (env, Op.closeCloexecHandles) rfl
  have hcorrect := handle_map_correct h3
  exact ⟨_, h3, rfl, hcorrect.lookup 0, hcorrect.lookup 2⟩

end HandleMap
