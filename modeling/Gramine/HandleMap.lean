import Mathlib

/-!
# The table of file descriptors

`libos_handle.c`: a handle map is an array of pointers to `libos_fd_handle`, which grows by
doubling and never shrinks. An entry is in use if it has a number other than `FD_NULL`;
`fd_top` is meant to be the largest number in use.
-/

open List

namespace HandleMap

variable {H : Type}

/-- `UINT32_MAX`. -/
def fdNull : Nat := 2 ^ 32 - 1

def initHandleMapSize : Nat := 32

/-- `struct libos_fd_handle`; the only flag is `FD_CLOEXEC`. -/
structure FdHandle (H : Type) where
  vfd : Nat
  cloexec : Bool
  handle : Option H
  deriving DecidableEq, Repr

/-- `struct libos_handle_map`; `fd_size` is the length of the array. -/
structure Table (H : Type) where
  map : List (Option (FdHandle H))
  fdTop : Nat
  deriving DecidableEq, Repr

/-- `map[fd]`. -/
def entry (map : List (Option (FdHandle H))) (fd : Nat) : Option (FdHandle H) :=
  (map[fd]?).join

/-- `HANDLE_ALLOCATED(map[fd])`. -/
def allocated (map : List (Option (FdHandle H))) (fd : Nat) : Bool :=
  match entry map fd with
  | some h => h.vfd != fdNull
  | none => false

inductive Errno
  | ebadf
  | emfile
  | enfile
  | enomem
  deriving DecidableEq, Repr

/-- `RLIMIT_NOFILE`, and if there is memory for the array and for an entry. -/
structure Env where
  limit : Nat
  mapMemory : Bool
  entryMemory : Bool

/-- `get_new_handle_map`. -/
def getNewHandleMap (size : Nat) : Table H := ⟨List.replicate size none, fdNull⟩

/-- `__get_fd_handle`, with the flags. -/
def getFdHandle (m : Table H) (fd : Nat) : Option (H × Bool) :=
  if m.fdTop ≠ fdNull ∧ fd ≤ m.fdTop then
    match entry m.map fd with
    | some h => if h.vfd ≠ fdNull then h.handle.map (·, h.cloexec) else none
    | none => none
  else none

/-- The loop that lowers `fd_top` from `vfd`. -/
def lowerTop (map : List (Option (FdHandle H))) : Nat → Nat
  | 0 => fdNull
  | vfd + 1 => if allocated map vfd then vfd else lowerTop map vfd

/-- `__detach_fd_handle(map[fd])`. -/
def detachEntry (m : Table H) (fd : Nat) : Option (H × Bool) × Table H :=
  match entry m.map fd with
  | some h =>
    if h.vfd ≠ fdNull then
      let map := m.map.set fd (some ⟨fdNull, false, none⟩)
      (h.handle.map (·, h.cloexec), ⟨map, if h.vfd = m.fdTop then lowerTop map h.vfd else m.fdTop⟩)
    else (none, m)
  | none => (none, m)

/-- `detach_fd_handle`. -/
def detachFdHandle (m : Table H) (fd : Nat) : Option (H × Bool) × Table H :=
  if fd < m.map.length then detachEntry m fd else (none, m)

/-- The first number from `fd` on that is not in use. -/
def findFree (map : List (Option (FdHandle H))) (fdTop fd : Nat) : Nat :=
  if fd ≤ fdTop ∧ allocated map fd then findFree map fdTop (fd + 1) else fd
  termination_by fdTop + 1 - fd

/-- The loop that doubles the size, with its check for an overflow. -/
def growSize (fd newSize : Nat) (hpos : 0 < newSize) : Option Nat :=
  if newSize ≤ fd then
    if newSize * 2 < 2 ^ 32 then growSize fd (newSize * 2) (by omega) else none
  else some newSize
  termination_by 2 ^ 32 - newSize

/-- `__enlarge_handle_map`. -/
def enlargeHandleMap (env : Env) (m : Table H) (size : Nat) : Except Errno (Table H) :=
  if size ≤ m.map.length then .ok m
  else if env.mapMemory then
    .ok { m with map := m.map ++ List.replicate (size - m.map.length) none }
  else .error .enomem

/-- The size the doubling starts with. -/
def startSize (fdSize : Nat) : Nat := if fdSize = 0 then initHandleMapSize else fdSize

theorem startSize_pos (fdSize : Nat) : 0 < startSize fdSize := by
  unfold startSize
  split_ifs with h
  · decide
  · exact Nat.pos_of_ne_zero h

/-- The array is made long enough for `fd`. -/
def reserve (env : Env) (m : Table H) (fd : Nat) : Except Errno (Table H) :=
  if fd < m.map.length then .ok m
  else
    match growSize fd (startSize m.map.length) (startSize_pos _) with
    | none => .error .enfile
    | some size => enlargeHandleMap env m size

/-- `__init_handle(&map[fd], fd, hdl, fd_flags)`. -/
def initHandle (env : Env) (m : Table H) (fd : Nat) (hdl : H) (cloexec : Bool) :
    Except Errno (Table H) :=
  if entry m.map fd = none ∧ ¬ env.entryMemory then .error .enomem
  else .ok { m with map := m.map.set fd (some ⟨fd, cloexec, some hdl⟩) }

/-- `__set_new_fd_handle` from the check of the limit on. -/
def install (env : Env) (m : Table H) (fd : Nat) (hdl : H) (cloexec : Bool) :
    Except Errno Nat × Table H :=
  if env.limit ≤ fd then (.error .emfile, m)
  else
    match reserve env m fd with
    | .error e => (.error e, m)
    | .ok m =>
      match initHandle env m fd hdl cloexec with
      -- the array stays as long as it has become
      | .error e => (.error e, m)
      | .ok m =>
        (.ok fd, { m with fdTop := if m.fdTop = fdNull ∨ m.fdTop < fd then fd else m.fdTop })

/-- `__set_new_fd_handle`. -/
def setNewFdHandleCore (env : Env) (m : Table H) (fd : Nat) (hdl : H) (cloexec : Bool)
    (findFirst : Bool) : Except Errno Nat × Table H :=
  if m.fdTop ≠ fdNull then
    if findFirst then install env m (findFree m.map m.fdTop fd) hdl cloexec
    else if fd ≤ m.fdTop ∧ allocated m.map fd then (.error .ebadf, m)
    else install env m fd hdl cloexec
  else install env m fd hdl cloexec

def setNewFdHandle (env : Env) (m : Table H) (hdl : H) (cloexec : Bool) :
    Except Errno Nat × Table H :=
  setNewFdHandleCore env m 0 hdl cloexec true

def setNewFdHandleByFd (env : Env) (m : Table H) (fd : Nat) (hdl : H) (cloexec : Bool) :
    Except Errno Nat × Table H :=
  setNewFdHandleCore env m fd hdl cloexec false

def setNewFdHandleAboveFd (env : Env) (m : Table H) (fd : Nat) (hdl : H) (cloexec : Bool) :
    Except Errno Nat × Table H :=
  setNewFdHandleCore env m fd hdl cloexec true

/-- The loop over the table from `i` on, which detaches the entries with such flags. The
bound of the loop is read again in every round; `fuel` is the number of rounds it may take. -/
def detachFrom (p : Bool → Bool) (m : Table H) (i : Nat) : Nat → Table H
  | 0 => m
  | fuel + 1 =>
    if m.fdTop ≠ fdNull ∧ i ≤ m.fdTop then
      match entry m.map i with
      | some h =>
        if h.vfd ≠ fdNull ∧ p h.cloexec then detachFrom p (detachEntry m i).2 (i + 1) fuel
        else detachFrom p m (i + 1) fuel
      | none => detachFrom p m (i + 1) fuel
    else m

/-- `detach_all_fds`: `walk_handle_map_writable` with `detach_fd`, which never fails. -/
def detachAllFds (m : Table H) : Table H := detachFrom (fun _ => true) m 0 m.map.length

/-- `close_cloexec_handles`. -/
def closeCloexecHandles (m : Table H) : Table H :=
  detachFrom (fun cloexec => cloexec) m 0 m.map.length

/-! ## Invariant -/

/-- What is installed at a number. -/
def view (map : List (Option (FdHandle H))) (fd : Nat) : Option (H × Bool) :=
  match entry map fd with
  | some h => if h.vfd ≠ fdNull then h.handle.map (·, h.cloexec) else none
  | none => none

/-- `fd_top` is the largest number in use. -/
def IsTop (map : List (Option (FdHandle H))) (fdTop : Nat) : Prop :=
  (fdTop = fdNull ∧ ∀ fd, allocated map fd = false) ∨
  (allocated map fdTop = true ∧ ∀ fd, allocated map fd = true → fd ≤ fdTop)

structure Inv (m : Table H) : Prop where
  /-- An entry in use has its own number, and a handle. -/
  own : ∀ fd h, entry m.map fd = some h → h.vfd ≠ fdNull → h.vfd = fd ∧ h.handle.isSome
  top : IsTop m.map m.fdTop
  size : m.map.length < 2 ^ 32

section Entry
variable {map : List (Option (FdHandle H))} {fd fd' n : Nat} {e : Option (FdHandle H)}

theorem entry_set (h : fd < map.length) :
    entry (map.set fd e) fd' = if fd' = fd then e else entry map fd' := by
  unfold entry
  by_cases heq : fd' = fd
  · subst heq
    rw [if_pos rfl, getElem?_set_self h, Option.join_some]
  · rw [if_neg heq, getElem?_set_ne (Ne.symm heq)]

theorem entry_append_replicate : entry (map ++ List.replicate n none) fd = entry map fd := by
  unfold entry
  by_cases h : fd < map.length
  · rw [getElem?_append_left h]
  · rw [getElem?_append_right (Nat.le_of_not_lt h), getElem?_replicate,
      List.getElem?_eq_none (Nat.le_of_not_lt h)]
    split_ifs <;> rfl

theorem lt_length_of_entry {h : FdHandle H} (he : entry map fd = some h) : fd < map.length := by
  by_contra hge
  rw [entry, List.getElem?_eq_none (Nat.le_of_not_lt hge)] at he
  cases he

theorem lt_length_of_allocated (h : allocated map fd = true) : fd < map.length := by
  unfold allocated at h
  cases he : entry map fd with
  | none =>
    rw [he] at h
    cases h
  | some x => exact lt_length_of_entry he

section
variable {map' : List (Option (FdHandle H))} (h : entry map' fd = entry map fd)
include h

theorem allocated_congr : allocated map' fd = allocated map fd := by
  rw [allocated, allocated, h]

theorem view_congr : view map' fd = view map fd := by
  rw [view, view, h]

end

end Entry

section Inv
variable {m : Table H} {fd : Nat}

theorem Inv.view_isSome (h : Inv m) (fd : Nat) : (view m.map fd).isSome = allocated m.map fd := by
  unfold view allocated
  cases he : entry m.map fd with
  | none => rfl
  | some x =>
    by_cases hnull : x.vfd = fdNull
    · simp [hnull]
    · obtain ⟨-, hhandle⟩ := h.own fd x he hnull
      simp [hnull, hhandle]

theorem Inv.view_eq_none (h : Inv m) : view m.map fd = none ↔ allocated m.map fd = false := by
  rw [← h.view_isSome fd, Option.isSome_eq_false_iff, Option.isNone_iff_eq_none]

/-- `fd_top` is a number, or `FD_NULL`. -/
theorem Inv.fdTop_lt (h : Inv m) (htop : m.fdTop ≠ fdNull) :
    allocated m.map m.fdTop = true ∧ (∀ fd, allocated m.map fd = true → fd ≤ m.fdTop) ∧
      m.fdTop < m.map.length := by
  rcases h.top with ⟨hnull, -⟩ | ⟨halloc, hmax⟩
  · exact absurd hnull htop
  · exact ⟨halloc, hmax, lt_length_of_allocated halloc⟩

/-- A number in use is not `FD_NULL`, and not above `fd_top`. -/
theorem Inv.of_allocated (h : Inv m) (halloc : allocated m.map fd = true) :
    m.fdTop ≠ fdNull ∧ fd ≤ m.fdTop := by
  rcases h.top with ⟨-, hnone⟩ | ⟨htop, hmax⟩
  · rw [hnone fd] at halloc
    cases halloc
  refine ⟨fun hnull => ?_, hmax fd halloc⟩
  have hlt := lt_length_of_allocated htop
  have hsize := h.size
  rw [hnull, fdNull] at hlt
  omega

theorem Inv.getFdHandle (h : Inv m) (fd : Nat) : getFdHandle m fd = view m.map fd := by
  unfold HandleMap.getFdHandle
  split_ifs with htop
  · rfl
  by_contra hne
  have hsome : (view m.map fd).isSome = true := Option.isSome_iff_ne_none.2 (Ne.symm hne)
  rw [h.view_isSome fd] at hsome
  exact htop (h.of_allocated hsome)

theorem getNewHandleMap_inv {size : Nat} (hsize : size < 2 ^ 32) :
    Inv (getNewHandleMap size : Table H) := by
  have hnone : ∀ fd, entry (getNewHandleMap size : Table H).map fd = none := by
    intro fd
    show entry (List.replicate size none) fd = none
    rw [← nil_append (List.replicate size none), entry_append_replicate]
    rfl
  refine ⟨fun fd h he => ?_, .inl ⟨rfl, fun fd => ?_⟩, by simpa [getNewHandleMap] using hsize⟩
  · rw [hnone fd] at he
    cases he
  · rw [allocated, hnone fd]

end Inv

end HandleMap
