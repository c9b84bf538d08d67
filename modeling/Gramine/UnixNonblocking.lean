import Gramine.Census
import Gramine.Fallible
import Gramine.Transition

/-!
# Temporary nonblocking mode of UNIX sockets

A PAL pipe is blocking or not, so an operation with `MSG_DONTWAIT` on a blocking socket
changes the mode of the pipe for as long as it runs (`maybe_force_nonblocking_wrapper` in
`net/unix.c`). The handle counts the threads that do so, and `setflags` of
`fs/socket/fs.c` leaves the pipe alone while there are any. The sections under
`handle->lock` are single steps; the calls into the PAL may fail.
-/

open Transition

namespace UnixSock

/-- The errors of the PAL that the wrapper tells apart, and all others. -/
inductive PalError
  | tryagain
  | toolong
  | other (code : Nat)
  deriving DecidableEq, Repr

inductive Errno
  | eagain
  | einval
  | emsgsize
  /-- What `pal_to_unix_errno` makes of another error. -/
  | pal (e : PalError)
  deriving DecidableEq, Repr

/-- `pal_to_unix_errno`. -/
def palToUnixErrno : PalError → Errno
  | .tryagain => .eagain
  | e => .pal e

/-- A failed assertion. -/
inductive Fault
  | assertion
  deriving DecidableEq, Repr

abbrev Flags := BitVec 32

def oAppend : Flags := 0x400
def oNonblock : Flags := 0x800
def oDirect : Flags := 0x4000
def oNoatime : Flags := 0x40000

/-- `FCNTL_SETFL_MASK`. -/
def fcntlSetflMask : Flags := oAppend ||| oDirect ||| oNoatime ||| oNonblock

/-- The fields of the handle; of the PAL handle, which may not be there yet, the attribute
`nonblocking`. -/
structure Handle where
  flags : Flags
  forceNonblockingUsersCount : Nat
  palHandle : Option Bool
  deriving DecidableEq, Repr

/-- `handle->flags & O_NONBLOCK`. -/
def Handle.nonblock (h : Handle) : Bool := h.flags &&& oNonblock ≠ 0

/-- What `PalStreamAttributesQueryByHandle` and `PalStreamAttributesSetByHandle` return to
a section: nothing, or an error. -/
structure PalCalls where
  query : Option PalError
  set : Option PalError
  deriving DecidableEq, Repr

/-- `PalStreamAttributesSetByHandle`, when it succeeds. -/
def Handle.setPal (h : Handle) (nonblocking : Bool) : Handle :=
  { h with palHandle := h.palHandle.map fun _ => nonblocking }

/-! ## The sections -/

/-- The first section of `maybe_force_nonblocking_wrapper` with `force_nonblocking`. -/
def enterSection (pal : PalCalls) (h : Handle) : Except Fault (Except Errno Unit × Handle) := do
  let h := { h with forceNonblockingUsersCount := h.forceNonblockingUsersCount + 1 }
  if h.nonblock = false ∧ h.forceNonblockingUsersCount = 1 then
    match pal.query with
    | some e => pure (.error (palToUnixErrno e), h)
    | none =>
      if h.palHandle = some true then throw .assertion
      else
        match pal.set with
        | some e => pure (.error (palToUnixErrno e), h)
        | none => pure (.ok (), h.setPal true)
  else pure (.ok (), h)

/-- The last section with `force_nonblocking`; `true` if it ends with `PalProcessExit`. -/
def exitSection (pal : PalCalls) (h : Handle) : Except Fault (Bool × Handle) := do
  let h := { h with forceNonblockingUsersCount := h.forceNonblockingUsersCount - 1 }
  if h.nonblock = false ∧ h.forceNonblockingUsersCount = 0 then
    match pal.query with
    | some _ => pure (true, h)
    | none =>
      if h.palHandle = some false then throw .assertion
      else
        match pal.set with
        | some _ => pure (true, h)
        | none => pure (false, h.setPal false)
  else pure (false, h)

/-- `out_set_flags` in `setflags`. -/
def Handle.setFlags (h : Handle) (flags mask : Flags) : Handle :=
  { h with flags := (h.flags &&& ~~~mask) ||| flags }

/-- `setflags` of sockets. -/
def setflags (pal : PalCalls) (flags mask : Flags) (h : Handle) :
    Except Fault (Except Errno Unit × Handle) := do
  if mask = 0 ∨ flags &&& ~~~mask ≠ 0 then throw .assertion
  else if flags &&& ~~~oNonblock ≠ 0 then pure (.error .einval, h)
  else
    let nonblocking : Bool := flags &&& oNonblock ≠ 0
    match h.palHandle with
    | none => pure (.ok (), h.setFlags flags mask)
    | some attr =>
      if h.forceNonblockingUsersCount ≠ 0 then pure (.ok (), h.setFlags flags mask)
      else
        match pal.query with
        | some e => pure (.error (palToUnixErrno e), h)
        | none =>
          if attr ≠ nonblocking then
            match pal.set with
            | some e => pure (.error (palToUnixErrno e), h)
            | none => pure (.ok (), (h.setPal nonblocking).setFlags flags mask)
          else pure (.ok (), h.setFlags flags mask)

/-- `set_handle_flags`. -/
def setHandleFlags (pal : PalCalls) (flags mask : Flags) (h : Handle) :
    Except Fault (Except Errno Unit × Handle) :=
  setflags pal (flags &&& mask) mask h

/-- `set_handle_nonblocking`, for `FIONBIO`. -/
def setHandleNonblocking (pal : PalCalls) (on : Bool) (h : Handle) :
    Except Fault (Except Errno Unit × Handle) :=
  setHandleFlags pal (if on then oNonblock else 0) oNonblock h

/-- `F_SETFL`. -/
def fcntlSetfl (pal : PalCalls) (arg : Flags) (h : Handle) :
    Except Fault (Except Errno Unit × Handle) :=
  setHandleFlags pal arg fcntlSetflMask h

/-! ## The threads -/

/-- Where a thread is that sends or receives. -/
inductive Pc
  | idle
  /-- With `force_nonblocking`, before the first section. -/
  | entering
  /-- Before `func`, which is `PalStreamRead` or `PalStreamWrite`. -/
  | calling (forceNonblocking : Bool)
  /-- Without `force_nonblocking`, after `EAGAIN`. -/
  | rechecking
  /-- With `force_nonblocking`, before the last section. -/
  | leaving (ret : Except Errno Unit)
  deriving DecidableEq, Repr

/-- Between the first and the last section with `force_nonblocking`. -/
def Pc.forces : Pc → Bool
  | .calling forceNonblocking => forceNonblocking
  | .leaving _ => true
  | _ => false

def Pc.isCalling : Pc → Bool
  | .calling _ => true
  | _ => false

def Pc.isLeaving : Pc → Bool
  | .leaving _ => true
  | _ => false

/-- The socket and its threads. `opening` has the options with which `bind` or `connect`
is opening the PAL handle; they hold `sock->lock`, which `setflags` takes too. -/
structure State (T : Type) where
  handle : Handle
  opening : Option Bool
  pc : T → Pc
  terminated : Bool

variable {T : Type}

inductive Label (T : Type)
  /-- `send` or `recv`, on a socket with a PAL handle. -/
  | call (t : T) (forceNonblocking : Bool)
  | enter (t : T) (pal : PalCalls)
  | func (t : T) (res : Except PalError Unit)
  | recheck (t : T)
  | leave (t : T) (pal : PalCalls)
  | fcntlSetfl (pal : PalCalls) (arg : Flags)
  | setHandleNonblocking (pal : PalCalls) (on : Bool)
  /-- `bind` or `connect` before `PalStreamOpen`. -/
  | openBegin
  /-- And after it. -/
  | openEnd (res : Except PalError Unit)

/-- What has to be the case for a step. -/
def State.Enabled (s : State T) : Label T → Prop
  | .call t _ => s.pc t = .idle ∧ s.handle.palHandle.isSome
  | .enter t _ => s.pc t = .entering
  | .func t _ => (s.pc t).isCalling = true
  | .recheck t => s.pc t = .rechecking
  | .leave t _ => (s.pc t).isLeaving = true
  | .fcntlSetfl _ _ | .setHandleNonblocking _ _ => s.opening = none
  | .openBegin => s.opening = none ∧ s.handle.palHandle = none
  | .openEnd _ => s.opening ≠ none

instance (s : State T) (l : Label T) : Decidable (s.Enabled l) := by
  cases l <;> unfold State.Enabled <;> infer_instance

/-- What `func` returned, as an error number. -/
def funcRet : Except PalError Unit → Except Errno Unit
  | .ok () => .ok ()
  | .error .toolong => .error .emsgsize
  | .error e => .error (palToUnixErrno e)

variable [DecidableEq T]

def State.goto (s : State T) (t : T) (pc : Pc) : State T :=
  { s with pc := Function.update s.pc t pc }

/-- Where a thread goes after `func`. -/
def afterFunc : Bool → Except Errno Unit → Pc
  | true, ret => .leaving ret
  | false, .error .eagain => .rechecking
  | false, _ => .idle

omit [DecidableEq T] in
theorem forces_afterFunc (forceNonblocking : Bool) (ret : Except Errno Unit) :
    (afterFunc forceNonblocking ret).forces = forceNonblocking := by
  unfold afterFunc
  split <;> rfl

/-- Where a thread goes after the first section. -/
def afterEnter : Except Errno Unit → Pc
  | .ok () => .calling true
  | .error _ => .idle

/-- The effect of a step. -/
def exec (s : State T) : Label T → Except Fault (State T)
  | .call t forceNonblocking =>
    pure (s.goto t (if forceNonblocking then .entering else .calling false))
  | .enter t pal => do
    let (ret, h) ← enterSection pal s.handle
    pure ({ s with handle := h }.goto t (afterEnter ret))
  | .func t res =>
    match s.pc t with
    | .calling forceNonblocking => pure (s.goto t (afterFunc forceNonblocking (funcRet res)))
    | _ => pure s
  | .recheck t => pure (s.goto t (if s.handle.nonblock then .idle else .calling false))
  | .leave t pal => do
    let (terminated, h) ← exitSection pal s.handle
    pure ({ s with handle := h, terminated := terminated }.goto t .idle)
  | .fcntlSetfl pal arg => do
    let (_, h) ← fcntlSetfl pal arg s.handle
    pure { s with handle := h }
  | .setHandleNonblocking pal on => do
    let (_, h) ← setHandleNonblocking pal on s.handle
    pure { s with handle := h }
  | .openBegin => pure { s with opening := some s.handle.nonblock }
  | .openEnd res =>
    match res with
    | .ok () => pure { s with handle := { s.handle with palHandle := s.opening }, opening := none }
    | .error _ => pure { s with opening := none }

/-- Steps are taken until the process ends. -/
def Step (s : State T) (l : Label T) (s' : State T) : Prop :=
  s.terminated = false ∧ s.Enabled l ∧ exec s l = .ok s'

/-- A new socket, or one that `accept` returned. -/
structure Initial (s : State T) : Prop where
  count : s.handle.forceNonblockingUsersCount = 0
  mode : ∀ nonblocking ∈ s.handle.palHandle, nonblocking = s.handle.nonblock
  opening : s.opening = none
  idle : ∀ t, s.pc t = .idle
  running : s.terminated = false

/-! ## The count and the mode -/

variable [Fintype T] {s s' : State T} {t : T} {n : Nat} {h h' : Handle} {pal : PalCalls}

/-- The number of threads between the first and the last section. -/
def State.users (s : State T) : Nat := Census.count Pc.forces s.pc

/-- The count counts these threads, and the pipe has the mode it should have. -/
structure Consistent (s : State T) : Prop where
  count : s.handle.forceNonblockingUsersCount = s.users
  mode : s.terminated = false → ∀ nonblocking ∈ s.handle.palHandle,
    (nonblocking = true ↔ s.handle.nonblock = true ∨ 0 < s.handle.forceNonblockingUsersCount)

/-- The first section returns an error of the PAL. -/
def Handle.entryFails (h : Handle) (pal : PalCalls) : Bool :=
  !h.nonblock && h.forceNonblockingUsersCount = 0 && (pal.query.isSome || pal.set.isSome)

def failsEntry (s : State T) : Label T → Bool
  | .enter _ pal => s.handle.entryFails pal
  | _ => false

/-- Steps, with a count of the first sections that failed. -/
def StepCounted (p : Nat × State T) (l : Label T) (p' : Nat × State T) : Prop :=
  Step p.2 l p'.2 ∧ p'.1 = p.1 + if failsEntry p.2 l then 1 else 0

/-- A new socket, where none has failed. -/
def InitialCounted (p : Nat × State T) : Prop := p.1 = 0 ∧ Initial p.2

/-- The mode of the pipe, given the flags and the count. -/
def Handle.ModeRight (h : Handle) : Prop :=
  ∀ nonblocking ∈ h.palHandle,
    (nonblocking = true ↔ h.nonblock = true ∨ 0 < h.forceNonblockingUsersCount)

theorem Handle.setPal_eq_none {nonblocking : Bool} :
    (h.setPal nonblocking).palHandle = none ↔ h.palHandle = none := Option.map_eq_none_iff

/-- **The first section**: the thread is counted, whether it fails or not. -/
theorem enterSection_spec (pal : PalCalls)
    (hpal : h.nonblock = false → h.forceNonblockingUsersCount = 0 → h.palHandle ≠ some true) :
    ∃ ret h', enterSection pal h = .ok (ret, h') ∧
      h'.forceNonblockingUsersCount = h.forceNonblockingUsersCount + 1 ∧
      (h'.palHandle = none ↔ h.palHandle = none) ∧
      (h.entryFails pal = true → ∃ e, ret = .error e) ∧
      (h.entryFails pal = false → ret = .ok () ∧ (h.ModeRight → h'.ModeRight)) := by
  have hflags : ∀ c, ({ h with forceNonblockingUsersCount := c } : Handle).nonblock = h.nonblock :=
    fun _ => rfl
  have hone : h.forceNonblockingUsersCount + 1 = 1 ↔ h.forceNonblockingUsersCount = 0 := by omega
  simp only [enterSection, Handle.entryFails, hflags, hone]
  by_cases hfirst : h.nonblock = false ∧ h.forceNonblockingUsersCount = 0
  · simp only [hfirst.1, hfirst.2, if_neg (hpal hfirst.1 hfirst.2)]
    cases pal.query with
    | some e => exact ⟨_, _, rfl, rfl, Iff.rfl, fun _ => ⟨_, rfl⟩, fun hno => by cases hno⟩
    | none =>
      cases pal.set with
      | some e => exact ⟨_, _, rfl, rfl, Iff.rfl, fun _ => ⟨_, rfl⟩, fun hno => by cases hno⟩
      | none =>
        refine ⟨_, _, rfl, rfl, Handle.setPal_eq_none, fun hyes => (by cases hyes), fun _ =>
          ⟨rfl, fun _ nonblocking hnb => ?_⟩⟩
        obtain ⟨-, -, rfl⟩ := Option.map_eq_some_iff.1 hnb
        exact iff_of_true rfl (.inr one_pos)
  · simp only [if_neg hfirst]
    refine ⟨_, _, rfl, rfl, Iff.rfl, fun hyes => ?_,
      fun _ => ⟨rfl, fun hmode nonblocking hnb => ?_⟩⟩
    · simp only [Bool.and_eq_true, Bool.not_eq_true', decide_eq_true_eq] at hyes
      exact absurd hyes.1 hfirst
    -- the pipe was not blocking before, because of the flags or of another thread
    refine iff_of_true ((hmode nonblocking hnb).2 ?_) (.inr (Nat.succ_pos _))
    cases hn : h.nonblock with
    | true => exact .inl rfl
    | false => exact .inr (Nat.pos_of_ne_zero fun h0 => hfirst ⟨hn, h0⟩)

/-- **The last section**: the thread is not counted any more, and the last one restores
the mode of the pipe. -/
theorem exitSection_spec (pal : PalCalls) (hpos : 0 < h.forceNonblockingUsersCount)
    (hpal : h.nonblock = false → h.forceNonblockingUsersCount = 1 → h.palHandle ≠ some false) :
    ∃ terminated h', exitSection pal h = .ok (terminated, h') ∧
      h'.forceNonblockingUsersCount + 1 = h.forceNonblockingUsersCount ∧
      (h'.palHandle = none ↔ h.palHandle = none) ∧
      (h.ModeRight → terminated = false → h'.ModeRight) := by
  have hflags : ∀ c, ({ h with forceNonblockingUsersCount := c } : Handle).nonblock = h.nonblock :=
    fun _ => rfl
  have hcount : h.forceNonblockingUsersCount - 1 + 1 = h.forceNonblockingUsersCount := by omega
  simp only [exitSection, hflags]
  by_cases hlast : h.nonblock = false ∧ h.forceNonblockingUsersCount - 1 = 0
  · simp only [if_pos hlast, if_neg (hpal hlast.1 (by omega))]
    cases pal.query with
    | some e => exact ⟨_, _, rfl, hcount, Iff.rfl, fun _ hno => by cases hno⟩
    | none =>
      cases pal.set with
      | some e => exact ⟨_, _, rfl, hcount, Iff.rfl, fun _ hno => by cases hno⟩
      | none =>
        refine ⟨_, _, rfl, hcount, Handle.setPal_eq_none, fun _ _ nonblocking hnb => ?_⟩
        obtain ⟨-, -, rfl⟩ := Option.map_eq_some_iff.1 hnb
        refine iff_of_false (by simp) ?_
        rintro (hn | hn)
        · cases hlast.1.symm.trans hn
        · exact absurd hlast.2 (Nat.pos_iff_ne_zero.1 hn)
  · simp only [if_neg hlast]
    refine ⟨_, _, rfl, hcount, Iff.rfl, fun hmode _ nonblocking hnb => ?_⟩
    refine iff_of_true ((hmode nonblocking hnb).2 (.inr hpos)) ?_
    cases hn : h.nonblock with
    | true => exact .inl hn
    | false => exact .inr (Nat.pos_of_ne_zero fun h0 => hlast ⟨hn, h0⟩)

/-- Flags are set, among them `O_NONBLOCK`. -/
theorem Handle.nonblock_setFlags {flags mask : Flags} (hmask : mask &&& oNonblock = oNonblock) :
    (h.setFlags flags mask).nonblock = decide (flags &&& oNonblock ≠ 0) := by
  have hbit : ~~~mask &&& oNonblock = 0#32 := by
    rw [← hmask, ← BitVec.and_assoc, BitVec.not_and_self]
    exact BitVec.zero_and
  have heq : ((h.flags &&& ~~~mask) ||| flags) &&& oNonblock = flags &&& oNonblock := by
    rw [BitVec.and_or_distrib_right, BitVec.and_assoc, hbit, BitVec.and_zero, BitVec.zero_or]
  rw [Handle.nonblock, Handle.setFlags, heq]

/-- **`set_handle_flags`**, with a mask that has `O_NONBLOCK`. -/
theorem setHandleFlags_spec (pal : PalCalls) (flags : Flags) (h : Handle) {mask : Flags}
    (hmask : mask &&& oNonblock = oNonblock) :
    ∃ ret h', setHandleFlags pal flags mask h = .ok (ret, h') ∧
      h'.forceNonblockingUsersCount = h.forceNonblockingUsersCount ∧
      (h'.palHandle = none ↔ h.palHandle = none) ∧ (h.ModeRight → h'.ModeRight) := by
  have hassert : ¬ (mask = 0 ∨ flags &&& mask &&& ~~~mask ≠ 0) := by
    rintro (rfl | hne)
    · exact absurd hmask (by decide)
    · refine hne ?_
      rw [BitVec.and_assoc, BitVec.and_not_self]
      exact BitVec.and_zero
  rw [setHandleFlags, setflags, if_neg hassert]
  by_cases hinval : flags &&& mask &&& ~~~oNonblock ≠ 0
  · rw [if_pos hinval]
    exact ⟨_, _, rfl, rfl, Iff.rfl, id⟩
  rw [if_neg hinval]
  cases hpal : h.palHandle with
  | none =>
    refine ⟨_, _, rfl, rfl, iff_of_true hpal rfl, fun _ nonblocking hnb => ?_⟩
    rw [Handle.setFlags, hpal] at hnb
    cases hnb
  | some attr =>
    have hsome : some attr = none ↔ h.palHandle = none := by rw [hpal]
    rw [hsome]
    dsimp only
    by_cases hcount : h.forceNonblockingUsersCount = 0
    · rw [if_neg (not_not_intro hcount)]
      -- the pipe gets the mode that the flags then have
      have hright : ∀ h' : Handle, h'.forceNonblockingUsersCount = 0 →
          h'.palHandle = some (decide (flags &&& mask &&& oNonblock ≠ 0)) →
          (h'.setFlags (flags &&& mask) mask).ModeRight := by
        intro h' hzero hpal' nonblocking hnb
        obtain rfl := Option.some.inj (hpal'.symm.trans hnb)
        rw [Handle.nonblock_setFlags hmask]
        refine ⟨.inl, fun hor => hor.resolve_right ?_⟩
        exact not_lt.2 (le_of_eq hzero)
      cases pal.query with
      | some e => exact ⟨_, _, rfl, rfl, Iff.rfl, id⟩
      | none =>
        by_cases hattr : attr ≠ decide (flags &&& mask &&& oNonblock ≠ 0)
        · rw [if_pos hattr]
          cases pal.set with
          | some e => exact ⟨_, _, rfl, rfl, Iff.rfl, id⟩
          | none =>
            refine ⟨_, _, rfl, rfl, Handle.setPal_eq_none, fun _ => hright _ hcount ?_⟩
            rw [Handle.setPal, hpal]
            rfl
        · rw [if_neg hattr]
          refine ⟨_, _, rfl, rfl, Iff.rfl, fun _ => hright h hcount ?_⟩
          rw [hpal, not_not.1 hattr]
    · rw [if_pos hcount]
      -- the pipe is not blocking, and stays so while it has users
      refine ⟨_, _, rfl, rfl, Iff.rfl, fun hmode nonblocking hnb => ?_⟩
      have hpos : 0 < h.forceNonblockingUsersCount := Nat.pos_of_ne_zero hcount
      exact iff_of_true ((hmode nonblocking hnb).2 (.inr hpos)) (.inr hpos)

/-- The invariant, after `n` first sections that failed: each of them has left its mark on
the count, and the mode is right as long as none has. -/
structure Inv (n : Nat) (s : State T) : Prop where
  count : s.handle.forceNonblockingUsersCount = s.users + n
  mode : n = 0 → s.terminated = false → s.handle.ModeRight
  opening : ∀ options ∈ s.opening, s.handle.palHandle = none ∧ options = s.handle.nonblock
  idle : s.handle.palHandle = none → ∀ t, s.pc t = .idle
  closed : s.handle.palHandle = none → n = 0

omit [DecidableEq T] in
theorem initial_inv (hs : Initial s) : Inv 0 s := by
  have husers : s.users = 0 := Census.count_eq_zero.2 fun t => by rw [hs.idle t]; rfl
  refine ⟨by rw [hs.count, husers], fun _ _ nonblocking hnb => ?_, fun options ho => ?_,
    fun _ => hs.idle, fun _ => rfl⟩
  · rw [hs.mode nonblocking hnb, hs.count]
    exact ⟨.inl, fun hor => hor.resolve_right (lt_irrefl 0)⟩
  · cases hs.opening.symm.trans ho

theorem users_goto (pc : Pc) : (s.goto t pc).users + (if (s.pc t).forces then 1 else 0) =
    s.users + if pc.forces then 1 else 0 :=
  Census.count_update Pc.forces s.pc t pc

namespace Inv

omit [DecidableEq T] in
theorem opened (hi : Inv n s) (hpc : s.pc t ≠ .idle) :
    s.handle.palHandle ≠ none ∧ s.opening = none := by
  have hpal : s.handle.palHandle ≠ none := fun hnone => hpc (hi.idle hnone t)
  refine ⟨hpal, Option.eq_none_iff_forall_ne_some.2 fun o ho => hpal (hi.opening o ho).1⟩

theorem goto {pc : Pc} (hi : Inv n s) (hpal : s.handle.palHandle ≠ none)
    (hforces : pc.forces = (s.pc t).forces) : Inv n (s.goto t pc) := by
  refine ⟨?_, hi.mode, hi.opening, fun hnone => absurd hnone hpal, hi.closed⟩
  have husers := users_goto (s := s) (t := t) pc
  rw [hforces] at husers
  rw [Nat.add_right_cancel husers]
  exact hi.count

theorem move {pc : Pc} {n' : Nat} {terminated : Bool} (hi : Inv n s) (hopening : s.opening = none)
    (hpal : h'.palHandle ≠ none)
    (hcount : h'.forceNonblockingUsersCount + (if (s.pc t).forces then 1 else 0) + n =
      s.handle.forceNonblockingUsersCount + (if pc.forces then 1 else 0) + n')
    (hmode : n' = 0 → terminated = false → h'.ModeRight) :
    Inv n' ({ s with handle := h', terminated := terminated }.goto t pc) := by
  refine ⟨?_, hmode, fun options ho => ?_, fun hnone => absurd hnone hpal,
    fun hnone => absurd hnone hpal⟩
  · have husers : (s.goto t pc).users + _ = _ := users_goto pc
    have := hi.count
    show h'.forceNonblockingUsersCount = (s.goto t pc).users + n'
    omega
  · rw [show s.opening = some options from ho] at hopening
    cases hopening

omit [DecidableEq T] in
theorem setFlags (hi : Inv n s) (hopening : s.opening = none) (pal : PalCalls) (flags : Flags)
    {mask : Flags} (hmask : mask &&& oNonblock = oNonblock) :
    ∃ ret h', setHandleFlags pal flags mask s.handle = .ok (ret, h') ∧
      Inv n { s with handle := h' } := by
  obtain ⟨ret, h', hexec, hcount, hnone, hmode⟩ := setHandleFlags_spec pal flags s.handle hmask
  refine ⟨ret, h', hexec, hcount.trans hi.count, fun hn hrun => hmode (hi.mode hn hrun),
    fun options ho => ?_, fun hp => hi.idle (hnone.1 hp), fun hp => hi.closed (hnone.1 hp)⟩
  cases hopening.symm.trans ho

end Inv

/-- **The step lemma**: a step does not fail an assertion, and a first section that fails
is the only one after which the count is wrong by one more. -/
theorem exec_spec {l : Label T} (hi : Inv n s) (hrun : s.terminated = false) (hl : s.Enabled l) :
    ∃ s', exec s l = .ok s' ∧ Inv (n + if failsEntry s l then 1 else 0) s' := by
  cases l with
  | call t forceNonblocking =>
    obtain ⟨hidle, hpal⟩ := hl
    refine ⟨_, rfl, hi.goto (Option.isSome_iff_ne_none.1 hpal) ?_⟩
    rw [hidle]
    cases forceNonblocking <;> rfl
  | enter t pal =>
    have hpc : s.pc t = .entering := hl
    obtain ⟨hpal, hopening⟩ := hi.opened (t := t) (by simp [hpc])
    have hblocking : s.handle.nonblock = false → s.handle.forceNonblockingUsersCount = 0 →
        s.handle.palHandle ≠ some true := by
      intro hflags hzero htrue
      have hcount := hi.count
      rcases (hi.mode (by omega) hrun true htrue).1 rfl with hnb | hpos
      · cases hflags.symm.trans hnb
      · omega
    obtain ⟨ret, h', hexec, hcount, hnone, hfails, hok⟩ := enterSection_spec pal hblocking
    have hforces : (s.pc t).forces = false := by rw [hpc]; rfl
    refine ⟨{ s with handle := h' }.goto t (afterEnter ret), by rw [exec, hexec]; rfl,
      hi.move hopening (fun hn => hpal (hnone.1 hn)) ?_ ?_⟩
    · rw [hforces, hcount, failsEntry]
      cases hf : s.handle.entryFails pal with
      | true =>
        obtain ⟨e, rfl⟩ := hfails hf
        show _ + 1 + 0 + n = _ + 0 + (n + 1)
        omega
      | false =>
        obtain ⟨rfl, -⟩ := hok hf
        show _ + 1 + 0 + n = _ + 1 + (n + 0)
        omega
    · rw [failsEntry]
      intro hn hrun
      cases hf : s.handle.entryFails pal with
      | true =>
        rw [hf] at hn
        cases hn
      | false =>
        rw [hf] at hn
        exact (hok hf).2 (hi.mode hn hrun)
  | func t res =>
    have hcalling : (s.pc t).isCalling = true := hl
    obtain ⟨forceNonblocking, hpc⟩ : ∃ forceNonblocking, s.pc t = .calling forceNonblocking := by
      cases hpc : s.pc t with
      | calling forceNonblocking => exact ⟨forceNonblocking, rfl⟩
      | idle | entering | rechecking | leaving ret =>
        rw [hpc] at hcalling
        cases hcalling
    obtain ⟨hpal, -⟩ := hi.opened (t := t) (by simp [hpc])
    refine ⟨_, by rw [exec, hpc]; rfl, hi.goto hpal ?_⟩
    rw [hpc, forces_afterFunc]
    rfl
  | recheck t =>
    have hpc : s.pc t = .rechecking := hl
    obtain ⟨hpal, -⟩ := hi.opened (t := t) (by simp [hpc])
    refine ⟨_, rfl, hi.goto hpal ?_⟩
    rw [hpc]
    split_ifs <;> rfl
  | leave t pal =>
    have hleaving : (s.pc t).isLeaving = true := hl
    have hforces : (s.pc t).forces = true := by
      revert hleaving
      cases s.pc t <;> simp [Pc.isLeaving, Pc.forces]
    obtain ⟨hpal, hopening⟩ := hi.opened (t := t) fun hidle => by
      rw [hidle] at hforces
      cases hforces
    have husers : 0 < s.users := Census.count_pos hforces
    have hpos : 0 < s.handle.forceNonblockingUsersCount := by
      have := hi.count
      omega
    have hnonblocking : s.handle.nonblock = false → s.handle.forceNonblockingUsersCount = 1 →
        s.handle.palHandle ≠ some false := by
      intro _ hone hfalse
      have hcount := hi.count
      cases (hi.mode (by omega) hrun false hfalse).2 (.inr hpos)
    obtain ⟨terminated, h', hexec, hcount, hnone, hmode⟩ :=
      exitSection_spec pal hpos hnonblocking
    refine ⟨{ s with handle := h', terminated := terminated }.goto t .idle,
      by rw [exec, hexec]; rfl, hi.move hopening (fun hn => hpal (hnone.1 hn)) ?_ ?_⟩
    · rw [hforces]
      show _ + 1 + n = _ + 0 + n
      omega
    · intro hn
      exact hmode (hi.mode hn hrun)
  | fcntlSetfl pal arg =>
    obtain ⟨ret, h', hexec, hinv⟩ :=
      hi.setFlags hl pal arg (show fcntlSetflMask &&& oNonblock = oNonblock by decide)
    refine ⟨_, ?_, hinv⟩
    rw [exec, fcntlSetfl, hexec]
    rfl
  | setHandleNonblocking pal on =>
    obtain ⟨_, _, hexec, hinv⟩ := hi.setFlags hl pal (if on then oNonblock else 0)
      (show oNonblock &&& oNonblock = oNonblock by decide)
    refine ⟨_, ?_, hinv⟩
    rw [exec, setHandleNonblocking, hexec]
    rfl
  | openBegin =>
    refine ⟨_, rfl, hi.count, hi.mode, fun options ho => ?_, hi.idle, hi.closed⟩
    exact ⟨hl.2, (Option.some.inj ho).symm⟩
  | openEnd res =>
    obtain ⟨options, ho⟩ := Option.ne_none_iff_exists'.1 (show s.opening ≠ none from hl)
    obtain ⟨hnone, rfl⟩ := hi.opening options ho
    cases res with
    | error e =>
      exact ⟨_, rfl, hi.count, hi.mode, by simp, hi.idle, hi.closed⟩
    | ok u =>
      have husers : s.users = 0 := Census.count_eq_zero.2 fun t => by rw [hi.idle hnone t]; rfl
      refine ⟨_, rfl, hi.count, fun hn _ nonblocking hnb => ?_, by simp, ?_, ?_⟩
      · have hn : n = 0 := hn
        have hcount : s.handle.forceNonblockingUsersCount = 0 := by rw [hi.count, husers, hn]
        obtain rfl := Option.some.inj (ho.symm.trans hnb)
        exact ⟨.inl, fun hor => hor.resolve_right (not_lt.2 (le_of_eq hcount))⟩
      · intro hno
        rw [show s.opening = none from hno] at ho
        cases ho
      · intro hno
        rw [show s.opening = none from hno] at ho
        cases ho

/-- **The run lemma.** -/
theorem inv_of_reachable {p : Nat × State T}
    (hr : Reachable InitialCounted StepCounted p) : Inv p.1 p.2 := by
  induction hr with
  | init h =>
    rw [h.1]
    exact initial_inv h.2
  | step l _ hstep hi =>
    obtain ⟨⟨hrun, hl, hexec⟩, hn⟩ := hstep
    obtain ⟨s1, hexec1, hi1⟩ := exec_spec hi hrun hl
    obtain rfl := Except.ok.inj (hexec.symm.trans hexec1)
    rwa [hn]

/-- **The count and the mode.** In every state of a run in which `n` first sections
failed, the count is the number of threads between the two sections plus `n`; so the count
and the mode are right exactly if none has failed. No assertion fails in any run. -/
theorem users_count_and_mode_iff (hr : Reachable InitialCounted StepCounted (n, s)) :
    s.handle.forceNonblockingUsersCount = s.users + n ∧ (Consistent s ↔ n = 0) ∧
      ∀ l, s.terminated = false → s.Enabled l → ∃ s', exec s l = .ok s' := by
  have hi : Inv n s := inv_of_reachable hr
  refine ⟨hi.count, ⟨fun hc => ?_, fun hn => ⟨?_, hi.mode hn⟩⟩, fun l hrun hl => ?_⟩
  · have h1 := hi.count
    have h2 := hc.count
    omega
  · rw [hi.count, hn, Nat.add_zero]
  · obtain ⟨s', hexec, -⟩ := exec_spec hi hrun hl
    exact ⟨s', hexec⟩

/-- The effect of a step, if it can be taken, and the number of failures. -/
def nextCounted (p : Nat × State T) (l : Label T) : Option (Nat × State T) :=
  if p.2.terminated = false ∧ p.2.Enabled l then
    (exec p.2 l).toOption.map fun s' => (p.1 + if failsEntry p.2 l then 1 else 0, s')
  else none

omit [Fintype T] in
theorem stepCounted_of_nextCounted (p : Nat × State T) (l : Label T) (p' : Nat × State T)
    (h : nextCounted p l = some p') : StepCounted p l p' := by
  unfold nextCounted at h
  rw [Option.ite_none_right_eq_some] at h
  obtain ⟨⟨hrun, hl⟩, hp'⟩ := h
  obtain ⟨s', hexec, rfl⟩ := Option.map_eq_some_iff.1 hp'
  exact ⟨⟨hrun, hl, Fallible.toOption_eq_some.1 hexec⟩, rfl⟩

/-- A blocking socket, and two threads. -/
def exampleState : State Bool := ⟨⟨0, 0, some false⟩, none, fun _ => .idle, false⟩

theorem exampleState_initial : InitialCounted (0, exampleState) := by
  refine ⟨rfl, rfl, fun b hb => ?_, rfl, fun _ => rfl, rfl⟩
  obtain rfl := Option.some.inj hb
  decide

/-- What is to be seen of a state. -/
def observe (p : Nat × State Bool) : Nat × Handle × Nat × Bool :=
  (p.1, p.2.handle, p.2.users, p.2.terminated)

/-- Both threads receive with `MSG_DONTWAIT`, and the socket is made nonblocking and
blocking again in between. -/
def exampleRun : List (Label Bool) :=
  [.call true true, .enter true ⟨none, none⟩, .call false true, .fcntlSetfl ⟨none, none⟩ oNonblock,
    .enter false ⟨none, none⟩, .func true (.error .tryagain), .leave true ⟨none, none⟩,
    .setHandleNonblocking ⟨none, none⟩ false, .func false (.ok ()), .leave false ⟨none, none⟩]

/-- The mode is restored. -/
theorem users_count_and_mode_restored : ∃ s, exampleRun.foldlM nextCounted (0, exampleState) =
    some (0, s) ∧ s.handle = ⟨0, 0, some false⟩ ∧ Consistent s := by
  have hrun : (exampleRun.foldlM nextCounted (0, exampleState)).map observe =
      some (0, ⟨0, 0, some false⟩, 0, false) := by decide +kernel
  obtain ⟨⟨n, s⟩, hs, hobs⟩ := Option.map_eq_some_iff.1 hrun
  obtain rfl : n = 0 := congrArg Prod.fst hobs
  have hr := Reachable.of_foldlM nextCounted stepCounted_of_nextCounted
    (.init exampleState_initial) _ hs
  exact ⟨s, hs, congrArg (fun o => o.2.1) hobs, (users_count_and_mode_iff hr).2.1.2 rfl⟩

/-- The PAL cannot tell the attributes of the pipe, once. -/
def exampleFailure : List (Label Bool) :=
  [.call true true, .enter true ⟨some (.other 0), none⟩, .call false true,
    .enter false ⟨none, none⟩]

/-- The other thread then does its nonblocking operation on a blocking pipe. -/
theorem blocking_after_failed_entry : ∃ s,
    Reachable InitialCounted StepCounted (1, s) ∧ s.pc false = .calling true ∧
      s.users = 1 ∧ s.handle = ⟨0, 2, some false⟩ := by
  have hrun : (exampleFailure.foldlM nextCounted (0, exampleState)).map
      (fun p => (observe p, p.2.pc false)) =
      some ((1, ⟨0, 2, some false⟩, 1, false), .calling true) := by decide +kernel
  obtain ⟨⟨n, s⟩, hs, hobs⟩ := Option.map_eq_some_iff.1 hrun
  obtain rfl : n = 1 := congrArg (fun o => o.1.1) hobs
  have hr := Reachable.of_foldlM nextCounted stepCounted_of_nextCounted
    (.init exampleState_initial) _ hs
  exact ⟨s, hr, congrArg Prod.snd hobs, congrArg (fun o => o.1.2.2.1) hobs,
    congrArg (fun o => o.1.2.1) hobs⟩

end UnixSock
