import Gramine.ByteStream
import Gramine.Rounding

/-!
# Control messages of a UNIX send

The loop over the control messages that `send` of `net/unix.c` begins with, on the bytes that the
application passes. Rounds are counted by fuel, so a loop that goes on for ever has no result.
-/

open ByteStream

namespace UnixControl

inductive Errno
  | einval
  | enosys
  deriving DecidableEq, Repr

/-- `struct cmsghdr`, with the fields of type `int` as their bits. -/
structure Cmsghdr where
  cmsgLen : Nat
  cmsgLevel : Nat
  cmsgType : Nat
  deriving DecidableEq, Repr

/-- `sizeof(struct cmsghdr)`. -/
def cmsghdrSize : Nat := 16

def solSocket : Nat := 1

def scmRights : Nat := 1

def scmCredentials : Nat := 2

/-- The header at an offset of the buffer. -/
def cmsghdrAt (buf : List UInt8) (off : Nat) : Cmsghdr where
  cmsgLen := ofBytes ((buf.drop off).take 8)
  cmsgLevel := ofBytes ((buf.drop (off + 8)).take 4)
  cmsgType := ofBytes ((buf.drop (off + 12)).take 4)

/-- `CMSG_ALIGN`, in `size_t`. -/
def cmsgAlign (len : Nat) : Nat := Rounding.up (2 ^ 64) 8 len

/-- How a round of the loop ends. -/
inductive Turn
  | done
  | fail (err : Errno)
  | again (off rest : Nat)
  deriving DecidableEq, Repr

def turn (buf : List UInt8) (off rest : Nat) : Turn :=
  if rest < cmsghdrSize then .done
  else
    let cmsg := cmsghdrAt buf off
    if cmsg.cmsgLen < cmsghdrSize ∨ rest < cmsgAlign cmsg.cmsgLen then .fail .einval
    -- `continue`, which goes back to the condition with the same pointer and the same rest
    else if cmsg.cmsgLevel ≠ solSocket then .again off rest
    -- each case of the `switch` returns: the two lines below it, which advance, are dead
    else if cmsg.cmsgType = scmRights ∨ cmsg.cmsgType = scmCredentials then .fail .enosys
    else .fail .einval

def cmsgLoop (buf : List UInt8) : Nat → Nat → Nat → Option (Except Errno Unit)
  | 0, _, _ => none
  | fuel + 1, off, rest =>
    match turn buf off rest with
    | .done => some (.ok ())
    | .fail err => some (.error err)
    | .again off rest => cmsgLoop buf fuel off rest

/-- The loop of `send`, for a `msg_control` that may be `NULL`. -/
def scanControl (msgControl : Option (List UInt8)) (fuel : Nat) : Option (Except Errno Unit) :=
  match msgControl with
  | none => some (.ok ())
  | some buf => cmsgLoop buf fuel 0 buf.length

/-! ## What the loop is for -/

/-- The length is below that of a header, or beyond the rest of the buffer. -/
def Cmsghdr.Malformed (cmsg : Cmsghdr) (rest : Nat) : Prop :=
  cmsg.cmsgLen < cmsghdrSize ∨ rest < cmsg.cmsgLen

/-- The offsets of the headers on a walk over the buffer, with the bytes from there on. -/
inductive Reached (buf : List UInt8) : Nat → Nat → Prop
  | first : cmsghdrSize ≤ buf.length → Reached buf 0 buf.length
  | next {off rest step : Nat} : Reached buf off rest → ¬(cmsghdrAt buf off).Malformed rest →
      step = Rounding.down 8 ((cmsghdrAt buf off).cmsgLen + 7) → step + cmsghdrSize ≤ rest →
      Reached buf (off + step) (rest - step)

/-- Some header on the walk is malformed or of level `SOL_SOCKET`. -/
def Refused (buf : List UInt8) : Prop :=
  ∃ off rest, Reached buf off rest ∧
    ((cmsghdrAt buf off).Malformed rest ∨ (cmsghdrAt buf off).cmsgLevel = solSocket)

/-- The loop ends, with an error exactly if there is such a header. -/
def Scans (msgControl : Option (List UInt8)) : Prop :=
  ∃ fuel r, scanControl msgControl fuel = some r ∧
    ((∃ err, r = .error err) ↔ ∃ buf ∈ msgControl, Refused buf)

section
variable {buf : List UInt8} {off rest : Nat}

theorem Reached.size_le (h : Reached buf off rest) : cmsghdrSize ≤ buf.length := by
  induction h with
  | first hsize => exact hsize
  | next _ _ _ _ ih => exact ih

/-- If nothing fits behind the first header, the walk ends there. -/
theorem Reached.eq_first (h : Reached buf off rest)
    (hstop : buf.length < Rounding.down 8 ((cmsghdrAt buf 0).cmsgLen + 7) + cmsghdrSize) :
    off = 0 ∧ rest = buf.length := by
  induction h with
  | first => exact ⟨rfl, rfl⟩
  | next _ _ hstep hle ih =>
    obtain ⟨rfl, rfl⟩ := ih
    subst hstep
    exact absurd hle (not_le.2 hstop)

/-- A round that goes back to where it began is not left any more. -/
theorem cmsgLoop_of_again (h : turn buf off rest = .again off rest) (fuel : Nat) :
    cmsgLoop buf fuel off rest = none := by
  induction fuel with
  | zero => rfl
  | succ fuel ih => simp [cmsgLoop, h, ih]

theorem cmsgAlign_eq {len : Nat} (h : len ≤ 2 ^ 64 - 8) :
    cmsgAlign len = Rounding.down 8 (len + 7) :=
  Rounding.up_eq (by decide) (by decide) h

theorem cmsgLen_lt (buf : List UInt8) (off : Nat) : (cmsghdrAt buf off).cmsgLen < 2 ^ 64 := by
  calc (cmsghdrAt buf off).cmsgLen < 256 ^ ((buf.drop off).take 8).length := ofBytes_lt _
    _ ≤ 256 ^ 8 := Nat.pow_le_pow_right (by decide) (List.length_take_le _ _)

theorem cmsgAlign_cmsgLen (h : 2 ^ 64 - 8 < (cmsghdrAt buf off).cmsgLen) :
    cmsgAlign (cmsghdrAt buf off).cmsgLen = 0 :=
  Rounding.up_eq_zero (by decide) (by decide) h (cmsgLen_lt buf off)

theorem scans_of_fail (err : Errno) (hturn : turn buf 0 buf.length = .fail err) :
    Scans (some buf) ↔ Refused buf := by
  have hloop : ∀ fuel, scanControl (some buf) (fuel + 1) = some (.error err) := fun fuel => by
    simp [scanControl, cmsgLoop, hturn]
  constructor
  · rintro ⟨fuel, r, hr, hiff⟩
    cases fuel with
    | zero => cases hr
    | succ fuel =>
      rw [hloop] at hr
      cases hr
      simpa using hiff
  · intro h
    exact ⟨1, _, hloop 0, by simpa using h⟩

end

/-- The loop does what it is for exactly if there is no first header, or it stops at this one with
good reason: its level is `SOL_SOCKET`, or it is malformed, with a length that is not rounded
up to 0. -/
theorem scans_iff (msgControl : Option (List UInt8)) :
    Scans msgControl ↔ ∀ buf ∈ msgControl, cmsghdrSize ≤ buf.length →
      (cmsghdrAt buf 0).cmsgLevel = solSocket ∨ (cmsghdrAt buf 0).Malformed buf.length ∧
        (cmsghdrAt buf 0).cmsgLen ≤ 2 ^ 64 - 8 := by
  cases msgControl with
  | none => exact iff_of_true ⟨0, _, rfl, by simp⟩ (by simp)
  | some buf =>
    simp only [Option.mem_some_iff, forall_eq']
    by_cases hsize : cmsghdrSize ≤ buf.length
    · rw [forall_prop_of_true hsize]
      have hfirst := Reached.first hsize
      by_cases hlen : (cmsghdrAt buf 0).cmsgLen < cmsghdrSize ∨
          buf.length < cmsgAlign (cmsghdrAt buf 0).cmsgLen
      · rw [scans_of_fail .einval (by simp [turn, not_lt.2 hsize, hlen])]
        have hle : (cmsghdrAt buf 0).cmsgLen ≤ 2 ^ 64 - 8 := by
          refine not_lt.1 fun hlt => ?_
          rw [cmsgAlign_cmsgLen hlt, cmsghdrSize] at hlen
          omega
        constructor
        · rintro ⟨off, rest, hr, hbad⟩
          rcases hlen with hlen | hlen
          · exact .inr ⟨.inl hlen, hle⟩
          · rw [cmsgAlign_eq hle] at hlen
            obtain ⟨rfl, rfl⟩ := hr.eq_first (by omega)
            exact hbad.symm.imp_right fun h => ⟨h, hle⟩
        · intro h
          exact ⟨_, _, hfirst, h.symm.imp_left And.left⟩
      by_cases hlevel : (cmsghdrAt buf 0).cmsgLevel = solSocket
      · refine iff_of_true ?_ (.inl hlevel)
        have hturn : ∃ err, turn buf 0 buf.length = .fail err := by
          simp only [turn, not_lt.2 hsize, hlen, hlevel, if_false, ne_eq, not_true]
          split <;> exact ⟨_, rfl⟩
        obtain ⟨err, hturn⟩ := hturn
        exact (scans_of_fail err hturn).2 ⟨_, _, hfirst, .inr hlevel⟩
      · -- the header is skipped, and the loop is at the same place again
        refine iff_of_false ?_ ?_
        · rintro ⟨fuel, r, hr, -⟩
          have hturn : turn buf 0 buf.length = .again 0 buf.length := by
            simp [turn, not_lt.2 hsize, hlen, hlevel]
          rw [scanControl, cmsgLoop_of_again hturn] at hr
          cases hr
        · rintro (h | ⟨h, hle⟩)
          · exact hlevel h
          · have hup := Rounding.le_up (by decide) (by decide) hle
            rw [not_or, Nat.not_lt, Nat.not_lt] at hlen
            rcases h with h | h
            · exact absurd hlen.1 (not_le.2 h)
            · exact absurd (h.trans_le hup) (not_lt.2 hlen.2)
    · refine iff_of_true ⟨1, .ok (), ?_, iff_of_false nofun ?_⟩ fun h => absurd h hsize
      · simp [scanControl, cmsgLoop, turn, not_le.1 hsize]
      · rintro ⟨_, ⟨⟩, off, rest, hr, -⟩
        exact hsize hr.size_le

/-- A single well-formed header of level 0, for which the loop never ends. -/
theorem cmsgLoop_other_level : (∀ off rest, Reached (toBytes 8 16 ++ toBytes 8 0) off rest →
      ¬(cmsghdrAt (toBytes 8 16 ++ toBytes 8 0) off).Malformed rest ∧
      (cmsghdrAt (toBytes 8 16 ++ toBytes 8 0) off).cmsgLevel ≠ solSocket) ∧
    ∀ fuel, scanControl (some (toBytes 8 16 ++ toBytes 8 0)) fuel = none := by
  refine ⟨fun off rest h => ?_, fun fuel => cmsgLoop_of_again (by decide +kernel) fuel⟩
  obtain ⟨rfl, rfl⟩ := h.eq_first (by decide +kernel)
  exact ⟨by unfold Cmsghdr.Malformed; decide +kernel, by decide +kernel⟩

end UnixControl
