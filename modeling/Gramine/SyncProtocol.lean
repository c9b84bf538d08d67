import Gramine.Fallible

/-!
# The sync engine: states, phases and messages

The vocabulary shared by the sync client and the sync server
(`libos_sync.h`, `libos_ipc_sync.c`): the states a handle can be in on either
side, the life-cycle phases of a client's handle, and the messages the two sides
exchange. Client processes and handle ids are arbitrary types with decidable
equality; the contents of a handle are bytes, and an empty list stands for the
source's `data == NULL`, `data_size == 0`.
-/

namespace Sync

/-- `SYNC_STATE_*`, in the order of their numeric values. -/
inductive SyncState
  | none
  | invalid
  | shared
  | exclusive
  deriving DecidableEq, Repr

namespace SyncState

/-- The numeric value the source compares states by. -/
def val : SyncState → Nat
  | .none => 0
  | .invalid => 1
  | .shared => 2
  | .exclusive => 3

instance : LT SyncState := ⟨fun a b => a.val < b.val⟩
instance : LE SyncState := ⟨fun a b => a.val ≤ b.val⟩
instance (a b : SyncState) : Decidable (a < b) := inferInstanceAs (Decidable (a.val < b.val))
instance (a b : SyncState) : Decidable (a ≤ b) := inferInstanceAs (Decidable (a.val ≤ b.val))

theorem lt_def {a b : SyncState} : a < b ↔ a.val < b.val := Iff.rfl

theorem le_def {a b : SyncState} : a ≤ b ↔ a.val ≤ b.val := Iff.rfl

theorem invalid_le {a : SyncState} (h : a ≠ .none) : .invalid ≤ a := by
  cases a with
  | none => exact absurd rfl h
  | _ => decide

theorem not_exclusive_lt (a : SyncState) : ¬ .exclusive < a := by
  cases a <;> decide

theorem shared_le {a : SyncState} (h : a = .shared ∨ a = .exclusive) : .shared ≤ a := by
  rcases h with rfl | rfl <;> decide

end SyncState

/-- `SYNC_PHASE_*`. -/
inductive SyncPhase
  | new
  | opened
  | closing
  | closed
  deriving DecidableEq, Repr

/-- `IPC_MSG_SYNC_*`. -/
inductive MsgCode
  | requestUpgrade
  | requestDowngrade
  | requestClose
  | confirmUpgrade
  | confirmDowngrade
  | confirmClose
  deriving DecidableEq, Repr

/-- `struct libos_ipc_sync` with its message code. -/
structure Msg (Id : Type) where
  code : MsgCode
  id : Id
  state : SyncState
  data : List UInt8
  deriving DecidableEq, Repr

/-- The assertions and FATAL branches of the two sides, by the function they
stand in. Failed sends and allocations are not modelled. -/
inductive Fault
  | serverCallback
  | processHandle
  | doRequestUpgrade
  | doConfirmDowngrade
  | doRequestClose
  | clientCallback
  | findHandle
  | syncDowngrade
  | syncLock
  | syncUnlock
  | syncDestroy
  /-- "handle data size mismatch" in `sync_lock`: the caller's buffer does not
  have the size of the data stored with the handle. -/
  | dataSizeMismatch
  deriving DecidableEq, Repr

/-- `assert (p)` in the function `f` names. -/
def check (f : Fault) (p : Prop) [Decidable p] : Except Fault Unit :=
  if p then pure () else throw f

theorem check_of {f : Fault} {p : Prop} [Decidable p] (h : p) : check f p = .ok () := by
  simp only [check, if_pos h]
  rfl

theorem check_eq_ok {f : Fault} {p : Prop} [Decidable p] {u : Unit} : check f p = .ok u ↔ p := by
  by_cases h : p <;> simp [check, pure, Except.pure]

end Sync
