import Gramine.SyncProtocol

/-!
# The sync client

`libos_sync_client.c`, on one handle of one process. `use_lock` lets one thread
at a time be inside `sync_lock` … `sync_unlock`, and a handle is destroyed only
when nobody uses it, so at most one thread is *inside* the handle; `Thread` says
where. A thread waits on `handle->event` with `prop_lock` released, so its
wake-up is a step of its own (`syncLockWake`, `syncDestroyWake`) and messages can
be handled between the notification and the wake-up.

The sync
engine is enabled (`libos.sync.enable`); when it is not, handles are plain local
locks and no message is ever sent.
-/

namespace Sync

variable {Id : Type}

/-- Where the thread inside a handle is. -/
inductive Thread
  /-- No thread is inside. -/
  | idle
  /-- Waiting in `sync_lock` for the given state, with a buffer of the given
  size. -/
  | locking (state : SyncState) (dataSize : Nat)
  /-- Between `sync_lock` and `sync_unlock`; `sync_lock` returned this data, or
  nothing. -/
  | locked (updated : Option (List UInt8))
  /-- Waiting in `sync_destroy` for CONFIRM_CLOSE. -/
  | destroying
  deriving DecidableEq, Repr

/-- The thread waits in `sync_lock`. -/
def Thread.isLocking : Thread → Bool
  | .locking _ _ => true
  | _ => false

/-- The thread's `sync_lock` has returned. -/
def Thread.isLocked : Thread → Bool
  | .locked _ => true
  | _ => false

theorem Thread.isLocking_iff {t : Thread} : t.isLocking = true ↔ ∃ s n, t = .locking s n := by
  cases t <;> simp [Thread.isLocking]

theorem Thread.isLocked_iff {t : Thread} : t.isLocked = true ↔ ∃ r, t = .locked r := by
  cases t <;> simp [Thread.isLocked]

/-- `struct sync_handle`, with the position of the thread that uses it. -/
structure SyncHandle where
  data : List UInt8
  event : Bool
  nWaiters : Nat
  used : Bool
  phase : SyncPhase
  curState : SyncState
  clientReqState : SyncState
  serverReqState : SyncState
  thread : Thread
  deriving DecidableEq, Repr

/-- `sync_init`. -/
def syncInit : SyncHandle where
  data := []
  event := false
  nWaiters := 0
  used := false
  phase := .new
  curState := .invalid
  clientReqState := .none
  serverReqState := .none
  thread := .idle

namespace SyncHandle

/-- The first half of `sync_wait_without_lock`. -/
def startWait (h : SyncHandle) : SyncHandle := { h with nWaiters := h.nWaiters + 1 }

/-- The second half of `sync_wait_without_lock`, once the event is set. -/
def endWait (h : SyncHandle) : SyncHandle :=
  { h with nWaiters := h.nWaiters - 1, event := if h.nWaiters - 1 = 0 then false else h.event }

/-- `sync_notify`. -/
def notify (h : SyncHandle) : SyncHandle :=
  { h with event := if 0 < h.nWaiters then true else h.event }

/-- The data a downgrade or a close carries: the handle's, if it was EXCLUSIVE. -/
def latestData (h : SyncHandle) : List UInt8 :=
  if h.curState = .exclusive then h.data else []

/-- The handle once its user is done with it, before a postponed downgrade. -/
def release (h : SyncHandle) (data : List UInt8) : SyncHandle :=
  { h with data := if data = [] then h.data else data, used := false, thread := .idle }

end SyncHandle

/-- `sync_downgrade`. -/
def syncDowngrade (id : Id) (h : SyncHandle) : Except Fault (SyncHandle × List (Msg Id)) := do
  check .syncDowngrade (h.used = false)
  check .syncDowngrade (h.phase = .opened)
  check .syncDowngrade (h.serverReqState ≠ .none)
  check .syncDowngrade (h.serverReqState < h.curState)
  pure ({ h with curState := h.serverReqState, serverReqState := .none },
    [⟨.confirmDowngrade, id, h.serverReqState, h.latestData⟩])

/-- The loop body of `sync_lock`, up to the wait: ask the server for `state`
unless that was asked for already. -/
def requestUpgrade (id : Id) (state : SyncState) (h : SyncHandle) :
    Except Fault (SyncHandle × List (Msg Id)) :=
  if h.phase = .closing ∨ h.phase = .closed then throw .syncLock
  else if h.clientReqState < state then
    pure ({ h with clientReqState := state, phase := .opened }.startWait,
      [⟨.requestUpgrade, id, state, []⟩])
  else pure (h.startWait, [])

/-- `sync_lock`, until it returns or waits. -/
def syncLock (id : Id) (state : SyncState) (dataSize : Nat) (h : SyncHandle) :
    Except Fault (SyncHandle × List (Msg Id)) := do
  check .syncLock (state = .shared ∨ state = .exclusive)
  check .syncLock (h.used = false)
  if h.curState < state then
    requestUpgrade id state { h with used := true, thread := .locking state dataSize }
  else pure ({ h with used := true, thread := .locked none }, [])

/-- The thread waiting in `sync_lock` wakes up: it returns, or waits again. -/
def syncLockWake (id : Id) (state : SyncState) (dataSize : Nat) (h : SyncHandle) :
    Except Fault (SyncHandle × List (Msg Id)) :=
  if h.curState < state then requestUpgrade id state h.endWait
  else if 0 < dataSize ∧ h.data ≠ [] then
    if dataSize ≠ h.data.length then throw .dataSizeMismatch
    else pure ({ h.endWait with thread := .locked (some h.data) }, [])
  else pure ({ h.endWait with thread := .locked none }, [])

/-- `sync_unlock`; an empty `data` is a call without new data. -/
def syncUnlock (id : Id) (data : List UInt8) (h : SyncHandle) :
    Except Fault (SyncHandle × List (Msg Id)) := do
  check .syncUnlock (h.used = true)
  let h := h.release data
  if h.phase = .opened ∧ h.serverReqState < h.curState ∧ h.serverReqState ≠ .none then
    syncDowngrade id h
  else pure (h, [])

/-- `sync_destroy`, until it removes the handle (`none`) or waits. -/
def syncDestroy (id : Id) (h : SyncHandle) : Except Fault (Option SyncHandle × List (Msg Id)) := do
  check .syncDestroy (h.used = false)
  check .syncDestroy (h.nWaiters = 0)
  if h.phase = .opened then
    pure (some { h with phase := .closing, curState := .invalid, thread := .destroying }.startWait,
      [⟨.requestClose, id, h.curState, h.latestData⟩])
  else pure (none, [])

/-- The thread waiting in `sync_destroy` wakes up: it removes the handle, or
waits again. -/
def syncDestroyWake (h : SyncHandle) : Option SyncHandle :=
  if h.phase ≠ .closed then some h.endWait.startWait else none

/-- `do_request_downgrade`. -/
def doRequestDowngrade (id : Id) (state : SyncState) (h : SyncHandle) :
    Except Fault (SyncHandle × List (Msg Id)) :=
  if h.phase = .opened ∧ state < h.curState
      ∧ (state < h.serverReqState ∨ h.serverReqState = .none) then
    let h := { h with serverReqState := state }
    if h.used = false then syncDowngrade id h else pure (h, [])
  else pure (h, [])

/-- `do_confirm_upgrade`. -/
def doConfirmUpgrade (state : SyncState) (data : List UInt8) (h : SyncHandle) : SyncHandle :=
  let h := if h.phase = .opened ∧ h.curState < state then
      { h with curState := state, clientReqState := .none }.notify
    else h
  { h with data := if data = [] then h.data else data }

/-- `do_confirm_close`. -/
def doConfirmClose (h : SyncHandle) : SyncHandle :=
  if h.phase ≠ .closed then { h with phase := .closed }.notify else h

/-- `sync_client_message_callback`, on the handle the message names; a message
for an unknown handle is fatal (`find_handle`). -/
def clientCallback (m : Msg Id) (h : Option SyncHandle) :
    Except Fault (SyncHandle × List (Msg Id)) :=
  match m.code, h with
  | .requestDowngrade, some h => do
    check .clientCallback (m.data = [])
    doRequestDowngrade m.id m.state h
  | .confirmUpgrade, some h => pure (doConfirmUpgrade m.state m.data h, [])
  | .confirmClose, some h => pure (doConfirmClose h, [])
  | .requestDowngrade, none => throw .findHandle
  | .confirmUpgrade, none => throw .findHandle
  | .confirmClose, none => throw .findHandle
  | _, _ => throw .clientCallback

end Sync
