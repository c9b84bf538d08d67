import Gramine.SyncServer
import Gramine.SyncClient
import Gramine.Transition

/-!
# The sync engine as one system

Any number of client processes and the server, connected by one FIFO channel in
each direction (an IPC connection delivers in order). A step is a call made by a
client's application (`create`, `lock`, `unlock`, `destroy`), the wake-up of a
thread waiting inside such a call, or the delivery of the message at the head of
a channel.

`Enabled` is what the callers promise and the scheduler allows; `exec` is what
the code does. A
client calls `sync_unlock` only after its `sync_lock` returned, and `sync_destroy`
only while nobody uses the handle; everything else is free.
-/

open Function

namespace Sync

variable {Vmid Id : Type} [DecidableEq Vmid] [DecidableEq Id]

/-- Every process's handles, the server's handles, and the messages in flight,
oldest first. -/
structure Engine (Vmid Id : Type) where
  clients : Vmid → Id → Option SyncHandle
  handles : Id → Option (ServerHandle Vmid)
  toServer : Vmid → List (Msg Id)
  toClient : Vmid → List (Msg Id)

/-- The steps of the system. -/
inductive Action (Vmid Id : Type)
  | create (c : Vmid) (i : Id)
  | lock (c : Vmid) (i : Id) (state : SyncState) (dataSize : Nat)
  | lockWake (c : Vmid) (i : Id)
  | unlock (c : Vmid) (i : Id) (data : List UInt8)
  | destroy (c : Vmid) (i : Id)
  | destroyWake (c : Vmid) (i : Id)
  | toServer (c : Vmid)
  | toClient (c : Vmid)

namespace Engine

/-- No handle exists and nothing is in flight. -/
def initial : Engine Vmid Id := ⟨fun _ _ => none, fun _ => none, fun _ => [], fun _ => []⟩

/-- What must hold before an action can be taken. -/
def Enabled (e : Engine Vmid Id) : Action Vmid Id → Prop
  | .create c i => e.clients c i = none
  | .lock c i state _ =>
    (state = .shared ∨ state = .exclusive) ∧ ∃ h, e.clients c i = some h ∧ h.thread = .idle
  | .lockWake c i => ∃ h, e.clients c i = some h ∧ h.thread.isLocking = true ∧ h.event = true
  | .unlock c i _ => ∃ h, e.clients c i = some h ∧ h.thread.isLocked = true
  | .destroy c i => ∃ h, e.clients c i = some h ∧ h.thread = .idle
  | .destroyWake c i => ∃ h, e.clients c i = some h ∧ h.thread = .destroying ∧ h.event = true
  | .toServer c => e.toServer c ≠ []
  | .toClient c => e.toClient c ≠ []

instance (e : Engine Vmid Id) (a : Action Vmid Id) : Decidable (e.Enabled a) := by
  cases a <;> unfold Enabled <;> infer_instance

/-- Store one client's handle. -/
def setHandle (e : Engine Vmid Id) (c : Vmid) (i : Id) (h : Option SyncHandle) : Engine Vmid Id :=
  { e with clients := update e.clients c (update (e.clients c) i h) }

/-- A client sends messages to the server. -/
def clientSend (e : Engine Vmid Id) (c : Vmid) (ms : List (Msg Id)) : Engine Vmid Id :=
  { e with toServer := update e.toServer c (e.toServer c ++ ms) }

/-- The server sends messages to clients. -/
def serverSend (e : Engine Vmid Id) (out : Outbox Vmid Id) : Engine Vmid Id :=
  { e with toClient := fun c => e.toClient c ++ out.sentTo c }

/-- Run one client function on a handle of one process. -/
def onHandle (e : Engine Vmid Id) (c : Vmid) (i : Id)
    (f : SyncHandle → Except Fault (Option SyncHandle × List (Msg Id))) :
    Except Fault (Engine Vmid Id) :=
  match e.clients c i with
  | none => pure e
  | some h => do
    let (h, ms) ← f h
    pure ((e.setHandle c i h).clientSend c ms)

/-- A client function that keeps the handle. -/
def keep (x : Except Fault (SyncHandle × List (Msg Id))) :
    Except Fault (Option SyncHandle × List (Msg Id)) :=
  x.map fun (h, ms) => (some h, ms)

/-- The effect of an action; one that is not enabled has none. -/
def exec (e : Engine Vmid Id) : Action Vmid Id → Except Fault (Engine Vmid Id)
  | .create c i => pure (e.setHandle c i (some syncInit))
  | .lock c i state dataSize => e.onHandle c i fun h => keep (syncLock i state dataSize h)
  | .lockWake c i => e.onHandle c i fun h =>
    match h.thread with
    | .locking state dataSize => keep (syncLockWake i state dataSize h)
    | _ => pure (some h, [])
  | .unlock c i data => e.onHandle c i fun h => keep (syncUnlock i data h)
  | .destroy c i => e.onHandle c i (syncDestroy i)
  | .destroyWake c i => e.onHandle c i fun h => pure (syncDestroyWake h, [])
  | .toServer c =>
    match e.toServer c with
    | [] => pure e
    | m :: ms => do
      let (h, out) ← serverCallback c m (e.handles m.id)
      pure ({ e with handles := update e.handles m.id h,
                     toServer := update e.toServer c ms }.serverSend out)
  | .toClient c =>
    match e.toClient c with
    | [] => pure e
    | m :: ms => do
      let (h, out) ← clientCallback m (e.clients c m.id)
      pure (({ e with toClient := update e.toClient c ms }.setHandle c m.id
        (some h)).clientSend c out)

/-- One step of the system. -/
def Step (e : Engine Vmid Id) (a : Action Vmid Id) (e' : Engine Vmid Id) : Prop :=
  e.Enabled a ∧ e.exec a = .ok e'

/-- The states of all runs from the empty system. -/
def Reachable (e : Engine Vmid Id) : Prop :=
  Transition.Reachable (fun e => e = initial) Step e

/-- Take the given steps in order, if each is enabled. -/
def run (e : Engine Vmid Id) : List (Action Vmid Id) → Option (Engine Vmid Id)
  | [] => some e
  | a :: as =>
    if e.Enabled a then
      match e.exec a with
      | .ok e' => e'.run as
      | .error _ => none
    else none

theorem Reachable.run {e e' : Engine Vmid Id} {as : List (Action Vmid Id)} (hr : e.Reachable)
    (h : e.run as = some e') : e'.Reachable := by
  induction as generalizing e with
  | nil =>
    cases h
    exact hr
  | cons a as ih =>
    rw [Engine.run] at h
    split at h
    · rename_i ha
      cases he : e.exec a with
      | error f => simp [he] at h
      | ok e1 => exact ih (.step a hr ⟨ha, he⟩) (by simpa [he] using h)
    · cases h

end Engine

end Sync
