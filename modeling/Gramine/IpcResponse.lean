import Gramine.Ledger
import Gramine.Transition

/-!
# Requests over IPC and their responses

`libos_ipc.c`: a thread in `ipc_send_msg_and_get_response` puts a waiter on its stack into
`g_msg_waiters_tree`, sends its message and sleeps until the IPC worker stores a response in
the waiter (`ipc_response_callback`), or notices that the destination has disconnected
(`remove_outgoing_ipc_connection`). The sections under `g_msg_waiters_tree_lock` are single
steps; what the thread does with its waiter without the lock is one step per access.
-/

namespace IpcResponse

/-- The data of a response: the number of the message among those that arrived, and the
sequence number it carried. -/
structure Resp where
  id : Nat
  seq : Nat
  deriving DecidableEq, Repr

/-- `struct ipc_msg_waiter` with the state of its event, and a record of the responses that
were accepted for it. -/
structure Waiter where
  seq : Nat
  dest : Nat
  responseData : Option Resp
  signaled : Bool
  accepted : List Resp
  deriving DecidableEq, Repr

/-- A negative error code, or what was stored in `*resp`. -/
abbrev Result := Except Int (Option Resp)

def esrch : Int := -3

/-- Where a thread in `ipc_send_msg_and_get_response` is; `resp` says if the caller wants the
response. -/
inductive Pc
  | idle
  /-- The event has been created. -/
  | created (resp : Bool)
  /-- The waiter is in the tree, and the message is being sent. -/
  | sending (resp : Bool)
  | waiting (resp : Bool)
  /-- `wait_for_response` has returned 0. -/
  | woken (resp : Bool)
  /-- There is a response, and the caller wants it. -/
  | taking
  /-- `*resp` has been set, `waiter.response_data` not yet. -/
  | clearing (data : Option Resp)
  /-- `out:`, with the waiter in the tree. -/
  | deleting (resp : Bool) (ret : Result)
  /-- Behind the removal from the tree. -/
  | freeing (resp : Bool) (ret : Result)

/-- A call that has returned. -/
structure Return where
  seq : Nat
  resp : Bool
  accepted : List Resp
  ret : Result

/-- The waiters in the tree are named by their threads. `arrived` and `freed` record the
data of the responses, `returned` the calls. -/
structure State (T : Type) where
  ipcSeqCounter : Nat
  tree : List T
  waiter : T → Waiter
  pc : T → Pc
  arrived : List Resp
  freed : List Resp
  returned : List Return

/-- What a thread does next. -/
inductive Action
  | call (dest : Nat) (resp : Bool)
  | createFails (err : Int)
  | insert
  | send (ret : Int)
  | wait (ret : Int)
  | check
  | take
  | clear
  | delete
  | free
  deriving DecidableEq, Repr

inductive Label (T : Type)
  | thread (t : T) (a : Action)
  /-- `ipc_response_callback`. -/
  | response (seq : Nat)
  /-- `remove_outgoing_ipc_connection`. -/
  | disconnect (dest : Nat)
  deriving DecidableEq, Repr

section Step
variable {T : Type} [DecidableEq T]

/-- A thread moves on. -/
def State.goto (s : State T) (t : T) (pc : Pc) : State T :=
  { s with pc := Function.update s.pc t pc }

def State.setWaiter (s : State T) (t : T) (w : Waiter) : State T :=
  { s with waiter := Function.update s.waiter t w }

/-- `__atomic_fetch_add` of the counter. -/
def State.nextSeq (s : State T) : State T :=
  { s with ipcSeqCounter := (s.ipcSeqCounter + 1) % 2 ^ 64 }

/-- `free(waiter.response_data)` and the return. -/
def State.finish (s : State T) (t : T) (resp : Bool) (ret : Result) : State T :=
  { s with
    freed := (s.waiter t).responseData.toList ++ s.freed
    returned := ⟨(s.waiter t).seq, resp, (s.waiter t).accepted, ret⟩ :: s.returned }.goto t .idle

/-- A step of `ipc_send_msg_and_get_response`. -/
def State.act (s : State T) (t : T) (a : Action) : Option (State T) :=
  match a, s.pc t with
  | .call dest resp, .idle =>
    some ((s.nextSeq.setWaiter t ⟨s.ipcSeqCounter, dest, none, false, []⟩).goto t (.created resp))
  | .createFails err, .idle =>
    if err < 0 then
      some { s.nextSeq with returned := ⟨s.ipcSeqCounter, false, [], .error err⟩ :: s.returned }
    else none
  | .insert, .created resp => some ({ s with tree := t :: s.tree }.goto t (.sending resp))
  | .send ret, .sending resp =>
    some (s.goto t (if ret < 0 then .deleting resp (.error ret) else .waiting resp))
  | .wait ret, .waiting resp =>
    if ret < 0 then some (s.goto t (.deleting resp (.error ret)))
    -- the event is not cleared by a wait
    else if (s.waiter t).signaled then some (s.goto t (.woken resp)) else none
  | .check, .woken resp =>
    match (s.waiter t).responseData, resp with
    | none, resp => some (s.goto t (.deleting resp (.error esrch)))
    | some _, true => some (s.goto t .taking)
    | some _, false => some (s.goto t (.deleting false (.ok none)))
  | .take, .taking => some (s.goto t (.clearing (s.waiter t).responseData))
  | .clear, .clearing data =>
    some ((s.setWaiter t { s.waiter t with responseData := none }).goto t
      (.deleting true (.ok data)))
  | .delete, .deleting resp ret =>
    some ({ s with tree := s.tree.erase t }.goto t (.freeing resp ret))
  | .free, .freeing resp ret => some (s.finish t resp ret)
  | _, _ => none

/-- `avl_tree_find` in the tree of the waiters. -/
def State.find (s : State T) (seq : Nat) : Option T :=
  s.tree.find? fun t => (s.waiter t).seq == seq

/-- The data of the next message. -/
def State.nextResp (s : State T) (seq : Nat) : Resp := ⟨s.arrived.length, seq⟩

/-- `ipc_response_callback`: the data is stored for a waiter, or freed. -/
def State.response (s : State T) (seq : Nat) : State T :=
  match (if seq = 0 then none else s.find seq) with
  | none =>
    { s with
      arrived := s.nextResp seq :: s.arrived
      freed := s.nextResp seq :: s.freed }
  | some t =>
    { s with arrived := s.nextResp seq :: s.arrived }.setWaiter t
      { s.waiter t with
        responseData := some (s.nextResp seq)
        signaled := true
        accepted := s.nextResp seq :: (s.waiter t).accepted }

/-- `remove_outgoing_ipc_connection`: everybody who waits for the process is woken up. -/
def State.disconnect (s : State T) (dest : Nat) : State T :=
  { s with
    waiter := fun t =>
      if t ∈ s.tree ∧ (s.waiter t).dest = dest then
        { s.waiter t with responseData := none, signaled := true }
      else s.waiter t }

def step (s : State T) : Label T → Option (State T)
  | .thread t a => s.act t a
  | .response seq => some (s.response seq)
  | .disconnect dest => some (s.disconnect dest)

/-- The steps of the threads and of the IPC worker. -/
def Step (s : State T) (label : Label T) (s' : State T) : Prop := step s label = some s'

/-- Before the first call. -/
def Initial (s : State T) : Prop :=
  s.ipcSeqCounter = 1 ∧ s.tree = [] ∧ (∀ t, s.pc t = .idle) ∧ s.arrived = [] ∧ s.freed = [] ∧
    s.returned = []

/-- The caller has not looked at the response yet, nor given up. -/
def Pc.expects : Pc → Bool
  | .sending _ | .waiting _ | .woken _ => true
  | _ => false

/-- No waiter for a destination that disconnects has got a response; a response comes for
a waiter without one, whose caller expects it; and a call does not fail when there is a
response. -/
def Sound (s : State T) : Label T → Prop
  | .response seq => ∀ t, seq ≠ 0 → s.find seq = some t →
      (s.waiter t).responseData = none ∧ (s.pc t).expects = true
  | .disconnect dest => ∀ t ∈ s.tree, (s.waiter t).dest = dest → (s.waiter t).responseData = none
  | .thread t (.send ret) => ret < 0 → (s.waiter t).responseData = none
  | .thread t (.wait ret) => ret < 0 → (s.waiter t).responseData = none
  | .thread _ _ => True

/-- The data handed to the callers. -/
def State.handed (s : State T) : List Resp :=
  s.returned.filterMap fun r => match r.ret with
    | .ok data => data
    | .error _ => none

/-- A thread in `ipc_send_msg_and_get_response` still has this data: in its waiter, or in
`*resp`. -/
def State.has (s : State T) (t : T) (d : Resp) : Prop :=
  match s.pc t with
  | .idle => False
  | .deleting _ (.ok (some data)) | .freeing _ (.ok (some data)) =>
    d = data ∨ (s.waiter t).responseData = some d
  | _ => (s.waiter t).responseData = some d

/-- What the callers rely on. -/
structure Correct (s : State T) : Prop where
  /-- A call that returns 0 returns the response with its sequence number. -/
  own : ∀ r ∈ s.returned, r.resp = true → ∀ data, r.ret = .ok data →
    ∃ d, data = some d ∧ d.seq = r.seq
  /-- Every response is handed to one caller. -/
  once : s.handed.Nodup
  /-- A call for which a response was accepted returns it. -/
  accepted : ∀ r ∈ s.returned, ∀ d ∈ r.accepted, r.ret = .ok (if r.resp then some d else none)
  /-- No data is freed twice, or freed and handed to a caller. -/
  freed : s.freed.Nodup ∧ ∀ d ∈ s.handed, d ∉ s.freed
  /-- No data is lost. -/
  leaked : ∀ d ∈ s.arrived, d ∈ s.handed ∨ d ∈ s.freed ∨ ∃ t, s.has t d

end Step

end IpcResponse
