import Gramine.SyncProtocol

/-!
# The sync server

`libos_sync_server.c`. For every handle id the server keeps the latest data and
one *lease* for each client that opened the handle. Each handler finds the
handle and the lease, changes the lease, and lets `processHandle` grant the
requests that can be granted and ask clients to give up what stands in the way.

Every function that has an `assert` or a `FATAL` branch names it as a `Fault`
when it is reached. The messages sent are returned in order, each with the
client it goes to.

The per-client table `g_server_clients` only counts a client's leases, to be
freed with the last of them, and is left out.
-/

namespace Sync

variable {Vmid Id : Type} [DecidableEq Vmid]

/-- `struct server_lease`: what the server knows of one client's handle. -/
structure Lease (Vmid : Type) where
  vmid : Vmid
  curState : SyncState
  clientReqState : SyncState
  serverReqState : SyncState
  deriving DecidableEq

/-- `struct server_handle`. -/
structure ServerHandle (Vmid : Type) where
  data : List UInt8
  leases : List (Lease Vmid)
  deriving DecidableEq

/-- The messages a handler sends, in order, with their destinations. -/
abbrev Outbox (Vmid Id : Type) := List (Vmid × Msg Id)

/-- The messages for one client. -/
def Outbox.sentTo (out : Outbox Vmid Id) (c : Vmid) : List (Msg Id) :=
  (out.filter (fun p => p.1 = c)).map Prod.snd

/-- The lease `find_lease` creates. -/
def Lease.fresh (v : Vmid) : Lease Vmid := ⟨v, .invalid, .none, .none⟩

/-- `find_lease` with `create` false: the first lease of the client. -/
def findLease? (ls : List (Lease Vmid)) (v : Vmid) : Option (Lease Vmid) :=
  ls.find? (fun l => l.vmid = v)

/-- `find_lease` with `create` true: a missing lease is added at the tail. -/
def findLease (ls : List (Lease Vmid)) (v : Vmid) : List (Lease Vmid) × Lease Vmid :=
  match findLease? ls v with
  | some l => (ls, l)
  | none => (ls ++ [Lease.fresh v], Lease.fresh v)

/-- Store a changed lease in its place on the list. -/
def setLease (ls : List (Lease Vmid)) (l : Lease Vmid) : List (Lease Vmid) :=
  ls.map (fun k => if k.vmid = l.vmid then l else k)

/-- `LISTP_DEL` of a client's lease. -/
def delLease (ls : List (Lease Vmid)) (v : Vmid) : List (Lease Vmid) :=
  ls.eraseP (fun l => l.vmid = v)

/-- The counters of `process_handle`. -/
structure Counts where
  nShared : Nat
  nExclusive : Nat
  wantShared : Nat
  wantExclusive : Nat
  deriving DecidableEq

/-- The first loop of `process_handle`. -/
def countLeases (ls : List (Lease Vmid)) : Counts where
  nShared := ls.countP (fun l => l.curState = .shared)
  nExclusive := ls.countP (fun l => l.curState = .exclusive)
  wantShared := ls.countP (fun l => l.clientReqState = .shared)
  wantExclusive := ls.countP (fun l => l.clientReqState = .exclusive)

/-- `send_confirm_upgrade`. -/
def confirmUpgradeMsg (id : Id) (data : List UInt8) (s : SyncState) : Msg Id :=
  ⟨.confirmUpgrade, id, s, data⟩

/-- `send_request_downgrade`. -/
def requestDowngradeMsg (id : Id) (s : SyncState) : Msg Id := ⟨.requestDowngrade, id, s, []⟩

/-- `send_confirm_close`. -/
def confirmCloseMsg (id : Id) : Msg Id := ⟨.confirmClose, id, .invalid, []⟩

/-- One iteration of the upgrade loop of `process_handle`: the lease afterwards,
the counters, and the state confirmed to the client, if any. -/
def upgradeLease (l : Lease Vmid) (n : Counts) :
    Except Fault (Lease Vmid × Counts × Option SyncState) :=
  if l.clientReqState = .shared ∧ n.nExclusive = 0 then
    -- Upgrade from INVALID to SHARED
    if l.curState = .invalid then
      pure ({ l with curState := .shared, clientReqState := .none },
        { n with wantShared := n.wantShared - 1, nShared := n.nShared + 1 }, some .shared)
    else throw .processHandle
  else if l.clientReqState = .exclusive ∧ n.nExclusive = 0 ∧ n.nShared = 0 then
    -- Upgrade from INVALID to EXCLUSIVE
    if l.curState = .invalid then
      pure ({ l with curState := .exclusive, clientReqState := .none },
        { n with wantExclusive := n.wantExclusive - 1, nExclusive := n.nExclusive + 1 },
        some .exclusive)
    else throw .processHandle
  else if l.clientReqState = .exclusive ∧ n.nExclusive = 0 ∧ n.nShared = 1
      ∧ l.curState = .shared then
    -- Upgrade from SHARED to EXCLUSIVE
    pure ({ l with curState := .exclusive, clientReqState := .none },
      { n with wantExclusive := n.wantExclusive - 1, nExclusive := n.nExclusive + 1,
               nShared := n.nShared - 1 },
      some .exclusive)
  else pure (l, n, none)

/-- The upgrade loop of `process_handle`. -/
def upgradeLeases (id : Id) (data : List UInt8) :
    List (Lease Vmid) → Counts → Except Fault (List (Lease Vmid) × Counts × Outbox Vmid Id)
  | [], n => pure ([], n, [])
  | l :: ls, n => do
    let (l', n, granted) ← upgradeLease l n
    let (ls', n, out) ← upgradeLeases id data ls n
    pure (l' :: ls', n, (granted.map fun s => (l.vmid, confirmUpgradeMsg id data s)).toList ++ out)

/-- The state `process_handle` asks the holder of a lease to fall back to, after
the upgrade loop: INVALID when some client waits for EXCLUSIVE, SHARED when
some client waits for SHARED only. -/
def downgradeTarget (n : Counts) (l : Lease Vmid) : Option SyncState :=
  if n.wantExclusive ≠ 0 then
    if (l.curState = .shared ∨ l.curState = .exclusive) ∧ l.serverReqState ≠ .invalid then
      some .invalid
    else none
  else if n.wantShared ≠ 0 then
    if l.curState = .exclusive ∧ l.serverReqState ≠ .shared ∧ l.serverReqState ≠ .invalid then
      some .shared
    else none
  else none

/-- The downgrade loops of `process_handle`. -/
def downgradeLeases (id : Id) (n : Counts) : List (Lease Vmid) → List (Lease Vmid) × Outbox Vmid Id
  | [] => ([], [])
  | l :: ls =>
    let (ls', out) := downgradeLeases id n ls
    match downgradeTarget n l with
    | some s => ({ l with serverReqState := s } :: ls', (l.vmid, requestDowngradeMsg id s) :: out)
    | none => (l :: ls', out)

/-- `process_handle`. -/
def processHandle (id : Id) (h : ServerHandle Vmid) :
    Except Fault (ServerHandle Vmid × Outbox Vmid Id) := do
  let (ls, n, out) ← upgradeLeases id h.data h.leases (countLeases h.leases)
  let (ls, out') := downgradeLeases id n ls
  pure ({ h with leases := ls }, out ++ out')

/-- `find_handle` with `create` true. -/
def findHandle (h : Option (ServerHandle Vmid)) : ServerHandle Vmid := h.getD ⟨[], []⟩

/-- `do_request_upgrade` on the server's record of one handle id. -/
def doRequestUpgrade (v : Vmid) (id : Id) (state : SyncState) (h : Option (ServerHandle Vmid)) :
    Except Fault (Option (ServerHandle Vmid) × Outbox Vmid Id) := do
  check .doRequestUpgrade (state = .shared ∨ state = .exclusive)
  let h := findHandle h
  let (ls, l) := findLease h.leases v
  check .doRequestUpgrade (l.curState < state)
  -- the lease moves to the end of the list, so that requests are served in order
  let ls := delLease ls v ++ [{ l with clientReqState := state }]
  let (h, out) ← processHandle id { h with leases := ls }
  pure (some h, out)

/-- `do_confirm_downgrade` on the server's record of one handle id. -/
def doConfirmDowngrade (v : Vmid) (id : Id) (state : SyncState) (data : List UInt8)
    (h : Option (ServerHandle Vmid)) :
    Except Fault (Option (ServerHandle Vmid) × Outbox Vmid Id) := do
  check .doConfirmDowngrade (state = .invalid ∨ state = .shared)
  let h := findHandle h
  let (ls, l) := findLease h.leases v
  check .doConfirmDowngrade (state < l.curState)
  check .doConfirmDowngrade (l.curState = .exclusive ∨ data = [])
  let data := if l.curState = .exclusive then data else h.data
  let serverReq := if state ≤ l.serverReqState then .none else l.serverReqState
  let ls := setLease ls { l with curState := state, serverReqState := serverReq }
  let (h, out) ← processHandle id { data := data, leases := ls }
  pure (some h, out)

/-- `do_request_close` on the server's record of one handle id. -/
def doRequestClose (v : Vmid) (id : Id) (curState : SyncState) (data : List UInt8)
    (h : Option (ServerHandle Vmid)) :
    Except Fault (Option (ServerHandle Vmid) × Outbox Vmid Id) := do
  check .doRequestClose (curState = .invalid ∨ curState = .shared ∨ curState = .exclusive)
  let some h := h | throw .doRequestClose
  check .doRequestClose (findLease? h.leases v ≠ none)
  check .doRequestClose (curState = .exclusive ∨ data = [])
  let data := if curState = .exclusive then data else h.data
  let ls := delLease h.leases v
  if ls = [] then pure (none, [(v, confirmCloseMsg id)])
  else
    let (h, out) ← processHandle id { data := data, leases := ls }
    pure (some h, (v, confirmCloseMsg id) :: out)

/-- `sync_server_message_callback`, on the record of the message's handle id. -/
def serverCallback (v : Vmid) (m : Msg Id) (h : Option (ServerHandle Vmid)) :
    Except Fault (Option (ServerHandle Vmid) × Outbox Vmid Id) :=
  match m.code with
  | .requestUpgrade => do
    check .serverCallback (m.data = [])
    doRequestUpgrade v m.id m.state h
  | .confirmDowngrade => doConfirmDowngrade v m.id m.state m.data h
  | .requestClose => doRequestClose v m.id m.state m.data h
  | _ => throw .serverCallback

end Sync
