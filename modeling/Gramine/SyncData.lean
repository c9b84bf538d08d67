import Gramine.SyncProgress

/-!
# The data of the sync engine

Where the newest copy of a handle's data is: with the server while no lease is EXCLUSIVE, and
otherwise with the client that has this lease, or in the first message on its way back. A
client that has the handle SHARED has the same data, and every CONFIRM_UPGRADE carries it
(`DataOk`).

The clients keep to what `sync_unlock` is for: new data come from a client that has the handle
EXCLUSIVE, and all data of a handle have one size. The server keeps the data only as long as
there is a lease (`Keeps`).
-/

open Function List

namespace Sync

open Fallible

variable {Vmid Id : Type}

/-! ## What the client functions do with the data -/

section ClientFunctions
variable {i : Id} {h h' : SyncHandle} {ms : List (Msg Id)}

variable {s : SyncState}

theorem requestUpgrade_data (he : requestUpgrade i s h = .ok (h', ms)) :
    h'.data = h.data ∧ h'.curState = h.curState ∧ ∀ m ∈ ms, m.code = .requestUpgrade := by
  unfold requestUpgrade at he
  split at he
  · cases he
  split at he
  all_goals
    cases he
    exact ⟨rfl, rfl, by simp⟩

variable {n : Nat}

theorem syncLock_data (he : syncLock i s n h = .ok (h', ms)) :
    h'.data = h.data ∧ h'.curState = h.curState ∧ ∀ m ∈ ms, m.code = .requestUpgrade := by
  simp only [syncLock, bind_eq_ok, check_eq_ok, exists_const] at he
  obtain ⟨-, -, he⟩ := he
  split at he
  · have hsame := requestUpgrade_data he
    exact hsame
  · cases he
    exact ⟨rfl, rfl, by simp⟩

theorem syncLockWake_data (he : syncLockWake i s n h = .ok (h', ms)) :
    h'.data = h.data ∧ h'.curState = h.curState ∧ ∀ m ∈ ms, m.code = .requestUpgrade := by
  unfold syncLockWake at he
  split at he
  · have hsame := requestUpgrade_data he
    exact hsame
  split at he
  · split at he
    · cases he
    · cases he
      exact ⟨rfl, rfl, by simp⟩
  · cases he
    exact ⟨rfl, rfl, by simp⟩

/-- A thread that waits has the buffer of its `sync_lock`. -/
theorem syncLock_buffer {t : SyncState} {k : Nat} (he : syncLock i s n h = .ok (h', ms))
    (ht : h'.thread = .locking t k) : k = n ∧ .shared ≤ t := by
  simp only [syncLock, bind_eq_ok, check_eq_ok, exists_const] at he
  obtain ⟨hs, -, he⟩ := he
  split at he
  · rw [(requestUpgrade_same he).1] at ht
    cases ht
    exact ⟨rfl, SyncState.shared_le hs⟩
  · cases he
    cases ht

theorem syncLockWake_thread (he : syncLockWake i s n h = .ok (h', ms)) :
    h'.thread = h.thread ∨ s ≤ h.curState ∧
      h'.thread = .locked (if 0 < n ∧ h.data ≠ [] then some h.data else none) := by
  unfold syncLockWake at he
  split at he
  · exact .inl (requestUpgrade_same he).1
  rename_i hs
  refine .inr ⟨Nat.le_of_not_lt hs, ?_⟩
  split at he
  · rename_i hdata
    split at he
    · cases he
    · cases he
      rw [if_pos hdata]
  · rename_i hdata
    cases he
    rw [if_neg hdata]

/-- When `sync_lock` refuses the caller's buffer. -/
theorem syncLockWake_mismatch (he : syncLockWake i s n h = .error .dataSizeMismatch) :
    s ≤ h.curState ∧ h.data ≠ [] ∧ n ≠ h.data.length := by
  unfold syncLockWake requestUpgrade at he
  split at he
  · split at he
    · cases he
    · split at he
      · cases he
      · cases he
  · rename_i hs
    split at he
    · rename_i hdata
      split at he
      · rename_i hne
        exact ⟨Nat.le_of_not_lt hs, hdata.2, hne⟩
      · cases he
    · cases he

theorem syncDowngrade_data (he : syncDowngrade i h = .ok (h', ms)) :
    h'.data = h.data ∧ h'.curState < h.curState ∧ ∀ m ∈ ms, m.data = h.latestData := by
  simp only [syncDowngrade, bind_eq_ok, check_eq_ok, exists_const] at he
  obtain ⟨-, -, -, hlt, he⟩ := he
  cases he
  exact ⟨rfl, hlt, by simp⟩

theorem syncUnlock_data {data : List UInt8} (he : syncUnlock i data h = .ok (h', ms)) :
    h'.data = (h.release data).data ∧ h'.curState ≤ h.curState ∧
      ∀ m ∈ ms, m.data = (h.release data).latestData := by
  simp only [syncUnlock, bind_eq_ok, check_eq_ok, exists_const] at he
  obtain ⟨-, he⟩ := he
  split at he
  · obtain ⟨hdata, hlt, hms⟩ := syncDowngrade_data he
    exact ⟨hdata, Nat.le_of_lt hlt, hms⟩
  · cases he
    exact ⟨rfl, Nat.le_refl _, by simp⟩

theorem syncDestroy_data {oh : Option SyncHandle} (he : syncDestroy i h = .ok (oh, ms)) :
    (∀ h', oh = some h' → h'.data = h.data ∧ h'.curState = .invalid) ∧
      ∀ m ∈ ms, m.data = h.latestData := by
  simp only [syncDestroy, bind_eq_ok, check_eq_ok, exists_const] at he
  obtain ⟨-, -, he⟩ := he
  split at he
  · cases he
    refine ⟨?_, by simp⟩
    rintro _ ⟨⟩
    exact ⟨rfl, rfl⟩
  · cases he
    exact ⟨by simp, by simp⟩

theorem syncDestroyWake_data (he : syncDestroyWake h = some h') :
    h'.data = h.data ∧ h'.curState = h.curState ∧ h'.thread = h.thread := by
  unfold syncDestroyWake at he
  split at he
  · cases he
    exact ⟨rfl, rfl, rfl⟩
  · cases he

/-- A request is heeded at once only when no thread uses the handle. -/
theorem doRequestDowngrade_data {t : SyncState} (he : doRequestDowngrade i t h = .ok (h', ms)) :
    h'.data = h.data ∧ h'.curState ≤ h.curState ∧
      ∀ m ∈ ms, m.data = h.latestData ∧ h.used = false := by
  unfold doRequestDowngrade at he
  split at he
  · simp only at he
    split at he
    case isTrue hused =>
      obtain ⟨hdata, hlt, hms⟩ := syncDowngrade_data he
      exact ⟨hdata, Nat.le_of_lt hlt, fun m hm => ⟨hms m hm, hused⟩⟩
    case isFalse =>
      cases he
      exact ⟨rfl, Nat.le_refl _, by simp⟩
  · cases he
    exact ⟨rfl, Nat.le_refl _, by simp⟩

theorem doConfirmUpgrade_data (state : SyncState) (data : List UInt8) (h : SyncHandle) :
    (doConfirmUpgrade state data h).data = if data = [] then h.data else data := by
  unfold doConfirmUpgrade
  by_cases hc : h.phase = .opened ∧ h.curState < state
  · simp only [if_pos hc]
    rfl
  · simp [if_neg hc]

end ClientFunctions

/-! ## Where a link has its data -/

theorem Downs.head_cases {i : Id} {s t : SyncState} {ms up : List (Msg Id)} {m x : Msg Id}
    (h : Downs i s ms t) (he : m :: up = ms ++ [x]) :
    (s = t ∧ m = x) ∨ m.code = .confirmDowngrade := by
  cases h with
  | nil =>
    simp only [nil_append, List.cons.injEq] at he
    exact .inl ⟨rfl, he.1⟩
  | cons =>
    simp only [cons_append, List.cons.injEq] at he
    rw [he.1]
    exact .inr rfl

namespace Link
variable {i : Id} {h : SyncHandle} {oh : Option SyncHandle} {l : Lease Vmid}
  {o : Option (Lease Vmid)} {up down : List (Msg Id)} {m : Msg Id}

/-- A client with an EXCLUSIVE lease that has sent nothing and does not wait has the handle
EXCLUSIVE. -/
theorem exclusive_of_silent (hl : Link i (some h) (some l) [] down)
    (hx : l.curState = .exclusive) (hw : ∀ s, ¬ Waits h s) : h.curState = .exclusive := by
  generalize hu : ([] : List (Msg Id)) = up at hl
  cases hl with
  | settled _ _ _ _ _ _ downs _ =>
    subst hu
    exact downs.eq_of_nil.symm.trans hx
  | asking => simp at hu
  | pending waits | granted waits => exact absurd waits (hw _)
  | closing => simp at hu

/-- A client that has the handle EXCLUSIVE has sent nothing that is still on its way. -/
theorem silent_of_exclusive (hl : Link i (some h) o up down) (hx : h.curState = .exclusive) :
    up = [] ∧ (∀ m ∈ down, m.code ≠ .confirmUpgrade) ∧
      ∃ l, o = some l ∧ l.curState = .exclusive := by
  have hnot : ∀ s, ¬ Waits h s := by
    intro s hw
    have := hw.cur
    rw [hx] at this
    exact SyncState.not_exclusive_lt _ this
  cases hl with
  | fresh => cases hx
  | @settled _ l _ _ _ _ _ _ _ _ downs asks =>
    have hle := downs.le
    have hlx : l.curState = .exclusive := by
      rw [hx] at hle
      cases hc : l.curState with
      | exclusive => rfl
      | none | invalid | shared => rw [hc] at hle; exact absurd hle (by decide)
    refine ⟨?_, ?_, l, rfl, hlx⟩
    · rw [hlx, hx] at downs
      cases downs with
      | nil => rfl
      | cons _ hlt _ downs => exact absurd downs.le (Nat.not_le.2 hlt)
    · intro m hm
      obtain ⟨-, rfl⟩ := asks.allAsks m hm
      simp [requestDowngradeMsg]
  | opening waits | asking waits | pending waits | granted waits => exact absurd waits (hnot _)
  | closing _ _ _ cur | unleased _ _ _ cur | closed _ _ _ cur => rw [hx] at cur; cases cur

/-- While a request is the oldest message, the lease is not EXCLUSIVE; REQUEST_CLOSE names the
state of the lease then. -/
theorem of_request (hl : Link i oh (some l) (m :: up) down) :
    (m.code = .requestUpgrade → l.curState ≠ .exclusive) ∧
      (m.code = .requestClose → m.state = l.curState) := by
  generalize hu : m :: up = u at hl
  cases hl with
  | settled _ _ _ _ _ _ downs _ =>
    subst hu
    cases downs with
    | cons => exact ⟨nofun, nofun⟩
  | asking waits _ downs _ =>
    rcases downs.head_cases hu with ⟨hc, rfl⟩ | hcode
    · refine ⟨fun _ hx => ?_, nofun⟩
      have hlt := waits.cur
      rw [← hc, hx] at hlt
      exact SyncState.not_exclusive_lt _ hlt
    · simp [hcode]
  | pending | granted => cases hu
  | closing _ _ _ _ _ downs _ _ =>
    rcases downs.head_cases hu with ⟨hc, rfl⟩ | hcode
    · exact ⟨nofun, fun _ => hc.symm⟩
    · simp [hcode]

theorem of_confirm_mem (hl : Link i oh o up down) (hmem : m ∈ down)
    (hm : m.code = .confirmUpgrade) :
    up = [] ∧ ∃ l, o = some l ∧ .shared ≤ l.curState := by
  have hasks : ∀ d : List (Msg Id), AllAsks i d → m ∉ d := by
    intro d hd hmd
    obtain ⟨t, rfl⟩ := hd m hmd
    cases hm
  cases hl with
  | absent | fresh => cases hmem
  | settled _ _ _ _ _ _ _ asks => exact absurd hmem (hasks _ asks.allAsks)
  | opening => cases hmem
  | asking _ _ _ asks | pending _ _ _ asks => exact absurd hmem (hasks _ asks.allAsks)
  | granted waits _ cur _ _ =>
    exact ⟨rfl, _, rfl, cur ▸ SyncState.shared_le waits.state⟩
  | closing _ _ _ _ _ _ _ asks => exact absurd hmem (hasks _ asks)
  | unleased _ _ _ _ asks =>
    rcases mem_append.1 hmem with hmem | hmem
    · exact absurd hmem (hasks _ asks)
    · rw [mem_singleton.1 hmem] at hm
      cases hm
  | closed => cases hmem

end Link

/-! ## What the server does with the data -/

section Server
variable [DecidableEq Vmid] {i : Id} {v c : Vmid}

/-- What `process_handle` does to the states of the leases: they only rise, and a client whose
lease rises is sent the data; none does while a lease is EXCLUSIVE. -/
structure Raises (before after : Vmid → Option (Lease Vmid)) (data : List UInt8)
    (out : Outbox Vmid Id) : Prop where
  none : ∀ c, before c = none → after c = none
  some : ∀ c l, before c = some l → ∃ l', after c = some l' ∧ (l'.curState = l.curState ∨
    l.curState < l'.curState ∧ ∃ k ∈ out.sentTo c, k.code = .confirmUpgrade)
  confirm : ∀ c, ∀ k ∈ out.sentTo c, k.code = .confirmUpgrade → k.data = data ∧
    ∀ c' l, before c' = Option.some l → l.curState ≠ .exclusive

variable {out : Outbox Vmid Id}

theorem processHandle_data {h h' : ServerHandle Vmid} (hok : LeasesOk h.leases)
    (hp : processHandle i h = .ok (h', out)) :
    h'.data = h.data ∧ Raises (findLease? h.leases) (leaseOf (some h')) h.data out := by
  obtain ⟨mid, ls, out1, out2, heq, hw, hw', hok', -⟩ := processHandle_spec i hok
  cases heq.symm.trans hp
  have hnd' : (mid.map Lease.vmid).Nodup := by
    rw [hw.map_vmid]
    exact hok.nodup
  -- the two walks, for one client
  have hlease : ∀ c l, findLease? h.leases c = some l → ∃ ms l' ms' l'',
      Grants i h.data l ms l' ∧ Asks i l' ms' l'' ∧ findLease? ls c = some l'' ∧
        Outbox.sentTo (out1 ++ out2) c = ms ++ ms' := by
    intro c l hl
    obtain ⟨ms, l', hg, hl', hms⟩ := hw.lookup hok.nodup hl
    obtain ⟨ms', l'', ha, hl'', hms'⟩ := hw'.lookup hnd' hl'
    refine ⟨ms, l', ms', l'', hg, ha, hl'', ?_⟩
    rw [Outbox.sentTo_append, Outbox.sentTo, Outbox.sentTo, hms, hms']
  have hasks : ∀ {l l' : Lease Vmid} {ms : List (Msg Id)}, Asks i l ms l' →
      l'.curState = l.curState ∧ ∀ k ∈ ms, k.code ≠ .confirmUpgrade := by
    intro l l' ms ha
    cases ha with
    | skip => exact ⟨rfl, by simp⟩
    | ask => exact ⟨rfl, by simp [requestDowngradeMsg]⟩
  have hle : ∀ c l, findLease? h.leases c = some l → ∃ l'', findLease? ls c = some l'' ∧
      (l''.curState = l.curState ∨ l.curState < l''.curState ∧
        ∃ k ∈ Outbox.sentTo (out1 ++ out2) c, k.code = .confirmUpgrade) := by
    intro c l hl
    obtain ⟨ms, l', ms', l'', hg, ha, hl'', hms⟩ := hlease c l hl
    refine ⟨l'', hl'', ?_⟩
    rw [(hasks ha).1, hms]
    cases hg with
    | skip => exact .inl rfl
    | grant s hreq hs hcur =>
      exact .inr ⟨hcur, _, mem_append_left _ (mem_singleton.2 rfl), rfl⟩
  refine ⟨rfl, fun c hc => ?_, hle, fun c k hk hcode => ?_⟩
  · exact (hw'.lookup_none (hw.lookup_none hc).1).1
  cases hc : findLease? h.leases c with
  | none =>
    obtain ⟨h1, h2⟩ := hw.lookup_none hc
    obtain ⟨-, h4⟩ := hw'.lookup_none h1
    rw [Outbox.sentTo_append, Outbox.sentTo, Outbox.sentTo, h2, h4] at hk
    cases hk
  | some l =>
    obtain ⟨_, _, _, l'', hg, ha, hl'', hms⟩ := hlease c l hc
    rw [hms] at hk
    rcases mem_append.1 hk with hk | hk
    · cases hg with
      | skip => cases hk
      | grant s hreq hs hcur =>
        obtain rfl := mem_singleton.1 hk
        refine ⟨rfl, fun c' l2 hl2 hx => ?_⟩
        -- an EXCLUSIVE lease stays, and no other one can be granted beside it
        have hstate : l''.curState = s := (hasks ha).1
        by_cases hcc : c' = c
        · subst hcc
          obtain rfl : l2 = l := Option.some.inj (hl2.symm.trans hc)
          rw [hx] at hcur
          exact SyncState.not_exclusive_lt _ hcur
        · obtain ⟨l3, hl3, hor⟩ := hle c' l2 hl2
          have hx3 : l3.curState = .exclusive := by
            rcases hor with heq | ⟨hlt, -⟩
            · exact heq.trans hx
            · rw [hx] at hlt
              exact absurd hlt (SyncState.not_exclusive_lt _)
          have hinv := hok'.invalid_of_exclusive hcc hl3 hl'' hx3
          rw [hstate] at hinv
          subst hinv
          rcases hs with hs | hs <;> cases hs
    · exact absurd hcode ((hasks ha).2 k hk)

section
variable {m : Msg Id} {r r' : Option (ServerHandle Vmid)} {o' : Option (Lease Vmid)}
  (hok : LeasesOk (findHandle r).leases) (hr : Receives v m.id m (leaseOf r v) o')
include hok hr

/-- What a handler leaves at the server: the data, and leases that only rise from what they were
after the message. -/
theorem serverCallback_data (he : serverCallback v m r = .ok (r', out)) (hsome : r' ≠ none) :
    (findHandle r').data = storedData m (leaseOf r v) (findHandle r).data ∧
      Raises (leaseAfter v r o') (leaseOf r') (findHandle r').data out := by
  obtain ⟨ls, hls, hfind, ⟨h', out', hp, he'⟩ | ⟨-, he'⟩⟩ := serverCallback_handles hok hr
  · cases he.symm.trans he'
    obtain ⟨hdata, hraises⟩ := processHandle_data hls hp
    have hbefore : findLease? ls = leaseAfter v r o' := funext hfind
    have hmem : ∀ c, ∀ k ∈ Outbox.sentTo ((reply m).map (Prod.mk v) ++ out') c,
        k.code = .confirmUpgrade → k ∈ out'.sentTo c := by
      intro c k hk hcode
      rw [sentTo_reply] at hk
      rcases mem_append.1 hk with hk | hk
      · split at hk
        · unfold reply at hk
          split at hk
          · rw [mem_singleton.1 hk] at hcode
            cases hcode
          · cases hk
        · cases hk
      · exact hk
    rw [show findLease? (ServerHandle.leases ⟨_, ls⟩) = leaseAfter v r o' from hbefore] at hraises
    refine ⟨hdata, hraises.none, fun c l hl => ?_, fun c k hk hcode => ?_⟩
    · obtain ⟨l', hl', hor⟩ := hraises.some c l hl
      refine ⟨l', hl', hor.imp_right fun ⟨hlt, k, hk, hcode⟩ => ⟨hlt, k, ?_, hcode⟩⟩
      rw [sentTo_reply]
      exact mem_append_right _ hk
    · obtain ⟨hk_data, hnone⟩ := hraises.confirm c k (hmem c k hk hcode) hcode
      exact ⟨hk_data.trans hdata.symm, hnone⟩
  · cases he.symm.trans he'
    exact absurd rfl hsome

/-- The record of a handle is dropped with its last lease. -/
theorem serverCallback_none (he : serverCallback v m r = .ok (none, out)) (c : Vmid) :
    leaseAfter v r o' c = none := by
  obtain ⟨ls, -, hfind, ⟨h', out', -, he'⟩ | ⟨rfl, -⟩⟩ := serverCallback_handles hok hr
  · cases he.symm.trans he'
  · exact (hfind c).symm

end

end Server

/-! ## The invariant -/

/-- Where the newest data are, seen from one client. -/
structure DataOk (latest : List UInt8) (oh : Option SyncHandle) (o : Option (Lease Vmid))
    (up down : List (Msg Id)) : Prop where
  cur : ∀ h, oh = some h → .shared ≤ h.curState → h.data = latest
  none : latest = [] → ∀ h, oh = some h → h.data = []
  confirm : ∀ m ∈ down, m.code = .confirmUpgrade → m.data = latest
  newest : ∀ l, o = some l → l.curState = .exclusive → ∀ m ∈ up.head?, m.data = latest

namespace DataOk
variable {i : Id} {h h' : SyncHandle} {oh' : Option SyncHandle} {o : Option (Lease Vmid)}
  {latest : List UInt8} {up down down' ms : List (Msg Id)}

theorem client (hd : DataOk latest (some h) o up down) (hl : Link i (some h) o up down')
    (hl' : Link i oh' o (up ++ ms) down) (hcur : ∀ h', oh' = some h' → .shared ≤ h'.curState →
      h'.data = latest) (hnone : latest = [] → ∀ h', oh' = some h' → h'.data = [])
    (hsend : ∀ m ∈ ms, m.code = .requestUpgrade ∨
      (m.data = h.latestData ∧ ∀ s, ¬ Waits h s)) : DataOk latest oh' o (up ++ ms) down := by
  refine ⟨hcur, hnone, hd.confirm, fun l ho hx m hm => ?_⟩
  subst ho
  cases up with
  | cons k up => exact hd.newest l rfl hx m hm
  | nil =>
    have hmem : m ∈ ms := mem_of_mem_head? hm
    obtain ⟨rest, rfl⟩ : ∃ rest, ms = m :: rest := by
      cases ms with
      | nil => cases hm
      | cons k rest =>
        obtain rfl : k = m := by simpa using hm
        exact ⟨rest, rfl⟩
    rcases hsend m hmem with hcode | ⟨hdata, hnot⟩
    · exact absurd hx (hl'.of_request.1 hcode)
    · have hhx := hl.exclusive_of_silent hx hnot
      rw [hdata, SyncHandle.latestData, if_pos hhx]
      exact hd.cur h rfl (by rw [hhx]; decide)

end DataOk

namespace Engine
variable [DecidableEq Vmid] [DecidableEq Id]

/-- What the clients keep to: all data of a handle have its size, new data come from a client that
has it EXCLUSIVE, and a handle is closed only while there is another lease for it. -/
def Keeps (size : Id → Nat) (e : Engine Vmid Id) : Action Vmid Id → Prop
  | .lock _ i _ dataSize => dataSize = size i
  | .unlock c i data => data = [] ∨
      data.length = size i ∧ ∀ h, e.clients c i = some h → h.curState = .exclusive
  | .toServer c => ∀ m ∈ (e.toServer c).head?, m.code = .requestClose →
      ∃ c', c' ≠ c ∧ leaseOf (e.handles m.id) c' ≠ none
  | _ => True

/-- The data of the latest `sync_unlock` that had some, for every handle. -/
def latestAfter (latest : Id → List UInt8) : Action Vmid Id → Id → List UInt8
  | .unlock _ i data => if data = [] then latest else update latest i data
  | _ => latest

/-- The engine with the latest data of every handle. -/
def DataStep (size : Id → Nat) (s : Engine Vmid Id × (Id → List UInt8)) (a : Action Vmid Id)
    (s' : Engine Vmid Id × (Id → List UInt8)) : Prop :=
  s.1.Keeps size a ∧ s.1.Step a s'.1 ∧ s'.2 = latestAfter s.2 a

instance [Fintype Vmid] (size : Id → Nat) (e : Engine Vmid Id) (a : Action Vmid Id) :
    Decidable (e.Keeps size a) := by
  match a with
  | .create .. | .lock .. | .lockWake .. | .unlock .. | .destroy .. | .destroyWake .. | .toServer ..
  | .toClient .. =>
    unfold Keeps
    infer_instance

/-- One step of a run that is computed. -/
def dataNext [Fintype Vmid] (size : Id → Nat) (s : Engine Vmid Id × (Id → List UInt8))
    (a : Action Vmid Id) : Option (Engine Vmid Id × (Id → List UInt8)) :=
  if s.1.Keeps size a ∧ s.1.Enabled a then
    (s.1.exec a).toOption.map fun e => (e, latestAfter s.2 a)
  else none

/-- Nothing has been stored. -/
def DataInitial (s : Engine Vmid Id × (Id → List UInt8)) : Prop := s = (initial, fun _ => [])

/-- No client has a lease EXCLUSIVE. -/
def Unowned (e : Engine Vmid Id) (i : Id) : Prop :=
  ∀ c l, leaseOf (e.handles i) c = some l → l.curState ≠ .exclusive

/-- Where the newest data of every handle are. -/
structure DataInv (size : Id → Nat) (e : Engine Vmid Id) (latest : Id → List UInt8) : Prop where
  link : ∀ c i, DataOk (latest i) (e.clients c i) (leaseOf (e.handles i) c)
    (about i (e.toServer c)) (about i (e.toClient c))
  server : ∀ i, e.Unowned i → (findHandle (e.handles i)).data = latest i
  length : ∀ i, latest i = [] ∨ (latest i).length = size i
  buffer : ∀ c i h s n, e.clients c i = some h → h.thread = .locking s n → n = size i ∧ .shared ≤ s

variable {size : Id → Nat} {e e' : Engine Vmid Id} {latest latest' : Id → List UInt8} {c : Vmid}
  {i : Id}

theorem dataInv_initial : DataInv size (initial : Engine Vmid Id) (fun _ => []) where
  link c i := ⟨by simp [initial], by simp [initial], by simp [initial, about],
    by simp [initial, about]⟩
  server i _ := rfl
  length i := .inl rfl
  buffer := by simp [initial]

variable {ms : List (Msg Id)} {oh : Option SyncHandle}

theorem DataInv.client (hd : DataInv size e latest) (hid : ∀ m ∈ ms, m.id = i)
    (hself : DataOk (latest i) oh (leaseOf (e.handles i) c) (about i (e.toServer c) ++ ms)
      (about i (e.toClient c)))
    (hbuffer : ∀ h s n, oh = some h → h.thread = .locking s n → n = size i ∧ .shared ≤ s) :
    DataInv size ((e.setHandle c i oh).clientSend c ms) latest := by
  refine ⟨fun c' j => ?_, hd.server, hd.length, fun c' j h s n hh ht => ?_⟩
  · rw [clients_setHandle, about_clientSend hid]
    split_ifs with heq
    · obtain ⟨rfl, rfl⟩ := heq
      exact hself
    · rw [append_nil]
      exact hd.link c' j
  · rw [clients_setHandle] at hh
    split at hh
    · rename_i heq
      obtain ⟨rfl, rfl⟩ := heq
      exact hbuffer h s n hh ht
    · exact hd.buffer c' j h s n hh ht

variable {h : SyncHandle}

theorem DataInv.of_client (hd : DataInv size e latest) (hi : Inv e) (hh : e.clients c i = some h)
    (hl' : Link i oh (leaseOf (e.handles i) c) (about i (e.toServer c) ++ ms)
      (about i (e.toClient c)))
    (hcur : ∀ h', oh = some h' → h'.data = h.data ∧ h'.curState ≤ h.curState)
    (hsend : ∀ m ∈ ms, m.code = .requestUpgrade ∨ (m.data = h.latestData ∧ ∀ s, ¬ Waits h s))
    (hbuffer : ∀ h s n, oh = some h → h.thread = .locking s n → n = size i ∧ .shared ≤ s) :
    DataInv size ((e.setHandle c i oh).clientSend c ms) latest := by
  have hl := hi.link c i
  have hok := hd.link c i
  rw [hh] at hl hok
  refine hd.client (fun m hm => hl'.msg_id.1 m (mem_append_right _ hm))
    (hok.client hl hl' (fun h' ho hle => ?_) (fun hnone h' ho => ?_) hsend) hbuffer
  · obtain ⟨hdata, hcur⟩ := hcur h' ho
    exact hdata.trans (hok.cur h rfl (Nat.le_trans hle hcur))
  · exact (hcur h' ho).1.trans (hok.none hnone h rfl)

theorem not_waits_of_thread (ht : h.thread.isLocking = false) : ∀ s, ¬ Waits h s := by
  intro s hw
  obtain ⟨n, hn⟩ := hw.thread
  rw [hn] at ht
  cases ht

theorem DataInv.store (hd : DataInv size e latest) (hi : Inv e) {h' : SyncHandle}
    (hh : e.clients c i = some h) (hx : h.curState = .exclusive) {data : List UInt8}
    (hne : data ≠ []) (hlen : data.length = size i) (hid : ∀ m ∈ ms, m.id = i)
    (hdata : h'.data = data) (hms : ∀ m ∈ ms, m.data = data) (hidle : h'.thread = .idle) :
    DataInv size ((e.setHandle c i (some h')).clientSend c ms)
      (update latest i data) := by
  have hl := hi.link c i
  rw [hh] at hl
  obtain ⟨hup, hdown, l, hlease, hlx⟩ := hl.silent_of_exclusive hx
  have hlatest : update latest i data i = data := update_self ..
  have hothers : ∀ c', c' ≠ c → ∀ l', leaseOf (e.handles i) c' = some l' → l'.curState = .invalid :=
    fun c' hc l' hl' => hi.exclusive (Ne.symm hc) hlease hl' hlx
  refine ⟨fun c' j => ?_, fun j => ?_, fun j => ?_, fun c' j k s n hk ht => ?_⟩
  · by_cases hj : j = i
    · subst hj
      rw [hlatest]
      by_cases hc : c' = c
      · subst hc
        rw [about_clientSend hid, hup, nil_append, clients_setHandle, if_pos ⟨rfl, rfl⟩,
          if_pos ⟨rfl, rfl⟩]
        refine ⟨?_, fun hn => absurd hn hne, fun m hm hcode => absurd hcode (hdown m hm), ?_⟩
        · rintro _ ⟨⟩ _
          exact hdata
        · intro l' _ _ m hm
          exact hms m (mem_of_mem_head? hm)
      · rw [clients_setHandle, if_neg (fun hcc => hc hcc.1)]
        refine ⟨fun k hk hle => ?_, fun hn => absurd hn hne, fun m hm hcode => ?_, ?_⟩
        · have hne' : k.curState ≠ .invalid := by
            intro hinv
            rw [hinv] at hle
            exact absurd hle (by decide)
          obtain ⟨l', hl', hle'⟩ := hi.lease_of_cur hk hne'
          rw [hothers c' hc l' hl'] at hle'
          exact absurd (Nat.le_trans hle hle') (by decide)
        · obtain ⟨-, l', hl', hle'⟩ := (hi.link c' j).of_confirm_mem hm hcode
          rw [hothers c' hc l' hl'] at hle'
          exact absurd hle' (by decide)
        · intro l' hl' hlx'
          rw [hothers c' hc l' hl'] at hlx'
          cases hlx'
    · rw [update_of_ne hj, clients_setHandle, about_clientSend hid, if_neg fun h => hj h.2,
        if_neg fun h => hj h.2, append_nil]
      exact hd.link c' j
  · intro hun
    by_cases hj : j = i
    · subst hj
      exact absurd hlx (hun c l hlease)
    · rw [update_of_ne hj]
      exact hd.server j hun
  · by_cases hj : j = i
    · subst hj
      rw [hlatest]
      exact .inr hlen
    · rw [update_of_ne hj]
      exact hd.length j
  · rw [clients_setHandle] at hk
    split at hk
    · cases hk
      cases hidle.symm.trans ht
    · exact hd.buffer c' j k s n hk ht

variable {m : Msg Id} {rest : List (Msg Id)}

variable (hd : DataInv size e latest)

include hd

theorem DataInv.pop (hm : e.toClient c = m :: rest) :
    DataInv size { e with toClient := update e.toClient c rest } latest := by
  refine ⟨fun c' j => ?_, hd.server, hd.length, hd.buffer⟩
  have hok := hd.link c' j
  refine ⟨hok.cur, hok.none, fun k hk => hok.confirm k ?_, hok.newest⟩
  by_cases hc : c' = c
  · subst hc
    rw [hm]
    simp only [update_self] at hk
    exact (sublist_cons_self m rest).filter _ |>.subset hk
  · simpa [hc] using hk

theorem DataInv.deliver (hi : Inv e) {out : List (Msg Id)}
    {h' : SyncHandle} (hm : e.toClient c = m :: rest)
    (he : clientCallback m (e.clients c m.id) = .ok (h', out)) :
    DataInv size (({ e with toClient := update e.toClient c rest }.setHandle c m.id
      (some h')).clientSend c out) latest := by
  have hl := hi.link c m.id
  have hok := hd.link c m.id
  rw [hm, about_cons_self] at hl hok
  obtain ⟨h'', out', he', hl'⟩ := hl.deliver
  cases he.symm.trans he'
  obtain ⟨h, hh⟩ := hl.handle_of_down
  rw [hh] at he hl hok
  have hpopped := (hd.pop hm).link c m.id
  have hdown : about m.id (update e.toClient c rest c) = about m.id rest := by
    rw [update_self]
  simp only [hh, hdown] at hpopped
  have hbuffer : ∀ k s n, some h' = some k → k.thread = .locking s n →
      n = size m.id ∧ .shared ≤ s := by
    rintro _ s n ⟨⟩ ht
    rw [(hl.deliver_same he).1] at ht
    exact hd.buffer c m.id h s n hh ht
  -- what the message does to the data
  have hcur : (.shared ≤ h'.curState → h'.data = latest m.id) ∧ (latest m.id = [] → h'.data = []) ∧
      ∀ k ∈ out, k.code = .requestUpgrade ∨ (k.data = h.latestData ∧ ∀ s, ¬ Waits h s) := by
    have hold := hok.cur h rfl
    have hnone := hok.none
    obtain ⟨code, id, state, data⟩ := m
    cases code with
    | requestDowngrade =>
      simp only [clientCallback, bind_eq_ok, check_eq_ok, exists_const] at he
      obtain ⟨hdata, hle, hms⟩ := doRequestDowngrade_data he.2
      refine ⟨fun hs => hdata.trans (hold (Nat.le_trans hs hle)),
        fun hn => hdata.trans (hnone hn h rfl), fun k hk => .inr ⟨(hms k hk).1, ?_⟩⟩
      intro s hw
      have hused := hw.ok.used
      obtain ⟨n, hn⟩ := hw.thread
      rw [(hms k hk).2, hn] at hused
      cases hused
    | confirmUpgrade =>
      have hdata : data = latest id := hok.confirm _ mem_cons_self rfl
      cases he
      have hnew : (doConfirmUpgrade state data h).data = latest id := by
        rw [doConfirmUpgrade_data]
        split
        case isTrue hnil =>
          have hempty : latest id = [] := hdata.symm.trans hnil
          exact (hnone hempty h rfl).trans hempty.symm
        case isFalse => exact hdata
      exact ⟨fun _ => hnew, fun hn => hnew.trans hn, by simp⟩
    | confirmClose =>
      cases he
      unfold doConfirmClose
      split <;> exact ⟨hold, fun hn => hnone hn h rfl, by simp⟩
    | requestUpgrade | requestClose | confirmDowngrade => cases he
  have hself := hpopped.client hl hl' (by rintro _ ⟨⟩; exact hcur.1)
    (by rintro hn _ ⟨⟩; exact hcur.2.1 hn) hcur.2.2
  refine (hd.pop hm).client (fun k hk => hl'.msg_id.1 k (mem_append_right _ hk)) ?_ hbuffer
  simp only [update_self]
  exact hself

section
variable (hi : Inv e) (hm : e.toServer c = m :: rest) {o' : Option (Lease Vmid)}
  (hr : Receives c m.id m (leaseOf (e.handles m.id) c) o')
include hi hm hr

omit hd in
theorem Inv.not_exclusive_after {l : Lease Vmid} (ho : o' = some l) : l.curState ≠ .exclusive := by
  have hl := hi.link c m.id
  rw [hm, about_cons_self] at hl
  obtain ⟨_, _, _, data⟩ := m
  generalize hlease : leaseOf _ c = o at hr hl
  cases hr with
  | upgrade s hs hcur =>
    cases ho
    intro hx
    cases o with
    | none => cases hx
    | some l0 => exact hl.of_request.1 rfl hx
  | downgrade s data hs hlt hdata hreq =>
    cases ho
    rcases hs with rfl | rfl <;> exact SyncState.noConfusion
  | close s data hs hdata => cases ho

theorem DataInv.storedData_eq
    (hun : ∀ c' l, leaseAfter c (e.handles m.id) o' c' = some l → l.curState ≠ .exclusive) :
    storedData m (leaseOf (e.handles m.id) c) (findHandle (e.handles m.id)).data = latest m.id := by
  have hl := hi.link c m.id
  have hok := hd.link c m.id
  rw [hm, about_cons_self] at hl hok
  -- the data were at the server before, unless the sender had them
  have hserver : (∀ l, leaseOf (e.handles m.id) c = some l → l.curState ≠ .exclusive) →
      (findHandle (e.handles m.id)).data = latest m.id := by
    intro hsender
    refine hd.server m.id fun c' l hl' => ?_
    by_cases hc : c' = c
    · subst hc
      exact hsender l hl'
    · exact hun c' l (by rw [leaseAfter, if_neg hc]; exact hl')
  obtain ⟨_, _, state, data⟩ := m
  generalize hlease : leaseOf _ c = o at hr hl hok hserver ⊢
  cases hr with
  | upgrade s hs hcur =>
    refine hserver fun l hl' => ?_
    subst hl'
    exact hun c { l with clientReqState := state } (by rw [leaseAfter, if_pos rfl]; rfl)
  | @downgrade l _ _ hs hlt hdata hreq =>
    show (if l.curState = .exclusive then data else _) = _
    split
    case isTrue hx => exact hok.newest l rfl hx _ rfl
    case isFalse hx =>
      refine hserver ?_
      rintro _ ⟨⟩
      exact hx
  | @close l _ _ hs hdata =>
    have hstate : state = l.curState := hl.of_request.2 rfl
    show (if state = .exclusive then data else _) = _
    split
    case isTrue hx => exact hok.newest l rfl (hstate ▸ hx) _ rfl
    case isFalse hx =>
      refine hserver ?_
      rintro _ ⟨⟩
      exact hstate ▸ hx

end

theorem DataInv.receive (hi : Inv e) {r : Option (ServerHandle Vmid)}
    {out : Outbox Vmid Id} (hm : e.toServer c = m :: rest) (hkeeps : e.Keeps size (.toServer c))
    (he : serverCallback c m (e.handles m.id) = .ok (r, out))
    (hi' : Inv ({ e with handles := update e.handles m.id r, toServer := update e.toServer c rest
      }.serverSend out)) :
    DataInv size ({ e with handles := update e.handles m.id r,
                           toServer := update e.toServer c rest }.serverSend out)
      latest := by
  have hl := hi.link c m.id
  rw [hm, about_cons_self] at hl
  have hleases := (hi.record m.id).leases
  obtain ⟨o', hr, -⟩ := hl.receive c fun l hl => (hleases.lease_of_find hl).1
  have hsome : r ≠ none := by
    rintro rfl
    have hnone := serverCallback_none hleases hr he
    cases hc : decide (m.code = .requestClose) with
    | true =>
      obtain ⟨c', hne, hlease⟩ := hkeeps m (by rw [hm]; rfl) (of_decide_eq_true hc)
      have := hnone c'
      rw [leaseAfter, if_neg hne] at this
      exact hlease this
    | false =>
      have hself := hnone c
      rw [leaseAfter, if_pos rfl] at hself
      subst hself
      have hcode : ∀ {o : Option (Lease Vmid)}, Receives c m.id m o none →
          m.code = .requestClose := by
        intro o hr
        generalize hnone : (none : Option (Lease Vmid)) = o' at hr
        obtain ⟨code, i, state, data⟩ := m
        cases hr with
        | upgrade | downgrade => cases hnone
        | close => rfl
      exact absurd (hcode hr) (of_decide_eq_false hc)
  obtain ⟨hdata, hraises⟩ := serverCallback_data hleases hr he hsome
  have hstored := hd.storedData_eq hi hm hr
  rw [← hdata] at hstored
  -- an EXCLUSIVE lease is an old one, or its grant is on its way
  have hnewest : ∀ c' l', leaseOf r c' = some l' → l'.curState = .exclusive →
      (c' ≠ c ∧ ∃ l, leaseOf (e.handles m.id) c' = some l ∧ l.curState = .exclusive) ∨
      ∃ k ∈ out.sentTo c', k.code = .confirmUpgrade := by
    intro c' l' hl' hx
    cases hbefore : leaseAfter c (e.handles m.id) o' c' with
    | none =>
      rw [hraises.none c' hbefore] at hl'
      cases hl'
    | some l =>
      obtain ⟨l'', hl'', hor⟩ := hraises.some c' l hbefore
      obtain rfl : l'' = l' := Option.some.inj (hl''.symm.trans hl')
      rcases hor with heq | ⟨-, hsent⟩
      · refine .inl ?_
        have hlx : l.curState = .exclusive := heq.symm.trans hx
        by_cases hc : c' = c
        · subst hc
          rw [leaseAfter, if_pos rfl] at hbefore
          exact absurd hlx (hi.not_exclusive_after hm hr hbefore)
        · rw [leaseAfter, if_neg hc] at hbefore
          exact ⟨hc, l, hbefore, hlx⟩
      · exact .inr hsent
  have hsent : ∀ c', about m.id (out.sentTo c') = out.sentTo c' :=
    fun c' => about_self (hi.sent_id hm he c')
  have hsent' : ∀ c' j, j ≠ m.id → about j (out.sentTo c') = [] :=
    fun c' j hj => about_other (hi.sent_id hm he c') hj
  refine ⟨fun c' j => ?_, fun j hun => ?_, hd.length, hd.buffer⟩
  · have hok := hd.link c' j
    have hlink := hi'.link c' j
    by_cases hj : j = m.id
    · subst hj
      have hdown : about m.id (e.toClient c' ++ out.sentTo c') =
          about m.id (e.toClient c') ++ out.sentTo c' := by rw [about_append, hsent]
      simp only [serverSend, update_self, hdown] at hlink ⊢
      refine ⟨hok.cur, hok.none, fun k hk hcode => ?_, fun l' hl' hx k hk => ?_⟩
      · rcases mem_append.1 hk with hk | hk
        · exact hok.confirm k hk hcode
        · obtain ⟨hk_data, hun⟩ := hraises.confirm c' k hk hcode
          exact hk_data.trans (hstored hun)
      rcases hnewest c' l' hl' hx with ⟨hc, l, hlease, hlx⟩ | ⟨g, hg, hcode⟩
      · rw [update_of_ne hc] at hk
        exact hok.newest l hlease hlx k hk
      -- the client is still waiting, and has sent nothing
      obtain ⟨hup, -⟩ := hlink.of_confirm_mem (mem_append_right _ hg) hcode
      rw [hup] at hk
      cases hk
    · have hdown : about j (e.toClient c' ++ out.sentTo c') = about j (e.toClient c') := by
        rw [about_append, hsent' c' j hj, append_nil]
      simp only [serverSend, update_of_ne hj, hdown, about_pop hm fun h => hj h.2]
      exact hok
  · by_cases hj : j = m.id
    · subst hj
      simp only [serverSend, update_self, Unowned] at hun ⊢
      refine hstored fun c' l hl hx => ?_
      -- an EXCLUSIVE lease stays EXCLUSIVE
      obtain ⟨l', hl', hor⟩ := hraises.some c' l hl
      refine hun c' l' hl' ?_
      rcases hor with heq | ⟨hlt, -⟩
      · exact heq.trans hx
      · rw [hx] at hlt
        exact absurd hlt (SyncState.not_exclusive_lt _)
    · simp only [serverSend, update_of_ne hj, Unowned] at hun ⊢
      exact hd.server j hun

/-- **Every step keeps track of the newest data.** -/
theorem DataInv.step (hi : Inv e) {a : Action Vmid Id}
    (hkeeps : e.Keeps size a) (hs : e.Step a e') : DataInv size e' (latestAfter latest a) := by
  have hi' : Inv e' := hi.step hs
  obtain ⟨ha, he⟩ := hs
  cases a with
  | create c i =>
    cases he
    have hok := hd.link c i
    have hnew : DataOk (latest i) (some syncInit) (leaseOf (e.handles i) c)
        (about i (e.toServer c) ++ []) (about i (e.toClient c)) := by
      rw [append_nil]
      refine ⟨?_, ?_, hok.confirm, hok.newest⟩
      · rintro _ ⟨⟩ hle
        exact absurd hle (by decide)
      · rintro - _ ⟨⟩
        rfl
    have := hd.client (by simp) hnew (by rintro _ s n ⟨⟩ ht; cases ht)
    simpa [clientSend, setHandle, latestAfter] using this
  | lock c i s n =>
    obtain ⟨hs, h, hh, ht⟩ := ha
    obtain ⟨oh, ms, hf, rfl⟩ := onHandle_eq_ok hh he
    obtain ⟨h', hx, rfl⟩ := keep_eq_ok hf
    have hl := hi.link c i
    rw [hh] at hl
    obtain ⟨h'', ms', he', hl'⟩ := hl.lock (n := n) hs ht
    cases hx.symm.trans he'
    obtain ⟨hdata, hcur, hms⟩ := syncLock_data hx
    refine hd.of_client hi hh hl' ?_ (fun m hm => .inl (hms m hm)) ?_
    · rintro _ ⟨⟩
      exact ⟨hdata, Nat.le_of_eq (congrArg _ hcur)⟩
    · rintro _ t k ⟨⟩ ht'
      exact ⟨(syncLock_buffer hx ht').1.trans hkeeps, (syncLock_buffer hx ht').2⟩
  | lockWake c i =>
    obtain ⟨h, hh, ht, -⟩ := ha
    obtain ⟨s, n, ht⟩ := Thread.isLocking_iff.mp ht
    obtain ⟨oh, ms, hf, rfl⟩ := onHandle_eq_ok hh he
    rw [ht] at hf
    obtain ⟨h', hx, rfl⟩ := keep_eq_ok hf
    have hl := hi.link c i
    rw [hh] at hl
    rcases hl.lockWake ht with he' | ⟨h'', ms', he', hl'⟩
    · cases hx.symm.trans he'
    cases hx.symm.trans he'
    obtain ⟨hdata, hcur, hms⟩ := syncLockWake_data hx
    refine hd.of_client hi hh hl' ?_ (fun m hm => .inl (hms m hm)) ?_
    · rintro _ ⟨⟩
      exact ⟨hdata, Nat.le_of_eq (congrArg _ hcur)⟩
    rintro _ t k ⟨⟩ ht'
    rcases syncLockWake_thread hx with hsame | ⟨-, hlocked⟩
    · exact hd.buffer c i h t k hh (hsame ▸ ht')
    · cases hlocked.symm.trans ht'
  | unlock c i data =>
    obtain ⟨h, hh, ht⟩ := ha
    obtain ⟨r, ht⟩ := Thread.isLocked_iff.mp ht
    obtain ⟨oh, ms, hf, rfl⟩ := onHandle_eq_ok hh he
    obtain ⟨h', hx, rfl⟩ := keep_eq_ok hf
    have hl := hi.link c i
    rw [hh] at hl
    obtain ⟨h'', ms', he', hl'⟩ := hl.unlock data ht
    cases hx.symm.trans he'
    obtain ⟨hdata, hcur, hms⟩ := syncUnlock_data hx
    have hidle := syncUnlock_thread hx
    by_cases hempty : data = []
    · subst hempty
      refine hd.of_client hi hh hl' ?_ (fun m hm => .inr ⟨hms m hm, ?_⟩) ?_
      · rintro _ ⟨⟩
        exact ⟨hdata, hcur⟩
      · exact not_waits_of_thread (by rw [ht]; rfl)
      · rintro _ t k ⟨⟩ ht'
        cases hidle.symm.trans ht'
    · obtain ⟨hlen, hexcl⟩ := hkeeps.resolve_left hempty
      have hhx := hexcl h hh
      simp only [latestAfter, if_neg hempty]
      have hrel : (h.release data).data = data := if_neg hempty
      have hhx' : (h.release data).curState = .exclusive := hhx
      refine hd.store hi hh hhx hempty hlen
        (fun m hm => hl'.msg_id.1 m (mem_append_right _ hm)) (hdata.trans hrel) ?_ hidle
      intro m hm
      rw [hms m hm, SyncHandle.latestData, if_pos hhx', hrel]
  | destroy c i =>
    obtain ⟨h, hh, ht⟩ := ha
    obtain ⟨oh, ms, hf, rfl⟩ := onHandle_eq_ok hh he
    have hl := hi.link c i
    rw [hh] at hl
    obtain ⟨h', ms', he', hl'⟩ := hl.destroy ht
    cases hf.symm.trans he'
    obtain ⟨hdata, hms⟩ := syncDestroy_data hf
    refine hd.of_client hi hh hl' ?_ (fun m hm => .inr ⟨hms m hm, ?_⟩) ?_
    · intro h'' ho
      obtain ⟨hdata, hinv⟩ := hdata h'' ho
      refine ⟨hdata, ?_⟩
      rw [hinv]
      exact SyncState.invalid_le hl.handleOk.cur
    · exact not_waits_of_thread (by rw [ht]; rfl)
    · rintro h'' t k rfl ht'
      rw [syncDestroy_thread hf] at ht'
      cases ht'
  | destroyWake c i =>
    obtain ⟨h, hh, ht, -⟩ := ha
    obtain ⟨oh, ms, hf, rfl⟩ := onHandle_eq_ok hh he
    cases hf
    have hl := hi.link c i
    rw [hh] at hl
    refine hd.of_client hi hh (by simpa using hl.destroyWake ht) ?_ (by simp) ?_
    · intro h'' ho
      obtain ⟨hdata, hcur, -⟩ := syncDestroyWake_data ho
      exact ⟨hdata, Nat.le_of_eq (congrArg _ hcur)⟩
    · rintro h'' t k ho ht'
      rw [(syncDestroyWake_data ho).2.2, ht] at ht'
      cases ht'
  | toServer c =>
    obtain ⟨m, rest, hm⟩ := exists_cons_of_ne_nil ha
    simp only [exec, hm, bind_eq_ok] at he
    obtain ⟨⟨r, out⟩, hr, he⟩ := he
    cases he
    exact hd.receive hi hm hkeeps hr hi'
  | toClient c =>
    obtain ⟨m, rest, hm⟩ := exists_cons_of_ne_nil ha
    simp only [exec, hm, bind_eq_ok] at he
    obtain ⟨⟨h', out⟩, hr, he⟩ := he
    cases he
    exact hd.deliver hi hm hr

omit hd

/-! ## Coherence -/

/-- What the clients see of the newest data: those who have the handle have its newest data, and
a `sync_lock` that had to wait for an upgrade returns, with these data if there are any. -/
structure Coherent (e : Engine Vmid Id) (latest : Id → List UInt8) : Prop where
  held : ∀ c i h, e.clients c i = some h → h.phase = .opened →
    h.curState = .shared ∨ h.curState = .exclusive → h.data = latest i
  locked : ∀ c i, e.Enabled (.lockWake c i) → ∃ e', e.exec (.lockWake c i) = .ok e' ∧
    ∀ h r, e'.clients c i = some h → h.thread = .locked r →
      r = if latest i = [] then none else some (latest i)

/-- What a waiting `sync_lock` returns. -/
theorem DataInv.locked (hd : DataInv size e latest) (hi : Inv e)
    (ha : e.Enabled (.lockWake c i)) : ∃ e', e.exec (.lockWake c i) = .ok e' ∧
      ∀ h r, e'.clients c i = some h → h.thread = .locked r →
        r = if latest i = [] then none else some (latest i) := by
  obtain ⟨h, hh, ht, -⟩ := id ha
  obtain ⟨s, n, ht⟩ := Thread.isLocking_iff.mp ht
  obtain ⟨hn, hwaits⟩ := hd.buffer c i h s n hh ht
  have hdata : s ≤ h.curState → h.data = latest i := fun hs =>
    (hd.link c i).cur h hh (Nat.le_trans hwaits hs)
  rcases hi.exec ha with hbad | ⟨e', he, -⟩
  · -- the data have the size of the buffer
    obtain ⟨hs, hne, hsize⟩ := syncLockWake_mismatch (i := i) (s := s) (n := n) (h := h) (by
      simp only [exec, onHandle, hh, ht] at hbad
      cases hx : syncLockWake i s n h with
      | error f =>
        rw [hx] at hbad
        cases hbad
        rfl
      | ok p =>
        rw [hx] at hbad
        cases hbad)
    rw [hdata hs] at hne hsize
    rw [hn, (hd.length i).resolve_left hne] at hsize
    exact absurd rfl hsize
  · refine ⟨e', he, fun h' r hh' hr => ?_⟩
    obtain ⟨_, _, hf, rfl⟩ := onHandle_eq_ok hh he
    rw [ht] at hf
    obtain ⟨_, hx, rfl⟩ := keep_eq_ok hf
    rw [clients_setHandle, if_pos ⟨rfl, rfl⟩] at hh'
    cases hh'
    rcases syncLockWake_thread hx with hsame | ⟨hs, hlocked⟩
    · rw [hsame, ht] at hr
      cases hr
    rw [hlocked, hdata hs, hn] at hr
    cases hr
    by_cases hempty : latest i = []
    · simp [hempty]
    have hpos : 0 < size i := by
      rw [← (hd.length i).resolve_left hempty]
      exact length_pos_iff.2 hempty
    simp [hpos]

theorem DataInv.coherent (hd : DataInv size e latest) (hi : Inv e) : Coherent e latest where
  held c i h hh _ hs := (hd.link c i).cur h hh (SyncState.shared_le hs)
  locked _ _ ha := hd.locked hi ha

/-- **The data of the sync engine are coherent.** In every run in which only clients that have a
handle EXCLUSIVE pass new data to `sync_unlock`, all data of one handle have one size, and a lease
stays at the server whenever one is closed: every client that has the handle SHARED or EXCLUSIVE
has the data of the latest `sync_unlock` that had any, and a `sync_lock` that had to wait for an
upgrade returns these data. -/
theorem data_coherent (size : Id → Nat) {s : Engine Vmid Id × (Id → List UInt8)}
    (hr : Transition.Reachable DataInitial (DataStep size) s) : Coherent s.1 s.2 := by
  have hinv : Inv s.1 ∧ DataInv size s.1 s.2 := by
    induction hr with
    | init h =>
      obtain rfl := h
      exact ⟨inv_initial, dataInv_initial⟩
    | step a _ hs ih =>
      obtain ⟨hkeeps, hs, hlatest⟩ := hs
      rw [hlatest]
      exact ⟨ih.1.step hs, ih.2.step ih.1 hkeeps hs⟩
  exact hinv.2.coherent hinv.1

theorem dataStep_of_next [Fintype Vmid] {size : Id → Nat} {a : Action Vmid Id}
    {s s' : Engine Vmid Id × (Id → List UInt8)} (h : dataNext size s a = some s') :
    DataStep size s a s' := by
  unfold dataNext at h
  split at h
  · rename_i hg
    obtain ⟨_, he, rfl⟩ := Option.map_eq_some_iff.1 h
    refine ⟨hg.1, ⟨hg.2, ?_⟩, rfl⟩
    exact toOption_eq_some.1 he
  · cases h

/-- One client stores a byte, and the other one has been granted the handle. -/
def storeAndShare : List (Action Bool Unit) :=
  [.create false (), .lock false () .exclusive 1, .toServer false, .toClient false,
   .lockWake false (), .unlock false () [7],
   .create true (), .lock true () .shared 1, .toServer true, .toClient false, .toServer false,
   .toClient true]

/-- The second client's `sync_lock` returns the byte of the first. -/
theorem data_coherent_shared : ∃ s : Engine Bool Unit × (Unit → List UInt8),
    s.2 () = [7] ∧ s.1.Enabled (.lockWake true ()) ∧ Coherent s.1 s.2 := by
  have hrun : ((storeAndShare.foldlM (dataNext fun _ => 1) (initial, fun _ => [])).map fun s =>
      (s.2 (), decide (s.1.Enabled (.lockWake true ())))) = some ([7], true) := by decide
  obtain ⟨s, hs, heq⟩ := Option.map_eq_some_iff.1 hrun
  obtain ⟨hlatest, hen⟩ := Prod.mk.inj heq
  exact ⟨s, hlatest, of_decide_eq_true hen, data_coherent (fun _ => 1)
    (.of_foldlM (dataNext fun _ => 1) (fun _ _ _ => dataStep_of_next) (.init rfl) _ hs)⟩

end Engine

end Sync
