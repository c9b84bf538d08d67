import Gramine.SyncInvariant

/-!
# Can the sync engine get stuck?

A state is *stuck* when nothing is in flight, every completed `sync_lock` has
been followed by its `sync_unlock`, and a client still waits inside `sync_lock`.

Two clients that hold a handle SHARED and both call `sync_lock` for EXCLUSIVE get
there: each waits for the other to step down, and each postpones the server's
request to do so until its own `sync_lock` and `sync_unlock` are done
(`upgrade_deadlock`). That is the only way (`not_stuck`): a client that waits is
kept waiting by a lease above INVALID, the server has asked its holder to step
down (`Quiet`), and a holder that did not is itself waiting for EXCLUSIVE.
-/

open List

namespace Sync

open Fallible

variable {Vmid Id : Type} [DecidableEq Vmid] [DecidableEq Id]

/-- A thread holds the handle SHARED and waits for EXCLUSIVE. -/
def SyncHandle.Upgrading (h : SyncHandle) : Prop :=
  ∃ n, h.thread = .locking .exclusive n ∧ h.curState = .shared

/-- `sync_lock` was granted, and `sync_unlock` not called yet; the thread may
still have to wake up, but its event is set. -/
def SyncHandle.Holding (h : SyncHandle) : Prop :=
  (∃ r, h.thread = .locked r) ∨
    ∃ s n, h.thread = .locking s n ∧ s ≤ h.curState ∧ h.event = true

/-- A thread waits inside `sync_lock`: it does not have the state it asked for, or
nobody has woken it up. -/
def SyncHandle.Waiting (h : SyncHandle) : Prop :=
  ∃ s n, h.thread = .locking s n ∧ (h.curState < s ∨ h.event = false)

/-! ## Which steps make a client wait for an upgrade -/

section ClientFunctions
variable {i : Id} {h h' : SyncHandle} {ms : List (Msg Id)}

section
omit [DecidableEq Id]

variable {s : SyncState}

theorem requestUpgrade_same (he : requestUpgrade i s h = .ok (h', ms)) :
    h'.thread = h.thread ∧ h'.curState = h.curState := by
  unfold requestUpgrade at he
  split at he
  · cases he
  · split at he <;> cases he <;> exact ⟨rfl, rfl⟩

theorem syncDowngrade_same (he : syncDowngrade i h = .ok (h', ms)) :
    h'.thread = h.thread ∧ h.used = false := by
  simp only [syncDowngrade, bind_eq_ok, check_eq_ok, exists_const] at he
  obtain ⟨hu, -, -, -, he⟩ := he
  cases he
  exact ⟨rfl, hu⟩

/-- `sync_lock` for EXCLUSIVE on a SHARED handle is the only call that starts such
a wait. -/
theorem SyncHandle.Upgrading.of_syncLock {n : Nat} (he : syncLock i s n h = .ok (h', ms))
    (hu : h'.Upgrading) :
    s = .exclusive ∧ h.curState = .shared := by
  obtain ⟨m, ht, hc⟩ := hu
  simp only [syncLock, bind_eq_ok, check_eq_ok, exists_const] at he
  obtain ⟨-, -, he⟩ := he
  split at he
  · obtain ⟨ht', hc'⟩ := requestUpgrade_same he
    rw [ht'] at ht
    rw [hc'] at hc
    cases ht
    exact ⟨rfl, hc⟩
  · cases he
    cases ht

theorem SyncHandle.Upgrading.of_syncLockWake {n : Nat} (he : syncLockWake i s n h = .ok (h', ms))
    (hu : h'.Upgrading) : h.Upgrading := by
  obtain ⟨m, ht, hc⟩ := hu
  unfold syncLockWake at he
  split at he
  · obtain ⟨ht', hc'⟩ := requestUpgrade_same he
    exact ⟨m, ht' ▸ ht, hc' ▸ hc⟩
  split at he
  · split at he <;> cases he
    cases ht
  · cases he
    cases ht

theorem syncUnlock_thread {data : List UInt8} (he : syncUnlock i data h = .ok (h', ms)) :
    h'.thread = .idle := by
  simp only [syncUnlock, bind_eq_ok, check_eq_ok, exists_const] at he
  obtain ⟨-, he⟩ := he
  split at he
  · exact (syncDowngrade_same he).1
  · cases he
    rfl

theorem syncDestroy_thread (he : syncDestroy i h = .ok (some h', ms)) :
    h'.thread = .destroying := by
  simp only [syncDestroy, bind_eq_ok, check_eq_ok, exists_const] at he
  obtain ⟨-, -, he⟩ := he
  split at he
  · cases he
    rfl
  · cases he

end

theorem SyncHandle.Upgrading.of_syncDestroyWake (he : syncDestroyWake h = some h')
    (hu : h'.Upgrading) : h.Upgrading := by
  unfold syncDestroyWake at he
  split at he
  · cases he
    exact hu
  · cases he

omit [DecidableEq Id] in
theorem doRequestDowngrade_same {t : SyncState} (hused : h.used = h.thread.uses)
    (he : doRequestDowngrade i t h = .ok (h', ms)) :
    h'.thread = h.thread ∧ (h.thread.uses = true → h'.curState = h.curState) := by
  unfold doRequestDowngrade at he
  split at he
  · simp only at he
    split at he
    · obtain ⟨ht, hu⟩ := syncDowngrade_same he
      refine ⟨ht, fun h => ?_⟩
      rw [← hused, show _ = false from hu] at h
      cases h
    · cases he
      exact ⟨rfl, fun _ => rfl⟩
  · cases he
    exact ⟨rfl, fun _ => rfl⟩

end ClientFunctions

namespace Link
variable {i : Id} {h h' : SyncHandle} {o : Option (Lease Vmid)} {up down ms : List (Msg Id)}

section
omit [DecidableEq Vmid] [DecidableEq Id]

theorem handle_of_down {oh : Option SyncHandle} {m : Msg Id} (hl : Link i oh o up (m :: down)) :
    ∃ h, oh = some h := by
  cases oh with
  | some h => exact ⟨h, rfl⟩
  | none => cases hl

theorem handleOk (hl : Link i (some h) o up down) : HandleOk h := by
  cases hl with
  | fresh => exact ⟨by simp [syncInit], rfl, rfl, .inl rfl⟩
  | settled ok => exact ok
  | opening waits | asking waits | pending waits | granted waits => exact waits.ok
  | closing ok | unleased ok | closed ok => exact ok

/-- The state confirmed to a client is the one its thread waits for. -/
theorem confirmed {m : Msg Id} (hl : Link i (some h) o up (m :: down))
    (hm : m.code = .confirmUpgrade) : Waits h m.state ∧ ∃ l, o = some l ∧ l.curState = m.state := by
  generalize hd : m :: down = d at hl
  cases hl with
  | fresh | opening | closed => cases hd
  | settled _ _ _ _ _ _ _ asks | asking _ _ _ asks | pending _ _ _ asks =>
    obtain ⟨t, rfl⟩ := asks.allAsks m (hd ▸ mem_cons_self)
    cases hm
  | closing _ _ _ _ _ _ _ asks =>
    obtain ⟨t, rfl⟩ := asks m (hd ▸ mem_cons_self)
    cases hm
  | granted waits _ cur asks _ =>
    rcases asks.cases_append hd.symm with ⟨-, rfl, -⟩ | ⟨t, _, -, -, rfl, -⟩
    · exact ⟨waits, _, rfl, cur⟩
    · cases hm
  | @unleased _ d _ _ _ _ asks =>
    cases d with
    | nil =>
      simp only [nil_append, List.cons.injEq] at hd
      rw [hd.1] at hm
      cases hm
    | cons k d =>
      simp only [cons_append, List.cons.injEq] at hd
      obtain ⟨_, ht⟩ := asks k mem_cons_self
      rw [hd.1, ht] at hm
      cases hm

/-- A message changes neither the thread nor, while `sync_lock` waits, the state,
unless it confirms the state waited for. -/
theorem deliver_same {m : Msg Id} (hl : Link i (some h) o up (m :: down))
    (he : clientCallback m (some h) = .ok (h', ms)) :
    h'.thread = h.thread ∧ ((∃ s n, h.thread = .locking s n) → h'.curState = h.curState ∨
        (m.code = .confirmUpgrade ∧ ∃ n, h.thread = .locking h'.curState n)) := by
  obtain ⟨code, k, s, data⟩ := m
  cases code with
  | requestDowngrade =>
    simp only [clientCallback, bind_eq_ok, check_eq_ok, exists_const] at he
    obtain ⟨ht, hc⟩ := doRequestDowngrade_same hl.handleOk.used he.2
    refine ⟨ht, ?_⟩
    rintro ⟨s', n, hs⟩
    exact .inl (hc (by rw [hs]; rfl))
  | confirmUpgrade =>
    obtain ⟨waits, -⟩ := hl.confirmed rfl
    obtain ⟨n, hn⟩ := waits.thread
    cases he
    have hc := waits.cur
    refine ⟨?_, fun _ => .inr ⟨rfl, n, ?_⟩⟩ <;>
      simp [doConfirmUpgrade, waits.phase, show h.curState < s from hc, SyncHandle.notify, hn]
  | confirmClose =>
    cases he
    unfold doConfirmClose
    split <;> exact ⟨rfl, fun _ => .inl rfl⟩
  | requestUpgrade | requestClose | confirmDowngrade => cases he

/-- With nothing in flight, an open handle is settled or its upgrade is pending,
and the client has postponed what the server waits for. -/
theorem silent {l : Lease Vmid} (hl : Link i (some h) (some l) up down) (hu : up = [])
    (hd : down = []) :
    h.curState = l.curState ∧ h.bound = l.target ∧
      ((∀ s n, h.thread = .locking s n → s ≤ h.curState ∧ h.event = true) ∨
        Waits h l.clientReqState) := by
  cases hl with
  | settled ok phase thread awake clientReq lease downs asks =>
    subst hu hd
    exact ⟨downs.eq_of_nil.symm, asks.eq_of_nil, .inl awake⟩
  | pending waits lease cur asks =>
    subst hd
    exact ⟨cur.symm, asks.eq_of_nil, .inr (lease.symm ▸ waits)⟩
  | asking => simp at hu
  | granted => simp at hd
  | closing => simp at hu

/-- With nothing in flight, a client that waits has a lease, and the server has
its request. -/
theorem silent_waiting (hl : Link i (some h) o up down) (hu : up = []) (hd : down = [])
    (hw : h.Waiting) : ∃ l, o = some l ∧ Waits h l.clientReqState := by
  obtain ⟨s, n, ht, hlt⟩ := hw
  cases hl with
  | fresh => cases ht
  | settled _ _ _ awake =>
    -- no wake-up is lost: a thread that was granted its state has its event set
    obtain ⟨hle, hevent⟩ := awake s n ht
    rcases hlt with hlt | hasleep
    · exact absurd hle (Nat.not_le.mpr hlt)
    · cases hevent.symm.trans hasleep
  | opening => cases hu
  | pending waits lease => exact ⟨_, rfl, lease.symm ▸ waits⟩
  | asking => simp at hu
  | granted => simp at hd
  | closing => simp at hu
  | unleased => simp at hd
  | closed _ _ thread => rw [thread] at ht; cases ht

end

omit [DecidableEq Vmid] [DecidableEq Id]

/-- Every message of the chain goes at least one state further down. -/
theorem length_downs_lt {i : Id} {s t : SyncState} {ms : List (Msg Id)} (h : Downs i s ms t)
    (hs : s ≠ .none) : ms.length < s.val := by
  induction h with
  | nil s => cases s <;> simp_all [SyncState.val]
  | cons ht hlt _ _ ih =>
    have hlen := ih (by rcases ht with rfl | rfl <;> simp)
    exact Nat.lt_of_le_of_lt hlen (SyncState.lt_def.1 hlt)

theorem length_up_le {i : Id} {oh : Option SyncHandle} {o : Option (Lease Vmid)}
    {up down : List (Msg Id)} (hl : Link i oh o up down) (hok : ∀ l, o = some l → LeaseOk l) :
    up.length ≤ 3 := by
  have hmax (s : SyncState) : s.val ≤ 3 := by cases s <;> decide
  have hdowns {l : Lease Vmid} {ms : List (Msg Id)} {t : SyncState} (ho : o = some l)
      (h : Downs i l.curState ms t) : ms.length < 3 :=
    (length_downs_lt h (hok l ho).cur).trans_le (hmax _)
  cases hl with
  | settled _ _ _ _ _ _ downs => exact (hdowns rfl downs).le
  | asking _ _ downs => simpa using hdowns rfl downs
  | closing _ _ _ _ _ downs => simpa using hdowns rfl downs
  | _ => simp

end Link

namespace Engine
variable {e e' : Engine Vmid Id} {a : Action Vmid Id} {c : Vmid} {i : Id}

/-- The ways a step can change the client `c`'s handle `i`. -/
inductive Moves (e : Engine Vmid Id) (c : Vmid) (i : Id) :
    Action Vmid Id → Option SyncHandle → Option SyncHandle → Prop
  | create : Moves e c i (.create c i) none (some syncInit)
  | lock {h h' : SyncHandle} {ms : List (Msg Id)} {s : SyncState} {n : Nat}
      (ht : h.thread = .idle) (he : syncLock i s n h = .ok (h', ms)) :
      Moves e c i (.lock c i s n) (some h) (some h')
  | lockWake {h h' : SyncHandle} {ms : List (Msg Id)} {s : SyncState} {n : Nat}
      (ht : h.thread = .locking s n) (he : syncLockWake i s n h = .ok (h', ms)) :
      Moves e c i (.lockWake c i) (some h) (some h')
  | unlock {h h' : SyncHandle} {ms : List (Msg Id)} {data : List UInt8}
      (ht : h.thread.isLocked = true) (he : syncUnlock i data h = .ok (h', ms)) :
      Moves e c i (.unlock c i data) (some h) (some h')
  | destroy {h : SyncHandle} {oh : Option SyncHandle} {ms : List (Msg Id)}
      (ht : h.thread = .idle) (he : syncDestroy i h = .ok (oh, ms)) :
      Moves e c i (.destroy c i) (some h) oh
  | destroyWake {h : SyncHandle} (ht : h.thread = .destroying) :
      Moves e c i (.destroyWake c i) (some h) (syncDestroyWake h)
  | deliver {h h' : SyncHandle} {m : Msg Id} {rest ms : List (Msg Id)}
      (hm : e.toClient c = m :: rest) (hid : m.id = i)
      (he : clientCallback m (some h) = .ok (h', ms)) :
      Moves e c i (.toClient c) (some h) (some h')

theorem onHandle_eq_ok {c' : Vmid} {j : Id} {h : SyncHandle}
    {f : SyncHandle → Except Fault (Option SyncHandle × List (Msg Id))}
    (hh : e.clients c' j = some h) (he : e.onHandle c' j f = .ok e') :
    ∃ oh ms, f h = .ok (oh, ms) ∧ e' = (e.setHandle c' j oh).clientSend c' ms := by
  simp only [onHandle, hh, bind_eq_ok] at he
  obtain ⟨⟨oh, ms⟩, hf, he⟩ := he
  cases he
  exact ⟨oh, ms, hf, rfl⟩

omit [DecidableEq Vmid] [DecidableEq Id] in
theorem keep_eq_ok {x : Except Fault (SyncHandle × List (Msg Id))} {oh : Option SyncHandle}
    {ms : List (Msg Id)} (h : keep x = .ok (oh, ms)) : ∃ h', x = .ok (h', ms) ∧ oh = some h' := by
  cases x with
  | error f => cases h
  | ok p =>
    cases h
    exact ⟨p.1, rfl, rfl⟩

theorem moves_onHandle {c' : Vmid} {j : Id} {h : SyncHandle}
    {f : SyncHandle → Except Fault (Option SyncHandle × List (Msg Id))}
    (hh : e.clients c' j = some h) (he : e.onHandle c' j f = .ok e')
    (hf : ∀ {oh ms}, f h = .ok (oh, ms) → Moves e c' j a (some h) oh) :
    e'.clients c i = e.clients c i ∨ Moves e c i a (e.clients c i) (e'.clients c i) := by
  obtain ⟨_, _, hx, rfl⟩ := onHandle_eq_ok hh he
  rw [clients_setHandle]
  split
  · rename_i hc
    obtain ⟨rfl, rfl⟩ := hc
    exact .inr (hh ▸ hf hx)
  · exact .inl rfl

/-- **A step changes a handle in one of these ways, or not at all.** -/
theorem Step.moves (hi : Inv e) (hs : e.Step a e') (c : Vmid) (i : Id) :
    e'.clients c i = e.clients c i ∨ Moves e c i a (e.clients c i) (e'.clients c i) := by
  obtain ⟨ha, he⟩ := hs
  cases a with
  | create c' j =>
    cases he
    have h := clients_setHandle (e := e) (c := c) (i := i) (some syncInit) c' j []
    simp only [clientSend] at h
    split at h
    · rename_i hc
      obtain ⟨rfl, rfl⟩ := hc
      refine .inr ?_
      have hnone : e.clients c i = none := ha
      rw [hnone]
      rw [h]
      exact .create
    · exact .inl h
  | lock c' j s n =>
    obtain ⟨-, h, hh, ht⟩ := ha
    refine moves_onHandle hh he fun hf => ?_
    obtain ⟨h', hx, rfl⟩ := keep_eq_ok hf
    exact .lock ht hx
  | lockWake c' j =>
    obtain ⟨h, hh, ht, -⟩ := ha
    obtain ⟨s, n, ht⟩ := Thread.isLocking_iff.mp ht
    refine moves_onHandle hh he fun hf => ?_
    rw [ht] at hf
    obtain ⟨h', hx, rfl⟩ := keep_eq_ok hf
    exact .lockWake ht hx
  | unlock c' j data =>
    obtain ⟨h, hh, ht⟩ := ha
    refine moves_onHandle hh he fun hf => ?_
    obtain ⟨h', hx, rfl⟩ := keep_eq_ok hf
    exact .unlock ht hx
  | destroy c' j =>
    obtain ⟨h, hh, ht⟩ := ha
    exact moves_onHandle hh he fun hf => .destroy ht hf
  | destroyWake c' j =>
    obtain ⟨h, hh, ht, -⟩ := ha
    refine moves_onHandle hh he fun hf => ?_
    cases hf
    exact .destroyWake ht
  | toServer c' =>
    obtain ⟨m, rest, hm⟩ := exists_cons_of_ne_nil ha
    simp only [exec, hm, bind_eq_ok] at he
    obtain ⟨⟨r, out⟩, -, he⟩ := he
    cases he
    exact .inl rfl
  | toClient c' =>
    obtain ⟨m, rest, hm⟩ := exists_cons_of_ne_nil ha
    simp only [exec, hm, bind_eq_ok] at he
    obtain ⟨⟨h', out⟩, hd, he⟩ := he
    cases he
    rw [clients_setHandle]
    split
    · rename_i hc
      obtain ⟨rfl, rfl⟩ := hc
      refine .inr ?_
      cases hh : e.clients c m.id with
      | none =>
        have hl := hi.link c m.id
        rw [hh, hm, about_cons_self] at hl
        obtain ⟨h, hsome⟩ := hl.handle_of_down
        cases hsome
      | some h => exact .deliver hm rfl (hh ▸ hd)
    · exact .inl rfl

/-- A client waits for an upgrade because it did, or because it just asked. -/
theorem Step.upgrading_of (hi : Inv e) (hs : e.Step a e') {h' : SyncHandle}
    (hh : e'.clients c i = some h') (hu : h'.Upgrading) :
    (∃ h, e.clients c i = some h ∧ h.Upgrading) ∨
      ∃ n h, a = .lock c i .exclusive n ∧ e.clients c i = some h ∧ h.curState = .shared := by
  rcases hs.moves hi c i with hc | hm
  · exact .inl ⟨h', hc ▸ hh, hu⟩
  generalize ho : e.clients c i = o at hm ⊢
  rw [hh] at hm
  generalize ho' : some h' = o' at hm
  cases hm with
  | create =>
    cases ho'
    obtain ⟨n, hn, -⟩ := hu
    cases hn
  | lock ht he =>
    cases ho'
    obtain ⟨rfl, hcur⟩ := hu.of_syncLock he
    exact .inr ⟨_, _, rfl, rfl, hcur⟩
  | lockWake ht he =>
    cases ho'
    exact .inl ⟨_, rfl, hu.of_syncLockWake he⟩
  | unlock ht he =>
    cases ho'
    obtain ⟨m, ht, -⟩ := hu
    cases (syncUnlock_thread he).symm.trans ht
  | destroy ht he =>
    subst ho'
    obtain ⟨m, ht, -⟩ := hu
    cases (syncDestroy_thread he).symm.trans ht
  | destroyWake ht => exact .inl ⟨_, rfl, hu.of_syncDestroyWake ho'.symm⟩
  | @deliver h _ m _ _ hm hid he =>
    cases ho'
    subst hid
    have hl := hi.link c m.id
    rw [ho, hm, about_cons_self] at hl
    obtain ⟨ht, hc⟩ := hl.deliver_same he
    obtain ⟨n, hn, hcur⟩ := hu
    rw [ht] at hn
    refine .inl ⟨_, rfl, n, hn, ?_⟩
    rcases hc ⟨_, _, hn⟩ with hc | ⟨-, _, hn'⟩
    · rwa [← hc]
    · rw [hn, hcur] at hn'
      cases hn'

/-! ## Two upgrades at once -/

/-- Two clients of a handle hold it SHARED and wait for EXCLUSIVE. -/
def Deadlocked (e : Engine Vmid Id) (i : Id) (c c' : Vmid) : Prop :=
  c ≠ c' ∧ (∃ h, e.clients c i = some h ∧ h.Upgrading) ∧ ∃ h, e.clients c' i = some h ∧ h.Upgrading

/-! ## Stuck states -/

/-- Nothing is in flight, nobody holds a handle, and somebody waits for one. -/
structure Stuck (e : Engine Vmid Id) : Prop where
  toServer : ∀ c, e.toServer c = []
  toClient : ∀ c, e.toClient c = []
  holding : ∀ c i h, e.clients c i = some h → ¬ h.Holding
  waiting : ∃ c i h, e.clients c i = some h ∧ h.Waiting

/-- No client asks for EXCLUSIVE on a handle it holds SHARED while another one
waits for just that. -/
def NoCrossing (e : Engine Vmid Id) : Action Vmid Id → Prop
  | .lock c i .exclusive _ => ∀ h, e.clients c i = some h → h.curState = .shared →
      ∀ c' h', c' ≠ c → e.clients c' i = some h' → ¬ h'.Upgrading
  | _ => True

/-- At most one client of a handle waits for an upgrade. -/
def OneUpgrade (e : Engine Vmid Id) : Prop := ∀ i c c', ¬ e.Deadlocked i c c'

theorem Step.oneUpgrade (hi : Inv e) (h1 : e.OneUpgrade) (hg : e.NoCrossing a)
    (hs : e.Step a e') : e'.OneUpgrade := by
  rintro i c c' ⟨hne, ⟨h, hh, hu⟩, h', hh', hu'⟩
  rcases hs.upgrading_of hi hh hu with hu | ⟨n, k, rfl, hk, hkc⟩
  · rcases hs.upgrading_of hi hh' hu' with hu' | ⟨n, k, rfl, hk, hkc⟩
    · exact h1 i c c' ⟨hne, hu, hu'⟩
    · obtain ⟨j, hj, hju⟩ := hu
      exact hg k hk hkc c j hne hj hju
  · rcases hs.upgrading_of hi hh' hu' with ⟨j, hj, hju⟩ | ⟨n', k', ha, -⟩
    · exact hg k hk hkc c' j (Ne.symm hne) hj hju
    · cases ha
      exact hne rfl

variable {l : Lease Vmid}

/-- In a stuck state, a client that was asked to step down is waiting itself. -/
theorem Stuck.waits (hst : e.Stuck) (hi : Inv e) (hl : leaseOf (e.handles i) c = some l)
    (hreq : l.serverReqState ≠ .none) :
    ∃ h, e.clients c i = some h ∧ Waits h l.clientReqState ∧ h.curState = l.curState := by
  have hlink := hi.link c i
  have hlt := ((hi.record i).leases.lease_of_find hl).1.serverReq.resolve_left hreq
  rw [hl, hst.toServer, hst.toClient] at hlink
  obtain ⟨h, hh⟩ := hlink.handle_of_lease
  rw [hh] at hlink
  obtain ⟨hcur, hbound, hw⟩ := hlink.silent rfl rfl
  refine ⟨h, hh, ?_, hcur⟩
  rcases hw with hw | hw
  · -- the request is postponed, so a thread uses the handle, and not to wait
    have hpost : h.serverReqState ≠ .none := by
      intro hn
      simp only [SyncHandle.bound, hn, Lease.target, if_neg hreq] at hbound
      rw [← hbound, hcur] at hlt
      exact absurd hlt (Nat.lt_irrefl _)
    have hused := (hlink.handleOk.serverReq.resolve_left hpost).2.2
    rw [hlink.handleOk.used] at hused
    refine absurd ?_ (hst.holding c i h hh)
    cases ht : h.thread with
    | idle | destroying => rw [ht] at hused; cases hused
    | locked r => exact .inl ⟨r, ht⟩
    | locking s n => exact .inr ⟨s, n, ht, hw s n ht⟩
  · exact hw

omit [DecidableEq Vmid] in
theorem exists_lease {ls : List (Lease Vmid)} {s : SyncState}
    (h : ls.countP (fun l => l.curState = s) ≠ 0) : ∃ l ∈ ls, l.curState = s := by
  obtain ⟨l, hl, hs⟩ := countP_pos_iff.mp (Nat.pos_of_ne_zero h)
  exact ⟨l, hl, by simpa using hs⟩

/-- In a stuck state, a lease above INVALID on a handle somebody wants EXCLUSIVE
belongs to a client that waits for an upgrade. -/
theorem Stuck.upgrading (hst : e.Stuck) (hi : Inv e) (hl : l ∈ (findHandle (e.handles i)).leases)
    (hwant : (countLeases (findHandle (e.handles i)).leases).wantExclusive ≠ 0)
    (hcur : l.curState = .shared ∨ l.curState = .exclusive) :
    ∃ h, e.clients l.vmid i = some h ∧ h.Upgrading ∧ l.clientReqState = .exclusive ∧
      l.curState = .shared := by
  have hask := ((hi.record i).quiet l hl).2.exclusive hwant hcur
  have hfind : leaseOf (e.handles i) l.vmid = some l :=
    (findLease?_eq_some_iff (hi.record i).leases.nodup).mpr ⟨hl, rfl⟩
  obtain ⟨h, hh, hw, hc⟩ := hst.waits hi hfind (by simp [hask])
  have hlt := hw.cur
  have hst' := hw.state
  obtain ⟨n, hn⟩ := hw.thread
  rw [hc] at hlt
  rcases hcur with hcur | hcur <;> rcases hst' with hs | hs <;> rw [hcur, hs] at hlt
  · exact absurd hlt (by decide)
  · exact ⟨h, hh, ⟨n, hs ▸ hn, hc.trans hcur⟩, hs, hcur⟩
  · exact absurd hlt (by decide)
  · exact absurd hlt (by decide)

/-- In a stuck state, somebody wants EXCLUSIVE on a handle that a lease above
INVALID stands in the way of. -/
theorem Stuck.wants (hst : e.Stuck) (hi : Inv e) :
    ∃ i, (countLeases (findHandle (e.handles i)).leases).wantExclusive ≠ 0 ∧
      ∃ l ∈ (findHandle (e.handles i)).leases, l.curState = .shared ∨ l.curState = .exclusive := by
  obtain ⟨c, i, h, hh, hw⟩ := hst.waiting
  have hlink := hi.link c i
  rw [hh, hst.toServer, hst.toClient] at hlink
  obtain ⟨l, hfind, hwait⟩ := hlink.silent_waiting rfl rfl hw
  have hl := ((findLease?_eq_some_iff (hi.record i).leases.nodup).mp hfind).1
  obtain ⟨hserved, -⟩ := (hi.record i).quiet l hl
  refine ⟨i, ?_⟩
  rcases hwait.state with hs | hs
  · obtain ⟨k, hk, hkx⟩ := exists_lease (hserved.shared hs)
    by_cases hwant : (countLeases (findHandle (e.handles i)).leases).wantExclusive = 0
    · -- the holder of the EXCLUSIVE lease would have to wait for more than that
      have hwant' : (countLeases (findHandle (e.handles i)).leases).wantShared ≠ 0 :=
        Nat.pos_iff_ne_zero.mp (countP_pos_iff.mpr ⟨l, hl, by simpa using hs⟩)
      have hask := ((hi.record i).quiet k hk).2.shared hwant hwant' hkx
      obtain ⟨_, -, hw', hc⟩ := hst.waits hi
        ((findLease?_eq_some_iff (hi.record i).leases.nodup).mpr ⟨hk, rfl⟩)
        (by rcases hask with h | h <;> simp [h])
      have hlt := hw'.cur
      rw [hc, hkx] at hlt
      rcases hw'.state with h | h <;> rw [h] at hlt <;> exact absurd hlt (by decide)
    · exact ⟨hwant, k, hk, .inr hkx⟩
  · refine ⟨Nat.pos_iff_ne_zero.mp (countP_pos_iff.mpr ⟨l, hl, by simpa using hs⟩), ?_⟩
    rcases hserved.exclusive hs with hx | hx | ⟨-, hx⟩
    · obtain ⟨k, hk, hkx⟩ := exists_lease hx
      exact ⟨k, hk, .inr hkx⟩
    · obtain ⟨k, hk, hkx⟩ := exists_lease (Nat.ne_of_gt (Nat.lt_of_lt_of_le Nat.two_pos hx))
      exact ⟨k, hk, .inl hkx⟩
    · obtain ⟨k, hk, hkx⟩ := exists_lease hx
      exact ⟨k, hk, .inl hkx⟩

/-- The upgrade of a SHARED lease waits for a second lease above INVALID. -/
theorem Inv.second_lease (hi : Inv e) (hl : l ∈ (findHandle (e.handles i)).leases)
    (hreq : l.clientReqState = .exclusive) (hcur : l.curState = .shared) :
    ∃ k ∈ (findHandle (e.handles i)).leases, l.vmid ≠ k.vmid ∧
      (k.curState = .shared ∨ k.curState = .exclusive) := by
  have hok := (hi.record i).leases
  have hp := cons_delLease_perm ((findLease?_eq_some_iff hok.nodup).mpr ⟨hl, rfl⟩)
  have hother : ∀ k ∈ delLease (findHandle (e.handles i)).leases l.vmid, l.vmid ≠ k.vmid := by
    intro k hk he
    have hnd := (hok.perm hp).nodup
    rw [map_cons, nodup_cons] at hnd
    exact hnd.1 (mem_map.mpr ⟨k, hk, he.symm⟩)
  have hcount := countLeases_perm hp
  rw [countLeases_cons] at hcount
  have hserved := ((hi.record i).quiet l hl).1.exclusive hreq
  rw [hcount] at hserved
  simp only [Counts.add_nExclusive, Counts.add_nShared, tally, hcur] at hserved
  simp only [reduceCtorEq, if_true, if_false, false_and, or_false, Nat.zero_add] at hserved
  rcases hserved with hx | hx
  · obtain ⟨k, hk, hkx⟩ := exists_lease hx
    exact ⟨k, hp.mem_iff.mpr (mem_cons_of_mem _ hk), hother k hk, .inr hkx⟩
  obtain ⟨k, hk, hkx⟩ := exists_lease
    (show (delLease (findHandle (e.handles i)).leases l.vmid).countP
      (fun l => l.curState = .shared) ≠ 0 by simp only [countLeases] at hx; omega)
  exact ⟨k, hp.mem_iff.mpr (mem_cons_of_mem _ hk), hother k hk, .inl hkx⟩

/-- **A stuck state has two crossing upgrades.** -/
theorem Stuck.deadlocked (hst : e.Stuck) (hi : Inv e) : ∃ i c c', e.Deadlocked i c c' := by
  obtain ⟨i, hwant, l, hl, hcur⟩ := hst.wants hi
  obtain ⟨h, hh, hu, hreq, hshared⟩ := hst.upgrading hi hl hwant hcur
  obtain ⟨k, hk, hne, hkcur⟩ := hi.second_lease hl hreq hshared
  obtain ⟨h', hh', hu', -⟩ := hst.upgrading hi hk hwant hkcur
  exact ⟨i, l.vmid, k.vmid, hne, ⟨h, hh, hu⟩, h', hh', hu'⟩

/-- **The sync engine does not get stuck** in a run in which no client asks for
EXCLUSIVE on a handle it holds SHARED while another client waits for just that. -/
theorem not_stuck (hr : Transition.Reachable (fun e : Engine Vmid Id => e = initial)
    (Transition.Guarded NoCrossing Step) e) : ¬ e.Stuck := by
  have h : Inv e ∧ e.OneUpgrade := by
    refine hr.invariant (show ∀ e, e = initial → Inv e ∧ e.OneUpgrade from ?_) ?_
    · rintro _ rfl
      refine ⟨inv_initial, ?_⟩
      rintro i c c' ⟨-, ⟨h, hh, -⟩, -⟩
      cases hh
    · rintro e a e' ⟨hi, h1⟩ ⟨hg, hs⟩
      exact ⟨hi.step hs, hs.oneUpgrade hi h1 hg⟩
  intro hst
  obtain ⟨i, c, c', hd⟩ := hst.deadlocked h.1
  exact h.2 i c c' hd

/-- Not even while a client waits for its first lease. -/
theorem not_stuck_first_lock : ∃ e : Engine Bool Unit,
    (∃ h, e.clients false () = some h ∧ h.Waiting) ∧ ¬ e.Stuck :=
  ⟨_, ⟨_, rfl, .shared, 0, rfl, .inl (by decide)⟩, not_stuck (.step (.lock false () .shared 0)
      (.step (.create false ()) (.init rfl) ⟨trivial, by decide, rfl⟩) ⟨trivial, by decide, rfl⟩)⟩

/-- Two clients take a handle SHARED, release it, and ask for EXCLUSIVE at the
same time. -/
def crossingUpgrades : List (Action Bool Unit) :=
  [.create false (), .create true (),
   .lock false () .shared 0, .toServer false, .toClient false, .lockWake false (),
   .unlock false () [],
   .lock true () .shared 0, .toServer true, .toClient true, .lockWake true (),
   .unlock true () [],
   .lock false () .exclusive 0, .lock true () .exclusive 0, .toServer false, .toServer true,
   .toClient false, .toClient true]

/-- A client that waits for an upgrade, and has postponed the request to step down. -/
def upgradingHandle : SyncHandle where
  data := []
  event := false
  nWaiters := 1
  used := true
  phase := .opened
  curState := .shared
  clientReqState := .exclusive
  serverReqState := .invalid
  thread := .locking .exclusive 0

/-- **Crossing upgrades get the engine stuck.** -/
theorem upgrade_deadlock : ∃ e : Engine Bool Unit, e.Reachable ∧ e.Stuck := by
  have hrun : (initial.run crossingUpgrades).isSome = true := by decide
  obtain ⟨e, he⟩ := Option.isSome_iff_exists.mp hrun
  have hchan : ∀ c, (initial.run crossingUpgrades).map (fun e => (e.toServer c, e.toClient c)) =
      some ([], []) := by decide
  have hclient : ∀ c, (initial.run crossingUpgrades).map (fun e => e.clients c ()) =
      some (some upgradingHandle) := by decide
  simp only [he, Option.map_some, Option.some.injEq, Prod.mk.injEq] at hchan hclient
  refine ⟨e, Reachable.run (.init rfl) he, fun c => (hchan c).1, fun c => (hchan c).2, ?_,
    false, (), _, hclient false, .exclusive, 0, rfl, .inl (by decide)⟩
  intro c i h hh hhold
  rw [hclient c] at hh
  cases hh
  rcases hhold with ⟨r, hr⟩ | ⟨s, n, hs, hle, -⟩
  · cases hr
  · cases hs
    exact absurd hle (by decide)

/-! ## Messages in flight -/

/-- **The two ends of a handle agree whenever nothing is in flight between them**: the client's
state is the one on record, the step down that the server waits for has been asked of the client,
and the server has the request that the client waits for. -/
theorem ends_agree (hr : e.Reachable) {h : SyncHandle} (hh : e.clients c i = some h)
    (hup : about i (e.toServer c) = []) (hdown : about i (e.toClient c) = []) :
    (∀ l, leaseOf (e.handles i) c = some l → h.curState = l.curState ∧ h.bound = l.target) ∧
    (leaseOf (e.handles i) c = none → h.curState = .invalid) ∧
    (h.Waiting → ∃ l, leaseOf (e.handles i) c = some l ∧
      h.clientReqState = l.clientReqState) := by
  have hl := hr.inv.link c i
  rw [hh] at hl
  refine ⟨fun l ho => ?_, fun ho => (ho ▸ hl).cur_eq_invalid, fun hw => ?_⟩
  · have hs := (ho ▸ hl).silent hup hdown
    exact ⟨hs.1, hs.2.1⟩
  · obtain ⟨l, ho, hws⟩ := hl.silent_waiting hup hdown hw
    exact ⟨l, ho, hws.clientReq⟩

theorem ends_agree_waiting : ∃ (e : Engine Bool Unit) (l : Lease Bool),
    leaseOf (e.handles ()) true = some l ∧ l.clientReqState = .exclusive := by
  have hrun : ((initial.run crossingUpgrades).map fun e =>
      (e.clients true (), e.toServer true, e.toClient true)) =
      some (some upgradingHandle, [], []) := by decide
  obtain ⟨e, he, heq⟩ := Option.map_eq_some_iff.1 hrun
  simp only [Prod.mk.injEq] at heq
  obtain ⟨hh, hup, hdown⟩ := heq
  obtain ⟨l, hl, hreq⟩ := (ends_agree (Reachable.run (.init rfl) he) hh (by rw [hup]; rfl)
    (by rw [hdown]; rfl)).2.2 ⟨.exclusive, 0, rfl, .inl (by decide)⟩
  exact ⟨e, l, hl, hreq.symm⟩

/-- **At most three messages about a handle are on their way from a client to the server**, in any
interleaving. -/
theorem toServer_bounded (hr : e.Reachable) (c : Vmid) (i : Id) :
    (about i (e.toServer c)).length ≤ 3 :=
  (hr.inv.link c i).length_up_le fun _ hl => ((hr.inv.record i).leases.lease_of_find hl).1

theorem toServer_bounded_upgrades : ∃ e : Engine Bool Unit,
    initial.run (crossingUpgrades.take 14) = some e ∧ (about () (e.toServer true)).length ≤ 3 := by
  have hrun : (initial.run (crossingUpgrades.take 14)).isSome = true := by decide
  obtain ⟨e, he⟩ := Option.isSome_iff_exists.1 hrun
  exact ⟨e, he, toServer_bounded (Reachable.run (.init rfl) he) true ()⟩

end Engine

end Sync
