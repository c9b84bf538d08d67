import Gramine.SyncGrant
import Gramine.SyncClient

/-!
# One client, one handle: the two ends and the messages between them

For a client and a handle id, `Link` relates the client's handle, the server's
lease, and the messages about that handle in flight in the two directions. Its
constructors are the stages a handle goes through:

* `absent`, `fresh`: no handle, or one that has not contacted the server yet;
* `settled`: open, and no upgrade is on its way;
* `opening`, `asking`: REQUEST_UPGRADE is in flight, for a client without and
  with a lease;
* `pending`: the server has the request and cannot grant it yet;
* `granted`: CONFIRM_UPGRADE is in flight;
* `closing`, `unleased`, `closed`: REQUEST_CLOSE is in flight, CONFIRM_CLOSE is in
  flight, or has arrived.

Two chains of messages tie the ends together. The CONFIRM_DOWNGRADE messages in
flight lead from the state the server has on record down to the client's
(`Downs`). The REQUEST_DOWNGRADE messages in flight lead from the state the
client is bound for (`SyncHandle.bound`: its own, or the one it postponed) down to
the one the server waits for (`Lease.target`); so no such request is ever stale,
repeated or lost (`Asking`).
-/

open List

namespace Sync

open SyncHandle Lease

variable {Vmid Id : Type}

/-! ## Messages in flight -/

/-- `ms` are the CONFIRM_DOWNGRADE messages that lead from `s` down to `t`. -/
inductive Downs (i : Id) : SyncState → List (Msg Id) → SyncState → Prop
  | nil (s : SyncState) : Downs i s [] s
  | cons {s t u : SyncState} {data : List UInt8} {ms : List (Msg Id)}
      (ht : t = .invalid ∨ t = .shared) (hlt : t < s) (hdata : s = .exclusive ∨ data = [])
      (h : Downs i t ms u) : Downs i s (⟨.confirmDowngrade, i, t, data⟩ :: ms) u

namespace Downs
variable {i : Id} {s t u : SyncState} {ms : List (Msg Id)}

theorem le (h : Downs i s ms t) : t ≤ s := by
  induction h with
  | nil s => exact Nat.le_refl _
  | cons _ hlt _ _ ih => exact Nat.le_trans ih (Nat.le_of_lt hlt)

theorem eq_of_nil (h : Downs i s [] t) : s = t := by
  cases h
  rfl

theorem snoc {data : List UInt8} (h : Downs i s ms t) (hu : u = .invalid ∨ u = .shared)
    (hlt : u < t) (hdata : t = .exclusive ∨ data = []) :
    Downs i s (ms ++ [⟨.confirmDowngrade, i, u, data⟩]) u := by
  induction h with
  | nil s => exact .cons hu hlt hdata (.nil u)
  | cons ht hlt' hd _ ih => exact .cons ht hlt' hd (ih hlt hdata)

end Downs

/-- `ms` are the REQUEST_DOWNGRADE messages that lead from `s` down to `t`. -/
inductive Asking (i : Id) : SyncState → List (Msg Id) → SyncState → Prop
  | nil (s : SyncState) : Asking i s [] s
  | cons {s t u : SyncState} {ms : List (Msg Id)} (ht : t = .invalid ∨ t = .shared)
      (hlt : t < s) (h : Asking i t ms u) : Asking i s (requestDowngradeMsg i t :: ms) u

namespace Asking
variable {i : Id} {s t u : SyncState} {ms : List (Msg Id)}

theorem le (h : Asking i s ms t) : t ≤ s := by
  induction h with
  | nil s => exact Nat.le_refl _
  | cons _ hlt _ ih => exact Nat.le_trans ih (Nat.le_of_lt hlt)

theorem snoc (h : Asking i s ms t) (hu : u = .invalid ∨ u = .shared) (hlt : u < t) :
    Asking i s (ms ++ [requestDowngradeMsg i u]) u := by
  induction h with
  | nil s => exact .cons hu hlt (.nil u)
  | cons ht hlt' _ ih => exact .cons ht hlt' (ih hlt)

theorem eq_of_nil (h : Asking i s [] t) : s = t := by
  cases h
  rfl

theorem eq_nil (h : Asking i s ms t) (hle : s ≤ t) : ms = [] := by
  cases h with
  | nil => rfl
  | cons _ hlt h => exact absurd hle (Nat.not_le.mpr (Nat.lt_of_le_of_lt h.le hlt))

theorem cases_append {e : SyncState} {d d' : List (Msg Id)} {m c : Msg Id}
    (h : Asking i s d e) (he : d ++ c :: d' = m :: ms) :
    (d = [] ∧ c = m ∧ d' = ms ∧ s = e) ∨
    ∃ t r, (t = .invalid ∨ t = .shared) ∧ t < s ∧ m = requestDowngradeMsg i t ∧
      d = m :: r ∧ Asking i t r e ∧ ms = r ++ c :: d' := by
  cases h with
  | nil =>
    simp only [nil_append, List.cons.injEq] at he
    exact .inl ⟨rfl, he.1, he.2, rfl⟩
  | cons ht hlt h =>
    obtain ⟨rfl, rfl⟩ := he
    exact .inr ⟨_, _, ht, hlt, rfl, rfl, h, rfl⟩

end Asking

/-- Only REQUEST_DOWNGRADE messages. -/
def AllAsks (i : Id) (ms : List (Msg Id)) : Prop :=
  ∀ m ∈ ms, ∃ s, m = requestDowngradeMsg i s

variable {ms : List (Msg Id)}

theorem Asking.allAsks {i : Id} {s t : SyncState} (h : Asking i s ms t) : AllAsks i ms := by
  induction h with
  | nil => simp [AllAsks]
  | cons _ _ _ ih =>
    intro m hm
    rcases mem_cons.mp hm with rfl | hm
    · exact ⟨_, rfl⟩
    · exact ih m hm

variable {m : Msg Id}

theorem AllAsks.tail {i : Id} (h : AllAsks i (m :: ms)) :
    AllAsks i ms := fun k hk => h k (mem_cons_of_mem _ hk)

theorem AllAsks.snoc {i : Id} (h : AllAsks i ms) (s : SyncState) :
    AllAsks i (ms ++ [requestDowngradeMsg i s]) := by
  intro m hm
  rcases mem_append.mp hm with hm | hm
  · exact h m hm
  · exact ⟨s, mem_singleton.mp hm⟩

/-! ## The two ends -/

/-- The state the client will fall back to without another request. -/
def SyncHandle.bound (h : SyncHandle) : SyncState :=
  if h.serverReqState = .none then h.curState else h.serverReqState

/-- The state the server waits for the client to fall back to. -/
def Lease.target (l : Lease Vmid) : SyncState :=
  if l.serverReqState = .none then l.curState else l.serverReqState

/-- The thread holds `use_lock`. -/
def Thread.uses : Thread → Bool
  | .locking _ _ => true
  | .locked _ => true
  | _ => false

/-- The number of threads waiting for the event. -/
def Thread.waiters : Thread → Nat
  | .locking _ _ => 1
  | .destroying => 1
  | _ => 0

/-- What is true of a client's handle whatever the server does. -/
structure HandleOk (h : SyncHandle) : Prop where
  cur : h.curState ≠ .none
  used : h.used = h.thread.uses
  waiters : h.nWaiters = h.thread.waiters
  serverReq : h.serverReqState = .none ∨
    ((h.serverReqState = .invalid ∨ h.serverReqState = .shared) ∧
      h.serverReqState < h.curState ∧ h.used = true)

theorem HandleOk.bound_le {h : SyncHandle} (hok : HandleOk h) : h.bound ≤ h.curState := by
  unfold bound
  split
  · exact Nat.le_refl _
  · rename_i hs
    exact Nat.le_of_lt (hok.serverReq.resolve_left hs).2.1

/-- A thread waits for `s`, asked for it, and does not have it. -/
structure Waits (h : SyncHandle) (s : SyncState) : Prop where
  ok : HandleOk h
  phase : h.phase = .opened
  thread : ∃ n, h.thread = .locking s n
  state : s = .shared ∨ s = .exclusive
  clientReq : h.clientReqState = s
  cur : h.curState < s

theorem Waits.again {h : SyncHandle} {s : SyncState} (hw : Waits h s) :
    Waits h.endWait.startWait s := by
  obtain ⟨ok, phase, ⟨n, hn⟩, hs, hreq, hc⟩ := hw
  refine ⟨⟨ok.cur, ok.used, ?_, ok.serverReq⟩, phase, ⟨n, hn⟩, hs, hreq, hc⟩
  have := ok.waiters
  simp [startWait, endWait, this, hn, Thread.waiters]

/-- The state the client is bound for once the upgrade to `s` behind the requests
`d` has arrived. -/
def SyncHandle.boundAfter (h : SyncHandle) (d : List (Msg Id)) (e s : SyncState) : SyncState :=
  if h.serverReqState = .none ∧ d = [] then s else e

/-- The stages of a handle. -/
inductive Link (i : Id) :
    Option SyncHandle → Option (Lease Vmid) → List (Msg Id) → List (Msg Id) → Prop
  | absent : Link i none none [] []
  | fresh : Link i (some syncInit) none [] []
  | settled {h : SyncHandle} {l : Lease Vmid} {up down : List (Msg Id)} (ok : HandleOk h)
      (phase : h.phase = .opened) (thread : h.thread ≠ .destroying)
      (awake : ∀ s n, h.thread = .locking s n → s ≤ h.curState ∧ h.event = true)
      (clientReq : h.clientReqState = .none) (lease : l.clientReqState = .none)
      (downs : Downs i l.curState up h.curState) (asks : Asking i h.bound down l.target) :
      Link i (some h) (some l) up down
  | opening {h : SyncHandle} {s : SyncState} (waits : Waits h s) (cur : h.curState = .invalid)
      (serverReq : h.serverReqState = .none) :
      Link i (some h) none [⟨.requestUpgrade, i, s, []⟩] []
  | asking {h : SyncHandle} {s : SyncState} {l : Lease Vmid} {up down : List (Msg Id)}
      (waits : Waits h s) (lease : l.clientReqState = .none)
      (downs : Downs i l.curState up h.curState) (asks : Asking i h.bound down l.target) :
      Link i (some h) (some l) (up ++ [⟨.requestUpgrade, i, s, []⟩]) down
  | pending {h : SyncHandle} {s : SyncState} {l : Lease Vmid} {down : List (Msg Id)}
      (waits : Waits h s) (lease : l.clientReqState = s) (cur : l.curState = h.curState)
      (asks : Asking i h.bound down l.target) : Link i (some h) (some l) [] down
  | granted {h : SyncHandle} {s e : SyncState} {l : Lease Vmid} {d d' : List (Msg Id)}
      {data : List UInt8} (waits : Waits h s) (lease : l.clientReqState = .none)
      (cur : l.curState = s) (asks : Asking i h.bound d e)
      (asks' : Asking i (h.boundAfter d e s) d' l.target) :
      Link i (some h) (some l) [] (d ++ confirmUpgradeMsg i data s :: d')
  | closing {h : SyncHandle} {l : Lease Vmid} {up down : List (Msg Id)} {s : SyncState}
      {data : List UInt8} (ok : HandleOk h) (phase : h.phase = .closing)
      (thread : h.thread = .destroying) (cur : h.curState = .invalid)
      (lease : l.clientReqState = .none) (downs : Downs i l.curState up s)
      (hdata : s = .exclusive ∨ data = []) (asks : AllAsks i down) :
      Link i (some h) (some l) (up ++ [⟨.requestClose, i, s, data⟩]) down
  | unleased {h : SyncHandle} {d : List (Msg Id)} (ok : HandleOk h) (phase : h.phase = .closing)
      (thread : h.thread = .destroying) (cur : h.curState = .invalid) (asks : AllAsks i d) :
      Link i (some h) none [] (d ++ [confirmCloseMsg i])
  | closed {h : SyncHandle} (ok : HandleOk h) (phase : h.phase = .closed)
      (thread : h.thread = .destroying) (cur : h.curState = .invalid) :
      Link i (some h) none [] []

/-- What the server does to a lease, before it walks over the leases of the
handle: the message at the head of a client's channel, and the lease after it. -/
inductive Receives (v : Vmid) (i : Id) : Msg Id → Option (Lease Vmid) → Option (Lease Vmid) → Prop
  | upgrade {o : Option (Lease Vmid)} (s : SyncState) (hs : s = .shared ∨ s = .exclusive)
      (hcur : (o.getD (fresh v)).curState < s) :
      Receives v i ⟨.requestUpgrade, i, s, []⟩ o
        (some { o.getD (fresh v) with clientReqState := s })
  | downgrade {l : Lease Vmid} (s : SyncState) (data : List UInt8)
      (hs : s = .invalid ∨ s = .shared) (hlt : s < l.curState)
      (hdata : l.curState = .exclusive ∨ data = []) (hreq : l.clientReqState = .none) :
      Receives v i ⟨.confirmDowngrade, i, s, data⟩ (some l)
        (some { l with
          curState := s
          serverReqState := if s ≤ l.serverReqState then .none else l.serverReqState })
  | close {l : Lease Vmid} (s : SyncState) (data : List UInt8) (hs : s ≠ .none)
      (hdata : s = .exclusive ∨ data = []) :
      Receives v i ⟨.requestClose, i, s, data⟩ (some l) none

/-- The messages a handler sends before it walks over the leases. -/
def reply (m : Msg Id) : List (Msg Id) :=
  if m.code = .requestClose then [confirmCloseMsg m.id] else []

theorem reply_eq_nil (h : m.code ≠ .requestClose) : reply m = [] := if_neg h

namespace Link
variable {i : Id} {h : SyncHandle} {l : Lease Vmid} {o : Option (Lease Vmid)}
  {up down : List (Msg Id)}

/-- **The client is never above its lease.** -/
theorem cur_le (hl : Link i (some h) (some l) up down) (hok : LeaseOk l) :
    h.curState ≤ l.curState := by
  cases hl with
  | settled _ _ _ _ _ _ downs _ | asking _ _ downs _ => exact downs.le
  | pending _ _ cur _ => rw [cur]; exact Nat.le_refl _
  | granted waits _ cur _ _ => rw [cur]; exact Nat.le_of_lt waits.cur
  | closing _ _ _ cur _ _ _ _ =>
    have := hok.cur
    cases h : l.curState <;> simp_all [SyncState.le_def, SyncState.val]

theorem cur_eq_invalid (hl : Link i (some h) (none : Option (Lease Vmid)) up down) :
    h.curState = .invalid := by
  cases hl with
  | fresh => rfl
  | opening _ cur _ | unleased _ _ _ cur _ | closed _ _ _ cur => exact cur

/-! ### The server walks over the leases -/

theorem grants {data : List UInt8} {ms : List (Msg Id)} {l' : Lease Vmid}
    (hl : Link i (some h) (some l) up down) (hok : LeaseOk l) (hg : Grants i data l ms l') :
    Link i (some h) (some l') up (down ++ ms) := by
  cases hg with
  | skip => simpa using hl
  | grant s hreq hs hcur =>
    have hne : l.clientReqState ≠ .none := by
      rcases hs with rfl | rfl <;> simp [hreq]
    cases hl with
    | settled _ _ _ _ _ lease _ _ | asking _ lease _ _ | granted _ lease _ _ _
    | closing _ _ _ _ lease _ _ _ => exact absurd lease hne
    | @pending _ s' _ _ waits lease cur asks =>
      obtain rfl : s' = s := lease.symm.trans hreq
      refine .granted waits rfl rfl asks ?_
      -- an unanswered request is below the old state, so it is postponed or in flight
      have hb : h.boundAfter down l.target s' =
          target { l with curState := s', clientReqState := .none } := by
        by_cases hn : l.serverReqState = .none
        · have ht : l.target = h.curState := by simp [target, hn, cur]
          rw [ht] at asks
          have hs : h.serverReqState = .none := by
            refine Classical.byContradiction fun hs => ?_
            have hlt := (waits.ok.serverReq.resolve_left hs).2.1
            have hle := asks.le
            simp only [bound, if_neg hs] at hle
            exact absurd hle (Nat.not_le.mpr hlt)
          have hd := asks.eq_nil waits.ok.bound_le
          simp [boundAfter, target, hs, hd, hn]
        · have ht : l.target = l.serverReqState := by simp [target, hn]
          have hnot : ¬ (h.serverReqState = .none ∧ down = []) := by
            rintro ⟨hs, rfl⟩
            have hlt := hok.serverReq.resolve_left hn
            rw [cur] at hlt
            have he := asks.eq_of_nil
            simp only [bound, hs, if_true, ht] at he
            rw [he] at hlt
            exact absurd hlt (Nat.lt_irrefl _)
          simp [boundAfter, target, hnot, hn]
      rw [hb]
      exact .nil _

theorem asks {ms : List (Msg Id)} {l' : Lease Vmid}
    (hl : Link i (some h) (some l) up down) (hg : Asks i l ms l') :
    Link i (some h) (some l') up (down ++ ms) := by
  cases hg with
  | skip => simpa using hl
  | ask s hs hcur hreq =>
    have ht : target { l with serverReqState := s } = s := by
      rcases hs with rfl | rfl <;> simp [target]
    have hlt : s < l.target := by
      unfold target
      split
      · exact hcur
      · exact hreq.resolve_left ‹_›
    cases hl with
    | settled ok phase thread awake clientReq lease downs asks =>
      exact .settled ok phase thread awake clientReq lease downs
        (by rw [ht]; exact asks.snoc hs hlt)
    | asking waits lease downs asks =>
      exact .asking waits lease downs (by rw [ht]; exact asks.snoc hs hlt)
    | pending waits lease cur asks =>
      exact .pending waits lease cur (by rw [ht]; exact asks.snoc hs hlt)
    | granted waits lease cur asks asks' =>
      rw [append_assoc]
      exact .granted waits lease cur asks (by rw [ht]; exact asks'.snoc hs hlt)
    | closing ok phase thread cur lease downs hdata asks =>
      exact .closing ok phase thread cur lease downs hdata (asks.snoc s)

/-! ### Steps of the client -/

theorem create (hl : Link i none o up down) : Link i (some syncInit) o up down := by
  cases hl with
  | absent => exact .fresh

/-- The data sent with a downgrade is empty unless the handle was EXCLUSIVE. -/
theorem latestData_cases (h : SyncHandle) : h.curState = .exclusive ∨ h.latestData = [] := by
  unfold latestData
  split
  · exact .inl ‹_›
  · exact .inr rfl

variable {s : SyncState}

theorem thread_ne_idle (hw : Waits h s) : h.thread ≠ .idle := by
  obtain ⟨n, hn⟩ := hw.thread
  rw [hn]
  simp

theorem serverReq_none (hok : HandleOk h) (hu : h.used = false) : h.serverReqState = .none := by
  rcases hok.serverReq with hn | ⟨-, -, hu'⟩
  · exact hn
  · cases hu.symm.trans hu'

/-- `sync_lock` by an idle thread takes the handle, or asks the server for it. -/
theorem lock {n : Nat} (hl : Link i (some h) o up down) (hs : s = .shared ∨ s = .exclusive)
    (ht : h.thread = .idle) :
    ∃ h' ms, syncLock i s n h = .ok (h', ms) ∧ Link i (some h') o (up ++ ms) down := by
  have hpos : SyncState.none < s := by rcases hs with rfl | rfl <;> decide
  cases hl with
  | fresh =>
    have hc : SyncState.invalid < s := by rcases hs with rfl | rfl <;> decide
    refine ⟨startWait
      { syncInit with used := true, thread := .locking s n, clientReqState := s, phase := .opened },
      _, ?_, .opening ⟨⟨?_, rfl, rfl, .inl rfl⟩, rfl, ⟨n, rfl⟩, hs, rfl, hc⟩ rfl rfl⟩
    · simp [syncLock, check_of hs, syncInit, requestUpgrade, hc, hpos]
      rfl
    · simp [startWait, syncInit]
  | settled ok phase thread awake clientReq lease downs asks =>
    have hused : h.used = false := by rw [ok.used, ht]; rfl
    have hsreq := serverReq_none ok hused
    by_cases hc : h.curState < s
    · refine ⟨startWait
        { h with used := true, thread := .locking s n, clientReqState := s, phase := .opened },
        _, ?_,
        .asking ⟨⟨ok.cur, rfl, ?_, .inl hsreq⟩, rfl, ⟨n, rfl⟩, hs, rfl, hc⟩ lease downs ?_⟩
      · simp [syncLock, check_of hs, check_of hused, requestUpgrade, phase, clientReq, hc, hpos]
        rfl
      · have := ok.waiters
        rw [ht] at this
        simp [startWait, this, Thread.waiters]
      · simpa [bound, startWait, hsreq] using asks
    · refine ⟨{ h with used := true, thread := .locked none }, [], ?_, ?_⟩
      · simp [syncLock, check_of hs, check_of hused, hc]
        rfl
      rw [append_nil]
      refine .settled ⟨ok.cur, rfl, ?_, .inl hsreq⟩ phase (by simp) (by simp) clientReq lease
        downs ?_
      · rw [ok.waiters, ht]; rfl
      · simpa [bound, hsreq] using asks
  | opening waits | asking waits | pending waits | granted waits =>
    exact absurd ht (thread_ne_idle waits)
  | closing _ _ thread | unleased _ _ thread | closed _ _ thread => rw [ht] at thread; cases thread

/-- A woken thread finds what it waits for, or waits again; it can also find data
of another size than its buffer. -/
theorem lockWake {n : Nat} (hl : Link i (some h) o up down) (ht : h.thread = .locking s n) :
    syncLockWake i s n h = .error .dataSizeMismatch ∨
      ∃ h' ms, syncLockWake i s n h = .ok (h', ms) ∧ Link i (some h') o (up ++ ms) down := by
  have again : ∀ s', Waits h s' →
      syncLockWake i s n h = .ok (h.endWait.startWait, []) ∧ Waits h.endWait.startWait s' := by
    intro s' hw
    refine ⟨?_, hw.again⟩
    obtain ⟨m, hm⟩ := hw.thread
    obtain ⟨rfl, rfl⟩ : s = s' ∧ n = m := by simpa [ht] using hm
    have hreq : ¬ h.clientReqState < s := by
      rw [hw.clientReq]
      exact Nat.lt_irrefl _
    simp [syncLockWake, hw.cur, requestUpgrade, endWait, hw.phase, hreq]
    rfl
  cases hl with
  | fresh => cases ht
  | @settled _ l _ _ ok phase thread awake clientReq lease downs asks =>
    have hc : ¬ h.curState < s := Nat.not_lt.mpr (awake s n ht).1
    have hused : h.used = true := by rw [ok.used, ht]; rfl
    have hwait : h.nWaiters = 1 := by rw [ok.waiters, ht]; rfl
    have done : ∀ r, Link i (some { h.endWait with thread := .locked r }) (some l)
        (up ++ []) down := by
      intro r
      rw [append_nil]
      refine .settled ⟨ok.cur, hused, ?_, ok.serverReq⟩ phase (by simp) (by simp) clientReq lease
        downs asks
      simp [endWait, hwait, Thread.waiters]
    by_cases hd : 0 < n ∧ h.data ≠ []
    · by_cases hlen : n = h.data.length
      · refine .inr ⟨_, _, ?_, done (some h.data)⟩
        simp [syncLockWake, hc, hd, ← hlen]
        rfl
      · simp [syncLockWake, hc, hd, hlen]
        rfl
    · refine .inr ⟨_, _, ?_, done none⟩
      simp only [syncLockWake, if_neg hc, if_neg hd]
      rfl
  | opening waits cur serverReq =>
    obtain ⟨he, hw⟩ := again _ waits
    exact .inr ⟨_, _, he, by simpa using .opening hw cur serverReq⟩
  | asking waits lease downs asks =>
    obtain ⟨he, hw⟩ := again _ waits
    exact .inr ⟨_, _, he, by simpa using .asking hw lease downs asks⟩
  | pending waits lease cur asks =>
    obtain ⟨he, hw⟩ := again _ waits
    exact .inr ⟨_, _, he, by simpa using .pending hw lease cur asks⟩
  | granted waits lease cur asks asks' =>
    obtain ⟨he, hw⟩ := again _ waits
    exact .inr ⟨_, _, he, by simpa using .granted hw lease cur asks asks'⟩
  | closing _ _ thread | unleased _ _ thread | closed _ _ thread => rw [ht] at thread; cases thread

/-- `sync_downgrade` to the postponed state. -/
theorem syncDowngrade_eq (hu : h.used = false) (hp : h.phase = .opened)
    (hn : h.serverReqState ≠ .none) (hlt : h.serverReqState < h.curState) :
    syncDowngrade i h = .ok ({ h with curState := h.serverReqState, serverReqState := .none },
      [⟨.confirmDowngrade, i, h.serverReqState, h.latestData⟩]) := by
  simp [syncDowngrade, check_of hu, check_of hp, check_of hn, check_of hlt]
  rfl

/-- `sync_unlock` by the thread that holds the handle: a postponed downgrade is
carried out. -/
theorem unlock {r : Option (List UInt8)} (data : List UInt8) (hl : Link i (some h) o up down)
    (ht : h.thread = .locked r) :
    ∃ h' ms, syncUnlock i data h = .ok (h', ms) ∧ Link i (some h') o (up ++ ms) down := by
  have nowait : ∀ s, ¬ Waits h s := by
    intro s hw
    obtain ⟨n, hn⟩ := hw.thread
    cases ht.symm.trans hn
  cases hl with
  | fresh => cases ht
  | @settled _ l _ _ ok phase thread awake clientReq lease downs asks =>
    have hused : h.used = true := by rw [ok.used, ht]; rfl
    have hwait : h.nWaiters = 0 := by rw [ok.waiters, ht]; rfl
    rcases ok.serverReq with hn | ⟨hs, hlt, -⟩
    · refine ⟨h.release data, [], ?_, ?_⟩
      · simp [syncUnlock, check_of hused, release, hn, bind]
        rfl
      rw [append_nil]
      refine .settled ⟨ok.cur, rfl, hwait, .inl hn⟩ phase (by simp [release])
        (by simp [release]) clientReq lease downs ?_
      simpa [bound, release, hn] using asks
    · have hne : h.serverReqState ≠ .none := by rcases hs with h | h <;> simp [h]
      have hcond : (h.release data).phase = .opened ∧
          (h.release data).serverReqState < (h.release data).curState ∧
          (h.release data).serverReqState ≠ .none := ⟨phase, hlt, hne⟩
      refine ⟨_, _, ?_, .settled (h := { h.release data with
        curState := h.serverReqState, serverReqState := .none }) ⟨hne, rfl, hwait, .inl rfl⟩
        phase ?_ ?_ clientReq lease
        (downs.snoc hs hlt (latestData_cases (h.release data))) ?_⟩
      · simp only [syncUnlock, check_of hused, bind, if_pos hcond]
        exact syncDowngrade_eq rfl phase hne hlt
      · simp [release]
      · simp [release]
      · simpa [bound, hne] using asks
  | opening waits | asking waits | pending waits | granted waits => exact absurd waits (nowait _)
  | closing _ _ thread | unleased _ _ thread | closed _ _ thread => rw [ht] at thread; cases thread

/-- `sync_destroy` of a handle nobody uses. -/
theorem destroy (hl : Link i (some h) o up down) (ht : h.thread = .idle) :
    ∃ h' ms, syncDestroy i h = .ok (h', ms) ∧ Link i h' o (up ++ ms) down := by
  cases hl with
  | fresh => exact ⟨none, [], rfl, .absent⟩
  | settled ok phase thread awake clientReq lease downs asks =>
    have hused : h.used = false := by rw [ok.used, ht]; rfl
    have hwait : h.nWaiters = 0 := by rw [ok.waiters, ht]; rfl
    have hsreq := serverReq_none ok hused
    refine ⟨some (startWait
      { h with phase := .closing, curState := .invalid, thread := .destroying }), _, ?_,
      .closing ⟨?_, hused, ?_, .inl hsreq⟩
        rfl rfl rfl lease downs (latestData_cases h) asks.allAsks⟩
    · simp only [syncDestroy, check_of hused, check_of hwait, if_pos phase]
      rfl
    · simp [startWait]
    · simp [startWait, hwait, Thread.waiters]
  | opening waits | asking waits | pending waits | granted waits =>
    exact absurd ht (thread_ne_idle waits)
  | closing _ _ thread | unleased _ _ thread | closed _ _ thread => rw [ht] at thread; cases thread

/-- A thread woken in `sync_destroy` removes the closed handle. -/
theorem destroyWake (hl : Link i (some h) o up down) (ht : h.thread = .destroying) :
    Link i (syncDestroyWake h) o up down := by
  have again : HandleOk h → HandleOk h.endWait.startWait := by
    intro ok
    have hwait : h.nWaiters = 1 := by rw [ok.waiters, ht]; rfl
    refine ⟨ok.cur, ok.used, ?_, ok.serverReq⟩
    simp [startWait, endWait, hwait, ht, Thread.waiters]
  cases hl with
  | fresh => cases ht
  | settled _ _ thread => exact absurd ht thread
  | closing ok phase thread cur lease downs hdata asks =>
    have hne : h.phase ≠ .closed := by simp [phase]
    rw [syncDestroyWake, if_pos hne]
    exact .closing (again ok) phase thread cur lease downs hdata asks
  | unleased ok phase thread cur asks =>
    have hne : h.phase ≠ .closed := by simp [phase]
    rw [syncDestroyWake, if_pos hne]
    exact .unleased (again ok) phase thread cur asks
  | closed ok phase thread cur =>
    rw [syncDestroyWake, if_neg (by simp [phase])]
    exact .absent
  | opening waits | asking waits | pending waits | granted waits =>
    obtain ⟨n, hn⟩ := waits.thread; rw [ht] at hn; cases hn

/-! ### The client handles a message -/

variable {t : SyncState}

/-- A request the chain of `Asking` predicts is heeded: carried out at once, or
postponed by the thread that uses the handle. -/
theorem heed (ok : HandleOk h) (hp : h.phase = .opened) (ht : t = .invalid ∨ t = .shared)
    (hlt : t < h.bound) :
    (h.used = false ∧ doRequestDowngrade i t h = .ok ({ h with curState := t },
        [⟨.confirmDowngrade, i, t, h.latestData⟩]) ∧ h.serverReqState = .none ∧ t < h.curState) ∨
    (h.used = true ∧ doRequestDowngrade i t h = .ok ({ h with serverReqState := t }, []) ∧
      HandleOk { h with serverReqState := t }) := by
  have hcur : t < h.curState := Nat.lt_of_lt_of_le hlt ok.bound_le
  have hcond : h.phase = .opened ∧ t < h.curState ∧
      (t < h.serverReqState ∨ h.serverReqState = .none) := by
    refine ⟨hp, hcur, ?_⟩
    unfold bound at hlt
    split at hlt
    · exact .inr ‹_›
    · exact .inl hlt
  have hne : t ≠ .none := by rcases ht with rfl | rfl <;> simp
  by_cases hu : h.used = true
  · refine .inr ⟨hu, ?_, ok.cur, ok.used, ok.waiters, .inr ⟨ht, hcur, hu⟩⟩
    simp only [doRequestDowngrade, if_pos hcond, hu]
    rfl
  have hu' : h.used = false := by simpa using hu
  have hsreq := serverReq_none ok hu'
  refine .inl ⟨hu', ?_, hsreq, hcur⟩
  simp only [doRequestDowngrade, if_pos hcond]
  rw [if_pos hu', syncDowngrade_eq (h := { h with serverReqState := t }) hu' hp hne hcur, ← hsreq]
  rfl

theorem heed_waits (hw : Waits h s) (ht : t = .invalid ∨ t = .shared) (hlt : t < h.bound) :
    doRequestDowngrade i t h = .ok ({ h with serverReqState := t }, []) ∧
      Waits { h with serverReqState := t } s := by
  have hu : h.used = true := by
    obtain ⟨_, hn⟩ := hw.thread
    rw [hw.ok.used, hn]
    rfl
  rcases heed (i := i) hw.ok hw.phase ht hlt with ⟨hu', -⟩ | ⟨-, he, ok⟩
  · cases hu.symm.trans hu'
  · exact ⟨he, ok, hw.phase, hw.thread, hw.state, hw.clientReq, hw.cur⟩

theorem bound_postponed (ht : t = .invalid ∨ t = .shared) :
    bound { h with serverReqState := t } = t := by
  rcases ht with rfl | rfl <;> simp [bound]

theorem clientCallback_ask :
    clientCallback (requestDowngradeMsg i t) (some h) = doRequestDowngrade i t h := rfl

theorem heed_closing (hp : h.phase = .closing) : doRequestDowngrade i t h = .ok (h, []) := by
  have hcond : ¬ (h.phase = .opened ∧ t < h.curState ∧
      (t < h.serverReqState ∨ h.serverReqState = .none)) := by
    simp [hp]
  rw [doRequestDowngrade, if_neg hcond]
  rfl

/-- CONFIRM_UPGRADE for the state the client waits for settles the handle. -/
theorem upgrade_settled {d' : List (Msg Id)} (data : List UInt8) (waits : Waits h s)
    (lease : l.clientReqState = .none) (cur : l.curState = s)
    (asks : Asking i (h.boundAfter ([] : List (Msg Id)) h.bound s) d' l.target) :
    Link i (some (doConfirmUpgrade s data h)) (some l) [] d' := by
  obtain ⟨ok, phase, ⟨n, hn⟩, hs, -, hc⟩ := waits
  have hwait : h.nWaiters = 1 := by rw [ok.waiters, hn]; rfl
  have he : doConfirmUpgrade s data h = { h with
      curState := s, clientReqState := .none, event := true,
      data := if data = [] then h.data else data } := by
    simp [doConfirmUpgrade, phase, hc, notify, hwait]
  rw [he]
  refine .settled ⟨?_, ok.used, ok.waiters, ?_⟩ phase ?_ ?_ rfl lease ?_ ?_
  · rcases hs with rfl | rfl <;> simp
  · rcases ok.serverReq with h | ⟨h1, h2, h3⟩
    · exact .inl h
    · exact .inr ⟨h1, Nat.lt_trans h2 hc, h3⟩
  · simp [hn]
  · intro s' n' hs'
    obtain ⟨rfl, rfl⟩ : s = s' ∧ n = n' := by simpa [hn] using hs'
    exact ⟨Nat.le_refl _, rfl⟩
  · rw [cur]
    exact .nil s
  · unfold bound boundAfter at *
    by_cases hz : h.serverReqState = .none <;> simpa [hz] using asks

variable {oh : Option SyncHandle}

/-- **The client handles every message about the handle**, and reaches no
assertion. -/
theorem deliver (hl : Link i oh o up (m :: down)) :
    ∃ h' ms, clientCallback m oh = .ok (h', ms) ∧ Link i (some h') o (up ++ ms) down := by
  generalize hd : m :: down = d at hl
  cases hl with
  | absent | fresh | opening | closed => cases hd
  | @settled h l _ _ ok phase thread awake clientReq lease downs asks =>
    subst hd
    cases asks with
    | @cons _ t _ _ ht hlt asks =>
      rcases heed (i := i) ok phase ht hlt with ⟨hu, he, hsreq, hcur⟩ | ⟨hu, he, ok'⟩
      · refine ⟨_, _, he, .settled ⟨?_, ok.used, ok.waiters, .inl hsreq⟩ phase thread ?_
          clientReq lease (downs.snoc ht hcur (latestData_cases h)) ?_⟩
        · rcases ht with rfl | rfl <;> simp
        · intro s n hs
          rw [ok.used, hs] at hu
          cases hu
        · simpa [bound, hsreq] using asks
      · refine ⟨_, _, he, ?_⟩
        rw [append_nil]
        exact .settled ok' phase thread awake clientReq lease downs (by rwa [bound_postponed ht])
  | @asking h s l up' _ waits lease downs asks =>
    subst hd
    cases asks with
    | cons ht hlt asks =>
      obtain ⟨he, hw⟩ := heed_waits (i := i) waits ht hlt
      refine ⟨_, _, clientCallback_ask.trans he, ?_⟩
      rw [append_nil]
      exact .asking hw lease downs (by rwa [bound_postponed ht])
  | pending waits lease cur asks =>
    subst hd
    cases asks with
    | cons ht hlt asks =>
      obtain ⟨he, hw⟩ := heed_waits (i := i) waits ht hlt
      exact ⟨_, _, clientCallback_ask.trans he, .pending hw lease cur (by rwa [bound_postponed ht])⟩
  | @granted h s e l d d' data waits lease cur asks asks' =>
    rcases asks.cases_append hd.symm with ⟨rfl, rfl, rfl, rfl⟩ | ⟨t, r, ht, hlt, rfl, rfl, h1, rfl⟩
    · exact ⟨_, _, rfl, upgrade_settled data waits lease cur asks'⟩
    obtain ⟨he, hw⟩ := heed_waits (i := i) waits ht hlt
    refine ⟨_, _, clientCallback_ask.trans he, .granted hw lease cur
      (by rwa [bound_postponed ht]) ?_⟩
    have hne : t ≠ .none := by rcases ht with rfl | rfl <;> simp
    simpa [boundAfter, hne] using asks'
  | closing ok phase thread cur lease downs hdata asks =>
    subst hd
    obtain ⟨t, rfl⟩ := asks m mem_cons_self
    refine ⟨_, _, clientCallback_ask.trans (heed_closing phase), ?_⟩
    rw [append_nil]
    exact .closing ok phase thread cur lease downs hdata asks.tail
  | @unleased h d ok phase thread cur asks =>
    cases d with
    | nil =>
      obtain ⟨rfl, rfl⟩ := hd
      refine ⟨_, _, rfl, ?_⟩
      have he : doConfirmClose h = { h with phase := .closed }.notify := by
        simp [doConfirmClose, phase]
      rw [he]
      exact .closed ⟨ok.cur, ok.used, ok.waiters, ok.serverReq⟩ rfl thread cur
    | cons k d =>
      obtain ⟨rfl, rfl⟩ := hd
      obtain ⟨t, rfl⟩ := asks m mem_cons_self
      exact ⟨_, _, clientCallback_ask.trans (heed_closing phase),
        .unleased ok phase thread cur asks.tail⟩

/-! ### The server handles a message -/

/-- A confirmed downgrade does not change what the server waits for: the client
confirms states on the way to it only. -/
theorem target_downgrade {b : SyncState} {d : List (Msg Id)} (hs : s = .invalid ∨ s = .shared)
    (hlt : s < l.curState) (hb : b ≤ s) (asks : Asking i b d l.target) :
    target { l with
      curState := s
      serverReqState := if s ≤ l.serverReqState then .none else l.serverReqState } = l.target := by
  have hle : l.target ≤ s := Nat.le_trans asks.le hb
  by_cases hn : l.serverReqState = .none
  · simp only [target, hn] at hle
    exact absurd hle (Nat.not_le.mpr hlt)
  simp only [target, hn] at hle ⊢
  by_cases hle' : s ≤ l.serverReqState
  · have he : s.val = l.serverReqState.val := Nat.le_antisymm hle' hle
    have he : s = l.serverReqState := by
      revert he
      cases s <;> cases l.serverReqState <;> simp [SyncState.val]
    rwa [if_pos hle']
  · simp [hle', hn]

/-- **The server handles every message about the handle**: the message is one
that the lease allows, and the link holds with the new lease. -/
theorem receive (v : Vmid) (hok : ∀ l, o = some l → LeaseOk l) (hl : Link i oh o (m :: up) down) :
    ∃ o', Receives v i m o o' ∧ Link i oh o' up (down ++ reply m) := by
  generalize hu : m :: up = u at hl
  cases hl with
  | absent | fresh | pending | granted | unleased | closed => cases hu
  | settled ok phase thread awake clientReq lease downs asks =>
    subst hu
    cases downs with
    | cons ht hlt hdata downs =>
      have hb := Nat.le_trans ok.bound_le downs.le
      refine ⟨_, .downgrade _ _ ht hlt hdata lease, ?_⟩
      rw [reply_eq_nil (by simp), append_nil]
      exact .settled ok phase thread awake clientReq lease downs
        (by rwa [target_downgrade ht hlt hb asks])
  | @opening h s waits cur serverReq =>
    obtain ⟨rfl, rfl⟩ : m = ⟨.requestUpgrade, i, s, []⟩ ∧ up = [] := by simpa using hu
    have hb : h.bound = .invalid := by simp [bound, serverReq, cur]
    have hlt : SyncState.invalid < s := by rw [← cur]; exact waits.cur
    refine ⟨_, .upgrade s waits.state hlt, ?_⟩
    exact .pending waits rfl cur.symm (by rw [hb]; exact .nil _)
  | @asking h s l up' _ waits lease downs asks =>
    generalize hc : h.curState = c at downs
    cases downs with
    | nil =>
      obtain ⟨rfl, rfl⟩ : m = ⟨.requestUpgrade, i, s, []⟩ ∧ up = [] := by simpa using hu
      have hlt : l.curState < s := by rw [← hc]; exact waits.cur
      refine ⟨_, .upgrade s waits.state hlt, ?_⟩
      rw [reply_eq_nil (by simp), append_nil]
      exact .pending waits rfl hc.symm asks
    | cons ht hlt hdata downs =>
      obtain ⟨rfl, rfl⟩ := hu
      subst hc
      have hb := Nat.le_trans waits.ok.bound_le downs.le
      refine ⟨_, .downgrade _ _ ht hlt hdata lease, ?_⟩
      rw [reply_eq_nil (by simp), append_nil]
      exact .asking waits lease downs (by rwa [target_downgrade ht hlt hb asks])
  | @closing h l up' _ s data ok phase thread cur lease downs hdata asks =>
    cases downs with
    | nil =>
      obtain ⟨rfl, rfl⟩ : m = ⟨.requestClose, i, l.curState, data⟩ ∧ up = [] := by simpa using hu
      refine ⟨_, .close _ _ (hok _ rfl).cur hdata, ?_⟩
      exact .unleased ok phase thread cur asks
    | cons ht hlt hdata' downs =>
      obtain ⟨rfl, rfl⟩ := hu
      refine ⟨_, .downgrade _ _ ht hlt hdata' lease, ?_⟩
      rw [reply_eq_nil (by simp), append_nil]
      exact .closing ok phase thread cur lease downs hdata asks

theorem handle_of_lease (hl : Link i oh (some l) up down) : ∃ h, oh = some h := by
  cases hl <;> exact ⟨_, rfl⟩

end Link

end Sync
