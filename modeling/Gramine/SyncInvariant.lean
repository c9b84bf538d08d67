import Gramine.SyncEngine
import Gramine.SyncHandlers

/-!
# The invariant of the sync engine

Between any two steps, every client is linked to the server's record of every
handle (`Link`), and the server's record of every handle is in order
(`RecordOk`). `Inv.exec` says that an enabled step keeps this and reaches no
assertion; `mutual_exclusion` is what follows for all runs.
-/

open List

namespace Sync

variable {Vmid Id : Type} [DecidableEq Vmid] [DecidableEq Id]

/-- The messages about one handle. -/
def about (i : Id) (ms : List (Msg Id)) : List (Msg Id) := ms.filter (fun m => m.id = i)

theorem about_append (i : Id) (a b : List (Msg Id)) : about i (a ++ b) = about i a ++ about i b :=
  filter_append ..

theorem about_cons_self (m : Msg Id) (ms : List (Msg Id)) :
    about m.id (m :: ms) = m :: about m.id ms := by
  simp [about]

theorem about_cons_other {j : Id} {m : Msg Id} (h : j ≠ m.id) (ms : List (Msg Id)) :
    about j (m :: ms) = about j ms := by
  simp [about, Ne.symm h]

variable {i : Id} {ms : List (Msg Id)}

theorem about_self (h : ∀ m ∈ ms, m.id = i) : about i ms = ms :=
  filter_eq_self.mpr fun m hm => by simpa using h m hm

theorem about_other {j : Id} (h : ∀ m ∈ ms, m.id = i) (hij : j ≠ i) : about j ms = [] :=
  filter_eq_nil_iff.mpr fun m hm => by simpa [h m hm] using Ne.symm hij

namespace Link

section
omit [DecidableEq Vmid] [DecidableEq Id]

theorem downs_id {s t : SyncState} (h : Downs i s ms t) : ∀ m ∈ ms, m.id = i := by
  induction h with
  | nil => simp
  | cons _ _ _ _ ih => simpa using ih

theorem asks_id (h : AllAsks i ms) : ∀ m ∈ ms, m.id = i := by
  intro m hm
  obtain ⟨s, rfl⟩ := h m hm
  rfl

theorem msg_id {oh : Option SyncHandle} {o : Option (Lease Vmid)} {up down : List (Msg Id)}
    (hl : Link i oh o up down) : (∀ m ∈ up, m.id = i) ∧ ∀ m ∈ down, m.id = i := by
  cases hl with
  | absent | fresh => simp
  | settled _ _ _ _ _ _ downs asks => exact ⟨downs_id downs, asks_id asks.allAsks⟩
  | opening => simp
  | asking _ _ downs asks =>
    refine ⟨?_, asks_id asks.allAsks⟩
    simpa [or_imp, forall_and] using downs_id downs
  | pending _ _ _ asks => exact ⟨by simp, asks_id asks.allAsks⟩
  | granted _ _ _ asks asks' =>
    simpa [or_imp, forall_and, confirmUpgradeMsg] using
      And.intro (asks_id asks.allAsks) (asks_id asks'.allAsks)
  | closing _ _ _ _ _ downs _ asks =>
    refine ⟨?_, asks_id asks⟩
    simpa [or_imp, forall_and] using downs_id downs
  | unleased _ _ _ _ asks =>
    simpa [or_imp, forall_and, confirmCloseMsg] using asks_id asks
  | closed => simp

end

end Link

namespace Engine

/-- What holds between any two steps. -/
structure Inv (e : Engine Vmid Id) : Prop where
  link : ∀ c i, Link i (e.clients c i) (leaseOf (e.handles i) c) (about i (e.toServer c))
    (about i (e.toClient c))
  record : ∀ i, RecordOk (e.handles i)

theorem inv_initial : Inv (initial : Engine Vmid Id) :=
  ⟨fun _ _ => .absent, fun _ => .none⟩

variable {e : Engine Vmid Id} {c : Vmid} {rest ms : List (Msg Id)} {m : Msg Id}

theorem clients_setHandle (c i) (oh : Option SyncHandle) (c' : Vmid) (j : Id) (ms : List (Msg Id)) :
    ((e.setHandle c' j oh).clientSend c' ms).clients c i =
      if c = c' ∧ i = j then oh else e.clients c i := by
  simp only [setHandle, clientSend, Function.update_apply]
  split <;> simp_all [Function.update_apply]

theorem about_clientSend (hid : ∀ m ∈ ms, m.id = i) (oh : Option SyncHandle) (c' : Vmid) (j : Id) :
    about j (((e.setHandle c i oh).clientSend c ms).toServer c') =
      about j (e.toServer c') ++ if c' = c ∧ j = i then ms else [] := by
  simp only [setHandle, clientSend, Function.update_apply]
  by_cases hj : j = i
  · split <;> simp_all [about_append, about_self hid]
  · split <;> simp_all [about_append, about_other hid hj]

theorem about_pop {q : Vmid → List (Msg Id)} {c' : Vmid} {j : Id} (hm : q c = m :: rest)
    (hne : ¬(c' = c ∧ j = m.id)) : about j (Function.update q c rest c') = about j (q c') := by
  rw [Function.update_apply]
  split
  · rename_i hc
    rw [hc, hm, about_cons_other fun hj => hne ⟨hc, hj⟩]
  · rfl

namespace Inv

theorem client (hi : Inv e) {oh : Option SyncHandle} (ms : List (Msg Id))
    (hl : Link i oh (leaseOf (e.handles i) c) (about i (e.toServer c) ++ ms)
      (about i (e.toClient c))) :
    Inv ((e.setHandle c i oh).clientSend c ms) := by
  have hid : ∀ m ∈ ms, m.id = i := fun m hm => hl.msg_id.1 m (mem_append_right _ hm)
  refine ⟨fun c' j => ?_, hi.record⟩
  rw [clients_setHandle, about_clientSend hid]
  split_ifs with heq
  · obtain ⟨rfl, rfl⟩ := heq
    exact hl
  · rw [append_nil]
    exact hi.link c' j

variable (hi : Inv e)

include hi

theorem toClient (hm : e.toClient c = m :: rest) :
    ∃ h out, clientCallback m (e.clients c m.id) = .ok (h, out) ∧
      Inv (({ e with toClient := Function.update e.toClient c rest }.setHandle c m.id
        (some h)).clientSend c out) := by
  have hl := hi.link c m.id
  rw [hm, about_cons_self] at hl
  obtain ⟨h, out, he, hl'⟩ := hl.deliver
  have hid : ∀ k ∈ out, k.id = m.id := fun k hk => hl'.msg_id.1 k (mem_append_right _ hk)
  refine ⟨h, out, he, fun c' j => ?_, hi.record⟩
  rw [clients_setHandle, about_clientSend hid]
  split_ifs with heq
  · obtain ⟨rfl, rfl⟩ := heq
    simpa [setHandle, clientSend] using hl'
  · simpa only [setHandle, clientSend, append_nil, about_pop hm heq] using hi.link c' j

/-- The oldest message of a client reaches no assertion, and every client stays linked to the
server's record of its handle. -/
theorem serverCallback (hm : e.toServer c = m :: rest) :
    ∃ r out, serverCallback c m (e.handles m.id) = .ok (r, out) ∧ RecordOk r ∧
      ∀ c', Link m.id (e.clients c' m.id) (leaseOf r c')
        (if c' = c then about m.id rest else about m.id (e.toServer c'))
        (about m.id (e.toClient c') ++ out.sentTo c') := by
  have hl := hi.link c m.id
  rw [hm, about_cons_self] at hl
  have hrec := hi.record m.id
  obtain ⟨o', hr, hl'⟩ := hl.receive c fun l hl => (hrec.leases.lease_of_find hl).1
  obtain ⟨r', out, he, hrec', hk⟩ := serverCallback_spec hrec.leases hr
  refine ⟨r', out, he, hrec', fun c' => hk c' _ _ _ ?_⟩
  by_cases hc : c' = c
  · subst hc
    simpa [leaseAfter] using hl'
  · simpa [leaseAfter, hc] using hi.link c' m.id

theorem sent_id (hm : e.toServer c = m :: rest) {r : Option (ServerHandle Vmid)}
    {out : Outbox Vmid Id} (he : Sync.serverCallback c m (e.handles m.id) = .ok (r, out))
    (c' : Vmid) :
    ∀ k ∈ out.sentTo c', k.id = m.id := by
  obtain ⟨r', out', he', -, hlink⟩ := hi.serverCallback hm
  cases he.symm.trans he'
  exact fun k hk => (hlink c').msg_id.2 k (mem_append_right _ hk)

theorem toServer (hm : e.toServer c = m :: rest) :
    ∃ r out, Sync.serverCallback c m (e.handles m.id) = .ok (r, out) ∧
      Inv ({ e with handles := Function.update e.handles m.id r,
                    toServer := Function.update e.toServer c rest }.serverSend out) := by
  obtain ⟨r', out, he, hrec', hlink⟩ := hi.serverCallback hm
  have hid := hi.sent_id hm he
  refine ⟨r', out, he, fun c' j => ?_, fun j => ?_⟩
  · by_cases hj : j = m.id
    · subst hj
      simpa [serverSend, about_append, about_self (hid c'), Function.update_apply,
        apply_ite (about m.id)] using hlink c'
    · simpa [serverSend, about_append, about_other (hid c') hj, hj, about_pop hm fun h => hj h.2]
        using hi.link c' j
  · by_cases hj : j = m.id
    · subst hj
      simpa [serverSend] using hrec'
    · simpa [serverSend, hj] using hi.record j

/-- **An enabled step keeps the invariant, and reaches no assertion or FATAL
branch** apart from the one of `sync_lock` for a buffer of another size. -/
theorem exec {a : Action Vmid Id} (ha : e.Enabled a) :
    e.exec a = .error .dataSizeMismatch ∨ ∃ e', e.exec a = .ok e' ∧ Inv e' := by
  cases a with
  | create c i =>
    refine .inr ⟨_, rfl, ?_⟩
    have hl := hi.link c i
    rw [show e.clients c i = none from ha] at hl
    have := hi.client [] (c := c) (i := i) (by simpa using hl.create)
    simpa [clientSend, setHandle] using this
  | lock c i state n =>
    obtain ⟨hs, h, hh, ht⟩ := ha
    have hl := hi.link c i
    rw [hh] at hl
    obtain ⟨h', ms, he, hl'⟩ := hl.lock (n := n) hs ht
    refine .inr ⟨_, ?_, hi.client _ hl'⟩
    simp only [Engine.exec, onHandle, hh, he]
    rfl
  | lockWake c i =>
    obtain ⟨h, hh, ht, -⟩ := ha
    obtain ⟨state, n, ht⟩ := Thread.isLocking_iff.mp ht
    have hl := hi.link c i
    rw [hh] at hl
    rcases hl.lockWake ht with he | ⟨h', ms, he, hl'⟩
    · refine .inl ?_
      simp only [Engine.exec, onHandle, hh, ht, he]
      rfl
    · refine .inr ⟨_, ?_, hi.client _ hl'⟩
      simp only [Engine.exec, onHandle, hh, ht, he]
      rfl
  | unlock c i data =>
    obtain ⟨h, hh, ht⟩ := ha
    obtain ⟨r, ht⟩ := Thread.isLocked_iff.mp ht
    have hl := hi.link c i
    rw [hh] at hl
    obtain ⟨h', ms, he, hl'⟩ := hl.unlock data ht
    refine .inr ⟨_, ?_, hi.client _ hl'⟩
    simp only [Engine.exec, onHandle, hh, he]
    rfl
  | destroy c i =>
    obtain ⟨h, hh, ht⟩ := ha
    have hl := hi.link c i
    rw [hh] at hl
    obtain ⟨h', ms, he, hl'⟩ := hl.destroy ht
    refine .inr ⟨_, ?_, hi.client _ hl'⟩
    simp only [Engine.exec, onHandle, hh, he]
    rfl
  | destroyWake c i =>
    obtain ⟨h, hh, ht, -⟩ := ha
    have hl := hi.link c i
    rw [hh] at hl
    refine .inr ⟨_, ?_, hi.client [] (by simpa using hl.destroyWake ht)⟩
    simp only [Engine.exec, onHandle, hh]
    rfl
  | toServer c =>
    obtain ⟨m, rest, hm⟩ := exists_cons_of_ne_nil ha
    obtain ⟨r, out, he, hinv⟩ := hi.toServer hm
    refine .inr ⟨_, ?_, hinv⟩
    simp only [Engine.exec, hm, he]
    rfl
  | toClient c =>
    obtain ⟨m, rest, hm⟩ := exists_cons_of_ne_nil ha
    obtain ⟨h, out, he, hinv⟩ := hi.toClient hm
    refine .inr ⟨_, ?_, hinv⟩
    simp only [Engine.exec, hm, he]
    rfl

theorem step {a : Action Vmid Id} {e' : Engine Vmid Id} (hs : e.Step a e') : Inv e' := by
  rcases hi.exec hs.1 with he | ⟨e'', he, hinv⟩
  · cases hs.2.symm.trans he
  · cases hs.2.symm.trans he
    exact hinv

/-- Two clients with leases above INVALID share the handle. -/
theorem exclusive {c' : Vmid} {l l' : Lease Vmid} (hne : c ≠ c')
    (hl : leaseOf (e.handles i) c = some l) (hl' : leaseOf (e.handles i) c' = some l')
    (hx : l.curState = .exclusive) : l'.curState = .invalid :=
  (hi.record i).leases.invalid_of_exclusive hne hl hl' hx

theorem lease_of_cur {h : SyncHandle} (hh : e.clients c i = some h) (hc : h.curState ≠ .invalid) :
    ∃ l, leaseOf (e.handles i) c = some l ∧ h.curState ≤ l.curState := by
  have hl := hi.link c i
  rw [hh] at hl
  cases ho : leaseOf (e.handles i) c with
  | none =>
    rw [ho] at hl
    exact absurd hl.cur_eq_invalid hc
  | some l =>
    rw [ho] at hl
    exact ⟨l, rfl, hl.cur_le ((hi.record i).leases.lease_of_find ho).1⟩

end Inv

/-- The invariant holds in every run. -/
theorem Reachable.inv {e : Engine Vmid Id} (hr : e.Reachable) : Inv e :=
  Transition.Reachable.invariant (fun _ h => h ▸ inv_initial) (fun _ _ _ hi hs => hi.step hs) hr

/-- **Mutual exclusion of the sync engine.** In every reachable state: a client
that has a handle EXCLUSIVE is the only one that has it at all; no client is
above its lease, and one without a lease has nothing; and whatever step comes
next, none of the assertions and FATAL branches is reached (but for the check of
`sync_lock` on the size of the caller's buffer). -/
theorem mutual_exclusion {e : Engine Vmid Id} (hr : e.Reachable) :
    (∀ i c c' h h', e.clients c i = some h → e.clients c' i = some h' → c ≠ c' →
      h.phase = .opened → h'.phase = .opened → h.curState = .exclusive →
      h'.curState ≠ .shared ∧ h'.curState ≠ .exclusive) ∧
    (∀ i c h, e.clients c i = some h →
      h.curState ≤ ((leaseOf (e.handles i) c).getD (Lease.fresh c)).curState) ∧
    ∀ a f, e.Enabled a → e.exec a = .error f → f = .dataSizeMismatch := by
  have hi := hr.inv
  refine ⟨?_, ?_, ?_⟩
  · intro i c c' h h' hh hh' hne _ _ hx
    obtain ⟨l, hl, hle⟩ := hi.lease_of_cur hh (by simp [hx])
    have hlx : l.curState = .exclusive := by
      cases hc : l.curState <;> simp_all [SyncState.le_def, SyncState.val]
    refine Classical.byContradiction fun hcon => ?_
    have hs : h'.curState = .shared ∨ h'.curState = .exclusive := by
      by_cases hsh : h'.curState = .shared
      · exact .inl hsh
      · exact .inr (Classical.byContradiction fun hex => hcon ⟨hsh, hex⟩)
    obtain ⟨l', hl', hle'⟩ := hi.lease_of_cur hh' (by rcases hs with hs | hs <;> simp [hs])
    have hinv := hi.exclusive hne hl hl' hlx
    rw [hinv] at hle'
    rcases hs with hs | hs <;> simp [hs, SyncState.le_def, SyncState.val] at hle'
  · intro i c h hh
    by_cases hc : h.curState = .invalid
    · cases ho : leaseOf (e.handles i) c with
      | none => simp [hc, Lease.fresh, SyncState.le_def]
      | some l =>
        have hl := hi.link c i
        rw [hh, ho] at hl
        exact hl.cur_le ((hi.record i).leases.lease_of_find ho).1
    · obtain ⟨l, hl, hle⟩ := hi.lease_of_cur hh hc
      simpa [hl] using hle
  · intro a f ha hf
    rcases hi.exec ha with he | ⟨e', he, -⟩
    · cases hf.symm.trans he
      rfl
    · cases hf.symm.trans he

/-- One client has the handle EXCLUSIVE, and the other one is waiting. -/
theorem mutual_exclusion_waiting : ∃ e : Engine Bool Unit,
    (∃ h, e.clients false () = some h ∧ h.curState = .exclusive) ∧
    ∀ h, e.clients true () = some h → h.phase = .opened →
      h.curState ≠ .shared ∧ h.curState ≠ .exclusive := by
  have hrun : ((initial.run [.create false (), .create true (), .lock false () .exclusive 0,
      .lock true () .shared 0, .toServer false, .toServer true, .toClient false]).bind
        fun e : Engine Bool Unit => (e.clients false ()).map fun h => (h.phase, h.curState)) =
      some (.opened, .exclusive) := by decide
  obtain ⟨e, he, hh⟩ := Option.bind_eq_some_iff.mp hrun
  obtain ⟨h, hh, hp⟩ := Option.map_eq_some_iff.mp hh
  simp only [Prod.mk.injEq] at hp
  refine ⟨e, ⟨h, hh, hp.2⟩, fun h' hh' hp' => ?_⟩
  exact (mutual_exclusion (Reachable.run (.init rfl) he)).1 () false true h h' hh hh' (by decide)
    hp.1 hp' hp.2

end Engine

end Sync
