import Gramine.SyncLink

/-!
# The server's handlers

What `do_request_upgrade`, `do_confirm_downgrade` and `do_request_close` have in
common (`Handles`): they change the sender's lease, possibly answer the sender, and walk over
the leases. `serverCallback_spec` says what follows for a message the sender's lease
allows (`Receives`): no assertion is reached, the leases stay in order, and the
link of every client to this handle survives.
-/

open List

namespace Sync

open Lease

variable {Vmid Id : Type} [DecidableEq Vmid]

/-! ## The list of leases -/

variable {v : Vmid} {ls : List (Lease Vmid)} {l : Lease Vmid}

/-- A client has at most one lease, so that looking it up finds it. -/
theorem findLease?_eq_some_iff (hnd : (ls.map vmid).Nodup) :
    findLease? ls v = some l ↔ l ∈ ls ∧ l.vmid = v := by
  constructor
  · intro h
    exact ⟨mem_of_find?_eq_some h, by simpa using find?_some h⟩
  rintro ⟨hmem, hv⟩
  obtain ⟨k, hk⟩ : ∃ k, findLease? ls v = some k := by
    rw [← Option.isSome_iff_exists, findLease?, find?_isSome]
    exact ⟨l, hmem, by simpa using hv⟩
  have hk' : k ∈ ls ∧ k.vmid = v :=
    ⟨mem_of_find?_eq_some hk, by simpa using find?_some hk⟩
  have : k = l := inj_on_of_nodup_map hnd hk'.1 hmem (hk'.2.trans hv.symm)
  rw [hk, this]

theorem findLease?_eq_none_iff : findLease? ls v = none ↔ ∀ l ∈ ls, l.vmid ≠ v := by
  simp [findLease?]

variable {ls' : List (Lease Vmid)}

theorem findLease?_perm (hp : ls.Perm ls') (hnd : (ls.map vmid).Nodup) (v : Vmid) :
    findLease? ls v = findLease? ls' v := by
  have hnd' : (ls'.map vmid).Nodup := (hp.map _).nodup_iff.mp hnd
  ext l
  rw [findLease?_eq_some_iff hnd, findLease?_eq_some_iff hnd', hp.mem_iff]

theorem delLease_of_none (h : findLease? ls v = none) : delLease ls v = ls := by
  rw [findLease?_eq_none_iff] at h
  exact eraseP_of_forall_not (fun l hl => by simpa using h l hl)

/-- The lease that is deleted, and the others. -/
theorem cons_delLease_perm (h : findLease? ls v = some l) : ls.Perm (l :: delLease ls v) := by
  induction ls with
  | nil => simp [findLease?] at h
  | cons k ls ih =>
    by_cases hk : k.vmid = v
    · obtain rfl : k = l := by simpa [findLease?, hk] using h
      simp [delLease, hk]
    have h' : findLease? ls v = some l := by simpa [findLease?, hk] using h
    have := ih h'
    simp only [delLease, eraseP_cons, hk] at this ⊢
    exact (this.cons k).trans (.swap ..)

theorem setLease_perm (hnd : (ls.map vmid).Nodup) {l' : Lease Vmid}
    (h : findLease? ls l'.vmid = some l) :
    (setLease ls l').Perm (delLease ls l'.vmid ++ [l']) := by
  refine List.Perm.trans ?_ perm_append_comm
  induction ls with
  | nil => simp [findLease?] at h
  | cons k ls ih =>
    rw [map_cons, nodup_cons] at hnd
    by_cases hk : k.vmid = l'.vmid
    · have hrest : setLease ls l' = ls := by
        refine (map_congr_left fun j hj => ?_).trans (map_id ls)
        have : j.vmid ≠ l'.vmid := fun he => hnd.1 (hk.trans he.symm ▸ mem_map_of_mem hj)
        simp [this]
      simp only [setLease] at hrest ⊢
      simp [delLease, hk, hrest]
    · have h' : findLease? ls l'.vmid = some l := by simpa [findLease?, hk] using h
      have := ih hnd.2 h'
      simp only [setLease, map_cons, hk, delLease, eraseP_cons] at this ⊢
      exact (this.cons k).trans (.swap ..)

omit [DecidableEq Vmid] in
theorem countLeases_perm (hp : ls.Perm ls') : countLeases ls = countLeases ls' := by
  simp [countLeases, hp.countP_eq]

namespace LeasesOk
variable {ls : List (Lease Vmid)} {v : Vmid}

section
omit [DecidableEq Vmid]

theorem perm (hok : LeasesOk ls) (hp : ls.Perm ls') : LeasesOk ls' :=
  ⟨(hp.map _).nodup_iff.mp hok.nodup, fun l hl => hok.lease l (hp.mem_iff.mpr hl),
    countLeases_perm hp ▸ hok.exclusive⟩

theorem nil : LeasesOk ([] : List (Lease Vmid)) := ⟨.nil, by simp, .inl rfl⟩

theorem tail {l : Lease Vmid} (hok : LeasesOk (l :: ls)) : LeasesOk ls := by
  obtain ⟨hnd, hl, hx⟩ := hok
  refine ⟨(nodup_cons.mp hnd).2, fun k hk => hl k (mem_cons_of_mem _ hk), ?_⟩
  rw [countLeases_cons] at hx
  simp only [Counts.Exclusive, Counts.add_nExclusive, Counts.add_nShared] at hx ⊢
  omega

end

theorem delLease (hok : LeasesOk ls) : LeasesOk (delLease ls v) := by
  cases h : findLease? ls v with
  | none => rwa [delLease_of_none h]
  | some l => exact (hok.perm (cons_delLease_perm h)).tail

theorem lease_of_find {l : Lease Vmid} (hok : LeasesOk ls) (h : findLease? ls v = some l) :
    LeaseOk l ∧ l.vmid = v :=
  ⟨hok.lease l ((findLease?_eq_some_iff hok.nodup).mp h).1,
    ((findLease?_eq_some_iff hok.nodup).mp h).2⟩

variable {l' : Lease Vmid}

/-- While one client has the handle exclusively, all others have nothing. -/
theorem invalid_of_exclusive {c : Vmid} (hok : LeasesOk ls) {c' : Vmid} {l : Lease Vmid}
    (hne : c ≠ c') (hl : findLease? ls c = some l) (hl' : findLease? ls c' = some l')
    (hx : l.curState = .exclusive) : l'.curState = .invalid := by
  obtain ⟨hlok, hv⟩ := hok.lease_of_find hl
  obtain ⟨hlok', hv'⟩ := hok.lease_of_find hl'
  have hp := cons_delLease_perm hl
  have hmem : l' ∈ Sync.delLease ls c := by
    rcases mem_cons.1 (hp.mem_iff.1 ((findLease?_eq_some_iff hok.nodup).1 hl').1) with rfl | h
    · exact absurd (hv.symm.trans hv') hne
    · exact h
  have hex := countLeases_perm hp ▸ hok.exclusive
  have hzero : (countLeases (Sync.delLease ls c)).nExclusive = 0 ∧
      (countLeases (Sync.delLease ls c)).nShared = 0 := by
    rw [countLeases_cons] at hex
    simp only [Counts.Exclusive, Counts.add_nExclusive, Counts.add_nShared, tally, hx] at hex
    simp only [if_true] at hex
    omega
  have h1 := countP_eq_zero.1 hzero.1 l' hmem
  have h2 := countP_eq_zero.1 hzero.2 l' hmem
  have h3 := hlok'.cur
  cases hc : l'.curState <;> simp_all

/-- Finding a lease after the client `v`'s was taken off. -/
theorem find_delLease (hok : LeasesOk ls) (c : Vmid) :
    findLease? (Sync.delLease ls v) c = if c = v then none else findLease? ls c := by
  cases h : findLease? ls v with
  | none =>
    rw [delLease_of_none h]
    split
    · subst c
      exact h
    · rfl
  | some l =>
    have hv := (hok.lease_of_find h).2
    have hp := cons_delLease_perm h
    have hnd := (hok.perm hp).nodup
    rw [map_cons, nodup_cons] at hnd
    split
    · subst c
      rw [findLease?_eq_none_iff]
      intro k hk hkv
      exact hnd.1 (hv.trans hkv.symm ▸ mem_map_of_mem hk)
    · rename_i hc
      rw [findLease?_perm hp hok.nodup]
      have hlc : ¬ l.vmid = c := fun he => hc (he.symm.trans hv)
      simp [findLease?, hlc]

/-- Finding a lease after the client `v`'s was moved to the end and changed. -/
theorem find_replace (hok : LeasesOk ls) (hv : l'.vmid = v) (c : Vmid) :
    findLease? (Sync.delLease ls v ++ [l']) c = if c = v then some l' else findLease? ls c := by
  have h := hok.find_delLease (v := v) c
  rw [findLease?, find?_append, ← findLease?, h]
  by_cases hc : c = v
  · simp [hc, hv]
  · have hlc : ¬ l'.vmid = c := fun he => hc (he.symm.trans hv)
    simp [hc, hlc]

/-- A lease that does not gain rights can replace the old one. -/
theorem replace (hok : LeasesOk ls) (hv : l'.vmid = v) (hl' : LeaseOk l')
    (hle : l'.curState ≤ ((findLease? ls v).getD (fresh v)).curState) :
    LeasesOk (Sync.delLease ls v ++ [l']) := by
  have hrest := hok.delLease (v := v)
  have hnone : findLease? (Sync.delLease ls v) v = none := by simp [hok.find_delLease]
  suffices LeasesOk (l' :: Sync.delLease ls v) from this.perm (perm_append_singleton l' _).symm
  refine ⟨?_, ?_, ?_⟩
  · rw [map_cons, nodup_cons]
    refine ⟨fun hmem => ?_, hrest.nodup⟩
    obtain ⟨k, hk, hkv⟩ := mem_map.mp hmem
    exact findLease?_eq_none_iff.mp hnone k hk (hkv.trans hv)
  · intro k hk
    rcases mem_cons.mp hk with rfl | hk
    · exact hl'
    · exact hrest.lease k hk
  rw [countLeases_cons]
  have hx := hrest.exclusive
  cases h : findLease? ls v with
  | none =>
    have hinv : l'.curState = .invalid := by
      have := hl'.cur
      cases hc : l'.curState <;> simp_all [fresh, SyncState.le_def, SyncState.val]
    simpa [Counts.Exclusive, tally, hinv] using hx
  | some l =>
    have hx' := countLeases_perm (cons_delLease_perm h) ▸ hok.exclusive
    rw [countLeases_cons] at hx'
    rw [h] at hle
    cases hc' : l'.curState <;> cases hc : l.curState <;>
      simp_all [SyncState.le_def, SyncState.val, Counts.Exclusive, tally]

end LeasesOk

/-! ## The record of one handle -/

/-- The server's lease for a client, in its record of one handle. -/
def leaseOf (r : Option (ServerHandle Vmid)) (c : Vmid) : Option (Lease Vmid) :=
  findLease? (findHandle r).leases c

/-- What the server keeps true of its record of a handle between two messages. -/
structure RecordOk (r : Option (ServerHandle Vmid)) : Prop where
  leases : LeasesOk (findHandle r).leases
  quiet : Quiet (findHandle r).leases

omit [DecidableEq Vmid] in
theorem RecordOk.none : RecordOk (none : Option (ServerHandle Vmid)) :=
  ⟨LeasesOk.nil, by simp [Quiet, findHandle]⟩

theorem Outbox.sentTo_append (a b : Outbox Vmid Id) (c : Vmid) :
    Outbox.sentTo (a ++ b) c = a.sentTo c ++ b.sentTo c := by
  simp [Outbox.sentTo]

/-- `process_handle` keeps the link of every client to the handle. -/
theorem processHandle_link {i : Id} {h : ServerHandle Vmid} (hok : LeasesOk h.leases) :
    ∃ h' out, processHandle i h = .ok (h', out) ∧ RecordOk (some h') ∧
      ∀ c oh up down, Link i oh (findLease? h.leases c) up down →
        Link i oh (leaseOf (some h') c) up (down ++ out.sentTo c) := by
  obtain ⟨mid, ls, out, out', hp, hw, hw', hok', hq⟩ := processHandle_spec i hok
  refine ⟨_, _, hp, ⟨hok', hq⟩, ?_⟩
  intro c oh up down hl
  have hnd' : (mid.map vmid).Nodup := by rw [hw.map_vmid]; exact hok.nodup
  cases hc : findLease? h.leases c with
  | none =>
    obtain ⟨h1, h2⟩ := hw.lookup_none hc
    obtain ⟨h3, h4⟩ := hw'.lookup_none h1
    rw [hc] at hl
    simpa [leaseOf, findHandle, Outbox.sentTo, h2, h3, h4] using hl
  | some l =>
    rw [hc] at hl
    obtain ⟨h, rfl⟩ := hl.handle_of_lease
    obtain ⟨ms, l', hg, h1, h2⟩ := hw.lookup hok.nodup hc
    obtain ⟨ms', l'', ha, h3, h4⟩ := hw'.lookup hnd' h1
    have := (hl.grants (hok.lease_of_find hc).1 hg).asks ha
    simpa [leaseOf, findHandle, Outbox.sentTo, h2, h3, h4] using this

/-- `find_lease` for a client that has a lease, or had none. -/
theorem delLease_findLease (ls : List (Lease Vmid)) (v : Vmid) :
    delLease (findLease ls v).1 v = delLease ls v ∧
      (findLease ls v).2 = (findLease? ls v).getD (fresh v) := by
  unfold findLease
  cases h : findLease? ls v with
  | some l => exact ⟨rfl, rfl⟩
  | none =>
    rw [delLease_of_none h]
    have hne := findLease?_eq_none_iff.mp h
    simp only [delLease]
    rw [eraseP_append_right _ (fun l hl => by simpa using hne l hl)]
    simp [fresh]

/-- The lease of every client after the sender `v`'s has become `o'`. -/
def leaseAfter (v : Vmid) (r : Option (ServerHandle Vmid)) (o' : Option (Lease Vmid)) (c : Vmid) :
    Option (Lease Vmid) :=
  if c = v then o' else leaseOf r c

/-- What all handlers do: the sender's lease becomes `o'` and the data `data`, the sender is
answered, and `process_handle` walks over the leases, unless there are none left. -/
def Handles (v : Vmid) (m : Msg Id) (r : Option (ServerHandle Vmid)) (o' : Option (Lease Vmid))
    (data : List UInt8) (x : Except Fault (Option (ServerHandle Vmid) × Outbox Vmid Id)) : Prop :=
  ∃ ls, LeasesOk ls ∧ (∀ c, findLease? ls c = leaseAfter v r o' c) ∧
    ((∃ h out, processHandle m.id ⟨data, ls⟩ = .ok (h, out) ∧
        x = .ok (some h, (reply m).map (Prod.mk v) ++ out)) ∨
      (ls = [] ∧ x = .ok (none, (reply m).map (Prod.mk v))))

variable {r : Option (ServerHandle Vmid)} {o' : Option (Lease Vmid)} {data : List UInt8}

/-- A handler that has changed the leases to `ls` walks over them. -/
theorem Handles.of_leases {m : Msg Id}
    {x : Except Fault (Option (ServerHandle Vmid) × Outbox Vmid Id)} (hok : LeasesOk ls)
    (hfind : ∀ c, findLease? ls c = leaseAfter v r o' c)
    (hx : ∀ h out, processHandle m.id ⟨data, ls⟩ = .ok (h, out) → x = .ok (some h, (reply m).map
      (Prod.mk v) ++ out)) : Handles v m r o' data x := by
  obtain ⟨mid, ls', out, out', hp, -⟩ := processHandle_spec m.id (h := ⟨data, ls⟩) hok
  exact ⟨ls, hok, hfind, .inl ⟨_, _, hp, hx _ _ hp⟩⟩

variable {s : SyncState}

section
variable {i : Id} (hok : LeasesOk (findHandle r).leases)
include hok

/-- A request waits in the lease until the others have given way. -/
theorem doRequestUpgrade_spec (hs : s = .shared ∨ s = .exclusive)
    (hcur : ((leaseOf r v).getD (fresh v)).curState < s) :
    Handles v ⟨.requestUpgrade, i, s, []⟩ r
      (some { (leaseOf r v).getD (fresh v) with clientReqState := s }) (findHandle r).data
      (doRequestUpgrade v i s r) := by
  obtain ⟨hdel, hfind⟩ := delLease_findLease (findHandle r).leases v
  rw [← leaseOf] at hfind
  set l := (leaseOf r v).getD (fresh v) with hl
  have hlv : LeaseOk l ∧ l.vmid = v := by
    cases h : leaseOf r v with
    | none =>
      rw [hl, h]
      exact ⟨⟨by simp [fresh], .inl rfl, .inl rfl⟩, rfl⟩
    | some k =>
      rw [hl, h]
      exact hok.lease_of_find h
  have hv : vmid { l with clientReqState := s } = v := hlv.2
  refine .of_leases (hok.replace hv ⟨hlv.1.cur, .inr ⟨hs, hcur⟩, hlv.1.serverReq⟩ (Nat.le_refl _))
    (fun c => hok.find_replace hv c) fun h out hp => ?_
  simp only [doRequestUpgrade, check_of hs, check_of hcur, hdel, hfind]
  rw [show processHandle i { findHandle r with
    leases := delLease (findHandle r).leases v ++ [{ l with clientReqState := s }] } = _ from hp]
  rfl

/-- A client gives up rights, with the data if it could write. -/
theorem doConfirmDowngrade_spec (hfind : leaseOf r v = some l) (hs : s = .invalid ∨ s = .shared)
    (hlt : s < l.curState) (hdata : l.curState = .exclusive ∨ data = [])
    (hreq : l.clientReqState = .none) :
    Handles v ⟨.confirmDowngrade, i, s, data⟩ r (some { l with
        curState := s
        serverReqState := if s ≤ l.serverReqState then .none else l.serverReqState })
      (if l.curState = .exclusive then data else (findHandle r).data)
      (doConfirmDowngrade v i s data r) := by
  set l' : Lease Vmid := { l with
    curState := s
    serverReqState := if s ≤ l.serverReqState then .none else l.serverReqState } with hl'
  obtain ⟨hlok, hlv⟩ := hok.lease_of_find hfind
  have hl'ok : LeaseOk l' := by
    refine ⟨by rcases hs with rfl | rfl <;> simp, .inl hreq, ?_⟩
    by_cases hle : s ≤ l.serverReqState
    · exact .inl (if_pos hle)
    · refine .inr ?_
      simp only [hl', if_neg hle]
      exact Nat.not_le.mp hle
  have hle : l'.curState ≤ ((findLease? (findHandle r).leases v).getD (fresh v)).curState := by
    rw [← leaseOf, hfind]
    exact Nat.le_of_lt hlt
  have hp := setLease_perm hok.nodup
    (show findLease? _ l'.vmid = some l by rw [← hfind, leaseOf, ← hlv])
  have hv : l'.vmid = v := hlv
  rw [hv] at hp
  have hok' := (hok.replace hv hl'ok hle).perm hp.symm
  refine .of_leases hok' (fun c => ?_) fun h out hpr => ?_
  · rw [findLease?_perm hp hok'.nodup]
    exact hok.find_replace hv c
  have hf : findLease (findHandle r).leases v = ((findHandle r).leases, l) := by
    rw [leaseOf] at hfind
    simp [findLease, hfind]
  simp only [doConfirmDowngrade, check_of hs, hf, check_of hlt, check_of hdata, ← hl', hpr]
  rfl

/-- A client closes its handle, with the data if it could write. -/
theorem doRequestClose_spec (hfind : leaseOf r v = some l) (hs : s ≠ .none)
    (hdata : s = .exclusive ∨ data = []) :
    Handles v ⟨.requestClose, i, s, data⟩ r none
      (if s = .exclusive then data else (findHandle r).data) (doRequestClose v i s data r) := by
  have hs' : s = .invalid ∨ s = .shared ∨ s = .exclusive := by
    cases s <;> simp_all
  obtain ⟨h, rfl⟩ : ∃ h, r = some h := by
    cases r with
    | none => simp [leaseOf, findHandle, findLease?] at hfind
    | some h => exact ⟨h, rfl⟩
  have hsome : findLease? h.leases v ≠ none := by
    intro hn
    rw [leaseOf, show (findHandle (some h)).leases = h.leases from rfl, hn] at hfind
    cases hfind
  have hlook : ∀ c, findLease? (delLease h.leases v) c = leaseAfter v (some h) none c :=
    fun c => hok.find_delLease c
  by_cases he : delLease h.leases v = []
  · refine ⟨_, hok.delLease, hlook, .inr ⟨he, ?_⟩⟩
    simp only [doRequestClose, check_of hs', check_of hsome, check_of hdata, if_pos he]
    rfl
  refine .of_leases hok.delLease hlook fun h' out hp => ?_
  have hp : processHandle i ⟨if s = .exclusive then data else h.data, delLease h.leases v⟩ =
    .ok (h', out) := hp
  simp only [doRequestClose, check_of hs', check_of hsome, check_of hdata, if_neg he, hp]
  rfl

end

/-- The data the server has after a message: those the message brings back, if the sender had the
handle EXCLUSIVE. -/
def storedData (m : Msg Id) (o : Option (Lease Vmid)) (data : List UInt8) : List UInt8 :=
  match m.code, o with
  | .confirmDowngrade, some l => if l.curState = .exclusive then m.data else data
  | .requestClose, _ => if m.state = .exclusive then m.data else data
  | _, _ => data

/-- The server handles every message that a client can send. -/
theorem serverCallback_handles {m : Msg Id} (hok : LeasesOk (findHandle r).leases)
    (hr : Receives v m.id m (leaseOf r v) o') :
    Handles v m r o' (storedData m (leaseOf r v) (findHandle r).data) (serverCallback v m r) := by
  obtain ⟨code, i, s, data⟩ := m
  generalize ho : leaseOf r v = o at hr
  cases hr with
  | upgrade _ hs hcur =>
    subst ho
    exact doRequestUpgrade_spec hok hs hcur
  | downgrade _ _ hs hlt hdata hreq => exact doConfirmDowngrade_spec hok ho hs hlt hdata hreq
  | close _ _ hs hdata => exact doRequestClose_spec hok ho hs hdata

theorem sentTo_reply (v : Vmid) (m : Msg Id) (out : Outbox Vmid Id) (c : Vmid) :
    Outbox.sentTo ((reply m).map (Prod.mk v) ++ out) c =
      (if c = v then reply m else []) ++ out.sentTo c := by
  by_cases hc : c = v
  · subst hc
    simp [Outbox.sentTo, filter_map, Function.comp_def]
  · simp [Outbox.sentTo, hc, Ne.symm hc]

/-- What a handler leaves of the links to its handle, given the lease `o'` of
the sender `v` after the message `m`. -/
def KeepsLinks (v : Vmid) (m : Msg Id) (r : Option (ServerHandle Vmid)) (o' : Option (Lease Vmid))
    (r' : Option (ServerHandle Vmid)) (out : Outbox Vmid Id) : Prop :=
  ∀ c oh up down, Link m.id oh (leaseAfter v r o' c) up (down ++ if c = v then reply m else []) →
    Link m.id oh (leaseOf r' c) up (down ++ out.sentTo c)

/-- **The server handles a message its lease allows**: it reaches no assertion,
leaves nothing to grant or to ask for, and keeps the link of every client to the
handle. -/
theorem serverCallback_spec {m : Msg Id} (hok : LeasesOk (findHandle r).leases)
    (hr : Receives v m.id m (leaseOf r v) o') :
    ∃ r' out, serverCallback v m r = .ok (r', out) ∧ RecordOk r' ∧ KeepsLinks v m r o' r' out := by
  obtain ⟨ls, hls, hfind, ⟨h', out, hp, he⟩ | ⟨rfl, he⟩⟩ := serverCallback_handles hok hr
  · obtain ⟨h'', out', hp', hrec, hlink⟩ := processHandle_link (i := m.id) (h := ⟨_, ls⟩) hls
    cases hp.symm.trans hp'
    refine ⟨_, _, he, hrec, fun c oh up down hl => ?_⟩
    rw [sentTo_reply, ← append_assoc]
    exact hlink c oh up _ (by rw [hfind]; exact hl)
  · refine ⟨_, _, he, .none, fun c oh up down hl => ?_⟩
    have hnone : leaseOf (none : Option (ServerHandle Vmid)) c = leaseAfter v r o' c := hfind c
    have hsent := sentTo_reply v m [] c
    rw [append_nil] at hsent
    rw [hsent, hnone]
    simpa [Outbox.sentTo] using hl

end Sync
