import Gramine.SyncServer

/-!
# What `process_handle` does to the leases

`process_handle` walks the leases twice: it grants the requests that can be
granted, then asks for downgrades. Each walk changes every lease on its own and
sends that lease's client at most one message (`Walk`, with `Grants` and `Asks`
for the two kinds of change), so a client sees exactly the change of its own
lease (`Walk.lookup`).

Three things hold afterwards (`processHandle_spec`): at most one lease is
EXCLUSIVE and then it is alone (`Counts.Exclusive`), no request that could be
granted is left (`Served`), and whoever stands in the way of a waiting request
has been asked to step down (`Asked`). No assertion of the function fails.
-/

open List

namespace Sync

variable {Vmid Id : Type} [DecidableEq Vmid]

/-! ## Counting leases -/

attribute [ext] Counts

namespace Counts

instance : Add Counts :=
  ⟨fun a b => ⟨a.nShared + b.nShared, a.nExclusive + b.nExclusive,
    a.wantShared + b.wantShared, a.wantExclusive + b.wantExclusive⟩⟩

@[simp] theorem add_nShared (a b : Counts) : (a + b).nShared = a.nShared + b.nShared := rfl
@[simp] theorem add_nExclusive (a b : Counts) :
    (a + b).nExclusive = a.nExclusive + b.nExclusive := rfl
@[simp] theorem add_wantShared (a b : Counts) :
    (a + b).wantShared = a.wantShared + b.wantShared := rfl
@[simp] theorem add_wantExclusive (a b : Counts) :
    (a + b).wantExclusive = a.wantExclusive + b.wantExclusive := rfl

/-- An EXCLUSIVE lease is the only one above INVALID. -/
def Exclusive (n : Counts) : Prop :=
  n.nExclusive = 0 ∨ (n.nExclusive = 1 ∧ n.nShared = 0)

/-- How the counters can change while requests are granted. -/
structure Grows (n n' : Counts) : Prop where
  exclusive : n.nExclusive ≤ n'.nExclusive
  total : n.nExclusive + n.nShared ≤ n'.nExclusive + n'.nShared
  shared : 2 ≤ n.nShared → 2 ≤ n'.nShared

theorem Grows.refl (n : Counts) : Grows n n := ⟨Nat.le_refl _, Nat.le_refl _, id⟩

theorem Grows.trans {a b c : Counts} (h : Grows a b) (h' : Grows b c) : Grows a c :=
  ⟨Nat.le_trans h.exclusive h'.exclusive, Nat.le_trans h.total h'.total,
    fun ha => h'.shared (h.shared ha)⟩

end Counts

/-- One lease's contribution to the counters. -/
def tally (l : Lease Vmid) : Counts where
  nShared := if l.curState = .shared then 1 else 0
  nExclusive := if l.curState = .exclusive then 1 else 0
  wantShared := if l.clientReqState = .shared then 1 else 0
  wantExclusive := if l.clientReqState = .exclusive then 1 else 0

section
omit [DecidableEq Vmid]

theorem countLeases_cons (l : Lease Vmid) (ls : List (Lease Vmid)) :
    countLeases (l :: ls) = tally l + countLeases ls := by
  simp only [countLeases, tally, countP_cons, decide_eq_true_eq]
  change _ = Counts.mk _ _ _ _
  simp [Nat.add_comm]

theorem add_countLeases_cons (a : Counts) (l : Lease Vmid) (ls : List (Lease Vmid)) :
    a + countLeases (l :: ls) = (a + countLeases ls) + tally l := by
  rw [countLeases_cons]
  ext <;> simp <;> omega

theorem add_tally_countLeases (a : Counts) (l : Lease Vmid) (ls : List (Lease Vmid)) :
    (a + tally l) + countLeases ls = a + countLeases (l :: ls) := by
  rw [countLeases_cons]
  ext <;> simp <;> omega

end

/-! ## One lease at a time -/

/-- What is true of every lease. -/
structure LeaseOk (l : Lease Vmid) : Prop where
  cur : l.curState ≠ .none
  clientReq : l.clientReqState = .none ∨
    ((l.clientReqState = .shared ∨ l.clientReqState = .exclusive) ∧ l.curState < l.clientReqState)
  serverReq : l.serverReqState = .none ∨ l.serverReqState < l.curState

/-- The effect of the upgrade loop on one lease, with the messages it sends. -/
inductive Grants (id : Id) (data : List UInt8) (l : Lease Vmid) :
    List (Msg Id) → Lease Vmid → Prop
  | skip : Grants id data l [] l
  | grant (s : SyncState) (hreq : l.clientReqState = s) (hs : s = .shared ∨ s = .exclusive)
      (hcur : l.curState < s) : Grants id data l [confirmUpgradeMsg id data s]
        { l with curState := s, clientReqState := .none }

/-- The effect of the downgrade loops on one lease, with the messages they send. -/
inductive Asks (id : Id) (l : Lease Vmid) : List (Msg Id) → Lease Vmid → Prop
  | skip : Asks id l [] l
  | ask (s : SyncState) (hs : s = .invalid ∨ s = .shared) (hcur : s < l.curState)
      (hreq : l.serverReqState = .none ∨ s < l.serverReqState) :
      Asks id l [requestDowngradeMsg id s] { l with serverReqState := s }

omit [DecidableEq Vmid] in
theorem Grants.vmid_eq {id : Id} {data : List UInt8} {l l' : Lease Vmid} {ms : List (Msg Id)}
    (h : Grants id data l ms l') : l'.vmid = l.vmid := by
  cases h <;> rfl

/-- A request left by the upgrade loop cannot be granted with these counters. -/
structure Served (n : Counts) (l : Lease Vmid) : Prop where
  shared : l.clientReqState = .shared → n.nExclusive ≠ 0
  exclusive : l.clientReqState = .exclusive →
    n.nExclusive ≠ 0 ∨ 2 ≤ n.nShared ∨ (l.curState = .invalid ∧ n.nShared ≠ 0)

/-- A lease in the way of a waiting request has been asked to step down. -/
structure Asked (n : Counts) (l : Lease Vmid) : Prop where
  exclusive : n.wantExclusive ≠ 0 → l.curState = .shared ∨ l.curState = .exclusive →
    l.serverReqState = .invalid
  shared : n.wantExclusive = 0 → n.wantShared ≠ 0 → l.curState = .exclusive →
    l.serverReqState = .shared ∨ l.serverReqState = .invalid

section
omit [DecidableEq Vmid]

theorem Served.mono {n n' : Counts} {l : Lease Vmid} (h : Served n l) (hn : n.Grows n') :
    Served n' l := by
  obtain ⟨h1, h2⟩ := h
  obtain ⟨g1, g2, g3⟩ := hn
  refine ⟨fun hr => ?_, fun hr => ?_⟩
  · have := h1 hr
    omega
  rcases h2 hr with h | h | ⟨h, h'⟩
  · exact .inl (by omega)
  · exact .inr (.inl (g3 h))
  · by_cases hz : n'.nExclusive = 0
    · exact .inr (.inr ⟨h, by omega⟩)
    · exact .inl hz

theorem eq_invalid_of_lt_shared {s : SyncState} (h : s ≠ .none) (hlt : s < .shared) :
    s = .invalid := by
  cases s <;> simp_all [SyncState.lt_def, SyncState.val]

/-- **One iteration of the upgrade loop.** `a` counts the other leases. -/
theorem upgradeLease_spec (id : Id) (data : List UInt8) {l : Lease Vmid} {a : Counts}
    (hl : LeaseOk l) (hx : (a + tally l).Exclusive) :
    ∃ l' g, upgradeLease l (a + tally l) = .ok (l', a + tally l', g) ∧
      Grants id data l (g.map (confirmUpgradeMsg id data)).toList l' ∧
      (a + tally l').Exclusive ∧ (a + tally l).Grows (a + tally l') ∧
      Served (a + tally l') l' := by
  obtain ⟨hcur, hreq, -⟩ := hl
  have hlt : l.clientReqState ≠ .none → l.curState < l.clientReqState :=
    fun h => (hreq.resolve_left h).2
  -- the three branches that grant, in the order of the source
  by_cases h1 : l.clientReqState = .shared ∧ (a + tally l).nExclusive = 0
  · obtain ⟨hr, h0⟩ := h1
    have hi : l.curState = .invalid := by
      rw [hr] at hlt
      exact eq_invalid_of_lt_shared hcur (hlt (by simp))
    have ha : a.nExclusive = 0 := by simpa [tally, hi] using h0
    refine ⟨_, some .shared, ?_, .grant .shared hr (.inl rfl) (by rw [hi]; decide), ?_, ?_, ?_⟩
    · simp only [upgradeLease, hr, h0, hi, and_self, if_true]
      congr 2
      ext <;> simp [tally, hi, hr, ha]
    · left; simpa [tally] using ha
    · constructor <;> simp [tally, hi]; omega
    · constructor <;> simp
  by_cases h23 : (l.clientReqState = .exclusive ∧ (a + tally l).nExclusive = 0 ∧
      (a + tally l).nShared = 0) ∨ (l.clientReqState = .exclusive ∧
      (a + tally l).nExclusive = 0 ∧ (a + tally l).nShared = 1 ∧ l.curState = .shared)
  · rcases h23 with ⟨hr, h0, hs⟩ | ⟨hr, h0, hs, hi⟩
    on_goal 1 =>
      have hi : l.curState = .invalid := by
        simp only [tally] at h0 hs
        cases hc : l.curState <;> simp_all
    all_goals
      have ha : a.nExclusive = 0 ∧ a.nShared = 0 := by
        simpa [tally, hi] using And.intro h0 hs
      refine ⟨_, some .exclusive, ?_, .grant .exclusive hr (.inr rfl) (by rw [hi]; decide),
        ?_, ?_, ?_⟩
      · simp only [upgradeLease, hr, h0, hs, hi, and_self, if_true, reduceCtorEq, false_and,
          and_false, if_false]
        congr 2
        ext <;> simp [tally, hr, ha]
      · right; simp [tally, ha]
      · constructor <;> simp [tally, hi, ha]
      · constructor <;> simp
  obtain ⟨h2, h3⟩ := not_or.1 h23
  -- nothing can be granted
  refine ⟨l, none, ?_, .skip, hx, .refl _, ?_⟩
  · simp only [upgradeLease, if_neg h1, if_neg h2, if_neg h3]
    rfl
  refine ⟨fun hr h0 => h1 ⟨hr, h0⟩, fun hr => ?_⟩
  by_cases h0 : (a + tally l).nExclusive = 0
  · right
    have hs : (a + tally l).nShared ≠ 0 := fun hs => h2 ⟨hr, h0, hs⟩
    rw [hr] at hlt
    have hc := hlt (by simp)
    cases hi : l.curState with
    | none => exact absurd hi hcur
    | invalid => exact .inr ⟨rfl, hs⟩
    | shared =>
      have : (a + tally l).nShared ≠ 1 := fun hs => h3 ⟨hr, h0, hs, hi⟩
      omega
    | exclusive => rw [hi] at hc; exact absurd hc (by decide)
  · exact .inl h0

end

/-! ## All leases -/

/-- A walk over the leases that changes each by `R` and sends its messages. -/
inductive Walk (R : Lease Vmid → List (Msg Id) → Lease Vmid → Prop) :
    List (Lease Vmid) → List (Lease Vmid) → Outbox Vmid Id → Prop
  | nil : Walk R [] [] []
  | cons {l l' : Lease Vmid} {ms : List (Msg Id)} {ls ls' : List (Lease Vmid)}
      {out : Outbox Vmid Id} (h : R l ms l') (hv : l'.vmid = l.vmid) (hw : Walk R ls ls' out) :
      Walk R (l :: ls) (l' :: ls') (ms.map (fun m => (l.vmid, m)) ++ out)

namespace Walk
variable {R : Lease Vmid → List (Msg Id) → Lease Vmid → Prop}
  {ls ls' : List (Lease Vmid)} {out : Outbox Vmid Id}

omit [DecidableEq Vmid] in
theorem map_vmid (h : Walk R ls ls' out) : ls'.map Lease.vmid = ls.map Lease.vmid := by
  induction h with
  | nil => rfl
  | cons _ hv _ ih => simp [hv, ih]

omit [DecidableEq Vmid] in
theorem forall_of {P Q : Lease Vmid → Prop} (hR : ∀ l ms l', R l ms l' → P l → Q l')
    (h : Walk R ls ls' out) (hP : ∀ l ∈ ls, P l) : ∀ l ∈ ls', Q l := by
  induction h with
  | nil => simp
  | cons hr _ _ ih =>
    intro k hk
    rcases mem_cons.mp hk with rfl | hk
    · exact hR _ _ _ hr (hP _ mem_cons_self)
    · exact ih (fun l hl => hP l (mem_cons_of_mem _ hl)) k hk

theorem lookup_none (h : Walk R ls ls' out) {v : Vmid} (hv : findLease? ls v = none) :
    findLease? ls' v = none ∧ out.filter (fun p => p.1 = v) = [] := by
  induction h with
  | nil => exact ⟨rfl, rfl⟩
  | @cons l l' ms ls ls' out _ hl _ ih =>
    have hne : ¬ l.vmid = v := by
      intro he
      simp [findLease?, he] at hv
    have hrest : findLease? ls v = none := by simpa [findLease?, hne] using hv
    obtain ⟨h1, h2⟩ := ih hrest
    refine ⟨by simpa [findLease?, hl, hne] using h1, ?_⟩
    rw [filter_append, h2]
    simp [hne]

/-- **A client sees the change of its own lease**, and its messages are the ones
that change sends. -/
theorem lookup (h : Walk R ls ls' out) (hnd : (ls.map Lease.vmid).Nodup) {v : Vmid}
    {l : Lease Vmid} (hv : findLease? ls v = some l) :
    ∃ ms l', R l ms l' ∧ findLease? ls' v = some l' ∧
      (out.filter (fun p => p.1 = v)).map Prod.snd = ms := by
  induction h with
  | nil => simp [findLease?] at hv
  | @cons k k' ms ls ls' out hr hk hw ih =>
    rw [map_cons, nodup_cons] at hnd
    by_cases he : k.vmid = v
    · obtain rfl : k = l := by simpa [findLease?, he] using hv
      have hrest : findLease? ls v = none := by
        rw [findLease?, find?_eq_none]
        intro j hj hjv
        exact hnd.1 (he ▸ of_decide_eq_true hjv ▸ mem_map_of_mem hj)
      refine ⟨ms, k', hr, by simp [findLease?, hk, he], ?_⟩
      rw [filter_append, (hw.lookup_none hrest).2]
      simp [he, filter_map, Function.comp_def]
    · obtain ⟨ms', l', h1, h2, h3⟩ := ih hnd.2 (by simpa [findLease?, he] using hv)
      refine ⟨ms', l', h1, by simpa [findLease?, hk, he] using h2, ?_⟩
      rw [filter_append, map_append, h3]
      simp [he]

end Walk

omit [DecidableEq Vmid] in
/-- **The upgrade loop.** `a` counts the leases already visited. -/
theorem upgradeLeases_spec (id : Id) (data : List UInt8) :
    ∀ (ls : List (Lease Vmid)) (a : Counts), (∀ l ∈ ls, LeaseOk l) →
      (a + countLeases ls).Exclusive →
      ∃ ls' out, upgradeLeases id data ls (a + countLeases ls) =
          .ok (ls', a + countLeases ls', out) ∧
        Walk (Grants id data) ls ls' out ∧ (a + countLeases ls').Exclusive ∧
        (a + countLeases ls).Grows (a + countLeases ls') ∧
        ∀ l ∈ ls', Served (a + countLeases ls') l := by
  intro ls
  induction ls with
  | nil =>
    intro a _ hx
    exact ⟨[], [], rfl, .nil, hx, .refl _, by simp⟩
  | cons l ls ih =>
    intro a hok hx
    rw [add_countLeases_cons] at hx
    obtain ⟨l', g, hstep, hg, hx', hgrow, hserved⟩ :=
      upgradeLease_spec id data (hok l mem_cons_self) hx
    rw [← add_countLeases_cons] at hx' hstep hgrow hserved
    rw [← add_countLeases_cons] at hstep hgrow
    rw [← add_tally_countLeases] at hx'
    obtain ⟨ls', out, hloop, hw, hx'', hgrow', hserved'⟩ :=
      ih (a + tally l') (fun k hk => hok k (mem_cons_of_mem _ hk)) hx'
    rw [add_tally_countLeases] at hloop hx'' hgrow' hserved'
    rw [add_tally_countLeases] at hloop hgrow'
    refine ⟨l' :: ls', (g.map (confirmUpgradeMsg id data)).toList.map (fun m => (l.vmid, m)) ++ out,
      ?_, .cons hg hg.vmid_eq hw, hx'', hgrow.trans hgrow', ?_⟩
    · rw [upgradeLeases, hstep]
      simp only [bind, Except.bind, hloop]
      cases g <;> rfl
    · intro k hk
      rcases mem_cons.mp hk with rfl | hk
      · exact hserved.mono hgrow'
      · exact hserved' k hk

/-! ## The downgrade loops -/

section
omit [DecidableEq Vmid]

theorem downgradeTarget_asks (id : Id) (n : Counts) (l : Lease Vmid) :
    Asks id l ((downgradeTarget n l).map (requestDowngradeMsg id)).toList
      (match downgradeTarget n l with
        | some s => { l with serverReqState := s }
        | none => l) := by
  unfold downgradeTarget
  split
  · split
    · rename_i h
      refine .ask .invalid (.inl rfl) ?_ ?_
      · rcases h.1 with h | h <;> rw [h] <;> decide
      · cases hs : l.serverReqState <;> simp_all [SyncState.lt_def, SyncState.val]
    · exact .skip
  · split
    · split
      · rename_i h
        refine .ask .shared (.inr rfl) ?_ ?_
        · rw [h.1]
          decide
        · cases hs : l.serverReqState <;> simp_all [SyncState.lt_def, SyncState.val]
      · exact .skip
    · exact .skip

theorem downgradeTarget_asked (n : Counts) (l : Lease Vmid) :
    Asked n (match downgradeTarget n l with
      | some s => { l with serverReqState := s }
      | none => l) := by
  by_cases hw : n.wantExclusive = 0
  · refine ⟨fun h => absurd hw h, fun _ hws hc => ?_⟩
    by_cases hs : l.serverReqState = .shared
    · simp_all [downgradeTarget]
    by_cases hi : l.serverReqState = .invalid
    · simp_all [downgradeTarget]
    · have hc' : l.curState = .exclusive := by
        rcases h : downgradeTarget n l with _ | s <;> simpa [h] using hc
      simp [downgradeTarget, hw, hws, hc', hs, hi]
  · refine ⟨fun _ hc => ?_, fun h => absurd h hw⟩
    by_cases hi : l.serverReqState = .invalid
    · simp_all [downgradeTarget]
    · have hc' : l.curState = .shared ∨ l.curState = .exclusive := by
        rcases h : downgradeTarget n l with _ | s <;> simpa [h] using hc
      simp [downgradeTarget, hw, hc', hi]

/-- The downgrade loops leave states and requests alone, and ask everyone in the
way of a waiting request. -/
theorem downgradeLeases_spec (id : Id) (n : Counts) (ls : List (Lease Vmid)) :
    Walk (Asks id) ls (downgradeLeases id n ls).1 (downgradeLeases id n ls).2 ∧
      countLeases (downgradeLeases id n ls).1 = countLeases ls ∧
      ∀ l ∈ (downgradeLeases id n ls).1, Asked n l := by
  induction ls with
  | nil => exact ⟨.nil, rfl, by simp [downgradeLeases]⟩
  | cons l ls ih =>
    obtain ⟨hw, hc, ha⟩ := ih
    have hask := downgradeTarget_asks id n l
    have hasked := downgradeTarget_asked n l
    rcases ht : downgradeTarget n l with _ | s
    all_goals
      rw [ht] at hask hasked
      simp only [downgradeLeases, ht]
      refine ⟨.cons hask rfl hw, ?_, ?_⟩
      · rw [countLeases_cons, hc]
        exact (countLeases_cons l ls).symm
      · simpa using ⟨hasked, ha⟩

end

/-! ## The whole function -/

/-- What the server keeps true of the leases of every handle. -/
structure LeasesOk (ls : List (Lease Vmid)) : Prop where
  nodup : (ls.map Lease.vmid).Nodup
  lease : ∀ l ∈ ls, LeaseOk l
  exclusive : (countLeases ls).Exclusive

/-- Nothing is left to grant or to ask for. -/
def Quiet (ls : List (Lease Vmid)) : Prop :=
  ∀ l ∈ ls, Served (countLeases ls) l ∧ Asked (countLeases ls) l

section
omit [DecidableEq Vmid]

variable {ms : List (Msg Id)} {l l' : Lease Vmid}

theorem Grants.leaseOk {id : Id} {data : List UInt8} (h : Grants id data l ms l') (hl : LeaseOk l) :
    LeaseOk l' := by
  cases h with
  | skip => exact hl
  | grant s hreq hs hcur =>
    refine ⟨by rcases hs with rfl | rfl <;> simp, .inl rfl, ?_⟩
    rcases hl.serverReq with h | h
    · exact .inl h
    · exact .inr (Nat.lt_trans h hcur)

theorem Asks.leaseOk {id : Id} (h : Asks id l ms l') (hl : LeaseOk l) : LeaseOk l' := by
  cases h with
  | skip => exact hl
  | ask s hs hcur hreq => exact ⟨hl.cur, hl.clientReq, .inr hcur⟩

/-- Served requests stay served when only `serverReqState` changes. -/
theorem Asks.served {id : Id} {n : Counts} (h : Asks id l ms l') (hl : Served n l) :
    Served n l' := by
  cases h with
  | skip => exact hl
  | ask s hs hcur hreq => exact ⟨hl.shared, hl.exclusive⟩

/-- **`process_handle` reaches no assertion, keeps the leases in order, and leaves
nothing to grant or to ask for.** -/
theorem processHandle_spec (id : Id) {h : ServerHandle Vmid} (hok : LeasesOk h.leases) :
    ∃ mid ls out out', processHandle id h = .ok (⟨h.data, ls⟩, out ++ out') ∧
      Walk (Grants id h.data) h.leases mid out ∧ Walk (Asks id) mid ls out' ∧
      LeasesOk ls ∧ Quiet ls := by
  obtain ⟨hnd, hl, hx⟩ := hok
  have hzero : ∀ n : Counts, (⟨0, 0, 0, 0⟩ : Counts) + n = n := by
    intro n
    ext <;> simp
  obtain ⟨mid, out, hup, hw, hx', -, hserved⟩ :=
    upgradeLeases_spec id h.data h.leases ⟨0, 0, 0, 0⟩ hl (by rwa [hzero])
  rw [hzero] at hup hx' hserved
  rw [hzero] at hup
  obtain ⟨hw', hc, hasked⟩ := downgradeLeases_spec id (countLeases mid) mid
  refine ⟨mid, (downgradeLeases id (countLeases mid) mid).1, out,
    (downgradeLeases id (countLeases mid) mid).2, ?_, hw, hw', ⟨?_, ?_, ?_⟩, ?_⟩
  · simp only [processHandle, hup]
    rfl
  · rwa [hw'.map_vmid, hw.map_vmid]
  · exact hw'.forall_of (fun _ _ _ h => h.leaseOk) (hw.forall_of (fun _ _ _ h => h.leaseOk) hl)
  · rwa [hc]
  · intro l hl'
    rw [hc]
    exact ⟨hw'.forall_of (fun _ _ _ h => h.served) hserved l hl', hasked l hl'⟩

end

end Sync
