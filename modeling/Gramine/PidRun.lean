import Gramine.PidLeader
import Gramine.PidLocal

/-!
# Process IDs are unique

The ranges the leader has for a process are its own ranges, those in messages that release
them, and the IDs on their way to it; between the two halves of a split, the leader still has
the range that the process has already cut. This is kept by all steps of all processes, and so
no ID is used by two processes, and no `BUG()` but the stop at `PID_MAX` is reached.
-/

open Function List

namespace Pid

open RangeTree

/-! ## The invariant -/

/-- The IDs on their way to a process. -/
abbrev transitKeys (transit : List Transit) (p : Nat) : List (Nat × Nat) :=
  keysFor Transit.dest (fun t => (t.id, t.id)) transit p

/-- The ranges a process has released and the leader has not. -/
abbrev releaseKeys (releases : List (Nat × (Nat × Nat))) (p : Nat) : List (Nat × Nat) :=
  keysFor Prod.fst Prod.snd releases p

/-- The leader's ranges that a process has or is about to have. -/
def Claims (proc : Proc) (l : List (Nat × Nat)) : Prop :=
  match proc.pc with
  | .allocated _ (some k) => l.Perm (k :: proc.keys) ∧ validRange k.1 k.2 = true
  | .changing id _ => ∃ k others, l.Perm (k :: others) ∧ (k.1 ≤ id ∧ id ≤ k.2) ∧
      proc.keys.Perm (parts k id ++ others)
  | _ => l.Perm proc.keys

/-- What a process in `get_new_id` waits for. -/
def Waits (s : State) (p : Nat) : Prop :=
  match (s.proc p).pc with
  | .idle => True
  | .allocating _ => (s.proc p).lastRange = none
  | .allocated _ _ => (s.proc p).lastRange = none
  | .changing _ dest => dest ≠ 0
  | .changed id dest => ⟨id, dest, some p⟩ ∈ s.transit

/-- The invariant for one process. -/
structure InvAt (s : State) (p : Nat) : Prop where
  proc : ProcInv (s.proc p) (s.held p)
  started : (s.proc p).initialized = true → p ≠ 0
  notStarted : (s.proc p).initialized = false → (s.proc p).ranges = [] ∧ (s.proc p).pc = .idle
  waits : Waits s p
  owned : ∃ l, (keysOf s.leader.tree p).Perm
    (transitKeys s.transit p ++ (releaseKeys s.releases p ++ l)) ∧ Claims (s.proc p) l

structure Inv (s : State) : Prop where
  leader : LeaderInv s.leader
  transit : ∀ t ∈ s.transit, t.dest ≠ 0
  each : ∀ p, InvAt s p

variable {s s' : State} {p q id dest : Nat}

theorem Inv.initial (h : Initial s) : Inv s := by
  obtain ⟨hleader, hproc, hreleases, hheld, htransit⟩ := h
  refine ⟨?_, by simp [htransit], fun p => ⟨?_, fun hp => ?_, fun _ => ?_, ?_, ⟨[], ?_, ?_⟩⟩⟩
  · rw [hleader]
    exact ⟨.nil, by simp, Nat.zero_le _⟩
  · rw [hproc, hheld]
    exact ⟨.nil, by simp [Proc.empty], by simp [Proc.empty], ⟨by simp [Proc.empty, Proc.ranges],
      by simp⟩, by simp, nodup_nil⟩
  · rw [hproc] at hp
    have hp : p = startingVmid := of_decide_eq_true hp
    rw [hp]
    exact one_ne_zero
  · rw [hproc]
    exact ⟨rfl, rfl⟩
  · rw [Waits, hproc]
    trivial
  · rw [hleader, htransit, hreleases]
    exact .refl _
  · rw [hproc]
    exact .refl _

/-! ## Who owns an ID -/

/-- The leader has the ID for the process. -/
def Owns (s : State) (p id : Nat) : Prop := ∃ k ∈ keysOf s.leader.tree p, k.1 ≤ id ∧ id ≤ k.2

/-- The leader finds the owner of an id. -/
theorem Inv.findIdOwner_eq (h : Inv s) (howns : Owns s p id) :
    findIdOwner s.leader.tree id = p := by
  obtain ⟨k, hk, hid⟩ := howns
  exact Pid.findIdOwner_eq h.leader.ordered (mem_keysOf.1 hk) (has_iff.2 hid)

theorem Inv.owner_unique (h : Inv s) (hp : Owns s p id) (hq : Owns s q id) : p = q :=
  (h.findIdOwner_eq hp).symm.trans (h.findIdOwner_eq hq)

/-- An id under way belongs to the process it is sent to. -/
theorem Inv.owns_of_transit (h : Inv s) {t : Transit} (ht : t ∈ s.transit) :
    Owns s t.dest t.id := by
  obtain ⟨l, hperm, -⟩ := (h.each t.dest).owned
  exact ⟨_, hperm.mem_iff.2 (mem_append_left _ ((mem_keysFor _ _).2 ⟨t, ht, rfl, rfl⟩)),
    le_rfl, le_rfl⟩

variable {proc : Proc} {r : Range Nat}

/-- Every id of a process lies in one of its ranges with the leader. -/
theorem Claims.covers {l : List (Nat × Nat)} (h : Claims proc l) (hr : r ∈ proc.ranges)
    (hid : r.has id = true) : ∃ k ∈ l, k.1 ≤ id ∧ id ≤ k.2 := by
  have hkey : r.key ∈ proc.keys := mem_map_of_mem hr
  have hin : r.key.1 ≤ id ∧ id ≤ r.key.2 := has_iff.1 hid
  unfold Claims at h
  split at h
  · exact ⟨r.key, h.1.mem_iff.2 (mem_cons_of_mem _ hkey), hin⟩
  · obtain ⟨k, others, hl, hk, hparts⟩ := h
    rcases mem_append.1 (hparts.mem_iff.1 hkey) with hkey | hkey
    · have := mem_parts hk hkey
      exact ⟨k, hl.mem_iff.2 mem_cons_self, by omega⟩
    · exact ⟨r.key, hl.mem_iff.2 (mem_cons_of_mem _ hkey), hin⟩
  · exact ⟨r.key, h.mem_iff.2 hkey, hin⟩

/-- A local range is in the leader's, and apart from what is on its way to the process. -/
theorem Inv.owns_of_range (h : Inv s) (hr : r ∈ (s.proc p).ranges) (hid : r.has id = true) :
    Owns s p id ∧ ∀ t ∈ s.transit, t.id ≠ id := by
  obtain ⟨l, hperm, hclaims⟩ := (h.each p).owned
  obtain ⟨k, hk, hin⟩ := hclaims.covers hr hid
  have howns : Owns s p id :=
    ⟨k, hperm.mem_iff.2 (mem_append_right _ (mem_append_right _ hk)), hin⟩
  refine ⟨howns, fun t ht htid => ?_⟩
  have hdest : (t.id, t.id) ∈ transitKeys s.transit p :=
    (mem_keysFor _ _).2 ⟨t, ht, h.owner_unique (htid ▸ h.owns_of_transit ht) howns, rfl⟩
  have hapart := (hperm.pairwise_iff Apart.symm).1 (keysOf_apart h.leader.ordered p)
  have := (pairwise_append.1 hapart).2.2 _ hdest k (mem_append_right _ hk)
  unfold Apart at this
  omega

/-! ## Steps -/

theorem perm_front {α : Type} (a b c d : List α) :
    (a ++ (b ++ (c ++ d))).Perm (b ++ (c ++ (a ++ d))) :=
  (perm_append_comm_assoc a b _).trans ((perm_append_comm_assoc a c d).append_left b)

/-- Nothing that a process knows of is changed. -/
structure Frame (s s' : State) (q : Nat) : Prop where
  proc : s'.proc q = s.proc q
  held : s'.held q = s.held q
  waiting : ∀ id dest, ⟨id, dest, some q⟩ ∈ s.transit → ⟨id, dest, some q⟩ ∈ s'.transit
  keys : ∀ l, (keysOf s.leader.tree q).Perm
      (transitKeys s.transit q ++ (releaseKeys s.releases q ++ l)) →
    (keysOf s'.leader.tree q).Perm (transitKeys s'.transit q ++ (releaseKeys s'.releases q ++ l))

/-- The invariant of a process reads only what belongs to it. -/
theorem InvAt.frame (h : InvAt s q) (hframe : Frame s s' q) : InvAt s' q := by
  obtain ⟨hproc, hheld, hwaiting, hkeys⟩ := hframe
  obtain ⟨l, hperm, hclaims⟩ := h.owned
  refine ⟨?_, ?_, ?_, ?_, l, hkeys l hperm, ?_⟩
  · rw [hproc, hheld]
    exact h.proc
  · rw [hproc]
    exact h.started
  · rw [hproc]
    exact h.notStarted
  · have hwaits := h.waits
    unfold Waits at hwaits ⊢
    rw [hproc]
    split at hwaits
    all_goals first | exact hwaits | exact hwaiting _ _ hwaits
  · rwa [hproc]

/-- A step of one process: the others are framed. -/
theorem Inv.frame (h : Inv s) (hleader : LeaderInv s'.leader)
    (htransit : ∀ t ∈ s'.transit, t.dest ≠ 0) (hframe : ∀ q, q ≠ p → Frame s s' q)
    (hp : InvAt s' p) : Inv s' := by
  refine ⟨hleader, htransit, fun q => ?_⟩
  by_cases hq : q = p
  · exact hq ▸ hp
  · exact (h.each q).frame (hframe q hq)

variable {held : List Nat}

theorem Frame.of_proc (hq : q ≠ p) :
    Frame s { s.setProc p proc with held := update s.held p held } q :=
  ⟨update_of_ne hq _ _, update_of_ne hq _ _, fun _ _ => id, fun _ => id⟩

/-- An ID that nobody uses or is about to get. -/
def Fresh (s : State) (id : Nat) : Prop :=
  (∀ q, id ∉ s.held q) ∧ ∀ t ∈ s.transit, t.id = id → t.waiting ≠ none

/-- What holds after a step. -/
def Good (s : State) : Outcome → Prop
  | .error bug => bug = .pidMax
  | .ok (s', out) => Inv s' ∧ ∀ id ∈ out, Fresh s id

/-- The next id of the last range is not in use anywhere. -/
theorem Inv.fresh_next (h : Inv s) (hr : (s.proc p).lastRange = some r) :
    Fresh s ((s.proc p).lastUsedId + 1) := by
  obtain ⟨hstart, hlast, hnot, -⟩ := (h.each p).proc.next hr
  have hmem : r ∈ (s.proc p).ranges := mem_ranges.2 (.inr hr)
  obtain ⟨howns, htransit⟩ := h.owns_of_range hmem (has_iff.2 ⟨hstart, hlast⟩)
  refine ⟨fun q hq => ?_, fun t ht htid => absurd htid (htransit t ht)⟩
  obtain ⟨u, hu, hhas⟩ := (h.each q).proc.counted.covered _ hq
  have heq := h.owner_unique howns (h.owns_of_range hu hhas).1
  exact hnot (heq ▸ hq)

theorem InvAt.of_started (hp : s'.proc p = proc) (hheld : s'.held p = held)
    (hproc : ProcInv proc held) (hinit : proc.initialized = true) (hne : p ≠ 0)
    (hwaits : Waits s' p)
    (howned : ∃ l, (keysOf s'.leader.tree p).Perm (transitKeys s'.transit p ++ (releaseKeys
      s'.releases p ++ l)) ∧ Claims proc l) :
    InvAt s' p := by
  subst hp hheld
  refine ⟨hproc, fun _ => hne, fun hnot => ?_, hwaits, howned⟩
  cases hinit.symm.trans hnot

theorem setProc_proc_self (s : State) (p : Nat) (proc : Proc) : (s.setProc p proc).proc p = proc :=
  update_self ..

theorem setProc_eq (s : State) (p : Nat) (proc : Proc) :
    s.setProc p proc = { s.setProc p proc with held := update s.held p (s.held p) } := by
  rw [update_eq_self]
  rfl

/-- A process changes its own ranges and ids, and nothing at the leader. -/
theorem Inv.of_proc (h : Inv s) (hproc : ProcInv proc held) (hinit : (s.proc p).initialized = true)
    (hinit' : proc.initialized = true)
    (hwaits : Waits { s.setProc p proc with held := update s.held p held } p)
    (hclaims : ∀ l, Claims (s.proc p) l → Claims proc l) :
    Inv { s.setProc p proc with held := update s.held p held } := by
  obtain ⟨l, hperm, hl⟩ := (h.each p).owned
  refine h.frame h.leader h.transit (fun _ hq => .of_proc hq) ?_
  exact .of_started (update_self ..) (update_self ..) hproc hinit'
    ((h.each p).started hinit) hwaits ⟨l, hperm, hclaims l hl⟩

theorem claims_idle {l : List (Nat × Nat)} (hpc : proc.pc = .idle) :
    Claims proc l ↔ l.Perm proc.keys := by
  rw [Claims, hpc]

/-- `get_new_id` with a range. -/
theorem Inv.take_good (h : Inv s) (hinit : (s.proc p).initialized = true)
    (hpc : (s.proc p).pc = .idle) (hr : (s.proc p).lastRange = some r) (dest : Nat) (memory : Bool)
    : Good s (s.take p r dest memory) := by
  have hproc := (h.each p).proc
  rw [State.take]
  by_cases hdest : dest = 0
  · subst hdest
    obtain ⟨proc', heq, hproc', hkeys, hinit'⟩ := hproc.takeId_keep hr memory
    rw [heq]
    refine ⟨h.of_proc (hproc'.with_pc _) hinit (hinit'.trans hinit) ?_ fun l hl => ?_, ?_⟩
    · simp [Waits, setProc_proc_self]
    · rw [claims_idle hpc] at hl
      exact hl.trans hkeys.symm
    · rintro _ ⟨⟩
      exact h.fresh_next hr
  · rcases hproc.takeId_move hr memory hdest with heq | ⟨_, heq, hproc', hinit', hkeys⟩
    · rw [heq]
      simp only
      rw [setProc_eq]
      refine ⟨h.of_proc (hproc.with_pc _) hinit hinit ?_ fun l hl => ?_, by simp⟩
      · simp [Waits, setProc_proc_self]
      · rwa [claims_idle hpc] at hl
    · rw [heq]
      simp only [if_neg hdest]
      rw [setProc_eq]
      obtain ⟨hstart, hlast, -⟩ := hproc.next hr
      refine ⟨h.of_proc (hproc'.with_pc _) hinit (hinit'.trans hinit) ?_ fun l hl => ?_, by simp⟩
      · simpa [Waits, setProc_proc_self] using hdest
      · rw [claims_idle hpc] at hl
        exact ⟨r.key, _, hl.trans (keys_perm hr), ⟨hstart, hlast⟩, hkeys⟩

/-- A process is in `get_new_id` only after it has been started. -/
theorem InvAt.initialized (h : InvAt s p) (hpc : (s.proc p).pc ≠ .idle) :
    (s.proc p).initialized = true := by
  by_contra hnot
  exact hpc (h.notStarted (Bool.eq_false_iff.2 hnot)).2

/-- A step that only changes what `get_new_id` waits for. -/
theorem Inv.set_pc (h : Inv s) (pc : Pc) (hinit : (s.proc p).initialized = true)
    (hwaits : Waits (s.setProc p { s.proc p with pc := pc }) p)
    (hclaims : ∀ l, Claims (s.proc p) l → Claims { s.proc p with pc := pc } l) :
    Inv (s.setProc p { s.proc p with pc := pc }) := by
  rw [setProc_eq] at hwaits ⊢
  exact h.of_proc ((h.each p).proc.with_pc pc) hinit hinit hwaits hclaims

/-- `get_new_id`, when the process has a range or asks for one. -/
theorem Inv.getNewId_good (h : Inv s) (hinit : (s.proc p).initialized = true)
    (hpc : (s.proc p).pc = .idle) (dest : Nat) (memory : Bool) :
    Good s (s.getNewId p dest memory) := by
  rw [State.getNewId]
  cases hr : (s.proc p).lastRange with
  | some r => exact h.take_good hinit hpc hr dest memory
  | none =>
    cases memory with
    | false => exact ⟨h, by simp⟩
    | true =>
      refine ⟨h.set_pc _ hinit ?_ fun l hl => ?_, by simp⟩
      · simpa [Waits, setProc_proc_self] using hr
      · rwa [claims_idle hpc] at hl

variable {out : Outcome}

variable (h : Inv s)

include h

/-- The leader hands out a range. -/
theorem Inv.allocRange_good (memory : Bool)
    (hout : step s (.allocRange p memory) = some out) : Good s out := by
  rw [step] at hout
  split at hout
  case h_2 => cases hout
  case h_1 dest hpc =>
    have hinit := (h.each p).initialized (by simp [hpc])
    have hwaits := (h.each p).waits
    simp only [Waits, hpc] at hwaits
    cases memory with
    | false =>
      cases hout
      refine ⟨h.set_pc _ hinit ?_ fun l hl => ?_, by simp⟩
      · simpa [Waits, setProc_proc_self] using hwaits
      · rwa [Claims, hpc] at hl
    | true =>
      rcases h.leader.allocIdRange_spec ((h.each p).started hinit) with
        heq | ⟨leader, k, heq, hleader, hperm, hvalid⟩
      · simp only [heq] at hout
        cases hout
        exact rfl
      simp only [heq] at hout
      cases hout
      have hkeys : ∀ q, (keysOf leader.tree q).Perm
          ((if p = q then [k] else []) ++ keysOf s.leader.tree q) := by
        intro q
        refine (keysFor_perm _ _ hperm q).trans ?_
        rw [keysFor_cons]
        exact .refl _
      refine ⟨h.frame (p := p) hleader h.transit (fun q hq => ?_) ?_, by simp⟩
      · refine ⟨update_of_ne hq _ _, rfl, fun _ _ => id, fun l hl => ?_⟩
        have := hkeys q
        rw [if_neg (Ne.symm hq)] at this
        exact this.trans hl
      obtain ⟨l, hl, hclaims⟩ := (h.each p).owned
      rw [Claims, hpc] at hclaims
      refine .of_started (update_self ..) rfl ((h.each p).proc.with_pc _) hinit
        ((h.each p).started hinit) ?_ ⟨k :: l, ?_, hclaims.cons k, hvalid⟩
      · simpa [Waits, setProc_proc_self] using hwaits
      · have := hkeys p
        rw [if_pos rfl] at this
        exact this.trans ((hl.cons k).trans (perm_front [k] _ _ l))

/-- The process gets the range that it has asked for. -/
theorem Inv.gotRange_good (memory : Bool)
    (hout : step s (.gotRange p memory) = some out) : Good s out := by
  rw [step] at hout
  split at hout
  case h_3 => cases hout
  case h_1 dest hpc =>
    have hinit := (h.each p).initialized (by simp [hpc])
    cases hout
    refine ⟨h.set_pc _ hinit ?_ fun l hl => ?_, by simp⟩
    · simp [Waits, setProc_proc_self]
    · rwa [Claims, hpc] at hl
  case h_2 dest start last hpc =>
    have hinit := (h.each p).initialized (by simp [hpc])
    have hnone := (h.each p).waits
    simp only [Waits, hpc] at hnone
    obtain ⟨l, hl, hclaims⟩ := (h.each p).owned
    rw [Claims, hpc] at hclaims
    obtain ⟨hperm, hvalid⟩ := hclaims
    rw [if_neg (by rw [hvalid]; exact not_not.2 rfl)] at hout
    cases hout
    obtain ⟨hle, -, hpos⟩ := validRange_iff.1 hvalid
    -- the leader's ranges are apart, and the process has the others
    have hkeys : (s.proc p).keys = (s.proc p).used.map Range.key := by
      rw [Proc.keys, ranges_eq hnone]
    have hapart : ((start, last) :: (s.proc p).keys).Pairwise Apart :=
      (hperm.pairwise_iff Apart.symm).1 (pairwise_append.1 (pairwise_append.1
        ((hl.pairwise_iff Apart.symm).1 (keysOf_apart h.leader.ordered p))).2.1).2.1
    have hproc := (h.each p).proc.add_range hnone (k := (start, last)) hpos hle fun u hu =>
      (pairwise_cons.1 hapart).1 _ (hkeys ▸ mem_map_of_mem hu)
    have hinv : Inv (s.setProc p { s.proc p with
        lastRange := some ⟨start, last, 0⟩, lastUsedId := start - 1, pc := .idle }) := by
      rw [setProc_eq]
      refine h.of_proc hproc hinit hinit ?_ fun l hl => ?_
      · simp [Waits, setProc_proc_self]
      · rw [Claims, hpc] at hl
        rw [hkeys] at hl
        exact hl.1.trans (List.Perm.symm (keys_perm (r := ⟨start, last, 0⟩) rfl))
    have hself := setProc_proc_self s p { s.proc p with
      lastRange := some ⟨start, last, 0⟩, lastUsedId := start - 1, pc := .idle }
    have hgood := hinv.take_good (p := p) (r := ⟨start, last, 0⟩) (by rw [hself]; exact hinit)
      (by rw [hself]) (by rw [hself]) dest memory
    exact hgood

/-- An id changes its owner at the leader. -/
theorem Inv.changeOwner_good (hout : step s (.changeOwner p) = some out) : Good s out := by
  rw [step] at hout
  split at hout
  case h_2 => cases hout
  case h_1 id dest hpc =>
    have hinit := (h.each p).initialized (by simp [hpc])
    have hdest := (h.each p).waits
    simp only [Waits, hpc] at hdest
    obtain ⟨_, hl, hclaims⟩ := (h.each p).owned
    rw [Claims, hpc] at hclaims
    obtain ⟨k, others, hk, hid, hparts⟩ := hclaims
    have hr : ownedBy p k ∈ s.leader.tree :=
      mem_keysOf.1 (hl.mem_iff.2 (mem_append_right _ (mem_append_right _
        (hk.mem_iff.2 mem_cons_self))))
    obtain ⟨tree, heq, hleader, hperm⟩ := h.leader.changeIdOwner_spec hr (has_iff.2 hid) dest
    simp only [heq] at hout
    cases hout
    -- the ranges of every process, before and after
    have hbefore : ∀ q, (keysOf s.leader.tree q).Perm
        ((if p = q then [k] else []) ++ keysOf (s.leader.tree.erase (ownedBy p k)) q) :=
      fun q => keysFor_erase Range.tag Range.key hr q
    have hafter : ∀ q, (keysOf tree q).Perm ((if dest = q then [(id, id)] else []) ++
        ((if p = q then parts k id else []) ++ keysOf (s.leader.tree.erase (ownedBy p k)) q)) := by
      intro q
      refine (keysFor_perm _ _ hperm q).trans ?_
      rw [keysFor_cons, keysFor_append]
      exact ((List.Perm.of_eq (keysOf_ownedBy _ _ _)).append_right _).append_left _
    have htransit : ∀ q, transitKeys (⟨id, dest, some p⟩ :: s.transit) q =
        (if dest = q then [(id, id)] else []) ++ transitKeys s.transit q :=
      fun q => keysFor_cons _ _ _ _ _
    refine ⟨h.frame (p := p) hleader ?_ (fun q hq => ?_) ?_, by simp⟩
    · intro t ht
      rcases mem_cons.1 ht with rfl | ht
      · exact hdest
      · exact h.transit t ht
    · refine ⟨update_of_ne hq _ _, rfl, fun _ _ => mem_cons_of_mem _,
        fun l' hl' => ?_⟩
      have hbefore := hbefore q
      have hafter := hafter q
      rw [if_neg (Ne.symm hq)] at hbefore hafter
      rw [htransit, append_assoc]
      exact hafter.trans ((hbefore.symm.trans hl').append_left _)
    · refine .of_started (update_self ..) rfl ((h.each p).proc.with_pc _) hinit
        ((h.each p).started hinit) ?_ ⟨parts k id ++ others, ?_, hparts.symm⟩
      · simp [Waits, setProc_proc_self]
      have hbefore := hbefore p
      have hafter := hafter p
      rw [if_pos rfl] at hbefore hafter
      rw [htransit, append_assoc]
      refine hafter.trans (List.Perm.append_left _ ?_)
      have hrest : (k :: keysOf (s.leader.tree.erase (ownedBy p k)) p).Perm
          (k :: (transitKeys s.transit p ++ (releaseKeys s.releases p ++ others))) :=
        (hbefore.symm.trans (hl.trans ((hk.append_left _).append_left _))).trans
          (perm_front [k] _ _ others).symm
      exact (hrest.cons_inv.append_left _).trans (perm_front _ _ _ _)

/-- An id is sent to one process only. -/
theorem Inv.transit_unique {t t' : Transit} (ht : t ∈ s.transit) (ht' : t' ∈ s.transit)
    (hid : t.id = t'.id) : t = t' := by
  have hdest : t.dest = t'.dest :=
    h.owner_unique (h.owns_of_transit ht) (hid ▸ h.owns_of_transit ht')
  obtain ⟨l, hperm, -⟩ := (h.each t'.dest).owned
  have hapart := (pairwise_append.1
    ((hperm.pairwise_iff Apart.symm).1 (keysOf_apart h.leader.ordered t'.dest))).1
  rw [transitKeys, keysFor, pairwise_map] at hapart
  have hsymm : Std.Symm fun a b : Transit => Apart (a.id, a.id) (b.id, b.id) :=
    ⟨fun _ _ hab => hab.symm⟩
  by_contra hne
  have := hapart.forall (mem_filter.2 ⟨ht, decide_eq_true hdest⟩)
    (mem_filter.2 ⟨ht', decide_eq_true rfl⟩) hne
  unfold Apart at this
  omega

/-- `get_new_id` returns the ID it has moved. -/
theorem Inv.gotOwner_good (hout : step s (.gotOwner p) = some out) : Good s out := by
  rw [step] at hout
  split at hout
  case h_2 => cases hout
  case h_1 id dest hpc =>
    have hinit := (h.each p).initialized (by simp [hpc])
    have hmem := (h.each p).waits
    simp only [Waits, hpc] at hmem
    cases hout
    let arrive : Transit → Transit := fun t =>
      if t = ⟨id, dest, some p⟩ then ⟨id, dest, none⟩ else t
    have harrive : ∀ t, (arrive t).id = t.id ∧ (arrive t).dest = t.dest := by
      intro t
      show (if t = ⟨id, dest, some p⟩ then _ else t).id = _ ∧
        (if t = ⟨id, dest, some p⟩ then _ else t).dest = _
      split_ifs with ht
      · rw [ht]
        exact ⟨rfl, rfl⟩
      · exact ⟨rfl, rfl⟩
    have hkeys : ∀ q, transitKeys (s.transit.map arrive) q = transitKeys s.transit q := by
      intro q
      exact keysFor_map _ _ (fun t => (harrive t).2) (fun t => by rw [(harrive t).1]) _ _
    refine ⟨h.frame (p := p) h.leader ?_ (fun q hq => ?_) ?_, ?_⟩
    · intro t ht
      obtain ⟨t0, ht0, rfl⟩ := mem_map.1 ht
      exact (harrive t0).2 ▸ h.transit t0 ht0
    · refine ⟨update_of_ne hq _ _, rfl, fun id' dest' ht => ?_, fun l hl => ?_⟩
      · refine mem_map.2 ⟨_, ht, if_neg ?_⟩
        simp [hq]
      · rwa [hkeys]
    · obtain ⟨l, hl, hclaims⟩ := (h.each p).owned
      rw [Claims, hpc] at hclaims
      refine .of_started (update_self ..) rfl ((h.each p).proc.with_pc _) hinit
        ((h.each p).started hinit) ?_ ⟨l, ?_, hclaims⟩
      · simp [Waits, setProc_proc_self]
      · rwa [hkeys]
    · rintro _ ⟨⟩
      refine ⟨fun q hq => ?_, fun t ht htid => ?_⟩
      · obtain ⟨u, hu, hhas⟩ := (h.each q).proc.counted.covered _ hq
        exact (h.owns_of_range hu hhas).2 _ hmem rfl
      · rw [h.transit_unique ht hmem htid]
        exact Option.some_ne_none p

/-- An id is released; the last one of a range gives the range back. -/
theorem Inv.release_good (hout : step s (.release p id) = some out) : Good s out := by
  rw [step] at hout
  split at hout
  case isFalse => cases hout
  case isTrue hid =>
    obtain ⟨hpc, hid⟩ := hid
    have hinit : (s.proc p).initialized = true := by
      by_contra hnot
      obtain ⟨u, hu, -⟩ := (h.each p).proc.counted.covered id hid
      rw [((h.each p).notStarted (Bool.eq_false_iff.2 hnot)).1] at hu
      cases hu
    obtain ⟨proc', range, heq, hproc', hinit', hpc', hkeys⟩ := (h.each p).proc.releaseId_spec hid
    simp only [heq] at hout
    cases hout
    have hreleases : ∀ q, releaseKeys (range.toList.map (p, ·) ++ s.releases) q =
        (if p = q then range.toList else []) ++ releaseKeys s.releases q := by
      intro q
      cases range with
      | none => simp
      | some k => simp [keysFor_cons]
    refine ⟨h.frame (p := p) h.leader h.transit (fun q hq => ?_) ?_, by simp⟩
    · refine ⟨update_of_ne hq _ _, update_of_ne hq _ _, fun _ _ ht => ht,
        fun l hl => ?_⟩
      rwa [hreleases, if_neg (Ne.symm hq)]
    obtain ⟨l, hl, hclaims⟩ := (h.each p).owned
    rw [claims_idle hpc] at hclaims
    refine .of_started (update_self ..) (update_self ..) hproc'
      (hinit'.trans hinit) ((h.each p).started hinit) ?_
      ⟨proc'.keys, ?_, (claims_idle (hpc'.trans hpc)).2 (.refl _)⟩
    · simp [Waits, setProc_proc_self, hpc'.trans hpc]
    · rw [hreleases, if_pos rfl, append_assoc]
      refine hl.trans (List.Perm.append_left _ ?_)
      exact ((hclaims.trans hkeys).append_left _).trans (perm_append_comm_assoc _ _ _)

/-- The leader takes a range back. -/
theorem Inv.releaseRange_good {range : Nat × Nat}
    (hout : step s (.releaseRange p range) = some out) : Good s out := by
  rw [step] at hout
  split at hout
  case isFalse => cases hout
  case isTrue hmem =>
    obtain ⟨_, hl, _⟩ := (h.each p).owned
    have hr : ownedBy p range ∈ s.leader.tree :=
      mem_keysOf.1 (hl.mem_iff.2 (mem_append_right _ (mem_append_left _
        ((mem_keysFor _ _).2 ⟨_, hmem, rfl, rfl⟩))))
    obtain ⟨heq, hleader⟩ := h.leader.releaseIdRange_spec hr
    have heq : releaseIdRange s.leader.tree range.1 range.2 =
      .ok (s.leader.tree.erase (ownedBy p range)) := heq
    simp only [heq] at hout
    cases hout
    refine ⟨⟨hleader, h.transit, fun q => (h.each q).frame ⟨rfl, rfl, fun _ _ => id, ?_⟩⟩, by simp⟩
    intro l' hl'
    have htree := keysFor_erase Range.tag Range.key hr q
    have hreleases : (releaseKeys s.releases q).Perm
        ((if p = q then [range] else []) ++ releaseKeys (s.releases.erase (p, range)) q) :=
      keysFor_erase Prod.fst Prod.snd hmem q
    -- the same range is taken out on both sides
    refine (perm_append_left_iff (if p = q then [range] else [])).1 ?_
    refine htree.symm.trans (hl'.trans ?_)
    refine ((hreleases.append_right l').append_left _).trans ?_
    rw [append_assoc]
    exact perm_append_comm_assoc _ _ _

/-- A process that starts takes over the id that was sent to it. -/
theorem Inv.init_good (hout : step s (.init p id) = some out) : Good s out := by
  rw [step] at hout
  split at hout
  case isFalse => cases hout
  case isTrue hmem =>
    obtain ⟨hinit, hmem⟩ := hmem
    obtain ⟨hranges, hpc⟩ := (h.each p).notStarted hinit
    obtain ⟨hused, hlast⟩ := append_eq_nil_iff.1 hranges
    have hlast : (s.proc p).lastRange = none := Option.toList_eq_nil_iff.1 hlast
    cases hout
    have hproc : ProcInv { s.proc p with
        initialized := true
        used := insertRange ⟨id, id, 1⟩ (s.proc p).used } [id] := by
      refine .of_used (r := ⟨id, id, 1⟩) (h.each p).proc.ordered (le_refl id)
        (by simp [hused]) ?_ (nodup_singleton id) rfl hlast
      rw [hused]
      refine ⟨fun r hr => ?_, fun x hx => ⟨_, mem_cons_self, ?_⟩⟩
      · obtain rfl := mem_singleton.1 hr
        simp [Range.has]
      · obtain rfl := mem_singleton.1 hx
        exact has_iff.2 ⟨le_rfl, le_rfl⟩
    have hkeys : ∀ q, (transitKeys s.transit q).Perm
        ((if p = q then [(id, id)] else []) ++ transitKeys (s.transit.erase ⟨id, p, none⟩) q) :=
      fun q => keysFor_erase Transit.dest (fun t => (t.id, t.id)) hmem q
    refine ⟨h.frame (p := p) h.leader (fun t ht => h.transit t (mem_of_mem_erase ht))
      (fun q hq => ?_) ?_, by simp⟩
    · refine ⟨update_of_ne hq _ _, update_of_ne hq _ _, fun id' dest ht => ?_,
        fun l hl => ?_⟩
      · exact (mem_erase_of_ne (by simp)).2 ht
      · have := hkeys q
        rw [if_neg (Ne.symm hq)] at this
        exact hl.trans (this.append_right _)
    · obtain ⟨l, hl, hclaims⟩ := (h.each p).owned
      rw [claims_idle hpc] at hclaims
      refine .of_started (update_self ..) (update_self ..) hproc rfl
        (h.transit _ hmem) ?_ ⟨[(id, id)], ?_, (claims_idle ?_).2 ?_⟩
      · simp [Waits, setProc_proc_self, hpc]
      · have := hkeys p
        rw [if_pos rfl] at this
        have hnil : l = [] := by
          rw [Proc.keys, hranges] at hclaims
          exact hclaims.eq_nil
        rw [hnil] at hl
        refine hl.trans ((this.append_right _).trans ?_)
        exact perm_front [(id, id)] _ _ []
      · exact hpc
      · simp only [hused, hlast]
        exact .refl _

/-- **Every step keeps the invariant and hands out only fresh ids.** -/
theorem Inv.step_good {label : Label} (hout : step s label = some out) : Good s out := by
  cases label with
  | getNewId p dest memory =>
    rw [step] at hout
    split at hout
    case isFalse => cases hout
    case isTrue hp =>
      cases hout
      exact h.getNewId_good hp.1 hp.2 dest memory
  | allocRange p memory => exact h.allocRange_good memory hout
  | gotRange p memory => exact h.gotRange_good memory hout
  | changeOwner p => exact h.changeOwner_good hout
  | gotOwner p => exact h.gotOwner_good hout
  | release p id => exact h.release_good hout
  | releaseRange p range => exact h.releaseRange_good hout
  | init p id => exact h.init_good hout

omit h

/-! ## The result -/

/-- The IDs of the processes in a state, and what the next step does. -/
structure Unique (s : State) : Prop where
  /-- The leader's ranges have no ID in common. -/
  apart : s.leader.tree.Pairwise fun a b => ∀ id, ¬ (a.has id = true ∧ b.has id = true)
  /-- An ID in use is in the ranges of exactly one process, which owns it. -/
  used : ∀ p, ∀ id ∈ s.held p, findIdOwner s.leader.tree id = p ∧
    ∀ q, (∃ r ∈ (s.proc q).ranges, r.has id = true) ↔ q = p
  /-- An ID on its way belongs to the new process, and is in nobody's ranges. -/
  moved : ∀ t ∈ s.transit, findIdOwner s.leader.tree t.id = t.dest ∧
    ∀ q, ∀ r ∈ (s.proc q).ranges, r.has t.id = false
  /-- Only the end of the IDs is a `BUG()`, and only unused IDs are returned. -/
  next : ∀ label out, step s label = some out →
    out = .error .pidMax ∨ ∃ s' ret, out = .ok (s', ret) ∧ ∀ id ∈ ret, Fresh s id

theorem Inv.unique (h : Inv s) : Unique s where
  apart := by
    refine h.leader.ordered.apart.imp fun {a b} hab id hid => ?_
    rw [has_iff, has_iff] at hid
    omega
  used p id hid := by
    obtain ⟨u, hu, hhas⟩ := (h.each p).proc.counted.covered id hid
    have howns := (h.owns_of_range hu hhas).1
    refine ⟨h.findIdOwner_eq howns, fun q => ⟨?_, ?_⟩⟩
    · rintro ⟨r, hr, hhas⟩
      exact h.owner_unique (h.owns_of_range hr hhas).1 howns
    · rintro rfl
      exact ⟨u, hu, hhas⟩
  moved t ht := by
    refine ⟨h.findIdOwner_eq (h.owns_of_transit ht), fun q r hr => ?_⟩
    rw [Bool.eq_false_iff]
    intro hhas
    exact (h.owns_of_range hr hhas).2 t ht rfl
  next label out hout := by
    have hgood := h.step_good hout
    match out, hgood with
    | .error bug, hbug => exact .inl (congrArg Except.error hbug)
    | .ok (s', ret), ⟨_, hfresh⟩ => exact .inr ⟨s', ret, rfl, hfresh⟩

theorem inv_of_reachable (hr : Transition.Reachable Initial Step s) : Inv s := by
  refine hr.invariant ?_ ?_
  · intro s h
    exact .initial h
  · rintro s label s' h ⟨_, hs⟩
    exact (h.step_good hs).1

/-- **Process IDs are unique**: in every reachable state of any number of processes and the
leader, an ID in use is in the ranges of one process only and the leader has it as the owner, and
the next step neither returns an ID that is in use nor ends in a `BUG()`, other than the one at
`PID_MAX`. -/
theorem ids_unique (hr : Transition.Reachable Initial Step s) : Unique s :=
  (inv_of_reachable hr).unique

theorem reachable_empty : Transition.Reachable Initial Step
    ⟨⟨[], 0⟩, fun p => Proc.empty (p = startingVmid), [], fun _ => [], []⟩ :=
  .init ⟨rfl, fun _ => rfl, rfl, fun _ => rfl, rfl⟩

/-- The first process takes an ID and moves the next one to a new process. -/
theorem ids_unique_moved : ∃ s, Transition.Reachable Initial Step s ∧ 1 ∈ s.held 1 ∧ 2 ∈ s.held 2 ∧
      findIdOwner s.leader.tree 1 = 1 ∧ findIdOwner s.leader.tree 2 = 2 := by
  have h1 := reachable_empty.step (Label.getNewId 1 0 true) ⟨none, rfl⟩
  have h2 := h1.step (Label.allocRange 1 true) ⟨none, rfl⟩
  have h3 := h2.step (Label.gotRange 1 true) ⟨some 1, rfl⟩
  have h4 := h3.step (Label.getNewId 1 2 true) ⟨none, rfl⟩
  have h5 := h4.step (Label.changeOwner 1) ⟨none, rfl⟩
  have h6 := h5.step (Label.gotOwner 1) ⟨some 2, rfl⟩
  have h7 := h6.step (Label.init 2 2) ⟨none, rfl⟩
  have hunique := ids_unique h7
  have hone : 1 ∈ [1] := mem_cons_self
  have htwo : 2 ∈ [2] := mem_cons_self
  exact ⟨_, h7, hone, htwo, (hunique.used 1 1 hone).1, (hunique.used 2 2 htwo).1⟩

/-- **The leader and a process agree on its ranges** whenever none is on its way to the process or
back and the process is not in `get_new_id`. -/
theorem leader_agrees (hr : Transition.Reachable Initial Step s) (hidle : (s.proc p).pc = .idle)
    (hback : ∀ r ∈ s.releases, r.1 ≠ p) (hmoved : ∀ t ∈ s.transit, t.dest ≠ p) :
    (keysOf s.leader.tree p).Perm (s.proc p).keys := by
  obtain ⟨l, hl, hclaims⟩ := ((inv_of_reachable hr).each p).owned
  have htransit : transitKeys s.transit p = [] := by
    simpa [transitKeys, keysFor] using hmoved
  have hreleases : releaseKeys s.releases p = [] := by
    simpa [releaseKeys, keysFor] using hback
  rw [htransit, hreleases] at hl
  exact hl.trans ((claims_idle hidle).1 hclaims)

theorem leader_agrees_first : ∃ s, Transition.Reachable Initial Step s ∧
    (keysOf s.leader.tree 1).Perm [(1, 32)] := by
  have h1 := reachable_empty.step (Label.getNewId 1 0 true) ⟨none, rfl⟩
  have h2 := h1.step (Label.allocRange 1 true) ⟨none, rfl⟩
  have h3 := h2.step (Label.gotRange 1 true) ⟨some 1, rfl⟩
  exact ⟨_, h3, leader_agrees h3 rfl (forall_mem_nil _) (forall_mem_nil _)⟩

end Pid
