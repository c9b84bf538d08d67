import Gramine.VmaChange

/-!
# The bookkeeping is consistent

Whatever sequence of calls is made, the tree holds disjoint ranges in order, and the
total size is the sum of their sizes. Between calls no object is in the hands of a
function (`Rest`); a call starts from there, and each of the specifications of the single
functions leads back to it. `Op.faults` names the assertions a call can still stop at.
-/

open IntervalList List

namespace Vma

variable {Addr : Type} [DecidableEq Addr] {s s' : State Addr} {l taken : List Addr} {a : Addr}
  {pal : PalPublicState}

/-! ## Between calls -/

/-- The invariant between two calls: all objects are in the tree, in a cache or in the
memory manager. -/
structure Rest (s : State Addr) (l : List Addr) : Prop where
  inv : Inv s l []
  pool : Pool { s with pal := [] } l

section
omit [DecidableEq Addr]

theorem Rest.initial (h : Initial s) : Rest s [] := by
  obtain ⟨hroot, hnodes⟩ := h.tree
  refine ⟨⟨⟨⟨.nil, ⟨hroot, trivial, nodup_nil, trivial⟩, rfl⟩, ?_⟩, nodup_nil,
    Ordered.nil, by simp, h.total, h.numMmapped⟩, fun t => ?_, fun t t' _ => ?_, h.areas, by simp⟩
  · rw [hnodes]
  · simpa [State.spare, h.caches t] using h.objects
  · simp only [h.caches t]
    exact disjoint_nil_left _

theorem Rest.start {call : Call Addr} (h : Rest s l) (hfresh : call.Fresh s) :
    Settled call.env { s with pal := call.areas } := by
  refine ⟨l, h.inv.congr rfl rfl rfl rfl, fun t => ?_, h.pool.caches, h.pool.areas, hfresh.nonempty⟩
  have hold : (s.cache t ++ (s.mgr.objects ++ l)).Nodup := by
    simpa [State.spare] using h.pool.nodup t
  have hdisj : (call.env.tmpVma :: call.areas.reduceOption.flatten).Disjoint
      (s.cache t ++ (s.mgr.objects ++ l)) := by
    intro x hx hmem
    refine hfresh.notInUse x hx ?_
    simp only [mem_append] at hmem
    rcases hmem with hmem | hmem | hmem
    · exact .inr (.inl ⟨t, hmem⟩)
    · exact .inr (.inr hmem)
    · exact .inl (h.inv.tree.nodes.mem_iff.1 hmem)
  have hperm : (s.cache t ++ (s.mgr.objects ++ call.areas.reduceOption.flatten ++
      ([call.env.tmpVma] ++ (l ++ [])))).Perm
      ((call.env.tmpVma :: call.areas.reduceOption.flatten) ++
        (s.cache t ++ (s.mgr.objects ++ l))) := by
    simp only [append_assoc, append_nil]
    refine ((perm_middle.append_left _).append_left _).trans ?_
    refine (perm_middle.append_left _).trans (perm_middle.trans (List.Perm.cons _ ?_))
    exact ((perm_append_comm_assoc ..).append_left _).trans (perm_append_comm_assoc ..)
  exact hperm.nodup_iff.2 (nodup_append'.2 ⟨hfresh.nodup, hold, hdisj⟩)

/-- At the end of a call, what the PAL did not give out is forgotten. -/
theorem Settled.rest {env : Env Addr} (h : Settled env s) : ∃ l, Rest s l := by
  obtain ⟨l, hl⟩ := h
  refine ⟨l, hl.inv, fun t => ?_, hl.pool.caches, hl.pool.areas, by simp⟩
  refine (hl.pool.nodup t).sublist (List.Sublist.append_left ?_ _)
  refine List.Sublist.append (List.Sublist.append_left (nil_sublist _) _) ?_
  simp

end

/-! ## One call -/

omit [DecidableEq Addr] in
theorem Pool.add (h : Pool s taken) (hspare : a ∉ s.spare) (htaken : a ∉ taken)
    (hcache : ∀ t, a ∉ s.cache t) : Pool s (a :: taken) := by
  refine ⟨fun t => ?_, h.caches, h.areas, h.pal⟩
  have hperm : (s.cache t ++ (s.spare ++ a :: taken)).Perm
      (a :: (s.cache t ++ (s.spare ++ taken))) :=
    (perm_middle.append_left _).trans perm_middle
  rw [hperm.nodup_iff, nodup_cons]
  refine ⟨?_, h.nodup t⟩
  simp only [mem_append, not_or]
  exact ⟨hcache t, hspare, htaken⟩

/-- **`_bkeep_initial_vma`**: the new vma is put in the tree, if there is room. -/
theorem initialVma_spec {begin stop : Nat} {prot : Flags} {comment : List UInt8} {env : Env Addr}
    (h : Rest s l) (ha : ¬ s.InUse a) (hlt : begin < stop) (hbound : stop < 2 ^ 64) :
    Runs [] ((Op.initialVma a begin stop prot comment).run pal env s)
      fun _ s' => ∃ l, Rest s' l := by
  have hal : a ∉ l := fun hmem => ha (.inl (h.inv.tree.nodes.mem_iff.1 hmem))
  have hpool : Pool { s with pal := [] } (a :: l) := by
    refine h.pool.add ?_ hal fun t hmem => ha (.inr (.inl ⟨t, hmem⟩))
    simp only [State.spare, reduceOption_nil, flatten_nil, append_nil]
    exact fun hmem => ha (.inr (.inr hmem))
  simp only [Op.run]
  rw [modifyVma_bind]
  generalize hv : (⟨begin, stop, prot, mapPrivate ||| mapAnonymous ||| vmaInternal, none, 0,
    copyComment comment⟩ : LibosVma) = v
  generalize hs1 : { s with vma := Function.update s.vma a v } = s1
  have hva : s1.vma a = v := by
    rw [← hs1]
    exact Function.update_self ..
  have hinv : Inv s1 l [a] := by
    rw [← hs1]
    refine h.inv.addOutside (by simpa using hal) (by rw [Function.update_self, ← hv]; rfl)
      (fun x hx => Function.update_of_ne hx _ _) h.inv.tree
  have hpool1 : Pool { s1 with pal := [] } (a :: l) := by
    rw [← hs1]
    exact hpool.same ⟨rfl, rfl, rfl⟩
  obtain ⟨r, hlookup, hroom⟩ := lookupVma_room hinv v.begin v.stop
  rw [bkeepInitialVma, bind_assoc, getVma_bind, hva, bind_assoc, bind_of_ok hlookup, bind_assoc,
    get_bind]
  by_cases hany : ∃ b ∈ r, (s1.vma b).begin < v.stop
  · rw [if_pos hany]
    refine ⟨l, hinv.dropOutside ?_, hpool1.sublist (sublist_cons_self _ _)⟩
    rw [hva, ← hv]
    rfl
  rw [if_neg hany]
  obtain ⟨l1, l2, rfl, h1, h2⟩ := hinv.room_split (hroom hany)
  obtain ⟨t, s2, hins, hadd, hinv2, hsame, -⟩ := hinv.insert hva (by rw [← hv]; exact hlt)
    (by rw [← hv]; exact hbound) h1 h2
  have hrun : (do
      treeCall (.insert a)
      totalMemorySizeAdd (v.stop - v.begin)
      pure (.ok ()) : M Addr (Except Errno Unit)) s1 = .ok (.ok ()) s2 :=
    (bind_of_ok hins).trans (bind_of_ok hadd)
  rw [bind_of_ok hrun]
  exact ⟨_, hinv2, (hpool1.perm perm_middle.symm).same ⟨hsame.cache, hsame.mgr, rfl⟩⟩

/-- The assertions that a call may stop at: the one on the alignment of an area for vmas, when a
vma is allocated, and `assert(next)` when flags are changed. -/
def Op.faults : Op Addr → List Fault
  | .mmapFixed .. | .mmapAnyInRange .. | .munmap .. => [.alignment]
  | .mprotect .. => [.noNextVma, .alignment]
  | _ => []

omit [DecidableEq Addr] in
theorem Op.faults_subset (op : Op Addr) : op.faults ⊆ [.noNextVma, .alignment] := by
  cases op <;> simp [Op.faults]

/-- **Every call** keeps the bookkeeping consistent. -/
theorem exec_spec {call : Call Addr} (h : Rest s l) (hlegal : Legal pal s call) :
    Runs call.op.faults (exec pal call s) fun _ s' => ∃ l, Rest s' l := by
  obtain ⟨hop, hfresh⟩ := hlegal
  have hstart := h.start hfresh
  have hend : ∀ (faults : List Fault) (α : Type) (x : M Addr α),
      Runs faults (x { s with pal := call.areas }) (fun _ s' => Settled call.env s') →
      Runs faults ((x >>= fun _ => pure ()) { s with pal := call.areas })
        fun _ s' => ∃ l, Rest s' l :=
    fun faults α x hx => hx.bind fun _ s' hs' => hs'.rest
  rw [exec, modify_bind]
  cases hcall : call.op with
  | initialVma a begin stop prot comment =>
    rw [hcall] at hop
    exact initialVma_spec ⟨h.inv.congr rfl rfl rfl rfl, h.pool.same ⟨rfl, rfl, rfl⟩⟩ hop.1 hop.2.1
      hop.2.2
  | receiveUserMemory =>
    exact ⟨l, h.inv.congr rfl rfl rfl rfl, h.pool.same ⟨rfl, rfl, rfl⟩⟩
  | mmapFixed addr length map =>
    rw [hcall] at hop
    exact hend _ _ _ (bkeepMmapFixed_spec hstart hop.1 hop.2)
  | mmapAnyInRange bottomAddr topAddr length map =>
    rw [hcall] at hop
    exact hend _ _ _ ((bkeepMmapAnyInRange_result hstart hop.1 hop.2).mono fun _ _ h => h.settled)
  | mprotect addr length prot isInternal =>
    rw [hcall] at hop
    exact hend _ _ _ (bkeepMprotect_spec prot isInternal hstart hop)
  | munmap addr length isInternal =>
    rw [hcall] at hop
    exact hend _ _ _ (bkeepMunmap_spec isInternal hstart hop)
  | removeTmpVma vma =>
    rw [hcall] at hop
    exact (bkeepRemoveTmpVma_spec hstart hop.1 hop.2).mono fun _ s' hs' => hs'.rest
  | convertTmpVmaToUser vma =>
    rw [hcall] at hop
    exact (bkeepConvertTmpVmaToUser_spec hstart hop.1 hop.2).mono fun _ s' hs' => hs'.rest

/-! ## Every run -/

/-- The vmas in the tree are nonempty, disjoint and in order, and the total size is the
sum of their sizes. -/
def State.Consistent (s : State Addr) : Prop :=
  ∃ t : BinaryTree.BinTree Addr, s.vmaTree.tree.root = t.root? ∧
    AvlTree.Repr s.vmaTree.tree.mem none t ∧
    (∀ a ∈ t.inorder, (s.vma a).begin < (s.vma a).stop) ∧
    t.inorder.Pairwise (fun a b => (s.vma a).stop ≤ (s.vma b).begin) ∧
    s.totalMemorySize = (t.inorder.map fun a => (s.vma a).stop - (s.vma a).begin).sum

omit [DecidableEq Addr] in
theorem Inv.consistent {xs : List Addr} (h : Inv s l xs) : s.Consistent := by
  obtain ⟨t, ht, rfl⟩ := h.tree.tree
  refine ⟨t, ht.root, ht.repr, fun a ha => h.ordered.nonempty _ (mem_map_of_mem ha),
    (Ordered.map_iff.1 h.ordered).apart, ?_⟩
  rw [h.total, size, map_map]
  rfl

/-- **The bookkeeping of vmas is consistent** after every sequence of calls, and each
further call either returns, or stops at the assertion on the alignment of an area or at
`assert(next)` in `_vma_bkeep_change`; the bookkeeping is consistent in both cases. In
particular `total_memory_size_sub` never underflows. -/
theorem bookkeeping_consistent (pal : PalPublicState)
    (hr : Transition.Reachable Initial (Step pal) s) :
    s.Consistent ∧ ∀ call, Legal pal s call → (∃ s', exec pal call s = .ok () s' ∧ s'.Consistent) ∨
      ∃ e s', exec pal call s = .error e s' ∧ (e = .alignment ∨ e = .noNextVma) ∧
        s'.Consistent := by
  have hrest : ∃ l, Rest s l := by
    refine hr.invariant (show ∀ s : State Addr, Initial s → ∃ l, Rest s l from
      fun s hs => ⟨[], Rest.initial hs⟩) ?_
    rintro s call s' ⟨l, hl⟩ ⟨hlegal, hexec⟩
    have hres := exec_spec hl hlegal
    rwa [hexec] at hres
  obtain ⟨l, hl⟩ := hrest
  refine ⟨hl.inv.consistent, fun call hlegal => ?_⟩
  have hres := exec_spec hl hlegal
  cases hexec : exec pal call s with
  | ok u s' =>
    rw [hexec] at hres
    obtain ⟨l', hl'⟩ := hres
    exact .inl ⟨s', rfl, hl'.inv.consistent⟩
  | error e s' =>
    rw [hexec] at hres
    obtain ⟨he, l', xs, hinv⟩ := hres
    have hfault : e = .alignment ∨ e = .noNextVma := by
      simpa [or_comm] using call.op.faults_subset he
    exact .inr ⟨e, s', rfl, hfault, hinv.consistent⟩

/-- Pages of 4 kilobytes. -/
def examplePal : PalPublicState where
  allocAlign := 4096
  memoryAddressStart := 65536
  memoryAddressEnd := 1048576
  sharedAddressStart := 0
  sharedAddressEnd := 0
  earlyLibosMemRangeStart := 0
  earlyLibosMemRangeEnd := 0
  areaSize := 4096
  memory_lt := by decide
  early_lt := by decide
  memory_bound := by decide
  shared_bound := by decide

/-- An empty tree, and some objects. -/
def exampleState : State Nat where
  vmaTree := ⟨⟨none, fun _ => ⟨none, none, none, 0⟩⟩, []⟩
  vma := fun _ => .zero
  totalMemorySize := 0
  peakTotalMemorySize := 0
  numMmapped := fun _ => 0
  cache := fun _ => []
  mgr := ⟨[], [2, 3, 4], []⟩
  receivedUserMemory := true
  pal := []

/-- A call of the first thread. -/
def exampleCall (op : Op Nat) : Call Nat := ⟨⟨0, 0, fun _ => false⟩, [], op⟩

/-- The state a call ends in. -/
def after (s : State Nat) (op : Op Nat) : State Nat :=
  match exec examplePal (exampleCall op) s with
  | .ok _ s' => s'
  | .error _ s' => s'

/-- Whether a call returns. -/
def returns (s : State Nat) (op : Op Nat) : Bool :=
  match exec examplePal (exampleCall op) s with
  | .ok _ _ => true
  | .error _ _ => false

theorem exec_of_returns {s : State Nat} {op : Op Nat} (h : returns s op = true) :
    exec examplePal (exampleCall op) s = .ok () (after s op) := by
  unfold returns at h
  unfold after
  cases hexec : exec examplePal (exampleCall op) s with
  | ok u s' => rfl
  | error e s' =>
    rw [hexec] at h
    cases h

/-- Three pages in use from the start. -/
def exampleInitial : State Nat :=
  after exampleState (.initialVma 1 65536 77824 protRead [])

theorem exampleState_initial : Initial exampleState :=
  ⟨⟨rfl, rfl⟩, rfl, fun _ => rfl, by decide, by decide, fun _ => rfl⟩

theorem exampleInitial_step : Step examplePal exampleState
    (exampleCall (.initialVma 1 65536 77824 protRead [])) exampleInitial := by
  refine ⟨⟨⟨by simp [State.InUse, exampleState, MemMgr.objects], by decide, by decide⟩, ?_⟩,
    exec_of_returns (by decide +kernel)⟩
  exact ⟨by simp [exampleCall], by simp [exampleCall, State.InUse, exampleState, MemMgr.objects],
    by simp [exampleCall]⟩

theorem exampleInitial_fresh (op : Op Nat) : (exampleCall op).Fresh exampleInitial := by
  refine ⟨by simp [exampleCall], ?_, by simp [exampleCall]⟩
  intro a ha
  obtain rfl : a = 0 := by simpa [exampleCall] using ha
  rintro (h | ⟨tid, h⟩ | h)
  · exact absurd h (by decide +kernel)
  · cases h
  · exact absurd h (by decide +kernel)

/-- The page in the middle of three is unmapped: there are three vmas then, one of them
temporary. -/
theorem bookkeeping_consistent_unmapped :
    (after exampleInitial (.munmap 69632 4096 true)).vmaTree.nodes.length = 3 ∧
    (after exampleInitial (.munmap 69632 4096 true)).totalMemorySize = 12288 ∧
    (after exampleInitial (.munmap 69632 4096 true)).Consistent := by
  refine ⟨by decide +kernel, by decide +kernel, (bookkeeping_consistent examplePal
    (.step (exampleCall (.munmap 69632 4096 true))
      (.step _ (.init exampleState_initial) exampleInitial_step)
      ⟨⟨show 69632 + 4096 < 2 ^ 64 by decide, exampleInitial_fresh _⟩,
        exec_of_returns (by decide +kernel)⟩)).1⟩

end Vma
