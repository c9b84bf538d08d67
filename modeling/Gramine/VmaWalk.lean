import Gramine.IntervalWalk
import Gramine.VmaView

/-!
# Walking over the vmas of a range

`_traverse_vmas_in_range` calls a visitor for the vmas that overlap a range, from the lowest
address on, and finds out whether the part of the range it has seen is covered. It serves the check
of pointers that the application passes to system calls, and `madvise(MADV_DONTNEED)`.
-/

open IntervalList IntervalWalk List

namespace Vma

open LibosVma

variable {Addr : Type} [DecidableEq Addr] {σ : Type}

/-! ## The functions -/

/-- `traverse_visitor`: whether to go on, and what becomes of `visitor_arg`. -/
abbrev Visitor (σ : Type) := LibosVma → σ → Bool × σ

/-- The loop of `_traverse_vmas_in_range`. -/
def traverseLoop (stop : Nat) (visitor : Visitor σ) : Nat → Addr → Bool → σ → M Addr (Bool × σ)
  | 0, _, _, _ => throw .tree
  | fuel + 1, vma, isContinuous, arg => do
    let v ← getVma vma
    let (goOn, arg) := visitor v arg
    if goOn = false then pure (isContinuous, arg)
    else do
      let next ← getNextVma vma
      match next with
      | none => pure (isContinuous && stop ≤ v.stop, arg)
      | some next => do
        let w ← getVma next
        if stop ≤ w.begin then pure (isContinuous && stop ≤ v.stop, arg)
        else traverseLoop stop visitor fuel next (isContinuous && v.stop = w.begin) arg

/-- `_traverse_vmas_in_range`. -/
def traverseVmasInRange (begin stop : Nat) (visitor : Visitor σ) (arg : σ) : M Addr (Bool × σ) := do
  assertion (begin ≤ stop) .arguments
  if begin = stop then pure (true, arg)
  else do
    let vma ← lookupVma begin
    match vma with
    | none => pure (false, arg)
    | some vma => do
      let v ← getVma vma
      if stop ≤ v.begin then pure (false, arg)
      else do
        let s ← get
        traverseLoop stop visitor s.fuel vma (v.begin ≤ begin) arg

/-- Memory that the application may use with the protection `prot`. -/
def LibosVma.isOk (prot : Flags) (v : LibosVma) : Bool :=
  !has v.flags (vmaInternal ||| vmaUnmapped) && v.prot &&& prot = prot

/-- `adj_visitor`; the context is `is_ok`. -/
def adjVisitor (prot : Flags) : Visitor Bool := fun v isOk => (v.isOk prot, isOk && v.isOk prot)

/-- `is_in_adjacent_user_vmas`. -/
def isInAdjacentUserVmas (addr length : Nat) (prot : Flags) : M Addr Bool := do
  let stop := (addr + length) % 2 ^ 64
  assertion (addr ≤ stop) .arguments
  let (isContinuous, isOk) ← traverseVmasInRange addr stop (adjVisitor prot) true
  pure (isContinuous && isOk)

def einval : Int := 22
def enosys : Int := 38
def enomem : Int := 12

/-- How `PalVirtualMemoryProtect` answers for the range from an address on. -/
structure ProtectAnswers where
  /-- When it makes the range writable: the error, if any, as `pal_to_unix_errno` gives it. -/
  unprotect : Nat → Option Nat
  /-- Whether it fails to make it as it was. -/
  restoreFails : Nat → Bool

/-- `struct madvise_dontneed_ctx`, with the ranges that were passed to `PalVirtualMemoryProtect` and
`memset`, and whether `BUG()` was reached. -/
structure MadviseCtx where
  error : Int
  touched : List (Nat × Nat)
  bug : Bool
  deriving DecidableEq, Repr

/-- `madvise_dontneed_visitor` for a range. -/
def madviseDontneedVisitor (answers : ProtectAnswers) (begin stop : Nat) : Visitor MadviseCtx :=
  fun v ctx =>
    if has v.flags (vmaUnmapped ||| vmaInternal) then (false, { ctx with error := -einval })
    else if v.file.isSome then
      if has v.flags vmaTainted then (false, { ctx with error := -enosys }) else (true, ctx)
    else
      let zeroStart := max begin v.begin
      let ctx := { ctx with touched := ctx.touched ++ [(zeroStart, min stop v.stop)] }
      if has v.prot protWrite then (true, ctx)
      else
        match answers.unprotect zeroStart with
        | some e => (false, { ctx with error := -e })
        | none =>
          if answers.restoreFails zeroStart then (false, { ctx with bug := true })
          else (true, ctx)

/-- What `madvise_dontneed_range` returns, unless it ends the process, and the ranges it has
touched. -/
structure MadviseResult where
  ret : Option Int
  touched : List (Nat × Nat)
  deriving DecidableEq, Repr

/-- `madvise_dontneed_range`. -/
def madviseDontneedRange (answers : ProtectAnswers) (begin stop : Nat) : M Addr MadviseResult := do
  let (isContinuous, ctx) ←
    traverseVmasInRange begin stop (madviseDontneedVisitor answers begin stop) ⟨0, [], false⟩
  pure ⟨if ctx.bug then none else some (if isContinuous then ctx.error else -enomem), ctx.touched⟩

/-! ## The walk -/

section Walk
variable {s : State Addr} {l l1 l2 xs : List Addr} {a : Addr} {begin stop : Nat}

theorem traverseLoop_eq (visitor : Visitor σ) {fuel : Nat}
    (h : TreeHolds s.vmaTree (l1 ++ a :: l2)) (hfuel : l2.length < fuel) (c : Bool) (arg : σ) :
    traverseLoop stop visitor fuel a c arg s =
      .ok (walk LibosVma.begin LibosVma.stop stop visitor (s.vma a) (l2.map s.vma) c arg) s := by
  induction l2 generalizing l1 a fuel c arg with
  | nil =>
    obtain ⟨fuel, rfl⟩ := Nat.exists_eq_add_of_lt hfuel
    rw [traverseLoop, walk, getVma_bind]
    dsimp only
    split
    · rfl
    · rw [bind_of_ok h.getNextVma]
      rfl
  | cons b l2 ih =>
    obtain ⟨fuel, rfl⟩ : ∃ n, fuel = n + 1 := ⟨fuel - 1, by omega⟩
    rw [traverseLoop, walk, getVma_bind]
    dsimp only
    split
    · rfl
    rw [bind_of_ok h.getNextVma]
    simp only [head?_cons, getVma_bind, map_cons]
    split
    · rfl
    · exact ih (show TreeHolds s.vmaTree ((l1 ++ [a]) ++ b :: l2) by simpa using h)
        (by simpa using hfuel) _ _

/-- The vma contains at least one byte of the range. -/
def LibosVma.Touches (begin stop : Nat) (v : LibosVma) : Prop :=
  ∃ x, begin ≤ x ∧ x < stop ∧ v.Covers x

/-- An address that no vma covers, and that the walk from `begin` gets past: the visitor accepts
the vmas before it. -/
structure State.HoleAt (s : State Addr) (ok : LibosVma → Bool) (begin x : Nat) : Prop where
  uncovered : ∀ v, s.HasVma v → ¬ v.Covers x
  passed : ∀ v, s.HasVma v → v.Touches begin x → ok v = true

/-- The vmas that are visited: all that touch the range, or those up to the first that is
refused. -/
inductive State.Visits (s : State Addr) (ok : LibosVma → Bool) (begin stop : Nat) :
    List LibosVma → Prop
  | accepted {vs : List LibosVma} (hok : ∀ v ∈ vs, ok v = true)
      (hmem : ∀ v, v ∈ vs ↔ s.HasVma v ∧ v.Touches begin stop) : State.Visits s ok begin stop vs
  | refused {vs : List LibosVma} {v : LibosVma} (hok : ∀ w ∈ vs, ok w = true) (hv : s.HasVma v)
      (htouches : v.Touches begin stop) (hrefused : ok v = false)
      (hmem : ∀ w, w ∈ vs ↔ s.HasVma w ∧ w.Touches begin v.begin) :
    State.Visits s ok begin stop (vs ++ [v])

theorem LibosVma.touches_iff {v : LibosVma} (hv : v.begin < v.stop) (hstop : v.begin < stop)
    (hbegin : begin < stop) : v.Touches begin stop ↔ begin < v.stop := by
  constructor
  · rintro ⟨_, hx, -, hcovers⟩
    exact hx.trans_lt hcovers.2
  · intro hlt
    exact ⟨max begin v.begin, le_max_left .., by omega, Nat.le_max_right .., by omega⟩

/-- The vmas that end after `begin`. -/
structure After (s : State Addr) (begin : Nat) (ws : List LibosVma) : Prop where
  ordered : Ordered LibosVma.begin LibosVma.stop ws
  mem : ∀ v, v ∈ ws ↔ s.HasVma v ∧ begin < v.stop

omit [DecidableEq Addr] in
/-- **`_lookup_vma`** leaves the vmas that end after the address. -/
theorem lookupVma_after (hinv : Inv s l xs) (begin : Nat) :
    ∃ l1 l2, l = l1 ++ l2 ∧ After s begin (l2.map s.vma) ∧ lookupVma begin s = .ok l2.head? s := by
  obtain ⟨l1, l2, rfl, h1, h2, hlookup⟩ := hinv.tree.lookupVma hinv.ordered begin
  have hord := hinv.ordered
  rw [map_append, Ordered.append_iff] at hord
  refine ⟨l1, l2, rfl, ⟨hord.2.1, fun v => ?_⟩, hlookup⟩
  rw [hinv.hasVma_iff, map_append, mem_append]
  constructor
  · intro hv
    obtain ⟨x, hx, rfl⟩ := mem_map.1 hv
    exact ⟨.inr hv, h2 x hx⟩
  rintro ⟨hv | hv, _⟩
  · obtain ⟨x, hx, rfl⟩ := mem_map.1 hv
    have := h1 x hx
    omega
  · exact hv

namespace After
variable {ws : List LibosVma} {ok : LibosVma → Bool} {v : LibosVma} {x : Nat}

section
omit [DecidableEq Addr]

theorem holeAt_iff (h : After s begin ws) (hx : begin ≤ x) :
    s.HoleAt ok begin x ↔ Hole LibosVma.begin LibosVma.stop ok ws x := by
  constructor
  · rintro ⟨huncovered, hpassed⟩
    refine ⟨fun w hw hcovers => huncovered w ((h.mem w).1 hw).1 hcovers, fun w hw hlt => ?_⟩
    have hmem := (h.mem w).1 hw
    have hne := h.ordered.nonempty w hw
    refine hpassed w hmem.1 ⟨max begin w.begin, le_max_left .., ?_, Nat.le_max_right .., ?_⟩
    · -- the address itself is not covered, so `begin` lies before it
      rcases eq_or_lt_of_le hx with rfl | hlt'
      · exact absurd ⟨hlt.le, hmem.2⟩ (huncovered w hmem.1)
      · omega
    · omega
  · rintro ⟨huncovered, hpassed⟩
    refine ⟨fun w hw hcovers => ?_, fun w hw ⟨y, hy, hyx, hcovers⟩ => ?_⟩
    · exact huncovered w ((h.mem w).2 ⟨hw, hx.trans_lt hcovers.2⟩) hcovers
    · exact hpassed w ((h.mem w).2 ⟨hw, hy.trans_lt hcovers.2⟩)
        (hcovers.1.trans_lt hyx)

theorem visits {vs : List LibosVma} (h : After s begin ws) (hlt : begin < stop)
    (hended : Ended LibosVma.begin stop ok ws vs) : s.Visits ok begin stop vs := by
  have hne := h.ordered.nonempty
  cases hended with
  | accepted hok hmem =>
    refine .accepted hok fun w => ?_
    rw [hmem, h.mem]
    constructor
    · rintro ⟨⟨hw, hbegin⟩, hstop⟩
      exact ⟨hw, (touches_iff (hne w ((h.mem w).2 ⟨hw, hbegin⟩)) hstop hlt).2 hbegin⟩
    · rintro ⟨hw, x, hx, hxs, hcovers⟩
      exact ⟨⟨hw, hx.trans_lt hcovers.2⟩, hcovers.1.trans_lt hxs⟩
  | @refused vs v hok hv hstop hrefused hmem =>
    have hv' := (h.mem v).1 hv
    refine .refused hok hv'.1 ((touches_iff (hne v hv) hstop hlt).2 hv'.2) hrefused fun w => ?_
    rw [hmem]
    constructor
    · rintro ⟨hw, hbefore⟩
      have hw' := (h.mem w).1 hw
      have := h.ordered.hi_le_lo hw hv hbefore
      exact ⟨hw'.1, (touches_iff (hne w hw) hbefore (by omega)).2 hw'.2⟩
    · rintro ⟨hw, x, hx, hxs, hcovers⟩
      exact ⟨(h.mem w).2 ⟨hw, hx.trans_lt hcovers.2⟩, hcovers.1.trans_lt hxs⟩

end

end After

/-- What a walk gives: the vmas it has visited, and whether it got past a hole. -/
structure Walked (s : State Addr) (ok : LibosVma → Bool) (begin stop : Nat) (isContinuous : Bool)
    (vs : List LibosVma) : Prop where
  visits : s.Visits ok begin stop vs
  continuous : isContinuous = true ↔ ∀ x, begin ≤ x → x < stop → ¬ s.HoleAt ok begin x

variable {ok : LibosVma → Bool}

omit [DecidableEq Addr] in
theorem After.walked {ws vs : List LibosVma} {c : Bool} (h : After s begin ws) (hlt : begin < stop)
    (hended : Ended LibosVma.begin stop ok ws vs)
    (hc : c = true ↔ ∀ x, begin ≤ x → x < stop → ¬ Hole LibosVma.begin LibosVma.stop ok ws x) :
    Walked s ok begin stop c vs := by
  refine ⟨h.visits hlt hended, hc.trans (forall₃_congr fun x hx _ => ?_)⟩
  rw [h.holeAt_iff hx]

/-- **`_traverse_vmas_in_range`.** -/
theorem traverseVmasInRange_spec (hinv : Inv s l xs) (hle : begin ≤ stop) {visitor : Visitor σ}
    (hok : ∀ v arg, (visitor v arg).1 = ok v) (arg : σ) :
    ∃ c vs, traverseVmasInRange begin stop visitor arg s =
        .ok (c, vs.foldl (fun arg v => (visitor v arg).2) arg) s ∧
      Walked s ok begin stop c vs := by
  rw [traverseVmasInRange, assertion_bind hle]
  by_cases heq : begin = stop
  · rw [if_pos heq]
    refine ⟨true, [], rfl, .accepted (by simp) fun v => ?_, fun _ x hx hxs => ?_, fun _ => rfl⟩
    · refine ⟨by simp, fun ⟨_, x, hx, hxs, _⟩ => ?_⟩
      omega
    · omega
  · rw [if_neg heq]
    obtain ⟨l1, l2, rfl, hafter, hlookup⟩ := lookupVma_after hinv begin
    have hlt : begin < stop := by omega
    have hnone (hlate : ∀ w ∈ l2.map s.vma, stop ≤ w.begin) : Walked s ok begin stop false [] := by
      refine hafter.walked hlt (.accepted nofun (mem_nil_of_late hlate)) ?_
      rw [forall_not_hole_late hlate]
      exact ⟨nofun, fun h => absurd hlt h.not_gt⟩
    rw [bind_of_ok hlookup]
    cases l2 with
    | nil => exact ⟨false, [], rfl, hnone nofun⟩
    | cons a l2 =>
      simp only [head?_cons, getVma_bind]
      by_cases hlate : stop ≤ (s.vma a).begin
      · rw [if_pos hlate]
        exact ⟨false, [], rfl, hnone fun w hw => hlate.trans (lo_le_of_mem hafter.ordered hw)⟩
      rw [if_neg hlate, get_bind]
      have ha := not_le.1 hlate
      have hfuel : l2.length < s.fuel := by
        rw [State.fuel, ← hinv.tree.nodes.length_eq]
        simp only [length_append, length_cons]
        omega
      have hbegin := ((hafter.mem (s.vma a)).1 mem_cons_self).2
      rw [traverseLoop_eq visitor hinv.tree hfuel]
      refine ⟨_, _, congrArg (EStateM.Result.ok · s) (Prod.ext rfl (walk_snd hok ..)),
        hafter.walked hlt (visited_ended hafter.ordered ha) ?_⟩
      simpa using walk_fst hok hafter.ordered ha hbegin true arg

end Walk

/-! ## The check of pointers -/

section Check
variable {s : State Addr} {l xs : List Addr} {begin stop : Nat}

theorem has_or (flags m n : Flags) : has flags (m ||| n) = (has flags m || has flags n) := by
  have hdist : flags &&& (m ||| n) = (flags &&& m) ||| (flags &&& n) := BitVec.and_or_distrib_left
  have hzero : (flags &&& m) ||| (flags &&& n) = 0#32 ↔ flags &&& m = 0#32 ∧ flags &&& n = 0#32 :=
    BitVec.or_eq_zero_iff
  rw [Bool.eq_iff_iff, Bool.or_eq_true]
  simp only [has, hdist, decide_eq_true_eq]
  exact (not_congr hzero).trans not_and_or

/-- Memory of the application that can be used with the protection `prot`. -/
structure LibosVma.Usable (prot : Flags) (v : LibosVma) : Prop where
  notInternal : has v.flags vmaInternal = false
  notUnmapped : has v.flags vmaUnmapped = false
  prot : v.prot &&& prot = prot

theorem LibosVma.isOk_iff {prot : Flags} {v : LibosVma} : v.isOk prot = true ↔ v.Usable prot := by
  rw [isOk, has_or, Bool.and_eq_true, Bool.not_eq_true', Bool.or_eq_false_iff, decide_eq_true_eq]
  exact ⟨fun ⟨⟨h1, h2⟩, h3⟩ => ⟨h1, h2, h3⟩, fun ⟨h1, h2, h3⟩ => ⟨⟨h1, h2⟩, h3⟩⟩

theorem foldl_adjVisitor (prot : Flags) (vs : List LibosVma) (isOk : Bool) :
    vs.foldl (fun arg v => (adjVisitor prot v arg).2) isOk =
      (isOk && vs.all fun v => v.isOk prot) := by
  induction vs generalizing isOk with
  | nil => simp
  | cons v vs ih =>
    rw [foldl_cons, ih, all_cons, ← Bool.and_assoc]
    rfl

section
omit [DecidableEq Addr]

theorem eq_of_covers (hinv : Inv s l xs) {v w : LibosVma} {x : Nat} (hv : s.HasVma v)
    (hw : s.HasVma w) (hxv : v.Covers x) (hxw : w.Covers x) : v = w :=
  hinv.ordered.eq_of_covers (hinv.hasVma_iff.1 hv) (hinv.hasVma_iff.1 hw) hxv hxw

theorem State.Visits.touches {ok : LibosVma → Bool} {vs : List LibosVma} {v : LibosVma}
    (h : s.Visits ok begin stop vs) (hv : v ∈ vs) : s.HasVma v ∧ v.Touches begin stop := by
  cases h with
  | accepted _ hmem => exact (hmem v).1 hv
  | @refused vs w _ hw htouches _ hmem =>
    rcases mem_append.1 hv with hv | hv
    · obtain ⟨hvma, x, hx, hlt, hcovers⟩ := (hmem v).1 hv
      refine ⟨hvma, x, hx, ?_, hcovers⟩
      obtain ⟨_, -, hy, hwy⟩ := htouches
      exact hlt.trans (hwy.1.trans_lt hy)
    · obtain rfl := mem_singleton.1 hv
      exact ⟨hw, htouches⟩

/-- There is no hole and no vma was refused, exactly if acceptable vmas cover the range. -/
theorem Walked.all_ok_iff {ok : LibosVma → Bool} {c : Bool} {vs : List LibosVma}
    (hinv : Inv s l xs) (h : Walked s ok begin stop c vs) :
    (c = true ∧ ∀ v ∈ vs, ok v = true) ↔
      ∀ x, begin ≤ x → x < stop → ∃ v, s.HasVma v ∧ v.Covers x ∧ ok v = true := by
  rw [h.continuous]
  constructor
  · rintro ⟨hholes, hall⟩ x hx hxs
    have hok : ∀ v, s.HasVma v → v.Touches begin stop → ok v = true := by
      intro v hv htouches
      cases h.visits with
      | accepted _ hmem => exact hall v ((hmem v).2 ⟨hv, htouches⟩)
      | refused _ _ _ hrefused _ =>
        rw [hall _ (mem_append_right _ (mem_singleton_self _))] at hrefused
        cases hrefused
    by_contra hnone
    refine hholes x hx hxs ⟨fun v hv hcovers => ?_, fun v hv ⟨y, hy, hyx, hcovers⟩ => ?_⟩
    · exact hnone ⟨v, hv, hcovers, hok v hv ⟨x, hx, hxs, hcovers⟩⟩
    · exact hok v hv ⟨y, hy, hyx.trans hxs, hcovers⟩
  · intro hcover
    refine ⟨fun x hx hxs hhole => ?_, fun v hv => ?_⟩
    · obtain ⟨v, hv, hcovers, -⟩ := hcover x hx hxs
      exact hhole.uncovered v hv hcovers
    · obtain ⟨hvma, x, hx, hxs, hcovers⟩ := h.visits.touches hv
      obtain ⟨w, hw, hcovers', hok⟩ := hcover x hx hxs
      rwa [eq_of_covers hinv hvma hw hcovers hcovers']

end

/-- **`is_in_adjacent_user_vmas`** accepts the ranges that the application may use. -/
theorem isInAdjacentUserVmas_spec (hinv : Inv s l xs) {addr length : Nat} (prot : Flags)
    (hwrap : addr + length < 2 ^ 64) :
    ∃ b, isInAdjacentUserVmas addr length prot s = .ok b s ∧
      (b = true ↔ ∀ x, addr ≤ x → x < addr + length →
        ∃ v, s.HasVma v ∧ v.Covers x ∧ v.Usable prot) := by
  have hle : addr ≤ addr + length := Nat.le_add_right ..
  obtain ⟨c, vs, hrun, hwalked⟩ := traverseVmasInRange_spec hinv hle
    (fun v arg => show (adjVisitor prot v arg).1 = v.isOk prot from rfl) true
  have hmod : (addr + length) % 2 ^ 64 = addr + length := Nat.mod_eq_of_lt hwrap
  have hcheck : isInAdjacentUserVmas addr length prot s =
      .ok (c && vs.foldl (fun arg v => (adjVisitor prot v arg).2) true) s := by
    rw [isInAdjacentUserVmas, hmod, assertion_bind hle]
    exact bind_of_ok hrun
  refine ⟨_, hcheck, ?_⟩
  rw [foldl_adjVisitor, Bool.true_and, Bool.and_eq_true, all_eq_true, hwalked.all_ok_iff hinv]
  simp [isOk_iff]

end Check

/-! ## `madvise(MADV_DONTNEED)` -/

section Madvise
variable {s : State Addr} {l xs : List Addr} {begin stop : Nat} {answers : ProtectAnswers}
  {v : LibosVma} {ctx : MadviseCtx}

/-- Whether `madvise_dontneed_visitor` goes on after a vma. -/
def LibosVma.resettable (answers : ProtectAnswers) (begin : Nat) (v : LibosVma) : Bool :=
  !has v.flags (vmaUnmapped ||| vmaInternal) &&
    if v.file.isSome then !has v.flags vmaTainted
    else has v.prot protWrite ||
      ((answers.unprotect (max begin v.begin)).isNone && !answers.restoreFails (max begin v.begin))

/-- `PalVirtualMemoryProtect` reports that there is no memory to make the vma writable. -/
structure LibosVma.NoMem (answers : ProtectAnswers) (begin : Nat) (v : LibosVma) : Prop where
  flags : has v.flags (vmaUnmapped ||| vmaInternal) = false
  file : v.file.isSome = false
  prot : has v.prot protWrite = false
  unprotect : answers.unprotect (max begin v.begin) = some 12

/-- A vma of the application that is allocated, and the part of it in the range. -/
structure Resets (s : State Addr) (begin stop : Nat) (t : Nat × Nat) (v : LibosVma) : Prop where
  vma : s.HasVma v
  notInternal : has v.flags vmaInternal = false
  notUnmapped : has v.flags vmaUnmapped = false
  inVma : v.begin ≤ t.1 ∧ t.2 ≤ v.stop
  inRange : begin ≤ t.1 ∧ t.2 ≤ stop

/-- What the visitor does with a vma. -/
structure Visit (answers : ProtectAnswers) (begin stop : Nat) (v : LibosVma) (ctx : MadviseCtx)
    (r : Bool × MadviseCtx) : Prop where
  ok : r.1 = v.resettable answers begin
  touched : ∀ t ∈ r.2.touched, t ∈ ctx.touched ∨
    has v.flags (vmaUnmapped ||| vmaInternal) = false ∧ t = (max begin v.begin, min stop v.stop)
  accepted : r.1 = true → r.2.error = ctx.error ∧ r.2.bug = ctx.bug
  refused : r.1 = false → r.2.bug = true ∨
    r.2.bug = ctx.bug ∧ (r.2.error = -enomem ↔ v.NoMem answers begin)

theorem madviseDontneedVisitor_visit (answers : ProtectAnswers) (begin stop : Nat) (v : LibosVma)
    (ctx : MadviseCtx) :
    Visit answers begin stop v ctx (madviseDontneedVisitor answers begin stop v ctx) := by
  rw [madviseDontneedVisitor]
  by_cases hflags : has v.flags (vmaUnmapped ||| vmaInternal) = true
  · rw [if_pos hflags]
    refine ⟨by simp [resettable, hflags], fun t ht => .inl ht, nofun,
      fun _ => .inr ⟨rfl, by simp [einval, enomem], fun h => ?_⟩⟩
    cases h.flags.symm.trans hflags
  rw [if_neg hflags]
  have hflags := eq_false_of_ne_true hflags
  by_cases hfile : v.file.isSome = true
  · rw [if_pos hfile]
    by_cases htainted : has v.flags vmaTainted = true
    · rw [if_pos htainted]
      refine ⟨by simp [resettable, hfile, htainted], fun t ht => .inl ht, nofun,
        fun _ => .inr ⟨rfl, by simp [enosys, enomem], fun h => ?_⟩⟩
      cases h.file.symm.trans hfile
    · rw [if_neg htainted]
      exact ⟨by simp [resettable, hflags, hfile, htainted], fun t ht => .inl ht,
        fun _ => ⟨rfl, rfl⟩, nofun⟩
  rw [if_neg hfile]
  have hfile := eq_false_of_ne_true hfile
  have htouched : ∀ t ∈ ctx.touched ++ [(max begin v.begin, min stop v.stop)],
      t ∈ ctx.touched ∨ has v.flags (vmaUnmapped ||| vmaInternal) = false ∧
        t = (max begin v.begin, min stop v.stop) := by
    intro t ht
    rcases mem_append.1 ht with ht | ht
    · exact .inl ht
    · exact .inr ⟨hflags, mem_singleton.1 ht⟩
  by_cases hwrite : has v.prot protWrite = true
  · simp only [if_pos hwrite]
    exact ⟨by simp [resettable, hflags, hfile, hwrite], htouched, fun _ => ⟨rfl, rfl⟩, nofun⟩
  simp only [if_neg hwrite]
  have hwrite := eq_false_of_ne_true hwrite
  cases hunprotect : answers.unprotect (max begin v.begin) with
  | some e =>
    refine ⟨by simp [resettable, hfile, hwrite, hunprotect], htouched, nofun,
      fun _ => .inr ⟨rfl, fun he => ⟨hflags, hfile, hwrite, ?_⟩, fun h => ?_⟩⟩
    · have he : (e : Int) = 12 := by simpa [enomem] using he
      rw [hunprotect]
      exact congrArg some (by omega)
    · rw [h.unprotect] at hunprotect
      cases hunprotect
      rfl
  | none =>
    by_cases hrestore : answers.restoreFails (max begin v.begin) = true
    · simp only [if_pos hrestore]
      exact ⟨by simp [resettable, hfile, hwrite, hrestore], htouched, nofun, fun _ => .inl rfl⟩
    · simp only [if_neg hrestore]
      exact ⟨by simp [resettable, hflags, hfile, hunprotect, hrestore],
        htouched, fun _ => ⟨rfl, rfl⟩, nofun⟩

/-- The context after some vmas. -/
def madviseCtx (answers : ProtectAnswers) (begin stop : Nat) (vs : List LibosVma) : MadviseCtx :=
  vs.foldl (fun ctx v => (madviseDontneedVisitor answers begin stop v ctx).2) ⟨0, [], false⟩

theorem madviseCtx_append (vs : List LibosVma) (v : LibosVma) :
    madviseCtx answers begin stop (vs ++ [v]) =
      (madviseDontneedVisitor answers begin stop v (madviseCtx answers begin stop vs)).2 := by
  rw [madviseCtx, foldl_append]
  rfl

variable {vs : List LibosVma}

theorem madviseCtx_touched {t : Nat × Nat} (ht : t ∈ (madviseCtx answers begin stop vs).touched) :
    ∃ v ∈ vs, has v.flags (vmaUnmapped ||| vmaInternal) = false ∧
      t = (max begin v.begin, min stop v.stop) := by
  induction vs using List.reverseRecOn with
  | nil => cases ht
  | append_singleton vs v ih =>
    rw [madviseCtx_append] at ht
    rcases (madviseDontneedVisitor_visit answers begin stop v _).touched t ht with ht | ht
    · obtain ⟨w, hw, hpart⟩ := ih ht
      exact ⟨w, mem_append_left _ hw, hpart⟩
    · exact ⟨v, mem_append_right _ (mem_singleton_self v), ht⟩

theorem madviseCtx_accepted (h : ∀ v ∈ vs, v.resettable answers begin = true) :
    (madviseCtx answers begin stop vs).error = 0 ∧
      (madviseCtx answers begin stop vs).bug = false := by
  induction vs using List.reverseRecOn with
  | nil => exact ⟨rfl, rfl⟩
  | append_singleton vs v ih =>
    obtain ⟨herror, hbug⟩ := ih fun w hw => h w (mem_append_left _ hw)
    have hvisit := madviseDontneedVisitor_visit answers begin stop v
      (madviseCtx answers begin stop vs)
    have hok := h v (mem_append_right _ (mem_singleton_self v))
    obtain ⟨h1, h2⟩ := hvisit.accepted (hvisit.ok.trans hok)
    rw [madviseCtx_append, h1, h2]
    exact ⟨herror, hbug⟩

/-- The walk stops at a vma because there is no memory to make it writable. -/
structure StopsNoMem (s : State Addr) (answers : ProtectAnswers) (begin stop : Nat) (v : LibosVma) :
    Prop where
  vma : s.HasVma v
  touches : v.Touches begin stop
  noMem : v.NoMem answers begin
  passed : ∀ w, s.HasVma w → w.Touches begin v.begin → w.resettable answers begin = true

theorem LibosVma.NoMem.refused (h : v.NoMem answers begin) :
    v.resettable answers begin = false := by
  simp [resettable, h.file, h.prot, h.unprotect]

omit [DecidableEq Addr] in
theorem LibosVma.Touches.first (h : v.Touches begin stop) : v.Covers (max begin v.begin) := by
  obtain ⟨x, hx, -, hcovers⟩ := h
  exact ⟨Nat.le_max_right .., (Nat.max_le.2 ⟨hx, hcovers.1⟩).trans_lt hcovers.2⟩

theorem LibosVma.Touches.of_first {x : Nat} (h : v.Touches begin stop)
    (hlt : max begin v.begin < x) : v.Touches begin x :=
  ⟨_, le_max_left .., hlt, h.first⟩

omit [DecidableEq Addr] in
theorem eq_of_first {ok : LibosVma → Bool} {w : LibosVma} (hinv : Inv s l xs) (hv : s.HasVma v)
    (hw : s.HasVma w) (htv : v.Touches begin stop) (htw : w.Touches begin stop)
    (hrv : ok v = false) (hrw : ok w = false)
    (hpv : ∀ u, s.HasVma u → u.Touches begin v.begin → ok u = true)
    (hpw : ∀ u, s.HasVma u → u.Touches begin w.begin → ok u = true) : v = w := by
  have hle1 : w.begin ≤ max begin v.begin := by
    by_contra hlt
    rw [hpw v hv (htv.of_first (not_le.1 hlt))] at hrv
    cases hrv
  have hle2 : v.begin ≤ max begin w.begin := by
    by_contra hlt
    rw [hpv w hw (htw.of_first (not_le.1 hlt))] at hrw
    cases hrw
  have heq : max begin v.begin = max begin w.begin := by omega
  exact eq_of_covers hinv hv hw htv.first (heq ▸ htw.first)

omit [DecidableEq Addr] in
/-- The visitor leaves the error `ENOMEM` exactly if it stops for want of memory. -/
theorem State.Visits.error_iff (hinv : Inv s l xs)
    (h : s.Visits (resettable answers begin) begin stop vs)
    (hbug : (madviseCtx answers begin stop vs).bug = false) :
    (madviseCtx answers begin stop vs).error = -enomem ↔
      ∃ v, StopsNoMem s answers begin stop v := by
  cases h with
  | accepted hok hmem =>
    rw [(madviseCtx_accepted hok).1]
    refine ⟨by simp [enomem], fun ⟨v, hv⟩ => ?_⟩
    have := hok v ((hmem v).2 ⟨hv.vma, hv.touches⟩)
    rw [hv.noMem.refused] at this
    cases this
  | @refused vs v hok hv htouches hrefused hmem =>
    have hvisit := madviseDontneedVisitor_visit answers begin stop v
      (madviseCtx answers begin stop vs)
    have hpassed : ∀ w, s.HasVma w → w.Touches begin v.begin → w.resettable answers begin = true :=
      fun w hw ht => hok w ((hmem w).2 ⟨hw, ht⟩)
    rw [madviseCtx_append] at hbug ⊢
    rcases hvisit.refused (hvisit.ok.trans hrefused) with hbug' | ⟨-, herror⟩
    · cases hbug.symm.trans hbug'
    rw [herror]
    refine ⟨fun hnoMem => ⟨v, hv, htouches, hnoMem, hpassed⟩, fun ⟨w, hw⟩ => ?_⟩
    obtain rfl := eq_of_first hinv hw.vma hv hw.touches htouches hw.noMem.refused hrefused
      hw.passed hpassed
    exact hw.noMem

/-- **`madvise_dontneed_range`** reports a hole that it gets past, or that there was no memory to
make a vma writable; it touches only memory of the application. -/
theorem madviseDontneedRange_spec (hinv : Inv s l xs) (answers : ProtectAnswers)
    (hle : begin ≤ stop) :
    ∃ r, madviseDontneedRange answers begin stop s = .ok r s ∧
      (∀ ret, r.ret = some ret → (ret = -enomem ↔
        (∃ x, begin ≤ x ∧ x < stop ∧ s.HoleAt (resettable answers begin) begin x) ∨
          ∃ v, StopsNoMem s answers begin stop v)) ∧
      ∀ t ∈ r.touched, ∃ v, Resets s begin stop t v := by
  obtain ⟨c, vs, hrun, hwalked⟩ := traverseVmasInRange_spec hinv hle
    (fun v ctx => (madviseDontneedVisitor_visit answers begin stop v ctx).ok) ⟨0, [], false⟩
  have hwalk : madviseDontneedRange answers begin stop s = .ok
      ⟨if (madviseCtx answers begin stop vs).bug then none
        else some (if c then (madviseCtx answers begin stop vs).error else -enomem),
        (madviseCtx answers begin stop vs).touched⟩ s := by
    exact bind_of_ok hrun
  refine ⟨_, hwalk, fun ret hret => ?_, fun t ht => ?_⟩
  · have hhole : c = false ↔
        ∃ x, begin ≤ x ∧ x < stop ∧ s.HoleAt (resettable answers begin) begin x := by
      rw [← Bool.not_eq_true, hwalked.continuous]
      simp
    rw [← hhole]
    split at hret
    · cases hret
    rename_i hbug
    cases hret
    rw [← hwalked.visits.error_iff hinv (eq_false_of_ne_true hbug)]
    cases c with
    | false | true => simp
  · obtain ⟨v, hv, hflags, rfl⟩ := madviseCtx_touched ht
    rw [has_or, Bool.or_eq_false_iff] at hflags
    exact ⟨v, (hwalked.visits.touches hv).1, hflags.2, hflags.1,
      ⟨Nat.le_max_right .., min_le_right ..⟩, le_max_left .., min_le_left ..⟩

/-- **The two users of the walk**, whatever the vmas. The check of a pointer is exact. A range
with a hole that `madvise` gets past gives `-ENOMEM`, and so does a vma where
`PalVirtualMemoryProtect` has no memory; no memory of an internal or unmapped vma is touched. -/
theorem user_ranges_checked (hinv : Inv s l xs) : (∀ addr length prot, addr + length < 2 ^ 64 →
      ∃ b, isInAdjacentUserVmas addr length prot s = .ok b s ∧
        (b = true ↔ ∀ x, addr ≤ x → x < addr + length →
          ∃ v, s.HasVma v ∧ v.Covers x ∧ v.Usable prot)) ∧
    ∀ answers begin stop, begin ≤ stop → ∃ r, madviseDontneedRange answers begin stop s = .ok r s ∧
        (∀ ret, r.ret = some ret → (ret = -enomem ↔
          (∃ x, begin ≤ x ∧ x < stop ∧ s.HoleAt (resettable answers begin) begin x) ∨
            ∃ v, StopsNoMem s answers begin stop v)) ∧
        ∀ t ∈ r.touched, ∃ v, Resets s begin stop t v :=
  ⟨fun _ _ prot hwrap => isInAdjacentUserVmas_spec hinv prot hwrap,
    fun answers _ _ hle => madviseDontneedRange_spec hinv answers hle⟩

end Madvise

/-- Two pages that the application can read. -/
def exampleRead : Mapping := ⟨protRead, mapFixed ||| mapPrivate ||| mapAnonymous, none, 0, []⟩

/-- The state once they are mapped. -/
def exampleUser : State Nat :=
  match bkeepMmapFixed examplePal exampleEnv 131072 8192 exampleRead exampleThree with
  | .ok _ s => s
  | .error _ s => s

theorem exampleUser_inv : ∃ l, Inv exampleUser l [] := by
  have hok : (match bkeepMmapFixed examplePal exampleEnv 131072 8192 exampleRead exampleThree with
    | .ok _ _ => true
    | .error _ _ => false) = true := by decide +kernel
  have hspec : Runs [.alignment]
      (bkeepMmapFixed examplePal exampleEnv 131072 8192 exampleRead exampleThree)
      fun _ s' => Settled exampleEnv s' :=
    bkeepMmapFixed_spec exampleThree_good (by decide) (by decide)
  unfold exampleUser
  split
  · rename_i hrun
    rw [hrun] at hspec
    obtain ⟨l, hl⟩ := hspec
    exact ⟨l, hl.inv⟩
  · rename_i hrun
    rw [hrun] at hok
    cases hok

theorem exampleUser_hasVma : exampleUser.HasVma (exampleRead.vma 131072 139264) := by
  have h : exampleUser.vmaTree.nodes.any (fun a => exampleUser.vma a =
      exampleRead.vma 131072 139264) = true := by decide +kernel
  obtain ⟨a, ha, heq⟩ := any_eq_true.1 h
  exact ⟨a, ha, of_decide_eq_true heq⟩

/-- The two pages are accepted for reading. -/
theorem user_ranges_checked_two_pages :
    isInAdjacentUserVmas 131072 8192 protRead exampleUser = .ok true exampleUser := by
  obtain ⟨_, hinv⟩ := exampleUser_inv
  obtain ⟨b, hrun, hb⟩ := (user_ranges_checked hinv).1 131072 8192 protRead (by decide)
  rw [hrun, hb.2 fun x hx hlt => ?_]
  exact ⟨_, exampleUser_hasVma, ⟨hx, hlt⟩, by decide, by decide, by decide⟩

/-- `-ENOMEM` for a range that is covered, where `PalVirtualMemoryProtect` has no memory. -/
theorem madvise_enomem_covered :
    (∃ r s', madviseDontneedRange ⟨fun _ => some 12, fun _ => false⟩ 131072 139264 exampleUser =
      .ok r s' ∧ r.ret = some (-enomem)) ∧
    ∀ x, 131072 ≤ x → x < 139264 → ∃ v, exampleUser.HasVma v ∧ v.Covers x := by
  refine ⟨?_, fun x hx hlt => ⟨_, exampleUser_hasVma, hx, hlt⟩⟩
  have hret : (match madviseDontneedRange ⟨fun _ => some 12, fun _ => false⟩ 131072 139264
      exampleUser with
    | .ok r _ => r.ret
    | .error _ _ => none) = some (-enomem) := by decide +kernel
  split at hret
  · rename_i r s' hrun
    exact ⟨r, s', hrun, hret⟩
  · cases hret

end Vma
