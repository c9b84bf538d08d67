import Gramine.VmaRun

/-!
# The program break

`libos_brk.c`: the region of the heap, which is reserved as a whole when the process starts. A
call of `brk` moves the break and updates three records: `brk_current`, the vmas, and what the PAL
has allocated. The bookkeeping is that of `libos_vma.c`; the PAL is described by the number of
times it has allocated each byte.
-/

open Vma List

namespace Brk

open LibosVma

/-! ## Data -/

/-- `brk_region`. -/
structure Region where
  dataSegmentSize : Nat
  brkStart : Nat
  brkCurrent : Nat
  brkEnd : Nat
  deriving DecidableEq, Repr

/-- The three records. -/
structure State (Addr : Type) where
  region : Region
  vmas : Vma.State Addr
  /-- How many times the PAL has allocated a byte, less the times it was freed. -/
  allocated : Nat → Int

/-- `BUG()` and failed assertions, those of the bookkeeping included. -/
inductive Fault
  | bug
  | assertion
  | vma (fault : Vma.Fault)
  deriving DecidableEq, Repr

abbrev M (Addr : Type) := EStateM Fault (State Addr)

/-- A call, what the bookkeeping runs in, and how the PAL answers. -/
structure Call (Addr : Type) where
  env : Env Addr
  areas : List (Option (List Addr))
  /-- `get_rlimit_cur(RLIMIT_DATA)`. -/
  rlimData : Nat
  /-- Whether `PalVirtualMemoryAlloc` succeeds. -/
  palAlloc : Bool
  /-- Whether `PalVirtualMemoryFree` succeeds. -/
  palFree : Bool
  brk : BitVec 64

/-- The comment `heap`. -/
def heapComment : List UInt8 := [104, 101, 97, 112]

/-- Memory of the heap. -/
def heapMapping : Mapping :=
  ⟨protRead ||| protWrite, mapPrivate ||| mapAnonymous ||| mapFixed, none, 0, heapComment⟩

/-- The part of the region that is not in use. -/
def reservation : Mapping := ⟨0, mapFixed ||| vmaUnmapped, none, 0, heapComment⟩

/-- The reservation of the whole region, which does not replace anything. -/
def firstReservation : Mapping :=
  ⟨0, mapFixedNoreplace ||| vmaUnmapped, none, 0, heapComment⟩

/-! ## `libos_syscall_brk` -/

section Functions
variable {Addr : Type} [DecidableEq Addr] {α : Type}

/-- `ALLOC_ALIGN_UP_PTR`. -/
def allocAlignUpPtr (pal : PalPublicState) (n : Nat) : Nat :=
  (n + pal.allocAlign - 1) % 2 ^ 64 / pal.allocAlign * pal.allocAlign

/-- The difference of two pointers, as a `size_t`. -/
def ptrDiff (a b : Nat) : Nat := (a + 2 ^ 64 - b) % 2 ^ 64

/-- A function of the bookkeeping. -/
def bkeep (x : Vma.M Addr α) : M Addr α := fun s =>
  match x s.vmas with
  | .ok r vmas => .ok r { s with vmas := vmas }
  | .error e vmas => .error (.vma e) { s with vmas := vmas }

/-- The bytes of a range are allocated once more, or `n` times. -/
def State.addAllocated (s : State Addr) (addr size : Nat) (n : Int) : State Addr :=
  { s with allocated := fun p =>
    if addr ≤ p ∧ p < addr + size then s.allocated p + n else s.allocated p }

/-- `PalVirtualMemoryAlloc` and `PalVirtualMemoryFree`, which add `1` or `-1`. -/
def palVirtualMemory (succeeds : Bool) (n : Int) (addr size : Nat) : M Addr Bool := do
  if succeeds then
    modify fun s => s.addAllocated addr size n
  pure succeeds

/-- `PalVirtualMemoryAlloc`. -/
def palVirtualMemoryAlloc (call : Call Addr) (addr size : Nat) : M Addr Bool :=
  palVirtualMemory call.palAlloc 1 addr size

/-- `PalVirtualMemoryFree`. -/
def palVirtualMemoryFree (call : Call Addr) (addr size : Nat) : M Addr Bool :=
  palVirtualMemory call.palFree (-1) addr size

/-- `brk_region.brk_current = brk`. -/
def setBrkCurrent (brk : Nat) : M Addr Unit :=
  modify fun s => { s with region := { s.region with brkCurrent := brk } }

/-- The branch for `brk <= brk_current`. -/
def shrink (pal : PalPublicState) (call : Call Addr) (brk brkAligned brkCurrent brkEnd : Nat) :
    M Addr Unit := do
  let size := ptrDiff brkCurrent brkAligned
  if size = 0 then setBrkCurrent brk
  else do
    let ret ← bkeep
      (bkeepMmapFixed pal call.env brkAligned (ptrDiff brkEnd brkAligned) reservation)
    match ret with
    | .error _ => pure ()
    | .ok () => do
      let freed ← palVirtualMemoryFree call brkAligned size
      if freed then setBrkCurrent brk else throw .bug

/-- What follows the checks for `brk > brk_current`. -/
def grow (pal : PalPublicState) (call : Call Addr) (brk brkAligned brkCurrent : Nat)
    (region : Region) : M Addr Unit := do
  if call.rlimData < region.dataSegmentSize ∨
      call.rlimData - region.dataSegmentSize < ptrDiff brkAligned region.brkStart then pure ()
  else do
    let size := ptrDiff brkAligned brkCurrent
    if size = 0 then throw .assertion
    else do
      let ret ← bkeep (bkeepMmapFixed pal call.env brkCurrent size heapMapping)
      match ret with
      | .error _ => pure ()
      | .ok () => do
        let allocated ← palVirtualMemoryAlloc call brkCurrent size
        if allocated then setBrkCurrent brk
        else do
          -- the reservation is put back
          let ret ← bkeep
            (bkeepMmapFixed pal call.env brkCurrent (ptrDiff region.brkEnd brkCurrent) reservation)
          match ret with
          | .error _ => throw .bug
          | .ok () => pure ()

/-- `libos_syscall_brk` up to the label `out`. -/
def moveBrk (pal : PalPublicState) (call : Call Addr) (region : Region) : M Addr Unit :=
  let brk := call.brk.toNat
  let brkAligned := allocAlignUpPtr pal brk
  let brkCurrent := allocAlignUpPtr pal region.brkCurrent
  if brk < region.brkStart then pure ()
  else if brk ≤ brkCurrent then shrink pal call brk brkAligned brkCurrent region.brkEnd
  else if region.brkEnd < brk then pure ()
  else grow pal call brk brkAligned brkCurrent region

/-- `libos_syscall_brk`. -/
def libosSyscallBrk (pal : PalPublicState) (call : Call Addr) : M Addr Nat := do
  let s ← get
  moveBrk pal call s.region
  let s ← get
  pure s.region.brkCurrent

/-- `init_brk_region` where the range that follows the executable, at a random distance, is free:
the region is reserved there. -/
def initBrkRegion (pal : PalPublicState) (env : Env Addr)
    (brkStart brkMaxSize dataSegmentSize : Nat) : Vma.M Addr (Except Errno Region) := do
  if pal.isAllocAligned brkStart = false ∨ pal.isAllocAligned brkMaxSize = false then
    pure (.error .einval)
  else do
    let ret ← bkeepMmapFixed pal env brkStart brkMaxSize firstReservation
    match ret with
    | .error e => pure (.error e)
    | .ok () => pure (.ok
      { dataSegmentSize := allocAlignUpPtr pal dataSegmentSize
        brkStart := brkStart
        brkCurrent := brkStart
        brkEnd := brkStart + brkMaxSize })

/-- A call, with the memory that `PalVirtualMemoryAlloc` gives to the bookkeeping. -/
def exec (pal : PalPublicState) (call : Call Addr) : M Addr Nat := do
  modify fun s => { s with vmas := { s.vmas with pal := call.areas } }
  libosSyscallBrk pal call

/-- What the bookkeeping is called with. -/
def Call.vmaCall (call : Call Addr) : Vma.Call Addr := ⟨call.env, call.areas, .receiveUserMemory⟩

/-- A call that returns. -/
def Step (pal : PalPublicState) (s : State Addr) (call : Call Addr) (s' : State Addr) : Prop :=
  call.vmaCall.Fresh s.vmas ∧ ∃ r, exec pal call s = .ok r s'

/-- The region as `init_brk_region` leaves it: reserved as a whole. -/
structure Reserved (pal : PalPublicState) (s : State Addr) : Prop where
  vmas : ∃ l, Rest s.vmas l
  start_aligned : pal.isAllocAligned s.region.brkStart
  end_aligned : pal.isAllocAligned s.region.brkEnd
  lt : s.region.brkStart < s.region.brkEnd
  current : s.region.brkCurrent = s.region.brkStart
  reserved : s.vmas.UserVma (reservation.vma s.region.brkStart s.region.brkEnd)
  allocated : ∀ p, s.region.brkStart ≤ p → p < s.region.brkEnd → s.allocated p = 0

end Functions

/-! ## Rounding up -/

section Align
variable {pal : PalPublicState} {n m bound : Nat}

/-- What rounding up gives, below an aligned bound. -/
structure RoundsUp (pal : PalPublicState) (n bound : Nat) : Prop where
  aligned : pal.isAllocAligned (allocAlignUpPtr pal n)
  le : n ≤ allocAlignUpPtr pal n
  le_bound : allocAlignUpPtr pal n ≤ bound

section
variable (hdvd : pal.allocAlign ∣ 2 ^ 64) (hbound : pal.isAllocAligned bound) (hlt : bound < 2 ^ 64)
include hdvd hbound hlt

theorem roundsUp (hn : n ≤ bound) : RoundsUp pal n bound := by
  obtain ⟨k, hk⟩ := hdvd
  have hpos : 0 < pal.allocAlign := Nat.pos_of_ne_zero fun h => by simp [h] at hk
  obtain ⟨c, rfl⟩ := Nat.dvd_of_mod_eq_zero (of_decide_eq_true hbound)
  -- the bound is at least one unit below 2 ^ 64, so the sum does not wrap around
  have hck : c < k := by
    rw [hk] at hlt
    exact Nat.lt_of_mul_lt_mul_left hlt
  have hroom : pal.allocAlign * c + pal.allocAlign ≤ 2 ^ 64 := by
    rw [hk, ← Nat.mul_succ]
    exact Nat.mul_le_mul_left _ hck
  have hmod : (n + pal.allocAlign - 1) % 2 ^ 64 = n + pal.allocAlign - 1 :=
    Nat.mod_eq_of_lt (by omega)
  have hdm := Nat.div_add_mod (n + pal.allocAlign - 1) pal.allocAlign
  have hml := Nat.mod_lt (n + pal.allocAlign - 1) hpos
  have heq : allocAlignUpPtr pal n =
      pal.allocAlign * ((n + pal.allocAlign - 1) / pal.allocAlign) := by
    rw [allocAlignUpPtr, hmod, Nat.mul_comm]
  refine ⟨?_, ?_, ?_⟩
  · rw [heq]
    exact decide_eq_true (Nat.mul_mod_right _ _)
  · omega
  rw [heq]
  refine Nat.mul_le_mul_left _ (Nat.lt_succ_iff.1 ((Nat.div_lt_iff_lt_mul hpos).2 ?_))
  rw [Nat.succ_mul, Nat.mul_comm c]
  omega

theorem allocAlignUpPtr_of_aligned : allocAlignUpPtr pal bound = bound :=
  have h := roundsUp hdvd hbound hlt (le_refl bound)
  le_antisymm h.le_bound h.le

end

theorem ptrDiff_eq (hle : m ≤ n) (hlt : n < 2 ^ 64) : ptrDiff n m = n - m := by
  rw [ptrDiff, Nat.sub_add_comm hle, Nat.add_mod_right, Nat.mod_eq_of_lt (by omega)]

end Align

/-! ## The vmas of the region -/

section Layout
variable {U U' U'' : LibosVma → Prop} {start top top' stop : Nat}

/-- The region, among the vmas `U` of the application: memory of the heap from `start` to `top`,
and the reservation from there on. -/
structure Layout (U : LibosVma → Prop) (start top stop : Nat) : Prop where
  nonempty : ∀ v, U v → v.begin < v.stop
  known : ∀ v, U v → v.Meets start stop →
    (∃ b e, v = heapMapping.vma b e ∧ start ≤ b ∧ e ≤ top) ∨ v = reservation.vma top stop
  heap : ∀ p, start ≤ p → p < top → ∃ v, U v ∧ v.begin ≤ p ∧ p < v.stop
  reserved : top < stop → U (reservation.vma top stop)

/-- The vmas after a mapping of a range. -/
def Mapped (U U' : LibosVma → Prop) (map : Mapping) (begin stop : Nat) : Prop :=
  ∀ v, U' v ↔ v = map.vma begin stop ∨ ∃ u, U u ∧ v ∈ u.cut begin stop

variable {begin : Nat} {v : LibosVma}

theorem mem_cut_bounds {w : LibosVma} (hv : v.begin < v.stop) (hw : w ∈ v.cut begin stop) :
    v.begin ≤ w.begin ∧ w.stop ≤ v.stop ∧ w.begin < w.stop := by
  unfold cut at hw
  split_ifs at hw with h1 h2 h3 <;> simp only [append_nil, nil_append, mem_append,
    mem_cons, not_mem_nil, or_false] at hw
  · rw [hw]
    exact ⟨le_rfl, le_rfl, hv⟩
  · rcases hw with rfl | rfl
    · exact ⟨le_rfl, by simp only; omega, h2⟩
    · exact ⟨by simp only [dropTo]; omega, le_rfl, h3⟩
  · rw [hw]
    exact ⟨le_rfl, by simp only; omega, h2⟩
  · rename_i h3
    rw [hw]
    exact ⟨by simp only [dropTo]; omega, le_rfl, h3⟩

theorem exists_mem_cut (stop : Nat) {p : Nat} (hv : v.begin ≤ p ∧ p < v.stop)
    (hp : p < begin ∨ stop ≤ p) : ∃ w ∈ v.cut begin stop, w.begin ≤ p ∧ p < w.stop := by
  by_cases hapart : v.stop ≤ begin ∨ stop ≤ v.begin
  · exact ⟨v, by rw [cut, if_pos hapart]; exact mem_singleton_self v, hv⟩
  rw [cut, if_neg hapart]
  rcases hp with hp | hp
  · refine ⟨{ v with stop := begin }, mem_append_left _ ?_, hv.1, hp⟩
    rw [if_pos (by omega)]
    exact mem_singleton_self _
  · refine ⟨v.dropTo stop, mem_append_right _ ?_, hp, hv.2⟩
    rw [if_pos (by omega)]
    exact mem_singleton_self _

theorem cut_vma {map : Mapping} (hfile : map.file = none) (b e begin stop : Nat) :
    (map.vma b e).cut begin stop = if e ≤ begin ∨ stop ≤ b then [map.vma b e]
      else (if b < begin then [map.vma b begin] else []) ++
        (if stop < e then [map.vma stop e] else []) := by
  simp only [cut, Mapping.vma, dropTo, hfile, Option.isSome_none,
    Bool.false_eq_true, if_false, false_and]

theorem cut_vma_of_inside {map : Mapping} {b e stop : Nat} (hlt : b < e) (hb : begin ≤ b)
    (he : e ≤ stop) : (map.vma b e).cut begin stop = [] :=
  cut_of_inside ⟨hb, he⟩ hlt

theorem cut_of_apart (h : v.stop ≤ begin ∨ stop ≤ v.begin) : v.cut begin stop = [v] := by
  rw [cut, if_pos h]

/-- **The region shrinks**, or the end of the heap is given up again. -/
theorem Layout.shrink (h : Layout U start top stop) (htop : top' ≤ top)
    (hstop : top' < stop) (hmap : Mapped U U' reservation top' stop) :
    Layout U' start top' stop := by
  refine ⟨fun v hv => ?_, fun v hv hmeets => ?_, fun p hp hlt => ?_, fun _ => (hmap _).2 (.inl rfl)⟩
  · rcases (hmap v).1 hv with rfl | ⟨u, hu, hcut⟩
    · exact hstop
    · exact (mem_cut_bounds (h.nonempty u hu) hcut).2.2
  · rcases (hmap v).1 hv with rfl | ⟨u, hu, hcut⟩
    · exact .inr rfl
    obtain ⟨hbegin, hend, hlt⟩ := mem_cut_bounds (h.nonempty u hu) hcut
    obtain ⟨hm1, hm2⟩ := hmeets
    have hvtop : v.stop ≤ top' := by
      have := apart_of_mem_cut hcut
      omega
    rcases h.known u hu ⟨by omega, by omega⟩ with ⟨b, e, rfl, hb, he⟩ | rfl
    · refine .inl ?_
      by_cases hapart : e ≤ top' ∨ stop ≤ b
      · rw [cut_of_apart hapart, mem_singleton] at hcut
        exact ⟨b, e, hcut, hb, by rw [hcut] at hvtop; exact hvtop⟩
      -- the vma is cut at the new top
      have hpiece : v = heapMapping.vma b top' := by
        rw [cut_vma rfl, if_neg hapart] at hcut
        rcases mem_append.1 hcut with hcut | hcut
        · split_ifs at hcut with hb'
          · exact mem_singleton.1 hcut
          · cases hcut
        · split_ifs at hcut with he'
          · rw [mem_singleton.1 hcut] at hm2
            exact absurd hm2 (lt_irrefl _)
          · cases hcut
      exact ⟨b, top', hpiece, hb, le_rfl⟩
    · have hne : top < stop := h.nonempty _ hu
      rw [cut_vma_of_inside hne htop le_rfl] at hcut
      cases hcut
  · obtain ⟨u, hu, hin⟩ := h.heap p hp (by omega)
    obtain ⟨w, hw, hp'⟩ := exists_mem_cut stop hin (.inl hlt)
    exact ⟨w, (hmap w).2 (.inr ⟨u, hu, hw⟩), hp'⟩

theorem cut_reservation (hlt : top < top') (hstop : top' ≤ stop) :
    (reservation.vma top stop).cut top top' =
      if top' < stop then [reservation.vma top' stop] else [] := by
  rw [cut_vma rfl, if_neg (by omega), if_neg (lt_irrefl _), nil_append]

section
variable (h : Layout U start top stop) (hstart : start ≤ top) (hlt : top < top')
  (hstop : top' ≤ stop) (hmap : Mapped U U' heapMapping top top')
include h hstart hlt hstop hmap

/-- **The region grows.** -/
theorem Layout.grow : Layout U' start top' stop := by
  refine ⟨fun v hv => ?_, fun v hv hmeets => ?_, fun p hp hptop => ?_, fun hne => ?_⟩
  · rcases (hmap v).1 hv with rfl | ⟨u, hu, hcut⟩
    · exact hlt
    · exact (mem_cut_bounds (h.nonempty u hu) hcut).2.2
  · rcases (hmap v).1 hv with rfl | ⟨u, hu, hcut⟩
    · exact .inl ⟨top, top', rfl, hstart, le_rfl⟩
    obtain ⟨hbegin, hend, hvlt⟩ := mem_cut_bounds (h.nonempty u hu) hcut
    obtain ⟨hm1, hm2⟩ := hmeets
    rcases h.known u hu ⟨by omega, by omega⟩ with ⟨b, e, rfl, hb, he⟩ | rfl
    · rw [cut_of_apart (.inl he), mem_singleton] at hcut
      exact .inl ⟨b, e, hcut, hb, by omega⟩
    rw [cut_reservation hlt hstop] at hcut
    split_ifs at hcut with hne
    · exact .inr (mem_singleton.1 hcut)
    · cases hcut
  · by_cases hold : p < top
    · obtain ⟨u, hu, hin⟩ := h.heap p hp hold
      obtain ⟨w, hw, hp'⟩ := exists_mem_cut top' hin (.inl hold)
      exact ⟨w, (hmap w).2 (.inr ⟨u, hu, hw⟩), hp'⟩
    · exact ⟨_, (hmap _).2 (.inl rfl), not_lt.1 hold, hptop⟩
  · refine (hmap _).2 (.inr ⟨_, h.reserved (by omega), ?_⟩)
    rw [cut_reservation hlt hstop, if_pos hne]
    exact mem_singleton_self _

theorem Layout.restored (hmap' : Mapped U' U'' reservation top stop) (v : LibosVma) :
    U'' v ↔ U v := by
  constructor
  · intro hv
    rcases (hmap' v).1 hv with rfl | ⟨u', hu', hcut'⟩
    · exact h.reserved (by omega)
    rcases (hmap u').1 hu' with rfl | ⟨u, hu, hcut⟩
    · rw [cut_vma_of_inside hlt le_rfl hstop] at hcut'
      cases hcut'
    by_cases hapart : u.stop ≤ top ∨ stop ≤ u.begin
    · rw [cut_of_apart (by omega), mem_singleton] at hcut
      subst hcut
      rw [cut_of_apart hapart, mem_singleton] at hcut'
      rwa [hcut']
    rcases h.known u hu ⟨by omega, by omega⟩ with ⟨b, e, rfl, hb, he⟩ | rfl
    · exact absurd (.inl he) hapart
    rw [cut_reservation hlt hstop] at hcut
    split_ifs at hcut with hne
    · rw [mem_singleton.1 hcut,
        cut_vma_of_inside hne hlt.le le_rfl] at hcut'
      cases hcut'
    · cases hcut
  · intro hv
    by_cases hapart : v.stop ≤ top ∨ stop ≤ v.begin
    · refine (hmap' v).2 (.inr ⟨v, (hmap v).2 (.inr ⟨v, hv, ?_⟩), ?_⟩)
      · rw [cut_of_apart (by omega)]
        exact mem_singleton_self _
      · rw [cut_of_apart hapart]
        exact mem_singleton_self _
    · rcases h.known v hv ⟨by omega, by omega⟩ with ⟨b, e, rfl, hb, he⟩ | rfl
      · exact absurd (.inl he) hapart
      · exact (hmap' _).2 (.inl rfl)

end

theorem Layout.congr (h : Layout U start top stop) (hU : ∀ v, U' v ↔ U v) :
    Layout U' start top stop := by
  obtain rfl : U' = U := funext fun v => propext (hU v)
  exact h

end Layout

/-! ## Between calls -/

section Runs
variable {Addr : Type} [DecidableEq Addr] {α β : Type} {pal : PalPublicState} {s s' : State Addr}
  {call : Call Addr} {top top' : Nat}

/-- The call returns as described, or the process stops: at `BUG()` after the PAL has failed, or at
the bookkeeping's assertion on the alignment of an area for its own vmas. -/
def Ends (call : Call Addr) (r : EStateM.Result Fault (State Addr) α)
    (Q : α → State Addr → Prop) : Prop :=
  match r with
  | .ok a s' => Q a s'
  | .error e _ => e = .bug ∧ (call.palAlloc = false ∨ call.palFree = false) ∨ e = .vma .alignment

section
omit [DecidableEq Addr]

theorem Ends.bind {x : M Addr α} {f : α → M Addr β} {P : α → State Addr → Prop}
    {Q : β → State Addr → Prop} (h : Ends call (x s) P)
    (hf : ∀ y s', P y s' → Ends call (f y s') Q) : Ends call ((x >>= f) s) Q := by
  cases hx : x s with
  | ok y s' =>
    have hrun : (x >>= f) s = f y s' := by simp [Bind.bind, EStateM.bind, hx]
    rw [hrun]
    rw [hx] at h
    exact hf y s' h
  | error e s' =>
    have hrun : (x >>= f) s = .error e s' := by simp [Bind.bind, EStateM.bind, hx]
    rw [hrun]
    rwa [hx] at h

theorem Ends.mono {r : EStateM.Result Fault (State Addr) α} {P Q : α → State Addr → Prop}
    (h : Ends call r P) (hpq : ∀ x s', P x s' → Q x s') : Ends call r Q := by
  cases r with
  | ok x s' => exact hpq x s' h
  | error e s' => exact h

theorem Ends.bkeep {x : Vma.M Addr α} {P : α → Vma.State Addr → Prop}
    (h : Runs [.alignment] (x s.vmas) P) :
    Ends call (Brk.bkeep x s) fun r s' => ∃ vmas, s' = { s with vmas := vmas } ∧ P r vmas := by
  unfold Brk.bkeep
  cases hx : x s.vmas with
  | ok r vmas =>
    rw [hx] at h
    exact ⟨vmas, rfl, h⟩
  | error e vmas =>
    rw [hx] at h
    exact .inr (congrArg _ (mem_singleton.1 h.1))

end

/-- The bounds of the region. -/
structure Bounds (pal : PalPublicState) (r : Region) : Prop where
  dvd : pal.allocAlign ∣ 2 ^ 64
  start_aligned : pal.isAllocAligned r.brkStart
  end_aligned : pal.isAllocAligned r.brkEnd
  start_le : r.brkStart ≤ r.brkCurrent
  le_end : r.brkCurrent ≤ r.brkEnd
  end_lt : r.brkEnd < 2 ^ 64

/-- The vmas and the memory of the PAL agree with a top of the heap. -/
structure Agrees (r : Region) (U : LibosVma → Prop) (allocated : Nat → Int) (top : Nat) : Prop where
  layout : Layout U r.brkStart top r.brkEnd
  used : ∀ p, r.brkStart ≤ p → p < top → allocated p = 1
  unused : ∀ p, top ≤ p → p < r.brkEnd → allocated p = 0

/-- The invariant between calls. -/
structure Inv (pal : PalPublicState) (s : State Addr) : Prop where
  vmas : ∃ l, Rest s.vmas l
  bounds : Bounds pal s.region
  agrees : Agrees s.region s.vmas.UserVma s.allocated (allocAlignUpPtr pal s.region.brkCurrent)

/-- What a call works on: the bookkeeping may be called. -/
structure Working (pal : PalPublicState) (call : Call Addr) (s : State Addr) : Prop where
  settled : Settled call.env s.vmas
  bounds : Bounds pal s.region
  agrees : Agrees s.region s.vmas.UserVma s.allocated (allocAlignUpPtr pal s.region.brkCurrent)

/-- Nothing that belongs to the region has changed. -/
structure Unchanged (s s' : State Addr) : Prop where
  region : s'.region = s.region
  allocated : s'.allocated = s.allocated
  vmas : SameUser s.vmas s'.vmas

/-- What a call does: the break is where it was asked for, or nothing has changed. -/
def Outcome (call : Call Addr) (s s' : State Addr) : Prop :=
  s'.region = { s.region with brkCurrent := call.brk.toNat } ∨ Unchanged s s'

/-- A call ends in order. -/
def Done (pal : PalPublicState) (call : Call Addr) (s s' : State Addr) : Prop :=
  Working pal call s' ∧ Outcome call s s'

omit [DecidableEq Addr] in
theorem Working.unchanged (h : Working pal call s) : Done pal call s s :=
  ⟨h, .inr ⟨rfl, rfl, .refl _⟩⟩

variable {vmas : Vma.State Addr}

omit [DecidableEq Addr] in
theorem Working.keep (h : Working pal call s) (hsettled : Settled call.env vmas)
    (huser : SameUser s.vmas vmas) :
    Done pal call s { s with vmas := vmas } :=
  ⟨⟨hsettled, h.bounds, ⟨h.agrees.layout.congr huser, h.agrees.used, h.agrees.unused⟩⟩,
    .inr ⟨rfl, rfl, huser⟩⟩

/-- **`bkeep_mmap_fixed`**, as it is called here. -/
theorem bkeepMmapFixed_ends {addr length : Nat} {map : Mapping} (hs : Settled call.env s.vmas)
    (hflags : has map.flags (mapFixed ||| mapFixedNoreplace))
    (huser : (map.vma addr (addr + length)).isInternal = false) (hbound : addr + length < 2 ^ 64) :
    Ends call (bkeep (bkeepMmapFixed pal call.env addr length map) s) fun ret s' =>
      ∃ vmas, s' = { s with vmas := vmas } ∧ Settled call.env vmas ∧
        match ret with
        | .ok () => Mapped s.vmas.UserVma vmas.UserVma map addr (addr + length)
        | .error _ => SameUser s.vmas vmas := by
  refine (Ends.bkeep (bkeepMmapFixed_result hs hflags hbound)).mono fun ret s' hret => ?_
  obtain ⟨vmas, rfl, hres⟩ := hret
  refine ⟨vmas, rfl, hres.settled, ?_⟩
  cases ret with
  | ok u => exact hres.mapped rfl huser
  | error e => exact hres.kept e rfl

theorem heapMapping_user (b e : Nat) : (heapMapping.vma b e).isInternal = false := by
  have h : (heapMapping.vma 0 0).isInternal = false := by decide
  exact h

theorem reservation_user (b e : Nat) : (reservation.vma b e).isInternal = false := by
  have h : (reservation.vma 0 0).isInternal = false := by decide
  exact h

/-! ## One call -/

section
variable (h : Working pal call s) (hstart : s.region.brkStart ≤ call.brk.toNat)
include h hstart

omit [DecidableEq Addr] in
theorem Working.moved (s1 : State Addr) (hregion : s1.region = s.region)
    (hsettled : Settled call.env s1.vmas) (hend : call.brk.toNat ≤ s.region.brkEnd)
    (hagrees : Agrees s.region s1.vmas.UserVma s1.allocated (allocAlignUpPtr pal call.brk.toNat)) :
    Ends call (setBrkCurrent call.brk.toNat s1) fun _ s' => Done pal call s s' := by
  have hb := h.bounds
  refine ⟨⟨hsettled, ?_, ?_⟩, .inl ?_⟩
  · show Bounds pal { s1.region with brkCurrent := call.brk.toNat }
    rw [hregion]
    exact ⟨hb.dvd, hb.start_aligned, hb.end_aligned, hstart, hend, hb.end_lt⟩
  · show Agrees { s1.region with brkCurrent := call.brk.toNat } _ _ _
    rw [hregion]
    exact ⟨hagrees.layout, hagrees.used, hagrees.unused⟩
  · show { s1.region with brkCurrent := call.brk.toNat } = _
    rw [hregion]

/-- **The break moves down**, or within its page. -/
theorem shrink_ends (hle : call.brk.toNat ≤ allocAlignUpPtr pal s.region.brkCurrent) :
    Ends call (shrink pal call call.brk.toNat (allocAlignUpPtr pal call.brk.toNat)
      (allocAlignUpPtr pal s.region.brkCurrent) s.region.brkEnd s)
      fun _ s' => Done pal call s s' := by
  have hb := h.bounds
  obtain ⟨hcura, _, hcurend⟩ := roundsUp hb.dvd hb.end_aligned hb.end_lt hb.le_end
  have hcurlt := hcurend.trans_lt hb.end_lt
  obtain ⟨_, _, hnewcur⟩ := roundsUp hb.dvd hcura hcurlt hle
  generalize htop : allocAlignUpPtr pal s.region.brkCurrent = top at *
  generalize htop' : allocAlignUpPtr pal call.brk.toNat = top' at *
  have hagrees := h.agrees
  rw [htop] at hagrees
  have hend : call.brk.toNat ≤ s.region.brkEnd := hle.trans hcurend
  unfold shrink
  rw [ptrDiff_eq hnewcur hcurlt, ptrDiff_eq (hnewcur.trans hcurend) hb.end_lt]
  by_cases hsize : top - top' = 0
  · -- a move within the page
    obtain rfl : top' = top := by omega
    rw [if_pos hsize]
    exact h.moved hstart s rfl h.settled hend (by rw [htop']; exact hagrees)
  rw [if_neg hsize]
  have hlt : top' < s.region.brkEnd := by omega
  have hsum : top' + (s.region.brkEnd - top') = s.region.brkEnd :=
    Nat.add_sub_cancel' hlt.le
  refine (bkeepMmapFixed_ends h.settled (by decide) (reservation_user _ _)
    (by rw [hsum]; exact hb.end_lt)).bind fun ret s1 hret => ?_
  obtain ⟨vmas, rfl, hsettled, hret⟩ := hret
  cases ret with
  | error e => exact h.keep hsettled hret
  | ok u =>
    rw [hsum] at hret
    unfold palVirtualMemoryFree palVirtualMemory
    cases hfree : call.palFree with
    | false => exact .inl ⟨rfl, .inr hfree⟩
    | true =>
      refine h.moved hstart (State.addAllocated { s with vmas := vmas } top' (top - top') (-1)) rfl
        hsettled hend ?_
      rw [htop']
      refine ⟨hagrees.layout.shrink hnewcur hlt hret, fun p hp hlt' => ?_, fun p hp hlt' => ?_⟩
      · have hne : ¬ (top' ≤ p ∧ p < top' + (top - top')) := by omega
        simp only [State.addAllocated, if_neg hne]
        exact hagrees.used p hp (by omega)
      by_cases hin : p < top
      · have hyes : top' ≤ p ∧ p < top' + (top - top') := by omega
        simp only [State.addAllocated, if_pos hyes]
        rw [hagrees.used p (by omega) hin]
        rfl
      · have hne : ¬ (top' ≤ p ∧ p < top' + (top - top')) := by omega
        simp only [State.addAllocated, if_neg hne]
        exact hagrees.unused p (not_lt.1 hin) hlt'

/-- **The break moves up**, or stays where it is because something failed. -/
theorem grow_ends (hlt : allocAlignUpPtr pal s.region.brkCurrent < call.brk.toNat)
    (hend : call.brk.toNat ≤ s.region.brkEnd) :
    Ends call (grow pal call call.brk.toNat (allocAlignUpPtr pal call.brk.toNat)
      (allocAlignUpPtr pal s.region.brkCurrent) s.region s)
      fun _ s' => Done pal call s s' := by
  have hb := h.bounds
  obtain ⟨_, hcurle, hcurend⟩ := roundsUp hb.dvd hb.end_aligned hb.end_lt hb.le_end
  obtain ⟨hnewa, hnewle, hnewend⟩ := roundsUp hb.dvd hb.end_aligned hb.end_lt hend
  generalize htop : allocAlignUpPtr pal s.region.brkCurrent = top at *
  generalize htop' : allocAlignUpPtr pal call.brk.toNat = top' at *
  have hagrees := h.agrees
  rw [htop] at hagrees
  have hlt' : top < top' := hlt.trans_le hnewle
  have hnewlt := hnewend.trans_lt hb.end_lt
  have hstart' : s.region.brkStart ≤ top := hb.start_le.trans hcurle
  unfold grow
  by_cases hrlim : call.rlimData < s.region.dataSegmentSize ∨
      call.rlimData - s.region.dataSegmentSize < ptrDiff top' s.region.brkStart
  · rw [if_pos hrlim]
    exact h.unchanged
  rw [if_neg hrlim, ptrDiff_eq hlt'.le hnewlt, ptrDiff_eq hcurend hb.end_lt,
    if_neg (Nat.sub_ne_zero_of_lt hlt')]
  have hsum : top + (top' - top) = top' := Nat.add_sub_cancel' hlt'.le
  have hsum' : top + (s.region.brkEnd - top) = s.region.brkEnd :=
    Nat.add_sub_cancel' hcurend
  refine (bkeepMmapFixed_ends h.settled (by decide) (heapMapping_user _ _)
    (by rw [hsum]; exact hnewlt)).bind fun ret s1 hret => ?_
  obtain ⟨vmas, rfl, hsettled, hret⟩ := hret
  cases ret with
  | error e => exact h.keep hsettled hret
  | ok u =>
    rw [hsum] at hret
    unfold palVirtualMemoryAlloc palVirtualMemory
    cases halloc : call.palAlloc with
    | true =>
      refine h.moved hstart (State.addAllocated { s with vmas := vmas } top (top' - top) 1) rfl
        hsettled hend ?_
      rw [htop']
      refine ⟨hagrees.layout.grow hstart' hlt' hnewend hret, fun p hp hptop => ?_,
        fun p hp hlt' => ?_⟩
      · by_cases hin : p < top
        · have hne : ¬ (top ≤ p ∧ p < top + (top' - top)) := by omega
          simp only [State.addAllocated, if_neg hne]
          exact hagrees.used p hp hin
        · have hyes : top ≤ p ∧ p < top + (top' - top) := by omega
          simp only [State.addAllocated, if_pos hyes]
          rw [hagrees.unused p (not_lt.1 hin) (by omega)]
          rfl
      · have hne : ¬ (top ≤ p ∧ p < top + (top' - top)) := by omega
        simp only [State.addAllocated, if_neg hne]
        exact hagrees.unused p (by omega) hlt'
    | false =>
      -- the PAL has failed, and the reservation is put back
      refine (bkeepMmapFixed_ends (s := { s with vmas := vmas }) hsettled (by decide)
        (reservation_user _ _) (by rw [hsum']; exact hb.end_lt)).bind fun ret s2 hret2 => ?_
      obtain ⟨_, rfl, hsettled2, hret2⟩ := hret2
      cases ret with
      | error e => exact .inl ⟨rfl, .inl halloc⟩
      | ok u =>
        rw [hsum'] at hret2
        exact h.keep hsettled2 (hagrees.layout.restored hstart' hlt' hnewend hret hret2)

end

omit [DecidableEq Addr] in
theorem vma_eq_of_mem {l : List Addr} (h : Rest vmas l) {a b : Addr} {p : Nat}
    (ha : a ∈ vmas.vmaTree.nodes) (hb : b ∈ vmas.vmaTree.nodes)
    (hpa : (vmas.vma a).begin ≤ p ∧ p < (vmas.vma a).stop)
    (hpb : (vmas.vma b).begin ≤ p ∧ p < (vmas.vma b).stop) : a = b :=
  (IntervalList.Ordered.map_iff.1 h.inv.ordered).eq_of_covers (h.inv.tree.nodes.mem_iff.2 ha)
    (h.inv.tree.nodes.mem_iff.2 hb) hpa hpb

/-- **`libos_syscall_brk`** returns the break, which has moved, or nothing has changed. -/
theorem libosSyscallBrk_ends (h : Working pal call s) :
    Ends call (libosSyscallBrk pal call s) fun r s' =>
      r = s'.region.brkCurrent ∧ Done pal call s s' := by
  have hmove : Ends call (moveBrk pal call s.region s) fun _ s' => Done pal call s s' := by
    unfold moveBrk
    split_ifs with hstart hle hend
    · exact h.unchanged
    · exact shrink_ends h (not_lt.1 hstart) hle
    · exact h.unchanged
    · exact grow_ends h (not_lt.1 hstart) (not_le.1 hle) (not_lt.1 hend)
  exact hmove.bind fun _ s' hs' =>
    show s'.region.brkCurrent = s'.region.brkCurrent ∧ _ from ⟨rfl, hs'⟩

/-! ## Every run -/

omit [DecidableEq Addr] in
theorem Inv.initial (hdvd : pal.allocAlign ∣ 2 ^ 64) (h : Reserved pal s) : Inv pal s := by
  obtain ⟨l, hl⟩ := h.vmas
  obtain ⟨a, ha, hva, -⟩ := h.reserved
  have hlt : s.region.brkEnd < 2 ^ 64 := by
    have := hl.inv.bound a (hl.inv.tree.nodes.mem_iff.2 ha)
    rwa [hva] at this
  have htop : allocAlignUpPtr pal s.region.brkCurrent = s.region.brkStart := by
    rw [h.current]
    exact allocAlignUpPtr_of_aligned hdvd h.start_aligned (h.lt.trans hlt)
  refine ⟨⟨l, hl⟩, ⟨hdvd, h.start_aligned, h.end_aligned, h.current.symm.le, ?_, hlt⟩, ?_⟩
  · rw [h.current]
    exact h.lt.le
  rw [htop]
  refine ⟨⟨fun v hv => ?_, fun v hv hmeets => .inr ?_, fun p hp hlt' => ?_, fun _ => h.reserved⟩,
    fun p hp hlt' => ?_, h.allocated⟩
  · obtain ⟨hmem, -⟩ := hl.inv.userVma_iff.1 hv
    exact hl.inv.ordered.nonempty v hmem
  · -- only the reservation has a byte in common with the region
    obtain ⟨b, hb, rfl, -⟩ := hv
    have hne := hl.inv.ordered.nonempty _
      (mem_map_of_mem (f := s.vmas.vma) (hl.inv.tree.nodes.mem_iff.2 hb))
    obtain ⟨hm1, hm2⟩ := hmeets
    have hab : b = a := by
      refine vma_eq_of_mem (p := max (s.vmas.vma b).begin s.region.brkStart) hl hb ha
        ⟨Nat.le_max_left _ _, Nat.max_lt.2 ⟨hne, hm1⟩⟩ ?_
      rw [hva]
      exact ⟨Nat.le_max_right _ _, Nat.max_lt.2 ⟨hm2, h.lt⟩⟩
    rw [hab, hva]
  · exact absurd hp (Nat.not_le_of_lt hlt')
  · exact absurd hp (Nat.not_le_of_lt hlt')

theorem initBrkRegion_reserved {vmas' : Vma.State Addr} {region : Region}
    {brkStart brkMaxSize dataSegmentSize : Nat} (h : Settled call.env vmas)
    (hbound : brkStart + brkMaxSize < 2 ^ 64)
    (hrun : initBrkRegion pal call.env brkStart brkMaxSize dataSegmentSize vmas = .ok (.ok region)
      vmas') :
    Reserved pal ⟨region, vmas', fun _ => 0⟩ ∧ Settled call.env vmas' := by
  unfold initBrkRegion at hrun
  split_ifs at hrun with halign
  · cases hrun
  simp only [not_or, Bool.not_eq_false] at halign
  have hres : Runs [.alignment]
      (bkeepMmapFixed pal call.env brkStart brkMaxSize firstReservation vmas) _ :=
    bkeepMmapFixed_result h (by decide) hbound
  cases hmap : bkeepMmapFixed pal call.env brkStart brkMaxSize firstReservation vmas with
  | error e s' =>
    rw [bind_of_error hmap] at hrun
    cases hrun
  | ok ret s' =>
    rw [hmap] at hres
    rw [bind_of_ok hmap] at hrun
    cases ret with
    | error e => cases hrun
    | ok u =>
      cases hrun
      have hpos : 0 < brkMaxSize := by
        refine Nat.pos_of_ne_zero fun hzero => ?_
        rw [bkeepMmapFixed, assertion_bind (by decide), if_pos (.inl hzero)] at hmap
        cases hmap
      refine ⟨⟨hres.settled.rest, halign.1, isAllocAligned_add halign.1 halign.2,
        Nat.lt_add_of_pos_right hpos, rfl, ?_, fun _ _ _ => rfl⟩, hres.settled⟩
      exact (hres.mapped rfl (reservation_user _ _) _).2 (.inl rfl)

omit [DecidableEq Addr] in
theorem fresh_of_settled (h : Settled call.env s.vmas) (hareas : call.areas = []) :
    call.vmaCall.Fresh s.vmas := by
  obtain ⟨l, hl⟩ := h
  have hnodup := fun t => hl.pool.nodup t
  simp only [Call.vmaCall]
  refine ⟨by simp [hareas], fun a ha huse => ?_, by simp [hareas]⟩
  obtain rfl : a = call.env.tmpVma := by simpa [hareas] using ha
  rcases huse with hmem | ⟨t, hmem⟩ | hmem
  · have := (nodup_append'.1 (nodup_append'.1 (hnodup 0)).2.1).2.1
    rw [singleton_append, nodup_cons] at this
    exact this.1 (mem_append_left _ (hl.inv.tree.nodes.mem_iff.2 hmem))
  · exact (nodup_append'.1 (hnodup t)).2.2 hmem (by simp)
  · refine (nodup_append'.1 (nodup_append'.1 (hnodup 0)).2.1).2.2
      (mem_append_left _ hmem) ?_
    exact mem_append_left _ (mem_singleton_self _)

/-- **Every call** keeps the invariant. -/
theorem exec_ends (h : Inv pal s) (hfresh : call.vmaCall.Fresh s.vmas) :
    Ends call (exec pal call s) fun r s' =>
      r = s'.region.brkCurrent ∧ Inv pal s' ∧ Outcome call s s' := by
  obtain ⟨_, hl⟩ := h.vmas
  have hwork : Working pal call { s with vmas := { s.vmas with pal := call.areas } } :=
    ⟨hl.start hfresh, h.bounds, h.agrees⟩
  have hend := (libosSyscallBrk_ends hwork).mono (Q := fun r s' =>
      r = s'.region.brkCurrent ∧ Inv pal s' ∧ Outcome call s s') fun r s' hs' => by
    obtain ⟨hr, hdone, hout⟩ := hs'
    exact ⟨hr, ⟨hdone.settled.rest, hdone.bounds, hdone.agrees⟩,
      hout.imp id fun hsame => ⟨hsame.region, hsame.allocated, hsame.vmas⟩⟩
  exact hend

/-- A vma that holds a byte. -/
def State.VmaAt (s : State Addr) (p : Nat) (v : LibosVma) : Prop :=
  ∃ a ∈ s.vmas.vmaTree.nodes, s.vmas.vma a = v ∧ v.begin ≤ p ∧ p < v.stop

/-- The region in order: below the break, rounded up, there is memory of the heap, allocated
once; from there on only the reservation, and nothing is allocated. -/
structure RegionOk (pal : PalPublicState) (s : State Addr) : Prop where
  start_le : s.region.brkStart ≤ s.region.brkCurrent
  le_end : s.region.brkCurrent ≤ s.region.brkEnd
  heap : ∀ p, allocAlignUpPtr pal s.region.brkStart ≤ p →
    p < allocAlignUpPtr pal s.region.brkCurrent → s.allocated p = 1 ∧
      ∃ b e, (∀ v, s.VmaAt p v ↔ v = heapMapping.vma b e) ∧
        s.region.brkStart ≤ b ∧ e ≤ allocAlignUpPtr pal s.region.brkCurrent
  reserved : ∀ p, allocAlignUpPtr pal s.region.brkCurrent ≤ p → p < s.region.brkEnd →
    s.allocated p = 0 ∧ ∀ v, s.VmaAt p v ↔
      v = reservation.vma (allocAlignUpPtr pal s.region.brkCurrent) s.region.brkEnd

omit [DecidableEq Addr] in
theorem Inv.vmaAt_iff (h : Inv pal s) {p : Nat} {v : LibosVma} (hv : s.vmas.UserVma v)
    (hp : v.begin ≤ p ∧ p < v.stop) (w : LibosVma) : s.VmaAt p w ↔ w = v := by
  obtain ⟨l, hl⟩ := h.vmas
  obtain ⟨a, ha, rfl, -⟩ := hv
  constructor
  · rintro ⟨b, hb, rfl, hpb⟩
    rw [vma_eq_of_mem hl hb ha hpb hp]
  · rintro rfl
    exact ⟨a, ha, rfl, hp⟩

omit [DecidableEq Addr] in
theorem Inv.regionOk (h : Inv pal s) : RegionOk pal s := by
  have hb := h.bounds
  have hlayout := h.agrees.layout
  have hstart : allocAlignUpPtr pal s.region.brkStart = s.region.brkStart :=
    allocAlignUpPtr_of_aligned hb.dvd hb.start_aligned
      ((hb.start_le.trans hb.le_end).trans_lt hb.end_lt)
  have hcur := roundsUp hb.dvd hb.end_aligned hb.end_lt hb.le_end
  refine ⟨hb.start_le, hb.le_end, fun p hp hlt => ?_, fun p hp hlt => ?_⟩
  · rw [hstart] at hp
    obtain ⟨v, hv, hin⟩ := hlayout.heap p hp hlt
    refine ⟨h.agrees.used p hp hlt, ?_⟩
    have hend := hcur.le_bound
    rcases hlayout.known v hv ⟨by omega, by omega⟩ with ⟨b, e, rfl, hbe⟩ | rfl
    · exact ⟨b, e, h.vmaAt_iff hv hin, hbe⟩
    · exact absurd hin.1 (Nat.not_le_of_lt hlt)
  · refine ⟨h.agrees.unused p hp hlt, h.vmaAt_iff (hlayout.reserved ?_) ⟨hp, hlt⟩⟩
    exact hp.trans_lt hlt

/-- **The three records agree** after every sequence of calls; each further call returns the break
with the records in order, and either the break is where it was asked for or nothing has
changed. -/
theorem brk_region_ok (hdvd : pal.allocAlign ∣ 2 ^ 64)
    (h : Transition.Reachable (Reserved pal) (Step pal) s) :
    RegionOk pal s ∧ ∀ call, call.vmaCall.Fresh s.vmas → Ends call (exec pal call s) fun r s' =>
        r = s'.region.brkCurrent ∧ RegionOk pal s' ∧ Outcome call s s' := by
  have hinv : Inv pal s := by
    apply h.invariant
    · intro s hs
      exact Inv.initial hdvd hs
    intro s call s' hs hstep
    obtain ⟨hfresh, r, hexec⟩ := hstep
    have hend := exec_ends hs hfresh
    rw [hexec] at hend
    exact hend.2.1
  refine ⟨hinv.regionOk, fun call hfresh => (exec_ends hinv hfresh).mono fun r s' hs' => ?_⟩
  exact ⟨hs'.1, hs'.2.1.regionOk, hs'.2.2⟩

end Runs

/-! ## A run -/

/-- A call in which nothing fails. -/
def exampleCall (brk : BitVec 64) : Call Nat :=
  ⟨⟨0, 0, fun _ => false⟩, [], 2 ^ 40, true, true, brk⟩

/-- Four pages are reserved, and the break is moved up by a page and a half. -/
def exampleRun : Option (State Nat) :=
  match initBrkRegion examplePal (exampleCall 0).env 65536 16384 0 Vma.exampleState with
  | .ok (.ok region) vmas =>
    match exec examplePal (exampleCall 71680) ⟨region, vmas, fun _ => 0⟩ with
    | .ok _ s => some s
    | .error _ _ => none
  | _ => none

theorem brk_region_ok_grown : ∃ s : State Nat, s.region.brkCurrent = 71680 ∧
    s.allocated 73727 = 1 ∧ s.allocated 73728 = 0 ∧ RegionOk examplePal s := by
  have hobs : exampleRun.map (fun s => (s.region.brkCurrent, s.allocated 73727,
      s.allocated 73728)) = some (71680, 1, 0) := by decide +kernel
  obtain ⟨s, hrun, heq⟩ := Option.map_eq_some_iff.1 hobs
  simp only [Prod.mk.injEq] at heq
  refine ⟨s, heq.1, heq.2.1, heq.2.2, (brk_region_ok (by decide) ?_).1⟩
  have hsettled : Settled (exampleCall 0).env Vma.exampleState := by
    have hinitial : Vma.Initial Vma.exampleState :=
      ⟨⟨rfl, rfl⟩, rfl, fun _ => rfl, by decide, by decide, fun _ => rfl⟩
    have hfresh : (exampleCall 0).vmaCall.Fresh Vma.exampleState :=
      ⟨by decide, by simp [Call.vmaCall, exampleCall, State.InUse, Vma.exampleState,
        MemMgr.objects], by simp [Call.vmaCall, exampleCall]⟩
    exact (Rest.initial hinitial).start hfresh
  unfold exampleRun at hrun
  split at hrun
  · rename_i region vmas hinit
    obtain ⟨hreserved, hsettled'⟩ := initBrkRegion_reserved hsettled (by decide) hinit
    split at hrun
    · rename_i r s' hexec
      obtain rfl := Option.some.inj hrun
      refine .step (exampleCall 71680) (.init hreserved) ⟨fresh_of_settled ?_ rfl, r, hexec⟩
      exact hsettled'
    · cases hrun
  · cases hrun

end Brk
