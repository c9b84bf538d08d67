import Gramine.TrustedFile
import Gramine.Rounding

/-!
# The host buffer of an ioctl

`_PalDeviceIoControl` (`linux-sgx/pal_devices.c`) copies the sub-regions of an ioctl argument to
untrusted memory. It adds up how much they need, maps that much, checks where each sub-region will
be, and calls `ioctls_copy_sub_regions_to_host` (`ioctls.c`), which computes the places again.
-/

open List

namespace Ioctl
open TrustedFile

/-- `enum mem_copy_direction`. -/
inductive MemCopyDirection
  | none
  | out
  | in
  | inout
  deriving DecidableEq, Repr

/-- The fields of `struct sub_region` that are read once the sub-regions are collected. -/
structure SubRegion where
  direction : MemCopyDirection
  size : Nat
  alignment : Nat
  gramineAddr : Nat
  hostAddr : Nat
  /-- `toml_mem_region` is set. -/
  isPtr : Bool
  deriving DecidableEq, Repr

/-- An over-approximation of what the sub-region needs. -/
def SubRegion.need (r : SubRegion) : Nat := r.size + r.alignment - 1

/-- `host_size`. -/
def hostSize (rs : List SubRegion) : Nat := rs.foldl (fun n r => (n + r.need) % 2 ^ 64) 0

/-- `ALIGN_UP_PTR`. -/
def alignUpPtr (ptr alignment : Nat) : Nat := Rounding.up (2 ^ 64) alignment ptr

/-- `ALLOC_ALIGN_UP`. -/
def allocAlignUp (n : Nat) : Nat := Rounding.up (2 ^ 64) pageSize n

/-- The loop that verifies the sub-regions: the host ranges it has checked. -/
def verify (enc : Enclave) (cur : Nat) : List SubRegion → Option (List (SubRegion × Nat))
  | [] => some []
  | r :: rs =>
    if r.size = 0 then verify enc cur rs
    else
      let cur := alignUpPtr cur r.alignment
      if ¬ sgxIsCompletelyWithinEnclave enc r.gramineAddr r.size ∨
          ¬ sgxIsValidUntrustedPtr enc cur r.size 1 then none
      else (verify enc ((cur + r.size) % 2 ^ 64) rs).map ((r, cur) :: ·)

/-- `sgx_copy_from_enclave`: whether it copies. -/
def sgxCopyFromEnclave (enc : Enclave) (uptr ptr size : Nat) : Bool :=
  sgxIsValidUntrustedPtr enc uptr size 1 && sgxIsCompletelyWithinEnclave enc ptr size

/-- The first loop of `ioctls_copy_sub_regions_to_host`. -/
def assign (memcpyToHost : Nat → Nat → Nat → Bool) (cur : Nat) :
    List SubRegion → Option (List SubRegion)
  | [] => some []
  | r :: rs =>
    if r.size = 0 then (assign memcpyToHost cur rs).map (r :: ·)
    else
      let cur := alignUpPtr cur r.alignment
      if (r.direction = .out ∨ r.direction = .inout) ∧
          memcpyToHost cur r.gramineAddr r.size = false then none
      else (assign memcpyToHost ((cur + r.size) % 2 ^ 64) rs).map ({ r with hostAddr := cur } :: ·)

/-- The second loop: whether the pointers are all replaced. `deref` reads enclave memory, and
`field j` is the address of `sub_regions[j].host_addr`. -/
def rewire (memcpyToHost : Nat → Nat → Nat → Bool) (deref field : Nat → Nat)
    (rs : List SubRegion) : Bool :=
  rs.all fun r => r.size = 0 || !r.isPtr ||
    (rs.findIdx? fun x => x.gramineAddr = deref r.gramineAddr).all fun j =>
      memcpyToHost r.hostAddr (field j) 8

/-- `ioctls_copy_sub_regions_to_host`. -/
def copySubRegionsToHost (memcpyToHost : Nat → Nat → Nat → Bool) (deref field : Nat → Nat)
    (rs : List SubRegion) (host : Nat) : Option (List SubRegion) :=
  (assign memcpyToHost host rs).filter (rewire memcpyToHost deref field)

/-- `_PalDeviceIoControl` up to the ioctl: the mapping and the sub-regions, or nothing if a call
fails or a check does. -/
def deviceIoControl (enc : Enclave) (mmap : Nat → Option Nat) (deref field : Nat → Nat)
    (rs : List SubRegion) : Option (Nat × List SubRegion) := do
  let mapped := allocAlignUp (hostSize rs)
  -- `ocall_mmap_untrusted` checks the address
  let host ← (mmap mapped).filter fun addr => sgxIsValidUntrustedPtr enc addr mapped pageSize
  let _ ← verify enc host rs
  let rs ← copySubRegionsToHost (sgxCopyFromEnclave enc) deref field rs host
  pure (host, rs)

variable {enc : Enclave} {cur : Nat} {rs rs' : List SubRegion} {checked : List (SubRegion × Nat)}

/-- What is needed, without wrapping around. -/
def total (rs : List SubRegion) : Nat := (rs.map SubRegion.need).sum

theorem hostSize_eq (h : total rs < 2 ^ 64) : hostSize rs = total rs := by
  have hfold : ∀ n, n + total rs < 2 ^ 64 →
      rs.foldl (fun n r => (n + r.need) % 2 ^ 64) n = n + total rs := by
    clear h
    induction rs with
    | nil => exact fun n _ => rfl
    | cons r rs ih =>
      intro n hn
      simp only [total, map_cons, sum_cons] at hn ih ⊢
      rw [foldl_cons, Nat.mod_eq_of_lt (by omega), ih _ (by omega), Nat.add_assoc]
  rw [hostSize, hfold 0 (by omega), Nat.zero_add]

theorem assign_eq_verify {memcpyToHost : Nat → Nat → Nat → Bool}
    (hv : verify enc cur rs = some checked) (ha : assign memcpyToHost cur rs = some rs') :
    rs'.filter (·.size ≠ 0) = checked.map fun x => { x.1 with hostAddr := x.2 } := by
  induction rs generalizing cur rs' checked with
  | nil =>
    cases hv
    cases ha
    rfl
  | cons r rs ih =>
    simp only [verify] at hv
    simp only [assign] at ha
    split at hv
    · rename_i hsize
      rw [if_pos hsize, Option.map_eq_some_iff] at ha
      obtain ⟨l, ha, rfl⟩ := ha
      rw [filter_cons_of_neg (by simpa using hsize)]
      exact ih hv ha
    · rename_i hsize
      rw [if_neg hsize] at ha
      split at hv
      · cases hv
      split at ha
      · cases ha
      obtain ⟨l, hl, rfl⟩ := Option.map_eq_some_iff.1 hv
      obtain ⟨l', hl', rfl⟩ := Option.map_eq_some_iff.1 ha
      rw [filter_cons_of_pos (by simpa using hsize), ih hl hl', map_cons]

theorem alignUpPtr_eq {alignment : Nat} (h : cur + alignment ≤ 2 ^ 64) :
    alignUpPtr cur alignment = Rounding.down alignment (cur + alignment - 1) := by
  rw [alignUpPtr, Rounding.up, Rounding.down, Nat.mod_eq_of_lt (by omega)]

/-- An address that wraps around is rounded to `0`. -/
theorem alignUpPtr_eq_zero {alignment : Nat} (hcur : cur < 2 ^ 64)
    (h : 2 ^ 64 < cur + alignment) : alignUpPtr cur alignment = 0 := by
  rw [alignUpPtr, Rounding.up, Nat.div_eq_of_lt (by omega), zero_mul]

/-- Where the last range ends if the ranges are put one after the other from `cur` on, and nothing
if an address wraps around on the way. -/
def finish (cur : Nat) : List SubRegion → Option Nat
  | [] => some cur
  | r :: rs =>
    if r.size = 0 then finish cur rs
    else if 2 ^ 64 < cur + r.alignment then none
    else finish (Rounding.down r.alignment (cur + r.alignment - 1) + r.size) rs

section Finish
variable {stop limit : Nat} (halign : ∀ r ∈ rs, 0 < r.alignment)
include halign

/-- The ranges go upwards. -/
theorem le_of_finish (h : finish cur rs = some stop) : cur ≤ stop := by
  induction rs generalizing cur with
  | nil => exact (Option.some.inj h).le
  | cons r rs ih =>
    have hrest : ∀ r ∈ rs, 0 < r.alignment := fun r hr => halign r (mem_cons_of_mem _ hr)
    have hlt := Rounding.lt_down_add (halign r mem_cons_self) (cur + r.alignment - 1)
    simp only [finish] at h
    split_ifs at h
    · exact ih hrest h
    · have := ih hrest h
      omega

/-- What the sub-regions need is enough for the ranges. -/
theorem finish_le_total (hfit : cur + total rs < 2 ^ 64) :
    ∃ stop, finish cur rs = some stop ∧ stop ≤ cur + total rs := by
  induction rs generalizing cur with
  | nil => exact ⟨cur, rfl, by simp [total]⟩
  | cons r rs ih =>
    have hpos := halign r mem_cons_self
    have hrest : ∀ r ∈ rs, 0 < r.alignment := fun r hr => halign r (mem_cons_of_mem _ hr)
    simp only [total, map_cons, sum_cons, SubRegion.need] at hfit ih ⊢
    simp only [finish]
    split_ifs with hsize hwrap
    · obtain ⟨stop, h, hle⟩ := ih hrest (show cur + _ < _ by omega)
      exact ⟨stop, h, by omega⟩
    · omega
    · have hle := Rounding.down_le r.alignment (cur + r.alignment - 1)
      obtain ⟨stop, h, hle'⟩ := ih hrest (show
        Rounding.down r.alignment (cur + r.alignment - 1) + r.size + _ < _ by omega)
      exact ⟨stop, h, by omega⟩

/-- The ranges that were checked lie between the first address and the end of the last one. -/
theorem verify_inside (hv : verify enc cur rs = some checked) (h : finish cur rs = some stop)
    (hstop : stop < 2 ^ 64) : ∀ x ∈ checked, cur ≤ x.2 ∧ x.2 + x.1.size ≤ stop := by
  induction rs generalizing cur checked with
  | nil =>
    cases hv
    exact nofun
  | cons r rs ih =>
    have hrest : ∀ r ∈ rs, 0 < r.alignment := fun r hr => halign r (mem_cons_of_mem _ hr)
    simp only [verify] at hv
    simp only [finish] at h
    split_ifs at h with hsize hwrap
    · rw [if_pos hsize] at hv
      exact ih hrest hv h
    rw [if_neg hsize] at hv
    split at hv
    · cases hv
    obtain ⟨l, hl, rfl⟩ := Option.map_eq_some_iff.1 hv
    have hpos := halign r mem_cons_self
    have hlt := Rounding.lt_down_add hpos (cur + r.alignment - 1)
    have hle := le_of_finish hrest h
    rw [alignUpPtr_eq (by omega)] at hl ⊢
    rw [Nat.mod_eq_of_lt (by omega)] at hl
    intro x hx
    rcases mem_cons.1 hx with rfl | hx
    · simp only
      omega
    · have := ih hrest hl h x hx
      omega

/-- If the ranges that were checked lie between an address other than `0` and `limit`, no address
wraps around, since it would be rounded to `0`. -/
theorem finish_of_inside {host : Nat} (hhost : 0 < host) (hcur : cur ≤ limit)
    (hlimit : limit < 2 ^ 64) (hv : verify enc cur rs = some checked)
    (hin : ∀ x ∈ checked, host ≤ x.2 ∧ x.2 + x.1.size ≤ limit) :
    ∃ stop, finish cur rs = some stop ∧ stop ≤ limit := by
  induction rs generalizing cur checked with
  | nil => exact ⟨cur, rfl, hcur⟩
  | cons r rs ih =>
    have hrest : ∀ r ∈ rs, 0 < r.alignment := fun r hr => halign r (mem_cons_of_mem _ hr)
    simp only [verify] at hv
    simp only [finish]
    split_ifs with hsize hwrap
    · rw [if_pos hsize] at hv
      exact ih hrest hcur hv hin
    all_goals
      rw [if_neg hsize] at hv
      split at hv
      · cases hv
      obtain ⟨l, hl, rfl⟩ := Option.map_eq_some_iff.1 hv
      have hr := hin _ mem_cons_self
      simp only at hr
    · rw [alignUpPtr_eq_zero (by omega) hwrap] at hr
      omega
    · rw [alignUpPtr_eq (by omega)] at hr hl
      rw [Nat.mod_eq_of_lt (by omega)] at hl
      exact ih hrest hr.2 hl fun x hx => hin x (mem_cons_of_mem _ hx)

end Finish

/-- **The host buffer is large enough** exactly if the ranges, put one after the other without
wrapping around, end in the mapping; the source asserts that the mapping is not at `0`. They do
unless the sum of what the sub-regions need wraps around. In any case each sub-region gets the host
range that was checked for it. -/
theorem hostRanges_within {mmap : Nat → Option Nat} {deref field : Nat → Nat} {host : Nat}
    (halign : ∀ r ∈ rs, 0 < r.alignment)
    (h : deviceIoControl enc mmap deref field rs = some (host, rs')) :
    (∃ checked, verify enc host rs = some checked ∧
      rs'.filter (·.size ≠ 0) = checked.map fun x => { x.1 with hostAddr := x.2 }) ∧
    (total rs + pageSize ≤ 2 ^ 64 → ∀ r ∈ rs', r.size ≠ 0 →
      host ≤ r.hostAddr ∧ r.hostAddr + r.size ≤ host + allocAlignUp (hostSize rs)) ∧
    (host ≠ 0 → ((∀ r ∈ rs', r.size ≠ 0 →
        host ≤ r.hostAddr ∧ r.hostAddr + r.size ≤ host + allocAlignUp (hostSize rs)) ↔
      ∃ stop, finish host rs = some stop ∧ stop ≤ host + allocAlignUp (hostSize rs))) := by
  simp only [deviceIoControl, Option.bind_eq_bind, Option.bind_eq_some_iff, Option.pure_def,
    Option.some.injEq, Prod.mk.injEq] at h
  obtain ⟨_, hhost, checked, hv, _, hcopy, rfl, rfl⟩ := h
  rename_i host rs'
  have heq := assign_eq_verify hv (Option.filter_eq_some_iff.1 hcopy).1
  have hbound := (of_decide_eq_true (Option.filter_eq_some_iff.1 hhost).2).1
  simp only [uintptrMax] at hbound
  -- the ranges of the sub-regions are those of the loop that checks them
  have hranges : (∀ r ∈ rs', r.size ≠ 0 →
      host ≤ r.hostAddr ∧ r.hostAddr + r.size ≤ host + allocAlignUp (hostSize rs)) ↔
      ∀ x ∈ checked, host ≤ x.2 ∧ x.2 + x.1.size ≤ host + allocAlignUp (hostSize rs) := by
    have hmem : ∀ r, r ∈ rs' ∧ r.size ≠ 0 ↔ ∃ x ∈ checked, { x.1 with hostAddr := x.2 } = r := by
      intro r
      rw [← mem_map, ← heq, mem_filter, decide_eq_true_eq]
    constructor
    · intro hin x hx
      obtain ⟨hr, hsize⟩ := (hmem _).2 ⟨x, hx, rfl⟩
      exact hin _ hr hsize
    · intro hin r hr hsize
      obtain ⟨x, hx, rfl⟩ := (hmem r).1 ⟨hr, hsize⟩
      exact hin x hx
  have hwithin : ∀ stop, finish host rs = some stop → stop ≤ host + allocAlignUp (hostSize rs) →
      ∀ x ∈ checked, host ≤ x.2 ∧ x.2 + x.1.size ≤ host + allocAlignUp (hostSize rs) := by
    intro stop hstop hle x hx
    have := verify_inside halign hv hstop (by omega) x hx
    omega
  refine ⟨⟨checked, hv, heq⟩, fun hfit => hranges.2 ?_, fun hne => hranges.trans ⟨?_, ?_⟩⟩
  · have hsum : hostSize rs = total rs := hostSize_eq (by simp only [pageSize] at hfit; omega)
    have hup : total rs ≤ allocAlignUp (hostSize rs) := by
      rw [hsum]
      exact Rounding.le_up (by decide) (by decide) (by omega)
    obtain ⟨stop, hstop, hle⟩ := finish_le_total halign (show host + total rs < 2 ^ 64 by omega)
    exact hwithin stop hstop (by omega)
  · exact finish_of_inside halign (Nat.pos_of_ne_zero hne) (by omega) (by omega) hv
  · rintro ⟨stop, hstop, hle⟩
    exact hwithin stop hstop hle

/-- The enclave, and the mapping below it. -/
def exampleEnclave : Enclave := ⟨0x100000, 0x200000, 0x180000, by decide, by decide⟩

def exampleMmap (n : Nat) : Option Nat := if n ≤ 0x10000 then some 0x10000 else none

theorem hostRanges_within_one :
    let r : SubRegion := ⟨.inout, 10, 16, 0x110000, 0, false⟩
    deviceIoControl exampleEnclave exampleMmap id id [r] =
        some (0x10000, [{ r with hostAddr := 0x10000 }]) ∧
      0x10000 + 10 ≤ 0x10000 + allocAlignUp (hostSize [r]) := by
  intro r
  have hrun : deviceIoControl exampleEnclave exampleMmap id id [r] =
    some (0x10000, [{ r with hostAddr := 0x10000 }]) := by decide
  refine ⟨hrun, ((hostRanges_within ?_ hrun).2.1 (by decide) _ mem_cons_self (by decide)).2⟩
  simp [r]

/-- Two empty sub-regions with an alignment of `2 ^ 63 - 1`: what is needed wraps around, and the
last range ends two bytes after the mapping. -/
theorem hostRanges_wrap :
    let p : SubRegion := ⟨.none, 8, 1, 0x110000, 0, true⟩
    let e : SubRegion := ⟨.none, 0, 2 ^ 63 - 1, 0x120000, 0, false⟩
    let rs := [p, { p with gramineAddr := 0x110008 }, ⟨.out, 4082, 1, 0x110010, 0, false⟩, e, e]
    (deviceIoControl exampleEnclave exampleMmap (fun _ => 0x120000) (fun j => 0x130000 + 8 * j)
        rs).map (fun x => (x.1, x.2.map fun r => (r.hostAddr, r.size))) =
      some (0x10000, [(0x10000, 8), (0x10008, 8), (0x10010, 4082), (0, 0), (0, 0)]) ∧
    allocAlignUp (hostSize rs) = 4096 := by
  decide +kernel

end Ioctl
