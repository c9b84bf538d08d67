import Gramine.AvlTree

/-!
# Bookkeeping of memory areas

`libos_vma.c`: the virtual memory areas (vmas) of a process, in an AVL tree ordered
by the ends of their ranges. Vmas are objects in memory; the tree holds those in
use, the others lie in the caches of the threads and in the memory manager that
`alloc_vma` takes them from.

The functions run in `M`, over the state of the whole component; a failed
assertion, `BUG()` or a `NULL` dereference is a `Fault`, which keeps the state it
happened in. Addresses and sizes are natural numbers, reduced modulo `2 ^ 64`
where the source computes them without a check. The locks are left out: each
function holds `vma_tree_lock` while it works on the tree.
-/

open Function

namespace Vma

/-! ## Constants -/

/-- Bit masks: `int flags` and `int prot`. -/
abbrev Flags := BitVec 32

/-- `flags & mask`, as a condition. -/
def has (flags mask : Flags) : Bool := flags &&& mask ≠ 0

def protRead : Flags := 0x1
def protWrite : Flags := 0x2
def protExec : Flags := 0x4
def protGrowsdown : Flags := 0x01000000

def mapShared : Flags := 0x01
def mapPrivate : Flags := 0x02
def mapSharedValidate : Flags := 0x03
def mapFixed : Flags := 0x10
def mapAnonymous : Flags := 0x20
def map32Bit : Flags := 0x40
def mapGrowsdown : Flags := 0x0100
def mapStack : Flags := 0x020000
def mapHugetlb : Flags := 0x040000
def mapFixedNoreplace : Flags := 0x100000
def mapHuge2MB : Flags := 0x54000000
def mapHuge1GB : Flags := 0x78000000

/-- `VMA_UNMAPPED`: the memory is not actually allocated. -/
def vmaUnmapped : Flags := 0x10000000

/-- `VMA_INTERNAL`: used internally. -/
def vmaInternal : Flags := 0x20000000

/-- `VMA_TAINTED`: backed by a file, and has been writable. -/
def vmaTainted : Flags := 0x40000000

/-- `filter_saved_flags`. -/
def filterSavedFlags (flags : Flags) : Flags :=
  flags &&& (mapShared ||| mapSharedValidate ||| mapPrivate ||| mapAnonymous ||| mapGrowsdown |||
    mapHugetlb ||| mapHuge2MB ||| mapHuge1GB ||| mapStack ||| vmaUnmapped ||| vmaInternal |||
    vmaTainted)

/-! ## Data -/

/-- The parts of `struct libos_handle` that are read here: its identity, its inode,
and `flags & O_RDWR`. -/
structure LibosHandle where
  id : Nat
  inode : Option Nat
  rdwr : Bool
  deriving DecidableEq, Repr

/-- `VMA_COMMENT_LEN`. -/
def vmaCommentLen : Nat := 16

/-- `char comment[VMA_COMMENT_LEN]`: a text that fits with its terminating zero. -/
abbrev Comment := { text : List UInt8 // text.length < vmaCommentLen }

/-- `copy_comment`. -/
def copyComment (comment : List UInt8) : Comment :=
  ⟨comment.take (vmaCommentLen - 1), Nat.lt_of_le_of_lt (List.length_take_le ..) (by decide)⟩

/-- `struct libos_vma` without its tree node; `stop` is the source's `end`. -/
structure LibosVma where
  begin : Nat
  stop : Nat
  prot : Flags
  flags : Flags
  file : Option LibosHandle
  offset : Nat
  comment : Comment
  deriving DecidableEq, Repr

/-- A vma of zero bytes. -/
def LibosVma.zero : LibosVma := ⟨0, 0, 0, 0, none, 0, copyComment []⟩

/-- The inode whose `num_mmapped` counts the vma. -/
def LibosVma.inode (v : LibosVma) : Option Nat := v.file.bind LibosHandle.inode

/-- The error codes. -/
inductive Errno
  | einval
  | enomem
  | eacces
  | eexist
  deriving DecidableEq, Repr

/-- Failed assertions and undefined behaviour. -/
inductive Fault
  /-- In the AVL tree, or a loop over it that does not end. -/
  | tree
  /-- `assert(g_total_memory_size >= length)` in `total_memory_size_sub`. -/
  | totalMemorySize
  /-- The assertion in `split_vma`. -/
  | split
  /-- `assert(old_num_mmapped > 0)` in `free_vma`. -/
  | numMmapped
  /-- `assert(next)` in `_vma_bkeep_change`; without assertions `NULL` is
  dereferenced. -/
  | noNextVma
  /-- `assert(prev->end == end)` in `_vma_bkeep_change`. -/
  | lastVma
  /-- The assertions on `max_addr` in `bkeep_mmap_any_in_range`. -/
  | search
  /-- The assertion on the alignment of the range, in `_vma_bkeep_remove` and
  `_vma_bkeep_change`. -/
  | alignment
  /-- Another assertion about the arguments of a function. -/
  | arguments
  /-- `BUG()` or an assertion in the allocation of a vma. -/
  | allocation
  deriving DecidableEq, Repr

/-- The part of `g_pal_public_state` that is read here, and the size of an area of
the memory manager. -/
structure PalPublicState where
  allocAlign : Nat
  memoryAddressStart : Nat
  memoryAddressEnd : Nat
  sharedAddressStart : Nat
  sharedAddressEnd : Nat
  earlyLibosMemRangeStart : Nat
  earlyLibosMemRangeEnd : Nat
  /-- `sizeof(MEM_AREA_TYPE) + __SUM_OBJ_SIZE(size_align_up(DEFAULT_VMA_COUNT))`. -/
  areaSize : Nat
  memory_lt : memoryAddressStart < memoryAddressEnd
  early_lt : earlyLibosMemRangeEnd = 0 ∨ earlyLibosMemRangeStart < earlyLibosMemRangeEnd
  memory_bound : memoryAddressEnd < 2 ^ 64
  shared_bound : sharedAddressEnd < 2 ^ 64

/-- What can be got from the memory manager of `memmgr.h`: freed objects, unused objects
of the active area, and the areas added after it. -/
structure MemMgr (Addr : Type) where
  freeList : List Addr
  objs : List Addr
  areas : List (List Addr)

/-- The state of the component. -/
structure State (Addr : Type) where
  /-- `vma_tree`. -/
  vmaTree : AvlTree.State Addr
  /-- The vmas in memory. -/
  vma : Addr → LibosVma
  /-- `g_total_memory_size`. -/
  totalMemorySize : Nat
  /-- `g_peak_total_memory_size`. -/
  peakTotalMemorySize : Nat
  /-- `num_mmapped` of each inode. -/
  numMmapped : Nat → Nat
  /-- `vma_cache` of each thread. -/
  cache : Nat → List Addr
  /-- `vma_mgr`. -/
  mgr : MemMgr Addr
  /-- `g_received_user_memory`. -/
  receivedUserMemory : Bool
  /-- What the next calls of `PalVirtualMemoryAlloc` return: an error, or memory for
  an area with these objects. -/
  pal : List (Option (List Addr))

/-- Computations on the state. -/
abbrev M (Addr : Type) := EStateM Fault (State Addr)

section Functions
variable {Addr : Type} [DecidableEq Addr]

/-- `assert(p)`. -/
def assertion (p : Prop) [Decidable p] (fault : Fault) : M Addr Unit :=
  if p then pure () else throw fault

/-- The fields of a vma. -/
def getVma (vma : Addr) : M Addr LibosVma := do
  let s ← get
  pure (s.vma vma)

/-- Writes fields of a vma. -/
def modifyVma (vma : Addr) (f : LibosVma → LibosVma) : M Addr Unit :=
  modify fun s => { s with vma := update s.vma vma (f (s.vma vma)) }

/-- `num_mmapped` of the inode of a file, if there is one, is incremented. -/
def countMmapped (file : Option LibosHandle) : M Addr Unit :=
  match file.bind LibosHandle.inode with
  | none => pure ()
  | some i => modify fun s =>
    { s with numMmapped := update s.numMmapped i (s.numMmapped i + 1) }

/-! ## The tree -/

/-- `vma_tree_cmp`. -/
def vmaTreeCmp (vma : Addr → LibosVma) (a b : Addr) : Bool := (vma a).stop ≤ (vma b).stop

/-- The bound on the iterations of a loop over the tree. -/
def State.fuel (s : State Addr) : Nat := s.vmaTree.nodes.length + 1

/-- A call that changes the tree. -/
def treeCall (call : AvlTree.Call Addr) : M Addr Unit := fun s =>
  match AvlTree.exec (vmaTreeCmp s.vma) s.vmaTree call with
  | none => .error .tree s
  | some t => .ok () { s with vmaTree := t }

/-- A call that reads the tree. -/
def treeLookup (f : State Addr → Option (Option Addr)) : M Addr (Option Addr) := fun s =>
  match f s with
  | none => .error .tree s
  | some vma => .ok vma s

/-- `_get_next_vma`. -/
def getNextVma (vma : Addr) : M Addr (Option Addr) :=
  treeLookup fun s => AvlTree.avlTreeNext s.fuel s.vmaTree.tree.mem vma

/-- `_get_prev_vma`. -/
def getPrevVma (vma : Addr) : M Addr (Option Addr) :=
  treeLookup fun s => AvlTree.avlTreePrev s.fuel s.vmaTree.tree.mem vma

/-- `_get_last_vma`. -/
def getLastVma : M Addr (Option Addr) :=
  treeLookup fun s => AvlTree.avlTreeLast s.fuel s.vmaTree.tree

/-- `_lookup_vma`. -/
def lookupVma (addr : Nat) : M Addr (Option Addr) :=
  treeLookup fun s =>
    AvlTree.avlTreeLowerBoundFn s.fuel (fun a => addr < (s.vma a).stop) s.vmaTree.tree

/-- `total_memory_size_add`. -/
def totalMemorySizeAdd (length : Nat) : M Addr Unit := modify fun s =>
  let total := (s.totalMemorySize + length) % 2 ^ 64
  { s with
    totalMemorySize := total
    peakTotalMemorySize := max s.peakTotalMemorySize total }

/-- `total_memory_size_sub`. -/
def totalMemorySizeSub (length : Nat) : M Addr Unit := do
  let s ← get
  assertion (length ≤ s.totalMemorySize) .totalMemorySize
  set { s with totalMemorySize := s.totalMemorySize - length }

/-- `copy_vma`. -/
def copyVma (oldVma newVma : Addr) : M Addr Unit := do
  let v ← getVma oldVma
  countMmapped v.file
  modifyVma newVma fun _ => { v with comment := copyComment v.comment.val }

/-- The vma from `addr` on. -/
def LibosVma.dropTo (v : LibosVma) (addr : Nat) : LibosVma :=
  { v with
    begin := addr
    offset := if v.file.isSome then (v.offset + (addr - v.begin)) % 2 ^ 64 else v.offset }

/-- `split_vma`. -/
def splitVma (oldVma newVma : Addr) (addr : Nat) : M Addr Unit := do
  let v ← getVma oldVma
  assertion (v.begin < addr ∧ addr < v.stop) .split
  copyVma oldVma newVma
  modifyVma newVma fun w => w.dropTo addr
  modifyVma oldVma fun w => { w with stop := addr }

/-! ## Removing a range -/

/-- What `_vma_bkeep_remove` returns: its result, what is left in `*new_vma_ptr`, and
the list `vmas_to_free`. -/
structure Removed (Addr : Type) where
  ret : Except Errno Unit
  newVma : Option Addr
  vmasToFree : List Addr

/-- Whether a vma is internal. -/
def LibosVma.isInternal (v : LibosVma) : Bool := has v.flags vmaInternal

/-- The first loop of `_vma_bkeep_remove`: whether all vmas of the range, from `vma`
on, are internal or all are not. -/
def checkInternal (stop : Nat) (isInternal : Bool) : Nat → Option Addr → M Addr Bool
  | _, none => pure true
  | 0, some _ => throw .tree
  | fuel + 1, some vma => do
    let v ← getVma vma
    if v.begin < stop then
      if v.isInternal ≠ isInternal then pure false
      else do
        let next ← getNextVma vma
        checkInternal stop isInternal fuel next
    else pure true

/-- The second loop of `_vma_bkeep_remove`, and what follows it: vmas that end in the
range are deleted, and one that ends after it is shortened. -/
def removeLoop (stop : Nat) : Nat → Addr → List Addr → M Addr (List Addr)
  | 0, _, _ => throw .tree
  | fuel + 1, vma, vmasToFree => do
    let v ← getVma vma
    if v.stop ≤ stop then do
      let next ← getNextVma vma
      treeCall (.delete vma)
      totalMemorySizeSub (v.stop - v.begin)
      match next with
      | none => pure (vmasToFree ++ [vma])
      | some next => removeLoop stop fuel next (vmasToFree ++ [vma])
    else if v.begin < stop then do
      totalMemorySizeSub (stop - v.begin)
      modifyVma vma fun w => w.dropTo stop
      pure vmasToFree
    else pure vmasToFree

/-- `IS_ALLOC_ALIGNED`. -/
def PalPublicState.isAllocAligned (pal : PalPublicState) (n : Nat) : Bool := n % pal.allocAlign = 0

/-- `_vma_bkeep_remove`. -/
def vmaBkeepRemove (pal : PalPublicState) (begin stop : Nat) (isInternal : Bool)
    (newVma : Option Addr) : M Addr (Removed Addr) := do
  assertion (pal.isAllocAligned begin ∧ pal.isAllocAligned stop) .alignment
  let first ← lookupVma begin
  match first with
  | none => pure ⟨.ok (), newVma, []⟩
  | some vma => do
    let s ← get
    let agree ← checkInternal stop isInternal s.fuel (some vma)
    if agree = false then pure ⟨.error .eacces, newVma, []⟩
    else do
      let v ← getVma vma
      if v.begin < begin then
        if stop < v.stop then
          match newVma with
          | none => pure ⟨.error .enomem, none, []⟩
          | some newVma => do
            splitVma vma newVma stop
            modifyVma vma fun w => { w with stop := begin }
            treeCall (.insert newVma)
            totalMemorySizeSub (stop - begin)
            pure ⟨.ok (), none, []⟩
        else do
          totalMemorySizeSub (v.stop - begin)
          modifyVma vma fun w => { w with stop := begin }
          let next ← getNextVma vma
          match next with
          | none => pure ⟨.ok (), newVma, []⟩
          | some next => do
            let vmasToFree ← removeLoop stop s.fuel next []
            pure ⟨.ok (), newVma, vmasToFree⟩
      else do
        let vmasToFree ← removeLoop stop s.fuel vma []
        pure ⟨.ok (), newVma, vmasToFree⟩

/-! ## Objects for vmas -/

/-- `VMA_CACHE_SIZE`. -/
def vmaCacheSize : Nat := 3

/-- What a call runs in: the number of its thread, the address of `tmp_vma` on its
stack, and which objects lie in migrated memory. -/
structure Env (Addr : Type) where
  tid : Nat
  tmpVma : Addr
  memoryMigrated : Addr → Bool

/-- The cache of the thread. -/
def setCache (env : Env Addr) (cache : List Addr) : M Addr Unit :=
  modify fun s => { s with cache := update s.cache env.tid cache }

/-- `get_from_thread_vma_cache`. -/
def getFromThreadVmaCache (env : Env Addr) : M Addr (Option Addr) := do
  let s ← get
  match s.cache env.tid with
  | [] => pure none
  | vma :: rest => do
    setCache env rest
    pure (some vma)

/-- `add_to_thread_vma_cache`. -/
def addToThreadVmaCache (env : Env Addr) (vma : Addr) : M Addr Bool := do
  let s ← get
  if vmaCacheSize ≤ (s.cache env.tid).length then pure false
  else do
    setCache env (vma :: s.cache env.tid)
    pure true

/-- `remove_from_thread_vma_cache`. -/
def removeFromThreadVmaCache (env : Env Addr) (vma : Addr) : M Addr Unit := do
  let s ← get
  setCache env ((s.cache env.tid).erase vma)

/-- When all objects are used, the next area is activated, if there is one. -/
def MemMgr.activate (mgr : MemMgr Addr) : Option (MemMgr Addr) :=
  if mgr.objs = [] ∧ mgr.freeList = [] then
    match mgr.areas with
    | [] => none
    | area :: areas => some { mgr with objs := area, areas := areas }
  else some mgr

/-- `get_mem_obj_from_mgr`. -/
def getMemObjFromMgr : M Addr (Option Addr) := do
  let s ← get
  match s.mgr.activate with
  | none => pure none
  | some mgr =>
    match mgr.freeList, mgr.objs with
    | obj :: freeList, _ => do
      set { s with mgr := { mgr with freeList := freeList } }
      pure (some obj)
    | [], obj :: objs => do
      set { s with mgr := { mgr with objs := objs } }
      pure (some obj)
    | [], [] => throw .allocation

/-- `free_mem_obj_to_mgr`. -/
def freeMemObjToMgr (env : Env Addr) (obj : Addr) : M Addr Unit :=
  if env.memoryMigrated obj then pure ()
  else modify fun s => { s with mgr := { s.mgr with freeList := s.mgr.freeList ++ [obj] } }

/-- The counter of the inode of a vma that is freed. -/
def uncountMmapped (file : Option LibosHandle) : M Addr Unit :=
  match file.bind LibosHandle.inode with
  | none => pure ()
  | some i => do
    let s ← get
    assertion (0 < s.numMmapped i) .numMmapped
    set { s with numMmapped := update s.numMmapped i (s.numMmapped i - 1) }

/-- `free_vma`. -/
def freeVma (env : Env Addr) (vma : Addr) : M Addr Unit := do
  let v ← getVma vma
  uncountMmapped v.file
  let cached ← addToThreadVmaCache env vma
  if cached then pure () else freeMemObjToMgr env vma

/-- `free_vmas_freelist`. -/
def freeVmasFreelist (env : Env Addr) : List Addr → M Addr Unit
  | [] => pure ()
  | vma :: vmas => do
    freeVma env vma
    freeVmasFreelist env vmas

/-- `if (vma) { free_vma(vma); }` -/
def freeOptVma (env : Env Addr) : Option Addr → M Addr Unit
  | none => pure ()
  | some vma => freeVma env vma

/-- `memset(vma, 0, sizeof(*vma))`, which clears the tree node as well. -/
def zeroVma (vma : Addr) : M Addr Unit := modify fun s =>
  { s with
    vma := update s.vma vma .zero
    vmaTree.tree.mem := AvlTree.avlTreeInitNode vma s.vmaTree.tree.mem }

/-! ## Mapping at any address -/

/-- The loop of `bkeep_mmap_any_in_range`, downwards from `vma`, and the check after
it: the end of the gap that was found. -/
def findGap (bottomAddr length : Nat) : Nat → Nat → Option Addr → M Addr (Option Nat)
  | 0, _, some _ => throw .tree
  | _, maxAddr, none =>
    pure (if bottomAddr ≤ maxAddr ∧ length ≤ maxAddr - bottomAddr then some maxAddr else none)
  | fuel + 1, maxAddr, some vma => do
    let v ← getVma vma
    if bottomAddr ≤ v.stop then do
      assertion (v.stop ≤ maxAddr) .search
      if length ≤ maxAddr - v.stop then pure (some maxAddr)
      else do
        let prev ← getPrevVma vma
        findGap bottomAddr length fuel v.begin prev
    else
      pure (if bottomAddr ≤ maxAddr ∧ length ≤ maxAddr - bottomAddr then some maxAddr else none)

/-- The fields of a new vma. -/
structure Mapping where
  prot : Flags
  flags : Flags
  file : Option LibosHandle
  offset : Nat
  comment : List UInt8
  deriving DecidableEq, Repr

/-- The vma for a mapping of a range. -/
def Mapping.vma (map : Mapping) (begin stop : Nat) : LibosVma where
  begin := begin
  stop := stop
  prot := map.prot
  flags := filterSavedFlags map.flags |||
    (if map.file.isSome ∧ has map.prot protWrite then vmaTainted else 0)
  file := map.file
  offset := if map.file.isSome then map.offset else 0
  comment := copyComment map.comment

/-- Where the search of `bkeep_mmap_any_in_range` starts: `max_addr`, and the vma
below it. -/
def searchStart (topAddr : Nat) : M Addr (Nat × Option Addr) := do
  let vma ← lookupVma topAddr
  match vma with
  | none => do
    let last ← getLastVma
    pure (topAddr, last)
  | some vma => do
    let v ← getVma vma
    let prev ← getPrevVma vma
    pure (min topAddr v.begin, prev)

/-- The part of `bkeep_mmap_any_in_range` under the lock: the new vma is put in a gap,
or freed if there is none. -/
def placeInGap (env : Env Addr) (bottomAddr topAddr length : Nat) (newVma : Addr) :
    M Addr (Except Errno Nat) := do
  let start ← searchStart topAddr
  let s ← get
  assertion (∀ a ∈ start.2, (s.vma a).stop ≤ start.1) .search
  let gap ← findGap bottomAddr length s.fuel start.1 start.2
  match gap with
  | none => do
    freeVma env newVma
    pure (.error .enomem)
  | some maxAddr => do
    modifyVma newVma fun w => { w with begin := maxAddr - length, stop := maxAddr }
    treeCall (.insert newVma)
    totalMemorySizeAdd (maxAddr - (maxAddr - length))
    pure (.ok (maxAddr - length))

/-- `bkeep_mmap_any_in_range` after the allocation of `new_vma`. -/
def mmapAnyInRangeLocked (env : Env Addr) (bottomAddr topAddr length : Nat) (map : Mapping)
    (newVma : Addr) : M Addr (Except Errno Nat) := do
  modifyVma newVma fun w => map.vma w.begin w.stop
  countMmapped map.file
  placeInGap env bottomAddr topAddr length newVma

/-- The range that `bkeep_mmap_any_in_range` searches, when memory for the early
initialization is asked for: only the range the PAL has set aside. -/
def earlyRange (pal : PalPublicState) (received : Bool) (flags : Flags)
    (bottomAddr topAddr : Nat) : Option (Nat × Nat) :=
  if received = false ∧ has flags vmaInternal then
    if topAddr ≤ pal.earlyLibosMemRangeStart ∨ pal.earlyLibosMemRangeEnd ≤ bottomAddr then none
    else some (max bottomAddr pal.earlyLibosMemRangeStart, min topAddr pal.earlyLibosMemRangeEnd)
  else some (bottomAddr, topAddr)

/-- The range with `MAP_32BIT`: only the first 2 gigabytes. -/
def range32Bit (flags : Flags) (bottomAddr topAddr : Nat) : Option (Nat × Nat) :=
  if has flags map32Bit then
    if min topAddr (2 ^ 31) ≤ bottomAddr then none else some (bottomAddr, min topAddr (2 ^ 31))
  else some (bottomAddr, topAddr)

/-- `bkeep_mmap_any_in_range`; `alloc` is `alloc_vma`. -/
def bkeepMmapAnyInRange (pal : PalPublicState) (env : Env Addr) (alloc : M Addr (Option Addr))
    (bottomAddr topAddr length : Nat) (map : Mapping) : M Addr (Except Errno Nat) := do
  assertion (bottomAddr < topAddr) .arguments
  assertion (pal.memoryAddressStart ≤ bottomAddr ∧ topAddr ≤ pal.memoryAddressEnd ∨
    pal.sharedAddressStart ≤ bottomAddr ∧ topAddr ≤ pal.sharedAddressEnd) .arguments
  if length = 0 ∨ pal.isAllocAligned length = false then pure (.error .einval)
  else if pal.isAllocAligned bottomAddr = false ∨ pal.isAllocAligned topAddr = false then
    pure (.error .einval)
  else do
    let s ← get
    match earlyRange pal s.receivedUserMemory map.flags bottomAddr topAddr with
    | none => pure (.error .enomem)
    | some (bottomAddr, topAddr) => do
      assertion (bottomAddr < topAddr) .arguments
      match range32Bit map.flags bottomAddr topAddr with
      | none => pure (.error .enomem)
      | some (bottomAddr, topAddr) => do
        let newVma ← alloc
        match newVma with
        | none => pure (.error .enomem)
        | some newVma => mmapAnyInRangeLocked env bottomAddr topAddr length map newVma

/-- `bkeep_mmap_any`. -/
def bkeepMmapAny (pal : PalPublicState) (env : Env Addr) (alloc : M Addr (Option Addr))
    (length : Nat) (map : Mapping) : M Addr (Except Errno Nat) :=
  bkeepMmapAnyInRange pal env alloc pal.memoryAddressStart pal.memoryAddressEnd length map

/-! ## Allocation of vmas -/

/-- `ALLOC_ALIGN_UP`. -/
def PalPublicState.allocAlignUp (pal : PalPublicState) (n : Nat) : Nat :=
  (n + pal.allocAlign - 1) / pal.allocAlign * pal.allocAlign

/-- `PalVirtualMemoryAlloc`, for an area of the memory manager. -/
def palVirtualMemoryAlloc : M Addr (Option (List Addr)) := do
  let s ← get
  match s.pal with
  | [] => pure none
  | area :: rest => do
    set { s with pal := rest }
    pure area

/-- The mapping of an area of vmas, with the comment `vma`. -/
def areaMapping : Mapping :=
  ⟨protRead ||| protWrite, mapPrivate ||| mapAnonymous ||| vmaInternal, none, 0, [118, 109, 97]⟩

/-- `_vma_malloc`: the objects of the new area. -/
def vmaMalloc (pal : PalPublicState) (env : Env Addr) (alloc : M Addr (Option Addr)) :
    M Addr (Option (List Addr)) := do
  let size := pal.allocAlignUp pal.areaSize
  let ret ← bkeepMmapAny pal env alloc size areaMapping
  match ret with
  | .error _ => pure none
  | .ok addr => do
    let area ← palVirtualMemoryAlloc
    match area with
    | some objs => pure (some objs)
    | none => do
      let removed ← vmaBkeepRemove pal addr (addr + size) true none
      match removed.ret with
      | .error _ => throw .allocation
      | .ok () => do
        freeVmasFreelist env removed.vmasToFree
        pure none

/-- `tmp_vma` is replaced in the tree, if it is there, and `vma_migrate` freed
otherwise. -/
def migrateTmpVma (env : Env Addr) (vmaMigrate : Addr) : M Addr Unit := do
  let s ← get
  if (s.vmaTree.tree.mem env.tmpVma).parent ≠ none ∨ s.vmaTree.tree.root = some env.tmpVma then do
    copyVma env.tmpVma vmaMigrate
    treeCall (.swapNode env.tmpVma vmaMigrate)
  else freeMemObjToMgr env vmaMigrate

/-- `alloc_vma` when the memory manager has no object left: it is enlarged, and the
vma for the new area is `tmp_vma` at first. -/
def allocVmaEnlarge (pal : PalPublicState) (env : Env Addr) (alloc : M Addr (Option Addr)) :
    M Addr (Option Addr) := do
  zeroVma env.tmpVma
  let added ← addToThreadVmaCache env env.tmpVma
  assertion added .allocation
  let area ← vmaMalloc pal env alloc
  match area with
  | none => do
    removeFromThreadVmaCache env env.tmpVma
    pure none
  | some objs => do
    modify fun s => { s with mgr := { s.mgr with areas := s.mgr.areas ++ [objs] } }
    let vmaMigrate ← getMemObjFromMgr
    match vmaMigrate with
    | none => throw .allocation
    | some vmaMigrate => do
      migrateTmpVma env vmaMigrate
      removeFromThreadVmaCache env env.tmpVma
      getMemObjFromMgr

/-- `alloc_vma`, before the object is cleared. -/
def takeVma (pal : PalPublicState) (env : Env Addr) (alloc : M Addr (Option Addr)) :
    M Addr (Option Addr) := do
  let cached ← getFromThreadVmaCache env
  match cached with
  | some vma => pure (some vma)
  | none => do
    let obj ← getMemObjFromMgr
    match obj with
    | some vma => pure (some vma)
    | none => allocVmaEnlarge pal env alloc

/-- `alloc_vma`, which can be called within itself `depth - 1` times. -/
def allocVma (pal : PalPublicState) (env : Env Addr) : Nat → M Addr (Option Addr)
  | 0 => throw .allocation
  | depth + 1 => do
    let vma ← takeVma pal env (allocVma pal env depth)
    match vma with
    | none => pure none
    | some vma => do
      zeroVma vma
      pure (some vma)

/-- `alloc_vma` as it is called from outside: it is called at most once within
itself. -/
def allocVmaTop (pal : PalPublicState) (env : Env Addr) : M Addr (Option Addr) :=
  allocVma pal env 2

/-! ## Unmapping -/

/-- `_add_unmapped_vma`. -/
def addUnmappedVma (begin stop : Nat) (vma : Addr) : M Addr Unit := do
  modifyVma vma fun _ => ⟨begin, stop, 0, vmaInternal ||| vmaUnmapped, none, 0, copyComment []⟩
  treeCall (.insert vma)
  totalMemorySizeAdd (stop - begin)

/-- `bkeep_munmap`: on success, the temporary vma. -/
def bkeepMunmap (pal : PalPublicState) (env : Env Addr) (addr length : Nat) (isInternal : Bool) :
    M Addr (Except Errno Addr) := do
  if length = 0 ∨ pal.isAllocAligned length = false ∨ pal.isAllocAligned addr = false then
    pure (.error .einval)
  else do
    let vma1 ← allocVmaTop pal env
    match vma1 with
    | none => pure (.error .enomem)
    | some vma1 => do
      let vma2 ← allocVmaTop pal env
      let stop := (addr + length) % 2 ^ 64
      let removed ← vmaBkeepRemove pal addr stop isInternal vma2
      match removed.ret with
      | .error e => do
        freeVmasFreelist env removed.vmasToFree
        freeVma env vma1
        freeOptVma env removed.newVma
        pure (.error e)
      | .ok () => do
        addUnmappedVma addr stop vma1
        freeVmasFreelist env removed.vmasToFree
        freeOptVma env removed.newVma
        pure (.ok vma1)

/-- `bkeep_remove_tmp_vma`. -/
def bkeepRemoveTmpVma (env : Env Addr) (vma : Addr) : M Addr Unit := do
  let v ← getVma vma
  assertion (v.flags = vmaInternal ||| vmaUnmapped) .arguments
  treeCall (.delete vma)
  totalMemorySizeSub (v.stop - v.begin)
  freeVma env vma

/-- `bkeep_convert_tmp_vma_to_user`. -/
def bkeepConvertTmpVmaToUser (vma : Addr) : M Addr Unit := do
  let v ← getVma vma
  assertion (v.flags = vmaInternal ||| vmaUnmapped) .arguments
  modifyVma vma fun w => { w with flags := w.flags &&& ~~~ vmaInternal }

/-! ## Mapping at a fixed address -/

/-- Makes room for a fixed mapping: an error if there is a vma in the range, with
`MAP_FIXED_NOREPLACE`, and otherwise the range is removed. -/
def makeRoom (pal : PalPublicState) (begin stop : Nat) (flags : Flags) (vma1 : Option Addr) :
    M Addr (Removed Addr) :=
  if has flags mapFixedNoreplace then do
    let tmpVma ← lookupVma begin
    let s ← get
    if ∃ a ∈ tmpVma, (s.vma a).begin < stop then pure ⟨.error .eexist, vma1, []⟩
    else pure ⟨.ok (), vma1, []⟩
  else vmaBkeepRemove pal begin stop (has flags vmaInternal) vma1

/-- `bkeep_mmap_fixed`. -/
def bkeepMmapFixed (pal : PalPublicState) (env : Env Addr) (addr length : Nat) (map : Mapping) :
    M Addr (Except Errno Unit) := do
  assertion (has map.flags (mapFixed ||| mapFixedNoreplace)) .arguments
  if length = 0 ∨ pal.isAllocAligned length = false ∨ pal.isAllocAligned addr = false then
    pure (.error .einval)
  else do
    let newVma ← allocVmaTop pal env
    match newVma with
    | none => pure (.error .enomem)
    | some newVma => do
      let vma1 ← allocVmaTop pal env
      let stop := (addr + length) % 2 ^ 64
      modifyVma newVma fun _ => map.vma addr stop
      countMmapped map.file
      let removed ← makeRoom pal addr stop map.flags vma1
      match removed.ret with
      | .error e => do
        freeVmasFreelist env removed.vmasToFree
        freeOptVma env removed.newVma
        freeVma env newVma
        pure (.error e)
      | .ok () => do
        treeCall (.insert newVma)
        totalMemorySizeAdd (stop - addr)
        freeVmasFreelist env removed.vmasToFree
        freeOptVma env removed.newVma
        pure (.ok ())

/-! ## Changing protections -/

/-- `vma_update_prot`. -/
def LibosVma.updateProt (v : LibosVma) (prot : Flags) : LibosVma :=
  { v with
    prot := prot &&& (protRead ||| protWrite ||| protExec)
    flags := if v.file.isSome ∧ has prot protWrite then v.flags ||| vmaTainted else v.flags }

/-- `is_file_prot_matching`. -/
def isFileProtMatching (file : LibosHandle) (prot : Flags) : Bool :=
  !has prot protWrite || file.rdwr

/-- The errors that the loop of `_vma_bkeep_change` returns at a vma. -/
def LibosVma.changeError (v : LibosVma) (prot : Flags) (isInternal : Bool) : Option Errno :=
  if v.isInternal ≠ isInternal then some .eacces
  else if has prot protGrowsdown ∧ has v.flags mapGrowsdown = false then some .einval
  else if has v.flags mapShared ∧ (∃ file ∈ v.file, isFileProtMatching file prot = false) then
    some .eacces
  else none

/-- The first loop of `_vma_bkeep_change`, and the check after it. -/
def checkChange (stop : Nat) (prot : Flags) (isInternal : Bool) :
    Nat → Addr → Bool → M Addr (Except Errno Unit)
  | 0, _, _ => throw .tree
  | fuel + 1, vma, isContinuous => do
    let v ← getVma vma
    match v.changeError prot isInternal with
    | some e => pure (.error e)
    | none =>
      if stop ≤ v.stop then pure (if isContinuous then .ok () else .error .enomem)
      else do
        let next ← getNextVma vma
        match next with
        | none => pure (.error .enomem)
        | some next => do
          let w ← getVma next
          checkChange stop prot isInternal fuel next (isContinuous && decide (v.stop = w.begin))

/-- The second loop of `_vma_bkeep_change`, and what follows it: what is left in
`*new_vma_ptr2`. -/
def changeLoop (stop : Nat) (prot : Flags) (newVma2 : Addr) : Nat → Addr → M Addr (Option Addr)
  | 0, _ => throw .tree
  | fuel + 1, vma => do
    let v ← getVma vma
    if v.stop ≤ stop then do
      modifyVma vma fun w => w.updateProt prot
      let next ← getNextVma vma
      match next with
      | none => do
        assertion (v.stop = stop) .lastVma
        pure (some newVma2)
      | some next => changeLoop stop prot newVma2 fuel next
    else if stop ≤ v.begin then pure (some newVma2)
    else do
      splitVma vma newVma2 stop
      modifyVma vma fun w => w.updateProt prot
      treeCall (.insert newVma2)
      pure none

/-- The second part of `_vma_bkeep_change`, when the range begins inside `vma`: what
is left in `*new_vma_ptr2`. -/
def changeInside (begin stop : Nat) (prot : Flags) (vma newVma1 newVma2 : Addr) :
    M Addr (Option Addr) := do
  let s ← get
  splitVma vma newVma1 begin
  modifyVma newVma1 fun w => w.updateProt prot
  let next ← getNextVma vma
  treeCall (.insert newVma1)
  let w ← getVma newVma1
  if stop < w.stop then do
    splitVma newVma1 newVma2 stop
    let v ← getVma vma
    modifyVma newVma2 fun w => w.updateProt v.prot
    treeCall (.insert newVma2)
    pure none
  else
    match next with
    | none => throw .noNextVma
    | some next => changeLoop stop prot newVma2 s.fuel next

/-- `_vma_bkeep_change`: its result, and what is left in `*new_vma_ptr1` and
`*new_vma_ptr2`. -/
def vmaBkeepChange (pal : PalPublicState) (begin stop : Nat) (prot : Flags) (isInternal : Bool)
    (newVma1 newVma2 : Addr) : M Addr (Except Errno Unit × Option Addr × Option Addr) := do
  assertion (pal.isAllocAligned begin ∧ pal.isAllocAligned stop) .alignment
  assertion (begin < stop) .arguments
  let first ← lookupVma begin
  match first with
  | none => pure (.error .enomem, some newVma1, some newVma2)
  | some vma => do
    let s ← get
    let v ← getVma vma
    if begin < v.begin then pure (.error .enomem, some newVma1, some newVma2)
    else do
      let ret ← checkChange stop prot isInternal s.fuel vma true
      match ret with
      | .error e => pure (.error e, some newVma1, some newVma2)
      | .ok () =>
        if v.begin < begin ∧ has prot protGrowsdown = false then do
          let rest ← changeInside begin stop prot vma newVma1 newVma2
          pure (.ok (), none, rest)
        else do
          let rest ← changeLoop stop prot newVma2 s.fuel vma
          pure (.ok (), some newVma1, rest)

/-- `bkeep_mprotect`. -/
def bkeepMprotect (pal : PalPublicState) (env : Env Addr) (addr length : Nat) (prot : Flags)
    (isInternal : Bool) : M Addr (Except Errno Unit) := do
  if length = 0 ∨ pal.isAllocAligned length = false ∨ pal.isAllocAligned addr = false then
    pure (.error .einval)
  else do
    let vma1 ← allocVmaTop pal env
    match vma1 with
    | none => pure (.error .enomem)
    | some vma1 => do
      let vma2 ← allocVmaTop pal env
      match vma2 with
      | none => do
        freeVma env vma1
        pure (.error .enomem)
      | some vma2 => do
        let (ret, vma1, vma2) ←
          vmaBkeepChange pal addr ((addr + length) % 2 ^ 64) prot isInternal vma1 vma2
        freeOptVma env vma1
        freeOptVma env vma2
        pure ret

/-! ## Initialization -/

/-- `_bkeep_initial_vma`. -/
def bkeepInitialVma (newVma : Addr) : M Addr (Except Errno Unit) := do
  let w ← getVma newVma
  let tmpVma ← lookupVma w.begin
  let s ← get
  if ∃ a ∈ tmpVma, (s.vma a).begin < w.stop then pure (.error .eexist)
  else do
    treeCall (.insert newVma)
    totalMemorySizeAdd (w.stop - w.begin)
    pure (.ok ())

/-! ## Runs -/

/-- The functions that other components call. -/
inductive Op (Addr : Type)
  /-- A range that is in use from the start, as `init_vma` finds it. -/
  | initialVma (vma : Addr) (begin stop : Nat) (prot : Flags) (comment : List UInt8)
  /-- `g_received_user_memory = true`. -/
  | receiveUserMemory
  | mmapFixed (addr length : Nat) (map : Mapping)
  | mmapAnyInRange (bottomAddr topAddr length : Nat) (map : Mapping)
  | mprotect (addr length : Nat) (prot : Flags) (isInternal : Bool)
  | munmap (addr length : Nat) (isInternal : Bool)
  | removeTmpVma (vma : Addr)
  | convertTmpVmaToUser (vma : Addr)

/-- A call, what it runs in, and what `PalVirtualMemoryAlloc` returns to it. -/
structure Call (Addr : Type) where
  env : Env Addr
  areas : List (Option (List Addr))
  op : Op Addr

/-- The effect of a function. -/
def Op.run (pal : PalPublicState) (env : Env Addr) : Op Addr → M Addr Unit
  | .initialVma vma begin stop prot comment => do
    modifyVma vma fun _ => ⟨begin, stop, prot, mapPrivate ||| mapAnonymous ||| vmaInternal, none, 0,
      copyComment comment⟩
    let _ ← bkeepInitialVma vma
  | .receiveUserMemory => modify fun s => { s with receivedUserMemory := true }
  | .mmapFixed addr length map => do
    let _ ← bkeepMmapFixed pal env addr length map
  | .mmapAnyInRange bottomAddr topAddr length map => do
    let _ ← bkeepMmapAnyInRange pal env (allocVmaTop pal env) bottomAddr topAddr length map
  | .mprotect addr length prot isInternal => do
    let _ ← bkeepMprotect pal env addr length prot isInternal
  | .munmap addr length isInternal => do
    let _ ← bkeepMunmap pal env addr length isInternal
  | .removeTmpVma vma => bkeepRemoveTmpVma env vma
  | .convertTmpVmaToUser vma => bkeepConvertTmpVmaToUser vma

/-- The effect of a call. -/
def exec (pal : PalPublicState) (call : Call Addr) : M Addr Unit := do
  modify fun s => { s with pal := call.areas }
  call.op.run pal call.env

/-- The objects the memory manager can still hand out. -/
def MemMgr.objects (mgr : MemMgr Addr) : List Addr :=
  mgr.freeList ++ mgr.objs ++ mgr.areas.flatten

/-- The object is in the tree, in a cache or in the memory manager. -/
def State.InUse (s : State Addr) (a : Addr) : Prop :=
  a ∈ s.vmaTree.nodes ∨ (∃ tid, a ∈ s.cache tid) ∨ a ∈ s.mgr.objects

/-- What the caller of each function has to ensure: aligned ranges are not asked
for, as the functions check that; but ranges may not wrap around, and a temporary
vma has to be one. -/
def Op.Legal (pal : PalPublicState) (s : State Addr) : Op Addr → Prop
  | .initialVma vma begin stop _ _ => ¬ s.InUse vma ∧ begin < stop ∧ stop < 2 ^ 64
  | .receiveUserMemory => True
  | .mmapFixed addr length map =>
    has map.flags (mapFixed ||| mapFixedNoreplace) ∧ addr + length < 2 ^ 64
  | .mmapAnyInRange bottomAddr topAddr _ _ => bottomAddr < topAddr ∧
      (pal.memoryAddressStart ≤ bottomAddr ∧ topAddr ≤ pal.memoryAddressEnd ∨
        pal.sharedAddressStart ≤ bottomAddr ∧ topAddr ≤ pal.sharedAddressEnd)
  | .mprotect addr length _ _ => addr + length < 2 ^ 64
  | .munmap addr length _ => addr + length < 2 ^ 64
  | .removeTmpVma vma => vma ∈ s.vmaTree.nodes ∧ (s.vma vma).flags = vmaInternal ||| vmaUnmapped
  | .convertTmpVmaToUser vma =>
    vma ∈ s.vmaTree.nodes ∧ (s.vma vma).flags = vmaInternal ||| vmaUnmapped

/-- The memory a call gets for vmas is new: the objects of the areas that the PAL
allocates, and `tmp_vma`. -/
structure Call.Fresh (call : Call Addr) (s : State Addr) : Prop where
  nodup : (call.env.tmpVma :: call.areas.reduceOption.flatten).Nodup
  notInUse : ∀ a ∈ call.env.tmpVma :: call.areas.reduceOption.flatten, ¬ s.InUse a
  nonempty : some [] ∉ call.areas

/-- A call that the caller may make. -/
def Legal (pal : PalPublicState) (s : State Addr) (call : Call Addr) : Prop :=
  call.op.Legal pal s ∧ call.Fresh s

/-- An empty tree, and distinct objects for vmas. -/
structure Initial (s : State Addr) : Prop where
  tree : AvlTree.Initial s.vmaTree
  total : s.totalMemorySize = 0
  numMmapped : ∀ i, s.numMmapped i = 0
  objects : s.mgr.objects.Nodup
  areas : [] ∉ s.mgr.areas
  caches : ∀ tid, s.cache tid = []

/-- A legal call that returns. -/
def Step (pal : PalPublicState) (s : State Addr) (call : Call Addr) (s' : State Addr) : Prop :=
  Legal pal s call ∧ exec pal call s = .ok () s'

end Functions

end Vma
