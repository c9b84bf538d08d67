import Gramine.Brk

/-!
# Loading ELF objects

`libos_rtld.c`: `map_elf_object` turns each `PT_LOAD` header of a file into a load command and
executes the commands one after the other. A position-independent object first gets a memory area
from `reserve_dyn`, and is moved there; any other one is loaded at the addresses of its headers.

The numbers in the headers come from the file, and all additions are those of 64-bit words. The
assertions of `read_loadcmd` are not part of a release build, so they do not stop the loader here:
what they state is `Loadcmd.Asserted`, in the next module.
-/

open Vma

namespace Elf

/-! ## Data -/

/-- `p_type`, as far as the loader looks at it. -/
inductive PType
  | load
  | interp
  | other
  deriving DecidableEq, Repr

/-- `e_type`, of the two kinds that `check_elf_header` lets through. -/
inductive EType
  | exec
  | dyn
  deriving DecidableEq, Repr

/-- `elf_phdr_t`. -/
structure Phdr where
  type : PType
  flags : BitVec 32
  offset : BitVec 64
  vaddr : BitVec 64
  filesz : BitVec 64
  memsz : BitVec 64
  align : BitVec 64
  deriving DecidableEq, Repr

def pfX : BitVec 32 := 1
def pfW : BitVec 32 := 2
def pfR : BitVec 32 := 4

/-- `sizeof(elf_phdr_t)`. -/
def sizeofPhdr : Nat := 56

/-- A file, with its header and the program headers that are read from it. -/
structure Object where
  file : LibosHandle
  /-- `e_type`. -/
  type : EType
  /-- `e_entry`. -/
  entry : BitVec 64
  /-- `e_phoff`. -/
  phoff : BitVec 64
  /-- The `e_phnum` entries of the table. -/
  phdrs : List Phdr
  phnum_lt : phdrs.length < 2 ^ 16

/-- `struct loadcmd`. -/
structure Loadcmd where
  start : Nat
  dataEnd : Nat
  mapEnd : Nat
  allocEnd : Nat
  mapOff : Nat
  prot : Flags
  deriving DecidableEq, Repr

/-- `struct link_map`; a null pointer is `0`. -/
structure LinkMap where
  baseDiff : Nat
  phdr : Nat
  entry : Nat
  phnum : Nat
  mapStart : Nat
  mapEnd : Nat
  interpLibname : Nat
  dataSegmentSize : Nat
  deriving DecidableEq, Repr

/-- What the loader runs in. -/
structure Loader (Addr : Type) where
  pal : PalPublicState
  env : Env Addr
  /-- `g_aslr_addr_top`. -/
  aslrAddrTop : Nat
  /-- The allocation alignment is a power of two. -/
  page : pal.allocAlign ∣ 2 ^ 64
  aslr_lt : pal.memoryAddressStart < aslrAddrTop
  aslr_le : aslrAddrTop ≤ pal.memoryAddressEnd

/-- How the calls for one load command are answered; errors are numbers. -/
structure SegmentAnswers where
  /-- `fs_ops->mmap`. -/
  mmap : Option Nat
  /-- Whether the first `PalVirtualMemoryProtect` fails. -/
  unprotectFails : Bool
  /-- Whether the second `PalVirtualMemoryProtect` fails. -/
  protectFails : Bool
  /-- `PalVirtualMemoryAlloc`. -/
  alloc : Option Nat
  deriving DecidableEq, Repr

/-- How everything that is called is answered, and what is in memory that is read. -/
structure Answers where
  /-- Whether the file system can read, map and seek. -/
  fsOps : Bool
  /-- Whether there is memory for the link map, the headers and the load commands. -/
  mallocLinkMap : Bool
  mallocPhdr : Bool
  mallocLoadcmds : Bool
  /-- `read_file_fragment`. -/
  readPhdr : Option Nat
  /-- The variable `addr` before `reserve_dyn` is called. -/
  addr : BitVec 64
  /-- The length of the text at the address of the interpreter's name. -/
  libnameLen : Nat
  /-- For the load command with this number. -/
  segment : Nat → SegmentAnswers

/-- What execution of a load command can fail with. -/
inductive Error
  | bkeep (e : Errno)
  | mmap (e : Nat)
  | alloc (e : Nat)
  deriving DecidableEq, Repr

/-- Why `map_elf_object` returns `NULL`. -/
inductive Failure
  | file
  | linkMap
  | phdrMalloc
  | readPhdr (e : Nat)
  | loadcmds (e : Errno)
  | noSegments
  | reserve (ret : Int)
  | execute (e : Error)
  | interpTooLong
  | noPhdr
  | noInterp
  | noEntry
  deriving DecidableEq, Repr

/-- The functions that get a range of memory. -/
inductive Op
  | bkeepMmapFixed
  | mmap
  | protect
  | memset
  | alloc
  deriving DecidableEq, Repr

/-- A range that is passed to one of them. -/
structure Access where
  op : Op
  addr : Nat
  size : Nat
  deriving DecidableEq, Repr

/-- The vmas, the ranges that were passed on, and the area from `reserve_dyn`. -/
structure State (Addr : Type) where
  vmas : Vma.State Addr
  accesses : List Access
  area : Option (Nat × Nat)

abbrev M (Addr : Type) := EStateM Vma.Fault (State Addr)

/-! ## Load commands -/

/-- `ALLOC_ALIGN_DOWN`. -/
def allocAlignDown (pal : PalPublicState) (n : Nat) : Nat := n / pal.allocAlign * pal.allocAlign

/-- `p_vaddr + p_filesz`. -/
def Phdr.fileEnd (ph : Phdr) : Nat := (ph.vaddr + ph.filesz).toNat

/-- `p_vaddr + p_memsz`. -/
def Phdr.memEnd (ph : Phdr) : Nat := (ph.vaddr + ph.memsz).toNat

/-- The permissions of a segment. -/
def Phdr.prot (ph : Phdr) : Flags :=
  (if ph.flags &&& pfR ≠ 0 then protRead else 0) |||
    (if ph.flags &&& pfW ≠ 0 then protWrite else 0) |||
    (if ph.flags &&& pfX ≠ 0 then protExec else 0)

/-- The load command of a header that passes the checks. -/
def Phdr.loadcmd (pal : PalPublicState) (ph : Phdr) : Loadcmd where
  start := allocAlignDown pal ph.vaddr.toNat
  dataEnd := ph.fileEnd
  mapEnd := Brk.allocAlignUpPtr pal ph.fileEnd
  allocEnd := Brk.allocAlignUpPtr pal ph.memEnd
  mapOff := allocAlignDown pal ph.offset.toNat
  prot := ph.prot

/-- `read_loadcmd`. -/
def readLoadcmd (pal : PalPublicState) (ph : Phdr) : Except Errno Loadcmd :=
  if 1 < ph.align ∧ ph.align &&& (ph.align - 1) ≠ 0 then .error .einval
  else if 1 < ph.align ∧ (ph.vaddr - ph.offset) &&& (ph.align - 1) ≠ 0 then .error .einval
  else if pal.isAllocAligned (ph.vaddr - ph.offset).toNat = false then .error .einval
  else if ph.memsz < ph.filesz then .error .einval
  else .ok (ph.loadcmd pal)

/-- The second loop of `read_all_loadcmds`; `prev` is `ph_prev`. -/
def readLoadcmds (pal : PalPublicState) : Option Phdr → List Phdr → Except Errno (List Loadcmd)
  | _, [] => .ok []
  | prev, ph :: phdrs =>
    if ph.type = .load then
      if ∃ p ∈ prev, ¬ p.vaddr < ph.vaddr then .error .einval
      else do
        let c ← readLoadcmd pal ph
        let cs ← readLoadcmds pal (some ph) phdrs
        pure (c :: cs)
    else readLoadcmds pal prev phdrs

/-- `read_all_loadcmds`. -/
def readAllLoadcmds (pal : PalPublicState) (malloc : Bool) (phdrs : List Phdr) :
    Except Errno (List Loadcmd) :=
  if phdrs.countP (fun ph => ph.type = .load) = 0 then .ok []
  else if malloc = false then .error .enomem
  else readLoadcmds pal none phdrs

/-! ## Executing a load command -/

section Functions
variable {Addr : Type} [DecidableEq Addr] {α : Type}

/-- A function of the bookkeeping. -/
def bkeep (x : Vma.M Addr α) : M Addr α := fun s =>
  match x s.vmas with
  | .ok r vmas => .ok r { s with vmas := vmas }
  | .error e vmas => .error e { s with vmas := vmas }

/-- A range is passed to a function. -/
def pass (op : Op) (addr size : Nat) : M Addr Unit :=
  modify fun s => { s with accesses := s.accesses ++ [⟨op, addr, size⟩] }

/-- An address of the file, moved to where the object is loaded. -/
def moved (baseDiff addr : Nat) : Nat := (addr + baseDiff) % 2 ^ 64

/-- The part of a segment that is loaded from the file. -/
def fileMapping (file : LibosHandle) (c : Loadcmd) : Mapping :=
  ⟨c.prot, mapFixed ||| mapPrivate, some file, c.mapOff, []⟩

/-- The pages after it. -/
def zeroMapping (c : Loadcmd) : Mapping :=
  ⟨c.prot, mapFixed ||| mapPrivate ||| mapAnonymous, none, 0, []⟩

/-- `bkeep_mmap_fixed`, for the loader. -/
def bkeepRange (L : Loader Addr) (addr size : Nat) (map : Mapping) :
    M Addr (Except Errno Unit) := do
  pass .bkeepMmapFixed addr size
  bkeep (bkeepMmapFixed L.pal L.env addr size map)

/-- The first part of `execute_loadcmd`: the file is mapped. -/
def mapFile (L : Loader Addr) (file : LibosHandle) (ans : SegmentAnswers) (baseDiff : Nat)
    (c : Loadcmd) : M Addr (Except Error Unit) := do
  if c.start < c.mapEnd then do
    let mapStart := moved baseDiff c.start
    let mapSize := c.mapEnd - c.start
    let ret ← bkeepRange L mapStart mapSize (fileMapping file c)
    match ret with
    | .error e => pure (.error (.bkeep e))
    | .ok () => do
      pass .mmap mapStart mapSize
      match ans.mmap with
      | some e => pure (.error (.mmap e))
      | none => pure (.ok ())
  else pure (.ok ())

/-- The second part: the rest of the last page is cleared. Where `PalVirtualMemoryProtect` fails,
`ret` is the outcome of the comparison with `0`, that is `1`, and the function returns a positive
number, which is no error for its caller. The result says whether that happens. -/
def zeroTail (L : Loader Addr) (ans : SegmentAnswers) (baseDiff : Nat) (c : Loadcmd) :
    M Addr Bool := do
  if c.dataEnd < c.mapEnd then do
    let zeroStart := moved baseDiff c.dataEnd
    let zeroSize := c.mapEnd - c.dataEnd
    let lastPageStart := allocAlignDown L.pal zeroStart
    if has c.prot protWrite then do
      pass .memset zeroStart zeroSize
      pure false
    else do
      pass .protect lastPageStart L.pal.allocAlign
      if ans.unprotectFails then pure true
      else do
        pass .memset zeroStart zeroSize
        pass .protect lastPageStart L.pal.allocAlign
        pure ans.protectFails
  else pure false

/-- The third part: pages of zeros are allocated. -/
def allocPages (L : Loader Addr) (ans : SegmentAnswers) (baseDiff : Nat) (c : Loadcmd) :
    M Addr (Except Error Unit) := do
  if c.mapEnd < c.allocEnd then do
    let zeroPageStart := moved baseDiff c.mapEnd
    let zeroPageSize := c.allocEnd - c.mapEnd
    let ret ← bkeepRange L zeroPageStart zeroPageSize (zeroMapping c)
    match ret with
    | .error e => pure (.error (.bkeep e))
    | .ok () => do
      pass .alloc zeroPageStart zeroPageSize
      match ans.alloc with
      | some e => pure (.error (.alloc e))
      | none => pure (.ok ())
  else pure (.ok ())

/-- `execute_loadcmd`. -/
def executeLoadcmd (L : Loader Addr) (file : LibosHandle) (ans : SegmentAnswers) (baseDiff : Nat)
    (c : Loadcmd) : M Addr (Except Error Unit) := do
  let ret ← mapFile L file ans baseDiff c
  match ret with
  | .error e => pure (.error e)
  | .ok () => do
    let returned ← zeroTail L ans baseDiff c
    if returned then pure (.ok ()) else allocPages L ans baseDiff c

/-! ## `map_elf_object` -/

/-- The reservation: no memory. -/
def reservation : Mapping := ⟨0, vmaUnmapped, none, 0, []⟩

/-- `bkeep_mmap_any_aslr`. -/
def bkeepMmapAnyAslr (L : Loader Addr) (length : Nat) (map : Mapping) :
    Vma.M Addr (Except Errno Nat) := do
  let alloc := allocVmaTop L.pal L.env
  let ret ← bkeepMmapAnyInRange L.pal L.env alloc L.pal.memoryAddressStart L.aslrAddrTop length map
  match ret with
  | .ok addr => pure (.ok addr)
  | .error _ => bkeepMmapAny L.pal L.env alloc length map

/-- `reserve_dyn`: what it returns, and what it stores in `*addr`. In the source, `ret` is the
outcome of the comparison of `bkeep_mmap_any_aslr(...)` with `0`. -/
def reserveDyn (L : Loader Addr) (totalSize : Nat) : M Addr (Int × Option Nat) := do
  let size := Brk.allocAlignUpPtr L.pal totalSize
  let ret ← bkeep (bkeepMmapAnyAslr L size reservation)
  match ret with
  | .error _ => pure (1, none)
  | .ok addr => do
    modify fun s => { s with area := some (addr, addr + size) }
    pure (0, some addr)

/-- `l_base_diff`. -/
def loadAddress (L : Loader Addr) (obj : Object) (ans : Answers) (loadEnd : Nat) :
    M Addr (Except Failure Nat) :=
  match obj.type with
  | .exec => pure (.ok 0)
  | .dyn => do
    let (ret, addr) ← reserveDyn L loadEnd
    if ret < 0 then pure (.error (.reserve ret))
    else pure (.ok (addr.getD ans.addr.toNat))

/-- `phdr_size`. -/
def Object.phdrSize (obj : Object) : Nat := obj.phdrs.length * sizeofPhdr

/-- `interp_libname_vaddr`: the last header of this type counts. -/
def Object.interpLibnameVaddr (obj : Object) : Nat :=
  obj.phdrs.foldl (fun vaddr ph => if ph.type = .interp then ph.vaddr.toNat else vaddr) 0

/-- The search for the program headers in a segment. -/
def LinkMap.findPhdr (obj : Object) (c : Loadcmd) (l : LinkMap) : LinkMap :=
  let phoff := obj.phoff.toNat
  if l.phdr = 0 ∧ c.mapOff ≤ phoff ∧
      (phoff + obj.phdrSize) % 2 ^ 64 ≤ (c.mapOff + Brk.ptrDiff c.dataEnd c.start) % 2 ^ 64 then
    { l with phdr := moved l.baseDiff ((phoff - c.mapOff + c.start) % 2 ^ 64) }
  else l

/-- The search for the name of the interpreter. -/
def LinkMap.findInterp (obj : Object) (ans : Answers) (c : Loadcmd) (l : LinkMap) :
    Except Failure LinkMap :=
  let vaddr := obj.interpLibnameVaddr
  if vaddr ≠ 0 ∧ l.interpLibname = 0 ∧ c.start ≤ vaddr ∧ vaddr < c.dataEnd then
    if min ans.libnameLen (c.dataEnd - vaddr) = c.dataEnd - vaddr then .error .interpTooLong
    else .ok { l with interpLibname := moved l.baseDiff vaddr }
  else .ok l

/-- The search for the entry point. -/
def LinkMap.findEntry (obj : Object) (c : Loadcmd) (l : LinkMap) : LinkMap :=
  let entry := obj.entry.toNat
  if entry ≠ 0 ∧ l.entry = 0 ∧ c.start ≤ entry ∧ entry < c.dataEnd then
    { l with entry := moved l.baseDiff entry }
  else l

/-- `l_data_segment_size`. -/
def LinkMap.addData (c : Loadcmd) (l : LinkMap) : LinkMap :=
  if has c.prot protExec then l
  else { l with
    dataSegmentSize := (l.dataSegmentSize + Brk.ptrDiff c.allocEnd c.start) % 2 ^ 64 }

/-- The loop over the load commands, from the one with number `i` on. -/
def executeLoadcmds (L : Loader Addr) (obj : Object) (ans : Answers) :
    Nat → List Loadcmd → LinkMap → M Addr (Except Failure LinkMap)
  | _, [], l => pure (.ok l)
  | i, c :: cs, l => do
    let ret ← executeLoadcmd L obj.file (ans.segment i) l.baseDiff c
    match ret with
    | .error e => pure (.error (.execute e))
    | .ok () =>
      match (l.findPhdr obj c).findInterp obj ans c with
      | .error e => pure (.error e)
      | .ok l => executeLoadcmds L obj ans (i + 1) cs ((l.findEntry obj c).addData c)

/-- The checks after the loop, and the rest of the link map. -/
def LinkMap.finish (obj : Object) (l : LinkMap) : Except Failure LinkMap :=
  if l.phdr = 0 then .error .noPhdr
  else if obj.interpLibnameVaddr ≠ 0 ∧ l.interpLibname = 0 then .error .noInterp
  else if obj.entry.toNat ≠ 0 ∧ l.entry = 0 then .error .noEntry
  else .ok { l with phnum := obj.phdrs.length }

/-- The link map before the loop. -/
def LinkMap.start (loadStart loadEnd baseDiff : Nat) : LinkMap where
  baseDiff := baseDiff
  phdr := 0
  entry := 0
  phnum := 0
  mapStart := moved baseDiff loadStart
  mapEnd := moved baseDiff loadEnd
  interpLibname := 0
  dataSegmentSize := 0

/-- `map_elf_object` once the load commands are known: `c` is the first, and `cs` are the others. -/
def mapLoadcmds (L : Loader Addr) (obj : Object) (ans : Answers) (c : Loadcmd) (cs : List Loadcmd) :
    M Addr (Except Failure LinkMap) := do
  let loadEnd := ((c :: cs).getLast (List.cons_ne_nil c cs)).allocEnd
  let ret ← loadAddress L obj ans loadEnd
  match ret with
  | .error e => pure (.error e)
  | .ok baseDiff => do
    let ret ← executeLoadcmds L obj ans 0 (c :: cs) (.start c.start loadEnd baseDiff)
    match ret with
    | .error e => pure (.error e)
    | .ok l => pure (l.finish obj)

/-- `map_elf_object`. -/
def mapElfObject (L : Loader Addr) (obj : Object) (ans : Answers) :
    M Addr (Except Failure LinkMap) :=
  if ans.fsOps = false then pure (.error .file)
  else if ans.mallocLinkMap = false then pure (.error .linkMap)
  else if ans.mallocPhdr = false then pure (.error .phdrMalloc)
  else
    match ans.readPhdr with
    | some e => pure (.error (.readPhdr e))
    | none =>
      match readAllLoadcmds L.pal ans.mallocLoadcmds obj.phdrs with
      | .error e => pure (.error (.loadcmds e))
      | .ok [] => pure (.error .noSegments)
      | .ok (c :: cs) => mapLoadcmds L obj ans c cs

end Functions

end Elf
