import Gramine.Transition

/-!
# Trusted files

`load_trusted_or_allowed_file` and `copy_and_verify_trusted_file`
(`enclave_framework.c`), and `file_open`, `file_read` and `file_map`
(`pal_files.c`) on a file with a `trusted_files` entry in the manifest.

The host answers `open`, `fstat` and `mmap` as it likes, and the bytes of the
mapping may change between any two copies into the enclave: `Env.mem o` is the
untrusted memory when the chunk at offset `o` is copied. SHA-256 is a parameter;
its digests and their truncations to 128 bits are arbitrary types. `malloc`
succeeds and returns enclave memory. The entry has been looked up: the file is
not opened with `PAL_OPTION_PASSTHROUGH`, which bypasses the manifest, and the
permissions of enclave pages are left out of `file_map`. Offsets into a file are
naturals: a size that does not fit `off_t` is larger than the address space.
-/

namespace TrustedFile

/-- The contents of files and buffers. -/
abbrev Bytes := List UInt8

/-- `PAGE_SIZE`. -/
def pageSize : Nat := 4096

/-- `TRUSTED_CHUNK_SIZE`. -/
def trustedChunkSize : Nat := pageSize * 4

/-- `UINTPTR_MAX`. -/
def uintptrMax : Nat := 2 ^ 64 - 1

/-- `UDIV_ROUND_UP`. -/
def udivRoundUp (n d : Nat) : Nat := n / d + if n % d = 0 then 0 else 1

/-- `ALIGN_DOWN`. -/
def alignDown (val alignment : Nat) : Nat := val - val % alignment

/-- `ALIGN_UP`. -/
def alignUp (val alignment : Nat) : Nat := alignDown (val + alignment - 1) alignment

/-- SHA-256 and its truncation to a chunk hash. -/
structure Sha (Digest ChunkHash : Type) where
  sha256 : Bytes → Digest
  truncate : Digest → ChunkHash

/-- The hash of one chunk. -/
def Sha.chunkHash {Digest ChunkHash : Type} (sha : Sha Digest ChunkHash) (c : Bytes) : ChunkHash :=
  sha.truncate (sha.sha256 c)

/-- The enclave's address range, and the scratch buffer `tmp_chunk` in it. -/
structure Enclave where
  base : Nat
  top : Nat
  tmpChunk : Nat
  top_le : top ≤ uintptrMax
  tmpChunk_within : base ≤ tmpChunk ∧ tmpChunk + trustedChunkSize ≤ top

/-- `sgx_is_completely_within_enclave`. That `addr` is above `UINTPTR_MAX - size` is
written without the subtraction. -/
def sgxIsCompletelyWithinEnclave (enc : Enclave) (addr size : Nat) : Prop :=
  addr + size ≤ uintptrMax ∧ enc.base ≤ addr ∧ addr + size ≤ enc.top

/-- `sgx_is_valid_untrusted_ptr`. -/
def sgxIsValidUntrustedPtr (enc : Enclave) (addr size alignment : Nat) : Prop :=
  addr + size ≤ uintptrMax ∧ (addr + size ≤ enc.base ∨ enc.top ≤ addr) ∧ addr % alignment = 0

instance (enc : Enclave) (addr size : Nat) :
    Decidable (sgxIsCompletelyWithinEnclave enc addr size) :=
  inferInstanceAs (Decidable (_ ∧ _))

instance (enc : Enclave) (addr size alignment : Nat) :
    Decidable (sgxIsValidUntrustedPtr enc addr size alignment) :=
  inferInstanceAs (Decidable (_ ∧ _))

/-- `sgx_copy_to_enclave`: the bytes copied, or nothing if a range is refused. -/
def sgxCopyToEnclave (enc : Enclave) (ptr maxsize : Nat) (mem : Nat → UInt8) (uptr usize : Nat) :
    Option Bytes :=
  if maxsize < usize ∨ ¬ sgxIsValidUntrustedPtr enc uptr usize 1 ∨
      ¬ sgxIsCompletelyWithinEnclave enc ptr maxsize then none
  else some ((List.range usize).map fun i => mem (uptr + i))

/-- What the host does while a function runs: the untrusted memory at each copy,
and whether the SHA-256 library calls for that chunk succeed. -/
structure Env where
  mem : Nat → Nat → UInt8
  sha : Nat → Bool

/-- PAL error codes. -/
inductive PalError
  | denied
  | inval
  | crypto
  /-- A host error, translated by `unix_to_pal_error`. -/
  | host
  /-- A negative number of bytes. -/
  | negative
  deriving DecidableEq, Repr

/-- Why a function does not return normally. -/
inductive Fail
  | error (e : PalError)
  /-- A failed assertion, or an access outside an array. -/
  | fault
  /-- The jump to the error label with `ret == 0`. -/
  | zero
  deriving DecidableEq, Repr

/-- `struct trusted_file`, for an entry with `allowed == false`. -/
structure Entry (Digest ChunkHash : Type) where
  fileHash : Digest
  size : Nat
  chunkHashes : Option (List ChunkHash)

/-- The handle of an open trusted file. -/
structure Handle (ChunkHash : Type) where
  size : Nat
  chunkHashes : Option (List ChunkHash)
  /-- The mapping in untrusted memory; 0 is `NULL`. -/
  umem : Nat

/-- The offsets of `n` chunks from `lo` on. -/
def offsetsFrom (lo : Nat) : Nat → List Nat
  | 0 => []
  | n + 1 => lo :: offsetsFrom (lo + trustedChunkSize) n

/-- The offsets a loop from `lo` to `hi` in steps of `TRUSTED_CHUNK_SIZE` visits. -/
def chunkOffsets (lo hi : Nat) : List Nat := offsetsFrom lo (udivRoundUp (hi - lo) trustedChunkSize)

section Functions
variable {Digest ChunkHash : Type} [DecidableEq Digest] [DecidableEq ChunkHash]
  (sha : Sha Digest ChunkHash) (enc : Enclave)

/-! ## Loading -/

/-- The loop of `load_trusted_or_allowed_file`: the bytes hashed into `file_sha`,
and the chunk hashes. -/
def hashLoop (env : Env) (umem size : Nat) :
    List Nat → Bytes → List ChunkHash → Except Fail (Bytes × List ChunkHash)
  | [], fileSha, hashes => pure (fileSha, hashes)
  | offset :: rest, fileSha, hashes =>
    let chunkSize := min (size - offset) trustedChunkSize
    if env.sha offset = false then throw (.error .crypto)
    else
      match sgxCopyToEnclave enc enc.tmpChunk trustedChunkSize (env.mem offset) (umem + offset)
        chunkSize with
      | none => throw .zero
      | some chunk =>
        hashLoop env umem size rest (fileSha ++ chunk) (hashes ++ [sha.chunkHash chunk])

/-- `load_trusted_or_allowed_file` for a trusted file that is not created: the
entry afterwards, and the handle's fields. -/
def loadTrustedFile (tf : Entry Digest ChunkHash) (seekable : Bool) (mmap : Option Nat)
    (env : Env) : Entry Digest ChunkHash × Except Fail (Handle ChunkHash) :=
  if seekable = false then (tf, .error (.error .denied))
  else
    -- `ocall_mmap_untrusted`, which checks the address the host returns
    let umem := if tf.size = 0 then some 0 else
      mmap.filter fun addr => sgxIsValidUntrustedPtr enc addr tf.size pageSize
    match umem with
    | none => (tf, .error (.error .host))
    | some umem =>
      match tf.chunkHashes with
      | some hashes => (tf, .ok ⟨tf.size, some hashes, umem⟩)
      | none =>
        match hashLoop sha enc env umem tf.size (chunkOffsets 0 tf.size) [] [] with
        -- the error label: everything is freed, and `ret` may be 0
        | .error .zero => (tf, .ok ⟨tf.size, none, umem⟩)
        | .error f => (tf, .error f)
        | .ok (fileSha, hashes) =>
          if env.sha tf.size = false then (tf, .error (.error .crypto))
          else if sha.sha256 fileSha ≠ tf.fileHash then (tf, .error (.error .denied))
          else ({ tf with chunkHashes := some hashes }, .ok ⟨tf.size, some hashes, umem⟩)

/-- How a file is opened: only for reading, or in another way. -/
structure OpenFlags where
  doCreate : Bool
  rdonly : Bool
  deriving DecidableEq, Repr

/-- The host's answers during `file_open`; `fd` says whether `ocall_open` succeeds. -/
structure HostOpen where
  fd : Bool
  /-- `st_size`, and whether the file is a FIFO. -/
  fstat : Option (Nat × Bool)
  mmap : Option Nat
  env : Env

/-- `file_open` on a trusted file. -/
def fileOpen (tf : Entry Digest ChunkHash) (flags : OpenFlags) (host : HostOpen) :
    Entry Digest ChunkHash × Except Fail (Handle ChunkHash) :=
  if flags.doCreate = true ∨ flags.rdonly = false then (tf, .error (.error .denied))
  else if host.fd = false then (tf, .error (.error .host))
  else
    match host.fstat with
    | none => (tf, .error (.error .host))
    | some (size, fifo) =>
      loadTrustedFile sha enc { tf with size := size } (! fifo) host.mmap host.env

/-! ## Reading -/

/-- The loop of `copy_and_verify_trusted_file`: the bytes written to the buffer. -/
def copyLoop (env : Env) (umem offset stop size : Nat) (hashes : List ChunkHash) :
    List Nat → Nat → Bytes → Except Fail Bytes
  | [], _, out => pure out
  | chunkOffset :: rest, bufPos, out =>
    let chunkSize := min (size - chunkOffset) trustedChunkSize
    let chunkEnd := chunkOffset + chunkSize
    if env.sha chunkOffset = false then throw (.error .crypto)
    else if offset ≤ chunkOffset ∧ chunkEnd ≤ stop then
      -- the whole chunk is wanted: copy it into the buffer
      match sgxCopyToEnclave enc bufPos chunkSize (env.mem chunkOffset) (umem + chunkOffset)
        chunkSize with
      | none => throw .zero
      | some chunk =>
        match hashes[chunkOffset / trustedChunkSize]? with
        | none => throw .fault
        | some hash =>
          if hash ≠ sha.chunkHash chunk then throw (.error .denied)
          else copyLoop env umem offset stop size hashes rest (bufPos + chunkSize) (out ++ chunk)
    else
      -- a part of the chunk is wanted: copy it into the scratch buffer
      match sgxCopyToEnclave enc enc.tmpChunk chunkSize (env.mem chunkOffset) (umem + chunkOffset)
        chunkSize with
      | none => throw .zero
      | some chunk =>
        let copyStart := max chunkOffset offset
        let copyEnd := min chunkEnd stop
        if ¬ copyStart < copyEnd then throw .fault
        else
          match hashes[chunkOffset / trustedChunkSize]? with
          | none => throw .fault
          | some hash =>
            if hash ≠ sha.chunkHash chunk then throw (.error .denied)
            else copyLoop env umem offset stop size hashes rest (bufPos + (copyEnd - copyStart))
              (out ++ (chunk.drop (copyStart - chunkOffset)).take (copyEnd - copyStart))

/-- `copy_and_verify_trusted_file`: the contents of the buffer. -/
def copyAndVerifyTrustedFile (env : Env) (buf umem alignedOffset alignedEnd offset stop : Nat)
    (hashes : List ChunkHash) (size : Nat) : Except Fail Bytes :=
  if ¬ (alignedOffset % trustedChunkSize = 0 ∧ alignedOffset ≤ offset ∧ stop ≤ alignedEnd) then
    throw .fault
  else
    match copyLoop sha enc env umem offset stop size hashes (chunkOffsets alignedOffset alignedEnd)
      buf [] with
    -- the error label zeroes the buffer and returns `ret`, which is 0 here
    | .error .zero => pure (List.replicate (stop - offset) 0)
    | r => r

/-- `file_read` on a trusted file: the number of bytes, and the buffer. -/
def fileRead (env : Env) (h : Handle ChunkHash) (offset count buf : Nat) :
    Except Fail (Nat × Bytes) :=
  match h.chunkHashes with
  | none => throw .fault
  | some hashes =>
    if h.size ≤ offset then pure (0, [])
    else
      let stop := min ((offset + count) % 2 ^ 64) h.size
      if h.umem = 0 then throw .fault
      else do
        let out ← copyAndVerifyTrustedFile sha enc env buf h.umem
          (alignDown offset trustedChunkSize) (alignUp stop trustedChunkSize) offset stop hashes
          h.size
        if stop < offset then throw (.error .negative) else pure (stop - offset, out)

/-! ## Runs -/

/-- The manifest entry, and the handles opened so far. -/
structure State (Digest ChunkHash : Type) where
  entry : Entry Digest ChunkHash
  handles : List (Handle ChunkHash)

/-- The calls; reading and mapping change neither the entry nor a handle. -/
inductive Call
  | open (flags : OpenFlags) (host : HostOpen)
  | read (handle offset count buf : Nat) (env : Env)
  | map (handle addr : Nat) (write writecopy : Bool) (offset size : Nat) (env : Env)

/-- The effect of a call. -/
def exec (s : State Digest ChunkHash) : Call → State Digest ChunkHash
  | .open flags host =>
    match fileOpen sha enc s.entry flags host with
    | (tf, .ok h) => ⟨tf, h :: s.handles⟩
    | (tf, .error _) => { s with entry := tf }
  | _ => s

/-- An entry registered with the hash from the manifest. -/
def initial (fileHash : Digest) : State Digest ChunkHash := ⟨⟨fileHash, 0, none⟩, []⟩

/-- One call of a run. -/
def Step (s : State Digest ChunkHash) (c : Call) (s' : State Digest ChunkHash) : Prop :=
  s' = exec sha enc s c

end Functions

end TrustedFile
