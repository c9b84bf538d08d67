import Gramine.TrustedFileIntegrity

/-!
# The buffer of `copy_and_verify_trusted_file`

The function again, with what `TrustedFile` leaves out: the allocation of the scratch
buffer, every call of the SHA-256 library, the assertions of debug builds, and the
caller's buffer in enclave memory, into which chunks are copied before their hash is
known and which is zeroed when something fails. `copyAndVerify_returnsAs` says in which
case the two are the same.

When all goes well the buffer holds bytes of some contents with the recorded chunk
hashes: the chunks just read, and the chunks recorded for the rest of the file. There
is one exit on which the function goes wrong. When `sgx_copy_to_enclave` refuses a
range, `ret` is still 0 from the call before, so that the zeroed buffer is returned as
a success (`Refused`).
-/

open List

namespace TrustedFile

/-- Enclave memory. -/
abbrev Mem := Nat → UInt8

/-- Bytes written at an address. -/
def Mem.write (m : Mem) (addr : Nat) (bs : Bytes) : Mem := fun a =>
  if addr ≤ a ∧ a < addr + bs.length then bs.getD (a - addr) 0 else m a

/-- `memset(addr, 0, len)`. -/
def Mem.zero (m : Mem) (addr len : Nat) : Mem := fun a =>
  if addr ≤ a ∧ a < addr + len then 0 else m a

theorem Mem.write_of_lt {m : Mem} {addr i : Nat} {bs : Bytes} (h : i < bs.length) :
    m.write addr bs (addr + i) = bs.getD i 0 := by
  rw [Mem.write, if_pos (by omega), Nat.add_sub_cancel_left]

theorem Mem.write_of_before {m : Mem} {addr a : Nat} {bs : Bytes} (h : a < addr) :
    m.write addr bs a = m a :=
  if_neg (by omega)

theorem Mem.zero_of_lt {m : Mem} {addr i len : Nat} (h : i < len) :
    m.zero addr len (addr + i) = 0 :=
  if_pos (by omega)

/-! ## The function -/

/-- The negative values the function returns. -/
inductive CopyError
  | nomem
  /-- Whatever a call of the SHA-256 library failed with. -/
  | crypto
  | denied
  deriving DecidableEq, Repr

/-- What the function has no influence on: whether the allocation and the library calls
for each chunk succeed, and the untrusted memory while the chunk at an offset is
copied. -/
structure CopyEnv where
  malloc : Bool
  mem : Nat → Nat → UInt8
  shaInit : Nat → Bool
  shaUpdate : Nat → Bool
  shaFinal : Nat → Bool

/-- How the loop is left early. -/
inductive Stop
  /-- The jump to `failed`, with the value of `ret` (`none` is 0) and the memory. -/
  | failed (ret : Option CopyError) (m : Mem)
  /-- A failed assertion, or an access outside of the chunk hashes. -/
  | abort

section Functions
variable {Digest ChunkHash : Type} [DecidableEq ChunkHash] (sha : Sha Digest ChunkHash)
  (enc : Enclave) (debug : Bool) (env : CopyEnv)

/-- The two ways a chunk is copied: the chunk, `buf_pos` and the memory afterwards. -/
def copyChunk (umem offset stop size chunkOffset bufPos : Nat) (m : Mem) :
    Except Stop (Bytes × Nat × Mem) :=
  let chunkSize := min (size - chunkOffset) trustedChunkSize
  let chunkEnd := chunkOffset + chunkSize
  if offset ≤ chunkOffset ∧ chunkEnd ≤ stop then
    -- completely inside the requested region: copy into the buffer and hash in place
    match sgxCopyToEnclave enc bufPos chunkSize (env.mem chunkOffset) (umem + chunkOffset)
      chunkSize with
    | none => throw (.failed none m)
    | some chunk =>
      if env.shaUpdate chunkOffset = false then
        throw (.failed (some .crypto) (m.write bufPos chunk))
      else pure (chunk, bufPos + chunkSize, m.write bufPos chunk)
  else
    -- only a part is requested: copy into the scratch buffer, and the part into the buffer
    match sgxCopyToEnclave enc enc.tmpChunk chunkSize (env.mem chunkOffset) (umem + chunkOffset)
      chunkSize with
    | none => throw (.failed none m)
    | some chunk =>
      if env.shaUpdate chunkOffset = false then throw (.failed (some .crypto) m)
      else
        let copyStart := max chunkOffset offset
        let copyEnd := min chunkEnd stop
        if debug = true ∧ ¬ copyStart < copyEnd then throw .abort
        else
          let part := (chunk.drop (copyStart - chunkOffset)).take (copyEnd - copyStart)
          pure (chunk, bufPos + (copyEnd - copyStart), m.write bufPos part)

/-- The loop over the chunks. -/
def copyChunks (umem offset stop size : Nat) (hashes : List ChunkHash) :
    List Nat → Nat → Mem → Except Stop Mem
  | [], _, m => pure m
  | chunkOffset :: rest, bufPos, m =>
    if env.shaInit chunkOffset = false then throw (.failed (some .crypto) m)
    else
      match copyChunk enc debug env umem offset stop size chunkOffset bufPos m with
      | .error s => throw s
      | .ok (chunk, bufPos, m) =>
        if env.shaFinal chunkOffset = false then throw (.failed (some .crypto) m)
        else
          match hashes[chunkOffset / trustedChunkSize]? with
          | none => throw .abort
          | some hash =>
            if hash ≠ sha.chunkHash chunk then throw (.failed (some .denied) m)
            else copyChunks umem offset stop size hashes rest bufPos m

/-- `copy_and_verify_trusted_file`: the value returned (`none` is 0) and the enclave
memory; nothing, if an assertion fails. -/
def copyAndVerify (buf umem alignedOffset alignedEnd offset stop : Nat) (hashes : List ChunkHash)
    (size : Nat) (m : Mem) : Option (Option CopyError × Mem) :=
  if debug = true ∧
      ¬ (alignedOffset % trustedChunkSize = 0 ∧ alignedOffset ≤ offset ∧ stop ≤ alignedEnd) then
    none
  else if env.malloc = false then some (some .nomem, m.zero buf (stop - offset))
  else
    match copyChunks sha enc debug env umem offset stop size hashes
      (chunkOffsets alignedOffset alignedEnd) buf m with
    | .ok m => some (none, m)
    -- the label `failed`
    | .error (.failed ret m) => some (ret, m.zero buf (stop - offset))
    | .error .abort => none

end Functions

/-! ## The function without the buffer

`copyAndVerifyTrustedFile`, which the runs of `TrustedFile` call, returns the bytes of the
buffer. It is this function in a debug build in which the allocation succeeds and the
library calls for a chunk all succeed or all fail. -/

/-- What `copyAndVerifyTrustedFile` assumes of the calls. -/
def Env.copyEnv (env : Env) : CopyEnv := ⟨true, env.mem, env.sha, env.sha, env.sha⟩

/-- The bytes are in memory at the address. -/
def Mem.Holds (m : Mem) (addr : Nat) (bs : Bytes) : Prop :=
  ∀ i, i < bs.length → m (addr + i) = bs.getD i 0

theorem Mem.Holds.write {m : Mem} {addr : Nat} {bs : Bytes} (h : m.Holds addr bs) (cs : Bytes) :
    (m.write (addr + bs.length) cs).Holds addr (bs ++ cs) := by
  intro i hi
  by_cases hlt : i < bs.length
  · rw [Mem.write_of_before (by omega), getD_append _ _ _ _ hlt]
    exact h i hlt
  · rw [length_append] at hi
    obtain ⟨j, rfl⟩ := Nat.exists_eq_add_of_le (not_lt.1 hlt)
    rw [← Nat.add_assoc, Mem.write_of_lt (by omega), getD_append_right _ _ _ _ (by omega),
      Nat.add_sub_cancel_left]

/-- The two loops end in the same way. -/
def EndsAs (buf : Nat) : Except Fail Bytes → Except Stop Mem → Prop
  | .ok out, .ok m => m.Holds buf out
  | .error (.error .crypto), .error (.failed (some .crypto) _) => True
  | .error (.error .denied), .error (.failed (some .denied) _) => True
  | .error .zero, .error (.failed none _) => True
  | .error .fault, .error .abort => True
  | _, _ => False

/-- The two functions return the same. -/
def ReturnsAs (buf : Nat) : Except Fail Bytes → Option (Option CopyError × Mem) → Prop
  | .ok out, some (none, m) => m.Holds buf out
  | .error (.error .crypto), some (some .crypto, _) => True
  | .error (.error .denied), some (some .denied, _) => True
  | .error .fault, none => True
  | _, _ => False

section
variable {Digest ChunkHash : Type} [DecidableEq ChunkHash] {sha : Sha Digest ChunkHash}
  {enc : Enclave} {env : Env} {buf umem offset stop size : Nat} {hashes : List ChunkHash}

/-- Each round writes to the buffer what the other loop appends. -/
theorem copyChunks_endsAs (offsets : List Nat) : ∀ {out : Bytes} {m : Mem}, m.Holds buf out →
    EndsAs buf (copyLoop sha enc env umem offset stop size hashes offsets (buf + out.length) out)
      (copyChunks sha enc true env.copyEnv umem offset stop size hashes offsets
        (buf + out.length) m) := by
  induction offsets with
  | nil =>
    intro out m hm
    exact hm
  | cons o rest ih =>
    intro out m hm
    have hgrow : ∀ {bs : Bytes} {l : Nat}, bs.length = l →
        EndsAs buf (copyLoop sha enc env umem offset stop size hashes rest (buf + out.length + l)
            (out ++ bs))
          (copyChunks sha enc true env.copyEnv umem offset stop size hashes rest
            (buf + out.length + l) (m.write (buf + out.length) bs)) := by
      rintro bs l rfl
      rw [Nat.add_assoc, ← length_append]
      exact ih (hm.write bs)
    cases hsha : env.sha o with
    | false =>
      simp only [copyLoop, copyChunks, Env.copyEnv, hsha, if_pos]
      trivial
    | true =>
      simp only [copyLoop, copyChunks, copyChunk, Env.copyEnv, hsha, Bool.true_eq_false, if_false]
      by_cases hwhole : offset ≤ o ∧ o + min (size - o) trustedChunkSize ≤ stop
      · rw [if_pos hwhole, if_pos hwhole]
        cases hcopy : sgxCopyToEnclave enc (buf + out.length) (min (size - o) trustedChunkSize)
          (env.mem o) (umem + o) (min (size - o) trustedChunkSize) with
        | none => trivial
        | some chunk =>
          dsimp only [pure, Except.pure]
          cases hashes[o / trustedChunkSize]? with
          | none => trivial
          | some hash =>
            dsimp only
            split_ifs with hhash
            · trivial
            · exact hgrow (length_of_copy hcopy)
      · rw [if_neg hwhole, if_neg hwhole]
        cases hcopy : sgxCopyToEnclave enc enc.tmpChunk (min (size - o) trustedChunkSize)
          (env.mem o) (umem + o) (min (size - o) trustedChunkSize) with
        | none => trivial
        | some chunk =>
          dsimp only
          by_cases hpart : max o offset < min (o + min (size - o) trustedChunkSize) stop
          · rw [if_neg (not_not.2 hpart), if_neg fun h => h.2 hpart]
            dsimp only [pure, Except.pure]
            cases hashes[o / trustedChunkSize]? with
            | none => trivial
            | some hash =>
              dsimp only
              split_ifs with hhash
              · trivial
              · refine hgrow ?_
                have hlen := length_of_copy hcopy
                rw [length_take, length_drop, hlen]
                omega
          · rw [if_pos hpart, if_pos ⟨trivial, hpart⟩]
            trivial

/-- **The function without the buffer is the function with it.** -/
theorem copyAndVerify_returnsAs (alignedOffset alignedEnd : Nat) (m : Mem) :
    ReturnsAs buf
      (copyAndVerifyTrustedFile sha enc env buf umem alignedOffset alignedEnd offset stop hashes
        size)
      (copyAndVerify sha enc true env.copyEnv buf umem alignedOffset alignedEnd offset stop hashes
        size m) := by
  have hnil : m.Holds buf [] := fun i hi => absurd hi (Nat.not_lt_zero i)
  have hloop : EndsAs buf
      (copyLoop sha enc env umem offset stop size hashes (chunkOffsets alignedOffset alignedEnd)
        buf [])
      (copyChunks sha enc true env.copyEnv umem offset stop size hashes
        (chunkOffsets alignedOffset alignedEnd) buf m) :=
    copyChunks_endsAs _ hnil
  rw [copyAndVerifyTrustedFile, copyAndVerify]
  by_cases hassert : alignedOffset % trustedChunkSize = 0 ∧ alignedOffset ≤ offset ∧
      stop ≤ alignedEnd
  · rw [if_neg (not_not.2 hassert), if_neg fun h => h.2 hassert, if_neg (by simp [Env.copyEnv])]
    generalize copyLoop sha enc env umem offset stop size hashes
      (chunkOffsets alignedOffset alignedEnd) buf [] = r at hloop ⊢
    generalize copyChunks sha enc true env.copyEnv umem offset stop size hashes
      (chunkOffsets alignedOffset alignedEnd) buf m = r' at hloop ⊢
    unfold EndsAs at hloop
    split at hloop
    case h_1 => exact hloop
    case h_4 =>
      -- the zeros of a refused copy
      intro i hi
      rw [length_replicate] at hi
      rw [Mem.zero_of_lt hi, getD_replicate _ hi]
    case h_6 => exact hloop.elim
    all_goals trivial
  · rw [if_pos hassert, if_pos ⟨rfl, hassert⟩]
    trivial

end

/-! ## What it is for -/

section
variable {Digest ChunkHash : Type}

/-- What the function promises: with 0 the buffer holds the requested bytes of contents
that have the recorded chunk hashes; with an error it holds zeros. -/
def CopyVerified (sha : Sha Digest ChunkHash) (hashes : List ChunkHash)
    (buf offset stop size : Nat) : Option (Option CopyError × Mem) → Prop
  | none => False
  | some (none, m) => ∃ F : Bytes, F.length = size ∧ hashesOf sha F = hashes ∧
      ∀ i, i < stop - offset → F[offset + i]? = some (m (buf + i))
  | some (some _, m) => ∀ i, i < stop - offset → m (buf + i) = 0

/-- `sgx_copy_to_enclave` refuses the copy of the chunk at `o`: the mapping is not in
untrusted memory, or the chunk is to be copied into a buffer that is not in the enclave. -/
def Refused (enc : Enclave) (buf umem offset stop size o : Nat) : Prop :=
  ¬ sgxIsValidUntrustedPtr enc (umem + o) (min (size - o) trustedChunkSize) 1 ∨
    (offset ≤ o ∧ o + min (size - o) trustedChunkSize ≤ stop ∧
      ¬ sgxIsCompletelyWithinEnclave enc (buf + (o - offset)) (min (size - o) trustedChunkSize))

instance (enc : Enclave) (buf umem offset stop size o : Nat) :
    Decidable (Refused enc buf umem offset stop size o) :=
  inferInstanceAs (Decidable (_ ∨ _))

/-- The condition under which the function keeps its promise: no copy is refused; and in
a debug build it is not called for no bytes in the middle of a chunk, where it fails its
assertion `copy_end > copy_start` (unless the copy is refused before). -/
def CopyCond (enc : Enclave) (debug : Bool) (buf umem offset stop size : Nat) : Prop :=
  if offset < stop then
    ∀ o ∈ chunkOffsets (alignDown offset trustedChunkSize) (alignUp stop trustedChunkSize),
      ¬ Refused enc buf umem offset stop size o
  else debug = true → offset % trustedChunkSize ≠ 0 →
    Refused enc buf umem offset stop size (alignDown offset trustedChunkSize)

instance (enc : Enclave) (debug : Bool) (buf umem offset stop size : Nat) :
    Decidable (CopyCond enc debug buf umem offset stop size) := by
  unfold CopyCond
  infer_instance

end

/-! ## The contents that were read -/

/-- The byte at offset `i`, as it was read with its chunk. -/
def CopyEnv.byte (env : CopyEnv) (umem i : Nat) : UInt8 :=
  env.mem (alignDown i trustedChunkSize) (umem + i)

/-- The chunk at `o`, as it was read. -/
def CopyEnv.chunk (env : CopyEnv) (umem size o : Nat) : Bytes :=
  (List.range (min (size - o) trustedChunkSize)).map fun i => env.mem o (umem + o + i)

theorem alignDown_of_mem {k i : Nat} (h : k * trustedChunkSize ≤ i)
    (h' : i < k * trustedChunkSize + trustedChunkSize) :
    alignDown i trustedChunkSize = k * trustedChunkSize := by
  rw [alignDown_eq, Nat.div_eq_of_lt_le h (by rwa [Nat.succ_mul])]

theorem CopyEnv.chunk_length (env : CopyEnv) (umem size o : Nat) :
    (env.chunk umem size o).length = min (size - o) trustedChunkSize := by
  simp [CopyEnv.chunk]

theorem CopyEnv.chunk_getD (env : CopyEnv) {umem size k i : Nat}
    (h : i < min (size - k * trustedChunkSize) trustedChunkSize) :
    (env.chunk umem size (k * trustedChunkSize)).getD i 0 =
      env.byte umem (k * trustedChunkSize + i) := by
  have hi : i < (env.chunk umem size (k * trustedChunkSize)).length := by
    rwa [env.chunk_length]
  rw [getD_eq_getElem?_getD, List.getElem?_eq_getElem hi, Option.getD_some]
  simp only [CopyEnv.chunk, getElem_map, getElem_range, CopyEnv.byte, Nat.add_assoc]
  rw [@alignDown_of_mem k _ (by omega) (by omega)]

theorem sgxCopyToEnclave_ok {enc : Enclave} {ptr umem size o l : Nat} (env : CopyEnv)
    (hl : l = min (size - o) trustedChunkSize) (hu : sgxIsValidUntrustedPtr enc (umem + o) l 1)
    (hp : sgxIsCompletelyWithinEnclave enc ptr l) :
    sgxCopyToEnclave enc ptr l (env.mem o) (umem + o) l = some (env.chunk umem size o) := by
  rw [sgxCopyToEnclave, if_neg (by simp [hu, hp]), hl]
  rfl

theorem sgxCopyToEnclave_refused {enc : Enclave} {ptr uptr l : Nat} (mem : Nat → UInt8)
    (h : ¬ (sgxIsValidUntrustedPtr enc uptr l 1 ∧ sgxIsCompletelyWithinEnclave enc ptr l)) :
    sgxCopyToEnclave enc ptr l mem uptr l = none :=
  if_pos (.inr (not_and_or.1 h))

/-! ## One chunk -/

section
variable {Digest ChunkHash : Type} {sha : Sha Digest ChunkHash} {enc : Enclave} {debug : Bool}
  {env : CopyEnv} {buf umem offset stop size k o l : Nat} {m : Mem}

/-- The bytes from `offset` up to `pos` are in the buffer. -/
def Filled (env : CopyEnv) (buf umem offset pos : Nat) (m : Mem) : Prop :=
  ∀ i, i < pos - offset → m (buf + i) = env.byte umem (offset + i)

theorem Filled.write {pos pos' : Nat} {bs : Bytes} (h : Filled env buf umem offset pos m)
    (hpos : offset ≤ pos) (hlen : bs.length = pos' - pos)
    (hbs : ∀ i, i < pos' - pos → bs.getD i 0 = env.byte umem (pos + i)) :
    Filled env buf umem offset pos' (m.write (buf + (pos - offset)) bs) := by
  intro i hi
  by_cases hlt : i < pos - offset
  · rw [Mem.write_of_before (by omega)]
    exact h i hlt
  obtain ⟨j, rfl⟩ := Nat.exists_eq_add_of_le (not_lt.1 hlt)
  rw [← Nat.add_assoc, Mem.write_of_lt (by omega), hbs j (by omega)]
  congr 1
  omega

/-- A copy that is refused: `ret` is 0. -/
theorem copyChunk_refused (hl : l = min (size - o) trustedChunkSize)
    (h : Refused enc buf umem offset stop size o) :
    copyChunk enc debug env umem offset stop size o (buf + (max o offset - offset)) m =
      .error (.failed none m) := by
  unfold Refused at h
  rw [← hl] at h
  simp only [copyChunk, ← hl]
  by_cases hwhole : offset ≤ o ∧ o + l ≤ stop
  · rw [if_pos hwhole, max_eq_left hwhole.1]
    have hno : ¬ (sgxIsValidUntrustedPtr enc (umem + o) l 1 ∧
        sgxIsCompletelyWithinEnclave enc (buf + (o - offset)) l) := by
      rintro ⟨hu, hp⟩
      rcases h with h | ⟨-, -, h⟩
      · exact h hu
      · exact h hp
    rw [sgxCopyToEnclave_refused _ hno]
    rfl
  · rw [if_neg hwhole]
    have hu : ¬ sgxIsValidUntrustedPtr enc (umem + o) l 1 := by
      rcases h with h | ⟨h1, h2, -⟩
      · exact h
      · exact absurd ⟨h1, h2⟩ hwhole
    rw [sgxCopyToEnclave_refused _ fun hp => hu hp.1]
    rfl

/-- A copy that is not refused: the buffer is filled up to the end of the chunk, or of
the request, unless the hash function fails. -/
theorem copyChunk_ok (ho : o = k * trustedChunkSize) (hl : l = min (size - o) trustedChunkSize)
    (hoff : offset < stop) (hlt : o < stop) (hstop : stop ≤ size)
    (hnext : offset < o + trustedChunkSize) (h : ¬ Refused enc buf umem offset stop size o)
    (hm : Filled env buf umem offset (max o offset) m) :
    (env.shaUpdate o = false ∧ ∃ m',
      copyChunk enc debug env umem offset stop size o (buf + (max o offset - offset)) m =
        .error (.failed (some .crypto) m')) ∨
    (env.shaUpdate o = true ∧ ∃ m',
      copyChunk enc debug env umem offset stop size o (buf + (max o offset - offset)) m =
        .ok (env.chunk umem size o, buf + (min (o + l) stop - offset), m') ∧
      Filled env buf umem offset (min (o + l) stop) m') := by
  unfold Refused at h
  rw [← hl] at h
  obtain ⟨hu, hin⟩ := not_or.1 h
  have hu := not_not.1 hu
  have hlen : (env.chunk umem size o).length = l := hl ▸ env.chunk_length umem size o
  have hbyte : ∀ i, i < l → (env.chunk umem size o).getD i 0 = env.byte umem (o + i) := by
    subst ho hl
    exact fun i hi => env.chunk_getD hi
  simp only [copyChunk, ← hl]
  by_cases hwhole : offset ≤ o ∧ o + l ≤ stop
  · have hp : sgxIsCompletelyWithinEnclave enc (buf + (o - offset)) l :=
      not_not.1 fun hp => hin ⟨hwhole.1, hwhole.2, hp⟩
    rw [max_eq_left hwhole.1] at hm ⊢
    rw [if_pos hwhole, sgxCopyToEnclave_ok env hl hu hp]
    cases hsha : env.shaUpdate o with
    | false => exact .inl ⟨rfl, _, rfl⟩
    | true =>
      refine .inr ⟨rfl, m.write (buf + (o - offset)) (env.chunk umem size o), ?_, ?_⟩
      · rw [Nat.min_eq_left hwhole.2]
        have hpos : buf + (o - offset) + l = buf + (o + l - offset) := by omega
        rw [← hpos]
        rfl
      · refine hm.write hwhole.1 (by omega) fun i hi => hbyte i (by omega)
  · have hp : sgxIsCompletelyWithinEnclave enc enc.tmpChunk l := tmpChunk_within (by omega)
    have hpart : max o offset < min (o + l) stop := by omega
    rw [if_neg hwhole, sgxCopyToEnclave_ok env hl hu hp]
    cases hsha : env.shaUpdate o with
    | false => exact .inl ⟨rfl, _, rfl⟩
    | true =>
      refine .inr ⟨rfl, m.write (buf + (max o offset - offset))
        (((env.chunk umem size o).drop (max o offset - o)).take
          (min (o + l) stop - max o offset)), ?_, ?_⟩
      · have hpos : buf + (max o offset - offset) + (min (o + l) stop - max o offset) =
            buf + (min (o + l) stop - offset) := by omega
        simp only [not_true, hpart, and_false, hpos]
        rfl
      refine hm.write (le_max_right _ _) ?_ fun i hi => ?_
      · rw [length_take, length_drop]
        omega
      have hi' : max o offset - o + i < l := by omega
      rw [getD_eq_getElem?_getD, getElem?_take_of_lt hi, getElem?_drop,
        ← getD_eq_getElem?_getD, hbyte _ hi']
      congr 1
      omega

/-! ## All chunks -/

/-- Nothing goes wrong outside, and the mapping holds the file. -/
structure CopyEnv.Honest (env : CopyEnv) (umem : Nat) (F : Bytes) : Prop where
  malloc : env.malloc = true
  shaInit : ∀ o, env.shaInit o = true
  shaUpdate : ∀ o, env.shaUpdate o = true
  shaFinal : ∀ o, env.shaFinal o = true
  chunk : ∀ k, env.chunk umem F.length (k * trustedChunkSize) =
    TrustedFile.chunk F (k * trustedChunkSize)

theorem getElem?_hashesOf_of_lt {F : Bytes} (hk : k * trustedChunkSize < F.length) :
    (hashesOf sha F)[k]? = some (sha.chunkHash (chunk F (k * trustedChunkSize))) := by
  have hlt : k < udivRoundUp F.length trustedChunkSize := by
    by_contra hge
    have := Nat.mul_le_mul_right trustedChunkSize (not_lt.1 hge)
    have := (udivRoundUp_spec F.length).1
    omega
  simp [hashesOf, hashesUpTo, getElem?_range hlt]

variable [DecidableEq ChunkHash] {F : Bytes} {rest : List Nat}

variable (sha debug rest) in
/-- One iteration without a refused copy: it fails with an error, though not if all is
well outside, or it fills the buffer with what it read and verified, and goes on. -/
theorem copyChunks_cons (ho : o = k * trustedChunkSize)
    (hl : l = min (F.length - o) trustedChunkSize) (hoff : offset < stop) (hlt : o < stop)
    (hstop : stop ≤ F.length) (hnext : offset < o + trustedChunkSize)
    (h : ¬ Refused enc buf umem offset stop F.length o)
    (hm : Filled env buf umem offset (max o offset) m) :
    (¬ env.Honest umem F ∧ ∃ e m',
      copyChunks sha enc debug env umem offset stop F.length (hashesOf sha F) (o :: rest)
        (buf + (max o offset - offset)) m = .error (.failed (some e) m')) ∨
    ∃ m', Filled env buf umem offset (min (o + l) stop) m' ∧
      sha.chunkHash (env.chunk umem F.length o) = sha.chunkHash (chunk F o) ∧
      copyChunks sha enc debug env umem offset stop F.length (hashesOf sha F) (o :: rest)
        (buf + (max o offset - offset)) m =
      copyChunks sha enc debug env umem offset stop F.length (hashesOf sha F) rest
        (buf + (min (o + l) stop - offset)) m' := by
  have hhash : (hashesOf sha F)[o / trustedChunkSize]? = some (sha.chunkHash (chunk F o)) := by
    subst ho
    rw [Nat.mul_div_cancel _ (by decide)]
    exact getElem?_hashesOf_of_lt (by omega)
  rw [copyChunks]
  cases hinit : env.shaInit o with
  | false =>
    refine .inl ⟨fun hh => ?_, .crypto, m, rfl⟩
    rw [hh.shaInit] at hinit
    cases hinit
  | true =>
    rcases copyChunk_ok ho hl hoff hlt hstop hnext h hm with ⟨hup, m', hcopy⟩ | ⟨-, m', hcopy, hm'⟩
    · rw [hcopy]
      refine .inl ⟨fun hh => ?_, .crypto, m', rfl⟩
      rw [hh.shaUpdate] at hup
      cases hup
    rw [hcopy]
    cases hfin : env.shaFinal o with
    | false =>
      refine .inl ⟨fun hh => ?_, .crypto, m', rfl⟩
      rw [hh.shaFinal] at hfin
      cases hfin
    | true =>
      simp only [Bool.true_eq_false, if_false, hhash]
      by_cases heq : sha.chunkHash (chunk F o) = sha.chunkHash (env.chunk umem F.length o)
      · refine .inr ⟨m', hm', heq.symm, ?_⟩
        rw [if_neg (not_not.2 heq)]
      refine .inl ⟨fun hh => ?_, .denied, m', if_pos heq⟩
      subst ho
      rw [hh.chunk] at heq
      exact heq rfl

variable (sha enc debug env buf umem offset stop F) in
/-- The loop from chunk `k` on, for `n` chunks. -/
def loopFrom (k n : Nat) (m : Mem) : Except Stop Mem :=
  copyChunks sha enc debug env umem offset stop F.length (hashesOf sha F)
    (offsetsFrom (k * trustedChunkSize) n)
    (buf + (min (max (k * trustedChunkSize) offset) stop - offset)) m

/-- **The loop**: it fails with an error, though not if all is well outside, or comes to a
copy that is refused, or fills the buffer with bytes it has verified. -/
theorem loopFrom_spec (hoff : offset < stop) (hstop : stop ≤ F.length) {n : Nat} :
    ∀ {k : Nat} {m : Mem}, offset < (k + 1) * trustedChunkSize →
      (n ≠ 0 → (k + n - 1) * trustedChunkSize < stop) → stop ≤ (k + n) * trustedChunkSize →
      Filled env buf umem offset (min (max (k * trustedChunkSize) offset) stop) m →
      (¬ env.Honest umem F ∧ ∃ e m', loopFrom sha enc debug env buf umem offset stop F k n m =
        .error (.failed (some e) m')) ∨
      (∃ m', (∃ o ∈ offsetsFrom (k * trustedChunkSize) n,
          Refused enc buf umem offset stop F.length o) ∧
        loopFrom sha enc debug env buf umem offset stop F k n m = .error (.failed none m')) ∨
      ∃ m', (∀ o ∈ offsetsFrom (k * trustedChunkSize) n,
          ¬ Refused enc buf umem offset stop F.length o) ∧
        loopFrom sha enc debug env buf umem offset stop F k n m = .ok m' ∧
        Filled env buf umem offset stop m' ∧
        ∀ j, k ≤ j → j < k + n → sha.chunkHash (env.chunk umem F.length (j * trustedChunkSize)) =
          sha.chunkHash (chunk F (j * trustedChunkSize)) := by
  induction n with
  | zero =>
    intro k m _ _ hend hm
    rw [Nat.add_zero] at hend
    rw [loopFrom]
    rw [show min (max (k * trustedChunkSize) offset) stop = stop by omega] at hm ⊢
    exact .inr (.inr ⟨m, nofun, rfl, hm, fun j h1 h2 => by omega⟩)
  | succ n ih =>
    intro k m hk hlast hend hm
    have hshift : k + 1 + n = k + (n + 1) := by omega
    have hnext : (k + 1) * trustedChunkSize = k * trustedChunkSize + trustedChunkSize :=
      Nat.succ_mul _ _
    have hlt : k * trustedChunkSize < stop := by
      have h₂ := Nat.mul_le_mul_right trustedChunkSize (show k ≤ k + (n + 1) - 1 by omega)
      omega
    rw [loopFrom]
    rw [Nat.min_eq_left (Nat.max_le.2 ⟨hlt.le, hoff.le⟩)] at hm ⊢
    rw [offsetsFrom, ← hnext]
    by_cases hhead : Refused enc buf umem offset stop F.length (k * trustedChunkSize)
    · rw [copyChunks]
      cases hinit : env.shaInit (k * trustedChunkSize) with
      | false =>
        refine .inl ⟨fun hh => ?_, .crypto, m, rfl⟩
        rw [hh.shaInit] at hinit
        cases hinit
      | true =>
        rw [copyChunk_refused rfl hhead]
        exact .inr (.inl ⟨m, ⟨_, mem_cons_self, hhead⟩, rfl⟩)
    rcases copyChunks_cons sha debug (offsetsFrom ((k + 1) * trustedChunkSize) n) rfl rfl hoff hlt
      hstop (by omega) hhead hm with hfail | ⟨_, hm', _, hstep⟩
    · exact .inl hfail
    -- the next chunk starts where this one ends, unless the file or the request ends first
    have hpos : min (k * trustedChunkSize + min (F.length - k * trustedChunkSize)
        trustedChunkSize) stop = min (max ((k + 1) * trustedChunkSize) offset) stop := by omega
    rw [hpos] at hstep
    rw [hpos] at hm'
    rw [hstep]
    rcases ih (by rw [Nat.succ_mul]; omega)
      (fun _ => by rw [hshift]; exact hlast (Nat.succ_ne_zero n)) (by rwa [hshift]) hm' with
      hfail | ⟨m'', ⟨o, ho, hr⟩, hrefused⟩ | ⟨m'', hnot, hok, hfill, hall⟩
    · exact .inl hfail
    · exact .inr (.inl ⟨m'', ⟨o, mem_cons_of_mem _ ho, hr⟩, hrefused⟩)
    refine .inr (.inr ⟨m'', forall_mem_cons.2 ⟨hhead, hnot⟩, hok, hfill, fun j h1 h2 => ?_⟩)
    by_cases hj : j = k
    · rwa [hj]
    · exact hall j (by omega) (by omega)

end

/-! ## The whole contents -/

section
variable {Digest ChunkHash : Type} {sha : Sha Digest ChunkHash} {env : CopyEnv} {umem a b : Nat}
  {F G : Bytes}

/-- The file with the chunks from `a` to `b` as they were read. -/
def CopyEnv.contents (env : CopyEnv) (umem a b : Nat) (F : Bytes) : Bytes :=
  (List.range F.length).map fun i =>
    if a * trustedChunkSize ≤ i ∧ i < b * trustedChunkSize then env.byte umem i else F.getD i 0

theorem CopyEnv.contents_length : (env.contents umem a b F).length = F.length := by
  simp [CopyEnv.contents]

theorem CopyEnv.contents_getElem? {i : Nat} (h : i < F.length) : (env.contents umem a b F)[i]? =
      if a * trustedChunkSize ≤ i ∧ i < b * trustedChunkSize then some (env.byte umem i)
      else F[i]? := by
  simp only [CopyEnv.contents, getElem?_map, getElem?_range h, Option.map_some]
  split
  · rfl
  · rw [getD_eq_getElem?_getD, List.getElem?_eq_getElem h, Option.getD_some]

theorem chunk_getElem? (F : Bytes) {o i : Nat} (hi : i < trustedChunkSize) :
    (chunk F o)[i]? = F[o + i]? := by
  rw [chunk, slice, Nat.add_sub_cancel_left, getElem?_take_of_lt hi, getElem?_drop]

theorem chunk_length (F : Bytes) (o : Nat) :
    (chunk F o).length = min (F.length - o) trustedChunkSize := by
  rw [chunk, slice, length_take, length_drop]
  omega

theorem eq_chunk {b : Bytes} {o : Nat} (hlen : b.length = min (F.length - o) trustedChunkSize)
    (h : ∀ i, i < b.length → b[i]? = F[o + i]?) : b = chunk F o := by
  refine ext_getElem? fun i => ?_
  by_cases hi : i < b.length
  · rw [h i hi, chunk_getElem? F (by omega)]
  · rw [List.getElem?_eq_none (by omega), List.getElem?_eq_none (by rw [chunk_length]; omega)]

theorem CopyEnv.chunk_contents {k : Nat} :
    TrustedFile.chunk (env.contents umem a b F) (k * trustedChunkSize) =
      if a ≤ k ∧ k < b then env.chunk umem F.length (k * trustedChunkSize)
      else TrustedFile.chunk F (k * trustedChunkSize) := by
  have hin : ∀ i, i < trustedChunkSize → (a * trustedChunkSize ≤ k * trustedChunkSize + i ∧
      k * trustedChunkSize + i < b * trustedChunkSize ↔ a ≤ k ∧ k < b) := by
    intro i hi
    constructor
    · rintro ⟨h1, h2⟩
      constructor
      · by_contra hlt
        have := Nat.mul_le_mul_right trustedChunkSize (not_le.1 hlt)
        rw [Nat.succ_mul] at this
        omega
      · by_contra hle
        have := Nat.mul_le_mul_right trustedChunkSize (not_lt.1 hle)
        omega
    · rintro ⟨h1, h2⟩
      have := Nat.mul_le_mul_right trustedChunkSize h1
      have := Nat.mul_le_mul_right trustedChunkSize (Nat.succ_le_of_lt h2)
      rw [Nat.succ_mul] at this
      omega
  symm
  split
  · rename_i htouched
    refine eq_chunk ?_ fun i hi => ?_
    · rw [env.chunk_length, contents_length]
    rw [env.chunk_length] at hi
    rw [contents_getElem? (by omega), if_pos ((hin i (by omega)).2 htouched),
      ← env.chunk_getD hi, getD_eq_getElem?_getD,
      List.getElem?_eq_getElem (by rwa [env.chunk_length]), Option.getD_some]
  · rename_i huntouched
    refine eq_chunk ?_ fun i hi => ?_
    · rw [TrustedFile.chunk_length, contents_length]
    · rw [TrustedFile.chunk_length] at hi
      rw [contents_getElem? (by omega), if_neg (fun h => huntouched ((hin i (by omega)).1 h)),
        chunk_getElem? F (by omega)]

theorem CopyEnv.hashesOf_contents
    (h : ∀ j, a ≤ j → j < b → sha.chunkHash (env.chunk umem F.length (j * trustedChunkSize)) =
      sha.chunkHash (TrustedFile.chunk F (j * trustedChunkSize))) :
    hashesOf sha (env.contents umem a b F) = hashesOf sha F := by
  rw [hashesOf, contents_length]
  refine map_congr_left fun j _ => ?_
  rw [chunk_contents]
  split
  · rename_i hj
    exact h j hj.1 hj.2
  · rfl

/-- With a hash function without collisions, the chunk hashes determine the file. -/
theorem eq_of_hashesOf (hinj : sha.ChunkInjective) (hlen : G.length = F.length)
    (h : hashesOf sha G = hashesOf sha F) : G = F := by
  refine ext_getElem? fun i => ?_
  by_cases hi : i < F.length
  · have hdiv := Nat.div_add_mod' i trustedChunkSize
    have hmod := Nat.mod_lt i (show trustedChunkSize > 0 by decide)
    have hF := @getElem?_hashesOf_of_lt _ _ sha (i / trustedChunkSize) F (by omega)
    have hG := @getElem?_hashesOf_of_lt _ _ sha (i / trustedChunkSize) G (by omega)
    rw [h, hF] at hG
    have hchunk := hinj _ _ (Option.some.inj hG)
    rw [← hdiv, ← chunk_getElem? G hmod, ← chunk_getElem? F hmod, hchunk]
  · rw [List.getElem?_eq_none (by omega), List.getElem?_eq_none (by omega)]

end

/-! ## The whole function -/

section
variable {Digest ChunkHash : Type} [DecidableEq ChunkHash] {sha : Sha Digest ChunkHash}
  {enc : Enclave} {debug : Bool} {env : CopyEnv} {buf umem offset stop size : Nat} {F : Bytes}
  {m : Mem}

/-- `copy_and_verify_trusted_file` with the aligned range its callers pass. -/
def copyCall (sha : Sha Digest ChunkHash) (enc : Enclave) (debug : Bool) (env : CopyEnv)
    (buf umem offset stop : Nat) (hashes : List ChunkHash) (size : Nat) (m : Mem) :
    Option (Option CopyError × Mem) :=
  copyAndVerify sha enc debug env buf umem (alignDown offset trustedChunkSize)
    (alignUp stop trustedChunkSize) offset stop hashes size m

/-- The chunks of the request, by number: from the one of `offset` to the one `stop` is in
or after. -/
theorem chunks_of_request (hle : offset ≤ stop) :
    offset / trustedChunkSize * trustedChunkSize ≤ offset ∧
    offset < (offset / trustedChunkSize + 1) * trustedChunkSize ∧
    stop ≤ udivRoundUp stop trustedChunkSize * trustedChunkSize ∧
    offset / trustedChunkSize ≤ udivRoundUp stop trustedChunkSize ∧
    (stop ≠ 0 → (udivRoundUp stop trustedChunkSize - 1) * trustedChunkSize < stop) := by
  have hmod := Nat.div_add_mod' offset trustedChunkSize
  have hlt := Nat.mod_lt offset (show trustedChunkSize > 0 by decide)
  obtain ⟨hup, hlast⟩ := udivRoundUp_spec stop
  refine ⟨by omega, by rw [Nat.succ_mul]; omega, hup, ?_, hlast⟩
  by_contra hcon
  have := Nat.mul_le_mul_right trustedChunkSize (not_le.1 hcon)
  rw [Nat.succ_mul] at this
  omega

/-- The callers' range meets the assertions, so that the call is the loop and what follows
it. -/
theorem copyCall_eq (hle : offset ≤ stop) (hmalloc : env.malloc = true) :
    copyCall sha enc debug env buf umem offset stop (hashesOf sha F) F.length m =
      match copyChunks sha enc debug env umem offset stop F.length (hashesOf sha F)
        (offsetsFrom (offset / trustedChunkSize * trustedChunkSize)
          (udivRoundUp stop trustedChunkSize - offset / trustedChunkSize)) buf m with
      | .ok m => some (none, m)
      | .error (.failed ret m) => some (ret, m.zero buf (stop - offset))
      | .error .abort => none := by
  obtain ⟨h1, -, h3, -⟩ := chunks_of_request hle
  rw [copyCall, copyAndVerify, alignDown_eq, alignUp_eq, chunkOffsets_mul, if_neg, hmalloc,
    if_neg (by decide)]
  rintro ⟨-, hno⟩
  exact hno ⟨Nat.mul_mod_left _ _, h1, h3⟩

theorem copyCall_nomem (hle : offset ≤ stop) (hmalloc : env.malloc = false)
    (hashes : List ChunkHash) :
    copyCall sha enc debug env buf umem offset stop hashes size m =
      some (some .nomem, m.zero buf (stop - offset)) := by
  obtain ⟨h1, -, h3, -⟩ := chunks_of_request hle
  rw [copyCall, copyAndVerify, alignDown_eq, alignUp_eq, if_neg, hmalloc, if_pos rfl]
  rintro ⟨-, hno⟩
  exact hno ⟨Nat.mul_mod_left _ _, h1, h3⟩

omit [DecidableEq ChunkHash] in
theorem copyVerified_failed {e : CopyError} (hashes : List ChunkHash) :
    CopyVerified sha hashes buf offset stop size (some (some e, m.zero buf (stop - offset))) :=
  fun _ hi => Mem.zero_of_lt hi

/-- **A request for some bytes**: if a copy is refused and all is well outside, it gives
zeros as a success; if none is, it gives verified bytes or an error. -/
theorem copyCall_some (hoff : offset < stop) (hstop : stop ≤ F.length) :
    ((∀ o ∈ chunkOffsets (alignDown offset trustedChunkSize) (alignUp stop trustedChunkSize),
        ¬ Refused enc buf umem offset stop F.length o) →
      CopyVerified sha (hashesOf sha F) buf offset stop F.length
        (copyCall sha enc debug env buf umem offset stop (hashesOf sha F) F.length m)) ∧
    (env.Honest umem F →
      (∃ o ∈ chunkOffsets (alignDown offset trustedChunkSize) (alignUp stop trustedChunkSize),
        Refused enc buf umem offset stop F.length o) →
      ∃ m' : Mem, copyCall sha enc debug env buf umem offset stop (hashesOf sha F) F.length m =
        some (none, m'.zero buf (stop - offset))) := by
  cases hmalloc : env.malloc with
  | false =>
    rw [copyCall_nomem hoff.le hmalloc]
    refine ⟨fun _ => copyVerified_failed _, fun hh => ?_⟩
    cases hh.malloc.symm.trans hmalloc
  | true =>
    rw [copyCall_eq hoff.le hmalloc, alignDown_eq, alignUp_eq, chunkOffsets_mul]
    obtain ⟨h1, h2, h3, h4, h5⟩ := chunks_of_request hoff.le
    have hpos : min (max (offset / trustedChunkSize * trustedChunkSize) offset) stop = offset := by
      omega
    have hloop := @loopFrom_spec _ _ sha enc debug env buf umem offset stop _ F hoff hstop
      (udivRoundUp stop trustedChunkSize - offset / trustedChunkSize) (offset / trustedChunkSize) m
      h2 (fun _ => by rw [Nat.add_sub_cancel' h4]; exact h5 (by omega))
      (by rwa [Nat.add_sub_cancel' h4]) (by intro i hi; omega)
    rw [loopFrom, hpos, Nat.sub_self, Nat.add_zero] at hloop
    rcases hloop with ⟨hno, e, m', hfail⟩ | ⟨m', ⟨o, ho, hr⟩, hfail⟩ | ⟨m', hnot, hok, hfill, hall⟩
    · rw [hfail]
      exact ⟨fun _ => copyVerified_failed _, fun hh => absurd hh hno⟩
    · rw [hfail]
      exact ⟨fun hcond => absurd hr (hcond o ho), fun _ _ => ⟨m', rfl⟩⟩
    rw [hok]
    refine ⟨fun _ => ?_, fun _ ⟨o, ho, hr⟩ => absurd hr (hnot o ho)⟩
    rw [Nat.add_sub_cancel' h4] at hall
    refine ⟨env.contents umem (offset / trustedChunkSize) (udivRoundUp stop trustedChunkSize) F,
      CopyEnv.contents_length, CopyEnv.hashesOf_contents hall, fun i hi => ?_⟩
    rw [CopyEnv.contents_getElem? (by omega), if_pos (by omega), hfill i hi]

omit [DecidableEq ChunkHash] in
/-- With a request for no bytes there is nothing to promise but an answer. -/
theorem copyVerified_empty {r : Option (Option CopyError × Mem)} (h : r ≠ none) :
    CopyVerified sha (hashesOf sha F) buf offset offset F.length r := by
  rcases r with _ | ⟨_ | -, -⟩
  · exact absurd rfl h
  · exact ⟨F, rfl, rfl, fun i hi => by omega⟩
  · exact fun i hi => by omega

omit [DecidableEq ChunkHash] in
theorem copyChunk_empty {o bufPos : Nat} (hlt : o < offset) (hnext : offset < o + trustedChunkSize)
    (hlen : offset ≤ size) (h : ¬ Refused enc buf umem offset offset size o) :
    copyChunk enc debug env umem offset offset size o bufPos m =
      if env.shaUpdate o = false then .error (.failed (some .crypto) m)
      else if debug = true then .error .abort
      else .ok (env.chunk umem size o, bufPos, m.write bufPos []) := by
  obtain ⟨l, hl⟩ : ∃ l, l = min (size - o) trustedChunkSize := ⟨_, rfl⟩
  unfold Refused at h
  rw [← hl] at h
  have hu := not_not.1 (not_or.1 h).1
  have hp : sgxIsCompletelyWithinEnclave enc enc.tmpChunk l := tmpChunk_within (by omega)
  have hmin : min (o + l) offset = offset := by omega
  simp only [copyChunk, ← hl]
  rw [if_neg (by omega), sgxCopyToEnclave_ok env hl hu hp]
  simp only [Nat.max_eq_right hlt.le, hmin, lt_irrefl, not_false_iff, and_true, Nat.sub_self]
  rfl

theorem offsets_of_empty (hmod : offset % trustedChunkSize ≠ 0) :
    offsetsFrom (offset / trustedChunkSize * trustedChunkSize)
      (udivRoundUp offset trustedChunkSize - offset / trustedChunkSize) =
        [offset / trustedChunkSize * trustedChunkSize] := by
  rw [udivRoundUp, if_neg hmod, Nat.add_sub_cancel_left]
  rfl

theorem copyCall_empty (hlen : offset ≤ F.length)
    (hcond : debug = true → offset % trustedChunkSize ≠ 0 →
      Refused enc buf umem offset offset F.length (alignDown offset trustedChunkSize)) :
    CopyVerified sha (hashesOf sha F) buf offset offset F.length
      (copyCall sha enc debug env buf umem offset offset (hashesOf sha F) F.length m) := by
  refine copyVerified_empty ?_
  cases hmalloc : env.malloc with
  | false =>
    rw [copyCall_nomem le_rfl hmalloc]
    exact Option.some_ne_none _
  | true =>
    rw [copyCall_eq le_rfl hmalloc]
    obtain ⟨-, h2, -⟩ := chunks_of_request (le_refl offset)
    rw [Nat.succ_mul] at h2
    by_cases hmod : offset % trustedChunkSize = 0
    · rw [udivRoundUp, if_pos hmod, Nat.add_zero, Nat.sub_self]
      exact Option.some_ne_none _
    rw [alignDown_eq] at hcond
    have hdiv := Nat.div_add_mod' offset trustedChunkSize
    have hlt : offset / trustedChunkSize * trustedChunkSize < offset := by omega
    have hhash : (hashesOf sha F)[offset / trustedChunkSize * trustedChunkSize /
        trustedChunkSize]? = some (sha.chunkHash (chunk F
          (offset / trustedChunkSize * trustedChunkSize))) := by
      rw [Nat.mul_div_cancel _ (by decide)]
      exact getElem?_hashesOf_of_lt (by omega)
    rw [offsets_of_empty hmod, copyChunks, hhash]
    generalize offset / trustedChunkSize * trustedChunkSize = o at *
    by_cases hr : Refused enc buf umem offset offset F.length o
    · have hcopy := @copyChunk_refused enc debug env buf umem offset offset F.length o _ m rfl hr
      rw [Nat.max_eq_right (by omega), Nat.sub_self, Nat.add_zero] at hcopy
      rw [hcopy]
      cases env.shaInit o <;> simp
    · have hdebug : debug = false := eq_false_of_ne_true fun hd => hr (hcond hd hmod)
      rw [copyChunk_empty hlt h2 hlen hr, hdebug]
      cases env.shaInit o <;> cases env.shaUpdate o <;> cases env.shaFinal o <;>
        by_cases heq : sha.chunkHash (chunk F o) = sha.chunkHash (env.chunk umem F.length o) <;>
        simp [heq, copyChunks, pure, Except.pure]

/-- In a debug build a request for no bytes in the middle of a chunk fails an assertion. -/
theorem copyCall_abort (hdebug : debug = true) (hh : env.Honest umem F) (hlen : offset ≤ F.length)
    (hmod : offset % trustedChunkSize ≠ 0)
    (hr : ¬ Refused enc buf umem offset offset F.length (alignDown offset trustedChunkSize)) :
    copyCall sha enc debug env buf umem offset offset (hashesOf sha F) F.length m = none := by
  rw [copyCall_eq le_rfl hh.malloc]
  obtain ⟨-, h2, -⟩ := chunks_of_request (le_refl offset)
  rw [Nat.succ_mul] at h2
  rw [alignDown_eq] at hr
  have hdiv := Nat.div_add_mod' offset trustedChunkSize
  rw [offsets_of_empty hmod, copyChunks, hh.shaInit, copyChunk_empty (by omega) h2 hlen hr,
    hh.shaUpdate, if_pos hdebug]
  rfl

/-! ## Which requests return verified bytes only -/

/-- The file of ones, in a mapping that holds it. -/
def onesEnv : CopyEnv := ⟨true, fun _ _ => 1, fun _ => true, fun _ => true, fun _ => true⟩

theorem onesEnv_honest (umem n : Nat) : onesEnv.Honest umem (List.replicate n 1) := by
  refine ⟨rfl, fun _ => rfl, fun _ => rfl, fun _ => rfl, fun k => ?_⟩
  refine eq_chunk (CopyEnv.chunk_length ..) fun i hi => ?_
  rw [CopyEnv.chunk_length, length_replicate] at hi
  rw [getElem?_replicate, if_pos (by omega)]
  simp only [CopyEnv.chunk, onesEnv, length_replicate, getElem?_map,
    getElem?_range hi, Option.map_some]

/-- **`copy_and_verify_trusted_file` returns only verified bytes**, whatever the untrusted
memory holds at each copy and whichever calls fail, if no copy is refused and the request
is not one for no bytes in the middle of a chunk in a debug build. With a hash function
without collisions there is no other case in which it always does. The recorded hashes
are those of a file, which is what `load_trusted_or_allowed_file` computes. -/
theorem copy_verified_iff (sha : Sha Digest ChunkHash) (enc : Enclave) (debug : Bool)
    (buf umem : Nat) (hle : offset ≤ stop) (hstop : stop ≤ size) :
    (CopyCond enc debug buf umem offset stop size → ∀ F : Bytes, F.length = size →
      ∀ (env : CopyEnv) (m : Mem), CopyVerified sha (hashesOf sha F) buf offset stop size
        (copyCall sha enc debug env buf umem offset stop (hashesOf sha F) size m)) ∧
    (sha.ChunkInjective → (∀ F : Bytes, F.length = size →
      ∀ (env : CopyEnv) (m : Mem), CopyVerified sha (hashesOf sha F) buf offset stop size
        (copyCall sha enc debug env buf umem offset stop (hashesOf sha F) size m)) →
      CopyCond enc debug buf umem offset stop size) ∧
    (∀ (loadEnv : Env) (loadMem : Nat) (F : Bytes) (hashes : List ChunkHash),
      hashLoop sha enc loadEnv loadMem size (chunkOffsets 0 size) [] [] = .ok (F, hashes) →
        F.length = size ∧ hashes = hashesOf sha F) := by
  refine ⟨?_, ?_, fun _ _ _ _ h => hashLoop_chunkOffsets h⟩
  · rintro hcond F rfl env m
    rw [CopyCond] at hcond
    split at hcond
    · rename_i hoff
      exact (copyCall_some hoff hstop).1 hcond
    · obtain rfl : offset = stop := by omega
      exact copyCall_empty hstop hcond
  · intro hinj hall
    -- the file of ones, which the mapping holds
    obtain ⟨F, rfl, hF⟩ : ∃ F : Bytes, F.length = size ∧ F = List.replicate size 1 :=
      ⟨_, length_replicate, rfl⟩
    have hones := hall F rfl onesEnv fun _ => 0
    have hh : onesEnv.Honest umem F := by
      rw [hF]
      exact onesEnv_honest umem F.length
    rw [CopyCond]
    split
    · rename_i hoff
      intro o ho hr
      obtain ⟨_, hzero⟩ := (@copyCall_some _ _ _ sha enc debug onesEnv buf umem offset stop F
        (fun _ => 0) hoff hstop).2 hh ⟨o, ho, hr⟩
      rw [hzero] at hones
      obtain ⟨G, hlen, hG, hbytes⟩ := hones
      obtain rfl := eq_of_hashesOf hinj hlen hG
      have hbyte := hbytes 0 (by omega)
      rw [Mem.zero_of_lt (by omega), hF, getElem?_replicate] at hbyte
      split at hbyte <;> cases hbyte
    · intro hdebug hmod
      obtain rfl : offset = stop := by omega
      by_contra hr
      rwa [copyCall_abort hdebug hh hstop hmod hr] at hones

end

/-- Two bytes out of a file of three, in a buffer of the enclave. -/
theorem copy_verified_iff_two : CopyVerified idSha (hashesOf idSha [1, 1, 1]) 500000 1 3 3
      (copyCall idSha sampleEnclave true onesEnv 500000 4096 1 3 (hashesOf idSha [1, 1, 1]) 3
        fun _ => 0) :=
  (copy_verified_iff idSha sampleEnclave true 500000 4096 (by decide) (by decide)).1
    (by decide) [1, 1, 1] rfl onesEnv fun _ => 0

/-- **A refused copy is reported as a success**: with a buffer outside of the enclave the
function returns 0 for the one byte of a file, and the buffer holds 0 instead of 1. In a
debug build a request for no bytes in the middle of a chunk has no answer at all. -/
theorem copy_refused_returns_zero :
    (copyCall idSha sampleEnclave false onesEnv 0 4096 0 1 (hashesOf idSha [1]) 1 fun _ => 7).map
      (fun r => (r.1, r.2 0)) = some (none, 0) ∧
    ¬ CopyVerified idSha (hashesOf idSha [1]) 0 0 1 1
      (copyCall idSha sampleEnclave false onesEnv 0 4096 0 1 (hashesOf idSha [1]) 1 fun _ => 7) ∧
    ¬ CopyVerified idSha (hashesOf idSha [1, 1]) 500000 1 1 2
      (copyCall idSha sampleEnclave true onesEnv 500000 4096 1 1 (hashesOf idSha [1, 1]) 2
        fun _ => 7) := by
  have hzero : (copyCall idSha sampleEnclave false onesEnv 0 4096 0 1 (hashesOf idSha [1]) 1
      fun _ => 7).map (fun r => (r.1, r.2 0)) = some (none, 0) := by decide
  refine ⟨hzero, ?_, ?_⟩
  · obtain ⟨⟨ret, m⟩, hcall, hr⟩ := Option.map_eq_some_iff.1 hzero
    obtain ⟨hret, hm⟩ := Prod.mk.inj hr
    dsimp only at hret hm
    rw [hcall, hret]
    rintro ⟨G, hlen, hG, hbytes⟩
    obtain rfl := eq_of_hashesOf idSha_chunkInjective hlen hG
    have hbyte := hbytes 0 (by decide)
    rw [hm] at hbyte
    cases hbyte
  · have habort : (copyCall idSha sampleEnclave true onesEnv 500000 4096 1 1
        (hashesOf idSha [1, 1]) 2 fun _ => 7).isNone = true := by decide
    rw [Option.isNone_iff_eq_none.1 habort]
    exact id

end TrustedFile
