import Gramine.Fallible
import Gramine.TrustedFile

/-!
# Integrity of trusted files

The first successful open of a trusted file hashes everything it copies into the
enclave, so the chunk hashes it caches are those of a file `F` with the hash from
the manifest. A read copies a chunk, compares its hash and then takes the bytes
from what it copied, so it returns bytes of `F` whatever the host does.

Two things go wrong. What no hash covers is the size: a later open finds the chunk hashes
cached and takes the size the host reports. The handle then stands for another file, shorter
or longer than `F`, and `SizeKept` is the condition that excludes this. And a chunk is copied
straight into the caller's buffer, which is refused when the buffer is not in the enclave (it may be
untrusted shared memory); the error label then zeroes the buffer and returns success.
`Call.IntoEnclave` excludes this. In a run whose calls meet both conditions every handle reads as
one file with the hash from the manifest.
-/

open List

namespace TrustedFile

/-! ## Pieces of a file -/

/-- The bytes of `F` from `a` up to `b`. -/
def slice (F : Bytes) (a b : Nat) : Bytes := (F.drop a).take (b - a)

theorem slice_self (F : Bytes) (a : Nat) : slice F a a = [] := by
  simp [slice]

variable {F : Bytes}

theorem slice_append {a b c : Nat} (hab : a ≤ b) (hbc : b ≤ c) :
    slice F a b ++ slice F b c = slice F a c := by
  have hc : c - a = (b - a) + (c - b) := by omega
  rw [slice, slice, slice, hc, take_add, drop_drop, Nat.add_sub_cancel' hab]

theorem slice_length {a b : Nat} (hb : b ≤ F.length) : (slice F a b).length = b - a := by
  rw [slice, length_take, length_drop]
  omega

theorem slice_slice {a b c d : Nat} (hac : a ≤ c) (hdb : d ≤ b) :
    ((slice F a b).drop (c - a)).take (d - c) = slice F c d := by
  rw [slice, drop_take, drop_drop, take_take, Nat.add_sub_cancel' hac]
  congr 1
  omega

/-- The chunk of `F` that starts at `o`. -/
def chunk (F : Bytes) (o : Nat) : Bytes := slice F o (o + trustedChunkSize)

theorem chunk_eq_slice (F : Bytes) (o : Nat) :
    chunk F o = slice F o (o + min (F.length - o) trustedChunkSize) := by
  rw [chunk, slice, slice, Nat.add_sub_cancel_left, Nat.add_sub_cancel_left, Nat.min_comm,
    ← length_drop, ← take_eq_take_min]

theorem chunk_append_of_le {c : Bytes} {o : Nat} (h : o + trustedChunkSize ≤ F.length) :
    chunk (F ++ c) o = chunk F o := by
  have h' : trustedChunkSize ≤ (F.drop o).length := by rw [length_drop]; omega
  rw [chunk, chunk, slice, slice, Nat.add_sub_cancel_left, drop_append_of_le_length (by omega),
    take_append_of_le_length h']

theorem chunk_append_self {c : Bytes} (h : c.length ≤ trustedChunkSize) :
    chunk (F ++ c) F.length = c := by
  rw [chunk, slice, Nat.add_sub_cancel_left, drop_left, take_of_length_le h]

/-! ## Copies into the enclave -/

section Copy
variable {enc : Enclave} {ptr maxsize uptr usize : Nat} {mem : Nat → UInt8}

theorem length_of_copy {c : Bytes} (h : sgxCopyToEnclave enc ptr maxsize mem uptr usize = some c) :
    c.length = usize := by
  unfold sgxCopyToEnclave at h
  split_ifs at h
  cases h
  simp

theorem exists_copy {umem size o : Nat}
    (hu : sgxIsValidUntrustedPtr enc umem size pageSize) (ho : o + usize ≤ size)
    (hp : sgxIsCompletelyWithinEnclave enc ptr maxsize) (hm : usize ≤ maxsize) :
    ∃ c, sgxCopyToEnclave enc ptr maxsize mem (umem + o) usize = some c := by
  obtain ⟨_, _, -⟩ := hu
  have hv : sgxIsValidUntrustedPtr enc (umem + o) usize 1 := by
    refine ⟨?_, ?_, Nat.mod_one _⟩ <;> simp only [uintptrMax] at * <;> omega
  exact ⟨_, if_neg (by simp [hv, hp, not_lt.2 hm])⟩

theorem tmpChunk_within {size : Nat} (h : size ≤ trustedChunkSize) :
    sgxIsCompletelyWithinEnclave enc enc.tmpChunk size := by
  have h1 := enc.tmpChunk_within
  have h2 := enc.top_le
  refine ⟨?_, h1.1, ?_⟩ <;> simp only [uintptrMax] at * <;> omega

end Copy

/-! ## Alignment -/

theorem alignDown_eq (val d : Nat) : alignDown val d = val / d * d := by
  have := Nat.div_add_mod' val d
  rw [alignDown]
  omega

theorem udivRoundUp_mul (n : Nat) : udivRoundUp (n * trustedChunkSize) trustedChunkSize = n := by
  rw [udivRoundUp, Nat.mul_div_cancel _ (by decide), Nat.mul_mod_left, if_pos rfl, Nat.add_zero]

theorem chunkOffsets_mul (a b : Nat) : chunkOffsets (a * trustedChunkSize) (b * trustedChunkSize) =
      offsetsFrom (a * trustedChunkSize) (b - a) := by
  rw [chunkOffsets, ← Nat.sub_mul, udivRoundUp_mul]

theorem udivRoundUp_spec (n : Nat) : n ≤ udivRoundUp n trustedChunkSize * trustedChunkSize ∧
    (n ≠ 0 → (udivRoundUp n trustedChunkSize - 1) * trustedChunkSize < n) := by
  have hm := Nat.div_add_mod' n trustedChunkSize
  have hlt := Nat.mod_lt n (show trustedChunkSize > 0 by decide)
  rw [udivRoundUp]
  split
  · rw [Nat.add_zero, Nat.sub_mul]
    omega
  · refine ⟨by rw [Nat.succ_mul]; omega, fun _ => ?_⟩
    rw [Nat.add_sub_cancel]
    omega

theorem alignUp_eq (val : Nat) :
    alignUp val trustedChunkSize = udivRoundUp val trustedChunkSize * trustedChunkSize := by
  rw [alignUp, alignDown_eq, udivRoundUp]
  split <;> simp only [trustedChunkSize, pageSize] at * <;> omega

/-! ## Loading -/

section Integrity
variable {Digest ChunkHash : Type} {sha : Sha Digest ChunkHash} {enc : Enclave}

/-- The hashes of the chunks of `F` before the offset `n * TRUSTED_CHUNK_SIZE`. -/
def hashesUpTo (sha : Sha Digest ChunkHash) (F : Bytes) (n : Nat) : List ChunkHash :=
  (List.range n).map fun i => sha.chunkHash (chunk F (i * trustedChunkSize))

/-- The chunk hashes of `F`. -/
def hashesOf (sha : Sha Digest ChunkHash) (F : Bytes) : List ChunkHash :=
  hashesUpTo sha F (udivRoundUp F.length trustedChunkSize)

theorem getElem?_hashesOf {F : Bytes} {k : Nat} {hash : ChunkHash}
    (h : (hashesOf sha F)[k]? = some hash) :
    hash = sha.chunkHash (chunk F (k * trustedChunkSize)) := by
  rw [hashesOf, hashesUpTo, getElem?_map, Option.map_eq_some_iff] at h
  obtain ⟨i, hi, rfl⟩ := h
  obtain ⟨-, rfl⟩ := List.getElem?_eq_some_iff.1 hi
  simp

theorem hashesUpTo_append {F c : Bytes} {n : Nat} (hF : F.length = n * trustedChunkSize)
    (hc : c.length ≤ trustedChunkSize) :
    hashesUpTo sha (F ++ c) (n + 1) = hashesUpTo sha F n ++ [sha.chunkHash c] := by
  rw [hashesUpTo, range_succ, map_append, map_singleton, ← hF, chunk_append_self hc]
  congr 1
  refine map_congr_left fun i hi => ?_
  rw [mem_range] at hi
  have hle := Nat.mul_le_mul_right trustedChunkSize (Nat.succ_le_of_lt hi)
  rw [← hF, Nat.succ_mul] at hle
  rw [chunk_append_of_le hle]

variable {env : Env} {size umem : Nat}

/-- **Loading hashes what it copies**: after `n` whole chunks, the loop over the
rest of a file of `size` bytes ends with `size` bytes and with the hash of each of
their chunks. -/
theorem hashLoop_spec {m : Nat} : ∀ {n : Nat} {fileSha F : Bytes} {hashes : List ChunkHash},
      fileSha.length = min (n * trustedChunkSize) size →
      (m ≠ 0 → (n + m - 1) * trustedChunkSize < size) → size ≤ (n + m) * trustedChunkSize →
      hashLoop sha enc env umem size (offsetsFrom (n * trustedChunkSize) m) fileSha
        (hashesUpTo sha fileSha n) = .ok (F, hashes) →
      F.length = size ∧ hashes = hashesUpTo sha F (n + m) := by
  induction m with
  | zero =>
    intro n fileSha F hashes hlen _ hsize h
    obtain ⟨rfl, rfl⟩ := Prod.mk.inj (Except.ok.inj h)
    rw [Nat.add_zero] at hsize ⊢
    exact ⟨by omega, rfl⟩
  | succ m ih =>
    intro n fileSha F hashes hlen hlast hsize h
    have hshift : n + 1 + m = n + (m + 1) := by omega
    have hn : n * trustedChunkSize < size := by
      have := Nat.mul_le_mul_right trustedChunkSize (show n ≤ n + (m + 1) - 1 by omega)
      omega
    rw [Nat.min_eq_left hn.le] at hlen
    simp only [offsetsFrom, hashLoop] at h
    split at h
    · cases h
    split at h
    · cases h
    next c hc =>
    have hcl := length_of_copy hc
    rw [← hashesUpTo_append hlen (by omega), ← Nat.succ_mul] at h
    have hres := ih (n := n + 1) (by rw [length_append, Nat.succ_mul]; omega)
      (fun _ => by rw [hshift]; exact hlast (Nat.succ_ne_zero m)) (by rwa [hshift]) h
    rwa [hshift] at hres

/-- Loading from a valid mapping never fails with `ret == 0`. -/
theorem hashLoop_ne_zero {m : Nat} (hu : sgxIsValidUntrustedPtr enc umem size pageSize) :
    ∀ {o : Nat} {fileSha : Bytes} {hashes : List ChunkHash},
      (m ≠ 0 → o + (m - 1) * trustedChunkSize < size) →
      hashLoop sha enc env umem size (offsetsFrom o m) fileSha hashes ≠ .error .zero := by
  induction m with
  | zero => intro o fileSha hashes _ h; cases h
  | succ m ih =>
    intro o fileSha hashes hlast h
    have ho := hlast (Nat.succ_ne_zero m)
    rw [Nat.add_sub_cancel] at ho
    obtain ⟨c, hc⟩ : ∃ c, sgxCopyToEnclave enc enc.tmpChunk trustedChunkSize (env.mem o) (umem + o)
        (min (size - o) trustedChunkSize) = some c :=
      exists_copy hu (by omega) (tmpChunk_within le_rfl) (min_le_right _ _)
    simp only [offsetsFrom, hashLoop, hc] at h
    split_ifs at h
    · cases h
    refine ih (fun hm => ?_) h
    obtain ⟨_, rfl⟩ := Nat.exists_eq_succ_of_ne_zero hm
    rw [Nat.succ_mul] at ho
    rw [Nat.succ_eq_add_one, Nat.add_sub_cancel]
    omega

/-- The whole loop of `load_trusted_or_allowed_file`. -/
theorem hashLoop_chunkOffsets {F : Bytes} {hashes : List ChunkHash}
    (h : hashLoop sha enc env umem size (chunkOffsets 0 size) [] [] = .ok (F, hashes)) :
    F.length = size ∧ hashes = hashesOf sha F := by
  obtain ⟨_, hlast⟩ := udivRoundUp_spec size
  have hloop : hashLoop sha enc env umem size
      (offsetsFrom (0 * trustedChunkSize) (udivRoundUp size trustedChunkSize)) []
      (hashesUpTo sha [] 0) = .ok (F, hashes) := by rwa [Nat.zero_mul]
  have hres := hashLoop_spec (by simp)
    (fun hm => by rw [Nat.zero_add]; exact hlast (by rintro rfl; exact hm rfl))
    (by rwa [Nat.zero_add]) hloop
  rw [Nat.zero_add] at hres
  exact ⟨hres.1, by rw [hashesOf, hres.1]; exact hres.2⟩

theorem hashLoop_chunkOffsets_ne_zero
    (hu : size ≠ 0 → sgxIsValidUntrustedPtr enc umem size pageSize) :
    hashLoop sha enc env umem size (chunkOffsets 0 size) [] [] ≠ .error .zero := by
  rcases Nat.eq_zero_or_pos size with rfl | hpos
  · rintro ⟨⟩
  · refine hashLoop_ne_zero (hu (by omega)) fun _ => ?_
    rw [Nat.zero_add]
    exact (udivRoundUp_spec size).2 (by omega)

/-! ## Reading -/

section Read
variable [DecidableEq ChunkHash]

/-- No two byte strings with the same chunk hash. -/
def Sha.ChunkInjective (sha : Sha Digest ChunkHash) : Prop :=
  ∀ c d, sha.chunkHash c = sha.chunkHash d → c = d

omit [DecidableEq ChunkHash] in
theorem eq_slice_of_hash {F c : Bytes} {k o l : Nat} {hash : ChunkHash} (hinj : sha.ChunkInjective)
    (ho : o = k * trustedChunkSize) (hl : l = min (F.length - o) trustedChunkSize)
    (hh : (hashesOf sha F)[o / trustedChunkSize]? = some hash) (hc : ¬ hash ≠ sha.chunkHash c) :
    c = slice F o (o + l) := by
  rw [ho, Nat.mul_div_cancel _ (by decide)] at hh
  rw [hl, ← chunk_eq_slice, ho]
  exact hinj _ _ ((not_not.1 hc).symm.trans (getElem?_hashesOf hh))

variable {env : Env} {umem offset stop count buf : Nat} {F : Bytes}

/-- A result of copying the bytes from `offset` to `stop`: they are those of `F`,
or there is an error. -/
def Copies (F : Bytes) (offset stop : Nat) (r : Except Fail Bytes) : Prop :=
  r ≠ .error .zero ∧ ∀ out, r = .ok out → out = slice F offset stop

theorem Copies.fail {f : Fail} (hf : f ≠ .zero) : Copies F offset stop (throw f) :=
  ⟨fun h => hf (Except.error.inj h), by rintro _ ⟨⟩⟩

section
variable (hinj : sha.ChunkInjective) (hoff : offset ≤ stop)
  (hu : sgxIsValidUntrustedPtr enc umem F.length pageSize)
  (hbuf : sgxIsCompletelyWithinEnclave enc buf (stop - offset))
include hinj hoff hu hbuf

/-- One iteration: it fails, or it brings the copy to the end of the chunk or of the
range. -/
theorem copyLoop_cons {k o l pos : Nat} {rest : List Nat} {r : Except Fail Bytes}
    (ho : o = k * trustedChunkSize) (hl : l = min (F.length - o) trustedChunkSize)
    (hlt : o < F.length) (hpos : pos = max o offset)
    (hr : copyLoop sha enc env umem offset stop F.length (hashesOf sha F) (o :: rest)
      (buf + (pos - offset)) (slice F offset pos) = r)
    (hrest : copyLoop sha enc env umem offset stop F.length (hashesOf sha F) rest
      (buf + (min (o + l) stop - offset)) (slice F offset (min (o + l) stop)) = r →
        Copies F offset stop r) :
    Copies F offset stop r := by
  have hchunk := fun c hash => @eq_slice_of_hash _ _ sha F c k o l hash hinj ho hl
  have hle : o + l ≤ F.length := by omega
  have hcs : l ≤ trustedChunkSize := hl ▸ min_le_right _ _
  obtain ⟨hb1, hb2, hb3⟩ := hbuf
  simp only [copyLoop, ← hl] at hr
  split at hr
  · exact hr ▸ Copies.fail (by simp)
  split at hr
  · next hwhole =>
    obtain rfl : pos = o := by omega
    obtain ⟨c, hc⟩ : ∃ c, sgxCopyToEnclave enc (buf + (pos - offset)) l (env.mem pos)
        (umem + pos) l = some c :=
      exists_copy hu hle ⟨by omega, by omega, by omega⟩ le_rfl
    simp only [hc] at hr
    split at hr
    · exact hr ▸ Copies.fail (by simp)
    next hash hh =>
    split at hr
    · exact hr ▸ Copies.fail (by simp)
    next heq =>
    obtain rfl := hchunk c hash hh heq
    refine hrest ?_
    rw [← hr, slice_append hwhole.1 (Nat.le_add_right _ _), Nat.min_eq_left hwhole.2, Nat.add_assoc,
      ← Nat.sub_add_comm hwhole.1]
  · obtain ⟨c, hc⟩ : ∃ c, sgxCopyToEnclave enc enc.tmpChunk l (env.mem o) (umem + o) l = some c :=
      exists_copy hu hle (tmpChunk_within hcs) le_rfl
    simp only [hc, ← hpos] at hr
    split at hr
    · exact hr ▸ Copies.fail (by simp)
    next hcopy =>
    split at hr
    · exact hr ▸ Copies.fail (by simp)
    next hash hh =>
    split at hr
    · exact hr ▸ Copies.fail (by simp)
    next heq =>
    obtain rfl := hchunk c hash hh heq
    have hlt' : pos < min (o + l) stop := not_not.1 hcopy
    have hop : o ≤ pos := hpos ▸ le_max_left _ _
    have hfp : offset ≤ pos := hpos ▸ le_max_right _ _
    refine hrest ?_
    rw [← hr, slice_slice hop (Nat.min_le_left _ _), slice_append hfp hlt'.le,
      Nat.add_assoc, ← Nat.sub_add_comm hfp, Nat.add_sub_cancel' hlt'.le]

/-- **A read copies the file.** With the chunk hashes of `F`, the loop from the
chunk at `k * TRUSTED_CHUNK_SIZE` on adds the bytes of `F` up to `stop` to those
copied before; when the buffer and the mapping are valid it does not fail with
`ret == 0`. -/
theorem copyLoop_spec (hstop : stop ≤ F.length) {m : Nat} :
    ∀ {k pos : Nat}, pos = min (max (k * trustedChunkSize) offset) stop →
      offset < (k + 1) * trustedChunkSize → (m ≠ 0 → (k + m - 1) * trustedChunkSize < stop) →
      stop ≤ (k + m) * trustedChunkSize → ∀ {r : Except Fail Bytes},
      copyLoop sha enc env umem offset stop F.length (hashesOf sha F)
        (offsetsFrom (k * trustedChunkSize) m) (buf + (pos - offset)) (slice F offset pos) = r →
      Copies F offset stop r := by
  induction m with
  | zero =>
    intro k pos hpos _ _ hend r hr
    have hp : pos = stop := by rw [Nat.add_zero] at hend; omega
    subst hr hp
    exact ⟨by rintro ⟨⟩, fun out h => (Except.ok.inj h).symm⟩
  | succ m ih =>
    intro k pos hpos hk hlast hend r hr
    have hshift : k + 1 + m = k + (m + 1) := by omega
    have hnext : (k + 1) * trustedChunkSize = k * trustedChunkSize + trustedChunkSize :=
      Nat.succ_mul _ _
    have hlt : k * trustedChunkSize < stop := by
      have h2 := Nat.mul_le_mul_right trustedChunkSize (show k ≤ k + (m + 1) - 1 by omega)
      omega
    rw [Nat.min_eq_left (Nat.max_le.2 ⟨hlt.le, hoff⟩)] at hpos
    have hlen := hlt.trans_le hstop
    refine copyLoop_cons hinj hoff hu hbuf rfl rfl hlen hpos hr fun hr' => ?_
    rw [← hnext] at hr'
    -- the next chunk starts where this one ends, unless the file or the range ends first
    refine ih (k := k + 1) ?_ (by rw [Nat.succ_mul]; omega)
      (fun _ => by rw [hshift]; exact hlast (Nat.succ_ne_zero m)) (by rwa [hshift]) hr'
    omega

/-- The whole of `copy_and_verify_trusted_file`. -/
theorem copyAndVerify_spec (hstop : stop ≤ F.length) :
    Copies F offset stop (copyAndVerifyTrustedFile sha enc env buf umem
      (alignDown offset trustedChunkSize) (alignUp stop trustedChunkSize) offset stop
      (hashesOf sha F) F.length) := by
  unfold copyAndVerifyTrustedFile
  split
  · exact Copies.fail (by simp)
  rw [alignDown_eq, alignUp_eq, chunkOffsets_mul]
  have hmod := Nat.div_add_mod' offset trustedChunkSize
  have hlt := Nat.mod_lt offset (show trustedChunkSize > 0 by decide)
  obtain ⟨hup, hlast⟩ := udivRoundUp_spec stop
  -- the chunk of `offset` is not after the last one
  have hle : offset / trustedChunkSize ≤ udivRoundUp stop trustedChunkSize := by
    by_contra hcon
    have := Nat.mul_le_mul_right trustedChunkSize (not_le.1 hcon)
    rw [Nat.succ_mul] at this
    omega
  have hloop : Copies F offset stop (copyLoop sha enc env umem offset stop F.length (hashesOf sha F)
      (offsetsFrom (offset / trustedChunkSize * trustedChunkSize)
        (udivRoundUp stop trustedChunkSize - offset / trustedChunkSize))
      (buf + (offset - offset)) (slice F offset offset)) := by
    refine copyLoop_spec hinj hoff hu hbuf hstop (by omega) (by rw [Nat.succ_mul]; omega)
      (fun hm => ?_) (by rwa [Nat.add_sub_cancel' hle]) rfl
    rw [Nat.add_sub_cancel' hle]
    refine hlast fun h0 => hm ?_
    rw [h0, udivRoundUp]
    simp
  rw [Nat.sub_self, slice_self] at hloop
  split
  · next h => exact absurd h hloop.1
  · exact hloop

end

/-- A file and a handle on it: the handle has its size and chunk hashes, and a
mapping that `ocall_mmap_untrusted` accepted. -/
structure HandleOf (sha : Sha Digest ChunkHash) (enc : Enclave) (F : Bytes) (h : Handle ChunkHash) :
    Prop where
  size : h.size = F.length
  hashes : h.chunkHashes = some (hashesOf sha F)
  umem : h.size ≠ 0 → sgxIsValidUntrustedPtr enc h.umem h.size pageSize

/-- **`file_read` returns the bytes of the file**, whatever the host does meanwhile. -/
theorem fileRead_spec {h : Handle ChunkHash} {ret : Nat} {out : Bytes} (hinj : sha.ChunkInjective)
    (hF : HandleOf sha enc F h) (hbuf : sgxIsCompletelyWithinEnclave enc buf count)
    (hread : fileRead sha enc env h offset count buf = .ok (ret, out)) :
    out = (F.drop offset).take count ∧ ret = out.length := by
  simp only [fileRead, hF.hashes, hF.size] at hread
  split at hread
  · next hle =>
    obtain ⟨rfl, rfl⟩ := Prod.mk.inj (Except.ok.inj hread)
    simp [drop_eq_nil_of_le hle]
  split at hread
  · cases hread
  next hlt hu =>
  obtain ⟨o, ho, hread⟩ := Fallible.bind_eq_ok.1 hread
  split at hread
  · cases hread
  next hle =>
  obtain ⟨rfl, rfl⟩ := Prod.mk.inj (Except.ok.inj hread)
  have hcount := hbuf.1
  -- the end of the range does not wrap around, or it would be before `offset`
  have hnowrap : (offset + count) % 2 ^ 64 = offset + count := by
    simp only [uintptrMax] at hcount
    omega
  obtain rfl := (copyAndVerify_spec hinj (not_lt.1 hle)
    (hF.size ▸ hF.umem (by rw [hF.size]; omega)) ⟨by omega, hbuf.2.1, by have := hbuf.2.2; omega⟩
    (min_le_right _ _)).2 _ ho
  rw [slice_length (min_le_right _ _), slice, take_eq_take_iff, length_drop]
  omega

end Read

/-! ## Runs -/

section Runs
variable [DecidableEq Digest] [DecidableEq ChunkHash] {H : Digest}

/-- The handle reads as one file with the hash `H`, in the calls that meet a condition: it has its
size, and every successful `file_read` returns its bytes at the offset. -/
def Handle.ReadsAs (sha : Sha Digest ChunkHash) (enc : Enclave) (H : Digest)
    (condition : Call → Prop) (h : Handle ChunkHash) : Prop :=
  ∃ F, sha.sha256 F = H ∧ h.size = F.length ∧
    ∀ i offset count buf env, condition (.read i offset count buf env) →
      ∀ ret out, fileRead sha enc env h offset count buf = .ok (ret, out) →
        out = (F.drop offset).take count ∧ ret = out.length

/-- The condition on a call: when the chunk hashes of the file are cached already,
the size that `fstat` reports is that of the file with the hash from the manifest. -/
def SizeKept (sha : Sha Digest ChunkHash) (s : State Digest ChunkHash) : Call → Prop
  | .open _ host => s.entry.chunkHashes = none ∨
      ∀ size fifo F, host.fstat = some (size, fifo) → sha.sha256 F = s.entry.fileHash →
        F.length = size
  | _ => True

/-- The other condition on a call: a read goes to enclave memory. -/
def Call.IntoEnclave (enc : Enclave) : Call → Prop
  | .read _ _ count buf _ => sgxIsCompletelyWithinEnclave enc buf count
  | _ => True

/-- Both conditions. -/
def Kept (sha : Sha Digest ChunkHash) (enc : Enclave) (s : State Digest ChunkHash) (c : Call) :
    Prop :=
  SizeKept sha s c ∧ c.IntoEnclave enc

/-- The cached chunk hashes are those of a file with the hash `H`. -/
def EntryOk (sha : Sha Digest ChunkHash) (H : Digest) (tf : Entry Digest ChunkHash) : Prop :=
  tf.fileHash = H ∧ ∀ hashes, tf.chunkHashes = some hashes →
    ∃ F, sha.sha256 F = H ∧ hashes = hashesOf sha F

section
variable {tf tf' : Entry Digest ChunkHash} {r : Except Fail (Handle ChunkHash)}
  (htf : EntryOk sha H tf)
include htf

omit [DecidableEq ChunkHash] in
/-- **Loading keeps the entry and gives a handle on the file.** The condition on
the size matters only when the chunk hashes are cached. -/
theorem loadTrustedFile_spec {seekable : Bool} {mmap : Option Nat} {env : Env}
    (hsize : tf.chunkHashes = none ∨ ∀ F, sha.sha256 F = tf.fileHash → F.length = tf.size)
    (hload : loadTrustedFile sha enc tf seekable mmap env = (tf', r)) :
    EntryOk sha H tf' ∧ ∀ h, r = .ok h → ∃ F, sha.sha256 F = H ∧ HandleOf sha enc F h := by
  unfold loadTrustedFile at hload
  split at hload
  · cases hload
    exact ⟨htf, by rintro _ ⟨⟩⟩
  simp only at hload
  split at hload
  · cases hload
    exact ⟨htf, by rintro _ ⟨⟩⟩
  next umem humem =>
  have hvalid : tf.size ≠ 0 → sgxIsValidUntrustedPtr enc umem tf.size pageSize := by
    intro hne
    rw [if_neg hne, Option.filter_eq_some_iff] at humem
    simpa using humem.2
  split at hload
  · next hashes hcached =>
    -- the cached hashes: nothing ties the size to the file but the condition
    cases hload
    obtain ⟨F, hF, rfl⟩ := htf.2 _ hcached
    have hlen := hsize.resolve_left (by simp [hcached]) F (hF.trans htf.1.symm)
    refine ⟨htf, fun h hh => ?_⟩
    cases hh
    exact ⟨F, hF, hlen.symm, rfl, hvalid⟩
  · split at hload
    · next hzero => exact absurd hzero (hashLoop_chunkOffsets_ne_zero hvalid)
    · cases hload
      exact ⟨htf, by rintro _ ⟨⟩⟩
    next F hashes hloop =>
    obtain ⟨hlen, rfl⟩ := hashLoop_chunkOffsets hloop
    split_ifs at hload with hsha hhash
    · cases hload
      exact ⟨htf, by rintro _ ⟨⟩⟩
    · cases hload
      exact ⟨htf, by rintro _ ⟨⟩⟩
    cases hload
    have hF : sha.sha256 F = H := (not_not.1 hhash).trans htf.1
    refine ⟨⟨htf.1, fun hashes h => ⟨F, hF, (Option.some.inj h).symm⟩⟩, fun h hh => ?_⟩
    cases hh
    exact ⟨F, hF, hlen.symm, rfl, hvalid⟩

omit [DecidableEq ChunkHash] in
/-- **An open keeps the entry and gives a handle on the file.** -/
theorem fileOpen_spec {flags : OpenFlags} {host : HostOpen}
    (hsize : tf.chunkHashes = none ∨ ∀ size fifo F, host.fstat = some (size, fifo) →
      sha.sha256 F = tf.fileHash → F.length = size)
    (hopen : fileOpen sha enc tf flags host = (tf', r)) :
    EntryOk sha H tf' ∧ ∀ h, r = .ok h → ∃ F, sha.sha256 F = H ∧ HandleOf sha enc F h := by
  unfold fileOpen at hopen
  split_ifs at hopen
  · cases hopen
    exact ⟨htf, by rintro _ ⟨⟩⟩
  · cases hopen
    exact ⟨htf, by rintro _ ⟨⟩⟩
  split at hopen
  · cases hopen
    exact ⟨htf, by rintro _ ⟨⟩⟩
  · next size fifo hstat =>
    exact loadTrustedFile_spec (show EntryOk sha H { tf with size := size } from htf)
      (hsize.imp_right fun h F => h size fifo F hstat) hopen

end

/-- What every state of a run with kept sizes satisfies. -/
structure State.Inv (sha : Sha Digest ChunkHash) (enc : Enclave) (H : Digest)
    (s : State Digest ChunkHash) : Prop where
  entry : EntryOk sha H s.entry
  handles : ∀ h ∈ s.handles, ∃ F, sha.sha256 F = H ∧ HandleOf sha enc F h

omit [DecidableEq Digest] [DecidableEq ChunkHash] in
theorem inv_initial : (initial H : State Digest ChunkHash).Inv sha enc H :=
  ⟨⟨rfl, by rintro _ ⟨⟩⟩, by rintro _ ⟨⟩⟩

omit [DecidableEq ChunkHash] in
theorem State.Inv.exec {s : State Digest ChunkHash} (hs : s.Inv sha enc H) {c : Call}
    (hc : SizeKept sha s c) : (exec sha enc s c).Inv sha enc H := by
  cases c with
  | read | map => exact hs
  | «open» flags host =>
    rw [TrustedFile.exec]
    split
    · next tf h hopen =>
      obtain ⟨hentry, hh⟩ := fileOpen_spec hs.entry hc hopen
      exact ⟨hentry, forall_mem_cons.2 ⟨hh h rfl, hs.handles⟩⟩
    · next tf f hopen => exact ⟨(fileOpen_spec hs.entry hc hopen).1, hs.handles⟩

/-- **Trusted files are read as hashed**, in every run whose opens keep the size and whose reads go
to enclave memory: each handle reads as one file with the hash from the manifest. -/
theorem handle_readsAs (hinj : sha.ChunkInjective) {s : State Digest ChunkHash}
    (hr : Transition.Reachable (fun s => s = initial H)
      (Transition.Guarded (Kept sha enc) (Step sha enc)) s) :
    ∀ h ∈ s.handles, h.ReadsAs sha enc H (Kept sha enc s) := by
  have hinv : s.Inv sha enc H := by
    refine hr.invariant (fun s hs => hs ▸ inv_initial) fun s c s' hs hstep => ?_
    rw [hstep.2]
    exact hs.exec hstep.1.1
  intro h hh
  obtain ⟨F, hF, hof⟩ := hinv.handles h hh
  exact ⟨F, hF, hof.size, fun i offset count buf env hkept ret out hread =>
    fileRead_spec hinj hof hkept.2 hread⟩

/-- **All reads of a trusted file agree**, through whichever handles and whatever the host does in
between: no two of them return different bytes for one position of the file. -/
theorem reads_agree (hinj : sha.ChunkInjective) (hfile : Function.Injective sha.sha256)
    {s : State Digest ChunkHash} (hr : Transition.Reachable (fun s => s = initial H)
      (Transition.Guarded (SizeKept sha) (Step sha enc)) s) {h h' : Handle ChunkHash}
    (hh : h ∈ s.handles) (hh' : h' ∈ s.handles) {env env' : Env}
    {offset offset' count count' buf buf' ret ret' : Nat} {out out' : Bytes}
    (hbuf : sgxIsCompletelyWithinEnclave enc buf count)
    (hbuf' : sgxIsCompletelyWithinEnclave enc buf' count')
    (hread : fileRead sha enc env h offset count buf = .ok (ret, out))
    (hread' : fileRead sha enc env' h' offset' count' buf' = .ok (ret', out')) :
    ∀ i j b b', offset + i = offset' + j → out[i]? = some b → out'[j]? = some b' → b = b' := by
  have hinv : s.Inv sha enc H := hr.invariant (fun s hs => hs ▸ inv_initial)
    fun s c s' hs hstep => hstep.2 ▸ hs.exec hstep.1
  obtain ⟨F, hF, hof⟩ := hinv.handles h hh
  obtain ⟨F', hF', hof'⟩ := hinv.handles h' hh'
  obtain rfl := hfile (hF.trans hF'.symm)
  obtain ⟨rfl, -⟩ := fileRead_spec hinj hof hbuf hread
  obtain ⟨rfl, -⟩ := fileRead_spec hinj hof' hbuf' hread'
  intro i j b b' hij hb hb'
  simp only [List.getElem?_take, List.getElem?_drop, Option.ite_none_right_eq_some] at hb hb'
  exact Option.some.inj (hb.2.symm.trans (hij ▸ hb'.2))

end Runs

end Integrity

/-! ## Cached chunk hashes and the size -/

/-- A collision-free hash for the examples: the bytes themselves. -/
def idSha : Sha Bytes Bytes := ⟨id, id⟩

theorem idSha_chunkInjective : idSha.ChunkInjective := fun _ _ h => h

/-- An enclave of a hundred pages. -/
def sampleEnclave : Enclave where
  base := 409600
  top := 819200
  tmpChunk := 409600
  top_le := by decide
  tmpChunk_within := by decide

/-- A host that reports `size` bytes, all of them 7, below the enclave. -/
def hostWithSize (size : Nat) : HostOpen where
  fd := true
  fstat := some (size, false)
  mmap := some 4096
  env := ⟨fun _ _ => 7, fun _ => true⟩

/-- The file of two bytes, opened once. -/
def openedOnce : State Bytes Bytes :=
  exec idSha sampleEnclave (initial [7, 7]) (.open ⟨false, true⟩ (hostWithSize 2))

/-- The same file opened again, with another size reported. -/
def openedAgain (size : Nat) : State Bytes Bytes :=
  exec idSha sampleEnclave openedOnce (.open ⟨false, true⟩ (hostWithSize size))

theorem handle_readsAs_reopened : Handle.ReadsAs idSha sampleEnclave [7, 7]
    (Kept idSha sampleEnclave (openedAgain 2)) ⟨2, some [[7, 7]], 4096⟩ :=
  handle_readsAs (s := openedAgain 2) idSha_chunkInjective
    (.step (.open ⟨false, true⟩ (hostWithSize 2))
      (.step (.open ⟨false, true⟩ (hostWithSize 2)) (.init rfl) ⟨⟨.inl rfl, trivial⟩, rfl⟩)
      ⟨⟨.inr (by rintro _ _ F ⟨⟩ rfl; rfl), trivial⟩, rfl⟩)
    _ (List.Mem.head _)

/-- **Neither condition can be left out.** With the chunk hashes cached, the second open succeeds
with size 0, and no file with the hash from the manifest is empty. And a read of the two bytes into
a buffer outside the enclave succeeds and returns two zero bytes. -/
theorem readsAs_fails :
    (∃ s, Transition.Reachable (fun s => s = initial [7, 7])
        (Transition.Guarded (fun _ c => c.IntoEnclave sampleEnclave) (Step idSha sampleEnclave)) s ∧
      ∃ h ∈ s.handles, ¬ h.ReadsAs idSha sampleEnclave [7, 7] (·.IntoEnclave sampleEnclave)) ∧
    ∃ s, Transition.Reachable (fun s => s = initial [7, 7])
        (Transition.Guarded (SizeKept idSha) (Step idSha sampleEnclave)) s ∧
      ∃ h ∈ s.handles, ¬ h.ReadsAs idSha sampleEnclave [7, 7] (SizeKept idSha s) := by
  constructor
  · refine ⟨openedAgain 0, .step (.open ⟨false, true⟩ (hostWithSize 0))
      (.step (.open ⟨false, true⟩ (hostWithSize 2)) (.init rfl) ⟨trivial, rfl⟩) ⟨trivial, rfl⟩,
      ⟨0, some [[7, 7]], 0⟩, List.Mem.head _, ?_⟩
    rintro ⟨F, rfl, hsize, -⟩
    cases hsize
  · refine ⟨openedOnce, .step (.open ⟨false, true⟩ (hostWithSize 2)) (.init rfl) ⟨.inl rfl, rfl⟩,
      ⟨2, some [[7, 7]], 4096⟩, List.Mem.head _, ?_⟩
    rintro ⟨F, rfl, -, hreads⟩
    have hout := (hreads 0 0 2 8192 (hostWithSize 2).env trivial 2 [0, 0] rfl).1
    exact absurd hout (by decide)

/-- A read of that file. -/
def sampleRead (offset count : Nat) : Except Fail (Nat × Bytes) :=
  fileRead idSha sampleEnclave (hostWithSize 2).env ⟨2, some [[7, 7]], 4096⟩ offset count 413696

theorem reads_agree_overlap : ∃ out out', sampleRead 0 2 = .ok (2, out) ∧
    sampleRead 1 1 = .ok (1, out') ∧ ∀ b b', out[1]? = some b → out'[0]? = some b' → b = b' := by
  obtain ⟨out, hread⟩ : ∃ out, sampleRead 0 2 = .ok (2, out) := ⟨_, rfl⟩
  obtain ⟨out', hread'⟩ : ∃ out', sampleRead 1 1 = .ok (1, out') := ⟨_, rfl⟩
  exact ⟨out, out', hread, hread', fun b b' => reads_agree (s := openedOnce) idSha_chunkInjective
    (fun _ _ h => h) (.step (.open ⟨false, true⟩ (hostWithSize 2)) (.init rfl) ⟨.inl rfl, rfl⟩)
    (List.Mem.head _) (List.Mem.head _) (by decide) (by decide) hread hread' 1 0 b b' rfl⟩

end TrustedFile
