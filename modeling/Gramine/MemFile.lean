import Gramine.ByteFile
import Gramine.Fallible
import Gramine.Transition

/-!
# In-memory files

`libos_fs_mem.c`: the contents of a file of `tmpfs`, or of a writable pseudo-file, in a buffer
that is at least as long as the file. The buffer grows and shrinks by powers of two; its bytes
past the end of the file stay as they are when the file is cut off.

Offsets and sizes are those the callers admit (`file_off_t` without its sign). `alloc` says for
which sizes `malloc` succeeds.
-/

open List

namespace FsMem

open ByteFile Fallible

/-- The error codes. -/
inductive Errno
  | enomem
  | efbig
  | eperm
  deriving DecidableEq, Repr

/-- `struct libos_mem_file`. -/
structure MemFile where
  buf : List UInt8
  size : Nat
  bufSize : Nat
  deriving DecidableEq, Repr

/-- `MIN_RESIZE`. -/
def minResize : Nat := 16

/-- `mem_file_init`. -/
def memFileInit (data : List UInt8) : MemFile := ⟨data, data.length, data.length⟩

/-- `mem_file_resize`. -/
def memFileResize (alloc : Nat → Bool) (mem : MemFile) (bufSize : Nat) : Except Errno MemFile :=
  if alloc bufSize = false then throw .enomem
  else
    let minSize := min bufSize mem.size
    pure { mem with buf := mem.buf.take minSize ++ List.replicate (bufSize - minSize) 0, bufSize }

/-- `mem_file_read`. -/
def memFileRead (mem : MemFile) (posStart size : Nat) : List UInt8 :=
  let posEnd := if 2 ^ 63 ≤ posStart + size ∨ mem.size < posStart + size then mem.size
    else posStart + size
  let size := if posStart ≤ posEnd then posEnd - posStart else 0
  (mem.buf.drop posStart).take size

/-- The loop that doubles `buf_size` until it reaches `posEnd`; sixty-one rounds are enough
for a `size_t`. -/
def growBufSize : Nat → Nat → Nat → Except Errno Nat
  | 0, _, _ => throw .efbig
  | fuel + 1, bufSize, posEnd =>
    if bufSize < posEnd then
      if 2 ^ 64 ≤ bufSize * 2 then throw .efbig else growBufSize fuel (bufSize * 2) posEnd
    else pure bufSize

/-- The loop that halves `buf_size` while the half is large enough. -/
def shrinkBufSize : Nat → Nat → Nat → Nat
  | 0, bufSize, _ => bufSize
  | fuel + 1, bufSize, size =>
    if size ≤ bufSize / 2 then shrinkBufSize fuel (bufSize / 2) size else bufSize

/-- `mem_file_write`, with the number of bytes it returns. -/
def memFileWrite (alloc : Nat → Bool) (mem : MemFile) (posStart : Nat) (data : List UInt8) :
    Except Errno (MemFile × Nat) :=
  let posEnd := posStart + data.length
  if 2 ^ 63 ≤ posEnd then throw .efbig
  else if data = [] then pure (mem, 0)
  else do
    let mem ← if mem.bufSize < posEnd then do
        let bufSize ← growBufSize 61 (max mem.bufSize minResize) posEnd
        memFileResize alloc mem bufSize
      else pure mem
    pure ({ mem with
      buf := mem.buf.take posStart ++ data ++ mem.buf.drop posEnd,
      size := if mem.size < posEnd then posEnd else mem.size }, data.length)

/-- The size of the buffer that `mem_file_truncate` chooses. -/
def truncateBufSize (bufSize size : Nat) : Except Errno Nat :=
  if bufSize < size then growBufSize 61 (max bufSize minResize) size
  else if 0 < size then pure (max (shrinkBufSize bufSize bufSize size) minResize)
  else pure minResize

/-- `mem_file_truncate`. -/
def memFileTruncate (alloc : Nat → Bool) (mem : MemFile) (size : Nat) : Except Errno MemFile := do
  let bufSize ← truncateBufSize mem.bufSize size
  let mem ← if bufSize ≠ mem.bufSize then memFileResize alloc mem bufSize else pure mem
  pure { mem with size }

/-! ## Sequences of calls -/

/-- A call. -/
inductive Op
  | read (pos size : Nat)
  | write (pos : Nat) (data : List UInt8)
  | truncate (size : Nat)
  deriving DecidableEq, Repr

/-- What a call returns. -/
inductive Output
  | bytes (data : List UInt8)
  | count (n : Nat)
  | done
  deriving DecidableEq, Repr

/-- One call; a failing one leaves the file as it is. -/
def exec (alloc : Nat → Bool) (mem : MemFile) : Op → MemFile × Except Errno Output
  | .read pos size => (mem, .ok (.bytes (memFileRead mem pos size)))
  | .write pos data =>
    match memFileWrite alloc mem pos data with
    | .ok (mem, n) => (mem, .ok (.count n))
    | .error e => (mem, .error e)
  | .truncate size =>
    match memFileTruncate alloc mem size with
    | .ok mem => (mem, .ok .done)
    | .error e => (mem, .error e)

/-- The same call on the list of the file's bytes. -/
def specExec (a : List UInt8) : Op → List UInt8 × Output
  | .read pos size => (a, .bytes (readAt a pos size))
  | .write pos data => (writeAt a pos data, .count data.length)
  | .truncate size => (resize a size, .done)

/-- The offsets and sizes are in the range of `file_off_t`. -/
def Op.Admitted : Op → Prop
  | .read _ _ => True
  | .write pos data => pos + data.length < 2 ^ 63
  | .truncate size => size < 2 ^ 63

instance (op : Op) : Decidable op.Admitted := by
  cases op <;> unfold Op.Admitted <;> infer_instance

/-! ## The buffer -/

/-- What is true of a file between two calls. -/
structure Valid (mem : MemFile) : Prop where
  buf : mem.buf.length = mem.bufSize
  size : mem.size ≤ mem.bufSize
  range : mem.size < 2 ^ 63

/-- The bytes of the file. -/
def MemFile.contents (mem : MemFile) : List UInt8 := mem.buf.take mem.size

theorem growBufSize_ok {fuel bufSize posEnd : Nat} (hpos : 0 < bufSize) (hend : posEnd < 2 ^ 63)
    (hfuel : posEnd ≤ bufSize * 2 ^ fuel) :
    ∃ n, growBufSize (fuel + 1) bufSize posEnd = .ok n ∧ posEnd ≤ n ∧ bufSize ≤ n := by
  induction fuel generalizing bufSize with
  | zero =>
    refine ⟨bufSize, ?_, by omega, le_rfl⟩
    rw [growBufSize, if_neg (by omega)]
    rfl
  | succ fuel ih =>
    rw [growBufSize]
    by_cases hlt : bufSize < posEnd
    · rw [if_pos hlt, if_neg (by omega)]
      have hfuel' : posEnd ≤ bufSize * 2 * 2 ^ fuel := by
        rwa [Nat.mul_assoc, ← Nat.pow_succ']
      obtain ⟨n, hn, hle, hge⟩ := ih (Nat.mul_pos hpos Nat.two_pos) hfuel'
      exact ⟨n, hn, hle, by omega⟩
    · rw [if_neg hlt]
      exact ⟨bufSize, rfl, by omega, le_rfl⟩

theorem growBufSize_max (bufSize : Nat) {posEnd : Nat} (hend : posEnd < 2 ^ 63) :
    ∃ n, growBufSize 61 (max bufSize minResize) posEnd = .ok n ∧ posEnd ≤ n ∧ bufSize ≤ n := by
  have h16 : minResize = 16 := rfl
  have hfuel : posEnd ≤ max bufSize minResize * 2 ^ 60 := by omega
  obtain ⟨n, hn, hle, hge⟩ := growBufSize_ok (by omega) hend hfuel
  exact ⟨n, hn, hle, by omega⟩

theorem shrinkBufSize_le (fuel bufSize size : Nat) : shrinkBufSize fuel bufSize size ≤ bufSize := by
  induction fuel generalizing bufSize with
  | zero => exact le_rfl
  | succ fuel ih =>
    rw [shrinkBufSize]
    split
    · exact (ih _).trans (Nat.div_le_self ..)
    · exact le_rfl

theorem le_shrinkBufSize {bufSize size : Nat} (h : size ≤ bufSize) (fuel : Nat) :
    size ≤ shrinkBufSize fuel bufSize size := by
  induction fuel generalizing bufSize with
  | zero => exact h
  | succ fuel ih =>
    rw [shrinkBufSize]
    split
    · rename_i hle
      exact ih hle
    · exact h

/-- The halving loop leaves the buffer alone exactly when its half is too small. -/
theorem shrinkBufSize_eq_iff {bufSize size : Nat} (hsize : 0 < size) (hle : size ≤ bufSize) :
    shrinkBufSize bufSize bufSize size = bufSize ↔ bufSize < 2 * size := by
  cases bufSize with
  | zero => omega
  | succ n =>
    rw [shrinkBufSize]
    split
    · have := shrinkBufSize_le n ((n + 1) / 2) size
      constructor <;> omega
    · constructor
      · omega
      · exact fun _ => rfl

/-- The size of the buffer after `mem_file_truncate`, and when the buffer is kept. -/
theorem truncateBufSize_ok (bufSize : Nat) {size : Nat} (h : size < 2 ^ 63) :
    ∃ n, truncateBufSize bufSize size = .ok n ∧ size ≤ n ∧ (n = bufSize ↔ size ≤ bufSize ∧
        (bufSize = minResize ∨ minResize ≤ bufSize ∧ bufSize < 2 * size)) := by
  rw [truncateBufSize]
  split
  · obtain ⟨n, hn, hle, hge⟩ := growBufSize_max bufSize h
    exact ⟨n, hn, hle, by omega⟩
  rename_i hge
  split
  · rename_i hpos
    refine ⟨_, rfl, ?_, ?_⟩
    · have := le_shrinkBufSize (not_lt.1 hge) bufSize
      omega
    · have hiff := shrinkBufSize_eq_iff hpos (not_lt.1 hge)
      have hle := shrinkBufSize_le bufSize bufSize size
      omega
  · exact ⟨_, rfl, by omega, by omega⟩

section Contents
variable {mem : MemFile} {a : List UInt8}

theorem Valid.length_contents (hv : Valid mem) : mem.contents.length = mem.size := by
  rw [MemFile.contents, length_take, hv.buf]
  exact min_eq_left hv.size

theorem Valid.contents_eq_iff (hv : Valid mem) : mem.contents = a ↔
    mem.size = a.length ∧ ∀ i, i < mem.size → byteAt mem.buf i = byteAt a i := by
  constructor
  · rintro rfl
    exact ⟨hv.length_contents.symm, fun i hi => (byteAt_take hi).symm⟩
  rintro ⟨hlen, hbytes⟩
  refine ext_byteAt (hv.length_contents.trans hlen) fun i hi => ?_
  rw [hv.length_contents] at hi
  rw [MemFile.contents, byteAt_take hi, hbytes i hi]

/-- `mem_file_resize` keeps the bytes of the file, and zeros the rest. -/
theorem memFileResize_eq {alloc : Nat → Bool} (hv : Valid mem) {n : Nat} (ha : alloc n = true) :
    memFileResize alloc mem n = .ok ⟨resize mem.contents n, mem.size, n⟩ := by
  have hbuf : mem.buf.take (min n mem.size) ++ List.replicate (n - min n mem.size) 0 =
      resize mem.contents n := by
    rw [resize, hv.length_contents, MemFile.contents, take_take]
    congr 2
    omega
  rw [memFileResize, if_neg (by rw [ha]; exact Bool.noConfusion)]
  simp only [hbuf]
  rfl

/-- `mem_file_read` reads the bytes of the file. -/
theorem memFileRead_eq (hv : Valid mem) (pos size : Nat) :
    memFileRead mem pos size = readAt mem.contents pos size := by
  have hr := hv.range
  rw [memFileRead, readAt, MemFile.contents, drop_take, take_take]
  congr 1
  split
  all_goals
    split <;> omega

end Contents

/-! ## When the calls do what they do on a list of bytes -/

/-- What every read would return, and the size, are those of the list. -/
def Agrees (mem : MemFile) (a : List UInt8) : Prop :=
  mem.size = a.length ∧ ∀ pos size, memFileRead mem pos size = readAt a pos size

/-- A call that extends the file within its buffer finds zeros there. -/
def Zeroed (mem : MemFile) : Op → Prop
  | .read _ _ => True
  | .write pos data => data ≠ [] → pos + data.length ≤ mem.bufSize →
      ∀ i, mem.size ≤ i → i < pos → byteAt mem.buf i = 0
  | .truncate size => size ≤ mem.bufSize →
      mem.bufSize = minResize ∨ minResize ≤ mem.bufSize ∧ mem.bufSize < 2 * size →
      ∀ i, mem.size ≤ i → i < size → byteAt mem.buf i = 0

theorem agrees_iff {mem : MemFile} {a : List UInt8} (hv : Valid mem) :
    Agrees mem a ↔ mem.contents = a := by
  constructor
  · rintro ⟨hlen, hread⟩
    have h := hread 0 mem.size
    rw [memFileRead_eq hv, readAt, readAt, drop_zero, drop_zero,
      take_of_length_le hv.length_contents.le,
      take_of_length_le hlen.symm.le] at h
    exact h
  · rintro rfl
    exact ⟨hv.length_contents.symm, fun pos size => memFileRead_eq hv pos size⟩

section Step
variable {alloc : Nat → Bool} {mem : MemFile} {a : List UInt8}

/-- The bytes of the buffer up to a position are those of the list, exactly when there are zeros
past the end of the file. -/
theorem Valid.zeros_iff (hv : Valid mem) (hc : mem.contents = a) (n : Nat) :
    (∀ i, i < n → byteAt mem.buf i = byteAt a i) ↔
      ∀ i, mem.size ≤ i → i < n → byteAt mem.buf i = 0 := by
  obtain ⟨hlen, hbytes⟩ := hv.contents_eq_iff.1 hc
  constructor
  · intro h i hsize hi
    rw [h i hi, byteAt_of_le (hlen ▸ hsize)]
  intro h i hi
  by_cases hsize : i < mem.size
  · exact hbytes i hsize
  · rw [h i (not_lt.1 hsize) hi, byteAt_of_le (hlen ▸ not_lt.1 hsize)]

/-- The last part of `mem_file_write`, on a buffer that is large enough. -/
theorem write_contents {buf : List UInt8} {n pos size : Nat} {data : List UInt8}
    (hd : data ≠ []) (hbuf : buf.length = n) (hsize : size ≤ n) (hpos : pos + data.length ≤ n)
    (hrange : size < 2 ^ 63) (hadm : pos + data.length < 2 ^ 63) (hlen : size = a.length)
    (hbytes : ∀ i, i < size → byteAt buf i = byteAt a i) {mem' : MemFile}
    (hmem : mem' = ⟨buf.take pos ++ data ++ buf.drop (pos + data.length),
      if size < pos + data.length then pos + data.length else size, n⟩) :
    Valid mem' ∧ (mem'.contents = writeAt a pos data ↔
      ∀ i, i < pos → byteAt buf i = byteAt a i) := by
  have hbuf' : mem'.buf = writeAt buf pos data := by
    rw [hmem, writeAt, if_neg hd, resize_of_le (by omega)]
  have hsize' : mem'.size = max size (pos + data.length) := by
    rw [hmem]
    by_cases hlt : size < pos + data.length
    · simp only [if_pos hlt]
      omega
    · simp only [if_neg hlt]
      omega
  have hn : mem'.bufSize = n := by rw [hmem]
  have hv : Valid mem' := by
    refine ⟨?_, ?_, ?_⟩
    · rw [hbuf', length_writeAt hd]
      omega
    · omega
    · omega
  refine ⟨hv, ?_⟩
  rw [hv.contents_eq_iff, hsize', hbuf', length_writeAt hd, hlen]
  constructor
  · rintro ⟨-, h⟩ i hi
    have := h i (by omega)
    rwa [byteAt_writeAt hd, byteAt_writeAt hd, if_neg (by omega), if_neg (by omega)] at this
  intro h
  refine ⟨rfl, fun i hi => ?_⟩
  rw [byteAt_writeAt hd, byteAt_writeAt hd]
  split
  · rfl
  · by_cases hlt : i < pos
    · exact h i hlt
    · exact hbytes i (by omega)

section
variable (halloc : ∀ n, alloc n = true) (hv : Valid mem) (hc : mem.contents = a)
include halloc hv hc

theorem memFileWrite_spec {pos : Nat} {data : List UInt8} (hadm : pos + data.length < 2 ^ 63) :
    ∃ mem', memFileWrite alloc mem pos data = .ok (mem', data.length) ∧ Valid mem' ∧
      (mem'.contents = writeAt a pos data ↔ Zeroed mem (.write pos data)) := by
  obtain ⟨hlen, hbytes⟩ := hv.contents_eq_iff.1 hc
  have hsize := hv.size
  by_cases hd : data = []
  · subst hd
    refine ⟨mem, ?_, hv, ?_⟩
    · simp only [memFileWrite, if_neg (not_le.2 hadm)]
      rfl
    · rw [writeAt]
      simp [hc, Zeroed]
  · by_cases hgrow : mem.bufSize < pos + data.length
    · -- the buffer is reallocated, and has zeros past the end of the file
      obtain ⟨n, hn, hle, hge⟩ := growBufSize_max mem.bufSize hadm
      have hcopy : ∀ i, byteAt (resize mem.contents n) i = byteAt a i := by
        intro i
        by_cases hi : i < n
        · rw [byteAt_resize hi, hc]
        · rw [byteAt_of_le (by rw [length_resize]; omega), byteAt_of_le (by omega)]
      obtain ⟨hv', hiff⟩ := write_contents (a := a) hd
        (length_resize mem.contents n) (by omega) hle hv.range hadm hlen
        (fun i _ => hcopy i) rfl
      refine ⟨_, ?_, hv', ?_⟩
      · rw [memFileWrite]
        rw [if_neg (by omega), if_neg hd, if_pos hgrow, hn]
        simp only [bind, Except.bind, memFileResize_eq hv (halloc n)]
        rfl
      · rw [hiff]
        refine ⟨fun _ _ hfit => absurd hfit (by omega), fun _ i _ => hcopy i⟩
    · obtain ⟨hv', hiff⟩ := write_contents (a := a) hd hv.buf hv.size
        (not_lt.1 hgrow) hv.range hadm hlen hbytes rfl
      refine ⟨_, ?_, hv', ?_⟩
      · rw [memFileWrite]
        rw [if_neg (by omega), if_neg hd, if_neg hgrow]
        rfl
      · rw [hiff, hv.zeros_iff hc]
        exact ⟨fun h _ _ => h, fun h => h hd (not_lt.1 hgrow)⟩

theorem memFileTruncate_spec {size : Nat} (hadm : size < 2 ^ 63) :
    ∃ mem', memFileTruncate alloc mem size = .ok mem' ∧ Valid mem' ∧
      (mem'.contents = resize a size ↔ Zeroed mem (.truncate size)) := by
  obtain ⟨n, hn, hle, hkeep⟩ := truncateBufSize_ok mem.bufSize hadm
  by_cases hsame : n = mem.bufSize
  · have hv' : Valid { mem with size } := ⟨hv.buf, hsame ▸ hle, hadm⟩
    refine ⟨_, ?_, hv', ?_⟩
    · simp only [memFileTruncate, hn, bind, Except.bind, if_neg (not_not.2 hsame)]
      rfl
    rw [hv'.contents_eq_iff, length_resize]
    have hsize : (∀ i, i < size → byteAt mem.buf i = byteAt (resize a size) i) ↔
        ∀ i, i < size → byteAt mem.buf i = byteAt a i :=
      forall₂_congr fun i hi => by rw [byteAt_resize hi]
    simp only [true_and, hsize, hv.zeros_iff hc]
    obtain ⟨h1, h2⟩ := hkeep.1 hsame
    exact ⟨fun h _ _ => h, fun h => h h1 h2⟩
  · have hv' : Valid ⟨resize mem.contents n, size, n⟩ := ⟨length_resize .., hle, hadm⟩
    refine ⟨_, ?_, hv', ?_⟩
    · simp only [memFileTruncate, hn, bind, Except.bind, if_pos hsame,
        memFileResize_eq hv (halloc n)]
      rfl
    · rw [hv'.contents_eq_iff, length_resize]
      refine ⟨fun _ h1 h2 => absurd (hkeep.2 ⟨h1, h2⟩) hsame, fun _ => ⟨rfl, fun i hi => ?_⟩⟩
      rw [byteAt_resize (hi.trans_le hle), byteAt_resize hi, hc]

/-- One call does what it does on the list exactly when it finds zeros in the buffer. -/
theorem exec_spec {op : Op} (hadm : op.Admitted) :
    (exec alloc mem op).2 = .ok (specExec a op).2 ∧ Valid (exec alloc mem op).1 ∧
      ((exec alloc mem op).1.contents = (specExec a op).1 ↔ Zeroed mem op) := by
  cases op with
  | read pos size =>
    refine ⟨?_, hv, iff_of_true hc trivial⟩
    simp [exec, specExec, memFileRead_eq hv, hc]
  | write pos data =>
    obtain ⟨mem', he, hv', hiff⟩ := memFileWrite_spec halloc hv hc hadm
    simp only [exec, he]
    exact ⟨rfl, hv', hiff⟩
  | truncate size =>
    obtain ⟨mem', he, hv', hiff⟩ := memFileTruncate_spec halloc hv hc hadm
    simp only [exec, he]
    exact ⟨rfl, hv', hiff⟩

end

end Step

/-- Along a sequence of calls, every call returns what it returns on the list, and before and
after each of them every read would. -/
def Refines (alloc : Nat → Bool) (mem : MemFile) (a : List UInt8) : List Op → Prop
  | [] => Agrees mem a
  | op :: ops => Agrees mem a ∧ (exec alloc mem op).2 = .ok (specExec a op).2 ∧
      Refines alloc (exec alloc mem op).1 (specExec a op).1 ops

/-- Every call of the sequence finds zeros where it extends the file within its buffer. -/
def ZeroedRun (alloc : Nat → Bool) (mem : MemFile) : List Op → Prop
  | [] => True
  | op :: ops => Zeroed mem op ∧ ZeroedRun alloc (exec alloc mem op).1 ops

theorem refines_iff {alloc : Nat → Bool} {mem : MemFile} {a : List UInt8}
    (halloc : ∀ n, alloc n = true) (hv : Valid mem) (hc : mem.contents = a) {ops : List Op}
    (hadm : ∀ op ∈ ops, op.Admitted) : Refines alloc mem a ops ↔ ZeroedRun alloc mem ops := by
  induction ops generalizing mem a with
  | nil => exact iff_of_true ((agrees_iff hv).2 hc) trivial
  | cons op ops ih =>
    obtain ⟨hout, hv', hiff⟩ := exec_spec halloc hv hc (hadm op mem_cons_self)
    have hadm' : ∀ o ∈ ops, o.Admitted := fun o ho => hadm o (mem_cons_of_mem _ ho)
    constructor
    · rintro ⟨-, -, hrest⟩
      have hc' : (exec alloc mem op).1.contents = (specExec a op).1 := by
        refine (agrees_iff hv').1 ?_
        cases ops with
        | nil => exact hrest
        | cons => exact hrest.1
      exact ⟨hiff.1 hc', (ih hv' hc' hadm').1 hrest⟩
    · rintro ⟨hzero, hrest⟩
      exact ⟨(agrees_iff hv).2 hc, hout, (ih hv' (hiff.2 hzero) hadm').2 hrest⟩

/-- **In-memory files and byte arrays.** A sequence of calls on a file does what the same calls do
on the list of its bytes, exactly when no call extends the file within its buffer over bytes that
an earlier `mem_file_truncate` cut off and that are not zero. -/
theorem mem_file_refines {alloc : Nat → Bool} (halloc : ∀ n, alloc n = true) {data : List UInt8}
    (hdata : data.length < 2 ^ 63) {ops : List Op} (hadm : ∀ op ∈ ops, op.Admitted) :
    Refines alloc (memFileInit data) data ops ↔ ZeroedRun alloc (memFileInit data) ops := by
  refine refines_iff halloc ⟨rfl, le_rfl, hdata⟩ ?_ hadm
  exact take_length

/-- Writing past the end of a new file, and cutting it off. -/
theorem mem_file_refines_gap :
    Refines (fun _ => true) (memFileInit []) [] [.write 2 [7], .truncate 1, .read 0 4] := by
  refine (mem_file_refines (fun _ => rfl) (by decide) (by decide)).2 ⟨?_, ?_, trivial, trivial⟩
  · intro _ h
    exact absurd h (by decide)
  · intro _ _ i h1 h2
    exact absurd (h1.trans_lt h2) (by decide)

/-- **Bytes that were cut off come back.** -/
theorem truncated_bytes_reappear : ¬ Refines (fun _ => true) (memFileInit []) []
      [.write 0 [1, 2, 3], .truncate 0, .write 2 [7], .read 0 3] := by
  rintro ⟨-, -, -, -, -, -, -, h, -⟩
  exact absurd (Except.ok.inj h) (by decide)

end FsMem
