import Mathlib

/-!
# Receiving from a stream socket

`do_recvmsg` of `libos_socket.c`. The PAL has no peeking, so a receive with `MSG_PEEK` takes bytes
from the PAL into a buffer of the socket, and later receives look there first.

The whole call after its first checks is under `recv_lock` and is one step. The PAL is the bytes
that it has not given away yet; it gives away any number of them that it was asked for, or fails.
Addresses, control messages and the blocking mode, which only the PAL looks at, are left out.

The bytes still to be received are those in the buffer followed by those of the PAL. `Transparent`
says what one receive does to them: a peek leaves them alone and puts what it returns in front of
the PAL's bytes, and another receive takes what it returns from their front. Over a sequence of
receives this gives the order of the bytes (`run_pending`), and that peeked bytes are handed out as
soon as there is room for them (`peeked_taken`).
-/

open List

namespace RecvMsg

/-- The errors of a receive. -/
inductive Errno
  | notsock
  | opnotsupp
  | again
  | nomem
  | intr
  | restartnohand
  | restartsys
  | other (n : Nat)
  deriving DecidableEq, Repr

/-! ## The buffer -/

/-- The buffer of peeked bytes: the memory, of which the first `dataSize` bytes are in use. -/
structure PeekBuf where
  buf : List UInt8
  dataSize : Nat
  dataSize_le : dataSize ≤ buf.length

namespace PeekBuf

/-- No memory. -/
def empty : PeekBuf := ⟨[], 0, Nat.le_refl 0⟩

/-- `peek.buf_size`. -/
def bufSize (p : PeekBuf) : Nat := p.buf.length

/-- The bytes in use. -/
def data (p : PeekBuf) : List UInt8 := p.buf.take p.dataSize

@[simp] theorem length_data (p : PeekBuf) : p.data.length = p.dataSize := by
  rw [data, length_take, Nat.min_eq_left p.dataSize_le]

/-- New memory of `size` bytes, with the bytes in use copied there. -/
def grow (p : PeekBuf) (size : Nat) (mem : Nat → UInt8) : PeekBuf :=
  ⟨p.data ++ ((List.range size).map mem).drop p.dataSize, p.dataSize, by simp⟩

/-- The PAL wrote `chunk` behind the bytes in use. -/
def receive (p : PeekBuf) (chunk : List UInt8) : PeekBuf :=
  ⟨p.data ++ chunk ++ p.buf.drop (p.dataSize + chunk.length), p.dataSize + chunk.length, by simp⟩

/-- The first `size` bytes are given away, and the others moved to the front. -/
def consume (p : PeekBuf) (size : Nat) : PeekBuf :=
  ⟨p.data.drop size ++ p.buf.drop (p.dataSize - size), p.dataSize - size, by simp⟩

@[simp] theorem data_grow (p : PeekBuf) (size : Nat) (mem : Nat → UInt8) :
    (p.grow size mem).data = p.data := by
  have hlen := p.length_data
  rw [data, grow]
  rw [take_append_of_le_length (Nat.le_of_eq hlen.symm), take_of_length_le (Nat.le_of_eq hlen)]

@[simp] theorem data_receive (p : PeekBuf) (chunk : List UInt8) :
    (p.receive chunk).data = p.data ++ chunk := by
  have hlen : (p.data ++ chunk).length = p.dataSize + chunk.length := by simp
  rw [data, receive]
  rw [take_append_of_le_length (Nat.le_of_eq hlen.symm), take_of_length_le (Nat.le_of_eq hlen)]

@[simp] theorem data_consume (p : PeekBuf) (size : Nat) :
    (p.consume size).data = p.data.drop size := by
  have hlen : (p.data.drop size).length = p.dataSize - size := by simp
  rw [data, consume]
  rw [take_append_of_le_length (Nat.le_of_eq hlen.symm), take_of_length_le (Nat.le_of_eq hlen)]

end PeekBuf

/-! ## The call -/

/-- `SOCK_STREAM`, or another type. -/
inductive SockType
  | stream
  | dgram
  deriving DecidableEq, Repr

/-- `struct libos_sock_handle`: what a receive looks at. -/
structure Sock where
  type : SockType
  connecting : Bool
  lastError : Option Errno
  receivetimeoutSet : Bool
  peek : PeekBuf

/-- The socket, and the bytes the PAL has not given away. -/
structure State where
  sock : Sock
  unread : List UInt8

/-- `MSG_PEEK`, `MSG_TRUNC`, and whether there is any flag that is not supported. -/
structure Flags where
  peek : Bool
  trunc : Bool
  unsupported : Bool
  deriving DecidableEq, Repr

/-- The arguments: whether the handle is a socket, the flags, the lengths of the iovecs, and
`emulate_recv_error_semantics`. -/
structure Request where
  isSock : Bool
  flags : Flags
  iovLens : List Nat
  emulateRecvErrorSemantics : Bool
  deriving DecidableEq, Repr

/-- What comes back: the return value, what was written to the iovecs, and the flags. -/
structure Reply where
  ret : Except Errno Nat
  iov : List (List UInt8)
  flags : Flags

/-- The bytes that a receive returned. -/
def Reply.bytes (r : Reply) : List UInt8 := r.iov.flatten

/-- A failed receive. -/
def Request.fail (r : Request) (e : Errno) : Reply := ⟨.error e, [], r.flags⟩

/-- The answer of the PAL: an error, or at most `k` bytes. -/
inductive PalAnswer
  | error (e : Errno)
  | bytes (k : Nat)
  deriving DecidableEq, Repr

/-- `sock->ops->recv` with room for `len` bytes: the bytes, and those the PAL still has. -/
def palRecv (unread : List UInt8) (len : Nat) : PalAnswer → Except Errno (List UInt8 × List UInt8)
  | .error e => .error e
  | .bytes k => .ok (unread.take (min k len), unread.drop (min k len))

/-- Bytes written to iovecs of the given lengths, one after the other. -/
def copyToIov (data : List UInt8) : List Nat → List (List UInt8)
  | [] => []
  | len :: lens => data.take len :: copyToIov (data.drop len) lens

/-- Reallocate the buffer, if it has not enough room. -/
def PeekBuf.realloc (p : PeekBuf) (size : Nat) (mem : Option (Nat → UInt8)) : Option PeekBuf :=
  if p.bufSize < size then mem.map (p.grow size) else some p

/-- The part of a peek that tries to get more data. The PAL writes to all the free room of the
buffer; an allocated buffer stays if the PAL fails. -/
def peekMore (s : State) (totalSize : Nat) (mem : Option (Nat → UInt8)) (pal : PalAnswer) :
    State × Option Errno :=
  if s.sock.peek.dataSize < totalSize then
    match s.sock.peek.realloc totalSize mem with
    | none => (s, some .nomem)
    | some peek =>
      match palRecv s.unread (peek.bufSize - peek.dataSize) pal with
      | .error e =>
        ({ s with sock := { s.sock with peek } },
          -- with `EAGAIN` there is still the data of before
          if e = .again ∧ peek.dataSize ≠ 0 then none else some e)
      | .ok (chunk, unread) =>
        ({ s with sock := { s.sock with peek := peek.receive chunk }, unread }, none)
  else (s, none)

/-- Copy what is in the buffer to the application. -/
def copyPeeked (s : State) (r : Request) : State × Reply :=
  let iov := copyToIov s.sock.peek.data r.iovLens
  let size := iov.flatten.length
  let s := if r.flags.peek then s
    else { s with sock := { s.sock with peek := s.sock.peek.consume size } }
  (s, ⟨.ok size, iov, r.flags⟩)

/-- The part of `do_recvmsg` under `recv_lock`. -/
def recvLocked (s : State) (r : Request) (mem : Option (Nat → UInt8)) (pal : PalAnswer) :
    State × Reply :=
  let totalSize := r.iovLens.sum
  if r.flags.peek then
    if s.sock.type ≠ .stream then (s, r.fail .opnotsupp)
    else
      match peekMore s totalSize mem pal with
      | (s, some e) => (s, r.fail e)
      | (s, none) =>
        if s.sock.peek.dataSize = 0 then (s, ⟨.ok 0, [], r.flags⟩) else copyPeeked s r
  else if s.sock.peek.dataSize ≠ 0 then copyPeeked s r
  else
    match palRecv s.unread totalSize pal with
    | .error e => (s, r.fail e)
    | .ok (chunk, unread) =>
      let size := chunk.length
      ({ s with unread },
        ⟨.ok (if r.flags.trunc then size else min size totalSize), copyToIov chunk r.iovLens,
          ⟨false, totalSize < size, false⟩⟩)

/-- An interrupted call is restarted. -/
def restart (timeoutSet : Bool) : Except Errno Nat → Except Errno Nat
  | .error .intr => .error (if timeoutSet then .restartnohand else .restartsys)
  | ret => ret

/-- `do_recvmsg`; `mem` is what `malloc` returned, if it is called. -/
def doRecvmsg (s : State) (r : Request) (mem : Option (Nat → UInt8)) (pal : PalAnswer) :
    State × Reply :=
  if !r.isSock then (s, r.fail .notsock)
  else if r.flags.unsupported then (s, r.fail .opnotsupp)
  else if s.sock.connecting then (s, r.fail .again)
  else
    match s.sock.lastError with
    | some e => ({ s with sock := { s.sock with lastError := none } }, r.fail e)
    | none =>
      if r.iovLens.sum = 0 ∧ !r.emulateRecvErrorSemantics then (s, ⟨.ok 0, [], r.flags⟩)
      else
        let (s', reply) := recvLocked s r mem pal
        (s', { reply with ret := restart s.sock.receivetimeoutSet reply.ret })

/-! ## Runs -/

/-- A receive, or another call that leaves an error for the next receive. -/
inductive Op
  | recv (r : Request) (mem : Option (Nat → UInt8)) (pal : PalAnswer)
  | setLastError (e : Errno)

/-- A receive of the run, with the room in its iovecs. -/
structure Receive where
  peek : Bool
  room : Nat
  reply : Reply

/-- A request and what came back. -/
def Request.receive (r : Request) (reply : Reply) : Receive :=
  ⟨r.flags.peek, r.iovLens.sum, reply⟩

/-- One call. -/
def exec (s : State) : Op → State × Option Receive
  | .recv r mem pal =>
    let (s, reply) := doRecvmsg s r mem pal
    (s, some (r.receive reply))
  | .setLastError e => ({ s with sock := { s.sock with lastError := some e } }, none)

/-- A sequence of calls: the state at the end, and the receives. -/
def run (s : State) : List Op → State × List Receive
  | [] => (s, [])
  | op :: ops =>
    let (s, r) := exec s op
    let (s, rs) := run s ops
    (s, r.toList ++ rs)

/-- The bytes returned by the receives without `MSG_PEEK`. -/
def taken (rs : List Receive) : List UInt8 :=
  (rs.filter fun r => !r.peek).flatMap fun r => r.reply.bytes

/-- The room of a receive that takes bytes and does not fail. -/
def Receive.takes (r : Receive) : Nat :=
  if r.peek then 0
  else
    match r.reply.ret with
    | .ok _ => r.room
    | .error _ => 0

/-- The room that there was for bytes. -/
def room (rs : List Receive) : Nat := (rs.map Receive.takes).sum

/-- A connected stream socket, before the PAL gave away any byte of `stream`. -/
def connected (timeoutSet : Bool) (stream : List UInt8) : State :=
  ⟨⟨.stream, false, none, timeoutSet, .empty⟩, stream⟩

/-! ## One receive -/

/-- The bytes still to be received: those in the buffer, and those of the PAL. -/
def State.pending (s : State) : List UInt8 := s.sock.peek.data ++ s.unread

theorem flatten_copyToIov (data : List UInt8) (lens : List Nat) :
    (copyToIov data lens).flatten = data.take lens.sum := by
  induction lens generalizing data with
  | nil => simp [copyToIov]
  | cons len lens ih => rw [copyToIov, flatten_cons, ih, sum_cons, take_add]

theorem palRecv_ok {unread chunk unread' : List UInt8} {len : Nat} {pal : PalAnswer}
    (h : palRecv unread len pal = .ok (chunk, unread')) :
    unread = chunk ++ unread' ∧ chunk.length ≤ len := by
  cases pal with
  | error e => cases h
  | bytes k =>
    cases h
    refine ⟨(take_append_drop _ _).symm, ?_⟩
    rw [length_take]
    omega

theorem PeekBuf.realloc_data {p p' : PeekBuf} {size : Nat} {mem : Option (Nat → UInt8)}
    (h : p.realloc size mem = some p') : p'.data = p.data := by
  rw [PeekBuf.realloc] at h
  split at h
  · obtain ⟨m, -, rfl⟩ := Option.map_eq_some_iff.1 h
    rw [PeekBuf.data_grow]
  · rw [Option.some.inj h]

theorem peekMore_pending (s : State) (totalSize : Nat) (mem : Option (Nat → UInt8))
    (pal : PalAnswer) : (peekMore s totalSize mem pal).1.pending = s.pending := by
  rw [peekMore]
  split
  · split
    · rfl
    · rename_i peek hpeek
      have hdata := PeekBuf.realloc_data hpeek
      split
      · rw [State.pending, State.pending, hdata]
      · rename_i chunk unread hrecv
        rw [State.pending, State.pending, PeekBuf.data_receive, hdata, (palRecv_ok hrecv).1,
          append_assoc]
  · rfl

/-- More data behind that of before. -/
theorem peekMore_data (s : State) (totalSize : Nat) (mem : Option (Nat → UInt8))
    (pal : PalAnswer) : s.sock.peek.data <+: (peekMore s totalSize mem pal).1.sock.peek.data := by
  rw [peekMore]
  split
  · split
    · exact prefix_rfl
    · rename_i peek hpeek
      have hdata := PeekBuf.realloc_data hpeek
      split
      · rw [hdata]
      · rw [PeekBuf.data_receive, hdata]
        exact prefix_append _ _
  · exact prefix_rfl

/-- What a receive is to the bytes still to be received. -/
structure Transparent (s : State) (r : Receive) (s' : State) : Prop where
  peeked : r.peek = true → s'.pending = s.pending ∧ s.sock.peek.data <+: s'.sock.peek.data ∧
    r.reply.bytes <+: s'.sock.peek.data
  taken : r.peek = false → s.pending = r.reply.bytes ++ s'.pending ∧
    s'.sock.peek.data = s.sock.peek.data.drop r.reply.bytes.length
  -- what is in the buffer is handed out as far as there is room
  served : r.peek = false → ∀ n, r.reply.ret = .ok n →
    s.sock.peek.data.take r.room <+: r.reply.bytes
  size : ∀ n, r.reply.ret = .ok n → n = r.reply.bytes.length

variable {s s' : State}

/-- A receive that returns nothing and leaves all bytes where they are. -/
theorem Transparent.nothing {r : Receive} (hbytes : r.reply.bytes = [])
    (hpending : s'.pending = s.pending) (hdata : s.sock.peek.data <+: s'.sock.peek.data)
    (hsize : ∀ n, r.reply.ret = .ok n → n = 0)
    (hsame : r.peek = false → s'.sock.peek = s.sock.peek ∧ ∀ n, r.reply.ret = .ok n → r.room = 0) :
    Transparent s r s' := by
  refine ⟨fun _ => ⟨hpending, hdata, ?_⟩, fun hpeek => ?_, fun hpeek n hn => ?_, fun n hn => ?_⟩
  · rw [hbytes]
    exact nil_prefix
  · rw [hbytes, hpending, nil_append, (hsame hpeek).1]
    exact ⟨rfl, rfl⟩
  · rw [(hsame hpeek).2 n hn, take_zero]
    exact nil_prefix
  · rw [hbytes, hsize n hn, length_nil]

/-- A receive that fails and leaves the socket's buffer and the PAL alone. -/
theorem Transparent.fail (r : Request) (e : Errno) (hpeek : s'.sock.peek = s.sock.peek)
    (hunread : s'.unread = s.unread) : Transparent s (r.receive (r.fail e)) s' :=
  .nothing rfl (by rw [State.pending, State.pending, hpeek, hunread]) (by rw [hpeek])
    (fun _ hn => nomatch hn) fun _ => ⟨hpeek, fun _ hn => nomatch hn⟩

theorem take_append_drop_length {α : Type*} (l : List α) (n : Nat) :
    l.take n ++ l.drop (l.take n).length = l := by
  rw [length_take]
  rcases Nat.le_total n l.length with h | h
  · rw [Nat.min_eq_left h, take_append_drop]
  · rw [Nat.min_eq_right h, take_of_length_le h, drop_length, append_nil]

theorem copyPeeked_transparent (s : State) (r : Request) :
    Transparent s (r.receive (copyPeeked s r).2) (copyPeeked s r).1 := by
  have hbytes : (copyPeeked s r).2.bytes = s.sock.peek.data.take r.iovLens.sum :=
    flatten_copyToIov _ _
  refine ⟨fun hpeek => ?_, fun hpeek => ?_, fun _ n _ => ?_, fun n hn => ?_⟩
  · have hsame : (copyPeeked s r).1 = s := if_pos hpeek
    simp only [Request.receive, hsame, hbytes, true_and]
    exact ⟨prefix_rfl, take_prefix _ _⟩
  · have hconsume : (copyPeeked s r).1.sock.peek.data =
        s.sock.peek.data.drop (s.sock.peek.data.take r.iovLens.sum).length := by
      rw [copyPeeked]
      simp [show r.flags.peek = false from hpeek, flatten_copyToIov]
    have hunread : (copyPeeked s r).1.unread = s.unread := by
      rw [copyPeeked]
      simp [show r.flags.peek = false from hpeek]
    simp only [Request.receive, hbytes, State.pending, hconsume, hunread, and_true]
    rw [← append_assoc, take_append_drop_length]
  · simp only [Request.receive, hbytes]
    exact prefix_rfl
  · exact (Except.ok.inj hn).symm

theorem recvLocked_transparent (s : State) (r : Request) (mem : Option (Nat → UInt8))
    (pal : PalAnswer) :
    Transparent s (r.receive (recvLocked s r mem pal).2) (recvLocked s r mem pal).1 := by
  rw [recvLocked]
  by_cases hpeek : r.flags.peek = true
  · have hnot : ¬ (r.flags.peek = false) := by simp [hpeek]
    simp only [if_pos hpeek]
    split
    · exact .fail r _ rfl rfl
    have hmore := peekMore_pending s r.iovLens.sum mem pal
    have hdata := peekMore_data s r.iovLens.sum mem pal
    split
    · rename_i s' e heq
      rw [heq] at hmore hdata
      exact .nothing rfl hmore hdata (fun _ hn => nomatch hn) fun h => absurd h hnot
    rename_i s' heq
    rw [heq] at hmore hdata
    split
    · exact .nothing rfl hmore hdata (fun n hn => (Except.ok.inj hn).symm) fun h => absurd h hnot
    have hcopy := copyPeeked_transparent s' r
    refine ⟨fun _ => ?_, fun h => absurd h hnot, fun h => absurd h hnot, hcopy.size⟩
    obtain ⟨hpending, hdata', hbytes⟩ := hcopy.peeked hpeek
    exact ⟨hpending.trans hmore, hdata.trans hdata', hbytes⟩
  · rw [Bool.not_eq_true] at hpeek
    simp only [hpeek, Bool.false_eq_true, if_false]
    split
    · exact copyPeeked_transparent s r
    rename_i hempty
    have hdata : s.sock.peek.data = [] := by
      rw [← length_eq_zero_iff, PeekBuf.length_data]
      exact Decidable.not_not.1 hempty
    split
    · exact .fail r _ rfl rfl
    rename_i chunk unread hrecv
    obtain ⟨hunread, hlen⟩ := palRecv_ok hrecv
    have hbytes : (copyToIov chunk r.iovLens).flatten = chunk := by
      rw [flatten_copyToIov, take_of_length_le hlen]
    refine ⟨fun h => absurd (h.symm.trans hpeek) (by decide), fun _ => ?_, fun _ n hn => ?_,
      fun n hn => ?_⟩
    · simp [State.pending, Request.receive, Reply.bytes, hdata, hbytes, hunread]
    · simp [hdata]
    · have hn := Except.ok.inj hn
      simp only [Request.receive, Reply.bytes, hbytes]
      rw [← hn, Nat.min_eq_left hlen, ite_self]

/-- The return value is the only thing that changes when a call is restarted. -/
theorem restart_eq_ok {timeoutSet : Bool} {ret : Except Errno Nat} {n : Nat}
    (h : restart timeoutSet ret = .ok n) : ret = .ok n := by
  cases ret with
  | ok m => exact h
  | error e => cases e <;> exact nomatch h

theorem doRecvmsg_transparent (s : State) (r : Request) (mem : Option (Nat → UInt8))
    (pal : PalAnswer) :
    Transparent s (r.receive (doRecvmsg s r mem pal).2) (doRecvmsg s r mem pal).1 := by
  rw [doRecvmsg]
  split
  · exact .fail r _ rfl rfl
  split
  · exact .fail r _ rfl rfl
  split
  · exact .fail r _ rfl rfl
  split
  · exact .fail r _ rfl rfl
  split
  · rename_i hzero
    exact .nothing rfl rfl prefix_rfl (fun n hn => (Except.ok.inj hn).symm)
      fun _ => ⟨rfl, fun _ _ => hzero.1⟩
  have hrecv := recvLocked_transparent s r mem pal
  exact ⟨hrecv.peeked, hrecv.taken, fun hpeek n hn => hrecv.served hpeek n (restart_eq_ok hn),
    fun n hn => hrecv.size n (restart_eq_ok hn)⟩

/-! ## Sequences of receives -/

theorem exec_none {op : Op} (h : exec s op = (s', none)) :
    s'.pending = s.pending ∧ s'.sock.peek = s.sock.peek := by
  cases op with
  | recv r mem pal => cases h
  | setLastError e =>
    cases h
    exact ⟨rfl, rfl⟩

theorem exec_some {op : Op} {r : Receive} (h : exec s op = (s', some r)) :
    Transparent s r s' := by
  cases op with
  | recv req mem pal =>
    cases h
    exact doRecvmsg_transparent s req mem pal
  | setLastError e => cases h

theorem taken_append (rs rs' : List Receive) : taken (rs ++ rs') = taken rs ++ taken rs' := by
  rw [taken, filter_append, flatMap_append, taken, taken]

theorem pending_eq_taken {r : Receive} (h : Transparent s r s') :
    s.pending = taken [r] ++ s'.pending := by
  cases hpeek : r.peek with
  | true =>
    rw [(h.peeked hpeek).1, taken]
    simp [hpeek]
  | false =>
    rw [(h.taken hpeek).1, taken]
    simp [hpeek]

/-- The bytes taken by a run are the first of those that were to be received. -/
theorem run_pending (s : State) (ops : List Op) :
    s.pending = taken (run s ops).2 ++ (run s ops).1.pending := by
  induction ops generalizing s with
  | nil => rfl
  | cons op ops ih =>
    rw [run]
    cases hexec : exec s op with
    | mk s' r =>
      rw [taken_append, append_assoc, ← ih s']
      cases r with
      | none => exact (exec_none hexec).1.symm
      | some r => exact pending_eq_taken (exec_some hexec)

/-- If the first `k` bytes of `b` are in `c`, and the next ones of what is left in `d`, they are in
`c` and `d` together. -/
theorem take_add_prefix_append {b c d : List UInt8} {k m : Nat} (hbc : b <+: c ∨ c <+: b)
    (hc : b.take k <+: c) (hd : (b.drop c.length).take m <+: d) : b.take (k + m) <+: c ++ d := by
  rcases hbc with hbc | ⟨b', rfl⟩
  · exact (( take_prefix _ _).trans hbc).trans (prefix_append _ _)
  · have hk := hc.length_le
    rw [length_take, length_append] at hk
    rw [drop_left] at hd
    rcases Nat.lt_or_ge c.length k with hlt | hle
    · have hb' : b' = [] := length_eq_zero_iff.1 (by omega)
      rw [hb', append_nil]
      exact ( take_prefix _ _).trans (prefix_append _ _)
    · calc (c ++ b').take (k + m) <+: (c ++ b').take (c.length + m) :=
            take_prefix_take_left (by omega)
        _ = c ++ b'.take m := take_length_add_append m
        _ <+: c ++ d := (prefix_append_right_inj c).2 hd

/-- Bytes in the buffer are the first that are taken, as far as there is room. -/
theorem peeked_taken {b : List UInt8} (ops : List Op) (h : b <+: s.sock.peek.data) :
    b.take (room (run s ops).2) <+: taken (run s ops).2 := by
  induction ops generalizing s b with
  | nil => simp [run, room]
  | cons op ops ih =>
    rw [run]
    cases hexec : exec s op with
    | mk s' o =>
      cases o with
      | none => exact ih ((exec_none hexec).2 ▸ h)
      | some r =>
        have hr := exec_some hexec
        have hroom : room ([r] ++ (run s' ops).2) = r.takes + room (run s' ops).2 := by
          simp [room]
        simp only [Option.toList_some, hroom, taken_append]
        cases hpeek : r.peek with
        | true =>
          have htakes : r.takes = 0 := by simp [Receive.takes, hpeek]
          have hnone : taken [r] = [] := by simp [taken, hpeek]
          rw [htakes, hnone, Nat.zero_add, nil_append]
          exact ih (h.trans (hr.peeked hpeek).2.1)
        | false =>
          have hbytes : taken [r] = r.reply.bytes := by simp [taken, hpeek]
          obtain ⟨hpending, hrest⟩ := hr.taken hpeek
          rw [hbytes]
          refine take_add_prefix_append ?_ ?_ (ih ?_)
          · exact prefix_or_prefix_of_prefix (h.trans (prefix_append _ _))
              (hpending ▸ prefix_append _ _)
          · rw [Receive.takes, hpeek, if_neg (by decide)]
            split
            · rename_i n hret
              exact (h.take _).trans (hr.served hpeek n hret)
            · exact nil_prefix
          · rw [hrest]
            exact h.drop _

theorem run_split {ops : List Op} {pre post : List Receive} {r : Receive}
    (h : (run s ops).2 = pre ++ r :: post) :
    ∃ s1 s2 ops', s.pending = taken pre ++ s1.pending ∧ Transparent s1 r s2 ∧
      (run s2 ops').2 = post := by
  induction ops generalizing s pre with
  | nil =>
    exact absurd h.symm (append_ne_nil_of_right_ne_nil _ (cons_ne_nil _ _))
  | cons op ops ih =>
    rw [run] at h
    cases hexec : exec s op with
    | mk s' o =>
      rw [hexec] at h
      cases o with
      | none =>
        obtain ⟨s1, s2, ops', h1, h2⟩ := ih h
        exact ⟨s1, s2, ops', (exec_none hexec).1.symm.trans h1, h2⟩
      | some x =>
        cases pre with
        | nil =>
          obtain ⟨rfl, hpost⟩ := List.cons.inj h
          exact ⟨s, s', ops, rfl, exec_some hexec, hpost⟩
        | cons y pre =>
          obtain ⟨rfl, hrest⟩ := List.cons.inj h
          obtain ⟨s1, s2, ops', h1, h2⟩ := ih hrest
          refine ⟨s1, s2, ops', ?_, h2⟩
          rw [pending_eq_taken (exec_some hexec), h1, ← append_assoc, ← taken_append]
          rfl

/-- **`MSG_PEEK` is transparent**: whatever chunks the PAL delivers and whatever receives are made,
the bytes returned without `MSG_PEEK` are a prefix of the stream, and a peek returns a prefix of
what is unread at that moment. The receives without `MSG_PEEK` that follow and do not fail return
the peeked bytes first, as far as they have room. The return value is the number of bytes. -/
theorem peek_transparent (timeoutSet : Bool) (stream : List UInt8) (ops : List Op) :
    let rs := (run (connected timeoutSet stream) ops).2
    taken rs <+: stream ∧
    (∀ r ∈ rs, ∀ n, r.reply.ret = .ok n → n = r.reply.bytes.length) ∧
    ∀ pre r post, rs = pre ++ r :: post → r.peek = true →
      r.reply.bytes <+: stream.drop (taken pre).length ∧
      r.reply.bytes.take (room post) <+: taken post ∧
      (r.reply.bytes <+: taken post ∨ taken post <+: r.reply.bytes) := by
  have hstream : (connected timeoutSet stream).pending = stream := rfl
  refine ⟨?_, ?_, ?_⟩
  · have hrun := run_pending (connected timeoutSet stream) ops
    exact ⟨_, hrun.symm⟩
  · intro r hr n hn
    obtain ⟨pre, post, hsplit⟩ := append_of_mem hr
    obtain ⟨s1, s2, ops', -, hr, -⟩ := run_split hsplit
    exact hr.size n hn
  intro pre r post hsplit hpeek
  obtain ⟨s1, s2, ops', hpre, hr, hpost⟩ := run_split hsplit
  obtain ⟨hsame, -, hbytes⟩ := hr.peeked hpeek
  have hunread : r.reply.bytes <+: s1.pending := by
    rw [← hsame]
    exact hbytes.trans (prefix_append _ _)
  have hdrop : stream.drop (taken pre).length = s1.pending := by
    rw [← hstream, hpre, drop_left]
  have hnext : taken post <+: s1.pending := by
    have hrun := run_pending s2 ops'
    rw [hpost, hsame] at hrun
    exact ⟨_, hrun.symm⟩
  rw [hdrop]
  exact ⟨hunread, hpost ▸ peeked_taken ops' hbytes, prefix_or_prefix_of_prefix hunread hnext⟩

/-- **No byte is lost or returned twice**: at any time, what was taken, what is in the peek buffer
and what the PAL still has make up the stream. -/
theorem bytes_conserved (timeoutSet : Bool) (stream : List UInt8) (ops : List Op) :
    let out := run (connected timeoutSet stream) ops
    taken out.2 ++ (out.1.sock.peek.data ++ out.1.unread) = stream :=
  (run_pending (connected timeoutSet stream) ops).symm

end RecvMsg
