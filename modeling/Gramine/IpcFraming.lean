import Gramine.ByteStream

/-!
# Messages on an IPC connection

`receive_ipc_messages` of `libos_ipc_worker.c`: the worker reads ahead into a small buffer,
takes the header of a message from it, gets the rest of the message from the buffer or from the
stream, and hands it to the callback for its code; it goes on as long as something is left in
the buffer.
-/

open List

namespace IpcFraming

open ByteStream

/-- `sizeof(struct ipc_msg_header)`: `size`, `seq` and `code`, packed. -/
def headerSize : Nat := 17

/-- `sizeof(buf)`: a header and `READAHEAD_SIZE`. -/
def bufSize : Nat := headerSize + (0x40 + headerSize)

/-- `ARRAY_SIZE(ipc_callbacks)`: there is a callback for every code below
`IPC_MSG_CODE_BOUND`. -/
def ipcMsgCodeBound : Nat := 18

def enodata : Int := -61
def enomem : Int := -12

/-- A callback that was called: `ipc_callbacks[code](src, data, seq)`. -/
structure Call where
  code : Nat
  src : Nat
  data : List UInt8
  seq : Nat
  deriving DecidableEq, Repr

/-- The process around the connection: the other side, if `malloc` finds memory, and what the
last callback returns, after all those before it. -/
structure Env where
  vmid : Nat
  malloc : Nat → Bool
  callback : List Call → Int

/-- How a call of `receive_ipc_messages` ends: it returns 0, 1 or a negative error code, an
assertion fails, or the process exits. -/
inductive Ret
  | ok
  | closed
  | error (err : Int)
  | assertFailed
  | exit
  deriving DecidableEq, Repr

/-- The end of a call, the callbacks called up to then, and the stream behind it. -/
structure Outcome where
  ret : Ret
  calls : List Call
  src : Source UInt8

/-- `read_exact`: a read of 0 bytes is an error. -/
def readExact (src : Source UInt8) (size : Nat) : Except Int (List UInt8 × Source UInt8) :=
  match fill size size [] src with
  | .done buf src' => .ok (buf, src')
  | .eof _ => .error enodata
  | .fail err => .error err

/-- The callback for a message, if there is one; true if the process exits. -/
def dispatch (env : Env) (code seq : Nat) (data : List UInt8) (calls : List Call) :
    List Call × Bool :=
  if code < ipcMsgCodeBound then
    let calls := calls ++ [⟨code, env.vmid, data, seq⟩]
    (calls, env.callback calls < 0)
  else (calls, false)

/-- Reading does not lengthen the stream. -/
theorem readExact_length {src src' : Source UInt8} {size : Nat} {l : List UInt8}
    (h : readExact src size = .ok (l, src')) : src'.left.length ≤ src.left.length := by
  unfold readExact at h
  cases hfill : fill size size [] src with
  | done buf src1 =>
    rw [hfill] at h
    cases h
    have hlength := (fill_length hfill).1
    rw [length_nil] at hlength
    omega
  | eof buf | fail err =>
    rw [hfill] at h
    cases h

/-- The data of the message whose header is at the front of the buffer, and the buffer and
the stream behind it. -/
def takeData (buf : List UInt8) (src : Source UInt8) (msgSize : Nat) :
    Except Int (List UInt8 × List UInt8 × Source UInt8) :=
  if msgSize ≤ buf.length then
    .ok ((buf.drop headerSize).take (msgSize - headerSize), buf.drop msgSize, src)
  else
    match readExact src (msgSize - headerSize - (buf.length - headerSize)) with
    | .ok (l, src') => .ok (buf.drop headerSize ++ l, [], src')
    | .error err => .error err

/-- What is left gets shorter with the data of a message. -/
theorem takeData_length {buf buf' data : List UInt8} {src src' : Source UInt8} {msgSize : Nat}
    (hbuf : headerSize ≤ buf.length) (hsize : headerSize ≤ msgSize)
    (h : takeData buf src msgSize = .ok (data, buf', src')) :
    buf'.length + src'.left.length < buf.length + src.left.length := by
  have hheader : 0 < headerSize := by decide
  unfold takeData at h
  split_ifs at h with hle
  · cases h
    rw [length_drop]
    omega
  cases hread : readExact src (msgSize - headerSize - (buf.length - headerSize)) with
  | error err =>
    rw [hread] at h
    cases h
  | ok r =>
    rw [hread] at h
    cases h
    have := readExact_length hread
    rw [length_nil]
    omega

/-- How a round of the loop in `receive_ipc_messages` ends: with the end of the call, or with
something left in the buffer. -/
inductive Next
  | stop (out : Outcome)
  | again (buf : List UInt8) (src : Source UInt8) (calls : List Call)

/-- One message. -/
def receiveMessage (env : Env) (buf : List UInt8) (src : Source UInt8) (calls : List Call) : Next :=
  match fill headerSize bufSize buf src with
  | .fail err => .stop ⟨.error err, calls, src⟩
  | .eof buf => .stop ⟨if buf = [] then .closed else .error enodata, calls, src⟩
  | .done buf src =>
    let msgSize := ofBytes (buf.take 8)
    let seq := ofBytes ((buf.drop 8).take 8)
    let code := ofBytes ((buf.drop 16).take 1)
    if msgSize < headerSize then .stop ⟨.assertFailed, calls, src⟩
    else if env.malloc (msgSize - headerSize) then
      match takeData buf src msgSize with
      | .error err => .stop ⟨.error err, calls, src⟩
      | .ok (data, rest, src) =>
        match dispatch env code seq data calls with
        | (calls, true) => .stop ⟨.exit, calls, src⟩
        | (calls, false) =>
          if rest = [] then .stop ⟨.ok, calls, src⟩ else .again rest src calls
    else .stop ⟨.error enomem, calls, src⟩

/-- Each message consumes at least its header, which bounds the loop. -/
theorem receiveMessage_length (env : Env) (buf : List UInt8) (src : Source UInt8)
    (calls : List Call) :
    match receiveMessage env buf src calls with
    | .again buf' src' _ => buf'.length + src'.left.length < buf.length + src.left.length
    | .stop out => out.ret = .ok → out.src.left.length < buf.length + src.left.length := by
  unfold receiveMessage
  cases hfill : fill headerSize bufSize buf src with
  | fail err => simp
  | eof buf' =>
    dsimp only
    split_ifs <;> simp
  | done buf' src' =>
    obtain ⟨_, hheader⟩ := fill_length hfill
    dsimp only
    split_ifs with hsize hmalloc
    · simp
    · cases hdata : takeData buf' src' (ofBytes (buf'.take 8)) with
      | error err => simp
      | ok r =>
        obtain ⟨data, _, src''⟩ := r
        have hless := takeData_length hheader (not_lt.1 hsize) hdata
        rcases hcalls : dispatch env (ofBytes ((buf'.drop 16).take 1))
          (ofBytes ((buf'.drop 8).take 8)) data calls with ⟨_, _ | _⟩
        · simp only [hcalls]
          split_ifs with hrest
          · subst hrest
            intro
            show src''.left.length < _
            omega
          · omega
        · simp [hcalls]
    · simp

/-- `receive_ipc_messages` with something in its buffer. -/
def receiveLoop (env : Env) (buf : List UInt8) (src : Source UInt8) (calls : List Call) : Outcome :=
  match _h : receiveMessage env buf src calls with
  | .stop out => out
  | .again buf' src' calls' => receiveLoop env buf' src' calls'
  termination_by buf.length + src.left.length
  decreasing_by
    have hless := receiveMessage_length env buf src calls
    rwa [_h] at hless

/-- `receive_ipc_messages`. -/
def receiveIpcMessages (env : Env) (src : Source UInt8) (calls : List Call) : Outcome :=
  receiveLoop env [] src calls

theorem receiveLoop_length {env : Env} {buf : List UInt8} {src : Source UInt8}
    {calls : List Call} (h : (receiveLoop env buf src calls).ret = .ok) :
    (receiveLoop env buf src calls).src.left.length < buf.length + src.left.length := by
  fun_induction receiveLoop env buf src calls with
  | case1 buf src calls out hnext =>
    have hless := receiveMessage_length env buf src calls
    rw [hnext] at hless
    exact hless h
  | case2 buf src calls buf' src' calls' hnext ih =>
    have hless := receiveMessage_length env buf src calls
    rw [hnext] at hless
    exact lt_trans (ih h) hless

/-- The calls of `receive_ipc_messages` over the life of a connection: `ipc_worker_main` calls
it again as long as it returns 0. -/
def serve (env : Env) (src : Source UInt8) (calls : List Call) : Outcome :=
  let out := receiveIpcMessages env src calls
  if _hret : out.ret = .ok then serve env out.src out.calls else out
  termination_by src.left.length
  decreasing_by
    have := receiveLoop_length _hret
    rwa [length_nil, zero_add] at this

/-! ## Messages -/

/-- A message as it is sent: the size in its header is its length. -/
structure Msg where
  code : UInt8
  seq : UInt64
  data : List UInt8
  fits : headerSize + data.length < 2 ^ 64

def Msg.size (m : Msg) : Nat := headerSize + m.data.length

def Msg.bytes (m : Msg) : List UInt8 :=
  toBytes 8 m.size ++ (toBytes 8 m.seq.toNat ++ (toBytes 1 m.code.toNat ++ m.data))

/-- The callbacks for some messages, up to the first that fails; true if one does. -/
def deliver (env : Env) : List Msg → List Call → List Call × Bool
  | [], calls => (calls, false)
  | m :: ms, calls =>
    match dispatch env m.code.toNat m.seq.toNat m.data calls with
    | (calls, true) => (calls, true)
    | (calls, false) => deliver env ms calls

@[simp] theorem Msg.length_bytes (m : Msg) : m.bytes.length = m.size := by
  simp only [Msg.bytes, Msg.size, headerSize, length_append, length_toBytes]
  omega

section Front
variable {m : Msg} {buf rest : List UInt8} {src : Source UInt8}

/-- A slice of the buffer is a slice of the stream, as far as the buffer reaches. -/
theorem slice_of_append {l r : List UInt8} {i n : Nat} (hn : i + n ≤ buf.length)
    (h : buf ++ l = r) : (buf.drop i).take n = (r.drop i).take n := by
  rw [← h, drop_append_of_le_length (by omega),
    take_append_of_le_length (by rw [length_drop]; omega)]

variable {l : List UInt8} (hbuf : headerSize ≤ buf.length) (h : buf ++ l = m.bytes ++ rest)
include hbuf h

/-- The three header fields are those of the message that the stream begins with. -/
theorem header_size : ofBytes (buf.take 8) = m.size := by
  have hslice := slice_of_append (i := 0) (n := 8) (le_trans (by decide) hbuf) h
  rw [drop_zero, drop_zero] at hslice
  rw [hslice, Msg.bytes, append_assoc, take_left' (length_toBytes 8 _)]
  exact ofBytes_toBytes (Nat.lt_of_lt_of_eq m.fits (by decide))

theorem header_seq : ofBytes ((buf.drop 8).take 8) = m.seq.toNat := by
  rw [slice_of_append (le_trans (by decide) hbuf) h, Msg.bytes, append_assoc,
    drop_left' (length_toBytes 8 _), append_assoc, take_left' (length_toBytes 8 _)]
  exact ofBytes_toBytes (Nat.lt_of_lt_of_eq m.seq.toNat_lt (by decide))

theorem header_code : ofBytes ((buf.drop 16).take 1) = m.code.toNat := by
  have hseq : (toBytes 8 m.size ++ toBytes 8 m.seq.toNat).length = 16 := by simp
  rw [slice_of_append (le_trans (by decide) hbuf) h, Msg.bytes, ← append_assoc,
    append_assoc, drop_left' hseq, append_assoc,
    take_left' (length_toBytes 1 _)]
  exact ofBytes_toBytes (Nat.lt_of_lt_of_eq m.code.toNat_lt (by decide))

omit hbuf h in
theorem drop_header : (m.bytes ++ rest).drop headerSize = m.data ++ rest := by
  have hlen : (toBytes 8 m.size ++ (toBytes 8 m.seq.toNat ++ toBytes 1 m.code.toNat)).length =
      headerSize := by simp [headerSize]
  rw [show m.bytes = (toBytes 8 m.size ++ (toBytes 8 m.seq.toNat ++ toBytes 1 m.code.toNat)) ++
    m.data by simp [Msg.bytes], append_assoc, drop_left' hlen]

end Front

section Loop
variable {env : Env} {m : Msg} {buf buf' rest : List UInt8} {src src' : Source UInt8}
  {calls : List Call}

/-- Enough bytes are left: they are read, however the reads are cut. -/
theorem readExact_done {size : Nat} (hsrc : src.Sound) (hsize : size ≤ src.left.length) :
    ∃ l src', readExact src size = .ok (l, src') ∧ l ++ src'.left = src.left ∧ l.length = size ∧
      src'.Sound := by
  have hnil : ([] : List UInt8).length ≤ size := Nat.zero_le size
  obtain ⟨l, src', hfill, hsame, hge, hle, hsound⟩ :=
    fill_done (Nat.le_refl size) hnil hsrc (by simpa using hsize)
  exact ⟨l, src', by rw [readExact, hfill], hsame, le_antisymm hle hge, hsound⟩

/-- Too few bytes are left: the end of the stream is reported. -/
theorem readExact_eof {size : Nat} (hsrc : src.Sound) (hsize : src.left.length < size) :
    readExact src size = .error enodata := by
  have hnil : ([] : List UInt8).length ≤ size := Nat.zero_le size
  rw [readExact, fill_eof (Nat.le_refl size) hnil hsrc (by simpa using hsize)]

/-- The data of a message comes from the buffer first and then from the stream. -/
theorem takeData_done (hbuf : headerSize ≤ buf.length) (h : buf ++ src.left = m.bytes ++ rest)
    (hsrc : src.Sound) :
    ∃ buf' src', takeData buf src m.size = .ok (m.data, buf', src') ∧ buf' ++ src'.left = rest ∧
      buf'.length ≤ buf.length ∧ src'.Sound := by
  have hlength := congrArg List.length h
  rw [length_append, length_append, m.length_bytes] at hlength
  have hsize : m.size - headerSize = m.data.length := Nat.add_sub_cancel_left _ _
  unfold takeData
  split_ifs with hle
  · refine ⟨buf.drop m.size, src, ?_, ?_, by simp, hsrc⟩
    · rw [slice_of_append (by rw [hsize]; exact hle) h, drop_header, hsize, take_left]
    · have hdrop := congrArg (List.drop m.size) h
      rwa [drop_append_of_le_length hle, drop_left' m.length_bytes] at hdrop
  have hleft : m.size - headerSize - (buf.length - headerSize) ≤ src.left.length := by omega
  obtain ⟨l, src', hread, hsame, _, hsound⟩ := readExact_done hsrc hleft
  have hwhole : (buf ++ l) ++ src'.left = m.bytes ++ rest := by
    rw [append_assoc, hsame, h]
  obtain ⟨hmsg, hrest⟩ := append_inj hwhole (by
    rw [length_append, m.length_bytes]
    omega)
  refine ⟨[], src', ?_, hrest, by simp, hsound⟩
  rw [hread]
  have hdrop : buf.drop headerSize ++ l = m.data := by
    rw [← drop_append_of_le_length hbuf, hmsg]
    have hheader : (m.bytes ++ []).drop headerSize = m.data ++ [] := drop_header
    rwa [append_nil, append_nil] at hheader
  rw [← hdrop]

theorem takeData_eof (hbuf : headerSize ≤ buf.length) (hsrc : src.Sound)
    (hless : buf.length + src.left.length < m.size) :
    takeData buf src m.size = .error enodata := by
  rw [takeData, if_neg (by omega), readExact_eof hsrc (by omega)]

/-- A complete message is delivered, and the stream continues behind it. -/
theorem receiveMessage_done (calls : List Call) (hmalloc : ∀ n, env.malloc n = true)
    (hbuf : buf.length ≤ bufSize) (h : buf ++ src.left = m.bytes ++ rest) (hsrc : src.Sound) :
    ∃ buf' src', buf' ++ src'.left = rest ∧ buf'.length ≤ bufSize ∧ src'.Sound ∧
      receiveMessage env buf src calls =
        match dispatch env m.code.toNat m.seq.toNat m.data calls with
        | (calls, true) => .stop ⟨.exit, calls, src'⟩
        | (calls, false) =>
          if buf' = [] then .stop ⟨.ok, calls, src'⟩ else .again buf' src' calls := by
  have hlength := congrArg List.length h
  rw [length_append, length_append, m.length_bytes] at hlength
  have hsize : ¬ m.size < headerSize := not_lt.2 (Nat.le_add_right _ _)
  obtain ⟨_, _, hfill, hsame, hheader, hcap, hsrc1⟩ :=
    fill_done (show headerSize ≤ bufSize by decide) hbuf hsrc (by omega)
  rw [h] at hsame
  obtain ⟨buf', src', hdata, hrest, hle, hsound⟩ := takeData_done hheader hsame hsrc1
  refine ⟨buf', src', hrest, le_trans hle hcap, hsound, ?_⟩
  simp [receiveMessage, hfill, header_size hheader hsame, header_seq hheader hsame,
    header_code hheader hsame, hmalloc, if_neg hsize, hdata]

/-- At the end of the stream, between messages, the connection is closed. -/
theorem receiveMessage_closed (hsrc : src.Sound) (h : src.left = []) :
    receiveMessage env [] src calls = .stop ⟨.closed, calls, src⟩ := by
  rw [receiveMessage, fill_eof (by decide) (Nat.zero_le _) hsrc (by rw [h]; decide), h]
  rfl

/-- A message that is cut off is not delivered. -/
theorem receiveMessage_eof (calls : List Call) {missing : List UInt8}
    (hmalloc : ∀ n, env.malloc n = true) (hbuf : buf.length ≤ bufSize)
    (h : (buf ++ src.left) ++ missing = m.bytes) (hne : buf ++ src.left ≠ [])
    (hmissing : missing ≠ []) (hsrc : src.Sound) :
    ∃ src', receiveMessage env buf src calls = .stop ⟨.error enodata, calls, src'⟩ := by
  have hlength := congrArg List.length h
  have hpos := length_pos_of_ne_nil hmissing
  rw [length_append, length_append, m.length_bytes] at hlength
  by_cases hheader : headerSize ≤ buf.length + src.left.length
  · have hsize : ¬ m.size < headerSize := not_lt.2 (Nat.le_add_right _ _)
    obtain ⟨buf1, src1, hfill, hsame, hheader1, -, hsrc1⟩ :=
      fill_done (show headerSize ≤ bufSize by decide) hbuf hsrc hheader
    have hlength1 := congrArg List.length hsame
    rw [length_append, length_append] at hlength1
    have hmsg : buf1 ++ (src1.left ++ missing) = m.bytes ++ [] := by
      rw [← append_assoc, hsame, h, append_nil]
    refine ⟨src1, ?_⟩
    simp [receiveMessage, hfill, header_size hheader1 hmsg, hmalloc, if_neg hsize, takeData_eof
      hheader1 hsrc1 (show buf1.length + src1.left.length < m.size by omega)]
  · refine ⟨src, ?_⟩
    rw [receiveMessage, fill_eof (by decide) hbuf hsrc (not_le.1 hheader)]
    simp only [if_neg hne]

end Loop

/-! ## The life of a connection -/

section Serve
variable {env : Env} {buf tail : List UInt8} {src : Source UInt8} {calls : List Call}

/-- The rest of a life: a call with something in its buffer, and those after it. -/
def serveFrom (env : Env) (buf : List UInt8) (src : Source UInt8) (calls : List Call) : Outcome :=
  let out := receiveLoop env buf src calls
  if out.ret = .ok then serve env out.src out.calls else out

theorem serve_eq : serve env src calls = serveFrom env [] src calls := by
  rw [serve]
  rfl

/-- After a message the loop goes on with what is left. -/
theorem serveFrom_again {buf' : List UInt8} {src' : Source UInt8} {calls' : List Call}
    (h : receiveMessage env buf src calls = .again buf' src' calls') :
    serveFrom env buf src calls = serveFrom env buf' src' calls' := by
  have hloop : receiveLoop env buf src calls = receiveLoop env buf' src' calls' := by
    rw [receiveLoop]
    split
    · rename_i heq
      cases h.symm.trans heq
    · rename_i heq
      cases h.symm.trans heq
      rfl
  rw [serveFrom, hloop, ← serveFrom]

theorem serveFrom_stop {out : Outcome} (h : receiveMessage env buf src calls = .stop out) :
    serveFrom env buf src calls = if out.ret = .ok then serveFrom env [] out.src out.calls
      else out := by
  have hloop : receiveLoop env buf src calls = out := by
    rw [receiveLoop]
    split
    · rename_i heq
      cases h.symm.trans heq
      rfl
    · rename_i heq
      cases h.symm.trans heq
  rw [serveFrom, hloop]
  simp [serve_eq]

/-- The stream ends with a message, or within one. -/
def Tail (tail : List UInt8) : Prop :=
  tail = [] ∨ ∃ (m : Msg) (missing : List UInt8), tail ++ missing = m.bytes ∧ missing ≠ []

/-- **The rest of a life**: whatever is in the buffer and however the stream is cut, the
messages are delivered one after the other. -/
theorem serveFrom_messages (hmalloc : ∀ n, env.malloc n = true) (htail : Tail tail)
    (msgs : List Msg) (hbuf : buf.length ≤ bufSize) (hsrc : src.Sound)
    (h : buf ++ src.left = msgs.flatMap Msg.bytes ++ tail) :
    (serveFrom env buf src calls).calls = (deliver env msgs calls).1 ∧
    (serveFrom env buf src calls).ret =
      if (deliver env msgs calls).2 then .exit
      else if tail = [] then .closed else .error enodata := by
  induction msgs generalizing buf src calls with
  | nil =>
    rw [flatMap_nil, nil_append] at h
    by_cases hnil : tail = []
    · subst hnil
      obtain ⟨rfl, hleft⟩ := append_eq_nil_iff.1 h
      rw [serveFrom_stop (receiveMessage_closed hsrc hleft)]
      exact ⟨rfl, rfl⟩
    obtain ⟨m, missing, hmsg, hmissing⟩ := htail.resolve_left hnil
    obtain ⟨src', hstop⟩ := receiveMessage_eof calls hmalloc hbuf (by rw [h, hmsg])
      (by rwa [h]) hmissing hsrc
    rw [serveFrom_stop hstop]
    simp [deliver, hnil]
  | cons m msgs ih =>
    rw [flatMap_cons, append_assoc] at h
    obtain ⟨buf', src', hrest, hbuf', hsrc', hnext⟩ :=
      receiveMessage_done calls hmalloc hbuf h hsrc
    rcases hcalls : dispatch env m.code.toNat m.seq.toNat m.data calls with ⟨calls', _ | _⟩
    · simp only [deliver, hcalls] at hnext ⊢
      split_ifs at hnext with hempty
      · -- the call returns 0, and the next one starts with an empty buffer
        subst hempty
        rw [serveFrom_stop hnext]
        exact ih hbuf' hsrc' hrest
      · rw [serveFrom_again hnext]
        exact ih hbuf' hsrc' hrest
    · simp only [deliver, hcalls] at hnext ⊢
      rw [serveFrom_stop hnext]
      exact ⟨rfl, rfl⟩

/-- All complete messages are delivered in order, whatever follows them. -/
theorem serve_messages (env : Env) (hmalloc : ∀ n, env.malloc n = true) (msgs : List Msg)
    (htail : Tail tail) (script : List Read) (hscript : ∀ err, .fail err ∉ script) :
    (serve env ⟨msgs.flatMap Msg.bytes ++ tail, script⟩ []).calls = (deliver env msgs []).1 ∧
    (serve env ⟨msgs.flatMap Msg.bytes ++ tail, script⟩ []).ret =
      if (deliver env msgs []).2 then .exit
      else if tail = [] then .closed else .error enodata := by
  rw [serve_eq]
  exact serveFrom_messages hmalloc htail msgs (Nat.zero_le _) hscript rfl

/-- The callbacks for some messages: there is none for an unknown code. -/
def expected (env : Env) (msgs : List Msg) : List Call :=
  (msgs.filter fun m => m.code.toNat < ipcMsgCodeBound).map fun m =>
    ⟨m.code.toNat, env.vmid, m.data, m.seq.toNat⟩

/-- What is delivered is what is expected, up to a callback that fails. -/
theorem deliver_expected (env : Env) (msgs : List Msg) (calls : List Call) :
    ∃ l, (deliver env msgs calls).1 = calls ++ l ∧ l <+: expected env msgs ∧
      ((deliver env msgs calls).2 = false → l = expected env msgs) ∧
      ((deliver env msgs calls).2 = true → l ≠ [] ∧ env.callback (calls ++ l) < 0) ∧
      ∀ l', l' ≠ [] → l' <+: l → env.callback (calls ++ l') < 0 →
        l' = l ∧ (deliver env msgs calls).2 = true := by
  induction msgs generalizing calls with
  | nil =>
    refine ⟨[], by simp [deliver], nil_prefix, fun _ => rfl, by simp [deliver], ?_⟩
    intro l' hne hpre
    exact absurd (prefix_nil.1 hpre) hne
  | cons m msgs ih =>
    by_cases hcode : m.code.toNat < ipcMsgCodeBound
    · set c : Call := ⟨m.code.toNat, env.vmid, m.data, m.seq.toNat⟩ with hc
      have hexp : expected env (m :: msgs) = c :: expected env msgs := by
        simp [expected, hcode, hc]
      by_cases hfail : env.callback (calls ++ [c]) < 0
      · have hdeliver : deliver env (m :: msgs) calls = (calls ++ [c], true) := by
          simp [deliver, dispatch, hcode, hfail, ← hc]
        rw [hdeliver, hexp]
        refine ⟨[c], rfl, by simp, by simp, fun _ => ⟨by simp, hfail⟩, fun l' hne hpre _ => ?_⟩
        refine ⟨hpre.eq_of_length_le ?_, rfl⟩
        exact length_pos_of_ne_nil hne
      · have hdeliver : deliver env (m :: msgs) calls = deliver env msgs (calls ++ [c]) := by
          simp [deliver, dispatch, hcode, hfail, ← hc]
        obtain ⟨l, hl, hpre, hall, hexit, hfirst⟩ := ih (calls ++ [c])
        rw [append_assoc] at hl hexit
        rw [hdeliver, hexp]
        refine ⟨c :: l, hl, (prefix_cons_inj c).2 hpre, fun h => by rw [hall h],
          fun h => ⟨by simp, (hexit h).2⟩, fun l' hne hpre' hneg => ?_⟩
        cases l' with
        | nil => exact absurd rfl hne
        | cons c' l' =>
          obtain ⟨rfl, htail⟩ := cons_prefix_cons.1 hpre'
          cases l' with
          | nil => exact absurd hneg hfail
          | cons d l' =>
            obtain ⟨heq, hexit'⟩ := hfirst (d :: l') (by simp) htail (by simpa using hneg)
            exact ⟨by rw [heq], hexit'⟩
    · have hdeliver : deliver env (m :: msgs) calls = deliver env msgs calls := by
        simp [deliver, dispatch, hcode]
      have hexp : expected env (m :: msgs) = expected env msgs := by simp [expected, hcode]
      rw [hdeliver, hexp]
      exact ih calls

/-- **Framing**: for every sequence of messages and every way the stream is cut, the calls of
`receive_ipc_messages` over the life of the connection call the callbacks with exactly the
messages that have one, once and in order, and report the end of the stream as closed or, within
a message, as an error; unless a callback fails, which ends the process. -/
theorem receive_exact (env : Env) (hmalloc : ∀ n, env.malloc n = true) (msgs : List Msg)
    (htail : Tail tail) (script : List Read) (hscript : ∀ err, .fail err ∉ script) :
    let out := serve env ⟨msgs.flatMap Msg.bytes ++ tail, script⟩ []
    (out.calls = expected env msgs ∧ out.ret = if tail = [] then .closed else .error enodata) ∨
    (out.calls <+: expected env msgs ∧ out.calls ≠ [] ∧ env.callback out.calls < 0 ∧
      (∀ l, l ≠ [] → l <+: out.calls → env.callback l < 0 → l = out.calls) ∧
      out.ret = .exit) := by
  intro out
  obtain ⟨hcalls, hret⟩ : out.calls = _ ∧ out.ret = _ := serve_messages env hmalloc msgs htail
    script hscript
  obtain ⟨l, hl, hpre, hall, hexit, hfirst⟩ := deliver_expected env msgs []
  have hout : out.calls = l := hcalls.trans hl
  cases hfail : (deliver env msgs []).2 with
  | false =>
    rw [hfail] at hret
    exact .inl ⟨hout.trans (hall hfail), hret⟩
  | true =>
    rw [hfail] at hret
    obtain ⟨hne, hneg⟩ := hexit hfail
    rw [hout]
    exact .inr ⟨hpre, hne, hneg, fun l' hne' h hneg' => (hfirst l' hne' h hneg').1, hret⟩

/-- Two messages in pieces of one byte and more, with a read that has to be repeated, and a byte
of a third. -/
theorem receive_exact_pieces : let env : Env := ⟨7, fun _ => true, fun _ => 0⟩
    let m : Msg := ⟨2, 1, [5, 6], by decide⟩
    let m' : Msg := ⟨0, 9, [], by decide⟩
    let out := serve env ⟨[m, m'].flatMap Msg.bytes ++ [17], [.more 0, .retry, .more 20]⟩ []
    out.calls = [⟨2, 7, [5, 6], 1⟩, ⟨0, 7, [], 9⟩] ∧ out.ret = .error enodata := by
  intro env m m' out
  have htail : Tail [17] := .inr ⟨m', m'.bytes.drop 1, by decide, by decide⟩
  rcases receive_exact env (fun _ => rfl) [m, m'] htail [.more 0, .retry, .more 20]
    (by simp) with ⟨hcalls, hret⟩ | ⟨-, -, hneg, -⟩
  · exact ⟨hcalls, hret⟩
  · exact absurd hneg (Int.lt_irrefl 0)

/-- A message with an unknown code is for no callback. -/
theorem receive_unknown_code : let env : Env := ⟨7, fun _ => true, fun _ => 0⟩
    let m : Msg := ⟨18, 0, [], by decide⟩
    (serve env ⟨[m].flatMap Msg.bytes, []⟩ []).calls = [] := by
  intro env m
  have h := (serve_messages env (fun _ => rfl) [m] (.inl rfl) [] (by simp)).1
  rwa [append_nil] at h

end Serve

end IpcFraming
