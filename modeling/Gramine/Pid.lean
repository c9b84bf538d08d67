import Gramine.RangeTree
import Gramine.Transition

/-!
# Process and thread IDs

`libos_ipc_pid.c` and `libos_pid.c`: the IPC leader gives ranges of IDs to processes and
keeps a tree of all of them with their owners; a process takes IDs from its last range one
after the other, and keeps its other ranges in a tree with the number of IDs in use. An ID
for a new process is cut out of the range of its parent.

The trees are the lists of their nodes in order (`RangeTree`). A process in `get_new_id`
holds `g_ranges_lock` while it waits for the leader; a release is a message without a
response. An operation ends in a `Bug` where the code has a `BUG()` or a failing assertion.
-/

namespace Pid

open RangeTree

def maxRangeSize : Nat := 0x20

/-- `PID_MAX`. -/
def pidMax : Nat := 4194304 - 1

/-- Why a process stops. -/
inductive Bug
  /-- There are no more IDs. -/
  | pidMax
  | unknownId
  /-- A range is released that is not there. -/
  | invalidRange
  | assertion
  deriving DecidableEq, Repr

/-! ## The leader -/

/-- `g_id_owners_tree`, with the owners, and `g_last_id`. -/
structure Leader where
  tree : List (Range Nat)
  lastId : Nat
  deriving DecidableEq, Repr

/-- The end of a new range. -/
def rangeEnd (start : Nat) : Nat := min (start + maxRangeSize - 1) pidMax

/-- The loop of `_find_free_id_range` over the ranges from `next_id` on. -/
def scanRanges : List (Range Nat) → Nat → Except Bug (Option (Nat × Nat))
  | [], nextId => .ok (some (nextId, rangeEnd nextId))
  | range :: l, nextId =>
    if nextId < range.start then
      .ok (some (nextId, min (rangeEnd nextId) (range.start - 1)))
    else if ¬ nextId ≤ range.last then .error .assertion
    else if range.last = pidMax then .ok none
    else scanRanges l (range.last + 1)

/-- `_find_free_id_range`. -/
def findFreeIdRange (leader : Leader) : Except Bug (Option (Nat × Nat)) :=
  if pidMax < leader.lastId + 1 then .error .pidMax
  else
    scanRanges (leader.tree.dropWhile fun r => !decide (leader.lastId + 1 ≤ r.last))
      (leader.lastId + 1)

/-- `alloc_id_range`, with memory for the range. -/
def allocIdRange (leader : Leader) (owner : Nat) : Except Bug (Leader × (Nat × Nat)) :=
  if owner = 0 then .error .assertion
  else
    match findFreeIdRange leader with
    | .error bug => .error bug
    | .ok none => .error .pidMax
    | .ok (some (start, last)) =>
      if start = 0 ∨ last = 0 ∨ ¬ leader.lastId < last then .error .assertion
      else .ok (⟨insertRange ⟨start, last, owner⟩ leader.tree, last⟩, (start, last))

/-- `change_id_owner`, with memory for the ranges. -/
def changeIdOwner (tree : List (Range Nat)) (id newOwner : Nat) : Except Bug (List (Range Nat)) :=
  match lowerBound id tree with
  | none => .error .unknownId
  | some range =>
    if id < range.start ∨ range.last < id then .error .unknownId
    else if range.start = range.last then
      if id = range.start then .ok (put range { range with tag := newOwner } tree)
      else .error .assertion
    else if range.start = id then
      .ok (insertRange ⟨id, id, newOwner⟩ (put range { range with start := range.start + 1 } tree))
    else if range.last = id then
      .ok (insertRange ⟨id, id, newOwner⟩ (put range { range with last := range.last - 1 } tree))
    else if ¬ 3 ≤ range.last - range.start + 1 then .error .assertion
    else
      .ok (insertRange ⟨id + 1, range.last, range.tag⟩
        (insertRange ⟨id, id, newOwner⟩ (put range { range with last := id - 1 } tree)))

/-- `release_id_range`. -/
def releaseIdRange (tree : List (Range Nat)) (start last : Nat) : Except Bug (List (Range Nat)) :=
  match findOverlap start last tree with
  | none => .error .invalidRange
  | some range =>
    if range.start ≠ start ∨ range.last ≠ last then .error .invalidRange
    else .ok (tree.erase range)

/-- `find_id_owner`: 0 if there is none. -/
def findIdOwner (tree : List (Range Nat)) (id : Nat) : Nat :=
  match lowerBound id tree with
  | none => 0
  | some range => if id < range.start ∨ range.last < id then 0 else range.tag

/-! ## A process -/

/-- Where a thread in `get_new_id` is. -/
inductive Pc
  | idle
  /-- It has asked for a range. -/
  | allocating (dest : Nat)
  /-- The leader has answered. -/
  | allocated (dest : Nat) (resp : Option (Nat × Nat))
  /-- It has asked for a new owner of an ID. -/
  | changing (id dest : Nat)
  /-- The leader has answered. -/
  | changed (id dest : Nat)
  deriving DecidableEq, Repr

/-- `g_used_ranges_tree` and `g_last_range`, with their `taken_count`, and `g_last_used_id`. -/
structure Proc where
  initialized : Bool
  used : List (Range Nat)
  lastRange : Option (Range Nat)
  lastUsedId : Nat
  pc : Pc
  deriving DecidableEq, Repr

/-- `get_new_id` with a range: the ID, or none without memory. With a new owner, `taken_count`
is raised and lowered again. -/
def takeId (proc : Proc) (range : Range Nat) (dest : Nat) (memory : Bool) :
    Except Bug (Proc × Option Nat) :=
  let id := proc.lastUsedId + 1
  if ¬ proc.lastUsedId < range.last then .error .assertion
  else if ¬ range.tag < range.last - range.start + 1 then .error .assertion
  else if dest = 0 then
    let range := { range with tag := range.tag + 1 }
    if id = range.last then
      .ok ({ proc with
        lastUsedId := id
        lastRange := none
        used := insertRange range proc.used }, some id)
    else .ok ({ proc with lastUsedId := id, lastRange := some range }, some id)
  else if range.start = range.last then
    if range.tag = 0 then .ok ({ proc with lastUsedId := id, lastRange := none }, some id)
    else .error .assertion
  else if range.start = id then
    if range.tag = 0 then
      .ok ({ proc with
        lastUsedId := id
        lastRange := some { range with start := range.start + 1 } }, some id)
    else .error .assertion
  else if range.last = id then
    .ok ({ proc with
      lastUsedId := id
      lastRange := none
      used := insertRange { range with last := range.last - 1 } proc.used }, some id)
  else if ¬ memory then .ok (proc, none)
  else if ¬ (range.start < id ∧ id < range.last) then .error .assertion
  else
    .ok ({ proc with
      lastUsedId := id
      lastRange := some ⟨id + 1, range.last, 0⟩
      used := insertRange { range with last := id - 1 } proc.used }, some id)

/-- The IDs of a range in the tree, if none of them is in use any more. -/
def releaseUsed (proc : Proc) (id : Nat) : Except Bug (Proc × Option (Nat × Nat)) :=
  match lowerBound id proc.used with
  | none => .error .unknownId
  | some range =>
    if id < range.start ∨ range.last < id then .error .unknownId
    else if range.tag = 0 then .error .assertion
    else if range.tag - 1 = 0 then
      .ok ({ proc with used := proc.used.erase range }, some (range.start, range.last))
    else .ok ({ proc with used := put range { range with tag := range.tag - 1 } proc.used }, none)

/-- `release_id`: the range to be released, if there is one. -/
def releaseId (proc : Proc) (id : Nat) : Except Bug (Proc × Option (Nat × Nat)) :=
  match proc.lastRange with
  | some range =>
    if range.start ≤ id ∧ id ≤ range.last then
      if range.tag = 0 then .error .assertion
      else .ok ({ proc with lastRange := some { range with tag := range.tag - 1 } }, none)
    else releaseUsed proc id
  | none => releaseUsed proc id

/-! ## The system -/

/-- An ID on its way to a new process, and the process that is still in `get_new_id` for it. -/
structure Transit where
  id : Nat
  dest : Nat
  waiting : Option Nat
  deriving DecidableEq, Repr

/-- The leader, the processes by their VMIDs, the messages that release ranges, the IDs in use
by each process and those on their way to one. -/
structure State where
  leader : Leader
  proc : Nat → Proc
  releases : List (Nat × (Nat × Nat))
  held : Nat → List Nat
  transit : List Transit

/-- What happens next; `memory` says if there is some. -/
inductive Label
  /-- `get_new_id(dest)`, with 0 for no new owner. -/
  | getNewId (p dest : Nat) (memory : Bool)
  /-- The leader handles `IPC_MSG_ALLOC_ID_RANGE`. -/
  | allocRange (p : Nat) (memory : Bool)
  /-- The process gets the answer. -/
  | gotRange (p : Nat) (memory : Bool)
  /-- The leader handles `IPC_MSG_CHANGE_ID_OWNER`. -/
  | changeOwner (p : Nat)
  /-- The process gets the answer, and `get_new_id` returns. -/
  | gotOwner (p : Nat)
  /-- `release_id`. -/
  | release (p id : Nat)
  /-- The leader handles `IPC_MSG_RELEASE_ID_RANGE`. -/
  | releaseRange (p : Nat) (range : Nat × Nat)
  /-- `init_id_ranges` of a new process with the ID that was moved to it. -/
  | init (p id : Nat)
  deriving DecidableEq, Repr

def State.setProc (s : State) (p : Nat) (proc : Proc) : State :=
  { s with proc := Function.update s.proc p proc }

/-- The state, and the ID that `get_new_id` returns. -/
abbrev Outcome := Except Bug (State × Option Nat)

/-- `get_new_id` from the point on where there is a range. -/
def State.take (s : State) (p : Nat) (range : Range Nat) (dest : Nat) (memory : Bool) : Outcome :=
  match takeId (s.proc p) range dest memory with
  | .error bug => .error bug
  | .ok (proc, none) => .ok (s.setProc p { proc with pc := .idle }, none)
  | .ok (proc, some id) =>
    if dest = 0 then
      .ok ({ s.setProc p { proc with pc := .idle } with
        held := Function.update s.held p (id :: s.held p) }, some id)
    else .ok (s.setProc p { proc with pc := .changing id dest }, none)

/-- `get_new_id`. -/
def State.getNewId (s : State) (p dest : Nat) (memory : Bool) : Outcome :=
  match (s.proc p).lastRange with
  | some range => s.take p range dest memory
  | none =>
    if memory then .ok (s.setProc p { s.proc p with pc := .allocating dest }, none)
    else .ok (s, none)

/-- The asserts on the range from the leader. -/
def validRange (start last : Nat) : Bool :=
  decide (start ≤ last) && decide (last - start + 1 ≤ maxRangeSize) && decide (0 < start)

/-- A step; a process does nothing else while it is in `get_new_id`. -/
def step (s : State) : Label → Option Outcome
  | .getNewId p dest memory =>
    if (s.proc p).initialized ∧ (s.proc p).pc = .idle then
      some (s.getNewId p dest memory)
    else none
  | .allocRange p memory =>
    match (s.proc p).pc with
    | .allocating dest =>
      if memory then
        match allocIdRange s.leader p with
        | .error bug => some (.error bug)
        | .ok (leader, range) =>
          some (.ok ({ s.setProc p { s.proc p with pc := .allocated dest (some range) } with
            leader := leader }, none))
      else some (.ok (s.setProc p { s.proc p with pc := .allocated dest none }, none))
    | _ => none
  | .gotRange p memory =>
    match (s.proc p).pc with
    | .allocated _ none => some (.ok (s.setProc p { s.proc p with pc := .idle }, none))
    | .allocated dest (some (start, last)) =>
      if ¬ validRange start last then some (.error .assertion)
      else
        let range : Range Nat := ⟨start, last, 0⟩
        some ((s.setProc p { s.proc p with
          lastRange := some range
          lastUsedId := start - 1
          pc := .idle }).take p range dest memory)
    | _ => none
  | .changeOwner p =>
    match (s.proc p).pc with
    | .changing id dest =>
      match changeIdOwner s.leader.tree id dest with
      | .error bug => some (.error bug)
      | .ok tree =>
        some (.ok ({ s.setProc p { s.proc p with pc := .changed id dest } with
          leader := { s.leader with tree := tree }
          transit := ⟨id, dest, some p⟩ :: s.transit }, none))
    | _ => none
  | .gotOwner p =>
    match (s.proc p).pc with
    | .changed id dest =>
      some (.ok ({ s.setProc p { s.proc p with pc := .idle } with
        transit := s.transit.map fun t =>
          if t = ⟨id, dest, some p⟩ then ⟨id, dest, none⟩ else t }, some id))
    | _ => none
  | .release p id =>
    if (s.proc p).pc = .idle ∧ id ∈ s.held p then
      match releaseId (s.proc p) id with
      | .error bug => some (.error bug)
      | .ok (proc, range) =>
        some (.ok ({ s.setProc p proc with
          held := Function.update s.held p ((s.held p).erase id)
          releases := range.toList.map (p, ·) ++ s.releases }, none))
    else none
  | .releaseRange p range =>
    if (p, range) ∈ s.releases then
      match releaseIdRange s.leader.tree range.1 range.2 with
      | .error bug => some (.error bug)
      | .ok tree =>
        some (.ok ({ s with
          leader := { s.leader with tree := tree }
          releases := s.releases.erase (p, range) }, none))
    else none
  | .init p id =>
    if (s.proc p).initialized = false ∧ ⟨id, p, none⟩ ∈ s.transit then
      some (.ok ({ s.setProc p { s.proc p with
          initialized := true
          used := insertRange ⟨id, id, 1⟩ (s.proc p).used } with
        held := Function.update s.held p [id]
        transit := s.transit.erase ⟨id, p, none⟩ }, none))
    else none

/-- The first process. -/
def startingVmid : Nat := 1

/-- A process before it has any IDs. -/
def Proc.empty (initialized : Bool) : Proc := ⟨initialized, [], none, 0, .idle⟩

/-- Only the first process has been started. -/
def Initial (s : State) : Prop :=
  s.leader = ⟨[], 0⟩ ∧ (∀ p, s.proc p = Proc.empty (p = startingVmid)) ∧ s.releases = [] ∧
    (∀ p, s.held p = []) ∧ s.transit = []

def Step (s : State) (label : Label) (s' : State) : Prop :=
  ∃ out, step s label = some (.ok (s', out))

/-- The ranges of a process. -/
def Proc.ranges (proc : Proc) : List (Range Nat) := proc.used ++ proc.lastRange.toList

end Pid
