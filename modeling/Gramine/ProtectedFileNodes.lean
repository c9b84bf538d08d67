import Mathlib

/-!
# The nodes of a protected file

The file is a sequence of nodes of one size: the metadata node, and then groups of a
node of the Merkle hash tree and the 96 data nodes it vouches for. The nodes in memory are
found by their physical number alone, so no two nodes may have one number, and a node is decrypted
with the key in one slot of its parent, so no two nodes may have one slot.

The numbers are computed by different formulas: `get_node_numbers` starts from an offset, while
`ipf_read_mht_node` and `ipf_append_mht_node` go up the tree from the number of a node.
`NodeId.place`, `NodeId.parent` and `NodeId.cryptoSlot` say where a node belongs; that the access
functions agree with them is proved by induction along the path to the root.
-/

namespace ProtectedFile

def pfNodeSize : Nat := 4096

def mdUserDataSize : Nat := pfNodeSize * 3 / 4

def attachedDataNodesCount : Nat := 96

def childMhtNodesCount : Nat := 32

/-- The value kept in a `uint64_t`. -/
def u64 (x : Nat) : Nat := x % 2 ^ 64

structure NodeNumbers where
  mht : Nat
  data : Nat
  physicalMht : Nat
  physicalData : Nat

/-- `get_node_numbers`, which asserts that the offset is not in the metadata node; a difference is
taken with a borrowed `2 ^ 64`. -/
def getNodeNumbers (offset : Nat) : NodeNumbers :=
  let data := u64 (offset + 2 ^ 64 - mdUserDataSize) / pfNodeSize
  let mht := data / attachedDataNodesCount
  let physicalData := u64 (data + 1 + 1 + mht)
  { mht, data, physicalData
    physicalMht := u64 (physicalData + 2 ^ 64 - data % attachedDataNodesCount - 1) }

/-- The type of a node with its number. -/
inductive NodeId
  | metadata
  | mht (n : Nat)
  | data (k : Nat)

/-- `file_node_t`: the root of the tree lies in the file's context, every other node is
allocated and points to its parent. -/
inductive FileNode
  | rootMht
  | node (id : NodeId) (physicalNodeNumber : Nat) (parent : FileNode)

def FileNode.id : FileNode → NodeId
  | rootMht => .mht 0
  | node id _ _ => id

/-- A slot of a node of the tree, with the key and hash of a child. -/
inductive CryptoSlot
  | mhtNodesCrypto (i : Nat)
  | dataNodesCrypto (i : Nat)
  deriving DecidableEq

/-- What the environment answers. -/
structure Host where
  /-- Whether the node with a physical number can be allocated and cached. -/
  alloc : Nat → Bool
  /-- `ipf_read_node`. -/
  readNode : Nat → Bool
  /-- `g_cb_aes_gcm_decrypt` of the node with a physical number, with the key and hash in a slot of
  a node of the tree. -/
  aesGcmDecrypt : NodeId → CryptoSlot → Nat → Bool

/-- The nodes in memory, by physical number. -/
abbrev Cache := List (Nat × FileNode)

/-- The end of an access, after the parent was asked for: the node is filled and cached, unless
something goes wrong, which may depend on the parent. -/
def addNode (works : FileNode → Bool) (id : NodeId) (physicalNodeNumber : Nat) :
    Option FileNode × Cache → Option FileNode × Cache
  | (none, cache) => (none, cache)
  | (some parent, cache) =>
    let node := .node id physicalNodeNumber parent
    if works parent then (some node, (physicalNodeNumber, node) :: cache) else (none, cache)

section Access
variable (host : Host)

/-- Whether a node is allocated, read, decrypted with what its parent has in the slot, and
cached. -/
def Host.reads (physicalNodeNumber : Nat) (slot : CryptoSlot) (parent : FileNode) : Bool :=
  host.alloc physicalNodeNumber && host.readNode physicalNodeNumber &&
    host.aesGcmDecrypt parent.id slot physicalNodeNumber

def ipfReadMhtNode (cache : Cache) (mhtNodeNumber : Nat) : Option FileNode × Cache :=
  let physicalNodeNumber := u64 (1 + mhtNodeNumber * (1 + attachedDataNodesCount))
  if _h : mhtNodeNumber = 0 then (some .rootMht, cache)
  else
    match cache.lookup physicalNodeNumber with
    | some node => (some node, cache)
    | none => addNode
        (host.reads physicalNodeNumber (.mhtNodesCrypto ((mhtNodeNumber - 1) % childMhtNodesCount)))
        (.mht mhtNodeNumber) physicalNodeNumber
        (ipfReadMhtNode cache ((mhtNodeNumber - 1) / childMhtNodesCount))
termination_by mhtNodeNumber
decreasing_by simp only [childMhtNodesCount]; omega

def ipfAppendMhtNode (cache : Cache) (mhtNodeNumber : Nat) : Option FileNode × Cache :=
  let physicalNodeNumber := u64 (1 + mhtNodeNumber * (1 + attachedDataNodesCount))
  addNode (fun _ => host.alloc physicalNodeNumber) (.mht mhtNodeNumber) physicalNodeNumber
    (ipfReadMhtNode host cache ((mhtNodeNumber - 1) / childMhtNodesCount))

/-- `ipf_get_mht_node`, with the size of the file. -/
def ipfGetMhtNode (size : Nat) (cache : Cache) (offset : Nat) : Option FileNode × Cache :=
  if offset < mdUserDataSize then (none, cache)
  else
    let mhtNodeNumber := (getNodeNumbers offset).mht
    if mhtNodeNumber = 0 then (some .rootMht, cache)
    else if (offset - mdUserDataSize) % (attachedDataNodesCount * pfNodeSize) = 0 ∧
        offset = size then
      ipfAppendMhtNode host cache mhtNodeNumber
    else ipfReadMhtNode host cache mhtNodeNumber

def ipfReadDataNode (size : Nat) (cache : Cache) (offset : Nat) : Option FileNode × Cache :=
  let numbers := getNodeNumbers offset
  match cache.lookup numbers.physicalData with
  | some node => (some node, cache)
  | none => addNode
      (host.reads numbers.physicalData (.dataNodesCrypto (numbers.data % attachedDataNodesCount)))
      (.data numbers.data) numbers.physicalData (ipfGetMhtNode host size cache offset)

end Access

/-! ## The layout -/

namespace NodeId

/-- The physical node of each node. -/
def place : NodeId → Nat
  | metadata => 0
  | mht n => 1 + 97 * n
  | data k => k + 2 + k / 96

/-- The number of the node of the tree that vouches for a node. -/
def parent : NodeId → Nat
  | metadata => 0
  | mht n => (n - 1) / 32
  | data k => k / 96

/-- Where the parent of a node keeps its key and hash. -/
def cryptoSlot : NodeId → CryptoSlot
  | metadata => .mhtNodesCrypto 0
  | mht n => .mhtNodesCrypto ((n - 1) % 32)
  | data k => .dataNodesCrypto (k % 96)

theorem place_injective : Function.Injective place := by
  rintro (_ | n | k) (_ | m | j) h <;> simp only [place] at h <;> grind

theorem place_surjective : Function.Surjective place := by
  intro p
  obtain rfl | h := Nat.eq_zero_or_pos p
  · exact ⟨metadata, rfl⟩
  · by_cases hp : (p - 1) % 97 = 0
    · exact ⟨mht ((p - 1) / 97), by simp only [place]; omega⟩
    · exact ⟨data ((p - 1) / 97 * 96 + ((p - 1) % 97 - 1)), by simp only [place]; omega⟩

end NodeId

open NodeId (mht data place cryptoSlot place_injective place_surjective)

/-- A node and those above it stand at their places, each under the right parent. -/
def FileNode.Placed : FileNode → Prop
  | rootMht => True
  | node id physical parent => physical = id.place ∧ parent.Placed ∧ parent.id = .mht id.parent

/-- Every node in memory is kept under the number of its place. -/
def Cache.Placed (cache : Cache) : Prop := ∀ p ∈ cache, p.2.Placed ∧ p.1 = p.2.id.place

section
variable (host : Host) (cache : Cache)

/-- A node can be had: it is the root of the tree or in memory, or its parent can be had and the
node is read at its place and decrypted with its slot of the parent. -/
inductive Opens : NodeId → Prop
  | root : Opens (.mht 0)
  | cached {id : NodeId} (h : (cache.lookup id.place).isSome = true) : Opens id
  | child {id : NodeId} (hparent : Opens (.mht id.parent)) (halloc : host.alloc id.place = true)
      (hread : host.readNode id.place = true)
      (hdecrypt : host.aesGcmDecrypt (.mht id.parent) id.cryptoSlot id.place = true) : Opens id

end

/-- An access leaves the nodes placed and returns the node asked for exactly under a condition. -/
def Delivers (id : NodeId) (condition : Prop) (r : Option FileNode × Cache) : Prop :=
  Cache.Placed r.2 ∧ (∀ node, r.1 = some node → node.Placed ∧ node.id = id) ∧
    (r.1.isSome = true ↔ condition)

variable {host : Host} {cache : Cache} {offset size n : Nat} {id : NodeId}

theorem getNodeNumbers_eq (h : mdUserDataSize ≤ offset) (hlt : offset < 2 ^ 64) :
    let k := (offset - mdUserDataSize) / pfNodeSize
    getNodeNumbers offset = ⟨k / 96, k, (mht (k / 96)).place, (data k).place⟩ := by
  simp only [getNodeNumbers, attachedDataNodesCount, place, u64, pfNodeSize, NodeNumbers.mk.injEq]
  omega

theorem u64_place (hlt : (mht n).place < 2 ^ 64) :
    u64 (1 + n * (1 + attachedDataNodesCount)) = (mht n).place := by
  simp only [u64, attachedDataNodesCount, place] at hlt ⊢
  omega

theorem place_parent_lt (hlt : (mht n).place < 2 ^ 64) :
    (mht ((n - 1) / childMhtNodesCount)).place < 2 ^ 64 := by
  simp only [place, childMhtNodesCount] at hlt ⊢
  omega

/-- A node that is neither the root nor in memory comes from its parent. -/
theorem opens_iff_child (hroot : id ≠ .mht 0) (hnone : cache.lookup id.place = none) :
    Opens host cache id ↔ Opens host cache (.mht id.parent) ∧ host.alloc id.place = true ∧
      host.readNode id.place = true ∧
      host.aesGcmDecrypt (.mht id.parent) id.cryptoSlot id.place = true := by
  constructor
  · intro h
    cases h with
    | root => exact absurd rfl hroot
    | cached h => simp [hnone] at h
    | child hparent halloc hread hdecrypt => exact ⟨hparent, halloc, hread, hdecrypt⟩
  · rintro ⟨hparent, halloc, hread, hdecrypt⟩
    exact .child hparent halloc hread hdecrypt

theorem Delivers.found {condition : Prop} {node : FileNode} (h : cache.Placed)
    (hnode : node.Placed) (hid : node.id = id) (hcond : condition) :
    Delivers id condition (some node, cache) :=
  ⟨h, by rintro _ ⟨⟩; exact ⟨hnode, hid⟩, by simpa using hcond⟩

/-- The node found under a number is the one asked for, since no other has this place. -/
theorem Delivers.lookup {node : FileNode} (h : cache.Placed)
    (hnode : cache.lookup id.place = some node) :
    Delivers id (Opens host cache id) (some node, cache) := by
  obtain ⟨before, after, heq, -⟩ := List.lookup_eq_some_iff.1 hnode
  obtain ⟨hplaced, hplace⟩ := h (id.place, node) (by simp [heq])
  exact .found h hplaced (place_injective hplace.symm) (.cached (by rw [hnode]; rfl))

/-- A node is added under the parent that was returned. -/
theorem Delivers.addNode {condition : Prop} {works : FileNode → Bool} {r : Option FileNode × Cache}
    {P : Prop} (hr : Delivers (.mht id.parent) P r)
    (hworks : ∀ parent : FileNode, parent.id = .mht id.parent → (works parent = true ↔ condition)) :
    Delivers id (P ∧ condition) (addNode works id id.place r) := by
  obtain ⟨_ | parent, cache⟩ := r
  · have hnot : ¬ P := fun h => nomatch hr.2.2.2 h
    exact ⟨hr.1, fun _ h => (nomatch h), by simp [ProtectedFile.addNode, hnot]⟩
  have hparent := hr.2.1 parent rfl
  have hP : P := hr.2.2.1 rfl
  simp only [ProtectedFile.addNode]
  split
  · rename_i hw
    have hnode : (FileNode.node id id.place parent).Placed := ⟨rfl, hparent⟩
    exact .found (List.forall_mem_cons.2 ⟨⟨hnode, rfl⟩, hr.1⟩) hnode rfl
      ⟨hP, (hworks parent hparent.2).1 hw⟩
  · rename_i hw
    have hnot : ¬ condition := fun h => hw ((hworks parent hparent.2).2 h)
    exact ⟨hr.1, fun _ h => (nomatch h), by simp [hnot]⟩

/-- A node that is not in memory is read with its slot of the parent that was returned. -/
theorem Delivers.read {r : Option FileNode × Cache} (hroot : id ≠ .mht 0)
    (hnone : cache.lookup id.place = none)
    (hr : Delivers (.mht id.parent) (Opens host cache (.mht id.parent)) r) :
    Delivers id (Opens host cache id)
      (ProtectedFile.addNode (host.reads id.place id.cryptoSlot) id id.place r) := by
  rw [opens_iff_child hroot hnone]
  refine hr.addNode fun parent hparent => ?_
  rw [Host.reads, hparent, Bool.and_eq_true, Bool.and_eq_true, and_assoc]

theorem ipfReadMhtNode_delivers (h : cache.Placed) (hlt : (mht n).place < 2 ^ 64) :
    Delivers (.mht n) (Opens host cache (.mht n)) (ipfReadMhtNode host cache n) := by
  fun_induction ipfReadMhtNode host cache n with
  | case1 => exact .found h trivial rfl .root
  | case2 n p hn node hnode =>
    have hp : p = (mht n).place := u64_place hlt
    exact .lookup h (hp ▸ hnode)
  | case3 n p hn hnone ih =>
    have hp : p = (mht n).place := u64_place hlt
    rw [hp] at hnone ⊢
    exact .read (by simpa using hn) hnone (ih (place_parent_lt hlt))

theorem ipfReadDataNode_delivers (h : cache.Placed) (hoffset : mdUserDataSize ≤ offset)
    (hlt : offset < 2 ^ 64) (hsize : offset ≠ size) :
    let k := (offset - mdUserDataSize) / pfNodeSize
    Delivers (.data k) (Opens host cache (.data k)) (ipfReadDataNode host size cache offset) := by
  intro k
  have hmht : Delivers (.mht (k / 96)) (Opens host cache (.mht (k / 96)))
      (ipfGetMhtNode host size cache offset) := by
    simp only [ipfGetMhtNode, getNodeNumbers_eq hoffset hlt]
    rw [if_neg (Nat.not_lt.2 hoffset), if_neg (c := _ ∧ _) fun hc => hsize hc.2]
    split
    · rename_i hzero
      exact .found h trivial (congrArg mht hzero.symm) (hzero ▸ .root)
    · refine ipfReadMhtNode_delivers h ?_
      simp only [place, k, pfNodeSize]
      omega
  simp only [ipfReadDataNode, getNodeNumbers_eq hoffset hlt]
  split
  · rename_i node hnode
    exact .lookup h hnode
  · rename_i hnone
    exact .read (by simp) hnone hmht

/-- **The layout is a bijection**, and no two nodes share a slot of a parent. The numbers computed
for an offset are places. A node that is read or appended stands at its place, under its parent, and
so do all nodes above it; it is returned exactly if each node on the way to it is in memory or can
be read at its place and decrypted with its slot of its parent. -/
theorem layout_bijective : Function.Bijective place ∧
    (∀ n m, n ≠ 0 → m ≠ 0 → (mht n).parent = (mht m).parent →
      (mht n).cryptoSlot = (mht m).cryptoSlot → n = m) ∧
    (∀ k j, (data k).parent = (data j).parent → (data k).cryptoSlot = (data j).cryptoSlot → k = j) ∧
    (∀ n k, (mht n).cryptoSlot ≠ (data k).cryptoSlot) ∧
    (∀ offset, mdUserDataSize ≤ offset → offset < 2 ^ 64 →
      let k := (offset - mdUserDataSize) / pfNodeSize
      getNodeNumbers offset = ⟨k / 96, k, (mht (k / 96)).place, (data k).place⟩) ∧
    ∀ host (cache : Cache), cache.Placed →
      (∀ n, (mht n).place < 2 ^ 64 →
        Delivers (.mht n) (Opens host cache (.mht n)) (ipfReadMhtNode host cache n) ∧
        (n ≠ 0 → Delivers (.mht n)
          (Opens host cache (.mht (mht n).parent) ∧ host.alloc (mht n).place = true)
          (ipfAppendMhtNode host cache n))) ∧
      ∀ offset size, mdUserDataSize ≤ offset → offset < 2 ^ 64 → offset ≠ size →
        let k := (offset - mdUserDataSize) / pfNodeSize
        Delivers (.data k) (Opens host cache (.data k))
          (ipfReadDataNode host size cache offset) := by
  refine ⟨⟨place_injective, place_surjective⟩, fun n m hn hm hparent hslot => ?_,
    fun k j hparent hslot => ?_, fun n k h => (nomatch h), fun _ => getNodeNumbers_eq,
    fun host cache h => ⟨fun n hlt => ⟨ipfReadMhtNode_delivers h hlt, fun _ => ?_⟩,
      fun _ _ => ipfReadDataNode_delivers h⟩⟩
  · simp only [NodeId.parent, cryptoSlot, CryptoSlot.mhtNodesCrypto.injEq] at hparent hslot
    omega
  · simp only [NodeId.parent, cryptoSlot, CryptoSlot.dataNodesCrypto.injEq] at hparent hslot
    omega
  · simp only [ipfAppendMhtNode, u64_place hlt]
    have hparent : Delivers (.mht (mht n).parent) (Opens host cache (.mht (mht n).parent))
        (ipfReadMhtNode host cache ((n - 1) / childMhtNodesCount)) :=
      ipfReadMhtNode_delivers h (place_parent_lt hlt)
    exact hparent.addNode fun _ _ => Iff.rfl

/-- **A file grows without gaps**: behind a data node comes the next one, or the next node of the
tree and then the data node. -/
theorem nodes_contiguous (h : mdUserDataSize ≤ offset) (hlt : offset + pfNodeSize < 2 ^ 64) :
    let cur := getNodeNumbers offset
    let next := getNodeNumbers (offset + pfNodeSize)
    next.data = cur.data + 1 ∧
    ((next.mht = cur.mht ∧ next.physicalData = cur.physicalData + 1) ∨
      (next.mht = cur.mht + 1 ∧ next.physicalMht = cur.physicalData + 1 ∧
        next.physicalData = cur.physicalData + 2)) := by
  have hcur := getNodeNumbers_eq h (by omega)
  have hnext := getNodeNumbers_eq (show mdUserDataSize ≤ offset + pfNodeSize by omega) hlt
  simp only [hcur, hnext, place, pfNodeSize, mdUserDataSize] at *
  omega

theorem nodes_contiguous_first :
    (getNodeNumbers (3072 + 4096)).data = (getNodeNumbers 3072).data + 1 :=
  (nodes_contiguous (by decide) (by decide)).1

end ProtectedFile
