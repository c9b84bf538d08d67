import Gramine.BinaryTree
import Gramine.Transition

/-!
# The intrusive AVL tree

`avl_tree.c`: nodes with child and parent pointers and a stored balance, in a
memory `Mem` that maps addresses to nodes. A pointer is an `Option`, with `none`
for `NULL`.

The functions return `none` when an assertion fails, when `NULL` is dereferenced,
or when a loop takes more than `fuel` iterations. The functions and branches that
come in mirror images (`rot1L` and `rot1R`, `rot2RL` and `rot2LR`, next and
previous) are one definition each, with the side as a parameter.
-/

open BinaryTree (Side)

namespace AvlTree

/-- `struct avl_tree_node`. -/
structure AvlTreeNode (Addr : Type) where
  left : Option Addr
  right : Option Addr
  parent : Option Addr
  balance : Int
  deriving DecidableEq, Repr

/-- The child on a side. -/
def AvlTreeNode.child {Addr : Type} (n : AvlTreeNode Addr) : Side → Option Addr
  | .left => n.left
  | .right => n.right

/-- The node with another child on a side. -/
def AvlTreeNode.setChild {Addr : Type} (n : AvlTreeNode Addr) (s : Side) (c : Option Addr) :
    AvlTreeNode Addr :=
  match s with
  | .left => { n with left := c }
  | .right => { n with right := c }

/-- The memory of the nodes. -/
abbrev Mem (Addr : Type) := Addr → AvlTreeNode Addr

/-- `struct avl_tree`, and the memory. -/
structure Store (Addr : Type) where
  root : Option Addr
  mem : Mem Addr

section Functions
variable {Addr : Type} [DecidableEq Addr]

namespace Mem

/-- `a->left = c` or `a->right = c`. -/
def setChild (m : Mem Addr) (s : Side) (a : Addr) (c : Option Addr) : Mem Addr :=
  Function.update m a ((m a).setChild s c)

/-- `a->parent = p`. -/
def setParent (m : Mem Addr) (a : Addr) (p : Option Addr) : Mem Addr :=
  Function.update m a { m a with parent := p }

/-- `a->balance = b`. -/
def setBalance (m : Mem Addr) (a : Addr) (b : Int) : Mem Addr :=
  Function.update m a { m a with balance := b }

/-- `if (a) { a->parent = p; }` -/
def linkParent (m : Mem Addr) (a p : Option Addr) : Mem Addr :=
  match a with
  | none => m
  | some a => m.setParent a p

end Mem

/-- `avl_tree_init_node`. -/
def avlTreeInitNode (node : Addr) (m : Mem Addr) : Mem Addr :=
  Function.update m node ⟨none, none, none, 0⟩

/-- `avl_tree_insert_unbalanced`, from `node` on. -/
def avlTreeInsertUnbalanced (cmp : Addr → Addr → Bool) (nodeToInsert : Addr) :
    Nat → Addr → Mem Addr → Option (Mem Addr)
  | 0, _, _ => none
  | fuel + 1, node, m =>
    let side := if cmp nodeToInsert node then .left else .right
    match (m node).child side with
    | none => some ((m.setChild side node (some nodeToInsert)).setParent nodeToInsert (some node))
    | some c => avlTreeInsertUnbalanced cmp nodeToInsert fuel c m

/-- `fixup_link`. -/
def fixupLink (oldNode newNode parent : Option Addr) (m : Mem Addr) : Option (Mem Addr) := do
  let m ← match parent with
    | none => some m
    | some p =>
      if (m p).left = oldNode then some (m.setChild .left p newNode)
      else do
        guard ((m p).right = oldNode)
        some (m.setChild .right p newNode)
  some (m.linkParent newNode parent)

/-! ## Rotations -/

/-- A single rotation: `q` is the child of `p` on side `s` and takes its place. -/
def rot1 (s : Side) (q p : Addr) (m : Mem Addr) : Option (Mem Addr) := do
  guard ((m q).parent = some p)
  guard ((m p).child s = some q)
  guard ((m q).balance = s.sign ∨ (m q).balance = 0)
  guard ((m p).balance = 2 * s.sign)
  let m ← fixupLink (some p) (some q) (m p).parent m
  let inner := (m q).child s.other
  let m := (m.setChild s p inner).linkParent inner (some p)
  let m := (m.setChild s.other q (some p)).setParent p (some q)
  if (m q).balance = s.sign then some ((m.setBalance p 0).setBalance q 0)
  else some ((m.setBalance p s.sign).setBalance q (-s.sign))

/-- `rot1L`. -/
def rot1L (q p : Addr) (m : Mem Addr) : Option (Mem Addr) := rot1 .right q p m

/-- `rot1R`. -/
def rot1R (q p : Addr) (m : Mem Addr) : Option (Mem Addr) := rot1 .left q p m

/-- A double rotation: `q` is the child of `p` on side `s`, and `r`, its child on
the other side, takes the place of `p`. (`rot2LR` links the children of `q` before
those of `p`.) -/
def rot2 (s : Side) (r q p : Addr) (m : Mem Addr) : Option (Mem Addr) := do
  guard ((m q).parent = some p)
  guard ((m p).child s = some q)
  guard ((m q).balance = -s.sign)
  guard ((m p).balance = 2 * s.sign)
  guard ((m r).parent = some q)
  guard ((m q).child s.other = some r)
  guard (-1 ≤ (m r).balance ∧ (m r).balance ≤ 1)
  let m ← fixupLink (some p) (some r) (m p).parent m
  let toP := (m r).child s.other
  let m := (m.setChild s p toP).linkParent toP (some p)
  let toQ := (m r).child s
  let m := (m.setChild s.other q toQ).linkParent toQ (some q)
  let m := (m.setChild s.other r (some p)).setParent p (some r)
  let m := (m.setChild s r (some q)).setParent q (some r)
  let m :=
    if (m r).balance = -s.sign then (m.setBalance p 0).setBalance q s.sign
    else if (m r).balance = 0 then (m.setBalance p 0).setBalance q 0
    else (m.setBalance p (-s.sign)).setBalance q 0
  some (m.setBalance r 0)

/-- `rot2RL`. -/
def rot2RL (r q p : Addr) (m : Mem Addr) : Option (Mem Addr) := rot2 .right r q p m

/-- `rot2LR`. -/
def rot2LR (r q p : Addr) (m : Mem Addr) : Option (Mem Addr) := rot2 .left r q p m

/-- `avl_tree_do_balance`: whether the height might have changed, and the new root. -/
def avlTreeDoBalance (node : Addr) (m : Mem Addr) : Option (Bool × Addr × Mem Addr) := do
  guard ((m node).balance = -2 ∨ (m node).balance = 2)
  if (m node).balance < 0 then do
    let child ← (m node).left
    if (m child).balance = 1 then do
      let newRoot ← (m child).right
      let m ← rot2LR newRoot child node m
      some (true, newRoot, m)
    else do
      let m' ← rot1R child node m
      some (decide ((m child).balance ≠ 0), child, m')
  else do
    let child ← (m node).right
    if 0 ≤ (m child).balance then do
      let m' ← rot1L child node m
      some (decide ((m child).balance ≠ 0), child, m')
    else do
      let newRoot ← (m child).left
      let m ← rot2RL newRoot child node m
      some (true, newRoot, m)

/-- The side of `node` below `parent`. -/
def sideOf (node parent : Addr) (m : Mem Addr) : Option Side :=
  if (m parent).left = some node then some .left
  else do
    guard ((m parent).right = some node)
    some .right

/-- The new balance of a node when the height of its child on `side` has grown or
shrunk, and whether its own height has changed unless it is rotated. -/
def childChanged (side : Side) (heightIncreased : Bool) (balance : Int) : Bool × Int :=
  match side, heightIncreased with
  | .left, true => (decide (balance ≤ 0), balance - 1)
  | .left, false => (decide (balance < 0), balance + 1)
  | .right, true => (decide (0 ≤ balance), balance + 1)
  | .right, false => (decide (0 < balance), balance - 1)

/-- An iteration of `avl_tree_balance`: whether the height of the subtree has
changed, and its root. -/
def rebalanceNode (node : Addr) (side : Side) (heightIncreased : Bool) (m : Mem Addr) :
    Option (Bool × Addr × Mem Addr) := do
  let (heightChanged, balance) := childChanged side heightIncreased (m node).balance
  let m := m.setBalance node balance
  guard (-2 ≤ balance ∧ balance ≤ 2)
  if balance = -2 ∨ balance = 2 then do
    let (ret, newRoot, m) ← avlTreeDoBalance node m
    some (if heightIncreased then false else ret, newRoot, m)
  else some (heightChanged, node, m)

/-- `avl_tree_balance`: the root of the subtree that balancing stopped at. -/
def avlTreeBalance : Nat → Addr → Side → Bool → Mem Addr → Option (Addr × Mem Addr)
  | 0, _, _, _, _ => none
  | fuel + 1, node, side, heightIncreased, m => do
    let (heightChanged, node, m) ← rebalanceNode node side heightIncreased m
    if heightChanged = false then some (node, m)
    else
      match (m node).parent with
      | none => some (node, m)
      | some parent => do
        let side ← sideOf node parent m
        avlTreeBalance fuel parent side heightIncreased m

/-! ## Insertion and replacement -/

/-- `avl_tree_insert`. -/
def avlTreeInsert (fuel : Nat) (cmp : Addr → Addr → Bool) (tree : Store Addr) (node : Addr) :
    Option (Store Addr) :=
  let m := avlTreeInitNode node tree.mem
  match tree.root with
  | none => some ⟨some node, m⟩
  | some root => do
    let m ← avlTreeInsertUnbalanced cmp node fuel root m
    let parent ← (m node).parent
    let side ← sideOf node parent m
    let (newRoot, m) ← avlTreeBalance fuel parent side true m
    some ⟨if (m newRoot).parent = none then some newRoot else tree.root, m⟩

/-- `avl_tree_swap_node`. -/
def avlTreeSwapNode (cmp : Addr → Addr → Bool) (tree : Store Addr) (oldNode newNode : Addr) :
    Option (Store Addr) := do
  guard (cmp oldNode newNode ∧ cmp newNode oldNode)
  let m := avlTreeInitNode newNode tree.mem
  let m ← fixupLink (some oldNode) (some newNode) (m oldNode).parent m
  let m := m.setChild .left newNode (m oldNode).left
  let m := m.linkParent (m newNode).left (some newNode)
  let m := m.setChild .right newNode (m oldNode).right
  let m := m.linkParent (m newNode).right (some newNode)
  let m := m.setBalance newNode (m oldNode).balance
  some ⟨if tree.root = some oldNode then some newNode else tree.root, m⟩

/-! ## Traversal -/

/-- Follows the children on side `s` down to the last one. -/
def descend (s : Side) (m : Mem Addr) : Nat → Addr → Option Addr
  | 0, _ => none
  | fuel + 1, node =>
    match (m node).child s with
    | none => some node
    | some c => descend s m fuel c

/-- Climbs while the node is a child on side `s`, and returns the parent then. -/
def climb (s : Side) (m : Mem Addr) : Nat → Addr → Option (Option Addr)
  | 0, _ => none
  | fuel + 1, node =>
    match (m node).parent with
    | none => some none
    | some p => if (m p).child s = some node then climb s m fuel p else some (some p)

/-- The neighbour in order on side `s`. -/
def neighbour (s : Side) (fuel : Nat) (m : Mem Addr) (node : Addr) : Option (Option Addr) :=
  match (m node).child s with
  | some c => do
    let n ← descend s.other m fuel c
    some (some n)
  | none => climb s m fuel node

/-- `avl_tree_prev`. -/
def avlTreePrev (fuel : Nat) (m : Mem Addr) (node : Addr) : Option (Option Addr) :=
  neighbour .left fuel m node

/-- `avl_tree_next`. -/
def avlTreeNext (fuel : Nat) (m : Mem Addr) (node : Addr) : Option (Option Addr) :=
  neighbour .right fuel m node

/-- The outermost node on side `s` of a tree. -/
def outermost (s : Side) (fuel : Nat) (tree : Store Addr) : Option (Option Addr) :=
  match tree.root with
  | none => some none
  | some root => do
    let n ← descend s tree.mem fuel root
    some (some n)

/-- `avl_tree_first`. -/
def avlTreeFirst (fuel : Nat) (tree : Store Addr) : Option (Option Addr) :=
  outermost .left fuel tree

/-- `avl_tree_last`. -/
def avlTreeLast (fuel : Nat) (tree : Store Addr) : Option (Option Addr) :=
  outermost .right fuel tree

/-- The loop of `avl_tree_lower_bound_fn`; `below` is `cmp` with its first argument. -/
def lowerBoundLoop (below : Addr → Bool) (m : Mem Addr) :
    Nat → Option Addr → Option Addr → Option (Option Addr)
  | _, none, ret => some ret
  | 0, some _, _ => none
  | fuel + 1, some node, ret =>
    if below node then lowerBoundLoop below m fuel (m node).left (some node)
    else lowerBoundLoop below m fuel (m node).right ret

/-- `avl_tree_lower_bound_fn`. -/
def avlTreeLowerBoundFn (fuel : Nat) (below : Addr → Bool) (tree : Store Addr) :
    Option (Option Addr) :=
  lowerBoundLoop below tree.mem fuel tree.root none

/-! ## Deletion -/

/-- The links and balances of `node` and the next node change places. -/
def swapLinks (node next : Addr) (m : Mem Addr) : Option (Mem Addr) := do
  let tmpRight := (m next).right
  let tmpParent := (m next).parent
  let tmpBalance := (m next).balance
  let m ← fixupLink (some node) (some next) (m node).parent m
  let m ← fixupLink (m next).left (m node).left (some next) m
  let m ←
    if (m node).right = some next then
      some ((m.setChild .right next (some node)).setParent node (some next))
    else do
      let m ← fixupLink (m next).right (m node).right (some next) m
      fixupLink (some next) (some node) tmpParent m
  let m := m.setChild .left node none
  let m ← fixupLink (m node).right tmpRight (some node) m
  some ((m.setBalance next (m node).balance).setBalance node tmpBalance)

/-- The first part of `avl_tree_delete`: `node` has two children and changes places
with the next node. -/
def swapWithNext (fuel : Nat) (tree : Store Addr) (node : Addr) : Option (Store Addr) := do
  let m := tree.mem
  let next ← avlTreeNext fuel m node
  let next ← next
  guard ((m next).balance = 0 ∨ (m next).balance = 1)
  guard (∀ r ∈ (m next).right, (m r).balance = 0 ∧ (m r).left = none ∧ (m r).right = none)
  guard ((m next).parent ≠ none)
  let m ← swapLinks node next m
  some ⟨if tree.root = some node then some next else tree.root, m⟩

/-- The child of a node that has at most one. -/
def AvlTreeNode.onlyChild (n : AvlTreeNode Addr) : Option (Option Addr) :=
  match n.left, n.right with
  | none, none => some none
  | some l, none => some (some l)
  | none, some r => some (some r)
  | some _, some _ => none

/-- The second part of `avl_tree_delete`: `node` has at most one child, which takes
its place. -/
def unlinkNode (fuel : Nat) (tree : Store Addr) (node : Addr) : Option (Store Addr) := do
  let m := tree.mem
  let side ← match (m node).parent with
    | none => some .left
    | some p => sideOf node p m
  let newRoot ← (m node).onlyChild
  let m ← fixupLink (some node) newRoot (m node).parent m
  let (newRoot, m) ← match (m node).parent with
    | none => some (newRoot, m)
    | some p => do
      let (r, m) ← avlTreeBalance fuel p side false m
      some (some r, m)
  some ⟨if (∃ r ∈ newRoot, (m r).parent = none) ∨ (m node).parent = none then newRoot
    else tree.root, m⟩

/-- `avl_tree_delete`. -/
def avlTreeDelete (fuel : Nat) (tree : Store Addr) (node : Addr) : Option (Store Addr) := do
  let tree ←
    if (tree.mem node).left ≠ none ∧ (tree.mem node).right ≠ none then swapWithNext fuel tree node
    else some tree
  unlinkNode fuel tree node

/-! ## The check of the tests -/

/-- `avl_tree_is_balanced_size`: whether the subtree is balanced, and its height. -/
def avlTreeIsBalancedSize (m : Mem Addr) : Nat → Option Addr → Option (Bool × Nat)
  | _, none => some (true, 0)
  | 0, some _ => none
  | fuel + 1, some node => do
    let (ret1, a) ← avlTreeIsBalancedSize m fuel (m node).left
    let (ret2, b) ← avlTreeIsBalancedSize m fuel (m node).right
    let ret := ret1 && ret2
    if a < b then some (ret && decide (b - a = 1) && decide ((m node).balance = 1), b + 1)
    else if a = b then some (ret && decide ((m node).balance = 0), a + 1)
    else some (ret && decide (a - b = 1) && decide ((m node).balance = -1), a + 1)

/-- `debug_avl_tree_is_balanced`. -/
def debugAvlTreeIsBalanced (fuel : Nat) (tree : Store Addr) : Option Bool := do
  let (ret, _) ← avlTreeIsBalancedSize tree.mem fuel tree.root
  some ret

/-! ## Runs -/

/-- The calls that change a tree. -/
inductive Call (Addr : Type)
  | insert (node : Addr)
  | delete (node : Addr)
  | swapNode (oldNode newNode : Addr)
  deriving DecidableEq, Repr

/-- A tree, and the nodes that were inserted and not deleted. -/
structure State (Addr : Type) where
  tree : Store Addr
  nodes : List Addr

/-- What the caller of each function has to ensure. -/
def Legal (cmp : Addr → Addr → Bool) (s : State Addr) : Call Addr → Prop
  | .insert node => node ∉ s.nodes
  | .delete node => node ∈ s.nodes
  | .swapNode oldNode newNode =>
    oldNode ∈ s.nodes ∧ newNode ∉ s.nodes ∧ cmp oldNode newNode ∧ cmp newNode oldNode

/-- The effect of a call; its loops take at most one iteration for each node. -/
def exec (cmp : Addr → Addr → Bool) (s : State Addr) : Call Addr → Option (State Addr)
  | .insert node => do
    let tree ← avlTreeInsert (s.nodes.length + 1) cmp s.tree node
    some ⟨tree, node :: s.nodes⟩
  | .delete node => do
    let tree ← avlTreeDelete (s.nodes.length + 1) s.tree node
    some ⟨tree, s.nodes.erase node⟩
  | .swapNode oldNode newNode => do
    let tree ← avlTreeSwapNode cmp s.tree oldNode newNode
    some ⟨tree, newNode :: s.nodes.erase oldNode⟩

/-- An empty tree. -/
def Initial (s : State Addr) : Prop := s.tree.root = none ∧ s.nodes = []

/-- A legal call that returns. -/
def Step (cmp : Addr → Addr → Bool) (s : State Addr) (c : Call Addr) (s' : State Addr) : Prop :=
  Legal cmp s c ∧ exec cmp s c = some s'

end Functions

end AvlTree
