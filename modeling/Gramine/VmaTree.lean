import Gramine.AvlTreeLookup
import Gramine.AvlTreeRun
import Gramine.IntervalList
import Gramine.Vma

/-!
# The tree of vmas

What each access to the tree does, in terms of the list of vmas in it. The tree is
keyed on the ends of the vmas, which change in place; the order of the nodes is not
affected as long as the ends stay in order, so the list does not depend on them.
-/

open List

namespace Vma

open AvlTree

variable {Addr : Type} {α β : Type}

/-! ## Computations -/

variable {s : State Addr}

theorem bind_of_ok {x : M Addr α} {f : α → M Addr β} {s' : State Addr} {a : α} (h : x s = .ok a s')
    : (x >>= f) s = f a s' := by
  simp [bind, EStateM.bind, h]

theorem bind_of_error {x : M Addr α} {f : α → M Addr β} {s' : State Addr} {e : Fault}
    (h : x s = .error e s') : (x >>= f) s = .error e s' := by
  simp [bind, EStateM.bind, h]

@[simp] theorem get_bind (f : State Addr → M Addr β) (s : State Addr) :
    ((get : M Addr (State Addr)) >>= f) s = f s s := rfl

@[simp] theorem modify_bind (g : State Addr → State Addr) (f : PUnit → M Addr β) (s : State Addr) :
    ((modify g : M Addr PUnit) >>= f) s = f ⟨⟩ (g s) := rfl

@[simp] theorem getVma_bind (a : Addr) (f : LibosVma → M Addr β) (s : State Addr) :
    (getVma a >>= f) s = f (s.vma a) s := rfl

@[simp] theorem modifyVma_bind [DecidableEq Addr] (a : Addr) (g : LibosVma → LibosVma)
    (f : PUnit → M Addr β)
    (s : State Addr) : (modifyVma a g >>= f) s =
      f ⟨⟩ { s with vma := Function.update s.vma a (g (s.vma a)) } := rfl

theorem assertion_bind {p : Prop} [Decidable p] (hp : p) (e : Fault) (f : PUnit → M Addr β)
    (s : State Addr) : (assertion p e >>= f) s = f ⟨⟩ s := by
  rw [assertion, if_pos hp]
  rfl

theorem totalMemorySizeSub_eq {n : Nat} (h : n ≤ s.totalMemorySize) :
    totalMemorySizeSub n s = .ok ⟨⟩ { s with totalMemorySize := s.totalMemorySize - n } := by
  rw [totalMemorySizeSub, get_bind, assertion_bind h]
  rfl

theorem totalMemorySizeSub_bind {n : Nat} {f : PUnit → M Addr β} (h : n ≤ s.totalMemorySize) :
    (totalMemorySizeSub n >>= f) s = f ⟨⟩ { s with totalMemorySize := s.totalMemorySize - n } :=
  bind_of_ok (totalMemorySizeSub_eq h)

/-! ## The list in the tree -/

/-- The tree holds the vmas `l`, in order. -/
structure TreeHolds (t : AvlTree.State Addr) (l : List Addr) : Prop where
  tree : ∃ b, AvlTree.IsTree t.tree b ∧ b.inorder = l
  nodes : l.Perm t.nodes

variable [DecidableEq Addr]

namespace TreeHolds
variable {s : State Addr} {l l1 l2 : List Addr} {a : Addr}

variable {t : AvlTree.State Addr}

omit [DecidableEq Addr] in
theorem nodup (h : TreeHolds t l) : l.Nodup := by
  obtain ⟨b, hb, rfl⟩ := h.tree
  exact hb.nodup

omit [DecidableEq Addr] in
theorem length_lt_fuel (h : TreeHolds s.vmaTree l) : l.length < s.fuel := by
  rw [h.nodes.length_eq]
  exact Nat.lt_succ_self _

variable (h : TreeHolds s.vmaTree (l1 ++ a :: l2))

include h

theorem getNextVma : getNextVma a s = .ok l2.head? s := by
  obtain ⟨b, hb, hl⟩ := h.tree
  have hfuel := hl ▸ h.length_lt_fuel
  rw [Vma.getNextVma, treeLookup, avlTreeNext, neighbour_spec hb hl hfuel]
  rfl

theorem getPrevVma : getPrevVma a s = .ok l1.getLast? s := by
  obtain ⟨b, hb, hl⟩ := h.tree
  have hfuel := hl ▸ h.length_lt_fuel
  rw [Vma.getPrevVma, treeLookup, avlTreePrev, neighbour_spec hb hl hfuel]
  rfl

omit h in
omit [DecidableEq Addr] in
theorem getLastVma (h : TreeHolds s.vmaTree l) : getLastVma s = .ok l.getLast? s := by
  obtain ⟨b, hb, rfl⟩ := h.tree
  have hfuel := h.length_lt_fuel.le
  rw [Vma.getLastVma, treeLookup, avlTreeLast, outermost_spec hb hfuel]
  rfl

omit h in
omit [DecidableEq Addr] in
/-- **`_lookup_vma`** finds the first vma that ends after the address. -/
theorem lookupVma (h : TreeHolds s.vmaTree l)
    (hord : IntervalList.Ordered LibosVma.begin LibosVma.stop (l.map s.vma)) (x : Nat) :
    ∃ l1 l2, l = l1 ++ l2 ∧ (∀ a ∈ l1, (s.vma a).stop ≤ x) ∧ (∀ a ∈ l2, x < (s.vma a).stop) ∧
      lookupVma x s = .ok l2.head? s := by
  obtain ⟨b, hb, rfl⟩ := h.tree
  have hfuel := h.length_lt_fuel.le
  have hord' := IntervalList.Ordered.map_iff.1 hord
  obtain ⟨l1, l2, hl, h1, h2, hfind⟩ := hord'.exists_split x
  refine ⟨l1, l2, hl, h1, h2, ?_⟩
  have hmono : b.inorder.Pairwise fun a c =>
      decide (x < (s.vma a).stop) → decide (x < (s.vma c).stop) := by
    refine hord'.pairwise_hi.imp fun {a c} hac ha => ?_
    simp only [decide_eq_true_eq] at hac ha ⊢
    exact ha.trans_le hac
  rw [Vma.lookupVma, treeLookup, avlTreeLowerBoundFn_spec hb hmono hfuel]
  simp only [Function.comp_apply] at hfind
  simp [hfind]

omit h in
/-- **`avl_tree_insert`** puts a vma in its place between smaller and larger ends. -/
theorem insert (h : TreeHolds s.vmaTree (l1 ++ l2))
    (hord : IntervalList.Ordered LibosVma.begin LibosVma.stop ((l1 ++ l2).map s.vma))
    (ha : a ∉ l1 ++ l2) (h1 : ∀ x ∈ l1, (s.vma x).stop < (s.vma a).stop)
    (h2 : ∀ x ∈ l2, (s.vma a).stop ≤ (s.vma x).stop) :
    ∃ t, treeCall (.insert a) s = .ok ⟨⟩ { s with vmaTree := t } ∧ TreeHolds t (l1 ++ a :: l2) := by
  obtain ⟨b, hb, hl⟩ := h.tree
  have hsorted : b.inorder.Pairwise fun x y => vmaTreeCmp s.vma x y := by
    rw [hl]
    refine (IntervalList.Ordered.map_iff.1 hord).pairwise_hi.imp fun {x y} hxy => ?_
    simpa [vmaTreeCmp] using hxy
  have htrans : ∀ x y z, vmaTreeCmp s.vma x y → vmaTreeCmp s.vma y z → vmaTreeCmp s.vma x z := by
    intro x y z
    simpa [vmaTreeCmp] using Nat.le_trans
  have hfuel : b.inorder.length < s.vmaTree.nodes.length + 1 := hl ▸ h.length_lt_fuel
  obtain ⟨st, b', hrun, hb', k1, k2, hk, hk', hk1, hk2⟩ :=
    avlTreeInsert_spec htrans hb (hl ▸ ha) hsorted hfuel
  obtain ⟨rfl, rfl⟩ := IntervalList.place_unique (fun x => (s.vma x).stop) hl hk h1 h2
    (fun x hx => by simpa [vmaTreeCmp] using hk1 x hx)
    (fun x hx => by simpa [vmaTreeCmp] using hk2 x hx)
  refine ⟨⟨st, a :: s.vmaTree.nodes⟩, by simp [treeCall, AvlTree.exec, hrun], ⟨b', hb', hk'⟩, ?_⟩
  exact perm_middle.trans (h.nodes.cons a)

/-- **`avl_tree_delete`** takes a vma out of the list. -/
theorem delete :
    ∃ t, treeCall (.delete a) s = .ok ⟨⟩ { s with vmaTree := t } ∧ TreeHolds t (l1 ++ l2) := by
  obtain ⟨b, hb, hl⟩ := h.tree
  have hfuel : b.inorder.length ≤ s.vmaTree.nodes.length + 1 := hl ▸ h.length_lt_fuel.le
  obtain ⟨st, b', hrun, hb', k1, k2, hk, hk'⟩ :=
    avlTreeDelete_spec hb (show a ∈ b.inorder by simp [hl]) hfuel
  obtain ⟨rfl, rfl⟩ := split_unique hb.nodup hl hk
  refine ⟨⟨st, s.vmaTree.nodes.erase a⟩, by simp [treeCall, AvlTree.exec, hrun], ⟨b', hb', hk'⟩, ?_⟩
  exact ((perm_middle.erase a).trans (by simp)).symm.trans (h.nodes.erase a)

/-- **`avl_tree_swap_node`** puts a vma with the same end in the place of another. -/
theorem swapNode {c : Addr} (hc : c ∉ l1 ++ a :: l2) (hstop : (s.vma a).stop = (s.vma c).stop) :
    ∃ t, treeCall (.swapNode a c) s = .ok ⟨⟩ { s with vmaTree := t } ∧
      TreeHolds t (l1 ++ c :: l2) := by
  obtain ⟨b, hb, hl⟩ := h.tree
  obtain ⟨ctx, l, bal, r, rfl⟩ :=
    BinaryTree.Ctx.exists_plug (show a ∈ b.inorder by simp [hl])
  have hin : ∀ x, (ctx.plug (.node l x bal r)).inorder =
      (ctx.before ++ l.inorder) ++ x :: (r.inorder ++ ctx.after) := fun x => by
    simp [BinaryTree.Ctx.inorder_plug, BinaryTree.BinTree.inorder]
  obtain ⟨rfl, rfl⟩ := split_unique hb.nodup hl (hin a)
  obtain ⟨st, hrun, hst⟩ := avlTreeSwapNode_spec hb (hl ▸ hc)
    (show vmaTreeCmp s.vma a c ∧ vmaTreeCmp s.vma c a by simp [vmaTreeCmp, hstop])
  refine ⟨⟨st, c :: s.vmaTree.nodes.erase a⟩, by simp [treeCall, AvlTree.exec, hrun],
    ⟨_, hst, hin c⟩, ?_⟩
  refine perm_middle.trans (List.Perm.cons c ?_)
  exact ((perm_middle.erase a).trans (by simp)).symm.trans (h.nodes.erase a)

omit h

omit [DecidableEq Addr] in
theorem linked (h : TreeHolds t l) (ha : a ∈ l) :
    (t.tree.mem a).parent ≠ none ∨ t.tree.root = some a := by
  obtain ⟨b, hb, rfl⟩ := h.tree
  obtain ⟨c, lt, bal, rt, rfl⟩ := BinaryTree.Ctx.exists_plug ha
  have hcell := (holds_iff.2 ⟨hb.repr, hb.nodup⟩).sub.1
  cases c with
  | nil => exact .inr (hb.root.trans rfl)
  | cons f c =>
    rw [hcell]
    exact .inl (by simp)

theorem initNode (h : TreeHolds t l) (ha : a ∉ l) :
    TreeHolds { t with tree.mem := avlTreeInitNode a t.tree.mem } l := by
  obtain ⟨b, hb, rfl⟩ := h.tree
  refine ⟨⟨b, ⟨hb.root, hb.repr.congr fun x hx => ?_, hb.nodup, hb.balanced⟩, rfl⟩, h.nodes⟩
  refine Function.update_of_ne ?_ _ _
  rintro rfl
  exact ha hx

end TreeHolds

end Vma
