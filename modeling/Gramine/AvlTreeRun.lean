import Gramine.AvlTreeLookup

/-!
# Every sequence of calls

The invariant of a tree over whole runs: there is a balanced tree of distinct nodes
in memory, its nodes are those inserted and not deleted, in order. Each legal call
returns, so no assertion fails on the way and no loop runs on.
-/

open BinaryTree List

namespace AvlTree

variable {Addr : Type} [DecidableEq Addr] {t : BinTree Addr}

omit [DecidableEq Addr] in
theorem avlTreeIsBalancedSize_spec {m : Mem Addr} {p : Option Addr} {fuel : Nat} (h : Repr m p t)
    (hb : t.Balanced) (hfuel : t.height ≤ fuel) :
    avlTreeIsBalancedSize m fuel t.root? = some (true, t.height) := by
  induction t generalizing p fuel with
  | nil => cases fuel <;> rfl
  | node l a b r ihl ihr =>
    obtain ⟨ha, hl, hr⟩ := h
    obtain ⟨hbal, h1, h2, hbl, hbr⟩ := hb
    simp only [BinTree.height] at hfuel ⊢
    obtain ⟨fuel, rfl⟩ := Nat.exists_eq_add_one_of_ne_zero (show fuel ≠ 0 by omega)
    rw [BinTree.root?, avlTreeIsBalancedSize, ha]
    simp only [ihl hl hbl (show l.height ≤ fuel by omega),
      ihr hr hbr (show r.height ≤ fuel by omega), Option.bind_eq_bind, Option.bind_some,
      Bool.true_and]
    split_ifs with hlt heq
    · simp only [Option.some.injEq, Prod.mk.injEq,
        Bool.and_eq_true, decide_eq_true_eq]
      omega
    · simp only [Option.some.injEq, Prod.mk.injEq, decide_eq_true_eq]
      omega
    have hle : r.height ≤ l.height := Nat.le_of_not_lt hlt
    simp only [Option.some.injEq, Prod.mk.injEq, Bool.and_eq_true, decide_eq_true_eq]
    omega

omit [DecidableEq Addr] in
theorem debugAvlTreeIsBalanced_spec {st : Store Addr} (h : IsTree st t) {fuel : Nat}
    (hfuel : t.height ≤ fuel) : debugAvlTreeIsBalanced fuel st = some true := by
  simp [debugAvlTreeIsBalanced, h.root, avlTreeIsBalancedSize_spec h.repr h.balanced hfuel]

section Runs
variable {cmp : Addr → Addr → Bool}

/-- The state holds a balanced tree of the given nodes, in order. -/
structure Sorted (cmp : Addr → Addr → Bool) (s : State Addr) (t : BinTree Addr) : Prop where
  tree : IsTree s.tree t
  sorted : t.inorder.Pairwise fun x y => cmp x y
  nodes : t.inorder.Perm s.nodes

omit [DecidableEq Addr] in
/-- A node put in its place keeps the order. -/
theorem Inserted.sorted (htotal : ∀ x y, cmp x y ∨ cmp y x) {a : Addr} {l l' : List Addr}
    (h : Inserted cmp a l l') (hl : l.Pairwise fun x y => cmp x y) :
    l'.Pairwise fun x y => cmp x y := by
  obtain ⟨l1, l2, rfl, rfl, hbefore, hafter⟩ := h
  rw [pairwise_append] at hl ⊢
  refine ⟨hl.1, pairwise_cons.2 ⟨hafter, hl.2.1⟩, fun x hx y hy => ?_⟩
  rcases mem_cons.1 hy with rfl | hy
  · exact (htotal x y).resolve_right (by simp [hbefore x hx])
  · exact hl.2.2 x hx y hy

omit [DecidableEq Addr] in
/-- So does an equal node in the place of another. -/
theorem pairwise_replace (htrans : ∀ x y z, cmp x y → cmp y z → cmp x z) {a b : Addr}
    {l1 l2 : List Addr} (hab : cmp a b) (hba : cmp b a)
    (h : (l1 ++ a :: l2).Pairwise fun x y => cmp x y) :
    (l1 ++ b :: l2).Pairwise fun x y => cmp x y := by
  rw [pairwise_append, pairwise_cons] at h ⊢
  refine ⟨h.1, ⟨fun y hy => htrans _ _ _ hba (h.2.1.1 y hy), h.2.1.2⟩, fun x hx y hy => ?_⟩
  rcases mem_cons.1 hy with rfl | hy
  · exact htrans _ _ _ (h.2.2 x hx a mem_cons_self) hab
  · exact h.2.2 x hx y (mem_cons_of_mem _ hy)

/-- **Each legal call returns**, and keeps the tree. -/
theorem exec_spec (htotal : ∀ x y, cmp x y ∨ cmp y x)
    (htrans : ∀ x y z, cmp x y → cmp y z → cmp x z) {s : State Addr} (h : Sorted cmp s t)
    {c : Call Addr} (hc : Legal cmp s c) : ∃ s' t', exec cmp s c = some s' ∧ Sorted cmp s' t' := by
  have hlen := h.nodes.length_eq
  cases c with
  | insert a =>
    have ha : a ∉ t.inorder := fun hmem => hc (h.nodes.mem_iff.1 hmem)
    obtain ⟨st', t', hrun, htree, hins⟩ := avlTreeInsert_spec htrans h.tree ha h.sorted
      (show t.inorder.length < s.nodes.length + 1 by omega)
    refine ⟨⟨st', a :: s.nodes⟩, t', by simp [exec, hrun], htree, hins.sorted htotal h.sorted, ?_⟩
    obtain ⟨l1, l2, hl, hl', -⟩ := hins
    rw [hl']
    exact perm_middle.trans ((hl ▸ h.nodes).cons a)
  | delete a =>
    obtain ⟨st', t', hrun, htree, l1, l2, hl, hl'⟩ := avlTreeDelete_spec h.tree
      (h.nodes.mem_iff.2 hc) (show t.inorder.length ≤ s.nodes.length + 1 by omega)
    refine ⟨⟨st', s.nodes.erase a⟩, t', by simp [exec, hrun], htree, ?_, ?_⟩
    · rw [hl']
      refine h.sorted.sublist ?_
      rw [hl]
      exact (sublist_cons_self a l2).append_left l1
    · rw [hl']
      refine List.Perm.trans ?_ (h.nodes.erase a)
      rw [hl]
      exact (perm_middle.erase a |>.trans (by simp)).symm
  | swapNode old new =>
    obtain ⟨hold, hnew, hcmp⟩ := hc
    obtain ⟨c, l, b, r, rfl⟩ := Ctx.exists_plug (h.nodes.mem_iff.2 hold)
    obtain ⟨st', hrun, htree⟩ := avlTreeSwapNode_spec h.tree
      (fun hmem => hnew (h.nodes.mem_iff.1 hmem)) hcmp
    have hin : ∀ x, (c.plug (.node l x b r)).inorder =
        (c.before ++ l.inorder) ++ x :: (r.inorder ++ c.after) := fun x => by
      simp [Ctx.inorder_plug, BinTree.inorder]
    refine ⟨⟨st', new :: s.nodes.erase old⟩, _, by simp [exec, hrun], htree, ?_, ?_⟩
    · rw [hin]
      exact pairwise_replace htrans hcmp.1 hcmp.2 (hin old ▸ h.sorted)
    have hperm := (h.nodes.erase old)
    rw [hin] at hperm ⊢
    refine perm_middle.trans (List.Perm.cons new ?_)
    exact ((perm_middle.erase old).trans (by simp)).symm.trans hperm

omit [DecidableEq Addr] in
theorem sorted_initial {s : State Addr} (h : Initial s) : Sorted cmp s .nil := by
  obtain ⟨⟨root, mem⟩, nodes⟩ := s
  obtain ⟨rfl, rfl⟩ := h
  exact ⟨⟨rfl, trivial, nodup_nil, trivial⟩, List.Pairwise.nil, List.Perm.refl _⟩

/-- The tree stays sorted and balanced in every run. -/
theorem reachable_sorted (htotal : ∀ x y, cmp x y ∨ cmp y x)
    (htrans : ∀ x y z, cmp x y → cmp y z → cmp x z) {s : State Addr}
    (hr : Transition.Reachable Initial (Step cmp) s) : ∃ t, Sorted cmp s t := by
  refine hr.invariant (show ∀ s, Initial s → ∃ t, Sorted cmp s t from
    fun s hs => ⟨.nil, sorted_initial hs⟩) ?_
  rintro s c s' ⟨t, ht⟩ ⟨hlegal, hexec⟩
  obtain ⟨s'', t', hexec', ht'⟩ := exec_spec htotal htrans ht hlegal
  rw [hexec] at hexec'
  exact ⟨t', Option.some.inj hexec' ▸ ht'⟩

/-- **The AVL tree is correct**, for every comparison that is a total preorder and
every sequence of calls: the memory holds a tree of exactly the nodes inserted and
not deleted, once each and in order, with the links of parents and children in
agreement, no parent at the root and the right balances, which the debug check confirms; and
each further call returns, without a failed assertion. -/
theorem tree_correct (htotal : ∀ x y, cmp x y ∨ cmp y x)
    (htrans : ∀ x y z, cmp x y → cmp y z → cmp x z) {s : State Addr}
    (hr : Transition.Reachable Initial (Step cmp) s) :
    (∃ t : BinTree Addr, s.tree.root = t.root? ∧ Repr s.tree.mem none t ∧
      t.inorder.Pairwise (fun x y => cmp x y) ∧ t.inorder.Nodup ∧ t.inorder.Perm s.nodes ∧
      t.Balanced) ∧
    debugAvlTreeIsBalanced s.nodes.length s.tree = some true ∧
    ∀ c, Legal cmp s c → ∃ s', exec cmp s c = some s' := by
  obtain ⟨t, ht⟩ := reachable_sorted htotal htrans hr
  refine ⟨⟨t, ht.tree.root, ht.tree.repr, ht.sorted, ht.tree.nodup, ht.nodes, ht.tree.balanced⟩,
    debugAvlTreeIsBalanced_spec ht.tree (ht.nodes.length_eq ▸ t.height_le_length_inorder), ?_⟩
  intro c hc
  obtain ⟨s', -, hexec, -⟩ := exec_spec htotal htrans ht hc
  exact ⟨s', hexec⟩

/-- Three nodes inserted in order are rotated, and the new root can be deleted. -/
theorem tree_correct_rotated : ∃ s : State Nat, s.nodes = [3, 1] ∧
    ∃ t : BinTree Nat, s.tree.root = t.root? ∧ Repr s.tree.mem none t ∧
      t.inorder.Pairwise (fun x y => Nat.ble x y) ∧ t.inorder.Nodup ∧ t.inorder.Perm s.nodes ∧
      t.Balanced :=
  ⟨_, rfl, (@tree_correct Nat _ Nat.ble (fun x y => by simpa using Nat.le_total x y)
    (fun x y z => by simpa using Nat.le_trans) _
    (.step (.delete 2)
      (.step (.insert 3)
        (.step (.insert 2)
          (.step (.insert 1) (.init (s := ⟨⟨none, fun _ => ⟨none, none, none, 0⟩⟩, []⟩) ⟨rfl, rfl⟩)
            ⟨by simp [Legal], rfl⟩)
          ⟨by simp [Legal], rfl⟩)
        ⟨by simp [Legal], rfl⟩)
      ⟨by simp [Legal], rfl⟩)).1⟩

/-! ## Loops over the tree -/

/-- The nodes that a loop with `avl_tree_next` visits from a node on; `n` bounds its rounds, `fuel`
those of `avl_tree_next`. -/
def visits (fuel : Nat) (m : Mem Addr) : Nat → Option Addr → Option (List Addr)
  | _, none => some []
  | 0, some _ => none
  | n + 1, some a => do
    let next ← avlTreeNext fuel m a
    let rest ← visits fuel m n next
    some (a :: rest)

theorem visits_suffix {st : Store Addr} {l1 l2 : List Addr} {fuel n : Nat} (h : IsTree st t)
    (hl : t.inorder = l1 ++ l2) (hfuel : t.inorder.length < fuel) (hn : l2.length ≤ n) :
    visits fuel st.mem n l2.head? = some l2 := by
  induction l2 generalizing l1 n with
  | nil => cases n <;> rfl
  | cons a l2 ih =>
    obtain ⟨n, rfl⟩ := Nat.exists_eq_add_one_of_ne_zero (show n ≠ 0 by grind)
    have hnext : avlTreeNext fuel st.mem a = some l2.head? := neighbour_spec h hl hfuel
    have hrest := ih (show t.inorder = (l1 ++ [a]) ++ l2 by simp [hl]) (Nat.le_of_succ_le_succ hn)
    simp [visits, hnext, hrest]

section
variable (htotal : ∀ x y, cmp x y ∨ cmp y x) (htrans : ∀ x y z, cmp x y → cmp y z → cmp x z)
  {s : State Addr} (hr : Transition.Reachable Initial (Step cmp) s)
include htotal htrans hr

/-- **A loop from `avl_tree_first` by `avl_tree_next` visits every node once, in order.** -/
theorem loop_visits_all : ∃ first l, avlTreeFirst s.nodes.length s.tree = some first ∧
    visits (s.nodes.length + 1) s.tree.mem s.nodes.length first = some l ∧
    l.Perm s.nodes ∧ l.Nodup ∧ l.Pairwise fun x y => cmp x y := by
  obtain ⟨t, ht⟩ := reachable_sorted htotal htrans hr
  have hlen := ht.nodes.length_eq
  refine ⟨_, _, outermost_spec ht.tree hlen.le, ?_, ht.nodes, ht.tree.nodup, ht.sorted⟩
  exact visits_suffix ht.tree (show t.inorder = [] ++ _ from rfl) (by omega) hlen.le

/-- **`avl_tree_lower_bound_fn` finds the least node that is not below the bound**, if there is
one. -/
theorem lowerBound_least {below : Addr → Bool} (hmono : ∀ x y, cmp x y → below x → below y) :
    ∃ ret, avlTreeLowerBoundFn s.nodes.length below s.tree = some ret ∧
      (ret = none → ∀ b ∈ s.nodes, ¬ below b) ∧
      ∀ a, ret = some a → a ∈ s.nodes ∧ below a ∧ ∀ b ∈ s.nodes, below b → cmp a b := by
  obtain ⟨t, ht⟩ := reachable_sorted htotal htrans hr
  have hpairs : t.inorder.Pairwise fun a b => below a → below b :=
    ht.sorted.imp fun {x y} hxy => hmono x y hxy
  refine ⟨_, avlTreeLowerBoundFn_spec ht.tree hpairs ht.nodes.length_eq.le, ?_, ?_⟩
  · intro hnone b hb
    exact find?_eq_none.1 hnone b (ht.nodes.mem_iff.2 hb)
  · intro a ha
    obtain ⟨hbelow, l1, l2, hin, hl1⟩ := find?_eq_some_iff_append.1 ha
    refine ⟨ht.nodes.mem_iff.1 (mem_of_find?_eq_some ha), hbelow, fun b hb hbb => ?_⟩
    have hsorted := hin ▸ ht.sorted
    rw [← ht.nodes.mem_iff, hin] at hb
    rcases mem_append.1 hb with hb | hb
    · simpa [hbb] using hl1 b hb
    · rcases mem_cons.1 hb with rfl | hb
      · simpa using htotal b b
      · exact (pairwise_cons.1 (pairwise_append.1 hsorted).2.1).1 b hb

end

theorem two_inserted : ∃ s : State Nat, s.nodes = [1, 2] ∧
    Transition.Reachable Initial (Step Nat.ble) s :=
  ⟨_, rfl, .step (.insert 1)
    (.step (.insert 2) (.init (s := ⟨⟨none, fun _ => ⟨none, none, none, 0⟩⟩, []⟩) ⟨rfl, rfl⟩)
      ⟨by simp [Legal], rfl⟩) ⟨by simp [Legal], rfl⟩⟩

theorem loop_visits_two : ∃ s : State Nat, s.nodes = [1, 2] ∧ ∃ first l,
    visits 3 s.tree.mem 2 first = some l ∧ l.Perm [1, 2] ∧ l.Pairwise fun x y => Nat.ble x y := by
  obtain ⟨s, hs, hr⟩ := two_inserted
  obtain ⟨first, l, -, hl, hperm, -, hsorted⟩ := loop_visits_all
    (fun x y => by simpa using Nat.le_total x y) (fun x y z => by simpa using Nat.le_trans) hr
  exact ⟨s, hs, first, l, by simpa [hs] using hl, hs ▸ hperm, hsorted⟩

theorem lowerBound_two : ∃ (s : State Nat) (ret : Option Nat), s.nodes = [1, 2] ∧
    avlTreeLowerBoundFn 2 (Nat.ble 2) s.tree = some ret ∧ ret ≠ none := by
  obtain ⟨s, hs, hr⟩ := two_inserted
  obtain ⟨ret, hret, hnone, -⟩ := lowerBound_least
    (fun x y => by simpa using Nat.le_total x y) (fun x y z => by simpa using Nat.le_trans) hr
    (show ∀ x y, Nat.ble x y → Nat.ble 2 x → Nat.ble 2 y from
      fun x y => by simpa using fun h h' => Nat.le_trans h' h)
  exact ⟨s, ret, hs, by simpa [hs] using hret, fun h => hnone h 2 (by simp [hs]) rfl⟩

end Runs

end AvlTree
