import Gramine.AvlTreeDelete

/-!
# Traversal and lookup

The functions that read a tree, in terms of the order of its nodes: the first and
the last node, the neighbours of a node, and the first node that is not below a
bound.
-/

open BinaryTree List

namespace AvlTree

open BinTree

variable {Addr : Type}

/-- The end of a list on a side. -/
def endOn : Side → List Addr → Option Addr
  | .left, l => l.head?
  | .right, l => l.getLast?

/-- What comes next on a side, between the two parts of a list. -/
def nextOn : Side → List Addr → List Addr → Option Addr
  | .left, l, _ => l.getLast?
  | .right, _, l => l.head?

variable {t : BinTree Addr} {fuel : Nat}

theorem descend_end {s : Side} {m : Mem Addr} {p : Option Addr} {a : Addr} (h : Repr m p t)
    (ha : t.root? = some a) (hfuel : t.height ≤ fuel) :
    ∃ x, descend s m fuel a = some x ∧ endOn s t.inorder = some x := by
  obtain ⟨d, x, b, u, hdesc, rfl, hd⟩ := descend_spec (s := s) h ha hfuel
  refine ⟨x, hdesc, ?_⟩
  rw [Ctx.inorder_plug]
  cases s with
  | left =>
    have hbefore := Ctx.before_append hd []
    rw [append_nil] at hbefore
    simp [hbefore, Ctx.before, endOn, branch, inorder]
  | right =>
    have hafter := Ctx.after_right hd
    simp [hafter, endOn, branch, inorder]

variable {st : Store Addr}

theorem outermost_spec {s : Side} (h : IsTree st t) (hfuel : t.inorder.length ≤ fuel) :
    outermost s fuel st = some (endOn s t.inorder) := by
  unfold outermost
  cases hroot : t.root? with
  | none =>
    obtain rfl := eq_nil_of_root? hroot
    cases s <;> simp [h.root, hroot, endOn, inorder]
  | some a =>
    obtain ⟨x, hdesc, hend⟩ := descend_end (s := s) h.repr hroot
      (Nat.le_trans t.height_le_length_inorder hfuel)
    simp [h.root, hroot, hdesc, hend]

/-! ## Neighbours -/

section Neighbours
variable {m : Mem Addr} {c : Ctx Addr}

theorem split_unique {a : Addr} {l l1 l2 l1' l2' : List Addr} (hl : l.Nodup)
    (h : l = l1 ++ a :: l2) (h' : l = l1' ++ a :: l2') : l1 = l1' ∧ l2 = l2' := by
  rw [h, nodup_middle, nodup_cons, mem_append, not_or] at hl
  obtain ⟨h1, -, h2⟩ := (append_cons_inj_of_notMem hl.1.1 hl.1.2).1 (h.symm.trans h')
  exact ⟨h1, h2⟩

variable [DecidableEq Addr]

theorem climb_spec {s : Side} {t : BinTree Addr} {a : Addr} {fuel : Nat} (h : Holds m c t)
    (ha : t.root? = some a) (hfuel : c.length < fuel) :
    climb s m fuel a = some (nextOn s c.before c.after) := by
  induction c generalizing t a fuel with
  | nil =>
    obtain ⟨fuel, rfl⟩ := Nat.exists_eq_add_one_of_ne_zero (show fuel ≠ 0 by omega)
    rw [climb, h.parent ha]
    cases s <;> rfl
  | cons f c ih =>
    obtain ⟨fuel, rfl⟩ := Nat.exists_eq_add_one_of_ne_zero (show fuel ≠ 0 by omega)
    have hf : m f.a = cell f.side (some a) f.sibling.root? (Ctx.parent? c) f.b := ha ▸ h.ctx.1
    rw [climb, h.parent ha]
    simp only [Ctx.parent?_cons]
    have hne : f.sibling.root? ≠ some a := by
      intro hsib
      have hnd := h.nodup
      simp only [Ctx.addrs, nodup_append', disjoint_cons_right] at hnd
      exact (disjoint_append_right.1 hnd.2.2.2).1 (mem_inorder_of_root? ha)
        (mem_inorder_of_root? hsib)
    by_cases hs : f.side = s
    · subst hs
      rw [if_pos (by rw [hf, cell_child]),
        ih (holds_cons.1 h) (root?_branch ..) (Nat.lt_of_succ_lt_succ hfuel)]
      obtain ⟨s, x, b, u⟩ := f
      cases s <;> rfl
    · have hside : s = f.side.other := by
        cases s <;> cases hfs : f.side <;> simp_all [Side.other]
      rw [if_neg (by rwa [hf, hside, cell_child_other])]
      obtain ⟨s', x, b, u⟩ := f
      subst hside
      cases s' <;> simp [Side.other, nextOn, Ctx.before, Ctx.after]

/-- **`avl_tree_next` and `avl_tree_prev`** return the nodes beside a node. -/
theorem neighbour_spec {s : Side} {t : BinTree Addr} {l1 l2 : List Addr} {a : Addr} {fuel : Nat}
    (h : IsTree st t) (hl : t.inorder = l1 ++ a :: l2) (hfuel : t.inorder.length < fuel) :
    neighbour s fuel st.mem a = some (nextOn s l1 l2) := by
  obtain ⟨c, l, b, r, rfl⟩ := Ctx.exists_plug (show a ∈ t.inorder by simp [hl])
  have hholds := holds_iff.2 ⟨h.repr, h.nodup⟩
  have hcell := hholds.sub.1
  have hlen := Ctx.length_le_inorder_plug c (.node l a b r)
  have hin : (c.plug (.node l a b r)).inorder =
      (c.before ++ l.inorder) ++ a :: (r.inorder ++ c.after) := by
    simp [Ctx.inorder_plug, inorder]
  obtain ⟨rfl, rfl⟩ := split_unique h.nodup hin hl
  have hclimb := climb_spec (s := s) hholds rfl (Nat.lt_of_le_of_lt hlen hfuel)
  have hheight : ∀ u ∈ [l, r], u.height ≤ fuel := by
    intro u hu
    have := u.height_le_length_inorder
    simp only [hin, length_append, length_cons] at hfuel
    simp only [mem_cons, not_mem_nil, or_false] at hu
    rcases hu with rfl | rfl <;> omega
  unfold neighbour
  rw [hcell]
  cases s with
  | left =>
    cases hroot : l.root? with
    | none =>
      obtain rfl := eq_nil_of_root? hroot
      simpa [AvlTreeNode.child, hroot, inorder, nextOn] using hclimb
    | some x =>
      obtain ⟨y, hdesc, hend⟩ := descend_end (s := .right) hholds.sub.2.1 hroot
        (hheight l (by simp))
      simp only [endOn] at hend
      simp [AvlTreeNode.child, Side.other, hdesc, nextOn, hend]
  | right =>
    cases hroot : r.root? with
    | none =>
      obtain rfl := eq_nil_of_root? hroot
      simpa [AvlTreeNode.child, hroot, inorder, nextOn] using hclimb
    | some x =>
      obtain ⟨y, hdesc, hend⟩ := descend_end (s := .left) hholds.sub.2.2 hroot (hheight r (by simp))
      simp only [endOn] at hend
      simp [AvlTreeNode.child, Side.other, hdesc, nextOn, hend]

end Neighbours

/-! ## Lower bounds -/

/-- In an order where what is below the bound comes first, the search finds the first
node that is not. -/
theorem lowerBoundLoop_spec {below : Addr → Bool} {m : Mem Addr} {p : Option Addr}
    {ret : Option Addr} (h : Repr m p t) (hmono : t.inorder.Pairwise fun a b => below a → below b)
    (hfuel : t.height ≤ fuel) :
    lowerBoundLoop below m fuel t.root? ret = some ((t.inorder.find? below).or ret) := by
  induction t generalizing p ret fuel with
  | nil => cases fuel <;> rfl
  | node l a b r ihl ihr =>
    obtain ⟨ha, hl, hr⟩ := h
    simp only [BinTree.height] at hfuel
    obtain ⟨fuel, rfl⟩ := Nat.exists_eq_add_one_of_ne_zero (show fuel ≠ 0 by omega)
    simp only [inorder, pairwise_append, pairwise_cons] at hmono
    obtain ⟨hml, ⟨hmar, hmr⟩, hmla⟩ := hmono
    rw [root?, lowerBoundLoop, ha]
    by_cases hbelow : below a
    · rw [ihl hl hml (by omega)]
      simp [inorder, hbelow]
    rw [ihr hr hmr (by omega)]
    have hleft : l.inorder.find? below = none := by
      rw [find?_eq_none]
      intro x hx hbx
      exact hbelow (hmla x hx a mem_cons_self hbx)
    simp [inorder, hbelow, hleft]

/-- **`avl_tree_lower_bound_fn`** returns the first node that is not below the bound. -/
theorem avlTreeLowerBoundFn_spec {below : Addr → Bool} (h : IsTree st t)
    (hmono : t.inorder.Pairwise fun a b => below a → below b) (hfuel : t.inorder.length ≤ fuel) :
    avlTreeLowerBoundFn fuel below st = some (t.inorder.find? below) := by
  rw [avlTreeLowerBoundFn, h.root, lowerBoundLoop_spec h.repr hmono
    (Nat.le_trans t.height_le_length_inorder hfuel), Option.or_none]

end AvlTree
