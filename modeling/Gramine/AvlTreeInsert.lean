import Gramine.AvlTreeBalance

/-!
# Insertion and replacement

`avl_tree_insert` descends to a free place, attaches the node there as a leaf and
rebalances; `avl_tree_swap_node` puts a node in the place of an equal one. Both
are described by the order of the nodes: the new node stands between the nodes it is
not below (`cmp` false) and those it is below.
-/

open BinaryTree List

namespace AvlTree

open BinTree Ctx

variable {Addr : Type}

/-- The store holds the balanced tree `t`. -/
structure IsTree (st : Store Addr) (t : BinTree Addr) : Prop where
  root : st.root = t.root?
  repr : Repr st.mem none t
  nodup : t.inorder.Nodup
  balanced : t.Balanced

variable {t : BinTree Addr}

theorem holds_iff {m : Mem Addr} {c : Ctx Addr} :
    Holds m c t ↔ Repr m none (c.plug t) ∧ (c.plug t).inorder.Nodup := by
  rw [repr_plug, (inorder_plug_perm c t).nodup_iff]
  exact ⟨fun h => ⟨⟨h.ctx, h.sub⟩, h.nodup⟩, fun h => ⟨h.1.1, h.1.2, h.2⟩⟩

variable [DecidableEq Addr] {m : Mem Addr} {c : Ctx Addr}

/-- The tree with one node. -/
def leaf (a : Addr) : BinTree Addr := .node .nil a 0 .nil

omit [DecidableEq Addr] in
/-- Where balancing has stopped, the root pointer is updated if it stopped at the top. -/
theorem Stopped.isTree {t' : BinTree Addr} {a : Addr} {m' : Mem Addr} {c' : Ctx Addr}
    (h : Stopped m c t a m' c' t') :
    IsTree ⟨if (m' a).parent = none then some a else (c.plug t).root?, m'⟩ (c'.plug t') := by
  obtain ⟨hrepr, hnd⟩ := holds_iff.1 h.holds
  refine ⟨?_, hrepr, hnd, h.balanced⟩
  rw [h.holds.parent h.root]
  cases c' with
  | nil => simpa [plug] using h.root.symm
  | cons f c' => simpa using (h.top (cons_ne_nil _ _)).symm

/-! ## Attaching a leaf -/

theorem Holds.attach {f : Frame Addr} {a : Addr} (h : Holds m (f :: c) .nil)
    (ha : a ∉ addrs (f :: c)) (hm : m a = ⟨none, none, none, 0⟩) :
    Holds ((m.setChild f.side f.a (some a)).setParent a (some f.a)) (f :: c) (leaf a) := by
  obtain ⟨⟨hf, hsib, hup⟩, -, hnd⟩ := h
  simp only [inorder, nil_append, addrs, nodup_cons, mem_append, not_or, mem_cons] at hnd ha
  have hother : ∀ x, x ≠ f.a → x ≠ a →
      (m.setChild f.side f.a (some a)).setParent a (some f.a) x = m x := fun x h1 h2 => by
    simp [h1, h2]
  refine ⟨⟨?_, hsib.congr fun x hx => hother x ?_ ?_, hup.congr fun x hx => hother x ?_ ?_⟩, ?_, ?_⟩
  · simp [Ne.symm ha.1, hf, leaf, root?]
  · rintro rfl; exact hnd.1.1 hx
  · rintro rfl; exact ha.2.1 hx
  · rintro rfl; exact hnd.1.2 hx
  · rintro rfl; exact ha.2.2 hx
  · simp [leaf, Repr, root?, ha.1, hm]
  · simp only [leaf, inorder, nil_append, addrs, cons_append, nodup_cons,
      mem_cons, mem_append, not_or]
    exact ⟨ha, hnd⟩

/-! ## The descent -/

section Descent
variable {cmp : Addr → Addr → Bool}

/-- The place of `a`: it is below nothing before it, and below everything after. -/
def Place (cmp : Addr → Addr → Bool) (a : Addr) (l1 l2 : List Addr) : Prop :=
  (∀ x ∈ l1, cmp a x = false) ∧ ∀ x ∈ l2, cmp a x = true

omit [DecidableEq Addr] in
theorem Place.turn {a x : Addr} {l r : BinTree Addr} {b : Int} {s : Side}
    (htrans : ∀ x y z, cmp x y → cmp y z → cmp x z)
    (hsorted : (node l x b r).inorder.Pairwise fun x y => cmp x y)
    (hplace : Place cmp a c.before c.after) (hs : s = if cmp a x then .left else .right) :
    ∃ near far, node l x b r = .branch s near x b far ∧ near ∈ [l, r] ∧
      Place cmp a (Ctx.before (⟨s, x, b, far⟩ :: c)) (Ctx.after (⟨s, x, b, far⟩ :: c)) := by
  simp only [inorder, pairwise_append, pairwise_cons, mem_cons] at hsorted
  obtain ⟨-, ⟨hxr, -⟩, hl⟩ := hsorted
  obtain ⟨hbefore, hafter⟩ := hplace
  by_cases hax : cmp a x
  · rw [if_pos hax] at hs
    subst hs
    refine ⟨l, r, rfl, by simp, hbefore, ?_⟩
    intro y hy
    simp only [Ctx.after, cons_append, mem_cons, mem_append] at hy
    rcases hy with rfl | hy | hy
    · exact hax
    · exact htrans _ _ _ hax (hxr y hy)
    · exact hafter y hy
  · rw [if_neg hax] at hs
    subst hs
    refine ⟨r, l, rfl, by simp, ?_, hafter⟩
    intro y hy
    simp only [Ctx.before, append_assoc, mem_append, mem_singleton] at hy
    rcases hy with hy | hy | rfl
    · exact hbefore y hy
    · exact Bool.eq_false_iff.2 fun hay => hax (htrans _ _ _ hay (hl y hy x (.inl rfl)))
    · exact Bool.eq_false_iff.2 hax

/-- **The descent ends at a free place in order**, with the node attached there. -/
theorem avlTreeInsertUnbalanced_spec {a : Addr} {n : Addr} {fuel : Nat}
    (htrans : ∀ x y z, cmp x y → cmp y z → cmp x z) (h : Holds m c t) (hn : t.root? = some n)
    (ha : a ∉ (c.plug t).inorder) (hm : m a = ⟨none, none, none, 0⟩)
    (hsorted : t.inorder.Pairwise fun x y => cmp x y) (hplace : Place cmp a c.before c.after)
    (hfuel : t.inorder.length ≤ fuel) :
    ∃ m' f c', avlTreeInsertUnbalanced cmp a fuel n m = some m' ∧
      plug (f :: c') .nil = c.plug t ∧ Holds m' (f :: c') (leaf a) ∧
      Place cmp a (Ctx.before (f :: c')) (Ctx.after (f :: c')) ∧
      ∀ x ∉ a :: (c.plug t).inorder, m' x = m x := by
  induction t generalizing c n fuel with
  | nil => cases hn
  | node l x b r ihl ihr =>
    obtain rfl := Option.some.inj hn
    have hlen : (node l x b r).inorder.length = l.inorder.length + r.inorder.length + 1 := by
      simp [inorder, Nat.add_assoc]
    obtain ⟨fuel, rfl⟩ := Nat.exists_eq_add_one_of_ne_zero (show fuel ≠ 0 by omega)
    obtain ⟨near, far, htree, hnear, hplace'⟩ := hplace.turn htrans hsorted rfl
    generalize hs : (if cmp a x then Side.left else Side.right) = s at *
    have hcell : (m x).child s = near.root? := by
      rw [htree] at h
      rw [(repr_branch.1 h.sub).1, cell_child]
    have hplug : plug (⟨s, x, b, far⟩ :: c) near = c.plug (.node l x b r) := by
      rw [htree]
      rfl
    have hholds : Holds m (⟨s, x, b, far⟩ :: c) near := holds_iff.2 (hplug ▸ holds_iff.1 h)
    rw [avlTreeInsertUnbalanced]
    simp only [hs, hcell]
    cases hroot : near.root? with
    | none =>
      obtain rfl := eq_nil_of_root? hroot
      have hna : a ∉ addrs (⟨s, x, b, far⟩ :: c) := fun hmem =>
        ha (hplug ▸ (inorder_plug_perm _ _).mem_iff.2 (by simpa [inorder] using hmem))
      refine ⟨_, ⟨s, x, b, far⟩, c, rfl, hplug, hholds.attach hna hm, hplace', fun y hy => ?_⟩
      simp only [mem_cons, not_or] at hy
      have hyx : y ≠ x := by
        rintro rfl
        exact hy.2 ((inorder_plug_perm _ _).mem_iff.2 (by simp [inorder]))
      simp [hy.1, hyx]
    | some n =>
      have hlt : near.inorder.length ≤ fuel := by
        simp only [mem_cons, not_mem_nil, or_false] at hnear
        rcases hnear with rfl | rfl <;> omega
      have hsub : near.inorder.Pairwise fun x y => cmp x y := by
        simp only [inorder, pairwise_append, pairwise_cons] at hsorted
        simp only [mem_cons, not_mem_nil, or_false] at hnear
        rcases hnear with rfl | rfl
        · exact hsorted.1
        · exact hsorted.2.1.2
      have ih : ∃ m' f c', avlTreeInsertUnbalanced cmp a fuel n m = some m' ∧
          plug (f :: c') .nil = plug (⟨s, x, b, far⟩ :: c) near ∧
          Holds m' (f :: c') (leaf a) ∧
          Place cmp a (Ctx.before (f :: c')) (Ctx.after (f :: c')) ∧
          ∀ y ∉ a :: (plug (⟨s, x, b, far⟩ :: c) near).inorder, m' y = m y := by
        simp only [mem_cons, not_mem_nil, or_false] at hnear
        rcases hnear with rfl | rfl
        · exact ihl hholds hroot (by rwa [hplug]) hsub hplace' hlt
        · exact ihr hholds hroot (by rwa [hplug]) hsub hplace' hlt
      rwa [hplug] at ih

/-- The order of the nodes after a new one has been put in its place. -/
def Inserted (cmp : Addr → Addr → Bool) (a : Addr) (l l' : List Addr) : Prop :=
  ∃ l1 l2, l = l1 ++ l2 ∧ l' = l1 ++ a :: l2 ∧ Place cmp a l1 l2

/-- **`avl_tree_insert`** returns, and the tree is balanced and has the new node in
its place. -/
theorem avlTreeInsert_spec {st : Store Addr} {a : Addr} {fuel : Nat}
    (htrans : ∀ x y z, cmp x y → cmp y z → cmp x z) (h : IsTree st t) (ha : a ∉ t.inorder)
    (hsorted : t.inorder.Pairwise fun x y => cmp x y) (hfuel : t.inorder.length < fuel) :
    ∃ st' t', avlTreeInsert fuel cmp st a = some st' ∧ IsTree st' t' ∧
      Inserted cmp a t.inorder t'.inorder := by
  obtain ⟨root, mem⟩ := st
  obtain ⟨hroot, hrepr, hnd, hbal⟩ := h
  subst hroot
  have hinit : ∀ x, x ≠ a → avlTreeInitNode a mem x = mem x := fun x hx =>
    Function.update_of_ne hx _ _
  have hnew : avlTreeInitNode a mem a = ⟨none, none, none, 0⟩ := Function.update_self ..
  unfold avlTreeInsert
  cases hr : t.root? with
  | none =>
    obtain rfl := eq_nil_of_root? hr
    refine ⟨_, leaf a, rfl, ⟨rfl, ⟨hnew, trivial, trivial⟩, ?_, ?_⟩, [], [], rfl, rfl, ?_⟩
    · simp [leaf, inorder]
    · simp [leaf, BinTree.Balanced]
    · simp [Place]
  | some n =>
    have hholds : Holds (avlTreeInitNode a mem) [] t := by
      refine holds_iff.2 ⟨hrepr.congr fun x hx => hinit x ?_, hnd⟩
      rintro rfl
      exact ha hx
    obtain ⟨m1, f, c', hdesc, hplug, hleaf, hplace, -⟩ := avlTreeInsertUnbalanced_spec htrans hholds
      hr ha hnew hsorted (by simp [Place, Ctx.before, Ctx.after]) (Nat.le_of_lt hfuel)
    rw [plug] at hplug
    have hfit : Ctx.Fits (f :: c') 0 := ((balanced_plug (f :: c') .nil).1 (hplug ▸ hbal)).2
    have hlen := length_le_inorder_plug (f :: c') .nil
    rw [hplug, length_cons] at hlen
    obtain ⟨a', m2, c2, t2, hbalance, hstop⟩ := avlTreeBalance_spec hleaf hfit
      (by simp [leaf, BinTree.Balanced])
      (show Changed true 0 (leaf a).height from rfl)
      (fun _ => .inl rfl) (show c'.length < fuel by omega)
    have htree := hstop.isTree
    rw [root?_plug (cons_ne_nil f c') (leaf a) .nil, hplug, hr] at htree
    refine ⟨_, _, ?_, htree, Ctx.before (f :: c'), Ctx.after (f :: c'), ?_, ?_, hplace⟩
    · simp [hdesc, hleaf.parent rfl, sideOf_spec hleaf rfl, hbalance]
    · rw [← hplug, inorder_plug]
      simp [inorder]
    · rw [hstop.inorder, inorder_plug]
      simp [leaf, inorder]

end Descent

/-! ## Replacement -/

/-- **`avl_tree_swap_node`** puts the new node in the place of the old one. -/
theorem avlTreeSwapNode_spec {cmp : Addr → Addr → Bool} {st : Store Addr} {l r : BinTree Addr}
    {old new : Addr} {b : Int} (h : IsTree st (c.plug (.node l old b r)))
    (hnew : new ∉ (c.plug (.node l old b r)).inorder) (hcmp : cmp old new ∧ cmp new old) :
    ∃ st', avlTreeSwapNode cmp st old new = some st' ∧ IsTree st' (c.plug (.node l new b r)) := by
  obtain ⟨root, m⟩ := st
  obtain ⟨hroot, hrepr, hnd, hbal⟩ := h
  simp only at hroot hrepr
  obtain ⟨hctx, hsub, hnd'⟩ := holds_iff.2 ⟨hrepr, hnd⟩
  obtain ⟨hold, hl, hr⟩ := hsub
  rw [(inorder_plug_perm _ _).mem_iff] at hnew
  simp only [inorder, mem_append, not_or] at hnew hnd'
  have hinit : ∀ x, x ≠ new → avlTreeInitNode new m x = m x := fun x hx =>
    Function.update_of_ne hx _ _
  have hctx0 : ReprCtx (avlTreeInitNode new m) c (some old) :=
    hctx.congr fun x hx => hinit x (by grind)
  obtain ⟨m1, hfix, hctx1, hm1⟩ := fixupLink_spec (some new) hctx0 (by grind) (by grind)
    (by simpa using hnew.2)
  have hnew1 : m1 new = ⟨none, none, c.parent?, 0⟩ := by
    simp [hm1 new hnew.2, linkParent_apply, avlTreeInitNode]
  have hother : ∀ x, x ∉ c.addrs → x ≠ new → m1 x = m x := fun x hx hxn => by
    rw [hm1 x hx, linkParent_some _ _ _ hxn, hinit x hxn]
  have hold1 : m1 old = ⟨l.root?, r.root?, c.parent?, b⟩ := by
    rw [hother old (by grind) (by grind), hold]
  have hno : new ≠ old := by grind
  have hll := fun (m : Mem Addr) x (h : x ∉ l.inorder) => linkParent_of_notMem m x (some new) h
  have hrl := fun (m : Mem Addr) x (h : x ∉ r.inorder) => linkParent_of_notMem m x (some new) h
  have hparent : (avlTreeInitNode new m old).parent = c.parent? := by
    rw [hinit old hno.symm, hold]
  -- the memory with all links set
  have hrun : avlTreeSwapNode cmp ⟨root, m⟩ old new = some
      ⟨if root = some old then some new else root,
        ((((m1.setChild .left new l.root?).linkParent l.root? (some new)).setChild .right new
          r.root?).linkParent r.root? (some new)).setBalance new b⟩ := by
    simp only [avlTreeSwapNode, hcmp, hparent, hfix]
    simp [hno.symm, hold1, hll _ old (by grind), hrl _ old (by grind), AvlTreeNode.setChild]
  refine ⟨_, hrun, ?_⟩
  generalize hm' : ((((m1.setChild .left new l.root?).linkParent l.root? (some new)).setChild .right
    new r.root?).linkParent r.root? (some new)).setBalance new b = m'
  have hnew' : m' new = ⟨l.root?, r.root?, c.parent?, b⟩ := by
    simp [← hm', hnew1, hll _ new (by grind), hrl _ new (by grind), AvlTreeNode.setChild]
  have hx : ∀ x, x ≠ new →
      m' x = (m1.linkParent l.root? (some new)).linkParent r.root? (some new) x := fun x hx => by
    simp [← hm', linkParent_apply, hx]
  have hplain : ∀ x, x ≠ new → x ∉ l.inorder → x ∉ r.inorder → m' x = m1 x := fun x h1 h2 h3 => by
    rw [hx x h1, hrl _ x h3, hll _ x h2]
  have hholds : Holds m' c (.node l new b r) := by
    refine ⟨hctx1.congr fun x hxc => hplain x (by grind) (by grind) (by grind),
      ⟨hnew', (hl.linkParent (by grind) _).congr fun x hxl => ?_,
        (hr.linkParent (by grind) _).congr fun x hxr => ?_⟩, ?_⟩
    · rw [hx x (by grind), hrl _ x (by grind)]
      exact linkParent_congr (hother x (by grind) (by grind)) _ _
    · rw [hx x (by grind)]
      refine linkParent_congr ?_ _ _
      rw [hll _ x (by grind), hother x (by grind) (by grind)]
    · simp only [inorder]
      grind
  obtain ⟨hrepr', hndp⟩ := holds_iff.1 hholds
  refine ⟨?_, hrepr', hndp, ?_⟩
  · rw [hroot]
    exact root?_replace rfl rfl (by grind)
  · rw [balanced_plug] at hbal ⊢
    exact hbal

end AvlTree
