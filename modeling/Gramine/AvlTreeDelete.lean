import Gramine.AvlTreeInsert

/-!
# Deletion

A node with two children changes places with the next one, the leftmost node of
its right subtree, and is unlinked from there. The exchange keeps the shape of
the tree and the balance of each place, so only the order of these two nodes is
disturbed, and unlinking one of them restores it.
-/

open BinaryTree List

namespace AvlTree

open BinTree AvlTreeNode Ctx

variable {Addr : Type} {m : Mem Addr} {c : Ctx Addr}

/-! ## The next node -/

variable {fuel : Nat}

theorem descend_spec {s : Side} {t : BinTree Addr} {p : Option Addr} {a : Addr} (h : Repr m p t)
    (ha : t.root? = some a) (hfuel : t.height ≤ fuel) :
    ∃ d x b u, descend s m fuel a = some x ∧ t = plug d (.branch s .nil x b u) ∧
      ∀ f ∈ d, f.side = s := by
  induction fuel generalizing t p a with
  | zero =>
    cases t with
    | nil => cases ha
    | node => simp [BinTree.height] at hfuel
  | succ fuel ih =>
    have hpos : 0 < t.height := by
      cases t with
      | nil => cases ha
      | node => simp [BinTree.height]
    obtain ⟨near, x, b, far, rfl⟩ := exists_branch s hpos
    rw [root?_branch] at ha
    obtain rfl := Option.some.inj ha
    obtain ⟨hx, hnear, -⟩ := repr_branch.1 h
    rw [height_branch] at hfuel
    cases hroot : near.root? with
    | none =>
      obtain rfl := eq_nil_of_root? hroot
      exact ⟨[], x, b, far, by simp [descend, hx, hroot], rfl, by simp⟩
    | some y =>
      obtain ⟨d, z, b', u, hdesc, rfl, hd⟩ := ih hnear hroot (by omega)
      refine ⟨d ++ [⟨s, x, b, far⟩], z, b', u, ?_, ?_, ?_⟩
      · simpa [descend, hx, hroot] using hdesc
      · rw [plug_append]
        rfl
      · simpa [or_imp, forall_and] using hd

variable [DecidableEq Addr]

/-! ## Moving a path -/

theorem ReprPath.setHole {f : Frame Addr} {top hole : Option Addr}
    (h : ReprPath m top (f :: c) hole) (hnd : (addrs (f :: c)).Nodup) (hole' : Option Addr) :
    ReprPath (m.setChild f.side f.a hole') top (f :: c) hole' := by
  obtain ⟨hf, hsib, hup⟩ := h
  simp only [addrs, nodup_cons, mem_append, not_or] at hnd
  have hne : ∀ x, x ≠ f.a → m.setChild f.side f.a hole' x = m x := fun x hx => by simp [hx]
  refine ⟨by simp [hf], hsib.congr fun x hx => hne x ?_, hup.congr fun x hx => hne x ?_⟩
  · rintro rfl; exact hnd.1.1 hx
  · rintro rfl; exact hnd.1.2 hx

theorem ReprPath.setTop {top hole : Option Addr} (h : ReprPath m top c hole)
    (hnd : c.addrs.Nodup) (hc : c ≠ []) (t : BinTree Addr) (top' : Option Addr) :
    ReprPath (m.linkParent (c.plug t).root? top') top' c hole := by
  induction c generalizing hole t with
  | nil => exact absurd rfl hc
  | cons f c ih =>
    obtain ⟨hf, hsib, hup⟩ := h
    simp only [addrs, nodup_cons, mem_append, not_or, nodup_append'] at hnd
    rcases eq_or_ne c [] with rfl | hne
    · have hroot : (plug [f] t).root? = some f.a := by simp [plug]
      rw [hroot]
      refine ⟨by simp [Mem.linkParent, hf, parentBelow], hsib.congr fun x hx => ?_, trivial⟩
      refine linkParent_of_ne _ _ _ fun heq => hnd.1.1 ?_
      rwa [Option.some.inj heq]
    · obtain ⟨z, hz, hroot⟩ := exists_root?_plug hne (.branch f.side t f.a f.b f.sibling)
      have hother : ∀ x ∉ addrs c,
          m.linkParent (plug (f :: c) t).root? top' x = m x := fun x hx => by
        refine linkParent_of_ne _ _ _ fun heq => hx ?_
        rw [plug, hroot] at heq
        exact Option.some.inj heq ▸ hz
      refine ⟨?_, hsib.congr fun x hx => hother x fun hxc => hnd.2.2.2 hx hxc,
        ih hup hnd.2.2.1 hne _⟩
      rw [hother f.a hnd.1.2, hf]
      cases c with
      | nil => exact absurd rfl hne
      | cons => rfl

/-! ## The exchange -/

/-- A node `n` with a left subtree `L`, and the next node `x` at the end of the path
`d` in its right subtree, with a right subtree `T`. -/
structure Exchange (m : Mem Addr) (c : Ctx Addr) (L : BinTree Addr) (n : Addr) (b : Int)
    (d : Ctx Addr) (x : Addr) (bn : Int) (T : BinTree Addr) : Prop where
  ctx : ReprCtx m c (some n)
  node : m n = ⟨L.root?, (d.plug (.node .nil x bn T)).root?, c.parent?, b⟩
  left : Repr m (some n) L
  path : ReprPath m (some n) d (some x)
  next : m x = ⟨none, T.root?, d.parentBelow (some n), bn⟩
  right : Repr m (some x) T
  nodup : (n :: x :: (L.inorder ++ T.inorder ++ d.addrs ++ c.addrs)).Nodup

section Exchange
variable {L T : BinTree Addr} {n x : Addr} {b bn : Int} {d : Ctx Addr}

theorem Exchange.repr (h : Exchange m c L n b d x bn T) {m1 m' : Mem Addr}
    (hctx1 : ReprCtx m1 c (some x)) (hm1 : ∀ y ∉ c.addrs, y ≠ x → m1 y = m y)
    (hnext : m' x = ⟨L.root?, (d.plug (.node .nil n bn T)).root?, c.parent?, b⟩)
    (hnode : m' n = ⟨none, T.root?, d.parentBelow (some x), bn⟩)
    (hpath : ReprPath m' (some x) d (some n))
    (hother : ∀ y, y ≠ x → y ≠ n → y ∉ d.addrs →
      m' y = (m1.linkParent L.root? (some x)).linkParent T.root? (some n) y) :
    Repr m' none (c.plug (.node L x b (d.plug (.node .nil n bn T)))) := by
  have hnd := h.nodup
  have hL := fun (m : Mem Addr) y (hy : y ∉ L.inorder) => linkParent_of_notMem m y (some x) hy
  have hT := fun (m : Mem Addr) y (hy : y ∉ T.inorder) => linkParent_of_notMem m y (some n) hy
  refine (repr_plug ..).2 ⟨?_, hnext, ?_, (repr_plug ..).2 ⟨hpath, hnode, trivial, ?_⟩⟩
  · refine hctx1.congr fun y hy => ?_
    rw [hother y (by grind) (by grind) (by grind), hT _ y (by grind), hL _ y (by grind)]
  · refine (h.left.linkParent (by grind) (some x)).congr fun y hy => ?_
    rw [hother y (by grind) (by grind) (by grind), hT _ y (by grind)]
    exact linkParent_congr (hm1 y (by grind) (by grind)) _ _
  · refine (h.right.linkParent (by grind) (some n)).congr fun y hy => ?_
    rw [hother y (by grind) (by grind) (by grind)]
    refine linkParent_congr ?_ _ _
    rw [hL _ y (by grind), hm1 y (by grind) (by grind)]

/-- The part before the cases: `x` is below the parent of `n` and has its left
subtree. -/
theorem Exchange.start (h : Exchange m c L n b d x bn T) :
    ∃ m1 m2, fixupLink (some n) (some x) (m n).parent m = some m1 ∧
      fixupLink (m1 x).left (m1 n).left (some x) m1 = some m2 ∧ ReprCtx m1 c (some x) ∧
      (∀ y ∉ c.addrs, y ≠ x → m1 y = m y) ∧ m2 x = ⟨L.root?, T.root?, c.parent?, bn⟩ ∧
      m2 n = m n ∧ ∀ y, y ≠ x → m2 y = m1.linkParent L.root? (some x) y := by
  have hnd := h.nodup
  obtain ⟨m1, hfix, hctx1, hm1⟩ := fixupLink_spec (some x) h.ctx (by grind) (by grind) (by grind)
  have hother : ∀ y, y ∉ c.addrs → y ≠ x → m1 y = m y := fun y hy hyx => by
    rw [hm1 y hy, linkParent_some _ _ _ hyx]
  have hx1 : m1 x = ⟨none, T.root?, c.parent?, bn⟩ := by
    simp [hm1 x (by grind), linkParent_apply, h.next]
  have hn1 : m1 n = m n := hother n (by grind) (by grind)
  have hL := fun (m : Mem Addr) y (hy : y ∉ L.inorder) => linkParent_of_notMem m y (some x) hy
  have hparent : (m n).parent = c.parent? := by rw [h.node]
  refine ⟨m1, _, hparent ▸ hfix, fixupLink_child _ .left rfl (by simp), hctx1, hother, ?_, ?_, ?_⟩
  · rw [hn1, h.node, hL _ x (by grind)]
    simp [hx1, setChild]
  · rw [hn1, h.node, hL _ n (by grind)]
    simp [show n ≠ x by grind, hn1, h.node]
  · intro y hy
    rw [hn1, h.node]
    simp [linkParent_apply, hy]

/-- The part after the cases: `n` gets the right subtree of `x`, and the balances
change places. -/
theorem Exchange.finish (h : Exchange m c L n b d x bn T) {m3 : Mem Addr} {z : Addr}
    {p r : Option Addr} (hn3 : m3 n = ⟨none, some z, p, b⟩)
    (hx3 : m3 x = ⟨L.root?, r, c.parent?, bn⟩) :
    ∃ m4 m', fixupLink (m3 n).right (m x).right (some n) m3 = some m4 ∧
      (m4.setBalance x (m4 n).balance).setBalance n (m x).balance = m' ∧
      m' x = ⟨L.root?, r, c.parent?, b⟩ ∧ m' n = ⟨none, T.root?, p, bn⟩ ∧
      ∀ y, y ≠ x → y ≠ n → m' y = m3.linkParent T.root? (some n) y := by
  have hnd := h.nodup
  have hxn : x ≠ n := by grind
  have hT := fun (m : Mem Addr) y (hy : y ∉ T.inorder) => linkParent_of_notMem m y (some n) hy
  refine ⟨_, _, fixupLink_child _ .right rfl (by rw [hn3]; simp), rfl, ?_, ?_, ?_⟩
  all_goals simp [h.next]
  · simp [hxn, hT _ x (by grind), hT _ n (by grind), hx3, hn3, setChild]
  · simp [hxn.symm, hT _ n (by grind), hn3, setChild]
  · intro y hyx hyn
    simp [hyx, hyn, linkParent_apply]

theorem swapLinks_child (h : Exchange m c L n b [] x bn T) : ∃ m', swapLinks n x m = some m' ∧
      Repr m' none (c.plug (.node L x b (.node .nil n bn T))) := by
  have hxn : x ≠ n := by have := h.nodup; grind
  obtain ⟨m1, m2, hfix1, hfix2, hctx1, hm1, hx2, hn2, hm2⟩ := h.start
  have hright : (m2 n).right = some x := by rw [hn2, h.node]; rfl
  generalize hm3 : ((m2.setChild .right x (some n)).setParent n (some x)).setChild .left n none = m3
  have hn3 : m3 n = ⟨none, some x, some x, b⟩ := by
    simp [← hm3, hxn.symm, hn2, h.node, setChild, plug, root?]
  have hx3 : m3 x = ⟨L.root?, some n, c.parent?, bn⟩ := by
    simp [← hm3, hxn, hx2, setChild]
  obtain ⟨m4, m', hfix4, hm', hx', hn', hother⟩ := h.finish hn3 hx3
  refine ⟨m', ?_, h.repr hctx1 hm1 hx' hn' trivial fun y hyx hyn _ => ?_⟩
  · simp only [swapLinks, hfix1, hfix2, Option.bind_eq_bind, Option.bind_some, hright, if_true, hm3,
      hfix4, hm']
  · rw [hother y hyx hyn]
    refine linkParent_congr ?_ _ _
    simp [← hm3, hyx, hyn, hm2 y hyx]

theorem swapLinks_path {g : Frame Addr} (h : Exchange m c L n b (g :: d) x bn T)
    (hd : ∀ f ∈ g :: d, f.side = .left) (hL : L ≠ .nil) :
    ∃ m', swapLinks n x m = some m' ∧
      Repr m' none (c.plug (.node L x b (plug (g :: d) (.node .nil n bn T)))) := by
  have hnd := h.nodup
  have hxn : x ≠ n := by grind
  obtain ⟨m1, m2, hfix1, hfix2, hctx1, hm1, hx2, hn2, hm2⟩ := h.start
  obtain ⟨z, hz, hroot⟩ := exists_root?_plug (cons_ne_nil g d) (.node .nil x bn T)
  have hright : (m2 n).right = some z := by rw [hn2, h.node, hroot]
  have hzx : z ≠ x := by grind
  have hzn : z ≠ n := by grind
  have hga : g.a ∈ addrs (g :: d) := mem_cons_self
  have hgx : g.a ≠ x := by grind
  have hgn : g.a ≠ n := by grind
  have hm2d : ∀ y ∈ addrs (g :: d), m2 y = m y := fun y hy => by
    rw [hm2 y (by grind), linkParent_of_notMem (t := L) _ _ _ (by grind),
      hm1 y (by grind) (by grind)]
  -- `x` gets the right subtree of `n`
  have hLT : L.root? ≠ T.root? := by
    cases hr : L.root? with
    | none => exact absurd (eq_nil_of_root? hr) hL
    | some l =>
      intro hl
      have h1 := mem_inorder_of_root? hr
      have h2 := mem_inorder_of_root? hl.symm
      grind
  have hfix3 := fixupLink_child (m := m2) (p := x) (some z) .right rfl
    (by rw [hx2]; exact fun _ => hLT)
  generalize hm3 : (m2.setChild .right x (some z)).linkParent (some z) (some x) = m3 at hfix3
  have hm3y : ∀ y, y ≠ x → m3 y = m2.linkParent (some z) (some x) y := fun y hy => by
    simp [← hm3, linkParent_apply, hy]
  -- `n` takes the place of `x` below its parent
  have hside : g.side = .left := hd g mem_cons_self
  have hg : (m3 g.a).child .left = some x := by
    have hcell := h.path.1
    rw [hside] at hcell
    rw [hm3y _ hgx, linkParent_apply, hm2d _ hga, hcell]
    split <;> rfl
  have hfix4 := fixupLink_child (some n) .left hg (by simp)
  generalize hm4 : (m3.setChild .left g.a (some n)).linkParent (some n) (some g.a) = m4 at hfix4
  have hm4y : ∀ y, y ≠ n → m4 y = m3.setChild .left g.a (some n) y := fun y hy => by
    rw [← hm4, linkParent_some _ _ _ hy]
  have hn5 : m4.setChild .left n none n = ⟨none, some z, some g.a, b⟩ := by
    have hn3 : m3 n = m n := by
      rw [hm3y n hxn.symm, linkParent_some _ _ _ hzn.symm, hn2]
    simp [← hm4, linkParent_apply, hgn.symm, hn3, h.node, hroot, setChild]
  have hx5 : m4.setChild .left n none x = ⟨L.root?, some z, c.parent?, bn⟩ := by
    rw [setChild_apply, if_neg hxn, hm4y x hxn, setChild_apply, if_neg hgx.symm, ← hm3,
      linkParent_some _ _ _ hzx.symm]
    simp [hx2, setChild]
  obtain ⟨m6, m', hfix6, hm', hx', hn', hother⟩ := h.finish hn5 hx5
  have hroot' : (plug (g :: d) (.node .nil n bn T)).root? = some z := by
    rw [root?_plug (cons_ne_nil g d), hroot]
  refine ⟨m', ?_, h.repr hctx1 hm1 (by rw [hx', hroot']) hn' ?_ fun y hyx hyn hyd => ?_⟩
  · have hparent : (m x).parent = some g.a := by rw [h.next]; rfl
    have hne : (m2 n).right ≠ some x := by rw [hright]; simpa using hzx
    simp only [swapLinks, hfix1, hfix2, Option.bind_eq_bind, Option.bind_some, if_neg hne]
    rw [hright]
    simp only [child] at hfix3
    simp only [hfix3, Option.bind_some, hparent, hfix4, hfix6, hm']
  · have htop := h.path.setTop (by grind) (cons_ne_nil g d) (.node .nil x bn T) (some x)
    refine (htop.setHole (by grind) (some n)).congr fun y hy => ?_
    rw [hother y (by grind) (by grind), linkParent_of_notMem (t := T) _ _ _ (by grind),
      setChild_apply, if_neg (by grind), hm4y y (by grind), hside, setChild_apply, setChild_apply,
      hroot, hm3y y (by grind), hm3y g.a hgx]
    rw [linkParent_congr (hm2d y hy), linkParent_congr (hm2d g.a hga)]
  · rw [hother y hyx hyn]
    refine linkParent_congr ?_ _ _
    rw [setChild_apply, if_neg hyn, hm4y y hyn, setChild_apply, if_neg (by grind), hm3y y hyx,
      linkParent_of_ne, hm2 y hyx]
    grind

end Exchange

omit [DecidableEq Addr] in
theorem exchange_perm (L T : BinTree Addr) (n x : Addr) (b bn : Int) (d c : Ctx Addr) :
    (c.plug (.node L n b (d.plug (.node .nil x bn T)))).inorder.Perm
      (n :: x :: (L.inorder ++ T.inorder ++ d.addrs ++ c.addrs)) := by
  refine (inorder_plug_perm c _).trans ?_
  refine (((inorder_plug_perm d _).append_left L.inorder).cons n |> perm_middle.trans
    |>.append_right c.addrs).trans ?_
  simp [inorder]

omit [DecidableEq Addr] in
/-- In a balanced tree, the right subtree of a node without a left one is a leaf at most. -/
theorem balanced_of_nil_left {T : BinTree Addr} {x : Addr} {bn : Int}
    (h : (node .nil x bn T).Balanced) :
    (bn = 0 ∨ bn = 1) ∧ (T = .nil ∨ ∃ r, T = leaf r) := by
  obtain ⟨hb, -, hT, -, hbT⟩ := h
  simp only [BinTree.height] at hb hT
  refine ⟨by omega, ?_⟩
  cases T with
  | nil => exact .inl rfl
  | node l r b' u =>
    obtain ⟨hb', -⟩ := hbT
    simp only [BinTree.height] at hT hb'
    have hnil : ∀ v : BinTree Addr, v.height = 0 → v = .nil := fun v hv => by
      cases v with
      | nil => rfl
      | node => simp [BinTree.height] at hv
    obtain rfl := hnil l (by omega)
    obtain rfl := hnil u (by omega)
    exact .inr ⟨r, by simp [leaf, hb']⟩

variable {st : Store Addr}

/-- **A node with two children changes places with the next one.** -/
theorem swapWithNext_spec {L R : BinTree Addr} {n : Addr} {b : Int}
    (h : IsTree st (c.plug (.node L n b R))) (hL : L ≠ .nil) (hR : R ≠ .nil)
    (hfuel : R.height ≤ fuel) :
    ∃ st' d x bn T, swapWithNext fuel st n = some st' ∧ R = plug d (.node .nil x bn T) ∧
      (∀ f ∈ d, f.side = .left) ∧
      IsTree st' (plug (d ++ ⟨.right, x, b, L⟩ :: c) (.node .nil n bn T)) := by
  obtain ⟨root, m⟩ := st
  obtain ⟨hroot, hrepr, hnd, hbal⟩ := h
  simp only at hroot hrepr
  obtain ⟨hctx, ⟨hn, hLr, hRr⟩, hnd'⟩ := holds_iff.2 ⟨hrepr, hnd⟩
  obtain ⟨r, hr⟩ : ∃ r, R.root? = some r := by
    cases R with
    | nil => exact absurd rfl hR
    | node _ r => exact ⟨r, rfl⟩
  obtain ⟨d, x, bn, T, hdesc, rfl, hd⟩ := descend_spec (s := .left) hRr hr hfuel
  obtain ⟨hpath, hx, -, hT⟩ := (repr_plug ..).1 hRr
  have hex : Exchange m c L n b d x bn T := by
    exact ⟨hctx, hn, hLr, hpath, hx, hT, (exchange_perm ..).nodup_iff.1 hnd⟩
  have hplug : ∀ y z, plug (d ++ ⟨.right, y, b, L⟩ :: c) (.node .nil z bn T) =
      c.plug (.node L y b (d.plug (.node .nil z bn T))) := fun y z => by
    rw [plug_append]
    rfl
  have hbal' := (balanced_plug _ _).1 ((hplug n x).symm ▸ hbal)
  obtain ⟨hbn, hTleaf⟩ := balanced_of_nil_left hbal'.1
  obtain ⟨m', hswap, hrepr'⟩ : ∃ m', swapLinks n x m = some m' ∧
      Repr m' none (c.plug (.node L x b (d.plug (.node .nil n bn T)))) := by
    cases d with
    | nil => exact swapLinks_child hex
    | cons g d => exact swapLinks_path hex hd hL
  refine ⟨⟨if root = some n then some x else root, m'⟩, d, x, bn, T, ?_, rfl, hd, ?_, ?_, ?_, ?_⟩
  · have hchild : (m n).child .right = some r := by rw [hn]; exact hr
    have hnext : avlTreeNext fuel m n = some (some x) := by
      simp [avlTreeNext, neighbour, hchild, Side.other, hdesc]
    have hright : ∀ r ∈ (m x).right,
        (m r).balance = 0 ∧ (m r).left = none ∧ (m r).right = none := by
      rw [hx]
      rcases hTleaf with rfl | ⟨y, rfl⟩
      · rintro _ ⟨⟩
      · rintro _ ⟨⟩
        rw [hT.1]
        exact ⟨rfl, rfl, rfl⟩
    have hparent : (m x).parent ≠ none := by
      rw [hx]
      cases d <;> simp [parentBelow]
    have hbalance : (m x).balance = 0 ∨ (m x).balance = 1 := by rwa [hx]
    simp only [swapWithNext, hnext, Option.bind_eq_bind, Option.bind_some, guard, if_pos hbalance,
      if_pos hright, if_pos hparent, hswap]
    rfl
  · rw [hplug, hroot]
    refine root?_replace rfl rfl ?_
    have := hex.nodup
    simp only [nodup_cons, mem_cons, mem_append, not_or] at this
    exact this.1.2.2
  · rwa [hplug]
  · rw [hplug, (exchange_perm ..).nodup_iff, (List.Perm.swap ..).nodup_iff]
    exact hex.nodup
  · exact (balanced_plug _ _).2 ⟨hbal'.1, fits_replace x hbal'.2⟩

/-! ## Unlinking -/

/-- **A node with one child at most is replaced by it**, and the tree rebalanced. -/
theorem unlinkNode_spec {s : Side} {u : BinTree Addr} {n : Addr} {b : Int}
    (h : IsTree st (c.plug (.branch s u n b .nil))) (hfuel : c.length ≤ fuel) :
    ∃ st' t', unlinkNode fuel st n = some st' ∧ IsTree st' t' ∧
      t'.inorder = c.before ++ u.inorder ++ c.after := by
  obtain ⟨root, m⟩ := st
  obtain ⟨hroot, hrepr, hnd, hbal⟩ := h
  simp only at hroot hrepr
  obtain ⟨hctx, hsub, hnd'⟩ := holds_iff.2 ⟨hrepr, hnd⟩
  obtain ⟨hn, hu, -⟩ := repr_branch.1 hsub
  rw [root?_branch] at hctx
  simp only [nodup_append', nodup_inorder_branch, mem_inorder_branch, List.Disjoint] at hnd'
  obtain ⟨hbranch, hfit⟩ := (balanced_plug _ _).1 hbal
  rw [balanced_branch] at hbranch
  have hchildren : (m n).onlyChild = some u.root? := by
    rw [hn]
    cases s <;> cases u <;> rfl
  cases c with
  | nil =>
    have hparent : (m n).parent = none := by rw [hn, cell_parent]; rfl
    have hparent' : ((m.linkParent u.root? none) n).parent = none := by
      rw [linkParent_of_notMem _ _ _ hnd'.1.1, hparent]
    refine ⟨⟨u.root?, m.linkParent u.root? none⟩, u, ?_,
      ⟨rfl, hu.linkParent hnd'.1.2.2.1 none, hnd'.1.2.2.1, hbranch.2.2.2.1⟩, by
        simp [before, Ctx.after]⟩
    simp only [unlinkNode, hparent, hchildren]
    simp [fixupLink, hparent']
  | cons f c =>
    have hparent : (m n).parent = some f.a := by rw [hn, cell_parent]; rfl
    have hside : sideOf n f.a m = some f.side :=
      sideOf_spec (holds_iff.2 ⟨hrepr, hnd⟩) (root?_branch ..)
    obtain ⟨m1, hfix, hctx1, hm1⟩ := fixupLink_spec u.root? hctx (by grind) (by grind)
      fun x hx => by have := mem_inorder_of_root? hx; grind
    have hholds : Holds m1 (f :: c) u := by
      refine ⟨hctx1, (hu.linkParent (by grind) (some f.a)).congr fun x hx => hm1 x (by grind), ?_⟩
      grind
    have hn1 : (m1 n).parent = some f.a := by
      rw [hm1 n (by grind), linkParent_of_notMem _ _ _ hnd'.1.1, hparent]
    obtain ⟨a, m2, c', t', hbalance, hstop⟩ := avlTreeBalance_spec hholds hfit hbranch.2.2.2.1
      (show Changed false _ u.height by simp [Changed, BinTree.height]) (by simp) hfuel
    have hn2 : (m2 n).parent = some f.a := by
      rw [hstop.frame n, hn1]
      rw [(inorder_plug_perm ..).mem_iff]
      grind
    have htree := hstop.isTree
    rw [root?_plug (cons_ne_nil f c) u (.branch s u n b .nil), ← hroot] at htree
    refine ⟨_, _, ?_, htree, by rw [hstop.inorder, Ctx.inorder_plug]⟩
    simp only [unlinkNode, hparent, hside, hchildren, Option.bind_eq_bind, Option.bind_some]
    rw [show some f.a = parent? (f :: c) from rfl, hfix]
    simp [hn1, hbalance, hn2]

/-! ## The whole function -/

/-- **`avl_tree_delete`** returns, and the tree is balanced and has the other nodes
in the same order. -/
theorem avlTreeDelete_spec {t : BinTree Addr} {n : Addr} (h : IsTree st t) (hn : n ∈ t.inorder)
    (hfuel : t.inorder.length ≤ fuel) :
    ∃ st' t', avlTreeDelete fuel st n = some st' ∧ IsTree st' t' ∧
      ∃ l1 l2, t.inorder = l1 ++ n :: l2 ∧ t'.inorder = l1 ++ l2 := by
  obtain ⟨c, L, b, R, rfl⟩ := exists_plug hn
  have hcell : st.mem n = ⟨L.root?, R.root?, c.parent?, b⟩ := (holds_iff.2 ⟨h.repr, h.nodup⟩).sub.1
  have hlen := length_le_inorder_plug c (.node L n b R)
  have hdelete : avlTreeDelete fuel st n =
      if L.root? ≠ none ∧ R.root? ≠ none then (swapWithNext fuel st n).bind (unlinkNode fuel · n)
      else unlinkNode fuel st n := by
    simp only [avlTreeDelete, hcell]
    split <;> rfl
  have hin : (c.plug (.node L n b R)).inorder =
      (c.before ++ L.inorder) ++ n :: (R.inorder ++ c.after) := by
    simp [Ctx.inorder_plug, inorder]
  by_cases hL : L = .nil
  · subst hL
    obtain ⟨st', t', hrun, htree, ht'⟩ := unlinkNode_spec (s := .right) h (Nat.le_trans hlen hfuel)
    refine ⟨st', t', by rw [hdelete, if_neg (by simp [root?]), hrun], htree, _, _, hin, ?_⟩
    simp [ht', inorder]
  by_cases hR : R = .nil
  · subst hR
    obtain ⟨st', t', hrun, htree, ht'⟩ := unlinkNode_spec (s := .left) h (Nat.le_trans hlen hfuel)
    refine ⟨st', t', by rw [hdelete, if_neg (by simp [root?]), hrun], htree, _, _, hin, ?_⟩
    simp [ht', inorder]
  have hheight : R.height ≤ fuel := by
    have := R.height_le_length_inorder
    simp only [hin, length_append, length_cons] at hfuel
    omega
  obtain ⟨st1, d, x, bn, T, hswap, rfl, hd, htree1⟩ := swapWithNext_spec h hL hR hheight
  have hlen1 : (d ++ ⟨.right, x, b, L⟩ :: c).length ≤ fuel := by
    have h1 := length_le_inorder_plug (d ++ ⟨.right, x, b, L⟩ :: c) (.node .nil n bn T)
    have h2 := (exchange_perm L T n x b bn d c).length_eq
    have h3 := (exchange_perm L T x n b bn d c).length_eq
    rw [plug_append] at h1
    exact Nat.le_trans h1 (Nat.le_trans (Nat.le_of_eq (h3.trans h2.symm)) hfuel)
  obtain ⟨st', t', hrun, htree, ht'⟩ := unlinkNode_spec (s := .right) htree1 hlen1
  refine ⟨st', t', ?_, htree, _, _, hin, ?_⟩
  · rwa [hdelete, if_pos ⟨mt eq_nil_of_root? hL, mt eq_nil_of_root? hR⟩, hswap]
  · rw [ht', Ctx.before_append hd, Ctx.after_append, Ctx.inorder_plug]
    have hbefore : before d = [] := by simpa [before] using Ctx.before_append hd []
    simp [hbefore, before, Ctx.after, inorder]

end AvlTree
