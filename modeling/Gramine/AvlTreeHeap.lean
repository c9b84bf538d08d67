import Gramine.AvlTree

/-!
# Trees in memory

`Repr m p t` says that the memory holds the tree `t` below the parent `p`, and
`ReprCtx` the same for the path above a subtree. As a tree determines what each of
its nodes must hold, a tree of distinct nodes stays in memory when other nodes are
written (`Repr.congr`), and each function of `avl_tree.c` that changes links is
described by the tree before and the tree after.
-/

open BinaryTree List

namespace AvlTree

open Ctx

open BinTree

variable {Addr : Type}

/-- The node with the given child on side `s` and the other one opposite. -/
def cell (s : Side) (near far parent : Option Addr) (b : Int) : AvlTreeNode Addr :=
  match s with
  | .left => ⟨near, far, parent, b⟩
  | .right => ⟨far, near, parent, b⟩

section Cell
variable (s : Side) (x y v p q : Option Addr) (b b' : Int)

@[simp] theorem cell_child : (cell s x y p b).child s = x := by
  cases s <;> rfl

@[simp] theorem cell_child_other : (cell s x y p b).child s.other = y := by
  cases s <;> rfl

@[simp] theorem cell_setChild : (cell s x y p b).setChild s v = cell s v y p b := by
  cases s <;> rfl

@[simp] theorem cell_setChild_other : (cell s x y p b).setChild s.other v = cell s x v p b := by
  cases s <;> rfl

@[simp] theorem cell_parent : (cell s x y p b).parent = p := by
  cases s <;> rfl

@[simp] theorem cell_balance : (cell s x y p b).balance = b := by
  cases s <;> rfl

@[simp] theorem mk_cell :
    AvlTreeNode.mk (cell s x y p b).left (cell s x y p b).right q b' = cell s x y q b' := by
  cases s <;> rfl

end Cell

/-- The memory holds the tree, below the parent. -/
def Repr (m : Mem Addr) : Option Addr → BinTree Addr → Prop
  | _, .nil => True
  | p, .node l a b r => m a = ⟨l.root?, r.root?, p, b⟩ ∧ Repr m (some a) l ∧ Repr m (some a) r

/-- The memory holds the path from below `top` to a subtree with the given root. -/
def ReprPath (m : Mem Addr) (top : Option Addr) : Ctx Addr → Option Addr → Prop
  | [], _ => True
  | f :: c, hole => m f.a = cell f.side hole f.sibling.root? (parentBelow top c) f.b ∧
      Repr m (some f.a) f.sibling ∧ ReprPath m top c (some f.a)

/-- The memory holds the path from the root of the tree to a subtree. -/
def ReprCtx (m : Mem Addr) (c : Ctx Addr) (hole : Option Addr) : Prop := ReprPath m none c hole

variable {m : Mem Addr}

/-- A tree in memory, read from either side. -/
theorem repr_branch {s : Side} {near far : BinTree Addr} {a : Addr} {b : Int} {p : Option Addr} :
    Repr m p (.branch s near a b far) ↔
      m a = cell s near.root? far.root? p b ∧ Repr m (some a) near ∧ Repr m (some a) far := by
  cases s
  · exact Iff.rfl
  · exact and_congr_right fun _ => and_comm

/-- A tree in memory is a path to a place in it, and the subtree there. -/
theorem repr_plug (top : Option Addr) (c : Ctx Addr) (t : BinTree Addr) :
    Repr m top (c.plug t) ↔ ReprPath m top c t.root? ∧ Repr m (c.parentBelow top) t := by
  induction c generalizing t with
  | nil => simp [plug, ReprPath, parentBelow]
  | cons f c ih =>
    rw [plug, ih, repr_branch, root?_branch]
    constructor
    · rintro ⟨h1, h2, h3, h4⟩
      exact ⟨⟨h2, h4, h1⟩, h3⟩
    · rintro ⟨⟨h2, h4, h1⟩, h3⟩
      exact ⟨h1, h2, h3, h4⟩

variable {m' : Mem Addr} {t : BinTree Addr}

/-- Memory outside of the tree does not matter. -/
theorem Repr.congr {p : Option Addr} (h : Repr m p t) (heq : ∀ a ∈ t.inorder, m' a = m a) :
    Repr m' p t := by
  induction t generalizing p with
  | nil => trivial
  | node l a b r ihl ihr =>
    simp only [BinTree.inorder] at heq
    exact ⟨(heq a (by simp)).trans h.1, ihl h.2.1 fun x hx => heq x (by simp [hx]),
      ihr h.2.2 fun x hx => heq x (by simp [hx])⟩

theorem ReprPath.congr {c : Ctx Addr} {top hole : Option Addr} (h : ReprPath m top c hole)
    (heq : ∀ a ∈ c.addrs, m' a = m a) : ReprPath m' top c hole := by
  induction c generalizing hole with
  | nil => trivial
  | cons f c ih =>
    simp only [addrs] at heq
    exact ⟨(heq f.a (by simp)).trans h.1, h.2.1.congr fun x hx => heq x (by simp [hx]),
      ih h.2.2 fun x hx => heq x (by simp [hx])⟩

theorem ReprCtx.congr {c : Ctx Addr} {hole : Option Addr} (h : ReprCtx m c hole)
    (heq : ∀ a ∈ c.addrs, m' a = m a) : ReprCtx m' c hole :=
  ReprPath.congr h heq

theorem mem_inorder_of_root? {a : Addr} (h : t.root? = some a) : a ∈ t.inorder := by
  cases t with
  | nil => cases h
  | node l x b r => simpa [BinTree.inorder] using .inr (.inl (Option.some.inj h).symm)

section Writes
variable [DecidableEq Addr] (m : Mem Addr) (s : Side) (a x : Addr) (v : Option Addr) (b : Int)

@[simp] theorem setChild_apply :
    m.setChild s a v x = if x = a then (m a).setChild s v else m x := by
  simp [Mem.setChild, Function.update_apply]

@[simp] theorem setParent_apply :
    m.setParent a v x = if x = a then { m a with parent := v } else m x := by
  simp [Mem.setParent, Function.update_apply]

@[simp] theorem setBalance_apply :
    m.setBalance a b x = if x = a then { m a with balance := b } else m x := by
  simp [Mem.setBalance, Function.update_apply]

/-- `linkParent` does nothing for an empty subtree. -/
theorem linkParent_apply (y : Option Addr) :
    m.linkParent y v x = if y = some x then { m x with parent := v } else m x := by
  cases y with
  | none => rfl
  | some y =>
    rw [Mem.linkParent, setParent_apply]
    by_cases h : x = y
    · simp [h]
    · rw [if_neg h, if_neg fun h' => h (Option.some.inj h').symm]

theorem linkParent_congr {m m' : Mem Addr} {x : Addr} (h : m x = m' x) (y v : Option Addr) :
    m.linkParent y v x = m'.linkParent y v x := by
  rw [linkParent_apply, linkParent_apply, h]

theorem linkParent_of_ne {y : Option Addr} (h : y ≠ some x) : m.linkParent y v x = m x := by
  rw [linkParent_apply, if_neg h]

theorem linkParent_some {a : Addr} (h : x ≠ a) : m.linkParent (some a) v x = m x :=
  linkParent_of_ne m x v fun heq => h (Option.some.inj heq).symm

theorem linkParent_of_notMem (h : x ∉ t.inorder) : m.linkParent t.root? v x = m x :=
  linkParent_of_ne m x v fun hx => h (mem_inorder_of_root? hx)

/-- Writing the parent of its root moves a tree below another parent. -/
theorem Repr.linkParent {m : Mem Addr} {p : Option Addr} (h : Repr m p t) (hnd : t.inorder.Nodup)
    (q : Option Addr) : Repr (m.linkParent t.root? q) q t := by
  cases t with
  | nil => trivial
  | node l a b r =>
    obtain ⟨ha, hl, hr⟩ := h
    simp only [BinTree.inorder, nodup_append, nodup_cons, mem_cons] at hnd
    have hne : ∀ x, x ≠ a → m.setParent a q x = m x := fun x hx =>
      (setParent_apply ..).trans (if_neg hx)
    refine ⟨?_, hl.congr fun x hx => hne x (hnd.2.2 x hx a (.inl rfl)),
      hr.congr fun x hx => hne x ?_⟩
    · exact (setParent_apply ..).trans (by rw [if_pos rfl, ha])
    · rintro rfl
      exact hnd.2.1.1 hx

end Writes

/-! ## Links -/

section Links
variable [DecidableEq Addr] {m : Mem Addr} {c : Ctx Addr}

variable {p : Addr}

/-- `fixup_link` below a parent replaces the child on the side it is on. -/
theorem fixupLink_child {old : Option Addr} (new : Option Addr) (s : Side)
    (hs : (m p).child s = old) (hleft : s = .right → (m p).left ≠ old) :
    fixupLink old new (some p) m = some ((m.setChild s p new).linkParent new (some p)) := by
  cases s with
  | left =>
    have hl : (m p).left = old := hs
    simp [fixupLink, hl]
  | right =>
    have hr : (m p).right = old := hs
    simp [fixupLink, hleft rfl, hr]

/-- `fixup_link` on the root of a subtree: the path above has the new root, and
nothing else changes but the parent of the new root. -/
theorem fixupLink_spec {old : Addr} (new : Option Addr) (hc : ReprCtx m c (some old))
    (hnd : c.addrs.Nodup) (hold : old ∉ c.addrs) (hnew : ∀ x ∈ new, x ∉ c.addrs) :
    ∃ m', fixupLink (some old) new c.parent? m = some m' ∧ ReprCtx m' c new ∧
      ∀ a ∉ c.addrs, m' a = m.linkParent new c.parent? a := by
  cases c with
  | nil => exact ⟨_, rfl, trivial, fun _ _ => rfl⟩
  | cons f c =>
    obtain ⟨hf, hsib, hup⟩ := hc
    simp only [addrs, mem_cons, mem_append, not_or, nodup_cons] at hnd hold hnew
    have hlink : ∀ x, x = f.a ∨ x ∈ f.sibling.inorder ∨ x ∈ addrs c → ∀ m : Mem Addr,
        m.linkParent new (some f.a) x = m x := fun x hx m =>
      linkParent_of_ne m x _ fun hn => by
        rcases hx with rfl | hx | hx <;> simp_all
    refine ⟨_, fixupLink_child new f.side (by rw [hf, cell_child]) ?_, ⟨?_, ?_, ?_⟩, ?_⟩
    · intro hs hleft
      rw [hf, hs] at hleft
      exact hold.2.1 (mem_inorder_of_root? hleft)
    · rw [hlink _ (.inl rfl), setChild_apply, if_pos rfl, hf, cell_setChild]
    · refine hsib.congr fun x hx => ?_
      rw [hlink x (.inr (.inl hx)), setChild_apply, if_neg]
      rintro rfl
      exact hnd.1.1 hx
    · refine hup.congr fun x hx => ?_
      rw [hlink x (.inr (.inr hx)), setChild_apply, if_neg]
      rintro rfl
      exact hnd.1.2 hx
    · intro a ha
      simp only [addrs, mem_cons, not_or] at ha
      rw [parent?_cons, linkParent_apply, linkParent_apply, setChild_apply, if_neg ha.1]

/-- The memory holds the tree that the path and the subtree make up. -/
structure Holds (m : Mem Addr) (c : Ctx Addr) (t : BinTree Addr) : Prop where
  ctx : ReprCtx m c t.root?
  sub : Repr m c.parent? t
  nodup : (t.inorder ++ c.addrs).Nodup

/-- The subtree becomes another one, in memory where only the tree has changed. -/
structure Becomes (m : Mem Addr) (c : Ctx Addr) (t : BinTree Addr) (m' : Mem Addr)
    (t' : BinTree Addr) : Prop where
  holds : Holds m' c t'
  frame : ∀ a ∉ t.inorder ++ c.addrs, m' a = m a

variable {s : Side}

/-- A single rotation in memory is one of trees. -/
theorem rot1_spec {C B A : BinTree Addr} {q : Addr} {bq : Int}
    (h : Holds m c (.branch s (.branch s C q bq B) p (2 * s.sign) A)) (hbq : bq = s.sign ∨ bq = 0) :
    ∃ m', rot1 s q p m = some m' ∧ Becomes m c (.branch s (.branch s C q bq B) p (2 * s.sign) A) m'
        (.rotated1 s C q bq B p A) := by
  obtain ⟨hctx, hsub, hnd⟩ := h
  rw [repr_branch, repr_branch] at hsub
  obtain ⟨hp, ⟨hq, hC, hB⟩, hA⟩ := hsub
  simp only [root?_branch] at hctx hp
  simp only [nodup_append', nodup_inorder_branch, mem_inorder_branch, not_or, List.Disjoint] at hnd
  obtain ⟨⟨⟨hpq, hpC, hpB⟩, hpA, ⟨hqC, hqB, hCn, hBn, hCB⟩, hAn, hqA⟩, hDn, hD⟩ := hnd
  have hpD : p ∉ c.addrs := fun h => hD (.inl rfl) h
  have hqD : q ∉ c.addrs := fun h => hD (.inr (.inl (.inl rfl))) h
  obtain ⟨m1, hfix, hctx1, hm1⟩ := fixupLink_spec (some q) hctx hDn hpD (by simpa using hqD)
  have hq1 : m1 q = cell s C.root? B.root? c.parent? bq := by
    simp [hm1 q hqD, linkParent_apply, hq]
  have hother : ∀ x, x ∉ c.addrs → x ≠ q → m1 x = m x := fun x hx hxq => by
    rw [hm1 x hx, linkParent_some _ _ _ hxq]
  -- any memory with these two nodes, and the inner subtree moved below `p`
  have hbecomes : ∀ (m' : Mem Addr) (b1 b2 : Int), m' q = cell s C.root? (some p) c.parent? b1 →
      m' p = cell s B.root? A.root? (some q) b2 →
      (∀ x, x ≠ p → x ≠ q → m' x = m1.linkParent B.root? (some p) x) →
      Becomes m c (.branch s (.branch s C q bq B) p (2 * s.sign) A) m'
        (.branch s C q b1 (.branch s B p b2 A)) := by
    intro m' b1 b2 hq' hp' hx
    have hm' : ∀ x, x ≠ p ∧ x ≠ q ∧ x ∉ B.inorder → m' x = m1 x := by
      rintro x ⟨h1, h2, h3⟩
      rw [hx x h1 h2, linkParent_of_notMem _ _ _ h3]
    have hB' : Repr (m.linkParent B.root? (some p)) (some p) B := hB.linkParent hBn _
    refine ⟨⟨?_, ?_, ?_⟩, ?_⟩
    · rw [root?_branch]
      exact hctx1.congr fun x hxD => hm' x (by grind)
    · refine repr_branch.2 ⟨by rw [hq', root?_branch], hC.congr fun x hxC => ?_,
        repr_branch.2 ⟨hp', hB'.congr fun x hxB => ?_, hA.congr fun x hxA => ?_⟩⟩
      · rw [hm' x (by grind), hother x (by grind) (by grind)]
      · rw [hx x (by grind) (by grind)]
        exact linkParent_congr (hother x (by grind) (by grind)) _ _
      · rw [hm' x (by grind), hother x (by grind) (by grind)]
    · simp only [nodup_append', nodup_inorder_branch, mem_inorder_branch,
        List.Disjoint]
      grind
    · intro x hxn
      simp only [mem_append, mem_inorder_branch] at hxn
      rw [hm' x (by grind), hother x (by grind) (by grind)]
  have hp1 : m1 p = cell s (some q) A.root? c.parent? (2 * s.sign) := by
    rw [hother p hpD hpq, hp]
  have hqp : q ≠ p := Ne.symm hpq
  have hBp := fun m : Mem Addr => linkParent_of_notMem m p (some p) hpB
  have hBq := fun m : Mem Addr => linkParent_of_notMem m q (some p) hqB
  unfold rot1
  simp only [hp, hq, cell_parent, cell_child, cell_balance, hbq, hfix,
    hq1, Option.bind_eq_bind, Option.bind_some, cell_child_other, rotated1]
  simp only [setParent_apply, setChild_apply, hBq, if_neg hqp, if_true, hq1, cell_setChild_other,
    cell_balance]
  by_cases heq : bq = s.sign
  · simp only [if_pos heq]
    exact ⟨_, rfl, hbecomes _ _ _ (by simp [hBq, hqp, hq1]) (by simp [hBp, hpq, hp1])
      fun x h1 h2 => by simp [linkParent_apply, h1, h2]⟩
  · simp only [if_neg heq]
    exact ⟨_, rfl, hbecomes _ _ _ (by simp [hBq, hqp, hq1]) (by simp [hBp, hpq, hp1])
      fun x h1 h2 => by simp [linkParent_apply, h1, h2]⟩

/-- A double rotation in memory is one of trees. -/
theorem rot2_spec {D E F A : BinTree Addr} {q r : Addr} {br : Int}
    (h : Holds m c (.branch s (.branch s D q (-s.sign) (.branch s E r br F)) p (2 * s.sign) A))
    (hbr : -1 ≤ br ∧ br ≤ 1) :
    ∃ m', rot2 s r q p m = some m' ∧
      Becomes m c (.branch s (.branch s D q (-s.sign) (.branch s E r br F)) p (2 * s.sign) A) m'
        (.rotated2 s D q E r br F p A) := by
  obtain ⟨hctx, hsub, hnd⟩ := h
  rw [repr_branch, repr_branch, repr_branch] at hsub
  obtain ⟨hp, ⟨hq, hD, hr, hE, hF⟩, hA⟩ := hsub
  simp only [root?_branch] at hctx hp hq
  simp only [nodup_append', nodup_inorder_branch, mem_inorder_branch, not_or, List.Disjoint] at hnd
  have hrc : r ∉ c.addrs := by grind
  have hpc : p ∉ c.addrs := by grind
  have hcn : c.addrs.Nodup := by grind
  have hpq : p ≠ q := by grind
  have hpr : p ≠ r := by grind
  have hqr : q ≠ r := by grind
  have hEn : E.inorder.Nodup := by grind
  have hFn : F.inorder.Nodup := by grind
  obtain ⟨m1, hfix, hctx1, hm1⟩ := fixupLink_spec (some r) hctx hcn hpc (by simpa using hrc)
  have hr1 : m1 r = cell s E.root? F.root? c.parent? br := by
    simp [hm1 r hrc, linkParent_apply, hr]
  have hother : ∀ x, x ∉ c.addrs → x ≠ r → m1 x = m x := fun x hx hxr => by
    rw [hm1 x hx, linkParent_some _ _ _ hxr]
  have hbecomes : ∀ (m' : Mem Addr) (b1 b2 : Int),
      m' r = cell s (some q) (some p) c.parent? 0 → m' q = cell s D.root? E.root? (some r) b1 →
      m' p = cell s F.root? A.root? (some r) b2 →
      (∀ x, x ≠ p → x ≠ q → x ≠ r →
        m' x = (m1.linkParent F.root? (some p)).linkParent E.root? (some q) x) →
      Becomes m c (.branch s (.branch s D q (-s.sign) (.branch s E r br F)) p (2 * s.sign) A) m'
        (.branch s (.branch s D q b1 E) r 0 (.branch s F p b2 A)) := by
    intro m' b1 b2 hr' hq' hp' hx
    have hm' : ∀ x, x ≠ p ∧ x ≠ q ∧ x ≠ r ∧ x ∉ E.inorder ∧ x ∉ F.inorder → m' x = m1 x := by
      rintro x ⟨h1, h2, h3, h4, h5⟩
      rw [hx x h1 h2 h3, linkParent_of_notMem _ _ _ h4, linkParent_of_notMem _ _ _ h5]
    refine ⟨⟨?_, ?_, ?_⟩, ?_⟩
    · rw [root?_branch]
      exact hctx1.congr fun x hxc => hm' x (by grind)
    · refine repr_branch.2 ⟨by rw [hr', root?_branch, root?_branch],
        repr_branch.2 ⟨hq', hD.congr fun x hxD => ?_, (hE.linkParent hEn _).congr fun x hxE => ?_⟩,
        repr_branch.2 ⟨hp', (hF.linkParent hFn _).congr fun x hxF => ?_, hA.congr fun x hxA => ?_⟩⟩
      · rw [hm' x (by grind), hother x (by grind) (by grind)]
      · rw [hx x (by grind) (by grind) (by grind)]
        refine linkParent_congr ?_ _ _
        rw [linkParent_of_notMem (t := F) _ _ _ (by grind), hother x (by grind) (by grind)]
      · rw [hx x (by grind) (by grind) (by grind), linkParent_of_notMem (t := E) _ _ _ (by grind)]
        exact linkParent_congr (hother x (by grind) (by grind)) _ _
      · rw [hm' x (by grind), hother x (by grind) (by grind)]
    · simp only [nodup_append', nodup_inorder_branch, mem_inorder_branch,
        not_or, List.Disjoint]
      grind
    · intro x hxn
      simp only [mem_append, mem_inorder_branch, not_or] at hxn
      rw [hm' x (by grind), hother x (by grind) (by grind)]
  have hp1 : m1 p = cell s (some q) A.root? c.parent? (2 * s.sign) := by
    rw [hother p hpc hpr, hp]
  have hq1 : m1 q = cell s D.root? (some r) (some p) (-s.sign) := by
    rw [hother q (by grind) hqr, hq]
  have hFl := fun (m : Mem Addr) x (h : x ∉ F.inorder) => linkParent_of_notMem m x (some p) h
  have hEl := fun (m : Mem Addr) x (h : x ∉ E.inorder) => linkParent_of_notMem m x (some q) h
  have hFr := fun m : Mem Addr => hFl m r (by grind)
  have hFq := fun m : Mem Addr => hFl m q (by grind)
  have hFp := fun m : Mem Addr => hFl m p (by grind)
  have hEr := fun m : Mem Addr => hEl m r (by grind)
  have hEq := fun m : Mem Addr => hEl m q (by grind)
  have hEp := fun m : Mem Addr => hEl m p (by grind)
  have hrp := hpr.symm
  have hrq := hqr.symm
  have hqp := hpq.symm
  unfold rot2
  simp only [hp, hq, hr, cell_parent, cell_child, cell_balance, hbr, guard, if_true, pure_bind,
    hfix, hr1, Option.bind_eq_bind, Option.bind_some, cell_child_other, rotated2,
    setParent_apply, setChild_apply, hFr, hEr, if_neg hrp, if_neg hrq, cell_setChild,
    cell_setChild_other, and_self]
  -- the memory once all links are set
  generalize hm2 : (((((((m1.setChild s p F.root?).linkParent F.root? (some p)).setChild s.other q
    E.root?).linkParent E.root? (some q)).setChild s.other r (some p)).setParent p
    (some r)).setChild s r (some q)).setParent q (some r) = m2
  have hr2 : m2 r = cell s (some q) (some p) c.parent? br := by
    simp [← hm2, hFr, hEr, hrp, hrq, hr1]
  have hq2 : m2 q = cell s D.root? E.root? (some r) (-s.sign) := by
    simp [← hm2, hFq, hEq, hqp, hqr, hq1]
  have hp2 : m2 p = cell s F.root? A.root? (some r) (2 * s.sign) := by
    simp [← hm2, hFp, hEp, hpq, hpr, hp1]
  have hx2 : ∀ x, x ≠ p → x ≠ q → x ≠ r →
      m2 x = (m1.linkParent F.root? (some p)).linkParent E.root? (some q) x := fun x h1 h2 h3 => by
    simp [← hm2, linkParent_apply, h1, h2, h3]
  have hb := fun b1 b2 => hbecomes (((m2.setBalance p b2).setBalance q b1).setBalance r 0) b1 b2
    (by simp [hr2, hrp, hrq]) (by simp [hq2, hqp, hqr]) (by simp [hp2, hpq, hpr])
    fun x h1 h2 h3 => by simp [hx2 x h1 h2 h3, h1, h2, h3]
  have hs := s.sign_cases
  refine ⟨_, rfl, ?_⟩
  by_cases h1 : br = -s.sign
  · rw [if_pos h1, if_pos h1, if_neg (by omega)]
    exact hb _ _
  rw [if_neg h1, if_neg h1]
  by_cases h2 : br = 0
  · rw [if_pos h2, if_neg (by omega)]
    exact hb _ _
  · rw [if_neg h2, if_pos (by omega)]
    exact hb _ _

/-- `avl_tree_do_balance` for both sides at once. -/
theorem avlTreeDoBalance_eq {q : Addr} {y par : Option Addr}
    (hp : m p = cell s (some q) y par (2 * s.sign)) (hq : -1 ≤ (m q).balance ∧ (m q).balance ≤ 1) :
    avlTreeDoBalance p m =
      if (m q).balance = -s.sign then
        ((m q).child s.other).bind fun r => (rot2 s r q p m).bind fun m' => some (true, r, m')
      else (rot1 s q p m).bind fun m' => some (decide ((m q).balance ≠ 0), q, m') := by
  cases s
  · simp [avlTreeDoBalance, hp, cell, Side.sign, Side.other, AvlTreeNode.child,
      rot2LR, rot1R]
  have hiff : (m q).balance = -1 ↔ ¬ 0 ≤ (m q).balance := by omega
  by_cases h0 : 0 ≤ (m q).balance <;>
    simp [avlTreeDoBalance, hp, cell, Side.sign, Side.other, AvlTreeNode.child, rot2RL,
      rot1L, hiff, h0]

/-- **Rotating a node that is two higher on one side** restores its balance; the
flag that `avl_tree_do_balance` returns says whether it is lower then. -/
theorem avlTreeDoBalance_spec {near far : BinTree Addr}
    (h : Holds m c (.branch s near p (2 * s.sign) far)) (hnear : near.Balanced)
    (hfar : far.Balanced) (hh : near.height = far.height + 2) :
    ∃ ret a m' t', avlTreeDoBalance p m = some (ret, a, m') ∧ t'.root? = some a ∧
      Becomes m c (.branch s near p (2 * s.sign) far) m' t' ∧ t'.Balanced ∧
      t'.inorder = (branch s near p (2 * s.sign) far).inorder ∧
      t'.height = (if ret then far.height + 2 else far.height + 3) ∧
      (near.balance ≠ 0 → ret = true) := by
  obtain ⟨C, q, bq, B, rfl⟩ := exists_branch s (t := near) (by omega)
  have hp := (repr_branch.1 h.sub).1
  have hq := (repr_branch.1 (repr_branch.1 h.sub).2.1).1
  have hb := hnear
  rw [balanced_branch] at hb
  obtain ⟨hbq, h1, h2, hC, hB⟩ := hb
  rw [height_branch] at hh
  have hs := s.sign_cases
  have hrange : -1 ≤ bq ∧ bq ≤ 1 := by rcases hs with hs | hs <;> rw [hs] at hbq <;> omega
  rw [root?_branch] at hp
  rw [avlTreeDoBalance_eq hp (by rw [hq, cell_balance]; exact hrange), hq, cell_balance]
  by_cases hneg : bq = -s.sign
  · -- the inner subtree of `q` is the higher one
    have hBpos : 0 < B.height := by
      rcases hs with hs | hs <;> rw [hs] at hbq hneg <;> omega
    obtain ⟨E, r, br, F, rfl⟩ := exists_branch s hBpos
    subst hneg
    have hbr : -1 ≤ br ∧ br ≤ 1 := by
      rw [balanced_branch] at hB
      rcases hs with hs | hs <;> rw [hs] at hB <;> omega
    obtain ⟨m', hrot, hbec⟩ := rot2_spec h hbr
    obtain ⟨hbal, hheight⟩ := balanced_rotated2 (p := p) hnear hfar (by rwa [height_branch])
    refine ⟨true, r, m', _, ?_, ?_, hbec, hbal, inorder_rotated2 .., hheight, fun _ => rfl⟩
    · rw [if_pos rfl, cell_child_other, root?_branch, Option.bind_some, hrot]
      rfl
    · rw [rotated2, root?_branch]
  · obtain ⟨m', hrot, hbec⟩ := rot1_spec h (by omega)
    obtain ⟨hbal, hheight⟩ := balanced_rotated1 (p := p) hnear hfar hneg (by rwa [height_branch])
    refine ⟨_, q, m', _, by rw [if_neg hneg, hrot]; rfl, ?_, hbec, hbal,
      inorder_rotated1 .., ?_, ?_⟩
    · rw [rotated1, root?_branch]
    · rw [hheight]
      by_cases h0 : bq = 0 <;> simp
    · simp

end Links

end AvlTree
