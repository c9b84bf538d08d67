import Gramine.AvlTreeHeap

/-!
# Rebalancing

`avl_tree_balance` walks up from a node one of whose subtrees has grown or shrunk
by one. On its way the balances of the path still belong to the old height
(`Ctx.Fits c h`); each iteration repairs one node and passes a changed height on,
and when the height did not change, or the root is reached, the whole tree is
balanced.

An insertion never needs the rotation that leaves a subtree higher than before: a
subtree that has grown leans to one side, or is the new leaf.
-/

open BinaryTree List

namespace AvlTree

open BinTree

variable {Addr : Type} [DecidableEq Addr] {m : Mem Addr} {c : Ctx Addr}

variable {t : BinTree Addr} {f : Frame Addr}

omit [DecidableEq Addr] in
/-- The innermost frame can be seen as part of the subtree. -/
theorem holds_cons : Holds m (f :: c) t ↔ Holds m c (.branch f.side t f.a f.b f.sibling) := by
  have hperm : (t.inorder ++ Ctx.addrs (f :: c)).Perm
      ((branch f.side t f.a f.b f.sibling).inorder ++ Ctx.addrs c) := by
    refine List.Perm.trans ?_ ((inorder_branch_perm ..).append_right _).symm
    simp [Ctx.addrs]
  constructor
  · rintro ⟨⟨h1, h2, h3⟩, h4, h5⟩
    exact ⟨by rwa [root?_branch], repr_branch.2 ⟨h1, h4, h2⟩, hperm.nodup_iff.1 h5⟩
  rintro ⟨h1, h2, h3⟩
  obtain ⟨h4, h5, h6⟩ := repr_branch.1 h2
  rw [root?_branch] at h1
  exact ⟨⟨h4, h6, h1⟩, h5, hperm.nodup_iff.2 h3⟩

variable {a : Addr}

theorem setBalance_becomes {s : Side} {near far : BinTree Addr} {b : Int}
    (h : Holds m c (.branch s near a b far)) (b' : Int) :
    Becomes m c (.branch s near a b far) (m.setBalance a b') (.branch s near a b' far) := by
  obtain ⟨hctx, hsub, hnd⟩ := h
  obtain ⟨ha, hnear, hfar⟩ := repr_branch.1 hsub
  have hnd' := hnd
  simp only [nodup_append', nodup_inorder_branch, mem_inorder_branch, List.Disjoint] at hnd'
  have hne : ∀ x, x ≠ a → m.setBalance a b' x = m x := fun x hx => by simp [hx]
  rw [root?_branch] at hctx
  refine ⟨⟨?_, repr_branch.2 ⟨by simp [ha], hnear.congr fun x hx => hne x ?_,
    hfar.congr fun x hx => hne x ?_⟩, ?_⟩, fun x hx => hne x ?_⟩
  · rw [root?_branch]
    exact hctx.congr fun x hx => hne x (by grind)
  · grind
  · grind
  · simp only [nodup_append', nodup_inorder_branch, mem_inorder_branch,
      List.Disjoint]
    exact hnd'
  · rintro rfl
    simp at hx

omit [DecidableEq Addr] in
theorem Becomes.trans {m' m'' : Mem Addr} {t' t'' : BinTree Addr} (h : Becomes m c t m' t')
    (h' : Becomes m' c t' m'' t'') (hin : t'.inorder = t.inorder) : Becomes m c t m'' t'' :=
  ⟨h'.holds, fun a ha => (h'.frame a (hin ▸ ha)).trans (h.frame a ha)⟩

/-- How a height has changed. -/
def Changed (heightIncreased : Bool) (old new : Nat) : Prop :=
  match heightIncreased with
  | true => new = old + 1
  | false => new + 1 = old

theorem childChanged_true (s : Side) (d : Int) :
    childChanged s true (s.sign * d) = (decide (0 ≤ d), s.sign * (d + 1)) := by
  cases s
  · simp [childChanged, Side.sign]
    omega
  · simp [childChanged, Side.sign]

theorem childChanged_false (s : Side) (d : Int) :
    childChanged s false (s.sign * d) = (decide (0 < d), s.sign * (d - 1)) := by
  cases s
  · simp [childChanged, Side.sign]
    omega
  · simp [childChanged, Side.sign]

/-- What an iteration leaves: a balanced subtree with the same nodes, whose height
is the old one `h` unless the iteration says that it has changed. -/
structure Rebalanced (m : Mem Addr) (c : Ctx Addr) (t : BinTree Addr) (inc : Bool) (h : Nat)
    (changed : Bool) (a : Addr) (m' : Mem Addr) (t' : BinTree Addr) : Prop where
  root : t'.root? = some a
  becomes : Becomes m c t m' t'
  balanced : t'.Balanced
  inorder : t'.inorder = t.inorder
  kept : changed = false → t'.height = h
  moved : changed = true → Changed inc h t'.height
  leans : changed = true → inc = true → t'.balance ≠ 0

variable {inc : Bool}

section
variable {s : Side} {changed : Bool} {b : Int} (h : childChanged s inc (m a).balance = (changed, b))
include h

theorem rebalanceNode_plain (hb : -1 ≤ b ∧ b ≤ 1) :
    rebalanceNode a s inc m = some (changed, a, m.setBalance a b) := by
  simp only [rebalanceNode, h, guard]
  rw [if_pos (by omega), if_neg (by omega)]
  rfl

theorem rebalanceNode_rotate (hb : b = -2 ∨ b = 2) {ret : Bool} {r : Addr} {m' : Mem Addr}
    (hd : avlTreeDoBalance a (m.setBalance a b) = some (ret, r, m')) :
    rebalanceNode a s inc m = some (if inc then false else ret, r, m') := by
  simp only [rebalanceNode, h, guard]
  rw [if_pos (by omega), if_pos hb, hd]
  rfl

end

/-- **An iteration of `avl_tree_balance`.** -/
theorem rebalanceNode_spec {h0 : Nat} (h : Holds m (f :: c) t) (hfit : Ctx.Fits (f :: c) h0)
    (ht : t.Balanced) (hh : Changed inc h0 t.height)
    (hgrown : inc = true → t.height = 1 ∨ t.balance ≠ 0) :
    ∃ changed a m' t', rebalanceNode f.a f.side inc m = some (changed, a, m') ∧
      Rebalanced m c (.branch f.side t f.a f.b f.sibling) inc (max h0 f.sibling.height + 1)
        changed a m' t' := by
  obtain ⟨hb, h1, h2, hsib, -⟩ := hfit
  have hf : (m f.a).balance = f.b := by rw [h.ctx.1, cell_balance]
  rw [holds_cons] at h
  have hs := f.side.sign_cases
  have hin : ∀ b, (branch f.side t f.a b f.sibling).inorder =
      (branch f.side t f.a f.b f.sibling).inorder := fun b =>
    inorder_branch_congr ..
  cases inc with
  | true =>
    have hh' : t.height = h0 + 1 := hh
    have hcc := childChanged_true f.side ((h0 : Int) - f.sibling.height)
    rw [← hb, ← hf] at hcc
    by_cases hd : h0 = f.sibling.height + 1
    · -- the subtree that has grown is two higher than the other one
      have hnew : f.side.sign * ((h0 : Int) - f.sibling.height + 1) = 2 * f.side.sign := by
        rcases hs with hs | hs <;> rw [hs] <;> omega
      rw [hnew] at hcc
      have hset := setBalance_becomes h (2 * f.side.sign)
      obtain ⟨ret, a, m', t', hdo, hroot, hbec, hbal, hin', hht, hret⟩ :=
        avlTreeDoBalance_spec hset.holds ht hsib (by omega)
      have hret' : ret = true := hret ((hgrown rfl).resolve_left (by omega))
      refine ⟨_, a, m', t', rebalanceNode_rotate hcc (by omega) hdo, hroot,
        hset.trans hbec (hin _), hbal, hin'.trans (hin _), fun _ => ?_, by simp, by simp⟩
      rw [hht, hret', if_pos rfl]
      omega
    · refine ⟨_, f.a, _, _, rebalanceNode_plain hcc ?_, root?_branch ..,
        setBalance_becomes h _,
        (balanced_branch ..).2 ⟨?_, ?_, ?_, ht, hsib⟩, hin _, ?_, ?_, ?_⟩
      · rcases hs with hs | hs <;> rw [hs] <;> omega
      · congr 1
        omega
      · omega
      · omega
      · rw [height_branch, decide_eq_false_iff_not]
        omega
      · rw [height_branch, decide_eq_true_iff, Changed]
        omega
      · rw [balance_branch, decide_eq_true_iff]
        rcases hs with hs | hs <;> rw [hs] <;> omega
  | false =>
    have hh' : t.height + 1 = h0 := hh
    have hcc := childChanged_false f.side ((h0 : Int) - f.sibling.height)
    rw [← hb, ← hf] at hcc
    by_cases hd : h0 + 1 = f.sibling.height
    · -- the sibling of the subtree that has shrunk is two higher
      have hnew : f.side.sign * ((h0 : Int) - f.sibling.height - 1) = 2 * f.side.other.sign := by
        rw [Side.sign_other]
        rcases hs with hs | hs <;> rw [hs] <;> omega
      rw [hnew] at hcc
      have hset := setBalance_becomes h (2 * f.side.other.sign)
      have hholds := hset.holds
      rw [← branch_other] at hholds
      obtain ⟨ret, a, m', t', hdo, hroot, hbec, hbal, hin', hht, -⟩ :=
        avlTreeDoBalance_spec hholds hsib ht (by omega)
      rw [branch_other] at hbec hin'
      refine ⟨_, a, m', t', rebalanceNode_rotate hcc ?_ hdo, hroot,
        hset.trans hbec (hin _), hbal, hin'.trans (hin _), ?_, ?_, by simp⟩
      · rw [Side.sign_other]
        omega
      · rintro rfl
        rw [hht]
        simp only [Bool.false_eq_true, if_false]
        omega
      · rintro rfl
        rw [hht, Changed]
        simp only [if_true]
        omega
    · refine ⟨_, f.a, _, _, rebalanceNode_plain hcc ?_, root?_branch ..,
        setBalance_becomes h _,
        (balanced_branch ..).2 ⟨?_, ?_, ?_, ht, hsib⟩, hin _, ?_, ?_, by simp⟩
      · rcases hs with hs | hs <;> rw [hs] <;> omega
      · congr 1
        omega
      · omega
      · omega
      · rw [height_branch, decide_eq_false_iff_not]
        omega
      · rw [height_branch, decide_eq_true_iff, Changed]
        omega

omit [DecidableEq Addr] in
theorem Holds.parent (h : Holds m c t) (ha : t.root? = some a) : (m a).parent = c.parent? := by
  cases t with
  | nil => cases ha
  | node l x b r =>
    obtain rfl := Option.some.inj ha
    rw [h.sub.1]

theorem sideOf_spec (h : Holds m (f :: c) t) (ha : t.root? = some a) :
    sideOf a f.a m = some f.side := by
  have hf := h.ctx.1
  rw [ha] at hf
  cases hside : f.side with
  | left => simp [sideOf, hf, hside, cell]
  | right =>
    have hne : f.sibling.root? ≠ some a := fun hs => by
      have := disjoint_of_nodup_append h.nodup (mem_inorder_of_root? ha)
      simp [Ctx.addrs, mem_inorder_of_root? hs] at this
    simp [sideOf, hf, hside, cell, hne]

/-- Where balancing stops: the tree is whole again, with the same nodes. -/
structure Stopped (m : Mem Addr) (c : Ctx Addr) (t : BinTree Addr) (a : Addr) (m' : Mem Addr)
    (c' : Ctx Addr) (t' : BinTree Addr) : Prop where
  root : t'.root? = some a
  holds : Holds m' c' t'
  balanced : (c'.plug t').Balanced
  inorder : (c'.plug t').inorder = (c.plug t).inorder
  frame : ∀ x ∉ (c.plug t).inorder, m' x = m x
  top : c' ≠ [] → (c'.plug t').root? = (c.plug t).root?

section
omit [DecidableEq Addr]

variable {changed : Bool} {m' : Mem Addr} {t t' : BinTree Addr}

section
variable {inc : Bool} {h : Nat} {a : Addr} (hr : Rebalanced m c t inc h changed a m' t')
include hr

theorem Rebalanced.inorder_plug : (c.plug t').inorder = (c.plug t).inorder := by
  rw [Ctx.inorder_plug, Ctx.inorder_plug, hr.inorder]

theorem Rebalanced.frame_plug {x : Addr} (hx : x ∉ (c.plug t).inorder) : m' x = m x :=
  hr.becomes.frame x fun hmem => hx ((Ctx.inorder_plug_perm c t).mem_iff.2 hmem)

end

/-- An iteration after which nothing above has to change is the last one. -/
theorem Rebalanced.stopped {f : Frame Addr} {inc : Bool} {h : Nat} {a : Addr}
    (hr : Rebalanced m c (.branch f.side t f.a f.b f.sibling) inc h changed a m' t')
    (hfit : c.Fits t'.height) : Stopped m (f :: c) t a m' c t' :=
  ⟨hr.root, hr.becomes.holds, (Ctx.balanced_plug c t').2 ⟨hr.balanced, hfit⟩, hr.inorder_plug,
    fun _ hx => hr.frame_plug hx, fun hc => Ctx.root?_plug hc _ _⟩

end

/-- **`avl_tree_balance` restores the tree**: from a node whose child on the path
has grown or shrunk by one, it returns, and leaves a balanced tree of the same
nodes in the same order. -/
theorem avlTreeBalance_spec {h0 fuel : Nat} (h : Holds m (f :: c) t) (hfit : Ctx.Fits (f :: c) h0)
    (ht : t.Balanced) (hh : Changed inc h0 t.height)
    (hgrown : inc = true → t.height = 1 ∨ t.balance ≠ 0) (hfuel : c.length < fuel) :
    ∃ a m' c' t', avlTreeBalance fuel f.a f.side inc m = some (a, m') ∧
      Stopped m (f :: c) t a m' c' t' := by
  induction c generalizing m f t h0 fuel with
  | nil =>
    obtain ⟨fuel, rfl⟩ := Nat.exists_eq_add_one_of_ne_zero (Nat.ne_of_gt hfuel)
    obtain ⟨changed, a, m', t', hreb, hr⟩ := rebalanceNode_spec h hfit ht hh hgrown
    refine ⟨a, m', [], t', ?_, hr.stopped trivial⟩
    simp [avlTreeBalance, hreb, hr.becomes.holds.parent hr.root]
  | cons f' c ih =>
    obtain ⟨fuel, rfl⟩ := Nat.exists_eq_add_one_of_ne_zero (Nat.ne_of_gt (Nat.zero_lt_of_lt hfuel))
    obtain ⟨changed, a, m', t', hreb, hr⟩ := rebalanceNode_spec h hfit ht hh hgrown
    have hup := hfit.2.2.2.2
    cases changed with
    | false =>
      refine ⟨a, m', f' :: c, t', by simp [avlTreeBalance, hreb], hr.stopped ?_⟩
      rwa [hr.kept rfl]
    | true =>
      have hholds := hr.becomes.holds
      obtain ⟨b, m'', c', t'', hloop, hstop⟩ := ih hholds hup hr.balanced (hr.moved rfl)
        (fun hi => .inr (hr.leans rfl hi)) (Nat.lt_of_succ_lt_succ hfuel)
      refine ⟨b, m'', c', t'', ?_, hstop.root, hstop.holds, hstop.balanced,
        hstop.inorder.trans hr.inorder_plug, fun x hx => ?_, fun hc => ?_⟩
      · simp [avlTreeBalance, hreb, hholds.parent hr.root, sideOf_spec hholds hr.root, hloop]
      · rw [hstop.frame x (by rwa [hr.inorder_plug]), hr.frame_plug hx]
      · rw [hstop.top hc]
        exact Ctx.root?_plug (cons_ne_nil _ _) _ _

end AvlTree
