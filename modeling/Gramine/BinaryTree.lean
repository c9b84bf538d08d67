import Mathlib

/-!
# Binary trees with balances

Trees whose nodes carry an address and a stored balance, and the path from a
subtree up to the root (`Ctx`, innermost frame first). The stored balance is
data: it need not be right while a tree is being rebalanced, and `Balanced` says
that it is.

Everything is written for a side `s` and its opposite, so that a fact about one
rotation is also the fact about its mirror image: `branch s near a b far` is the
node with the subtree `near` on side `s`.
-/

open List

namespace BinaryTree

/-- The two children of a node. -/
inductive Side
  | left
  | right
  deriving DecidableEq, Repr

/-- The opposite side. -/
def Side.other : Side → Side
  | .left => .right
  | .right => .left

/-- The balance of a node that is higher by one on this side. -/
def Side.sign : Side → Int
  | .left => -1
  | .right => 1

theorem Side.sign_other (s : Side) : s.other.sign = -s.sign := by
  cases s <;> rfl

theorem Side.sign_cases (s : Side) : s.sign = 1 ∨ s.sign = -1 := by
  cases s <;> decide

/-- A tree of addresses with balances. -/
inductive BinTree (α : Type*)
  | nil
  | node (l : BinTree α) (a : α) (b : Int) (r : BinTree α)
  deriving DecidableEq, Repr

namespace BinTree
variable {α : Type*}

/-- The node at the top. -/
def root? : BinTree α → Option α
  | nil => none
  | node _ a _ _ => some a

/-- The addresses from left to right. -/
def inorder : BinTree α → List α
  | nil => []
  | node l a _ r => l.inorder ++ a :: r.inorder

variable {t : BinTree α}

theorem eq_nil_of_root? (h : t.root? = none) : t = nil := by
  cases t with
  | nil => rfl
  | node => cases h

theorem mem_inorder_of_root? {a : α} (h : t.root? = some a) : a ∈ t.inorder := by
  cases t with
  | nil => cases h
  | node l x b r =>
    obtain rfl := Option.some.inj h
    simp [inorder]

/-- The number of nodes on a longest path. -/
def height : BinTree α → Nat
  | nil => 0
  | node l _ _ r => max l.height r.height + 1

/-- A loop down the tree needs no more fuel than there are nodes. -/
theorem height_le_length_inorder (t : BinTree α) : t.height ≤ t.inorder.length := by
  induction t with
  | nil => exact Nat.le_refl _
  | node l a b r ihl ihr =>
    simp only [height, inorder, length_append, length_cons]
    omega

/-- The stored balance of the root; a missing node counts as even. -/
def balance : BinTree α → Int
  | nil => 0
  | node _ _ b _ => b

/-- Every balance is the difference of the heights below it, and that is at most one. -/
def Balanced : BinTree α → Prop
  | nil => True
  | node l _ b r => b = (r.height : Int) - l.height ∧ l.height ≤ r.height + 1 ∧
      r.height ≤ l.height + 1 ∧ l.Balanced ∧ r.Balanced

/-- The node with the subtree `near` on side `s`. -/
def branch (s : Side) (near : BinTree α) (a : α) (b : Int) (far : BinTree α) : BinTree α :=
  match s with
  | .left => node near a b far
  | .right => node far a b near

section Branch
variable (s : Side) (near far : BinTree α) (a : α) (b : Int)

@[simp] theorem root?_branch : (branch s near a b far).root? = some a := by
  cases s <;> rfl

@[simp] theorem balance_branch : (branch s near a b far).balance = b := by
  cases s <;> rfl

@[simp] theorem height_branch :
    (branch s near a b far).height = max near.height far.height + 1 := by
  cases s <;> simp [branch, height, Nat.max_comm]

/-- Balance, read from either side. -/
theorem balanced_branch : (branch s near a b far).Balanced ↔
    b = s.sign * ((near.height : Int) - far.height) ∧ near.height ≤ far.height + 1 ∧
      far.height ≤ near.height + 1 ∧ near.Balanced ∧ far.Balanced := by
  cases s
  · simp [branch, Balanced, Side.sign]
  · simp only [Side.sign, Int.one_mul]
    constructor <;> rintro ⟨h1, h2, h3, h4, h5⟩ <;> exact ⟨h1, h3, h2, h5, h4⟩

theorem inorder_branch_perm :
    (branch s near a b far).inorder.Perm (a :: (near.inorder ++ far.inorder)) := by
  cases s
  · exact perm_middle
  · exact perm_middle.trans (perm_append_comm.cons a)

theorem inorder_branch_congr (b' : Int) :
    (branch s near a b far).inorder = (branch s near a b' far).inorder := by
  cases s <;> rfl

@[simp] theorem mem_inorder_branch {x : α} : x ∈ (branch s near a b far).inorder ↔
    x = a ∨ x ∈ near.inorder ∨ x ∈ far.inorder := by
  simpa using (inorder_branch_perm s near far a b).mem_iff

theorem nodup_inorder_branch : (branch s near a b far).inorder.Nodup ↔
    a ∉ near.inorder ∧ a ∉ far.inorder ∧ near.inorder.Nodup ∧ far.inorder.Nodup ∧
      near.inorder.Disjoint far.inorder := by
  rw [(inorder_branch_perm s near far a b).nodup_iff, nodup_cons, mem_append, not_or,
    nodup_append', and_assoc]

end Branch

theorem branch_other (s : Side) (near far : BinTree α) (a : α) (b : Int) :
    branch s.other near a b far = branch s far a b near := by
  cases s <;> rfl

theorem exists_branch (s : Side) (h : 0 < t.height) :
    ∃ near a b far, t = branch s near a b far := by
  cases t with
  | nil => exact absurd h (Nat.lt_irrefl 0)
  | node l a b r =>
    cases s
    · exact ⟨l, a, b, r, rfl⟩
    · exact ⟨r, a, b, l, rfl⟩

end BinTree

/-! ## Paths to the root -/

/-- A node above a subtree: the side the subtree is on, and the other child. -/
structure Frame (α : Type*) where
  side : Side
  a : α
  b : Int
  sibling : BinTree α

/-- What lies above a subtree, innermost frame first. -/
abbrev Ctx (α : Type*) := List (Frame α)

namespace Ctx
variable {α : Type*}

/-- The parent of the subtree, when `top` is the parent of the whole. -/
def parentBelow (top : Option α) : Ctx α → Option α
  | [] => top
  | f :: _ => some f.a

/-- The parent of the subtree. -/
def parent? (c : Ctx α) : Option α := parentBelow none c

@[simp] theorem parent?_nil : parent? ([] : Ctx α) = none := rfl

@[simp] theorem parent?_cons (f : Frame α) (c : Ctx α) : parent? (f :: c) = some f.a := rfl

/-- The whole tree. -/
def plug : Ctx α → BinTree α → BinTree α
  | [], t => t
  | f :: c, t => plug c (.branch f.side t f.a f.b f.sibling)

/-- The addresses outside the subtree. -/
def addrs : Ctx α → List α
  | [] => []
  | f :: c => f.a :: (f.sibling.inorder ++ addrs c)

/-- The addresses before the subtree, in order. -/
def before : Ctx α → List α
  | [] => []
  | ⟨.left, _, _, _⟩ :: c => before c
  | ⟨.right, a, _, l⟩ :: c => before c ++ l.inorder ++ [a]

/-- The addresses after the subtree, in order. -/
def after : Ctx α → List α
  | [] => []
  | ⟨.left, a, _, r⟩ :: c => a :: r.inorder ++ after c
  | ⟨.right, _, _, _⟩ :: c => after c

/-- Every balance above a subtree of height `h` is right, and so is every subtree
beside the path. -/
def Fits : Ctx α → Nat → Prop
  | [], _ => True
  | f :: c, h => f.b = f.side.sign * ((h : Int) - f.sibling.height) ∧
      h ≤ f.sibling.height + 1 ∧ f.sibling.height ≤ h + 1 ∧ f.sibling.Balanced ∧
      Fits c (max h f.sibling.height + 1)

/-- A path is followed in two parts. -/
theorem plug_append (c d : Ctx α) (t : BinTree α) : plug (c ++ d) t = plug d (plug c t) := by
  induction c generalizing t with
  | nil => rfl
  | cons f c ih => exact ih _

theorem before_append {d : Ctx α} (hd : ∀ f ∈ d, f.side = .left) (c : Ctx α) :
    before (d ++ c) = before c := by
  induction d with
  | nil => rfl
  | cons f d ih =>
    obtain ⟨s, a, b, u⟩ := f
    obtain rfl : s = .left := hd _ mem_cons_self
    exact ih fun g hg => hd g (mem_cons_of_mem _ hg)

theorem after_right {d : Ctx α} (hd : ∀ f ∈ d, f.side = .right) : after d = [] := by
  induction d with
  | nil => rfl
  | cons f d ih =>
    obtain ⟨s, a, b, u⟩ := f
    obtain rfl : s = .right := hd _ mem_cons_self
    exact ih fun g hg => hd g (mem_cons_of_mem _ hg)

theorem after_append (d c : Ctx α) : after (d ++ c) = after d ++ after c := by
  induction d with
  | nil => rfl
  | cons f d ih =>
    obtain ⟨s, a, b, u⟩ := f
    cases s <;> simp [after, ih]

variable {c : Ctx α}

/-- The addresses on a path do not matter for its balances. -/
theorem fits_replace {d : Ctx α} {f : Frame α} {h : Nat} (x : α) (hf : Fits (d ++ f :: c) h) :
    Fits (d ++ { f with a := x } :: c) h := by
  induction d generalizing h with
  | nil => exact hf
  | cons g d ih => exact ⟨hf.1, hf.2.1, hf.2.2.1, hf.2.2.2.1, ih hf.2.2.2.2⟩

/-- There is a path to every node. -/
theorem exists_plug {a : α} {t : BinTree α} (h : a ∈ t.inorder) :
    ∃ c l b r, t = plug c (.node l a b r) := by
  induction t with
  | nil => cases h
  | node l x b r ihl ihr =>
    simp only [BinTree.inorder, mem_append, mem_cons] at h
    rcases h with h | rfl | h
    · obtain ⟨c, l', b', r', rfl⟩ := ihl h
      exact ⟨c ++ [⟨.left, x, b, r⟩], l', b', r', by rw [plug_append]; rfl⟩
    · exact ⟨[], l, b, r, rfl⟩
    · obtain ⟨c, l', b', r', rfl⟩ := ihr h
      exact ⟨c ++ [⟨.right, x, b, l⟩], l', b', r', by rw [plug_append]; rfl⟩

theorem root?_plug (hc : c ≠ []) (t u : BinTree α) : (plug c t).root? = (plug c u).root? := by
  induction c generalizing t u with
  | nil => exact absurd rfl hc
  | cons f c ih =>
    rcases eq_or_ne c [] with rfl | hne
    · simp [plug]
    · exact ih hne _ _

/-- What is in order before and after the place does not depend on the subtree there. -/
theorem inorder_plug (c : Ctx α) (t : BinTree α) :
    (plug c t).inorder = before c ++ t.inorder ++ after c := by
  induction c generalizing t with
  | nil => simp [plug, before, after]
  | cons f c ih =>
    obtain ⟨s, a, b, u⟩ := f
    cases s <;> simp [plug, ih, BinTree.branch, BinTree.inorder, before, after]

theorem inorder_plug_perm (c : Ctx α) (t : BinTree α) :
    (plug c t).inorder.Perm (t.inorder ++ addrs c) := by
  induction c generalizing t with
  | nil => simp [plug, addrs]
  | cons f c ih =>
    refine (ih _).trans (((BinTree.inorder_branch_perm _ _ _ _ _).append_right _).trans ?_)
    simpa [addrs] using perm_middle.symm

theorem exists_root?_plug (hc : c ≠ []) (t : BinTree α) :
    ∃ x ∈ addrs c, (plug c t).root? = some x := by
  induction c generalizing t with
  | nil => exact absurd rfl hc
  | cons f c ih =>
    rcases eq_or_ne c [] with rfl | hne
    · exact ⟨f.a, by simp [addrs], by simp [plug]⟩
    · obtain ⟨x, hx, hroot⟩ := ih hne (.branch f.side t f.a f.b f.sibling)
      exact ⟨x, by simp [addrs, hx], hroot⟩

/-- The root pointer after a subtree with root `a` is replaced by one with root `b`. -/
theorem root?_replace [DecidableEq α] {t u : BinTree α} {a b : α} (ht : t.root? = some a)
    (hu : u.root? = some b) (ha : a ∉ addrs c) :
    (if (plug c t).root? = some a then some b else (plug c t).root?) = (plug c u).root? := by
  rcases eq_or_ne c [] with rfl | hne
  · simp [plug, ht, hu]
  obtain ⟨x, hx, hroot⟩ := exists_root?_plug hne t
  rw [root?_plug hne u t, hroot, if_neg]
  rintro h
  exact ha (Option.some.inj h ▸ hx)

theorem length_le_inorder_plug (c : Ctx α) (t : BinTree α) :
    c.length ≤ (plug c t).inorder.length := by
  rw [(inorder_plug_perm c t).length_eq, length_append]
  induction c with
  | nil => exact Nat.zero_le _
  | cons f c ih =>
    simp only [addrs, length_cons, length_append]
    omega

/-- A tree is balanced if the subtree at a place is and has a height that fits there. -/
theorem balanced_plug (c : Ctx α) (t : BinTree α) :
    (plug c t).Balanced ↔ t.Balanced ∧ Fits c t.height := by
  induction c generalizing t with
  | nil => simp [plug, Fits]
  | cons f c ih =>
    rw [plug, ih, BinTree.balanced_branch, BinTree.height_branch]
    constructor
    · rintro ⟨⟨h1, h2, h3, h4, h5⟩, h6⟩
      exact ⟨h4, h1, h2, h3, h5, h6⟩
    · rintro ⟨h4, h1, h2, h3, h5, h6⟩
      exact ⟨⟨h1, h2, h3, h4, h5⟩, h6⟩

end Ctx

/-! ## Rotations

`p` is a node two higher on side `s` than on the other, `q` its child on that
side, and in the double rotation `r` the child of `q` on the other side. -/

namespace BinTree
variable {α : Type*} (s : Side)

/-- The single rotation that puts `q` in the place of `p`. -/
def rotated1 (c : BinTree α) (q : α) (bq : Int) (b : BinTree α) (p : α) (a : BinTree α) :
    BinTree α :=
  branch s c q (if bq = s.sign then 0 else -s.sign)
    (branch s b p (if bq = s.sign then 0 else s.sign) a)

/-- The double rotation that puts `r` in the place of `p`. -/
def rotated2 (d : BinTree α) (q : α) (e : BinTree α) (r : α) (br : Int) (f : BinTree α) (p : α)
    (a : BinTree α) : BinTree α :=
  branch s (branch s d q (if br = -s.sign then s.sign else 0) e) r 0
    (branch s f p (if br = s.sign then -s.sign else 0) a)

variable {s}

/-- Rotations keep the order, -/
theorem inorder_rotated1 (c b a : BinTree α) (q p : α) (bq bp : Int) :
    (rotated1 s c q bq b p a).inorder = (branch s (branch s c q bq b) p bp a).inorder := by
  cases s <;> simp [rotated1, branch, inorder]

/-- double ones as well. -/
theorem inorder_rotated2 (d e f a : BinTree α) (q r p : α) (bq br bp : Int) :
    (rotated2 s d q e r br f p a).inorder =
      (branch s (branch s d q bq (branch s e r br f)) p bp a).inorder := by
  cases s <;> simp [rotated2, branch, inorder]

/-- A single rotation restores the balance; only when the child was even does the
height stay. -/
theorem balanced_rotated1 {c b a : BinTree α} {q p : α} {bq : Int}
    (hq : (branch s c q bq b).Balanced) (ha : a.Balanced) (hbq : bq ≠ -s.sign)
    (hh : (branch s c q bq b).height = a.height + 2) :
    (rotated1 s c q bq b p a).Balanced ∧
      (rotated1 s c q bq b p a).height = if bq = 0 then a.height + 3 else a.height + 2 := by
  rw [balanced_branch] at hq
  obtain ⟨h1, h2, h3, hc, hb⟩ := hq
  rw [height_branch] at hh
  simp only [rotated1, balanced_branch, height_branch]
  rcases s.sign_cases with hs | hs <;> simp only [hs] at *
  all_goals
    refine ⟨⟨?_, ?_, ?_, hc, ?_, ?_, ?_, hb, ha⟩, ?_⟩
    all_goals (try split) <;> omega

/-- A double rotation balances the tree when the inner subtree is the higher one. -/
theorem balanced_rotated2 {d e f a : BinTree α} {q r p : α} {br : Int}
    (hq : (branch s d q (-s.sign) (branch s e r br f)).Balanced) (ha : a.Balanced)
    (hh : (branch s d q (-s.sign) (branch s e r br f)).height = a.height + 2) :
    (rotated2 s d q e r br f p a).Balanced ∧
      (rotated2 s d q e r br f p a).height = a.height + 2 := by
  rw [balanced_branch, balanced_branch] at hq
  obtain ⟨h1, h2, h3, hd, h4, h5, h6, he, hf⟩ := hq
  simp only [rotated2, balanced_branch, height_branch] at *
  rcases s.sign_cases with hs | hs <;> simp only [hs] at *
  all_goals
    refine ⟨⟨?_, ?_, ?_, ⟨?_, ?_, ?_, hd, he⟩, ?_, ?_, ?_, hf, ha⟩, ?_⟩
    all_goals (try split) <;> omega

end BinTree

end BinaryTree
