import Gramine.IntervalList

/-!
# Walks over disjoint intervals

A walk visits the intervals that begin before an address `stop`, one after the other, until there is
none left or the visitor refuses one. On the way it finds out whether the intervals follow each
other without a hole. Which intervals the visitor refuses does not depend on the ones before.
-/

open List

namespace IntervalWalk

open IntervalList

variable {α σ : Type*} (lo hi : α → Nat) (stop : Nat) (visit : α → σ → Bool × σ)

/-- The walk from `a` on: whether there was no hole, and what the visitor has collected. -/
def walk : α → List α → Bool → σ → Bool × σ
  | a, rest, isContinuous, ctx =>
    let (goOn, ctx) := visit a ctx
    if goOn = false then (isContinuous, ctx)
    else
      match rest with
      | [] => (isContinuous && stop ≤ hi a, ctx)
      | b :: rest =>
        if stop ≤ lo b then (isContinuous && stop ≤ hi a, ctx)
        else walk b rest (isContinuous && hi a = lo b) ctx

/-- The intervals that are visited: those up to the first that is refused. -/
def visited (ok : α → Bool) : α → List α → List α
  | a, rest =>
    if ok a = false then [a]
    else
      match rest with
      | [] => [a]
      | b :: rest => if stop ≤ lo b then [a] else a :: visited ok b rest

/-- An address that is in no interval, and that the walk gets past: no interval before it is
refused. -/
def Hole (ok : α → Bool) (l : List α) (x : Nat) : Prop :=
  (∀ b ∈ l, ¬ (lo b ≤ x ∧ x < hi b)) ∧ ∀ b ∈ l, lo b < x → ok b

variable {lo hi stop visit} {ok : α → Bool} {a : α} {rest l : List α} {x : Nat}

theorem lo_le_of_mem {b : α} (hord : Ordered lo hi (a :: rest)) (hb : b ∈ a :: rest) :
    lo a ≤ lo b := by
  obtain ⟨ha, hafter, -⟩ := Ordered.cons_iff.1 hord
  rcases mem_cons.1 hb with rfl | hb
  · exact Nat.le_refl _
  · have := hafter b hb
    omega

theorem hole_of_late (hlate : ∀ b ∈ l, x < lo b) : Hole lo hi ok l x := by
  refine ⟨fun b hb hcover => ?_, fun b hb hlt => ?_⟩
  all_goals
    have := hlate b hb
    omega

theorem hole_cons_iff (hok : ok a = true) (hx : hi a ≤ x) :
    Hole lo hi ok (a :: rest) x ↔ Hole lo hi ok rest x := by
  have hnot : ¬ (lo a ≤ x ∧ x < hi a) := by omega
  simp only [Hole, forall_mem_cons, hnot, not_false_eq_true, true_and, hok, implies_true]

/-- A walk that has got to `x` and finds no more intervals has to be at its end. -/
theorem forall_not_hole_late (hlate : ∀ b ∈ l, stop ≤ lo b) :
    (∀ y, x ≤ y → y < stop → ¬ Hole lo hi ok l y) ↔ stop ≤ x := by
  refine ⟨fun h => ?_, fun hle y hy hlt => by omega⟩
  by_contra hlt
  exact h x le_rfl (not_le.1 hlt) (hole_of_late fun b hb => (not_le.1 hlt).trans_le (hlate b hb))

/-- The next interval must not begin behind `x`, and after it there must be no hole unless it is
refused. -/
theorem forall_not_hole_cons (hord : Ordered lo hi (a :: rest)) (ha : lo a < stop) (hx : x < hi a) :
    (∀ y, x ≤ y → y < stop → ¬ Hole lo hi ok (a :: rest) y) ↔
      lo a ≤ x ∧ (ok a = true → ∀ y, hi a ≤ y → y < stop → ¬ Hole lo hi ok rest y) := by
  constructor
  · intro h
    refine ⟨?_, fun hok y hy hlt hhole => ?_⟩
    · by_contra hax
      refine h x le_rfl (by omega) (hole_of_late fun b hb => ?_)
      have := lo_le_of_mem hord hb
      omega
    · exact h y (by omega) hlt ((hole_cons_iff hok hy).2 hhole)
  · rintro ⟨hax, h⟩ y hy hlt hhole
    have hnot := hhole.1 a mem_cons_self
    have hok := hhole.2 a mem_cons_self (by omega)
    have hle : hi a ≤ y := by omega
    exact h hok y hle hlt ((hole_cons_iff hok hle).1 hhole)

section Visitor
variable (hok : ∀ a ctx, (visit a ctx).1 = ok a)
include hok

theorem walk_snd (a : α) (rest : List α) (c : Bool) (ctx : σ) :
    (walk lo hi stop visit a rest c ctx).2 =
      (visited lo stop ok a rest).foldl (fun ctx b => (visit b ctx).2) ctx := by
  induction rest generalizing a c ctx with
  | nil =>
    rw [walk, visited]
    simp only [hok]
    split <;> rfl
  | cons b rest ih =>
    rw [walk, visited]
    simp only [hok]
    split_ifs
    · rfl
    · rfl
    · exact ih ..

/-- **The walk finds every hole that it gets past.** -/
theorem walk_fst (hord : Ordered lo hi (a :: rest)) (ha : lo a < stop) (hx : x < hi a) (c : Bool)
    (ctx : σ) :
    (walk lo hi stop visit a rest (c && lo a ≤ x) ctx).1 = true ↔
      c = true ∧ ∀ y, x ≤ y → y < stop → ¬ Hole lo hi ok (a :: rest) y := by
  induction rest generalizing a c ctx x with
  | nil =>
    rw [walk, forall_not_hole_cons hord ha hx, forall_not_hole_late (by simp)]
    simp only [hok]
    cases ok a <;> simp [and_assoc]
  | cons b rest ih =>
    obtain ⟨-, hafter, hrest⟩ := Ordered.cons_iff.1 hord
    rw [walk, forall_not_hole_cons hord ha hx]
    simp only [hok]
    cases ok a with
    | false => simp
    | true =>
      rw [if_neg Bool.noConfusion]
      by_cases hlate : stop ≤ lo b
      · rw [forall_not_hole_late fun d hd => hlate.trans (lo_le_of_mem hrest hd)]
        simp [hlate, and_assoc]
      · have hab := hafter b mem_cons_self
        have heq : (hi a = lo b) = (lo b ≤ hi a) := propext (by omega)
        simp only [heq]
        rw [if_neg hlate, ih hrest (not_le.1 hlate) (hab.trans_lt (hrest.nonempty b mem_cons_self))]
        simp [and_assoc]

end Visitor

/-- How a walk ends: every interval before `stop` was accepted, or one was refused, the first such
one. -/
inductive Ended (lo : α → Nat) (stop : Nat) (ok : α → Bool) (l : List α) : List α → Prop
  | accepted {vs : List α} (hok : ∀ b ∈ vs, ok b = true)
      (hmem : ∀ b, b ∈ vs ↔ b ∈ l ∧ lo b < stop) :
    Ended lo stop ok l vs
  | refused (vs : List α) {b : α} (hok : ∀ c ∈ vs, ok c = true) (hb : b ∈ l) (hlt : lo b < stop)
      (hrefused : ok b = false) (hmem : ∀ c, c ∈ vs ↔ c ∈ l ∧ lo c < lo b) :
    Ended lo stop ok l (vs ++ [b])

theorem mem_cons_visited {vs : List α} {y : Nat} (ha : lo a < y)
    (hmem : ∀ b, b ∈ vs ↔ b ∈ rest ∧ lo b < y) (c : α) :
    c ∈ a :: vs ↔ c ∈ a :: rest ∧ lo c < y := by
  rw [mem_cons, hmem, mem_cons]
  constructor
  · rintro (rfl | ⟨hc, hlt⟩)
    · exact ⟨.inl rfl, ha⟩
    · exact ⟨.inr hc, hlt⟩
  · rintro ⟨rfl | hc, hlt⟩
    · exact .inl rfl
    · exact .inr ⟨hc, hlt⟩

theorem mem_nil_of_late (hlate : ∀ b ∈ l, stop ≤ lo b) (c : α) : c ∈ [] ↔ c ∈ l ∧ lo c < stop :=
  ⟨nofun, fun ⟨hc, hlt⟩ => absurd hlt (hlate c hc).not_gt⟩

theorem ended_singleton (hord : Ordered lo hi (a :: rest)) (ha : lo a < stop)
    (hlate : ok a = true → ∀ b ∈ rest, stop ≤ lo b) : Ended lo stop ok (a :: rest) [a] := by
  cases hok : ok a with
  | false =>
    exact .refused [] nofun mem_cons_self ha hok (mem_nil_of_late fun _ => lo_le_of_mem hord)
  | true => exact .accepted (by simpa) (mem_cons_visited ha (mem_nil_of_late (hlate hok)))

/-- **What is visited.** -/
theorem visited_ended (hord : Ordered lo hi (a :: rest)) (ha : lo a < stop) :
    Ended lo stop ok (a :: rest) (visited lo stop ok a rest) := by
  induction rest generalizing a with
  | nil =>
    simp only [visited, ite_self]
    exact ended_singleton hord ha nofun
  | cons b rest ih =>
    obtain ⟨-, hafter, hrest⟩ := Ordered.cons_iff.1 hord
    rw [visited]
    split_ifs with hok hlate
    · exact ended_singleton hord ha (by simp [hok])
    · exact ended_singleton hord ha fun _ c hc => hlate.trans (lo_le_of_mem hrest hc)
    have hok := eq_true_of_ne_false hok
    have hended := ih hrest (not_le.1 hlate)
    generalize visited lo stop ok b rest = us at hended ⊢
    cases hended with
    | accepted hvs hmem =>
      exact .accepted (forall_mem_cons.2 ⟨hok, hvs⟩) (mem_cons_visited ha hmem)
    | @refused vs d hvs hd hdlt hrefused hmem =>
      have hlt := (Ordered.cons_iff.1 hord).1.trans_le (hafter d hd)
      exact .refused (a :: vs) (forall_mem_cons.2 ⟨hok, hvs⟩) (mem_cons_of_mem _ hd) hdlt
        hrefused (mem_cons_visited hlt hmem)

end IntervalWalk
