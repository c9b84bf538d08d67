import Mathlib

/-!
# Going over a circular list that changes

A macro that goes over a circular doubly-linked list while the body of the loop may take the current
element off the list: it keeps the element to go on with in a second cursor, and a flag that tells
whether every element before the current one was taken off. The list is part of the state of the
body, so the body may also put elements on it.

`forEach` is that loop with fuel. If the body takes off at most the current element, the loop goes
over the elements of the list in their order (`forEach_eq_visit`). If it also puts the element back
at the end, the loop does not end by itself (`forEach_eq_rotate`).
-/

open List

namespace SafeIteration

variable {α : Type*} [DecidableEq α]

/-- The element after `x` in a circular list. -/
def succ (l : List α) (x : α) : α :=
  match l.dropWhile (fun y => y ≠ x) with
  | _ :: y :: _ => y
  | _ => l.headD x

variable {x : α} {pre : List α}

theorem dropWhile_append_cons {post : List α} (h : x ∉ pre) :
    (pre ++ x :: post).dropWhile (fun y => y ≠ x) = x :: post := by
  induction pre with
  | nil => simp
  | cons y pre ih =>
    have hne : y ≠ x := fun heq => h (heq ▸ mem_cons_self)
    rw [cons_append, dropWhile_cons_of_pos (by simpa using hne)]
    exact ih fun hmem => h (mem_cons_of_mem y hmem)

theorem succ_append_cons_cons {post : List α} {y : α} (h : x ∉ pre) :
    succ (pre ++ x :: y :: post) x = y := by
  rw [succ, dropWhile_append_cons h]

theorem succ_append_singleton (h : x ∉ pre) : succ (pre ++ [x]) x = (pre ++ [x]).headD x := by
  rw [succ, dropWhile_append_cons h]

/-- The two cursors, and whether the current element is the first of the list. -/
structure Cursor (α : Type*) where
  cursor : α
  tmp : α
  firstIter : Bool

variable {σ : Type*} (items : σ → List α) (body : σ → α → σ × Bool)

/-- The loop; `body` says whether to leave it. Without fuel there is no result. -/
def loop : Nat → σ → Cursor α → Option σ
  | 0, _, _ => none
  | fuel + 1, s, c =>
    match (items s).head? with
    | none => some s
    | some first =>
      if c.firstIter = true ∨ c.cursor ≠ first then
        let (s', leave) := body s c.cursor
        if leave then some s'
        else
          let firstIter := c.firstIter && c.tmp ≠ c.cursor && (items s').head? = some c.tmp
          if c.tmp ≠ c.cursor then loop fuel s' ⟨c.tmp, succ (items s') c.tmp, firstIter⟩
          else loop fuel s' ⟨c.cursor, c.tmp, firstIter⟩
      else some s

/-- Over the whole list. -/
def forEach (fuel : Nat) (s : σ) : Option σ :=
  match items s with
  | [] => some s
  | x :: l => loop items body fuel s ⟨x, succ (x :: l) x, true⟩

variable {items body}

variable {s : σ} {fuel : Nat} {c : Cursor α}

theorem loop_stop (hiter : c.firstIter = false)
    (hfirst : ∀ first, (items s).head? = some first → c.cursor = first) :
    loop items body (fuel + 1) s c = some s := by
  rw [loop]
  cases hhead : (items s).head? with
  | none => rfl
  | some first => simp [hiter, hfirst first hhead]

variable {s' : σ}

section
variable {first : α} (hhead : (items s).head? = some first)
  (hcond : c.firstIter = true ∨ c.cursor ≠ first)
include hhead hcond

theorem loop_leave (hbody : body s c.cursor = (s', true)) :
    loop items body (fuel + 1) s c = some s' := by
  rw [loop, hhead]
  simp [if_pos hcond, hbody]

theorem loop_next (hbody : body s c.cursor = (s', false)) (hne : c.tmp ≠ c.cursor) :
    loop items body (fuel + 1) s c = loop items body fuel s'
      ⟨c.tmp, succ (items s') c.tmp, c.firstIter && (items s').head? = some c.tmp⟩ := by
  rw [loop, hhead]
  simp [if_pos hcond, hbody, if_pos hne, decide_eq_true hne]

theorem loop_single (hbody : body s c.cursor = (s', false)) (heq : c.tmp = c.cursor) :
    loop items body (fuel + 1) s c = loop items body fuel s' ⟨c.cursor, c.tmp, false⟩ := by
  rw [loop, hhead]
  simp [hcond, hbody, heq]

end

variable (items body)

/-! ## Bodies that take the current element off -/

/-- The elements of a fixed list, one after the other. -/
def visit : σ → List α → σ
  | s, [] => s
  | s, x :: l =>
    let (s', leave) := body s x
    if leave then s' else visit s' l

/-- The body takes off the current element or none. -/
def TakesOff : Prop :=
  ∀ s x, x ∈ items s → (items s).Nodup →
    items (body s x).1 = items s ∨ items (body s x).1 = (items s).erase x

variable {items body}

omit [DecidableEq α] in
theorem visit_leave {l : List α} (h : body s x = (s', true)) : visit body s (x :: l) = s' := by
  rw [visit, h]
  rfl

omit [DecidableEq α] in
theorem visit_next {l : List α} (h : body s x = (s', false)) :
    visit body s (x :: l) = visit body s' l := by
  rw [visit, h]
  rfl

variable {kept rest : List α}

theorem erase_append_cons (h : (kept ++ x :: rest).Nodup) :
    (kept ++ x :: rest).erase x = kept ++ rest := by
  have hx : x ∉ kept := fun hmem =>
    (nodup_append.1 h).2.2 x hmem x mem_cons_self rfl
  rw [erase_append_right _ hx, erase_cons_head]

omit [DecidableEq α] in
theorem not_mem_of_nodup (h : (kept ++ x :: rest).Nodup) : x ∉ kept :=
  fun hmem => (nodup_append.1 h).2.2 x hmem x mem_cons_self rfl

omit [DecidableEq α] in
theorem head_cond (h : (kept ++ x :: rest).Nodup) :
    ∃ first, (kept ++ x :: rest).head? = some first ∧ (decide (kept = []) = true ∨ x ≠ first) := by
  cases kept with
  | nil => exact ⟨x, rfl, .inl rfl⟩
  | cons k kept =>
    exact ⟨k, rfl, .inr fun heq => not_mem_of_nodup h (heq ▸ mem_cons_self)⟩

theorem flag_next {kept' : List α} {y : α} (hyx : y ≠ x)
    (hkept : kept' = kept ++ [x] ∨ kept' = kept) :
    (decide (kept = []) && decide ((kept' ++ y :: rest).head? = some y)) = decide (kept' = []) := by
  cases kept with
  | nil =>
    rcases hkept with rfl | rfl
    · simpa using hyx.symm
    · simp
  | cons k kept =>
    rcases hkept with rfl | rfl
    · simp
    · simp

section
variable (hbody : TakesOff items body)
include hbody

/-- The loop in the middle of the list: the elements before the current one that are still there are
`kept`. -/
theorem loop_eq_visit (hitems : items s = kept ++ x :: rest) (hnodup : (kept ++ x :: rest).Nodup) :
    loop items body (rest.length + fuel + 2) s ⟨x, succ (items s) x, decide (kept = [])⟩ =
      some (visit body s (x :: rest)) := by
  induction rest generalizing s kept x with
  | nil =>
    have hx := not_mem_of_nodup hnodup
    have hoff := hbody s x (by rw [hitems]; simp) (by rw [hitems]; exact hnodup)
    rw [hitems, erase_append_cons hnodup] at hoff
    have hsucc : succ (items s) x = (kept ++ [x]).headD x := by
      rw [hitems, succ_append_singleton hx]
    obtain ⟨first, hhead, hcond⟩ := head_cond hnodup
    rw [← hitems] at hhead
    cases hres : body s x with
    | mk s' leave =>
      rw [hres] at hoff
      cases leave with
      | true => rw [visit_leave hres, loop_leave hhead hcond hres]
      | false =>
        have hlast : ∀ first, (items s').head? = some first → (kept ++ [x]).headD x = first := by
          intro first hfirst
          rcases hoff with hoff | hoff <;> rw [hoff] at hfirst <;> cases kept <;>
            cases hfirst <;> rfl
        rw [visit_next hres, hsucc]
        cases kept with
        | nil =>
          rw [loop_single hhead hcond hres rfl]
          exact loop_stop rfl hlast
        | cons k kept =>
          have hkx : k ≠ x := fun heq => hx (heq ▸ mem_cons_self)
          rw [loop_next hhead hcond hres hkx]
          exact loop_stop rfl hlast
  | cons y rest ih =>
    have hx := not_mem_of_nodup hnodup
    have hoff := hbody s x (by rw [hitems]; simp) (by rw [hitems]; exact hnodup)
    rw [hitems, erase_append_cons hnodup] at hoff
    have hyx : y ≠ x := fun heq => by
      rw [heq] at hnodup
      exact (nodup_cons.1 (nodup_append.1 hnodup).2.1).1 mem_cons_self
    have hsucc : succ (items s) x = y := by rw [hitems, succ_append_cons_cons hx]
    obtain ⟨first, hhead, hcond⟩ := head_cond hnodup
    rw [← hitems] at hhead
    have hlen : (y :: rest).length + fuel + 2 = (rest.length + fuel + 2) + 1 := by
      rw [length_cons]
      omega
    rw [hlen]
    cases hres : body s x with
    | mk s' leave =>
      rw [hres] at hoff
      cases leave with
      | true => rw [visit_leave hres, loop_leave hhead hcond hres]
      | false =>
        obtain ⟨kept', hkept, hitems'⟩ :
            ∃ kept', (kept' = kept ++ [x] ∨ kept' = kept) ∧ items s' = kept' ++ y :: rest := by
          rcases hoff with hoff | hoff
          · exact ⟨kept ++ [x], .inl rfl, by simpa using hoff⟩
          · exact ⟨kept, .inr rfl, hoff⟩
        have hnodup' : (kept' ++ y :: rest).Nodup := by
          rcases hkept with rfl | rfl
          · simpa using hnodup
          · exact hnodup.sublist (List.Sublist.append_left (sublist_cons_self x _) _)
        rw [visit_next hres, loop_next hhead hcond hres (by rw [hsucc]; exact hyx)]
        simp only [hsucc]
        have hflag : (decide (kept = []) && decide ((items s').head? = some y)) =
            decide (kept' = []) := by
          rw [hitems']
          exact flag_next hyx hkept
        rw [hflag]
        exact ih hitems' hnodup'

/-- **The loop visits every element once, in the order of the list.** -/
theorem forEach_eq_visit (hnodup : (items s).Nodup) (hfuel : (items s).length < fuel) :
    forEach items body fuel s = some (visit body s (items s)) := by
  rw [forEach]
  cases hitems : items s with
  | nil => rfl
  | cons x rest =>
    obtain ⟨n, rfl⟩ : ∃ n, fuel = rest.length + n + 2 := by
      rw [hitems, length_cons] at hfuel
      exact ⟨fuel - rest.length - 2, by omega⟩
    rw [hitems] at hnodup
    have hkept : items s = [] ++ x :: rest := hitems
    have hloop : loop items body (rest.length + n + 2) s ⟨x, succ (items s) x, true⟩ =
        some (visit body s (x :: rest)) := loop_eq_visit hbody hkept hnodup
    rwa [hitems] at hloop

theorem TakesOff.keeps {y : α} (hnodup : (items s).Nodup) (hx : x ∈ items s) (hy : y ∈ items s)
    (hne : y ≠ x) : y ∈ items (body s x).1 := by
  rcases hbody s x hx hnodup with h | h
  · rwa [h]
  · rw [h]
    exact (mem_erase_of_ne hne).2 hy

/-- What every run of the body keeps holds after the loop. -/
theorem TakesOff.visit_invariant {P : σ → Prop} (hnodup : ∀ s, P s → (items s).Nodup)
    (hstep : ∀ s x, P s → x ∈ items s → P (body s x).1) (hs : P s) {l : List α}
    (hl : ∀ x ∈ l, x ∈ items s) (hlnodup : l.Nodup) : P (visit body s l) := by
  induction l generalizing s with
  | nil => exact hs
  | cons x l ih =>
    have hx := hl x mem_cons_self
    have hs' := hstep s x hs hx
    cases hres : body s x with
    | mk s' leave =>
      rw [hres] at hs'
      cases leave with
      | true =>
        rwa [visit_leave hres]
      | false =>
        rw [visit_next hres]
        refine ih hs' (fun y hy => ?_) (nodup_cons.1 hlnodup).2
        have hne : y ≠ x := fun heq => (nodup_cons.1 hlnodup).1 (heq ▸ hy)
        have hmem := hbody.keeps (hnodup s hs) hx (hl y (mem_cons_of_mem x hy)) hne
        rwa [hres] at hmem

end

/-! ## Bodies that may put the current element back at the end -/

variable (items body)

/-- Always the first element, until the body leaves or had the only one. -/
def turn : Nat → σ → Option σ
  | 0, _ => none
  | fuel + 1, s =>
    match items s with
    | [] => some s
    | x :: rest =>
      let (s', leave) := body s x
      if leave = true ∨ rest = [] then some s' else turn fuel s'

variable {items body}

section
omit [DecidableEq α]

variable {fuel : Nat}

theorem turn_nil {s : σ} (h : items s = []) : turn items body (fuel + 1) s = some s := by
  rw [turn, h]

theorem turn_leave {s s' : σ} {x : α} {rest : List α} (h : items s = x :: rest)
    (hbody : body s x = (s', true)) : turn items body (fuel + 1) s = some s' := by
  rw [turn, h]
  simp [hbody]

theorem turn_last {s s' : σ} {x : α} {leave : Bool} (h : items s = [x])
    (hbody : body s x = (s', leave)) : turn items body (fuel + 1) s = some s' := by
  rw [turn, h]
  simp [hbody]

theorem turn_next {s s' : σ} {x y : α} {rest : List α} (h : items s = x :: y :: rest)
    (hbody : body s x = (s', false)) :
    turn items body (fuel + 1) s = turn items body fuel s' := by
  rw [turn, h]
  simp [hbody]

end

variable (items body)

/-- The body leaves, or takes off the first element, or puts it at the end. -/
def Turns : Prop :=
  ∀ s s' x rest, items s = x :: rest → body s x = (s', false) →
    items s' = rest ∨ items s' = rest ++ [x]

variable {items body}

/-- **The loop comes back to an element that was put at the end.** -/
theorem forEach_eq_turn (hbody : Turns items body) (hnodup : (items s).Nodup)
    (hturn : turn items body fuel s = some s') :
    forEach items body (fuel + 1) s = some s' := by
  have hloop : ∀ x rest, items s = x :: rest →
      loop items body (fuel + 1) s ⟨x, succ (items s) x, true⟩ = some s' := by
    induction fuel generalizing s with
    | zero => cases hturn
    | succ fuel ih =>
      intro x rest hitems
      rw [turn, hitems] at hturn
      have hhead : (items s).head? = some x := by rw [hitems]; rfl
      rw [hitems] at hnodup
      cases hres : body s x with
      | mk t leave =>
        simp only [hres] at hturn
        cases leave with
        | true =>
          rw [loop_leave hhead (.inl rfl) hres]
          simpa using hturn
        | false =>
          have hoff := hbody s t x rest hitems hres
          cases rest with
          | nil =>
            have hsucc : succ (items s) x = x := by
              rw [hitems]
              exact succ_append_singleton (not_mem_nil)
            rw [hsucc, loop_single hhead (.inl rfl) hres rfl]
            have htop : t = s' := by simpa using hturn
            rw [← htop]
            refine loop_stop rfl fun first hfirst => ?_
            rcases hoff with hoff | hoff
            · rw [hoff] at hfirst
              cases hfirst
            · rw [hoff] at hfirst
              exact Option.some.inj hfirst
          | cons y rest =>
            have hyx : y ≠ x := fun heq =>
              (nodup_cons.1 hnodup).1 (heq ▸ mem_cons_self)
            have hsucc : succ (items s) x = y := by
              rw [hitems]
              exact succ_append_cons_cons (not_mem_nil)
            obtain ⟨rest', hitems'⟩ : ∃ rest', items t = y :: rest' := by
              rcases hoff with hoff | hoff
              · exact ⟨rest, hoff⟩
              · exact ⟨rest ++ [x], hoff⟩
            have hnodup' : (items t).Nodup := by
              rcases hoff with hoff | hoff
              · rw [hoff]
                exact (nodup_cons.1 hnodup).2
              · rwa [hoff, nodup_append_comm]
            have hhead' : (items t).head? = some y := by rw [hitems']; rfl
            rw [hsucc, loop_next hhead (.inl rfl) hres hyx]
            simp only [hhead']
            refine ih hnodup' ?_ y rest' hitems'
            simpa using hturn
  rw [forEach]
  cases hitems : items s with
  | nil =>
    cases fuel with
    | zero => cases hturn
    | succ fuel =>
      rwa [turn, hitems] at hturn
  | cons x rest =>
    have hres := hloop x rest hitems
    rwa [hitems] at hres

omit [DecidableEq α] in
/-- What every run of the body on the first element keeps holds after the loop. -/
theorem turn_invariant (P : σ → Prop) (hbody : ∀ s x, P s → x ∈ items s → P (body s x).1) (hs : P s)
    (hturn : turn items body fuel s = some s') : P s' := by
  induction fuel generalizing s with
  | zero => cases hturn
  | succ fuel ih =>
    rw [turn] at hturn
    cases hitems : items s with
    | nil =>
      rw [hitems] at hturn
      cases hturn
      exact hs
    | cons x rest =>
      have hs' := hbody s x hs (by rw [hitems]; exact mem_cons_self)
      rw [hitems] at hturn
      simp only at hturn
      split at hturn
      · cases hturn
        exact hs'
      · exact ih hs' hturn

end SafeIteration
