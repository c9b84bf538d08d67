import Mathlib

/-!
# Granting queued requests

Requests wait in a queue for a state that does not block them. A pass over the queue grants those
that are not blocked, one after the other; passes are repeated as long as one of them grants
something. Nothing is lost: each request was granted once, or waits on.
-/

namespace GrantLoop

variable {S R A : Type*}

/-- What is left: the state, the requests that wait on, and those granted, with what they got. -/
structure Result (S R A : Type*) where
  state : S
  waiting : List R
  granted : List (R × A)

variable (blocked : S → R → Bool) (grant : S → R → S × A)

/-- One pass over the queue. -/
def pass (s : S) : List R → Result S R A
  | [] => ⟨s, [], []⟩
  | r :: rest =>
    if blocked s r then
      let p := pass s rest
      { p with waiting := r :: p.waiting }
    else
      let p := pass (grant s r).1 rest
      { p with granted := (r, (grant s r).2) :: p.granted }

/-- Passes, until one of them grants nothing. A pass that grants something shortens the queue, so
its length bounds their number. -/
def loop : Nat → S → List R → Result S R A
  | 0, s, rs => pass blocked grant s rs
  | fuel + 1, s, rs =>
    let p := pass blocked grant s rs
    if p.granted.isEmpty then p
    else
      let q := loop fuel p.state p.waiting
      { q with granted := p.granted ++ q.granted }

theorem pass_perm (s : S) (rs : List R) : ((pass blocked grant s rs).granted.map Prod.fst ++
      (pass blocked grant s rs).waiting).Perm rs := by
  induction rs generalizing s with
  | nil => exact .refl _
  | cons r rest ih =>
    rw [pass]
    split
    · exact List.perm_middle.trans ((ih s).cons r)
    · exact (ih _).cons r

theorem loop_perm (fuel : Nat) (s : S) (rs : List R) :
    ((loop blocked grant fuel s rs).granted.map Prod.fst ++
      (loop blocked grant fuel s rs).waiting).Perm rs := by
  induction fuel generalizing s rs with
  | zero => exact pass_perm blocked grant s rs
  | succ fuel ih =>
    have hpass := pass_perm blocked grant s rs
    rw [loop]
    split
    · exact hpass
    · simp only [List.map_append, List.append_assoc]
      exact ((ih _ _).append_left _).trans hpass

end GrantLoop
