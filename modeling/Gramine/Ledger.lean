import Mathlib

/-!
# Who owns what

Tokens are issued to owners, who hand them out or throw them away. `Valid` says that every
token issued is in exactly one place; the lemmas are the moves between the places.
-/

open Function List

namespace Ledger

variable {D T : Type*} {issued out gone : List D} {held held' : T → List D} {t : T} {d : D}

/-- Every token issued is handed out, thrown away or held by one owner, and only one of
these. -/
structure Valid (issued : List D) (held : T → List D) (out gone : List D) : Prop where
  mem_issued : ∀ d, d ∈ issued ↔ d ∈ out ∨ d ∈ gone ∨ ∃ t, d ∈ held t
  out_nodup : out.Nodup
  gone_nodup : gone.Nodup
  not_gone : ∀ d ∈ out, d ∉ gone
  held_only : ∀ t, ∀ d ∈ held t, d ∉ out ∧ d ∉ gone ∧ ∀ u, d ∈ held u → u = t

namespace Valid

theorem nothing : Valid [] (fun _ : T => ([] : List D)) [] [] := by
  constructor <;> simp

section
variable (h : Valid issued held out gone)
include h

theorem congr (heq : ∀ t, held' t = held t) : Valid issued held' out gone := by
  rwa [funext heq]

theorem not_mem (hd : d ∉ issued) : d ∉ out ∧ d ∉ gone ∧ ∀ t, d ∉ held t := by
  rwa [h.mem_issued d, not_or, not_or, not_exists] at hd

theorem perm {out' gone' : List D} (hout : out.Perm out') (hgone : gone.Perm gone') :
    Valid issued held out' gone' := by
  obtain ⟨hissued, hnodup, hnodup', hnot, hheld⟩ := h
  simp only [hout.mem_iff, hgone.mem_iff] at hissued hnot hheld
  exact ⟨hissued, hout.nodup_iff.1 hnodup, hgone.nodup_iff.1 hnodup', hnot, hheld⟩

theorem issue_gone (hd : d ∉ issued) : Valid (d :: issued) held out (d :: gone) := by
  obtain ⟨hout, hgone, hheld⟩ := h.not_mem hd
  refine ⟨fun x => ?_, h.out_nodup, nodup_cons.2 ⟨hgone, h.gone_nodup⟩, ?_, ?_⟩
  · rw [mem_cons, mem_cons, h.mem_issued x]
    tauto
  · intro x hx hmem
    rcases mem_cons.1 hmem with rfl | hmem
    · exact hout hx
    · exact h.not_gone x hx hmem
  intro t x hx
  obtain ⟨hxout, hxgone, honly⟩ := h.held_only t x hx
  refine ⟨hxout, fun hmem => ?_, honly⟩
  rcases mem_cons.1 hmem with rfl | hmem
  · exact hheld t hx
  · exact hxgone hmem

end

variable [DecidableEq T]

variable (h : Valid issued held out gone)

include h

theorem add (hd : d ∉ issued) : Valid (d :: issued) (update held t (d :: held t)) out gone := by
  obtain ⟨hout, hgone, hheld⟩ := h.not_mem hd
  have hmem : ∀ u x, x ∈ update held t (d :: held t) u ↔ (x = d ∧ u = t) ∨ x ∈ held u := by
    intro u x
    by_cases hut : u = t
    · subst hut
      simp
    · simp [hut]
  refine { h with mem_issued := fun x => ?_, held_only := fun u x hx => ?_ }
  · simp only [hmem, mem_cons, h.mem_issued x, exists_or, exists_and_left]
    tauto
  rcases (hmem u x).1 hx with ⟨rfl, rfl⟩ | hold
  · refine ⟨hout, hgone, fun v hv => ?_⟩
    rcases (hmem v x).1 hv with hv | hv
    · exact hv.2
    · exact absurd hv (hheld v)
  · obtain ⟨hxout, hxgone, honly⟩ := h.held_only u x hold
    refine ⟨hxout, hxgone, fun v hv => ?_⟩
    rcases (hmem v x).1 hv with ⟨rfl, -⟩ | hv
    · exact absurd hold (hheld u)
    · exact honly v hv

theorem issue (hd : d ∉ issued) (hnil : held t = []) :
    Valid (d :: issued) (update held t [d]) out gone := by
  have hadd := h.add (t := t) hd
  rwa [hnil] at hadd

theorem settle {rest outs gones : List D}
    (hnodup : (held t).Nodup) (hperm : (held t).Perm (rest ++ (outs ++ gones))) :
    Valid issued (update held t rest) (out ++ outs) (gone ++ gones) := by
  rw [hperm.nodup_iff, nodup_append', nodup_append'] at hnodup
  obtain ⟨-, ⟨houts, hgones, hog⟩, hrest⟩ := hnodup
  have hmem : ∀ x, x ∈ held t ↔ x ∈ rest ∨ x ∈ outs ∨ x ∈ gones := by
    intro x
    rw [hperm.mem_iff, mem_append, mem_append]
  have hsub : ∀ u x, x ∈ update held t rest u → x ∈ held u := by
    intro u x hx
    by_cases hut : u = t
    · subst hut
      exact (hmem x).2 (.inl (by simpa using hx))
    · simpa [hut] using hx
  have hout : ∀ x ∈ outs, x ∉ out ∧ x ∉ gone := fun x hx =>
    have := h.held_only t x ((hmem x).2 (.inr (.inl hx)))
    ⟨this.1, this.2.1⟩
  have hgone : ∀ x ∈ gones, x ∉ out ∧ x ∉ gone := fun x hx =>
    have := h.held_only t x ((hmem x).2 (.inr (.inr hx)))
    ⟨this.1, this.2.1⟩
  refine ⟨fun x => ?_, ?_, ?_, fun x hx hmem' => ?_, fun u x hx => ?_⟩
  · rw [h.mem_issued x, mem_append, mem_append]
    have hheld : (∃ u, x ∈ held u) ↔ x ∈ outs ∨ x ∈ gones ∨ ∃ u, x ∈ update held t rest u := by
      constructor
      · rintro ⟨u, hu⟩
        by_cases hut : u = t
        · subst hut
          rcases (hmem x).1 hu with hx | hx | hx
          · exact .inr (.inr ⟨u, by simpa using hx⟩)
          · exact .inl hx
          · exact .inr (.inl hx)
        · exact .inr (.inr ⟨u, by simpa [hut] using hu⟩)
      · rintro (hx | hx | ⟨u, hu⟩)
        · exact ⟨t, (hmem x).2 (.inr (.inl hx))⟩
        · exact ⟨t, (hmem x).2 (.inr (.inr hx))⟩
        · exact ⟨u, hsub u x hu⟩
    tauto
  · exact nodup_append'.2 ⟨h.out_nodup, houts, fun x hx hx' => (hout x hx').1 hx⟩
  · exact nodup_append'.2 ⟨h.gone_nodup, hgones, fun x hx hx' => (hgone x hx').2 hx⟩
  · rcases mem_append.1 hx with hx | hx
    · rcases mem_append.1 hmem' with hmem' | hmem'
      · exact h.not_gone x hx hmem'
      · exact (hgone x hmem').1 hx
    · rcases mem_append.1 hmem' with hmem' | hmem'
      · exact (hout x hx).2 hmem'
      · exact hog hx hmem'
  · obtain ⟨hxout, hxgone, honly⟩ := h.held_only u x (hsub u x hx)
    have hnot : x ∉ outs ∧ x ∉ gones := by
      by_cases hut : u = t
      · subst hut
        have hx' : x ∈ rest := by simpa using hx
        exact ⟨fun ho => hrest hx' (mem_append_left _ ho),
          fun hg => hrest hx' (mem_append_right _ hg)⟩
      · refine ⟨fun ho => hut ?_, fun hg => hut ?_⟩
        · exact (honly t ((hmem x).2 (.inr (.inl ho)))).symm
        · exact (honly t ((hmem x).2 (.inr (.inr hg)))).symm
    refine ⟨by simp [hxout, hnot.1], by simp [hxgone, hnot.2], fun v hv => ?_⟩
    exact honly v (hsub v x hv)

theorem hand (hd : held t = [d]) : Valid issued (update held t []) (d :: out) gone := by
  have hsettle := h.settle (show (held t).Nodup by simp [hd])
    (show (held t).Perm ([] ++ ([d] ++ [])) by simp [hd])
  exact hsettle.perm perm_append_comm (by simp)

theorem discard (hd : held t = [d]) : Valid issued (update held t []) out (d :: gone) := by
  have hsettle := h.settle (show (held t).Nodup by simp [hd])
    (show (held t).Perm ([] ++ ([] ++ [d])) by simp [hd])
  exact hsettle.perm (by simp) perm_append_comm

end Valid

end Ledger
