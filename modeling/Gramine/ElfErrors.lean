import Gramine.ElfArea

/-!
# Errors while an object is loaded

Which failures of the functions that `reserve_dyn` and `execute_loadcmd` call make `map_elf_object`
return `NULL`. In three places the source stores the outcome of a comparison where the result of a
call is meant: a failure there is not seen.
-/

open Vma List

namespace Elf

variable {Addr : Type} [DecidableEq Addr]

/-- Every call for the load commands, from the one with number `i` on, succeeds. -/
inductive Succeed (L : Loader Addr) (obj : Object) (ans : Answers) (baseDiff : Nat) :
    Nat → List Loadcmd → State Addr → State Addr → Prop
  | nil {i : Nat} {s : State Addr} : Succeed L obj ans baseDiff i [] s s
  | cons {i : Nat} {c : Loadcmd} {cs : List Loadcmd} {s s1 s2 s3 s' : State Addr}
      (hfile : mapFile L obj.file (ans.segment i) baseDiff c s = .ok (.ok ()) s1)
      (htail : zeroTail L (ans.segment i) baseDiff c s1 = .ok false s2)
      (hpages : allocPages L (ans.segment i) baseDiff c s2 = .ok (.ok ()) s3)
      (rest : Succeed L obj ans baseDiff (i + 1) cs s3 s') :
    Succeed L obj ans baseDiff i (c :: cs) s s'

/-- Every call that `reserve_dyn` and `execute_loadcmd` make for an object succeeds. -/
structure AllSucceed (L : Loader Addr) (obj : Object) (ans : Answers) (l : LinkMap)
    (s s' : State Addr) : Prop where
  reserved : obj.type = .dyn → ∃ vmas, bkeepMmapAnyAslr L
    (Brk.allocAlignUpPtr L.pal (obj.loadEnd L.pal)) reservation s.vmas = .ok (.ok l.baseDiff) vmas
  executed : ∃ s1, loadAddress L obj ans (obj.loadEnd L.pal) s = .ok (.ok l.baseDiff) s1 ∧
    Succeed L obj ans l.baseDiff 0 (obj.loads.map (Phdr.loadcmd L.pal)) s1 s'

variable {L : Loader Addr} {obj : Object} {ans : Answers} {s s' : State Addr} {i : Nat}
  {cs : List Loadcmd}

theorem Succeed.returns_eq_false {baseDiff j : Nat} {c : Loadcmd}
    (h : Succeed L obj ans baseDiff i cs s s') (hc : cs[j]? = some c) :
    c.returns (ans.segment (i + j)) = false := by
  induction h generalizing j with
  | nil => simp at hc
  | cons hfile htail hpages rest ih =>
    cases j with
    | zero =>
      cases hc
      exact (zeroTail_ok htail).2.symm
    | succ j =>
      rw [add_comm j, ← add_assoc]
      exact ih hc

/-- The loop makes all its calls, and they succeed, if no failure is lost. -/
theorem succeed_of_executeLoadcmds {l l' : LinkMap}
    (h : executeLoadcmds L obj ans i cs l s = .ok (.ok l') s')
    (hreturns : ∀ j (c : Loadcmd), cs[j]? = some c → c.returns (ans.segment (i + j)) = false) :
    Succeed L obj ans l.baseDiff i cs s s' := by
  induction cs generalizing i l s with
  | nil =>
    cases h
    exact .nil
  | cons c cs ih =>
    obtain ⟨l1, s1, hexec, hsame, h⟩ := executeLoadcmds_cons h
    have hbase : l1.baseDiff = l.baseDiff := congrArg Prod.fst hsame
    obtain ⟨_, s2, hfile, hexec⟩ := bind_ok_ok hexec fun _ _ h => by cases h
    obtain ⟨returned, s3, htail, hexec⟩ := bind_ok hexec
    obtain rfl : returned = false := (zeroTail_ok htail).2.trans (hreturns 0 c rfl)
    refine .cons hfile htail hexec (hbase ▸ ih h fun j c' hc' => ?_)
    rw [add_assoc, add_comm 1]
    exact hreturns (j + 1) c' hc'

/-- **Which errors are propagated.** Where `map_elf_object` returns a link map, every call that
`reserve_dyn` and `execute_loadcmd` make has succeeded exactly if the area of a position-independent
object could be reserved, and no protection of a last page that is cleared failed. -/
theorem mapElfObject_succeeds_iff {l : LinkMap} (h : mapElfObject L obj ans s = .ok (.ok l) s') :
    AllSucceed L obj ans l s s' ↔ (obj.type = .dyn → ∃ addr vmas, bkeepMmapAnyAslr L
        (Brk.allocAlignUpPtr L.pal (obj.loadEnd L.pal)) reservation s.vmas = .ok (.ok addr) vmas) ∧
      ∀ j (ph : Phdr), obj.loads[j]? = some ph →
        (ph.loadcmd L.pal).returns (ans.segment j) = false := by
  obtain ⟨c, cs, s1, l1, hread, haddress, hexec, -⟩ := mapElfObject_run h
  constructor
  · rintro ⟨hreserved, s2, -, hsucceed⟩
    refine ⟨fun htype => ⟨_, hreserved htype⟩, fun j ph hph => ?_⟩
    have := hsucceed.returns_eq_false (j := j) (c := ph.loadcmd L.pal) (by simp [hph])
    rwa [zero_add] at this
  · rintro ⟨hreserve, hreturns⟩
    refine ⟨fun htype => ?_, s1, haddress, ?_⟩
    · obtain ⟨addr, vmas, hrun⟩ := hreserve htype
      have hbase := loadAddress_ok haddress
      generalize l.baseDiff = baseDiff at hbase ⊢
      cases hbase with
      | exec htype' => cases htype.symm.trans htype'
      | found _ hrun' => exact ⟨_, hrun'⟩
      | lost _ hrun' => cases hrun.symm.trans hrun'
    · have hcmds := (readAllLoadcmds_ok hread).cmds
      rw [← hcmds]
      have hall := succeed_of_executeLoadcmds hexec fun j c' hc' => ?_
      · exact hall
      rw [hcmds, getElem?_map, Option.map_eq_some_iff] at hc'
      obtain ⟨ph, hph, rfl⟩ := hc'
      rw [zero_add]
      exact hreturns j ph hph

theorem mapElfObject_succeeds_iff_two_pages : ∃ l s',
    mapElfObject exampleLoader (exampleObject 4096) exampleAnswers (.start exampleVmas) =
      .ok (.ok l) s' ∧
    AllSucceed exampleLoader (exampleObject 4096) exampleAnswers l (.start exampleVmas) s' := by
  have hobs : (exampleRun 4096).isSome = true := by decide +kernel
  obtain ⟨⟨l, s'⟩, hrun⟩ := Option.isSome_iff_exists.1 hobs
  refine ⟨l, s', exampleRun_eq hrun,
    (mapElfObject_succeeds_iff (exampleRun_eq hrun)).2 ⟨fun _ => ?_, fun j ph _ => ?_⟩⟩
  · exact exampleRoom
  · simp [Loadcmd.returns, exampleAnswers]

/-- The last page of the second segment cannot be made writable. -/
def failingAnswers : Answers :=
  { exampleAnswers with segment := fun i => ⟨none, i = 1, false, none⟩ }

/-- It is not cleared, and `map_elf_object` returns a link map. -/
theorem mapElfObject_unprotect_fails : ∃ l s',
    mapElfObject exampleLoader (exampleObject 4096) failingAnswers (.start exampleVmas) =
      .ok (.ok l) s' ∧
    ¬ AllSucceed exampleLoader (exampleObject 4096) failingAnswers l (.start exampleVmas) s' := by
  have hobs : succeeds (mapElfObject exampleLoader (exampleObject 4096) failingAnswers
    (.start exampleVmas)) = true := by decide +kernel
  obtain ⟨l, s', hrun⟩ := exists_of_succeeds hobs
  refine ⟨l, s', hrun, ?_⟩
  rintro ⟨-, s1, -, hsucceed⟩
  cases hsucceed.returns_eq_false (j := 1) rfl

end Elf
