import Gramine.IpcResponse

/-!
# Every response reaches its caller

The invariant of the requests: what a thread owns is exactly the responses that were accepted
for its waiter, and where it is says where they are. A response that has arrived is with
one thread, handed to a caller or freed, and so it is neither lost nor given out twice.
-/

open List Function Transition

namespace IpcResponse

variable {T : Type} {s s' : State T} {t : T} {w : Waiter} {l : Pc}

/-- The call is decided: it failed without a response, or the response stays in the waiter
for nobody, or is in `*resp`. -/
def Settled (w : Waiter) (resp : Bool) : Result → Prop
  | .error _ => w.responseData = none ∧ w.accepted = []
  | .ok none => resp = false ∧ ∃ d, w.responseData = some d ∧ w.accepted = [d]
  | .ok (some d) => resp = true ∧ w.responseData = none ∧ w.accepted = [d]

/-- How the waiter of a thread looks. -/
def Fits (w : Waiter) : Pc → Prop
  | .idle => True
  | .created _ => w.responseData = none ∧ w.accepted = []
  | .sending _ | .waiting _ | .woken _ => w.accepted = w.responseData.toList
  | .taking => ∃ d, w.responseData = some d ∧ w.accepted = [d]
  | .clearing data => ∃ d, data = some d ∧ w.responseData = some d ∧ w.accepted = [d]
  | .deleting resp ret | .freeing resp ret => Settled w resp ret

def Pc.inTree : Pc → Bool
  | .idle | .created _ | .freeing _ _ => false
  | _ => true

/-- What a thread owns. -/
def Pc.owns (l : Pc) (w : Waiter) : List Resp :=
  match l with
  | .idle => []
  | _ => w.accepted

/-- A call that has returned did so with its response. -/
def Return.Good (r : Return) : Prop :=
  (r.accepted = [] ∧ ∃ e, r.ret = .error e) ∨
  (r.resp = true ∧ ∃ d, d.seq = r.seq ∧ r.accepted = [d] ∧ r.ret = .ok (some d)) ∨
  (r.resp = false ∧ ∃ d, r.accepted = [d] ∧ r.ret = .ok none)

structure Inv (s : State T) : Prop where
  nodup : s.tree.Nodup
  tree : ∀ t, t ∈ s.tree ↔ (s.pc t).inTree = true
  fits : ∀ t, Fits (s.waiter t) (s.pc t)
  seq : ∀ t, ∀ d ∈ (s.pc t).owns (s.waiter t), d.seq = (s.waiter t).seq
  ledger : Ledger.Valid s.arrived (fun t => (s.pc t).owns (s.waiter t)) s.handed s.freed
  ids : ∀ d ∈ s.arrived, d.id < s.arrived.length
  returns : ∀ r ∈ s.returned, r.Good

theorem Inv.initial (h : Initial s) : Inv s := by
  obtain ⟨-, htree, hpc, harrived, hfreed, hreturned⟩ := h
  have howns : ∀ t, (s.pc t).owns (s.waiter t) = [] := by
    intro t
    rw [hpc t]
    rfl
  refine ⟨by simp [htree], fun t => by simp [htree, hpc t, Pc.inTree], fun t => ?_, fun t => ?_,
    ?_, by simp [harrived], by simp [hreturned]⟩
  · rw [hpc t]
    trivial
  · rw [howns t]
    simp
  · rw [harrived, hfreed, State.handed, hreturned]
    exact Ledger.Valid.nothing.congr howns

theorem Fits.congr {w' : Waiter} (h : Fits w l) (hdata : w'.responseData = w.responseData)
    (hacc : w'.accepted = w.accepted) : Fits w' l := by
  cases l with
  | idle => trivial
  | created | sending | waiting | woken | taking | clearing => simpa [Fits, hdata, hacc] using h
  | deleting resp ret | freeing resp ret =>
    rcases ret with e | _ | d <;> simpa [Fits, Settled, hdata, hacc] using h

theorem Inv.setWaiters {waiter : T → Waiter} (h : Inv s)
    (hdata : ∀ t, (waiter t).responseData = (s.waiter t).responseData)
    (hacc : ∀ t, (waiter t).accepted = (s.waiter t).accepted)
    (hseq : ∀ t, (waiter t).seq = (s.waiter t).seq) : Inv { s with waiter := waiter } := by
  have howns : ∀ t, (s.pc t).owns (waiter t) = (s.pc t).owns (s.waiter t) := by
    intro t
    cases s.pc t <;> first | rfl | exact hacc t
  refine { h with
    fits := fun t => (h.fits t).congr (hdata t) (hacc t)
    seq := fun t d hd => ?_
    ledger := h.ledger.congr howns }
  rw [howns t] at hd
  exact (h.seq t d hd).trans (hseq t).symm

theorem Inv.reject {seq : Nat} (h : Inv s) : Inv { s with
      arrived := s.nextResp seq :: s.arrived
      freed := s.nextResp seq :: s.freed } := by
  have hnew : s.nextResp seq ∉ s.arrived := fun hmem => Nat.lt_irrefl _ (h.ids _ hmem)
  refine { h with ledger := h.ledger.issue_gone hnew, ids := fun d hd => ?_ }
  rcases mem_cons.1 hd with rfl | hd
  · exact Nat.lt_succ_self _
  · exact Nat.lt_succ_of_lt (h.ids d hd)

variable [DecidableEq T]

variable (h : Inv s)

include h

theorem Inv.change (hwaiter : s'.waiter = update s.waiter t w)
    (hpc : s'.pc = update s.pc t l) (hnodup : s'.tree.Nodup)
    (hother : ∀ u, u ≠ t → (u ∈ s'.tree ↔ u ∈ s.tree)) (htree : t ∈ s'.tree ↔ l.inTree = true)
    (hfits : Fits w l) (hseq : ∀ d ∈ l.owns w, d.seq = w.seq)
    (hledger : Ledger.Valid s'.arrived
      (update (fun u => (s.pc u).owns (s.waiter u)) t (l.owns w)) s'.handed s'.freed)
    (hids : ∀ d ∈ s'.arrived, d.id < s'.arrived.length) (hreturns : ∀ r ∈ s'.returned, r.Good) :
    Inv s' := by
  refine ⟨hnodup, fun u => ?_, fun u => ?_, fun u => ?_, hledger.congr fun u => ?_, hids,
    hreturns⟩ <;> rw [hpc] <;> by_cases hut : u = t
  · subst hut
    simpa using htree
  · simpa [hut] using (hother u hut).trans (h.tree u)
  · subst hut
    simpa [hwaiter] using hfits
  · simpa [hwaiter, hut] using h.fits u
  · subst hut
    simpa [hwaiter] using hseq
  · simpa [hwaiter, hut] using h.seq u
  · subst hut
    simp [hwaiter]
  · simp [hwaiter, hut]

section
variable {tree : List T} {n : Nat} (hnodup : tree.Nodup)
  (hother : ∀ u, u ≠ t → (u ∈ tree ↔ u ∈ s.tree)) (htree : t ∈ tree ↔ l.inTree = true)
include hnodup hother htree

theorem Inv.move (hfits : Fits w l) (hseq : ∀ d ∈ l.owns w, d.seq = w.seq)
    (howns : l.owns w = (s.pc t).owns (s.waiter t)) :
    Inv { s with
      ipcSeqCounter := n
      tree := tree
      waiter := update s.waiter t w
      pc := update s.pc t l } := by
  refine h.change rfl rfl hnodup hother htree hfits hseq ?_ h.ids h.returns
  rw [howns, update_eq_self]
  exact h.ledger

theorem Inv.pass (hidle : s.pc t ≠ .idle) (hidle' : l ≠ .idle) (hfits : Fits (s.waiter t) l) :
    Inv ({ s with tree := tree }.goto t l) := by
  have howns : ∀ l : Pc, l ≠ .idle → l.owns (s.waiter t) = (s.waiter t).accepted := by
    intro l hl
    cases l <;> first | rfl | exact absurd rfl hl
  have hmove := h.move (n := s.ipcSeqCounter) (w := s.waiter t) hnodup hother htree hfits
    (fun d hd => h.seq t d (by rwa [howns _ hidle, ← howns _ hidle']))
    (by rw [howns _ hidle, howns _ hidle'])
  rwa [update_eq_self] at hmove

end

theorem Inv.goto {l' : Pc} (hpc : s.pc t = l') (hin' : l'.inTree = true)
    (hin : l.inTree = true) (hfits : Fits (s.waiter t) l) : Inv (s.goto t l) := by
  have hidle : ∀ l : Pc, l.inTree = true → l ≠ .idle := by
    rintro l hl rfl
    cases hl
  rw [← hpc] at hin'
  exact h.pass h.nodup (fun _ _ => Iff.rfl) ((h.tree t).trans (by rw [hin, hin'])) (hidle _ hin')
    (hidle _ hin) hfits

theorem Inv.accept (hdata : (s.waiter t).responseData = none) (hpc : (s.pc t).expects = true) :
    Inv ({ s with arrived := s.nextResp (s.waiter t).seq :: s.arrived }.setWaiter t
      { s.waiter t with
        responseData := some (s.nextResp (s.waiter t).seq)
        signaled := true
        accepted := s.nextResp (s.waiter t).seq :: (s.waiter t).accepted }) := by
  set d := s.nextResp (s.waiter t).seq with hd
  have hnew : d ∉ s.arrived := fun hmem => Nat.lt_irrefl _ (h.ids _ hmem)
  have hnone : (s.waiter t).accepted = [] := by
    have hfits := h.fits t
    cases hl : s.pc t <;> rw [hl] at hpc hfits <;>
      first | exact hfits.trans (by rw [hdata]; rfl) | cases hpc
  have howns : ∀ w, (s.pc t).owns w = w.accepted := by
    intro w
    cases hl : s.pc t <;> rw [hl] at hpc <;> first | rfl | cases hpc
  refine h.change (l := s.pc t) rfl (update_eq_self ..).symm h.nodup (fun _ _ => Iff.rfl)
    (h.tree t) ?_ ?_ ?_ (fun x hx => ?_) h.returns
  · rw [hnone]
    cases hl : s.pc t <;> rw [hl] at hpc <;> first | rfl | cases hpc
  · intro x hx
    rw [howns, hnone, mem_singleton] at hx
    rw [hx]
    rfl
  · rw [howns, hnone]
    exact h.ledger.issue hnew ((howns _).trans hnone)
  · rcases mem_cons.1 hx with rfl | hx
    · exact Nat.lt_succ_self _
    · exact Nat.lt_succ_of_lt (h.ids x hx)

/-- `ipc_response_callback`. -/
theorem Inv.response {seq : Nat} (hsound : Sound s (.response seq)) : Inv (s.response seq) := by
  unfold State.response
  by_cases hseq : seq = 0
  · rw [if_pos hseq]
    exact h.reject
  rw [if_neg hseq]
  cases hfind : s.find seq with
  | none => exact h.reject
  | some t =>
    obtain ⟨hdata, hpc⟩ := hsound t hseq hfind
    have hwaiter : (s.waiter t).seq = seq := by simpa using find?_some hfind
    subst hwaiter
    exact h.accept hdata hpc

/-- `remove_outgoing_ipc_connection`. -/
theorem Inv.disconnect {dest : Nat} (hsound : Sound s (.disconnect dest)) :
    Inv (s.disconnect dest) := by
  refine h.setWaiters (fun t => ?_) (fun t => ?_) (fun t => ?_) <;> split_ifs with hmatch
  · exact (hsound t hmatch.1 hmatch.2).symm
  all_goals rfl

theorem Inv.finish_ledger {resp : Bool} {ret : Result} (hpc : s.pc t = .freeing resp ret) :
    Ledger.Valid s.arrived (update (fun u => (s.pc u).owns (s.waiter u)) t [])
      (s.finish t resp ret).handed (s.finish t resp ret).freed := by
  have hfits := h.fits t
  have howns : (s.pc t).owns (s.waiter t) = (s.waiter t).accepted := by
    rw [hpc]
    rfl
  rw [hpc] at hfits
  rcases ret with e | _ | d
  · obtain ⟨hdata, hacc⟩ := hfits
    have hfreed : (s.finish t resp (.error e)).freed = s.freed := by
      simp [State.finish, State.goto, hdata]
    rw [hfreed]
    refine h.ledger.congr fun u => ?_
    by_cases hut : u = t
    · subst hut
      simp [howns, hacc]
    · simp [hut]
  · obtain ⟨-, d, hdata, hacc⟩ := hfits
    have hfreed : (s.finish t resp (.ok none)).freed = d :: s.freed := by
      simp [State.finish, State.goto, hdata]
    rw [hfreed]
    exact h.ledger.discard (howns.trans hacc)
  · obtain ⟨-, hdata, hacc⟩ := hfits
    have hfreed : (s.finish t resp (.ok (some d))).freed = s.freed := by
      simp [State.finish, State.goto, hdata]
    rw [hfreed]
    exact h.ledger.hand (howns.trans hacc)

/-- `free(waiter.response_data)` and the return. -/
theorem Inv.finish {resp : Bool} {ret : Result} (hpc : s.pc t = .freeing resp ret) :
    Inv (s.finish t resp ret) := by
  have hfits := h.fits t
  have hseq := h.seq t
  have htree := h.tree t
  rw [hpc] at hfits hseq htree
  refine h.change (update_eq_self ..).symm rfl h.nodup (fun _ _ => Iff.rfl) htree trivial
    (fun d hd => nomatch hd) (h.finish_ledger hpc) h.ids fun r hr => ?_
  rcases mem_cons.1 hr with rfl | hr
  · rcases ret with e | _ | d
    · exact .inl ⟨hfits.2, e, rfl⟩
    · obtain ⟨hresp, d, -, hacc⟩ := hfits
      exact .inr (.inr ⟨hresp, d, hacc, rfl⟩)
    obtain ⟨hresp, -, hacc⟩ := hfits
    refine .inr (.inl ⟨hresp, d, hseq d ?_, hacc, rfl⟩)
    show d ∈ (s.waiter t).accepted
    rw [hacc]
    exact mem_singleton_self d
  · exact h.returns r hr

/-- A step of `ipc_send_msg_and_get_response`. -/
theorem Inv.act {a : Action} (hsound : Sound s (.thread t a))
    (hs : s.act t a = some s') : Inv s' := by
  have hfits := h.fits t
  cases a <;> cases hpc : s.pc t <;>
    simp only [State.act, hpc, reduceCtorEq, Option.some.injEq] at hs hfits
  case call.idle dest resp =>
    subst hs
    have htree : t ∉ s.tree := by
      rw [h.tree t, hpc]
      exact Bool.false_ne_true
    refine h.move h.nodup (fun _ _ => Iff.rfl) (iff_of_false htree Bool.false_ne_true)
      ⟨rfl, rfl⟩ ?_ ?_
    · simp [Pc.owns]
    · simp [Pc.owns, hpc]
  case createFails.idle err =>
    split_ifs at hs with herr
    cases hs
    refine { h with returns := fun r hr => ?_ }
    rcases mem_cons.1 hr with rfl | hr
    · exact .inl ⟨rfl, err, rfl⟩
    · exact h.returns r hr
  case insert.created =>
    subst hs
    have htree : t ∉ s.tree := by
      rw [h.tree t, hpc]
      exact Bool.false_ne_true
    refine h.pass (nodup_cons.2 ⟨htree, h.nodup⟩) (fun u hut => by simp [hut]) (by simp [Pc.inTree])
      (by simp [hpc]) (by simp) ?_
    exact hfits.2.trans (by rw [hfits.1]; rfl)
  case send.sending ret =>
    subst hs
    split_ifs with hret
    · refine h.goto hpc rfl rfl ⟨hsound hret, ?_⟩
      exact hfits.trans (by rw [hsound hret]; rfl)
    · exact h.goto hpc rfl rfl hfits
  case wait.waiting ret =>
    split_ifs at hs with hret hsig
    · cases hs
      refine h.goto hpc rfl rfl ⟨hsound hret, ?_⟩
      exact hfits.trans (by rw [hsound hret]; rfl)
    · cases hs
      exact h.goto hpc rfl rfl hfits
  case check.woken =>
    rename_i resp
    cases hdata : (s.waiter t).responseData with
    | none =>
      simp only [hdata, Option.some.injEq] at hs
      subst hs
      refine h.goto hpc rfl rfl ⟨hdata, ?_⟩
      exact hfits.trans (by rw [hdata]; rfl)
    | some d =>
      have hacc : (s.waiter t).accepted = [d] := hfits.trans (by rw [hdata]; rfl)
      cases resp
      · simp only [hdata, Option.some.injEq] at hs
        subst hs
        exact h.goto hpc rfl rfl ⟨rfl, d, hdata, hacc⟩
      · simp only [hdata, Option.some.injEq] at hs
        subst hs
        exact h.goto hpc rfl rfl ⟨d, hdata, hacc⟩
  case take.taking =>
    subst hs
    obtain ⟨d, hdata, hacc⟩ := hfits
    exact h.goto hpc rfl rfl ⟨d, hdata, hdata, hacc⟩
  case clear.clearing =>
    subst hs
    have htree := h.tree t
    have hseq := h.seq t
    rw [hpc] at htree hseq
    obtain ⟨d, rfl, -, hacc⟩ := hfits
    exact h.move h.nodup (fun _ _ => Iff.rfl) htree ⟨rfl, rfl, hacc⟩ hseq (by rw [hpc]; rfl)
  case delete.deleting =>
    subst hs
    exact h.pass (h.nodup.erase t) (fun u hut => mem_erase_of_ne hut)
      (iff_of_false h.nodup.not_mem_erase Bool.false_ne_true) (by simp [hpc]) (by simp) hfits
  case free.freeing =>
    subst hs
    exact h.finish hpc

/-- **Every sound step keeps the invariant.** -/
theorem step_inv {label : Label T} (hsound : Sound s label) (hs : Step s label s') : Inv s' := by
  cases label with
  | thread t a => exact h.act hsound hs
  | response seq =>
    cases hs
    exact h.response hsound
  | disconnect dest =>
    cases hs
    exact h.disconnect hsound

omit [DecidableEq T] in
/-- What a thread owns is in its waiter or in `*resp`. -/
theorem has_of_owns {d : Resp} (hd : d ∈ (s.pc t).owns (s.waiter t)) : s.has t d := by
  have hfits := h.fits t
  have hmem : d ∈ (s.waiter t).accepted := by
    cases hpc : s.pc t <;> rw [hpc] at hd <;> first | exact hd | cases hd
  unfold State.has
  cases hpc : s.pc t <;> rw [hpc] at hd hfits
  case idle => cases hd
  case created =>
    rw [hfits.2] at hmem
    cases hmem
  case sending | waiting | woken =>
    rw [hfits] at hmem
    exact Option.mem_toList.1 hmem
  case taking =>
    obtain ⟨d', hdata, hacc⟩ := hfits
    rw [hacc, mem_singleton] at hmem
    exact hmem ▸ hdata
  case clearing =>
    obtain ⟨d', -, hdata, hacc⟩ := hfits
    rw [hacc, mem_singleton] at hmem
    exact hmem ▸ hdata
  case deleting | freeing =>
    rename_i resp ret
    rcases ret with e | _ | d'
    · rw [hfits.2] at hmem
      cases hmem
    · obtain ⟨-, d', hdata, hacc⟩ := hfits
      rw [hacc, mem_singleton] at hmem
      exact hmem ▸ hdata
    · rw [hfits.2.2, mem_singleton] at hmem
      exact .inl hmem

omit [DecidableEq T] in
theorem Inv.correct : Correct s := by
  refine ⟨fun r hr hresp data hret => ?_, h.ledger.out_nodup, fun r hr d hd => ?_,
    ⟨h.ledger.gone_nodup, h.ledger.not_gone⟩, fun d hd => ?_⟩
  · rcases h.returns r hr with ⟨-, e, he⟩ | ⟨-, d, hseq, -, hret'⟩ | ⟨hresp', -⟩
    · cases hret.symm.trans he
    · rw [hret] at hret'
      exact ⟨d, Except.ok.inj hret', hseq⟩
    · cases hresp.symm.trans hresp'
  · rcases h.returns r hr with ⟨hacc, -⟩ | ⟨hresp, d', -, hacc, hret⟩ | ⟨hresp, d', hacc, hret⟩
    · rw [hacc] at hd
      cases hd
    · rw [hacc, mem_singleton] at hd
      rw [hret, hresp, hd]
      rfl
    · rw [hret, hresp]
      rfl
  · rcases (h.ledger.mem_issued d).1 hd with hout | hgone | ⟨t, ht⟩
    · exact .inl hout
    · exact .inr (.inl hgone)
    · exact .inr (.inr ⟨t, has_of_owns h ht⟩)

omit h

/-- **Requests and responses**: for any number of threads and every order of the steps in which
no destination disconnects after it has answered, no response comes twice or for a call that
has given up, and no call fails after its response has come, every call returns the response
with its number, every response is handed to one caller, a response that was accepted is
returned, and no data is lost or freed twice. -/
theorem ipc_response_correct (hr : Reachable Initial (Guarded Sound Step) s) : Correct s := by
  have hinv : Inv s := by
    refine hr.invariant ?_ ?_
    · intro s hs
      exact Inv.initial hs
    · rintro s label s' h ⟨hsound, hs⟩
      exact step_inv h hsound hs
  exact hinv.correct

/-- A caller gets its response, and one that comes for nobody is freed. -/
theorem ipc_response_correct_answered :
    ∃ s : State (Fin 2), s.handed = [⟨0, 1⟩] ∧ s.freed = [⟨1, 7⟩] ∧ Correct s := by
  let s0 : State (Fin 2) := ⟨1, [], fun _ => ⟨0, 0, none, false, []⟩, fun _ => .idle, [], [], []⟩
  have h0 : Reachable Initial (Guarded Sound Step) s0 :=
    .init ⟨rfl, rfl, fun _ => rfl, rfl, rfl, rfl⟩
  have h1 := h0.step (Label.thread 0 (.call 5 true)) ⟨trivial, rfl⟩
  have h2 := h1.step (Label.thread 0 .insert) ⟨trivial, rfl⟩
  have h3 := h2.step (Label.thread 0 (.send 0)) ⟨by simp [Sound], rfl⟩
  have h4 := h3.step (Label.response 1) ⟨?_, rfl⟩
  have h5 := h4.step (Label.thread 0 (.wait 0)) ⟨by simp [Sound], rfl⟩
  have h6 := h5.step (Label.thread 0 .check) ⟨trivial, rfl⟩
  have h7 := h6.step (Label.thread 0 .take) ⟨trivial, rfl⟩
  have h8 := h7.step (Label.thread 0 .clear) ⟨trivial, rfl⟩
  have h9 := h8.step (Label.thread 0 .delete) ⟨trivial, rfl⟩
  have h10 := h9.step (Label.thread 0 .free) ⟨trivial, rfl⟩
  have h11 := h10.step (Label.response 7) ⟨?_, rfl⟩
  · exact ⟨_, rfl, rfl, ipc_response_correct h11⟩
  · rintro t - hfind
    cases hfind
  · rintro t - hfind
    obtain rfl : 0 = t := Option.some.inj hfind
    exact ⟨rfl, rfl⟩

/-- The destination answers and disconnects before the caller has run: the caller is told that
the destination has died, and the response that was accepted is in no one's hands. -/
theorem ipc_response_dropped : ∃ s : State (Fin 1), Reachable Initial Step s ∧ s.pc 0 = .idle ∧
      s.arrived = [⟨0, 1⟩] ∧ s.handed = [] ∧ s.freed = [] ∧
      (∃ r ∈ s.returned, r.accepted = [⟨0, 1⟩] ∧ r.ret = .error esrch) ∧ ¬ Correct s := by
  refine ⟨_, .of_foldlM step (fun _ _ _ hs => hs)
    (s := ⟨1, [], fun _ => ⟨0, 0, none, false, []⟩, fun _ => .idle, [], [], []⟩)
    (.init ⟨rfl, rfl, fun _ => rfl, rfl, rfl, rfl⟩)
    [.thread 0 (.call 5 true), .thread 0 .insert, .thread 0 (.send 0), .response 1, .disconnect 5,
      .thread 0 (.wait 0), .thread 0 .check, .thread 0 .delete, .thread 0 .free] rfl,
    rfl, rfl, rfl, rfl, ⟨_, mem_singleton_self _, rfl, rfl⟩, ?_⟩
  intro hcorrect
  have hret := hcorrect.accepted _ (mem_singleton_self _) _ (mem_singleton_self _)
  cases hret

end IpcResponse
