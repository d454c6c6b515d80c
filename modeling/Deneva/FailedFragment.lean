import Deneva.Ycsb
import Deneva.Tpcc
import Deneva.Pps

/-!
# Failed remote fragments

When `run_txn` ends in `Abort` at a remote node, the home node has to learn of it from
the `RQRY_RSP` message, which carries `txn->rc`. Only `abort` sets that field, and only
YCSB's `run_txn` calls it at a remote node.
-/

namespace Deneva

universe u v

open Function List Option

namespace Protocol

variable {L : Type u} {M : Type v} {C : Config L M}

/-- A remote fragment that ended in `Abort` is reported, home aborts the attempt once the
report arrives, and no node commits it. -/
def FailedHandled (C : Config L M) (s : State L M) : Prop :=
  ∀ k n rsp, n ≠ C.home → ⟨k, n, .fragment .Abort rsp⟩ ∈ s.log →
    rsp = some .Abort ∧
      (⟨k, C.home, .abort⟩ ∈ s.log ∨ k = s.attempt ∧ .rqryRsp n C.home .Abort ∈ s.net) ∧
      ∀ m touched, ⟨k, m, .commit touched⟩ ∉ s.log

/-- No remote fragment ended in `Abort`. -/
def NoFailure (C : Config L M) (s : State L M) : Prop :=
  ∀ k n rsp, n ≠ C.home → ⟨k, n, .fragment .Abort rsp⟩ ∉ s.log

theorem NoFailure.failedHandled {s : State L M} (h : NoFailure C s) : FailedHandled C s :=
  fun k n rsp hn hmem => absurd hmem (h k n rsp hn)

section

variable {K : Confined C} {s s' : State L M} {n : ℕ}

/-! ## Workloads that abort a failed fragment -/

/-- What holds of a failed fragment of the current attempt. -/
theorem StageInv.current_failed (h : StageInv K s) {rsp : Option RC} (hn : n ≠ C.home)
    (hmem : ⟨s.attempt, n, .fragment .Abort rsp⟩ ∈ s.log) :
    (⟨s.attempt, C.home, .abort⟩ ∈ s.log ∨ .rqryRsp n C.home .Abort ∈ s.net) ∧
      ∀ m touched, ⟨s.attempt, m, .commit touched⟩ ∉ s.log := by
  have habort := (h.history.failed _ _ _ hmem).2
  -- a node that has released nothing has no failed fragment
  have hactive : releases s.log s.attempt n = 0 → False := fun hrel =>
    not_mem_of_releases_eq_zero hrel rfl habort
  cases h with
  | idle h =>
    have hover := h.settled (h.history.le _ hmem).1
    exact ⟨.inl hover.homeAbort, hover.noCommit⟩
  | atHome _ _ _ active => exact (hactive (active n hn).unreleased).elim
  | @remote run d _ _ active fragment =>
    have hd : n = d := by
      by_contra hne
      exact hactive (active n hn hne).unreleased
    subst hd
    cases fragment with
    | requested _ _ ha => exact (hactive ha.unreleased).elim
    | waits _ _ _ _ _ hrel => exact (hactive hrel).elim
    | answered _ ha => exact (hactive ha.unreleased).elim
    | failed net => exact ⟨.inr (by simp [net]), run.noCommit⟩
  | prepare h => exact (h.noFailure n rsp hmem).elim
  | abort h => exact ⟨.inl h.homeAbort, h.noCommit⟩
  | commit h | ended h => exact (h.noAbort n habort).elim

theorem StageInv.failedHandled (h : StageInv K s) : FailedHandled C s := by
  intro k n rsp hn hmem
  refine ⟨(h.history.failed k n rsp hmem).1, ?_⟩
  obtain ⟨h1, hle⟩ := h.history.le _ hmem
  rcases Nat.lt_or_eq_of_le hle with hlt | heq
  · have hover := h.history.past k h1 hlt
    exact ⟨.inl hover.homeAbort, hover.noCommit⟩
  · subst heq
    obtain ⟨hor, hno⟩ := h.current_failed hn hmem
    exact ⟨hor.imp_right fun hnet => ⟨rfl, hnet⟩, hno⟩

/-! ## Workloads that do not -/

/-- A step at home: other nodes keep their managers, and the log grows by entries of home. -/
structure HomeOnly (C : Config L M) (s s' : State L M) : Prop where
  man : ∀ n, n ≠ C.home → s'.man n = s.man n
  log : ∀ e ∈ s'.log, e ∈ s.log ∨ e.node = C.home

namespace HomeOnly

theorem refl (s : State L M) : HomeOnly C s s := ⟨fun _ _ => rfl, fun _ => .inl⟩

theorem trans {s₁ s₂ s₃ : State L M} (h : HomeOnly C s₁ s₂) (h' : HomeOnly C s₂ s₃) :
    HomeOnly C s₁ s₃ :=
  ⟨fun n hn => (h'.man n hn).trans (h.man n hn), fun e he => (h'.log e he).elim (h.log e) .inr⟩

theorem setMan (s : State L M) (m : TxnMan L) : HomeOnly C s (s.setMan C.home m) :=
  ⟨fun _ hn => update_of_ne hn _ _, fun _ => .inl⟩

theorem emit (s : State L M) (e : Event) : HomeOnly C s (s.emit C.home e) :=
  ⟨fun _ _ => rfl, fun _ he => (mem_cons.mp he).elim (fun h => .inr (h ▸ rfl)) .inl⟩

theorem send (s : State L M) (ms : List (Msg M)) : HomeOnly C s (s.send ms) :=
  ⟨fun _ _ => rfl, fun _ => .inl⟩

theorem assert (s : State L M) (b : Bool) : HomeOnly C s (s.assert b) :=
  ⟨fun _ _ => rfl, fun _ => .inl⟩

theorem abort (s : State L M) : HomeOnly C s (s.abort C.home) := by
  unfold State.abort
  split
  · exact refl s
  · exact (setMan s _).trans (emit _ _)

theorem validate (s : State L M) (valid : Bool) : HomeOnly C s (s.validate C valid C.home).2 :=
  emit s _

theorem sendFinishMessages (s : State L M) : HomeOnly C s (s.sendFinishMessages C) :=
  (setMan s _).trans (send _ _)

theorem startAbort (s : State L M) : HomeOnly C s (s.startAbort C) := by
  unfold State.startAbort
  dsimp only
  split
  · exact ((setMan s _).trans (sendFinishMessages _)).trans (abort _)
  · exact (setMan s _).trans (abort _)

theorem startCommit (s : State L M) (valid : Bool) : HomeOnly C s (s.startCommit C valid).2 := by
  unfold State.startCommit
  dsimp only
  split
  · split
    · exact (setMan s _).trans (send _ _)
    · exact ((sendFinishMessages s).trans (setMan _ _)).trans (emit _ _)
  · split
    · exact (validate s valid).trans (emit _ _)
    · exact (validate s valid).trans (startAbort _)

theorem afterLoop (s : State L M) (rc : RC) (wl : L) (out : Option (ℕ × M)) :
    HomeOnly C s (s.afterLoop C C.home rc wl out) := (setMan s _).trans (send _ _)

variable {inp : Inputs}

theorem runTxn {r : RC × State L M} (h : s.runTxn C inp C.home = some r) : HomeOnly C s r.2 := by
  unfold State.runTxn at h
  split at h
  · cases h
  next rc wl out _ =>
    cases h
    refine (afterLoop s rc wl out).trans ?_
    rw [State.runTxnTail, if_pos rfl]
    split
    · exact startCommit _ _
    · split
      · exact startAbort _
      · exact refl _

theorem workerCommit (s : State L M) : HomeOnly C s (s.workerCommit C) :=
  ⟨fun _ hn => update_of_ne hn _ _, fun _ => .inl⟩

theorem workerAbort (s : State L M) : HomeOnly C s (s.workerAbort C) :=
  ⟨fun _ hn => update_of_ne hn _ _, fun _ => .inl⟩

theorem checkIfDone (s : State L M) (rc : RC) : HomeOnly C s (s.checkIfDone C rc) := by
  unfold State.checkIfDone
  split
  · exact refl s
  · split
    · exact workerCommit s
    · split
      · exact workerAbort s
      · exact refl s

theorem runHome (h : s.runHome C inp = some s') : HomeOnly C s s' := by
  obtain ⟨r, hr, rfl⟩ := map_eq_some_iff.mp h
  exact (runTxn hr).trans (checkIfDone _ _)

theorem receivedResponse (s : State L M) (rc : RC) : HomeOnly C s (s.receivedResponse C rc) :=
  ((assert s _).trans (setMan _ _)).trans (assert _ _)

theorem processRackPrep (s : State L M) (inp : Inputs) (rc : RC) :
    HomeOnly C s (s.processRackPrep C inp rc) := by
  unfold State.processRackPrep
  dsimp only
  refine (receivedResponse s rc).trans ?_
  generalize s.receivedResponse C rc = t
  have hval : HomeOnly C t
      (if (t.man C.home).rc = .RCOK then t.validate C inp.valid C.home else (RC.RCOK, t)).2 := by
    split
    · exact validate t _
    · exact refl t
  generalize (if (t.man C.home).rc = .RCOK then t.validate C inp.valid C.home else (RC.RCOK, t)) = r
    at hval ⊢
  split
  · exact refl t
  · split
    · exact ((hval.trans (setMan _ _)).trans (sendFinishMessages _)).trans (abort _)
    · exact (hval.trans (sendFinishMessages _)).trans (emit _ _)

theorem processRackRfin (s : State L M) (rc : RC) : HomeOnly C s (s.processRackRfin C rc) := by
  unfold State.processRackRfin
  dsimp only
  refine (receivedResponse s rc).trans ?_
  split
  · exact refl _
  · split
    · exact workerCommit _
    · exact workerAbort _

theorem processRqryRsp {dst : ℕ} {rc : RC}
    (h : s.processRqryRsp C inp dst rc = some s') : HomeOnly C s s' := by
  unfold State.processRqryRsp at h
  refine (assert s (decide (dst = C.home))).trans ?_
  split at h
  · cases h
    exact refl _
  · split at h
    · cases h
      exact startAbort _
    · exact runHome h

end HomeOnly

/-- The managers of the other nodes keep `RCOK`, so a failed fragment answers `RCOK`. -/
structure Silent (C : Config L M) (s : State L M) : Prop where
  rcok : ∀ n, n ≠ C.home → (s.man n).rc = .RCOK
  lost : ∀ k n rsp, n ≠ C.home → ⟨k, n, .fragment .Abort rsp⟩ ∈ s.log → rsp = some .RCOK

namespace Silent

section

variable (h : Silent C s)

include h

theorem homeOnly (hs : HomeOnly C s s') : Silent C s' where
  rcok n hn := by
    rw [hs.man n hn]
    exact h.rcok n hn
  lost k n rsp hn hmem := (hs.log _ hmem).elim (h.lost k n rsp hn) fun hhome => absurd hhome hn

/-- A step of another node that keeps `RCOK` and reports what it has. -/
theorem other {m : TxnMan L} (hman : s'.man = update s.man n m) (hrc : m.rc = .RCOK)
    (hlog : ∀ e ∈ s'.log, e ∈ s.log ∨ ∀ rsp, e.event = .fragment .Abort rsp → rsp = some .RCOK) :
    Silent C s' where
  rcok i hi := by
    rw [hman]
    by_cases hin : i = n
    · rw [hin, update_self]
      exact hrc
    · rw [update_of_ne hin]
      exact h.rcok i hi
  lost k i rsp hi hmem := (hlog _ hmem).elim (h.lost k i rsp hi) fun he => he rsp rfl

theorem runRemote (hab : C.W.abortRemote = false) {inp : Inputs}
    (hrun : s.runRemote C inp n = some s') : Silent C s' := by
  obtain ⟨r, htxn, rfl⟩ := map_eq_some_iff.mp hrun
  by_cases hn : n = C.home
  · subst hn
    split
    · exact h.homeOnly ((HomeOnly.runTxn htxn).trans (.emit _ _))
    · exact h.homeOnly (((HomeOnly.runTxn htxn).trans (.emit _ _)).trans (.send _ _))
  · unfold State.runTxn at htxn
    split at htxn
    · cases htxn
    next rc wl out _ =>
      rw [State.runTxnTail, if_neg hn, hab, if_neg (by simp)] at htxn
      cases htxn
      have hrc : ((s.afterLoop C n rc wl out).man n).rc = .RCOK := by
        simpa [State.afterLoop, State.send, State.setMan] using h.rcok n hn
      split
      next hwait =>
        refine h.other rfl (h.rcok n hn) fun e he => (mem_cons.mp he).symm.imp_right ?_
        rintro rfl rsp heq
        rw [hwait] at heq
        cases heq
      · refine h.other rfl (h.rcok n hn) fun e he => (mem_cons.mp he).symm.imp_right ?_
        rintro rfl rsp heq
        rw [hrc] at heq
        obtain ⟨_, rfl⟩ := Event.fragment.inj heq
        rfl

theorem setNet (ms : List (Msg M)) : Silent C { s with net := ms } :=
  ⟨h.rcok, h.lost⟩

/-- A manager changes and keeps its code. -/
theorem setMan {m : TxnMan L} (hm : m.rc = (s.man n).rc) : Silent C (s.setMan n m) := by
  by_cases hn : n = C.home
  · subst hn
    exact h.homeOnly (.setMan s m)
  · exact h.other rfl (hm.trans (h.rcok n hn)) fun _ => .inl

theorem processRprepare (hcc : C.cc ≠ .OCC ∧ C.cc ≠ .MAAT) (inp : Inputs) (n : ℕ) :
    Silent C (s.processRprepare C inp n) := by
  have hval : s.validate C inp.valid n = (.RCOK, s.emit n (.validate .RCOK)) := by
    simp [State.validate, hcc.1, hcc.2]
  simp only [State.processRprepare, hval, reduceCtorEq, if_false]
  refine h.other rfl rfl fun e he => (mem_cons.mp he).symm.imp_right ?_
  rintro rfl rsp heq
  cases heq

theorem processRfin (n : ℕ) (rc : RC) (ro : Bool) : Silent C (s.processRfin C n rc ro) := by
  unfold State.processRfin
  dsimp only
  split
  · by_cases hab : (s.man n).aborted = true
    · rw [State.abort, if_pos (by simpa [State.assert] using hab)]
      exact h.other rfl rfl fun _ => .inl
    · rw [State.abort, if_neg (by simpa [State.assert] using hab)]
      refine h.other (update_idem _ _ _) rfl fun e he =>
        (mem_cons.mp he).symm.imp_right ?_
      rintro rfl rsp heq
      cases heq
  · refine h.other rfl rfl fun e he => (mem_cons.mp he).symm.imp_right ?_
    rintro rfl rsp heq
    cases heq

theorem process (hab : C.W.abortRemote = false) (hcc : C.cc ≠ .OCC ∧ C.cc ≠ .MAAT) {inp : Inputs}
    {msg : Msg M} (hrun : s.process C inp msg = some s') : Silent C s' := by
  cases msg with
  | rqry src dst m =>
    refine runRemote ?_ hab hrun
    exact (h.homeOnly (.assert s _)).setMan rfl
  | rqryRsp src dst rc => exact h.homeOnly (.processRqryRsp hrun)
  | rprepare n => exact some.inj hrun ▸ h.processRprepare hcc inp n
  | rackPrep src rc => exact some.inj hrun ▸ h.homeOnly (.processRackPrep s inp rc)
  | rfin n rc ro => exact some.inj hrun ▸ h.processRfin n rc ro
  | rackFin src rc => exact some.inj hrun ▸ h.homeOnly (.processRackRfin s rc)

end

/-- **Without an `abort` of failed fragments every failure is lost**, in every run. -/
theorem of_reachable (hab : C.W.abortRemote = false) (hcc : C.cc ≠ .OCC ∧ C.cc ≠ .MAAT)
    (h : (machine C).Reachable s) : Silent C s := by
  refine Machine.Reachable.invariant ?_ (fun s a s' hinv hstep => ?_) h
  · refine ⟨fun n hn => ?_, fun _ _ _ _ hmem => absurd hmem not_mem_nil⟩
    simp [machine, update_of_ne hn, TxnMan.fresh]
  · obtain ⟨-, hcase⟩ := step_cases hstep
    cases a with
    | start inp =>
      have hinv' : Silent C { s with pending := false, attempt := s.attempt + 1 } :=
        ⟨hinv.rcok, hinv.lost⟩
      exact hinv'.homeOnly (.runHome hcase.2)
    | deliver i inp =>
      obtain ⟨msg, -, hrun⟩ := hcase
      exact (hinv.setNet _).process hab hcc hrun
    | cont n inp =>
      obtain ⟨-, hrun⟩ := hcase
      split at hrun
      · simp only [State.processRtxnCont] at hrun
        refine homeOnly ?_ (.runHome hrun)
        exact hinv.setMan rfl
      · simp only [State.processRqryCont] at hrun
        refine runRemote ?_ hab hrun
        exact hinv.setMan rfl

/-- A lost failure is not handled. -/
theorem failedHandled_iff (h : Silent C s) : FailedHandled C s ↔ NoFailure C s := by
  refine ⟨fun hf k n rsp hn hmem => ?_, NoFailure.failedHandled⟩
  have hrsp := (hf k n rsp hn hmem).1
  rw [h.lost k n rsp hn hmem] at hrsp
  cases hrsp

end Silent

end

/-! ## The three workloads -/

/-- **Which failed remote fragments are handled.** Under YCSB every one is: the response says
`Abort`, and home aborts. Under TPC-C and Product-Part-Supplier none is, so a run is right exactly
if no remote fragment in it ends in `Abort`. -/
theorem failedFragment_handled_iff (N : Cluster) (hN : N.nodeCnt ∣ N.partCnt) (home : ℕ)
    (hhome : home < N.nodeCnt) (cc : CCAlg) (hcc : cc ≠ .OCC ∧ cc ≠ .MAAT) :
    (∀ requests s, (machine (Ycsb.config N cc home requests)).Reachable s →
      FailedHandled (Ycsb.config N cc home requests) s) ∧
    (∀ query s, (machine (Tpcc.config N cc home query)).Reachable s →
      (FailedHandled (Tpcc.config N cc home query) s ↔ NoFailure (Tpcc.config N cc home query) s)) ∧
    (∀ query s, (machine (Pps.config N cc home query)).Reachable s →
      (FailedHandled (Pps.config N cc home query) s ↔
        NoFailure (Pps.config N cc home query) s)) := by
  refine ⟨fun requests s hs => ?_, fun query s hs => ?_, fun query s hs => ?_⟩
  · have hconf := Ycsb.confined (Nat.zero_lt_of_lt hhome) hN cc home requests
    exact (reachable_inv hhome hconf hs).failedHandled
  · exact (Silent.of_reachable rfl hcc hs).failedHandled_iff
  · exact (Silent.of_reachable rfl hcc hs).failedHandled_iff

/-- In the first attempt of `Ycsb.retried` a remote fragment fails; home aborts. -/
theorem failedFragment_handled_retried :
    ∃ s, (machine (Ycsb.config ⟨2, 2⟩ .NO_WAIT 0 [⟨0, .WR⟩, ⟨1, .WR⟩])).run Ycsb.retried = some s ∧
      ⟨1, 1, .fragment .Abort (some .Abort)⟩ ∈ s.log ∧
      FailedHandled (Ycsb.config ⟨2, 2⟩ .NO_WAIT 0 [⟨0, .WR⟩, ⟨1, .WR⟩]) s := by
  have hrun : ∃ s, (machine (Ycsb.config ⟨2, 2⟩ .NO_WAIT 0 [⟨0, .WR⟩, ⟨1, .WR⟩])).run Ycsb.retried
      = some s := ⟨_, rfl⟩
  obtain ⟨s, hs⟩ := hrun
  have hhandled := (failedFragment_handled_iff ⟨2, 2⟩ (by decide) 0 (by decide) .NO_WAIT
    (by decide)).1 [⟨0, .WR⟩, ⟨1, .WR⟩] s (Machine.Reachable.of_run hs)
  cases hs
  exact ⟨_, rfl, by decide, hhandled⟩

/-- `get_row` grants what it is asked for. -/
def allGranted : Inputs := ⟨List.replicate 5 ⟨.RCOK, true, 1⟩, true⟩

/-- Home works until it sends a request, the remote node is refused the row, and all other
messages are delivered. -/
def refusedRemotely : List Action :=
  [.start allGranted, .deliver 0 Ycsb.refused, .deliver 0 allGranted, .deliver 0 allGranted,
    .deliver 0 allGranted, .deliver 0 allGranted, .deliver 0 allGranted]

/-- A payment by a customer of another node. -/
def remotePayment : Tpcc.Txn := ⟨.PAYMENT0, 0, false, .TPCC_PAYMENT, 1, 2, [], false⟩

/-- An update of a part of another node. -/
def remotePart : Pps.Txn := ⟨.UPDATEPART0, 0, false, .UPDATEPART, 1, 0, 0⟩

/-- **A failed remote fragment is committed**: the customer's row is refused at node 1, the
response says `RCOK`, and both nodes commit the payment; likewise for the part. -/
theorem failedFragment_committed :
    (∃ s, (machine (Tpcc.config ⟨2, 2⟩ .NO_WAIT 0 remotePayment)).run refusedRemotely = some s ∧
      ⟨1, 1, .fragment .Abort (some .RCOK)⟩ ∈ s.log ∧ ⟨1, 0, .commit [0, 1]⟩ ∈ s.log ∧
      ⟨1, 1, .commit []⟩ ∈ s.log) ∧
    (∃ s, (machine (Pps.config ⟨2, 2⟩ .NO_WAIT 0 remotePart)).run refusedRemotely = some s ∧
      ⟨1, 1, .fragment .Abort (some .RCOK)⟩ ∈ s.log ∧ ⟨1, 0, .commit [0, 1]⟩ ∈ s.log ∧
      ⟨1, 1, .commit []⟩ ∈ s.log) :=
  ⟨⟨_, rfl, by decide, by decide, by decide⟩, ⟨_, rfl, by decide, by decide, by decide⟩⟩

end Protocol

end Deneva
