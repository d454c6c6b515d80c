import Deneva.TwoPhaseCommit

/-!
# Agreement of two-phase commit: messages

The handlers of messages keep `StageInv`, so it holds in every reachable state
(`reachable_inv`), and what it says of a state is read off at the end.

* A handler at a participant changes the manager of that node and notes events of
  that node (`Local`); everything else keeps what the invariant says of it.
* A handler at home takes one message away and counts it (`receivedResponse`).
-/

namespace Deneva

universe u v

open Function List
open Option hiding or_self

namespace Protocol

open State

variable {L : Type u} {M : Type v} {C : Config L M}

/-! ## Steps of one node -/

/-- Node `n` replaces its manager and notes events; nothing else that the invariant reads
changes, except the messages in flight. -/
structure Local (s s' : State L M) (n : ℕ) (m : TxnMan L) (es : List Event) : Prop where
  passed : s'.assertFailed = s.assertFailed
  ended : s'.ended = s.ended
  pending : s'.pending = s.pending
  attempt : s'.attempt = s.attempt
  man : s'.man = update s.man n m
  log : s'.log = es.map (⟨s.attempt, n, ·⟩) ++ s.log

/-- A fragment that fails is answered with `Abort`, after an abort. -/
def FailsClosed (es : List Event) : Prop :=
  ∀ rsp, .fragment .Abort rsp ∈ es → rsp = some .Abort ∧ .abort ∈ es

theorem History.notes {log : List Entry} {k : ℕ} (h : History C log k) (hk : 1 ≤ k) {n : ℕ}
    (hn : n ≠ C.home) {es : List Event} (hfailed : FailsClosed es) :
    History C (es.map (⟨k, n, ·⟩) ++ log) k where
  le x hx := by
    rcases mem_append.mp hx with hx | hx
    · obtain ⟨e, _, rfl⟩ := List.mem_map.mp hx
      exact ⟨hk, le_refl k⟩
    · exact h.le x hx
  past j hj hjk := by
    clear hfailed
    induction es with
    | nil => exact h.past j hj hjk
    | cons e es ih => exact ih.cons hjk.ne' n e
  justified := by
    clear hfailed
    induction es with
    | nil => exact h.justified
    | cons e es ih => exact ih.cons fun _ _ hhome => absurd hhome hn
  failed j m rsp hmem := by
    rcases mem_append.mp hmem with hmem | hmem
    · obtain ⟨e, he, heq⟩ := List.mem_map.mp hmem
      obtain ⟨rfl, rfl, rfl⟩ := Entry.mk.inj heq
      exact (hfailed rsp he).imp_right fun ha =>
        mem_append_left _ (List.mem_map.mpr ⟨_, ha, rfl⟩)
    · exact (h.failed j m rsp hmem).imp_right (mem_append_right _)

section

variable {K : Confined C} {s s' : State L M} {n : ℕ} {m : TxnMan L} {es : List Event}

namespace Local

theorem man_self (h : Local s s' n m es) : s'.man n = m := by
  rw [h.man, update_self]

variable {i : ℕ}

section

variable (h : Local s s' n m es)

include h

theorem man_ne (hi : i ≠ n) : s'.man i = s.man i := by
  rw [h.man, update_of_ne hi]

theorem mem_log {e : Event} :
    ⟨s'.attempt, i, e⟩ ∈ s'.log ↔ (i = n ∧ e ∈ es) ∨ ⟨s.attempt, i, e⟩ ∈ s.log := by
  rw [h.log, h.attempt, mem_append]
  refine or_congr_left ⟨fun hmem => ?_, fun ⟨hi, he⟩ => List.mem_map.mpr ⟨e, he, by rw [hi]⟩⟩
  obtain ⟨x, hx, heq⟩ := List.mem_map.mp hmem
  obtain ⟨-, hi, rfl⟩ := Entry.mk.inj heq
  exact ⟨hi.symm, hx⟩

theorem releases_self :
    releases s'.log s'.attempt n = es.countP Event.isRelease + releases s.log s.attempt n := by
  rw [h.log, h.attempt, releases, countP_append, countP_map]
  simp [releases, comp_def]

theorem releases_ne (hi : i ≠ n) : releases s'.log s'.attempt i = releases s.log s.attempt i := by
  rw [h.log, h.attempt, releases, countP_append, countP_map]
  simp [releases, comp_def, Ne.symm hi]

theorem active (hi : i ≠ n) (ha : Active s i) : Active s' i :=
  ha.congr (h.man_ne hi) (h.releases_ne hi)

theorem dead (hi : i ≠ n) (hd : Dead s i) : Dead s' i :=
  hd.congr (h.man_ne hi) (h.releases_ne hi)

theorem started (hs : s.pending = false ∧ 1 ≤ s.attempt) :
    s'.pending = false ∧ 1 ≤ s'.attempt := by
  rwa [h.pending, h.attempt]

/-- A participant's step keeps what holds in every stage. -/
theorem base (hb : Base K s) (hk : 1 ≤ s.attempt) (hn : n ∈ remotes C (s.man C.home).touched)
    (hok : K.RemoteOk n m.wl) (hfailed : FailsClosed es) : Base K s' := by
  have hne : n ≠ C.home := ((mem_remotes hb.bound).mp hn).2
  have hhome : s'.man C.home = s.man C.home := h.man_ne (Ne.symm hne)
  refine ⟨h.passed.trans hb.passed, h.ended.trans hb.live, hhome ▸ hb.nodup, hhome ▸ hb.bound,
    hhome ▸ hb.homeOk, fun i hi => ?_, ?_, fun x hx hxa => ?_⟩
  · by_cases hin : i = n
    · subst hin
      rw [h.man_self]
      exact hok
    · rw [h.man_ne hin]
      exact hb.remoteOk i hi
  · rw [h.log, h.attempt]
    exact hb.history.notes hk hne hfailed
  · rw [hhome]
    rw [h.log] at hx
    rcases mem_append.mp hx with hx | hx
    · obtain ⟨e, _, rfl⟩ := List.mem_map.mp hx
      exact .inr hn
    · exact hb.scope x hx (hxa.trans h.attempt)

theorem undecided (hu : Undecided K s) (hn : n ∈ remotes C (s.man C.home).touched)
    (hok : K.RemoteOk n m.wl) (hfailed : FailsClosed es)
    (hcommit : ∀ touched, .commit touched ∉ es) : Undecided K s' := by
  have hne : n ≠ C.home := ((mem_remotes hu.bound).mp hn).2
  have hhome : s'.man C.home = s.man C.home := h.man_ne (Ne.symm hne)
  refine ⟨h.base hu.toBase hu.started.2 hn hok hfailed, h.started hu.started, hhome ▸ hu.homeIn, ?_,
    fun i touched hmem => ?_⟩
  · rw [hhome, h.releases_ne (Ne.symm hne)]
    exact hu.homeActive
  · rcases h.mem_log.mp hmem with ⟨-, he⟩ | hmem
    · exact hcommit touched he
    · exact hu.noCommit i touched hmem

theorem running (hr : Running K s) (hn : n ∈ remotes C (s.man C.home).touched)
    (hok : K.RemoteOk n m.wl) (hfailed : FailsClosed es)
    (hcommit : ∀ touched, .commit touched ∉ es) : Running K s' := by
  have hhome : s'.man C.home = s.man C.home :=
    h.man_ne (Ne.symm ((mem_remotes hr.bound).mp hn).2)
  exact ⟨h.undecided hr.toUndecided hn hok hfailed hcommit, hhome ▸ hr.homeRc,
    hhome ▸ hr.noResponses⟩

end

end Local

/-! ## Remote fragments -/

variable {inp : Inputs} {k : ℕ}

/-- The manager of a participant after its fragment ran. -/
def TxnMan.ran (C : Config L M) (n : ℕ) (t : TxnMan L) (wl : L) (waiting : Bool) : TxnMan L :=
  { t with
    wl := wl, touched := touchedAfter C n t (none : Option (ℕ × M)), waiting := waiting }

/-- A remote fragment runs, and answers unless it waits. -/
theorem runRemote_inv (h : Running K s) (hn : n ∈ remotes C (s.man C.home).touched)
    (hw : (s.man C.home).waiting = false) (hactive : ∀ i, i ≠ C.home → i ≠ n → Active s i)
    (hnet : s.net = []) (hrc : (s.man n).rc = .RCOK) (hab : (s.man n).aborted = false)
    (hret : (s.man n).returnId = C.home) (hrel : releases s.log s.attempt n = 0)
    (hinp : ∀ a ∈ inp.answers, Answer.possible C.cc a = true)
    (hrun : s.runRemote C inp n = some s') : StageInv K s' := by
  have hne : n ≠ C.home := ((mem_remotes h.bound).mp hn).2
  obtain ⟨⟨rc', s₂⟩, htxn, rfl⟩ := map_eq_some_iff.mp hrun
  simp only [runTxn, hne, decide_false] at htxn
  rcases hloop : C.W.runLoop n false (s.man n).wl inp.answers with _ | ⟨rc, wl, out⟩
  · rw [hloop] at htxn
    cases htxn
  rw [hloop] at htxn
  obtain ⟨hwl, rfl, hcases⟩ := K.remote_loop hinp (h.remoteOk n hne) hloop
  simp only [runTxnTail, if_neg hne, K.abortRemote, and_true, some.injEq] at htxn
  have key : ∀ {s' : State L M} {m : TxnMan L} {es : List Event}, Local s s' n m es →
      m.wl = wl → FailsClosed es → (∀ touched, .commit touched ∉ es) → Fragment K s' n →
      StageInv K s' := by
    intro s' m es hl hm hfailed hcommit hfrag
    have hhome : s'.man C.home = s.man C.home := hl.man_ne (Ne.symm hne)
    refine StageInv.remote (hl.running h hn (hm ▸ hwl) hfailed hcommit) ?_ ?_
      (fun i hi hin => hl.active hin (hactive i hi hin)) hfrag
    · rwa [hhome]
    · rwa [hhome]
  have hret' : ∀ rc, ((s.afterLoop C n rc wl none).man n).returnId = C.home := by
    intro rc
    simpa [afterLoop, send, setMan] using hret
  have hrc' : ∀ rc, ((s.afterLoop C n rc wl none).man n).rc = .RCOK := by
    intro rc
    simpa [afterLoop, send, setMan] using hrc
  have hnet' : ∀ rc, (s.afterLoop C n rc wl none).net = [] := by
    simp [afterLoop, send, setMan, hnet]
  rcases hcases with rfl | rfl | rfl
  · -- the fragment is done
    obtain ⟨rfl, rfl⟩ := htxn
    simp only [reduceCtorEq, if_false, hret', hrc']
    have hl : Local s (((s.afterLoop C n .RCOK wl none).emit n
        (.fragment .RCOK (some .RCOK))).send [.rqryRsp n C.home .RCOK]) n
        ((s.man n).ran C n wl false) [.fragment .RCOK (some .RCOK)] :=
      ⟨rfl, rfl, rfl, rfl, rfl, rfl⟩
    refine key hl rfl (by simp [FailsClosed]) (by simp) (.answered ?_ ⟨?_, ?_⟩)
    · simp [send, emit, hnet']
    · rw [hl.man_self]
      exact ⟨hrc, hab, rfl⟩
    · rw [hl.releases_self, hrel]
      rfl
  · -- it waits for a row
    obtain ⟨rfl, rfl⟩ := htxn
    simp only [if_true]
    have hl : Local s ((s.afterLoop C n .WAIT wl none).emit n (.fragment .WAIT none)) n
        ((s.man n).ran C n wl true) [.fragment .WAIT none] := ⟨rfl, rfl, rfl, rfl, rfl, rfl⟩
    refine key hl rfl (by simp [FailsClosed]) (by simp) (.waits (hnet' _) ?_ ?_ ?_ ?_ ?_)
    · rw [hl.man_self]
      exact hrc
    · rw [hl.man_self]
      exact hab
    · rw [hl.man_self]
      rfl
    · rw [hl.man_self]
      exact hret
    · rw [hl.releases_self, hrel]
      rfl
  · -- it is refused a row and aborts
    obtain ⟨rfl, rfl⟩ := htxn
    have hab' : ((s.afterLoop C n .Abort wl none).man n).aborted = false := by
      simpa [afterLoop, send, setMan] using hab
    set m : TxnMan L := { (s.man n).ran C n wl false with rc := .Abort, aborted := true } with hm
    have habort : (s.afterLoop C n .Abort wl none).abort n =
        ((s.afterLoop C n .Abort wl none).setMan n m).emit n .abort := by
      rw [abort, if_neg (by rw [hab']; decide)]
      simp [afterLoop, send, setMan, hm, TxnMan.ran]
    have hman : ((s.afterLoop C n .Abort wl none).abort n).man n = m := by
      rw [habort]
      simp [setMan, emit]
    have hmret : m.returnId = C.home := hret
    simp only [reduceCtorEq, if_false, hman, hmret]
    rw [habort]
    have hl : Local s (((((s.afterLoop C n .Abort wl none).setMan n m).emit n .abort).emit n
        (.fragment .Abort (some .Abort))).send [.rqryRsp n C.home .Abort]) n m
        [.fragment .Abort (some .Abort), .abort] :=
      ⟨rfl, rfl, rfl, rfl, update_idem _ _ _, rfl⟩
    refine key hl rfl (by simp [FailsClosed]) (by simp) (.failed ?_ ⟨?_, ?_, ?_, ?_⟩)
    · simp [send, emit, setMan, hnet', hm]
    · rw [hl.man_self]
    · rw [hl.man_self]
    · rw [hl.man_self]
      rfl
    · rw [hl.releases_self, hrel]
      rfl

/-! ## Starting and resuming -/

theorem assert_true (s : State L M) : s.assert true = s := by
  simp [assert]

/-- Without entries of an attempt there are no releases in it. -/
theorem releases_eq_zero {log : List Entry} (h : ∀ e ∈ log, e.attempt ≠ k) (n : ℕ) :
    releases log k n = 0 := by
  refine List.countP_eq_zero.mpr fun e he => ?_
  simp [h e he]

/-- The next attempt begins where all earlier ones are over. -/
theorem History.next {log : List Entry} (h : History C log k)
    (hover : 1 ≤ k → Over C.home log k) : History C log (k + 1) where
  le e he := ⟨(h.le e he).1, (h.le e he).2.trans (Nat.le_succ k)⟩
  past j hj hjk := by
    rcases Nat.lt_succ_iff_lt_or_eq.mp hjk with hlt | rfl
    · exact h.past j hj hlt
    · exact hover hj
  justified := h.justified
  failed := h.failed

theorem processRtxn_inv (hhome : C.home < C.nodeCnt) (h : StageInv K s) (hp : s.pending = true)
    (hinp : ∀ a ∈ inp.answers, Answer.possible C.cc a = true)
    (hrun : s.processRtxn C inp = some s') : StageInv K s' := by
  have hstarted : ∀ {k : ℕ}, s.pending = false ∧ 1 ≤ k → StageInv K s' := fun h => by
    rw [hp] at h
    exact absurd h.1 (by decide)
  cases h with
  | atHome run | remote run => exact hstarted run.started
  | prepare h | abort h | commit h | ended h => exact hstarted h.started
  | idle h =>
    have hfresh : ∀ e ∈ s.log, e.attempt ≠ s.attempt + 1 := fun e he =>
      Nat.ne_of_lt (Nat.lt_succ_of_le (h.history.le e he).2)
    have hrel := releases_eq_zero hfresh
    have hready : Ready K { s with pending := false, attempt := s.attempt + 1 } :=
      ⟨⟨h.passed, h.live, h.nodup, h.bound, h.homeOk, h.remoteOk, h.history.next h.settled,
        fun e he hea => absurd hea (hfresh e he)⟩,
        ⟨rfl, Nat.le_add_left 1 _⟩, ⟨(h.usable C.home).aborted, hrel C.home⟩,
        fun n touched hmem => hfresh _ hmem rfl, (h.usable C.home).rc, h.noResponses, h.net,
        fun n _ => ⟨h.usable n, hrel n⟩, .inr h.firstRun⟩
    exact runHome_inv hhome hready hinp hrun

/-- Home runs on once no message is in flight and nobody has released. -/
theorem Running.ready (h : Running K s) (hnet : s.net = [])
    (hactive : ∀ n, n ≠ C.home → Active s n) : Ready K s :=
  { h with net := hnet, active := hactive, homeIn := .inl h.homeIn }

theorem Running.setNet (h : Running K s) (ms : List (Msg M)) : Running K { s with net := ms } :=
  ⟨⟨⟨h.passed, h.live, h.nodup, h.bound, h.homeOk, h.remoteOk, h.history, h.scope⟩, h.started,
    h.homeIn, h.homeActive, h.noCommit⟩, h.homeRc, h.noResponses⟩

/-- Only a fragment that runs at home waits there. -/
theorem StageInv.homeWaits (h : StageInv K s) (hw : (s.man C.home).waiting = true) :
    Running K s ∧ s.net = [] ∧ ∀ n, n ≠ C.home → Active s n := by
  have hnot : (s.man C.home).waiting = false → False := by simp [hw]
  cases h with
  | atHome run net _ active => exact ⟨run, net, active⟩
  | idle h => exact (hnot (h.usable C.home).waiting).elim
  | remote _ _ homeWaiting => exact (hnot homeWaiting).elim
  | prepare h | abort h | commit h | ended h => exact (hnot h.homeWaiting).elim

theorem processRtxnCont_inv (hhome : C.home < C.nodeCnt) (h : StageInv K s)
    (hw : (s.man C.home).waiting = true) (hinp : ∀ a ∈ inp.answers, Answer.possible C.cc a = true)
    (hrun : s.processRtxnCont C inp = some s') : StageInv K s' := by
  obtain ⟨run, hnet, hactive⟩ := h.homeWaits hw
  have hrun' : Running K (s.setMan C.home { s.man C.home with
      wl := C.W.runTxnPostWait true (s.man C.home).wl, waiting := false }) := by
    refine ⟨⟨?_, run.started, ?_, ?_, run.noCommit⟩, ?_, ?_⟩
    · exact run.toBase.homeMan rfl rfl rfl rfl rfl (K.home_wait run.homeOk) run.nodup run.bound
        fun _ hn => hn
    · simpa [setMan] using run.homeIn
    · simpa [setMan] using run.homeActive
    · simpa [setMan] using run.homeRc
    · simpa [setMan] using run.noResponses
  exact runHome_inv hhome (hrun'.ready hnet fun n hn =>
    (hactive n hn).congr (update_of_ne hn _ _) rfl) hinp hrun

/-- Once home has decided nobody waits. -/
theorem Finishing.notWaiting {rc : RC} (h : Finishing K s rc) (hn : n ≠ C.home) :
    (s.man n).waiting = false := by
  by_cases hmem : n ∈ s.net.map Msg.node
  · obtain ⟨m, hm, rfl⟩ := List.mem_map.mp hmem
    rcases (h.msgs m hm).2 with ⟨_, ha | hd⟩ | ⟨_, hu, _⟩
    · exact ha.usable.waiting
    · exact hd.2.waiting
    · exact hu.waiting
  · exact (h.nodes n hn hmem).1.waiting

/-- Only the fragment that home waits for waits at another node. -/
theorem StageInv.remoteWaits (h : StageInv K s) (hn : n ≠ C.home) (hw : (s.man n).waiting = true) :
    Running K s ∧ n ∈ remotes C (s.man C.home).touched ∧ (s.man C.home).waiting = false ∧
      (∀ i, i ≠ C.home → i ≠ n → Active s i) ∧ s.net = [] ∧ (s.man n).rc = .RCOK ∧
      (s.man n).aborted = false ∧ (s.man n).returnId = C.home ∧
      releases s.log s.attempt n = 0 := by
  have hnot : (s.man n).waiting = false → False := by simp [hw]
  have hactive : Active s n → False := fun h => hnot h.usable.waiting
  have hdead : Dead s n → False := fun h => hnot h.waiting
  cases h with
  | atHome _ _ _ active => exact (hactive (active n hn)).elim
  | idle h => exact (hnot (h.usable n).waiting).elim
  | prepare h =>
    exact (h.nodes n hn).elim (fun h => (hactive h).elim) fun h => (hdead h.1).elim
  | abort h | commit h => exact (hnot (h.notWaiting hn)).elim
  | ended h =>
    by_cases hmem : n ∈ s.net.map Msg.node
    · obtain ⟨m, hm, rfl⟩ := List.mem_map.mp hmem
      exact (hactive (h.msgs m hm).2.2.2.2).elim
    · exact (hnot (h.nodes n hn hmem).1.waiting).elim
  | @remote run d mem homeWaiting active fragment =>
    have hd : n = d := by
      by_contra hne
      exact hactive (active n hn hne)
    subst hd
    cases fragment with
    | requested _ _ h => exact (hactive h).elim
    | answered _ h => exact (hactive h).elim
    | failed _ h => exact (hdead h).elim
    | waits net rc aborted _ returnId unreleased =>
      exact ⟨run, mem, homeWaiting, active, net, rc, aborted, returnId, unreleased⟩

theorem processRqryCont_inv (h : StageInv K s) (hn : n ≠ C.home) (hw : (s.man n).waiting = true)
    (hinp : ∀ a ∈ inp.answers, Answer.possible C.cc a = true)
    (hrun : s.processRqryCont C inp n = some s') : StageInv K s' := by
  obtain ⟨run, mem, homeWaiting, hactive, net, rc, aborted, returnId, unreleased⟩ :=
    h.remoteWaits hn hw
  have hl : Local s (s.setMan n { s.man n with
      wl := C.W.runTxnPostWait false (s.man n).wl, waiting := false }) n _ [] :=
    ⟨rfl, rfl, rfl, rfl, rfl, rfl⟩
  have hhome := hl.man_ne (Ne.symm hn)
  refine runRemote_inv (hl.running run mem (K.remote_wait (run.remoteOk n hn))
    (by simp [FailsClosed]) (by simp))
    (by rwa [hhome]) (by rwa [hhome]) (fun i hi hin => hl.active hin (hactive i hi hin)) net
    ?_ ?_ ?_ ?_ hinp hrun
  · rw [hl.man_self]
    exact rc
  · rw [hl.man_self]
    exact aborted
  · rw [hl.man_self]
    exact returnId
  · rw [hl.releases_self, unreleased]
    rfl

/-! ## Messages of a remote fragment -/

/-- A message of a remote fragment is delivered. -/
theorem deliver_remote (hhome : C.home < C.nodeCnt) (run : Running K s) {d : ℕ}
    (mem : d ∈ remotes C (s.man C.home).touched) (homeWaiting : (s.man C.home).waiting = false)
    (active : ∀ n, n ≠ C.home → n ≠ d → Active s n) (fragment : Fragment K s d) {msg : Msg M}
    {rest : List (Msg M)} (hp : s.net.Perm (msg :: rest))
    (hinp : ∀ a ∈ inp.answers, Answer.possible C.cc a = true)
    (hrun : process C inp { s with net := rest } msg = some s') : StageInv K s' := by
  have hne : d ≠ C.home := ((mem_remotes run.bound).mp mem).2
  -- the message is the only one in flight
  have honly : ∀ {x : Msg M}, s.net = [x] → msg = x ∧ rest = [] := by
    intro x hx
    rw [hx] at hp
    exact List.cons.inj (List.perm_singleton.mp hp.symm)
  cases fragment with
  | @requested m net ok hactive =>
    obtain ⟨rfl, rfl⟩ := honly net
    have hl : Local s (({ s with net := [] }.assert (decide (d ≠ C.home))).setMan d { s.man d with
        wl := C.W.copyToTxn m (s.man d).wl, returnId := C.home }) d _ [] :=
      ⟨by simp [assert, setMan, hne], rfl, rfl, rfl, rfl, rfl⟩
    have hhome' := hl.man_ne (Ne.symm hne)
    refine runRemote_inv (hl.running run mem (K.remote_copy ok (run.remoteOk d hne))
      (by simp [FailsClosed]) (by simp)) (by rwa [hhome']) (by rwa [hhome'])
      (fun i hi hin => hl.active hin (active i hi hin)) rfl ?_ ?_ ?_ ?_ hinp hrun
    · rw [hl.man_self]
      exact hactive.usable.rc
    · rw [hl.man_self]
      exact hactive.usable.aborted
    · rw [hl.man_self]
    · rw [hl.releases_self, hactive.unreleased]
      rfl
  | waits net =>
    rw [net] at hp
    exact absurd hp.symm (by simp)
  | answered net hactive =>
    obtain ⟨rfl, rfl⟩ := honly net
    simp only [process, processRqryRsp, ne_eq, not_true_eq_false, if_false,
      decide_true, assert_true, reduceCtorEq] at hrun
    refine runHome_inv hhome ((run.setNet []).ready rfl fun n hn => ?_) hinp hrun
    by_cases hnd : n = d
    · exact (hnd ▸ hactive).congr rfl rfl
    · exact (active n hn hnd).congr rfl rfl
  | failed net hdead =>
    obtain ⟨rfl, rfl⟩ := honly net
    simp only [process, processRqryRsp, ne_eq, not_true_eq_false, if_false,
      decide_true, assert_true, if_true, some.injEq] at hrun
    subst hrun
    have hcount := length_remotes run.bound run.nodup run.homeIn
    have hpos := length_pos_of_mem mem
    refine (startAbort_multi (run.setNet []).toUndecided rfl homeWaiting
      (show 1 < (s.man C.home).touched.length by omega) fun n hn => ?_).1
    by_cases hnd : n = d
    · subst hnd
      exact .inr ⟨mem, hdead.congr rfl rfl⟩
    · exact .inl ((active n hn hnd).congr rfl rfl)

/-! ## Taking a message out of the net -/

/-- A message is in flight, and `rest` are the others. -/
theorem perm_eraseIdx {net : List (Msg M)} {i : ℕ} {m : Msg M} (h : net[i]? = some m) :
    net.Perm (m :: net.eraseIdx i) := by
  obtain ⟨hi, rfl⟩ := List.getElem?_eq_some_iff.mp h
  exact (getElem_cons_eraseIdx_perm hi).symm

section

variable {net rest : List (Msg M)} {msg reply : Msg M}

section

variable (hp : net.Perm (msg :: rest))

include hp

theorem rest_ne (hd : (net.map Msg.node).Nodup) : ∀ m ∈ rest, m.node ≠ msg.node := by
  have hnd := (hp.map Msg.node).nodup_iff.mp hd
  rw [map_cons, nodup_cons] at hnd
  exact fun m hm heq => hnd.1 (heq ▸ List.mem_map_of_mem hm)

theorem rest_nodup (hd : (net.map Msg.node).Nodup) : (rest.map Msg.node).Nodup := by
  have hnd := (hp.map Msg.node).nodup_iff.mp hd
  rw [map_cons, nodup_cons] at hnd
  exact hnd.2

theorem length_rest : (net.length : ℤ) = rest.length + 1 := by
  rw [hp.length_eq]
  simp

/-- A node that has no other message in flight has none. -/
theorem not_mem_net {i : ℕ} (hi : i ≠ msg.node) (hnot : i ∉ rest.map Msg.node) :
    i ∉ net.map Msg.node := fun hmem =>
  (mem_cons.mp ((hp.map Msg.node).mem_iff.mp hmem)).elim hi hnot

/-- A reply takes the place of the message it answers. -/
theorem reply_perm {net' : List (Msg M)} (hnet : net' = rest ++ [reply])
    (hr : reply.node = msg.node) : (net'.map Msg.node).Perm (net.map Msg.node) := by
  rw [hnet]
  refine (List.Perm.map Msg.node (perm_append_singleton reply rest)).trans ?_
  rw [map_cons, hr, ← map_cons]
  exact (hp.map Msg.node).symm

end

end

/-! ## Preparing -/

section

variable {rest : List (Msg M)} {msg : Msg M}

variable {rc : RC}

/-- A participant has answered the prepare message. -/
theorem Preparing.reply (h : Preparing K s) (hp : s.net.Perm (msg :: rest))
    (hl : Local s s' msg.node m es) (hnet : s'.net = rest ++ [.rackPrep msg.node rc])
    (hok : K.RemoteOk msg.node m.wl) (hes : ∀ e ∈ es, (∃ v, e = .validate v) ∨ e = .abort)
    (hrc : rc = .RCOK ∧ Active s' msg.node ∧ .validate .RCOK ∈ es ∨
      rc = .Abort ∧ Dead s' msg.node) : Preparing K s' := by
  have hmsg : msg ∈ s.net := hp.mem_iff.mpr mem_cons_self
  have hn := (h.msgs msg hmsg).1
  have hne : msg.node ≠ C.home := ((mem_remotes h.bound).mp hn).2
  have hhome : s'.man C.home = s.man C.home := hl.man_ne (Ne.symm hne)
  have hperm := reply_perm hp hnet rfl
  have hlen : s'.net.length = s.net.length := by simpa using hperm.length_eq
  refine ⟨hl.undecided h.toUndecided hn hok (fun rsp he => ?_) (fun touched he => ?_),
    hhome ▸ h.homeWaiting, hhome ▸ h.homeRc, h.ack, ?_, ?_, hperm.nodup_iff.mpr h.distinct,
    fun x hx => ?_, fun n hn' => ?_, fun hrc' n hn' hnot => ?_, fun n rsp hmem => ?_⟩
  · rcases hes _ he with ⟨v, hv⟩ | hv <;> cases hv
  · rcases hes _ he with ⟨v, hv⟩ | hv <;> cases hv
  · rw [hhome, hlen]
    exact h.count
  · rw [hnet]
    simp
  · rw [hhome]
    rw [hnet] at hx
    rcases mem_append.mp hx with hx | hx
    · -- the other messages
      have hxne := rest_ne hp h.distinct x hx
      obtain ⟨hxn, hx'⟩ := h.msgs x (hp.mem_iff.mpr (mem_cons_of_mem _ hx))
      refine ⟨hxn, hx'.imp (fun ha => ⟨ha.1, hl.active hxne ha.2⟩) (Or.imp_left fun hv => ?_)⟩
      exact ⟨hv.1, hl.mem_log.mpr (.inr hv.2)⟩
    · -- the answer
      obtain rfl := mem_singleton.mp hx
      refine ⟨hn, .inr ?_⟩
      rcases hrc with ⟨rfl, _, hv⟩ | ⟨rfl, _⟩
      · exact .inl ⟨rfl, hl.mem_log.mpr (.inl ⟨rfl, hv⟩)⟩
      · exact .inr rfl
  · rw [hhome, hnet]
    by_cases hnn : n = msg.node
    · subst hnn
      rcases hrc with ⟨_, ha, _⟩ | ⟨rfl, hd⟩
      · exact .inl ha
      · exact .inr ⟨hd, .inl (by simp)⟩
    · refine (h.nodes n hn').imp (hl.active hnn) fun ⟨hd, hor⟩ => ⟨hl.dead hnn hd, ?_⟩
      refine hor.imp_left fun hmem => mem_append_left _ ?_
      -- it is not the message that was delivered
      rcases mem_cons.mp (hp.mem_iff.mp hmem) with heq | hmem
      · exact absurd (congrArg Msg.node heq) hnn
      · exact hmem
  · rw [hhome] at hrc' hn'
    rw [hperm.mem_iff] at hnot
    exact hl.mem_log.mpr (.inr (h.acked hrc' n hn' hnot))
  · rcases hl.mem_log.mp hmem with ⟨_, he⟩ | hmem
    · rcases hes _ he with ⟨v, hv⟩ | hv <;> cases hv
    · exact h.noFailure n rsp hmem

/-- What `process_rprepare` does to a participant that has not aborted. -/
theorem processRprepare_cases (hab : (s.man n).aborted = false) (inp : Inputs)
    (rest : List (Msg M)) (hs' : processRprepare C inp { s with net := rest } n = s') :
    (Local s s' n { s.man n with rc := .RCOK } [.validate .RCOK] ∧
        s'.net = rest ++ [.rackPrep n .RCOK]) ∨
      Local s s' n { s.man n with rc := .Abort, aborted := true } [.abort, .validate .Abort] ∧
        s'.net = rest ++ [.rackPrep n .Abort] := by
  subst hs'
  rcases validate_cases (C := C) { s with net := rest } inp.valid n with hv | hv
  · left
    constructor
    · constructor <;> simp [processRprepare, hv, send, setMan, emit]
    · simp [processRprepare, hv, send, setMan, emit]
  · right
    constructor
    · constructor <;> simp [processRprepare, hv, send, setMan, emit, abort, hab]
    · simp [processRprepare, hv, send, setMan, emit, abort, hab]

theorem processRprepare_inv (h : Preparing K s) (hp : s.net.Perm (.rprepare n :: rest))
    (ha : Active s n) (inp : Inputs) :
    Preparing K (processRprepare C inp { s with net := rest } n) := by
  have hn := (h.msgs _ (hp.mem_iff.mpr mem_cons_self)).1
  have hok : K.RemoteOk n (s.man n).wl := h.remoteOk n ((mem_remotes h.bound).mp hn).2
  rcases processRprepare_cases ha.usable.aborted inp rest rfl with ⟨hl, hnet⟩ | ⟨hl, hnet⟩
  · refine h.reply hp hl hnet hok (by simp) (.inl ⟨rfl, ⟨?_, ?_⟩, by simp⟩)
    · rw [Msg.node, hl.man_self]
      exact ⟨rfl, ha.usable.aborted, ha.usable.waiting⟩
    · exact hl.releases_self.trans (by rw [ha.unreleased]; rfl)
  · refine h.reply hp hl hnet hok (by simp) (.inr ⟨rfl, ?_, ?_, ?_, ?_⟩)
    · exact congrArg TxnMan.rc hl.man_self
    · exact congrArg TxnMan.aborted hl.man_self
    · exact (congrArg TxnMan.waiting hl.man_self).trans ha.usable.waiting
    · exact hl.releases_self.trans (by rw [ha.unreleased]; rfl)

/-- The home manager after a response. -/
def TxnMan.counted (t : TxnMan L) (rc : RC) : TxnMan L :=
  { t with rc := if t.rc = .RCOK then rc else t.rc, rspCnt := t.rspCnt - 1 }

/-- The system after home has counted a response. -/
def State.counted (C : Config L M) (s : State L M) (rc : RC) (rest : List (Msg M)) : State L M :=
  { s with man := update s.man C.home ((s.man C.home).counted rc), net := rest }

theorem counted_home (s : State L M) (rc : RC) (rest : List (Msg M)) :
    (s.counted C rc rest).man C.home = (s.man C.home).counted rc :=
  update_self _ _ _

theorem counted_ne (hn : n ≠ C.home) (rc : RC) (rest : List (Msg M)) :
    (s.counted C rc rest).man n = s.man n :=
  update_of_ne hn _ _

/-- Home counts a response: its assertions pass. -/
theorem receivedResponse_eq (hrc : (s.man C.home).rc = .RCOK ∨ (s.man C.home).rc = .Abort)
    (hpos : 0 < (s.man C.home).rspCnt) (rc : RC) (rest : List (Msg M)) :
    receivedResponse C { s with net := rest } rc = s.counted C rc rest := by
  have hle : ¬ (s.man C.home).rspCnt < 1 := by omega
  simp [receivedResponse, assert, setMan, counted, TxnMan.counted, hrc, hle]

/-- A participant that aborted takes part. -/
theorem Dead.mem_remotes (h : Dead s n) (hb : Base K s) (hn : n ≠ C.home) :
    n ∈ remotes C (s.man C.home).touched := by
  have hpos : 0 < releases s.log s.attempt n := by
    rw [h.released]
    exact Nat.one_pos
  obtain ⟨e, he, hcond⟩ := List.countP_pos_iff.mp hpos
  simp only [Bool.and_eq_true, decide_eq_true_eq] at hcond
  have hscope := hb.scope e he hcond.1.1
  rw [hcond.1.2] at hscope
  exact hscope.resolve_left hn

/-- What is left of the invariant once home has counted an answer, whether or not it was
the last one. -/
structure Counted (K : Confined C) (s : State L M) : Prop extends Undecided K s where
  homeWaiting : (s.man C.home).waiting = false
  homeRc : (s.man C.home).rc = .RCOK ∨ (s.man C.home).rc = .Abort
  count : (s.man C.home).rspCnt = s.net.length
  nodes : ∀ n, n ≠ C.home → Active s n ∨
    (Dead s n ∧ (.rackPrep n .Abort ∈ s.net ∨ (s.man C.home).rc = .Abort))
  acked : (s.man C.home).rc = .RCOK → ∀ n ∈ remotes C (s.man C.home).touched,
    n ∉ s.net.map Msg.node → ⟨s.attempt, n, .validate .RCOK⟩ ∈ s.log

/-- Home counts an answer: its code stays `RCOK` only as long as everybody was valid, and who has
not answered is still in flight. -/
theorem Preparing.counted (h : Preparing K s)
    (hp : s.net.Perm (.rackPrep n rc :: rest)) : Counted K (s.counted C rc rest) := by
  have hmsg : .rackPrep n rc ∈ s.net := hp.mem_iff.mpr mem_cons_self
  -- the answer is `RCOK`, and `n` is valid, or it is `Abort`
  have hrc : (rc = .RCOK ∧ ⟨s.attempt, n, .validate .RCOK⟩ ∈ s.log) ∨ rc = .Abort := by
    rcases (h.msgs _ hmsg).2 with ⟨heq, _⟩ | ⟨heq, hv⟩ | heq
    · cases heq
    · obtain ⟨_, rfl⟩ := Msg.rackPrep.inj heq
      exact .inl ⟨rfl, hv⟩
    · obtain ⟨_, rfl⟩ := Msg.rackPrep.inj heq
      exact .inr rfl
  have hself := counted_home (C := C) s rc rest
  refine ⟨⟨?_, h.started, hself ▸ h.homeIn, hself ▸ h.homeActive, h.noCommit⟩,
    hself ▸ h.homeWaiting, ?_, ?_, fun i hi => ?_, fun hok i hi hnot => ?_⟩
  · exact h.toBase.homeMan rfl rfl rfl rfl rfl h.homeOk h.nodup h.bound fun _ hn => hn
  · rw [hself]
    rcases h.homeRc with hr | hr
    · simp only [TxnMan.counted, hr, if_true]
      exact hrc.imp_left And.left
    · simp [TxnMan.counted, hr]
  · have hlen := length_rest hp
    have hcount := h.count
    rw [hself]
    show (s.man C.home).rspCnt - 1 = rest.length
    omega
  · have hcongr := counted_ne (s := s) hi rc rest
    refine (h.nodes i hi).imp (fun ha => ha.congr hcongr rfl) fun ⟨hd, hor⟩ =>
      ⟨hd.congr hcongr rfl, ?_⟩
    rw [hself]
    rcases h.homeRc with hr | hr
    · rcases hor with hmem | hr'
      · rcases mem_cons.mp (hp.mem_iff.mp hmem) with heq | hmem
        · obtain ⟨_, rfl⟩ := Msg.rackPrep.inj heq
          exact .inr (by simp [TxnMan.counted, hr])
        · exact .inl hmem
      · rw [hr] at hr'
        cases hr'
    · exact .inr (by simp [TxnMan.counted, hr])
  · rw [hself] at hok hi
    rcases h.homeRc with hr | hr
    · have hrcok : rc = .RCOK := by simpa [TxnMan.counted, hr] using hok
      rcases hrc with ⟨_, hv⟩ | hrc
      · by_cases hin : i = n
        · exact hin ▸ hv
        · exact h.acked hr i hi (not_mem_net hp hin hnot)
      · rw [hrc] at hrcok
        cases hrcok
    · rw [TxnMan.counted] at hok
      simp [hr] at hok

/-- Home is told to abort, or decides so, once all have answered. -/
theorem Counted.startAbort (h : Counted K s) (hnet : s.net = [])
    (hlen : 1 < (s.man C.home).touched.length) : StageInv K (s.startAbort C) := by
  refine (startAbort_multi h.toUndecided hnet h.homeWaiting hlen fun n hn => ?_).1
  exact (h.nodes n hn).imp_right fun ⟨hd, _⟩ => ⟨hd.mem_remotes h.toBase hn, hd⟩

theorem Counted.note (h : Counted K s) (rc : RC) : Counted K (s.emit C.home (.validate rc)) where
  toUndecided := h.toUndecided.note rc
  homeWaiting := h.homeWaiting
  homeRc := h.homeRc
  count := h.count
  nodes n hn := (h.nodes n hn).imp (fun ha => ha.note rfl) fun hd =>
    ⟨hd.1.congr rfl (releases_cons_of_not rfl _ _ _ _ _), hd.2⟩
  acked hrc n hn hnot := mem_cons_of_mem _ (h.acked hrc n hn hnot)

/-- All have answered `RCOK`: nobody has aborted. -/
theorem Counted.active (h : Counted K s) (hnet : s.net = []) (hrc : (s.man C.home).rc = .RCOK)
    (hn : n ≠ C.home) : Active s n := by
  refine (h.nodes n hn).resolve_right fun ⟨_, hor⟩ => ?_
  rw [hnet, hrc] at hor
  rcases hor with hor | hor
  · cases hor
  · cases hor

/-- More answers are to come. -/
theorem Counted.preparing (h : Counted K (s.counted C rc rest)) (hs : Preparing K s)
    (hp : s.net.Perm (msg :: rest)) (hne : rest ≠ []) : Preparing K (s.counted C rc rest) where
  toUndecided := h.toUndecided
  homeWaiting := h.homeWaiting
  homeRc := h.homeRc
  ack := hs.ack
  count := h.count
  nonempty := hne
  distinct := rest_nodup hp hs.distinct
  msgs x hx := by
    obtain ⟨hmem, hx'⟩ := hs.msgs x (hp.mem_iff.mpr (mem_cons_of_mem _ hx))
    have hxn : x.node ≠ C.home := ((mem_remotes hs.bound).mp hmem).2
    rw [counted_home]
    exact ⟨hmem, hx'.imp_left fun ha => ⟨ha.1, ha.2.congr (counted_ne hxn rc rest) rfl⟩⟩
  nodes := h.nodes
  acked := h.acked
  noFailure := hs.noFailure

/-- An answer to a prepare message arrives. -/
theorem processRackPrep_inv (h : Preparing K s) (hp : s.net.Perm (.rackPrep n rc :: rest))
    (inp : Inputs) : StageInv K (processRackPrep C inp { s with net := rest } rc) := by
  have hc := h.counted hp
  have hlen : 1 < ((s.counted C rc rest).man C.home).touched.length := by
    have hcount := length_remotes hc.bound hc.nodup hc.homeIn
    have hmem := (h.msgs _ (hp.mem_iff.mpr mem_cons_self)).1
    have hpos := length_pos_of_mem hmem
    rw [counted_home] at hcount ⊢
    change (remotes C (s.man C.home).touched).length + 1 = _ at hcount
    omega
  have hpos : 0 < (s.man C.home).rspCnt := by
    rw [h.count, length_rest hp]
    omega
  simp only [processRackPrep, receivedResponse_eq h.homeRc hpos]
  by_cases hmore : 0 < ((s.counted C rc rest).man C.home).rspCnt
  · simp only [if_pos hmore]
    refine StageInv.prepare (hc.preparing h hp fun hnil => ?_)
    rw [hc.count] at hmore
    simp [counted, hnil] at hmore
  · simp only [if_neg hmore]
    have hnet : (s.counted C rc rest).net = [] := by
      rw [hc.count] at hmore
      exact length_eq_zero_iff.mp (by omega)
    rcases hc.homeRc with hrc | hrc
    · simp only [hrc, if_true]
      rcases validate_cases (C := C) (s.counted C rc rest) inp.valid C.home with hv | hv
      · -- all are valid
        have hrc' : (((s.counted C rc rest).emit C.home (.validate .RCOK)).man C.home).rc = .RCOK :=
          hrc
        simp only [hv, hrc', reduceCtorEq, or_self, if_false]
        exact commit_multi (hc.note .RCOK).toUndecided hnet hc.homeWaiting hrc hlen
          (fun i hi => (hc.active hnet hrc hi).note rfl) ⟨mem_cons_self,
          fun i hi => mem_cons_of_mem _ (hc.acked hrc i hi (by simp [hnet]))⟩ h.ack
      · simp only [hv, true_or, if_true]
        have habort := (hc.note .Abort).startAbort hnet hlen
        rwa [startAbort, if_pos (by simpa [setMan, emit] using hlen)] at habort
    · simp only [hrc, reduceCtorEq, if_false, or_true, if_true]
      have habort := hc.startAbort hnet hlen
      rwa [startAbort, if_pos (by simpa [setMan] using hlen)] at habort

/-! ## Finishing -/

/-- What `process_rfin` does to a participant of an aborted attempt. -/
theorem processRfin_abort (s : State L M) (hn : n ≠ C.home) (ro : Bool) (rest : List (Msg M))
    (hs' : processRfin C { s with net := rest } n .Abort ro = s') :
    Local s s' n { (s.man n).reset C with
        wl := C.W.resetQuery (C.W.reset (s.man n).wl), touched := [] }
      (if (s.man n).aborted then [] else [.abort]) ∧ s'.net = rest ++ [.rackFin n .RCOK] := by
  subst hs'
  by_cases hab : (s.man n).aborted = true
  · refine ⟨?_, by simp [processRfin, assert, abort, setMan, send, TxnMan.reset, hab]⟩
    constructor <;> simp [processRfin, assert, abort, setMan, send, TxnMan.reset, hn, hab]
  · refine ⟨?_, by simp [processRfin, assert, abort, setMan, send, emit, TxnMan.reset, hab]⟩
    constructor <;> simp [processRfin, assert, abort, setMan, send, emit, TxnMan.reset, hn, hab]

/-- A participant has finished. -/
theorem Finishing.reply (h : Finishing K s rc) (hp : s.net.Perm (msg :: rest))
    (hl : Local s s' msg.node m es) (hnet : s'.net = rest ++ [.rackFin msg.node .RCOK])
    (hok : K.RemoteOk msg.node m.wl) (hes : ∀ e ∈ es, e.isRelease = true) (hu : m.Usable)
    (hrel : releases s'.log s'.attempt msg.node = 1) : Finishing K s' rc := by
  have hn := (h.msgs msg (hp.mem_iff.mpr mem_cons_self)).1
  have hne : msg.node ≠ C.home := ((mem_remotes h.bound).mp hn).2
  have hhome : s'.man C.home = s.man C.home := hl.man_ne (Ne.symm hne)
  have hperm := reply_perm hp hnet rfl
  have hlen : s'.net.length = s.net.length := by simpa using hperm.length_eq
  refine ⟨hl.base h.toBase h.started.2 hn hok (fun rsp he => ?_), hl.started h.started,
    hhome ▸ h.homeIn, hhome ▸ h.homeWaiting, hhome ▸ h.homeRc, ?_, ?_, ?_,
    hperm.nodup_iff.mpr h.distinct, fun x hx => ?_, fun i hi hnot => ?_⟩
  · exact absurd (hes _ he) (by simp [Event.isRelease])
  · rw [hl.releases_ne (Ne.symm hne)]
    exact h.released
  · rw [hhome, hlen]
    exact h.count
  · rw [hnet]
    simp
  · rw [hhome]
    rw [hnet] at hx
    rcases mem_append.mp hx with hx | hx
    · -- the other messages
      have hxne := rest_ne hp h.distinct x hx
      obtain ⟨hxn, hx'⟩ := h.msgs x (hp.mem_iff.mpr (mem_cons_of_mem _ hx))
      rw [hl.man_ne hxne, hl.releases_ne hxne]
      exact ⟨hxn,
        hx'.imp_left (And.imp_right (Or.imp (hl.active hxne) (And.imp_right (hl.dead hxne))))⟩
    · -- the acknowledgement
      obtain rfl := mem_singleton.mp hx
      exact ⟨hn, .inr ⟨rfl, hl.man_self.symm ▸ hu, hrel⟩⟩
  · rw [hperm.mem_iff] at hnot
    have hin : i ≠ msg.node := fun heq =>
      hnot (heq ▸ List.mem_map_of_mem (hp.mem_iff.mpr mem_cons_self))
    rw [hhome, hl.man_ne hin, hl.releases_ne hin]
    exact h.nodes i hi hnot

theorem processRfin_abort_inv (h : Aborting K s) {ro : Bool}
    (hp : s.net.Perm (.rfin n .Abort ro :: rest)) (hor : Active s n ∨ Dead s n) :
    Aborting K (processRfin C { s with net := rest } n .Abort ro) := by
  have hn := (h.msgs _ (hp.mem_iff.mpr mem_cons_self)).1
  have hne : n ≠ C.home := ((mem_remotes h.bound).mp hn).2
  have hok := K.remote_reset (h.remoteOk n hne)
  obtain ⟨hl, hnet⟩ := processRfin_abort s hne ro rest rfl
  refine ⟨h.reply hp hl hnet hok (fun e he => ?_) ⟨rfl, rfl, ?_⟩ (hl.releases_self.trans ?_),
    hl.mem_log.mpr (.inr h.homeAbort), fun i touched hmem => ?_⟩
  · split at he
    · cases he
    · rw [mem_singleton.mp he]
      rfl
  · exact hor.elim (·.usable.waiting) (·.waiting)
  · rcases hor with ha | hd
    · rw [ha.usable.aborted, ha.unreleased]
      rfl
    · rw [hd.aborted, hd.released]
      rfl
  · refine (hl.mem_log.mp hmem).elim (fun he => ?_) (h.noCommit i touched)
    split at he <;> simp at he

/-- What `process_rfin` does to a participant of a committed attempt. -/
theorem processRfin_commit (s : State L M) (hn : n ≠ C.home) (ro : Bool) (rest : List (Msg M))
    (hs' : processRfin C { s with net := rest } n .RCOK ro = s') :
    Local s s' n (.fresh C) [.commit (s.man n).touched] ∧
      s'.net = rest ++ (if ro = false ∨ C.cc = .MAAT ∨ C.cc = .OCC then [.rackFin n (s.man n).rc]
        else []) := by
  subst hs'
  refine ⟨?_, by simp [processRfin, assert, commit, setMan, send, emit]⟩
  constructor <;> simp [processRfin, assert, commit, setMan, send, emit, hn]

theorem processRfin_commit_inv (h : Committing K s)
    (hp : s.net.Perm (.rfin n .RCOK (C.W.readonly C.query) :: rest)) (ha : Active s n) :
    Committing K (processRfin C { s with net := rest } n .RCOK (C.W.readonly C.query)) := by
  have hn := (h.msgs _ (hp.mem_iff.mpr mem_cons_self)).1
  have hne : n ≠ C.home := ((mem_remotes h.bound).mp hn).2
  obtain ⟨hl, hnet⟩ := processRfin_commit s hne (C.W.readonly C.query) rest rfl
  rw [if_pos h.ack, ha.usable.rc] at hnet
  refine ⟨h.reply hp hl hnet (K.remote_init n) (by simp [Event.isRelease]) ⟨rfl, rfl, rfl⟩ ?_,
    fun i hmem => ?_, h.ack⟩
  · exact hl.releases_self.trans (by rw [ha.unreleased]; rfl)
  · exact (hl.mem_log.mp hmem).elim (fun he => by simp at he) (h.noAbort i)

section

variable (h : Finishing K s rc)

include h

/-- An acknowledged participant is done. -/
theorem Finishing.counted_nodes (hp : s.net.Perm (.rackFin n .RCOK :: rest)) {i : ℕ}
    (hi : i ≠ C.home) (hnot : i ∉ rest.map Msg.node) :
    (s.man i).Usable ∧
      releases s.log s.attempt i = if i ∈ remotes C (s.man C.home).touched then 1 else 0 := by
  obtain ⟨hmem, hmsg⟩ := h.msgs _ (hp.mem_iff.mpr mem_cons_self)
  by_cases hin : i = n
  · subst hin
    rcases hmsg with ⟨heq, _⟩ | ⟨_, hu, hrel⟩
    · cases heq
    · exact ⟨hu, hrel.trans (if_pos hmem).symm⟩
  · exact h.nodes i hi (not_mem_net hp hin hnot)

theorem Finishing.base_counted (rest : List (Msg M)) : Base K (s.counted C .RCOK rest) :=
  h.toBase.homeMan rfl rfl rfl rfl rfl h.homeOk h.nodup h.bound fun _ hn => hn

/-- `RCOK` does not change the code at home. -/
theorem Finishing.counted_man (rest : List (Msg M)) :
    (s.counted C .RCOK rest).man C.home =
      { s.man C.home with rc := rc, rspCnt := (s.man C.home).rspCnt - 1 } := by
  rw [counted_home, TxnMan.counted, h.homeRc]
  by_cases hrc : rc = .RCOK
  · rw [if_pos hrc, hrc]
  · rw [if_neg hrc]

theorem Finishing.counted_rsp (hp : s.net.Perm (msg :: rest)) :
    ((s.counted C .RCOK rest).man C.home).rspCnt = rest.length := by
  have hlen := length_rest hp
  have hcount := h.count
  rw [h.counted_man]
  show (s.man C.home).rspCnt - 1 = rest.length
  omega

/-- More acknowledgements are to come. -/
theorem Finishing.counted (hp : s.net.Perm (.rackFin n .RCOK :: rest)) (hne : rest ≠ []) :
    Finishing K (s.counted C .RCOK rest) rc := by
  have hman := h.counted_man rest
  refine ⟨h.base_counted rest, h.started, hman ▸ h.homeIn, hman ▸ h.homeWaiting, by rw [hman],
    h.released, h.counted_rsp hp, hne, rest_nodup hp h.distinct, fun x hx => ?_,
    fun i hi hnot => ?_⟩
  · obtain ⟨hmem, hx'⟩ := h.msgs x (hp.mem_iff.mpr (mem_cons_of_mem _ hx))
    have hxn : x.node ≠ C.home := ((mem_remotes h.bound).mp hmem).2
    have hxman := counted_ne (s := s) hxn .RCOK rest
    rw [hman, hxman]
    exact ⟨hmem, hx'.imp_left (And.imp_right (Or.imp (fun ha => ha.congr hxman rfl)
      (And.imp_right fun hd => hd.congr hxman rfl)))⟩
  · rw [hman, counted_ne hi]
    exact h.counted_nodes hp hi hnot

/-- Who took part in the attempt has released once, when all have acknowledged. -/
theorem Finishing.releases_last (hp : s.net.Perm [.rackFin n .RCOK]) (i : ℕ) :
    releases s.log s.attempt i ≤ 1 ∧
      ∀ e ∈ s.log, e.attempt = s.attempt → e.node = i → releases s.log s.attempt i = 1 := by
  by_cases hi : i = C.home
  · subst hi
    exact ⟨h.released.le, fun _ _ _ _ => h.released⟩
  · have hrel := (h.counted_nodes hp hi (by simp)).2
    refine ⟨by rw [hrel]; split <;> decide, fun e he hea hei => ?_⟩
    rw [hrel, if_pos]
    exact hei ▸ (h.scope e he hea).resolve_left (hei ▸ hi)

end

/-- The last acknowledgement of an abort: the transaction is queued again. -/
theorem Aborting.last (h : Aborting K s) (hp : s.net.Perm [.rackFin n .RCOK]) :
    Idle K ((s.counted C .RCOK []).workerAbort C) := by
  have hman := h.counted_man []
  have hb := h.base_counted []
  have hself : ((s.counted C .RCOK []).workerAbort C).man C.home =
      ((s.counted C .RCOK []).man C.home).reset C := update_self _ _ _
  have hne : ∀ i, i ≠ C.home → ((s.counted C .RCOK []).workerAbort C).man i = s.man i := by
    intro i hi
    simp [workerAbort, setMan, counted, update_of_ne hi]
  have htouched : (((s.counted C .RCOK []).workerAbort C).man C.home).touched =
      (s.man C.home).touched := by
    rw [hself, hman]
    rfl
  have hwl : (((s.counted C .RCOK []).workerAbort C).man C.home).wl =
      C.W.reset (s.man C.home).wl := by
    rw [hself, hman]
    rfl
  refine ⟨⟨hb.passed, hb.live, ?_, ?_, ?_, fun i hi => ?_, hb.history, fun e he hea => ?_⟩,
    rfl, rfl,
    fun i => ?_, ?_, ?_, fun _ => ⟨h.noCommit, fun i => ?_, h.homeAbort, fun e he hea => ?_⟩⟩
  · rw [htouched]
    exact h.nodup
  · rw [htouched]
    exact h.bound
  · rw [hwl]
    exact (K.home_reset h.homeOk).1
  · rw [hne i hi]
    exact h.remoteOk i hi
  · rw [htouched]
    exact h.scope e he hea
  · by_cases hi : i = C.home
    · subst hi
      rw [hself, hman]
      exact ⟨rfl, rfl, h.homeWaiting⟩
    · rw [hne i hi]
      exact (h.counted_nodes hp hi (by simp)).1
  · rw [hself]
    rfl
  · rw [hwl]
    exact (K.home_reset h.homeOk).2
  · exact (h.releases_last hp i).1
  · exact (h.releases_last hp e.node).2 e he hea rfl

/-- The last acknowledgement of a commit: the transaction has ended. -/
theorem Committing.last (h : Committing K s) (hp : s.net.Perm [.rackFin n .RCOK]) :
    Ended C ((s.counted C .RCOK []).workerCommit C) where
  passed := h.passed
  started := h.started
  ended := rfl
  history := h.history
  noAbort := h.noAbort
  released := h.released
  homeWaiting := by simp [workerCommit, setMan, TxnMan.fresh]
  distinct := nodup_nil
  msgs _ hm := absurd hm not_mem_nil
  nodes i hi _ := by
    have himan : ((s.counted C .RCOK []).workerCommit C).man i = s.man i := by
      simp [workerCommit, setMan, counted, update_of_ne hi]
    rw [himan]
    exact ⟨(h.counted_nodes hp hi (by simp)).1, h.releases_last hp i⟩

/-- `process_rack_rfin` counts, and ends the attempt with the last acknowledgement. -/
theorem processRackRfin_eq (h : Finishing K s rc) (hrc : rc = .RCOK ∨ rc = .Abort)
    (hp : s.net.Perm (msg :: rest)) :
    processRackRfin C { s with net := rest } .RCOK =
      if rest ≠ [] then s.counted C .RCOK rest
      else if rc = .RCOK then (s.counted C .RCOK []).workerCommit C
      else (s.counted C .RCOK []).workerAbort C := by
  have hpos : 0 < (s.man C.home).rspCnt := by
    rw [h.count, length_rest hp]
    omega
  have hhome : (s.man C.home).rc = .RCOK ∨ (s.man C.home).rc = .Abort := h.homeRc ▸ hrc
  have hcode : ((s.counted C .RCOK rest).man C.home).rc = rc := by rw [h.counted_man]
  simp only [processRackRfin, receivedResponse_eq hhome hpos, h.counted_rsp hp, hcode]
  rcases rest with _ | ⟨x, rest⟩
  · simp
  · have hlen : (0 : ℤ) < (x :: rest).length := by
      rw [length_cons]
      omega
    rw [if_pos hlen, if_pos (cons_ne_nil x rest)]

/-! ## After the end -/

/-- A participant of a read-only commit is told. -/
theorem processRfin_ended (h : Ended C s) (hp : s.net.Perm (.rfin n .RCOK true :: rest)) :
    Ended C (processRfin C { s with net := rest } n .RCOK true) := by
  obtain ⟨hne, _, hmaat, hocc, ha⟩ := h.msgs _ (hp.mem_iff.mpr mem_cons_self)
  change n ≠ C.home at hne
  change Active s n at ha
  obtain ⟨hl, hnet⟩ := processRfin_commit s hne true rest rfl
  rw [if_neg (by simp [hmaat, hocc]), append_nil] at hnet
  have hself := hl.releases_self.trans (by rw [ha.unreleased]; rfl : _ = 1)
  refine ⟨hl.passed.trans h.passed, hl.started h.started, hl.ended.trans h.ended, ?_,
    fun i hmem => ?_, ?_, ?_, ?_, fun x hx => ?_, fun i hi hnot => ?_⟩
  · rw [hl.log, hl.attempt]
    exact h.history.notes h.started.2 hne (by simp [FailsClosed])
  · exact (hl.mem_log.mp hmem).elim (fun he => by simp at he) (h.noAbort i)
  · exact (hl.releases_ne (Ne.symm hne)).trans h.released
  · exact (congrArg TxnMan.waiting (hl.man_ne (Ne.symm hne))).trans h.homeWaiting
  · rw [hnet]
    exact rest_nodup hp h.distinct
  · rw [hnet] at hx
    have hxne := rest_ne hp h.distinct x hx
    obtain ⟨h₁, h₂, h₃, h₄, hact⟩ := h.msgs x (hp.mem_iff.mpr (mem_cons_of_mem _ hx))
    exact ⟨h₁, h₂, h₃, h₄, hl.active hxne hact⟩
  · by_cases hin : i = n
    · subst hin
      rw [hl.man_self]
      exact ⟨⟨rfl, rfl, rfl⟩, hself.le, fun _ _ _ _ => hself⟩
    · rw [hnet] at hnot
      obtain ⟨hu, hle, hexact⟩ := h.nodes i hi (not_mem_net hp hin hnot)
      rw [hl.man_ne hin, hl.releases_ne hin]
      refine ⟨hu, hle, fun e he hea hei => ?_⟩
      rw [hl.log] at he
      rcases mem_cons.mp he with rfl | he
      · exact absurd hei.symm hin
      · exact hexact e he (hea.trans hl.attempt) hei

end

/-! ## Every reachable state -/

/-- **A message is delivered.** -/
theorem deliver_inv (hhome : C.home < C.nodeCnt) (h : StageInv K s) {i : ℕ} {msg : Msg M}
    (hmsg : s.net[i]? = some msg) (hinp : ∀ a ∈ inp.answers, Answer.possible C.cc a = true)
    (hrun : process C inp { s with net := s.net.eraseIdx i } msg = some s') : StageInv K s' := by
  have hp := perm_eraseIdx hmsg
  have hmem : msg ∈ s.net := hp.mem_iff.mpr mem_cons_self
  generalize s.net.eraseIdx i = rest at hp hrun
  cases h with
  | idle h =>
    rw [h.net] at hmem
    cases hmem
  | atHome _ net =>
    rw [net] at hmem
    cases hmem
  | remote run mem homeWaiting active fragment =>
    exact deliver_remote hhome run mem homeWaiting active fragment hp hinp hrun
  | prepare h =>
    rcases (h.msgs msg hmem).2 with ⟨heq, ha⟩ | ⟨heq, _⟩ | heq
    all_goals
      rw [heq] at hrun hp
      cases hrun
    · exact .prepare (processRprepare_inv h hp ha inp)
    · exact processRackPrep_inv h hp inp
    · exact processRackPrep_inv h hp inp
  | abort h =>
    rcases (h.msgs msg hmem).2 with ⟨heq, hor⟩ | ⟨heq, _⟩
    all_goals
      rw [heq] at hrun hp
      cases hrun
    · exact .abort (processRfin_abort_inv h hp (hor.imp_right And.right))
    · rw [processRackRfin_eq h.toFinishing (.inr rfl) hp]
      by_cases hne : rest = []
      · subst hne
        exact .idle (h.last hp)
      · rw [if_pos hne]
        exact .abort ⟨h.toFinishing.counted hp hne, h.homeAbort, h.noCommit⟩
  | commit h =>
    rcases (h.msgs msg hmem).2 with ⟨heq, hor⟩ | ⟨heq, _⟩
    all_goals
      rw [heq] at hrun hp
      cases hrun
    · exact .commit (processRfin_commit_inv h hp (hor.resolve_right (by simp)))
    · rw [processRackRfin_eq h.toFinishing (.inl rfl) hp]
      by_cases hne : rest = []
      · subst hne
        exact .ended (h.last hp)
      · rw [if_pos hne]
        exact .commit ⟨h.toFinishing.counted hp hne, h.noAbort, h.ack⟩
  | ended h =>
    have heq := (h.msgs msg hmem).2.1
    rw [heq] at hrun hp
    cases hrun
    exact .ended (processRfin_ended h hp)

/-- Before the first attempt nothing has happened. -/
theorem init_inv (K : Confined C) : StageInv K (machine C).init := by
  have husable : ∀ n, ((machine C).init.man n).Usable := by
    intro n
    by_cases hn : n = C.home
    · subst hn
      simp only [machine, update_self]
      exact ⟨rfl, rfl, rfl⟩
    · simp only [machine, update_of_ne hn]
      exact ⟨rfl, rfl, rfl⟩
  have hself : (machine C).init.man C.home = { TxnMan.fresh C with wl := C.query } := by
    simp only [machine, update_self]
  refine .idle
    ⟨⟨rfl, rfl, ?_, ?_, ?_, fun n hn => ?_, ⟨?_, ?_, trivial, ?_⟩, ?_⟩, rfl, rfl, husable,
    ?_, ?_, ?_⟩
  · rw [hself]
    exact nodup_nil
  · rw [hself]
    exact fun _ hn => absurd hn not_mem_nil
  · rw [hself]
    exact K.home_query.1
  · simp only [machine, update_of_ne hn]
    exact K.remote_init n
  · exact fun _ he => absurd he not_mem_nil
  · exact fun j _ hj => absurd hj (Nat.not_lt_zero j)
  · exact fun _ _ _ he => absurd he not_mem_nil
  · exact fun _ he => absurd he not_mem_nil
  · rw [hself]
    rfl
  · rw [hself]
    exact K.home_query.2
  · exact fun h => absurd h (by simp [machine])

/-- **The invariant holds in every reachable state.** -/
theorem reachable_inv (hhome : C.home < C.nodeCnt) (K : Confined C)
    (h : (machine C).Reachable s) : StageInv K s := by
  refine Machine.Reachable.invariant (init_inv K) (fun s a s' hinv hstep => ?_) h
  obtain ⟨hinp, hcase⟩ := step_cases hstep
  cases a with
  | start inp => exact processRtxn_inv hhome hinv hcase.1 hinp hcase.2
  | deliver i inp =>
    obtain ⟨msg, hmsg, hrun⟩ := hcase
    exact deliver_inv hhome hinv hmsg hinp hrun
  | cont n inp =>
    obtain ⟨hw, hrun⟩ := hcase
    by_cases hn : n = C.home
    · subst hn
      rw [if_pos rfl] at hrun
      exact processRtxnCont_inv hhome hinv hw hinp hrun
    · rw [if_neg hn] at hrun
      exact processRqryCont_inv hinv hn hw hinp hrun

/-! ## What the invariant says of a state -/

theorem Active.releases_le (h : Active s n) : releases s.log s.attempt n ≤ 1 := by
  rw [h.unreleased]
  exact Nat.zero_le 1

theorem Finishing.releases_le {rc : RC} (h : Finishing K s rc) (n : ℕ) :
    releases s.log s.attempt n ≤ 1 := by
  by_cases hn : n = C.home
  · subst hn
    exact h.released.le
  · by_cases hmem : n ∈ s.net.map Msg.node
    · obtain ⟨m, hm, rfl⟩ := List.mem_map.mp hmem
      rcases (h.msgs m hm).2 with ⟨_, ha | hd⟩ | ⟨_, _, hrel⟩
      · exact ha.releases_le
      · exact hd.2.released.le
      · exact hrel.le
    · rw [(h.nodes n hn hmem).2]
      split <;> decide

section

variable (h : StageInv K s)

include h

theorem StageInv.passed : s.assertFailed = false := by
  cases h with
  | idle h | prepare h | abort h | commit h | ended h => exact h.passed
  | atHome run | remote run => exact run.passed

theorem StageInv.history : History C s.log s.attempt := by
  cases h with
  | idle h | prepare h | abort h | commit h | ended h => exact h.history
  | atHome run | remote run => exact run.history

/-- In the current attempt nobody has committed, or nobody has aborted. -/
theorem StageInv.noCommit_or_noAbort :
    (∀ n touched, ⟨s.attempt, n, .commit touched⟩ ∉ s.log) ∨
      ∀ n, ⟨s.attempt, n, .abort⟩ ∉ s.log := by
  cases h with
  | idle h =>
    by_cases hk : 1 ≤ s.attempt
    · exact .inl (h.settled hk).noCommit
    · exact .inl fun n touched hmem => hk (h.history.le _ hmem).1
  | atHome run | remote run => exact .inl run.noCommit
  | prepare h | abort h => exact .inl h.noCommit
  | commit h | ended h => exact .inr h.noAbort

/-- Nobody releases twice in the current attempt. -/
theorem StageInv.releases_le (n : ℕ) : releases s.log s.attempt n ≤ 1 := by
  cases h with
  | idle h =>
    by_cases hk : 1 ≤ s.attempt
    · exact (h.settled hk).atMost n
    · have hnone : ∀ e ∈ s.log, e.attempt ≠ s.attempt := fun e he hea =>
        hk (((h.history.le e he).1).trans_eq hea)
      rw [releases_eq_zero hnone]
      exact Nat.zero_le 1
  | atHome run _ _ active =>
    by_cases hn : n = C.home
    · exact hn ▸ run.homeActive.2.le.trans (Nat.zero_le 1)
    · exact (active n hn).releases_le
  | @remote run d mem _ active fragment =>
    by_cases hn : n = C.home
    · exact hn ▸ run.homeActive.2.le.trans (Nat.zero_le 1)
    · by_cases hd : n = d
      · subst hd
        cases fragment with
        | requested _ _ ha => exact ha.releases_le
        | waits _ _ _ _ _ hrel => exact hrel.le.trans (Nat.zero_le 1)
        | answered _ ha => exact ha.releases_le
        | failed _ hd => exact hd.released.le
      · exact (active n hn hd).releases_le
  | prepare h =>
    by_cases hn : n = C.home
    · exact hn ▸ h.homeActive.2.le.trans (Nat.zero_le 1)
    · exact (h.nodes n hn).elim Active.releases_le fun hd => hd.1.released.le
  | abort h | commit h => exact h.toFinishing.releases_le n
  | ended h =>
    by_cases hn : n = C.home
    · subst hn
      exact h.released.le
    · by_cases hmem : n ∈ s.net.map Msg.node
      · obtain ⟨m, hm, rfl⟩ := List.mem_map.mp hmem
        exact (h.msgs m hm).2.2.2.2.releases_le
      · exact (h.nodes n hn hmem).2.1

end

/-- An attempt is over when a later one has started, or when the transaction is queued
again or has ended, and no message is in flight. -/
def AttemptOver (s : State L M) (k : ℕ) : Prop :=
  k < s.attempt ∨ k = s.attempt ∧ (s.pending = true ∨ s.ended = true) ∧ s.net = []

/-- Whoever took part in an attempt that is over has released once. -/
theorem StageInv.releases_over (h : StageInv K s) (hk : 1 ≤ k) (hover : AttemptOver s k) :
    releases s.log k C.home = 1 ∧ ∀ e ∈ s.log, e.attempt = k → releases s.log k e.node = 1 := by
  have hpast : Over C.home s.log k → releases s.log k C.home = 1 ∧
      ∀ e ∈ s.log, e.attempt = k → releases s.log k e.node = 1 :=
    fun ho => ⟨ho.exact _ ho.homeAbort rfl, ho.exact⟩
  rcases hover with hlt | ⟨rfl, hdone, hnet⟩
  · exact hpast (h.history.past k hk hlt)
  have hrunning : s.pending = false → s.ended = false → False := fun hp he => by
    rw [hp, he] at hdone
    exact hdone.elim (by decide) (by decide)
  cases h with
  | idle h => exact hpast (h.settled hk)
  | atHome run | remote run => exact (hrunning run.started.1 run.live).elim
  | prepare h | abort h | commit h => exact (hrunning h.started.1 h.live).elim
  | ended h =>
    refine ⟨h.released, fun e he hea => ?_⟩
    by_cases hn : e.node = C.home
    · rw [hn]
      exact h.released
    · exact (h.nodes e.node hn (by simp [hnet])).2.2 e he hea rfl

/-- An attempt that is not over goes on: a message is in flight or a fragment waits for
a row. -/
theorem StageInv.progress (h : StageInv K s) (hnet : s.net = [])
    (hw : ∀ n, (s.man n).waiting = false) : s.pending = true ∨ s.ended = true := by
  cases h with
  | idle h => exact .inl h.pending
  | atHome _ _ waiting =>
    rw [hw] at waiting
    cases waiting
  | @remote _ d _ _ _ fragment =>
    cases fragment with
    | requested net =>
      rw [hnet] at net
      cases net
    | waits _ _ _ waiting =>
      rw [hw] at waiting
      cases waiting
    | answered net =>
      rw [hnet] at net
      cases net
    | failed net =>
      rw [hnet] at net
      cases net
  | prepare h | abort h | commit h => exact absurd hnet h.nonempty
  | ended h => exact .inr h.ended

/-- What two-phase commit guarantees in a state of a run. -/
structure Agreed (C : Config L M) (s : State L M) : Prop where
  /-- no node commits an attempt that another one aborts -/
  agree : ∀ k n m touched, ⟨k, n, .commit touched⟩ ∈ s.log → ⟨k, m, .abort⟩ ∉ s.log
  /-- home commits an update only after `validate` returned `RCOK` there and at every remote
  node in `partitions_touched` -/
  validated : C.W.readonly C.query = false → ∀ later earlier k touched,
    s.log = later ++ ⟨k, C.home, .commit touched⟩ :: earlier →
      ⟨k, C.home, .validate .RCOK⟩ ∈ earlier ∧
        ∀ n ∈ remotes C touched, ⟨k, n, .validate .RCOK⟩ ∈ earlier
  /-- no node releases its accesses twice in an attempt -/
  once : ∀ k n, releases s.log k n ≤ 1
  /-- when an attempt is over, home and every node that took part have released once -/
  settled : ∀ k, 1 ≤ k → k ≤ s.attempt → AttemptOver s k →
    releases s.log k C.home = 1 ∧ ∀ e ∈ s.log, e.attempt = k → releases s.log k e.node = 1
  /-- an attempt is over, or a message is in flight, or a fragment waits for a row -/
  progress : s.net = [] → (∀ n, (s.man n).waiting = false) → s.pending = true ∨ s.ended = true
  /-- the assertions of the handlers hold, `responses_left >= 0` among them -/
  passed : s.assertFailed = false

/-- **What the invariant says of every attempt**: nobody commits what somebody else aborts. -/
theorem StageInv.agreed (h : StageInv K s) : Agreed C s where
  agree k n m touched hc ha := by
    obtain ⟨h1, hle⟩ := h.history.le _ hc
    rcases Nat.lt_or_eq_of_le hle with hlt | rfl
    · exact (h.history.past k h1 hlt).noCommit n touched hc
    · rcases h.noCommit_or_noAbort with hno | hno
      · exact hno n touched hc
      · exact hno m ha
  validated hro later earlier k touched hlog := (hlog ▸ h.history.justified).split hro
  once k n := by
    by_cases hk : ∃ e ∈ s.log, e.attempt = k
    · obtain ⟨e, he, rfl⟩ := hk
      obtain ⟨h1, hle⟩ := h.history.le e he
      rcases Nat.lt_or_eq_of_le hle with hlt | heq
      · exact (h.history.past _ h1 hlt).atMost n
      · rw [heq]
        exact h.releases_le n
    · rw [releases_eq_zero fun e he hea => hk ⟨e, he, hea⟩]
      exact Nat.zero_le 1
  settled _ hk _ hover := h.releases_over hk hover
  progress := h.progress
  passed := h.passed

/-- **Two-phase commit agrees** in every reachable state. -/
theorem reachable_agreed (hhome : C.home < C.nodeCnt) (K : Confined C)
    (h : (machine C).Reachable s) : Agreed C s :=
  (reachable_inv hhome K h).agreed

end

end Protocol

end Deneva
