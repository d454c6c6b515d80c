import Deneva.Ycsb

/-!
# Committing with logging (`TxnManager::commit`, `WorkerThread::process_log_flushed`)

With `LOGGING` on, `TxnManager::commit` puts an `L_NOTIFY` record into the log queue and answers
`WAIT` instead of `Commit`. When the log thread comes to the record it hands a `LOG_FLUSHED` message
to the workers of the node, and that calls `WorkerThread::commit`: the response to the client, and
the end of the manager. `process_rack_rfin` still calls the same function, for a transaction with
participants, and participants commit through `process_rfin` and log too.

This is the machine of `Protocol` with these changes, without replicas. There is one `LOG_FLUSHED`
message for each `TxnManager::commit`; they are handled at any time after it. A manager that has
been released is found again as a new one, whose client nobody has set.
-/

namespace Deneva

universe u v

open List Option Protocol.State

namespace LoggedCommit

open Protocol (Config Inputs Msg Event Entry TxnMan Answer)

variable {L : Type u} {M : Type v}

/-- The system with its logs, seen from one transaction. -/
structure State (L : Type u) (M : Type v) where
  /-- managers and messages -/
  base : Protocol.State L M
  /-- `client_id` of the home manager; that of a new manager is not set -/
  clientId : Option ℕ
  /-- the `LOG_FLUSHED` messages that each node has handled -/
  flushed : ℕ → ℕ
  /-- the `CL_RSP` messages, with the node that sent it and the client it goes to -/
  responses : List (ℕ × Option ℕ)

/-- The event of a `TxnManager::commit`. -/
def isCommit : Event → Bool
  | .commit _ => true
  | _ => false

/-- The `L_NOTIFY` records that a node has logged. -/
def commits (log : List Entry) (n : ℕ) : ℕ := log.countP fun e => e.node = n && isCommit e.event

/-- What `TxnManager::commit` answers, and with it `start_commit` and `run_txn`. -/
def loggedRc (rc : RC) : RC := if rc = .Commit then .WAIT else rc

namespace State

/-- `WorkerThread::commit` on a node. -/
def workerCommit (C : Config L M) (n : ℕ) (s : State L M) : State L M :=
  let base := (s.base.assert (decide (n = C.home))).setMan n (.fresh C)
  { s with
    base := { base with ended := s.base.ended || decide (n = C.home) }
    clientId := if n = C.home then none else s.clientId
    responses := s.responses ++ [(n, if n = C.home then s.clientId else none)] }

/-- `run_txn` at home, followed by `check_if_done`. -/
def runHome (C : Config L M) (inp : Inputs) (s : Protocol.State L M) :
    Option (Protocol.State L M) :=
  (s.runTxn C inp C.home).map fun r => r.2.checkIfDone C (loggedRc r.1)

/-- `process_rtxn`. -/
def processRtxn (C : Config L M) (inp : Inputs) (s : Protocol.State L M) :
    Option (Protocol.State L M) :=
  runHome C inp { s with pending := false, attempt := s.attempt + 1 }

/-- `process_rtxn_cont`. -/
def processRtxnCont (C : Config L M) (inp : Inputs) (s : Protocol.State L M) :
    Option (Protocol.State L M) :=
  let m := s.man C.home
  runHome C inp (s.setMan C.home { m with wl := C.W.runTxnPostWait true m.wl, waiting := false })

/-- `process_rqry_rsp`. -/
def processRqryRsp (C : Config L M) (inp : Inputs) (s : Protocol.State L M) (dst : ℕ) (rc : RC) :
    Option (Protocol.State L M) :=
  let s := s.assert (decide (dst = C.home))
  if dst ≠ C.home then some s
  else if rc = .Abort then some (s.startAbort C)
  else runHome C inp s

/-- `process_rack_rfin`. -/
def processRackRfin (C : Config L M) (rc : RC) (s : State L M) : State L M :=
  let s' := { s with base := s.base.receivedResponse C rc }
  if 0 < (s'.base.man C.home).rspCnt then s'
  else if (s'.base.man C.home).rc = .RCOK then s'.workerCommit C C.home
  else { s' with base := s'.base.workerAbort C }

/-- `process_log_flushed`, without replicas. -/
def processLogFlushed (C : Config L M) (n : ℕ) (s : State L M) : State L M :=
  { s.workerCommit C n with flushed := Function.update s.flushed n (s.flushed n + 1) }

/-- The handler of a message; those that neither come to `check_if_done` nor to
`WorkerThread::commit` are as before. -/
def process (C : Config L M) (inp : Inputs) (s : State L M) : Msg M → Option (State L M)
  | .rqryRsp _ dst rc =>
    (processRqryRsp C inp s.base dst rc).map fun base => { s with base := base }
  | .rackFin _ rc => some (s.processRackRfin C rc)
  | msg => (Protocol.State.process C inp s.base msg).map fun base => { s with base := base }

end State

/-- A step of the system. -/
inductive Action : Type where
  /-- the queued transaction starts or restarts -/
  | start (inp : Inputs)
  /-- the message at a position of `net` is delivered -/
  | deliver (i : ℕ) (inp : Inputs)
  /-- a fragment that waited for a row is resumed -/
  | cont (n : ℕ) (inp : Inputs)
  /-- a node handles a `LOG_FLUSHED` message -/
  | logFlushed (n : ℕ)

/-- The inputs of an action are possible. -/
def Action.possible (cc : CCAlg) : Action → Bool
  | .start inp | .deliver _ inp | .cont _ inp => inp.answers.all (Answer.possible cc)
  | .logFlushed _ => true

/-- All runs of a transaction of a client. -/
def machine (C : Config L M) (client : ℕ) : Machine (State L M) Action where
  init := ⟨(Protocol.machine C).init, some client, fun _ => 0, []⟩
  step s a :=
    if a.possible C.cc then
      match a with
      | .start inp =>
        if s.base.pending then (State.processRtxn C inp s.base).map fun base =>
          { s with base := base }
        else none
      | .deliver i inp =>
        match s.base.net[i]? with
        | some m =>
          State.process C inp { s with base := { s.base with net := s.base.net.eraseIdx i } } m
        | none => none
      | .cont n inp =>
        if (s.base.man n).waiting then
          (if n = C.home then State.processRtxnCont C inp s.base
            else s.base.processRqryCont C inp n).map fun base => { s with base := base }
        else none
      | .logFlushed n =>
        if s.flushed n < commits s.base.log n then some (s.processLogFlushed C n) else none
    else none

/-! ## One response -/

/-- Everything that a commit has led to has been handled. -/
def State.Settled (s : State L M) : Prop :=
  s.base.net = [] ∧ ∀ n, s.flushed n = commits s.base.log n

/-- **The client gets one response**: no assertion has failed; there is at most one `CL_RSP`, sent
by home, to the client, after home has committed; and there is one when all that follows the commit
has been handled. -/
structure OneResponse (C : Config L M) (client : ℕ) (s : State L M) : Prop where
  passed : s.base.assertFailed = false
  only : s.responses = [] ∨ s.responses = [(C.home, some client)]
  committed : s.responses ≠ [] → 0 < commits s.base.log C.home
  sent : 0 < commits s.base.log C.home → s.Settled → s.responses = [(C.home, some client)]

/-- From a state of the workload at home, the loop of `run_txn` ends without a request to another
node. -/
def NoRequest (C : Config L M) (wl : L) (inp : Inputs) : Prop :=
  ∀ r ∈ C.W.runLoop C.home true wl inp.answers, r.2.2 = none

/-- What home is about to run needs no other node. -/
def StaysLocal (C : Config L M) (s : State L M) : Action → Prop
  | .start inp => NoRequest C (s.base.man C.home).wl inp
  | .cont n inp => n = C.home → NoRequest C (C.W.runTxnPostWait true (s.base.man C.home).wl) inp
  | .deliver _ _ | .logFlushed _ => True

/-- A run at home without a request. -/
theorem runHome_cases {C : Config L M} {b b' : Protocol.State L M} {inp : Inputs}
    (hreq : NoRequest C (b.man C.home).wl inp) (h : State.runHome C inp b = some b') :
    ∃ rc wl, b' =
      ((b.afterLoop C C.home rc wl none).runTxnTail C inp.valid C.home rc).2.checkIfDone C
      (loggedRc ((b.afterLoop C C.home rc wl none).runTxnTail C inp.valid C.home rc).1) := by
  obtain ⟨r, hr, rfl⟩ := map_eq_some_iff.mp h
  rw [runTxn, decide_eq_true rfl] at hr
  split at hr
  · cases hr
  next rc wl out hloop =>
    cases hr
    obtain rfl : out = none := hreq _ hloop
    exact ⟨rc, wl, rfl⟩

/-! ## Home alone -/

theorem commits_cons_commit (log : List Entry) (k n : ℕ) (touched : List ℕ) :
    commits (⟨k, n, .commit touched⟩ :: log) n = commits log n + 1 := by
  simp [commits, isCommit]

theorem commits_cons_of_ne {n i : ℕ} (h : n ≠ i) (log : List Entry) (k : ℕ) (e : Event) :
    commits (⟨k, n, e⟩ :: log) i = commits log i := by
  simp [commits, h]

theorem commits_cons_of_not {e : Event} (h : isCommit e = false) (log : List Entry) (k n i : ℕ) :
    commits (⟨k, n, e⟩ :: log) i = commits log i := by
  simp [commits, h]

/-- No other node takes part, and a transaction that is queued does not wait. -/
structure Alone (C : Config L M) (b : Protocol.State L M) : Prop where
  passed : b.assertFailed = false
  net : b.net = []
  touched : (b.man C.home).touched = [] ∨ (b.man C.home).touched = [C.home]
  rspCnt : (b.man C.home).rspCnt = 0
  exclusive : b.pending = true → (b.man C.home).waiting = false
  idle : ∀ n, n ≠ C.home → (b.man n).waiting = false
  unlogged : ∀ n, n ≠ C.home → commits b.log n = 0

/-- Nothing is left to do at home. -/
def Quiet (C : Config L M) (b : Protocol.State L M) : Prop :=
  b.pending = false ∧ (b.man C.home).waiting = false

/-- Home goes on without a commit, or commits and is quiet. -/
inductive Progress (C : Config L M) (before : ℕ) (b : Protocol.State L M) : Prop where
  | unlogged (h : commits b.log C.home = before)
  | logged (h : commits b.log C.home = before + 1) (hq : Quiet C b)

namespace Alone

variable {C : Config L M} {b b' : Protocol.State L M} {inp : Inputs}

section

variable (h : Alone C b)

include h

theorem not_one_lt : ¬ 1 < (b.man C.home).touched.length := by
  rcases h.touched with ht | ht <;> simp [ht]

/-- Home's manager changes. -/
theorem setMan {m : TxnMan L} (ht : m.touched = [] ∨ m.touched = [C.home]) (hr : m.rspCnt = 0)
    (hw : b.pending = true → m.waiting = false) : Alone C (b.setMan C.home m) where
  passed := h.passed
  net := h.net
  touched := by simpa [Protocol.State.setMan] using ht
  rspCnt := by simpa [Protocol.State.setMan] using hr
  exclusive := by simpa [Protocol.State.setMan] using hw
  idle n hn := by simpa [Protocol.State.setMan, Function.update_of_ne hn] using h.idle n hn
  unlogged := h.unlogged

/-- Home's manager gets another code. -/
theorem setRc (rc : RC) (aborted : Bool) :
    Alone C (b.setMan C.home { b.man C.home with rc := rc, aborted := aborted }) :=
  h.setMan h.touched h.rspCnt h.exclusive

theorem emit (e : Event) : Alone C (b.emit C.home e) where
  passed := h.passed
  net := h.net
  touched := h.touched
  rspCnt := h.rspCnt
  exclusive := h.exclusive
  idle := h.idle
  unlogged n hn := (commits_cons_of_ne (Ne.symm hn) _ _ _).trans (h.unlogged n hn)

theorem afterLoop (hp : b.pending = false) (rc : RC) (wl : L) :
    Alone C (b.afterLoop C C.home rc wl none) := by
  have htouched : Protocol.touchedAfter C C.home (b.man C.home) none = [] ∨
      Protocol.touchedAfter C C.home (b.man C.home) none = [C.home] := by
    unfold Protocol.touchedAfter
    split
    · rcases h.touched with ht | ht <;> simp [ht, Protocol.addUnique]
    · exact h.touched
  have hset : Alone C (b.setMan C.home { b.man C.home with
      wl := wl, touched := Protocol.touchedAfter C C.home (b.man C.home) none,
      waiting := decide (rc = .WAIT) }) :=
    h.setMan htouched h.rspCnt fun hpend => absurd (hp.symm.trans hpend) (by decide)
  exact { hset with net := (append_nil _).trans hset.net }

/-- An abort at home logs no commit and leaves `waiting` alone. -/
theorem abort :
    Alone C (b.abort C.home) ∧ commits (b.abort C.home).log C.home = commits b.log C.home ∧
      ((b.abort C.home).man C.home).waiting = (b.man C.home).waiting := by
  unfold Protocol.State.abort
  split
  · exact ⟨h, rfl, rfl⟩
  · refine ⟨(h.setRc .Abort true).emit .abort, commits_cons_of_not rfl _ _ _ _, ?_⟩
    simp [Protocol.State.setMan, Protocol.State.emit]

theorem startAbort : Alone C (b.startAbort C) ∧
    commits (b.startAbort C).log C.home = commits b.log C.home ∧
      ((b.startAbort C).man C.home).waiting = (b.man C.home).waiting := by
  have hset : Alone C (b.setMan C.home { b.man C.home with rc := .Abort }) := h.setRc .Abort _
  rw [Protocol.State.startAbort, if_neg hset.not_one_lt]
  obtain ⟨habort, hlog, hwait⟩ := hset.abort
  exact ⟨habort, hlog, hwait.trans (by simp [Protocol.State.setMan])⟩

/-- After an abort `check_if_done` queues the transaction again. -/
theorem checkIfDone_abort (hw : (b.man C.home).waiting = false) :
    Alone C (b.checkIfDone C .Abort) ∧ (b.checkIfDone C .Abort).log = b.log := by
  rw [checkIfDone, if_neg (by simp [h.rspCnt]), if_neg (by decide), if_pos rfl]
  have hset : Alone C (b.setMan C.home ((b.man C.home).reset C)) :=
    h.setMan h.touched rfl fun _ => hw
  refine ⟨{ hset with exclusive := fun _ => ?_ }, rfl⟩
  simpa [workerAbort, Protocol.State.setMan, TxnMan.reset] using hw

/-- With `LOGGING`, `check_if_done` leaves a commit to the `LOG_FLUSHED` message. -/
theorem checkIfDone_of_ne_abort {rc : RC} (hrc : rc ≠ .Abort) :
    b.checkIfDone C (loggedRc rc) = b := by
  have hne : loggedRc rc ≠ .Commit ∧ loggedRc rc ≠ .Abort := by
    revert hrc
    cases rc <;> decide
  rw [checkIfDone, if_neg (by simp [h.rspCnt]), if_neg hne.1, if_neg hne.2]

theorem startAbort_progress (hw : (b.man C.home).waiting = false) :
    Alone C ((b.startAbort C).checkIfDone C .Abort) ∧
      Progress C (commits b.log C.home) ((b.startAbort C).checkIfDone C .Abort) := by
  obtain ⟨habort, hlog, hwait⟩ := h.startAbort
  obtain ⟨hdone, hkeep⟩ := habort.checkIfDone_abort (hwait.trans hw)
  exact ⟨hdone, .unlogged ((congrArg (commits · C.home) hkeep).trans hlog)⟩

theorem startCommit_progress (hq : Quiet C b) (valid : Bool) :
    Alone C ((b.startCommit C valid).2.checkIfDone C (loggedRc (b.startCommit C valid).1)) ∧
      Progress C (commits b.log C.home)
        ((b.startCommit C valid).2.checkIfDone C (loggedRc (b.startCommit C valid).1)) := by
  have hval : Alone C (b.validate C valid C.home).2 := h.emit _
  have hlog : commits (b.validate C valid C.home).2.log C.home = commits b.log C.home :=
    commits_cons_of_not rfl _ _ _ _
  rw [startCommit, if_neg h.not_one_lt]
  dsimp only
  split
  · have hcommit : Alone C ((b.validate C valid C.home).2.commit C.home) := hval.emit _
    have hkeep := hcommit.checkIfDone_of_ne_abort (show RC.Commit ≠ .Abort by decide)
    rw [hkeep]
    refine ⟨hcommit, .logged ?_ hq⟩
    exact (commits_cons_commit _ _ _ _).trans (congrArg (· + 1) hlog)
  next hrc =>
    have habort : (b.validate C valid C.home).1 = .Abort := by
      revert hrc
      unfold validate
      split
      · exact fun _ => rfl
      · exact fun hne => absurd rfl hne
    rw [habort, ← hlog]
    exact hval.startAbort_progress hq.2

/-- What a run at home comes to. -/
theorem runHome (hp : b.pending = false) (hreq : NoRequest C (b.man C.home).wl inp)
    (hrun : State.runHome C inp b = some b') :
    Alone C b' ∧ Progress C (commits b.log C.home) b' := by
  obtain ⟨rc, wl, rfl⟩ := runHome_cases hreq hrun
  have hloop := h.afterLoop hp rc wl
  have hwait : ((b.afterLoop C C.home rc wl none).man C.home).waiting = decide (rc = .WAIT) := by
    simp [Protocol.State.afterLoop, Protocol.State.setMan, send]
  rw [runTxnTail, if_pos rfl]
  split
  next hdone =>
    exact hloop.startCommit_progress ⟨hp, by rw [hwait, hdone.2]; rfl⟩ inp.valid
  · split
    next hrc =>
      exact hloop.startAbort_progress (by rw [hwait, hrc]; rfl)
    next hrc =>
      rw [hloop.checkIfDone_of_ne_abort hrc]
      exact ⟨hloop, .unlogged rfl⟩

/-- `WorkerThread::commit` at home takes place with its assertions passing. -/
theorem workerCommit (ended : Bool) :
    Alone C
      { (b.assert (decide (C.home = C.home))).setMan C.home (.fresh C) with ended := ended } := by
  have hset : Alone C (b.setMan C.home (.fresh C)) := h.setMan (.inl rfl) rfl fun _ => rfl
  exact { hset with passed := by simp [assert, Protocol.State.setMan, h.passed] }

end

end Alone

/-! ## The response -/

/-- How far the transaction has come. -/
inductive Stage (C : Config L M) (client : ℕ) (s : State L M) : Prop where
  | running (hlog : commits s.base.log C.home = 0) (hflushed : s.flushed C.home = 0)
      (hclient : s.clientId = some client) (hnone : s.responses = [])
  | logged (hlog : commits s.base.log C.home = 1) (hflushed : s.flushed C.home = 0)
      (hclient : s.clientId = some client) (hnone : s.responses = []) (hq : Quiet C s.base)
  | answered (hlog : commits s.base.log C.home = 1) (hflushed : s.flushed C.home = 1)
      (hone : s.responses = [(C.home, some client)]) (hq : Quiet C s.base)

/-- The invariant of a transaction that stays at home. -/
structure Inv (C : Config L M) (client : ℕ) (s : State L M) : Prop where
  alone : Alone C s.base
  stage : Stage C client s

namespace Inv

variable {C : Config L M} {client : ℕ} {s s' : State L M} {a : Action}

theorem init (C : Config L M) (client : ℕ) : Inv C client (machine C client).init := by
  refine ⟨⟨rfl, rfl, .inl ?_, ?_, fun _ => ?_, fun n hn => ?_, fun _ _ => rfl⟩,
    .running rfl rfl rfl rfl⟩
  · simp [machine, Protocol.machine, TxnMan.fresh]
  · simp [machine, Protocol.machine, TxnMan.fresh]
  · simp [machine, Protocol.machine, TxnMan.fresh]
  · simp [machine, Protocol.machine, TxnMan.fresh, Function.update_of_ne hn]

variable {b' : Protocol.State L M} {inp : Inputs}

section

variable (h : Inv C client s)

include h

/-- Home is run only before it has committed. -/
theorem runHome {b : Protocol.State L M} (hnq : ¬ Quiet C s.base) (hb : Alone C b)
    (hp : b.pending = false) (hlog : b.log = s.base.log) (hreq : NoRequest C (b.man C.home).wl inp)
    (hrun : State.runHome C inp b = some b') : Inv C client { s with base := b' } := by
  obtain ⟨hb', hprog⟩ := hb.runHome hp hreq hrun
  refine ⟨hb', ?_⟩
  cases h.stage with
  | running hzero hflushed hclient hnone =>
    rw [hlog, hzero] at hprog
    cases hprog with
    | unlogged heq => exact .running heq hflushed hclient hnone
    | logged heq hq => exact .logged heq hflushed hclient hnone hq
  | logged _ _ _ _ hq | answered _ _ _ hq => exact absurd hq hnq

theorem start (hp : s.base.pending = true) (hreq : NoRequest C (s.base.man C.home).wl inp)
    (hrun : State.processRtxn C inp s.base = some b') : Inv C client { s with base := b' } := by
  have hb : Alone C { s.base with pending := false, attempt := s.base.attempt + 1 } :=
    { h.alone with exclusive := fun hpend => absurd hpend (by simp) }
  exact h.runHome (fun hq => absurd (hp.symm.trans hq.1) (by decide)) hb rfl rfl hreq hrun

theorem cont (hw : (s.base.man C.home).waiting = true)
    (hreq : NoRequest C (C.W.runTxnPostWait true (s.base.man C.home).wl) inp)
    (hrun : State.processRtxnCont C inp s.base = some b') : Inv C client { s with base := b' } := by
  have hp : s.base.pending = false := Bool.eq_false_iff.mpr fun hpend =>
    absurd (hw.symm.trans (h.alone.exclusive hpend)) (by decide)
  have hb := h.alone.setMan h.alone.touched h.alone.rspCnt (fun _ => rfl)
    (m := { s.base.man C.home with
      wl := C.W.runTxnPostWait true (s.base.man C.home).wl, waiting := false })
  refine h.runHome (fun hq => absurd (hw.symm.trans hq.2) (by decide)) hb hp rfl ?_ hrun
  simpa [Protocol.State.setMan] using hreq

/-- The flush of the one record is answered. -/
theorem logFlushed {n : ℕ} (hlt : s.flushed n < commits s.base.log n) :
    Inv C client (s.processLogFlushed C n) := by
  by_cases hn : n = C.home
  · subst hn
    cases h.stage with
    | running hlog _ _ _ => omega
    | answered hlog hflushed _ _ => omega
    | logged hlog hflushed hclient hnone hq =>
      refine ⟨h.alone.workerCommit _, .answered hlog ?_ ?_ ⟨hq.1, ?_⟩⟩
      · simp [State.processLogFlushed, hflushed]
      · simp [State.processLogFlushed, State.workerCommit, hclient, hnone]
      · simp [State.processLogFlushed, State.workerCommit, Protocol.State.setMan, TxnMan.fresh]
  · have := h.alone.unlogged n hn
    omega

/-- A step that needs no other node keeps the invariant. -/
theorem step (hok : StaysLocal C s a) (hstep : (machine C client).step s a = some s') :
    Inv C client s' := by
  obtain ⟨_, hstep⟩ := ite_none_right_eq_some.mp hstep
  cases a with
  | start inp =>
    obtain ⟨hp, hrun⟩ := ite_none_right_eq_some.mp hstep
    obtain ⟨b', hb, rfl⟩ := map_eq_some_iff.mp hrun
    exact h.start hp hok hb
  | deliver i inp =>
    -- no message is in flight
    simp [h.alone.net] at hstep
  | cont n inp =>
    obtain ⟨hw, hrun⟩ := ite_none_right_eq_some.mp hstep
    obtain ⟨b', hb, rfl⟩ := map_eq_some_iff.mp hrun
    by_cases hn : n = C.home
    · rw [if_pos hn] at hb
      subst hn
      exact h.cont hw (hok rfl) hb
    · exact absurd (hw.symm.trans (h.alone.idle n hn)) (by decide)
  | logFlushed n =>
    obtain ⟨hlt, hs⟩ := ite_none_right_eq_some.mp hstep
    cases hs
    exact h.logFlushed hlt

theorem oneResponse : OneResponse C client s := by
  refine ⟨h.alone.passed, ?_, ?_, ?_⟩
  · cases h.stage with
    | running _ _ _ hnone | logged _ _ _ hnone _ => exact .inl hnone
    | answered _ _ hone _ => exact .inr hone
  · intro hne
    cases h.stage with
    | running _ _ _ hnone => exact absurd hnone hne
    | logged hlog _ _ _ _ => omega
    | answered hlog _ _ _ => omega
  · rintro hpos ⟨_, hsettled⟩
    have heq := hsettled C.home
    cases h.stage with
    | running hlog _ _ _ => omega
    | logged hlog hflushed _ _ _ => omega
    | answered _ _ hone _ => exact hone

end

end Inv

/-- **A transaction that stays at home is answered once**: in every run in which what home is about
to run never needs another node, no assertion fails, at most one response is sent, by home and to
the client, and it has been sent when everything is handled. -/
theorem oneResponse_of_local (C : Config L M) (client : ℕ) {s : State L M}
    (hs : (machine C client).ReachableVia (StaysLocal C) s) : OneResponse C client s :=
  (hs.invariant (Inv.init C client) fun _ _ _ _ h hok hstep =>
    h.step hok hstep).oneResponse

/-- Inputs of a step in which every row is granted. -/
def granted : Inputs := ⟨[⟨.RCOK, true, 0⟩, ⟨.RCOK, true, 0⟩], true⟩

/-- An update of a row of the only node, and its record flushed. -/
theorem oneResponse_ownUpdate :
    ∃ s, (machine (Ycsb.config ⟨1, 1⟩ .NO_WAIT 0 [⟨0, .WR⟩]) 7).run
      [.start granted, .logFlushed 0] = some s ∧ s.responses = [(0, some 7)] ∧
      OneResponse (Ycsb.config ⟨1, 1⟩ .NO_WAIT 0 [⟨0, .WR⟩]) 7 s := by
  have hok : (machine (Ycsb.config ⟨1, 1⟩ .NO_WAIT 0 [⟨0, .WR⟩]) 7).RunOk
      (StaysLocal (Ycsb.config ⟨1, 1⟩ .NO_WAIT 0 [⟨0, .WR⟩]))
      (machine (Ycsb.config ⟨1, 1⟩ .NO_WAIT 0 [⟨0, .WR⟩]) 7).init
      [.start granted, .logFlushed 0] := by
    refine ⟨fun r hr => ?_, fun _ _ => ⟨trivial, fun _ _ => trivial⟩⟩
    cases hr
    rfl
  refine ⟨_, rfl, rfl, ?_⟩
  exact oneResponse_of_local _ 7 (Machine.ReachableVia.init.runFrom hok rfl)

/-! ## With participants -/

/-- An update of a row of node 1, up to the commit there. -/
def update : List Action :=
  [.start granted, .deliver 0 granted, .deliver 0 granted, .deliver 0 granted, .deliver 0 granted,
    .deliver 0 granted]

/-- **A transaction with a participant is not answered once.** After the update has committed on
both nodes, `RACK_FIN` and then home's `LOG_FLUSHED` lead to two responses, the second from a
manager that knows no client; in the other order `responses_left` is negative; and the participant's
`LOG_FLUSHED` fails `assert(IS_LOCAL)`. -/
theorem not_oneResponse_update : (∃ s, (machine (Ycsb.config ⟨2, 2⟩ .NO_WAIT 0 [⟨1, .WR⟩]) 7).run
        (update ++ [.deliver 0 granted, .logFlushed 0]) = some s ∧
      s.responses = [(0, some 7), (0, none)] ∧
      ¬ OneResponse (Ycsb.config ⟨2, 2⟩ .NO_WAIT 0 [⟨1, .WR⟩]) 7 s) ∧
    (∃ s, (machine (Ycsb.config ⟨2, 2⟩ .NO_WAIT 0 [⟨1, .WR⟩]) 7).run
        (update ++ [.logFlushed 0, .deliver 0 granted]) = some s ∧ s.base.assertFailed = true) ∧
    (∃ s, (machine (Ycsb.config ⟨2, 2⟩ .NO_WAIT 0 [⟨1, .WR⟩]) 7).run
        (update ++ [.logFlushed 1]) = some s ∧ s.base.assertFailed = true) := by
  refine ⟨⟨_, rfl, rfl, fun h => ?_⟩, ⟨_, rfl, rfl⟩, ⟨_, rfl, rfl⟩⟩
  rcases h.only with hnone | hone
  · cases hnone
  · cases hone

end LoggedCommit

end Deneva
