import Deneva.Transition
import Deneva.Types

/-!
# Two-phase commit (`system/worker_thread.cpp`, `system/txn.cpp`)

One transaction, from its home node's point of view and from that of every node
it sends requests to. Each node has a transaction manager (`TxnMan`), messages
are in flight in `net` and are delivered in any order, and every handler of
`WorkerThread` is one step.

* What the workload contributes is a `Workload`: the state machine behind
  `run_txn`, with the requests it sends to other nodes.
* What the concurrency control answers to `get_row` and `validate` is an input of
  the step (`Inputs`), so a run covers every behaviour of every other transaction.
* `log` is a ghost: who ran, validated, committed and aborted, in which attempt.
* An assertion of a handler that fails sets `assertFailed`; a failing assertion of
  the workload's own state machine makes the step impossible.

`LOGGING` is off. `GET_PART_ID(0,n)` is `n`, so `partitions_touched` is a list of
nodes.
-/

namespace Deneva

universe u v

open Option

/-- The values of `CC_ALG` that `row_t::get_row` handles, other than `CALVIN`. -/
inductive CCAlg : Type where
  | NO_WAIT | WAIT_DIE | TIMESTAMP | MVCC | OCC | MAAT | HSTORE | HSTORE_SPEC
  deriving DecidableEq

/-- `get_row` waits only under these algorithms. -/
def CCAlg.canWait : CCAlg → Bool
  | .WAIT_DIE | .TIMESTAMP | .MVCC => true
  | _ => false

namespace Protocol

/-- What a transaction meets in one state of its state machine. -/
structure Answer where
  /-- what `get_row` answers: `RCOK`, `WAIT` or `Abort` -/
  rc : RC
  /-- whether `index_read` finds an item -/
  item : Bool
  /-- the key found in the row that was read -/
  value : ℕ
  deriving DecidableEq

/-- The answers an algorithm can give. -/
def Answer.possible (cc : CCAlg) (a : Answer) : Bool :=
  match a.rc with
  | .RCOK | .Abort => true
  | .WAIT => cc.canWait
  | _ => false

/-- A workload: the part `L` of its transaction manager and query that its state
machine works on, and the requests `M` it puts into `RQRY` messages. -/
structure Workload (L : Type u) (M : Type v) where
  /-- a manager fresh from the pool -/
  init : L
  /-- the workload's `reset` -/
  reset : L → L
  resetQuery : L → L
  /-- `copy_to_txn` of a received request -/
  copyToTxn : M → L → L
  /-- the state in which `run_txn` records the home partition -/
  firstRun : L → Bool
  isDone : L → Bool
  /-- `run_txn_state` on a node, with `IS_LOCAL`; it may leave a request for another node -/
  runTxnState : ℕ → Bool → L → Answer → Option (RC × L × Option (ℕ × M))
  runTxnPostWait : Bool → L → L
  /-- `readonly` of the query -/
  readonly : L → Bool
  /-- whether `run_txn` calls `abort` when a remote fragment ends in `Abort` -/
  abortRemote : Bool

/-- The loop of `run_txn`: states are run until one does not answer `RCOK`, or all
is done. Every state consumes one answer; without enough answers there is no
result. -/
def Workload.runLoop {L : Type u} {M : Type v} (W : Workload L M) (node : ℕ) (isLocal : Bool) :
    L → List Answer → Option (RC × L × Option (ℕ × M))
  | l, [] => if W.isDone l then some (.RCOK, l, none) else none
  | l, a :: as =>
    if W.isDone l then some (.RCOK, l, none)
    else
      match W.runTxnState node isLocal l a with
      | none => none
      | some (rc, l', out) =>
        if rc = .RCOK then W.runLoop node isLocal l' as else some (rc, l', out)

/-- The rule of the loop: what the states that answer `RCOK` keep holds when the loop
stops. -/
theorem Workload.runLoop_rule {L : Type u} {M : Type v} {W : Workload L M} {node : ℕ}
    {isLocal : Bool} {ok : Answer → Prop} {P : L → Prop} {Q : RC → L → Option (ℕ × M) → Prop}
    (hdone : ∀ l, P l → W.isDone l = true → Q .RCOK l none)
    (hstep : ∀ l a rc l' out, P l → ok a → W.isDone l = false → W.runTxnState node isLocal l a =
      some (rc, l', out) → if rc = .RCOK then P l' else Q rc l' out)
    {as : List Answer} (hok : ∀ a ∈ as, ok a) :
    ∀ {l rc l' out}, P l → W.runLoop node isLocal l as = some (rc, l', out) → Q rc l' out := by
  induction as with
  | nil =>
    intro l rc l' out hP h
    simp only [runLoop, ite_none_right_eq_some, some.injEq, Prod.mk.injEq] at h
    obtain ⟨hd, rfl, rfl, rfl⟩ := h
    exact hdone l hP hd
  | cons a as ih =>
    intro l rc l' out hP h
    rw [runLoop] at h
    split at h
    next hd =>
      obtain ⟨rfl, rfl, rfl⟩ := h
      exact hdone l hP hd
    next hd =>
      split at h
      · cases h
      next rc₁ l₁ out₁ hrun =>
        have hone := hstep l a rc₁ l₁ out₁ hP (hok a List.mem_cons_self)
          (Bool.eq_false_iff.mpr hd) hrun
        split at h
        next hrc =>
          rw [if_pos hrc] at hone
          exact ih (fun x hx => hok x (List.mem_cons_of_mem _ hx)) hone h
        next hrc =>
          rw [if_neg hrc] at hone
          obtain ⟨rfl, rfl, rfl⟩ := h
          exact hone

/-- The nodes and partitions the code is configured with. -/
structure Cluster where
  nodeCnt : ℕ
  partCnt : ℕ

/-- `GET_NODE_ID`. -/
def Cluster.getNodeId (N : Cluster) (id : ℕ) : ℕ := id % N.nodeCnt

/-- The parameters of a run. -/
structure Config (L : Type u) (M : Type v) where
  /-- the workload -/
  W : Workload L M
  /-- `CC_ALG` -/
  cc : CCAlg
  nodeCnt : ℕ
  /-- the node the transaction belongs to, `GET_NODE_ID(txn_id)` -/
  home : ℕ
  /-- the state of the home manager once the client's query is copied to it -/
  query : L

/-- `TxnManager`, as far as the protocol goes. -/
structure TxnMan (L : Type u) where
  /-- the workload's part -/
  wl : L
  /-- `txn->rc` -/
  rc : RC
  aborted : Bool
  rspCnt : ℤ
  /-- `query->partitions_touched` -/
  touched : List ℕ
  returnId : ℕ
  /-- `run_txn` answered `WAIT` and the transaction has not been resumed -/
  waiting : Bool

/-- Messages, with the node they come from or go to where it is not the home node. -/
inductive Msg (M : Type v) : Type v where
  | rqry (src dst : ℕ) (m : M)
  | rqryRsp (src dst : ℕ) (rc : RC)
  | rprepare (dst : ℕ)
  | rackPrep (src : ℕ) (rc : RC)
  | rfin (dst : ℕ) (rc : RC) (readonly : Bool)
  | rackFin (src : ℕ) (rc : RC)

/-- What the log records. -/
inductive Event : Type where
  /-- `run_txn` for an `RQRY` or `RQRY_CONT` message ended with `rc`; the code in the
  `RQRY_RSP`, if one was sent -/
  | fragment (rc : RC) (rsp : Option RC)
  /-- `validate` returned `rc` -/
  | validate (rc : RC)
  /-- `TxnManager::commit` released the accesses; with `partitions_touched` -/
  | commit (touched : List ℕ)
  /-- `TxnManager::abort` released the accesses -/
  | abort
  deriving DecidableEq

/-- A log entry. -/
structure Entry where
  /-- the attempt -/
  attempt : ℕ
  /-- the node -/
  node : ℕ
  /-- what happened -/
  event : Event
  deriving DecidableEq

/-- The system, seen from one transaction. -/
structure State (L : Type u) (M : Type v) where
  /-- the transaction manager of each node -/
  man : ℕ → TxnMan L
  /-- the messages in flight -/
  net : List (Msg M)
  /-- the transaction is queued at home, to start or to restart -/
  pending : Bool
  /-- the home manager is released -/
  ended : Bool
  /-- the attempts started so far -/
  attempt : ℕ
  /-- what happened, latest first -/
  log : List Entry
  /-- an assertion of a handler failed -/
  assertFailed : Bool

/-- The inputs of one step: the answers of `get_row`, and whether `OCC` or `MAAT`
finds the transaction valid. -/
structure Inputs where
  /-- answers of `get_row` -/
  answers : List Answer
  /-- the verdict of `validate` -/
  valid : Bool

variable {L : Type u} {M : Type v}

/-- A manager fresh from the pool. -/
def TxnMan.fresh (C : Config L M) : TxnMan L := ⟨C.W.init, .RCOK, false, 0, [], UINT64_MAX, false⟩

/-- `reset`. -/
def TxnMan.reset (C : Config L M) (m : TxnMan L) : TxnMan L :=
  { m with
    wl := C.W.reset m.wl, rc := .RCOK, aborted := false, rspCnt := 0, returnId := UINT64_MAX }

/-- `partitions_touched.add_unique`. -/
def addUnique (n : ℕ) (ns : List ℕ) : List ℕ := if n ∈ ns then ns else ns ++ [n]

/-- The nodes that prepare and finish messages go to. -/
def remotes (C : Config L M) (touched : List ℕ) : List ℕ :=
  (touched.map (· % C.nodeCnt)).filter fun n => decide (n ≠ C.home)

/-- The partitions recorded once the loop of `run_txn` has run: home in its first run,
and the node a request goes to. -/
def touchedAfter (C : Config L M) (n : ℕ) (m : TxnMan L) (out : Option (ℕ × M)) : List ℕ :=
  let touched := if n = C.home ∧ C.W.firstRun m.wl then addUnique n m.touched else m.touched
  match out with
  | some (dest, _) => addUnique dest touched
  | none => touched

namespace State

/-- Replace a manager. -/
def setMan (s : State L M) (n : ℕ) (m : TxnMan L) : State L M :=
  { s with man := Function.update s.man n m }

/-- Enqueue messages. -/
def send (s : State L M) (ms : List (Msg M)) : State L M := { s with net := s.net ++ ms }

/-- Record an event of the current attempt. -/
def emit (s : State L M) (n : ℕ) (e : Event) : State L M :=
  { s with log := ⟨s.attempt, n, e⟩ :: s.log }

/-- `assert`. -/
def assert (s : State L M) (b : Bool) : State L M := { s with assertFailed := s.assertFailed || !b }

/-- `TxnManager::abort`. -/
def abort (s : State L M) (n : ℕ) : State L M :=
  if (s.man n).aborted then s
  else (s.setMan n { s.man n with rc := .Abort, aborted := true }).emit n .abort

/-- `TxnManager::commit`. -/
def commit (s : State L M) (n : ℕ) : State L M := s.emit n (.commit (s.man n).touched)

/-- `TxnManager::validate`: only `OCC` and `MAAT` look. -/
def validate (C : Config L M) (valid : Bool) (s : State L M) (n : ℕ) : RC × State L M :=
  let rc := if (C.cc = .OCC ∨ C.cc = .MAAT) ∧ valid = false then RC.Abort else RC.RCOK
  (rc, s.emit n (.validate rc))

/-- `send_prepare_messages`, at home. -/
def sendPrepareMessages (C : Config L M) (s : State L M) : State L M :=
  let m := s.man C.home
  (s.setMan C.home { m with rspCnt := m.touched.length - 1 }).send
    ((remotes C m.touched).map .rprepare)

/-- `send_finish_messages`, at home. -/
def sendFinishMessages (C : Config L M) (s : State L M) : State L M :=
  let m := s.man C.home
  (s.setMan C.home { m with rspCnt := m.touched.length - 1 }).send
    ((remotes C m.touched).map fun n => .rfin n m.rc (C.W.readonly m.wl))

/-- `start_abort`, at home. -/
def startAbort (C : Config L M) (s : State L M) : State L M :=
  let s := s.setMan C.home { s.man C.home with rc := .Abort }
  if 1 < (s.man C.home).touched.length then (s.sendFinishMessages C).abort C.home
  else s.abort C.home

/-- `start_commit`, at home. -/
def startCommit (C : Config L M) (valid : Bool) (s : State L M) : RC × State L M :=
  let m := s.man C.home
  if 1 < m.touched.length then
    if C.W.readonly m.wl = false ∨ C.cc = .OCC ∨ C.cc = .MAAT then
      (.WAIT_REM, s.sendPrepareMessages C)
    else
      let s := s.sendFinishMessages C
      (.Commit, (s.setMan C.home { s.man C.home with rspCnt := 0 }).commit C.home)
  else
    let r := s.validate C valid C.home
    if r.1 = .RCOK then (.Commit, r.2.commit C.home) else (r.1, r.2.startAbort C)

/-- The part of `run_txn` after its loop. -/
def runTxnTail (C : Config L M) (valid : Bool) (n : ℕ) (rc : RC) (s : State L M) : RC × State L M :=
  if n = C.home then
    if C.W.isDone (s.man n).wl ∧ rc = .RCOK then s.startCommit C valid
    else if rc = .Abort then (.Abort, s.startAbort C)
    else (rc, s)
  else if rc = .Abort ∧ C.W.abortRemote then (.Abort, s.abort n)
  else (rc, s)

/-- What the loop of `run_txn` leaves behind: the workload's state, the partitions
recorded, and a request if one was sent. -/
def afterLoop (C : Config L M) (s : State L M) (n : ℕ) (rc : RC) (wl : L)
    (out : Option (ℕ × M)) : State L M :=
  (s.setMan n { s.man n with
    wl := wl, touched := touchedAfter C n (s.man n) out, waiting := decide (rc = .WAIT) }).send
    (match out with
      | some (dest, msg) => [.rqry n dest msg]
      | none => [])

/-- `run_txn` on a node. -/
def runTxn (C : Config L M) (inp : Inputs) (s : State L M) (n : ℕ) : Option (RC × State L M) :=
  match C.W.runLoop n (decide (n = C.home)) (s.man n).wl inp.answers with
  | none => none
  | some (rc, wl, out) => some (runTxnTail C inp.valid n rc (s.afterLoop C n rc wl out))

/-- `WorkerThread::commit`: the home manager is released. -/
def workerCommit (C : Config L M) (s : State L M) : State L M :=
  { s.setMan C.home (.fresh C) with ended := true }

/-- `WorkerThread::abort`: the home manager is reset and the transaction queued for a
restart; its query, with `partitions_touched`, is kept. -/
def workerAbort (C : Config L M) (s : State L M) : State L M :=
  { s.setMan C.home ((s.man C.home).reset C) with pending := true }

/-- `check_if_done`. -/
def checkIfDone (C : Config L M) (rc : RC) (s : State L M) : State L M :=
  if 0 < (s.man C.home).rspCnt then s
  else if rc = .Commit then s.workerCommit C
  else if rc = .Abort then s.workerAbort C
  else s

/-- `run_txn` at home, followed by `check_if_done`. -/
def runHome (C : Config L M) (inp : Inputs) (s : State L M) : Option (State L M) :=
  (s.runTxn C inp C.home).map fun r => r.2.checkIfDone C r.1

/-- `process_rtxn`: an attempt starts. -/
def processRtxn (C : Config L M) (inp : Inputs) (s : State L M) : Option (State L M) :=
  runHome C inp { s with pending := false, attempt := s.attempt + 1 }

/-- `process_rtxn_cont`: the home fragment goes on after a wait. -/
def processRtxnCont (C : Config L M) (inp : Inputs) (s : State L M) : Option (State L M) :=
  let m := s.man C.home
  runHome C inp (s.setMan C.home
    { m with wl := C.W.runTxnPostWait true m.wl, waiting := false })

/-- `run_txn` at a remote node, and the `RQRY_RSP` unless it waits. -/
def runRemote (C : Config L M) (inp : Inputs) (s : State L M) (n : ℕ) : Option (State L M) :=
  (s.runTxn C inp n).map fun r =>
    let m := r.2.man n
    if r.1 = .WAIT then r.2.emit n (.fragment r.1 none)
    else (r.2.emit n (.fragment r.1 (some m.rc))).send [.rqryRsp n m.returnId m.rc]

/-- `process_rqry`. -/
def processRqry (C : Config L M) (inp : Inputs) (s : State L M) (src dst : ℕ) (msg : M) :
    Option (State L M) :=
  let m := s.man dst
  runRemote C inp ((s.assert (decide (dst ≠ C.home))).setMan dst
    { m with wl := C.W.copyToTxn msg m.wl, returnId := src }) dst

/-- `process_rqry_cont`. -/
def processRqryCont (C : Config L M) (inp : Inputs) (s : State L M) (n : ℕ) : Option (State L M) :=
  let m := s.man n
  runRemote C inp (s.setMan n
    { m with wl := C.W.runTxnPostWait false m.wl, waiting := false }) n

/-- `process_rqry_rsp`; only the home node may receive it. -/
def processRqryRsp (C : Config L M) (inp : Inputs) (s : State L M) (dst : ℕ) (rc : RC) :
    Option (State L M) :=
  let s := s.assert (decide (dst = C.home))
  if dst ≠ C.home then some s
  else if rc = .Abort then some (s.startAbort C)
  else runHome C inp s

/-- `process_rprepare`. -/
def processRprepare (C : Config L M) (inp : Inputs) (s : State L M) (n : ℕ) : State L M :=
  let r := s.validate C inp.valid n
  let s := (r.2.setMan n { r.2.man n with rc := r.1 }).send [.rackPrep n r.1]
  if r.1 = .Abort then s.abort n else s

/-- `received_response`, with the assertions on `txn->rc` and on the responses left. -/
def receivedResponse (C : Config L M) (s : State L M) (rc : RC) : State L M :=
  let m := s.man C.home
  ((s.assert (decide (m.rc = .RCOK ∨ m.rc = .Abort))).setMan C.home
    { m with rc := if m.rc = .RCOK then rc else m.rc, rspCnt := m.rspCnt - 1 }).assert
    (decide (0 ≤ m.rspCnt - 1))

/-- `process_rack_prep`. -/
def processRackPrep (C : Config L M) (inp : Inputs) (s : State L M) (rc : RC) : State L M :=
  let s := s.receivedResponse C rc
  if 0 < (s.man C.home).rspCnt then s
  else
    let r := if (s.man C.home).rc = .RCOK then s.validate C inp.valid C.home else (.RCOK, s)
    if r.1 = .Abort ∨ (r.2.man C.home).rc = .Abort then
      ((r.2.setMan C.home { r.2.man C.home with rc := .Abort }).sendFinishMessages C).abort C.home
    else (r.2.sendFinishMessages C).commit C.home

/-- `process_rfin`. An aborted participant keeps its manager, reset; a committed one
releases it. -/
def processRfin (C : Config L M) (s : State L M) (n : ℕ) (rc : RC) (readonly : Bool) : State L M :=
  let s := s.assert (decide (n ≠ C.home))
  if rc = .Abort then
    let s := s.abort n
    let m := (s.man n).reset C
    let m := { m with wl := C.W.resetQuery m.wl, touched := [] }
    (s.setMan n m).send [.rackFin n m.rc]
  else
    let s := s.commit n
    let ack := if readonly = false ∨ C.cc = .MAAT ∨ C.cc = .OCC then [Msg.rackFin n (s.man n).rc]
      else []
    (s.send ack).setMan n (.fresh C)

/-- `process_rack_rfin`. -/
def processRackRfin (C : Config L M) (s : State L M) (rc : RC) : State L M :=
  let s := s.receivedResponse C rc
  if 0 < (s.man C.home).rspCnt then s
  else if (s.man C.home).rc = .RCOK then s.workerCommit C
  else s.workerAbort C

/-- The handler of a message. -/
def process (C : Config L M) (inp : Inputs) (s : State L M) : Msg M → Option (State L M)
  | .rqry src dst m => s.processRqry C inp src dst m
  | .rqryRsp _ dst rc => s.processRqryRsp C inp dst rc
  | .rprepare n => some (s.processRprepare C inp n)
  | .rackPrep _ rc => some (s.processRackPrep C inp rc)
  | .rfin n rc ro => some (s.processRfin C n rc ro)
  | .rackFin _ rc => some (s.processRackRfin C rc)

end State

/-- A step of the system. -/
inductive Action : Type where
  /-- the queued transaction starts or restarts -/
  | start (inp : Inputs)
  /-- the message at a position of `net` is delivered -/
  | deliver (i : ℕ) (inp : Inputs)
  /-- a fragment that waited for a row is resumed -/
  | cont (n : ℕ) (inp : Inputs)

/-- The inputs of an action. -/
def Action.inputs : Action → Inputs
  | .start inp => inp
  | .deliver _ inp => inp
  | .cont _ inp => inp

/-- All runs of a transaction. -/
def machine (C : Config L M) : Machine (State L M) Action where
  init :=
    { man := Function.update (fun _ => .fresh C) C.home { TxnMan.fresh C with wl := C.query }
      net := [], pending := true, ended := false, attempt := 0, log := [], assertFailed := false }
  step s a :=
    if a.inputs.answers.all (Answer.possible C.cc) then
      match a with
      | .start inp => if s.pending then s.processRtxn C inp else none
      | .deliver i inp =>
        match s.net[i]? with
        | some m => State.process C inp { s with net := s.net.eraseIdx i } m
        | none => none
      | .cont n inp =>
        if (s.man n).waiting then
          if n = C.home then s.processRtxnCont C inp else s.processRqryCont C inp n
        else none
    else none

/-- Everything a step can be. -/
theorem step_cases {C : Config L M} {s s' : State L M} {a : Action}
    (h : (machine C).step s a = some s') :
    (∀ x ∈ a.inputs.answers, Answer.possible C.cc x = true) ∧
      match a with
      | .start inp => s.pending = true ∧ s.processRtxn C inp = some s'
      | .deliver i inp => ∃ msg, s.net[i]? = some msg ∧
          State.process C inp { s with net := s.net.eraseIdx i } msg = some s'
      | .cont n inp => (s.man n).waiting = true ∧
          (if n = C.home then s.processRtxnCont C inp else s.processRqryCont C inp n) =
          some s' := by
  by_cases hall : a.inputs.answers.all (Answer.possible C.cc) = true
  · refine ⟨List.all_eq_true.mp hall, ?_⟩
    simp only [machine, if_pos hall] at h
    cases a with
    | start inp => exact ite_none_right_eq_some.mp h
    | cont n inp => exact ite_none_right_eq_some.mp h
    | deliver i inp =>
      rcases hmsg : s.net[i]? with _ | msg
      · simp only [hmsg, reduceCtorEq] at h
      · simp only [hmsg] at h
        exact ⟨msg, hmsg, h⟩
  · simp only [machine, if_neg hall, reduceCtorEq] at h

end Protocol

end Deneva
