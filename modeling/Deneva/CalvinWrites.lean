import Deneva.SequencerAcks
import Deneva.FrameworkRegistry

/-!
# The write phase of a Calvin transaction (`TPCCTxnManager::run_calvin_txn`)

A TPCC transaction under Calvin runs on every node the sequencer has sent it to: it reads its local
rows, sends them to the other nodes (`RFWD`), collects theirs, and then writes. A node is told about
the others three times over: the sequencer computes whom to send the transaction to,
`get_participants` how many `RFWD` messages to wait for, and `send_remote_reads` where to send them.

The messages of one transaction are handled in any order; an `RFWD` may come before the node's
scheduler has seen the transaction, and then finds a new manager, which only counts it.

`get_row`, `insert_row` and `calvin_wrapup` ask the framework for its own transaction object, and
`getTransaction` does not come back as long as it does not know the id. `get_row` and `insert_row`
then call `framework->read` or `framework->write`, which do not come back from a `CC_Lock` that is
taken, be it by the transaction itself: rows of different tables have the same key. What the
framework knows and whether its calls come back are parameters here; under Calvin it knows nothing,
as nothing registers the transaction (`FrameworkCalvin`).

* `runCalvinTxn` is the loop over the phases, `machine` are the nodes with the messages between
  them.
* `Inv` is what holds where the phases come back: an `RFWD` is under way or received, once, from the
  moment its sender has run; a node waits, collects or is done.
-/

namespace Deneva

open Function List Option OrderedSet

namespace CalvinWrites

open Protocol (Cluster)

/-! ## Participants -/

/-- What a TPCC query says about the nodes it runs on. -/
inductive Query : Type where
  /-- the warehouses of a payment -/
  | payment (wId cWId : ℕ)
  /-- the warehouse of a new order, and those that supply its items -/
  | newOrder (wId : ℕ) (supplyWIds : List ℕ)
  deriving DecidableEq

/-- The query as the sequencer reads it. -/
def Query.sequenced : Query → SequencerAcks.Query
  | payment wId cWId => .payment wId cWId
  | newOrder wId supplyWIds => .newOrder wId supplyWIds

/-- The arrays of `BaseQuery` that `get_participants` fills, with the count it returns. -/
structure NodeSets where
  participantCnt : ℕ
  participantNodes : ℕ → Bool
  activeNodes : ℕ → Bool

/-- The node of a warehouse, unless it is there already. -/
def NodeSets.add (p : NodeSets) (nid : ℕ) : NodeSets :=
  if p.participantNodes nid then p
  else
    ⟨p.participantCnt + 1, Function.update p.participantNodes nid true,
      Function.update p.activeNodes nid true⟩

/-- The node of the home warehouse. -/
def NodeSets.home (nid : ℕ) : NodeSets :=
  ⟨1, Function.update (fun _ => false) nid true, Function.update (fun _ => false) nid true⟩

/-- `TPCCQuery::get_participants`. -/
def getParticipants (N : Cluster) : Query → NodeSets
  | .payment wId cWId => (NodeSets.home (Tpcc.nodeOf N wId)).add (Tpcc.nodeOf N cWId)
  | .newOrder wId supplyWIds =>
    supplyWIds.foldl (fun p wId => p.add (Tpcc.nodeOf N wId)) (.home (Tpcc.nodeOf N wId))

/-- `CALVIN_PHASE`. -/
inductive Phase : Type where
  | RW_ANALYSIS
  | LOC_RD
  | SERVE_RD
  | COLLECT_RD
  | EXEC_WR
  | DONE
  deriving DecidableEq

/-- The constants of a run. -/
structure Config where
  /-- `g_node_cnt` and `g_part_cnt` -/
  N : Cluster
  /-- there is a node -/
  nodeCnt_pos : 0 < N.nodeCnt
  /-- the query -/
  query : Query
  /-- its number -/
  txnId : ℕ
  /-- what the frameworks of the nodes know -/
  registry : FrameworkRegistry.State
  /-- the calls of the framework that a node makes in a phase come back -/
  back : ℕ → Phase → Bool
  /-- `getTransaction` comes back only for an id that is in the map -/
  back_known : ∀ j p, back j p = true → (registry.getTransaction j txnId).isSome = true

/-- The nodes that the sequencer sends the transaction to. -/
def Config.participants (C : Config) : OrderedSet ℕ := C.query.sequenced.participants C.N

/-- `framework->getTransaction` comes back on the node. -/
def Config.known (C : Config) (j : ℕ) : Bool := (C.registry.getTransaction j C.txnId).isSome

/-- A row of the transaction is on the node. -/
def Config.isLocal (C : Config) (j : ℕ) : Bool :=
  match C.query with
  | .payment wId cWId => Tpcc.nodeOf C.N wId = j || Tpcc.nodeOf C.N cWId = j
  | .newOrder wId supplyWIds =>
    Tpcc.nodeOf C.N wId = j || supplyWIds.any fun wId => Tpcc.nodeOf C.N wId = j

/-- `run_tpcc_phase2` gets a row: a payment does not read ahead. -/
def Config.phase2GetsRow (C : Config) (j : ℕ) : Bool :=
  match C.query with
  | .payment _ _ => false
  | .newOrder _ _ => C.isLocal j

/-- `run_tpcc_phase5` gets or inserts a row. -/
def Config.phase5GetsRow (C : Config) (j : ℕ) : Bool := C.isLocal j

/-- `new_order_5` takes the row of an item of its node for the district, and asks for a column that
the schema of `ITEM` does not have. -/
def Config.misreads (C : Config) (j : ℕ) : Bool :=
  match C.query with
  | .payment _ _ => false
  | .newOrder wId supplyWIds =>
    Tpcc.nodeOf C.N wId = j && supplyWIds.any fun wId => Tpcc.nodeOf C.N wId = j

/-- `run_tpcc_phase2` does not come back. -/
def Config.stuck2 (C : Config) (j : ℕ) : Bool := C.phase2GetsRow j && !C.back j .LOC_RD

/-- `run_tpcc_phase5` does not come back, or what it does is not defined. -/
def Config.stuck5 (C : Config) (j : ℕ) : Bool :=
  C.phase5GetsRow j && !C.back j .EXEC_WR || C.misreads j

/-! ## The phases -/

/-- `TxnManager`, as far as the phases go. -/
structure Man where
  phase : Phase
  rspCnt : ℕ
  /-- `txn->rc` -/
  rc : RC
  calvinExpectedRspCnt : ℕ
  /-- `query->participant_nodes` -/
  participantNodes : ℕ → Bool
  /-- `query->active_nodes` -/
  activeNodes : ℕ → Bool

/-- A manager from the pool. -/
def Man.new : Man := ⟨.RW_ANALYSIS, 0, .RCOK, 0, fun _ => false, fun _ => false⟩

/-- `calvin_exec_phase_done`. -/
def Man.calvinExecPhaseDone (m : Man) : Bool := m.phase = .DONE && m.rc ≠ .WAIT

/-- `calvin_collect_phase_done`. -/
def Man.calvinCollectPhaseDone (m : Man) : Bool :=
  m.phase = .COLLECT_RD && m.rspCnt = m.calvinExpectedRspCnt

/-- `run_calvin_txn` in between. -/
structure Ran where
  /-- the manager -/
  man : Man
  rc : RC
  /-- the nodes it has sent `RFWD` to -/
  sends : List ℕ
  /-- how often `run_tpcc_phase5` was called -/
  writes : ℕ
  /-- the worker does not come back: an assertion has failed, or it is in the framework -/
  lost : Bool

/-- The destinations of `send_remote_reads` on node `j`. -/
def sendRemoteReads (C : Config) (j : ℕ) (m : Man) : List ℕ :=
  (List.range C.N.nodeCnt).filter fun i => i ≠ j ∧ m.activeNodes i = true

/-- One iteration of `run_calvin_txn` on node `j`. -/
def phaseStep (C : Config) (j : ℕ) (r : Ran) : Ran :=
  match r.man.phase with
  | .RW_ANALYSIS =>
    let p := getParticipants C.N C.query
    { r with
      man := { r.man with
        calvinExpectedRspCnt := if p.participantNodes j then p.participantCnt - 1
          else p.participantCnt
        participantNodes := p.participantNodes
        activeNodes := p.activeNodes
        phase := .LOC_RD } }
  | .LOC_RD =>
    if C.stuck2 j then { r with lost := true }
    else { r with man := { r.man with phase := .SERVE_RD } }
  | .SERVE_RD =>
    let sends := if r.man.participantNodes j then sendRemoteReads C j r.man else []
    if r.man.activeNodes j then
      let man := { r.man with phase := .COLLECT_RD }
      { r with
        man := man
        rc := if man.calvinCollectPhaseDone then .RCOK else .WAIT
        sends := r.sends ++ sends
        -- `assert(calvin_expected_rsp_cnt > 0)` of a node that waits
        lost := !man.calvinCollectPhaseDone && man.calvinExpectedRspCnt = 0 }
    else
      { r with man := { r.man with phase := .DONE }, rc := .RCOK, sends := r.sends ++ sends }
  | .COLLECT_RD => { r with man := { r.man with phase := .EXEC_WR } }
  | .EXEC_WR =>
    if C.stuck5 j then { r with writes := r.writes + 1, lost := true }
    else { r with writes := r.writes + 1, man := { r.man with phase := .DONE } }
  | .DONE => { r with lost := true }

/-- The loop of `run_calvin_txn`; there are six phases. -/
def runLoop (C : Config) (j : ℕ) : ℕ → Ran → Ran
  | 0, r => r
  | n + 1, r =>
    if r.man.calvinExecPhaseDone = false ∧ r.rc = .RCOK ∧ r.lost = false then
      runLoop C j n (phaseStep C j r)
    else r

/-- `TPCCTxnManager::run_calvin_txn` on node `j`. -/
def runCalvinTxn (C : Config) (j : ℕ) (m : Man) : Ran := runLoop C j 6 ⟨m, .RCOK, [], 0, false⟩

/-! ## The nodes -/

/-- How far the transaction has come on a node. -/
inductive Stage : Type where
  /-- the sequencer does not send it here -/
  | absent
  /-- on its way to the scheduler -/
  | sent
  /-- with its locks, in the work queue -/
  | ready
  /-- a worker has taken it -/
  | run
  deriving DecidableEq

/-- A node. -/
structure NodeState where
  /-- the transaction's way to the workers -/
  stage : Stage
  /-- its manager in the transaction table -/
  man : Option Man
  /-- a worker has its manager and does not come back -/
  lost : Bool
  /-- the nodes that `RFWD` messages have come from (a history) -/
  received : List ℕ
  /-- the calls of `run_tpcc_phase5`, each with what had been received before (a history) -/
  writes : List (List ℕ)
  /-- the calls of `calvin_wrapup` (a history) -/
  wrapups : ℕ
  /-- the `RFWD` messages that came after `calvin_wrapup` (a history) -/
  late : ℕ

/-- An `RFWD` message. -/
structure Rfwd where
  /-- the sender -/
  src : ℕ
  /-- the receiver -/
  dest : ℕ
  /-- the sender's `rc` -/
  rc : RC
  deriving DecidableEq

/-- `calvin_wrapup`: it asks the framework for its object before it releases the manager. -/
def calvinWrapup (C : Config) (j : ℕ) (n : NodeState) : NodeState :=
  if C.known j then { n with wrapups := n.wrapups + 1, man := none }
  else { n with wrapups := n.wrapups + 1, lost := true }

/-- What `process_calvin_rtxn` and `process_rfwd` do with a manager: `run_calvin_txn`, and
`calvin_wrapup` if that was all. -/
def execute (C : Config) (j : ℕ) (m : Man) (n : NodeState) : NodeState × List Rfwd :=
  let r := runCalvinTxn C j m
  let n' := { n with
    man := some r.man
    lost := r.lost
    writes := n.writes ++ List.replicate r.writes n.received }
  (if r.lost = false ∧ r.rc = .RCOK ∧ r.man.calvinExecPhaseDone = true then calvinWrapup C j n'
    else n', r.sends.map fun d => ⟨j, d, r.man.rc⟩)

/-- `CalvinLockThread::run`: the manager exists from here on, if it did not before. -/
def schedule (n : NodeState) : NodeState :=
  { n with stage := .ready, man := some (n.man.getD .new) }

/-- `WorkerThread::process_calvin_rtxn`. -/
def processCalvinRtxn (C : Config) (j : ℕ) (n : NodeState) : NodeState × List Rfwd :=
  execute C j (n.man.getD .new) { n with stage := .run }

/-- `TxnManager::received_response`. -/
def Man.receivedResponse (m : Man) (rc : RC) : Man :=
  { m with rc := if m.rc = .RCOK then rc else m.rc, rspCnt := m.rspCnt + 1 }

/-- `WorkerThread::process_rfwd`. -/
def processRfwd (C : Config) (x : Rfwd) (n : NodeState) : NodeState × List Rfwd :=
  let m := (n.man.getD .new).receivedResponse x.rc
  let n' := { n with
    man := some m
    received := n.received ++ [x.src]
    late := if 0 < n.wrapups then n.late + 1 else n.late }
  if m.calvinCollectPhaseDone then execute C x.dest m n' else (n', [])

/-- The nodes, and the messages under way between them. -/
structure State where
  /-- the nodes -/
  node : ℕ → NodeState
  /-- the messages -/
  net : List Rfwd

/-- What happens. A worker that does not come back keeps the manager, and other messages for the
transaction go back to the work queue. -/
inductive Action : Type where
  /-- the scheduler of a node takes the transaction -/
  | schedule (j : ℕ)
  /-- a worker takes the transaction -/
  | rtxn (j : ℕ)
  /-- a worker takes a message -/
  | rfwd (x : Rfwd)
  deriving DecidableEq

/-- The new state of a node, and the messages it has sent. -/
def State.update (s : State) (j : ℕ) (x : NodeState × List Rfwd) : State :=
  ⟨Function.update s.node j x.1, s.net ++ x.2⟩

/-- One step. -/
def step (C : Config) (s : State) : Action → Option State
  | .schedule j =>
    if (s.node j).stage = .sent then some (s.update j (schedule (s.node j), [])) else none
  | .rtxn j =>
    if (s.node j).stage = .ready ∧ (s.node j).lost = false then
      some (s.update j (processCalvinRtxn C j (s.node j)))
    else none
  | .rfwd x =>
    if x ∈ s.net ∧ (s.node x.dest).lost = false then
      some (State.update { s with net := s.net.erase x } x.dest (processRfwd C x (s.node x.dest)))
    else none

/-- The sequencer has sent the transaction, nothing has arrived. -/
def State.init (C : Config) : State :=
  ⟨fun j => ⟨if j ∈ C.participants then .sent else .absent, none, false, [], [], 0, 0⟩, []⟩

/-- The run of one transaction. -/
def machine (C : Config) : Machine State Action where
  init := State.init C
  step := step C

/-! ## What is to hold -/

/-- The other nodes of the transaction. -/
def Config.others (C : Config) (j : ℕ) : List ℕ := C.participants.toList.erase j

/-- **On a node, at any time**: the write phase and `calvin_wrapup` have run at most once, the write
phase after exactly one `RFWD` from each of the other nodes, `calvin_wrapup` after the write phase,
and no `RFWD` has come after it. -/
structure NodeState.InOrder (C : Config) (j : ℕ) (n : NodeState) : Prop where
  once : n.writes.length ≤ 1
  collected : ∀ received ∈ n.writes, received.Perm (C.others j)
  wrapups : n.wrapups ≤ n.writes.length
  late : n.late = 0

/-- Nothing is left to do. -/
def State.Final (C : Config) (s : State) : Prop := ∀ a, step C s a = none

/-- **The write phase runs once, after all remote reads**: every node is in order at any time, any
run can be brought to its end, and at the end each node has run the write phase and `calvin_wrapup`
once. -/
def WritesOnce (C : Config) : Prop :=
  ∀ s, (machine C).Reachable s →
    (∀ j ∈ C.participants, (s.node j).InOrder C j) ∧
    (∃ as s', (machine C).runFrom s as = some s' ∧ s'.Final C) ∧
    (s.Final C → ∀ j ∈ C.participants, (s.node j).writes.length = 1 ∧ (s.node j).wrapups = 1)

/-! ## The three computations agree -/

section Participants

variable {N : Cluster} {p : NodeSets} {S : OrderedSet ℕ} {C : Config} {i j : ℕ}

/-- The arrays and the count describe a set of nodes. -/
structure NodeSets.Agrees (p : NodeSets) (S : OrderedSet ℕ) : Prop where
  participants : ∀ i, p.participantNodes i = decide (i ∈ S)
  active : p.activeNodes = p.participantNodes
  count : p.participantCnt = S.toList.length

theorem NodeSets.Agrees.add (h : p.Agrees S) (nid : ℕ) : (p.add nid).Agrees (S.insert nid) := by
  have hnid : p.participantNodes nid = true ↔ nid ∈ S := by rw [h.participants, decide_eq_true_iff]
  rw [NodeSets.add]
  split
  next hmem =>
    have hmem := hnid.mp hmem
    refine ⟨fun i => ?_, h.active, ?_⟩
    · rw [h.participants]
      refine decide_eq_decide.mpr (mem_insert.trans (or_iff_right_of_imp ?_)).symm
      rintro rfl
      exact hmem
    · rw [h.count, OrderedSet.length_insert, if_pos hmem]
  next hmem =>
    have hmem := mt hnid.mpr hmem
    refine ⟨fun i => ?_, ?_, ?_⟩
    · show Function.update p.participantNodes nid true i = _
      by_cases hi : i = nid
      · rw [hi, update_self, decide_eq_true (mem_insert.mpr (.inl rfl))]
      · rw [update_of_ne hi, h.participants]
        exact decide_eq_decide.mpr (mem_insert.trans (or_iff_right hi)).symm
    · rw [h.active]
    · rw [h.count, OrderedSet.length_insert, if_neg hmem]

theorem NodeSets.Agrees.home (nid : ℕ) :
    (NodeSets.home nid).Agrees ((∅ : OrderedSet ℕ).insert nid) := by
  refine ⟨fun i => ?_, rfl, rfl⟩
  show Function.update (fun _ => false) nid true i = _
  by_cases hi : i = nid
  · rw [hi, update_self, decide_eq_true (mem_insert.mpr (.inl rfl))]
  · rw [update_of_ne hi, decide_eq_false]
    exact fun h => (mem_insert.mp h).elim hi not_mem_empty

theorem NodeSets.Agrees.foldl {ws : List ℕ} (h : p.Agrees S) :
    (ws.foldl (fun p wId => p.add (Tpcc.nodeOf N wId)) p).Agrees
      (ws.foldl (fun s wId => s.insert (Tpcc.nodeOf N wId)) S) := by
  induction ws generalizing p S with
  | nil => exact h
  | cons wId ws ih => exact ih (h.add _)

/-- **`get_participants` finds the nodes that the sequencer has sent the transaction to.** -/
theorem getParticipants_agrees (C : Config) :
    (getParticipants C.N C.query).Agrees C.participants := by
  rw [Config.participants]
  cases C.query with
  | payment wId cWId => exact (NodeSets.Agrees.home _).add _
  | newOrder wId supplyWIds => exact (NodeSets.Agrees.home _).foldl

/-- They are the nodes with rows of the transaction. -/
theorem mem_participants : i ∈ C.participants ↔ C.isLocal i = true := by
  rw [Config.participants, Config.isLocal]
  cases C.query with
  | payment wId cWId =>
    rw [Query.sequenced, SequencerAcks.Query.participants, mem_insert, mem_insert,
      Bool.or_eq_true, decide_eq_true_iff, decide_eq_true_iff, eq_comm (b := i), eq_comm,
      or_iff_left not_mem_empty, or_comm]
  | newOrder wId supplyWIds =>
    rw [Query.sequenced, SequencerAcks.Query.participants, mem_foldl_insert,
      mem_insert, or_iff_left not_mem_empty, Bool.or_eq_true, decide_eq_true_iff,
      List.any_eq_true, eq_comm]
    simp only [decide_eq_true_iff]

theorem lt_of_mem_participants (h : i ∈ C.participants) : i < C.N.nodeCnt := by
  have hnode : ∀ wId, Tpcc.nodeOf C.N wId < C.N.nodeCnt := fun wId => Nat.mod_lt _ C.nodeCnt_pos
  rw [mem_participants, Config.isLocal] at h
  split at h
  · simp only [Bool.or_eq_true, decide_eq_true_iff] at h
    rcases h with rfl | rfl <;> exact hnode _
  · simp only [Bool.or_eq_true, decide_eq_true_iff, List.any_eq_true] at h
    rcases h with rfl | ⟨wId, -, rfl⟩ <;> exact hnode _

theorem mem_others : i ∈ C.others j ↔ i ≠ j ∧ i ∈ C.participants :=
  nodup_toList.mem_erase_iff

theorem nodup_others : (C.others j).Nodup := nodup_toList.erase j

theorem length_others (h : j ∈ C.participants) :
    (C.others j).length = C.participants.toList.length - 1 :=
  length_erase_of_mem h

/-- The manager after the analysis. -/
def Config.analysed (C : Config) (j : ℕ) (m : Man) : Man :=
  { m with
    calvinExpectedRspCnt := (C.others j).length
    participantNodes := fun i => decide (i ∈ C.participants)
    activeNodes := fun i => decide (i ∈ C.participants) }

/-- **A node of the transaction expects one message from each other node.** -/
theorem phaseStep_analysis {r : Ran} (hj : j ∈ C.participants)
    (hphase : r.man.phase = .RW_ANALYSIS) :
    phaseStep C j r = { r with man := { C.analysed j r.man with phase := .LOC_RD } } := by
  have h := getParticipants_agrees C
  have hnodes : (getParticipants C.N C.query).participantNodes = fun i =>
      decide (i ∈ C.participants) :=
    funext h.participants
  rw [phaseStep, hphase]
  simp only [h.active, hnodes, decide_eq_true hj, if_true, h.count, Config.analysed,
    length_others hj]

/-- The nodes that the reads of a node go to. -/
theorem sendRemoteReads_analysed (m : Man) :
    (sendRemoteReads C j (C.analysed j m)).Perm (C.others j) := by
  refine (perm_ext_iff_of_nodup (List.nodup_range.filter _) nodup_others).mpr fun i => ?_
  rw [mem_filter, mem_range, decide_eq_true_iff, mem_others, Config.analysed, decide_eq_true_iff]
  exact ⟨fun h => h.2, fun h => ⟨lt_of_mem_participants h.2, h⟩⟩

end Participants

/-! ## The loop over the phases -/

/-- **A node serves the transaction**: the calls of the framework come back in both phases that
access rows, and `new_order_5` finds the district in the cursor. -/
structure Config.Serves (C : Config) (j : ℕ) : Prop where
  reads : C.phase2GetsRow j = true → C.back j .LOC_RD = true
  writes : C.back j .EXEC_WR = true
  district : C.misreads j = false

theorem Config.Serves.known {C : Config} {j : ℕ} (h : C.Serves j) : C.known j = true :=
  C.back_known j .EXEC_WR h.writes

theorem Config.Serves.stuck2 {C : Config} {j : ℕ} (h : C.Serves j) : C.stuck2 j = false := by
  cases hrow : C.phase2GetsRow j with
  | false => simp [Config.stuck2, hrow]
  | true => simp [Config.stuck2, h.reads hrow]

theorem Config.Serves.stuck5 {C : Config} {j : ℕ} (h : C.Serves j) : C.stuck5 j = false := by
  simp [Config.stuck5, h.writes, h.district]

/-- A node of the transaction that does not serve it does not come back from one of the phases. -/
theorem Config.stuck_of_not_serves {C : Config} {j : ℕ} (hj : j ∈ C.participants)
    (h : ¬ C.Serves j) : C.stuck2 j = true ∨ C.stuck5 j = true := by
  by_contra hnot
  simp only [not_or, Bool.not_eq_true, Config.stuck2, Config.stuck5, Bool.or_eq_false_iff,
    Bool.and_eq_false_iff, Bool.not_eq_false'] at hnot
  obtain ⟨h2, h5, hdistrict⟩ := hnot
  have hrow : C.phase5GetsRow j = true := mem_participants.mp hj
  refine h
    ⟨fun hgets => h2.resolve_left (by simp [hgets]), h5.resolve_left (by simp [hrow]), hdistrict⟩

section Loop

variable {C : Config} {j : ℕ} {m : Man}

/-- **From the beginning**, where the phases come back: the node sends its reads, and goes on to the
end if it has all messages already. -/
theorem runCalvinTxn_start (hj : j ∈ C.participants) (h2 : C.stuck2 j = false)
    (h5 : C.stuck5 j = false) (hphase : m.phase = .RW_ANALYSIS) (hrc : m.rc = .RCOK) :
    runCalvinTxn C j m =
      if m.rspCnt = (C.others j).length then
        ⟨{ C.analysed j m with phase := .DONE }, .RCOK, sendRemoteReads C j (C.analysed j m),
          1, false⟩
      else
        ⟨{ C.analysed j m with phase := .COLLECT_RD }, .WAIT,
          sendRemoteReads C j (C.analysed j m), 0, (C.others j).length = 0⟩ := by
  have hfirst : phaseStep C j ⟨m, .RCOK, [], 0, false⟩ =
      ⟨{ C.analysed j m with phase := .LOC_RD }, .RCOK, [], 0, false⟩ :=
      phaseStep_analysis hj hphase
  rw [runCalvinTxn, runLoop, if_pos (by simp [Man.calvinExecPhaseDone, hphase]), hfirst]
  by_cases hall : m.rspCnt = (C.others j).length
  · simp [runLoop, phaseStep, Man.calvinExecPhaseDone, Man.calvinCollectPhaseDone,
      Config.analysed, h2, h5, hrc, hall, hj]
    rfl
  · simp [runLoop, phaseStep, Man.calvinExecPhaseDone, Man.calvinCollectPhaseDone,
      Config.analysed, h2, hall, hj]
    rfl

/-- **From the collect phase**, where the write phase comes back: the node goes on to the end. -/
theorem runCalvinTxn_collect (h5 : C.stuck5 j = false) (hphase : m.phase = .COLLECT_RD)
    (hrc : m.rc = .RCOK) :
    runCalvinTxn C j m = ⟨{ m with phase := .DONE }, .RCOK, [], 1, false⟩ := by
  simp [runCalvinTxn, runLoop, phaseStep, Man.calvinExecPhaseDone, hphase, h5, hrc]

/-- From the collect phase a node does not send anything. -/
theorem sends_runCalvinTxn_collect (hphase : m.phase = .COLLECT_RD) :
    (runCalvinTxn C j m).sends = [] := by
  cases hrow : C.stuck5 j with
  | false => by_cases hrc : m.rc = .WAIT <;>
      simp [runCalvinTxn, runLoop, phaseStep, Man.calvinExecPhaseDone, hphase, hrow, hrc]
  | true => simp [runCalvinTxn, runLoop, phaseStep, Man.calvinExecPhaseDone, hphase, hrow]

/-- One phase sends at most one message to each node. -/
theorem length_sends_phaseStep_le (r : Ran) :
    (phaseStep C j r).sends.length ≤ r.sends.length + C.N.nodeCnt := by
  have hsends : (sendRemoteReads C j r.man).length ≤ C.N.nodeCnt :=
    (length_filter_le _ _).trans_eq length_range
  rw [phaseStep]
  split
  case h_3 =>
    have hle : (if r.man.participantNodes j then sendRemoteReads C j r.man else []).length ≤
        C.N.nodeCnt := by
      split
      · exact hsends
      · exact Nat.zero_le _
    have happ := Nat.add_le_add_left hle r.sends.length
    rw [← length_append] at happ
    cases hactive : r.man.activeNodes j with
    | false =>
      rw [if_neg (by simp)]
      exact happ
    | true =>
      rw [if_pos rfl]
      exact happ
  all_goals first | exact Nat.le_add_right _ _ | (split <;> exact Nat.le_add_right _ _)

theorem length_sends_runLoop_le (n : ℕ) (r : Ran) :
    (runLoop C j n r).sends.length ≤ r.sends.length + n * C.N.nodeCnt := by
  induction n generalizing r with
  | zero => exact Nat.le_add_right _ _
  | succ n ih =>
    rw [runLoop]
    split
    · have hstep := length_sends_phaseStep_le (C := C) (j := j) r
      have hrest := ih (phaseStep C j r)
      rw [Nat.succ_mul]
      omega
    · exact Nat.le_add_right _ _

/-- The manager of a node has not come to the end of its phases, nor beyond the first one that does
not come back. -/
def Man.Unfinished (C : Config) (j : ℕ) (m : Man) : Prop :=
  m.phase ≠ .DONE ∧ (m.phase ≠ .RW_ANALYSIS → m.activeNodes j = true) ∧
    (C.stuck2 j = true → m.phase = .RW_ANALYSIS ∨ m.phase = .LOC_RD)

/-- **Where a phase does not come back** a node of the transaction does not come to the end. -/
theorem Man.Unfinished.phaseStep {r : Ran} (hj : j ∈ C.participants)
    (hstuck : C.stuck2 j = true ∨ C.stuck5 j = true) (h : r.man.Unfinished C j) :
    (phaseStep C j r).man.Unfinished C j := by
  obtain ⟨hdone, hactive, hearly⟩ := h
  -- the later phases are not reached if the second one does not come back
  have hlater : r.man.phase ≠ .RW_ANALYSIS → r.man.phase ≠ .LOC_RD → C.stuck2 j = false := by
    intro h1 h2
    by_contra hnot
    rcases hearly (Bool.eq_true_of_not_eq_false hnot) with h | h
    · exact h1 h
    · exact h2 h
  cases hphase : r.man.phase with
  | RW_ANALYSIS =>
    rw [phaseStep_analysis hj hphase]
    exact ⟨Phase.noConfusion, fun _ => decide_eq_true hj, fun _ => .inr rfl⟩
  | LOC_RD =>
    have hactive := hactive (by simp [hphase])
    rw [CalvinWrites.phaseStep, hphase]
    cases hstuck2 : C.stuck2 j with
    | true => exact ⟨hdone, fun _ => hactive, hearly⟩
    | false => exact ⟨Phase.noConfusion, fun _ => hactive, by simp [hstuck2]⟩
  | SERVE_RD =>
    have hactive := hactive (by simp [hphase])
    have hfalse := hlater (by simp [hphase]) (by simp [hphase])
    rw [CalvinWrites.phaseStep, hphase]
    simp only [hactive, if_true]
    exact ⟨Phase.noConfusion, fun _ => hactive, by simp [hfalse]⟩
  | COLLECT_RD =>
    have hactive := hactive (by simp [hphase])
    have hfalse := hlater (by simp [hphase]) (by simp [hphase])
    rw [CalvinWrites.phaseStep, hphase]
    exact ⟨Phase.noConfusion, fun _ => hactive, by simp [hfalse]⟩
  | EXEC_WR =>
    have hfalse := hlater (by simp [hphase]) (by simp [hphase])
    have h5 : C.stuck5 j = true := hstuck.resolve_left (by simp [hfalse])
    rw [CalvinWrites.phaseStep, hphase]
    simp only [h5, if_true]
    exact ⟨hdone, hactive, hearly⟩
  | DONE => exact absurd hphase hdone

theorem Man.Unfinished.runLoop {n : ℕ} {r : Ran} (hj : j ∈ C.participants)
    (hstuck : C.stuck2 j = true ∨ C.stuck5 j = true) (h : r.man.Unfinished C j) :
    (runLoop C j n r).man.Unfinished C j := by
  induction n generalizing r with
  | zero => exact h
  | succ n ih =>
    rw [CalvinWrites.runLoop]
    split
    · exact ih (h.phaseStep hj hstuck)
    · exact h

end Loop

/-! ## Every run ends -/

section Measure

variable {C : Config} {s s' : State} {a : Action} {j : ℕ} {m : Man} {n : NodeState}

/-- The messages that a stage may still lead to. -/
def Stage.weight (C : Config) : Stage → ℕ
  | .sent => 6 * C.N.nodeCnt + 2
  | .ready => 6 * C.N.nodeCnt + 1
  | .absent | .run => 0

/-- The messages under way, and those to come. -/
def State.measure (C : Config) (s : State) : ℕ :=
  ∑ j ∈ Finset.range C.N.nodeCnt, (s.node j).stage.weight C + s.net.length

/-- The transaction is only where the sequencer has sent it. -/
def State.Sent (C : Config) (s : State) : Prop :=
  ∀ j, (s.node j).stage ≠ .absent → j ∈ C.participants

/-- What the new state of the node does not change, no node changes. -/
theorem update_congr {β : Type*} (f : NodeState → β) {node : ℕ → NodeState} {n' : NodeState}
    (h : f n' = f (node j)) (i : ℕ) : f (Function.update node j n' i) = f (node i) := by
  by_cases hi : i = j
  · subst hi
    rw [update_self, h]
  · rw [update_of_ne hi]

section

variable (x : NodeState × List Rfwd)

include x

@[simp] theorem node_update_self : (s.update j x).node j = x.1 :=
  update_self _ _ _

theorem node_update_ne {i : ℕ} (h : i ≠ j) : (s.update j x).node i = s.node i :=
  update_of_ne h _ _

theorem measure_update (hj : j < C.N.nodeCnt) :
    (s.update j x).measure C + (s.node j).stage.weight C =
      s.measure C + x.1.stage.weight C + x.2.length := by
  have hsum : ∑ i ∈ Finset.range C.N.nodeCnt, ((Function.update s.node j x.1) i).stage.weight C +
      (s.node j).stage.weight C =
      ∑ i ∈ Finset.range C.N.nodeCnt, (s.node i).stage.weight C + x.1.stage.weight C := by
    have hmem := Finset.mem_range.mpr hj
    rw [← Finset.add_sum_erase _ _ hmem,
      ← Finset.add_sum_erase _ (fun i => (s.node i).stage.weight C) hmem, update_self]
    have hrest : ∀ i ∈ (Finset.range C.N.nodeCnt).erase j,
        ((Function.update s.node j x.1) i).stage.weight C = (s.node i).stage.weight C :=
        fun i hi => by
      rw [update_of_ne (Finset.ne_of_mem_erase hi)]
    rw [Finset.sum_congr rfl hrest]
    omega
  rw [State.measure, State.measure, State.update, length_append]
  simp only
  omega

end

@[simp] theorem stage_execute : (execute C j m n).1.stage = n.stage := by
  rw [execute]
  split
  · rw [calvinWrapup]
    split <;> rfl
  · rfl

theorem length_sends_execute : (execute C j m n).2.length ≤ 6 * C.N.nodeCnt := by
  rw [execute, length_map]
  exact (length_sends_runLoop_le 6 _).trans_eq (Nat.zero_add _)

theorem stage_processRfwd {x : Rfwd} : (processRfwd C x n).1.stage = n.stage := by
  rw [processRfwd]
  split
  · exact stage_execute
  · rfl

theorem sends_processRfwd {x : Rfwd} : (processRfwd C x n).2 = [] := by
  rw [processRfwd]
  split
  next hdone =>
    rw [Man.calvinCollectPhaseDone, Bool.and_eq_true, decide_eq_true_iff] at hdone
    rw [execute, sends_runCalvinTxn_collect hdone.1, map_nil]
  · rfl

/-- What a step does to the stages. -/
theorem State.Sent.step (h : s.Sent C) (hs : step C s a = some s') : s'.Sent C := by
  have hupdate : ∀ (t : State) j x, t.node = s.node →
    (x.1.stage ≠ Stage.absent → j ∈ C.participants) → (t.update j x).Sent C := by
    intro t j x ht hx i hi
    by_cases hij : i = j
    · subst hij
      rw [node_update_self] at hi
      exact hx hi
    · rw [node_update_ne x hij, ht] at hi
      exact h i hi
  cases a with
  | schedule j =>
    obtain ⟨hstage, hs⟩ := ite_none_right_eq_some.mp hs
    exact some.inj hs ▸ hupdate s j _ rfl fun _ => h j (by simp [hstage])
  | rtxn j =>
    obtain ⟨⟨hstage, -⟩, hs⟩ := ite_none_right_eq_some.mp hs
    exact some.inj hs ▸ hupdate s j _ rfl fun _ => h j (by simp [hstage])
  | rfwd x =>
    obtain ⟨-, hs⟩ := ite_none_right_eq_some.mp hs
    refine some.inj hs ▸ hupdate _ x.dest _ rfl fun hne => h x.dest ?_
    rwa [stage_processRfwd] at hne

/-- Every step uses something up. -/
theorem measure_lt_of_step (h : s.Sent C) (hs : step C s a = some s') :
    s'.measure C < s.measure C := by
  have hlt : ∀ j, (s.node j).stage ≠ .absent → j < C.N.nodeCnt := fun j hj =>
    lt_of_mem_participants (h j hj)
  cases a with
  | schedule j =>
    obtain ⟨hstage, hs⟩ := ite_none_right_eq_some.mp hs
    have hsum := measure_update (s := s) (schedule (s.node j), [])
      (hlt j (by simp [hstage]))
    rw [hstage, some.inj hs] at hsum
    simp only [schedule, Stage.weight, length_nil] at hsum
    omega
  | rtxn j =>
    obtain ⟨⟨hstage, -⟩, hs⟩ := ite_none_right_eq_some.mp hs
    have hsum := measure_update (s := s) (processCalvinRtxn C j (s.node j))
      (hlt j (by simp [hstage]))
    have hsends : (processCalvinRtxn C j (s.node j)).2.length ≤ 6 * C.N.nodeCnt :=
      length_sends_execute
    have hrun : (processCalvinRtxn C j (s.node j)).1.stage = .run := stage_execute
    rw [hstage, hrun, some.inj hs] at hsum
    simp only [Stage.weight] at hsum
    omega
  | rfwd x =>
    obtain ⟨⟨hmem, -⟩, hs⟩ := ite_none_right_eq_some.mp hs
    have hstage : ∀ i ∈ Finset.range C.N.nodeCnt,
        (s'.node i).stage.weight C = (s.node i).stage.weight C := by
      intro i _
      rw [← some.inj hs]
      exact update_congr (·.stage.weight C) (by rw [stage_processRfwd]) i
    have hnet : s'.net = s.net.erase x := by
      rw [← some.inj hs, State.update, sends_processRfwd, append_nil]
    have hpos := length_pos_of_mem hmem
    rw [State.measure, State.measure, Finset.sum_congr rfl hstage, hnet, length_erase_of_mem hmem]
    omega

/-- **Any run can be brought to its end.** -/
theorem exists_final (h : s.Sent C) : ∃ as s', (machine C).runFrom s as = some s' ∧ s'.Final C := by
  have hstep : ∀ s : State, s.Sent C → ¬ s.Final C →
      ∃ a s', (machine C).step s a = some s' ∧ s'.Sent C ∧ s'.measure C < s.measure C := by
    intro s hs hnot
    obtain ⟨a, ha⟩ := not_forall.mp hnot
    obtain ⟨s', hs'⟩ := Option.ne_none_iff_exists'.mp ha
    exact ⟨a, s', hs', hs.step hs', measure_lt_of_step hs hs'⟩
  obtain ⟨as, s', hrun, -, hfinal⟩ := Machine.exists_runFrom_of_measure _ hstep h
  exact ⟨as, s', hrun, hfinal⟩

end Measure

/-! ## A phase that does not come back -/

section Stuck

variable {C : Config} {s s' : State} {a : Action} {j : ℕ} {m : Man} {n : NodeState}

/-- The node has not called `calvin_wrapup`, and its manager is not at the end of its phases. -/
def NodeState.Blocked (C : Config) (j : ℕ) (n : NodeState) : Prop :=
  n.wrapups = 0 ∧ (n.man.getD .new).Unfinished C j

theorem NodeState.Blocked.execute (hj : j ∈ C.participants)
    (hstuck : C.stuck2 j = true ∨ C.stuck5 j = true) (hm : m.Unfinished C j) (hn : n.wrapups = 0) :
    (execute C j m n).1.Blocked C j := by
  have hrun : (runCalvinTxn C j m).man.Unfinished C j := Man.Unfinished.runLoop hj hstuck hm
  have hdone : (runCalvinTxn C j m).man.calvinExecPhaseDone = false := by
    rw [Man.calvinExecPhaseDone, decide_eq_false hrun.1, Bool.false_and]
  rw [CalvinWrites.execute, if_neg (by rw [hdone]; exact fun h => Bool.false_ne_true h.2.2)]
  exact ⟨hn, hrun⟩

/-- Nothing that happens changes that. -/
theorem NodeState.Blocked.step (hj : j ∈ C.participants)
    (hstuck : C.stuck2 j = true ∨ C.stuck5 j = true) (h : (s.node j).Blocked C j)
    (hs : step C s a = some s') : (s'.node j).Blocked C j := by
  have hupdate : ∀ (t : State) i x, t.node = s.node → (i = j → x.1.Blocked C j) →
      ((t.update i x).node j).Blocked C j := by
    intro t i x ht hx
    by_cases hij : j = i
    · subst hij
      rw [node_update_self]
      exact hx rfl
    · rw [node_update_ne x hij, ht]
      exact h
  cases a with
  | schedule i =>
    obtain ⟨-, hs⟩ := ite_none_right_eq_some.mp hs
    refine some.inj hs ▸ hupdate s i _ rfl ?_
    rintro rfl
    exact h
  | rtxn i =>
    obtain ⟨-, hs⟩ := ite_none_right_eq_some.mp hs
    refine some.inj hs ▸ hupdate s i _ rfl ?_
    rintro rfl
    exact NodeState.Blocked.execute hj hstuck h.2 h.1
  | rfwd x =>
    obtain ⟨-, hs⟩ := ite_none_right_eq_some.mp hs
    refine some.inj hs ▸ hupdate _ x.dest _ rfl ?_
    rintro rfl
    rw [processRfwd]
    split
    · exact NodeState.Blocked.execute hj hstuck h.2 h.1
    · exact h

end Stuck

/-! ## Phases that come back -/

section Back

variable {C : Config} {s s' : State} {a : Action} {i j : ℕ} {m : Man} {n : NodeState}

/-- **How a node is doing**: it waits for the transaction and counts messages, it has run and waits
for more of them, or it is done. -/
inductive NodeInv (C : Config) (j : ℕ) (n : NodeState) : Prop where
  /-- the transaction has not been taken by a worker -/
  | waiting (stage : n.stage ≠ .run) (phase : (n.man.getD .new).phase = .RW_ANALYSIS)
      (rc : (n.man.getD .new).rc = .RCOK) (count : (n.man.getD .new).rspCnt = n.received.length)
      (writes : n.writes = []) (wrapups : n.wrapups = 0)
  /-- it waits for the reads of other nodes -/
  | collecting (m : Man) (stage : n.stage = .run) (man : n.man = some m)
      (phase : m.phase = .COLLECT_RD) (rc : m.rc = .RCOK) (count : m.rspCnt = n.received.length)
      (expected : m.calvinExpectedRspCnt = (C.others j).length)
      (missing : n.received.length ≠ (C.others j).length) (writes : n.writes = [])
      (wrapups : n.wrapups = 0)
  /-- it has written -/
  | done (stage : n.stage = .run) (writes : n.writes = [n.received]) (wrapups : n.wrapups = 1)
      (all : n.received.Perm (C.others j))

theorem NodeInv.inOrder (h : NodeInv C j n) (hlate : n.late = 0) : n.InOrder C j := by
  cases h with
  | waiting _ _ _ _ writes wrapups | collecting m _ _ _ _ _ _ _ writes wrapups =>
    exact ⟨by rw [writes]; exact Nat.zero_le _,
      by rw [writes]; exact fun _ h => absurd h not_mem_nil,
      by rw [wrapups]; exact Nat.zero_le _, hlate⟩
  | done _ writes wrapups all =>
    refine ⟨by rw [writes]; exact le_rfl, ?_, by rw [writes, wrapups]; exact le_rfl, hlate⟩
    rw [writes]
    intro received hmem
    rwa [mem_singleton.mp hmem]

/-- A worker that comes to the end writes once and wraps up. -/
theorem execute_of_done {sends : List ℕ} {m' : Man} (hknown : C.known j = true)
    (hrun : runCalvinTxn C j m = ⟨m', .RCOK, sends, 1, false⟩) (hphase : m'.phase = .DONE)
    (hrc : m'.rc = .RCOK) :
    execute C j m n =
      ({ n with
          man := none, lost := false, writes := n.writes ++ [n.received]
          wrapups := n.wrapups + 1 },
        sends.map fun d => ⟨j, d, .RCOK⟩) := by
  have hdone : m'.calvinExecPhaseDone = true := by rw [Man.calvinExecPhaseDone, hphase, hrc]; rfl
  rw [execute, hrun]
  simp only [hdone, and_self, if_true, calvinWrapup, hknown, hrc, replicate_one]

/-- A worker that has to wait leaves the manager to the next message. -/
theorem execute_of_wait {sends : List ℕ} {m' : Man} {lost : Bool}
    (hrun : runCalvinTxn C j m = ⟨m', .WAIT, sends, 0, lost⟩) (hrc : m'.rc = .RCOK) :
    execute C j m n =
      ({ n with man := some m', lost := lost }, sends.map fun d => ⟨j, d, .RCOK⟩) := by
  rw [execute, hrun]
  simp [hrc]

/-- `process_calvin_rtxn` on a node that was waiting: it sends its reads, and writes if it has all
messages already. -/
theorem processCalvinRtxn_spec (hj : j ∈ C.participants) (hserves : C.Serves j)
    (h : NodeInv C j n) (hstage : n.stage ≠ .run) (hle : n.received.length ≤ (C.others j).length)
    (hperm : n.received.length = (C.others j).length → n.received.Perm (C.others j)) :
    ∃ (n' : NodeState) (sends : List ℕ),
      processCalvinRtxn C j n = (n', sends.map fun d => ⟨j, d, .RCOK⟩) ∧ sends.Perm (C.others j) ∧
      NodeInv C j n' ∧ n'.stage = .run ∧ n'.received = n.received ∧ n'.lost = false ∧
      n'.late = n.late := by
  cases h with
  | collecting m stage | done stage => exact absurd stage hstage
  | waiting _ phase rc count writes wrapups =>
    have hrun := runCalvinTxn_start hj hserves.stuck2 hserves.stuck5 phase rc
    have hrc : (C.analysed j (n.man.getD .new)).rc = .RCOK := rc
    by_cases hall : n.received.length = (C.others j).length
    · rw [if_pos (count.trans hall)] at hrun
      refine ⟨_, _, execute_of_done hserves.known hrun rfl hrc, sendRemoteReads_analysed _, ?_, rfl,
        rfl, rfl, rfl⟩
      exact .done rfl (by rw [writes, nil_append]) (by rw [wrapups]) (hperm hall)
    · rw [if_neg (fun heq => hall (count.symm.trans heq))] at hrun
      refine ⟨_, _, execute_of_wait hrun hrc, sendRemoteReads_analysed _, ?_, rfl, rfl, ?_, rfl⟩
      · exact .collecting _ rfl rfl rfl hrc count rfl hall writes wrapups
      · exact decide_eq_false (by omega)

/-- `process_rfwd` on a node that is not done: it counts the message, and writes if it was the last
one it waited for. -/
theorem processRfwd_spec {x : Rfwd} (hserves : C.Serves x.dest) (hrc : x.rc = .RCOK)
    (h : NodeInv C x.dest n) (hlost : n.lost = false) (hopen : n.wrapups = 0)
    (hperm : n.received.length + 1 = (C.others x.dest).length →
      (n.received ++ [x.src]).Perm (C.others x.dest)) :
    ∃ n' : NodeState, processRfwd C x n = (n', []) ∧ NodeInv C x.dest n' ∧ n'.stage = n.stage ∧
      n'.received = n.received ++ [x.src] ∧ n'.lost = false ∧ n'.late = n.late := by
  have hlen : (n.received ++ [x.src]).length = n.received.length + 1 := by
    rw [length_append, length_singleton]
  have hlate : (if 0 < n.wrapups then n.late + 1 else n.late) = n.late := if_neg (by omega)
  cases h with
  | done _ _ wrapups => exact absurd (wrapups.symm.trans hopen) Nat.one_ne_zero
  | waiting stage phase rc count writes wrapups =>
    have hdone : ((n.man.getD .new).receivedResponse x.rc).calvinCollectPhaseDone = false := by
      rw [Man.calvinCollectPhaseDone, Man.receivedResponse, phase]
      rfl
    rw [processRfwd, if_neg (by rw [hdone]; exact Bool.false_ne_true)]
    refine ⟨_, rfl, ?_, rfl, rfl, hlost, hlate⟩
    refine .waiting stage phase ?_ ?_ writes wrapups
    · show (if (n.man.getD .new).rc = .RCOK then x.rc else _) = _
      rw [if_pos rc, hrc]
    · show (n.man.getD .new).rspCnt + 1 = _
      rw [count, hlen]
  | collecting m stage man phase rc count expected missing writes wrapups =>
    have hman : n.man.getD .new = m := by rw [man]; rfl
    have hphase' : (m.receivedResponse x.rc).phase = .COLLECT_RD := phase
    have hrc' : (m.receivedResponse x.rc).rc = .RCOK := by
      show (if m.rc = .RCOK then x.rc else _) = _
      rw [if_pos rc, hrc]
    have hdone : (m.receivedResponse x.rc).calvinCollectPhaseDone =
        decide (n.received.length + 1 = (C.others x.dest).length) := by
      show (decide (m.phase = _) && decide (m.rspCnt + 1 = m.calvinExpectedRspCnt)) = _
      rw [decide_eq_true phase, Bool.true_and, count, expected]
    rw [processRfwd, hman, hdone]
    by_cases hall : n.received.length + 1 = (C.others x.dest).length
    · rw [if_pos (decide_eq_true hall),
        execute_of_done hserves.known (runCalvinTxn_collect hserves.stuck5 hphase' hrc') rfl hrc']
      refine ⟨_, rfl, .done stage ?_ ?_ (hperm hall), rfl, rfl, rfl, hlate⟩
      · rw [writes, nil_append]
      · rw [wrapups]
    · rw [if_neg (by rw [decide_eq_false hall]; exact Bool.false_ne_true)]
      refine ⟨_, rfl, ?_, rfl, rfl, hlost, hlate⟩
      refine .collecting _ stage rfl phase hrc' ?_ expected ?_ writes wrapups
      · show m.rspCnt + 1 = _
        rw [count, hlen]
      · rw [hlen]
        exact hall

/-- **What holds where the phases come back**: from the moment that a node has run, its message to
each other node is under way or has been received, and only one of the two and only once. -/
structure Inv (C : Config) (s : State) : Prop where
  sent : s.Sent C
  present : ∀ j ∈ C.participants, (s.node j).stage ≠ .absent
  net : ∀ x ∈ s.net, x.dest ∈ C.participants ∧ x.src ∈ C.others x.dest ∧ x.rc = .RCOK
  received : ∀ j ∈ C.participants, (s.node j).received ⊆ C.others j
  count : ∀ j ∈ C.participants, ∀ i ∈ C.others j,
    s.net.count ⟨i, j, .RCOK⟩ + (s.node j).received.count i =
    if (s.node i).stage = .run then 1 else 0
  node : ∀ j ∈ C.participants, NodeInv C j (s.node j)
  lost : ∀ j ∈ C.participants, (s.node j).lost = false
  late : ∀ j ∈ C.participants, (s.node j).late = 0

namespace Inv

theorem init (C : Config) : Inv C (State.init C) where
  sent j hj := by
    by_contra hnot
    exact hj (if_neg hnot)
  present j hj := by
    show (if j ∈ C.participants then Stage.sent else .absent) ≠ .absent
    rw [if_pos hj]
    exact Stage.noConfusion
  net _ hx := absurd hx not_mem_nil
  received _ _ := nil_subset _
  count j hj i hi := by
    show 0 + 0 = if (if i ∈ C.participants then Stage.sent else .absent) = .run then 1 else 0
    rw [if_pos (mem_others.mp hi).2]
    rfl
  node j hj := by
    refine .waiting ?_ rfl rfl rfl rfl rfl
    show (if j ∈ C.participants then Stage.sent else .absent) ≠ .run
    rw [if_pos hj]
    exact Stage.noConfusion
  lost _ _ := rfl
  late _ _ := rfl

theorem count_le_one (h : Inv C s) (hj : j ∈ C.participants) (hi : i ∈ C.others j) :
    s.net.count ⟨i, j, .RCOK⟩ + (s.node j).received.count i ≤ 1 := by
  rw [h.count j hj i hi]
  split
  · exact le_rfl
  · exact Nat.zero_le _

/-- A node receives a message from another node at most once. -/
theorem nodup_received (h : Inv C s) (hj : j ∈ C.participants) : (s.node j).received.Nodup := by
  refine List.nodup_iff_count_le_one.mpr fun i => ?_
  by_cases hi : i ∈ (s.node j).received
  · exact (Nat.le_add_left _ _).trans (h.count_le_one hj (h.received j hj hi))
  · rw [count_eq_zero_of_not_mem hi]
    exact Nat.zero_le _

theorem subperm_received (h : Inv C s) (hj : j ∈ C.participants) :
    (s.node j).received.Subperm (C.others j) :=
  subperm_of_subset (h.nodup_received hj) (h.received j hj)

variable {x : Rfwd}

/-- The messages of a node that has just run. -/
theorem count_sends {sends : List ℕ} {k : ℕ} (hsends : sends.Perm (C.others j))
    (hk : k ∈ C.participants) (hi : i ∈ C.others k) :
    (sends.map fun d => Rfwd.mk j d .RCOK).count ⟨i, k, .RCOK⟩ = if i = j then 1 else 0 := by
  by_cases hij : i = j
  · subst hij
    have hmem : k ∈ sends := hsends.mem_iff.mpr (mem_others.mpr ⟨(mem_others.mp hi).1.symm, hk⟩)
    have hinj : Injective fun d => Rfwd.mk i d .RCOK := fun d d' hd => (Rfwd.mk.inj hd).2.1
    rw [if_pos rfl, count_map_of_injective _ _ hinj,
      count_eq_one_of_mem (hsends.nodup_iff.mpr nodup_others) hmem]
  · rw [if_neg hij]
    refine count_eq_zero_of_not_mem fun hmem => ?_
    obtain ⟨d, -, hd⟩ := List.mem_map.mp hmem
    exact hij (Rfwd.mk.inj hd).1.symm

section

variable (h : Inv C s)

include h

/-- A message under way has not been received. -/
theorem not_mem_received (hx : x ∈ s.net) : x.src ∉ (s.node x.dest).received := by
  obtain ⟨hdest, hsrc, hrc⟩ := h.net x hx
  intro hmem
  have hle := h.count_le_one hdest hsrc
  have hnet : 0 < s.net.count ⟨x.src, x.dest, .RCOK⟩ := List.count_pos_iff.mpr (hrc ▸ hx)
  have hreceived : 0 < (s.node x.dest).received.count x.src := List.count_pos_iff.mpr hmem
  omega

/-- The node of a message under way is not done. -/
theorem wrapups_eq_zero (hx : x ∈ s.net) : (s.node x.dest).wrapups = 0 := by
  obtain ⟨hdest, hsrc, -⟩ := h.net x hx
  cases h.node x.dest hdest with
  | waiting _ _ _ _ _ wrapups | collecting _ _ _ _ _ _ _ _ _ wrapups => exact wrapups
  | done _ _ _ all => exact absurd (all.mem_iff.mpr hsrc) (h.not_mem_received hx)

/-- The invariant of a state in which one node is replaced: the node itself, and the messages. -/
theorem update {n' : NodeState} {net : List Rfwd} (hj : j ∈ C.participants)
    (hstage : n'.stage ≠ .absent) (hnode : NodeInv C j n') (hlost : n'.lost = false)
    (hlate : n'.late = 0) (hreceived : n'.received ⊆ C.others j)
    (hnet : ∀ x ∈ net, x.dest ∈ C.participants ∧ x.src ∈ C.others x.dest ∧ x.rc = .RCOK)
    (hcount : ∀ k ∈ C.participants, ∀ i ∈ C.others k, net.count ⟨i, k, .RCOK⟩ +
      (Function.update s.node j n' k).received.count i =
      if (Function.update s.node j n' i).stage = .run then 1 else 0) :
    Inv C ⟨Function.update s.node j n', net⟩ := by
  have hcases : ∀ (P : ℕ → NodeState → Prop), P j n' → (∀ k ∈ C.participants, P k (s.node k)) →
      ∀ k ∈ C.participants, P k (Function.update s.node j n' k) := by
    intro P hself hother k hk
    by_cases hkj : k = j
    · subst hkj
      rwa [update_self]
    · rw [update_of_ne hkj]
      exact hother k hk
  refine ⟨fun k hk => ?_, ?_, hnet, ?_, hcount, ?_, ?_, ?_⟩
  · by_cases hkj : k = j
    · exact hkj ▸ hj
    · refine h.sent k ?_
      rwa [show (⟨Function.update s.node j n', net⟩ : State).node k = s.node k from
        update_of_ne hkj _ _] at hk
  · exact hcases (fun _ n => n.stage ≠ .absent) hstage h.present
  · exact hcases (fun k n => n.received ⊆ C.others k) hreceived h.received
  · exact hcases (fun k n => NodeInv C k n) hnode h.node
  · exact hcases (fun _ n => n.lost = false) hlost h.lost
  · exact hcases (fun _ n => n.late = 0) hlate h.late

/-- The scheduler takes the transaction. -/
theorem schedule (hstage : (s.node j).stage = .sent) :
    Inv C (s.update j (schedule (s.node j), [])) := by
  have hj : j ∈ C.participants := h.sent j (by simp [hstage])
  rw [State.update, append_nil]
  refine h.update hj Stage.noConfusion ?_ (h.lost j hj) (h.late j hj) (h.received j hj) h.net ?_
  · cases h.node j hj with
    | waiting _ phase rc count writes wrapups =>
      exact .waiting Stage.noConfusion phase rc count writes wrapups
    | collecting m stage | done stage => exact Stage.noConfusion (hstage.symm.trans stage)
  · intro k hk i hi
    have hrun : ((Function.update s.node j (CalvinWrites.schedule (s.node j)) i).stage = .run) =
        ((s.node i).stage = .run) :=
      update_congr (·.stage = .run) (by simp [CalvinWrites.schedule, hstage]) i
    rw [update_congr NodeState.received (by rfl), h.count k hk i hi]
    simp only [hrun]

section

variable (hserves : ∀ j ∈ C.participants, C.Serves j)

include hserves

/-- A worker takes the transaction. -/
theorem rtxn (hstage : (s.node j).stage = .ready) :
    Inv C (s.update j (processCalvinRtxn C j (s.node j))) := by
  have hne : (s.node j).stage ≠ .run := by rw [hstage]; exact Stage.noConfusion
  have hj : j ∈ C.participants := h.sent j (by simp [hstage])
  have hsub := h.subperm_received hj
  obtain ⟨n', sends, hrun, hsends, hnode, hstage', hreceived, hlost, hlate⟩ :=
    processCalvinRtxn_spec hj (hserves j hj) (h.node j hj) hne hsub.length_le
      fun hlen => hsub.perm_of_length_le hlen.ge
  rw [hrun, State.update]
  refine h.update hj (by rw [hstage']; exact Stage.noConfusion) hnode hlost
    (hlate.trans (h.late j hj)) (hreceived ▸ h.received j hj) ?_ ?_
  · intro x hx
    rcases mem_append.mp hx with hx | hx
    · exact h.net x hx
    · obtain ⟨d, hd, rfl⟩ := List.mem_map.mp hx
      obtain ⟨hdj, hd⟩ := mem_others.mp (hsends.mem_iff.mp hd)
      exact ⟨hd, mem_others.mpr ⟨hdj.symm, hj⟩, rfl⟩
  · intro k hk i hi
    have hcount := h.count k hk i hi
    rw [count_append, count_sends hsends hk hi, update_congr NodeState.received hreceived]
    by_cases hij : i = j
    · subst hij
      rw [if_neg hne] at hcount
      rw [update_self, if_pos hstage', if_pos rfl]
      omega
    · rw [update_of_ne hij, if_neg hij]
      exact hcount

/-- A worker takes a message. -/
theorem rfwd (hx : x ∈ s.net) :
    Inv C
      (State.update { s with net := s.net.erase x } x.dest (processRfwd C x (s.node x.dest))) := by
  obtain ⟨hdest, hsrc, hrc⟩ := h.net x hx
  have hnew := h.not_mem_received hx
  have hsub : ((s.node x.dest).received ++ [x.src]).Subperm (C.others x.dest) := by
    refine subperm_of_subset ?_ (List.append_subset.mpr ⟨h.received _ hdest, ?_⟩)
    · refine nodup_append.mpr ⟨h.nodup_received hdest, nodup_singleton _, fun i hi k hk => ?_⟩
      rw [mem_singleton.mp hk]
      exact fun heq => hnew (heq ▸ hi)
    · exact fun i hi => mem_singleton.mp hi ▸ hsrc
  obtain ⟨n', hrun, hnode, hstage, hreceived, hlost, hlate⟩ :=
    processRfwd_spec (hserves _ hdest) hrc (h.node _ hdest) (h.lost _ hdest) (h.wrapups_eq_zero hx)
      fun hlen => hsub.perm_of_length_le (by rw [length_append, length_singleton]; exact hlen.ge)
  rw [hrun, State.update, append_nil]
  refine h.update hdest (hstage ▸ h.present _ hdest) hnode hlost (hlate.trans (h.late _ hdest))
    (hreceived ▸ hsub.subset) (fun y hy => h.net y (mem_of_mem_erase hy)) ?_
  intro k hk i hi
  have hcount := h.count k hk i hi
  rw [update_congr NodeState.stage hstage, ← hcount, count_erase]
  -- what is gone from the network has been received
  by_cases hxk : x = ⟨i, k, .RCOK⟩
  · have hpos : 0 < s.net.count ⟨i, k, .RCOK⟩ := List.count_pos_iff.mpr (hxk ▸ hx)
    have hk' : x.dest = k := by rw [hxk]
    have hi' : x.src = i := by rw [hxk]
    rw [if_pos (by rw [hxk, beq_self_eq_true]), ← hk', update_self, hreceived, count_append, hi',
      count_singleton_self, ← hi']
    subst hk' hi'
    omega
  · rw [if_neg (fun heq => hxk (eq_of_beq heq)), Nat.sub_zero]
    by_cases hkx : k = x.dest
    · subst hkx
      have hne : x.src ≠ i := fun heq => hxk (by rw [← heq, ← hrc])
      rw [update_self, hreceived, count_append, count_singleton, if_neg (by simpa using hne),
        Nat.add_zero]
    · rw [update_of_ne hkx]

theorem step (hs : step C s a = some s') : Inv C s' := by
  cases a with
  | schedule j =>
    obtain ⟨hstage, hs⟩ := ite_none_right_eq_some.mp hs
    exact some.inj hs ▸ h.schedule hstage
  | rtxn j =>
    obtain ⟨⟨hstage, -⟩, hs⟩ := ite_none_right_eq_some.mp hs
    exact some.inj hs ▸ h.rtxn hserves hstage
  | rfwd x =>
    obtain ⟨⟨hx, -⟩, hs⟩ := ite_none_right_eq_some.mp hs
    exact some.inj hs ▸ h.rfwd hserves hx

end

/-- **At the end every node is done**: all have run and nothing is under way, so each has a message
from every other. -/
theorem final (hfinal : s.Final C) (hj : j ∈ C.participants) :
    (s.node j).writes.length = 1 ∧ (s.node j).wrapups = 1 := by
  have hrun : ∀ i ∈ C.participants, (s.node i).stage = .run := by
    intro i hi
    cases hstage : (s.node i).stage with
    | absent => exact absurd hstage (h.present i hi)
    | sent => exact absurd (hfinal (.schedule i)) (by simp [CalvinWrites.step, hstage])
    | ready => exact absurd (hfinal (.rtxn i)) (by simp [CalvinWrites.step, hstage, h.lost i hi])
    | run => rfl
  have hnet : s.net = [] := by
    refine List.eq_nil_iff_forall_not_mem.mpr fun x hx => ?_
    exact absurd (hfinal (.rfwd x)) (by simp [CalvinWrites.step, hx, h.lost _ (h.net x hx).1])
  have hall : C.others j ⊆ (s.node j).received := by
    intro i hi
    have hcount := h.count j hj i hi
    rw [hnet, count_nil, Nat.zero_add, if_pos (hrun i (mem_others.mp hi).2)] at hcount
    exact List.count_pos_iff.mp (by omega)
  cases h.node j hj with
  | waiting stage => exact absurd (hrun j hj) stage
  | collecting m _ _ _ _ _ _ missing =>
    have hle := (subperm_of_subset nodup_others hall).length_le
    exact absurd (le_antisymm (h.subperm_received hj).length_le hle) missing
  | done _ writes wrapups => exact ⟨by rw [writes]; rfl, wrapups⟩

end

end Inv

end Back

theorem sent_of_reachable {C : Config} {s : State} (hs : (machine C).Reachable s) : s.Sent C :=
  hs.invariant (Inv.init C).sent fun _ _ _ h hstep => h.step hstep

/-- A node that does not serve the transaction never comes to `calvin_wrapup`, though every run
comes to its end. -/
theorem not_writesOnce_of_stuck {C : Config} {j : ℕ} (hj : j ∈ C.participants)
    (hserves : ¬ C.Serves j) : ¬ WritesOnce C := by
  intro h
  obtain ⟨as, s, hrun, hfinal⟩ := exists_final (sent_of_reachable Machine.Reachable.init)
  have hs : (machine C).Reachable s := Machine.Reachable.init.runFrom hrun
  have hblocked : (s.node j).Blocked C j :=
    hs.invariant (P := fun s => (s.node j).Blocked C j)
      ⟨rfl, Phase.noConfusion, fun hne => absurd rfl hne, fun _ => .inl rfl⟩
      fun _ _ _ h hstep => h.step hj (Config.stuck_of_not_serves hj hserves) hstep
  have hdone := ((h s hs).2.2 hfinal j hj).2
  exact absurd (hblocked.1.symm.trans hdone) Nat.zero_ne_one

/-- **When the write phase runs once, after all remote reads.** For every query and number of nodes,
and every order of the messages: exactly if each node of the transaction serves it. The calls of the
framework have to come back in the phases that access rows, for which it has to know the
transaction, and the node of a new order must not supply one of its items. -/
theorem writesOnce_iff (C : Config) : WritesOnce C ↔ ∀ j ∈ C.participants, C.Serves j := by
  constructor
  · intro h j hj
    by_contra hserves
    exact not_writesOnce_of_stuck hj hserves h
  · intro hserves s hs
    have hinv : Inv C s :=
      hs.invariant (Inv.init C) fun _ _ _ h hstep => h.step hserves hstep
    exact ⟨fun j hj => (hinv.node j hj).inOrder (hinv.late j hj),
      exists_final (sent_of_reachable hs), fun hfinal j hj => hinv.final hfinal hj⟩

/-- A payment on the only node, with frameworks in which nothing is registered, as they are under
Calvin. -/
def localPayment : Config where
  N := ⟨1, 1⟩
  nodeCnt_pos := Nat.one_pos
  query := .payment 1 1
  txnId := 0
  registry := .init
  back _ _ := false
  back_known _ _ h := absurd h Bool.false_ne_true

/-- **The payment never ends**: its worker is in the write phase, where it looks for the framework's
transaction. -/
theorem not_writesOnce_localPayment : (∃ s ∈ (machine localPayment).run [.schedule 0, .rtxn 0],
      (s.node 0).writes = [[]] ∧ (s.node 0).lost = true ∧ (s.node 0).wrapups = 0) ∧
    ¬ WritesOnce localPayment := by
  have hmem : 0 ∈ localPayment.participants := mem_participants.mpr (by decide +kernel)
  refine ⟨⟨_, rfl, ?_⟩, not_writesOnce_of_stuck hmem fun h => ?_⟩
  · decide +kernel
  · exact absurd h.writes Bool.false_ne_true

end CalvinWrites

end Deneva
