import Deneva.Transition
import Deneva.Types
import Deneva.OrderedSet
import Deneva.EpochMerge

/-!
# Calvin's sequencers and schedulers (`sequencer.cpp`, `work_queue.cpp`, `calvin_thread.cpp`)

Every server node runs one sequencer thread and one scheduler thread.

* The sequencer numbers the transactions of its clients (`processTxn`) and collects them in one fill
  queue per participant. When the batch time is over it advances the epoch and empties the fill
  queues towards all nodes, an `RDONE` message after each (`sendNext` is one message of
  `send_next_batch`).
* The scheduler has one queue per sequencer and takes them in turn (`schedDequeue`): `RDONE` moves
  it to the next queue, and after the last one to the next epoch.

A node's sequencer sends to the node itself through memory and to the others through the network,
of which only the order of the messages from one sequencer to one node is assumed: `net i j` is the
list of those under way.

The ids of a batch are computed in 32 bits and can repeat in a long batch, so that a transaction is
known by its position in the batch, which the source does not keep (`SeqTxn.position`). An assertion
that fails is `none`, and so is a push to a full fill queue, which spins: only the spinning thread
could make room. Histories that the source does not keep are marked as such.
-/

namespace Deneva

universe u

open Function

namespace Calvin

/-- The constants of a run (`g_node_cnt`, `g_client_node_cnt`, `g_inflight_max`) and the nodes that
a query reads or writes at, as `YCSBQuery::participants` and its siblings compute them. -/
structure Config (Q : Type u) where
  nodeCnt : ℕ
  clientNodeCnt : ℕ
  inflightMax : ℕ
  /-- the participants of a query -/
  participants : Q → OrderedSet ℕ

/-- A `CL_QRY` message after the sequencer has written its own fields into it. -/
structure SeqTxn (Q : Type u) where
  /-- the epoch of the batch -/
  batchId : ℕ
  /-- the id within the batch, in steps of the number of nodes, in 32 bits -/
  txnId : ℕ
  /-- the node of the sequencer -/
  returnNodeId : ℕ
  /-- what the client asked for -/
  query : Q
  /-- the position in the batch (a history) -/
  position : ℕ
  deriving DecidableEq

/-- The messages that sequencers send to schedulers. -/
inductive SchedMsg (Q : Type u) where
  /-- a transaction -/
  | CL_QRY (t : SeqTxn Q)
  /-- the end of a sequencer's batch -/
  | RDONE (batchId returnNodeId : ℕ)
  deriving DecidableEq

/-- `msg->return_node_id`. -/
def SchedMsg.returnNodeId {Q : Type u} : SchedMsg Q → ℕ
  | CL_QRY t => t.returnNodeId
  | RDONE _ i => i

/-- `qlite`: who waits for a transaction and how many nodes have not acknowledged it. -/
structure Qlite where
  /-- the client -/
  clientId : ℕ
  /-- the acknowledgements that are missing -/
  serverAckCnt : ℕ
  deriving DecidableEq

/-- `qlite_ll`: the wait list of one epoch. -/
structure QliteLl where
  /-- the epoch of the batch -/
  epoch : ℕ
  /-- the number of transactions in it -/
  size : ℕ
  /-- those that are not finished -/
  txnsLeft : ℕ
  /-- the entry of each transaction, by its position in the batch -/
  list : ℕ → Qlite

/-! ## Wait lists -/

/-- `qlite_ll` with the room its array has. -/
structure WaitList : Type extends QliteLl where
  maxSize : ℕ

/-- A wait list as `process_txn` allocates it. -/
def WaitList.new (epoch : ℕ) : WaitList := ⟨⟨epoch, 0, 0, fun _ => ⟨0, 0⟩⟩, 1000⟩

/-- The reallocation of `process_txn`. -/
def WaitList.grow (en : WaitList) : WaitList :=
  if en.size = en.maxSize then { en with maxSize := en.maxSize * 2 % 2 ^ 32 } else en

/-- The entry of a query and the counters of its list. -/
def WaitList.add (en : WaitList) (id client acks : ℕ) : WaitList :=
  { en with
    list := update en.list id ⟨client, acks⟩
    size := en.size + 1
    txnsLeft := (en.txnsLeft + 1) % 2 ^ 32 }

/-- One acknowledgement less; without missing ones a transaction less. -/
def WaitList.ack (en : WaitList) (id : ℕ) : WaitList :=
  let left := (en.list id).serverAckCnt - 1
  { en with
    list := update en.list id { en.list id with serverAckCnt := left }
    txnsLeft := if left = 0 then en.txnsLeft - 1 else en.txnsLeft }

/-- The wait list of the open batch, `wl_tail` if it is that, with those before it. -/
def openBatch (seqEpoch : ℕ) (waitLists : List WaitList) : List WaitList × WaitList :=
  match waitLists.getLast? with
  | some en =>
    if en.epoch = seqEpoch + 1 then (waitLists.dropLast, en)
    else (waitLists, WaitList.new (seqEpoch + 1))
  | none => (waitLists, WaitList.new (seqEpoch + 1))

/-- The search of `process_ack` for the wait list of the acknowledged batch and what it does there,
with the client that gets a response. A finished list goes; `none` is a failed assertion. -/
def ack (batchId id : ℕ) : List WaitList → Option (List WaitList × Option ℕ)
  | [] => none
  | en :: rest =>
    if en.epoch = batchId then
      if 0 < en.txnsLeft ∧ 0 < (en.list id).serverAckCnt then
        some (if (en.ack id).txnsLeft = 0 then rest else en.ack id :: rest,
          if (en.list id).serverAckCnt = 1 then some (en.list id).clientId else none)
      else none
    else (ack batchId id rest).map fun x => (en :: x.1, x.2)

/-- `g_node_id + g_node_cnt * next_txn_id`, in 32 bits. -/
def txnIdOf (nodeId nodeCnt nextTxnId : ℕ) : ℕ := (nodeId + nodeCnt * nextTxnId % 2 ^ 32) % 2 ^ 32

/-! ## The sequencer -/

/-- `Sequencer`, with the sequencer epoch of `SimManager`. -/
structure Sequencer (Q : Type u) where
  /-- `seq_epoch`: the last batch that was sent, or is being sent -/
  seqEpoch : ℕ
  nextTxnId : ℕ
  /-- the wait lists from `wl_head` to `wl_tail` -/
  waitLists : List WaitList
  /-- the transactions of the open batch, by participant -/
  fillQueue : ℕ → List (SeqTxn Q)
  /-- where the loop of `send_next_batch` is, if the thread is in it -/
  sending : Option ℕ
  /-- all transactions that were numbered (a history) -/
  sequenced : List (SeqTxn Q)

/-- The capacity of a fill queue. -/
def fillCapacity : ℕ := 65526

namespace Sequencer

variable {Q : Type u}

/-- `Sequencer::init`. -/
def init : Sequencer Q := ⟨0, 0, [], fun _ => [], none, []⟩

/-- The transactions that were numbered for an epoch. -/
def batch (s : Sequencer Q) (e : ℕ) : List (SeqTxn Q) := s.sequenced.filter fun t => t.batchId = e

/-- The message of `process_txn` goes to the fill queue of each participant. -/
def fill (t : SeqTxn Q) (ps : List ℕ) (queue : ℕ → List (SeqTxn Q)) : ℕ → List (SeqTxn Q) :=
  ps.foldl (fun q p => update q p (q p ++ [t])) queue

/-- `Sequencer::process_txn` on node `i`, for a query of a client. -/
def processTxn (C : Config Q) (i client : ℕ) (q : Q) (s : Sequencer Q) : Option (Sequencer Q) :=
  let wl := openBatch s.seqEpoch s.waitLists
  let txnId := txnIdOf i C.nodeCnt s.nextTxnId
  let ps := (C.participants q).toList
  let en := wl.2.grow.add (txnId / C.nodeCnt) client ps.length
  let t : SeqTxn Q := ⟨s.seqEpoch + 1, txnId, i, q, (s.batch (s.seqEpoch + 1)).length⟩
  if txnId ≠ UINT64_MAX ∧ 0 < ps.length ∧ C.nodeCnt ≤ client ∧
    client < C.nodeCnt + C.clientNodeCnt ∧
      en.size = en.txnsLeft ∧ en.size ≤ C.inflightMax * C.nodeCnt ∧
      (∀ p ∈ ps, (s.fillQueue p).length < fillCapacity) then
    some { s with
      nextTxnId := (s.nextTxnId + 1) % 2 ^ 32
      waitLists := wl.1 ++ [en]
      fillQueue := fill t ps s.fillQueue
      sequenced := s.sequenced ++ [t] }
  else none

/-- `Sequencer::process_ack`. Where it submits a transaction again (reconnaissance of PPS), that is
a `processTxn` of its own. -/
def processAck (C : Config Q) (batchId txnId : ℕ) (s : Sequencer Q) : Option (Sequencer Q) :=
  (ack batchId (txnId / C.nodeCnt) s.waitLists).map fun x => { s with waitLists := x.1 }

/-- `advance_seq_epoch`, after which the thread enters `send_next_batch`. -/
def advanceSeqEpoch (s : Sequencer Q) : Sequencer Q :=
  { s with seqEpoch := s.seqEpoch + 1, sending := some 0 }

/-- One message of the loop of `send_next_batch` on node `i`, with its destination: the next one of
the fill queue, or `RDONE` when that is empty. After the last node `next_txn_id` starts again. -/
def sendNext (C : Config Q) (i : ℕ) (s : Sequencer Q) : Option (Sequencer Q × ℕ × SchedMsg Q) :=
  s.sending.map fun j =>
    match s.fillQueue j with
    | t :: ts => ({ s with fillQueue := update s.fillQueue j ts }, j, .CL_QRY t)
    | [] =>
      (if j + 1 < C.nodeCnt then { s with sending := some (j + 1) }
        else { s with sending := none, nextTxnId := 0 }, j, .RDONE s.seqEpoch i)

end Sequencer

/-! ## The scheduler -/

/-- The scheduler's part of `QWorkQueue`, with the worker epoch of `SimManager`. -/
structure Scheduler (Q : Type u) where
  /-- `sched_queue`: one queue per sequencer -/
  schedQueue : ℕ → List (SchedMsg Q)
  /-- `sched_ptr`: the sequencer whose queue is next -/
  schedPtr : ℕ
  workerEpoch : ℕ
  /-- all transactions that `sched_dequeue` returned, in order (a history) -/
  returned : List (SeqTxn Q)

namespace Scheduler

variable {Q : Type u}

/-- `QWorkQueue::init` and `SimManager::init`. -/
def init : Scheduler Q := ⟨fun _ => [], 0, 1, []⟩

/-- `QWorkQueue::sched_enqueue`. -/
def schedEnqueue (C : Config Q) (m : SchedMsg Q) (s : Scheduler Q) : Option (Scheduler Q) :=
  if m.returnNodeId < C.nodeCnt then
    some { s with
      schedQueue := update s.schedQueue m.returnNodeId (s.schedQueue m.returnNodeId ++ [m]) }
  else none

/-- `QWorkQueue::sched_dequeue`, with what it returns. -/
def schedDequeue (C : Config Q) (s : Scheduler Q) : Option (Scheduler Q × Option (SeqTxn Q)) :=
  match s.schedQueue s.schedPtr with
  | [] => some (s, none)
  | .RDONE batchId _ :: rest =>
    if batchId = s.workerEpoch then
      some ({ s with
        schedQueue := update s.schedQueue s.schedPtr rest
        workerEpoch := if s.schedPtr = C.nodeCnt - 1 then s.workerEpoch + 1 else s.workerEpoch
        schedPtr := (s.schedPtr + 1) % C.nodeCnt }, none)
    else none
  | .CL_QRY t :: rest =>
    if t.batchId = s.workerEpoch then
      some ({ s with
        schedQueue := update s.schedQueue s.schedPtr rest
        returned := s.returned ++ [t] }, some t)
    else none

end Scheduler

/-! ## All nodes -/

/-- The sequencers and schedulers of all nodes, and the messages under way between them. -/
structure State (Q : Type u) where
  /-- the sequencer of each node -/
  seq : ℕ → Sequencer Q
  /-- the scheduler of each node -/
  sched : ℕ → Scheduler Q
  /-- the messages from a sequencer to another node, in the order sent -/
  net : ℕ → ℕ → List (SchedMsg Q)

/-- What the threads and the network do. -/
inductive Action (Q : Type u) where
  /-- the sequencer of node `i` handles a query of a client -/
  | processTxn (i client : ℕ) (q : Q)
  /-- the sequencer of node `i` handles an acknowledgement -/
  | processAck (i batchId txnId : ℕ)
  /-- the batch time of node `i` is over -/
  | advanceSeqEpoch (i : ℕ)
  /-- the sequencer of node `i` sends the next message of its batch -/
  | sendNext (i : ℕ)
  /-- the oldest message from `i` arrives at `j` -/
  | deliver (i j : ℕ)
  /-- the scheduler of node `j` calls `sched_dequeue` -/
  | schedDequeue (j : ℕ)
  deriving DecidableEq

section Step

variable {Q : Type u} (C : Config Q)

/-- A message of node `i` on its way: to the node's own scheduler at once. -/
def send (i j : ℕ) (m : SchedMsg Q) (s : State Q) : Option (State Q) :=
  if j = i then
    ((s.sched i).schedEnqueue C m).map fun x => { s with sched := update s.sched i x }
  else
    some { s with net := update s.net i (update (s.net i) j (s.net i j ++ [m])) }

/-- One step. The thread that sends a batch does nothing else. -/
def step (s : State Q) : Action Q → Option (State Q)
  | .processTxn i client q =>
    if i < C.nodeCnt ∧ (s.seq i).sending = none then
      ((s.seq i).processTxn C i client q).map fun x => { s with seq := update s.seq i x }
    else none
  | .processAck i batchId txnId =>
    if i < C.nodeCnt ∧ (s.seq i).sending = none then
      ((s.seq i).processAck C batchId txnId).map fun x => { s with seq := update s.seq i x }
    else none
  | .advanceSeqEpoch i =>
    if i < C.nodeCnt ∧ (s.seq i).sending = none then
      some { s with seq := update s.seq i (s.seq i).advanceSeqEpoch }
    else none
  | .sendNext i =>
    if i < C.nodeCnt then
      ((s.seq i).sendNext C i).bind fun x =>
        send C i x.2.1 x.2.2 { s with seq := update s.seq i x.1 }
    else none
  | .deliver i j =>
    if i < C.nodeCnt ∧ j < C.nodeCnt then
      match s.net i j with
      | [] => none
      | m :: rest =>
        ((s.sched j).schedEnqueue C m).map fun x =>
          { s with
            sched := update s.sched j x
            net := update s.net i (update (s.net i) j rest) }
    else none
  | .schedDequeue j =>
    if j < C.nodeCnt then
      ((s.sched j).schedDequeue C).map fun x => { s with sched := update s.sched j x.1 }
    else none

/-- The cluster. -/
def machine : Machine (State Q) (Action Q) where
  init := ⟨fun _ => Sequencer.init, fun _ => Scheduler.init, fun _ _ => []⟩
  step := step C

end Step

end Calvin

end Deneva
