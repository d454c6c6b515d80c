import Deneva.Sequencer
import Deneva.Ycsb
import Deneva.Tpcc

/-!
# The wait lists of a Calvin sequencer (`Sequencer::process_txn`, `process_ack`, `send_next_batch`)

The sequencer thread of one node keeps, per epoch, a list with one entry per transaction: who asked
for it and how many nodes have still to acknowledge it. Transactions are numbered anew in every
batch, in steps of the number of nodes, and the number divided by that step is the position of the
entry. Several batches are open at once.

Here the widths of the integers matter: `g_node_id`, `g_node_cnt` and `next_txn_id` have 32 bits,
and so has the number that `process_txn` computes from them before it is widened to a `txnid_t`.
`max_size` and `txns_left` have 32 bits too.

* `State` is the thread's state with the histories of the queries, of the acknowledgements and of
  the responses; `Accounted` is what the accounting is for.
* `Inv` adds what carries it through a run: the batches are segments of the history of queries, and
  the position of an entry is the position of its query in the segment.
-/

namespace Deneva

open Function List Option

namespace SequencerAcks

open Calvin (Qlite QliteLl WaitList)
open Protocol (Cluster)

/-- The constants of a run. -/
structure Config where
  /-- `g_node_cnt` and `g_part_cnt` -/
  N : Cluster
  nodeId : ℕ
  clientNodeCnt : ℕ
  inflightMax : ℕ
  /-- the node is one of them -/
  nodeId_lt : nodeId < N.nodeCnt
  /-- `g_node_cnt` has 32 bits -/
  nodeCnt_lt : N.nodeCnt < 2 ^ 32

/-- What the sequencer reads of a client's query. -/
inductive Query : Type where
  /-- the keys of the requests of a YCSB query -/
  | ycsb (keys : List ℕ)
  /-- the warehouses of a payment -/
  | payment (wId cWId : ℕ)
  /-- the warehouses of a new order -/
  | newOrder (wId : ℕ) (supplyWIds : List ℕ)
  deriving DecidableEq

/-- `YCSBQuery::participants` and `TPCCQuery::participants`. -/
def Query.participants (N : Cluster) : Query → OrderedSet ℕ
  | ycsb keys => keys.foldl (fun s key => s.insert (N.getNodeId (Ycsb.keyToPart N key))) ∅
  | payment wId cWId => ((∅ : OrderedSet ℕ).insert (Tpcc.nodeOf N wId)).insert (Tpcc.nodeOf N cWId)
  | newOrder wId supplyWIds =>
    supplyWIds.foldl (fun s wId => s.insert (Tpcc.nodeOf N wId))
      ((∅ : OrderedSet ℕ).insert (Tpcc.nodeOf N wId))

/-- A query that the sequencer has numbered (a history). -/
structure Txn where
  /-- the epoch of its batch -/
  batchId : ℕ
  /-- its number within the batch, as the messages about it carry it -/
  txnId : ℕ
  /-- the client that sent it -/
  client : ℕ
  /-- the nodes it is sent to -/
  participants : List ℕ
  deriving DecidableEq

/-- `Sequencer`, with the sequencer epoch of `SimManager`. -/
structure State where
  seqEpoch : ℕ
  nextTxnId : ℕ
  /-- the wait lists from `wl_head` to `wl_tail` -/
  waitLists : List WaitList
  /-- an assertion has failed -/
  failed : Bool
  /-- the queries so far (a history) -/
  txns : List Txn
  /-- the nodes that have acknowledged a query, by its place among the queries (a history) -/
  acked : ℕ → List ℕ
  /-- the `CL_RSP` messages so far, with the query whose acknowledgement led to it and the client it
  is addressed to (a history) -/
  responses : List (ℕ × ℕ)

/-- `Sequencer::init`. -/
def State.init : State := ⟨0, 0, [], false, [], fun _ => [], []⟩

/-- Every participant of the query has acknowledged it. -/
def State.Finished (s : State) (n : ℕ) (t : Txn) : Prop := ∀ p ∈ t.participants, p ∈ s.acked n

instance (s : State) (n : ℕ) (t : Txn) : Decidable (s.Finished n t) := by
  unfold State.Finished; infer_instance

/-! ## The sequencer -/

/-- The wait list of the open batch, with those before it. -/
def State.openBatch (s : State) : List WaitList × WaitList :=
  Calvin.openBatch s.seqEpoch s.waitLists

/-- The number that the next query gets. -/
def txnIdOf (C : Config) (nextTxnId : ℕ) : ℕ := Calvin.txnIdOf C.nodeId C.N.nodeCnt nextTxnId

/-- `Sequencer::process_txn` for a query of a client. It does not get through for a query without
participants, a sender that is not a client, or more transactions than may be in flight. -/
def processTxn (C : Config) (client : ℕ) (q : Query) (s : State) : Option State :=
  let txnId := txnIdOf C s.nextTxnId
  let ps := (q.participants C.N).toList
  let en := s.openBatch.2.grow.add (txnId / C.N.nodeCnt) client ps.length
  if 0 < ps.length ∧ C.N.nodeCnt ≤ client ∧ client < C.N.nodeCnt + C.clientNodeCnt ∧
      en.size ≤ C.inflightMax * C.N.nodeCnt then
    some { s with
      nextTxnId := (s.nextTxnId + 1) % 2 ^ 32
      waitLists := s.openBatch.1 ++ [en]
      failed := decide (en.size ≠ en.txnsLeft)
      txns := s.txns ++ [⟨en.epoch, txnId, client, ps⟩] }
  else none

/-- `advance_seq_epoch` and `send_next_batch`, after which the numbers start again. -/
def sendNextBatch (s : State) : State := { s with seqEpoch := s.seqEpoch + 1, nextTxnId := 0 }

/-- `Sequencer::process_ack`, for the acknowledgement of query `n` by node `p`. -/
def processAck (C : Config) (n p : ℕ) (t : Txn) (s : State) : State :=
  let s' := { s with acked := update s.acked n (p :: s.acked n) }
  match Calvin.ack t.batchId (t.txnId / C.N.nodeCnt) s.waitLists with
  | none => { s' with failed := true }
  | some (wl, rsp) =>
    { s' with
      waitLists := wl
      responses := s.responses ++ (rsp.map fun client => (n, client)).toList }

/-- What the thread does. -/
inductive Action : Type where
  /-- a query arrives -/
  | processTxn (client : ℕ) (q : Query)
  /-- the batch time is over -/
  | sendNextBatch
  /-- the acknowledgement of a query by a node arrives -/
  | processAck (n p : ℕ)
  deriving DecidableEq

/-- One step. A node acknowledges a query that was sent to it, and only once. -/
def step (C : Config) (s : State) : Action → Option State
  | .processTxn client q => if s.failed then none else processTxn C client q s
  | .sendNextBatch => if s.failed then none else some (sendNextBatch s)
  | .processAck n p =>
    if s.failed then none
    else s.txns[n]?.bind fun t =>
      if t.batchId ≤ s.seqEpoch ∧ p ∈ t.participants ∧ p ∉ s.acked n then
        some (processAck C n p t s)
      else none

/-- The sequencer thread. -/
def machine (C : Config) : Machine State Action where
  init := State.init
  step := step C

/-! ## What the accounting is for -/

/-- **The accounting is right**: no assertion has failed; the search for the batch of an unfinished
query finds a list whose entry for it has its client and the acknowledgements it misses; entries are
within the array and no two queries of a batch share one; a query has got its response, one and to
its own client, exactly if it is finished; and the batches in the list are those with unfinished
queries. -/
structure Accounted (C : Config) (s : State) : Prop where
  ok : s.failed = false
  entry : ∀ n t, s.txns[n]? = some t → ¬ s.Finished n t →
    ∃ en, s.waitLists.find? (fun en => en.epoch = t.batchId) = some en ∧
      en.list (t.txnId / C.N.nodeCnt) = ⟨t.client, t.participants.length - (s.acked n).length⟩ ∧
      (s.acked n).length < t.participants.length ∧ 0 < en.txnsLeft
  bound : ∀ en ∈ s.waitLists, ∀ t ∈ s.txns, t.batchId = en.epoch →
    t.txnId / C.N.nodeCnt < en.maxSize
  own : ∀ (n m : ℕ) (t u : Txn), s.txns[n]? = some t → s.txns[m]? = some u → t.batchId = u.batchId →
    t.txnId / C.N.nodeCnt = u.txnId / C.N.nodeCnt → n = m
  responses : ∀ n t, s.txns[n]? = some t →
    s.responses.filter (fun r => r.1 = n) = if s.Finished n t then [(n, t.client)] else []
  listed : ∀ e, (∃ en ∈ s.waitLists, en.epoch = e) ↔
    ∃ n t, s.txns[n]? = some t ∧ t.batchId = e ∧ ¬ s.Finished n t

/-- The number that a query gets fits in 32 bits, and so does the room for its entry. -/
def Fits (C : Config) (s : State) : Action → Prop
  | .processTxn _ _ => C.nodeId + C.N.nodeCnt * s.nextTxnId < 2 ^ 32 ∧ s.nextTxnId < 1000 * 2 ^ 22
  | _ => True

/-! ## The invariant -/

/-- The queries of an epoch that are not finished, by their places. -/
def State.left (s : State) (e : ℕ) : Finset ℕ :=
  {n ∈ Finset.range s.txns.length | ∃ t ∈ s.txns[n]?, t.batchId = e ∧ ¬ s.Finished n t}

/-- Where the entries of a wait list are: the queries of its epoch begin at `start` among all
queries. -/
structure ListInv (s : State) (start : ℕ → ℕ) (en : WaitList) : Prop where
  txnsLeft : en.txnsLeft = (s.left en.epoch).card
  size_le : en.size ≤ en.maxSize
  maxSize : ∃ k ≤ 22, en.maxSize = 1000 * 2 ^ k
  within : ∀ n t, s.txns[n]? = some t → t.batchId = en.epoch → n < start en.epoch + en.size
  entry : ∀ n t, s.txns[n]? = some t → t.batchId = en.epoch →
    en.list (n - start en.epoch) = ⟨t.client, t.participants.length - (s.acked n).length⟩

/-- What holds of the histories: the batches are segments of the queries, `start` says where they
begin and their numbers count from there; a node acknowledges a query once, and only after it is
sent; the queries that are finished have their responses. -/
structure History (C : Config) (s : State) (start : ℕ → ℕ) : Prop where
  batch : ∀ n t, s.txns[n]? = some t → t.batchId ≤ s.seqEpoch + 1 ∧ start t.batchId ≤ n ∧
    t.txnId = C.nodeId + C.N.nodeCnt * (n - start t.batchId) ∧ t.txnId < 2 ^ 32
  segment : ∀ n t, s.txns[n]? = some t → start (s.seqEpoch + 1) ≤ n → t.batchId = s.seqEpoch + 1
  next : start (s.seqEpoch + 1) + s.nextTxnId = s.txns.length
  participants : ∀ (n : ℕ) (t : Txn), s.txns[n]? = some t →
    t.participants.Nodup ∧ 0 < t.participants.length
  acked : ∀ n t, s.txns[n]? = some t → (s.acked n).Nodup ∧ s.acked n ⊆ t.participants
  unsent : ∀ n, start (s.seqEpoch + 1) ≤ n → s.acked n = []
  card_left : (s.left (s.seqEpoch + 1)).card = s.nextTxnId
  responses : ∀ n t, s.txns[n]? = some t →
    s.responses.filter (fun r => r.1 = n) = if s.Finished n t then [(n, t.client)] else []
  answered : ∀ r ∈ s.responses, r.1 < s.txns.length

/-- What holds of the thread: besides that, the wait lists ascend and stand for the batches with
unfinished queries. -/
structure Inv (C : Config) (s : State) (start : ℕ → ℕ) : Prop extends History C s start where
  ok : s.failed = false
  ascending : s.waitLists.Pairwise fun en en' => en.epoch < en'.epoch
  upper : ∀ en ∈ s.waitLists, en.epoch ≤ s.seqEpoch + 1
  lists : ∀ en ∈ s.waitLists, ListInv s start en ∧ 0 < en.txnsLeft
  opened : ∀ en ∈ s.waitLists, en.epoch = s.seqEpoch + 1 → en.size = s.nextTxnId
  listed : ∀ e, (s.left e).Nonempty → ∃ en ∈ s.waitLists, en.epoch = e

section Invariant

variable {C : Config} {s s' : State} {start start' : ℕ → ℕ} {en : WaitList}
  {n m p e : ℕ} {t u : Txn}

/-- Everybody has answered when there are as many answers as people to answer. -/
theorem forall_mem_iff_length_le {ps acked : List ℕ} (hps : ps.Nodup) (hacked : acked.Nodup)
    (hsub : acked ⊆ ps) : (∀ p ∈ ps, p ∈ acked) ↔ ps.length ≤ acked.length := by
  constructor
  · intro hall
    exact (subperm_of_subset hps hall).length_le
  · intro hle q hq
    exact ((subperm_of_subset hacked hsub).perm_of_length_le hle).mem_iff.mpr hq

theorem getElem?_concat_eq_some {α : Type*} {l : List α} {x y : α} {n : ℕ} :
    (l ++ [x])[n]? = some y ↔ l[n]? = some y ∨ n = l.length ∧ y = x := by
  rcases lt_trichotomy n l.length with h | rfl | h
  · rw [getElem?_append_left h]
    simp [h.ne]
  · simp [eq_comm]
  · rw [getElem?_eq_none (by simp; omega), getElem?_eq_none h.le]
    simp [h.ne']

theorem lt_length (ht : s.txns[n]? = some t) : n < s.txns.length :=
  (List.getElem?_eq_some_iff.mp ht).1

theorem mem_left :
    n ∈ s.left e ↔ ∃ t, s.txns[n]? = some t ∧ t.batchId = e ∧ ¬ s.Finished n t := by
  simp only [State.left, Finset.mem_filter, Finset.mem_range, Option.mem_def]
  exact and_iff_right_of_imp fun ⟨t, ht, _⟩ => lt_length ht

/-- The state after a query whose number fits. -/
def State.afterTxn (s : State) (t : Txn) (wl : List WaitList) (failed : Bool) : State :=
  { s with
    nextTxnId := s.nextTxnId + 1, waitLists := wl, failed := failed, txns := s.txns ++ [t] }

variable {wl : List WaitList} {failed : Bool}

section

variable (hopen : ¬ s.Finished s.txns.length t)

include hopen

/-- The new query is left in its epoch. -/
theorem mem_left_afterTxn :
    n ∈ (s.afterTxn t wl failed).left e ↔ n ∈ s.left e ∨ n = s.txns.length ∧ t.batchId = e := by
  simp only [mem_left, State.afterTxn, getElem?_concat_eq_some]
  constructor
  · rintro ⟨u, hu | ⟨rfl, rfl⟩, hbatch, hfin⟩
    · exact .inl ⟨u, hu, hbatch, hfin⟩
    · exact .inr ⟨rfl, hbatch⟩
  · rintro (⟨u, hu, hrest⟩ | ⟨rfl, hbatch⟩)
    · exact ⟨u, .inl hu, hrest⟩
    · exact ⟨t, .inr ⟨rfl, rfl⟩, hbatch, hopen⟩

theorem left_afterTxn_ne (he : e ≠ t.batchId) : (s.afterTxn t wl failed).left e = s.left e := by
  ext n
  rw [mem_left_afterTxn hopen]
  simp [he.symm]

theorem card_left_afterTxn :
    ((s.afterTxn t wl failed).left t.batchId).card = (s.left t.batchId).card + 1 := by
  have hleft : (s.afterTxn t wl failed).left t.batchId =
      insert s.txns.length (s.left t.batchId) := by
    ext n
    rw [mem_left_afterTxn hopen, Finset.mem_insert, or_comm]
    simp
  rw [hleft, Finset.card_insert_of_notMem fun hmem => ?_]
  obtain ⟨u, hu, -⟩ := mem_left.mp hmem
  exact (lt_length hu).false

end

namespace History

section

variable (h : History C s start)

include h

/-- A query is finished when as many nodes have acknowledged it as take part in it. -/
theorem finished_iff (ht : s.txns[n]? = some t) :
    s.Finished n t ↔ t.participants.length ≤ (s.acked n).length :=
  forall_mem_iff_length_le (h.participants n t ht).1 (h.acked n t ht).1 (h.acked n t ht).2

/-- The position of an entry is the position of its query in the batch. -/
theorem index (ht : s.txns[n]? = some t) : t.txnId / C.N.nodeCnt = n - start t.batchId := by
  have hpos : 0 < C.N.nodeCnt := lt_of_le_of_lt (Nat.zero_le _) C.nodeId_lt
  rw [(h.batch n t ht).2.2.1, Nat.add_mul_div_left _ _ hpos, Nat.div_eq_of_lt C.nodeId_lt,
    Nat.zero_add]

/-- Sending a batch: the next one begins behind all queries so far. -/
theorem sendNextBatch :
    History C (sendNextBatch s) (update start (s.seqEpoch + 2) s.txns.length) := by
  have hstart : ∀ e ≤ s.seqEpoch + 1,
      update start (s.seqEpoch + 2) s.txns.length e = start e := fun e he =>
    update_of_ne (by omega) _ _
  have hnew : update start (s.seqEpoch + 2) s.txns.length (s.seqEpoch + 1 + 1) = s.txns.length :=
    update_self _ _ _
  constructor
  case batch =>
    intro n t ht
    obtain ⟨hle, hrest⟩ := h.batch n t ht
    rw [hstart _ hle]
    exact ⟨Nat.le_succ_of_le hle, hrest⟩
  case segment =>
    intro n t ht hn
    have := lt_length (s := s) ht
    simp only [SequencerAcks.sendNextBatch] at hn
    omega
  case next => exact hnew
  case participants => exact h.participants
  case acked => exact h.acked
  case unsent =>
    intro n hn
    refine h.unsent n ?_
    simp only [SequencerAcks.sendNextBatch] at hn
    have := h.next
    omega
  case card_left =>
    refine Finset.card_eq_zero.mpr (Finset.eq_empty_of_forall_notMem fun n hn => ?_)
    obtain ⟨t, ht, hbatch, -⟩ := mem_left.mp hn
    have := (h.batch n t ht).1
    simp only [SequencerAcks.sendNextBatch] at hbatch
    omega
  case responses => exact h.responses
  case answered => exact h.answered

/-- A new query has not been acknowledged by anybody, and so is not finished. -/
theorem not_finished_new (hpos : 0 < t.participants.length) :
    s.acked s.txns.length = [] ∧ ¬ s.Finished s.txns.length t := by
  have hfresh : s.acked s.txns.length = [] := h.unsent _ (h.next ▸ Nat.le_add_right _ _)
  refine ⟨hfresh, fun hfin => ?_⟩
  obtain ⟨p, hp⟩ := exists_mem_of_length_pos hpos
  exact absurd (hfresh ▸ hfin p hp) not_mem_nil

/-- A query becomes the last one of the open batch. -/
theorem processTxn (hbatch : t.batchId = s.seqEpoch + 1)
    (hid : t.txnId = C.nodeId + C.N.nodeCnt * s.nextTxnId) (hfits : t.txnId < 2 ^ 32)
    (hnodup : t.participants.Nodup) (hpos : 0 < t.participants.length) :
    History C (s.afterTxn t wl failed) start := by
  have hlen := h.next
  obtain ⟨hfresh, hopen⟩ := h.not_finished_new hpos
  constructor
  case batch =>
    intro n u hu
    rcases getElem?_concat_eq_some.mp hu with hu | ⟨rfl, rfl⟩
    · exact h.batch n u hu
    · have hsub : s.txns.length - start (s.seqEpoch + 1) = s.nextTxnId := by omega
      rw [hbatch, hsub]
      exact ⟨le_rfl, by omega, hid, hfits⟩
  case segment =>
    intro n u hu hn
    rcases getElem?_concat_eq_some.mp hu with hu | ⟨-, rfl⟩
    · exact h.segment n u hu hn
    · exact hbatch
  case next => rw [State.afterTxn, length_append, length_singleton, ← hlen, Nat.add_assoc]
  case participants =>
    intro n u hu
    rcases getElem?_concat_eq_some.mp hu with hu | ⟨-, rfl⟩
    · exact h.participants n u hu
    · exact ⟨hnodup, hpos⟩
  case acked =>
    intro n u hu
    rcases getElem?_concat_eq_some.mp hu with hu | ⟨rfl, -⟩
    · exact h.acked n u hu
    · rw [State.afterTxn, hfresh]
      exact ⟨.nil, nil_subset _⟩
  case unsent => exact h.unsent
  case card_left =>
    show (State.left _ (s.seqEpoch + 1)).card = s.nextTxnId + 1
    rw [← hbatch, card_left_afterTxn hopen, hbatch, h.card_left]
  case responses =>
    intro n u hu
    rcases getElem?_concat_eq_some.mp hu with hu | ⟨rfl, rfl⟩
    · exact h.responses n u hu
    · refine Eq.trans (List.filter_eq_nil_iff.mpr fun r hr => ?_) (if_neg hopen).symm
      rw [decide_eq_true_iff]
      exact (h.answered r hr).ne
  case answered =>
    intro r hr
    rw [State.afterTxn, length_append]
    exact Nat.lt_add_right _ (h.answered r hr)

end

end History

/-- The state after an acknowledgement that found its entry. -/
def State.afterAck (s : State) (n p : ℕ) (t : Txn) (wl : List WaitList) : State :=
  { s with
    acked := update s.acked n (p :: s.acked n)
    waitLists := wl
    responses := s.responses ++
      if t.participants.length = (s.acked n).length + 1 then [(n, t.client)] else [] }

theorem acked_afterAck_self : (s.afterAck n p t wl).acked n = p :: s.acked n :=
  update_self _ _ _

theorem acked_afterAck_ne (hm : m ≠ n) :
    (s.afterAck n p t wl).acked m = s.acked m :=
  update_of_ne hm _ _

namespace History

/-- Of the queries, only the acknowledged one may have become finished. -/
theorem finished_afterAck_ne (hm : m ≠ n) :
    (s.afterAck n p t wl).Finished m u ↔ s.Finished m u := by
  rw [State.Finished, acked_afterAck_ne hm, State.Finished]

theorem finished_afterAck_self (h : History C s start)
    (ht : s.txns[n]? = some t) (hp : p ∈ t.participants) (hnew : p ∉ s.acked n) :
    (s.afterAck n p t wl).Finished n t ↔ t.participants.length = (s.acked n).length + 1 := by
  obtain ⟨hnodup, hsub⟩ := h.acked n t ht
  have hmissing : ¬ t.participants.length ≤ (s.acked n).length := fun hle =>
    hnew ((h.finished_iff ht).mpr hle p hp)
  rw [State.Finished, acked_afterAck_self,
    forall_mem_iff_length_le (h.participants n t ht).1 (nodup_cons.mpr ⟨hnew, hnodup⟩)
      (List.cons_subset.mpr ⟨hp, hsub⟩), length_cons]
  omega

section

variable (h : History C s start) (ht : s.txns[n]? = some t) (hp : p ∈ t.participants)
  (hnew : p ∉ s.acked n)

include h ht hp hnew

/-- With the last acknowledgement, and only then, the query is no longer left. -/
theorem mem_left_afterAck :
    m ∈ (s.afterAck n p t wl).left e ↔
      m ∈ s.left e ∧ ¬ (m = n ∧ t.participants.length = (s.acked n).length + 1) := by
  rw [mem_left, mem_left]
  by_cases hm : m = n
  · subst hm
    constructor
    · rintro ⟨u, hu, hbatch, hnot⟩
      obtain rfl := some.inj (ht.symm.trans hu)
      rw [h.finished_afterAck_self ht hp hnew] at hnot
      exact ⟨⟨t, ht, hbatch, fun hfin => hnew (hfin p hp)⟩, fun hand => hnot hand.2⟩
    · rintro ⟨⟨u, hu, hbatch, -⟩, hnot⟩
      obtain rfl := some.inj (ht.symm.trans hu)
      refine ⟨t, ht, hbatch, ?_⟩
      rw [h.finished_afterAck_self ht hp hnew]
      exact fun hlast => hnot ⟨rfl, hlast⟩
  · simp only [finished_afterAck_ne hm, hm, false_and, not_false_eq_true, and_true]
    rfl

theorem left_afterAck_ne (he : e ≠ t.batchId) : (s.afterAck n p t wl).left e = s.left e := by
  ext m
  rw [h.mem_left_afterAck ht hp hnew]
  refine and_iff_left_of_imp fun hmem hand => he ?_
  obtain ⟨u, hu, rfl, -⟩ := mem_left.mp hmem
  rw [hand.1, ht] at hu
  rw [some.inj hu]

theorem card_left_afterAck :
    ((s.afterAck n p t wl).left t.batchId).card =
      if t.participants.length = (s.acked n).length + 1 then (s.left t.batchId).card - 1
      else (s.left t.batchId).card := by
  split
  next hlast =>
    have hn : n ∈ s.left t.batchId := mem_left.mpr ⟨t, ht, rfl, fun hfin => hnew (hfin p hp)⟩
    rw [← Finset.card_erase_of_mem hn]
    congr 1
    ext m
    rw [h.mem_left_afterAck ht hp hnew, Finset.mem_erase, and_comm]
    simp [hlast]
  next hlast =>
    congr 1
    ext m
    rw [h.mem_left_afterAck ht hp hnew]
    simp [hlast]

/-- An acknowledgement: with the last one the query is finished and has its response. -/
theorem afterAck (hsent : t.batchId ≤ s.seqEpoch) : History C (s.afterAck n p t wl) start := by
  have hfin : ¬ s.Finished n t := fun hfin => hnew (hfin p hp)
  constructor
  case batch => exact h.batch
  case segment => exact h.segment
  case next => exact h.next
  case participants => exact h.participants
  case acked =>
    intro m u hu
    by_cases hm : m = n
    · subst hm
      obtain rfl := some.inj (ht.symm.trans hu)
      obtain ⟨hnodup, hsub⟩ := h.acked m t ht
      rw [acked_afterAck_self]
      exact ⟨nodup_cons.mpr ⟨hnew, hnodup⟩, List.cons_subset.mpr ⟨hp, hsub⟩⟩
    · rw [acked_afterAck_ne hm]
      exact h.acked m u hu
  case unsent =>
    intro m hm
    have hne : m ≠ n := by
      rintro rfl
      exact absurd (h.segment m t ht hm) (by omega)
    rw [acked_afterAck_ne hne]
    exact h.unsent m hm
  case card_left =>
    rw [h.left_afterAck_ne ht hp hnew (by show s.seqEpoch + 1 ≠ _; omega)]
    exact h.card_left
  case responses =>
    intro m u hu
    show List.filter _ (s.responses ++ _) = _
    rw [filter_append, h.responses m u hu]
    by_cases hm : m = n
    · subst hm
      obtain rfl := some.inj (ht.symm.trans hu)
      rw [if_neg hfin, nil_append]
      simp only [h.finished_afterAck_self ht hp hnew]
      split <;> simp
    · simp only [finished_afterAck_ne hm]
      split <;> simp [Ne.symm hm]
  case answered =>
    intro r hr
    rcases mem_append.mp hr with hr | hr
    · exact h.answered r hr
    · split at hr
      · rw [mem_singleton.mp hr]
        exact lt_length ht
      · exact absurd hr not_mem_nil

end

end History

/-! ## The wait lists -/

/-- **The invariant is more than the accounting.** -/
theorem Inv.accounted (h : Inv C s start) : Accounted C s where
  ok := h.ok
  entry n t ht hfin := by
    obtain ⟨en₀, hen₀, hepoch₀⟩ := h.listed _ ⟨n, mem_left.mpr ⟨t, ht, rfl, hfin⟩⟩
    obtain ⟨en, hfind⟩ : ∃ en, s.waitLists.find? (fun en => en.epoch = t.batchId) = some en :=
      Option.isSome_iff_exists.mp (List.find?_isSome.mpr ⟨en₀, hen₀, decide_eq_true hepoch₀⟩)
    have hepoch : en.epoch = t.batchId := by simpa using find?_some hfind
    obtain ⟨hlist, hpos⟩ := h.lists en (mem_of_find?_eq_some hfind)
    refine ⟨en, hfind, ?_, not_le.mp (mt (h.finished_iff ht).mpr hfin), hpos⟩
    rw [h.index ht, ← hepoch]
    exact hlist.entry n t ht hepoch.symm
  bound en hen t ht hbatch := by
    obtain ⟨n, hn⟩ := List.mem_iff_getElem?.mp ht
    obtain ⟨hlist, -⟩ := h.lists en hen
    have hwithin := hlist.within n t hn hbatch
    have hstart := (h.batch n t hn).2.1
    rw [h.index hn, hbatch]
    rw [hbatch] at hstart
    have hsize := hlist.size_le
    omega
  own n m t u ht hu hbatch hid := by
    have hn := (h.batch n t ht).2.1
    have hm := (h.batch m u hu).2.1
    rw [h.index ht, h.index hu, hbatch] at hid
    rw [hbatch] at hn
    omega
  responses := h.responses
  listed e := by
    constructor
    · rintro ⟨en, hen, rfl⟩
      obtain ⟨hlist, hpos⟩ := h.lists en hen
      rw [hlist.txnsLeft] at hpos
      obtain ⟨n, hn⟩ := Finset.card_pos.mp hpos
      exact ⟨n, mem_left.mp hn⟩
    · rintro ⟨n, t, ht⟩
      exact h.listed e ⟨n, mem_left.mpr ⟨t, ht⟩⟩

/-- A list keeps its invariant when nothing changes about the queries of its epoch. -/
theorem ListInv.of_same (h : ListInv s start en)
    (hsame : ∀ n t, s'.txns[n]? = some t → t.batchId = en.epoch →
      s.txns[n]? = some t ∧ s'.acked n = s.acked n)
    (hstart : start' en.epoch = start en.epoch) (hleft : s'.left en.epoch = s.left en.epoch) :
    ListInv s' start' en where
  txnsLeft := by rw [h.txnsLeft, hleft]
  size_le := h.size_le
  maxSize := h.maxSize
  within n t ht hbatch := by
    rw [hstart]
    exact h.within n t (hsame n t ht hbatch).1 hbatch
  entry n t ht hbatch := by
    obtain ⟨ht, hacked⟩ := hsame n t ht hbatch
    rw [hstart, hacked]
    exact h.entry n t ht hbatch

/-- The invariant holds of a new sequencer. -/
theorem inv_init : Inv C State.init fun _ => 0 := by
  have hnone : ∀ (n : ℕ) (t : Txn), State.init.txns[n]? ≠ some t := fun n t h => by
    simp [State.init] at h
  exact
    { batch := fun n t h => absurd h (hnone n t)
      segment := fun n t h => absurd h (hnone n t)
      next := rfl
      participants := fun n t h => absurd h (hnone n t)
      acked := fun n t h => absurd h (hnone n t)
      unsent := fun _ _ => rfl
      card_left := rfl
      responses := fun n t h => absurd h (hnone n t)
      answered := fun _ h => absurd h not_mem_nil
      ok := rfl
      ascending := .nil
      upper := fun _ h => absurd h not_mem_nil
      lists := fun _ h => absurd h not_mem_nil
      opened := fun _ h => absurd h not_mem_nil
      listed := fun _ h => absurd h Finset.not_nonempty_empty }

/-- **Sending a batch keeps the invariant.** -/
theorem Inv.sendNextBatch (h : Inv C s start) :
    Inv C (sendNextBatch s) (update start (s.seqEpoch + 2) s.txns.length) := by
  refine ⟨h.toHistory.sendNextBatch, h.ok, h.ascending,
    fun en hen => Nat.le_succ_of_le (h.upper en hen),
    fun en hen => ?_, fun en hen hepoch => ?_, h.listed⟩
  · obtain ⟨hlist, hpos⟩ := h.lists en hen
    have hne : en.epoch ≠ s.seqEpoch + 2 := by
      have := h.upper en hen
      omega
    exact ⟨hlist.of_same (fun n t ht _ => ⟨ht, rfl⟩) (update_of_ne hne _ _) rfl, hpos⟩
  · exact absurd (h.upper en hen) (by simp only [SequencerAcks.sendNextBatch] at hepoch; omega)

/-! ## A query -/

/-- The list of the open batch: behind all others, with an entry for each query of the batch. -/
structure OpenInv (s : State) (start : ℕ → ℕ) (before : List WaitList) (en : WaitList) :
    Prop where
  older : ∀ en ∈ before, en ∈ s.waitLists ∧ en.epoch ≤ s.seqEpoch
  ascending : before.Pairwise fun en en' => en.epoch < en'.epoch
  all : ∀ en' ∈ s.waitLists, en' ∈ before ∨ en'.epoch = en.epoch
  epoch : en.epoch = s.seqEpoch + 1
  size : en.size = s.nextTxnId
  list : ListInv s start en

/-- Without a list of the open batch there is no query in it yet, and a new list is right for it. -/
theorem Inv.openInv_new (h : Inv C s start)
    (hnone : ∀ en ∈ s.waitLists, en.epoch ≠ s.seqEpoch + 1) :
    OpenInv s start s.waitLists (WaitList.new (s.seqEpoch + 1)) := by
  have hleft : s.left (s.seqEpoch + 1) = ∅ := by
    refine Finset.not_nonempty_iff_eq_empty.mp fun hne => ?_
    obtain ⟨en, hen, hepoch⟩ := h.listed _ hne
    exact hnone en hen hepoch
  have hnext : s.nextTxnId = 0 := by rw [← h.card_left, hleft, Finset.card_empty]
  have hempty : ∀ (n : ℕ) (t : Txn), s.txns[n]? = some t → t.batchId ≠ s.seqEpoch + 1 := by
    intro n t ht hbatch
    have hstart := (h.batch n t ht).2.1
    have hlt := (List.getElem?_eq_some_iff.mp ht).1
    have := h.next
    rw [hbatch] at hstart
    omega
  refine ⟨fun en hen => ⟨hen, ?_⟩, h.ascending, fun _ hen => .inl hen, rfl, hnext.symm, ?_⟩
  · have := h.upper en hen
    have := hnone en hen
    omega
  · exact
      { txnsLeft := by
          rw [show (WaitList.new (s.seqEpoch + 1)).epoch = s.seqEpoch + 1 from rfl, hleft]
          rfl
        size_le := Nat.zero_le _
        maxSize := ⟨0, Nat.zero_le _, rfl⟩
        within := fun n t ht hbatch => absurd hbatch (hempty n t ht)
        entry := fun n t ht hbatch => absurd hbatch (hempty n t ht) }

theorem Inv.openBatch (h : Inv C s start) : OpenInv s start s.openBatch.1 s.openBatch.2 := by
  rw [State.openBatch, Calvin.openBatch]
  split
  next en hlast =>
    have happ : s.waitLists = s.waitLists.dropLast ++ [en] :=
      (dropLast_append_getLast? en hlast).symm
    have hasc := happ ▸ h.ascending
    obtain ⟨hbefore, -, hlt⟩ := pairwise_append.mp hasc
    have hmem : en ∈ s.waitLists := mem_of_getLast? hlast
    split
    next hepoch =>
      refine ⟨fun en' hen' => ⟨(dropLast_sublist _).subset hen', ?_⟩, hbefore,
        fun en' hen' => ?_, hepoch, h.opened en hmem hepoch, (h.lists en hmem).1⟩
      · have := hlt en' hen' en (mem_singleton_self _)
        omega
      · rw [happ, mem_append, mem_singleton] at hen'
        exact hen'.imp_right fun heq => by rw [heq]
    next hepoch =>
      refine h.openInv_new fun en' hen' => ?_
      rw [happ, mem_append, mem_singleton] at hen'
      rcases hen' with hen' | rfl
      · have := hlt en' hen' en (mem_singleton_self _)
        have := h.upper en hmem
        omega
      · exact hepoch
  next hlast =>
    refine h.openInv_new fun en hen => ?_
    rw [List.getLast?_eq_none_iff.mp hlast] at hen
    exact absurd hen not_mem_nil

/-- A list with fewer entries than the largest room has room for one more after it has grown. -/
theorem ListInv.grow (h : ListInv s start en) (hsize : en.size < 1000 * 2 ^ 22) :
    ∃ room, en.grow = { en with maxSize := room } ∧ en.size < room ∧
      ∃ k ≤ 22, room = 1000 * 2 ^ k := by
  obtain ⟨k, hk, hmax⟩ := h.maxSize
  rw [WaitList.grow]
  split
  next hfull =>
    have hlt : k < 22 := by
      rw [hfull, hmax] at hsize
      exact (Nat.pow_lt_pow_iff_right (by omega)).mp (Nat.lt_of_mul_lt_mul_left hsize)
    have hdouble : en.maxSize * 2 % 2 ^ 32 = 1000 * 2 ^ (k + 1) := by
      have : (2 : ℕ) ^ (k + 1) ≤ 2 ^ 22 := Nat.pow_le_pow_right (by omega) hlt
      rw [hmax, Nat.mul_assoc, ← Nat.pow_succ, Nat.mod_eq_of_lt (by omega)]
    have hpos : 0 < 2 ^ k := Nat.pow_pos (by omega)
    refine ⟨_, rfl, ?_, k + 1, hlt, hdouble⟩
    rw [hdouble, hfull, hmax, Nat.pow_succ]
    omega
  next hfull =>
    exact ⟨_, rfl, lt_of_le_of_ne h.size_le hfull, k, hk, hmax⟩

variable {before : List WaitList} {client : ℕ} {q : Query}

theorem OpenInv.grow (h : OpenInv s start before en) (hsize : s.nextTxnId < 1000 * 2 ^ 22) :
    OpenInv s start before en.grow ∧ en.grow.size < en.grow.maxSize := by
  obtain ⟨room, hgrow, hroom, hmax⟩ := h.list.grow (h.size ▸ hsize)
  rw [hgrow]
  exact ⟨⟨h.older, h.ascending, h.all, h.epoch, h.size, h.list.txnsLeft, hroom.le, hmax,
    h.list.within, h.list.entry⟩, hroom⟩

/-- The number fits, so it is what it would be without a limit. -/
theorem txnIdOf_eq (hfits : C.nodeId + C.N.nodeCnt * n < 2 ^ 32) :
    txnIdOf C n = C.nodeId + C.N.nodeCnt * n := by
  rw [txnIdOf, Calvin.txnIdOf, Nat.mod_eq_of_lt (lt_of_le_of_lt (Nat.le_add_left _ _) hfits),
    Nat.mod_eq_of_lt hfits]

/-- What `process_txn` does where it gets through. -/
theorem processTxn_eq_some (hs : processTxn C client q s = some s') :
    ∃ ps : List ℕ, ps.Nodup ∧ 0 < ps.length ∧ s' = { s with
      nextTxnId := (s.nextTxnId + 1) % 2 ^ 32
      waitLists := s.openBatch.1 ++
        [s.openBatch.2.grow.add (txnIdOf C s.nextTxnId / C.N.nodeCnt) client ps.length]
      failed := decide (s.openBatch.2.grow.size + 1 ≠ (s.openBatch.2.grow.txnsLeft + 1) % 2 ^ 32)
      txns := s.txns ++ [⟨s.openBatch.2.grow.epoch, txnIdOf C s.nextTxnId, client, ps⟩] } := by
  obtain ⟨⟨hpos, -⟩, hs⟩ := ite_none_right_eq_some.mp hs
  exact ⟨(q.participants C.N).toList, (q.participants C.N).ascending.imp fun h => h.ne, hpos,
    (some.inj hs).symm⟩

/-- The list of the open batch after a query whose number fits. -/
theorem OpenInv.add (ho : OpenInv s start before en) (h : Inv C s start)
    (hroom : en.size < en.maxSize) (hnext : s.nextTxnId < 1000 * 2 ^ 22)
    (hbatch : t.batchId = s.seqEpoch + 1) (hclient : t.client = client)
    (hpos : 0 < t.participants.length) :
    ListInv (s.afterTxn t wl failed) start (en.add s.nextTxnId client t.participants.length) := by
  have hlen := h.next
  have hepoch : (en.add s.nextTxnId client t.participants.length).epoch = s.seqEpoch + 1 := ho.epoch
  have htxnsLeft : en.txnsLeft = s.nextTxnId := by rw [ho.list.txnsLeft, ho.epoch, h.card_left]
  constructor
  case txnsLeft =>
    rw [hepoch, ← hbatch, card_left_afterTxn (h.not_finished_new hpos).2, hbatch, h.card_left,
      WaitList.add, htxnsLeft]
    exact Nat.mod_eq_of_lt (by omega)
  case size_le => exact hroom
  case maxSize => exact ho.list.maxSize
  case within =>
    intro n u hu _
    show n < start en.epoch + (en.size + 1)
    rw [ho.epoch, ho.size]
    have hn : n < (s.txns ++ [t]).length := lt_length hu
    rw [length_append, length_singleton] at hn
    omega
  case entry =>
    intro n u hu hbatch'
    rw [hepoch] at hbatch' ⊢
    show update en.list s.nextTxnId ⟨client, _⟩ (n - start (s.seqEpoch + 1)) = _
    rcases getElem?_concat_eq_some.mp hu with hu | ⟨rfl, rfl⟩
    · have hn := lt_length hu
      have hstart := (h.batch n u hu).2.1
      rw [hbatch'] at hstart
      rw [update_of_ne (by omega), ← ho.epoch]
      exact ho.list.entry n u hu (hbatch'.trans ho.epoch.symm)
    · have hsub : s.txns.length - start (s.seqEpoch + 1) = s.nextTxnId := by omega
      rw [hsub, update_self, State.afterTxn, (h.not_finished_new hpos).1, hclient]
      rfl

/-- **A query whose number fits keeps the invariant**: it becomes the last of the open batch. -/
theorem Inv.processTxn (h : Inv C s start) (hs : processTxn C client q s = some s')
    (hfits : Fits C s (.processTxn client q)) : Inv C s' start := by
  obtain ⟨ps, hnodup, hpos, rfl⟩ := processTxn_eq_some hs
  obtain ⟨ho, hroom⟩ := h.openBatch.grow hfits.2
  generalize s.openBatch.1 = before at ho ⊢
  generalize s.openBatch.2.grow = en at ho hroom ⊢
  have hcnt : 0 < C.N.nodeCnt := lt_of_le_of_lt (Nat.zero_le _) C.nodeId_lt
  have hid : (C.nodeId + C.N.nodeCnt * s.nextTxnId) / C.N.nodeCnt = s.nextTxnId := by
    rw [Nat.add_mul_div_left _ _ hcnt, Nat.div_eq_of_lt C.nodeId_lt, Nat.zero_add]
  have hnext : (s.nextTxnId + 1) % 2 ^ 32 = s.nextTxnId + 1 :=
    Nat.mod_eq_of_lt (by have := hfits.2; omega)
  have htxnsLeft : en.txnsLeft = s.nextTxnId := by rw [ho.list.txnsLeft, ho.epoch, h.card_left]
  rw [txnIdOf_eq hfits.1, hid, ho.epoch, hnext]
  set t : Txn := ⟨s.seqEpoch + 1, C.nodeId + C.N.nodeCnt * s.nextTxnId, client, ps⟩
  have hopen := (h.not_finished_new (t := t) hpos).2
  change Inv C (s.afterTxn t _ _) start
  refine ⟨h.toHistory.processTxn rfl rfl hfits.1 hnodup hpos, ?_, ?_, fun en₁ hen₁ => ?_,
    fun en₁ hen₁ => ?_, fun en₁ hen₁ hepoch => ?_, fun e he => ?_⟩
  · rw [htxnsLeft, ho.size, hnext]
    exact decide_eq_false (not_not_intro rfl)
  · refine pairwise_append.mpr ⟨ho.ascending, pairwise_singleton _ _, fun en₁ hen₁ en₂ hen₂ => ?_⟩
    rw [mem_singleton.mp hen₂]
    show en₁.epoch < en.epoch
    rw [ho.epoch]
    exact Nat.lt_succ_of_le (ho.older en₁ hen₁).2
  · rcases mem_append.mp hen₁ with hen₁ | hen₁
    · exact h.upper en₁ (ho.older en₁ hen₁).1
    · rw [mem_singleton.mp hen₁]
      exact ho.epoch.le
  · rcases mem_append.mp hen₁ with hen₁ | hen₁
    · obtain ⟨hmem, hle⟩ := ho.older en₁ hen₁
      obtain ⟨hlist, hpos₁⟩ := h.lists en₁ hmem
      have hne : en₁.epoch ≠ s.seqEpoch + 1 := by omega
      refine ⟨hlist.of_same (fun n t ht hbatch => ?_) rfl
        (left_afterTxn_ne hopen hne), hpos₁⟩
      rcases getElem?_concat_eq_some.mp ht with ht | ⟨-, rfl⟩
      · exact ⟨ht, rfl⟩
      · exact absurd hbatch.symm hne
    · rw [mem_singleton.mp hen₁]
      refine ⟨ho.add (t := t) h hroom hfits.2 rfl rfl hpos, ?_⟩
      show 0 < (en.txnsLeft + 1) % 2 ^ 32
      rw [htxnsLeft, hnext]
      exact Nat.succ_pos _
  · rcases mem_append.mp hen₁ with hen₁ | hen₁
    · have hle := (ho.older en₁ hen₁).2
      exact absurd (hepoch ▸ hle) (Nat.not_succ_le_self _)
    · rw [mem_singleton.mp hen₁]
      exact congrArg (· + 1) ho.size
  · by_cases heq : e = s.seqEpoch + 1
    · exact ⟨_, mem_append_right _ (mem_singleton_self _), ho.epoch.trans heq.symm⟩
    · rw [left_afterTxn_ne hopen heq] at he
      obtain ⟨en₁, hen₁, rfl⟩ := h.listed e he
      rcases ho.all en₁ hen₁ with hmem | hepoch
      · exact ⟨en₁, mem_append_left _ hmem, rfl⟩
      · exact absurd (hepoch.trans ho.epoch) heq

/-! ## An acknowledgement -/

/-- The search passes the lists of other epochs and stops at the list of the batch. -/
theorem ack_append {batchId id : ℕ} {after : List WaitList}
    (hbefore : ∀ en' ∈ before, en'.epoch ≠ batchId) (hepoch : en.epoch = batchId)
    (hleft : 0 < en.txnsLeft) (hcnt : 0 < (en.list id).serverAckCnt) :
    Calvin.ack batchId id (before ++ en :: after) =
      some (before ++ if (en.ack id).txnsLeft = 0 then after else en.ack id :: after,
        if (en.list id).serverAckCnt = 1 then some (en.list id).clientId else none) := by
  induction before with
  | nil => rw [nil_append, Calvin.ack, if_pos hepoch, if_pos ⟨hleft, hcnt⟩, nil_append]
  | cons en' before ih =>
    obtain ⟨hne, hbefore⟩ := forall_mem_cons.mp hbefore
    rw [cons_append, Calvin.ack, if_neg hne, ih hbefore]
    rfl

/-- The list of the batch after the acknowledgement of one of its queries. -/
theorem ListInv.ack (h : ListInv s start en) (hinv : Inv C s start)
    (ht : s.txns[n]? = some t) (hepoch : en.epoch = t.batchId)
    (hmissing : (s.acked n).length < t.participants.length) (hp : p ∈ t.participants)
    (hnew : p ∉ s.acked n) (wl : List WaitList) :
    ListInv (s.afterAck n p t wl) start (en.ack (n - start t.batchId)) := by
  have hentry := h.entry n t ht hepoch.symm
  rw [hepoch] at hentry
  have hepoch' : (en.ack (n - start t.batchId)).epoch = t.batchId := hepoch
  constructor
  case txnsLeft =>
    rw [hepoch', hinv.card_left_afterAck ht hp hnew, ← hepoch, ← h.txnsLeft, WaitList.ack, hepoch,
      hentry]
    refine if_congr ?_ rfl rfl
    show t.participants.length - (s.acked n).length - 1 = 0 ↔ _
    omega
  case size_le => exact h.size_le
  case maxSize => exact h.maxSize
  case within => exact h.within
  case entry =>
    intro m u hu hbatch
    rw [hepoch'] at hbatch ⊢
    show update en.list (n - start t.batchId) _ (m - start t.batchId) = _
    by_cases hm : m = n
    · subst hm
      obtain rfl := some.inj (ht.symm.trans hu)
      rw [update_self, acked_afterAck_self, hentry, length_cons, Nat.sub_sub]
    · have hn' := (hinv.batch n t ht).2.1
      have hm' := (hinv.batch m u hu).2.1
      rw [hbatch] at hm'
      rw [update_of_ne (by omega), acked_afterAck_ne hm, ← hepoch]
      exact h.entry m u hu (hbatch.trans hepoch.symm)

section

variable (h : Inv C s start)

include h

/-- What `process_ack` finds for a query that has been sent and still misses an acknowledgement. -/
theorem Inv.find (ht : s.txns[n]? = some t) (hfin : ¬ s.Finished n t) :
    ∃ before en after, s.waitLists = before ++ en :: after ∧ en.epoch = t.batchId ∧
      (∀ en' ∈ before, en'.epoch ≠ t.batchId) ∧ (∀ en' ∈ after, en'.epoch ≠ t.batchId) := by
  obtain ⟨en, hen, hepoch⟩ := h.listed _ ⟨n, mem_left.mpr ⟨t, ht, rfl, hfin⟩⟩
  obtain ⟨before, after, hwl⟩ := append_of_mem hen
  obtain ⟨-, hcons, hlt⟩ := pairwise_append.mp (hwl ▸ h.ascending)
  refine ⟨before, en, after, hwl, hepoch, fun en' hen' => ?_, fun en' hen' => ?_⟩
  · exact hepoch ▸ (hlt en' hen' en mem_cons_self).ne
  · exact hepoch ▸ ((pairwise_cons.mp hcons).1 en' hen').ne'

/-- What `process_ack` does in the situation of `Inv.find`. -/
theorem Inv.processAck_eq {after : List WaitList} (ht : s.txns[n]? = some t)
    (hmissing : (s.acked n).length < t.participants.length)
    (hwl : s.waitLists = before ++ en :: after) (hepoch : en.epoch = t.batchId)
    (hbefore : ∀ en' ∈ before, en'.epoch ≠ t.batchId) :
    SequencerAcks.processAck C n p t s = s.afterAck n p t
      (before ++ if (en.ack (n - start t.batchId)).txnsLeft = 0 then after
        else en.ack (n - start t.batchId) :: after) := by
  obtain ⟨hlist, hpos⟩ := h.lists en (hwl ▸ mem_append_right _ mem_cons_self)
  have hentry := hlist.entry n t ht hepoch.symm
  rw [hepoch] at hentry
  have hcnt : 0 < (en.list (n - start t.batchId)).serverAckCnt := by
    rw [hentry]
    exact Nat.sub_pos_of_lt hmissing
  rw [SequencerAcks.processAck, h.index ht, hwl, ack_append hbefore hepoch hpos hcnt, hentry,
    State.afterAck]
  by_cases hlast : t.participants.length = (s.acked n).length + 1
  · have hone : t.participants.length - (s.acked n).length = 1 := by omega
    simp only [hone, if_true, if_pos hlast]
    rfl
  · have hone : ¬ t.participants.length - (s.acked n).length = 1 := by omega
    simp only [hone, if_false, if_neg hlast]
    rfl

/-- **An acknowledgement keeps the invariant**: the query misses one less, and with the last one it
is finished. -/
theorem Inv.processAck (ht : s.txns[n]? = some t) (hsent : t.batchId ≤ s.seqEpoch)
    (hp : p ∈ t.participants) (hnew : p ∉ s.acked n) :
    Inv C (processAck C n p t s) start := by
  have hfin : ¬ s.Finished n t := fun hfin => hnew (hfin p hp)
  have hmissing : (s.acked n).length < t.participants.length :=
    not_le.mp (mt (h.finished_iff ht).mpr hfin)
  obtain ⟨before, en, after, hwl, hepoch, hbefore, hafter⟩ := h.find ht hfin
  obtain ⟨hlist, -⟩ := h.lists en (hwl ▸ mem_append_right _ mem_cons_self)
  rw [h.processAck_eq ht hmissing hwl hepoch hbefore]
  generalize hack : en.ack (n - start t.batchId) = en'
  have hepoch' : en'.epoch = t.batchId := hack ▸ hepoch
  have hlist' : ∀ wl, ListInv (s.afterAck n p t wl) start en' :=
    hack ▸ hlist.ack h ht hepoch hmissing hp hnew
  have hrest : ∀ en₁, en₁ ∈ before ∨ en₁ ∈ after → en₁ ∈ s.waitLists ∧ en₁.epoch ≠ t.batchId := by
    rintro en₁ (hen₁ | hen₁)
    · exact ⟨hwl ▸ mem_append_left _ hen₁, hbefore en₁ hen₁⟩
    · exact ⟨hwl ▸ mem_append_right _ (mem_cons_of_mem _ hen₁), hafter en₁ hen₁⟩
  -- the lists are those of other epochs, and this one if it is not finished
  have hmem : ∀ en₁, en₁ ∈ (before ++ if en'.txnsLeft = 0 then after else en' :: after) ↔
      (en₁ ∈ before ∨ en₁ ∈ after) ∨ (en₁ = en' ∧ en'.txnsLeft ≠ 0) := by
    intro en₁
    rw [mem_append]
    split
    next hzero =>
      simp [hzero]
    next hne =>
      rw [mem_cons]
      tauto
  refine ⟨h.toHistory.afterAck ht hp hnew hsent, h.ok, ?_, fun en₁ hen₁ => ?_, fun en₁ hen₁ => ?_,
    fun en₁ hen₁ hopen => ?_, fun e he => ?_⟩
  · obtain ⟨hasc, hcons, hlt⟩ := pairwise_append.mp (hwl ▸ h.ascending)
    obtain ⟨hhead, htail⟩ := pairwise_cons.mp hcons
    split
    · exact pairwise_append.mpr
        ⟨hasc, htail, fun en₁ hen₁ en₂ hen₂ => hlt en₁ hen₁ en₂ (mem_cons_of_mem _ hen₂)⟩
    · refine pairwise_append.mpr ⟨hasc, pairwise_cons.mpr ⟨?_, htail⟩, fun en₁ hen₁ en₂ hen₂ => ?_⟩
      · rw [hepoch', ← hepoch]
        exact hhead
      · rcases mem_cons.mp hen₂ with rfl | hen₂
        · rw [hepoch', ← hepoch]
          exact hlt en₁ hen₁ en mem_cons_self
        · exact hlt en₁ hen₁ en₂ (mem_cons_of_mem _ hen₂)
  · rcases (hmem en₁).mp hen₁ with hen₁ | ⟨rfl, -⟩
    · exact h.upper en₁ (hrest en₁ hen₁).1
    · exact hepoch'.le.trans (h.batch n t ht).1
  · rcases (hmem en₁).mp hen₁ with hen₁ | ⟨rfl, hne⟩
    · obtain ⟨hen₁, hne⟩ := hrest en₁ hen₁
      obtain ⟨hlist₁, hpos₁⟩ := h.lists en₁ hen₁
      refine ⟨hlist₁.of_same (fun m u hu hbatch => ⟨hu, acked_afterAck_ne ?_⟩) rfl
        (h.left_afterAck_ne ht hp hnew hne), hpos₁⟩
      rintro rfl
      obtain rfl := some.inj (ht.symm.trans hu)
      exact hne hbatch.symm
    · exact ⟨hlist' _, Nat.pos_of_ne_zero hne⟩
  · rcases (hmem en₁).mp hen₁ with hen₁ | ⟨rfl, -⟩
    · exact h.opened en₁ (hrest en₁ hen₁).1 hopen
    · exact absurd (hopen.symm.trans hepoch' ▸ hsent) (Nat.not_succ_le_self _)
  · by_cases heq : e = t.batchId
    · subst heq
      have hne : en'.txnsLeft ≠ 0 := by
        rw [(hlist' _).txnsLeft, hepoch']
        exact (Finset.card_pos.mpr he).ne'
      exact ⟨en', (hmem en').mpr (.inr ⟨rfl, hne⟩), hepoch'⟩
    · rw [h.left_afterAck_ne ht hp hnew heq] at he
      obtain ⟨en₁, hen₁, rfl⟩ := h.listed e he
      refine ⟨en₁, (hmem en₁).mpr (.inl ?_), rfl⟩
      rw [hwl, mem_append, mem_cons] at hen₁
      rcases hen₁ with hen₁ | rfl | hen₁
      · exact .inl hen₁
      · exact absurd hepoch heq
      · exact .inr hen₁

end

/-! ## When the accounting is right -/

theorem grow_toQliteLl (en : WaitList) : en.grow.toQliteLl = en.toQliteLl := by
  rw [WaitList.grow]
  split <;> rfl

/-- The queries of the open batch. -/
theorem History.open_query {k : ℕ} (h : History C s start) (hk : k < s.nextTxnId) :
    ∃ t, s.txns[start (s.seqEpoch + 1) + k]? = some t ∧ t.batchId = s.seqEpoch + 1 ∧
      t.txnId = C.nodeId + C.N.nodeCnt * k ∧ t.txnId < 2 ^ 32 := by
  have hlt : start (s.seqEpoch + 1) + k < s.txns.length := by
    have := h.next
    omega
  have ht := getElem?_eq_getElem hlt
  have hbatch := h.segment _ _ ht (Nat.le_add_right _ _)
  obtain ⟨-, -, hid, hfits⟩ := h.batch _ _ ht
  rw [hbatch, Nat.add_sub_cancel_left] at hid
  exact ⟨_, ht, hbatch, hid, hfits⟩

/-- **A number that does not fit** leads to the entry of the first query of the batch. -/
theorem Inv.not_accounted_of_wrap (h : Inv C s start)
    (hs : SequencerAcks.processTxn C client q s = some s')
    (hwrap : 2 ^ 32 ≤ C.nodeId + C.N.nodeCnt * s.nextTxnId) : ¬ Accounted C s' := by
  intro hacc
  have hnode := C.nodeId_lt
  have hcnt := C.nodeCnt_lt
  obtain ⟨next, hnext⟩ : ∃ next, s.nextTxnId = next + 1 := by
    refine Nat.exists_eq_succ_of_ne_zero fun hzero => ?_
    rw [hzero, Nat.mul_zero] at hwrap
    omega
  obtain ⟨t₀, ht₀, hbatch₀, hid₀, -⟩ := h.open_query (k := 0) (by omega)
  obtain ⟨t₁, -, -, hid₁, hfits₁⟩ := h.open_query (k := next) (by omega)
  -- the number before this one fits, so this one is only just too large
  have hid : txnIdOf C s.nextTxnId / C.N.nodeCnt = 0 := by
    rw [hnext, Nat.mul_succ] at hwrap
    rw [txnIdOf, Calvin.txnIdOf, Nat.add_mod_mod, hnext, Nat.mul_succ, Nat.mod_eq_sub_mod hwrap,
      Nat.mod_eq_of_lt (by omega)]
    exact Nat.div_eq_of_lt (by omega)
  obtain ⟨ps, -, -, rfl⟩ := processTxn_eq_some hs
  have hepoch : s.openBatch.2.grow.epoch = s.seqEpoch + 1 :=
    (congrArg QliteLl.epoch (grow_toQliteLl s.openBatch.2)).trans h.openBatch.epoch
  have hsame := hacc.own _ _ t₀ _ (getElem?_concat_eq_some.mpr (.inl ht₀))
    (getElem?_concat_eq_some.mpr (.inr ⟨rfl, rfl⟩)) (hbatch₀.trans hepoch.symm)
    (by rw [hid, hid₀, Nat.mul_zero, Nat.add_zero, Nat.div_eq_of_lt hnode])
  exact (lt_length ht₀).ne hsame

/-- **A list that is too long to be doubled** gets less room than it has entries. -/
theorem Inv.not_accounted_of_full (h : Inv C s start)
    (hs : SequencerAcks.processTxn C client q s = some s')
    (hfits : C.nodeId + C.N.nodeCnt * s.nextTxnId < 2 ^ 32) (hfull : 1000 * 2 ^ 22 ≤ s.nextTxnId) :
    ¬ Accounted C s' := by
  intro hacc
  have ho := h.openBatch
  obtain ⟨k, hk, hmax⟩ := ho.list.maxSize
  have hsize : s.nextTxnId ≤ s.openBatch.2.maxSize := ho.size ▸ ho.list.size_le
  have hpow : (2 : ℕ) ^ k ≤ 2 ^ 22 := Nat.pow_le_pow_right (by omega) hk
  have hnext : s.nextTxnId = 1000 * 2 ^ 22 := by omega
  have heq : s.openBatch.2.maxSize = 1000 * 2 ^ 22 := by omega
  have hgrow : s.openBatch.2.grow.maxSize = s.openBatch.2.maxSize * 2 % 2 ^ 32 :=
    congrArg WaitList.maxSize (if_pos (by rw [ho.size, hnext, heq]))
  have hcnt : 0 < C.N.nodeCnt := lt_of_le_of_lt (Nat.zero_le _) C.nodeId_lt
  obtain ⟨ps, -, -, rfl⟩ := processTxn_eq_some hs
  have hbound := hacc.bound _ (mem_append_right _ (mem_singleton_self _)) _
    (mem_append_right _ (mem_singleton_self _)) rfl
  rw [txnIdOf_eq hfits, Nat.add_mul_div_left _ _ hcnt, Nat.div_eq_of_lt C.nodeId_lt,
    hnext] at hbound
  have hmax' : 0 + 1000 * 2 ^ 22 < s.openBatch.2.grow.maxSize := hbound
  omega

/-- **What carries the exact condition**: where the invariant holds, a step keeps the accounting
exactly if its number fits, and then keeps the invariant. -/
theorem accounted_step {a : Action} (h : ∃ start, Inv C s start)
    (hs : (machine C).step s a = some s') :
    (Accounted C s' ↔ (((machine C).step s a).isSome → Fits C s a)) ∧
      ((((machine C).step s a).isSome → Fits C s a) → ∃ start, Inv C s' start) := by
  obtain ⟨start, h⟩ := h
  have hsome : ((machine C).step s a).isSome := by rw [hs]; rfl
  have hkeep : Fits C s a → ∃ start, Inv C s' start := by
    intro hfits
    cases a with
    | processTxn client q =>
      obtain ⟨-, hs⟩ := ite_none_left_eq_some.mp hs
      exact ⟨_, h.processTxn hs hfits⟩
    | sendNextBatch =>
      obtain ⟨-, hs⟩ := ite_none_left_eq_some.mp hs
      exact ⟨_, some.inj hs ▸ h.sendNextBatch⟩
    | processAck n p =>
      obtain ⟨-, hs⟩ := ite_none_left_eq_some.mp hs
      obtain ⟨t, ht, hs⟩ := bind_eq_some_iff.mp hs
      obtain ⟨⟨hsent, hp, hnew⟩, hs⟩ := ite_none_right_eq_some.mp hs
      exact ⟨_, some.inj hs ▸ h.processAck ht hsent hp hnew⟩
  refine ⟨⟨fun hacc _ => ?_, fun hfits => ?_⟩, fun hfits => hkeep (hfits hsome)⟩
  · cases a with
    | processTxn client q =>
      obtain ⟨-, hs⟩ := ite_none_left_eq_some.mp hs
      have hfits : C.nodeId + C.N.nodeCnt * s.nextTxnId < 2 ^ 32 :=
        not_le.mp fun hwrap => h.not_accounted_of_wrap hs hwrap hacc
      exact ⟨hfits, not_le.mp fun hfull => h.not_accounted_of_full hs hfits hfull hacc⟩
    | sendNextBatch => trivial
    | processAck n p => trivial
  · obtain ⟨start', h'⟩ := hkeep (hfits hsome)
    exact h'.accounted

end Invariant

/-- A client's query with participants gets through while there are few enough in flight. -/
theorem exists_step_processTxn {C : Config} {s : State} {start : ℕ → ℕ} {client : ℕ}
    {q : Query} (h : Inv C s start)
    (hpos : 0 < (q.participants C.N).toList.length)
    (hclient : C.N.nodeCnt ≤ client ∧ client < C.N.nodeCnt + C.clientNodeCnt)
    (hflight : s.nextTxnId + 1 ≤ C.inflightMax * C.N.nodeCnt) :
    ∃ s', (machine C).step s (.processTxn client q) = some s' ∧
      s'.nextTxnId = (s.nextTxnId + 1) % 2 ^ 32 := by
  have hsize : s.openBatch.2.grow.size = s.nextTxnId :=
    (congrArg QliteLl.size (grow_toQliteLl s.openBatch.2)).trans h.openBatch.size
  have hguard : s.openBatch.2.grow.size + 1 ≤ C.inflightMax * C.N.nodeCnt := hsize ▸ hflight
  have hstep : (machine C).step s (.processTxn client q) = processTxn C client q s :=
    if_neg (by rw [h.ok]; exact Bool.false_ne_true)
  exact ⟨_, hstep.trans (if_pos ⟨hpos, hclient.1, hclient.2, hguard⟩), rfl⟩

theorem length_participants_payment_pos (N : Cluster) (wId cWId : ℕ) :
    0 < ((Query.payment wId cWId).participants N).toList.length :=
  length_pos_of_mem (OrderedSet.mem_toList.mpr (OrderedSet.mem_insert.mpr (.inl rfl)))

/-- **When the accounting is right.** For every sequence of queries, batches and acknowledgements:
the accounting is right in every state of the run exactly if each query that is let in gets a number
below `2 ^ 32` and a batch never has more than `1000 * 2 ^ 22` queries. -/
theorem accounted_iff (C : Config) (as : List Action) :
    (∀ k, ∀ s ∈ (machine C).run (as.take k), Accounted C s) ↔
      (machine C).RunOk (fun s a => ((machine C).step s a).isSome → Fits C s a)
      (machine C).init as := by
  refine Machine.runFrom_iff_runOk_of_inv
    (fun s a _ hnone hsome => ?_) (fun s a s' h _ hs => accounted_step h hs) ⟨_, inv_init⟩
    inv_init.accounted as
  rw [hnone] at hsome
  exact absurd hsome Bool.false_ne_true

/-- The first of 1024 nodes, with as many warehouses. -/
def manyNodes : Config where
  N := ⟨1024, 1024⟩
  nodeId := 0
  clientNodeCnt := 1
  inflightMax := 10000
  nodeId_lt := by decide
  nodeCnt_lt := by decide

/-- Payments of the one client, at one warehouse after the other. -/
def payments (n : ℕ) : List Action :=
  (List.range n).map fun k => .processTxn 1024 (.payment (k % 1024 + 1) (k % 1024 + 1))

theorem step_payments {n : ℕ} {s : State} {start : ℕ → ℕ}
    (hrun : (machine manyNodes).run (payments n) = some s) (hinv : Inv manyNodes s start)
    (hnext : s.nextTxnId = n) (hn : n < 10000 * 1024) :
    ∃ s', (machine manyNodes).run (payments (n + 1)) = some s' ∧
      (machine manyNodes).step s
      (.processTxn 1024 (.payment (n % 1024 + 1) (n % 1024 + 1))) = some s' ∧
      s'.nextTxnId = (s.nextTxnId + 1) % 2 ^ 32 := by
  have hflight : s.nextTxnId + 1 ≤ manyNodes.inflightMax * manyNodes.N.nodeCnt := by
    show s.nextTxnId + 1 ≤ 10000 * 1024
    omega
  have hclient : manyNodes.N.nodeCnt ≤ 1024 ∧
      1024 < manyNodes.N.nodeCnt + manyNodes.clientNodeCnt := by
    decide
  obtain ⟨s', hs, hnext'⟩ := exists_step_processTxn hinv
    (length_participants_payment_pos _ (n % 1024 + 1) (n % 1024 + 1)) hclient hflight
  refine ⟨s', ?_, hs, hnext'⟩
  rw [payments, range_succ, map_append, ← payments, Machine.run, Machine.runFrom_append,
    ← Machine.run, hrun]
  exact Machine.runFrom_cons.mpr ⟨s', hs, rfl⟩

/-- As long as the numbers fit, payments are numbered one after the other. -/
theorem run_payments {n : ℕ} (hn : n ≤ 2 ^ 22) :
    ∃ s start, (machine manyNodes).run (payments n) = some s ∧ Inv manyNodes s start ∧
      s.nextTxnId = n := by
  induction n with
  | zero => exact ⟨_, _, rfl, inv_init, rfl⟩
  | succ n ih =>
    obtain ⟨s, start, hrun, hinv, hnext⟩ := ih (by omega)
    obtain ⟨s', hrun', hs, hnext'⟩ := step_payments hrun hinv hnext (by omega)
    have hfits : Fits manyNodes s (.processTxn 1024 (.payment (n % 1024 + 1) (n % 1024 + 1))) := by
      show 0 + 1024 * s.nextTxnId < 2 ^ 32 ∧ s.nextTxnId < 1000 * 2 ^ 22
      omega
    obtain ⟨start', hinv'⟩ := (accounted_step ⟨start, hinv⟩ hs).2 fun _ => hfits
    exact ⟨s', start', hrun', hinv', by omega⟩

/-- **The accounting fails** on 1024 nodes when a batch gets `2 ^ 22 + 1` payments: the number of
the last one is `1024 * 2 ^ 22 % 2 ^ 32 = 0`, which is that of the first. -/
theorem not_accounted_payments :
    ∃ s ∈ (machine manyNodes).run (payments (2 ^ 22 + 1)), ¬ Accounted manyNodes s := by
  obtain ⟨s, start, hrun, hinv, hnext⟩ := run_payments le_rfl
  obtain ⟨s', hrun', hs, -⟩ := step_payments hrun hinv hnext (by omega)
  refine ⟨s', hrun', fun hacc => ?_⟩
  obtain ⟨hfits, -⟩ := (accounted_step ⟨start, hinv⟩ hs).1.mp hacc (by rw [hs]; rfl)
  have hfits : 0 + 1024 * s.nextTxnId < 2 ^ 32 := hfits
  omega

end SequencerAcks

end Deneva
