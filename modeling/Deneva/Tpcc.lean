import Deneva.Protocol

/-!
# TPC-C (`benchmarks/tpcc_txn.cpp`)

The state machine behind `TPCCTxnManager::run_txn`, for the two transactions it has:
a payment, whose customer may belong to another node, and a new order, whose items
may be supplied by others.

`get_row` is asked for the row the state is about; which one that is does not
matter here, its answer is an input. `run_txn` has no branch for a remote fragment
that ends in `Abort`.
-/

namespace Deneva

namespace Tpcc

open Protocol

/-- `TPCCTxnType`, as far as it is implemented. -/
inductive TxnType : Type where
  | TPCC_PAYMENT | TPCC_NEW_ORDER
  deriving DecidableEq

/-- `TPCCRemTxnType`. -/
inductive TxnState : Type where
  | PAYMENT_S | PAYMENT0 | PAYMENT1 | PAYMENT2 | PAYMENT3 | PAYMENT4 | PAYMENT5
  | NEWORDER_S | NEWORDER0 | NEWORDER1 | NEWORDER2 | NEWORDER3 | NEWORDER4 | NEWORDER5
  | NEWORDER6 | NEWORDER7 | NEWORDER8 | NEWORDER9 | FIN | RDONE
  deriving DecidableEq

/-- `TPCCTxnManager`, with its query. -/
structure Txn where
  state : TxnState
  nextItemId : ℕ
  /-- `row` is not `NULL` -/
  row : Bool
  /-- `query->txn_type` -/
  txnType : TxnType
  /-- `query->w_id` -/
  wId : ℕ
  /-- `query->c_w_id` -/
  cWId : ℕ
  /-- the `ol_supply_w_id` of `query->items` -/
  items : List ℕ
  /-- `query->rbk` -/
  rbk : Bool
  deriving DecidableEq

/-- `TPCCQueryMessage`. -/
structure QueryMessage where
  txnType : TxnType
  state : TxnState
  wId : ℕ
  /-- `c_w_id`, of a payment -/
  cWId : ℕ
  /-- `items`, of a new order -/
  items : List ℕ
  /-- `rbk`, of a new order -/
  rbk : Bool
  deriving DecidableEq

variable (N : Cluster)

/-- `wh_to_part`, in 64-bit arithmetic. -/
def whToPart (wid : ℕ) : ℕ := u64 (wid + UINT64_MAX) % N.partCnt

/-- The node of a warehouse. -/
def nodeOf (wid : ℕ) : ℕ := N.getNodeId (whToPart N wid)

/-- `is_done`. -/
def isDone (t : Txn) : Bool :=
  match t.txnType with
  | .TPCC_PAYMENT => t.state = .FIN
  | .TPCC_NEW_ORDER => t.nextItemId = t.items.length ∨ t.state = .FIN

/-- The state of a new order once an item, or the order itself, is done. -/
def nextItem (isLocal : Bool) (t : Txn) : Txn :=
  if !isLocal || !isDone t then { t with state := .NEWORDER6 } else { t with state := .FIN }

/-- `next_tpcc_state`. -/
def nextTpccState (isLocal : Bool) (t : Txn) : Option Txn :=
  match t.state with
  | .PAYMENT_S => some { t with state := .PAYMENT0 }
  | .PAYMENT0 => some { t with state := .PAYMENT1 }
  | .PAYMENT1 => some { t with state := .PAYMENT2 }
  | .PAYMENT2 => some { t with state := .PAYMENT3 }
  | .PAYMENT3 => some { t with state := .PAYMENT4 }
  | .PAYMENT4 => some { t with state := .PAYMENT5 }
  | .PAYMENT5 => some { t with state := .FIN }
  | .NEWORDER_S => some { t with state := .NEWORDER0 }
  | .NEWORDER0 => some { t with state := .NEWORDER1 }
  | .NEWORDER1 => some { t with state := .NEWORDER2 }
  | .NEWORDER2 => some { t with state := .NEWORDER3 }
  | .NEWORDER3 => some { t with state := .NEWORDER4 }
  | .NEWORDER4 => some { t with state := .NEWORDER5 }
  | .NEWORDER5 => some (nextItem isLocal t)
  | .NEWORDER6 => some { t with state := .NEWORDER7 }
  | .NEWORDER7 => some { t with state := .NEWORDER8 }
  | .NEWORDER8 => some { t with state := .NEWORDER9 }
  | .NEWORDER9 => some (nextItem isLocal { t with nextItemId := t.nextItemId + 1 })
  | .FIN => some t
  | .RDONE => none

/-- `reset`. -/
def reset (t : Txn) : Txn :=
  { t with
    state := match t.txnType with
      | .TPCC_PAYMENT => .PAYMENT0
      | .TPCC_NEW_ORDER => .NEWORDER0
    nextItemId := 0 }

/-- `copy_remote_items`: the items from the current one on that the same other node
supplies. -/
def copyRemoteItems (node : ℕ) (t : Txn) : List ℕ :=
  match t.txnType, t.items[t.nextItemId]? with
  | .TPCC_NEW_ORDER, some first =>
    (t.items.drop t.nextItemId).takeWhile fun wid =>
      decide (nodeOf N wid ≠ node) && decide (nodeOf N wid = nodeOf N first)
  | _, _ => []

/-- The destination of `send_remote_request` and the state it leaves, for the states that
call it. -/
def remoteRequest (t : Txn) : Option (ℕ × TxnState) :=
  match t.state with
  | .PAYMENT0 => some (nodeOf N t.wId, .PAYMENT2)
  | .PAYMENT4 => some (nodeOf N t.cWId, .FIN)
  | .NEWORDER0 => some (nodeOf N t.wId, .NEWORDER6)
  | .NEWORDER8 =>
    t.items[t.nextItemId]?.map fun wid => (nodeOf N wid, if isDone t then .FIN else .NEWORDER6)
  | _ => none

/-- `send_remote_request`; only the home node may call it. -/
def sendRemoteRequest (node : ℕ) (isLocal : Bool) (t : Txn) :
    Option (RC × Txn × Option (ℕ × QueryMessage)) :=
  if isLocal then
    (remoteRequest N t).map fun (dest, nextState) =>
      let items := copyRemoteItems N node t
      (.WAIT_REM, { t with state := nextState, nextItemId := t.nextItemId + items.length },
        some (dest, ⟨t.txnType, t.state, t.wId, t.cWId, items, t.rbk⟩))
  else none

/-- A state that calls `get_row`, and moves on if it is granted. -/
def getRow (isLocal : Bool) (t : Txn) (a : Answer) :
    Option (RC × Txn × Option (ℕ × QueryMessage)) :=
  if a.item then
    if a.rc = .RCOK then
      (nextTpccState isLocal { t with row := true }).map fun t => (.RCOK, t, none)
    else some (a.rc, { t with row := false }, none)
  else none

/-- A state that works on the row it has. -/
def useRow (isLocal : Bool) (t : Txn) : Option (RC × Txn × Option (ℕ × QueryMessage)) :=
  if t.row then (nextTpccState isLocal t).map fun t => (.RCOK, t, none) else none

/-- `run_txn_state`. -/
def runTxnState (node : ℕ) (isLocal : Bool) (t : Txn) (a : Answer) :
    Option (RC × Txn × Option (ℕ × QueryMessage)) :=
  -- the current item of a new order is read first
  if t.txnType = .TPCC_NEW_ORDER ∧ t.items.length ≤ t.nextItemId then none
  else
    match t.state with
    | .PAYMENT0 =>
      if nodeOf N t.wId = node then getRow isLocal t a else sendRemoteRequest N node isLocal t
    | .PAYMENT1 => useRow isLocal t
    | .PAYMENT2 => getRow isLocal t a
    | .PAYMENT3 => useRow isLocal t
    | .PAYMENT4 =>
      if nodeOf N t.cWId = node then getRow isLocal t a else sendRemoteRequest N node isLocal t
    | .PAYMENT5 => useRow isLocal t
    | .NEWORDER0 =>
      if nodeOf N t.wId = node then getRow isLocal t a else sendRemoteRequest N node isLocal t
    | .NEWORDER1 => useRow isLocal t
    | .NEWORDER2 => getRow isLocal t a
    | .NEWORDER3 => useRow isLocal t
    | .NEWORDER4 => getRow isLocal t a
    | .NEWORDER5 => useRow isLocal t
    | .NEWORDER6 => getRow isLocal t a
    | .NEWORDER7 => useRow isLocal t
    | .NEWORDER8 =>
      match t.items[t.nextItemId]? with
      | some wid =>
        if nodeOf N wid = node then getRow isLocal t a else sendRemoteRequest N node isLocal t
      | none => none
    | .NEWORDER9 => useRow isLocal t
    | .FIN => if t.rbk then some (.Abort, t, none) else some (.RCOK, t, none)
    | _ => none

/-- `copy_to_txn`. -/
def copyToTxn (m : QueryMessage) (t : Txn) : Txn :=
  let t := { t with txnType := m.txnType, state := m.state, wId := m.wId }
  match m.txnType with
  | .TPCC_PAYMENT => { t with cWId := m.cWId }
  | .TPCC_NEW_ORDER => { t with items := t.items ++ m.items, rbk := m.rbk }

/-- `run_txn_post_wait`. -/
def runTxnPostWait (isLocal : Bool) (t : Txn) : Txn :=
  (nextTpccState isLocal { t with row := true }).getD t

/-- TPC-C as a workload. -/
def workload : Workload Txn QueryMessage where
  init := ⟨.PAYMENT0, 0, false, .TPCC_PAYMENT, 0, 0, [], false⟩
  reset := reset
  resetQuery t := { t with items := [] }
  copyToTxn := copyToTxn
  firstRun t := decide (t.state = .PAYMENT0 ∨ t.state = .NEWORDER0)
  isDone := isDone
  runTxnState := runTxnState N
  runTxnPostWait := runTxnPostWait
  readonly _ := false
  abortRemote := false

/-- A TPC-C transaction with its home node; the query gives the first state. -/
def config (cc : CCAlg) (home : ℕ) (query : Txn) : Config Txn QueryMessage where
  W := workload N
  cc := cc
  nodeCnt := N.nodeCnt
  home := home
  query := reset query

end Tpcc

end Deneva
