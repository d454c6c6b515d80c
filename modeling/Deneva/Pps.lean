import Deneva.Protocol

/-!
# Product-Part-Supplier (`benchmarks/pps_txn.cpp`)

The state machine behind `PPSTxnManager::run_txn`. Three kinds of transactions read the
part keys of a product or supplier one by one and then access the parts, which may
belong to other nodes; the others access one row.

`get_row` is asked for the row the state is about, and its answer is an input, as is
the part key found in a row. `run_txn` has no branch for a remote fragment that ends
in `Abort`.
-/

namespace Deneva

namespace Pps

open Protocol

/-- `PPSTxnType`. -/
inductive TxnType : Type where
  | GETPART | GETPRODUCT | GETSUPPLIER | GETPARTBYPRODUCT | GETPARTBYSUPPLIER | ORDERPRODUCT
  | UPDATEPRODUCTPART | UPDATEPART
  deriving DecidableEq

/-- `PPSRemTxnType`. -/
inductive TxnState : Type where
  | GETPART_S | GETPART0 | GETPART1
  | GETPRODUCT_S | GETPRODUCT0 | GETPRODUCT1
  | GETSUPPLIER_S | GETSUPPLIER0 | GETSUPPLIER1
  | GETPARTBYPRODUCT_S | GETPARTBYPRODUCT0 | GETPARTBYPRODUCT1 | GETPARTBYPRODUCT2
  | GETPARTBYPRODUCT3 | GETPARTBYPRODUCT4 | GETPARTBYPRODUCT5
  | GETPARTBYSUPPLIER_S | GETPARTBYSUPPLIER0 | GETPARTBYSUPPLIER1 | GETPARTBYSUPPLIER2
  | GETPARTBYSUPPLIER3 | GETPARTBYSUPPLIER4 | GETPARTBYSUPPLIER5
  | ORDERPRODUCT_S | ORDERPRODUCT0 | ORDERPRODUCT1 | ORDERPRODUCT2
  | ORDERPRODUCT3 | ORDERPRODUCT4 | ORDERPRODUCT5
  | UPDATEPRODUCTPART_S | UPDATEPRODUCTPART0 | UPDATEPRODUCTPART1
  | UPDATEPART_S | UPDATEPART0 | UPDATEPART1
  | FIN | RDONE
  deriving DecidableEq

/-- `PPSTxnManager`, with its query. -/
structure Txn where
  state : TxnState
  partsProcessedCount : ℕ
  /-- `row` is not `NULL` -/
  row : Bool
  /-- `query->txn_type` -/
  txnType : TxnType
  /-- `query->part_key` -/
  partKey : ℕ
  /-- `query->product_key` -/
  productKey : ℕ
  /-- `query->supplier_key` -/
  supplierKey : ℕ
  deriving DecidableEq

/-- `PPSQueryMessage`. -/
structure QueryMessage where
  txnType : TxnType
  state : TxnState
  partKey : ℕ
  productKey : ℕ
  supplierKey : ℕ
  deriving DecidableEq

variable (N : Cluster)

/-- `parts_to_partition`, `products_to_partition` and `suppliers_to_partition`. -/
def toPartition (key : ℕ) : ℕ := key % N.partCnt

/-- The node of a key. -/
def nodeOf (key : ℕ) : ℕ := N.getNodeId (toPartition N key)

/-- The first state of each kind of transaction. -/
def TxnType.first : TxnType → TxnState
  | .GETPART => .GETPART0
  | .GETPRODUCT => .GETPRODUCT0
  | .GETSUPPLIER => .GETSUPPLIER0
  | .GETPARTBYPRODUCT => .GETPARTBYPRODUCT0
  | .GETPARTBYSUPPLIER => .GETPARTBYSUPPLIER0
  | .ORDERPRODUCT => .ORDERPRODUCT0
  | .UPDATEPRODUCTPART => .UPDATEPRODUCTPART0
  | .UPDATEPART => .UPDATEPART0

/-- `reset`. -/
def reset (t : Txn) : Txn := { t with state := t.txnType.first, partsProcessedCount := 0 }

/-- `is_done`. -/
def isDone (t : Txn) : Bool := t.state = .FIN

/-- After a part key has been looked up: go on with the part if there was one. -/
def nextPart (found : TxnState) (t : Txn) : Txn :=
  if t.row then { t with partsProcessedCount := t.partsProcessedCount + 1, state := found }
  else { t with state := .FIN }

/-- `next_pps_state`. -/
def nextPpsState (isLocal : Bool) (t : Txn) : Option Txn :=
  match t.state with
  | .GETPART_S => some { t with state := .GETPART0 }
  | .GETPART0 => some { t with state := .GETPART1 }
  | .GETPART1 => some { t with state := .FIN }
  | .GETPRODUCT_S => some { t with state := .GETPRODUCT0 }
  | .GETPRODUCT0 => some { t with state := .GETPRODUCT1 }
  | .GETPRODUCT1 => some { t with state := .FIN }
  | .GETSUPPLIER_S => some { t with state := .GETSUPPLIER0 }
  | .GETSUPPLIER0 => some { t with state := .GETSUPPLIER1 }
  | .GETSUPPLIER1 => some { t with state := .FIN }
  | .GETPARTBYSUPPLIER_S => some { t with state := .GETPARTBYSUPPLIER0 }
  | .GETPARTBYSUPPLIER0 => some { t with state := .GETPARTBYSUPPLIER1 }
  | .GETPARTBYSUPPLIER1 => some { t with state := .GETPARTBYSUPPLIER2 }
  | .GETPARTBYSUPPLIER2 => some (nextPart .GETPARTBYSUPPLIER3 t)
  | .GETPARTBYSUPPLIER3 => some { t with state := .GETPARTBYSUPPLIER4 }
  | .GETPARTBYSUPPLIER4 => some { t with state := .GETPARTBYSUPPLIER5 }
  | .GETPARTBYSUPPLIER5 => some { t with state := if isLocal then .GETPARTBYSUPPLIER2 else .FIN }
  | .GETPARTBYPRODUCT_S => some { t with state := .GETPARTBYPRODUCT0 }
  | .GETPARTBYPRODUCT0 => some { t with state := .GETPARTBYPRODUCT1 }
  | .GETPARTBYPRODUCT1 => some { t with state := .GETPARTBYPRODUCT2 }
  | .GETPARTBYPRODUCT2 => some (nextPart .GETPARTBYPRODUCT3 t)
  | .GETPARTBYPRODUCT3 => some { t with state := .GETPARTBYPRODUCT4 }
  | .GETPARTBYPRODUCT4 => some { t with state := .GETPARTBYPRODUCT5 }
  | .GETPARTBYPRODUCT5 => some { t with state := if isLocal then .GETPARTBYPRODUCT2 else .FIN }
  | .ORDERPRODUCT_S => some { t with state := .ORDERPRODUCT0 }
  | .ORDERPRODUCT0 => some { t with state := .ORDERPRODUCT1 }
  | .ORDERPRODUCT1 => some { t with state := .ORDERPRODUCT2 }
  -- here the home node stops, whether or not there is a part
  | .ORDERPRODUCT2 => some (if isLocal then { t with state := .FIN } else nextPart .ORDERPRODUCT3 t)
  | .ORDERPRODUCT3 => some { t with state := .ORDERPRODUCT4 }
  | .ORDERPRODUCT4 => some { t with state := .ORDERPRODUCT5 }
  | .ORDERPRODUCT5 => some { t with state := if isLocal then .ORDERPRODUCT2 else .FIN }
  | .UPDATEPRODUCTPART_S => some { t with state := .UPDATEPRODUCTPART0 }
  | .UPDATEPRODUCTPART0 => some { t with state := .UPDATEPRODUCTPART1 }
  | .UPDATEPRODUCTPART1 => some { t with state := .FIN }
  | .UPDATEPART_S => some { t with state := .UPDATEPART0 }
  | .UPDATEPART0 => some { t with state := .UPDATEPART1 }
  | .UPDATEPART1 => some { t with state := .FIN }
  | .FIN => some t
  | .RDONE => none

/-- `send_remote_request`: always to the node of the part, and the home node is then
done; only the home node may call it. -/
def sendRemoteRequest (isLocal : Bool) (t : Txn) : Option (RC × Txn × Option (ℕ × QueryMessage)) :=
  if isLocal then
    some (.WAIT_REM, { t with state := .FIN }, some (nodeOf N t.partKey,
      ⟨t.txnType, t.state, t.partKey, t.productKey, t.supplierKey⟩))
  else none

/-- A state that calls `get_row`, and moves on if it is granted. -/
def getRow (isLocal : Bool) (t : Txn) (a : Answer) :
    Option (RC × Txn × Option (ℕ × QueryMessage)) :=
  if a.item then
    if a.rc = .RCOK then
      (nextPpsState isLocal { t with row := true }).map fun t => (.RCOK, t, none)
    else some (a.rc, { t with row := false }, none)
  else none

/-- A state that looks for the next part: there may be none. -/
def getRowOrNull (isLocal : Bool) (t : Txn) (a : Answer) :
    Option (RC × Txn × Option (ℕ × QueryMessage)) :=
  if a.item then getRow isLocal t a
  else (nextPpsState isLocal { t with row := false }).map fun t => (.RCOK, t, none)

/-- A state that works on the row it has. -/
def useRow (isLocal : Bool) (t : Txn) : Option (RC × Txn × Option (ℕ × QueryMessage)) :=
  if t.row then (nextPpsState isLocal t).map fun t => (.RCOK, t, none) else none

/-- A state that reads the part key from the row it has. -/
def readPartKey (isLocal : Bool) (t : Txn) (a : Answer) :
    Option (RC × Txn × Option (ℕ × QueryMessage)) :=
  useRow isLocal { t with partKey := a.value }

/-- A state whose row belongs to `key`: served here, or sent on. -/
def atKey (node key : ℕ) (isLocal : Bool) (t : Txn)
    (serve : Option (RC × Txn × Option (ℕ × QueryMessage))) :
    Option (RC × Txn × Option (ℕ × QueryMessage)) :=
  if nodeOf N key = node then serve else sendRemoteRequest N isLocal t

/-- `run_txn_state`. -/
def runTxnState (node : ℕ) (isLocal : Bool) (t : Txn) (a : Answer) :
    Option (RC × Txn × Option (ℕ × QueryMessage)) :=
  match t.state with
  | .GETPART0 => atKey N node t.partKey isLocal t (getRow isLocal t a)
  | .GETPART1 => useRow isLocal t
  | .GETPRODUCT0 => atKey N node t.productKey isLocal t (getRow isLocal t a)
  | .GETPRODUCT1 => useRow isLocal t
  | .GETSUPPLIER0 => atKey N node t.supplierKey isLocal t (getRow isLocal t a)
  | .GETSUPPLIER1 => useRow isLocal t
  | .GETPARTBYSUPPLIER0 => atKey N node t.supplierKey isLocal t (getRow isLocal t a)
  | .GETPARTBYSUPPLIER1 => useRow isLocal t
  | .GETPARTBYSUPPLIER2 => atKey N node t.supplierKey isLocal t (getRowOrNull isLocal t a)
  | .GETPARTBYSUPPLIER3 => readPartKey isLocal t a
  | .GETPARTBYSUPPLIER4 => atKey N node t.partKey isLocal t (getRow isLocal t a)
  | .GETPARTBYSUPPLIER5 => useRow isLocal t
  | .GETPARTBYPRODUCT0 => atKey N node t.productKey isLocal t (getRow isLocal t a)
  | .GETPARTBYPRODUCT1 => useRow isLocal t
  | .GETPARTBYPRODUCT2 => atKey N node t.productKey isLocal t (getRowOrNull isLocal t a)
  | .GETPARTBYPRODUCT3 => readPartKey isLocal t a
  | .GETPARTBYPRODUCT4 => atKey N node t.partKey isLocal t (getRow isLocal t a)
  | .GETPARTBYPRODUCT5 => useRow isLocal t
  | .ORDERPRODUCT0 => atKey N node t.productKey isLocal t (getRow isLocal t a)
  | .ORDERPRODUCT1 => useRow isLocal t
  | .ORDERPRODUCT2 => atKey N node t.productKey isLocal t (getRowOrNull isLocal t a)
  | .ORDERPRODUCT3 => readPartKey isLocal t a
  | .ORDERPRODUCT4 => atKey N node t.partKey isLocal t (getRow isLocal t a)
  | .ORDERPRODUCT5 => useRow isLocal t
  | .UPDATEPRODUCTPART0 => atKey N node t.productKey isLocal t (getRow isLocal t a)
  | .UPDATEPRODUCTPART1 => useRow isLocal t
  | .UPDATEPART0 => atKey N node t.partKey isLocal t (getRow isLocal t a)
  | .UPDATEPART1 => useRow isLocal t
  | .FIN => some (.RCOK, t, none)
  | _ => none

/-- `copy_to_txn`: only the key the kind of transaction sends is copied. -/
def copyToTxn (m : QueryMessage) (t : Txn) : Txn :=
  let t := { t with txnType := m.txnType, state := m.state }
  match m.txnType with
  | .GETPRODUCT | .UPDATEPRODUCTPART => { t with productKey := m.productKey }
  | .GETSUPPLIER => { t with supplierKey := m.supplierKey }
  | .GETPART | .GETPARTBYPRODUCT | .GETPARTBYSUPPLIER | .ORDERPRODUCT | .UPDATEPART =>
    { t with partKey := m.partKey }

/-- `run_txn_post_wait`. -/
def runTxnPostWait (isLocal : Bool) (t : Txn) : Txn :=
  (nextPpsState isLocal { t with row := true }).getD t

/-- `readonly`. -/
def readonly (t : Txn) : Bool :=
  decide (t.txnType ≠ .ORDERPRODUCT ∧ t.txnType ≠ .UPDATEPRODUCTPART ∧ t.txnType ≠ .UPDATEPART)

/-- Product-Part-Supplier as a workload. -/
def workload : Workload Txn QueryMessage where
  init := ⟨.GETPART0, 0, false, .GETPART, 0, 0, 0⟩
  reset := reset
  resetQuery t := t
  copyToTxn := copyToTxn
  firstRun t := decide (t.state ∈ [.GETPART0, .GETPRODUCT0, .GETSUPPLIER0, .GETPARTBYSUPPLIER0,
    .GETPARTBYPRODUCT0, .ORDERPRODUCT0, .UPDATEPRODUCTPART0, .UPDATEPART0])
  isDone := isDone
  runTxnState := runTxnState N
  runTxnPostWait := runTxnPostWait
  readonly := readonly
  abortRemote := false

/-- A transaction with its home node; the query gives the first state. -/
def config (cc : CCAlg) (home : ℕ) (query : Txn) : Config Txn QueryMessage where
  W := workload N
  cc := cc
  nodeCnt := N.nodeCnt
  home := home
  query := reset query

end Pps

end Deneva
