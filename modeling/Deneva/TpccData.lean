import Deneva.Attempt
import Deneva.Tpcc

/-!
# What TPC-C does to its tables (`benchmarks/tpcc_txn.cpp`)

Each node has the rows of its warehouses, and a copy of `ITEM`. A row is named by its table and the
key of the index it is found with; the tables that are only inserted into are lists.

The functions `run_payment_0` … `new_order_9` come in pairs: one finds a row and leaves it in the
cursor `row` of the manager, the next one works on the row in the cursor. Here the first of a pair
is the row it finds, and the second one takes a row, since the two paths through them do not always
give it the row that the first has found:

* `run_txn` runs them as the states of the manager (`program`);
* `run_calvin_txn` reads in its second phase and writes in its fifth (`runCalvinTxn`). Each
  `get_row` asks the framework for the transaction and calls `framework->read` or
  `framework->write`. Whether these calls come back at a node is a parameter: a node where one of
  them does not never gets to the end. `FrameworkCalvin` is about what the framework knows.
-/

namespace Deneva

open Function

namespace Tpcc

open Protocol

/-! ## Tables -/

/-- The tables whose rows are read or changed. -/
inductive Table : Type where
  | WAREHOUSE | DISTRICT | CUSTOMER | ITEM | STOCK
  deriving DecidableEq

/-- A row, by its table and its key in the index of the table. -/
structure RowRef where
  /-- the table -/
  table : Table
  /-- the key -/
  key : ℕ
  deriving DecidableEq

/-- The columns of `tpcc_const.h` that are used. -/
def W_YTD : ℕ := 8
@[inherit_doc W_YTD] def D_YTD : ℕ := 9
@[inherit_doc W_YTD] def D_NEXT_O_ID : ℕ := 10
@[inherit_doc W_YTD] def C_BALANCE : ℕ := 16
@[inherit_doc W_YTD] def C_YTD_PAYMENT : ℕ := 17
@[inherit_doc W_YTD] def C_PAYMENT_CNT : ℕ := 18
@[inherit_doc W_YTD] def S_QUANTITY : ℕ := 2
@[inherit_doc W_YTD] def S_YTD : ℕ := 13
@[inherit_doc W_YTD] def S_ORDER_CNT : ℕ := 14
@[inherit_doc W_YTD] def S_REMOTE_CNT : ℕ := 15

/-- A row of `ORDER`. -/
structure OrderRow where
  oId : ℤ
  /-- `O_C_ID` -/
  cId : ℕ
  /-- `O_D_ID` -/
  dId : ℕ
  /-- `O_W_ID` -/
  wId : ℕ
  /-- `O_ENTRY_D` -/
  entryD : ℕ
  /-- `O_OL_CNT` -/
  olCnt : ℕ
  /-- `O_ALL_LOCAL` -/
  allLocal : Bool
  deriving DecidableEq

/-- A row of `NEW-ORDER`. -/
structure NewOrderRow where
  /-- `NO_O_ID` -/
  oId : ℤ
  /-- `NO_D_ID` -/
  dId : ℕ
  /-- `NO_W_ID` -/
  wId : ℕ
  deriving DecidableEq

/-- A row of `ORDER-LINE`. -/
structure OrderLineRow where
  /-- `OL_O_ID` -/
  oId : ℤ
  /-- `OL_D_ID` -/
  dId : ℕ
  /-- `OL_W_ID` -/
  wId : ℕ
  /-- `OL_NUMBER` -/
  number : ℕ
  /-- `OL_I_ID` -/
  iId : ℕ
  /-- `OL_SUPPLY_W_ID` -/
  supplyWId : ℕ
  /-- `OL_QUANTITY` -/
  quantity : ℤ
  /-- `OL_AMOUNT` -/
  amount : ℤ
  deriving DecidableEq

/-- A row of `HISTORY`. -/
structure HistoryRow where
  /-- `H_C_ID` -/
  cId : ℕ
  /-- `H_C_D_ID` -/
  cDId : ℕ
  /-- `H_C_W_ID` -/
  cWId : ℕ
  /-- `H_D_ID` -/
  dId : ℕ
  /-- `H_W_ID` -/
  wId : ℕ
  /-- `H_DATE` -/
  date : ℕ
  /-- `H_AMOUNT` -/
  amount : ℤ
  deriving DecidableEq

/-- What is at a node when a transaction begins. -/
structure Contents where
  /-- the values in the rows, by column -/
  row : RowRef → ℕ → ℤ
  /-- the customers that `i_customer_last` has for a key -/
  customerLast : ℕ → List ℕ
  /-- `query->o_id` of the manager; it is not set when the manager gets its query, and no message
  brings it: `process_rfwd` does not call `copy_to_txn` -/
  oId : ℤ
  /-- `query->ol_amount`, which nothing sets -/
  olAmount : ℤ

/-- What a transaction has inserted at a node. -/
structure Inserts where
  /-- `ORDER` -/
  orders : List OrderRow
  /-- `NEW-ORDER` -/
  newOrders : List NewOrderRow
  /-- `ORDER-LINE` -/
  orderLines : List OrderLineRow
  history : List HistoryRow
  deriving DecidableEq

/-- A node. -/
structure NodeData : Type extends Contents, Inserts

/-- A node at which nothing is inserted yet. -/
def Contents.start (c : Contents) : NodeData := ⟨c, ⟨[], [], [], []⟩⟩

/-- `set_value`. -/
def NodeData.setValue (r : RowRef) (column : ℕ) (x : ℤ) (d : NodeData) : NodeData :=
  { d with row := update d.row r (update (d.row r) column x) }

/-! ## Queries -/

/-- `Item_no`. -/
structure Item where
  /-- `ol_i_id` -/
  iId : ℕ
  /-- `ol_supply_w_id` -/
  supplyWId : ℕ
  /-- `ol_quantity` -/
  quantity : ℤ
  deriving DecidableEq

/-- `TPCCQuery`, without what no node is told. -/
structure Query where
  txnType : TxnType
  wId : ℕ
  dId : ℕ
  cId : ℕ
  dWId : ℕ
  cWId : ℕ
  cDId : ℕ
  /-- the characters of `c_last` -/
  cLast : List ℕ
  hAmount : ℤ
  byLastName : Bool
  items : List Item
  rbk : Bool
  remote : Bool
  olCnt : ℕ
  oEntryD : ℕ
  deriving DecidableEq

/-- What the generator makes a payment of. -/
structure Payment where
  wId : ℕ
  dId : ℕ
  cId : ℕ
  dWId : ℕ
  cWId : ℕ
  cDId : ℕ
  /-- the characters of `c_last` -/
  cLast : List ℕ
  hAmount : ℤ
  byLastName : Bool
  deriving DecidableEq

/-- What the generator makes a new order of. -/
structure NewOrder where
  wId : ℕ
  dId : ℕ
  cId : ℕ
  items : List Item
  rbk : Bool
  remote : Bool
  oEntryD : ℕ
  deriving DecidableEq

/-- The query of a payment. -/
def Payment.query (p : Payment) : Query :=
  ⟨.TPCC_PAYMENT, p.wId, p.dId, p.cId, p.dWId, p.cWId, p.cDId, p.cLast, p.hAmount, p.byLastName,
    [], false, false, 0, 0⟩

/-- The query of a new order; `ol_cnt` is the number of its items. -/
def NewOrder.query (o : NewOrder) : Query :=
  ⟨.TPCC_NEW_ORDER, o.wId, o.dId, o.cId, 0, 0, 0, [], 0, false,
    o.items, o.rbk, o.remote, o.items.length, o.oEntryD⟩

@[simp] theorem NewOrder.query_txnType (o : NewOrder) : o.query.txnType = .TPCC_NEW_ORDER := rfl

@[simp] theorem NewOrder.query_wId (o : NewOrder) : o.query.wId = o.wId := rfl

@[simp] theorem NewOrder.query_items (o : NewOrder) : o.query.items = o.items := rfl

/-! ## Rows -/

/-- The cluster, and the sizes of the tables. -/
structure Scale : Type extends Cluster where
  whUpdate : Bool
  distPerWh : ℕ
  custPerDist : ℕ
  maxItems : ℕ

section Rows

variable (S : Scale)

/-- `distKey`. -/
def distKey (dId dWId : ℕ) : ℕ := dWId * S.distPerWh + dId

/-- `custKey`. -/
def custKey (cId cDId cWId : ℕ) : ℕ := distKey S cDId cWId * S.custPerDist + cId

/-- `custNPKey`: the letters count from `A`, which is 65. -/
def custNPKey (cLast : List ℕ) (cDId cWId : ℕ) : ℕ :=
  u64
    (cLast.foldl (fun key c => u64 (key * 2 + c + (2 ^ 64 - 65))) 0 * 2 ^ 10 + distKey S cDId cWId)

/-- `stockKey`. -/
def stockKey (iId wId : ℕ) : ℕ := wId * S.maxItems + iId

/-- The row of `run_payment_0` and `new_order_0`. -/
def warehouseRow (q : Query) : RowRef := ⟨.WAREHOUSE, q.wId⟩

/-- The row of `run_payment_2`. -/
def payment2Row (q : Query) : RowRef := ⟨.DISTRICT, distKey S q.dId q.dWId⟩

/-- The loop that looks for the middle one of the customers with a name: `rest` is `it`, and `mid`
moves on with every other one. -/
def midLoop : List ℕ → ℕ → List ℕ → List ℕ
  | [], _, mid => mid
  | _ :: rest, cnt, mid => midLoop rest (cnt + 1) (if (cnt + 1) % 2 = 0 then mid.tail else mid)

/-- The row of `run_payment_4`; there may be no customer with the name. -/
def payment4Row (q : Query) (d : NodeData) : Option RowRef :=
  if q.byLastName then
    let found := d.customerLast (custNPKey S q.cLast q.cDId q.cWId)
    (midLoop found 0 found).head?.map fun key => ⟨.CUSTOMER, key⟩
  else some ⟨.CUSTOMER, custKey S q.cId q.cDId q.cWId⟩

/-- The row of `new_order_2`. -/
def newOrder2Row (q : Query) : RowRef := ⟨.CUSTOMER, custKey S q.cId q.dId q.wId⟩

/-- The row of `new_order_4`. -/
def newOrder4Row (q : Query) : RowRef := ⟨.DISTRICT, distKey S q.dId q.wId⟩

/-- The row of `new_order_6`. -/
def newOrder6Row (item : Item) : RowRef := ⟨.ITEM, item.iId⟩

/-- The row of `new_order_8`. -/
def newOrder8Row (item : Item) : RowRef := ⟨.STOCK, stockKey S item.iId item.supplyWId⟩

/-! ## Changes -/

/-- `run_payment_1`. -/
def payment1 (q : Query) (r : RowRef) (d : NodeData) : NodeData :=
  if S.whUpdate then d.setValue r W_YTD (d.row r W_YTD + q.hAmount) else d

/-- `run_payment_3`. -/
def payment3 (q : Query) (r : RowRef) (d : NodeData) : NodeData :=
  d.setValue r D_YTD (d.row r D_YTD + q.hAmount)

/-- `run_payment_5`. -/
def payment5 (q : Query) (r : RowRef) (d : NodeData) : NodeData :=
  let d := d.setValue r C_BALANCE (d.row r C_BALANCE - q.hAmount)
  let d := d.setValue r C_YTD_PAYMENT (d.row r C_YTD_PAYMENT + q.hAmount)
  let d := d.setValue r C_PAYMENT_CNT (d.row r C_PAYMENT_CNT + 1)
  { d with history := d.history ++ [⟨q.cId, q.cDId, q.cWId, q.dId, q.wId, 2013, q.hAmount⟩] }

/-- `new_order_5` of a row of `DISTRICT`. -/
def newOrder5 (q : Query) (r : RowRef) (d : NodeData) : NodeData :=
  let oId := d.row r D_NEXT_O_ID + 1
  let d := d.setValue r D_NEXT_O_ID oId
  { d with
    oId := oId
    orders := d.orders ++ [⟨oId, q.cId, q.dId, q.wId, q.oEntryD, q.olCnt, !q.remote⟩]
    newOrders := d.newOrders ++ [⟨oId, q.dId, q.wId⟩] }

/-- `new_order_9`. -/
def newOrder9 (q : Query) (item : Item) (number : ℕ) (oId : ℤ) (r : RowRef) (d : NodeData) :
    NodeData :=
  let quantity := d.row r S_QUANTITY
  let d := d.setValue r S_YTD (d.row r S_YTD + item.quantity)
  let d := d.setValue r S_ORDER_CNT (d.row r S_ORDER_CNT + 1)
  let d := if q.remote then d.setValue r S_REMOTE_CNT (d.row r S_REMOTE_CNT + 1) else d
  let d := d.setValue r S_QUANTITY
    (if quantity > item.quantity + 10 then quantity - item.quantity
      else quantity - item.quantity + 91)
  { d with
    orderLines := d.orderLines ++
      [⟨oId, q.dId, q.wId, number, item.iId, item.supplyWId, item.quantity, d.olAmount⟩] }

/-! ## The plain path -/

/-- `TPCCTxnManager`, with all of its query. -/
structure Manager where
  state : TxnState
  nextItemId : ℕ
  /-- `row` is not `NULL` -/
  hasRow : Bool
  query : Query
  deriving DecidableEq

/-- `TPCCQueryMessage`: the state, and a query of which the receiver takes what its kind of
transaction sends. -/
structure FragmentMessage where
  state : TxnState
  /-- the other fields -/
  query : Query
  deriving DecidableEq

namespace Manager

/-- What decides on the way of a transaction. -/
def txn (t : Manager) : Txn :=
  ⟨t.state, t.nextItemId, t.hasRow, t.query.txnType, t.query.wId, t.query.cWId,
    t.query.items.map Item.supplyWId, t.query.rbk⟩

/-- The manager after a step of what decides on its way. -/
def setTxn (t : Manager) (c : Txn) : Manager :=
  { t with state := c.state, nextItemId := c.nextItemId, hasRow := c.row }

/-- `copy_from_txn`; `copy_remote_items` has taken as many items as the short form of the message
has. -/
def message (t : Manager) (m : QueryMessage) : FragmentMessage :=
  ⟨m.state, { t.query with items := (t.query.items.drop t.nextItemId).take m.items.length }⟩

/-- `run_txn_state`. -/
def runTxnState (N : Cluster) (node : ℕ) (isLocal : Bool) (t : Manager) (a : Answer) :
    Option (RC × Manager × Option (ℕ × FragmentMessage)) :=
  (Tpcc.runTxnState N node isLocal t.txn a).map fun (rc, c, out) =>
    (rc, t.setTxn c, out.map fun (dest, m) => (dest, t.message m))

/-- `copy_to_txn`. -/
def copyToTxn (m : FragmentMessage) (t : Manager) : Manager :=
  let q := { t.query with
    txnType := m.query.txnType, wId := m.query.wId, dId := m.query.dId, cId := m.query.cId }
  { t with
    state := m.state
    query := match m.query.txnType with
      | .TPCC_PAYMENT =>
        { q with
          dWId := m.query.dWId, cWId := m.query.cWId, cDId := m.query.cDId, cLast := m.query.cLast
          hAmount := m.query.hAmount, byLastName := m.query.byLastName }
      | .TPCC_NEW_ORDER =>
        { q with
          items := q.items ++ m.query.items, rbk := m.query.rbk, remote := m.query.remote
          olCnt := m.query.olCnt, oEntryD := m.query.oEntryD } }

/-- A manager fresh from the pool. -/
def init : Manager :=
  ⟨.PAYMENT0, 0, false, ⟨.TPCC_PAYMENT, 0, 0, 0, 0, 0, 0, [], 0, false, [], false, false, 0, 0⟩⟩

/-- A manager that has got a query from a client. -/
def ofQuery (q : Query) : Manager := { init with query := q }

/-- `reset`. -/
def reset (t : Manager) : Manager := t.setTxn (Tpcc.reset t.txn)

end Manager

/-- TPC-C as a workload, with all of the query. -/
def dataWorkload (N : Cluster) : Workload Manager FragmentMessage where
  init := .init
  reset := .reset
  resetQuery t := { t with query := { t.query with items := [] } }
  copyToTxn := Manager.copyToTxn
  firstRun t := decide (t.state = .PAYMENT0 ∨ t.state = .NEWORDER0)
  isDone t := isDone t.txn
  runTxnState := Manager.runTxnState N
  runTxnPostWait isLocal t := t.setTxn (Tpcc.runTxnPostWait isLocal t.txn)
  readonly _ := false
  abortRemote := false

/-- Whether `index_read` finds the row of a state: a node has the districts, customers and stock of
its warehouses, and all items. -/
def lookup (node : ℕ) (t : Manager) (db : ℕ → NodeData) : Bool :=
  match t.state with
  | .PAYMENT0 | .NEWORDER0 | .NEWORDER2 | .NEWORDER4 => nodeOf S.toCluster t.query.wId = node
  | .PAYMENT2 => nodeOf S.toCluster t.query.dWId = node
  | .PAYMENT4 =>
    nodeOf S.toCluster t.query.cWId = node ∧ (payment4Row S t.query (db node)).isSome
  | .NEWORDER8 =>
    (t.query.items[t.nextItemId]?).any fun item => nodeOf S.toCluster item.supplyWId = node
  | _ => true

/-- What a state changes at its node. The cursor has the row that the state before has found. -/
def change (t : Manager) (d : NodeData) : NodeData :=
  match t.state with
  | .PAYMENT1 => payment1 S t.query (warehouseRow t.query) d
  | .PAYMENT3 => payment3 t.query (payment2Row S t.query) d
  | .PAYMENT5 =>
    match payment4Row S t.query d with
    | some r => payment5 t.query r d
    | none => d
  | .NEWORDER5 => newOrder5 t.query (newOrder4Row S t.query) d
  | .NEWORDER9 =>
    match t.query.items[t.nextItemId]? with
    | some item => newOrder9 t.query item t.nextItemId d.oId (newOrder8Row S item) d
    | none => d
  | _ => d

/-- TPC-C over its tables. -/
def program : Attempt.Program Manager FragmentMessage (ℕ → NodeData) where
  W := dataWorkload S.toCluster
  lookup node t db := (lookup S node t db, 0)
  effect node t db := update db node (change S t (db node))

/-- A query at its home node. -/
def setup (home : ℕ) (q : Query) (db : ℕ → Contents) : Attempt.Setup Manager (ℕ → NodeData) where
  home := home
  mgr node := if node = home then (Manager.ofQuery q).reset else Manager.init
  data node := (db node).start

/-- The attempts of a query that runs alone on the plain path. -/
abbrev plainMachine (home : ℕ) (q : Query) (db : ℕ → Contents) :
    Machine (Attempt.State Manager FragmentMessage (ℕ → NodeData)) Attempt.Action :=
  Attempt.machine (program S) (setup home q db)

/-! ## The Calvin path -/

/-- The items of a node, with their numbers. Every node has the whole query, whose `ol_cnt` is the
number of items. -/
def localItems (node : ℕ) (q : Query) : List (Item × ℕ) :=
  q.items.zipIdx.filter fun (item, _) => nodeOf S.toCluster item.supplyWId = node

/-- The cursor after `new_order_6` and `new_order_7` of some items. -/
def itemCursor (items : List (Item × ℕ)) (r : Option RowRef) : Option RowRef :=
  items.foldl (fun _ (item, _) => some (newOrder6Row item)) r

/-- `run_tpcc_phase2`, with the cursor. -/
def phase2 (node : ℕ) (q : Query) (d : NodeData) : NodeData × Option RowRef :=
  match q.txnType with
  | .TPCC_PAYMENT => (d, none)
  | .TPCC_NEW_ORDER =>
    if nodeOf S.toCluster q.wId = node then
      -- `new_order_0` to `new_order_4`, of which the last one leaves the district in the cursor
      ({ d with oId := d.row (newOrder4Row S q) D_NEXT_O_ID },
        itemCursor (localItems S node q) (some (newOrder4Row S q)))
    else (d, itemCursor (localItems S node q) none)

/-- `new_order_8` and `new_order_9` of some items. -/
def orderLines (q : Query) (oId : ℤ) (items : List (Item × ℕ)) (d : NodeData) : NodeData :=
  items.foldl (fun d (item, i) => newOrder9 q item i oId (newOrder8Row S item) d) d

/-- `run_tpcc_phase5`, from the cursor that the second phase has left. A row of `ITEM` has five
columns: `new_order_5` of such a row is outside of its schema, and has no result here. -/
def phase5 (node : ℕ) (q : Query) (r : Option RowRef) (d : NodeData) : Option NodeData :=
  match q.txnType with
  | .TPCC_PAYMENT =>
    let d := if nodeOf S.toCluster q.wId = node then
        payment3 q (payment2Row S q) (payment1 S q (warehouseRow q) d)
      else d
    if nodeOf S.toCluster q.cWId = node then
      (payment4Row S q d).map fun r => payment5 q r d
    else some d
  | .TPCC_NEW_ORDER =>
    -- `o_id` is read before `new_order_5` sets it
    if nodeOf S.toCluster q.wId = node then
      (r.filter (·.table = .DISTRICT)).map fun r =>
        orderLines S q d.oId (localItems S node q) (newOrder5 q r d)
    else some (orderLines S q d.oId (localItems S node q) d)

/-- `run_calvin_txn` calls `get_row` at a node: the node has a row of the query. -/
def calvinAccesses (q : Query) (node : ℕ) : Bool :=
  match q.txnType with
  | .TPCC_PAYMENT => nodeOf S.toCluster q.wId = node ∨ nodeOf S.toCluster q.cWId = node
  | .TPCC_NEW_ORDER => nodeOf S.toCluster q.wId = node ∨ localItems S node q ≠ []

/-- `run_calvin_txn` at a node. What the phases in between bring from other nodes is not used.
`back` says that the calls of the framework in `get_row` come back there: `getTransaction`, and then
`read` or `write`. -/
def runCalvinTxn (back : ℕ → Bool) (q : Query) (db : ℕ → Contents) (node : ℕ) : Option NodeData :=
  if calvinAccesses S q node ∧ back node = false then none
  else
    let (d, r) := phase2 S node q (db node).start
    phase5 S node q r d

/-- A query alone comes to its commit with these data on the plain path. -/
def Commits (home : ℕ) (q : Query) (db : ℕ → Contents) (d : ℕ → NodeData) : Prop :=
  ∃ s, (plainMachine S home q db).Reachable s ∧ s.pos = .done ∧ s.data = d

/-- A query comes to its end with these data with Calvin, which has no home node. -/
def CalvinCommits (back : ℕ → Bool) (q : Query) (db : ℕ → Contents) (d : ℕ → NodeData) : Prop :=
  ∀ node < S.nodeCnt, runCalvinTxn S back q db node = some (d node)

end Rows

end Tpcc

end Deneva
