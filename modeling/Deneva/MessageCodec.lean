import Deneva.Batching
import Deneva.Types

/-!
# Messages and their bytes (`transport/message.cpp`)

A class of messages has three functions that go along its fields: `get_size`, `copy_to_buf` and
`copy_from_buf`. They are written by hand, one beside the other, with the fields that `CC_ALG`, the
workload and the kind of transaction ask for. `create_message` takes the type of a message from the
buffer, makes an object of its class and lets it copy the rest.

* `Message.copyToBuf` and `createMessage` are the two ends, `Message.getSize` is what both rely on.
* `wire` hands the messages to `Batching`.

A pointer of the source is a number here, and sizes do not wrap: no buffer has `2 ^ 64` bytes. A
field under an `#if` is `Sent`. A `double` stands for its 64 bits. `LOG_MSG` is left out.
-/

namespace Deneva

open Option Fits Reader Writer

namespace MessageCodec

/-- `RemReqType`. -/
inductive RemReqType : Type where
  | INIT_DONE | RLK | RULK | CL_QRY | RQRY | RQRY_CONT | RFIN | RLK_RSP | RULK_RSP | RQRY_RSP | RACK
  | RACK_PREP | RACK_FIN | RTXN | RTXN_CONT | RINIT | RPREPARE | RPASS | RFWD | RDONE | CL_RSP
  | LOG_MSG | LOG_MSG_RSP | LOG_FLUSHED | CALVIN_ACK | NO_MSG
  deriving DecidableEq

/-- The values of `CC_ALG`. -/
inductive CCAlg : Type where
  | NO_WAIT | WAIT_DIE | DL_DETECT | TIMESTAMP | MVCC | HSTORE | HSTORE_SPEC | OCC | VLL | CALVIN
  | MAAT | WDL
  deriving DecidableEq

/-- The values of `WORKLOAD` that are modelled. -/
inductive Workload : Type where
  | YCSB | TPCC
  deriving DecidableEq

/-- A `double`, by its bits. -/
abbrev Double : Type := UInt64

/-- Where and when a message is copied: the two ends have their own. -/
structure Site where
  /-- `g_node_id` -/
  nodeId : UInt32
  /-- `get_sys_clock` -/
  clock : UInt64

/-- The build. -/
structure Config where
  workload : Workload
  /-- `CC_ALG` -/
  cc : CCAlg
  nodeCnt : UInt32
  reqPerQuery : UInt32
  synthTableSize : UInt64
  /-- an answer of `get_sys_clock` as a `double` -/
  ofClock : UInt64 → Double
  /-- the difference of two `double`s -/
  sub : Double → Double → Double

namespace Config

variable (C : Config)

/-- `CC_ALG == CALVIN`. -/
def calvin : Bool := C.cc = .CALVIN

/-- `CC_ALG == MAAT`. -/
def maat : Bool := C.cc = .MAAT

/-- `CC_ALG == WAIT_DIE || CC_ALG == TIMESTAMP || CC_ALG == MVCC`. -/
def hasTs : Bool := C.cc = .WAIT_DIE || C.cc = .TIMESTAMP || C.cc = .MVCC

/-- `CC_ALG == OCC`. -/
def hasStartTs : Bool := C.cc = .OCC

/-- `WORKLOAD == TPCC`. -/
def tpcc : Bool := C.workload = .TPCC

/-- `txn_id % g_node_cnt == g_node_id`. -/
def isOwn (site : Site) (txnId : UInt64) : Bool :=
  txnId.toNat % C.nodeCnt.toNat = site.nodeId.toNat

end Config

/-! ## Types of fixed size -/

/-- `RemReqType`, in the order of its declaration. -/
def remReqType : Field RemReqType :=
  .ofList
    [.INIT_DONE, .RLK, .RULK, .CL_QRY, .RQRY, .RQRY_CONT, .RFIN, .RLK_RSP, .RULK_RSP, .RQRY_RSP,
    .RACK, .RACK_PREP, .RACK_FIN, .RTXN, .RTXN_CONT, .RINIT, .RPREPARE, .RPASS, .RFWD, .RDONE,
    .CL_RSP,
    .LOG_MSG, .LOG_MSG_RSP, .LOG_FLUSHED, .CALVIN_ACK, .NO_MSG] (by
    intro x; cases x <;> decide) (by decide)

/-- `RC`. -/
def rcField : Field RC :=
  .ofList [.RCOK, .Commit, .Abort, .WAIT, .WAIT_REM, .ERROR, .FINISH, .NONE]
    (by intro x; cases x <;> decide) (by decide)

/-- `access_t`. -/
def accessT : Field AccessT :=
  .ofList [.RD, .WR, .XP, .SCAN] (by intro x; cases x <;> decide) (by decide)

/-- `ycsb_request`, with the bytes that align its members. -/
structure YcsbRequest where
  acctype : AccessT
  /-- behind `acctype` -/
  pad : List.Vector UInt8 4
  key : UInt64
  value : List.Vector UInt8 1
  /-- behind `value` -/
  padEnd : List.Vector UInt8 7
  deriving DecidableEq

/-- The layout of `ycsb_request`. -/
def ycsbRequest : Field YcsbRequest :=
  (accessT.prod ((Field.chars 4).prod (Field.u64.prod ((Field.chars 1).prod (Field.chars 7))))).map
    (fun q => (q.acctype, q.pad, q.key, q.value, q.padEnd))
    (fun t => ⟨t.1, t.2.1, t.2.2.1, t.2.2.2.1, t.2.2.2.2⟩) fun _ => rfl

/-- `Item_no`. -/
structure ItemNo where
  olIId : UInt64
  olSupplyWId : UInt64
  olQuantity : UInt64
  deriving DecidableEq

/-- The layout of `Item_no`. -/
def itemNo : Field ItemNo :=
  (Field.u64.prod (Field.u64.prod Field.u64)).map (fun i => (i.olIId, i.olSupplyWId, i.olQuantity))
    (fun t => ⟨t.1, t.2.1, t.2.2⟩) fun _ => rfl

/-- `LASTNAME_LEN`. -/
def LASTNAME_LEN : ℕ := 16

@[simp] theorem size_u64 : Field.u64.size = 8 := rfl

@[simp] theorem size_bool : Field.bool.size = 1 := rfl

@[simp] theorem size_chars (n : ℕ) : (Field.chars n).size = n := rfl

@[simp] theorem size_remReqType : remReqType.size = 4 := rfl

@[simp] theorem size_rcField : rcField.size = 4 := rfl

@[simp] theorem size_ycsbRequest : ycsbRequest.size = 24 := rfl

@[simp] theorem size_itemNo : itemNo.size = 24 := rfl

/-! ## The header (`Message::mget_size`, `mcopy_to_buf`, `mcopy_from_buf`) -/

/-- The members of `Message` that are sent. -/
structure Header where
  rtype : RemReqType
  txnId : UInt64
  batchId : UInt64
  mqTime : UInt64
  latWorkQueueTime : Double
  latMsgQueueTime : Double
  latCcBlockTime : Double
  latCcTime : Double
  latProcessTime : Double
  latNetworkTime : Double
  latOtherTime : Double

section

variable (C : Config)

/-- `create_message(RemReqType)`: the members of a new message. -/
def Header.new (rtype : RemReqType) : Header :=
  ⟨rtype, .ofNat UINT64_MAX, .ofNat UINT64_MAX, 0, 0, 0, 0, 0, 0, 0, 0⟩

/-- `mget_size`. -/
def mgetSize : ℕ := 4 + 8 + (if C.calvin then 8 else 0) + 8 + 8 * 7

/-- What `mcopy_to_buf` makes of the latencies. -/
def Header.leave (site : Site) (h : Header) : Header :=
  if (C.calvin ∧ h.rtype = .CL_QRY ∧ C.isOwn site h.txnId) ∨
      (C.calvin = false ∧ C.isOwn site h.txnId) then
    { h with latNetworkTime := C.ofClock site.clock }
  else { h with latOtherTime := C.sub (C.ofClock site.clock) h.latOtherTime }

/-- What `mcopy_from_buf` makes of the latencies. -/
def Header.arrive (site : Site) (h : Header) : Header :=
  if (C.calvin ∧ h.rtype = .CALVIN_ACK ∧ C.isOwn site h.txnId) ∨
      (C.calvin = false ∧ C.isOwn site h.txnId) then
    { h with
      latNetworkTime := C.sub (C.sub (C.ofClock site.clock) h.latNetworkTime) h.latOtherTime }
  else { h with latOtherTime := C.ofClock site.clock }

/-- `mcopy_to_buf`. -/
def Header.mcopyToBuf (site : Site) (h : Header) : Writer Unit := do
  copyBuf remReqType h.rtype
  copyBuf .u64 h.txnId
  (if C.calvin then copyBuf .u64 h.batchId else pure ())
  copyBuf .u64 h.mqTime
  copyBuf .u64 h.latWorkQueueTime
  copyBuf .u64 h.latMsgQueueTime
  copyBuf .u64 h.latCcBlockTime
  copyBuf .u64 h.latCcTime
  copyBuf .u64 h.latProcessTime
  copyBuf .u64 (h.leave C site).latNetworkTime
  copyBuf .u64 (h.leave C site).latOtherTime

/-- `mcopy_from_buf`. -/
def mcopyFromBuf (site : Site) : Reader Header := do
  let rtype ← copyVal remReqType
  let txnId ← copyVal .u64
  let batchId ← (if C.calvin then copyVal .u64 else pure (.ofNat UINT64_MAX))
  let mqTime ← copyVal .u64
  let latWorkQueueTime ← copyVal .u64
  let latMsgQueueTime ← copyVal .u64
  let latCcBlockTime ← copyVal .u64
  let latCcTime ← copyVal .u64
  let latProcessTime ← copyVal .u64
  let latNetworkTime ← copyVal .u64
  let latOtherTime ← copyVal .u64
  pure (Header.arrive C site
    ⟨rtype, txnId, batchId, mqTime, latWorkQueueTime, latMsgQueueTime, latCcBlockTime, latCcTime,
      latProcessTime, latNetworkTime, latOtherTime⟩)

end

/-! ## The classes -/

/-- Members of `TPCCQueryMessage` and `TPCCClientQueryMessage` for a payment. -/
structure Payment where
  dWId : UInt64
  cWId : UInt64
  cDId : UInt64
  cLast : List.Vector UInt8 LASTNAME_LEN
  hAmount : UInt64
  byLastName : Bool

/-- Members of `TPCCQueryMessage` and `TPCCClientQueryMessage` for a new order. -/
structure NewOrder where
  items : List ItemNo
  rbk : Bool
  remote : Bool
  olCnt : UInt64
  oEntryD : UInt64

/-- What a reader finds besides the buffer: where and when it is, and memory that `new` does not
clear. -/
structure Env where
  /-- the receiver -/
  site : Site
  /-- what a new `TPCCQueryMessage` has for a payment -/
  payment : Payment
  /-- what it has for a new order; the array is empty -/
  newOrder : NewOrder

section

variable (C : Config)

/-- `FinishMessage`. -/
structure FinishMessage where
  pid : UInt64
  rc : RC
  readonly : Bool
  commitTimestamp : Sent C.maat UInt64

/-- `QueryResponseMessage`. -/
structure QueryResponseMessage where
  rc : RC

/-- `AckMessage`. -/
structure AckMessage where
  rc : RC
  lower : Sent C.maat UInt64
  upper : Sent C.maat UInt64

/-- `ForwardMessage`. -/
structure ForwardMessage where
  rc : RC
  oId : Sent C.tpcc UInt64

/-- `ClientResponseMessage`. -/
structure ClientResponseMessage where
  clientStartts : UInt64

/-- `QueryMessage`. -/
structure QueryMessage where
  ts : Sent C.hasTs UInt64
  startTs : Sent C.hasStartTs UInt64

/-- `YCSBQueryMessage`. -/
structure YCSBQueryMessage : Type extends QueryMessage C where
  requests : List YcsbRequest

/-- `TPCCQueryMessage`. -/
structure TPCCQueryMessage : Type extends QueryMessage C where
  txnType : UInt64
  state : UInt64
  wId : UInt64
  dId : UInt64
  cId : UInt64
  payment : Payment
  newOrder : NewOrder

/-- `ClientQueryMessage`. -/
structure ClientQueryMessage where
  clientStartts : UInt64
  partitions : List UInt64

/-- `YCSBClientQueryMessage`. -/
structure YCSBClientQueryMessage : Type extends ClientQueryMessage where
  requests : List YcsbRequest

/-- `TPCCClientQueryMessage`. -/
structure TPCCClientQueryMessage : Type extends ClientQueryMessage where
  txnType : UInt64
  wId : UInt64
  dId : UInt64
  cId : UInt64
  payment : Payment
  newOrder : NewOrder

end

/-- `TPCC_PAYMENT`. -/
def TPCC_PAYMENT : UInt64 := 1

/-- `TPCC_NEW_ORDER`. -/
def TPCC_NEW_ORDER : UInt64 := 2

/-- An assertion that a word is not zero, where it is there. -/
def Sent.nonzero : (b : Bool) → Sent b UInt64 → Bool
  | true, (x : UInt64) => decide (x ≠ (0 : UInt64))
  | false, _ => true

/-! ### Messages without members of their own -/

section

variable (C : Config)

/-- `get_size` of a message that is its header only. -/
def headerSize : ℕ := mgetSize C

/-- `copy_to_buf` of a message that is its header only. -/
def headerToBuf (site : Site) (h : Header) : Writer Unit := h.mcopyToBuf C site

/-- `copy_from_buf` of a message that is its header only. -/
def headerFromBuf (site : Site) : Reader Header := mcopyFromBuf C site

/-- `copy_to_buf` of a message that is its header only, and asserts that. -/
def checkedToBuf (site : Site) (h : Header) : Writer Unit := do
  h.mcopyToBuf C site
  seek (mgetSize C)
  checkPtr (headerSize C)

/-- `copy_from_buf` of a message that is its header only, and asserts that. -/
def checkedFromBuf (site : Site) : Reader Header := do
  let h ← mcopyFromBuf C site
  seek (mgetSize C)
  checkPtr (headerSize C)
  pure h

def InitDoneMessage.getSize : ℕ := headerSize C
def InitDoneMessage.copyToBuf : Site → Header → Writer Unit := headerToBuf C
def InitDoneMessage.copyFromBuf : Site → Reader Header := headerFromBuf C

def LogRspMessage.getSize : ℕ := headerSize C
def LogRspMessage.copyToBuf : Site → Header → Writer Unit := headerToBuf C
def LogRspMessage.copyFromBuf : Site → Reader Header := headerFromBuf C

def PrepareMessage.getSize : ℕ := headerSize C
def PrepareMessage.copyToBuf : Site → Header → Writer Unit := checkedToBuf C
def PrepareMessage.copyFromBuf : Site → Reader Header := checkedFromBuf C

def DoneMessage.getSize : ℕ := headerSize C
def DoneMessage.copyToBuf : Site → Header → Writer Unit := checkedToBuf C
def DoneMessage.copyFromBuf : Site → Reader Header := checkedFromBuf C

/-- `sizeof(LogFlushedMessage)`: the pointer to the functions, `rtype` aligned, six words and seven
`double`s. -/
def LogFlushedMessage.getSize : ℕ := 8 + 8 + 8 * 6 + 8 * 7

/-- It is empty. -/
def LogFlushedMessage.copyToBuf : Writer Unit := pure ()

/-- It is empty: the message stays as it was made. -/
def LogFlushedMessage.copyFromBuf (rtype : RemReqType) : Reader Header := pure (.new rtype)

/-! ### `FinishMessage` -/

def FinishMessage.getSize (_ : FinishMessage C) : ℕ :=
  mgetSize C + 8 + 4 + 1 + (if C.maat then 8 else 0)

def FinishMessage.copyToBuf (site : Site) (h : Header) (m : FinishMessage C) : Writer Unit := do
  h.mcopyToBuf C site
  seek (mgetSize C)
  copyBuf .u64 m.pid
  copyBuf rcField m.rc
  copyBuf .bool m.readonly
  copyBuf (.sent C.maat .u64) m.commitTimestamp
  checkPtr (m.getSize C)

def FinishMessage.copyFromBuf (site : Site) : Reader (Header × FinishMessage C) := do
  let h ← mcopyFromBuf C site
  seek (mgetSize C)
  let pid ← copyVal .u64
  let rc ← copyVal rcField
  let readonly ← copyVal .bool
  let commitTimestamp ← copyVal (.sent C.maat .u64)
  let m : FinishMessage C := ⟨pid, rc, readonly, commitTimestamp⟩
  checkPtr (m.getSize C)
  pure (h, m)

/-! ### `QueryResponseMessage` -/

def QueryResponseMessage.getSize (_ : QueryResponseMessage) : ℕ := mgetSize C + 4

def QueryResponseMessage.copyToBuf (site : Site) (h : Header) (m : QueryResponseMessage) :
    Writer Unit := do
  h.mcopyToBuf C site
  seek (mgetSize C)
  copyBuf rcField m.rc
  checkPtr (m.getSize C)

def QueryResponseMessage.copyFromBuf (site : Site) : Reader (Header × QueryResponseMessage) := do
  let h ← mcopyFromBuf C site
  seek (mgetSize C)
  let rc ← copyVal rcField
  let m : QueryResponseMessage := ⟨rc⟩
  checkPtr (m.getSize C)
  pure (h, m)

/-! ### `AckMessage` -/

def AckMessage.getSize (_ : AckMessage C) : ℕ := mgetSize C + 4 + (if C.maat then 8 * 2 else 0)

def AckMessage.copyToBuf (site : Site) (h : Header) (m : AckMessage C) : Writer Unit := do
  h.mcopyToBuf C site
  seek (mgetSize C)
  copyBuf rcField m.rc
  copyBuf (.sent C.maat .u64) m.lower
  copyBuf (.sent C.maat .u64) m.upper
  checkPtr (m.getSize C)

def AckMessage.copyFromBuf (site : Site) : Reader (Header × AckMessage C) := do
  let h ← mcopyFromBuf C site
  seek (mgetSize C)
  let rc ← copyVal rcField
  let lower ← copyVal (.sent C.maat .u64)
  let upper ← copyVal (.sent C.maat .u64)
  let m : AckMessage C := ⟨rc, lower, upper⟩
  checkPtr (m.getSize C)
  pure (h, m)

/-! ### `ForwardMessage` -/

def ForwardMessage.getSize (_ : ForwardMessage C) : ℕ := mgetSize C + 4 + (if C.tpcc then 8 else 0)

def ForwardMessage.copyToBuf (site : Site) (h : Header) (m : ForwardMessage C) : Writer Unit := do
  h.mcopyToBuf C site
  seek (mgetSize C)
  copyBuf rcField m.rc
  copyBuf (.sent C.tpcc .u64) m.oId
  checkPtr (m.getSize C)

def ForwardMessage.copyFromBuf (site : Site) : Reader (Header × ForwardMessage C) := do
  let h ← mcopyFromBuf C site
  seek (mgetSize C)
  let rc ← copyVal rcField
  let oId ← copyVal (.sent C.tpcc .u64)
  let m : ForwardMessage C := ⟨rc, oId⟩
  checkPtr (m.getSize C)
  pure (h, m)

/-! ### `ClientResponseMessage` -/

def ClientResponseMessage.getSize (_ : ClientResponseMessage) : ℕ := mgetSize C + 8

def ClientResponseMessage.copyToBuf (site : Site) (h : Header) (m : ClientResponseMessage) :
    Writer Unit := do
  h.mcopyToBuf C site
  seek (mgetSize C)
  copyBuf .u64 m.clientStartts
  checkPtr (m.getSize C)

def ClientResponseMessage.copyFromBuf (site : Site) : Reader (Header × ClientResponseMessage) := do
  let h ← mcopyFromBuf C site
  seek (mgetSize C)
  let clientStartts ← copyVal .u64
  let m : ClientResponseMessage := ⟨clientStartts⟩
  checkPtr (m.getSize C)
  pure (h, m)

/-! ### `QueryMessage` -/

def QueryMessage.getSize (_ : QueryMessage C) : ℕ :=
  mgetSize C + (if C.hasTs then 8 else 0) + (if C.hasStartTs then 8 else 0)

def QueryMessage.copyToBuf (site : Site) (h : Header) (m : QueryMessage C) : Writer Unit := do
  h.mcopyToBuf C site
  seek (mgetSize C)
  copyBuf (.sent C.hasTs .u64) m.ts
  check (Sent.nonzero _ m.ts)
  copyBuf (.sent C.hasStartTs .u64) m.startTs

def QueryMessage.copyFromBuf (site : Site) : Reader (Header × QueryMessage C) := do
  let h ← mcopyFromBuf C site
  seek (mgetSize C)
  let ts ← copyVal (.sent C.hasTs .u64)
  check (Sent.nonzero _ ts)
  let startTs ← copyVal (.sent C.hasStartTs .u64)
  pure (h, ⟨ts, startTs⟩)

/-! ### `YCSBQueryMessage` -/

def YCSBQueryMessage.getSize (m : YCSBQueryMessage C) : ℕ :=
  m.toQueryMessage.getSize C + 8 + 24 * m.requests.length

def YCSBQueryMessage.copyToBuf (site : Site) (h : Header) (m : YCSBQueryMessage C) :
    Writer Unit := do
  m.toQueryMessage.copyToBuf C site h
  seek (m.toQueryMessage.getSize C)
  copyBuf .u64 (.ofNat m.requests.length)
  each (copyBuf ycsbRequest) m.requests
  checkPtr (m.getSize C)

/-- A request of a message is read, and its key checked. -/
def readRequest : Reader YcsbRequest := do
  let req ← copyVal ycsbRequest
  check (req.key < C.synthTableSize)
  pure req

def YCSBQueryMessage.copyFromBuf (site : Site) : Reader (Header × YCSBQueryMessage C) := do
  let (h, query) ← QueryMessage.copyFromBuf C site
  seek (query.getSize C)
  let size ← copyVal .u64
  check (size.toNat ≤ C.reqPerQuery.toNat)
  let requests ← times (readRequest C) size.toNat
  let m : YCSBQueryMessage C := ⟨query, requests⟩
  checkPtr (m.getSize C)
  pure (h, m)

end

/-! ### The members for TPC-C -/

def Payment.copyToBuf (m : Payment) : Writer Unit := do
  copyBuf .u64 m.dWId
  copyBuf .u64 m.cWId
  copyBuf .u64 m.cDId
  copyBuf (.chars LASTNAME_LEN) m.cLast
  copyBuf .u64 m.hAmount
  copyBuf .bool m.byLastName

def Payment.copyFromBuf : Reader Payment := do
  let dWId ← copyVal .u64
  let cWId ← copyVal .u64
  let cDId ← copyVal .u64
  let cLast ← copyVal (.chars LASTNAME_LEN)
  let hAmount ← copyVal .u64
  let byLastName ← copyVal .bool
  pure ⟨dWId, cWId, cDId, cLast, hAmount, byLastName⟩

def NewOrder.copyToBuf (m : NewOrder) : Writer Unit := do
  copyBuf .u64 (.ofNat m.items.length)
  each (copyBuf itemNo) m.items
  copyBuf .bool m.rbk
  copyBuf .bool m.remote
  copyBuf .u64 m.olCnt
  copyBuf .u64 m.oEntryD

def NewOrder.copyFromBuf : Reader NewOrder := do
  let size ← copyVal .u64
  let items ← times (copyVal itemNo) size.toNat
  let rbk ← copyVal .bool
  let remote ← copyVal .bool
  let olCnt ← copyVal .u64
  let oEntryD ← copyVal .u64
  pure ⟨items, rbk, remote, olCnt, oEntryD⟩

section

variable (C : Config)

/-! ### `TPCCQueryMessage` -/

def TPCCQueryMessage.getSize (m : TPCCQueryMessage C) : ℕ :=
  m.toQueryMessage.getSize C + 8 + 8 + 8 * 3 +
    (if m.txnType = TPCC_PAYMENT then 8 * 4 + LASTNAME_LEN + 1 else 0) +
    (if m.txnType = TPCC_NEW_ORDER then 8 * 2 + 1 * 2 + 24 * m.newOrder.items.length + 8 else 0)

def TPCCQueryMessage.copyToBuf (site : Site) (h : Header) (m : TPCCQueryMessage C) :
    Writer Unit := do
  m.toQueryMessage.copyToBuf C site h
  seek (m.toQueryMessage.getSize C)
  copyBuf .u64 m.txnType
  copyBuf .u64 m.state
  copyBuf .u64 m.wId
  copyBuf .u64 m.dId
  copyBuf .u64 m.cId
  (if m.txnType = TPCC_PAYMENT then m.payment.copyToBuf else pure ())
  (if m.txnType = TPCC_NEW_ORDER then m.newOrder.copyToBuf else pure ())
  checkPtr (m.getSize C)

def TPCCQueryMessage.copyFromBuf (env : Env) : Reader (Header × TPCCQueryMessage C) := do
  let (h, query) ← QueryMessage.copyFromBuf C env.site
  seek (query.getSize C)
  let txnType ← copyVal .u64
  check (txnType = TPCC_PAYMENT ∨ txnType = TPCC_NEW_ORDER)
  let state ← copyVal .u64
  let wId ← copyVal .u64
  let dId ← copyVal .u64
  let cId ← copyVal .u64
  let payment ← (if txnType = TPCC_PAYMENT then Payment.copyFromBuf else pure env.payment)
  let newOrder ← (if txnType = TPCC_NEW_ORDER then NewOrder.copyFromBuf
    else pure { env.newOrder with items := [] })
  let m : TPCCQueryMessage C := ⟨query, txnType, state, wId, dId, cId, payment, newOrder⟩
  checkPtr (m.getSize C)
  pure (h, m)

/-! ### `ClientQueryMessage` -/

def ClientQueryMessage.getSize (m : ClientQueryMessage) : ℕ :=
  mgetSize C + 8 + 8 + 8 * m.partitions.length

def ClientQueryMessage.copyToBuf (site : Site) (h : Header) (m : ClientQueryMessage) :
    Writer Unit := do
  h.mcopyToBuf C site
  seek (mgetSize C)
  copyBuf .u64 m.clientStartts
  copyBuf .u64 (.ofNat m.partitions.length)
  each (copyBuf .u64) m.partitions

def ClientQueryMessage.copyFromBuf (site : Site) : Reader (Header × ClientQueryMessage) := do
  let h ← mcopyFromBuf C site
  seek (mgetSize C)
  let clientStartts ← copyVal .u64
  let size ← copyVal .u64
  let partitions ← times (copyVal .u64) size.toNat
  pure (h, ⟨clientStartts, partitions⟩)

/-! ### `YCSBClientQueryMessage` -/

def YCSBClientQueryMessage.getSize (m : YCSBClientQueryMessage) : ℕ :=
  m.toClientQueryMessage.getSize C + 8 + 24 * m.requests.length

/-- A request is copied after its key has been checked. -/
def writeRequest (req : YcsbRequest) : Writer Unit := do
  check (req.key < C.synthTableSize)
  copyBuf ycsbRequest req

def YCSBClientQueryMessage.copyToBuf (site : Site) (h : Header) (m : YCSBClientQueryMessage) :
    Writer Unit := do
  m.toClientQueryMessage.copyToBuf C site h
  seek (m.toClientQueryMessage.getSize C)
  copyBuf .u64 (.ofNat m.requests.length)
  each (writeRequest C) m.requests
  checkPtr (m.getSize C)

def YCSBClientQueryMessage.copyFromBuf (site : Site) : Reader (Header × YCSBClientQueryMessage) :=
  do
  let (h, query) ← ClientQueryMessage.copyFromBuf C site
  seek (query.getSize C)
  let size ← copyVal .u64
  let requests ← times (readRequest C) size.toNat
  let m : YCSBClientQueryMessage := ⟨query, requests⟩
  checkPtr (m.getSize C)
  pure (h, m)

/-! ### `TPCCClientQueryMessage` -/

def TPCCClientQueryMessage.getSize (m : TPCCClientQueryMessage) : ℕ :=
  m.toClientQueryMessage.getSize C + 8 * 10 + LASTNAME_LEN + 1 * 3 + 8 + 24 *
    m.newOrder.items.length

def TPCCClientQueryMessage.copyToBuf (site : Site) (h : Header) (m : TPCCClientQueryMessage) :
    Writer Unit := do
  m.toClientQueryMessage.copyToBuf C site h
  seek (m.toClientQueryMessage.getSize C)
  copyBuf .u64 m.txnType
  copyBuf .u64 m.wId
  copyBuf .u64 m.dId
  copyBuf .u64 m.cId
  m.payment.copyToBuf
  m.newOrder.copyToBuf
  checkPtr (m.getSize C)

def TPCCClientQueryMessage.copyFromBuf (site : Site) : Reader (Header × TPCCClientQueryMessage) :=
  do
  let (h, query) ← ClientQueryMessage.copyFromBuf C site
  seek (query.getSize C)
  let txnType ← copyVal .u64
  let wId ← copyVal .u64
  let dId ← copyVal .u64
  let cId ← copyVal .u64
  let payment ← Payment.copyFromBuf
  let newOrder ← NewOrder.copyFromBuf
  let m : TPCCClientQueryMessage := ⟨query, txnType, wId, dId, cId, payment, newOrder⟩
  checkPtr (m.getSize C)
  pure (h, m)

end

/-! ## All messages -/

/-- The classes that `create_message(RemReqType)` makes objects of. -/
inductive Kind : Type where
  | initDone | ycsbQuery | tpccQuery | finish | queryResponse | logRsp | logFlushed | ack
  | ycsbClientQuery | tpccClientQuery | prepare | forward | done | clientResponse
  deriving DecidableEq

/-- The switch of `create_message(RemReqType)`; for the other types it fails. -/
def kindOf (workload : Workload) : RemReqType → Option Kind
  | .INIT_DONE => some .initDone
  | .RQRY | .RQRY_CONT =>
    match workload with
    | .YCSB => some .ycsbQuery
    | .TPCC => some .tpccQuery
  | .RFIN => some .finish
  | .RQRY_RSP => some .queryResponse
  | .LOG_MSG_RSP => some .logRsp
  | .LOG_FLUSHED => some .logFlushed
  | .CALVIN_ACK | .RACK_PREP | .RACK_FIN => some .ack
  | .CL_QRY | .RTXN | .RTXN_CONT =>
    match workload with
    | .YCSB => some .ycsbClientQuery
    | .TPCC => some .tpccClientQuery
  | .RPREPARE => some .prepare
  | .RFWD => some .forward
  | .RDONE => some .done
  | .CL_RSP => some .clientResponse
  | _ => none

section

variable (C : Config)

/-- The members of a message that are not in its header. -/
inductive Body : Type where
  | initDone
  | ycsbQuery (m : YCSBQueryMessage C)
  | tpccQuery (m : TPCCQueryMessage C)
  | finish (m : FinishMessage C)
  | queryResponse (m : QueryResponseMessage)
  | logRsp
  | logFlushed
  | ack (m : AckMessage C)
  | ycsbClientQuery (m : YCSBClientQueryMessage)
  | tpccClientQuery (m : TPCCClientQueryMessage)
  | prepare
  | forward (m : ForwardMessage C)
  | done
  | clientResponse (m : ClientResponseMessage)

/-- A message. -/
structure Message where
  header : Header
  body : Body C

variable {C}

/-- The class of a message. -/
def Body.kind : Body C → Kind
  | .initDone => .initDone
  | .ycsbQuery _ => .ycsbQuery
  | .tpccQuery _ => .tpccQuery
  | .finish _ => .finish
  | .queryResponse _ => .queryResponse
  | .logRsp => .logRsp
  | .logFlushed => .logFlushed
  | .ack _ => .ack
  | .ycsbClientQuery _ => .ycsbClientQuery
  | .tpccClientQuery _ => .tpccClientQuery
  | .prepare => .prepare
  | .forward _ => .forward
  | .done => .done
  | .clientResponse _ => .clientResponse

/-- `get_size`. -/
def Message.getSize (m : Message C) : ℕ :=
  match m.body with
  | .initDone => InitDoneMessage.getSize C
  | .ycsbQuery b => b.getSize C
  | .tpccQuery b => b.getSize C
  | .finish b => b.getSize C
  | .queryResponse b => b.getSize C
  | .logRsp => LogRspMessage.getSize C
  | .logFlushed => LogFlushedMessage.getSize
  | .ack b => b.getSize C
  | .ycsbClientQuery b => b.getSize C
  | .tpccClientQuery b => b.getSize C
  | .prepare => PrepareMessage.getSize C
  | .forward b => b.getSize C
  | .done => DoneMessage.getSize C
  | .clientResponse b => b.getSize C

/-- `copy_to_buf`, as what it does with the buffer. -/
def Message.writer (site : Site) (m : Message C) : Writer Unit :=
  match m.body with
  | .initDone => InitDoneMessage.copyToBuf C site m.header
  | .ycsbQuery b => b.copyToBuf C site m.header
  | .tpccQuery b => b.copyToBuf C site m.header
  | .finish b => b.copyToBuf C site m.header
  | .queryResponse b => b.copyToBuf C site m.header
  | .logRsp => LogRspMessage.copyToBuf C site m.header
  | .logFlushed => LogFlushedMessage.copyToBuf
  | .ack b => b.copyToBuf C site m.header
  | .ycsbClientQuery b => b.copyToBuf C site m.header
  | .tpccClientQuery b => b.copyToBuf C site m.header
  | .prepare => PrepareMessage.copyToBuf C site m.header
  | .forward b => b.copyToBuf C site m.header
  | .done => DoneMessage.copyToBuf C site m.header
  | .clientResponse b => b.copyToBuf C site m.header

/-- `copy_to_buf` to a buffer; there is no result if an assertion fails. -/
def Message.copyToBuf (site : Site) (m : Message C) (buf : Buffer) : Option Buffer :=
  (m.writer site (buf, 0)).map fun r => r.2.1

variable (C)

/-- A header and the members of a class are a message. -/
def Message.ofPair {α : Type} (f : α → Body C) (r : Header × α) : Message C := ⟨r.1, f r.2⟩

/-- `copy_from_buf` of a new message. -/
def copyFromBuf (env : Env) (rtype : RemReqType) : Kind → Reader (Message C)
  | .initDone => (⟨·, .initDone⟩) <$> InitDoneMessage.copyFromBuf C env.site
  | .ycsbQuery => Message.ofPair C .ycsbQuery <$> YCSBQueryMessage.copyFromBuf C env.site
  | .tpccQuery => Message.ofPair C .tpccQuery <$> TPCCQueryMessage.copyFromBuf C env
  | .finish => Message.ofPair C .finish <$> FinishMessage.copyFromBuf C env.site
  | .queryResponse =>
    Message.ofPair C .queryResponse <$> QueryResponseMessage.copyFromBuf C env.site
  | .logRsp => (⟨·, .logRsp⟩) <$> LogRspMessage.copyFromBuf C env.site
  | .logFlushed => (⟨·, .logFlushed⟩) <$> LogFlushedMessage.copyFromBuf rtype
  | .ack => Message.ofPair C .ack <$> AckMessage.copyFromBuf C env.site
  | .ycsbClientQuery =>
    Message.ofPair C .ycsbClientQuery <$> YCSBClientQueryMessage.copyFromBuf C env.site
  | .tpccClientQuery =>
    Message.ofPair C .tpccClientQuery <$> TPCCClientQueryMessage.copyFromBuf C env.site
  | .prepare => (⟨·, .prepare⟩) <$> PrepareMessage.copyFromBuf C env.site
  | .forward => Message.ofPair C .forward <$> ForwardMessage.copyFromBuf C env.site
  | .done => (⟨·, .done⟩) <$> DoneMessage.copyFromBuf C env.site
  | .clientResponse =>
    Message.ofPair C .clientResponse <$> ClientResponseMessage.copyFromBuf C env.site

/-- `create_message` of a buffer, as what it does with the buffer: the type is read, and then all of
the message from the beginning. -/
def messageReader (env : Env) : Reader (Message C) := do
  let rtype ← peek (copyVal remReqType)
  match kindOf C.workload rtype with
  | some kind => copyFromBuf C env rtype kind
  | none => failure

/-- `create_message` of a buffer; there is no result if an assertion fails. -/
def createMessage (env : Env) (buf : Buffer) : Option (Message C) :=
  (messageReader C env buf 0).map fun r => r.1

end

/-! ## The round trip -/

section

variable {C : Config}

/-- The members that are sent are the same, and so is `mq_time`; the other statistics are not looked
at. -/
structure Header.Same (C : Config) (h h' : Header) : Prop where
  rtype : h'.rtype = h.rtype
  txnId : h'.txnId = h.txnId
  batchId : C.calvin = true → h'.batchId = h.batchId
  mqTime : h'.mqTime = h.mqTime

/-- The members of a TPC-C query that are sent are the same: those of a payment or those of a new
order. -/
structure TPCCQueryMessage.Same (m m' : TPCCQueryMessage C) : Prop where
  query : m'.toQueryMessage = m.toQueryMessage
  txnType : m'.txnType = m.txnType
  state : m'.state = m.state
  wId : m'.wId = m.wId
  dId : m'.dId = m.dId
  cId : m'.cId = m.cId
  payment : m.txnType = TPCC_PAYMENT → m'.payment = m.payment
  newOrder : m.txnType = TPCC_NEW_ORDER → m'.newOrder = m.newOrder

/-- All that is sent is the same. -/
def Body.Same : Body C → Body C → Prop
  | .tpccQuery m, .tpccQuery m' => m.Same m'
  | b, b' => b' = b

/-- What the assertions of the decoders ask for. The length of an array is a word. -/
def Body.InRange : Body C → Prop
  | .ycsbQuery m => Sent.nonzero _ m.ts = true ∧ m.requests.length ≤ C.reqPerQuery.toNat ∧
      ∀ req ∈ m.requests, req.key < C.synthTableSize
  | .tpccQuery m => Sent.nonzero _ m.ts = true ∧
      (m.txnType = TPCC_PAYMENT ∨ m.txnType = TPCC_NEW_ORDER) ∧ m.newOrder.items.length < 2 ^ 64
  | .ycsbClientQuery m => m.partitions.length < 2 ^ 64 ∧ m.requests.length < 2 ^ 64 ∧
      ∀ req ∈ m.requests, req.key < C.synthTableSize
  | .tpccClientQuery m => m.partitions.length < 2 ^ 64 ∧ m.newOrder.items.length < 2 ^ 64
  | _ => True

/-- The message is of the class that `create_message` makes for its type, and within the ranges. -/
def Message.Valid (m : Message C) : Prop :=
  kindOf C.workload m.header.rtype = some m.body.kind ∧ m.body.InRange

/-- **A message makes the round trip**: `copy_to_buf` writes `get_size` bytes, whatever the buffer
held, and from a buffer with these bytes `create_message` makes a message with the same members and
the same size. -/
def Message.RoundTrips (m : Message C) : Prop :=
  ∀ site, ∃ bs : List UInt8, bs.length = m.getSize ∧
    (∀ buf, m.copyToBuf site buf = some (buf.write 0 bs)) ∧
    ∀ env buf, Buffer.Holds buf 0 bs → ∃ m', createMessage C env buf = some m' ∧
      m.header.Same C m'.header ∧ m.body.Same m'.body ∧ m'.getSize = m.getSize

/-! ### Header -/

/-- The header as it arrives. -/
def Header.received (C : Config) (site site' : Site) (h : Header) : Header :=
  Header.arrive C site' { h with
    batchId := if C.calvin then h.batchId else .ofNat UINT64_MAX
    latNetworkTime := (h.leave C site).latNetworkTime
    latOtherTime := (h.leave C site).latOtherTime }

theorem Header.arrive_keeps (C : Config) (site : Site) (h : Header) :
    (h.arrive C site).rtype = h.rtype ∧ (h.arrive C site).txnId = h.txnId ∧
      (h.arrive C site).batchId = h.batchId ∧ (h.arrive C site).mqTime = h.mqTime := by
  unfold Header.arrive
  split
  · exact ⟨rfl, rfl, rfl, rfl⟩
  · exact ⟨rfl, rfl, rfl, rfl⟩

theorem Header.same_received (site site' : Site) (h : Header) :
    h.Same C (h.received C site site') := by
  have hkeep := Header.arrive_keeps C site' { h with
    batchId := if C.calvin then h.batchId else .ofNat UINT64_MAX
    latNetworkTime := (h.leave C site).latNetworkTime
    latOtherTime := (h.leave C site).latOtherTime }
  exact ⟨hkeep.1, hkeep.2.1, fun hc => hkeep.2.2.1.trans (if_pos hc), hkeep.2.2.2⟩

theorem Header.fits (site site' : Site) (h : Header) :
    Fits (remReqType.toBytes h.rtype) 0 (mgetSize C) (h.mcopyToBuf C site) (mcopyFromBuf C site')
      (h.received C site site') := by
  refine size_eq ?_ ((copy remReqType h.rtype).bind ((copy .u64 h.txnId).bind
    ((ite fun _ => copy .u64 h.batchId).bind ((copy .u64 h.mqTime).bind
    ((copy .u64 h.latWorkQueueTime).bind ((copy .u64 h.latMsgQueueTime).bind
    ((copy .u64 h.latCcBlockTime).bind ((copy .u64 h.latCcTime).bind
    ((copy .u64 h.latProcessTime).bind ((copy .u64 (h.leave C site).latNetworkTime).bind
    ((copy .u64 (h.leave C site).latOtherTime).ret _)))))))))))
  simp [mgetSize]
  omega

/-! ### Classes -/

section

variable (site : Site) (env : Env) (h : Header)

variable (C) in
/-- The functions of a class fit: a message that is written, with a header, is read with the header
as it arrives. -/
abbrev ClassFits {α : Type} (size : ℕ) (w : Writer Unit) (r : Reader (Header × α)) (m : α) : Prop :=
  Fits (remReqType.toBytes h.rtype) 0 size w r (h.received C site env.site, m)

theorem headerFits : Fits (remReqType.toBytes h.rtype) 0 (headerSize C) (headerToBuf C site h)
    (headerFromBuf C env.site) (h.received C site env.site) :=
  h.fits site env.site

theorem checkedFits : Fits (remReqType.toBytes h.rtype) 0 (headerSize C) (checkedToBuf C site h)
    (checkedFromBuf C env.site) (h.received C site env.site) :=
  size_eq (Nat.add_zero _)
    ((h.fits site env.site).bind (behind (done (Nat.zero_add _) (Nat.zero_add _) _)))

theorem FinishMessage.fits (m : FinishMessage C) :
    ClassFits C site env h (m.getSize C) (m.copyToBuf C site h)
      (FinishMessage.copyFromBuf C env.site) m := by
  refine size_eq ?_
    ((h.fits site env.site).bind (behind ((copy .u64 m.pid).bind ((copy rcField m.rc).bind
    ((copy .bool m.readonly).bind ((copy (.sent C.maat .u64) m.commitTimestamp).bind
    (done ?_ ?_ _)))))))
  all_goals simp [FinishMessage.getSize]
  omega

theorem QueryResponseMessage.fits (m : QueryResponseMessage) :
    ClassFits C site env h (m.getSize C) (m.copyToBuf C site h)
      (QueryResponseMessage.copyFromBuf C env.site) m := by
  refine size_eq ?_ ((h.fits site env.site).bind (behind ((copy rcField m.rc).bind (done ?_ ?_ _))))
  all_goals simp [QueryResponseMessage.getSize]

theorem AckMessage.fits (m : AckMessage C) :
    ClassFits C site env h (m.getSize C) (m.copyToBuf C site h)
      (AckMessage.copyFromBuf C env.site) m := by
  have hsize : (if C.maat then 8 * 2 else 0) =
      (if C.maat then 8 else 0) + (if C.maat then 8 else 0) := by
    split <;> rfl
  refine size_eq ?_ ((h.fits site env.site).bind
    (behind ((copy rcField m.rc).bind ((copy (.sent C.maat .u64) m.lower).bind
    ((copy (.sent C.maat .u64) m.upper).bind (done ?_ ?_ _))))))
  all_goals
    simp only [AckMessage.getSize, hsize, size_rcField, Field.size_sent, size_u64]
    omega

theorem ForwardMessage.fits (m : ForwardMessage C) :
    ClassFits C site env h (m.getSize C) (m.copyToBuf C site h)
      (ForwardMessage.copyFromBuf C env.site) m := by
  refine size_eq ?_ ((h.fits site env.site).bind
    (behind ((copy rcField m.rc).bind ((copy (.sent C.tpcc .u64) m.oId).bind (done ?_ ?_ _)))))
  all_goals simp [ForwardMessage.getSize]
  omega

theorem ClientResponseMessage.fits (m : ClientResponseMessage) :
    ClassFits C site env h (m.getSize C) (m.copyToBuf C site h)
      (ClientResponseMessage.copyFromBuf C env.site) m := by
  refine size_eq ?_
    ((h.fits site env.site).bind (behind ((copy .u64 m.clientStartts).bind (done ?_ ?_ _))))
  all_goals simp [ClientResponseMessage.getSize]

/-! ### Queries -/

variable {p : ℕ}

/-- The length of an array, and the array. -/
theorem arrayFits {α : Type} {F : Field α} {w : α → Writer Unit} {r : Reader α} {xs : List α}
    (hlen : xs.length < 2 ^ 64) (hw : ∀ x ∈ xs, Writes (w x) (F.toBytes x))
    (hr : ∀ x ∈ xs, Reads r (F.toBytes x) x) :
    Fits (xs.flatMap F.toBytes) p (F.size * xs.length) (each w xs)
      (times r (UInt64.ofNat xs.length).toNat) xs := by
  rw [UInt64.toNat_ofNat_of_lt' hlen]
  exact array hw hr

theorem readRequest_reads {req : YcsbRequest} (hkey : req.key < C.synthTableSize) :
    Reads (readRequest C) (ycsbRequest.toBytes req) req := by
  have hreads : Reads (readRequest C) (ycsbRequest.toBytes req ++ ([] ++ [])) req :=
    (Reads.copyVal ycsbRequest req).bind ((Reads.check hkey).bind (Reads.pure req))
  simpa using hreads

theorem writeRequest_writes {req : YcsbRequest} (hkey : req.key < C.synthTableSize) :
    Writes (writeRequest C req) (ycsbRequest.toBytes req) :=
  (Writes.check hkey).bind (Writes.copyBuf ycsbRequest req)

theorem QueryMessage.fits (m : QueryMessage C) (hts : Sent.nonzero _ m.ts = true) :
    ClassFits C site env h (m.getSize C) (m.copyToBuf C site h)
      (QueryMessage.copyFromBuf C env.site) m := by
  refine size_eq ?_
    ((h.fits site env.site).bind (behind ((copy (.sent C.hasTs .u64) m.ts).bind (writerCheck hts
    (readerCheck hts ((copy (.sent C.hasStartTs .u64) m.startTs).ret _))))))
  simp [QueryMessage.getSize]
  omega

theorem YCSBQueryMessage.fits (m : YCSBQueryMessage C) (hts : Sent.nonzero _ m.ts = true)
    (hlen : m.requests.length ≤ C.reqPerQuery.toNat)
    (hkeys : ∀ req ∈ m.requests, req.key < C.synthTableSize) :
    ClassFits C site env h (m.getSize C) (m.copyToBuf C site h)
      (YCSBQueryMessage.copyFromBuf C env.site) m := by
  have hlt : m.requests.length < 2 ^ 64 := by
    have := C.reqPerQuery.toNat_lt
    omega
  have hcheck : (UInt64.ofNat m.requests.length).toNat ≤ C.reqPerQuery.toNat := by
    rwa [UInt64.toNat_ofNat_of_lt' hlt]
  refine size_eq ?_ ((m.toQueryMessage.fits site env h hts).bind
    (behind ((copy .u64 (.ofNat m.requests.length)).bind (readerCheck hcheck
    ((arrayFits hlt (fun req _ => Writes.copyBuf ycsbRequest req)
      fun req hreq => readRequest_reads (hkeys req hreq)).bind (done ?_ ?_ _))))))
  all_goals simp [YCSBQueryMessage.getSize]
  omega

theorem Payment.fits (m : Payment) :
    Fits [] p (8 * 4 + LASTNAME_LEN + 1) m.copyToBuf Payment.copyFromBuf m := by
  refine size_eq ?_ ((copy .u64 m.dWId).bind ((copy .u64 m.cWId).bind
    ((copy .u64 m.cDId).bind ((copy (.chars LASTNAME_LEN) m.cLast).bind
    ((copy .u64 m.hAmount).bind ((copy .bool m.byLastName).ret _)))))).nil
  simp [LASTNAME_LEN]

theorem NewOrder.fits (m : NewOrder) (hlen : m.items.length < 2 ^ 64) :
    Fits [] p (8 * 2 + 1 * 2 + 24 * m.items.length + 8) m.copyToBuf NewOrder.copyFromBuf m := by
  refine size_eq ?_ ((copy .u64 (.ofNat m.items.length)).bind
    ((arrayFits hlen (fun i _ => Writes.copyBuf itemNo i) fun i _ => Reads.copyVal itemNo i).bind
    ((copy .bool m.rbk).bind ((copy .bool m.remote).bind ((copy .u64 m.olCnt).bind
    ((copy .u64 m.oEntryD).ret _)))))).nil
  simp
  omega

/-- A TPC-C query as it arrives. -/
def TPCCQueryMessage.received (m : TPCCQueryMessage C) : TPCCQueryMessage C :=
  { m with
    payment := if m.txnType = TPCC_PAYMENT then m.payment else env.payment
    newOrder := if m.txnType = TPCC_NEW_ORDER then m.newOrder
      else { env.newOrder with items := [] } }

theorem TPCCQueryMessage.same_received (m : TPCCQueryMessage C) : m.Same (m.received env) where
  query := rfl
  txnType := rfl
  state := rfl
  wId := rfl
  dId := rfl
  cId := rfl
  payment hp := if_pos hp
  newOrder hn := if_pos hn

theorem TPCCQueryMessage.getSize_received (m : TPCCQueryMessage C) :
    (m.received env).getSize C = m.getSize C := by
  simp only [TPCCQueryMessage.getSize, TPCCQueryMessage.received]
  by_cases hn : m.txnType = TPCC_NEW_ORDER
  · simp only [if_pos hn]
  · simp only [if_neg hn]

theorem TPCCQueryMessage.fits (m : TPCCQueryMessage C) (hts : Sent.nonzero _ m.ts = true)
    (htype : m.txnType = TPCC_PAYMENT ∨ m.txnType = TPCC_NEW_ORDER)
    (hlen : m.newOrder.items.length < 2 ^ 64) :
    ClassFits C site env h (m.getSize C) (m.copyToBuf C site h)
      (TPCCQueryMessage.copyFromBuf C env) (m.received env) := by
  refine size_eq ?_ ((m.toQueryMessage.fits site env h hts).bind
    (behind ((copy .u64 m.txnType).bind (readerCheck htype
    ((copy .u64 m.state).bind ((copy .u64 m.wId).bind ((copy .u64 m.dId).bind
    ((copy .u64 m.cId).bind ((ite fun _ => m.payment.fits).bind
    ((ite fun _ => m.newOrder.fits hlen).bind (done ?_ ?_ (_, m.received env))))))))))))
  · simp only [TPCCQueryMessage.getSize, size_u64]
    omega
  · simp only [TPCCQueryMessage.getSize, size_u64, Nat.zero_add]
  · refine Eq.trans ?_ (m.getSize_received env).symm
    simp only [TPCCQueryMessage.getSize, size_u64, Nat.zero_add]

theorem ClientQueryMessage.fits (m : ClientQueryMessage) (hlen : m.partitions.length < 2 ^ 64) :
    ClassFits C site env h (m.getSize C) (m.copyToBuf C site h)
      (ClientQueryMessage.copyFromBuf C env.site) m := by
  refine size_eq ?_ ((h.fits site env.site).bind (behind ((copy .u64 m.clientStartts).bind
    ((copy .u64 (.ofNat m.partitions.length)).bind
    ((arrayFits hlen (fun x _ => Writes.copyBuf .u64 x) fun x _ => Reads.copyVal .u64 x).ret _)))))
  simp [ClientQueryMessage.getSize]
  omega

theorem YCSBClientQueryMessage.fits (m : YCSBClientQueryMessage)
    (hparts : m.partitions.length < 2 ^ 64) (hlen : m.requests.length < 2 ^ 64)
    (hkeys : ∀ req ∈ m.requests, req.key < C.synthTableSize) :
    ClassFits C site env h (m.getSize C) (m.copyToBuf C site h)
      (YCSBClientQueryMessage.copyFromBuf C env.site) m := by
  refine size_eq ?_ ((m.toClientQueryMessage.fits site env h hparts).bind
    (behind ((copy .u64 (.ofNat m.requests.length)).bind
    ((arrayFits hlen (fun req hreq => writeRequest_writes (hkeys req hreq))
      fun req hreq => readRequest_reads (hkeys req hreq)).bind (done ?_ ?_ _)))))
  all_goals simp [YCSBClientQueryMessage.getSize]
  omega

theorem TPCCClientQueryMessage.fits (m : TPCCClientQueryMessage)
    (hparts : m.partitions.length < 2 ^ 64) (hlen : m.newOrder.items.length < 2 ^ 64) :
    ClassFits C site env h (m.getSize C) (m.copyToBuf C site h)
      (TPCCClientQueryMessage.copyFromBuf C env.site) m := by
  refine size_eq ?_ ((m.toClientQueryMessage.fits site env h hparts).bind
    (behind ((copy .u64 m.txnType).bind
    ((copy .u64 m.wId).bind ((copy .u64 m.dId).bind ((copy .u64 m.cId).bind
    (m.payment.fits.bind ((m.newOrder.fits hlen).bind (done ?_ ?_ _)))))))))
  all_goals
    simp only [TPCCClientQueryMessage.getSize, size_u64]
    omega

/-! ### All messages -/

/-- The members as they arrive. -/
def Body.received : Body C → Body C
  | .tpccQuery m => .tpccQuery (m.received env)
  | b => b

/-- A message as it arrives. -/
def Message.received (m : Message C) : Message C :=
  ⟨m.header.received C site env.site, m.body.received env⟩

theorem Body.same_received (b : Body C) : b.Same (b.received env) := by
  cases b with
  | tpccQuery m => exact m.same_received env
  | _ => rfl

theorem Message.getSize_received (m : Message C) : (m.received site env).getSize = m.getSize := by
  obtain ⟨_, b⟩ := m
  cases b with
  | tpccQuery m => exact m.getSize_received env
  | _ => rfl

/-- Every class but `LogFlushedMessage`. -/
theorem Message.fits (m : Message C) (hrange : m.body.InRange) (hne : m.body.kind ≠ .logFlushed) :
    Fits (remReqType.toBytes m.header.rtype) 0 m.getSize (m.writer site)
      (copyFromBuf C env m.header.rtype m.body.kind) (m.received site env) := by
  obtain ⟨h, b⟩ := m
  cases b with
  | initDone | logRsp => exact (headerFits site env h).map _
  | ycsbQuery m | tpccQuery m => exact (m.fits site env h hrange.1 hrange.2.1 hrange.2.2).map _
  | finish m | queryResponse m | ack m | forward m | clientResponse m =>
    exact (m.fits site env h).map _
  | logFlushed => exact absurd rfl hne
  | ycsbClientQuery m =>
    exact (m.fits site env h hrange.1 hrange.2.1 hrange.2.2).map _
  | tpccClientQuery m => exact (m.fits site env h hrange.1 hrange.2).map _
  | prepare | done => exact (checkedFits site env h).map _

theorem messageReader_fits (m : Message C) (hv : m.Valid) (hne : m.body.kind ≠ .logFlushed) :
    Fits (remReqType.toBytes m.header.rtype) 0 m.getSize (m.writer site) (messageReader C env)
      (m.received site env) := by
  refine peek ?_
  rw [hv.1]
  exact m.fits site env hv.2 hne

theorem kindOf_eq_logFlushed {workload : Workload} {rtype : RemReqType}
    (h : kindOf workload rtype = some .logFlushed) : rtype = .LOG_FLUSHED := by
  revert h
  cases workload <;> cases rtype <;> decide

end

instance : Nonempty Env :=
  ⟨⟨⟨0, 0⟩, ⟨0, 0, 0, List.Vector.replicate _ 0, 0, false⟩, ⟨[], false, false, 0, 0⟩⟩⟩

/-- What `copy_to_buf` writes, and what `create_message` makes of it at any time. -/
theorem exists_bytes (m : Message C) (hv : m.Valid) (hne : m.header.rtype ≠ .LOG_FLUSHED)
    (site : Site) : ∃ bs : List UInt8, bs.length = m.getSize ∧
      (∀ buf, m.copyToBuf site buf = some (buf.write 0 bs)) ∧
      ∀ env buf, Buffer.Holds buf 0 bs → createMessage C env buf = some (m.received site env) := by
  have hkind : m.body.kind ≠ .logFlushed := fun hk => hne (kindOf_eq_logFlushed (hk ▸ hv.1))
  obtain ⟨bs, hlen, hw, hr⟩ := common fun env => messageReader_fits site env m hv hkind
  refine ⟨bs, hlen, fun buf => ?_, fun env buf hbuf => ?_⟩
  · rw [Message.copyToBuf, hw]
    rfl
  · rw [createMessage, hr env buf hbuf]
    rfl

/-- **Messages make the round trip**, all but `LOG_FLUSHED`. `copy_to_buf` writes as many bytes as
`get_size` says, and `create_message` makes the same message of them: for every class, every setting
of `CC_ALG` and the workload, and whatever the sender's and the receiver's own members hold. -/
theorem roundTrips (m : Message C) (hv : m.Valid) (hne : m.header.rtype ≠ .LOG_FLUSHED) :
    m.RoundTrips := by
  intro site
  obtain ⟨bs, hlen, hw, hr⟩ := exists_bytes m hv hne site
  refine ⟨bs, hlen, hw, fun env buf hbuf => ⟨m.received site env, hr env buf hbuf, ?_, ?_, ?_⟩⟩
  · exact m.header.same_received site env.site
  · exact m.body.same_received env
  · exact m.getSize_received site env

/-- A build for YCSB with `WAIT_DIE`. -/
def waitDie : Config := ⟨.YCSB, .WAIT_DIE, 2, 10, 1000, id, (· - ·)⟩

/-- A query with two requests, in its second round. -/
def query : Message waitDie :=
  ⟨⟨.RQRY, 3, 0, 5, 0, 0, 0, 0, 0, 0, 0⟩,
    .ycsbQuery ⟨⟨(17 : UInt64), ()⟩,
      [⟨.RD, List.Vector.replicate _ 0, 999, List.Vector.replicate _ 0, List.Vector.replicate _ 0⟩,
        ⟨.WR, List.Vector.replicate _ 0, 4, List.Vector.replicate _ 1, List.Vector.replicate _ 0⟩]⟩⟩

theorem roundTrips_query : query.getSize = 140 ∧ query.RoundTrips := by
  refine ⟨rfl, roundTrips query ⟨rfl, ?_⟩ (by decide)⟩
  exact ⟨by decide, by decide, by decide⟩

/-- **`LOG_FLUSHED` does not make the round trip**: the message says that it has 120 bytes, and
writes none. -/
theorem not_roundTrips_logFlushed : ∃ m : Message waitDie, m.header.rtype = .LOG_FLUSHED ∧ m.Valid ∧
    m.getSize = 120 ∧ (∀ site buf, m.copyToBuf site buf = some buf) ∧ ¬ m.RoundTrips := by
  refine ⟨⟨.new .LOG_FLUSHED, .logFlushed⟩, rfl, ⟨rfl, trivial⟩, rfl, fun _ _ => rfl, fun h => ?_⟩
  obtain ⟨bs, hlen, hw, _⟩ := h ⟨0, 0⟩
  -- the first byte would stand in every buffer
  have hhead : ∀ buf : Buffer, buf.Holds 0 bs := fun buf => by
    have heq : buf = buf.write 0 bs := some.inj (hw buf)
    rw [heq]
    exact Buffer.holds_write buf 0 bs
  have hpos : 0 < bs.length := by
    rw [hlen]
    decide
  obtain ⟨b, hb⟩ : ∃ b, bs[0]? = some b := ⟨bs[0], List.getElem?_eq_getElem hpos⟩
  have h0 : (0 : UInt8) = b := hhead (fun _ => 0) 0 b hb
  have h1 : (1 : UInt8) = b := hhead (fun _ => 1) 0 b hb
  exact absurd (h0.trans h1.symm) (by decide)

/-! ## Messages in batches -/

/-- What of a message is sent: no statistics but `mq_time`, and of a TPC-C query the members for its
kind of transaction. The rest is taken from `blank`. -/
def Message.content (blank : Env) (m : Message C) : Message C where
  header := { Header.new m.header.rtype with
    txnId := m.header.txnId
    batchId := if C.calvin then m.header.batchId else .ofNat UINT64_MAX
    mqTime := m.header.mqTime }
  body := m.body.received blank

theorem TPCCQueryMessage.received_received (blank env : Env) (m : TPCCQueryMessage C) :
    (m.received env).received blank = m.received blank := by
  simp only [TPCCQueryMessage.received]
  congr 1
  · split <;> rfl
  · split <;> rfl

theorem Message.content_received (blank env : Env) (site : Site) (m : Message C) :
    (m.received site env).content blank = m.content blank := by
  obtain ⟨h, b⟩ := m
  have hsame := h.same_received (C := C) site env.site
  have hheader : ((Message.received site env ⟨h, b⟩).content blank).header =
      (Message.content blank ⟨h, b⟩).header := by
    simp only [Message.content, Message.received, hsame.rtype, hsame.txnId, hsame.mqTime]
    by_cases hc : C.calvin = true
    · simp only [if_pos hc, hsame.batchId hc]
    · simp only [if_neg hc]
  have hbody : ((Message.received site env ⟨h, b⟩).content blank).body =
      (Message.content blank ⟨h, b⟩).body := by
    cases b with
    | tpccQuery m => exact congrArg Body.tpccQuery (m.received_received blank env)
    | _ => rfl
  exact congrArg₂ Message.mk hheader hbody

theorem Message.getSize_pos (m : Message C) : 0 < m.getSize := by
  have hheader : 0 < mgetSize C := by
    unfold mgetSize
    omega
  obtain ⟨h, b⟩ := m
  cases b <;> simp only [Message.getSize, InitDoneMessage.getSize, LogRspMessage.getSize,
    PrepareMessage.getSize, DoneMessage.getSize, LogFlushedMessage.getSize, headerSize,
    YCSBQueryMessage.getSize, TPCCQueryMessage.getSize, FinishMessage.getSize,
    QueryResponseMessage.getSize, AckMessage.getSize, YCSBClientQueryMessage.getSize,
    TPCCClientQueryMessage.getSize, ClientQueryMessage.getSize, QueryMessage.getSize,
    ForwardMessage.getSize, ClientResponseMessage.getSize] <;> omega

/-- A message that is sent, with the time at which it is copied. -/
structure Outgoing (C : Config) where
  message : Message C
  site : Site
  valid : message.Valid
  sendable : message.header.rtype ≠ .LOG_FLUSHED

/-- **The messages as message threads copy them**: the batches of `Batching` are made of these, and
a receiver makes of them what is sent. -/
def wire (blank : Env) : Batching.Wire (Outgoing C) (Message C) where
  getSize m := m.message.getSize
  encode m := ((m.message.copyToBuf m.site fun _ => 0).map (·.read 0 m.message.getSize)).getD []
  create buf := (createMessage C blank buf).map fun m => (m.content blank, m.getSize)
  content m := m.message.content blank
  length_encode m := by
    obtain ⟨bs, _, hw, _⟩ := exists_bytes m.message m.valid m.sendable m.site
    rw [hw]
    exact Buffer.length_read _ _ _
  getSize_pos m := m.message.getSize_pos
  create_eq {buf m} h := by
    obtain ⟨bs, hlen, hw, hr⟩ := exists_bytes m.message m.valid m.sendable m.site
    have hbytes : Buffer.read (Buffer.write (fun _ => 0) 0 bs) 0 m.message.getSize = bs := by
      rw [← hlen]
      exact (Buffer.holds_write _ _ _).read_eq
    rw [hw, map_some, getD_some, hbytes] at h
    rw [hr blank buf h, map_some, m.message.content_received, m.message.getSize_received]

end

end MessageCodec

end Deneva
