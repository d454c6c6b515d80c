import Deneva.Logger
import Deneva.MessageCodec

/-!
# Log records for the replica (`LogMessage` of `transport/message.cpp`)

With a replica, every log record is also sent to it as a `LOG_MSG`, whose handler there creates the
record again and puts it into the log queue. `LogMessage::get_size` does not count the record, which
`copy_to_buf` copies and after which it asserts that it has copied `get_size` bytes.
-/

namespace Deneva

open List

namespace LogReplication

open MessageCodec

open Logger (LogIUD)

/-- `LogRecType` -/
inductive LogRecType : Type where
  | LRT_INVALID | LRT_INSERT | LRT_UPDATE | LRT_DELETE | LRT_TRUNCATE
  deriving DecidableEq

/-- The members of `AriesLogRecord` that `copyRecord` copies. -/
structure Rcd where
  lsn : UInt64
  type : LogRecType
  iud : LogIUD
  txnId : UInt64
  tableId : UInt32
  key : UInt64
  deriving DecidableEq

/-- `LogRecord`, with the bytes that align its members. -/
structure LogRecord : Type extends Rcd where
  checksum : UInt32
  /-- behind `checksum` -/
  pad : List.Vector UInt8 4
  /-- behind `table_id` -/
  padTable : List.Vector UInt8 4
  isValid : Bool
  /-- behind `isValid` -/
  padEnd : List.Vector UInt8 7

/-- `LogRecord::copyRecord`, to the memory of another record. -/
def LogRecord.copyRecord (memory record : LogRecord) : LogRecord :=
  { memory with toRcd := record.toRcd, checksum := 0 }

def logRecType : Field LogRecType :=
  .ofList [.LRT_INVALID, .LRT_INSERT, .LRT_UPDATE, .LRT_DELETE, .LRT_TRUNCATE]
    (by intro x; cases x <;> decide) (by decide)

def logIUD : Field LogIUD :=
  .ofList [.L_INSERT, .L_UPDATE, .L_DELETE, .L_NOTIFY] (by intro x; cases x <;> decide) (by decide)

/-- The layout of `LogRecord`. -/
def logRecord : Field LogRecord :=
  ((Field.u32.prod ((Field.chars 4).prod (Field.u64.prod (logRecType.prod logIUD)))).prod
    ((Field.u64.prod (Field.u32.prod ((Field.chars 4).prod Field.u64))).prod
      (Field.bool.prod (Field.chars 7)))).map
    (fun r => ((r.checksum, r.pad, r.lsn, r.type, r.iud), (r.txnId, r.tableId, r.padTable, r.key),
      r.isValid, r.padEnd))
    (fun t => ⟨⟨t.1.2.2.1, t.1.2.2.2.1, t.1.2.2.2.2, t.2.1.1, t.2.1.2.1, t.2.1.2.2.2⟩, t.1.1,
      t.1.2.1, t.2.1.2.2.1, t.2.2.1, t.2.2.2⟩) fun _ => rfl

/-- `LogMessage` -/
structure LogMessage where
  header : Header
  record : LogRecord

/-- `create_message(LogRecord *, LOG_MSG)`, in memory with anything in it. -/
def LogMessage.create (memory record : LogRecord) : LogMessage where
  header := { Header.new .LOG_MSG with txnId := record.txnId }
  record := memory.copyRecord record

variable (C : MessageCodec.Config)

def LogMessage.getSize (_ : LogMessage) : ℕ := mgetSize C

def LogMessage.copyToBuf (site : Site) (m : LogMessage) : Writer Unit := do
  m.header.mcopyToBuf C site
  Writer.seek (mgetSize C)
  copyBuf logRecord m.record
  Writer.checkPtr (m.getSize C)

def LogMessage.copyFromBuf (site : Site) : Reader LogMessage := do
  let h ← mcopyFromBuf C site
  Reader.seek (mgetSize C)
  let record ← copyVal logRecord
  let m : LogMessage := ⟨h, record⟩
  Reader.checkPtr (m.getSize C)
  pure m

/-- What the replica makes of a message: the record that `process_log_msg` puts into the queue, or
another message. -/
def replicaReader (memory : LogRecord) (blank : Env) : Reader ((Rcd ⊕ Message C) × ℕ) := do
  let rtype ← Reader.peek (copyVal remReqType)
  if rtype = .LOG_MSG then
    (fun m => (.inl (memory.copyRecord m.record).toRcd, m.getSize C)) <$> LogMessage.copyFromBuf C
      blank.site
  else (fun m => (.inr (m.content blank), m.getSize)) <$> messageReader C blank

/-- What a call of `MessageThread::run` finds. -/
inductive Call : Type where
  /-- the `LOG_MSG` of a record -/
  | log (record : LogRecord) (site : Site) (dest : ℕ) (timeout : ℕ → Bool)
  | other (i : Batching.Input (Outgoing C))

variable {C}

/-- The record that is sent. -/
def Call.record? : Call C → Option LogRecord
  | .log record _ _ _ => some record
  | .other _ => none

theorem replicaReader_of_messageReader {memory : LogRecord} {blank : Env} {buf : Buffer}
    {m : Message C} {p : ℕ} (h : messageReader C blank buf 0 = some (m, p)) :
    replicaReader C memory blank buf 0 = some ((.inr (m.content blank), m.getSize), p) := by
  have hbind : (Reader.peek (copyVal remReqType) buf 0).bind _ = _ := h
  obtain ⟨⟨rtype, q⟩, hpeek, hrest⟩ := Option.bind_eq_some_iff.mp hbind
  obtain ⟨_, -, heq⟩ := Option.map_eq_some_iff.mp hpeek
  obtain ⟨-, rfl⟩ := Prod.mk.inj heq
  change (Reader.peek (copyVal remReqType) buf 0).bind _ = _
  rw [hpeek, Option.bind_some]
  dsimp only
  split
  next hlog =>
    subst hlog
    cases hrest
  · change (messageReader C blank buf 0).bind _ = _
    rw [h]
    rfl

/-- The messages as message threads copy them and the replica reads them. -/
def replicaWire (memory : LogRecord) (blank : Env) :
    Batching.Wire (Outgoing C) (Rcd ⊕ Message C) where
  getSize := (wire blank).getSize
  encode := (wire blank).encode
  create buf := (replicaReader C memory blank buf 0).map Prod.fst
  content m := .inr ((wire blank).content m)
  length_encode := (wire blank).length_encode
  getSize_pos := (wire blank).getSize_pos
  create_eq {buf m} h := by
    obtain ⟨x, hx, heq⟩ := Option.map_eq_some_iff.mp ((wire blank).create_eq h)
    obtain ⟨⟨m', p⟩, hread, rfl⟩ := Option.map_eq_some_iff.mp hx
    rw [replicaReader_of_messageReader hread]
    exact congrArg some (congrArg (Prod.map Sum.inr id) heq)

/-- `MessageThread::run`, when it takes a `LOG_MSG` or not. -/
def run (B : Batching.Config) (memory : LogRecord) (blank : Env) (s : Batching.State) :
    Call C → Option Batching.State
  | .log record site dest timeout =>
    if B.totalNodeCnt ≤ dest ∨ dest = B.nodeId then none
    else
      let m := LogMessage.create memory record
      (if (s.buffer dest).fits B (m.getSize C) then some s
        else Batching.sendBatch B dest s).bind fun s =>
        let sbuf := s.buffer dest
        (m.copyToBuf C site (sbuf.buffer.shift sbuf.ptr, 0)).bind fun (_, buf, size) =>
          Batching.checkAndSendBatches B timeout { s with
            buffer := Function.update s.buffer dest
              ⟨sbuf.buffer.write sbuf.ptr (buf.read 0 size), sbuf.ptr + m.getSize C, sbuf.cnt + 1⟩ }
  | .other i => Batching.run B (replicaWire memory blank) s i

/-- What is taken for a destination: records and messages. -/
def taken (blank : Env) (dest : ℕ) : Call C → Option (Rcd ⊕ Message C)
  | .log record _ d _ => if d = dest then some (.inl record.toRcd) else none
  | .other i =>
    i.msg.bind fun (m, d) => if d = dest then some (.inr (m.message.content blank)) else none

/-- **Records and messages are replicated**: a `LOG_MSG` has the size it says, and batches are taken
apart into the records and messages that were sent. -/
def Replicated (B : Batching.Config) (memory : LogRecord) (blank : Env) (buffers : ℕ → Buffer)
    (calls : List (Call C)) : Prop :=
  (∀ record site dest timeout, .log record site dest timeout ∈ calls → ∀ buf, ∃ buf',
    (LogMessage.create memory record).copyToBuf C site (buf, 0) =
      some ((), buf', (LogMessage.create memory record).getSize C)) ∧
  ∃ s, calls.foldlM (run B memory blank) (Batching.init B buffers) = some s ∧
    ∀ dest < B.totalNodeCnt, dest ≠ B.nodeId →
    ∃ (groups : List (List (Rcd ⊕ Message C))) (rest : List _),
      groups.flatten ++ rest = calls.filterMap (taken blank dest) ∧
      (s.sent dest).map (Batching.received B (replicaWire (C := C) memory blank) dest) =
        groups.map (fun g => some (g.map fun x => (x, B.nodeId))) ∧
      Batching.buffered (replicaWire (C := C) memory blank) (s.buffer dest) = some rest

/-- `copy_to_buf` copies more than `get_size` bytes, and fails. -/
theorem copyToBuf_eq_none (m : LogMessage) (site : Site) (buf : Buffer) :
    m.copyToBuf C site (buf, 0) = none := by
  have hptr : mgetSize C + logRecord.size ≠ m.getSize C :=
    Nat.ne_of_gt (Nat.lt_add_of_pos_right (by decide))
  change (m.header.mcopyToBuf C site (buf, 0)).bind (fun r =>
    Writer.checkPtr (m.getSize C)
      (r.2.1.write _ (logRecord.toBytes m.record), mgetSize C + logRecord.size)) = _
  cases m.header.mcopyToBuf C site (buf, 0) with
  | none => rfl
  | some r => exact if_neg hptr

/-- Calls without a `LOG_MSG` are those of `Batching`. -/
theorem foldlM_other (B : Batching.Config) (memory : LogRecord) (blank : Env) (buffers : ℕ → Buffer)
    (inputs : List (Batching.Input (Outgoing C))) (s : Batching.State) :
    (inputs.map Call.other).foldlM (run B memory blank) s =
      (Batching.machine B (replicaWire memory blank) buffers).runFrom s inputs := by
  induction inputs generalizing s with
  | nil => rfl
  | cons i inputs ih =>
    rw [map_cons, foldlM_cons, Machine.runFrom]
    exact bind_congr ih

theorem exists_inputs {calls : List (Call C)} (h : calls.filterMap Call.record? = []) :
    ∃ inputs : List (Batching.Input (Outgoing C)), calls = inputs.map Call.other := by
  induction calls with
  | nil => exact ⟨[], rfl⟩
  | cons call calls ih =>
    cases call with
    | log => cases h
    | other i =>
      obtain ⟨inputs, rfl⟩ := ih h
      exact ⟨i :: inputs, rfl⟩

/-- **Records and messages are replicated exactly if no record is sent.** `get_size` of a `LOG_MSG`
does not count the record that `copy_to_buf` copies, so that the assertion after the copy fails with
the first record; calls without one leave the batches as they should be. -/
theorem replicated_iff (B : Batching.Config) (memory : LogRecord) (blank : Env)
    (buffers : ℕ → Buffer) (calls : List (Call C))
    (hok : ∀ i, .other i ∈ calls → ∀ m d, i.msg = some (m, d) → m.message.getSize + 12 ≤ B.msgSize ∧
      d < B.totalNodeCnt ∧ d ≠ B.nodeId) :
    Replicated B memory blank buffers calls ↔ calls.filterMap Call.record? = [] := by
  constructor
  · rintro ⟨hsize, -⟩
    refine List.filterMap_eq_nil_iff.mpr fun call hcall => ?_
    cases call with
    | log record site dest timeout =>
      obtain ⟨buf, hbuf⟩ := hsize record site dest timeout hcall fun _ => 0
      rw [copyToBuf_eq_none] at hbuf
      cases hbuf
    | other => rfl
  · intro hnone
    obtain ⟨inputs, rfl⟩ := exists_inputs hnone
    refine ⟨fun _ _ _ _ hmem => ?_, ?_⟩
    · obtain ⟨i, -, heq⟩ := List.mem_map.mp hmem
      cases heq
    · obtain ⟨s, hs, h⟩ := Batching.streams_preserved B (replicaWire memory blank) buffers inputs
        fun i hi => hok i (List.mem_map_of_mem hi)
      refine ⟨s, (foldlM_other ..).trans hs, fun dest hdest hne => ?_⟩
      obtain ⟨-, groups, rest, henq, hsent, -, hrest⟩ := h dest hdest hne
      refine ⟨groups.map (·.map (replicaWire memory blank).content), rest.map _, ?_, ?_, hrest⟩
      · rw [← map_flatten, ← map_append, henq, Batching.enqueued, map_filterMap,
          filterMap_map]
        refine filterMap_congr fun i _ => ?_
        rcases i with ⟨_ | ⟨m, d⟩, timeout⟩
        · rfl
        · by_cases hd : d = dest
          · simp [taken, hd, replicaWire, wire]
          · simp [taken, hd]
      · rw [hsent, List.map_map]
        simp only [Function.comp_def, List.map_map]

/-! ## One record -/

/-- A server with a client and a replica. -/
def threeNodes : Batching.Config := ⟨0, 3, 4096, false, by decide, by decide, by decide⟩

/-- The build of that server. -/
def oneServer : MessageCodec.Config := ⟨.YCSB, .NO_WAIT, 1, 1, 1, id, (· - ·)⟩

/-- The record of an update. -/
def updateRecord : LogRecord :=
  ⟨⟨0, .LRT_UPDATE, .L_UPDATE, 0, 0, 7⟩, 0, .replicate 4 0, .replicate 4 0, false, .replicate 7 0⟩

/-- Cleared memory. -/
def cleared : Env := ⟨⟨2, 0⟩, ⟨0, 0, 0, .replicate _ 0, 0, false⟩, ⟨[], false, false, 0, 0⟩⟩

/-- The update is not replicated. -/
theorem not_replicated_update : ¬Replicated threeNodes updateRecord cleared (fun _ _ => 0)
    [(.log updateRecord ⟨0, 0⟩ 2 fun _ => true : Call oneServer)] := by
  rintro ⟨hsize, -⟩
  obtain ⟨buf, hbuf⟩ := hsize updateRecord ⟨0, 0⟩ 2 _ mem_cons_self fun _ => 0
  rw [copyToBuf_eq_none] at hbuf
  cases hbuf

/-- A query of the server, as it sends it to the client's node. -/
def ownQuery : Message oneServer :=
  ⟨⟨.RQRY, 3, 0, 5, 0, 0, 0, 0, 0, 0, 0⟩, .ycsbQuery ⟨⟨(), ()⟩,
    [⟨.RD, .replicate _ 0, 0, .replicate _ 0, .replicate _ 0⟩]⟩⟩

/-- A query for node `1`, and then the record of an update for the replica. -/
def queryAndUpdate : List (Call oneServer) :=
  [.other ⟨some (⟨ownQuery, ⟨0, 0⟩, ⟨rfl, by decide, by decide, by decide⟩, by decide⟩, 1),
      fun _ => true⟩,
    .log updateRecord ⟨0, 0⟩ 2 fun _ => true]

/-- The query alone gets to its node; with the record nothing is right. -/
theorem replicated_iff_queryAndUpdate :
    Replicated threeNodes updateRecord cleared (fun _ _ => 0) (queryAndUpdate.take 1) ∧
    (Replicated threeNodes updateRecord cleared (fun _ _ => 0) queryAndUpdate ↔
      queryAndUpdate.filterMap Call.record? = []) := by
  have hok : ∀ i, .other i ∈ queryAndUpdate → ∀ m d, i.msg = some (m, d) →
      m.message.getSize + 12 ≤ threeNodes.msgSize ∧ d < threeNodes.totalNodeCnt ∧
        d ≠ threeNodes.nodeId := by
    intro i hi m d hmsg
    simp only [queryAndUpdate, mem_cons, Call.other.injEq, reduceCtorEq, not_mem_nil,
      or_false] at hi
    subst hi
    cases hmsg
    decide
  refine ⟨(replicated_iff _ _ _ _ _ fun i hi => ?_).mpr rfl, replicated_iff _ _ _ _ _ hok⟩
  exact hok i (mem_of_mem_take hi)

end LogReplication

end Deneva
