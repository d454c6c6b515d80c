import Deneva.Codec
import Deneva.Transition

/-!
# Batches of messages (`transport/msg_thread.cpp`, `Message::create_messages`)

A message thread has a buffer for each destination. It copies the messages that it takes from its
queue to the buffers, and sends a buffer when the next message does not fit or when its time is
over. The receiver takes the batch apart again.

* `Wire` is what a message has to do with bytes: how it is copied to a buffer and created from one.
* `run` is a call of `MessageThread::run`, for any answer of the clock; `createMessages` is the
  receiver.
* `Fill` is what a buffer has to do with the messages in it, and `Carries` adds the batches sent
  before.
-/

namespace Deneva

open Function List

namespace Batching

/-- Messages, as they are sent: a message that is copied to a buffer, and what is created from its
bytes, whatever stands behind them. -/
structure Wire (μ ω : Type) where
  getSize : μ → ℕ
  /-- what `copy_to_buf` writes -/
  encode : μ → List UInt8
  /-- `create_message`, with the size of what it has created -/
  create : Buffer → Option (ω × ℕ)
  /-- what of a message is sent -/
  content : μ → ω
  length_encode : ∀ m, (encode m).length = getSize m
  /-- there is at least the `RemReqType` -/
  getSize_pos : ∀ m, 0 < getSize m
  create_eq : ∀ {buf m}, Buffer.Holds buf 0 (encode m) → create buf = some (content m, getSize m)

/-- The constants that the message threads use. -/
structure Config where
  nodeId : ℕ
  totalNodeCnt : ℕ
  msgSize : ℕ
  /-- `CC_ALG == CALVIN` -/
  calvin : Bool
  nodeId_lt : nodeId < totalNodeCnt
  /-- it is a `UInt32` -/
  totalNodeCnt_lt : totalNodeCnt < 2 ^ 32
  /-- a batch has a header, and 32 bits in it for the number of its messages; `MSG_SIZE_MAX` is
  4096 -/
  msgSize_bounds : 12 ≤ msgSize ∧ msgSize < 2 ^ 32

/-- `mbuf`. -/
structure Mbuf where
  buffer : Buffer
  ptr : ℕ
  cnt : ℕ

/-- A message thread. -/
structure State where
  /-- `buffer`, by destination -/
  buffer : ℕ → Mbuf
  /-- what `send_msg` was given, by destination -/
  sent : ℕ → List (List UInt8)

section Thread

variable {μ ω : Type} (C : Config) (W : Wire μ ω)

/-- The bytes of a number in a header. -/
def headerWord (n : ℕ) : List UInt8 := Field.u32.toBytes (.ofNat n)

@[simp] theorem length_headerWord (n : ℕ) : (headerWord n).length = 4 := Field.u32.length_toBytes _

/-- `mbuf::reset`. -/
def Mbuf.reset (destId : ℕ) (b : Mbuf) : Mbuf where
  buffer := (b.buffer.write 0 (headerWord destId)).write 4 (headerWord C.nodeId)
  ptr := 12
  cnt := 0

/-- `mbuf::fits`. -/
def Mbuf.fits (b : Mbuf) (size : ℕ) : Bool := b.ptr + size ≤ C.msgSize

/-- `mbuf::ready`, where the clock says whether `g_msg_time_limit` is over. -/
def Mbuf.ready (b : Mbuf) (timeout : Bool) : Bool := b.cnt ≠ 0 && timeout

/-- `buffer_cnt`. -/
def bufferCnt : ℕ := if C.calvin then C.totalNodeCnt + 1 else C.totalNodeCnt

/-- `MessageThread::init`, in memory with anything in it. -/
def init (memory : ℕ → Buffer) : State where
  buffer n := (Mbuf.mk (memory n) 0 0).reset C n
  sent _ := []

/-- `MessageThread::send_batch`; there is no result if its assertion fails. -/
def sendBatch (dest : ℕ) (s : State) : Option State :=
  let sbuf := s.buffer dest
  if 0 < sbuf.cnt then
    let full := sbuf.buffer.write 8 (headerWord sbuf.cnt)
    some
      { buffer := update s.buffer dest ({ sbuf with buffer := full }.reset C dest)
        sent := update s.sent dest (s.sent dest ++ [full.read 0 sbuf.ptr]) }
  else none

/-- `MessageThread::check_and_send_batches`. -/
def checkAndSendBatches (timeout : ℕ → Bool) (s : State) : Option State :=
  (List.range (bufferCnt C)).foldlM
    (fun s dest => if (s.buffer dest).ready (timeout dest) then sendBatch C dest s else some s) s

/-- `copy_to_buf` at the pointer, and what follows it. There is no result if it writes behind the
end of the buffer. -/
def copyToBuf (m : μ) (dest : ℕ) (s : State) : Option State :=
  let sbuf := s.buffer dest
  if sbuf.ptr + W.getSize m ≤ C.msgSize then
    some { s with
      buffer := update s.buffer dest
        ⟨sbuf.buffer.write sbuf.ptr (W.encode m), sbuf.ptr + W.getSize m, sbuf.cnt + 1⟩ }
  else none

/-- What a call of `run` finds: what `dequeue` answers, and what the clock says for each
destination. -/
structure Input (μ : Type) where
  /-- the message and its destination, if there is one -/
  msg : Option (μ × ℕ)
  /-- whose time is over -/
  timeout : ℕ → Bool

/-- `MessageThread::run`. -/
def run (s : State) (i : Input μ) : Option State :=
  match i.msg with
  | none => checkAndSendBatches C i.timeout s
  | some (m, dest) =>
    if C.totalNodeCnt ≤ dest ∨ dest = C.nodeId then none
    else
      (if (s.buffer dest).fits C (W.getSize m) then some s else sendBatch C dest s).bind fun s =>
        (copyToBuf C W m dest s).bind (checkAndSendBatches C i.timeout)

/-- The calls of a thread. -/
def machine (memory : ℕ → Buffer) : Machine State (Input μ) where
  init := init C memory
  step := run C W

/-- The messages that were taken for a destination. -/
def enqueued (inputs : List (Input μ)) (dest : ℕ) : List μ :=
  inputs.filterMap fun i => i.msg.bind fun (m, d) => if d = dest then some m else none

/-! ## The receiver -/

/-- `create_message` at a pointer. -/
def createMessage : Reader ω :=
  fun buf p => (W.create (buf.shift p)).map fun (x, size) => (x, p + size)

/-- The loop of `create_messages`, at the node `nodeId`: the messages, with their
`return_node_id`. -/
def createMessages (nodeId : ℕ) : Reader (List (ω × ℕ)) := do
  let destId ← copyVal Field.u32
  let returnId ← copyVal Field.u32
  let txnCnt ← copyVal Field.u32
  Reader.check (destId.toNat = nodeId)
  Reader.check (returnId.toNat ≠ nodeId ∧ returnId.toNat < C.totalNodeCnt)
  let msgs ← Reader.times (createMessage W) txnCnt.toNat
  pure (msgs.map fun x => (x, returnId.toNat))

/-- What is created from a batch. -/
def received (nodeId : ℕ) (batch : List UInt8) : Option (List (ω × ℕ)) :=
  (createMessages C W nodeId (Buffer.write (fun _ => 0) 0 batch) 0).map Prod.fst

/-- The count in the header of a batch. -/
def batchCount (batch : List UInt8) : ℕ := ofBytes ((batch.drop 8).take 4)

/-- What the loop creates from what is still in a buffer. -/
def buffered (b : Mbuf) : Option (List ω) :=
  (Reader.times (createMessage W) b.cnt b.buffer 12).map Prod.fst

/-! ## What is in a buffer -/

/-- A batch of messages. -/
def batch (dest : ℕ) (ms : List μ) : List UInt8 :=
  headerWord dest ++ (headerWord C.nodeId ++ (headerWord ms.length ++ ms.flatMap W.encode))

/-- A buffer with these messages in it. -/
structure Fill (dest : ℕ) (ms : List μ) (b : Mbuf) : Prop where
  dest : b.buffer.Holds 0 (headerWord dest)
  node : b.buffer.Holds 4 (headerWord C.nodeId)
  msgs : b.buffer.Holds 12 (ms.flatMap W.encode)
  ptr : b.ptr = 12 + (ms.flatMap W.encode).length
  ptr_le : b.ptr ≤ C.msgSize
  cnt : b.cnt = ms.length

/-- The messages for a destination are in the batches sent to it and in its buffer. -/
def Carries (dest : ℕ) (ms : List μ) (s : State) : Prop :=
  ∃ (groups : List (List μ)) (rest : List μ), groups.flatten ++ rest = ms ∧
    s.sent dest = groups.map (batch C W dest) ∧ (∀ g ∈ groups, g.length < 2 ^ 32) ∧
    Fill C W dest rest (s.buffer dest)

variable {C W} {dest : ℕ} {ms : List μ} {b : Mbuf} {s s' : State}

theorem length_le_flatMap (ms : List μ) : ms.length ≤ (ms.flatMap W.encode).length := by
  induction ms with
  | nil => exact Nat.le_refl 0
  | cons m ms ih =>
    have hpos := W.getSize_pos m
    rw [flatMap_cons, length_append, length_cons, W.length_encode]
    omega

/-- A buffer has not more messages than the header can count. -/
theorem Fill.length_lt (h : Fill C W dest ms b) : ms.length < 2 ^ 32 := by
  have hle := length_le_flatMap (W := W) ms
  have hptr := h.ptr
  have hmax := h.ptr_le
  have hsize := C.msgSize_bounds.2
  omega

theorem Fill.reset (C : Config) (W : Wire μ ω) (dest : ℕ) (b : Mbuf) :
    Fill C W dest [] (b.reset C dest) where
  dest := (Buffer.holds_write _ _ _).write_of_le (by simp)
  node := Buffer.holds_write _ _ _
  msgs := Buffer.holds_nil _ _
  ptr := rfl
  ptr_le := C.msgSize_bounds.1
  cnt := rfl

/-- One more message. -/
theorem Fill.push (h : Fill C W dest ms b) {m : μ} (hfits : b.ptr + W.getSize m ≤ C.msgSize) :
    Fill C W dest (ms ++ [m])
      ⟨b.buffer.write b.ptr (W.encode m), b.ptr + W.getSize m, b.cnt + 1⟩ := by
  have hptr := h.ptr
  have hencode : (ms ++ [m]).flatMap W.encode = ms.flatMap W.encode ++ W.encode m := by simp
  refine ⟨h.dest.write_of_le ?_, h.node.write_of_le ?_, ?_, ?_, hfits, ?_⟩
  · rw [length_headerWord]
    omega
  · rw [length_headerWord]
    omega
  · rw [hencode]
    refine Buffer.holds_append.mpr ⟨h.msgs.write_of_le hptr.ge, ?_⟩
    rw [← hptr]
    exact Buffer.holds_write _ _ _
  · rw [hencode, length_append, W.length_encode, ← Nat.add_assoc, ← hptr]
  · rw [length_append, ← h.cnt]
    rfl

/-- What is sent of a buffer is the batch of its messages. -/
theorem Fill.read_eq (h : Fill C W dest ms b) :
    (b.buffer.write 8 (headerWord b.cnt)).read 0 b.ptr = batch C W dest ms := by
  have hholds : (b.buffer.write 8 (headerWord b.cnt)).Holds 0 (batch C W dest ms) := by
    refine Buffer.holds_append.mpr ⟨h.dest.write_of_le (by simp), ?_⟩
    refine Buffer.holds_append.mpr ⟨h.node.write_of_le (by simp), ?_⟩
    refine Buffer.holds_append.mpr ⟨?_, h.msgs.write_of_ge (by simp)⟩
    rw [← h.cnt]
    exact Buffer.holds_write _ _ _
  have hlength : (batch C W dest ms).length = b.ptr := by
    rw [h.ptr]
    simp only [batch, length_append, length_headerWord]
    omega
  rw [← hlength]
  exact hholds.read_eq

theorem Carries.init (C : Config) (W : Wire μ ω) (memory : ℕ → Buffer) (dest : ℕ) :
    Carries C W dest [] (init C memory) :=
  ⟨[], [], rfl, rfl, nofun, Fill.reset ..⟩

/-- What happens at another destination does not matter. -/
theorem Carries.of_eq (h : Carries C W dest ms s) (hbuffer : s'.buffer dest = s.buffer dest)
    (hsent : s'.sent dest = s.sent dest) : Carries C W dest ms s' := by
  rwa [Carries, hbuffer, hsent]

variable {enq : ℕ → List μ}

/-- Sending a batch: no message is lost, and the buffer is empty again. -/
theorem sendBatch_spec (h : ∀ d, Carries C W d (enq d) s) (hcnt : 0 < (s.buffer dest).cnt) :
    ∃ s', sendBatch C dest s = some s' ∧ (∀ d, Carries C W d (enq d) s') ∧
      (s'.buffer dest).ptr = 12 := by
  refine ⟨_, if_pos hcnt, fun d => ?_, ?_⟩
  · rcases eq_or_ne d dest with rfl | hne
    · obtain ⟨groups, rest, henq, hsent, hlt, hfill⟩ := h d
      refine ⟨groups ++ [rest], [], ?_, ?_, ?_, ?_⟩
      · rw [flatten_append, flatten_singleton, append_nil, henq]
      · simp only [update_self]
        rw [hsent, hfill.read_eq, map_append]
        rfl
      · intro g hg
        rcases mem_append.mp hg with hg | hg
        · exact hlt g hg
        · rw [mem_singleton.mp hg]
          exact hfill.length_lt
      · simp only [update_self]
        exact Fill.reset ..
    · exact (h d).of_eq (update_of_ne hne ..) (update_of_ne hne ..)
  · simp only [update_self]
    rfl

theorem foldlM_checkAndSend (timeout : ℕ → Bool) (dests : List ℕ)
    (h : ∀ d, Carries C W d (enq d) s) : ∃ s', dests.foldlM (fun s dest =>
        if (s.buffer dest).ready (timeout dest) then sendBatch C dest s else some s) s = some s' ∧
      ∀ d, Carries C W d (enq d) s' := by
  induction dests generalizing s with
  | nil => exact ⟨s, rfl, h⟩
  | cons dest dests ih =>
    rw [foldlM_cons]
    by_cases hready : (s.buffer dest).ready (timeout dest) = true
    · rw [if_pos hready]
      have hcnt : 0 < (s.buffer dest).cnt := by
        simp only [Mbuf.ready, ne_eq, decide_not, Bool.and_eq_true, Bool.not_eq_true',
          decide_eq_false_iff_not] at hready
        omega
      obtain ⟨s', hs', h', -⟩ := sendBatch_spec h hcnt
      rw [hs']
      exact ih h'
    · rw [if_neg hready]
      exact ih h

theorem checkAndSendBatches_spec (timeout : ℕ → Bool) (h : ∀ d, Carries C W d (enq d) s) :
    ∃ s', checkAndSendBatches C timeout s = some s' ∧ ∀ d, Carries C W d (enq d) s' :=
  foldlM_checkAndSend timeout _ h

theorem copyToBuf_spec {m : μ} (h : ∀ d, Carries C W d (enq d) s)
    (hfits : (s.buffer dest).ptr + W.getSize m ≤ C.msgSize) :
    ∃ s', copyToBuf C W m dest s = some s' ∧
      ∀ d, Carries C W d (enq d ++ if dest = d then [m] else []) s' := by
  refine ⟨_, if_pos hfits, fun d => ?_⟩
  rcases eq_or_ne d dest with rfl | hne
  · obtain ⟨groups, rest, henq, hsent, hlt, hfill⟩ := h d
    refine ⟨groups, rest ++ [m], ?_, hsent, hlt, ?_⟩
    · rw [if_pos rfl, ← henq, append_assoc]
    · simp only [update_self]
      exact hfill.push hfits
  · rw [if_neg hne.symm, append_nil]
    exact (h d).of_eq (update_of_ne hne ..) rfl

/-- **A call of `run`** finds its assertions true, and puts the message that it takes behind the
others. -/
theorem run_spec {i : Input μ} (h : ∀ d, Carries C W d (enq d) s)
    (hok : ∀ m d, i.msg = some (m, d) → W.getSize m + 12 ≤ C.msgSize ∧ d < C.totalNodeCnt ∧
      d ≠ C.nodeId) :
    ∃ s', run C W s i = some s' ∧ ∀ d, Carries C W d (enq d ++ enqueued [i] d) s' := by
  obtain ⟨msg, timeout⟩ := i
  cases msg with
  | none =>
    obtain ⟨s', hs', h'⟩ := checkAndSendBatches_spec timeout h
    refine ⟨s', hs', fun d => ?_⟩
    rw [show enqueued [⟨none, timeout⟩] d = ([] : List μ) from rfl, append_nil]
    exact h' d
  | some md =>
    obtain ⟨m, dest⟩ := md
    obtain ⟨hsize, hlt, hne⟩ := hok m dest rfl
    -- after the first part the message fits
    obtain ⟨s₁, hs₁, h₁, hfits⟩ : ∃ s₁,
        (if (s.buffer dest).fits C (W.getSize m) then some s else sendBatch C dest s) = some s₁ ∧
          (∀ d, Carries C W d (enq d) s₁) ∧ (s₁.buffer dest).ptr + W.getSize m ≤ C.msgSize := by
      by_cases hfits : (s.buffer dest).fits C (W.getSize m) = true
      · exact ⟨s, if_pos hfits, h, of_decide_eq_true hfits⟩
      · rw [if_neg hfits]
        have hcnt : 0 < (s.buffer dest).cnt := by
          obtain ⟨groups, rest, -, -, -, hfill⟩ := h dest
          rw [hfill.cnt, length_pos_iff]
          rintro rfl
          refine hfits (decide_eq_true ?_)
          rw [hfill.ptr, flatMap_nil, length_nil]
          omega
        obtain ⟨s₁, hs₁, h₁, hptr⟩ := sendBatch_spec h hcnt
        exact ⟨s₁, hs₁, h₁, by omega⟩
    obtain ⟨s₂, hs₂, h₂⟩ := copyToBuf_spec h₁ hfits
    obtain ⟨s₃, hs₃, h₃⟩ := checkAndSendBatches_spec timeout h₂
    refine ⟨s₃, ?_, fun d => ?_⟩
    · have hdest : ¬ (C.totalNodeCnt ≤ dest ∨ dest = C.nodeId) := by
        rintro (hge | heq)
        · exact absurd hlt (Nat.not_lt.mpr hge)
        · exact hne heq
      simp only [run, if_neg hdest, hs₁, Option.bind_some, hs₂, hs₃]
    · have henq : enqueued [⟨some (m, dest), timeout⟩] d = if dest = d then [m] else [] := by
        by_cases hd : dest = d <;> simp [enqueued, hd]
      rw [henq]
      exact h₃ d

theorem enqueued_cons (i : Input μ) (inputs : List (Input μ)) (dest : ℕ) :
    enqueued (i :: inputs) dest = enqueued [i] dest ++ enqueued inputs dest := by
  rw [enqueued, ← singleton_append, filterMap_append]
  rfl

/-- All calls. -/
theorem runFrom_spec (memory : ℕ → Buffer) {inputs : List (Input μ)}
    (h : ∀ d, Carries C W d (enq d) s)
    (hok : ∀ i ∈ inputs, ∀ m d, i.msg = some (m, d) → W.getSize m + 12 ≤ C.msgSize ∧
      d < C.totalNodeCnt ∧ d ≠ C.nodeId) :
    ∃ s', (machine C W memory).runFrom s inputs = some s' ∧
      ∀ d, Carries C W d (enq d ++ enqueued inputs d) s' := by
  induction inputs generalizing s enq with
  | nil =>
    refine ⟨s, rfl, fun d => ?_⟩
    rw [show enqueued ([] : List (Input μ)) d = [] from rfl, append_nil]
    exact h d
  | cons i inputs ih =>
    obtain ⟨s₁, hs₁, h₁⟩ := run_spec h (hok i mem_cons_self)
    obtain ⟨s', hs', h'⟩ := ih h₁ fun j hj => hok j (mem_cons_of_mem _ hj)
    refine ⟨s', Machine.runFrom_cons.mpr ⟨s₁, hs₁, hs'⟩, fun d => ?_⟩
    rw [enqueued_cons, ← append_assoc]
    exact h' d

/-! ## What the receiver makes of it -/

theorem reads_createMessage (W : Wire μ ω) (m : μ) :
    Reads (createMessage W) (W.encode m) (W.content m) := by
  intro buf p h
  have hshift : (buf.shift p).Holds 0 (W.encode m) := Buffer.holds_shift.mpr h
  rw [createMessage, W.create_eq hshift, W.length_encode]
  rfl

theorem toNat_headerWord {n : ℕ} (h : n < 2 ^ 32) : (UInt32.ofNat n).toNat = n :=
  UInt32.toNat_ofNat_of_lt' h

/-- A batch that comes to its destination is taken apart into its messages. -/
theorem reads_createMessages (hdest : dest < C.totalNodeCnt) (hne : dest ≠ C.nodeId)
    (hlength : ms.length < 2 ^ 32) :
    Reads (createMessages C W dest) (batch C W dest ms)
      (ms.map fun m => (W.content m, C.nodeId)) := by
  have hnode : (UInt32.ofNat C.nodeId).toNat = C.nodeId :=
    toNat_headerWord (C.nodeId_lt.trans C.totalNodeCnt_lt)
  have hmsgs : Reads (Reader.times (createMessage W) (UInt32.ofNat ms.length).toNat)
      (ms.flatMap W.encode) (ms.map W.content) := by
    rw [toNat_headerWord hlength]
    exact Reads.times fun m _ => reads_createMessage W m
  refine (Reads.copyVal Field.u32 _).bind ((Reads.copyVal Field.u32 _).bind
    ((Reads.copyVal Field.u32 _).bind ?_))
  refine (Reads.check (toNat_headerWord (hdest.trans C.totalNodeCnt_lt))).bind ?_
  refine (Reads.check ?_).bind ?_
  · rw [hnode]
    exact ⟨hne.symm, C.nodeId_lt⟩
  · have hpure : Reads (pure (ms.map W.content |>.map fun x => (x, (UInt32.ofNat C.nodeId).toNat)))
        [] (ms.map fun m => (W.content m, C.nodeId)) := by
      rw [hnode, List.map_map]
      exact Reads.pure _
    have := hmsgs.bind
      (f := fun msgs => pure (msgs.map fun x => (x, (UInt32.ofNat C.nodeId).toNat))) hpure
    rwa [append_nil] at this

theorem received_batch (hdest : dest < C.totalNodeCnt) (hne : dest ≠ C.nodeId)
    (hlength : ms.length < 2 ^ 32) :
    received C W dest (batch C W dest ms) = some (ms.map fun m => (W.content m, C.nodeId)) := by
  rw [received, reads_createMessages hdest hne hlength _ 0 (Buffer.holds_write _ _ _)]
  rfl

theorem batchCount_batch (dest : ℕ) (hlength : ms.length < 2 ^ 32) :
    batchCount (batch C W dest ms) = ms.length := by
  have hbytes : ((batch C W dest ms).drop 8).take 4 = headerWord ms.length := by
    rw [batch, ← append_assoc, drop_left' (by simp), take_left' (by simp)]
  rw [batchCount, hbytes]
  exact (ofBytes_toBytes 4 _).trans
    (by rw [toNat_headerWord hlength]; exact Nat.mod_eq_of_lt hlength)

theorem Fill.buffered_eq (h : Fill C W dest ms b) : buffered W b = some (ms.map W.content) := by
  rw [buffered, h.cnt, Reads.times (fun m _ => reads_createMessage W m) _ 12 h.msgs]
  rfl

/-- **Every destination gets its messages.** Whatever the clock says, no assertion fails and no
buffer runs over. The batches sent to a destination, each with the number of its messages in the
header, and what is still in its buffer are taken apart into the messages that were taken for it. -/
theorem streams_preserved (C : Config) (W : Wire μ ω) (memory : ℕ → Buffer)
    (inputs : List (Input μ))
    (hok : ∀ i ∈ inputs, ∀ m d, i.msg = some (m, d) → W.getSize m + 12 ≤ C.msgSize ∧
      d < C.totalNodeCnt ∧ d ≠ C.nodeId) :
    ∃ s, (machine C W memory).run inputs = some s ∧
      ∀ dest < C.totalNodeCnt, dest ≠ C.nodeId → (s.buffer dest).ptr ≤ C.msgSize ∧
        ∃ (groups : List (List μ)) (rest : List μ), groups.flatten ++ rest = enqueued inputs dest ∧
          (s.sent dest).map (received C W dest) =
            groups.map (fun g => some (g.map fun m => (W.content m, C.nodeId))) ∧
          (s.sent dest).map batchCount = groups.map List.length ∧
          buffered W (s.buffer dest) = some (rest.map W.content) := by
  obtain ⟨s, hs, h⟩ := runFrom_spec memory (Carries.init C W memory) hok
  refine ⟨s, hs, fun dest hdest hne => ?_⟩
  obtain ⟨groups, rest, henq, hsent, hlt, hfill⟩ := h dest
  refine ⟨hfill.ptr_le, groups, rest, henq, ?_, ?_, hfill.buffered_eq⟩
  · rw [hsent, List.map_map]
    exact map_congr_left fun g hg => received_batch hdest hne (hlt g hg)
  · rw [hsent, List.map_map]
    exact map_congr_left fun g hg => batchCount_batch dest (hlt g hg)

end Thread

/-- Words of eight bytes as messages. -/
def words : Wire UInt64 UInt64 where
  getSize _ := 8
  encode := Field.u64.toBytes
  create buf := copyVal Field.u64 buf 0
  content := id
  length_encode := Field.u64.length_toBytes
  getSize_pos _ := by decide
  create_eq {buf m} h := Reads.copyVal Field.u64 m buf 0 h

/-- Two nodes whose batches have room for two words. -/
def twoWords : Config := ⟨0, 2, 28, false, by decide, by decide, by decide⟩

/-- Three words for node 1, with time left. -/
def threeInputs : List (Input UInt64) := [7, 8, 9].map fun x => ⟨some (x, 1), fun _ => false⟩

/-- The words come to node 1, or are in the buffer for it. -/
theorem streams_preserved_three :
    ∃ s, (machine twoWords words fun _ _ => 0).run threeInputs = some s ∧
      ∃ (groups : List (List UInt64)) (rest : List UInt64), groups.flatten ++ rest = [7, 8, 9] ∧
        (s.sent 1).map (received twoWords words 1) = groups.map
      (fun g => some (g.map fun m => (m, 0))) ∧
        buffered words (s.buffer 1) = some rest := by
  obtain ⟨s, hs, h⟩ := streams_preserved twoWords words (fun _ _ => 0) threeInputs (by
    intro i hi m d hmsg
    obtain ⟨x, -, rfl⟩ := List.mem_map.mp hi
    cases hmsg
    exact ⟨(by decide : 8 + 12 ≤ 28), by decide, by decide⟩)
  obtain ⟨-, groups, rest, henq, hsent, -, hrest⟩ := h 1 (by decide) (by decide)
  rw [show words.content = id from rfl, List.map_id] at hrest
  exact ⟨s, hs, groups, rest, henq, hsent, hrest⟩

example :
    ((machine twoWords words fun _ _ => 0).run threeInputs).map
      (fun s => (s.sent 1).map batchCount) = some [2] := by
  decide +kernel

end Batching

end Deneva
