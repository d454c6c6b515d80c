import Deneva.Sequencer

/-!
# All schedulers follow one order

What the schedulers return, compared with one global order: by epoch, then by the node of the
sequencer, then by the position in that sequencer's batch.

For a fixed receiver `j` a sequencer is a sender in the sense of `EpochMerge`: its batches are the
transactions of each epoch that `j` takes part in (`batchTo`), it has closed the epochs for which
`RDONE` was sent to `j` (`closedTo`), and everything it still owes to `j` is spread over the
scheduler queue, the network and the fill queue (`inFlight`). `Follows` says that the scheduler of
`j` merges these streams. Steps of a sequencer continue its stream (`Continues`), deliveries do not
change what is in flight, and a call of `sched_dequeue` is a step of the merge.
-/

namespace Deneva

universe u

open Function List Option

namespace Calvin

variable {Q : Type u} {C : Config Q}

/-! ## One sequencer -/

namespace Sequencer

variable {s s' : Sequencer Q} {i j : ℕ}

/-- The last epoch that transactions may have been numbered for. -/
def lastEpoch (s : Sequencer Q) : ℕ :=
  match s.sending with
  | none => s.seqEpoch + 1
  | some _ => s.seqEpoch

theorem fill_apply (t : SeqTxn Q) {ps : List ℕ} (hnd : ps.Nodup) (queue : ℕ → List (SeqTxn Q))
    (j : ℕ) : fill t ps queue j = queue j ++ if j ∈ ps then [t] else [] := by
  induction ps generalizing queue with
  | nil => simp [fill]
  | cons p ps ih =>
    obtain ⟨hp, hps⟩ := nodup_cons.mp hnd
    have hfold : fill t (p :: ps) queue = fill t ps (Function.update queue p (queue p ++ [t])) :=
      rfl
    rw [hfold, ih hps]
    rcases eq_or_ne j p with rfl | hne
    · rw [update_self, if_neg hp, if_pos mem_cons_self, append_nil]
    · rw [update_of_ne hne]
      simp [hne]

/-- The transaction that `process_txn` makes of a query. -/
def next (C : Config Q) (i : ℕ) (q : Q) (s : Sequencer Q) : SeqTxn Q :=
  ⟨s.seqEpoch + 1, txnIdOf i C.nodeCnt s.nextTxnId, i, q, (s.batch (s.seqEpoch + 1)).length⟩

@[simp]
theorem next_batchId (C : Config Q) (i : ℕ) (q : Q) (s : Sequencer Q) :
    (s.next C i q).batchId = s.seqEpoch + 1 := rfl

@[simp]
theorem next_query (C : Config Q) (i : ℕ) (q : Q) (s : Sequencer Q) : (s.next C i q).query = q :=
  rfl

theorem processTxn_eq {client : ℕ} {q : Q} (h : processTxn C i client q s = some s') :
    ∃ wl, s' = { s with
      nextTxnId := (s.nextTxnId + 1) % 2 ^ 32
      waitLists := wl
      fillQueue := fill (s.next C i q) (C.participants q).toList s.fillQueue
      sequenced := s.sequenced ++ [s.next C i q] } := by
  unfold processTxn at h
  dsimp only at h
  split at h
  · exact ⟨s'.waitLists, by obtain rfl := some.inj h; rfl⟩
  · cases h

/-- What holds of the sequencer of node `i` between any two steps of its thread. -/
structure Inv (C : Config Q) (i : ℕ) (s : Sequencer Q) : Prop where
  /-- transactions carry the node and an epoch that has begun -/
  numbered : ∀ t ∈ s.sequenced, t.returnNodeId = i ∧ 1 ≤ t.batchId ∧ t.batchId ≤ s.lastEpoch
  /-- the positions in a batch -/
  positions : ∀ e, (s.batch e).map SeqTxn.position = List.range (s.batch e).length
  /-- inside `send_next_batch`, the loop is at a node and the epoch was advanced -/
  busy : ∀ k, s.sending = some k → k < C.nodeCnt ∧ 1 ≤ s.seqEpoch

theorem inv_init (C : Config Q) (i : ℕ) : Inv C i (init : Sequencer Q) :=
  ⟨nofun, fun _ => rfl, nofun⟩

/-- A transaction joins the batch that is open, and no other. -/
theorem batch_append (s : Sequencer Q) (t : SeqTxn Q) (e : ℕ) :
    (s.sequenced ++ [t]).filter (fun t => t.batchId = e) =
      s.batch e ++ if t.batchId = e then [t] else [] := by
  rw [filter_append]
  congr 1
  by_cases he : t.batchId = e <;> simp [he]

variable {m : SchedMsg Q}

/-- The two things that `send_next_batch` may do next. -/
theorem sendNext_cases {k : ℕ} (h : sendNext C i s = some (s', k, m)) :
    s.sending = some k ∧
      ((∃ t ts, s.fillQueue k = t :: ts ∧ m = .CL_QRY t ∧
          s' = { s with fillQueue := Function.update s.fillQueue k ts }) ∨
        (s.fillQueue k = [] ∧ m = .RDONE s.seqEpoch i ∧
          s' = if k + 1 < C.nodeCnt then { s with sending := some (k + 1) }
            else { s with sending := none, nextTxnId := 0 })) := by
  obtain ⟨k', hk', h⟩ := map_eq_some_iff.mp h
  cases hf : s.fillQueue k' with
  | nil =>
    rw [hf] at h
    obtain ⟨rfl, rfl, rfl⟩ := h
    exact ⟨hk', .inr ⟨hf, rfl, rfl⟩⟩
  | cons t ts =>
    rw [hf] at h
    obtain ⟨rfl, rfl, rfl⟩ := h
    exact ⟨hk', .inl ⟨t, ts, hf, rfl, rfl⟩⟩

section

variable (h : Inv C i s)

include h

theorem Inv.processTxn {client : ℕ} {q : Q} (hidle : s.sending = none)
    (hs : processTxn C i client q s = some s') : Inv C i s' := by
  obtain ⟨wl, rfl⟩ := processTxn_eq hs
  have hlast : s.lastEpoch = s.seqEpoch + 1 := by simp [lastEpoch, hidle]
  refine ⟨fun t ht => ?_, fun e => ?_, h.busy⟩
  · rcases mem_append.mp ht with ht | ht
    · exact h.numbered t ht
    · obtain rfl := mem_singleton.mp ht
      exact ⟨rfl, Nat.le_add_left _ _, hlast.ge⟩
  · show List.map _ (List.filter _ _) = List.range (List.length (List.filter _ _))
    rw [batch_append]
    split_ifs with he
    · subst he
      rw [map_append, h.positions, length_append, length_singleton, range_succ]
      rfl
    · rw [append_nil]
      exact h.positions e

theorem Inv.processAck {batchId txnId : ℕ} (hs : processAck C batchId txnId s = some s') :
    Inv C i s' := by
  obtain ⟨wl, -, rfl⟩ := map_eq_some_iff.mp hs
  exact ⟨h.numbered, h.positions, h.busy⟩

theorem Inv.advanceSeqEpoch (hi : i < C.nodeCnt) (hidle : s.sending = none) :
    Inv C i s.advanceSeqEpoch := by
  have hlast : s.lastEpoch = s.seqEpoch + 1 := by simp [lastEpoch, hidle]
  have hnum := h.numbered
  rw [hlast] at hnum
  refine ⟨hnum, h.positions, fun k hk => ?_⟩
  cases hk
  exact ⟨by omega, Nat.le_add_left _ _⟩

theorem Inv.sendNext {k : ℕ} (hs : sendNext C i s = some (s', k, m)) : Inv C i s' := by
  obtain ⟨hk, ⟨t, ts, -, -, rfl⟩ | ⟨-, -, rfl⟩⟩ := sendNext_cases hs
  · exact ⟨h.numbered, h.positions, h.busy⟩
  · have hlast : s.lastEpoch = s.seqEpoch := by simp [lastEpoch, hk]
    have hnum := h.numbered
    rw [hlast] at hnum
    split_ifs with hlt
    · refine ⟨hnum, h.positions, fun k' hk' => ?_⟩
      cases hk'
      exact ⟨hlt, (h.busy k hk).2⟩
    · refine ⟨fun t ht => ?_, h.positions, nofun⟩
      obtain ⟨hret, hpos, hle⟩ := hnum t ht
      exact ⟨hret, hpos, hle.trans (Nat.le_succ _)⟩

end

/-! ## A sequencer as a sender -/

/-- The transactions of the `e`-th batch, counted from zero, that node `j` takes part in. -/
def batchTo (C : Config Q) (s : Sequencer Q) (j e : ℕ) : List (SeqTxn Q) :=
  (s.batch (e + 1)).filter fun t => j ∈ C.participants t.query

/-- The number of batches for which `RDONE` was sent to node `j`. -/
def closedTo (s : Sequencer Q) (j : ℕ) : ℕ :=
  match s.sending with
  | none => s.seqEpoch
  | some k => if j < k then s.seqEpoch else s.seqEpoch - 1

/-- What is in the fill queue for node `j`, as messages. -/
def unsent (s : Sequencer Q) (j : ℕ) : List (SchedMsg Q) := (s.fillQueue j).map .CL_QRY

end Sequencer

/-- How the sequencer of node `i` marks its transactions and the ends of its batches. -/
def framing (Q : Type u) (i : ℕ) : Framing (SeqTxn Q) (SchedMsg Q) where
  item := .CL_QRY
  mark e := .RDONE (e + 1) i
  item_injective _ _ h := by cases h; rfl
  item_ne_mark _ _ h := by cases h

namespace Sequencer

variable {s s' : Sequencer Q} {i j : ℕ}

/-- The sequencer of node `i` goes from `s` to `s'` while it sends `ms` to node `j`: whatever was in
flight before what is unsent is continued. -/
structure Continues (C : Config Q) (i j : ℕ) (s s' : Sequencer Q) (ms : List (SchedMsg Q)) :
    Prop where
  /-- batches only grow, and not once they are closed -/
  grows : ∀ e, s.batchTo C j e <+: s'.batchTo C j e ∧
    (e < s.closedTo j → s'.batchTo C j e = s.batchTo C j e)
  /-- the stream goes on -/
  sends : ∀ start log, Sends (framing Q i) (s.batchTo C j) (s.closedTo j) start
    (log ++ s.unsent j) →
    Sends (framing Q i) (s'.batchTo C j) (s'.closedTo j) start (log ++ ms ++ s'.unsent j)

/-- Nothing that concerns node `j` changes. -/
theorem Continues.of_eq (hseq : s'.sequenced = s.sequenced) (hclosed : s'.closedTo j = s.closedTo j)
    (hfill : s'.fillQueue j = s.fillQueue j) : Continues C i j s s' [] := by
  have hbatch : s'.batchTo C j = s.batchTo C j := by
    funext e
    rw [batchTo, batchTo, batch, batch, hseq]
  refine ⟨fun e => by rw [hbatch]; exact ⟨prefix_rfl, fun _ => rfl⟩, fun start log h => ?_⟩
  rw [hbatch, hclosed, append_nil, unsent, hfill]
  exact h

/-- A new transaction continues the stream towards each of its participants, in the open epoch. -/
theorem Continues.processTxn {client : ℕ} {q : Q} (hidle : s.sending = none)
    (hs : processTxn C i client q s = some s') (j : ℕ) : Continues C i j s s' [] := by
  obtain ⟨wl, rfl⟩ := processTxn_eq hs
  set s' : Sequencer Q := { s with
      nextTxnId := (s.nextTxnId + 1) % 2 ^ 32
      waitLists := wl
      fillQueue := fill (s.next C i q) (C.participants q).toList s.fillQueue
      sequenced := s.sequenced ++ [s.next C i q] } with hs'
  have hclosed : s'.closedTo j = s.closedTo j := rfl
  have hopen : s.closedTo j = s.seqEpoch := by simp [closedTo, hidle]
  have hnd : (C.participants q).toList.Nodup := (C.participants q).ascending.imp fun h => ne_of_lt h
  -- the transaction joins the open batch of each participant
  have hbatch : ∀ e, s'.batchTo C j e =
      s.batchTo C j e ++ if e = s.seqEpoch ∧ j ∈ C.participants q then [s.next C i q] else [] := by
    intro e
    show List.filter _ (List.filter (fun t : SeqTxn Q => t.batchId = e + 1) _) = _
    rw [batch_append, filter_append, batchTo]
    congr 1
    rw [next_batchId]
    by_cases he : e = s.seqEpoch
    · by_cases hj : j ∈ C.participants q <;> simp [he, hj]
    · simp [he, Ne.symm he]
  have hunsent : s'.unsent j =
      s.unsent j ++ if j ∈ C.participants q then [.CL_QRY (s.next C i q)] else [] := by
    show (fill _ _ _ j).map _ = _
    rw [fill_apply _ hnd, map_append, unsent]
    congr 1
    simp only [OrderedSet.mem_toList]
    split_ifs <;> rfl
  refine ⟨fun e => ?_, fun start log h => ?_⟩
  · rw [hbatch e, hopen]
    refine ⟨prefix_append _ _, fun he => ?_⟩
    rw [if_neg (fun h => he.ne h.1), append_nil]
  · rw [hclosed, hunsent, append_nil]
    split_ifs with hj
    · rw [← append_assoc]
      refine h.push (fun e he => ?_) ?_
      · rw [hbatch e, if_neg (fun h => he (h.1.trans hopen.symm)), append_nil]
      · rw [hbatch, if_pos ⟨hopen, hj⟩]
    · have hsame : s'.batchTo C j = s.batchTo C j := by
        funext e
        rw [hbatch e, if_neg (fun h => hj h.2), append_nil]
      rw [hsame, append_nil]
      exact h

theorem Continues.processAck {batchId txnId : ℕ} (hs : processAck C batchId txnId s = some s')
    (j : ℕ) : Continues C i j s s' [] := by
  obtain ⟨wl, -, rfl⟩ := map_eq_some_iff.mp hs
  exact .of_eq rfl rfl rfl

theorem Continues.advanceSeqEpoch (hidle : s.sending = none) (j : ℕ) :
    Continues C i j s s.advanceSeqEpoch [] := by
  refine .of_eq rfl ?_ rfl
  simp [closedTo, hidle, Sequencer.advanceSeqEpoch]

/-- A message of `send_next_batch` continues the stream of its sequencer: a transaction of the
batch, or the `RDONE` that closes the epoch. -/
theorem Continues.sendNext {k : ℕ} (hinv : Inv C i s) (hs : sendNext C i s = some (s', k, m))
    (hj : j < C.nodeCnt) : Continues C i j s s' (if j = k then [m] else []) := by
  obtain ⟨hk, ⟨t, ts, hfill, rfl, rfl⟩ | ⟨hfill, rfl, hs'⟩⟩ := sendNext_cases hs
  · rcases eq_or_ne j k with rfl | hne
    · -- a transaction leaves the fill queue
      refine ⟨fun e => ⟨prefix_rfl, fun _ => rfl⟩, fun start log h => ?_⟩
      have hrest : unsent { s with fillQueue := Function.update s.fillQueue j ts } j =
          ts.map .CL_QRY := by simp [unsent]
      rw [unsent, hfill] at h
      rw [if_pos rfl, hrest, append_assoc]
      exact h
    · rw [if_neg hne]
      exact .of_eq rfl rfl (update_of_ne hne _ _)
  · obtain ⟨hlt, hpos⟩ := hinv.busy k hk
    have hseq : s'.sequenced = s.sequenced := by rw [hs']; split_ifs <;> rfl
    have hqueue : s'.fillQueue = s.fillQueue := by rw [hs']; split_ifs <;> rfl
    have hbefore : s.closedTo j = if j < k then s.seqEpoch else s.seqEpoch - 1 := by
      rw [closedTo, hk]
    have hafter : s'.closedTo j = if j < k + 1 then s.seqEpoch else s.seqEpoch - 1 := by
      rw [hs']
      split_ifs with hnext hle hle
      · exact if_pos hle
      · exact if_neg hle
      · rfl
      · omega
    rcases eq_or_ne j k with rfl | hne
    · -- the mark closes the batch
      have hbatch : s'.batchTo C j = s.batchTo C j := by
        funext e
        rw [batchTo, batchTo, batch, batch, hseq]
      rw [if_neg (lt_irrefl _)] at hbefore
      rw [if_pos (Nat.lt_succ_self _)] at hafter
      refine ⟨fun e => by rw [hbatch]; exact ⟨prefix_rfl, fun _ => rfl⟩, fun start log h => ?_⟩
      have hclose := h.close
      rw [unsent, hfill, map_nil, append_nil, hbefore, Nat.sub_add_cancel hpos] at hclose
      rw [hbatch, hafter, if_pos rfl, unsent, hqueue, hfill, map_nil, append_nil]
      convert hclose using 3
      show SchedMsg.RDONE _ _ = SchedMsg.RDONE _ _
      rw [Nat.sub_add_cancel hpos]
    · rw [if_neg hne]
      refine .of_eq hseq ?_ (by rw [hqueue])
      rw [hbefore, hafter]
      split_ifs <;> omega

end Sequencer

/-! ## One scheduler -/

/-- Everything that the sequencer of node `i` still owes to the scheduler of node `j`. -/
def State.inFlight (s : State Q) (j i : ℕ) : List (SchedMsg Q) :=
  (s.sched j).schedQueue i ++ s.net i j ++ (s.seq i).unsent j

/-- The scheduler of node `j` merges what the sequencers send: it is before round `p`. -/
structure Follows (C : Config Q) (s : State Q) (j p : ℕ) (cur : List (SeqTxn Q)) : Prop where
  /-- the streams of the sequencers are merged -/
  merging : Merging (framing Q) C.nodeCnt (fun i => (s.seq i).batchTo C j)
    (fun i => (s.seq i).closedTo j) (s.inFlight j) p cur (s.sched j).returned
  /-- `worker_epoch` is the epoch of the round -/
  epoch : (s.sched j).workerEpoch = p / C.nodeCnt + 1
  /-- `sched_ptr` is the sender of the round -/
  ptr : (s.sched j).schedPtr = p % C.nodeCnt

section Follows

variable {s s' : State Q} {i j p : ℕ} {cur : List (SeqTxn Q)}

theorem follows_init (C : Config Q) (j : ℕ) : Follows C (machine C).init j 0 [] where
  merging := by
    apply Merging.init <;> intros <;> rfl
  epoch := by simp [machine, Scheduler.init]
  ptr := by simp [machine, Scheduler.init]

/-- Taking a message off the scheduler queue whose turn it is takes it off what is in flight. -/
theorem Follows.dequeue {x : Scheduler Q} {k p' : ℕ} {rest : List (SchedMsg Q)}
    {cur' : List (SeqTxn Q)} (hx : x.schedQueue = Function.update (s.sched j).schedQueue k rest)
    (hm : Merging (framing Q) C.nodeCnt (fun i => (s.seq i).batchTo C j)
      (fun i => (s.seq i).closedTo j) (Function.update (s.inFlight j) k
      (rest ++ (s.net k j ++ (s.seq k).unsent j))) p' cur' x.returned)
    (hepoch : x.workerEpoch = p' / C.nodeCnt + 1) (hptr : x.schedPtr = p' % C.nodeCnt) :
    Follows C { s with sched := Function.update s.sched j x } j p' cur' := by
  have hflight : State.inFlight { s with sched := Function.update s.sched j x } j =
      Function.update (s.inFlight j) k (rest ++ (s.net k j ++ (s.seq k).unsent j)) := by
    funext i
    simp only [State.inFlight, update_self, hx, append_assoc]
    rcases eq_or_ne i k with rfl | hne
    · rw [update_self, update_self]
    · rw [update_of_ne hne, update_of_ne hne, State.inFlight, append_assoc]
  constructor
  · rw [hflight]
    simpa only [update_self] using hm
  · simpa only [update_self] using hepoch
  · simpa only [update_self] using hptr

section

variable (h : Follows C s j p cur)

include h

/-- A step of the sequencer of node `i` that puts `ms` behind what was under way to `j`. -/
theorem Follows.seqStep {x : Sequencer Q} {ms : List (SchedMsg Q)} (hN : 0 < C.nodeCnt)
    (hx : (s.seq i).Continues C i j x ms) (hseq : s'.seq = Function.update s.seq i x)
    (hreturned : (s'.sched j).returned = (s.sched j).returned)
    (hepoch : (s'.sched j).workerEpoch = (s.sched j).workerEpoch)
    (hptr : (s'.sched j).schedPtr = (s.sched j).schedPtr)
    (hqueue : ∀ k < C.nodeCnt, (s'.sched j).schedQueue k ++ s'.net k j =
      (s.sched j).schedQueue k ++ s.net k j ++ if k = i then ms else []) :
    Follows C s' j p cur where
  merging := by
    rw [hreturned]
    refine h.merging.mono hN (fun k _ e => ?_) (fun k hk start pre hsends => ?_)
    · rw [hseq]
      rcases eq_or_ne k i with rfl | hne
      · rw [update_self]
        exact hx.grows e
      · rw [update_of_ne hne]
        exact ⟨prefix_rfl, fun _ => rfl⟩
    · rw [State.inFlight, ← append_assoc] at hsends
      rw [State.inFlight, hqueue k hk, hseq]
      rcases eq_or_ne k i with rfl | hne
      · rw [update_self, if_pos rfl]
        have hnext := hx.sends start _ hsends
        simpa only [append_assoc] using hnext
      · rw [update_of_ne hne, if_neg hne, append_nil, ← append_assoc]
        exact hsends
  epoch := hepoch.trans h.epoch
  ptr := hptr.trans h.ptr

/-- A message on its way from the network to the scheduler queue stays in flight. -/
theorem Follows.frame (hN : 0 < C.nodeCnt) (hseq : s'.seq = s.seq)
    (hreturned : (s'.sched j).returned = (s.sched j).returned)
    (hepoch : (s'.sched j).workerEpoch = (s.sched j).workerEpoch)
    (hptr : (s'.sched j).schedPtr = (s.sched j).schedPtr)
    (hqueue : ∀ k < C.nodeCnt, (s'.sched j).schedQueue k ++ s'.net k j =
      (s.sched j).schedQueue k ++ s.net k j) : Follows C s' j p cur := by
  have hx : (s.seq 0).Continues C 0 j (s.seq 0) [] := .of_eq rfl rfl rfl
  refine h.seqStep hN hx ?_ hreturned hepoch hptr fun k hk => ?_
  · rw [update_eq_self, hseq]
  · rw [ite_self, append_nil, hqueue k hk]

/-- Messages carry the node of their sequencer. -/
theorem Follows.returnNodeId (hi : i < C.nodeCnt) (hinv : (s.seq i).Inv C i)
    (hm : m ∈ s.inFlight j i) : m.returnNodeId = i := by
  obtain ⟨n, -, hlog⟩ := (h.merging.sends i hi).stream
  have hmem : m ∈ (framing Q i).stream ((s.seq i).batchTo C j) (owed C.nodeCnt p i) n := by
    rw [← hlog]
    exact mem_append_right _ hm
  rcases mem_stream hmem with ⟨e, t, ht, rfl⟩ | ⟨e, rfl⟩
  · exact (hinv.numbered t (mem_of_mem_filter (mem_of_mem_filter ht))).1
  · rfl

/-- **One call of `sched_dequeue`.** No assertion fails, and it is a step of the merge. -/
theorem Follows.schedDequeue (hj : j < C.nodeCnt) :
    ∃ x, (s.sched j).schedDequeue C = some x ∧
      ∃ p' cur', Follows C { s with sched := Function.update s.sched j x.1 } j p' cur' := by
  have hN : 0 < C.nodeCnt := by omega
  unfold Scheduler.schedDequeue
  cases hq : (s.sched j).schedQueue (s.sched j).schedPtr with
  | nil =>
    refine ⟨_, rfl, p, cur, ?_⟩
    rw [update_eq_self]
    exact h
  | cons m rest =>
    rw [h.ptr] at hq
    have hhead : s.inFlight j (p % C.nodeCnt) =
        m :: (rest ++ (s.net (p % C.nodeCnt) j ++ (s.seq (p % C.nodeCnt)).unsent j)) := by
      rw [State.inFlight, hq, append_assoc, cons_append]
    rcases h.merging.pop hN hhead with ⟨t, rfl, ht, hnext⟩ | ⟨rfl, hnext⟩
    · -- a transaction of the batch of the round
      have hepoch : t.batchId = (s.sched j).workerEpoch := by
        rw [h.epoch]
        exact of_decide_eq_true (mem_filter.mp (mem_filter.mp ht).1).2
      refine ⟨_, if_pos hepoch, p, cur ++ [t], ?_⟩
      exact Follows.dequeue (by rw [h.ptr]) hnext h.epoch h.ptr
    · -- the end of the round
      refine ⟨_, if_pos h.epoch.symm, p + 1, [], Follows.dequeue (by rw [h.ptr]) hnext ?_ ?_⟩
      · dsimp only
        rw [h.ptr, h.epoch]
        rcases succ_div_mod hN p with ⟨hr, hd, -⟩ | ⟨hr, hd, -⟩
        · rw [if_pos (by omega), hd]
        · rw [if_neg (by omega), hd]
      · dsimp only
        rw [h.ptr, Nat.mod_add_mod]

end

end Follows

/-! ## All nodes -/

/-- What holds in every state that is reached. -/
structure Inv (C : Config Q) (s : State Q) : Prop where
  /-- of each sequencer -/
  seq : ∀ i, (s.seq i).Inv C i
  /-- no node sends to itself through the network -/
  self : ∀ i, s.net i i = []
  /-- each scheduler merges what is sent to it -/
  follows : ∀ j < C.nodeCnt, ∃ p cur, Follows C s j p cur

theorem inv_init (C : Config Q) : Inv C (machine C).init :=
  ⟨Sequencer.inv_init C, fun _ => rfl, fun j _ => ⟨0, [], follows_init C j⟩⟩

section Step

variable {s s' : State Q} {i j : ℕ}

/-- The sequencer of node `i` works without sending. -/
theorem Inv.setSeq {x : Sequencer Q} (h : Inv C s) (hi : i < C.nodeCnt) (hx : x.Inv C i)
    (hcont : ∀ j, (s.seq i).Continues C i j x []) :
    Inv C { s with seq := Function.update s.seq i x } := by
  refine ⟨fun k => ?_, h.self, fun j hj => ?_⟩
  · dsimp only
    rcases eq_or_ne k i with rfl | hne
    · rwa [update_self]
    · rw [update_of_ne hne]
      exact h.seq k
  · obtain ⟨p, cur, hf⟩ := h.follows j hj
    refine ⟨p, cur, hf.seqStep (by omega) (hcont j) rfl rfl rfl rfl fun k _ => ?_⟩
    rw [ite_self, append_nil]

variable {m : SchedMsg Q}

theorem schedEnqueue_eq {x x' : Scheduler Q} (h : x.schedEnqueue C m = some x') :
    x' = { x with schedQueue :=
      Function.update x.schedQueue m.returnNodeId (x.schedQueue m.returnNodeId ++ [m]) } := by
  unfold Scheduler.schedEnqueue at h
  split at h
  · exact (some.inj h).symm
  · cases h

/-- **What sending does**: the message is the last one under way from `i` to `k`. -/
theorem send_spec {k : ℕ} (hself : ∀ i, s.net i i = []) (hm : m.returnNodeId = i)
    (hs : send C i k m s = some s') :
    s'.seq = s.seq ∧ (∀ i, s'.net i i = []) ∧
      ∀ j, (s'.sched j).returned = (s.sched j).returned ∧
        (s'.sched j).workerEpoch = (s.sched j).workerEpoch ∧
        (s'.sched j).schedPtr = (s.sched j).schedPtr ∧
        ∀ l, (s'.sched j).schedQueue l ++ s'.net l j = (s.sched j).schedQueue l ++ s.net l j ++
          if l = i then if j = k then [m] else [] else [] := by
  unfold send at hs
  split at hs
  next hki =>
    subst hki
    obtain ⟨y, hy, rfl⟩ := map_eq_some_iff.mp hs
    obtain rfl := schedEnqueue_eq hy
    refine ⟨rfl, hself, fun j => ?_⟩
    dsimp only
    rcases eq_or_ne j k with rfl | hne
    · refine ⟨by rw [update_self], by rw [update_self],
        by rw [update_self], fun l => ?_⟩
      rw [update_self]
      dsimp only
      rcases eq_or_ne l j with rfl | hl
      · rw [hm, update_self, if_pos rfl, if_pos rfl, hself, append_nil, append_nil]
      · rw [hm, update_of_ne hl, if_neg hl, append_nil]
    · rw [update_of_ne hne]
      refine ⟨rfl, rfl, rfl, fun l => ?_⟩
      rw [if_neg hne, ite_self, append_nil]
  next hki =>
    cases hs
    refine ⟨rfl, fun l => ?_, fun j => ⟨rfl, rfl, rfl, fun l => ?_⟩⟩ <;> dsimp only <;>
      rcases eq_or_ne l i with rfl | hl
    · rw [update_self, update_of_ne (Ne.symm hki)]
      exact hself l
    · rw [update_of_ne hl]
      exact hself l
    · rw [update_self, if_pos rfl]
      rcases eq_or_ne j k with rfl | hne
      · rw [update_self, if_pos rfl, append_assoc]
      · rw [update_of_ne hne, if_neg hne, append_nil]
    · rw [update_of_ne hl, if_neg hl, append_nil]

theorem Inv.sendNext {x : Sequencer Q} {k : ℕ} (h : Inv C s) (hi : i < C.nodeCnt)
    (hx : (s.seq i).sendNext C i = some (x, k, m))
    (hs : send C i k m { s with seq := Function.update s.seq i x } = some s') : Inv C s' := by
  have hm : m.returnNodeId = i := by
    obtain ⟨hk, ⟨t, ts, hfill, rfl, -⟩ | ⟨-, rfl, -⟩⟩ := Sequencer.sendNext_cases hx
    · obtain ⟨p, cur, hf⟩ := h.follows k ((h.seq i).busy k hk).1
      refine hf.returnNodeId hi (h.seq i) (mem_append_right _ ?_)
      rw [Sequencer.unsent, hfill]
      exact mem_cons_self
    · rfl
  obtain ⟨hseq, hself, hsched⟩ :=
    send_spec (s := { s with seq := Function.update s.seq i x }) h.self hm hs
  refine ⟨fun l => ?_, hself, fun j hj => ?_⟩
  · rw [hseq]
    dsimp only
    rcases eq_or_ne l i with rfl | hne
    · rw [update_self]
      exact (h.seq l).sendNext hx
    · rw [update_of_ne hne]
      exact h.seq l
  · obtain ⟨p, cur, hf⟩ := h.follows j hj
    obtain ⟨hreturned, hepoch, hptr, hqueue⟩ := hsched j
    exact ⟨p, cur, hf.seqStep (by omega) (.sendNext (h.seq i) hx hj) hseq hreturned hepoch hptr
      fun l _ => hqueue l⟩

/-- A delivery moves a message from the network to the scheduler's queue: what is in flight stays.
-/
theorem Inv.deliver {rest : List (SchedMsg Q)} {x : Scheduler Q} (h : Inv C s)
    (hi : i < C.nodeCnt) (hj : j < C.nodeCnt) (hnet : s.net i j = m :: rest)
    (hx : (s.sched j).schedEnqueue C m = some x) :
    Inv C { s with
      sched := Function.update s.sched j x
      net := Function.update s.net i (Function.update (s.net i) j rest) } := by
  have hm : m.returnNodeId = i := by
    obtain ⟨p, cur, hf⟩ := h.follows j hj
    refine hf.returnNodeId hi (h.seq i) (mem_append_left _ (mem_append_right _ ?_))
    rw [hnet]
    exact mem_cons_self
  have hij : j ≠ i := by
    rintro rfl
    cases hnet.symm.trans (h.self j)
  obtain rfl := schedEnqueue_eq hx
  refine ⟨h.seq, fun l => ?_, fun l hl => ?_⟩
  · dsimp only
    rcases eq_or_ne l i with rfl | hne
    · rw [update_self, update_of_ne (Ne.symm hij)]
      exact h.self l
    · rw [update_of_ne hne]
      exact h.self l
  · obtain ⟨p, cur, hf⟩ := h.follows l hl
    refine ⟨p, cur, ?_⟩
    rcases eq_or_ne l j with rfl | hne
    · refine hf.frame (by omega) rfl ?_ ?_ ?_ fun k _ => ?_ <;> dsimp only <;>
        rw [update_self]
      rcases eq_or_ne k i with rfl | hk
      · rw [hm, update_self, update_self, hnet]
        simp
      · rw [hm, update_of_ne hk]
        simp [hk]
    · refine hf.frame (by omega) rfl ?_ ?_ ?_ fun k _ => ?_ <;> dsimp only <;>
        rw [update_of_ne hne]
      rcases eq_or_ne k i with rfl | hk
      · rw [update_self, update_of_ne hne]
      · rw [update_of_ne hk]

theorem Inv.schedDequeue {x : Scheduler Q × Option (SeqTxn Q)} (h : Inv C s) (hj : j < C.nodeCnt)
    (hx : (s.sched j).schedDequeue C = some x) :
    Inv C { s with sched := Function.update s.sched j x.1 } := by
  refine ⟨h.seq, h.self, fun l hl => ?_⟩
  obtain ⟨p, cur, hf⟩ := h.follows l hl
  rcases eq_or_ne l j with rfl | hne
  · obtain ⟨y, hy, hnext⟩ := hf.schedDequeue hl
    obtain rfl := some.inj (hx.symm.trans hy)
    exact hnext
  · refine ⟨p, cur, hf.frame (by omega) rfl ?_ ?_ ?_ fun k _ => ?_⟩ <;> dsimp only <;>
      rw [update_of_ne hne]

/-- **Every step keeps the invariant.** -/
theorem inv_step {a : Action Q} (h : Inv C s) (hs : step C s a = some s') : Inv C s' := by
  cases a with
  | processTxn i client q =>
    obtain ⟨⟨hi, hidle⟩, hs⟩ := ite_none_right_eq_some.mp hs
    obtain ⟨x, hx, rfl⟩ := map_eq_some_iff.mp hs
    exact h.setSeq hi ((h.seq i).processTxn hidle hx) (.processTxn hidle hx)
  | processAck i batchId txnId =>
    obtain ⟨⟨hi, -⟩, hs⟩ := ite_none_right_eq_some.mp hs
    obtain ⟨x, hx, rfl⟩ := map_eq_some_iff.mp hs
    exact h.setSeq hi ((h.seq i).processAck hx) (.processAck hx)
  | advanceSeqEpoch i =>
    obtain ⟨⟨hi, hidle⟩, hs⟩ := ite_none_right_eq_some.mp hs
    cases hs
    exact h.setSeq hi ((h.seq i).advanceSeqEpoch hi hidle) (.advanceSeqEpoch hidle)
  | sendNext i =>
    obtain ⟨hi, hs⟩ := ite_none_right_eq_some.mp hs
    obtain ⟨x, hx, hs⟩ := bind_eq_some_iff.mp hs
    exact h.sendNext hi hx hs
  | deliver i j =>
    obtain ⟨⟨hi, hj⟩, hs⟩ := ite_none_right_eq_some.mp hs
    cases hnet : s.net i j with
    | nil =>
      rw [hnet] at hs
      cases hs
    | cons m rest =>
      rw [hnet] at hs
      obtain ⟨x, hx, rfl⟩ := map_eq_some_iff.mp hs
      exact h.deliver hi hj hnet hx
  | schedDequeue j =>
    obtain ⟨hj, hs⟩ := ite_none_right_eq_some.mp hs
    obtain ⟨x, hx, rfl⟩ := map_eq_some_iff.mp hs
    exact h.schedDequeue hj hx

theorem reachable_inv (hs : (machine C).Reachable s) : Inv C s :=
  hs.invariant (inv_init C) fun _ _ _ h hstep => inv_step h hstep

end Step

/-! ## The order of the schedulers -/

/-- The place of a transaction in the global order: its epoch, the node of its sequencer, its
position in the batch. -/
def key (t : SeqTxn Q) : ℕ ×ₗ ℕ ×ₗ ℕ :=
  toLex (t.batchId, toLex (t.returnNodeId, t.position))

/-- The global order. -/
def Precedes (t t' : SeqTxn Q) : Prop := key t < key t'

instance : Std.Irrefl (Precedes (Q := Q)) := ⟨fun t => lt_irrefl (key t)⟩

instance : Std.Antisymm (Precedes (Q := Q)) := ⟨fun _ _ h h' => absurd h (lt_asymm h')⟩

theorem precedes_iff {t t' : SeqTxn Q} :
    Precedes t t' ↔ t.batchId < t'.batchId ∨ t.batchId = t'.batchId ∧
      (t.returnNodeId < t'.returnNodeId ∨ t.returnNodeId = t'.returnNodeId ∧
        t.position < t'.position) := by
  rw [Precedes, key, key, Prod.Lex.toLex_lt_toLex, Prod.Lex.toLex_lt_toLex]

section Order

variable {s : State Q} {i j p : ℕ} {cur : List (SeqTxn Q)}

variable {t : SeqTxn Q}

/-- What a batch for node `j` consists of. -/
theorem mem_batchTo {x : Sequencer Q} {e : ℕ} :
    t ∈ x.batchTo C j e ↔ t ∈ x.sequenced ∧ t.batchId = e + 1 ∧ j ∈ C.participants t.query := by
  rw [Sequencer.batchTo, Sequencer.batch, mem_filter, mem_filter, decide_eq_true_iff,
    decide_eq_true_iff, and_assoc]

/-- A batch is in the global order. -/
theorem Sequencer.Inv.batchTo_pairwise {x : Sequencer Q} (h : x.Inv C i) (j e : ℕ) :
    (x.batchTo C j e).Pairwise Precedes := by
  have hpos : ((x.batch (e + 1)).map SeqTxn.position).Pairwise (· < ·) := by
    rw [h.positions]
    exact pairwise_lt_range
  have hsub : (x.batchTo C j e).Pairwise fun t t' => t.position < t'.position :=
    (pairwise_map.mp hpos).sublist filter_sublist
  refine hsub.imp_of_mem fun {t t'} ht ht' hlt => ?_
  obtain ⟨hmem, hbatch, -⟩ := mem_batchTo.mp ht
  obtain ⟨hmem', hbatch', -⟩ := mem_batchTo.mp ht'
  have hnode := (h.numbered t hmem).1.trans (h.numbered t' hmem').1.symm
  exact precedes_iff.mpr (.inr ⟨hbatch.trans hbatch'.symm, .inr ⟨hnode, hlt⟩⟩)

/-- The merge of all batches is in the global order. -/
theorem Inv.merged_pairwise (h : Inv C s) (j p : ℕ) :
    (merged (fun i => (s.seq i).batchTo C j) C.nodeCnt p).Pairwise Precedes := by
  refine Deneva.merged_pairwise (fun k => (h.seq _).batchTo_pairwise j _) ?_ p
  intro k k' hlt t ht t' ht'
  obtain ⟨hmem, hbatch, -⟩ := mem_batchTo.mp ht
  obtain ⟨hmem', hbatch', -⟩ := mem_batchTo.mp ht'
  have hnode := ((h.seq _).numbered t hmem).1
  have hnode' := ((h.seq _).numbered t' hmem').1
  rw [precedes_iff, hbatch, hbatch', hnode, hnode']
  -- rounds are ordered by epoch and then by sequencer
  rcases Nat.lt_or_eq_of_le (Nat.div_le_div_right (c := C.nodeCnt) hlt.le) with hdiv | hdiv
  · exact .inl (by omega)
  · have hk := Nat.div_add_mod k C.nodeCnt
    have hk' := Nat.div_add_mod k' C.nodeCnt
    rw [hdiv] at hk
    exact .inr ⟨by omega, .inl (by omega)⟩

theorem Inv.returned_pairwise (h : Inv C s) (hj : j < C.nodeCnt) :
    (s.sched j).returned.Pairwise Precedes := by
  obtain ⟨p, cur, hf⟩ := h.follows j hj
  exact (h.merged_pairwise j (p + 1)).sublist hf.merging.isPrefix.sublist

theorem Inv.of_mem_returned (h : Inv C s) (hj : j < C.nodeCnt) (ht : t ∈ (s.sched j).returned) :
    t.returnNodeId < C.nodeCnt ∧ t ∈ (s.seq t.returnNodeId).sequenced ∧
      j ∈ C.participants t.query := by
  obtain ⟨p, cur, hf⟩ := h.follows j hj
  obtain ⟨k, -, hk⟩ := mem_merged.mp (hf.merging.isPrefix.subset ht)
  obtain ⟨hmem, -, hpart⟩ := mem_batchTo.mp hk
  have hnode : t.returnNodeId = k % C.nodeCnt := ((h.seq _).numbered t hmem).1
  rw [hnode]
  exact ⟨Nat.mod_lt _ (by omega), hmem, hpart⟩

/-- A transaction of a round that the scheduler has finished was returned. -/
theorem Follows.mem_returned (h : Follows C s j p cur) (hinv : (s.seq i).Inv C i)
    (hi : i < C.nodeCnt) (ht : t ∈ (s.seq i).sequenced) (hpart : j ∈ C.participants t.query)
    (hround : t.batchId < p / C.nodeCnt + 1 ∨ t.batchId = p / C.nodeCnt + 1 ∧ i < p % C.nodeCnt) :
    t ∈ (s.sched j).returned := by
  obtain ⟨e, he⟩ : ∃ e, t.batchId = e + 1 := ⟨_, (Nat.sub_add_cancel (hinv.numbered t ht).2.1).symm⟩
  have hN : 0 < C.nodeCnt := by omega
  have hlt : C.nodeCnt * e + i < p := by
    have hp := Nat.div_add_mod p C.nodeCnt
    rcases hround with hlt | ⟨heq, hlt⟩
    · have hmul : C.nodeCnt * (e + 1) ≤ C.nodeCnt * (p / C.nodeCnt) :=
        Nat.mul_le_mul_left _ (by omega)
      rw [Nat.mul_succ] at hmul
      omega
    · obtain rfl : e = p / C.nodeCnt := by omega
      omega
  refine h.merging.mem_of_lt hlt (mem_batchTo.mpr ?_)
  rw [Nat.mul_add_mod, Nat.mod_eq_of_lt hi, Nat.mul_add_div hN, Nat.div_eq_of_lt hi, Nat.add_zero]
  exact ⟨ht, he, hpart⟩

/-- A scheduler with nothing to take has finished the epochs that all sequencers have sent. -/
theorem Follows.sent_le (h : Follows C s j p cur) (hN : 0 < C.nodeCnt) (hnet : ∀ k, s.net k j = [])
    (hqueue : (s.sched j).schedQueue (s.sched j).schedPtr = []) {e : ℕ}
    (hsent : ∀ k < C.nodeCnt, e ≤ (s.seq k).closedTo j) : e ≤ p / C.nodeCnt := by
  refine (hsent _ (Nat.mod_lt p hN)).trans (h.merging.drained hN fun e hmark => ?_)
  rw [h.ptr] at hqueue
  rw [State.inFlight, hqueue, hnet, nil_append, nil_append] at hmark
  obtain ⟨t, -, ht⟩ := List.mem_map.mp hmark
  cases ht

end Order

/-- **Calvin's schedulers follow one order.** -/
structure OneOrder [DecidableEq Q] (C : Config Q) (s : State Q) : Prop where
  /-- the transactions of a sequencer's batch have the positions from `0` on -/
  position : ∀ i < C.nodeCnt, ∀ e,
    ((s.seq i).batch e).map SeqTxn.position = List.range ((s.seq i).batch e).length
  /-- what a node's scheduler returns is sorted by epoch, sequencer node and position; in particular
  nothing is returned twice -/
  sorted : ∀ j < C.nodeCnt, (s.sched j).returned.Pairwise Precedes
  /-- two nodes return what they share in the same order -/
  agree : ∀ j < C.nodeCnt, ∀ j' < C.nodeCnt,
    (s.sched j).returned.filter (· ∈ (s.sched j').returned) =
      (s.sched j').returned.filter (· ∈ (s.sched j).returned)
  /-- what is returned was sequenced, and the node takes part in it -/
  sound : ∀ j < C.nodeCnt, ∀ t ∈ (s.sched j).returned, t.returnNodeId < C.nodeCnt ∧
    t ∈ (s.seq t.returnNodeId).sequenced ∧ j ∈ C.participants t.query
  /-- what was sequenced is not lost on the way to a participant -/
  complete : ∀ i < C.nodeCnt, ∀ j < C.nodeCnt, ∀ t ∈ (s.seq i).sequenced,
    j ∈ C.participants t.query → t ∈ (s.sched j).returned ∨ .CL_QRY t ∈ s.inFlight j i
  /-- a participant has returned it exactly once when its scheduler is past the batch -/
  passed : ∀ i < C.nodeCnt, ∀ j < C.nodeCnt, ∀ t ∈ (s.seq i).sequenced, j ∈ C.participants t.query →
    toLex (t.batchId, i) < toLex ((s.sched j).workerEpoch, (s.sched j).schedPtr) →
    (s.sched j).returned.count t = 1
  /-- and so it has when all sequencers have sent the epoch to it, all messages have arrived and
  its scheduler finds nothing to take -/
  drained : ∀ i < C.nodeCnt, ∀ j <
    C.nodeCnt, ∀ t ∈ (s.seq i).sequenced, j ∈ C.participants t.query →
    (∀ k < C.nodeCnt, t.batchId ≤ (s.seq k).closedTo j) → (∀ k, s.net k j = []) →
    (s.sched j).schedQueue (s.sched j).schedPtr = [] → (s.sched j).returned.count t = 1
  /-- the assertions of `sched_dequeue` hold -/
  asserts : ∀ j < C.nodeCnt, (s.sched j).schedDequeue C ≠ none

/-- **The schedulers of all nodes follow one order**, in every state of every run: whatever the
clients send, however messages and calls interleave, and also where the 32 bits of an id are not
enough. -/
theorem schedulers_oneOrder [DecidableEq Q] (C : Config Q) {s : State Q}
    (hs : (machine C).Reachable s) : OneOrder C s := by
  have h := reachable_inv hs
  have hcount : ∀ j < C.nodeCnt, ∀ t ∈ (s.sched j).returned, (s.sched j).returned.count t = 1 :=
    fun j hj t ht => count_eq_one_of_mem (h.returned_pairwise hj).nodup ht
  constructor
  case position => exact fun i _ e => (h.seq i).positions e
  case sorted => exact fun j hj => h.returned_pairwise hj
  case agree =>
    intro j hj j' hj'
    refine ((h.returned_pairwise hj).filter _).eq_of_mem_iff ((h.returned_pairwise hj').filter _) ?_
    intro t
    simp only [mem_filter, decide_eq_true_iff]
    exact and_comm
  case sound => exact fun j hj t ht => h.of_mem_returned hj ht
  case complete =>
    intro i hi j hj t ht hpart
    obtain ⟨p, cur, hf⟩ := h.follows j hj
    have hbatch : t ∈ (s.seq i).batchTo C j (t.batchId - 1) :=
      mem_batchTo.mpr ⟨ht, (Nat.sub_add_cancel ((h.seq i).numbered t ht).2.1).symm, hpart⟩
    exact hf.merging.mem_or_queued (by omega) hi hbatch
  case passed =>
    intro i hi j hj t ht hpart hlt
    obtain ⟨p, cur, hf⟩ := h.follows j hj
    rw [hf.epoch, hf.ptr, Prod.Lex.toLex_lt_toLex] at hlt
    exact hcount j hj t (hf.mem_returned (h.seq i) hi ht hpart hlt)
  case drained =>
    intro i hi j hj t ht hpart hsent hnet hqueue
    obtain ⟨p, cur, hf⟩ := h.follows j hj
    have hle := hf.sent_le (by omega) hnet hqueue hsent
    exact hcount j hj t (hf.mem_returned (h.seq i) hi ht hpart (.inl (by omega)))
  case asserts =>
    intro j hj hnone
    obtain ⟨p, cur, hf⟩ := h.follows j hj
    obtain ⟨x, hx, -⟩ := hf.schedDequeue hj
    cases hx.symm.trans hnone

/-- Two nodes that take part in every transaction. -/
def bothNodes : Config Unit := ⟨2, 1, 10, fun _ => ⟨[0, 1], by decide⟩⟩

/-- One transaction from each sequencer; the messages of node `1` are sent and arrive first. -/
def crossing : List (Action Unit) :=
  [.processTxn 1 2 (), .advanceSeqEpoch 1] ++ List.replicate 4 (Action.sendNext 1) ++
    [.deliver 1 0, .deliver 1 0, .schedDequeue 0, .processTxn 0 2 (), .advanceSeqEpoch 0] ++
    List.replicate 4 (Action.sendNext 0) ++ [.deliver 0 1, .deliver 0 1] ++
    List.replicate 4 (Action.schedDequeue 0) ++ List.replicate 2 (Action.schedDequeue 1)

theorem schedulers_oneOrder_crossing : ∃ s ∈ (machine bothNodes).run crossing,
    (s.sched 0).returned = [⟨1, 0, 0, (), 0⟩, ⟨1, 1, 1, (), 0⟩] ∧ (s.sched 0).workerEpoch = 2 ∧
      (s.sched 1).returned = [⟨1, 0, 0, (), 0⟩] ∧ OneOrder bothNodes s := by
  have hrun : ∃ s ∈ (machine bothNodes).run crossing,
      (s.sched 0).returned = [⟨1, 0, 0, (), 0⟩, ⟨1, 1, 1, (), 0⟩] ∧ (s.sched 0).workerEpoch = 2 ∧
        (s.sched 1).returned = [⟨1, 0, 0, (), 0⟩] := by decide +kernel
  obtain ⟨s, hs, h0, hepoch, h1⟩ := hrun
  exact ⟨s, hs, h0, hepoch, h1, schedulers_oneOrder bothNodes (.of_run hs)⟩

end Calvin

end Deneva
