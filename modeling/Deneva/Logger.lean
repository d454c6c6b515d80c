import Deneva.Transition

/-!
# The log (`system/logger.cpp`)

Workers create log records and put them into a queue; the log thread takes them out and writes them
to the log file. When it comes to the `L_NOTIFY` record of a commit it flushes the file and puts
`LOG_FLUSHED` into the work queue, upon which the commit is reported. It does so **before** it
writes the record.

* The effects of `processRecord` are separate steps, so that workers can come in between.
* `Inv` is the order of the queue: what was put into it is in the file, in the hands of the log
  thread or still in the queue.
-/

namespace Deneva

open List Option

namespace Logger

/-- `LogIUD`. -/
inductive LogIUD : Type where
  | L_INSERT | L_UPDATE | L_DELETE | L_NOTIFY
  deriving DecidableEq

/-- `AriesLogRecord`, without the fields that keep their initial values. -/
structure Rcd where
  lsn : ℕ
  iud : LogIUD
  txnId : ℕ
  tableId : ℕ
  key : ℕ
  deriving DecidableEq

/-- `LogRecord`. -/
structure LogRecord where
  /-- where it is -/
  address : ℕ
  rcd : Rcd
  deriving DecidableEq

/-- How far the log thread is with `processRecord`. -/
inductive Stage : Type where
  /-- between two calls -/
  | idle
  /-- it has taken a record from the queue -/
  | taken (r : LogRecord)
  /-- it has flushed the file for an `L_NOTIFY` record -/
  | flushed (r : LogRecord)
  /-- it has put `LOG_FLUSHED` into the work queue -/
  | notified (r : LogRecord)
  deriving DecidableEq

/-- The record in the hands of the log thread. -/
def Stage.records : Stage → List LogRecord
  | .idle => []
  | .taken r | .flushed r | .notified r => [r]

/-- `Logger`, with the records that workers have created and the work queue. -/
structure State where
  lsn : ℕ
  /-- where the next record is allocated -/
  nextAddress : ℕ
  /-- created, and not put into the queue yet -/
  created : List LogRecord
  logQueue : List LogRecord
  /-- the log thread -/
  stage : Stage
  /-- what was written to `log_file` -/
  file : List LogRecord
  /-- how much of it was flushed -/
  flushed : ℕ
  logBufCnt : ℕ
  /-- the transactions of the `LOG_FLUSHED` messages in the work queue -/
  workQueue : List ℕ
  /-- everything that was ever put into `log_queue` -/
  enqueued : List LogRecord
  deriving DecidableEq

/-- A step of a worker or of the log thread. -/
inductive Action : Type where
  /-- `createRecord` with its fields -/
  | createRecord (txnId : ℕ) (iud : LogIUD) (tableId key : ℕ)
  /-- `createRecord` as a copy of a record of another node -/
  | copyRecord (rcd : Rcd)
  | enqueueRecord (r : LogRecord)
  /-- the first part of `processRecord`, under the latch -/
  | processRecord
  /-- `flushBuffer` for an `L_NOTIFY` record -/
  | flushBuffer
  /-- `work_queue.enqueue` of `LOG_FLUSHED` -/
  | notify
  | writeToBuffer
  /-- `flushBufferCheck`, where `g_log_flush_timeout` is over or not -/
  | flushBufferCheck (timeout : Bool)
  deriving DecidableEq

/-- A record gets memory of its own. -/
def State.create (s : State) (rcd : Rcd) : State :=
  { s with nextAddress := s.nextAddress + 1, created := s.created ++ [⟨s.nextAddress, rcd⟩] }

/-- The file is flushed. -/
def State.flush (s : State) : State := { s with flushed := s.file.length, logBufCnt := 0 }

/-- The record is written, and the call of `processRecord` is over. -/
def State.write (s : State) (r : LogRecord) : State :=
  { s with stage := .idle, file := s.file ++ [r], logBufCnt := s.logBufCnt + 1 }

/-- One step; `logBufMax` is `g_log_buf_max`. -/
def step (logBufMax : ℕ) (s : State) : Action → Option State
  | .createRecord txnId iud tableId key =>
    some ({ s with lsn := s.lsn + 1 }.create ⟨s.lsn, iud, txnId, tableId, key⟩)
  | .copyRecord rcd => some (s.create rcd)
  | .enqueueRecord r =>
    if r ∈ s.created then
      some { s with
        created := s.created.erase r, logQueue := s.logQueue ++ [r], enqueued := s.enqueued ++ [r] }
    else none
  | .processRecord =>
    match s.stage, s.logQueue with
    | .idle, [] => some s
    | .idle, r :: logQueue => some { s with stage := .taken r, logQueue := logQueue }
    | _, _ => none
  | .flushBuffer =>
    match s.stage with
    | .taken r => if r.rcd.iud = .L_NOTIFY then some { s.flush with stage := .flushed r } else none
    | _ => none
  | .notify =>
    match s.stage with
    | .flushed r => some { s with stage := .notified r, workQueue := s.workQueue ++ [r.rcd.txnId] }
    | _ => none
  | .writeToBuffer =>
    match s.stage with
    | .taken r => if r.rcd.iud = .L_NOTIFY then none else some (s.write r)
    | .notified r => some (s.write r)
    | _ => none
  | .flushBufferCheck timeout =>
    match s.stage with
    | .idle => some (if logBufMax ≤ s.logBufCnt ∨ timeout = true then s.flush else s)
    | _ => none

/-- The log of a node. -/
def machine (logBufMax : ℕ) : Machine State Action where
  init := ⟨0, 0, [], [], .idle, [], 0, 0, [], []⟩
  step := step logBufMax

/-- Where the log thread is about to send `LOG_FLUSHED` for a transaction, all records of the
transaction that were put into the queue are written and flushed. -/
def Durable (s : State) : Prop :=
  ∀ r, s.stage = .flushed r → ∀ r' ∈ s.enqueued, r'.rcd.txnId = r.rcd.txnId →
    r' ∈ s.file.take s.flushed

/-- The log thread does not come to a flush for an `L_NOTIFY` record. -/
def NoNotify (s : State) (a : Action) : Prop :=
  ∀ r, s.stage = .taken r → r.rcd.iud = .L_NOTIFY → a ≠ .flushBuffer

/-! ## The order of the queue -/

/-- What the log thread and the workers keep. -/
structure Inv (s : State) : Prop where
  /-- records are written in the order in which they were put into the queue -/
  order : s.enqueued = s.file ++ (s.stage.records ++ s.logQueue)
  /-- no record is there twice -/
  nodup : (s.created ++ s.enqueued).Nodup
  /-- the memory of the next record is free -/
  fresh : ∀ r ∈ s.created ++ s.enqueued, r.address < s.nextAddress
  flushed_le : s.flushed ≤ s.file.length
  /-- all that was written is flushed when `LOG_FLUSHED` is sent -/
  flushed : ∀ r, s.stage = .flushed r → s.flushed = s.file.length

/-- Everything a step can be. -/
inductive Step (s : State) : Action → State → Prop where
  | create {a : Action} (lsn : ℕ) (rcd : Rcd) (ne : a ≠ .flushBuffer) :
      Step s a ({ s with lsn := lsn }.create rcd)
  | enqueue (r : LogRecord) (mem : r ∈ s.created) :
      Step s (.enqueueRecord r)
        { s with
          created := s.created.erase r, logQueue := s.logQueue ++ [r],
            enqueued := s.enqueued ++ [r] }
  | empty (idle : s.stage = .idle) : Step s .processRecord s
  | take (r : LogRecord) (logQueue : List LogRecord) (idle : s.stage = .idle)
      (queue : s.logQueue = r :: logQueue) :
      Step s .processRecord { s with stage := .taken r, logQueue := logQueue }
  | flush (r : LogRecord) (taken : s.stage = .taken r) (iud : r.rcd.iud = .L_NOTIFY) :
      Step s .flushBuffer { s.flush with stage := .flushed r }
  | notify (r : LogRecord) (flushed : s.stage = .flushed r) :
      Step s .notify { s with stage := .notified r, workQueue := s.workQueue ++ [r.rcd.txnId] }
  | write (r : LogRecord) (stage : s.stage = .taken r ∨ s.stage = .notified r) :
      Step s .writeToBuffer (s.write r)
  | check (timeout : Bool) (idle : s.stage = .idle) : Step s (.flushBufferCheck timeout) s.flush
  | checked (timeout : Bool) (idle : s.stage = .idle) : Step s (.flushBufferCheck timeout) s

variable {logBufMax : ℕ} {s s' : State} {a : Action}

theorem step_of_eq_some (h : step logBufMax s a = some s') : Step s a s' := by
  cases a with
  | createRecord txnId iud tableId key => exact some.inj h ▸ .create _ _ nofun
  | copyRecord rcd => exact some.inj h ▸ .create s.lsn rcd nofun
  | enqueueRecord r =>
    obtain ⟨hmem, hs⟩ := ite_none_right_eq_some.mp h
    exact some.inj hs ▸ .enqueue r hmem
  | processRecord =>
    simp only [step] at h
    split at h
    · exact some.inj h ▸ .empty ‹_›
    · exact some.inj h ▸ .take _ _ ‹_› ‹_›
    · cases h
  | flushBuffer =>
    simp only [step] at h
    split at h
    · obtain ⟨hiud, hs⟩ := ite_none_right_eq_some.mp h
      exact some.inj hs ▸ .flush _ ‹_› hiud
    · cases h
  | notify =>
    simp only [step] at h
    split at h
    · exact some.inj h ▸ .notify _ ‹_›
    · cases h
  | writeToBuffer =>
    simp only [step] at h
    split at h
    · obtain ⟨-, hs⟩ := ite_none_left_eq_some.mp h
      exact some.inj hs ▸ .write _ (.inl ‹_›)
    · exact some.inj h ▸ .write _ (.inr ‹_›)
    · cases h
  | flushBufferCheck timeout =>
    simp only [step] at h
    split at h
    · split at h
      · exact some.inj h ▸ .check timeout ‹_›
      · exact some.inj h ▸ .checked timeout ‹_›
    · cases h

/-- **Every step keeps the order of the queue**, those of the workers and those of the log thread.
-/
theorem Inv.step (hI : Inv s) (h : Step s a s') : Inv s' := by
  cases h with
  | create lsn rcd ne =>
    obtain ⟨r, hr⟩ : ∃ r : LogRecord, r = ⟨s.nextAddress, rcd⟩ := ⟨_, rfl⟩
    have hnew : r ∉ s.created ++ s.enqueued := by
      intro hmem
      have := hI.fresh r hmem
      rw [hr] at this
      exact Nat.lt_irrefl _ this
    have hperm : (s.created ++ [r] ++ s.enqueued).Perm (r :: (s.created ++ s.enqueued)) := by
      rw [append_assoc]
      exact perm_middle
    rw [hr] at hnew hperm
    refine ⟨hI.order, hperm.nodup_iff.mpr (nodup_cons.mpr ⟨hnew, hI.nodup⟩), fun r hr => ?_,
      hI.flushed_le, hI.flushed⟩
    rcases mem_cons.mp (hperm.mem_iff.mp hr) with rfl | hr
    · exact Nat.lt_succ_self _
    · exact Nat.lt_succ_of_lt (hI.fresh r hr)
  | enqueue r mem =>
    have hperm : (s.created.erase r ++ (s.enqueued ++ [r])).Perm (s.created ++ s.enqueued) := by
      rw [← append_assoc]
      refine (perm_append_singleton r _).trans ?_
      exact ((perm_cons_erase mem).symm.append_right s.enqueued)
    refine ⟨?_, hperm.nodup_iff.mpr hI.nodup, fun r' hr' => hI.fresh r' (hperm.mem_iff.mp hr'),
      hI.flushed_le, hI.flushed⟩
    rw [hI.order, append_assoc, append_assoc]
  | empty idle => exact hI
  | take r logQueue idle queue =>
    refine ⟨?_, hI.nodup, hI.fresh, hI.flushed_le, nofun⟩
    rw [hI.order, idle, queue]
    rfl
  | flush r taken iud =>
    refine ⟨?_, hI.nodup, hI.fresh, Nat.le_refl _, fun _ _ => rfl⟩
    exact hI.order.trans (by rw [taken]; rfl)
  | notify r flushed =>
    refine ⟨?_, hI.nodup, hI.fresh, hI.flushed_le, nofun⟩
    exact hI.order.trans (by rw [flushed]; rfl)
  | write r stage =>
    refine ⟨?_, hI.nodup, hI.fresh, ?_, nofun⟩
    · have hrecords : s.stage.records = [r] := by rcases stage with h | h <;> rw [h] <;> rfl
      refine hI.order.trans ?_
      rw [hrecords, ← append_assoc]
      rfl
    · have := hI.flushed_le
      simp only [State.write, length_append, length_singleton]
      omega
  | check timeout idle =>
    refine ⟨hI.order, hI.nodup, hI.fresh, Nat.le_refl _, fun _ _ => rfl⟩
  | checked timeout idle => exact hI

theorem Inv.init : Inv (machine logBufMax).init := ⟨rfl, nodup_nil, nofun, Nat.le_refl _, nofun⟩

/-! ## What is flushed when a commit is reported -/

variable {r : LogRecord}

/-- What was put into the queue before the `L_NOTIFY` record is flushed; the record is not
written. -/
theorem Inv.enqueued_eq (hI : Inv s) (hr : s.stage = .flushed r) :
    s.enqueued = s.file.take s.flushed ++ r :: s.logQueue := by
  rw [hI.flushed r hr, take_length]
  exact hI.order.trans (by rw [hr]; rfl)

theorem Inv.not_durable (hI : Inv s) (hr : s.stage = .flushed r) : ¬ Durable s := by
  intro h
  have heq := hI.enqueued_eq hr
  have hmem : r ∈ s.enqueued := by
    rw [heq]
    exact mem_append_right _ mem_cons_self
  have hnodup : (s.file.take s.flushed ++ r :: s.logQueue).Nodup :=
    heq ▸ (nodup_append.mp hI.nodup).2.1
  exact (nodup_append.mp hnodup).2.2 r (h r hr r hmem rfl) r mem_cons_self rfl

/-- Only a flush for a commit brings the log thread to where it sends `LOG_FLUSHED`. -/
theorem stage_of_step (h : Step s a s') (ha : a ≠ .flushBuffer) (hr : s'.stage = .flushed r) :
    s.stage = .flushed r := by
  cases h with
  | create lsn rcd ne | enqueue r' mem | empty idle | check timeout idle | checked timeout idle =>
    exact hr
  | take r' logQueue idle queue | notify r' flushed | write r' stage => cases hr
  | flush r' taken iud => exact absurd rfl ha

/-- **A commit is reported before its record is written.** Exactly in the runs in which the log
thread comes to no `L_NOTIFY` record, all records of a transaction are flushed when its
`LOG_FLUSHED` is sent. In every run those are flushed that were put into the queue before the
`L_NOTIFY` record. -/
theorem durable_iff (logBufMax : ℕ) (as : List Action) :
    ((∀ k, ∀ s ∈ (machine logBufMax).run (as.take k), Durable s) ↔
        (machine logBufMax).RunOk NoNotify (machine logBufMax).init as) ∧
      ∀ s ∈ (machine logBufMax).run as, ∀ r, s.stage = .flushed r →
        s.enqueued = s.file.take s.flushed ++ r :: s.logQueue := by
  constructor
  · refine Machine.runFrom_iff_runOk_of_inv (I := fun s => Inv s ∧ ∀ r, s.stage ≠ .flushed r) ?_ ?_
      ⟨Inv.init, nofun⟩ nofun as
    · rintro s a - hnone r hr hiud rfl
      simp [machine, step, hr, hiud] at hnone
    · intro s a s' ⟨hI, hne⟩ _ h
      have hstep := step_of_eq_some h
      have hI' := hI.step hstep
      have hiff : (∀ r, s'.stage ≠ .flushed r) ↔ NoNotify s a := by
        constructor
        · rintro hne' r hr hiud rfl
          cases hstep with
          | create lsn rcd ne => exact ne rfl
          | flush r' taken iud => exact hne' r' rfl
        · intro hno r hr
          by_cases ha : a = .flushBuffer
          · subst ha
            cases hstep with
            | create lsn rcd ne => exact ne rfl
            | flush r' taken iud => exact hno r' taken iud rfl
          · exact hne r (stage_of_step hstep ha hr)
      refine ⟨⟨fun hd => hiff.mp fun r hr => hI'.not_durable hr hd, fun hno r hr => ?_⟩,
        fun hno => ⟨hI', hiff.mpr hno⟩⟩
      exact absurd hr (hiff.mpr hno r)
  · intro s hs r hr
    have hI : Inv s := (Machine.Reachable.of_run hs).invariant Inv.init
      fun _ _ _ hI h => hI.step (step_of_eq_some h)
    exact hI.enqueued_eq hr

/-- The `L_NOTIFY` record of transaction 7. -/
def commitRecord : LogRecord := ⟨0, ⟨0, .L_NOTIFY, 7, 0, 0⟩⟩

/-- Transaction 7 commits, and the log thread takes its record and flushes. -/
def oneCommit : List Action :=
  [.createRecord 7 .L_NOTIFY 0 0, .enqueueRecord commitRecord, .processRecord, .flushBuffer]

/-- The next step sends `LOG_FLUSHED` for transaction 7, and nothing is in the file. -/
theorem not_durable_oneCommit :
    ∃ s ∈ (machine 10).run oneCommit, s.stage = .flushed commitRecord ∧
      s.enqueued = [commitRecord] ∧
      s.file = [] ∧ ¬ Durable s := by
  obtain ⟨s, hs, hstage, henq, hfile⟩ : ∃ s ∈ (machine 10).run oneCommit,
      s.stage = .flushed commitRecord ∧ s.enqueued = [commitRecord] ∧ s.file = [] := by decide
  refine ⟨s, hs, hstage, henq, hfile, fun h => ?_⟩
  have hmem := h commitRecord hstage commitRecord (by rw [henq]; exact mem_cons_self) rfl
  rw [hfile, take_nil] at hmem
  exact not_mem_nil hmem

end Logger

end Deneva
