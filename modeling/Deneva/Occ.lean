import Deneva.Transition
import Deneva.Types

/-!
# Optimistic concurrency control (`concurrency_control/occ.cpp`)

`OptCC` with central validation (`PER_ROW_VALID` off), on one node. The semaphore makes
each critical section one step:

* `start` takes the start timestamp (`WorkerThread::process_rtxn`);
* `validateBegin` is the first critical section of `central_validate`: it takes
  `finish_tn`, and what it sees of `active` and `history` is a `Validation`;
* `validateEnd` is the check, which reads nothing else;
* `dropActive` is the second critical section, of a validation that failed;
* `finish` is `central_finish`.

Transactions are attempts: a restart is another transaction. The ghost field `since` is
the length of `history` when the transaction took its start timestamp, so that what was
pushed since then can be told from what was there before (`Validation.missed`).
-/

namespace Deneva

universe u v

open List Option

namespace Occ

/-! ## Timestamps (`Manager::get_ts`) -/

/-- `g_ts_alloc`. -/
inductive TsAlloc where
  /-- `TS_CAS` -/
  | cas
  /-- `TS_CLOCK` -/
  | clock (nodeCnt threadCnt nodeId : ℕ)

/-- Where a timestamp is taken: the thread, and what `get_wall_clock` returns. -/
structure Source where
  /-- the thread -/
  threadId : ℕ
  /-- the clock -/
  wallClock : ℕ

/-- `get_ts`: the timestamp, and the counter `timestamp` after it. -/
def getTs (alloc : TsAlloc) (src : Source) (timestamp : ℕ) : ℕ × ℕ :=
  match alloc with
  | .cas => (timestamp, (timestamp + 1) % 2 ^ 64)
  | .clock nodeCnt threadCnt nodeId =>
    ((src.wallClock * (nodeCnt + threadCnt) + (nodeId * threadCnt + src.threadId)) % 2 ^ 64,
      timestamp)

/-! ## Validation -/

/-- `set_ent`; `tn` is set when the entry goes to `history`. -/
structure SetEnt (T : Type u) (R : Type v) where
  tn : ℕ
  txn : T
  rows : List R

/-- `Access`, with what is read of it. -/
structure Access (R : Type v) where
  /-- `orig_row` -/
  row : R
  type : AccessT

variable {T : Type u} {R : Type v} [DecidableEq R]

/-- The write set `get_rw_set` computes. -/
def writeSet (accesses : List (Access R)) : List R :=
  (accesses.filter fun a => a.type = .WR).map Access.row

/-- The read set `get_rw_set` computes. -/
def readSet (accesses : List (Access R)) : List R :=
  (accesses.filter fun a => a.type ≠ .WR).map Access.row

/-- `test_valid`. -/
def testValid (set1 set2 : List R) : Bool := set1.all fun r => !set2.contains r

/-- What `central_validate` works on after its first critical section. -/
structure Validation (T : Type u) (R : Type v) where
  startTn : ℕ
  finishTn : ℕ
  finishActive : List (SetEnt T R)
  his : List (SetEnt T R)
  rset : List R
  wset : List R
  /-- the length of `history` at the start -/
  since : ℕ

namespace Validation

/-- The check against `history`. -/
def validHistory (v : Validation T R) : Bool :=
  if v.startTn < v.finishTn then
    ((v.his.dropWhile fun e => v.finishTn < e.tn).takeWhile fun e => v.startTn < e.tn).all
      fun e => testValid e.rows v.rset
  else true

/-- The check against the transactions that were active. -/
def validActive (v : Validation T R) : Bool :=
  v.finishActive.all fun e => testValid e.rows v.rset && testValid e.rows v.wset

/-- What was pushed to `history` between the start and the first critical section. -/
def missed (v : Validation T R) : List (SetEnt T R) := v.his.take (v.his.length - v.since)

/-- The transaction accessed a row. -/
def Accessed (v : Validation T R) (r : R) : Prop := r ∈ v.rset ∨ r ∈ v.wset

end Validation

/-! ## The machine -/

/-- How far a transaction is. -/
inductive Phase (T : Type u) (R : Type v) where
  /-- it has not started -/
  | idle
  /-- it accesses rows -/
  | running (startTn : ℕ) (accesses : List (Access R)) (since : ℕ)
  /-- it is in `central_validate` -/
  | validating (v : Validation T R)
  /-- `central_validate` returned `RCOK` -/
  | valid (v : Validation T R)
  /-- the check failed, and the transaction may still be in `active` -/
  | failed (v : Validation T R)
  /-- `central_validate` returned `Abort` -/
  | dropped (v : Validation T R)
  /-- `central_finish` is done -/
  | finished

/-- `OptCC`, the counter of `Manager`, and the transactions. -/
structure State (T : Type u) (R : Type v) where
  /-- `Manager::timestamp` -/
  timestamp : ℕ
  tnc : ℕ
  history : List (SetEnt T R)
  active : List (SetEnt T R)
  /-- the transactions -/
  phase : T → Phase T R

/-- A step. -/
inductive Action (T : Type u) (R : Type v) where
  | start (t : T) (src : Source)
  | access (t : T) (row : R) (type : AccessT)
  | validateBegin (t : T) (src : Source)
  | validateEnd (t : T)
  | dropActive (t : T)
  | finish (t : T) (rc : RC)

variable [DecidableEq T]

/-- A transaction goes on. -/
def State.setPhase (s : State T R) (t : T) (p : Phase T R) : State T R :=
  { s with phase := Function.update s.phase t p }

/-- The entry of a transaction is taken out of `active`. -/
def State.removeActive (s : State T R) (t : T) : State T R :=
  { s with active := s.active.eraseP fun e => e.txn = t }

/-- What the first critical section of `central_validate` sees. -/
def validation (alloc : TsAlloc) (src : Source) (s : State T R) (startTn : ℕ)
    (accesses : List (Access R)) (since : ℕ) : Validation T R :=
  { startTn := startTn
    finishTn := (getTs alloc src s.timestamp).1
    finishActive := s.active
    his := s.history
    rset := readSet accesses
    wset := writeSet accesses
    since := since }

/-- `central_finish`; it has no result where an assertion fails. -/
def centralFinish (t : T) (rc : RC) (wset : List R) (s : State T R) : Option (State T R) :=
  if wset.isEmpty then some s
  else if s.active.any fun e => e.txn = t then
    let s := s.removeActive t
    if rc = .RCOK then
      some { s with tnc := s.tnc + 1, history := ⟨s.tnc + 1, t, wset⟩ :: s.history }
    else some s
  else if rc = .Abort then some s
  else none

/-- All interleavings of transactions. -/
def machine (T : Type u) (R : Type v) [DecidableEq R] [DecidableEq T] (alloc : TsAlloc) :
    Machine (State T R) (Action T R) where
  init := ⟨1, 0, [], [], fun _ => .idle⟩
  step s
    | .start t src =>
      match s.phase t with
      | .idle =>
        let (ts, timestamp) := getTs alloc src s.timestamp
        some ({ s with timestamp := timestamp }.setPhase t (.running ts [] s.history.length))
      | _ => none
    | .access t row type =>
      match s.phase t with
      | .running startTn accesses since =>
        some (s.setPhase t (.running startTn (accesses ++ [⟨row, type⟩]) since))
      | _ => none
    | .validateBegin t src =>
      match s.phase t with
      | .running startTn accesses since =>
        let v := validation alloc src s startTn accesses since
        some ({ s with
          timestamp := (getTs alloc src s.timestamp).2
          active := if v.wset.isEmpty then s.active else ⟨0, t, v.wset⟩ :: s.active }.setPhase t
            (.validating v))
      | _ => none
    | .validateEnd t =>
      match s.phase t with
      | .validating v =>
        some (s.setPhase t (if v.validHistory && v.validActive then .valid v else .failed v))
      | _ => none
    | .dropActive t =>
      match s.phase t with
      | .failed v => some ((s.removeActive t).setPhase t (.dropped v))
      | _ => none
    | .finish t rc =>
      match s.phase t, rc with
      | .valid v, .RCOK => (centralFinish t .RCOK v.wset s).map (·.setPhase t .finished)
      | .valid v, .Abort => (centralFinish t .Abort v.wset s).map (·.setPhase t .finished)
      | .dropped v, .Abort => (centralFinish t .Abort v.wset s).map (·.setPhase t .finished)
      | .running _ accesses _, .Abort =>
        (centralFinish t .Abort (writeSet accesses) s).map (·.setPhase t .finished)
      | _, _ => none

/-- **Validation is complete**: a transaction that passed accessed no row that somebody
else wrote who finished since it started. -/
def Complete (s : State T R) : Prop :=
  ∀ t v, s.phase t = .valid v → ∀ e ∈ v.missed, ∀ r ∈ e.rows, ¬ v.Accessed r

/-! ## The check against `history` -/

theorem testValid_iff {set1 set2 : List R} : testValid set1 set2 = true ↔ ∀ r ∈ set1, r ∉ set2 := by
  simp [testValid]

omit [DecidableEq R] [DecidableEq T] in
/-- In descending order, what is above a number stands in front. -/
theorem mem_takeWhile {his : List (SetEnt T R)} (h : his.Pairwise fun a b => b.tn < a.tn) {low : ℕ}
    {e : SetEnt T R} : e ∈ his.takeWhile (fun e => low < e.tn) ↔ e ∈ his ∧ low < e.tn := by
  induction his with
  | nil => simp
  | cons x his ih =>
    obtain ⟨hx, hrest⟩ := pairwise_cons.mp h
    by_cases hlow : low < x.tn
    · rw [takeWhile_cons_of_pos (by simpa using hlow), mem_cons, ih hrest, mem_cons]
      constructor
      · rintro (rfl | ⟨he, hlt⟩)
        · exact ⟨.inl rfl, hlow⟩
        · exact ⟨.inr he, hlt⟩
      · rintro ⟨rfl | he, hlt⟩
        · exact .inl rfl
        · exact .inr ⟨he, hlt⟩
    · rw [takeWhile_cons_of_neg (by simpa using hlow)]
      refine ⟨fun he => absurd he not_mem_nil, fun ⟨he, hlt⟩ => ?_⟩
      rcases mem_cons.mp he with rfl | he
      · exact absurd hlt hlow
      · exact absurd (hlt.trans (hx e he)) hlow

omit [DecidableEq R] [DecidableEq T] in
/-- The entries between two numbers are those at which the loops of `central_validate`
look. -/
theorem mem_between {his : List (SetEnt T R)} (h : his.Pairwise fun a b => b.tn < a.tn)
    {low high : ℕ} {e : SetEnt T R} :
    e ∈ (his.dropWhile fun e => high < e.tn).takeWhile (fun e => low < e.tn) ↔
      e ∈ his ∧ low < e.tn ∧ e.tn ≤ high := by
  induction his with
  | nil => simp
  | cons x his ih =>
    obtain ⟨hx, hrest⟩ := pairwise_cons.mp h
    by_cases hhigh : high < x.tn
    · rw [dropWhile_cons_of_pos (by simpa using hhigh), ih hrest, mem_cons]
      refine ⟨fun h => ⟨.inr h.1, h.2⟩, fun h => ⟨h.1.resolve_left ?_, h.2⟩⟩
      rintro rfl
      exact absurd hhigh h.2.2.not_gt
    · rw [dropWhile_cons_of_neg (by simpa using hhigh), mem_takeWhile h]
      refine ⟨fun ⟨he, hlow⟩ => ⟨he, hlow, ?_⟩, fun h => ⟨h.1, h.2.1⟩⟩
      rcases mem_cons.mp he with rfl | he
      · exact Nat.le_of_not_lt hhigh
      · exact (hx e he).le.trans (Nat.le_of_not_lt hhigh)

variable {v : Validation T R} {s : State T R}

omit [DecidableEq T] in
/-- **What the check against `history` compares**: the read set, with the entries numbered
between the two timestamps. -/
theorem Validation.validHistory_iff (h : v.his.Pairwise fun a b => b.tn < a.tn) :
    v.validHistory = true ↔ ∀ e ∈ v.his, v.startTn < e.tn → e.tn ≤ v.finishTn →
      ∀ r ∈ e.rows, r ∉ v.rset := by
  rw [validHistory]
  split
  · simp only [List.all_eq_true, mem_between h, testValid_iff]
    exact ⟨fun h e he hlow hhigh => h e ⟨he, hlow, hhigh⟩, fun h e he => h e he.1 he.2.1 he.2.2⟩
  · simp only [true_iff]
    intro e _ hlow hhigh
    omega

/-! ## The invariant -/

/-- The check can find whatever was missed: entries that meet the accesses are numbered
between the timestamps, and meet the read set. -/
def Validation.Checkable (v : Validation T R) : Prop :=
  ∀ e ∈ v.missed, (∃ r ∈ e.rows, v.Accessed r) →
    v.startTn < e.tn ∧ e.tn ≤ v.finishTn ∧ ∃ r ∈ e.rows, r ∈ v.rset

/-- So it is for the validation a transaction is to begin. -/
def BeginsCheckable (alloc : TsAlloc) (src : Source) (s : State T R) : Phase T R → Prop
  | .running startTn accesses since => (validation alloc src s startTn accesses since).Checkable
  | _ => True

/-- A validation begins only when the check can find whatever was missed. -/
def ConflictsCheckable (alloc : TsAlloc) (s : State T R) : Action T R → Prop
  | .validateBegin t src => BeginsCheckable alloc src s (s.phase t)
  | _ => True

/-- What holds of a transaction. -/
def PhaseInv : Phase T R → Prop
  | .validating v => v.his.Pairwise (fun a b => b.tn < a.tn) ∧ v.Checkable
  | .valid v => ∀ e ∈ v.missed, ∀ r ∈ e.rows, ¬ v.Accessed r
  | _ => True

/-- What holds in every state. -/
structure Inv (s : State T R) : Prop where
  /-- `history` is numbered in descending order -/
  sorted : s.history.Pairwise fun a b => b.tn < a.tn
  /-- `tnc` is the greatest number -/
  tnc : ∀ e ∈ s.history, e.tn ≤ s.tnc
  /-- what holds of the transactions -/
  phase : ∀ t, PhaseInv (s.phase t)

omit [DecidableEq T] in
/-- **A check that can find whatever was missed does.** -/
theorem Validation.Checkable.complete (hs : v.his.Pairwise fun a b => b.tn < a.tn) (h : v.Checkable)
    (hv : v.validHistory = true) : ∀ e ∈ v.missed, ∀ r ∈ e.rows, ¬ v.Accessed r := by
  intro e he r hr hacc
  obtain ⟨hlow, hhigh, r', hr', hrset⟩ := h e he ⟨r, hr, hacc⟩
  exact (Validation.validHistory_iff hs).mp hv e (mem_of_mem_take he) hlow hhigh r' hr' hrset

omit [DecidableEq R] in
theorem Inv.setPhase (h : Inv s) {t : T} {p : Phase T R} (hp : PhaseInv p) : Inv (s.setPhase t p) :=
  { h with
    phase := (Function.forall_update_iff s.phase fun _ p => PhaseInv p).mpr
      ⟨hp, fun u _ => h.phase u⟩ }

omit [DecidableEq R] in
theorem Inv.centralFinish {s' : State T R} (h : Inv s) {t : T} {rc : RC} {wset : List R}
    (hs : centralFinish t rc wset s = some s') : Inv s' := by
  simp only [Occ.centralFinish] at hs
  split at hs
  · exact some.inj hs ▸ h
  · split at hs
    · split at hs
      · cases hs
        refine { h with sorted := pairwise_cons.mpr ⟨fun e he => ?_, h.sorted⟩, tnc := ?_ }
        · exact Nat.lt_succ_of_le (h.tnc e he)
        · exact forall_mem_cons.mpr ⟨le_rfl, fun e he => (h.tnc e he).trans (Nat.le_succ _)⟩
      · exact some.inj hs ▸ { h with }
    · obtain ⟨_, hs⟩ := ite_none_right_eq_some.mp hs
      exact some.inj hs ▸ h

/-- **Every step keeps the invariant**, where validations begin only when the check can find what
was missed. -/
theorem inv_step {alloc : TsAlloc} {s' : State T R} {a : Action T R} (h : Inv s)
    (hok : ConflictsCheckable alloc s a) (hs : (machine T R alloc).step s a = some s') :
    Inv s' := by
  have hfinish : ∀ {t rc wset}, (Occ.centralFinish t rc wset s).map (·.setPhase t .finished) =
    some s' → Inv s' := by
    intro t rc wset hs
    obtain ⟨s₁, hs₁, rfl⟩ := map_eq_some_iff.mp hs
    exact (h.centralFinish hs₁).setPhase trivial
  cases a with (simp only [machine] at hs; split at hs <;> try cases hs)
  | start | dropActive =>
    apply Inv.setPhase
    · exact { h with }
    · trivial
  | access => exact h.setPhase trivial
  | validateBegin t src =>
    next hrun =>
    rw [ConflictsCheckable, hrun] at hok
    apply Inv.setPhase
    · exact { h with }
    · exact ⟨h.sorted, hok⟩
  | validateEnd t =>
    next hval =>
    have hinv := h.phase t
    rw [hval] at hinv
    refine h.setPhase ?_
    split
    · exact hinv.2.complete hinv.1 (Bool.and_eq_true_iff.mp ‹_›).1
    · trivial
  | finish => exact hfinish hs

/-- **Validation is complete as long as the check can find whatever was missed**: a transaction that
passed accessed no row of anybody who finished since it started, in every run in which each
validation begins with the entries it missed still within the numbers it searches. -/
theorem centralValidate_complete (alloc : TsAlloc) {s : State T R}
    (hs : (machine T R alloc).ReachableVia (ConflictsCheckable alloc) s) : Complete s := by
  have hinit : Inv (machine T R alloc).init :=
    ⟨.nil, fun _ he => absurd he not_mem_nil, fun _ => trivial⟩
  have hinv := hs.invariant hinit fun _ _ _ _ h hok hs => inv_step h hok hs
  intro t v hv
  have hphase := hinv.phase t
  rw [hv] at hphase
  exact hphase

instance (v : Validation T R) : Decidable v.Checkable := by
  unfold Validation.Checkable Validation.Accessed; infer_instance

instance (alloc : TsAlloc) (src : Source) (s : State T R) (p : Phase T R) :
    Decidable (BeginsCheckable alloc src s p) := by
  cases p <;> dsimp only [BeginsCheckable] <;> infer_instance

instance (alloc : TsAlloc) (s : State T R) (a : Action T R) :
    Decidable (ConflictsCheckable alloc s a) := by
  cases a <;> dsimp only [ConflictsCheckable] <;> infer_instance

/-- The validation a transaction passed. -/
def Phase.passed? : Phase T R → Option (Validation T R)
  | .valid v => some v
  | _ => none

omit [DecidableEq R] [DecidableEq T] in
theorem Phase.passed?_eq_some {p : Phase T R} : p.passed? = some v ↔ p = .valid v := by
  cases p <;> simp [passed?]

/-- The clock of a single thread on a single node. -/
def oneThread : TsAlloc := .clock 1 1 0

/-- A writer finishes while two others run; the one that read its row fails, the other does
not. -/
def checkedReader : List (Action (Fin 3) ℕ) :=
  [.start 1 ⟨0, 0⟩, .start 2 ⟨0, 0⟩, .start 0 ⟨0, 1⟩, .access 1 7 .RD, .access 2 8 .RD,
    .access 2 9 .WR, .access 0 7 .WR, .validateBegin 0 ⟨0, 2⟩, .validateEnd 0, .finish 0 .RCOK,
    .validateBegin 1 ⟨0, 3⟩, .validateEnd 1, .dropActive 1, .validateBegin 2 ⟨0, 4⟩, .validateEnd 2]

theorem centralValidate_complete_checkedReader :
    ∃ s, (machine (Fin 3) ℕ oneThread).run checkedReader = some s ∧
      (s.phase 1).passed?.isNone ∧ (s.phase 2).passed?.isSome ∧ Complete s := by
  have hrun : ((machine (Fin 3) ℕ oneThread).run checkedReader).map
      (fun s => ((s.phase 1).passed?.isNone, (s.phase 2).passed?.isSome)) = some (true, true) := by
    decide +kernel
  have hok : (machine (Fin 3) ℕ oneThread).RunOk (ConflictsCheckable oneThread)
      (machine (Fin 3) ℕ oneThread).init checkedReader := by
    decide +kernel
  obtain ⟨s, hs, heq⟩ := map_eq_some_iff.mp hrun
  obtain ⟨hfail, hpass⟩ := Prod.mk.inj heq
  exact ⟨s, hs, hfail, hpass, centralValidate_complete oneThread (.of_run hok hs)⟩

/-- A reader starts, a writer of its row starts and finishes, and the reader validates. -/
def missedWriter : List (Action (Fin 2) ℕ) :=
  [.start 0 ⟨0, 0⟩, .access 0 7 .RD, .start 1 ⟨0, 0⟩, .access 1 7 .WR, .validateBegin 1 ⟨0, 0⟩,
    .validateEnd 1, .finish 1 .RCOK, .validateBegin 0 ⟨0, 0⟩, .validateEnd 0]

/-- **Validation misses conflicts**: `history` is numbered by `tnc`, which start timestamps
have long passed. -/
theorem centralValidate_misses :
    ∃ s, (machine (Fin 2) ℕ .cas).run missedWriter = some s ∧ ¬ Complete s := by
  have hrun : (((machine (Fin 2) ℕ .cas).run missedWriter).bind fun s => (s.phase 0).passed?.map
      fun v => (v.missed.map SetEnt.rows, v.rset)) = some ([[7]], [7]) := by
    decide +kernel
  obtain ⟨s, hs, hpassed⟩ := bind_eq_some_iff.mp hrun
  obtain ⟨v, hv, heq⟩ := map_eq_some_iff.mp hpassed
  obtain ⟨hmissed, hrset⟩ := Prod.mk.inj heq
  refine ⟨s, hs, fun hcomplete => ?_⟩
  obtain ⟨e, he, hrows⟩ : ∃ e ∈ v.missed, e.rows = [7] := by
    have hmem : [7] ∈ v.missed.map SetEnt.rows := hmissed ▸ mem_cons_self
    exact List.mem_map.mp hmem
  refine hcomplete 0 v (Phase.passed?_eq_some.mp hv) e he 7 (hrows ▸ mem_cons_self) (.inl ?_)
  exact hrset ▸ mem_cons_self

end Occ

end Deneva
