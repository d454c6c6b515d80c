import Deneva.FrameworkLocks
import Deneva.LockTable

/-!
# The framework's locks and the attempts of the engine (`txn.cpp`, `worker_thread.cpp`)

The engine tells the framework about every access and about the end of every attempt:
`TxnManager::get_row` asks the row's own lock first and then calls `framework->read` or
`framework->write`, whatever the row answered, `get_row_post_wait` calls it once more, and the
handlers of the workers call `framework->commit`, `framework->abort` and
`framework->endTransaction`.

A `Node` is the engine's lock table (`WAIT_DIE`), the framework's lock manager, and for each
transaction the point its attempt has reached on the node (`Phase`). An attempt ends in one of three
ways:

* `commit` and `abort`: the rows are released, the framework is told, and `endTransaction` follows.
  This is `check_if_done` for a transaction of one node, `process_rack_prep` and then
  `process_rack_rfin` at the home of the others, and `process_rfin` elsewhere.
* `unreported`: `start_abort` at the home of a transaction that touched several nodes, after its own
  access failed or a remote one did (`process_rqry_rsp`). The rows are released and `RFIN` is sent;
  when all nodes have answered, `process_rack_rfin` calls `WorkerThread::abort`, and the framework
  hears of it by `endTransaction` only, which does nothing unless the transaction is `finished`.

A call of the framework that does not come back (a request that has to wait sleeps in `incr_lr`)
leaves its transaction stuck. The steps of all transactions on all nodes interleave freely; what a
message has to wait for is not modelled, except that a transaction reaches other nodes only after
its home.
-/

namespace Deneva

universe u

open Function Option

namespace FrameworkAttempts

open FrameworkLocks

/-- How an attempt ends on a node. -/
inductive Ending : Type where
  /-- `commit`, and the framework is told -/
  | commit
  /-- `abort`, and the framework is told -/
  | abort
  /-- `abort` in `start_abort` of a transaction that touched several nodes -/
  | unreported
  deriving DecidableEq

/-- How far the attempt of a transaction is on a node. -/
inductive Phase (K : Type u) : Type u where
  /-- no attempt: none has come here, or the last one was aborted and has ended -/
  | idle
  /-- between two accesses -/
  | running
  /-- in `get_row`, after the row has answered -/
  | accessed (k : K) (type : AccessT) (rc : RC)
  /-- `get_row` has returned `WAIT` -/
  | waiting (k : K) (type : AccessT)
  /-- `get_row` has returned `Abort` -/
  | failed
  /-- in `release_locks` of `TxnManager::commit` or `TxnManager::abort`, or after it -/
  | releasing (e : Ending)
  /-- the framework was told; `endTransaction` is to come -/
  | told (e : Ending)
  /-- the transaction has committed, and its attempt has ended -/
  | committed
  /-- in a call of the framework that does not come back -/
  | stuck
  deriving DecidableEq

/-- What is fixed about the transactions. -/
structure Config (N K T V : Type u) where
  /-- the node a transaction was started on -/
  home : T → N
  /-- the engine's timestamps -/
  timestamp : T → ℕ
  /-- the framework's timestamps -/
  timestampStartup : T → ℕ
  /-- the row of a key -/
  row : K → V
  /-- the keys that the loader of a node gives to the framework -/
  loaded : N → List K

/-- One node. -/
structure Node (K T V : Type u) where
  /-- the locks of the engine -/
  engine : LockTable K T
  /-- the rows among the accesses of a transaction -/
  rows : T → List K
  /-- the lock manager and the transaction objects of the framework -/
  framework : FrameworkLocks.State K T V
  /-- the attempts -/
  phase : T → Phase K

/-- All nodes, and `partitions_touched` of the transactions. -/
structure State (N K T V : Type u) where
  /-- the nodes -/
  node : N → Node K T V
  /-- the nodes an attempt has reached -/
  touched : T → List N

/-- What a thread does for a transaction on a node. -/
inductive Act (K : Type u) : Type u where
  /-- an attempt starts here: `process_rtxn`, or the first `RQRY` -/
  | begin
  /-- `row_t::get_row` in `TxnManager::get_row` -/
  | getRow (k : K) (type : AccessT)
  /-- `framework->read` or `framework->write` in `TxnManager::get_row` -/
  | access
  /-- `get_row_post_wait` -/
  | postWait
  /-- a handler ends the attempt -/
  | finish (e : Ending)
  /-- `release_locks`: one row -/
  | releaseRow (k : K)
  /-- `framework->commit` or `framework->abort` -/
  | report
  /-- `framework->endTransaction` at the end of `WorkerThread::commit`, `WorkerThread::abort` or
  `process_rfin` -/
  | endTransaction
  deriving DecidableEq

variable {N K T V : Type u} [DecidableEq K] [DecidableEq T]

/-- `YCSBWorkload::init_table`: `initContent` for each row. -/
def Node.init (C : Config N K T V) (n : N) : Node K T V where
  engine := .init
  rows _ := []
  framework := (C.loaded n).foldl (fun s k => s.initContent k (C.row k)) .init
  phase _ := .idle

/-! ## The framework's side (`framework.cpp`) -/

/-- The framework's call for an access, under `WAIT_DIE` and `SERIALIZABLE`. -/
def frameworkAccess (C : Config N K T V) (t : T) (k : K) (type : AccessT)
    (s : FrameworkLocks.State K T V) : FrameworkLocks.State K T V × Option Stop :=
  match type with
  | .RD => s.read .WAIT_DIE .SERIALIZABLE C.timestampStartup t k
  | .WR => s.frameworkWrite .WAIT_DIE .SERIALIZABLE C.timestampStartup t k (C.row k)
  | _ => (s, none)

/-- `setFinished(true)`. -/
def setFinished (t : T) (s : FrameworkLocks.State K T V) : FrameworkLocks.State K T V :=
  s.setTxn t { s.txn t with finished := true }

/-- `FrameworkPessimisticDeneva::commit` and `FrameworkPessimisticDeneva::abort`. -/
def frameworkReport (C : Config N K T V) (t : T) (e : Ending) (s : FrameworkLocks.State K T V) :
    Option (FrameworkLocks.State K T V × Option Stop) :=
  match e with
  | .commit => some (State.andThen (s.commit .WAIT_DIE C.timestampStartup t) fun s =>
      (setFinished t s, none))
  | .abort => some (State.andThen (s.abort .WAIT_DIE C.timestampStartup t) fun s =>
      (setFinished t s, none))
  | .unreported => none

/-- `FrameworkPessimisticDeneva::endTransaction`. -/
def endTransaction (C : Config N K T V) (t : T) (s : FrameworkLocks.State K T V) :
    FrameworkLocks.State K T V × Option Stop :=
  if (s.txn t).finished then s.finish .WAIT_DIE C.timestampStartup t else (s, none)

/-- The framework's request for an access has to wait: the `CC_Lock` of the key is held in a
conflicting mode, by no older transaction. -/
def frameworkWaits (C : Config N K T V) (t : T) (k : K) (type : AccessT)
    (s : FrameworkLocks.State K T V) : Bool :=
  (s.ccMap k).any fun c => c.mustWait .WAIT_DIE C.timestampStartup type t

variable {C : Config N K T V} {s s' : FrameworkLocks.State K T V} {t : T} {x : Node K T V}

section

variable (hs : Inv .WAIT_DIE s)

include hs

theorem Inv.setFinished (t : T) : Inv .WAIT_DIE (setFinished t s) := by
  refine ⟨hs.locked.setTxn t _, hs.ledger.setTxn rfl, fun t' => (hs.opens t').frame ?_ rfl ?_⟩
  · rcases eq_or_ne t' t with rfl | hne
    · rw [FrameworkAttempts.setFinished, State.setTxn_self]
    · rw [FrameworkAttempts.setFinished, State.setTxn_ne _ hne]
  · exact fun _ _ h => h

/-- An access that does not have to wait comes back. -/
theorem frameworkAccess_spec {k : K} {type : AccessT} (hr : s.reported t = false)
    (hw : frameworkWaits C t k type s = false) :
    ∃ s', frameworkAccess C t k type s = (s', none) ∧ Inv .WAIT_DIE s' ∧ Noted t s s' := by
  have hord : ∀ c ∈ s.ccMap k, c.Orderly .WAIT_DIE C.timestampStartup false type t := by
    intro c hc
    rw [frameworkWaits, mem_def.mp hc] at hw
    exact ⟨hw, by simp⟩
  cases type with
  | RD => exact hs.read .SERIALIZABLE hr hord
  | WR =>
    by_cases hnone : s.ccMap k = none
    · -- the lock of a new key is free
      have hinit : ∀ c ∈ (s.initContent k (C.row k)).ccMap k,
          c.Orderly .WAIT_DIE C.timestampStartup false .WR t := by
        intro c hc
        obtain rfl : CCLock.init s.next = c := by
          rw [State.initContent, hnone] at hc
          simpa using hc
        simp [CCLock.Orderly, CCLock.mustWait, CCLock.init, RowLock.init, CCLock.conflictLock]
      rw [frameworkAccess, State.frameworkWrite, if_pos hnone]
      exact (hs.initContent k (C.row k)).write .SERIALIZABLE hr (C.row k) hinit
    · rw [frameworkAccess, State.frameworkWrite, if_neg hnone]
      exact hs.write .SERIALIZABLE hr (C.row k) hord
  | XP | SCAN => exact ⟨s, rfl, hs, .refl t s⟩

/-- Telling the framework of the end of an attempt empties the ledger. -/
theorem frameworkReport_spec {e : Ending} (hr : s.reported t = false)
    {r : FrameworkLocks.State K T V × Option Stop} (h : frameworkReport C t e s = some r) :
    ∃ s', r = (s', none) ∧ Inv .WAIT_DIE s' ∧ s'.reported = update s.reported t true ∧
      ∃ x, s'.txn = update s.txn t x ∧ x.locksDetained = [] ∧ x.finished = true := by
  have hfin : ∀ {f : K → FrameworkLocks.State K T V → FrameworkLocks.State K T V × Option Stop},
      Settles .WAIT_DIE f →
      some (State.andThen (s.endWith .WAIT_DIE C.timestampStartup f t) fun s =>
        (FrameworkAttempts.setFinished t s, none)) = some r →
      ∃ s', r = (s', none) ∧ Inv .WAIT_DIE s' ∧ s'.reported = update s.reported t true ∧
        ∃ x, s'.txn = update s.txn t x ∧ x.locksDetained = [] ∧ x.finished = true := by
    intro f hf hsome
    obtain ⟨s₁, h₁, hs₁, hrep, htxn⟩ := hs.endWith C.timestampStartup hf hr
    rw [h₁] at hsome
    refine ⟨_, (some.inj hsome).symm, Inv.setFinished hs₁ t, hrep,
      { (s.txn t).clearLocksDetained with finished := true }, ?_, rfl, rfl⟩
    simp only [FrameworkAttempts.setFinished, State.setTxn, htxn, update_idem, update_self]
  cases e with
  | commit => exact hfin (settles_commitWrites _) h
  | abort => exact hfin (settles_abortWrites _) h
  | unreported => cases h

/-- `endTransaction` of a transaction that is finished, or has an empty ledger and has not
reported. -/
theorem endTransaction_spec (hok : (s.txn t).finished = true ∨ (s.txn t).locksDetained = [])
    (hr : s.reported t = true → (s.txn t).finished = true) :
    ∃ s', endTransaction C t s = (s', none) ∧ Inv .WAIT_DIE s' ∧
      s'.reported = update s.reported t false ∧
      ∃ x, s'.txn = update s.txn t x ∧ x.locksDetained = [] := by
  unfold endTransaction
  split
  · obtain ⟨s', h, hs', hrep, htxn⟩ := hs.finish C.timestampStartup t
    exact ⟨s', h, hs', hrep, _, htxn, rfl⟩
  next hfin =>
    refine ⟨s, rfl, hs, ?_, s.txn t, (update_eq_self ..).symm, hok.resolve_left hfin⟩
    have hfalse : s.reported t = false := by
      cases hrt : s.reported t with
      | false => rfl
      | true => exact absurd (hr hrt) hfin
    rw [← hfalse, update_eq_self]

end

/-! ## The engine's side -/

variable [DecidableEq N]

/-- Where `get_row` leaves the attempt. -/
def Phase.after (k : K) (type : AccessT) (rc : RC) : Phase K :=
  match rc with
  | .RCOK => .running
  | .WAIT => .waiting k type
  | _ => .failed

/-- How an attempt is on its way to its end: `some e` when only `endTransaction` is left. -/
def Phase.leaving : Phase K → Option Ending
  | .told e => some e
  | .releasing .unreported => some .unreported
  | _ => none

/-- Where the end of an attempt leaves the transaction. -/
def Ending.phase : Ending → Phase K
  | .commit => .committed
  | _ => .idle

/-- A call of the framework has ended: the transaction goes on, or it is stuck. -/
def Node.called (t : T) (p : Phase K) (r : FrameworkLocks.State K T V × Option Stop)
    (x : Node K T V) : Node K T V :=
  { x with framework := State.close r
           phase := update x.phase t (if r.2 = none then p else .stuck) }

/-- One step of a transaction on a node; `several` says that it has touched several nodes. -/
def Node.step (C : Config N K T V) (n : N) (several : Bool) (t : T) (x : Node K T V) :
    Act K → Option (Node K T V)
  | .begin =>
    if x.phase t = .idle then some { x with phase := update x.phase t .running } else none
  | .getRow k type =>
    if x.phase t = .running ∧ k ∉ x.rows t then
      let r := x.engine.get .WAIT_DIE C.timestamp k (lockOf type) t
      some { x with engine := r.2
                    rows := if r.1 = .RCOK then update x.rows t (k :: x.rows t) else x.rows
                    phase := update x.phase t (.accessed k type r.1) }
    else none
  | .access =>
    match x.phase t with
    | .accessed k type rc =>
      some (x.called t (.after k type rc) (frameworkAccess C t k type x.framework))
    | _ => none
  | .postWait =>
    match x.phase t with
    | .waiting k type =>
      -- the transaction was restarted by the release that made it an owner of the row
      if (x.engine.lock k).owners.any fun e => e.txn = t then
        some { x.called t .running (frameworkAccess C t k type x.framework) with
          rows := update x.rows t (k :: x.rows t) }
      else none
    | _ => none
  | .finish e =>
    if (x.phase t = .running ∨ (x.phase t = .failed ∧ e ≠ .commit)) ∧
        (e = .unreported → n = C.home t ∧ several = true) then
      some { x with phase := update x.phase t (.releasing e) }
    else none
  | .releaseRow k =>
    match x.phase t with
    | .releasing _ =>
      if k ∈ x.rows t then
        (x.engine.release .WAIT_DIE C.timestamp k t).map fun r =>
          { x with engine := r.1, rows := update x.rows t ((x.rows t).erase k) }
      else none
    | _ => none
  | .report =>
    match x.phase t with
    | .releasing e =>
      if x.rows t = [] then
        (frameworkReport C t e x.framework).map fun r => x.called t (.told e) r
      else none
    | _ => none
  | .endTransaction =>
    match (x.phase t).leaving with
    | some e =>
      if x.rows t = [] then
        some { x.called t e.phase (endTransaction C t x.framework) with
          engine := x.engine.reset t }
      else none
    | none => none

/-- The attempt reaches a node, or ends at its home. -/
def touch (C : Config N K T V) (n : N) (t : T) (a : Act K) (ns : List N) : List N :=
  match a with
  | .begin => n :: ns
  | .endTransaction => if n = C.home t then [] else ns
  | _ => ns

/-- The attempts of all transactions on all nodes; nothing happens on a node whose process has
ended. -/
def machine (C : Config N K T V) : Machine (State N K T V) (N × T × Act K) where
  init := ⟨fun n => .init C n, fun _ => []⟩
  step s a :=
    if (s.node a.1).framework.fault ≠ none ∨
        a.2.2 = .begin ∧ a.1 ≠ C.home a.2.1 ∧ C.home a.2.1 ∉ s.touched a.2.1 then none
    else ((s.node a.1).step C a.1 (decide (1 < (s.touched a.2.1).length)) a.2.1 a.2.2).map fun x =>
      { node := update s.node a.1 x
        touched := update s.touched a.2.1 (touch C a.1 a.2.1 a.2.2 (s.touched a.2.1)) }

/-! ## What an attempt leaves behind -/

/-- The attempt of a transaction has ended on the node (or none has come). -/
def Phase.ended : Phase K → Bool
  | .idle | .committed => true
  | _ => false

/-- The transaction is neither an owner nor a waiter of a `CC_Lock` of the node. -/
def Node.Clear (x : Node K T V) (t : T) : Prop :=
  ∀ k c, x.framework.ccMap k = some c →
    (∀ e ∈ c.lock.owners, e.txn ≠ t) ∧ ∀ e ∈ c.lock.waiters, e.txn ≠ t

/-- The step of the engine is one the ledger can follow: a request does not have to wait for the
`CC_Lock`, and `endTransaction` finds a transaction that is finished or has nothing on its
ledger. -/
def undisturbed (C : Config N K T V) (s : State N K T V) (a : N × T × Act K) : Bool :=
  let x := s.node a.1
  match a.2.2, x.phase a.2.1 with
  | .access, .accessed k type _ => !frameworkWaits C a.2.1 k type x.framework
  | .postWait, .waiting k type => !frameworkWaits C a.2.1 k type x.framework
  | .endTransaction, _ =>
    (x.framework.txn a.2.1).finished || decide ((x.framework.txn a.2.1).locksDetained = [])
  | _, _ => true

/-- The framework was told of the end of the attempt, or the attempt has ended: the ledger is
empty. -/
def Phase.settled : Phase K → Bool
  | .idle | .committed | .told _ => true
  | _ => false

/-- The framework was told, and `endTransaction` is to come. -/
def Phase.isTold : Phase K → Bool
  | .told _ => true
  | _ => false

/-- What holds on a node when nothing has to wait. -/
structure NodeInv (x : Node K T V) : Prop where
  /-- the ledgers are exact -/
  inv : Inv .WAIT_DIE x.framework
  /-- settled transactions have an empty ledger -/
  settled : ∀ t, (x.phase t).settled = true → (x.framework.txn t).locksDetained = []
  /-- the framework knows who has reported -/
  reported : ∀ t, x.framework.reported t = (x.phase t).isTold
  /-- who has reported is finished -/
  finished : ∀ t, (x.phase t).isTold = true → (x.framework.txn t).finished = true

omit [DecidableEq N] in
theorem nodeInv_init (C : Config N K T V) (n : N) : NodeInv (Node.init C n) := by
  -- loading rows changes no transaction
  have hload : ∀ (ks : List K) {s : FrameworkLocks.State K T V}, Inv .WAIT_DIE s →
      Inv .WAIT_DIE (ks.foldl (fun s k => s.initContent k (C.row k)) s) ∧
        (ks.foldl (fun s k => s.initContent k (C.row k)) s).txn = s.txn ∧
        (ks.foldl (fun s k => s.initContent k (C.row k)) s).reported = s.reported := by
    intro ks
    induction ks with
    | nil => exact fun hs => ⟨hs, rfl, rfl⟩
    | cons k ks ih => exact fun hs => ih (hs.initContent k (C.row k))
  obtain ⟨hinv, htxn, hrep⟩ := hload (C.loaded n) (inv_init .WAIT_DIE)
  refine ⟨hinv, fun t _ => ?_, fun t => ?_, fun t h => by cases h⟩
  · rw [Node.init, htxn]
    rfl
  · rw [Node.init, hrep]
    rfl

/-- An empty ledger means that the transaction holds no `CC_Lock`, and nobody waits for one. -/
theorem NodeInv.clear (hx : NodeInv x) (ht : (x.phase t).settled = true) : x.Clear t := by
  intro k c hc
  refine ⟨fun e he hte => ?_, fun e he => absurd he ?_⟩
  · have hzero : x.framework.grants k t = 0 := by rw [hx.inv.ledger, hx.settled t ht]; rfl
    have hown : c.lock.owners = x.framework.held k := (hx.inv.locked.rep k c hc).listed (by decide)
    have := List.countP_eq_zero.mp hzero e (hown ▸ he)
    exact this (decide_eq_true hte)
  · simp [(hx.inv.locked.idle k c hc).1]

/-- A step that changes the phase of one transaction, and the ledger of none but it. -/
theorem NodeInv.update {x' : Node K T V} (hx : NodeInv x) {p : Phase K} {y : TransactionF K}
    (hinv : Inv .WAIT_DIE x'.framework) (htxn : x'.framework.txn = update x.framework.txn t y)
    (hrep : x'.framework.reported = update x.framework.reported t p.isTold)
    (hphase : x'.phase = update x.phase t p) (hself : p.settled = true → y.locksDetained = [])
    (hfin : p.isTold = true → y.finished = true) : NodeInv x' := by
  refine ⟨hinv, fun t' => ?_, fun t' => ?_, fun t' => ?_⟩
  · rw [htxn, hphase]
    rcases eq_or_ne t' t with rfl | hne
    · rw [update_self, update_self]
      exact hself
    · rw [update_of_ne hne, update_of_ne hne]
      exact hx.settled t'
  · rw [hrep, hphase]
    rcases eq_or_ne t' t with rfl | hne
    · rw [update_self, update_self]
    · rw [update_of_ne hne, update_of_ne hne]
      exact hx.reported t'
  · rw [htxn, hphase]
    rcases eq_or_ne t' t with rfl | hne
    · rw [update_self, update_self]
      exact hfin
    · rw [update_of_ne hne, update_of_ne hne]
      exact hx.finished t'

/-- A step of the engine alone, of a transaction that has not reported and does not end. -/
theorem NodeInv.engine {x' : Node K T V} (hx : NodeInv x) {p : Phase K}
    (hf : x'.framework = x.framework) (hphase : x'.phase = Function.update x.phase t p)
    (hold : (x.phase t).isTold = false) (hp : p.settled = false) (htold : p.isTold = false) :
    NodeInv x' := by
  refine hx.update (y := x.framework.txn t) (hf ▸ hx.inv) ?_ ?_ hphase (by simp [hp])
    (by simp [htold])
  · rw [hf, update_eq_self]
  · rw [hf, htold, ← hold, ← hx.reported t, update_eq_self]

omit [DecidableEq N] in
/-- A call of the framework for an access. -/
theorem NodeInv.access {x' : Node K T V} (hx : NodeInv x) {k : K} {type : AccessT} {p : Phase K}
    (hold : (x.phase t).isTold = false) (hw : frameworkWaits C t k type x.framework = false)
    (hp : p.settled = false) (htold : p.isTold = false)
    (hf : x'.framework = (x.called t p (frameworkAccess C t k type x.framework)).framework)
    (hphase : x'.phase = (x.called t p (frameworkAccess C t k type x.framework)).phase) :
    NodeInv x' := by
  have hr : x.framework.reported t = false := (hx.reported t).trans hold
  obtain ⟨f, heq, hinv, hrep, y, htxn, -⟩ := frameworkAccess_spec hx.inv hr hw
  rw [heq] at hf hphase
  refine hx.update (p := p) (y := y) (hf ▸ hinv) (hf ▸ htxn) ?_ hphase (by simp [hp])
    (by simp [htold])
  rw [hf, htold, ← hr, update_eq_self]
  exact hrep

/-- **One step on a node** keeps the ledgers exact, nobody waiting, and settled transactions without
entries. -/
theorem NodeInv.step {n : N} {several : Bool} {x' : Node K T V} {a : Act K} (hx : NodeInv x)
    (haccess : ∀ k type rc, a = .access → x.phase t = .accessed k type rc →
      frameworkWaits C t k type x.framework = false)
    (hpost : ∀ k type, a = .postWait → x.phase t = .waiting k type →
      frameworkWaits C t k type x.framework = false)
    (hend : a = .endTransaction →
      (x.framework.txn t).finished = true ∨ (x.framework.txn t).locksDetained = [])
    (h : x.step C n several t a = some x') : NodeInv x' := by
  cases a with (simp only [Node.step] at h; split at h <;> try cases h)
  | begin =>
    next hp => exact hx.engine rfl rfl (by rw [hp]; rfl) rfl rfl
  | getRow k type =>
    next hp => exact hx.engine rfl rfl (by rw [hp.1]; rfl) rfl rfl
  | finish e =>
    next hp =>
    refine hx.engine rfl rfl ?_ rfl rfl
    rcases hp.1 with hp | ⟨hp, -⟩ <;> rw [hp] <;> rfl
  | access =>
    next k type rc hp =>
    refine hx.access (by rw [hp]; rfl) (haccess k type rc rfl hp) ?_ ?_ rfl rfl
    · cases rc <;> rfl
    · cases rc <;> rfl
  | postWait =>
    next k type hp =>
    obtain ⟨-, h⟩ := ite_none_right_eq_some.mp h
    cases h
    exact hx.access (by rw [hp]; rfl) (hpost k type rfl hp) rfl rfl rfl rfl
  | releaseRow k =>
    obtain ⟨-, h⟩ := ite_none_right_eq_some.mp h
    obtain ⟨r, -, rfl⟩ := map_eq_some_iff.mp h
    exact ⟨hx.inv, hx.settled, hx.reported, hx.finished⟩
  | report =>
    next e hp =>
    obtain ⟨-, h⟩ := ite_none_right_eq_some.mp h
    obtain ⟨r, hr, rfl⟩ := map_eq_some_iff.mp h
    have hopen : x.framework.reported t = false := by rw [hx.reported, hp]; rfl
    obtain ⟨f, rfl, hinv, hrep, y, htxn, hnil, hfin⟩ := frameworkReport_spec hx.inv hopen hr
    exact hx.update (p := .told e) hinv htxn hrep rfl (fun _ => hnil) (fun _ => hfin)
  | endTransaction =>
    next e he =>
    obtain ⟨-, h⟩ := ite_none_right_eq_some.mp h
    cases h
    obtain ⟨f, heq, hinv, hrep, y, htxn, hnil⟩ := endTransaction_spec (C := C) hx.inv (hend rfl)
      fun hr => hx.finished t ((hx.reported t).symm.trans hr)
    rw [heq]
    have htold : (Ending.phase e : Phase K).isTold = false := by cases e <;> rfl
    exact hx.update (p := e.phase) hinv htxn (htold ▸ hrep) rfl (fun _ => hnil) (by simp [htold])

/-- Every node is as `NodeInv` says. -/
theorem nodes_step {s s' : State N K T V} {a : N × T × Act K}
    (hs : ∀ n, NodeInv (s.node n)) (hok : undisturbed C s a = true)
    (h : (machine C).step s a = some s') (n : N) : NodeInv (s'.node n) := by
  obtain ⟨m, t, act⟩ := a
  obtain ⟨-, h⟩ := ite_none_left_eq_some.mp h
  obtain ⟨x, hx, rfl⟩ := map_eq_some_iff.mp h
  show NodeInv (update s.node m x n)
  rcases eq_or_ne n m with rfl | hne
  · rw [update_self]
    refine (hs n).step ?_ ?_ ?_ hx
    · rintro k type rc rfl hp
      simpa [undisturbed, hp] using hok
    · rintro k type rfl hp
      simpa [undisturbed, hp] using hok
    · rintro rfl
      simpa [undisturbed] using hok
  · rw [update_of_ne hne]
    exact hs n

/-- **Framework locks end with the attempt**, in every run in which no request of the framework has
to wait and `endTransaction` always finds a transaction that is finished or has an empty ledger: a
transaction whose attempt has ended on a node is neither an owner nor a waiter of a `CC_Lock`
there. -/
theorem attempts_leave_nothing (C : Config N K T V) {s : State N K T V}
    (hs : (machine C).ReachableVia (fun s a => undisturbed C s a = true) s) (n : N) (t : T)
    (ht : ((s.node n).phase t).ended = true) : (s.node n).Clear t := by
  have hinv : ∀ n, NodeInv (s.node n) :=
    Machine.ReachableVia.invariant
      (nodeInv_init C) (fun _ _ _ _ hs hok h => nodes_step hs hok h) hs
  refine (hinv n).clear ?_
  cases hp : (s.node n).phase t <;> simp_all [Phase.ended, Phase.settled]

/-- Two nodes; transaction `t` starts on node `t % 2`, and its number is its timestamp. -/
def twoNodes : Config ℕ ℕ ℕ ℕ := ⟨fun t => t % 2, id, id, id, fun n => [n]⟩

/-- Transaction `2` writes one key on its home and one on the other node, and commits everywhere. -/
def committedEverywhere : List (ℕ × ℕ × Act ℕ) :=
  [(0, 2, .begin), (0, 2, .getRow 0 .WR), (0, 2, .access), (1, 2, .begin), (1, 2, .getRow 1 .WR),
    (1, 2, .access), (0, 2, .finish .commit), (0, 2, .releaseRow 0), (0, 2, .report),
    (1, 2, .finish .commit), (1, 2, .releaseRow 1), (1, 2, .report), (1, 2, .endTransaction),
    (0, 2, .endTransaction)]

theorem attempts_leave_nothing_committedEverywhere :
    ∃ s ∈ (machine twoNodes).run committedEverywhere,
      ((s.node 0).phase 2).ended = true ∧ (s.node 0).Clear 2 := by
  have hrun : ∃ s ∈ (machine twoNodes).run committedEverywhere,
      ((s.node 0).phase 2).ended = true := by decide +kernel
  have hok : (machine twoNodes).RunOk (fun s a => undisturbed twoNodes s a = true)
      (machine twoNodes).init committedEverywhere := by decide +kernel
  obtain ⟨s, hs, hend⟩ := hrun
  exact ⟨s, hs, hend, attempts_leave_nothing twoNodes (.of_run hok hs) 0 2 hend⟩

/-- Transaction `2` writes key `0` at home; on node `1` it meets the older transaction `1`, and
aborts. -/
def failedElsewhere : List (ℕ × ℕ × Act ℕ) :=
  [(1, 1, .begin), (1, 1, .getRow 1 .WR), (1, 1, .access), (0, 2, .begin), (0, 2, .getRow 0 .WR),
    (0, 2, .access), (1, 2, .begin), (1, 2, .getRow 1 .WR), (1, 2, .access),
    (0, 2, .finish .unreported), (0, 2, .releaseRow 0), (1, 2, .finish .abort), (1, 2, .report),
    (1, 2, .endTransaction), (0, 2, .endTransaction)]

/-- **Framework locks outlive the attempt.** A transaction whose remote access failed has ended its
attempt, and still owns the lock of its home: nobody has told the framework there. -/
theorem attempts_leave_locks :
    ∃ s ∈ (machine twoNodes).run failedElsewhere,
      ((s.node 0).phase 2).ended = true ∧ ¬ (s.node 0).Clear 2 := by
  have hrun : ∃ s ∈ (machine twoNodes).run failedElsewhere, ((s.node 0).phase 2).ended = true ∧
      ∃ c ∈ (s.node 0).framework.ccMap 0, (⟨.EX, 2⟩ : LockEntry ℕ) ∈ c.lock.owners := by
    decide +kernel
  obtain ⟨s, hs, hend, c, hc, howner⟩ := hrun
  exact ⟨s, hs, hend, fun h => (h 0 c hc).1 _ howner rfl⟩

end FrameworkAttempts

end Deneva
