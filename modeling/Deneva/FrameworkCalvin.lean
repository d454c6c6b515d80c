import Deneva.FrameworkLocks
import Deneva.FrameworkRegistry

/-!
# The framework under Calvin (`worker_thread.cpp`, `ycsb_txn.cpp`, `framework.cpp`)

With `CC_ALG` `CALVIN` a transaction is known by its `txn_id` and its `batch_id`. The scheduler
hands it to the workers of a node once its locks are granted; a worker runs `run_calvin_txn` (the
local reads, the wait for the reads of other nodes, the writes) and then `calvin_wrapup`. On the way
it calls `framework->getTransaction(txn_id)` in each `get_row` and `insert_row`, and again in
`calvin_wrapup`, before `endTransaction`.

Nobody registers the transaction, though. `WorkerThread::process` hands `CL_QRY` and `RTXN` to
`process_calvin_rtxn`, and not to `process_rtxn`, which alone calls `beginTransaction`; and
`addTransaction` is otherwise called for `REPLICATE` messages only, which `beginTransaction` alone
sends. A `getTransaction` that finds nothing sleeps and calls itself again, with the worker in it.

* What the worker of a transaction has reached on a node is its `Progress`; which operations it
  performs in the two phases is a parameter, and so is whether the node executes the writes.
* The scheduler may hand over any transaction at any time, and the reads of other nodes may arrive
  at any time: every order that sequencer and scheduler can produce is a run here.
* The lookups are a history, with the transaction that the object found was registered for.
-/

namespace Deneva

open Function Option

namespace FrameworkCalvin

open FrameworkLocks

/-- A transaction under Calvin. -/
structure Key where
  /-- `txn_id`; the sequencer starts again from the same ids in every batch -/
  txnId : ℕ
  batchId : ℕ
  deriving DecidableEq

/-- An operation of `run_calvin_txn` on the rows of its node. -/
inductive Op (K : Type) : Type where
  /-- `TxnManager::get_row` -/
  | getRow (k : K) (type : AccessT)
  /-- `TxnManager::insert_row` -/
  | insertRow (k : K)
  deriving DecidableEq

/-- The framework's access for an operation: only reads and writes have one. -/
def Op.access? {K : Type} : Op K → Option (K × AccessT)
  | .getRow k .RD => some (k, .RD)
  | .getRow k .WR => some (k, .WR)
  | .getRow _ _ => none
  | .insertRow k => some (k, .WR)

/-- The phases that access rows. -/
inductive Phase : Type where
  | LOC_RD | EXEC_WR
  deriving DecidableEq

/-- How far a transaction is on a node. -/
inductive Progress (K : Type) : Type where
  /-- not yet with the workers -/
  | pending
  /-- in the work queue -/
  | dispatched
  /-- in a phase, with the operations that are left -/
  | running (p : Phase) (rest : List (Op K))
  /-- in `get_row` or `insert_row`, at `getTransaction` -/
  | calling (p : Phase) (k : K) (type : AccessT) (rest : List (Op K))
  /-- waiting for the reads of other nodes -/
  | collecting
  /-- in `calvin_wrapup`, at `getTransaction` -/
  | wrapup
  /-- after `calvin_wrapup` -/
  | done
  /-- in a call of the lock manager that does not come back -/
  | stuck
  deriving DecidableEq

/-- What is fixed about the transactions on each node. -/
structure Config (K V : Type) where
  /-- the operations of `CALVIN_LOC_RD` -/
  localReads : ℕ → Key → List (Op K)
  /-- the operations of `CALVIN_EXEC_WR` -/
  execute : ℕ → Key → List (Op K)
  /-- `active_nodes` -/
  active : ℕ → Key → Bool
  /-- the row of a key -/
  row : K → V
  /-- the timestamps of the transaction objects -/
  timestampStartup : ℕ → ℕ

/-- One lookup in `mapOfTransactions`. -/
structure Lookup where
  /-- the transaction whose worker looks up its `txn_id` -/
  key : Key
  /-- the transaction that the object found was registered for -/
  found : Option Key
  deriving DecidableEq

/-- The frameworks of all nodes and the work on the transactions. -/
structure State (K V : Type) where
  /-- the transaction maps -/
  registry : FrameworkRegistry.State
  /-- the transaction that each entry of a map was registered for (a history) -/
  origin : ℕ → ℕ → Option Key
  /-- the lock managers -/
  locks : ℕ → FrameworkLocks.State K ℕ V
  /-- the work -/
  progress : ℕ → Key → Progress K
  /-- the lookups (a history) -/
  lookups : List Lookup

/-- What the threads do. -/
inductive Action (K : Type) : Type where
  /-- the scheduler hands a transaction to the workers of a node -/
  | schedule (node : ℕ) (x : Key)
  /-- a worker goes on with a transaction, up to its next call of `getTransaction` -/
  | work (node : ℕ) (x : Key)
  /-- a worker looks its transaction up, and goes on if it is there -/
  | getTransaction (node : ℕ) (x : Key)
  /-- a `REPLICATE` message is handled -/
  | get (message : FrameworkRegistry.MessageF)
  deriving DecidableEq

variable {K V : Type} [DecidableEq K]

namespace State

/-- Nothing has been scheduled. -/
def init : State K V := ⟨.init, fun _ _ => none, fun _ => .init, fun _ _ => .pending, []⟩

/-- New progress of a transaction on a node. -/
def setProgress (node : ℕ) (x : Key) (p : Progress K) (s : State K V) : State K V :=
  { s with progress := update s.progress node (update (s.progress node) x p) }

/-- `framework->read` or `framework->write`. -/
def access (C : Config K V) (txnId : ℕ) (k : K) (type : AccessT)
    (s : FrameworkLocks.State K ℕ V) : FrameworkLocks.State K ℕ V × Option Stop :=
  if type = .WR then s.frameworkWrite .CALVIN .SERIALIZABLE C.timestampStartup txnId k (C.row k)
  else s.read .CALVIN .SERIALIZABLE C.timestampStartup txnId k

/-- `FrameworkPessimisticDeneva::endTransaction`. -/
def endTransaction (C : Config K V) (txnId : ℕ) (s : FrameworkLocks.State K ℕ V) :
    FrameworkLocks.State K ℕ V × Option Stop :=
  if (s.txn txnId).finished then s.finish .CALVIN C.timestampStartup txnId else (s, none)

/-- A call of the lock manager of a node has ended: the transaction goes on, or it is stuck. -/
def called (node : ℕ) (x : Key) (p : Progress K)
    (r : FrameworkLocks.State K ℕ V × Option Stop) (s : State K V) : State K V :=
  { s with locks := update s.locks node (FrameworkLocks.State.close r) }.setProgress node x
    (if r.2 = none then p else .stuck)

/-- The transaction that the object for `txnId` on a node was registered for. -/
def lookup (node : ℕ) (x : Key) (s : State K V) : Option Key :=
  (s.registry.getTransaction node x.txnId).bind fun _ => s.origin node x.txnId

/-- The operations of a phase. -/
def ops (C : Config K V) (node : ℕ) (x : Key) : Phase → List (Op K)
  | .LOC_RD => C.localReads node x
  | .EXEC_WR => C.execute node x

/-- `run_calvin_txn`, step by step. -/
def work (C : Config K V) (node : ℕ) (x : Key) : Progress K → Option (Progress K)
  | .dispatched => some (.running .LOC_RD (ops C node x .LOC_RD))
  | .running p (op :: rest) =>
    match op.access? with
    | some (k, type) => some (.calling p k type rest)
    | none => some (.running p rest)
  -- `CALVIN_SERVE_RD`: a node without writes is done
  | .running .LOC_RD [] => some (if C.active node x then .collecting else .wrapup)
  | .collecting => some (.running .EXEC_WR (ops C node x .EXEC_WR))
  | .running .EXEC_WR [] => some .wrapup
  | _ => none

/-- The code after a `getTransaction` that has returned an object. -/
def resume (C : Config K V) (node : ℕ) (x : Key) (s : State K V) : Option (State K V) :=
  match s.progress node x with
  | .calling p k type rest =>
    some (s.called node x (.running p rest) (access C x.txnId k type (s.locks node)))
  | .wrapup => some (s.called node x .done (endTransaction C x.txnId (s.locks node)))
  | _ => none

/-- The worker of the transaction is at a call of `getTransaction`. -/
def calls (s : State K V) : Action K → Bool
  | .getTransaction node x =>
    match s.progress node x with
    | .calling .. | .wrapup => true
    | _ => false
  | _ => false

end State

/-- All nodes. -/
def machine (C : Config K V) : Machine (State K V) (Action K) where
  init := .init
  step s a :=
    match a with
    | .schedule node x =>
      if s.progress node x = .pending then some (s.setProgress node x .dispatched) else none
    | .work node x => (State.work C node x (s.progress node x)).map fun p => s.setProgress node x p
    | .getTransaction node x =>
      if s.calls (.getTransaction node x) then
        let s' := { s with lookups := s.lookups ++ [⟨x, s.lookup node x⟩] }
        match s.registry.getTransaction node x.txnId with
        -- `sleep`, and the call of itself: the worker stays where it is
        | none => some s'
        | some _ => s'.resume C node x
      else none
    | .get m =>
      if m ∈ s.registry.net then
        some { s with
          registry := { s.registry.addTransaction m.receiverNodeId m.transaction with
                        net := s.registry.net.erase m }
          origin := update s.origin m.receiverNodeId (update
            (s.origin m.receiverNodeId) m.transaction.id
            (s.origin m.transaction.nodeId m.transaction.id)) }
      else none

/-! ## The lookups find nothing -/

/-- **The lifecycle**: every lookup finds the object of its own transaction, and a transaction holds
no `CC_Lock` after `calvin_wrapup`. -/
structure State.Lawful (s : State K V) : Prop where
  /-- the lookups find the very transaction -/
  registered : ∀ l ∈ s.lookups, l.found = some l.key
  /-- after `calvin_wrapup` the transaction holds nothing -/
  released : ∀ node x, s.progress node x = .done → ∀ k, (s.locks node).grants k x.txnId = 0

/-- No node knows any transaction, and no message will tell it. -/
structure Unknown (s : State K V) : Prop where
  /-- the maps are empty -/
  map : ∀ node txnId, s.registry.getTransaction node txnId = none
  /-- no message is in flight -/
  net : s.registry.net = []

omit [DecidableEq K] in
theorem unknown_init : Unknown (State.init : State K V) := ⟨fun _ _ => rfl, rfl⟩

omit [DecidableEq K] in
theorem State.setProgress_self (s : State K V) (node : ℕ) (x : Key) (p : Progress K) :
    (s.setProgress node x p).progress node x = p := by
  simp [State.setProgress]

variable {node : ℕ} {x : Key} {s s' : State K V} {C : Config K V}

omit [DecidableEq K] in
theorem State.setProgress_ne (s : State K V) {node' : ℕ} {x' : Key} (p : Progress K)
    (h : ¬ (node' = node ∧ x' = x)) :
    (s.setProgress node x p).progress node' x' = s.progress node' x' := by
  rcases eq_or_ne node' node with rfl | hn
  · have hx : x' ≠ x := fun hx => h ⟨rfl, hx⟩
    simp [State.setProgress, hx]
  · simp [State.setProgress, hn]

omit [DecidableEq K] in
/-- A step that goes on with a transaction keeps the law, unless it ends the transaction. -/
theorem State.Lawful.setProgress (hs : s.Lawful)
    {p : Progress K} (hp : p ≠ .done) : (s.setProgress node x p).Lawful := by
  refine ⟨hs.registered, fun node' x' hdone => ?_⟩
  by_cases h : node' = node ∧ x' = x
  · obtain ⟨rfl, rfl⟩ := h
    rw [State.setProgress_self] at hdone
    exact absurd hdone hp
  · rw [State.setProgress_ne s p h] at hdone
    exact hs.released node' x' hdone

omit [DecidableEq K] in
/-- `run_calvin_txn` by itself never ends a transaction. -/
theorem State.work_ne_done {p p' : Progress K} (h : State.work C node x p = some p') :
    p' ≠ .done := by
  rintro rfl
  rw [State.work.eq_def] at h
  repeat' split at h
  all_goals cases h

/-- **What a step can do** while no transaction is known: it goes on with a transaction that is at
no call, or it is a lookup that finds nothing and leaves its worker where it is. -/
theorem step_cases {a : Action K} (hs : Unknown s) (h : (machine C).step s a = some s') :
    (s.calls a = false ∧ ∃ node x p, p ≠ .done ∧ s.calls (.getTransaction node x) = false ∧
        s' = s.setProgress node x p) ∨
      (s.calls a = true ∧ ∃ x, s' = { s with lookups := s.lookups ++ [⟨x, none⟩] }) := by
  cases a with
  | schedule node x =>
    obtain ⟨hp, h⟩ := ite_none_right_eq_some.mp h
    cases h
    exact .inl ⟨rfl, node, x, .dispatched, nofun, by simp [State.calls, hp], rfl⟩
  | work node x =>
    obtain ⟨p, hp, rfl⟩ := map_eq_some_iff.mp h
    refine .inl ⟨rfl, node, x, p, State.work_ne_done hp, ?_, rfl⟩
    cases hprog : s.progress node x <;> simp_all [State.calls, State.work]
  | getTransaction node x =>
    obtain ⟨hcalls, h⟩ := ite_none_right_eq_some.mp h
    rw [hs.map] at h
    cases h
    refine .inr ⟨hcalls, x, ?_⟩
    rw [State.lookup, hs.map]
    rfl
  | get m =>
    obtain ⟨hm, -⟩ := ite_none_right_eq_some.mp h
    rw [hs.net] at hm
    cases hm

theorem unknown_step {a : Action K} (hs : Unknown s) (h : (machine C).step s a = some s') :
    Unknown s' := by
  obtain ⟨-, node, x, p, -, -, rfl⟩ | ⟨-, x, rfl⟩ := step_cases hs h
  · exact ⟨hs.map, hs.net⟩
  · exact ⟨hs.map, hs.net⟩

/-- **The framework never knows a transaction** of Calvin, on any node. -/
theorem unknown_of_reachable (hs : (machine C).Reachable s) : Unknown s :=
  hs.invariant unknown_init fun _ _ _ hs h => unknown_step hs h

/-- **Under Calvin no transaction is ever known to the framework**, so the lifecycle is kept by a
run exactly as long as no worker calls `getTransaction`: the first call is one that does not come
back. -/
theorem calvin_lawful_iff (C : Config K V) (as : List (Action K)) :
    (∀ k, ∀ s ∈ (machine C).run (as.take k), s.Lawful) ↔
      (machine C).RunOk (fun s a => s.calls a = false) State.init as := by
  refine Machine.runFrom_iff_runOk_of_inv ?_ ?_ unknown_init
    ⟨fun _ h => absurd h List.not_mem_nil, nofun⟩ as
  · intro s a hI h
    cases a with
    | getTransaction node x =>
      cases hcalls : s.calls (.getTransaction node x) with
      | false => rfl
      | true => simp [machine, hcalls, hI.map] at h
    | schedule | work | get => rfl
  · intro s a s' hI hs h
    refine ⟨?_, fun _ => unknown_step hI h⟩
    obtain ⟨hcalls, node, x, p, hp, -, rfl⟩ | ⟨hcalls, x, rfl⟩ := step_cases hI h
    · exact iff_of_true (hs.setProgress hp) hcalls
    · refine iff_of_false (fun hlaw => ?_) (by simp [hcalls])
      have := hlaw.registered ⟨x, none⟩ (by simp)
      cases this

/-- **A worker at a call of `getTransaction` stays there for ever.** Under Calvin nothing registers
a transaction with the framework, in any run, so the search for its id does not end: whatever else
happens on the nodes, the worker makes no more progress with the transaction. -/
theorem worker_stuck (C : Config K V) (hs : (machine C).Reachable s)
    (hcalls : s.calls (.getTransaction node x) = true) {as : List (Action K)}
    (h : (machine C).runFrom s as = some s') : s'.progress node x = s.progress node x := by
  have hunknown := unknown_of_reachable hs
  induction as generalizing s with
  | nil => rw [some.inj h]
  | cons a as ih =>
    obtain ⟨s₁, hstep, hrest⟩ := Machine.runFrom_cons.mp h
    have hsame : s₁.progress node x = s.progress node x := by
      obtain ⟨-, node', x', p, -, hother, rfl⟩ | ⟨-, x', rfl⟩ := step_cases hunknown hstep
      · refine State.setProgress_ne s p ?_
        rintro ⟨rfl, rfl⟩
        rw [hcalls] at hother
        cases hother
      · rfl
    have hcalls₁ : s₁.calls (.getTransaction node x) = true := by
      rw [State.calls, hsame]
      exact hcalls
    rw [ih (hs.step hstep) hcalls₁ hrest (unknown_step hunknown hstep), hsame]

/-- One transaction that writes one key of node `0`. -/
def oneWrite : Config ℕ ℕ :=
  ⟨fun _ _ => [], fun _ _ => [.getRow 0 .WR], fun _ _ => true, id, id⟩

theorem worker_stuck_oneWrite :
    ∃ s ∈ (machine oneWrite).run (.schedule 0 ⟨7, 1⟩ :: List.replicate 4 (.work 0 ⟨7, 1⟩)),
      ∀ as, ∀ s' ∈ (machine oneWrite).runFrom s as, s'.progress 0 ⟨7, 1⟩ =
      .calling .EXEC_WR 0 .WR [] := by
  refine ⟨_, rfl, fun _ _ h => worker_stuck _ ?_ (by decide +kernel) h⟩
  exact @Machine.Reachable.of_run
    _ _ _ _ (.schedule 0 ⟨7, 1⟩ :: List.replicate 4 (.work 0 ⟨7, 1⟩)) rfl

/-- The transaction `(7, 1)` is scheduled, comes to its write, and looks itself up. -/
theorem calvin_unregistered :
    ∃ s ∈ (machine oneWrite).run
        [.schedule 0 ⟨7, 1⟩, .work 0 ⟨7, 1⟩, .work 0 ⟨7, 1⟩, .work 0 ⟨7, 1⟩, .work 0 ⟨7, 1⟩,
          .getTransaction 0 ⟨7, 1⟩],
      s.lookups = [⟨⟨7, 1⟩, none⟩] ∧ s.progress 0 ⟨7, 1⟩ = .calling .EXEC_WR 0 .WR [] := by
  decide +kernel

end FrameworkCalvin

end Deneva
