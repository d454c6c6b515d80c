import Deneva.Transition
import Deneva.LockTable
import Deneva.Serial

/-!
# Strict two-phase locking (`NO_WAIT` and `WAIT_DIE`)

Transactions run their programs against rows that are read and written in place
(`TxnManager::get_row`, `get_row_post_wait`, `cleanup`, `cleanup_row` in
`system/txn.cpp`, `row_t::get_row` and `return_row` in `storage/row.cpp`), with
`ROLL_BACK` on and isolation level `SERIALIZABLE`. Every latched section and every
single row operation is a step of its own (`machine`), so a run is an arbitrary
interleaving of

* `getRow`: `lock_get`, which grants, queues or refuses;
* `record`: a granted access is recorded, for a `WR` with a copy of the row in
  `orig_data`;
* `read` and `write` of a granted row;
* `commit` and `abort`: the start of `cleanup(RCOK)` and of `cleanup(Abort)`;
* `restore` and `release`: one row of the cleanup, in reverse access order;
* `finish`: the end of the attempt.

The main result says that, whenever no attempt is in progress, the rows hold what
the committed transactions produce one after another, in the order in which they
started `cleanup(RCOK)`, and read.
-/

namespace Deneva

universe u v w

open Function Option

namespace StrictTwoPhase

/-- `Access`: a recorded row access. -/
structure Access (R : Type u) (V : Type v) where
  /-- the row -/
  row : R
  /-- the access kind -/
  type : AccessT
  /-- `orig_data`: the content of the row before a `WR` -/
  origData : Option V

/-- Where a transaction is. -/
inductive Phase (R : Type u) (V : Type v) where
  /-- no attempt in progress -/
  | idle
  /-- its code runs -/
  | running (p : Prog R V)
  /-- `get_row` returned `WAIT` -/
  | waiting (r : R) (a : AccessT) (k : Prog R V)
  /-- the lock is granted, the access is not recorded yet -/
  | granted (r : R) (a : AccessT) (k : Prog R V)
  /-- inside `cleanup(rc)`; the flag says that the current row is restored -/
  | cleanup (rc : RC) (restored : Bool)
  /-- committed -/
  | committed

/-- A transaction: its phase, its accesses with the latest first, the values it read. -/
structure TxnState (R : Type u) (V : Type v) where
  /-- where it is -/
  phase : Phase R V
  accesses : List (Access R V)
  /-- the values read in this attempt, in order -/
  reads : List (R × V)

/-- The whole system. -/
structure State (R : Type u) (T : Type v) (V : Type w) where
  /-- the row locks -/
  table : LockTable R T
  /-- the row contents -/
  content : R → V
  /-- the transactions -/
  txn : T → TxnState R V
  /-- who started `cleanup(RCOK)`, in order, with the values it read -/
  commits : List (T × List (R × V))

/-- An attempt is in progress. -/
def TxnState.InProgress {R : Type u} {V : Type v} (x : TxnState R V) : Prop :=
  x.phase ≠ .idle ∧ x.phase ≠ .committed

/-- The continuation of a transaction that `restart_txn` wakes: `get_row_post_wait`. -/
def TxnState.resume {R : Type u} {V : Type v} (x : TxnState R V) : TxnState R V :=
  match x.phase with
  | .waiting r a k => ⟨.granted r a k, x.accesses, x.reads⟩
  | _ => x

/-- A step of a transaction. -/
inductive Action (T : Type v) where
  | begin (t : T) | getRow (t : T) | record (t : T) | read (t : T) | write (t : T)
  | commit (t : T) | abort (t : T) | restore (t : T) | release (t : T) | finish (t : T)

variable {R : Type u} {T : Type v} {V : Type w} [DecidableEq R] [DecidableEq T]

namespace State

/-- Replace the state of one transaction. -/
def setTxn (s : State R T V) (t : T) (x : TxnState R V) : State R T V :=
  { s with txn := update s.txn t x }

/-- A new attempt starts from a reset transaction manager. -/
def begin (prog : T → Prog R V) (s : State R T V) (t : T) : Option (State R T V) :=
  match (s.txn t).phase with
  | .idle => some { s.setTxn t ⟨.running (prog t), [], []⟩ with table := s.table.reset t }
  | _ => none

/-- `TxnManager::get_row` up to the answer of `row_t::get_row`. A row is accessed
at most once in an attempt. -/
def getRow (cc : LockAlg) (ts : T → ℕ) (s : State R T V) (t : T) : Option (State R T V) :=
  match (s.txn t).phase with
  | .running (.getRow r a k) =>
    if a = .XP ∨ r ∈ (s.txn t).accesses.map Access.row then none
    else
      let x := s.table.get cc ts r (lockOf a) t
      let phase := match x.1 with
        | .RCOK => Phase.granted r a k
        | .WAIT => Phase.waiting r a k
        | _ => Phase.cleanup .Abort false
      some { s.setTxn t ⟨phase, (s.txn t).accesses, (s.txn t).reads⟩ with table := x.2 }
  | _ => none

/-- The rest of `get_row` or of `get_row_post_wait`: the access is recorded, for a
`WR` with a copy of the row. -/
def record (s : State R T V) (t : T) : Option (State R T V) :=
  match (s.txn t).phase with
  | .granted r a k =>
    let acc := ⟨r, a, if a = .WR then some (s.content r) else none⟩
    some (s.setTxn t ⟨.running k, acc :: (s.txn t).accesses, (s.txn t).reads⟩)
  | _ => none

/-- Read a row in place. -/
def read (s : State R T V) (t : T) : Option (State R T V) :=
  match (s.txn t).phase with
  | .running (.read r k) =>
    if r ∈ (s.txn t).accesses.map Access.row then
      some (s.setTxn t ⟨.running (k (s.content r)), (s.txn t).accesses,
        (s.txn t).reads ++ [(r, s.content r)]⟩)
    else none
  | _ => none

/-- Write a row in place; it must have been accessed with `WR`. -/
def write (s : State R T V) (t : T) : Option (State R T V) :=
  match (s.txn t).phase with
  | .running (.write r f k) =>
    if (s.txn t).accesses.any fun acc => decide (acc.row = r ∧ acc.type = .WR) then
      some { s.setTxn t ⟨.running k, (s.txn t).accesses, (s.txn t).reads⟩ with
        content := update s.content r (f (s.content r)) }
    else none
  | _ => none

/-- `cleanup(RCOK)` starts when the code of the transaction is done. -/
def commit (s : State R T V) (t : T) : Option (State R T V) :=
  match (s.txn t).phase with
  | .running .done =>
    some { s.setTxn t ⟨.cleanup .RCOK false, (s.txn t).accesses, (s.txn t).reads⟩ with
      commits := s.commits ++ [(t, (s.txn t).reads)] }
  | _ => none

/-- `cleanup(Abort)` may start at any point of the code. -/
def abort (s : State R T V) (t : T) : Option (State R T V) :=
  match (s.txn t).phase with
  | .running _ => some (s.setTxn t ⟨.cleanup .Abort false, (s.txn t).accesses, (s.txn t).reads⟩)
  | _ => none

/-- The first half of `return_row` with `XP`: an aborted `WR` is undone from
`orig_data`. -/
def restore (s : State R T V) (t : T) : Option (State R T V) :=
  match (s.txn t).phase, (s.txn t).accesses with
  | .cleanup .Abort false, ⟨r, .WR, some v⟩ :: _ =>
    some { s.setTxn t ⟨.cleanup .Abort true, (s.txn t).accesses, (s.txn t).reads⟩ with
      content := update s.content r v }
  | _, _ => none

/-- `lock_release` of the latest access that is left; an aborted `WR` has to be
restored first. The transactions whose requests this grants are restarted. -/
def release (cc : LockAlg) (ts : T → ℕ) (s : State R T V) (t : T) : Option (State R T V) :=
  match (s.txn t).phase, (s.txn t).accesses with
  | .cleanup rc restored, acc :: rest =>
    if rc = .Abort ∧ acc.type = .WR ∧ restored = false then none
    else
      (s.table.release cc ts acc.row t).map fun x =>
        let txn := update s.txn t ⟨.cleanup rc false, rest, (s.txn t).reads⟩
        { s with table := x.1, txn := fun u => if u ∈ x.2 then (txn u).resume else txn u }
  | _, _ => none

/-- The cleanup is over: the attempt is committed, or may be made again. -/
def finish (s : State R T V) (t : T) : Option (State R T V) :=
  match (s.txn t).phase, (s.txn t).accesses with
  | .cleanup rc _, [] =>
    some (s.setTxn t ⟨if rc = .RCOK then .committed else .idle, [], (s.txn t).reads⟩)
  | _, _ => none

/-! ### What each step requires and does -/

section

variable {prog : T → Prog R V} {cc : LockAlg} {ts : T → ℕ} {s s' : State R T V} {t : T}

omit [DecidableEq R] in
theorem begin_inv (h : s.begin prog t = some s') : ∃ accs rd, s.txn t = ⟨.idle, accs, rd⟩ ∧
    s' = { s.setTxn t ⟨.running (prog t), [], []⟩ with table := s.table.reset t } := by
  unfold begin at h
  rcases htx : s.txn t with ⟨ph, accs, rd⟩
  simp only [htx] at h
  cases ph with
  | idle => exact ⟨accs, rd, rfl, (some.inj h).symm⟩
  | _ => cases h

/-- What a `getRow` that succeeds has done to the lock and to the transaction. -/
theorem getRow_inv (h : s.getRow cc ts t = some s') :
    ∃ r a k accs rd rc table, s.txn t = ⟨.running (.getRow r a k), accs, rd⟩ ∧ r ∉ accs.map
      Access.row ∧ s.table.get cc ts r (lockOf a) t = (rc, table) ∧ s' = { s.setTxn t ⟨match rc with
        | .RCOK => .granted r a k
        | .WAIT => .waiting r a k
        | _ => .cleanup .Abort false, accs, rd⟩ with table := table } := by
  unfold getRow at h
  rcases htx : s.txn t with ⟨ph, accs, rd⟩
  simp only [htx] at h
  split at h
  next r a k =>
    split at h
    · cases h
    next hnot =>
      rcases hg : s.table.get cc ts r (lockOf a) t with ⟨rc, table⟩
      simp only [hg] at h
      exact ⟨r, a, k, accs, rd, rc, table, rfl, fun hm => hnot (.inr hm), hg,
        (some.inj h).symm⟩
  · cases h

omit [DecidableEq R] in
theorem record_inv (h : s.record t = some s') : ∃ r a k accs rd,
    s.txn t = ⟨.granted r a k, accs, rd⟩ ∧ s' = s.setTxn t ⟨.running k,
      ⟨r, a, if a = .WR then some (s.content r) else none⟩ :: accs, rd⟩ := by
  unfold record at h
  rcases htx : s.txn t with ⟨ph, accs, rd⟩
  simp only [htx] at h
  cases ph with
  | granted r a k => exact ⟨r, a, k, accs, rd, rfl, (some.inj h).symm⟩
  | _ => cases h

theorem read_inv (h : s.read t = some s') : ∃ r k accs rd,
    s.txn t = ⟨.running (.read r k), accs, rd⟩ ∧ r ∈ accs.map Access.row ∧
      s' = s.setTxn t ⟨.running (k (s.content r)), accs, rd ++ [(r, s.content r)]⟩ := by
  unfold read at h
  rcases htx : s.txn t with ⟨ph, accs, rd⟩
  simp only [htx] at h
  split at h
  next r k =>
    split at h
    next hmem =>
      exact ⟨r, k, accs, rd, rfl, hmem, (some.inj h).symm⟩
    · cases h
  · cases h

theorem write_inv (h : s.write t = some s') : ∃ r f k accs rd,
    s.txn t = ⟨.running (.write r f k), accs, rd⟩ ∧
      (∃ acc ∈ accs, acc.row = r ∧ acc.type = .WR) ∧
      s' = { s.setTxn t ⟨.running k, accs, rd⟩ with
        content := update s.content r (f (s.content r)) } := by
  unfold write at h
  rcases htx : s.txn t with ⟨ph, accs, rd⟩
  simp only [htx] at h
  split at h
  next r f k =>
    split at h
    next hmem =>
      exact ⟨r, f, k, accs, rd, rfl, by simpa using hmem, (some.inj h).symm⟩
    · cases h
  · cases h

omit [DecidableEq R] in
theorem commit_inv (h : s.commit t = some s') : ∃ accs rd,
    s.txn t = ⟨.running .done, accs, rd⟩ ∧
      s' = { s.setTxn t ⟨.cleanup .RCOK false, accs, rd⟩ with
        commits := s.commits ++ [(t, rd)] } := by
  unfold commit at h
  rcases htx : s.txn t with ⟨ph, accs, rd⟩
  simp only [htx] at h
  split at h
  · exact ⟨accs, rd, rfl, (some.inj h).symm⟩
  · cases h

omit [DecidableEq R] in
theorem abort_inv (h : s.abort t = some s') : ∃ p accs rd,
    s.txn t = ⟨.running p, accs, rd⟩ ∧ s' = s.setTxn t ⟨.cleanup .Abort false, accs, rd⟩ := by
  unfold abort at h
  rcases htx : s.txn t with ⟨ph, accs, rd⟩
  simp only [htx] at h
  cases ph with
  | running p => exact ⟨p, accs, rd, rfl, (some.inj h).symm⟩
  | _ => cases h

theorem restore_inv (h : s.restore t = some s') : ∃ r v rest rd,
    s.txn t = ⟨.cleanup .Abort false, ⟨r, .WR, some v⟩ :: rest, rd⟩ ∧
      s' = { s.setTxn t ⟨.cleanup .Abort true, ⟨r, .WR, some v⟩ :: rest, rd⟩ with
        content := update s.content r v } := by
  unfold restore at h
  rcases htx : s.txn t with ⟨ph, accs, rd⟩
  simp only [htx] at h
  split at h
  · exact ⟨_, _, _, rd, rfl, (some.inj h).symm⟩
  · cases h

/-- What a release that succeeds has done to the lock and to the transaction. -/
theorem release_inv (h : s.release cc ts t = some s') : ∃ rc restored acc rest rd table woken,
    s.txn t = ⟨.cleanup rc restored, acc :: rest, rd⟩ ∧
      ¬ (rc = .Abort ∧ acc.type = .WR ∧ restored = false) ∧
      s.table.release cc ts acc.row t = some (table, woken) ∧
      s' = { s with
        table := table
        txn := fun u =>
          if u ∈ woken then (update s.txn t ⟨.cleanup rc false, rest, rd⟩ u).resume
          else update s.txn t ⟨.cleanup rc false, rest, rd⟩ u } := by
  unfold release at h
  rcases htx : s.txn t with ⟨ph, accs, rd⟩
  simp only [htx] at h
  split at h
  next rc restored acc rest =>
    split at h
    · cases h
    next hnot =>
      obtain ⟨⟨table, woken⟩, hrel, rfl⟩ := map_eq_some_iff.mp h
      exact ⟨rc, restored, acc, rest, rd, table, woken, rfl, hnot, hrel, rfl⟩
  · cases h

omit [DecidableEq R] in
theorem finish_inv (h : s.finish t = some s') : ∃ rc restored rd,
    s.txn t = ⟨.cleanup rc restored, [], rd⟩ ∧
      s' = s.setTxn t ⟨if rc = .RCOK then .committed else .idle, [], rd⟩ := by
  unfold finish at h
  rcases htx : s.txn t with ⟨ph, accs, rd⟩
  simp only [htx] at h
  split at h
  · exact ⟨_, _, rd, rfl, (some.inj h).symm⟩
  · cases h

end

end State

/-- All interleavings of the transactions with programs `prog`, from the contents
`S₀`. -/
def machine (cc : LockAlg) (ts : T → ℕ) (prog : T → Prog R V) (S₀ : R → V) :
    Machine (State R T V) (Action T) where
  init := ⟨LockTable.init, S₀, fun _ => ⟨.idle, [], []⟩, []⟩
  step s
    | .begin t => s.begin prog t
    | .getRow t => s.getRow cc ts t
    | .record t => s.record t
    | .read t => s.read t
    | .write t => s.write t
    | .commit t => s.commit t
    | .abort t => s.abort t
    | .restore t => s.restore t
    | .release t => s.release cc ts t
    | .finish t => s.finish t

end StrictTwoPhase

end Deneva
