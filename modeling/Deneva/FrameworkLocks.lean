import Deneva.RowLock
import Deneva.Transition

/-!
# The framework's locks (`utils/concurrencyLocks.cpp`, `concurrency_controller_locks.cpp`)

The framework keeps one `CC_Lock` per key, beside the locks of the engine. It is the row lock of
`Deneva.RowLock` once more, with the content of the key, but with a different owner: what a
transaction holds is written down in the list `locksDetained` of its `TransactionF`, and that list
is what `commit`, `abort` and `finish` walk to release.

* `CCLock` and `TransactionF` are the two objects. A request that has to wait calls `incr_lr`, which
  waits for the semaphore `rsp_mutex` of the transaction. No constructor initialises it, so the call
  does not come back, and it sleeps with the latch of the lock (`CCLock.latched`): nobody else gets
  past the latch either.
* Contents are objects, and `commitWrites` and `abortWrites` delete them. `State.heap` has the ones
  that are there; a call that uses a deleted one is undefined.
* `call` is one call of `ConcurrencyManagerLocks`. It comes back, or it stops for a reason (`Stop`).
  `machine` runs the calls of all transactions in any order.
* Beside the code's own state there are histories: the requests that hold each key (`NO_WAIT` only
  counts them), whether a `releaseControl` was ever executed for a transaction that holds nothing,
  and who has called `commit` or `abort` since its last `finish`.
-/

namespace Deneva

universe u v

open Function List Option

namespace FrameworkLocks

/-- `ISOLATION_LEVEL`: the values the lock manager branches on. -/
inductive IsolationLevel : Type where
  | SERIALIZABLE | READ_COMMITTED | READ_UNCOMMITTED
  deriving DecidableEq

/-- A read releases its lock at once: the `#if` of `read`. -/
def readEarly (iso : IsolationLevel) : Bool := iso = .READ_COMMITTED ∨ iso = .READ_UNCOMMITTED

/-- A write releases its lock at once: the `#if` of `write`. -/
def writeEarly (iso : IsolationLevel) : Bool := iso = .READ_UNCOMMITTED

/-- `CC_Lock::getOperationLock`. -/
def getOperationLock : AccessT → LockT
  | .RD => .SH
  | .WR => .EX
  | _ => .NONE

/-! ## The lock of a key -/

/-- How `getControl` ends: it answers, or it sleeps in `incr_lr` or at the latch. -/
inductive Control : Type where
  | granted | refused | blocked
  deriving DecidableEq

/-- Why a call does not come back. -/
inductive Stop : Type where
  /-- it sleeps, at a latch or at `rsp_mutex`; the others go on -/
  | blocked
  /-- an assertion has failed, or an exception is not caught: the process ends -/
  | died
  /-- it has used a content that was deleted -/
  | undefined
  deriving DecidableEq

/-- `CC_Lock`: two contents of a key, by pointers, and its lock. -/
structure CCLock (P : Type v) (T : Type u) : Type (max u v) where
  /-- the current content -/
  content : P
  /-- the content before the last write; not set before the first one -/
  previousContent : Option P
  /-- the mode, the owners and the waiters -/
  lock : RowLock T
  /-- a thread sleeps with the latch -/
  latched : Bool
  deriving DecidableEq

namespace CCLock

variable {P : Type v} {T : Type u}

/-- The constructor. -/
def init (p : P) : CCLock P T := ⟨p, none, .init, false⟩

/-- `CC_Lock::conflict_lock`. -/
def conflictLock : LockT → LockT → Bool
  | .NONE, _ | _, .NONE => false
  | .EX, _ | _, .EX => true
  | _, _ => false

variable (cc : LockAlg) (ts : T → ℕ)

/-- An entry joins the owners. -/
def own (entry : LockEntry T) (l : RowLock T) : RowLock T :=
  { l with
    owners := if cc = .NO_WAIT then l.owners else entry :: l.owners
    maxOwnerTs := if ts entry.txn > l.maxOwnerTs then ts entry.txn else l.maxOwnerTs
    ownerCnt := l.ownerCnt + 1
    lockType := entry.type }

/-- `CC_Lock::getControl`. Its assertion says that a lock with owners is joined in the shared mode
only, which `conflict_lock` has checked. -/
def getControl (operation : AccessT) (t : T) (c : CCLock P T) : Control × CCLock P T :=
  if c.latched then (.blocked, c)
  else
    let l := c.lock
    let entry : LockEntry T := ⟨getOperationLock operation, t⟩
    let conflict := conflictLock l.lockType entry.type
    let conflict :=
      if cc = .WAIT_DIE ∧ !conflict then l.waiters.head?.any fun head => ts t < ts head.txn
      else conflict
    let conflict := if cc = .CALVIN ∧ !conflict then l.waiters.head?.isSome else conflict
    if conflict then
      match cc with
      | .NO_WAIT => (.refused, c)
      | .WAIT_DIE =>
        let canwait := !l.owners.any fun en => ts t > ts en.txn
        -- `incr_lr` is called before the entry is put into the list
        if canwait then (.blocked, { c with latched := true }) else (.refused, c)
      | .CALVIN =>
        let waiters := l.waiters ++ [entry]
        (.blocked, { c with lock := { l with waiters, waiterCnt := l.waiterCnt + 1 }
                            latched := true })
    else (.granted, { c with lock := own cc ts entry l })

/-- `CC_Lock::write`, but for the write set of the transaction. -/
def write (t : T) (content1 : P) (c : CCLock P T) : Control × CCLock P T :=
  match c.getControl cc ts .WR t with
  | (.granted, c') => (.granted, { c' with previousContent := some c.content, content := content1 })
  | r => r

variable [DecidableEq T]

/-- The first part of `CC_Lock::releaseControl`. Unlike `Row_lock`, `NO_WAIT` checks nothing; the
others find their entry or run into `assert(false)`. -/
def dropOwner (t : T) (l : RowLock T) : Option (RowLock T) :=
  let left : Option (RowLock T) :=
    match cc with
    | .NO_WAIT => some { l with ownerCnt := if 0 < l.ownerCnt then l.ownerCnt - 1 else l.ownerCnt }
    | _ => (l.owners.findIdx? fun en => en.txn = t).map fun i =>
      { l with owners := l.owners.eraseIdx i, ownerCnt := l.ownerCnt - 1 }
  left.map fun l => { l with lockType := if l.ownerCnt = 0 then .NONE else l.lockType }

/-- `CC_Lock::releaseControl`, with the waiting requests that it makes owners. The first of them
ends it: `decr_lr` waits for `rsp_mutex` (or the assertion on `lockReady`, which nobody has set,
fails before it). -/
def releaseControl (t : T) (c : CCLock P T) : Option Stop × CCLock P T × List (LockEntry T) :=
  if c.latched then (some .blocked, c, [])
  else
    match dropOwner cc t c.lock with
    | none => (some .died, c, [])
    | some l =>
      match l.waiters with
      | [] => (none, { c with lock := l }, [])
      | entry :: waiters =>
        if conflictLock l.lockType entry.type then (none, { c with lock := l }, [])
        else
          let l' := own cc ts entry { l with waiters, waiterCnt := l.waiterCnt - 1 }
          (some .blocked, { c with lock := { l' with lockType := l.lockType }, latched := true },
            [entry])

end CCLock

/-! ## The manager of a node -/

/-- `Content`. -/
structure Content (K V : Type u) : Type u where
  /-- the key of the row -/
  key : K
  /-- the row -/
  value : V
  deriving DecidableEq

/-- `TransactionF`: the framework's transaction object on one node, with pointers to contents. -/
structure TransactionF (K : Type u) : Type u where
  readset : List ℕ
  writeset : List ℕ
  /-- `locksDetained`: the ledger -/
  locksDetained : List K
  /-- `finished`, which nothing ever clears -/
  finished : Bool
  deriving DecidableEq

namespace TransactionF

variable {K : Type u}

/-- The constructor. -/
def init : TransactionF K := ⟨[], [], [], false⟩

/-- `TransactionF::addToReadSet`, with the key that `getKey` finds in the content. -/
def addToReadSet (p : ℕ) (key : K) (x : TransactionF K) : TransactionF K :=
  { x with readset := x.readset ++ [p], locksDetained := x.locksDetained ++ [key] }

/-- `TransactionF::addToWriteSet`. -/
def addToWriteSet (p : ℕ) (key : K) (x : TransactionF K) : TransactionF K :=
  { x with writeset := x.writeset ++ [p], locksDetained := x.locksDetained ++ [key] }

/-- `TransactionF::clearLocksDetained`. -/
def clearLocksDetained (x : TransactionF K) : TransactionF K := { x with locksDetained := [] }

/-- `TransactionF::clearSets`. -/
def clearSets (x : TransactionF K) : TransactionF K := { x with readset := [], writeset := [] }

end TransactionF

/-- A node's `ConcurrencyManagerLocks`, the transactions it serves, and histories. -/
structure State (K T V : Type u) : Type u where
  /-- `concurrencyControlMap` -/
  ccMap : K → Option (CCLock ℕ T)
  /-- the contents, by their addresses -/
  heap : ℕ → Option (Content K V)
  /-- the next address; one that was deleted is not used again -/
  next : ℕ
  /-- the transaction objects -/
  txn : T → TransactionF K
  /-- the requests that hold each key (a history) -/
  held : K → List (LockEntry T)
  /-- a release was executed for a transaction that held nothing (a history) -/
  taken : Bool
  /-- the transaction has called `commit` or `abort` and not `finish` since (a history) -/
  reported : T → Bool
  /-- what has ended the process -/
  fault : Option Stop

/-- The calls of `ConcurrencyManagerLocks`. -/
inductive Action (K T V : Type u) : Type u where
  /-- a row is loaded -/
  | initContent (key : K) (row : V)
  | read (t : T) (key : K)
  | write (t : T) (key : K) (row : V)
  | commit (t : T)
  | abort (t : T)
  | finish (t : T)
  deriving DecidableEq

namespace State

variable {K T V : Type u}

/-- What comes after a call that has come back. -/
def andThen (r : State K T V × Option Stop) (f : State K T V → State K T V × Option Stop) :
    State K T V × Option Stop :=
  match r with
  | (s, none) => f s
  | r => r

/-- What a call leaves to the others: it may have ended the process. -/
def close : State K T V × Option Stop → State K T V
  | (s, none) | (s, some .blocked) => s
  | (s, some stop) => { s with fault := some stop }

/-- `Content::getKey`; a deleted content has none. -/
def getKey (p : ℕ) (s : State K T V) : Option K := (s.heap p).map Content.key

/-- `delete` of a content. -/
def delete (p : ℕ) (s : State K T V) : State K T V × Option Stop :=
  if (s.heap p).isSome then ({ s with heap := Function.update s.heap p none }, none)
  else (s, some .undefined)

variable [DecidableEq T]

/-- No rows, and fresh transactions. -/
def init : State K T V :=
  ⟨fun _ => none, fun _ => none, 0, fun _ => .init, fun _ => [], false, fun _ => false, none⟩

/-- The grants of a transaction on a key. -/
def grants (s : State K T V) (k : K) (t : T) : ℕ := (s.held k).countP fun e => e.txn = t

/-- A new value of a transaction object. -/
def setTxn (t : T) (x : TransactionF K) (s : State K T V) : State K T V :=
  { s with txn := Function.update s.txn t x }

/-- Whether a transaction has called `commit` or `abort`. -/
def report (t : T) (b : Bool) (s : State K T V) : State K T V :=
  { s with reported := Function.update s.reported t b }

variable [DecidableEq K] (cc : LockAlg) (iso : IsolationLevel) (ts : T → ℕ)

/-- `new Content`: its address is that of `next`. -/
def newContent (key : K) (row : V) (s : State K T V) : State K T V :=
  { s with heap := Function.update s.heap s.next (some ⟨key, row⟩), next := s.next + 1 }

/-- `ConcurrencyManagerLocks::initContent`; `insert` keeps an entry that is there. -/
def initContent (key : K) (row : V) (s : State K T V) : State K T V :=
  let c := (s.ccMap key).getD (.init s.next)
  { s.newContent key row with ccMap := Function.update s.ccMap key (some c) }

/-- `releaseControl` on the lock of a key, for a transaction. A key without a lock is skipped. -/
def releaseControl (t : T) (k : K) (s : State K T V) : State K T V × Option Stop :=
  match s.ccMap k with
  | none => (s, none)
  | some c =>
    let (stop, c', granted) := c.releaseControl cc ts t
    let s' : State K T V := { s with ccMap := Function.update s.ccMap k (some c') }
    -- nothing was released where the call did not get past the latch or has failed
    if c.latched ∨ stop = some .died then (s', stop)
    else ({ s' with
      held := Function.update s.held k (granted ++ (s.held k).eraseP fun e => e.txn = t)
      taken := s.taken || s.grants k t == 0 }, stop)

/-- The loop of `releaseLocks`. -/
def releaseAll (t : T) : List K → State K T V → State K T V × Option Stop
  | [], s => (s, none)
  | k :: ks, s => andThen (s.releaseControl cc ts t k) (releaseAll t ks)

/-- `ConcurrencyManagerLocks::releaseLocks`. -/
def releaseLocks (t : T) (s : State K T V) : State K T V × Option Stop :=
  andThen (s.releaseAll cc ts t (s.txn t).locksDetained) fun s =>
    (s.setTxn t (s.txn t).clearLocksDetained, none)

/-- What `read` and `write` share once `getControl` has ended with `r`: a granted access is noted,
and may be released again at once. -/
def access (early : Bool) (operation : AccessT) (t : T) (k : K) (r : Control × CCLock ℕ T)
    (note : TransactionF K → TransactionF K) (s : State K T V) : State K T V × Option Stop :=
  let s : State K T V := { s with ccMap := Function.update s.ccMap k (some r.2) }
  match r.1 with
  | .refused => (s, none)
  | .blocked => (s, some .blocked)
  | .granted =>
    let s : State K T V := { s.setTxn t (note (s.txn t)) with
      held := Function.update s.held k (⟨getOperationLock operation, t⟩ :: s.held k) }
    if early then s.releaseControl cc ts t k else (s, none)

/-- `ConcurrencyManagerLocks::read`. A missing key throws, and the framework catches that. -/
def read (t : T) (k : K) (s : State K T V) : State K T V × Option Stop :=
  match s.ccMap k with
  | none => (s, none)
  | some c =>
    let r := c.getControl cc ts .RD t
    match s.getKey c.content with
    | some key => s.access cc ts (readEarly iso) .RD t k r (·.addToReadSet c.content key)
    | none =>
      -- `addToReadSet` asks the content for its key
      if r.1 = .granted then (s, some .undefined) else s.access cc ts (readEarly iso) .RD t k r id

/-- `ConcurrencyManagerLocks::write`. -/
def write (t : T) (k : K) (row : V) (s : State K T V) : State K T V × Option Stop :=
  match s.ccMap k with
  | none => (s, none)
  | some c => (s.newContent k row).access cc ts (writeEarly iso) .WR t k
      (c.write cc ts t s.next) (·.addToWriteSet s.next k)

/-- `FrameworkPessimisticDeneva::write`: a key without a lock is added, and written once more. -/
def frameworkWrite (t : T) (k : K) (row : V) (s : State K T V) : State K T V × Option Stop :=
  if s.ccMap k = none then (s.initContent k row).write cc iso ts t k row
  else s.write cc iso ts t k row

/-- `CC_Lock::commitWrites` on the lock of a key: the content before is deleted. -/
def commitWrites (k : K) (s : State K T V) : State K T V × Option Stop :=
  match s.ccMap k with
  | none => (s, some .died)
  | some c => c.previousContent.elim (s, some .undefined) s.delete

/-- `CC_Lock::abortWrites` on the lock of a key: the content is deleted, and the one before takes
its place. -/
def abortWrites (k : K) (s : State K T V) : State K T V × Option Stop :=
  match s.ccMap k with
  | none => (s, some .died)
  | some c => andThen (s.delete c.content) fun s =>
    match c.previousContent with
    | none => (s, some .undefined)
    | some p => ({ s with ccMap := Function.update s.ccMap k (some { c with content := p }) }, none)

omit [DecidableEq T] [DecidableEq K] in
/-- The loop of `commit` and `abort` over the write set. -/
def settle (f : K → State K T V → State K T V × Option Stop) :
    List ℕ → State K T V → State K T V × Option Stop
  | [], s => (s, none)
  | p :: ps, s =>
    match s.getKey p with
    | none => (s, some .undefined)
    | some k => andThen (f k s) (settle f ps)

/-- What `ConcurrencyManagerLocks::commit` and `ConcurrencyManagerLocks::abort` share. -/
def endWith (f : K → State K T V → State K T V × Option Stop) (t : T) (s : State K T V) :
    State K T V × Option Stop :=
  andThen (settle f (s.txn t).writeset (s.report t true)) (releaseLocks cc ts t)

/-- `ConcurrencyManagerLocks::commit`. -/
def commit (t : T) (s : State K T V) : State K T V × Option Stop := s.endWith cc ts commitWrites t

/-- `ConcurrencyManagerLocks::abort`. -/
def abort (t : T) (s : State K T V) : State K T V × Option Stop := s.endWith cc ts abortWrites t

/-- `ConcurrencyManagerLocks::finish`. -/
def finish (t : T) (s : State K T V) : State K T V × Option Stop :=
  andThen (if (s.txn t).locksDetained = [] then (s, none) else s.releaseLocks cc ts t) fun s =>
    ((s.setTxn t (s.txn t).clearSets).report t false, none)

/-- One call, as far as it gets. -/
def call (s : State K T V) : Action K T V → State K T V × Option Stop
  | .initContent key row => (s.initContent key row, none)
  | .read t key => s.read cc iso ts t key
  | .write t key row => s.write cc iso ts t key row
  | .commit t => s.commit cc ts t
  | .abort t => s.abort cc ts t
  | .finish t => s.finish cc ts t

end State

variable {K T V : Type u} [DecidableEq K] [DecidableEq T]

/-- The calls of any number of transactions in any order, until the process ends. A call that sleeps
leaves what it has done to the others. -/
def machine (cc : LockAlg) (iso : IsolationLevel) (ts : T → ℕ) :
    Machine (State K T V) (Action K T V) where
  init := .init
  step s a := if s.fault = none then some (State.close (s.call cc iso ts a)) else none

/-! ## The ledger -/

/-- The ledger of every transaction is right: grants and entries agree, and nothing was ever
released on behalf of a transaction that held nothing. -/
structure State.Exact (cc : LockAlg) (s : State K T V) : Prop where
  /-- the lock of a key is a correct summary of the requests that hold the key -/
  rep : ∀ k c, s.ccMap k = some c → c.lock.Represents cc (s.held k)
  /-- a transaction has an entry for every grant, and no other entries -/
  ledger : ∀ k t, s.grants k t = (s.txn t).locksDetained.count k
  /-- no release was executed for a transaction without a grant -/
  taken : s.taken = false
  /-- no assertion has failed, and no deleted content was used -/
  fault : s.fault = none

/-- The mode that is asked for conflicts with the mode of the lock, and the algorithm lets the
request wait: `NO_WAIT` never, `WAIT_DIE` where no owner is older, `CALVIN` always. -/
def CCLock.mustWait {P : Type v} (cc : LockAlg) (ts : T → ℕ) (operation : AccessT) (t : T)
    (c : CCLock P T) : Bool :=
  conflictLock c.lock.lockType (getOperationLock operation) &&
    match cc with
    | .NO_WAIT => false
    | .WAIT_DIE => !c.lock.owners.any fun en => ts t > ts en.txn
    | .CALVIN => true

/-- An access that is not queued, and not given back at once: where the isolation level releases
early, the mode has to conflict, so that it is refused. -/
def CCLock.Orderly (cc : LockAlg) (ts : T → ℕ) (early : Bool) (operation : AccessT) (t : T)
    (c : CCLock ℕ T) : Prop :=
  c.mustWait cc ts operation t = false ∧
    (early = true → conflictLock c.lock.lockType (getOperationLock operation) = true)

instance (cc : LockAlg) (ts : T → ℕ) (early : Bool) (operation : AccessT) (t : T)
    (c : CCLock ℕ T) : Decidable (c.Orderly cc ts early operation t) :=
  inferInstanceAs (Decidable (_ ∧ _))

/-- The calls that keep the ledger exact: accesses are orderly, and a transaction that has called
`commit` or `abort` calls `finish` before anything else. -/
def Keeps (cc : LockAlg) (iso : IsolationLevel) (ts : T → ℕ) (s : State K T V) : Action K T V → Prop
  | .read t k => s.reported t = false ∧ ∀ c ∈ s.ccMap k, c.Orderly cc ts (readEarly iso) .RD t
  | .write t k _ => s.reported t = false ∧ ∀ c ∈ s.ccMap k, c.Orderly cc ts (writeEarly iso) .WR t
  | .commit t | .abort t => s.reported t = false
  | .initContent _ _ | .finish _ => True

instance (cc : LockAlg) (iso : IsolationLevel) (ts : T → ℕ) (s : State K T V) (a : Action K T V) :
    Decidable (Keeps cc iso ts s a) := by
  cases a <;> unfold Keeps <;> infer_instance

/-- The locks are sound: each is a correct summary of its holders, nobody waits or sleeps, and the
content of a key is there and has the key. -/
structure Locked (cc : LockAlg) (s : State K T V) : Prop where
  rep : ∀ k c, s.ccMap k = some c → c.lock.Represents cc (s.held k)
  absent : ∀ k, s.ccMap k = none → s.held k = []
  /-- nobody waits, and nobody sleeps with the latch -/
  idle : ∀ k c, s.ccMap k = some c → c.lock.waiters = [] ∧ c.latched = false
  /-- the content of a key is there -/
  live : ∀ k c, s.ccMap k = some c → s.getKey c.content = some k
  /-- nothing is at the addresses that are still to come -/
  fresh : ∀ p, s.next ≤ p → s.heap p = none
  taken : s.taken = false
  fault : s.fault = none

/-- A write of a transaction that is not settled yet: the content is the current one of a key, the
one before it is there too, and the transaction holds the key exclusively. -/
def State.Wrote (s : State K T V) (t : T) (p : ℕ) : Prop :=
  ∃ k c q, s.ccMap k = some c ∧ c.content = p ∧ c.previousContent = some q ∧ q ≠ p ∧
    s.getKey q = some k ∧ c.lock.lockType = .EX ∧ 0 < s.grants k t

/-- The write set of a transaction that has not settled it. -/
structure State.Unsettled (s : State K T V) (t : T) (ps : List ℕ) : Prop where
  nodup : ps.Nodup
  wrote : ∀ p ∈ ps, s.Wrote t p

/-- The write set of a transaction is unsettled as long as the transaction has not reported. -/
def State.Open (s : State K T V) (t : T) : Prop :=
  s.reported t = false → s.Unsettled t (s.txn t).writeset

/-- The ledgers are exact. -/
def State.Ledger (s : State K T V) : Prop :=
  ∀ k t, s.grants k t = (s.txn t).locksDetained.count k

open State

variable {cc : LockAlg} {iso : IsolationLevel} {ts : T → ℕ} {s s' : State K T V} {t t' : T}
  {k : K} {a : Action K T V} {c c' : CCLock ℕ T} {operation : AccessT} {H : List (LockEntry T)}
  {p : ℕ} {ps : List ℕ}

/-! ### One lock -/

omit [DecidableEq K] [DecidableEq T] in
theorem locked_init (cc : LockAlg) : Locked cc (init : State K T V) :=
  ⟨by simp [init], fun _ _ => rfl, by simp [init], by simp [init], fun _ _ => rfl, rfl, rfl⟩

theorem CCLock.conflictLock_eq (l1 l2 : LockT) :
    CCLock.conflictLock l1 l2 = Deneva.conflictLock l1 l2 := by
  cases l1 <;> cases l2 <;> rfl

omit [DecidableEq T] in
theorem CCLock.own_eq (entry : LockEntry T) (l : RowLock T) :
    CCLock.own cc ts entry l = l.grant cc ts entry := rfl

/-- Erasing the first entry of a transaction takes one of its grants. -/
theorem countP_eraseP (h : 0 < H.countP fun e => e.txn = t) (t' : T) :
    (H.eraseP fun e => e.txn = t).countP (fun e => e.txn = t') =
      H.countP (fun e => e.txn = t') - if t' = t then 1 else 0 := by
  obtain ⟨e, he, het⟩ := countP_pos_iff.mp h
  obtain ⟨a, l₁, l₂, -, ha, rfl, herase⟩ :=
    exists_of_eraseP (p := fun e => decide (e.txn = t)) he het
  have hat : a.txn = t := by simpa using ha
  rw [herase]
  by_cases heq : t' = t
  · simp [countP_append, hat, heq]
  · have hne : ¬ t = t' := fun h => heq h.symm
    simp [countP_append, hat, heq, hne]

/-- The part of `releaseControl` that the copy shares with `lock_release`. -/
theorem CCLock.dropOwner_eq {l : RowLock T} (h : 0 < l.ownerCnt) :
    CCLock.dropOwner cc t l = l.dropOwner cc t := by
  cases cc with
  | NO_WAIT => simp [CCLock.dropOwner, RowLock.dropOwner, h]
  | WAIT_DIE | CALVIN =>
    simp only [CCLock.dropOwner, RowLock.dropOwner]
    rw [eraseP_eq_eraseIdx]
    cases hi : l.owners.findIdx? fun en => en.txn = t with
    | none =>
      have hno : (l.owners.any fun en => decide (en.txn = t)) = false := by
        simpa using hi
      simp [hno]
    | some i =>
      have hany : (l.owners.any fun en => decide (en.txn = t)) = true := by
        rw [← findIdx?_isSome, hi]
        rfl
      simp [hany]

omit [DecidableEq T] in
/-- A request that does not have to wait is refused where the modes conflict, and granted
otherwise. -/
theorem CCLock.getControl_eq {P : Type v} {c : CCLock P T}
    (hi : c.lock.waiters = [] ∧ c.latched = false) (hm : c.mustWait cc ts operation t = false) :
    c.getControl cc ts operation t =
      if CCLock.conflictLock c.lock.lockType (getOperationLock operation) then (.refused, c)
      else (.granted, { c with lock := c.lock.grant cc ts ⟨getOperationLock operation, t⟩ }) := by
  cases hc : CCLock.conflictLock c.lock.lockType (getOperationLock operation) with
  | true =>
    simp only [mustWait, hc, Bool.true_and] at hm
    cases cc with
    | NO_WAIT => simp [getControl, hi.2, hc]
    | WAIT_DIE => simp [getControl, hi.2, hc, hm]
    | CALVIN => cases hm
  | false => simp [getControl, hi.1, hi.2, hc, own_eq]

omit [DecidableEq T] in
theorem CCLock.getControl_spec (hR : c.lock.Represents cc H)
    (hi : c.lock.waiters = [] ∧ c.latched = false) (hop : getOperationLock operation ≠ .NONE)
    (hm : c.mustWait cc ts operation t = false) :
    (CCLock.conflictLock c.lock.lockType (getOperationLock operation) = true ∧
      c.getControl cc ts operation t = (.refused, c)) ∨
    (CCLock.conflictLock c.lock.lockType (getOperationLock operation) = false ∧ ∃ l,
      c.getControl cc ts operation t = (.granted, { c with lock := l }) ∧ l.waiters = [] ∧
      l.lockType = getOperationLock operation ∧
      l.Represents cc (⟨getOperationLock operation, t⟩ :: H)) := by
  rw [getControl_eq hi hm]
  cases hc : CCLock.conflictLock c.lock.lockType (getOperationLock operation) with
  | true => exact .inl ⟨rfl, if_pos rfl⟩
  | false =>
    exact .inr ⟨rfl, _, if_neg Bool.false_ne_true, hi.1, rfl,
      (hR.grant ts ⟨_, t⟩ hop ((conflictLock_eq _ _).symm.trans hc)).1⟩

/-- A release where nobody waits: what `dropOwner` leaves. -/
theorem CCLock.releaseControl_eq {P : Type v} {c : CCLock P T} {l : RowLock T} (ts : T → ℕ)
    (hl : c.latched = false) (hcnt : 0 < c.lock.ownerCnt) (hdrop : c.lock.dropOwner cc t = some l)
    (hw : l.waiters = []) : c.releaseControl cc ts t = (none, { c with lock := l }, []) := by
  simp [releaseControl, hl, dropOwner_eq hcnt, hdrop, hw]

/-- A holder leaves a lock that nobody waits for. -/
theorem CCLock.releaseControl_spec (ts : T → ℕ) (hR : c.lock.Represents cc H)
    (hi : c.lock.waiters = [] ∧ c.latched = false) (hmem : 0 < H.countP fun e => e.txn = t) :
    ∃ l, c.releaseControl cc ts t = (none, { c with lock := l }, []) ∧ l.waiters = [] ∧
      l.Represents cc (H.eraseP fun e => e.txn = t) := by
  obtain ⟨e, he, het⟩ := countP_pos_iff.mp hmem
  have hcnt : 0 < c.lock.ownerCnt := by
    rw [hR.count]
    exact length_pos_of_mem he
  obtain ⟨l, hdrop, hw, hR'⟩ := RowLock.dropOwner_spec hR ⟨e, he, of_decide_eq_true het⟩
  have hw' : l.waiters = [] := hw.trans hi.1
  exact ⟨l, releaseControl_eq ts hi.2 hcnt hdrop hw', hw', hR'⟩

/-! ### One key -/

omit [DecidableEq T] in
/-- An operation on the lock of one key leaves the locks sound if it leaves that lock sound, and
the contents of the other keys. -/
theorem Locked.update (hs : Locked cc s) (hmap : s'.ccMap = Function.update s.ccMap k (some c))
    (hheld : s'.held = Function.update s.held k H) (hR : c.lock.Represents cc H)
    (hi : c.lock.waiters = [] ∧ c.latched = false) (hlive : s'.getKey c.content = some k)
    (hkey : ∀ p k', k' ≠ k → s.getKey p = some k' → s'.getKey p = some k')
    (hfresh : ∀ p, s'.next ≤ p → s'.heap p = none) (ht : s'.taken = s.taken)
    (hf : s'.fault = s.fault) : Locked cc s' := by
  -- the lock of a key is the new one, or an old one of another key
  have hcases : ∀ k' c', s'.ccMap k' = some c' →
      (k' = k ∧ c' = c) ∨ (k' ≠ k ∧ s.ccMap k' = some c') := by
    intro k' c' h
    rw [hmap] at h
    rcases eq_or_ne k' k with rfl | hne
    · rw [update_self] at h
      exact .inl ⟨rfl, (some.inj h).symm⟩
    · rw [update_of_ne hne] at h
      exact .inr ⟨hne, h⟩
  refine ⟨?_, ?_, ?_, ?_, hfresh, ht.trans hs.taken, hf.trans hs.fault⟩
  · intro k' c' h
    rcases hcases k' c' h with ⟨rfl, rfl⟩ | ⟨hne, h⟩
    · rw [hheld, update_self]
      exact hR
    · rw [hheld, update_of_ne hne]
      exact hs.rep k' c' h
  · intro k' h
    rw [hmap] at h
    rcases eq_or_ne k' k with rfl | hne
    · simp at h
    · rw [update_of_ne hne] at h
      rw [hheld, update_of_ne hne]
      exact hs.absent k' h
  · intro k' c' h
    rcases hcases k' c' h with ⟨-, rfl⟩ | ⟨-, h⟩
    · exact hi
    · exact hs.idle k' c' h
  · intro k' c' h
    rcases hcases k' c' h with ⟨rfl, rfl⟩ | ⟨hne, h⟩
    · exact hlive
    · exact hkey _ _ hne (hs.live k' c' h)

/-- An operation on the lock of one key leaves the writes of the other keys unsettled. -/
theorem State.Wrote.update (hw : s.Wrote t p) (hmap : s'.ccMap = Function.update s.ccMap k (some c))
    (hheld : s'.held = Function.update s.held k H)
    (hkey : ∀ p k', k' ≠ k → s.getKey p = some k' → s'.getKey p = some k')
    (hne : ∀ c, s.ccMap k = some c → c.content = p → c.lock.lockType = .EX → s.grants k t = 0) :
    s'.Wrote t p := by
  obtain ⟨k', c', q, hc, hp, hq, hqp, hqk, hex, hpos⟩ := hw
  have hk : k' ≠ k := by
    rintro rfl
    have := hne c' hc hp hex
    omega
  refine ⟨k', c', q, ?_, hp, hq, hqp, hkey _ _ hk hqk, hex, ?_⟩
  · rw [hmap, update_of_ne hk, hc]
  · rw [grants, hheld, update_of_ne hk]
    exact hpos

omit [DecidableEq K] in
/-- A transaction is open as before if its writes are unsettled as before. -/
theorem State.Open.frame (ho : s.Open t) (htxn : (s'.txn t).writeset = (s.txn t).writeset)
    (hrep : s'.reported t = s.reported t)
    (hw : ∀ p, s.reported t = false → s.Wrote t p → s'.Wrote t p) : s'.Open t := by
  intro hr
  rw [hrep] at hr
  have hu := ho hr
  rw [htxn]
  exact ⟨hu.nodup, fun p hp => hw p hr (hu.wrote p hp)⟩

omit [DecidableEq K] in
/-- An exclusive lock has one holder. -/
theorem Locked.grants_eq_zero (hs : Locked cc s) (hc : s.ccMap k = some c)
    (hex : c.lock.lockType = .EX) (hpos : 0 < s.grants k t) (hne : t' ≠ t) : s.grants k t' = 0 := by
  have hlen := (hs.rep k c hc).excl hex
  have hle : s.grants k t ≤ (s.held k).length := countP_le_length
  obtain ⟨e, he⟩ : ∃ e, s.held k = [e] := length_eq_one_iff.mp (by omega)
  simp only [grants, he, countP_singleton] at hpos ⊢
  grind

/-! ### Releases -/

/-- What a release on behalf of a transaction leaves alone. -/
structure Left (t : T) (s s' : State K T V) : Prop where
  txn : s'.txn = s.txn
  reported : s'.reported = s.reported
  opens : ∀ t' ≠ t, s.Open t' → s'.Open t'

/-- A transaction with a grant on a key gives one grant back. -/
theorem Locked.releaseControl (ts : T → ℕ) (hs : Locked cc s) (hpos : 0 < s.grants k t) :
    ∃ s', s.releaseControl cc ts t k = (s', none) ∧ Locked cc s' ∧ Left t s s' ∧
      ∀ k' t', s'.grants k' t' = s.grants k' t' - if k' = k ∧ t' = t then 1 else 0 := by
  obtain ⟨c, hc⟩ : ∃ c, s.ccMap k = some c := by
    cases hc : s.ccMap k with
    | none => simp [grants, hs.absent k hc] at hpos
    | some c => exact ⟨c, rfl⟩
  obtain ⟨l, hrel, hw, hR⟩ :=
    CCLock.releaseControl_spec ts (hs.rep k c hc) (hs.idle k c hc) hpos
  have hzero : (s.grants k t == 0) = false := by simpa using hpos.ne'
  refine ⟨{ s with
    ccMap := Function.update s.ccMap k (some { c with lock := l })
    held := Function.update s.held k ((s.held k).eraseP fun e => e.txn = t) }, ?_, ?_, ?_, ?_⟩
  · simp [State.releaseControl, hc, hrel, (hs.idle k c hc).2, hzero]
  · exact hs.update (k := k) rfl rfl hR ⟨hw, (hs.idle k c hc).2⟩ (hs.live k c hc)
      (fun _ _ _ h => h) hs.fresh rfl rfl
  · refine ⟨rfl, rfl, fun t' hne ho => ho.frame rfl rfl fun p _ hp => ?_⟩
    refine hp.update (k := k) rfl rfl (fun _ _ _ h => h) fun c' hc' _ hex => ?_
    exact hs.grants_eq_zero hc' hex hpos hne
  · intro k' t'
    rcases eq_or_ne k' k with rfl | hne
    · simp only [grants, update_self, true_and]
      exact countP_eraseP hpos t'
    · simp [grants, hne]

/-- A transaction whose ledger promises no more than it holds gives it all back. -/
theorem Locked.releaseAll (ts : T → ℕ) (ks : List K) :
    ∀ {s : State K T V}, Locked cc s → (∀ k, ks.count k ≤ s.grants k t) →
      ∃ s', s.releaseAll cc ts t ks = (s', none) ∧ Locked cc s' ∧ Left t s s' ∧
        ∀ k' t', s'.grants k' t' = s.grants k' t' - if t' = t then ks.count k' else 0 := by
  -- along the list; the grants that are left cover the entries that are left
  induction ks with
  | nil =>
    intro s hs _
    exact ⟨s, rfl, hs, ⟨rfl, rfl, fun _ _ h => h⟩, by simp⟩
  | cons k ks ih =>
    intro s hs hle
    have hpos : 0 < s.grants k t := by
      have := hle k
      simp only [count_cons_self] at this
      omega
    obtain ⟨s₁, h₁, hs₁, hl₁, hg₁⟩ := hs.releaseControl ts hpos
    have hle₁ : ∀ k', ks.count k' ≤ s₁.grants k' t := by
      intro k'
      have := hle k'
      rw [hg₁, count_cons] at *
      grind
    obtain ⟨s₂, h₂, hs₂, hl₂, hg₂⟩ := ih hs₁ hle₁
    refine ⟨s₂, ?_, hs₂, ⟨hl₂.txn.trans hl₁.txn, hl₂.reported.trans hl₁.reported,
      fun t' hne ho => hl₂.opens t' hne (hl₁.opens t' hne ho)⟩, ?_⟩
    · rw [State.releaseAll, h₁]
      exact h₂
    · intro k' t'
      rw [hg₂, hg₁, count_cons]
      grind

omit [DecidableEq K] in
@[simp] theorem State.setTxn_self (x : TransactionF K) : (s.setTxn t x).txn t = x := update_self ..

omit [DecidableEq K] in
theorem State.setTxn_ne (x : TransactionF K) (h : t' ≠ t) : (s.setTxn t x).txn t' = s.txn t' :=
  update_of_ne h ..

omit [DecidableEq K] in
theorem Locked.setTxn (hs : Locked cc s) (t : T) (x : TransactionF K) : Locked cc (s.setTxn t x) :=
  ⟨hs.rep, hs.absent, hs.idle, hs.live, hs.fresh, hs.taken, hs.fault⟩

omit [DecidableEq K] in
theorem Locked.report (hs : Locked cc s) (t : T) (b : Bool) : Locked cc (s.report t b) :=
  ⟨hs.rep, hs.absent, hs.idle, hs.live, hs.fresh, hs.taken, hs.fault⟩

theorem State.Ledger.setTxn (hl : s.Ledger) {x : TransactionF K}
    (hx : x.locksDetained = (s.txn t).locksDetained) : (s.setTxn t x).Ledger := by
  intro k t'
  rcases eq_or_ne t' t with rfl | hne
  · rw [setTxn_self, hx]
    exact hl k t'
  · rw [setTxn_ne x hne]
    exact hl k t'

/-- `releaseLocks` gives back what an exact ledger lists. -/
theorem Locked.releaseLocks (ts : T → ℕ) (hs : Locked cc s) (hl : s.Ledger) (t : T) :
    ∃ s', s.releaseLocks cc ts t = (s', none) ∧ Locked cc s' ∧ s'.Ledger ∧
      s'.txn = Function.update s.txn t (s.txn t).clearLocksDetained ∧
      s'.reported = s.reported ∧ ∀ t' ≠ t, s.Open t' → s'.Open t' := by
  obtain ⟨s₁, h₁, hs₁, hleft, hg⟩ :=
    Locked.releaseAll (t := t) ts (s.txn t).locksDetained hs fun k => (hl k t).ge
  refine ⟨s₁.setTxn t (s₁.txn t).clearLocksDetained, ?_, hs₁.setTxn .., ?_, ?_, hleft.reported, ?_⟩
  · rw [State.releaseLocks, h₁]
    rfl
  · intro k' t'
    have hgrants : s₁.grants k' t' = _ := hg k' t'
    change s₁.grants k' t' = _
    rcases eq_or_ne t' t with rfl | hne
    · rw [hgrants, if_pos rfl, hl k' t', setTxn_self, TransactionF.clearLocksDetained]
      simp
    · rw [hgrants, if_neg hne, setTxn_ne _ hne, hleft.txn]
      exact hl k' t'
  · rw [State.setTxn, hleft.txn]
  · intro t' hne ho
    exact (hleft.opens t' hne ho).frame (by rw [setTxn_ne _ hne]) rfl fun _ _ h => h

/-! ### Accesses -/

theorem getOperationLock_ne_none (hop : operation = .RD ∨ operation = .WR) :
    getOperationLock operation ≠ .NONE := by
  rcases hop with rfl | rfl <;> simp [getOperationLock]

/-- The states in which the locks are sound, the ledgers exact and the open write sets unsettled. -/
structure Inv (cc : LockAlg) (s : State K T V) : Prop where
  locked : Locked cc s
  ledger : s.Ledger
  opens : ∀ t, s.Open t

omit [DecidableEq K] [DecidableEq T] in
/-- A new content is at an address where there was none. -/
theorem Locked.getKey_newContent (hs : Locked cc s) (row : V) {q : ℕ} {k' : K}
    (h : s.getKey q = some k') : (s.newContent k row).getKey q = some k' := by
  have hne : q ≠ s.next := by
    rintro rfl
    simp [getKey, hs.fresh s.next le_rfl] at h
  simp only [getKey, newContent, update_of_ne hne]
  exact h

omit [DecidableEq K] [DecidableEq T] in
theorem Locked.newContent (hs : Locked cc s) (k : K) (row : V) : Locked cc (s.newContent k row) :=
  ⟨hs.rep, hs.absent, hs.idle, fun k' c h => hs.getKey_newContent row (hs.live k' c h), by
    intro q hq
    have hne : q ≠ s.next := by
      rintro rfl
      exact absurd hq (by simp [State.newContent])
    simp only [State.newContent, update_of_ne hne]
    exact hs.fresh q (by simp only [State.newContent] at hq; omega), hs.taken, hs.fault⟩

theorem Inv.newContent (hs : Inv cc s) (k : K) (row : V) : Inv cc (s.newContent k row) := by
  refine ⟨hs.locked.newContent k row, hs.ledger, fun t => (hs.opens t).frame rfl rfl ?_⟩
  rintro p - ⟨k', c, q, hc, hp, hq, hne, hk, hex, hpos⟩
  exact ⟨k', c, q, hc, hp, hq, hne, hs.locked.getKey_newContent row hk, hex, hpos⟩

/-- A granted access: the lock of the key and the transaction have new values. The content of the
key stays, or it is a new one, which the write set gets. -/
theorem Inv.granted (hs : Inv cc s) (c' : CCLock ℕ T) (hc : s.ccMap k = some c)
    (hr : s.reported t = false) (hfree : c.lock.lockType ≠ .EX) {type : LockT}
    (hR : c'.lock.Represents cc (⟨type, t⟩ :: s.held k))
    (hi : c'.lock.waiters = [] ∧ c'.latched = false) (hlive : s.getKey c'.content = some k)
    {x : TransactionF K} (hx : x.locksDetained = (s.txn t).locksDetained ++ [k])
    (hws : x.writeset = (s.txn t).writeset ∨ (x.writeset = (s.txn t).writeset ++ [c'.content] ∧
      c'.previousContent = some c.content ∧ c.content ≠ c'.content ∧ c'.lock.lockType = .EX ∧
      c'.content ∉ (s.txn t).writeset)) :
    Inv cc { s.setTxn t x with
      ccMap := Function.update s.ccMap k (some c')
      held := Function.update s.held k (⟨type, t⟩ :: s.held k) } := by
  set s' : State K T V := { s.setTxn t x with
    ccMap := Function.update s.ccMap k (some c')
    held := Function.update s.held k (⟨type, t⟩ :: s.held k) } with hs'
  -- nobody held the key exclusively, so all writes there are on other keys
  have hwrote : ∀ t' p, s.Wrote t' p → s'.Wrote t' p := fun t' p hp =>
    hp.update (k := k) rfl rfl (fun _ _ _ h => h) fun c₁ hc₁ _ hex =>
      absurd hex (some.inj (hc.symm.trans hc₁) ▸ hfree)
  have hgr : 0 < s'.grants k t := by simp [hs', grants]
  refine ⟨hs.locked.update (k := k) rfl rfl hR hi hlive (fun _ _ _ h => h) hs.locked.fresh rfl rfl,
    ?_, ?_⟩
  · intro k' t'
    have hl := hs.ledger k' t'
    rcases eq_or_ne t' t with rfl | hne
    · rcases eq_or_ne k' k with rfl | hk
      · simp only [hs', setTxn_self, hx, count_append, count_singleton_self, ← hl]
        simp [grants]
      · simp only [hs', setTxn_self, hx, count_append, ← hl, count_singleton]
        simp [grants, hk, hk.symm]
    · rw [show s'.txn t' = s.txn t' from setTxn_ne x hne, ← hl]
      rcases eq_or_ne k' k with rfl | hk
      · simp [hs', grants, hne.symm]
      · simp [hs', grants, hk]
  · intro t'
    rcases eq_or_ne t' t with rfl | hne
    · intro _
      have hu := hs.opens t' hr
      rw [show s'.txn t' = x from setTxn_self x]
      rcases hws with hws | ⟨hws, hprev, hqp, hex, hnew⟩
      · rw [hws]
        exact ⟨hu.nodup, fun p hp => hwrote t' p (hu.wrote p hp)⟩
      · rw [hws]
        refine ⟨hu.nodup.append (nodup_singleton _) (by simpa using hnew), fun p hp => ?_⟩
        rcases mem_append.mp hp with hp | hp
        · exact hwrote t' p (hu.wrote p hp)
        · obtain rfl := mem_singleton.mp hp
          exact ⟨k, c', c.content, by simp [hs'], rfl, hprev, hqp, hs.locked.live k c hc, hex, hgr⟩
    · exact (hs.opens t').frame (by rw [show s'.txn t' = s.txn t' from setTxn_ne x hne]) rfl
        fun p _ hp => hwrote t' p hp

/-- A mode that can be joined is not the exclusive one. -/
theorem CCLock.lockType_ne_ex {l : LockT} (hop : getOperationLock operation ≠ .NONE)
    (h : CCLock.conflictLock l (getOperationLock operation) = false) : l ≠ .EX := by
  rintro rfl
  cases ho : getOperationLock operation <;> simp_all [CCLock.conflictLock]

/-- What an access changes besides the locks: the object of its transaction, which stays as
unfinished as it was. -/
def Noted (t : T) (s s' : State K T V) : Prop :=
  s'.reported = s.reported ∧
    ∃ x, s'.txn = Function.update s.txn t x ∧ x.finished = (s.txn t).finished

omit [DecidableEq K] in
theorem Noted.refl (t : T) (s : State K T V) : Noted t s s :=
  ⟨rfl, s.txn t, (update_eq_self ..).symm, rfl⟩

theorem Inv.read (iso : IsolationLevel) (hs : Inv cc s) (hr : s.reported t = false)
    (ho : ∀ c ∈ s.ccMap k, c.Orderly cc ts (readEarly iso) .RD t) :
    ∃ s', s.read cc iso ts t k = (s', none) ∧ Inv cc s' ∧ Noted t s s' := by
  cases hc : s.ccMap k with
  | none => exact ⟨s, by simp [State.read, hc], hs, .refl t s⟩
  | some c =>
    have hlive := hs.locked.live k c hc
    have hi := hs.locked.idle k c hc
    obtain ⟨hm, hearly⟩ := ho c hc
    have hop : getOperationLock .RD ≠ .NONE := getOperationLock_ne_none (.inl rfl)
    rcases CCLock.getControl_spec (hs.locked.rep k c hc) hi hop hm with
      ⟨-, hget⟩ | ⟨hcf, l, hget, hw, -, hR⟩
    · refine ⟨s, ?_, hs, .refl t s⟩
      have hself : Function.update s.ccMap k (some c) = s.ccMap := by rw [← hc, update_eq_self]
      simp [State.read, hc, hlive, access, hget, hself]
    · have hlate : readEarly iso = false := by
        cases he : readEarly iso with
        | false => rfl
        | true => simp [hearly he] at hcf
      refine ⟨_, ?_, hs.granted { c with lock := l }
        (x := (s.txn t).addToReadSet c.content k) hc hr (CCLock.lockType_ne_ex hop hcf) hR
        ⟨hw, hi.2⟩ hlive rfl (.inl rfl), rfl, _, rfl, rfl⟩
      simp [State.read, hc, hlive, access, hget, hlate, setTxn]

/-- **A write keeps the invariant**: the lock is on the ledger once for each grant. -/
theorem Inv.write (iso : IsolationLevel) (hs : Inv cc s) (hr : s.reported t = false) (row : V)
    (ho : ∀ c ∈ s.ccMap k, c.Orderly cc ts (writeEarly iso) .WR t) :
    ∃ s', s.write cc iso ts t k row = (s', none) ∧ Inv cc s' ∧ Noted t s s' := by
  cases hc : s.ccMap k with
  | none => exact ⟨s, by simp [State.write, hc], hs, .refl t s⟩
  | some c =>
    have hi := hs.locked.idle k c hc
    obtain ⟨hm, hearly⟩ := ho c hc
    have hs₁ := hs.newContent k row
    have hc₁ : (s.newContent k row).ccMap k = some c := hc
    have hop : getOperationLock .WR ≠ .NONE := getOperationLock_ne_none (.inr rfl)
    rcases CCLock.getControl_spec (hs.locked.rep k c hc) hi hop hm with
      ⟨-, hget⟩ | ⟨hcf, l, hget, hw, hty, hR⟩
    · refine ⟨s.newContent k row, ?_, hs₁, .refl t s⟩
      simp [State.write, hc, access, CCLock.write, hget, State.newContent]
    · have hlate : writeEarly iso = false := by
        cases he : writeEarly iso with
        | false => rfl
        | true => simp [hearly he] at hcf
      -- nothing that is there has the address of the new content
      have hnew : ∀ {q k'}, s.getKey q = some k' → q ≠ s.next := by
        rintro q k' h rfl
        simp [getKey, hs.locked.fresh s.next le_rfl] at h
      have hold : s.next ∉ (s.txn t).writeset := by
        intro hmem
        obtain ⟨k', c₁, q, hc₁, hp, -⟩ := ((hs.opens t) hr).wrote _ hmem
        exact hnew (hs.locked.live k' c₁ hc₁) hp
      refine ⟨_, ?_, hs₁.granted
        { c with content := s.next, previousContent := some c.content, lock := l }
        (x := (s.txn t).addToWriteSet s.next k) hc₁ hr (CCLock.lockType_ne_ex hop hcf) hR
        ⟨hw, hi.2⟩ (by simp [getKey, State.newContent]) rfl
        (.inr ⟨rfl, rfl, hnew (hs.locked.live k c hc), hty, hold⟩), rfl, _, rfl, rfl⟩
      simp [State.write, hc, access, CCLock.write, hget, hlate, setTxn, State.newContent]

theorem Inv.initContent (hs : Inv cc s) (key : K) (row : V) : Inv cc (s.initContent key row) := by
  have hs₁ := hs.newContent key row
  have hfresh := hs₁.locked.fresh
  cases hc : s.ccMap key with
  | some c =>
    have heq : s.initContent key row = s.newContent key row := by
      simp [State.initContent, hc, State.newContent]
    rwa [heq]
  | none =>
    have hheld : s.held key = [] := hs.locked.absent key hc
    have hmap : (s.initContent key row).ccMap =
        Function.update (s.newContent key row).ccMap key (some (.init s.next)) := by
      simp [State.initContent, hc, State.newContent]
    have hheld' : (s.initContent key row).held =
        Function.update (s.newContent key row).held key [] := by
      rw [← hheld]
      exact (update_eq_self key s.held).symm
    refine ⟨hs₁.locked.update hmap hheld' (RowLock.represents_init cc) ⟨rfl, rfl⟩ ?_
      (fun _ _ _ h => h) hfresh rfl rfl, hs.ledger, fun t => (hs₁.opens t).frame rfl rfl ?_⟩
    · simp [getKey, State.initContent, State.newContent, CCLock.init]
    · intro p _ hp
      exact hp.update hmap hheld' (fun _ _ _ h => h) fun c' hc' => by
        simp [State.newContent, hc] at hc'

/-! ### The end of a transaction -/

/-- What the settling of a write leaves alone. -/
structure Settled (cc : LockAlg) (t : T) (s s' : State K T V) : Prop where
  locked : Locked cc s'
  txn : s'.txn = s.txn
  held : s'.held = s.held
  reported : s'.reported = s.reported
  opens : ∀ t' ≠ t, s.Open t' → s'.Open t'

/-- A write is settled: one of the two contents of its key is deleted, and the other is the content
of the key. -/
theorem Settled.of_delete (hs : Locked cc s) (hc : s.ccMap k = some c) (hp : s.Wrote t c.content)
    {x y : ℕ} (hx : s.getKey x = some k) (hy : s.getKey y = some k) (hne : y ≠ x) :
    let s' : State K T V := { s with
      heap := Function.update s.heap x none
      ccMap := Function.update s.ccMap k (some { c with content := y }) }
    Settled cc t s s' ∧ ∀ p' ≠ c.content, s.Wrote t p' → s'.Wrote t p' := by
  intro s'
  have hheld : s'.held = Function.update s.held k (s.held k) := (update_eq_self k s.held).symm
  -- a content of another key is not the deleted one
  have hkey : ∀ q k', k' ≠ k → s.getKey q = some k' → s'.getKey q = some k' := by
    intro q k' hk hq
    have hqx : q ≠ x := by
      rintro rfl
      exact hk (some.inj (hq.symm.trans hx))
    simp only [s', getKey, update_of_ne hqx]
    exact hq
  obtain ⟨hex, hpos⟩ : c.lock.lockType = .EX ∧ 0 < s.grants k t := by
    obtain ⟨k', c', q, hc', hcont, -, -, -, hex, hpos⟩ := hp
    have hk : k' = k := by
      have h1 := hs.live k' c' hc'
      rw [hcont, hs.live k c hc] at h1
      exact (some.inj h1).symm
    subst hk
    obtain rfl := some.inj (hc.symm.trans hc')
    exact ⟨hex, hpos⟩
  have hlive : s'.getKey y = some k := by
    simp only [s', getKey, update_of_ne hne]
    exact hy
  have hfresh : ∀ q, s'.next ≤ q → s'.heap q = none := by
    intro q hq
    rcases eq_or_ne q x with rfl | hqx
    · simp [s']
    · simp only [s', update_of_ne hqx]
      exact hs.fresh q hq
  refine ⟨⟨hs.update rfl hheld (hs.rep k c hc) (hs.idle k c hc) hlive hkey hfresh rfl rfl, rfl, rfl,
    rfl, fun t' hne' ho => ho.frame rfl rfl fun p _ hp => ?_⟩, fun p' hp' hw => ?_⟩
  · refine hp.update rfl hheld hkey fun c₁ hc₁ _ _ => ?_
    obtain rfl := some.inj (hc.symm.trans hc₁)
    exact hs.grants_eq_zero hc hex hpos hne'
  · refine hw.update rfl hheld hkey fun c₁ hc₁ hcont _ => ?_
    obtain rfl := some.inj (hc.symm.trans hc₁)
    exact absurd hcont.symm hp'

/-- A step of the loop over the write set settles the write and leaves the others. -/
def Settles (cc : LockAlg) (f : K → State K T V → State K T V × Option Stop) : Prop :=
  ∀ {s : State K T V} {t : T} {p : ℕ}, Locked cc s → s.Wrote t p → ∃ k s', s.getKey p = some k ∧
    f k s = (s', none) ∧ Settled cc t s s' ∧ ∀ p' ≠ p, s.Wrote t p' → s'.Wrote t p'

omit [DecidableEq K] [DecidableEq T] in
theorem State.delete_eq (h : s.getKey p = some k) :
    s.delete p = ({ s with heap := Function.update s.heap p none }, none) := by
  obtain ⟨x, hx, -⟩ := map_eq_some_iff.mp h
  simp [State.delete, hx]

theorem settles_commitWrites (cc : LockAlg) :
    Settles cc (commitWrites : K → State K T V → State K T V × Option Stop) := by
  intro s t p hs hp
  obtain ⟨k, c, q, hc, rfl, hq, hqp, hqk, -, -⟩ := id hp
  have hkey := hs.live k c hc
  obtain ⟨hset, hothers⟩ := Settled.of_delete hs hc hp hqk hkey hqp.symm
  have hmap : Function.update s.ccMap k (some c) = s.ccMap := by
    rw [← hc, update_eq_self]
  rw [hmap] at hset hothers
  refine ⟨k, _, hkey, ?_, hset, hothers⟩
  simp [commitWrites, hc, hq, delete_eq hqk]

theorem settles_abortWrites (cc : LockAlg) :
    Settles cc (abortWrites : K → State K T V → State K T V × Option Stop) := by
  intro s t p hs hp
  obtain ⟨k, c, q, hc, rfl, hq, hqp, hqk, -, -⟩ := id hp
  have hkey := hs.live k c hc
  obtain ⟨hset, hothers⟩ := Settled.of_delete hs hc hp hkey hqk hqp
  refine ⟨k, _, hkey, ?_, hset, hothers⟩
  simp [abortWrites, hc, hq, delete_eq hkey, andThen]

omit [DecidableEq K] in
/-- The loop settles a write set. -/
theorem Locked.settle {f : K → State K T V → State K T V × Option Stop} (hf : Settles cc f) :
    ∀ {ps : List ℕ} {s : State K T V}, Locked cc s → s.Unsettled t ps →
      ∃ s', settle f ps s = (s', none) ∧ Settled cc t s s' := by
  intro ps
  induction ps with
  | nil => exact fun {s} hs _ => ⟨s, rfl, hs, rfl, rfl, rfl, fun _ _ h => h⟩
  | cons p ps ih =>
    intro s hs hu
    obtain ⟨hp, hnodup⟩ := nodup_cons.mp hu.nodup
    obtain ⟨k, s₁, hk, h₁, hset, hothers⟩ := hf hs (hu.wrote p (by simp))
    have hu₁ : s₁.Unsettled t ps :=
      ⟨hnodup, fun q hq => hothers q (ne_of_mem_of_not_mem hq hp) (hu.wrote q (by simp [hq]))⟩
    obtain ⟨s₂, h₂, hset₂⟩ := ih hset.locked hu₁
    refine ⟨s₂, ?_, hset₂.locked, hset₂.txn.trans hset.txn, hset₂.held.trans hset.held,
      hset₂.reported.trans hset.reported,
      fun t' hne ho => hset₂.opens t' hne (hset.opens t' hne ho)⟩
    simp [State.settle, hk, h₁, andThen, h₂]

theorem Inv.endWith (ts : T → ℕ) {f : K → State K T V → State K T V × Option Stop}
    (hf : Settles cc f) (hs : Inv cc s) (hr : s.reported t = false) :
    ∃ s', s.endWith cc ts f t = (s', none) ∧ Inv cc s' ∧
      s'.reported = Function.update s.reported t true ∧
      s'.txn = Function.update s.txn t (s.txn t).clearLocksDetained := by
  have hu : (s.report t true).Unsettled t (s.txn t).writeset :=
    ⟨(hs.opens t hr).nodup, (hs.opens t hr).wrote⟩
  obtain ⟨s₁, h₁, hset⟩ := (hs.locked.report t true).settle hf hu
  have hl₁ : s₁.Ledger := by
    intro k t'
    rw [grants, hset.held, hset.txn]
    exact hs.ledger k t'
  obtain ⟨s₂, h₂, hs₂, hl₂, htxn, hrep, hopen⟩ := hset.locked.releaseLocks ts hl₁ t
  have hrep₂ : s₂.reported = Function.update s.reported t true := hrep.trans hset.reported
  refine ⟨s₂, ?_, ⟨hs₂, hl₂, fun t' => ?_⟩, hrep₂, by rw [htxn, hset.txn]; rfl⟩
  · simp [State.endWith, h₁, andThen, h₂]
  · rcases eq_or_ne t' t with rfl | hne
    · intro hfalse
      simp [hrep₂] at hfalse
    · refine hopen t' hne (hset.opens t' hne ?_)
      exact (hs.opens t').frame rfl (update_of_ne hne ..) fun _ _ h => h

/-- **A finish keeps the invariant**: it releases what is on the ledger, which is what is held. -/
theorem Inv.finish (ts : T → ℕ) (hs : Inv cc s) (t : T) :
    ∃ s', s.finish cc ts t = (s', none) ∧ Inv cc s' ∧
      s'.reported = Function.update s.reported t false ∧
      s'.txn = Function.update s.txn t (s.txn t).clearLocksDetained.clearSets := by
  -- whether or not `releaseLocks` is called, the other transactions are left alone
  obtain ⟨s₁, h₁, hs₁, hl₁, htxn, hrep, hopen⟩ : ∃ s₁, (if (s.txn t).locksDetained = [] then
      (s, none) else s.releaseLocks cc ts t) = (s₁, none) ∧ Locked cc s₁ ∧ s₁.Ledger ∧
        s₁.txn = Function.update s.txn t (s.txn t).clearLocksDetained ∧
        s₁.reported = s.reported ∧ ∀ t' ≠ t, s.Open t' → s₁.Open t' := by
    split
    next hnil =>
      refine ⟨s, rfl, hs.locked, hs.ledger, ?_, rfl, fun _ _ h => h⟩
      rw [TransactionF.clearLocksDetained, ← hnil, update_eq_self]
    · exact hs.locked.releaseLocks ts hs.ledger t
  refine ⟨(s₁.setTxn t (s₁.txn t).clearSets).report t false, ?_,
    ⟨(hs₁.setTxn ..).report .., hl₁.setTxn rfl, fun t' => ?_⟩, ?_, ?_⟩
  · simp [State.finish, h₁, andThen]
  · rcases eq_or_ne t' t with rfl | hne
    · intro _
      have hnil : (((s₁.setTxn t' (s₁.txn t').clearSets).report t' false).txn t').writeset =
          [] := by
        simp [State.report, setTxn, TransactionF.clearSets]
      rw [hnil]
      exact ⟨nodup_nil, by simp⟩
    · exact (hopen t' hne (hs.opens t')).frame (by rw [State.report, setTxn_ne _ hne])
        (update_of_ne hne ..) fun _ _ h => h
  · rw [State.report, setTxn, hrep]
  · simp [State.report, setTxn, htxn]

/-! ### Runs -/

/-- **One call.** A call that meets the condition comes back, and keeps the invariant. -/
theorem Inv.call (hs : Inv cc s) (hk : Keeps cc iso ts s a) :
    ∃ s', s.call cc iso ts a = (s', none) ∧ Inv cc s' := by
  cases a with
  | initContent key row => exact ⟨_, rfl, hs.initContent key row⟩
  | read t k =>
    obtain ⟨s', h, hs', -⟩ := hs.read iso hk.1 hk.2
    exact ⟨s', h, hs'⟩
  | write t k row =>
    obtain ⟨s', h, hs', -⟩ := hs.write iso hk.1 row hk.2
    exact ⟨s', h, hs'⟩
  | commit t =>
    obtain ⟨s', h, hs', -⟩ := hs.endWith ts (settles_commitWrites cc) hk
    exact ⟨s', h, hs'⟩
  | abort t =>
    obtain ⟨s', h, hs', -⟩ := hs.endWith ts (settles_abortWrites cc) hk
    exact ⟨s', h, hs'⟩
  | finish t =>
    obtain ⟨s', h, hs', -⟩ := hs.finish ts t
    exact ⟨s', h, hs'⟩

theorem inv_init (cc : LockAlg) : Inv cc (init : State K T V) :=
  ⟨locked_init cc, fun _ _ => rfl, fun _ _ => ⟨nodup_nil, by simp [init, TransactionF.init]⟩⟩

theorem inv_step (hs : Inv cc s) (hk : Keeps cc iso ts s a)
    (h : (machine cc iso ts).step s a = some s') : Inv cc s' := by
  obtain ⟨s₁, hcall, hs₁⟩ := hs.call hk
  simp only [machine, hs.locked.fault, if_true, hcall, State.close, some.injEq] at h
  exact h ▸ hs₁

theorem Inv.exact (hs : Inv cc s) : s.Exact cc :=
  ⟨hs.locked.rep, hs.ledger, hs.locked.taken, hs.locked.fault⟩

/-- **The ledger.** In every run whose accesses are neither queued nor given back at once, and whose
transactions finish after a `commit` or `abort`, the ledger of every transaction is exact: it lists
the locks the transaction holds, as often as it holds them. No release is executed for a transaction
without a grant, no assertion fails, and no deleted content is used. -/
theorem ledger_exact (cc : LockAlg) (iso : IsolationLevel) (ts : T → ℕ) {s : State K T V}
    (hs : (machine cc iso ts).ReachableVia (Keeps cc iso ts) s) : s.Exact cc := by
  have hinv : Inv cc s := Machine.ReachableVia.invariant (inv_init cc)
    (fun _ _ _ _ hs hk h => inv_step hs hk h) hs
  exact hinv.exact

/-- A shared lock, an exclusive one, a refused request, and all of it released. -/
def sharedThenReleased : List (Action ℕ ℕ ℕ) :=
  [.initContent 0 10, .initContent 1 11, .read 1 0, .read 2 0, .write 1 1 21, .write 2 1 22,
    .commit 1, .abort 2, .finish 1, .finish 2]

theorem ledger_exact_sharedThenReleased :
    ∃ s ∈ (machine .WAIT_DIE .SERIALIZABLE (fun t : ℕ => t)).run sharedThenReleased,
      s.Exact .WAIT_DIE := by
  have hrun : ∃ s ∈ (machine .WAIT_DIE .SERIALIZABLE (fun t : ℕ => t)).run sharedThenReleased,
      s.fault = none := by decide +kernel
  obtain ⟨s, hs, -⟩ := hrun
  have hok : (machine .WAIT_DIE .SERIALIZABLE (fun t : ℕ => t)).RunOk
      (Keeps .WAIT_DIE .SERIALIZABLE fun t : ℕ => t) init sharedThenReleased := by
    decide +kernel
  exact ⟨s, hs, ledger_exact _ _ _ (.of_run hok hs)⟩

/-- A transaction that has called `commit` or `abort` calls `finish` before anything else. -/
def InTurn (s : State K T V) : Action K T V → Prop
  | .read t _ | .write t _ _ | .commit t | .abort t => s.reported t = false
  | .initContent _ _ | .finish _ => True

instance (s : State K T V) (a : Action K T V) : Decidable (InTurn s a) := by
  cases a <;> unfold InTurn <;> infer_instance

omit [DecidableEq K] [DecidableEq T] in
/-- `NO_WAIT` queues nobody, and `SERIALIZABLE` keeps every lock to the end. -/
theorem InTurn.keeps (h : InTurn s a) : Keeps .NO_WAIT .SERIALIZABLE ts s a := by
  have hord : ∀ operation t (c : CCLock ℕ T), c.Orderly .NO_WAIT ts false operation t := by
    simp [CCLock.Orderly, CCLock.mustWait]
  cases a with
  | read t k | write t k row => exact ⟨h, fun c _ => hord _ t c⟩
  | commit t | abort t => exact h
  | initContent key row | finish t => trivial

/-- **`NO_WAIT` with `SERIALIZABLE`** has an exact ledger in every interleaving of transactions that
finish after each `commit` and `abort`, whatever they access: no request waits, and no lock is given
back before the end. -/
theorem noWait_serializable_exact (ts : T → ℕ)
    (hs : (machine .NO_WAIT .SERIALIZABLE ts).ReachableVia InTurn s) : s.Exact .NO_WAIT := by
  have hinv : Inv .NO_WAIT s := Machine.ReachableVia.invariant (inv_init _)
    (fun _ _ _ _ hs hk h => inv_step hs hk.keeps h) hs
  exact hinv.exact

/-- A reader gives its lock back at once, and again at its commit: the second time it is the lock of
a writer, and a second writer comes in. -/
def releasedTwice : List (Action ℕ ℕ ℕ) :=
  [.initContent 0 10, .read 1 0, .write 2 0 20, .commit 1, .write 3 0 30]

theorem noWait_serializable_exact_releasedTwice :
    ∃ s ∈ (machine .NO_WAIT .SERIALIZABLE (fun t : ℕ => t)).run releasedTwice,
      s.Exact .NO_WAIT := by
  obtain ⟨s, hs⟩ : ∃ s, (machine .NO_WAIT .SERIALIZABLE (fun t : ℕ => t)).run releasedTwice =
    some s := ⟨_, rfl⟩
  exact ⟨s, hs, noWait_serializable_exact id (.of_run (by decide +kernel) hs)⟩

/-- **The ledger is not exact in general.** With `READ_COMMITTED` a commit releases what a read has
already given back: `NO_WAIT` takes away the grant of another transaction, which then shares its
exclusive lock with a third, and `WAIT_DIE` runs into `assert(false)`. -/
theorem ledger_inexact :
    (∃ s ∈ (machine .NO_WAIT .READ_COMMITTED (fun t : ℕ => t)).run releasedTwice,
      s.grants 0 2 = 1 ∧ s.grants 0 3 = 1 ∧ ¬ s.Exact .NO_WAIT) ∧
    ∃ s ∈ (machine .WAIT_DIE .READ_COMMITTED (fun t : ℕ => t)).run
      [.initContent 0 10, .read 1 0, .commit 1],
      (s : State ℕ ℕ ℕ).fault = some .died ∧ ¬ s.Exact .WAIT_DIE := by
  have htaken : ∃ s ∈ (machine .NO_WAIT .READ_COMMITTED (fun t : ℕ => t)).run releasedTwice,
      s.grants 0 2 = 1 ∧ s.grants 0 3 = 1 ∧ s.taken = true := by decide +kernel
  have hdied : ∃ s ∈ (machine .WAIT_DIE .READ_COMMITTED (fun t : ℕ => t)).run
      [.initContent 0 10, .read 1 0, .commit 1],
      (s : State ℕ ℕ ℕ).fault = some .died := by decide +kernel
  obtain ⟨s₁, hs₁, h2, h3, ht⟩ := htaken
  obtain ⟨s₂, hs₂, hf⟩ := hdied
  refine ⟨⟨s₁, hs₁, h2, h3, fun h => ?_⟩, s₂, hs₂, hf, fun h => ?_⟩
  · exact absurd (ht.symm.trans h.taken) (by decide)
  · exact absurd (hf.symm.trans h.fault) (by decide)

end FrameworkLocks

end Deneva
