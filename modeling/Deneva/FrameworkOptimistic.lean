import Deneva.Occ
import Deneva.UndoLog

/-!
# The optimistic manager (`concurrencyOCC.cpp`, `concurrency_controller_otimistic.cpp`)

`ConcurrencyManagerOtimistic` with central validation (`PER_ROW_VALID` off) is the engine's `OptCC`
once more (`Deneva.Occ`), over the framework's own contents:

* A content is an object (`Content`), and a `CC_O` points to the current one of its key and to the
  one before. A write makes a new object the current one at once; `abortWrites` goes back to the one
  before. Objects are never deleted, so an address names one object for ever.
* The sets that validation compares are sets of pointers: `get_rw_set` follows the keys of the read
  and write set to the objects that are current *at that moment*.
* The start and finish numbers are the timestamps of the framework's clock, which are inputs here;
  the numbers in `history` come from the counter `tnc`.

Validation takes the steps that the semaphore separates (`validate`, `validateBegin`, `validateEnd`,
`dropActive`), and so does `finish` (`finish`, `finishEnd`).

The histories beside the code's state (`Past`) are the log of the writes to each key, with the
attempts they belong to, the attempts that were aborted, the sets that were built, the transactions
that finished validated, and the validations that succeeded.
-/

namespace Deneva

universe u

open Function Option

namespace FrameworkOptimistic

/-- `Content`: an object with its address. -/
structure Content (K V : Type u) : Type u where
  /-- where the object is -/
  addr : ℕ
  /-- the key of the row -/
  key : K
  /-- the row -/
  value : V
  deriving DecidableEq

/-- A pointer to a content; the key is that of the content pointed to. -/
structure Ptr (K : Type u) : Type u where
  /-- the address -/
  addr : ℕ
  /-- the key of the content there -/
  key : K
  deriving DecidableEq

/-- The pointer to a content. -/
def Content.ptr {K V : Type u} (c : Content K V) : Ptr K := ⟨c.addr, c.key⟩

/-- `CC_O`. Its `wts` stays `0`, so that no read is refused. -/
structure CCO (K V : Type u) : Type u where
  /-- the current content -/
  content : Content K V
  /-- the content before the last write; not set before the first one -/
  previousContent : Option (Content K V)
  deriving DecidableEq

/-- `CC_O::write`. -/
def CCO.write {K V : Type u} (content1 : Content K V) (c : CCO K V) : CCO K V :=
  ⟨content1, some c.content⟩

/-- `CC_O::abortWrites`. -/
def CCO.abortWrites {K V : Type u} (c : CCO K V) : CCO K V :=
  { c with content := c.previousContent.getD c.content }

theorem CCO.abortWrites_abortWrites {K V : Type u} (c : CCO K V) :
    c.abortWrites.abortWrites = c.abortWrites := by
  cases hc : c.previousContent <;> simp [CCO.abortWrites, hc]

/-- `TransactionF`, with what the optimistic manager uses of it. -/
structure TransactionF (K V : Type u) : Type u where
  readset : List (Content K V)
  writeset : List (Content K V)
  timestampStartup : ℕ
  timestampCommit : ℕ
  /-- `validated`, which nothing ever clears -/
  validated : Bool
  deriving DecidableEq

/-- The constructor. -/
def TransactionF.init {K V : Type u} : TransactionF K V := ⟨[], [], 0, 0, false⟩

/-- A transaction that finished validated, with the keys it wrote. -/
structure Finish (T K : Type u) : Type u where
  /-- the transaction -/
  txn : T
  /-- the keys of its write set -/
  keys : List K
  deriving DecidableEq

/-- A successful validation. -/
structure Pass (T K : Type u) : Type u where
  /-- the transaction -/
  txn : T
  /-- the keys of its read set -/
  keys : List K
  /-- who finished validated between its start timestamp and its validation -/
  meanwhile : List (Finish T K)
  deriving DecidableEq

/-- Where a transaction is in a call that takes several steps. -/
inductive Stage (T K : Type u) : Type u where
  /-- in no such call -/
  | idle
  /-- in `central_validate`, after `get_rw_set` -/
  | sampled (rset wset : List (Ptr K))
  /-- in `central_validate`, after the first critical section -/
  | checking (v : Occ.Validation T (Ptr K)) (meanwhile : List (Finish T K))
  /-- in `central_validate`, before the second critical section -/
  | failed
  /-- in `central_finish`, after `get_rw_set` -/
  | finishing (wset : List (Ptr K))

/-- The histories. -/
structure Past (T K V : Type u) where
  /-- the content a key was loaded with -/
  loaded : K → Option (Content K V)
  /-- the writes to each key, most recent first, with transaction and attempt -/
  log : K → List ((T × ℕ) × Content K V)
  /-- the number of the attempt of each transaction -/
  attempt : T → ℕ
  /-- the attempts that were aborted -/
  aborted : T × ℕ → Bool
  /-- the sets that `get_rw_set` has built -/
  sets : List (T × List (Ptr K))
  /-- the transactions that finished validated, most recent first -/
  finishes : List (Finish T K)
  /-- how many had finished when the transaction took its start timestamp -/
  since : T → Option ℕ
  /-- the validations that succeeded -/
  passes : List (Pass T K)

/-- `ConcurrencyManagerOtimistic`, the transactions it serves, and the histories. -/
structure State (T K V : Type u) where
  /-- `concurrencyControlMap` -/
  ccMap : K → Option (CCO K V)
  /-- the next free address -/
  next : ℕ
  /-- the transaction objects -/
  txn : T → TransactionF K V
  tnc : ℕ
  history : List (Occ.SetEnt T (Ptr K))
  active : List (Occ.SetEnt T (Ptr K))
  /-- the calls in progress -/
  stage : T → Stage T K
  /-- the histories -/
  past : Past T K V

/-- The calls, cut at the critical sections; `now` is the time the clock returns. -/
inductive Action (T K V : Type u) : Type u where
  /-- a row is loaded -/
  | initContent (key : K) (row : V)
  /-- `beginTransaction` takes the start timestamp -/
  | start (t : T) (now : ℕ)
  | read (t : T) (key : K)
  | write (t : T) (key : K) (row : V)
  /-- `validate` up to `get_rw_set`; a transaction that is validated already is done -/
  | validate (t : T)
  /-- the first critical section of `central_validate` -/
  | validateBegin (t : T) (now : ℕ)
  /-- the check -/
  | validateEnd (t : T)
  /-- the second critical section, of a validation that failed -/
  | dropActive (t : T)
  | commit (t : T)
  | abort (t : T)
  /-- `finish` up to `get_rw_set` -/
  | finish (t : T)
  /-- the critical section of `central_finish`, and `clearSets` -/
  | finishEnd (t : T)
  deriving DecidableEq

variable {T K V : Type u} [DecidableEq T] [DecidableEq K]

namespace State

/-- No rows, and fresh transactions. The constructor of the manager does not set `history`; it is
taken to be empty, as it is for an object in zeroed memory. -/
def init : State T K V where
  ccMap _ := none
  next := 0
  txn _ := .init
  tnc := 0
  history := []
  active := []
  stage _ := .idle
  past := ⟨fun _ => none, fun _ => [], fun _ => 0, fun _ => false, [], [], fun _ => none, []⟩

/-- A new value of a transaction object. -/
def setTxn (t : T) (x : TransactionF K V) (s : State T K V) : State T K V :=
  { s with txn := update s.txn t x }

/-- A transaction goes on in its call. -/
def setStage (t : T) (p : Stage T K) (s : State T K V) : State T K V :=
  { s with stage := update s.stage t p }

/-- The pointers `get_rw_set` follows from the keys of a read or write set. -/
def getSet (cs : List (Content K V)) (s : State T K V) : List (Ptr K) :=
  cs.filterMap fun c => (s.ccMap c.key).map fun cc => cc.content.ptr

/-- Who has finished validated since the transaction took its start timestamp. -/
def meanwhile (t : T) (s : State T K V) : List (Finish T K) :=
  s.past.finishes.take (s.past.finishes.length - (s.past.since t).getD 0)

/-- `ConcurrencyManagerOtimistic::initContent`; `insert` keeps an entry that is there. -/
def initContent (key : K) (row : V) (s : State T K V) : State T K V :=
  match s.ccMap key with
  | some _ => s
  | none =>
    let c : Content K V := ⟨s.next, key, row⟩
    { s with ccMap := update s.ccMap key (some ⟨c, none⟩)
             next := s.next + 1
             past := { s.past with loaded := update s.past.loaded key (some c) } }

/-- The start timestamp that `beginTransaction` takes. -/
def start (t : T) (now : ℕ) (s : State T K V) : State T K V :=
  { s with
    txn := update s.txn t { s.txn t with timestampStartup := now }
    past := { s.past with since := update s.past.since t (some s.past.finishes.length) } }

/-- `ConcurrencyManagerOtimistic::read`. -/
def read (t : T) (key : K) (s : State T K V) : State T K V :=
  match s.ccMap key with
  | none => s
  | some cc => s.setTxn t { s.txn t with readset := (s.txn t).readset ++ [cc.content] }

/-- The attempt a write of the transaction belongs to: a new one, if the last one was aborted. -/
def attemptOf (t : T) (s : State T K V) : ℕ :=
  if s.past.aborted (t, s.past.attempt t) then s.past.attempt t + 1 else s.past.attempt t

/-- `ConcurrencyManagerOtimistic::write`. -/
def write (t : T) (key : K) (row : V) (s : State T K V) : State T K V :=
  match s.ccMap key with
  | none => s
  | some cc =>
    let c : Content K V := ⟨s.next, key, row⟩
    { s with
      ccMap := update s.ccMap key (some (cc.write c))
      next := s.next + 1
      txn := update s.txn t { s.txn t with writeset := (s.txn t).writeset ++ [c] }
      past := { s.past with
        log := update s.past.log key (((t, s.attemptOf t), c) :: s.past.log key)
        attempt := update s.past.attempt t (s.attemptOf t) } }

/-- The loop of `abort` over the write set. -/
def abortAll : List (Content K V) → (K → Option (CCO K V)) → K → Option (CCO K V)
  | [], m => m
  | c :: cs, m => abortAll cs (update m c.key ((m c.key).map CCO.abortWrites))

/-- The loop goes back once on every key of the write set, however often the key stands there. -/
theorem abortAll_apply (ws : List (Content K V)) (m : K → Option (CCO K V)) (k : K) :
    abortAll ws m k =
      if k ∈ ws.map Content.key then (m k).map CCO.abortWrites else m k := by
  induction ws generalizing m with
  | nil => simp [abortAll]
  | cons c ws ih =>
    rw [abortAll, ih]
    rcases eq_or_ne k c.key with rfl | hne
    · simp [comp_def, CCO.abortWrites_abortWrites]
    · simp [hne]

/-- `ConcurrencyManagerOtimistic::abort`. -/
def abort (t : T) (s : State T K V) : State T K V :=
  { s with
    ccMap := abortAll (s.txn t).writeset s.ccMap
    past := { s.past with
      aborted := update s.past.aborted (t, s.past.attempt t) true } }

/-- `ConcurrencyManagerOtimistic::validate`, up to `get_rw_set`. -/
def validate (t : T) (s : State T K V) : State T K V :=
  if (s.txn t).validated then
    let p : Pass T K := ⟨t, (s.txn t).readset.map Content.key, s.meanwhile t⟩
    { s with past := { s.past with passes := p :: s.past.passes } }
  else
    let rset := s.getSet (s.txn t).readset
    let wset := s.getSet (s.txn t).writeset
    { s.setStage t (.sampled rset wset) with
      past := { s.past with sets := (t, rset) :: (t, wset) :: s.past.sets } }

/-- The first critical section of `central_validate`. -/
def validateBegin (t : T) (now : ℕ) (rset wset : List (Ptr K)) (s : State T K V) : State T K V :=
  let v : Occ.Validation T (Ptr K) :=
    { startTn := (s.txn t).timestampStartup
      finishTn := now
      finishActive := s.active
      his := s.history
      rset := rset
      wset := wset
      since := 0 }
  { s with
    txn := update s.txn t { s.txn t with timestampCommit := now }
    active := if wset.isEmpty then s.active else ⟨0, t, wset⟩ :: s.active
    stage := update s.stage t (.checking v (s.meanwhile t)) }

/-- The check of `central_validate`. -/
def validateEnd (t : T) (v : Occ.Validation T (Ptr K)) (meanwhile : List (Finish T K))
    (s : State T K V) : State T K V :=
  if v.validHistory && v.validActive then
    { s with
      txn := update s.txn t { s.txn t with validated := true }
      stage := update s.stage t .idle
      past := { s.past with
        passes := ⟨t, (s.txn t).readset.map Content.key, meanwhile⟩ :: s.past.passes } }
  else s.setStage t .failed

/-- `ConcurrencyManagerOtimistic::finish`, up to `get_rw_set`; of the two sets built only one is
used. -/
def finish (t : T) (s : State T K V) : State T K V :=
  let rset := s.getSet (s.txn t).readset
  let wset := s.getSet (s.txn t).writeset
  { s.setStage t (.finishing wset) with
    past := { s.past with sets := (t, rset) :: (t, wset) :: s.past.sets } }

/-- The entry of a transaction is taken out of `active`. -/
def removeActive (t : T) (s : State T K V) : State T K V :=
  { s with active := s.active.eraseP fun e => e.txn = t }

/-- The critical section of `central_finish`. -/
def centralFinish (t : T) (wset : List (Ptr K)) (s : State T K V) : State T K V :=
  if wset.isEmpty then s
  else if s.active.any fun e => e.txn = t then
    let s' := s.removeActive t
    if (s.txn t).validated then
      { s' with tnc := s.tnc + 1, history := ⟨s.tnc + 1, t, wset⟩ :: s.history }
    else s'
  else s

/-- `ConcurrencyManagerOtimistic::finish`, from the critical section on. -/
def finishEnd (t : T) (wset : List (Ptr K)) (s : State T K V) : State T K V :=
  let s' := s.centralFinish t wset
  let f : Finish T K := ⟨t, (s.txn t).writeset.map Content.key⟩
  { s' with
    txn := update s.txn t { s.txn t with readset := [], writeset := [] }
    stage := update s.stage t .idle
    past := { s.past with
      attempt := update s.past.attempt t (s.past.attempt t + 1)
      finishes := if (s.txn t).validated then f :: s.past.finishes else s.past.finishes } }

/-- A call starts when the transaction has begun and is in no other call. -/
def call (s : State T K V) (t : T) (s' : State T K V) : Option (State T K V) :=
  match s.stage t, s.past.since t with
  | .idle, some _ => some s'
  | _, _ => none

omit [DecidableEq T] [DecidableEq K] in
theorem call_eq_some {t : T} {s s₁ s' : State T K V} :
    s.call t s₁ = some s' ↔ s.stage t = .idle ∧ s.past.since t ≠ none ∧ s₁ = s' := by
  simp only [call]
  split
  · simp_all
  next h =>
    simp only [reduceCtorEq, false_iff]
    rintro ⟨hi, hsome, -⟩
    obtain ⟨n, hn⟩ := Option.ne_none_iff_exists'.mp hsome
    exact h n hi hn

end State

/-- The calls of any number of transactions. Those of one transaction follow each other, after its
`beginTransaction`. -/
def machine (T K V : Type u) [DecidableEq T] [DecidableEq K] :
    Machine (State T K V) (Action T K V) where
  init := .init
  step s a :=
    match a with
    | .initContent key row => some (s.initContent key row)
    | .start t now => if s.past.since t = none then some (s.start t now) else none
    | .validateBegin t now =>
      match s.stage t with
      | .sampled rset wset => some (s.validateBegin t now rset wset)
      | _ => none
    | .validateEnd t =>
      match s.stage t with
      | .checking v meanwhile => some (s.validateEnd t v meanwhile)
      | _ => none
    | .dropActive t =>
      match s.stage t with
      | .failed => some ((s.removeActive t).setStage t .idle)
      | _ => none
    | .finishEnd t =>
      match s.stage t with
      | .finishing wset => some (s.finishEnd t wset)
      | _ => none
    | .read t key => s.call t (s.read t key)
    | .write t key row => s.call t (s.write t key row)
    | .validate t => s.call t (s.validate t)
    | .commit t => s.call t s
    | .abort t => s.call t (s.abort t)
    | .finish t => s.call t (s.finish t)

omit [DecidableEq K] in
/-- A field of the transaction objects that a new value of one of them keeps. -/
theorem update_field {β : Type*} (field : TransactionF K V → β) {f : T → TransactionF K V} {t : T}
    {x : TransactionF K V} (h : field x = field (f t)) (t' : T) :
    field (update f t x t') = field (f t') := by
  rcases eq_or_ne t' t with rfl | hne
  · rw [update_self, h]
  · rw [update_of_ne hne]

/-- What the steps do, with what they wait for. -/
inductive Step (s : State T K V) : Action T K V → State T K V → Prop where
  | initContent (key : K) (row : V) : Step s (.initContent key row) (s.initContent key row)
  | start (t : T) (now : ℕ) (hnew : s.past.since t = none) : Step s (.start t now) (s.start t now)
  | read (t : T) (key : K) (hidle : s.stage t = .idle) (hbegun : s.past.since t ≠ none) :
      Step s (.read t key) (s.read t key)
  | write (t : T) (key : K) (row : V) (hidle : s.stage t = .idle) (hbegun : s.past.since t ≠ none) :
      Step s (.write t key row) (s.write t key row)
  | validate (t : T) (hidle : s.stage t = .idle) (hbegun : s.past.since t ≠ none) :
      Step s (.validate t) (s.validate t)
  | validateBegin (t : T) (now : ℕ) (rset wset : List (Ptr K))
      (hat : s.stage t = .sampled rset wset) :
      Step s (.validateBegin t now) (s.validateBegin t now rset wset)
  | validateEnd (t : T) (v : Occ.Validation T (Ptr K)) (meanwhile : List (Finish T K))
      (hat : s.stage t = .checking v meanwhile) :
      Step s (.validateEnd t) (s.validateEnd t v meanwhile)
  | dropActive (t : T) (hat : s.stage t = .failed) :
      Step s (.dropActive t) ((s.removeActive t).setStage t .idle)
  | commit (t : T) (hidle : s.stage t = .idle) (hbegun : s.past.since t ≠ none) :
      Step s (.commit t) s
  | abort (t : T) (hidle : s.stage t = .idle) (hbegun : s.past.since t ≠ none) :
      Step s (.abort t) (s.abort t)
  | finish (t : T) (hidle : s.stage t = .idle) (hbegun : s.past.since t ≠ none) :
      Step s (.finish t) (s.finish t)
  | finishEnd (t : T) (wset : List (Ptr K)) (hat : s.stage t = .finishing wset) :
      Step s (.finishEnd t) (s.finishEnd t wset)

theorem step_of_eq_some {s s' : State T K V} {a : Action T K V}
    (h : (machine T K V).step s a = some s') : Step s a s' := by
  cases a with
  | initContent key row =>
    cases h
    exact .initContent key row
  | start t now =>
    obtain ⟨hnew, h⟩ := ite_none_right_eq_some.mp h
    cases h
    exact .start t now hnew
  | validateBegin | validateEnd | dropActive | finishEnd =>
    simp only [machine] at h
    split at h
    · cases h
      constructor
      assumption
    · cases h
  | _ =>
    obtain ⟨hidle, hbegun, rfl⟩ := State.call_eq_some.mp h
    constructor
    · exact hidle
    · exact hbegun

end FrameworkOptimistic

end Deneva
