import Deneva.FrameworkOptimistic

/-!
# Validation across the attempts of a transaction (`framework.cpp`, `FrameworkOptimisicDeneva`)

`beginTransaction` is called once for a transaction; each attempt then reads and writes, calls
`validate`, calls `commit` or `abort`, and calls `endTransaction`. The calls go on to the manager of
`Deneva.FrameworkOptimistic`, and both layers look at flags of the long-lived `TransactionF`:

* `validate` and `commit` do nothing more for a transaction whose `validated` is set, and nothing
  ever clears it;
* `endTransaction` calls `finish` only for a transaction whose `finished` is set.

Beside the flags the state has, for each transaction, the number of its attempt, whether `validated`
was set when the attempt began, what `central_validate` was called on, and the calls that returned
true since the last abort (`State.checks`). A `concurrencyManager->commit` is written down with
them.
-/

namespace Deneva

universe u

open Function List Option

namespace FrameworkValidated

open FrameworkOptimistic

/-- What `central_validate` is called on. -/
structure Check (K V : Type u) : Type u where
  /-- the number of the attempt -/
  attempt : ℕ
  /-- its read set -/
  readset : List (Content K V)
  /-- its write set -/
  writeset : List (Content K V)
  deriving DecidableEq

/-- A `concurrencyManager->commit`. -/
structure Commit (T K V : Type u) : Type u where
  /-- the transaction -/
  txn : T
  /-- the attempt that is committed, with its sets -/
  own : Check K V
  /-- the calls of `central_validate` that returned true since the last abort -/
  checks : List (Check K V)
  deriving DecidableEq

/-- Where a transaction is in its attempt. -/
inductive Pc where
  /-- before `beginTransaction` -/
  | out
  /-- it reads and writes -/
  | running
  /-- in `validate` -/
  | validating
  /-- after `validate`, whatever it returned -/
  | answered
  /-- in the `validate` that `commit` calls -/
  | committing
  /-- in `commit`, past the check -/
  | passed
  /-- after `commit` or `abort` -/
  | decided
  /-- in the `finish` that `endTransaction` calls -/
  | ending
  deriving DecidableEq

/-- `FrameworkOptimisicDeneva`, and the histories. -/
structure State (T K V : Type u) where
  /-- `concurrencyManager` -/
  cm : FrameworkOptimistic.State T K V
  /-- `finished` of the transaction objects -/
  finished : T → Bool
  /-- where each transaction is -/
  pc : T → Pc
  /-- the number of its attempt -/
  attempt : T → ℕ
  /-- what its last `central_validate` was called on -/
  asked : T → Check K V
  /-- the calls of `central_validate` that returned true since its last abort -/
  checks : T → List (Check K V)
  /-- `validated`, as it was when the attempt began -/
  known : T → Bool
  /-- the commits -/
  commits : List (Commit T K V)

/-- The calls; `now` is the time the clock returns. -/
inductive Action (T K V : Type u) : Type u where
  /-- a row is loaded -/
  | initContent (key : K) (row : V)
  | beginTransaction (t : T) (now : ℕ)
  | read (t : T) (key : K)
  | write (t : T) (key : K) (row : V)
  /-- `validate`, up to `get_rw_set` -/
  | validate (t : T)
  /-- `commit`, up to the check or the `get_rw_set` of its `validate` -/
  | commit (t : T)
  /-- the first critical section of `central_validate` -/
  | validateBegin (t : T) (now : ℕ)
  /-- the check of `central_validate` -/
  | validateEnd (t : T)
  /-- the second critical section, of a validation that failed -/
  | dropActive (t : T)
  /-- the rest of `commit`; `timestamp` is the time `timestampCommit` takes where the transaction is
  local -/
  | commitEnd (t : T) (timestamp : Option ℕ)
  | abort (t : T)
  /-- `endTransaction`, up to the `get_rw_set` of `finish` -/
  | endTransaction (t : T)
  /-- the rest of `endTransaction` -/
  | endTransactionEnd (t : T)
  deriving DecidableEq

variable {T K V : Type u} [DecidableEq T] [DecidableEq K]

namespace State

/-- No rows, and fresh transactions. -/
def init : State T K V where
  cm := .init
  finished _ := false
  pc _ := .out
  attempt _ := 0
  asked _ := ⟨0, [], []⟩
  checks _ := []
  known _ := false
  commits := []

/-- The attempt a transaction is in, with its sets. -/
def own (t : T) (s : State T K V) : Check K V :=
  ⟨s.attempt t, (s.cm.txn t).readset, (s.cm.txn t).writeset⟩

/-- A transaction goes on. -/
def goto (t : T) (p : Pc) (s : State T K V) : State T K V :=
  { s with pc := update s.pc t p }

/-- `beginTransaction`. -/
def beginTransaction (t : T) (now : ℕ) (s : State T K V) : State T K V :=
  { s.goto t .running with cm := s.cm.start t now }

/-- `read`; a key that is not there is ignored. -/
def read (t : T) (key : K) (s : State T K V) : State T K V :=
  { s with cm := s.cm.read t key }

/-- `write`; a key that is not there is loaded first. -/
def write (t : T) (key : K) (row : V) (s : State T K V) : State T K V :=
  { s with cm := (s.cm.initContent key row).write t key row }

/-- `ConcurrencyManagerOtimistic::validate` is entered, in `validate` or in `commit`. -/
def enterValidate (t : T) (p : Pc) (s : State T K V) : State T K V :=
  { s.goto t p with cm := s.cm.validate t, asked := update s.asked t (s.own t) }

/-- `validate`. -/
def validate (t : T) (s : State T K V) : State T K V :=
  if (s.cm.txn t).validated then { s.goto t .answered with cm := s.cm.validate t }
  else s.enterValidate t .validating

/-- `commit`, up to the check. -/
def commit (t : T) (s : State T K V) : State T K V :=
  if (s.cm.txn t).validated then s.goto t .passed else s.enterValidate t .committing

/-- Where a transaction goes on when `central_validate` has returned; `commit` returns silently if
its own validation fails. -/
def afterValidate (t : T) (valid : Bool) (s : State T K V) : Pc :=
  match s.pc t, valid with
  | .committing, true => .passed
  | .committing, false => .decided
  | _, _ => .answered

/-- The check of `central_validate`. -/
def validateEnd (t : T) (v : Occ.Validation T (Ptr K)) (meanwhile : List (Finish T K))
    (s : State T K V) : State T K V :=
  let s' := { s with cm := s.cm.validateEnd t v meanwhile }
  if v.validHistory && v.validActive then
    { s'.goto t (s.afterValidate t true) with
      checks := update s.checks t (s.asked t :: s.checks t) }
  else s'

/-- The second critical section of a validation that failed. -/
def dropActive (t : T) (s : State T K V) : State T K V :=
  { s.goto t (s.afterValidate t false) with cm := (s.cm.removeActive t).setStage t .idle }

/-- `timestampCommit`, where the transaction is local. -/
def timestampCommit (t : T) (timestamp : Option ℕ) (s : State T K V) : State T K V :=
  match timestamp with
  | none => s
  | some now => { s with cm := s.cm.setTxn t { s.cm.txn t with timestampCommit := now } }

/-- The rest of `commit`: `concurrencyManager->commit`, which does nothing, and the flag. -/
def commitEnd (t : T) (timestamp : Option ℕ) (s : State T K V) : State T K V :=
  { (s.timestampCommit t timestamp).goto t .decided with
    finished := update s.finished t true
    commits := ⟨t, s.own t, s.checks t⟩ :: s.commits }

/-- `abort`. -/
def abort (t : T) (s : State T K V) : State T K V :=
  { s.goto t .decided with
    cm := s.cm.abort t
    finished := update s.finished t true
    checks := update s.checks t [] }

/-- The next attempt. -/
def nextAttempt (t : T) (s : State T K V) : State T K V :=
  { s.goto t .running with
    attempt := update s.attempt t (s.attempt t + 1)
    known := update s.known t (s.cm.txn t).validated }

/-- `endTransaction`; without the flag `finished` it does nothing. -/
def endTransaction (t : T) (s : State T K V) : State T K V :=
  if s.finished t then { s.goto t .ending with cm := s.cm.finish t } else s.nextAttempt t

/-- The rest of `endTransaction`. -/
def endTransactionEnd (t : T) (wset : List (Ptr K)) (s : State T K V) : State T K V :=
  { s.nextAttempt t with cm := s.cm.finishEnd t wset }

/-- A call is made where the transaction is at `p`. -/
def call (s : State T K V) (t : T) (p : Pc) (s' : State T K V) : Option (State T K V) :=
  if s.pc t = p then some s' else none

end State

/-- The attempts of any number of transactions, interleaved. -/
def machine (T K V : Type u) [DecidableEq T] [DecidableEq K] :
    Machine (State T K V) (Action T K V) where
  init := .init
  step s a :=
    match a with
    | .initContent key row => some { s with cm := s.cm.initContent key row }
    | .beginTransaction t now => s.call t .out (s.beginTransaction t now)
    | .read t key => s.call t .running (s.read t key)
    | .write t key row => s.call t .running (s.write t key row)
    | .validate t => s.call t .running (s.validate t)
    | .commit t => s.call t .answered (s.commit t)
    | .validateBegin t now =>
      match s.cm.stage t with
      | .sampled rset wset => some { s with cm := s.cm.validateBegin t now rset wset }
      | _ => none
    | .validateEnd t =>
      match s.cm.stage t with
      | .checking v meanwhile => some (s.validateEnd t v meanwhile)
      | _ => none
    | .dropActive t =>
      match s.cm.stage t with
      | .failed => some (s.dropActive t)
      | _ => none
    | .commitEnd t timestamp => s.call t .passed (s.commitEnd t timestamp)
    | .abort t => s.call t .answered (s.abort t)
    | .endTransaction t => s.call t .decided (s.endTransaction t)
    | .endTransactionEnd t =>
      match s.cm.stage t with
      | .finishing wset => some (s.endTransactionEnd t wset)
      | _ => none

/-! ## The law, and its condition -/

/-- **Every commit was validated**: `central_validate` returned true, after the last abort, on the
sets of the attempt that is committed. -/
def State.ValidatedOnOwnSets (s : State T K V) : Prop := ∀ c ∈ s.commits, c.own ∈ c.checks

instance [DecidableEq V] (s : State T K V) : Decidable s.ValidatedOnOwnSets := by
  unfold State.ValidatedOnOwnSets; infer_instance

/-- The condition: `validated` was not set when the attempt began that `commit` now goes through
with. -/
def BeganUnvalidated (s : State T K V) : Action T K V → Prop
  | .commitEnd t _ => s.pc t = .passed → s.known t = false
  | _ => True

/-! ## One transaction -/

/-- What the state says about one transaction. -/
structure View (T K V : Type u) where
  /-- where it is -/
  pc : Pc
  /-- the manager's call in progress -/
  stage : Stage T K
  /-- the object -/
  txn : TransactionF K V
  /-- the attempt -/
  attempt : ℕ
  /-- what its last `central_validate` was called on -/
  asked : Check K V
  /-- the calls that returned true since its last abort -/
  checks : List (Check K V)
  /-- `validated`, as it was when the attempt began -/
  known : Bool

/-- What the state says about `t`. -/
def State.view (t : T) (s : State T K V) : View T K V :=
  ⟨s.pc t, s.cm.stage t, s.cm.txn t, s.attempt t, s.asked t, s.checks t, s.known t⟩

/-- The attempt with its sets. -/
def View.own (v : View T K V) : Check K V := ⟨v.attempt, v.txn.readset, v.txn.writeset⟩

/-- What holds of a transaction at each point of its attempt. -/
def View.Here (v : View T K V) : Prop :=
  match v.pc with
  | .out | .running => v.stage = .idle ∧ v.txn.validated = v.known
  | .validating | .committing => v.txn.validated = false ∧ v.asked = v.own
  | .answered => v.stage = .idle ∧ (v.txn.validated = true → v.known = false → v.own ∈ v.checks)
  | .passed => v.stage = .idle ∧ (v.known = false → v.own ∈ v.checks)
  | .decided => v.stage = .idle
  | .ending => ∃ wset, v.stage = .finishing wset

/-- The manager's calls in progress belong to these points of an attempt. -/
def View.Busy (v : View T K V) : Prop :=
  match v.stage with
  | .idle => True
  | .sampled _ _ | .checking _ _ | .failed => v.pc = .validating ∨ v.pc = .committing
  | .finishing _ => v.pc = .ending

/-- **The invariant of one transaction.** -/
structure View.Ok (v : View T K V) : Prop where
  /-- the flag is never cleared -/
  kept : v.known = true → v.txn.validated = true
  /-- a successful `central_validate` is of this attempt or of an earlier one -/
  past : ∀ c ∈ v.checks, c.attempt ≤ v.attempt
  /-- of an earlier one, if the flag was set when this one began -/
  before : v.known = true → ∀ c ∈ v.checks, c.attempt < v.attempt
  /-- the point it is at -/
  here : v.Here
  /-- the manager's call -/
  busy : v.Busy

open State

omit [DecidableEq T] [DecidableEq K] in
theorem view_init (t : T) : ((State.init : State T K V).view t).Ok where
  kept := by simp [view, State.init]
  past := by simp [view, State.init]
  before := by simp [view, State.init]
  here := by simp [View.Here, view, State.init, FrameworkOptimistic.State.init, TransactionF.init]
  busy := by simp [View.Busy, view, State.init, FrameworkOptimistic.State.init]

/-! ## One step -/

/-- What the steps do, with what they wait for. -/
inductive Step (s : State T K V) : Action T K V → State T K V → Prop where
  | initContent (key : K) (row : V) :
      Step s (.initContent key row) { s with cm := s.cm.initContent key row }
  | beginTransaction (t : T) (now : ℕ) (hat : s.pc t = .out) :
      Step s (.beginTransaction t now) (s.beginTransaction t now)
  | read (t : T) (key : K) (hat : s.pc t = .running) : Step s (.read t key) (s.read t key)
  | write (t : T) (key : K) (row : V) (hat : s.pc t = .running) :
      Step s (.write t key row) (s.write t key row)
  | validate (t : T) (hat : s.pc t = .running) : Step s (.validate t) (s.validate t)
  | commit (t : T) (hat : s.pc t = .answered) : Step s (.commit t) (s.commit t)
  | validateBegin (t : T) (now : ℕ) (rset wset : List (Ptr K))
      (hat : s.cm.stage t = .sampled rset wset) :
      Step s (.validateBegin t now) { s with cm := s.cm.validateBegin t now rset wset }
  | validateEnd (t : T) (v : Occ.Validation T (Ptr K)) (meanwhile : List (Finish T K))
      (hat : s.cm.stage t = .checking v meanwhile) :
      Step s (.validateEnd t) (s.validateEnd t v meanwhile)
  | dropActive (t : T) (hat : s.cm.stage t = .failed) : Step s (.dropActive t) (s.dropActive t)
  | commitEnd (t : T) (timestamp : Option ℕ) (hat : s.pc t = .passed) :
      Step s (.commitEnd t timestamp) (s.commitEnd t timestamp)
  | abort (t : T) (hat : s.pc t = .answered) : Step s (.abort t) (s.abort t)
  | endTransaction (t : T) (hat : s.pc t = .decided) :
      Step s (.endTransaction t) (s.endTransaction t)
  | endTransactionEnd (t : T) (wset : List (Ptr K)) (hat : s.cm.stage t = .finishing wset) :
      Step s (.endTransactionEnd t) (s.endTransactionEnd t wset)

variable {t : T} {s s' : State T K V} {a : Action T K V}

omit [DecidableEq T] [DecidableEq K] in
theorem State.call_eq_some {p : Pc} {s₁ : State T K V} :
    s.call t p s₁ = some s' ↔ s.pc t = p ∧ s₁ = s' := by
  simp [call]

theorem step_of_eq_some (h : (machine T K V).step s a = some s') : Step s a s' := by
  cases a with
  | initContent key row =>
    cases h
    exact .initContent key row
  | validateBegin | validateEnd | dropActive | endTransactionEnd =>
    simp only [machine] at h
    split at h
    · cases h
      constructor
      assumption
    · cases h
  | _ =>
    obtain ⟨hat, rfl⟩ := call_eq_some.mp h
    constructor
    exact hat

/-- The transaction an action is of. -/
def Action.txn : Action T K V → Option T
  | .initContent _ _ => none
  | .beginTransaction t _ | .read t _ | .write t _ _ | .validate t | .commit t | .validateBegin t _
  | .validateEnd t | .dropActive t | .commitEnd t _ | .abort t | .endTransaction t
  | .endTransactionEnd t => some t

section Manager

/-! What the manager's calls leave alone of the objects and calls in progress. -/

variable (c : FrameworkOptimistic.State T K V)

omit [DecidableEq T] in
@[simp] theorem initContent_txn (key : K) (row : V) : (c.initContent key row).txn = c.txn := by
  cases h : c.ccMap key <;> simp [initContent, h]

omit [DecidableEq T] in
@[simp] theorem initContent_stage (key : K) (row : V) :
    (c.initContent key row).stage = c.stage := by
  cases h : c.ccMap key <;> simp [initContent, h]

omit [DecidableEq K] in
@[simp] theorem read_stage (t : T) (key : K) : (c.read t key).stage = c.stage := by
  cases h : c.ccMap key <;> simp [FrameworkOptimistic.State.read, setTxn, h]

@[simp] theorem write_stage (t : T) (key : K) (row : V) : (c.write t key row).stage = c.stage := by
  cases h : c.ccMap key <;> simp [FrameworkOptimistic.State.write, h]

omit [DecidableEq K] in
@[simp] theorem read_validated (t t' : T) (key : K) :
    ((c.read t key).txn t').validated = (c.txn t').validated := by
  cases h : c.ccMap key with
  | none => simp [FrameworkOptimistic.State.read, h]
  | some cc =>
    simp only [FrameworkOptimistic.State.read, h, setTxn]
    refine update_field TransactionF.validated ?_ t'
    rfl

@[simp] theorem write_validated (t t' : T) (key : K) (row : V) :
    ((c.write t key row).txn t').validated = (c.txn t').validated := by
  cases h : c.ccMap key with
  | none => simp [FrameworkOptimistic.State.write, h]
  | some cc =>
    simp only [FrameworkOptimistic.State.write, h]
    refine update_field TransactionF.validated ?_ t'
    rfl

variable {t t' : T}

omit [DecidableEq K] in
theorem read_txn_of_ne (hne : t' ≠ t) (key : K) : (c.read t key).txn t' = c.txn t' := by
  cases h : c.ccMap key <;>
    simp [FrameworkOptimistic.State.read, setTxn, h, hne]

theorem write_txn_of_ne (hne : t' ≠ t) (key : K) (row : V) :
    (c.write t key row).txn t' = c.txn t' := by
  cases h : c.ccMap key <;> simp [FrameworkOptimistic.State.write, h, hne]

omit [DecidableEq K] in
@[simp] theorem validate_txn (t : T) : (c.validate t).txn = c.txn := by
  by_cases h : (c.txn t).validated = true <;>
    simp [FrameworkOptimistic.State.validate, setStage, h]

omit [DecidableEq K] in
theorem validate_stage_of_ne (hne : t' ≠ t) : (c.validate t).stage t' = c.stage t' := by
  by_cases h : (c.txn t).validated = true <;>
    simp [FrameworkOptimistic.State.validate, setStage, h, hne]

theorem validateEnd_of_ne (hne : t' ≠ t) (v : Occ.Validation T (Ptr K))
    (meanwhile : List (Finish T K)) : (c.validateEnd t v meanwhile).txn t' = c.txn t' ∧
      (c.validateEnd t v meanwhile).stage t' = c.stage t' := by
  simp only [FrameworkOptimistic.State.validateEnd]
  split_ifs <;> simp [setStage, hne]

end Manager

/-- A step is about one transaction. -/
theorem Step.view_of_ne (h : Step s a s') (hne : ∀ t₁ ∈ a.txn, t ≠ t₁) : s'.view t = s.view t := by
  cases h with try have hn := hne _ rfl
  | initContent key row => simp [view]
  | beginTransaction t₁ now hat => simp [view, State.beginTransaction, goto, start, hn]
  | read t₁ key hat => simp [view, State.read, read_txn_of_ne _ hn]
  | write t₁ key row hat => simp [view, State.write, write_txn_of_ne _ hn]
  | validate t₁ hat =>
    simp only [State.validate]
    split_ifs <;>
      simp [view, enterValidate, goto, hn, validate_stage_of_ne _ hn]
  | commit t₁ hat =>
    simp only [State.commit]
    split_ifs <;>
      simp [view, enterValidate, goto, hn, validate_stage_of_ne _ hn]
  | validateBegin t₁ now rset wset hat => simp [view, State.validateBegin, hn]
  | validateEnd t₁ v meanwhile hat =>
    obtain ⟨htxn, hstage⟩ := validateEnd_of_ne s.cm hn v meanwhile
    simp only [State.validateEnd]
    split_ifs <;> simp [view, goto, hn, htxn, hstage]
  | dropActive t₁ hat =>
    simp [view, State.dropActive, goto, setStage,
      removeActive, hn]
  | commitEnd t₁ timestamp hat =>
    cases timestamp <;>
      simp [view, State.commitEnd, timestampCommit, goto,
        setTxn, hn]
  | abort t₁ hat => simp [view, State.abort, goto, FrameworkOptimistic.State.abort, hn]
  | endTransaction t₁ hat =>
    simp only [State.endTransaction]
    split_ifs <;>
      simp [view, nextAttempt, goto, finish,
        setStage, hn]
  | endTransactionEnd t₁ wset hat =>
    simp [view, State.endTransactionEnd, nextAttempt, goto,
      finishEnd, hn]

section Ok

/-! The invariant of one transaction, at each of its own steps. -/

variable {v : View T K V}

omit [DecidableEq T] [DecidableEq K]

theorem View.Ok.at_running (hv : v.Ok) (hpc : v.pc = .out ∨ v.pc = .running) :
    v.stage = .idle ∧ v.txn.validated = v.known := by
  have h := hv.here
  rcases hpc with hpc | hpc <;> simpa only [View.Here, hpc] using h

theorem View.Ok.at_validation (hv : v.Ok) (hpc : v.pc = .validating ∨ v.pc = .committing) :
    v.txn.validated = false ∧ v.asked = v.own := by
  have h := hv.here
  rcases hpc with hpc | hpc <;> simpa only [View.Here, hpc] using h

theorem View.Ok.at_answered (hv : v.Ok) (hpc : v.pc = .answered) :
    v.stage = .idle ∧ (v.txn.validated = true → v.known = false → v.own ∈ v.checks) := by
  simpa only [View.Here, hpc] using hv.here

theorem View.Ok.at_passed (hv : v.Ok) (hpc : v.pc = .passed) :
    v.stage = .idle ∧ (v.known = false → v.own ∈ v.checks) := by
  simpa only [View.Here, hpc] using hv.here

theorem View.Ok.at_decided (hv : v.Ok) (hpc : v.pc = .decided) : v.stage = .idle := by
  simpa only [View.Here, hpc] using hv.here

variable {x : TransactionF K V} {p : Pc}

section

variable (hv : v.Ok)

include hv

/-- Begin, reads and writes. -/
theorem View.Ok.run (hpc : v.pc = .out ∨ v.pc = .running) (hx : x.validated = v.txn.validated) :
    ({ v with pc := .running, txn := x } : View T K V).Ok where
  kept := by simpa only [hx] using hv.kept
  __ := hv
  here := ⟨(hv.at_running hpc).1, hx.trans (hv.at_running hpc).2⟩
  busy := by simp only [View.Busy, (hv.at_running hpc).1]

/-- `validate` of a transaction whose flag is set: it was set when the attempt began. -/
theorem View.Ok.known_of_running (hpc : v.pc = .running) :
    ({ v with pc := .answered } : View T K V).Ok where
  __ := hv
  here := by
    obtain ⟨hidle, hknown⟩ := hv.at_running (.inr hpc)
    refine ⟨hidle, fun hset hnot => ?_⟩
    rw [hknown, show v.known = false from hnot] at hset
    cases hset
  busy := by simp only [View.Busy, (hv.at_running (.inr hpc)).1]

/-- `commit` of a transaction whose flag is set. -/
theorem View.Ok.pass (hpc : v.pc = .answered) (hset : v.txn.validated = true) :
    ({ v with pc := .passed } : View T K V).Ok where
  __ := hv
  here := ⟨(hv.at_answered hpc).1, (hv.at_answered hpc).2 hset⟩
  busy := by simp only [View.Busy, (hv.at_answered hpc).1]

/-- `central_validate` is entered. -/
theorem View.Ok.enter (hset : v.txn.validated = false) (hp : p = .validating ∨ p = .committing)
    (rset wset : List (Ptr K)) :
    ({ v with pc := p, stage := .sampled rset wset, asked := v.own } : View T K V).Ok where
  __ := hv
  here := by rcases hp with rfl | rfl <;> exact ⟨hset, rfl⟩
  busy := hp

section

variable (hpc : v.pc = .validating ∨ v.pc = .committing)

include hpc

/-- A step inside `central_validate`. -/
theorem View.Ok.within (hx : x.validated = v.txn.validated) (hr : x.readset = v.txn.readset)
    (hw : x.writeset = v.txn.writeset) {p : Stage T K}
    (hp : (∃ c m, p = .checking c m) ∨ p = .failed) :
    ({ v with stage := p, txn := x } : View T K V).Ok where
  kept := by simpa only [hx] using hv.kept
  __ := hv
  here := by
    have h := hv.at_validation hpc
    rcases hpc with hpc | hpc <;> simpa only [View.Here, hpc, View.own, hr, hw, hx] using h
  busy := by
    obtain ⟨c, m, rfl⟩ | rfl := hp
    · exact hpc
    · exact hpc

/-- `central_validate` returns true. -/
theorem View.Ok.valid (hp : p = .answered ∨ p = .passed) :
    ({ v with pc := p, stage := .idle, txn := { v.txn with validated := true },
              checks := v.asked :: v.checks } : View T K V).Ok := by
  obtain ⟨hset, hasked⟩ := hv.at_validation hpc
  exact {
    kept := fun _ => rfl
    past := by
      intro c hc
      rcases mem_cons.mp hc with rfl | hc
      · rw [hasked]
        exact le_rfl
      · exact hv.past c hc
    before := by
      intro hknown
      -- the flag would have been set before this validation
      rw [hv.kept hknown] at hset
      cases hset
    here := by
      rcases hp with rfl | rfl
      · exact ⟨rfl, fun _ _ => hasked ▸ mem_cons_self⟩
      · exact ⟨rfl, fun _ => hasked ▸ mem_cons_self⟩
    busy := trivial }

/-- `central_validate` returns false. -/
theorem View.Ok.invalid (hp : p = .answered ∨ p = .decided) :
    ({ v with pc := p, stage := .idle } : View T K V).Ok where
  __ := hv
  here := by
    rcases hp with rfl | rfl
    · refine ⟨rfl, fun hset => ?_⟩
      rw [(hv.at_validation hpc).1] at hset
      cases hset
    · rfl
  busy := trivial

end

/-- The end of `commit`. -/
theorem View.Ok.commit (hpc : v.pc = .passed) (hx : x.validated = v.txn.validated) :
    ({ v with pc := .decided, txn := x } : View T K V).Ok where
  kept := by simpa only [hx] using hv.kept
  __ := hv
  here := (hv.at_passed hpc).1
  busy := by simp only [View.Busy, (hv.at_passed hpc).1]

/-- `abort`. -/
theorem View.Ok.abort (hpc : v.pc = .answered) :
    ({ v with pc := .decided, checks := [] } : View T K V).Ok where
  kept := hv.kept
  past := by simp
  before := by simp
  here := (hv.at_answered hpc).1
  busy := by simp only [View.Busy, (hv.at_answered hpc).1]

/-- `finish` is entered. -/
theorem View.Ok.ending (wset : List (Ptr K)) :
    ({ v with pc := .ending, stage := .finishing wset } : View T K V).Ok where
  __ := hv
  here := ⟨wset, rfl⟩
  busy := rfl

/-- The next attempt: what was validated so far was validated before it. -/
theorem View.Ok.next (hx : x.validated = v.txn.validated) :
    ({ v with pc := .running, stage := .idle, txn := x, attempt := v.attempt + 1,
              known := v.txn.validated } : View T K V).Ok where
  kept := hx.trans
  past c hc := (hv.past c hc).trans v.attempt.le_succ
  before _ c hc := Nat.lt_succ_of_le (hv.past c hc)
  here := ⟨rfl, hx⟩
  busy := trivial

end

end Ok

omit [DecidableEq T] [DecidableEq K] in
/-- In `central_validate`, a transaction is in `validate` or in `commit`. -/
theorem View.Ok.pc_of_stage (hok : (s.view t).Ok)
    (hat : (∃ r w, s.cm.stage t = .sampled r w) ∨ (∃ v m, s.cm.stage t = .checking v m) ∨
      s.cm.stage t = .failed) : s.pc t = .validating ∨ s.pc t = .committing := by
  have h := hok.busy
  obtain ⟨r, w, hat⟩ | ⟨v, m, hat⟩ | hat := hat <;> simpa only [View.Busy, view, hat] using h

/-- A step keeps the invariant of its own transaction. -/
theorem Step.ok_self (h : Step s a s') (ht : a.txn = some t) (hok : (s.view t).Ok) :
    (s'.view t).Ok := by
  cases h with cases ht
  | beginTransaction t₁ now hat =>
    have := hok.run (.inl hat) (x := (s.cm.start t now).txn t)
      (by simp [view, start])
    simpa [view, State.beginTransaction, goto, start] using this
  | read t₁ key hat =>
    have := hok.run (.inr hat) (read_validated s.cm t t key)
    simpa [view, State.read, hat] using this
  | write t₁ key row hat =>
    have := hok.run (.inr hat) (x := ((s.cm.initContent key row).write t key row).txn t)
      (by simp [view])
    simpa [view, State.write, hat] using this
  | validate t₁ hat =>
    simp only [State.validate]
    split_ifs with hflag
    · simpa [view, goto, FrameworkOptimistic.State.validate, hflag] using hok.known_of_running hat
    · have := hok.enter (eq_false_of_ne_true hflag) (.inl rfl)
        (s.cm.getSet (s.cm.txn t).readset) (s.cm.getSet (s.cm.txn t).writeset)
      simpa [view, enterValidate, goto, FrameworkOptimistic.State.validate,
        setStage, View.own, own, hflag] using this
  | commit t₁ hat =>
    simp only [State.commit]
    split_ifs with hflag
    · simpa [view, goto] using hok.pass hat hflag
    · have := hok.enter (eq_false_of_ne_true hflag) (.inr rfl)
        (s.cm.getSet (s.cm.txn t).readset) (s.cm.getSet (s.cm.txn t).writeset)
      simpa [view, enterValidate, goto, FrameworkOptimistic.State.validate,
        setStage, View.own, own, hflag] using this
  | validateBegin t₁ now rset wset hat =>
    have := hok.within (hok.pc_of_stage (.inl ⟨_, _, hat⟩))
      (x := (s.cm.validateBegin t now rset wset).txn t)
      (p := (s.cm.validateBegin t now rset wset).stage t)
      (by simp [view, State.validateBegin])
      (by simp [view, State.validateBegin])
      (by simp [view, State.validateBegin])
      (.inl ⟨_, _, Function.update_self ..⟩)
    simpa [view] using this
  | validateEnd t₁ v meanwhile hat =>
    have hpc := hok.pc_of_stage (.inr (.inl ⟨_, _, hat⟩))
    simp only [State.validateEnd]
    split_ifs with hvalid
    · have hp : s.afterValidate t true = .answered ∨ s.afterValidate t true = .passed := by
        rcases hpc with hpc | hpc <;> simp [afterValidate, hpc]
      simpa [view, goto, FrameworkOptimistic.State.validateEnd, hvalid] using hok.valid hpc hp
    · have := hok.within hpc rfl rfl rfl (.inr rfl)
      simpa [view, FrameworkOptimistic.State.validateEnd, setStage,
        hvalid] using this
  | dropActive t₁ hat =>
    have hpc := hok.pc_of_stage (.inr (.inr hat))
    have hp : s.afterValidate t false = .answered ∨ s.afterValidate t false = .decided := by
      rcases hpc with hpc | hpc <;> simp [afterValidate, hpc]
    simpa [view, State.dropActive, goto, setStage,
      removeActive] using hok.invalid hpc hp
  | commitEnd t₁ timestamp hat =>
    have := hok.commit hat (x := ((s.timestampCommit t timestamp).cm.txn t))
      (by cases timestamp <;>
            simp [timestampCommit, view, setTxn])
    cases timestamp <;>
      simpa [view, State.commitEnd, goto, timestampCommit,
        setTxn] using this
  | abort t₁ hat =>
    simpa [view, State.abort, goto, FrameworkOptimistic.State.abort] using hok.abort hat
  | endTransaction t₁ hat =>
    simp only [State.endTransaction]
    split_ifs
    · simpa [view, goto, finish,
        setStage] using hok.ending (s.cm.getSet (s.cm.txn t).writeset)
    · have hidle : s.cm.stage t = .idle := hok.at_decided hat
      simpa [view, nextAttempt, goto, hidle] using hok.next rfl
  | endTransactionEnd t₁ wset hat =>
    have := hok.next (x := (s.cm.finishEnd t wset).txn t)
      (by simp [view, finishEnd])
    simpa [view, State.endTransactionEnd, nextAttempt, goto,
      finishEnd] using this

/-- A step keeps the invariant of every transaction. -/
theorem Step.ok (h : Step s a s') (hok : ∀ t, (s.view t).Ok) (t : T) : (s'.view t).Ok := by
  by_cases ht : a.txn = some t
  · exact h.ok_self ht (hok t)
  · have hsame : s'.view t = s.view t :=
      h.view_of_ne fun t₁ h₁ heq => ht (h₁.trans (congrArg some heq.symm))
    exact hsame ▸ hok t

/-! ## The result -/

/-- Only the end of a `commit` is written down. -/
theorem Step.commits_eq (h : Step s a s')
    (hne : ∀ t timestamp, a ≠ .commitEnd t timestamp) : s'.commits = s.commits := by
  cases h with
  | commitEnd t timestamp hat => exact absurd rfl (hne t timestamp)
  | validate t hat =>
    simp only [State.validate]
    split_ifs <;> rfl
  | commit t hat =>
    simp only [State.commit]
    split_ifs <;> rfl
  | validateEnd t v meanwhile hat =>
    simp only [State.validateEnd]
    split_ifs <;> rfl
  | endTransaction t hat =>
    simp only [State.endTransaction]
    split_ifs <;> rfl
  | _ => rfl

omit [DecidableEq T] [DecidableEq K] in
/-- What the end of a `commit` needs for the law. -/
theorem own_mem_checks_iff (hok : (s.view t).Ok) (hat : s.pc t = .passed) :
    s.own t ∈ s.checks t ↔ s.known t = false := by
  refine ⟨fun hmem => ?_, (hok.at_passed hat).2⟩
  by_contra hknown
  exact lt_irrefl _ (hok.before (eq_true_of_ne_false hknown) _ hmem)

/-- **Which commits were validated.** In a run of any number of transactions, each in any number of
attempts, every `concurrencyManager->commit` comes after a `central_validate` of the committed sets
that returned true since the last abort, exactly if `validated` was not set yet at the beginning of
any attempt that is committed. -/
theorem validatedOnOwnSets_iff (as : List (Action T K V)) :
    (∀ k, ∀ s ∈ (machine T K V).run (as.take k), s.ValidatedOnOwnSets) ↔
      (machine T K V).RunOk BeganUnvalidated (machine T K V).init as := by
  refine Machine.runFrom_iff_runOk_of_inv (I := fun s => ∀ t, (s.view t).Ok) ?_ ?_ view_init ?_ as
  · intro s a _ hnone
    cases a with
    | commitEnd t timestamp =>
      intro hat
      have hstep : (machine T K V).step s (.commitEnd t timestamp) =
          some (s.commitEnd t timestamp) :=
        call_eq_some.mpr ⟨hat, rfl⟩
      rw [hnone] at hstep
      cases hstep
    | _ => trivial
  · intro s a s' hok hs h
    have hstep := step_of_eq_some h
    refine ⟨?_, fun _ => hstep.ok hok⟩
    cases hstep with
    | commitEnd t timestamp hat =>
      have hlaw : (s.commitEnd t timestamp).ValidatedOnOwnSets ↔ s.own t ∈ s.checks t := by
        simp only [State.ValidatedOnOwnSets, State.commitEnd, forall_mem_cons]
        exact and_iff_left hs
      rw [hlaw, own_mem_checks_iff (hok t) hat]
      exact ⟨fun h _ => h, fun h => h hat⟩
    | _ =>
      refine iff_of_true ?_ trivial
      simpa only [State.ValidatedOnOwnSets, (step_of_eq_some h).commits_eq (by simp)] using hs
  · simp [State.ValidatedOnOwnSets, machine, State.init]

/-- One transaction: its first attempt is validated and then aborted, its second one commits. -/
def retryCommits : List (Action ℕ ℕ ℕ) :=
  [.initContent 5 50, .beginTransaction 1 1, .read 1 5, .validate 1, .validateBegin 1 2,
    .validateEnd 1, .abort 1, .endTransaction 1, .endTransactionEnd 1,
    .read 1 5, .validate 1, .commit 1, .commitEnd 1 (some 3)]

/-- **The flag outlives the attempt**: the second attempt commits, and `central_validate` was not
called since the abort of the first. -/
theorem not_validatedOnOwnSets_retryCommits :
    ∃ s ∈ (machine ℕ ℕ ℕ).run retryCommits,
      (∃ c ∈ s.commits, c.txn = 1 ∧ c.own.attempt = 1 ∧ c.checks = []) ∧
      ¬ s.ValidatedOnOwnSets := by
  decide +kernel

end FrameworkValidated

end Deneva
