import Deneva.Maat
import Deneva.Transition

/-!
# MaaT on a cluster

All interleavings of transactions under MaaT, on any number of nodes. A transaction has a
manager on each node it runs on; its id names its home node, which decides.

* `start` is the arrival of a transaction on a node (`process_rtxn`, `process_rqry`);
* `access` registers at a row, and `copy` then copies it (`row_t::get_row`);
* `prepare`: all is read and written, the `RPREPARE` messages go out;
* `validate` is `Maat::validate`, on the other nodes first;
* `vote`: the bounds go home with `RACK_PREP`, and `processRackPrep` integrates them;
* `findBound` decides, `abort` gives up, and `processRfin` brings the outcome to a node;
* `commitRow`, `abortRow` give the rows back one by one, last access first, and `release`
  takes the transaction out of the time table and empties its sets.

Messages that wait for delivery are not kept apart from the managers: what a message says
is found in the stage of its sender (`Stage.vote`, `Stage.outcome`), who waits.

A manager from the pool keeps the greatest timestamps of the transaction it last served,
so these are free inputs of `start`. An id starts once here.
-/

namespace Deneva

universe u

open List Option

namespace Maat

/-! ## Transactions on a node -/

/-- `Access`. -/
structure Access (R : Type u) where
  /-- `orig_row` -/
  row : R
  type : AccessT
  /-- `data`, as it was copied -/
  data : Option Install
  /-- the installs on the row when the access was registered; the code does not keep it -/
  seen : List Install

/-- How far a transaction is on a node. -/
inductive Stage (R : Type u) where
  /-- it has not been here -/
  | idle
  /-- it accesses rows -/
  | running
  /-- it is registered at a row, which it is about to copy -/
  | copying (row : R) (type : AccessT) (seen : List Install)
  /-- at home: it waits for `RACK_PREP`; the return code so far, and who answered -/
  | preparing (rc : RC) (acks : List ℕ)
  /-- `validate` returned `RCOK` -/
  | validated
  /-- `validate` or `find_bound` returned `Abort` -/
  | refused
  /-- elsewhere: it has voted to commit, with these bounds -/
  | prepared (lower upper : ℕ)
  /-- it commits; the lower bound it has promised, and the accesses left -/
  | committing (lower : ℕ) (left : List (Access R))
  /-- it has committed -/
  | committed (lower : ℕ)
  /-- it aborts; the bounds it has voted with, and the accesses left -/
  | aborting (bounds : Option (ℕ × ℕ)) (left : List (Access R))
  /-- it has aborted -/
  | aborted (bounds : Option (ℕ × ℕ))

namespace Stage

variable {R : Type u}

/-- It has not been here. -/
def isIdle : Stage R → Bool
  | .idle => true
  | _ => false

/-- It accesses rows. -/
def isRunning : Stage R → Bool
  | .running => true
  | _ => false

/-- It is about to copy a row. -/
def isCopying : Stage R → Bool
  | .copying _ _ _ => true
  | _ => false

/-- It has sent `RPREPARE`. -/
def isPreparing : Stage R → Bool
  | .preparing _ _ => true
  | _ => false

/-- What its `RACK_PREP` says. -/
def vote : Stage R → Option (RC × ℕ × ℕ)
  | .prepared lower upper => some (.RCOK, lower, upper)
  | .aborting (some (lower, upper)) _ | .aborted (some (lower, upper)) =>
    some (.Abort, lower, upper)
  | _ => none

/-- What its `RFIN` says. -/
def outcome : Stage R → Option RC
  | .committing _ _ | .committed _ => some .RCOK
  | .aborting _ _ | .aborted _ => some .Abort
  | _ => none

/-- The access that is committed next. -/
def next : Stage R → Option (Access R)
  | .committing _ (a :: _) => some a
  | _ => none

end Stage

/-- The sets are empty again. -/
def Sets.clear (m : Sets) : Sets :=
  ⟨∅, ∅, ∅, m.greatestWriteTimestamp, m.greatestReadTimestamp⟩

/-- `TxnManager`. -/
structure Manager (R : Type u) where
  /-- the sets and timestamps of MaaT -/
  sets : Sets
  commitTimestamp : ℕ
  accesses : List (Access R)
  /-- how far it is -/
  stage : Stage R

/-- A manager that serves nobody. -/
def Manager.idle (R : Type u) : Manager R := ⟨⟨∅, ∅, ∅, 0, 0⟩, 0, [], .idle⟩

/-! ## The cluster -/

/-- The nodes, and where the rows are. -/
structure Cluster (R : Type u) where
  nodeCnt : ℕ
  /-- the node of a row -/
  loc : R → ℕ

/-- `GET_NODE_ID`: the node that decides about a transaction. -/
def Cluster.home {R : Type u} (C : Cluster R) (txn : ℕ) : ℕ := txn % C.nodeCnt

/-- Time tables, managers and rows. -/
structure State (R : Type u) where
  /-- `time_table`, node by node -/
  table : ℕ → TimeTable
  /-- the manager of a transaction on a node -/
  man : ℕ → ℕ → Manager R
  /-- the rows -/
  row : R → RowMaat

/-- A step. -/
inductive Action (R : Type u) where
  | start (n t gwt grt : ℕ)
  | access (t : ℕ) (row : R) (type : AccessT)
  | copy (n t : ℕ)
  | prepare (t : ℕ)
  | validate (n t : ℕ)
  | vote (n t : ℕ)
  | processRackPrep (t n : ℕ)
  | findBound (t : ℕ)
  | abort (t : ℕ)
  | processRfin (n t : ℕ)
  | commitRow (n t : ℕ)
  | abortRow (n t : ℕ)
  | release (n t : ℕ)

variable {R : Type u} [DecidableEq R]

namespace State

omit [DecidableEq R]

/-- The manager of a transaction changes. -/
def setMan (s : State R) (n t : ℕ) (m : Manager R) : State R :=
  { s with man := fun n' t' => if n' = n ∧ t' = t then m else s.man n' t' }

/-- A transaction goes on. -/
def setStage (s : State R) (n t : ℕ) (p : Stage R) : State R :=
  s.setMan n t { s.man n t with stage := p }

/-- A transaction is done: `TxnManager::release` deletes the sets of one that has committed,
`TxnManager::reset` clears those of one that has aborted. -/
def finish (s : State R) (n t : ℕ) (p : Stage R) : State R :=
  s.setMan n t { s.man n t with sets := (s.man n t).sets.clear, stage := p }

/-- The time table of a node changes. -/
def setTable (s : State R) (n : ℕ) (tt : TimeTable) : State R :=
  { s with table := Function.update s.table n tt }

/-- A transaction copies nothing at the moment. -/
def quiet (C : Cluster R) (s : State R) (t : ℕ) : Bool :=
  (List.range C.nodeCnt).all fun n => !(s.man n t).stage.isCopying

/-- The other nodes of a transaction (`partitions_touched`). -/
def participants (C : Cluster R) (s : State R) (t : ℕ) : List ℕ :=
  (List.range C.nodeCnt).filter fun n => n ≠ C.home t && !(s.man n t).stage.isIdle

end State

/-- A row changes. -/
def State.setRow (s : State R) (r : R) (row : RowMaat) : State R :=
  { s with row := Function.update s.row r row }

omit [DecidableEq R] in
/-- `validate` is due: at home when everybody has answered and agreed, elsewhere when
`RPREPARE` is there. -/
def State.mayValidate (C : Cluster R) (s : State R) (n t : ℕ) : Bool :=
  if n = C.home t then
    match (s.man n t).stage with
    | .preparing .RCOK acks => (s.participants C t).all fun n => n ∈ acks
    | _ => false
  else (s.man n t).stage.isRunning && (s.man (C.home t) t).stage.isPreparing

/-- The bounds of a `RACK_PREP` are integrated (`process_rack_prep`). -/
def integrate (tt : TimeTable) (t : ℕ) (rc : RC) (lower upper : ℕ) : TimeTable :=
  let tt := if lower > tt.getLower t then tt.setLower t lower else tt
  let tt := if upper < tt.getUpper t then tt.setUpper t upper else tt
  if rc ≠ .RCOK then tt.setState t .ABORTED else tt

/-- All interleavings of transactions. -/
def machine (C : Cluster R) : Machine (State R) (Action R) where
  init := ⟨fun _ _ => none, fun _ _ => .idle R, fun _ => .init⟩
  step s
    | .start n t gwt grt =>
      if (s.man n t).stage.isIdle ∧ n < C.nodeCnt ∧ gwt < UINT64_MAX ∧ grt < UINT64_MAX ∧
          (n = C.home t ∨ (s.man (C.home t) t).stage.isRunning ∧ s.quiet C t) then
        some ((s.setTable n ((s.table n).init t)).setMan n t
          { s.man n t with sets := ⟨∅, ∅, ∅, gwt, grt⟩, stage := .running })
      else none
    | .access t row type =>
      let n := C.loc row
      let m := s.man n t
      if m.stage.isRunning ∧ (s.man (C.home t) t).stage.isRunning ∧ s.quiet C t ∧
          (type = .RD ∨ type = .WR) ∧ row ∉ m.accesses.map Access.row then
        some ((s.setRow row ((s.row row).access type t m.sets).1).setMan n t
          { m with
            sets := ((s.row row).access type t m.sets).2
            stage := .copying row type (s.row row).installs })
      else none
    | .copy n t =>
      let m := s.man n t
      match m.stage with
      | .copying row type seen =>
        some (s.setMan n t
          { m with
            accesses := m.accesses ++ [⟨row, type, (s.row row).data, seen⟩], stage := .running })
      | _ => none
    | .prepare t =>
      if (s.man (C.home t) t).stage.isRunning ∧ s.quiet C t then
        some (s.setStage (C.home t) t (.preparing .RCOK []))
      else none
    | .validate n t =>
      if s.mayValidate C n t then
        match Maat.validate (s.table n) t (s.man n t).sets with
        | some (.RCOK, tt) => some ((s.setTable n tt).setStage n t .validated)
        | some (_, tt) => some ((s.setTable n tt).setStage n t .refused)
        | none => none
      else none
    | .vote n t =>
      if n = C.home t then none
      else
        let bounds := ((s.table n).getLower t, (s.table n).getUpper t)
        match (s.man n t).stage with
        | .validated => some (s.setStage n t (.prepared bounds.1 bounds.2))
        | .refused => some (s.setStage n t (.aborting (some bounds) (s.man n t).accesses.reverse))
        | _ => none
    | .processRackPrep t n =>
      let h := C.home t
      match (s.man h t).stage, (s.man n t).stage.vote with
      | .preparing rc acks, some (rc', lower, upper) =>
        if n ∈ acks ∨ n = h then none
        else
          some ((s.setTable h (integrate (s.table h) t rc' lower upper)).setStage h t
            (.preparing (if rc' = .RCOK then rc else rc') (n :: acks)))
      | _, _ => none
    | .findBound t =>
      let h := C.home t
      match (s.man h t).stage with
      | .validated =>
        match Maat.findBound (s.table h) t with
        | (some ts, tt) =>
          some ((s.setTable h tt).setMan h t
            { s.man h t with
              commitTimestamp := ts
              stage := .committing ts (s.man h t).accesses.reverse })
        | (none, tt) => some ((s.setTable h tt).setStage h t .refused)
      | _ => none
    | .abort t =>
      let h := C.home t
      match (s.man h t).stage with
      | .refused => some (s.setStage h t (.aborting none (s.man h t).accesses.reverse))
      | .preparing .Abort acks =>
        if (s.participants C t).all fun n => n ∈ acks then
          some (s.setStage h t (.aborting none (s.man h t).accesses.reverse))
        else none
      | _ => none
    | .processRfin n t =>
      let h := C.home t
      match (s.man n t).stage, (s.man h t).stage.outcome with
      | .prepared lower _, some .RCOK =>
        some (s.setMan n t
          { s.man n t with
            commitTimestamp := (s.man h t).commitTimestamp
            stage := .committing lower (s.man n t).accesses.reverse })
      | .prepared _ _, some .Abort =>
        some (s.setStage n t (.aborting none (s.man n t).accesses.reverse))
      | _, _ => none
    | .commitRow n t =>
      let m := s.man n t
      match m.stage with
      | .committing lower (a :: left) =>
        let (row, tt) := (s.row a.row).commit a.type t m.commitTimestamp m.sets (s.table n)
        some (((s.setRow a.row row).setTable n tt).setStage n t (.committing lower left))
      | _ => none
    | .abortRow n t =>
      match (s.man n t).stage with
      | .aborting bounds (a :: left) =>
        some ((s.setRow a.row ((s.row a.row).abort a.type t)).setStage n t (.aborting bounds left))
      | _ => none
    | .release n t =>
      match (s.man n t).stage with
      | .committing lower [] =>
        some ((s.setTable n ((s.table n).release t)).finish n t (.committed lower))
      | .aborting bounds [] =>
        some ((s.setTable n ((s.table n).release t)).finish n t (.aborted bounds))
      | _ => none

/-! ## What a step does -/

namespace Stage

omit [DecidableEq R]

variable {p : Stage R}

theorem isIdle_iff : p.isIdle = true ↔ p = .idle := by
  cases p <;> simp [isIdle]

theorem isRunning_iff : p.isRunning = true ↔ p = .running := by
  cases p <;> simp [isRunning]

theorem next_eq_some {a : Access R} :
    p.next = some a ↔ ∃ lower left, p = .committing lower (a :: left) := by
  cases p with
  | committing lower left => cases left <;> simp [next, eq_comm]
  | _ => simp [next]

theorem isPreparing_iff : p.isPreparing = true ↔ ∃ rc acks, p = .preparing rc acks := by
  cases p <;> simp [isPreparing]

end Stage

/-- A transaction has registered at a row. -/
def State.entered (C : Cluster R) (s : State R) (t : ℕ) (r : R) (type : AccessT) : State R :=
  let x := (s.row r).access type t (s.man (C.loc r) t).sets
  (s.setRow r x.1).setMan (C.loc r) t
    { s.man (C.loc r) t with sets := x.2, stage := .copying r type (s.row r).installs }

omit [DecidableEq R] in
/-- A transaction has copied a row. -/
def State.copied (s : State R) (n t : ℕ) (r : R) (type : AccessT) (seen : List Install) : State R :=
  s.setMan n t { s.man n t with
    accesses := (s.man n t).accesses ++ [⟨r, type, (s.row r).data, seen⟩]
    stage := .running }

/-- A transaction that commits has given back a row. -/
def State.committed (s : State R) (n t lower : ℕ) (a : Access R) (left : List (Access R)) :
    State R :=
  let x := (s.row a.row).commit a.type t (s.man n t).commitTimestamp (s.man n t).sets (s.table n)
  ((s.setRow a.row x.1).setTable n x.2).setStage n t (.committing lower left)

/-- Everything a step can do. -/
inductive StepCases (C : Cluster R) (s : State R) : Action R → State R → Prop where
  | start {n t gwt grt : ℕ} (hidle : (s.man n t).stage = .idle) (hn : n < C.nodeCnt)
      (hw : gwt < UINT64_MAX) (hr : grt < UINT64_MAX)
      (hhome : n = C.home t ∨ (s.man (C.home t) t).stage = .running) :
      StepCases C s (.start n t gwt grt) ((s.setTable n ((s.table n).init t)).setMan n t
        { s.man n t with sets := ⟨∅, ∅, ∅, gwt, grt⟩, stage := .running })
  | access {t : ℕ} {row : R} {type : AccessT} (hrun : (s.man (C.loc row) t).stage = .running)
      (hhome : (s.man (C.home t) t).stage = .running) (htype : type = .RD ∨ type = .WR)
      (hrow : row ∉ (s.man (C.loc row) t).accesses.map Access.row) :
      StepCases C s (.access t row type) (s.entered C t row type)
  | copy {n t : ℕ} {row : R} {type : AccessT} {seen : List Install}
      (h : (s.man n t).stage = .copying row type seen) :
      StepCases C s (.copy n t) (s.copied n t row type seen)
  | prepare {t : ℕ} (h : (s.man (C.home t) t).stage = .running) (hquiet : s.quiet C t = true) :
      StepCases C s (.prepare t) (s.setStage (C.home t) t (.preparing .RCOK []))
  | validateHome {t : ℕ} {acks : List ℕ} {tt : TimeTable}
      (h : (s.man (C.home t) t).stage = .preparing .RCOK acks)
      (hacks : ∀ n < C.nodeCnt, n ≠ C.home t → (s.man n t).stage ≠ .idle → n ∈ acks)
      (hval : Maat.validate (s.table (C.home t)) t (s.man (C.home t) t).sets = some (.RCOK, tt)) :
      StepCases C s (.validate (C.home t) t)
      ((s.setTable (C.home t) tt).setStage (C.home t) t .validated)
  | validateAway {n t : ℕ} {tt : TimeTable} (hn : n ≠ C.home t) (h : (s.man n t).stage = .running)
      (hhome : ∃ rc acks, (s.man (C.home t) t).stage = .preparing rc acks)
      (hval : Maat.validate (s.table n) t (s.man n t).sets = some (.RCOK, tt)) :
      StepCases C s (.validate n t) ((s.setTable n tt).setStage n t .validated)
  | refuse {n t : ℕ} {rc : RC} {tt : TimeTable}
      (h : (∃ acks, n = C.home t ∧ (s.man n t).stage = .preparing .RCOK acks) ∨
        n ≠ C.home t ∧ (s.man n t).stage = .running ∧
          ∃ rc acks, (s.man (C.home t) t).stage = .preparing rc acks)
      (hrc : rc ≠ .RCOK) (hval : Maat.validate (s.table n) t (s.man n t).sets = some (rc, tt)) :
      StepCases C s (.validate n t) ((s.setTable n tt).setStage n t .refused)
  | vote {n t : ℕ} (hn : n ≠ C.home t) (h : (s.man n t).stage = .validated) :
      StepCases C s (.vote n t)
        (s.setStage n t (.prepared ((s.table n).getLower t) ((s.table n).getUpper t)))
  | voteAbort {n t : ℕ} (hn : n ≠ C.home t) (h : (s.man n t).stage = .refused) :
      StepCases C s (.vote n t)
        (s.setStage n t (.aborting (some ((s.table n).getLower t, (s.table n).getUpper t))
          (s.man n t).accesses.reverse))
  | processRackPrep {n t lower upper : ℕ} {rc rc' : RC} {acks : List ℕ}
      (h : (s.man (C.home t) t).stage = .preparing rc acks)
      (hvote : (s.man n t).stage.vote = some (rc', lower, upper)) (hnew : n ∉ acks)
      (hn : n ≠ C.home t) :
      StepCases C s (.processRackPrep t n)
        ((s.setTable (C.home t) (integrate (s.table (C.home t)) t rc' lower upper)).setStage
          (C.home t) t (.preparing (if rc' = .RCOK then rc else rc') (n :: acks)))
  | findBound {t : ℕ} (h : (s.man (C.home t) t).stage = .validated)
      (hlt : (s.table (C.home t)).getLower t < (s.table (C.home t)).getUpper t) :
      StepCases C s (.findBound t)
        ((s.setTable (C.home t) ((s.table (C.home t)).setState t .COMMITTED)).setMan (C.home t) t
          { s.man (C.home t) t with
            commitTimestamp := (s.table (C.home t)).getLower t
            stage := .committing ((s.table (C.home t)).getLower t)
              (s.man (C.home t) t).accesses.reverse })
  | findBoundAbort {t : ℕ} (h : (s.man (C.home t) t).stage = .validated) :
      StepCases C s (.findBound t)
        ((s.setTable (C.home t) ((s.table (C.home t)).setState t .VALIDATED)).setStage
          (C.home t) t .refused)
  | abort {t : ℕ} (h : (s.man (C.home t) t).stage = .refused ∨
        ∃ acks, (s.man (C.home t) t).stage = .preparing .Abort acks) :
      StepCases C s (.abort t)
        (s.setStage (C.home t) t (.aborting none (s.man (C.home t) t).accesses.reverse))
  | rfinCommit {n t lower upper : ℕ} (h : (s.man n t).stage = .prepared lower upper)
      (hhome : (s.man (C.home t) t).stage.outcome = some .RCOK) :
      StepCases C s (.processRfin n t) (s.setMan n t
        { s.man n t with
          commitTimestamp := (s.man (C.home t) t).commitTimestamp
          stage := .committing lower (s.man n t).accesses.reverse })
  | rfinAbort {n t lower upper : ℕ} (h : (s.man n t).stage = .prepared lower upper)
      (hhome : (s.man (C.home t) t).stage.outcome = some .Abort) :
      StepCases C s (.processRfin n t)
      (s.setStage n t (.aborting none (s.man n t).accesses.reverse))
  | commitRow {n t lower : ℕ} {a : Access R} {left : List (Access R)}
      (h : (s.man n t).stage = .committing lower (a :: left)) :
      StepCases C s (.commitRow n t) (s.committed n t lower a left)
  | abortRow {n t : ℕ} {bounds : Option (ℕ × ℕ)} {a : Access R} {left : List (Access R)}
      (h : (s.man n t).stage = .aborting bounds (a :: left)) :
      StepCases C s (.abortRow n t)
        ((s.setRow a.row ((s.row a.row).abort a.type t)).setStage n t (.aborting bounds left))
  | releaseCommit {n t lower : ℕ} (h : (s.man n t).stage = .committing lower []) :
      StepCases C s (.release n t)
        ((s.setTable n ((s.table n).release t)).finish n t (.committed lower))
  | releaseAbort {n t : ℕ} {bounds : Option (ℕ × ℕ)} (h : (s.man n t).stage = .aborting bounds []) :
      StepCases C s (.release n t)
        ((s.setTable n ((s.table n).release t)).finish n t (.aborted bounds))

variable {C : Cluster R} {s s' : State R} {a : Action R}

omit [DecidableEq R] in
theorem State.mayValidate_cases {n t : ℕ} (h : s.mayValidate C n t = true) :
    (∃ acks, n = C.home t ∧ (s.man n t).stage = .preparing .RCOK acks ∧
      ∀ n < C.nodeCnt, n ≠ C.home t → (s.man n t).stage ≠ .idle → n ∈ acks) ∨
    n ≠ C.home t ∧ (s.man n t).stage = .running ∧
      ∃ rc acks, (s.man (C.home t) t).stage = .preparing rc acks := by
  rw [mayValidate] at h
  split at h
  next hn =>
    split at h
    next acks hst =>
      refine .inl ⟨acks, hn, hst, fun n hlt hne hidle => ?_⟩
      simp only [List.all_eq_true, decide_eq_true_eq] at h
      refine h n (mem_filter.mpr ⟨mem_range.mpr hlt, ?_⟩)
      simp [hne, Bool.eq_false_iff.mpr (Stage.isIdle_iff.not.mpr hidle)]
    · cases h
  · obtain ⟨hrun, hprep⟩ := Bool.and_eq_true_iff.mp h
    exact .inr ⟨‹_›, Stage.isRunning_iff.mp hrun, Stage.isPreparing_iff.mp hprep⟩

/-- **What a step does**, with the values it reads: all later invariants go through these cases. -/
theorem step_cases (hs : (machine C).step s a = some s') : StepCases C s a s' := by
  cases a with
  | start n t gwt grt =>
    obtain ⟨⟨hidle, hn, hw, hr, hhome⟩, hs⟩ := ite_none_right_eq_some.mp hs
    cases hs
    exact .start (Stage.isIdle_iff.mp hidle) hn hw hr
      (hhome.imp_right fun h => Stage.isRunning_iff.mp h.1)
  | access t row type =>
    obtain ⟨⟨hrun, hhome, -, htype, hrow⟩, hs⟩ := ite_none_right_eq_some.mp hs
    cases hs
    exact .access (Stage.isRunning_iff.mp hrun) (Stage.isRunning_iff.mp hhome) htype hrow
  | copy | processRfin | commitRow | abortRow | release =>
    simp only [machine] at hs
    split at hs <;> cases hs
    all_goals constructor <;> assumption
  | prepare t =>
    obtain ⟨⟨hrun, hquiet⟩, hs⟩ := ite_none_right_eq_some.mp hs
    cases hs
    exact .prepare (Stage.isRunning_iff.mp hrun) hquiet
  | validate n t =>
    obtain ⟨hmay, hs⟩ := ite_none_right_eq_some.mp hs
    have hcases := State.mayValidate_cases hmay
    split at hs
    · cases hs
      rcases hcases with ⟨acks, rfl, hst, hacks⟩ | ⟨hn, hrun, hhome⟩
      · exact .validateHome hst hacks ‹_›
      · exact .validateAway hn hrun hhome ‹_›
    · cases hs
      exact .refuse (hcases.imp_left fun ⟨acks, hn, hst, _⟩ => ⟨acks, hn, hst⟩) ‹_› ‹_›
    · cases hs
  | vote n t =>
    obtain ⟨hn, hs⟩ := ite_none_left_eq_some.mp hs
    split at hs
    · cases hs
      exact .vote hn ‹_›
    · cases hs
      exact .voteAbort hn ‹_›
    · cases hs
  | processRackPrep t n =>
    simp only [machine] at hs
    split at hs
    · obtain ⟨hn, hs⟩ := ite_none_left_eq_some.mp hs
      cases hs
      exact .processRackPrep ‹_› ‹_› (fun h => hn (.inl h)) fun h => hn (.inr h)
    · cases hs
  | findBound t =>
    simp only [machine, Maat.findBound] at hs
    split at hs
    next hst =>
      by_cases hlt : (s.table (C.home t)).getLower t ≥ (s.table (C.home t)).getUpper t
      · rw [if_pos hlt] at hs
        cases hs
        exact .findBoundAbort hst
      · rw [if_neg hlt] at hs
        cases hs
        exact .findBound hst (Nat.lt_of_not_le hlt)
    · cases hs
  | abort t =>
    simp only [machine] at hs
    split at hs
    · cases hs
      exact .abort (.inl ‹_›)
    · obtain ⟨-, hs⟩ := ite_none_right_eq_some.mp hs
      cases hs
      exact .abort (.inr ⟨_, ‹_›⟩)
    · cases hs

/-! ## Installs and commit timestamps -/

/-- **The row follows the commit timestamps**: it holds what the writer with the greatest
one left, and that is `timestamp_last_write`. -/
def RowMaat.Follows (row : RowMaat) : Prop :=
  match row.data with
  | none => row.installs = []
  | some i => i ∈ row.installs ∧ i.ts = row.timestampLastWrite ∧ ∀ j ∈ row.installs, j.ts ≤ i.ts

/-- A write is installed on a row only with a commit timestamp that is not below
`timestamp_last_write`. -/
def InstallsInOrder (s : State R) : Action R → Prop
  | .commitRow n t =>
    ∀ a ∈ (s.man n t).stage.next, a.type = .WR →
      (s.row a.row).timestampLastWrite ≤ (s.man n t).commitTimestamp
  | _ => True

namespace RowMaat

variable {row row' : RowMaat}

theorem Follows.le_last (h : row.Follows) : ∀ j ∈ row.installs, j.ts ≤ row.timestampLastWrite := by
  rw [Follows] at h
  split at h
  · rw [h]
    exact fun j hj => absurd hj not_mem_nil
  · exact h.2.1 ▸ h.2.2

theorem follows_congr (hdata : row'.data = row.data) (hinstalls : row'.installs = row.installs)
    (hlast : row'.timestampLastWrite = row.timestampLastWrite) : row'.Follows ↔ row.Follows := by
  rw [Follows, Follows, hdata, hinstalls, hlast]

variable {txn : ℕ} {type : AccessT}

/-- A write keeps the row in order exactly when its commit timestamp is not too small. -/
theorem commitWrite_follows (h : row.Follows) {ts : ℕ} :
    (row.commitWrite txn ts).Follows ↔ row.timestampLastWrite ≤ ts := by
  have hlast := h.le_last
  simp only [Follows, commitWrite]
  constructor
  · rintro ⟨-, hts, -⟩
    split at hts <;> omega
  · intro hle
    refine ⟨mem_cons_self, ?_, forall_mem_cons.mpr ⟨le_rfl, fun j hj => (hlast j hj).trans hle⟩⟩
    split <;> omega

theorem access_follows {m : Sets} : (row.access type txn m).1.Follows ↔ row.Follows := by
  cases type <;> exact follows_congr rfl rfl rfl

theorem abort_follows : (row.abort type txn).Follows ↔ row.Follows := by
  cases type <;> exact follows_congr rfl rfl rfl

theorem commit_follows (h : row.Follows) {ts : ℕ} {m : Sets} {tt : TimeTable} :
    (row.commit type txn ts m tt).1.Follows ↔ (type = .WR → row.timestampLastWrite ≤ ts) := by
  cases type with
  | WR => exact (commitWrite_follows h).trans (by simp)
  | RD => exact iff_of_true ((follows_congr rfl rfl rfl).mpr h) (by simp)
  | XP => exact iff_of_true h (by simp)
  | SCAN => exact iff_of_true h (by simp)

end RowMaat

/-- A row changes and the others do not. -/
theorem State.forall_setRow {P : RowMaat → Prop} {r : R} {row : RowMaat} (h : ∀ r, P (s.row r)) :
    (∀ r', P ((s.setRow r row).row r')) ↔ P row := by
  rw [setRow]
  exact (Function.forall_update_iff s.row fun _ => P).trans (and_iff_left fun r' _ => h r')

/-- A step keeps all rows in order exactly when it does not install too small a timestamp. -/
theorem step_follows (h : ∀ r, (s.row r).Follows) (hs : (machine C).step s a = some s') :
    (∀ r, (s'.row r).Follows) ↔ InstallsInOrder s a := by
  cases step_cases hs with
  | access =>
    exact iff_of_true ((State.forall_setRow h).mpr (RowMaat.access_follows.mpr (h _))) trivial
  | abortRow =>
    exact iff_of_true ((State.forall_setRow h).mpr (RowMaat.abort_follows.mpr (h _))) trivial
  | commitRow hst =>
    refine (State.forall_setRow h).trans ((RowMaat.commit_follows (h _)).trans ?_)
    rw [InstallsInOrder, hst]
    exact ⟨fun hle a' ha' => some.inj ha' ▸ hle, fun hle => hle _ rfl⟩
  | start | copy | prepare | validateHome | validateAway | refuse | vote | voteAbort
    | processRackPrep
    | findBound | findBoundAbort | abort | rfinCommit | rfinAbort | releaseCommit | releaseAbort =>
    exact iff_of_true h trivial

theorem installsInOrder_of_none (hs : (machine C).step s a = none) : InstallsInOrder s a := by
  cases a with
  | commitRow n t =>
    intro a ha
    obtain ⟨lower, left, hst⟩ := Stage.next_eq_some.mp ha
    simp only [machine] at hs
    rw [hst] at hs
    cases hs
  | _ => trivial

/-- **Rows follow the commit timestamps exactly in the runs that install writes in order.** A row
holds the write with the greatest commit timestamp, in every state of a run, if and only if no
`Row_maat::commit` of the run installs a write below `timestamp_last_write`. The code does not check
that: the last one to install wins. -/
theorem rowValue_follows_iff (C : Cluster R) (as : List (Action R)) :
    (∀ k, ∀ s ∈ (machine C).run (as.take k), ∀ r, (s.row r).Follows) ↔
      (machine C).RunOk InstallsInOrder (machine C).init as := by
  apply Machine.runFrom_iff_runOk
  · exact fun s a => installsInOrder_of_none
  · exact fun s a s' h hs => step_follows h hs
  · exact fun _ => rfl

/-- One node that has all rows. -/
def oneNode : Cluster ℕ := ⟨1, fun _ => 0⟩

/-- Transaction 3 prewrites row 1 before transaction 4 does, but a reader of row 0 pushes it
behind: 4 commits at 1, 3 at 3. Row 1 gets their writes in the order in which they come. -/
def lateInstall : List (Action ℕ) :=
  [.start 0 1 0 0, .access 1 0 .WR, .copy 0 1, .prepare 1, .validate 0 1, .findBound 1,
    .commitRow 0 1, .release 0 1,
    .start 0 2 0 0, .access 2 0 .RD, .copy 0 2,
    .start 0 3 0 0, .access 3 0 .WR, .copy 0 3, .access 3 1 .WR, .copy 0 3,
    .start 0 4 0 0, .access 4 1 .WR, .copy 0 4,
    .prepare 2, .validate 0 2, .findBound 2, .commitRow 0 2, .release 0 2,
    .prepare 4, .validate 0 4, .findBound 4,
    .prepare 3, .validate 0 3, .findBound 3, .commitRow 0 3, .commitRow 0 3, .release 0 3,
    .commitRow 0 4]

/-- **A row can end up with the older write**: the transaction with the smaller commit timestamp
gives back its row after the other one, and its data stays. -/
theorem rowValue_overwritten :
    ∃ s, (machine oneNode).run lateInstall = some s ∧ (s.row 1).data = some ⟨4, 1⟩ ∧
      (s.row 1).timestampLastWrite = 3 ∧ (s.row 1).installs = [⟨4, 1⟩, ⟨3, 3⟩] ∧
      ¬ (s.row 1).Follows := by
  have hrun : ((machine oneNode).run lateInstall).map
      (fun s => ((s.row 1).data, (s.row 1).timestampLastWrite, (s.row 1).installs)) =
        some (some ⟨4, 1⟩, 3, [⟨4, 1⟩, ⟨3, 3⟩]) := by
    decide +kernel
  obtain ⟨s, hs, heq⟩ := map_eq_some_iff.mp hrun
  obtain ⟨hdata, hlast, hinstalls⟩ := by simpa only [Prod.mk.injEq] using heq
  refine ⟨s, hs, hdata, hlast, hinstalls, fun h => ?_⟩
  rw [RowMaat.Follows, hdata, hlast] at h
  cases h.2.1

end Maat

end Deneva
