import Deneva.Protocol

/-!
# One attempt without an abort (`system/worker_thread.cpp`)

The part of two-phase commit that comes before it: `run_txn` at the home node, the `RQRY` messages
it sends, `process_rqry` and the `RQRY_RSP` back. The home node waits for each response, so one node
at a time is at work, and a state says which (`Where`).

A `Program` is a `Workload` over a database: what the states find there, and what they change.
`get_row` may make a state wait. It does not abort here: these are the attempts that come to their
commit.
-/

namespace Deneva

universe u v w

open Function Option

namespace Attempt

open Protocol

/-- A workload, with what its states read and change. -/
structure Program (L : Type u) (M : Type v) (D : Type w) where
  /-- the workload -/
  W : Workload L M
  /-- what a state finds: whether `index_read` finds an item, and a value in the row it has -/
  lookup : ℕ → L → D → Bool × ℕ
  /-- what a state that answers `RCOK` changes -/
  effect : ℕ → L → D → D

/-- Where the attempt is. -/
inductive Where (M : Type v) : Type v where
  /-- in `run_txn` at a node -/
  | run (node : ℕ)
  /-- waiting for a row at a node -/
  | wait (node : ℕ)
  /-- an `RQRY` is on its way -/
  | rqry (src dest : ℕ) (m : M)
  /-- an `RQRY_RSP` is on its way -/
  | rsp (dest : ℕ)
  /-- the home node calls `start_commit` -/
  | done
  deriving DecidableEq

/-- The managers of the attempt, and the data. -/
structure State (L : Type u) (M : Type v) (D : Type w) where
  /-- the transaction manager at each node -/
  mgr : ℕ → L
  /-- `return_id` of each manager -/
  returnId : ℕ → ℕ
  /-- where the attempt is -/
  pos : Where M
  /-- the data -/
  data : D
  /-- the `RQRY` messages so far: who sent them, and where to -/
  sent : List (ℕ × ℕ)

/-- The steps. -/
inductive Action : Type where
  /-- `run_txn_state`; `rc` is the answer of `get_row` if it is called -/
  | runTxnState (rc : RC)
  /-- `run_txn` is done -/
  | endRun
  /-- the row is there: `process_rtxn_cont` or `process_rqry_cont` -/
  | resume
  /-- `process_rqry` -/
  | rqry
  /-- `process_rqry_rsp` -/
  | rqryRsp
  deriving DecidableEq

/-- How an attempt begins. -/
structure Setup (L : Type u) (D : Type w) where
  /-- the home node -/
  home : ℕ
  /-- the managers, that of the home node with its query -/
  mgr : ℕ → L
  /-- the data -/
  data : D

variable {L : Type u} {M : Type v} {D : Type w}

namespace State

/-- A new value of one manager. -/
def setMgr (node : ℕ) (l : L) (s : State L M D) : State L M D :=
  { s with mgr := update s.mgr node l }

@[simp] theorem setMgr_self (node : ℕ) (l : L) (s : State L M D) : (s.setMgr node l).mgr node = l :=
  Function.update_self ..

theorem setMgr_of_ne {n node : ℕ} (h : n ≠ node) (l : L) (s : State L M D) :
    (s.setMgr node l).mgr n = s.mgr n :=
  Function.update_of_ne h ..

end State

variable (P : Program L M D) (U : Setup L D)

/-- What `get_row`, `index_read` and the row answer at a node. -/
def answer (rc : RC) (node : ℕ) (s : State L M D) : Answer :=
  ⟨rc, (P.lookup node (s.mgr node) s.data).1, (P.lookup node (s.mgr node) s.data).2⟩

/-- The state after one `run_txn_state`, from what it answered. An attempt that is aborted, and a
message that would be missing, have no next state. -/
def afterState (node : ℕ) (s : State L M D) : RC × L × Option (ℕ × M) → Option (State L M D)
  | (.RCOK, l, none) =>
    some { s.setMgr node l with data := P.effect node (s.mgr node) s.data }
  | (.WAIT, l, none) => some { s.setMgr node l with pos := .wait node }
  | (.WAIT_REM, l, some (dest, m)) =>
    some { s.setMgr node l with pos := .rqry node dest m, sent := s.sent ++ [(node, dest)] }
  | _ => none

/-- The steps of an attempt. Both handlers assert at which node they are. -/
def machine : Machine (State L M D) Action where
  init := ⟨U.mgr, fun _ => U.home, .run U.home, U.data, []⟩
  step s a :=
    match a, s.pos with
    | .runTxnState rc, .run node =>
      if P.W.isDone (s.mgr node) then none
      else (P.W.runTxnState node (decide (node = U.home)) (s.mgr node) (answer P rc node s)).bind
        (afterState P node s)
    | .endRun, .run node =>
      if P.W.isDone (s.mgr node) then
        some { s with pos := if node = U.home then .done else .rsp (s.returnId node) }
      else none
    | .resume, .wait node =>
      some { s.setMgr node (P.W.runTxnPostWait (decide (node = U.home)) (s.mgr node)) with
        pos := .run node }
    | .rqry, .rqry src dest m =>
      if dest = U.home then none
      else some { s.setMgr dest (P.W.copyToTxn m (s.mgr dest)) with
        pos := .run dest, returnId := update s.returnId dest src }
    | .rqryRsp, .rsp dest => if dest = U.home then some { s with pos := .run U.home } else none
    | _, _ => none

variable {P U}

/-- What the steps do, with what they wait for. -/
inductive Step (s : State L M D) : Action → State L M D → Prop where
  | ran (rc : RC) (node : ℕ) (l : L) (hpos : s.pos = .run node)
      (hdone : P.W.isDone (s.mgr node) = false)
      (hrun : P.W.runTxnState node (decide (node = U.home)) (s.mgr node) (answer P rc node s) =
        some (.RCOK, l, none)) :
      Step s (.runTxnState rc) { s.setMgr node l with data := P.effect node (s.mgr node) s.data }
  | waits (rc : RC) (node : ℕ) (l : L) (hpos : s.pos = .run node)
      (hdone : P.W.isDone (s.mgr node) = false)
      (hrun : P.W.runTxnState node (decide (node = U.home)) (s.mgr node) (answer P rc node s) =
        some (.WAIT, l, none)) :
      Step s (.runTxnState rc) { s.setMgr node l with pos := .wait node }
  | sends (rc : RC) (node : ℕ) (l : L) (dest : ℕ) (m : M) (hpos : s.pos = .run node)
      (hdone : P.W.isDone (s.mgr node) = false)
      (hrun : P.W.runTxnState node (decide (node = U.home)) (s.mgr node) (answer P rc node s) =
        some (.WAIT_REM, l, some (dest, m))) :
      Step s (.runTxnState rc)
        { s.setMgr node l with pos := .rqry node dest m, sent := s.sent ++ [(node, dest)] }
  | endRun (node : ℕ) (hpos : s.pos = .run node) (hdone : P.W.isDone (s.mgr node) = true) :
      Step s .endRun { s with pos := if node = U.home then .done else .rsp (s.returnId node) }
  | resume (node : ℕ) (hpos : s.pos = .wait node) :
      Step s .resume { s.setMgr node (P.W.runTxnPostWait (decide (node = U.home)) (s.mgr node)) with
        pos := .run node }
  | rqry (src dest : ℕ) (m : M) (hpos : s.pos = .rqry src dest m) (hne : dest ≠ U.home) :
      Step s .rqry { s.setMgr dest (P.W.copyToTxn m (s.mgr dest)) with
        pos := .run dest, returnId := update s.returnId dest src }
  | rqryRsp (hpos : s.pos = .rsp U.home) : Step s .rqryRsp { s with pos := .run U.home }

theorem step_of_eq_some {s s' : State L M D} {a : Action} (h : (machine P U).step s a = some s') :
    Step (P := P) (U := U) s a s' := by
  cases a <;> cases hpos : s.pos <;> simp only [machine, hpos, reduceCtorEq] at h
  case runTxnState.run rc node =>
    simp only [ite_none_left_eq_some, bind_eq_some_iff] at h
    obtain ⟨hdone, ⟨rc', l, out⟩, hrun, h⟩ := h
    have hdone := eq_false_of_ne_true hdone
    unfold afterState at h
    split at h
    next heq =>
      cases heq
      cases h
      exact .ran rc node l hpos hdone hrun
    next heq =>
      cases heq
      cases h
      exact .waits rc node l hpos hdone hrun
    next heq =>
      cases heq
      cases h
      exact .sends rc node l _ _ hpos hdone hrun
    · cases h
  case endRun.run node =>
    obtain ⟨hdone, h⟩ := ite_none_right_eq_some.mp h
    cases h
    exact .endRun node hpos hdone
  case resume.wait node =>
    cases h
    exact .resume node hpos
  case rqry.rqry src dest m =>
    obtain ⟨hne, h⟩ := ite_none_left_eq_some.mp h
    cases h
    exact .rqry src dest m hpos hne
  case rqryRsp.rsp dest =>
    obtain ⟨rfl, hs⟩ := ite_none_right_eq_some.mp h
    cases hs
    exact .rqryRsp hpos

/-- The steps happen where they can. -/
theorem Step.eq_some {s s' : State L M D} {a : Action} (h : Step (P := P) (U := U) s a s') :
    (machine P U).step s a = some s' := by
  cases h with
  | ran rc node l hpos hdone hrun | waits rc node l hpos hdone hrun
  | sends rc node l dest m hpos hdone hrun => simp [machine, hpos, hdone, hrun, afterState]
  | endRun node hpos hdone => simp [machine, hpos, hdone]
  | resume node hpos | rqryRsp hpos => simp [machine, hpos]
  | rqry src dest m hpos hne => simp [machine, hpos, hne]

/-! ## Noting what the states do -/

section Logged

variable {E : Type w} {note : ℕ → L → List E}

/-- The program that notes, beside its data, what its states do. -/
def Program.logged (P : Program L M D) (note : ℕ → L → List E) : Program L M (D × List E) where
  W := P.W
  lookup node l d := P.lookup node l d.1
  effect node l d := (P.effect node l d.1, d.2 ++ note node l)

/-- Nothing is noted at the beginning. -/
def Setup.logged (E : Type w) (U : Setup L D) : Setup L (D × List E) :=
  ⟨U.home, U.mgr, (U.data, [])⟩

/-- The attempt without its notes. -/
def State.unlogged (s : State L M (D × List E)) : State L M D :=
  ⟨s.mgr, s.returnId, s.pos, s.data.1, s.sent⟩

/-- A step is one without the notes. -/
theorem Step.unlogged {s s' : State L M (D × List E)} {a : Action}
    (h : Step (P := P.logged note) (U := U.logged E) s a s') :
    Step (P := P) (U := U) s.unlogged a s'.unlogged := by
  cases h with
  | ran rc node l hpos hdone hrun => exact .ran rc node l hpos hdone hrun
  | waits rc node l hpos hdone hrun => exact .waits rc node l hpos hdone hrun
  | sends rc node l dest m hpos hdone hrun => exact .sends rc node l dest m hpos hdone hrun
  | endRun node hpos hdone => exact .endRun node hpos hdone
  | resume node hpos => exact .resume node hpos
  | rqry src dest m hpos hne => exact .rqry src dest m hpos hne
  | rqryRsp hpos => exact .rqryRsp hpos

end Logged

end Attempt

end Deneva
