import Deneva.Occ

/-!
# Central validation, one critical section and one test at a time

`OptCC::central_validate` and `OptCC::central_finish` (`PER_ROW_VALID` off), by any number of
transaction managers that go from one attempt to the next. A critical section of the semaphore is
one step, and so is each test of the loops between them.

* `Stage` is where the loops of `central_validate` are. What they come to is what `Occ` has in one
  step (`result_first`).
* `machine` keeps the lengths `active_len` and `his_len` and the counter of writes, as the source
  does. A step has no result where an assertion fails or `finish_active` is too short or too long.
* `Inv.order` is the argument: an entry of `active` was pushed by a transaction that saw all entries
  below it, since entries are pushed in front and only taken out after that.
-/

namespace Deneva

universe u v

open Function List Option

namespace Occ

namespace Central

/-! ## Attempts -/

/-- What `get_rw_set` reads of a transaction. -/
structure Attempt (R : Type v) where
  /-- `get_start_timestamp` -/
  startTn : ℕ
  /-- `accesses`; `row_cnt` is their number -/
  accesses : List (Access R)
  writeCnt : ℕ

variable {T : Type u} {R : Type v} [DecidableEq R]

namespace Attempt

/-- `get_write_set_size`. -/
def writeSetSize (x : Attempt R) : ℕ := x.writeCnt

/-- `get_read_set_size`. -/
def readSetSize (x : Attempt R) : ℕ := x.accesses.length - x.writeCnt

/-- A row is accessed (`TxnManager::get_row`). -/
def access (x : Attempt R) (row : R) (type : AccessT) : Attempt R :=
  { x with
    accesses := x.accesses ++ [⟨row, type⟩]
    writeCnt := if type = .WR then x.writeCnt + 1 else x.writeCnt }

/-- `get_rw_set`: `rset` and `wset`, with its assertions. -/
def getRwSet (x : Attempt R) : Option (List R × List R) :=
  let accesses := x.accesses.take (x.writeSetSize + x.readSetSize)
  if (writeSet accesses).length = x.writeSetSize ∧ (readSet accesses).length = x.readSetSize then
    some (readSet accesses, writeSet accesses)
  else none

end Attempt

/-! ## The tests of `central_validate` -/

/-- What `central_validate` works on between its critical sections. -/
structure Tests (T : Type u) (R : Type v) where
  startTn : ℕ
  finishTn : ℕ
  finishActive : List (SetEnt T R)
  rset : List R
  wset : List R

/-- Where its loops are. -/
inductive Stage (T : Type u) (R : Type v) where
  /-- entries of `history` that are too new are skipped -/
  | newer (his : List (SetEnt T R))
  /-- those since the start are tested -/
  | older (his : List (SetEnt T R))
  /-- the rest of `finish_active` is tested -/
  | actives (rest : List (SetEnt T R))

namespace Stage

/-- Where they start. -/
def first (v : Tests T R) (his : List (SetEnt T R)) : Stage T R :=
  if v.finishTn > v.startTn then .newer his else .actives v.finishActive

/-- The next test: on with the loops, or `final` with `valid`. -/
def next (v : Tests T R) : Stage T R → Stage T R ⊕ Bool
  | .newer [] => .inl (.older [])
  | .newer (e :: his) => if e.tn > v.finishTn then .inl (.newer his) else .inl (.older (e :: his))
  | .older [] => .inl (.actives v.finishActive)
  | .older (e :: his) =>
    if e.tn > v.startTn then (if testValid e.rows v.rset then .inl (.older his) else .inr false)
    else .inl (.actives v.finishActive)
  | .actives [] => .inr true
  | .actives (e :: rest) =>
    if testValid e.rows v.rset && testValid e.rows v.wset then .inl (.actives rest) else .inr false

end Stage

/-! ## The machine -/

/-- How far a transaction manager is. -/
inductive Phase (T : Type u) (R : Type v) where
  /-- between attempts -/
  | idle
  /-- it accesses rows -/
  | running (x : Attempt R)
  /-- it is between the critical sections of `central_validate` -/
  | testing (x : Attempt R) (v : Tests T R) (stage : Stage T R)
  /-- a test failed, and the second critical section is to come -/
  | failed (x : Attempt R) (v : Tests T R)
  /-- `central_validate` returned `RCOK` -/
  | valid (x : Attempt R) (v : Tests T R)
  /-- `central_validate` returned `Abort` -/
  | dropped (x : Attempt R)

/-- `OptCC` and the transaction managers. -/
structure State (T : Type u) (R : Type v) where
  tnc : ℕ
  history : List (SetEnt T R)
  hisLen : ℕ
  active : List (SetEnt T R)
  activeLen : ℕ
  /-- the transaction managers -/
  phase : T → Phase T R

/-- A step. -/
inductive Action (T : Type u) (R : Type v) where
  | start (t : T) (startTn : ℕ)
  | access (t : T) (row : R) (type : AccessT)
  /-- the first critical section of `central_validate` -/
  | validateBegin (t : T) (finishTn : ℕ)
  /-- the next test -/
  | test (t : T)
  /-- the second critical section -/
  | dropActive (t : T)
  /-- `central_finish` -/
  | finish (t : T) (rc : RC)

variable [DecidableEq T]

namespace State

/-- A transaction manager goes on. -/
def setPhase (s : State T R) (t : T) (p : Phase T R) : State T R :=
  { s with phase := update s.phase t p }

/-- The entry of a transaction is taken out of `active`, if there is one. -/
def removeActive (s : State T R) (t : T) : State T R :=
  if s.active.any fun e => e.txn = t then
    { s with active := s.active.eraseP fun e => e.txn = t, activeLen := s.activeLen - 1 }
  else s

/-- The first critical section of `central_validate`. `finish_active` has room for `active_len`
entries, and as many are looked at. -/
def validateBegin (s : State T R) (t : T) (x : Attempt R) (finishTn : ℕ) : Option (State T R) :=
  match x.getRwSet with
  | none => none
  | some (rset, wset) =>
    if s.active.length = s.activeLen then
      let v : Tests T R := ⟨x.startTn, finishTn, s.active, rset, wset⟩
      let s :=
        if wset.isEmpty then s
        else { s with active := ⟨0, t, wset⟩ :: s.active, activeLen := s.activeLen + 1 }
      some (s.setPhase t (.testing x v (.first v s.history)))
    else none

/-- `central_finish`. -/
def centralFinish (s : State T R) (t : T) (x : Attempt R) (rc : RC) : Option (State T R) :=
  match x.getRwSet with
  | none => none
  | some (_, wset) =>
    if wset.isEmpty then some s
    else
      match s.active.find? fun e => e.txn = t with
      | none => if rc = .Abort then some s else none
      | some act =>
        if act.txn = t then
          let s := s.removeActive t
          if rc = .RCOK then
            some { s with
              tnc := s.tnc + 1, history := ⟨s.tnc + 1, t, wset⟩ :: s.history,
                hisLen := s.hisLen + 1 }
          else some s
        else none

end State

/-- The attempt that may be finished so: with `RCOK` only after `central_validate` returned that. -/
def Phase.finishing : Phase T R → RC → Option (Attempt R)
  | .valid x _, .RCOK => some x
  | .valid x _, .Abort => some x
  | .dropped x, .Abort => some x
  | .running x, .Abort => some x
  | _, _ => none

/-- All interleavings. -/
def machine (T : Type u) (R : Type v) [DecidableEq R] [DecidableEq T] :
    Machine (State T R) (Action T R) where
  init := ⟨0, [], 0, [], 0, fun _ => .idle⟩
  step s
    | .start t startTn =>
      match s.phase t with
      | .idle => some (s.setPhase t (.running ⟨startTn, [], 0⟩))
      | _ => none
    | .access t row type =>
      match s.phase t with
      | .running x => some (s.setPhase t (.running (x.access row type)))
      | _ => none
    | .validateBegin t finishTn =>
      match s.phase t with
      | .running x => s.validateBegin t x finishTn
      | _ => none
    | .test t =>
      match s.phase t with
      | .testing x v stage =>
        match stage.next v with
        | .inl stage => some (s.setPhase t (.testing x v stage))
        | .inr true => some (s.setPhase t (.valid x v))
        | .inr false => some (s.setPhase t (.failed x v))
      | _ => none
    | .dropActive t =>
      match s.phase t with
      | .failed x _ => some ((s.removeActive t).setPhase t (.dropped x))
      | _ => none
    | .finish t rc =>
      match (s.phase t).finishing rc with
      | some x => (s.centralFinish t x rc).map (·.setPhase t .idle)
      | none => none

/-! ## What the loops come to -/

/-- The tests against `finish_active`. -/
def Tests.passes (v : Tests T R) (rest : List (SetEnt T R)) : Bool :=
  rest.all fun e => testValid e.rows v.rset && testValid e.rows v.wset

/-- What is left of the loops to find out. -/
def Stage.result (v : Tests T R) : Stage T R → Bool
  | .newer his =>
    (((his.dropWhile fun e => v.finishTn < e.tn).takeWhile fun e => v.startTn < e.tn).all
      fun e => testValid e.rows v.rset) && v.passes v.finishActive
  | .older his =>
    ((his.takeWhile fun e => v.startTn < e.tn).all fun e => testValid e.rows v.rset) &&
      v.passes v.finishActive
  | .actives rest => v.passes rest

omit [DecidableEq T] in
/-- **A test at a time**, the loops find that out. -/
theorem Stage.result_next (v : Tests T R) (stage : Stage T R) :
    stage.result v = (stage.next v).elim (Stage.result v) id := by
  rcases stage with his | his | rest
  · rcases his with _ | ⟨e, his⟩
    · rfl
    · by_cases he : v.finishTn < e.tn
      · rw [next, if_pos he, Sum.elim_inl, result, result,
          dropWhile_cons_of_pos (by simpa using he)]
      · rw [next, if_neg he, Sum.elim_inl, result, result,
          dropWhile_cons_of_neg (by simpa using he)]
  · rcases his with _ | ⟨e, his⟩
    · rfl
    · by_cases he : v.startTn < e.tn
      · rw [next, if_pos he, result, takeWhile_cons_of_pos (by simpa using he), all_cons]
        cases testValid e.rows v.rset <;> rfl
      · rw [next, if_neg he, result, takeWhile_cons_of_neg (by simpa using he)]
        rfl
  · rcases rest with _ | ⟨e, rest⟩
    · rfl
    · rw [result, next, Tests.passes, all_cons]
      cases testValid e.rows v.rset && testValid e.rows v.wset <;> rfl

omit [DecidableEq T] in
/-- It is what `Occ` has in one step. -/
theorem Stage.result_first (v : Tests T R) (his : List (SetEnt T R)) (since : ℕ) :
    (Stage.first v his).result v =
      let w : Validation T R := ⟨v.startTn, v.finishTn, v.finishActive, his, v.rset, v.wset, since⟩
      w.validHistory && w.validActive := by
  change _ = ((if v.startTn < v.finishTn then _ else true) && v.passes v.finishActive)
  rw [first]
  split
  · rfl
  · exact (Bool.true_and _).symm

/-! ## The invariant -/

/-- `write_cnt` counts the writes. -/
def Attempt.Counted (x : Attempt R) : Prop := x.writeCnt = (writeSet x.accesses).length

/-- The tests are of this attempt. -/
def Tests.For (v : Tests T R) (x : Attempt R) : Prop :=
  v.rset = readSet x.accesses ∧ v.wset = writeSet x.accesses

/-- The tests of a transaction that may be in `active`. -/
def Phase.tests : Phase T R → Option (Tests T R)
  | .testing _ v _ | .failed _ v | .valid _ v => some v
  | .idle | .running _ | .dropped _ => none

/-- What holds of a transaction manager. -/
def Phase.Ok : Phase T R → Prop
  | .idle => True
  | .running x | .dropped x => x.Counted
  | .testing x v stage =>
    x.Counted ∧ v.For x ∧ (stage.result v = true → v.passes v.finishActive = true)
  | .failed x v => x.Counted ∧ v.For x
  | .valid x v => x.Counted ∧ v.For x ∧ v.passes v.finishActive = true

/-- The transaction of an entry saw another entry when it took its snapshot. -/
def Saw (phase : T → Phase T R) (a b : SetEnt T R) : Prop :=
  ∀ v, (phase a.txn).tests = some v → b ∈ v.finishActive

/-- **What holds in every state.** -/
structure Inv (s : State T R) : Prop where
  /-- `active_len` is the length of `active` -/
  activeLen : s.activeLen = s.active.length
  /-- no transaction is twice in `active` -/
  once : (s.active.map SetEnt.txn).Nodup
  /-- an entry has the write set its transaction is tested with -/
  entry : ∀ e ∈ s.active, ∃ v, (s.phase e.txn).tests = some v ∧ e.rows = v.wset ∧ v.wset ≠ []
  /-- a transaction that is tested, and writes, has an entry -/
  listed : ∀ t v, (s.phase t).tests = some v → v.wset ≠ [] → ∃ e ∈ s.active, e.txn = t
  /-- **a transaction saw the entries below its own** -/
  order : s.active.Pairwise (Saw s.phase)
  /-- `his_len` is the length of `history` -/
  hisLen : s.hisLen = s.history.length
  /-- `history` is numbered in descending order -/
  sorted : s.history.Pairwise fun a b => b.tn < a.tn
  /-- `tnc` is the greatest number -/
  tnc : ∀ e ∈ s.history, e.tn ≤ s.tnc
  /-- what holds of the transaction managers -/
  phase : ∀ t, (s.phase t).Ok

section Lemmas

variable {s s' : State T R} {t : T} {x : Attempt R} {p : Phase T R}

omit [DecidableEq R] in
theorem length_writeSet_add_readSet (accesses : List (Access R)) :
    (writeSet accesses).length + (readSet accesses).length = accesses.length := by
  rw [writeSet, readSet, length_map, length_map,
    length_eq_length_filter_add (l := accesses) fun a => decide (a.type = AccessT.WR)]
  simp only [ne_eq, decide_not]

omit [DecidableEq R] in
/-- `get_rw_set` meets its assertions. -/
theorem Attempt.Counted.getRwSet (h : x.Counted) :
    x.getRwSet = some (readSet x.accesses, writeSet x.accesses) := by
  have hlen := length_writeSet_add_readSet x.accesses
  rw [Attempt.Counted] at h
  have hsum : x.writeSetSize + x.readSetSize = x.accesses.length := by
    rw [Attempt.writeSetSize, Attempt.readSetSize]
    omega
  rw [Attempt.getRwSet, hsum, take_length, if_pos]
  rw [Attempt.writeSetSize, Attempt.readSetSize]
  omega

omit [DecidableEq R] in
theorem Attempt.Counted.access (h : x.Counted) (row : R) (type : AccessT) :
    (x.access row type).Counted := by
  rw [Attempt.Counted] at h
  rw [Attempt.Counted, Attempt.access, writeSet, filter_append, map_append, length_append,
    ← writeSet, h]
  by_cases htype : type = .WR
  · simp [htype]
  · simp [htype]

omit [DecidableEq R] in
theorem setPhase_self (s : State T R) (t : T) (p : Phase T R) : (s.setPhase t p).phase t = p :=
  update_self ..

/-- A step that leaves the tests of its transaction. -/
theorem Inv.setPhase (h : Inv s) (htests : p.tests = (s.phase t).tests) (hp : p.Ok) :
    Inv (s.setPhase t p) := by
  have hsame : ∀ u, ((s.setPhase t p).phase u).tests = (s.phase u).tests := by
    intro u
    change (update s.phase t p u).tests = _
    by_cases hu : u = t
    · rw [hu, update_self, htests]
    · rw [update_of_ne hu]
  exact
    { h with
      entry := fun e he => hsame e.txn ▸ h.entry e he
      listed := fun u v hv => h.listed u v (hsame u ▸ hv)
      order := h.order.imp fun hab v hv => hab v (hsame _ ▸ hv)
      phase := (forall_update_iff s.phase fun _ p => p.Ok).mpr ⟨hp, fun u _ => h.phase u⟩ }

theorem Inv.removeActive_eq (h : Inv s) (t : T) :
    s.removeActive t = { s with
      active := s.active.eraseP fun e => e.txn = t
      activeLen := (s.active.eraseP fun e => e.txn = t).length } := by
  rw [State.removeActive]
  split
  next hany =>
    rw [length_eraseP, if_pos hany, ← h.activeLen]
  next hany =>
    have hnone : ∀ e ∈ s.active, ¬ (decide (e.txn = t) = true) := by
      simpa using hany
    rw [eraseP_of_forall_not hnone, ← h.activeLen]

omit [DecidableEq R] in
/-- No entry of a transaction is left when it is taken out. -/
theorem ne_of_mem_eraseP {l : List (SetEnt T R)} (hnodup : (l.map SetEnt.txn).Nodup)
    {e : SetEnt T R} (he : e ∈ l.eraseP fun e => e.txn = t) : e.txn ≠ t := by
  induction l with
  | nil => cases he
  | cons a l ih =>
    rw [map_cons, nodup_cons] at hnodup
    by_cases ha : a.txn = t
    · rw [eraseP_cons_of_pos (by simpa using ha)] at he
      rintro rfl
      exact hnodup.1 (ha ▸ List.mem_map_of_mem he)
    · rw [eraseP_cons_of_neg (by simpa using ha)] at he
      rcases mem_cons.mp he with rfl | he
      · exact ha
      · exact ih hnodup.2 he

/-- A transaction leaves `active`. -/
theorem Inv.remove (h : Inv s) (htests : p.tests = none) (hp : p.Ok) :
    Inv ((s.removeActive t).setPhase t p) := by
  rw [h.removeActive_eq]
  have hsub : (s.active.eraseP fun e => e.txn = t).Sublist s.active := eraseP_sublist
  have hother : ∀ u, u ≠ t → (update s.phase t p u) = s.phase u := fun u hu =>
    update_of_ne hu _ _
  refine
    { h with
      activeLen := rfl
      once := h.once.sublist (hsub.map _)
      entry := fun e he => ?_
      listed := fun u v hv hne => ?_
      order := (h.order.sublist hsub).imp_of_mem fun {a b} ha hb hab v hv => ?_
      phase := (forall_update_iff s.phase fun _ p => p.Ok).mpr ⟨hp, fun u _ => h.phase u⟩ }
  · change ∃ v, (update s.phase t p e.txn).tests = some v ∧ _
    rw [hother _ (ne_of_mem_eraseP h.once he)]
    exact h.entry e (hsub.subset he)
  · change (update s.phase t p u).tests = some v at hv
    have hu : u ≠ t := by
      rintro rfl
      rw [update_self, htests] at hv
      cases hv
    rw [hother u hu] at hv
    obtain ⟨e, he, rfl⟩ := h.listed u v hv hne
    exact ⟨e, (mem_eraseP_of_neg (by simpa using hu)).mpr he, rfl⟩
  · change (update s.phase t p a.txn).tests = some v at hv
    rw [hother _ (ne_of_mem_eraseP h.once ha)] at hv
    exact hab v hv

variable {v : Tests T R} {rc : RC}

/-- A transaction enters the tests. -/
theorem Inv.push (h : Inv s) (hnone : (s.phase t).tests = none) (htests : p.tests = some v)
    (hactive : v.finishActive = s.active) (hp : p.Ok) :
    Inv (State.setPhase (if v.wset.isEmpty then s
      else { s with active := ⟨0, t, v.wset⟩ :: s.active, activeLen := s.activeLen + 1 }) t p) := by
  have hout : ∀ e ∈ s.active, e.txn ≠ t := by
    rintro e he rfl
    obtain ⟨v, hv, -⟩ := h.entry e he
    cases hnone.symm.trans hv
  have hother : ∀ u, u ≠ t → (update s.phase t p u) = s.phase u := fun u hu =>
    update_of_ne hu _ _
  have hself : (update s.phase t p t).tests = some v := by
    rw [update_self, htests]
  have hentry : ∀ e ∈ s.active,
      ∃ v, (update s.phase t p e.txn).tests = some v ∧ e.rows = v.wset ∧ v.wset ≠ [] :=
    fun e he => (hother _ (hout e he)).symm ▸ h.entry e he
  have horder : s.active.Pairwise (Saw (update s.phase t p)) :=
    h.order.imp_of_mem fun {a b} ha _ hab v hv => hab v (hother _ (hout a ha) ▸ hv)
  have hphase : ∀ u, (update s.phase t p u).Ok :=
    (forall_update_iff s.phase fun _ p => p.Ok).mpr ⟨hp, fun u _ => h.phase u⟩
  split
  next hempty =>
    refine { h with
      entry := hentry, listed := fun u w hw hne => ?_, order := horder, phase := hphase }
    by_cases hu : u = t
    · subst hu
      obtain rfl := some.inj (hself.symm.trans hw)
      exact (hne (List.isEmpty_iff.mp hempty)).elim
    · exact h.listed u w (hother u hu ▸ hw) hne
  next hempty =>
    refine
      { h with
        activeLen := congrArg (· + 1) h.activeLen
        once := nodup_cons.mpr ⟨fun hmem => ?_, h.once⟩
        entry := forall_mem_cons.mpr ⟨⟨v, hself, rfl, fun hnil => hempty (hnil ▸ rfl)⟩, hentry⟩
        listed := fun u w hw hne => ?_
        order := pairwise_cons.mpr ⟨fun b hb w hw => ?_, horder⟩
        phase := hphase }
    · obtain ⟨e, he, het⟩ := List.mem_map.mp hmem
      exact hout e he het
    · by_cases hu : u = t
      · exact ⟨_, mem_cons_self, hu.symm⟩
      · obtain ⟨e, he, hu'⟩ := h.listed u w (hother u hu ▸ hw) hne
        exact ⟨e, mem_cons_of_mem _ he, hu'⟩
    · obtain rfl := some.inj (hself.symm.trans hw)
      exact hactive ▸ hb

/-- A transaction that has no writes to test is not in `active`. -/
theorem Inv.not_active (h : Inv s) (ht : ∀ v, (s.phase t).tests = some v → v.wset = []) :
    (s.active.find? fun e => e.txn = t) = none := by
  rw [find?_eq_none]
  intro e he het
  obtain rfl : e.txn = t := of_decide_eq_true het
  obtain ⟨v, hv, -, hne⟩ := h.entry e he
  exact hne (ht v hv)

omit [DecidableEq R] in
theorem removeActive_of_find (hfind : (s.active.find? fun e => e.txn = t) = none) :
    s.removeActive t = s := by
  rw [State.removeActive, if_neg]
  simpa using hfind

omit [DecidableEq T] in
/-- A write set goes to `history`. -/
theorem Inv.commit (h : Inv s) (wset : List R) :
    Inv { s with
      tnc := s.tnc + 1, history := ⟨s.tnc + 1, t, wset⟩ :: s.history, hisLen := s.hisLen + 1 } :=
  { h with
    hisLen := congrArg (· + 1) h.hisLen
    sorted := pairwise_cons.mpr ⟨fun e he => Nat.lt_succ_of_le (h.tnc e he), h.sorted⟩
    tnc := forall_mem_cons.mpr ⟨le_refl _, fun e he => (h.tnc e he).trans (Nat.le_succ _)⟩ }

omit [DecidableEq R] [DecidableEq T] in
/-- Who finishes has passed, or is not tested and aborts. -/
theorem Phase.finishing_cases (h : p.finishing rc = some x) :
    (∃ v, p = .valid x v) ∨ (p = .dropped x ∨ p = .running x) ∧ rc = .Abort := by
  cases p <;> cases rc <;> simp_all [Phase.finishing]

/-- `central_finish` meets its assertions, and keeps the invariant. -/
theorem Inv.centralFinish (h : Inv s) (hx : (s.phase t).finishing rc = some x) :
    ∃ s', s.centralFinish t x rc = some s' ∧ Inv (s'.setPhase t .idle) := by
  have hok := h.phase t
  have hgone : Inv ((s.removeActive t).setPhase t .idle) := h.remove rfl trivial
  have hcases := Phase.finishing_cases hx
  have hcounted : x.Counted := by
    rcases hcases with ⟨v, hp⟩ | ⟨hp | hp, -⟩
    · rw [hp] at hok
      exact hok.1
    · rwa [hp] at hok
    · rwa [hp] at hok
  rw [State.centralFinish, hcounted.getRwSet]
  -- a transaction that is not in `active` can be finished when it has no writes or aborts
  have hout : ((writeSet x.accesses).isEmpty ∨ ∀ v, s.phase t ≠ .valid x v) →
      (s.active.find? fun e => e.txn = t) = none ∧ Inv (s.setPhase t .idle) := by
    intro hno
    have hfind : (s.active.find? fun e => e.txn = t) = none := by
      refine h.not_active fun w hw => ?_
      rcases hcases with ⟨v, hp⟩ | ⟨hp | hp, -⟩
      · rw [hp] at hok hw
        obtain rfl := some.inj hw
        rw [hok.2.1.2]
        exact List.isEmpty_iff.mp (hno.resolve_right fun hne => hne v hp)
      · rw [hp] at hw
        cases hw
      · rw [hp] at hw
        cases hw
    rw [removeActive_of_find hfind] at hgone
    exact ⟨hfind, hgone⟩
  by_cases hempty : (writeSet x.accesses).isEmpty
  · exact ⟨s, if_pos hempty, (hout (.inl hempty)).2⟩
  · simp only [if_neg hempty]
    cases hfind : s.active.find? fun e => e.txn = t with
    | none =>
      rcases hcases with ⟨v, hp⟩ | ⟨hp, rfl⟩
      · -- it is in `active`
        rw [hp] at hok
        have hne : v.wset ≠ [] := fun hnil => hempty (hok.2.1.2 ▸ hnil ▸ rfl)
        obtain ⟨e, he, het⟩ := h.listed t v (hp ▸ rfl) hne
        exact absurd (decide_eq_true het) (find?_eq_none.mp hfind e he)
      · refine ⟨s, if_pos rfl, (hout (.inr fun v hv => ?_)).2⟩
        rw [hv] at hp
        rcases hp with hp | hp <;> cases hp
    | some act =>
      have hact := of_decide_eq_true (find?_some hfind :)
      simp only [if_pos hact]
      split
      · exact ⟨_, rfl, hgone.commit (writeSet x.accesses)⟩
      · exact ⟨_, rfl, hgone⟩

/-- What the first critical section sees. -/
def snapshot (s : State T R) (x : Attempt R) (finishTn : ℕ) : Tests T R :=
  ⟨x.startTn, finishTn, s.active, readSet x.accesses, writeSet x.accesses⟩

/-- The first critical section is possible, and keeps the invariant. -/
theorem Inv.validateBegin (h : Inv s) (hp : s.phase t = .running x) (finishTn : ℕ) :
    ∃ s', s.validateBegin t x finishTn = some s' ∧ Inv s' ∧
      (s'.phase t).tests = some (snapshot s x finishTn) := by
  have hcounted := h.phase t
  rw [hp] at hcounted
  have hnone : (s.phase t).tests = none := by
    rw [hp]
    rfl
  rw [State.validateBegin, Attempt.Counted.getRwSet hcounted]
  refine ⟨_, if_pos h.activeLen.symm, h.push (v := snapshot s x finishTn) hnone rfl rfl
    ⟨hcounted, ⟨rfl, rfl⟩, ?_⟩, ?_⟩
  · rw [Stage.result_first _ _ 0]
    exact fun hv => (Bool.and_eq_true_iff.mp hv).2
  · exact congrArg Phase.tests (setPhase_self _ _ _)

/-- A test. -/
theorem Inv.test (h : Inv s) (hs : (machine T R).step s (.test t) = some s') : Inv s' := by
  simp only [machine] at hs
  split at hs
  next x v stage hp =>
    have hok := h.phase t
    rw [hp] at hok
    have hresult := stage.result_next v
    split at hs
    next hnext =>
      rw [hnext, Sum.elim_inl] at hresult
      exact some.inj hs ▸ h.setPhase (hp ▸ rfl) ⟨hok.1, hok.2.1, hresult ▸ hok.2.2⟩
    next hnext =>
      rw [hnext, Sum.elim_inr] at hresult
      exact some.inj hs ▸ h.setPhase (hp ▸ rfl) ⟨hok.1, hok.2.1, hok.2.2 hresult⟩
    · exact some.inj hs ▸ h.setPhase (hp ▸ rfl) ⟨hok.1, hok.2.1⟩
  · cases hs

/-- **One step** keeps the invariant. -/
theorem Inv.step (h : Inv s) {a : Action T R} (hs : (machine T R).step s a = some s') : Inv s' := by
  cases a with
  | start t startTn =>
    simp only [machine] at hs
    split at hs
    next hp =>
      exact some.inj hs ▸ h.setPhase (hp ▸ rfl) rfl
    · cases hs
  | access t row type =>
    simp only [machine] at hs
    split at hs
    next x hp =>
      have hok := h.phase t
      rw [hp] at hok
      exact some.inj hs ▸ h.setPhase (hp ▸ rfl) (Attempt.Counted.access hok row type)
    · cases hs
  | validateBegin t finishTn =>
    simp only [machine] at hs
    split at hs
    next x hp =>
      obtain ⟨s₁, hs₁, hinv, -⟩ := h.validateBegin hp finishTn
      exact some.inj (hs₁.symm.trans hs) ▸ hinv
    · cases hs
  | test t => exact h.test hs
  | dropActive t =>
    simp only [machine] at hs
    split at hs
    next x v hp =>
      have hok := h.phase t
      rw [hp] at hok
      exact some.inj hs ▸ h.remove rfl hok.1
    · cases hs
  | finish t rc =>
    simp only [machine] at hs
    split at hs
    next x hx =>
      obtain ⟨s₁, hs₁, hinv⟩ := h.centralFinish hx
      rw [hs₁] at hs
      exact some.inj hs ▸ hinv
    · cases hs

theorem inv_init : Inv (machine T R).init where
  activeLen := rfl
  once := nodup_nil
  entry := fun _ he => absurd he not_mem_nil
  listed := fun _ _ hv => absurd hv nofun
  order := List.Pairwise.nil
  hisLen := rfl
  sorted := List.Pairwise.nil
  tnc := fun _ he => absurd he not_mem_nil
  phase := fun _ => trivial

theorem inv_of_reachable (hs : (machine T R).Reachable s) : Inv s :=
  hs.invariant inv_init fun _ _ _ h hstep => h.step hstep

theorem Inv.run (h : Inv s) {as : List (Action T R)} (hrun : (machine T R).runFrom s as = some s') :
    Inv s' := by
  induction as generalizing s with
  | nil => exact some.inj hrun ▸ h
  | cons a as ih =>
    obtain ⟨s₁, hs₁, hrest⟩ := Machine.runFrom_cons.mp hrun
    exact ih (h.step hs₁) hrest

/-- The transaction of a step. -/
def Action.txn : Action T R → T
  | .start t _ | .access t _ _ | .validateBegin t _ | .test t | .dropActive t | .finish t _ => t

omit [DecidableEq R] in
theorem phase_validateBegin {finishTn : ℕ} (hs : s.validateBegin t x finishTn = some s') :
    ∃ p, s'.phase = update s.phase t p := by
  rw [State.validateBegin] at hs
  split at hs
  · cases hs
  · obtain ⟨-, hs⟩ := ite_none_right_eq_some.mp hs
    cases hs
    refine ⟨_, congrArg (update · t _) ?_⟩
    split
    · rfl
    · rfl

omit [DecidableEq R] in
theorem phase_removeActive (s : State T R) (t : T) : (s.removeActive t).phase = s.phase := by
  rw [State.removeActive]
  split <;> rfl

omit [DecidableEq R] in
theorem phase_centralFinish (hs : s.centralFinish t x rc = some s') : s'.phase = s.phase := by
  rw [State.centralFinish] at hs
  split at hs
  · cases hs
  · split at hs
    · exact some.inj hs ▸ rfl
    · split at hs
      · exact some.inj (ite_none_right_eq_some.mp hs).2 ▸ rfl
      · obtain ⟨-, hs⟩ := ite_none_right_eq_some.mp hs
        split at hs
        · exact some.inj hs ▸ phase_removeActive s t
        · exact some.inj hs ▸ phase_removeActive s t

/-- A step is of one transaction, which leaves the tests or keeps them, unless it takes a
snapshot. -/
theorem phase_of_step {a : Action T R} (hs : (machine T R).step s a = some s') :
    ∃ p, s'.phase = update s.phase a.txn p ∧
      ((∀ n, a ≠ .validateBegin a.txn n) → p.tests = none ∨ p.tests = (s.phase a.txn).tests) := by
  cases a with (simp only [machine] at hs; split at hs <;> try cases hs)
  | start t startTn | access t row type =>
    exact ⟨_, rfl, fun _ => .inl rfl⟩
  | validateBegin t finishTn =>
    obtain ⟨p, hp⟩ := phase_validateBegin hs
    exact ⟨p, hp, fun hne => (hne finishTn rfl).elim⟩
  | test t =>
    next hp =>
    split at hs
    all_goals
      cases hs
      exact ⟨_, rfl, fun _ => .inr (congrArg Phase.tests hp).symm⟩
  | dropActive t =>
    exact ⟨_, congrArg (update · t _) (phase_removeActive s t), fun _ => .inl rfl⟩
  | finish t rc =>
    obtain ⟨s₁, hs₁, rfl⟩ := map_eq_some_iff.mp hs
    exact ⟨_, congrArg (update · t _) (phase_centralFinish hs₁), fun _ => .inl rfl⟩

/-- The tests of a transaction are those of its last snapshot. -/
theorem tests_of_runFrom {as : List (Action T R)}
    (hrun : (machine T R).runFrom s as = some s') (has : ∀ n, .validateBegin t n ∉ as)
    (hv : (s'.phase t).tests = some v) : (s.phase t).tests = some v := by
  induction as generalizing s with
  | nil => exact some.inj hrun ▸ hv
  | cons a as ih =>
    obtain ⟨s₁, hs₁, hrest⟩ := Machine.runFrom_cons.mp hrun
    have htests := ih hrest fun n hn => has n (mem_cons_of_mem a hn)
    obtain ⟨p, hp, hkeep⟩ := phase_of_step hs₁
    rw [hp] at htests
    by_cases ht : t = a.txn
    · rw [ht, update_self] at htests
      rcases hkeep fun n hn => has n (ht ▸ hn ▸ mem_cons_self) with hnone | hsame
      · cases hnone.symm.trans htests
      · rw [ht, ← hsame, htests]
    · rwa [update_of_ne ht] at htests

omit [DecidableEq T] in
/-- Who passed has nothing in common with the entries it saw. -/
theorem Tests.passes_iff {rest : List (SetEnt T R)} :
    v.passes rest = true ↔ ∀ e ∈ rest, ∀ r ∈ e.rows, r ∉ v.rset ∧ r ∉ v.wset := by
  simp only [passes, List.all_eq_true, Bool.and_eq_true, testValid_iff, forall_and]

omit [DecidableEq T] in
/-- **Exclusion**: of two transactions that passed, the one whose snapshot was later saw the
other. -/
theorem Inv.exclusive (h : Inv s) {u : T} {y : Attempt R} {w : Tests T R} (htu : t ≠ u)
    (ht : s.phase t = .valid x v) (hu : s.phase u = .valid y w) :
    ∀ r ∈ writeSet x.accesses, r ∉ writeSet y.accesses := by
  intro r hrx hry
  have hokt := h.phase t
  have hoku := h.phase u
  rw [ht] at hokt
  rw [hu] at hoku
  rw [← hokt.2.1.2] at hrx
  rw [← hoku.2.1.2] at hry
  have htestst : (s.phase t).tests = some v := ht ▸ rfl
  have htestsu : (s.phase u).tests = some w := hu ▸ rfl
  obtain ⟨a, ha, rfl⟩ := h.listed t v htestst (ne_nil_of_mem hrx)
  obtain ⟨b, hb, rfl⟩ := h.listed u w htestsu (ne_nil_of_mem hry)
  obtain ⟨v', hv', hrowsa, -⟩ := h.entry a ha
  obtain rfl := some.inj (htestst.symm.trans hv')
  obtain ⟨w', hw', hrowsb, -⟩ := h.entry b hb
  obtain rfl := some.inj (htestsu.symm.trans hw')
  have hsaw : b ∈ v.finishActive ∨ a ∈ w.finishActive := by
    have hsymm : Std.Symm fun c d => Saw s.phase c d ∨ Saw s.phase d c := ⟨fun _ _ hcd => hcd.symm⟩
    have hpair : s.active.Pairwise fun c d => Saw s.phase c d ∨ Saw s.phase d c :=
      h.order.imp Or.inl
    have hab : a ≠ b := fun hab => htu (congrArg SetEnt.txn hab)
    exact (hpair.forall ha hb hab).imp (fun hsaw => hsaw v htestst) fun hsaw => hsaw w htestsu
  rcases hsaw with hsaw | hsaw
  · exact (Tests.passes_iff.mp hokt.2.2 b hsaw r (hrowsb ▸ hry)).2 hrx
  · exact (Tests.passes_iff.mp hoku.2.2 a hsaw r (hrowsa ▸ hrx)).2 hry

end Lemmas

/-! ## The result -/

/-- **The bookkeeping is exact and validation exclusive.** -/
structure Exact (s : State T R) : Prop where
  /-- `active` has each transaction at most once -/
  once : (s.active.map SetEnt.txn).Nodup
  /-- `active_len` is its length -/
  activeLen : s.activeLen = s.active.length
  /-- its entries are the write sets of their transactions -/
  entry : ∀ e ∈ s.active, ∃ x v, ((∃ stage, s.phase e.txn = .testing x v stage) ∨
    s.phase e.txn = .failed x v ∨ s.phase e.txn = .valid x v) ∧ e.rows = writeSet x.accesses
  /-- `history` is strictly descending in `tn` -/
  sorted : s.history.Pairwise fun a b => b.tn < a.tn
  /-- `his_len` is its length -/
  hisLen : s.hisLen = s.history.length
  /-- no two validated and unfinished transactions write a row -/
  exclusive : ∀ t u x y v w, t ≠ u → s.phase t = .valid x v → s.phase u = .valid y w →
    ∀ r ∈ writeSet x.accesses, r ∉ writeSet y.accesses
  /-- the first critical section does not overflow `finish_active` -/
  begins : ∀ t x finishTn, s.phase t = .running x →
    ∃ s', (machine T R).step s (.validateBegin t finishTn) = some s'
  /-- no assertion of `central_finish` fails -/
  finishes : ∀ t x rc, (s.phase t).finishing rc = some x →
    ∃ s', (machine T R).step s (.finish t rc) = some s'

/-- Whoever is validated shares no row with the write sets that were active when it took its
snapshot: for an attempt `x` that begins to be validated in `s` and is validated later. -/
def Separated (s : State T R) : Prop :=
  ∀ t x finishTn s₁ as s₂ y v, s.phase t = .running x →
    (machine T R).step s (.validateBegin t finishTn) = some s₁ →
    (machine T R).runFrom s₁ as = some s₂ → (∀ n, .validateBegin t n ∉ as) →
    s₂.phase t = .valid y v →
    ∀ e ∈ s.active, ∀ r ∈ e.rows, r ∉ readSet x.accesses ∧ r ∉ writeSet x.accesses

/-- **Parallel validation is exclusive and its bookkeeping exact**, in every interleaving of the
critical sections and of the tests between them. No two validated transactions write a row; whoever
is validated shares no row with those who were active when it began; `active_len` and `his_len` are
the lengths of the lists; and no assertion fails. -/
theorem central_exact {s : State T R} (hs : (machine T R).Reachable s) : Exact s ∧ Separated s := by
  have h := inv_of_reachable hs
  constructor
  · refine
      { once := h.once
        activeLen := h.activeLen
        entry := fun e he => ?_
        sorted := h.sorted
        hisLen := h.hisLen
        exclusive := fun t u x y v w htu ht hu => h.exclusive htu ht hu
        begins := fun t x finishTn hp => ?_
        finishes := fun t x rc hx => ?_ }
    · obtain ⟨v, hv, hrows, -⟩ := h.entry e he
      have hok := h.phase e.txn
      cases hp : s.phase e.txn with
      | testing x w stage =>
        rw [hp] at hv hok
        obtain rfl := some.inj hv
        exact ⟨x, w, .inl ⟨stage, rfl⟩, hrows.trans hok.2.1.2⟩
      | failed x w =>
        rw [hp] at hv hok
        obtain rfl := some.inj hv
        exact ⟨x, w, .inr (.inl rfl), hrows.trans hok.2.2⟩
      | valid x w =>
        rw [hp] at hv hok
        obtain rfl := some.inj hv
        exact ⟨x, w, .inr (.inr rfl), hrows.trans hok.2.1.2⟩
      | idle | running | dropped =>
        rw [hp] at hv
        cases hv
    · obtain ⟨s', hs', -⟩ := h.validateBegin hp finishTn
      refine ⟨s', ?_⟩
      simp only [machine, hp]
      exact hs'
    · obtain ⟨s', hs', -⟩ := h.centralFinish hx
      refine ⟨s'.setPhase t .idle, ?_⟩
      simp only [machine, hx]
      rw [hs']
      rfl
  · intro t x finishTn s₁ as s₂ y v hp hbegin hrun hno hvalid e he r hr
    obtain ⟨s', hs', hinv, htests⟩ := h.validateBegin hp finishTn
    simp only [machine, hp] at hbegin
    obtain rfl := some.inj (hs'.symm.trans hbegin)
    have hv := tests_of_runFrom hrun hno (congrArg Phase.tests hvalid)
    obtain rfl := some.inj (htests.symm.trans hv)
    have hok := (hinv.run hrun).phase t
    rw [hvalid] at hok
    exact Tests.passes_iff.mp hok.2.2 e he r hr

/-- Two transactions that write different rows are validated side by side. -/
def twoValid : List (Action ℕ ℕ) :=
  [.start 1 5, .access 1 1 .WR, .start 2 6, .access 2 2 .WR, .access 2 3 .RD, .validateBegin 1 7,
    .test 1, .validateBegin 2 8, .test 2, .test 1, .test 2, .test 2, .test 1, .test 2]

theorem central_exact_met : ∃ s x y v w, (machine ℕ ℕ).run twoValid = some s ∧
    s.phase 1 = .valid x v ∧ s.phase 2 = .valid y w ∧ s.activeLen = 2 ∧ Exact s ∧ Separated s := by
  have hrun : (machine ℕ ℕ).run twoValid = some _ := rfl
  exact ⟨_, _, _, _, _, hrun, rfl, rfl, rfl, central_exact (.of_run hrun)⟩

end Central

end Occ

end Deneva
