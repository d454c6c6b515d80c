import Deneva.MaatOrder

/-!
# The interval of a participant

A participant of a transaction votes with the interval that its validation left, and the
home node decides on a commit timestamp within all the intervals it was told. Meanwhile the
forward validation of others goes on changing the time table of the participant, whatever
the state of the transaction there. As in `Maat`, the branches of `Row_maat` for
`WORKLOAD == TPCC` are left out.

* `outcome_step`, `waiting_step`: how a transaction goes on once it is validated, and once
  the outcome is known.
* `Kept`: what a participant has voted with is still in its time table. This needs that
  nobody cuts the interval of a transaction that waits for its outcome (`SparesVoters`).
-/

namespace Deneva

universe u

namespace Maat

variable {R : Type u} [DecidableEq R] {C : Cluster R} {s s' : State R} {a : Action R} {n t : ℕ}

/-! ## After validation -/

/-- Its validation succeeded, and it waits for the outcome. -/
def Stage.Waiting : Stage R → Prop
  | .validated | .prepared _ _ => True
  | .idle | .running | .copying _ _ _ | .preparing _ _ | .refused | .committing _ _ | .committed _
    | .aborting _ _ | .aborted _ => False

instance : DecidablePred (Stage.Waiting (R := R))
  | .validated | .prepared _ _ => isTrue trivial
  | .idle | .running | .copying _ _ _ | .preparing _ _ | .refused | .committing _ _ | .committed _
    | .aborting _ _ | .aborted _ => isFalse id

namespace Stage.Waiting

variable {p : Stage R}

omit [DecidableEq R]

theorem alive (h : p.Waiting) : p.Alive := by
  cases p with
  | validated | prepared => trivial
  | _ => exact h.elim

theorem ne_idle (h : p.Waiting) : p ≠ .idle := by
  rintro rfl
  exact h

end Stage.Waiting

omit [DecidableEq R] in
/-- The decision is within what was voted with. -/
theorem waiting_decided (h : Ordered C s) (hn : n ≠ C.home t) (hw : (s.man n t).stage.Waiting)
    (ho : (s.man (C.home t) t).stage.outcome = some .RCOK) :
    s.lo n t ≤ (s.man (C.home t) t).commitTimestamp ∧
      (s.man (C.home t) t).commitTimestamp < s.hi n t := by
  have hwithin := (h.outcome ho).2 n hn
  rw [State.lo, State.hi, Manager.lo, Manager.hi]
  cases hst : (s.man n t).stage with
  | prepared lower upper =>
    rw [hst] at hwithin
    exact hwithin
  | validated =>
    rw [hst] at hwithin
    exact hwithin.elim
  | _ =>
    rw [hst] at hw
    exact hw.elim

/-- It has voted to commit. -/
def Stage.isPrepared : Stage R → Bool
  | .prepared _ _ => true
  | _ => false

/-- The outcome stays, and so does the commit timestamp. -/
theorem outcome_step {rc : RC} (ho : (s.man n t).stage.outcome = some rc)
    (hs : (machine C).step s a = some s') :
    (s'.man n t).stage.outcome = some rc ∧
      (s'.man n t).commitTimestamp = (s.man n t).commitTimestamp := by
  -- nobody else is concerned, and a step of the transaction itself starts from another stage
  have hframe : ∀ {s₀ : State R} {n₀ t₀ : ℕ} {m : Manager R}, s₀.man = s.man →
      ((s.man n₀ t₀).stage.outcome = some rc →
        m.stage.outcome = some rc ∧ m.commitTimestamp = (s.man n₀ t₀).commitTimestamp) →
      ((s₀.setMan n₀ t₀ m).man n t).stage.outcome = some rc ∧
        ((s₀.setMan n₀ t₀ m).man n t).commitTimestamp = (s.man n t).commitTimestamp := by
    intro s₀ n₀ t₀ m hman hm
    by_cases heq : n = n₀ ∧ t = t₀
    · obtain ⟨rfl, rfl⟩ := heq
      rw [State.setMan_self]
      exact hm ho
    · rw [State.setMan_ne heq, hman]
      exact ⟨ho, rfl⟩
  cases step_cases hs with
  | start hst | access hst | copy hst | prepare hst | validateHome hst | validateAway _ hst
    | vote _ hst
    | voteAbort _ hst | processRackPrep hst | findBound hst | findBoundAbort hst | rfinCommit hst
    | rfinAbort hst =>
    apply hframe rfl
    rw [hst]
    nofun
  | refuse hst =>
    apply hframe rfl
    obtain ⟨acks, -, hst⟩ | ⟨-, hst, -⟩ := hst <;> rw [hst] <;> nofun
  | abort hst =>
    apply hframe rfl
    obtain hst | ⟨acks, hst⟩ := hst <;> rw [hst] <;> nofun
  | commitRow hst | abortRow hst | releaseCommit hst | releaseAbort hst =>
    apply hframe rfl
    rw [hst]
    exact fun ho => ⟨ho, rfl⟩

theorem outcome_runFrom {rc : RC} {as : List (Action R)} (ho : (s.man n t).stage.outcome = some rc)
    (hs : (machine C).runFrom s as = some s') :
    (s'.man n t).stage.outcome = some rc ∧
      (s'.man n t).commitTimestamp = (s.man n t).commitTimestamp := by
  induction as generalizing s with
  | nil =>
    cases hs
    exact ⟨ho, rfl⟩
  | cons a as ih =>
    obtain ⟨s₁, hs₁, hrest⟩ := Machine.runFrom_cons.mp hs
    obtain ⟨ho₁, hc₁⟩ := outcome_step ho hs₁
    exact hc₁ ▸ ih ho₁ hrest

/-- A participant that waits goes on to wait, or the outcome is there. -/
theorem waiting_step (hw : (s.man n t).stage.Waiting) (hn : n ≠ C.home t)
    (hs : (machine C).step s a = some s') :
    (s'.man n t).stage.Waiting ∨ ∃ rc, (s.man (C.home t) t).stage.outcome = some rc := by
  have hframe : ∀ {s₀ : State R} {n₀ t₀ : ℕ} {m : Manager R}, s₀.man = s.man →
      (n₀ = n → t₀ = t → m.stage.Waiting ∨ ∃ rc, (s.man (C.home t) t).stage.outcome = some rc) →
      ((s₀.setMan n₀ t₀ m).man n t).stage.Waiting ∨
      ∃ rc, (s.man (C.home t) t).stage.outcome = some rc := by
    intro s₀ n₀ t₀ m hman hm
    by_cases heq : n = n₀ ∧ t = t₀
    · obtain ⟨rfl, rfl⟩ := heq
      rw [State.setMan_self]
      exact hm rfl rfl
    · rw [State.setMan_ne heq, hman]
      exact .inl hw
  cases step_cases hs with
  | start hst | access hst | copy hst | prepare hst | validateHome hst | validateAway _ hst
    | voteAbort _ hst | processRackPrep hst | commitRow hst | abortRow hst | releaseCommit hst
    | releaseAbort hst =>
    apply hframe rfl
    rintro rfl rfl
    rw [hst] at hw
    exact hw.elim
  | refuse hst =>
    apply hframe rfl
    rintro rfl rfl
    obtain ⟨acks, -, hst⟩ | ⟨-, hst, -⟩ := hst <;> rw [hst] at hw <;> exact hw.elim
  | findBound | findBoundAbort | abort =>
    apply hframe rfl
    rintro rfl rfl
    exact absurd rfl hn
  | vote => exact hframe rfl fun _ _ => .inl trivial
  | rfinCommit _ ho | rfinAbort _ ho =>
    apply hframe rfl
    rintro rfl rfl
    exact .inr ⟨_, ho⟩

/-! ## What was voted with -/

/-- The forward validation of a write does not cut the interval of a reader of the row that
has voted. -/
def SparesReaders (s : State R) : Action R → Prop
  | .commitRow n t =>
    ∀ a ∈ (s.man n t).stage.next, a.type = .WR →
      ∀ x ∈ (s.row a.row).uncommittedReads, x ∉ (s.man n t).sets.uncommittedReads →
        (s.man n x).stage.isPrepared → (s.table n).getUpper x < (s.table n).getLower t
  | _ => True

instance (s : State R) : (a : Action R) → Decidable (SparesReaders s a)
  | .commitRow n t => inferInstanceAs (Decidable (∀ a ∈ (s.man n t).stage.next, a.type = .WR →
      ∀ x ∈ (s.row a.row).uncommittedReads, x ∉ (s.man n t).sets.uncommittedReads →
        (s.man n x).stage.isPrepared → (s.table n).getUpper x < (s.table n).getLower t))
  | .start _ _ _ _ | .access _ _ _ | .copy _ _ | .prepare _ | .validate _ _ | .vote _ _
  | .processRackPrep _ _ | .findBound _ | .abort _ | .processRfin _ _ | .abortRow _ _
  | .release _ _ => isTrue trivial

/-- Forward validation does not cut the interval of a transaction that has voted or decided. -/
def SparesVoters (s : State R) (a : Action R) : Prop := SparesWriters s a ∧ SparesReaders s a

instance (s : State R) (a : Action R) : Decidable (SparesVoters s a) :=
  inferInstanceAs (Decidable (_ ∧ _))

/-- The time tables have what was voted with. -/
def Kept (s : State R) : Prop :=
  ∀ n t lower upper, (s.man n t).stage = .prepared lower upper → upper ≤ (s.table n).getUpper t

namespace Kept

variable {m : Manager R} {tt : TimeTable}

omit [DecidableEq R] in
/-- The time table of a node and one manager there change. -/
theorem advance (h : Kept s)
    (hm : ∀ lower upper, m.stage = .prepared lower upper → upper ≤ tt.getUpper t)
    (htt : ∀ x, x ≠ t → (∃ lower upper, (s.man n x).stage = .prepared lower upper) →
      (s.table n).getUpper x ≤ tt.getUpper x) : Kept ((s.setTable n tt).setMan n t m) := by
  intro n' t' lower upper hst
  have hsame : n' ≠ n → ((s.setTable n tt).setMan n t m).table n' = s.table n' := State.setTable_ne
  by_cases heq : n' = n ∧ t' = t
  · obtain ⟨rfl, rfl⟩ := heq
    rw [State.setMan_self] at hst
    rw [State.setMan_table, State.setTable_self]
    exact hm lower upper hst
  · rw [State.setMan_ne heq] at hst
    rcases eq_or_ne n' n with rfl | hn
    · rw [State.setMan_table, State.setTable_self]
      exact (h _ _ _ _ hst).trans (htt t' (fun ht => heq ⟨rfl, ht⟩) ⟨lower, upper, hst⟩)
    · rw [hsame hn]
      exact h _ _ _ _ hst

omit [DecidableEq R] in
theorem setMan (h : Kept s)
    (hm : ∀ lower upper, m.stage = .prepared lower upper → upper ≤ (s.table n).getUpper t) :
    Kept (s.setMan n t m) := by
  have hadv := h.advance hm fun _ _ _ => le_rfl
  rwa [State.setTable_eq_self] at hadv

omit [DecidableEq R] in
/-- The entries of the others stay as they are. -/
theorem setTable (h : Kept s) (hm : ∀ lower upper, m.stage ≠ .prepared lower upper)
    (htt : ∀ x, x ≠ t → tt x = s.table n x) : Kept ((s.setTable n tt).setMan n t m) := by
  apply h.advance fun lower upper hst => absurd hst (hm lower upper)
  intro x hx _
  rw [TimeTable.getUpper, TimeTable.getUpper, htt x hx]

omit [DecidableEq R] in
/-- Validation moves only those that run. -/
theorem validate (h : Kept s) (ho : Ordered C s)
    (hst : (s.man n t).stage = .running ∨ ∃ acks, (s.man n t).stage = .preparing .RCOK acks)
    (hval : Maat.validate (s.table n) t (s.man n t).sets = some (.RCOK, tt)) :
    Kept ((s.setTable n tt).setStage n t .validated) := by
  obtain ⟨e, he, -⟩ := ho.running hst
  have hsep := validate_spec (ho.greatest n t) he (ho.upper n t e he) hval
  apply h.advance
  · simp
  · rintro x hx ⟨lower, upper, hstx⟩
    have hstage := ho.stage n x
    rw [StageInv, hstx] at hstage
    obtain ⟨e, he, hstate, -⟩ := hstage
    have hsame : tt x = s.table n x := by
      apply hsep.settled x hx
      rw [TimeTable.getState_of_some he, hstate]
      simp
    rw [TimeTable.getUpper, TimeTable.getUpper, hsame]

end Kept

omit [DecidableEq R] in
/-- Forward validation leaves the upper bounds of those that have voted. -/
theorem commit_getUpper {r : R} {type : AccessT} {c x lower upper : ℕ}
    (hx : (s.man n x).stage = .prepared lower upper) (hxt : x ≠ t) (hmax : c < UINT64_MAX)
    (hpos : 0 < (s.table n).getLower t) (hle : (s.table n).getLower t ≤ c)
    (hwriters : type = .WR → ∀ x ∈ (s.row r).uncommittedWrites, x ≠ t → x ∉ (s.man n
      t).sets.uncommittedWritesY → (s.man n x).stage.Fixed → (s.table n).getUpper x < c)
    (hreaders : type = .WR →
      ∀ x ∈ (s.row r).uncommittedReads, x ∉ (s.man n t).sets.uncommittedReads →
      (s.man n x).stage.isPrepared → (s.table n).getUpper x < (s.table n).getLower t) :
    (s.table n).getUpper x ≤
      ((s.row r).commit type t c (s.man n t).sets (s.table n)).2.getUpper x := by
  cases type with
  | RD =>
    simp only [RowMaat.commit]
    rw [getUpper_raiseAll]
  | WR =>
    simp only [RowMaat.commit, pred64_of_pos hpos (hle.trans hmax.le),
      pred64_of_pos (hpos.trans_le hle) hmax.le]
    rw [getUpper_cutAll, getUpper_cutAll]
    · intro hmem
      obtain ⟨hmem, hnew⟩ := List.mem_filter.mp hmem
      obtain ⟨-, hmem⟩ := OrderedSet.mem_erase.mp (OrderedSet.mem_toList.mp hmem)
      exact hwriters rfl x hmem hxt (of_decide_eq_true hnew) (hx ▸ trivial)
    · intro hmem
      obtain ⟨hmem, hnew⟩ := List.mem_filter.mp hmem
      have hlt := hreaders rfl x (OrderedSet.mem_toList.mp hmem) (of_decide_eq_true hnew) (hx ▸ rfl)
      exact (cutAll_tightens (Nat.sub_le c 1) _ _ x).getUpper_le.trans_lt hlt
  | XP | SCAN => exact le_rfl

/-- **Every step keeps what was voted with** in the time table, where forward validation spares the
voters. -/
theorem kept_step (h : Kept s) (ho : Ordered C s) (hok : SparesVoters s a)
    (hs : (machine C).step s a = some s') : Kept s' := by
  cases step_cases hs with
  | start =>
    apply h.setTable
    · simp
    · exact fun x hx => TimeTable.init_of_ne hx
  | access | abortRow => exact Kept.setMan h (by simp)
  | copy | prepare | voteAbort | abort | rfinCommit | rfinAbort => exact h.setMan (by simp)
  | @vote n t =>
    apply h.setMan
    intro lower upper hst
    exact (Stage.prepared.inj hst).2.ge
  | validateHome hst _ hval => exact h.validate ho (.inr ⟨_, hst⟩) hval
  | validateAway _ hst _ hval => exact h.validate ho (.inl hst) hval
  | @refuse n t rc tt hst hrc hval =>
    apply h.setTable
    · simp
    · exact (validate_refused (ho.greatest n t) hval hrc).1
  | processRackPrep =>
    apply h.setTable
    · simp
    · exact fun x hx => by rw [integrate_apply, if_neg hx]
  | findBound | findBoundAbort =>
    apply h.setTable
    · simp
    · exact fun x hx => by rw [TimeTable.setState, TimeTable.modify_apply, if_neg hx]
  | releaseCommit | releaseAbort =>
    apply h.setTable
    · simp
    · exact fun x hx => Function.update_of_ne hx _ _
  | @commitRow n t lower a left hst =>
    obtain ⟨e, he, -, hlow, -, hwritten, hle, hmax⟩ := ho.committing hst
    apply Kept.advance (s := s.setRow _ _) h
    · simp
    · rintro x hx ⟨lo, hi, hstx⟩
      have hlower := TimeTable.getLower_of_some he
      rw [State.setRow_man] at hstx
      apply commit_getUpper hstx hx hmax
      · exact hlower.trans hlow ▸ Nat.zero_lt_of_lt hwritten
      · exact hlower.trans hlow ▸ hle
      · exact fun htype => hok.1 a (hst ▸ rfl) htype
      · exact fun htype => hok.2 a (hst ▸ rfl) htype

theorem reachable_kept (hs : (machine C).ReachableVia SparesVoters s) : Kept s := by
  apply hs.invariant
  · exact fun _ _ _ _ hst => nomatch hst
  · intro s a s' hs h hok hstep
    exact kept_step h (reachable_ordered (fun _ _ => And.left) hs) hok hstep

/-! ## From validation to the outcome -/

/-- What is left to a transaction that waits contains the commit timestamp its home node is
going to choose. -/
theorem waiting_contains {as : List (Action R)} (hs : (machine C).ReachableVia SparesVoters s)
    (hok : (machine C).RunOk SparesVoters s as) (hrun : (machine C).runFrom s as = some s')
    (hn : n ≠ C.home t) (hw : (s.man n t).stage.Waiting)
    (ho : (s'.man (C.home t) t).stage.outcome = some .RCOK) :
    s.lo n t ≤ (s'.man (C.home t) t).commitTimestamp ∧
      (s'.man (C.home t) t).commitTimestamp < s.hi n t := by
  -- along the run to the decision; intervals get tighter on the way
  induction as generalizing s with
  | nil =>
    cases hrun
    exact waiting_decided (reachable_ordered (fun _ _ => And.left) hs) hn hw ho
  | cons a as ih =>
    obtain ⟨s₁, hs₁, hrest⟩ := Machine.runFrom_cons.mp hrun
    have hord := reachable_ordered (fun _ _ => And.left) hs
    rcases waiting_step hw hn hs₁ with hw₁ | ⟨rc, hrc⟩
    · obtain ⟨hlo, hhi⟩ := ih (hs.step hok.1 hs₁) (hok.2 s₁ hs₁) hrest hw₁
      have htight := (ordered_step hord (reachable_registered hs.reachable) hok.1.1 hs₁).tighter
      exact ⟨(htight.lo n t hw.ne_idle hw₁.alive).trans hlo,
        hhi.trans_le (htight.hi n t hw.ne_idle hw₁.alive)⟩
    · obtain ⟨ho', hc⟩ := outcome_runFrom hrc hrun
      obtain rfl := Option.some.inj (ho'.symm.trans ho)
      rw [hc]
      exact waiting_decided hord hn hw hrc

/-- **A participant's interval contains the commit timestamp** in every run in which forward
validation spares those that have voted or decided: from the moment its validation succeeds
until it processes the outcome. -/
theorem participantInterval_contains {as : List (Action R)}
    (hs : (machine C).ReachableVia SparesVoters s) (hok : (machine C).RunOk SparesVoters s as)
    (hrun : (machine C).runFrom s as = some s') (hn : n ≠ C.home t) (hw : (s.man n t).stage.Waiting)
    (ho : (s'.man (C.home t) t).stage.outcome = some .RCOK) :
    (s.table n).getLower t ≤ (s'.man (C.home t) t).commitTimestamp ∧
      (s'.man (C.home t) t).commitTimestamp < (s.table n).getUpper t := by
  obtain ⟨hlo, hhi⟩ := waiting_contains hs hok hrun hn hw ho
  have hord := reachable_ordered (fun _ _ => And.left) hs
  cases hst : (s.man n t).stage with
  | validated =>
    rw [State.lo, Manager.lo, hst] at hlo
    rw [State.hi, Manager.hi, hst] at hhi
    exact ⟨hlo, hhi⟩
  | prepared lower upper =>
    obtain ⟨e, he, hlow⟩ := (hord.stage n t).lower_of_fixed (hst ▸ trivial)
    have hlower : (s.table n).getLower t = s.lo n t := (TimeTable.getLower_of_some he).trans hlow
    rw [State.hi, Manager.hi, hst] at hhi
    exact ⟨hlower ▸ hlo, hhi.trans_le (reachable_kept hs n t lower upper hst)⟩
  | _ =>
    rw [hst] at hw
    exact hw.elim

/-- Two nodes; the rows are on the second. -/
def twoNodes : Cluster ℕ := ⟨2, fun _ => 1⟩

/-- Transaction 2 of node 0 prewrites row 1 on node 1, which 3 has read; it validates there when
3 has committed. -/
def spared : List (Action ℕ) :=
  [.start 1 3 0 0, .access 3 1 .RD, .copy 1 3, .start 1 1 0 0, .access 1 0 .WR, .copy 1 1,
    .start 0 2 0 0, .start 1 2 0 0, .access 2 1 .WR, .copy 1 2,
    .prepare 3, .validate 1 3, .findBound 3, .commitRow 1 3, .release 1 3, .prepare 2,
    .validate 1 2]

/-- Transaction 2 is decided, after 1 has committed a write of row 0. -/
def sparedRest : List (Action ℕ) :=
  [.vote 1 2, .prepare 1, .validate 1 1, .findBound 1, .commitRow 1 1, .release 1 1,
    .processRackPrep 2 1, .validate 0 2, .findBound 2]

theorem participantInterval_contains_spared : ∃ s ∈ (machine twoNodes).run spared,
    ∃ s' ∈ (machine twoNodes).runFrom s sparedRest, (s.man 1 2).stage.Waiting ∧
      (s'.man (twoNodes.home 2) 2).stage.outcome = some .RCOK ∧
      (s.table 1).getLower 2 ≤ (s'.man (twoNodes.home 2) 2).commitTimestamp ∧
      (s'.man (twoNodes.home 2) 2).commitTimestamp < (s.table 1).getUpper 2 := by
  have hok : (machine twoNodes).RunOk SparesVoters (machine twoNodes).init spared := by
    decide +kernel
  have hrun : ∃ s ∈ (machine twoNodes).run spared, ∃ s' ∈ (machine twoNodes).runFrom s sparedRest,
      (machine twoNodes).RunOk SparesVoters s sparedRest ∧ (s.man 1 2).stage.Waiting ∧
        (s'.man (twoNodes.home 2) 2).stage.outcome = some .RCOK := by
    decide +kernel
  obtain ⟨s, hs, s', hs', hrest, hw, ho⟩ := hrun
  have hn : 1 ≠ twoNodes.home 2 := by decide
  exact ⟨s, hs, s', hs', hw, ho, participantInterval_contains (.of_run hok hs) hrest hs' hn hw ho⟩

/-- Transactions 7 and 2 prewrite row 1 on node 1, 2 after 7. Transaction 5, which never gets
anywhere, keeps the interval of 7 small, so that 2 finds a place behind it: 7 commits at 1,
and node 0 decides to commit 2 at 3. Then 7 gives back row 1. -/
def cutVoter : List (Action ℕ) :=
  [.start 1 1 0 0, .access 1 0 .WR, .copy 1 1, .prepare 1, .validate 1 1, .findBound 1,
    .commitRow 1 1, .release 1 1,
    .start 1 3 0 0, .access 3 0 .RD, .copy 1 3,
    .start 1 5 0 0, .access 5 0 .WR, .copy 1 5, .access 5 1 .WR, .copy 1 5,
    .start 1 7 0 0, .access 7 1 .WR, .copy 1 7,
    .start 0 2 0 0, .start 1 2 0 0, .access 2 1 .WR, .copy 1 2,
    .prepare 3, .validate 1 3, .findBound 3, .commitRow 1 3, .release 1 3,
    .prepare 7, .validate 1 7, .findBound 7,
    .prepare 2, .validate 1 2, .vote 1 2, .processRackPrep 2 1, .validate 0 2, .findBound 2,
    .commitRow 1 7]

/-- **A participant's interval can be cut** below what the home node has decided. -/
theorem participantInterval_cut : ∃ s ∈ (machine twoNodes).run cutVoter, (s.man 1 2).stage.Waiting ∧
    (s.man (twoNodes.home 2) 2).stage.outcome = some .RCOK ∧
    (s.man (twoNodes.home 2) 2).commitTimestamp = 3 ∧ (s.table 1).getLower 2 = 3 ∧
    (s.table 1).getUpper 2 = 0 := by
  decide +kernel

end Maat

end Deneva
