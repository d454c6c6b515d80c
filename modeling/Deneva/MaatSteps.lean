import Deneva.CellProg
import Deneva.Maat
import Deneva.Transition

/-!
# MaaT, one access to the time table at a time

`Maat::validate` excludes only itself: the forward validation of `Row_maat::commit` and
`WorkerThread::process_rack_prep` go on changing the time table meanwhile. Each `get_` and `set_` of
the time table is one step here, and a thread is a program over the entries as cells (`CellProg`).

* `validateP`, `commitP` and `rackPrepP` are the programs. On their own they are what `Maat` has in
  one step (`run_validateP`, `run_commitP_read`, `run_commitP_write`); as there, the branches of
  `Row_maat` for `WORKLOAD == TPCC` are left out.
* `machine` has all interleavings of such threads, with the semaphore of `validate`.
* `Undisturbed`: nobody has changed a bound between a thread's last look at it and its write, and a
  transaction is not in the sets it is validated against.
-/

namespace Deneva

open Function Option CellProg

namespace Maat

/-! ## Programs -/

/-- What can be got and set of an entry. -/
inductive Cell : Type where
  | lower (key : ℕ)
  | upper (key : ℕ)
  | state (key : ℕ)
  deriving DecidableEq

/-- Its values. -/
abbrev CellVal : Cell → Type
  | .lower _ | .upper _ => ℕ
  | .state _ => MAATState

/-- `get_lower`, `get_upper` and `get_state`. -/
def TimeTable.getCell (tt : TimeTable) : (c : Cell) → CellVal c
  | .lower key => tt.getLower key
  | .upper key => tt.getUpper key
  | .state key => tt.getState key

/-- `set_lower`, `set_upper` and `set_state`. -/
def TimeTable.setCell (tt : TimeTable) : (c : Cell) → CellVal c → TimeTable
  | .lower key, v => tt.setLower key v
  | .upper key, v => tt.setUpper key v
  | .state key, v => tt.setState key v

/-- A thread that uses the time table. -/
abbrev MaatProg (α : Type) : Type := CellProg Cell CellVal α

/-- `get_lower`. -/
def getLowerP (key : ℕ) : MaatProg ℕ := get (V := CellVal) (.lower key)

/-- `get_upper`. -/
def getUpperP (key : ℕ) : MaatProg ℕ := get (V := CellVal) (.upper key)

/-- `get_state`. -/
def getStateP (key : ℕ) : MaatProg MAATState := get (V := CellVal) (.state key)

/-- `set_lower`. -/
def setLowerP (key value : ℕ) : MaatProg Unit := set (V := CellVal) (.lower key) value

/-- `set_upper`. -/
def setUpperP (key value : ℕ) : MaatProg Unit := set (V := CellVal) (.upper key) value

/-- `set_state`. -/
def setStateP (key : ℕ) (value : MAATState) : MaatProg Unit := set (V := CellVal) (.state key) value

/-- The loop over `uncommitted_writes`. -/
def checkWriteP (b : Bounds) (it : ℕ) : MaatProg Bounds := do
  let itLower ← getLowerP it
  if b.upper ≥ itLower then
    match ← getStateP it with
    | .VALIDATED | .COMMITTED =>
      pure { b with upper := if itLower > 0 then itLower - 1 else itLower }
    | .RUNNING => pure { b with after := b.after.insert it }
    | .ABORTED => pure b
  else pure b

/-- The loop over `uncommitted_reads`. -/
def checkReadP (b : Bounds) (it : ℕ) : MaatProg Bounds := do
  let itUpper ← getUpperP it
  if b.lower ≤ itUpper then
    match ← getStateP it with
    | .VALIDATED | .COMMITTED =>
      pure { b with lower := if itUpper < UINT64_MAX then itUpper + 1 else itUpper }
    | .RUNNING => pure { b with before := b.before.insert it }
    | .ABORTED => pure b
  else pure b

/-- The loop over `uncommitted_writes_y`. -/
def checkWriteYP (b : Bounds) (it : ℕ) : MaatProg Bounds := do
  let state ← getStateP it
  let itUpper ← getUpperP it
  match state with
  | .ABORTED => pure b
  | .VALIDATED | .COMMITTED =>
    if b.lower ≤ itUpper then
      pure { b with lower := if itUpper < UINT64_MAX then itUpper + 1 else itUpper }
    else pure b
  | .RUNNING => pure { b with after := b.after.insert it }

/-- The first loop over `before`. -/
def squeezeLowerP (b : Bounds) (it : ℕ) : MaatProg Bounds := do
  let itUpper ← getUpperP it
  if itUpper > b.lower ∧ itUpper < b.upper - 1 then pure { b with lower := itUpper + 1 } else pure b

/-- The first loop over `after`. -/
def squeezeUpperP (b : Bounds) (it : ℕ) : MaatProg Bounds := do
  let itLower ← getLowerP it
  let itUpper ← getUpperP it
  let upper :=
    if itUpper ≠ UINT64_MAX ∧ itUpper > u64 (b.lower + 2) ∧ itUpper < b.upper then
      u64 (itUpper + (UINT64_MAX - 1))
    else b.upper
  pure { b with upper := if itLower < upper ∧ itLower > u64 (b.lower + 1) then itLower - 1
    else upper }

/-- The body of the loops that move others behind. -/
def raiseLowerP (bound value it : ℕ) : MaatProg Unit := do
  let itLower ← getLowerP it
  if itLower ≤ bound then setLowerP it value else pure ()

/-- The body of the loops that move others ahead. -/
def cutUpperP (bound value it : ℕ) : MaatProg Unit := do
  let itUpper ← getUpperP it
  if itUpper ≥ bound then setUpperP it value else pure ()

/-- The loops over the three sets, from the bounds that are stored. -/
def checkP (m : Sets) (lower upper : ℕ) : MaatProg Bounds := do
  let lower := if lower ≤ m.greatestWriteTimestamp then u64 (m.greatestWriteTimestamp + 1)
    else lower
  let b ← m.uncommittedWrites.toList.foldlM checkWriteP ⟨lower, upper, ∅, ∅⟩
  let lower := if b.lower ≤ m.greatestReadTimestamp then u64 (m.greatestReadTimestamp + 1)
    else b.lower
  let b ← m.uncommittedReads.toList.foldlM checkReadP { b with lower := lower }
  m.uncommittedWritesY.toList.foldlM checkWriteYP b

/-- The bounds are written back. -/
def writeBackP (txn : ℕ) (b : Bounds) (rc : RC) : MaatProg RC := do
  setLowerP txn b.lower
  setUpperP txn b.upper
  pure rc

/-- The loops over `before` and `after`. -/
def moveP (b : Bounds) : MaatProg Bounds := do
  let b ← b.before.toList.foldlM squeezeLowerP b
  b.before.toList.forM (cutUpperP b.lower (if b.lower > 0 then b.lower - 1 else b.lower))
  let b ← b.after.toList.foldlM squeezeUpperP b
  b.after.toList.forM (raiseLowerP b.upper (if b.upper < UINT64_MAX then b.upper + 1 else b.upper))
  pure b

/-- `Maat::validate`. -/
def validateP (txn : ℕ) (m : Sets) : MaatProg RC := do
  let lower ← getLowerP txn
  let upper ← getUpperP txn
  let b ← checkP m lower upper
  if b.lower ≥ b.upper then
    setStateP txn .ABORTED
    writeBackP txn b .Abort
  else
    setStateP txn .VALIDATED
    let b ← moveP b
    if b.lower < b.upper then writeBackP txn b .RCOK else .fail

/-- The forward validation of `Row_maat::commit`: the access, and who is still uncommitted on the
row and not in the sets of the transaction. -/
inductive Forward : Type where
  | read (writes : List ℕ)
  | write (writes reads : List ℕ)

/-- `Row_maat::commit`, as far as it uses the time table. -/
def commitP (txn commitTs : ℕ) : Forward → MaatProg Unit
  | .read writes => writes.forM (raiseLowerP commitTs (u64 (commitTs + 1)))
  | .write writes reads => do
    let lower ← getLowerP txn
    writes.forM (cutUpperP commitTs (pred64 commitTs))
    reads.forM (cutUpperP lower (pred64 lower))

/-- `process_rack_prep`, as far as it uses the time table: the bounds and the answer of a
participant. -/
def rackPrepP (txn lower upper : ℕ) (rc : RC) : MaatProg Unit := do
  let ownLower ← getLowerP txn
  (if lower > ownLower then setLowerP txn lower else pure ())
  let ownUpper ← getUpperP txn
  (if upper < ownUpper then setUpperP txn upper else pure ())
  if rc ≠ .RCOK then setStateP txn .ABORTED else pure ()

/-! ## On their own -/

section Alone

open TimeTable (getCell setCell)

variable {tt : TimeTable}

@[simp]
theorem run_getLowerP (key : ℕ) :
    run getCell setCell (getLowerP key) tt = some (tt.getLower key, tt) := rfl

@[simp]
theorem run_getUpperP (key : ℕ) :
    run getCell setCell (getUpperP key) tt = some (tt.getUpper key, tt) := rfl

@[simp]
theorem run_getStateP (key : ℕ) :
    run getCell setCell (getStateP key) tt = some (tt.getState key, tt) := rfl

@[simp]
theorem run_setLowerP (key value : ℕ) :
    run getCell setCell (setLowerP key value) tt = some ((), tt.setLower key value) := rfl

@[simp]
theorem run_setUpperP (key value : ℕ) :
    run getCell setCell (setUpperP key value) tt = some ((), tt.setUpper key value) := rfl

@[simp]
theorem run_setStateP (key : ℕ) (value : MAATState) :
    run getCell setCell (setStateP key value) tt = some ((), tt.setState key value) := rfl

theorem run_checkWriteP (b : Bounds) (it : ℕ) :
    run getCell setCell (checkWriteP b it) tt = some (checkWrite tt b it, tt) := by
  rw [checkWriteP, run_bind, run_getLowerP, bind_some, checkWrite]
  split
  · rw [run_bind, run_getStateP, bind_some]
    cases tt.getState it <;> rfl
  · rfl

theorem run_checkReadP (b : Bounds) (it : ℕ) :
    run getCell setCell (checkReadP b it) tt = some (checkRead tt b it, tt) := by
  rw [checkReadP, run_bind, run_getUpperP, bind_some, checkRead]
  split
  · rw [run_bind, run_getStateP, bind_some]
    cases tt.getState it <;> rfl
  · rfl

theorem run_checkWriteYP (b : Bounds) (it : ℕ) :
    run getCell setCell (checkWriteYP b it) tt = some (checkWriteY tt b it, tt) := by
  rw [checkWriteYP, run_bind, run_getStateP, bind_some, run_bind, run_getUpperP,
    bind_some, checkWriteY]
  cases tt.getState it with
  | RUNNING | ABORTED => rfl
  | VALIDATED | COMMITTED =>
    dsimp only
    split <;> rfl

theorem run_squeezeLowerP (b : Bounds) (it : ℕ) :
    run getCell setCell (squeezeLowerP b it) tt = some (squeezeLower tt b it, tt) := by
  rw [squeezeLowerP, run_bind, run_getUpperP, bind_some, squeezeLower]
  split <;> rfl

theorem run_squeezeUpperP (b : Bounds) (it : ℕ) :
    run getCell setCell (squeezeUpperP b it) tt = some (squeezeUpper tt b it, tt) := by
  rw [squeezeUpperP, run_bind, run_getLowerP, bind_some, run_bind, run_getUpperP,
    bind_some, run_pure, squeezeUpper]
  split_ifs <;> rfl

theorem run_raiseLowerP (bound value : ℕ) (tt : TimeTable) (it : ℕ) :
    run getCell setCell (raiseLowerP bound value it) tt =
      some ((), raiseLower bound value tt it) := by
  rw [raiseLowerP, run_bind, run_getLowerP, bind_some, raiseLower]
  split <;> rfl

theorem run_cutUpperP (bound value : ℕ) (tt : TimeTable) (it : ℕ) :
    run getCell setCell (cutUpperP bound value it) tt = some ((), cutUpper bound value tt it) := by
  rw [cutUpperP, run_bind, run_getUpperP, bind_some, cutUpper]
  split <;> rfl

theorem run_checkP (txn : ℕ) (m : Sets) :
    run getCell setCell (checkP m (tt.getLower txn) (tt.getUpper txn)) tt =
      some (check tt txn m, tt) := by
  have hcopy : ∀ b : Bounds, (if b.lower ≤ m.greatestReadTimestamp then
      { b with lower := u64 (m.greatestReadTimestamp + 1) } else b) =
      { b with lower := if b.lower ≤ m.greatestReadTimestamp then u64 (m.greatestReadTimestamp + 1)
        else b.lower } := by
    intro b
    split <;> rfl
  simp only [checkP, run_bind, run_foldlM run_checkWriteP, run_foldlM run_checkReadP,
    run_foldlM run_checkWriteYP, bind_some, check, hcopy]

theorem run_writeBackP (txn : ℕ) (b : Bounds) (rc : RC) :
    run getCell setCell (writeBackP txn b rc) tt = some (rc, writeBack txn b tt) := rfl

theorem run_moveP (b : Bounds) : run getCell setCell (moveP b) tt =
    let b₁ := b.before.toList.foldl (squeezeLower tt) b
    let tt₁ := pushBefore b₁ tt
    let b₂ := b₁.after.toList.foldl (squeezeUpper tt₁) b₁
    some (b₂, pushAfter b₂ tt₁) := by
  simp only [moveP, run_bind, bind_some, run_foldlM run_squeezeLowerP,
    run_forM (run_cutUpperP _ _), run_foldlM run_squeezeUpperP,
    run_forM (run_raiseLowerP _ _), run_pure]
  rfl

/-- **`validate` on its own** is the one step of `Maat.validate`: the program that takes each `get_`
and `set_` of the time table as a step, run without anybody in between, has the same answer and
leaves the same table. -/
theorem run_validateP (txn : ℕ) (m : Sets) :
    run getCell setCell (validateP txn m) tt = validate tt txn m := by
  simp only [validateP, run_bind, run_getLowerP, run_getUpperP, bind_some, run_checkP, validate]
  generalize check tt txn m = b
  by_cases hab : b.lower ≥ b.upper
  · simp only [if_pos hab, run_bind, run_setStateP, bind_some, run_writeBackP]
  · simp only [if_neg hab, run_bind, run_setStateP, bind_some, run_moveP]
    generalize pushAfter _ _ = tt₂, List.foldl (squeezeUpper _) _ _ = b₂
    by_cases hlt : b₂.lower < b₂.upper
    · simp only [if_pos hlt, run_writeBackP]
    · simp only [if_neg hlt]
      rfl

/-- **The forward validation on its own** is that of `RowMaat.commit`. -/
theorem run_commitP_read (row : RowMaat) (txn commitTs : ℕ) (m : Sets) :
    run getCell setCell (commitP txn commitTs
      (.read ((row.commitRead txn commitTs).uncommittedWrites.toList.filter
        (· ∉ m.uncommittedWrites)))) tt =
      some ((), (row.commit .RD txn commitTs m tt).2) := by
  rw [commitP]
  exact run_forM (run_raiseLowerP _ _) _ _

@[inherit_doc run_commitP_read]
theorem run_commitP_write (row : RowMaat) (txn commitTs : ℕ) (m : Sets) :
    run getCell setCell (commitP txn commitTs
      (.write
        ((row.commitWrite txn commitTs).uncommittedWrites.toList.filter (· ∉ m.uncommittedWritesY))
        ((row.commitWrite txn commitTs).uncommittedReads.toList.filter (· ∉ m.uncommittedReads))))
          tt =
      some ((), (row.commit .WR txn commitTs m tt).2) := by
  simp only [commitP, run_bind, run_getLowerP, bind_some, run_forM (run_cutUpperP _ _),
    RowMaat.commit]

end Alone

/-! ## Among others -/

/-- What a thread may find: numbers of 64 bits, and a lower bound above 0 for those that are to have
one. -/
def Adm (pos : ℕ → Prop) : (c : Cell) → CellVal c → Prop
  | .lower key, (v : ℕ) => v ≤ UINT64_MAX ∧ (pos key → 0 < v)
  | .upper _, (v : ℕ) => v ≤ UINT64_MAX
  | .state _, _ => True

/-- What a thread may write: a bound that is at least as tight as what it has seen last. -/
def Fits : (c : Cell) → Option (CellVal c) → CellVal c → Prop
  | .lower _, seen, (v : ℕ) => ∃ w : ℕ, seen = some w ∧ w ≤ v
  | .upper _, seen, (v : ℕ) => ∃ w : ℕ, seen = some w ∧ v ≤ w
  | .state _, _, _ => True

section Wp

open CellProg (Seen wp wp_bind wp_mono wp_foldlM wp_forM)

variable {txn it : ℕ} {b : Bounds} {seen : Seen Cell CellVal} {pos : ℕ → Prop}

/-- **The invariant of `validate`**: the local bounds are at least as tight as those that were
stored. -/
structure Own (txn : ℕ) (b : Bounds) (seen : Seen Cell CellVal) : Prop where
  /-- the lower bound -/
  lower : ∃ w : ℕ, seen (.lower txn) = some w ∧ w ≤ b.lower
  /-- the upper bound -/
  upper : ∃ w : ℕ, seen (.upper txn) = some w ∧ b.upper ≤ w ∧ w ≤ UINT64_MAX
  /-- it is past all writes -/
  pos : 0 < b.lower
  /-- it has 64 bits -/
  max : b.lower ≤ UINT64_MAX
  /-- the transaction is not to be moved -/
  before : txn ∉ b.before
  /-- in neither direction -/
  after : txn ∉ b.after

/-- Cells of others. -/
def Cell.Other (txn : ℕ) : Cell → Prop
  | .lower key | .upper key => key ≠ txn
  | .state _ => True

theorem Own.look (h : Own txn b seen) {c : Cell} (hc : c.Other txn) (v : CellVal c) :
    Own txn b (update seen c (some v)) := by
  have hlower : update seen c (some v) (.lower txn) = seen (.lower txn) := by
    refine update_of_ne ?_ _ _
    rintro rfl
    exact hc rfl
  have hupper : update seen c (some v) (.upper txn) = seen (.upper txn) := by
    refine update_of_ne ?_ _ _
    rintro rfl
    exact hc rfl
  exact { h with lower := hlower ▸ h.lower, upper := hupper ▸ h.upper }

variable {lower upper : ℕ}

section

variable (h : Own txn b seen)

include h

theorem Own.raise (hle : b.lower ≤ lower) (hmax : lower ≤ UINT64_MAX) :
    Own txn { b with lower := lower } seen := by
  obtain ⟨w, hw, hwle⟩ := h.lower
  exact { h with lower := ⟨w, hw, hwle.trans hle⟩, pos := h.pos.trans_le hle, max := hmax }

theorem Own.cut (hle : upper ≤ b.upper) : Own txn { b with upper := upper } seen := by
  obtain ⟨w, hw, hwle, hmax⟩ := h.upper
  exact { h with upper := ⟨w, hw, hle.trans hwle, hmax⟩ }

section

variable (hit : it ≠ txn)

include hit

theorem Own.insertAfter : Own txn { b with after := b.after.insert it } seen :=
  { h with
    after := fun hmem => (OrderedSet.mem_insert.mp hmem).elim (fun heq => hit heq.symm) h.after }

theorem Own.insertBefore : Own txn { b with before := b.before.insert it } seen :=
  { h with
    before := fun hmem => (OrderedSet.mem_insert.mp hmem).elim (fun heq => hit heq.symm) h.before }

theorem wp_checkWriteP : wp (Adm pos) Fits (checkWriteP b it) seen (Own txn) := by
  refine wp_bind fun (itLower : ℕ) _ => ?_
  have h₁ := h.look (c := .lower it) hit itLower
  change wp _ _ (if _ then _ else _) _ _
  split
  · refine wp_bind fun state _ => ?_
    have h₂ := h₁.look (c := .state it) trivial state
    cases state with
    | VALIDATED | COMMITTED => exact h₂.cut (by split <;> omega)
    | RUNNING => exact h₂.insertAfter hit
    | ABORTED => exact h₂
  · exact h₁

theorem wp_checkReadP : wp (Adm pos) Fits (checkReadP b it) seen (Own txn) := by
  refine wp_bind fun (itUpper : ℕ) (hmax : itUpper ≤ UINT64_MAX) => ?_
  have h₁ := h.look (c := .upper it) hit itUpper
  change wp _ _ (if _ then _ else _) _ _
  split
  · refine wp_bind fun state _ => ?_
    have h₂ := h₁.look (c := .state it) trivial state
    have hraise : itUpper ≤ (if itUpper < UINT64_MAX then itUpper + 1 else itUpper) ∧
        (if itUpper < UINT64_MAX then itUpper + 1 else itUpper) ≤ UINT64_MAX := by
      split <;> omega
    cases state with
    | VALIDATED | COMMITTED => exact h₂.raise (le_trans ‹_› hraise.1) hraise.2
    | RUNNING => exact h₂.insertBefore hit
    | ABORTED => exact h₂
  · exact h₁

theorem wp_checkWriteYP : wp (Adm pos) Fits (checkWriteYP b it) seen (Own txn) := by
  refine wp_bind fun state _ => wp_bind fun (itUpper : ℕ) (hmax : itUpper ≤ UINT64_MAX) => ?_
  have h₁ := (h.look (c := .state it) trivial state).look (c := .upper it) hit itUpper
  have hraise : itUpper ≤ (if itUpper < UINT64_MAX then itUpper + 1 else itUpper) ∧
      (if itUpper < UINT64_MAX then itUpper + 1 else itUpper) ≤ UINT64_MAX := by
    split <;> omega
  cases state with
  | ABORTED => exact h₁
  | RUNNING => exact h₁.insertAfter hit
  | VALIDATED | COMMITTED =>
    change wp _ _ (if _ then _ else _) _ _
    split
    · exact h₁.raise (le_trans ‹_› hraise.1) hraise.2
    · exact h₁

end

theorem wp_squeezeLowerP (hlt : b.lower < b.upper) (hit : it ≠ txn) :
    wp (Adm pos) Fits (squeezeLowerP b it) seen fun b seen => Own txn b seen ∧
      b.lower < b.upper := by
  refine wp_bind fun (itUpper : ℕ) (hitmax : itUpper ≤ UINT64_MAX) => ?_
  have h₁ := h.look (c := .upper it) hit itUpper
  change wp _ _ (if _ then _ else _) _ _
  split
  next hbetween =>
    obtain ⟨w, _, hle, hmax⟩ := h.upper
    exact ⟨h₁.raise (by omega) (by omega), by dsimp only; omega⟩
  · exact ⟨h₁, hlt⟩

/-- `lower + 2` may wrap around, but only below an upper bound of `UINT64_MAX`. -/
theorem wp_squeezeUpperP (hlt : b.lower < upper) (hupper : seen (.upper txn) = some upper)
    (hit : it ≠ txn) : wp (Adm pos) Fits (squeezeUpperP b it) seen fun b seen =>
      Own txn b seen ∧ b.lower < upper ∧ seen (.upper txn) = some upper := by
  refine wp_bind fun (itLower : ℕ) _ =>
    wp_bind fun (itUpper : ℕ) (hitmax : itUpper ≤ UINT64_MAX) => ?_
  have h₁ := (h.look (c := .lower it) hit itLower).look (c := .upper it) hit itUpper
  have hsame : update (update seen (.lower it) (some itLower)) (.upper it) (some itUpper)
      (.upper txn) = some upper := by
    rw [update_of_ne (by simpa using Ne.symm hit), update_of_ne (by simp), hupper]
  obtain ⟨w, hw, hle, hmax⟩ := h.upper
  obtain rfl : upper = w := some.inj (hupper.symm.trans hw)
  have hfirst : (if itUpper ≠ UINT64_MAX ∧ itUpper > u64 (b.lower + 2) ∧ itUpper < b.upper then
      u64 (itUpper + (UINT64_MAX - 1)) else b.upper) ≤ upper := by
    split
    · simp only [u64, UINT64_MAX] at *
      omega
    · exact hle
  have hsecond : ∀ {u lower : ℕ}, u ≤ upper →
      (if itLower < u ∧ itLower > lower then itLower - 1 else u) ≤ upper := by
    intro u lower hu
    split <;> omega
  exact ⟨{ h₁ with upper := ⟨upper, hsame, hsecond hfirst, hmax⟩ }, hlt, hsame⟩

end

theorem wp_raiseLowerP {bound value : ℕ} {I : Seen Cell CellVal → Prop} (h : I seen)
    (hI : ∀ seen v, I seen → I (update seen (.lower it) (some v))) (hle : bound ≤ value)
    (hmax : value ≤ UINT64_MAX) (hpos : 0 < value) :
    wp (Adm pos) Fits (raiseLowerP bound value it) seen fun _ => I := by
  refine wp_bind fun (itLower : ℕ) _ => ?_
  have h₁ := hI seen itLower h
  change wp _ _ (if _ then _ else _) _ _
  split
  · exact ⟨⟨itLower, update_self .., le_trans ‹_› hle⟩, ⟨hmax, fun _ => hpos⟩, hI _ value h₁⟩
  · exact h₁

theorem wp_cutUpperP {bound value : ℕ} {I : Seen Cell CellVal → Prop} (h : I seen)
    (hI : ∀ seen v, I seen → I (update seen (.upper it) (some v))) (hle : value ≤ bound)
    (hmax : value ≤ UINT64_MAX) : wp (Adm pos) Fits (cutUpperP bound value it) seen fun _ => I := by
  refine wp_bind fun (itUpper : ℕ) _ => ?_
  have h₁ := hI seen itUpper h
  change wp _ _ (if _ then _ else _) _ _
  split
  · exact ⟨⟨itUpper, update_self .., hle.trans ‹_›⟩, hmax, hI _ value h₁⟩
  · exact h₁

/-- What may be asked of a validation: sets without the transaction, and timestamps of commits. -/
structure Sets.For (m : Sets) (txn : ℕ) : Prop where
  /-- nobody waits for itself -/
  writes : txn ∉ m.uncommittedWrites
  /-- in any set -/
  writesY : txn ∉ m.uncommittedWritesY
  /-- in any set -/
  reads : txn ∉ m.uncommittedReads

theorem ne_of_mem {x txn : ℕ} {s : OrderedSet ℕ} (hx : x ∈ s.toList) (h : txn ∉ s) : x ≠ txn := by
  rintro rfl
  exact h hx

/-- The loops over the three sets leave the bounds at least as tight as those stored, whatever the
thread reads of the others. -/
theorem wp_checkP {m : Sets} (hm : m.For txn) (hstamp : m.Stamped)
    (hlower : seen (.lower txn) = some lower) (hupper : seen (.upper txn) = some upper)
    (hlmax : lower ≤ UINT64_MAX) (humax : upper ≤ UINT64_MAX) :
    wp (Adm pos) Fits (checkP m lower upper) seen (Own txn) := by
  obtain ⟨hw, hr⟩ := hstamp
  rw [checkP, u64_of_le hw, u64_of_le hr]
  have hstart : Own txn
      ⟨if lower ≤ m.greatestWriteTimestamp then m.greatestWriteTimestamp + 1
        else lower, upper, ∅, ∅⟩
      seen := by
    refine ⟨⟨lower, hlower, ?_⟩, ⟨upper, hupper, le_rfl, humax⟩, ?_, ?_, OrderedSet.not_mem_empty,
      OrderedSet.not_mem_empty⟩
    all_goals
      dsimp only
      split <;> omega
  refine wp_bind (wp_mono (fun b seen h => ?_)
    (wp_foldlM (Own txn) hstart fun it hit b seen h => wp_checkWriteP h (ne_of_mem hit hm.writes)))
  have hread : Own txn { b with
      lower := if b.lower ≤ m.greatestReadTimestamp then m.greatestReadTimestamp + 1
        else b.lower } seen := by
    have hmax := h.max
    refine h.raise ?_ ?_
    · split <;> omega
    · split <;> omega
  refine wp_bind (wp_mono (fun b seen h => ?_)
    (wp_foldlM (Own txn) hread fun it hit b seen h => wp_checkReadP h (ne_of_mem hit hm.reads)))
  exact wp_foldlM (Own txn) h fun it hit b seen h => wp_checkWriteYP h (ne_of_mem hit hm.writesY)

/-- The loops that move the others leave the bounds at least as tight as those stored, whatever the
thread reads of the others. -/
theorem wp_moveP (h : Own txn b seen) (hlt : b.lower < b.upper) :
    wp (Adm pos) Fits (moveP b) seen (Own txn) := by
  refine wp_bind (wp_mono (fun b seen ⟨h, hlt⟩ => ?_)
    (wp_foldlM (fun b seen => Own txn b seen ∧ b.lower < b.upper) ⟨h, hlt⟩
      fun it hit b seen ⟨h, hlt⟩ => wp_squeezeLowerP h hlt (ne_of_mem hit ‹Own txn _ _›.before)))
  have hcut : (if b.lower > 0 then b.lower - 1 else b.lower) ≤ b.lower := by
    split <;> omega
  refine wp_bind (wp_mono (fun _ seen h => ?_) (wp_forM (Own txn b) h fun it hit seen h =>
    wp_cutUpperP h (fun seen v h => h.look (c := .upper it) (ne_of_mem hit h.before) v) hcut
      (hcut.trans h.max)))
  obtain ⟨upper, hupper, hle, hmax⟩ := h.upper
  refine wp_bind (wp_mono (fun b seen ⟨h, _⟩ => ?_)
    (wp_foldlM (fun b seen => Own txn b seen ∧ b.lower < upper ∧ seen (.upper txn) = some upper)
      ⟨h, hlt.trans_le hle, hupper⟩
      fun it hit b seen ⟨h', hlt, hupper⟩ =>
      wp_squeezeUpperP h' hlt hupper (ne_of_mem hit h.after)))
  obtain ⟨w, _, hwle, hwmax⟩ := h.upper
  have hraise : b.upper ≤ (if b.upper < UINT64_MAX then b.upper + 1 else b.upper) ∧
      (if b.upper < UINT64_MAX then b.upper + 1 else b.upper) ≤ UINT64_MAX ∧
      0 < (if b.upper < UINT64_MAX then b.upper + 1 else b.upper) := by
    have hpos : 0 < UINT64_MAX := by decide
    split <;> omega
  exact wp_bind (wp_mono (fun _ seen h => h) (wp_forM (Own txn b) h fun it hit seen h =>
    wp_raiseLowerP h
      (fun seen v h => h.look (c := .lower it) (ne_of_mem hit h.after) v) hraise.1 hraise.2.1
      hraise.2.2))

/-- After a write-back the thread has seen a lower bound above 0. -/
def Left (txn : ℕ) (seen : Seen Cell CellVal) : Prop := ∃ w : ℕ, seen (.lower txn) = some w ∧ 0 < w

theorem wp_writeBackP (h : Own txn b seen) (rc : RC) :
    wp (Adm pos) Fits (writeBackP txn b rc) seen fun _ => Left txn := by
  obtain ⟨w, hw, hle, hmax⟩ := h.upper
  refine ⟨h.lower, ⟨h.max, fun _ => h.pos⟩, ⟨w, ?_, hle⟩, hle.trans hmax, b.lower, ?_, h.pos⟩
  · rw [update_of_ne (by simp), hw]
  · rw [update_of_ne (by simp), update_self]

/-- **Whatever others do, `validate` writes only tighter bounds** than it has seen. -/
theorem wp_validateP {m : Sets} (hm : m.For txn) (hstamp : m.Stamped) :
    wp (Adm pos) Fits (validateP txn m) seen fun _ => Left txn := by
  refine wp_bind fun (lower : ℕ) hlower => wp_bind fun (upper : ℕ) hupper => ?_
  have hlow : lower ≤ UINT64_MAX := hlower.1
  refine wp_bind (wp_mono (fun b seen h => ?_) (wp_checkP hm hstamp ?_
    (update_self ..) hlow hupper))
  · have hset : ∀ state, Own txn b (update seen (.state txn) (some state)) :=
      fun state => h.look (c := .state txn) trivial state
    split
    · exact ⟨trivial, trivial, wp_writeBackP (hset _) _⟩
    · refine ⟨trivial, trivial, ?_⟩
      change wp _ _ (moveP b >>= _) _ _
      refine wp_bind (wp_mono (fun b seen h => ?_) (wp_moveP (hset _) (Nat.lt_of_not_le ‹_›)))
      split
      · exact wp_writeBackP h _
      · trivial
  · rw [update_of_ne (by simp), update_self]

/-- So does the forward validation of a transaction with a commit timestamp and a lower bound above
0. -/
theorem wp_commitP {commitTs : ℕ} (hpos : 0 < commitTs) (hmax : commitTs < UINT64_MAX)
    (htxn : pos txn) (fwd : Forward) :
    wp (Adm pos) Fits (commitP txn commitTs fwd) seen fun _ _ => True := by
  cases fwd with
  | read writes =>
    rw [commitP, u64_of_le hmax]
    exact wp_forM (fun _ => True) trivial fun it _ seen h =>
      wp_raiseLowerP h (fun _ _ _ => trivial) (Nat.le_succ _) hmax (Nat.succ_pos _)
  | write writes reads =>
    refine wp_bind fun (lower : ℕ) hlower => ?_
    have hlmax : lower ≤ UINT64_MAX := hlower.1
    have hlpos : 0 < lower := hlower.2 htxn
    change wp _ _ (writes.forM (cutUpperP commitTs (pred64 commitTs)) >>= fun _ =>
      reads.forM (cutUpperP lower (pred64 lower))) _ _
    rw [pred64_of_pos hpos hmax.le, pred64_of_pos hlpos hlmax]
    refine wp_bind (wp_mono (fun _ seen h => ?_) (wp_forM (fun _ => True) trivial fun it _ seen h =>
      wp_cutUpperP h (fun _ _ _ => trivial) (Nat.sub_le _ _) ((Nat.sub_le _ _).trans hmax.le)))
    exact wp_forM (fun _ => True) trivial fun it _ seen h =>
      wp_cutUpperP h (fun _ _ _ => trivial) (Nat.sub_le _ _) ((Nat.sub_le _ _).trans hlmax)

/-- So does `process_rack_prep`. -/
theorem wp_rackPrepP (hlmax : lower ≤ UINT64_MAX) (humax : upper ≤ UINT64_MAX) (rc : RC) :
    wp (Adm pos) Fits (rackPrepP txn lower upper rc) seen fun _ _ => True := by
  refine wp_bind fun (ownLower : ℕ) _ =>
    wp_bind (wp_mono (Q := fun _ _ => True) (fun _ seen _ => ?_) ?_)
  · refine wp_bind fun (ownUpper : ℕ) _ =>
      wp_bind (wp_mono (Q := fun _ _ => True) (fun _ seen _ => ?_) ?_)
    · split
      · exact ⟨trivial, trivial, trivial⟩
      · trivial
    · split
      next hlt =>
        exact ⟨⟨ownUpper, update_self .., Nat.le_of_lt hlt⟩, humax, trivial⟩
      · trivial
  · split
    next hlt =>
      exact ⟨⟨ownLower, update_self .., Nat.le_of_lt hlt⟩,
        ⟨hlmax, fun _ => Nat.zero_lt_of_lt hlt⟩, trivial⟩
    · trivial

end Wp

/-! ## All interleavings -/

namespace Steps

open CellProg (Seen wp)

/-- What a thread does for a transaction. -/
inductive Op : Type where
  | validate | rackPrep | commit
  deriving DecidableEq

/-- How far a transaction is at the node. -/
inductive Phase : Type where
  /-- it has no entry -/
  | absent
  /-- it has one -/
  | running
  /-- a thread is at work, and has seen this of the time table -/
  | busy (op : Op) (p : MaatProg RC) (seen : Seen Cell CellVal)
  /-- `validate` returned `RCOK` -/
  | validated
  /-- `validate` returned `Abort` -/
  | refused

/-- The time table of a node, with the threads that use it. -/
structure State where
  /-- the time table -/
  table : TimeTable
  /-- the transactions -/
  phase : ℕ → Phase
  /-- who has the semaphore of `validate` -/
  sem : Option ℕ

/-- A step. -/
inductive Action : Type where
  | init (t : ℕ)
  | startValidate (t : ℕ) (m : Sets)
  /-- a participant has answered, with its bounds -/
  | startRackPrep (t lower upper : ℕ) (rc : RC)
  /-- a row is committed -/
  | startCommit (t commitTs : ℕ) (fwd : Forward)
  /-- the thread of a transaction goes on -/
  | step (t : ℕ)
  | release (t : ℕ)

namespace State

/-- A transaction goes on. -/
def setPhase (s : State) (t : ℕ) (p : Phase) : State := { s with phase := update s.phase t p }

/-- A thread starts. -/
def start (s : State) (t : ℕ) (op : Op) (p : MaatProg RC) : State :=
  s.setPhase t (.busy op p fun _ => none)

/-- A thread is done. -/
def finish (s : State) (t : ℕ) (op : Op) (rc : RC) : State :=
  match op with
  | .validate => { s with sem := none }.setPhase t (if rc = RC.RCOK then .validated else .refused)
  | .rackPrep => s.setPhase t .running
  | .commit => s.setPhase t .validated

end State

/-- All interleavings. A commit timestamp is the lower end of an interval that was validated. -/
def machine : Machine State Action where
  init := ⟨fun _ => none, fun _ => .absent, none⟩
  step s
    | .init t =>
      match s.phase t with
      | .absent => some ({ s with table := s.table.init t }.setPhase t .running)
      | _ => none
    | .startValidate t m =>
      match s.phase t, s.sem with
      | .running, none =>
        if m.Stamped then some ({ s with sem := some t }.start t .validate (validateP t m))
          else none
      | _, _ => none
    | .startRackPrep t lower upper rc =>
      match s.phase t with
      | .running =>
        if lower ≤ UINT64_MAX ∧ upper ≤ UINT64_MAX then
          some (s.start t .rackPrep (rackPrepP t lower upper rc >>= fun _ => pure RC.RCOK))
        else none
      | _ => none
    | .startCommit t commitTs fwd =>
      match s.phase t with
      | .validated =>
        if 0 < commitTs ∧ commitTs < UINT64_MAX then
          some (s.start t .commit (commitP t commitTs fwd >>= fun _ => pure RC.RCOK))
        else none
      | _ => none
    | .step t =>
      match s.phase t with
      | .busy op (.ret rc) _ => some (s.finish t op rc)
      | .busy op (.read c next) seen =>
        some (s.setPhase t (.busy op (next (s.table.getCell c))
          (update seen c (some (s.table.getCell c)))))
      | .busy op (.write c v next) seen =>
        some ({ s with table := s.table.setCell c v }.setPhase t
          (.busy op next (update seen c (some v))))
      | _ => none
    | .release t =>
      match s.phase t with
      | .running | .validated | .refused =>
        some ({ s with table := s.table.release t }.setPhase t .absent)
      | _ => none

/-- A write to a bound that is still as the thread has seen it last. -/
def Fresh (tt : TimeTable) : MaatProg RC → Seen Cell CellVal → Prop
  | .write (.lower key) _ _, seen => ∀ e ∈ tt key, seen (.lower key) = some e.lower
  | .write (.upper key) _ _, seen => ∀ e ∈ tt key, seen (.upper key) = some e.upper
  | _, _ => True

/-- **Nobody comes in between**: a bound is as it was seen when it is written, and a transaction is
not among those it is validated against. -/
def Undisturbed (s : State) : Action → Prop
  | .startValidate t m => m.For t
  | .step t =>
    match s.phase t with
    | .busy _ p seen => Fresh s.table p seen
    | _ => True
  | _ => True

/-- An entry stays, with bounds at least as tight. -/
def Tighter (tt tt' : TimeTable) (key : ℕ) : Prop :=
  ∀ e ∈ tt key, ∃ e' ∈ tt' key, e.lower ≤ e'.lower ∧ e'.upper ≤ e.upper

/-- The bounds have 64 bits. -/
def Bounded (tt : TimeTable) : Prop :=
  ∀ key, ∀ e ∈ tt key, e.lower ≤ UINT64_MAX ∧ e.upper ≤ UINT64_MAX

/-- A thread writes only what fits, whatever others do; a commit relies on a lower bound above 0,
and `validate` leaves one. -/
def Thread (t : ℕ) (op : Op) (p : MaatProg RC) (seen : Seen Cell CellVal) : Prop :=
  wp (Adm fun key => op = .commit ∧ key = t) Fits p seen fun _ seen => op = .validate → Left t seen

/-- A transaction that is not absent has an entry. Its lower bound is above 0 once it is validated,
and not below what its thread has seen of it. -/
def Phase.Ok (tt : TimeTable) (t : ℕ) : Phase → Prop
  | .absent => True
  | .running | .refused => ∃ e, tt t = some e
  | .validated => ∃ e ∈ tt t, 0 < e.lower
  | .busy op p seen => ∃ e ∈ tt t, (op = .commit → 0 < e.lower) ∧
      (∀ w : ℕ, seen (.lower t) = some w → w ≤ e.lower) ∧ Thread t op p seen

/-- **The invariant.** -/
structure Inv (s : State) : Prop where
  /-- of the table -/
  bounded : Bounded s.table
  /-- of each transaction -/
  ok (t : ℕ) : (s.phase t).Ok s.table t

section Lemmas

variable {s s' : State} {tt tt' : TimeTable} {t key : ℕ} {op : Op} {seen : Seen Cell CellVal}

theorem Tighter.refl (tt : TimeTable) (key : ℕ) : Tighter tt tt key :=
  fun e he => ⟨e, he, le_refl _, le_refl _⟩

theorem Tighter.trans {tt'' : TimeTable} (h : Tighter tt tt' key) (h' : Tighter tt' tt'' key) :
    Tighter tt tt'' key := by
  intro e he
  obtain ⟨e', he', hlower, hupper⟩ := h e he
  obtain ⟨e'', he'', hlower', hupper'⟩ := h' e' he'
  exact ⟨e'', he'', hlower.trans hlower', hupper'.trans hupper⟩

/-- A change of one entry. -/
theorem tighter_modify {f : TimeTableEntry → TimeTableEntry}
    (hf : ∀ e ∈ tt key, e.lower ≤ (f e).lower ∧ (f e).upper ≤ e.upper) (x : ℕ) :
    Tighter tt (tt.modify key f) x := by
  intro e he
  rw [TimeTable.modify_apply]
  split
  next hx =>
    subst hx
    exact ⟨f e, Option.mem_map_of_mem f he, hf e he⟩
  · exact ⟨e, he, le_refl _, le_refl _⟩

theorem bounded_modify (h : Bounded tt) {f : TimeTableEntry → TimeTableEntry}
    (hf : ∀ e ∈ tt key, (f e).lower ≤ UINT64_MAX ∧ (f e).upper ≤ UINT64_MAX) :
    Bounded (tt.modify key f) := by
  intro x e he
  rw [TimeTable.modify_apply] at he
  split at he
  next hx =>
    subst hx
    obtain ⟨e₀, he₀, rfl⟩ := map_eq_some_iff.mp he
    exact hf e₀ he₀
  · exact h x e he

variable {c : Cell} {v : CellVal c}

/-- **A fresh write that fits tightens.** -/
theorem tighter_setCell {next : MaatProg RC} (hfits : Fits c (seen c) v)
    (hfresh : Fresh tt (.write c v next) seen) (x : ℕ) : Tighter tt (tt.setCell c v) x := by
  cases c with
  | lower key =>
    obtain ⟨w, hw, hle⟩ := hfits
    refine tighter_modify (f := fun e => { e with lower := v }) (fun e he => ⟨?_, le_refl _⟩) x
    exact (some.inj ((hfresh e he).symm.trans hw)).trans_le hle
  | upper key =>
    obtain ⟨w, hw, hle⟩ := hfits
    refine tighter_modify (f := fun e => { e with upper := v }) (fun e he => ⟨le_refl _, ?_⟩) x
    exact hle.trans_eq (some.inj (hw.symm.trans (hfresh e he)))
  | state key =>
    exact tighter_modify (f := fun e => { e with state := v }) (fun e _ => ⟨le_refl _, le_refl _⟩) x

theorem bounded_setCell {pos : ℕ → Prop} (h : Bounded tt) (hv : Adm pos c v) :
    Bounded (tt.setCell c v) := by
  cases c with
  | lower key => exact bounded_modify h fun e he => ⟨hv.1, (h key e he).2⟩
  | upper key => exact bounded_modify h fun e he => ⟨(h key e he).1, hv⟩
  | state key => exact bounded_modify h fun e he => h key e he

/-- What a thread reads is admissible. -/
theorem adm_getCell {pos : ℕ → Prop} (h : Bounded tt) (hpos : ∀ key, pos key → 0 < tt.getLower key)
    (c : Cell) : Adm pos c (tt.getCell c) := by
  cases c with
  | lower key =>
    refine ⟨?_, hpos key⟩
    change tt.getLower key ≤ UINT64_MAX
    rw [TimeTable.getLower]
    cases hkey : tt key with
    | none => exact Nat.zero_le _
    | some e => exact (h key e hkey).1
  | upper key =>
    change tt.getUpper key ≤ UINT64_MAX
    rw [TimeTable.getUpper]
    cases hkey : tt key with
    | none => exact le_refl _
    | some e => exact (h key e hkey).2
  | state key => trivial

theorem tighter_init (key x : ℕ) : Tighter tt (tt.init key) x := by
  intro e he
  refine ⟨e, ?_, le_refl _, le_refl _⟩
  rw [TimeTable.init]
  cases hkey : tt key with
  | some e' => exact he
  | none =>
    have hx : x ≠ key := by
      rintro rfl
      cases hkey.symm.trans he
    exact (update_of_ne hx _ _).trans he

theorem bounded_init (h : Bounded tt) (key : ℕ) : Bounded (tt.init key) := by
  intro x e he
  rw [TimeTable.init] at he
  cases hkey : tt key with
  | some e' =>
    rw [hkey] at he
    exact h x e he
  | none =>
    rw [hkey] at he
    change e ∈ update tt key (some .init) x at he
    rw [update_apply] at he
    split at he
    · cases he
      exact ⟨Nat.zero_le _, le_refl _⟩
    · exact h x e he

theorem init_self (tt : TimeTable) (key : ℕ) : ∃ e, tt.init key key = some e := by
  rw [TimeTable.init]
  cases hkey : tt key with
  | some e => exact ⟨e, hkey⟩
  | none => exact ⟨.init, update_self ..⟩

/-- A transaction does not mind when its bounds tighten. -/
theorem Phase.Ok.tighter {p : Phase} (h : p.Ok tt t) (ht : Tighter tt tt' t) : p.Ok tt' t := by
  cases p with
  | absent => trivial
  | running | refused =>
    obtain ⟨e, he⟩ := h
    obtain ⟨e', he', -⟩ := ht e he
    exact ⟨e', he'⟩
  | validated =>
    obtain ⟨e, he, hpos⟩ := h
    obtain ⟨e', he', hle, -⟩ := ht e he
    exact ⟨e', he', hpos.trans_le hle⟩
  | busy op p seen =>
    obtain ⟨e, he, hpos, hseen, hthread⟩ := h
    obtain ⟨e', he', hle, -⟩ := ht e he
    exact ⟨e', he', fun hop => (hpos hop).trans_le hle, fun w hw => (hseen w hw).trans hle, hthread⟩

/-- A thread that has nothing to say at its end. -/
theorem Thread.of_unit {p : MaatProg Unit} (hop : op ≠ .validate)
    (hp : wp (Adm fun key => op = .commit ∧ key = t) Fits p seen fun _ _ => True) :
    Thread t op (p >>= fun _ => pure RC.RCOK) seen :=
  wp_bind (wp_mono (fun _ _ _ hval => (hop hval).elim) hp)

theorem inv_init : Inv machine.init := ⟨nofun, fun _ => trivial⟩

section

variable (h : Inv s)

include h

/-- The table tightens and one transaction goes on. -/
theorem Inv.go {sem : Option ℕ} {p : Phase} (htable : ∀ key, Tighter s.table tt key)
    (hb : Bounded tt) (hp : p.Ok tt t) : Inv (State.setPhase ⟨tt, s.phase, sem⟩ t p) where
  bounded := hb
  ok x := by
    change (update s.phase t p x).Ok tt x
    by_cases hx : x = t
    · subst hx
      rw [update_self]
      exact hp
    · rw [update_of_ne hx]
      exact (h.ok x).tighter (htable x)

/-- A thread starts. -/
theorem Inv.start {sem : Option ℕ} {p : MaatProg RC}
    (ht : ∃ e ∈ s.table t, op = .commit → 0 < e.lower) (hp : Thread t op p fun _ => none) :
    Inv (State.start ⟨s.table, s.phase, sem⟩ t op p) := by
  obtain ⟨e, he, hpos⟩ := ht
  exact h.go (Tighter.refl _) h.bounded ⟨e, he, hpos, (fun w hw => by cases hw), hp⟩

/-- A thread is done. -/
theorem Inv.finish {rc : RC} (hp : s.phase t = .busy op (.ret rc) seen) :
    Inv (s.finish t op rc) := by
  have hok := h.ok t
  rw [hp] at hok
  obtain ⟨e, he, hpos, hseen, hthread⟩ := hok
  cases op with
  | validate =>
    obtain ⟨w, hw, hwpos⟩ : Left t seen := hthread rfl
    refine h.go (Tighter.refl _) h.bounded ?_
    split
    · exact ⟨e, he, hwpos.trans_le (hseen w hw)⟩
    · exact ⟨e, he⟩
  | rackPrep => exact h.go (Tighter.refl _) h.bounded ⟨e, he⟩
  | commit => exact h.go (Tighter.refl _) h.bounded ⟨e, he, hpos rfl⟩

/-- A thread reads. -/
theorem Inv.read {next : CellVal c → MaatProg RC} (hp : s.phase t = .busy op (.read c next) seen) :
    Inv (s.setPhase t (.busy op (next (s.table.getCell c))
      (update seen c (some (s.table.getCell c))))) := by
  have hok := h.ok t
  rw [hp] at hok
  obtain ⟨e, he, hpos, hseen, hthread⟩ := hok
  have hlower : s.table.getLower t = e.lower := TimeTable.getLower_of_some he
  refine h.go (Tighter.refl _) h.bounded ⟨e, he, hpos, fun w hw => ?_, hthread _ ?_⟩
  · by_cases hc : c = .lower t
    · subst hc
      rw [update_self] at hw
      exact (some.inj hw).symm.trans_le hlower.le
    · rw [update_of_ne (Ne.symm hc)] at hw
      exact hseen w hw
  · refine adm_getCell h.bounded (fun key hkey => ?_) c
    obtain ⟨hop, rfl⟩ := hkey
    exact hlower ▸ hpos hop

/-- A thread writes what is still as it has seen it. -/
theorem Inv.write {next : MaatProg RC} (hp : s.phase t = .busy op (.write c v next) seen)
    (hfresh : Fresh s.table (.write c v next) seen) :
    (∀ key, Tighter s.table (s.table.setCell c v) key) ∧
      Inv (State.setPhase { s with table := s.table.setCell c v } t
        (.busy op next (update seen c (some v)))) := by
  have hok := h.ok t
  rw [hp] at hok
  obtain ⟨e, he, hpos, hseen, hfits, hadm, hthread⟩ := hok
  have htight := tighter_setCell hfits hfresh
  obtain ⟨e', he', hle, -⟩ := htight t e he
  refine ⟨htight, h.go htight (bounded_setCell h.bounded hadm)
    ⟨e', he', fun hop => (hpos hop).trans_le hle, fun w hw => ?_, hthread⟩⟩
  by_cases hc : c = .lower t
  · subst hc
    -- its own lower bound is now what it wrote
    rw [update_self] at hw
    have hset : s.table.setCell (.lower t) v t = some { e with lower := v } := by
      change s.table.modify t _ t = _
      rw [TimeTable.modify_apply, if_pos rfl, he]
      rfl
    obtain rfl := some.inj (hset.symm.trans he')
    exact (some.inj hw).ge
  · rw [update_of_ne (Ne.symm hc)] at hw
    exact (hseen w hw).trans hle

/-- An entry is released. -/
theorem Inv.release (t : ℕ) : (∀ key, key ≠ t → Tighter s.table (s.table.release t) key) ∧
      Inv (State.setPhase { s with table := s.table.release t } t .absent) := by
  have hne : ∀ key, key ≠ t → s.table.release t key = s.table key := fun key hkey =>
    update_of_ne hkey _ _
  refine ⟨fun key hkey e he => ⟨e, (hne key hkey).trans he, le_refl _, le_refl _⟩,
    fun key e he => ?_, fun x => ?_⟩
  · change s.table.release t key = some e at he
    by_cases hkey : key = t
    · subst hkey
      rw [TimeTable.release, update_self] at he
      cases he
    · exact h.bounded key e ((hne key hkey).symm.trans he)
  · change (update s.phase t .absent x).Ok (s.table.release t) x
    by_cases hx : x = t
    · subst hx
      rw [update_self]
      trivial
    · rw [update_of_ne hx]
      refine (h.ok x).tighter fun e he => ⟨e, (hne x hx).trans he, le_refl _, le_refl _⟩

/-- **One step** keeps the invariant and loosens no bound. -/
theorem Inv.step {a : Action} (hok : Undisturbed s a) (hs : machine.step s a = some s') :
    Inv s' ∧ ∀ key, a ≠ .release key → Tighter s.table s'.table key := by
  have hph := h.ok
  cases a with (simp only [machine] at hs; split at hs <;> try cases hs)
  | init t =>
    exact ⟨h.go (tighter_init t) (bounded_init h.bounded t) (init_self s.table t),
      fun key _ => tighter_init t key⟩
  | startValidate t m =>
    next hp _ =>
    obtain ⟨hm, hs⟩ := ite_none_right_eq_some.mp hs
    cases hs
    have hrun := hph t
    rw [hp] at hrun
    obtain ⟨e, he⟩ := hrun
    exact ⟨h.start ⟨e, he, nofun⟩ (wp_mono (fun _ _ hleft _ => hleft) (wp_validateP hok hm)),
      fun key _ => Tighter.refl _ _⟩
  | startRackPrep t lower upper rc =>
    next hp =>
    obtain ⟨hle, hs⟩ := ite_none_right_eq_some.mp hs
    cases hs
    have hrun := hph t
    rw [hp] at hrun
    obtain ⟨e, he⟩ := hrun
    exact ⟨h.start ⟨e, he, nofun⟩ (Thread.of_unit nofun (wp_rackPrepP hle.1 hle.2 rc)),
      fun key _ => Tighter.refl _ _⟩
  | startCommit t commitTs fwd =>
    next hp =>
    obtain ⟨hts, hs⟩ := ite_none_right_eq_some.mp hs
    cases hs
    have hval := hph t
    rw [hp] at hval
    obtain ⟨e, he, hpos⟩ := hval
    exact ⟨h.start ⟨e, he, fun _ => hpos⟩
      (Thread.of_unit nofun (wp_commitP hts.1 hts.2 ⟨rfl, rfl⟩ fwd)), fun key _ => Tighter.refl _ _⟩
  | step t =>
    simp only [Undisturbed] at hok
    first
    | -- a thread that has come to its end, with what it has to say
      next op rc seen hp =>
      refine ⟨h.finish hp, fun key _ => ?_⟩
      cases op <;> exact Tighter.refl _ _
    | next hp => exact ⟨h.read hp, fun key _ => Tighter.refl _ _⟩
    | next hp =>
      rw [hp] at hok
      exact ⟨(h.write hp hok).2, fun key _ => (h.write hp hok).1 key⟩
  | release t =>
    exact ⟨(h.release t).2, fun key hkey => (h.release t).1 key fun heq => hkey (heq ▸ rfl)⟩

end

theorem inv_of_reachableVia (hs : machine.ReachableVia Undisturbed s) : Inv s :=
  hs.invariant inv_init fun _ _ _ _ h hok hstep => (h.step hok hstep).1

/-- A run without a release of the entry. -/
theorem Inv.run {as : List Action} (h : Inv s) (hok : machine.RunOk Undisturbed s as)
    (hrun : machine.runFrom s as = some s') (hkey : .release key ∉ as) :
    Tighter s.table s'.table key := by
  induction as generalizing s with
  | nil =>
    cases hrun
    exact Tighter.refl _ _
  | cons a as ih =>
    obtain ⟨s₁, hs₁, hrest⟩ := Machine.runFrom_cons.mp hrun
    obtain ⟨hinv, htight⟩ := h.step hok.1 hs₁
    have ha : a ≠ .release key := fun heq => hkey (heq ▸ List.mem_cons_self)
    exact (htight key ha).trans
      (ih hinv (hok.2 s₁ hs₁) hrest fun hmem => hkey (List.mem_cons_of_mem a hmem))

end Lemmas

/-! ## The results -/

/-- **Bounds only tighten**, from `init` to `release` of an entry, in every run in which nobody
comes in between: the lower bound of a transaction does not go down and its upper bound does not go
up, whichever threads of `validate`, `commit` and `process_rack_prep` are at work. -/
theorem bounds_tighten {s s' : State} {as : List Action} {key : ℕ} {e : TimeTableEntry}
    (hs : machine.ReachableVia Undisturbed s) (hok : machine.RunOk Undisturbed s as)
    (hrun : machine.runFrom s as = some s') (hkey : .release key ∉ as) (he : s.table key = some e) :
    ∃ e', s'.table key = some e' ∧ e.lower ≤ e'.lower ∧ e'.upper ≤ e.upper :=
  (inv_of_reachableVia hs).run hok hrun hkey e he

instance (m : Sets) (txn : ℕ) : Decidable (m.For txn) :=
  decidable_of_iff (txn ∉ m.uncommittedWrites ∧ txn ∉ m.uncommittedWritesY ∧
    txn ∉ m.uncommittedReads)
    ⟨fun h => ⟨h.1, h.2.1, h.2.2⟩, fun h => ⟨h.writes, h.writesY, h.reads⟩⟩

instance (tt : TimeTable) :
    (p : MaatProg RC) → (seen : Seen Cell CellVal) → Decidable (Fresh tt p seen)
  | .write (.lower key) _ _, seen =>
    inferInstanceAs (Decidable (∀ e ∈ tt key, (seen (.lower key) : Option ℕ) = _))
  | .write (.upper key) _ _, seen =>
    inferInstanceAs (Decidable (∀ e ∈ tt key, (seen (.upper key) : Option ℕ) = _))
  | .write (.state _) _ _, _ | .ret _, _ | .read _ _, _ | .fail, _ =>
    inferInstanceAs (Decidable True)

instance (s : State) : (a : Action) → Decidable (Undisturbed s a)
  | .startValidate t m => inferInstanceAs (Decidable (m.For t))
  | .step t =>
    match h : s.phase t with
    | .busy _ p seen => decidable_of_iff (Fresh s.table p seen) (by rw [Undisturbed, h])
    | .absent | .running | .validated | .refused => .isTrue (by rw [Undisturbed, h]; trivial)
  | .init _ | .startRackPrep .. | .startCommit .. | .release _ => inferInstanceAs (Decidable True)

/-- What a transaction is validated against that has only met this last write. -/
def afterWrite (lastWrite : ℕ) : Sets := ⟨∅, ∅, ∅, lastWrite, 0⟩

/-- The second transaction is validated, past a write at 9, and gets the commit timestamp 10. -/
def secondValidated : List Action :=
  [.init 1, .init 2, .startValidate 2 (afterWrite 9), .step 2, .step 2, .step 2, .step 2, .step 2,
    .step 2]

/-- Its forward validation over the writer 1. -/
def secondCommits : List Action := [.startCommit 2 10 (.read [1]), .step 2, .step 2, .step 2]

/-- The first is validated on its own. -/
def firstValidates : List Action :=
  [.startValidate 1 (afterWrite 20), .step 1, .step 1, .step 1, .step 1, .step 1]

theorem bounds_tighten_met :
    ∃ s s' e', machine.run (secondValidated ++ secondCommits) = some s ∧ machine.runFrom s
      firstValidates = some s' ∧ s'.table 1 = some e' ∧ 11 ≤ e'.lower ∧ e'.upper ≤ UINT64_MAX := by
  have hok : machine.RunOk Undisturbed machine.init (secondValidated ++ secondCommits) := by
    decide +kernel
  have hkey : Action.release 1 ∉ firstValidates := by
    simp [firstValidates]
  obtain ⟨e', he', hle⟩ := bounds_tighten (.of_run hok rfl) (by decide +kernel) rfl hkey rfl
  exact ⟨_, _, e', rfl, rfl, he', hle⟩

/-- **A tightening is lost.** The first transaction has read its lower bound when the second raises
it to 11; its write-back puts it to 1. -/
theorem lower_lost :
    ∃ s s' e e', machine.run (secondValidated ++ [.startValidate 1 (afterWrite 0), .step 1] ++
      secondCommits) = some s ∧ machine.runFrom s [.step 1, .step 1, .step 1] = some s' ∧
      s.table 1 = some e ∧ s'.table 1 = some e' ∧ e.lower = 11 ∧ e'.lower = 1 :=
  ⟨_, _, _, _, rfl, rfl, rfl, rfl, rfl, rfl⟩

end Steps

end Maat

end Deneva
