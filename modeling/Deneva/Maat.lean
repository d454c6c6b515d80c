import Deneva.OrderedSet
import Deneva.Types

/-!
# MaaT (`concurrency_control/maat.cpp`, `concurrency_control/row_maat.cpp`)

Every running transaction has an interval of timestamps in the time table of each node it
runs on. Accesses only note who else is at a row; `Maat::validate` then moves the
intervals of the transaction and of those it met apart, and so does the forward
validation of `Row_maat::commit`. The commit timestamp is the lower end of what is left.

The workload is YCSB, where a row is read (`RD`) or written (`WR`): what `Row_maat::access`,
`commit` and `abort` do besides when `WORKLOAD == TPCC` is left out. Contents of a row are told
apart by the `Install` they come from.

* `TimeTable` with its getters and setters;
* `validate` and `findBound`, cut into the loops of the source;
* `RowMaat` with `access`, `commit` and `abort`.

The loops that move other transactions are all of two kinds, `raiseLower` and
`cutUpper`; `raiseAll_apply` and `cutAll_apply` say what a whole loop does to an entry.
`validate_spec` is all that later proofs use of `validate`.
-/

namespace Deneva

universe u

open Function Option OrderedSet

/-! ## 64-bit arithmetic -/

/-- `n - 1`. -/
def pred64 (n : ℕ) : ℕ := u64 (n + UINT64_MAX)

theorem pred64_of_pos {n : ℕ} (h : 0 < n) (hn : n ≤ UINT64_MAX) : pred64 n = n - 1 := by
  simp only [pred64, u64, UINT64_MAX] at *
  omega

namespace Maat

/-! ## The time table -/

/-- `MAATState`. -/
inductive MAATState where
  | RUNNING | VALIDATED | COMMITTED | ABORTED
  deriving DecidableEq

/-- `TimeTableEntry`. -/
structure TimeTableEntry where
  lower : ℕ
  upper : ℕ
  state : MAATState
  deriving DecidableEq

/-- `TimeTableEntry::init`. -/
def TimeTableEntry.init : TimeTableEntry := ⟨0, UINT64_MAX, .RUNNING⟩

/-- `TimeTable`: what `find` returns for a transaction id. -/
abbrev TimeTable : Type := ℕ → Option TimeTableEntry

namespace TimeTable

variable (tt : TimeTable) (key value : ℕ)

/-- `TimeTable::init`. -/
def init : TimeTable :=
  match tt key with
  | some _ => tt
  | none => update tt key (some .init)

/-- `TimeTable::release`. -/
def release : TimeTable := update tt key none

/-- `get_lower`. -/
def getLower : ℕ :=
  match tt key with
  | some entry => entry.lower
  | none => 0

/-- `get_upper`. -/
def getUpper : ℕ :=
  match tt key with
  | some entry => entry.upper
  | none => UINT64_MAX

/-- `get_state`. -/
def getState : MAATState :=
  match tt key with
  | some entry => entry.state
  | none => .ABORTED

/-- Change the entry of a transaction, if it has one. -/
def modify (f : TimeTableEntry → TimeTableEntry) : TimeTable :=
  update tt key ((tt key).map f)

/-- `set_lower`. -/
def setLower : TimeTable := tt.modify key fun entry => { entry with lower := value }

/-- `set_upper`. -/
def setUpper : TimeTable := tt.modify key fun entry => { entry with upper := value }

/-- `set_state`. -/
def setState (state : MAATState) : TimeTable :=
  tt.modify key fun entry => { entry with state := state }

end TimeTable

/-- The body of the loops that move others behind: a lower bound that is not above `bound`
becomes `value`. -/
def raiseLower (bound value : ℕ) (tt : TimeTable) (it : ℕ) : TimeTable :=
  if tt.getLower it ≤ bound then tt.setLower it value else tt

/-- The body of the loops that move others ahead: an upper bound that is not below `bound`
becomes `value`. -/
def cutUpper (bound value : ℕ) (tt : TimeTable) (it : ℕ) : TimeTable :=
  if tt.getUpper it ≥ bound then tt.setUpper it value else tt

/-! ## Transactions -/

/-- The contents a committed writer left in a row. -/
structure Install where
  /-- the writer -/
  txn : ℕ
  /-- its `commit_timestamp` -/
  ts : ℕ
  deriving DecidableEq

/-- What `TxnManager` keeps for MaaT. -/
structure Sets where
  uncommittedWrites : OrderedSet ℕ
  uncommittedWritesY : OrderedSet ℕ
  uncommittedReads : OrderedSet ℕ
  greatestWriteTimestamp : ℕ
  greatestReadTimestamp : ℕ

/-- The timestamps that rows have are those of commits, which are below an upper bound. -/
def Sets.Stamped (m : Sets) : Prop :=
  m.greatestWriteTimestamp < UINT64_MAX ∧ m.greatestReadTimestamp < UINT64_MAX

instance (m : Sets) : Decidable m.Stamped := inferInstanceAs (Decidable (_ ∧ _))

/-! ## Validation (`Maat::validate`, `Maat::find_bound`) -/

/-- The local variables of `validate`. -/
structure Bounds where
  lower : ℕ
  upper : ℕ
  before : OrderedSet ℕ
  after : OrderedSet ℕ

/-- The loop over `uncommitted_writes`. -/
def checkWrite (tt : TimeTable) (b : Bounds) (it : ℕ) : Bounds :=
  if b.upper ≥ tt.getLower it then
    match tt.getState it with
    | .VALIDATED | .COMMITTED =>
      { b with upper := if tt.getLower it > 0 then tt.getLower it - 1 else tt.getLower it }
    | .RUNNING => { b with after := b.after.insert it }
    | .ABORTED => b
  else b

/-- The loop over `uncommitted_reads`. -/
def checkRead (tt : TimeTable) (b : Bounds) (it : ℕ) : Bounds :=
  if b.lower ≤ tt.getUpper it then
    match tt.getState it with
    | .VALIDATED | .COMMITTED =>
      { b with lower := if tt.getUpper it < UINT64_MAX then tt.getUpper it + 1 else tt.getUpper it }
    | .RUNNING => { b with before := b.before.insert it }
    | .ABORTED => b
  else b

/-- The loop over `uncommitted_writes_y`. -/
def checkWriteY (tt : TimeTable) (b : Bounds) (it : ℕ) : Bounds :=
  match tt.getState it with
  | .ABORTED => b
  | .VALIDATED | .COMMITTED =>
    if b.lower ≤ tt.getUpper it then
      { b with lower := if tt.getUpper it < UINT64_MAX then tt.getUpper it + 1 else tt.getUpper it }
    else b
  | .RUNNING => { b with after := b.after.insert it }

/-- The first loop over `before`. -/
def squeezeLower (tt : TimeTable) (b : Bounds) (it : ℕ) : Bounds :=
  if tt.getUpper it > b.lower ∧ tt.getUpper it < b.upper - 1 then
    { b with lower := tt.getUpper it + 1 }
  else b

/-- The first loop over `after`. -/
def squeezeUpper (tt : TimeTable) (b : Bounds) (it : ℕ) : Bounds :=
  let b :=
    if tt.getUpper it ≠ UINT64_MAX ∧ tt.getUpper it > u64 (b.lower + 2) ∧
      tt.getUpper it < b.upper then
      { b with upper := u64 (tt.getUpper it + (UINT64_MAX - 1)) }
    else b
  if tt.getLower it < b.upper ∧ tt.getLower it > u64 (b.lower + 1) then
    { b with upper := tt.getLower it - 1 }
  else b

/-- What the loops over the three sets make of the bounds of a transaction. -/
def check (tt : TimeTable) (txn : ℕ) (m : Sets) : Bounds :=
  let lower := tt.getLower txn
  let lower :=
    if lower ≤ m.greatestWriteTimestamp then u64 (m.greatestWriteTimestamp + 1) else lower
  let b := m.uncommittedWrites.toList.foldl (checkWrite tt) ⟨lower, tt.getUpper txn, ∅, ∅⟩
  let b :=
    if b.lower ≤ m.greatestReadTimestamp then
      { b with lower := u64 (m.greatestReadTimestamp + 1) } else b
  let b := m.uncommittedReads.toList.foldl (checkRead tt) b
  m.uncommittedWritesY.toList.foldl (checkWriteY tt) b

/-- The second loop over `before`. -/
def pushBefore (b : Bounds) (tt : TimeTable) : TimeTable :=
  b.before.toList.foldl (cutUpper b.lower (if b.lower > 0 then b.lower - 1 else b.lower)) tt

/-- The second loop over `after`. -/
def pushAfter (b : Bounds) (tt : TimeTable) : TimeTable :=
  b.after.toList.foldl
    (raiseLower b.upper (if b.upper < UINT64_MAX then b.upper + 1 else b.upper)) tt

/-- The bounds are written back. -/
def writeBack (txn : ℕ) (b : Bounds) (tt : TimeTable) : TimeTable :=
  (tt.setLower txn b.lower).setUpper txn b.upper

/-- `Maat::validate`, which the semaphore makes one step; no result where the assertion
fails. -/
def validate (tt : TimeTable) (txn : ℕ) (m : Sets) : Option (RC × TimeTable) :=
  let b := check tt txn m
  if b.lower ≥ b.upper then some (.Abort, writeBack txn b (tt.setState txn .ABORTED))
  else
    let tt := tt.setState txn .VALIDATED
    let b := b.before.toList.foldl (squeezeLower tt) b
    let tt := pushBefore b tt
    let b := b.after.toList.foldl (squeezeUpper tt) b
    let tt := pushAfter b tt
    if b.lower < b.upper then some (.RCOK, writeBack txn b tt) else none

/-- `Maat::find_bound`; with `RCOK` comes the `commit_timestamp`. -/
def findBound (tt : TimeTable) (txn : ℕ) : Option ℕ × TimeTable :=
  if tt.getLower txn ≥ tt.getUpper txn then (none, tt.setState txn .VALIDATED)
  else (some (tt.getLower txn), tt.setState txn .COMMITTED)

/-! ## Rows (`Row_maat`) -/

/-- `Row_maat` and its row. -/
structure RowMaat where
  timestampLastRead : ℕ
  timestampLastWrite : ℕ
  uncommittedReads : OrderedSet ℕ
  uncommittedWrites : OrderedSet ℕ
  /-- the contents of the row; `none` is the row as it was loaded -/
  data : Option Install
  /-- who committed a write, last first; the code does not keep it -/
  installs : List Install

namespace RowMaat

/-- `Row_maat::init`. -/
def init : RowMaat := ⟨0, 0, ∅, ∅, none, []⟩

/-- `Row_maat::read`. -/
def read (row : RowMaat) (txn : ℕ) (m : Sets) : RowMaat × Sets :=
  ({ row with uncommittedReads := row.uncommittedReads.insert txn },
    { m with
      uncommittedWrites := m.uncommittedWrites.union row.uncommittedWrites
      greatestWriteTimestamp :=
        if m.greatestWriteTimestamp < row.timestampLastWrite then row.timestampLastWrite
        else m.greatestWriteTimestamp })

/-- `Row_maat::prewrite`. -/
def prewrite (row : RowMaat) (txn : ℕ) (m : Sets) : RowMaat × Sets :=
  ({ row with uncommittedWrites := row.uncommittedWrites.insert txn },
    { m with
      uncommittedReads := m.uncommittedReads.union row.uncommittedReads
      uncommittedWritesY := m.uncommittedWritesY.union row.uncommittedWrites
      greatestReadTimestamp :=
        if m.greatestReadTimestamp < row.timestampLastRead then row.timestampLastRead
        else m.greatestReadTimestamp
      greatestWriteTimestamp :=
        if m.greatestWriteTimestamp < row.timestampLastWrite then row.timestampLastWrite
        else m.greatestWriteTimestamp })

/-- `Row_maat::access`. -/
def access (type : AccessT) (row : RowMaat) (txn : ℕ) (m : Sets) : RowMaat × Sets :=
  match type with
  | .RD => row.read txn m
  | .WR => row.prewrite txn m
  | .XP | .SCAN => (row, m)

/-- `Row_maat::abort`. -/
def abort (type : AccessT) (row : RowMaat) (txn : ℕ) : RowMaat :=
  match type with
  | .RD => { row with uncommittedReads := row.uncommittedReads.erase txn }
  | .WR => { row with uncommittedWrites := row.uncommittedWrites.erase txn }
  | .XP | .SCAN => row

/-- `Row_maat::commit` of an `RD` access: the row. -/
def commitRead (row : RowMaat) (txn commitTs : ℕ) : RowMaat :=
  { row with
    timestampLastRead := if commitTs > row.timestampLastRead then commitTs
      else row.timestampLastRead
    uncommittedReads := row.uncommittedReads.erase txn }

/-- `Row_maat::commit` of a `WR` access: the row. -/
def commitWrite (row : RowMaat) (txn commitTs : ℕ) : RowMaat :=
  { row with
    timestampLastWrite := if commitTs > row.timestampLastWrite then commitTs
      else row.timestampLastWrite
    uncommittedWrites := row.uncommittedWrites.erase txn
    data := some ⟨txn, commitTs⟩
    installs := ⟨txn, commitTs⟩ :: row.installs }

/-- `Row_maat::commit`: the row, and the forward validation over what is still
uncommitted on it. -/
def commit (type : AccessT) (row : RowMaat) (txn commitTs : ℕ) (m : Sets) (tt : TimeTable) :
    RowMaat × TimeTable :=
  match type with
  | .RD =>
    let row := row.commitRead txn commitTs
    let later := row.uncommittedWrites.toList.filter (· ∉ m.uncommittedWrites)
    (row, later.foldl (raiseLower commitTs (u64 (commitTs + 1))) tt)
  | .WR =>
    let row := row.commitWrite txn commitTs
    let lower := tt.getLower txn
    let laterWrites := row.uncommittedWrites.toList.filter (· ∉ m.uncommittedWritesY)
    let tt := laterWrites.foldl (cutUpper commitTs (pred64 commitTs)) tt
    let laterReads := row.uncommittedReads.toList.filter (· ∉ m.uncommittedReads)
    (row, laterReads.foldl (cutUpper lower (pred64 lower)) tt)
  | .XP | .SCAN => (row, tt)

end RowMaat

/-! ## What a loop over the time table does -/

namespace TimeTable

variable {tt : TimeTable} {key x : ℕ} {f : TimeTableEntry → TimeTableEntry}

theorem modify_apply : tt.modify key f x = if x = key then (tt x).map f else tt x := by
  rw [modify, update_apply]
  split
  next h =>
    rw [h]
  · rfl

theorem modify_eq_self (h : (tt key).map f = tt key) : tt.modify key f = tt := by
  rw [modify, h, update_eq_self]

theorem init_of_ne (h : x ≠ key) : tt.init key x = tt x := by
  rw [init]
  cases tt key with
  | none => exact update_of_ne h _ _
  | some e => rfl

variable {e : TimeTableEntry}

theorem getLower_of_some (h : tt x = some e) : tt.getLower x = e.lower := by
  rw [getLower, h]

theorem getUpper_of_some (h : tt x = some e) : tt.getUpper x = e.upper := by
  rw [getUpper, h]

theorem getState_of_some (h : tt x = some e) : tt.getState x = e.state := by
  rw [getState, h]

end TimeTable

/-- What `raiseLower` does to an entry. -/
def TimeTableEntry.raise (bound value : ℕ) (e : TimeTableEntry) : TimeTableEntry :=
  if e.lower ≤ bound then { e with lower := value } else e

/-- What `cutUpper` does to an entry. -/
def TimeTableEntry.cut (bound value : ℕ) (e : TimeTableEntry) : TimeTableEntry :=
  if bound ≤ e.upper then { e with upper := value } else e

section

variable (bound value : ℕ) (tt : TimeTable) (it : ℕ)

open TimeTable

theorem raiseLower_eq : raiseLower bound value tt it = tt.modify it (.raise bound value) := by
  cases hit : tt it with
  | none =>
    -- there is nothing to change on either side
    rw [modify_eq_self (by rw [hit]; rfl), raiseLower, TimeTable.setLower,
      modify_eq_self (by rw [hit]; rfl), ite_self]
  | some e =>
    rw [raiseLower, TimeTable.getLower_of_some hit]
    split
    · rw [TimeTable.setLower, TimeTable.modify, TimeTable.modify, hit, map_some, map_some,
        TimeTableEntry.raise, if_pos ‹_›]
    · exact (modify_eq_self (by rw [hit, map_some, TimeTableEntry.raise, if_neg ‹_›])).symm

theorem cutUpper_eq : cutUpper bound value tt it = tt.modify it (.cut bound value) := by
  cases hit : tt it with
  | none =>
    rw [modify_eq_self (by rw [hit]; rfl), cutUpper, TimeTable.setUpper,
      modify_eq_self (by rw [hit]; rfl), ite_self]
  | some e =>
    rw [cutUpper, TimeTable.getUpper_of_some hit]
    split
    · rw [TimeTable.setUpper, TimeTable.modify, TimeTable.modify, hit, map_some, map_some,
        TimeTableEntry.cut, if_pos ‹_›]
    · exact (modify_eq_self (by rw [hit, map_some, TimeTableEntry.cut, if_neg ‹_›])).symm

end

/-- A loop that changes its entries by one and the same idempotent function. -/
theorem foldl_modify_apply {f : TimeTableEntry → TimeTableEntry} (hf : ∀ e, f (f e) = f e)
    (l : List ℕ) (tt : TimeTable) (x : ℕ) :
    l.foldl (fun tt it => tt.modify it f) tt x = if x ∈ l then (tt x).map f else tt x := by
  induction l generalizing tt with
  | nil => rfl
  | cons it l ih =>
    rw [List.foldl_cons, ih, TimeTable.modify_apply]
    rcases eq_or_ne x it with rfl | hx
    · rw [if_pos rfl, if_pos List.mem_cons_self, Option.map_map]
      split
      · exact congrArg (Option.map · (tt x)) (funext hf)
      · rfl
    · rw [if_neg hx]
      exact ite_congr (propext (List.mem_cons.trans (or_iff_right hx)).symm)
        (fun _ => rfl) fun _ => rfl

theorem raiseAll_apply (bound value : ℕ) (l : List ℕ) (tt : TimeTable) (x : ℕ) :
    l.foldl (raiseLower bound value) tt x =
      if x ∈ l then (tt x).map (.raise bound value) else tt x := by
  simp only [funext₂ (raiseLower_eq bound value)]
  refine foldl_modify_apply (fun e => ?_) l tt x
  simp only [TimeTableEntry.raise]
  split_ifs <;> rfl

theorem cutAll_apply (bound value : ℕ) (l : List ℕ) (tt : TimeTable) (x : ℕ) :
    l.foldl (cutUpper bound value) tt x =
      if x ∈ l then (tt x).map (.cut bound value) else tt x := by
  simp only [funext₂ (cutUpper_eq bound value)]
  refine foldl_modify_apply (fun e => ?_) l tt x
  simp only [TimeTableEntry.cut]
  split_ifs <;> rfl

/-! ## Tightening -/

/-- The bounds move together; the state stays. -/
structure TimeTableEntry.Tightens (e e' : TimeTableEntry) : Prop where
  /-- the lower bound rises -/
  lower : e.lower ≤ e'.lower
  /-- the upper bound falls -/
  upper : e'.upper ≤ e.upper
  /-- the state stays -/
  state : e'.state = e.state

/-- An entry, if there is one, is tightened. -/
def Tightens : Option TimeTableEntry → Option TimeTableEntry → Prop :=
  Option.Rel TimeTableEntry.Tightens

namespace Tightens

variable {o o' o'' : Option TimeTableEntry}

theorem refl (o : Option TimeTableEntry) : Tightens o o := by
  cases o with
  | none => exact .none
  | some e => exact .some ⟨le_rfl, le_rfl, rfl⟩

theorem trans (h : Tightens o o') (h' : Tightens o' o'') : Tightens o o'' := by
  cases h with
  | none => exact h'
  | some h =>
    cases h' with
    | some h' =>
      exact .some ⟨h.lower.trans h'.lower, h'.upper.trans h.upper, h'.state.trans h.state⟩

theorem map (o : Option TimeTableEntry) {f : TimeTableEntry → TimeTableEntry}
    (hf : ∀ e : TimeTableEntry, e.Tightens (f e)) : Tightens o (o.map f) := by
  cases o with
  | none => exact .none
  | some e => exact .some (hf e)

theorem of_some {e : TimeTableEntry} (h : Tightens o o') (ho : o = some e) :
    ∃ e', o' = some e' ∧ e.Tightens e' := by
  subst ho
  cases h with
  | some h => exact ⟨_, rfl, h⟩

variable {tt tt' : TimeTable} {x : ℕ}

section

variable (h : Tightens (tt x) (tt' x))

include h

theorem getLower_le : tt.getLower x ≤ tt'.getLower x := by
  simp only [TimeTable.getLower]
  generalize tt x = o, tt' x = o' at h ⊢
  cases h with
  | none => exact le_rfl
  | some h => exact h.lower

theorem getUpper_le : tt'.getUpper x ≤ tt.getUpper x := by
  simp only [TimeTable.getUpper]
  generalize tt x = o, tt' x = o' at h ⊢
  cases h with
  | none => exact le_rfl
  | some h => exact h.upper

theorem getState_eq : tt'.getState x = tt.getState x := by
  simp only [TimeTable.getState]
  generalize tt x = o, tt' x = o' at h ⊢
  cases h with
  | none => rfl
  | some h => exact h.state

end

end Tightens

variable {bound value : ℕ}

theorem TimeTableEntry.raise_tightens (h : bound ≤ value) (e : TimeTableEntry) :
    e.Tightens (e.raise bound value) := by
  rw [raise]
  split
  · exact ⟨le_trans ‹_› h, le_rfl, rfl⟩
  · exact ⟨le_rfl, le_rfl, rfl⟩

theorem TimeTableEntry.cut_tightens (h : value ≤ bound) (e : TimeTableEntry) :
    e.Tightens (e.cut bound value) := by
  rw [cut]
  split
  · exact ⟨le_rfl, h.trans ‹_›, rfl⟩
  · exact ⟨le_rfl, le_rfl, rfl⟩

theorem TimeTableEntry.lt_raise (e : TimeTableEntry) :
    bound < (e.raise bound (bound + 1)).lower := by
  rw [raise]
  split
  · exact Nat.lt_succ_self bound
  · exact Nat.lt_of_not_le ‹_›

theorem TimeTableEntry.cut_lt (h : 0 < bound) (e : TimeTableEntry) :
    (e.cut bound (bound - 1)).upper < bound := by
  rw [cut]
  split
  · exact Nat.sub_lt h Nat.one_pos
  · exact Nat.lt_of_not_le ‹_›

theorem raiseAll_tightens (h : bound ≤ value) (l : List ℕ) (tt : TimeTable) (x : ℕ) :
    Tightens (tt x) (l.foldl (raiseLower bound value) tt x) := by
  rw [raiseAll_apply]
  split
  · exact .map _ (TimeTableEntry.raise_tightens h)
  · exact .refl _

theorem cutAll_tightens (h : value ≤ bound) (l : List ℕ) (tt : TimeTable) (x : ℕ) :
    Tightens (tt x) (l.foldl (cutUpper bound value) tt x) := by
  rw [cutAll_apply]
  split
  · exact .map _ (TimeTableEntry.cut_tightens h)
  · exact .refl _

/-- Raising lower bounds leaves the upper ones. -/
theorem getUpper_raiseAll (bound value : ℕ) (l : List ℕ) (tt : TimeTable) (x : ℕ) :
    TimeTable.getUpper (l.foldl (raiseLower bound value) tt) x = tt.getUpper x := by
  have hraise : ∀ e : TimeTableEntry, (e.raise bound value).upper = e.upper := by
    intro e
    rw [TimeTableEntry.raise]
    split <;> rfl
  have happ := raiseAll_apply bound value l tt x
  cases htt : tt x with
  | none =>
    rw [htt, map_none, ite_self] at happ
    rw [TimeTable.getUpper, TimeTable.getUpper, happ, htt]
  | some e =>
    rw [htt, map_some] at happ
    rw [TimeTable.getUpper_of_some htt]
    split at happ
    · exact (TimeTable.getUpper_of_some happ).trans (hraise e)
    · exact TimeTable.getUpper_of_some happ

variable {tt tt' : TimeTable} {x txn : ℕ} {m : Sets} {b : Bounds} {e : TimeTableEntry}

/-- What is below the bound is not cut. -/
theorem getUpper_cutAll {bound value : ℕ} {l : List ℕ} (h : x ∈ l → tt.getUpper x < bound) :
    TimeTable.getUpper (l.foldl (cutUpper bound value) tt) x = tt.getUpper x := by
  have happ := cutAll_apply bound value l tt x
  cases htt : tt x with
  | none =>
    rw [htt, map_none, ite_self] at happ
    rw [TimeTable.getUpper, TimeTable.getUpper, happ, htt]
  | some e =>
    rw [TimeTable.getUpper_of_some htt] at h ⊢
    rw [htt, map_some] at happ
    split at happ
    next hx =>
      rw [TimeTableEntry.cut, if_neg (Nat.not_le_of_lt (h hx))] at happ
      exact TimeTable.getUpper_of_some happ
    · exact TimeTable.getUpper_of_some happ

/-! ## What `validate` does -/

instance : Preorder Bounds where
  le b b' := b.lower ≤ b'.lower ∧ b'.upper ≤ b.upper ∧ (∀ x ∈ b.before, x ∈ b'.before) ∧
    ∀ x ∈ b.after, x ∈ b'.after
  le_refl _ := ⟨le_rfl, le_rfl, fun _ h => h, fun _ h => h⟩
  le_trans _ _ _ h h' := ⟨h.1.trans h'.1, h'.2.1.trans h.2.1, fun x hx => h'.2.2.1 x (h.2.2.1 x hx),
    fun x hx => h'.2.2.2 x (h.2.2.2 x hx)⟩

section

variable (tt : TimeTable) (b : Bounds) (it : ℕ)

/-- Only running transactions are moved. -/
def OnlyRunning (b : Bounds) : Prop :=
  (∀ x ∈ b.before, tt.getState x = .RUNNING) ∧ ∀ x ∈ b.after, tt.getState x = .RUNNING

/-- What the loop over `uncommitted_writes` settles. -/
def WriteChecked (it : ℕ) (b : Bounds) : Prop :=
  tt.getState it ≠ .ABORTED → it ∈ b.after ∨ b.upper ≤ tt.getLower it

/-- What the loop over `uncommitted_reads` settles. -/
def ReadChecked (it : ℕ) (b : Bounds) : Prop :=
  tt.getState it ≠ .ABORTED → it ∈ b.before ∨ tt.getUpper it < b.lower ∨ UINT64_MAX ≤ b.lower

/-- The loop over the writers: the upper bound gets below those with a fixed place. -/
theorem checkWrite_spec : b ≤ checkWrite tt b it ∧ WriteChecked tt it (checkWrite tt b it) ∧
    (OnlyRunning tt b → OnlyRunning tt (checkWrite tt b it)) := by
  -- a settled writer cuts `upper` below its own lower bound
  have hcut : tt.getLower it ≤ b.upper →
      b ≤ { b with upper := if tt.getLower it > 0 then tt.getLower it - 1 else tt.getLower it } ∧
      WriteChecked tt it
        { b with upper := if tt.getLower it > 0 then tt.getLower it - 1 else tt.getLower it } := by
    intro hle
    refine ⟨⟨le_rfl, ?_, fun _ h => h, fun _ h => h⟩, fun _ => .inr ?_⟩
    all_goals
      dsimp only
      split <;> omega
  rw [checkWrite]
  split
  · split
    · exact ⟨(hcut ‹_›).1, (hcut ‹_›).2, id⟩
    · exact ⟨(hcut ‹_›).1, (hcut ‹_›).2, id⟩
    next hrun =>
      refine ⟨⟨le_rfl, le_rfl, fun _ h => h, fun x hx => mem_insert.mpr (.inr hx)⟩,
        fun _ => .inl (mem_insert.mpr (.inl rfl)), fun h => ⟨h.1, fun x hx => ?_⟩⟩
      rcases mem_insert.mp hx with rfl | hx
      · exact hrun
      · exact h.2 x hx
    next habort =>
      exact ⟨le_rfl, fun h => absurd habort h, id⟩
  next hlt =>
    exact ⟨le_rfl, fun _ => .inr (Nat.le_of_lt (Nat.lt_of_not_le hlt)), id⟩

/-- The loop over the readers: the lower bound gets above those with a fixed place. -/
theorem checkRead_spec : b ≤ checkRead tt b it ∧ ReadChecked tt it (checkRead tt b it) ∧
    (OnlyRunning tt b → OnlyRunning tt (checkRead tt b it)) := by
  have hraise : b.lower ≤ tt.getUpper it →
      b ≤ { b with lower := if tt.getUpper it < UINT64_MAX then tt.getUpper it + 1
        else tt.getUpper it } ∧
      ReadChecked tt it
        { b with lower := if tt.getUpper it < UINT64_MAX then tt.getUpper it + 1
          else tt.getUpper it } := by
    intro hle
    refine ⟨⟨?_, le_rfl, fun _ h => h, fun _ h => h⟩, fun _ => .inr ?_⟩
    all_goals
      dsimp only
      split <;> omega
  rw [checkRead]
  split
  · split
    · exact ⟨(hraise ‹_›).1, (hraise ‹_›).2, id⟩
    · exact ⟨(hraise ‹_›).1, (hraise ‹_›).2, id⟩
    next hrun =>
      refine ⟨⟨le_rfl, le_rfl, fun x hx => mem_insert.mpr (.inr hx), fun _ h => h⟩,
        fun _ => .inl (mem_insert.mpr (.inl rfl)), fun h => ⟨fun x hx => ?_, h.2⟩⟩
      rcases mem_insert.mp hx with rfl | hx
      · exact hrun
      · exact h.1 x hx
    next habort =>
      exact ⟨le_rfl, fun h => absurd habort h, id⟩
  next hlt =>
    exact ⟨le_rfl, fun _ => .inr (.inl (Nat.lt_of_not_le hlt)), id⟩

theorem checkWriteY_spec : b ≤ checkWriteY tt b it ∧
    (OnlyRunning tt b → OnlyRunning tt (checkWriteY tt b it)) := by
  have hraise : b.lower ≤ tt.getUpper it →
      b ≤ { b with lower := if tt.getUpper it < UINT64_MAX then tt.getUpper it + 1
        else tt.getUpper it } := by
    intro hle
    refine ⟨?_, le_rfl, fun _ h => h, fun _ h => h⟩
    dsimp only
    split <;> omega
  rw [checkWriteY]
  split
  · exact ⟨le_rfl, id⟩
  · split
    · exact ⟨hraise ‹_›, id⟩
    · exact ⟨le_rfl, id⟩
  · split
    · exact ⟨hraise ‹_›, id⟩
    · exact ⟨le_rfl, id⟩
  next hrun =>
    refine ⟨⟨le_rfl, le_rfl, fun _ h => h, fun x hx => mem_insert.mpr (.inr hx)⟩,
      fun h => ⟨h.1, fun x hx => ?_⟩⟩
    rcases mem_insert.mp hx with rfl | hx
    · exact hrun
    · exact h.2 x hx

/-- The first loop over `before` raises the lower bound, but not past the upper. -/
theorem squeezeLower_loop (l : List ℕ) (hb : b.lower < b.upper) : ∃ lower, b.lower ≤ lower ∧
    lower < b.upper ∧ l.foldl (squeezeLower tt) b = { b with lower := lower } := by
  induction l generalizing b with
  | nil => exact ⟨b.lower, le_rfl, hb, rfl⟩
  | cons it l ih =>
    rw [List.foldl_cons, squeezeLower]
    split
    next h =>
      obtain ⟨lower, hle, hlt, heq⟩ :=
        ih { b with lower := tt.getUpper it + 1 } (by dsimp only; omega)
      exact ⟨lower, (Nat.le_succ_of_le h.1.le).trans hle, hlt, heq⟩
    · exact ih b hb

/-- The first loop over `after` leaves the upper bound below where it started. `lower + 2`
may wrap around, but only when it started at `UINT64_MAX`. -/
theorem squeezeUpper_loop (l : List ℕ) {upper : ℕ} (hlower : b.lower < upper)
    (hmax : upper ≤ UINT64_MAX) (hb : b.upper ≤ upper) : ∃ upper' ≤ upper,
    l.foldl (squeezeUpper tt) b = { b with upper := upper' } := by
  induction l generalizing b with
  | nil => exact ⟨b.upper, hb, rfl⟩
  | cons it l ih =>
    have hwrap : tt.getUpper it > u64 (b.lower + 2) → tt.getUpper it < b.upper →
        u64 (tt.getUpper it + (UINT64_MAX - 1)) ≤ upper := by
      simp only [u64, UINT64_MAX] at *
      omega
    have hstep : ∃ upper' ≤ upper, squeezeUpper tt b it = { b with upper := upper' } := by
      simp only [squeezeUpper]
      split
      next h =>
        have hle := hwrap h.2.1 h.2.2
        split
        · exact ⟨tt.getLower it - 1, by dsimp only at *; omega, rfl⟩
        · exact ⟨_, hle, rfl⟩
      · split
        · exact ⟨tt.getLower it - 1, by omega, rfl⟩
        · exact ⟨_, hb, rfl⟩
    obtain ⟨upper', hle, heq⟩ := hstep
    rw [List.foldl_cons, heq]
    exact ih { b with upper := upper' } hlower hle

variable {tt b it} {b' : Bounds}

theorem WriteChecked.mono (h : WriteChecked tt it b) (hle : b ≤ b') : WriteChecked tt it b' :=
  fun hst => (h hst).imp (hle.2.2.2 it) hle.2.1.trans

theorem ReadChecked.mono (h : ReadChecked tt it b) (hle : b ≤ b') : ReadChecked tt it b' :=
  fun hst => (h hst).imp (hle.2.2.1 it) (.imp (·.trans_le hle.1) (·.trans hle.1))

end

/-- What the loops over the three sets achieve. -/
structure CheckSpec (tt : TimeTable) (txn : ℕ) (m : Sets) (b : Bounds) : Prop where
  /-- the lower bound rises -/
  lower : tt.getLower txn ≤ b.lower
  /-- the upper bound falls -/
  upper : b.upper ≤ tt.getUpper txn
  /-- past the writes that were committed -/
  written : m.greatestWriteTimestamp < b.lower
  /-- and past the reads -/
  read : m.greatestReadTimestamp < b.lower
  /-- only running transactions will be moved -/
  running : OnlyRunning tt b
  /-- the uncommitted writes -/
  writes : ∀ x ∈ m.uncommittedWrites, WriteChecked tt x b
  /-- the uncommitted reads -/
  reads : ∀ x ∈ m.uncommittedReads, ReadChecked tt x b

/-- **What the three loops of `validate` find**: the bounds of the transaction are beyond everything
it met that has a fixed place, and the others are on the lists of those to be moved. -/
theorem check_spec (hm : m.Stamped) : CheckSpec tt txn m (check tt txn m) := by
  rw [check, u64_of_le hm.1, u64_of_le hm.2]
  set lower := if tt.getLower txn ≤ m.greatestWriteTimestamp then m.greatestWriteTimestamp + 1
    else tt.getLower txn with hlower
  have hlow : tt.getLower txn ≤ lower ∧ m.greatestWriteTimestamp < lower := by
    rw [hlower]
    split <;> omega
  set b₀ : Bounds := ⟨lower, tt.getUpper txn, ∅, ∅⟩ with hb₀
  obtain ⟨h₁, hwrites⟩ := foldl_forward (fun b it => (checkWrite_spec tt b it).1)
    (fun b it => (checkWrite_spec tt b it).2.1) (fun _ _ _ hle h => WriteChecked.mono h hle)
    m.uncommittedWrites.toList b₀
  have hrun₁ : OnlyRunning tt (m.uncommittedWrites.toList.foldl (checkWrite tt) b₀) := by
    apply List.foldlRecOn
    · exact ⟨fun _ h => absurd h not_mem_empty, fun _ h => absurd h not_mem_empty⟩
    · exact fun b hb it _ => (checkWrite_spec tt b it).2.2 hb
  generalize m.uncommittedWrites.toList.foldl (checkWrite tt) b₀ = b₁ at h₁ hwrites hrun₁ ⊢
  set b₂ : Bounds := if b₁.lower ≤ m.greatestReadTimestamp then
    { b₁ with lower := m.greatestReadTimestamp + 1 } else b₁ with hb₂
  have h₂ : b₁ ≤ b₂ ∧ m.greatestReadTimestamp < b₂.lower ∧ OnlyRunning tt b₂ := by
    rw [hb₂]
    split
    · exact ⟨⟨Nat.le_succ_of_le ‹_›, le_rfl, fun _ h => h, fun _ h => h⟩, Nat.lt_succ_self _, hrun₁⟩
    · exact ⟨le_rfl, Nat.lt_of_not_le ‹_›, hrun₁⟩
  obtain ⟨h₃, hreads⟩ := foldl_forward (fun b it => (checkRead_spec tt b it).1)
    (fun b it => (checkRead_spec tt b it).2.1) (fun _ _ _ hle h => ReadChecked.mono h hle)
    m.uncommittedReads.toList b₂
  have hrun₃ : OnlyRunning tt (m.uncommittedReads.toList.foldl (checkRead tt) b₂) := by
    apply List.foldlRecOn
    · exact h₂.2.2
    · exact fun b hb it _ => (checkRead_spec tt b it).2.2 hb
  generalize m.uncommittedReads.toList.foldl (checkRead tt) b₂ = b₃ at h₃ hreads hrun₃ ⊢
  obtain ⟨h₄, -⟩ := foldl_forward (Q := fun _ _ => True) (fun b it => (checkWriteY_spec tt b it).1)
    (fun _ _ => trivial) (fun _ _ _ _ h => h) m.uncommittedWritesY.toList b₃
  have hrun₄ : OnlyRunning tt (m.uncommittedWritesY.toList.foldl (checkWriteY tt) b₃) := by
    apply List.foldlRecOn
    · exact hrun₃
    · exact fun b hb it _ => (checkWriteY_spec tt b it).2 hb
  generalize m.uncommittedWritesY.toList.foldl (checkWriteY tt) b₃ = b₄ at h₄ hrun₄ ⊢
  have h₁₄ : b₁ ≤ b₄ := h₂.1.trans (h₃.trans h₄)
  have h₀₄ : b₀ ≤ b₄ := h₁.trans h₁₄
  exact ⟨hlow.1.trans h₀₄.1, h₀₄.2.1, hlow.2.trans_le h₀₄.1, h₂.2.1.trans_le (h₃.trans h₄).1, hrun₄,
    fun x hx => (hwrites x hx).mono h₁₄, fun x hx => (hreads x hx).mono h₄⟩

/-- What a successful `validate` achieves: the interval of the transaction, and those of
others that it met and that may still commit, are apart. -/
structure Separates (tt tt' : TimeTable) (txn : ℕ) (m : Sets) : Prop where
  /-- the transaction is left with an interval -/
  self : ∃ e, tt' txn = some e ∧ e.state = .VALIDATED ∧ e.lower < e.upper
  /-- above what it was -/
  lower : tt.getLower txn ≤ tt'.getLower txn
  /-- and below -/
  upper : tt'.getUpper txn ≤ tt.getUpper txn
  /-- past the writes that were committed -/
  written : m.greatestWriteTimestamp < tt'.getLower txn
  /-- and past the reads -/
  read : m.greatestReadTimestamp < tt'.getLower txn
  /-- the others only get tighter intervals -/
  others : ∀ x, x ≠ txn → Tightens (tt x) (tt' x)
  /-- if they run -/
  settled : ∀ x, x ≠ txn → tt.getState x ≠ .RUNNING → tt' x = tt x
  /-- uncommitted writes come later -/
  writes : ∀ x ∈ m.uncommittedWrites, x ≠ txn → tt.getState x ≠ .ABORTED →
    tt'.getUpper txn ≤ tt'.getLower x
  /-- uncommitted reads come earlier -/
  reads : ∀ x ∈ m.uncommittedReads, x ≠ txn → tt.getState x ≠ .ABORTED →
    tt'.getUpper x < tt'.getLower txn

theorem writeBack_apply : writeBack txn b tt x =
    if x = txn then (tt x).map (fun e => ⟨b.lower, b.upper, e.state⟩) else tt x := by
  rw [writeBack, TimeTable.setUpper, TimeTable.setLower, TimeTable.modify_apply,
    TimeTable.modify_apply]
  split
  · rw [Option.map_map]
    rfl
  · rfl

/-- A failed `validate` leaves the others alone. -/
theorem validate_refused {rc : RC} (hm : m.Stamped) (h : validate tt txn m = some (rc, tt'))
    (hrc : rc ≠ .RCOK) :
    (∀ x, x ≠ txn → tt' x = tt x) ∧ ∀ e, tt' txn = some e → e.upper ≤ tt.getUpper txn := by
  have hcheck : CheckSpec tt txn m (check tt txn m) := check_spec hm
  simp only [validate] at h
  split at h
  · obtain ⟨-, rfl⟩ := Prod.mk.inj (some.inj h)
    refine ⟨fun x hx => ?_, fun e he => ?_⟩
    · rw [writeBack_apply, if_neg hx, TimeTable.setState, TimeTable.modify_apply, if_neg hx]
    · rw [writeBack_apply, if_pos rfl] at he
      obtain ⟨e', -, rfl⟩ := map_eq_some_iff.mp he
      exact hcheck.upper
  · obtain ⟨-, h⟩ := ite_none_right_eq_some.mp h
    exact absurd (Prod.mk.inj (some.inj h)).1.symm hrc

theorem pushBefore_tightens (b : Bounds) (tt : TimeTable) (x : ℕ) :
    Tightens (tt x) (pushBefore b tt x) := by
  apply cutAll_tightens
  split <;> omega

theorem pushAfter_tightens (b : Bounds) (tt : TimeTable) (x : ℕ) :
    Tightens (tt x) (pushAfter b tt x) := by
  apply raiseAll_tightens
  split <;> omega

/-- The two loops look at one entry at a time. -/
theorem push_congr (b : Bounds) (h : tt x = tt' x) :
    pushAfter b (pushBefore b tt) x = pushAfter b (pushBefore b tt') x := by
  simp only [pushAfter, pushBefore, raiseAll_apply, cutAll_apply, h]

/-- What is in neither set is left alone. -/
theorem push_of_not_mem (hbefore : x ∉ b.before)
    (hafter : x ∉ b.after) : pushAfter b (pushBefore b tt) x = tt x := by
  rw [pushAfter, raiseAll_apply, if_neg (mem_toList.not.mpr hafter), pushBefore, cutAll_apply,
    if_neg (mem_toList.not.mpr hbefore)]

/-- Those in `before` end up below the lower bound. -/
theorem getUpper_pushBefore (hx : x ∈ b.before) (he : tt x = some e) (hpos : 0 < b.lower) :
    (pushBefore b tt).getUpper x < b.lower := by
  have happ :=
    cutAll_apply b.lower (if b.lower > 0 then b.lower - 1 else b.lower) b.before.toList tt x
  rw [if_pos (mem_toList.mpr hx), he, map_some] at happ
  rw [pushBefore, TimeTable.getUpper_of_some happ, TimeTableEntry.cut]
  split
  · exact Nat.sub_lt hpos Nat.one_pos
  · exact Nat.lt_of_not_le ‹_›

/-- Those in `after` end up not below the upper bound. -/
theorem le_getLower_pushAfter
    (hx : x ∈ b.after) (he : tt x = some e) : b.upper ≤ (pushAfter b tt).getLower x := by
  have happ := raiseAll_apply b.upper (if b.upper < UINT64_MAX then b.upper + 1 else b.upper)
    b.after.toList tt x
  rw [if_pos (mem_toList.mpr hx), he, map_some] at happ
  rw [pushAfter, TimeTable.getLower_of_some happ, TimeTableEntry.raise]
  split
  · dsimp only
    split <;> omega
  · omega

theorem TimeTable.exists_of_state (h : tt.getState x ≠ .ABORTED) : ∃ e, tt x = some e := by
  rw [getState] at h
  split at h
  · exact ⟨_, ‹_›⟩
  · exact absurd rfl h

/-- What `validate` does once the bounds are found. -/
theorem CheckSpec.separates {b' : Bounds} (h : CheckSpec tt txn m b) (he : tt txn = some e)
    (hmax : b.upper ≤ UINT64_MAX) (hlt : b.lower < b.upper) (hlt' : b'.lower < b'.upper)
    (hle : b ≤ b') (hbefore : b'.before = b.before) (hafter : b'.after = b.after) :
    Separates tt
      (writeBack txn b' (pushAfter b' (pushBefore b' (tt.setState txn .VALIDATED)))) txn m := by
  set tt' := writeBack txn b' (pushAfter b' (pushBefore b' (tt.setState txn .VALIDATED))) with htt'
  have hself : ∃ e', tt' txn = some e' ∧ e'.state = .VALIDATED ∧ e'.lower = b'.lower ∧
      e'.upper = b'.upper := by
    have hset : tt.setState txn .VALIDATED txn = some { e with state := .VALIDATED } := by
      rw [TimeTable.setState, TimeTable.modify_apply, if_pos rfl, he, map_some]
    obtain ⟨e', he', htight⟩ :=
      ((pushBefore_tightens b' _ txn).trans (pushAfter_tightens b' _ txn)).of_some hset
    refine ⟨⟨b'.lower, b'.upper, e'.state⟩, ?_, htight.state, rfl, rfl⟩
    rw [htt', writeBack_apply, if_pos rfl, he', map_some]
  have hother : ∀ {x}, x ≠ txn → tt' x = pushAfter b' (pushBefore b' tt) x := by
    intro x hx
    rw [htt', writeBack_apply, if_neg hx]
    apply push_congr
    rw [TimeTable.setState, TimeTable.modify_apply, if_neg hx]
  have htight : ∀ x, x ≠ txn → Tightens (tt x) (tt' x) := fun x hx =>
    hother hx ▸ (pushBefore_tightens b' tt x).trans (pushAfter_tightens b' _ x)
  obtain ⟨e', he', hstate, hlower, hupper⟩ := hself
  have hlow : tt'.getLower txn = b'.lower := (TimeTable.getLower_of_some he').trans hlower
  have hup : tt'.getUpper txn = b'.upper := (TimeTable.getUpper_of_some he').trans hupper
  refine
    { self := ⟨e', he', hstate, hlower ▸ hupper ▸ hlt'⟩
      lower := hlow ▸ h.lower.trans hle.1
      upper := hup ▸ hle.2.1.trans h.upper
      written := hlow ▸ h.written.trans_le hle.1
      read := hlow ▸ h.read.trans_le hle.1
      others := htight
      settled := fun x hx hst => ?_
      writes := fun x hx hne hst => ?_
      reads := fun x hx hne hst => ?_ }
  · rw [hother hx]
    apply push_of_not_mem
    · exact fun hx => hst (h.running.1 x (hbefore ▸ hx))
    · exact fun hx => hst (h.running.2 x (hafter ▸ hx))
  · rw [hup]
    rcases h.writes x hx hst with hmem | hle'
    · obtain ⟨e'', he''⟩ := TimeTable.exists_of_state hst
      obtain ⟨e₁, he₁, -⟩ := (pushBefore_tightens b' tt x).of_some he''
      have hlow' := le_getLower_pushAfter (hafter ▸ hmem) he₁
      rwa [TimeTable.getLower, ← hother hne] at hlow'
    · exact (hle.2.1.trans hle').trans (htight x hne).getLower_le
  · rw [hlow]
    rcases h.reads x hx hst with hmem | hlt'' | hmax'
    · obtain ⟨e'', he''⟩ := TimeTable.exists_of_state hst
      have hup' :=
        getUpper_pushBefore (hbefore ▸ hmem) he'' (Nat.zero_lt_of_lt (h.written.trans_le hle.1))
      have hle' := (pushAfter_tightens b' (pushBefore b' tt) x).getUpper_le
      rw [TimeTable.getUpper, ← hother hne] at hle'
      exact hle'.trans_lt hup'
    · exact ((htight x hne).getUpper_le.trans_lt hlt'').trans_le hle.1
    · exact absurd (hmax'.trans_lt hlt) hmax.not_gt

/-- **`validate` moves intervals apart.** -/
theorem validate_spec (hm : m.Stamped) (he : tt txn = some e) (hmax : e.upper ≤ UINT64_MAX)
    (h : validate tt txn m = some (.RCOK, tt')) : Separates tt tt' txn m := by
  have hcheck : CheckSpec tt txn m (check tt txn m) := check_spec hm
  simp only [validate] at h
  generalize check tt txn m = b at hcheck h
  split at h
  · cases (Prod.mk.inj (some.inj h)).1
  rename_i hlt
  have hlt : b.lower < b.upper := Nat.lt_of_not_le hlt
  have hmaxb : b.upper ≤ UINT64_MAX := hcheck.upper.trans (TimeTable.getUpper_of_some he ▸ hmax)
  obtain ⟨lower, hlow, hlu, heq⟩ :=
    squeezeLower_loop (tt.setState txn .VALIDATED) b b.before.toList hlt
  rw [heq] at h
  obtain ⟨upper, hup, heq⟩ := squeezeUpper_loop
    (pushBefore { b with lower := lower } (tt.setState txn .VALIDATED)) { b with lower := lower }
    b.after.toList hlu hmaxb le_rfl
  rw [heq] at h
  obtain ⟨hassert, h⟩ := ite_none_right_eq_some.mp h
  obtain ⟨-, rfl⟩ := Prod.mk.inj (some.inj h)
  exact hcheck.separates he hmaxb hlt hassert ⟨hlow, hup, fun _ h => h, fun _ h => h⟩ rfl rfl

end Maat

end Deneva
