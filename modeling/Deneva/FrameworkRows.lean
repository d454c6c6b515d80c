import Deneva.ContentSemaphore
import Deneva.FrameworkLocks
import Deneva.TpccData

/-!
# The rows of `concurrencyControlMap` (`framework.cpp`, `TxnManager::get_row`)

`TxnManager::get_row` calls the framework with the primary key of the row, and
`concurrencyControlMap` has one control for a key, whatever the table. A write to a key that has no
control makes one, a read does nothing.

* `Row` are the rows that the loaders make, with the key in their index (`Row.indexKey`) and the
  primary key that they are given (`Row.primaryKey`), which for districts, stocks and customers
  leaves the warehouse out.
* `Mode` are the two frameworks: what a control does with a read and a write. `locks` and
  `optimistic` are those of the source.
-/

namespace Deneva

universe u

open Function List

namespace FrameworkRows

/-! ## Rows -/

/-- The rows that the loaders make. -/
inductive Row : Type where
  /-- YCSB -/
  | main (key : ℕ)
  | item (iId : ℕ)
  | warehouse (wId : ℕ)
  | district (dId wId : ℕ)
  | stock (iId wId : ℕ)
  | customer (cId dId wId : ℕ)
  deriving DecidableEq

/-- What `set_primary_key` is called with. -/
def Row.primaryKey : Row → ℕ
  | .main key => key
  | .item iId => iId
  | .warehouse wId => wId
  | .district dId _ => dId
  | .stock iId _ => iId
  | .customer cId _ _ => cId

/-- The table, by a number of its own, and what `index_insert` is called with. -/
def Row.indexKey (S : Tpcc.Scale) : Row → ℕ × ℕ
  | .main key => (0, key)
  | .item iId => (1, iId)
  | .warehouse wId => (2, wId)
  | .district dId wId => (3, Tpcc.distKey S dId wId)
  | .stock iId wId => (4, Tpcc.stockKey S iId wId)
  | .customer cId dId wId => (5, Tpcc.custKey S cId dId wId)

/-- The rows that are loaded have their numbers from `1` on. -/
def Row.Loaded (S : Tpcc.Scale) : Row → Prop
  | .main _ | .item _ | .warehouse _ => True
  | .district dId _ => 1 ≤ dId ∧ dId ≤ S.distPerWh
  | .stock iId _ => 1 ≤ iId ∧ iId ≤ S.maxItems
  | .customer cId dId _ => (1 ≤ cId ∧ cId ≤ S.custPerDist) ∧ 1 ≤ dId ∧ dId ≤ S.distPerWh

/-- A number from `1` to `n` can be told from a multiple of `n` that is added to it. -/
theorem eq_of_mul_add_eq {n i i' w w' : ℕ} (hi : 1 ≤ i ∧ i ≤ n) (hi' : 1 ≤ i' ∧ i' ≤ n)
    (h : w * n + i = w' * n + i') : i = i' ∧ w = w' := by
  have hmod : (w * n + (i - 1)) / n = (w' * n + (i' - 1)) / n := congrArg (· / n) (by omega)
  rw [Nat.mul_comm w, Nat.mul_comm w', Nat.mul_add_div (by omega), Nat.mul_add_div (by omega),
    Nat.div_eq_of_lt (by omega), Nat.div_eq_of_lt (by omega), Nat.add_zero, Nat.add_zero] at hmod
  subst hmod
  exact ⟨Nat.add_left_cancel h, rfl⟩

/-- Loaded rows differ exactly if their tables or index keys do. -/
theorem indexKey_inj {S : Tpcc.Scale} {r r' : Row} (hr : r.Loaded S) (hr' : r'.Loaded S)
    (h : r.indexKey S = r'.indexKey S) : r = r' := by
  cases r <;> cases r' <;> obtain ⟨htable, hkey⟩ := Prod.mk.inj h <;> cases htable
  case main.main | item.item | warehouse.warehouse => rw [hkey]
  case district.district | stock.stock =>
    obtain ⟨rfl, rfl⟩ := eq_of_mul_add_eq hr hr' hkey
    rfl
  case customer.customer =>
    obtain ⟨rfl, hdist⟩ := eq_of_mul_add_eq hr.1 hr'.1 hkey
    obtain ⟨rfl, rfl⟩ := eq_of_mul_add_eq hr.2 hr'.2 hdist
    rfl

/-! ## Accesses -/

/-- What the control of a key does, with the answer for the transaction. -/
structure Mode (T σ ρ : Type u) where
  /-- a new control -/
  init : Row → σ
  read : T → σ → σ × ρ
  write : T → Row → σ → σ × ρ

/-- The lock of `FrameworkPessimisticDeneva`, with the row as the content it points to. -/
def locks {T : Type} (cc : LockAlg) (ts : T → ℕ) :
    Mode T (FrameworkLocks.CCLock Row T) FrameworkLocks.Control where
  init row := .init row
  read t c := (c.getControl cc ts .RD t).swap
  write t row c := (c.write cc ts t row).swap

/-- The content of `FrameworkOptimisicDeneva`. A read that waits for ever has no answer. -/
def optimistic (perRowValid : Bool) :
    Mode ContentSemaphore.TransactionF (ContentSemaphore.CCO Row) (Option (Option Row)) where
  init := .init
  read x c :=
    match c.read x with
    | some (content, c) => (c, some content)
    | none => (c, none)
  write x row c := (c.write perRowValid x row, some (some row))

/-- A call of `TxnManager::get_row`. -/
structure Access (T : Type u) : Type u where
  t : T
  row : Row
  write : Bool

variable {T σ ρ : Type u}

/-- What the framework does for an access. -/
def access (M : Mode T σ ρ) (a : Access T) (c : Option σ) : Option σ × Option ρ :=
  if a.write then
    let (c, answer) := M.write a.t a.row (c.getD (M.init a.row))
    (some c, some answer)
  else
    match c with
    | none => (none, none)
    | some c =>
      let (c, answer) := M.read a.t c
      (some c, some answer)

/-- `concurrencyControlMap` after accesses, and their answers. -/
def run (M : Mode T σ ρ) (ccMap : ℕ → Option σ) :
    List (Access T) → (ℕ → Option σ) × List (Access T × Option ρ)
  | [] => (ccMap, [])
  | a :: accesses =>
    let (c, answer) := access M a (ccMap a.row.primaryKey)
    let (ccMap, answers) := run M (update ccMap a.row.primaryKey c) accesses
    (ccMap, (a, answer) :: answers)

/-- **Controls are per row**, when there are some from the loader: YCSB calls `initContent` for each
row. -/
structure PerRow (M : Mode T σ ρ) (ccMap : ℕ → Option σ) (accesses : List (Access T)) : Prop where
  /-- different rows have different controls -/
  distinct : ∀ a ∈ accesses, ∀ b ∈ accesses, a.row ≠ b.row → a.row.primaryKey ≠ b.row.primaryKey
  /-- the control of a row is as if no other had been accessed -/
  control : ∀ a ∈ accesses, (run M ccMap accesses).1 a.row.primaryKey =
    (run M ccMap (accesses.filter (·.row = a.row))).1 a.row.primaryKey
  /-- and so are the answers -/
  answers : ∀ a ∈ accesses, (run M ccMap accesses).2.filter (·.1.row = a.row) =
    (run M ccMap (accesses.filter (·.row = a.row))).2

/-- Rows with other keys do not matter. -/
theorem run_filter {M : Mode T σ ρ} {row : Row} {accesses : List (Access T)}
    (h : ∀ a ∈ accesses, a.row ≠ row → a.row.primaryKey ≠ row.primaryKey)
    {ccMap ccMap' : ℕ → Option σ} (hmap : ccMap row.primaryKey = ccMap' row.primaryKey) :
    (run M ccMap accesses).1 row.primaryKey =
        (run M ccMap' (accesses.filter (·.row = row))).1 row.primaryKey ∧
      (run M ccMap accesses).2.filter
      (·.1.row = row) = (run M ccMap' (accesses.filter (·.row = row))).2 := by
  induction accesses generalizing ccMap ccMap' with
  | nil => exact ⟨hmap, rfl⟩
  | cons a accesses ih =>
    obtain ⟨ha, hrest⟩ := forall_mem_cons.mp h
    by_cases hrow : a.row = row
    · have hsame : ∀ c, update ccMap row.primaryKey c row.primaryKey =
          update ccMap' row.primaryKey c row.primaryKey := fun c => by rw [update_self, update_self]
      obtain ⟨hcontrol, hanswers⟩ := ih hrest (hsame (access M a (ccMap' row.primaryKey)).1)
      rw [filter_cons_of_pos (by simpa using hrow)]
      simp only [run, hrow, hmap]
      rw [filter_cons_of_pos (by simpa using hrow)]
      exact ⟨hcontrol, congrArg _ hanswers⟩
    · rw [filter_cons_of_neg (by simpa using hrow), run]
      rw [filter_cons_of_neg (by simpa using hrow)]
      exact ih hrest ((update_of_ne (Ne.symm (ha hrow)) _ _).trans hmap)

/-- **Controls are per row exactly if primary keys are**: different rows have controls of their own,
and every access is answered as if the other rows did not exist, exactly if the rows that are
accessed have different primary keys. With YCSB they have. In TPC-C the keys of the *index* tell all
loaded rows apart, but the primary key is not that key. -/
theorem perRow_iff (M : Mode T σ ρ) (ccMap : ℕ → Option σ) (accesses : List (Access T)) :
    (PerRow M ccMap accesses ↔
      ∀ a ∈ accesses, ∀ b ∈ accesses, a.row ≠ b.row → a.row.primaryKey ≠ b.row.primaryKey) ∧
    ((∀ a ∈ accesses, ∃ key, a.row = .main key) → PerRow M ccMap accesses) ∧
    ∀ S : Tpcc.Scale, (∀ a ∈ accesses, a.row.Loaded S) → ∀ a ∈ accesses, ∀ b ∈ accesses,
      (a.row ≠ b.row ↔ a.row.indexKey S ≠ b.row.indexKey S) := by
  have hiff : PerRow M ccMap accesses ↔
      ∀ a ∈ accesses, ∀ b ∈ accesses, a.row ≠ b.row → a.row.primaryKey ≠ b.row.primaryKey := by
    refine ⟨PerRow.distinct, fun h => ⟨h, fun a ha => ?_, fun a ha => ?_⟩⟩
    · exact (run_filter (fun b hb => h b hb a ha) rfl).1
    · exact (run_filter (fun b hb => h b hb a ha) rfl).2
  refine ⟨hiff, fun hmain => hiff.mpr fun a ha b hb hne hkey => ?_, fun S hS a ha b hb => ?_⟩
  · obtain ⟨key, hkey⟩ := hmain a ha
    obtain ⟨key', hkey'⟩ := hmain b hb
    simp_all [Row.primaryKey]
  · exact ⟨fun hne heq => hne (indexKey_inj (hS a ha) (hS b hb) heq),
      fun hne heq => hne (heq ▸ rfl)⟩

/-- A write to a district is refused since another transaction has written the warehouse. -/
theorem not_perRow_payment :
    ¬PerRow (locks .NO_WAIT id) (fun _ => none)
      [⟨0, .warehouse 1, true⟩, ⟨1, .district 1 1, true⟩] ∧
    (run (locks .NO_WAIT id) (fun _ => none)
      [⟨0, .warehouse 1, true⟩, ⟨1, .district 1 1, true⟩]).2.map (·.2) =
        [some .granted, some .refused] ∧
    (run (locks .NO_WAIT id) (fun _ => none) [⟨1, .district 1 1, true⟩]).2.map (·.2) =
      [some .granted] := by
  refine ⟨fun h => ?_, by decide, by decide⟩
  exact h.distinct _ mem_cons_self _ (mem_cons_of_mem _ mem_cons_self) (by decide) rfl

end FrameworkRows

end Deneva
