import Deneva.RowLock
import Deneva.Transition

/-!
# Locks at the isolation levels (`system/txn.cpp`, `benchmarks/*_txn.cpp`)

Under `NO_WAIT` and `WAIT_DIE` a row lock of an attempt is released in one of two places. The
workload may release it as soon as the row has been used (`release_last_row_lock`), which only
`run_ycsb_1` does; and `cleanup` goes through the accesses, where `cleanup_row` returns a row or
not. Both depend on `ISOLATION_LEVEL`, each in its own way.

One attempt at one node is a ledger of the locks granted to it (`Ledger`). What the lock answers is
an input, so a run covers whatever other transactions do.
-/

namespace Deneva

universe u

open Function List Option

namespace LockBalance

/-- `WORKLOAD`. -/
inductive WorkloadT : Type where
  | YCSB | TPCC | PPS
  deriving DecidableEq

/-- The values of `ISOLATION_LEVEL` at which rows are locked. -/
inductive IsolationLevel : Type where
  | SERIALIZABLE | READ_COMMITTED | READ_UNCOMMITTED
  deriving DecidableEq

/-- The values of `CC_ALG` that are compiled with these levels. -/
inductive CCAlg2PL : Type where
  | NO_WAIT | WAIT_DIE
  deriving DecidableEq

/-- Whether the workload releases a row once it has used it: `run_ycsb_1`. Its abort mode looks at a
byte that has just been set to zero, and never leaves before the release. -/
def releasesLast (w : WorkloadT) (level : IsolationLevel) (type : AccessT) : Bool :=
  match w with
  | .YCSB =>
    if type = .RD ∨ type = .SCAN then level = .READ_COMMITTED ∨ level = .READ_UNCOMMITTED
    else level = .READ_UNCOMMITTED
  | .TPCC | .PPS => false

/-- Whether `cleanup_row` returns the row; `ROLL_BACK` is on. -/
def cleanupReturns (level : IsolationLevel) (rc : RC) (type : AccessT) : Bool :=
  let type := if type = .WR ∧ rc = .Abort then .XP else type
  match level with
  | .READ_UNCOMMITTED => false
  | .READ_COMMITTED => type = .XP ∨ type = .WR
  | .SERIALIZABLE => true

variable {R : Type u} [DecidableEq R]

/-- Where an attempt is. -/
inductive Pos (R : Type u) : Type u where
  /-- between two rows -/
  | idle
  /-- a lock was refused, and nobody has aborted yet -/
  | refused
  /-- it waits for the lock of a row -/
  | waiting (r : R) (type : AccessT)
  /-- the lock was granted while it waited -/
  | woken (r : R) (type : AccessT)
  /-- it has a row that it has not used yet -/
  | hasRow
  /-- after `cleanup` -/
  | done
  deriving DecidableEq

/-- An attempt at a node. -/
structure Ledger (R : Type u) : Type u where
  /-- `txn->accesses` -/
  accesses : List (R × AccessT)
  /-- how many locks of each row were granted to it and not released -/
  held : R → ℕ
  /-- a lock was released that was not held -/
  unheld : Bool
  /-- where it is -/
  pos : Pos R

/-- The steps of an attempt. -/
inductive Action (R : Type u) : Type u where
  /-- `get_row`, with the answer of `lock_get` -/
  | getRow (r : R) (type : AccessT) (rc : RC)
  /-- another transaction's `lock_release` grants the lock -/
  | wake
  | getRowPostWait
  /-- the workload uses the row -/
  | useRow
  | cleanup (rc : RC)
  deriving DecidableEq

namespace Ledger

/-- A new attempt. -/
def init : Ledger R := ⟨[], fun _ => 0, false, .idle⟩

/-- A lock is granted. -/
def grant (r : R) (s : Ledger R) : Ledger R :=
  { s with held := update s.held r (s.held r + 1) }

/-- `row_t::return_row`, with its `lock_release`. -/
def returnRow (r : R) (s : Ledger R) : Ledger R :=
  if s.held r = 0 then { s with unheld := true }
  else { s with held := update s.held r (s.held r - 1) }

/-- `release_last_row_lock`, where the workload calls it. -/
def useRow (w : WorkloadT) (level : IsolationLevel) (s : Ledger R) : Option (Ledger R) :=
  match s.accesses.getLast? with
  | none => none
  | some (r, type) =>
    some { (if releasesLast w level type then s.returnRow r else s) with pos := .idle }

/-- `cleanup_row`. -/
def cleanupRow (level : IsolationLevel) (rc : RC) (access : R × AccessT) (s : Ledger R) :
    Ledger R :=
  if cleanupReturns level rc access.2 then s.returnRow access.1 else s

/-- `cleanup`: the accesses from the last one on. -/
def cleanup (level : IsolationLevel) (rc : RC) (s : Ledger R) : Ledger R :=
  { s.accesses.foldr (cleanupRow level rc) s with pos := .done }

end Ledger

/-- Whether an attempt may go on. After a refused lock YCSB aborts at once. A remote fragment of
TPC-C or PPS only ends, and its answer says `RCOK`: the home node then sends the next fragment, or
commits. -/
def Pos.ready (w : WorkloadT) : Pos R → Bool
  | .idle => true
  | .refused => w ≠ .YCSB
  | _ => false

/-- Whether `cleanup` may come. -/
def Pos.ending (w : WorkloadT) (rc : RC) (pos : Pos R) : Bool :=
  rc = .RCOK ∧ pos.ready w ∨ rc = .Abort ∧ (pos = .idle ∨ pos = .refused)

/-- The attempts of a transaction at a node. A row is accessed for reading, writing or scanning. -/
def machine (R : Type u) [DecidableEq R] (cc : CCAlg2PL) (w : WorkloadT) (level : IsolationLevel) :
    Machine (Ledger R) (Action R) where
  init := .init
  step s
    | .getRow r type rc =>
      if type = .XP ∨ ¬ s.pos.ready w then none
      else
        match rc with
        | .RCOK => some { s.grant r with accesses := s.accesses ++ [(r, type)], pos := .hasRow }
        | .WAIT => if cc = .WAIT_DIE then some { s with pos := .waiting r type } else none
        | .Abort => some { s with pos := .refused }
        | _ => none
    | .wake =>
      match s.pos with
      | .waiting r type => some { s.grant r with pos := .woken r type }
      | _ => none
    | .getRowPostWait =>
      match s.pos with
      | .woken r type => some { s with accesses := s.accesses ++ [(r, type)], pos := .hasRow }
      | _ => none
    | .useRow => if s.pos = .hasRow then s.useRow w level else none
    | .cleanup rc => if s.pos.ending w rc then some (s.cleanup level rc) else none

/-- **Locks are balanced**: no lock was released that was not held, and after `cleanup` none is
held. -/
def Ledger.Balanced (s : Ledger R) : Prop :=
  s.unheld = false ∧ (s.pos = .done → ∀ r, s.held r = 0)

/-- The accesses whose locks are released somewhere. -/
def Covered (w : WorkloadT) (level : IsolationLevel) (type : AccessT) : Prop :=
  level = .SERIALIZABLE ∨ w = .YCSB ∨ level = .READ_COMMITTED ∧ type = .WR

/-- The condition: at a cleanup, the locks of all accesses are released somewhere. -/
def Covers (w : WorkloadT) (level : IsolationLevel) (s : Ledger R) : Action R → Prop
  | .cleanup rc => s.pos.ending w rc → ∀ access ∈ s.accesses, Covered w level access.2
  | _ => True

/-! ## The two places -/

/-- No lock is released in both. -/
theorem releasesLast_eq_false {w : WorkloadT} {level : IsolationLevel} {rc : RC} {type : AccessT}
    (hxp : type ≠ .XP) (h : cleanupReturns level rc type = true) :
    releasesLast w level type = false := by
  cases w <;> cases level <;> cases type <;> simp_all [cleanupReturns, releasesLast]

/-- Which locks are released in one of them; whether the attempt commits or aborts does not
matter. -/
theorem covered_iff {w : WorkloadT} {level : IsolationLevel} (rc : RC) {type : AccessT}
    (hxp : type ≠ .XP) :
    Covered w level type ↔
      releasesLast w level type = true ∨ cleanupReturns level rc type = true := by
  by_cases hrc : rc = .Abort <;> cases w <;> cases level <;> cases type <;>
    simp_all [cleanupReturns, releasesLast, Covered]

/-! ## The ledger -/

section Rows

variable (w : WorkloadT) (level : IsolationLevel) (rc : RC)

/-- The rows whose locks are left to `cleanup`. -/
def kept (accesses : List (R × AccessT)) : List R :=
  (accesses.filter fun access => !releasesLast w level access.2).map Prod.fst

/-- The rows that `cleanup` returns. -/
def returned (accesses : List (R × AccessT)) : List R :=
  (accesses.filter fun access => cleanupReturns level rc access.2).map Prod.fst

variable {w level rc} {accesses : List (R × AccessT)}

omit [DecidableEq R] in
theorem kept_concat (r : R) (type : AccessT) :
    kept w level (accesses ++ [(r, type)]) =
      kept w level accesses ++ if releasesLast w level type then [] else [r] := by
  cases h : releasesLast w level type <;> simp [kept, h]

section

variable (hxp : ∀ access ∈ accesses, access.2 ≠ .XP)

include hxp

omit [DecidableEq R] in
/-- What is returned is what is left, as far as its lock is released at all. -/
theorem returned_eq :
    returned level rc accesses =
      ((accesses.filter fun access => !releasesLast w level access.2).filter
        fun access => cleanupReturns level rc access.2).map Prod.fst := by
  rw [List.filter_filter, returned]
  congr 1
  refine filter_congr fun access hmem => ?_
  cases h : cleanupReturns level rc access.2 with
  | false => rfl
  | true => simp [releasesLast_eq_false (hxp access hmem) h]

theorem count_returned_le (r : R) :
    (returned level rc accesses).count r ≤ (kept w level accesses).count r := by
  rw [returned_eq hxp]
  exact (filter_sublist.map _).count_le r

/-- **All is returned** exactly if every access is covered. -/
theorem count_returned_eq_iff :
    (∀ r, (returned level rc accesses).count r = (kept w level accesses).count r) ↔
      ∀ access ∈ accesses, Covered w level access.2 := by
  have hall : (∀ r, (returned level rc accesses).count r = (kept w level accesses).count r) ↔
      ∀ access ∈ accesses, releasesLast w level access.2 = false →
        cleanupReturns level rc access.2 = true := by
    rw [returned_eq hxp, kept]
    constructor
    · intro h
      have hlen := (List.perm_iff_count.mpr h).length_eq
      rw [length_map, length_map, length_filter_eq_length_iff] at hlen
      intro access hmem hlast
      exact hlen access (mem_filter.mpr ⟨hmem, by simp [hlast]⟩)
    · intro h r
      congr 2
      refine List.filter_eq_self.mpr fun access hmem => ?_
      obtain ⟨hmem, hlast⟩ := mem_filter.mp hmem
      exact h access hmem (by simpa using hlast)
  rw [hall]
  refine forall₂_congr fun access hmem => ?_
  rw [covered_iff rc (hxp access hmem)]
  cases releasesLast w level access.2 <;> simp

end

end Rows

namespace Ledger

variable {level : IsolationLevel} {rc : RC} {s : Ledger R}

theorem returnRow_of_pos {r : R} (h : s.held r ≠ 0) :
    s.returnRow r = { s with held := update s.held r (s.held r - 1) } := if_neg h

theorem foldr_cleanupRow_accesses (accesses : List (R × AccessT)) :
    (accesses.foldr (cleanupRow level rc) s).accesses = s.accesses := by
  induction accesses with
  | nil => rfl
  | cons access rest ih =>
    rw [foldr_cons, cleanupRow, returnRow]
    split_ifs <;> exact ih

/-- `cleanup` returns the rows it should if they are held. -/
theorem foldr_cleanupRow {accesses : List (R × AccessT)} (hunheld : s.unheld = false)
    (hle : ∀ r, (returned level rc accesses).count r ≤ s.held r) :
    (accesses.foldr (cleanupRow level rc) s).unheld = false ∧
      ∀ r, (accesses.foldr (cleanupRow level rc) s).held r =
        s.held r - (returned level rc accesses).count r := by
  induction accesses with
  | nil => simp [hunheld, returned]
  | cons access rest ih =>
    obtain ⟨r₀, type⟩ := access
    rw [foldr_cons]
    cases hret : cleanupReturns level rc type with
    | false =>
      have heq : returned level rc ((r₀, type) :: rest) = returned level rc rest := by
        simp [returned, hret]
      rw [heq] at hle ⊢
      simpa [cleanupRow, hret] using ih hle
    | true =>
      have heq : returned level rc ((r₀, type) :: rest) = r₀ :: returned level rc rest := by
        simp [returned, hret]
      rw [heq] at hle ⊢
      obtain ⟨hun, hheld⟩ := ih fun r => (count_le_count_cons).trans (hle r)
      have hpos : (rest.foldr (cleanupRow level rc) s).held r₀ ≠ 0 := by
        have := hle r₀
        rw [count_cons_self] at this
        rw [hheld]
        omega
      simp only [cleanupRow, hret, if_true, returnRow_of_pos hpos]
      refine ⟨hun, fun r => ?_⟩
      rcases eq_or_ne r r₀ with rfl | hne
      · rw [Function.update_self, hheld, count_cons_self]
        omega
      · rw [Function.update_of_ne hne, hheld, count_cons_of_ne hne.symm]

end Ledger

/-! ## The invariant -/

section Inv

variable {cc : CCAlg2PL} {w : WorkloadT} {level : IsolationLevel} {s s' : Ledger R}

/-- The locks that are held where the attempt is. -/
def Held (w : WorkloadT) (level : IsolationLevel) (s : Ledger R) : Prop :=
  match s.pos with
  | .idle | .refused => ∀ r, s.held r = (kept w level s.accesses).count r
  | .waiting _ type => type ≠ .XP ∧ ∀ r, s.held r = (kept w level s.accesses).count r
  | .woken r₀ type => type ≠ .XP ∧ ∀ r, s.held r = (kept w level s.accesses ++ [r₀]).count r
  | .hasRow => ∃ accesses r₀ type, s.accesses = accesses ++ [(r₀, type)] ∧
      ∀ r, s.held r = (kept w level accesses ++ [r₀]).count r
  | .done => True

/-- **The invariant**: what is held is what the workload did not release. -/
structure Inv (w : WorkloadT) (level : IsolationLevel) (s : Ledger R) : Prop where
  /-- rows are read, written or scanned -/
  types : ∀ access ∈ s.accesses, access.2 ≠ .XP
  /-- no lock was released that was not held -/
  unheld : s.unheld = false
  /-- the locks -/
  held : Held w level s

theorem inv_init : Inv w level (Ledger.init : Ledger R) where
  types := by simp [Ledger.init]
  unheld := rfl
  held := by simp [Held, Ledger.init, kept]

theorem grant_held {accesses : List (R × AccessT)} {r₀ : R}
    (h : ∀ r, s.held r = (kept w level accesses).count r) (r : R) :
    (s.grant r₀).held r = (kept w level accesses ++ [r₀]).count r := by
  rcases eq_or_ne r r₀ with rfl | hne
  · simp [Ledger.grant, h]
  · simp [Ledger.grant, h, hne, hne.symm]

section

variable (hI : Inv w level s)

include hI

/-- The row has been used: what is held is what the workload did not release. -/
theorem Inv.useRow (hpos : s.pos = .hasRow) (h : s.useRow w level = some s') :
    Inv w level s' ∧ s'.pos = .idle := by
  have hheld := hI.held
  simp only [Held, hpos] at hheld
  obtain ⟨accesses, r₀, type, hacc, hheld⟩ := hheld
  have hlast : s.accesses.getLast? = some (r₀, type) := by rw [hacc, getLast?_concat]
  simp only [Ledger.useRow, hlast, some.injEq] at h
  subst h
  refine ⟨?_, rfl⟩
  cases hrel : releasesLast w level type with
  | false =>
    refine ⟨hI.types, hI.unheld, fun r => ?_⟩
    simp [hacc, kept_concat, hrel, hheld]
  | true =>
    have hpos₀ : s.held r₀ ≠ 0 := by simp [hheld]
    simp only [if_true, Ledger.returnRow_of_pos hpos₀]
    refine ⟨hI.types, hI.unheld, fun r => ?_⟩
    rcases eq_or_ne r r₀ with rfl | hne
    · simp [hacc, kept_concat, hrel, hheld]
    · simp [hacc, kept_concat, hrel, hheld, hne, hne.symm]

/-- `cleanup`: no lock is released that is not held, and what stays held is what is not returned. -/
theorem Inv.cleanup (hheld : ∀ r, s.held r = (kept w level s.accesses).count r) (rc : RC) :
    Inv w level (s.cleanup level rc) ∧
      ∀ r, (s.cleanup level rc).held r =
        (kept w level s.accesses).count r - (returned level rc s.accesses).count r := by
  have hle : ∀ r, (returned level rc s.accesses).count r ≤ s.held r := by
    intro r
    rw [hheld]
    exact count_returned_le hI.types r
  obtain ⟨hun, hrest⟩ := Ledger.foldr_cleanupRow hI.unheld hle
  refine ⟨⟨?_, hun, trivial⟩, fun r => ?_⟩
  · simpa only [Ledger.cleanup, Ledger.foldr_cleanupRow_accesses] using hI.types
  · rw [← hheld]
    exact hrest r

/-- What a `cleanup` needs to leave no lock behind. -/
theorem Inv.balanced_cleanup_iff (hheld : ∀ r, s.held r = (kept w level s.accesses).count r)
    (rc : RC) :
    (s.cleanup level rc).Balanced ↔ ∀ access ∈ s.accesses, Covered w level access.2 := by
  obtain ⟨hinv, hrest⟩ := hI.cleanup hheld rc
  have hiff : (∀ r, (returned level rc s.accesses).count r = (kept w level s.accesses).count r) ↔
      ∀ access ∈ s.accesses, Covered w level access.2 := count_returned_eq_iff hI.types
  rw [← hiff]
  constructor
  · rintro ⟨-, hzero⟩ r
    have hnone := hzero rfl r
    have hle : (returned level rc s.accesses).count r ≤ (kept w level s.accesses).count r :=
      count_returned_le hI.types r
    rw [hrest] at hnone
    omega
  · intro hall
    refine ⟨hinv.unheld, fun _ r => ?_⟩
    rw [hrest, hall, Nat.sub_self]

/-- Before its cleanup an attempt is balanced. -/
theorem Inv.balanced (hpos : s.pos ≠ .done) : s.Balanced :=
  ⟨hI.unheld, fun h => absurd h hpos⟩

theorem held_at_cleanup (hpos : s.pos = .idle ∨ s.pos = .refused) (r : R) :
    s.held r = (kept w level s.accesses).count r := by
  have hheld := hI.held
  rcases hpos with hpos | hpos <;> simp only [Held, hpos] at hheld <;> exact hheld r

omit hI [DecidableEq R] in
theorem Pos.between_of_ready {pos : Pos R} (h : pos.ready w = true) :
    pos = .idle ∨ pos = .refused := by
  cases pos <;> simp_all [Pos.ready]

omit hI in
theorem Pos.between_of_ending {pos : Pos R} {rc : RC} (h : pos.ending w rc = true) :
    pos = .idle ∨ pos = .refused := by
  rcases of_decide_eq_true h with ⟨-, hready⟩ | ⟨-, hpos⟩
  · exact between_of_ready hready
  · exact hpos

/-- A step other than a cleanup keeps the invariant and does not end the attempt. -/
theorem Inv.step {a : Action R} (hne : ∀ rc, a ≠ .cleanup rc)
    (h : (machine R cc w level).step s a = some s') : Inv w level s' ∧ s'.pos ≠ .done := by
  cases a with
  | getRow r type rc =>
    obtain ⟨hgo, h⟩ := ite_none_left_eq_some.mp h
    obtain ⟨hxp, hready⟩ := not_or.mp hgo
    have hheld := held_at_cleanup hI (Pos.between_of_ready (not_not.mp hready))
    have htypes : ∀ access ∈ s.accesses ++ [(r, type)], access.2 ≠ .XP := by
      intro access hmem
      rcases mem_append.mp hmem with hmem | hmem
      · exact hI.types access hmem
      · rwa [mem_singleton.mp hmem]
    split at h
    · cases h
      exact ⟨⟨htypes, hI.unheld, s.accesses, r, type, rfl, grant_held hheld⟩, by simp⟩
    · obtain ⟨-, h⟩ := ite_none_right_eq_some.mp h
      cases h
      exact ⟨⟨hI.types, hI.unheld, hxp, hheld⟩, by simp⟩
    · cases h
      exact ⟨⟨hI.types, hI.unheld, hheld⟩, by simp⟩
    · cases h
  | wake =>
    have hheld := hI.held
    simp only [machine] at h
    split at h <;> cases h
    next r type hpos =>
      simp only [Held, hpos] at hheld
      exact ⟨⟨hI.types, hI.unheld, hheld.1, grant_held hheld.2⟩, by simp⟩
  | getRowPostWait =>
    have hheld := hI.held
    simp only [machine] at h
    split at h <;> cases h
    next r type hpos =>
      simp only [Held, hpos] at hheld
      refine ⟨⟨fun access hmem => ?_, hI.unheld, s.accesses, r, type, rfl, hheld.2⟩, by simp⟩
      rcases mem_append.mp hmem with hmem | hmem
      · exact hI.types access hmem
      · rw [mem_singleton.mp hmem]
        exact hheld.1
  | useRow =>
    obtain ⟨hpos, h⟩ := ite_none_right_eq_some.mp h
    obtain ⟨hinv, hidle⟩ := hI.useRow hpos h
    exact ⟨hinv, by simp [hidle]⟩
  | cleanup rc => exact absurd rfl (hne rc)

end

/-- A cleanup happens between two rows or after a refused lock. -/
theorem step_cleanup {rc : RC} : (machine R cc w level).step s (.cleanup rc) = some s' ↔
    s.pos.ending w rc = true ∧ s.cleanup level rc = s' := by
  simp [machine]

end Inv

/-- **Where locks are balanced.** Along a run of an attempt no lock is released that is not held,
and each lock that was granted is released by the end of `cleanup`, exactly if at every cleanup the
locks of all accesses are covered: the level is `SERIALIZABLE`, the workload is YCSB, or the level
is `READ_COMMITTED` and the access was a write. -/
theorem balanced_iff (cc : CCAlg2PL) (w : WorkloadT) (level : IsolationLevel)
    (as : List (Action R)) :
    (∀ k, ∀ s ∈ (machine R cc w level).run (as.take k), s.Balanced) ↔
      (machine R cc w level).RunOk (Covers w level) (machine R cc w level).init as := by
  refine Machine.runFrom_iff_runOk_of_inv (I := Inv w level) ?_ ?_ inv_init ?_ as
  · intro s a _ hnone
    cases a with
    | cleanup rc =>
      intro hat
      rw [step_cleanup.mpr ⟨hat, rfl⟩] at hnone
      cases hnone
    | _ => trivial
  · intro s a s' hI _ h
    by_cases hne : ∀ rc, a ≠ .cleanup rc
    · obtain ⟨hinv, hpos⟩ := hI.step hne h
      have hok : Covers w level s a := by
        cases a with
        | cleanup rc => exact absurd rfl (hne rc)
        | _ => trivial
      exact ⟨iff_of_true (hinv.balanced hpos) hok, fun _ => hinv⟩
    · simp only [not_forall, ne_eq, not_not] at hne
      obtain ⟨rc, rfl⟩ := hne
      obtain ⟨hat, rfl⟩ := step_cleanup.mp h
      have hheld := held_at_cleanup hI (Pos.between_of_ending hat)
      refine ⟨?_, fun _ => (hI.cleanup hheld rc).1⟩
      rw [hI.balanced_cleanup_iff hheld]
      exact ⟨fun hall _ => hall, fun hall => hall hat⟩
  · exact ⟨rfl, fun h => by simp [Ledger.init] at h⟩

/-- **TPC-C keeps the lock of a row it has read** when it commits at `READ_COMMITTED`. -/
theorem not_balanced_read :
    ∃ s ∈ (machine ℕ .NO_WAIT .TPCC .READ_COMMITTED).run
      [.getRow 7 .RD .RCOK, .useRow, .cleanup .RCOK],
      s.pos = .done ∧ s.held 7 = 1 ∧ ¬ s.Balanced := by
  refine ⟨_, rfl, rfl, rfl, fun h => ?_⟩
  exact absurd (h.2 rfl 7) (by decide)

end LockBalance

end Deneva
