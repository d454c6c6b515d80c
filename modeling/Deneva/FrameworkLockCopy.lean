import Deneva.FrameworkLocks

/-!
# The framework's copy of the row lock (`framework/utils/concurrencyLocks.cpp`)

`CC_Lock` is a copy of `Row_lock` made by hand, with the members of `RowLock`. It goes by the start
timestamps of the framework. One line is not a copy: where `lock_get` counts a waiting request with
an atomic operation, `getControl` calls `TransactionF::incr_lr`, and where `lock_release` counts a
request that it grants, `releaseControl` calls `decr_lr`. Both wait for a semaphore that nobody
initialises.
-/

namespace Deneva

universe u

open List Option

namespace FrameworkLockCopy

open RowLock

open FrameworkLocks (CCLock getOperationLock)

variable {T : Type u}

/-! ## Both locks in step -/

/-- The lock of a row and the copy, each with the requests that own it: granted, and not released
yet. The contents of the copy are of no interest here. -/
structure Locks (T : Type u) : Type u where
  row : RowLock T
  rowOwners : List (LockEntry T)
  copy : CCLock Unit T
  copyOwners : List (LockEntry T)

inductive Call (T : Type u) : Type u where
  | request (t : T) (operation : AccessT)
  | release (t : T)

/-- A transaction reads or writes what it neither owns nor waits for, and releases what it owns. -/
def Proper (s : Locks T) : Call T → Prop
  | .request t operation => (operation = .RD ∨ operation = .WR) ∧
      (∀ en ∈ s.rowOwners, en.txn ≠ t) ∧ ∀ en ∈ s.row.waiters, en.txn ≠ t
  | .release t => ∃ en ∈ s.rowOwners, en.txn = t

/-- No request has to wait. -/
def Prompt (cc : LockAlg) (fts : T → ℕ) (s : Locks T) : Call T → Prop
  | .request t operation => s.copy.mustWait cc fts operation t = false
  | .release _ => True

/-- **The locks agree**: in the mode, in the owners and in the waiters. -/
structure Agree (cc : LockAlg) (s : Locks T) : Prop where
  lockType : s.copy.lock.lockType = s.row.lockType
  owners : s.copyOwners.Perm s.rowOwners
  /-- the locks list their owners, but for `NO_WAIT` -/
  listed : cc ≠ .NO_WAIT → s.copy.lock.owners.Perm s.copyOwners ∧ s.row.owners.Perm s.rowOwners
  waiters : s.copy.lock.waiters = s.row.waiters

/-- The locks answer a request alike: what one grants or queues, the other does. -/
def Answer (cc : LockAlg) (ts fts : T → ℕ) (s : Locks T) (t : T) (operation : AccessT) : Prop :=
  ((s.copy.getControl cc fts operation t).1 = .granted ↔
    (lockGet cc ts (lockOf operation) t s.row).1 = .RCOK) ∧
  (⟨getOperationLock operation, t⟩ ∈ (s.copy.getControl cc fts operation t).2.lock.waiters ↔
    (lockGet cc ts (lockOf operation) t s.row).1 = .WAIT)

/-- Both locks get the same calls; `ts` and `fts` are the timestamps of the engine and of the
framework. A call of the copy that sleeps leaves it with the latch. -/
def machine [DecidableEq T] (cc : LockAlg) (ts fts : T → ℕ) : Machine (Locks T) (Call T) where
  init := ⟨.init, [], .init (), []⟩
  step s
    | .request t operation =>
      let (rc, row) := lockGet cc ts (lockOf operation) t s.row
      let (control, copy) := s.copy.getControl cc fts operation t
      some {
        row, copy
        rowOwners := if rc = .RCOK then ⟨lockOf operation, t⟩ :: s.rowOwners else s.rowOwners
        copyOwners :=
          if control = .granted then ⟨getOperationLock operation, t⟩ :: s.copyOwners
          else s.copyOwners }
    | .release t => do
      let (row, granted) ← lockRelease cc ts false t s.row
      let (stop, copy, granted') := s.copy.releaseControl cc fts t
      if stop = some .died then none
      else some {
        row, copy
        rowOwners := granted.reverse ++ s.rowOwners.eraseP fun en => en.txn = t
        copyOwners :=
          if s.copy.latched then s.copyOwners
          else granted' ++ s.copyOwners.eraseP fun en => en.txn = t }

/-! ## As long as nobody waits -/

/-- The copy differs in `max_owner_ts` at most, and nobody waits. -/
structure Copied (cc : LockAlg) (s : Locks T) : Prop where
  copy : ∃ m, s.copy.lock = { s.row with maxOwnerTs := m }
  awake : s.copy.latched = false
  owners : s.copyOwners = s.rowOwners
  represents : Represents cc s.row s.rowOwners
  waiters : s.row.waiters = []

theorem getOperationLock_eq {operation : AccessT} (h : operation = .RD ∨ operation = .WR) :
    getOperationLock operation = lockOf operation := by
  rcases h with rfl | rfl <;> rfl

variable {cc : LockAlg} {ts fts : T → ℕ} {s : Locks T} {t : T} {operation : AccessT}

/-- The row refuses a request that need not wait where the modes conflict, and grants it
otherwise. -/
theorem Copied.lockGet_eq (hts : ∀ t t', fts t < fts t' ↔ ts t < ts t') (h : Copied cc s)
    (hop : operation = .RD ∨ operation = .WR) (hm : s.copy.mustWait cc fts operation t = false) :
    lockGet cc ts (lockOf operation) t s.row =
      if conflictLock s.row.lockType (lockOf operation) then (.Abort, s.row)
      else (.RCOK, s.row.grant cc ts ⟨lockOf operation, t⟩) := by
  obtain ⟨m, hcopy⟩ := h.copy
  simp only [CCLock.mustWait, hcopy, CCLock.conflictLock_eq, getOperationLock_eq hop, gt_iff_lt,
    hts] at hm
  have hconflict : conflict cc ts (lockOf operation) t s.row =
      conflictLock s.row.lockType (lockOf operation) := by
    unfold conflict
    rw [h.waiters]
    cases cc <;> simp
  unfold lockGet
  rw [hconflict]
  cases hc : conflictLock s.row.lockType (lockOf operation) with
  | false => rfl
  | true =>
    rw [hc, Bool.true_and] at hm
    cases cc with
    | NO_WAIT => rfl
    | WAIT_DIE =>
      have hwait : canWait ts t s.row = false := by
        rw [canWait, ← not_any_eq_all_not]
        exact hm
      simp [hwait]
    | CALVIN => cases hm

/-- The copy does the same. -/
theorem Copied.getControl_eq (h : Copied cc s) (hop : operation = .RD ∨ operation = .WR)
    (hm : s.copy.mustWait cc fts operation t = false) :
    s.copy.getControl cc fts operation t =
      if conflictLock s.row.lockType (lockOf operation) then (.refused, s.copy)
      else (.granted,
        { s.copy with lock := s.copy.lock.grant cc fts ⟨lockOf operation, t⟩ }) := by
  obtain ⟨m, hcopy⟩ := h.copy
  have hidle : s.copy.lock.waiters = [] ∧ s.copy.latched = false := by
    rw [hcopy]
    exact ⟨h.waiters, h.awake⟩
  rw [CCLock.getControl_eq hidle hm, CCLock.conflictLock_eq, getOperationLock_eq hop, hcopy]

theorem Copied.agree (h : Copied cc s) : Agree cc s := by
  obtain ⟨m, hcopy⟩ := h.copy
  refine ⟨by rw [hcopy], .of_eq h.owners, fun hcc => ?_, by rw [hcopy]⟩
  rw [hcopy, h.owners, h.represents.listed hcc]
  exact ⟨.rfl, .rfl⟩

theorem Copied.answer (hts : ∀ t t', fts t < fts t' ↔ ts t < ts t') (h : Copied cc s)
    (hop : operation = .RD ∨ operation = .WR) (hm : s.copy.mustWait cc fts operation t = false) :
    Answer cc ts fts s t operation := by
  obtain ⟨m, hcopy⟩ := h.copy
  rw [Answer, h.lockGet_eq hts hop hm, h.getControl_eq hop hm]
  split <;> simp [hcopy, h.waiters]

variable [DecidableEq T]

instance Proper.decidable (s : Locks T) : ∀ a, Decidable (Proper s a)
  | .request .. => inferInstanceAs (Decidable (_ ∧ _))
  | .release _ => inferInstanceAs (Decidable (∃ en ∈ s.rowOwners, _))

instance Prompt.decidable (cc : LockAlg) (fts : T → ℕ) (s : Locks T) :
    ∀ a, Decidable (Prompt cc fts s a)
  | .request .. => inferInstanceAs (Decidable (_ = _))
  | .release _ => inferInstanceAs (Decidable True)

/-- `max_owner_ts` does not matter to a release. -/
theorem dropOwner_maxOwnerTs {l l' : RowLock T} (h : dropOwner cc t l = some l') (m : ℕ) :
    dropOwner cc t { l with maxOwnerTs := m } = some { l' with maxOwnerTs := m } := by
  cases cc <;> grind [dropOwner]

/-- One call keeps the copy. -/
theorem Copied.step (hts : ∀ t t', fts t < fts t' ↔ ts t < ts t') (h : Copied cc s) {a : Call T}
    (hok : Proper s a) (hp : Prompt cc fts s a) :
    ∃ s', (machine cc ts fts).step s a = some s' ∧ Copied cc s' := by
  obtain ⟨m, hcopy⟩ := h.copy
  cases a with
  | request t operation =>
    simp only [machine, h.lockGet_eq hts hok.1 hp, h.getControl_eq hok.1 hp,
      getOperationLock_eq hok.1, h.owners, some.injEq, exists_eq_left']
    cases hc : conflictLock s.row.lockType (lockOf operation) with
    | true => exact ⟨h.copy, h.awake, rfl, h.represents, h.waiters⟩
    | false =>
      have hrep := (h.represents.grant ts ⟨lockOf operation, t⟩ (lockOf_ne_none operation) hc).1
      have hgrant : s.copy.lock.grant cc fts ⟨lockOf operation, t⟩ =
          { s.row.grant cc ts ⟨lockOf operation, t⟩ with
            maxOwnerTs := if m < fts t then fts t else m } := by rw [hcopy]; rfl
      exact ⟨⟨_, hgrant⟩, h.awake, rfl, hrep, h.waiters⟩
  | release t =>
    obtain ⟨l', hdrop, hw, hrep⟩ := dropOwner_spec h.represents hok
    have hnil : l'.waiters = [] := hw.trans h.waiters
    have hcnt : 0 < s.copy.lock.ownerCnt := by
      obtain ⟨en, hmem, -⟩ := hok
      rw [hcopy]
      exact h.represents.count ▸ length_pos_of_mem hmem
    have hdrop' : dropOwner cc t s.copy.lock = some { l' with maxOwnerTs := m } := by
      rw [hcopy]
      exact dropOwner_maxOwnerTs hdrop m
    have hrel := CCLock.releaseControl_eq fts h.awake hcnt hdrop' hnil
    refine ⟨⟨l', s.rowOwners.eraseP fun en => en.txn = t,
      { s.copy with lock := { l' with maxOwnerTs := m } },
      s.copyOwners.eraseP fun en => en.txn = t⟩, ?_, ⟨m, rfl⟩, h.awake, ?_, hrep, hnil⟩
    · have hrow : lockRelease cc ts false t s.row = some (l', []) := by
        rw [lockRelease, if_neg (by simp), hdrop, map_some, hnil, promote, ← hnil]
      simp [machine, hrow, hrel, h.awake]
    · rw [h.owners]

/-- **The framework's lock is a faithful copy of the row lock as long as nobody waits.** After any
calls of which no request had to wait the locks agree in mode, owners and waiters; the next call
comes back from both, and a request that need not wait is answered by both alike. -/
theorem copy_faithful (cc : LockAlg) (ts fts : T → ℕ) (hts : ∀ t t', fts t < fts t' ↔ ts t < ts t')
    {s : Locks T}
    (hs : (machine cc ts fts).ReachableVia (fun s a => Proper s a ∧ Prompt cc fts s a) s) :
    Agree cc s ∧ ∀ a, Proper s a → Prompt cc fts s a → ((machine cc ts fts).step s a).isSome ∧
      ∀ t operation, a = .request t operation → Answer cc ts fts s t operation := by
  have hcopied : Copied cc s := by
    refine Machine.ReachableVia.invariant ?_ ?_ hs
    · exact ⟨⟨0, rfl⟩, rfl, rfl, represents_init cc, rfl⟩
    · intro s a s' _ h hok hstep
      obtain ⟨s'', heq, h'⟩ := h.step hts hok.1 hok.2
      exact some.inj (heq.symm.trans hstep) ▸ h'
  refine ⟨hcopied.agree, fun a hok hp => ⟨?_, ?_⟩⟩
  · obtain ⟨s', heq, -⟩ := hcopied.step hts hok hp
    exact isSome_of_eq_some heq
  · rintro t operation rfl
    exact hcopied.answer hts hok.1 hp

/-- Two timestamps for two transactions; `true` is the older one. -/
def engineTs (t : Bool) : ℕ := bif t then 3 else 8

def frameworkTs (t : Bool) : ℕ := bif t then 1 else 2

/-- Under `WAIT_DIE` the younger transaction is refused, and shares the lock with the older one
once that has written and left. -/
def refusedThenShared : List (Call Bool) :=
  [.request true .WR, .request false .RD, .release true, .request false .RD, .request true .RD]

theorem copy_faithful_refusedThenShared :
    ∃ s, (machine .WAIT_DIE engineTs frameworkTs).run refusedThenShared = some s ∧
      s.copyOwners = [⟨.SH, true⟩, ⟨.SH, false⟩] ∧ Agree .WAIT_DIE s := by
  obtain ⟨s, hs, howners⟩ : ∃ s ∈ (machine .WAIT_DIE engineTs frameworkTs).run refusedThenShared,
      s.copyOwners = [⟨.SH, true⟩, ⟨.SH, false⟩] := by decide
  exact ⟨s, hs, howners, (copy_faithful _ _ _ (by decide) (.of_run (by decide) hs)).1⟩

/-- **The copy is not faithful to a request that waits.** An older reader has to wait for a younger
writer. The row puts it into its list of waiters; `getControl` sleeps before it does so, with the
latch, and the release of the writer does not get past it: the row has the reader as its owner then,
and the copy still the writer. -/
theorem not_faithful :
    (∃ s ∈ (machine .WAIT_DIE engineTs frameworkTs).run [.request false .WR, .request true .RD],
      s.row.waiters = [⟨.SH, true⟩] ∧ s.copy.lock.waiters = [] ∧ ¬ Agree .WAIT_DIE s) ∧
    ∃ s ∈ (machine .WAIT_DIE engineTs frameworkTs).run
        [.request false .WR, .request true .RD, .release false],
      s.rowOwners = [⟨.SH, true⟩] ∧ s.copyOwners = [⟨.EX, false⟩] ∧ ¬ Agree .WAIT_DIE s := by
  have hwait : ∃ s ∈ (machine .WAIT_DIE engineTs frameworkTs).run
      [.request false .WR, .request true .RD],
      s.row.waiters = [⟨.SH, true⟩] ∧ s.copy.lock.waiters = [] := by decide
  have hleft : ∃ s ∈ (machine .WAIT_DIE engineTs frameworkTs).run
      [.request false .WR, .request true .RD, .release false],
      s.rowOwners = [⟨.SH, true⟩] ∧ s.copyOwners = [⟨.EX, false⟩] := by decide
  obtain ⟨s₁, hs₁, hrow, hcopy⟩ := hwait
  obtain ⟨s₂, hs₂, hrow₂, hcopy₂⟩ := hleft
  refine ⟨⟨s₁, hs₁, hrow, hcopy, fun h => ?_⟩, s₂, hs₂, hrow₂, hcopy₂, fun h => ?_⟩
  · have := h.waiters
    rw [hrow, hcopy] at this
    cases this
  · have := h.owners
    rw [hrow₂, hcopy₂, perm_singleton] at this
    cases this

end FrameworkLockCopy

end Deneva
