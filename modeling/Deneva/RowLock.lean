import Deneva.Types

/-!
# The row lock (`concurrency_control/row_lock.cpp`)

One lock manager per row, shared by `NO_WAIT`, `WAIT_DIE` and `CALVIN`. The
model follows `Row_lock`:

* `owners` is the single bucket of the owner table (`owners_size` is `1`, so
  `hash` is constantly `0`), most recent owner first. `NO_WAIT` never pushes an
  owner; there only `ownerCnt` and `lockType` record who holds the row.
* `waiters` is the doubly linked list from `waiters_head` to `waiters_tail`.
* `lockGet` and `lockRelease` are the two latched sections. The transactions
  whose requests `lockRelease` grants are returned in the order the loop grants
  them, and `LockReady` is the part of a `TxnManager` that both sections write.

An assertion of the source that fails is `none`: the process dies there.

The second half says what the two operations do to the *set of holders*. Since
`NO_WAIT` keeps no owner list, the holders are a list `H` beside the lock and
`Represents` says that the lock is a correct summary of it.
-/

namespace Deneva

universe u

open List

/-- The values of `CC_ALG` that use row locks. -/
inductive LockAlg : Type where
  | NO_WAIT | WAIT_DIE | CALVIN
  deriving DecidableEq

/-- `LockEntry`: a request of a transaction for a mode. -/
structure LockEntry (T : Type u) : Type u where
  /-- the requested mode -/
  type : LockT
  /-- the requesting transaction -/
  txn : T
  deriving DecidableEq

/-- `Row_lock`. -/
structure RowLock (T : Type u) : Type u where
  /-- the mode the row is held in -/
  lockType : LockT
  /-- the number of owners -/
  ownerCnt : ℕ
  /-- the number of waiters -/
  waiterCnt : ℕ
  /-- the owner list (not maintained by `NO_WAIT`) -/
  owners : List (LockEntry T)
  /-- the waiter list from `waiters_head` on -/
  waiters : List (LockEntry T)
  /-- the largest timestamp that ever owned the row -/
  maxOwnerTs : ℕ
  deriving DecidableEq

/-- `Row_lock::init`. -/
def RowLock.init {T : Type u} : RowLock T := ⟨.NONE, 0, 0, [], [], 0⟩

/-- The mode `row_t::get_row` and `row_t::get_lock` request for an access. -/
def lockOf (a : AccessT) : LockT := if a = .RD ∨ a = .SCAN then .SH else .EX

theorem lockOf_ne_none (a : AccessT) : lockOf a ≠ .NONE := by
  cases a <;> decide

/-- `Row_lock::conflict_lock`. -/
def conflictLock (l1 l2 : LockT) : Bool :=
  if l1 = .NONE ∨ l2 = .NONE then false
  else if l1 = .EX ∨ l2 = .EX then true
  else false

/-- The fields of a `TxnManager` that say whether its lock requests are granted. -/
structure LockReady where
  lockReady : Bool
  /-- `lock_ready_cnt`: requests that still wait -/
  lockReadyCnt : ℕ
  deriving DecidableEq

/-- A request starts to wait: `ATOM_CAS(lock_ready,1,0)` and `incr_lr`. -/
def LockReady.wait (x : LockReady) : LockReady := ⟨false, x.lockReadyCnt + 1⟩

/-- A waiting request is granted: `decr_lr`, and when no request is left the
compare-and-swap of `lock_ready`; the flag says whether `restart_txn` is called. -/
def LockReady.wake (x : LockReady) : LockReady × Bool :=
  if x.lockReadyCnt - 1 = 0 ∧ x.lockReady = false then (⟨true, x.lockReadyCnt - 1⟩, true)
  else (⟨x.lockReady, x.lockReadyCnt - 1⟩, false)

namespace RowLock

variable {T : Type u}

/-- An entry joins the owners: the common tail of `lock_get` and of the loop of
`lock_release`. -/
def grant (cc : LockAlg) (ts : T → ℕ) (en : LockEntry T) (l : RowLock T) : RowLock T :=
  { l with
    owners := if cc = .NO_WAIT then l.owners else en :: l.owners
    maxOwnerTs := if l.maxOwnerTs < ts en.txn then ts en.txn else l.maxOwnerTs
    ownerCnt := l.ownerCnt + 1
    lockType := en.type }

/-- The conflict test of `lock_get`: the modes, and under `WAIT_DIE` and `CALVIN`
the head of the waiter list. -/
def conflict (cc : LockAlg) (ts : T → ℕ) (type : LockT) (txn : T) (l : RowLock T) : Bool :=
  conflictLock l.lockType type ||
    match cc, l.waiters with
    | .WAIT_DIE, w :: _ => decide (ts txn < ts w.txn)
    | .CALVIN, _ :: _ => true
    | _, _ => false

/-- `canwait`: no owner has a smaller timestamp. -/
def canWait (ts : T → ℕ) (txn : T) (l : RowLock T) : Bool :=
  l.owners.all fun en => !decide (ts en.txn < ts txn)

/-- Insert before the first waiter whose timestamp is not greater. -/
def insertWaiter (ts : T → ℕ) (e : LockEntry T) : List (LockEntry T) → List (LockEntry T)
  | [] => [e]
  | en :: rest => if ts e.txn < ts en.txn then en :: insertWaiter ts e rest else e :: en :: rest

/-- `Row_lock::lock_get`. Its assertions say that the requester is no owner of the
row yet, which its callers guarantee, and that a row with owners is joined in the
shared mode only (`lockGet_spec`). -/
def lockGet (cc : LockAlg) (ts : T → ℕ) (type : LockT) (txn : T) (l : RowLock T) : RC × RowLock T :=
  if conflict cc ts type txn l then
    match cc with
    | .NO_WAIT => (.Abort, l)
    | .WAIT_DIE =>
      if canWait ts txn l then
        (.WAIT, { l with waiters := insertWaiter ts ⟨type, txn⟩ l.waiters
                         waiterCnt := l.waiterCnt + 1 })
      else (.Abort, l)
    | .CALVIN =>
      (.WAIT, { l with waiters := l.waiters ++ [⟨type, txn⟩], waiterCnt := l.waiterCnt + 1 })
  else (.RCOK, grant cc ts ⟨type, txn⟩ l)

/-- The loop of `lock_release`: while the head of the waiter list does not
conflict with the mode of the row, it joins the owners. Returns the entries
granted, in order. -/
def promote (cc : LockAlg) (ts : T → ℕ) :
    List (LockEntry T) → RowLock T → RowLock T × List (LockEntry T)
  | [], l => ({ l with waiters := [] }, [])
  | w :: ws, l =>
    if conflictLock l.lockType w.type then ({ l with waiters := w :: ws }, [])
    else
      let r := promote cc ts ws (grant cc ts w { l with waiterCnt := l.waiterCnt - 1 })
      (r.1, w :: r.2)

variable [DecidableEq T]

/-- The first part of `lock_release`: the transaction leaves the owners. `NO_WAIT`
only counts; the others must find their entry. -/
def dropOwner (cc : LockAlg) (txn : T) (l : RowLock T) : Option (RowLock T) :=
  match cc with
  | .NO_WAIT =>
    if 0 < l.ownerCnt then
      some { l with ownerCnt := l.ownerCnt - 1
                    lockType := if l.ownerCnt - 1 = 0 then .NONE else l.lockType }
    else none
  | _ =>
    if l.owners.any fun en => decide (en.txn = txn) then
      some { l with owners := l.owners.eraseP fun en => decide (en.txn = txn)
                    ownerCnt := l.ownerCnt - 1
                    lockType := if l.ownerCnt - 1 = 0 then .NONE else l.lockType }
    else none

/-- `Row_lock::lock_release`; `recon` is the early exit of Calvin's
reconnaissance transactions. -/
def lockRelease (cc : LockAlg) (ts : T → ℕ) (recon : Bool) (txn : T) (l : RowLock T) :
    Option (RowLock T × List (LockEntry T)) :=
  if cc = .CALVIN ∧ recon = true then some (l, [])
  else (dropOwner cc txn l).map fun l' => promote cc ts l'.waiters l'

/-! ## What the operations do to the holders -/

omit [DecidableEq T] in
/-- The lock is a correct summary of the list `H` of requests that hold the row. -/
structure Represents (cc : LockAlg) (l : RowLock T) (H : List (LockEntry T)) : Prop where
  /-- `owner_cnt` counts the holders -/
  count : l.ownerCnt = H.length
  /-- all holders hold the row in the mode of the lock -/
  mode : ∀ e ∈ H, e.type = l.lockType
  /-- holders hold the row in a proper mode -/
  proper : ∀ e ∈ H, e.type ≠ .NONE
  /-- a row without holders is in no mode -/
  free : H = [] → l.lockType = .NONE
  /-- the exclusive mode has one holder -/
  excl : l.lockType = .EX → H.length ≤ 1
  /-- the owner list is the list of holders, except under `NO_WAIT` -/
  listed : cc ≠ .NO_WAIT → l.owners = H
  /-- nobody waits under `NO_WAIT` -/
  noWait : cc = .NO_WAIT → l.waiters = []

omit [DecidableEq T] in
theorem represents_init (cc : LockAlg) : Represents cc (RowLock.init : RowLock T) [] :=
  ⟨rfl, by simp, by simp, fun _ => rfl, by simp [RowLock.init], fun _ => rfl, fun _ => rfl⟩

theorem conflictLock_false {l1 l2 : LockT} (h : conflictLock l1 l2 = false) (h2 : l2 ≠ .NONE) :
    l1 = .NONE ∨ (l1 = .SH ∧ l2 = .SH) := by
  cases l1 <;> cases l2 <;> simp_all [conflictLock]

variable {cc : LockAlg} {l : RowLock T} {H : List (LockEntry T)} {txn : T}

omit [DecidableEq T] in
/-- Granting an entry whose mode does not conflict adds it to the holders, and
then every holder shares. -/
theorem Represents.grant (ts : T → ℕ) (hR : Represents cc l H) (e : LockEntry T)
    (he : e.type ≠ .NONE) (hc : conflictLock l.lockType e.type = false) :
    Represents cc (l.grant cc ts e) (e :: H) ∧ ∀ x ∈ H, x.type = .SH ∧ e.type = .SH := by
  rcases conflictLock_false hc he with hnone | ⟨hl, hs⟩
  · -- the row was free: the entry is its only holder
    have hH : H = [] := by
      cases H with
      | nil => rfl
      | cons x xs =>
        exact absurd ((hR.mode x (by simp)).trans hnone) (hR.proper x (by simp))
    subst hH
    refine ⟨⟨?_, ?_, ?_, ?_, ?_, ?_, hR.noWait⟩, by simp⟩
    · simp [RowLock.grant, hR.count]
    · simp [RowLock.grant]
    · simpa using he
    · simp
    · simp
    · intro hcc
      simp [RowLock.grant, hcc, hR.listed hcc]
  · -- shared with the holders there are
    refine ⟨⟨?_, ?_, ?_, ?_, ?_, ?_, hR.noWait⟩, fun x hx => ⟨(hR.mode x hx).trans hl, hs⟩⟩
    · simp [RowLock.grant, hR.count]
    · intro x hx
      rcases mem_cons.mp hx with rfl | hx
      · rfl
      · exact ((hR.mode x hx).trans hl).trans hs.symm
    · intro x hx
      rcases mem_cons.mp hx with rfl | hx
      · exact he
      · exact hR.proper x hx
    · simp
    · intro hex
      exact absurd (hs.symm.trans hex) (by decide)
    · intro hcc
      simp [RowLock.grant, hcc, hR.listed hcc]

omit [DecidableEq T] in
@[simp] theorem grant_waiters (cc : LockAlg) (ts : T → ℕ) (e : LockEntry T) (l : RowLock T) :
    (l.grant cc ts e).waiters = l.waiters := rfl

omit [DecidableEq T] in
/-- Whoever waits is irrelevant to who holds, except that `NO_WAIT` has no waiters. -/
theorem Represents.setWaiters (hR : Represents cc l H) {ws : List (LockEntry T)} {n : ℕ}
    (hws : cc = .NO_WAIT → ws = []) : Represents cc { l with waiters := ws, waiterCnt := n } H :=
  ⟨hR.count, hR.mode, hR.proper, hR.free, hR.excl, hR.listed, hws⟩

omit [DecidableEq T] in
theorem insertWaiter_perm (ts : T → ℕ) (e : LockEntry T) (ws : List (LockEntry T)) :
    (insertWaiter ts e ws).Perm (e :: ws) := by
  induction ws with
  | nil => exact .refl _
  | cons w ws ih =>
    rw [insertWaiter]
    split
    · exact (ih.cons w).trans (.swap e w ws)
    · exact .refl _

omit [DecidableEq T] in
/-- **What `lock_get` answers.** `RCOK` adds the request to the holders, all of
whom then share; `WAIT` adds it to the waiters; `Abort` changes nothing. -/
theorem lockGet_spec {ts : T → ℕ} {type : LockT} {l' : RowLock T} {rc : RC} (hR : Represents cc l H)
    (ht : type ≠ .NONE) (h : lockGet cc ts type txn l = (rc, l')) :
    (rc = .RCOK ∧ Represents cc l' (⟨type, txn⟩ :: H) ∧ l'.waiters = l.waiters ∧
        ∀ x ∈ H, x.type = .SH ∧ type = .SH) ∨
      (rc = .WAIT ∧ Represents cc l' H ∧ cc ≠ .NO_WAIT ∧
        l'.waiters.Perm (⟨type, txn⟩ :: l.waiters)) ∨
      (rc = .Abort ∧ l' = l) := by
  unfold lockGet at h
  by_cases hc : conflict cc ts type txn l = true
  · rw [if_pos hc] at h
    cases cc with
    | NO_WAIT =>
      obtain ⟨rfl, rfl⟩ := Prod.mk.inj h
      exact .inr (.inr ⟨rfl, rfl⟩)
    | WAIT_DIE =>
      dsimp only at h
      split at h
      · obtain ⟨rfl, rfl⟩ := Prod.mk.inj h
        exact .inr (.inl ⟨rfl, hR.setWaiters (by simp), by simp, insertWaiter_perm ..⟩)
      · obtain ⟨rfl, rfl⟩ := Prod.mk.inj h
        exact .inr (.inr ⟨rfl, rfl⟩)
    | CALVIN =>
      obtain ⟨rfl, rfl⟩ := Prod.mk.inj h
      exact .inr (.inl ⟨rfl, hR.setWaiters (by simp), by simp, perm_append_singleton ..⟩)
  · rw [if_neg hc] at h
    obtain ⟨rfl, rfl⟩ := Prod.mk.inj h
    have hcl : conflictLock l.lockType type = false := by
      have hfalse := Bool.eq_false_iff.mpr hc
      unfold conflict at hfalse
      exact (Bool.or_eq_false_iff.mp hfalse).1
    obtain ⟨hR', hsh⟩ := hR.grant ts ⟨type, txn⟩ ht hcl
    exact .inl ⟨rfl, hR', rfl, hsh⟩

/-- The transaction `txn` leaves the holders. -/
theorem dropOwner_spec (hR : Represents cc l H) (hmem : ∃ e ∈ H, e.txn = txn) :
    ∃ l', dropOwner cc txn l = some l' ∧ l'.waiters = l.waiters ∧
      Represents cc l' (H.eraseP fun en => decide (en.txn = txn)) := by
  obtain ⟨e, heH, hetxn⟩ := hmem
  have hlen : (H.eraseP fun en => decide (en.txn = txn)).length = H.length - 1 :=
    length_eraseP_of_mem heH (by simpa using hetxn)
  have hpos : 0 < H.length := length_pos_of_mem heH
  -- the summary of the remaining holders, whatever the owner list is
  have key : ∀ l' : RowLock T, l'.ownerCnt = l.ownerCnt - 1 → l'.waiters = l.waiters →
      l'.lockType = (if l.ownerCnt - 1 = 0 then LockT.NONE else l.lockType) →
      (cc ≠ .NO_WAIT → l'.owners = H.eraseP fun en => decide (en.txn = txn)) →
      Represents cc l' (H.eraseP fun en => decide (en.txn = txn)) := by
    intro l' hcnt hw hty hown
    have hsub : ∀ x ∈ H.eraseP (fun en => decide (en.txn = txn)), x ∈ H :=
      fun x hx => mem_of_mem_eraseP hx
    refine ⟨by rw [hcnt, hR.count, hlen], ?_, fun x hx => hR.proper x (hsub x hx), ?_, ?_, hown,
      fun hcc => hw.trans (hR.noWait hcc)⟩
    · intro x hx
      have hne : ¬ l.ownerCnt - 1 = 0 := by
        rw [hR.count, ← hlen]
        exact Nat.pos_iff_ne_zero.mp (length_pos_of_mem hx)
      rw [hty, if_neg hne]
      exact hR.mode x (hsub x hx)
    · intro hnil
      have : l.ownerCnt - 1 = 0 := by rw [hR.count, ← hlen, hnil]; rfl
      rw [hty, if_pos this]
    · intro hex
      rw [hlen]
      by_cases hz : l.ownerCnt - 1 = 0
      · rw [hty, if_pos hz] at hex
        cases hex
      · rw [hty, if_neg hz] at hex
        have := hR.excl hex
        omega
  unfold dropOwner
  cases cc with
  | NO_WAIT =>
    have : 0 < l.ownerCnt := by rw [hR.count]; exact hpos
    simp only [if_pos this]
    exact ⟨_, rfl, rfl, key _ rfl rfl rfl (fun h => absurd rfl h)⟩
  | WAIT_DIE | CALVIN =>
    have hown : l.owners = H := hR.listed (by simp)
    have hany : (l.owners.any fun en => decide (en.txn = txn)) = true := by
      rw [hown, List.any_eq_true]
      exact ⟨e, heH, by simpa using hetxn⟩
    simp only [if_pos hany]
    exact ⟨_, rfl, rfl, key _ rfl rfl rfl (fun _ => by rw [hown])⟩

omit [DecidableEq T] in
/-- The loop of `lock_release` moves a front part of the waiters to the holders. -/
theorem promote_spec (ts : T → ℕ) {ws : List (LockEntry T)}
    (hws : ∀ w ∈ ws, w.type ≠ .NONE) (hcc : cc = .NO_WAIT → ws = []) :
    ∀ {l : RowLock T} {H : List (LockEntry T)}, Represents cc l H →
      ws = (promote cc ts ws l).2 ++ (promote cc ts ws l).1.waiters ∧
      Represents cc (promote cc ts ws l).1 ((promote cc ts ws l).2.reverse ++ H) := by
  induction ws with
  | nil =>
    intro l H hR
    exact ⟨rfl, hR.setWaiters (fun _ => rfl)⟩
  | cons w ws ih =>
    intro l H hR
    rw [promote]
    split
    · exact ⟨rfl, hR.setWaiters hcc⟩
    · rename_i hc
      have hR₀ : Represents cc { l with waiterCnt := l.waiterCnt - 1 } H :=
        hR.setWaiters (fun h => hR.noWait h)
      have hR' := (hR₀.grant ts w (hws w (by simp)) (Bool.eq_false_iff.mpr hc)).1
      obtain ⟨hsplit, hrep⟩ := ih (fun x hx => hws x (mem_cons_of_mem _ hx))
        (fun h => absurd (hcc h) (by simp)) hR'
      refine ⟨congrArg (w :: ·) hsplit, ?_⟩
      simpa using hrep

/-- **What `lock_release` does** for a holder: it leaves, and a front part `ps` of
the waiters joins the holders. -/
theorem lockRelease_spec (ts : T → ℕ) (hR : Represents cc l H)
    (hws : ∀ w ∈ l.waiters, w.type ≠ .NONE) (hmem : ∃ e ∈ H, e.txn = txn) :
    ∃ l' ps, lockRelease cc ts false txn l = some (l', ps) ∧ l.waiters = ps ++ l'.waiters ∧
      Represents cc l' (ps.reverse ++ H.eraseP fun en => decide (en.txn = txn)) := by
  obtain ⟨l₁, hdrop, hw₁, hR₁⟩ := dropOwner_spec hR hmem
  have hws₁ : ∀ w ∈ l₁.waiters, w.type ≠ .NONE := by rwa [hw₁]
  have hspec := promote_spec ts hws₁ hR₁.noWait hR₁
  refine ⟨_, _, ?_, ?_, hspec.2⟩
  · simp [lockRelease, hdrop]
  · rw [← hw₁]
    exact hspec.1

omit [DecidableEq T] in
/-- What `lock_get` answers under `CALVIN`: it grants a request when nobody waits and the modes
agree, and otherwise puts it behind all that wait. -/
theorem lockGet_calvin (ts : T → ℕ) {type : LockT} (txn : T)
    (hR : Represents .CALVIN l H) (ht : type ≠ .NONE) :
    (∃ l', lockGet .CALVIN ts type txn l = (.RCOK, l') ∧ l.waiters = [] ∧ l'.waiters = [] ∧
        Represents .CALVIN l' (⟨type, txn⟩ :: H)) ∨
      ∃ l', lockGet .CALVIN ts type txn l = (.WAIT, l') ∧ l'.waiters = l.waiters ++ [⟨type, txn⟩] ∧
        Represents .CALVIN l' H := by
  cases hc : conflict .CALVIN ts type txn l with
  | true =>
    have hget : lockGet .CALVIN ts type txn l =
        (.WAIT,
          { l with waiters := l.waiters ++ [⟨type, txn⟩], waiterCnt := l.waiterCnt + 1 }) := by
      simp only [lockGet, hc, if_true]
    exact .inr ⟨_, hget, rfl, hR.setWaiters nofun⟩
  | false =>
    have hw : l.waiters = [] := by
      cases hw : l.waiters with
      | nil => rfl
      | cons w ws => simp [conflict, hw] at hc
    have hmode : conflictLock l.lockType type = false := (Bool.or_eq_false_iff.mp hc).1
    have hget : lockGet .CALVIN ts type txn l = (.RCOK, l.grant .CALVIN ts ⟨type, txn⟩) := by
      simp only [lockGet, hc, Bool.false_eq_true, if_false]
    exact .inl ⟨_, hget, hw, hw, (hR.grant ts ⟨type, txn⟩ ht hmode).1⟩

end RowLock

end Deneva
