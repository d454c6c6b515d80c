import Deneva.WaitDie

/-!
# What a row lock always satisfies, and its assertions

`lock_get` and `lock_release` are called on the rows of a table by any number of transactions, where
a transaction requests a row only if it neither owns it nor waits for it, and releases only what it
owns. Under `CALVIN` it may wait for several rows at a time; `acquire_locks` counts in
`lock_ready_cnt` too, while it is at work. Here the assertions of both functions are written down
beside them (`getAsserts`, `releaseAsserts`): a call that fails one sets `failed`.

* `RowInv` is the invariant of a row, with the list of those who hold it. `RowInv.get` and
  `RowInv.release` keep it; that the head waiter stays blocked is kept because a grant that
  overtakes the list does not change the mode, and because the loop of `lock_release` stops at a
  conflict only.
* `Inv` adds what `lock_ready` and `lock_ready_cnt` say about the lists.
-/

namespace Deneva

universe u v

open Function List Option

namespace RowLock

variable {T : Type u} [DecidableEq T]

/-! ## The assertions -/

/-- The assertions in the loop of `lock_get` over the owners; it ends at an owner that is older. -/
def ownerAsserts (ts : T → ℕ) (txn : T) : List (LockEntry T) → Bool
  | [] => true
  | en :: rest =>
    decide (txn ≠ en.txn) && decide (ts txn ≠ ts en.txn) &&
      (decide (ts en.txn < ts txn) || ownerAsserts ts txn rest)

/-- The assertions of `lock_get`. -/
def getAsserts (cc : LockAlg) (ts : T → ℕ) (type : LockT) (txn : T) (l : RowLock T) : Bool :=
  if conflict cc ts type txn l then
    match cc with
    | .WAIT_DIE => ownerAsserts ts txn l.owners
    | .NO_WAIT | .CALVIN => true
  else decide (0 < l.ownerCnt → type = .SH)

/-- The assertion `lock_ready == false` for each entry that the loop of `lock_release` grants. -/
def wakeAsserts : List (LockEntry T) → (T → LockReady) → Bool
  | [], _ => true
  | e :: es, rd =>
    decide ((rd e.txn).lockReady = false) && wakeAsserts es (update rd e.txn (rd e.txn).wake.1)

/-- The assertions of `lock_release`, those of `DEBUG_ASSERT` among them. -/
def releaseAsserts (cc : LockAlg) (ts : T → ℕ) (recon : Bool) (txn : T) (rd : T → LockReady)
    (l : RowLock T) : Bool :=
  if cc = .CALVIN ∧ recon = true then true
  else
    match dropOwner cc txn l with
    | none => false
    | some l' =>
      decide (l'.ownerCnt = 0 → l'.lockType = .NONE) &&
      decide (cc = .WAIT_DIE → l'.waiters.IsChain fun en next => ts next.txn < ts en.txn) &&
      decide (cc = .WAIT_DIE → ∀ en ∈ l'.waiters.dropLast, en.txn ≠ txn) &&
      wakeAsserts (promote cc ts l'.waiters l').2 rd

/-! ## One row -/

/-- The invariant of a row that the requests `H` hold. -/
structure RowInv (cc : LockAlg) (ts : T → ℕ) (l : RowLock T) (H : List (LockEntry T)) : Prop where
  /-- the lock summarises its holders -/
  rep : Represents cc l H
  /-- `waiter_cnt` counts the waiters -/
  waiterCnt : l.waiterCnt = l.waiters.length
  /-- waiters wait for a proper mode -/
  proper : ∀ w ∈ l.waiters, w.type ≠ .NONE
  /-- a transaction waits once -/
  nodup : (l.waiters.map LockEntry.txn).Nodup
  /-- a waiter is no holder -/
  disjoint : ∀ w ∈ l.waiters, ∀ e ∈ H, e.txn ≠ w.txn
  /-- the order of `WAIT_DIE` -/
  ordered : cc = .WAIT_DIE → Ordered ts l
  /-- the head waiter conflicts with the mode -/
  blocked : ∀ w ∈ l.waiters.head?, conflictLock l.lockType w.type = true

variable {cc : LockAlg} {ts : T → ℕ} {type : LockT} {txn : T} {l : RowLock T}
  {H : List (LockEntry T)}

omit [DecidableEq T] in
theorem rowInv_init : RowInv cc ts (RowLock.init : RowLock T) [] where
  rep := represents_init cc
  waiterCnt := rfl
  proper := nofun
  nodup := nodup_nil
  disjoint := nofun
  ordered _ := ordered_init
  blocked := nofun

omit [DecidableEq T] in
/-- The mode says who holds the row. -/
theorem Represents.lockType_iff (h : Represents cc l H) :
    (l.lockType = .NONE ↔ H = []) ∧ (l.lockType = .EX ↔ ∃ t, H = [⟨.EX, t⟩]) ∧
      (l.lockType = .SH ↔ H ≠ [] ∧ ∀ e ∈ H, e.type = .SH) := by
  cases H with
  | nil => simp [h.free rfl]
  | cons e es =>
    have hmode : e.type = l.lockType := h.mode e mem_cons_self
    have hne : l.lockType ≠ .NONE := hmode ▸ h.proper e mem_cons_self
    refine ⟨iff_of_false hne (cons_ne_nil e es), ?_, ?_⟩
    · constructor
      · intro hex
        have hlength := h.excl hex
        rw [length_cons] at hlength
        have hes : es = [] := length_eq_zero_iff.mp (by omega)
        exact ⟨e.txn, by rw [hes, ← hmode.trans hex]⟩
      · rintro ⟨t, ht⟩
        rw [← hmode, (List.cons.inj ht).1]
    · constructor
      · intro hsh
        exact ⟨cons_ne_nil e es, fun x hx => (h.mode x hx).trans hsh⟩
      · rintro ⟨-, hall⟩
        rw [← hmode]
        exact hall e mem_cons_self

/-- The loop over the owners fails no assertion for a transaction that is none of them. -/
theorem ownerAsserts_of_ne (hts : Injective ts) {owners : List (LockEntry T)}
    (hne : ∀ e ∈ owners, e.txn ≠ txn) : ownerAsserts ts txn owners = true := by
  induction owners with
  | nil => rfl
  | cons en rest ih =>
    have hen : txn ≠ en.txn := (hne en mem_cons_self).symm
    have hts' : ts txn ≠ ts en.txn := fun h => hen (hts h)
    rw [ownerAsserts, ih fun e he => hne e (mem_cons_of_mem _ he)]
    simp [hen, hts']

omit [DecidableEq T] in
/-- A request that does not conflict with the mode of a row with a blocked waiter leaves the
mode. -/
theorem lockType_eq_of_blocked {t : LockT} (hblocked : conflictLock l.lockType t = true)
    (htype : type ≠ .NONE) (h : conflictLock l.lockType type = false) : type = l.lockType := by
  rcases conflictLock_false h htype with hnone | ⟨hl, hsh⟩
  · simp [hnone, conflictLock] at hblocked
  · rw [hl, hsh]

omit [DecidableEq T] in
/-- A granted request: it overtakes waiters only without changing the mode. -/
theorem RowInv.grant (h : RowInv cc ts l H) (htype : type ≠ .NONE)
    (hwait : ∀ w ∈ l.waiters, w.txn ≠ txn) (hmode : conflictLock l.lockType type = false)
    (hord : cc = .WAIT_DIE → Ordered ts (l.grant cc ts ⟨type, txn⟩)) :
    RowInv cc ts (l.grant cc ts ⟨type, txn⟩) (⟨type, txn⟩ :: H) where
  rep := (h.rep.grant ts ⟨type, txn⟩ htype hmode).1
  waiterCnt := h.waiterCnt
  proper := h.proper
  nodup := h.nodup
  disjoint w hw e he := by
    rcases mem_cons.mp he with rfl | he
    · exact (hwait w hw).symm
    · exact h.disjoint w hw e he
  ordered := hord
  blocked w hw := by
    have hblocked := h.blocked w hw
    rw [← lockType_eq_of_blocked hblocked htype hmode] at hblocked
    exact hblocked

omit [DecidableEq T] in
/-- A request that joins the waiters as `ws`, behind their head or in conflict with the mode. -/
theorem RowInv.enqueue (h : RowInv cc ts l H) (hcc : cc ≠ .NO_WAIT) (htype : type ≠ .NONE)
    (hown : ∀ e ∈ H, e.txn ≠ txn) (hwait : ∀ w ∈ l.waiters, w.txn ≠ txn) {ws : List (LockEntry T)}
    (hws : ws.Perm (⟨type, txn⟩ :: l.waiters))
    (hord : cc = .WAIT_DIE → Ordered ts { l with waiters := ws, waiterCnt := l.waiterCnt + 1 })
    (hhead : ws.head? = l.waiters.head? ∧ l.waiters ≠ [] ∨
      ws.head? = some ⟨type, txn⟩ ∧ conflictLock l.lockType type = true) :
    RowInv cc ts { l with waiters := ws, waiterCnt := l.waiterCnt + 1 } H where
  rep := h.rep.setWaiters fun hno => absurd hno hcc
  waiterCnt := by
    rw [hws.length_eq, length_cons, h.waiterCnt]
  proper w hw := by
    rcases mem_cons.mp (hws.mem_iff.mp hw) with rfl | hw
    · exact htype
    · exact h.proper w hw
  nodup := by
    rw [(hws.map LockEntry.txn).nodup_iff, map_cons, nodup_cons]
    refine ⟨fun hmem => ?_, h.nodup⟩
    obtain ⟨w, hw, hwt⟩ := List.mem_map.mp hmem
    exact hwait w hw hwt
  disjoint w hw e he := by
    rcases mem_cons.mp (hws.mem_iff.mp hw) with rfl | hw
    · exact hown e he
    · exact h.disjoint w hw e he
  ordered := hord
  blocked w hw := by
    replace hw : w ∈ ws.head? := hw
    rcases hhead with ⟨hhead, -⟩ | ⟨hhead, hconf⟩
    · rw [hhead] at hw
      exact h.blocked w hw
    · rw [hhead] at hw
      cases hw
      exact hconf

omit [DecidableEq T] in
/-- `insertWaiter` puts a request at the head only if it is not older than the head. -/
theorem head?_insertWaiter (e w : LockEntry T) (ws : List (LockEntry T)) :
    (insertWaiter ts e (w :: ws)).head? = if ts e.txn < ts w.txn then some w else some e := by
  rw [insertWaiter]
  split <;> rfl

/-- What a call of `lock_get` leaves, with the holders after it. -/
def holdersAfter (rc : RC) (e : LockEntry T) (H : List (LockEntry T)) : List (LockEntry T) :=
  if rc = .RCOK then e :: H else H

omit [DecidableEq T] in
/-- A conflict is one of modes, or there is a waiter ahead of the request. -/
theorem conflict_cases (h : conflict cc ts type txn l = true)
    (hmode : conflictLock l.lockType type = false) :
    ∃ w ws, l.waiters = w :: ws ∧ (cc = .CALVIN ∨ cc = .WAIT_DIE ∧ ts txn < ts w.txn) := by
  unfold conflict at h
  rw [hmode, Bool.false_or] at h
  cases cc with
  | NO_WAIT => simp at h
  | WAIT_DIE =>
    cases hw : l.waiters with
    | nil => simp [hw] at h
    | cons w ws =>
      rw [hw] at h
      exact ⟨w, ws, rfl, .inr ⟨rfl, of_decide_eq_true h⟩⟩
  | CALVIN =>
    cases hw : l.waiters with
    | nil => simp [hw] at h
    | cons w ws => exact ⟨w, ws, rfl, .inl rfl⟩

/-- **`lock_get`** of a transaction that neither owns the row nor waits for it keeps the
invariant. -/
theorem RowInv.get (hts : Injective ts) (h : RowInv cc ts l H) (htype : type ≠ .NONE)
    (hown : ∀ e ∈ H, e.txn ≠ txn) (hwait : ∀ w ∈ l.waiters, w.txn ≠ txn) :
    getAsserts cc ts type txn l = true ∧
      RowInv cc ts (lockGet cc ts type txn l).2
        (holdersAfter (lockGet cc ts type txn l).1 ⟨type, txn⟩ H) := by
  have hord : cc = .WAIT_DIE → Ordered ts (lockGet cc ts type txn l).2 := by
    rintro rfl
    refine (h.ordered rfl).lockGet hts ?_ hwait
    rwa [h.rep.listed (by decide)]
  by_cases hc : conflict cc ts type txn l = true
  · have hhead : ∀ ws, (∀ w, l.waiters.head? = some w → ws.head? = some w ∨
        ws.head? = some ⟨type, txn⟩ ∧ conflictLock l.lockType type = true) →
        (l.waiters = [] → ws = [⟨type, txn⟩]) →
        ws.head? = l.waiters.head? ∧ l.waiters ≠ [] ∨
          ws.head? = some ⟨type, txn⟩ ∧ conflictLock l.lockType type = true := by
      intro ws hcons hnil
      cases hw : l.waiters with
      | nil =>
        refine .inr ⟨by rw [hnil hw]; rfl, ?_⟩
        by_contra hmode
        obtain ⟨w, rest, hw', -⟩ := conflict_cases hc (Bool.eq_false_iff.mpr hmode)
        cases hw.symm.trans hw'
      | cons w rest =>
        rcases hcons w (by rw [hw]; rfl) with hsame | hnew
        · exact .inl ⟨hsame, cons_ne_nil w rest⟩
        · exact .inr hnew
    cases cc with
    | NO_WAIT =>
      have hget : lockGet .NO_WAIT ts type txn l = (.Abort, l) := by simp only [lockGet, if_pos hc]
      refine ⟨by simp only [getAsserts, if_pos hc], ?_⟩
      rw [hget]
      exact h
    | WAIT_DIE =>
      have hasserts : getAsserts .WAIT_DIE ts type txn l = true := by
        simp only [getAsserts, if_pos hc]
        refine ownerAsserts_of_ne hts ?_
        rwa [h.rep.listed (by decide)]
      refine ⟨hasserts, ?_⟩
      by_cases hcan : canWait ts txn l = true
      · have hget : lockGet .WAIT_DIE ts type txn l =
            (.WAIT, { l with waiters := insertWaiter ts ⟨type, txn⟩ l.waiters
                             waiterCnt := l.waiterCnt + 1 }) := by
          simp only [lockGet, if_pos hc, if_pos hcan]
        rw [hget] at hord ⊢
        refine h.enqueue (by decide) htype hown hwait (insertWaiter_perm ..) hord (hhead _ ?_ ?_)
        · intro w hw
          obtain ⟨rest, hrest⟩ : ∃ rest, l.waiters = w :: rest := by
            cases hl : l.waiters with
            | nil => simp [hl] at hw
            | cons w' rest =>
              rw [hl] at hw
              exact ⟨rest, by rw [some.inj hw]⟩
          rw [hrest, head?_insertWaiter]
          by_cases hlt : ts txn < ts w.txn
          · exact .inl (if_pos hlt)
          · refine .inr ⟨if_neg hlt, ?_⟩
            by_contra hmode
            obtain ⟨w', rest', hw', hcase⟩ := conflict_cases hc (Bool.eq_false_iff.mpr hmode)
            obtain ⟨rfl, -⟩ := List.cons.inj (hrest.symm.trans hw')
            rcases hcase with hcase | ⟨-, hcase⟩
            · cases hcase
            · exact hlt hcase
        · intro hnil
          rw [hnil]
          rfl
      · have hget : lockGet .WAIT_DIE ts type txn l = (.Abort, l) := by
          simp only [lockGet, if_pos hc, if_neg hcan]
        rw [hget]
        exact h
    | CALVIN =>
      have hget : lockGet .CALVIN ts type txn l =
          (.WAIT,
            { l with waiters := l.waiters ++ [⟨type, txn⟩], waiterCnt := l.waiterCnt + 1 }) := by
        simp only [lockGet, if_pos hc]
      refine ⟨by simp only [getAsserts, if_pos hc], ?_⟩
      rw [hget]
      refine h.enqueue (by decide) htype hown hwait (perm_append_singleton ..) (by simp)
        (hhead _ ?_ ?_)
      · intro w hw
        refine .inl ?_
        rw [head?_append, hw]
        rfl
      · intro hnil
        rw [hnil]
        rfl
  · have hmode : conflictLock l.lockType type = false := by
      have hfalse := Bool.eq_false_iff.mpr hc
      unfold conflict at hfalse
      exact (Bool.or_eq_false_iff.mp hfalse).1
    have hget : lockGet cc ts type txn l = (.RCOK, l.grant cc ts ⟨type, txn⟩) := by
      simp only [lockGet, if_neg hc]
    refine ⟨?_, ?_⟩
    · simp only [getAsserts, if_neg hc, decide_eq_true_eq]
      intro hpos
      rw [h.rep.count] at hpos
      obtain ⟨e, he⟩ := exists_mem_of_length_pos hpos
      exact ((h.rep.grant ts ⟨type, txn⟩ htype hmode).2 e he).2
    · rw [hget] at hord ⊢
      exact h.grant htype hwait hmode hord

omit [DecidableEq T] in
/-- The loop of `lock_release` counts the waiters, and stops at one that conflicts. -/
theorem promote_blocked (cc : LockAlg) (ts : T → ℕ) (ws : List (LockEntry T)) :
    ∀ l : RowLock T, l.waiterCnt = ws.length →
      (promote cc ts ws l).1.waiterCnt = (promote cc ts ws l).1.waiters.length ∧
        ∀ w ∈ (promote cc ts ws l).1.waiters.head?,
          conflictLock (promote cc ts ws l).1.lockType w.type = true := by
  induction ws with
  | nil => exact fun l hcnt => ⟨hcnt, nofun⟩
  | cons w ws ih =>
    intro l hcnt
    rw [promote]
    split
    next hconf =>
      refine ⟨hcnt, fun x hx => ?_⟩
      cases hx
      exact hconf
    · refine ih _ ?_
      show l.waiterCnt - 1 = ws.length
      rw [hcnt, length_cons, Nat.add_sub_cancel]

/-- **`lock_release`** by a holder keeps the invariant: it leaves, and the front part `ps` of the
waiters joins. -/
theorem RowInv.release (h : RowInv cc ts l H) (hmem : ∃ e ∈ H, e.txn = txn) :
    ∃ l' ps, lockRelease cc ts false txn l = some (l', ps) ∧ l.waiters = ps ++ l'.waiters ∧
      RowInv cc ts l' (ps.reverse ++ H.eraseP fun en => decide (en.txn = txn)) ∧
      ∀ rd, releaseAsserts cc ts false txn rd l = wakeAsserts ps rd := by
  obtain ⟨l₁, hdrop, hw₁, hR₁⟩ := dropOwner_spec h.rep hmem
  obtain ⟨l', ps, hrel, hsplit, hrep⟩ := lockRelease_spec ts h.rep h.proper hmem
  have hprom : promote cc ts l₁.waiters l₁ = (l', ps) := by
    simpa [lockRelease, hdrop] using hrel
  have hcnt₁ : l₁.waiterCnt = l₁.waiters.length := by
    have hcnt : l₁.waiterCnt = l.waiterCnt := by
      cases cc with
      | NO_WAIT | WAIT_DIE | CALVIN =>
        simp only [dropOwner, ite_none_right_eq_some, some.injEq] at hdrop
        obtain ⟨-, rfl⟩ := hdrop
        rfl
    rw [hcnt, hw₁, h.waiterCnt]
  have hblocked := promote_blocked cc ts l₁.waiters l₁ hcnt₁
  rw [hprom] at hblocked
  have hsub : ∀ w ∈ l'.waiters, w ∈ l.waiters := by
    intro w hw
    rw [hsplit]
    exact mem_append_right _ hw
  have hnd := h.nodup
  rw [hsplit, map_append, nodup_append] at hnd
  refine ⟨l', ps, hrel, hsplit,
    ⟨hrep, hblocked.1, fun w hw => h.proper w (hsub w hw), hnd.2.1, ?_, ?_,
    hblocked.2⟩, fun rd => ?_⟩
  · intro w hw e he
    rcases mem_append.mp he with he | he
    · exact hnd.2.2 _ (List.mem_map_of_mem (mem_reverse.mp he)) _ (List.mem_map_of_mem hw)
    · exact h.disjoint w (hsub w hw) e (mem_of_mem_eraseP he)
  · rintro rfl
    exact (h.ordered rfl).lockRelease hrel
  · have hfree : l₁.ownerCnt = 0 → l₁.lockType = .NONE := by
      intro hzero
      rw [hR₁.count] at hzero
      exact hR₁.free (length_eq_zero_iff.mp hzero)
    have hchain : cc = .WAIT_DIE → l₁.waiters.IsChain fun en next => ts next.txn < ts en.txn := by
      intro hcc
      rw [hw₁]
      exact (h.ordered hcc).descending.isChain
    have hother : cc = .WAIT_DIE → ∀ en ∈ l₁.waiters.dropLast, en.txn ≠ txn := by
      intro _ en hen
      obtain ⟨e, he, rfl⟩ := hmem
      rw [hw₁] at hen
      exact (h.disjoint en (dropLast_subset _ hen) e he).symm
    simp only [releaseAsserts, hdrop, hprom, Bool.false_eq_true, and_false, if_false,
      decide_eq_true hfree, decide_eq_true hchain, decide_eq_true hother, Bool.true_and]

end RowLock

namespace LockInvariant

open RowLock

variable {R : Type u} {T : Type v} [DecidableEq R] [DecidableEq T]

/-- The locks, with what was granted and what waits. -/
structure State (R : Type u) (T : Type v) where
  /-- the locks and the fields of the managers -/
  table : LockTable R T
  /-- which transactions are inside `acquire_locks` -/
  acquiring : T → Bool
  /-- the requests that hold each row: granted and not released (a history) -/
  held : R → List (LockEntry T)
  /-- the rows each transaction waits for (a history) -/
  waits : T → List R
  /-- an assertion has failed -/
  failed : Bool

/-- What the transactions do. -/
inductive Action (R : Type u) (T : Type v) where
  /-- `acquire_locks` begins: `incr_lr` -/
  | acquire (t : T)
  /-- `acquire_locks` ends: `decr_lr`, and the compare-and-swap of `lock_ready` -/
  | acquired (t : T)
  /-- `lock_get` -/
  | get (r : R) (type : LockT) (t : T)
  /-- `lock_release` -/
  | release (r : R) (t : T)

namespace State

/-- Nothing is locked. -/
def init : State R T := ⟨.init, fun _ => false, fun _ => [], fun _ => [], false⟩

/-- `lock_get`. -/
def get (cc : LockAlg) (ts : T → ℕ) (r : R) (type : LockT) (t : T) (s : State R T) : State R T :=
  if getAsserts cc ts type t (s.table.lock r) then
    let x := s.table.get cc ts r type t
    { s with
      table := x.2
      held := update s.held r (holdersAfter x.1 ⟨type, t⟩ (s.held r))
      waits := if x.1 = .WAIT then update s.waits t (r :: s.waits t) else s.waits }
  else { s with failed := true }

/-- `lock_release`; the reconnaissance transactions of Calvin release nothing. -/
def release (cc : LockAlg) (ts : T → ℕ) (recon : T → Bool) (r : R) (t : T) (s : State R T) :
    State R T :=
  if releaseAsserts cc ts (recon t) t s.table.ready (s.table.lock r) then
    if cc = .CALVIN ∧ recon t = true then s
    else
      match lockRelease cc ts false t (s.table.lock r) with
      | none => { s with failed := true }
      | some (l, ps) =>
        { s with
          table := ⟨update s.table.lock r l, (LockTable.wakeAll ps s.table.ready).1⟩
          held := update s.held r
            (ps.reverse ++ (s.held r).eraseP fun en => decide (en.txn = t))
          waits := fun u => if u ∈ ps.map LockEntry.txn then (s.waits u).erase r else s.waits u }
  else { s with failed := true }

/-- `incr_lr`. -/
def acquire (t : T) (s : State R T) : State R T :=
  let x := s.table.ready t
  { s with
    table := ⟨s.table.lock, update s.table.ready t ⟨x.lockReady, x.lockReadyCnt + 1⟩⟩
    acquiring := update s.acquiring t true }

/-- `decr_lr`, and `lock_ready` if nothing is left to wait for. -/
def acquired (t : T) (s : State R T) : State R T :=
  { s with
    table := ⟨s.table.lock, update s.table.ready t (s.table.ready t).wake.1⟩
    acquiring := update s.acquiring t false }

end State

/-- The calls of the transactions, in any order. Only Calvin has `acquire_locks`. -/
def machine (cc : LockAlg) (ts : T → ℕ) (recon : T → Bool) : Machine (State R T) (Action R T) where
  init := .init
  step s
    | .acquire t => if cc = .CALVIN ∧ s.acquiring t = false then some (s.acquire t) else none
    | .acquired t => if s.acquiring t = true then some (s.acquired t) else none
    | .get r type t =>
      if type ≠ .NONE ∧ (∀ e ∈ s.held r, e.txn ≠ t) ∧ ∀ w ∈ (s.table.lock r).waiters, w.txn ≠ t then
        some (s.get cc ts r type t)
      else none
    | .release r t =>
      if ∃ e ∈ s.held r, e.txn = t then some (s.release cc ts recon r t) else none

/-- The invariant of a run. -/
structure Inv (cc : LockAlg) (ts : T → ℕ) (s : State R T) : Prop where
  /-- each row -/
  row : ∀ r, RowInv cc ts (s.table.lock r) (s.held r)
  /-- the rows a transaction waits for are those it stands in the list of -/
  mem_waits : ∀ r t, r ∈ s.waits t ↔ ∃ w ∈ (s.table.lock r).waiters, w.txn = t
  /-- it stands in a list once -/
  nodup : ∀ t, (s.waits t).Nodup
  /-- `lock_ready_cnt` counts them, and `acquire_locks` -/
  count : ∀ t, (s.table.ready t).lockReadyCnt = (s.waits t).length + (s.acquiring t).toNat
  /-- a waiting transaction is not ready -/
  asleep : ∀ t, s.waits t ≠ [] → (s.table.ready t).lockReady = false
  /-- no assertion has failed -/
  passed : s.failed = false

variable {cc : LockAlg} {ts : T → ℕ} {recon : T → Bool} {s s' : State R T} {r : R} {t : T}
  {type : LockT}

omit [DecidableEq T] [DecidableEq R] in
theorem inv_init : Inv cc ts (State.init : State R T) where
  row _ := rowInv_init
  mem_waits r t := by simp [State.init, LockTable.init, RowLock.init]
  nodup _ := nodup_nil
  count _ := rfl
  asleep _ h := absurd rfl h
  passed := rfl

/-- `decr_lr` and what follows: one less is counted, and `lock_ready` is set only if nothing is
left. -/
theorem wake_spec (x : LockReady) :
    x.wake.1.lockReadyCnt = x.lockReadyCnt - 1 ∧
      (x.lockReadyCnt - 1 ≠ 0 → x.wake.1.lockReady = x.lockReady) := by
  unfold LockReady.wake
  split
  next h =>
    exact ⟨rfl, fun hne => absurd h.1 hne⟩
  · exact ⟨rfl, fun _ => rfl⟩

/-- Entries of distinct transactions that are not ready are woken one by one. -/
theorem wakeAll_of_asleep {es : List (LockEntry T)} (hnd : (es.map LockEntry.txn).Nodup) :
    ∀ {rd : T → LockReady}, (∀ e ∈ es, (rd e.txn).lockReady = false) →
      wakeAsserts es rd = true ∧
        ∀ u, (LockTable.wakeAll es rd).1 u = if u ∈ es.map LockEntry.txn then (rd u).wake.1
      else rd u := by
  induction es with
  | nil => exact fun _ => ⟨rfl, fun u => by simp [LockTable.wakeAll]⟩
  | cons e es ih =>
    intro rd hrd
    rw [map_cons, nodup_cons] at hnd
    have hne : ∀ x ∈ es, x.txn ≠ e.txn := fun x hx h => hnd.1 (h ▸ List.mem_map_of_mem hx)
    have hrest : ∀ x ∈ es, (update rd e.txn (rd e.txn).wake.1 x.txn).lockReady = false := by
      intro x hx
      rw [update_of_ne (hne x hx)]
      exact hrd x (mem_cons_of_mem _ hx)
    obtain ⟨hassert, hwake⟩ := ih hnd.2 hrest
    refine ⟨by rw [wakeAsserts, hrd e mem_cons_self, hassert]; rfl, fun u => ?_⟩
    rw [LockTable.wakeAll, hwake]
    by_cases hu : u = e.txn
    · subst hu
      simp [hnd.1]
    · simp [hu]

omit [DecidableEq R] in
theorem inv_acquire (h : Inv cc ts s) (hno : s.acquiring t = false) : Inv cc ts (s.acquire t) := by
  refine ⟨h.row, h.mem_waits, h.nodup, fun u => ?_, fun u hu => ?_, h.passed⟩
  · by_cases hut : u = t
    · subst hut
      simp [State.acquire, h.count, hno]
    · simpa [State.acquire, hut] using h.count u
  · by_cases hut : u = t
    · subst hut
      simpa [State.acquire] using h.asleep u hu
    · simpa [State.acquire, hut] using h.asleep u hu

omit [DecidableEq R] in
theorem inv_acquired (h : Inv cc ts s) (hin : s.acquiring t = true) : Inv cc ts (s.acquired t) := by
  obtain ⟨hcnt, hready⟩ := wake_spec (s.table.ready t)
  have hcount := h.count t
  rw [hin, Bool.toNat_true] at hcount
  refine ⟨h.row, h.mem_waits, h.nodup, fun u => ?_, fun u hu => ?_, h.passed⟩
  · by_cases hut : u = t
    · subst hut
      simp [State.acquired, hcnt, hcount]
    · simpa [State.acquired, hut] using h.count u
  · by_cases hut : u = t
    · subst hut
      have hne : (s.table.ready u).lockReadyCnt - 1 ≠ 0 := by
        rw [hcount, Nat.add_sub_cancel]
        exact fun hzero => hu (length_eq_zero_iff.mp hzero)
      simpa [State.acquired, hready hne] using h.asleep u hu
    · simpa [State.acquired, hut] using h.asleep u hu

/-- **`lock_get` keeps the invariant** and none of its assertions fails. -/
theorem inv_get (hts : Injective ts) (h : Inv cc ts s) (htype : type ≠ .NONE)
    (hown : ∀ e ∈ s.held r, e.txn ≠ t) (hwait : ∀ w ∈ (s.table.lock r).waiters, w.txn ≠ t) :
    Inv cc ts (s.get cc ts r type t) := by
  obtain ⟨hassert, hrow⟩ := (h.row r).get hts htype hown hwait
  rw [State.get, if_pos hassert]
  rcases hx : lockGet cc ts type t (s.table.lock r) with ⟨rc, l⟩
  rw [hx] at hrow
  have hrows : ∀ r', RowInv cc ts (update s.table.lock r l r')
      (update s.held r (holdersAfter rc ⟨type, t⟩ (s.held r)) r') := by
    intro r'
    by_cases hr : r' = r
    · subst hr
      simpa using hrow
    · simpa [hr] using h.row r'
  rcases lockGet_spec (h.row r).rep htype hx with ⟨rfl, -, hw, -⟩ | ⟨rfl, -, -, hw⟩ | ⟨rfl, rfl⟩
  · -- granted: the lists are as before
    have hlists : ∀ r', (update s.table.lock r l r').waiters = (s.table.lock r').waiters := by
      intro r'
      by_cases hr : r' = r
      · subst hr
        rwa [update_self]
      · rw [update_of_ne hr]
    simp only [LockTable.get, hx, reduceCtorEq, if_false]
    refine ⟨hrows, fun r' u => ?_, h.nodup, h.count, h.asleep, h.passed⟩
    rw [hlists]
    exact h.mem_waits r' u
  · -- the transaction waits for one more row
    have hnot : r ∉ s.waits t := by
      rw [h.mem_waits]
      rintro ⟨w, hw, hwt⟩
      exact hwait w hw hwt
    simp only [LockTable.get, hx, if_true]
    refine ⟨hrows, fun r' u => ?_, fun u => ?_, fun u => ?_, fun u hu => ?_, h.passed⟩
    · by_cases hr : r' = r
      · subst hr
        simp only [update_self]
        rw [← exists_congr fun w => and_congr_left fun _ => (hw.mem_iff).symm]
        by_cases hut : u = t
        · subst hut
          simp
        · simp only [update_of_ne hut, mem_cons]
          rw [h.mem_waits]
          constructor
          · rintro ⟨w, hw, rfl⟩
            exact ⟨w, .inr hw, rfl⟩
          · rintro ⟨w, rfl | hw, rfl⟩
            · exact absurd rfl hut
            · exact ⟨w, hw, rfl⟩
      · simp only [update_of_ne hr]
        rw [← h.mem_waits]
        by_cases hut : u = t
        · subst hut
          simp [hr]
        · simp [hut]
    · by_cases hut : u = t
      · subst hut
        simpa using ⟨hnot, h.nodup u⟩
      · simpa [hut] using h.nodup u
    · by_cases hut : u = t
      · subst hut
        simp only [update_self, LockReady.wait, length_cons, h.count]
        omega
      · simpa [hut] using h.count u
    · by_cases hut : u = t
      · subst hut
        simp [LockReady.wait]
      · simp only [update_of_ne hut] at hu ⊢
        exact h.asleep u hu
  · -- refused
    simp only [LockTable.get, hx, reduceCtorEq, if_false, update_eq_self]
    refine ⟨?_, h.mem_waits, h.nodup, h.count, h.asleep, h.passed⟩
    intro r'
    have := hrows r'
    rwa [update_eq_self] at this

/-- **`lock_release` keeps the invariant** and none of its assertions fails: what its loop grants
are the first waiters, up to one that conflicts. -/
theorem inv_release (h : Inv cc ts s) (hmem : ∃ e ∈ s.held r, e.txn = t) :
    Inv cc ts (s.release cc ts recon r t) := by
  by_cases hrecon : cc = .CALVIN ∧ recon t = true
  · have hassert : releaseAsserts cc ts (recon t) t s.table.ready (s.table.lock r) = true := by
      simp only [releaseAsserts, if_pos hrecon]
    rw [State.release, if_pos hassert, if_pos hrecon]
    exact h
  obtain ⟨l, ps, hrel, hsplit, hrow, hasserts⟩ := (h.row r).release hmem
  have hnd := (h.row r).nodup
  rw [hsplit, map_append, nodup_append] at hnd
  obtain ⟨hndps, -, hdisj⟩ := hnd
  -- the granted entries waited for this row
  have hps : ∀ u, u ∈ ps.map LockEntry.txn → r ∈ s.waits u := by
    intro u hu
    obtain ⟨e, he, rfl⟩ := List.mem_map.mp hu
    rw [h.mem_waits, hsplit]
    exact ⟨e, mem_append_left _ he, rfl⟩
  have hasleep : ∀ e ∈ ps, (s.table.ready e.txn).lockReady = false := fun e he =>
    h.asleep e.txn (ne_nil_of_mem (hps e.txn (List.mem_map_of_mem he)))
  obtain ⟨hwakes, hready⟩ := wakeAll_of_asleep hndps hasleep
  have hassert : releaseAsserts cc ts (recon t) t s.table.ready (s.table.lock r) = true := by
    have hsame : releaseAsserts cc ts (recon t) t s.table.ready (s.table.lock r) =
        releaseAsserts cc ts false t s.table.ready (s.table.lock r) := by
      simp only [releaseAsserts, if_neg hrecon, Bool.false_eq_true, and_false, if_false]
    rw [hsame, hasserts, hwakes]
  rw [State.release, if_pos hassert, if_neg hrecon, hrel]
  refine ⟨fun r' => ?_, fun r' u => ?_, fun u => ?_, fun u => ?_, fun u hu => ?_, h.passed⟩
  · by_cases hr : r' = r
    · subst hr
      simpa using hrow
    · simpa [hr] using h.row r'
  · show r' ∈ (if u ∈ ps.map LockEntry.txn then (s.waits u).erase r else s.waits u) ↔
      ∃ w ∈ (update s.table.lock r l r').waiters, w.txn = u
    by_cases hr : r' = r
    · subst hr
      rw [update_self]
      by_cases hu : u ∈ ps.map LockEntry.txn
      · rw [if_pos hu, (h.nodup u).mem_erase_iff]
        refine iff_of_false (fun hne => hne.1 rfl) ?_
        rintro ⟨w, hw, rfl⟩
        exact hdisj _ hu _ (List.mem_map_of_mem hw) rfl
      · rw [if_neg hu, h.mem_waits, hsplit]
        constructor
        · rintro ⟨w, hw, rfl⟩
          rcases mem_append.mp hw with hw | hw
          · exact absurd (List.mem_map_of_mem hw) hu
          · exact ⟨w, hw, rfl⟩
        · rintro ⟨w, hw, rfl⟩
          exact ⟨w, mem_append_right _ hw, rfl⟩
    · rw [update_of_ne hr, ← h.mem_waits]
      split
      · rw [(h.nodup u).mem_erase_iff]
        exact and_iff_right hr
      · exact Iff.rfl
  · show (if u ∈ ps.map LockEntry.txn then (s.waits u).erase r else s.waits u).Nodup
    split
    · exact (h.nodup u).erase r
    · exact h.nodup u
  · show ((LockTable.wakeAll ps s.table.ready).1 u).lockReadyCnt =
      (if u ∈ ps.map LockEntry.txn then (s.waits u).erase r else s.waits u).length +
        (s.acquiring u).toNat
    rw [hready]
    split
    next hu =>
      have hpos := length_pos_of_mem (hps u hu)
      rw [(wake_spec _).1, h.count, length_erase_of_mem (hps u hu)]
      omega
    · exact h.count u
  · show ((LockTable.wakeAll ps s.table.ready).1 u).lockReady = false
    replace hu : (if u ∈ ps.map LockEntry.txn then (s.waits u).erase r else s.waits u) ≠ [] := hu
    rw [hready]
    split at hu
    next hups =>
      -- it waits for another row, so that `lock_ready` is not set
      have hlen : 0 < ((s.waits u).erase r).length := length_pos_iff.mpr hu
      rw [length_erase_of_mem (hps u hups)] at hlen
      rw [if_pos hups, (wake_spec _).2]
      · exact h.asleep u (ne_nil_of_mem (hps u hups))
      · rw [h.count]
        omega
    next hups =>
      rw [if_neg hups]
      exact h.asleep u hu

/-- **The invariant holds in every state** that calls of `lock_get` and `lock_release` lead to. -/
theorem reachable_inv (hts : Injective ts) (hs : (machine cc ts recon).Reachable s) :
    Inv cc ts s := by
  refine Machine.Reachable.invariant inv_init ?_ hs
  intro s a s' h hstep
  cases a with
  | acquire t =>
    obtain ⟨⟨-, hno⟩, hs'⟩ := ite_none_right_eq_some.mp hstep
    exact some.inj hs' ▸ inv_acquire h hno
  | acquired t =>
    obtain ⟨hin, hs'⟩ := ite_none_right_eq_some.mp hstep
    exact some.inj hs' ▸ inv_acquired h hin
  | get r type t =>
    obtain ⟨⟨htype, hown, hwait⟩, hs'⟩ := ite_none_right_eq_some.mp hstep
    exact some.inj hs' ▸ inv_get hts h htype hown hwait
  | release r t =>
    obtain ⟨hmem, hs'⟩ := ite_none_right_eq_some.mp hstep
    exact some.inj hs' ▸ inv_release h hmem

/-- **The lock invariant.** In every state that the calls lead to, no assertion has failed, and of
every row: the mode is `NONE` exactly if nobody holds it, `EX` exactly if one request does, for
`EX`, and `SH` exactly if one or more do, all for `SH`; the counters count the holders, which are
the owner list except under `NO_WAIT`, and the waiters; and the head waiter conflicts with the
mode. -/
theorem lock_invariant (cc : LockAlg) {ts : T → ℕ} (hts : Injective ts) (recon : T → Bool)
    {s : State R T} (hs : (machine cc ts recon).Reachable s) :
    s.failed = false ∧ ∀ r,
      ((s.table.lock r).lockType = .NONE ↔ s.held r = []) ∧
      ((s.table.lock r).lockType = .EX ↔ ∃ t, s.held r = [⟨.EX, t⟩]) ∧
      ((s.table.lock r).lockType = .SH ↔ s.held r ≠ [] ∧ ∀ e ∈ s.held r, e.type = .SH) ∧
      (s.table.lock r).ownerCnt = (s.held r).length ∧
      (cc ≠ .NO_WAIT → (s.table.lock r).owners = s.held r) ∧
      (s.table.lock r).waiterCnt = (s.table.lock r).waiters.length ∧
      ∀ w ∈ (s.table.lock r).waiters.head?, conflictLock (s.table.lock r).lockType w.type =
      true := by
  have h := reachable_inv hts hs
  refine ⟨h.passed, fun r => ?_⟩
  obtain ⟨hnone, hex, hsh⟩ := (h.row r).rep.lockType_iff
  exact ⟨hnone, hex, hsh, (h.row r).rep.count, (h.row r).rep.listed, (h.row r).waiterCnt,
    (h.row r).blocked⟩

/-- Two readers, an older writer that waits, and a reader that is younger than it and overtakes it;
then the first reader leaves. -/
def overtake : List (Action Unit ℕ) :=
  [.get () .SH 5, .get () .SH 7, .get () .EX 3, .get () .SH 4, .release () 5]

/-- The writer still waits, and conflicts. -/
theorem lock_invariant_overtake :
    ∃ s, (machine .WAIT_DIE id fun _ => false).run overtake = some s ∧ s.failed = false ∧
      (s.held ()).map LockEntry.txn = [4, 7] ∧ (s.table.lock ()).waiters = [⟨.EX, 3⟩] ∧
      conflictLock (s.table.lock ()).lockType .EX = true := by
  obtain ⟨s, hs, hheld, hwaiters⟩ : ∃ s ∈ (machine .WAIT_DIE id fun _ => false).run overtake,
      (s.held ()).map LockEntry.txn = [4, 7] ∧ (s.table.lock ()).waiters = [⟨.EX, 3⟩] :=
      ⟨_, rfl, rfl, rfl⟩
  obtain ⟨hpassed, hrows⟩ :=
    lock_invariant .WAIT_DIE injective_id (fun _ => false) (Machine.Reachable.of_run hs)
  have hblocked := (hrows ()).2.2.2.2.2.2 ⟨.EX, 3⟩ (by rw [hwaiters]; rfl)
  exact ⟨s, hs, hpassed, hheld, hwaiters, hblocked⟩

end LockInvariant

end Deneva
