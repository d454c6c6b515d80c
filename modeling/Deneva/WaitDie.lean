import Deneva.Transition
import Deneva.LockTable

/-!
# `WAIT_DIE` has no deadlock

Transactions call `lock_get` and `lock_release` on the rows of a `LockTable` in
any interleaving (`waitDie`). The argument is local to a row: `Ordered` says that
its waiters are older than its owners and stand in the list from the youngest to
the oldest, where *older* means a smaller timestamp.

* `Ordered.lockGet`: a request waits only if every owner is younger, is inserted
  at its place, and overtakes the waiters only if it is younger than all of them.
* `Ordered.lockRelease`: the loop of `lock_release` grants from the head, so the
  new owner is younger than all who still wait.

Along the waits-for relation the timestamp therefore grows, and it has no cycle.
-/

namespace Deneva

universe u v

open Function List Option

namespace RowLock

variable {T : Type u} {ts : T → ℕ}

/-- The waiters of a row are older than its owners, and the list descends strictly
in timestamp from `waiters_head`. -/
structure Ordered (ts : T → ℕ) (l : RowLock T) : Prop where
  /-- every waiter's timestamp is smaller than every owner's -/
  older : ∀ w ∈ l.waiters, ∀ o ∈ l.owners, ts w.txn < ts o.txn
  /-- the waiter list is strictly descending -/
  descending : l.waiters.Pairwise fun a b => ts b.txn < ts a.txn

theorem ordered_init : Ordered ts (RowLock.init : RowLock T) :=
  ⟨fun _ hw => absurd hw not_mem_nil, List.Pairwise.nil⟩

theorem insertWaiter_descending {e : LockEntry T} {ws : List (LockEntry T)}
    (hnew : ∀ w ∈ ws, ts w.txn ≠ ts e.txn) (hws : ws.Pairwise fun a b => ts b.txn < ts a.txn) :
    (insertWaiter ts e ws).Pairwise fun a b => ts b.txn < ts a.txn := by
  induction ws with
  | nil => exact pairwise_singleton _ _
  | cons w ws ih =>
    obtain ⟨hw, hws⟩ := pairwise_cons.mp hws
    rw [insertWaiter]
    split
    next hlt =>
      refine pairwise_cons.mpr ⟨fun x hx => ?_, ih (fun y hy => hnew y (.tail _ hy)) hws⟩
      rcases mem_cons.mp ((insertWaiter_perm ts e ws).mem_iff.mp hx) with rfl | hx
      · exact hlt
      · exact hw x hx
    next hge =>
      -- the new entry stops here: it is younger than this waiter, so than all behind it
      have hwe : ts w.txn < ts e.txn :=
        lt_of_le_of_ne (Nat.le_of_not_lt hge) (hnew w mem_cons_self)
      refine pairwise_cons.mpr ⟨fun x hx => ?_, pairwise_cons.mpr ⟨hw, hws⟩⟩
      rcases mem_cons.mp hx with rfl | hx
      · exact hwe
      · exact (hw x hx).trans hwe

variable {l : RowLock T}

/-- A granted request that no waiter outranks keeps the order. -/
theorem Ordered.grant (h : Ordered ts l) {e : LockEntry T}
    (he : ∀ w ∈ l.waiters, ts w.txn < ts e.txn) : Ordered ts (l.grant .WAIT_DIE ts e) := by
  refine ⟨fun w hw o ho => ?_, h.descending⟩
  rcases mem_cons.mp (show o ∈ e :: l.owners from ho) with rfl | ho
  · exact he w hw
  · exact h.older w hw o ho

/-- `lock_get` of a transaction that neither owns the row nor waits on it keeps the
order. -/
theorem Ordered.lockGet (hts : Injective ts) (h : Ordered ts l)
    {type : LockT} {t : T} (hown : ∀ o ∈ l.owners, o.txn ≠ t) (hwait : ∀ w ∈ l.waiters, w.txn ≠ t) :
    Ordered ts (lockGet .WAIT_DIE ts type t l).2 := by
  unfold RowLock.lockGet
  by_cases hc : conflict .WAIT_DIE ts type t l = true
  · rw [if_pos hc]
    by_cases hcan : canWait ts t l = true
    · simp only [hcan, if_true]
      refine ⟨fun w hw o ho => ?_, insertWaiter_descending (fun w hw => ?_) h.descending⟩
      · rcases mem_cons.mp ((insertWaiter_perm ..).mem_iff.mp hw) with rfl | hw
        · -- it may wait, so no owner is older
          have hle : ¬ ts o.txn < ts t := by simpa using List.all_eq_true.mp hcan o ho
          exact lt_of_le_of_ne (Nat.le_of_not_lt hle) fun heq => hown o ho (hts heq).symm
        · exact h.older w hw o ho
      · exact fun heq => hwait w hw (hts heq)
    · simp only [if_neg hcan]
      exact h
  · rw [if_neg hc]
    refine h.grant fun w hw => ?_
    obtain ⟨hd, tl, hl⟩ := exists_cons_of_ne_nil (ne_nil_of_mem hw)
    -- it does not conflict with the head of the list, so it is younger than the head
    have hhead : ts hd.txn < ts t := by
      have hge : ¬ ts t < ts hd.txn := by
        simp only [conflict, hl, Bool.or_eq_true, decide_eq_true_eq, not_or] at hc
        exact hc.2
      refine lt_of_le_of_ne (Nat.le_of_not_lt hge) fun heq => hwait hd ?_ (hts heq)
      rw [hl]
      exact mem_cons_self
    have hdesc := h.descending
    rw [hl] at hw hdesc
    rcases mem_cons.mp hw with rfl | hw
    · exact hhead
    · exact ((pairwise_cons.mp hdesc).1 w hw).trans hhead

/-- The loop of `lock_release` keeps the order. -/
theorem Ordered.promote {ws : List (LockEntry T)} :
    ∀ {l : RowLock T}, Ordered ts { l with waiters := ws } →
      Ordered ts (promote .WAIT_DIE ts ws l).1 := by
  induction ws with
  | nil => exact fun h => h
  | cons w ws ih =>
    intro l h
    rw [RowLock.promote]
    split
    · exact h
    · obtain ⟨hw, hws⟩ := pairwise_cons.mp h.descending
      refine ih ⟨fun x hx o ho => ?_, hws⟩
      rcases mem_cons.mp (show o ∈ w :: l.owners from ho) with rfl | ho
      · exact hw x hx
      · exact h.older x (mem_cons_of_mem _ hx) o ho

/-- `lock_release` keeps the order. -/
theorem Ordered.lockRelease [DecidableEq T] {l' : RowLock T} (h : Ordered ts l) {t : T}
    {ps : List (LockEntry T)} (hrel : lockRelease .WAIT_DIE ts false t l = some (l', ps)) :
    Ordered ts l' := by
  obtain ⟨l₁, hdrop, hprom⟩ := map_eq_some_iff.mp hrel
  have hl' : (RowLock.promote .WAIT_DIE ts l₁.waiters l₁).1 = l' := congrArg Prod.fst hprom
  rw [← hl']
  refine Ordered.promote ?_
  simp only [dropOwner, ite_none_right_eq_some, some.injEq] at hdrop
  obtain ⟨_, rfl⟩ := hdrop
  exact ⟨fun w hw o ho => h.older w hw o (mem_of_mem_eraseP ho), h.descending⟩

end RowLock

namespace WaitDie

open LockTable

variable {R : Type u} {T : Type v} [DecidableEq R] [DecidableEq T]

/-- A call of one of the two operations of a row's lock. -/
inductive Action (R : Type u) (T : Type v) where
  /-- `lock_get`, for the mode of an access -/
  | get (r : R) (a : AccessT) (t : T)
  /-- `lock_release` -/
  | release (r : R) (t : T)

/-- The lock table under `WAIT_DIE`. A transaction requests nothing while it waits
and no row that it owns; `lock_release` by a transaction that is no owner is not
possible. -/
def machine (ts : T → ℕ) : Machine (LockTable R T) (Action R T) where
  init := LockTable.init
  step s
    | .get r a t =>
      if (s.ready t).lockReadyCnt = 0 ∧ ∀ o ∈ (s.lock r).owners, o.txn ≠ t then
        some (s.get .WAIT_DIE ts r (lockOf a) t).2
      else none
    | .release r t => (s.release .WAIT_DIE ts r t).map Prod.fst

/-- `t` waits on a row on which `u` is an owner, or a waiter ahead of `t` in the
list. -/
def WaitsFor (s : LockTable R T) (t u : T) : Prop :=
  ∃ r ahead w behind, (s.lock r).waiters = ahead ++ w :: behind ∧ w.txn = t ∧
    ((∃ o ∈ (s.lock r).owners, o.txn = u) ∨ ∃ x ∈ ahead, x.txn = u)

/-- The invariant of a run: the table summarises the owners it lists, and every row
is ordered. -/
structure Inv (ts : T → ℕ) (s : LockTable R T) : Prop where
  /-- the owner lists are the holders -/
  holds : s.Holds .WAIT_DIE fun r => (s.lock r).owners
  /-- every row is ordered -/
  ordered : ∀ r, (s.lock r).Ordered ts

variable {s : LockTable R T} {ts : T → ℕ} {t : T}

omit [DecidableEq R] [DecidableEq T] in
/-- Where owners are listed, a summary of holders is a summary of the listed ones. -/
theorem holds_owners {H : R → List (LockEntry T)} (h : s.Holds .WAIT_DIE H) :
    s.Holds .WAIT_DIE fun r => (s.lock r).owners := by
  have hH : (fun r => (s.lock r).owners) = H := funext fun r => (h.rep r).listed (by decide)
  rw [hH]
  exact h

/-- **`lock_get` keeps the order of timestamps** on every row. -/
theorem inv_get (hts : Injective ts) (h : Inv ts s)
    {r : R} {a : AccessT} (hidle : (s.ready t).lockReadyCnt = 0)
    (hown : ∀ o ∈ (s.lock r).owners, o.txn ≠ t) : Inv ts (s.get .WAIT_DIE ts r (lockOf a) t).2 := by
  rcases hx : s.get .WAIT_DIE ts r (lockOf a) t with ⟨rc, s'⟩
  refine ⟨?_, fun r' => ?_⟩
  · cases get_spec h.holds (lockOf_ne_none a) hidle hx with
    | granted hold _ _ _ => exact holds_owners hold
    | wait hold _ _ _ => exact holds_owners hold
    | abort => exact h.holds
  · have hlock : update s.lock r (RowLock.lockGet .WAIT_DIE ts (lockOf a) t
        (s.lock r)).2 = s'.lock := congrArg (fun x => x.2.lock) hx
    rw [← hlock]
    by_cases hr : r' = r
    · subst hr
      rw [update_self]
      refine (h.ordered r').lockGet hts hown fun w hw heq => ?_
      exact h.holds.not_waiting hidle r' ⟨w, hw, heq⟩
    · rw [update_of_ne hr]
      exact h.ordered r'

/-- **`lock_release` keeps the order of timestamps**: the new owner is younger than all who wait. -/
theorem inv_release {s' : LockTable R T} (h : Inv ts s) {r : R}
    {ws : List T} (hrel : s.release .WAIT_DIE ts r t = some (s', ws)) : Inv ts s' := by
  obtain ⟨⟨l', ps⟩, hl, hx⟩ := map_eq_some_iff.mp hrel
  cases hx
  refine ⟨?_, fun r' => ?_⟩
  · -- only an owner can release
    have hmem : ∃ e ∈ (s.lock r).owners, e.txn = t := by
      obtain ⟨l₁, hdrop, _⟩ := map_eq_some_iff.mp hl
      simp only [RowLock.dropOwner, ite_none_right_eq_some] at hdrop
      simpa using hdrop.1
    obtain ⟨s₁, ps₁, hrel₁, _, _, _, hold⟩ := release_spec ts h.holds hmem
    obtain ⟨rfl, _⟩ := Prod.mk.inj (some.inj (hrel₁.symm.trans hrel))
    exact holds_owners hold
  · by_cases hr : r' = r
    · subst hr
      simpa using (h.ordered r').lockRelease hl
    · simpa [update_of_ne hr] using h.ordered r'

theorem reachable_inv (hts : Injective ts) (hs : (machine ts).Reachable s) : Inv ts s := by
  refine Machine.Reachable.invariant ⟨holds_init _, fun _ => RowLock.ordered_init⟩ ?_ hs
  intro s a s' h hstep
  cases a with
  | get r a t =>
    simp only [machine, ite_none_right_eq_some, some.injEq] at hstep
    obtain ⟨⟨hidle, hown⟩, rfl⟩ := hstep
    exact inv_get hts h hidle hown
  | release r t =>
    obtain ⟨⟨s₁, ws⟩, hrel, rfl⟩ := map_eq_some_iff.mp hstep
    exact inv_release h hrel

omit [DecidableEq R] [DecidableEq T] in
/-- On ordered rows whoever is waited for is younger. -/
theorem WaitsFor.lt (h : ∀ r, (s.lock r).Ordered ts) {u : T} (htu : WaitsFor s t u) :
    ts t < ts u := by
  obtain ⟨r, ahead, w, behind, hw, rfl, ⟨o, ho, rfl⟩ | ⟨x, hx, rfl⟩⟩ := htu
  · refine (h r).older w ?_ o ho
    rw [hw]
    exact mem_append_right _ mem_cons_self
  · have hdesc := (h r).descending
    rw [hw, pairwise_append] at hdesc
    exact hdesc.2.2 x hx w mem_cons_self

/-- **No deadlock.** With pairwise distinct timestamps, in every reachable state the
waits-for relation has no cycle; on each row every waiter is older than every owner
and the waiter list is strictly descending from its head. -/
theorem waitsFor_acyclic {ts : T → ℕ} (hts : Injective ts) {s : LockTable R T}
    (hs : (machine ts).Reachable s) : (∀ t, ¬ Relation.TransGen (WaitsFor s) t t) ∧
      (∀ r, ∀ w ∈ (s.lock r).waiters, ∀ o ∈ (s.lock r).owners, ts w.txn < ts o.txn) ∧
      ∀ r, (s.lock r).waiters.Pairwise fun a b => ts b.txn < ts a.txn := by
  have hord := (reachable_inv hts hs).ordered
  exact ⟨acyclic_of_strictMono ts fun h => h.lt hord, fun r => (hord r).older,
    fun r => (hord r).descending⟩

/-- A schedule on two rows in which `3` comes to wait for `5`, and `5` for `7`. -/
def chain : List (Action Bool ℕ) :=
  [.get false .WR 7, .get true .WR 5, .get false .RD 5, .get true .RD 3]

/-- The two waits are no cycle. -/
theorem waitsFor_acyclic_chain : ∃ s, (machine id).run chain = some s ∧ WaitsFor s 3 5 ∧
    WaitsFor s 5 7 ∧ ¬ Relation.TransGen (WaitsFor s) 3 3 := by
  have hrun : ∃ s, (machine id).run chain = some s := ⟨_, rfl⟩
  obtain ⟨s, hs⟩ := hrun
  have hno := (waitsFor_acyclic injective_id (Machine.Reachable.of_run hs)).1 3
  cases hs
  refine ⟨_, rfl, ⟨true, [], ⟨.SH, 3⟩, [], rfl, rfl, .inl ⟨⟨.EX, 5⟩, ?_, rfl⟩⟩,
    ⟨false, [], ⟨.SH, 5⟩, [], rfl, rfl, .inl ⟨⟨.EX, 7⟩, ?_, rfl⟩⟩, hno⟩
  · exact mem_singleton_self _
  · exact mem_singleton_self _

end WaitDie

end Deneva
