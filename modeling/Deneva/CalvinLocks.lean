import Deneva.Transition
import Deneva.RowLock

/-!
# Calvin's locks on one node (`calvin_thread.cpp`, `ycsb_txn.cpp`, `row_lock.cpp`)

One scheduler thread takes the transactions in their global order and requests all their locks, one
transaction after the other (`acquire_locks`); workers run the transactions that hold all their
locks and release the rows at the end (`cleanup`). The steps are:

* `schedule t`: the scheduler turns to its next transaction.
* `scheduler`: the next operation of the scheduler: `incr_lr`, a `get_lock`, `decr_lr`, the
  compare-and-swap of `lock_ready`, and the end of the round, where the transaction is handed to
  the workers if all locks were granted.
* `release t r`: a worker releases a row of `t` (`lock_release`, with its loop over the waiters).
* `decrLr t`, `cas t`: what the loop of a `lock_release` does to the manager of a waiter it has
  granted: `decr_lr`, and when that reached zero the compare-and-swap and `restart_txn`. They are
  steps of their own, in any order with all others, although the row is still latched.

Which transactions may release is a parameter of the machine: `anyOwner` is the most general one,
and `State.dispatched` the one of the engine, where only the workers release.

The second half is about the order of the grants: on each row they follow the requests (`Fifo`),
and requests follow the schedule, so that nobody waits for a later transaction.
-/

namespace Deneva

universe u v

open Function List Option

namespace CalvinLocks

/-- A request of a query, with the row that the index finds for its key. -/
structure LockRequest (R : Type u) : Type u where
  /-- the row -/
  row : R
  /-- the kind of access -/
  acctype : AccessT
  /-- whether the key is stored on this node -/
  isLocal : Bool
  deriving DecidableEq

/-- What is fixed about the transactions. -/
structure Config (R : Type u) (T : Type v) where
  /-- the requests of the query -/
  requests : T → List (LockRequest R)
  /-- `isRecon`: transactions that only look up what to lock -/
  isRecon : T → Bool
  /-- `get_timestamp` -/
  timestamp : T → ℕ

/-- Where the scheduler is. -/
inductive Pc (R : Type u) (T : Type v) where
  /-- between two transactions -/
  | idle
  /-- at the beginning of `acquire_locks` -/
  | enter (t : T)
  /-- in its loop, with the requests that are left and the return code so far -/
  | locking (t : T) (rest : List (LockRequest R)) (rc : RC)
  /-- before the compare-and-swap -/
  | swapping (t : T) (rc : RC)
  /-- after it -/
  | leave (t : T) (rc : RC)
  deriving DecidableEq

/-- The locks of a node, the managers of its transactions, and its threads. -/
structure State (R : Type u) (T : Type v) where
  /-- the lock of each row -/
  lock : R → RowLock T
  /-- `lock_ready` and `lock_ready_cnt` -/
  ready : T → LockReady
  /-- `calvin_locked_rows` -/
  lockedRows : T → List R
  /-- the scheduler thread -/
  pc : Pc R T
  /-- grants of `lock_release` whose `decr_lr` is still to come -/
  decrs : List T
  /-- grants that found the counter at zero, before the compare-and-swap -/
  swaps : List T
  /-- the transactions in the order the scheduler took them (a history) -/
  scheduled : List T
  /-- what the scheduler put into the work queue (a history) -/
  enqueued : List T
  /-- what `lock_release` restarted (a history) -/
  restarted : List T
  /-- the calls of `lock_get` on each row (a history) -/
  requested : R → List (LockEntry T)
  /-- the grants on each row (a history) -/
  granted : R → List (LockEntry T)

/-- What the threads do. -/
inductive Action (R : Type u) (T : Type v) where
  /-- the scheduler takes a transaction -/
  | schedule (t : T)
  /-- the scheduler goes on -/
  | scheduler
  /-- a worker releases a row of a transaction -/
  | release (t : T) (r : R)
  /-- `decr_lr` for a granted waiter -/
  | decrLr (t : T)
  /-- the compare-and-swap for a granted waiter -/
  | cas (t : T)
  deriving DecidableEq

variable {R : Type u} {T : Type v} [DecidableEq R] [DecidableEq T]

/-- All rows free, all managers as `reset` leaves them. -/
def State.init : State R T :=
  ⟨fun _ => RowLock.init, fun _ => ⟨false, 0⟩, fun _ => [], .idle, [], [], [], [], [],
    fun _ => [], fun _ => []⟩

/-- The transaction was handed to the workers. -/
def State.dispatched (s : State R T) (t : T) : Bool := t ∈ s.enqueued ∨ t ∈ s.restarted

/-- Every owner may release. -/
def anyOwner (_ : State R T) (_ : T) : Bool := true

section Step

variable (C : Config R T)

/-- One round of the loop of `acquire_locks` and `TxnManager::get_lock`. Requests of other nodes are
skipped, and so are rows that the transaction has requested before. -/
def getLock (t : T) (rq : LockRequest R) (s : State R T) : RC × State R T :=
  if rq.isLocal = false ∨ rq.row ∈ s.lockedRows t then (.RCOK, s)
  else
    let en : LockEntry T := ⟨lockOf rq.acctype, t⟩
    let x := RowLock.lockGet .CALVIN C.timestamp en.type t (s.lock rq.row)
    (x.1,
      { s with
        lockedRows := update s.lockedRows t (s.lockedRows t ++ [rq.row])
        lock := update s.lock rq.row x.2
        ready := if x.1 = .WAIT then update s.ready t (s.ready t).wait else s.ready
        requested := update s.requested rq.row (s.requested rq.row ++ [en])
        granted := if x.1 = .RCOK then update s.granted rq.row (s.granted rq.row ++ [en])
          else s.granted })

/-- The next operation of the scheduler. -/
def scheduler (s : State R T) : Option (State R T) :=
  match s.pc with
  | .idle => none
  | .enter t =>
    -- `incr_lr`: the scheduler counts itself while it is requesting
    let rd := s.ready t
    some { s with
      ready := update s.ready t { rd with lockReadyCnt := rd.lockReadyCnt + 1 }
      pc := .locking t (C.requests t) .RCOK }
  | .locking t (rq :: rest) rc =>
    let x := getLock C t rq s
    some { x.2 with pc := .locking t rest (if x.1 = .RCOK then rc else x.1) }
  | .locking t [] rc =>
    let rd : LockReady := { s.ready t with lockReadyCnt := (s.ready t).lockReadyCnt - 1 }
    some { s with
      ready := update s.ready t rd
      pc := if rd.lockReadyCnt = 0 then .swapping t rc else .leave t rc }
  | .swapping t rc =>
    if (s.ready t).lockReady = false then
      some { s with
        ready := update s.ready t { s.ready t with lockReady := true }
        pc := .leave t .RCOK }
    else some { s with pc := .leave t rc }
  | .leave t rc =>
    some { s with enqueued := if rc = .RCOK then s.enqueued ++ [t] else s.enqueued, pc := .idle }

/-- One step. -/
def step (mayRelease : State R T → T → Bool) (s : State R T) : Action R T → Option (State R T)
  | .schedule t =>
    if s.pc = .idle ∧ t ∉ s.scheduled then
      some { s with
        scheduled := s.scheduled ++ [t]
        pc := if C.isRecon t then .leave t .RCOK else .enter t }
    else none
  | .scheduler => scheduler C s
  | .release t r =>
    if mayRelease s t = true ∧ (s.lock r).owners.any fun en => en.txn = t then
      (RowLock.lockRelease .CALVIN C.timestamp (C.isRecon t) t (s.lock r)).map fun x =>
        { s with
          lock := update s.lock r x.1
          decrs := s.decrs ++ x.2.map LockEntry.txn
          granted := update s.granted r (s.granted r ++ x.2) }
    else none
  | .decrLr t =>
    -- a failing `ASSERT(lock_ready == false)` ends the process
    if t ∈ s.decrs ∧ (s.ready t).lockReady = false then
      let rd : LockReady := { s.ready t with lockReadyCnt := (s.ready t).lockReadyCnt - 1 }
      some { s with
        ready := update s.ready t rd
        decrs := s.decrs.erase t
        swaps := if rd.lockReadyCnt = 0 then s.swaps ++ [t] else s.swaps }
    else none
  | .cas t =>
    if t ∈ s.swaps then
      if (s.ready t).lockReady = false then
        some { s with
          ready := update s.ready t { s.ready t with lockReady := true }
          swaps := s.swaps.erase t
          restarted := s.restarted ++ [t] }
      else some { s with swaps := s.swaps.erase t }
    else none

/-- The node. -/
def machine (mayRelease : State R T → T → Bool) : Machine (State R T) (Action R T) where
  init := State.init
  step := step C mayRelease

end Step

/-! ## What the steps do to a row -/

/-- The transaction the scheduler is at. -/
def Pc.txn : Pc R T → Option T
  | .idle => none
  | .enter t | .locking t _ _ | .swapping t _ | .leave t _ => some t

section Rows

variable {C : Config R T} {s s' : State R T} {t : T} {r : R} {rq : LockRequest R}

/-- The state after a call of `lock_get` on row `r`, which has left the row's lock as `l`. -/
def State.afterGet (s : State R T) (t : T) (r : R) (en : LockEntry T) (l : RowLock T)
    (g : List (LockEntry T)) (rd : T → LockReady) : State R T :=
  { s with
    lockedRows := update s.lockedRows t (s.lockedRows t ++ [r])
    lock := update s.lock r l
    ready := rd
    requested := update s.requested r (s.requested r ++ [en])
    granted := update s.granted r g }

/-- **What one request does.** It is skipped; or it is granted, and then nobody waits; or it goes
behind all that wait. -/
theorem getLock_cases (hrep : (s.lock rq.row).Represents .CALVIN (s.lock rq.row).owners) :
    ((rq.isLocal = false ∨ rq.row ∈ s.lockedRows t) ∧ getLock C t rq s = (.RCOK, s)) ∨
    rq.row ∉ s.lockedRows t ∧
      ((∃ l, (s.lock rq.row).waiters = [] ∧ l.waiters = [] ∧
          l.Represents .CALVIN (⟨lockOf rq.acctype, t⟩ :: (s.lock rq.row).owners) ∧
          getLock C t rq s = (.RCOK, s.afterGet t rq.row ⟨lockOf rq.acctype, t⟩ l
            (s.granted rq.row ++ [⟨lockOf rq.acctype, t⟩]) s.ready)) ∨
        ∃ l, l.waiters = (s.lock rq.row).waiters ++ [⟨lockOf rq.acctype, t⟩] ∧
          l.Represents .CALVIN (s.lock rq.row).owners ∧
          getLock C t rq s = (.WAIT, s.afterGet t rq.row ⟨lockOf rq.acctype, t⟩ l
            (s.granted rq.row) (update s.ready t (s.ready t).wait))) := by
  unfold getLock
  split
  next hskip =>
    exact .inl ⟨hskip, rfl⟩
  next hskip =>
    refine .inr ⟨fun h => hskip (.inr h), ?_⟩
    rcases RowLock.lockGet_calvin C.timestamp t hrep (lockOf_ne_none rq.acctype) with
      ⟨l, hget, hnone, hw, hl⟩ | ⟨l, hget, hw, hl⟩
    · refine .inl ⟨l, hnone, hw, hl, ?_⟩
      simp [hget, State.afterGet]
    · refine .inr ⟨l, hw, hl, ?_⟩
      simp [hget, State.afterGet]

theorem getLock_pc (C : Config R T) (t : T) (rq : LockRequest R) (s : State R T) :
    (getLock C t rq s).2.pc = s.pc := by
  unfold getLock
  split <;> rfl

/-- **What a release does.** A front part `ps` of the waiters joins the owners, which otherwise lose
entries of `t` only. -/
theorem release_cases {mayRelease : State R T → T → Bool}
    (hrep : (s.lock r).Represents .CALVIN (s.lock r).owners)
    (hproper : ∀ w ∈ (s.lock r).waiters, w.type ≠ .NONE)
    (h : step C mayRelease s (.release t r) = some s') :
    mayRelease s t = true ∧ ∃ l ps, (s.lock r).waiters = ps ++ l.waiters ∧
      l.Represents .CALVIN l.owners ∧ (∀ en ∈ l.owners, en ∈ ps ∨ en ∈ (s.lock r).owners) ∧
      (∀ en ∈ ps, en ∈ l.owners) ∧ (∀ en ∈ (s.lock r).owners, en.txn ≠ t → en ∈ l.owners) ∧
      s' = { s with
        lock := update s.lock r l
        decrs := s.decrs ++ ps.map LockEntry.txn
        granted := update s.granted r (s.granted r ++ ps) } := by
  obtain ⟨⟨hmay, hany⟩, h⟩ := ite_none_right_eq_some.mp h
  refine ⟨hmay, ?_⟩
  cases hrecon : C.isRecon t with
  | true =>
    -- the early exit
    rw [hrecon] at h
    cases h
    exact ⟨s.lock r, [], rfl, hrep, fun en hen => .inr hen, nofun, fun en hen _ => hen, rfl⟩
  | false =>
    rw [hrecon] at h
    obtain ⟨en, hen, htxn⟩ := List.any_eq_true.mp hany
    obtain ⟨l, ps, hrel, hsplit, hl⟩ := RowLock.lockRelease_spec C.timestamp hrep hproper
      ⟨en, hen, of_decide_eq_true htxn⟩
    rw [hrel] at h
    cases h
    have howners := hl.listed (by decide)
    refine ⟨l, ps, hsplit, howners ▸ hl, ?_, ?_, ?_, rfl⟩ <;> rw [howners]
    · intro x hx
      rcases mem_append.mp hx with hx | hx
      · exact .inl (mem_reverse.mp hx)
      · exact .inr (mem_of_mem_eraseP hx)
    · exact fun x hx => mem_append_left _ (mem_reverse.mpr hx)
    · intro x hx hne
      refine mem_append_right _ ((mem_eraseP_of_neg ?_).mpr hx)
      simpa using hne

end Rows

/-! ## Grants follow the requests, and requests the schedule -/

/-- Row `r` serves its requests in their order, and they come in the order of the schedule. -/
structure Fifo (s : State R T) (r : R) : Prop where
  /-- the lock is a correct summary of its owners -/
  rep : (s.lock r).Represents .CALVIN (s.lock r).owners
  /-- waiters wait for a proper mode -/
  proper : ∀ w ∈ (s.lock r).waiters, w.type ≠ .NONE
  /-- the requests are those granted and, behind them, those that wait -/
  queue : s.granted r ++ (s.lock r).waiters = s.requested r
  /-- owners were granted the row -/
  owners : ∀ en ∈ (s.lock r).owners, en ∈ s.granted r
  /-- the requests come in the order of the schedule, at most one from a transaction -/
  order : ((s.requested r).map LockEntry.txn).Sublist s.scheduled
  /-- whoever has requested the row has it in `calvin_locked_rows` -/
  locked : ∀ en ∈ s.requested r, r ∈ s.lockedRows en.txn

/-- What holds of the locks in every state. -/
structure Inv (s : State R T) : Prop where
  /-- every row is served in order -/
  fifo : ∀ r, Fifo s r
  /-- no transaction is scheduled twice -/
  nodup : s.scheduled.Nodup
  /-- the scheduler is at the last transaction -/
  current : ∀ t ∈ s.pc.txn, ∃ pre, s.scheduled = pre ++ [t]

omit [DecidableEq R] [DecidableEq T] in
theorem inv_init : Inv (State.init : State R T) where
  fifo _ := ⟨RowLock.represents_init .CALVIN, nofun, rfl, nofun, nil_sublist _, nofun⟩
  nodup := nodup_nil
  current := nofun

section Inv

variable {C : Config R T} {mayRelease : State R T → T → Bool} {s s' : State R T} {t : T} {r : R}

omit [DecidableEq R] [DecidableEq T] in
/-- Steps that leave the row alone. -/
theorem Fifo.frame (h : Fifo s r) (hlock : s'.lock r = s.lock r)
    (hreq : s'.requested r = s.requested r) (hgranted : s'.granted r = s.granted r)
    (hrows : ∀ t, r ∈ s.lockedRows t → r ∈ s'.lockedRows t)
    (hsched : s.scheduled.Sublist s'.scheduled) : Fifo s' r := by
  obtain ⟨rep, proper, queue, owners, order, locked⟩ := h
  constructor <;> simp only [hlock, hreq, hgranted] <;> try assumption
  · exact order.trans hsched
  · exact fun en hen => hrows _ (locked en hen)

section

variable (h : Inv s)

include h

omit [DecidableEq R] [DecidableEq T] in
/-- A request that joins a row comes after those there are. -/
theorem Inv.order_append (ht : t ∈ s.pc.txn) (hr : r ∉ s.lockedRows t) (m : LockT) :
    ((s.requested r ++ [(⟨m, t⟩ : LockEntry T)]).map LockEntry.txn).Sublist s.scheduled := by
  obtain ⟨pre, hpre⟩ := h.current t ht
  have hnew : t ∉ (s.requested r).map LockEntry.txn := by
    intro hmem
    obtain ⟨en, hen, rfl⟩ := List.mem_map.mp hmem
    exact hr ((h.fifo r).locked en hen)
  have hsub := (h.fifo r).order
  rw [hpre] at hsub ⊢
  rw [map_append]
  refine List.Sublist.append ?_ (List.Sublist.refl _)
  obtain ⟨l₁, l₂, heq, h₁, h₂⟩ := List.sublist_append_iff.mp hsub
  rcases List.sublist_singleton.mp h₂ with rfl | rfl
  · rw [heq, append_nil]
    exact h₁
  · exact absurd (heq ▸ mem_append_right _ mem_cons_self) hnew

/-- After a request on row `r` the rows are served in order, if row `r` is. -/
theorem Inv.afterGet (ht : t ∈ s.pc.txn) (hr : r ∉ s.lockedRows t) {m : LockT} {l : RowLock T}
    {g : List (LockEntry T)} {rd : T → LockReady} (hrep : l.Represents .CALVIN l.owners)
    (hproper : ∀ w ∈ l.waiters, w.type ≠ .NONE)
    (hqueue : g ++ l.waiters = s.requested r ++ [⟨m, t⟩]) (howners : ∀ en ∈ l.owners, en ∈ g) :
    Inv (s.afterGet t r ⟨m, t⟩ l g rd) := by
  have hgrow : ∀ x t', x ∈ s.lockedRows t' →
      x ∈ update s.lockedRows t (s.lockedRows t ++ [r]) t' := by
    intro x t' hx
    rcases eq_or_ne t' t with rfl | hne
    · rw [update_self]
      exact mem_append_left _ hx
    · rwa [update_of_ne hne]
  refine ⟨fun x => ?_, h.nodup, h.current⟩
  rcases eq_or_ne x r with rfl | hne
  · constructor <;> simp only [State.afterGet, update_self]
    case order => exact h.order_append ht hr m
    case locked =>
      intro en hen
      rcases mem_append.mp hen with hen | hen
      · exact hgrow x _ ((h.fifo x).locked en hen)
      · obtain rfl := mem_singleton.mp hen
        rw [update_self]
        exact mem_append_right _ mem_cons_self
    all_goals assumption
  · exact (h.fifo x).frame (update_of_ne hne _ _) (update_of_ne hne _ _)
      (update_of_ne hne _ _) (hgrow x) (List.Sublist.refl _)

theorem Inv.getLock (ht : t ∈ s.pc.txn) (rq : LockRequest R) : Inv (getLock C t rq s).2 := by
  have hfifo := h.fifo rq.row
  rcases getLock_cases hfifo.rep with
    ⟨-, heq⟩ | ⟨hr, ⟨l, hnone, hw, hl, heq⟩ | ⟨l, hw, hl, heq⟩⟩
  · rw [heq]
    exact h
  · -- granted: all earlier requests were
    rw [heq]
    have howners := hl.listed (by decide)
    refine h.afterGet ht hr (howners ▸ hl) ?_ ?_ ?_
    · rw [hw]
      nofun
    · rw [hw, append_nil, ← hfifo.queue, hnone, append_nil]
    · rw [howners]
      intro en hen
      rcases mem_cons.mp hen with rfl | hen
      · exact mem_append_right _ mem_cons_self
      · exact mem_append_left _ (hfifo.owners en hen)
  · rw [heq]
    have howners := hl.listed (by decide)
    refine h.afterGet ht hr (howners ▸ hl) ?_ ?_ ?_
    · rw [hw]
      intro w hw
      rcases mem_append.mp hw with hw | hw
      · exact hfifo.proper w hw
      · obtain rfl := mem_singleton.mp hw
        exact lockOf_ne_none _
    · rw [hw, ← append_assoc, hfifo.queue]
    · rw [howners]
      exact hfifo.owners

omit [DecidableEq R] [DecidableEq T] in
/-- Steps of the scheduler that only touch managers and queues of transactions. -/
theorem Inv.frame (hlock : s'.lock = s.lock) (hreq : s'.requested = s.requested)
    (hgranted : s'.granted = s.granted) (hrows : s'.lockedRows = s.lockedRows)
    (hsched : s'.scheduled = s.scheduled) (hpc : ∀ t ∈ s'.pc.txn, t ∈ s.pc.txn) : Inv s' where
  fifo r := (h.fifo r).frame (by rw [hlock]) (by rw [hreq]) (by rw [hgranted])
    (by rw [hrows]; exact fun _ => id) (by rw [hsched])
  nodup := hsched ▸ h.nodup
  current t ht := hsched ▸ h.current t (hpc t ht)

theorem Inv.scheduler (hs : scheduler C s = some s') : Inv s' := by
  unfold CalvinLocks.scheduler at hs
  split at hs
  · cases hs
  next t hpc =>
    cases hs
    exact h.frame rfl rfl rfl rfl rfl fun x hx => by rw [hpc]; exact hx
  next t rq rest rc hpc =>
    cases hs
    have ht : t ∈ s.pc.txn := by rw [hpc]; rfl
    refine (h.getLock ht rq).frame rfl rfl rfl rfl rfl fun x hx => ?_
    rw [getLock_pc, hpc]
    exact hx
  next t rc hpc =>
    cases hs
    refine h.frame rfl rfl rfl rfl rfl fun x hx => ?_
    rw [hpc]
    split at hx <;> exact hx
  next t rc hpc =>
    split at hs <;> obtain rfl := some.inj hs <;>
      exact h.frame rfl rfl rfl rfl rfl fun x hx => by rw [hpc]; exact hx
  next t rc hpc =>
    cases hs
    exact h.frame rfl rfl rfl rfl rfl nofun

theorem Inv.release (hs : step C mayRelease s (.release t r) = some s') : Inv s' := by
  have hfifo := h.fifo r
  obtain ⟨-, l, ps, hsplit, hrep, howners, -, -, rfl⟩ := release_cases hfifo.rep hfifo.proper hs
  refine ⟨fun x => ?_, h.nodup, h.current⟩
  rcases eq_or_ne x r with rfl | hne
  · constructor <;> simp only [update_self]
    case rep => exact hrep
    case proper =>
      intro w hw
      exact hfifo.proper w (by rw [hsplit]; exact mem_append_right _ hw)
    case queue => rw [append_assoc, ← hsplit, hfifo.queue]
    case owners =>
      intro en hen
      rcases howners en hen with hen | hen
      · exact mem_append_right _ hen
      · exact mem_append_left _ (hfifo.owners en hen)
    case order => exact hfifo.order
    case locked => exact hfifo.locked
  · exact (h.fifo x).frame (update_of_ne hne _ _) rfl (update_of_ne hne _ _)
      (fun _ => id) (List.Sublist.refl _)

/-- **Every step keeps the invariant.** -/
theorem inv_step {a : Action R T} (hs : step C mayRelease s a = some s') : Inv s' := by
  cases a with
  | schedule t =>
    obtain ⟨⟨hidle, hnew⟩, hs⟩ := ite_none_right_eq_some.mp hs
    cases hs
    refine ⟨fun r => ?_, ?_, fun x hx => ?_⟩
    · exact (h.fifo r).frame rfl rfl rfl (fun _ => id) (sublist_append_left _ _)
    · exact h.nodup.append (nodup_singleton t) (List.disjoint_singleton.mpr hnew)
    · have hxt : x = t := by
        split at hx <;> exact (some.inj hx).symm
      exact ⟨s.scheduled, by rw [hxt]⟩
  | scheduler => exact h.scheduler hs
  | release t r => exact h.release hs
  | decrLr t =>
    obtain ⟨-, hs⟩ := ite_none_right_eq_some.mp hs
    cases hs
    exact h.frame rfl rfl rfl rfl rfl fun _ => id
  | cas t =>
    obtain ⟨-, hs⟩ := ite_none_right_eq_some.mp hs
    split at hs <;> obtain rfl := some.inj hs <;>
      exact h.frame rfl rfl rfl rfl rfl fun _ => id

end

theorem reachable_inv (hs : (machine C mayRelease).Reachable s) : Inv s :=
  hs.invariant inv_init fun _ _ _ h hstep => inv_step h hstep

end Inv

/-! ## Nobody waits for a later transaction -/

/-- `T` waits on a row on which `U` owns the lock or is queued ahead. -/
def WaitsFor (s : State R T) (t u : T) : Prop :=
  ∃ r, ∃ ahead w behind, (s.lock r).waiters = ahead ++ w :: behind ∧ w.txn = t ∧
    ((∃ en ∈ (s.lock r).owners, en.txn = u) ∨ ∃ en ∈ ahead, en.txn = u)

omit [DecidableEq R] in
/-- Whoever is waited for was scheduled before. -/
theorem Inv.idxOf_lt {s : State R T} (h : Inv s) {t u : T} (hw : WaitsFor s t u) :
    s.scheduled.idxOf u < s.scheduled.idxOf t := by
  obtain ⟨r, ahead, w, behind, hwaiters, rfl, hu⟩ := hw
  have hfifo := h.fifo r
  -- the request of `u` stands before that of `t`
  have hsplit : ∃ en ∈ s.granted r ++ ahead, en.txn = u := by
    rcases hu with ⟨en, hen, rfl⟩ | ⟨en, hen, rfl⟩
    · exact ⟨en, mem_append_left _ (hfifo.owners en hen), rfl⟩
    · exact ⟨en, mem_append_right _ hen, rfl⟩
  obtain ⟨en, hen, rfl⟩ := hsplit
  have hpair : [en.txn, w.txn].Sublist s.scheduled := by
    refine List.Sublist.trans ?_ hfifo.order
    rw [← hfifo.queue, hwaiters, ← append_assoc, map_append]
    exact List.Sublist.append (List.singleton_sublist.mpr (List.mem_map_of_mem hen))
      (List.singleton_sublist.mpr mem_cons_self)
  -- no transaction is scheduled twice, so the parts of the schedule that hold them are disjoint
  obtain ⟨l₁, l₂, hl, hu, ht⟩ := List.cons_sublist_iff.mp hpair
  have ht' : w.txn ∈ l₂ := List.singleton_sublist.mp ht
  have hnot : w.txn ∉ l₁ := by
    have hnd := h.nodup
    rw [hl] at hnd
    exact fun h₁ => (disjoint_of_nodup_append hnd) h₁ ht'
  rw [hl, idxOf_append_of_mem hu, idxOf_append_of_notMem hnot]
  exact (idxOf_lt_length_of_mem hu).trans_le (Nat.le_add_right _ _)

/-- **Calvin's row locks are served in order and do not deadlock.** On each row the grants are a
beginning of the requests; whoever waits, waits for transactions scheduled before; so nobody waits
for itself through others. -/
theorem calvinLocks_fifo (C : Config R T) {s : State R T} (hs : (machine C anyOwner).Reachable s) :
    (∀ r, s.granted r <+: s.requested r) ∧
      (∀ t u, WaitsFor s t u → s.scheduled.idxOf u < s.scheduled.idxOf t) ∧
      ∀ t, ¬ Relation.TransGen (WaitsFor s) t t := by
  have h := reachable_inv hs
  refine ⟨fun r => ⟨_, (h.fifo r).queue⟩, fun t u => h.idxOf_lt, fun t => ?_⟩
  exact acyclic_of_strictMono (γ := ℕᵒᵈ) (fun t => .toDual (s.scheduled.idxOf t))
    (fun hw => OrderDual.toDual_lt_toDual.mpr (h.idxOf_lt hw)) t

/-- Transactions that all write row `0`. -/
def oneRow : Config ℕ ℕ := ⟨fun _ => [⟨0, .WR, true⟩], fun _ => false, id⟩

/-- The second transaction waits for the first. -/
theorem calvinLocks_fifo_oneRow : ∃ s ∈ (machine oneRow anyOwner).run
      ([.schedule 0] ++ List.replicate 5 .scheduler ++ [.schedule 1, .scheduler, .scheduler]),
    WaitsFor s 1 0 ∧ s.granted 0 <+: s.requested 0 ∧ s.scheduled.idxOf 0 < s.scheduled.idxOf 1 ∧
      ¬ Relation.TransGen (WaitsFor s) 1 1 := by
  have hrun : ∃ s ∈ (machine oneRow anyOwner).run
        ([.schedule 0] ++ List.replicate 5 .scheduler ++ [.schedule 1, .scheduler, .scheduler]),
      (s.lock 0).owners = [⟨.EX, 0⟩] ∧ (s.lock 0).waiters = [⟨.EX, 1⟩] := by decide +kernel
  obtain ⟨s, hs, howners, hwaiters⟩ := hrun
  have hw : WaitsFor s 1 0 :=
    ⟨0, [], ⟨.EX, 1⟩, [], hwaiters, rfl, .inl ⟨⟨.EX, 0⟩, by rw [howners]; exact mem_cons_self, rfl⟩⟩
  obtain ⟨hfront, horder, hcycle⟩ := calvinLocks_fifo oneRow (.of_run hs)
  exact ⟨s, hs, hw, hfront 0, horder 1 0 hw, hcycle 1⟩

end CalvinLocks

end Deneva
