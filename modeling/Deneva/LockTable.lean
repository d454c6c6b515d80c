import Deneva.RowLock

/-!
# The locks of all rows

A `LockTable` is what the lock requests of all transactions act on: one `RowLock`
per row and one `LockReady` per transaction. `get` and `release` are
`Row_lock::lock_get` and `Row_lock::lock_release` on a row, with what they write
into the transaction managers: a request that waits clears `lock_ready` and
counts in `lock_ready_cnt`, a granted one counts down and restarts its
transaction.

`Holds` extends `RowLock.Represents` to the table: beside the holders of every
row it says that a waiting transaction waits in one list only, and that its
`LockReady` says so. `get_spec` and `release_spec` are all that the developments
above use of the two operations.
-/

namespace Deneva

universe u v

open Function List

/-- The row locks, and the `lock_ready` fields of the transaction managers. -/
structure LockTable (R : Type u) (T : Type v) where
  /-- the lock of each row -/
  lock : R → RowLock T
  /-- the request state of each transaction -/
  ready : T → LockReady

namespace LockTable

variable {R : Type u} {T : Type v}

/-- All rows free, and every transaction manager as `TxnManager::init` leaves it. -/
def init : LockTable R T := ⟨fun _ => RowLock.init, fun _ => ⟨false, 0⟩⟩

/-- The writes of the loop of `lock_release` into the managers of the entries it
grants; the list names the transactions it restarts. -/
def wakeAll [DecidableEq T] : List (LockEntry T) → (T → LockReady) → (T → LockReady) × List T
  | [], rd => (rd, [])
  | e :: es, rd =>
    let w := (rd e.txn).wake
    let r := wakeAll es (update rd e.txn w.1)
    (r.1, if w.2 then e.txn :: r.2 else r.2)

variable [DecidableEq R] [DecidableEq T]

/-- `lock_get` on a row of the table. -/
def get (cc : LockAlg) (ts : T → ℕ) (r : R) (type : LockT) (txn : T) (s : LockTable R T) :
    RC × LockTable R T :=
  let x := RowLock.lockGet cc ts type txn (s.lock r)
  (x.1, { lock := update s.lock r x.2
          ready := if x.1 = .WAIT then update s.ready txn (s.ready txn).wait
                   else s.ready })

/-- `lock_release` on a row of the table, with the transactions it restarts. -/
def release (cc : LockAlg) (ts : T → ℕ) (r : R) (txn : T) (s : LockTable R T) :
    Option (LockTable R T × List T) :=
  (RowLock.lockRelease cc ts false txn (s.lock r)).map fun x =>
    let w := wakeAll x.2 s.ready
    (⟨update s.lock r x.1, w.1⟩, w.2)

/-- The part of `TxnManager::reset` that concerns lock requests. -/
def reset (txn : T) (s : LockTable R T) : LockTable R T :=
  { s with ready := update s.ready txn ⟨false, 0⟩ }

/-! ## Holders and waiters of a table -/

/-- A transaction waits on a row. -/
def Waiting (s : LockTable R T) (r : R) (t : T) : Prop := ∃ w ∈ (s.lock r).waiters, w.txn = t

/-- The table is a correct summary of the holders `H r` of every row `r`. -/
structure Holds (cc : LockAlg) (s : LockTable R T) (H : R → List (LockEntry T)) : Prop where
  /-- each row's lock summarises its holders -/
  rep : ∀ r, (s.lock r).Represents cc (H r)
  /-- waiters wait for a proper mode -/
  proper : ∀ r, ∀ w ∈ (s.lock r).waiters, w.type ≠ .NONE
  /-- a transaction stands in a waiter list once -/
  nodup : ∀ r, ((s.lock r).waiters.map LockEntry.txn).Nodup
  /-- a transaction waits on one row only -/
  one : ∀ r r' t, s.Waiting r t → s.Waiting r' t → r = r'
  /-- a waiting transaction counts its one request -/
  waiting : ∀ r t, s.Waiting r t → s.ready t = ⟨false, 1⟩

omit [DecidableEq R] [DecidableEq T] in
theorem holds_init (cc : LockAlg) : Holds cc (init : LockTable R T) fun _ => [] where
  rep _ := RowLock.represents_init cc
  proper _ w hw := absurd hw not_mem_nil
  nodup _ := nodup_nil
  one _ _ _ h _ := by obtain ⟨w, hw, _⟩ := h; exact absurd hw not_mem_nil
  waiting _ _ h := by obtain ⟨w, hw, _⟩ := h; exact absurd hw not_mem_nil

variable {cc : LockAlg} {s : LockTable R T} {H : R → List (LockEntry T)} {txn : T}

omit [DecidableEq R] [DecidableEq T] in
/-- A transaction without outstanding requests waits nowhere. -/
theorem Holds.not_waiting
    (hs : Holds cc s H) {t : T} (ht : (s.ready t).lockReadyCnt = 0) (r : R) : ¬ s.Waiting r t := by
  intro h
  rw [hs.waiting r t h] at ht
  exact absurd ht (by decide)

/-- Waking entries of distinct transactions that each wait for this one request
restarts all of them, in order, and touches nobody else. -/
theorem wakeAll_spec {es : List (LockEntry T)} (hnd : (es.map LockEntry.txn).Nodup) :
    ∀ {rd : T → LockReady}, (∀ e ∈ es, rd e.txn = ⟨false, 1⟩) →
      (wakeAll es rd).2 = es.map LockEntry.txn ∧
        ∀ t, (wakeAll es rd).1 t = if t ∈ es.map LockEntry.txn then ⟨true, 0⟩ else rd t := by
  induction es with
  | nil => exact fun _ => ⟨rfl, fun t => by simp [wakeAll]⟩
  | cons e es ih =>
    intro rd hrd
    rw [map_cons, nodup_cons] at hnd
    have hwake : (rd e.txn).wake = (⟨true, 0⟩, true) := by rw [hrd e (by simp)]; rfl
    have hrest : ∀ x ∈ es, update rd e.txn ⟨true, 0⟩ x.txn = ⟨false, 1⟩ := by
      intro x hx
      have hne : x.txn ≠ e.txn := fun h => hnd.1 (h ▸ List.mem_map_of_mem hx)
      rw [update_of_ne hne]
      exact hrd x (mem_cons_of_mem _ hx)
    obtain ⟨hlist, hready⟩ := ih hnd.2 hrest
    simp only [wakeAll, hwake]
    refine ⟨by simp [hlist], fun t => ?_⟩
    rw [hready]
    by_cases ht : t = e.txn
    · simp [ht]
    · simp [ht]

omit [DecidableEq R] in
/-- A transaction that waits nowhere may be reset. -/
theorem Holds.reset (hs : Holds cc s H) (ht : ∀ r, ¬ s.Waiting r txn) :
    Holds cc (s.reset txn) H := by
  refine ⟨hs.rep, hs.proper, hs.nodup, hs.one, fun r t hw => ?_⟩
  have hne : t ≠ txn := fun h => ht r (h ▸ hw)
  show update s.ready txn ⟨false, 0⟩ t = _
  rw [update_of_ne hne]
  exact hs.waiting r t hw

/-! ## What the two operations do -/

/-- What `get` can answer, and what it then does to holders and waiters. -/
inductive GetResult (cc : LockAlg) (r : R) (type : LockT) (txn : T) (s : LockTable R T)
    (H : R → List (LockEntry T)) : RC → LockTable R T → Prop where
  /-- granted: all holders of the row then share, unless it is the only one -/
  | granted {s'} (hold : Holds cc s' (update H r (⟨type, txn⟩ :: H r)))
      (shared : ∀ x ∈ H r, x.type = .SH ∧ type = .SH)
      (waiters : ∀ r', (s'.lock r').waiters = (s.lock r').waiters) (ready : s'.ready = s.ready) :
      GetResult cc r type txn s H .RCOK s'
  /-- queued -/
  | wait {s'} (hold : Holds cc s' H) (alg : cc ≠ .NO_WAIT)
      (waiters : ∀ r' w, w ∈ (s'.lock r').waiters ↔
        w ∈ (s.lock r').waiters ∨ (r' = r ∧ w = ⟨type, txn⟩))
      (ready : ∀ t, t ≠ txn → s'.ready t = s.ready t) :
      GetResult cc r type txn s H .WAIT s'
  /-- refused: nothing changes -/
  | abort : GetResult cc r type txn s H .Abort s

/-- **The specification of `get`** for a transaction that waits nowhere. -/
theorem get_spec {ts : T → ℕ} {r : R} {type : LockT} {s' : LockTable R T} {rc : RC}
    (hs : Holds cc s H) (htype : type ≠ .NONE) (hidle : (s.ready txn).lockReadyCnt = 0)
    (h : get cc ts r type txn s = (rc, s')) : GetResult cc r type txn s H rc s' := by
  have hnw := hs.not_waiting hidle
  rcases hx : RowLock.lockGet cc ts type txn (s.lock r) with ⟨rc₀, l'⟩
  simp only [get, hx] at h
  cases h
  rcases RowLock.lockGet_spec (hs.rep r) htype hx with
    ⟨rfl, hrep, hw, hsh⟩ | ⟨rfl, hrep, hcc, hw⟩ | ⟨rfl, rfl⟩
  · -- granted: no waiter list changes
    have hwait : ∀ r', (update s.lock r l' r').waiters = (s.lock r').waiters := by
      intro r'
      by_cases hr : r' = r
      · subst hr; rwa [update_self]
      · rw [update_of_ne hr]
    simp only [reduceCtorEq, if_false]
    refine .granted ⟨fun r' => ?_, ?_, ?_, ?_, ?_⟩ hsh hwait rfl
    · by_cases hr : r' = r
      · subst hr; simpa using hrep
      · simpa [update_of_ne hr] using hs.rep r'
    · intro r' w; rw [hwait]; exact hs.proper r' w
    · intro r'; rw [hwait]; exact hs.nodup r'
    · intro r₁ r₂ t; unfold Waiting; rw [hwait, hwait]; exact hs.one r₁ r₂ t
    · intro r' t; unfold Waiting; rw [hwait]; exact hs.waiting r' t
  · -- queued: the transaction joins the waiters of this row, and waits nowhere else
    have hready : (s.ready txn).wait = ⟨false, 1⟩ := by unfold LockReady.wait; rw [hidle]
    have hwait : ∀ r' w, w ∈ (update s.lock r l' r').waiters ↔
        w ∈ (s.lock r').waiters ∨ (r' = r ∧ w = ⟨type, txn⟩) := by
      intro r' w
      by_cases hr : r' = r
      · subst hr
        rw [update_self, hw.mem_iff, mem_cons]
        tauto
      · rw [update_of_ne hr]
        tauto
    have hwaiting : ∀ r' t, Waiting ⟨update s.lock r l', s.ready⟩ r' t ↔
        s.Waiting r' t ∨ (r' = r ∧ t = txn) := by
      intro r' t
      unfold Waiting
      simp only [hwait]
      constructor
      · rintro ⟨w, hw | ⟨hr, rfl⟩, rfl⟩
        · exact .inl ⟨w, hw, rfl⟩
        · exact .inr ⟨hr, rfl⟩
      · rintro (⟨w, hw, rfl⟩ | ⟨hr, rfl⟩)
        · exact ⟨w, .inl hw, rfl⟩
        · exact ⟨_, .inr ⟨hr, rfl⟩, rfl⟩
    simp only [if_true, hready]
    refine .wait ⟨fun r' => ?_, ?_, ?_, ?_, ?_⟩ hcc hwait fun t ht => update_of_ne ht _ _
    · by_cases hr : r' = r
      · subst hr; simpa using hrep
      · simpa [update_of_ne hr] using hs.rep r'
    · intro r' w hmem
      rcases (hwait r' w).mp hmem with hmem | ⟨_, rfl⟩
      · exact hs.proper r' w hmem
      · exact htype
    · intro r'
      by_cases hr : r' = r
      · subst hr
        simp only [update_self]
        rw [(hw.map LockEntry.txn).nodup_iff, map_cons, nodup_cons]
        refine ⟨fun hmem => hnw r' ?_, hs.nodup r'⟩
        obtain ⟨w, hw, hwt⟩ := List.mem_map.mp hmem
        exact ⟨w, hw, hwt⟩
      · simpa [update_of_ne hr] using hs.nodup r'
    · intro r₁ r₂ t h₁ h₂
      rcases (hwaiting r₁ t).mp h₁ with hw₁ | ⟨hr₁, ht₁⟩ <;>
        rcases (hwaiting r₂ t).mp h₂ with hw₂ | ⟨hr₂, ht₂⟩
      · exact hs.one r₁ r₂ t hw₁ hw₂
      · exact absurd hw₁ (ht₂ ▸ hnw r₁)
      · exact absurd hw₂ (ht₁ ▸ hnw r₂)
      · exact hr₁.trans hr₂.symm
    · intro r' t ht
      by_cases htx : t = txn
      · subst htx; exact update_self ..
      · rcases (hwaiting r' t).mp ht with ht | ⟨_, rfl⟩
        · simpa [update_of_ne htx] using hs.waiting r' t ht
        · exact absurd rfl htx
  · simp only [reduceCtorEq, if_false, update_eq_self]
    exact .abort

/-- **The specification of `release`** for a holder `txn` of the row: it leaves the
holders, a front part `ps` of the waiters joins them, and exactly those are
restarted. -/
theorem release_spec (ts : T → ℕ) {r : R} (hs : Holds cc s H) (hmem : ∃ e ∈ H r, e.txn = txn) :
    ∃ s' ps, release cc ts r txn s = some (s', ps.map LockEntry.txn) ∧
      (s.lock r).waiters = ps ++ (s'.lock r).waiters ∧
      (∀ r', r' ≠ r → (s'.lock r').waiters = (s.lock r').waiters) ∧
      (∀ t, s'.ready t = if t ∈ ps.map LockEntry.txn then ⟨true, 0⟩ else s.ready t) ∧
      Holds cc s' (update H r
        (ps.reverse ++ (H r).eraseP fun en => decide (en.txn = txn))) := by
  obtain ⟨l', ps, hrel, hsplit, hrep⟩ := RowLock.lockRelease_spec ts (hs.rep r) (hs.proper r)
    hmem
  have hnd : ((ps ++ l'.waiters).map LockEntry.txn).Nodup := hsplit ▸ hs.nodup r
  rw [map_append, nodup_append] at hnd
  obtain ⟨hndp, hndw, hdisj⟩ := hnd
  have hps : ∀ e ∈ ps, s.ready e.txn = ⟨false, 1⟩ := fun e he =>
    hs.waiting r e.txn ⟨e, by rw [hsplit]; exact mem_append_left _ he, rfl⟩
  obtain ⟨hlist, hready⟩ := wakeAll_spec hndp hps
  have hsub : ∀ r' w, w ∈ (update s.lock r l' r').waiters → w ∈ (s.lock r').waiters := by
    intro r' w hw
    by_cases hr : r' = r
    · subst hr
      rw [update_self] at hw
      rw [hsplit]
      exact mem_append_right _ hw
    · rwa [update_of_ne hr] at hw
  have hwaiting : ∀ r' t, Waiting ⟨update s.lock r l', s.ready⟩ r' t → s.Waiting r' t :=
    fun r' t ⟨w, hw, hwt⟩ => ⟨w, hsub r' w hw, hwt⟩
  refine ⟨⟨update s.lock r l', (wakeAll ps s.ready).1⟩, ps, ?_, ?_, ?_, hready, ?_⟩
  · simp [release, hrel, hlist]
  · simpa using hsplit
  · intro r' hr
    simp [update_of_ne hr]
  · refine ⟨fun r' => ?_, fun r' w hw => hs.proper r' w (hsub r' w hw), ?_, ?_, ?_⟩
    · by_cases hr : r' = r
      · subst hr; simpa using hrep
      · simpa [update_of_ne hr] using hs.rep r'
    · intro r'
      by_cases hr : r' = r
      · subst hr; simpa using hndw
      · simpa [update_of_ne hr] using hs.nodup r'
    · exact fun r₁ r₂ t h₁ h₂ => hs.one r₁ r₂ t (hwaiting r₁ t h₁) (hwaiting r₂ t h₂)
    · intro r' t ht
      -- whoever still waits was not among the restarted ones
      have hnot : t ∉ ps.map LockEntry.txn := by
        intro hmem'
        obtain ⟨e, he, rfl⟩ := List.mem_map.mp hmem'
        have hr : r' = r := hs.one r' r e.txn (hwaiting r' _ ht)
          ⟨e, by rw [hsplit]; exact mem_append_left _ he, rfl⟩
        subst hr
        obtain ⟨w, hw, hwt⟩ := ht
        simp only [update_self] at hw
        exact hdisj e.txn hmem' w.txn (List.mem_map_of_mem hw) hwt.symm
      show (wakeAll ps s.ready).1 t = _
      rw [hready, if_neg hnot]
      exact hs.waiting r' t (hwaiting r' t ht)

end LockTable

end Deneva
