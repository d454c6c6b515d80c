import Deneva.StrictTwoPhase

/-!
# Strict two-phase locking is serializable

The invariant `Inv` of `StrictTwoPhase.machine` relates four things: who holds
which row (`held`), the contents of the rows, the before-images saved in
`orig_data`, and the store `S` that the commits made so far produce serially.

* A row that no open attempt may have changed (`Dirty`) holds `S`.
* Every before-image that may still be needed (`exposed`) is `S`.
* Each open attempt has done, up to now, what it does alone from `S`
  (`Progress`), on rows it holds.

Rows that one transaction may change are held by no other (`Inv.excl`), so a step
of one transaction leaves the invariant of the others alone
(`TxnInv.frame`). `Inv.update` says this once for all steps that do not change
holders; `inv_getRow` and `inv_release` are the two that do.
-/

namespace Deneva

universe u v w

open Function List Option

namespace StrictTwoPhase

open TxnState

variable {R : Type u} {T : Type v} {V : Type w}

namespace TxnState

/-- The rows a transaction holds a lock on, with the access kind. -/
def held (x : TxnState R V) : List (R × AccessT) :=
  (match x.phase with
    | .granted r a _ => [(r, a)]
    | _ => []) ++ x.accesses.map fun acc => (acc.row, acc.type)

/-- The accesses that an abort would still have to undo. -/
def exposed (x : TxnState R V) : List (Access R V) :=
  match x.phase with
  | .cleanup .Abort true => x.accesses.tail
  | .cleanup .Abort false => x.accesses
  | .cleanup _ _ => []
  | _ => x.accesses

/-- The row may hold a value that an abort would undo. -/
def Dirty (x : TxnState R V) (r : R) : Prop := ∃ acc ∈ x.exposed, acc.row = r ∧ acc.type = .WR

/-- The rows with a recorded access. -/
def rows (x : TxnState R V) : List R := x.accesses.map Access.row

/-- The rows with a recorded `WR` access. -/
def wrRows (x : TxnState R V) : List R :=
  (x.accesses.filter fun acc => decide (acc.type = .WR)).map Access.row

variable {x : TxnState R V}

theorem mem_wrRows {r : R} : r ∈ x.wrRows ↔ ∃ acc ∈ x.accesses, acc.row = r ∧ acc.type = .WR := by
  simp [wrRows, and_assoc, and_comm]

theorem mem_rows {r : R} : r ∈ x.rows ↔ ∃ acc ∈ x.accesses, acc.row = r := by
  simp [rows]

theorem held_of_mem {acc : Access R V} (h : acc ∈ x.accesses) : (acc.row, acc.type) ∈ x.held :=
  mem_append_right _ (List.mem_map.mpr ⟨acc, h, rfl⟩)

theorem exposed_subset {acc : Access R V} (h : acc ∈ x.exposed) : acc ∈ x.accesses := by
  unfold exposed at h
  split at h
  · exact mem_of_mem_tail h
  · exact h
  · exact absurd h not_mem_nil
  · exact h

end TxnState

variable [DecidableEq R] [DecidableEq T]

/-- An open attempt of the program `p₀` that still has to run `p`, against the serial
store `S` and the contents `c`. -/
structure Open (p₀ : Prog R V) (S c : R → V) (x : TxnState R V) (p : Prog R V) : Prop where
  /-- what it did is what it does alone -/
  progress : Progress p₀ S x.rows x.wrRows c p x.reads
  /-- the before-images are right -/
  saved : ∀ acc ∈ x.accesses, acc.type = .WR → acc.origData = some (S acc.row)
  /-- no row is accessed twice -/
  once : x.rows.Nodup

/-- The invariant of one transaction. -/
def TxnInv (p₀ : Prog R V) (S c : R → V) (x : TxnState R V) : Prop :=
  match x.phase with
  | .idle => x.accesses = []
  | .running p => Open p₀ S c x p
  | .waiting r a k => Open p₀ S c x (.getRow r a k) ∧ r ∉ x.rows
  | .granted r a k => Open p₀ S c x (.getRow r a k) ∧ r ∉ x.rows
  | .cleanup _ _ =>
    x.rows.Nodup ∧ ∀ acc ∈ x.exposed, acc.type = .WR → acc.origData = some (S acc.row)
  | .committed => x.accesses = []

variable {p₀ : Prog R V} {S c : R → V} {x : TxnState R V}

/-- The others may change rows this transaction has no access to, and the serial
store there. -/
theorem Open.frame {p : Prog R V} {S' c' : R → V}
    (h : Open p₀ S c x p) (hS : ∀ acc ∈ x.accesses, S' acc.row = S acc.row)
    (hc : ∀ acc ∈ x.accesses, acc.type = .WR → c' acc.row = c acc.row) : Open p₀ S' c' x p where
  progress := by
    refine h.progress.frame (fun r hr => ?_) (fun r hr => ?_)
    · obtain ⟨acc, hacc, rfl⟩ := mem_rows.mp hr
      exact hS acc hacc
    · obtain ⟨acc, hacc, rfl, hwr⟩ := mem_wrRows.mp hr
      exact hc acc hacc hwr
  saved acc hacc hwr := by
    rw [hS acc hacc]
    exact h.saved acc hacc hwr
  once := h.once

theorem TxnInv.frame {S' c' : R → V} (h : TxnInv p₀ S c x)
    (hS : ∀ acc ∈ x.accesses, S' acc.row = S acc.row)
    (hc : ∀ acc ∈ x.accesses, acc.type = .WR → c' acc.row = c acc.row) : TxnInv p₀ S' c' x := by
  obtain ⟨ph, accs, rd⟩ := x
  cases ph with
  | idle | committed => exact h
  | running p => exact Open.frame h hS hc
  | waiting r a k | granted r a k => exact ⟨h.1.frame hS hc, h.2⟩
  | cleanup rc b =>
    refine ⟨h.1, fun acc hacc hwr => ?_⟩
    rw [hS acc (exposed_subset hacc)]
    exact h.2 acc hacc hwr

/-- Nothing is left of an attempt that is over. -/
theorem TxnInv.accesses_nil (h : TxnInv p₀ S c x) (hx : ¬ x.InProgress) : x.accesses = [] := by
  obtain ⟨ph, accs, rd⟩ := x
  cases ph with
  | idle => exact h
  | committed => exact h
  | _ => exact absurd ⟨by simp, by simp⟩ hx

/-- The store the commits made so far produce one after another. -/
def serialStore (prog : T → Prog R V) (S₀ : R → V) (commits : List (T × List (R × V))) : R → V :=
  (serial prog (commits.map Prod.fst) S₀).1

/-- Locks and transactions agree; `H` are the holders of each row. -/
structure LockInv (cc : LockAlg) (table : LockTable R T) (txn : T → TxnState R V)
    (H : R → List (LockEntry T)) : Prop where
  /-- the lock table summarises the holders -/
  holds : table.Holds cc H
  /-- the holders are the transactions that believe to hold the row -/
  held : ∀ r e, e ∈ H r ↔ ∃ a, (r, a) ∈ (txn e.txn).held ∧ lockOf a = e.type
  /-- a transaction holds a row once -/
  nodup : ∀ r, ((H r).map LockEntry.txn).Nodup
  /-- whoever stands in a waiter list waits for that row -/
  waiting : ∀ r, ∀ w ∈ (table.lock r).waiters,
    ∃ a k, (txn w.txn).phase = .waiting r a k ∧ lockOf a = w.type
  /-- whoever does not wait has no outstanding request -/
  ready : ∀ t, (∀ r a k, (txn t).phase ≠ .waiting r a k) → (table.ready t).lockReadyCnt = 0

/-- Contents, before-images and commits agree. -/
structure DataInv (prog : T → Prog R V) (S₀ c : R → V) (txn : T → TxnState R V)
    (commits : List (T × List (R × V))) : Prop where
  /-- what the commits read is what they read serially -/
  reads : commits = (serial prog (commits.map Prod.fst) S₀).2
  /-- a row no open attempt may have changed holds the serial store -/
  clean : ∀ r, (∀ t, ¬ (txn t).Dirty r) → c r = serialStore prog S₀ commits r
  /-- the invariant of every transaction -/
  txn : ∀ t, TxnInv (prog t) (serialStore prog S₀ commits) c (txn t)

/-- The invariant of the machine. -/
structure Inv (cc : LockAlg) (prog : T → Prog R V) (S₀ : R → V) (s : State R T V)
    (H : R → List (LockEntry T)) : Prop where
  /-- locks and transactions agree -/
  lock : LockInv cc s.table s.txn H
  /-- contents, before-images and commits agree -/
  data : DataInv prog S₀ s.content s.txn s.commits

section

variable {cc : LockAlg} {prog : T → Prog R V} {S₀ : R → V} {s : State R T V}
  {H : R → List (LockEntry T)}

variable {table : LockTable R T} {txn : T → TxnState R V} {r : R} {a : AccessT} {t : T}
  {acc : Access R V}
  {x : TxnState R V} {c : R → V} {commits : List (T × List (R × V))} {s' : State R T V}
  {rd : List (R × V)}
  {ts : T → ℕ} {e : LockEntry T}

omit [DecidableEq R] [DecidableEq T] in
/-- A row held for a write is held by one transaction. -/
theorem LockInv.excl (h : LockInv cc table txn H) {b : AccessT} {u : T} (ht : (r, a) ∈ (txn t).held)
    (ha : lockOf a = .EX) (hu : (r, b) ∈ (txn u).held) : u = t := by
  have hmt : (⟨lockOf a, t⟩ : LockEntry T) ∈ H r := (h.held r _).mpr ⟨a, ht, rfl⟩
  have hmu : (⟨lockOf b, u⟩ : LockEntry T) ∈ H r := (h.held r _).mpr ⟨b, hu, rfl⟩
  have hrep := h.holds.rep r
  have hlen : (H r).length ≤ 1 := hrep.excl ((hrep.mode _ hmt).symm.trans ha)
  -- two entries of a list of length one
  obtain ⟨e, he⟩ := List.length_eq_one_iff.mp (le_antisymm hlen (length_pos_of_mem hmt))
  rw [he, mem_singleton] at hmt hmu
  exact congrArg LockEntry.txn (hmu.trans hmt.symm)

omit [DecidableEq R] in
/-- The locks do not notice a transaction that moves without waiting and keeps what
it holds. -/
theorem LockInv.update (h : LockInv cc table txn H) (hheld : x.held = (txn t).held)
    (hnw : ∀ r a k, (txn t).phase ≠ .waiting r a k) :
    LockInv cc table (Function.update txn t x) H where
  holds := h.holds
  held r e := by
    rw [h.held]
    by_cases he : e.txn = t
    · subst he
      simp [hheld]
    · simp [update_of_ne he]
  nodup := h.nodup
  waiting r w hw := by
    obtain ⟨a, k, hp, ha⟩ := h.waiting r w hw
    have hne : w.txn ≠ t := fun heq => hnw r a k (heq ▸ hp)
    exact ⟨a, k, by rwa [update_of_ne hne], ha⟩
  ready u hu := by
    by_cases hut : u = t
    · subst hut
      exact h.ready u hnw
    · rw [update_of_ne hut] at hu
      exact h.ready u hu

/-- A transaction moves without touching contents or commits, and uncovers no row. -/
theorem DataInv.advance (h : DataInv prog S₀ c txn commits)
    (hdirty : ∀ r, (txn t).Dirty r → x.Dirty r)
    (hself : TxnInv (prog t) (serialStore prog S₀ commits) c x) :
    DataInv prog S₀ c (Function.update txn t x) commits := by
  refine ⟨h.reads, fun r hr => h.clean r fun u hu => hr u ?_, fun u => ?_⟩
  · by_cases hut : u = t
    · subst hut
      rw [update_self]
      exact hdirty r hu
    · rwa [update_of_ne hut]
  · by_cases hut : u = t
    · subst hut
      rwa [update_self]
    · rw [update_of_ne hut]
      exact h.txn u

/-- Granting a request a transaction waits for changes no data. -/
theorem DataInv.resume (h : DataInv prog S₀ c txn commits) (woken : List T) :
    DataInv prog S₀ c (fun u => if u ∈ woken then (txn u).resume else txn u) commits := by
  have hself : ∀ u, TxnInv (prog u) (serialStore prog S₀ commits) c (txn u).resume ∧
      ∀ r, (txn u).Dirty r → (txn u).resume.Dirty r := by
    intro u
    have hu := h.txn u
    rcases htx : txn u with ⟨ph, accs, rd⟩
    rw [htx] at hu
    cases ph with
    | waiting r a k => exact ⟨⟨⟨hu.1.progress, hu.1.saved, hu.1.once⟩, hu.2⟩, fun _ hd => hd⟩
    | _ => exact ⟨hu, fun _ hd => hd⟩
  refine ⟨h.reads, fun r hr => h.clean r fun u hu => hr u ?_, fun u => ?_⟩
  · split
    · exact (hself u).2 r hu
    · exact hu
  · split
    · exact (hself u).1
    · exact h.txn u

section

variable (h : Inv cc prog S₀ s H)

include h

omit [DecidableEq T] in
/-- A recorded `WR` access of `t` is to a row that no other transaction accesses. -/
theorem Inv.apart {u : T} {acc' : Access R V} (hacc : acc ∈ (s.txn t).accesses)
    (hwr : acc.type = .WR) (hacc' : acc' ∈ (s.txn u).accesses) (hut : u ≠ t) :
    acc'.row ≠ acc.row := by
  intro heq
  have hu := held_of_mem hacc'
  rw [heq] at hu
  refine hut (h.lock.excl (held_of_mem hacc) ?_ hu)
  rw [hwr]
  rfl

/-- **One transaction moves.** It keeps its locks, and changes contents and serial
store on rows no other transaction accesses; then only its own part of the invariant
has to be shown. -/
theorem Inv.update (hheld : x.held = (s.txn t).held)
    (hnw : ∀ r a k, (s.txn t).phase ≠ .waiting r a k)
    (hcommits : commits = (serial prog (commits.map Prod.fst) S₀).2)
    (hclean : ∀ r, (∀ u, ¬ (Function.update s.txn t x u).Dirty r) →
      c r = serialStore prog S₀ commits r)
    (hself : TxnInv (prog t) (serialStore prog S₀ commits) c x)
    (hS : ∀ u, u ≠ t → ∀ acc ∈ (s.txn u).accesses, serialStore prog S₀ commits acc.row =
      serialStore prog S₀ s.commits acc.row)
    (hc : ∀ u, u ≠ t → ∀ acc ∈ (s.txn u).accesses, acc.type = .WR → c acc.row = s.content acc.row) :
    Inv cc prog S₀ ⟨s.table, c, Function.update s.txn t x, commits⟩ H := by
  refine ⟨h.lock.update hheld hnw, hcommits, hclean, fun u => ?_⟩
  by_cases hut : u = t
  · subst hut
    simpa using hself
  · simp only [update_of_ne hut]
    exact (h.data.txn u).frame (hS u hut) (hc u hut)

/-- A transaction that keeps its locks, contents and commits, and uncovers no row. -/
theorem Inv.advance (hheld : x.held = (s.txn t).held)
    (hnw : ∀ r a k, (s.txn t).phase ≠ .waiting r a k) (hdirty : ∀ r, (s.txn t).Dirty r → x.Dirty r)
    (hself : TxnInv (prog t) (serialStore prog S₀ s.commits) s.content x) :
    Inv cc prog S₀ (s.setTxn t x) H :=
  ⟨h.lock.update hheld hnw, h.data.advance hdirty hself⟩

end

/-! ## The steps that keep the holders -/

section

variable (h : Inv cc prog S₀ s H)

include h

theorem inv_begin (hstep : s.begin prog t = some s') : Inv cc prog S₀ s' H := by
  obtain ⟨accs, rd, htx, rfl⟩ := State.begin_inv hstep
  have hnil := h.data.txn t
  rw [htx] at hnil
  obtain rfl : accs = [] := hnil
  have hnw : ∀ r a k, (s.txn t).phase ≠ .waiting r a k := by simp [htx]
  -- resetting the manager of a transaction that waits nowhere
  have hreset : Inv cc prog S₀ { s with table := s.table.reset t } H := by
    refine ⟨⟨h.lock.holds.reset ?_, h.lock.held, h.lock.nodup, h.lock.waiting, fun u hu => ?_⟩,
      h.data⟩
    · rintro r ⟨w, hw, rfl⟩
      obtain ⟨a, k, hp, _⟩ := h.lock.waiting r w hw
      exact hnw r a k hp
    · by_cases hut : u = t
      · simp [LockTable.reset, hut]
      · simpa [LockTable.reset, update_of_ne hut] using h.lock.ready u hu
  refine hreset.advance ?_ hnw ?_ ?_
  · simp [TxnState.held, htx]
  · simp [TxnState.Dirty, exposed, htx]
  · exact ⟨Progress.start _ _ _, fun acc hacc => absurd hacc not_mem_nil, nodup_nil⟩

/-- The copy of a granted row in `orig_data` is what the commits made. -/
theorem inv_record (hstep : s.record t = some s') : Inv cc prog S₀ s' H := by
  obtain ⟨r, a, k, accs, rd, htx, rfl⟩ := State.record_inv hstep
  have hx := h.data.txn t
  rw [htx] at hx
  obtain ⟨hopen, hnew⟩ := hx
  have hheld : (r, a) ∈ (s.txn t).held := by simp [TxnState.held, htx]
  -- whoever may have changed the row holds it, and a writer holds it alone
  have hclean : a = .WR → s.content r = serialStore prog S₀ s.commits r := by
    rintro rfl
    refine h.data.clean r ?_
    rintro u ⟨acc, hacc, rfl, hwr⟩
    have hmem := exposed_subset hacc
    have hut : u = t := h.lock.excl hheld rfl (held_of_mem hmem)
    subst hut
    rw [htx] at hmem
    exact hnew (mem_rows.mpr ⟨acc, hmem, rfl⟩)
  refine h.advance ?_ ?_ ?_ ⟨?_, ?_, ?_⟩
  · simp [TxnState.held, htx]
  · simp [htx]
  · rintro r' ⟨acc, hacc, hrow, hwr⟩
    rw [htx] at hacc
    exact ⟨acc, mem_cons_of_mem _ hacc, hrow, hwr⟩
  · by_cases ha : a = .WR
    · simpa [rows, wrRows, ha] using hopen.progress.own (hclean ha)
    · simpa [rows, wrRows, ha] using hopen.progress.share
  · intro acc hacc hwr
    rcases mem_cons.mp hacc with rfl | hacc
    · have ha : a = .WR := hwr
      simp [ha, hclean ha]
    · exact hopen.saved acc hacc hwr
  · exact nodup_cons.mpr ⟨hnew, hopen.once⟩

theorem inv_read (hstep : s.read t = some s') : Inv cc prog S₀ s' H := by
  obtain ⟨r, k, accs, rd, htx, hmem, rfl⟩ := State.read_inv hstep
  have hx := h.data.txn t
  rw [htx] at hx
  refine h.advance ?_ ?_ ?_ ⟨Progress.read hx.progress ?_, hx.saved, hx.once⟩
  · simp [TxnState.held, htx]
  · simp [htx]
  · simp [TxnState.Dirty, exposed, htx]
  · by_cases hown : r ∈ wrRows ⟨.running (.read r k), accs, rd⟩
    · exact .inl hown
    · -- a row accessed to read is held in shared mode, so nobody may have changed it
      refine .inr ⟨hmem, h.data.clean r ?_⟩
      rintro u ⟨acc, hacc, rfl, hwr⟩
      obtain ⟨acc', hacc', hrow⟩ := List.mem_map.mp hmem
      have hmem' := exposed_subset hacc
      have hut : t = u := by
        by_contra hne
        exact h.apart hmem' hwr (by rw [htx]; exact hacc') hne hrow
      subst hut
      rw [htx] at hmem'
      exact hown (mem_wrRows.mpr ⟨acc, hmem', rfl, hwr⟩)

theorem inv_write (hstep : s.write t = some s') : Inv cc prog S₀ s' H := by
  obtain ⟨r, f, k, accs, rd, htx, ⟨acc, hacc, rfl, hwr⟩, rfl⟩ := State.write_inv hstep
  have hx := h.data.txn t
  rw [htx] at hx
  have hmem : acc ∈ (s.txn t).accesses := by rw [htx]; exact hacc
  refine h.update ?_ ?_ h.data.reads ?_ ⟨Progress.write hx.progress ?_, hx.saved, hx.once⟩
    (fun _ _ _ _ => rfl) ?_
  · simp [TxnState.held, htx]
  · simp [htx]
  · intro r' hr'
    -- the written row itself is dirty
    have hne : r' ≠ acc.row := by
      rintro rfl
      refine hr' t ?_
      rw [update_self]
      exact ⟨acc, hacc, rfl, hwr⟩
    simp only [update_of_ne hne]
    refine h.data.clean r' fun u hu => hr' u ?_
    by_cases hut : u = t
    · subst hut
      simpa [TxnState.Dirty, exposed, htx] using hu
    · rwa [update_of_ne hut]
  · exact mem_wrRows.mpr ⟨acc, hacc, rfl, hwr⟩
  · intro u hut acc' hacc' _
    exact update_of_ne (h.apart hmem hwr hacc' hut) _ _

/-- **A commit** extends the serial run: what the attempt has read and left is what it does alone,
after all that committed before. -/
theorem inv_commit (hstep : s.commit t = some s') : Inv cc prog S₀ s' H := by
  obtain ⟨accs, rd, htx, rfl⟩ := State.commit_inv hstep
  have hx := h.data.txn t
  rw [htx] at hx
  -- run alone after the commits so far, the transaction leaves its own rows as they are now
  have hexec := Progress.exec_eq hx.progress
  have hserial : serial prog ((s.commits ++ [(t, rd)]).map Prod.fst) S₀ =
      (overlay (wrRows ⟨.running .done, accs, rd⟩) s.content
        (serialStore prog S₀ s.commits), s.commits ++ [(t, rd)]) := by
    rw [map_append, map_singleton, serial_concat, ← h.data.reads]
    show (((prog t).exec (serialStore prog S₀ s.commits)).1,
      s.commits ++ [(t, ((prog t).exec (serialStore prog S₀ s.commits)).2)]) = _
    rw [hexec]
  have hstore : serialStore prog S₀ (s.commits ++ [(t, rd)]) =
      overlay (wrRows ⟨.running .done, accs, rd⟩) s.content
        (serialStore prog S₀ s.commits) := congrArg Prod.fst hserial
  have hother : ∀ r, r ∉ wrRows ⟨.running .done, accs, rd⟩ →
      serialStore prog S₀ (s.commits ++ [(t, rd)]) r = serialStore prog S₀ s.commits r := by
    intro r hr
    rw [hstore]
    exact if_neg hr
  refine h.update ?_ ?_ (congrArg Prod.snd hserial).symm ?_ ⟨hx.once, ?_⟩ ?_
    (fun _ _ _ _ _ => rfl)
  · simp [TxnState.held, htx]
  · simp [htx]
  · intro r hr
    by_cases hown : r ∈ wrRows ⟨.running .done, accs, rd⟩
    · rw [hstore]
      exact (if_pos hown).symm
    · rw [hother r hown]
      refine h.data.clean r fun u hu => hr u ?_
      by_cases hut : u = t
      · subst hut
        rw [htx] at hu
        exact absurd (mem_wrRows.mpr hu) hown
      · rwa [update_of_ne hut]
  · exact fun acc hacc => absurd hacc not_mem_nil
  · intro u hut acc' hacc'
    refine hother _ fun hown => ?_
    obtain ⟨acc, hacc, hrow, hwr⟩ := mem_wrRows.mp hown
    exact h.apart (by rw [htx]; exact hacc) hwr hacc' hut hrow.symm

theorem inv_abort (hstep : s.abort t = some s') : Inv cc prog S₀ s' H := by
  obtain ⟨p, accs, rd, htx, rfl⟩ := State.abort_inv hstep
  have hx := h.data.txn t
  rw [htx] at hx
  refine h.advance ?_ ?_ ?_ ⟨hx.once, hx.saved⟩
  · simp [TxnState.held, htx]
  · simp [htx]
  · simp [TxnState.Dirty, exposed, htx]

/-- An abort puts back the copy of a row, which is what the commits made. -/
theorem inv_restore (hstep : s.restore t = some s') : Inv cc prog S₀ s' H := by
  obtain ⟨r, v, rest, rd, htx, rfl⟩ := State.restore_inv hstep
  have hx := h.data.txn t
  rw [htx] at hx
  obtain ⟨honce, hsaved⟩ := hx
  have hv : v = serialStore prog S₀ s.commits r :=
    some.inj (hsaved ⟨r, .WR, some v⟩ mem_cons_self rfl)
  have hmem : (⟨r, .WR, some v⟩ : Access R V) ∈ (s.txn t).accesses := by
    rw [htx]
    exact mem_cons_self
  refine h.update ?_ ?_ h.data.reads ?_ ⟨honce, fun acc hacc => ?_⟩ (fun _ _ _ _ => rfl) ?_
  · simp [TxnState.held, htx]
  · simp [htx]
  · intro r' hr'
    by_cases hrr : r' = r
    · subst hrr
      exact (update_self ..).trans hv
    · simp only [update_of_ne hrr]
      refine h.data.clean r' fun u hu => hr' u ?_
      by_cases hut : u = t
      · subst hut
        rw [htx] at hu
        rw [update_self]
        obtain ⟨acc, hacc, hrow, hwr⟩ := hu
        rcases mem_cons.mp hacc with rfl | hacc
        · exact absurd hrow.symm hrr
        · exact ⟨acc, hacc, hrow, hwr⟩
      · rwa [update_of_ne hut]
  · exact hsaved acc (mem_cons_of_mem _ hacc)
  · intro u hut acc' hacc' _
    exact update_of_ne (h.apart hmem rfl hacc' hut) _ _

theorem inv_finish (hstep : s.finish t = some s') : Inv cc prog S₀ s' H := by
  obtain ⟨rc, restored, rd, htx, rfl⟩ := State.finish_inv hstep
  refine h.advance ?_ ?_ ?_ ?_
  · split <;> simp [TxnState.held, htx]
  · simp [htx]
  · rintro r ⟨acc, hacc, _⟩
    have := exposed_subset hacc
    rw [htx] at this
    exact absurd this not_mem_nil
  · split <;> rfl

end

/-! ## The steps that change the holders -/

omit [DecidableEq R] in
theorem TxnState.held_running {p : Prog R V} {accs : List (Access R V)} :
    (TxnState.held ⟨.running p, accs, rd⟩).map Prod.fst = accs.map Access.row := by
  simp [TxnState.held]

omit [DecidableEq R] [DecidableEq T] in
/-- A row that a transaction does not hold has no entry of it. -/
theorem LockInv.not_mem (h : LockInv cc table txn H) (ht : r ∉ (txn t).held.map Prod.fst) :
    t ∉ (H r).map LockEntry.txn := by
  intro hmem
  obtain ⟨e, he, rfl⟩ := List.mem_map.mp hmem
  obtain ⟨a, ha, _⟩ := (h.held r e).mp he
  exact ht (List.mem_map.mpr ⟨(r, a), ha, rfl⟩)

/-- **`lock_get` keeps the invariant.** A row that is granted is held by nobody who may change it,
so it holds what the commits made; a request that waits or is refused changes nothing but the phase.
-/
theorem inv_getRow (h : Inv cc prog S₀ s H)
    (hstep : s.getRow cc ts t = some s') : ∃ H', Inv cc prog S₀ s' H' := by
  obtain ⟨r, a, k, accs, rd, rc, table, htx, hnew, hget, rfl⟩ := State.getRow_inv hstep
  have hx := h.data.txn t
  rw [htx] at hx
  have hopen : Open (prog t) (serialStore prog S₀ s.commits) s.content
      ⟨.running (.getRow r a k), accs, rd⟩ (.getRow r a k) := hx
  have hnw : ∀ r a k, (s.txn t).phase ≠ .waiting r a k := by simp [htx]
  have hdirty : ∀ r', (s.txn t).Dirty r' → ∃ acc ∈ accs, acc.row = r' ∧ acc.type = .WR := by
    simp [TxnState.Dirty, exposed, htx]
  have hnot : ∀ r', ∀ w ∈ (s.table.lock r').waiters, w.txn ≠ t := by
    intro r' w hw heq
    obtain ⟨a', k', hp, _⟩ := h.lock.waiting r' w hw
    exact hnw r' a' k' (heq ▸ hp)
  cases LockTable.get_spec h.lock.holds (lockOf_ne_none a) (h.lock.ready t hnw) hget with
  | granted hold _ waiters ready =>
    refine ⟨_, ⟨hold, fun r' e => ?_, fun r' => ?_, fun r' w hw => ?_, fun u hu => ?_⟩,
      h.data.advance hdirty ⟨⟨hopen.progress, hopen.saved, hopen.once⟩, hnew⟩⟩
    · -- the new entry is the new row the transaction holds
      have hheld := h.lock.held r' e
      by_cases het : e.txn = t
      · subst het
        rw [htx] at hheld
        show _ ↔ ∃ a', (r', a') ∈ (Function.update s.txn e.txn _ e.txn).held ∧ _
        rw [update_self]
        by_cases hr : r' = r
        · subst hr
          rw [update_self, mem_cons, hheld]
          constructor
          · rintro (he | ⟨a', ha', hl⟩)
            · exact ⟨a, mem_cons_self, (congrArg LockEntry.type he).symm⟩
            · exact ⟨a', mem_cons_of_mem _ ha', hl⟩
          · rintro ⟨a', ha', hl⟩
            rcases mem_cons.mp ha' with heq | ha'
            · obtain ⟨_, rfl⟩ := Prod.mk.inj heq
              obtain ⟨type, txn⟩ := e
              obtain rfl : lockOf a' = type := hl
              exact .inl rfl
            · exact .inr ⟨a', ha', hl⟩
        · rw [update_of_ne hr, hheld]
          simp [TxnState.held, hr]
      · show _ ↔ ∃ a', (r', a') ∈ (Function.update s.txn t _ e.txn).held ∧ _
        rw [update_of_ne het, ← hheld]
        by_cases hr : r' = r
        · subst hr
          rw [update_self, mem_cons]
          exact or_iff_right fun he => het (congrArg LockEntry.txn he)
        · rw [update_of_ne hr]
    · by_cases hr : r' = r
      · subst hr
        rw [update_self, map_cons, nodup_cons]
        refine ⟨h.lock.not_mem ?_, h.lock.nodup r'⟩
        rw [htx, held_running]
        exact hnew
      · rw [update_of_ne hr]
        exact h.lock.nodup r'
    · rw [waiters] at hw
      obtain ⟨a', k', hp, ha'⟩ := h.lock.waiting r' w hw
      exact ⟨a', k', by simpa [State.setTxn, update_of_ne (hnot r' w hw)] using hp, ha'⟩
    · rw [ready]
      by_cases hut : u = t
      · subst hut
        exact h.lock.ready u hnw
      · refine h.lock.ready u ?_
        simpa [State.setTxn, update_of_ne hut] using hu
  | wait hold _ waiters ready =>
    refine ⟨H, ⟨hold, fun r' e => ?_, h.lock.nodup, fun r' w hw => ?_, fun u hu => ?_⟩,
      h.data.advance hdirty ⟨⟨hopen.progress, hopen.saved, hopen.once⟩, hnew⟩⟩
    · rw [h.lock.held]
      by_cases het : e.txn = t
      · subst het
        simp [State.setTxn, TxnState.held, htx]
      · simp [State.setTxn, update_of_ne het]
    · rcases (waiters r' w).mp hw with hw | ⟨rfl, rfl⟩
      · obtain ⟨a', k', hp, ha'⟩ := h.lock.waiting r' w hw
        exact ⟨a', k', by simpa [State.setTxn, update_of_ne (hnot r' w hw)] using hp, ha'⟩
      · exact ⟨a, k, by simp [State.setTxn], rfl⟩
    · have hut : u ≠ t := by
        rintro rfl
        exact hu r a k (by simp [State.setTxn])
      rw [ready u hut]
      refine h.lock.ready u ?_
      simpa [State.setTxn, update_of_ne hut] using hu
  | abort =>
    refine ⟨H, h.advance ?_ hnw ?_ ?_⟩
    · simp [TxnState.held, htx]
    · exact hdirty
    · exact ⟨hopen.once, hopen.saved⟩

/-- Erasing the entry of a transaction from a list that has at most one. -/
theorem mem_eraseP_txn {es : List (LockEntry T)} (hnd : (es.map LockEntry.txn).Nodup) :
    e ∈ es.eraseP (fun en => decide (en.txn = t)) ↔ e ∈ es ∧ e.txn ≠ t := by
  induction es with
  | nil => simp
  | cons x xs ih =>
    rw [map_cons, nodup_cons] at hnd
    by_cases hx : x.txn = t
    · rw [eraseP_cons_of_pos (by simpa using hx)]
      refine ⟨fun he => ⟨mem_cons_of_mem _ he, fun het => hnd.1 ?_⟩, ?_⟩
      · rw [hx, ← het]
        exact List.mem_map_of_mem he
      · rintro ⟨he, het⟩
        exact (mem_cons.mp he).resolve_left fun h => het (h ▸ hx)
    · rw [eraseP_cons_of_neg (by simpa using hx), mem_cons, ih hnd.2, mem_cons]
      refine ⟨?_, ?_⟩
      · rintro (rfl | ⟨he, het⟩)
        · exact ⟨.inl rfl, hx⟩
        · exact ⟨.inr he, het⟩
      · rintro ⟨rfl | he, het⟩
        · exact .inl rfl
        · exact .inr ⟨he, het⟩

omit [DecidableEq R] in
/-- What a woken transaction holds: the row it waited for, and what it held. -/
theorem TxnState.held_resume {k : Prog R V}
    (hx : x.phase = .waiting r a k) : x.resume.held = (r, a) :: x.held := by
  obtain ⟨ph, accs, rd⟩ := x
  obtain rfl : ph = .waiting r a k := hx
  rfl

/-- The holders after a release: the promoted requests, and all others but the released one. -/
theorem mem_released {H : R → List (LockEntry T)} {r₀ : R} {ps : List (LockEntry T)}
    (hnd : ((H r₀).map LockEntry.txn).Nodup) :
    e ∈ Function.update H r₀ (ps.reverse ++ (H r₀).eraseP fun en => decide (en.txn = t)) r ↔
      r = r₀ ∧ e ∈ ps ∨ e ∈ H r ∧ ¬ (r = r₀ ∧ e.txn = t) := by
  by_cases hr : r = r₀
  · subst hr
    rw [update_self, mem_append, mem_reverse, mem_eraseP_txn hnd]
    simp
  · simp [hr]

section

variable (h : LockInv cc table txn H)

include h

omit [DecidableEq T] in
/-- What the releasing transaction still holds. -/
theorem LockInv.held_releasing {rc : RC} {b : Bool} {rest : List (Access R V)}
    (htx : txn e.txn = ⟨.cleanup rc b, acc :: rest, rd⟩) (honce : acc.row ∉ rest.map Access.row)
    (r : R) :
    (∃ a, (r, a) ∈ (TxnState.mk (.cleanup rc false) rest rd).held ∧ lockOf a = e.type) ↔
      e ∈ H r ∧ r ≠ acc.row := by
  rw [h.held r e, htx]
  by_cases hr : r = acc.row
  · subst hr
    refine iff_of_false ?_ fun hne => hne.2 rfl
    rintro ⟨a, ha, -⟩
    obtain ⟨acc', hacc', heq⟩ := List.mem_map.mp ha
    exact honce (List.mem_map.mpr ⟨acc', hacc', congrArg Prod.fst heq⟩)
  · simp [TxnState.held, hr]

omit [DecidableEq R] [DecidableEq T] in
/-- What a resumed transaction holds: the row it waited for, besides the others. -/
theorem LockInv.held_resumed {r₀ : R} {k : Prog R V} (hph : (txn e.txn).phase = .waiting r₀ a k)
    (r : R) :
    (∃ a', (r, a') ∈ (txn e.txn).resume.held ∧ lockOf a' = e.type) ↔
      r = r₀ ∧ lockOf a = e.type ∨ e ∈ H r := by
  rw [held_resume hph, h.held r e]
  constructor
  · rintro ⟨a', ha', hl⟩
    rcases mem_cons.mp ha' with heq | ha'
    · cases heq
      exact .inl ⟨rfl, hl⟩
    · exact .inr ⟨a', ha', hl⟩
  · rintro (⟨rfl, hl⟩ | ⟨a', ha', hl⟩)
    · exact ⟨a, mem_cons_self, hl⟩
    · exact ⟨a', mem_cons_of_mem _ ha', hl⟩

/-- The lock side of `release`: `t` gives up `acc`, and the promoted waiters are
resumed. -/
theorem LockInv.release {table' : LockTable R T} {rc : RC} {b : Bool} {rest : List (Access R V)}
    (htx : txn t = ⟨.cleanup rc b, acc :: rest, rd⟩) (honce : acc.row ∉ rest.map Access.row)
    (hqueued : ∀ u a k, (txn u).phase = .waiting acc.row a k → acc.row ∉ (txn u).held.map Prod.fst)
    {woken : List T} (hrel : table.release cc ts acc.row t = some (table', woken)) :
    ∃ H', LockInv cc table' (fun u =>
      if u ∈ woken then (Function.update txn t ⟨.cleanup rc false, rest, rd⟩ u).resume
      else Function.update txn t ⟨.cleanup rc false, rest, rd⟩ u) H' := by
  have hmem : ∃ e ∈ H acc.row, e.txn = t := by
    refine ⟨⟨lockOf acc.type, t⟩, (h.held _ _).mpr ⟨acc.type, ?_, rfl⟩, rfl⟩
    rw [htx]
    exact held_of_mem mem_cons_self
  obtain ⟨s₁, ps, hrel₁, hsplit, hothers, hready, hold⟩ :=
    LockTable.release_spec ts h.holds hmem
  obtain ⟨rfl, rfl⟩ := Prod.mk.inj (some.inj (hrel₁.symm.trans hrel))
  -- the promoted entries belong to transactions that waited for this row
  have hps : ∀ p ∈ ps, ∃ a k, (txn p.txn).phase = .waiting acc.row a k ∧ lockOf a = p.type :=
    fun p hp => h.waiting acc.row p (by rw [hsplit]; exact mem_append_left _ hp)
  have htw : t ∉ ps.map LockEntry.txn := by
    intro ht
    obtain ⟨p, hp, rfl⟩ := List.mem_map.mp ht
    obtain ⟨a, k, hph, _⟩ := hps p hp
    rw [htx] at hph
    cases hph
  have hnd := h.holds.nodup acc.row
  rw [hsplit, map_append, nodup_append] at hnd
  refine ⟨_, hold, fun r e => ?_, fun r => ?_, fun r w hw => ?_, fun u hu => ?_⟩
  · rw [mem_released (h.nodup acc.row)]
    by_cases het : e.txn = t
    · -- the released row is the only one `t` loses
      subst het
      have hnp : e ∉ ps := fun he => htw (List.mem_map_of_mem he)
      rw [if_neg htw, update_self, h.held_releasing htx honce]
      simp [hnp]
    · by_cases hew : e.txn ∈ ps.map LockEntry.txn
      · -- a resumed transaction gains this row
        rw [if_pos hew, update_of_ne het]
        obtain ⟨p, hp, hpe⟩ := List.mem_map.mp hew
        obtain ⟨a, k, hph, hpa⟩ := hps p hp
        rw [hpe] at hph
        have hentry : e ∈ ps ↔ lockOf a = e.type := by
          constructor
          · intro he
            obtain ⟨a', k', hph', ha'⟩ := hps e he
            obtain ⟨_, rfl, _⟩ := Phase.waiting.inj (hph.symm.trans hph')
            exact ha'
          · intro hl
            have heq : p = e := by
              cases p
              cases e
              simp_all
            exact heq ▸ hp
        rw [h.held_resumed hph, hentry]
        simp [het]
      · have hnp : e ∉ ps := fun he => hew (List.mem_map_of_mem he)
        rw [if_neg hew, update_of_ne het, ← h.held r e]
        simp [hnp, het]
  · by_cases hr : r = acc.row
    · subst hr
      rw [update_self, map_append, map_reverse, nodup_append]
      refine ⟨List.nodup_reverse.mpr hnd.1,
        (h.nodup acc.row).sublist (eraseP_sublist.map _), ?_⟩
      rintro u hu u' hu' rfl
      obtain ⟨p, hp, rfl⟩ := List.mem_map.mp (mem_reverse.mp hu)
      obtain ⟨a, k, hph, _⟩ := hps p hp
      exact h.not_mem (hqueued p.txn a k hph) ((eraseP_sublist.map _).subset hu')
    · rw [update_of_ne hr]
      exact h.nodup r
  · -- whoever still waits was not promoted
    have hwold : w ∈ (table.lock r).waiters := by
      by_cases hr : r = acc.row
      · subst hr
        rw [hsplit]
        exact mem_append_right _ hw
      · rwa [← hothers r hr]
    obtain ⟨a, k, hph, ha⟩ := h.waiting r w hwold
    have hwt : w.txn ≠ t := by
      rintro heq
      rw [heq, htx] at hph
      cases hph
    have hww : w.txn ∉ ps.map LockEntry.txn := by
      intro hmem'
      have h₁ := hold.waiting r w.txn ⟨w, hw, rfl⟩
      rw [hready, if_pos hmem'] at h₁
      exact absurd h₁ (by decide)
    refine ⟨a, k, ?_, ha⟩
    rw [if_neg hww, update_of_ne hwt]
    exact hph
  · rw [hready]
    split
    · rfl
    next huw =>
      rw [if_neg huw] at hu
      by_cases hut : u = t
      · subst hut
        exact h.ready u (by simp [htx])
      · rw [update_of_ne hut] at hu
        exact h.ready u hu

end

/-- Giving back a row, of which the attempt has no more need: it holds what the commits made. -/
theorem inv_release (h : Inv cc prog S₀ s H)
    (hstep : s.release cc ts t = some s') : ∃ H', Inv cc prog S₀ s' H' := by
  obtain ⟨rc, b, acc, rest, rd, table, woken, htx, hrestored, hrel, rfl⟩ :=
    State.release_inv hstep
  have hx := h.data.txn t
  rw [htx] at hx
  obtain ⟨honce, hsaved⟩ := hx
  have honce' : acc.row ∉ rest.map Access.row := (nodup_cons.mp honce).1
  have hqueued : ∀ u a k, (s.txn u).phase = .waiting acc.row a k →
      acc.row ∉ (s.txn u).held.map Prod.fst := by
    intro u a k hph
    have hu := h.data.txn u
    rcases hux : s.txn u with ⟨ph, accs, rd'⟩
    rw [hux] at hu hph
    obtain rfl : ph = .waiting acc.row a k := hph
    simpa [TxnState.held, rows] using hu.2
  obtain ⟨H', hlock⟩ := h.lock.release htx honce' hqueued hrel
  have hdata : DataInv prog S₀ s.content
      (Function.update s.txn t ⟨.cleanup rc false, rest, rd⟩) s.commits := by
    refine h.data.advance (fun r hr => ?_) ⟨(nodup_cons.mp honce).2, ?_⟩
    · -- the row given up was restored, or never changed, or is committed
      rw [htx] at hr
      obtain ⟨acc', hacc', hrow, hwr⟩ := hr
      refine ⟨acc', ?_, hrow, hwr⟩
      cases rc with
      | Abort =>
        cases b with
        | true => exact hacc'
        | false =>
          rcases mem_cons.mp hacc' with rfl | hacc'
          · exact absurd ⟨rfl, hwr, rfl⟩ hrestored
          · exact hacc'
      | _ => exact absurd hacc' not_mem_nil
    · intro acc' hacc' hwr
      refine hsaved acc' ?_ hwr
      cases rc with
      | Abort =>
        cases b with
        | true => exact hacc'
        | false => exact mem_cons_of_mem _ hacc'
      | _ => exact absurd hacc' not_mem_nil
  exact ⟨H', hlock, hdata.resume woken⟩

/-! ## The result -/

/-- **The invariant holds in every reachable state.** -/
theorem reachable_inv (hs : (machine cc ts prog S₀).Reachable s) : ∃ H, Inv cc prog S₀ s H := by
  refine Machine.Reachable.invariant (P := fun s => ∃ H, Inv cc prog S₀ s H) ?_ ?_ hs
  · refine ⟨fun _ => [], ⟨LockTable.holds_init cc, fun r e => ?_, fun _ => nodup_nil,
      fun _ w hw => absurd hw not_mem_nil, fun _ _ => rfl⟩, rfl, fun _ _ => rfl, fun _ => rfl⟩
    simp [machine, TxnState.held]
  · rintro s a s' ⟨H, h⟩ hstep
    cases a with
    | begin t => exact ⟨H, inv_begin h hstep⟩
    | getRow t => exact inv_getRow h hstep
    | record t => exact ⟨H, inv_record h hstep⟩
    | read t => exact ⟨H, inv_read h hstep⟩
    | write t => exact ⟨H, inv_write h hstep⟩
    | commit t => exact ⟨H, inv_commit h hstep⟩
    | abort t => exact ⟨H, inv_abort h hstep⟩
    | restore t => exact ⟨H, inv_restore h hstep⟩
    | release t => exact inv_release h hstep
    | finish t => exact ⟨H, inv_finish h hstep⟩

/-- **Serializability.** Whenever no attempt is in progress, the row contents and the
values the committed transactions read are those of the serial run of the committed
transactions, in the order in which their `cleanup(RCOK)` started. -/
theorem strictTwoPhase_serializable {ts : T → ℕ} (hs : (machine cc ts prog S₀).Reachable s)
    (hquiet : ∀ t, ¬ (s.txn t).InProgress) :
    (s.content, s.commits) = serial prog (s.commits.map Prod.fst) S₀ := by
  obtain ⟨H, h⟩ := reachable_inv hs
  have hcontent : s.content = serialStore prog S₀ s.commits := by
    funext r
    refine h.data.clean r ?_
    rintro t ⟨acc, hacc, _⟩
    have hmem := exposed_subset hacc
    rw [(h.data.txn t).accesses_nil (hquiet t)] at hmem
    exact absurd hmem not_mem_nil
  exact Prod.ext hcontent h.data.reads

end

/-- A writer and an older reader of one row. -/
def writerReader : Bool → Prog Unit ℕ
  | false => .getRow () .WR (.write () (· + 1) .done)
  | true => .getRow () .RD (.read () fun _ => .done)

/-- The reader waits for the writer, whose first attempt aborts after its write. -/
def writerAborts : List (Action Bool) :=
  [.begin false, .getRow false, .record false, .write false, .begin true, .getRow true,
    .abort false, .restore false, .release false, .finish false,
    .record true, .read true, .commit true, .begin false, .release true, .finish true,
    .getRow false, .record false, .write false, .commit false, .release false, .finish false]

/-- The reader has seen the restored row, and the writer's second attempt counts. -/
theorem strictTwoPhase_serializable_writerAborts :
    ∃ s, (machine .WAIT_DIE (fun t => if t then 1 else 2) writerReader fun _ => 0).run writerAborts
        = some s ∧
      s.content () = 1 ∧ s.commits = [(true, [((), 0)]), (false, [])] ∧
      (s.content, s.commits) = serial writerReader (s.commits.map Prod.fst) fun _ => 0 := by
  have hrun : ∃ s, (machine .WAIT_DIE (fun t => if t then 1 else 2) writerReader
      fun _ => 0).run writerAborts = some s := ⟨_, rfl⟩
  obtain ⟨s, hs⟩ := hrun
  have hserial : (∀ t, ¬ (s.txn t).InProgress) →
      (s.content, s.commits) = serial writerReader (s.commits.map Prod.fst) fun _ => 0 :=
    strictTwoPhase_serializable (Machine.Reachable.of_run hs)
  cases hs
  refine ⟨_, rfl, rfl, rfl, hserial ?_⟩
  rintro (_ | _) ⟨_, hcommitted⟩
  · exact hcommitted rfl
  · exact hcommitted rfl

end StrictTwoPhase

end Deneva
