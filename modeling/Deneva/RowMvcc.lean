import Deneva.TimestampRow

/-!
# Multi-version concurrency control (`concurrency_control/row_mvcc.cpp`)

`Row_mvcc`: buffered reads, prewrites, and the histories of reads and of versions,
latest first. The counters `rreq_len`, `preq_len`, `rhis_len` and `whis_len` are the
lengths of the lists.

The threshold `t_th` an access gets from `Manager::get_min_ts` is an input. The ghost
field `floor` is the greatest threshold that was used; `ThresholdValid` says of a step
that thresholds are not above the accesses that are pending or still to come.
-/

namespace Deneva

universe u v w

open Function List Option

namespace RowMvcc

open TimestampRow

/-- `MVReqEntry`. -/
structure MVReqEntry (T : Type u) where
  /-- the transaction -/
  txn : T
  /-- its timestamp -/
  ts : ℕ

/-- `MVHisEntry`; the entries of the read history have no row. -/
structure MVHisEntry (R : Type w) where
  /-- the timestamp -/
  ts : ℕ
  /-- the version -/
  row : R

/-- The limits that are configured. -/
structure Limits where
  maxReadReq : ℕ
  maxPreReq : ℕ
  hisRecycleLen : ℕ

/-- `Row_mvcc`, with the row's data. -/
structure Man (T : Type u) (V : Type v) where
  row : V
  /-- `readreq_mvcc` -/
  readreq : List (MVReqEntry T)
  /-- `prereq_mvcc` -/
  prereq : List (MVReqEntry T)
  readhis : List (MVHisEntry Unit)
  writehis : List (MVHisEntry V)
  /-- the greatest threshold that was used -/
  floor : ℕ

variable {T : Type u} {V : Type v} {R : Type w}

/-- `init`. -/
def Man.init (v : V) : Man T V := ⟨v, [], [], [], [], 0⟩

/-- `insert_history`. -/
def insertHistory (e : MVHisEntry R) : List (MVHisEntry R) → List (MVHisEntry R)
  | [] => [e]
  | his :: rest => if e.ts < his.ts then his :: insertHistory e rest else e :: his :: rest

/-- The loop of `clear_history`, from the tail on; `row` is the version taken out last. -/
def clearLoop (th : ℕ) : List (MVHisEntry R) → Option R → List (MVHisEntry R) × Option R
  | his :: prev :: rest, row =>
    if prev.ts < th then clearLoop th (prev :: rest) (some his.row) else (his :: prev :: rest, row)
  | queue, row => (queue, row)

/-- `clear_history`. -/
def clearHistory (th : ℕ) (queue : List (MVHisEntry R)) : List (MVHisEntry R) × Option R :=
  let (kept, row) := clearLoop th queue.reverse none
  (kept.reverse, row)

/-- The greatest prewrite below a read, `0` if there is none. -/
def lastPrewrite (ts : ℕ) (prereq : List (MVReqEntry T)) : ℕ :=
  prereq.foldl (fun pts e => if e.ts < ts ∧ pts < e.ts then e.ts else pts) 0

/-- The least read above a prewrite, `rts` if there is none. -/
def nextRead (ts : ℕ) : ℕ → List (MVHisEntry Unit) → ℕ
  | rts, [] => rts
  | rts, his :: rest => if ts < his.ts then nextRead ts his.ts rest else rts

/-- There is a version between a prewrite and a read. -/
def versionBetween (pts rts : ℕ) : List (MVHisEntry V) → Bool
  | [] => false
  | whis :: rest =>
    if pts < whis.ts then (if whis.ts < rts then true else versionBetween pts rts rest) else false

/-- `conflict` of an `R_REQ`. -/
def conflictRead (ts : ℕ) (m : Man T V) : Bool :=
  let pts := lastPrewrite ts m.prereq
  if pts = 0 then false else !versionBetween pts ts m.writehis

/-- `conflict` of a `P_REQ`. -/
def conflictPrewrite (ts : ℕ) (m : Man T V) : Bool :=
  let rts := nextRead ts 0 m.readhis
  if rts = 0 then false else !versionBetween ts rts m.writehis

/-- The version a read gets, `row` if no version is old enough. -/
def findVersion (row : V) (ts : ℕ) : List (MVHisEntry V) → V
  | [] => row
  | whis :: rest => if ts < whis.ts then findVersion row ts rest else whis.row

/-- The minimum of the prewrites. -/
def minPts (prereq : List (MVReqEntry T)) : ℕ := foldMin MVReqEntry.ts UINT64_MAX prereq

/-- `update_buffer`. -/
def updateBuffer (m : Man T V) : Man T V × List (Event T V) :=
  let (readyRead, readreq) := debufferTs MVReqEntry.ts m.readreq (minPts m.prereq)
  ({ m with
      readreq := readreq
      readhis := readyRead.foldl (fun his e => insertHistory ⟨e.ts, ()⟩ his) m.readhis },
    readyRead.map fun e => .read e.txn (findVersion m.row e.ts m.writehis))

/-- The prewrite of a transaction is taken out, and whatever waited for it is served. -/
def dropPrewrite [DecidableEq T] (t : T) (m : Man T V) : Option (Man T V × List (Event T V)) :=
  (debufferTxn MVReqEntry.txn t m.prereq).map fun prereq => updateBuffer { m with prereq := prereq }

/-- `access`, up to the recycling. -/
def accessReq [DecidableEq T] (L : Limits) (ts : T → ℕ) (t : T) (type : TsType) (row : Option V)
    (m : Man T V) : Option (RC × Man T V × List (Event T V)) :=
  match type with
  | .R_REQ =>
    if conflictRead (ts t) m then
      if m.readreq.length < L.maxReadReq then
        some (.WAIT, { m with readreq := ⟨t, ts t⟩ :: m.readreq }, [])
      else some (.Abort, m, [])
    else some (.RCOK, { m with readhis := insertHistory ⟨ts t, ()⟩ m.readhis },
      [.read t (findVersion m.row (ts t) m.writehis)])
  | .P_REQ =>
    if conflictPrewrite (ts t) m then some (.Abort, m, [])
    else if m.prereq.length < L.maxPreReq then
      some (.RCOK, { m with prereq := ⟨t, ts t⟩ :: m.prereq }, [])
    else some (.Abort, m, [])
  | .W_REQ =>
    match row with
    | none => none
    | some v =>
      (dropPrewrite t { m with writehis := insertHistory ⟨ts t, v⟩ m.writehis }).map
        fun (m, es) => (.RCOK, m, .write t v :: es)
  | .XP_REQ => (dropPrewrite t m).map fun (m, es) => (.RCOK, m, es)

/-- The read history is recycled if its oldest entry is below the threshold. -/
def recycleReads (th : ℕ) (m : Man T V) : Man T V :=
  if m.readhis.getLast?.any (fun his => his.ts < th) then
    { m with readhis := (clearHistory th m.readhis).1 }
  else m

/-- Versions are recycled if the second oldest is below the threshold; the newest of those
taken out is kept in `_row`. -/
def recycleWrites (th : ℕ) (m : Man T V) : Man T V :=
  if 1 < m.writehis.length ∧ m.writehis.reverse[1]?.any (fun his => his.ts < th) then
    let (writehis, latestRow) := clearHistory th m.writehis
    { m with writehis := writehis, row := latestRow.getD m.row }
  else m

/-- The recycling in `access`. -/
def recycle (L : Limits) (th : ℕ) (m : Man T V) : Man T V :=
  if L.hisRecycleLen < m.writehis.length ∨ L.hisRecycleLen < m.readhis.length then
    recycleWrites th (recycleReads th { m with floor := max m.floor th })
  else m

/-- `access`; `th` is what `get_min_ts` returns if it is called. -/
def access [DecidableEq T] (L : Limits) (ts : T → ℕ) (th : ℕ) (t : T) (type : TsType)
    (row : Option V) (m : Man T V) : Option (RC × Man T V × List (Event T V)) :=
  (accessReq L ts t type row m).map fun (rc, m, es) =>
    (rc, if rc = .RCOK then recycle L th m else m, es)

/-- `Row_mvcc` as the manager of a row. -/
def manager [DecidableEq T] (L : Limits) (ts : T → ℕ) (v : V) : Manager T V ℕ (Man T V) where
  init := .init v
  access := access L ts

/-! ## Histories -/

theorem mem_insertHistory {e h : MVHisEntry R} {his : List (MVHisEntry R)} :
    h ∈ insertHistory e his ↔ h = e ∨ h ∈ his := by
  induction his with
  | nil => simp [insertHistory]
  | cons x his ih =>
    rw [insertHistory]
    split
    · rw [mem_cons, ih, mem_cons]
      exact or_left_comm
    · rw [mem_cons]

/-- Histories stay in order. -/
theorem insertHistory_sorted {e : MVHisEntry R} {his : List (MVHisEntry R)}
    (h : his.Pairwise fun a b => b.ts ≤ a.ts) :
    (insertHistory e his).Pairwise fun a b => b.ts ≤ a.ts := by
  induction his with
  | nil => exact pairwise_singleton ..
  | cons x his ih =>
    obtain ⟨hx, hrest⟩ := pairwise_cons.mp h
    rw [insertHistory]
    split
    · refine pairwise_cons.mpr ⟨fun y hy => ?_, ih hrest⟩
      rcases mem_insertHistory.mp hy with rfl | hy
      · omega
      · exact hx y hy
    · refine pairwise_cons.mpr ⟨fun y hy => ?_, h⟩
      rcases mem_cons.mp hy with rfl | hy
      · omega
      · have := hx y hy
        omega

/-- What is cleared stands behind an entry that stays and is below the threshold. -/
theorem clearLoop_spec (th : ℕ) (queue : List (MVHisEntry R)) (row : Option R) :
    ∃ cleared, queue = cleared ++ (clearLoop th queue row).1 ∧
      ((clearLoop th queue row).2 = row ∨ ∃ h ∈ (clearLoop th queue row).1, h.ts < th) ∧
      (cleared = [] ∨ ∃ h ∈ (clearLoop th queue row).1, h.ts < th) := by
  induction queue generalizing row with
  | nil => exact ⟨[], rfl, .inl rfl, .inl rfl⟩
  | cons his queue ih =>
    cases queue with
    | nil => exact ⟨[], rfl, .inl rfl, .inl rfl⟩
    | cons prev rest =>
      rw [clearLoop]
      split
      · obtain ⟨cleared, heq, _, hcleared⟩ := ih (some his.row)
        have hkept : ∃ h ∈ (clearLoop th (prev :: rest) (some his.row)).1, h.ts < th := by
          rcases hcleared with rfl | hkept
          · have hall : (clearLoop th (prev :: rest) (some his.row)).1 = prev :: rest := heq.symm
            exact ⟨prev, by rw [hall]; exact mem_cons_self, ‹_›⟩
          · exact hkept
        exact ⟨his :: cleared, by rw [cons_append, ← heq], .inr hkept, .inr hkept⟩
      · exact ⟨[], rfl, .inl rfl, .inl rfl⟩

theorem clearHistory_spec (th : ℕ) (queue : List (MVHisEntry R)) :
    ∃ cleared, queue = (clearHistory th queue).1 ++ cleared ∧
      ((clearHistory th queue).2 = none ∨ ∃ h ∈ (clearHistory th queue).1, h.ts < th) ∧
      (cleared = [] ∨ ∃ h ∈ (clearHistory th queue).1, h.ts < th) := by
  obtain ⟨cleared, heq, hrow, hcleared⟩ := clearLoop_spec th queue.reverse none
  refine ⟨cleared.reverse, ?_, ?_, ?_⟩
  · rw [clearHistory, ← reverse_append, ← heq, reverse_reverse]
  · simpa [clearHistory] using hrow
  · simpa [clearHistory] using hcleared

/-- Entries that are cleared are not above one that stays and is below the threshold. -/
theorem clearHistory_sorted (th : ℕ) {queue : List (MVHisEntry R)}
    (h : queue.Pairwise fun a b => b.ts ≤ a.ts) :
    (clearHistory th queue).1.Pairwise (fun a b => b.ts ≤ a.ts) ∧
      (∀ e ∈ (clearHistory th queue).1, e ∈ queue) ∧
      ∀ e ∈ queue, e ∈ (clearHistory th queue).1 ∨
        ∃ kept ∈ (clearHistory th queue).1, e.ts ≤ kept.ts ∧ kept.ts < th := by
  obtain ⟨cleared, heq, _, hcleared⟩ := clearHistory_spec th queue
  have hpair := h
  rw [heq, pairwise_append] at hpair
  refine ⟨hpair.1, fun e he => heq ▸ mem_append_left _ he, fun e he => ?_⟩
  rw [heq] at he
  rcases mem_append.mp he with he | he
  · exact .inl he
  · rcases hcleared with rfl | ⟨kept, hkept, hlt⟩
    · cases he
    · exact .inr ⟨kept, hkept, hpair.2.2 kept hkept e he, hlt⟩

/-! ## Conflicts and versions -/

theorem of_versionBetween {pts rts : ℕ} {writehis : List (MVHisEntry V)}
    (h : versionBetween pts rts writehis = true) : ∃ w ∈ writehis, pts < w.ts ∧ w.ts < rts := by
  induction writehis with
  | nil => cases h
  | cons x rest ih =>
    rw [versionBetween] at h
    split at h
    · split at h
      · exact ⟨x, mem_cons_self, ‹_›, ‹_›⟩
      · obtain ⟨w, hw, hbetween⟩ := ih h
        exact ⟨w, mem_cons_of_mem _ hw, hbetween⟩
    · cases h

variable {ts b : ℕ} {readhis : List (MVHisEntry Unit)}

theorem le_lastPrewrite {prereq : List (MVReqEntry T)} {e : MVReqEntry T}
    (he : e ∈ prereq) (hlt : e.ts < ts) : e.ts ≤ lastPrewrite ts prereq := by
  have hfold : ∀ (l : List (MVReqEntry T)) b,
      b ≤ l.foldl (fun pts e => if e.ts < ts ∧ pts < e.ts then e.ts else pts) b ∧
        ∀ e ∈ l, e.ts < ts →
          e.ts ≤ l.foldl (fun pts e => if e.ts < ts ∧ pts < e.ts then e.ts else pts) b := by
    intro l
    induction l with
    | nil => exact fun b => ⟨le_refl b, fun _ he => absurd he not_mem_nil⟩
    | cons x l ih =>
      intro b
      obtain ⟨hb, hall⟩ := ih (if x.ts < ts ∧ b < x.ts then x.ts else b)
      refine ⟨le_trans (by split <;> omega) hb, fun e he hlt => ?_⟩
      rcases mem_cons.mp he with rfl | he
      · exact le_trans (by split <;> omega) hb
      · exact hall e he hlt
  exact (hfold prereq 0).2 e he hlt

/-- A read that does not conflict has a version above every prewrite below it. -/
theorem of_conflictRead {m : Man T V} (h : conflictRead ts m = false)
    {e : MVReqEntry T} (he : e ∈ m.prereq) (hpos : 0 < e.ts) (hlt : e.ts < ts) :
    ∃ w ∈ m.writehis, e.ts < w.ts ∧ w.ts < ts := by
  have hle := le_lastPrewrite he hlt
  simp only [conflictRead] at h
  split at h
  · omega
  · obtain ⟨w, hw, hlow, hhigh⟩ := of_versionBetween (by simpa using h)
    exact ⟨w, hw, hle.trans_lt hlow, hhigh⟩

theorem nextRead_le (h : ∀ e ∈ readhis, e.ts ≤ b)
    (hs : readhis.Pairwise fun a b => b.ts ≤ a.ts) : nextRead ts b readhis ≤ b := by
  induction readhis generalizing b with
  | nil => exact le_refl b
  | cons x rest ih =>
    obtain ⟨hx, hrest⟩ := pairwise_cons.mp hs
    rw [nextRead]
    split
    · exact (ih hx hrest).trans (h x mem_cons_self)
    · exact le_refl b

theorem lt_nextRead (hb : ts < b) : ts < nextRead ts b readhis := by
  induction readhis generalizing b with
  | nil => exact hb
  | cons x rest ih =>
    rw [nextRead]
    split
    · exact ih ‹_›
    · exact hb

theorem nextRead_spec {e : MVHisEntry Unit}
    (hs : readhis.Pairwise fun a b => b.ts ≤ a.ts) (he : e ∈ readhis) (hlt : ts < e.ts) :
    ts < nextRead ts b readhis ∧ nextRead ts b readhis ≤ e.ts := by
  induction readhis generalizing b with
  | nil => cases he
  | cons x rest ih =>
    obtain ⟨hx, hrest⟩ := pairwise_cons.mp hs
    have hlt' : ts < x.ts := by
      rcases mem_cons.mp he with rfl | he
      · exact hlt
      · exact hlt.trans_le (hx e he)
    rw [nextRead, if_pos hlt']
    rcases mem_cons.mp he with rfl | he
    · exact ⟨lt_nextRead hlt, nextRead_le hx hrest⟩
    · exact ih hrest he

/-- A prewrite that does not conflict has a version between it and every read above it. -/
theorem of_conflictPrewrite {m : Man T V} (h : conflictPrewrite ts m = false)
    (hs : m.readhis.Pairwise fun a b => b.ts ≤ a.ts) {e : MVHisEntry Unit} (he : e ∈ m.readhis)
    (hlt : ts < e.ts) : ∃ w ∈ m.writehis, ts < w.ts ∧ w.ts < e.ts := by
  obtain ⟨hpos, hle⟩ := nextRead_spec (b := 0) hs he hlt
  simp only [conflictPrewrite] at h
  split at h
  · omega
  · obtain ⟨w, hw, hlow, hhigh⟩ := of_versionBetween (by simpa using h)
    exact ⟨w, hw, hlow, hhigh.trans_le hle⟩

/-- A read gets the first version that is not above it. -/
theorem findVersion_spec (row : V) (ts : ℕ) {writehis : List (MVHisEntry V)}
    (hs : writehis.Pairwise fun a b => b.ts ≤ a.ts) :
    (findVersion row ts writehis = row ∧ ∀ w ∈ writehis, ts < w.ts) ∨
      ∃ w ∈ writehis, findVersion row ts writehis = w.row ∧ w.ts ≤ ts ∧
        ∀ w' ∈ writehis, w'.ts ≤ ts → w'.ts ≤ w.ts := by
  induction writehis with
  | nil => exact .inl ⟨rfl, fun _ hw => absurd hw not_mem_nil⟩
  | cons x rest ih =>
    obtain ⟨hx, hrest⟩ := pairwise_cons.mp hs
    rw [findVersion]
    split
    · rcases ih hrest with ⟨hrow, hall⟩ | ⟨w, hw, hrow, hle, hmax⟩
      · exact .inl ⟨hrow, forall_mem_cons.mpr ⟨‹_›, hall⟩⟩
      · refine .inr ⟨w, mem_cons_of_mem _ hw, hrow, hle, fun w' hw' hle' => ?_⟩
        rcases mem_cons.mp hw' with rfl | hw'
        · omega
        · exact hmax w' hw' hle'
    · refine .inr ⟨x, mem_cons_self, rfl, Nat.le_of_not_lt ‹_›, fun w' hw' _ => ?_⟩
      rcases mem_cons.mp hw' with rfl | hw'
      · exact le_refl _
      · exact hx w' hw'

/-! ## The invariant -/

/-- What holds between any two accesses. -/
structure Inv (ts : T → ℕ) (v₀ : V) (s : State T V (Man T V)) : Prop where
  /-- prewrites carry the timestamp of their transaction -/
  pre : ∀ e ∈ s.man.prereq, e.ts = ts e.txn
  /-- so do buffered reads, whose transactions wait -/
  waiting : ∀ e ∈ s.man.readreq, e.ts = ts e.txn ∧ ∃ type, s.phase e.txn = .waiting type
  /-- the read history is in order -/
  readSorted : s.man.readhis.Pairwise fun a b => b.ts ≤ a.ts
  /-- so are the versions -/
  sorted : s.man.writehis.Pairwise fun a b => b.ts ≤ a.ts
  /-- versions were written -/
  versions : ∀ h ∈ s.man.writehis, (h.ts, h.row) ∈ writes ts s.log
  /-- what was written is a version, or there is a newer one below the thresholds -/
  kept : ∀ p ∈ writes ts s.log, ∃ h ∈ s.man.writehis,
    h = ⟨p.1, p.2⟩ ∨ (p.1 ≤ h.ts ∧ h.ts < s.man.floor)
  /-- `_row` is the initial row, or there is a version below the thresholds -/
  row : s.man.row = v₀ ∨ ∃ h ∈ s.man.writehis, h.ts < s.man.floor
  /-- granted reads are in the read history, unless they are below the thresholds -/
  marks : ∀ t v, .read t v ∈ s.log → (∃ h ∈ s.man.readhis, h.ts = ts t) ∨ ts t < s.man.floor
  /-- writers are through with the row -/
  writers : ∀ t v, .write t v ∈ s.log → s.phase t = .finished
  /-- prewrites stay until the row is returned -/
  prewrites : ∀ t, (s.phase t).HasPrewrite → ∃ e ∈ s.man.prereq, e.txn = t
  /-- pending requests are not below the thresholds -/
  pending : ∀ t, (s.phase t).Pending → s.man.floor ≤ ts t
  /-- **no prewrite is between a read and its version** -/
  stable : ∀ t v, .read t v ∈ s.log → ∃ w, Newest (writes ts s.log) v₀ (ts t) w v ∧
    ∀ e ∈ s.man.prereq, ¬ (w < e.ts ∧ e.ts < ts t)

section

variable [DecidableEq T] {L : Limits} {ts : Timestamps T} {v₀ : V} {s s' : State T V (Man T V)}
  {t : T} {th : ℕ}

theorem inv_init (L : Limits) (ts : T → ℕ) (v : V) : Inv ts v (machine (manager L ts v)).init where
  pre _ he := absurd he not_mem_nil
  waiting _ he := absurd he not_mem_nil
  readSorted := .nil
  sorted := .nil
  versions _ he := absurd he not_mem_nil
  kept _ he := absurd he not_mem_nil
  row := .inl rfl
  marks _ _ he := absurd he not_mem_nil
  writers _ _ he := absurd he not_mem_nil
  prewrites _ h := h.elim
  pending _ _ := Nat.zero_le _
  stable _ _ he := absurd he not_mem_nil

section

variable (h : Inv ts.get v₀ s)

include h

omit [DecidableEq T] in
/-- Who does not wait has no read buffered. -/
theorem Inv.not_buffered (ht : ∀ type, s.phase t ≠ .waiting type) :
    ∀ e ∈ s.man.readreq, e.txn ≠ t := by
  intro e he heq
  obtain ⟨_, type, hwait⟩ := h.waiting e he
  exact ht type (heq ▸ hwait)

/-- A transaction goes on that has no read buffered. -/
theorem Inv.setPhase {p : Phase V} (ht : ∀ e ∈ s.man.readreq, e.txn ≠ t)
    (hpre : p.HasPrewrite → ∃ e ∈ s.man.prereq, e.txn = t)
    (hpend : p.Pending → s.man.floor ≤ ts.get t) (hfin : s.phase t = .finished → p = .finished) :
    Inv ts.get v₀ { s with phase := update s.phase t p } :=
  { h with
    waiting := fun e he => by
      obtain ⟨hts, type, hwait⟩ := h.waiting e he
      exact ⟨hts, type, (update_of_ne (ht e he) ..).trans hwait⟩
    writers := (forall_update_iff s.phase
      fun u p => ∀ v, .write u v ∈ s.log → p = .finished).mpr
        ⟨fun v he => hfin (h.writers t v he), fun u _ => h.writers u⟩
    prewrites := (forall_update_iff s.phase
      fun u p => p.HasPrewrite → ∃ e ∈ s.man.prereq, e.txn = u).mpr ⟨hpre, fun u _ => h.prewrites u⟩
    pending := (forall_update_iff s.phase
      fun u p => p.Pending → s.man.floor ≤ ts.get u).mpr ⟨hpend, fun u _ => h.pending u⟩ }

theorem Inv.finish (ht : ∀ type, s.phase t ≠ .waiting type) :
    Inv ts.get v₀ { s with phase := update s.phase t .finished } :=
  h.setPhase (h.not_buffered ht) False.elim False.elim fun _ => rfl

omit [DecidableEq T] in
/-- **The version a read gets is the newest below it**: versions that are gone are behind one
that is still there, and that is below every read to come. -/
theorem Inv.newest (ht : s.phase t ≠ .finished) (hfloor : s.man.floor ≤ ts.get t) :
    ∃ w, Newest (writes ts.get s.log) v₀ (ts.get t) w
        (findVersion s.man.row (ts.get t) s.man.writehis) ∧
      ∀ x ∈ s.man.writehis, x.ts < ts.get t → x.ts ≤ w := by
  have hne : ∀ x ∈ s.man.writehis, x.ts ≠ ts.get t := by
    intro x hx heq
    obtain ⟨u, hu, hts⟩ := mem_writes.mp (h.versions x hx)
    exact ht (ts.injective (hts.trans heq) ▸ h.writers u _ hu)
  rcases findVersion_spec s.man.row (ts.get t) h.sorted with
    ⟨hrow, hall⟩ | ⟨x, hx, hrow, hle, hmax⟩
  · refine ⟨0, .inl ⟨rfl, ?_, fun p hp => ?_⟩, fun x hx hlt => absurd (hall x hx) hlt.not_gt⟩
    · rw [hrow]
      refine h.row.resolve_right fun ⟨x, hx, hlt⟩ => ?_
      have := hall x hx
      omega
    · obtain ⟨x, hx, rfl | ⟨_, hlt⟩⟩ := h.kept p hp
      · exact (hall _ hx).le
      · have := hall x hx
        omega
  · have hlt : x.ts < ts.get t := lt_of_le_of_ne hle (hne x hx)
    refine ⟨x.ts, .inr ⟨hrow ▸ h.versions x hx, hlt, fun p hp hpr => ?_⟩,
      fun y hy hylt => hmax y hy hylt.le⟩
    obtain ⟨y, hy, rfl | ⟨hple, hylt⟩⟩ := h.kept p hp
    · exact hmax _ hy hpr.le
    · exact hple.trans (hmax y hy (by omega))

end

/-! ## The accesses -/

section

variable (h : Inv ts.get v₀ s)

include h

omit [DecidableEq T] in
/-- An accepted prewrite: every read above it has a version above it as well. -/
theorem Inv.bufferPrewrite (hfloor : s.man.floor ≤ ts.get t)
    (hconf : conflictPrewrite (ts.get t) s.man = false) :
    Inv ts.get v₀
      { s with man := { s.man with prereq := ⟨t, ts.get t⟩ :: s.man.prereq } } := by
  refine { h with pre := ?_, prewrites := ?_, stable := ?_ }
  · exact forall_mem_cons.mpr ⟨rfl, h.pre⟩
  · intro u hu
    obtain ⟨e, he, heu⟩ := h.prewrites u hu
    exact ⟨e, mem_cons_of_mem _ he, heu⟩
  · intro u v hu
    obtain ⟨w, hnew, hno⟩ := h.stable u v hu
    refine ⟨w, hnew, forall_mem_cons.mpr ⟨?_, hno⟩⟩
    rintro ⟨hwt : w < ts.get t, htu : ts.get t < ts.get u⟩
    obtain ⟨r, hr, hrts⟩ := (h.marks u v hu).resolve_right (by omega)
    obtain ⟨x, hx, hlow, hhigh⟩ := of_conflictPrewrite hconf h.readSorted hr (hrts ▸ htu)
    have hle : x.ts ≤ w := hnew.le (h.versions x hx) (hrts ▸ hhigh)
    omega

omit [DecidableEq T] in
/-- A read that has to wait. -/
theorem Inv.bufferRead {type : AccessT} (ht : s.phase t = .waiting type) :
    Inv ts.get v₀
      { s with man := { s.man with readreq := ⟨t, ts.get t⟩ :: s.man.readreq } } :=
  { h with waiting := forall_mem_cons.mpr ⟨⟨rfl, type, ht⟩, h.waiting⟩ }

omit [DecidableEq T] in
/-- A read is granted. -/
theorem Inv.grantRead (ht : s.phase t ≠ .finished) (hfloor : s.man.floor ≤ ts.get t)
    (hpre : ∀ e ∈ s.man.prereq, e.ts < ts.get t → ∃ w ∈ s.man.writehis, e.ts < w.ts ∧
      w.ts < ts.get t) :
    Inv ts.get v₀
      { s with
        man := { s.man with readhis := insertHistory ⟨ts.get t, ()⟩ s.man.readhis }
        log := .read t (findVersion s.man.row (ts.get t) s.man.writehis) :: s.log } := by
  refine { h with
    readSorted := insertHistory_sorted h.readSorted
    versions := h.versions, kept := h.kept, marks := ?_, writers := ?_, stable := ?_ }
  · intro u v he
    rcases mem_cons.mp he with heq | he
    · cases heq
      exact .inl ⟨_, mem_insertHistory.mpr (.inl rfl), rfl⟩
    · exact (h.marks u v he).imp_left fun ⟨x, hx, hts⟩ => ⟨x, mem_insertHistory.mpr (.inr hx), hts⟩
  · exact fun u v he => h.writers u v ((mem_cons.mp he).resolve_left nofun)
  · intro u v he
    rcases mem_cons.mp he with heq | he
    · cases heq
      obtain ⟨w, hnew, hmax⟩ := h.newest ht hfloor
      refine ⟨w, hnew, fun e he hbetween => ?_⟩
      obtain ⟨x, hx, hlow, hhigh⟩ := hpre e he hbetween.2
      exact absurd hbetween.1 (Nat.not_lt_of_lt (hlow.trans_le (hmax x hx hhigh)))
    · exact h.stable u v he

omit [DecidableEq T] in
/-- A version is written. -/
theorem Inv.write (ht : s.phase t = .finished) (hpre : ∃ e ∈ s.man.prereq, e.txn = t) (v : V) :
    Inv ts.get v₀
      { s with
        man := { s.man with writehis := insertHistory ⟨ts.get t, v⟩ s.man.writehis }
        log := .write t v :: s.log } := by
  refine { h with
    sorted := insertHistory_sorted h.sorted, versions := ?_, kept := ?_, row := ?_, marks := ?_
    writers := ?_, stable := ?_ }
  · intro x hx
    rcases mem_insertHistory.mp hx with rfl | hx
    · exact mem_cons_self
    · exact mem_cons_of_mem _ (h.versions x hx)
  · intro p hp
    rcases mem_cons.mp hp with rfl | hp
    · exact ⟨_, mem_insertHistory.mpr (.inl rfl), .inl rfl⟩
    · obtain ⟨x, hx, hkept⟩ := h.kept p hp
      exact ⟨x, mem_insertHistory.mpr (.inr hx), hkept⟩
  · exact h.row.imp_right fun ⟨x, hx, hlt⟩ => ⟨x, mem_insertHistory.mpr (.inr hx), hlt⟩
  · exact fun u v' he => h.marks u v' ((mem_cons.mp he).resolve_left nofun)
  · intro u v' he
    rcases mem_cons.mp he with heq | he
    · cases heq
      exact ht
    · exact h.writers u v' he
  · intro u v' he
    obtain ⟨w, hnew, hno⟩ := h.stable u v' ((mem_cons.mp he).resolve_left nofun)
    obtain ⟨e, hmem, het⟩ := hpre
    have hbetween := hno e hmem
    rw [h.pre e hmem, het] at hbetween
    exact ⟨w, hnew.cons_old (ts.pos t) hbetween, hno⟩

/-- A waiting transaction gets its copy. -/
theorem Inv.serve (ht : ∀ e ∈ s.man.readreq, e.txn ≠ t) (v : V) :
    Inv ts.get v₀ { s with phase := serve s.phase (.read t v) } := by
  cases hp : s.phase t with
  | waiting type =>
    simp only [TimestampRow.serve, hp]
    refine h.setPhase ht (fun hpre => h.prewrites t ?_) (fun _ => h.pending t ?_)
      fun hf => absurd (hp.symm.trans hf) (by simp)
    · rw [hp]
      cases type <;> exact hpre
    · rw [hp]
      trivial
  | _ =>
    simp only [TimestampRow.serve, hp]
    exact h

end

/-- The reads of some requests, all served from the same versions. -/
def readEvents (row : V) (writehis : List (MVHisEntry V)) (reqs : List (MVReqEntry T)) :
    List (Event T V) :=
  reqs.map fun e => .read e.txn (findVersion row e.ts writehis)

/-- **Serving the reads that no prewrite precedes.** -/
theorem Inv.serveReads (reqs : List (MVReqEntry T)) (h : Inv ts.get v₀ s)
    (hreq : ∀ e ∈ reqs, e.ts = ts.get e.txn ∧ s.phase e.txn ≠ .finished ∧
      s.man.floor ≤ ts.get e.txn ∧ (∀ p ∈ s.man.prereq, e.ts ≤ p.ts) ∧
      ∀ f ∈ s.man.readreq, f.txn ≠ e.txn) :
    Inv ts.get v₀
      { man := { s.man with
          readhis := reqs.foldl (fun his e => insertHistory ⟨e.ts, ()⟩ his) s.man.readhis }
        phase := serveAll s.phase (readEvents s.man.row s.man.writehis reqs)
        log := (readEvents s.man.row s.man.writehis reqs).reverse ++ s.log } := by
  induction reqs generalizing s with
  | nil => exact h
  | cons e reqs ih =>
    obtain ⟨⟨hts, hfin, hfloor, hpre, hother⟩, hreqs⟩ := forall_mem_cons.mp hreq
    have hgrant := h.grantRead hfin hfloor fun p hp hlt => by
      have := hpre p hp
      omega
    have hserve := hgrant.serve hother (findVersion s.man.row (ts.get e.txn) s.man.writehis)
    rw [← hts] at hserve
    have hrest := ih hserve fun f hf => by
      obtain ⟨hfts, hffin, hf⟩ := hreqs f hf
      refine ⟨hfts, fun hfinished => hffin ?_, hf⟩
      rcases serve_cases s.phase
        (.read e.txn (findVersion s.man.row e.ts s.man.writehis)) f.txn with
        hsame | ⟨_, _, _, _, hready⟩
      · exact hsame.symm.trans hfinished
      · exact absurd (hready.symm.trans hfinished) nofun
    have hlog : (readEvents s.man.row s.man.writehis (e :: reqs)).reverse ++ s.log =
        (readEvents s.man.row s.man.writehis reqs).reverse ++
          .read e.txn (findVersion s.man.row e.ts s.man.writehis) :: s.log := by
      simp [readEvents]
    rw [hlog]
    exact hrest

/-- A prewrite is dropped: it is found, and the reads that waited for it are served. -/
theorem Inv.dropPrewrite (h : Inv ts.get v₀ s) (ht : ¬ (s.phase t).HasPrewrite)
    (hpre : ∃ e ∈ s.man.prereq, e.txn = t) :
    ∃ m es, dropPrewrite t s.man = some (m, es) ∧
      Inv ts.get v₀ { man := m, phase := serveAll s.phase es, log := es.reverse ++ s.log } := by
  obtain ⟨prereq, heq, hsub, hrest⟩ := debufferTxn_spec hpre
  have hdrop : Inv ts.get v₀ { s with man := { s.man with
      prereq := prereq
      readreq := (debufferTs MVReqEntry.ts s.man.readreq (minPts prereq)).2 } } :=
    { h with
      pre := fun e he => h.pre e (hsub e he)
      waiting := fun e he => h.waiting e (mem_debufferTs.2.mp he).1
      prewrites := fun u hu => by
        obtain ⟨e, he, heu⟩ := h.prewrites u hu
        exact ⟨e, hrest e he fun het => ht (het ▸ heu ▸ hu), heu⟩
      stable := fun u v hu => by
        obtain ⟨w, hnew, hno⟩ := h.stable u v hu
        exact ⟨w, hnew, fun e he => hno e (hsub e he)⟩ }
  refine ⟨_, _, by rw [RowMvcc.dropPrewrite, heq]; rfl, hdrop.serveReads _ fun e he => ?_⟩
  obtain ⟨hmem, hle : e.ts ≤ minPts prereq⟩ := mem_debufferTs.1.mp he
  obtain ⟨hts, type, hwait⟩ := h.waiting e hmem
  refine ⟨hts, by simp [hwait], h.pending e.txn (hwait ▸ trivial),
    fun p hp => hle.trans (foldMin_le hp), fun f hf heq => ?_⟩
  -- buffered reads of one transaction have one timestamp
  obtain ⟨hfmem, hlt⟩ := mem_debufferTs.2.mp hf
  have hfts := (h.waiting f hfmem).1
  rw [heq, ← hts] at hfts
  omega

/-! ## Recycling -/

omit [DecidableEq T] in
theorem Inv.raiseFloor (h : Inv ts.get v₀ s) (floor : ℕ) (hle : s.man.floor ≤ floor)
    (hpend : ∀ u, (s.phase u).Pending → floor ≤ ts.get u) :
    Inv ts.get v₀ { s with man := { s.man with floor := floor } } :=
  { h with
    kept := fun p hp => by
      obtain ⟨x, hx, hkept⟩ := h.kept p hp
      exact ⟨x, hx, hkept.imp_right fun ⟨hpx, hlt⟩ => ⟨hpx, hlt.trans_le hle⟩⟩
    row := h.row.imp_right fun ⟨x, hx, hlt⟩ => ⟨x, hx, hlt.trans_le hle⟩
    marks := fun u v hu => (h.marks u v hu).imp_right fun hlt => hlt.trans_le hle
    pending := hpend }

omit [DecidableEq T] in
theorem Inv.recycleReads (h : Inv ts.get v₀ s) (hth : th ≤ s.man.floor) :
    Inv ts.get v₀ { s with man := recycleReads th s.man } := by
  unfold RowMvcc.recycleReads
  split
  · obtain ⟨hsorted, _, hcleared⟩ := clearHistory_sorted th h.readSorted
    refine { h with readSorted := hsorted, marks := fun u v hu => ?_ }
    rcases h.marks u v hu with ⟨x, hx, hts⟩ | hlt
    · rcases hcleared x hx with hx | ⟨y, _, hle, hlt⟩
      · exact .inl ⟨x, hx, hts⟩
      · have hle' := hle.trans hlt.le
        exact .inr (by dsimp only; omega)
    · exact .inr hlt
  · exact h

omit [DecidableEq T] in
/-- Recycling drops versions that nobody can read any more, as all accesses to come are above the
threshold. -/
theorem Inv.recycleWrites (h : Inv ts.get v₀ s) (hth : th ≤ s.man.floor) :
    Inv ts.get v₀ { s with man := recycleWrites th s.man } := by
  unfold RowMvcc.recycleWrites
  split
  · obtain ⟨hsorted, hsub, hcleared⟩ := clearHistory_sorted th h.sorted
    have hbelow : ∀ x ∈ s.man.writehis, x.ts < s.man.floor →
        ∃ y ∈ (clearHistory th s.man.writehis).1, x.ts ≤ y.ts ∧ y.ts < s.man.floor := by
      intro x hx hlt
      rcases hcleared x hx with hx | ⟨y, hy, hle, hyth⟩
      · exact ⟨x, hx, le_refl _, hlt⟩
      · exact ⟨y, hy, hle, hyth.trans_le hth⟩
    refine { h with
      sorted := hsorted, versions := fun x hx => h.versions x (hsub x hx), kept := ?_, row := ?_ }
    · intro p hp
      obtain ⟨x, hx, rfl | ⟨hpx, hlt⟩⟩ := h.kept p hp
      · rcases hcleared _ hx with hx | ⟨y, hy, hle, hyth⟩
        · exact ⟨_, hx, .inl rfl⟩
        · exact ⟨y, hy, .inr ⟨hle, hyth.trans_le hth⟩⟩
      · obtain ⟨y, hy, hle, hylt⟩ := hbelow x hx hlt
        exact ⟨y, hy, .inr ⟨hpx.trans hle, hylt⟩⟩
    · obtain ⟨_, _, hrow | ⟨y, hy, hlt⟩, _⟩ := clearHistory_spec th s.man.writehis
      · have hsame : (clearHistory th s.man.writehis).2.getD s.man.row = s.man.row := by
          rw [hrow, getD_none]
        refine h.row.imp hsame.trans fun ⟨x, hx, hlt⟩ => ?_
        obtain ⟨y, hy, _, hylt⟩ := hbelow x hx hlt
        exact ⟨y, hy, hylt⟩
      · exact .inr ⟨y, hy, hlt.trans_le hth⟩
  · exact h

omit [DecidableEq T] in
@[simp]
theorem recycleWrites_floor (th : ℕ) (m : Man T V) : (recycleWrites th m).floor = m.floor := by
  unfold recycleWrites
  split <;> rfl

omit [DecidableEq T] in
@[simp]
theorem recycleReads_floor (th : ℕ) (m : Man T V) : (recycleReads th m).floor = m.floor := by
  unfold recycleReads
  split <;> rfl

omit [DecidableEq T] in
/-- **Recycling loses nothing a pending or later access needs.** -/
theorem Inv.recycle (h : Inv ts.get v₀ s)
    (hpend : ∀ u, (s.phase u).Pending → (recycle L th s.man).floor ≤ ts.get u) :
    Inv ts.get v₀ { s with man := recycle L th s.man } := by
  unfold RowMvcc.recycle at hpend ⊢
  split
  · rw [if_pos ‹_›] at hpend
    simp only [recycleWrites_floor, recycleReads_floor] at hpend
    have hraise := h.raiseFloor (max s.man.floor th) (Nat.le_max_left _ _) hpend
    refine Inv.recycleWrites (hraise.recycleReads (Nat.le_max_right _ _)) ?_
    exact (recycleReads_floor ..).symm ▸ Nat.le_max_right _ _
  · exact h

/-! ## Runs -/

/-- The thresholds of a step are valid: they are not above an access that is pending after
it, and no transaction comes below one that was used. -/
def ThresholdValid (L : Limits) (ts : T → ℕ) (v₀ : V) (s : State T V (Man T V))
    (a : Action T V ℕ) : Prop :=
  (match a with
    | .getRow t _ _ => s.man.floor ≤ ts t
    | _ => True) ∧
    ∀ s' ∈ (machine (manager L ts v₀)).step s a, ∀ u, (s'.phase u).Pending → s'.man.floor ≤ ts u

instance [Fintype T] (L : Limits) (ts : T → ℕ) (v₀ : V) (s : State T V (Man T V))
    (a : Action T V ℕ) : Decidable (ThresholdValid L ts v₀ s a) :=
  match a with
  | .getRow _ _ _ | .readReq _ _ | .resume _ | .returnRow _ _ _ _ => instDecidableAnd

/-- The state after a step is right up to the recycling at the end of `access`. -/
def BeforeRecycling (L : Limits) (ts : T → ℕ) (v₀ : V) (th : ℕ) (s : State T V (Man T V)) : Prop :=
  ∃ m, Inv ts v₀ { s with man := m } ∧ (s.man = m ∨ s.man = recycle L th m)

omit [DecidableEq T] in
theorem BeforeRecycling.inv (h : BeforeRecycling L ts.get v₀ th s)
    (hpend : ∀ u, (s.phase u).Pending → s.man.floor ≤ ts.get u) : Inv ts.get v₀ s := by
  obtain ⟨man, phase, log⟩ := s
  obtain ⟨m, hinv, rfl | rfl⟩ := h
  · exact hinv
  · exact hinv.recycle hpend

section

variable (h : Inv ts.get v₀ s)

include h

theorem prewrite_beforeRecycling (ht : s.phase t = .idle) (hfloor : s.man.floor ≤ ts.get t)
    (hs : prewrite (manager L ts.get v₀) th t s = some s') : BeforeRecycling L ts.get v₀ th s' := by
  have hnw : ∀ type, s.phase t ≠ .waiting type := by simp [ht]
  simp only [prewrite, manager, access, accessReq] at hs
  split at hs
  · exact some.inj hs ▸ ⟨_, h.finish hnw, .inl rfl⟩
  · split at hs
    · cases hs
      have hbuf := h.bufferPrewrite hfloor (by simpa using ‹¬ _ = true›)
      exact ⟨_, hbuf.setPhase (hbuf.not_buffered hnw) (fun _ => ⟨_, mem_cons_self, rfl⟩)
        (fun _ => hfloor) fun hf => absurd (ht.symm.trans hf) (by simp), .inr rfl⟩
    · exact some.inj hs ▸ ⟨_, h.finish hnw, .inl rfl⟩

theorem request_beforeRecycling {type : AccessT} (ht : s.phase t ≠ .finished)
    (hnw : ∀ type, s.phase t ≠ .waiting type) (hfloor : s.man.floor ≤ ts.get t)
    (hpre : type = .WR → ∃ e ∈ s.man.prereq, e.txn = t)
    (hs : request (manager L ts.get v₀) th t type s = some s') :
    BeforeRecycling L ts.get v₀ th s' := by
  simp only [request, manager, access, accessReq] at hs
  split at hs
  · split at hs
    · -- the read waits
      cases hs
      have hwait := h.setPhase (h.not_buffered hnw)
        (fun hp => hpre (Phase.hasPrewrite_waiting.mp hp)) (fun _ => hfloor) (absurd · ht)
      exact ⟨_, hwait.bufferRead (update_self ..), .inl rfl⟩
    · exact some.inj hs ▸ ⟨_, h.finish hnw, .inl rfl⟩
  · -- the read is granted
    cases hs
    simp only [take_serveAll, reverse_singleton, singleton_append]
    have hgrant := h.grantRead ht hfloor fun e he hlt =>
      of_conflictRead (by simpa using ‹¬ _ = true›) he (h.pre e he ▸ ts.pos e.txn) hlt
    exact ⟨_, hgrant.setPhase (hgrant.not_buffered hnw)
      (fun hp => hpre (Phase.hasPrewrite_granted.mp hp)) (fun _ => hfloor) (absurd · ht), .inr rfl⟩

/-- **A withdrawal finds its prewrite.** -/
theorem withdraw_beforeRecycling {v : V} (ht : s.phase t = .granted .WR v) (th : ℕ) :
    ∃ s', giveBack (manager L ts.get v₀) th t .XP_REQ none s = some s' ∧
      BeforeRecycling L ts.get v₀ th s' := by
  obtain ⟨m, es, heq, hinv⟩ := (h.finish (t := t) (by simp [ht])).dropPrewrite
    (by simp [Phase.HasPrewrite]) (h.prewrites t (ht ▸ trivial))
  have hacc : accessReq L ts.get t .XP_REQ none s.man = some (.RCOK, m, es) :=
    congrArg (Option.map _) heq
  simp only [giveBack, manager, access, hacc, map_some, bind_some, reduceCtorEq,
    false_and, if_false]
  exact ⟨_, rfl, m, update_serveAll s.phase es t (p := .finished) (by simp) ▸ hinv, .inr rfl⟩

/-- **A write finds its prewrite.** -/
theorem write_beforeRecycling {v : V} (ht : s.phase t = .granted .WR v) (th : ℕ) (v' : V) :
    ∃ s', giveBack (manager L ts.get v₀) th t .W_REQ (some v') s = some s' ∧
      BeforeRecycling L ts.get v₀ th s' := by
  have hpre := h.prewrites t (ht ▸ trivial)
  have hwrite := (h.finish (by simp [ht])).write (update_self ..) hpre v'
  obtain ⟨m, es, heq, hinv⟩ := hwrite.dropPrewrite (by simp [Phase.HasPrewrite]) hpre
  have hacc : accessReq L ts.get t .W_REQ (some v') s.man = some (.RCOK, m, .write t v' :: es) :=
    congrArg (Option.map _) heq
  simp only [giveBack, manager, access, hacc, map_some, bind_some, ne_eq,
    not_true_eq_false, and_false, if_false]
  have hphase := update_serveAll s.phase es t (p := .finished) (by simp)
  have hlog : (Event.write t v' :: es).reverse ++ s.log =
    es.reverse ++ .write t v' :: s.log := by simp
  refine ⟨_, rfl, m, ?_, .inr rfl⟩
  rw [hlog]
  exact hphase ▸ hinv

/-- **Every step with a valid threshold keeps the invariant.** -/
theorem inv_step {a : Action T V ℕ} (hvalid : ThresholdValid L ts.get v₀ s a)
    (hs : (machine (manager L ts.get v₀)).step s a = some s') : Inv ts.get v₀ s' := by
  have hpend := hvalid.2 s' hs
  have hcases := step_cases hs
  clear hs
  cases hcases with
  | prewrite idle hs => exact (prewrite_beforeRecycling h idle hvalid.1 hs).inv hpend
  | read idle ne hs =>
    exact (request_beforeRecycling h (by simp [idle]) (by simp [idle]) hvalid.1
      (absurd · ne) hs).inv hpend
  | @readWrite t _ hpre hs =>
    exact (request_beforeRecycling h (by simp [hpre]) (by simp [hpre])
      (h.pending t (hpre ▸ trivial)) (fun _ => h.prewrites t (hpre ▸ trivial)) hs).inv hpend
  | @resume t type v ready hs =>
    subst hs
    have hpre : (Phase.granted type v).HasPrewrite → (s.phase t).HasPrewrite := by
      rw [ready]
      cases type <;> exact id
    exact h.setPhase (h.not_buffered (by simp [ready])) (fun hp => h.prewrites t (hpre hp))
      (fun hp => h.pending t (hpre hp).pending) fun hf => absurd (ready.symm.trans hf) nofun
  | release granted _ hs => exact hs ▸ h.finish (by simp [granted])
  | @write t v v' i granted hs =>
    obtain ⟨_, heq, hinv⟩ := write_beforeRecycling h granted i v'
    obtain rfl := some.inj (heq.symm.trans hs)
    exact hinv.inv hpend
  | @withdraw t v _ i granted hs =>
    obtain ⟨_, heq, hinv⟩ := withdraw_beforeRecycling h granted i
    obtain rfl := some.inj (heq.symm.trans hs)
    exact hinv.inv hpend

end

theorem reachable_inv {s : State T V (Man T V)}
    (hs : (machine (manager L ts.get v₀)).ReachableVia (ThresholdValid L ts.get v₀) s) :
    Inv ts.get v₀ s :=
  hs.invariant (inv_init L ts.get v₀) fun _ _ _ _ h hvalid hs => inv_step h hvalid hs

/-! ## Correctness -/

/-- **Reads are stable snapshots.** What a transaction got is the newest version below its timestamp
among all that were ever written, before the read or after it. This is so in every run whose
thresholds are not above an access that is pending or still to come; versions that were recycled
count as written. -/
theorem snapshotReads_stable (L : Limits) (ts : Timestamps T) (v₀ : V) {s : State T V (Man T V)}
    (hs : (machine (manager L ts.get v₀)).ReachableVia (ThresholdValid L ts.get v₀) s) :
    Logged s ∧ ∀ t v, .read t v ∈ s.log → ∃ w, Newest (writes ts.get s.log) v₀ (ts.get t) w v := by
  refine ⟨reachable_logged hs.reachable, fun t v ht => ?_⟩
  obtain ⟨w, hnew, _⟩ := (reachable_inv hs).stable t v ht
  exact ⟨w, hnew⟩

/-- Three writers, of which the second waits for the first. At the end all versions but the
last are recycled, and a read at the threshold gets the one that is kept. -/
def recycledVersions {n : ℕ} [NeZero n] : List (Action (Fin n) ℕ ℕ) :=
  [.getRow 0 .WR 0, .readReq 0 0, .getRow 1 .WR 0, .readReq 1 0, .returnRow 0 .WR 10 0, .resume 1,
    .returnRow 1 .WR 20 0, .getRow 2 .WR 0, .readReq 2 0, .returnRow 2 .WR 30 4, .getRow 3 .RD 4]

/-- Four transactions, with recycling at every access. -/
abbrev alwaysRecycling : Machine (State (Fin 4) ℕ (Man (Fin 4) ℕ)) (Action (Fin 4) ℕ ℕ) :=
  machine (manager ⟨8, 8, 0⟩ (numbered 4 (by decide)).get 5)

theorem snapshotReads_stable_recycled :
    ∃ s, alwaysRecycling.run recycledVersions = some s ∧
      s.man.writehis.map MVHisEntry.row = [30] ∧ .read 3 30 ∈ s.log ∧
      ∃ w, Newest (writes (numbered 4 (by decide)).get s.log) 5 4 w 30 := by
  have hrun : (alwaysRecycling.run recycledVersions).map
      (fun s => (s.man.writehis.map MVHisEntry.row, s.log.head?)) = some
      ([30], some (.read 3 30)) := by
    decide +kernel
  have hok : alwaysRecycling.RunOk (ThresholdValid ⟨8, 8, 0⟩ (numbered 4 (by decide)).get 5)
      alwaysRecycling.init recycledVersions := by
    decide +kernel
  obtain ⟨s, hs, heq⟩ := map_eq_some_iff.mp hrun
  obtain ⟨hhis, hlog⟩ := Prod.mk.inj heq
  have hread : .read 3 30 ∈ s.log := mem_of_head? hlog
  exact ⟨s, hs, hhis, hread, (snapshotReads_stable _ _ 5 (.of_run hok hs)).2 3 30 hread⟩

end

end RowMvcc

end Deneva
