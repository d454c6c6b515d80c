import Deneva.TimestampRow

/-!
# Basic timestamp ordering (`concurrency_control/row_ts.cpp`)

`Row_ts` with `TS_TWR` off: the queues of buffered reads, writes and prewrites with
their cached minima, and the high-water marks `rts` and `wts`.

The queues are lists with the latest entry first, as the code pushes at the front.
`update_buffer` loops as long as buffered writes become ready; each round removes
prewrites, so `prereq.length + 1` rounds are enough.

* `Effect` is everything a step can do, where the queues are as they should be (`effect_of_step`).
* `QueueInv` says how the queues should be, and `queue_invariant` what that means for `access`.
* `Inv` adds the data: what was read and written, for `timestampOrdering_correct`.
-/

namespace Deneva

universe u v

open Function List Option

namespace RowTs

open TimestampRow

/-- `TsReqEntry`. -/
structure TsReqEntry (T : Type u) (V : Type v) where
  /-- the transaction -/
  txn : T
  /-- the data to write, of a `W_REQ` -/
  row : Option V
  /-- its timestamp -/
  ts : ℕ

/-- `Row_ts`, with the row's data. -/
structure Man (T : Type u) (V : Type v) where
  row : V
  wts : ℕ
  rts : ℕ
  minWts : ℕ
  minRts : ℕ
  minPts : ℕ
  readreq : List (TsReqEntry T V)
  writereq : List (TsReqEntry T V)
  prereq : List (TsReqEntry T V)
  preqLen : ℕ

variable {T : Type u} {V : Type v}

/-- `init`. -/
def Man.init (v : V) : Man T V := ⟨v, 0, 0, UINT64_MAX, UINT64_MAX, UINT64_MAX, [], [], [], 0⟩

/-- `buffer_req`. -/
def bufferReq (type : TsType) (e : TsReqEntry T V) (m : Man T V) : Man T V :=
  match type with
  | .R_REQ => { m with
      readreq := e :: m.readreq, minRts := if e.ts < m.minRts then e.ts else m.minRts }
  | .W_REQ => { m with
      writereq := e :: m.writereq, minWts := if e.ts < m.minWts then e.ts else m.minWts }
  | .P_REQ => { m with
      prereq := e :: m.prereq, minPts := if e.ts < m.minPts then e.ts else m.minPts
      preqLen := m.preqLen + 1 }
  | .XP_REQ => m

open TsReqEntry

/-- `cal_min`. -/
def calMin (queue : List (TsReqEntry T V)) : ℕ :=
  foldMin TsReqEntry.ts UINT64_MAX queue

/-- The prewrites of some requests are taken out. -/
def debufferPrewrites [DecidableEq T] :
    List (TsReqEntry T V) → List (TsReqEntry T V) → Option (List (TsReqEntry T V))
  | [], prereq => some prereq
  | e :: reqs, prereq => (debufferTxn txn e.txn prereq).bind (debufferPrewrites reqs)

/-- The request `update_buffer` performs among the writes that are ready, with its
`young_ts`. -/
def youngReq (reqs : List (TsReqEntry T V)) : ℕ × Option (TsReqEntry T V) :=
  reqs.foldl (fun young e => if e.ts < young.1 then (e.ts, some e) else young) (UINT64_MAX, none)

/-- The events of the reads of some requests. -/
def readEvents (row : V) (reqs : List (TsReqEntry T V)) : List (Event T V) :=
  reqs.map fun e => .read e.txn row

/-- The highest timestamp of some reads, or `rts`. -/
def raiseRts (rts : ℕ) (reqs : List (TsReqEntry T V)) : ℕ :=
  foldMax TsReqEntry.ts rts reqs

/-- `update_buffer`, for a number of rounds. -/
def updateBuffer [DecidableEq T] : ℕ → Man T V → Option (Man T V × List (Event T V))
  | 0, _ => none
  | rounds + 1, m =>
    let newMinPts := calMin m.prereq
    if newMinPts < m.minPts then none
    else if newMinPts = m.minPts then some (m, [])
    else
      let m := { m with minPts := newMinPts }
      let (readyRead, readreq) := debufferTs TsReqEntry.ts m.readreq m.minPts
      if readyRead.isEmpty then some (m, [])
      else
        let m := { m with readreq := readreq, rts := raiseRts m.rts readyRead }
        let reads := readEvents m.row readyRead
        let newMinRts := calMin m.readreq
        if newMinRts ≤ m.minRts then some (m, reads)
        else
          let m := { m with minRts := newMinRts }
          let (readyWrite, writereq) := debufferTs TsReqEntry.ts m.writereq m.minRts
          if readyWrite.isEmpty then some (m, reads)
          else
            match debufferPrewrites readyWrite m.prereq, (youngReq readyWrite).2 with
            | some prereq, some young =>
              match young.row with
              | none => none
              | some v =>
                (updateBuffer rounds { m with
                  writereq := writereq, prereq := prereq, row := v
                  preqLen := m.preqLen - readyWrite.length
                  wts := if m.wts < young.ts then young.ts else m.wts }).map fun (m, es) =>
                    (m, reads ++ .write young.txn v :: es)
            | _, _ => none

/-- The manager without a prewrite: `prereq` are those that stay. -/
def Man.without (m : Man T V) (prereq : List (TsReqEntry T V)) : Man T V :=
  { m with prereq := prereq, preqLen := m.preqLen - 1 }

/-- The prewrite of a transaction is taken out, and whatever waited for it is served. -/
def dropPrewrite [DecidableEq T] (t : T) (m : Man T V) : Option (Man T V × List (Event T V)) :=
  (debufferTxn txn t m.prereq).bind fun prereq =>
    updateBuffer (prereq.length + 1) (m.without prereq)

/-- `access`; `curRow` is what `txn->cur_row` holds. -/
def access [DecidableEq T] (ts : T → ℕ) (curRow : V) (t : T) (type : TsType) (row : Option V)
    (m : Man T V) : Option (RC × Man T V × List (Event T V)) :=
  match type with
  | .R_REQ =>
    if ts t < m.wts then some (.Abort, m, [])
    else if m.minPts < ts t then some (.WAIT, bufferReq .R_REQ ⟨t, none, ts t⟩ m, [])
    else some (.RCOK, { m with rts := if m.rts < ts t then ts t else m.rts }, [.read t m.row])
  | .P_REQ =>
    if ts t < m.rts then some (.Abort, m, [])
    else if ts t < m.wts then some (.Abort, m, [])
    else some (.RCOK, bufferReq .P_REQ ⟨t, none, ts t⟩ m, [])
  | .W_REQ =>
    match row with
    | none => none
    | some v =>
      if m.minPts < ts t then some (.RCOK, bufferReq .W_REQ ⟨t, some v, ts t⟩ m, [])
      else if m.minRts < ts t then some (.RCOK, bufferReq .W_REQ ⟨t, some curRow, ts t⟩ m, [])
      else
        (dropPrewrite t { m with row := v, wts := if m.wts < ts t then ts t else m.wts }).map
          fun (m, es) => (.RCOK, m, .write t v :: es)
  | .XP_REQ => (dropPrewrite t m).map fun (m, es) => (.RCOK, m, es)

/-- `Row_ts` as the manager of a row. -/
def manager [DecidableEq T] (ts : T → ℕ) (v : V) : Manager T V V (Man T V) where
  init := .init v
  access := access ts

theorem calMin_cons (e : TsReqEntry T V) (queue : List (TsReqEntry T V)) :
    calMin (e :: queue) = if e.ts < calMin queue then e.ts else calMin queue :=
  foldMin_cons TsReqEntry.ts UINT64_MAX e queue

/-! ## Serving the buffered reads -/

/-- The buffered reads that no prewrite precedes, in the order in which they are served. -/
def readyReads (m : Man T V) : List (TsReqEntry T V) :=
  (debufferTs TsReqEntry.ts m.readreq (calMin m.prereq)).1

/-- The manager once they are served. -/
def served (m : Man T V) : Man T V :=
  { m with
    minPts := calMin m.prereq
    readreq := (debufferTs TsReqEntry.ts m.readreq (calMin m.prereq)).2
    rts := raiseRts m.rts (readyReads m)
    minRts := calMin (debufferTs TsReqEntry.ts m.readreq (calMin m.prereq)).2 }

/-- **`update_buffer` serves the reads that are ready**; without buffered writes that is
all it does. -/
theorem updateBuffer_eq [DecidableEq T] {m : Man T V} (rounds : ℕ) (hw : m.writereq = [])
    (hp : m.minPts ≤ calMin m.prereq) (hr : m.minRts = calMin m.readreq)
    (hrd : ∀ e ∈ m.readreq, m.minPts < e.ts) :
    updateBuffer (rounds + 1) m = some (served m, readEvents m.row (readyReads m)) := by
  unfold updateBuffer
  dsimp only
  rw [if_neg (Nat.not_lt_of_le hp)]
  by_cases hsame : calMin m.prereq = m.minPts
  · -- the minimum is not updated, so no read is ready
    rw [if_pos hsame]
    simp only [served, readyReads, hsame, debufferTs_of_lt hrd, readEvents, map_nil, raiseRts,
      foldMax, foldl_nil, ← hr]
  · rw [if_neg hsame]
    by_cases hempty : (debufferTs TsReqEntry.ts m.readreq (calMin m.prereq)).1.isEmpty = true
    · rw [if_pos hempty]
      have hnil : (debufferTs TsReqEntry.ts m.readreq (calMin m.prereq)).1 = [] :=
        List.isEmpty_iff.mp hempty
      have hlt : ∀ e ∈ m.readreq, calMin m.prereq < e.ts := by
        intro e he
        by_contra hle
        have hmem := mem_debufferTs.1.mpr ⟨he, Nat.le_of_not_lt hle⟩
        rw [hnil] at hmem
        cases hmem
      simp only [served, readyReads, debufferTs_of_lt hlt, readEvents, map_nil, raiseRts,
        foldMax, foldl_nil, ← hr]
    · rw [if_neg hempty]
      have hmono : m.minRts ≤ calMin (debufferTs TsReqEntry.ts m.readreq (calMin m.prereq)).2 := by
        rw [hr]
        exact foldMin_mono fun e he => (mem_debufferTs.2.mp he).1
      by_cases hle : calMin (debufferTs TsReqEntry.ts m.readreq (calMin m.prereq)).2 ≤ m.minRts
      · rw [if_pos hle]
        have heq : m.minRts = calMin (debufferTs TsReqEntry.ts m.readreq (calMin m.prereq)).2 :=
          le_antisymm hmono hle
        simp only [served, readyReads, ← heq]
      · rw [if_neg hle]
        have hnone : ∀ b, debufferTs TsReqEntry.ts m.writereq b = ([], []) := by
          simp [hw, debufferTs]
        simp only [hnone, isEmpty_nil, if_true]
        simp only [served, readyReads, hw]

/-! ## The queues -/

section

variable [DecidableEq T] {ts : T → ℕ} {s s' : State T V (Man T V)} {t : T} {i : V}

/-- What holds of the queues between any two accesses. -/
structure QueueInv (ts : T → ℕ) (s : State T V (Man T V)) : Prop where
  /-- `min_pts` is up to date -/
  minPts : s.man.minPts = calMin s.man.prereq
  /-- so is `min_rts` -/
  minRts : s.man.minRts = calMin s.man.readreq
  /-- `preq_len` counts the prewrites -/
  preqLen : s.man.preqLen = s.man.prereq.length
  /-- no write is ever buffered -/
  writereq : s.man.writereq = []
  /-- entries carry the timestamp of their transaction -/
  pre : ∀ e ∈ s.man.prereq, e.ts = ts e.txn
  /-- a buffered read waits for a prewrite -/
  reads : ∀ e ∈ s.man.readreq, e.ts = ts e.txn ∧ s.man.minPts < e.ts
  /-- no read above a prewrite was granted -/
  rts : s.man.rts ≤ s.man.minPts
  /-- no write above a prewrite was applied -/
  wts : s.man.wts ≤ s.man.minPts
  /-- prewrites stay until the row is returned -/
  prewrites : ∀ t, (s.phase t).HasPrewrite → ∃ e ∈ s.man.prereq, e.txn = t
  /-- who is to write has the first prewrite, and its read raised `rts` -/
  owner : ∀ t, (s.phase t).Owns → ts t = s.man.minPts ∧ ts t ≤ s.man.rts

omit [DecidableEq T] in
/-- A prewrite is not below `min_pts`. -/
theorem QueueInv.minPts_le (h : QueueInv ts s) (ht : (s.phase t).HasPrewrite) :
    s.man.minPts ≤ ts t := by
  obtain ⟨e, he, rfl⟩ := h.prewrites t ht
  rw [h.minPts, ← h.pre e he]
  exact foldMin_le he

/-- The row after a transaction's prewrite was taken out, and the reads that waited for it are
served. -/
def withoutPrewrite (t : T) (prereq : List (TsReqEntry T V)) (s : State T V (Man T V)) :
    State T V (Man T V) :=
  { man := served (s.man.without prereq)
    phase := serveAll (update s.phase t .finished)
      (readEvents s.man.row (readyReads (s.man.without prereq)))
    log := (readEvents s.man.row (readyReads (s.man.without prereq))).reverse ++ s.log }

/-- The write of a transaction is applied. -/
def applyWrite (ts : T → ℕ) (t : T) (v : V) (s : State T V (Man T V)) : State T V (Man T V) :=
  { s with man := { s.man with row := v, wts := ts t }, log := .write t v :: s.log }

/-- Everything a step can do to the row, where the queues are as they should be. -/
inductive Effect (ts : T → ℕ) (s : State T V (Man T V)) (t : T) : State T V (Man T V) → Prop where
  /-- a refused request, or a row that was read is returned -/
  | finish : Effect ts s t { s with phase := update s.phase t .finished }
  /-- an accepted prewrite -/
  | prewrite (idle : s.phase t = .idle) (hr : s.man.rts ≤ ts t) (hw : s.man.wts ≤ ts t) :
      Effect ts s t { s with
        man := bufferReq .P_REQ ⟨t, none, ts t⟩ s.man
        phase := update s.phase t .prewritten }
  /-- a read that has to wait -/
  | wait {type : AccessT} (open_ : s.phase t ≠ .finished) (hpre : type = .WR →
      s.phase t = .prewritten) (hw : s.man.wts ≤ ts t) (hp : s.man.minPts < ts t) :
      Effect ts s t { s with
        man := bufferReq .R_REQ ⟨t, none, ts t⟩ s.man
        phase := update s.phase t (.waiting type) }
  /-- a read that is granted at once -/
  | grant {type : AccessT} (open_ : s.phase t ≠ .finished) (hpre : type = .WR →
      s.phase t = .prewritten) (hw : s.man.wts ≤ ts t) (hp : ts t ≤ s.man.minPts) :
      Effect ts s t
        { man := { s.man with rts := if s.man.rts < ts t then ts t else s.man.rts }
          phase := update s.phase t (.granted type s.man.row)
          log := .read t s.man.row :: s.log }
  /-- a transaction goes on with the row it waited for -/
  | resume {type : AccessT} {v : V} (ready : s.phase t = .ready type v) :
      Effect ts s t { s with phase := update s.phase t (.granted type v) }
  /-- a prewrite is withdrawn -/
  | withdraw (owns : (s.phase t).Owns) {prereq : List (TsReqEntry T V)}
      (found : debufferTxn txn t s.man.prereq = some prereq) :
      Effect ts s t (withoutPrewrite t prereq s)
  /-- a write is applied at once -/
  | write (owns : (s.phase t).Owns) (v : V) {prereq : List (TsReqEntry T V)}
      (found : debufferTxn txn t s.man.prereq = some prereq) :
      Effect ts s t (withoutPrewrite t prereq (applyWrite ts t v s))

variable {prereq : List (TsReqEntry T V)} {type : AccessT}

omit [DecidableEq T] in
/-- Where a queue without writes is kept as it should be, a prewrite that is there is taken out and
the reads that waited for it are served. -/
theorem dropPrewrite_eq [DecidableEq T] {m : Man T V}
    (hfound : debufferTxn txn t m.prereq = some prereq) (hsub : ∀ e ∈ prereq, e ∈ m.prereq)
    (hw : m.writereq = []) (hp : m.minPts = calMin m.prereq) (hr : m.minRts = calMin m.readreq)
    (hrd : ∀ e ∈ m.readreq, m.minPts < e.ts) :
    dropPrewrite t m =
      some (served (m.without prereq), readEvents m.row (readyReads (m.without prereq))) := by
  simp only [dropPrewrite, hfound, bind_some]
  exact updateBuffer_eq _ hw (hp ▸ foldMin_mono hsub) hr hrd

/-- A request for reading. -/
theorem effect_request (v₀ : V) (hopen : s.phase t ≠ .finished)
    (hpre : type = .WR → s.phase t = .prewritten)
    (hs : request (manager ts v₀) i t type s = some s') : Effect ts s t s' := by
  simp only [request, manager, access] at hs
  split at hs
  · exact some.inj hs ▸ .finish
  have hle := Nat.le_of_not_lt ‹¬ ts t < s.man.wts›
  split at hs
  · exact some.inj hs ▸ .wait hopen hpre hle ‹_›
  · cases hs
    simp only [take_serveAll, reverse_singleton, singleton_append]
    exact .grant hopen hpre hle (Nat.le_of_not_lt ‹_›)

omit [DecidableEq T] in
theorem queueInv_init [DecidableEq T] (ts : T → ℕ) (v : V) :
    QueueInv ts (machine (manager ts v)).init where
  minPts := rfl
  minRts := rfl
  preqLen := rfl
  writereq := rfl
  pre _ he := absurd he not_mem_nil
  reads _ he := absurd he not_mem_nil
  rts := Nat.zero_le _
  wts := Nat.zero_le _
  prewrites _ h := h.elim
  owner _ h := h.elim

section

variable (h : QueueInv ts s)

include h

/-- **A withdrawal finds its prewrite.** -/
theorem QueueInv.withdraw (v₀ i : V) (ht : (s.phase t).Owns) :
    ∃ prereq, debufferTxn txn t s.man.prereq = some prereq ∧
      giveBack (manager ts v₀) i t .XP_REQ none s = some (withoutPrewrite t prereq s) := by
  obtain ⟨prereq, hfound, hsub, -⟩ := debufferTxn_spec (h.prewrites t ht.hasPrewrite)
  have hdrop :=
    dropPrewrite_eq hfound hsub h.writereq h.minPts h.minRts fun e he => (h.reads e he).2
  refine ⟨prereq, hfound, ?_⟩
  have hacc : access ts i t .XP_REQ none s.man = some (.RCOK, _) := congrArg (Option.map _) hdrop
  simp only [giveBack, manager, hacc, bind_some, reduceCtorEq, false_and, if_false]
  rw [update_serveAll s.phase _ t (p := .finished) (by simp)]
  rfl

/-- **A write is applied at once**: who is to write has the first prewrite, and no buffered
read is below it. -/
theorem QueueInv.write (v₀ i : V) (ht : (s.phase t).Owns) (v : V) :
    ∃ prereq, debufferTxn txn t s.man.prereq = some prereq ∧
      giveBack (manager ts v₀) i t .W_REQ (some v) s =
        some (withoutPrewrite t prereq (applyWrite ts t v s)) := by
  obtain ⟨prereq, hfound, hsub, -⟩ := debufferTxn_spec (h.prewrites t ht.hasPrewrite)
  have hdrop :=
    dropPrewrite_eq (m := (RowTs.applyWrite ts t v s).man) hfound hsub h.writereq h.minPts
    h.minRts fun e he => (h.reads e he).2
  have hmin := (h.owner t ht).1
  have hminRts : ts t ≤ s.man.minRts := by
    rw [hmin, h.minRts]
    exact le_foldMin.mpr ⟨h.minPts ▸ foldMin_le_init, fun e he => (h.reads e he).2.le⟩
  have hwts : (if s.man.wts < ts t then ts t else s.man.wts) = ts t := by
    have := h.wts
    split <;> omega
  have hacc : access ts i t .W_REQ (some v) s.man =
      some (.RCOK, served ((RowTs.applyWrite ts t v s).man.without prereq),
        .write t v ::
        readEvents v (readyReads ((RowTs.applyWrite ts t v s).man.without prereq))) := by
    simp only [access, hwts, if_neg hmin.le.not_gt, if_neg hminRts.not_gt]
    exact congrArg (Option.map _) hdrop
  have hlog : ∀ es : List (Event T V),
      (Event.write t v :: es).reverse ++ s.log = es.reverse ++ .write t v :: s.log := by
    simp
  refine ⟨prereq, hfound, ?_⟩
  simp only [giveBack, manager, hacc, bind_some, ne_eq, not_true_eq_false, and_false, if_false]
  rw [hlog, withoutPrewrite, ← update_serveAll _ _ t (p := .finished) (by simp)]
  rfl

/-- A step, where the queues are as they should be. -/
theorem effect_of_step {v₀ : V} {a : Action T V V}
    (hs : (machine (manager ts v₀)).step s a = some s') : ∃ t, Effect ts s t s' := by
  have hcases := step_cases hs
  clear hs
  cases hcases with
  | @prewrite t _ idle hs =>
    refine ⟨t, ?_⟩
    simp only [TimestampRow.prewrite, manager, access] at hs
    split_ifs at hs with hr hw
    · exact some.inj hs ▸ .finish
    · exact some.inj hs ▸ .finish
    · exact some.inj hs ▸ .prewrite idle (Nat.le_of_not_lt hr) (Nat.le_of_not_lt hw)
  | @read t _ _ idle ne hs =>
    exact ⟨t, effect_request v₀ (by simp [idle]) (absurd · ne) hs⟩
  | @readWrite t _ pre hs => exact ⟨t, effect_request v₀ (by simp [pre]) (fun _ => pre) hs⟩
  | @resume t _ _ ready hs => exact ⟨t, hs ▸ .resume ready⟩
  | @release t _ _ _ _ _ _ hs => exact ⟨t, hs ▸ .finish⟩
  | @write t v v' i granted hs =>
    have hown : (s.phase t).Owns := granted ▸ trivial
    obtain ⟨prereq, hfound, heq⟩ := h.write v₀ i hown v'
    exact ⟨t, some.inj (heq.symm.trans hs) ▸ .write hown v' hfound⟩
  | @withdraw t v _ i granted hs =>
    have hown : (s.phase t).Owns := granted ▸ trivial
    obtain ⟨prereq, hfound, heq⟩ := h.withdraw v₀ i hown
    exact ⟨t, some.inj (heq.symm.trans hs) ▸ .withdraw hown hfound⟩

/-- A transaction goes on. -/
theorem QueueInv.setPhase {p : Phase V} (hpre : p.HasPrewrite → ∃ e ∈ s.man.prereq, e.txn = t)
    (hown : p.Owns → ts t = s.man.minPts ∧ ts t ≤ s.man.rts) :
    QueueInv ts { s with phase := update s.phase t p } :=
  { h with
    prewrites := (forall_update_iff s.phase
      fun u p => p.HasPrewrite → ∃ e ∈ s.man.prereq, e.txn = u).mpr ⟨hpre, fun u _ => h.prewrites u⟩
    owner := (forall_update_iff s.phase
      fun u p => p.Owns → ts u = s.man.minPts ∧ ts u ≤ s.man.rts).mpr ⟨hown, fun u _ => h.owner u⟩ }

theorem QueueInv.finish (t : T) : QueueInv ts { s with phase := update s.phase t .finished } :=
  h.setPhase False.elim False.elim

omit [DecidableEq T] in
/-- An accepted prewrite. It may lower `min_pts`, but not while somebody is to write, since
`rts` is as high then. -/
theorem QueueInv.bufferPrewrite (hr : s.man.rts ≤ ts t) (hw : s.man.wts ≤ ts t) :
    QueueInv ts { s with man := bufferReq .P_REQ ⟨t, none, ts t⟩ s.man } := by
  have hmin : (if ts t < s.man.minPts then ts t else s.man.minPts) ≤ s.man.minPts := by
    split <;> omega
  refine
    { h with
      minPts := ?_, preqLen := congrArg (· + 1) h.preqLen, pre := ?_, reads := ?_, rts := ?_,
        wts := ?_
      prewrites := ?_, owner := ?_ }
  · rw [bufferReq, calMin_cons, ← h.minPts]
  · intro e he
    rcases mem_cons.mp he with rfl | he
    · rfl
    · exact h.pre e he
  · exact fun e he => ⟨(h.reads e he).1, hmin.trans_lt (h.reads e he).2⟩
  · have := h.rts
    simp only [bufferReq]
    split <;> omega
  · have := h.wts
    simp only [bufferReq]
    split <;> omega
  · intro u hu
    obtain ⟨e, he, heu⟩ := h.prewrites u hu
    exact ⟨e, mem_cons_of_mem _ he, heu⟩
  · intro u hu
    obtain ⟨hmin, hrts⟩ := h.owner u hu
    have hle : ¬ ts t < s.man.minPts := by omega
    exact ⟨hmin.trans (if_neg hle).symm, hrts⟩

omit [DecidableEq T] in
/-- A read that has to wait. -/
theorem QueueInv.bufferRead (hp : s.man.minPts < ts t) :
    QueueInv ts { s with man := bufferReq .R_REQ ⟨t, none, ts t⟩ s.man } := by
  refine { h with minRts := ?_, reads := ?_ }
  · rw [bufferReq, calMin_cons, ← h.minRts]
  · intro e he
    rcases mem_cons.mp he with rfl | he
    · exact ⟨rfl, hp⟩
    · exact h.reads e he

omit [DecidableEq T] in
/-- A read that is granted at once. -/
theorem QueueInv.grantRead (hp : ts t ≤ s.man.minPts) (log : List (Event T V)) :
    QueueInv ts { s with
      man := { s.man with rts := if s.man.rts < ts t then ts t else s.man.rts }, log := log } := by
  refine { h with rts := ?_, owner := ?_ }
  · have := h.rts
    split <;> omega
  · intro u hu
    obtain ⟨hmin, hrts⟩ := h.owner u hu
    refine ⟨hmin, ?_⟩
    split <;> omega

omit [DecidableEq T] in
/-- The write of a transaction that has the first prewrite. -/
theorem QueueInv.applyWrite (ht : (s.phase t).Owns) (v : V) : QueueInv ts (applyWrite ts t v s) :=
  { h with wts := (h.owner t ht).1.le }

end

omit [DecidableEq T] in
theorem mem_readEvents {row : V} {reqs : List (TsReqEntry T V)} {e : Event T V} :
    e ∈ readEvents row reqs ↔ ∃ r ∈ reqs, e = .read r.txn row := by
  simp [readEvents, eq_comm]

/-- Which prewrites stay. -/
theorem stay_of_found {queue : List (TsReqEntry T V)}
    (hfound : debufferTxn txn t queue = some prereq) :
    (∀ e ∈ prereq, e ∈ queue) ∧ ∀ e ∈ queue, e.txn ≠ t → e ∈ prereq := by
  have hmem : ∃ e ∈ queue, e.txn = t := by
    by_contra hno
    have hnone : ∀ q : List (TsReqEntry T V), (∀ e ∈ q, e.txn ≠ t) →
        debufferTxn txn t q = none := by
      intro q hq
      induction q with
      | nil => rfl
      | cons x q ih =>
        rw [debufferTxn, if_neg (hq x mem_cons_self),
          ih fun e he => hq e (mem_cons_of_mem _ he)]
        rfl
    cases (hnone queue fun e he het => hno ⟨e, he, het⟩).symm.trans hfound
  obtain ⟨prereq', hfound', hsub, hrest⟩ := debufferTxn_spec hmem
  obtain rfl := some.inj (hfound'.symm.trans hfound)
  exact ⟨hsub, hrest⟩

theorem rts_le_raised (rts x : ℕ) : x ≤ if rts < x then x else rts := by
  split <;> omega

omit [DecidableEq T] in
/-- Who is granted the row for writing has the first prewrite. -/
theorem QueueInv.owner_of_grant (h : QueueInv ts s) {v : V}
    (hpre : type = .WR → s.phase t = .prewritten) (hp : ts t ≤ s.man.minPts)
    (hown : (Phase.granted type v).Owns) : ts t = s.man.minPts := by
  have hphase := hpre (Phase.owns_granted.mp hown)
  exact le_antisymm hp (h.minPts_le (by rw [hphase]; trivial))

omit [DecidableEq T] in
/-- A transaction that had a prewrite before it waited or was served has it still. -/
theorem QueueInv.prewrite_of_wr (h : QueueInv ts s) (hpre : type = .WR → s.phase t = .prewritten)
    (hwr : type = .WR) : ∃ e ∈ s.man.prereq, e.txn = t :=
  h.prewrites t (by rw [hpre hwr]; trivial)

/-- The next phase after `ready` asks for nothing new. -/
theorem granted_of_ready {v : V} :
    ((Phase.granted type v).HasPrewrite → (Phase.ready type v).HasPrewrite) ∧
      ((Phase.granted type v).Owns → (Phase.ready type v).Owns) := by
  cases type <;> exact ⟨id, id⟩

section

variable (hts : Injective ts)

include hts

section

variable (h : QueueInv ts s)

include h

omit [DecidableEq T] in
/-- While a transaction is to write nobody else is. -/
theorem QueueInv.owner_unique {u : T} (ht : (s.phase t).Owns) (hu : (s.phase u).Owns) : u = t :=
  hts ((h.owner u hu).1.trans (h.owner t ht).1.symm)

theorem QueueInv.not_owns_finish (ht : (s.phase t).Owns) (u : T) :
    ¬ (update s.phase t .finished u).Owns := by
  intro hu
  by_cases hut : u = t
  · rw [hut, update_self] at hu
    exact hu
  · rw [update_of_ne hut] at hu
    exact hut (h.owner_unique hts ht hu)

/-- **Serving the reads that waited for a prewrite that is gone.** Who becomes the next to
write has the first of the prewrites that stay. -/
theorem QueueInv.withoutPrewrite (ht : (s.phase t).Owns)
    (hfound : debufferTxn txn t s.man.prereq = some prereq) :
    QueueInv ts (withoutPrewrite t prereq s) := by
  obtain ⟨hsub, hrest⟩ := stay_of_found hfound
  have hmono : s.man.minPts ≤ calMin prereq := h.minPts ▸ foldMin_mono hsub
  have hready : ∀ e ∈ readyReads (s.man.without prereq), e ∈ s.man.readreq ∧ e.ts ≤ calMin prereq :=
    fun e he => mem_debufferTs.1.mp he
  have hpre : ∀ u, (update s.phase t .finished u).HasPrewrite → ∃ e ∈ prereq, e.txn = u := by
    intro u hu
    by_cases hut : u = t
    · rw [hut, update_self] at hu
      exact hu.elim
    · rw [update_of_ne hut] at hu
      obtain ⟨e, he, heu⟩ := h.prewrites u hu
      exact ⟨e, hrest e he (heu ▸ hut), heu⟩
  refine
    { minPts := rfl, minRts := rfl, preqLen := ?_, writereq := h.writereq
      pre := fun e he => h.pre e (hsub e he), reads := ?_
      rts := foldMax_le.mpr ⟨h.rts.trans hmono, fun e he => (hready e he).2⟩
      wts := h.wts.trans hmono, prewrites := fun u hu =>
      hpre u (serveAll_hasPrewrite hu), owner := ?_ }
  · show s.man.preqLen - 1 = prereq.length
    rw [h.preqLen, ← length_debufferTxn hfound, Nat.add_sub_cancel]
  · intro e he
    obtain ⟨he, hlt⟩ := mem_debufferTs.2.mp he
    exact ⟨(h.reads e he).1, hlt⟩
  · intro u hu
    rcases serveAll_cases (update s.phase t .finished)
      (readEvents s.man.row (readyReads (s.man.without prereq))) u with hsame | ⟨type, v, hwait,
        hmem, hserved⟩
    · exact absurd (hsame ▸ hu) (h.not_owns_finish hts ht u)
    · obtain ⟨r, hr, heq⟩ := mem_readEvents.mp hmem
      cases heq
      obtain ⟨hrmem, hrle⟩ := hready r hr
      have hrts := (h.reads r hrmem).1
      -- its own prewrite is still there, so it is the first
      obtain ⟨e, he, heu⟩ := hpre r.txn (serveAll_hasPrewrite hu.hasPrewrite)
      have hle : calMin prereq ≤ ts r.txn := by
        rw [← heu, ← h.pre e (hsub e he)]
        exact foldMin_le he
      exact ⟨le_antisymm (hrts ▸ hrle) hle, hrts ▸ le_foldMax hr⟩

theorem QueueInv.effect (heff : Effect ts s t s') : QueueInv ts s' := by
  cases heff with
  | finish => exact h.finish t
  | prewrite idle hr hw =>
    exact (h.bufferPrewrite hr hw).setPhase (fun _ => ⟨_, mem_cons_self, rfl⟩) False.elim
  | wait open_ hpre hw hp =>
    exact (h.bufferRead hp).setPhase
      (fun hwr => h.prewrite_of_wr hpre (Phase.hasPrewrite_waiting.mp hwr)) False.elim
  | grant open_ hpre hw hp =>
    exact (h.grantRead hp _).setPhase
      (fun hwr => h.prewrite_of_wr hpre (Phase.hasPrewrite_granted.mp hwr))
      fun hown => ⟨h.owner_of_grant hpre hp hown, rts_le_raised ..⟩
  | resume ready =>
    exact h.setPhase (fun hp => h.prewrites t (ready ▸ granted_of_ready.1 hp))
      fun hp => h.owner t (ready ▸ granted_of_ready.2 hp)
  | withdraw owns found => exact h.withoutPrewrite hts owns found
  | write owns v found => exact (h.applyWrite owns v).withoutPrewrite hts owns found

end

theorem reachable_queueInv {v₀ : V} (hs : (machine (manager ts v₀)).Reachable s) :
    QueueInv ts s := by
  refine hs.invariant (queueInv_init ts v₀) fun s a s' h hs => ?_
  obtain ⟨t, heff⟩ := effect_of_step h hs
  exact h.effect hts heff

end

/-- **The queue invariant.** Between any two accesses the cached minima are those of the queues,
`preq_len` is the number of prewrites, every buffered read is above a prewrite and no write is
buffered; an `R_REQ` after an accepted `P_REQ` is not refused, and where a transaction can return
the row, both ways of doing so pass the assertions. -/
theorem queue_invariant {ts : T → ℕ} (hts : Injective ts) (v₀ : V) {s : State T V (Man T V)}
    (hs : (machine (manager ts v₀)).Reachable s) :
    s.man.minPts = (s.man.prereq.map TsReqEntry.ts).foldr min UINT64_MAX ∧
      s.man.minRts = (s.man.readreq.map TsReqEntry.ts).foldr min UINT64_MAX ∧
      s.man.preqLen = s.man.prereq.length ∧
      (∀ e ∈ s.man.readreq, s.man.minPts < e.ts) ∧
      s.man.writereq = [] ∧
      (∀ t i, s.phase t = .prewritten → ∃ rc m es,
        access ts i t .R_REQ none s.man = some (rc, m, es) ∧ rc ≠ .Abort) ∧
      (∀ t i, s.phase t = .idle →
        (access ts i t .P_REQ none s.man).isSome ∧ (access ts i t .R_REQ none s.man).isSome) ∧
      ∀ t v, s.phase t = .granted .WR v → ∀ i v',
        (access ts i t .W_REQ (some v') s.man).isSome ∧
      (access ts i t .XP_REQ none s.man).isSome := by
  have h := reachable_queueInv hts hs
  refine ⟨?_, ?_, h.preqLen, fun e he => (h.reads e he).2, h.writereq, ?_, ?_, ?_⟩
  · rw [h.minPts]
    exact foldMin_eq_foldr ..
  · rw [h.minRts]
    exact foldMin_eq_foldr ..
  · intro t i ht
    have hle : s.man.wts ≤ ts t := h.wts.trans (h.minPts_le (by rw [ht]; trivial))
    simp only [access, if_neg hle.not_gt]
    split
    · exact ⟨_, _, _, rfl, nofun⟩
    · exact ⟨_, _, _, rfl, nofun⟩
  · intro t i _
    constructor
    · simp only [access]
      split_ifs <;> rfl
    · simp only [access]
      split_ifs <;> rfl
  · intro t v ht i v'
    have hown : (s.phase t).Owns := ht ▸ trivial
    obtain ⟨_, -, hwrite⟩ := h.write v₀ i hown v'
    obtain ⟨_, -, hwithdraw⟩ := h.withdraw v₀ i hown
    obtain ⟨_, hwrite, -⟩ := bind_eq_some_iff.mp hwrite
    obtain ⟨_, hwithdraw, -⟩ := bind_eq_some_iff.mp hwithdraw
    exact ⟨isSome_of_eq_some hwrite, isSome_of_eq_some hwithdraw⟩

/-- A writer, and a read and a second writer above it that wait. -/
def waitingQueue : List (Action (Fin 4) ℕ ℕ) :=
  [.getRow 1 .WR 0, .readReq 1 0, .getRow 2 .RD 0, .getRow 3 .WR 0, .readReq 3 0]

/-- Two prewrites and two buffered reads, the first of them above the first prewrite. -/
theorem queue_invariant_waitingQueue :
    ∃ s, (machine (manager (fun t : Fin 4 => t.val) 5)).run waitingQueue = some s ∧
      s.man.prereq.map TsReqEntry.ts = [3, 1] ∧ s.man.readreq.map TsReqEntry.ts = [3, 2] ∧
      s.man.minPts = [3, 1].foldr min UINT64_MAX ∧ s.man.minRts = [3, 2].foldr min UINT64_MAX ∧
      s.man.preqLen = 2 := by
  obtain ⟨s, hs, hpre, hreads⟩ : ∃ s,
    (machine (manager (fun t : Fin 4 => t.val) 5)).run waitingQueue =
      some s ∧ s.man.prereq.map TsReqEntry.ts = [3, 1] ∧ s.man.readreq.map TsReqEntry.ts = [3, 2] :=
    ⟨_, rfl, rfl, rfl⟩
  obtain ⟨hp, hr, hlen, -⟩ := queue_invariant (fun _ _ => Fin.ext) 5 (.of_run hs)
  rw [hpre] at hp
  rw [hreads] at hr
  have hlength := congrArg List.length hpre
  rw [length_map] at hlength
  exact ⟨s, hs, hpre, hreads, hp, hr, hlen.trans hlength⟩

end

/-! ## The data -/

section

variable [DecidableEq T]

/-- Every read of the log saw the newest write below it at that time, and every write
came after reads below it only. -/
def Sound (ts : T → ℕ) (v₀ : V) : List (Event T V) → Prop
  | [] => True
  | .read t v :: log => (∃ w, Newest (writes ts log) v₀ (ts t) w v) ∧ Sound ts v₀ log
  | .write t _ :: log => (∀ u v, .read u v ∈ log → ts u ≤ ts t) ∧ Sound ts v₀ log

/-- What holds between any two accesses. -/
structure Inv (ts : T → ℕ) (v₀ : V) (s : State T V (Man T V)) : Prop extends QueueInv ts s where
  /-- a buffered read is above every write -/
  above : ∀ e ∈ s.man.readreq, s.man.wts < e.ts
  /-- the row holds the newest write -/
  newest : Newest (writes ts s.log) v₀ (UINT64_MAX + 1) s.man.wts s.man.row
  /-- writers are through with the row -/
  writers : ∀ t v, .write t v ∈ s.log → s.phase t = .finished
  /-- granted reads raised `rts` -/
  readers : ∀ t v, .read t v ∈ s.log → ts t ≤ s.man.rts
  /-- the log is as it should be -/
  sound : Sound ts v₀ s.log

theorem inv_init (ts : T → ℕ) (v : V) : Inv ts v (machine (manager ts v)).init where
  toQueueInv := queueInv_init ts v
  above _ he := absurd he not_mem_nil
  newest := Newest.nil v _
  writers _ _ he := absurd he not_mem_nil
  readers _ _ he := absurd he not_mem_nil
  sound := trivial

variable {ts : Timestamps T} {v₀ : V} {s s' : State T V (Man T V)} {t : T}

omit [DecidableEq T] in
theorem writes_readEvents (row : V) (reqs : List (TsReqEntry T V)) (log : List (Event T V)) :
    writes ts.get ((readEvents row reqs).reverse ++ log) = writes ts.get log := by
  have hnil : writes ts.get (readEvents row reqs).reverse = [] := by
    refine List.filterMap_eq_nil_iff.mpr fun e he => ?_
    obtain ⟨r, _, rfl⟩ := mem_readEvents.mp (mem_reverse.mp he)
    rfl
  rw [writes_append, hnil, nil_append]

omit [DecidableEq T] in
/-- Reads above the newest write are sound, however many there are. -/
theorem Sound.readEvents {w : ℕ} {row : V} {log : List (Event T V)}
    (hnew : Newest (writes ts.get log) v₀ (UINT64_MAX + 1) w row) (hs : Sound ts.get v₀ log)
    (reqs : List (TsReqEntry T V)) (hw : ∀ e ∈ reqs, w < ts.get e.txn) :
    Sound ts.get v₀ ((readEvents row reqs).reverse ++ log) := by
  induction reqs generalizing log with
  | nil => exact hs
  | cons e reqs ih =>
    have hmax := ts.le_max e.txn
    have hread : Newest (writes ts.get log) v₀ (ts.get e.txn) w row :=
      hnew.lower (hw e mem_cons_self) (by omega)
    have hstep : (RowTs.readEvents row (e :: reqs)).reverse ++ log =
        (RowTs.readEvents row reqs).reverse ++ .read e.txn row :: log := by
      simp [RowTs.readEvents]
    rw [hstep]
    exact ih hnew ⟨⟨w, hread⟩, hs⟩ fun e' he' => hw e' (mem_cons_of_mem _ he')

/-- Serving reads keeps the data as it should be. -/
theorem Inv.serveReads {prereq : List (TsReqEntry T V)} (hq : QueueInv ts.get s)
    (hqueue : QueueInv ts.get (withoutPrewrite t prereq s))
    (above : ∀ e ∈ s.man.readreq, s.man.wts < e.ts)
    (newest : Newest (writes ts.get s.log) v₀ (UINT64_MAX + 1) s.man.wts s.man.row)
    (writers : ∀ u v, .write u v ∈ s.log → update s.phase t .finished u = .finished)
    (readers : ∀ u v, .read u v ∈ s.log → ts.get u ≤ s.man.rts) (sound : Sound ts.get v₀ s.log) :
    Inv ts.get v₀ (withoutPrewrite t prereq s) := by
  have hready : ∀ e ∈ readyReads (s.man.without prereq), e ∈ s.man.readreq :=
    fun e he => (mem_debufferTs.1.mp he).1
  have hlog : ∀ e ∈ (withoutPrewrite t prereq s).log,
      (∃ r ∈ readyReads (s.man.without prereq), e = .read r.txn s.man.row) ∨ e ∈ s.log :=
    fun e he => (mem_append.mp he).imp_left fun he => mem_readEvents.mp (mem_reverse.mp he)
  refine
    { hqueue with
      above := fun e he =>
        above e (mem_debufferTs.2.mp he).1, newest := ?_, writers := ?_, readers := ?_
      sound := ?_ }
  · show Newest (writes ts.get ((readEvents s.man.row _).reverse ++ s.log)) v₀ _ _ _
    rw [writes_readEvents]
    exact newest
  · intro u v he
    rcases hlog _ he with ⟨r, _, heq⟩ | he
    · cases heq
    · exact serveAll_finished (writers u v he) _
  · intro u v he
    rcases hlog _ he with ⟨r, hr, heq⟩ | he
    · cases heq
      exact (hq.reads r (hready r hr)).1 ▸ le_foldMax hr
    · exact (readers u v he).trans init_le_foldMax
  · refine Sound.readEvents newest sound _ fun e he => ?_
    rw [← (hq.reads e (hready e he)).1]
    exact above e (hready e he)

section

variable (h : Inv ts.get v₀ s)

include h

omit [DecidableEq T] in
/-- A transaction that is not through with the row reads above every write. -/
theorem Inv.wts_lt (ht : s.phase t ≠ .finished) (hle : s.man.wts ≤ ts.get t) :
    s.man.wts < ts.get t := by
  rcases h.newest with ⟨hw, _, _⟩ | ⟨hmem, _, _⟩
  · rw [hw]
    exact ts.pos t
  · obtain ⟨u, hu, hts⟩ := mem_writes.mp hmem
    refine lt_of_le_of_ne hle fun heq => ht ?_
    have hut : u = t := ts.injective (hts.trans heq)
    exact hut ▸ h.writers u _ hu

/-- Writers stay through with the row when a transaction goes on that is not. -/
theorem Inv.writers_update {p : Phase V} (hfin : s.phase t = .finished → p = .finished) (u : T)
    (v : V) (hu : .write u v ∈ s.log) : update s.phase t p u = .finished := by
  by_cases hut : u = t
  · subst hut
    rw [update_self]
    exact hfin (h.writers u v hu)
  · rw [update_of_ne hut]
    exact h.writers u v hu

omit [DecidableEq T] in
/-- The write of a transaction that has the first prewrite, and that is through with the row. -/
theorem Inv.applyWrite (ht : (s.phase t).Owns) (v : V) :
    (∀ e ∈ s.man.readreq, ts.get t < e.ts) ∧
      Newest (writes ts.get (.write t v :: s.log)) v₀ (UINT64_MAX + 1) (ts.get t) v ∧
      Sound ts.get v₀ (.write t v :: s.log) := by
  have hmin := (h.owner t ht).1
  have hmax := ts.le_max t
  have hwts := h.wts
  refine ⟨fun e he => hmin ▸ (h.reads e he).2, h.newest.cons_new (by omega) (by omega), ?_, h.sound⟩
  intro u v' he
  rw [hmin]
  exact (h.readers u v' he).trans h.rts

/-- **Each effect of an access keeps the data right**: what is read is the newest write below, and
what is written is above all reads so far. -/
theorem Inv.effect (heff : Effect ts.get s t s') : Inv ts.get v₀ s' := by
  have hqueue := h.toQueueInv.effect ts.injective heff
  cases heff with
  | finish => exact ⟨hqueue, h.above, h.newest, h.writers_update fun _ => rfl, h.readers, h.sound⟩
  | prewrite idle hr hw =>
    have hwriters := h.writers_update (p := .prewritten) fun hf =>
      absurd (idle.symm.trans hf) nofun
    exact ⟨hqueue, h.above, h.newest, hwriters, h.readers, h.sound⟩
  | @wait type open_ hpre hw hp =>
    have hwriters := h.writers_update (p := .waiting type) (absurd · open_)
    refine ⟨hqueue, fun e he => ?_, h.newest, hwriters, h.readers, h.sound⟩
    rcases mem_cons.mp he with rfl | he
    · exact h.wts_lt open_ hw
    · exact h.above e he
  | grant open_ hpre hw hp =>
    have hmax := ts.le_max t
    have hread : Newest (writes ts.get s.log) v₀ (ts.get t) s.man.wts s.man.row :=
      h.newest.lower (h.wts_lt open_ hw) (by omega)
    refine ⟨hqueue, h.above, h.newest, fun u v he => ?_, fun u v he => ?_, ⟨⟨_, hread⟩, h.sound⟩⟩
    · exact h.writers_update (absurd · open_) u v ((mem_cons.mp he).resolve_left nofun)
    · rcases mem_cons.mp he with heq | he
      · cases heq
        exact rts_le_raised ..
      · have := h.readers u v he
        dsimp only
        split <;> omega
  | @resume type v ready =>
    have hwriters := h.writers_update (p := .granted type v) fun hf =>
      absurd (ready.symm.trans hf) nofun
    exact ⟨hqueue, h.above, h.newest, hwriters, h.readers, h.sound⟩
  | withdraw owns found =>
    exact Inv.serveReads h.toQueueInv hqueue h.above h.newest
      (h.writers_update fun _ => rfl) h.readers h.sound
  | write owns v found =>
    obtain ⟨habove, hnewest, hsound⟩ := h.applyWrite owns v
    refine Inv.serveReads (h.toQueueInv.applyWrite owns v) hqueue habove hnewest ?_ ?_ hsound
    · intro u v' he
      rcases mem_cons.mp he with heq | he
      · cases heq
        exact update_self ..
      · exact h.writers_update (fun _ => rfl) u v' he
    · exact fun u v' he => h.readers u v' ((mem_cons.mp he).resolve_left nofun)

end

theorem reachable_inv (ts : Timestamps T) (v₀ : V) {s : State T V (Man T V)}
    (hs : (machine (manager ts.get v₀)).Reachable s) : Inv ts.get v₀ s := by
  refine hs.invariant (inv_init ts.get v₀) fun s a s' h hs => ?_
  obtain ⟨t, heff⟩ := effect_of_step h.toQueueInv hs
  exact h.effect heff

/-! ## Correctness -/

/-- What timestamp ordering is for. -/
structure Ordered (ts : T → ℕ) (v₀ : V) (s : State T V (Man T V)) : Prop where
  /-- what transactions got was read from the row -/
  logged : Logged s
  /-- a read saw the newest write below it, and no write came in between later -/
  reads : ∀ later t v earlier, s.log = later ++ .read t v :: earlier →
    ∃ w, Newest (writes ts earlier) v₀ (ts t) w v ∧
      ∀ p ∈ writes ts later, ¬ (w < p.1 ∧ p.1 < ts t)
  /-- the row holds the write with timestamp `wts`, which is the newest -/
  current : Newest (writes ts s.log) v₀ (UINT64_MAX + 1) s.man.wts s.man.row

omit [DecidableEq T] in
theorem Sound.split {ts : T → ℕ} {later earlier : List (Event T V)} {t : T} {v : V}
    (h : Sound ts v₀ (later ++ .read t v :: earlier)) :
    (∃ w, Newest (writes ts earlier) v₀ (ts t) w v) ∧ ∀ p ∈ writes ts later, ts t ≤ p.1 := by
  induction later with
  | nil => exact ⟨h.1, fun _ hp => absurd hp not_mem_nil⟩
  | cons e later ih =>
    cases e with
    | read _ _ => exact ih h.2
    | write u v' =>
      obtain ⟨hnew, hle⟩ := ih h.2
      refine ⟨hnew, fun p hp => ?_⟩
      rcases mem_cons.mp hp with rfl | hp
      · exact h.1 t v (by simp)
      · exact hle p hp

/-- **Timestamp ordering is correct on a row.** Whatever the interleaving of accesses, what a
transaction got was read from the row; a read saw the newest write below its timestamp, and no write
came in between later; and the row holds the newest write of all, whose timestamp is `wts`. -/
theorem timestampOrdering_correct (ts : Timestamps T) (v₀ : V) {s : State T V (Man T V)}
    (hs : (machine (manager ts.get v₀)).Reachable s) : Ordered ts.get v₀ s where
  logged := reachable_logged hs
  reads later t v earlier hlog := by
    obtain ⟨⟨w, hnew⟩, hle⟩ := (hlog ▸ (reachable_inv ts v₀ hs).sound).split
    exact ⟨w, hnew, fun p hp hbetween => hbetween.2.not_ge (hle p hp)⟩
  current := (reachable_inv ts v₀ hs).newest

/-- A writer with timestamp `2`, a read and another writer above it that wait, and a read
below it that does not; the second writer aborts. -/
def waitingRead : List (Action (Fin 4) ℕ ℕ) :=
  [.getRow 1 .WR 0, .readReq 1 0, .getRow 2 .RD 0, .getRow 0 .RD 0, .getRow 3 .WR 0, .readReq 3 0,
    .returnRow 1 .WR 7 0, .resume 2, .resume 3, .returnRow 3 .XP 0 0]

theorem timestampOrdering_correct_waitingRead :
    ∃ s, (machine (manager (numbered 4 (by decide)).get 5)).run waitingRead = some s ∧
      s.log = [.read 3 7, .read 2 7, .write 1 7, .read 0 5, .read 1 5] ∧
      Ordered (numbered 4 (by decide)).get 5 s := by
  obtain ⟨s, hs, hlog⟩ : ∃ s, (machine (manager (numbered 4 (by decide)).get 5)).run waitingRead =
      some s ∧ s.log = [.read 3 7, .read 2 7, .write 1 7, .read 0 5, .read 1 5] := ⟨_, rfl, rfl⟩
  exact ⟨s, hs, hlog, timestampOrdering_correct _ 5 (.of_run hs)⟩

end

end RowTs

end Deneva
