import Deneva.Transition
import Deneva.Types
import Deneva.Version

/-!
# Rows under timestamp-based algorithms (`storage/row.cpp`)

What `row_t::get_row`, `get_row_post_wait` and `return_row` do with the manager of a
row under `TIMESTAMP` and `MVCC`. Every call of the manager's `access` is one step,
since `access` holds the row's latch: a `WR` access is a prewrite (`P_REQ`), then a
read (`R_REQ`), and at the end a write (`W_REQ`) or its withdrawal (`XP_REQ`).

The manager is a parameter (`Manager`); what `Row_ts` and `Row_mvcc` do alike with
their queues is here as well. A ghost `log` records the reads that were
granted and the writes that were applied, latest first. A transaction uses the row
at most once.
-/

namespace Deneva

universe u v w x

open Function List Option

namespace TimestampRow

/-- The timestamps of the transactions: distinct, positive, and of 64 bits. -/
structure Timestamps (T : Type u) where
  /-- `get_timestamp` -/
  get : T → ℕ
  /-- no two transactions have the same -/
  injective : Injective get
  /-- `0` is the initial value of the marks -/
  pos : ∀ t, 0 < get t
  /-- `UINT64_MAX` is the minimum of an empty queue -/
  le_max : ∀ t, get t ≤ UINT64_MAX

/-- The timestamps `1, 2, …` of numbered transactions. -/
def numbered (n : ℕ) (h : n ≤ UINT64_MAX) : Timestamps (Fin n) where
  get t := t + 1
  injective _ _ heq := Fin.ext (Nat.succ.inj heq)
  pos _ := Nat.succ_pos _
  le_max t := (Nat.succ_le_of_lt t.isLt).trans h

/-- What happened to the row. -/
inductive Event (T : Type u) (V : Type v) : Type (max u v) where
  /-- the row, as it is, was copied for a transaction -/
  | read (t : T) (v : V)
  /-- the write of a transaction was applied -/
  | write (t : T) (v : V)
  deriving DecidableEq

/-- How far a transaction is with the row. -/
inductive Phase (V : Type v) : Type v where
  /-- it has not come -/
  | idle
  /-- its `P_REQ` was accepted, its `R_REQ` is to follow -/
  | prewritten
  /-- `get_row` answered `WAIT` -/
  | waiting (type : AccessT)
  /-- `ts_ready` is set and the row is copied, but the transaction has not resumed -/
  | ready (type : AccessT) (v : V)
  /-- `get_row` returned the row -/
  | granted (type : AccessT) (v : V)
  /-- the row is returned, or the transaction was refused -/
  | finished

/-- The transaction has a prewrite among the prewrites of the row. -/
def Phase.HasPrewrite {V : Type v} : Phase V → Prop
  | .prewritten | .waiting .WR | .ready .WR _ | .granted .WR _ => True
  | _ => False

/-- The transaction has read the row and is to write it. -/
def Phase.Owns {V : Type v} : Phase V → Prop
  | .ready .WR _ | .granted .WR _ => True
  | _ => False

/-- The transaction has a request buffered or still to come. -/
def Phase.Pending {V : Type v} : Phase V → Prop
  | .waiting _ => True
  | p => p.HasPrewrite

variable {V : Type v} {p : Phase V}

theorem Phase.HasPrewrite.pending (h : p.HasPrewrite) : p.Pending := by
  cases p with
  | waiting _ => trivial
  | _ => exact h

variable {type : AccessT}

theorem Phase.hasPrewrite_waiting : (Phase.waiting type : Phase V).HasPrewrite ↔ type = .WR := by
  cases type <;> simp [HasPrewrite]

variable {v : V}

theorem Phase.hasPrewrite_ready : (Phase.ready type v).HasPrewrite ↔ type = .WR := by
  cases type <;> simp [HasPrewrite]

theorem Phase.hasPrewrite_granted : (Phase.granted type v).HasPrewrite ↔ type = .WR := by
  cases type <;> simp [HasPrewrite]

theorem Phase.owns_granted : (Phase.granted type v).Owns ↔ type = .WR := by
  cases type <;> simp [Owns]

instance Phase.decidableHasPrewrite {V : Type v} : ∀ p : Phase V, Decidable p.HasPrewrite
  | .idle | .finished => isFalse id
  | .prewritten => isTrue trivial
  | .waiting _ => decidable_of_iff _ hasPrewrite_waiting.symm
  | .ready _ _ => decidable_of_iff _ hasPrewrite_ready.symm
  | .granted _ _ => decidable_of_iff _ hasPrewrite_granted.symm

instance Phase.decidablePending {V : Type v} : ∀ p : Phase V, Decidable p.Pending
  | .idle | .finished => isFalse id
  | .prewritten | .waiting _ => isTrue trivial
  | .ready type v => decidableHasPrewrite (.ready type v)
  | .granted type v => decidableHasPrewrite (.granted type v)

theorem Phase.Owns.hasPrewrite (h : p.Owns) : p.HasPrewrite := by
  unfold Phase.Owns at h
  split at h
  · trivial
  · trivial
  · exact h.elim

/-- The manager of a row: `access`, with the events it causes in the order in which they
happen, and inputs `I` that come from elsewhere. It has no result where an assertion
fails. -/
structure Manager (T : Type u) (V : Type v) (I : Type w) (M : Type x) where
  /-- the manager of a fresh row -/
  init : M
  access : I → T → TsType → Option V → M → Option (RC × M × List (Event T V))

/-- The row and the transactions that use it. -/
structure State (T : Type u) (V : Type v) (M : Type x) where
  /-- the manager -/
  man : M
  /-- the transactions -/
  phase : T → Phase V
  /-- what happened, latest first -/
  log : List (Event T V)

/-- A step. -/
inductive Action (T : Type u) (V : Type v) (I : Type w) : Type (max u v w) where
  /-- `get_row` starts -/
  | getRow (t : T) (type : AccessT) (i : I)
  /-- `get_row` of a `WR` access goes on with its `R_REQ` -/
  | readReq (t : T) (i : I)
  /-- `get_row_post_wait` -/
  | resume (t : T)
  /-- `return_row`, with the value written -/
  | returnRow (t : T) (type : AccessT) (v : V) (i : I)

variable {T : Type u} {V : Type v} {I : Type w} {M : Type x} [DecidableEq T]

/-- A buffered read is served: the transaction gets its copy and `ts_ready`. -/
def serve (phase : T → Phase V) : Event T V → T → Phase V
  | .read t v =>
    match phase t with
    | .waiting type => update phase t (.ready type v)
    | _ => phase
  | .write _ _ => phase

/-- The buffered reads among some events are served. -/
def serveAll (phase : T → Phase V) (es : List (Event T V)) : T → Phase V := es.foldl serve phase

/-- A read that was granted at once is returned at once. -/
def take (phase : T → Phase V) (t : T) : T → Phase V :=
  match phase t with
  | .ready type v => update phase t (.granted type v)
  | _ => phase

/-- The `P_REQ` of a `WR` access. -/
def prewrite (A : Manager T V I M) (i : I) (t : T) (s : State T V M) : Option (State T V M) :=
  (A.access i t .P_REQ none s.man).map fun (rc, m, es) =>
    { man := m
      phase := update (serveAll s.phase es) t (if rc = .RCOK then .prewritten else .finished)
      log := es.reverse ++ s.log }

/-- An `R_REQ`. -/
def request (A : Manager T V I M) (i : I) (t : T) (type : AccessT) (s : State T V M) :
    Option (State T V M) :=
  (A.access i t .R_REQ none s.man).map fun (rc, m, es) =>
    { man := m
      phase :=
        match rc with
        | .RCOK => take (serveAll (update s.phase t (.waiting type)) es) t
        | .WAIT => serveAll (update s.phase t (.waiting type)) es
        | _ => update (serveAll s.phase es) t .finished
      log := es.reverse ++ s.log }

/-- A `W_REQ` or `XP_REQ`; the code asserts that a write is accepted. -/
def giveBack (A : Manager T V I M) (i : I) (t : T) (req : TsType) (v : Option V) (s : State T V M) :
    Option (State T V M) :=
  (A.access i t req v s.man).bind fun (rc, m, es) =>
    if req = .W_REQ ∧ rc ≠ .RCOK then none
    else some
      { man := m
        phase := update (serveAll s.phase es) t .finished
        log := es.reverse ++ s.log }

/-- All uses of a row. -/
def machine (A : Manager T V I M) : Machine (State T V M) (Action T V I) where
  init := ⟨A.init, fun _ => .idle, []⟩
  step s a :=
    match a with
    | .getRow t type i =>
      match s.phase t, type with
      | .idle, .WR => prewrite A i t s
      | .idle, .RD => request A i t .RD s
      | .idle, .SCAN => request A i t .SCAN s
      | _, _ => none
    | .readReq t i =>
      match s.phase t with
      | .prewritten => request A i t .WR s
      | _ => none
    | .resume t =>
      match s.phase t with
      | .ready type v => some { s with phase := update s.phase t (.granted type v) }
      | _ => none
    | .returnRow t type v i =>
      match s.phase t, type with
      | .granted .RD _, .RD => some { s with phase := update s.phase t .finished }
      | .granted .SCAN _, .SCAN => some { s with phase := update s.phase t .finished }
      | .granted .WR _, .WR => giveBack A i t .W_REQ (some v) s
      | .granted .WR _, .XP => giveBack A i t .XP_REQ none s
      | _, _ => none

/-- The writes of a log, with their timestamps. -/
def writes (ts : T → ℕ) (log : List (Event T V)) : List (ℕ × V) :=
  log.filterMap fun
    | .write t v => some (ts t, v)
    | .read _ _ => none

/-! ## Queues of requests -/

section

variable {E : Type w} {txn : E → T} {ts : E → ℕ} {queue : List E}

/-- `debuffer_req` by timestamp: the entries taken out, in the order of the list that is
returned, and those that stay. -/
def debufferTs (ts : E → ℕ) (queue : List E) (b : ℕ) : List E × List E :=
  ((queue.filter fun e => decide (ts e ≤ b)).reverse, queue.filter fun e => !decide (ts e ≤ b))

/-- `debuffer_req` by transaction; it has to find an entry. -/
def debufferTxn (txn : E → T) (t : T) : List E → Option (List E)
  | [] => none
  | e :: queue => if txn e = t then some queue else (debufferTxn txn t queue).map (e :: ·)

theorem mem_debufferTs {b : ℕ} {e : E} : (e ∈ (debufferTs ts queue b).1 ↔ e ∈ queue ∧ ts e ≤ b) ∧
      (e ∈ (debufferTs ts queue b).2 ↔ e ∈ queue ∧ b < ts e) := by
  simp [debufferTs]

/-- No entry is ready: all stay. -/
theorem debufferTs_of_lt {b : ℕ} (h : ∀ e ∈ queue, b < ts e) :
    debufferTs ts queue b = ([], queue) := by
  have hnil : queue.filter (fun e => decide (ts e ≤ b)) = [] :=
    List.filter_eq_nil_iff.mpr fun e he => by simpa using h e he
  have hall : queue.filter (fun e => !decide (ts e ≤ b)) = queue :=
    List.filter_eq_self.mpr fun e he => by simpa using h e he
  simp [debufferTs, hnil, hall]

/-- The entry of a transaction that has one is found, and those of others stay. -/
theorem debufferTxn_spec {t : T} (h : ∃ e ∈ queue, txn e = t) :
    ∃ queue', debufferTxn txn t queue = some queue' ∧ (∀ e ∈ queue', e ∈ queue) ∧
      ∀ e ∈ queue, txn e ≠ t → e ∈ queue' := by
  induction queue with
  | nil =>
    obtain ⟨e, he, _⟩ := h
    cases he
  | cons x queue ih =>
    by_cases hx : txn x = t
    · refine ⟨queue, by simp [debufferTxn, hx], fun e he => mem_cons_of_mem _ he,
        fun e he hne => ?_⟩
      rcases mem_cons.mp he with rfl | he
      · exact absurd hx hne
      · exact he
    · obtain ⟨e, he, het⟩ := h
      have he' : e ∈ queue := (mem_cons.mp he).resolve_left fun heq => hx (heq ▸ het)
      obtain ⟨queue', heq, hsub, hrest⟩ := ih ⟨e, he', het⟩
      refine ⟨x :: queue', by simp [debufferTxn, hx, heq], fun e he => ?_, fun e he hne => ?_⟩
      · exact (mem_cons.mp he).elim (fun h => h ▸ mem_cons_self)
          fun h => mem_cons_of_mem _ (hsub e h)
      · exact (mem_cons.mp he).elim (fun h => h ▸ mem_cons_self)
          fun h => mem_cons_of_mem _ (hrest e h hne)

theorem length_debufferTxn {t : T} {queue' : List E} (h : debufferTxn txn t queue = some queue') :
    queue'.length + 1 = queue.length := by
  induction queue generalizing queue' with
  | nil => cases h
  | cons x queue ih =>
    rw [debufferTxn] at h
    split at h
    · rw [← some.inj h, length_cons]
    · obtain ⟨rest, hrest, rfl⟩ := map_eq_some_iff.mp h
      rw [length_cons, length_cons, ih hrest]

end

/-! ## Served reads -/

theorem serve_cases (phase : T → Phase V) (e : Event T V) (t : T) :
    serve phase e t = phase t ∨
      ∃ type v, phase t = .waiting type ∧ e = .read t v ∧ serve phase e t = .ready type v := by
  cases e with
  | write _ _ => exact .inl rfl
  | read u v =>
    cases hu : phase u with
    | waiting type =>
      simp only [serve, hu]
      by_cases ht : t = u
      · subst ht
        exact .inr ⟨type, v, hu, rfl, update_self _ _ _⟩
      · exact .inl (update_of_ne ht _ _)
    | _ => exact .inl (by simp only [serve, hu])

/-- A transaction is left as it is, unless it waits and its read is among the events. -/
theorem serveAll_cases (phase : T → Phase V) (es : List (Event T V)) (t : T) :
    serveAll phase es t = phase t ∨
      ∃ type v, phase t = .waiting type ∧ .read t v ∈ es ∧ serveAll phase es t = .ready type v := by
  induction es generalizing phase with
  | nil => exact .inl rfl
  | cons e es ih =>
    have hcons : serveAll phase (e :: es) = serveAll (serve phase e) es := rfl
    rw [hcons]
    rcases serve_cases phase e t with hsame | ⟨type, v, hwait, rfl, hready⟩
    · rcases ih (serve phase e) with h | ⟨type, v, hwait, hmem, h⟩
      · exact .inl (h.trans hsame)
      · exact .inr ⟨type, v, hsame ▸ hwait, mem_cons_of_mem _ hmem, h⟩
    · refine .inr ⟨type, v, hwait, mem_cons_self, ?_⟩
      rcases ih (serve phase (.read t v)) with h | ⟨type', _, hwait', _⟩
      · exact h.trans hready
      · rw [hready] at hwait'
        cases hwait'

variable {phase : T → Phase V} {t : T}

theorem serveAll_eq (h : ∀ type, phase t ≠ .waiting type)
    (es : List (Event T V)) : serveAll phase es t = phase t :=
  (serveAll_cases phase es t).resolve_right fun ⟨type, _, hwait, _⟩ => h type hwait

theorem serve_congr {phase' : T → Phase V} (h : phase t = phase' t) (e : Event T V) :
    serve phase e t = serve phase' e t := by
  cases e with
  | write _ _ => exact h
  | read u v =>
    by_cases htu : t = u
    · subst htu
      simp only [serve, h]
      cases phase' t with
      | waiting type => simp only [update_self]
      | _ => exact h
    · have hkeep : ∀ p : T → Phase V, serve p (.read u v) t = p t := by
        refine fun p => (serve_cases p (.read u v) t).resolve_right ?_
        rintro ⟨_, _, _, heq, _⟩
        cases heq
        exact htu rfl
      rw [hkeep, hkeep, h]

/-- How a transaction is served depends on that transaction only. -/
theorem serveAll_congr {phase' : T → Phase V} (h : phase t = phase' t)
    (es : List (Event T V)) : serveAll phase es t = serveAll phase' es t := by
  induction es generalizing phase phase' with
  | nil => exact h
  | cons e es ih => exact ih (serve_congr h e)

/-- A transaction that does not wait can be set before or after. -/
theorem update_serveAll (phase : T → Phase V) (es : List (Event T V)) (t : T) {p : Phase V}
    (hp : ∀ type, p ≠ .waiting type) :
    update (serveAll phase es) t p = serveAll (update phase t p) es := by
  funext u
  by_cases hu : u = t
  · subst hu
    rw [update_self, serveAll_eq (by simpa using hp), update_self]
  · rw [update_of_ne hu]
    exact serveAll_congr (update_of_ne hu ..).symm es

/-- A read that is granted at once. -/
theorem take_serveAll (phase : T → Phase V) (t : T) (type : AccessT) (v : V) :
    take (serveAll (update phase t (.waiting type)) [.read t v]) t =
      update phase t (.granted type v) := by
  simp [serveAll, serve, take]

/-- Serving reads gives nobody a prewrite. -/
theorem serveAll_hasPrewrite {es : List (Event T V)}
    (h : (serveAll phase es t).HasPrewrite) : (phase t).HasPrewrite := by
  rcases serveAll_cases phase es t with heq | ⟨type, v, hwait, _, heq⟩
  · rwa [heq] at h
  · rw [heq] at h
    rw [hwait]
    cases type <;> exact h

theorem serveAll_finished (h : phase t = .finished)
    (es : List (Event T V)) : serveAll phase es t = .finished := by
  rw [serveAll_eq (by simp [h]), h]

omit [DecidableEq T] in
theorem mem_writes {ts : T → ℕ} {log : List (Event T V)} {p : ℕ × V} :
    p ∈ writes ts log ↔ ∃ t, .write t p.2 ∈ log ∧ ts t = p.1 := by
  simp only [writes, mem_filterMap]
  constructor
  · rintro ⟨e, he, hp⟩
    cases e with
    | read _ _ => cases hp
    | write t v =>
      cases hp
      exact ⟨t, he, rfl⟩
  · rintro ⟨t, he, hp⟩
    exact ⟨_, he, congrArg some (Prod.ext hp rfl)⟩

omit [DecidableEq T] in
theorem writes_append (ts : T → ℕ) (log log' : List (Event T V)) :
    writes ts (log ++ log') = writes ts log ++ writes ts log' := filterMap_append

/-! ## Steps -/

/-- Everything a step can be. -/
inductive StepCases (A : Manager T V I M) (s s' : State T V M) : Action T V I → Prop where
  | prewrite {t : T} {i : I} (idle : s.phase t = .idle) (h : prewrite A i t s = some s') :
      StepCases A s s' (.getRow t .WR i)
  | read {t : T} {type : AccessT} {i : I} (idle : s.phase t = .idle) (ne : type ≠ .WR)
      (h : request A i t type s = some s') : StepCases A s s' (.getRow t type i)
  | readWrite {t : T} {i : I} (prewritten : s.phase t = .prewritten)
      (h : request A i t .WR s = some s') : StepCases A s s' (.readReq t i)
  | resume {t : T} {type : AccessT} {v : V} (ready : s.phase t = .ready type v)
      (h : s' = { s with phase := update s.phase t (.granted type v) }) :
      StepCases A s s' (.resume t)
  | release {t : T} {type : AccessT} {v v' : V} {i : I} (granted : s.phase t = .granted type v)
      (ne : type ≠ .WR) (h : s' = { s with phase := update s.phase t .finished }) :
      StepCases A s s' (.returnRow t type v' i)
  | write {t : T} {v v' : V} {i : I} (granted : s.phase t = .granted .WR v)
      (h : giveBack A i t .W_REQ (some v') s = some s') : StepCases A s s' (.returnRow t .WR v' i)
  | withdraw {t : T} {v v' : V} {i : I} (granted : s.phase t = .granted .WR v)
      (h : giveBack A i t .XP_REQ none s = some s') : StepCases A s s' (.returnRow t .XP v' i)

variable {A : Manager T V I M} {s : State T V M}

theorem step_cases {s' : State T V M} {a : Action T V I}
    (h : (machine A).step s a = some s') : StepCases A s s' a := by
  cases a with
  | getRow t type i =>
    simp only [machine] at h
    split at h
    · exact .prewrite ‹_› h
    · exact .read ‹_› (by decide) h
    · exact .read ‹_› (by decide) h
    · cases h
  | readReq t i =>
    simp only [machine] at h
    split at h
    · exact .readWrite ‹_› h
    · cases h
  | resume t =>
    simp only [machine] at h
    split at h
    · exact .resume ‹_› (some.inj h).symm
    · cases h
  | returnRow t type v i =>
    simp only [machine] at h
    split at h
    · exact .release ‹_› (by decide) (some.inj h).symm
    · exact .release ‹_› (by decide) (some.inj h).symm
    · exact .write ‹_› h
    · exact .withdraw ‹_› h
    · cases h

/-! ## Granted reads are logged -/

/-- Who has got the row, or is about to, has a read in the log. -/
def Logged (s : State T V M) : Prop :=
  ∀ t type v, s.phase t = .ready type v ∨ s.phase t = .granted type v → .read t v ∈ s.log

theorem take_cases (phase : T → Phase V) (t u : T) :
    take phase t u = phase u ∨
      ∃ type v, phase u = .ready type v ∧ take phase t u = .granted type v := by
  cases ht : phase t with
  | ready type v =>
    simp only [take, ht]
    by_cases hu : u = t
    · subst hu
      exact .inr ⟨type, v, ht, update_self _ _ _⟩
    · exact .inl (update_of_ne hu _ _)
  | _ => exact .inl (by simp only [take, ht])

/-- Served reads are those of the events. -/
theorem Logged.serveAll (h : Logged s) (es : List (Event T V)) (m : M) :
    Logged { man := m, phase := serveAll s.phase es, log := es.reverse ++ s.log } := by
  intro t type v hp
  rcases serveAll_cases s.phase es t with hsame | ⟨type', v', _, hmem, hready⟩
  · dsimp only at hp
    rw [hsame] at hp
    exact mem_append_right _ (h t type v hp)
  · dsimp only at hp
    rw [hready] at hp
    rcases hp with hp | hp
    · cases hp
      exact mem_append_left _ (mem_reverse.mpr hmem)
    · cases hp

theorem Logged.take (h : Logged s) (t : T) : Logged { s with phase := take s.phase t } := by
  intro u type v hp
  rcases take_cases s.phase t u with hsame | ⟨type', v', hready, htake⟩
  · dsimp only at hp
    rw [hsame] at hp
    exact h u type v hp
  · dsimp only at hp
    rw [htake] at hp
    rcases hp with hp | hp
    · cases hp
    · cases hp
      exact h u type v (.inl hready)

theorem Logged.update {s : State T V M} (h : Logged s) {t : T} {p : Phase V}
    (hp : ∀ type v, p = .ready type v ∨ p = .granted type v → .read t v ∈ s.log) :
    Logged { s with phase := update s.phase t p } :=
  (forall_update_iff s.phase fun u p => ∀ type v,
    p = .ready type v ∨ p = .granted type v → Event.read u v ∈ s.log).mpr ⟨hp, fun u _ => h u⟩

/-- What a transaction has got is logged, along every step. -/
theorem logged_step {s' : State T V M} {a : Action T V I} (h : Logged s)
    (hs : (machine A).step s a = some s') : Logged s' := by
  have hrequest : ∀ {i t type}, request A i t type s = some s' → Logged s' := by
    intro i t type hs
    obtain ⟨⟨rc, m, es⟩, _, rfl⟩ := map_eq_some_iff.mp hs
    have hwait := h.update (t := t) (p := .waiting type) (by simp)
    cases rc with
    | RCOK => exact (hwait.serveAll es m).take t
    | WAIT => exact hwait.serveAll es m
    | _ => exact (h.serveAll es m).update (by simp)
  have hgiveBack : ∀ {i t req v}, giveBack A i t req v s = some s' → Logged s' := by
    intro i t req v hs
    obtain ⟨⟨rc, m, es⟩, _, hs⟩ := bind_eq_some_iff.mp hs
    obtain ⟨_, hs⟩ := ite_none_left_eq_some.mp hs
    cases hs
    exact (h.serveAll es m).update (by simp)
  have hcases := step_cases hs
  clear hs
  cases hcases with
  | prewrite _ hs =>
    obtain ⟨⟨rc, m, es⟩, _, rfl⟩ := map_eq_some_iff.mp hs
    refine (h.serveAll es m).update ?_
    split <;> simp
  | read _ _ hs | readWrite _ hs => exact hrequest hs
  | @resume t type v ready hs =>
    subst hs
    refine h.update fun type' v' hp => ?_
    rcases hp with hp | hp
    · cases hp
    · cases hp
      exact h t type v (.inl ready)
  | release _ _ hs => exact hs ▸ h.update (by simp)
  | write _ hs | withdraw _ hs => exact hgiveBack hs

theorem reachable_logged (hs : (machine A).Reachable s) : Logged s :=
  hs.invariant (fun _ _ _ hp => by rcases hp with hp | hp <;> cases hp)
    fun _ _ _ h hs => logged_step h hs

end TimestampRow

end Deneva
