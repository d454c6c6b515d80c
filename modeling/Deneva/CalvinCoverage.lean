import Deneva.Ycsb
import Deneva.TpccData
import Deneva.PpsData

/-!
# What Calvin locks and what it accesses (`acquire_locks`, `run_calvin_txn`)

Under Calvin the scheduler requests all locks of a transaction before a worker runs it, and
`get_row` only hands out the row. Each workload writes its traversal twice: `acquire_locks` for the
locks, and the second and the fifth phase of `run_calvin_txn` for the accesses.
`TxnManager::get_lock` asks for a row once, in the mode of the first call.

* `requested` is what a sequence of calls of `get_lock` has asked for, `events` what a sequence of
  `get_row` and `set_value` calls has accessed and changed; `set_value` goes to the row that
  `get_row` has returned last.
* `get_row` accesses the row and then calls the framework, for reads and writes. Whether these calls
  come back is a parameter: where they do not, the first one is the last thing that happens. Under
  Calvin they never do (`FrameworkCalvin.unknown_of_reachable`).

Rows that a transaction inserts are new and not among those it accesses.
-/

namespace Deneva

open List hiding modify

namespace CalvinCoverage

open Protocol (Cluster)

/-! ## Accesses -/

/-- What a phase does with rows. -/
inductive Op (R : Type) : Type where
  /-- `get_row`, for the member `row` of the manager -/
  | getRow (r : R) (type : AccessT)
  /-- `set_value` on that row -/
  | setValue
  deriving DecidableEq

/-- What happens to a row. -/
inductive Event (R : Type) : Type where
  /-- it is accessed -/
  | access (r : R) (type : AccessT)
  /-- it is changed -/
  | modify (r : R)
  deriving DecidableEq

section Trace

variable {R : Type}

/-- `TxnManager::get_row` calls the framework for reads and writes. -/
def asksFramework : AccessT → Bool
  | .RD | .WR => true
  | .XP | .SCAN => false

/-- What happens, from a value of `row` on; `NULL` fails the assertion before a change. `back` says
that the calls of the framework come back. -/
def events (back : Bool) : Option R → List (Op R) → List (Event R)
  | _, [] => []
  | _, .getRow r type :: ops =>
    .access r type :: if asksFramework type && !back then [] else events back (some r) ops
  | some r, .setValue :: ops => .modify r :: events back (some r) ops
  | none, .setValue :: _ => []

variable {ops ops' : List (Op R)} {r : R} {c : Option R} {back : Bool}

variable {type : AccessT}

theorem events_back (c : Option R) (r : R) (type : AccessT) (ops : List (Op R)) :
    events true c (.getRow r type :: ops) = .access r type :: events true (some r) ops := by
  cases c <;> simp [events]

/-- What happens after a `get_row` is among what happens when it has come back. -/
theorem mem_events_getRow {e : Event R} {x : R} (h : e ∈ events back c (.getRow x type :: ops)) :
    e = .access x type ∨ e ∈ events back (some x) ops := by
  rw [events.eq_def] at h
  rcases mem_cons.mp h with h | h
  · exact .inl h
  · split at h
    · cases h
    · exact .inr h

theorem getRow_of_access (h : .access r type ∈ events back c ops) : .getRow r type ∈ ops := by
  induction ops generalizing c with
  | nil => cases c <;> cases h
  | cons op ops ih =>
    rcases op with ⟨x, t⟩ | _
    · rcases mem_events_getRow h with heq | hmem
      · cases heq
        exact mem_cons_self
      · exact mem_cons_of_mem _ (ih hmem)
    · rcases c with _ | x
      · cases h
      · rcases mem_cons.mp h with heq | hmem
        · cases heq
        · exact mem_cons_of_mem _ (ih hmem)

/-- A change in a sequence is one in its first or in its second part. -/
theorem modify_append (h : .modify r ∈ events back c (ops ++ ops')) :
    .modify r ∈ events back c ops ∨ ∃ c', .modify r ∈ events back c' ops' := by
  induction ops generalizing c with
  | nil => exact .inr ⟨c, h⟩
  | cons op ops ih =>
    rcases op with ⟨x, t⟩ | _
    · by_cases hstop : (asksFramework t && !back) = true
      · cases c <;> simp [events, hstop] at h
      · have hrest : .modify r ∈ events back (some x) (ops ++ ops') :=
          (mem_events_getRow h).resolve_left (by simp)
        refine (ih hrest).imp_left fun hmem => ?_
        cases c <;> simp [events, hstop, hmem]
    · rcases c with _ | x
      · cases h
      · rcases mem_cons.mp h with heq | hmem
        · exact .inl (heq ▸ mem_cons_self)
        · exact (ih hmem).imp_left (mem_cons_of_mem _)

theorem modify_flatMap {α : Type} {f : α → List (Op R)} {xs : List α}
    (h : .modify r ∈ events back c (xs.flatMap f)) :
    ∃ x ∈ xs, ∃ c', .modify r ∈ events back c' (f x) := by
  induction xs generalizing c with
  | nil => cases c <;> cases h
  | cons x xs ih =>
    rcases modify_append h with hx | ⟨c', hxs⟩
    · exact ⟨x, mem_cons_self, c, hx⟩
    · obtain ⟨y, hy, hmod⟩ := ih hxs
      exact ⟨y, mem_cons_of_mem _ hy, hmod⟩

/-- A row that is got for a read or a write and changed: the call of the framework came back. -/
theorem modify_pair {x : R} (hasks : asksFramework type = true)
    (h : .modify r ∈ events back c [.getRow x type, .setValue]) : r = x ∧ back = true := by
  cases hback : back with
  | true => cases c <;> simpa [events, hback] using h
  | false => cases c <;> simp [events, hback, hasks] at h

/-- A sequence without `set_value` changes nothing. -/
theorem not_modify_of_reads (h : .setValue ∉ ops) : .modify r ∉ events back c ops := by
  induction ops generalizing c with
  | nil => cases c <;> exact not_mem_nil
  | cons op ops ih =>
    rcases op with ⟨x, t⟩ | _
    · intro hmem
      exact ih (fun hset => h (mem_cons_of_mem _ hset))
        ((mem_events_getRow hmem).resolve_left (by simp))
    · exact absurd mem_cons_self h

end Trace

/-! ## Locks -/

section Locks

variable {R : Type} [DecidableEq R]

/-- The mode that `row_t::get_lock` asks for. -/
def lockMode : AccessT → LockT
  | .RD | .SCAN => .SH
  | .WR | .XP => .EX

/-- `TxnManager::get_lock`, on `calvin_locked_rows` with the mode of each. -/
def getLock (locked : List (R × LockT)) (call : R × AccessT) : List (R × LockT) :=
  if call.1 ∈ locked.map Prod.fst then locked else locked ++ [(call.1, lockMode call.2)]

/-- What the calls of `get_lock` have asked for. -/
def requested (calls : List (R × AccessT)) : List (R × LockT) := calls.foldl getLock []

/-- **The locks cover the accesses**: every row that is accessed was requested, and every row that
is changed in exclusive mode. -/
structure Covered (back : Bool) (calls : List (R × AccessT)) (ops : List (Op R)) : Prop where
  access : ∀ r type, .access r type ∈ events back none ops → ∃ mode, (r, mode) ∈ requested calls
  modify : ∀ r, .modify r ∈ events back none ops → (r, .EX) ∈ requested calls

variable {calls : List (R × AccessT)} {ops : List (Op R)} {r : R} {back : Bool}

variable {locked : List (R × LockT)} {mode : LockT}

theorem mem_getLock {call : R × AccessT} : (r, mode) ∈ getLock locked call ↔
      (r, mode) ∈ locked ∨ (r ∉ locked.map Prod.fst ∧ call.1 = r ∧ lockMode call.2 = mode) := by
  unfold getLock
  split
  next hmem =>
    exact ⟨.inl, fun h => h.elim id fun ⟨hno, heq, _⟩ => absurd (heq ▸ hmem) hno⟩
  next hno =>
    rw [mem_append, mem_singleton, Prod.mk.injEq]
    exact or_congr_right
      ⟨fun ⟨h, hm⟩ => ⟨h ▸ hno, h.symm, hm.symm⟩, fun ⟨_, h, hm⟩ => ⟨h.symm, hm.symm⟩⟩

theorem fst_mem_getLock {call : R × AccessT} :
    r ∈ (getLock locked call).map Prod.fst ↔ r ∈ locked.map Prod.fst ∨ call.1 = r := by
  unfold getLock
  split
  next hmem =>
    exact ⟨.inl, fun h => h.elim id fun heq => heq ▸ hmem⟩
  · simp [eq_comm]

/-- Of the calls for a row that is not locked yet the first one counts. -/
theorem mem_foldl_getLock : (r, mode) ∈ calls.foldl getLock locked ↔ (r, mode) ∈ locked ∨
      (r ∉ locked.map Prod.fst ∧ (calls.find? (·.1 = r)).map (lockMode ·.2) = some mode) := by
  induction calls generalizing locked with
  | nil => simp
  | cons call calls ih =>
    rw [foldl_cons, ih, mem_getLock, fst_mem_getLock, find?_cons]
    by_cases heq : call.1 = r
    · simp only [heq, decide_true, Option.map_some, Option.some.injEq]
      tauto
    · simp only [heq, decide_false]
      tauto

theorem mem_requested : (r, mode) ∈ requested calls ↔
    (calls.find? (·.1 = r)).map (lockMode ·.2) = some mode := by
  rw [requested, mem_foldl_getLock]
  simp

theorem exists_mem_requested (h : (r, type) ∈ calls) : ∃ mode, (r, mode) ∈ requested calls := by
  rcases hfind : calls.find? (·.1 = r) with _ | call
  · exact absurd (find?_eq_none.mp hfind _ h) (by simp)
  · exact ⟨lockMode call.2, mem_requested.mpr (by rw [hfind]; rfl)⟩

theorem call_of_mem_requested (h : (r, mode) ∈ requested calls) :
    ∃ type, (r, type) ∈ calls ∧ lockMode type = mode := by
  obtain ⟨call, hfind, hmode⟩ := Option.map_eq_some_iff.mp (mem_requested.mp h)
  have hr : call.1 = r := by simpa using find?_some hfind
  exact ⟨call.2, hr ▸ mem_of_find?_eq_some hfind, hmode⟩

/-- The rule for coverage: whatever is accessed has a call, and whatever is changed has calls, all
for exclusive mode. -/
theorem Covered.of_calls (haccess : ∀ r type, .getRow r type ∈ ops → ∃ t, (r, t) ∈ calls)
    (hmodify : ∀ r, .modify r ∈ events back none ops →
      (∃ t, (r, t) ∈ calls) ∧ ∀ t, (r, t) ∈ calls → lockMode t = .EX) : Covered back calls ops where
  access r type h := by
    obtain ⟨t, ht⟩ := haccess r type (getRow_of_access h)
    exact exists_mem_requested ht
  modify r h := by
    obtain ⟨⟨t, ht⟩, hall⟩ := hmodify r h
    obtain ⟨mode, hmode⟩ := exists_mem_requested ht
    obtain ⟨t', ht', rfl⟩ := call_of_mem_requested hmode
    exact hall t' ht' ▸ hmode

end Locks

/-! ## YCSB -/

section Ycsb

variable (N : Cluster) (node : ℕ) (requests : List Ycsb.Request)

/-- The requests of a node. -/
def localRequests : List Ycsb.Request := requests.filter (Ycsb.isLocalRequest N node)

/-- The calls of `YCSBTxnManager::acquire_locks`; rows go by their keys. -/
def ycsbCalls : List (ℕ × AccessT) :=
  (localRequests N node requests).map fun req => (req.key, req.acctype)

/-- `active_nodes` of `YCSBQuery::get_participants`. -/
def ycsbActive : Bool := (localRequests N node requests).any (·.acctype = .WR)

/-- `run_ycsb_0` and `run_ycsb_1`. -/
def runRequest (req : Ycsb.Request) : List (Op ℕ) :=
  .getRow req.key req.acctype :: if req.acctype = .RD ∨ req.acctype = .SCAN then [] else [.setValue]

/-- `run_ycsb`, which passes over requests of one kind: in the second phase writes, in the fifth
reads. -/
def runYcsb (skip : AccessT) : List (Op ℕ) :=
  requests.flatMap fun req =>
    if req.acctype = skip then [] else if Ycsb.isLocalRequest N node req then runRequest req else []

/-- `YCSBTxnManager::run_calvin_txn`. -/
def ycsbOps : List (Op ℕ) :=
  runYcsb N node requests .WR ++ if ycsbActive N node requests then
    runYcsb N node requests .RD else []

variable {N node requests}

variable {key : ℕ} {back : Bool}

theorem mem_ycsbCalls : (key, type) ∈ ycsbCalls N node requests ↔
    ∃ req ∈ localRequests N node requests, req.key = key ∧ req.acctype = type := by
  simp [ycsbCalls]

theorem mem_runYcsb {skip : AccessT} {op : Op ℕ} (h : op ∈ runYcsb N node requests skip) :
    ∃ req ∈ localRequests N node requests, op ∈ runRequest req := by
  obtain ⟨req, hreq, hop⟩ := mem_flatMap.mp h
  split at hop
  · cases hop
  · split at hop
    next hloc =>
      exact ⟨req, mem_filter.mpr ⟨hreq, hloc⟩, hop⟩
    · cases hop

/-- A change in `run_ycsb` is made by a write of the node, after the framework has come back. -/
theorem modify_runYcsb (hxp : ∀ req ∈ requests, req.acctype ≠ .XP) {skip : AccessT} {c : Option ℕ}
    (h : .modify key ∈ events back c (runYcsb N node requests skip)) :
    back = true ∧ ∃ req ∈ localRequests N node requests, req.key = key ∧ req.acctype = .WR := by
  obtain ⟨req, hreq, c', hmod⟩ := modify_flatMap h
  split at hmod
  · cases c' <;> cases hmod
  · split at hmod
    next hloc =>
      cases htype : req.acctype with
      | RD | SCAN => cases c' <;> simp [runRequest, htype, events] at hmod
      | XP => exact absurd htype (hxp req hreq)
      | WR =>
        have hpair : runRequest req = [.getRow req.key .WR, .setValue] := by
          simp [runRequest, htype]
        rw [hpair] at hmod
        obtain ⟨rfl, hback⟩ := modify_pair rfl hmod
        exact ⟨hback, req, mem_filter.mpr ⟨hreq, hloc⟩, rfl, htype⟩
    · cases c' <;> cases hmod

theorem events_runRequest (c : Option ℕ) (req : Ycsb.Request) (rest : List (Op ℕ)) :
    events true c (runRequest req ++ rest) = .access req.key req.acctype ::
      ((if req.acctype = .RD ∨ req.acctype = .SCAN then [] else [.modify req.key]) ++
        events true (some req.key) rest) := by
  unfold runRequest
  rw [cons_append, events_back]
  split <;> rfl

/-- What follows `run_ycsb` is done after it. -/
theorem exists_events_runYcsb (N : Cluster) (node : ℕ) (requests : List Ycsb.Request)
    (skip : AccessT) (c : Option ℕ) (rest : List (Op ℕ)) :
    ∃ before c', events true c (runYcsb N node requests skip ++ rest) =
      before ++ events true c' rest := by
  induction requests generalizing c with
  | nil => exact ⟨[], c, rfl⟩
  | cons req requests ih =>
    rw [runYcsb, flatMap_cons, append_assoc]
    split
    · exact ih c
    · split
      · rw [events_runRequest]
        obtain ⟨before, c', h⟩ := ih (some req.key)
        refine ⟨.access req.key req.acctype ::
          ((if req.acctype = .RD ∨ req.acctype = .SCAN then [] else [.modify req.key]) ++ before),
          c', ?_⟩
        rw [cons_append, append_assoc, ← h]
        rfl
      · exact ih c

/-- The fifth phase makes the writes of the node. -/
theorem modify_of_mem {req : Ycsb.Request} (hreq : req ∈ localRequests N node requests)
    (hw : req.acctype = .WR) (c : Option ℕ) :
    .modify req.key ∈ events true c (runYcsb N node requests .RD) := by
  obtain ⟨hmem, hloc⟩ := mem_filter.mp hreq
  obtain ⟨pre, post, rfl⟩ := append_of_mem hmem
  have hsplit : runYcsb N node (pre ++ req :: post) .RD =
      runYcsb N node pre .RD ++ (runRequest req ++ runYcsb N node post .RD) := by
    simp [runYcsb, hw, hloc]
  obtain ⟨before, c', h⟩ := exists_events_runYcsb N node pre .RD c
    (runRequest req ++ runYcsb N node post .RD)
  rw [hsplit, h, events_runRequest]
  simp [hw]

/-- The first request of the node for each row that it writes is a write. -/
def WritesFirst (N : Cluster) (node : ℕ) (requests : List Ycsb.Request) : Prop :=
  ∀ req ∈ localRequests N node requests, req.acctype = .WR →
    ((localRequests N node requests).find? (·.key = req.key)).map (·.acctype) = some .WR

theorem exclusive_iff (hxp : ∀ req ∈ requests, req.acctype ≠ .XP) :
    (key, .EX) ∈ requested (ycsbCalls N node requests) ↔
      ((localRequests N node requests).find? (·.key = key)).map (·.acctype) = some .WR := by
  rw [mem_requested, ycsbCalls, find?_map, Option.map_map]
  change Option.map _ ((localRequests N node requests).find? (·.key = key)) = _ ↔ _
  rcases hfind : (localRequests N node requests).find? (·.key = key) with _ | req
  · rw [hfind]
    simp
  · rw [hfind]
    have hne := hxp req (mem_of_mem_filter (mem_of_find?_eq_some hfind))
    rcases req with ⟨k, type⟩
    cases type with
    | XP => exact absurd rfl hne
    | _ => simp [lockMode]

/-- **YCSB**: the locks cover the accesses unless the framework comes back and a row is first read
and then written. -/
theorem ycsb_covered_iff (hxp : ∀ req ∈ requests, req.acctype ≠ .XP) :
    Covered back (ycsbCalls N node requests) (ycsbOps N node requests) ↔
      (back = true → WritesFirst N node requests) := by
  constructor
  · rintro h rfl req hreq hw
    refine (exclusive_iff hxp).mp (h.modify req.key ?_)
    have hactive : ycsbActive N node requests = true :=
      List.any_eq_true.mpr ⟨req, hreq, by simp [hw]⟩
    obtain ⟨before, c, heq⟩ := exists_events_runYcsb N node requests .WR none
      (runYcsb N node requests .RD)
    rw [ycsbOps, if_pos hactive, heq]
    exact mem_append_right _ (modify_of_mem hreq hw c)
  · intro h
    have hphase : ∀ op ∈ ycsbOps N node requests,
        ∃ req ∈ localRequests N node requests, op ∈ runRequest req := by
      intro op hop
      rcases mem_append.mp hop with h2 | h5
      · exact mem_runYcsb h2
      · split at h5
        · exact mem_runYcsb h5
        · cases h5
    refine ⟨fun key type hacc => ?_, fun key hmod => ?_⟩
    · obtain ⟨req, hreq, hop⟩ := hphase _ (getRow_of_access hacc)
      have hkey : key = req.key := by
        unfold runRequest at hop
        split at hop <;> simp_all
      exact exists_mem_requested (mem_ycsbCalls.mpr ⟨req, hreq, hkey.symm, rfl⟩)
    · obtain ⟨hback, req, hreq, rfl, hw⟩ : back = true ∧ ∃ req ∈ localRequests N node requests,
          req.key = key ∧ req.acctype = .WR := by
        rcases modify_append hmod with h2 | ⟨c, h5⟩
        · exact modify_runYcsb hxp h2
        · split at h5
          · exact modify_runYcsb hxp h5
          · cases c <;> cases h5
      exact (exclusive_iff hxp).mpr (h hback req hreq hw)

end Ycsb

/-! ## TPC-C -/

section Tpcc

open Tpcc (RowRef Scale NodeData Item warehouseRow payment2Row payment4Row newOrder2Row newOrder4Row
  newOrder6Row newOrder8Row)

variable (S : Scale) (node : ℕ) (q : Tpcc.Query) (d : NodeData)

/-- A warehouse is on the node. -/
def whLocal (wId : ℕ) : Bool := Tpcc.nodeOf S.toCluster wId = node

/-- The items that the node supplies. Every node has the whole query, with `ol_cnt` items. -/
def suppliedItems : List Item := q.items.filter fun item => whLocal S node item.supplyWId

/-- The calls of `TPCCTxnManager::acquire_locks`. -/
def tpccCalls : List (RowRef × AccessT) :=
  match q.txnType with
  | .TPCC_PAYMENT =>
    (if whLocal S node q.wId then
      [(warehouseRow q, if S.whUpdate then .WR else .RD), (payment2Row S q, .WR)] else []) ++
    if whLocal S node q.cWId then (payment4Row S q d).toList.map fun r => (r, .WR) else []
  | .TPCC_NEW_ORDER =>
    (if whLocal S node q.wId then
      [(warehouseRow q, .RD), (newOrder2Row S q, .RD), (newOrder4Row S q, .WR)] else []) ++
    (suppliedItems S node q).flatMap fun item =>
      [(newOrder6Row item, .RD), (newOrder8Row S item, .WR)]

/-- `active_nodes` of `TPCCQuery::get_participants`. -/
def tpccActive : Bool :=
  whLocal S node q.wId ||
    match q.txnType with
    | .TPCC_PAYMENT => whLocal S node q.cWId
    | .TPCC_NEW_ORDER => q.items.any fun item => whLocal S node item.supplyWId

/-- `run_payment_0` to `run_payment_3`, at the warehouse. -/
def paymentHome : List (Op RowRef) :=
  (if S.whUpdate then [.getRow (warehouseRow q) .WR, .setValue]
    else [.getRow (warehouseRow q) .RD]) ++ [.getRow (payment2Row S q) .WR, .setValue]

/-- `run_payment_4` and `run_payment_5`, at the customer. -/
def paymentCustomer : List (Op RowRef) :=
  (payment4Row S q d).toList.flatMap fun r => [.getRow r .WR, .setValue]

/-- `new_order_0`, `new_order_2` and `new_order_4`; the functions in between read. -/
def newOrderHome : List (Op RowRef) :=
  [.getRow (warehouseRow q) .RD, .getRow (newOrder2Row S q) .RD, .getRow (newOrder4Row S q) .WR]

/-- `new_order_6` for the items of a node. -/
def newOrderItems : List (Op RowRef) :=
  (suppliedItems S node q).flatMap fun item => [.getRow (newOrder6Row item) .RD]

/-- `new_order_8` and `new_order_9` for the items of a node. -/
def newOrderStocks : List (Op RowRef) :=
  (suppliedItems S node q).flatMap fun item => [.getRow (newOrder8Row S item) .WR, .setValue]

/-- `run_tpcc_phase2`. -/
def tpccPhase2 : List (Op RowRef) :=
  match q.txnType with
  | .TPCC_PAYMENT => []
  | .TPCC_NEW_ORDER =>
    (if whLocal S node q.wId then newOrderHome S q else []) ++ newOrderItems S node q

/-- `run_tpcc_phase5`. `new_order_5` takes the row that is there for the district. With an item of
the node it is a row of `ITEM`, which has five columns: the tenth one is outside of its schema, and
what comes after has no meaning. -/
def tpccPhase5 : List (Op RowRef) :=
  match q.txnType with
  | .TPCC_PAYMENT =>
    (if whLocal S node q.wId then paymentHome S q else []) ++
      if whLocal S node q.cWId then paymentCustomer S q d else []
  | .TPCC_NEW_ORDER =>
    if whLocal S node q.wId then if suppliedItems S node q = [] then [.setValue] else []
    else newOrderStocks S node q

/-- `TPCCTxnManager::run_calvin_txn`. -/
def tpccOps : List (Op RowRef) :=
  tpccPhase2 S node q ++ if tpccActive S node q then tpccPhase5 S node q d else []

variable {S node q d}

variable {R : Type} {r : RowRef} {t type : AccessT} {c : Option RowRef} {back : Bool}

theorem paymentHome_modify (h : .modify r ∈ events back c (paymentHome S q)) :
    (r = warehouseRow q ∧ S.whUpdate = true) ∨ r = payment2Row S q := by
  rcases modify_append h with hwh | ⟨c, hdist⟩
  · by_cases hu : S.whUpdate
    · rw [if_pos hu] at hwh
      exact .inl ⟨(modify_pair rfl hwh).1, hu⟩
    · rw [if_neg hu] at hwh
      exact absurd hwh (not_modify_of_reads (by simp))
  · exact .inr (modify_pair rfl hdist).1

theorem paymentCustomer_modify
    (h : .modify r ∈ events back c (paymentCustomer S q d)) : payment4Row S q d = some r := by
  obtain ⟨x, hx, c', hmod⟩ := modify_flatMap h
  simpa [(modify_pair rfl hmod).1] using hx

/-- A change in a part that is done on a condition. -/
theorem modify_ite {b : Bool} {ops : List (Op R)} {c : Option R} {r : R}
    (h : .modify r ∈ events back c (if b then ops else [])) :
    b = true ∧ .modify r ∈ events back c ops := by
  cases b with
  | true => exact ⟨rfl, h⟩
  | false => cases c <;> cases h

/-- Getting a row in a part that is done on a condition. -/
theorem mem_ite {b : Bool} {ops : List (Op R)} {op : Op R} :
    op ∈ (if b then ops else []) ↔ b = true ∧ op ∈ ops := by
  cases b <;> simp

theorem payment4Row_table (h : payment4Row S q d = some r) : r.table = .CUSTOMER := by
  unfold payment4Row at h
  split at h
  · obtain ⟨key, _, rfl⟩ := Option.map_eq_some_iff.mp h
    rfl
  · exact Option.some.inj h ▸ rfl

theorem paymentHome_getRow (h : .getRow r type ∈ paymentHome S q) :
    r = warehouseRow q ∨ r = payment2Row S q := by
  unfold paymentHome at h
  by_cases hu : S.whUpdate <;> simp [hu] at h <;> tauto

section

variable (htype : q.txnType = .TPCC_PAYMENT)

include htype

theorem payment_calls : (r, t) ∈ tpccCalls S node q d ↔
      (whLocal S node q.wId = true ∧ ((r = warehouseRow q ∧ t = if S.whUpdate then .WR else .RD) ∨
        (r = payment2Row S q ∧ t = .WR))) ∨
      (whLocal S node q.cWId = true ∧ payment4Row S q d = some r ∧ t = .WR) := by
  simp only [tpccCalls, htype]
  by_cases hw : whLocal S node q.wId <;> by_cases hc : whLocal S node q.cWId <;>
    simp [hw, hc, eq_comm (a := t), or_assoc]

theorem tpccOps_payment : tpccOps S node q d =
    if tpccActive S node q then
      (if whLocal S node q.wId then paymentHome S q else []) ++
        if whLocal S node q.cWId then paymentCustomer S q d else []
    else [] := by
  have h2 : tpccPhase2 S node q = [] := by
    rw [tpccPhase2, htype]
  have h5 : tpccPhase5 S node q d = (if whLocal S node q.wId then paymentHome S q else []) ++
      if whLocal S node q.cWId then paymentCustomer S q d else [] := by
    rw [tpccPhase5, htype]
  rw [tpccOps, h2, h5, nil_append]

/-- What a payment changes: the warehouse only if it is told to. -/
theorem payment_modify (h : .modify r ∈ events back none (tpccOps S node q d)) :
    (whLocal S node q.wId = true ∧
      ((r = warehouseRow q ∧ S.whUpdate = true) ∨ r = payment2Row S q)) ∨
      (whLocal S node q.cWId = true ∧ payment4Row S q d = some r) := by
  rw [tpccOps_payment htype] at h
  rcases modify_append (modify_ite h).2 with hhome | ⟨c, hcust⟩
  · obtain ⟨hw, hmod⟩ := modify_ite hhome
    exact .inl ⟨hw, paymentHome_modify hmod⟩
  · obtain ⟨hc, hmod⟩ := modify_ite hcust
    exact .inr ⟨hc, paymentCustomer_modify hmod⟩

/-- **A payment is covered**: it accesses the warehouse, the district and the customer that it has
locked, each at its node. -/
theorem payment_covered : Covered back (tpccCalls S node q d) (tpccOps S node q d) := by
  refine .of_calls (fun r type h => ?_) (fun r h => ?_)
  · simp only [payment_calls htype]
    rw [tpccOps_payment htype] at h
    rcases mem_append.mp (mem_ite.mp h).2 with hhome | hcust
    · obtain ⟨hw, hget⟩ := mem_ite.mp hhome
      rcases paymentHome_getRow hget with rfl | rfl
      · exact ⟨_, .inl ⟨hw, .inl ⟨rfl, rfl⟩⟩⟩
      · exact ⟨_, .inl ⟨hw, .inr ⟨rfl, rfl⟩⟩⟩
    · obtain ⟨hc, hget⟩ := mem_ite.mp hcust
      obtain ⟨x, hx, hop⟩ := mem_flatMap.mp hget
      have hr : r = x ∧ type = .WR := by simpa using hop
      exact ⟨_, .inr ⟨hc, by simpa [hr.1] using hx, rfl⟩⟩
  · have hmod := payment_modify htype h
    refine ⟨?_, fun t ht => ?_⟩
    · simp only [payment_calls htype]
      rcases hmod with ⟨hw, ⟨rfl, _⟩ | rfl⟩ | ⟨hc, hrow⟩
      · exact ⟨_, .inl ⟨hw, .inl ⟨rfl, rfl⟩⟩⟩
      · exact ⟨_, .inl ⟨hw, .inr ⟨rfl, rfl⟩⟩⟩
      · exact ⟨_, .inr ⟨hc, hrow, rfl⟩⟩
    · -- only the call for the warehouse can be for shared mode
      rcases (payment_calls htype).mp ht with ⟨_, ⟨rfl, rfl⟩ | ⟨_, rfl⟩⟩ | ⟨_, _, rfl⟩
      · rcases hmod with ⟨_, ⟨_, hu⟩ | heq⟩ | ⟨_, hrow⟩
        · rw [if_pos hu]
          rfl
        · cases congrArg RowRef.table heq
        · cases payment4Row_table hrow
      · rfl
      · rfl

end

theorem newOrderStocks_modify (h : .modify r ∈ events back c (newOrderStocks S node q)) :
    ∃ item ∈ suppliedItems S node q, r = newOrder8Row S item := by
  obtain ⟨item, hitem, c', hmod⟩ := modify_flatMap h
  exact ⟨item, hitem, (modify_pair rfl hmod).1⟩

section

variable (htype : q.txnType = .TPCC_NEW_ORDER)

include htype

theorem tpccOps_newOrder : tpccOps S node q d =
    ((if whLocal S node q.wId then newOrderHome S q else []) ++ newOrderItems S node q) ++
      if tpccActive S node q then
        if whLocal S node q.wId then if suppliedItems S node q = [] then [.setValue] else []
        else newOrderStocks S node q
      else [] := by
  have h2 : tpccPhase2 S node q =
      (if whLocal S node q.wId then newOrderHome S q else []) ++ newOrderItems S node q := by
    rw [tpccPhase2, htype]
  have h5 : tpccPhase5 S node q d =
      if whLocal S node q.wId then if suppliedItems S node q = [] then [.setValue] else []
      else newOrderStocks S node q := by
    rw [tpccPhase5, htype]
  rw [tpccOps, h2, h5]

theorem newOrder_calls :
    (r, t) ∈ tpccCalls S node q d ↔ (whLocal S node q.wId = true ∧ ((r = warehouseRow q ∧ t = .RD) ∨
      (r = newOrder2Row S q ∧ t = .RD) ∨ (r = newOrder4Row S q ∧ t = .WR))) ∨ ∃ item ∈ suppliedItems
      S node q, (r = newOrder6Row item ∧ t = .RD) ∨ (r = newOrder8Row S item ∧ t = .WR) := by
  simp only [tpccCalls, htype]
  by_cases hw : whLocal S node q.wId <;> simp [hw, or_assoc]

/-- Every row that a new order gets has a call. -/
theorem newOrder_getRow (h : .getRow r type ∈ tpccOps S node q d) :
    ∃ t, (r, t) ∈ tpccCalls S node q d := by
  simp only [newOrder_calls htype]
  rw [tpccOps_newOrder htype] at h
  rcases mem_append.mp h with hread | hwrite
  · rcases mem_append.mp hread with hhome | hitems
    · obtain ⟨hw, hget⟩ := mem_ite.mp hhome
      simp only [newOrderHome, mem_cons, Op.getRow.injEq, not_mem_nil, or_false] at hget
      rcases hget with ⟨rfl, _⟩ | ⟨rfl, _⟩ | ⟨rfl, _⟩
      · exact ⟨_, .inl ⟨hw, .inl ⟨rfl, rfl⟩⟩⟩
      · exact ⟨_, .inl ⟨hw, .inr (.inl ⟨rfl, rfl⟩)⟩⟩
      · exact ⟨_, .inl ⟨hw, .inr (.inr ⟨rfl, rfl⟩)⟩⟩
    · obtain ⟨item, hitem, hget⟩ := mem_flatMap.mp hitems
      cases mem_singleton.mp hget
      exact ⟨_, .inr ⟨item, hitem, .inl ⟨rfl, rfl⟩⟩⟩
  · have hwrite := (mem_ite.mp hwrite).2
    split at hwrite
    · split at hwrite <;> simp at hwrite
    · obtain ⟨item, hitem, hget⟩ := mem_flatMap.mp hwrite
      simp only [mem_cons, Op.getRow.injEq, reduceCtorEq, not_mem_nil, or_false] at hget
      obtain ⟨rfl, _⟩ := hget
      exact ⟨_, .inr ⟨item, hitem, .inr ⟨rfl, rfl⟩⟩⟩

/-- The calls for districts and stocks are for exclusive mode. -/
theorem newOrder_exclusive (hr : r.table = .DISTRICT ∨ r.table = .STOCK)
    (h : (r, t) ∈ tpccCalls S node q d) : lockMode t = .EX := by
  rcases (newOrder_calls htype).mp h with
      ⟨_, ⟨rfl, _⟩ | ⟨rfl, _⟩ | ⟨_, rfl⟩⟩ | ⟨item, _, ⟨rfl, _⟩ | ⟨_, rfl⟩⟩
  · exact absurd hr (by simp [warehouseRow])
  · exact absurd hr (by simp [newOrder2Row])
  · rfl
  · exact absurd hr (by simp [newOrder6Row])
  · rfl

/-- A new order changes the district and the stocks only. -/
theorem newOrder_modify (h : .modify r ∈ events back none (tpccOps S node q d)) :
    (whLocal S node q.wId = true ∧ r = newOrder4Row S q) ∨
      ∃ item ∈ suppliedItems S node q, r = newOrder8Row S item := by
  rw [tpccOps_newOrder htype] at h
  by_cases hw : whLocal S node q.wId
  · have hactive : tpccActive S node q = true := by
      rw [tpccActive, hw, Bool.true_or]
    by_cases hnone : suppliedItems S node q = []
    · -- without items the row is still the district
      rw [if_pos hw, if_pos hw, if_pos hactive, if_pos hnone, newOrderItems, hnone] at h
      cases back with
      | true => exact .inl ⟨hw, by simpa [newOrderHome, events] using h⟩
      | false => simp [newOrderHome, events, asksFramework] at h
    · rw [if_pos hw, if_pos hw, if_pos hactive, if_neg hnone, append_nil] at h
      exact absurd h (not_modify_of_reads (by simp [newOrderHome, newOrderItems]))
  · rw [if_neg hw, if_neg hw, nil_append] at h
    rcases modify_append h with hget | ⟨c, hset⟩
    · exact absurd hget (not_modify_of_reads (by simp [newOrderItems]))
    · exact .inr (newOrderStocks_modify (modify_ite hset).2)

theorem newOrder_covered : Covered back (tpccCalls S node q d) (tpccOps S node q d) := by
  refine .of_calls (fun r type h => newOrder_getRow htype h) (fun r h => ?_)
  rcases newOrder_modify htype h with ⟨hw, rfl⟩ | ⟨item, hitem, rfl⟩
  · exact ⟨⟨.WR, (newOrder_calls htype).mpr (.inl ⟨hw, .inr (.inr ⟨rfl, rfl⟩)⟩)⟩,
      fun t ht => newOrder_exclusive htype (.inl rfl) ht⟩
  · exact ⟨⟨.WR, (newOrder_calls htype).mpr (.inr ⟨item, hitem, .inr ⟨rfl, rfl⟩⟩)⟩,
      fun t ht => newOrder_exclusive htype (.inr rfl) ht⟩

end

/-- **TPC-C**: the locks cover the accesses of every transaction at every node. -/
theorem tpcc_covered : Covered back (tpccCalls S node q d) (tpccOps S node q d) := by
  rcases htype : q.txnType with _ | _
  · exact payment_covered htype
  · exact newOrder_covered htype

end Tpcc

/-! ## Product-Part-Supplier -/

section Pps

/-- A row, by its table and its key; the rows of `USES` and `SUPPLIES` of one key by their places in
the index. -/
inductive PpsRow : Type where
  | part (key : ℕ)
  | product (key : ℕ)
  | supplier (key : ℕ)
  | uses (product i : ℕ)
  | supplies (supplier i : ℕ)
  deriving DecidableEq

/-- `PPSQuery`, after the reconnaissance. -/
structure PpsQuery where
  txnType : Pps.TxnType
  partKey : ℕ
  productKey : ℕ
  supplierKey : ℕ
  partKeys : List ℕ
  deriving DecidableEq

variable (N : Cluster) (node : ℕ) (db : Pps.Db) (q : PpsQuery)

/-- A key is on the node. -/
def keyLocal (key : ℕ) : Bool := Pps.nodeOf N key = node

/-- The entries of `part_keys` that are on the node. -/
def localParts : List ℕ := q.partKeys.filter (keyLocal N node)

/-- The rows of an index for a key. -/
def indexRows (row : ℕ → PpsRow) (keys : List ℕ) : List PpsRow := (List.range keys.length).map row

/-- The calls of `PPSTxnManager::acquire_locks`. -/
def ppsCalls : List (PpsRow × AccessT) :=
  match q.txnType with
  | .GETPART => if keyLocal N node q.partKey then [(.part q.partKey, .RD)] else []
  | .GETPRODUCT => if keyLocal N node q.productKey then [(.product q.productKey, .RD)] else []
  | .GETSUPPLIER => if keyLocal N node q.supplierKey then [(.supplier q.supplierKey, .RD)] else []
  | .GETPARTBYSUPPLIER =>
    (if keyLocal N node q.supplierKey then
      (.supplier q.supplierKey ::
        indexRows (.supplies q.supplierKey) (db.supplies q.supplierKey)).map fun r => (r, .RD)
      else []) ++
    (localParts N node q).map fun key => (.part key, .RD)
  | .GETPARTBYPRODUCT =>
    (if keyLocal N node q.productKey then
      (.product q.productKey :: indexRows (.uses q.productKey) (db.uses q.productKey)).map fun r =>
        (r, .RD)
      else []) ++
    (localParts N node q).map fun key => (.part key, .RD)
  | .ORDERPRODUCT =>
    (if keyLocal N node q.productKey then
      (.product q.productKey :: indexRows (.uses q.productKey) (db.uses q.productKey)).map fun r =>
        (r, .RD)
      else []) ++
    (localParts N node q).map fun key => (.part key, .WR)
  | .UPDATEPRODUCTPART =>
    if keyLocal N node q.productKey then [(.product q.productKey, .WR)] else []
  | .UPDATEPART => if keyLocal N node q.partKey then [(.part q.partKey, .WR)] else []

/-- `active_nodes` of `PPSQuery::get_participants`. -/
def ppsActive : Bool :=
  match q.txnType with
  | .ORDERPRODUCT => q.partKeys.any (keyLocal N node)
  | .UPDATEPRODUCTPART => keyLocal N node q.productKey
  | .UPDATEPART => keyLocal N node q.partKey
  | _ => false

/-- The loop over the rows of `USES` from the `i`th on, with their part keys: it stops at one that
the reconnaissance has not found, and sets `txn->rc` to `Abort`. -/
def usesLoop : ℕ → List ℕ → List (Op PpsRow) × Bool
  | _, [] => ([], false)
  | i, key :: keys =>
    if key ∈ q.partKeys then
      (.getRow (.uses q.productKey i) .RD :: (usesLoop (i + 1) keys).1, (usesLoop (i + 1) keys).2)
    else ([.getRow (.uses q.productKey i) .RD], true)

/-- A product and the part keys it uses. -/
def productUses : List (Op PpsRow) × Bool :=
  if keyLocal N node q.productKey then
    (.getRow (.product q.productKey) .RD :: (usesLoop q 0 (db.uses q.productKey)).1,
      (usesLoop q 0 (db.uses q.productKey)).2)
  else ([], false)

/-- `run_pps_phase2` without reconnaissance, and whether it sets `txn->rc` to `Abort`; `early` if it
is `Abort` before. The loop for a supplier ends with its first row. -/
def ppsPhase2 (early : Bool) : List (Op PpsRow) × Bool :=
  match q.txnType with
  | .GETPART => (if keyLocal N node q.partKey then [.getRow (.part q.partKey) .RD] else [], false)
  | .GETSUPPLIER =>
    (if keyLocal N node q.supplierKey then [.getRow (.supplier q.supplierKey) .RD] else [], false)
  | .GETPRODUCT =>
    (if keyLocal N node q.productKey then [.getRow (.product q.productKey) .RD] else [], false)
  | .GETPARTBYSUPPLIER =>
    ((if keyLocal N node q.supplierKey then
      .getRow (.supplier q.supplierKey) .RD ::
        (if db.supplies q.supplierKey = [] then [] else [.getRow (.supplies q.supplierKey 0) .RD])
      else []) ++
      (if early then []
        else (localParts N node q).flatMap fun key => [.getRow (.part key) .RD]), false)
  | .GETPARTBYPRODUCT =>
    let found := productUses N node db q
    (found.1 ++
      (if early || found.2 then []
        else (localParts N node q).flatMap fun key => [.getRow (.part key) .RD]),
      found.2)
  | .ORDERPRODUCT => productUses N node db q
  | .UPDATEPRODUCTPART | .UPDATEPART => ([], false)

/-- `run_pps_phase5`. -/
def ppsPhase5 : List (Op PpsRow) :=
  match q.txnType with
  | .ORDERPRODUCT => (localParts N node q).flatMap fun key => [.getRow (.part key) .WR, .setValue]
  | .UPDATEPRODUCTPART =>
    -- the assertion on the first row of the product fails if it has none
    if keyLocal N node q.productKey ∧ db.uses q.productKey ≠ [] then
      [.getRow (.uses q.productKey 0) .WR, .setValue] else []
  | .UPDATEPART =>
    if keyLocal N node q.partKey then [.getRow (.part q.partKey) .WR, .setValue] else []
  | _ => []

/-- `PPSTxnManager::run_calvin_txn`. Messages `RFWD` may set `txn->rc` to `Abort`, `early` before
the second phase, `late` before the fifth. -/
def ppsOps (early late : Bool) : List (Op PpsRow) :=
  let read := ppsPhase2 N node db q early
  read.1 ++ if ppsActive N node q && !(early || read.2 || late) then ppsPhase5 N node db q else []

variable {N node db q}

/-- An update of the first part of a product that is on the node and has parts. -/
def UpdatesUses (N : Cluster) (node : ℕ) (db : Pps.Db) (q : PpsQuery) : Prop :=
  q.txnType = .UPDATEPRODUCTPART ∧ keyLocal N node q.productKey = true ∧ db.uses q.productKey ≠ []

variable {op : Op PpsRow} {back : Bool}

theorem usesLoop_getRow {i : ℕ} {keys : List ℕ} (h : op ∈ (usesLoop q i keys).1) :
    ∃ j < keys.length, op = .getRow (.uses q.productKey (i + j)) .RD := by
  induction keys generalizing i with
  | nil => cases h
  | cons key keys ih =>
    by_cases hkey : key ∈ q.partKeys
    · rw [usesLoop, if_pos hkey] at h
      rcases mem_cons.mp h with rfl | hrest
      · exact ⟨0, by simp, rfl⟩
      · obtain ⟨j, hj, rfl⟩ := ih hrest
        exact ⟨j + 1, by simpa using hj, by rw [Nat.add_right_comm, Nat.add_assoc]⟩
    · rw [usesLoop, if_neg hkey] at h
      exact ⟨0, by simp, mem_singleton.mp h⟩

theorem productUses_getRow (h : op ∈ (productUses N node db q).1) :
    keyLocal N node q.productKey = true ∧ ∃ r ∈
      (PpsRow.product q.productKey :: indexRows (.uses q.productKey) (db.uses q.productKey)),
        op = .getRow r .RD := by
  by_cases hloc : keyLocal N node q.productKey
  · rw [productUses, if_pos hloc] at h
    refine ⟨hloc, ?_⟩
    rcases mem_cons.mp h with rfl | hloop
    · exact ⟨_, mem_cons_self, rfl⟩
    · obtain ⟨j, hj, rfl⟩ := usesLoop_getRow hloop
      refine ⟨_, mem_cons_of_mem _ (List.mem_map.mpr ⟨j, mem_range.mpr hj, ?_⟩), rfl⟩
      rw [Nat.zero_add]
  · rw [productUses, if_neg hloc] at h
    cases h

/-- What the second phase gets was locked. -/
theorem ppsPhase2_getRow {early : Bool} (h : op ∈ (ppsPhase2 N node db q early).1) :
    ∃ r t t', op = .getRow r t ∧ (r, t') ∈ ppsCalls N node db q := by
  have hpart : ∀ {b : Bool} {t : AccessT},
      op ∈ (if b then [] else (localParts N node q).flatMap fun key => [.getRow (.part key) t]) →
      ∃ key ∈ localParts N node q, op = .getRow (.part key) t := by
    intro b t hmem
    cases b with
    | true => cases hmem
    | false => simpa using hmem
  have hone : ∀ {key : ℕ} {r : PpsRow},
      op ∈ (if keyLocal N node key then [.getRow r .RD] else []) →
      keyLocal N node key = true ∧ op = .getRow r .RD :=
    fun hmem => (mem_ite.mp hmem).imp_right mem_singleton.mp
  rcases q with ⟨txnType, partKey, productKey, supplierKey, partKeys⟩
  cases txnType with
  | GETPART | GETPRODUCT | GETSUPPLIER =>
    obtain ⟨hloc, rfl⟩ := hone h
    exact ⟨_, _, .RD, rfl, by simp [ppsCalls, hloc]⟩
  | GETPARTBYSUPPLIER =>
    rcases mem_append.mp h with hsup | hparts
    · obtain ⟨hloc, hrow⟩ := mem_ite.mp hsup
      rcases mem_cons.mp hrow with rfl | hfirst
      · exact ⟨_, _, .RD, rfl, by simp [ppsCalls, hloc]⟩
      · by_cases hnil : db.supplies supplierKey = []
        · rw [if_pos hnil] at hfirst
          cases hfirst
        · rw [if_neg hnil] at hfirst
          cases mem_singleton.mp hfirst
          have hpos := length_pos_iff.mpr hnil
          refine ⟨_, _, .RD, rfl, ?_⟩
          simp only [ppsCalls, hloc, if_true, indexRows]
          exact mem_append_left _ (List.mem_map.mpr
            ⟨_, mem_cons_of_mem _ (List.mem_map.mpr ⟨0, mem_range.mpr hpos, rfl⟩), rfl⟩)
    · obtain ⟨key, hkey, rfl⟩ := hpart hparts
      exact ⟨_, _, .RD, rfl, mem_append_right _ (List.mem_map.mpr ⟨key, hkey, rfl⟩)⟩
  | GETPARTBYPRODUCT =>
    rcases mem_append.mp h with huses | hparts
    · obtain ⟨hloc, r, hr, rfl⟩ := productUses_getRow huses
      refine ⟨_, _, .RD, rfl, ?_⟩
      simp only [ppsCalls, hloc, if_true]
      exact mem_append_left _ (List.mem_map.mpr ⟨r, hr, rfl⟩)
    · obtain ⟨key, hkey, rfl⟩ := hpart hparts
      exact ⟨_, _, .RD, rfl, mem_append_right _ (List.mem_map.mpr ⟨key, hkey, rfl⟩)⟩
  | ORDERPRODUCT =>
    obtain ⟨hloc, r, hr, rfl⟩ := productUses_getRow h
    refine ⟨_, _, .RD, rfl, ?_⟩
    simp only [ppsCalls, hloc, if_true]
    exact mem_append_left _ (List.mem_map.mpr ⟨r, hr, rfl⟩)
  | UPDATEPRODUCTPART | UPDATEPART => cases h

/-- What the fifth phase gets and changes, of a transaction other than an update of a product's
parts: parts for which every call is for exclusive mode. -/
theorem ppsPhase5_parts (hsafe : ¬ UpdatesUses N node db q) :
    ∃ keys : List ℕ, ppsPhase5 N node db q =
      keys.flatMap (fun key => [.getRow (.part key) .WR, .setValue]) ∧
      ∀ key ∈ keys, (.part key, .WR) ∈ ppsCalls N node db q ∧
        ∀ t, (.part key, t) ∈ ppsCalls N node db q → t = .WR := by
  rcases q with ⟨txnType, partKey, productKey, supplierKey, partKeys⟩
  cases txnType with
  | GETPART | GETPRODUCT | GETSUPPLIER | GETPARTBYSUPPLIER | GETPARTBYPRODUCT =>
    exact ⟨[], rfl, fun _ h => absurd h not_mem_nil⟩
  | ORDERPRODUCT =>
    refine ⟨_, rfl, fun key hkey => ⟨mem_append_right _ (List.mem_map.mpr ⟨key, hkey, rfl⟩), ?_⟩⟩
    intro t ht
    rcases mem_append.mp ht with hrow | hpart
    · by_cases hloc : keyLocal N node productKey
      · simp [hloc, indexRows] at hrow
      · simp [hloc] at hrow
    · obtain ⟨_, _, heq⟩ := List.mem_map.mp hpart
      exact (Prod.mk.inj heq).2.symm
  | UPDATEPRODUCTPART =>
    have hno : ¬ (keyLocal N node productKey ∧ db.uses productKey ≠ []) :=
      fun h => hsafe ⟨rfl, h.1, h.2⟩
    exact ⟨[], if_neg hno, fun _ h => absurd h not_mem_nil⟩
  | UPDATEPART =>
    by_cases hloc : keyLocal N node partKey
    · refine ⟨[partKey], if_pos hloc, fun key hkey => ?_⟩
      cases mem_singleton.mp hkey
      simp [ppsCalls, hloc]
    · exact ⟨[], if_neg hloc, fun _ h => absurd h not_mem_nil⟩

/-- **A PPS transaction is covered** unless it updates a row of `USES`, for which it asks no lock.
-/
theorem pps_covered (hsafe : ¬ UpdatesUses N node db q) (early late : Bool) :
    Covered back (ppsCalls N node db q) (ppsOps N node db q early late) := by
  obtain ⟨keys, hops, hkeys⟩ := ppsPhase5_parts hsafe
  refine .of_calls (fun r type h => ?_) (fun r h => ?_)
  · rcases mem_append.mp h with hread | hwrite
    · obtain ⟨r', _, t', heq, hcall⟩ := ppsPhase2_getRow hread
      cases heq
      exact ⟨t', hcall⟩
    · have hget := (mem_ite.mp hwrite).2
      rw [hops] at hget
      obtain ⟨key, hkey, hop⟩ := mem_flatMap.mp hget
      have heq : r = .part key ∧ type = .WR := by simpa using hop
      exact ⟨.WR, heq.1 ▸ (hkeys key hkey).1⟩
  · rcases modify_append h with hread | ⟨c, hwrite⟩
    · refine absurd hread (not_modify_of_reads fun hset => ?_)
      obtain ⟨_, _, _, heq, _⟩ := ppsPhase2_getRow hset
      cases heq
    · have hmod := (modify_ite hwrite).2
      rw [hops] at hmod
      obtain ⟨key, hkey, c', hkeymod⟩ := modify_flatMap hmod
      rw [(modify_pair rfl hkeymod).1]
      exact ⟨⟨.WR, (hkeys key hkey).1⟩, fun t ht => (hkeys key hkey).2 t ht ▸ rfl⟩

/-- **PPS**: the locks cover the accesses of a transaction at a node unless it is an update of a
product's part there. -/
theorem pps_covered_iff :
    (∀ early late, Covered back (ppsCalls N node db q) (ppsOps N node db q early late)) ↔
      ¬ UpdatesUses N node db q := by
  refine ⟨fun hcov hupd => ?_, fun hsafe => pps_covered hsafe⟩
  rcases q with ⟨txnType, partKey, productKey, supplierKey, partKeys⟩
  obtain ⟨rfl, hloc, hne⟩ := hupd
  obtain ⟨mode, hmode⟩ := (hcov false false).access (.uses productKey 0) .WR (by
    simp [ppsOps, ppsPhase2, ppsPhase5, ppsActive, hloc, hne, events])
  -- the only call is for the product
  obtain ⟨t, ht, _⟩ := call_of_mem_requested hmode
  simp [ppsCalls, hloc] at ht

end Pps

/-! ## All workloads -/

/-- A query of one of the workloads. YCSB asks for no `XP`. -/
inductive Query : Type where
  | ycsb (requests : List Ycsb.Request) (hxp : ∀ req ∈ requests, req.acctype ≠ .XP)
  | tpcc (q : Tpcc.Query)
  | pps (q : PpsQuery)

/-- What a node is set up with: the sizes and the tables that the traversals read. -/
structure Env where
  /-- the cluster and the parameters of TPC-C -/
  scale : Tpcc.Scale
  /-- the tables of TPC-C -/
  data : Tpcc.NodeData
  /-- the tables of PPS -/
  db : Pps.Db

/-- **Lock coverage** of a query on a node. `back` says that the calls of the framework come
back. -/
def Query.LocksCover (E : Env) (back : Bool) (node : ℕ) : Query → Prop
  | .ycsb requests _ =>
    Covered back (ycsbCalls E.scale.toCluster node requests)
      (ycsbOps E.scale.toCluster node requests)
  | .tpcc q => Covered back (tpccCalls E.scale node q E.data) (tpccOps E.scale node q E.data)
  | .pps q => ∀ early late, Covered back (ppsCalls E.scale.toCluster node E.db q)
      (ppsOps E.scale.toCluster node E.db q early late)

/-- When it holds. -/
def Query.Safe (E : Env) (back : Bool) (node : ℕ) : Query → Prop
  | .ycsb requests _ => back = true → WritesFirst E.scale.toCluster node requests
  | .tpcc _ => True
  | .pps q => ¬ UpdatesUses E.scale.toCluster node E.db q

/-- **Which queries are covered**, on every node and over all tables. For TPC-C all are; for YCSB
all are as long as the framework does not come back, and otherwise those that write a row before
they read it; for PPS all but the update of a product's part, at the node of the product. -/
theorem locksCover_iff (E : Env) (back : Bool) (node : ℕ) (q : Query) :
    q.LocksCover E back node ↔ q.Safe E back node := by
  rcases q with ⟨requests, hxp⟩ | q | q
  · exact ycsb_covered_iff hxp
  · exact iff_of_true tpcc_covered trivial
  · exact pps_covered_iff

/-- One node with one partition, empty tables and a product that uses a part. -/
def smallEnv : Env where
  scale := ⟨⟨1, 1⟩, true, 1, 1, 1⟩
  data := Tpcc.Contents.start ⟨fun _ _ => 0, fun _ => [], 0, 0⟩
  db := ⟨fun _ _ => 0, fun _ => [0], fun _ => []⟩

/-- An update of a product's part: the row of `USES` is accessed, and was not requested. That is so
although the framework does not come back, and would be if it did. -/
theorem not_covered :
    ¬ (Query.pps ⟨.UPDATEPRODUCTPART, 0, 0, 0, []⟩).LocksCover smallEnv false 0 ∧
    ¬ (Query.pps ⟨.UPDATEPRODUCTPART, 0, 0, 0, []⟩).LocksCover smallEnv true 0 := by
  refine ⟨fun h => ?_, fun h => ?_⟩
  · exact pps_covered_iff.mp h ⟨rfl, by decide, cons_ne_nil _ _⟩
  · exact pps_covered_iff.mp h ⟨rfl, by decide, cons_ne_nil _ _⟩

end CalvinCoverage

end Deneva
