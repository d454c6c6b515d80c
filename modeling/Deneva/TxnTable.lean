import Deneva.Transition
import Deneva.Types
import Deneva.Version

/-!
# The recycling threshold of MVCC (`system/txn_table.cpp`, `system/manager.cpp`)

The transaction table of one node: buckets of transaction managers, each with a
`min_ts`, and `Manager::min_ts`, the running maximum of the minima over all buckets.

A worker handles a message in separate steps, which interleave with those of other
workers (`system/worker_thread.cpp`):

* `get_transaction_manager` looks the manager up, or puts a fresh one into the table;
* `set_timestamp` gives the transaction its timestamp, a new one (`CL_QRY`, `RTXN`) or
  that of the message (`RQRY`);
* `update_min_ts` announces it to a bucket;
* then the transaction accesses rows, and the message ends or the manager is released.

Every row access may call `Manager::get_min_ts`. A ghost `log` has the accesses and the
values that were returned, latest first.
-/

namespace Deneva

open Function List Option

namespace TxnTable

/-- `txn_node`, with what is read of its manager. -/
structure TxnNode where
  /-- `txn_man->get_txn_id()` -/
  txnId : ℕ
  /-- `txn_man->get_timestamp()` -/
  timestamp : ℕ

/-- `pool_node`. -/
structure PoolNode where
  /-- the list from `head` to `tail` -/
  nodes : List TxnNode
  minTs : ℕ

namespace PoolNode

/-- The timestamp of a transaction whose manager is in the bucket. -/
def find? (txnId : ℕ) (p : PoolNode) : Option ℕ :=
  (p.nodes.find? fun x => x.txnId = txnId).map TxnNode.timestamp

/-- `update_min_ts` on a bucket. -/
def updateMinTs (ts : ℕ) (p : PoolNode) : PoolNode :=
  { p with minTs := if ts < p.minTs then ts else p.minTs }

/-- `get_transaction_manager` on a bucket; `fresh` is the timestamp of a manager that comes
from the pool of managers, which keeps what was there before. -/
def getTransactionManager (txnId fresh : ℕ) (p : PoolNode) : PoolNode :=
  match p.find? txnId with
  | some ts => p.updateMinTs ts
  | none => updateMinTs fresh { p with nodes := p.nodes ++ [⟨txnId, fresh⟩] }

/-- `set_timestamp` of a manager in the bucket. -/
def setTimestamp (txnId ts : ℕ) (p : PoolNode) : PoolNode :=
  { p with nodes := p.nodes.map fun x => if x.txnId = txnId then { x with timestamp := ts } else x }

/-- `release_transaction_manager` on a bucket. -/
def releaseTransactionManager (txnId : ℕ) (p : PoolNode) : PoolNode :=
  let nodes := p.nodes.filter fun x => x.txnId ≠ txnId
  { nodes := nodes, minTs := foldMin TxnNode.timestamp UINT64_MAX nodes }

end PoolNode

/-- What kind of message is handled. -/
inductive MessageKind where
  /-- a new transaction -/
  | clQry
  /-- a restart -/
  | rtxn
  /-- a query from the home node of the transaction -/
  | rqry
  /-- any other message of a transaction that is known here -/
  | cont
  deriving DecidableEq

/-- How far a worker is with a message of a transaction. -/
inductive Phase where
  /-- no worker handles one -/
  | idle
  /-- the manager is looked up -/
  | looked (kind : MessageKind)
  /-- the timestamp is set -/
  | stamped (kind : MessageKind)
  /-- the transaction runs -/
  | active
  deriving DecidableEq

/-- What happened. -/
inductive Event where
  /-- `Manager::get_min_ts` returned a value -/
  | returned (minTs : ℕ)
  /-- a transaction accessed a row with its timestamp -/
  | accessed (txnId ts : ℕ)
  deriving DecidableEq

/-- One node. -/
structure State where
  /-- `TxnTable::pool` -/
  pool : ℕ → PoolNode
  /-- `Manager::min_ts` -/
  minTs : ℕ
  /-- the messages that are handled -/
  phase : ℕ → Phase
  /-- what happened, latest first -/
  log : List Event

/-- A step. -/
inductive Action where
  | getTransactionManager (txnId : ℕ) (kind : MessageKind) (fresh : ℕ)
  | setTimestamp (txnId ts : ℕ)
  | updateMinTs (txnId : ℕ)
  | access (txnId : ℕ)
  /-- `elapsed`: `MIN_TS_INTVL` has passed since the minimum was computed -/
  | getMinTs (elapsed : Bool)
  | endMessage (txnId : ℕ)
  | releaseTransactionManager (txnId : ℕ)

/-- The bucket of a transaction; `poolSize` is `g_inflight_max + 1`. -/
def poolId (inflightMax txnId : ℕ) : ℕ := txnId % (inflightMax + 1)

/-- The bucket to which the timestamp of a transaction is announced: in a restart
`process_rtxn` still has `txn_id = UINT64_MAX`. -/
def announceId (inflightMax txnId : ℕ) (kind : MessageKind) : ℕ :=
  poolId inflightMax (if kind = .rtxn then UINT64_MAX else txnId)

/-- `TxnTable::get_min_ts`. -/
def tableMinTs (inflightMax : ℕ) (pool : ℕ → PoolNode) : ℕ :=
  foldMin (fun i => (pool i).minTs) UINT64_MAX (List.range (inflightMax + 1))

/-- `Manager::get_min_ts`. -/
def getMinTs (inflightMax : ℕ) (elapsed : Bool) (s : State) : ℕ :=
  if elapsed then
    if s.minTs < tableMinTs inflightMax s.pool then tableMinTs inflightMax s.pool else s.minTs
  else s.minTs

namespace State

/-- A bucket is changed. -/
def setPool (i : ℕ) (f : PoolNode → PoolNode) (s : State) : State :=
  { s with pool := update s.pool i (f (s.pool i)) }

/-- A worker goes on with a message. -/
def setPhase (txnId : ℕ) (p : Phase) (s : State) : State :=
  { s with phase := update s.phase txnId p }

/-- The timestamp of a transaction that is in the table. -/
def timestamp? (inflightMax txnId : ℕ) (s : State) : Option ℕ :=
  (s.pool (poolId inflightMax txnId)).find? txnId

end State

open PoolNode

/-- All interleavings of the workers of a node. -/
def machine (inflightMax : ℕ) : Machine State Action where
  init := ⟨fun _ => ⟨[], UINT64_MAX⟩, 0, fun _ => .idle, []⟩
  step s
    | .getTransactionManager txnId kind fresh =>
      let s' := s.setPool (poolId inflightMax txnId) (PoolNode.getTransactionManager txnId fresh)
      match s.phase txnId, s.timestamp? inflightMax txnId with
      | .idle, some _ => some (s'.setPhase txnId (if kind = .cont then .active else .looked kind))
      -- only new transactions and queries come to a node that does not know them
      | .idle, none =>
        if kind = .clQry ∨ kind = .rqry then some (s'.setPhase txnId (.looked kind)) else none
      -- another worker has the transaction: the message goes back to the work queue
      | _, some _ => some s'
      | _, none => none
    | .setTimestamp txnId ts =>
      match s.phase txnId with
      | .looked kind =>
        some ((s.setPool (poolId inflightMax txnId) (PoolNode.setTimestamp txnId ts)).setPhase txnId
          (.stamped kind))
      | _ => none
    | .updateMinTs txnId =>
      match s.phase txnId, s.timestamp? inflightMax txnId with
      | .stamped kind, some ts =>
        some
          ((s.setPool (announceId inflightMax txnId kind) (updateMinTs ts)).setPhase txnId .active)
      | _, _ => none
    | .access txnId =>
      match s.phase txnId, s.timestamp? inflightMax txnId with
      | .active, some ts => some { s with log := .accessed txnId ts :: s.log }
      | _, _ => none
    | .getMinTs elapsed =>
      let minTs := getMinTs inflightMax elapsed s
      some { s with minTs := minTs, log := .returned minTs :: s.log }
    | .endMessage txnId =>
      match s.phase txnId with
      | .active => some (s.setPhase txnId .idle)
      | _ => none
    | .releaseTransactionManager txnId =>
      match s.phase txnId, s.timestamp? inflightMax txnId with
      | .active, some _ =>
        some ((s.setPool (poolId inflightMax txnId)
          (PoolNode.releaseTransactionManager txnId)).setPhase txnId .idle)
      | _, _ => none

/-- No access is below a threshold that was returned before. -/
def Safe (log : List Event) : Prop :=
  ∀ later txnId ts earlier, log = later ++ .accessed txnId ts :: earlier →
    ∀ minTs, .returned minTs ∈ earlier → minTs ≤ ts

/-! ## Buckets -/

namespace PoolNode

variable {p : PoolNode} {txnId ts fresh : ℕ} {x : TxnNode}

theorem updateMinTs_le : (p.updateMinTs ts).minTs ≤ ts ∧ (p.updateMinTs ts).minTs ≤ p.minTs := by
  simp only [updateMinTs]
  split <;> omega

theorem mem_of_find? (h : p.find? txnId = some ts) : ⟨txnId, ts⟩ ∈ p.nodes := by
  obtain ⟨x, hx, rfl⟩ := map_eq_some_iff.mp h
  have hid : x.txnId = txnId := by simpa using find?_some hx
  exact hid ▸ mem_of_find?_eq_some hx

/-- A lookup adds a fresh manager at most, and the minimum does not rise. -/
theorem getTransactionManager_spec (p : PoolNode) (txnId fresh : ℕ) :
    (p.getTransactionManager txnId fresh).minTs ≤ p.minTs ∧
      ∀ x ∈ (p.getTransactionManager txnId fresh).nodes,
        x ∈ p.nodes ∨ (x.txnId = txnId ∧ p.find? txnId = none) := by
  rw [getTransactionManager]
  split
  · exact ⟨updateMinTs_le.2, fun x hx => .inl hx⟩
  · refine ⟨updateMinTs_le.2, fun x hx => ?_⟩
    rcases mem_append.mp hx with hx | hx
    · exact .inl hx
    · exact .inr ⟨(mem_singleton.mp hx) ▸ rfl, ‹_›⟩

/-- Managers of one bucket are of different transactions. -/
def Distinct (p : PoolNode) : Prop := (p.nodes.map TxnNode.txnId).Nodup

theorem Distinct.find? (h : p.Distinct) (hx : x ∈ p.nodes) :
    p.find? x.txnId = some x.timestamp := by
  have hsome : (p.nodes.find? fun y => y.txnId = x.txnId).isSome :=
    List.find?_isSome.mpr ⟨x, hx, by simp⟩
  obtain ⟨y, hy⟩ := Option.isSome_iff_exists.mp hsome
  have hid : y.txnId = x.txnId := by simpa using find?_some hy
  have heq : y = x := inj_on_of_nodup_map h (mem_of_find?_eq_some hy) hx hid
  rw [PoolNode.find?, hy, map_some, heq]

theorem Distinct.getTransactionManager (h : p.Distinct) (txnId fresh : ℕ) :
    (p.getTransactionManager txnId fresh).Distinct := by
  rw [PoolNode.getTransactionManager]
  split
  · exact h
  · have hnew : txnId ∉ p.nodes.map TxnNode.txnId := by
      intro hmem
      obtain ⟨x, hx, rfl⟩ := List.mem_map.mp hmem
      simp [h.find? hx] at *
    simpa [Distinct, updateMinTs, nodup_append, h] using
      ⟨h, fun x hx heq => hnew (List.mem_map.mpr ⟨x, hx, heq⟩)⟩

theorem Distinct.setTimestamp (h : p.Distinct) (txnId ts : ℕ) :
    (p.setTimestamp txnId ts).Distinct := by
  have hsame : (p.setTimestamp txnId ts).nodes.map TxnNode.txnId = p.nodes.map TxnNode.txnId := by
    rw [PoolNode.setTimestamp, List.map_map]
    refine map_congr_left fun x _ => ?_
    simp only [comp_apply]
    split <;> rfl
  rw [Distinct, hsame]
  exact h

theorem Distinct.releaseTransactionManager (h : p.Distinct) (txnId : ℕ) :
    (p.releaseTransactionManager txnId).Distinct :=
  h.sublist (filter_sublist.map TxnNode.txnId)

theorem mem_setTimestamp (hx : x ∈ (p.setTimestamp txnId ts).nodes) :
    x ∈ p.nodes ∨ x.txnId = txnId := by
  obtain ⟨y, hy, rfl⟩ := List.mem_map.mp hx
  split
  · exact .inr ‹_›
  · exact .inl hy

/-- The managers that stay are those of other transactions, and the minimum is theirs. -/
theorem mem_releaseTransactionManager (hx : x ∈ (p.releaseTransactionManager txnId).nodes) :
    x ∈ p.nodes ∧ x.txnId ≠ txnId ∧ (p.releaseTransactionManager txnId).minTs ≤ x.timestamp := by
  have hmem := mem_filter.mp hx
  exact ⟨hmem.1, by simpa using hmem.2, foldMin_le hx⟩

end PoolNode

/-- The minimum over the table is not above that of any bucket. -/
theorem tableMinTs_le {inflightMax i : ℕ} (pool : ℕ → PoolNode) (hi : i < inflightMax + 1) :
    tableMinTs inflightMax pool ≤ (pool i).minTs :=
  foldMin_le (mem_range.mpr hi)

theorem poolId_lt (inflightMax txnId : ℕ) : poolId inflightMax txnId < inflightMax + 1 :=
  Nat.mod_lt _ (Nat.succ_pos _)

/-! ## The invariant -/

/-- The timestamp of the manager was announced, and may be used. -/
def Phase.Announced : Phase → Prop
  | .idle | .active => True
  | _ => False

/-- What holds as long as timestamps are announced in time. -/
structure Inv (inflightMax : ℕ) (s : State) : Prop where
  /-- managers are in the buckets of their transactions -/
  home : ∀ i, ∀ x ∈ (s.pool i).nodes, poolId inflightMax x.txnId = i
  /-- a transaction has one manager -/
  distinct : ∀ i, (s.pool i).Distinct
  /-- announced timestamps bound the minimum of their bucket and the threshold -/
  announced : ∀ i, ∀ x ∈ (s.pool i).nodes, (s.phase x.txnId).Announced →
    (s.pool i).minTs ≤ x.timestamp ∧ s.minTs ≤ x.timestamp
  /-- the threshold only rises -/
  returned : ∀ minTs, .returned minTs ∈ s.log → minTs ≤ s.minTs
  /-- **no access was below a threshold** -/
  safe : Safe s.log

/-- What a message is about whose transaction has its timestamp, and has not announced it. -/
def Phase.stamped? : Phase → Option MessageKind
  | .stamped kind => some kind
  | _ => none

/-- **The timestamps are announced in time**: when a timestamp is announced, no greater
threshold has been returned, and it is announced to the bucket of its transaction, or the
minimum there is not above it already. A restart announces to another bucket. -/
def InTime (inflightMax : ℕ) (s : State) : Action → Prop
  | .updateMinTs txnId => ∀ ts ∈ s.timestamp? inflightMax txnId,
      s.minTs ≤ ts ∧ ∀ kind ∈ (s.phase txnId).stamped?,
        announceId inflightMax txnId kind = poolId inflightMax txnId ∨
          (s.pool (poolId inflightMax txnId)).minTs ≤ ts
  | _ => True

theorem Safe.nil : Safe [] := fun later _ _ _ h => absurd h.symm (by simp)

theorem Safe.returned {log : List Event} (h : Safe log) (minTs : ℕ) :
    Safe (.returned minTs :: log) := by
  intro later txnId ts earlier heq v hv
  cases later with
  | nil => cases heq
  | cons e later => exact h later txnId ts earlier (List.cons.inj heq).2 v hv

theorem Safe.accessed {log : List Event} (h : Safe log) {txnId ts : ℕ}
    (hle : ∀ minTs, .returned minTs ∈ log → minTs ≤ ts) : Safe (.accessed txnId ts :: log) := by
  intro later txnId' ts' earlier heq v hv
  cases later with
  | nil =>
    cases heq
    exact hle v hv
  | cons e later => exact h later txnId' ts' earlier (List.cons.inj heq).2 v hv

section

variable {inflightMax txnId : ℕ} {s s' : State}

theorem inv_init (inflightMax : ℕ) : Inv inflightMax (machine inflightMax).init where
  home _ _ hx := absurd hx not_mem_nil
  distinct _ := nodup_nil
  announced _ _ hx := absurd hx not_mem_nil
  returned _ h := absurd h not_mem_nil
  safe := Safe.nil

/-- A bucket changes. -/
theorem Inv.setPool (h : Inv inflightMax s) {i : ℕ} {f : PoolNode → PoolNode}
    (hhome : ∀ x ∈ (f (s.pool i)).nodes, poolId inflightMax x.txnId = i)
    (hdistinct : (f (s.pool i)).Distinct)
    (hann : ∀ x ∈ (f (s.pool i)).nodes, (s.phase x.txnId).Announced →
      (f (s.pool i)).minTs ≤ x.timestamp ∧ s.minTs ≤ x.timestamp) :
    Inv inflightMax (s.setPool i f) where
  home := (forall_update_iff s.pool fun j p => ∀ x ∈ p.nodes,
    poolId inflightMax x.txnId = j).mpr ⟨hhome, fun j _ => h.home j⟩
  distinct := (forall_update_iff s.pool fun _ p => p.Distinct).mpr
    ⟨hdistinct, fun j _ => h.distinct j⟩
  announced := (forall_update_iff s.pool fun _ p => ∀ x ∈ p.nodes,
    (s.phase x.txnId).Announced → p.minTs ≤ x.timestamp ∧ s.minTs ≤ x.timestamp).mpr
      ⟨hann, fun j _ => h.announced j⟩
  returned := h.returned
  safe := h.safe

/-- A worker goes on. -/
theorem Inv.setPhase (h : Inv inflightMax s) {p : Phase}
    (hp : p.Announced → ∀ i, ∀ x ∈ (s.pool i).nodes, x.txnId = txnId →
      (s.pool i).minTs ≤ x.timestamp ∧ s.minTs ≤ x.timestamp) :
    Inv inflightMax (s.setPhase txnId p) :=
  { h with
    announced := fun i x hx hann => by
      by_cases hid : x.txnId = txnId
      · have hphase : (s.setPhase txnId p).phase x.txnId = p := hid ▸ update_self ..
        exact hp (hphase ▸ hann) i x hx hid
      · have hphase : (s.setPhase txnId p).phase x.txnId = s.phase x.txnId :=
          update_of_ne hid ..
        exact h.announced i x hx (hphase ▸ hann) }

/-! ## Steps -/

/-- A lookup. A fresh manager is not announced yet. -/
theorem Inv.getTransactionManager (h : Inv inflightMax s) {fresh : ℕ}
    (hnew : s.timestamp? inflightMax txnId = none → ¬ (s.phase txnId).Announced) :
    Inv inflightMax
      (s.setPool (poolId inflightMax txnId) (PoolNode.getTransactionManager txnId fresh)) := by
  obtain ⟨hmin, hnodes⟩ :=
    (s.pool (poolId inflightMax txnId)).getTransactionManager_spec txnId fresh
  refine h.setPool (fun x hx => ?_) ((h.distinct _).getTransactionManager ..) fun x hx hann => ?_
  · rcases hnodes x hx with hx | ⟨rfl, _⟩
    · exact h.home _ x hx
    · rfl
  · rcases hnodes x hx with hx | ⟨rfl, hnone⟩
    · exact ⟨hmin.trans (h.announced _ x hx hann).1, (h.announced _ x hx hann).2⟩
    · exact absurd hann (hnew hnone)

variable {ts : ℕ}

section

variable (h : Inv inflightMax s)

include h

theorem Inv.setTimestamp (hp : ¬ (s.phase txnId).Announced) :
    Inv inflightMax (s.setPool (poolId inflightMax txnId) (PoolNode.setTimestamp txnId ts)) := by
  refine h.setPool (fun x hx => ?_) ((h.distinct _).setTimestamp ..) fun x hx hann => ?_
  · rcases mem_setTimestamp hx with hx | rfl
    · exact h.home _ x hx
    · rfl
  · rcases mem_setTimestamp hx with hx | rfl
    · exact h.announced _ x hx hann
    · exact absurd hann hp

/-- A timestamp is announced to a bucket. -/
theorem Inv.announce {i : ℕ} (hts : s.timestamp? inflightMax txnId = some ts) (hmin : s.minTs ≤ ts)
    (hpool : ((s.setPool i (updateMinTs ts)).pool (poolId inflightMax txnId)).minTs ≤ ts) :
    Inv inflightMax ((s.setPool i (updateMinTs ts)).setPhase txnId .active) := by
  have hset : Inv inflightMax (s.setPool i (updateMinTs ts)) :=
    h.setPool (h.home i) (h.distinct i) fun x hx hann =>
      ⟨updateMinTs_le.2.trans (h.announced i x hx hann).1, (h.announced i x hx hann).2⟩
  have hnodes : ∀ j, ((s.setPool i (updateMinTs ts)).pool j).nodes = (s.pool j).nodes :=
    (forall_update_iff s.pool fun j p => p.nodes = (s.pool j).nodes).mpr
      ⟨rfl, fun _ _ => rfl⟩
  refine hset.setPhase fun _ j x hx hid => ?_
  obtain rfl : poolId inflightMax txnId = j := hid ▸ hset.home j x hx
  have hxts := (h.distinct _).find? (hnodes _ ▸ hx)
  rw [hid] at hxts
  obtain rfl : ts = x.timestamp := some.inj (hts.symm.trans hxts)
  exact ⟨hpool, hmin⟩

theorem Inv.releaseTransactionManager :
    Inv inflightMax
      ((s.setPool (poolId inflightMax txnId) (PoolNode.releaseTransactionManager txnId)).setPhase
        txnId .idle) := by
  have hset : Inv inflightMax
      (s.setPool (poolId inflightMax txnId) (PoolNode.releaseTransactionManager txnId)) := by
    refine h.setPool (fun x hx => ?_)
      ((h.distinct _).releaseTransactionManager _) fun x hx hann => ?_
    · exact h.home _ x (mem_releaseTransactionManager hx).1
    · obtain ⟨hmem, _, hmin⟩ := mem_releaseTransactionManager hx
      exact ⟨hmin, (h.announced _ x hmem hann).2⟩
  refine hset.setPhase fun _ j x hx hid => ?_
  -- no manager of the transaction is left
  obtain rfl : poolId inflightMax txnId = j := hid ▸ hset.home j x hx
  have hself : (s.setPool (poolId inflightMax txnId)
    (PoolNode.releaseTransactionManager txnId)).pool
      (poolId inflightMax txnId) = (s.pool _).releaseTransactionManager txnId := update_self ..
  rw [hself] at hx
  exact absurd hid (mem_releaseTransactionManager hx).2.1

/-- **The threshold stays below announced timestamps**, as it is not above the minimum of
their bucket. -/
theorem Inv.getMinTs (elapsed : Bool) :
    Inv inflightMax
      { s with
        minTs := getMinTs inflightMax elapsed s
        log := .returned (getMinTs inflightMax elapsed s) :: s.log } := by
  have hrise : s.minTs ≤ TxnTable.getMinTs inflightMax elapsed s := by
    rw [TxnTable.getMinTs]
    split_ifs <;> omega
  have hbound : TxnTable.getMinTs inflightMax elapsed s = s.minTs ∨
      TxnTable.getMinTs inflightMax elapsed s = tableMinTs inflightMax s.pool := by
    rw [TxnTable.getMinTs]
    split_ifs <;> simp
  refine { h with
    announced := fun i x hx hann => ?_, returned := fun v hv => ?_, safe := h.safe.returned _ }
  · obtain ⟨hpool, hmin⟩ := h.announced i x hx hann
    refine ⟨hpool, ?_⟩
    rcases hbound with heq | heq
    · exact heq.trans_le hmin
    · have hlt : i < inflightMax + 1 := h.home i x hx ▸ poolId_lt inflightMax x.txnId
      exact heq.trans_le ((tableMinTs_le s.pool hlt).trans hpool)
  · rcases mem_cons.mp hv with heq | hv
    · exact (Event.returned.inj heq).le
    · exact (h.returned v hv).trans hrise

/-- **An announced timestamp is not below any threshold.** -/
theorem Inv.access (hp : (s.phase txnId).Announced)
    (hts : s.timestamp? inflightMax txnId = some ts) :
    Inv inflightMax { s with log := .accessed txnId ts :: s.log } := by
  obtain ⟨_, hmin⟩ := h.announced _ _ (mem_of_find? hts) hp
  refine { h with returned := fun v hv => ?_, safe := h.safe.accessed fun v hv => ?_ }
  · exact h.returned v ((mem_cons.mp hv).resolve_left nofun)
  · exact (h.returned v hv).trans hmin

/-- **Every announcement in time keeps the invariant**, and so does every other step. -/
theorem inv_step {a : Action} (hok : InTime inflightMax s a)
    (hs : (machine inflightMax).step s a = some s') : Inv inflightMax s' := by
  cases a with
  | getTransactionManager txnId kind fresh =>
    simp only [machine] at hs
    split at hs
    · -- the manager is in the table, with a timestamp that was announced
      rename_i hidle hsome
      cases hs
      have hphase : Inv inflightMax
          (s.setPhase txnId (if kind = .cont then .active else .looked kind)) :=
        h.setPhase fun _ i x hx hid => h.announced i x hx (by rw [hid, hidle]; trivial)
      exact hphase.getTransactionManager fun hnone => absurd (hnone.symm.trans hsome) nofun
    · obtain ⟨_, hs⟩ := ite_none_right_eq_some.mp hs
      cases hs
      have hphase : Inv inflightMax (s.setPhase txnId (.looked kind)) := h.setPhase False.elim
      refine hphase.getTransactionManager fun _ => ?_
      simp [State.setPhase, Phase.Announced]
    next hsome _ =>
      exact some.inj hs ▸ h.getTransactionManager fun hnone => absurd (hnone.symm.trans hsome) nofun
    · cases hs
  | setTimestamp txnId ts =>
    simp only [machine] at hs
    split at hs
    next kind _ =>
      cases hs
      have hphase : Inv inflightMax (s.setPhase txnId (.stamped kind)) := h.setPhase False.elim
      refine hphase.setTimestamp ?_
      simp [State.setPhase, Phase.Announced]
    · cases hs
  | updateMinTs txnId =>
    simp only [machine] at hs
    split at hs
    next kind ts hphase hts =>
      cases hs
      obtain ⟨hmin, hpool⟩ := hok ts hts
      apply h.announce hts hmin
      rcases hpool kind (by rw [hphase]; rfl) with heq | hle
      · simp only [heq, State.setPool, update_self]
        exact updateMinTs_le.1
      · refine le_trans ?_ hle
        simp only [State.setPool, update_apply]
        split
        · rw [‹poolId inflightMax txnId = _›]
          exact updateMinTs_le.2
        · exact le_rfl
    · cases hs
  | access txnId =>
    simp only [machine] at hs
    split at hs
    · exact some.inj hs ▸ h.access (by rw [‹s.phase txnId = _›]; trivial) ‹_›
    · cases hs
  | getMinTs elapsed => exact some.inj hs ▸ h.getMinTs elapsed
  | endMessage txnId =>
    simp only [machine] at hs
    split at hs
    · cases hs
      exact h.setPhase fun _ i x hx hid =>
        h.announced i x hx (by rw [hid, ‹s.phase txnId = _›]; trivial)
    · cases hs
  | releaseTransactionManager txnId =>
    simp only [machine] at hs
    split at hs
    · exact some.inj hs ▸ h.releaseTransactionManager
    · cases hs

end

theorem reachable_inv {s : State}
    (hs : (machine inflightMax).ReachableVia (InTime inflightMax) s) : Inv inflightMax s :=
  hs.invariant (inv_init inflightMax) fun _ _ _ _ h hok hs => inv_step h hok hs

/-! ## The threshold -/

/-- **The threshold is a lower bound as long as timestamps are announced in time**: in every run
whose announcements come before `get_min_ts` has passed the timestamp, and reach the bucket of the
transaction or find it low enough, no access has a timestamp below a value that was returned. -/
theorem minTs_bounds_accesses (inflightMax : ℕ) {s : State}
    (hs : (machine inflightMax).ReachableVia (InTime inflightMax) s) : Safe s.log :=
  (reachable_inv hs).safe

instance (inflightMax : ℕ) (s : State) (a : Action) : Decidable (InTime inflightMax s a) := by
  cases a <;> dsimp only [InTime] <;> infer_instance

/-- A restart, which announces to another bucket, and a query from another node. -/
def restarted : List Action :=
  [.getTransactionManager 1 .clQry UINT64_MAX, .setTimestamp 1 5, .updateMinTs 1, .access 1,
    .getMinTs true, .endMessage 1, .getTransactionManager 2 .rqry 3, .setTimestamp 2 7,
    .updateMinTs 2,
    .getTransactionManager 1 .rtxn 0, .setTimestamp 1 8, .updateMinTs 1, .access 1, .getMinTs true,
    .releaseTransactionManager 1, .getMinTs true, .access 2]

theorem minTs_bounds_accesses_restarted :
    ∃ s, (machine 4).run restarted = some s ∧
      s.log = [.accessed 2 7, .returned 5, .returned 5, .accessed 1 8, .returned 5, .accessed 1 5] ∧
      Safe s.log := by
  have hrun : ((machine 4).run restarted).map State.log = some
      [.accessed 2 7, .returned 5, .returned 5, .accessed 1 8, .returned 5, .accessed 1 5] := by
    decide +kernel
  have hok : (machine 4).RunOk (InTime 4) (machine 4).init restarted := by decide +kernel
  obtain ⟨s, hs, hlog⟩ := map_eq_some_iff.mp hrun
  exact ⟨s, hs, hlog, minTs_bounds_accesses 4 (.of_run hok hs)⟩

/-- The first transaction gets the smaller timestamp, but announces it only after the
second has computed the threshold. -/
def lateAnnouncement : List Action :=
  [.getTransactionManager 0 .clQry UINT64_MAX, .setTimestamp 0 5,
    .getTransactionManager 1 .clQry UINT64_MAX, .setTimestamp 1 6, .updateMinTs 1, .access 1,
    .getMinTs true, .updateMinTs 0, .access 0]

/-- **The threshold can be above an access**: a timestamp is allocated and announced in
different steps. -/
theorem minTs_above_access : ∃ s, (machine 4).run lateAnnouncement = some s ∧ ¬ Safe s.log := by
  have hrun : ((machine 4).run lateAnnouncement).map State.log = some
      [.accessed 0 5, .returned 6, .accessed 1 6] := by
    decide +kernel
  obtain ⟨s, hs, hlog⟩ := map_eq_some_iff.mp hrun
  refine ⟨s, hs, fun hsafe => ?_⟩
  have hle := hsafe [] 0 5 _ hlog 6 mem_cons_self
  omega

end

end TxnTable

end Deneva
