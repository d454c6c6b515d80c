import Deneva.Transition

/-!
# Who knows a transaction (`framework.cpp`, `group_membership.cpp`, `replication.cpp`)

Before a server works on a transaction it asks its framework for the transaction object:
`getTransaction` looks the id up in `mapOfTransactions` and calls itself again when it is not there.
An id gets into the map of a server in two ways, which are the same in both modes of the framework:

* `beginTransaction` on the home of the transaction, which also sends `REPLICATE` to the nodes that
  `getReplicationTargets` returns;
* the handling of such a message.

`getReplicationTargets` leaves its loop after the first node that is not the home. The nodes are the
servers, then the clients, then the replicas, in the order of their ids, so that one server at most
hears of a transaction; `participants_know_iff` says for which clusters that is enough.
-/

namespace Deneva

open List Option

namespace FrameworkRegistry

/-- The sizes of the cluster. -/
structure Config where
  /-- `g_node_cnt`: the servers -/
  nodeCnt : ℕ
  clientNodeCnt : ℕ
  replCnt : ℕ
  deriving DecidableEq

namespace Config

variable (C : Config)

/-- `g_total_node_cnt`. -/
def totalNodeCnt : ℕ := C.nodeCnt + C.clientNodeCnt + C.replCnt * C.nodeCnt

/-- `ISCLIENTN`. -/
def isClientN (id : ℕ) : Bool := C.nodeCnt ≤ id ∧ id < C.nodeCnt + C.clientNodeCnt

/-- `GET_NODE_ID`: the home of a transaction. -/
def getNodeId (txnId : ℕ) : ℕ := txnId % C.nodeCnt

end Config

/-- `Node`, as `GroupMembership` keeps it. -/
structure Node where
  /-- its id -/
  id : ℕ
  /-- whether it is a client -/
  isClient : Bool
  deriving DecidableEq

/-- `mapOfNodes`, in the order the map is walked. -/
def mapOfNodes (C : Config) : List Node :=
  (List.range C.totalNodeCnt).map fun id => ⟨id, C.isClientN id⟩

/-- The loop of `GroupMembership::getReplicationTargets`. -/
def targetsLoop (nodeId : ℕ) : List Node → List Node
  | [] => []
  | x :: xs => if nodeId = x.id then targetsLoop nodeId xs else [x]

/-- `GroupMembership::getReplicationTargets`. -/
def getReplicationTargets (C : Config) (nodeId : ℕ) : List Node := targetsLoop nodeId (mapOfNodes C)

/-- The part of `TransactionF` that is set when the transaction is begun. -/
structure TransactionF where
  /-- the id -/
  id : ℕ
  /-- the home -/
  nodeId : ℕ
  deriving DecidableEq

/-- A `REPLICATE` message. -/
structure MessageF where
  /-- the receiver -/
  receiverNodeId : ℕ
  /-- the transaction -/
  transaction : TransactionF
  deriving DecidableEq

/-- `Replication::replicate` on the node `self`. -/
def replicate (self : ℕ) (x : TransactionF) (nodes : List Node) : List MessageF :=
  (nodes.filter fun target => target.id ≠ self ∧ target.isClient = false).map fun target =>
    ⟨target.id, x⟩

/-- The messages of `beginTransaction` on the home of a transaction. -/
def announcements (C : Config) (txnId : ℕ) : List MessageF :=
  replicate (C.getNodeId txnId) ⟨txnId, C.getNodeId txnId⟩
    (getReplicationTargets C (C.getNodeId txnId))

/-- The maps of all nodes and the messages in flight. -/
structure State where
  /-- `mapOfTransactions` of each node -/
  mapOfTransactions : ℕ → ℕ → Option TransactionF
  /-- messages that are not yet handled -/
  net : List MessageF
  /-- the transactions begun so far (a history) -/
  begun : List ℕ
  /-- the messages sent so far (a history) -/
  sent : List MessageF

/-- What the nodes do. -/
inductive Action : Type where
  /-- `process_rtxn` for a new transaction, on its home -/
  | beginTransaction (txnId : ℕ)
  /-- `Communication::get`: a `REPLICATE` message is handled -/
  | get (message : MessageF)
  deriving DecidableEq

namespace State

/-- Nothing has happened. -/
def init : State := ⟨fun _ _ => none, [], [], []⟩

/-- `addTransaction` on a node. -/
def addTransaction (node : ℕ) (x : TransactionF) (s : State) : State :=
  let m := Function.update (s.mapOfTransactions node) x.id (some x)
  { s with mapOfTransactions := Function.update s.mapOfTransactions node m }

/-- `getTransaction` on a node; on `none` it sleeps and calls itself again. -/
def getTransaction (node txnId : ℕ) (s : State) : Option TransactionF :=
  s.mapOfTransactions node txnId

/-- `beginTransaction` on the home. -/
def beginTransaction (C : Config) (txnId : ℕ) (s : State) : State :=
  let s' := s.addTransaction (C.getNodeId txnId) ⟨txnId, C.getNodeId txnId⟩
  { s' with net := s.net ++ announcements C txnId
            begun := txnId :: s.begun
            sent := s.sent ++ announcements C txnId }

end State

/-- Transactions begin on their homes, which are servers, and messages are handled in any order. -/
def machine (C : Config) : Machine State Action where
  init := .init
  step s a :=
    match a with
    | .beginTransaction txnId =>
      if C.getNodeId txnId < C.nodeCnt ∧ txnId ∉ s.begun then some (s.beginTransaction C txnId)
      else none
    | .get m =>
      if m ∈ s.net then
        some { s.addTransaction m.receiverNodeId m.transaction with net := s.net.erase m }
      else none

/-! ## Who is told -/

/-- **Every participant knows the transaction**: to every other server a message was sent, and once
it is handled, the server finds the transaction. -/
def ParticipantsKnow (C : Config) (s : State) : Prop :=
  ∀ txnId ∈ s.begun, ∀ j < C.nodeCnt, j ≠ C.getNodeId txnId →
    ∃ m ∈ s.sent, m.receiverNodeId = j ∧ m.transaction.id = txnId ∧
      (m ∉ s.net → (s.getTransaction j txnId).isSome)

/-- A sent message is in flight, or its receiver knows the transaction. -/
def Delivered (s : State) : Prop :=
  ∀ m ∈ s.sent, m ∈ s.net ∨ (s.getTransaction m.receiverNodeId m.transaction.id).isSome

/-- Every transaction was announced. -/
def Announced (C : Config) (s : State) : Prop :=
  ∀ txnId ∈ s.begun, ∀ m ∈ announcements C txnId, m ∈ s.sent

variable {s : State} {C : Config}

/-- What is known stays known. -/
theorem State.getTransaction_addTransaction {i j txnId : ℕ} {x : TransactionF}
    (h : (s.getTransaction j txnId).isSome) :
    ((s.addTransaction i x).getTransaction j txnId).isSome := by
  rcases eq_or_ne j i with rfl | hj
  · rcases eq_or_ne txnId x.id with rfl | hid
    · simp [State.getTransaction, State.addTransaction]
    · simpa [State.getTransaction, State.addTransaction, hid] using h
  · simpa [State.getTransaction, State.addTransaction, hj] using h

theorem State.getTransaction_self (s : State) (i : ℕ) (x : TransactionF) :
    (s.addTransaction i x).getTransaction i x.id = some x := by
  simp [State.getTransaction, State.addTransaction]

/-- A message that has left the network is known to its receiver, from then on. -/
theorem delivered_step {s' : State} {a : Action} (hs : Delivered s)
    (h : (machine C).step s a = some s') : Delivered s' := by
  cases a with
  | beginTransaction txnId =>
    obtain ⟨-, h⟩ := ite_none_right_eq_some.mp h
    cases h
    intro m hm
    rcases mem_append.mp hm with hm | hm
    · exact (hs m hm).imp (mem_append_left _) (State.getTransaction_addTransaction)
    · exact .inl (mem_append_right _ hm)
  | get m₀ =>
    obtain ⟨-, h⟩ := ite_none_right_eq_some.mp h
    cases h
    intro m hm
    rcases hs m hm with hnet | hknown
    · rcases eq_or_ne m m₀ with rfl | hne
      · refine .inr ?_
        have := s.getTransaction_self m.receiverNodeId m.transaction
        exact isSome_of_eq_some this
      · exact .inl ((mem_erase_of_ne hne).mpr hnet)
    · exact .inr (State.getTransaction_addTransaction hknown)

theorem announced_step {s' : State} {a : Action} (hs : Announced C s)
    (h : (machine C).step s a = some s') : Announced C s' := by
  cases a with
  | beginTransaction txnId =>
    obtain ⟨-, h⟩ := ite_none_right_eq_some.mp h
    cases h
    intro id hid m hm
    rcases mem_cons.mp hid with rfl | hid
    · exact mem_append_right _ hm
    · exact mem_append_left _ (hs id hid m hm)
  | get m₀ =>
    obtain ⟨-, h⟩ := ite_none_right_eq_some.mp h
    cases h
    exact hs

/-- The nodes, with the first two written out. -/
theorem mapOfNodes_eq (h : 2 ≤ C.nodeCnt) :
    ∃ rest, mapOfNodes C = ⟨0, false⟩ :: ⟨1, false⟩ :: rest := by
  obtain ⟨n, hn⟩ : ∃ n, C.totalNodeCnt = n + 2 :=
    Nat.exists_eq_add_of_le' (le_trans h (by unfold Config.totalNodeCnt; omega))
  have h0 : C.isClientN 0 = false := by simp only [Config.isClientN, decide_eq_false_iff_not]; omega
  have h1 : C.isClientN 1 = false := by simp only [Config.isClientN, decide_eq_false_iff_not]; omega
  refine ⟨(List.range' 2 n).map fun id => ⟨id, C.isClientN id⟩, ?_⟩
  rw [mapOfNodes, hn, range_eq_range', range'_succ, range'_succ, map_cons,
    map_cons, h0, h1]

/-- In a cluster of two or more servers, the transactions of server `0` are announced to server `1`
only, and those of all others to server `0` only. -/
theorem announcements_eq (h : 2 ≤ C.nodeCnt) (txnId : ℕ) :
    announcements C txnId =
      [⟨if C.getNodeId txnId = 0 then 1 else 0, ⟨txnId, C.getNodeId txnId⟩⟩] := by
  obtain ⟨rest, hnodes⟩ := mapOfNodes_eq h
  rw [announcements, getReplicationTargets, hnodes]
  by_cases hz : C.getNodeId txnId = 0
  · simp [targetsLoop, replicate, hz]
  · simp [targetsLoop, replicate, hz, Ne.symm hz]

/-- In a cluster of two servers, every announcement goes to the other one. -/
theorem participantsKnow_of_le (hC : C.nodeCnt ≤ 2) (hd : Delivered s)
    (ha : Announced C s) : ParticipantsKnow C s := by
  intro txnId hid j hj hne
  have hhome : C.getNodeId txnId < C.nodeCnt := Nat.mod_lt _ (by omega)
  have h2 : 2 ≤ C.nodeCnt := by omega
  have hother : j = if C.getNodeId txnId = 0 then 1 else 0 := by split <;> omega
  have hsent : (⟨j, ⟨txnId, C.getNodeId txnId⟩⟩ : MessageF) ∈ s.sent :=
    ha txnId hid _ (by rw [announcements_eq h2, ← hother]; exact mem_singleton.mpr rfl)
  exact ⟨_, hsent, rfl, rfl, (hd _ hsent).resolve_left⟩

/-- **Who is told.** Every participant knows every transaction, in all runs, exactly in the clusters
of at most two servers. `getReplicationTargets` leaves its loop after the first node that is not the
home, so that one server at most hears of a transaction. -/
theorem participants_know_iff (C : Config) :
    (∀ s, (machine C).Reachable s → ParticipantsKnow C s) ↔ C.nodeCnt ≤ 2 := by
  constructor
  · intro hall
    by_contra hC
    have h2 : 2 ≤ C.nodeCnt := by omega
    -- server `2` is not told of the first transaction of server `0`
    have hbegin : (machine C).step .init (.beginTransaction 0) =
        some (State.init.beginTransaction C 0) := by
      refine if_pos ⟨?_, by simp [State.init]⟩
      rw [Config.getNodeId, Nat.zero_mod]
      omega
    obtain ⟨m, hm, hto, -, -⟩ := hall _ (Machine.Reachable.init.step hbegin) 0
      (mem_singleton.mpr rfl) 2 (by omega) (by rw [Config.getNodeId, Nat.zero_mod]; decide)
    have hm' : m ∈ announcements C 0 := by simpa [State.beginTransaction, State.init] using hm
    rw [announcements_eq h2, mem_singleton] at hm'
    rw [hm', Config.getNodeId, Nat.zero_mod] at hto
    exact absurd hto (by decide)
  · intro hC s hs
    have hinv : Delivered s ∧ Announced C s := Machine.Reachable.invariant
      (P := fun s => Delivered s ∧ Announced C s)
      ⟨fun _ h => absurd h not_mem_nil, fun _ h => absurd h not_mem_nil⟩
      (fun _ _ _ hs h => ⟨delivered_step hs.1 h, announced_step hs.2 h⟩) hs
    exact participantsKnow_of_le hC hinv.1 hinv.2

/-- Three servers and a client: a transaction begins on server `0`, and its only message is
handled. -/
theorem participants_unknown :
    ∃ s ∈ (machine ⟨3, 1, 0⟩).run
        [.beginTransaction 0, .get ⟨1, ⟨0, 0⟩⟩],
      0 ∈ s.begun ∧ s.net = [] ∧ s.sent = [⟨1, ⟨0, 0⟩⟩] ∧ s.getTransaction 2 0 = none := by
  decide +kernel

end FrameworkRegistry

end Deneva
