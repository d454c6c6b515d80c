import Deneva.FrameworkRegistry

/-!
# The writes that replicas get (`framework/replication.cpp`, `row.h`, `content.h`, `node.cpp`)

A framework that commits a transaction of its own sends the transaction object with
`REPLICATE_WRITES` to its replication targets, which keep the contents of its write set. The write
set is emptied later, by `finish`, so it is in the message. What is in an archive, though, is what
the `serialize` functions name: that of `row_t` leaves out `data` and `tuple_size`, and that of
`table_t` names nothing.
-/

namespace Deneva

open List

namespace FrameworkReplication

open FrameworkRegistry (Config Node getReplicationTargets)

/-- `table_t`. -/
structure Table where
  tableId : ℕ
  deriving DecidableEq

/-- `row_t`. -/
structure Row where
  primaryKey : ℕ
  partId : ℕ
  rowId : ℕ
  table : Table
  /-- the tuple that `data` points to -/
  data : List UInt8
  tupleSize : ℕ
  deriving DecidableEq

/-- `Content`, with a pointer to a row or to what the archive has of it. -/
structure ContentOf (ρ : Type) where
  key : ℕ
  value : ρ
  deriving DecidableEq

/-- `Content`. -/
abbrev Content : Type := ContentOf Row

/-- `TransactionF`, over its contents. -/
structure TransactionOf (ρ : Type) where
  id : ℕ
  timestampStartup : ℕ
  timestampCommit : ℕ
  nodeId : ℕ
  locksDetained : List ℕ
  replicated : Bool
  validated : Bool
  finished : Bool
  readset : List (ContentOf ρ)
  writeset : List (ContentOf ρ)

/-- `TransactionF`. -/
abbrev TransactionF : Type := TransactionOf Row

/-- `MessageType`. -/
inductive MessageType : Type where
  | REPLICATE | REPLICATE_WRITES
  deriving DecidableEq

/-- `MessageF`, over its contents. -/
structure MessageOf (ρ : Type) where
  senderNodeId : ℕ
  receiverNodeId : ℕ
  type : MessageType
  transaction : TransactionOf ρ

/-- `MessageF`. -/
abbrev MessageF : Type := MessageOf Row

/-! ## Archives -/

/-- What `row_t::serialize` names; of the table nothing is named. -/
structure RowArchive where
  primaryKey : ℕ
  partId : ℕ
  rowId : ℕ
  deriving DecidableEq

/-- `row_t::serialize` to an archive. -/
def Row.serialize (r : Row) : RowArchive := ⟨r.primaryKey, r.partId, r.rowId⟩

/-- `row_t::serialize` from an archive, to a row in fresh memory. -/
def RowArchive.restore (a : RowArchive) (fresh : Row) : Row :=
  { fresh with primaryKey := a.primaryKey, partId := a.partId, rowId := a.rowId }

/-- The contents of a list, to an archive. -/
def serializeAll (cs : List Content) : List (ContentOf RowArchive) :=
  cs.map fun c => ⟨c.key, c.value.serialize⟩

/-- The contents of a list, each with a row in memory of its own. -/
def restoreAll (fresh : ℕ → Row) (as : List (ContentOf RowArchive)) : List Content :=
  as.mapIdx fun i a => ⟨a.key, a.value.restore (fresh i)⟩

/-- `serialize` of a message to an archive; it names all members of the message and its
transaction. -/
def MessageF.serialize (m : MessageF) : MessageOf RowArchive :=
  { m with transaction :=
      { m.transaction with
        readset := serializeAll m.transaction.readset,
          writeset := serializeAll m.transaction.writeset } }

/-- `serialize` of a message from an archive, in fresh memory for the rows of its sets. -/
def restoreMessage (freshReads freshWrites : ℕ → Row) (a : MessageOf RowArchive) : MessageF :=
  { a with transaction :=
      { a.transaction with
        readset := restoreAll freshReads a.transaction.readset
        writeset := restoreAll freshWrites a.transaction.writeset } }

/-! ## Commit -/

/-- `Replication::replicateResult` on the node `self`. -/
def replicateResult (self : ℕ) (t : TransactionF) (nodes : List Node) : List MessageF :=
  (nodes.filter fun target => target.id ≠ self ∧ target.isClient = false).map fun target =>
    ⟨self, target.id, .REPLICATE_WRITES, t⟩

/-- `commit` of a framework for a transaction of its own, with the messages it sends. The
concurrency manager leaves the sets alone, and that of the pessimistic framework clears the
locks. -/
def commit (C : Config) (optimistic : Bool) (ts : ℕ) (t : TransactionF) :
    TransactionF × List MessageF :=
  let t := { t with
    timestampCommit := ts
    locksDetained := if optimistic then t.locksDetained else []
    finished := true }
  (t, replicateResult t.nodeId t (getReplicationTargets C t.nodeId))

/-- `Node::addContents`: `writesDone` takes them at its front. -/
def addContents (writeset : List Content) (writesDone : List Content) : List Content :=
  writeset.foldl (fun q c => c :: q) writesDone

/-- `Communication::get`, as far as the `writesDone` of the nodes are concerned. -/
def get (writesDone : ℕ → List Content) (m : MessageF) : ℕ → List Content :=
  match m.type with
  | .REPLICATE_WRITES =>
    Function.update writesDone m.senderNodeId
      (addContents m.transaction.writeset (writesDone m.senderNodeId))
  | .REPLICATE => writesDone

/-- What the target keeps after a message has come through an archive. -/
def stored (freshReads freshWrites : ℕ → Row) (writesDone : ℕ → List Content) (m : MessageF) :
    ℕ → List Content :=
  get writesDone (restoreMessage freshReads freshWrites m.serialize)

/-- A content has come through with its row. -/
def Carried (c c' : Content) : Prop :=
  c'.value.primaryKey = c.value.primaryKey ∧ c'.value.data = c.value.data

/-- **The writes are carried**: whoever a commit sends them to keeps, in front of what it had, the
rows with their keys and data, whatever was in the memory that the rows are restored into. -/
def WritesCarried (C : Config) (optimistic : Bool) (ts : ℕ) (t : TransactionF) : Prop :=
  ∀ m ∈ (commit C optimistic ts t).2, ∀ freshReads freshWrites writesDone, ∃ new : List Content,
    stored freshReads freshWrites writesDone m t.nodeId = new.reverse ++ writesDone t.nodeId ∧
      List.Forall₂ Carried t.writeset new

theorem addContents_eq (writeset writesDone : List Content) :
    addContents writeset writesDone = writeset.reverse ++ writesDone := by
  induction writeset generalizing writesDone with
  | nil => rfl
  | cons c cs ih =>
    rw [addContents, foldl_cons, reverse_cons, append_assoc]
    exact ih (c :: writesDone)

variable {C : Config} {optimistic : Bool} {ts : ℕ} {t : TransactionF} {m : MessageF}

section

variable (hm : m ∈ (commit C optimistic ts t).2)

include hm

/-- The messages of a commit have the write set. -/
theorem mem_commit :
    m.senderNodeId = t.nodeId ∧ m.type = .REPLICATE_WRITES ∧
      m.transaction.writeset = t.writeset := by
  obtain ⟨target, -, rfl⟩ := List.mem_map.mp hm
  exact ⟨rfl, rfl, rfl⟩

/-- What the target has got. -/
theorem stored_eq (freshReads freshWrites : ℕ → Row) (writesDone : ℕ → List Content) :
    stored freshReads freshWrites writesDone m t.nodeId =
      (restoreAll freshWrites (serializeAll t.writeset)).reverse ++ writesDone t.nodeId := by
  obtain ⟨hsender, htype, hwrites⟩ := mem_commit hm
  have htype' : (restoreMessage freshReads freshWrites m.serialize).type = .REPLICATE_WRITES :=
    htype
  rw [stored, get, htype']
  simp only []
  rw [show (restoreMessage freshReads freshWrites m.serialize).senderNodeId = t.nodeId from hsender,
    Function.update_self, addContents_eq]
  congr 2
  exact congrArg (fun cs => restoreAll freshWrites (serializeAll cs)) hwrites

/-- **The keys are carried**, whatever was in the memory of the new rows. -/
theorem keys_carried (freshReads freshWrites : ℕ → Row) (writesDone : ℕ → List Content) :
    ∃ new : List Content,
      stored freshReads freshWrites writesDone m t.nodeId = new.reverse ++ writesDone t.nodeId ∧
      new.map (fun c => (c.key, c.value.primaryKey)) =
        t.writeset.map fun c => (c.key, c.value.primaryKey) := by
  refine ⟨_, stored_eq hm freshReads freshWrites writesDone, ?_⟩
  apply ext_getElem
  · simp [restoreAll, serializeAll]
  · intro i h₁ h₂
    simp [restoreAll, serializeAll, RowArchive.restore, Row.serialize]

end

/-- A commit sends nothing exactly if its only target is a client or its own node. -/
theorem commit_eq_nil_iff : (commit C optimistic ts t).2 = [] ↔
    ∀ target ∈ getReplicationTargets C t.nodeId, target.id = t.nodeId ∨ target.isClient = true := by
  simp only [commit, replicateResult, map_eq_nil_iff, filter_eq_nil_iff, decide_eq_true_eq,
    not_and_or, not_not, Bool.not_eq_false]

/-- **Only an empty write set is carried.** Where a commit has anybody to send its writes to, the
target has the rows with their keys and data in every case exactly if there are none. `serialize` of
a row leaves out its data, so that the replica keeps whatever its memory held. -/
theorem carried_iff (C : Config) (optimistic : Bool) (ts : ℕ) (t : TransactionF) :
    WritesCarried C optimistic ts t ↔ t.writeset = [] ∨
      ∀ target ∈ getReplicationTargets C t.nodeId, target.id = t.nodeId ∨
      target.isClient = true := by
  rw [← @commit_eq_nil_iff C optimistic ts t]
  constructor
  · intro h
    by_contra hnot
    obtain ⟨hwrites, hmsgs⟩ := not_or.mp hnot
    obtain ⟨m, hm⟩ := exists_mem_of_ne_nil _ hmsgs
    obtain ⟨c, cs, hcs⟩ := exists_cons_of_ne_nil hwrites
    -- the memory has a longer tuple than the first row
    let fresh : Row := ⟨0, 0, 0, ⟨0⟩, 0 :: c.value.data, 0⟩
    obtain ⟨new, hnew, hall⟩ := h m hm (fun _ => fresh) (fun _ => fresh) fun _ => []
    rw [stored_eq hm, append_nil, append_nil] at hnew
    rw [← reverse_injective hnew, hcs] at hall
    rw [serializeAll, map_cons, restoreAll, mapIdx_cons, forall₂_cons] at hall
    have hdata : 0 :: c.value.data = c.value.data := hall.1.2
    exact absurd (congrArg List.length hdata) (by simp)
  · rintro (hwrites | hmsgs) m hm freshReads freshWrites writesDone
    · refine ⟨[], ?_, ?_⟩
      · rw [stored_eq hm, hwrites]
        rfl
      · rw [hwrites]
        exact .nil
    · rw [hmsgs] at hm
      cases hm

/-- Two servers and a client. -/
def twoServers : Config := ⟨2, 1, 0⟩

/-- A transaction of server 0 that has written 7 into row 5. -/
def oneWrite : TransactionF :=
  ⟨0, 1, 0, 0, [5], false, false, false, [], [⟨5, ⟨5, 0, 0, ⟨0⟩, [7], 1⟩⟩]⟩

/-- Memory with nothing in it. -/
def zeroed (_ : ℕ) : Row := ⟨0, 0, 0, ⟨0⟩, [], 0⟩

/-- **A replica gets a key without its data**: server 1 keeps a row with key 5 and no data. -/
theorem not_carried_oneWrite :
    (commit twoServers false 2 oneWrite).2.map (fun m => m.receiverNodeId) = [1] ∧
      (∀ m ∈ (commit twoServers false 2 oneWrite).2,
        (stored zeroed zeroed (fun _ => []) m 0).map
      (fun c => (c.key, c.value.primaryKey, c.value.data)) =
          [(5, 5, [])]) ∧ ¬ WritesCarried twoServers false 2 oneWrite := by
  refine ⟨by decide, by decide, fun h => ?_⟩
  obtain ⟨new, hnew, hall⟩ := h _ mem_cons_self zeroed zeroed fun _ => []
  obtain ⟨c, rfl⟩ : ∃ c, new = [c] := length_eq_one_iff.mp hall.length_eq.symm
  have hdata : c.value.data = [7] := (forall₂_cons.mp hall).1.2
  have hkept := congrArg (List.map fun c : Content => c.value.data) hnew
  simp only [reverse_singleton, append_nil, map_cons, map_nil, hdata] at hkept
  exact absurd hkept (by decide)

end FrameworkReplication

end Deneva
