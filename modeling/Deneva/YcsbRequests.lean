import Deneva.Attempt
import Deneva.YcsbLoader

/-!
# Each YCSB request runs once, at its owner (`benchmarks/ycsb_txn.cpp`)

Which node a request belongs to is decided twice. `is_local_request` asks for the node of the key's
partition, `GET_NODE_ID(key_to_part(key))`; `send_remote_request` and `copy_remote_requests` address
`GET_NODE_ID(key)`. The two agree for all keys exactly if the nodes divide the partitions evenly.
Otherwise there is a key whose requests the node at `GET_NODE_ID(key)` would send to itself, and
`MessageQueue::enqueue` asserts that it does not (`not_completes`).

A request needs its row in the index of its node, and `get_row` has to come back from the framework
there, which looks the transaction up and goes on looking until it is there. Both depend on the rest
of the system and are given with the attempt (`Env`).
-/

namespace Deneva

open Function List Option Attempt Attempt.State

namespace Ycsb

open Protocol

/-- What an attempt finds at the nodes. -/
structure Env where
  /-- the keys in the index of a node -/
  loaded : ℕ → ℕ → Bool
  /-- the keys for which the framework of a node comes back: its `getTransaction` finds the
  transaction, and nobody keeps its `read` or `write` waiting -/
  back : ℕ → ℕ → Bool

/-- `get_row` calls the framework where a row is read or written. Where the transaction is not
known, `getTransaction` calls itself again and again. -/
def Env.blocks (E : Env) (node : ℕ) (req : Request) : Bool :=
  (req.acctype = .RD || req.acctype = .WR) && !E.back node req.key

/-- The node that owns the key has the row, and its framework comes back. -/
def Env.Serves (N : Cluster) (E : Env) (req : Request) : Prop :=
  ∀ node, isLocalRequest N node req = true →
    E.loaded node req.key = true ∧ E.blocks node req = false

/-- The requests are of a kind that `run_ycsb_1` knows, and are served at their nodes. -/
def Env.ServesAll (N : Cluster) (E : Env) (requests : List Request) : Prop :=
  ∀ req ∈ requests, (runYcsb1 req.acctype).isSome = true ∧ E.Serves N req

/-- `run_txn_state`, which may not come back from the framework. -/
def runTxnStateIn (N : Cluster) (E : Env) (node : ℕ) (isLocal : Bool) (t : Txn) (a : Answer) :
    Option (RC × Txn × Option (ℕ × List Request)) :=
  match t.state, t.requests[t.nextRecordId]? with
  | .YCSB_0, some req =>
    if isLocalRequest N node req && E.blocks node req then none
    else runTxnState N node isLocal t a
  | _, _ => runTxnState N node isLocal t a

/-- YCSB over what each node has executed: `run_ycsb_1` works on the row of its request. -/
def program (N : Cluster) (E : Env) : Attempt.Program Txn (List Request) (ℕ → List Request) where
  W := { workload N with runTxnState := runTxnStateIn N E }
  lookup node t _ := (t.requests[t.nextRecordId]?.all fun req => E.loaded node req.key, 0)
  effect node t executed :=
    match t.state, t.requests[t.nextRecordId]? with
    | .YCSB_1, some req => update executed node (executed node ++ [req])
    | _, _ => executed

/-- An attempt of a query at its home node; the managers of the other nodes are fresh. -/
def setup (N : Cluster) (home : ℕ) (requests : List Request) :
    Attempt.Setup Txn (ℕ → List Request) where
  home := home
  mgr node := if node = home then ⟨.YCSB_0, 0, requests⟩ else (workload N).init
  data _ := []

/-- The attempts of a query. -/
abbrev machine (N : Cluster) (E : Env) (home : ℕ) (requests : List Request) :
    Machine (Attempt.State Txn (List Request) (ℕ → List Request)) Attempt.Action :=
  Attempt.machine (program N E) (setup N home requests)

/-- The state of an attempt: managers, where it is, and what each node has executed. -/
abbrev AttemptState := Attempt.State Txn (List Request) (ℕ → List Request)

/-- **The law**: messages go from the home node to other nodes, and when the attempt comes to its
commit each node has executed its own requests, in the order of the query. -/
structure Served (N : Cluster) (home : ℕ) (requests : List Request) (s : AttemptState) : Prop where
  /-- no message goes to the home node, and none comes from another one -/
  sent : ∀ m ∈ s.sent, m.1 = home ∧ m.2 ≠ home
  /-- what each node has executed at the end -/
  executed : s.pos = .done → ∀ node, s.data node = requests.filter (isLocalRequest N node)

/-! ## One state of the state machine -/

section

variable {N : Cluster} {node : ℕ} {isLocal : Bool} {t t' : Txn} {a : Answer}

/-- A state that comes back does what it does. -/
theorem stateStep_of_runTxnStateIn {E : Env} {rc : RC} {out : Option (ℕ × List Request)}
    (h : runTxnStateIn N E node isLocal t a = some (rc, t', out)) :
    ∃ req, t.requests[t.nextRecordId]? = some req ∧
      StateStep N node isLocal t a req rc t' out := by
  refine runTxnState_cases ?_
  unfold runTxnStateIn at h
  split at h
  · exact (ite_none_left_eq_some.mp h).2
  · exact h

/-- A message takes at least the request it is sent for. -/
theorem copyRemoteRequests_ne_nil {req : Request} (hreq : t.requests[t.nextRecordId]? = some req)
    (hloc : isLocalRequest N node req = false) :
    copyRemoteRequests N node t (N.getNodeId req.key) ≠ [] := by
  have hlt := (List.getElem?_eq_some_iff.mp hreq).1
  have hget := (List.getElem?_eq_some_iff.mp hreq).2
  rw [copyRemoteRequests, drop_eq_getElem_cons hlt, hget, takeWhile_cons]
  simp [hloc]

/-- The requests of a message come next in the query. -/
theorem take_add_copyRemoteRequests (dest : ℕ) :
    t.requests.take (t.nextRecordId + (copyRemoteRequests N node t dest).length) =
      t.requests.take t.nextRecordId ++ copyRemoteRequests N node t dest := by
  rw [take_add]
  congr 1
  symm
  exact List.prefix_iff_eq_take.mp <| takeWhile_prefix _

end

/-! ## The invariant of an attempt -/

/-- The requests that are on their way to a node. -/
def pending (s : AttemptState) (node : ℕ) : List Request :=
  match s.pos with
  | .rqry _ dest reqs => if dest = node then reqs else []
  | _ => []

/-- A manager in `run_txn`: while it has a row, that is the row of a request of the node. -/
def AtWork (N : Cluster) (home node : ℕ) (t : Txn) : Prop :=
  match t.state with
  | .YCSB_0 => True
  | .YCSB_1 => ∃ req, t.requests[t.nextRecordId]? = some req ∧ isLocalRequest N node req = true
  | .YCSB_FIN => node = home ∧ t.nextRecordId = t.requests.length

/-- What holds where the attempt is. -/
def Here (N : Cluster) (home : ℕ) (s : AttemptState) : Prop :=
  match s.pos with
  | .run node => AtWork N home node (s.mgr node) ∧ (node ≠ home → s.returnId node = home)
  | .wait node => (s.mgr node).state = .YCSB_0 ∧ (node ≠ home → s.returnId node = home) ∧
      ∃ req, (s.mgr node).requests[(s.mgr node).nextRecordId]? = some req ∧
        isLocalRequest N node req = true
  | .rqry src dest reqs => src = home ∧ dest ≠ home ∧ reqs ≠ []
  | .rsp dest => dest = home
  | .done => (s.mgr home).nextRecordId = (s.mgr home).requests.length

/-- **The invariant**: what the managers have been given and have executed is what the home node has
gone through of its query. -/
structure Inv (N : Cluster) (home : ℕ) (requests : List Request) (s : AttemptState) : Prop where
  /-- the home node has the query -/
  query : (s.mgr home).requests = requests
  /-- each other node has been sent, or is being sent, its requests -/
  given : ∀ node ≠ home, (s.mgr node).requests ++ pending s node =
    (requests.take (s.mgr home).nextRecordId).filter (isLocalRequest N node)
  /-- no manager has gone too far -/
  le : ∀ node, (s.mgr node).nextRecordId ≤ (s.mgr node).requests.length
  /-- what the home node has executed -/
  ranHome : s.data home = (requests.take (s.mgr home).nextRecordId).filter (isLocalRequest N home)
  /-- what another node has executed -/
  ran : ∀ node ≠ home, s.data node = (s.mgr node).requests.take (s.mgr node).nextRecordId
  /-- a node that is not at work has executed all it has -/
  idle : ∀ node ≠ home, s.pos ≠ .run node → s.pos ≠ .wait node →
    (s.mgr node).nextRecordId = (s.mgr node).requests.length ∧ (s.mgr node).state = .YCSB_0
  /-- the home node waits between two requests -/
  idleHome : s.pos ≠ .run home → s.pos ≠ .done → (s.mgr home).state = .YCSB_0
  /-- where the attempt is -/
  here : Here N home s
  /-- the messages so far -/
  sent : ∀ m ∈ s.sent, m.1 = home ∧ m.2 ≠ home

variable {N : Cluster} {E : Env} {home : ℕ} {requests : List Request} {s s' : AttemptState}

theorem inv_init : Inv N home requests (machine N E home requests).init where
  query := by simp [Attempt.machine, setup]
  given := by
    intro node hne
    simp [Attempt.machine, setup, pending, hne, workload]
  le := by
    intro node
    rcases eq_or_ne node home with rfl | hne
    · simp [Attempt.machine, setup]
    · simp [Attempt.machine, setup, hne, workload]
  ranHome := by simp [Attempt.machine, setup]
  ran := by
    intro node hne
    simp [Attempt.machine, setup, hne, workload]
  idle := by
    intro node hne _ _
    simp [Attempt.machine, setup, hne, workload]
  idleHome := by simp [Attempt.machine, setup]
  here := by simp [Here, Attempt.machine, setup, AtWork]
  sent := by simp [Attempt.machine]

/-- When the attempt comes to its commit, everything has been executed. -/
theorem Inv.served (hI : Inv N home requests s) : Served N home requests s where
  sent := hI.sent
  executed := by
    intro hdone node
    have hall : (s.mgr home).nextRecordId = requests.length := by
      have := hI.here
      simp only [Here, hdone, hI.query] at this
      exact this
    rcases eq_or_ne node home with rfl | hne
    · rw [hI.ranHome, hall, take_length]
    · have hgiven := hI.given node hne
      have hidle := hI.idle node hne (by simp [hdone]) (by simp [hdone])
      rw [hall, take_length] at hgiven
      rw [hI.ran node hne, hidle.1, take_length, ← hgiven]
      simp [pending, hdone]

variable {node : ℕ} {req : Request} {t : Txn}

/-- A request belongs to one node. -/
theorem isLocalRequest_unique {node' : ℕ} (h : isLocalRequest N node req = true)
    (h' : isLocalRequest N node' req = true) : node = node' := by
  simp only [isLocalRequest, decide_eq_true_eq] at h h'
  rw [← h, h']

/-- The requests a node other than the home node has are its own. -/
theorem Inv.isLocalRequest (hI : Inv N home requests s) (hne : node ≠ home)
    (hreq : req ∈ (s.mgr node).requests) : isLocalRequest N node req = true := by
  have hmem : req ∈ (s.mgr node).requests ++ pending s node := mem_append_left _ hreq
  rw [hI.given node hne] at hmem
  exact (mem_filter.mp hmem).2

/-! ## The steps keep it -/

/-- The requests and the position of a manager, when another manager of the same requests and
position takes its place. -/
theorem setMgr_same (hreq : t.requests = (s.mgr node).requests)
    (hnext : t.nextRecordId = (s.mgr node).nextRecordId) (n : ℕ) :
    ((s.setMgr node t).mgr n).requests = (s.mgr n).requests ∧
      ((s.setMgr node t).mgr n).nextRecordId = (s.mgr n).nextRecordId := by
  rcases eq_or_ne n node with rfl | hne
  · simp [hreq, hnext]
  · simp [setMgr_of_ne hne]

/-- The manager after it has executed a request. -/
theorem nextYcsbState_executed (hst : t.state = .YCSB_1) (isLocal : Bool) :
    (nextYcsbState isLocal t).requests = t.requests ∧
      (nextYcsbState isLocal t).nextRecordId = t.nextRecordId + 1 ∧
      ((nextYcsbState isLocal t).state = .YCSB_0 ∨
        (nextYcsbState isLocal t).state = .YCSB_FIN ∧ isLocal = true ∧
          t.nextRecordId + 1 = t.requests.length) := by
  simp only [nextYcsbState, hst]
  split_ifs with h
  · simp
  · simp only [isDone, Bool.or_eq_true, Bool.not_eq_true', not_or, Bool.not_eq_false,
      decide_eq_true_eq] at h
    simp [h]

/-- Only the home node comes to the last state. -/
theorem atWork_nextYcsbState (hst : t.state = .YCSB_1) {isLocal : Bool}
    (hlocal : isLocal = true → node = home) : AtWork N home node (nextYcsbState isLocal t) := by
  obtain ⟨hreqs, hnext, h0 | ⟨h1, h2, h3⟩⟩ := nextYcsbState_executed hst isLocal
  · simp only [AtWork, h0]
  · simp only [AtWork, h1, hreqs, hnext]
    exact ⟨hlocal h2, h3⟩

theorem take_succ_of_getElem? {l : List Request} {n : ℕ} (h : l[n]? = some req) :
    l.take (n + 1) = l.take n ++ [req] := by
  rw [take_add_one, h]
  rfl

section

variable (hI : Inv N home requests s)

include hI

/-- A step that moves no request. -/
theorem Inv.of_same
    (hsame : ∀ n, (s'.mgr n).requests = (s.mgr n).requests ∧
      (s'.mgr n).nextRecordId = (s.mgr n).nextRecordId)
    (hdata : s'.data = s.data) (hpend : ∀ n, pending s' n = pending s n)
    (hidle : ∀ node ≠ home, s'.pos ≠ .run node → s'.pos ≠ .wait node →
      (s'.mgr node).nextRecordId = (s'.mgr node).requests.length ∧ (s'.mgr node).state = .YCSB_0)
    (hhome : s'.pos ≠ .run home → s'.pos ≠ .done → (s'.mgr home).state = .YCSB_0)
    (hhere : Here N home s') (hsent : s'.sent = s.sent) : Inv N home requests s' where
  query := by rw [(hsame _).1, hI.query]
  given := by
    intro node hne
    rw [(hsame _).1, hpend, (hsame _).2, hI.given node hne]
  le := by
    intro node
    rw [(hsame _).1, (hsame _).2]
    exact hI.le node
  ranHome := by rw [hdata, (hsame _).2, hI.ranHome]
  ran := by
    intro node hne
    rw [hdata, (hsame _).1, (hsame _).2, hI.ran node hne]
  idle := hidle
  idleHome := hhome
  here := hhere
  sent := by
    rw [hsent]
    exact hI.sent

/-- `run_ycsb_0` has its row, at once or after it has waited. -/
theorem Inv.hasRow (hpos : s.pos = .run node ∨ s.pos = .wait node)
    (hret : node ≠ home → s.returnId node = home)
    (hreq : (s.mgr node).requests[(s.mgr node).nextRecordId]? = some req)
    (hloc : Ycsb.isLocalRequest N node req = true) :
    Inv N home requests
      { s.setMgr node { s.mgr node with state := .YCSB_1 } with pos := .run node } := by
  have hold : ∀ n ≠ node, s.pos ≠ .run n ∧ s.pos ≠ .wait n ∧ s.pos ≠ .done := by
    intro n hn
    rcases hpos with hpos | hpos <;> simp [hpos, hn.symm]
  refine hI.of_same (setMgr_same rfl rfl) rfl (fun n => ?_) ?_ ?_ ?_ rfl
  · rcases hpos with hpos | hpos <;> simp [pending, hpos]
  · intro n hne hrun _
    have hn : n ≠ node := fun h => hrun (by rw [h])
    simpa only [setMgr_of_ne hn] using hI.idle n hne (hold n hn).1 (hold n hn).2.1
  · intro hrun _
    have hn : home ≠ node := fun h => hrun (by rw [h])
    simpa only [setMgr_of_ne hn] using hI.idleHome (hold home hn).1 (hold home hn).2.2
  · simp only [Here, setMgr_self]
    exact ⟨⟨req, hreq, hloc⟩, hret⟩

section

variable (hpos : s.pos = .run node)

include hpos

theorem Inv.at_run : AtWork N home node (s.mgr node) ∧ (node ≠ home → s.returnId node = home) := by
  have := hI.here
  simpa only [Here, hpos] using this

/-- A row is waited for. -/
theorem Inv.waits (hreq : (s.mgr node).requests[(s.mgr node).nextRecordId]? = some req)
    (hst : (s.mgr node).state = .YCSB_0) (hloc : Ycsb.isLocalRequest N node req = true) :
    Inv N home requests { s with pos := .wait node } := by
  refine hI.of_same (fun n => ⟨rfl, rfl⟩) rfl ?_ ?_ ?_
    ⟨hst, (hI.at_run hpos).2, req, hreq, hloc⟩ rfl
  · simp [pending, hpos]
  · intro n hne hrun hwait
    have hn : n ≠ node := fun h => hwait (by rw [h])
    exact hI.idle n hne (by simpa [hpos] using hn.symm) (by simp [hpos])
  · intro _ _
    rcases eq_or_ne node home with rfl | hne
    · exact hst
    · exact hI.idleHome (by simpa [hpos] using hne) (by simp [hpos])

/-- A request has been executed. -/
theorem Inv.executed (hreq : (s.mgr node).requests[(s.mgr node).nextRecordId]? = some req)
    (hst : (s.mgr node).state = .YCSB_1) (hreqs : t.requests = (s.mgr node).requests)
    (hnext : t.nextRecordId = (s.mgr node).nextRecordId + 1) (hwork : AtWork N home node t) :
    Inv N home requests
      { s.setMgr node t with data := update s.data node (s.data node ++ [req]) } := by
  have hhere := hI.here
  simp only [Here, hpos, AtWork, hst] at hhere
  obtain ⟨⟨req', hreq', hloc⟩, hret⟩ := hhere
  obtain rfl : req' = req := some.inj (hreq'.symm.trans hreq)
  have hlt := (List.getElem?_eq_some_iff.mp hreq).1
  have hpend : ∀ n, pending s n = [] := by
    intro n
    simp [pending, hpos]
  have hle : ∀ n, ((s.setMgr node t).mgr n).nextRecordId ≤
      ((s.setMgr node t).mgr n).requests.length := by
    intro n
    rcases eq_or_ne n node with rfl | hn
    · rw [setMgr_self, hreqs, hnext]
      exact hlt
    · simpa [setMgr, hn] using hI.le n
  have hhere' : Here N home
      { s.setMgr node t with data := update s.data node (s.data node ++ [req']) } := by
    simp only [Here, setMgr, hpos, update_self]
    exact ⟨hwork, hret⟩
  rcases eq_or_ne node home with rfl | hne
  · -- at the home node: what it has gone through grows by a request of its own
    have hq : requests[(s.mgr node).nextRecordId]? = some req' := hI.query ▸ hreq
    exact {
      query := by simp [hreqs, hI.query]
      given := by
        intro n hn
        have hother : ¬ Ycsb.isLocalRequest N n req' = true :=
          fun h => hn (isLocalRequest_unique h hloc)
        have hgiven := hI.given n hn
        rw [hpend, append_nil] at hgiven
        simp [pending, setMgr, hpos, hn, hnext, take_succ_of_getElem? hq, hother, hgiven]
      le := hle
      ranHome := by simp [hnext, take_succ_of_getElem? hq, hloc, hI.ranHome]
      ran := by
        intro n hn
        simpa [setMgr, hn] using hI.ran n hn
      idle := by
        intro n hn hrun hwait
        simpa [setMgr, hn] using hI.idle n hn hrun hwait
      idleHome := fun hrun _ => absurd hpos hrun
      here := hhere'
      sent := hI.sent }
  · exact {
      query := by simp [setMgr, hne.symm, hI.query]
      given := by
        intro n hn
        have hgiven := hI.given n hn
        rw [hpend, append_nil] at hgiven
        rcases eq_or_ne n node with rfl | hnn
        · simp [pending, setMgr, hpos, hreqs, hne.symm, hgiven]
        · simp [pending, setMgr, hpos, hnn, hne.symm, hgiven]
      le := hle
      ranHome := by simpa [setMgr, hne.symm] using hI.ranHome
      ran := by
        intro n hn
        rcases eq_or_ne n node with rfl | hnn
        · simp [hreqs, hnext, take_succ_of_getElem? hreq, hI.ran n hn]
        · simpa [setMgr, hnn] using hI.ran n hn
      idle := by
        intro n hn hrun hwait
        have hnn : n ≠ node := fun h => hrun (h ▸ hpos)
        simpa [setMgr, hnn] using hI.idle n hn hrun hwait
      idleHome := by
        intro hrun hdone
        simpa [setMgr, hne.symm] using hI.idleHome hrun hdone
      here := hhere'
      sent := hI.sent }

/-- `run_txn` ends at a node. -/
theorem Inv.ended (hdone : isDone (s.mgr node) = true) :
    Inv N home requests
      { s with pos := if node = home then .done else .rsp (s.returnId node) } := by
  have hall : (s.mgr node).nextRecordId = (s.mgr node).requests.length := of_decide_eq_true hdone
  obtain ⟨hwork, hret⟩ := hI.at_run hpos
  refine hI.of_same (fun n => ⟨rfl, rfl⟩) rfl ?_ ?_ ?_ ?_ rfl
  case refine_1 =>
    intro n
    simp only [pending, hpos]
    split_ifs <;> rfl
  case refine_2 =>
    intro n hn hrun hwait
    rcases eq_or_ne n node with rfl | hnn
    · refine ⟨hall, ?_⟩
      cases hst : (s.mgr n).state with
      | YCSB_0 => rfl
      | YCSB_1 =>
        simp only [AtWork, hst] at hwork
        obtain ⟨req, hreq, -⟩ := hwork
        rw [hall, getElem?_length] at hreq
        cases hreq
      | YCSB_FIN =>
        simp only [AtWork, hst] at hwork
        exact absurd hwork.1 hn
    · exact hI.idle n hn (by simpa [hpos] using hnn.symm) (by simp [hpos])
  case refine_3 =>
    intro _ hnd
    have hne : node ≠ home := fun h => hnd (if_pos h)
    exact hI.idleHome (by simpa [hpos] using hne) (by simp [hpos])
  case refine_4 =>
    split_ifs with h
    · subst h
      exact hall
    · exact hret h

end

/-- The message arrives. -/
theorem Inv.received {src dest : ℕ} {reqs : List Request} (hpos : s.pos = .rqry src dest reqs) :
    Inv N home requests
      { s.setMgr dest { s.mgr dest with requests := (s.mgr dest).requests ++ reqs } with
        pos := .run dest, returnId := update s.returnId dest src } := by
  have hhere := hI.here
  simp only [Here, hpos] at hhere
  obtain ⟨rfl, hne, -⟩ := hhere
  have hidle := fun n hn => hI.idle n hn (by simp [hpos]) (by simp [hpos])
  exact {
    query := by simp [setMgr, hne.symm, hI.query]
    given := by
      intro n hn
      have hgiven := hI.given n hn
      rcases eq_or_ne n dest with rfl | hnn
      · simpa [pending, setMgr, hpos, hne.symm] using hgiven
      · simpa [pending, setMgr, hpos, hne.symm, hnn, hnn.symm] using hgiven
    le := by
      intro n
      rcases eq_or_ne n dest with rfl | hnn
      · simp only [setMgr_self, length_append]
        exact (hI.le n).trans (Nat.le_add_right _ _)
      · simpa [setMgr, hnn] using hI.le n
    ranHome := by simpa [setMgr, hne.symm] using hI.ranHome
    ran := by
      intro n hn
      rcases eq_or_ne n dest with rfl | hnn
      · simp only [setMgr_self]
        rw [take_append_of_le_length (hI.le n)]
        exact hI.ran n hn
      · simpa [setMgr, hnn] using hI.ran n hn
    idle := by
      intro n hn hrun _
      have hnn : n ≠ dest := fun h => hrun (by rw [h])
      simpa [setMgr, hnn] using hidle n hn
    idleHome := by
      intro _ _
      simpa [setMgr, hne.symm] using hI.idleHome (by simp [hpos]) (by simp [hpos])
    here := by
      simp only [Here, setMgr, update_self, AtWork, (hidle dest hne).2]
      exact ⟨trivial, fun _ => trivial⟩
    sent := hI.sent }

/-- The response arrives. -/
theorem Inv.answered (hpos : s.pos = .rsp home) :
    Inv N home requests { s with pos := .run home } := by
  refine hI.of_same (fun n => ⟨rfl, rfl⟩) rfl ?_ ?_ (fun h => absurd rfl h) ?_ rfl
  · simp [pending, hpos]
  · intro n hn _ _
    exact hI.idle n hn (by simp [hpos]) (by simp [hpos])
  · have hst := hI.idleHome (by simp [hpos]) (by simp [hpos])
    simp only [Here, AtWork, hst]
    exact ⟨trivial, fun h => absurd rfl h⟩

end

/-- A manager that is not done has not come to its last state. -/
theorem AtWork.ne_fin (h : AtWork N home node t) (hdone : isDone t = false) :
    t.state ≠ .YCSB_FIN := by
  intro hst
  simp only [AtWork, hst] at h
  simp [isDone, h.2] at hdone

section

variable (hN : N.nodeCnt ∣ N.partCnt)

include hN

/-- A request that is not local is not addressed to the node itself. -/
theorem getNodeId_ne (hloc : isLocalRequest N node req = false) : N.getNodeId req.key ≠ node := by
  intro h
  rw [(isLocalRequest_iff hN req).mpr h] at hloc
  cases hloc

/-- The home node sends the requests that come next. -/
theorem Inv.sends (hI : Inv N home requests s) (hpos : s.pos = .run home)
    (hreq : (s.mgr home).requests[(s.mgr home).nextRecordId]? = some req)
    (hst : (s.mgr home).state = .YCSB_0)
    (hloc : Ycsb.isLocalRequest N home req = false) {dest : ℕ} (hdest : dest = N.getNodeId req.key)
    {reqs : List Request} (hreqs : reqs = copyRemoteRequests N home (s.mgr home) dest) :
    Inv N home requests
      { s.setMgr home
        { s.mgr home with nextRecordId := (s.mgr home).nextRecordId + reqs.length } with
        pos := .rqry home dest reqs, sent := s.sent ++ [(home, dest)] } := by
  have hne : dest ≠ home := hdest ▸ getNodeId_ne hN hloc
  have hown : ∀ r ∈ reqs, Ycsb.isLocalRequest N dest r = true := by
    intro r hr
    exact (isLocalRequest_iff hN r).mpr (mem_copyRemoteRequests (hreqs ▸ hr))
  -- of what is sent, each node but the receiver owns nothing
  have hfilter : ∀ n, reqs.filter (Ycsb.isLocalRequest N n) = if dest = n then reqs else [] := by
    intro n
    split_ifs with h
    · subst h
      exact List.filter_eq_self.mpr hown
    · exact List.filter_eq_nil_iff.mpr fun r hr hn => h (isLocalRequest_unique (hown r hr) hn)
  have htake : requests.take ((s.mgr home).nextRecordId + reqs.length) =
      requests.take (s.mgr home).nextRecordId ++ reqs := by
    rw [← hI.query, hreqs]
    exact take_add_copyRemoteRequests dest
  have hpend : ∀ n, pending s n = [] := by
    intro n
    simp [pending, hpos]
  exact {
    query := by simp [hI.query]
    given := by
      intro n hn
      have hgiven := hI.given n hn
      rw [hpend, append_nil] at hgiven
      simp [pending, setMgr, hn, htake, hfilter, hgiven]
    le := by
      intro n
      rcases eq_or_ne n home with rfl | hn
      · simp only [setMgr_self]
        have hlen : reqs.length ≤ ((s.mgr n).requests.drop (s.mgr n).nextRecordId).length :=
          hreqs ▸ (takeWhile_sublist _).length_le
        have := hI.le n
        rw [length_drop] at hlen
        omega
      · simpa [setMgr, hn] using hI.le n
    ranHome := by
      simpa [setMgr, htake, hfilter, hne] using hI.ranHome
    ran := by
      intro n hn
      simpa [setMgr, hn] using hI.ran n hn
    idle := by
      intro n hn _ _
      have := hI.idle n hn (by simpa [hpos] using hn.symm) (by simp [hpos])
      simpa [setMgr, hn] using this
    idleHome := by
      intro _ _
      simpa using hst
    here := ⟨rfl, hne, by rw [hreqs, hdest]; exact copyRemoteRequests_ne_nil hreq hloc⟩
    sent := by
      intro m hm
      rcases mem_append.mp hm with hm | hm
      · exact hI.sent m hm
      · rw [mem_singleton.mp hm]
        exact ⟨rfl, hne⟩ }

/-- Every step keeps the invariant. -/
theorem Inv.step (hI : Inv N home requests s) {a : Attempt.Action}
    (h : (machine N E home requests).step s a = some s') : Inv N home requests s' := by
  have hstep := step_of_eq_some h
  cases hstep with
  | ran rc node l hpos hdone hrun =>
    obtain ⟨req, hreq, hcase⟩ := stateStep_of_runTxnStateIn hrun
    cases hcase with
    | granted hst hloc =>
      have hkeep : (program N E).effect node (s.mgr node) s.data = s.data := by simp [program, hst]
      have := hI.hasRow (.inl hpos) (hI.at_run hpos).2 hreq hloc
      rw [← hpos] at this
      rw [hkeep]
      exact this
    | refused _ _ _ hne => exact absurd rfl hne
    | executed hst =>
      have hdata : (program N E).effect node (s.mgr node) s.data =
          update s.data node (s.data node ++ [req]) := by simp [program, hst, hreq]
      rw [hdata]
      obtain ⟨hreqs, hnext, -⟩ := nextYcsbState_executed hst (decide (node = home))
      exact hI.executed hpos hreq hst hreqs hnext (atWork_nextYcsbState hst of_decide_eq_true)
    | ended hst => exact absurd hst ((hI.at_run hpos).1.ne_fin hdone)
  | waits rc node l hpos hdone hrun =>
    obtain ⟨req, hreq, hcase⟩ := stateStep_of_runTxnStateIn hrun
    cases hcase with
    | refused hst hloc =>
      simp only [setMgr, update_eq_self]
      exact hI.waits hpos hreq hst hloc
  | sends rc node l dest m hpos hdone hrun =>
    obtain ⟨req, hreq, hcase⟩ := stateStep_of_runTxnStateIn hrun
    cases hcase with
    | sends hst hloc hdest hm =>
      rcases eq_or_ne node home with rfl | hne
      · exact hI.sends hN hpos hreq hst hloc hdest hm
      · -- another node has only requests of its own
        rw [hI.isLocalRequest hne (mem_of_getElem? hreq)] at hloc
        cases hloc
  | endRun node hpos hdone => exact hI.ended hpos hdone
  | resume node hpos =>
    have hhere := hI.here
    simp only [Here, hpos] at hhere
    obtain ⟨hst, hret, req, hreq, hloc⟩ := hhere
    have hnext : (program N E).W.runTxnPostWait (decide (node = home)) (s.mgr node) =
        { s.mgr node with state := .YCSB_1 } := by
      simp [program, workload, nextYcsbState, hst]
    have := hI.hasRow (.inr hpos) hret hreq hloc
    rwa [← hnext] at this
  | rqry src dest m hpos hne => exact hI.received hpos
  | rqryRsp hpos => exact hI.answered hpos

theorem Inv.of_reachable (hs : (machine N E home requests).Reachable s) : Inv N home requests s :=
  Machine.Reachable.invariant inv_init (fun _ _ _ hI h => hI.step hN h) hs

end

/-! ## Every attempt can be completed -/

/-- How far a manager is from the end of its current request. -/
def TxnState.distance : TxnState → ℕ
  | .YCSB_0 => 4
  | .YCSB_1 => 2
  | .YCSB_FIN => 1

/-- How far an attempt is from its commit, if nobody makes it wait. -/
def distance (home : ℕ) (s : AttemptState) : ℕ :=
  8 * ((s.mgr home).requests.length - (s.mgr home).nextRecordId) +
    match s.pos with
    | .run node =>
      if node = home then (s.mgr node).state.distance
      else 4 * ((s.mgr node).requests.length - (s.mgr node).nextRecordId) +
        (s.mgr node).state.distance + 2
    | .wait node =>
      if node = home then 3
      else 4 * ((s.mgr node).requests.length - (s.mgr node).nextRecordId) + 5
    | .rqry _ _ reqs => 4 * reqs.length + 7
    | .rsp _ => 5
    | .done => 0

/-- The requests a manager still has to execute. -/
def Txn.left (t : Txn) : ℕ := t.requests.length - t.nextRecordId

/-- A manager that comes nearer to its end brings the attempt nearer to its commit. -/
theorem distance_lt_of_mgr (hpos : s.pos = .run node) (hle : t.left ≤ (s.mgr node).left)
    (hlt : 4 * t.left + t.state.distance < 4 * (s.mgr node).left + (s.mgr node).state.distance)
    (executed : ℕ → List Request) :
    distance home { s.setMgr node t with data := executed } < distance home s := by
  simp only [Txn.left] at hle hlt
  rcases eq_or_ne node home with rfl | hne
  · simp only [distance, setMgr, hpos, update_self, if_true]
    omega
  · simp only [distance, setMgr, hpos, update_self, if_neg hne,
      update_of_ne hne.symm]
    omega

/-- Every manager has requests of the query. -/
theorem Inv.mem_requests (hI : Inv N home requests s)
    (hreq : req ∈ (s.mgr node).requests) : req ∈ requests := by
  rcases eq_or_ne node home with rfl | hne
  · exact hI.query ▸ hreq
  · have hmem : req ∈ (s.mgr node).requests ++ pending s node := mem_append_left _ hreq
    rw [hI.given node hne] at hmem
    exact mem_of_mem_take (mem_filter.mp hmem).1

/-- `run_txn` is granted its row, or executes its request. -/
theorem Inv.exists_ran (hI : Inv N home requests s) (hserves : E.ServesAll N requests)
    (hpos : s.pos = .run node) (hdone : isDone (s.mgr node) = false)
    (hreq : (s.mgr node).requests[(s.mgr node).nextRecordId]? = some req)
    (hloc : Ycsb.isLocalRequest N node req = true) :
    ∃ s', (machine N E home requests).step s (.runTxnState .RCOK) = some s' ∧
      distance home s' < distance home s := by
  have hlt := (List.getElem?_eq_some_iff.mp hreq).1
  cases hst : (s.mgr node).state with
  | YCSB_0 =>
    refine ⟨_,
      (Attempt.Step.ran .RCOK node { s.mgr node with state := .YCSB_1 } hpos hdone ?_).eq_some, ?_⟩
    · obtain ⟨hrow, hback⟩ :=
        (hserves req (hI.mem_requests (mem_of_getElem? hreq))).2 node hloc
      simp [program, workload, runTxnStateIn, runTxnState, hreq, hst, hloc, hrow, hback, answer,
        nextYcsbState]
    · refine distance_lt_of_mgr hpos ?_ ?_ _
      · exact le_rfl
      · simp only [Txn.left, hst, TxnState.distance]
        omega
  | YCSB_1 =>
    obtain ⟨hreqs, hnext, hstate⟩ := nextYcsbState_executed hst (decide (node = home))
    obtain ⟨rc, hrc⟩ :=
      Option.isSome_iff_exists.mp (hserves req (hI.mem_requests (mem_of_getElem? hreq))).1
    have hok : rc = .RCOK := by
      unfold runYcsb1 at hrc
      split_ifs at hrc <;> exact (some.inj hrc).symm
    refine ⟨_, (Attempt.Step.ran .RCOK node (nextYcsbState (decide (node = home)) (s.mgr node))
      hpos hdone ?_).eq_some, ?_⟩
    · simp [program, workload, setup, runTxnStateIn, runTxnState, hreq, hst, hrc, hok]
    · refine distance_lt_of_mgr hpos ?_ ?_ _
      · simp only [Txn.left, hreqs, hnext]
        omega
      · rcases hstate with h | ⟨h, -, -⟩ <;>
          simp only [Txn.left, hreqs, hnext, h, hst, TxnState.distance] <;> omega
  | YCSB_FIN => exact absurd hst ((hI.at_run hpos).1.ne_fin hdone)

/-- The home node can send the requests that come next. -/
theorem Inv.exists_sent (hN : N.nodeCnt ∣ N.partCnt) (hpos : s.pos = .run home)
    (hdone : isDone (s.mgr home) = false)
    (hreq : (s.mgr home).requests[(s.mgr home).nextRecordId]? = some req)
    (hst : (s.mgr home).state = .YCSB_0) (hloc : Ycsb.isLocalRequest N home req = false) :
    ∃ s', (machine N E home requests).step s (.runTxnState .RCOK) = some s' ∧
      distance home s' < distance home s := by
  let reqs := copyRemoteRequests N home (s.mgr home) (N.getNodeId req.key)
  have hlen : 0 < reqs.length := length_pos_iff.mpr (copyRemoteRequests_ne_nil hreq hloc)
  have hprefix : reqs.length ≤ ((s.mgr home).requests.drop (s.mgr home).nextRecordId).length :=
    (takeWhile_sublist _).length_le
  rw [length_drop] at hprefix
  refine ⟨_, (Attempt.Step.sends .RCOK home
    { s.mgr home with nextRecordId := (s.mgr home).nextRecordId + reqs.length }
    (N.getNodeId req.key) reqs hpos hdone ?_).eq_some, ?_⟩
  · simp [program, workload, runTxnStateIn, runTxnState, hreq, hst, hloc,
      getNodeId_ne hN hloc, reqs]
  · simp only [distance, setMgr, hpos, update_self, if_true, hst,
      TxnState.distance]
    omega

/-- **Progress**: where nobody makes it wait, an attempt comes nearer to its commit. -/
theorem Inv.exists_step (hN : N.nodeCnt ∣ N.partCnt) (hserves : E.ServesAll N requests)
    (hI : Inv N home requests s) (hnot : s.pos ≠ .done) :
    ∃ a s', (machine N E home requests).step s a = some s' ∧ Inv N home requests s' ∧
      distance home s' < distance home s := by
  suffices h : ∃ a s', (machine N E home requests).step s a = some s' ∧
      distance home s' < distance home s by
    obtain ⟨a, s', hs', hlt⟩ := h
    exact ⟨a, s', hs', hI.step hN hs', hlt⟩
  have hhere := hI.here
  cases hpos : s.pos with
  | run node =>
    simp only [Here, hpos] at hhere
    by_cases hdone : isDone (s.mgr node) = true
    · refine ⟨_, _, (Attempt.Step.endRun node hpos hdone).eq_some, ?_⟩
      rcases eq_or_ne node home with rfl | hne
      · simp only [distance, setup, hpos, if_true]
        cases (s.mgr node).state <;> simp [TxnState.distance]
      · have hst : (s.mgr node).state = .YCSB_0 :=
          ((hI.ended hpos hdone).idle node hne (by simp [hne]) (by simp [hne])).2
        rw [if_neg (show node ≠ (setup N home requests).home from hne)]
        simp only [distance, hpos, if_neg hne, hst, TxnState.distance]
        omega
    · have hdone := eq_false_of_ne_true hdone
      have hlt : (s.mgr node).nextRecordId < (s.mgr node).requests.length := by
        have := hI.le node
        simp only [isDone, decide_eq_false_iff_not] at hdone
        omega
      have hreq := getElem?_eq_getElem hlt
      by_cases hloc : Ycsb.isLocalRequest N node
        (s.mgr node).requests[(s.mgr node).nextRecordId] = true
      · exact ⟨_, hI.exists_ran hserves hpos hdone hreq hloc⟩
      · -- only the home node has requests of others, and it sends them before it has a row
        obtain rfl : node = home := by
          by_contra hne
          exact hloc (hI.isLocalRequest hne (getElem_mem hlt))
        refine ⟨_, Inv.exists_sent hN hpos hdone hreq ?_ (eq_false_of_ne_true hloc)⟩
        cases hst : (s.mgr node).state with
        | YCSB_0 => rfl
        | YCSB_1 =>
          simp only [AtWork, hst, hreq] at hhere
          obtain ⟨⟨req, hreq', hloc'⟩, -⟩ := hhere
          exact absurd (some.inj hreq' ▸ hloc') hloc
        | YCSB_FIN => exact absurd hst (hhere.1.ne_fin hdone)
  | wait node =>
    simp only [Here, hpos] at hhere
    refine ⟨_, _, (Attempt.Step.resume node hpos).eq_some, ?_⟩
    have hnext : (program N E).W.runTxnPostWait (decide (node = (setup N home requests).home))
      (s.mgr node) = { s.mgr node with state := .YCSB_1 } := by
      simp [program, workload, nextYcsbState, hhere.1]
    rw [hnext]
    rcases eq_or_ne node home with rfl | hne
    · simp only [distance, setMgr, hpos, update_self, if_true, TxnState.distance]
      omega
    · simp only [distance, setMgr, hpos, update_self, if_neg hne,
        update_of_ne hne.symm, TxnState.distance]
      omega
  | rqry src dest reqs =>
    simp only [Here, hpos] at hhere
    obtain ⟨rfl, hne, -⟩ := hhere
    refine ⟨_, _, (Attempt.Step.rqry src dest reqs hpos hne).eq_some, ?_⟩
    obtain ⟨hall, hst⟩ := hI.idle dest hne (by simp [hpos]) (by simp [hpos])
    simp only [distance, setMgr, hpos, update_self, if_neg hne,
      update_of_ne hne.symm, program, workload, hst, TxnState.distance, length_append]
    omega
  | rsp dest =>
    simp only [Here, hpos] at hhere
    obtain rfl := hhere
    refine ⟨_, _, (Attempt.Step.rqryRsp hpos).eq_some, ?_⟩
    have hst := hI.idleHome (by simp [hpos]) (by simp [hpos])
    simp only [distance, setup, hpos, if_true, hst, TxnState.distance]
    omega
  | done => exact absurd hpos hnot

/-- **Every attempt can be completed**, from wherever it is, if its requests are served. -/
theorem completes (hN : N.nodeCnt ∣ N.partCnt) (hserves : E.ServesAll N requests)
    (hs : (machine N E home requests).Reachable s) :
    ∃ as s', (machine N E home requests).runFrom s as = some s' ∧ s'.pos = .done := by
  obtain ⟨as, s', hrun, -, hdone⟩ :=
    Machine.exists_runFrom_of_measure
      (distance home) (fun s hI hnot => hI.exists_step hN hserves hnot) (Inv.of_reachable hN hs)
  exact ⟨as, s', hrun, hdone⟩

/-! ## The result -/

/-- **Where the two ways to find a node differ**, a node would send a request to itself: the key
`part_cnt` belongs to the first partition, but is addressed to `part_cnt % node_cnt`. The attempt
ends in the assertion of `MessageQueue::enqueue`, and never comes to its commit. -/
theorem not_completes (hN : ¬ N.nodeCnt ∣ N.partCnt) {as : List Attempt.Action}
    (hrun : (machine N E (N.partCnt % N.nodeCnt) [⟨N.partCnt, .RD⟩]).runFrom
      (machine N E (N.partCnt % N.nodeCnt) [⟨N.partCnt, .RD⟩]).init as = some s) :
    s.pos ≠ .done := by
  have hloc : isLocalRequest N (N.partCnt % N.nodeCnt) ⟨N.partCnt, .RD⟩ = false := by
    simp only [isLocalRequest, keyToPart, Cluster.getNodeId, Nat.mod_self, Nat.zero_mod,
      decide_eq_false_iff_not]
    exact fun h => hN (Nat.dvd_of_mod_eq_zero h.symm)
  -- there is no step from the initial state
  have hnone : ∀ a, (machine N E (N.partCnt % N.nodeCnt) [⟨N.partCnt, .RD⟩]).step
      (machine N E (N.partCnt % N.nodeCnt) [⟨N.partCnt, .RD⟩]).init a = none := by
    intro a
    cases a <;> simp [Attempt.machine, setup, program, workload, isDone, runTxnStateIn, runTxnState,
      hloc, Cluster.getNodeId]
  cases as with
  | nil =>
    cases hrun
    simp [Attempt.machine]
  | cons a as =>
    obtain ⟨t, ht, -⟩ := Machine.runFrom_cons.mp hrun
    rw [hnone a] at ht
    cases ht

/-- **Which clusters serve every query as they should.** Whatever is loaded and wherever the
framework comes back, every attempt of every query at every home node sends its messages from the
home node to others, executes each request once at the node that owns its key, in the order of the
query, and can be brought to its commit if its requests have their rows and the framework comes back
for them, exactly if the number of nodes divides the number of partitions. -/
theorem served_iff (N : Cluster) (hnode : 1 ≤ N.nodeCnt) :
    (∀ E, ∀ home < N.nodeCnt, ∀ requests s, (machine N E home requests).Reachable s →
      Served N home requests s ∧
        (E.ServesAll N requests →
          ∃ as s', (machine N E home requests).runFrom s as = some s' ∧ s'.pos = .done)) ↔
      N.nodeCnt ∣ N.partCnt := by
  constructor
  · intro h
    by_contra hN
    let E : Env := ⟨fun _ _ => true, fun _ _ => true⟩
    have hserves : E.ServesAll N [⟨N.partCnt, .RD⟩] := by
      intro req hreq
      rw [mem_singleton.mp hreq]
      exact ⟨rfl, fun node _ => ⟨rfl, rfl⟩⟩
    obtain ⟨as, s, hrun, hdone⟩ := (h E _ (Nat.mod_lt _ hnode) _ _ .init).2 hserves
    exact not_completes hN hrun hdone
  · intro hN E home _ requests s hs
    exact ⟨(Inv.of_reachable hN hs).served, fun hserves => completes hN hserves hs⟩

/-- What the loader puts into the indexes of a table of `size` keys; the framework has a transaction
at its home node and at the one node it is replicated to. -/
def afterLoad (N : Cluster) (size home target : ℕ) : Env where
  loaded node key := decide (key ∈ initTable N node size 1)
  back node _ := node = home || node = target

/-- Three nodes with two partitions each, of which the loader fills one: a query at node `1` over
keys that are there, at node `1` and at node `0`, where the transaction is replicated, comes to its
commit. -/
theorem served_three :
    ∃ as s', (machine ⟨3, 6⟩ (afterLoad ⟨3, 6⟩ 12 1 0) 1 [⟨1, .RD⟩, ⟨6, .WR⟩, ⟨7, .RD⟩]).runFrom
      (machine ⟨3, 6⟩ (afterLoad ⟨3, 6⟩ 12 1 0) 1 [⟨1, .RD⟩, ⟨6, .WR⟩, ⟨7, .RD⟩]).init as =
      some s' ∧
        s'.pos = .done := by
  refine ((served_iff ⟨3, 6⟩ (by decide)).mpr (by decide) _ 1 (by decide) _ _ .init).2 ?_
  have hnodes : ∀ req ∈ [(⟨1, .RD⟩ : Request), ⟨6, .WR⟩, ⟨7, .RD⟩],
      (runYcsb1 req.acctype).isSome = true ∧ (afterLoad ⟨3, 6⟩ 12 1 0).loaded
      (req.key % 3) req.key ∧
        (afterLoad ⟨3, 6⟩ 12 1 0).blocks (req.key % 3) req = false := by decide
  intro req hreq
  obtain ⟨hacc, hrow, hback⟩ := hnodes req hreq
  refine ⟨hacc, fun node hnode => ?_⟩
  rw [isLocalRequest_iff (by decide), Cluster.getNodeId] at hnode
  subst hnode
  exact ⟨hrow, hback⟩

/-- Two nodes and three partitions: key `3` belongs to node `0`, which has it and the transaction,
but node `1` addresses its request to itself, and the attempt ends there. -/
theorem not_served_two_three :
    (afterLoad ⟨2, 3⟩ 6 1 0).ServesAll ⟨2, 3⟩ [⟨3, .RD⟩] ∧
      ¬ ∃ as s', (machine ⟨2, 3⟩ (afterLoad ⟨2, 3⟩ 6 1 0) 1 [⟨3, .RD⟩]).runFrom
        (machine ⟨2, 3⟩ (afterLoad ⟨2, 3⟩ 6 1 0) 1 [⟨3, .RD⟩]).init as = some s' ∧
      s'.pos = .done := by
  constructor
  · intro req hreq
    rw [mem_singleton.mp hreq]
    refine ⟨rfl, fun node hnode => ?_⟩
    obtain rfl : 0 = node := of_decide_eq_true hnode
    decide
  · rintro ⟨as, s, hrun, hdone⟩
    exact not_completes (N := ⟨2, 3⟩) (by decide) hrun hdone

end Ycsb

end Deneva
