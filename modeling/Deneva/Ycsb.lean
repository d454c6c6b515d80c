import Deneva.Agreement

/-!
# YCSB (`benchmarks/ycsb_txn.cpp`)

The state machine behind `YCSBTxnManager::run_txn`. A transaction is a list of
requests; each is served in two states, and runs of requests that belong to one
other node are sent there in one `RQRY` message. When the number of partitions is
that of the nodes, or a multiple of it, the requests sent to a node all belong to it
(`confined`), so two-phase commit agrees.
-/

namespace Deneva

open List Option

namespace Ycsb

open Protocol

/-- `YCSBRemTxnType`. -/
inductive TxnState : Type where
  | YCSB_0 | YCSB_1 | YCSB_FIN
  deriving DecidableEq

/-- `ycsb_request`. -/
structure Request where
  /-- the key -/
  key : ℕ
  /-- the kind of access -/
  acctype : AccessT
  deriving DecidableEq

/-- `YCSBTxnManager`, with its query. -/
structure Txn where
  state : TxnState
  nextRecordId : ℕ
  /-- `query->requests` -/
  requests : List Request
  deriving DecidableEq

variable (N : Cluster)

/-- `key_to_part`. -/
def keyToPart (key : ℕ) : ℕ := key % N.partCnt

/-- `is_local_request`. -/
def isLocalRequest (node : ℕ) (req : Request) : Bool :=
  N.getNodeId (keyToPart N req.key) = node

/-- `is_done`. -/
def isDone (t : Txn) : Bool := t.nextRecordId = t.requests.length

/-- `next_ycsb_state`. -/
def nextYcsbState (isLocal : Bool) (t : Txn) : Txn :=
  match t.state with
  | .YCSB_0 => { t with state := .YCSB_1 }
  | .YCSB_1 =>
    let t := { t with nextRecordId := t.nextRecordId + 1 }
    if !isLocal || !isDone t then { t with state := .YCSB_0 } else { t with state := .YCSB_FIN }
  | .YCSB_FIN => t

/-- `copy_remote_requests`: the requests from the current one on that go to the same other
node. -/
def copyRemoteRequests (node : ℕ) (t : Txn) (dest : ℕ) : List Request :=
  (t.requests.drop t.nextRecordId).takeWhile fun req =>
    !isLocalRequest N node req && decide (N.getNodeId req.key = dest)

/-- `run_ycsb_1`; other kinds of access fail its assertion. -/
def runYcsb1 (acctype : AccessT) : Option RC :=
  if acctype = .RD ∨ acctype = .SCAN then some .RCOK
  else if acctype = .WR then some .RCOK
  else none

/-- `run_txn_state`, with `send_remote_request`. A key that is not in the index fails the assertion
of `index_read`, and a message to the node itself that of `MessageQueue::enqueue`. -/
def runTxnState (node : ℕ) (isLocal : Bool) (t : Txn) (a : Answer) :
    Option (RC × Txn × Option (ℕ × List Request)) :=
  match t.requests[t.nextRecordId]? with
  | none => none
  | some req =>
    match t.state with
    | .YCSB_0 =>
      if isLocalRequest N node req then
        -- run_ycsb_0
        if a.item then some (a.rc, if a.rc = .RCOK then nextYcsbState isLocal t else t, none)
        else none
      else
        let dest := N.getNodeId req.key
        let reqs := copyRemoteRequests N node t dest
        if dest = node then none
        else
          some
            (.WAIT_REM, { t with nextRecordId := t.nextRecordId + reqs.length }, some (dest, reqs))
    | .YCSB_1 => (runYcsb1 req.acctype).map fun rc => (rc, nextYcsbState isLocal t, none)
    | .YCSB_FIN => some (.RCOK, t, none)

/-- YCSB as a workload. -/
def workload : Workload Txn (List Request) where
  init := ⟨.YCSB_0, 0, []⟩
  reset t := { t with state := .YCSB_0, nextRecordId := 0 }
  resetQuery t := { t with requests := [] }
  copyToTxn reqs t := { t with requests := t.requests ++ reqs }
  firstRun t := decide (t.state = .YCSB_0 ∧ t.nextRecordId = 0)
  isDone := isDone
  runTxnState := runTxnState N
  runTxnPostWait := nextYcsbState
  readonly t := t.requests.all fun req => decide (req.acctype ≠ .WR)
  abortRemote := true

/-- A YCSB transaction with its home node. -/
def config (cc : CCAlg) (home : ℕ) (requests : List Request) : Config Txn (List Request) where
  W := workload N
  cc := cc
  nodeCnt := N.nodeCnt
  home := home
  query := ⟨.YCSB_0, 0, requests⟩

/-! ## Requests stay where they are sent -/

section

variable {N} {node : ℕ} {t t' : Txn} {a : Answer} {rc : RC} {out : Option (ℕ × List Request)}

theorem nextYcsbState_requests (isLocal : Bool) (t : Txn) :
    (nextYcsbState isLocal t).requests = t.requests := by
  unfold nextYcsbState
  split
  · rfl
  · dsimp only
    split <;> rfl
  · rfl

/-- What one state of the state machine can do with the request it is at. -/
inductive StateStep (N : Cluster) (node : ℕ) (isLocal : Bool) (t : Txn) (a : Answer)
    (req : Request) : RC → Txn → Option (ℕ × List Request) → Prop where
  | granted (hst : t.state = .YCSB_0) (hloc : isLocalRequest N node req = true)
      (hrc : a.rc = .RCOK) : StateStep N node isLocal t a req .RCOK { t with state := .YCSB_1 } none
  | refused {rc : RC} (hst : t.state = .YCSB_0) (hloc : isLocalRequest N node req = true)
      (hrc : a.rc = rc) (hne : rc ≠ .RCOK) : StateStep N node isLocal t a req rc t none
  | sends {dest : ℕ} {reqs : List Request} (hst : t.state = .YCSB_0)
      (hloc : isLocalRequest N node req = false) (hdest : dest = N.getNodeId req.key)
      (hreqs : reqs = copyRemoteRequests N node t dest) :
      StateStep N node isLocal t a req .WAIT_REM
        { t with nextRecordId := t.nextRecordId + reqs.length } (some (dest, reqs))
  | executed (hst : t.state = .YCSB_1) :
      StateStep N node isLocal t a req .RCOK (nextYcsbState isLocal t) none
  | ended (hst : t.state = .YCSB_FIN) : StateStep N node isLocal t a req .RCOK t none

theorem runTxnState_cases {isLocal : Bool}
    (h : runTxnState N node isLocal t a = some (rc, t', out)) :
    ∃ req, t.requests[t.nextRecordId]? = some req ∧
      StateStep N node isLocal t a req rc t' out := by
  unfold runTxnState at h
  rcases hreq : t.requests[t.nextRecordId]? with _ | req
  · rw [hreq] at h
    cases h
  simp only [hreq] at h
  refine ⟨req, rfl, ?_⟩
  rcases hst : t.state with _ | _ | _
  · simp only [hst] at h
    by_cases hloc : isLocalRequest N node req = true
    · simp only [if_pos hloc, ite_none_right_eq_some, some.injEq, Prod.mk.injEq] at h
      obtain ⟨-, hrc, rfl, rfl⟩ := h
      split
      next hok =>
        obtain rfl : rc = .RCOK := hrc.symm.trans hok
        simp only [nextYcsbState, hst]
        exact .granted hst hloc hrc
      next hne => exact .refused hst hloc hrc (hrc ▸ hne)
    · simp only [if_neg hloc, ite_none_left_eq_some, some.injEq, Prod.mk.injEq] at h
      obtain ⟨-, rfl, rfl, rfl⟩ := h
      rw [← hst]
      exact .sends hst (eq_false_of_ne_true hloc) rfl rfl
  · simp only [hst, map_eq_some_iff, Prod.mk.injEq] at h
    obtain ⟨rc₁, hrc, rfl, rfl, rfl⟩ := h
    obtain rfl : rc₁ = .RCOK := by
      unfold runYcsb1 at hrc
      split_ifs at hrc <;> exact (some.inj hrc).symm
    exact .executed hst
  · simp only [hst, some.injEq, Prod.mk.injEq] at h
    obtain ⟨rfl, rfl, rfl⟩ := h
    exact .ended hst

/-- The requests sent to a node are of keys of that node. -/
theorem mem_copyRemoteRequests {dest : ℕ} {req : Request}
    (h : req ∈ copyRemoteRequests N node t dest) : N.getNodeId req.key = dest := by
  have := mem_takeWhile_imp h
  simp only [Bool.and_eq_true, decide_eq_true_eq] at this
  exact this.2

/-- The codes a possible answer carries. -/
theorem rc_of_possible {cc : CCAlg} (h : Answer.possible cc a = true) :
    a.rc = .RCOK ∨ a.rc = .WAIT ∨ a.rc = .Abort := by
  unfold Answer.possible at h
  split at h
  · exact .inl ‹_›
  · exact .inr (.inr ‹_›)
  · exact .inr (.inl ‹_›)
  · cases h

variable {cc : CCAlg} {home : ℕ} {requests : List Request}

/-- All requests are of keys of a node. -/
def LocalTo (N : Cluster) (node : ℕ) (reqs : List Request) : Prop :=
  ∀ req ∈ reqs, isLocalRequest N node req = true

/-- Where a request is sent and where it is served agree when partitions are spread over
the nodes evenly. -/
theorem isLocalRequest_iff (hN : N.nodeCnt ∣ N.partCnt) (req : Request) :
    isLocalRequest N node req = true ↔ N.getNodeId req.key = node := by
  simp [isLocalRequest, Cluster.getNodeId, keyToPart, Nat.mod_mod_of_dvd _ hN]

/-- The home fragment ends, waits, aborts or sends requests to the node they belong to. -/
theorem home_loop (hpos : 0 < N.nodeCnt) (hN : N.nodeCnt ∣ N.partCnt) {as : List Answer}
    (has : ∀ a ∈ as, Answer.possible cc a = true) (ht : t.requests = requests)
    (h : (workload N).runLoop home true t as = some (rc, t', out)) :
    t'.requests = requests ∧ HomeStop (config N cc home requests) (LocalTo N) rc t' out := by
  refine Workload.runLoop_rule (Q := fun rc t' out =>
    t'.requests = requests ∧ HomeStop (config N cc home requests) (LocalTo N) rc t' out)
    (fun t ht hd => ⟨ht, .inl ⟨rfl, hd⟩⟩) (fun t a rc t' out ht ha _ hstep => ?_) has ht h
  obtain ⟨req, -, hcase⟩ := runTxnState_cases hstep
  cases hcase with
  | granted | ended => rwa [if_pos rfl]
  | executed =>
    rw [if_pos rfl]
    exact (nextYcsbState_requests true t).trans ht
  | refused _ _ hrc hne =>
    rw [if_neg hne]
    have hposs := rc_of_possible ha
    rw [hrc] at hposs
    exact ⟨ht, .inr (hposs.resolve_left hne)⟩
  | sends _ hloc hdest hreqs =>
    rw [if_neg (by decide)]
    refine ⟨ht, rfl, fun heq => ?_, hdest ▸ Nat.mod_lt _ hpos, fun r hr => ?_⟩
    · -- a request that is not local goes to another node
      exact Bool.false_ne_true (hloc.symm.trans
        ((isLocalRequest_iff hN req).mpr (hdest.symm.trans heq)))
    · exact (isLocalRequest_iff hN r).mpr (mem_copyRemoteRequests (hreqs ▸ hr))

/-- A remote fragment ends, waits or aborts. -/
theorem remote_loop {as : List Answer} (has : ∀ a ∈ as, Answer.possible cc a = true)
    (ht : LocalTo N node t.requests)
    (h : (workload N).runLoop node false t as = some (rc, t', out)) :
    LocalTo N node t'.requests ∧ out = none ∧ (rc = .RCOK ∨ rc = .WAIT ∨ rc = .Abort) := by
  refine Workload.runLoop_rule
    (Q := fun rc t' out => LocalTo N node t'.requests ∧ out = none ∧
      (rc = .RCOK ∨ rc = .WAIT ∨ rc = .Abort))
    (fun t ht _ => ⟨ht, rfl, .inl rfl⟩) (fun t a rc t' out ht ha _ hstep => ?_) has ht h
  obtain ⟨req, hreq, hcase⟩ := runTxnState_cases hstep
  cases hcase with
  | granted | ended => rwa [if_pos rfl]
  | executed =>
    rw [if_pos rfl, nextYcsbState_requests]
    exact ht
  | refused _ _ hrc hne =>
    rw [if_neg hne]
    exact ⟨ht, rfl, hrc ▸ rc_of_possible ha⟩
  | sends _ hloc =>
    rw [ht req (mem_of_getElem? hreq)] at hloc
    cases hloc

/-- A request is served where it is sent. -/
def confined (hpos : 0 < N.nodeCnt) (hN : N.nodeCnt ∣ N.partCnt) (cc : CCAlg) (home : ℕ)
    (requests : List Request) : Confined (config N cc home requests) where
  HomeOk t := t.requests = requests
  RemoteOk n t := LocalTo N n t.requests
  MsgOk := LocalTo N
  abortRemote := rfl
  home_query := ⟨rfl, rfl⟩
  home_reset h := ⟨h, rfl⟩
  home_wait h := (nextYcsbState_requests true _).trans h
  home_readonly h := congrArg (fun reqs : List Request =>
    reqs.all fun req => decide (req.acctype ≠ .WR)) h
  home_loop has ht h := home_loop hpos hN has ht h
  remote_init _ _ hmem := absurd hmem not_mem_nil
  remote_reset _ _ hmem := absurd hmem not_mem_nil
  remote_wait h req hmem := h req (nextYcsbState_requests false _ ▸ hmem)
  remote_copy hm ht req hmem := (mem_append.mp hmem).elim (ht req) (hm req)
  remote_loop has ht h := remote_loop has ht h

end

/-! ## Agreement -/

/-- **Two-phase commit of YCSB transactions agrees**, under every algorithm and in every
order of messages: no attempt is committed by one node and aborted by another, an
update is committed only after everybody was valid, every participant releases its
accesses exactly once, and no assertion on the responses fails. -/
theorem twoPhaseCommit_agreed (nodeCnt home : ℕ) (hhome : home < nodeCnt) (cc : CCAlg)
    (requests : List Request) (s : State Txn (List Request))
    (hs : (machine (config ⟨nodeCnt, nodeCnt⟩ cc home requests)).Reachable s) :
    Agreed (config ⟨nodeCnt, nodeCnt⟩ cc home requests) s :=
  reachable_agreed hhome
    (confined (Nat.zero_lt_of_lt hhome) (Nat.dvd_refl nodeCnt) cc home requests) hs

/-- `get_row` grants every request. -/
def granted : Inputs := ⟨List.replicate 3 ⟨.RCOK, true, 0⟩, true⟩

/-- `get_row` refuses the first request. -/
def refused : Inputs := ⟨[⟨.Abort, true, 0⟩], true⟩

/-- Two nodes write one row each; in the first attempt the other node refuses its row. -/
def retried : List Action :=
  [.start granted, .deliver 0 refused, .deliver 0 granted, .deliver 0 granted, .deliver 0 granted,
    .start granted, .deliver 0 granted, .deliver 0 granted, .deliver 0 granted, .deliver 0 granted,
    .deliver 0 granted, .deliver 0 granted]

/-- The first attempt is aborted on both nodes, the second one committed on both. -/
theorem twoPhaseCommit_agreed_retried :
    ∃ s, (machine (config ⟨2, 2⟩ .OCC 0 [⟨0, .WR⟩, ⟨1, .WR⟩])).run retried = some s ∧
      s.ended = true ∧ (∀ n < 2, ⟨1, n, .abort⟩ ∈ s.log) ∧ ⟨2, 0, .commit [0, 1]⟩ ∈ s.log ∧
      ⟨2, 1, .commit []⟩ ∈ s.log ∧ Agreed (config ⟨2, 2⟩ .OCC 0 [⟨0, .WR⟩, ⟨1, .WR⟩]) s := by
  have hrun : ∃ s, (machine (config ⟨2, 2⟩ .OCC 0 [⟨0, .WR⟩, ⟨1, .WR⟩])).run retried = some s :=
    ⟨_, rfl⟩
  obtain ⟨s, hs⟩ := hrun
  have hagreed := twoPhaseCommit_agreed 2 0 (by decide) .OCC [⟨0, .WR⟩, ⟨1, .WR⟩] s
    (Machine.Reachable.of_run hs)
  cases hs
  exact ⟨_, rfl, rfl, by decide, by decide, by decide, hagreed⟩

end Ycsb

end Deneva
