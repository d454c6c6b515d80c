import Deneva.Protocol

/-!
# Agreement of two-phase commit

The invariant of `Protocol.machine`, for workloads whose requests stay where they
are sent and that abort a failed remote fragment (`Confined`).

An attempt goes through stages (`StageInv`): it runs at home, waits there for a
row, waits for a remote fragment, prepares, finishes, is over. In each stage at
most one message per participant is in flight, and while the home node counts
responses, `rsp_cnt` is the number of messages in flight. `partitions_touched` is
kept across attempts, so prepare and finish messages also reach participants of
earlier attempts only; these are in the state of a participant that has nothing
to release.

* `History` says what is true of the attempts before the current one.
* `runHome_inv` is the step common to a start, a resume and a response: the home
  fragment runs on.
* `deliver_inv` treats each message.
-/

namespace Deneva

universe u v

open Function List

namespace Protocol

open State

variable {L : Type u} {M : Type v}

/-! ## Counting releases -/

/-- The events in which `release_locks` is called. -/
def Event.isRelease : Event → Bool
  | .commit _ => true
  | .abort => true
  | _ => false

/-- How often a node released its accesses in an attempt. -/
def releases (log : List Entry) (k n : ℕ) : ℕ :=
  log.countP fun e => decide (e.attempt = k ∧ e.node = n) && e.event.isRelease

theorem releases_cons (j m k n : ℕ) (e : Event) (log : List Entry) :
    releases (⟨j, m, e⟩ :: log) k n =
      releases log k n + if j = k ∧ m = n ∧ e.isRelease = true then 1 else 0 := by
  simp [releases, countP_cons, and_assoc]

variable {e : Event} {n k : ℕ} {log : List Entry} {C : Config L M}

/-- An event that releases nothing is not counted. -/
theorem releases_cons_of_not (he : e.isRelease = false) (j m k n : ℕ)
    (log : List Entry) : releases (⟨j, m, e⟩ :: log) k n = releases log k n := by
  simp [releases_cons, he]

/-- An event of another node is not counted. -/
theorem releases_cons_of_ne {m : ℕ} (h : m ≠ n) (j k : ℕ) (e : Event) (log : List Entry) :
    releases (⟨j, m, e⟩ :: log) k n = releases log k n := by
  simp [releases_cons, h]

/-- A node without releases neither committed nor aborted. -/
theorem not_mem_of_releases_eq_zero (h : releases log k n = 0)
    (he : e.isRelease = true) : ⟨k, n, e⟩ ∉ log := by
  intro hmem
  have := List.countP_eq_zero.mp h _ hmem
  simp [he] at this

/-- Another event does not matter. -/
theorem not_mem_cons_of_event {j m : ℕ} {e' : Event} (hne : e ≠ e') (h : ⟨k, n, e⟩ ∉ log) :
    ⟨k, n, e⟩ ∉ ⟨j, m, e'⟩ :: log :=
  fun hmem => (mem_cons.mp hmem).elim (fun heq => hne (congrArg Entry.event heq)) h

/-! ## What is known of finished attempts -/

/-- The attempt `j` was aborted everywhere: nobody committed, nobody released twice,
home aborted, and whoever took part released. -/
structure Over (home : ℕ) (log : List Entry) (j : ℕ) : Prop where
  /-- nobody committed -/
  noCommit : ∀ n touched, ⟨j, n, .commit touched⟩ ∉ log
  /-- nobody released twice -/
  atMost : ∀ n, releases log j n ≤ 1
  /-- home aborted -/
  homeAbort : ⟨j, home, .abort⟩ ∈ log
  /-- whoever took part released -/
  exact : ∀ e ∈ log, e.attempt = j → releases log j e.node = 1

theorem Over.cons {home : ℕ} {j : ℕ} (h : Over home log j) (hjk : k ≠ j)
    (n : ℕ) (e : Event) : Over home (⟨k, n, e⟩ :: log) j := by
  have hrel : ∀ m, releases (⟨k, n, e⟩ :: log) j m = releases log j m := by
    intro m
    simp [releases_cons, hjk]
  refine ⟨fun m touched hmem => ?_, fun m => ?_, mem_cons_of_mem _ h.homeAbort,
    fun x hx hxj => ?_⟩
  · rcases mem_cons.mp hmem with heq | hmem
    · exact hjk (congrArg Entry.attempt heq).symm
    · exact h.noCommit m touched hmem
  · rw [hrel]
    exact h.atMost m
  · rw [hrel]
    rcases mem_cons.mp hx with rfl | hx
    · exact absurd hxj hjk
    · exact h.exact x hx hxj

/-- `validate` returned `RCOK` at home and at every remote node in `partitions_touched`. -/
def AllValid (C : Config L M) (log : List Entry) (k : ℕ) (touched : List ℕ) : Prop :=
  ⟨k, C.home, .validate .RCOK⟩ ∈ log ∧ ∀ n ∈ remotes C touched, ⟨k, n, .validate .RCOK⟩ ∈ log

/-- A commit of an update at the home node comes after `validate` returned `RCOK` everywhere. -/
def Justified (C : Config L M) : List Entry → Prop
  | [] => True
  | e :: log =>
    (∀ touched, e.event = .commit touched → e.node = C.home → C.W.readonly C.query = false →
      AllValid C log e.attempt touched) ∧ Justified C log

theorem Justified.cons (h : Justified C log)
    (he : ∀ touched, e = .commit touched → n = C.home → C.W.readonly C.query = false →
      AllValid C log k touched) : Justified C (⟨k, n, e⟩ :: log) := ⟨he, h⟩

theorem Justified.split {later earlier : List Entry} {touched : List ℕ}
    (h : Justified C (later ++ ⟨k, C.home, .commit touched⟩ :: earlier))
    (hro : C.W.readonly C.query = false) : AllValid C earlier k touched := by
  induction later with
  | nil => exact h.1 touched rfl rfl hro
  | cons e later ih => exact ih h.2

/-- The attempts before `k` were aborted everywhere, every commit is justified, and
every failed fragment was aborted and reported. -/
structure History (C : Config L M) (log : List Entry) (k : ℕ) : Prop where
  /-- there are no later attempts -/
  le : ∀ e ∈ log, 1 ≤ e.attempt ∧ e.attempt ≤ k
  /-- the earlier ones are over -/
  past : ∀ j, 1 ≤ j → j < k → Over C.home log j
  /-- commits of updates are justified -/
  justified : Justified C log
  /-- a failed fragment was aborted, and its response says so -/
  failed : ∀ j n rsp, ⟨j, n, .fragment .Abort rsp⟩ ∈ log → rsp = some .Abort ∧ ⟨j, n, .abort⟩ ∈ log

theorem History.cons (h : History C log k) (hk : 1 ≤ k) (n : ℕ)
    (hcommit : ∀ touched, e = .commit touched → n = C.home → C.W.readonly C.query = false →
      AllValid C log k touched)
    (hfailed : ∀ rsp, e = .fragment .Abort rsp → rsp = some .Abort ∧ ⟨k, n, .abort⟩ ∈ log) :
    History C (⟨k, n, e⟩ :: log) k where
  le x hx := by
    rcases mem_cons.mp hx with rfl | hx
    · exact ⟨hk, le_refl k⟩
    · exact h.le x hx
  past j hj hjk := (h.past j hj hjk).cons hjk.ne' n e
  justified := h.justified.cons hcommit
  failed j m rsp hmem := by
    rcases mem_cons.mp hmem with heq | hmem
    · obtain ⟨rfl, rfl, rfl⟩ := Entry.mk.inj heq
      exact (hfailed rsp rfl).imp_right (mem_cons_of_mem _)
    · exact (h.failed j m rsp hmem).imp_right (mem_cons_of_mem _)

/-! ## Participants -/

theorem mem_addUnique {m : ℕ} {ns : List ℕ} : m ∈ addUnique n ns ↔ m = n ∨ m ∈ ns := by
  unfold addUnique
  split
  next h =>
    exact ⟨.inr, fun h' => h'.elim (fun e => e ▸ h) id⟩
  · simp [or_comm]

theorem addUnique_nodup {ns : List ℕ} (h : ns.Nodup) : (addUnique n ns).Nodup := by
  unfold addUnique
  split
  · exact h
  next hn =>
    rw [nodup_append]
    exact ⟨h, nodup_singleton n, fun a ha b hb => by
      rw [mem_singleton.mp hb]
      exact fun heq => hn (heq ▸ ha)⟩

section

variable {C : Config L M} {touched : List ℕ}

section

variable (hb : ∀ n ∈ touched, n < C.nodeCnt)

include hb

theorem remotes_eq : remotes C touched = touched.filter fun n => decide (n ≠ C.home) := by
  have hmap : touched.map (· % C.nodeCnt) = touched := by
    conv_rhs => rw [← List.map_id touched]
    exact map_congr_left fun n hn => Nat.mod_eq_of_lt (hb n hn)
  rw [remotes, hmap]

theorem mem_remotes {n : ℕ} : n ∈ remotes C touched ↔ n ∈ touched ∧ n ≠ C.home := by
  rw [remotes_eq hb]
  simp

theorem remotes_nodup (hnd : touched.Nodup) : (remotes C touched).Nodup := by
  rw [remotes_eq hb]
  exact hnd.filter _

/-- One participant is the home node. -/
theorem length_remotes (hnd : touched.Nodup) (hh : C.home ∈ touched) :
    (remotes C touched).length + 1 = touched.length := by
  rw [remotes_eq hb]
  have herase : touched.filter (fun n => decide (n ≠ C.home)) = touched.erase C.home := by
    rw [hnd.erase_eq_filter]
    refine filter_congr fun n _ => ?_
    by_cases hn : n = C.home
    · simp [hn]
    · simp [hn]
  rw [herase, length_erase_of_mem hh]
  have := length_pos_of_mem hh
  omega

end

end

/-- The node other than home that a message goes to or comes from. -/
def Msg.node : Msg M → ℕ
  | .rqry _ dst _ => dst
  | .rqryRsp src _ _ => src
  | .rprepare dst => dst
  | .rackPrep src _ => src
  | .rfin dst _ _ => dst
  | .rackFin src _ => src

theorem map_node {f : ℕ → Msg M} (hf : ∀ n, (f n).node = n) (ns : List ℕ) :
    (ns.map f).map Msg.node = ns := by
  simp [comp_def, hf]

/-! ## Workloads whose requests stay where they are sent -/

/-- How a home fragment may stop: all is done, it waits for a row, it is refused one, or it
has sent a request to another node. -/
def HomeStop (C : Config L M) (MsgOk : ℕ → M → Prop) (rc : RC) (l : L) : Option (ℕ × M) → Prop
  | none => (rc = .RCOK ∧ C.W.isDone l = true) ∨ rc = .WAIT ∨ rc = .Abort
  | some (dest, m) => rc = .WAIT_REM ∧ dest ≠ C.home ∧ dest < C.nodeCnt ∧ MsgOk dest m

/-- What the protocol needs of a workload. `HomeOk`, `RemoteOk` and `MsgOk` say what its
managers and requests look like; a home fragment ends, waits, aborts or sends one
request to another node; a remote fragment ends, waits or aborts, and is then aborted
by `run_txn`. -/
structure Confined (C : Config L M) where
  /-- the home manager -/
  HomeOk : L → Prop
  /-- the manager of another node -/
  RemoteOk : ℕ → L → Prop
  /-- a request to another node -/
  MsgOk : ℕ → M → Prop
  abortRemote : C.W.abortRemote = true
  home_query : HomeOk C.query ∧ C.W.firstRun C.query = true
  home_reset : ∀ {l}, HomeOk l → HomeOk (C.W.reset l) ∧ C.W.firstRun (C.W.reset l) = true
  home_wait : ∀ {l}, HomeOk l → HomeOk (C.W.runTxnPostWait true l)
  home_readonly : ∀ {l}, HomeOk l → C.W.readonly l = C.W.readonly C.query
  home_loop : ∀ {as l rc l' out}, (∀ a ∈ as, Answer.possible C.cc a = true) → HomeOk l →
    C.W.runLoop C.home true l as = some (rc, l', out) → HomeOk l' ∧ HomeStop C MsgOk rc l' out
  remote_init : ∀ n, RemoteOk n C.W.init
  remote_reset : ∀ {n l}, RemoteOk n l → RemoteOk n (C.W.resetQuery (C.W.reset l))
  remote_wait : ∀ {n l}, RemoteOk n l → RemoteOk n (C.W.runTxnPostWait false l)
  remote_copy : ∀ {n l m}, MsgOk n m → RemoteOk n l → RemoteOk n (C.W.copyToTxn m l)
  remote_loop : ∀ {n as l rc l' out}, (∀ a ∈ as, Answer.possible C.cc a = true) → RemoteOk n l →
    C.W.runLoop n false l as = some (rc, l', out) →
      RemoteOk n l' ∧ out = none ∧ (rc = .RCOK ∨ rc = .WAIT ∨ rc = .Abort)

/-! ## The stages of an attempt -/

/-- A manager that can take part: not aborted, not waiting. -/
structure TxnMan.Usable (m : TxnMan L) : Prop where
  rc : m.rc = .RCOK
  aborted : m.aborted = false
  waiting : m.waiting = false

/-- A node that takes part in the current attempt, or may do so. -/
structure Active (s : State L M) (n : ℕ) : Prop where
  usable : (s.man n).Usable
  unreleased : releases s.log s.attempt n = 0

/-- A node that aborted its part of the current attempt and has not been told yet that
the attempt is aborted. -/
structure Dead (s : State L M) (n : ℕ) : Prop where
  rc : (s.man n).rc = .Abort
  aborted : (s.man n).aborted = true
  waiting : (s.man n).waiting = false
  released : releases s.log s.attempt n = 1

variable {C : Config L M}

/-- What holds in every stage until the transaction has ended. -/
structure Base (K : Confined C) (s : State L M) : Prop where
  passed : s.assertFailed = false
  live : s.ended = false
  nodup : (s.man C.home).touched.Nodup
  bound : ∀ n ∈ (s.man C.home).touched, n < C.nodeCnt
  homeOk : K.HomeOk (s.man C.home).wl
  remoteOk : ∀ n, n ≠ C.home → K.RemoteOk n (s.man n).wl
  history : History C s.log s.attempt
  /-- only participants appear in the current attempt -/
  scope : ∀ e ∈ s.log, e.attempt = s.attempt → e.node = C.home ∨
    e.node ∈ remotes C (s.man C.home).touched

/-- The attempt is going on and home has not decided. -/
structure Undecided (K : Confined C) (s : State L M) : Prop extends Base K s where
  started : s.pending = false ∧ 1 ≤ s.attempt
  homeIn : C.home ∈ (s.man C.home).touched
  homeActive : (s.man C.home).aborted = false ∧ releases s.log s.attempt C.home = 0
  noCommit : ∀ n touched, ⟨s.attempt, n, .commit touched⟩ ∉ s.log

/-- Home runs its own fragment. -/
structure Running (K : Confined C) (s : State L M) : Prop extends Undecided K s where
  homeRc : (s.man C.home).rc = .RCOK
  noResponses : (s.man C.home).rspCnt = 0

/-- The remote fragment that home waits for: its request is in flight, or it waits for a
row, or its response is in flight. -/
inductive Fragment (K : Confined C) (s : State L M) (d : ℕ) : Prop where
  | requested {m : M} (net : s.net = [.rqry C.home d m]) (ok : K.MsgOk d m) (active : Active s d)
  | waits (net : s.net = []) (rc : (s.man d).rc = .RCOK) (aborted : (s.man d).aborted = false)
      (waiting : (s.man d).waiting = true) (returnId : (s.man d).returnId = C.home)
      (unreleased : releases s.log s.attempt d = 0)
  | answered (net : s.net = [.rqryRsp d C.home .RCOK]) (active : Active s d)
  | failed (net : s.net = [.rqryRsp d C.home .Abort]) (dead : Dead s d)

/-- Participants are asked to prepare, and acknowledge the end. -/
abbrev Config.Acks (C : Config L M) : Prop :=
  C.W.readonly C.query = false ∨ C.cc = .MAAT ∨ C.cc = .OCC

/-- Prepare messages and their acknowledgements are in flight. -/
structure Preparing (K : Confined C) (s : State L M) : Prop extends Undecided K s where
  homeWaiting : (s.man C.home).waiting = false
  homeRc : (s.man C.home).rc = .RCOK ∨ (s.man C.home).rc = .Abort
  ack : C.Acks
  count : (s.man C.home).rspCnt = s.net.length
  nonempty : s.net ≠ []
  distinct : (s.net.map Msg.node).Nodup
  /-- one message per participant; who answered `RCOK` has been valid -/
  msgs : ∀ m ∈ s.net, m.node ∈ remotes C (s.man C.home).touched ∧
    (m = .rprepare m.node ∧ Active s m.node ∨
      m = .rackPrep m.node .RCOK ∧ ⟨s.attempt, m.node, .validate .RCOK⟩ ∈ s.log ∨
      m = .rackPrep m.node .Abort)
  /-- home knows, or will know, of every participant that aborted -/
  nodes : ∀ n, n ≠ C.home → Active s n ∨
    (Dead s n ∧ (.rackPrep n .Abort ∈ s.net ∨ (s.man C.home).rc = .Abort))
  acked : (s.man C.home).rc = .RCOK → ∀ n ∈ remotes C (s.man C.home).touched,
    n ∉ s.net.map Msg.node → ⟨s.attempt, n, .validate .RCOK⟩ ∈ s.log
  /-- every fragment of the attempt has succeeded -/
  noFailure : ∀ n rsp, ⟨s.attempt, n, .fragment .Abort rsp⟩ ∉ s.log

/-- Home has decided; finish messages with `rc` and their acknowledgements are in
flight. -/
structure Finishing (K : Confined C) (s : State L M) (rc : RC) : Prop extends Base K s where
  started : s.pending = false ∧ 1 ≤ s.attempt
  homeIn : C.home ∈ (s.man C.home).touched
  homeWaiting : (s.man C.home).waiting = false
  homeRc : (s.man C.home).rc = rc
  released : releases s.log s.attempt C.home = 1
  count : (s.man C.home).rspCnt = s.net.length
  nonempty : s.net ≠ []
  distinct : (s.net.map Msg.node).Nodup
  /-- a participant that has not been told has not released, unless it aborted by itself -/
  msgs : ∀ m ∈ s.net, m.node ∈ remotes C (s.man C.home).touched ∧
    (m = .rfin m.node rc (C.W.readonly C.query) ∧
        (Active s m.node ∨ rc = .Abort ∧ Dead s m.node) ∨
      m = .rackFin m.node .RCOK ∧ (s.man m.node).Usable ∧ releases s.log s.attempt m.node = 1)
  nodes : ∀ n, n ≠ C.home → n ∉ s.net.map Msg.node → (s.man n).Usable ∧
    releases s.log s.attempt n = if n ∈ remotes C (s.man C.home).touched then 1 else 0

/-- The attempt is aborted. -/
structure Aborting (K : Confined C) (s : State L M) : Prop extends Finishing K s .Abort where
  homeAbort : ⟨s.attempt, C.home, .abort⟩ ∈ s.log
  noCommit : ∀ n touched, ⟨s.attempt, n, .commit touched⟩ ∉ s.log

/-- The attempt is committed. -/
structure Committing (K : Confined C) (s : State L M) : Prop extends Finishing K s .RCOK where
  noAbort : ∀ n, ⟨s.attempt, n, .abort⟩ ∉ s.log
  ack : C.Acks

/-- The transaction has ended; after a read-only commit finish messages may be in
flight. -/
structure Ended (C : Config L M) (s : State L M) : Prop where
  passed : s.assertFailed = false
  started : s.pending = false ∧ 1 ≤ s.attempt
  ended : s.ended = true
  history : History C s.log s.attempt
  noAbort : ∀ n, ⟨s.attempt, n, .abort⟩ ∉ s.log
  released : releases s.log s.attempt C.home = 1
  homeWaiting : (s.man C.home).waiting = false
  distinct : (s.net.map Msg.node).Nodup
  msgs : ∀ m ∈ s.net, m.node ≠ C.home ∧ m = .rfin m.node .RCOK true ∧
    C.cc ≠ .MAAT ∧ C.cc ≠ .OCC ∧ Active s m.node
  nodes : ∀ n, n ≠ C.home → n ∉ s.net.map Msg.node → (s.man n).Usable ∧
    releases s.log s.attempt n ≤ 1 ∧
    ∀ e ∈ s.log, e.attempt = s.attempt → e.node = n → releases s.log s.attempt n = 1

/-- The transaction is queued, to start or to restart. -/
structure Idle (K : Confined C) (s : State L M) : Prop extends Base K s where
  pending : s.pending = true
  net : s.net = []
  usable : ∀ n, (s.man n).Usable
  noResponses : (s.man C.home).rspCnt = 0
  firstRun : C.W.firstRun (s.man C.home).wl = true
  settled : 1 ≤ s.attempt → Over C.home s.log s.attempt

/-- The stage of the transaction. -/
inductive StageInv (K : Confined C) (s : State L M) : Prop where
  /-- queued, to start or to restart -/
  | idle (h : Idle K s)
  /-- the home fragment waits for a row -/
  | atHome (run : Running K s) (net : s.net = []) (waiting : (s.man C.home).waiting = true)
      (active : ∀ n, n ≠ C.home → Active s n)
  /-- a remote fragment runs -/
  | remote (run : Running K s) {d : ℕ} (mem : d ∈ remotes C (s.man C.home).touched)
      (homeWaiting : (s.man C.home).waiting = false)
      (active : ∀ n, n ≠ C.home → n ≠ d → Active s n) (fragment : Fragment K s d)
  /-- home asks whether the participants can commit -/
  | prepare (h : Preparing K s)
  /-- home has aborted the attempt and tells the participants -/
  | abort (h : Aborting K s)
  /-- home has committed the attempt and tells the participants -/
  | commit (h : Committing K s)
  /-- the transaction has ended -/
  | ended (h : Ended C s)

/-! ## Moving facts from one state to the next -/

section

variable {K : Confined C} {s s' : State L M}

theorem Active.congr {n : ℕ} (h : Active s n) (hman : s'.man n = s.man n)
    (hrel : releases s'.log s'.attempt n = releases s.log s.attempt n) : Active s' n :=
  ⟨hman ▸ h.usable, hrel.trans h.unreleased⟩

theorem Dead.congr {n : ℕ} (h : Dead s n) (hman : s'.man n = s.man n)
    (hrel : releases s'.log s'.attempt n = releases s.log s.attempt n) : Dead s' n :=
  ⟨hman ▸ h.rc, hman ▸ h.aborted, hman ▸ h.waiting, hrel.trans h.released⟩

/-- Home's manager changes; new participants may join. -/
theorem Base.homeMan (h : Base K s) {m : TxnMan L} (hpass : s'.assertFailed = s.assertFailed)
    (hended : s'.ended = s.ended) (hman : s'.man = update s.man C.home m)
    (hlog : s'.log = s.log) (hatt : s'.attempt = s.attempt) (hwl : K.HomeOk m.wl)
    (hnodup : m.touched.Nodup) (hbound : ∀ n ∈ m.touched, n < C.nodeCnt)
    (hsub : ∀ n ∈ (s.man C.home).touched, n ∈ m.touched) : Base K s' where
  passed := hpass.trans h.passed
  live := hended.trans h.live
  nodup := by simpa [hman] using hnodup
  bound := by simpa [hman] using hbound
  homeOk := by simpa [hman] using hwl
  remoteOk n hn := by simpa [hman, update_of_ne hn] using h.remoteOk n hn
  history := by
    rw [hlog, hatt]
    exact h.history
  scope x hx hxa := by
    rw [hlog] at hx
    rw [hatt] at hxa
    refine (h.scope x hx hxa).imp_right fun hmem => ?_
    rw [hman, update_self, mem_remotes hbound]
    rw [mem_remotes h.bound] at hmem
    exact ⟨hsub _ hmem.1, hmem.2⟩

/-- Home's manager changes, and home notes an event. -/
theorem Base.home (h : Base K s) (hk : 1 ≤ s.attempt) {m : TxnMan L} {e : Event}
    (hpass : s'.assertFailed = s.assertFailed) (hended : s'.ended = s.ended)
    (hman : s'.man = update s.man C.home m) (hlog : s'.log = ⟨s.attempt, C.home, e⟩ :: s.log)
    (hatt : s'.attempt = s.attempt) (hwl : m.wl = (s.man C.home).wl)
    (htouched : m.touched = (s.man C.home).touched)
    (hcommit : ∀ touched, e = .commit touched → C.W.readonly C.query = false →
      AllValid C s.log s.attempt touched)
    (hfailed : ∀ rsp, e ≠ .fragment .Abort rsp) : Base K s' where
  passed := hpass.trans h.passed
  live := hended.trans h.live
  nodup := by simpa [hman, htouched] using h.nodup
  bound := by simpa [hman, htouched] using h.bound
  homeOk := by simpa [hman, hwl] using h.homeOk
  remoteOk n hn := by simpa [hman, update_of_ne hn] using h.remoteOk n hn
  history := by
    rw [hlog, hatt]
    exact h.history.cons hk C.home (fun touched heq _ => hcommit touched heq)
      fun rsp heq => absurd heq (hfailed rsp)
  scope x hx hxa := by
    rw [hlog] at hx
    rw [hatt] at hxa
    rcases mem_cons.mp hx with rfl | hx
    · exact .inl rfl
    · simpa [hman, htouched] using h.scope x hx hxa

end

/-! ## Home decides -/

section

variable {K : Confined C} {s : State L M}

/-- With other participants there is somebody to tell. -/
theorem remotes_ne_nil (h : Undecided K s) (hlen : 1 < (s.man C.home).touched.length) :
    remotes C (s.man C.home).touched ≠ [] := by
  have hcount := length_remotes h.bound h.nodup h.homeIn
  exact ne_nil_of_length_pos (by omega)

theorem startAbort_eq_multi (hab : (s.man C.home).aborted = false)
    (hlen : 1 < (s.man C.home).touched.length) :
    s.startAbort C = { s with
      man := update s.man C.home { s.man C.home with
        rc := .Abort, aborted := true, rspCnt := (s.man C.home).touched.length - 1 }
      net := s.net ++ (remotes C (s.man C.home).touched).map
        fun n => .rfin n .Abort (C.W.readonly (s.man C.home).wl)
      log := ⟨s.attempt, C.home, .abort⟩ :: s.log } := by
  simp [startAbort, sendFinishMessages, abort, setMan, send,
    emit, hab, hlen]

theorem startAbort_eq_single (hab : (s.man C.home).aborted = false)
    (hlen : ¬ 1 < (s.man C.home).touched.length) :
    s.startAbort C = { s with
      man := update s.man C.home { s.man C.home with rc := .Abort, aborted := true }
      log := ⟨s.attempt, C.home, .abort⟩ :: s.log } := by
  simp [startAbort, abort, setMan, emit, hab, hlen]

/-- Home aborts an attempt with other participants: they are told to finish. -/
theorem startAbort_multi (h : Undecided K s) (hnet : s.net = [])
    (hw : (s.man C.home).waiting = false) (hlen : 1 < (s.man C.home).touched.length)
    (hnodes : ∀ n, n ≠ C.home → Active s n ∨ (n ∈ remotes C (s.man C.home).touched ∧ Dead s n)) :
    StageInv K (s.startAbort C) ∧ 0 < ((s.startAbort C).man C.home).rspCnt := by
  obtain ⟨hab, hrel⟩ := h.homeActive
  have hcount := length_remotes h.bound h.nodup h.homeIn
  rw [startAbort_eq_multi hab hlen, hnet]
  refine ⟨StageInv.abort ⟨⟨?_, h.started, ?_, ?_, ?_, ?_, ?_, ?_, ?_, ?_, ?_⟩, ?_, ?_⟩, ?_⟩
  · exact h.toBase.home h.started.2 rfl rfl rfl rfl rfl rfl rfl (by simp) (by simp)
  · simpa using h.homeIn
  · simpa using hw
  · simp
  · simp [releases_cons, Event.isRelease, hrel]
  · simp only [update_self, nil_append, length_map]
    omega
  · simpa using remotes_ne_nil h hlen
  · rw [nil_append, map_node fun _ => rfl]
    exact remotes_nodup h.bound h.nodup
  · intro m hm
    obtain ⟨n, hn, rfl⟩ := List.mem_map.mp hm
    have hne : n ≠ C.home := ((mem_remotes h.bound).mp hn).2
    refine ⟨by simpa [Msg.node] using hn, .inl ⟨by rw [K.home_readonly h.homeOk]; rfl, ?_⟩⟩
    rcases hnodes n hne with hact | ⟨_, hdead⟩
    · exact .inl (hact.congr (update_of_ne hne _ _)
        (releases_cons_of_ne (Ne.symm hne) _ _ _ _))
    · refine .inr ⟨rfl, ?_⟩
      exact (hdead.congr (update_of_ne hne _ _)
        (releases_cons_of_ne (Ne.symm hne) _ _ _ _))
  · intro n hne hn
    rw [nil_append, map_node fun _ => rfl] at hn
    rcases hnodes n hne with hact | ⟨hmem, _⟩
    · simp only [update_self, update_of_ne hne, if_neg hn]
      exact ⟨hact.usable, (releases_cons_of_ne (Ne.symm hne) _ _ _ _).trans hact.unreleased⟩
    · exact absurd hmem hn
  · exact mem_cons_self
  · exact fun n touched => not_mem_cons_of_event (by simp) (h.noCommit n touched)
  · simp only [update_self]
    omega

theorem checkIfDone_abort (h : (s.man C.home).rspCnt = 0) :
    s.checkIfDone C .Abort = s.workerAbort C := by
  simp [checkIfDone, h]

theorem checkIfDone_commit (h : (s.man C.home).rspCnt = 0) :
    s.checkIfDone C .Commit = s.workerCommit C := by
  simp [checkIfDone, h]

/-- While responses are outstanding nothing is done. -/
theorem checkIfDone_waiting (h : 0 < (s.man C.home).rspCnt) (rc : RC) : s.checkIfDone C rc = s := by
  simp [checkIfDone, h]

/-- Without other participants there is nobody to tell. -/
theorem remotes_eq_nil (h : Undecided K s) (hlen : ¬ 1 < (s.man C.home).touched.length) :
    remotes C (s.man C.home).touched = [] := by
  have hcount := length_remotes h.bound h.nodup h.homeIn
  exact length_eq_zero_iff.mp (by omega)

/-- Home aborts an attempt that has no other participants, and queues the next one. -/
theorem startAbort_single (h : Running K s) (hnet : s.net = [])
    (hw : (s.man C.home).waiting = false) (hlen : ¬ 1 < (s.man C.home).touched.length)
    (hnodes : ∀ n, n ≠ C.home → Active s n) :
    StageInv K ((s.startAbort C).checkIfDone C .Abort) := by
  obtain ⟨hab, hrel⟩ := h.homeActive
  have hnil := remotes_eq_nil h.toUndecided hlen
  have hbase : Base K (s.startAbort C) := by
    rw [startAbort_eq_single hab hlen]
    exact h.toBase.home h.started.2 rfl rfl rfl rfl rfl rfl rfl (by simp) (by simp)
  rw [startAbort_eq_single hab hlen] at hbase ⊢
  have hrel' : ∀ n, releases (⟨s.attempt, C.home, .abort⟩ :: s.log) s.attempt n =
      if n = C.home then 1 else 0 := by
    intro n
    by_cases hn : n = C.home
    · subst hn
      simp [releases_cons, Event.isRelease, hrel]
    · rw [releases_cons_of_ne (Ne.symm hn), if_neg hn]
      exact (hnodes n hn).unreleased
  rw [checkIfDone_abort (by simpa using h.noResponses)]
  simp only [workerAbort, setMan, update_self, update_idem]
  refine StageInv.idle ⟨?_, rfl, hnet, fun n => ?_, ?_, ?_, fun _ => ?_⟩
  · refine ⟨hbase.passed, hbase.live, ?_, ?_, ?_, fun n hn => ?_, hbase.history, ?_⟩
    · simpa [TxnMan.reset] using h.nodup
    · simpa [TxnMan.reset] using h.bound
    · simpa [TxnMan.reset] using (K.home_reset h.homeOk).1
    · simpa [update_of_ne hn] using h.remoteOk n hn
    · simpa [TxnMan.reset] using hbase.scope
  · by_cases hn : n = C.home
    · subst hn
      simp only [update_self]
      exact ⟨rfl, rfl, hw⟩
    · simp only [update_of_ne hn]
      exact (hnodes n hn).usable
  · simp [TxnMan.reset]
  · simpa [TxnMan.reset] using (K.home_reset h.homeOk).2
  · refine ⟨fun n touched => not_mem_cons_of_event (by simp) (h.noCommit n touched), fun n => ?_,
      mem_cons_self, fun e he hea => ?_⟩
    · rw [hrel']
      split <;> decide
    · have hnode : e.node = C.home := by
        rcases mem_cons.mp he with rfl | he
        · rfl
        · have := h.scope e he hea
          rw [hnil] at this
          exact this.resolve_right not_mem_nil
      rw [hrel', if_pos hnode]

/-- Home notes the verdict of `validate`. -/
theorem Undecided.note (h : Undecided K s) (rc : RC) :
    Undecided K (s.emit C.home (.validate rc)) where
  toBase := h.toBase.home h.started.2 rfl rfl (by simp [emit]) rfl rfl rfl
    rfl (by simp) (by simp)
  started := h.started
  homeIn := h.homeIn
  homeActive := ⟨h.homeActive.1, (releases_cons_of_not rfl _ _ _ _ _).trans h.homeActive.2⟩
  noCommit n touched := not_mem_cons_of_event (by simp) (h.noCommit n touched)

theorem Running.note (h : Running K s) (rc : RC) : Running K (s.emit C.home (.validate rc)) where
  toUndecided := h.toUndecided.note rc
  homeRc := h.homeRc
  noResponses := h.noResponses

variable {n : ℕ}

theorem Active.note {m : ℕ} {e : Event} (h : Active s n) (he : e.isRelease = false) :
    Active (s.emit m e) n :=
  h.congr rfl (releases_cons_of_not he _ _ _ _ _)

/-- Nobody has aborted an attempt in which nobody has released. -/
theorem noAbort_of_active (hhome : releases s.log s.attempt C.home = 0)
    (hnodes : ∀ n, n ≠ C.home → Active s n) (n : ℕ) : ⟨s.attempt, n, .abort⟩ ∉ s.log := by
  by_cases hn : n = C.home
  · subst hn
    exact not_mem_of_releases_eq_zero hhome rfl
  · exact not_mem_of_releases_eq_zero (hnodes n hn).unreleased rfl

/-- No fragment has failed in an attempt in which nobody has aborted. -/
theorem noFailure_of_noAbort (h : History C s.log s.attempt)
    (hno : ∀ n, ⟨s.attempt, n, .abort⟩ ∉ s.log) (n : ℕ) (rsp : Option RC) :
    ⟨s.attempt, n, .fragment .Abort rsp⟩ ∉ s.log :=
  fun hmem => hno n (h.failed _ _ _ hmem).2

/-- Home commits an attempt that every participant has prepared. -/
theorem commit_multi (h : Undecided K s) (hnet : s.net = []) (hw : (s.man C.home).waiting = false)
    (hrc : (s.man C.home).rc = .RCOK) (hlen : 1 < (s.man C.home).touched.length)
    (hnodes : ∀ n, n ≠ C.home → Active s n)
    (hvalid : AllValid C s.log s.attempt (s.man C.home).touched)
    (hack : C.Acks) : StageInv K ((s.sendFinishMessages C).commit C.home) := by
  have hcount := length_remotes h.bound h.nodup h.homeIn
  have hactive : ∀ n, n ≠ C.home → Active ((s.sendFinishMessages C).commit C.home) n :=
    fun n hn => (hnodes n hn).congr (update_of_ne hn _ _)
      (releases_cons_of_ne (Ne.symm hn) _ _ _ _)
  have hbase : Base K ((s.sendFinishMessages C).commit C.home) := by
    refine h.toBase.home h.started.2 rfl rfl rfl rfl rfl rfl rfl (fun touched heq _ => ?_) (by simp)
    obtain rfl := Event.commit.inj heq
    simp only [sendFinishMessages, setMan, send, update_self]
    exact hvalid
  simp only [commit, emit, setMan, sendFinishMessages, send, hnet,
    nil_append, update_self] at hactive hbase ⊢
  refine StageInv.commit ⟨⟨hbase, h.started, ?_, ?_, ?_, ?_, ?_, ?_, ?_, fun m hm => ?_,
    fun n hn hnot => ?_⟩, fun n => not_mem_cons_of_event (by simp)
      (noAbort_of_active h.homeActive.2 hnodes n), hack⟩
  · simpa using h.homeIn
  · simpa using hw
  · simpa using hrc
  · simp [releases_cons, Event.isRelease, h.homeActive.2]
  · simp only [update_self, length_map]
    omega
  · simpa using remotes_ne_nil h hlen
  · rw [map_node fun _ => rfl]
    exact remotes_nodup h.bound h.nodup
  · obtain ⟨n, hn, rfl⟩ := List.mem_map.mp hm
    refine ⟨by simpa [Msg.node] using hn, .inl ⟨?_, .inl ?_⟩⟩
    · rw [hrc, K.home_readonly h.homeOk]
      rfl
    · exact hactive n ((mem_remotes h.bound).mp hn).2
  · rw [map_node fun _ => rfl] at hnot
    simp only [update_self, if_neg hnot]
    exact ⟨(hactive n hn).usable, (hactive n hn).unreleased⟩

theorem validate_cases (s : State L M) (valid : Bool) (n : ℕ) :
    s.validate C valid n = (.RCOK, s.emit n (.validate .RCOK)) ∨
      s.validate C valid n = (.Abort, s.emit n (.validate .Abort)) := by
  unfold validate
  by_cases hc : (C.cc = .OCC ∨ C.cc = .MAAT) ∧ valid = false
  · exact .inr (by simp only [if_pos hc])
  · exact .inl (by simp only [if_neg hc])

section

variable (h : Running K s)

include h

section

variable (hnet : s.net = [])

include hnet

/-- Home commits an attempt that has no other participants. -/
theorem commit_single (hlen : ¬ 1 < (s.man C.home).touched.length)
    (hnodes : ∀ n, n ≠ C.home → Active s n) :
    StageInv K (((s.emit C.home (.validate .RCOK)).commit C.home).checkIfDone C .Commit) := by
  have hnil := remotes_eq_nil h.toUndecided hlen
  have h₁ := h.note .RCOK
  have hnodes₁ : ∀ n, n ≠ C.home → Active (s.emit C.home (.validate .RCOK)) n :=
    fun n hn => (hnodes n hn).note rfl
  have hrsp : (((s.emit C.home (.validate .RCOK)).commit C.home).man C.home).rspCnt = 0 :=
    h.noResponses
  rw [checkIfDone_commit hrsp]
  simp only [workerCommit, commit, emit, setMan]
  refine StageInv.ended ⟨h.passed, h.started, rfl, ?_, fun n => not_mem_cons_of_event (by simp)
    (noAbort_of_active h₁.homeActive.2 hnodes₁ n), ?_, ?_, ?_, ?_, fun n hn _ => ?_⟩
  · refine h₁.history.cons h.started.2 C.home (fun touched heq _ _ => ?_) (by simp)
    obtain rfl := Event.commit.inj heq
    refine ⟨mem_cons_self, fun n hn => ?_⟩
    have hn' : n ∈ remotes C (s.man C.home).touched := hn
    rw [hnil] at hn'
    exact absurd hn' not_mem_nil
  · simp [releases_cons, Event.isRelease, h.homeActive.2]
  · simp [TxnMan.fresh]
  · simp [hnet]
  · simp [hnet]
  · have hrel : releases (⟨s.attempt, C.home, .commit (s.man C.home).touched⟩ ::
        (s.emit C.home (.validate .RCOK)).log) s.attempt n = 0 :=
      (releases_cons_of_ne (Ne.symm hn) _ _ _ _).trans (hnodes₁ n hn).unreleased
    refine ⟨?_, ?_, fun e he hea hen => ?_⟩
    · simpa [update_of_ne hn] using (hnodes n hn).usable
    · exact hrel.le.trans (by decide)
    · -- nobody but home appears in this attempt
      rcases mem_cons.mp he with rfl | he
      · exact absurd hen.symm hn
      · have hscope := h₁.scope e he hea
        have hnil₁ : remotes C ((s.emit C.home (.validate .RCOK)).man C.home).touched = [] := hnil
        rw [hnil₁] at hscope
        exact absurd (hen.symm.trans (hscope.resolve_right not_mem_nil)) hn

/-- Home asks the other participants to prepare. -/
theorem sendPrepareMessages_inv (hw : (s.man C.home).waiting = false)
    (hlen : 1 < (s.man C.home).touched.length)
    (hack : C.Acks) (hnodes : ∀ n, n ≠ C.home → Active s n) :
    StageInv K (s.sendPrepareMessages C) ∧ 0 < ((s.sendPrepareMessages C).man C.home).rspCnt := by
  have hcount := length_remotes h.bound h.nodup h.homeIn
  have hactive : ∀ n, n ≠ C.home → Active (s.sendPrepareMessages C) n :=
    fun n hn => (hnodes n hn).congr (update_of_ne hn _ _) rfl
  have hbase : Base K (s.sendPrepareMessages C) :=
    h.toBase.homeMan rfl rfl rfl rfl rfl h.homeOk h.nodup h.bound fun _ hn => hn
  simp only [sendPrepareMessages, setMan, send, hnet,
    nil_append] at hactive hbase ⊢
  refine ⟨StageInv.prepare ⟨⟨hbase, h.started, ?_, ?_, h.noCommit⟩, ?_, ?_, hack, ?_, ?_, ?_,
    fun m hm => ?_, fun n hn => .inl (hactive n hn), fun _ n hn hnot => ?_, ?_⟩, ?_⟩
  · simpa using h.homeIn
  · simpa using h.homeActive
  · simpa using hw
  · simpa using Or.inl h.homeRc
  · simp only [update_self, length_map]
    omega
  · simpa using remotes_ne_nil h.toUndecided hlen
  · rw [map_node fun _ => rfl]
    exact remotes_nodup h.bound h.nodup
  · obtain ⟨n, hn, rfl⟩ := List.mem_map.mp hm
    exact ⟨by simpa [Msg.node] using hn, .inl ⟨rfl, hactive n ((mem_remotes h.bound).mp hn).2⟩⟩
  · rw [map_node fun _ => rfl] at hnot
    exact absurd (by simpa using hn) hnot
  · exact noFailure_of_noAbort h.history (noAbort_of_active h.homeActive.2 hactive)
  · simp only [update_self]
    omega

/-- Home commits a read-only attempt without preparing. -/
theorem commit_readonly (hro : C.W.readonly C.query = true) (hcc : C.cc ≠ .MAAT ∧ C.cc ≠ .OCC)
    (hnodes : ∀ n, n ≠ C.home → Active s n) :
    StageInv K ((((s.sendFinishMessages C).setMan C.home
      { (s.sendFinishMessages C).man C.home with rspCnt := 0 }).commit C.home).checkIfDone C
        .Commit) := by
  rw [checkIfDone_commit (by simp [commit, emit, setMan])]
  simp only [workerCommit, commit, emit, setMan, sendFinishMessages,
    send, hnet, nil_append, update_self, update_idem]
  have hrel : ∀ n, n ≠ C.home →
      releases (⟨s.attempt, C.home, .commit (s.man C.home).touched⟩ :: s.log) s.attempt n = 0 :=
    fun n hn => (releases_cons_of_ne (Ne.symm hn) _ _ _ _).trans (hnodes n hn).unreleased
  refine StageInv.ended ⟨h.passed, h.started, rfl, ?_, fun n => not_mem_cons_of_event (by simp)
    (noAbort_of_active h.homeActive.2 hnodes n), ?_, ?_, ?_, fun m hm => ?_, fun n hn hnot => ?_⟩
  · refine h.history.cons h.started.2 C.home (fun touched _ _ hfalse => ?_) (by simp)
    rw [hro] at hfalse
    cases hfalse
  · simp [releases_cons, Event.isRelease, h.homeActive.2]
  · simp [TxnMan.fresh]
  · rw [map_node fun _ => rfl]
    exact remotes_nodup h.bound h.nodup
  · obtain ⟨n, hn, rfl⟩ := List.mem_map.mp hm
    have hne : n ≠ C.home := ((mem_remotes h.bound).mp hn).2
    refine ⟨hne, ?_, hcc.1, hcc.2, ?_⟩
    · rw [h.homeRc, K.home_readonly h.homeOk, hro]
      rfl
    · exact (hnodes n hne).congr (update_of_ne hne _ _)
        ((hrel n hne).trans (hnodes n hne).unreleased.symm)
  · rw [map_node fun _ => rfl] at hnot
    refine ⟨?_, ?_, fun e he hea hen => ?_⟩
    · simpa [update_of_ne hn] using (hnodes n hn).usable
    · exact (hrel n hn).le.trans (by decide)
    · -- whoever is not told took no part
      rcases mem_cons.mp he with rfl | he
      · exact absurd hen.symm hn
      · rcases h.scope e he hea with hhome | hmem
        · exact absurd (hen.symm.trans hhome) hn
        · exact absurd (hen ▸ hmem) hnot

/-- `start_commit` and `check_if_done`. -/
theorem startCommit_inv (hw : (s.man C.home).waiting = false)
    (hnodes : ∀ n, n ≠ C.home → Active s n) (valid : Bool) :
    StageInv K ((s.startCommit C valid).2.checkIfDone C (s.startCommit C valid).1) := by
  have hro : C.W.readonly (s.man C.home).wl = C.W.readonly C.query := K.home_readonly h.homeOk
  unfold startCommit
  by_cases hlen : 1 < (s.man C.home).touched.length
  · simp only [if_pos hlen]
    by_cases hack : C.W.readonly (s.man C.home).wl = false ∨ C.cc = .OCC ∨ C.cc = .MAAT
    · simp only [if_pos hack]
      obtain ⟨hinv, hpos⟩ := sendPrepareMessages_inv h hnet hw hlen
        (hack.imp (fun hf => hro ▸ hf) Or.symm) hnodes
      rwa [checkIfDone_waiting hpos]
    · simp only [if_neg hack]
      rw [not_or, not_or, hro] at hack
      exact commit_readonly h hnet (by simpa using hack.1) ⟨hack.2.2, hack.2.1⟩ hnodes
  · simp only [if_neg hlen]
    rcases validate_cases s valid C.home with hv | hv
    · rw [hv]
      exact commit_single h hnet hlen hnodes
    · rw [hv]
      exact startAbort_single (h.note .Abort) hnet hw hlen fun n hn => (hnodes n hn).note rfl

end

end

/-- The home fragment can run on: nothing is in flight and nobody has released. -/
structure Ready (K : Confined C) (s : State L M) : Prop extends Base K s where
  started : s.pending = false ∧ 1 ≤ s.attempt
  homeActive : (s.man C.home).aborted = false ∧ releases s.log s.attempt C.home = 0
  noCommit : ∀ n touched, ⟨s.attempt, n, .commit touched⟩ ∉ s.log
  homeRc : (s.man C.home).rc = .RCOK
  noResponses : (s.man C.home).rspCnt = 0
  net : s.net = []
  active : ∀ n, n ≠ C.home → Active s n
  /-- home is recorded, or about to be -/
  homeIn : C.home ∈ (s.man C.home).touched ∨ C.W.firstRun (s.man C.home).wl = true

theorem mem_touchedAfter {m : TxnMan L} {out : Option (ℕ × M)} :
    n ∈ touchedAfter C C.home m out ↔ n ∈ m.touched ∨
      (C.W.firstRun m.wl = true ∧ n = C.home) ∨ ∃ msg, out = some (n, msg) := by
  rcases out with _ | ⟨d, msg⟩ <;> by_cases hf : C.W.firstRun m.wl = true
  · simp [touchedAfter, hf, mem_addUnique, or_comm]
  · simp [touchedAfter, hf]
  · simp [touchedAfter, hf, mem_addUnique, or_comm, eq_comm, or_assoc]
  · simp [touchedAfter, hf, mem_addUnique, or_comm, eq_comm]

theorem touchedAfter_nodup {m : TxnMan L} (h : m.touched.Nodup) (out : Option (ℕ × M)) :
    (touchedAfter C C.home m out).Nodup := by
  rcases out with _ | ⟨d, msg⟩ <;> by_cases hf : C.W.firstRun m.wl = true
  · simpa [touchedAfter, hf] using addUnique_nodup h
  · simpa [touchedAfter, hf] using h
  · simpa [touchedAfter, hf] using addUnique_nodup (addUnique_nodup h)
  · simpa [touchedAfter, hf] using addUnique_nodup h

/-- What the loop of `run_txn` leaves behind at home. -/
theorem Ready.afterLoop (hhome : C.home < C.nodeCnt) (h : Ready K s) (rc : RC) {wl : L}
    (out : Option (ℕ × M)) (hwl : K.HomeOk wl) (hdest : ∀ d m, out = some (d, m) → d < C.nodeCnt) :
    Running K (s.afterLoop C C.home rc wl out) := by
  have hbound : ∀ n ∈ touchedAfter C C.home (s.man C.home) out, n < C.nodeCnt := by
    intro n hn
    rcases mem_touchedAfter.mp hn with hn | ⟨_, rfl⟩ | ⟨m, hm⟩
    · exact h.bound n hn
    · exact hhome
    · exact hdest n m hm
  refine ⟨⟨?_, h.started, ?_, ?_, h.noCommit⟩, ?_, ?_⟩
  · exact h.toBase.homeMan rfl rfl rfl rfl rfl hwl (touchedAfter_nodup h.nodup out) hbound
      fun n hn => mem_touchedAfter.mpr (.inl hn)
  · simp only [State.afterLoop, send, setMan, update_self, mem_touchedAfter]
    exact h.homeIn.imp id fun hf => .inl ⟨hf, trivial⟩
  · simpa [State.afterLoop, send, setMan] using h.homeActive
  · simpa [State.afterLoop, send, setMan] using h.homeRc
  · simpa [State.afterLoop, send, setMan] using h.noResponses

theorem Active.afterLoop (h : Active s n) (hn : n ≠ C.home) (rc : RC) (wl : L)
    (out : Option (ℕ × M)) : Active (s.afterLoop C C.home rc wl out) n :=
  h.congr (update_of_ne hn _ _) rfl

/-- **The home fragment runs on** and home decides, waits, or sends a request. -/
theorem runHome_inv (hhome : C.home < C.nodeCnt) (h : Ready K s) {inp : Inputs}
    (hinp : ∀ a ∈ inp.answers, Answer.possible C.cc a = true) {s' : State L M}
    (hrun : s.runHome C inp = some s') : StageInv K s' := by
  obtain ⟨⟨rc', s₂⟩, htxn, rfl⟩ := Option.map_eq_some_iff.mp hrun
  simp only [runTxn, decide_true] at htxn
  rcases hloop : C.W.runLoop C.home true (s.man C.home).wl inp.answers with _ | ⟨rc, wl, out⟩
  · rw [hloop] at htxn
    cases htxn
  rw [hloop] at htxn
  have htail : runTxnTail C inp.valid C.home rc (s.afterLoop C C.home rc wl out) = (rc', s₂) :=
    Option.some.inj htxn
  obtain ⟨hwl, hout⟩ := K.home_loop hinp h.homeOk hloop
  have hact : ∀ n, n ≠ C.home → Active (s.afterLoop C C.home rc wl out) n :=
    fun n hn => (h.active n hn).afterLoop hn rc wl out
  have hwait : ((s.afterLoop C C.home rc wl out).man C.home).waiting = decide (rc = .WAIT) := by
    simp [State.afterLoop, send, setMan]
  have hwl' : ((s.afterLoop C C.home rc wl out).man C.home).wl = wl := by
    simp [State.afterLoop, send, setMan]
  rcases out with _ | ⟨dest, m⟩
  · -- no request was sent
    have hrun' := h.afterLoop hhome rc none hwl (by simp)
    have hnet : (s.afterLoop C C.home rc wl (none : Option (ℕ × M))).net = [] := by
      simp [State.afterLoop, send, setMan, h.net]
    rcases hout with ⟨rfl, hdone⟩ | rfl | rfl
    · -- all is done
      simp only [runTxnTail, if_true, hwl', hdone, and_self] at htail
      have hinv := startCommit_inv hrun' hnet (by simpa using hwait) hact inp.valid
      rwa [htail] at hinv
    · -- home waits for a row
      simp only [runTxnTail, if_true, reduceCtorEq, and_false, if_false] at htail
      cases htail
      simp only [checkIfDone, hrun'.noResponses, reduceCtorEq, if_false, ite_self]
      exact StageInv.atHome hrun' hnet (by simpa using hwait) hact
    · -- home is refused a row
      simp only [runTxnTail, if_true, reduceCtorEq, and_false, if_false] at htail
      cases htail
      by_cases hlen : 1 < ((s.afterLoop C C.home .Abort wl
          (none : Option (ℕ × M))).man C.home).touched.length
      · obtain ⟨hinv, hpos⟩ := startAbort_multi hrun'.toUndecided hnet (by simpa using hwait) hlen
          fun n hn => .inl (hact n hn)
        rwa [checkIfDone_waiting hpos]
      · exact startAbort_single hrun' hnet (by simpa using hwait) hlen hact
  · -- a request was sent
    obtain ⟨rfl, hne, hlt, hok⟩ := hout
    have hrun' := h.afterLoop hhome .WAIT_REM (some (dest, m)) hwl
      (by rintro d m' hd; obtain ⟨rfl, rfl⟩ := Prod.mk.inj (Option.some.inj hd); exact hlt)
    simp only [runTxnTail, if_true, reduceCtorEq, and_false, if_false] at htail
    cases htail
    simp only [checkIfDone, hrun'.noResponses, reduceCtorEq, if_false, ite_self]
    refine StageInv.remote hrun' ?_ (by simpa using hwait) (fun n hn _ => hact n hn)
      (.requested ?_ hok (hact dest hne))
    · rw [mem_remotes hrun'.bound]
      refine ⟨?_, hne⟩
      simp [State.afterLoop, send, setMan, mem_touchedAfter]
    · simp [State.afterLoop, send, setMan, h.net]

end

end Protocol

end Deneva
