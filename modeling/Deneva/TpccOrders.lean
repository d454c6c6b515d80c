import Deneva.TpccSteps

/-!
# The order lines of a new order

A new order numbers its lines by `next_item_id`, and gives them the `o_id` of its query. Both belong
to the manager of a node, and no message brings them to another one.

* On the plain path an order whose items are all at home has its lines (`plain_match`): `HomeInv`
  follows the home node and what the others do for it. A line of another node has whatever `o_id` is
  there.
* With Calvin an order that comes to its end has none of its items at its own node: an item there
  leaves its row in the cursor, which `new_order_5` takes for the district. The lines of the other
  nodes have whatever `o_id` is there (`calvin_inserts`).
-/

namespace Deneva

open Function List Option Attempt.State

namespace Tpcc

open Manager

open Protocol

/-! ## An order at the node of its warehouse -/

/-- The states of an attempt. -/
abbrev PlainState : Type := Attempt.State Manager FragmentMessage (ℕ → NodeData)

section Home

variable (S : Scale) (o : NewOrder) (home : ℕ) (db : ℕ → Contents)

/-- Another node is at work on items, and the home node waits for it. -/
structure Busy (node : ℕ) (s : PlainState) : Prop where
  type : (s.mgr node).query.txnType = .TPCC_NEW_ORDER
  late : (s.mgr node).state.Late
  ne_fin : (s.mgr node).state ≠ .FIN
  some : (s.mgr node).query.items ≠ []
  return_eq : s.returnId node = home
  waits : (s.mgr home).state = .NEWORDER6

/-- What is known from where the attempt is. -/
def Here (s : PlainState) : Prop :=
  match s.pos with
  | .run node => (s.mgr node).Ready ∧ (node ≠ home → Busy home node s)
  | .wait node =>
    isDone (s.mgr node).txn = false ∧ ¬ (s.mgr node).txn.Remote S.toCluster node ∧
      (s.mgr node).state.Uses = false ∧ (node ≠ home → Busy home node s)
  | .rqry src dest m =>
    src = home ∧ dest ≠ home ∧ m.state = .NEWORDER8 ∧ m.query.txnType = .TPCC_NEW_ORDER ∧
      m.query.items ≠ [] ∧
      (∀ item ∈ m.query.items, item ∈ o.items ∧ nodeOf S.toCluster item.supplyWId = dest) ∧
      (s.mgr home).state = .NEWORDER6
  | .rsp dest => dest = home ∧ (s.mgr home).state = .NEWORDER6
  | .done => (s.mgr home).nextItemId = o.items.length

/-- Items are on their way to a node, or it is at work on them. -/
def Going (node : ℕ) : Attempt.Where FragmentMessage → Prop
  | .run n | .wait n => n = node
  | .rqry _ dest _ => dest = node
  | _ => False

/-- The attempts of an order at the node of its warehouse. -/
structure HomeInv (s : PlainState) : Prop where
  work : Work S o (db home) (s.mgr home) (s.data home)
  le : (s.mgr home).nextItemId ≤ o.items.length
  away : ∀ node ≠ home, Away S o node (db node) (s.mgr node) (s.data node)
  here : Here S o home s
  /-- a node that is not at work has done all it was sent -/
  idle : ∀ node ≠ home, s.pos ≠ .run node → s.pos ≠ .wait node →
    (s.mgr node).nextItemId = (s.mgr node).query.items.length
  /-- the nodes that have been sent items have inserted lines, or are about to -/
  covers : ∀ item ∈ o.items.take (s.mgr home).nextItemId, nodeOf S.toCluster item.supplyWId ≠ home →
    (s.data (nodeOf S.toCluster item.supplyWId)).orderLines ≠ [] ∨
      Going (nodeOf S.toCluster item.supplyWId) s.pos

variable {S o home db} {s s' : PlainState}

theorem Work.init (c : Contents) : Work S o c (ofQuery o.query).reset c.start :=
  ⟨rfl, .inl (.inl rfl), fun _ => ⟨rfl, rfl⟩,
    fun h => absurd h (TxnState.Early.not_late (.inl rfl)), nofun, fun _ => rfl, nofun, nofun⟩

theorem Away.init (node : ℕ) (c : Contents) : Away S o node c Manager.init c.start :=
  ⟨rfl, rfl, nofun, rfl, le_rfl, nofun⟩

theorem HomeInv.init : HomeInv S o home db (plainMachine S home o.query db).init := by
  have hhome : (plainMachine S home o.query db).init.mgr home = (ofQuery o.query).reset :=
    if_pos rfl
  have haway : ∀ node ≠ home, (plainMachine S home o.query db).init.mgr node = Manager.init :=
    fun node hne => if_neg hne
  refine ⟨?_, ?_, fun node hne => ?_, ⟨?_, fun hne => absurd rfl hne⟩, fun node hne _ _ => ?_, ?_⟩
  · rw [hhome]
    exact Work.init _
  · rw [hhome]
    exact Nat.zero_le _
  · rw [haway node hne]
    exact Away.init node _
  · intro huse
    change ((plainMachine S home o.query db).init.mgr home).state.Uses = true at huse
    rw [hhome] at huse
    cases huse
  · rw [haway node hne]
    rfl
  · rw [hhome]
    nofun

variable {node : ℕ} {l t : Manager} {N : Cluster} {S : Scale}

/-- One node is at work, the others are idle. -/
theorem HomeInv.idle_of_going (hI : HomeInv S o home db s)
    (hgoing : ∀ n, Going n s.pos ↔ node = n) (n : ℕ) (hn : n ≠ home) (hne : n ≠ node) :
    (s.mgr n).nextItemId = (s.mgr n).query.items.length := by
  have hnot : ¬ Going n s.pos := fun h => hne ((hgoing n).mp h).symm
  refine hI.idle n hn (fun h => hnot ?_) (fun h => hnot ?_) <;> rw [h] <;> rfl

/-- A state at the home node. -/
theorem HomeInv.ran_home (hx : nodeOf S.toCluster o.wId = home) (hI : HomeInv S o home db s)
    (hgoing : ∀ n, Going n s.pos ↔ home = n) (hlt : (s.mgr home).nextItemId < o.items.length)
    (hran : Ran S.toCluster home true (s.mgr home) l) :
    HomeInv S o home db
      { s.setMgr home l with
        pos := .run home, data := update s.data home (change S (s.mgr home) (s.data home)) } := by
  have hq := hI.work.query
  have hwork : Work S o (db home) l (change S (s.mgr home) (s.data home)) :=
    hI.work.ran hlt (by rw [hx]; exact hran)
  refine ⟨?_, ?_, fun node hne => ?_, ⟨?_, fun hne => absurd rfl hne⟩, fun node hne _ _ => ?_,
    fun item hmem hne => .inl ?_⟩
  · simpa using hwork
  · have := hran.nextItemId_le (by rw [hq]; exact hlt)
    rw [hran.query_eq, hq] at this
    simpa using this
  · simpa [setMgr_of_ne hne, update_of_ne hne] using hI.away node hne
  · simpa using hran.ready
  · rw [setMgr_of_ne hne]
    exact hI.idle_of_going hgoing node hne hne
  · have hold : item ∈ o.items.take (s.mgr home).nextItemId := by
      cases hran with
      | line hst =>
        -- the line that is inserted is of an item of the home node
        simp only [setMgr_self, take_add_one, mem_append, Option.mem_toList] at hmem
        rcases hmem with hmem | hmem
        · exact hmem
        · exact absurd ((hI.work.here hst item hmem).trans hx) hne
      | _ => simpa using hmem
    rcases hI.covers item hold hne with h | h
    · simpa only [update_of_ne hne] using h
    · exact absurd ((hgoing _).mp h).symm hne

/-- The current item goes to another node, with those that follow it there. -/
theorem HomeInv.sends (hx : nodeOf S.toCluster o.wId = home) (hI : HomeInv S o home db s)
    (hpos : s.pos = .run home) {first : Item}
    (hfirst : (s.mgr home).query.items[(s.mgr home).nextItemId]? = some first)
    (hst : (s.mgr home).state = .NEWORDER8) (hne : nodeOf S.toCluster first.supplyWId ≠ home) :
    HomeInv S o home db
      { s.setMgr home { s.mgr home with
          state := .NEWORDER6
          nextItemId := (s.mgr home).nextItemId +
            (sentItems S.toCluster home (s.mgr home) first).length } with
        pos := .rqry home (nodeOf S.toCluster first.supplyWId)
          ⟨.NEWORDER8,
            { (s.mgr home).query with items := sentItems S.toCluster home (s.mgr home) first }⟩
        sent := s.sent ++ [(home, nodeOf S.toCluster first.supplyWId)] } := by
  have hq := hI.work.query
  have hlate : (s.mgr home).state.Late := by simp [TxnState.Late, hst]
  have hle : (s.mgr home).nextItemId + (sentItems S.toCluster home (s.mgr home) first).length ≤
      o.items.length := by
    have := add_length_sentItems_le S.toCluster home first (by rw [hq]; exact hI.le)
    rwa [hq] at this
  refine ⟨?_, ?_, fun n hn => ?_, ⟨rfl, hne, rfl, ?_, ?_, ?_, ?_⟩, fun n hn _ _ => ?_, ?_⟩
  · rw [setMgr_self]
    refine ⟨hq, .inr (.inl rfl), fun h => absurd (.inl rfl) h.not_late, fun _ => hI.work.late hlate,
      hI.work.lines, fun hall => ?_, (by simp), (by simp)⟩
    rw [hq] at hfirst
    exact absurd ((hall first (mem_of_getElem? hfirst)).trans hx) hne
  · simpa using hle
  · rw [setMgr_of_ne hn]
    exact hI.away n hn
  · rw [hq]
    rfl
  · exact sentItems_ne_nil hfirst hne
  · intro item hmem
    have hmem' := mem_of_mem_drop ((takeWhile_sublist _).mem hmem)
    rw [hq] at hmem'
    exact ⟨hmem', mem_sentItems hmem⟩
  · simp
  · rw [setMgr_of_ne hn]
    exact hI.idle_of_going (by simp [hpos, Going]) n hn hn
  · intro item hmem hn
    have htake := take_add_sentItems S.toCluster home (s.mgr home) first
    rw [hq] at htake
    simp only [setMgr_self] at hmem
    rw [show o.items = o.query.items from rfl, htake, mem_append] at hmem
    rcases hmem with hmem | hmem
    · refine .inl ((hI.covers item hmem hn).resolve_right fun h => ?_)
      rw [hpos] at h
      exact hn h.symm
    · exact .inr (mem_sentItems hmem).symm

/-- A manager that waits has no row. -/
theorem mgr_dropRow (s : PlainState) (node n : ℕ) :
    (s.setMgr node { s.mgr node with hasRow := false }).mgr n =
      { s.mgr n with hasRow := if n = node then false else (s.mgr n).hasRow } := by
  rcases eq_or_ne n node with rfl | hne
  · rw [setMgr_self, if_pos rfl]
  · rw [setMgr_of_ne hne, if_neg hne]

section

variable (hI : HomeInv S o home db s)

include hI

theorem HomeInv.at_run (hpos : s.pos = .run node) :
    (s.mgr node).Ready ∧ (node ≠ home → Busy home node s) := by
  simpa only [Here, hpos] using hI.here

theorem HomeInv.at_done (hpos : s.pos = .done) : (s.mgr home).nextItemId = o.items.length := by
  simpa only [Here, hpos] using hI.here

/-- A state at another node. -/
theorem HomeInv.ran_away (hne : node ≠ home) (hbusy : Busy home node s)
    (hgoing : ∀ n, Going n s.pos ↔ node = n)
    (hlt : (s.mgr node).nextItemId < (s.mgr node).query.items.length)
    (hran : Ran S.toCluster node false (s.mgr node) l) :
    HomeInv S o home db
      { s.setMgr node l with
        pos := .run node, data := update s.data node (change S (s.mgr node) (s.data node)) } := by
  have hhome : (s.setMgr node l).mgr home = s.mgr home := setMgr_of_ne hne.symm ..
  refine ⟨?_, ?_, fun n hn => ?_, ⟨?_, fun _ => ⟨?_, ?_, ?_, ?_, hbusy.return_eq, ?_⟩⟩,
    fun n hn hrun _ => ?_, ?_⟩
  · simpa only [hhome, update_of_ne hne.symm] using hI.work
  · simpa only [hhome] using hI.le
  · rcases eq_or_ne n node with rfl | hnn
    · simpa using (hI.away n hn).ran hlt hbusy.late hran
    · simpa only [setMgr_of_ne hnn, update_of_ne hnn] using hI.away n hn
  · simpa using hran.ready
  · simpa [hran.query_eq] using hbusy.type
  · simpa using hran.stays_late hbusy.late
  · simpa using hran.ne_fin
  · simpa [hran.query_eq] using hbusy.some
  · simpa only [hhome] using hbusy.waits
  · have hnn : n ≠ node := fun h => hrun (h ▸ rfl)
    rw [setMgr_of_ne hnn]
    exact hI.idle_of_going hgoing n hn hnn
  · intro item hmem hn
    simp only [hhome] at hmem
    rcases eq_or_ne (nodeOf S.toCluster item.supplyWId) node with heq | hnn
    · exact .inr heq.symm
    · rcases hI.covers item hmem hn with h | h
      · exact .inl (by simpa only [update_of_ne hnn] using h)
      · exact absurd ((hgoing _).mp h) hnn.symm

/-- A state that waits for its row. -/
theorem HomeInv.waits (hpos : s.pos = .run node) (hdone : isDone (s.mgr node).txn = false)
    (hremote : ¬ (s.mgr node).txn.Remote S.toCluster node)
    (huse : (s.mgr node).state.Uses = false) :
    HomeInv S o home db
      { s.setMgr node { s.mgr node with hasRow := false } with pos := .wait node } := by
  refine ⟨?_, ?_, fun n hn => ?_, ⟨?_, ?_, ?_, fun hne => ?_⟩, fun n hn _ hwait => ?_,
    fun item hmem hn => ?_⟩
  all_goals simp only [mgr_dropRow] at *
  · exact hI.work.hasRow _
  · exact hI.le
  · have ha := hI.away n hn
    exact ⟨ha.oId, ha.orders, ha.lines, ha.count, ha.le, ha.here⟩
  · exact hdone
  · exact hremote
  · exact huse
  · obtain ⟨htype, hlate, hfin, hsome, hret, hwaits⟩ := (hI.at_run hpos).2 hne
    refine ⟨?_, ?_, ?_, ?_, hret, ?_⟩ <;> simp only [mgr_dropRow]
    · exact htype
    · exact hlate
    · exact hfin
    · exact hsome
    · exact hwaits
  · exact hI.idle_of_going (by simp [hpos, Going]) n hn fun h => hwait (h ▸ rfl)
  · refine (hI.covers item hmem hn).imp_right fun h => ?_
    rw [hpos] at h
    exact h

/-- `run_txn` is done, at the home node or at another one. -/
theorem HomeInv.endRun (hpos : s.pos = .run node) (hdone : isDone (s.mgr node).txn = true) :
    HomeInv S o home db
      { s with pos := if node = home then .done else .rsp (s.returnId node) } := by
  rcases eq_or_ne node home with rfl | hne
  · rw [if_pos rfl]
    refine ⟨hI.work, hI.le, hI.away, ?_,
      fun n hn _ _ => hI.idle_of_going (by simp [hpos, Going]) n hn hn, fun item hmem hn => .inl ?_⟩
    · rw [isDone_newOrder (by rw [hI.work.query]; rfl), hI.work.query] at hdone
      exact hdone.elim id hI.work.fin
    · refine (hI.covers item hmem hn).resolve_right fun h => ?_
      rw [hpos] at h
      exact hn h.symm
  · rw [if_neg hne]
    obtain ⟨htype, hlate, hfin, hsome, hret, hwaits⟩ := (hI.at_run hpos).2 hne
    have hlast : (s.mgr node).nextItemId = (s.mgr node).query.items.length :=
      ((isDone_newOrder htype).mp hdone).resolve_right hfin
    refine ⟨hI.work, hI.le, hI.away, ⟨hret, hwaits⟩, fun n hn _ _ => ?_,
      fun item hmem hn => .inl ?_⟩
    · rcases eq_or_ne n node with rfl | hnn
      · exact hlast
      · exact hI.idle_of_going (by simp [hpos, Going]) n hn hnn
    rcases hI.covers item hmem hn with h | h
    · exact h
    · rw [hpos] at h
      have heq : node = nodeOf S.toCluster item.supplyWId := h
      rw [← heq] at hn ⊢
      -- it had items, and has inserted a line for each
      have hcount := (hI.away node hn).count
      have hlength := length_pos_of_ne_nil hsome
      intro hnil
      rw [hnil, hlast] at hcount
      simp only [length_nil] at hcount
      omega

/-- A message comes to another node. -/
theorem HomeInv.rqry {src dest : ℕ} {m : FragmentMessage} (hpos : s.pos = .rqry src dest m) :
    HomeInv S o home db
      { s.setMgr dest (Manager.copyToTxn m (s.mgr dest)) with
        pos := .run dest, returnId := update s.returnId dest src } := by
  have hhere := hI.here
  simp only [Here, hpos] at hhere
  obtain ⟨rfl, hne, hst, htype, hsome, hitems, hwaits⟩ := hhere
  have hhome : ∀ l, (s.setMgr dest l).mgr src = s.mgr src :=
    fun l => setMgr_of_ne hne.symm ..
  have hcopy : Manager.copyToTxn m (s.mgr dest) = { s.mgr dest with
      state := .NEWORDER8
      query := { (s.mgr dest).query with
        txnType := .TPCC_NEW_ORDER, wId := m.query.wId, dId := m.query.dId, cId := m.query.cId
        items := (s.mgr dest).query.items ++ m.query.items, rbk := m.query.rbk,
          remote := m.query.remote
        olCnt := m.query.olCnt, oEntryD := m.query.oEntryD } } := by
    simp only [Manager.copyToTxn, htype, hst]
  rw [hcopy]
  refine ⟨?_, ?_, fun n hn => ?_, ⟨?_, fun _ => ⟨?_, ?_, ?_, ?_, ?_, ?_⟩⟩,
    fun n hn hrun _ => ?_, ?_⟩
  · rw [hhome]
    exact hI.work
  · rw [hhome]
    exact hI.le
  · rcases eq_or_ne n dest with rfl | hnd
    · have ha := hI.away n hn
      rw [setMgr_self]
      refine ⟨ha.oId, ha.orders, ha.lines, ha.count, ?_, fun item hmem => ?_⟩
      · rw [length_append]
        exact ha.le.trans (Nat.le_add_right _ _)
      · exact (mem_append.mp hmem).elim (ha.here item) (hitems item)
    · rw [setMgr_of_ne hnd]
      exact hI.away n hn
  · rw [setMgr_self]
    nofun
  · rw [setMgr_self]
  · rw [setMgr_self]
    exact .inr (.inr (.inl rfl))
  · rw [setMgr_self]
    nofun
  · rw [setMgr_self]
    exact append_ne_nil_of_right_ne_nil _ hsome
  · exact update_self ..
  · rw [hhome]
    exact hwaits
  · have hnd : n ≠ dest := by
      rintro rfl
      exact hrun rfl
    rw [setMgr_of_ne hnd]
    exact hI.idle n hn (by simp [hpos]) (by simp [hpos])
  · intro item hmem hn
    rw [hhome] at hmem
    refine (hI.covers item hmem hn).imp_right fun h => ?_
    rw [hpos] at h
    exact h

/-- The response comes back. -/
theorem HomeInv.rqryRsp (hpos : s.pos = .rsp home) :
    HomeInv S o home db { s with pos := .run home } := by
  have hhere := hI.here
  simp only [Here, hpos] at hhere
  refine ⟨hI.work, hI.le, hI.away, ⟨fun huse => ?_, fun hne => absurd rfl hne⟩,
    fun n hn _ _ => hI.idle n hn (by simp [hpos]) (by simp [hpos]), fun item hmem hn => .inl ?_⟩
  · rw [hhere.2] at huse
    cases huse
  · refine (hI.covers item hmem hn).resolve_right fun h => ?_
    rw [hpos] at h
    exact h

end

/-- A state at a node, or the row it has waited for. -/
theorem HomeInv.ran (hx : nodeOf S.toCluster o.wId = home) (hI : HomeInv S o home db s)
    (hgoing : ∀ n, Going n s.pos ↔ node = n) (hbusy : node ≠ home → Busy home node s)
    (hdone : isDone (s.mgr node).txn = false)
    (hran : Ran S.toCluster node (decide (node = home)) (s.mgr node) l) :
    HomeInv S o home db
      { s.setMgr node l with
        pos := .run node, data := update s.data node (change S (s.mgr node) (s.data node)) } := by
  rcases eq_or_ne node home with rfl | hne
  · have hq := hI.work.query
    have hnot := (not_isDone_newOrder (by rw [hq]; rfl) hdone).1
    rw [hq] at hnot
    refine hI.ran_home hx hgoing (Nat.lt_of_le_of_ne hI.le hnot) ?_
    simpa using hran
  · have hnot := (not_isDone_newOrder (hbusy hne).type hdone).1
    refine hI.ran_away hne (hbusy hne) hgoing (Nat.lt_of_le_of_ne (hI.away node hne).le hnot) ?_
    simpa [hne] using hran

/-- The manager that is at work has a new order, and is at one of its states. -/
theorem HomeInv.at_work (hI : HomeInv S o home db s) (hbusy : node ≠ home → Busy home node s) :
    (s.mgr node).query.txnType = .TPCC_NEW_ORDER ∧
      ((s.mgr node).state.Early ∨ (s.mgr node).state.Late) ∧
      (s.mgr node).nextItemId ≤ (s.mgr node).query.items.length := by
  rcases eq_or_ne node home with rfl | hne
  · rw [hI.work.query]
    exact ⟨rfl, hI.work.states, hI.le⟩
  · exact ⟨(hbusy hne).type, .inr (hbusy hne).late, (hI.away node hne).le⟩

/-- **Every step keeps the invariant**, at the home node and at the others. -/
theorem HomeInv.step (hx : nodeOf S.toCluster o.wId = home) (hI : HomeInv S o home db s)
    {a : Attempt.Action} (h : (plainMachine S home o.query db).step s a = some s') :
    HomeInv S o home db s' := by
  have hhere := hI.here
  cases Attempt.step_of_eq_some h with
  | ran rc node l hpos hdone hrun =>
    obtain ⟨-, hbusy⟩ := hI.at_run hpos
    obtain ⟨htype, hst, -⟩ := hI.at_work hbusy
    have := hI.ran hx (by simp [hpos, Going]) hbusy hdone
      (ran_of_runTxnState htype hst hdone hrun)
    rwa [← hpos] at this
  | waits rc node l hpos hdone hrun =>
    obtain ⟨htype, hst, -⟩ := hI.at_work (hI.at_run hpos).2
    obtain ⟨rfl, hremote, huse⟩ := waits_of_runTxnState (not_isDone_newOrder htype hdone).2 hrun
    exact hI.waits hpos hdone hremote huse
  | sends rc node l dest m hpos hdone hrun =>
    obtain ⟨htype, hst, hle⟩ := hI.at_work (hI.at_run hpos).2
    obtain ⟨hlocal, first, hfirst, hgoes, hdest, hl, hm⟩ :=
      sends_of_runTxnState htype hst hdone hle hrun
    obtain rfl : node = home := of_decide_eq_true hlocal
    -- the order itself is at home
    rcases hgoes with ⟨-, hto⟩ | ⟨hst8, hto⟩
    · rw [hto, hI.work.query] at hdest
      exact absurd hx hdest
    · have := hI.sends hx hpos hfirst hst8 (hto ▸ hdest)
      rw [hst8] at hm
      rwa [← hl, ← hm, ← hto] at this
  | endRun node hpos hdone => exact hI.endRun hpos hdone
  | resume node hpos =>
    simp only [Here, hpos] at hhere
    obtain ⟨hdone, hremote, huse, hbusy⟩ := hhere
    obtain ⟨htype, hst, -⟩ := hI.at_work hbusy
    have hran : Ran S.toCluster node (decide (node = home)) (s.mgr node)
        ((program S).W.runTxnPostWait (decide (node = home)) (s.mgr node)) :=
      ran_of_runTxnPostWait htype hst hdone hremote
    have := hI.ran hx (by simp [hpos, Going]) hbusy hdone hran
    rwa [change_of_not_uses huse, update_eq_self] at this
  | rqry src dest m hpos hne => exact hI.rqry hpos
  | rqryRsp hpos => exact hI.rqryRsp hpos

/-! ### Progress -/

/-- How many states a manager has left. -/
def Manager.left (t : Manager) : ℕ := (t.query.items.length - t.nextItemId) * 4 + t.state.left

theorem Ran.left_lt {isLocal : Bool} (h : Ran N node isLocal t l)
    (hlt : t.nextItemId < t.query.items.length) : l.left < t.left := by
  cases h with
  | early st _ _ _ hleft => exact Nat.add_lt_add_left hleft _
  | order hst =>
    simp only [left, hst, TxnState.left]
    omega
  | late st _ _ _ _ hleft => exact Nat.add_lt_add_left (hleft ▸ Nat.lt_succ_self _) _
  | line hst =>
    simp only [left, hst]
    split_ifs <;> simp only [TxnState.left] <;> omega

/-- How far the attempt is from its end. An item that is sent costs the home node more than the
other one. -/
def distance (home : ℕ) (s : PlainState) : ℕ :=
  10 * (s.mgr home).left +
    match s.pos with
    | .run node | .wait node => if node = home then 2 else (s.mgr node).left + 4
    | .rqry _ _ m => 4 * m.query.items.length + 6
    | .rsp _ => 3
    | .done => 0

/-- The stock of the current item is at the node. -/
theorem here_of_not_remote (hlt : t.nextItemId < t.query.items.length) (hst : t.state = .NEWORDER8)
    (hhere : ¬ t.txn.Remote N node) :
    ∃ item, t.query.items[t.nextItemId]? = some item ∧ nodeOf N item.supplyWId = node := by
  have hitem : t.query.items[t.nextItemId]? = some t.query.items[t.nextItemId] :=
    getElem?_eq_getElem hlt
  refine ⟨_, hitem, ?_⟩
  by_contra hne
  refine hhere ?_
  simp only [Txn.Remote, show t.txn.state = _ from hst]
  exact ⟨_, by simp [txn, hitem], hne⟩

theorem lookup_newOrder8 {db : ℕ → NodeData} (hst : t.state = .NEWORDER8) :
    lookup S node t db = (t.query.items[t.nextItemId]?).any fun item =>
      decide (nodeOf S.toCluster item.supplyWId = node) := by
  simp only [lookup, hst]

/-- A state that has its row, or whose row is there, goes on. -/
theorem exists_ran (isLocal : Bool) (db : ℕ → NodeData) (hst : t.state.Early ∨ t.state.Late)
    (hfin : t.state ≠ .FIN) (hlt : t.nextItemId < t.query.items.length) (hready : t.Ready)
    (hearly : t.state.Early → nodeOf S.toCluster t.query.wId = node)
    (hhere : ¬ t.txn.Remote S.toCluster node) :
    ∃ l, t.runTxnState S.toCluster node isLocal ⟨.RCOK, lookup S node t db, 0⟩ =
      some (.RCOK, l, none) := by
  obtain ⟨c, hc⟩ := exists_nextTpccState isLocal hst
  have hguard : ¬ (t.txn.txnType = .TPCC_NEW_ORDER ∧ t.txn.items.length ≤ t.txn.nextItemId) := by
    simp [txn, hlt]
  have hget : lookup S node t db = true →
      getRow isLocal t.txn ⟨.RCOK, lookup S node t db, 0⟩ = some (.RCOK, c, none) := by
    intro hlookup
    simp [getRow, hlookup, hc]
  have huse : t.state.Uses = true → useRow isLocal t.txn = some (.RCOK, c, none) := by
    intro h
    have hrow : t.txn.row = true := hready h
    rw [← hrow] at hc
    simp [useRow, hrow, hc]
  suffices h : Tpcc.runTxnState S.toCluster node isLocal t.txn ⟨.RCOK, lookup S node t db, 0⟩ =
      some (.RCOK, c, none) by
    refine ⟨t.setTxn c, ?_⟩
    rw [Manager.runTxnState, h]
    rfl
  rcases hst with hst | hst
  · have hwh := hearly hst
    have hlookup : t.state.Uses = false → lookup S node t db = true := by
      rcases hst with hst | hst | hst | hst | hst | hst <;>
        simp [lookup, hst, hwh, TxnState.Uses]
    have hwh' : nodeOf S.toCluster t.txn.wId = node := hwh
    rcases hst with hst | hst | hst | hst | hst | hst <;>
      simp only [Tpcc.runTxnState, if_neg hguard, show t.txn.state = _ from hst, if_pos hwh']
    case inl | inr.inr.inl | inr.inr.inr.inr.inl => exact hget (hlookup (by rw [hst]; rfl))
    all_goals exact huse (by rw [hst]; rfl)
  · rcases hst with hst | hst | hst | hst | hst <;>
      simp only [Tpcc.runTxnState, if_neg hguard, show t.txn.state = _ from hst]
    · exact hget (by simp [lookup, hst])
    · exact huse (by rw [hst]; rfl)
    · -- the stock of the current item is at this node
      obtain ⟨item, hitem, hloc⟩ := here_of_not_remote hlt hst hhere
      have hwid : t.txn.items[t.txn.nextItemId]? = some item.supplyWId := by
        simp [txn, hitem]
      have hlookup : lookup S node t db = true := by
        rw [lookup_newOrder8 hst, hitem, any_some, hloc]
        exact decide_eq_true rfl
      rw [hwid]
      exact (if_pos hloc).trans (hget hlookup)
    · exact huse (by rw [hst]; rfl)
    · exact absurd hst hfin

/-- A state whose row is at another node goes there. -/
theorem exists_sends {a : Answer} (hst : t.state.Early ∨ t.state.Late)
    (hlt : t.nextItemId < t.query.items.length) (hremote : t.txn.Remote S.toCluster node) :
    ∃ l dest m, t.runTxnState S.toCluster node true a = some (.WAIT_REM, l, some (dest, m)) := by
  have hguard : ¬ (t.txn.txnType = .TPCC_NEW_ORDER ∧ t.txn.items.length ≤ t.txn.nextItemId) := by
    simp [txn, hlt]
  have hitem : t.txn.items[t.txn.nextItemId]? = some t.query.items[t.nextItemId].supplyWId := by
    simp [txn, getElem?_eq_getElem hlt]
  suffices h : ∃ c dest m, Tpcc.runTxnState S.toCluster node true t.txn a =
      some (.WAIT_REM, c, some (dest, m)) by
    obtain ⟨c, dest, m, h⟩ := h
    exact ⟨t.setTxn c, dest, t.message m, by rw [Manager.runTxnState, h]; rfl⟩
  have hsend : ∀ r, remoteRequest S.toCluster t.txn = some r →
      ∃ c dest m, sendRemoteRequest S.toCluster node true t.txn =
      some (.WAIT_REM, c, some (dest, m)) := by
    intro r hr
    exact ⟨_, _, _, by rw [sendRemoteRequest, if_pos rfl, hr]; rfl⟩
  rcases hst with hst | hst
  · rcases hst with hst | hst | hst | hst | hst | hst <;>
      simp only [Txn.Remote, show t.txn.state = _ from hst] at hremote
    simp only [Tpcc.runTxnState, if_neg hguard, show t.txn.state = _ from hst, if_neg hremote]
    exact hsend (_, .NEWORDER6) (by simp only [remoteRequest, show t.txn.state = _ from hst]; rfl)
  · rcases hst with hst | hst | hst | hst | hst <;>
      simp only [Txn.Remote, show t.txn.state = _ from hst] at hremote
    rw [hitem] at hremote
    obtain ⟨wid, hwid, hne⟩ := hremote
    cases hwid
    simp only [Tpcc.runTxnState, if_neg hguard, show t.txn.state = _ from hst, hitem, if_neg hne]
    exact hsend (_, _)
      (by simp only [remoteRequest, show t.txn.state = _ from hst, hitem, map_some]; rfl)

theorem HomeInv.eq_home_of_remote (hI : HomeInv S o home db s)
    (hbusy : node ≠ home → Busy home node s) (hremote : (s.mgr node).txn.Remote S.toCluster node) :
    node = home := by
  by_contra hne
  have hst := (hbusy hne).late
  rcases hst with hst | hst | hst | hst | hst <;>
    simp only [Txn.Remote, show (s.mgr node).txn.state = _ from hst] at hremote
  obtain ⟨wid, hwid, hnot⟩ := hremote
  simp only [txn, getElem?_map, map_eq_some_iff] at hwid
  obtain ⟨item, hitem, rfl⟩ := hwid
  exact hnot ((hI.away node hne).here item (mem_of_getElem? hitem)).2

/-- A state at a node makes the distance smaller. -/
theorem distance_ran_lt {s s' : PlainState} (hpos : s.pos = .run node ∨ s.pos = .wait node)
    (hpos' : s'.pos = .run node) (hmgr : s'.mgr = (s.setMgr node l).mgr)
    (hlt : l.left < (s.mgr node).left) : distance home s' < distance home s := by
  have hold : distance home s =
      10 * (s.mgr home).left + if node = home then 2 else (s.mgr node).left + 4 := by
    rcases hpos with hpos | hpos <;> simp only [distance, hpos]
  rw [hold]
  simp only [distance, hpos', hmgr]
  rcases eq_or_ne node home with rfl | hne
  · simp only [if_pos, setMgr_self]
    omega
  · simp only [if_neg hne, setMgr_self, setMgr_of_ne hne.symm]
    omega

/-- The items that are sent cost the home node more than the other one. -/
theorem Sends.left_lt {first : Item} {dest : ℕ} {m : FragmentMessage}
    (h : Sends N node t first dest l m) (hle : t.nextItemId ≤ t.query.items.length) :
    10 * l.left + (4 * m.query.items.length + 6) < 10 * t.left + 2 := by
  obtain ⟨hfirst, hgoes, hdest, rfl, rfl⟩ := h
  have hlast := add_length_sentItems_le N node first hle
  simp only [left, TxnState.left]
  rcases hgoes with ⟨hst, -⟩ | ⟨hst, hto⟩ <;> rw [hst]
  · simp only
    omega
  · have hsome := length_pos_of_ne_nil (sentItems_ne_nil hfirst (hto ▸ hdest))
    simp only
    omega

section

variable (hx : nodeOf S.toCluster o.wId = home)

include hx

theorem HomeInv.early_here (hI : HomeInv S o home db s) (hbusy : node ≠ home → Busy home node s)
    (hearly : (s.mgr node).state.Early) : nodeOf S.toCluster (s.mgr node).query.wId = node := by
  rcases eq_or_ne node home with rfl | hne
  · rw [hI.work.query]
    exact hx
  · exact absurd (hbusy hne).late hearly.not_late

/-- Until the end some step brings the attempt closer to it. -/
theorem HomeInv.exists_step (hI : HomeInv S o home db s) (hnot : s.pos ≠ .done) :
    ∃ a s', (plainMachine S home o.query db).step s a = some s' ∧ HomeInv S o home db s' ∧
      distance home s' < distance home s := by
  suffices h : ∃ a s', Attempt.Step s a s' ∧
      distance home s' < distance home s by
    obtain ⟨a, s', hstep, hlt⟩ := h
    exact ⟨a, s', hstep.eq_some, hI.step hx hstep.eq_some, hlt⟩
  have hhere := hI.here
  cases hpos : s.pos with
  | run node =>
    obtain ⟨hready, hbusy⟩ := hI.at_run hpos
    obtain ⟨htype, hst, hle⟩ := hI.at_work hbusy
    cases hdone : isDone (s.mgr node).txn with
    | true =>
      refine ⟨_, _, .endRun node hpos hdone, ?_⟩
      simp only [distance, hpos]
      rcases eq_or_ne node home with rfl | hne
      · simp [setup]
      · simp [setup, hne]
    | false =>
      obtain ⟨hlast, hfin⟩ := not_isDone_newOrder htype hdone
      have hlt := Nat.lt_of_le_of_ne hle hlast
      by_cases hremote : (s.mgr node).txn.Remote S.toCluster node
      · -- only the home node is asked for what it does not have
        obtain rfl : node = home := hI.eq_home_of_remote hbusy hremote
        obtain ⟨l, dest, m, hrun⟩ := exists_sends hst hlt
          hremote
        have hlocal : decide (node = (setup node o.query db).home) = true := decide_eq_true rfl
        refine ⟨_, _, .sends .RCOK node l dest m hpos hdone (by rw [hlocal]; exact hrun), ?_⟩
        obtain ⟨-, first, hsends⟩ := sends_of_runTxnState htype hst hdone hle hrun
        simp only [distance, hpos, if_pos, setMgr_self]
        exact hsends.left_lt hle
      · obtain ⟨l, hrun⟩ := exists_ran (decide (node = home)) s.data hst hfin hlt
          hready (hI.early_here hx hbusy) hremote
        refine ⟨_, _, .ran .RCOK node l hpos hdone hrun, ?_⟩
        exact distance_ran_lt (.inl hpos) hpos rfl
          ((ran_of_runTxnState htype hst hdone hrun).left_lt hlt)
  | wait node =>
    simp only [Here, hpos] at hhere
    obtain ⟨hdone, hremote, huse, hbusy⟩ := hhere
    obtain ⟨htype, hst, hle⟩ := hI.at_work hbusy
    have hlt := Nat.lt_of_le_of_ne hle (not_isDone_newOrder htype hdone).1
    refine ⟨_, _, .resume node hpos, ?_⟩
    exact distance_ran_lt (.inr hpos) rfl rfl
      ((ran_of_runTxnPostWait htype hst hdone hremote).left_lt hlt)
  | rqry src dest m =>
    simp only [Here, hpos] at hhere
    obtain ⟨rfl, hne, hst, htype, hsome, hitems, hwaits⟩ := hhere
    refine ⟨_, _, .rqry src dest m hpos hne, ?_⟩
    have hidle := hI.idle dest hne (by simp [hpos]) (by simp [hpos])
    have hleft : (Manager.copyToTxn m (s.mgr dest)).left = 4 * m.query.items.length + 1 := by
      simp only [left, Manager.copyToTxn, htype, hst, TxnState.left, length_append, ← hidle]
      omega
    simp only [distance, hpos, if_neg hne]
    rw [setMgr_of_ne hne.symm, setMgr_self]
    change _ + ((Manager.copyToTxn m (s.mgr dest)).left + 4) < _
    omega
  | rsp dest =>
    simp only [Here, hpos] at hhere
    obtain ⟨rfl, -⟩ := hhere
    refine ⟨_, _, .rqryRsp hpos, ?_⟩
    simp [distance, hpos, setup]
  | done => exact absurd hpos hnot

/-- The attempts of an order at the node of its warehouse. -/
theorem HomeInv.of_reachable (hs : (plainMachine S home o.query db).Reachable s) :
    HomeInv S o home db s :=
  hs.invariant .init fun _ _ _ hI hstep => hI.step hx hstep

end

/-- **An order at the node of its warehouse comes to its commit.** -/
theorem exists_home_done (db : ℕ → Contents) (hx : nodeOf S.toCluster o.wId = home) :
    ∃ s, (plainMachine S home o.query db).Reachable s ∧ s.pos = .done := by
  obtain ⟨as, s, hrun, -, hdone⟩ :=
    Machine.exists_runFrom_of_measure (I := HomeInv S o home db)
      (distance home) (fun s hI hnot => hI.exists_step hx hnot) .init
  exact ⟨s, Machine.Reachable.init.runFrom hrun, hdone⟩

end Home

/-! ## An order that belongs to one other node -/

section Far

variable (S : Scale) (o : NewOrder) (home node : ℕ) (db : ℕ → Contents)

/-- The home node has sent everything, the node of the order has come so far, and the others have
done nothing. -/
structure FarWork (mgr : ℕ → Manager) (data : ℕ → NodeData) : Prop where
  query : (mgr home).query = o.query
  last : (mgr home).nextItemId = o.items.length
  work : Work S o (db node) (mgr node) (data node)
  le : (mgr node).nextItemId ≤ o.items.length
  others : ∀ n ≠ node, data n = (db n).start

/-- The attempts of an order at a home node that has nothing of it. -/
inductive FarInv (s : PlainState) : Prop where
  | before (hpos : s.pos = .run home) (hhome : s.mgr home = (ofQuery o.query).reset)
      (hnode : s.mgr node = Manager.init) (hdata : ∀ n, s.data n = (db n).start)
  | sent (hpos : s.pos = .rqry home node ⟨.NEWORDER0, o.query⟩)
      (hquery : (s.mgr home).query = o.query) (hlast : (s.mgr home).nextItemId = o.items.length)
      (hnode : s.mgr node = Manager.init) (hdata : ∀ n, s.data n = (db n).start)
  | during (hpos : s.pos = .run node) (hreturn : s.returnId node = home)
      (hwork : FarWork S o home node db s.mgr s.data)
  | waits (hpos : s.pos = .wait node) (hreturn : s.returnId node = home)
      (hwork : FarWork S o home node db s.mgr s.data) (hdone : isDone (s.mgr node).txn = false)
      (hhere : ¬ (s.mgr node).txn.Remote S.toCluster node) (huse : (s.mgr node).state.Uses = false)
  | after (hpos : s.pos = .rsp home ∨ s.pos = .run home ∨ s.pos = .done)
      (hwork : FarWork S o home node db s.mgr s.data)
      (hlast : (s.mgr node).nextItemId = o.items.length)

variable {S o home node db} {s s' : PlainState}

/-- All items go in one message. -/
theorem sentItems_eq (hne : node ≠ home)
    (hall : ∀ item ∈ o.items, nodeOf S.toCluster item.supplyWId = node) {t : Manager}
    (hq : t.query = o.query) (hzero : t.nextItemId = 0) {first : Item} (hfirst : first ∈ o.items) :
    sentItems S.toCluster home t first = o.items := by
  rw [sentItems, hq, hzero, drop_zero]
  refine List.takeWhile_eq_self_iff.mpr fun item hmem => ?_
  simp [hall item hmem, hall first hfirst, hne]

/-- Only one node runs. -/
theorem eq_of_run (hpos : s.pos = .run node) (n : ℕ) (hn : s.pos = .run n) : n = node := by
  rw [hpos] at hn
  exact (Attempt.Where.run.inj hn).symm

variable {a : Attempt.Action}

/-- Where the home node is done, only the end of the attempt is left. -/
theorem step_at_end (hpos : s.pos = .rsp home ∨ s.pos = .run home ∨ s.pos = .done)
    (hdone : isDone (s.mgr home).txn = true)
    (h : (plainMachine S home o.query db).step s a = some s') :
    s'.mgr = s.mgr ∧ s'.data = s.data ∧ (s'.pos = .run home ∨ s'.pos = .done) := by
  have hrun : ∀ n, s.pos = .run n → n = home := by
    intro n hn
    rcases hpos with hpos | hpos | hpos <;> rw [hpos] at hn <;> cases hn
    rfl
  have hnever : ∀ n, s.pos = .run n → (program S).W.isDone (s.mgr n) ≠ false := by
    intro n hn hnot
    rw [hrun n hn, show (program S).W.isDone (s.mgr home) = true from hdone] at hnot
    cases hnot
  cases Attempt.step_of_eq_some h with
  | ran rc n l hpos' hnot | waits rc n l hpos' hnot | sends rc n l dest m hpos' hnot =>
    exact absurd hnot (hnever n hpos')
  | endRun n hpos' => exact ⟨rfl, rfl, .inr (if_pos (hrun n hpos'))⟩
  | resume n hpos' | rqry src dest m hpos' =>
    rcases hpos with hpos | hpos | hpos <;> rw [hpos] at hpos' <;> cases hpos'
  | rqryRsp => exact ⟨rfl, rfl, .inl rfl⟩

/-- The message comes to the node of the order. -/
theorem FarInv.step_sent (hpos : s.pos = .rqry home node ⟨.NEWORDER0, o.query⟩)
    (hquery : (s.mgr home).query = o.query) (hlast : (s.mgr home).nextItemId = o.items.length)
    (hne : node ≠ home) (hnode : s.mgr node = Manager.init) (hdata : ∀ n, s.data n = (db n).start)
    (h : (plainMachine S home o.query db).step s a = some s') : FarInv S o home node db s' := by
  cases Attempt.step_of_eq_some h with
  | rqry src dest m hpos' hne' =>
    rw [hpos] at hpos'
    obtain ⟨rfl, rfl, rfl⟩ := Attempt.Where.rqry.inj hpos'
    have hhome : ∀ l, (s.setMgr node l).mgr home = s.mgr home :=
      fun l => setMgr_of_ne hne.symm ..
    refine .during rfl (update_self ..) ⟨?_, ?_, ?_, ?_, fun n _ => hdata n⟩
    · rw [hhome]
      exact hquery
    · rw [hhome]
      exact hlast
    · rw [setMgr_self, hnode]
      change Work S o (db node) _ (s.data node)
      rw [hdata]
      exact Work.init _
    · rw [setMgr_self, hnode]
      exact Nat.zero_le _
  | ran rc n l hpos' | waits rc n l hpos' | sends rc n l dest m hpos' | endRun n hpos'
  | resume n hpos' | rqryRsp hpos' => rw [hpos] at hpos'; cases hpos'

/-- The node of the order waits for a row. -/
theorem FarWork.waits (hne : node ≠ home) (hwork : FarWork S o home node db s.mgr s.data) :
    FarWork S o home node db (s.setMgr node { s.mgr node with hasRow := false }).mgr s.data := by
  have hhome : (s.setMgr node { s.mgr node with hasRow := false }).mgr home = s.mgr home :=
    setMgr_of_ne hne.symm ..
  refine ⟨hhome ▸ hwork.query, hhome ▸ hwork.last, ?_, ?_, hwork.others⟩
  · rw [setMgr_self]
    exact hwork.work.hasRow false
  · rw [setMgr_self]
    exact hwork.le

section

variable (hx : nodeOf S.toCluster o.wId = node)

include hx

/-- The home node sends the order. -/
theorem FarInv.step_before (hne : node ≠ home)
    (hall : ∀ item ∈ o.items, nodeOf S.toCluster item.supplyWId = node) (hsome : o.items ≠ [])
    (hpos : s.pos = .run home) (hhome : s.mgr home = (ofQuery o.query).reset)
    (hnode : s.mgr node = Manager.init) (hdata : ∀ n, s.data n = (db n).start)
    (h : (plainMachine S home o.query db).step s a = some s') : FarInv S o home node db s' := by
  have hremote : (s.mgr home).txn.Remote S.toCluster home := by
    rw [hhome]
    exact fun h => hne (hx.symm.trans h)
  have hst : (s.mgr home).state = .NEWORDER0 := by
    rw [hhome]
    rfl
  have hfin : (s.mgr home).state ≠ .FIN := by simp [hst]
  have hq : (s.mgr home).query = o.query := by
    rw [hhome]
    rfl
  have hzero : (s.mgr home).nextItemId = 0 := by
    rw [hhome]
    rfl
  have hrun := eq_of_run hpos
  cases Attempt.step_of_eq_some h with
  | ran rc n l hpos' hdone hran =>
    obtain rfl := hrun n hpos'
    exact absurd hremote (not_remote_of_runTxnState hfin hran)
  | waits rc n l hpos' hdone hwait =>
    obtain rfl := hrun n hpos'
    exact absurd hremote (waits_of_runTxnState hfin hwait).2.1
  | sends rc n l dest m hpos' hdone hsend =>
    obtain rfl := hrun n hpos'
    have hle : (s.mgr n).nextItemId ≤ (s.mgr n).query.items.length := by
      rw [hzero]
      exact Nat.zero_le _
    obtain ⟨-, first, hfirst, hgoes, hdest, rfl, rfl⟩ :=
      sends_of_runTxnState (by rw [hq]; rfl) (.inl (.inl hst)) hdone hle hsend
    have hmem : first ∈ o.items := by
      rw [hq] at hfirst
      exact mem_of_getElem? hfirst
    have hitems := sentItems_eq hne hall hq hzero hmem
    have hto : dest = node := by
      rcases hgoes with ⟨-, hto⟩ | ⟨hst8, -⟩
      · rw [hto, hq]
        exact hx
      · rw [hst] at hst8
        cases hst8
    refine .sent ?_ ?_ ?_ ?_ hdata
    · simp only [hto, hst, hitems, hq]
      rfl
    · simpa using hq
    · simp [hzero, hitems]
    · rw [setMgr_of_ne hne]
      exact hnode
  | endRun n hpos' hdone =>
    obtain rfl := hrun n hpos'
    rcases (isDone_newOrder (by rw [hq]; rfl)).mp hdone with hlast | hlast
    · rw [hzero, hq] at hlast
      exact absurd (length_eq_zero_iff.mp hlast.symm) hsome
    · exact absurd hlast hfin
  | resume n hpos' | rqry src dest m hpos' | rqryRsp hpos' => rw [hpos] at hpos'; cases hpos'

/-- A state of the node of the order. -/
theorem FarWork.ran (hne : node ≠ home) (hwork : FarWork S o home node db s.mgr s.data)
    (hdone : isDone (s.mgr node).txn = false) {l : Manager}
    (hran : Ran S.toCluster node false (s.mgr node) l) :
    FarWork S o home node db (s.setMgr node l).mgr
      (update s.data node (change S (s.mgr node) (s.data node))) := by
  have hq := hwork.work.query
  have hhome : (s.setMgr node l).mgr home = s.mgr home := setMgr_of_ne hne.symm ..
  have hlt : (s.mgr node).nextItemId < o.items.length := by
    have := (not_isDone_newOrder (by rw [hq]; rfl) hdone).1
    rw [hq] at this
    exact Nat.lt_of_le_of_ne hwork.le this
  refine ⟨hhome ▸ hwork.query, hhome ▸ hwork.last, ?_, ?_, fun n hn => ?_⟩
  · simpa using hwork.work.ran hlt (by rw [hx]; exact hran)
  · have := hran.nextItemId_le (by rw [hq]; exact hlt)
    rw [hran.query_eq, hq] at this
    simpa using this
  · simpa [update_of_ne hn] using hwork.others n hn

/-- The home node sends the whole order in one message, and the node of the order does all the rest.
-/
theorem FarInv.step (hne : node ≠ home)
    (hall : ∀ item ∈ o.items, nodeOf S.toCluster item.supplyWId = node) (hsome : o.items ≠ [])
    (hI : FarInv S o home node db s) (h : (plainMachine S home o.query db).step s a = some s') :
    FarInv S o home node db s' := by
  cases hI with
  | before hpos hhome hnode hdata => exact .step_before hx hne hall hsome hpos hhome hnode hdata h
  | sent hpos hquery hlast hnode hdata => exact .step_sent hpos hquery hlast hne hnode hdata h
  | during hpos hreturn hwork =>
    have hq := hwork.work.query
    have htype : (s.mgr node).query.txnType = .TPCC_NEW_ORDER := by
      rw [hq]
      rfl
    have hlocal : decide (node = (setup home o.query db).home) = false := decide_eq_false hne
    have hrun := eq_of_run hpos
    cases Attempt.step_of_eq_some h with
    | ran rc n l hpos' hdone hran =>
      obtain rfl := hrun n hpos'
      rw [hlocal] at hran
      exact .during hpos hreturn
        (hwork.ran hx hne hdone (ran_of_runTxnState htype hwork.work.states hdone hran))
    | waits rc n l hpos' hdone hwait =>
      obtain rfl := hrun n hpos'
      obtain ⟨rfl, hhere, huse⟩ := waits_of_runTxnState (not_isDone_newOrder htype hdone).2 hwait
      refine .waits rfl hreturn (hwork.waits hne) ?_ ?_ ?_ <;> rw [setMgr_self]
      · exact hdone
      · exact hhere
      · exact huse
    | sends rc n l dest m hpos' hdone hsend =>
      obtain rfl := hrun n hpos'
      have := (sends_of_runTxnState htype hwork.work.states hdone
        (by rw [hq]; exact hwork.le) hsend).1
      rw [hlocal] at this
      cases this
    | endRun n hpos' hdone =>
      obtain rfl := hrun n hpos'
      refine .after (.inl ?_) hwork ?_
      · exact (if_neg hne).trans (by rw [hreturn])
      · have hlast := (isDone_newOrder htype).mp hdone
        rw [hq] at hlast
        exact hlast.elim id hwork.work.fin
    | resume n hpos' | rqry src dest m hpos' | rqryRsp hpos' => rw [hpos] at hpos'; cases hpos'
  | waits hpos hreturn hwork hdone hhere huse =>
    cases Attempt.step_of_eq_some h with
    | resume n hpos' =>
      rw [hpos] at hpos'
      obtain rfl := Attempt.Where.wait.inj hpos'
      have hlocal : decide (node = (setup home o.query db).home) = false := decide_eq_false hne
      rw [hlocal]
      have hran : Ran S.toCluster node false (s.mgr node)
          ((program S).W.runTxnPostWait false (s.mgr node)) :=
        ran_of_runTxnPostWait (by rw [hwork.work.query]; rfl) hwork.work.states hdone hhere
      have := hwork.ran hx hne hdone hran
      rw [change_of_not_uses huse, update_eq_self] at this
      exact .during rfl hreturn this
    | ran rc n l hpos' | waits rc n l hpos' | sends rc n l dest m hpos' | endRun n hpos'
    | rqry src dest m hpos' | rqryRsp hpos' => rw [hpos] at hpos'; cases hpos'
  | after hpos hwork hlast =>
    have hdone : isDone (s.mgr home).txn = true := by
      rw [isDone_newOrder (by rw [hwork.query]; rfl), hwork.query]
      exact .inl hwork.last
    obtain ⟨hmgr, hdata, hpos'⟩ := step_at_end hpos hdone h
    rw [← hmgr, ← hdata] at hwork
    exact .after (.inr hpos') hwork (hmgr ▸ hlast)

end

end Far

/-! ## The lines of an order -/

/-- **What the lines of an order should be**: each has the `O_ID` of an order that was inserted, and
they are numbered `0, 1, …`, over all nodes. -/
def OrderLinesMatch (S : Scale) (o : NewOrder) (d : ℕ → NodeData) : Prop :=
  (∀ n < S.nodeCnt, ∀ line ∈ (d n).orderLines,
    ∃ m < S.nodeCnt, ∃ order ∈ (d m).orders, line.oId = order.oId) ∧
  ∑ n ∈ Finset.range S.nodeCnt, (((d n).orderLines.map OrderLineRow.number : List ℕ) : Multiset ℕ) =
    Multiset.range o.items.length

instance (S : Scale) (o : NewOrder) (d : ℕ → NodeData) : Decidable (OrderLinesMatch S o d) :=
  inferInstanceAs (Decidable (_ ∧ _))

section Match

variable {S : Scale} {o : NewOrder} {home : ℕ} {db : ℕ → Contents} {d : ℕ → NodeData}

theorem nodeOf_lt {N : Cluster} (hnode : 1 ≤ N.nodeCnt) (wid : ℕ) : nodeOf N wid < N.nodeCnt :=
  Nat.mod_lt _ hnode

/-- Without items there are no lines. -/
theorem orderLinesMatch_of_nil (hnil : o.items = [])
    (hlines : ∀ n < S.nodeCnt, (d n).orderLines = []) : OrderLinesMatch S o d := by
  refine ⟨fun n hn line hmem => ?_, ?_⟩
  · rw [hlines n hn] at hmem
    cases hmem
  · rw [hnil]
    refine Finset.sum_eq_zero fun n hn => ?_
    rw [hlines n (Finset.mem_range.mp hn)]
    rfl

variable {node : ℕ} {item : Item}

/-- An order all of whose lines are inserted by its own node. -/
theorem orderLinesMatch_of_work (hlt : node < S.nodeCnt) (hx : nodeOf S.toCluster o.wId = node)
    (hall : ∀ item ∈ o.items, nodeOf S.toCluster item.supplyWId = node) (hsome : o.items ≠ [])
    {t : Manager} {c : Contents} (hwork : Work S o c t (d node))
    (hlast : t.nextItemId = o.items.length) (hothers : ∀ n ≠ node, (d n).orderLines = []) :
    OrderLinesMatch S o d := by
  have hlate : t.state.Late := by
    refine hwork.states.resolve_left fun hearly => hsome (length_eq_zero_iff.mp ?_)
    rw [← hlast]
    exact (hwork.early hearly).2
  obtain ⟨-, horders, -⟩ := hwork.late hlate
  refine ⟨fun n _ line hmem => ⟨node, hlt, ?_⟩, ?_⟩
  · rcases eq_or_ne n node with rfl | hne
    · have hid : newOId S o c ∈ (d n).orders.map OrderRow.oId := by
        rw [horders]
        exact mem_singleton_self _
      obtain ⟨order, horder, heq⟩ := List.mem_map.mp hid
      exact ⟨order, horder, (hwork.lines line hmem).trans heq.symm⟩
    · rw [hothers n hne] at hmem
      cases hmem
  · have hnumbers := hwork.numbers (by rw [hx]; exact hall)
    rw [Finset.sum_eq_single node, hnumbers, hlast]
    · rfl
    · intro n _ hne
      rw [hothers n hne]
      rfl
    · intro hnot
      exact absurd (Finset.mem_range.mpr hlt) hnot

/-- The plain path, with all items at the node of the order. -/
theorem plain_match (hlt : node < S.nodeCnt) (hx : nodeOf S.toCluster o.wId = node)
    (hall : ∀ item ∈ o.items, nodeOf S.toCluster item.supplyWId = node) (hsome : o.items ≠ [])
    {s : PlainState} (hs : (plainMachine S home o.query db).Reachable s) (hdone : s.pos = .done) :
    OrderLinesMatch S o s.data := by
  rcases eq_or_ne node home with rfl | hne
  · have hI := HomeInv.of_reachable hx hs
    refine orderLinesMatch_of_work hlt hx hall hsome hI.work (hI.at_done hdone) fun n hn => ?_
    have haway := hI.away n hn
    have hitems : (s.mgr n).query.items = [] := by
      refine List.eq_nil_iff_forall_not_mem.mpr fun item hmem => hn ?_
      obtain ⟨hmem, hhere⟩ := haway.here item hmem
      exact hhere.symm.trans (hall item hmem)
    have hle := haway.le
    rw [hitems] at hle
    rw [← length_eq_zero_iff, haway.count]
    exact Nat.le_zero.mp hle
  · have hI : FarInv S o home node db s := by
      refine hs.invariant ?_
        fun _ _ _ hI hstep => hI.step hx hne hall hsome hstep
      exact .before rfl (if_pos rfl) (if_neg hne) fun _ => rfl
    cases hI with
    | after hpos hwork hlast =>
      refine orderLinesMatch_of_work hlt hx hall hsome hwork.work hlast fun n hn => ?_
      rw [hwork.others n hn]
      rfl
    | before hpos | sent hpos | during hpos | waits hpos => rw [hdone] at hpos; cases hpos

/-- The plain path without items: not even the order is inserted. -/
theorem plain_nil (hnil : o.items = []) {s : PlainState}
    (hs : (plainMachine S home o.query db).Reachable s) (n : ℕ) : s.data n = (db n).start := by
  have hI : s.data = (fun n => (db n).start) ∧ (s.pos = .run home ∨ s.pos = .done) ∧
      isDone (s.mgr home).txn = true := by
    refine hs.invariant (P := fun s => s.data = (fun n => (db n).start) ∧
      (s.pos = .run home ∨ s.pos = .done) ∧ isDone (s.mgr home).txn = true) ⟨rfl, .inl rfl, ?_⟩ ?_
    · have hhome : (plainMachine S home o.query db).init.mgr home = (ofQuery o.query).reset :=
        if_pos rfl
      rw [hhome, isDone_newOrder rfl]
      exact .inl (by rw [show (ofQuery o.query).reset.query.items = o.items from rfl, hnil]; rfl)
    · rintro s a s' ⟨hdata, hpos, hdone⟩ hstep
      obtain ⟨hmgr, hdata', hpos'⟩ := step_at_end (.inr hpos) hdone hstep
      exact ⟨hdata'.trans hdata, hpos', hmgr ▸ hdone⟩
  rw [hI.1]

/-! ### With Calvin -/

theorem exists_itemCursor (items : List (Item × ℕ)) (r : RowRef) :
    ∃ r', itemCursor items (some r) = some r' ∧ (items ≠ [] → r'.table = .ITEM) := by
  rw [itemCursor]
  induction items generalizing r with
  | nil => exact ⟨r, rfl, fun h => absurd rfl h⟩
  | cons x items ih =>
    obtain ⟨r', hr', htable⟩ := ih (newOrder6Row x.1)
    refine ⟨r', hr', fun _ => ?_⟩
    rcases eq_or_ne items [] with rfl | hne
    · cases hr'
      rfl
    · exact htable hne

/-- What the lines leave alone, and what they are. -/
theorem orderLines_spec (q : Query) (oId : ℤ) (items : List (Item × ℕ)) (d : NodeData) :
    (orderLines S q oId items d).orders = d.orders ∧
      (∀ line ∈ (orderLines S q oId items d).orderLines, line ∈ d.orderLines ∨ line.oId = oId) ∧
      (orderLines S q oId items d).orderLines.length = d.orderLines.length + items.length := by
  rw [orderLines]
  induction items generalizing d with
  | nil => exact ⟨rfl, fun line h => .inl h, rfl⟩
  | cons x items ih =>
    obtain ⟨horders, hlines, hlength⟩ := ih (newOrder9 q x.1 x.2 oId (newOrder8Row S x.1) d)
    obtain ⟨line, hline, -, happend⟩ := newOrder9_orderLines q x.1 x.2 oId (newOrder8Row S x.1)
    rw [happend] at hlines hlength
    refine ⟨horders.trans (newOrder9_orders ..), fun line' hmem => ?_, ?_⟩
    · rcases hlines line' hmem with h | h
      · rcases mem_append.mp h with h | h
        · exact .inl h
        · exact .inr (mem_singleton.mp h ▸ hline)
      · exact .inr h
    · rw [foldl_cons, hlength, length_append, length_singleton, length_cons]
      omega

section Phases

variable {node : ℕ} {q : Query} {c : NodeData} {r : Option RowRef}

section

variable (htype : q.txnType = .TPCC_NEW_ORDER)

include htype

theorem phase2_newOrder :
    phase2 S node q c =
      if nodeOf S.toCluster q.wId = node then
        ({ c with oId := c.row (newOrder4Row S q) D_NEXT_O_ID },
          itemCursor (localItems S node q) (some (newOrder4Row S q)))
      else (c, itemCursor (localItems S node q) none) := by
  unfold phase2
  split
  next h =>
    rw [htype] at h
    cases h
  · rfl

theorem phase5_newOrder :
    phase5 S node q r c =
      if nodeOf S.toCluster q.wId = node then
        (r.filter (·.table = .DISTRICT)).map fun r =>
          orderLines S q c.oId (localItems S node q) (newOrder5 q r c)
      else some (orderLines S q c.oId (localItems S node q) c) := by
  unfold phase5
  split
  next h =>
    rw [htype] at h
    cases h
  · rfl

end

end Phases

variable {back : ℕ → Bool}

theorem mem_localItems {q : Query} (hitem : item ∈ q.items)
    (hnode : nodeOf S.toCluster item.supplyWId = node) : localItems S node q ≠ [] := by
  obtain ⟨i, hi⟩ := List.mem_iff_getElem?.mp hitem
  have hmem : (item, i) ∈ q.items.zipIdx := List.mem_zipIdx_iff_getElem?.mpr hi
  exact ne_nil_of_mem (mem_filter.mpr ⟨hmem, decide_eq_true hnode⟩)

/-- A node that gets to the end had its calls back. -/
theorem runCalvinTxn_eq_some {q : Query} {c : NodeData} :
    runCalvinTxn S back q db node = some c ↔
      (calvinAccesses S q node = true → back node = true) ∧
        phase5 S node q (phase2 S node q (db node).start).2
          (phase2 S node q (db node).start).1 = some c := by
  rw [runCalvinTxn, ite_none_left_eq_some]
  simp

/-- **What Calvin does with a new order** at the node of its warehouse, if it has no item there. -/
theorem phases_home (db : ℕ → Contents) (hx : nodeOf S.toCluster o.wId = node)
    (hnil : localItems S node o.query = []) :
    phase5 S node o.query (phase2 S node o.query (db node).start).2
        (phase2 S node o.query (db node).start).1 =
      some (newOrder5 o.query (newOrder4Row S o.query)
        { (db node).start with oId := (db node).row (newOrder4Row S o.query) D_NEXT_O_ID }) := by
  rw [← NewOrder.query_wId] at hx
  rw [phase2_newOrder o.query_txnType, phase5_newOrder o.query_txnType, if_pos hx, if_pos hx, hnil]
  rfl

/-- With an item there it has no result: the cursor is at the item. -/
theorem phases_home_items (db : ℕ → Contents) (hx : nodeOf S.toCluster o.wId = node)
    (hsome : localItems S node o.query ≠ []) :
    phase5 S node o.query (phase2 S node o.query (db node).start).2
      (phase2 S node o.query (db node).start).1 = none := by
  obtain ⟨r, hr, htable⟩ := exists_itemCursor (localItems S node o.query) (newOrder4Row S o.query)
  rw [← NewOrder.query_wId] at hx
  rw [phase2_newOrder o.query_txnType, phase5_newOrder o.query_txnType, if_pos hx, if_pos hx, hr]
  simp [htable hsome]

/-- At another node the lines get whatever `o_id` is there. -/
theorem phases_away (hx : nodeOf S.toCluster o.wId ≠ node) :
    phase5 S node o.query (phase2 S node o.query (db node).start).2
        (phase2 S node o.query (db node).start).1 =
      some (orderLines S o.query (db node).oId (localItems S node o.query) (db node).start) := by
  rw [← NewOrder.query_wId] at hx
  rw [phase2_newOrder o.query_txnType, phase5_newOrder o.query_txnType, if_neg hx, if_neg hx]
  rfl

/-- An order without items at its node comes to its end if the calls of the framework come back. -/
theorem exists_runCalvinTxn (o : NewOrder) (db : ℕ → Contents)
    (hback : ∀ n < S.nodeCnt, calvinAccesses S o.query n = true → back n = true)
    (hnil : localItems S (nodeOf S.toCluster o.wId) o.query = []) :
    ∃ d, CalvinCommits S back o.query db d := by
  have h : ∀ n, ∃ d, n < S.nodeCnt → runCalvinTxn S back o.query db n = some d := by
    intro n
    by_cases hx : nodeOf S.toCluster o.wId = n
    · exact ⟨_, fun hn => runCalvinTxn_eq_some.mpr ⟨hback n hn, phases_home db hx (hx ▸ hnil)⟩⟩
    · exact ⟨_, fun hn => runCalvinTxn_eq_some.mpr ⟨hback n hn, phases_away hx⟩⟩
  exact Classical.skolem.mp h

/-- **What Calvin inserts at a node**: a line for each item there, with the `O_ID` that happens to
be there, and the order at the node of its warehouse. -/
theorem calvin_inserts {c : NodeData} (hc : runCalvinTxn S back o.query db node = some c) :
    (∀ order ∈ c.orders, ∃ r, order.oId = (db node).row r D_NEXT_O_ID + 1) ∧
      (∀ line ∈ c.orderLines, line.oId = (db node).oId) ∧
      c.orderLines.length = (localItems S node o.query).length := by
  obtain ⟨-, hc⟩ := runCalvinTxn_eq_some.mp hc
  by_cases hx : nodeOf S.toCluster o.wId = node
  · rcases eq_or_ne (localItems S node o.query) [] with hnil | hsome
    · rw [phases_home db hx hnil] at hc
      cases hc
      refine ⟨fun order horder => ⟨newOrder4Row S o.query, ?_⟩, ?_, by rw [hnil]; rfl⟩
      · rw [mem_singleton.mp horder]
        rfl
      · simp [newOrder5, NodeData.setValue, Contents.start]
    · rw [phases_home_items db hx hsome] at hc
      cases hc
  · rw [phases_away hx] at hc
    cases hc
    obtain ⟨horders, hlines, hlength⟩ :=
      orderLines_spec o.query (db node).oId (localItems S node o.query) (db node).start
    refine ⟨by rw [horders]; simp [Contents.start], fun line hline => ?_, ?_⟩
    · exact (hlines line hline).resolve_left (by simp [Contents.start])
    · rw [hlength]
      exact Nat.zero_add _

/-- An order with an item at its own node never ends with Calvin. -/
theorem localItems_eq_nil_of_calvin (hnode : 1 ≤ S.nodeCnt)
    (hd : CalvinCommits S back o.query db d) :
    localItems S (nodeOf S.toCluster o.wId) o.query = [] := by
  by_contra hsome
  obtain ⟨-, h⟩ := runCalvinTxn_eq_some.mp (hd _ (nodeOf_lt hnode o.wId))
  rw [phases_home_items db rfl hsome] at h
  cases h

/-! ### Where they do not match -/

/-- Nothing but zeros, and a number in `o_id` that was not set. -/
def unset : Contents := ⟨fun _ _ => 0, fun _ => [], 7, 0⟩

/-- The plain path with an item of another node: its line has a number that was not set. -/
theorem plain_mismatch (hnode : 1 ≤ S.nodeCnt) (hx : nodeOf S.toCluster o.wId = node)
    (hitem : item ∈ o.items) (hne : nodeOf S.toCluster item.supplyWId ≠ node) :
    ∃ s, (plainMachine S node o.query fun _ => unset).Reachable s ∧ s.pos = .done ∧
      ¬ OrderLinesMatch S o s.data := by
  obtain ⟨s, hs, hdone⟩ := exists_home_done (fun _ => unset) hx
  refine ⟨s, hs, hdone, fun ⟨hids, _⟩ => ?_⟩
  have hI := HomeInv.of_reachable hx hs
  have hlast := hI.at_done hdone
  have hlate : (s.mgr node).state.Late := by
    refine hI.work.states.resolve_left fun hearly => ?_
    rw [(hI.work.early hearly).2] at hlast
    exact ne_nil_of_mem hitem (length_eq_zero_iff.mp hlast.symm)
  have hcovers := hI.covers item (by rw [hlast, take_length]; exact hitem) hne
  rw [hdone] at hcovers
  obtain ⟨line, hline⟩ := exists_mem_of_ne_nil _ (hcovers.resolve_right id)
  obtain ⟨m, -, order, horder, hid⟩ := hids _ (nodeOf_lt hnode _) line hline
  rw [(hI.away _ hne).lines line hline] at hid
  rcases eq_or_ne m node with rfl | hm
  · have hmem := List.mem_map_of_mem (f := OrderRow.oId) horder
    rw [(hI.work.late hlate).2.1, mem_singleton, ← hid] at hmem
    have hseven : (7 : ℤ) = 0 + 1 := hmem
    exact absurd hseven (by decide)
  · rw [(hI.away m hm).orders] at horder
    cases horder

/-- Calvin with an item, which is at another node. -/
theorem calvin_mismatch (hnode : 1 ≤ S.nodeCnt) (hitem : item ∈ o.items)
    (hd : CalvinCommits S back o.query (fun _ => unset) d) : ¬ OrderLinesMatch S o d := by
  rintro ⟨hids, -⟩
  have hlt := nodeOf_lt hnode item.supplyWId
  obtain ⟨-, hlines, hlength⟩ := calvin_inserts (hd _ hlt)
  have hsome : (d (nodeOf S.toCluster item.supplyWId)).orderLines ≠ [] := by
    rw [← length_pos_iff, hlength, length_pos_iff]
    exact mem_localItems hitem rfl
  obtain ⟨line, hline⟩ := exists_mem_of_ne_nil _ hsome
  obtain ⟨m, hm, order, horder, hid⟩ := hids _ hlt line hline
  obtain ⟨r, hr⟩ := (calvin_inserts (hd m hm)).1 order horder
  rw [hr, hlines line hline] at hid
  have hseven : (7 : ℤ) = 0 + 1 := hid
  exact absurd hseven (by decide)

end Match

/-- **Which orders have their lines.** On the plain path: when a new order commits, at any home node
and from any contents, its lines have the `O_ID` of its order and the numbers from zero on, exactly
if it has no items, or all of them are supplied by warehouses at the node of its own. With Calvin:
the same is so of every end of the order exactly if it has no items or never ends, which is when a
call of the framework does not come back at one of its nodes, or an item is supplied by its own
node. -/
theorem orderLinesMatch_iff (S : Scale) (hnode : 1 ≤ S.nodeCnt) (back : ℕ → Bool) (o : NewOrder) :
    ((∀ home < S.nodeCnt, ∀ db d, Commits S home o.query db d → OrderLinesMatch S o d) ↔
      o.items = [] ∨
        ∀ item ∈ o.items, nodeOf S.toCluster item.supplyWId = nodeOf S.toCluster o.wId) ∧
    ((∀ db d, CalvinCommits S back o.query db d → OrderLinesMatch S o d) ↔
      o.items = [] ∨
        (∃ n < S.nodeCnt, calvinAccesses S o.query n = true ∧ back n = false) ∨
        ∃ item ∈ o.items, nodeOf S.toCluster item.supplyWId = nodeOf S.toCluster o.wId) := by
  obtain ⟨node, hx⟩ : ∃ node, nodeOf S.toCluster o.wId = node := ⟨_, rfl⟩
  have hlt : node < S.nodeCnt := hx ▸ nodeOf_lt hnode o.wId
  refine ⟨⟨fun h => ?_, fun h home _ db d hcommits => ?_⟩,
    fun h => ?_, fun h db d hcommits => ?_⟩
  · by_contra hnot
    obtain ⟨-, hcond⟩ := not_or.mp hnot
    simp only [not_forall, hx] at hcond
    obtain ⟨item, hitem, hne⟩ := hcond
    obtain ⟨s, hs, hdone, hbad⟩ := plain_mismatch hnode hx hitem hne
    exact hbad (h node hlt _ _ ⟨s, hs, hdone, rfl⟩)
  · obtain ⟨s, hs, hdone, rfl⟩ := hcommits
    by_cases hnil : o.items = []
    · refine orderLinesMatch_of_nil hnil fun n _ => ?_
      rw [plain_nil hnil hs]
      rfl
    · exact plain_match hlt hx (hx ▸ h.resolve_left hnil) hnil hs hdone
  · by_contra hnot
    simp only [not_or, not_exists, not_and, Bool.not_eq_false] at hnot
    obtain ⟨hsome, hback, hlocal⟩ := hnot
    have hnil : localItems S (nodeOf S.toCluster o.wId) o.query = [] := by
      refine List.filter_eq_nil_iff.mpr fun x hmem hhere => ?_
      have hitem : x.1 ∈ o.items := List.fst_mem_of_mem_zipIdx hmem
      exact hlocal x.1 hitem (of_decide_eq_true hhere)
    obtain ⟨d, hd⟩ := exists_runCalvinTxn o (fun _ => unset) hback hnil
    obtain ⟨item, hitem⟩ := exists_mem_of_ne_nil _ hsome
    exact calvin_mismatch hnode hitem hd (h _ d hd)
  · rcases h with hnil | ⟨n, hn, hacc, hfalse⟩ | ⟨item, hitem, hhere⟩
    · refine orderLinesMatch_of_nil hnil fun n hn => ?_
      obtain ⟨-, -, hlength⟩ := calvin_inserts (hcommits n hn)
      rw [← length_eq_zero_iff, hlength]
      simp [localItems, hnil]
    · have := (runCalvinTxn_eq_some.mp (hcommits n hn)).1 hacc
      simp [hfalse] at this
    · exact absurd (localItems_eq_nil_of_calvin hnode hcommits) (mem_localItems hitem hhere)

/-- Two nodes, with the odd and the even warehouses. -/
def twoNodes : Scale := ⟨⟨2, 2⟩, true, 10, 3000, 100000⟩

/-- An order at warehouse 1 for three pieces of an item of a warehouse. -/
def orderFrom (supplyWId : ℕ) : NewOrder := ⟨1, 1, 1, [⟨5, supplyWId, 3⟩], false, false, 0⟩

/-- An item of the same warehouse. -/
theorem orderLinesMatch_orderFrom_one :
    ∃ d, Commits twoNodes 0 (orderFrom 1).query (fun _ => unset) d ∧
      OrderLinesMatch twoNodes (orderFrom 1) d := by
  obtain ⟨s, hs, hdone⟩ := exists_home_done (o := orderFrom 1) (fun _ => unset) rfl
  refine ⟨s.data, ⟨s, hs, hdone, rfl⟩, ?_⟩
  exact (orderLinesMatch_iff twoNodes (by decide) (fun _ => false) (orderFrom 1)).1.mpr
    (.inr (by decide)) 0 (by decide) _ _ ⟨s, hs, hdone, rfl⟩

/-- The steps of an order with one item of another node. -/
def remoteItem : List Attempt.Action :=
  List.replicate 9 (.runTxnState .RCOK) ++
    [.rqry, .runTxnState .RCOK, .runTxnState .RCOK, .endRun, .rqryRsp, .endRun]

/-- An item of another node: the order is number 1 and its line is of number 7, which nobody has
set. -/
theorem not_orderLinesMatch_orderFrom_two :
    ∃ s ∈ (plainMachine twoNodes 0 (orderFrom 2).query fun _ => unset).run remoteItem,
      s.pos = .done ∧ (s.data 0).orders.map OrderRow.oId = [1] ∧
        (s.data 1).orderLines.map OrderLineRow.oId = [7] ∧
        ¬ OrderLinesMatch twoNodes (orderFrom 2) s.data := by
  decide +kernel

end Tpcc

end Deneva
