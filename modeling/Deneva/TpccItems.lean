import Deneva.TpccOrders

/-!
# Each item of a new order once

A new order goes through its items one by one, at the node of its warehouse. At the state of the
stock of an item that another node supplies it sends the item there, with those that follow and
belong to the same node. The other node begins with the stock of the first one, whose `ITEM` row was
read before it was sent, and goes through both states of the rest.

What the states do with the items is noted (`visit`). One node is at work at a time, so the notes
come in the order of the items: `ItemInv` says that what is noted, together with what the node at
work has still to do, are the items up to the cursor of the home node.
-/

namespace Deneva

open List

namespace Tpcc

open Manager

open Protocol

/-- What a state does with an item. -/
inductive Visit : Type where
  /-- `new_order_7` reads the `ITEM` row that `new_order_6` has got -/
  | item (node : ℕ) (i : Item)
  /-- `new_order_9` updates the stock that `new_order_8` has got -/
  | stock (node : ℕ) (i : Item)
  deriving DecidableEq

/-- What a state notes. -/
def visit (node : ℕ) (t : Manager) : List Visit :=
  match t.state, t.query.items[t.nextItemId]? with
  | .NEWORDER7, some i => [.item node i]
  | .NEWORDER9, some i => [.stock node i]
  | _, _ => []

/-- The `ITEM` rows that were read. -/
def itemsRead (log : List Visit) : List Item :=
  log.filterMap fun
    | .item _ i => some i
    | .stock _ _ => none

/-- The stock that was updated, with the nodes that did it. -/
def stockUpdated (log : List Visit) : List (ℕ × Item) :=
  log.filterMap fun
    | .item _ _ => none
    | .stock node i => some (node, i)

/-- The attempts of a query on the plain path, with notes. -/
abbrev visitMachine (S : Scale) (home : ℕ) (q : Query) (db : ℕ → Contents) :
    Machine (Attempt.State Manager FragmentMessage ((ℕ → NodeData) × List Visit)) Attempt.Action :=
  Attempt.machine ((program S).logged visit) ((setup home q db).logged Visit)

/-- The states of an attempt with notes. -/
abbrev VisitState : Type := Attempt.State Manager FragmentMessage ((ℕ → NodeData) × List Visit)

/-- How many items a manager has read: the current one is, from the state of its stock on. -/
def Manager.readUpTo (t : Manager) : ℕ :=
  t.nextItemId + if t.state = .NEWORDER8 ∨ t.state = .NEWORDER9 then 1 else 0

/-! ## What a state notes -/

/-- A state, with what it notes about the current item. -/
inductive Noted (node : ℕ) (t l : Manager) : List Visit → Prop where
  | nothing (hread : l.readUpTo = t.readUpTo)
      (hnext : l.nextItemId = t.nextItemId) : Noted node t l []
  | item (i : Item) (hi : t.query.items[t.nextItemId]? = some i) (hread : t.readUpTo = t.nextItemId)
      (hread' : l.readUpTo = t.nextItemId + 1) (hnext : l.nextItemId = t.nextItemId) :
      Noted node t l [.item node i]
  | stock (i : Item) (hst : t.state = .NEWORDER9) (hi : t.query.items[t.nextItemId]? = some i)
      (hread : t.readUpTo = t.nextItemId + 1) (hread' : l.readUpTo = t.nextItemId + 1)
      (hnext : l.nextItemId = t.nextItemId + 1) : Noted node t l [.stock node i]

theorem visit_of_not_uses {t : Manager} (node : ℕ) (h : t.state.Uses = false) :
    visit node t = [] := by
  unfold visit
  split
  next hst _ =>
    rw [hst] at h
    cases h
  next hst _ =>
    rw [hst] at h
    cases h
  · rfl

/-- The states of an item follow each other. -/
theorem TxnState.Late.next {st st' : TxnState} (h : st.Late) (h' : st'.Late) (hfin : st' ≠ .FIN)
    (hleft : st.left = st'.left + 1) :
    st = .NEWORDER6 ∧ st' = .NEWORDER7 ∨ st = .NEWORDER7 ∧ st' = .NEWORDER8 ∨
      st = .NEWORDER8 ∧ st' = .NEWORDER9 := by
  rcases h with rfl | rfl | rfl | rfl | rfl <;> rcases h' with rfl | rfl | rfl | rfl | rfl <;>
    simp_all [TxnState.left]

theorem Ran.noted {N : Cluster} {node : ℕ} {isLocal : Bool} {t l : Manager}
    (h : Ran N node isLocal t l) (hlt : t.nextItemId < t.query.items.length) :
    Noted node t l (visit node t) := by
  have hitem : t.query.items[t.nextItemId]? = some t.query.items[t.nextItemId] :=
    getElem?_eq_getElem hlt
  cases h with
  | early st hearly hst =>
    have hnone : visit node t = [] := by
      rcases hearly with h | h | h | h | h | h <;> simp [visit, h]
    rw [hnone]
    refine .nothing ?_ rfl
    rcases hearly with h | h | h | h | h | h <;>
      rcases hst with rfl | rfl | rfl | rfl | rfl | rfl <;> simp [readUpTo, h]
  | order hst =>
    have hnone : visit node t = [] := by simp [visit, hst]
    rw [hnone]
    exact .nothing (by simp [readUpTo, hst]) rfl
  | late st hlate hst hnot hfin hleft =>
    rcases hlate.next hst hfin hleft with ⟨h, rfl⟩ | ⟨h, rfl⟩ | ⟨h, rfl⟩
    · have hnone : visit node t = [] := by simp [visit, h]
      rw [hnone]
      exact .nothing (by simp [readUpTo, h]) rfl
    · have hread : visit node t = [.item node t.query.items[t.nextItemId]] := by
        simp [visit, h, hitem]
      rw [hread]
      exact .item _ hitem (by simp [readUpTo, h]) (by simp [readUpTo]) rfl
    · have hnone : visit node t = [] := by simp [visit, h]
      rw [hnone]
      exact .nothing (by simp [readUpTo, h]) rfl
  | line hst =>
    have hstock : visit node t = [.stock node t.query.items[t.nextItemId]] := by
      simp [visit, hst, hitem]
    rw [hstock]
    refine .stock _ hst hitem (by simp [readUpTo, hst]) ?_ rfl
    simp only [readUpTo]
    split_ifs with hend hlast
    · simp at hlast
    · rfl
    next hlast =>
      simp at hlast
    · rfl

/-! ## What is noted, and what is left to do -/

section Items

variable (S : Scale) (o : NewOrder) (home : ℕ) (db : ℕ → Contents)

/-- The items whose `ITEM` row is to be read by another node than the home node. -/
def toRead (s : VisitState) : List Item :=
  match s.pos with
  | .run node | .wait node =>
    if node = home then [] else (s.mgr node).query.items.drop (s.mgr node).readUpTo
  | .rqry _ _ m => m.query.items.tail
  | .rsp _ | .done => []

/-- The items whose stock is to be updated by another node. -/
def toUpdate (s : VisitState) : List Item :=
  match s.pos with
  | .run node | .wait node =>
    if node = home then [] else (s.mgr node).query.items.drop (s.mgr node).nextItemId
  | .rqry _ _ m => m.query.items
  | .rsp _ | .done => []

/-- The stock of some items, at the nodes that supply them. -/
def supplied (items : List Item) : List (ℕ × Item) :=
  items.map fun i => (nodeOf S.toCluster i.supplyWId, i)

/-- What is noted, with what is left to do, are the items that the home node has come to. -/
structure ItemInv (s : VisitState) : Prop where
  reads : itemsRead s.data.2 ++ toRead home s = o.items.take (s.mgr home).readUpTo
  updates : stockUpdated s.data.2 ++ supplied S (toUpdate home s) =
    supplied S (o.items.take (s.mgr home).nextItemId)

variable {S o home db} {s s' : VisitState}

theorem take_succ_of_getElem? {k : ℕ} {items : List Item} {i : Item} (h : items[k]? = some i) :
    items.take (k + 1) = items.take k ++ [i] := by
  rw [take_add_one, h]
  rfl

theorem drop_of_getElem? {k : ℕ} {items : List Item} {i : Item} (h : items[k]? = some i) :
    items.drop k = i :: items.drop (k + 1) := by
  obtain ⟨hlt, rfl⟩ := List.getElem?_eq_some_iff.mp h
  exact drop_eq_getElem_cons hlt

variable {l : Manager} {node : ℕ}

/-- A state at the home node: it goes through the items itself. -/
theorem ItemInv.noted_home (hI : ItemInv S o home s)
    (hhome : toRead home s = [] ∧ toUpdate home s = []) (hq : (s.mgr home).query.items = o.items)
    {v : List Visit} (hnoted : Noted home (s.mgr home) l v)
    (hhere : (s.mgr home).state = .NEWORDER9 → ∀ i, o.items[(s.mgr home).nextItemId]? = some i →
      nodeOf S.toCluster i.supplyWId = home)
    (d : ℕ → NodeData) :
    ItemInv S o home { s.setMgr home l with pos := .run home, data := (d, s.data.2 ++ v) } := by
  obtain ⟨hreads, hupdates⟩ := hI
  rw [hhome.1, append_nil] at hreads
  rw [hhome.2, supplied, map_nil, append_nil] at hupdates
  have hmgr : (s.setMgr home l).mgr home = l := Attempt.State.setMgr_self ..
  refine ⟨?_, ?_⟩
  · simp only [toRead, if_true, append_nil, hmgr]
    rw [itemsRead, filterMap_append]
    change itemsRead s.data.2 ++ _ = _
    rw [hreads]
    cases hnoted with
    | nothing hread hnext => simp [hread]
    | item i hi hread hread' hnext =>
      rw [hq] at hi
      rw [hread, hread', take_succ_of_getElem? hi]
      rfl
    | stock i hst hi hread hread' hnext => simp [hread, hread']
  · simp only [toUpdate, if_true, hmgr, supplied, map_nil, append_nil]
    rw [stockUpdated, filterMap_append]
    change stockUpdated s.data.2 ++ _ = _
    rw [hupdates]
    cases hnoted with
    | nothing hread hnext | item i hi hread hread' hnext => simp [hnext, supplied]
    | stock i hst hi hread hread' hnext =>
      rw [hq] at hi
      rw [hnext, take_succ_of_getElem? hi, map_append, supplied]
      simp [hhere hst i hi]

/-- A state at another node: it takes from what is left to do. -/
theorem ItemInv.noted_away (hI : ItemInv S o home s) (hne : node ≠ home)
    (haway : toRead home s = (s.mgr node).query.items.drop (s.mgr node).readUpTo ∧
      toUpdate home s = (s.mgr node).query.items.drop (s.mgr node).nextItemId)
    (hq : l.query = (s.mgr node).query) {v : List Visit} (hnoted : Noted node (s.mgr node) l v)
    (hhere : ∀ i ∈ (s.mgr node).query.items, nodeOf S.toCluster i.supplyWId = node)
    (d : ℕ → NodeData) :
    ItemInv S o home { s.setMgr node l with pos := .run node, data := (d, s.data.2 ++ v) } := by
  obtain ⟨hreads, hupdates⟩ := hI
  rw [haway.1] at hreads
  rw [haway.2] at hupdates
  have hhome : (s.setMgr node l).mgr home = s.mgr home := Attempt.State.setMgr_of_ne hne.symm ..
  have hmgr : (s.setMgr node l).mgr node = l := Attempt.State.setMgr_self ..
  refine ⟨?_, ?_⟩
  · simp only [toRead, if_neg hne, hhome, hmgr]
    rw [itemsRead, filterMap_append, ← hreads, hq]
    cases hnoted with
    | nothing hread hnext => simp [hread, itemsRead]
    | item i hi hread hread' hnext =>
      rw [hread, hread', drop_of_getElem? hi]
      simp [itemsRead]
    | stock i hst hi hread hread' hnext => simp [hread, hread', itemsRead]
  · simp only [toUpdate, if_neg hne, hhome, hmgr]
    rw [stockUpdated, filterMap_append, ← hupdates, hq]
    cases hnoted with
    | nothing hread hnext | item i hi hread hread' hnext => simp [hnext, stockUpdated]
    | stock i hst hi hread hread' hnext =>
      rw [hnext, drop_of_getElem? hi]
      simp [stockUpdated, supplied, hhere i (mem_of_getElem? hi)]

/-- A state at the node that is at work, or the row it has waited for. -/
theorem ItemInv.ran (hx : nodeOf S.toCluster o.wId = home) (hH : HomeInv S o home db s.unlogged)
    (hI : ItemInv S o home s) (hpos : s.pos = .run node ∨ s.pos = .wait node)
    (hbusy : node ≠ home → Busy home node s.unlogged) (hdone : isDone (s.mgr node).txn = false)
    (hran : Ran S.toCluster node (decide (node = home)) (s.mgr node) l) (d : ℕ → NodeData) :
    ItemInv S o home
      { s.setMgr node l with
        pos := .run node, data := (d, s.data.2 ++ visit node (s.mgr node)) } := by
  obtain ⟨htype, -, hle⟩ := hH.at_work hbusy
  have hlt : (s.mgr node).nextItemId < (s.mgr node).query.items.length :=
    Nat.lt_of_le_of_ne hle (not_isDone_newOrder htype hdone).1
  have hnoted := hran.noted hlt
  have hleft : toRead home s =
        (if node = home then [] else (s.mgr node).query.items.drop (s.mgr node).readUpTo) ∧
      toUpdate home s =
        if node = home then [] else (s.mgr node).query.items.drop (s.mgr node).nextItemId := by
    rcases hpos with hpos | hpos <;> simp only [toRead, toUpdate, hpos, and_self]
  rcases eq_or_ne node home with rfl | hne
  · rw [if_pos rfl, if_pos rfl] at hleft
    have hitems : (s.mgr node).query.items = o.items := congrArg Query.items hH.work.query
    refine hI.noted_home hleft hitems hnoted (fun hst i hi => ?_) d
    exact (hH.work.here hst i hi).trans hx
  · rw [if_neg hne, if_neg hne] at hleft
    refine hI.noted_away hne hleft hran.query_eq hnoted (fun i hi => ?_) d
    exact ((hH.away node hne).here i hi).2

section

variable (hI : ItemInv S o home s)

include hI

/-- A state that waits for its row: the states and the cursors stay. -/
theorem ItemInv.waits (hpos : s.pos = .run node) :
    ItemInv S o home
      { s.setMgr node { s.mgr node with hasRow := false } with pos := .wait node } := by
  have hmgr : ∀ n, ((s.setMgr node { s.mgr node with hasRow := false }).mgr n).readUpTo =
        (s.mgr n).readUpTo ∧
      ((s.setMgr node { s.mgr node with hasRow := false }).mgr n).nextItemId =
      (s.mgr n).nextItemId ∧
      ((s.setMgr node { s.mgr node with hasRow := false }).mgr n).query = (s.mgr n).query := by
    intro n
    rcases eq_or_ne n node with rfl | hne
    · simp [readUpTo]
    · simp [Attempt.State.setMgr_of_ne hne]
  obtain ⟨hreads, hupdates⟩ := hI
  simp only [toRead, hpos] at hreads
  simp only [toUpdate, hpos] at hupdates
  refine ⟨?_, ?_⟩
  · simp only [toRead, (hmgr node).1, (hmgr node).2.2, (hmgr home).1]
    exact hreads
  · simp only [toUpdate, (hmgr node).2.1, (hmgr node).2.2, (hmgr home).2.1]
    exact hupdates

/-- The home node sends the current item, which it has read, with those that follow it. -/
theorem ItemInv.sends (hpos : s.pos = .run home) (hq : (s.mgr home).query = o.query) {first : Item}
    {dest : ℕ} {m : FragmentMessage} (hst : (s.mgr home).state = .NEWORDER8)
    (hsends : Sends S.toCluster home (s.mgr home) first dest l m) (sent : List (ℕ × ℕ)) :
    ItemInv S o home { s.setMgr home l with pos := .rqry home dest m, sent := sent } := by
  obtain ⟨hreads, hupdates⟩ := hI
  obtain ⟨hfirst, hgoes, hdest, rfl, rfl⟩ := hsends
  have hne : nodeOf S.toCluster first.supplyWId ≠ home := by
    rcases hgoes with ⟨hst0, -⟩ | ⟨-, hto⟩
    · rw [hst] at hst0
      cases hst0
    · rwa [← hto]
  have htake := take_add_sentItems S.toCluster home (s.mgr home) first
  rw [hq] at hfirst htake
  change o.items[_]? = _ at hfirst
  change o.items.take _ = o.items.take _ ++ _ at htake
  simp only [toRead, hpos, if_true, append_nil, readUpTo, hst, true_or] at hreads
  simp only [toUpdate, hpos, if_true, supplied, map_nil, append_nil] at hupdates
  -- the first of the items that are sent is the current one
  have hhead : o.items.take ((s.mgr home).nextItemId + 1) ++
      (sentItems S.toCluster home (s.mgr home) first).tail =
        o.items.take (s.mgr home).nextItemId ++ sentItems S.toCluster home (s.mgr home) first := by
    have hcons : sentItems S.toCluster home (s.mgr home) first =
        first :: (sentItems S.toCluster home (s.mgr home) first).tail := by
      rw [sentItems, hq, show o.query.items = o.items from rfl, drop_of_getElem? hfirst,
        takeWhile_cons_of_pos (by simp [hne])]
      rfl
    rw [take_succ_of_getElem? hfirst, append_assoc, singleton_append, ← hcons]
  refine ⟨?_, ?_⟩
  · simp only [toRead, Attempt.State.setMgr_self, readUpTo, reduceCtorEq, or_self, if_false,
      Nat.add_zero, htake]
    rw [← hhead, ← hreads]
    rfl
  · simp only [toUpdate, Attempt.State.setMgr_self, htake]
    rw [supplied, supplied, map_append, ← hupdates]
    rfl

/-- The items come to the other node, which has done all it had before. -/
theorem ItemInv.rqry {src dest : ℕ} {m : FragmentMessage} (hpos : s.pos = .rqry src dest m)
    (hne : dest ≠ home) (hst : m.state = .NEWORDER8) (htype : m.query.txnType = .TPCC_NEW_ORDER)
    (hidle : (s.mgr dest).nextItemId = (s.mgr dest).query.items.length) (returnId : ℕ → ℕ) :
    ItemInv S o home
      { s.setMgr dest (Manager.copyToTxn m (s.mgr dest)) with
        pos := .run dest, returnId := returnId } := by
  obtain ⟨hreads, hupdates⟩ := hI
  simp only [toRead, hpos] at hreads
  simp only [toUpdate, hpos] at hupdates
  have hhome : (s.setMgr dest (Manager.copyToTxn m (s.mgr dest))).mgr home = s.mgr home :=
    Attempt.State.setMgr_of_ne hne.symm ..
  have hitems : (Manager.copyToTxn m (s.mgr dest)).query.items =
      (s.mgr dest).query.items ++ m.query.items := by
    simp only [Manager.copyToTxn, htype]
  have hnext : (Manager.copyToTxn m (s.mgr dest)).nextItemId = (s.mgr dest).query.items.length :=
    hidle
  have hread : (Manager.copyToTxn m (s.mgr dest)).readUpTo =
      (s.mgr dest).query.items.length + 1 := by
    have hstate : (Manager.copyToTxn m (s.mgr dest)).state = .NEWORDER8 := hst
    simp [readUpTo, hnext, hstate]
  refine ⟨?_, ?_⟩
  · simp only [toRead, if_neg hne, hhome, Attempt.State.setMgr_self, hitems, hread]
    rw [drop_append, drop_of_length_le (Nat.le_succ _), nil_append, Nat.add_sub_cancel_left,
      drop_one]
    exact hreads
  · simp only [toUpdate, if_neg hne, hhome, Attempt.State.setMgr_self, hitems, hnext]
    rw [drop_left]
    exact hupdates

/-- `run_txn` is done at a node: nothing is left to do there. -/
theorem ItemInv.endRun (hpos : s.pos = .run node)
    (hlast : node ≠ home → (s.mgr node).nextItemId = (s.mgr node).query.items.length)
    {pos : Attempt.Where FragmentMessage} (hend : pos = .done ∨ ∃ dest, pos = .rsp dest) :
    ItemInv S o home { s with pos := pos } := by
  have hnone : toRead home s = [] ∧ toUpdate home s = [] := by
    simp only [toRead, toUpdate, hpos]
    rcases eq_or_ne node home with rfl | hne
    · simp
    · rw [if_neg hne, if_neg hne, readUpTo, hlast hne]
      exact ⟨drop_of_length_le (Nat.le_add_right _ _), drop_length ..⟩
  have hnone' : toRead home { s with pos := pos } = [] ∧
      toUpdate home { s with pos := pos } = [] := by
    rcases hend with rfl | ⟨dest, rfl⟩ <;> exact ⟨rfl, rfl⟩
  obtain ⟨hreads, hupdates⟩ := hI
  rw [hnone.1] at hreads
  rw [hnone.2] at hupdates
  exact ⟨by rw [hnone'.1]; exact hreads, by rw [hnone'.2]; exact hupdates⟩

end

theorem ItemInv.init : ItemInv S o home (visitMachine S home o.query db).init := by
  have hhome : (visitMachine S home o.query db).init.mgr home = (ofQuery o.query).reset :=
    if_pos rfl
  have hnone : toRead home (visitMachine S home o.query db).init = [] ∧
      toUpdate home (visitMachine S home o.query db).init = [] :=
    ⟨if_pos rfl, if_pos rfl⟩
  refine ⟨?_, ?_⟩
  · rw [hnone.1, hhome]
    rfl
  · rw [hnone.2, hhome]
    rfl

/-- **Every step keeps the notes in order**: what is noted and what the node at work has still to do
are the items up to the cursor of the home node. -/
theorem ItemInv.step (hx : nodeOf S.toCluster o.wId = home) (hH : HomeInv S o home db s.unlogged)
    (hI : ItemInv S o home s) {a : Attempt.Action}
    (h : (visitMachine S home o.query db).step s a = some s') : ItemInv S o home s' := by
  have hhere := hH.here
  cases Attempt.step_of_eq_some h with
  | ran rc node l hpos hdone hrun =>
    simp only [Here, show s.unlogged.pos = _ from hpos] at hhere
    obtain ⟨htype, hst, -⟩ := hH.at_work hhere.2
    have := hI.ran hx hH (.inl hpos) hhere.2 hdone (ran_of_runTxnState htype hst hdone hrun)
      (Function.update s.data.1 node (change S (s.mgr node) (s.data.1 node)))
    rwa [← hpos] at this
  | waits rc node l hpos hdone hrun =>
    simp only [Here, show s.unlogged.pos = _ from hpos] at hhere
    obtain ⟨htype, hst, -⟩ := hH.at_work hhere.2
    obtain ⟨rfl, -, -⟩ := waits_of_runTxnState (not_isDone_newOrder htype hdone).2 hrun
    exact hI.waits hpos
  | sends rc node l dest m hpos hdone hrun =>
    simp only [Here, show s.unlogged.pos = _ from hpos] at hhere
    obtain ⟨htype, hst, hle⟩ := hH.at_work hhere.2
    obtain ⟨hlocal, first, hsends⟩ := sends_of_runTxnState htype hst hdone hle hrun
    obtain rfl : node = home := of_decide_eq_true hlocal
    have hq : (s.mgr node).query = o.query := hH.work.query
    -- the order itself is at home
    rcases hsends.goes with ⟨-, hto⟩ | ⟨hst8, -⟩
    · have hne := hsends.ne
      rw [hto, show (s.unlogged.mgr node).query = _ from hq] at hne
      exact absurd hx hne
    · exact hI.sends hpos hq hst8 hsends _
  | endRun node hpos hdone =>
    simp only [Here, show s.unlogged.pos = _ from hpos] at hhere
    refine hI.endRun hpos (fun hne => ?_) ?_
    · obtain ⟨htype, -, hfin, -⟩ := hhere.2 hne
      exact ((isDone_newOrder htype).mp hdone).resolve_right hfin
    · rcases eq_or_ne node home with rfl | hne
      · exact .inl (if_pos rfl)
      · exact .inr ⟨_, if_neg hne⟩
  | resume node hpos =>
    simp only [Here, show s.unlogged.pos = _ from hpos] at hhere
    obtain ⟨hdone, hremote, huse, hbusy⟩ := hhere
    obtain ⟨htype, hst, -⟩ := hH.at_work hbusy
    have hran : Ran S.toCluster node (decide (node = home)) (s.mgr node) _ :=
      ran_of_runTxnPostWait htype hst hdone hremote
    have := hI.ran hx hH (.inr hpos) hbusy hdone hran s.data.1
    have hnone : visit node (s.mgr node) = [] := visit_of_not_uses node huse
    rwa [hnone, append_nil] at this
  | rqry src dest m hpos hne =>
    simp only [Here, show s.unlogged.pos = _ from hpos] at hhere
    obtain ⟨-, -, hst, htype, -⟩ := hhere
    have hother : ∀ n, s.unlogged.pos ≠ .run n ∧ s.unlogged.pos ≠ .wait n := by
      intro n
      rw [show s.unlogged.pos = _ from hpos]
      exact ⟨(by simp), (by simp)⟩
    exact hI.rqry hpos hne hst htype (hH.idle dest hne (hother dest).1 (hother dest).2) _
  | rqryRsp hpos =>
    obtain ⟨hreads, hupdates⟩ := hI
    simp only [toRead, hpos] at hreads
    simp only [toUpdate, hpos] at hupdates
    refine ⟨?_, ?_⟩
    · simpa [toRead, Attempt.Setup.logged, setup] using hreads
    · simpa [toUpdate, Attempt.Setup.logged, setup] using hupdates

/-- What holds of the attempts with notes. -/
theorem visit_reachable_inv (hx : nodeOf S.toCluster o.wId = home)
    (hs : (visitMachine S home o.query db).Reachable s) :
    HomeInv S o home db s.unlogged ∧ ItemInv S o home s := by
  refine hs.invariant (P := fun s => HomeInv S o home db s.unlogged ∧ ItemInv S o home s)
    ⟨.init, .init⟩ fun s a s' hI hstep => ?_
  exact ⟨hI.1.step hx (Attempt.step_of_eq_some hstep).unlogged.eq_some, hI.2.step hx hI.1 hstep⟩

end Items

/-- Where the ids differ, an item is found by its id. -/
theorem filter_iId_eq {items : List Item} (hdistinct : (items.map Item.iId).Nodup) {i : Item}
    (hi : i ∈ items) : (items.filter fun j => j.iId = i.iId) = [i] := by
  induction items with
  | nil => cases hi
  | cons x items ih =>
    rw [map_cons, nodup_cons] at hdistinct
    obtain ⟨hnot, hdistinct⟩ := hdistinct
    rcases mem_cons.mp hi with rfl | hi
    · have hnone : (items.filter fun j => j.iId = i.iId) = [] := by
        refine List.filter_eq_nil_iff.mpr fun j hj hji => hnot ?_
        rw [← of_decide_eq_true hji]
        exact List.mem_map_of_mem hj
      rw [filter_cons_of_pos (by simp), hnone]
    · have hne : x.iId ≠ i.iId := by
        intro h
        rw [h] at hnot
        exact hnot (List.mem_map_of_mem hi)
      rw [filter_cons_of_neg (by simp [hne])]
      exact ih hdistinct hi

/-- **Each item once.** In the attempts of an order at the node of its warehouse, no `run_txn_state`
asks for an item beyond the last one. When the attempt comes to `start_commit`, each item's stock
has been updated once, at the node that supplies it, and its `ITEM` row has been read once. -/
theorem items_once (S : Scale) (o : NewOrder) (home : ℕ) (db : ℕ → Contents)
    (hx : nodeOf S.toCluster o.wId = home) (hdistinct : (o.items.map Item.iId).Nodup)
    {s : VisitState} (hs : (visitMachine S home o.query db).Reachable s) :
    (∀ node, s.pos = .run node → isDone (s.mgr node).txn = false →
      (s.mgr node).nextItemId < (s.mgr node).query.items.length) ∧
    (s.pos = .done → ∀ i ∈ o.items,
      ((stockUpdated s.data.2).filter fun p => p.2.iId = i.iId) =
          [(nodeOf S.toCluster i.supplyWId, i)] ∧
        ((itemsRead s.data.2).filter fun j => j.iId = i.iId) = [i]) := by
  obtain ⟨hH, hreads, hupdates⟩ := visit_reachable_inv hx hs
  have hhere := hH.here
  refine ⟨fun node hpos hdone => ?_, fun hpos i hi => ?_⟩
  · simp only [Here, show s.unlogged.pos = _ from hpos] at hhere
    obtain ⟨htype, -, hle⟩ := hH.at_work hhere.2
    exact Nat.lt_of_le_of_ne hle (not_isDone_newOrder htype hdone).1
  · simp only [Here, show s.unlogged.pos = _ from hpos] at hhere
    have hlast : (s.mgr home).nextItemId = o.items.length := hhere
    -- nothing is left to do, and the cursor of the home node is at the end
    have hread : itemsRead s.data.2 = o.items := by
      rw [toRead, hpos, readUpTo, hlast, append_nil,
        take_of_length_le (Nat.le_add_right _ _)] at hreads
      exact hreads
    have hupdated : stockUpdated s.data.2 = supplied S o.items := by
      rw [toUpdate, hpos, hlast, take_length, supplied, map_nil, append_nil] at hupdates
      exact hupdates
    refine ⟨?_, ?_⟩
    · rw [hupdated, supplied, List.filter_map]
      simp only [Function.comp_def, filter_iId_eq hdistinct hi, map_singleton]
    · rw [hread]
      exact filter_iId_eq hdistinct hi

/-- An item of the home node, and two of the other one. -/
def threeItems : NewOrder := ⟨1, 1, 1, [⟨5, 1, 3⟩, ⟨6, 2, 1⟩, ⟨7, 2, 2⟩], false, false, 0⟩

/-- Its steps; the other node has to wait for the first stock. -/
def threeSteps : List Attempt.Action :=
  List.replicate 13 (.runTxnState .RCOK) ++ [.rqry, .runTxnState .WAIT, .resume] ++
    List.replicate 5 (.runTxnState .RCOK) ++ [.endRun, .rqryRsp, .endRun]

/-- The stock of the third item is updated at node 1. -/
theorem items_once_threeItems :
    ∃ s, (visitMachine twoNodes 0 threeItems.query fun _ => unset).run threeSteps = some s ∧
      s.pos = .done ∧
      ((stockUpdated s.data.2).filter fun p => p.2.iId = 7) =
        [(nodeOf twoNodes.toCluster 2, ⟨7, 2, 2⟩)] ∧
      ((itemsRead s.data.2).filter fun j => j.iId = 7) = [⟨7, 2, 2⟩] := by
  obtain ⟨s, hs,
    hdone⟩ : ∃ s ∈ (visitMachine twoNodes 0 threeItems.query fun _ => unset).run threeSteps,
      s.pos = .done := by
    decide +kernel
  have h := items_once twoNodes threeItems 0 (fun _ => unset) (by decide) (by decide)
    (Machine.Reachable.of_run hs)
  exact ⟨s, hs, hdone, h.2 hdone ⟨7, 2, 2⟩ (by decide)⟩

end Tpcc

end Deneva
