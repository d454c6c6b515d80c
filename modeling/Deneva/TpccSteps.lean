import Deneva.TpccData

/-!
# The states of a new order

What `run_txn_state` can answer (`Outcome`), and what one state of a new order does to its manager
(`Ran`). The node of the order's warehouse goes through the early states once and then through the
states of its items (`Work`); other nodes only go through the latter (`Away`).
-/

namespace Deneva

open List Option

namespace Tpcc

open Protocol

/-! ## What the states answer -/

section Outcomes

variable {N : Cluster} {node : ℕ} {isLocal : Bool} {t : Txn} {a : Answer}

/-- The states that work on the row in the cursor. -/
def TxnState.Uses : TxnState → Bool
  | .PAYMENT1 | .PAYMENT3 | .PAYMENT5 => true
  | .NEWORDER1 | .NEWORDER3 | .NEWORDER5 | .NEWORDER7 | .NEWORDER9 => true
  | _ => false

/-- The state asks for a row of another node. -/
def Txn.Remote (N : Cluster) (node : ℕ) (t : Txn) : Prop :=
  match t.state with
  | .PAYMENT0 | .NEWORDER0 => nodeOf N t.wId ≠ node
  | .PAYMENT4 => nodeOf N t.cWId ≠ node
  | .NEWORDER8 => ∃ wid, t.items[t.nextItemId]? = some wid ∧ nodeOf N wid ≠ node
  | _ => False

/-- What `run_txn_state` answers before the last state. -/
inductive Outcome (N : Cluster) (node : ℕ) (isLocal : Bool) (t : Txn) :
    RC × Txn × Option (ℕ × QueryMessage) → Prop where
  | next (c : Txn) (hhere : ¬ t.Remote N node)
      (h : nextTpccState isLocal { t with row := true } = some c) :
      Outcome N node isLocal t (.RCOK, c, none)
  | missed (rc : RC) (hhere : ¬ t.Remote N node) (huse : t.state.Uses = false) (hrc : rc ≠ .RCOK) :
      Outcome N node isLocal t (rc, { t with row := false }, none)
  | sent (r : RC × Txn × Option (ℕ × QueryMessage)) (hremote : t.Remote N node)
      (h : sendRemoteRequest N node isLocal t = some r) : Outcome N node isLocal t r

variable {r : RC × Txn × Option (ℕ × QueryMessage)}

theorem Outcome.of_getRow (hhere : ¬ t.Remote N node) (huse : t.state.Uses = false)
    (h : getRow isLocal t a = some r) : Outcome N node isLocal t r := by
  unfold getRow at h
  split_ifs at h with hitem hrc
  · obtain ⟨c, hc, rfl⟩ := map_eq_some_iff.mp h
    exact .next c hhere hc
  · cases h
    exact .missed _ hhere huse hrc

theorem Outcome.of_useRow (hhere : ¬ t.Remote N node)
    (h : useRow isLocal t = some r) : Outcome N node isLocal t r := by
  unfold useRow at h
  split_ifs at h with hrow
  obtain ⟨c, hc, rfl⟩ := map_eq_some_iff.mp h
  refine .next c hhere ?_
  rw [← hc, ← hrow]

theorem outcome_of_runTxnState (hfin : t.state ≠ .FIN)
    (h : runTxnState N node isLocal t a = some r) : Outcome N node isLocal t r := by
  rw [runTxnState, ite_none_left_eq_some] at h
  obtain ⟨-, h⟩ := h
  split at h
  case h_1 | h_5 | h_7 =>
    rename_i hst
    split_ifs at h with hloc
    · exact .of_getRow (by simp [Txn.Remote, hst, hloc]) (by rw [hst]; rfl) h
    · exact .sent r (by simpa only [Txn.Remote, hst] using hloc) h
  case h_3 | h_9 | h_11 | h_13 =>
    rename_i hst
    exact .of_getRow (by simp [Txn.Remote, hst]) (by rw [hst]; rfl) h
  case h_15 hst =>
    split at h
    case h_1 wid hitem =>
      split_ifs at h with hloc
      · exact .of_getRow (by simp [Txn.Remote, hst, hitem, hloc]) (by rw [hst]; rfl) h
      · exact .sent r (by simpa only [Txn.Remote, hst] using ⟨wid, hitem, hloc⟩) h
    case h_2 => cases h
  case h_17 hst => exact absurd hst hfin
  case h_18 => cases h
  all_goals
    rename_i hst
    exact .of_useRow (by simp [Txn.Remote, hst]) h

end Outcomes

/-! ## The states of a new order -/

namespace TxnState

/-- The states up to the one that inserts the order. -/
def Early (st : TxnState) : Prop :=
  st = .NEWORDER0 ∨ st = .NEWORDER1 ∨ st = .NEWORDER2 ∨ st = .NEWORDER3 ∨ st = .NEWORDER4 ∨
    st = .NEWORDER5

/-- The states of the items. -/
def Late (st : TxnState) : Prop :=
  st = .NEWORDER6 ∨ st = .NEWORDER7 ∨ st = .NEWORDER8 ∨ st = .NEWORDER9 ∨ st = .FIN

instance (st : TxnState) : Decidable st.Early := by unfold Early; infer_instance

instance (st : TxnState) : Decidable st.Late := by unfold Late; infer_instance

/-- How many states there are until the item is done, or until the first one is. -/
def left : TxnState → ℕ
  | .NEWORDER0 => 9
  | .NEWORDER1 => 8
  | .NEWORDER2 => 7
  | .NEWORDER3 => 6
  | .NEWORDER4 => 5
  | .NEWORDER5 => 4
  | .NEWORDER6 => 3
  | .NEWORDER7 => 2
  | .NEWORDER8 => 1
  | _ => 0

variable {st : TxnState}

theorem Early.not_late (h : st.Early) : ¬ st.Late := by
  unfold Early at h
  rcases h with rfl | rfl | rfl | rfl | rfl | rfl <;> decide

theorem Early.ne_fin (h : st.Early) : st ≠ .FIN := by
  rintro rfl
  exact absurd h (by decide)

theorem Early.ne_line (h : st.Early) : st ≠ .NEWORDER9 := by
  rintro rfl
  exact absurd h (by decide)

end TxnState

/-- One state of a new order at a node, with its row in the cursor. -/
inductive Ran (N : Cluster) (node : ℕ) (isLocal : Bool) (t : Manager) : Manager → Prop where
  | early (st : TxnState) (hearly : t.state.Early) (hst : st.Early) (hnot : t.state ≠ .NEWORDER5)
      (hleft : st.left < t.state.left) :
      Ran N node isLocal t { t with state := st, hasRow := true }
  | order (hst : t.state = .NEWORDER5) :
      Ran N node isLocal t { t with state := .NEWORDER6, hasRow := true }
  | late (st : TxnState) (hlate : t.state.Late) (hst : st.Late) (hnot : t.state ≠ .NEWORDER9)
      (hfin : st ≠ .FIN) (hleft : t.state.left = st.left + 1)
      (hhere : st = .NEWORDER9 → ∀ item, t.query.items[t.nextItemId]? = some item →
        nodeOf N item.supplyWId = node) :
      Ran N node isLocal t { t with state := st, hasRow := true }
  | line (hst : t.state = .NEWORDER9) :
      Ran N node isLocal t
        { t with
          nextItemId := t.nextItemId + 1
          hasRow := true
          state := if isLocal = true ∧ t.nextItemId + 1 = t.query.items.length then .FIN
            else .NEWORDER6 }

section Steps

variable {N : Cluster} {node : ℕ} {isLocal : Bool} {t l : Manager} {a : Answer}

theorem isDone_newOrder (htype : t.query.txnType = .TPCC_NEW_ORDER) :
    isDone t.txn = true ↔ t.nextItemId = t.query.items.length ∨ t.state = .FIN := by
  simp [isDone, Manager.txn, htype]

theorem not_isDone_newOrder (htype : t.query.txnType = .TPCC_NEW_ORDER)
    (hdone : isDone t.txn = false) : t.nextItemId ≠ t.query.items.length ∧ t.state ≠ .FIN := by
  rw [← not_or, ← isDone_newOrder htype, hdone]
  exact Bool.false_ne_true

variable {c : Txn}

theorem nextItem_newOrder (htype : c.txnType = .TPCC_NEW_ORDER) (hfin : c.state ≠ .FIN) :
    nextItem isLocal c = { c with
      state := if isLocal = true ∧ c.nextItemId = c.items.length then .FIN else .NEWORDER6 } := by
  have hdone : isDone c = decide (c.nextItemId = c.items.length) := by simp [isDone, htype, hfin]
  rw [nextItem, hdone]
  by_cases hnext : c.nextItemId = c.items.length <;> cases isLocal <;> simp [hnext]

theorem exists_nextTpccState (isLocal : Bool) (hst : t.state.Early ∨ t.state.Late) :
    ∃ c, nextTpccState isLocal { t.txn with row := true } = some c := by
  simp only [nextTpccState, Manager.txn]
  rcases hst with hst | hst
  · rcases hst with hst | hst | hst | hst | hst | hst <;> rw [hst] <;> exact ⟨_, rfl⟩
  · rcases hst with hst | hst | hst | hst | hst <;> rw [hst] <;> exact ⟨_, rfl⟩

/-- What `run_txn_state` answers, for a manager with its query. -/
theorem Manager.outcome_of_runTxnState (hfin : t.state ≠ .FIN) {rc : RC}
    {out : Option (ℕ × FragmentMessage)} (h : t.runTxnState N node isLocal a = some (rc, l, out)) :
    ∃ c out', Outcome N node isLocal t.txn (rc, c, out') ∧ l = t.setTxn c ∧
      out = out'.map fun (dest, m) => (dest, t.message m) := by
  simp only [Manager.runTxnState, map_eq_some_iff, Prod.mk.injEq] at h
  obtain ⟨⟨rc', c, out'⟩, hrun, rfl, rfl, rfl⟩ := h
  exact ⟨c, out', Tpcc.outcome_of_runTxnState hfin hrun, rfl, rfl⟩

/-- `send_remote_request` waits for the answer. -/
theorem sendRemoteRequest_eq_some {r : RC × Txn × Option (ℕ × QueryMessage)}
    (h : sendRemoteRequest N node isLocal c = some r) :
    isLocal = true ∧ ∃ dest st, remoteRequest N c = some (dest, st) ∧
      r = (.WAIT_REM,
        { c with state := st, nextItemId := c.nextItemId + (copyRemoteItems N node c).length },
        some (dest, ⟨c.txnType, c.state, c.wId, c.cWId, copyRemoteItems N node c, c.rbk⟩)) := by
  rw [sendRemoteRequest, ite_none_right_eq_some, map_eq_some_iff] at h
  obtain ⟨hlocal, ⟨dest, st⟩, hreq, rfl⟩ := h
  exact ⟨hlocal, dest, st, hreq, rfl⟩

/-- A state that answers `RCOK` has its row at the node. -/
theorem not_remote_of_runTxnState (hfin : t.state ≠ .FIN)
    (h : t.runTxnState N node isLocal a = some (.RCOK, l, none)) : ¬ t.txn.Remote N node := by
  obtain ⟨c, out, hout, rfl, -⟩ := Manager.outcome_of_runTxnState hfin h
  cases hout with
  | next c hhere hnext => exact hhere
  | missed rc hhere huse hrc => exact hhere
  | sent r hremote hsend =>
    obtain ⟨-, dest, st, -, hr⟩ := sendRemoteRequest_eq_some hsend
    cases hr

section

variable (htype : t.query.txnType = .TPCC_NEW_ORDER)

include htype

section

variable (hst : t.state.Early ∨ t.state.Late)

include hst

section

variable (hdone : isDone t.txn = false)

include hdone

/-- `next_tpcc_state`, while there are items left. -/
theorem ran_of_nextTpccState (hhere : ¬ t.txn.Remote N node)
    (h : nextTpccState isLocal { t.txn with row := true } = some c) :
    Ran N node isLocal t (t.setTxn c) := by
  obtain ⟨hne, hfin⟩ := not_isDone_newOrder htype hdone
  simp only [nextTpccState, Manager.txn] at h
  rcases hst with hst | hst
  · rcases hst with hst | hst | hst | hst | hst | hst <;> rw [hst] at h <;>
      obtain rfl := some.inj h
    case inr.inr.inr.inr.inr =>
      rw [nextItem_newOrder htype (by simp), if_neg (by simp [hne])]
      exact .order hst
    all_goals
      exact .early _ (by simp [TxnState.Early, hst]) (by simp [TxnState.Early]) (by simp [hst])
        (by simp [hst, TxnState.left])
  · rcases hst with hst | hst | hst | hst | hst <;> rw [hst] at h <;> cases h
    case inr.inr.inr.inl =>
      -- the stock of the current item is here
      refine .late _ (by simp [TxnState.Late, hst]) (by simp [TxnState.Late]) (by simp [hst])
        (by simp) (by simp [hst, TxnState.left]) fun _ item hitem => ?_
      by_contra hne
      refine hhere ?_
      rw [Txn.Remote, show t.txn.state = .NEWORDER8 from hst]
      exact ⟨item.supplyWId, by simp [Manager.txn, hitem], hne⟩
    case inr.inr.inr.inr.inl =>
      rw [nextItem_newOrder htype (by simp), length_map]
      exact .line hst
    case inr.inr.inr.inr.inr => exact absurd hst hfin
    all_goals
      exact .late _ (by simp [TxnState.Late, hst]) (by simp [TxnState.Late]) (by simp [hst])
        (by simp) (by simp [hst, TxnState.left]) (by simp)

/-- The row that was waited for. -/
theorem ran_of_runTxnPostWait (hhere : ¬ t.txn.Remote N node) :
    Ran N node isLocal t (t.setTxn (runTxnPostWait isLocal t.txn)) := by
  obtain ⟨c, hc⟩ := exists_nextTpccState isLocal hst
  rw [runTxnPostWait, hc]
  exact ran_of_nextTpccState htype hst hdone hhere hc

/-- A state of a new order that answers `RCOK`. -/
theorem ran_of_runTxnState (h : t.runTxnState N node isLocal a = some (.RCOK, l, none)) :
    Ran N node isLocal t l := by
  obtain ⟨c, out, hout, rfl, -⟩ :=
    Manager.outcome_of_runTxnState (not_isDone_newOrder htype hdone).2 h
  cases hout with
  | next c hhere hnext => exact ran_of_nextTpccState htype hst hdone hhere hnext
  | missed rc hhere huse hrc => exact absurd rfl hrc
  | sent r hremote hsend =>
    obtain ⟨-, dest, st, -, hr⟩ := sendRemoteRequest_eq_some hsend
    cases hr

end

end

end

/-- A state that waits for its row. -/
theorem waits_of_runTxnState (hfin : t.state ≠ .FIN)
    (h : t.runTxnState N node isLocal a = some (.WAIT, l, none)) :
    l = { t with hasRow := false } ∧ ¬ t.txn.Remote N node ∧ t.state.Uses = false := by
  obtain ⟨c, out, hout, rfl, -⟩ := Manager.outcome_of_runTxnState hfin h
  cases hout with
  | missed rc hhere huse hrc => exact ⟨rfl, hhere, huse⟩
  | sent r hremote hsend =>
    obtain ⟨-, dest, st, -, hr⟩ := sendRemoteRequest_eq_some hsend
    cases hr

end Steps

/-- The items that `copy_remote_items` takes: those from the current one on that the same other node
supplies. -/
def sentItems (N : Cluster) (node : ℕ) (t : Manager) (first : Item) : List Item :=
  (t.query.items.drop t.nextItemId).takeWhile fun item =>
    decide (nodeOf N item.supplyWId ≠ node) &&
      decide (nodeOf N item.supplyWId = nodeOf N first.supplyWId)

section Sent

variable {N : Cluster} {node : ℕ} {t : Manager} {first : Item}

theorem copyRemoteItems_eq (htype : t.query.txnType = .TPCC_NEW_ORDER)
    (hfirst : t.query.items[t.nextItemId]? = some first) :
    copyRemoteItems N node t.txn = (sentItems N node t first).map Item.supplyWId := by
  simp only [copyRemoteItems, Manager.txn, htype, getElem?_map, hfirst, map_some, sentItems]
  rw [← map_drop, takeWhile_map]
  simp only [Function.comp_def]

theorem take_length_sentItems :
    (t.query.items.drop t.nextItemId).take
      (sentItems N node t first).length = sentItems N node t first := by
  symm
  exact List.prefix_iff_eq_take.mp <| takeWhile_prefix _

theorem mem_sentItems {item : Item} (h : item ∈ sentItems N node t first) :
    nodeOf N item.supplyWId = nodeOf N first.supplyWId := by
  have := mem_takeWhile_imp h
  simp only [Bool.and_eq_true, decide_eq_true_eq] at this
  exact this.2

theorem sentItems_ne_nil (hfirst : t.query.items[t.nextItemId]? = some first)
    (hne : nodeOf N first.supplyWId ≠ node) : sentItems N node t first ≠ [] := by
  obtain ⟨hlt, hget⟩ := List.getElem?_eq_some_iff.mp hfirst
  rw [sentItems, drop_eq_getElem_cons hlt, hget, takeWhile_cons_of_pos (by simp [hne])]
  exact cons_ne_nil _ _

theorem take_add_sentItems (N : Cluster) (node : ℕ) (t : Manager) (first : Item) :
    t.query.items.take (t.nextItemId + (sentItems N node t first).length) =
      t.query.items.take t.nextItemId ++ sentItems N node t first := by
  rw [take_add, take_length_sentItems]

theorem add_length_sentItems_le (N : Cluster) (node : ℕ) (first : Item)
    (hlt : t.nextItemId ≤ t.query.items.length) :
    t.nextItemId + (sentItems N node t first).length ≤ t.query.items.length := by
  have := (takeWhile_sublist (l := t.query.items.drop t.nextItemId) fun item =>
    decide (nodeOf N item.supplyWId ≠ node) &&
      decide (nodeOf N item.supplyWId = nodeOf N first.supplyWId)).length_le
  rw [length_drop] at this
  exact Nat.add_le_of_le_sub' hlt this

/-- A state of a new order that goes to another node: the order itself, or its current item. -/
structure Sends (N : Cluster) (node : ℕ) (t : Manager) (first : Item) (dest : ℕ) (l : Manager)
    (m : FragmentMessage) : Prop where
  item : t.query.items[t.nextItemId]? = some first
  goes : t.state = .NEWORDER0 ∧ dest = nodeOf N t.query.wId ∨
    t.state = .NEWORDER8 ∧ dest = nodeOf N first.supplyWId
  ne : dest ≠ node
  mgr : l = { t with
    state := .NEWORDER6, nextItemId := t.nextItemId + (sentItems N node t first).length }
  message : m = ⟨t.state, { t.query with items := sentItems N node t first }⟩

/-- What a state leaves behind that asks another node: only the home node does that, and all items
that follow and belong to that node go with the message. -/
theorem sends_of_runTxnState {isLocal : Bool} {l : Manager} {a : Answer} {dest : ℕ}
    {m : FragmentMessage} (htype : t.query.txnType = .TPCC_NEW_ORDER)
    (hst : t.state.Early ∨ t.state.Late) (hdone : isDone t.txn = false)
    (hle : t.nextItemId ≤ t.query.items.length)
    (h : t.runTxnState N node isLocal a = some (.WAIT_REM, l, some (dest, m))) :
    isLocal = true ∧ ∃ first, Sends N node t first dest l m := by
  obtain ⟨hne, hfin⟩ := not_isDone_newOrder htype hdone
  obtain ⟨c, out, hout, rfl, hm⟩ := Manager.outcome_of_runTxnState hfin h
  cases hout with
  | missed rc hhere huse hrc => cases hm
  | sent r hremote hsend =>
    obtain ⟨hlocal, dest', st, hreq, hr⟩ := sendRemoteRequest_eq_some hsend
    obtain ⟨first, hfirst⟩ : ∃ first, t.query.items[t.nextItemId]? = some first :=
      ⟨_, getElem?_eq_getElem (Nat.lt_of_le_of_ne hle hne)⟩
    rw [copyRemoteItems_eq htype hfirst] at hr
    obtain ⟨rfl, rfl⟩ := hr
    simp only [map_some, some.injEq, Prod.mk.injEq, Manager.message, length_map,
      take_length_sentItems] at hm
    obtain ⟨rfl, rfl⟩ := hm
    have hgoes : (t.state = .NEWORDER0 ∧ dest = nodeOf N t.query.wId ∨
        t.state = .NEWORDER8 ∧ dest = nodeOf N first.supplyWId) ∧ dest ≠ node ∧
          st = .NEWORDER6 := by
      rcases hst with hst | hst
      · rcases hst with hst | hst | hst | hst | hst | hst <;>
          simp only [Txn.Remote, Manager.txn, hst] at hremote
        simp only [remoteRequest, Manager.txn, hst, some.injEq, Prod.mk.injEq] at hreq
        obtain ⟨rfl, rfl⟩ := hreq
        exact ⟨.inl ⟨hst, rfl⟩, hremote, rfl⟩
      · rcases hst with hst | hst | hst | hst | hst <;>
          simp only [Txn.Remote, Manager.txn, hst] at hremote
        rw [getElem?_map, hfirst] at hremote
        obtain ⟨wid, hwid, hremote⟩ := hremote
        obtain rfl : first.supplyWId = wid := some.inj hwid
        have hitem : t.txn.items[t.txn.nextItemId]? = some first.supplyWId := by
          simp [Manager.txn, getElem?_map, hfirst]
        rw [remoteRequest, show t.txn.state = .NEWORDER8 from hst] at hreq
        simp only [hitem, hdone, map_some, Bool.false_eq_true, if_false, some.injEq,
          Prod.mk.injEq] at hreq
        obtain ⟨rfl, rfl⟩ := hreq
        exact ⟨.inr ⟨hst, rfl⟩, hremote, rfl⟩
    obtain ⟨hgoes, hdest, rfl⟩ := hgoes
    exact ⟨hlocal, first, hfirst, hgoes, hdest, by simp [Manager.setTxn, Manager.txn], rfl⟩

end Sent

/-! ## The node of the order -/

section Work

variable (S : Scale) (o : NewOrder)

/-- The `O_ID` of the order, from the contents of the node of its warehouse. -/
def newOId (c : Contents) : ℤ := c.row (newOrder4Row S o.query) D_NEXT_O_ID + 1

/-- The node of an order with a manager and data that have come so far from the contents at the
beginning. -/
structure Work (c : Contents) (t : Manager) (d : NodeData) : Prop where
  query : t.query = o.query
  states : t.state.Early ∨ t.state.Late
  early : t.state.Early → d = c.start ∧ t.nextItemId = 0
  late : t.state.Late → d.oId = newOId S o c ∧ d.orders.map OrderRow.oId = [newOId S o c] ∧
    d.row (newOrder4Row S o.query) D_NEXT_O_ID = newOId S o c
  lines : ∀ line ∈ d.orderLines, line.oId = newOId S o c
  numbers : (∀ item ∈ o.items, nodeOf S.toCluster item.supplyWId = nodeOf S.toCluster o.wId) →
    d.orderLines.map OrderLineRow.number = List.range t.nextItemId
  fin : t.state = .FIN → t.nextItemId = o.items.length
  here : t.state = .NEWORDER9 → ∀ item, o.items[t.nextItemId]? = some item →
    nodeOf S.toCluster item.supplyWId = nodeOf S.toCluster o.wId

variable {S o} {c : Contents} {t l : Manager} {d : NodeData} {isLocal : Bool}

theorem change_of_not_uses (h : t.state.Uses = false) : change S t d = d := by
  unfold change
  split <;> rename_i hst <;> first | rfl | (rw [hst] at h; cases h)

theorem change_of_ne (htype : t.state.Early ∨ t.state.Late) (h5 : t.state ≠ .NEWORDER5)
    (h9 : t.state ≠ .NEWORDER9) : change S t d = d := by
  rcases htype with h | h
  · rcases h with h | h | h | h | h | h <;> simp_all [change]
  · rcases h with h | h | h | h | h <;> simp_all [change]

@[simp] theorem newOrder9_oId (q : Query) (item : Item) (number : ℕ) (oId : ℤ) (r : RowRef) :
    (newOrder9 q item number oId r d).oId = d.oId := by
  unfold newOrder9
  cases q.remote <;> rfl

@[simp] theorem newOrder9_orders (q : Query) (item : Item) (number : ℕ) (oId : ℤ) (r : RowRef) :
    (newOrder9 q item number oId r d).orders = d.orders := by
  unfold newOrder9
  cases q.remote <;> rfl

theorem newOrder9_row {r r' : RowRef} (hne : r' ≠ r) (q : Query) (item : Item) (number : ℕ)
    (oId : ℤ) : (newOrder9 q item number oId r d).row r' = d.row r' := by
  unfold newOrder9
  cases q.remote <;> simp [NodeData.setValue, Function.update_of_ne hne]

theorem newOrder9_orderLines (q : Query) (item : Item) (number : ℕ) (oId : ℤ) (r : RowRef) :
    ∃ line : OrderLineRow, line.oId = oId ∧ line.number = number ∧
      (newOrder9 q item number oId r d).orderLines = d.orderLines ++ [line] := by
  refine ⟨⟨oId, q.dId, q.wId, number, item.iId, item.supplyWId, item.quantity, d.olAmount⟩, rfl,
    rfl, ?_⟩
  unfold newOrder9
  cases q.remote <;> rfl

theorem district_ne_stock (q : Query) (item : Item) : newOrder4Row S q ≠ newOrder8Row S item := by
  simp [newOrder4Row, newOrder8Row]

theorem Work.hasRow (hw : Work S o c t d) (row : Bool) : Work S o c { t with hasRow := row } d :=
  ⟨hw.query, hw.states, hw.early, hw.late, hw.lines, hw.numbers, hw.fin, hw.here⟩

/-- A state of the node of the order. -/
theorem Work.ran (hw : Work S o c t d) (hlt : t.nextItemId < o.items.length)
    (h : Ran S.toCluster (nodeOf S.toCluster o.wId) isLocal t l) : Work S o c l (change S t d) := by
  cases h with
  | early st hearly hst hnot hleft =>
    have h9 : t.state ≠ .NEWORDER9 := fun h9 => hearly.not_late (by simp [TxnState.Late, h9])
    rw [change_of_ne (.inl hearly) hnot h9]
    exact ⟨hw.query, .inl hst, fun _ => hw.early hearly, fun h => absurd h hst.not_late, hw.lines,
      hw.numbers, fun h => absurd h hst.ne_fin, fun h => absurd h hst.ne_line⟩
  | order hst =>
    obtain ⟨rfl, hzero⟩ := hw.early (by simp [TxnState.Early, hst])
    have hchange : change S t c.start = newOrder5 o.query (newOrder4Row S o.query) c.start := by
      simp only [change, hst, hw.query]
    rw [hchange]
    refine ⟨hw.query, .inr (by simp [TxnState.Late]), fun h => ?_, fun _ => ⟨rfl, rfl, ?_⟩, ?_, ?_,
      nofun, nofun⟩
    · simp [TxnState.Early] at h
    · simp [newOrder5, NodeData.setValue, newOId, Contents.start]
    · exact hw.lines
    · exact hw.numbers
  | late st hlate hst hnot hfin hleft hhere =>
    have h5 : t.state ≠ .NEWORDER5 := fun h5 =>
      TxnState.Early.not_late (by simp [TxnState.Early, h5]) hlate
    rw [change_of_ne (.inr hlate) h5 hnot]
    exact ⟨hw.query, .inr hst, fun h => absurd hst h.not_late, fun _ => hw.late hlate, hw.lines,
      hw.numbers, fun h => absurd h hfin, by
      simpa only [hw.query, NewOrder.query_items] using hhere⟩
  | line hst =>
    have hlate : t.state.Late := by simp [TxnState.Late, hst]
    obtain ⟨hoId, horders, hrow⟩ := hw.late hlate
    have hitem : o.query.items[t.nextItemId]? = some o.items[t.nextItemId] :=
      getElem?_eq_getElem hlt
    have hchange : change S t d = newOrder9 o.query o.items[t.nextItemId] t.nextItemId d.oId
        (newOrder8Row S o.items[t.nextItemId]) d := by
      simp only [change, hst, hw.query, hitem]
    obtain ⟨line, hline, hnumber, hlines⟩ := newOrder9_orderLines o.query
      o.items[t.nextItemId] t.nextItemId d.oId (newOrder8Row S o.items[t.nextItemId])
    rw [hchange]
    refine ⟨hw.query, .inr ?_, fun h => ?_, fun _ => ⟨?_, ?_, ?_⟩, ?_, ?_, ?_, fun h => ?_⟩
    · dsimp only
      split_ifs <;> simp [TxnState.Late]
    · dsimp only at h
      split_ifs at h <;> simp [TxnState.Early] at h
    · rw [newOrder9_oId, hoId]
    · rw [newOrder9_orders, horders]
    · rw [newOrder9_row (district_ne_stock _ _), hrow]
    · intro line' hmem
      rw [hlines, mem_append, mem_singleton] at hmem
      rcases hmem with hmem | rfl
      · exact hw.lines line' hmem
      · rw [hline, hoId]
    · intro hall
      rw [hlines, map_append, hw.numbers hall, map_singleton, hnumber, range_succ]
    · intro h
      split_ifs at h with hend
      rw [hend.2, hw.query]
      rfl
    · dsimp only at h
      split_ifs at h

end Work

/-- What a manager needs for its next state: the row, where it works on one. -/
def Manager.Ready (t : Manager) : Prop := t.state.Uses = true → t.hasRow = true

section Ran

variable {N : Cluster} {node : ℕ} {isLocal : Bool} {t l : Manager}

/-- At another node no state is the last one. -/
theorem Ran.ne_fin (h : Ran N node false t l) : l.state ≠ .FIN := by
  cases h with
  | early st _ hst => exact hst.ne_fin
  | order => simp
  | late st _ _ _ hfin => exact hfin
  | line => simp

section

variable (h : Ran N node isLocal t l)

include h

theorem Ran.ready : l.Ready := by
  intro _
  cases h <;> rfl

theorem Ran.query_eq : l.query = t.query := by
  cases h <;> rfl

theorem Ran.stays_late (hlate : t.state.Late) : l.state.Late := by
  cases h with
  | early st hearly => exact absurd hlate hearly.not_late
  | order hst => simp [TxnState.Late]
  | late st _ hst => exact hst
  | line hst =>
    split_ifs <;> simp [TxnState.Late]

theorem Ran.nextItemId_le (hlt : t.nextItemId < t.query.items.length) :
    l.nextItemId ≤ l.query.items.length := by
  cases h with
  | line => exact hlt
  | _ => exact hlt.le

end

end Ran

/-- Another node, with the items it supplies: it numbers its lines from zero and knows no order. -/
structure Away (S : Scale) (o : NewOrder) (node : ℕ) (c : Contents) (t : Manager) (d : NodeData) :
    Prop where
  oId : d.oId = c.oId
  orders : d.orders = []
  lines : ∀ line ∈ d.orderLines, line.oId = c.oId
  count : d.orderLines.length = t.nextItemId
  le : t.nextItemId ≤ t.query.items.length
  here : ∀ item ∈ t.query.items, item ∈ o.items ∧ nodeOf S.toCluster item.supplyWId = node

/-- A state of another node. -/
theorem Away.ran {S : Scale} {o : NewOrder} {node : ℕ} {c : Contents} {t l : Manager} {d : NodeData}
    (h : Away S o node c t d) (hlt : t.nextItemId < t.query.items.length) (hlate : t.state.Late)
    (hran : Ran S.toCluster node false t l) : Away S o node c l (change S t d) := by
  have hle := hran.nextItemId_le hlt
  have hhere : ∀ item ∈ l.query.items, item ∈ o.items ∧
      nodeOf S.toCluster item.supplyWId = node := by
    rw [hran.query_eq]
    exact h.here
  cases hran with
  | early st hearly => exact absurd hlate hearly.not_late
  | order hst => exact absurd hlate (by rw [hst]; decide)
  | late st _ hst hnot =>
    have h5 : t.state ≠ .NEWORDER5 := by
      intro h5
      rw [h5] at hlate
      exact absurd hlate (by decide)
    rw [change_of_ne (.inr hlate) h5 hnot]
    exact ⟨h.oId, h.orders, h.lines, h.count, hle, hhere⟩
  | line hst =>
    have hchange : change S t d = newOrder9 t.query t.query.items[t.nextItemId] t.nextItemId d.oId
        (newOrder8Row S t.query.items[t.nextItemId]) d := by
      simp only [change, hst, getElem?_eq_getElem hlt]
    obtain ⟨line, hline, -, hlines⟩ := newOrder9_orderLines t.query
      t.query.items[t.nextItemId] t.nextItemId d.oId (newOrder8Row S t.query.items[t.nextItemId])
    rw [hchange]
    refine ⟨?_, ?_, ?_, ?_, hle, hhere⟩
    · rw [newOrder9_oId, h.oId]
    · rw [newOrder9_orders, h.orders]
    · intro line' hmem
      rw [hlines, mem_append, mem_singleton] at hmem
      rcases hmem with hmem | rfl
      · exact h.lines line' hmem
      · rw [hline, h.oId]
    · rw [hlines, length_append, h.count]
      rfl

end Tpcc

end Deneva
