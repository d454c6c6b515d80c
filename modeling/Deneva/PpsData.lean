import Deneva.Attempt
import Deneva.Pps

/-!
# What Product-Part-Supplier does to its tables (`benchmarks/pps_txn.cpp`)

The rows of `USES` and `SUPPLIES` of one key come in the order of the index, which `index_read`
counts through; a state that reads a part key has the row that was counted last. The other tables
are read by key.

`PARTS` has its amount in column 1, which `UPDATEPART` changes; the constant `PART_AMOUNT`, which
`ORDERPRODUCT` uses, is 11.

An `ORDERPRODUCT` should take one of every part its product uses (`Db.order`). `next_pps_state` goes
on from `ORDERPRODUCT2` to the parts only where the transaction is *not* local, so the home node
commits after it has looked up the first part: `order_iff`.
-/

namespace Deneva

open Function Option

namespace Pps

open Protocol

/-- The column of `PARTS` that the schema calls `PART_AMOUNT`. -/
def amountColumn : ℕ := 1

/-- `PART_AMOUNT` of `pps_helper.h`, which counts on from `FIELD10`. -/
def PART_AMOUNT : ℕ := 11

/-- The tables, as far as transactions read or change them. -/
structure Db where
  /-- the rows of `PARTS`, by key and column -/
  parts : ℕ → ℕ → ℤ
  /-- `PART_KEY` of the rows of `USES`, by `PRODUCT_KEY` -/
  uses : ℕ → List ℕ
  /-- `PART_KEY` of the rows of `SUPPLIES`, by `SUPPLIER_KEY` -/
  supplies : ℕ → List ℕ

/-- What a state finds: whether there is a row, and the part key in the row it has. -/
def lookup (t : Txn) (db : Db) : Bool × ℕ :=
  match t.state with
  | .GETPARTBYPRODUCT2 | .ORDERPRODUCT2 =>
    (((db.uses t.productKey)[t.partsProcessedCount]?).isSome, 0)
  | .GETPARTBYSUPPLIER2 => (((db.supplies t.supplierKey)[t.partsProcessedCount]?).isSome, 0)
  | .GETPARTBYPRODUCT3 | .ORDERPRODUCT3 =>
    (true, (db.uses t.productKey).getD (t.partsProcessedCount - 1) 0)
  | .GETPARTBYSUPPLIER3 => (true, (db.supplies t.supplierKey).getD (t.partsProcessedCount - 1) 0)
  | .UPDATEPRODUCTPART0 => (!(db.uses t.productKey).isEmpty, 0)
  | _ => (true, 0)

/-- A value is added to a column of a part. -/
def Db.addToPart (part column : ℕ) (x : ℤ) (db : Db) : Db :=
  { db with
    parts := update db.parts part
      (update (db.parts part) column (db.parts part column + x)) }

/-- What a state changes. -/
def effect (t : Txn) (db : Db) : Db :=
  match t.state with
  | .ORDERPRODUCT5 => db.addToPart t.partKey PART_AMOUNT (-1)
  | .UPDATEPART1 => db.addToPart t.partKey amountColumn 100
  -- always the first part of the product
  | .UPDATEPRODUCTPART1 =>
    { db with uses := update db.uses t.productKey ((db.uses t.productKey).set 0 t.partKey) }
  | _ => db

/-- Product-Part-Supplier over its tables. -/
def program (N : Cluster) : Attempt.Program Txn QueryMessage Db where
  W := workload N
  lookup _ := lookup
  effect _ := effect

/-- An `ORDERPRODUCT` at its home node; the query may have any other keys. -/
def orderProduct (N : Cluster) (home product part supplier : ℕ) (db : Db) :
    Attempt.Setup Txn Db where
  home := home
  mgr node :=
    if node = home then reset ⟨.ORDERPRODUCT0, 0, false, .ORDERPRODUCT, part, product, supplier⟩
    else (workload N).init
  data := db

/-- The attempts of an `ORDERPRODUCT` that runs alone. -/
abbrev orderMachine (N : Cluster) (home product part supplier : ℕ) (db : Db) :
    Machine (Attempt.State Txn QueryMessage Db) Attempt.Action :=
  Attempt.machine (program N) (orderProduct N home product part supplier db)

/-- **What an order should do**: the amount of a part decreases by one for every row of `USES` of
the product that names it, and nothing else is changed. -/
def Db.order (product : ℕ) (db : Db) : Db :=
  { db with
    parts := fun part => update (db.parts part) amountColumn
      (db.parts part amountColumn - (db.uses product).count part) }

theorem Db.order_eq_self_iff (product : ℕ) (db : Db) :
    db.order product = db ↔ db.uses product = [] := by
  constructor
  · intro h
    by_contra hne
    obtain ⟨part, hpart⟩ := List.exists_mem_of_ne_nil _ hne
    have hamount : db.parts part amountColumn - (db.uses product).count part =
        db.parts part amountColumn := by
      have := congrFun (congrFun (congrArg Db.parts h) part) amountColumn
      simpa only [Db.order, Function.update_self] using this
    have hcount := List.count_pos_iff.mpr hpart
    omega
  · intro h
    simp [Db.order, h]

/-! ## What it does -/

section

variable {N : Cluster} {product part supplier : ℕ} {db : Db}
  {s s' : Attempt.State Txn QueryMessage Db}

/-- The states the home node goes through, with its counter at the first part. -/
def AtHome (product part supplier : ℕ) (t : Txn) : Prop :=
  t.partsProcessedCount = 0 ∧ t.txnType = .ORDERPRODUCT ∧ t.partKey = part ∧
    t.productKey = product ∧ t.supplierKey = supplier ∧
    (t.state = .ORDERPRODUCT0 ∨ t.state = .ORDERPRODUCT1 ∨ t.state = .ORDERPRODUCT2 ∨
      t.state = .FIN)

/-- **The invariant**: the home node never leaves for the parts. -/
structure OrderInv (N : Cluster) (product part supplier : ℕ) (db : Db)
    (s : Attempt.State Txn QueryMessage Db) : Prop where
  /-- nothing is changed -/
  data : s.data = db
  /-- where the home node is in its states -/
  mgr : AtHome product part supplier (s.mgr (nodeOf N product))
  /-- it waits only for a row of its own, and sends nothing -/
  pos : s.pos = .run (nodeOf N product) ∨ s.pos = .wait (nodeOf N product) ∨ s.pos = .done

theorem orderInv_init : OrderInv N product part supplier db
    (orderMachine N (nodeOf N product) product part supplier db).init where
  data := rfl
  mgr := by simp [AtHome, Attempt.machine, orderProduct, reset, TxnType.first]
  pos := .inl rfl

section AtHome

variable {t t' : Txn} {a : Answer} {rc : RC} {out : Option (ℕ × QueryMessage)}

section

variable (ht : AtHome product part supplier t)

include ht

theorem AtHome.setRow (row : Bool) : AtHome product part supplier { t with row := row } := ht

/-- `next_pps_state` at the home node: from `ORDERPRODUCT2` to the end. -/
theorem AtHome.next (h : nextPpsState true t = some t') : AtHome product part supplier t' := by
  obtain ⟨hcount, htype, hpart, hproduct, hsupplier, hst⟩ := ht
  rcases hst with hst | hst | hst | hst <;>
    simp only [nextPpsState, hst, if_true, some.injEq] at h <;> subst h <;>
    simp [AtHome, hcount, htype, hpart, hproduct, hsupplier, hst]

theorem AtHome.getRow (h : Pps.getRow true t a = some (rc, t', out)) :
    AtHome product part supplier t' ∧ out = none := by
  simp only [Pps.getRow, ite_none_right_eq_some] at h
  obtain ⟨-, h⟩ := h
  split_ifs at h
  · simp only [map_eq_some_iff, Prod.mk.injEq] at h
    obtain ⟨t₁, hnext, -, rfl, rfl⟩ := h
    exact ⟨(ht.setRow true).next hnext, rfl⟩
  · simp only [some.injEq, Prod.mk.injEq] at h
    obtain ⟨-, rfl, rfl⟩ := h
    exact ⟨ht.setRow false, rfl⟩

theorem AtHome.getRowOrNull (h : Pps.getRowOrNull true t a = some (rc, t', out)) :
    AtHome product part supplier t' ∧ out = none := by
  unfold Pps.getRowOrNull at h
  split_ifs at h
  · exact ht.getRow h
  · simp only [map_eq_some_iff, Prod.mk.injEq] at h
    obtain ⟨t₁, hnext, -, rfl, rfl⟩ := h
    exact ⟨(ht.setRow false).next hnext, rfl⟩

theorem AtHome.useRow (h : Pps.useRow true t = some (rc, t', out)) :
    AtHome product part supplier t' ∧ out = none := by
  simp only [Pps.useRow, ite_none_right_eq_some, map_eq_some_iff, Prod.mk.injEq] at h
  obtain ⟨-, t₁, hnext, -, rfl, rfl⟩ := h
  exact ⟨ht.next hnext, rfl⟩

/-- One state of the home node: it stays at home and sends nothing. -/
theorem AtHome.runTxnState
    (h : Pps.runTxnState N (nodeOf N product) true t a = some (rc, t', out)) :
    AtHome product part supplier t' ∧ out = none := by
  have hown : ∀ serve, atKey N (nodeOf N product) t.productKey true t serve = serve := by
    intro serve
    rw [atKey, ht.2.2.2.1, if_pos rfl]
  rcases ht.2.2.2.2.2 with hst | hst | hst | hst <;> simp only [Pps.runTxnState, hst, hown] at h
  · exact ht.getRow h
  · exact ht.useRow h
  · exact ht.getRowOrNull h
  · simp only [some.injEq, Prod.mk.injEq] at h
    obtain ⟨-, rfl, rfl⟩ := h
    exact ⟨ht, rfl⟩

/-- None of its states changes anything. -/
theorem AtHome.effect (db : Db) : Pps.effect t db = db := by
  rcases ht.2.2.2.2.2 with hst | hst | hst | hst <;> simp [Pps.effect, hst]

end

end AtHome

/-- Every step keeps the invariant. -/
theorem OrderInv.step (hI : OrderInv N product part supplier db s) {a : Attempt.Action}
    (h : (orderMachine N (nodeOf N product) product part supplier db).step s a = some s') :
    OrderInv N product part supplier db s' := by
  -- whoever is at work is the home node
  have hrun : ∀ {node}, s.pos = .run node → node = nodeOf N product := by
    intro node hpos
    rcases hI.pos with h | h | h <;> rw [hpos] at h <;> cases h
    rfl
  have hwait : ∀ {node}, s.pos = .wait node → node = nodeOf N product := by
    intro node hpos
    rcases hI.pos with h | h | h <;> rw [hpos] at h <;> cases h
    rfl
  have hlocal : decide
    (nodeOf N product = (orderProduct N (nodeOf N product) product part supplier db).home)
      = true := decide_eq_true rfl
  have hstep := Attempt.step_of_eq_some h
  cases hstep with
  | ran rc node l hpos hdone hstate =>
    obtain rfl := hrun hpos
    rw [hlocal] at hstate
    exact {
      data := (hI.mgr.effect s.data).trans hI.data
      mgr := by simpa using (hI.mgr.runTxnState hstate).1
      pos := hI.pos }
  | waits rc node l hpos hdone hstate =>
    obtain rfl := hrun hpos
    rw [hlocal] at hstate
    exact {
      data := hI.data
      mgr := by simpa using (hI.mgr.runTxnState hstate).1
      pos := .inr (.inl rfl) }
  | sends rc node l dest m hpos hdone hstate =>
    obtain rfl := hrun hpos
    rw [hlocal] at hstate
    cases (hI.mgr.runTxnState hstate).2
  | endRun node hpos hdone =>
    obtain rfl := hrun hpos
    exact ⟨hI.data, hI.mgr, .inr (.inr (if_pos rfl))⟩
  | resume node hpos =>
    obtain rfl := hwait hpos
    refine ⟨hI.data, ?_, .inl rfl⟩
    simp only [Attempt.State.setMgr_self, program, workload, runTxnPostWait, hlocal]
    cases hnext : nextPpsState true { s.mgr (nodeOf N product) with row := true } with
    | none => exact hI.mgr
    | some t' => exact (hI.mgr.setRow true).next hnext
  | rqry src dest m hpos hne | rqryRsp hpos =>
    rcases hI.pos with h | h | h <;> rw [hpos] at h <;> cases h

/-- **An order changes nothing.** -/
theorem data_of_reachable
    (hs : (orderMachine N (nodeOf N product) product part supplier db).Reachable s) : s.data = db :=
  (Machine.Reachable.invariant orderInv_init
    (fun _ _ _ hI h => hI.step h) hs).data

/-- It comes to its commit after three states. -/
theorem exists_done :
    ∃ s, (orderMachine N (nodeOf N product) product part supplier db).Reachable s ∧
      s.pos = .done := by
  have hrun : ∃ s, (orderMachine N (nodeOf N product) product part supplier db).run
      [.runTxnState .RCOK, .runTxnState .RCOK, .runTxnState .RCOK, .endRun] = some s ∧
      s.pos = .done := by
    cases huses : db.uses product <;>
      simp [Machine.run, Machine.runFrom, Attempt.machine, orderProduct, program, workload,
        isDone, reset,
        TxnType.first, runTxnState, atKey, getRow, getRowOrNull, useRow, Attempt.answer,
        lookup, effect,
        huses, nextPpsState, Attempt.afterState, Attempt.State.setMgr]
  obtain ⟨s, hs, hdone⟩ := hrun
  exact ⟨s, .of_run hs, hdone⟩

end

/-- **Which orders take their parts.** An `ORDERPRODUCT` that runs alone at the node of its product
has, when it comes to its commit, taken one part for each row of `USES` of the product and changed
nothing else, exactly if there is no such row. -/
theorem order_iff (N : Cluster) (product part supplier : ℕ) (db : Db) :
    (∀ s, (orderMachine N (nodeOf N product) product part supplier db).Reachable s → s.pos = .done →
      s.data = db.order product) ↔ db.uses product = [] := by
  rw [← Db.order_eq_self_iff]
  constructor
  · intro h
    obtain ⟨s, hs, hdone⟩ := exists_done
    exact (h s hs hdone).symm.trans (data_of_reachable hs)
  · intro h s hs _
    rw [h, data_of_reachable hs]

/-- Every product has part `3`, of which there are a thousand. -/
def partThree : Db := ⟨fun _ _ => 1000, fun _ => [3], fun _ => []⟩

/-- A product with one part, at the only node: the order commits, and no part is taken. -/
theorem not_order_partThree :
    ∃ s ∈ (orderMachine ⟨1, 1⟩ 0 7 0 0 partThree).run
        [.runTxnState .RCOK, .runTxnState .RCOK, .runTxnState .RCOK, .endRun],
      s.pos = .done ∧ s.data.parts 3 amountColumn = 1000 ∧ s.data ≠ partThree.order 7 := by
  refine ⟨_, rfl, rfl, rfl, fun h => ?_⟩
  have hamount : (1000 : ℤ) = 1000 - 1 := congrFun (congrFun (congrArg Db.parts h) 3) amountColumn
  exact absurd hamount (by decide)

end Pps

end Deneva
