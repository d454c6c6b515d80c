import Deneva.FrameworkCalvin
import Deneva.TpccOrders

/-!
# The two paths of TPC-C

A query alone through `run_txn` and through `run_calvin_txn`. The second path has no result: every
query has a row at some node, `get_row` asks the framework of the node for the transaction, and the
framework has never heard of it (`FrameworkCalvin.unknown_of_reachable`), so that the call does not
come back. `never_agree` is that no query comes to the same end on both paths.
-/

namespace Deneva

open Function List Option

namespace Tpcc

open Protocol

/-- The transactions there are. -/
inductive Input : Type where
  | payment (p : Payment)
  | newOrder (o : NewOrder)

/-- The query of a transaction. -/
def Input.query : Input → Query
  | .payment p => p.query
  | .newOrder o => o.query

/-- All nodes have the same values in their rows, and the same rows inserted. -/
def Agree (S : Scale) (d d' : ℕ → NodeData) : Prop :=
  ∀ n < S.nodeCnt, (d n).row = (d' n).row ∧ (d n).toInserts = (d' n).toInserts

/-- The calls of the framework for a transaction come back only where it knows the transaction. -/
def ComesBack {K V : Type} (f : FrameworkCalvin.State K V) (txnId : ℕ) (back : ℕ → Bool) : Prop :=
  ∀ node, back node = true → (f.registry.getTransaction node txnId).isSome = true

/-- The node of its warehouse has a row of every query. -/
theorem calvinAccesses_home (S : Scale) (t : Input) :
    calvinAccesses S t.query (nodeOf S.toCluster t.query.wId) = true := by
  cases t with
  | payment p => simp [calvinAccesses, Input.query, Payment.query]
  | newOrder o => simp [calvinAccesses, Input.query]

/-- **With Calvin no query comes to an end.** -/
theorem not_calvinCommits {K V : Type} [DecidableEq K] {C : FrameworkCalvin.Config K V}
    {f : FrameworkCalvin.State K V} (hf : (FrameworkCalvin.machine C).Reachable f) {txnId : ℕ}
    {back : ℕ → Bool} (hback : ComesBack f txnId back) {S : Scale} (hnode : 1 ≤ S.nodeCnt)
    (t : Input) (db d : ℕ → _) : ¬ CalvinCommits S back t.query db d := by
  intro h
  obtain ⟨hknown, -⟩ := runCalvinTxn_eq_some.mp (h _ (nodeOf_lt hnode t.query.wId))
  have hsome := hback _ (hknown (calvinAccesses_home S t))
  rw [(FrameworkCalvin.unknown_of_reachable hf).map] at hsome
  cases hsome

/-- **The two paths never agree.** Whatever sequencer, scheduler and workers have done before, no
query comes to an end on the plain path and with Calvin and leaves the same on both: with Calvin it
comes to no end. -/
theorem never_agree {K V : Type} [DecidableEq K] (C : FrameworkCalvin.Config K V)
    {f : FrameworkCalvin.State K V} (hf : (FrameworkCalvin.machine C).Reachable f) (txnId : ℕ)
    {back : ℕ → Bool} (hback : ComesBack f txnId back) (S : Scale) (hnode : 1 ≤ S.nodeCnt)
    (t : Input) (home : ℕ) (db : ℕ → Contents) :
    ¬ ∃ d d', Commits S home t.query db d ∧ CalvinCommits S back t.query db d' ∧ Agree S d d' := by
  rintro ⟨d, d', -, hcalvin, -⟩
  exact not_calvinCommits hf hback hnode t db d' hcalvin

/-- A payment at warehouse 1 by one of its customers. -/
def paymentAt : Payment := ⟨1, 2, 3, 1, 1, 2, [], 5, false⟩

/-- Nothing is registered before the first transaction, nor later. -/
theorem never_agree_paymentAt :
    ¬ ∃ d d', Commits twoNodes 0 paymentAt.query (fun _ => unset) d ∧
      CalvinCommits twoNodes (fun _ => false) paymentAt.query (fun _ => unset) d' ∧
      Agree twoNodes d d' :=
  never_agree FrameworkCalvin.oneWrite .init 7 (by simp [ComesBack]) twoNodes (by decide)
    (.payment paymentAt) 0 fun _ => unset

/-- The payment commits on the plain path, and its warehouse has got the amount; with Calvin the
node of the warehouse does not get to the end. -/
theorem not_agree_paymentAt :
    (∃ s ∈ (plainMachine twoNodes 0 paymentAt.query fun _ => unset).run
        (List.replicate 6 (.runTxnState .RCOK) ++ [.endRun]),
      s.pos = .done ∧ (s.data 0).row (warehouseRow paymentAt.query) W_YTD = 5) ∧
    runCalvinTxn twoNodes (fun _ => false) paymentAt.query (fun _ => unset) 0 = none ∧
    ¬ ∃ d d', Commits twoNodes 0 paymentAt.query (fun _ => unset) d ∧
      CalvinCommits twoNodes (fun _ => false) paymentAt.query (fun _ => unset) d' ∧
      Agree twoNodes d d' := by
  refine ⟨by decide +kernel, by decide +kernel, ?_⟩
  rintro ⟨d, d', -, hcalvin, -⟩
  have hzero := hcalvin 0 (by decide)
  simp [runCalvinTxn, show calvinAccesses twoNodes paymentAt.query 0 = true by decide] at hzero

end Tpcc

end Deneva
