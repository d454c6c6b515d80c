import Deneva.RowTs

/-!
# A database under timestamp ordering

Each row has a `Row_ts` of its own, and a transaction brings the same timestamp to all of them. The
rows are in any states they can reach, so in those of every interleaving of their accesses.

* `serially` is what a row holds when transactions use it one after another, each with the write it
  made.
* `SerialReads`: in the order of the timestamps every transaction would have read what it did read.
-/

namespace Deneva

universe u v w x

open Function List Option

variable {R : Type w} {T : Type u} {V : Type v} {M : Type x} [DecidableEq T]

namespace TimestampRow

/-- What a transaction has written to the row. -/
def written (log : List (Event T V)) (t : T) : Option V :=
  log.findSome? fun
    | .write u v => if u = t then some v else none
    | .read _ _ => none

def serially (log : List (Event T V)) (v₀ : V) (order : List T) : V :=
  order.foldl (fun v t => (written log t).getD v) v₀

/-- All writers, by their timestamps. -/
structure SerialOrder (ts : T → ℕ) (s : R → State T V M) (order : List T) : Prop where
  sorted : order.Pairwise (ts · < ts ·)
  writers : ∀ r t v, .write t v ∈ (s r).log → t ∈ order

def SerialReads (ts : T → ℕ) (v₀ : R → V) (s : R → State T V M) : Prop :=
  ∀ before t after, SerialOrder ts s (before ++ t :: after) →
    ∀ r v, .read t v ∈ (s r).log → serially (s r).log (v₀ r) before = v

/-- A transaction writes the row once. -/
def WritesOnce (log : List (Event T V)) : Prop :=
  ∀ t v v', .write t v ∈ log → .write t v' ∈ log → v = v'

variable {log : List (Event T V)} {v₀ v : V} {t : T} {ts : T → ℕ}

theorem written_eq_none : written log t = none ↔ ∀ v, .write t v ∉ log := by
  rw [written, findSome?_eq_none_iff]
  refine ⟨fun h v hv => by simpa using h _ hv, fun h e he => ?_⟩
  cases e with
  | read _ _ => rfl
  | write u x =>
    refine if_neg ?_
    rintro rfl
    exact h x he

theorem written_of_mem (honce : WritesOnce log) (h : .write t v ∈ log) :
    written log t = some v := by
  cases hx : written log t with
  | none => exact absurd h (written_eq_none.mp hx v)
  | some x =>
    obtain ⟨e, he, hv⟩ := exists_of_findSome?_eq_some hx
    cases e with
    | read _ _ => cases hv
    | write u y =>
      obtain ⟨rfl, rfl⟩ : u = t ∧ y = x := by simpa using hv
      rw [honce u y v he h]

/-- **The newest version is what a serial execution leaves**, once all earlier writers have run. -/
theorem serially_eq_of_newest {b w : ℕ} {order : List T} (honce : WritesOnce log)
    (hnew : Newest (writes ts log) v₀ b w v) (hsorted : order.Pairwise (ts · < ts ·))
    (hbelow : ∀ t ∈ order, ts t < b) (hall : ∀ t v, .write t v ∈ log → ts t < b → t ∈ order) :
    serially log v₀ order = v := by
  have hskip : ∀ (l : List T) (x : V), (∀ t ∈ l, ∀ y, .write t y ∉ log) → serially log x l = x := by
    intro l x hl
    induction l with
    | nil => rfl
    | cons t l ih =>
      rw [serially, foldl_cons, written_eq_none.mpr (hl t mem_cons_self)]
      exact ih fun u hu => hl u (mem_cons_of_mem t hu)
  rcases hnew with ⟨-, rfl, hno⟩ | ⟨hmem, hlt, hmax⟩
  · exact hskip order v fun t ht y hy =>
      (hno (_, y) (mem_writes.mpr ⟨t, hy, rfl⟩)).not_gt (hbelow t ht)
  · obtain ⟨u, hu, rfl⟩ := mem_writes.mp hmem
    obtain ⟨before, after, rfl⟩ := append_of_mem (hall u v hu hlt)
    rw [serially, foldl_append, foldl_cons, written_of_mem honce hu]
    -- who comes after has not written the row, or that would be the newest version
    refine hskip after v fun t ht y hy => ?_
    have hle := hmax (_, y) (mem_writes.mpr ⟨t, hy, rfl⟩) (hbelow t (by simp [ht]))
    exact hle.not_gt ((pairwise_cons.mp (pairwise_append.mp hsorted).2.1).1 t ht)

/-- **From the rows to the database.** -/
theorem serialReads_of_newest {v₀ : R → V} {s : R → State T V M} (honce : ∀ r, WritesOnce (s r).log)
    (hnew : ∀ r t v, .read t v ∈ (s r).log → ∃ w, Newest (writes ts (s r).log) (v₀ r) (ts t) w v) :
    SerialReads ts v₀ s := by
  intro before t after ho r v hread
  obtain ⟨w, hw⟩ := hnew r t v hread
  obtain ⟨hbefore, hafter, hlt⟩ := pairwise_append.mp ho.sorted
  have hbelow : ∀ u ∈ before, ts u < ts t := fun u hu => hlt u hu t mem_cons_self
  refine serially_eq_of_newest (honce r) hw hbefore hbelow fun u x hu hlow => ?_
  rcases mem_append.mp (ho.writers r u x hu) with hmem | hmem
  · exact hmem
  · rcases mem_cons.mp hmem with rfl | hmem
    · exact absurd hlow (lt_irrefl _)
    · exact absurd hlow ((pairwise_cons.mp hafter).1 u hmem).not_gt

end TimestampRow

open TimestampRow

namespace RowTs

theorem writesOnce_effect {ts : Timestamps T} {v₀ : V} {s s' : State T V (Man T V)} {t : T}
    (hinv : Inv ts.get v₀ s) (h : WritesOnce s.log) (heff : Effect ts.get s t s') :
    WritesOnce s'.log := by
  have hreads : ∀ row (reqs : List (TsReqEntry T V)) {log}, WritesOnce log →
      WritesOnce ((readEvents row reqs).reverse ++ log) := by
    intro row reqs log h u x y hx hy
    simp only [mem_append, mem_reverse, mem_readEvents, reduceCtorEq, and_false, exists_false,
      false_or] at hx hy
    exact h u x y hx hy
  cases heff with
  | grant => exact hreads _ [⟨t, none, 0⟩] h
  | withdraw => exact hreads _ _ h
  | write owns v =>
    -- a transaction that has written is finished, and owns nothing
    have hnew : ∀ x, .write t x ∉ s.log := fun x hx => by
      rw [hinv.writers t x hx] at owns
      exact owns
    refine hreads _ _ fun u x y hx hy => ?_
    rcases mem_cons.mp hx with hx | hx <;> rcases mem_cons.mp hy with hy | hy
    · cases hx
      cases hy
      rfl
    · cases hx
      exact absurd hy (hnew y)
    · cases hy
      exact absurd hx (hnew x)
    · exact h u x y hx hy
  | _ => exact h

/-- **`TIMESTAMP` is serializable in the order of the timestamps.** Whatever transactions read, they
read it in the serial execution, and what the rows hold is what it leaves: over any number of rows,
each in any state that an interleaving of its accesses leads to. -/
theorem timestamp_serializable (ts : Timestamps T) (v₀ : R → V) {s : R → State T V (Man T V)}
    (hs : ∀ r, (machine (manager ts.get (v₀ r))).Reachable (s r)) :
    SerialReads ts.get v₀ s ∧ ∀ order, SerialOrder ts.get s order →
      ∀ r, serially (s r).log (v₀ r) order = (s r).man.row := by
  have hinv : ∀ r, Inv ts.get (v₀ r) (s r) ∧ WritesOnce (s r).log := fun r => by
    refine (hs r).invariant (P := fun s => Inv ts.get (v₀ r) s ∧ WritesOnce s.log)
      ⟨inv_init _ _, fun t v v' h => absurd h not_mem_nil⟩ fun s a s' h hs => ?_
    obtain ⟨t, heff⟩ := effect_of_step h.1.toQueueInv hs
    exact ⟨h.1.effect heff, writesOnce_effect h.1 h.2 heff⟩
  refine ⟨serialReads_of_newest (fun r => (hinv r).2) fun r t v hread => ?_, fun order ho r => ?_⟩
  · obtain ⟨later, earlier, hlog⟩ := append_of_mem hread
    obtain ⟨⟨w, hnew⟩, hle⟩ := (hlog ▸ (hinv r).1.sound).split
    rw [hlog, writes_append]
    -- later writes are above the read
    rcases hnew with ⟨hw, hv, hno⟩ | ⟨hmem, hlt, hmax⟩
    · exact ⟨w, .inl ⟨hw, hv, fun p hp => (mem_append.mp hp).elim (hle p) (hno p)⟩⟩
    · refine ⟨w, .inr ⟨mem_append_right _ hmem, hlt, fun p hp hr => ?_⟩⟩
      exact (mem_append.mp hp).elim (fun hp => absurd hr (hle p hp).not_gt) (hmax p · hr)
  · refine serially_eq_of_newest (hinv r).2 (hinv r).1.newest ho.sorted ?_ fun t v ht _ =>
      ho.writers r t v ht
    exact fun t _ => Nat.lt_succ_of_le (ts.le_max t)

theorem timestamp_serializable_waitingRead :
    ∃ s, (machine (manager (numbered 4 (by decide)).get 5)).run waitingRead = some s ∧
      SerialReads (numbered 4 (by decide)).get (fun _ : Bool => 5) (fun _ => s) := by
  obtain ⟨s, hs⟩ : ∃ s, (machine (manager (numbered 4 (by decide)).get 5)).run waitingRead =
      some s :=
    ⟨_, rfl⟩
  exact ⟨s, hs, (timestamp_serializable _ _ fun _ => .of_run hs).1⟩

end RowTs

end Deneva
