import Deneva.RowOcc

/-!
# The order in which rows are latched (`concurrency_control/occ.cpp`)

`OptCC::per_row_validate` sorts the accesses of a transaction by table and primary key, and then
latches and validates the rows in that order.

* `sortAccesses_spec`: the sort of `RowOcc` gives a permutation in order, unless there are no
  accesses.
* `perRowValidate` is the function; it latches the rows in order, up to the first that fails
  (`latchLoop_spec`).
* `Waits` is who waits for a latch that another one has who waits too. Since latches are taken in
  one order, nobody waits in a circle (`reachable_ordered`, `waits_acyclic`).
-/

namespace Deneva

universe u v w

open List Option

namespace RowOcc

open Occ (Access)

/-! ## Sorting -/

section Sorting

variable {R : Type v} {O : Type w} [LinearOrder O] (k : R → O)

/-- `row` comes after `row'`. -/
def comesAfter (row row' : R) : Bool := decide (k row' < k row)

variable {k}

/-- One pass brings a last access to the end. -/
theorem bubble_spec {i : ℕ} {front : List (Access R)} (hfront : front.length = i + 1)
    (back : List (Access R)) :
    ∃ front' a, bubble (comesAfter k) i (front ++ back) = some (front' ++ a :: back) ∧
      front'.length = i ∧
      (front' ++ [a]).Perm front ∧ ∀ b ∈ front', k b.row ≤ k a.row := by
  induction i generalizing front with
  | zero =>
    obtain ⟨a, rfl⟩ := List.length_eq_one_iff.mp hfront
    exact ⟨[], a, rfl, rfl, .refl _, nofun⟩
  | succ i ih =>
    obtain ⟨a, b, rest, rfl⟩ : ∃ a b rest, front = a :: b :: rest := by
      match front, hfront with
      | a :: b :: rest, _ => exact ⟨a, b, rest, rfl⟩
    simp only [length_cons, Nat.add_right_cancel_iff] at hfront
    rw [cons_append, cons_append, bubble]
    split
    next hafter =>
      have hlen : (a :: rest).length = i + 1 := congrArg (· + 1) hfront
      obtain ⟨front', m, heq, hlen, hperm, hmax⟩ := ih hlen
      have ham : k a.row ≤ k m.row := by
        rcases mem_append.mp (hperm.mem_iff.mpr mem_cons_self) with ha | ha
        · exact hmax a ha
        · exact (mem_singleton.mp ha) ▸ le_rfl
      refine ⟨b :: front', m, congrArg (Option.map (b :: ·)) heq, congrArg (· + 1) hlen, ?_, ?_⟩
      · exact (hperm.cons b).trans (.swap a b rest)
      · exact forall_mem_cons.mpr ⟨(of_decide_eq_true hafter).le.trans ham, hmax⟩
    next hafter =>
      have hlen : (b :: rest).length = i + 1 := congrArg (· + 1) hfront
      obtain ⟨front', m, heq, hlen, hperm, hmax⟩ := ih hlen
      have hbm : k b.row ≤ k m.row := by
        rcases mem_append.mp (hperm.mem_iff.mpr mem_cons_self) with hb | hb
        · exact hmax b hb
        · exact (mem_singleton.mp hb) ▸ le_rfl
      have hab : k a.row ≤ k b.row := not_lt.mp fun hlt => hafter (decide_eq_true hlt)
      refine ⟨a :: front', m, congrArg (Option.map (a :: ·)) heq, congrArg (· + 1) hlen,
        hperm.cons a, ?_⟩
      exact forall_mem_cons.mpr ⟨hab.trans hbm, hmax⟩

/-- The passes sort what is in front of accesses that are in their places. -/
theorem sortFrom_spec {i : ℕ} {front back : List (Access R)} (hfront : front.length = i + 1)
    (hback : back.Pairwise fun a b => k a.row ≤ k b.row)
    (hle : ∀ a ∈ front, ∀ b ∈ back, k a.row ≤ k b.row) :
    ∃ sorted, sortFrom (comesAfter k) i (front ++ back) = some sorted ∧
      sorted.Perm (front ++ back) ∧
      sorted.Pairwise fun a b => k a.row ≤ k b.row := by
  induction i generalizing front back with
  | zero =>
    obtain ⟨a, rfl⟩ := List.length_eq_one_iff.mp hfront
    exact ⟨_, rfl, .refl _, .cons (hle a mem_cons_self) hback⟩
  | succ i ih =>
    obtain ⟨front', a, heq, hlen, hperm, hmax⟩ := bubble_spec (k := k) hfront back
    have hmem : ∀ b ∈ front' ++ [a], b ∈ front := fun b hb => hperm.mem_iff.mp hb
    have ha : ∀ b ∈ back, k a.row ≤ k b.row := hle a (hmem a (by simp))
    obtain ⟨sorted, heq', hperm', hsorted⟩ := ih hlen (.cons ha hback) (by
      intro b hb
      refine forall_mem_cons.mpr ⟨hmax b hb, hle b (hmem b (mem_append_left _ hb))⟩)
    refine ⟨sorted, ?_, hperm'.trans ?_, hsorted⟩
    · rw [sortFrom, heq, bind_some, heq']
    · rw [append_cons]
      exact hperm.append_right back

/-- **The accesses are sorted.** -/
theorem sortAccesses_spec {accesses : List (Access R)} (hne : accesses ≠ []) :
    ∃ sorted, sortAccesses (comesAfter k) accesses = some sorted ∧ sorted.Perm accesses ∧
      sorted.Pairwise fun a b => k a.row ≤ k b.row := by
  have hlen : accesses.length = accesses.length - 1 + 1 :=
    (Nat.sub_add_cancel (length_pos_iff.mpr hne)).symm
  have hspec := sortFrom_spec (k := k) hlen .nil nofun
  rw [append_nil] at hspec
  rwa [sortAccesses, lastIndex, if_neg (by simpa using hne)]

end Sorting

/-! ## `per_row_validate` -/

section Validation

variable {R : Type v}

/-- The order of two rows: by the names of their tables, and then by their primary keys. -/
def outOfOrder (tableName : R → String) (primaryKey : R → ℕ) (row row' : R) : Bool :=
  decide (tableName row' < tableName row) ||
    decide (tableName row = tableName row' ∧ primaryKey row' < primaryKey row)

/-- The table and the primary key, compared in this order. -/
def rowKey (tableName : R → String) (primaryKey : R → ℕ) (row : R) : String ×ₗ ℕ :=
  toLex (tableName row, primaryKey row)

/-- The loop that latches and validates; `valid` is what `Row_occ::validate` says of a row that has
been latched. It gives the rows it latched, in order. -/
def latchLoop (valid : R → Bool) : List (Access R) → List R × RC
  | [] => ([], .RCOK)
  | a :: rest =>
    if valid a.row then
      let (latched, rc) := latchLoop valid rest
      (a.row :: latched, rc)
    else ([a.row], .Abort)

/-- `per_row_validate`: the accesses as it leaves them, the rows it latches in order, and its
result. It has no result where it reads outside the accesses. -/
def perRowValidate (tableName : R → String) (primaryKey : R → ℕ) (valid : R → Bool)
    (accesses : List (Access R)) : Option (List (Access R) × List R × RC) :=
  (sortAccesses (outOfOrder tableName primaryKey) accesses).map fun sorted =>
    (sorted, latchLoop valid sorted)

/-- **What `per_row_validate` is to do**: it leaves the accesses in order, latches rows in that
order, all of them if they are valid, and otherwise up to the first that is not. -/
def ValidatesInOrder (tableName : R → String) (primaryKey : R → ℕ) (valid : R → Bool)
    (accesses : List (Access R)) : Prop :=
  ∃ sorted latched rc, perRowValidate tableName primaryKey valid accesses =
    some (sorted, latched, rc) ∧ sorted.Perm accesses ∧
    sorted.Pairwise
    (fun a b => rowKey tableName primaryKey a.row < rowKey tableName primaryKey b.row) ∧
    ((rc = .RCOK ∧ latched = sorted.map (·.row) ∧ ∀ row ∈ latched, valid row) ∨
      (rc = .Abort ∧ ∃ front a rest, sorted = front ++ a :: rest ∧
        latched = (front ++ [a]).map (·.row) ∧ (∀ b ∈ front, valid b.row) ∧ valid a.row = false))

variable {tableName : R → String} {primaryKey : R → ℕ} {valid : R → Bool}

theorem outOfOrder_eq :
    outOfOrder tableName primaryKey = comesAfter (rowKey tableName primaryKey) := by
  funext row row'
  rw [outOfOrder, comesAfter, ← Bool.decide_or]
  refine decide_eq_decide.mpr ?_
  rw [rowKey, rowKey, Prod.Lex.toLex_lt_toLex]
  refine or_congr_right (and_congr_left' eq_comm)

/-- The rows are latched in order, up to the first that is not valid. -/
theorem latchLoop_spec (accesses : List (Access R)) :
    ((latchLoop valid accesses).2 = .RCOK ∧ (latchLoop valid accesses).1 = accesses.map (·.row) ∧
        ∀ row ∈ (latchLoop valid accesses).1, valid row) ∨
      ((latchLoop valid accesses).2 = .Abort ∧ ∃ front a rest, accesses = front ++ a :: rest ∧
        (latchLoop valid accesses).1 = (front ++ [a]).map (·.row) ∧ (∀ b ∈ front, valid b.row) ∧
        valid a.row = false) := by
  induction accesses with
  | nil => exact .inl ⟨rfl, rfl, nofun⟩
  | cons a rest ih =>
    rw [latchLoop]
    split
    next hvalid =>
      rcases ih with ⟨hrc, hall, hok⟩ | ⟨hrc, front, b, rest', rfl, hlatched, hok, hbad⟩
      · exact .inl ⟨hrc, congrArg (a.row :: ·) hall, forall_mem_cons.mpr ⟨hvalid, hok⟩⟩
      · exact .inr ⟨hrc, a :: front, b, rest', rfl, congrArg (a.row :: ·) hlatched,
          forall_mem_cons.mpr ⟨hvalid, hok⟩, hbad⟩
    next hvalid =>
      exact .inr ⟨rfl, [], a, rest, rfl, rfl, nofun, Bool.eq_false_iff.mpr hvalid⟩

/-- **Validation does that exactly if there are accesses.** -/
theorem validatesInOrder_iff {accesses : List (Access R)}
    (hdistinct : (accesses.map fun a => rowKey tableName primaryKey a.row).Nodup) :
    ValidatesInOrder tableName primaryKey valid accesses ↔ accesses ≠ [] := by
  constructor
  · rintro ⟨sorted, latched, rc, heq, -⟩ rfl
    rw [perRowValidate, sortAccesses_nil] at heq
    cases heq
  · intro hne
    obtain ⟨sorted, heq, hperm, hsorted⟩ :=
      sortAccesses_spec (k := rowKey tableName primaryKey) hne
    refine ⟨sorted, _, _, ?_, hperm, ?_, latchLoop_spec sorted⟩
    · rw [perRowValidate, outOfOrder_eq, heq, map_some]
    · have hnodup := pairwise_map.mp ((hperm.map _).nodup_iff.mpr hdistinct)
      exact (hsorted.and hnodup).imp fun h => lt_of_le_of_ne h.1 h.2

end Validation

/-! ## Latches of concurrent calls -/

section Latches

variable {T : Type u} {R : Type v} {O : Type w} [LinearOrder O] {k : R → O}

/-- The rows whose latches a transaction may have. -/
def Phase.latches : Phase R → List R
  | .accessing _ _ row _ => [row]
  | .validating _ done _ | .failed done _ | .valid done _ | .cleaning _ _ done => done.map (·.row)
  | .latched _ done a _ => (done ++ [a]).map (·.row)
  | _ => []

/-- The row whose latch a transaction is to get next. -/
def Phase.next : Phase R → Option R
  | .validating _ _ (a :: _) => some a.row
  | _ => none

/-- `t` is to get a latch that `t'` has. -/
def Waits (s : State T R) (t t' : T) : Prop := ∃ row ∈ (s.phase t).next, row ∈ (s.phase t').latches

/-- What is left to be latched comes after what has been. -/
def Phase.Ordered (k : R → O) : Phase R → Prop
  | .validating _ done rest => (done ++ rest).Pairwise fun a b => k a.row < k b.row
  | .latched _ done a rest => (done ++ a :: rest).Pairwise fun a b => k a.row < k b.row
  | _ => True

/-- Whoever is validated has accessed rows with different keys. -/
def DistinctRows (k : R → O) (s : State T R) : Action T R → Prop
  | .perRowValidate t => ∀ startTs accesses, s.phase t = .running startTs accesses →
      (accesses.map fun a => k a.row).Nodup
  | _ => True

variable {s : State T R}

/-- Whom one waits for is to latch a later row, or none. -/
theorem Waits.lt (h : ∀ t, (s.phase t).Ordered k) {t t' : T} (hwaits : Waits s t t') :
    ((s.phase t).next.map k).elim ⊤ WithTop.some <
      ((s.phase t').next.map k).elim ⊤ WithTop.some := by
  obtain ⟨row, hnext, hlatch⟩ := hwaits
  rw [Option.mem_def.mp hnext]
  have hordered := h t'
  unfold Phase.next
  split
  next done b rest hp =>
    rw [hp] at hlatch hordered
    obtain ⟨a, ha, rfl⟩ := List.mem_map.mp hlatch
    exact WithTop.coe_lt_coe.mpr ((pairwise_append.mp hordered).2.2 a ha b mem_cons_self)
  · exact WithTop.coe_lt_top _

variable [DecidableEq T] [DecidableEq R] {perRow : Bool}

omit [DecidableEq R] in
theorem ordered_setPhase {s' : State T R} {t : T} {p : Phase R} (h : ∀ t, (s.phase t).Ordered k)
    (hphase : s'.phase = s.phase) (hp : p.Ordered k) :
    ∀ u, ((s'.setPhase t p).phase u).Ordered k := by
  refine (Function.forall_update_iff s'.phase fun _ q => q.Ordered k).mpr ⟨hp, fun u _ => ?_⟩
  rw [hphase]
  exact h u

omit [DecidableEq T] [DecidableEq R] in
theorem cleanupPhase_ordered (rc : RC) (endTs : ℕ) (accesses : List (Access R)) :
    (cleanupPhase rc endTs accesses).Ordered k := by
  rw [cleanupPhase]
  split <;> trivial

/-- A step keeps the order. -/
theorem ordered_step {s' : State T R} {a : Action T R} (h : ∀ t, (s.phase t).Ordered k)
    (hok : DistinctRows k s a) (hs : (machine T perRow (comesAfter k)).step s a = some s') :
    ∀ t, (s'.phase t).Ordered k := by
  cases a with (simp only [machine] at hs; split at hs <;> try cases hs)
  | start t startTs =>
    exact ordered_setPhase h rfl trivial
  | accessWait t row type =>
    obtain ⟨s₁, hs₁, rfl⟩ := map_eq_some_iff.mp hs
    exact ordered_setPhase h (phase_semWait hs₁) trivial
  | accessPost t | centralValidate t ok =>
    refine ordered_setPhase h rfl ?_
    split <;> trivial
  | perRowValidate t =>
    next startTs accesses hp =>
    obtain ⟨sorted, hsorted, rfl⟩ := map_eq_some_iff.mp hs
    have hne : accesses ≠ [] := by
      rintro rfl
      cases (sortAccesses_nil _).symm.trans hsorted
    obtain ⟨sorted', hsorted', hperm, hle⟩ := sortAccesses_spec (k := k) hne
    obtain rfl : sorted = sorted' := some.inj (hsorted.symm.trans hsorted')
    have hnodup := pairwise_map.mp ((hperm.map _).nodup_iff.mpr (hok startTs accesses hp))
    refine ordered_setPhase h rfl ?_
    exact (hle.and hnodup).imp fun h => lt_of_le_of_ne h.1 h.2
  | latch t =>
    next startTs done a rest hp =>
    obtain ⟨s₁, hs₁, rfl⟩ := map_eq_some_iff.mp hs
    have hordered := h t
    rw [hp] at hordered
    exact ordered_setPhase h (phase_semWait hs₁) hordered
  | validate t =>
    next startTs done a rest hp =>
    have hordered := h t
    rw [hp, Phase.Ordered, append_cons] at hordered
    refine ordered_setPhase h rfl ?_
    split_ifs
    · trivial
    · trivial
    · exact hordered
  | cleanup t rc endTs =>
    exact ordered_setPhase h rfl (cleanupPhase_ordered rc endTs _)
  | returnRow t =>
    next rc endTs a rest hp =>
    obtain ⟨s₁, hs₁, rfl⟩ := map_eq_some_iff.mp hs
    have hphase : (s₁.semPost t a.row).phase = s.phase := (write_frame hs₁).2.2
    exact ordered_setPhase h hphase (cleanupPhase_ordered rc endTs rest)

/-- **Nobody waits in a circle** for latches. -/
theorem waits_acyclic (hs : (machine T perRow (comesAfter k)).ReachableVia (DistinctRows k) s)
    (t : T) : ¬Relation.TransGen (Waits s) t t := by
  have h : ∀ t, (s.phase t).Ordered k :=
    Machine.ReachableVia.invariant (fun _ => trivial)
      (fun s a s' _ h hok hs => ordered_step h hok hs) hs
  exact acyclic_of_strictMono (fun t => ((s.phase t).next.map k).elim ⊤ WithTop.some)
    (fun hwaits => hwaits.lt h) t

end Latches

/-- **Rows are latched in one order, exactly if there are accesses.** The sort puts them in order of
table and key, and over the interleavings of validations that are all of different rows, nobody
waits in a circle. Without accesses the sort reads outside the list. -/
theorem perRowValidate_iff (T : Type u) {R : Type v} [DecidableEq T] [DecidableEq R]
    (tableName : R → String) (primaryKey : R → ℕ) :
    (∀ (valid : R → Bool) (accesses : List (Access R)),
      (accesses.map fun a => rowKey tableName primaryKey a.row).Nodup →
      (ValidatesInOrder tableName primaryKey valid accesses ↔ accesses ≠ [])) ∧ ∀ (perRow : Bool)
      (s : State T R), (machine T perRow (outOfOrder tableName primaryKey)).ReachableVia
      (DistinctRows (rowKey tableName primaryKey)) s → ∀ t, ¬Relation.TransGen (Waits s) t t := by
  refine ⟨fun valid accesses hdistinct => validatesInOrder_iff hdistinct, fun perRow s hs => ?_⟩
  rw [outOfOrder_eq] at hs
  exact waits_acyclic hs

/-- Without accesses, the sort reads outside the list. -/
theorem perRowValidate_empty :
    ¬ValidatesInOrder (fun _ : Unit => "MAIN_TABLE") (fun _ => 0) (fun _ => true) [] := by
  rintro ⟨sorted, latched, rc, heq, -⟩
  cases heq

end RowOcc

end Deneva
