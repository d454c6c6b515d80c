import Deneva.MaatCluster

/-!
# Who is at a row under MaaT

An invariant of the cluster of `MaatCluster` that is about the sets alone: a row knows
exactly the accesses that are not given back yet, and of a reader and a writer that are at
a row together the later one has seen the earlier one (`Registered.met`).

Only three steps change a set: `Registered.start`, `Registered.enter` and
`Registered.leave` say what becomes of the invariant there; everything else is
`Registered.setMan`.
-/

namespace Deneva

universe u

open Function List

namespace Maat

open State

variable {R : Type u} [DecidableEq R] {C : Cluster R} {s s' : State R}

/-! ## States -/

namespace State

variable {n n' t t' : ℕ} {m : Manager R} {p : Stage R} {tt : TimeTable} {r : R} {row : RowMaat}

omit [DecidableEq R]

@[simp]
theorem setMan_self : (s.setMan n t m).man n t = m := if_pos ⟨rfl, rfl⟩

theorem setMan_ne (h : ¬ (n' = n ∧ t' = t)) : (s.setMan n t m).man n' t' = s.man n' t' := if_neg h

@[simp]
theorem setMan_table : (s.setMan n t m).table = s.table := rfl

@[simp]
theorem setMan_row : (s.setMan n t m).row = s.row := rfl

@[simp]
theorem setStage_self : (s.setStage n t p).man n t = { s.man n t with stage := p } := setMan_self

theorem setStage_ne (h : ¬ (n' = n ∧ t' = t)) : (s.setStage n t p).man n' t' = s.man n' t' :=
  setMan_ne h

@[simp]
theorem setStage_table : (s.setStage n t p).table = s.table := rfl

@[simp]
theorem setTable_man : (s.setTable n tt).man = s.man := rfl

@[simp]
theorem setTable_self : (s.setTable n tt).table n = tt := update_self _ _ _

theorem setTable_ne (h : n' ≠ n) : (s.setTable n tt).table n' = s.table n' := update_of_ne h _ _

theorem setTable_eq_self : s.setTable n (s.table n) = s := by
  rw [setTable, update_eq_self]

/-- A transaction forgets whom it has seen. -/
def forget (s : State R) (n t : ℕ) : State R :=
  s.setMan n t { s.man n t with sets := (s.man n t).sets.clear }

/-- Who is done goes on, and forgets. -/
theorem finish_eq : s.finish n t p = (s.setStage n t p).forget n t := by
  have hman : ∀ n' t', (s.finish n t p).man n' t' = ((s.setStage n t p).forget n t).man n' t' := by
    intro n' t'
    rw [forget, finish, setStage_self]
    by_cases heq : n' = n ∧ t' = t
    · obtain ⟨rfl, rfl⟩ := heq
      rw [setMan_self, setMan_self]
    · rw [setMan_ne heq, setMan_ne heq, setStage_ne heq]
  exact congrArg (fun man => State.mk s.table man s.row) (funext fun n' => funext (hman n'))

/-- What holds of one manager after it changed, and of the others before. -/
theorem forall_setMan {P : ℕ → ℕ → Manager R → Prop} (h : ∀ n t, P n t (s.man n t)) (hm : P n t m) :
    ∀ n' t', P n' t' ((s.setMan n t m).man n' t') := by
  intro n' t'
  by_cases heq : n' = n ∧ t' = t
  · obtain ⟨rfl, rfl⟩ := heq
    rwa [setMan_self]
  · rw [setMan_ne heq]
    exact h n' t'

/-- What a change of a manager leaves as it was, it leaves so in all managers. -/
theorem setMan_congr {β : Type*} {f : Manager R → β} (h : f m = f (s.man n t)) (n' t' : ℕ) :
    f ((s.setMan n t m).man n' t') = f (s.man n' t') :=
  forall_setMan (P := fun n t m => f m = f (s.man n t)) (fun _ _ => rfl) h n' t'

/-- Only the sets of one manager change. -/
theorem forall_forget {P : ℕ → ℕ → Manager R → Prop} (h : ∀ n t, P n t (s.man n t))
    (hm : P n t { s.man n t with sets := (s.man n t).sets.clear }) (n' t' : ℕ) :
    P n' t' ((s.forget n t).man n' t') :=
  forall_setMan h hm n' t'

theorem forget_stage (s : State R) (n t n' t' : ℕ) :
    ((s.forget n t).man n' t').stage = (s.man n' t').stage :=
  forall_forget (P := fun n t m => m.stage = (s.man n t).stage) (fun _ _ => rfl) rfl n' t'

theorem forget_reads {x : ℕ} (hx : x ∈ ((s.forget n t).man n' t').sets.uncommittedReads) :
    x ∈ (s.man n' t').sets.uncommittedReads :=
  forall_forget (P := fun n t m => x ∈ m.sets.uncommittedReads →
    x ∈ (s.man n t).sets.uncommittedReads) (fun _ _ => id)
    (fun hx => absurd hx OrderedSet.not_mem_empty) n' t' hx

theorem forget_writes {x : ℕ} (hx : x ∈ ((s.forget n t).man n' t').sets.uncommittedWrites) :
    x ∈ (s.man n' t').sets.uncommittedWrites :=
  forall_forget (P := fun n t m => x ∈ m.sets.uncommittedWrites →
    x ∈ (s.man n t).sets.uncommittedWrites) (fun _ _ => id)
    (fun hx => absurd hx OrderedSet.not_mem_empty) n' t' hx

end State

variable {r : R} {row : RowMaat}

@[simp]
theorem State.setRow_man : (s.setRow r row).man = s.man := rfl

@[simp]
theorem State.setRow_self : (s.setRow r row).row r = row :=
  update_self _ _ _

theorem State.setRow_ne {r' : R} (h : r' ≠ r) : (s.setRow r row).row r' = s.row r' :=
  update_of_ne h _ _

theorem State.setRow_eq_self : s.setRow r (s.row r) = s := by
  rw [setRow, update_eq_self]

/-! ## Who is at a row -/

/-- The accesses that are registered and not given back, of all accesses that were copied. -/
def Stage.registered (accesses : List (Access R)) : Stage R → List (R × AccessT)
  | .idle | .committed _ | .aborted _ => []
  | .copying row type _ => (row, type) :: accesses.map fun a => (a.row, a.type)
  | .committing _ left | .aborting _ left => left.map fun a => (a.row, a.type)
  | .running | .preparing _ _ | .validated | .refused | .prepared _ _ =>
    accesses.map fun a => (a.row, a.type)

/-- The accesses of a transaction that are registered and not given back. -/
def Manager.registered (m : Manager R) : List (R × AccessT) := m.stage.registered m.accesses

/-- A transaction is among those that another one has seen. -/
def Sets.Saw (m : Sets) (x : ℕ) : Prop := x ∈ m.uncommittedReads ∨ x ∈ m.uncommittedWrites

/-- Who has not been on a node has seen nobody there. -/
def Manager.Fresh (m : Manager R) : Prop :=
  m.stage = .idle → m.accesses = [] ∧ ∀ x, ¬ m.sets.Saw x

/-- The rows and the managers agree on who is where, and who has seen whom. -/
structure Registered (C : Cluster R) (s : State R) : Prop where
  /-- the readers of a row -/
  reads : ∀ r t, t ∈ (s.row r).uncommittedReads ↔ (r, .RD) ∈ (s.man (C.loc r) t).registered
  /-- the writers of a row -/
  writes : ∀ r t, t ∈ (s.row r).uncommittedWrites ↔ (r, .WR) ∈ (s.man (C.loc r) t).registered
  /-- rows are accessed on their node -/
  here : ∀ n t, ∀ p ∈ (s.man n t).registered, C.loc p.1 = n
  /-- and once -/
  distinct : ∀ n t, ((s.man n t).registered.map Prod.fst).Nodup
  /-- nobody has seen anybody before it came -/
  fresh : ∀ n t, (s.man n t).Fresh
  /-- who is seen has been there, and is somebody else -/
  seen : ∀ n t x, (s.man n t).sets.Saw x → x ≠ t ∧ (s.man n x).stage ≠ .idle
  /-- of two that meet at a row one has seen the other -/
  met : ∀ r x y, x ∈ (s.row r).uncommittedReads → y ∈ (s.row r).uncommittedWrites →
    x ∈ (s.man (C.loc r) y).sets.uncommittedReads ∨ y ∈ (s.man (C.loc r) x).sets.uncommittedWrites
  /-- there are only so many nodes -/
  nodes : ∀ n t, (s.man n t).stage ≠ .idle → n < C.nodeCnt

theorem Sets.not_saw_empty {x gwt grt : ℕ} : ¬ Sets.Saw ⟨∅, ∅, ∅, gwt, grt⟩ x :=
  not_or.mpr ⟨OrderedSet.not_mem_empty, OrderedSet.not_mem_empty⟩

theorem registered_init : Registered C (machine C).init where
  reads _ _ := iff_of_false OrderedSet.not_mem_empty not_mem_nil
  writes _ _ := iff_of_false OrderedSet.not_mem_empty not_mem_nil
  here _ _ _ hp := absurd hp not_mem_nil
  distinct _ _ := nodup_nil
  fresh _ _ _ := ⟨rfl, fun _ => Sets.not_saw_empty⟩
  seen _ _ _ hx := absurd hx Sets.not_saw_empty
  met _ _ _ hx := absurd hx OrderedSet.not_mem_empty
  nodes _ _ h := absurd rfl h

omit [DecidableEq R] in
theorem Manager.ne_idle {m : Manager R} {p : R × AccessT} (hp : p ∈ m.registered) :
    m.stage ≠ .idle := by
  intro hidle
  rw [Manager.registered, hidle] at hp
  exact not_mem_nil hp

/-- What entering a row does to the row and to the transaction. -/
structure Enters (type : AccessT) (t : ℕ) (row row' : RowMaat) (m m' : Sets) : Prop where
  /-- the readers of the row -/
  reads : ∀ x, x ∈ row'.uncommittedReads ↔ type = .RD ∧ x = t ∨ x ∈ row.uncommittedReads
  /-- the writers of the row -/
  writes : ∀ x, x ∈ row'.uncommittedWrites ↔ type = .WR ∧ x = t ∨ x ∈ row.uncommittedWrites
  /-- a writer has seen the readers -/
  seenReads : ∀ x, x ∈ m'.uncommittedReads ↔
    x ∈ m.uncommittedReads ∨ type = .WR ∧ x ∈ row.uncommittedReads
  /-- a reader has seen the writers -/
  seenWrites : ∀ x, x ∈ m'.uncommittedWrites ↔
    x ∈ m.uncommittedWrites ∨ type = .RD ∧ x ∈ row.uncommittedWrites
  /-- the timestamps of the row stay -/
  last : row'.timestampLastRead = row.timestampLastRead ∧
    row'.timestampLastWrite = row.timestampLastWrite
  /-- both have seen the last write -/
  greatestWrite : m'.greatestWriteTimestamp = max m.greatestWriteTimestamp row.timestampLastWrite
  /-- and a writer the last read -/
  greatestRead : m'.greatestReadTimestamp =
    if type = .WR then max m.greatestReadTimestamp row.timestampLastRead
    else m.greatestReadTimestamp

variable {type : AccessT}

/-- The rows after somebody entered one of them. -/
theorem Enters.setRow {t : ℕ} {m m' : Sets} (h : Enters type t (s.row r) row m m') (r' : R) :
    (∀ x, x ∈ ((s.setRow r row).row r').uncommittedReads ↔ x ∈ (s.row r').uncommittedReads ∨
      r' = r ∧ type = .RD ∧ x = t) ∧
    ∀ x, x ∈ ((s.setRow r row).row r').uncommittedWrites ↔ x ∈ (s.row r').uncommittedWrites ∨
      r' = r ∧ type = .WR ∧ x = t := by
  rcases eq_or_ne r' r with rfl | hne
  · rw [setRow_self]
    exact ⟨fun x => (h.reads x).trans (by simp [or_comm]),
      fun x => (h.writes x).trans (by simp [or_comm])⟩
  · rw [setRow_ne hne]
    simp [hne]

theorem RowMaat.access_enters (htype : type = .RD ∨ type = .WR) (row : RowMaat) (t : ℕ) (m : Sets) :
    Enters type t row (row.access type t m).1 m (row.access type t m).2 := by
  have hmax : ∀ a b : ℕ, (if a < b then b else a) = max a b := fun a b => (max_def_lt a b).symm
  rcases htype with rfl | rfl
  · constructor <;> simp [RowMaat.access, RowMaat.read, hmax]
  · constructor <;> simp [RowMaat.access, RowMaat.prewrite, hmax]

/-- What leaving a row does to the sets. -/
structure Leaves (type : AccessT) (t : ℕ) (row row' : RowMaat) : Prop where
  /-- the readers of the row -/
  reads : ∀ x, x ∈ row'.uncommittedReads ↔ x ∈ row.uncommittedReads ∧ ¬ (type = .RD ∧ x = t)
  /-- the writers of the row -/
  writes : ∀ x, x ∈ row'.uncommittedWrites ↔ x ∈ row.uncommittedWrites ∧ ¬ (type = .WR ∧ x = t)

theorem RowMaat.abort_leaves (type : AccessT) (row : RowMaat) (t : ℕ) :
    Leaves type t row (row.abort type t) := by
  cases type <;> constructor <;> simp [RowMaat.abort, and_comm]

theorem RowMaat.commit_leaves (type : AccessT) (row : RowMaat) (t ts : ℕ) (m : Sets)
    (tt : TimeTable) : Leaves type t row (row.commit type t ts m tt).1 := by
  cases type <;> constructor <;>
    simp [RowMaat.commit, RowMaat.commitRead, RowMaat.commitWrite, and_comm]

namespace Registered

variable {n t : ℕ} {m : Manager R} {row : RowMaat}

variable {r : R}

section

variable (h : Registered C s)

include h

omit [DecidableEq R] in
/-- Nobody reads and writes a row. -/
theorem not_both (hread : t ∈ (s.row r).uncommittedReads) : t ∉ (s.row r).uncommittedWrites := by
  intro hwrite
  have hnodup := h.distinct (C.loc r) t
  have heq := inj_on_of_nodup_map hnodup ((h.reads r t).mp hread) ((h.writes r t).mp hwrite) rfl
  cases heq

omit [DecidableEq R] in
/-- The row that is given back next is one where the transaction is registered. -/
theorem next {a : Access R} {left : List (Access R)}
    (hst : (∃ lower, (s.man n t).stage = .committing lower (a :: left)) ∨
      ∃ bounds, (s.man n t).stage = .aborting bounds (a :: left)) :
    (a.row, a.type) ∈ (s.man n t).registered ∧ C.loc a.row = n := by
  have hreg : (a.row, a.type) ∈ (s.man n t).registered := by
    rw [Manager.registered]
    rcases hst with ⟨_, hst⟩ | ⟨_, hst⟩ <;> rw [hst] <;> exact mem_cons_self
  exact ⟨hreg, h.here n t _ hreg⟩

omit [DecidableEq R] in
/-- Time tables do not matter. -/
theorem setTable {tt : TimeTable} : Registered C (s.setTable n tt) :=
  ⟨h.reads, h.writes, h.here, h.distinct, h.fresh, h.seen, h.met, h.nodes⟩

omit [DecidableEq R] in
/-- Nobody comes to a row or leaves one. -/
theorem of_perm (hrow : s'.row = s.row)
    (hreg : ∀ n t, (s'.man n t).registered.Perm (s.man n t).registered)
    (hfresh : ∀ n t, (s'.man n t).Fresh)
    (hseen : ∀ n t x, (s'.man n t).sets.Saw x → x ≠ t ∧ (s'.man n x).stage ≠ .idle)
    (hmet : ∀ r x y, x ∈ (s.row r).uncommittedReads → y ∈ (s.row r).uncommittedWrites →
      x ∈ (s'.man (C.loc r) y).sets.uncommittedReads ∨
        y ∈ (s'.man (C.loc r) x).sets.uncommittedWrites)
    (hnodes : ∀ n t, (s'.man n t).stage ≠ .idle → n < C.nodeCnt) : Registered C s' where
  reads r t := by rw [hrow, (hreg _ _).mem_iff, h.reads]
  writes r t := by rw [hrow, (hreg _ _).mem_iff, h.writes]
  here n t p hp := h.here n t p ((hreg n t).mem_iff.mp hp)
  distinct n t := ((hreg n t).map Prod.fst).nodup_iff.mpr (h.distinct n t)
  fresh := hfresh
  seen := hseen
  met := hrow ▸ hmet
  nodes := hnodes

omit [DecidableEq R] in
/-- A transaction goes on and stays where it is. -/
theorem setMan {p : Stage R} (hst : (s.man n t).stage = p)
    (hperm : m.registered.Perm (p.registered (s.man n t).accesses))
    (hsets : m.sets = (s.man n t).sets) (hold : p ≠ .idle) (hnew : m.stage ≠ .idle) :
    Registered C (s.setMan n t m) := by
  subst hst
  have hsets' : ∀ n' t', ((s.setMan n t m).man n' t').sets = (s.man n' t').sets :=
    setMan_congr hsets
  have hidle : ∀ n' t', ((s.setMan n t m).man n' t').stage = .idle ↔ (s.man n' t').stage = .idle :=
    forall_setMan (P := fun n t m => m.stage = .idle ↔ (s.man n t).stage = .idle)
      (fun _ _ => Iff.rfl) (iff_of_false hnew hold)
  refine h.of_perm rfl (forall_setMan (P := fun n t m =>
      m.registered.Perm (s.man n t).registered) (fun _ _ => .refl _) hperm)
    (forall_setMan (P := fun _ _ m => m.Fresh) h.fresh fun hst => absurd hst hnew)
    (fun n' t' x hx => ?_) (fun r x y hx hy => ?_)
    fun n' t' hne => h.nodes n' t' ((hidle _ _).not.mp hne)
  · rw [hsets'] at hx
    exact (h.seen n' t' x hx).imp_right (hidle _ _).not.mpr
  · rw [hsets', hsets']
    exact h.met r x y hx hy

omit [DecidableEq R] in
/-- Who is not at any row may forget whom it has seen. -/
theorem forget (hne : (s.man n t).stage ≠ .idle) (hreg : (s.man n t).registered = []) :
    Registered C (s.forget n t) := by
  have hstage := s.forget_stage n t
  refine h.of_perm rfl (forall_forget (P := fun n t m => m.registered.Perm (s.man n t).registered)
      (fun _ _ => .refl _) (.refl _))
    (forall_forget (P := fun _ _ m => m.Fresh) h.fresh fun hst => absurd hst hne)
    (fun n' t' x hx => ?_) (fun r x y hx hy => ?_) fun n' t' => hstage n' t' ▸ h.nodes n' t'
  · rw [hstage]
    exact h.seen n' t' x (hx.imp forget_reads forget_writes)
  · -- the two at a row are others
    have hother : ∀ {x type}, (r, type) ∈ (s.man (C.loc r) x).registered →
        (s.forget n t).man (C.loc r) x = s.man (C.loc r) x := by
      intro x type hmem
      apply setMan_ne
      rintro ⟨rfl, rfl⟩
      rw [hreg] at hmem
      exact not_mem_nil hmem
    rw [hother ((h.writes r y).mp hy), hother ((h.reads r x).mp hx)]
    exact h.met r x y hx hy

omit [DecidableEq R] in
/-- A transaction arrives. -/
theorem start (hidle : (s.man n t).stage = .idle) (hn : n < C.nodeCnt) (gwt grt : ℕ) :
    Registered C
      (s.setMan n t { s.man n t with sets := ⟨∅, ∅, ∅, gwt, grt⟩, stage := .running }) := by
  obtain ⟨haccesses, hsaw⟩ := h.fresh n t hidle
  set m : Manager R := { s.man n t with sets := ⟨∅, ∅, ∅, gwt, grt⟩, stage := .running } with hm
  have hsets : ∀ n' t', (∀ x, x ∈ ((s.setMan n t m).man n' t').sets.uncommittedReads ↔
        x ∈ (s.man n' t').sets.uncommittedReads) ∧
      ∀ x, x ∈ ((s.setMan n t m).man n' t').sets.uncommittedWrites ↔
        x ∈ (s.man n' t').sets.uncommittedWrites :=
    forall_setMan (P := fun n t m => (∀ x, x ∈ m.sets.uncommittedReads ↔
          x ∈ (s.man n t).sets.uncommittedReads) ∧
        ∀ x, x ∈ m.sets.uncommittedWrites ↔ x ∈ (s.man n t).sets.uncommittedWrites)
      (fun _ _ => ⟨fun _ => Iff.rfl, fun _ => Iff.rfl⟩)
      ⟨fun x => iff_of_false OrderedSet.not_mem_empty fun hx => hsaw x (.inl hx),
        fun x => iff_of_false OrderedSet.not_mem_empty fun hx => hsaw x (.inr hx)⟩
  have hidle' : ∀ n' t', ((s.setMan n t m).man n' t').stage = .idle → (s.man n' t').stage = .idle :=
    forall_setMan (P := fun n t m => m.stage = .idle → (s.man n t).stage = .idle)
      (fun _ _ => id) nofun
  refine h.of_perm rfl (fun n' t' => ?_) (forall_setMan (P := fun _ _ m => m.Fresh) h.fresh nofun)
    (fun n' t' x hx => ?_)
    (fun r x y hx hy => (h.met r x y hx hy).imp ((hsets _ _).1 x).mpr ((hsets _ _).2 y).mpr)
    (forall_setMan (P := fun n _ m => m.stage ≠ .idle → n < C.nodeCnt) h.nodes fun _ => hn)
  · refine .of_eq (setMan_congr (f := Manager.registered) ?_ n' t')
    simp only [hm, Manager.registered, Stage.registered, hidle, haccesses, map_nil]
  · have hseen := h.seen n' t' x (hx.imp ((hsets n' t').1 x).mp ((hsets n' t').2 x).mp)
    exact hseen.imp_right fun hst hst' => hst (hidle' _ _ hst')

/-- A transaction enters a row. -/
theorem enter (hrun : (s.man (C.loc r) t).stage = .running)
    (hr : r ∉ (s.man (C.loc r) t).accesses.map Access.row)
    (henter : Enters type t (s.row r) row (s.man (C.loc r) t).sets m.sets)
    (hm : m.registered = (r, type) :: (s.man (C.loc r) t).registered) :
    Registered C ((s.setRow r row).setMan (C.loc r) t m) := by
  set s' := (s.setRow r row).setMan (C.loc r) t m with hs'
  have hself : s'.man (C.loc r) t = m := setMan_self
  have hnotin : ∀ type', (r, type') ∉ (s.man (C.loc r) t).registered := by
    intro type' hmem
    rw [Manager.registered, hrun] at hmem
    obtain ⟨a, ha, heq⟩ := List.mem_map.mp hmem
    exact hr (List.mem_map.mpr ⟨a, ha, (Prod.mk.inj heq).1⟩)
  have hreg : ∀ n' t' p, p ∈ (s'.man n' t').registered ↔
      (n' = C.loc r ∧ t' = t) ∧ p = (r, type) ∨ p ∈ (s.man n' t').registered := by
    intro n' t' p
    by_cases heq : n' = C.loc r ∧ t' = t
    · obtain ⟨rfl, rfl⟩ := heq
      rw [hself, hm, mem_cons]
      simp
    · rw [hs', setMan_ne heq]
      simp [heq]
  have hreads : ∀ n' t' x, x ∈ (s.man n' t').sets.uncommittedReads →
      x ∈ (s'.man n' t').sets.uncommittedReads :=
    forall_setMan (P := fun n t m => ∀ x, x ∈ (s.man n t).sets.uncommittedReads →
      x ∈ m.sets.uncommittedReads) (fun _ _ _ h => h) fun x hx => (henter.seenReads x).mpr (.inl hx)
  have hwrites : ∀ n' t' x, x ∈ (s.man n' t').sets.uncommittedWrites →
      x ∈ (s'.man n' t').sets.uncommittedWrites :=
    forall_setMan (P := fun n t m => ∀ x, x ∈ (s.man n t).sets.uncommittedWrites →
      x ∈ m.sets.uncommittedWrites) (fun _ _ _ h => h) fun x hx => (henter.seenWrites x).mpr
        (.inl hx)
  have hm' : m.stage ≠ .idle := Manager.ne_idle (hm ▸ mem_cons_self)
  have hidle : ∀ n' t', (s.man n' t').stage ≠ .idle → (s'.man n' t').stage ≠ .idle :=
    forall_setMan (P := fun n t m => (s.man n t).stage ≠ .idle → m.stage ≠ .idle)
      (fun _ _ h => h) fun _ => hm'
  have hrow := henter.setRow
  -- readers and writers alike
  have hat : ∀ {type' r' t'} {p q : Prop}, (q ↔ p ∨ r' = r ∧ type = type' ∧ t' = t) →
      (p ↔ (r', type') ∈ (s.man (C.loc r') t').registered) →
      (q ↔ (r', type') ∈ (s'.man (C.loc r') t').registered) := by
    intro type' r' t' p q hq hp
    rw [hq, hp, hreg, or_comm]
    refine or_congr_left ⟨?_, ?_⟩
    · rintro ⟨rfl, rfl, rfl⟩
      exact ⟨⟨rfl, rfl⟩, rfl⟩
    · rintro ⟨⟨-, rfl⟩, heq⟩
      cases heq
      exact ⟨rfl, rfl, rfl⟩
  refine ⟨fun r' t' => hat ((hrow r').1 t') (h.reads r' t'),
    fun r' t' => hat ((hrow r').2 t') (h.writes r' t'), fun n' t' p hp => ?_, ?_,
    forall_setMan (P := fun _ _ m => m.Fresh) h.fresh fun hst => absurd hst hm', ?_, ?_, ?_⟩
  · rcases (hreg n' t' p).mp hp with ⟨⟨rfl, rfl⟩, rfl⟩ | hp
    · rfl
    · exact h.here n' t' p hp
  · apply forall_setMan (P := fun _ _ m => (m.registered.map Prod.fst).Nodup) h.distinct
    rw [hm, map_cons, nodup_cons]
    refine ⟨fun hmem => ?_, h.distinct _ t⟩
    obtain ⟨p, hp, rfl⟩ := List.mem_map.mp hmem
    exact hnotin p.2 hp
  · have hseen : ∀ x, m.sets.Saw x → x ≠ t ∧ (s.man (C.loc r) x).stage ≠ .idle := by
      intro x hx
      have hold : (s.man (C.loc r) t).sets.Saw x ∨
          ∃ type', (r, type') ∈ (s.man (C.loc r) x).registered := by
        rcases hx with hx | hx
        · exact ((henter.seenReads x).mp hx).imp .inl fun hx => ⟨_, (h.reads r x).mp hx.2⟩
        · exact ((henter.seenWrites x).mp hx).imp .inr fun hx => ⟨_, (h.writes r x).mp hx.2⟩
      rcases hold with hx | ⟨type', hx⟩
      · exact h.seen _ t x hx
      · refine ⟨?_, Manager.ne_idle hx⟩
        rintro rfl
        exact hnotin _ hx
    have hall := forall_setMan
      (P := fun n t m => ∀ x, m.sets.Saw x → x ≠ t ∧ (s.man n x).stage ≠ .idle) h.seen hseen
    exact fun n' t' x hx => (hall n' t' x hx).imp_right (hidle n' x)
  · -- whoever comes second has seen the first
    intro r' x y hx hy
    rcases ((hrow r').1 x).mp hx with hx' | ⟨rfl, rfl, rfl⟩
    · rcases ((hrow r').2 y).mp hy with hy' | ⟨rfl, rfl, rfl⟩
      · exact (h.met r' x y hx' hy').imp (hreads _ _ _) (hwrites _ _ _)
      · exact .inl (hself ▸ (henter.seenReads x).mpr (.inr ⟨rfl, hx'⟩))
    · rcases ((hrow r').2 y).mp hy with hy' | ⟨-, htype, -⟩
      · exact .inr (hself ▸ (henter.seenWrites y).mpr (.inr ⟨rfl, hy'⟩))
      · cases htype
  · apply forall_setMan (P := fun n _ m => m.stage ≠ .idle → n < C.nodeCnt) h.nodes
    exact fun _ => h.nodes _ t (by rw [hrun]; nofun)

/-- A transaction leaves a row. -/
theorem leave {rest : List (R × AccessT)} (hreg : (s.man n t).registered = (r, type) :: rest)
    (hleave : Leaves type t (s.row r) row) (hm : m.registered = rest)
    (hsets : m.sets = (s.man n t).sets) (hst : m.stage ≠ .idle) :
    Registered C ((s.setRow r row).setMan n t m) := by
  have hmem : (r, type) ∈ (s.man n t).registered := hreg ▸ mem_cons_self
  obtain rfl : C.loc r = n := h.here n t _ hmem
  have hnotin : ∀ type', (r, type') ∉ rest := by
    intro type' hin
    have hnodup := h.distinct (C.loc r) t
    rw [hreg, map_cons, nodup_cons] at hnodup
    exact hnodup.1 (List.mem_map.mpr ⟨_, hin, rfl⟩)
  set s' := (s.setRow r row).setMan (C.loc r) t m with hs'
  have hself : s'.man (C.loc r) t = m := setMan_self
  have hregs : ∀ n' t' p, p ∈ (s'.man n' t').registered ↔
      p ∈ (s.man n' t').registered ∧ ¬ (t' = t ∧ p = (r, type)) := by
    intro n' t' p
    by_cases heq : n' = C.loc r ∧ t' = t
    · obtain ⟨rfl, rfl⟩ := heq
      rw [hself, hm, hreg, mem_cons]
      constructor
      · exact fun hp => ⟨.inr hp, fun ⟨_, hp'⟩ => hnotin type (hp' ▸ hp)⟩
      · exact fun ⟨hp, hne⟩ => hp.resolve_left fun hp => hne ⟨rfl, hp⟩
    · rw [hs', setMan_ne heq]
      refine ⟨fun hp => ⟨hp, ?_⟩, fun hp => hp.1⟩
      rintro ⟨rfl, rfl⟩
      exact heq ⟨(h.here n' t' _ hp).symm, rfl⟩
  have hsets' : ∀ n' t', (s'.man n' t').sets = (s.man n' t').sets := setMan_congr hsets
  have hidle : ∀ n' t', (s'.man n' t').stage = .idle ↔ (s.man n' t').stage = .idle :=
    forall_setMan (P := fun n t m => m.stage = .idle ↔ (s.man n t).stage = .idle)
      (fun _ _ => Iff.rfl) (iff_of_false hst (Manager.ne_idle hmem))
  have hrow : ∀ r', (∀ x, x ∈ (s'.row r').uncommittedReads ↔ x ∈ (s.row r').uncommittedReads ∧
        ¬ (x = t ∧ (r', AccessT.RD) = (r, type))) ∧
      ∀ x, x ∈ (s'.row r').uncommittedWrites ↔ x ∈ (s.row r').uncommittedWrites ∧
        ¬ (x = t ∧ (r', AccessT.WR) = (r, type)) := by
    intro r'
    rcases eq_or_ne r' r with rfl | hne
    · have heq : s'.row r' = row := setRow_self
      rw [heq]
      exact ⟨fun x => (hleave.reads x).trans (by simp [and_comm, eq_comm]),
        fun x => (hleave.writes x).trans (by simp [and_comm, eq_comm])⟩
    · have heq : s'.row r' = s.row r' := setRow_ne hne
      simp [heq, hne]
  refine ⟨fun r' t' => ?_, fun r' t' => ?_,
    fun n' t' p hp => h.here n' t' p ((hregs n' t' p).mp hp).1,
    ?_, forall_setMan (P := fun _ _ m => m.Fresh) h.fresh fun hst' => absurd hst' hst,
    fun n' t' x hx => ?_, ?_, fun n' t' hne => h.nodes n' t' ((hidle _ _).not.mp hne)⟩
  · rw [(hrow r').1, h.reads, hregs]
  · rw [(hrow r').2, h.writes, hregs]
  · apply forall_setMan (P := fun _ _ m => (m.registered.map Prod.fst).Nodup) h.distinct
    have hnodup := h.distinct (C.loc r) t
    rw [hreg, map_cons, nodup_cons] at hnodup
    exact hm ▸ hnodup.2
  · rw [hsets'] at hx
    exact (h.seen n' t' x hx).imp_right (hidle _ _).not.mpr
  · intro r' x y hx hy
    rw [hsets', hsets']
    exact h.met r' x y (((hrow r').1 x).mp hx).1 (((hrow r').2 y).mp hy).1

end

end Registered

omit [DecidableEq R] in
/-- The rows are given back last access first. -/
theorem registered_reverse (accesses : List (Access R)) :
    (accesses.reverse.map fun a => (a.row, a.type)).Perm (accesses.map fun a => (a.row, a.type)) :=
  (reverse_perm accesses).map _

/-- **Every step keeps the registrations**: only a start, an access and the return of a row touch
them. -/
theorem registered_step (h : Registered C s) {a : Action R} (hs : (machine C).step s a = some s') :
    Registered C s' := by
  cases step_cases hs with
  | @start n t gwt grt hidle hn => exact h.setTable.start hidle hn gwt grt
  | @access t r type hrun hhome htype hr =>
    apply h.enter hrun hr (RowMaat.access_enters htype _ _ _)
    rw [Manager.registered, Manager.registered, hrun]
    rfl
  | copy hst =>
    refine h.setMan hst ?_ rfl nofun nofun
    rw [Manager.registered, Stage.registered, Stage.registered, map_append]
    exact perm_append_singleton _ _
  | prepare hst | vote _ hst => exact h.setMan hst (.refl _) rfl nofun nofun
  | validateHome hst | validateAway _ hst | processRackPrep hst | findBoundAbort hst =>
    exact h.setTable.setMan hst (.refl _) rfl nofun nofun
  | releaseCommit hst | releaseAbort hst =>
    rw [finish_eq]
    apply Registered.forget
    · exact h.setTable.setMan hst (.refl _) rfl nofun nofun
    · rw [setStage_self]
      nofun
    · rw [setStage_self]
      rfl
  | refuse hst =>
    obtain ⟨acks, -, hst⟩ | ⟨-, hst, -⟩ := hst
    · exact h.setTable.setMan hst (.refl _) rfl nofun nofun
    · exact h.setTable.setMan hst (.refl _) rfl nofun nofun
  | voteAbort _ hst | rfinCommit hst | rfinAbort hst =>
    exact h.setMan hst (registered_reverse _) rfl nofun nofun
  | findBound hst => exact h.setTable.setMan hst (registered_reverse _) rfl nofun nofun
  | abort hst =>
    obtain hst | ⟨acks, hst⟩ := hst
    · exact h.setMan hst (registered_reverse _) rfl nofun nofun
    · exact h.setMan hst (registered_reverse _) rfl nofun nofun
  | @commitRow n t lower a left hst =>
    have hleave :=
      RowMaat.commit_leaves a.type (s.row a.row) t (s.man n t).commitTimestamp (s.man n t).sets
      (s.table n)
    have hreg : (s.man n t).registered = (a.row, a.type) :: left.map fun a => (a.row, a.type) := by
      rw [Manager.registered, hst]
      rfl
    exact (h.leave
      (m := { s.man n t with stage := .committing lower left }) hreg hleave rfl rfl nofun).setTable
  | abortRow hst =>
    refine h.leave ?_ (RowMaat.abort_leaves _ _ _) rfl rfl nofun
    rw [Manager.registered, hst]
    rfl

theorem reachable_registered (hs : (machine C).Reachable s) : Registered C s :=
  hs.invariant registered_init fun _ _ _ h hs => registered_step h hs

end Maat

end Deneva
