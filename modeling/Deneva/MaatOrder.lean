import Deneva.MaatRegistered

/-!
# How MaaT orders readers and writers

What is left to a transaction on a node is the interval from `lo` to `hi`: in the time
table while it is negotiated, then what it has voted with, then its commit timestamp. A
reader `R` and a writer `W` of which one has seen the other are apart, `hi R ≤ lo W`, or
both are still at a row and whoever has seen the other has yet to validate
(`Separated.apart`). Four places bring them apart: the validation of either, and the forward
validation of either when it gives back the row. Since intervals only get tighter, what is
apart stays apart, which is the content of `Separated.tighten`.

This needs one thing that the code does not provide: the forward validation of a writer
must not cut the interval of another writer that already has voted or decided
(`SparesWriters`).
-/

namespace Deneva

universe u

open Function List
open Option hiding max_eq_left max_eq_right max_le min_eq_left min_eq_right min_le_left min_le_right

namespace Maat

open Manager

open TimeTable

variable {R : Type u} {C : Cluster R} {s s' : State R}

/-! ## Intervals -/

namespace Stage

/-- It may still commit. -/
def Alive : Stage R → Prop
  | .idle | .refused | .aborting _ _ | .aborted _ => False
  | .preparing rc _ => rc = .RCOK
  | .running | .copying _ _ _ | .validated | .prepared _ _ | .committing _ _ | .committed _ => True

/-- It has validated. -/
def Checked : Stage R → Prop
  | .validated | .prepared _ _ | .committing _ _ | .committed _ => True
  | .idle | .running | .copying _ _ _ | .preparing _ _ | .refused | .aborting _ _ | .aborted _ =>
    False

/-- Its interval is promised to others, and still in the time table. -/
def Fixed : Stage R → Prop
  | .prepared _ _ | .committing _ _ => True
  | .idle | .running | .copying _ _ _ | .preparing _ _ | .validated | .refused | .committed _
    | .aborting _ _ | .aborted _ => False

instance (p : Stage R) : Decidable p.Fixed := by
  cases p <;> dsimp only [Fixed] <;> infer_instance

variable {p : Stage R}

theorem Fixed.alive (h : p.Fixed) : p.Alive := by
  cases p with
  | prepared | committing => trivial
  | _ => exact h.elim

theorem Fixed.checked (h : p.Fixed) : p.Checked := by
  cases p with
  | prepared | committing => trivial
  | _ => exact h.elim

/-- It is done, or has voted for an interval around the given one. -/
def Within (lower upper : ℕ) : Stage R → Prop
  | .prepared lo hi => lo ≤ lower ∧ upper ≤ hi
  | .idle | .committing _ _ | .committed _ | .aborting _ _ | .aborted _ => True
  | .running | .copying _ _ _ | .preparing _ _ | .validated | .refused => False

theorem Within.mono {lower lower' upper upper' : ℕ} (h : p.Within lower upper)
    (hlower : lower ≤ lower') (hupper : upper' ≤ upper) : p.Within lower' upper' := by
  cases p with
  | prepared lo hi => exact ⟨h.1.trans hlower, hupper.trans h.2⟩
  | _ => exact h

end Stage

namespace Manager

/-- The lower end of what is left to a transaction. -/
def lo (tt : TimeTable) (t : ℕ) (m : Manager R) : ℕ :=
  match m.stage with
  | .prepared lower _ | .committing lower _ | .committed lower => lower
  | .validated => tt.getLower t
  | _ =>
    max (tt.getLower t) (max (m.sets.greatestWriteTimestamp + 1) (m.sets.greatestReadTimestamp + 1))

/-- The upper end of what is left to a transaction. -/
def hi (tt : TimeTable) (t : ℕ) (m : Manager R) : ℕ :=
  match m.stage with
  | .prepared _ upper => upper
  | .committing _ _ | .committed _ => m.commitTimestamp + 1
  | _ => tt.getUpper t

variable {tt tt' : TimeTable} {t : ℕ} {m : Manager R}

theorem lo_mono (h : Tightens (tt t) (tt' t)) : m.lo tt t ≤ m.lo tt' t := by
  rw [lo, lo]
  split
  · exact le_rfl
  · exact le_rfl
  · exact le_rfl
  · exact h.getLower_le
  · have hle := h.getLower_le
    omega

theorem hi_mono (h : Tightens (tt t) (tt' t)) : m.hi tt' t ≤ m.hi tt t := by
  rw [hi, hi]
  split
  · exact le_rfl
  · exact le_rfl
  · exact le_rfl
  · exact h.getUpper_le

end Manager

/-- The lower end of what is left to a transaction on a node. -/
def State.lo (s : State R) (n t : ℕ) : ℕ := (s.man n t).lo (s.table n) t

/-- The upper end of what is left to a transaction on a node. -/
def State.hi (s : State R) (n t : ℕ) : ℕ := (s.man n t).hi (s.table n) t

theorem State.forget_lo (s : State R) (n t n' t' : ℕ) : (s.forget n t).lo n' t' = s.lo n' t' :=
  State.forall_forget (P := fun n' t' m => m.lo (s.table n') t' = s.lo n' t')
    (fun _ _ => rfl) rfl n' t'

theorem State.forget_hi (s : State R) (n t n' t' : ℕ) : (s.forget n t).hi n' t' = s.hi n' t' :=
  State.forall_forget (P := fun n' t' m => m.hi (s.table n') t' = s.hi n' t')
    (fun _ _ => rfl) rfl n' t'

theorem State.lo_le {n t : ℕ} (hman : s'.man n t = s.man n t)
    (ht : Tightens (s.table n t) (s'.table n t)) : s.lo n t ≤ s'.lo n t := by
  rw [State.lo, State.lo, hman]
  exact lo_mono ht

theorem State.hi_le {n t : ℕ} (hman : s'.man n t = s.man n t)
    (ht : Tightens (s.table n t) (s'.table n t)) : s'.hi n t ≤ s.hi n t := by
  rw [State.hi, State.hi, hman]
  exact hi_mono ht

/-- The stage and the time table agree. -/
def StageInv (o : Option TimeTableEntry) (m : Manager R) : Prop :=
  match m.stage with
  | .idle => o = none
  | .running | .copying _ _ _ => ∃ e, o = some e ∧ e.state = .RUNNING
  | .preparing rc _ => rc = .RCOK → ∃ e, o = some e ∧ e.state = .RUNNING
  | .validated => ∃ e, o = some e ∧ e.state = .VALIDATED ∧ m.sets.greatestWriteTimestamp < e.lower
  | .prepared lower upper =>
    ∃ e, o = some e ∧ e.state = .VALIDATED ∧ e.lower = lower ∧ upper ≤ e.upper + 1 ∧
      m.sets.greatestWriteTimestamp < lower
  | .committing lower _ =>
    ∃ e, o = some e ∧ (e.state = .VALIDATED ∨ e.state = .COMMITTED) ∧ e.lower = lower ∧
      m.commitTimestamp ≤ e.upper ∧ m.sets.greatestWriteTimestamp < lower ∧
      lower ≤ m.commitTimestamp ∧
      m.commitTimestamp < UINT64_MAX
  | .committed lower =>
    m.sets.greatestWriteTimestamp < lower ∧ lower ≤ m.commitTimestamp ∧
      m.commitTimestamp < UINT64_MAX
  | .refused | .aborting _ _ => True
  | .aborted _ => o = none

/-- What the home node knows of the votes of the others. -/
def HomeInv (C : Cluster R) (s : State R) (t : ℕ) : Prop :=
  match (s.man (C.home t) t).stage with
  | .preparing rc acks => rc = .RCOK → ∀ n ∈ acks, n ≠ C.home t →
    (s.man n t).stage.Within ((s.table (C.home t)).getLower t) ((s.table (C.home t)).getUpper t)
  | .validated => ∀ n, n ≠ C.home t →
    (s.man n t).stage.Within ((s.table (C.home t)).getLower t) ((s.table (C.home t)).getUpper t)
  | .committing _ _ | .committed _ => ∀ n, n ≠ C.home t →
    (s.man n t).stage.Within (s.man (C.home t) t).commitTimestamp
    ((s.man (C.home t) t).commitTimestamp + 1)
  | .idle | .running | .copying _ _ _ | .refused | .prepared _ _ | .aborting _ _ | .aborted _ =>
    True

/-- A reader and a writer are at a row, and whoever of them has seen the other has yet to
validate. -/
def State.Pending (C : Cluster R) (s : State R) (n x y : ℕ) : Prop :=
  (∃ r, C.loc r = n ∧ x ∈ (s.row r).uncommittedReads ∧ y ∈ (s.row r).uncommittedWrites) ∧
    (x ∈ (s.man n y).sets.uncommittedReads → ¬ (s.man n y).stage.Checked) ∧
    (y ∈ (s.man n x).sets.uncommittedWrites → ¬ (s.man n x).stage.Checked)

/-- Readers and writers are kept apart. -/
structure Separated (C : Cluster R) (s : State R) : Prop where
  /-- a writer of a row comes after those who have read it -/
  reads : ∀ r t, t ∈ (s.row r).uncommittedWrites → (s.man (C.loc r) t).stage.Alive →
    (s.row r).timestampLastRead < s.lo (C.loc r) t
  /-- a reader comes before a writer when one has seen the other, or that is yet to be
  settled -/
  apart : ∀ n x y, (s.man n x).stage.Alive → (s.man n y).stage.Alive →
    x ∈ (s.man n y).sets.uncommittedReads ∨ y ∈ (s.man n x).sets.uncommittedWrites →
    s.hi n x ≤ s.lo n y ∨ s.Pending C n x y

/-- The timestamps of a row are those of commits. -/
def RowMaat.Stamped (row : RowMaat) : Prop :=
  row.timestampLastRead < UINT64_MAX ∧ row.timestampLastWrite < UINT64_MAX

/-- **The order of readers and writers.** -/
structure Ordered (C : Cluster R) (s : State R) : Prop where
  /-- stages and time tables agree -/
  stage : ∀ n t, StageInv (s.table n t) (s.man n t)
  /-- upper bounds -/
  upper : ∀ n t e, s.table n t = some e → e.upper ≤ UINT64_MAX
  /-- greatest timestamps -/
  greatest : ∀ n t, (s.man n t).sets.Stamped
  /-- timestamps of rows -/
  last : ∀ r, (s.row r).Stamped
  /-- the votes -/
  home : ∀ t, HomeInv C s t
  /-- readers and writers -/
  separated : Separated C s

/-- Intervals only get tighter, and nobody comes back to life. -/
structure Tighter (s s' : State R) : Prop where
  /-- who may still commit could before -/
  alive : ∀ n t, (s.man n t).stage ≠ .idle → (s'.man n t).stage.Alive → (s.man n t).stage.Alive
  /-- lower ends rise -/
  lo : ∀ n t, (s.man n t).stage ≠ .idle → (s'.man n t).stage.Alive → s.lo n t ≤ s'.lo n t
  /-- upper ends fall -/
  hi : ∀ n t, (s.man n t).stage ≠ .idle → (s'.man n t).stage.Alive → s'.hi n t ≤ s.hi n t

/-- What a step achieves. -/
structure Advances (C : Cluster R) (s s' : State R) : Prop where
  /-- the order is kept -/
  ordered : Ordered C s'
  /-- and refined -/
  tighter : Tighter s s'

/-- The forward validation of a write does not cut the interval of another writer of the row
that has voted or decided. -/
def SparesWriters (s : State R) : Action R → Prop
  | .commitRow n t =>
    ∀ a ∈ (s.man n t).stage.next, a.type = .WR →
      ∀ x ∈ (s.row a.row).uncommittedWrites, x ≠ t → x ∉ (s.man n t).sets.uncommittedWritesY →
        (s.man n x).stage.Fixed → (s.table n).getUpper x < (s.man n t).commitTimestamp
  | _ => True

instance (s : State R) (a : Action R) : Decidable (SparesWriters s a) := by
  cases a <;> dsimp only [SparesWriters] <;> infer_instance

theorem zero_lt_max : 0 < UINT64_MAX := by decide

/-- One transaction on one node, and all others. -/
theorem forall_of_others {P : ℕ → ℕ → Prop} {n t : ℕ} (hself : P n t)
    (hother : ∀ n' t', ¬ (n' = n ∧ t' = t) → P n' t') (n' t' : ℕ) : P n' t' := by
  by_cases heq : n' = n ∧ t' = t
  · obtain ⟨rfl, rfl⟩ := heq
    exact hself
  · exact hother n' t' heq

/-- The entries of the others, on the node of a change and elsewhere. -/
theorem State.forall_setTable {P : ℕ → ℕ → Option TimeTableEntry → Prop} {n t : ℕ} {tt : TimeTable}
    (hhere : ∀ t', t' ≠ t → P n t' (tt t')) (hother : ∀ n' t', P n' t' (s.table n' t')) (n' t' : ℕ)
    (hne : ¬ (n' = n ∧ t' = t)) : P n' t' ((s.setTable n tt).table n' t') := by
  rcases eq_or_ne n' n with rfl | hn
  · rw [setTable_self]
    exact hhere t' fun ht => hne ⟨rfl, ht⟩
  · rw [setTable_ne hn]
    exact hother n' t'

theorem Registered.pending_stage (hr : Registered C s) {n x y : ℕ} (hp : s.Pending C n x y) :
    (∀ lower, (s.man n x).stage ≠ .committed lower) ∧
      ∀ lower, (s.man n y).stage ≠ .committed lower := by
  obtain ⟨⟨r, rfl, hx, hy⟩, -⟩ := hp
  have hregx := (hr.reads r x).mp hx
  have hregy := (hr.writes r y).mp hy
  rw [registered] at hregx hregy
  constructor
  · intro lower hst
    rw [hst] at hregx
    exact not_mem_nil hregx
  · intro lower hst
    rw [hst] at hregy
    exact not_mem_nil hregy

/-- **What is apart stays apart** while intervals get tighter; whoever has just validated
must be apart from all it has seen. -/
theorem Separated.tighten (h : Separated C s) (hrow : s'.row = s.row)
    (hsets : ∀ n t, (s'.man n t).sets = (s.man n t).sets)
    (halive : ∀ n t, (s'.man n t).stage.Alive → (s.man n t).stage.Alive)
    (hlo : ∀ n t, (s'.man n t).stage.Alive → s.lo n t ≤ s'.lo n t)
    (hhi : ∀ n t, (s'.man n t).stage.Alive → s'.hi n t ≤ s.hi n t)
    (hchecked : ∀ n t, (s'.man n t).stage.Alive → (s'.man n t).stage.Checked →
      (s.man n t).stage.Checked ∨
      (∀ x ∈ (s.man n t).sets.uncommittedReads, (s'.man n x).stage.Alive → s'.hi n x ≤ s'.lo n t) ∧
      ∀ y ∈ (s.man n t).sets.uncommittedWrites, (s'.man n y).stage.Alive → s'.hi n t ≤ s'.lo n y) :
    Separated C s' := by
  constructor
  · intro r t ht hal
    rw [hrow] at ht ⊢
    exact (h.reads r t ht (halive _ t hal)).trans_le (hlo _ t hal)
  · intro n x y hx hy hseen
    rw [hsets, hsets] at hseen
    rcases h.apart n x y (halive n x hx) (halive n y hy) hseen with hle | ⟨hat, hxy, hyx⟩
    · exact .inl ((hhi n x hx).trans (hle.trans (hlo n y hy)))
    · -- the two have met and wait for a validation, which may just have happened
      by_cases hnow : (x ∈ (s.man n y).sets.uncommittedReads ∧ (s'.man n y).stage.Checked) ∨
          y ∈ (s.man n x).sets.uncommittedWrites ∧ (s'.man n x).stage.Checked
      · refine .inl ?_
        rcases hnow with ⟨hmem, hch⟩ | ⟨hmem, hch⟩
        · exact ((hchecked n y hy hch).resolve_left (hxy hmem)).1 x hmem hx
        · exact ((hchecked n x hx hch).resolve_left (hyx hmem)).2 y hmem hy
      · refine .inr ⟨?_, ?_, ?_⟩
        · rw [hrow]
          exact hat
        · rw [hsets]
          exact fun hmem hch => hnow (.inl ⟨hmem, hch⟩)
        · rw [hsets]
          exact fun hmem hch => hnow (.inr ⟨hmem, hch⟩)

/-- What the home node knows holds on as its time table gets tighter and the others go on
from their votes. -/
theorem HomeInv.advance {t : ℕ} (h : HomeInv C s t)
    (hman : s'.man (C.home t) t = s.man (C.home t) t)
    (htight : Tightens (s.table (C.home t) t) (s'.table (C.home t) t))
    (hothers : ∀ n, n ≠ C.home t → ∀ lower upper, (s.man n t).stage.Within lower upper →
      (s'.man n t).stage.Within lower upper) : HomeInv C s' t := by
  rw [HomeInv, hman] at *
  split at h
  · exact fun hrc n hn hne =>
      hothers n hne _ _ ((h hrc n hn hne).mono htight.getLower_le htight.getUpper_le)
  · exact fun n hne => hothers n hne _ _ ((h n hne).mono htight.getLower_le htight.getUpper_le)
  · exact fun n hne => hothers n hne _ _ (h n hne)
  · exact fun n hne => hothers n hne _ _ (h n hne)
  all_goals trivial

/-- One node other than home goes on. -/
theorem HomeInv.away {n t : ℕ} {m : Manager R} (h : HomeInv C s t) (hn : n ≠ C.home t)
    (hm : ∀ lower upper, (s.man n t).stage.Within lower upper → m.stage.Within lower upper)
    (tt : TimeTable) : HomeInv C ((s.setTable n tt).setMan n t m) t := by
  apply h.advance
  · exact State.setMan_ne fun h => hn h.1.symm
  · rw [State.setMan_table, State.setTable_ne hn.symm]
    exact .refl _
  · intro n' _ lower upper
    rcases eq_or_ne n' n with rfl | hne
    · rw [State.setMan_self]
      exact hm lower upper
    · rw [State.setMan_ne fun h => hne h.1]
      exact id

namespace StageInv

variable {o o' : Option TimeTableEntry} {m : Manager R}

/-- An interval that is not promised may get tighter. -/
theorem tighten (h : StageInv o m) (ht : Tightens o o') (hm : ¬ m.stage.Fixed) : StageInv o' m := by
  rw [StageInv] at *
  have hrunning : (∃ e, o = some e ∧ e.state = .RUNNING) → ∃ e, o' = some e ∧
      e.state = .RUNNING := by
    rintro ⟨e, rfl, hst⟩
    obtain ⟨e', rfl, ht'⟩ := ht.of_some rfl
    exact ⟨e', rfl, ht'.state.trans hst⟩
  split at h
  · subst h
    cases ht
    rfl
  · exact hrunning h
  · exact hrunning h
  · exact fun hrc => hrunning (h hrc)
  · obtain ⟨e, rfl, hst, hlt⟩ := h
    obtain ⟨e', rfl, ht'⟩ := ht.of_some rfl
    exact ⟨e', rfl, ht'.state.trans hst, hlt.trans_le ht'.lower⟩
  next hst =>
    rw [hst] at hm
    exact absurd trivial hm
  next hst =>
    rw [hst] at hm
    exact absurd trivial hm
  · exact h
  · trivial
  · trivial
  · subst h
    cases ht
    rfl

variable {tt : TimeTable} {t : ℕ}

/-- Whoever may still commit and has not been released is in the time table with what is
left to it. -/
theorem entry (h : StageInv (tt t) m) (hal : m.stage.Alive) :
    (∃ lower, m.stage = .committed lower) ∨ ∃ e, tt t = some e ∧ e.state ≠ .ABORTED ∧
      (m.stage.Fixed → e.state ≠ .RUNNING) ∧ m.hi tt t ≤ e.upper + 1 ∧ e.lower ≤ m.lo tt t := by
  rw [StageInv] at h
  rw [hi, lo]
  have hrunning : (∃ e, tt t = some e ∧ e.state = .RUNNING) → ¬ m.stage.Fixed →
      ∃ e, tt t = some e ∧ e.state ≠ .ABORTED ∧ (m.stage.Fixed → e.state ≠ .RUNNING) ∧
        tt.getUpper t ≤ e.upper + 1 ∧ e.lower ≤ max (tt.getLower t)
          (max (m.sets.greatestWriteTimestamp + 1) (m.sets.greatestReadTimestamp + 1)) := by
    rintro ⟨e, he, hst⟩ hfix
    refine ⟨e, he, by rw [hst]; nofun, fun h => absurd h hfix, ?_, ?_⟩
    · exact (getUpper_of_some he).le.trans (Nat.le_succ _)
    · exact (getLower_of_some he).ge.trans (le_max_left _ _)
  cases hst : m.stage with
  | idle | refused | aborting | aborted =>
    rw [hst] at hal
    exact hal.elim
  | running | copying =>
    rw [hst] at h hrunning
    exact .inr (hrunning h id)
  | preparing rc acks =>
    rw [hst] at h hal hrunning
    exact .inr (hrunning (h hal) id)
  | validated =>
    rw [hst] at h
    obtain ⟨e, he, hstate, -⟩ := h
    refine .inr ⟨e, he, by rw [hstate]; nofun, nofun, ?_, ?_⟩
    · exact (getUpper_of_some he).le.trans (Nat.le_succ _)
    · exact (getLower_of_some he).ge
  | prepared lower upper =>
    rw [hst] at h
    obtain ⟨e, he, hstate, hlow, hup, -⟩ := h
    exact .inr ⟨e, he, by rw [hstate]; nofun, fun _ => by rw [hstate]; nofun, hup, hlow.le⟩
  | committing lower left =>
    rw [hst] at h
    obtain ⟨e, he, hstate, hlow, hup, -⟩ := h
    refine .inr ⟨e, he, ?_, fun _ => ?_, Nat.succ_le_succ hup, hlow.le⟩
    all_goals rcases hstate with hstate | hstate <;> rw [hstate] <;> nofun
  | committed lower => exact .inl ⟨lower, rfl⟩

/-- Whoever has promised an interval has its lower end in the time table. -/
theorem lower_of_fixed (h : StageInv (tt t) m) (hm : m.stage.Fixed) :
    ∃ e, tt t = some e ∧ e.lower = m.lo tt t := by
  rw [StageInv] at h
  rw [lo]
  cases hst : m.stage with
  | prepared lower upper | committing lower left =>
    rw [hst] at h
    obtain ⟨e, he, -, hlow, -⟩ := h
    exact ⟨e, he, hlow⟩
  | _ =>
    rw [hst] at hm
    exact hm.elim

/-- A promised interval may be cut where it ends. -/
theorem cut (h : StageInv o m) (hm : m.stage.Fixed) {bound : ℕ} (hbound : 0 < bound)
    (hhi : m.hi tt t ≤ bound) : StageInv (o.map (.cut bound (bound - 1))) m := by
  have hcut : ∀ {e : TimeTableEntry} {x : ℕ}, x ≤ bound → x ≤ e.upper + 1 →
      x ≤ (e.cut bound (bound - 1)).upper + 1 := by
    intro e x hx hle
    rw [TimeTableEntry.cut]
    split
    · dsimp only
      omega
    · exact hle
  have hlower : ∀ e : TimeTableEntry, (e.cut bound (bound - 1)).lower = e.lower ∧
      (e.cut bound (bound - 1)).state = e.state := by
    intro e
    rw [TimeTableEntry.cut]
    split <;> exact ⟨rfl, rfl⟩
  rw [StageInv] at *
  rw [hi] at hhi
  split at h
  case h_6 hst =>
    rw [hst] at hhi
    obtain ⟨e, rfl, hstate, hlow, hup, hlt⟩ := h
    exact ⟨_, rfl, (hlower e).2.trans hstate, (hlower e).1.trans hlow, hcut hhi hup, hlt⟩
  case h_7 hst =>
    rw [hst] at hhi
    obtain ⟨e, rfl, hstate, hlow, hup, hrest⟩ := h
    refine ⟨_, rfl, ?_, (hlower e).1.trans hlow,
      Nat.le_of_succ_le_succ (hcut hhi (Nat.succ_le_succ hup)), hrest⟩
    rwa [(hlower e).2]
  all_goals
    rename_i hst
    rw [hst] at hm
    exact hm.elim

end StageInv

theorem ite_modify {tt : TimeTable} {t : ℕ} {p : Prop} [Decidable p]
    {f g : TimeTableEntry → TimeTableEntry}
    (h : ∀ e, tt t = some e → (if p then f e else e) = g e) :
    (if p then tt.modify t f else tt) = tt.modify t g := by
  rw [TimeTable.modify, TimeTable.modify]
  cases ht : tt t with
  | none => rw [map_none, map_none, ← ht, update_eq_self, ite_self]
  | some e =>
    rw [map_some, map_some, ← h e ht]
    split
    · rfl
    · rw [← ht, update_eq_self]

theorem setLower_eq_modify (tt : TimeTable) (t lower : ℕ) :
    (if lower > tt.getLower t then tt.setLower t lower else tt) =
      tt.modify t fun e => { e with lower := max e.lower lower } := by
  refine ite_modify fun e he => ?_
  rw [getLower_of_some he]
  split
  · rw [max_eq_right (Nat.le_of_lt ‹_›)]
  · rw [max_eq_left (Nat.le_of_not_lt ‹_›)]

theorem setUpper_eq_modify (tt : TimeTable) (t upper : ℕ) :
    (if upper < tt.getUpper t then tt.setUpper t upper else tt) =
      tt.modify t fun e => { e with upper := min e.upper upper } := by
  refine ite_modify fun e he => ?_
  rw [getUpper_of_some he]
  split
  · rw [min_eq_right (Nat.le_of_lt ‹_›)]
  · rw [min_eq_left (Nat.le_of_not_lt ‹_›)]

/-- What the integration of a vote does to an entry. -/
theorem integrate_apply (tt : TimeTable) (t : ℕ) (rc : RC) (lower upper x : ℕ) :
    integrate tt t rc lower upper x = if x = t then (tt x).map (fun e =>
      ⟨max e.lower lower, min e.upper upper, if rc = .RCOK then e.state else .ABORTED⟩)
        else tt x := by
  simp only [integrate, setLower_eq_modify, setUpper_eq_modify]
  split
  next hrc =>
    simp only [setState, modify_apply]
    split
    · simp only [Option.map_map]
      rfl
    · rfl
  next hrc =>
    simp only [modify_apply]
    split
    · simp only [Option.map_map, if_pos (not_not.mp hrc)]
      rfl
    · rfl

namespace Ordered

variable {n t : ℕ} {m : Manager R} {tt : TimeTable}

theorem getUpper_le (h : Ordered C s) : (s.table n).getUpper t ≤ UINT64_MAX := by
  rw [getUpper]
  split
  · exact h.upper n t _ ‹_›
  · exact le_rfl

/-- Whoever may validate runs. -/
theorem running (h : Ordered C s)
    (hst : (s.man n t).stage = .running ∨ ∃ acks, (s.man n t).stage = .preparing .RCOK acks) :
    ∃ e, s.table n t = some e ∧ e.state = .RUNNING := by
  have hstage := h.stage n t
  rw [StageInv] at hstage
  rcases hst with hst | ⟨acks, hst⟩
  · rwa [hst] at hstage
  · rw [hst] at hstage
    exact hstage rfl

variable {lower : ℕ} {left : List (Access R)} {type : AccessT} {a : Access R}

section

variable (h : Ordered C s)

include h

/-- Whoever commits has its commit timestamp between its bounds. -/
theorem committing (hst : (s.man n t).stage = .committing lower left) :
    ∃ e, s.table n t = some e ∧ (e.state = .VALIDATED ∨ e.state = .COMMITTED) ∧ e.lower = lower ∧
      (s.man n t).commitTimestamp ≤ e.upper ∧ (s.man n t).sets.greatestWriteTimestamp < lower ∧
      lower ≤ (s.man n t).commitTimestamp ∧ (s.man n t).commitTimestamp < UINT64_MAX := by
  have hstage := h.stage n t
  rwa [StageInv, hst] at hstage

/-- What is kept when only one transaction on a node changes, and the intervals of others get
tighter. -/
theorem of_man (hman : ∀ n' t', ¬ (n' = n ∧ t' = t) → s'.man n' t' = s.man n' t')
    (htight : ∀ n' t', ¬ (n' = n ∧ t' = t) → Tightens (s.table n' t') (s'.table n' t'))
    (hstage : ∀ n' t', ¬ (n' = n ∧ t' = t) → StageInv (s'.table n' t') (s.man n' t'))
    (hself : StageInv (s'.table n t) (s'.man n t))
    (hupper : ∀ e, s'.table n t = some e → e.upper ≤ UINT64_MAX)
    (hgreatest : (s'.man n t).sets.Stamped) (hlast : ∀ r, (s'.row r).Stamped)
    (hhome : HomeInv C s' t) (hsep : Separated C s') : Ordered C s' := by
  refine ⟨forall_of_others hself fun n' t' hne => hman n' t' hne ▸ hstage n' t' hne,
    forall_of_others hupper fun n' t' hne e he => ?_,
    forall_of_others hgreatest fun n' t' hne => hman n' t' hne ▸ h.greatest n' t', hlast,
    fun t' => ?_, hsep⟩
  · have hrel := htight n' t' hne
    rw [he] at hrel
    cases hold : s.table n' t' with
    | none =>
      rw [hold] at hrel
      cases hrel
    | some e' =>
      rw [hold] at hrel
      cases hrel with
      | some hrel => exact hrel.upper.trans (h.upper n' t' e' hold)
  · rcases eq_or_ne t' t with rfl | hne
    · exact hhome
    · have hsame : ∀ n', s'.man n' t' = s.man n' t' := fun n' => hman n' t' fun h => hne h.2
      apply (h.home t').advance (hsame _) (htight _ _ fun h => hne h.2)
      exact fun n' _ lower upper hw => hsame n' ▸ hw

/-- Who commits goes on with that. -/
theorem home_commits {p : Stage R} (hst : (s.man (C.home t) t).stage = .committing lower left)
    (hp : p.outcome = some .RCOK) :
    HomeInv C ((s.setTable (C.home t) tt).setStage (C.home t) t p) t := by
  have hhome := h.home t
  rw [HomeInv, hst] at hhome
  rw [HomeInv, State.setStage_self]
  cases p with
  | committing | committed =>
    intro n hn
    rw [State.setStage_ne fun h => hn h.1]
    exact hhome n hn
  | _ => cases hp

/-- At home a decision to commit is there. -/
theorem outcome (ho : (s.man (C.home t) t).stage.outcome = some .RCOK) :
    (s.man (C.home t) t).commitTimestamp < UINT64_MAX ∧ ∀ n, n ≠ C.home t → (s.man n t).stage.Within
      (s.man (C.home t) t).commitTimestamp ((s.man (C.home t) t).commitTimestamp + 1) := by
  have hstage := h.stage (C.home t) t
  have hhome := h.home t
  rw [StageInv] at hstage
  rw [HomeInv] at hhome
  cases hst : (s.man (C.home t) t).stage with
  | committing lower left =>
    rw [hst] at hstage hhome
    obtain ⟨e, -, -, -, -, -, -, hmax⟩ := hstage
    exact ⟨hmax, hhome⟩
  | committed lower =>
    rw [hst] at hstage hhome
    exact ⟨hstage.2.2, hhome⟩
  | _ =>
    rw [hst] at ho
    simp [Stage.outcome] at ho

section

variable (hr : Registered C s)

include hr

/-- A transaction goes on, and on its node intervals get tighter. -/
theorem advance (hsets : m.sets = (s.man n t).sets)
    (hothers : ∀ x, x ≠ t → Tightens (s.table n x) (tt x))
    (hstage : ∀ x, x ≠ t → StageInv (tt x) (s.man n x)) (hself : StageInv (tt t) m)
    (hupper : ∀ e, tt t = some e → e.upper ≤ UINT64_MAX)
    (halive : m.stage.Alive → (s.man n t).stage.Alive) (hlo : m.stage.Alive → s.lo n t ≤ m.lo tt t)
    (hhi : m.stage.Alive → m.hi tt t ≤ s.hi n t)
    (hchecked : m.stage.Alive → m.stage.Checked → (s.man n t).stage.Checked ∨
      (∀ x ∈ (s.man n t).sets.uncommittedReads, x ≠ t → (s.man n x).stage.Alive →
      (s.man n x).hi tt x ≤ m.lo tt t) ∧ ∀ y ∈ (s.man n t).sets.uncommittedWrites, y ≠ t →
      (s.man n y).stage.Alive → m.hi tt t ≤ (s.man n y).lo tt y)
    (haway : n ≠ C.home t → ∀ lower upper, (s.man n t).stage.Within lower upper →
      m.stage.Within lower upper)
    (hhome : n = C.home t → HomeInv C ((s.setTable n tt).setMan n t m) t) :
    Advances C s ((s.setTable n tt).setMan n t m) := by
  set s' := (s.setTable n tt).setMan n t m with hs'
  have hself' : s'.man n t = m := State.setMan_self
  have htable : s'.table n = tt := State.setTable_self
  have htight : ∀ n' t', ¬ (n' = n ∧ t' = t) → Tightens (s.table n' t') (s'.table n' t') :=
    State.forall_setTable (P := fun n t o => Tightens (s.table n t) o) hothers fun _ _ => .refl _
  have hne' : ∀ n' t', ¬ (n' = n ∧ t' = t) → s'.man n' t' = s.man n' t' :=
    fun n' t' => State.setMan_ne
  have hlo' : s'.lo n t = m.lo tt t := by rw [State.lo, hself', htable]
  have hhi' : s'.hi n t = m.hi tt t := by rw [State.hi, hself', htable]
  have halive' : ∀ n' t', (s'.man n' t').stage.Alive → (s.man n' t').stage.Alive := by
    apply forall_of_others
    · rwa [hself']
    · exact fun n' t' hne hal => hne' n' t' hne ▸ hal
  have hlos : ∀ n' t', (s'.man n' t').stage.Alive → s.lo n' t' ≤ s'.lo n' t' := by
    apply forall_of_others
    · rw [hself', hlo']
      exact hlo
    · exact fun n' t' hne _ => State.lo_le (hne' n' t' hne) (htight n' t' hne)
  have hhis : ∀ n' t', (s'.man n' t').stage.Alive → s'.hi n' t' ≤ s.hi n' t' := by
    apply forall_of_others
    · rw [hself', hhi']
      exact hhi
    · exact fun n' t' hne _ => State.hi_le (hne' n' t' hne) (htight n' t' hne)
  refine ⟨h.of_man hne' htight ?_ (by rwa [hself', htable]) (htable ▸ hupper)
    (hself' ▸ hsets ▸ h.greatest n t) h.last ?_ ?_, fun n t _ => halive' n t, fun n t _ => hlos n t,
    fun n t _ => hhis n t⟩
  · exact State.forall_setTable (P := fun n t o => StageInv o (s.man n t)) hstage h.stage
  · rcases eq_or_ne n (C.home t) with hn | hn
    · exact hhome hn
    · exact (h.home t).away hn (haway hn) tt
  · have hrow : s'.row = s.row := rfl
    have hsets' : ∀ n' t', (s'.man n' t').sets = (s.man n' t').sets := State.setMan_congr hsets
    apply h.separated.tighten hrow hsets' halive' hlos hhis
    apply forall_of_others
    · rw [hself']
      intro hal hch
      refine (hchecked hal hch).imp_right fun ⟨hreads, hwrites⟩ =>
        ⟨fun x hx hxal => ?_, fun y hy hyal => ?_⟩
      · have hxt := (hr.seen n t x (.inl hx)).1
        rw [hne' n x fun h => hxt h.2] at hxal
        rw [hlo', State.hi, htable, hne' n x fun h => hxt h.2]
        exact hreads x hx hxt hxal
      · have hyt := (hr.seen n t y (.inr hy)).1
        rw [hne' n y fun h => hyt h.2] at hyal
        rw [hhi', State.lo, htable, hne' n y fun h => hyt h.2]
        exact hwrites y hy hyt hyal
    · exact fun n' t' hne _ hch => .inl (hne' n' t' hne ▸ hch)

/-- A transaction goes on, and nothing else happens. -/
theorem setMan (hsets : m.sets = (s.man n t).sets) (hself : StageInv (s.table n t) m)
    (halive : m.stage.Alive → (s.man n t).stage.Alive)
    (hlo : m.stage.Alive → s.lo n t ≤ m.lo (s.table n) t)
    (hhi : m.stage.Alive → m.hi (s.table n) t ≤ s.hi n t)
    (hchecked : m.stage.Alive → m.stage.Checked → (s.man n t).stage.Checked)
    (haway : n ≠ C.home t → ∀ lower upper, (s.man n t).stage.Within lower upper →
      m.stage.Within lower upper)
    (hhome : n = C.home t → HomeInv C (s.setMan n t m) t) : Advances C s (s.setMan n t m) := by
  have hadv := h.advance hr hsets (fun x _ => .refl _) (fun x _ => h.stage n x) hself
    (h.upper n t) halive hlo hhi (fun hal hch => .inl (hchecked hal hch)) haway
  rw [State.setTable_eq_self] at hadv
  exact hadv hhome

/-- A transaction gives up. -/
theorem giveUp {p : Stage R} (hp : p = .refused ∨ p.outcome = some .Abort)
    (hself : StageInv (tt t) { s.man n t with stage := p })
    (haway : n ≠ C.home t → ∀ lower upper, (s.man n t).stage.Within lower upper →
      p.Within lower upper)
    (hothers : ∀ x, x ≠ t → tt x = s.table n x)
    (hupper : ∀ e, tt t = some e → e.upper ≤ UINT64_MAX) :
    Advances C s ((s.setTable n tt).setStage n t p) := by
  have hdead : ¬ p.Alive ∧ (n = C.home t → HomeInv C ((s.setTable n tt).setStage n t p) t) := by
    have hstage : (((s.setTable n tt).setStage n t p).man n t).stage = p := by
      rw [State.setStage_self]
    cases p with
    | refused | aborting | aborted =>
      refine ⟨id, ?_⟩
      rintro rfl
      rw [HomeInv, hstage]
      trivial
    | _ => simp [Stage.outcome] at hp
  obtain ⟨hdead, hhome⟩ := hdead
  exact h.advance hr rfl (fun x hx => hothers x hx ▸ .refl _)
    (fun x hx => hothers x hx ▸ h.stage n x) hself hupper (fun hal => absurd hal hdead)
    (fun hal => absurd hal hdead) (fun hal => absurd hal hdead)
    (fun hal => absurd hal hdead) haway hhome

/-- A transaction gives up, and nothing else happens. -/
theorem giveUp_same {p : Stage R} (hp : p = .refused ∨ p.outcome = some .Abort)
    (hself : StageInv (s.table n t) { s.man n t with stage := p })
    (haway : n ≠ C.home t → ∀ lower upper, (s.man n t).stage.Within lower upper →
      p.Within lower upper) : Advances C s (s.setStage n t p) := by
  have hadv := h.giveUp hr hp hself haway (fun _ _ => rfl) (h.upper n t)
  rwa [State.setTable_eq_self] at hadv

theorem copy {row : R} {seen : List Install} (hst : (s.man n t).stage = .copying row type seen)
    (accesses : List (Access R)) :
    Advances C s (s.setMan n t { s.man n t with accesses := accesses, stage := .running }) := by
  have hstage := h.stage n t
  rw [StageInv, hst] at hstage
  apply h.setMan hr
  · rfl
  · exact hstage
  · exact fun _ => hst ▸ trivial
  · intro _
    rw [State.lo, lo, lo, hst]
  · intro _
    rw [State.hi, hi, hi, hst]
  · exact fun _ hch => hch.elim
  · intro _ lower upper hw
    rw [hst] at hw
    exact hw.elim
  · rintro rfl
    rw [HomeInv, State.setMan_self]
    trivial

theorem prepare (hst : (s.man (C.home t) t).stage = .running) :
    Advances C s (s.setStage (C.home t) t (.preparing .RCOK [])) := by
  have hstage := h.stage (C.home t) t
  rw [StageInv, hst] at hstage
  apply h.setMan hr
  · rfl
  · exact fun _ => hstage
  · exact fun _ => hst ▸ trivial
  · intro _
    rw [State.lo, lo, lo, hst]
  · intro _
    rw [State.hi, hi, hi, hst]
  · exact fun _ hch => hch.elim
  · exact fun hn => absurd rfl hn
  · intro _
    rw [HomeInv, State.setMan_self]
    exact fun _ n hn => absurd hn not_mem_nil

theorem vote (hn : n ≠ C.home t) (hst : (s.man n t).stage = .validated) :
    Advances C s
      (s.setStage n t (.prepared ((s.table n).getLower t) ((s.table n).getUpper t))) := by
  have hstage := h.stage n t
  rw [StageInv, hst] at hstage
  obtain ⟨e, he, hstate, hlt⟩ := hstage
  rw [getLower_of_some he, getUpper_of_some he]
  apply h.setMan hr
  · rfl
  · exact ⟨e, he, hstate, rfl, Nat.le_succ _, hlt⟩
  · exact fun _ => hst ▸ trivial
  · intro _
    rw [State.lo, lo, lo, hst]
    exact (getLower_of_some he).le
  · intro _
    rw [State.hi, hi, hi, hst]
    exact (getUpper_of_some he).ge
  · exact fun _ _ => hst ▸ trivial
  · intro _ lower upper hw
    rw [hst] at hw
    exact hw.elim
  · exact fun hn' => absurd hn' hn

theorem rfinCommit {upper : ℕ} (hst : (s.man n t).stage = .prepared lower upper)
    (ho : (s.man (C.home t) t).stage.outcome = some .RCOK) (left : List (Access R)) :
    Advances C s (s.setMan n t
      { s.man n t with
        commitTimestamp := (s.man (C.home t) t).commitTimestamp
        stage := .committing lower left }) := by
  have hn : n ≠ C.home t := by
    rintro rfl
    rw [hst] at ho
    cases ho
  have hstage := h.stage n t
  rw [StageInv, hst] at hstage
  obtain ⟨e, he, hstate, hlow, hup, hlt⟩ := hstage
  obtain ⟨hmax, hwithin⟩ := h.outcome ho
  have hw := hwithin n hn
  rw [hst] at hw
  apply h.setMan hr
  · rfl
  · exact ⟨e, he, .inl hstate, hlow, Nat.le_of_succ_le_succ (hw.2.trans hup), hlt, hw.1, hmax⟩
  · exact fun _ => hst ▸ trivial
  · intro _
    rw [State.lo, lo, lo, hst]
  · intro _
    rw [State.hi, hi, hi, hst]
    exact hw.2
  · exact fun _ _ => hst ▸ trivial
  · exact fun _ _ _ _ => trivial
  · exact fun hn' => absurd hn' hn

theorem findBound (hst : (s.man (C.home t) t).stage = .validated)
    (hlt : (s.table (C.home t)).getLower t < (s.table (C.home t)).getUpper t)
    (left : List (Access R)) :
    Advances C s
    ((s.setTable (C.home t) ((s.table (C.home t)).setState t .COMMITTED)).setMan (C.home t) t
      { s.man (C.home t) t with
        commitTimestamp := (s.table (C.home t)).getLower t
        stage := .committing ((s.table (C.home t)).getLower t) left }) := by
  have hstage := h.stage (C.home t) t
  rw [StageInv, hst] at hstage
  obtain ⟨e, he, hstate, hwritten⟩ := hstage
  have hmax := h.upper (C.home t) t e he
  rw [getLower_of_some he, getUpper_of_some he] at hlt
  rw [getLower_of_some he]
  have hother : ∀ x, x ≠ t →
      (s.table (C.home t)).setState t .COMMITTED x = s.table (C.home t) x := by
    intro x hx
    rw [setState, modify_apply, if_neg hx]
  have hself : (s.table (C.home t)).setState t .COMMITTED t =
      some { e with state := .COMMITTED } := by
    rw [setState, modify_apply, if_pos rfl, he, map_some]
  apply h.advance hr
  · rfl
  · exact fun x hx => hother x hx ▸ .refl _
  · exact fun x hx => hother x hx ▸ h.stage _ x
  · exact ⟨_, hself, .inr rfl, rfl, hlt.le, hwritten, le_rfl, hlt.trans_le hmax⟩
  · rw [hself]
    exact fun e' he' => some.inj he' ▸ hmax
  · exact fun _ => hst ▸ trivial
  · intro _
    rw [State.lo, lo, lo, hst]
    exact (getLower_of_some he).le
  · intro _
    rw [State.hi, hi, hi, hst]
    exact hlt.trans_eq (getUpper_of_some he).symm
  · exact fun _ _ => .inl (hst ▸ trivial)
  · exact fun hn => absurd rfl hn
  · intro _
    have hhome := h.home t
    rw [HomeInv, hst] at hhome
    rw [HomeInv, State.setMan_self]
    intro n hn
    rw [State.setMan_ne fun h => hn h.1]
    apply (hhome n hn).mono
    · exact (getLower_of_some he).le
    · exact hlt.trans_eq (getUpper_of_some he).symm

/-- **Validation** brings a transaction apart from everybody it has seen. -/
theorem validate
    (hst : (s.man n t).stage = .running ∨ ∃ acks, (s.man n t).stage = .preparing .RCOK acks)
    (hval : Maat.validate (s.table n) t (s.man n t).sets = some (.RCOK, tt))
    (hhome : n = C.home t → HomeInv C ((s.setTable n tt).setStage n t .validated) t) :
    Advances C s ((s.setTable n tt).setStage n t .validated) := by
  obtain ⟨e, he, -⟩ := h.running hst
  have hold : (s.man n t).stage.Alive ∧ ¬ (s.man n t).stage.Checked := by
    rcases hst with hst | ⟨acks, hst⟩
    · exact hst ▸ ⟨trivial, id⟩
    · exact hst ▸ ⟨rfl, id⟩
  have hsep := validate_spec (h.greatest n t) he (h.upper n t e he) hval
  obtain ⟨e', he', hstate', hlt'⟩ := hsep.self
  -- promised intervals belong to transactions that do not run
  have hstage : ∀ x, x ≠ t → StageInv (tt x) (s.man n x) := by
    intro x hx
    by_cases hfix : (s.man n x).stage.Fixed
    · rcases (h.stage n x).entry hfix.alive with ⟨lower, hc⟩ | ⟨ex, hex, -, hnr, -⟩
      · rw [hc] at hfix
        exact hfix.elim
      · rw [hsep.settled x hx (by rw [getState_of_some hex]; exact hnr hfix)]
        exact h.stage n x
    · exact (h.stage n x).tighten (hsep.others x hx) hfix
  have hlo : s.lo n t ≤ tt.getLower t := by
    have hle : s.lo n t =
      max ((s.table n).getLower t) (max ((s.man n t).sets.greatestWriteTimestamp + 1)
        ((s.man n t).sets.greatestReadTimestamp + 1)) := by
      rw [State.lo, lo]
      rcases hst with hst | ⟨acks, hst⟩ <;> rw [hst]
    rw [hle]
    exact max_le hsep.lower (max_le hsep.written hsep.read)
  have hhi : tt.getUpper t ≤ s.hi n t := by
    have heq : s.hi n t = (s.table n).getUpper t := by
      rw [State.hi, hi]
      rcases hst with hst | ⟨acks, hst⟩ <;> rw [hst]
    exact hsep.upper.trans_eq heq.symm
  apply h.advance hr
  · rfl
  · exact hsep.others
  · exact hstage
  · exact ⟨e', he', hstate', getLower_of_some he' ▸ hsep.written⟩
  · intro e'' he''
    obtain rfl := some.inj (he'.symm.trans he'')
    rw [← getUpper_of_some he']
    exact hsep.upper.trans (getUpper_of_some he ▸ h.upper n t e he)
  · exact fun _ => hold.1
  · exact fun _ => hlo
  · exact fun _ => hhi
  · refine fun _ _ => .inr ⟨fun x hx hxt hal => ?_, fun y hy hyt hal => ?_⟩
    · rcases (hstage x hxt).entry hal with ⟨lower, hc⟩ | ⟨ex, hex, hnab, -, hup, -⟩
      · -- a reader that is gone is apart already
        have happ := h.separated.apart n x t hal hold.1 (.inl hx)
        have hle := happ.resolve_right fun hp => (hr.pending_stage hp).1 lower hc
        refine le_trans (le_of_eq ?_) (hle.trans hlo)
        rw [State.hi, hi, hi, hc]
      · rw [← getUpper_of_some hex] at hup
        refine hup.trans (hsep.reads x hx hxt ?_)
        rw [← getState_of_some hex] at hnab
        exact (hsep.others x hxt).getState_eq ▸ hnab
    · rcases (hstage y hyt).entry hal with ⟨lower, hc⟩ | ⟨ey, hey, hnab, -, -, hlow⟩
      · have happ := h.separated.apart n t y hold.1 hal (.inr hy)
        have hle := happ.resolve_right fun hp => (hr.pending_stage hp).2 lower hc
        refine hhi.trans (hle.trans (le_of_eq ?_))
        rw [State.lo, lo, lo, hc]
      · rw [← getLower_of_some hey] at hlow
        refine le_trans (hsep.writes y hy hyt ?_) hlow
        rw [← getState_of_some hey] at hnab
        exact (hsep.others y hyt).getState_eq ▸ hnab
  · intro hn lower upper hw
    rcases hst with hst | ⟨acks, hst⟩
    all_goals
      rw [hst] at hw
      exact hw.elim
  · exact hhome

/-- At home everybody has voted before validation begins. -/
theorem validateHome {acks : List ℕ} (hst : (s.man (C.home t) t).stage = .preparing .RCOK acks)
    (hacks : ∀ n < C.nodeCnt, n ≠ C.home t → (s.man n t).stage ≠ .idle → n ∈ acks)
    (hval : Maat.validate (s.table (C.home t)) t (s.man (C.home t) t).sets = some (.RCOK, tt)) :
    Advances C s ((s.setTable (C.home t) tt).setStage (C.home t) t .validated) := by
  obtain ⟨e, he, -⟩ := h.running (.inr ⟨acks, hst⟩)
  have hsep := validate_spec (h.greatest _ t) he (h.upper _ t e he) hval
  apply h.validate hr (.inr ⟨acks, hst⟩) hval
  intro _
  have hhome := h.home t
  rw [HomeInv, hst] at hhome
  rw [HomeInv, State.setStage_self]
  intro n hn
  rw [State.setStage_ne fun h => hn h.1, State.setStage_table, State.setTable_self]
  by_cases hidle : (s.man n t).stage = .idle
  · rw [State.setTable_man, hidle]
    trivial
  · exact (hhome rfl n (hacks n (hr.nodes n t hidle) hn hidle) hn).mono hsep.lower hsep.upper

/-- A vote arrives at home. -/
theorem processRackPrep {rc rc' : RC} {upper : ℕ} {acks : List ℕ}
    (hst : (s.man (C.home t) t).stage = .preparing rc acks)
    (hvote : (s.man n t).stage.vote = some (rc', lower, upper)) (hn : n ≠ C.home t) :
    Advances C s ((s.setTable (C.home t)
      (integrate (s.table (C.home t)) t rc' lower upper)).setStage (C.home t) t
      (.preparing (if rc' = .RCOK then rc else rc') (n :: acks))) := by
  have happ := integrate_apply (s.table (C.home t)) t rc' lower upper
  have hrc : (if rc' = .RCOK then rc else rc') = .RCOK → rc' = .RCOK ∧ rc = .RCOK := by
    split
    · exact fun hrc => ⟨‹_›, hrc⟩
    · exact fun hrc => absurd hrc ‹_›
  have hentry : rc = .RCOK → ∃ e, s.table (C.home t) t = some e ∧ e.state = .RUNNING := by
    have hstage := h.stage (C.home t) t
    rwa [StageInv, hst] at hstage
  have htight : rc' = .RCOK → Tightens (s.table (C.home t) t)
      (integrate (s.table (C.home t)) t rc' lower upper t) := by
    intro hrc'
    rw [happ, if_pos rfl]
    exact .map _ fun e => ⟨le_max_left _ _, min_le_left _ _, if_pos hrc'⟩
  apply h.advance hr
  · rfl
  · exact fun x hx => by rw [happ, if_neg hx]; exact .refl _
  · exact fun x hx => by rw [happ, if_neg hx]; exact h.stage _ x
  · intro hrc'
    obtain ⟨e, he, hrun⟩ := hentry (hrc hrc').2
    obtain ⟨e', he', ht⟩ := (htight (hrc hrc').1).of_some he
    exact ⟨e', he', ht.state.trans hrun⟩
  · rw [happ, if_pos rfl]
    intro e' he'
    obtain ⟨e, he, rfl⟩ := map_eq_some_iff.mp he'
    exact (min_le_left _ _).trans (h.upper _ t e he)
  · exact fun hal => hst ▸ (hrc hal).2
  · intro hal
    rw [State.lo, lo, lo, hst]
    exact max_le ((htight (hrc hal).1).getLower_le.trans (le_max_left _ _)) (le_max_right _ _)
  · intro hal
    rw [State.hi, hi, hi, hst]
    exact (htight (hrc hal).1).getUpper_le
  · exact fun _ hch => hch.elim
  · exact fun hn => absurd rfl hn
  · intro _
    have hhome := h.home t
    rw [HomeInv, hst] at hhome
    rw [HomeInv, State.setMan_self]
    intro hal n' hn' hne
    rw [State.setMan_ne fun h => hne h.1, State.setMan_table, State.setTable_self]
    obtain ⟨rfl, rfl⟩ := hrc hal
    rcases mem_cons.mp hn' with rfl | hn'
    · -- the bounds of the vote are now part of those at home
      obtain ⟨e, he, -⟩ := hentry rfl
      have hself := happ t
      rw [if_pos rfl, he, map_some] at hself
      rw [getLower_of_some hself, getUpper_of_some hself]
      cases hst' : (s.man n' t).stage with
      | prepared lo hi =>
        rw [hst', Stage.vote] at hvote
        obtain ⟨-, rfl, rfl⟩ := by simpa only [some.injEq, Prod.mk.injEq] using hvote
        rw [State.setTable_man, hst']
        exact ⟨le_max_right _ _, min_le_right _ _⟩
      | aborting | aborted =>
        rw [State.setTable_man, hst']
        trivial
      | _ =>
        rw [hst'] at hvote
        cases hvote
    · exact (hhome rfl n' hn' hne).mono (htight rfl).getLower_le (htight rfl).getUpper_le

theorem releaseCommit (hst : (s.man n t).stage = .committing lower []) :
    Advances C s ((s.setTable n ((s.table n).release t)).setStage n t (.committed lower)) := by
  obtain ⟨e, he, -, -, -, hwritten, hle, hmax⟩  := h.committing hst
  have hother : ∀ x, x ≠ t → (s.table n).release t x = s.table n x :=
    fun x hx => update_of_ne hx _ _
  apply h.advance hr
  · rfl
  · exact fun x hx => hother x hx ▸ .refl _
  · exact fun x hx => hother x hx ▸ h.stage n x
  · exact ⟨hwritten, hle, hmax⟩
  · rw [release, update_self]
    nofun
  · exact fun _ => hst ▸ trivial
  · intro _
    rw [State.lo, lo, lo, hst]
  · intro _
    rw [State.hi, hi, hi, hst]
    exact le_rfl
  · exact fun _ _ => .inl (hst ▸ trivial)
  · exact fun _ _ _ _ => trivial
  · rintro rfl
    exact h.home_commits hst rfl

/-- A transaction arrives. Nobody has seen it, and it has seen nobody. -/
theorem start {gwt grt : ℕ} (hidle : (s.man n t).stage = .idle) (hw : gwt < UINT64_MAX)
    (hrd : grt < UINT64_MAX) (hrun : n = C.home t ∨ (s.man (C.home t) t).stage = .running) :
    Advances C s ((s.setTable n ((s.table n).init t)).setMan n t
      { s.man n t with sets := ⟨∅, ∅, ∅, gwt, grt⟩, stage := .running }) := by
  have hnone : s.table n t = none := by
    have hstage := h.stage n t
    rwa [StageInv, hidle] at hstage
  have hinit : (s.table n).init t = update (s.table n) t (some .init) := by
    rw [init, hnone]
  rw [hinit]
  set m : Manager R := { s.man n t with sets := ⟨∅, ∅, ∅, gwt, grt⟩, stage := .running } with hm
  set s' := (s.setTable n (update (s.table n) t (some .init))).setMan n t m with hs'
  have hself : s'.man n t = m := State.setMan_self
  have hman : ∀ n' t', ¬ (n' = n ∧ t' = t) → s'.man n' t' = s.man n' t' :=
    fun n' t' => State.setMan_ne
  have htable : ∀ n' t', ¬ (n' = n ∧ t' = t) → s'.table n' t' = s.table n' t' :=
    State.forall_setTable (P := fun n t o => o = s.table n t) (fun _ ht => update_of_ne ht _ _)
      fun _ _ => rfl
  have hnew : s'.table n t = some .init := by
    have heq : s'.table n = _ := State.setTable_self
    rw [heq, update_self]
  have hne : ∀ n' t', (s.man n' t').stage ≠ .idle → ¬ (n' = n ∧ t' = t) := by
    rintro n' t' hne ⟨rfl, rfl⟩
    exact hne hidle
  have htight : ∀ n' t', ¬ (n' = n ∧ t' = t) → Tightens (s.table n' t') (s'.table n' t') :=
    fun n' t' hne => htable n' t' hne ▸ .refl _
  refine ⟨h.of_man hman htight (fun n' t' hne => htable n' t' hne ▸ h.stage n' t') ?_ ?_
    (hself ▸ ⟨hw, hrd⟩)
    h.last ?_ ⟨fun r y hy hal => ?_, fun n' x y hx hy hseen => ?_⟩, fun n' t' hst => ?_,
    fun n' t' hst _ => State.lo_le (hman _ _ (hne n' t' hst)) (htight _ _ (hne n' t' hst)),
    fun n' t' hst _ => State.hi_le (hman _ _ (hne n' t' hst)) (htight _ _ (hne n' t' hst))⟩
  rotate_right
  · rw [hman _ _ (hne n' t' hst)]
    exact id
  · rw [hself, hnew]
    exact ⟨_, rfl, rfl⟩
  · rw [hnew]
    rintro _ ⟨⟩
    exact le_rfl
  · have hstage : (s'.man (C.home t) t).stage = .running := by
      by_cases hn : n = C.home t
      · rw [← hn, hself]
      · rw [hman _ _ fun h => hn h.1.symm]
        exact hrun.resolve_left hn
    rw [HomeInv, hstage]
    trivial
  · have hne : ¬ (C.loc r = n ∧ y = t) := by
      rintro ⟨rfl, rfl⟩
      exact ne_idle ((hr.writes r y).mp hy) hidle
    rw [hman _ _ hne] at hal
    exact (h.separated.reads r y hy hal).trans_le (State.lo_le (hman _ _ hne) (htight _ _ hne))
  · -- neither of the two is the new one
    have hboth : (¬ (n' = n ∧ x = t) ∧ ¬ (n' = n ∧ y = t)) ∧
        (x ∈ (s.man n' y).sets.uncommittedReads ∨ y ∈ (s.man n' x).sets.uncommittedWrites) := by
      rcases hseen with hseen | hseen
      · have hyt : ¬ (n' = n ∧ y = t) := by
          rintro ⟨rfl, rfl⟩
          rw [hself] at hseen
          exact OrderedSet.not_mem_empty hseen
        rw [hman _ _ hyt] at hseen
        exact ⟨⟨hne n' x (hr.seen n' y x (.inl hseen)).2, hyt⟩, .inl hseen⟩
      · have hxt : ¬ (n' = n ∧ x = t) := by
          rintro ⟨rfl, rfl⟩
          rw [hself] at hseen
          exact OrderedSet.not_mem_empty hseen
        rw [hman _ _ hxt] at hseen
        exact ⟨⟨hxt, hne n' y (hr.seen n' x y (.inr hseen)).2⟩, .inr hseen⟩
    obtain ⟨⟨hxt, hyt⟩, hseen⟩ := hboth
    rw [hman _ _ hxt] at hx
    rw [hman _ _ hyt] at hy
    refine (h.separated.apart n' x y hx hy hseen).imp (fun hle => ?_) fun hp => ?_
    · have hhi := State.hi_le (hman _ _ hxt) (htight _ _ hxt)
      exact hhi.trans (hle.trans (State.lo_le (hman _ _ hyt) (htight _ _ hyt)))
    · rw [State.Pending, hman _ _ hxt, hman _ _ hyt]
      exact hp

end

/-- Whoever has validated is apart from those it has seen. -/
theorem apart_of_checked {x y : ℕ} (hx : (s.man n x).stage.Alive) (hy : (s.man n y).stage.Alive)
    (hseen : x ∈ (s.man n y).sets.uncommittedReads ∧ (s.man n y).stage.Checked ∨
      y ∈ (s.man n x).sets.uncommittedWrites ∧ (s.man n x).stage.Checked) :
    s.hi n x ≤ s.lo n y := by
  refine (h.separated.apart n x y hx hy (hseen.imp And.left And.left)).resolve_right ?_
  rintro ⟨-, hxy, hyx⟩
  rcases hseen with ⟨hmem, hch⟩ | ⟨hmem, hch⟩
  · exact hxy hmem hch
  · exact hyx hmem hch

variable [DecidableEq R]

/-- A transaction enters a row. -/
theorem enter {r : R} {row : RowMaat} (hrun : (s.man (C.loc r) t).stage = .running)
    (hhome : (s.man (C.home t) t).stage = .running)
    (henter : Enters type t (s.row r) row (s.man (C.loc r) t).sets m.sets)
    (hm : m.stage = .copying r type (s.row r).installs) :
    Advances C s ((s.setRow r row).setMan (C.loc r) t m) := by
  set s' := (s.setRow r row).setMan (C.loc r) t m with hs'
  have hself : s'.man (C.loc r) t = m := State.setMan_self
  have hman : ∀ n' t', ¬ (n' = C.loc r ∧ t' = t) → s'.man n' t' = s.man n' t' :=
    fun n' t' => State.setMan_ne
  have hlast : ∀ r', (s'.row r').timestampLastRead = (s.row r').timestampLastRead ∧
      (s'.row r').timestampLastWrite = (s.row r').timestampLastWrite :=
    (forall_update_iff s.row fun r' row => row.timestampLastRead = (s.row r').timestampLastRead ∧
      row.timestampLastWrite = (s.row r').timestampLastWrite).mpr
        ⟨henter.last, fun _ _ => ⟨rfl, rfl⟩⟩
  have hmlo : m.lo (s.table (C.loc r)) t = max ((s.table (C.loc r)).getLower t)
      (max (m.sets.greatestWriteTimestamp + 1) (m.sets.greatestReadTimestamp + 1)) := by
    rw [lo, hm]
  have hlo : ∀ n' t', s.lo n' t' ≤ s'.lo n' t' := by
    have hle : s.lo (C.loc r) t ≤ m.lo (s.table (C.loc r)) t := by
      have hread : (s.man (C.loc r) t).sets.greatestReadTimestamp ≤
          m.sets.greatestReadTimestamp := by
        rw [henter.greatestRead]
        split
        · exact le_max_left _ _
        · exact le_rfl
      rw [hmlo, State.lo, lo, hrun, henter.greatestWrite]
      dsimp only
      omega
    exact State.forall_setMan
      (P := fun n' t' m' => s.lo n' t' ≤ m'.lo (s.table n') t') (fun _ _ => le_rfl) hle
  have hhi : ∀ n' t', s'.hi n' t' = s.hi n' t' := by
    have heq : m.hi (s.table (C.loc r)) t = s.hi (C.loc r) t := by
      rw [State.hi, hi, hi, hm, hrun]
    exact State.forall_setMan
      (P := fun n' t' m' => m'.hi (s.table n') t' = s.hi n' t') (fun _ _ => rfl) heq
  have halive : ∀ n' t', (s'.man n' t').stage.Alive → (s.man n' t').stage.Alive := by
    apply State.forall_setMan
      (P := fun n' t' m' => m'.stage.Alive → (s.man n' t').stage.Alive) (fun _ _ => id)
    exact fun _ => hrun ▸ trivial
  refine ⟨?_, fun n' t' _ => halive n' t', fun n' t' _ _ => hlo n' t',
    fun n' t' _ _ => (hhi n' t').le⟩
  refine h.of_man hman (fun _ _ _ => .refl _) (fun n' t' _ => h.stage n' t') ?_ (h.upper _ t) ?_
    (fun r' => by rw [RowMaat.Stamped, (hlast r').1, (hlast r').2]; exact h.last r') ?_
    ⟨fun r' y hy hal => ?_, fun n' x y hx hy hseen => ?_⟩
  · have hstage := h.stage (C.loc r) t
    rw [StageInv, hrun] at hstage
    rw [StageInv, hself, hm]
    exact hstage
  · rw [hself, Sets.Stamped, henter.greatestWrite, henter.greatestRead]
    refine ⟨max_lt (h.greatest _ t).1 (h.last r).2, ?_⟩
    split
    · exact max_lt (h.greatest _ t).2 (h.last r).1
    · exact (h.greatest _ t).2
  · by_cases hloc : C.home t = C.loc r
    · rw [HomeInv, hloc, hself, hm]
      trivial
    · rw [HomeInv, hman _ _ fun h => hloc h.1, hhome]
      trivial
  · rw [(hlast r').1]
    rcases ((henter.setRow r').2 y).mp hy with hy' | ⟨rfl, rfl, rfl⟩
    · exact (h.separated.reads r' y hy' (halive _ y hal)).trans_le (hlo _ y)
    · -- a writer has seen the last read
      have heq : s'.lo (C.loc r') y = m.lo (s.table (C.loc r')) y := by
        rw [State.lo, hself]
        rfl
      rw [heq, hmlo, henter.greatestRead, if_pos rfl]
      omega
  · have hrow : ∀ r', (∀ x ∈ (s.row r').uncommittedReads, x ∈ (s'.row r').uncommittedReads) ∧
        ∀ x ∈ (s.row r').uncommittedWrites, x ∈ (s'.row r').uncommittedWrites := fun r' =>
      ⟨fun x hx => ((henter.setRow r').1 x).mpr (.inl hx),
        fun x hx => ((henter.setRow r').2 x).mpr (.inl hx)⟩
    have hchecked : ∀ n' t', (s'.man n' t').stage.Checked →
        (s'.man n' t').sets = (s.man n' t').sets ∧ (s.man n' t').stage.Checked := by
      apply State.forall_setMan (P := fun n' t' m' => m'.stage.Checked →
        m'.sets = (s.man n' t').sets ∧ (s.man n' t').stage.Checked) (fun _ _ hch => ⟨rfl, hch⟩)
      intro hch
      rw [hm] at hch
      exact hch.elim
    -- those that had seen each other before
    have hold : x ∈ (s.man n' y).sets.uncommittedReads ∨ y ∈ (s.man n' x).sets.uncommittedWrites →
        s'.hi n' x ≤ s'.lo n' y ∨ s'.Pending C n' x y := by
      intro hseen
      rcases h.separated.apart n' x y (halive _ _ hx) (halive _ _ hy) hseen with
        hle | ⟨⟨r', hr', hxr, hyr⟩, hxy, hyx⟩
      · exact .inl ((hhi n' x).trans_le (hle.trans (hlo n' y)))
      · refine .inr
          ⟨⟨r', hr', (hrow r').1 x hxr, (hrow r').2 y hyr⟩, fun hmem hch => ?_, fun hmem hch => ?_⟩
        · obtain ⟨hsets, hch⟩ := hchecked n' y hch
          exact hxy (hsets ▸ hmem) hch
        · obtain ⟨hsets, hch⟩ := hchecked n' x hch
          exact hyx (hsets ▸ hmem) hch
    by_cases hbefore : x ∈ (s.man n' y).sets.uncommittedReads ∨
      y ∈ (s.man n' x).sets.uncommittedWrites
    · exact hold hbefore
    · rw [not_or] at hbefore
      -- one of the two has just come to the row of the other
      have hat : ∃ r', C.loc r' = n' ∧ x ∈ (s'.row r').uncommittedReads ∧
          y ∈ (s'.row r').uncommittedWrites := by
        rcases hseen with hseen | hseen
        · by_cases hyt : n' = C.loc r ∧ y = t
          · obtain ⟨rfl, rfl⟩ := hyt
            rw [hself, henter.seenReads] at hseen
            obtain ⟨rfl, hmem⟩ := hseen.resolve_left hbefore.1
            exact ⟨r, rfl, (hrow r).1 x hmem, ((henter.setRow r).2 y).mpr (.inr ⟨rfl, rfl, rfl⟩)⟩
          · rw [hman _ _ hyt] at hseen
            exact absurd hseen hbefore.1
        · by_cases hxt : n' = C.loc r ∧ x = t
          · obtain ⟨rfl, rfl⟩ := hxt
            rw [hself, henter.seenWrites] at hseen
            obtain ⟨rfl, hmem⟩ := hseen.resolve_left hbefore.2
            exact ⟨r, rfl, ((henter.setRow r).1 x).mpr (.inr ⟨rfl, rfl, rfl⟩), (hrow r).2 y hmem⟩
          · rw [hman _ _ hxt] at hseen
            exact absurd hseen hbefore.2
      refine .inr ⟨hat, fun hmem hch => ?_, fun hmem hch => ?_⟩
      · exact hbefore.1 ((hchecked n' y hch).1 ▸ hmem)
      · exact hbefore.2 ((hchecked n' x hch).1 ▸ hmem)

/-- A row is given back. -/
theorem dropRow {s₀ : State R} {r : R} {row : RowMaat} (ht : Tighter s₀ s) (hn : C.loc r = n)
    (hleave : Leaves type t (s.row r) row) (hlast : row.Stamped)
    (hreads : ∀ y ∈ row.uncommittedWrites, (s.man n y).stage.Alive →
      (s.row r).timestampLastRead < s.lo n y → row.timestampLastRead < s.lo n y)
    (hwriters : type = .RD → (s.man n t).stage.Alive → ∀ y ∈ row.uncommittedWrites,
      (s.man n y).stage.Alive → s.hi n t ≤ s.lo n y)
    (hreaders : type = .WR → (s.man n t).stage.Alive → ∀ x ∈ row.uncommittedReads,
      (s.man n x).stage.Alive → s.hi n x ≤ s.lo n t) :
    Advances C s₀ (s.setRow r row) := by
  subst hn
  have hrow : ∀ r' x y, x ∈ (s.row r').uncommittedReads → y ∈ (s.row r').uncommittedWrites →
      (x ∈ ((s.setRow r row).row r').uncommittedReads ∧
        y ∈ ((s.setRow r row).row r').uncommittedWrites) ∨
      r' = r ∧ (type = .RD ∧ x = t ∧ y ∈ row.uncommittedWrites ∨
        type = .WR ∧ y = t ∧ x ∈ row.uncommittedReads) := by
    intro r' x y hx hy
    rcases eq_or_ne r' r with rfl | hne
    · rw [State.setRow_self, hleave.reads, hleave.writes]
      by_cases hxt : type = .RD ∧ x = t
      · refine .inr ⟨rfl, .inl ⟨hxt.1, hxt.2, hy, ?_⟩⟩
        rintro ⟨htype, -⟩
        exact nomatch hxt.1.symm.trans htype
      · by_cases hyt : type = .WR ∧ y = t
        · exact .inr ⟨rfl, .inr ⟨hyt.1, hyt.2, hx, hxt⟩⟩
        · exact .inl ⟨⟨hx, hxt⟩, hy, hyt⟩
    · rw [State.setRow_ne hne]
      exact .inl ⟨hx, hy⟩
  refine ⟨⟨h.stage, h.upper, h.greatest, (forall_update_iff s.row fun _ row => row.Stamped).mpr
      ⟨hlast, fun r' _ => h.last r'⟩, h.home, fun r' y hy hal => ?_, fun n' x y hx hy hseen => ?_⟩,
    ht.alive, ht.lo, ht.hi⟩
  · rcases eq_or_ne r' r with rfl | hne
    · rw [State.setRow_self] at hy ⊢
      exact hreads y hy hal (h.separated.reads r' y ((hleave.writes y).mp hy).1 hal)
    · rw [State.setRow_ne hne] at hy ⊢
      exact h.separated.reads r' y hy hal
  · rcases h.separated.apart n' x y hx hy hseen with hle | ⟨⟨r', rfl, hxr, hyr⟩, hpend⟩
    · exact .inl hle
    · rcases hrow r' x y hxr hyr with hat | ⟨rfl, ⟨htype, rfl, hmem⟩ | ⟨htype, rfl, hmem⟩⟩
      · exact .inr ⟨⟨r', rfl, hat⟩, hpend⟩
      · exact .inl (hwriters htype hx y hmem hy)
      · exact .inl (hreaders htype hy x hmem hx)

section

variable (hr : Registered C s)

include hr

section

variable (hst : (s.man n t).stage = .committing lower (a :: left))

include hst

omit [DecidableEq R] in
/-- A transaction that commits moves others, and goes on to the next row. -/
theorem forward (hself : tt t = s.table n t) (htight : ∀ x, Tightens (s.table n x) (tt x))
    (hfixed : ∀ x, x ≠ t → (s.man n x).stage.Fixed → StageInv (tt x) (s.man n x)) :
    Advances C s ((s.setTable n tt).setStage n t (.committing lower left)) := by
  apply h.advance hr
  · rfl
  · exact fun x _ => htight x
  · intro x hx
    by_cases hfix : (s.man n x).stage.Fixed
    · exact hfixed x hx hfix
    · exact (h.stage n x).tighten (htight x) hfix
  · have hold := h.stage n t
    rw [StageInv, hst] at hold
    exact hself ▸ hold
  · exact hself ▸ h.upper n t
  · exact fun _ => hst ▸ trivial
  · intro _
    rw [State.lo, lo, lo, hst]
  · intro _
    rw [State.hi, hi, hi, hst]
    exact le_rfl
  · exact fun _ _ => .inl (hst ▸ trivial)
  · exact fun _ _ _ _ => trivial
  · rintro rfl
    exact h.home_commits hst rfl

/-- **Forward validation of a read** brings the later writers of the row behind the reader. -/
theorem commitRead (ha : a.type = .RD) : Advances C s (s.committed n t lower a left) := by
  obtain ⟨-, -, -, -, -, -, -, hmax⟩ := h.committing hst
  obtain ⟨hreg, hn⟩ := hr.next (.inl ⟨_, hst⟩)
  simp only [State.committed, ha] at hreg ⊢
  set c := (s.man n t).commitTimestamp with hc
  have hat : t ∈ (s.row a.row).uncommittedReads := (hr.reads a.row t).mpr (hn ▸ hreg)
  have hnotin : t ∉ (s.row a.row).uncommittedWrites := hr.not_both hat
  have hal : (s.man n t).stage.Alive ∧ (s.man n t).stage.Checked :=
    hst ▸ ⟨trivial, trivial⟩
  have hhi : s.hi n t = c + 1 := by rw [State.hi, hi, hst]
  simp only [RowMaat.commit, u64_of_le hmax]
  set later := ((s.row a.row).commitRead t c).uncommittedWrites.toList.filter
    (· ∉ (s.man n t).sets.uncommittedWrites) with hlater
  have hmem : ∀ y, y ∈ later ↔ y ∈ (s.row a.row).uncommittedWrites ∧
      y ∉ (s.man n t).sets.uncommittedWrites := by
    intro y
    rw [hlater, mem_filter, OrderedSet.mem_toList, decide_eq_true_eq]
    rfl
  set tt := later.foldl (raiseLower c (c + 1)) (s.table n) with htt
  have happ : ∀ x, tt x = if x ∈ later then (s.table n x).map (.raise c (c + 1))
      else s.table n x := raiseAll_apply _ _ _ _
  have htight : ∀ x, Tightens (s.table n x) (tt x) :=
    raiseAll_tightens (Nat.le_succ c) _ _
  have hself : tt t = s.table n t := by
    rw [happ, if_neg fun h => hnotin ((hmem t).mp h).1]
  have hadv : Advances C s
      ((s.setTable n tt).setStage n t (.committing lower left)) := by
    refine h.forward hr hst hself htight fun x _ hfix => ?_
    rw [happ]
    split
    next hx =>
      -- what a later writer has promised is behind the reader already
      obtain ⟨hxw, hnew⟩ := (hmem x).mp hx
      have hseen := (hn ▸ hr.met a.row t x hat hxw).resolve_right hnew
      have hle := h.apart_of_checked hal.1 hfix.alive (.inl ⟨hseen, hfix.checked⟩)
      obtain ⟨e, he, hlow⟩ := (h.stage _ x).lower_of_fixed hfix
      rw [hhi, State.lo, ← hlow] at hle
      rw [he, map_some, TimeTableEntry.raise, if_neg (Nat.not_le_of_lt hle), ← he]
      exact h.stage _ x
    · exact h.stage _ x
  set s₁ := (s.setTable n tt).setStage n t (.committing lower left) with hs₁
  have hman : ∀ y, y ≠ t → s₁.man n y = s.man n y := fun y hy =>
    State.setStage_ne fun h => hy h.2
  have hself₁ : s₁.man n t =
      { s.man n t with stage := .committing lower left } :=
    State.setStage_self
  have hhi₁ : s₁.hi n t = c + 1 := by rw [State.hi, hself₁, hi]
  have hbehind : ∀ y ∈ (s.row a.row).uncommittedWrites, (s₁.man n y).stage.Alive →
      c < s₁.lo n y := by
    intro y hy haly
    have hyt : y ≠ t := fun h => hnotin (h ▸ hy)
    by_cases hseen : y ∈ (s.man n t).sets.uncommittedWrites
    · have hle : s₁.hi n t ≤ s₁.lo n y :=
        hadv.ordered.apart_of_checked (hself₁ ▸ trivial) haly
          (.inr ⟨hself₁ ▸ hseen, hself₁ ▸ trivial⟩)
      rwa [hhi₁] at hle
    · have hregy := hn ▸ (hr.writes a.row y).mp hy
      have htable : s₁.table n = tt := State.setTable_self
      rcases (hadv.ordered.stage n y).entry haly with ⟨lower', hc'⟩ | ⟨e, he, -,
        -, -, hle⟩
      · rw [hman y hyt] at hc'
        rw [registered, hc'] at hregy
        exact absurd hregy not_mem_nil
      · refine lt_of_lt_of_le ?_ hle
        rw [htable, happ, if_pos ((hmem y).mpr ⟨hy, hseen⟩)] at he
        obtain ⟨e', -, rfl⟩ := map_eq_some_iff.mp he
        exact TimeTableEntry.lt_raise e'
  have hleave :=
    RowMaat.commit_leaves .RD (s.row a.row) t c (s.man n t).sets (s.table n)
  apply hadv.ordered.dropRow hadv.tighter hn hleave
  · refine ⟨?_, (h.last a.row).2⟩
    simp only [RowMaat.commit, RowMaat.commitRead]
    split
    · exact hmax
    · exact (h.last a.row).1
  · intro y hy haly hlast
    simp only [RowMaat.commit, RowMaat.commitRead]
    split
    · exact hbehind y hy haly
    · exact hlast
  · intro _ _ y hy haly
    rw [hhi₁]
    exact hbehind y hy haly
  · simp

/-- **Forward validation of a write** brings the later readers of the row before the writer. -/
theorem commitWrite (ha : a.type = .WR) (hspares : SparesWriters s (.commitRow n t)) :
    Advances C s (s.committed n t lower a left) ∧
    ∀ x ∈ (s.row a.row).uncommittedReads, ((s.committed n t lower a left).man n x).stage.Alive →
      (s.committed n t lower a left).hi n x ≤ lower := by
  have hspares := hspares a (hst ▸ rfl) ha
  obtain ⟨e, he, -, hlow, -, hwritten, hle, hmax⟩  := h.committing hst
  obtain ⟨hreg, hn⟩ := hr.next (.inl ⟨_, hst⟩)
  simp only [State.committed, ha] at hreg ⊢
  set c := (s.man n t).commitTimestamp with hc
  have hpos : 0 < lower := Nat.zero_lt_of_lt hwritten
  have hat : t ∈ (s.row a.row).uncommittedWrites := (hr.writes a.row t).mpr (hn ▸ hreg)
  have hnotin : t ∉ (s.row a.row).uncommittedReads := fun h => hr.not_both h hat
  have hal : (s.man n t).stage.Alive ∧ (s.man n t).stage.Checked :=
    hst ▸ ⟨trivial, trivial⟩
  have hlo : s.lo n t = lower := by rw [State.lo, lo, hst]
  have hleave :=
    RowMaat.commit_leaves .WR (s.row a.row) t c (s.man n t).sets (s.table n)
  simp only [RowMaat.commit, getLower_of_some he, hlow, pred64_of_pos hpos (hle.trans hmax.le),
    pred64_of_pos (hpos.trans_le hle) hmax.le] at hleave ⊢
  set writers := ((s.row a.row).commitWrite t c).uncommittedWrites.toList.filter
    (· ∉ (s.man n t).sets.uncommittedWritesY) with hwriters
  set readers := ((s.row a.row).commitWrite t c).uncommittedReads.toList.filter
    (· ∉ (s.man n t).sets.uncommittedReads) with hreaders
  have hmemw : ∀ y, y ∈ writers ↔ (y ≠ t ∧ y ∈ (s.row a.row).uncommittedWrites) ∧
      y ∉ (s.man n t).sets.uncommittedWritesY := by
    intro y
    rw [hwriters, mem_filter, OrderedSet.mem_toList, decide_eq_true_eq]
    exact and_congr_left fun _ => OrderedSet.mem_erase
  have hmem : ∀ x, x ∈ readers ↔ x ∈ (s.row a.row).uncommittedReads ∧
      x ∉ (s.man n t).sets.uncommittedReads := by
    intro x
    rw [hreaders, mem_filter, OrderedSet.mem_toList, decide_eq_true_eq]
    rfl
  set tt₁ := writers.foldl (cutUpper c (c - 1)) (s.table n) with htt₁
  set tt := readers.foldl (cutUpper lower (lower - 1)) tt₁ with htt
  have happ₁ : ∀ x, tt₁ x = if x ∈ writers then (s.table n x).map (.cut c (c - 1))
      else s.table n x := cutAll_apply _ _ _ _
  have happ : ∀ x, tt x = if x ∈ readers then (tt₁ x).map (.cut lower (lower - 1)) else tt₁ x :=
    cutAll_apply _ _ _ _
  have htight : ∀ x, Tightens (s.table n x) (tt x) := fun x =>
    (cutAll_tightens (Nat.sub_le c 1) _ _ x).trans (cutAll_tightens (Nat.sub_le lower 1) _ _ x)
  have hself : tt t = s.table n t := by
    rw [happ, if_neg fun h => hnotin ((hmem t).mp h).1, happ₁,
      if_neg fun h => ((hmemw t).mp h).1.1 rfl]
  have hadv : Advances C s
      ((s.setTable n tt).setStage n t (.committing lower left)) := by
    refine h.forward hr hst hself htight fun x hx hfix => ?_
    -- the first loop spares it
    have hsame : tt₁ x = s.table n x := by
      rw [happ₁]
      split
      next hxw =>
        obtain ⟨⟨-, hxw⟩, hnew⟩ := (hmemw x).mp hxw
        obtain ⟨e', he', -⟩ := (h.stage _ x).lower_of_fixed hfix
        have hlt := hspares x hxw hx hnew hfix
        rw [getUpper_of_some he'] at hlt
        rw [he', map_some, TimeTableEntry.cut, if_neg (Nat.not_le_of_lt hlt)]
      · rfl
    rw [happ, hsame]
    split
    next hxr =>
      -- and the second cuts it where it ends
      obtain ⟨hxr, hnew⟩ := (hmem x).mp hxr
      have hseen := (hn ▸ hr.met a.row x t hxr hat).resolve_left hnew
      have hle' := h.apart_of_checked hfix.alive hal.1 (.inr ⟨hseen, hfix.checked⟩)
      rw [hlo] at hle'
      exact (h.stage _ x).cut hfix hpos hle'
    · exact h.stage _ x
  set s₁ := (s.setTable n tt).setStage n t (.committing lower left) with hs₁
  have hman : ∀ y, y ≠ t → s₁.man n y = s.man n y := fun y hy =>
    State.setStage_ne fun h => hy h.2
  have hself₁ : s₁.man n t =
      { s.man n t with stage := .committing lower left } :=
    State.setStage_self
  have hlo₁ : s₁.lo n t = lower := by rw [State.lo, hself₁, lo]
  have hbefore : ∀ x ∈ (s.row a.row).uncommittedReads, (s₁.man n x).stage.Alive →
      s₁.hi n x ≤ lower := by
    intro x hx halx
    have hxt : x ≠ t := fun h => hnotin (h ▸ hx)
    by_cases hseen : x ∈ (s.man n t).sets.uncommittedReads
    · have hle' : s₁.hi n x ≤ s₁.lo n t :=
        hadv.ordered.apart_of_checked halx (hself₁ ▸ trivial)
          (.inl ⟨hself₁ ▸ hseen, hself₁ ▸ trivial⟩)
      rwa [hlo₁] at hle'
    · have hregx := hn ▸ (hr.reads a.row x).mp hx
      have htable : s₁.table n = tt := State.setTable_self
      rcases (hadv.ordered.stage n x).entry halx with ⟨lower', hc'⟩ | ⟨e', he', -, -, hle', -⟩
      · rw [hman x hxt] at hc'
        rw [registered, hc'] at hregx
        exact absurd hregx not_mem_nil
      · refine hle'.trans ?_
        rw [htable, happ, if_pos ((hmem x).mpr ⟨hx, hseen⟩)] at he'
        obtain ⟨e'', -, rfl⟩ := map_eq_some_iff.mp he'
        exact TimeTableEntry.cut_lt hpos e''
  refine ⟨hadv.ordered.dropRow hadv.tighter hn hleave ?_ (fun _ _ _ => id) ?_ ?_, hbefore⟩
  · refine ⟨(h.last a.row).1, ?_⟩
    simp only [RowMaat.commitWrite]
    split
    · exact hmax
    · exact (h.last a.row).2
  · simp
  · intro _ _ x hx halx
    rw [hlo₁]
    exact hbefore x hx halx

theorem commitRow (hspares : SparesWriters s (.commitRow n t)) :
    Advances C s (s.committed n t lower a left) := by
  cases htype : a.type with
  | RD => exact h.commitRead hr hst htype
  | WR => exact (h.commitWrite hr hst htype hspares).1
  | XP | SCAN =>
    -- nothing is done for other types
    simp only [State.committed, htype, RowMaat.commit]
    rw [State.setRow_eq_self]
    exact h.forward hr hst rfl (fun _ => .refl _) fun x _ _ => h.stage n x

end

theorem abortRow {bounds : Option (ℕ × ℕ)}
    (hst : (s.man n t).stage = .aborting bounds (a :: left)) :
    Advances C s
      ((s.setRow a.row ((s.row a.row).abort a.type t)).setStage n t (.aborting bounds left)) := by
  obtain ⟨-, hn⟩ := hr.next (.inr ⟨_, hst⟩)
  have hadv : Advances C s (s.setStage n t (.aborting bounds left)) :=
    h.giveUp_same hr (.inr rfl) trivial fun _ _ _ _ => trivial
  have hleave := RowMaat.abort_leaves a.type (s.row a.row) t
  have hdead : ¬ ((s.setStage n t (.aborting bounds left)).man
      n t).stage.Alive := by
    rw [State.setStage_self]
    exact id
  have hlast : ((s.row a.row).abort a.type t).timestampLastRead = (s.row a.row).timestampLastRead ∧
      ((s.row a.row).abort a.type t).timestampLastWrite = (s.row a.row).timestampLastWrite := by
    cases a.type <;> exact ⟨rfl, rfl⟩
  apply hadv.ordered.dropRow hadv.tighter hn hleave
  · rw [RowMaat.Stamped, hlast.1, hlast.2]
    exact h.last a.row
  · rw [hlast.1]
    exact fun _ _ _ => id
  · exact fun _ hal => absurd hal hdead
  · exact fun _ hal => absurd hal hdead

end

end

end Ordered

/-- A transaction forgets whom it has seen. -/
theorem Ordered.forget {n t : ℕ} (h : Ordered C s) : Ordered C (s.forget n t) := by
  have hstage := s.forget_stage n t
  have hcommit := State.forall_forget (n := n) (t := t)
    (P := fun n t m => m.commitTimestamp = (s.man n t).commitTimestamp) (fun _ _ => rfl) rfl
  refine ⟨State.forall_forget (P := fun n t m => StageInv (s.table n t) m) h.stage (h.stage n t),
    h.upper, State.forall_forget (P := fun _ _ m => m.sets.Stamped) h.greatest (h.greatest n t),
    h.last, fun t' => ?_,
    fun r y hy hal => ?_, fun n' x y hx hy hseen => ?_⟩
  · simp only [HomeInv, hstage, hcommit]
    exact h.home t'
  · rw [hstage] at hal
    exact (h.separated.reads r y hy hal).trans_eq (State.forget_lo ..).symm
  · rw [hstage] at hx hy
    rw [State.forget_hi, State.forget_lo, State.Pending, hstage, hstage]
    refine (h.separated.apart n' x y hx hy
      (hseen.imp State.forget_reads State.forget_writes)).imp_right ?_
    exact fun ⟨hat, hxy, hyx⟩ =>
      ⟨hat, fun hmem => hxy (State.forget_reads hmem), fun hmem => hyx (State.forget_writes hmem)⟩

theorem Advances.forget {n t : ℕ} (h : Advances C s s') : Advances C s (s'.forget n t) := by
  refine ⟨h.ordered.forget, fun n' t' hne hal => ?_, fun n' t' hne hal => ?_,
    fun n' t' hne hal => ?_⟩
  all_goals rw [State.forget_stage] at hal
  · exact h.tighter.alive n' t' hne hal
  · rw [State.forget_lo]
    exact h.tighter.lo n' t' hne hal
  · rw [State.forget_hi]
    exact h.tighter.hi n' t' hne hal

variable [DecidableEq R]

theorem ordered_init : Ordered C (machine C).init where
  stage _ _ := rfl
  upper _ _ _ h := nomatch h
  greatest _ _ := ⟨zero_lt_max, zero_lt_max⟩
  last _ := ⟨zero_lt_max, zero_lt_max⟩
  home _ := trivial
  separated := ⟨fun _ _ _ h => h.elim, fun _ _ _ h => h.elim⟩

/-- **Every step keeps readers and writers in order**, if forward validation spares the writers that
have voted or decided. -/
theorem ordered_step (h : Ordered C s) (hr : Registered C s) {a : Action R}
    (hok : SparesWriters s a) (hs : (machine C).step s a = some s') : Advances C s s' := by
  cases step_cases hs with
  | start hidle _ hw hrd hhome => exact h.start hr hidle hw hrd hhome
  | access hrun hhome htype hrow => exact h.enter hrun hhome (RowMaat.access_enters htype _ _ _) rfl
  | copy hst => exact h.copy hr hst _
  | prepare hst => exact h.prepare hr hst
  | validateHome hst hacks hval => exact h.validateHome hr hst hacks hval
  | validateAway hn hst _ hval => exact h.validate hr (.inl hst) hval fun hn' => absurd hn' hn
  | @refuse n t rc tt hst hrc hval =>
    have hval' := validate_refused (h.greatest n t) hval hrc
    apply h.giveUp hr (.inl rfl) trivial
    · intro hn lower upper hw
      obtain ⟨-, hst, -⟩ := hst.resolve_left (by rintro ⟨_, hn', _⟩; exact hn hn')
      rw [hst] at hw
      exact hw.elim
    · exact hval'.1
    · exact fun e he => (hval'.2 e he).trans h.getUpper_le
  | vote hn hst => exact h.vote hr hn hst
  | voteAbort | abort | rfinAbort =>
    exact h.giveUp_same hr (.inr rfl) trivial fun _ _ _ _ => trivial
  | processRackPrep hst hvote _ hn => exact h.processRackPrep hr hst hvote hn
  | findBound hst hlt => exact h.findBound hr hst hlt _
  | @findBoundAbort t hst =>
    apply h.giveUp hr (.inl rfl) trivial
    · exact fun hn => absurd rfl hn
    · intro x hx
      rw [setState, modify_apply, if_neg hx]
    · intro e he
      rw [setState, modify_apply, if_pos rfl] at he
      obtain ⟨e', he', rfl⟩ := map_eq_some_iff.mp he
      exact h.upper _ t e' he'
  | rfinCommit hst ho => exact h.rfinCommit hr hst ho _
  | commitRow hst => exact h.commitRow hr hst hok
  | abortRow hst => exact h.abortRow hr hst
  | releaseCommit hst =>
    rw [State.finish_eq]
    exact (h.releaseCommit hr hst).forget
  | @releaseAbort n t bounds hst =>
    have hgone : (s.table n).release t t = none := by rw [release, update_self]
    rw [State.finish_eq]
    apply Advances.forget
    apply h.giveUp hr (.inr rfl)
    · exact hgone
    · exact fun _ _ _ _ => trivial
    · exact fun x hx => update_of_ne hx _ _
    · simp [hgone]

/-- **Readers and writers are ordered** in every run that spares the writers who have voted
or decided. -/
theorem reachable_ordered {ok : State R → Action R → Prop}
    (hspares : ∀ s a, ok s a → SparesWriters s a) (hs : (machine C).ReachableVia ok s) :
    Ordered C s :=
  hs.invariant ordered_init fun s a _ hs h hok hstep =>
    (ordered_step h (reachable_registered hs.reachable) (hspares s a hok) hstep).ordered

end Maat

end Deneva
