import Deneva.Maat

/-!
# What `Maat::validate` leaves behind

`Maat` says of a successful validation what serializability needs. Here is the whole of it, for any
time table and any sets, with numbers that do not wrap around:

* `CheckExact`: what the loops over the three sets settle, strictly, and whom they mean to move;
* `squeezeUpper_keeps`: the assertion at the end of `validate` cannot fail;
-/

namespace Deneva

open Option

namespace Maat

open TimeTable

/-- A bound that is stored: small, or not set. -/
def Small (n : ℕ) : Prop := n < 2 ^ 63 ∨ n = UINT64_MAX

/-- A bound that is computed from those. -/
def NearSmall (n : ℕ) : Prop := n ≤ 2 ^ 63 ∨ n = UINT64_MAX

variable {n : ℕ} {tt : TimeTable} {b : Bounds}

theorem Small.near (h : Small n) : NearSmall n := h.imp Nat.le_of_lt id

theorem Small.le_max (h : Small n) : n ≤ UINT64_MAX := by
  simp only [Small, UINT64_MAX] at *
  omega

/-- One past a bound. -/
theorem Small.raise (h : Small n) : NearSmall (if n < UINT64_MAX then n + 1 else n) := by
  split
  next hlt =>
    exact .inl (h.resolve_right hlt.ne)
  · exact h.near

/-- All bounds of a time table are small. -/
def TimeTable.AllSmall (tt : TimeTable) : Prop :=
  ∀ x e, tt x = some e → Small e.lower ∧ Small e.upper

theorem TimeTable.AllSmall.upper (h : tt.AllSmall) (x : ℕ) : Small (tt.getUpper x) := by
  rw [getUpper]
  split
  · exact (h x _ ‹_›).2
  · exact .inr rfl

theorem TimeTable.AllSmall.lower (h : tt.AllSmall) (x : ℕ) : Small (tt.getLower x) := by
  rw [getLower]
  split
  · exact (h x _ ‹_›).1
  · exact .inl (by decide)

/-! ## The loops over the three sets -/

section

variable (tt : TimeTable) (b : Bounds) (it : ℕ)

/-- What the loop over `uncommitted_writes` settles. -/
def WriteSettled (it : ℕ) (b : Bounds) : Prop :=
  tt.getState it ≠ .ABORTED → it ∈ b.after ∨ b.upper < tt.getLower it ∨ b.upper = 0

/-- What the loop over `uncommitted_writes_y` settles. -/
def WriteYSettled (it : ℕ) (b : Bounds) : Prop :=
  (tt.getState it = .RUNNING → it ∈ b.after) ∧
    (tt.getState it = .VALIDATED ∨ tt.getState it = .COMMITTED →
      tt.getUpper it < b.lower ∨ UINT64_MAX ≤ b.lower)

theorem checkWrite_settles : WriteSettled tt it (checkWrite tt b it) := by
  have hcut : WriteSettled tt it
      { b with upper := if tt.getLower it > 0 then tt.getLower it - 1 else tt.getLower it } := by
    intro _
    dsimp only
    split <;> omega
  rw [checkWrite]
  split
  · split
    · exact hcut
    · exact hcut
    · exact fun _ => .inl (OrderedSet.mem_insert.mpr (.inl rfl))
    · exact fun h => absurd ‹_› h
  · exact fun _ => .inr (.inl (Nat.lt_of_not_le ‹_›))

theorem checkWriteY_settles : WriteYSettled tt it (checkWriteY tt b it) := by
  have hraise : WriteYSettled tt it (if b.lower ≤ tt.getUpper it then
      { b with lower := if tt.getUpper it < UINT64_MAX then tt.getUpper it + 1 else tt.getUpper it }
      else b) ∨ tt.getState it = .RUNNING := by
    by_cases hrun : tt.getState it = .RUNNING
    · exact .inr hrun
    · refine .inl ⟨fun h => absurd h hrun, fun _ => ?_⟩
      split
      · dsimp only
        split <;> omega
      · exact .inl (Nat.lt_of_not_le ‹_›)
  rw [checkWriteY]
  split
  next hst =>
    simp [WriteYSettled, hst]
  next hst =>
    exact hraise.resolve_right (by simp [hst])
  next hst =>
    exact hraise.resolve_right (by simp [hst])
  next hst =>
    exact ⟨fun _ => OrderedSet.mem_insert.mpr (.inl rfl), by simp [hst]⟩

/-- Whoever is to be moved is the transaction that was looked at, or was to be moved before. -/
theorem mem_checkWrite (x : ℕ) : (x ∈ (checkWrite tt b it).before → x ∈ b.before) ∧
    (x ∈ (checkWrite tt b it).after → x = it ∨ x ∈ b.after) := by
  rw [checkWrite]
  split
  · split
    · exact ⟨id, .inr⟩
    · exact ⟨id, .inr⟩
    · exact ⟨id, OrderedSet.mem_insert.mp⟩
    · exact ⟨id, .inr⟩
  · exact ⟨id, .inr⟩

@[inherit_doc mem_checkWrite]
theorem mem_checkRead (x : ℕ) : (x ∈ (checkRead tt b it).before → x = it ∨ x ∈ b.before) ∧
    (x ∈ (checkRead tt b it).after → x ∈ b.after) := by
  rw [checkRead]
  split
  · split
    · exact ⟨.inr, id⟩
    · exact ⟨.inr, id⟩
    · exact ⟨OrderedSet.mem_insert.mp, id⟩
    · exact ⟨.inr, id⟩
  · exact ⟨.inr, id⟩

@[inherit_doc mem_checkWrite]
theorem mem_checkWriteY (x : ℕ) : (x ∈ (checkWriteY tt b it).before → x ∈ b.before) ∧
    (x ∈ (checkWriteY tt b it).after → x = it ∨ x ∈ b.after) := by
  rw [checkWriteY]
  split
  · exact ⟨id, .inr⟩
  · split <;> exact ⟨id, .inr⟩
  · split <;> exact ⟨id, .inr⟩
  · exact ⟨id, OrderedSet.mem_insert.mp⟩

theorem checkWrite_lower : (checkWrite tt b it).lower = b.lower := by
  rw [checkWrite]
  split
  · split <;> rfl
  · rfl

variable {tt b}

theorem checkRead_near (htt : tt.AllSmall) (h : NearSmall b.lower) :
    NearSmall (checkRead tt b it).lower := by
  have hraise := (htt.upper it).raise
  rw [checkRead]
  split
  · split
    · exact hraise
    · exact hraise
    · exact h
    · exact h
  · exact h

theorem checkWriteY_near (htt : tt.AllSmall) (h : NearSmall b.lower) :
    NearSmall (checkWriteY tt b it).lower := by
  have hraise := (htt.upper it).raise
  rw [checkWriteY]
  split
  · exact h
  · split
    · exact hraise
    · exact h
  · split
    · exact hraise
    · exact h
  · exact h

variable {it} {b' : Bounds}

theorem WriteSettled.mono (h : WriteSettled tt it b) (hle : b ≤ b') : WriteSettled tt it b' := by
  intro hst
  have hup := hle.2.1
  rcases h hst with hmem | hlt | hzero
  · exact .inl (hle.2.2.2 it hmem)
  · exact .inr (.inl (hup.trans_lt hlt))
  · exact .inr (.inr (by omega))

theorem WriteYSettled.mono (h : WriteYSettled tt it b) (hle : b ≤ b') : WriteYSettled tt it b' :=
  ⟨fun hst => hle.2.2.2 it (h.1 hst),
    fun hst => (h.2 hst).imp (fun hlt => hlt.trans_le hle.1) (fun hmax => hmax.trans hle.1)⟩

end

/-- What the loops over the three sets settle, and whom they mean to move. -/
structure CheckExact (tt : TimeTable) (m : Sets) (b : Bounds) : Prop where
  /-- the uncommitted writes -/
  writes : ∀ x ∈ m.uncommittedWrites, WriteSettled tt x b
  /-- those that the transaction writes over -/
  writesY : ∀ x ∈ m.uncommittedWritesY, WriteYSettled tt x b
  /-- readers come before -/
  before : ∀ x ∈ b.before, x ∈ m.uncommittedReads
  /-- writers after -/
  after : ∀ x ∈ b.after, x ∈ m.uncommittedWrites ∨ x ∈ m.uncommittedWritesY
  /-- the lower bound -/
  near : NearSmall b.lower

/-- The loops over the three sets do what `CheckExact` says: what one element settles stays settled,
since the bounds only move on. -/
theorem check_exact {txn : ℕ} {m : Sets} (htt : tt.AllSmall)
    (hw : m.greatestWriteTimestamp < 2 ^ 63) (hr : m.greatestReadTimestamp < 2 ^ 63) :
    CheckExact tt m (check tt txn m) := by
  have hwmax : m.greatestWriteTimestamp + 1 ≤ UINT64_MAX := by
    simp only [UINT64_MAX]
    omega
  have hrmax : m.greatestReadTimestamp + 1 ≤ UINT64_MAX := by
    simp only [UINT64_MAX]
    omega
  rw [check, u64_of_le hwmax, u64_of_le hrmax]
  set lower := if tt.getLower txn ≤ m.greatestWriteTimestamp then m.greatestWriteTimestamp + 1
    else tt.getLower txn with hlower
  have hnear₀ : NearSmall lower := by
    rw [hlower]
    split
    · exact .inl hw
    · exact (htt.lower txn).near
  set b₀ : Bounds := ⟨lower, tt.getUpper txn, ∅, ∅⟩ with hb₀
  -- the loop over `uncommitted_writes`
  obtain ⟨h₁, hwrites⟩ := foldl_forward (fun b it => (checkWrite_spec tt b it).1)
    (fun b it => checkWrite_settles tt b it) (fun _ _ _ hle h => WriteSettled.mono h hle)
    m.uncommittedWrites.toList b₀
  have hmem₁ : (∀ x, x ∉ (m.uncommittedWrites.toList.foldl (checkWrite tt) b₀).before) ∧
      (∀ x ∈ (m.uncommittedWrites.toList.foldl (checkWrite tt) b₀).after, x ∈ m.uncommittedWrites) ∧
      NearSmall (m.uncommittedWrites.toList.foldl (checkWrite tt) b₀).lower := by
    apply List.foldlRecOn (motive := fun b : Bounds => (∀ x, x ∉ b.before) ∧
      (∀ x ∈ b.after, x ∈ m.uncommittedWrites) ∧ NearSmall b.lower)
    · exact ⟨fun x => OrderedSet.not_mem_empty,
        fun x hx => absurd hx OrderedSet.not_mem_empty, hnear₀⟩
    · rintro b ⟨hbefore, hafter, hnear⟩ it hit
      refine ⟨fun x hx => hbefore x ((mem_checkWrite tt b it x).1 hx), fun x hx => ?_, ?_⟩
      · rcases (mem_checkWrite tt b it x).2 hx with rfl | hx
        · exact hit
        · exact hafter x hx
      · rw [checkWrite_lower]
        exact hnear
  generalize m.uncommittedWrites.toList.foldl (checkWrite tt) b₀ = b₁ at h₁ hwrites hmem₁ ⊢
  set b₂ : Bounds := if b₁.lower ≤ m.greatestReadTimestamp then
    { b₁ with lower := m.greatestReadTimestamp + 1 } else b₁ with hb₂
  have h₂ : b₁ ≤ b₂ ∧ b₂.before = b₁.before ∧ b₂.after = b₁.after ∧ NearSmall b₂.lower := by
    rw [hb₂]
    split
    · exact ⟨⟨Nat.le_succ_of_le ‹_›, le_rfl, fun _ h => h, fun _ h => h⟩, rfl, rfl, .inl hr⟩
    · exact ⟨le_rfl, rfl, rfl, hmem₁.2.2⟩
  -- the loop over `uncommitted_reads`
  obtain ⟨h₃, -⟩ := foldl_forward (Q := fun _ _ => True) (fun b it => (checkRead_spec tt b it).1)
    (fun _ _ => trivial) (fun _ _ _ _ h => h) m.uncommittedReads.toList b₂
  have hmem₃ : (∀ x ∈ (m.uncommittedReads.toList.foldl (checkRead tt) b₂).before,
    x ∈ m.uncommittedReads) ∧
      (∀ x ∈ (m.uncommittedReads.toList.foldl (checkRead tt) b₂).after, x ∈ m.uncommittedWrites) ∧
      NearSmall (m.uncommittedReads.toList.foldl (checkRead tt) b₂).lower := by
    apply List.foldlRecOn (motive := fun b : Bounds => (∀ x ∈ b.before, x ∈ m.uncommittedReads) ∧
      (∀ x ∈ b.after, x ∈ m.uncommittedWrites) ∧ NearSmall b.lower)
    · rw [h₂.2.1, h₂.2.2.1]
      exact ⟨fun x hx => absurd hx (hmem₁.1 x), hmem₁.2.1, h₂.2.2.2⟩
    · rintro b ⟨hbefore, hafter, hnear⟩ it hit
      refine ⟨fun x hx => ?_, fun x hx => hafter x ((mem_checkRead tt b it x).2 hx),
        checkRead_near it htt hnear⟩
      rcases (mem_checkRead tt b it x).1 hx with rfl | hx
      · exact hit
      · exact hbefore x hx
  generalize m.uncommittedReads.toList.foldl (checkRead tt) b₂ = b₃ at h₃ hmem₃ ⊢
  -- the loop over `uncommitted_writes_y`
  obtain ⟨h₄, hwritesY⟩ := foldl_forward (fun b it => (checkWriteY_spec tt b it).1)
    (fun b it => checkWriteY_settles tt b it) (fun _ _ _ hle h => WriteYSettled.mono h hle)
    m.uncommittedWritesY.toList b₃
  have hmem₄ : (∀ x ∈ (m.uncommittedWritesY.toList.foldl (checkWriteY tt) b₃).before,
        x ∈ m.uncommittedReads) ∧
      (∀ x ∈ (m.uncommittedWritesY.toList.foldl (checkWriteY tt) b₃).after,
        x ∈ m.uncommittedWrites ∨ x ∈ m.uncommittedWritesY) ∧
      NearSmall (m.uncommittedWritesY.toList.foldl (checkWriteY tt) b₃).lower := by
    apply List.foldlRecOn (motive := fun b : Bounds => (∀ x ∈ b.before, x ∈ m.uncommittedReads) ∧
      (∀ x ∈ b.after, x ∈ m.uncommittedWrites ∨ x ∈ m.uncommittedWritesY) ∧ NearSmall b.lower)
    · exact ⟨hmem₃.1, fun x hx => .inl (hmem₃.2.1 x hx), hmem₃.2.2⟩
    · rintro b ⟨hbefore, hafter, hnear⟩ it hit
      refine ⟨fun x hx => hbefore x ((mem_checkWriteY tt b it x).1 hx), fun x hx => ?_,
        checkWriteY_near it htt hnear⟩
      rcases (mem_checkWriteY tt b it x).2 hx with rfl | hx
      · exact .inr hit
      · exact hafter x hx
  exact ⟨fun x hx => (hwrites x hx).mono (h₂.1.trans (h₃.trans h₄)), hwritesY, hmem₄.1, hmem₄.2.1,
    hmem₄.2.2⟩

/-! ## The loops over `before` and `after` -/

theorem TimeTable.AllSmall.setState (h : tt.AllSmall) (txn : ℕ) (state : MAATState) :
    (tt.setState txn state).AllSmall := by
  intro x e hx
  rw [TimeTable.setState, modify_apply] at hx
  split at hx
  · obtain ⟨e', he', rfl⟩ := map_eq_some_iff.mp hx
    exact h x e' he'
  · exact h x e hx

theorem squeezeLower_near (htt : tt.AllSmall) (l : List ℕ) (hb : NearSmall b.lower)
    (hmax : b.upper ≤ UINT64_MAX) : NearSmall (l.foldl (squeezeLower tt) b).lower := by
  induction l generalizing b with
  | nil => exact hb
  | cons it l ih =>
    rw [List.foldl_cons, squeezeLower]
    split
    next h =>
      refine ih (.inl ?_) hmax
      have hne : tt.getUpper it ≠ UINT64_MAX := by omega
      exact (htt.upper it).resolve_right hne
    · exact ih hb hmax

/-- **The assertion holds**: the first loop over `after` leaves the upper bound above the lower. -/
theorem squeezeUpper_keeps (tt : TimeTable) (l : List ℕ) (hlow : b.lower + 2 ≤ UINT64_MAX)
    (hb : b.lower < b.upper) (hmax : b.upper ≤ UINT64_MAX) :
    ∃ upper, b.lower < upper ∧ upper ≤ b.upper ∧
      l.foldl (squeezeUpper tt) b = { b with upper := upper } := by
  induction l generalizing b with
  | nil => exact ⟨b.upper, hb, le_rfl, rfl⟩
  | cons it l ih =>
    have htwo : tt.getUpper it > b.lower + 2 → tt.getUpper it < b.upper →
        u64 (tt.getUpper it + (UINT64_MAX - 1)) = tt.getUpper it - 2 := by
      intro hlt hup
      simp only [u64, UINT64_MAX] at *
      omega
    have hone : b.lower + 1 ≤ UINT64_MAX := by omega
    have hstep : ∃ upper, b.lower < upper ∧ upper ≤ b.upper ∧
        squeezeUpper tt b it = { b with upper := upper } := by
      simp only [squeezeUpper, u64_of_le hlow]
      rw [apply_ite Bounds.lower, ite_self, u64_of_le hone]
      split
      next h =>
        rw [htwo h.2.1 h.2.2]
        dsimp only
        split
        · exact ⟨tt.getLower it - 1, by omega, by omega, rfl⟩
        · exact ⟨tt.getUpper it - 2, by omega, by omega, rfl⟩
      · split
        · exact ⟨tt.getLower it - 1, by omega, by omega, rfl⟩
        · exact ⟨b.upper, hb, le_rfl, rfl⟩
    obtain ⟨upper, hlt, hle, heq⟩ := hstep
    rw [List.foldl_cons, heq]
    obtain ⟨upper', hlt', hle', heq'⟩ :=
      ih (b := { b with upper := upper }) hlow hlt (hle.trans hmax)
    exact ⟨upper', hlt', hle'.trans hle, heq'⟩

/-- Those in `after` end up above the upper bound, as far as there are numbers above it. -/
theorem lt_getLower_pushAfter {x : ℕ} {e : TimeTableEntry}
    (hx : x ∈ b.after) (he : tt x = some e) (hmax : b.upper ≤ UINT64_MAX) :
    b.upper < (pushAfter b tt).getLower x ∨ (pushAfter b tt).getLower x = UINT64_MAX := by
  have happ := raiseAll_apply b.upper (if b.upper < UINT64_MAX then b.upper + 1 else b.upper)
    b.after.toList tt x
  rw [if_pos (OrderedSet.mem_toList.mpr hx), he, map_some] at happ
  rw [pushAfter, getLower_of_some happ, TimeTableEntry.raise]
  split
  · dsimp only
    split <;> omega
  · omega

/-! ## The whole of it -/

/-- **The intervals are apart.** -/
structure Validated (tt tt' : TimeTable) (txn : ℕ) (m : Sets) : Prop where
  /-- the lower bound is past the writes that were committed -/
  written : m.greatestWriteTimestamp < tt'.getLower txn
  /-- and past the reads -/
  read : m.greatestReadTimestamp < tt'.getLower txn
  /-- there is something left -/
  nonempty : tt'.getLower txn < tt'.getUpper txn
  /-- uncommitted writes come later -/
  writes : ∀ x ∈ m.uncommittedWrites, tt.getState x ≠ .ABORTED →
    tt'.getUpper txn < tt'.getLower x ∨ tt'.getLower x = UINT64_MAX
  /-- and so do running writers of what the transaction writes -/
  writesY : ∀ x ∈ m.uncommittedWritesY, tt.getState x = .RUNNING →
    tt'.getUpper txn < tt'.getLower x ∨ tt'.getLower x = UINT64_MAX
  /-- uncommitted reads come earlier -/
  reads : ∀ x ∈ m.uncommittedReads, tt.getState x ≠ .ABORTED → tt'.getUpper x < tt'.getLower txn
  /-- and so do writers that have been validated -/
  settledY : ∀ x ∈ m.uncommittedWritesY, tt.getState x = .VALIDATED ∨ tt.getState x = .COMMITTED →
    tt'.getUpper x < tt'.getLower txn
  /-- only running transactions that were met are changed, and only tightened -/
  changed : ∀ x, x ≠ txn → tt' x ≠ tt x → tt.getState x = .RUNNING ∧
    (x ∈ m.uncommittedWrites ∨ x ∈ m.uncommittedReads ∨ x ∈ m.uncommittedWritesY) ∧ Tightens
    (tt x) (tt' x)

/-- The time table once the bounds are found. -/
theorem validated_of_bounds {txn : ℕ} {m : Sets} {b' : Bounds} {e : TimeTableEntry}
    (hcheck : CheckSpec tt txn m b) (hexact : CheckExact tt m b) (he : tt txn = some e)
    (hwrites : txn ∉ m.uncommittedWrites) (hreads : txn ∉ m.uncommittedReads)
    (hwritesY : txn ∉ m.uncommittedWritesY) (hmax : b.upper ≤ UINT64_MAX) (hlt : b.lower < b.upper)
    (hlt' : b'.lower < b'.upper) (hle : b ≤ b') (hbefore : b'.before = b.before)
    (hafter : b'.after = b.after) :
    Validated tt
      (writeBack txn b' (pushAfter b' (pushBefore b' (tt.setState txn .VALIDATED)))) txn m := by
  have hsep := hcheck.separates he hmax hlt hlt' hle hbefore hafter
  set tt' := writeBack txn b' (pushAfter b' (pushBefore b' (tt.setState txn .VALIDATED))) with htt'
  have hother : ∀ {x}, x ≠ txn → tt' x = pushAfter b' (pushBefore b' tt) x := by
    intro x hx
    rw [htt', writeBack_apply, if_neg hx]
    apply push_congr
    rw [TimeTable.setState, modify_apply, if_neg hx]
  have hself : ∃ st, tt' txn = some ⟨b'.lower, b'.upper, st⟩ := by
    obtain ⟨e', he', _⟩ := hsep.self
    have happ := he'
    rw [htt', writeBack_apply, if_pos rfl] at happ
    obtain ⟨e'', _, heq⟩ := map_eq_some_iff.mp happ
    exact ⟨e''.state, he'.trans (congrArg some heq.symm)⟩
  obtain ⟨st, hself⟩ := hself
  have hlow : tt'.getLower txn = b'.lower := getLower_of_some hself
  have hup : tt'.getUpper txn = b'.upper := getUpper_of_some hself
  have hpos : 0 < b'.upper := Nat.zero_lt_of_lt hlt'
  -- whoever is in `after` is pushed past the upper bound
  have hpushed : ∀ x, x ≠ txn → x ∈ b.after →
      tt'.getUpper txn < tt'.getLower x ∨ tt'.getLower x = UINT64_MAX := by
    intro x hne hx
    have hrunning : tt.getState x ≠ .ABORTED := by
      rw [hcheck.running.2 x hx]
      simp
    obtain ⟨e', he'⟩ := exists_of_state hrunning
    obtain ⟨e₁, he₁, -⟩ := (pushBefore_tightens b' tt x).of_some he'
    have hlower := lt_getLower_pushAfter (hafter ▸ hx) he₁ (hle.2.1.trans hmax)
    rw [getLower, ← hother hne] at hlower
    rw [hup]
    exact hlower
  have hne : ∀ {x : ℕ} {s : OrderedSet ℕ}, txn ∉ s → x ∈ s → x ≠ txn := by
    rintro x s hnot hx rfl
    exact hnot hx
  refine
    { written := hsep.written
      read := hsep.read
      nonempty := by rw [hlow, hup]; exact hlt'
      writes := fun x hx hst => ?_
      writesY := fun x hx hst => ?_
      reads := fun x hx hst => hsep.reads x hx (hne hreads hx) hst
      settledY := fun x hx hst => ?_
      changed := fun x hxne hchanged => ?_ }
  · have hxne := hne hwrites hx
    rcases hexact.writes x hx hst with hmem | hlt'' | hzero
    · exact hpushed x hxne hmem
    · refine .inl ?_
      rw [hup]
      exact (hle.2.1.trans_lt hlt'').trans_le (hsep.others x hxne).getLower_le
    · have := hle.2.1
      omega
  · exact hpushed x (hne hwritesY hx) ((hexact.writesY x hx).1 hst)
  · have hxne := hne hwritesY hx
    rcases (hexact.writesY x hx).2 hst with hlt'' | hmax'
    · rw [hlow]
      exact ((hsep.others x hxne).getUpper_le.trans_lt hlt'').trans_le hle.1
    · exact absurd (hmax'.trans_lt hlt) hmax.not_gt
  · have hmem : x ∈ b.before ∨ x ∈ b.after := by
      by_contra hno
      rw [not_or] at hno
      refine hchanged ((hother hxne).trans ?_)
      exact push_of_not_mem (hbefore ▸ hno.1) (hafter ▸ hno.2)
    rcases hmem with hmem | hmem
    · exact ⟨hcheck.running.1 x hmem, .inr (.inl (hexact.before x hmem)), hsep.others x hxne⟩
    · refine ⟨hcheck.running.2 x hmem, ?_, hsep.others x hxne⟩
      exact (hexact.after x hmem).imp_right .inr

/-- **What `validate` leaves behind**, for any time table and any sets: the assertion at its end
holds; with `RCOK` the interval of the transaction and those of everybody it met are apart; and with
`Abort` only the entry of the transaction itself is changed. -/
theorem validate_separates {tt : TimeTable} {txn : ℕ} {m : Sets} {e : TimeTableEntry}
    (he : tt txn = some e) (hwrites : txn ∉ m.uncommittedWrites) (hreads : txn ∉ m.uncommittedReads)
    (hwritesY : txn ∉ m.uncommittedWritesY) (htt : tt.AllSmall)
    (hw : m.greatestWriteTimestamp < 2 ^ 63) (hr : m.greatestReadTimestamp < 2 ^ 63) :
    (∃ tt', validate tt txn m = some (.RCOK, tt') ∧ Validated tt tt' txn m) ∨
      ∃ tt', validate tt txn m = some (.Abort, tt') ∧ tt'.getState txn = .ABORTED ∧
        ∀ x, x ≠ txn → tt' x = tt x := by
  have hm : m.Stamped := by
    simp only [Sets.Stamped, UINT64_MAX]
    omega
  have hcheck : CheckSpec tt txn m (check tt txn m) := check_spec hm
  have hexact : CheckExact tt m (check tt txn m) := check_exact htt hw hr
  have hmax : (check tt txn m).upper ≤ UINT64_MAX := hcheck.upper.trans (htt.upper txn).le_max
  simp only [validate]
  generalize check tt txn m = b at hcheck hexact hmax ⊢
  by_cases hab : b.lower ≥ b.upper
  · refine .inr ⟨_, if_pos hab, ?_, fun x hx => ?_⟩
    · have hself : writeBack txn b (tt.setState txn .ABORTED) txn =
          some ⟨b.lower, b.upper, .ABORTED⟩ := by
        rw [writeBack_apply, if_pos rfl, TimeTable.setState, modify_apply, if_pos rfl, he]
        rfl
      exact getState_of_some hself
    · rw [writeBack_apply, if_neg hx, TimeTable.setState, modify_apply, if_neg hx]
  · have hlt : b.lower < b.upper := Nat.lt_of_not_le hab
    have htt₁ := htt.setState txn .VALIDATED
    have hnear := squeezeLower_near htt₁ b.before.toList hexact.near hmax
    obtain ⟨lower, hlow, hlu, heq⟩ :=
      squeezeLower_loop (tt.setState txn .VALIDATED) b b.before.toList hlt
    rw [heq] at hnear
    have htwo : lower + 2 ≤ UINT64_MAX := by
      simp only [NearSmall, UINT64_MAX] at *
      omega
    obtain ⟨upper, hlt', hup, heq'⟩ := squeezeUpper_keeps
      (pushBefore { b with lower := lower } (tt.setState txn .VALIDATED)) b.after.toList
      (b := { b with lower := lower }) htwo hlu hmax
    have hbounds : b ≤ { b with lower := lower, upper := upper } :=
      ⟨hlow, hup, fun _ h => h, fun _ h => h⟩
    refine .inl
      ⟨_, ?_, validated_of_bounds hcheck hexact he hwrites hreads hwritesY hmax hlt hlt' hbounds
      rfl rfl⟩
    rw [if_neg hab, heq, heq', if_pos hlt']
    rfl

/-- A time table in which transaction 1 meets a running writer, a running reader and a validated
writer. -/
def metTable : TimeTable := fun x =>
  if x = 1 then some .init
  else if x = 2 then some ⟨0, UINT64_MAX, .RUNNING⟩
  else if x = 3 then some ⟨0, 40, .RUNNING⟩
  else if x = 4 then some ⟨5, 20, .VALIDATED⟩
  else none

/-- Its sets. -/
def metSets : Sets where
  uncommittedWrites := (∅ : OrderedSet ℕ).insert 2
  uncommittedWritesY := (∅ : OrderedSet ℕ).insert 4
  uncommittedReads := (∅ : OrderedSet ℕ).insert 3
  greatestWriteTimestamp := 7
  greatestReadTimestamp := 9

theorem metTable_small : metTable.AllSmall := by
  intro x e hx
  simp only [metTable] at hx
  split_ifs at hx <;> cases hx <;> simp [Small, TimeTableEntry.init]

theorem validate_separates_met : ∃ tt', validate metTable 1 metSets = some (.RCOK, tt') ∧
    tt'.getLower 1 = 41 ∧ Validated metTable tt' 1 metSets := by
  have hself : metTable 1 = some .init := rfl
  have hsep :=
    validate_separates (m := metSets) hself (by decide) (by decide) (by decide) metTable_small
    (by decide) (by decide)
  have hrun : (validate metTable 1 metSets).map (fun r => (r.1, r.2.getLower 1)) =
      some (.RCOK, 41) := by
    decide +kernel
  rcases hsep with ⟨tt', heq, hval⟩ | ⟨tt', heq, _⟩
  · rw [heq] at hrun
    exact ⟨tt', heq, (Prod.mk.inj (some.inj hrun)).2, hval⟩
  · rw [heq] at hrun
    cases (Prod.mk.inj (some.inj hrun)).1

end Maat

end Deneva
