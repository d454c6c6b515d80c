import Deneva.Occ

/-!
# The semaphore of a row under OCC (`concurrency_control/row_occ.cpp`)

`Row_occ::access` waits for and posts the semaphore of the row. `OptCC::per_row_validate` waits for
it in `latch`, and `row_t::return_row` posts it in `release`: for every access, when
`TxnManager::cleanup` goes back over them. Without `PER_ROW_VALID` nobody latches.

`machine` has every wait and every post as a step of its own, and the rows' `wts` that decide how
far a validation gets. The ghost field `inside` has who is between a wait and the post that matches
it.
-/

namespace Deneva

universe u v

open Function List Option

namespace RowOcc

open Occ (Access)

/-! ## Sorting the accesses -/

section Sorting

variable {R : Type v} (after : R → R → Bool)

/-- The inner loop of the sort in `per_row_validate`, over the first accesses. It has no result
where an assertion of `Array` fails, since the index is outside the accesses. -/
def bubble : ℕ → List (Access R) → Option (List (Access R))
  | 0, accesses => some accesses
  | j + 1, a :: b :: accesses =>
    if after a.row b.row then (bubble j (a :: accesses)).map (b :: ·)
    else (bubble j (b :: accesses)).map (a :: ·)
  | _ + 1, _ => none

/-- The outer loop. -/
def sortFrom : ℕ → List (Access R) → Option (List (Access R))
  | 0, accesses => some accesses
  | i + 1, accesses => (bubble after (i + 1) accesses).bind (sortFrom i)

/-- `get_access_cnt() - 1`, which wraps. -/
def lastIndex (cnt : ℕ) : ℕ := if cnt = 0 then UINT64_MAX else cnt - 1

/-- The sort. -/
def sortAccesses (accesses : List (Access R)) : Option (List (Access R)) :=
  sortFrom after (lastIndex accesses.length) accesses

/-- Without accesses the index wraps, and the first pass reads outside of them. -/
theorem sortAccesses_nil : sortAccesses after [] = none := by
  have hwrap : lastIndex 0 = UINT64_MAX - 1 + 1 := by decide
  rw [sortAccesses, length_nil, hwrap]
  rfl

end Sorting

/-! ## The machine -/

/-- How far a transaction is. -/
inductive Phase (R : Type v) where
  /-- between attempts -/
  | idle
  /-- it may access rows -/
  | running (startTs : ℕ) (accesses : List (Access R))
  /-- it is in `Row_occ::access` -/
  | accessing (startTs : ℕ) (accesses : List (Access R)) (row : R) (type : AccessT)
  /-- it is to latch the first of `rest` -/
  | validating (startTs : ℕ) (done rest : List (Access R))
  /-- it has latched that row -/
  | latched (startTs : ℕ) (done : List (Access R)) (a : Access R) (rest : List (Access R))
  /-- it is not validated, or that failed; these are the accesses it has latched and those it has
  not -/
  | failed (done rest : List (Access R))
  /-- it is validated -/
  | valid (done rest : List (Access R))
  /-- `cleanup` is to return these rows -/
  | cleaning (rc : RC) (endTs : ℕ) (rest : List (Access R))

/-- Rows and transactions. -/
structure State (T : Type u) (R : Type v) where
  /-- the value of `_semaphore` -/
  sem : R → ℕ
  wts : R → ℕ
  /-- who is between a wait and the post that matches it -/
  inside : R → List T
  /-- the transactions -/
  phase : T → Phase R

/-- A step. -/
inductive Action (T : Type u) (R : Type v) where
  | start (t : T) (startTs : ℕ)
  | accessWait (t : T) (row : R) (type : AccessT)
  | accessPost (t : T)
  /-- `per_row_validate` sorts -/
  | perRowValidate (t : T)
  | latch (t : T)
  /-- `Row_occ::validate` -/
  | validate (t : T)
  /-- `central_validate`, which does not use the semaphores of rows -/
  | centralValidate (t : T) (ok : Bool)
  | cleanup (t : T) (rc : RC) (endTs : ℕ)
  | returnRow (t : T)

variable {T : Type u} {R : Type v} [DecidableEq T] [DecidableEq R]

namespace State

/-- A transaction goes on. -/
def setPhase (s : State T R) (t : T) (p : Phase R) : State T R :=
  { s with phase := update s.phase t p }

/-- `sem_wait`. -/
def semWait (s : State T R) (t : T) (row : R) : Option (State T R) :=
  if 0 < s.sem row then
    some { s with
      sem := update s.sem row (s.sem row - 1)
      inside := update s.inside row (t :: s.inside row) }
  else none

/-- `sem_post`. -/
def semPost (s : State T R) (t : T) (row : R) : State T R :=
  { s with
    sem := update s.sem row (s.sem row + 1)
    inside := update s.inside row ((s.inside row).erase t) }

/-- `Row_occ::write`, as `return_row` calls it; it has no result where its assertion fails. -/
def write (s : State T R) (perRow : Bool) (rc : RC) (endTs : ℕ) (a : Access R) :
    Option (State T R) :=
  if a.type = .WR ∧ rc ≠ .Abort ∧ perRow then
    if s.wts a.row < endTs then some { s with wts := update s.wts a.row endTs } else none
  else some s

end State

/-- What `cleanup` goes over, from the last to the first. -/
def cleanupPhase (rc : RC) (endTs : ℕ) (accesses : List (Access R)) : Phase R :=
  if accesses.isEmpty then .idle else .cleaning rc endTs accesses

/-- The accesses of a transaction that may be cleaned up so: with `RCOK` only when it is
validated. -/
def Phase.cleanable : Phase R → RC → Option (List (Access R))
  | .running _ accesses, .Abort => some accesses
  | .failed done rest, .Abort => some (done ++ rest)
  | .valid done rest, .Abort => some (done ++ rest)
  | .valid done rest, .RCOK => some (done ++ rest)
  | _, _ => none

/-- All interleavings, with `PER_ROW_VALID` as it is set and the order of rows by table and key. -/
def machine (T : Type u) {R : Type v} [DecidableEq T] [DecidableEq R] (perRow : Bool)
    (after : R → R → Bool) : Machine (State T R) (Action T R) where
  init := ⟨fun _ => 1, fun _ => 0, fun _ => [], fun _ => .idle⟩
  step s
    | .start t startTs =>
      match s.phase t with
      | .idle => some (s.setPhase t (.running startTs []))
      | _ => none
    | .accessWait t row type =>
      match s.phase t with
      | .running startTs accesses =>
        (s.semWait t row).map (·.setPhase t (.accessing startTs accesses row type))
      | _ => none
    | .accessPost t =>
      match s.phase t with
      | .accessing startTs accesses row type =>
        some ((s.semPost t row).setPhase t
          (if startTs < s.wts row then .failed [] accesses
          else .running startTs (accesses ++ [⟨row, type⟩])))
      | _ => none
    | .perRowValidate t =>
      match s.phase t, perRow with
      | .running startTs accesses, true =>
        (sortAccesses after accesses).map fun accesses => s.setPhase t
          (.validating startTs [] accesses)
      | _, _ => none
    | .latch t =>
      match s.phase t with
      | .validating startTs done (a :: rest) =>
        (s.semWait t a.row).map (·.setPhase t (.latched startTs done a rest))
      | _ => none
    | .validate t =>
      match s.phase t with
      | .latched startTs done a rest =>
        some (s.setPhase t
          (if startTs < s.wts a.row then .failed (done ++ [a]) rest
          else if rest.isEmpty then .valid (done ++ [a]) []
          else .validating startTs (done ++ [a]) rest))
      | _ => none
    | .centralValidate t ok =>
      match s.phase t, perRow with
      | .running _ accesses, false =>
        some (s.setPhase t (if ok then .valid [] accesses else .failed [] accesses))
      | _, _ => none
    | .cleanup t rc endTs =>
      match (s.phase t).cleanable rc with
      | some accesses => some (s.setPhase t (cleanupPhase rc endTs accesses.reverse))
      | none => none
    | .returnRow t =>
      match s.phase t with
      | .cleaning rc endTs (a :: rest) =>
        (s.write perRow rc endTs a).map fun s =>
          (s.semPost t a.row).setPhase t (cleanupPhase rc endTs rest)
      | _ => none

/-- **The semaphores are binary.** -/
def Binary (s : State T R) : Prop := ∀ row, s.sem row + (s.inside row).length = 1

/-- A row is returned by a transaction that is inside. -/
def Matched (perRow : Bool) (s : State T R) : Action T R → Prop
  | .returnRow t =>
    match s.phase t with
    | .cleaning rc endTs (a :: _) => (s.write perRow rc endTs a).isSome → t ∈ s.inside a.row
    | _ => True
  | _ => True

/-! ## Waits and posts -/

section Lemmas

variable {perRow : Bool} {after : R → R → Bool} {s s' : State T R} {t : T} {row : R}

omit [DecidableEq R] in
theorem Binary.setPhase {p : Phase R} : Binary (s.setPhase t p) ↔ Binary s := Iff.rfl

omit [DecidableEq T] in
theorem Binary.semWait (h : Binary s) (hs : s.semWait t row = some s') : Binary s' := by
  obtain ⟨hpos, hs⟩ := ite_none_right_eq_some.mp hs
  cases hs
  intro r
  have hr := h r
  by_cases heq : r = row
  · subst heq
    simp only [update_self, length_cons]
    omega
  · simpa only [update_of_ne heq] using hr

/-- A post keeps the semaphore binary exactly when it matches a wait. -/
theorem Binary.semPost_iff (h : Binary s) : Binary (s.semPost t row) ↔ t ∈ s.inside row := by
  have hrow := h row
  constructor
  · intro hpost
    by_contra hnot
    have hpost := hpost row
    simp only [State.semPost, update_self, erase_of_not_mem hnot] at hpost
    omega
  · intro hmem r
    by_cases heq : r = row
    · subst heq
      have hpos : 0 < (s.inside r).length := length_pos_of_mem hmem
      simp only [State.semPost, update_self, length_erase_of_mem hmem]
      omega
    · simpa only [State.semPost, update_of_ne heq] using h r

/-- Who is in `Row_occ::access` is inside. -/
def Accessing (s : State T R) : Prop :=
  ∀ t startTs accesses row type, s.phase t = .accessing startTs accesses row type → t ∈ s.inside row

theorem mem_inside_of_semPost {u : T} {r : R} (hut : u ≠ t) (hu : u ∈ s.inside r) :
    u ∈ (s.semPost t row).inside r := by
  change u ∈ update s.inside row ((s.inside row).erase t) r
  by_cases heq : r = row
  · subst heq
    rw [update_self]
    exact (mem_erase_of_ne hut).mpr hu
  · rwa [update_of_ne heq]

section

variable (hs : s.semWait t row = some s')

include hs

omit [DecidableEq T] in
/-- Whoever is inside stays there when a transaction waits. -/
theorem mem_inside_of_semWait {u : T} {r : R} (hu : u ∈ s.inside r) : u ∈ s'.inside r := by
  obtain ⟨-, hs⟩ := ite_none_right_eq_some.mp hs
  cases hs
  change u ∈ update s.inside row (t :: s.inside row) r
  by_cases heq : r = row
  · subst heq
    rw [update_self]
    exact mem_cons_of_mem t hu
  · rwa [update_of_ne heq]

omit [DecidableEq T] in
theorem mem_inside_of_wait : t ∈ s'.inside row := by
  obtain ⟨-, hs⟩ := ite_none_right_eq_some.mp hs
  cases hs
  change t ∈ update s.inside row (t :: s.inside row) row
  rw [update_self]
  exact mem_cons_self

omit [DecidableEq T] in
theorem phase_semWait : s'.phase = s.phase := by
  obtain ⟨-, hs⟩ := ite_none_right_eq_some.mp hs
  exact some.inj hs ▸ rfl

end

omit [DecidableEq T] in
/-- A write changes neither the semaphores nor the transactions. -/
theorem write_frame {rc : RC} {endTs : ℕ} {a : Access R}
    (hs : s.write perRow rc endTs a = some s') :
    s'.sem = s.sem ∧ s'.inside = s.inside ∧ s'.phase = s.phase := by
  rw [State.write] at hs
  split at hs
  · obtain ⟨-, hs⟩ := ite_none_right_eq_some.mp hs
    exact some.inj hs ▸ ⟨rfl, rfl, rfl⟩
  · exact some.inj hs ▸ ⟨rfl, rfl, rfl⟩

omit [DecidableEq R] in
/-- A transaction goes on, the others as they were. -/
theorem Accessing.setPhase (h : Accessing s) {p : Phase R} (hphase : s'.phase = s.phase)
    (hothers : ∀ u ≠ t, ∀ r, u ∈ s.inside r → u ∈ s'.inside r)
    (hp : ∀ startTs accesses row type, p = .accessing startTs accesses row type →
      t ∈ s'.inside row) : Accessing (s'.setPhase t p) := by
  intro u startTs accesses row type hu
  change update s'.phase t p u = _ at hu
  by_cases hut : u = t
  · subst hut
    rw [update_self] at hu
    exact hp startTs accesses row type hu
  · rw [update_of_ne hut, hphase] at hu
    exact hothers u hut row (h u startTs accesses row type hu)

omit [DecidableEq R] in
theorem cleanupPhase_ne {rc : RC} {endTs : ℕ} {l : List (Access R)} {startTs : ℕ}
    {accesses : List (Access R)} {row : R} {type : AccessT} :
    cleanupPhase rc endTs l ≠ .accessing startTs accesses row type := by
  rw [cleanupPhase]
  split <;> nofun

/-- **One step**: the semaphores stay binary exactly when a return is matched. -/
theorem binary_step (a : Action T R) (hacc : Accessing s) (h : Binary s)
    (hs : (machine T perRow after).step s a = some s') :
    (Binary s' ↔ Matched perRow s a) ∧ (Matched perRow s a → Accessing s') := by
  cases a with (simp only [machine] at hs; split at hs <;> try cases hs)
  | start | validate | centralValidate | cleanup =>
    refine ⟨iff_of_true h trivial,
      fun _ => hacc.setPhase rfl (fun _ _ _ hu => hu) fun _ _ _ _ heq => ?_⟩
    first | exact (cleanupPhase_ne heq).elim | cases heq | split_ifs at heq
  | perRowValidate t =>
    obtain ⟨accesses, -, rfl⟩ := map_eq_some_iff.mp hs
    exact ⟨iff_of_true h trivial, fun _ => hacc.setPhase rfl (fun _ _ _ hu => hu) nofun⟩
  | accessWait | latch =>
    obtain ⟨s₁, hs₁, rfl⟩ := map_eq_some_iff.mp hs
    refine ⟨iff_of_true (Binary.setPhase.mpr (h.semWait hs₁)) trivial, fun _ =>
      hacc.setPhase (phase_semWait hs₁)
        (fun _ _ _ hu => mem_inside_of_semWait hs₁ hu) fun _ _ _ _ hp => ?_⟩
    cases hp <;> exact mem_inside_of_wait hs₁
  | accessPost t =>
    next startTs accesses row type hp =>
    have hmem := hacc t startTs accesses row type hp
    refine ⟨iff_of_true (h.semPost_iff.mpr hmem) trivial, fun _ => hacc.setPhase rfl
      (fun _ hut _ hu => mem_inside_of_semPost hut hu) fun _ _ _ _ heq => ?_⟩
    split at heq <;> cases heq
  | returnRow t =>
    next rc endTs a rest hp =>
    obtain ⟨s₁, hs₁, rfl⟩ := map_eq_some_iff.mp hs
    obtain ⟨hsem, hinside, hphase⟩ := write_frame hs₁
    have h₁ : Binary s₁ := fun row => by
      rw [hsem, hinside]
      exact h row
    constructor
    · rw [Binary.setPhase, h₁.semPost_iff, hinside]
      simp only [Matched, hp, hs₁, isSome_some, forall_const]
    · refine fun _ => hacc.setPhase hphase (fun u hut r hu => mem_inside_of_semPost hut ?_)
        fun _ _ _ _ heq => (cleanupPhase_ne heq).elim
      rwa [hinside]

/-- A return that fails its assertion is no return. -/
theorem matched_of_none {a : Action T R} (hnone : (machine T perRow after).step s a = none) :
    Matched perRow s a := by
  cases a with
  | returnRow t =>
    simp only [machine] at hnone
    simp only [Matched]
    split
    next hp =>
      rw [hp] at hnone
      intro hsome
      rw [Option.map_eq_none_iff.mp hnone] at hsome
      cases hsome
    · trivial
  | _ => trivial

end Lemmas

/-! ## The results -/

/-- A transaction reads row 0 and is done, two others then access the row. -/
def twoInside (finish : List (Action ℕ ℕ)) : List (Action ℕ ℕ) :=
  [.start 1 5, .accessWait 1 0 .RD, .accessPost 1] ++ finish ++
    [.returnRow 1, .start 2 8, .start 3 9, .accessWait 2 0 .RD, .accessWait 3 0 .RD]

end RowOcc

end Deneva
