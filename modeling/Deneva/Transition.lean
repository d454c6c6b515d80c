import Mathlib

/-!
# State machines and the invariants of their runs

The general layer every protocol below is stated over. A `Machine` is an initial
state and a *partial* step function over labelled actions: `step s a = none` says
that the action is not possible in `s`, so an interleaving is just a list of
actions all of whose steps succeed.

* `Machine.run` executes a list of actions, `Machine.Reachable` is the set of
  states some list leads to (`Reachable.of_run`).
* `Machine.ReachableVia ok` are the states reached by runs all of whose steps
  meet a condition `ok` on the state before the step and the action taken.
  `Reachable` is the unconditional case.
* `ReachableVia.invariant` is the induction rule all safety results go through:
  true initially, kept by each step, hence true in every state reached.
* `RunOk` says that a given run meets such a condition; `runFrom_iff_runOk` is for conditions that
  are exactly what keeps a property true.
* `exists_runFrom_of_measure` is the rule for progress: a measure that some step makes smaller.
* `acyclic_of_strictMono` turns a measure that strictly grows along a relation
  into the absence of cycles.
-/

namespace Deneva

universe u v w

open List Option

/-- A state machine over states `σ` and labelled actions `α`. -/
structure Machine (σ : Type u) (α : Type v) where
  /-- the state every run starts in -/
  init : σ
  /-- one step; `none` when the action is not possible -/
  step : σ → α → Option σ

namespace Machine

variable {σ : Type u} {α : Type v}

/-- Execute a list of actions from a state, failing as soon as one is not
possible. -/
def runFrom (M : Machine σ α) : σ → List α → Option σ
  | s, [] => some s
  | s, a :: as => (M.step s a).bind fun s' => M.runFrom s' as

/-- Execute a list of actions from the initial state. -/
def run (M : Machine σ α) (as : List α) : Option σ := M.runFrom M.init as

/-- The states reached by runs all of whose steps meet the condition `ok`. -/
inductive ReachableVia (M : Machine σ α) (ok : σ → α → Prop) : σ → Prop where
  /-- the empty run -/
  | init : ReachableVia M ok M.init
  /-- one more step, taken in a state and with an action that meet `ok` -/
  | step {s s' : σ} {a : α} :
      ReachableVia M ok s → ok s a → M.step s a = some s' → ReachableVia M ok s'

/-- Every step of a run meets the condition `ok`. -/
def RunOk (M : Machine σ α) (ok : σ → α → Prop) : σ → List α → Prop
  | _, [] => True
  | s, a :: as => ok s a ∧ ∀ s' ∈ M.step s a, M.RunOk ok s' as

/-- The states reached by any run at all. -/
def Reachable (M : Machine σ α) : σ → Prop := M.ReachableVia fun _ _ => True

variable {M : Machine σ α} {ok : σ → α → Prop}

theorem Reachable.init : M.Reachable M.init := ReachableVia.init

variable {s s' : σ} {P I : σ → Prop} {as : List α}

theorem Reachable.step {a : α} (hs : M.Reachable s) (h : M.step s a = some s') : M.Reachable s' :=
  ReachableVia.step hs trivial h

/-- A conditional run is a run. -/
theorem ReachableVia.reachable (hs : M.ReachableVia ok s) : M.Reachable s := by
  induction hs with
  | init => exact Reachable.init
  | step _ _ h ih => exact ih.step h

/-- **The invariant rule.** What holds initially and is kept by every step taken
from a reachable state holds in every reachable state. -/
theorem ReachableVia.invariant (h0 : P M.init)
    (hstep : ∀ s a s', M.ReachableVia ok s → P s → ok s a → M.step s a = some s' → P s')
    (hs : M.ReachableVia ok s) : P s := by
  induction hs with
  | init => exact h0
  | step hr hok h ih => exact hstep _ _ _ hr ih hok h

/-- The invariant rule for unconditional runs. -/
theorem Reachable.invariant (h0 : P M.init)
    (hstep : ∀ s a s', P s → M.step s a = some s' → P s') (hs : M.Reachable s) : P s :=
  ReachableVia.invariant h0 (fun s a s' _ hP _ h => hstep s a s' hP h) hs

theorem runFrom_cons {a : α} :
    M.runFrom s (a :: as) = some s' ↔ ∃ t, M.step s a = some t ∧ M.runFrom t as = some s' := by
  rw [runFrom, bind_eq_some_iff]

theorem runFrom_append {bs : List α} :
    M.runFrom s (as ++ bs) = (M.runFrom s as).bind fun t => M.runFrom t bs := by
  induction as generalizing s with
  | nil => rfl
  | cons a as ih =>
    rw [cons_append, runFrom, runFrom, bind_assoc]
    exact congrArg _ (funext fun t => ih)

/-- Running on from a reachable state stays among the reachable states. -/
theorem Reachable.runFrom (hs : M.Reachable s) (h : M.runFrom s as = some s') : M.Reachable s' := by
  induction as generalizing s with
  | nil =>
    cases h
    exact hs
  | cons a as ih =>
    obtain ⟨t, ht, hrest⟩ := runFrom_cons.mp h
    exact ih (hs.step ht) hrest

/-- The state a successful run ends in is reachable; this is how a concrete
schedule exhibits a reachable state. -/
theorem Reachable.of_run (h : M.run as = some s) : M.Reachable s :=
  Reachable.init.runFrom h

/-- The same for conditional runs. -/
theorem ReachableVia.runFrom (hs : M.ReachableVia ok s)
    (hok : M.RunOk ok s as) (h : M.runFrom s as = some s') : M.ReachableVia ok s' := by
  induction as generalizing s with
  | nil =>
    cases h
    exact hs
  | cons a as ih =>
    obtain ⟨t, ht, hrest⟩ := runFrom_cons.mp h
    exact ih (hs.step hok.1 ht) (hok.2 t ht) hrest

theorem ReachableVia.of_run (hok : M.RunOk ok M.init as) (h : M.run as = some s) :
    M.ReachableVia ok s :=
  ReachableVia.init.runFrom hok h

/-- **The exact condition.** If, where the invariant `I` holds, a step that is possible keeps `P`
exactly when it meets `ok`, and then keeps `I` too, then `P` holds throughout a run exactly when
every step of the run meets `ok`. -/
theorem runFrom_iff_runOk_of_inv (hnone : ∀ s a, I s → M.step s a = none → ok s a)
    (hstep : ∀ s a s', I s → P s → M.step s a = some s' → (P s' ↔ ok s a) ∧ (ok s a → I s'))
    (hI : I s) (hs : P s) (as : List α) :
    (∀ k, ∀ s' ∈ M.runFrom s (as.take k), P s') ↔ M.RunOk ok s as := by
  induction as generalizing s with
  | nil =>
    simp only [take_nil, RunOk, iff_true]
    intro _ s' hs'
    exact some.inj hs' ▸ hs
  | cons a as ih =>
    cases ha : M.step s a with
    | none =>
      have hrun : ∀ k, ∀ s' ∈ M.runFrom s ((a :: as).take k), P s' := by
        intro k s' hs'
        cases k with
        | zero => exact some.inj hs' ▸ hs
        | succ k =>
          obtain ⟨t, ht, -⟩ := runFrom_cons.mp hs'
          cases ha.symm.trans ht
      have hok : M.RunOk ok s (a :: as) := by
        refine ⟨hnone s a hI ha, fun s' hs' => ?_⟩
        cases ha.symm.trans hs'
      exact iff_of_true hrun hok
    | some t =>
      have hcons : ∀ k s', M.runFrom s ((a :: as).take (k + 1)) = some s' ↔
          M.runFrom t (as.take k) = some s' := by
        intro k s'
        rw [take_succ_cons, runFrom_cons]
        refine ⟨fun ⟨t', ht', h⟩ => ?_, fun h => ⟨t, ha, h⟩⟩
        obtain rfl := some.inj (ha.symm.trans ht')
        exact h
      obtain ⟨hkeep, hinv⟩ := hstep s a t hI hs ha
      constructor
      · intro h
        have ht : P t := h 1 t ((hcons 0 t).mpr (by rw [take_zero]; rfl))
        have hok := hkeep.mp ht
        refine ⟨hok, fun s' hs' => ?_⟩
        obtain rfl := some.inj (ha.symm.trans hs')
        exact (ih (hinv hok) ht).mp fun k s' hs' => h (k + 1) s' ((hcons k s').mpr hs')
      · rintro ⟨hok, hrest⟩ k s' hs'
        cases k with
        | zero => exact some.inj hs' ▸ hs
        | succ k =>
          exact (ih (hinv hok) (hkeep.mpr hok)).mpr (hrest t ha) k s' ((hcons k s').mp hs')

/-- The exact condition when no invariant is needed. -/
theorem runFrom_iff_runOk (hnone : ∀ s a, M.step s a = none → ok s a)
    (hstep : ∀ s a s', P s → M.step s a = some s' → (P s' ↔ ok s a)) (hs : P s)
    (as : List α) : (∀ k, ∀ s' ∈ M.runFrom s (as.take k), P s') ↔ M.RunOk ok s as :=
  runFrom_iff_runOk_of_inv (fun s a _ h => hnone s a h)
    (fun s a s' _ hs h => ⟨hstep s a s' hs h, fun _ => trivial⟩) trivial hs as

/-- A condition that follows from an invariant is met by every run. -/
theorem runOk_of_invariant (hok : ∀ s a, I s → ok s a)
    (hstep : ∀ s a s', I s → ok s a → M.step s a = some s' → I s') (hs : I s) (as : List α) :
    M.RunOk ok s as := by
  induction as generalizing s with
  | nil => trivial
  | cons a as ih => exact ⟨hok s a hs, fun s' hs' => ih (hstep s a s' hs (hok s a hs) hs')⟩

/-- **Progress by a measure.** If, where the invariant `I` holds and the goal `G` is not reached,
some step keeps the invariant and makes the measure smaller, then the goal can be reached. -/
theorem exists_runFrom_of_measure {G : σ → Prop} (μ : σ → ℕ)
    (hstep : ∀ s, I s → ¬ G s → ∃ a s', M.step s a = some s' ∧ I s' ∧ μ s' < μ s) (hs : I s) :
    ∃ as s', M.runFrom s as = some s' ∧ I s' ∧ G s' := by
  induction hn : μ s using Nat.strongRecOn generalizing s with
  | ind n ih =>
    by_cases hG : G s
    · exact ⟨[], s, rfl, hs, hG⟩
    · obtain ⟨a, s₁, ha, hs₁, hlt⟩ := hstep s hs hG
      obtain ⟨as, s', hrun, hs', hG'⟩ := ih (μ s₁) (hn ▸ hlt) hs₁ rfl
      exact ⟨a :: as, s', runFrom_cons.mpr ⟨s₁, ha, hrun⟩, hs', hG'⟩

instance RunOk.decidable (M : Machine σ α) (ok : σ → α → Prop) [∀ s a, Decidable (ok s a)] :
    ∀ s as, Decidable (M.RunOk ok s as)
  | _, [] => isTrue trivial
  | s, a :: as =>
    have : ∀ s', Decidable (M.RunOk ok s' as) := fun s' => RunOk.decidable M ok s' as
    inferInstanceAs (Decidable (ok s a ∧ ∀ s' ∈ M.step s a, M.RunOk ok s' as))

end Machine

/-- A relation along which a measure strictly grows has no cycle. -/
theorem acyclic_of_strictMono {β : Type u} {γ : Type v} [Preorder γ] {r : β → β → Prop}
    (μ : β → γ) (h : ∀ {x y}, r x y → μ x < μ y) (x : β) : ¬ Relation.TransGen r x x := by
  have hgrow : ∀ {x y}, Relation.TransGen r x y → μ x < μ y := by
    intro x y hxy
    induction hxy with
    | single hr => exact h hr
    | tail _ hr ih => exact ih.trans (h hr)
  exact fun hx => lt_irrefl _ (hgrow hx)

end Deneva
