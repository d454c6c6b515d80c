import Mathlib

/-!
# Programs over shared cells

A thread that reads and writes cells one at a time, while others do the same. A `CellProg` is what
is left of such a thread to do: each read and each write is one step, and what happens between two
steps is for the others to say.

* `CellProg.run` is the program on its own, as one step.
* `CellProg.wp` is a rule of pre- and postconditions that knows nothing of the cells but what the
  thread has seen: a read may bring any admissible value, and a write has to fit what was seen of
  its cell last. `wp_bind`, `wp_mono`, `wp_foldlM` and `wp_forM` are its rules.

The cells may have values of different types.
-/

namespace Deneva

universe u

open List

/-- What is left of a thread to do. -/
inductive CellProg (K : Type) (V : K → Type) (α : Type) : Type where
  /-- it is done -/
  | ret (a : α)
  /-- it reads a cell -/
  | read (k : K) (next : V k → CellProg K V α)
  /-- it writes a cell -/
  | write (k : K) (v : V k) (next : CellProg K V α)
  /-- an assertion fails -/
  | fail

namespace CellProg

variable {K : Type} {V : K → Type} {α β : Type}

/-- One program after the other. -/
protected def bind : CellProg K V α → (α → CellProg K V β) → CellProg K V β
  | .ret a, f => f a
  | .read k next, f => .read k fun v => (next v).bind f
  | .write k v next, f => .write k v (next.bind f)
  | .fail, _ => .fail

instance : Monad (CellProg K V) where
  pure := .ret
  bind := CellProg.bind

/-- Read a cell. -/
def get (k : K) : CellProg K V (V k) := .read k .ret

/-- Write a cell. -/
def set (k : K) (v : V k) : CellProg K V Unit := .write k v (.ret ())

/-! ## Without others -/

section Run

variable {σ : Type u} (getCell : σ → (k : K) → V k) (setCell : σ → (k : K) → V k → σ)

/-- The program on its own. -/
def run : CellProg K V α → σ → Option (α × σ)
  | .ret a, s => some (a, s)
  | .read k next, s => run (next (getCell s k)) s
  | .write k v next, s => run next (setCell s k v)
  | .fail, _ => none

variable {getCell setCell} {s : σ}

@[simp]
theorem run_pure (a : α) : run getCell setCell (pure a : CellProg K V α) s = some (a, s) := rfl

@[simp]
theorem run_get (k : K) : run getCell setCell (get k) s = some (getCell s k, s) := rfl

@[simp]
theorem run_set (k : K) (v : V k) : run getCell setCell (set k v) s = some ((), setCell s k v) :=
  rfl

@[simp]
theorem run_bind (p : CellProg K V α) (f : α → CellProg K V β) :
    run getCell setCell (p >>= f) s =
      (run getCell setCell p s).bind fun r => run getCell setCell (f r.1) r.2 := by
  induction p generalizing s with
  | ret a => rfl
  | read k next ih => exact ih (getCell s k)
  | write k v next ih => exact ih
  | fail => rfl

/-- A loop that only reads. -/
theorem run_foldlM {γ : Type} {f : β → γ → CellProg K V β} {g : β → γ → β}
    (h : ∀ b x, run getCell setCell (f b x) s = some (g b x, s)) (l : List γ) (b : β) :
    run getCell setCell (l.foldlM f b) s = some (l.foldl g b, s) := by
  induction l generalizing b with
  | nil => rfl
  | cons x l ih =>
    rw [foldlM_cons, run_bind, h]
    exact ih (g b x)

/-- A loop that only writes. -/
theorem run_forM {γ : Type} {f : γ → CellProg K V PUnit} {g : σ → γ → σ}
    (h : ∀ s x, run getCell setCell (f x) s = some ((), g s x)) (l : List γ) (s : σ) :
    run getCell setCell (l.forM f) s = some ((), l.foldl g s) := by
  induction l generalizing s with
  | nil => rfl
  | cons x l ih =>
    change run getCell setCell (f x >>= fun _ => l.forM f) s = _
    rw [run_bind, h]
    exact ih (g s x)

end Run

/-! ## Among others -/

section Wp

variable [DecidableEq K] (Adm : (k : K) → V k → Prop) (Fits : (k : K) → Option (V k) → V k → Prop)

/-- What a thread has seen of each cell last: what it has read or written. -/
abbrev Seen (K : Type) (V : K → Type) : Type := (k : K) → Option (V k)

/-- **Whatever others do**, the program writes only what fits, and ends as `Q` says. -/
def wp : CellProg K V α → Seen K V → (α → Seen K V → Prop) → Prop
  | .ret a, seen, Q => Q a seen
  | .read k next, seen, Q => ∀ v, Adm k v → wp (next v) (Function.update seen k (some v)) Q
  | .write k v next, seen, Q =>
    Fits k (seen k) v ∧ Adm k v ∧ wp next (Function.update seen k (some v)) Q
  | .fail, _, _ => True

variable {Adm Fits} {seen : Seen K V}

theorem wp_mono {p : CellProg K V α} {Q Q' : α → Seen K V → Prop}
    (hQ : ∀ a seen, Q a seen → Q' a seen) (h : wp Adm Fits p seen Q) : wp Adm Fits p seen Q' := by
  induction p generalizing seen with
  | ret a => exact hQ a seen h
  | read k next ih => exact fun v hv => ih v (h v hv)
  | write k v next ih => exact ⟨h.1, h.2.1, ih h.2.2⟩
  | fail => trivial

theorem wp_bind {p : CellProg K V α} {f : α → CellProg K V β} {Q : β → Seen K V → Prop}
    (h : wp Adm Fits p seen fun a seen => wp Adm Fits (f a) seen Q) :
    wp Adm Fits (p >>= f) seen Q := by
  induction p generalizing seen with
  | ret a => exact h
  | read k next ih => exact fun v hv => ih v (h v hv)
  | write k v next ih => exact ⟨h.1, h.2.1, ih h.2.2⟩
  | fail => trivial

/-- A loop, with what it keeps. -/
theorem wp_foldlM {γ : Type} {f : β → γ → CellProg K V β} (I : β → Seen K V → Prop) {l : List γ}
    {b : β} (hb : I b seen) (hstep : ∀ x ∈ l, ∀ b seen, I b seen → wp Adm Fits (f b x) seen I) :
    wp Adm Fits (l.foldlM f b) seen I := by
  induction l generalizing b seen with
  | nil => exact hb
  | cons x l ih =>
    rw [foldlM_cons]
    refine wp_bind (wp_mono (fun b' seen' hb' => ?_) (hstep x mem_cons_self b seen hb))
    exact ih hb' fun y hy => hstep y (mem_cons_of_mem x hy)

@[inherit_doc wp_foldlM]
theorem wp_forM {γ : Type} {f : γ → CellProg K V PUnit} (I : Seen K V → Prop) {l : List γ}
    (hb : I seen) (hstep : ∀ x ∈ l, ∀ seen, I seen → wp Adm Fits (f x) seen fun _ => I) :
    wp Adm Fits (l.forM f) seen fun _ => I := by
  induction l generalizing seen with
  | nil => exact hb
  | cons x l ih =>
    refine wp_bind (wp_mono (fun _ seen' hb' => ?_) (hstep x mem_cons_self seen hb))
    exact ih hb' fun y hy => hstep y (mem_cons_of_mem x hy)

end Wp

end CellProg

end Deneva
