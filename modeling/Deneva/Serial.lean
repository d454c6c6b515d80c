import Deneva.Types

/-!
# Transactions as programs, and their serial runs

What a concurrency control is for: transactions behave as if they ran whole, one
after another.

* `Prog` is the code of a transaction: it asks for rows with `get_row`, reads and
  updates them in place, and goes on depending on what it read.
* `Prog.exec` runs one program alone, `serial` runs several one after another.
  Both return the final store and the values read.
* `Progress` is the rule for a program that runs *while others do*: the rows it
  depends on are fixed (`A`), those it may have changed are its own (`W`), and
  then what it did so far is what it does alone, from any store that agrees on
  the fixed rows. Each operation of a program extends it by one lemma.
-/

namespace Deneva

universe u v w

open Function

/-- The code of a transaction over rows `R` with contents `V`. -/
inductive Prog (R : Type u) (V : Type v) : Type (max u v) where
  /-- nothing left to do -/
  | done
  /-- `get_row` with an access kind -/
  | getRow (r : R) (a : AccessT) (k : Prog R V)
  /-- look at the content of a row -/
  | read (r : R) (k : V → Prog R V)
  /-- change the content of a row in place -/
  | write (r : R) (f : V → V) (k : Prog R V)

variable {R : Type u} {V : Type v} [DecidableEq R]

/-- One program alone: the store it leaves and the values it reads, in order. -/
def Prog.exec : Prog R V → (R → V) → (R → V) × List (R × V)
  | .done, S => (S, [])
  | .getRow _ _ k, S => k.exec S
  | .read r k, S => (((k (S r)).exec S).1, (r, S r) :: ((k (S r)).exec S).2)
  | .write r f k, S => k.exec (update S r (f (S r)))

/-- Transactions run whole, one after another. -/
def serial {T : Type w} (prog : T → Prog R V) : List T → (R → V) → (R → V) × List (T × List (R × V))
  | [], S => (S, [])
  | t :: ts, S =>
    ((serial prog ts ((prog t).exec S).1).1,
      (t, ((prog t).exec S).2) :: (serial prog ts ((prog t).exec S).1).2)

/-- One more transaction at the end of a serial run. -/
theorem serial_concat {T : Type w} (prog : T → Prog R V) (ts : List T) (t : T) (S : R → V) :
    serial prog (ts ++ [t]) S =
      (((prog t).exec (serial prog ts S).1).1,
        (serial prog ts S).2 ++ [(t, ((prog t).exec (serial prog ts S).1).2)]) := by
  induction ts generalizing S with
  | nil => rfl
  | cons u us ih =>
    simp only [List.cons_append, serial]
    rw [ih]

/-- The store a program sees: its own contents on the rows `W`, the others' below. -/
def overlay (W : List R) (c S : R → V) : R → V := fun r => if r ∈ W then c r else S r

@[simp] theorem overlay_nil (c S : R → V) : overlay [] c S = S := by
  funext r
  simp [overlay]

theorem overlay_congr {W : List R} {c c' : R → V} (h : ∀ r ∈ W, c' r = c r) (S : R → V) :
    overlay W c' S = overlay W c S := by
  funext r
  unfold overlay
  split
  next hr =>
    exact h r hr
  · rfl

/-- The program `p₀` has come to `p` with the values `L` read so far: from every
store that agrees with `S` on the rows `A`, it does alone what it did here, if on
the rows `W` it sees the contents `c`. -/
def Progress (p₀ : Prog R V) (S : R → V) (A W : List R) (c : R → V) (p : Prog R V)
    (L : List (R × V)) : Prop :=
  ∀ S', (∀ r ∈ A, S' r = S r) →
    p₀.exec S' = ((p.exec (overlay W c S')).1, L ++ (p.exec (overlay W c S')).2)

namespace Progress

variable {p₀ : Prog R V} {S S' : R → V} {A W : List R} {c c' : R → V} {L : List (R × V)}

theorem start (p : Prog R V) (S c : R → V) : Progress p S [] [] c p [] := by
  intro S' _
  simp

/-- Nothing changes for a program when others change rows it neither depends on nor
owns. -/
theorem frame {p : Prog R V} (h : Progress p₀ S A W c p L) (hS : ∀ r ∈ A, S' r = S r)
    (hc : ∀ r ∈ W, c' r = c r) : Progress p₀ S' A W c' p L := by
  intro S₁ hS₁
  rw [overlay_congr hc]
  exact h S₁ fun r hr => (hS₁ r hr).trans (hS r hr)

variable {r : R} {k : Prog R V}

/-- The program gets a row to read. -/
theorem share {a : AccessT} (h : Progress p₀ S A W c (.getRow r a k) L) :
    Progress p₀ S (r :: A) W c k L :=
  fun S₁ hS₁ => h S₁ fun r' hr' => hS₁ r' (List.mem_cons_of_mem _ hr')

/-- The program gets a row to change, and finds there what the store has. -/
theorem own {a : AccessT} (h : Progress p₀ S A W c (.getRow r a k) L)
    (hr : c r = S r) : Progress p₀ S (r :: A) (r :: W) c k L := by
  intro S₁ hS₁
  have hov : overlay (r :: W) c S₁ = overlay W c S₁ := by
    funext r'
    by_cases hr' : r' = r
    · subst hr'
      simp [overlay, hr, hS₁ r' List.mem_cons_self]
    · simp [overlay, hr']
  rw [hov]
  exact h.share S₁ hS₁

/-- The program reads a row it got. -/
theorem read {k : V → Prog R V} (h : Progress p₀ S A W c (.read r k) L)
    (hr : r ∈ W ∨ (r ∈ A ∧ c r = S r)) : Progress p₀ S A W c (k (c r)) (L ++ [(r, c r)]) := by
  intro S₁ hS₁
  have hov : overlay W c S₁ r = c r := by
    unfold overlay
    split
    · rfl
    next hrW =>
      obtain ⟨hrA, hcS⟩ := hr.resolve_left hrW
      rw [hS₁ r hrA, hcS]
  rw [h S₁ hS₁]
  simp [Prog.exec, hov]

/-- The program changes a row it owns. -/
theorem write {f : V → V} (h : Progress p₀ S A W c (.write r f k) L)
    (hr : r ∈ W) : Progress p₀ S A W (update c r (f (c r))) k L := by
  intro S₁ hS₁
  have hov : overlay W (update c r (f (c r))) S₁ =
      update (overlay W c S₁) r (f (overlay W c S₁ r)) := by
    funext r'
    by_cases hr' : r' = r
    · subst hr'
      simp [overlay, hr]
    · simp [overlay, Function.update_of_ne hr']
  rw [hov]
  exact h S₁ hS₁

/-- A finished program did what it does alone. -/
theorem exec_eq (h : Progress p₀ S A W c .done L) : p₀.exec S = (overlay W c S, L) := by
  have := h S fun _ _ => rfl
  simpa [Prog.exec] using this

end Progress

end Deneva
