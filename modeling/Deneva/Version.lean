import Mathlib

/-!
# Timestamps and versions

Loops that compute extreme timestamps of a queue, and the version a read at a
timestamp should see: that of the write with the greatest timestamp below it, or the
initial value. Timestamps of writes are positive, so `0` stands for the initial value.

* `foldMin`, `foldMax` are the loops; `le_foldMin` and `foldMax_le` say what they
  compute.
* `Newest ws v₀ r w v`: among the writes `ws` the newest one below `r` is `(w, v)`.
* `Newest.cons_new`: a newer write takes over; `Newest.cons_old`: any other write does
  not matter.
* `Newest.lower`: a read between the newest write and the bound sees that write.
-/

namespace Deneva

universe u

open List

/-! ## Extreme timestamps -/

section

variable {α : Type u} {f : α → ℕ} {b c : ℕ} {l l' : List α}

/-- The loop that lowers `b` to the least timestamp of a list. -/
def foldMin (f : α → ℕ) (b : ℕ) (l : List α) : ℕ :=
  l.foldl (fun min x => if f x < min then f x else min) b

/-- The loop that raises `b` to the greatest timestamp of a list. -/
def foldMax (f : α → ℕ) (b : ℕ) (l : List α) : ℕ :=
  l.foldl (fun max x => if max < f x then f x else max) b

theorem le_foldMin : c ≤ foldMin f b l ↔ c ≤ b ∧ ∀ x ∈ l, c ≤ f x := by
  induction l generalizing b with
  | nil => simp [foldMin]
  | cons x l ih =>
    have hcons : foldMin f b (x :: l) = foldMin f (if f x < b then f x else b) l := rfl
    rw [hcons, ih, forall_mem_cons, ← and_assoc]
    refine and_congr_left fun _ => ?_
    split <;> omega

theorem foldMax_le : foldMax f b l ≤ c ↔ b ≤ c ∧ ∀ x ∈ l, f x ≤ c := by
  induction l generalizing b with
  | nil => simp [foldMax]
  | cons x l ih =>
    have hcons : foldMax f b (x :: l) = foldMax f (if b < f x then f x else b) l := rfl
    rw [hcons, ih, forall_mem_cons, ← and_assoc]
    refine and_congr_left fun _ => ?_
    split <;> omega

theorem foldMin_le {x : α} (hx : x ∈ l) : foldMin f b l ≤ f x := (le_foldMin.mp le_rfl).2 x hx

theorem foldMin_le_init : foldMin f b l ≤ b := (le_foldMin.mp le_rfl).1

theorem le_foldMax {x : α} (hx : x ∈ l) : f x ≤ foldMax f b l := (foldMax_le.mp le_rfl).2 x hx

theorem init_le_foldMax : b ≤ foldMax f b l := (foldMax_le.mp le_rfl).1

/-- Fewer entries have a later minimum. -/
theorem foldMin_mono (h : ∀ x ∈ l', x ∈ l) : foldMin f b l ≤ foldMin f b l' :=
  le_foldMin.mpr ⟨foldMin_le_init, fun x hx => foldMin_le (h x hx)⟩

/-- One more entry. -/
theorem foldMin_cons (f : α → ℕ) (b : ℕ) (x : α) (l : List α) :
    foldMin f b (x :: l) = if f x < foldMin f b l then f x else foldMin f b l := by
  refine eq_of_forall_le_iff fun c => ?_
  rw [le_foldMin, forall_mem_cons]
  have hl : c ≤ foldMin f b l ↔ c ≤ b ∧ ∀ y ∈ l, c ≤ f y := le_foldMin
  have hb : foldMin f b l ≤ b := foldMin_le_init
  split <;> constructor
  · exact fun h => h.2.1
  · exact fun h =>
      ⟨h.trans ((Nat.le_of_lt ‹_›).trans hb), h, (hl.mp (h.trans (Nat.le_of_lt ‹_›))).2⟩
  · exact fun h => hl.mpr ⟨h.1, h.2.2⟩
  · exact fun h => ⟨(hl.mp h).1, h.trans (Nat.le_of_not_lt ‹_›), (hl.mp h).2⟩

/-- What the loop computes. -/
theorem foldMin_eq_foldr (f : α → ℕ) (b : ℕ) (l : List α) :
    foldMin f b l = (l.map f).foldr min b := by
  induction l with
  | nil => rfl
  | cons x l ih =>
    rw [foldMin_cons, ih, map_cons, foldr_cons]
    split
    · exact (min_eq_left (Nat.le_of_lt ‹_›)).symm
    · exact (min_eq_right (Nat.le_of_not_lt ‹_›)).symm

end

/-! ## Versions -/

variable {V : Type u}

/-- Among the writes `ws` the newest one below `r` has timestamp `w` and value `v`; without
one it is the initial value `v₀`, at `0`. -/
def Newest (ws : List (ℕ × V)) (v₀ : V) (r w : ℕ) (v : V) : Prop :=
  (w = 0 ∧ v = v₀ ∧ ∀ p ∈ ws, r ≤ p.1) ∨ ((w, v) ∈ ws ∧ w < r ∧ ∀ p ∈ ws, p.1 < r → p.1 ≤ w)

namespace Newest

variable {ws ws' : List (ℕ × V)} {v₀ v : V} {r w : ℕ}

theorem nil (v₀ : V) (r : ℕ) : Newest [] v₀ r 0 v₀ :=
  .inl ⟨rfl, rfl, fun _ hp => absurd hp not_mem_nil⟩

section

variable (h : Newest ws v₀ r w v)

include h

/-- No write below `r` is newer. -/
theorem le {p : ℕ × V} (hp : p ∈ ws) (hr : p.1 < r) : p.1 ≤ w := by
  rcases h with ⟨_, _, hno⟩ | ⟨_, _, hle⟩
  · exact absurd (hno p hp) (Nat.not_le_of_lt hr)
  · exact hle p hp hr

/-- A newer write takes over. -/
theorem cons_new {w' : ℕ} {v' : V} (hr : w' < r) (hw : w ≤ w') :
    Newest ((w', v') :: ws) v₀ r w' v' := by
  refine .inr ⟨mem_cons_self, hr, fun p hp hpr => ?_⟩
  rcases mem_cons.mp hp with rfl | hp
  · exact le_refl w'
  · exact (h.le hp hpr).trans hw

/-- A write that is not between the newest one and `r` does not matter. -/
theorem cons_old {w' : ℕ} {v' : V} (hpos : 0 < w') (hno : ¬ (w < w' ∧ w' < r)) :
    Newest ((w', v') :: ws) v₀ r w v := by
  rcases h with ⟨rfl, hv, hle⟩ | ⟨hmem, hwr, hmax⟩
  · refine .inl ⟨rfl, hv, fun p hp => ?_⟩
    rcases mem_cons.mp hp with rfl | hp
    · exact Nat.le_of_not_lt fun hlt => hno ⟨hpos, hlt⟩
    · exact hle p hp
  · refine .inr ⟨mem_cons_of_mem _ hmem, hwr, fun p hp hpr => ?_⟩
    rcases mem_cons.mp hp with rfl | hp
    · exact Nat.le_of_not_lt fun hlt => hno ⟨hlt, hpr⟩
    · exact hmax p hp hpr

/-- A read above the newest write sees it. -/
theorem lower {r' : ℕ} (hw : w < r') (hr : r' ≤ r) : Newest ws v₀ r' w v := by
  rcases h with ⟨hw0, hv, hno⟩ | ⟨hmem, _, hmax⟩
  · exact .inl ⟨hw0, hv, fun p hp => hr.trans (hno p hp)⟩
  · exact .inr ⟨hmem, hw, fun p hp hpr => hmax p hp (hpr.trans_le hr)⟩

end

end Newest

end Deneva
