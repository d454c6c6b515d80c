import Mathlib

/-!
# Ordered sets

A finite set that is iterated in ascending order, as a tree set is: the list of its
elements together with the proof that it ascends. Only membership is visible to a proof
about a set; the order is there for the loops that run over `toList`.

* `insert`, `erase`, `union` are the operations, each with its `mem_` lemma.
* `foldl_forward` is the rule for a loop that only ever goes forward along a preorder.
-/

namespace Deneva

universe u v

open List

/-- A finite set, as the ascending list of its elements. -/
structure OrderedSet (α : Type u) [LinearOrder α] where
  /-- the elements -/
  toList : List α
  /-- they ascend -/
  ascending : toList.Pairwise (· < ·)

namespace OrderedSet

variable {α : Type u} [LinearOrder α] {a b : α} {l : List α} {s t : OrderedSet α}

instance : Membership α (OrderedSet α) := ⟨fun s a => a ∈ s.toList⟩

instance : EmptyCollection (OrderedSet α) := ⟨⟨[], .nil⟩⟩

instance (a : α) (s : OrderedSet α) : Decidable (a ∈ s) :=
  inferInstanceAs (Decidable (a ∈ s.toList))

instance (p : α → Prop) [DecidablePred p] (s : OrderedSet α) : Decidable (∀ a ∈ s, p a) :=
  inferInstanceAs (Decidable (∀ a ∈ s.toList, p a))

theorem mem_toList : a ∈ s.toList ↔ a ∈ s := Iff.rfl

@[simp]
theorem not_mem_empty : a ∉ (∅ : OrderedSet α) := not_mem_nil

/-! ## Inserting -/

/-- The place of an element in an ascending list. -/
def place (a : α) : List α → List α
  | [] => [a]
  | b :: l => if a < b then a :: b :: l else if a = b then b :: l else b :: place a l

theorem mem_place : b ∈ place a l ↔ b = a ∨ b ∈ l := by
  induction l with
  | nil => simp [place]
  | cons c l ih =>
    rw [place]
    split
    · exact mem_cons
    · split
      next heq =>
        rw [mem_cons, heq, ← or_assoc, or_self]
      · rw [mem_cons, ih, mem_cons, or_left_comm]

theorem place_ascending (h : l.Pairwise (· < ·)) : (place a l).Pairwise (· < ·) := by
  induction l with
  | nil => exact pairwise_singleton _ _
  | cons b l ih =>
    obtain ⟨hb, hl⟩ := pairwise_cons.mp h
    rw [place]
    split
    next hab =>
      exact pairwise_cons.mpr
        ⟨forall_mem_cons.mpr ⟨hab, fun c hc => hab.trans (hb c hc)⟩, h⟩
    · split
      · exact h
      next hab hne =>
        refine pairwise_cons.mpr ⟨fun c hc => ?_, ih hl⟩
        rcases mem_place.mp hc with rfl | hc
        · exact lt_of_le_of_ne (not_lt.mp hab) (Ne.symm hne)
        · exact hb c hc

theorem length_place (h : l.Pairwise (· < ·)) :
    (place a l).length = if a ∈ l then l.length else l.length + 1 := by
  induction l with
  | nil => rfl
  | cons b l ih =>
    obtain ⟨hb, hl⟩ := pairwise_cons.mp h
    rw [place]
    split
    next hab =>
      have hnot : a ∉ b :: l := fun hmem =>
        (mem_cons.mp hmem).elim hab.ne fun hmem => lt_asymm hab (hb a hmem)
      rw [if_neg hnot, length_cons]
    · split
      next heq =>
        rw [if_pos (heq ▸ mem_cons_self)]
      next hne =>
        have hiff : a ∈ b :: l ↔ a ∈ l := mem_cons.trans (or_iff_right hne)
        simp only [length_cons, ih hl, hiff]
        split <;> rfl

/-- The set with one more element. -/
protected def insert (a : α) (s : OrderedSet α) : OrderedSet α :=
  ⟨place a s.toList, place_ascending s.ascending⟩

@[simp]
theorem mem_insert : b ∈ s.insert a ↔ b = a ∨ b ∈ s := mem_place

theorem length_insert :
    (s.insert a).toList.length = if a ∈ s then s.toList.length else s.toList.length + 1 :=
  length_place s.ascending

theorem nodup_toList : s.toList.Nodup := s.ascending.imp fun h => h.ne

/-- A loop that inserts something for each element of a list. -/
theorem mem_foldl_insert {β : Type v} {f : β → α} {l : List β} :
    b ∈ l.foldl (fun s x => s.insert (f x)) s ↔ b ∈ s ∨ ∃ x ∈ l, f x = b := by
  induction l generalizing s with
  | nil => simp
  | cons x l ih =>
    rw [foldl_cons, ih, mem_insert, exists_mem_cons_iff, or_comm (a := b = f x), or_assoc, eq_comm]

/-! ## Erasing and joining -/

/-- The set without an element. -/
protected def erase (s : OrderedSet α) (a : α) : OrderedSet α :=
  ⟨s.toList.filter (· ≠ a), s.ascending.filter _⟩

@[simp]
theorem mem_erase : b ∈ s.erase a ↔ b ≠ a ∧ b ∈ s := by
  rw [← mem_toList, OrderedSet.erase, mem_filter, decide_eq_true_iff, and_comm, mem_toList]

/-- All elements of the one set inserted into the other. -/
protected def union (s t : OrderedSet α) : OrderedSet α :=
  t.toList.foldl (fun s a => s.insert a) s

@[simp]
theorem mem_union : b ∈ s.union t ↔ b ∈ s ∨ b ∈ t := by
  have hfold := mem_foldl_insert (b := b) (s := s) (f := id) (l := t.toList)
  refine hfold.trans (or_congr_right ?_)
  simp [mem_toList]

end OrderedSet

/-! ## Loops -/

/-- **A loop that only goes forward**, and settles something about each element that going
forward keeps. -/
theorem foldl_forward {α : Type u} {β : Type v} [Preorder β] {f : β → α → β} {Q : α → β → Prop}
    (hf : ∀ b a, b ≤ f b a) (hQ : ∀ b a, Q a (f b a)) (hmono : ∀ a b b', b ≤ b' → Q a b → Q a b')
    (l : List α) (b : β) : b ≤ l.foldl f b ∧ ∀ a ∈ l, Q a (l.foldl f b) := by
  induction l generalizing b with
  | nil => exact ⟨le_rfl, fun _ ha => absurd ha not_mem_nil⟩
  | cons a l ih =>
    obtain ⟨hle, hl⟩ := ih (f b a)
    exact ⟨(hf b a).trans hle, forall_mem_cons.mpr ⟨hmono a _ _ hle (hQ b a), hl⟩⟩

end Deneva
