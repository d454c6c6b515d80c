import Mathlib

/-!
# Registers whose writes can be undone

A register is written by many owners, and an owner may withdraw all its writes. What the register
then has to hold is determined by the *log* of its writes, most recent first: the value of the first
write whose owner is not withdrawn (`current`), or the initial value.

The cheap way to undo is one backup slot, which holds what was current before the last write.
`restore_iff` says when taking the value back from the slot is right: the last write is withdrawn,
and what was current before it was not written by the owner that withdraws now.
-/

namespace Deneva

open Function List

namespace UndoLog

universe u v

variable {ι : Type u} {α : Type v}

/-- The first write in the log whose owner is not withdrawn. -/
def top (dead : ι → Bool) (log : List (ι × α)) : Option (ι × α) := log.find? fun e => !dead e.1

/-- What the register has to hold. -/
def current (dead : ι → Bool) (log : List (ι × α)) (start : α) : α :=
  ((top dead log).map Prod.snd).getD start

variable {dead : ι → Bool} {log : List (ι × α)} {start : α} {e : ι × α}

theorem top_cons_live (h : dead e.1 = false) : top dead (e :: log) = some e := by
  simp [top, h]

theorem top_cons_dead (h : dead e.1 = true) : top dead (e :: log) = top dead log := by
  simp [top, h]

theorem current_cons_live (h : dead e.1 = false) : current dead (e :: log) start = e.2 := by
  rw [current, top_cons_live h]
  rfl

theorem current_cons_dead (h : dead e.1 = true) :
    current dead (e :: log) start = current dead log start := by
  rw [current, top_cons_dead h, current]

theorem top_mem (h : top dead log = some e) : e ∈ log := mem_of_find?_eq_some h

theorem top_live (h : top dead log = some e) : dead e.1 = false := by
  simpa using find?_some h

/-- What is current is the initial value or some written value. -/
theorem current_mem (dead : ι → Bool) (log : List (ι × α)) (start : α) :
    current dead log start ∈ log.map Prod.snd ++ [start] := by
  cases h : top dead log with
  | none => simp [current, h]
  | some e =>
    rw [current, h]
    exact mem_append_left _ (List.mem_map_of_mem (top_mem h))

/-- Withdrawing owners that have no write in the log changes nothing. -/
theorem top_congr {dead' : ι → Bool} (h : ∀ e ∈ log, dead' e.1 = dead e.1) :
    top dead' log = top dead log := by
  induction log with
  | nil => rfl
  | cons e log ih =>
    have he := h e (mem_cons_self ..)
    have ih := ih fun x hx => h x (mem_cons_of_mem _ hx)
    cases hd : dead e.1 with
    | false => rw [top_cons_live hd, top_cons_live (he.trans hd)]
    | true => rw [top_cons_dead hd, top_cons_dead (he.trans hd), ih]

variable [DecidableEq ι]

variable {i : ι}

/-- Withdrawing an owner whose write is not the current one changes nothing. -/
theorem top_withdraw (h : ∀ e, top dead log = some e → e.1 ≠ i) :
    top (update dead i true) log = top dead log := by
  induction log with
  | nil => rfl
  | cons e log ih =>
    cases hd : dead e.1 with
    | false =>
      have hne : e.1 ≠ i := h e (top_cons_live hd)
      rw [top_cons_live hd, top_cons_live ((update_of_ne hne ..).trans hd)]
    | true =>
      have hd' : update dead i true e.1 = true := by
        rcases eq_or_ne e.1 i with rfl | hne
        · exact update_self ..
        · exact (update_of_ne hne ..).trans hd
      rw [top_cons_dead hd, top_cons_dead hd']
      exact ih fun x hx => h x ((top_cons_dead hd).trans hx)

/-- Withdrawing the owner of the current write makes another value current, if all values are
distinct. -/
theorem current_withdraw_ne (hnd : (log.map Prod.snd ++ [start]).Nodup) (h : top dead log = some e)
    (he : e.1 = i) : current (update dead i true) log start ≠ current dead log start := by
  subst he
  have hcur : current dead log start = e.2 := by rw [current, h]; rfl
  rw [hcur]
  cases h' : top (update dead e.1 true) log with
  | none =>
    rw [current, h']
    intro heq
    have hmem : e.2 ∈ log.map Prod.snd := List.mem_map_of_mem (top_mem h)
    exact (nodup_append.mp hnd).2.2 _ hmem start (by simp) heq.symm
  | some x =>
    rw [current, h']
    intro heq
    have hx : x = e := inj_on_of_nodup_map (nodup_append.mp hnd).1 (top_mem h') (top_mem h) heq
    have hlive := top_live h'
    rw [hx, update_self] at hlive
    cases hlive

/-- **The backup slot.** After one more write, the value that was current before it is what the
register has to hold when an owner withdraws, exactly if that write is withdrawn, and what was
current before it was not written by the owner. -/
theorem restore_iff (hnd : ((e :: log).map Prod.snd ++ [start]).Nodup) :
    current dead log start = current (update dead i true) (e :: log) start ↔
      update dead i true e.1 = true ∧ ∀ x, top dead log = some x → x.1 ≠ i := by
  rw [map_cons, cons_append, nodup_cons] at hnd
  cases hd : update dead i true e.1 with
  | false =>
    rw [current_cons_live hd]
    refine iff_of_false (fun heq => hnd.1 ?_) (by simp)
    rw [← heq]
    exact current_mem ..
  | true =>
    rw [current_cons_dead hd]
    constructor
    · intro heq
      exact ⟨rfl, fun x hx hxi => current_withdraw_ne hnd.2 hx hxi heq.symm⟩
    · rintro ⟨-, hother⟩
      rw [current, current, top_withdraw hother]

end UndoLog

end Deneva
