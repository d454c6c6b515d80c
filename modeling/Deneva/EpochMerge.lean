import Mathlib

/-!
# Merging streams that are cut into epochs

Several senders each put batches of items on a queue of their own, one batch per epoch, and close
every epoch with a mark. A receiver takes the queues in turn: from one sender up to its mark, then
from the next one, and a further epoch after the last. Nothing is assumed about how far the
senders are ahead of the receiver or of each other.

* `Framing` says how items and marks look on a queue, `Framing.stream` what a sender puts there.
* `Sends` relates the batches of a sender to what is still on its queue. `Sends.push`,
  `Sends.close` are the two things a sender does, `Sends.pop` is what a receiver finds.
* The receiver's position is the number `p` of marks it has taken: it is in epoch `p / N` with
  sender `p % N`. `merged` is what it has taken then, `Merging` the invariant.
* `Merging.mono` is the rule for steps of the senders, `Merging.pop` for those of the receiver;
  `Merging.isPrefix`, `Merging.drained` are what the invariant is for.
-/

namespace Deneva

universe u v

open Function List

/-- Items and end marks of epochs, told apart. -/
structure Framing (α : Type u) (μ : Type v) where
  /-- an item on the queue -/
  item : α → μ
  /-- the end of an epoch -/
  mark : ℕ → μ
  /-- items can be read back -/
  item_injective : Injective item
  /-- an item is not taken for a mark -/
  item_ne_mark : ∀ a e, item a ≠ mark e

variable {α : Type u} {μ : Type v}

/-- What a sender sends from epoch `e` on, when it has closed `n` epochs since. -/
def Framing.stream (F : Framing α μ) (batch : ℕ → List α) : ℕ → ℕ → List μ
  | e, 0 => (batch e).map F.item
  | e, n + 1 => (batch e).map F.item ++ F.mark e :: F.stream batch (e + 1) n

/-- A sender that has closed the epochs below `closed` has `log` left on its queue, from the first
item of epoch `start` on. -/
structure Sends (F : Framing α μ) (batch : ℕ → List α) (closed start : ℕ) (log : List μ) :
    Prop where
  /-- nothing is sent for later epochs -/
  later : ∀ e, closed < e → batch e = []
  /-- the queue holds the stream up to the open epoch -/
  stream : ∃ n, start + n = closed ∧ log = F.stream batch start n

section Sends

variable {F : Framing α μ} {batch batch' : ℕ → List α} {closed start : ℕ} {log : List μ} {a : α}

variable {n e : ℕ}

theorem stream_push (hne : ∀ k, k ≠ e + n → batch' k = batch k)
    (h : batch' (e + n) = batch (e + n) ++ [a]) :
    F.stream batch' e n = F.stream batch e n ++ [F.item a] := by
  induction n generalizing e with
  | zero => simpa [Framing.stream] using congrArg (List.map F.item) h
  | succ n ih =>
    have hrest : F.stream batch' (e + 1) n = F.stream batch (e + 1) n ++ [F.item a] := by
      refine ih (fun k hk => hne k ?_) ?_
      · omega
      · rwa [show e + 1 + n = e + (n + 1) by omega]
    rw [Framing.stream, Framing.stream, hne e (by omega), hrest]
    simp

theorem stream_close (h : batch (e + n + 1) = []) :
    F.stream batch e (n + 1) = F.stream batch e n ++ [F.mark (e + n)] := by
  induction n generalizing e with
  | zero => simp [Framing.stream, h]
  | succ n ih =>
    have hrest := ih (by rwa [show e + 1 + n + 1 = e + (n + 1) + 1 by omega])
    rw [Framing.stream, hrest, Framing.stream, show e + 1 + n = e + (n + 1) by omega]
    simp

theorem mem_stream {m : μ} (h : m ∈ F.stream batch e n) :
    (∃ k, ∃ a ∈ batch k, m = F.item a) ∨ ∃ k, m = F.mark k := by
  have hitem : ∀ e, m ∈ (batch e).map F.item → ∃ k, ∃ a ∈ batch k, m = F.item a := by
    intro e hm
    obtain ⟨a, ha, rfl⟩ := List.mem_map.mp hm
    exact ⟨e, a, ha, rfl⟩
  induction n generalizing e with
  | zero => exact .inl (hitem e h)
  | succ n ih =>
    rcases mem_append.mp h with hm | hm
    · exact .inl (hitem e hm)
    · rcases mem_cons.mp hm with rfl | hm
      · exact .inr ⟨e, rfl⟩
      · exact ih hm

/-- **What is at the head of a queue.** After the items `cur` of epoch `start` there is another
item of that epoch, or its mark, and then all its items have been taken. -/
theorem Sends.pop {cur : List α} {m : μ} {rest : List μ}
    (h : Sends F batch closed start (cur.map F.item ++ m :: rest)) :
    (∃ a, m = F.item a ∧ cur ++ [a] <+: batch start) ∨
      (m = F.mark start ∧ cur = batch start ∧ Sends F batch closed (start + 1) rest) := by
  obtain ⟨n, rfl, hlog⟩ := h.stream
  -- an item of the batch is next whenever the batch has more than what was taken
  have hitem : ∀ c, (batch start).map F.item = cur.map F.item ++ m :: c →
      ∃ a, m = F.item a ∧ cur ++ [a] <+: batch start := by
    intro c hc
    obtain ⟨l₁, l₂, hb, h₁, h₂⟩ := List.map_eq_append_iff.mp hc
    obtain ⟨a, l₃, rfl, rfl, -⟩ := List.map_eq_cons_iff.mp h₂
    obtain rfl := F.item_injective.list_map h₁
    exact ⟨a, rfl, l₃, by rw [hb]; simp⟩
  cases n with
  | zero => exact .inl (hitem rest hlog.symm)
  | succ n =>
    rw [Framing.stream] at hlog
    rcases List.append_eq_append_iff.mp hlog with ⟨c, hbatch, hc⟩ | ⟨c, hcur, hc⟩
    · cases c with
      | nil =>
        obtain ⟨rfl, rfl⟩ := List.cons_eq_cons.mp hc
        rw [append_nil] at hbatch
        exact .inr ⟨rfl, (F.item_injective.list_map hbatch).symm, h.later, n, by omega, rfl⟩
      | cons x c =>
        obtain ⟨rfl, -⟩ := List.cons_eq_cons.mp hc
        exact .inl (hitem c hbatch)
    · cases c with
      | nil =>
        obtain ⟨rfl, rfl⟩ := List.cons_eq_cons.mp hc
        rw [append_nil] at hcur
        exact .inr ⟨rfl, F.item_injective.list_map hcur, h.later, n, by omega, rfl⟩
      | cons x c =>
        -- the mark would be among the items that were taken
        obtain ⟨rfl, -⟩ := List.cons_eq_cons.mp hc
        obtain ⟨a, -, ha⟩ := List.mem_map.mp (hcur ▸ mem_append_right _ mem_cons_self)
        exact absurd ha (F.item_ne_mark a start)

section

variable (h : Sends F batch closed start log)

include h

theorem Sends.start_le : start ≤ closed := by
  obtain ⟨n, hn, -⟩ := h.stream
  omega

/-- The sender adds an item to its open epoch. -/
theorem Sends.push (hne : ∀ e, e ≠ closed → batch' e = batch e)
    (ha : batch' closed = batch closed ++ [a]) :
    Sends F batch' closed start (log ++ [F.item a]) := by
  obtain ⟨n, rfl, rfl⟩ := h.stream
  refine ⟨fun e he => ?_, n, rfl, (stream_push hne ha).symm⟩
  rw [hne e (by omega)]
  exact h.later e he

/-- The sender closes its open epoch. -/
theorem Sends.close : Sends F batch (closed + 1) start (log ++ [F.mark closed]) := by
  obtain ⟨n, rfl, rfl⟩ := h.stream
  refine ⟨fun e he => h.later e (by omega), n + 1, rfl, ?_⟩
  rw [stream_close (h.later _ (by omega))]

/-- An epoch that was closed has its mark on the queue. -/
theorem Sends.mark_mem (hlt : start < closed) : F.mark start ∈ log := by
  obtain ⟨n, rfl, rfl⟩ := h.stream
  cases n with
  | zero => exact absurd hlt (lt_irrefl _)
  | succ n => exact mem_append_right _ mem_cons_self

/-- An item of an epoch from `start` on is on the queue. -/
theorem Sends.item_mem (he : start ≤ e) (ha : a ∈ batch e) : F.item a ∈ log := by
  have hle : e ≤ closed := by
    by_contra hlt
    rw [h.later e (by omega)] at ha
    exact not_mem_nil ha
  obtain ⟨n, rfl, rfl⟩ := h.stream
  clear h
  induction n generalizing start with
  | zero =>
    obtain rfl : e = start := by omega
    exact List.mem_map_of_mem ha
  | succ n ih =>
    rcases Nat.eq_or_lt_of_le he with rfl | hlt
    · exact mem_append_left _ (List.mem_map_of_mem ha)
    · exact mem_append_right _ (mem_cons_of_mem _ (ih hlt (by omega)))

end

end Sends

/-! ## The receiver -/

/-- Everything before round `p`: in round `k` the receiver takes the batch of sender `k % N` for
epoch `k / N`. -/
def merged (batch : ℕ → ℕ → List α) (N p : ℕ) : List α :=
  (List.range p).flatMap fun k => batch (k % N) (k / N)

variable {N p : ℕ}

variable {batch : ℕ → ℕ → List α}

theorem mem_merged {a : α} : a ∈ merged batch N p ↔ ∃ k < p, a ∈ batch (k % N) (k / N) := by
  simp [merged]

theorem merged_succ (batch : ℕ → ℕ → List α) (N p : ℕ) :
    merged batch N (p + 1) = merged batch N p ++ batch (p % N) (p / N) := by
  simp [merged, range_succ]

/-- Rounds in order give items in order. -/
theorem merged_pairwise {r : α → α → Prop} (hin : ∀ k, (batch (k % N) (k / N)).Pairwise r)
    (hout : ∀ k k', k < k' → ∀ a ∈ batch (k % N) (k / N), ∀ b ∈ batch (k' % N) (k' / N), r a b)
    (p : ℕ) : (merged batch N p).Pairwise r := by
  rw [merged, pairwise_flatMap]
  refine ⟨fun k _ => hin k, ?_⟩
  exact pairwise_lt_range.imp fun hlt => hout _ _ hlt

/-- The first epoch that sender `i` has not closed for a receiver before round `p`. -/
def owed (N p i : ℕ) : ℕ := if i < p % N then p / N + 1 else p / N

theorem succ_div_mod (hN : 0 < N) (p : ℕ) :
    (p % N + 1 = N ∧ (p + 1) / N = p / N + 1 ∧ (p + 1) % N = 0) ∨
      (p % N + 1 < N ∧ (p + 1) / N = p / N ∧ (p + 1) % N = p % N + 1) := by
  have hdiv := Nat.div_add_mod p N
  rcases Nat.lt_or_ge (p % N + 1) N with hlt | hge
  · refine .inr ⟨hlt, ?_⟩
    have hp : p + 1 = N * (p / N) + (p % N + 1) := by omega
    constructor
    · rw [hp, Nat.mul_add_div hN, Nat.div_eq_of_lt hlt, Nat.add_zero]
    · rw [hp, Nat.mul_add_mod, Nat.mod_eq_of_lt hlt]
  · have heq : p % N + 1 = N := by have := Nat.mod_lt p hN; omega
    refine .inl ⟨heq, ?_⟩
    have hp : p + 1 = N * (p / N + 1) := by rw [Nat.mul_succ]; omega
    rw [hp]
    exact ⟨Nat.mul_div_cancel_left _ hN, Nat.mul_mod_right _ _⟩

theorem owed_self (N p : ℕ) : owed N p (p % N) = p / N := if_neg (lt_irrefl _)

theorem owed_succ {i : ℕ} (hi : i < N) (p : ℕ) :
    owed N (p + 1) i = if i = p % N then p / N + 1 else owed N p i := by
  unfold owed
  rcases succ_div_mod (by omega : 0 < N) p with ⟨hr, hd, hm⟩ | ⟨hr, hd, hm⟩ <;> rw [hd, hm] <;>
    split_ifs <;> omega

theorem div_lt_owed {k : ℕ} (h : k < p) : k / N < owed N p (k % N) := by
  have hle : k / N ≤ p / N := Nat.div_le_div_right h.le
  unfold owed
  split_ifs with hlt
  · omega
  · refine lt_of_le_of_ne hle fun heq => ?_
    have hk := Nat.div_add_mod k N
    have hp := Nat.div_add_mod p N
    rw [heq] at hk
    omega

theorem owed_le {i e : ℕ} (hi : i < N) (h : p ≤ N * e + i) : owed N p i ≤ e := by
  have hle : p / N ≤ e := by
    have hdiv := Nat.div_le_div_right (c := N) h
    rwa [Nat.mul_add_div (by omega), Nat.div_eq_of_lt hi, Nat.add_zero] at hdiv
  unfold owed
  split_ifs with hlt
  · refine Nat.lt_of_le_of_ne hle fun heq => ?_
    have hp := Nat.div_add_mod p N
    rw [heq] at hp
    omega
  · exact hle

/-- A receiver before round `p`, having taken `cur` of that round, has put out `out`; `queue i` is
all that sender `i` has left for it. -/
structure Merging (F : ℕ → Framing α μ) (N : ℕ) (batch : ℕ → ℕ → List α) (closed : ℕ → ℕ)
    (queue : ℕ → List μ) (p : ℕ) (cur out : List α) : Prop where
  /-- each sender's queue continues where the receiver left it -/
  sends : ∀ i < N, Sends (F i) (batch i) (closed i) (owed N p i)
    ((if i = p % N then cur.map (F i).item else []) ++ queue i)
  /-- what was taken of this round is the beginning of the batch -/
  taken : cur <+: batch (p % N) (p / N)
  /-- the output is the finished rounds and what was taken of this one -/
  output : out = merged batch N p ++ cur

namespace Merging

variable {F : ℕ → Framing α μ} {N p : ℕ} {batch batch' : ℕ → ℕ → List α} {closed closed' : ℕ → ℕ}
  {queue queue' : ℕ → List μ} {cur out : List α}

theorem init (F : ℕ → Framing α μ) (N : ℕ) (hb : ∀ i e, batch i e = []) {queue : ℕ → List μ}
    (hq : ∀ i, queue i = []) {closed : ℕ → ℕ} (hc : ∀ i, closed i = 0) :
    Merging F N batch closed queue 0 [] [] where
  sends i _ := by
    have howed : owed N 0 i = 0 := by simp [owed]
    rw [howed, hc, hq]
    exact ⟨fun e _ => hb i e, 0, rfl, by simp [Framing.stream, hb]⟩
  taken := nil_prefix
  output := rfl

section

variable (h : Merging F N batch closed queue p cur out)

include h

/-- The queue of the sender whose turn it is. -/
theorem current (hN : 0 < N) :
    Sends (F (p % N)) (batch (p % N)) (closed (p % N)) (p / N)
      (cur.map (F (p % N)).item ++ queue (p % N)) := by
  have hs := h.sends (p % N) (Nat.mod_lt p hN)
  rwa [owed_self, if_pos rfl] at hs

/-- **Steps of the senders.** Each sender goes on from any log to a log that continues its batches,
and leaves the epochs it has closed alone. -/
theorem mono (hN : 0 < N)
    (hbatch : ∀ i < N, ∀ e, batch i e <+: batch' i e ∧ (e < closed i → batch' i e = batch i e))
    (hs : ∀ i < N, ∀ start pre, Sends (F i) (batch i) (closed i) start (pre ++ queue i) →
      Sends (F i) (batch' i) (closed' i) start (pre ++ queue' i)) :
    Merging F N batch' closed' queue' p cur out where
  sends i hi := hs i hi _ _ (h.sends i hi)
  taken := h.taken.trans (hbatch _ (Nat.mod_lt p hN) _).1
  output := by
    rw [h.output]
    congr 1
    refine flatMap_congr fun k hk => ?_
    have hlt : k / N < owed N p (k % N) := div_lt_owed (mem_range.mp hk)
    have hmod : k % N < N := Nat.mod_lt k hN
    exact ((hbatch _ hmod _).2 (hlt.trans_le (h.sends _ hmod).start_le)).symm

/-- **Steps of the receiver.** At the head of the queue whose turn it is there is an item of the
open batch, which joins the output, or the mark of the epoch, and the next round begins. -/
theorem pop (hN : 0 < N) {m : μ} {rest : List μ} (hq : queue (p % N) = m :: rest) :
    (∃ a, m = (F (p % N)).item a ∧ a ∈ batch (p % N) (p / N) ∧ Merging F N batch closed
      (update queue (p % N) rest) p (cur ++ [a]) (out ++ [a])) ∨ (m = (F (p % N)).mark (p / N) ∧
      Merging F N batch closed (update queue (p % N) rest) (p + 1) [] out) := by
  have hcur := h.current hN
  rw [hq] at hcur
  rcases hcur.pop with ⟨a, rfl, ha⟩ | ⟨rfl, hall, hnext⟩
  · refine .inl ⟨a, rfl, ha.subset (by simp), fun i hi => ?_, ha, by rw [h.output, append_assoc]⟩
    have hs := h.sends i hi
    rcases eq_or_ne i (p % N) with rfl | hne
    · rw [if_pos rfl] at hs ⊢
      rw [update_self, map_append, append_assoc]
      rwa [hq] at hs
    · rw [if_neg hne] at hs ⊢
      rwa [update_of_ne hne]
  · refine .inr ⟨rfl, fun i hi => ?_, nil_prefix, ?_⟩
    · have hs := h.sends i hi
      rw [map_nil, ite_self, nil_append, owed_succ hi]
      rcases eq_or_ne i (p % N) with rfl | hne
      · rwa [if_pos rfl, update_self]
      · rw [if_neg hne] at hs ⊢
        rwa [update_of_ne hne]
    · rw [h.output, merged_succ, hall, append_nil]

end

/-! ## What the invariant is for -/

section

variable (h : Merging F N batch closed queue p cur out)

include h

/-- The output is the beginning of the merge, and has all finished rounds. -/
theorem isPrefix : out <+: merged batch N (p + 1) := by
  rw [h.output, merged_succ]
  exact prefix_append_right_inj _ |>.mpr h.taken

theorem mem_of_lt {k : ℕ} (hk : k < p) {a : α} (ha : a ∈ batch (k % N) (k / N)) : a ∈ out := by
  rw [h.output]
  exact mem_append_left _ (mem_merged.mpr ⟨k, hk, ha⟩)

/-- **No item is lost.** It is in the output or still on the queue of its sender. -/
theorem mem_or_queued (hN : 0 < N) {i e : ℕ} (hi : i < N) {a : α} (ha : a ∈ batch i e) :
    a ∈ out ∨ (F i).item a ∈ queue i := by
  have hmod : (N * e + i) % N = i := by rw [Nat.mul_add_mod, Nat.mod_eq_of_lt hi]
  have hdiv : (N * e + i) / N = e := by rw [Nat.mul_add_div hN, Nat.div_eq_of_lt hi, Nat.add_zero]
  rcases Nat.lt_or_ge (N * e + i) p with hlt | hge
  · exact .inl (h.mem_of_lt hlt (by rwa [hmod, hdiv]))
  · have hmem := (h.sends i hi).item_mem (owed_le hi hge) ha
    rcases mem_append.mp hmem with hm | hm
    · split_ifs at hm with hcur
      · obtain ⟨b, hb, hba⟩ := List.mem_map.mp hm
        obtain rfl := (F i).item_injective hba
        rw [h.output]
        exact .inl (mem_append_right _ hb)
      · exact absurd hm not_mem_nil
    · exact .inr hm

/-- **The receiver is not stuck before an epoch that all senders have closed.** If the queue whose
turn it is holds no mark, the epoch of the receiver is still open at that sender. -/
theorem drained (hN : 0 < N) (hq : ∀ e, (F (p % N)).mark e ∉ queue (p % N)) :
    closed (p % N) ≤ p / N := by
  by_contra hlt
  have hmark := (h.current hN).mark_mem (not_le.mp hlt)
  rcases mem_append.mp hmark with hm | hm
  · obtain ⟨a, -, ha⟩ := List.mem_map.mp hm
    exact (F (p % N)).item_ne_mark _ _ ha
  · exact hq _ hm

end

end Merging

end Deneva
