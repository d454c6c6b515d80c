import Deneva.FrameworkOptimistic

/-!
# What an abort of the optimistic framework undoes

Each key has one backup slot, `previousContent`, and `abort` takes the content of every key of the
write set back from it. The law it should follow is that of `Deneva.UndoLog`: a key holds the
content of its most recent write whose attempt was not aborted (`Undone`).

The slot holds what was current before the last write to the key, whoever wrote it, so `abort` is
right on a key exactly if the last write to it is of an aborted attempt, this one or another, and
the content before it is not the aborting attempt's own (`Restores`). `undone_iff` says that a run
follows the law exactly as long as all its aborts are of this kind; this covers the second abort of
an attempt as well.
-/

namespace Deneva

universe u

open Function List Option UndoLog

namespace FrameworkOptimistic

open State

variable {T K V : Type u} [DecidableEq T] [DecidableEq K]

/-! ## The law -/

/-- The content a key should have: that of the most recent write to it whose transaction has not
aborted that attempt, or the initial one. -/
def State.expected (s : State T K V) (k : K) : Option (Content K V) :=
  (s.past.loaded k).map (current s.past.aborted (s.past.log k))

/-- **Aborts undo their own writes only**: every key has the content it should have. -/
def State.Undone (s : State T K V) : Prop := ∀ k, (s.ccMap k).map CCO.content = s.expected k

/-- The slot of a key holds what an abort of the transaction has to go back to: the last write to
the key belongs to an aborted attempt, or to the one that aborts now, and what was current before it
was not written by the latter. -/
def State.Restores (s : State T K V) (t : T) (k : K) : Prop :=
  match s.past.log k with
  | [] => True
  | e :: log =>
    update s.past.aborted (t, s.past.attempt t) true e.1 = true ∧
      ∀ x, top s.past.aborted log = some x → x.1 ≠ (t, s.past.attempt t)

/-- An abort that finds the right content in the slot of every key it goes back on. -/
def AbortsOwn (s : State T K V) : Action T K V → Prop
  | .abort t => s.stage t = .idle → s.past.since t ≠ none →
      ∀ c ∈ (s.txn t).writeset, s.Restores t c.key
  | _ => True

/-! ## The slots -/

/-- What the slots hold, and which keys an abort reaches. -/
structure Slots (s : State T K V) : Prop where
  /-- a key is there exactly if it was loaded -/
  loaded : ∀ k, s.ccMap k = none ↔ s.past.loaded k = none
  /-- only keys that are there were written -/
  absent : ∀ k, s.ccMap k = none → s.past.log k = []
  /-- addresses are given out in order -/
  fresh : ∀ k, (∀ c, s.past.loaded k = some c → c.addr < s.next) ∧
    ∀ e ∈ s.past.log k, e.2.addr < s.next
  /-- no content stands twice in the log of a key -/
  distinct : ∀ k c, s.past.loaded k = some c → ((s.past.log k).map Prod.snd ++ [c]).Nodup
  /-- the slot holds what was current before the last write -/
  slot : ∀ k cc c e log, s.ccMap k = some cc → s.past.loaded k = some c →
    s.past.log k = e :: log → cc.previousContent = some (current s.past.aborted log c)
  /-- what the current attempt wrote is in the write set -/
  own : ∀ t k e, e ∈ s.past.log k → e.1 = (t, s.past.attempt t) →
    k ∈ (s.txn t).writeset.map Content.key
  /-- the keys of a write set were written -/
  written : ∀ t, ∀ k ∈ (s.txn t).writeset.map Content.key, s.past.log k ≠ []
  /-- no write belongs to a later attempt -/
  bound : ∀ t n k c, ((t, n), c) ∈ s.past.log k → n ≤ s.past.attempt t
  /-- no later attempt was aborted -/
  dead : ∀ t n, s.past.aborted (t, n) = true → n ≤ s.past.attempt t

omit [DecidableEq T] [DecidableEq K] in
theorem slots_init : Slots (init : State T K V) where
  loaded _ := ⟨fun _ => rfl, fun _ => rfl⟩
  absent _ _ := rfl
  fresh _ := ⟨nofun, nofun⟩
  distinct _ _ h := nomatch h
  slot _ _ _ _ _ h := nomatch h
  own _ _ _ h := nomatch h
  written _ _ h := nomatch h
  bound _ _ _ _ h := nomatch h
  dead _ _ h := nomatch h

/-- A step that touches neither contents nor write sets nor their histories. -/
structure SameStore (s s' : State T K V) : Prop where
  /-- the contents -/
  ccMap : s'.ccMap = s.ccMap
  /-- the addresses -/
  next : s'.next = s.next
  /-- the write sets -/
  writeset : ∀ t, (s'.txn t).writeset = (s.txn t).writeset
  /-- what was loaded -/
  loaded : s'.past.loaded = s.past.loaded
  /-- the writes -/
  log : s'.past.log = s.past.log
  /-- the attempts -/
  attempt : s'.past.attempt = s.past.attempt
  /-- the aborted attempts -/
  aborted : s'.past.aborted = s.past.aborted

variable {s s' : State T K V} {k : K} {t : T}

omit [DecidableEq T] [DecidableEq K] in
theorem SameStore.undone (h : SameStore s s') (hs : s.Undone) : s'.Undone := by
  intro k
  rw [expected, h.ccMap, h.loaded, h.log, h.aborted]
  exact hs k

omit [DecidableEq T] [DecidableEq K] in
theorem SameStore.slots (h : SameStore s s') (hs : Slots s) : Slots s' := by
  constructor
  · rw [h.ccMap, h.loaded]; exact hs.loaded
  · rw [h.ccMap, h.log]; exact hs.absent
  · rw [h.loaded, h.log, h.next]; exact hs.fresh
  · rw [h.loaded, h.log]; exact hs.distinct
  · rw [h.ccMap, h.loaded, h.log, h.aborted]; exact hs.slot
  · intro t
    rw [h.log, h.attempt, h.writeset]; exact hs.own t
  · intro t
    rw [h.log, h.writeset]; exact hs.written t
  · rw [h.log, h.attempt]; exact hs.bound
  · rw [h.aborted, h.attempt]; exact hs.dead

omit [DecidableEq K] in
/-- A read and the steps of a validation touch the read set, the flags and `active` only. -/
theorem sameStore_read (t : T) (key : K) (s : State T K V) : SameStore s (s.read t key) := by
  rw [State.read]
  split
  · exact ⟨rfl, rfl, fun _ => rfl, rfl, rfl, rfl, rfl⟩
  · exact ⟨rfl, rfl, update_field TransactionF.writeset rfl, rfl, rfl, rfl, rfl⟩

omit [DecidableEq K] in
theorem sameStore_validate (t : T) (s : State T K V) : SameStore s (s.validate t) := by
  rw [validate]
  split <;> exact ⟨rfl, rfl, fun _ => rfl, rfl, rfl, rfl, rfl⟩

theorem sameStore_validateEnd (t : T) (v : Occ.Validation T (Ptr K)) (meanwhile : List (Finish T K))
    (s : State T K V) : SameStore s (s.validateEnd t v meanwhile) := by
  rw [validateEnd]
  split
  · exact ⟨rfl, rfl, update_field TransactionF.writeset rfl, rfl, rfl, rfl, rfl⟩
  · exact ⟨rfl, rfl, fun _ => rfl, rfl, rfl, rfl, rfl⟩

/-! ## Loading and writing -/

omit [DecidableEq T] in
/-- A write in the log after one more write. -/
theorem mem_log_update {log : K → List ((T × ℕ) × Content K V)} {key : K}
    {e x : (T × ℕ) × Content K V} (h : e ∈ update log key (x :: log key) k) :
    e ∈ log k ∨ k = key ∧ e = x := by
  rcases eq_or_ne k key with rfl | hne
  · rw [update_self] at h
    exact (mem_cons.mp h).symm.imp_right fun he => ⟨rfl, he⟩
  · rw [update_of_ne hne] at h
    exact .inl h

/-- The attempts of the other transactions stay, that of the transaction may advance. -/
theorem le_update_attempt {attempt : T → ℕ} {n : ℕ} (h : attempt t ≤ n) (t' : T) :
    attempt t' ≤ update attempt t n t' := by
  rcases eq_or_ne t' t with rfl | hne
  · rwa [update_self]
  · rw [update_of_ne hne]

section

variable (hs : Slots s)

include hs

omit [DecidableEq T] in
theorem undone_initContent (hu : s.Undone) (key : K) (row : V) :
    (s.initContent key row).Undone ∧ Slots (s.initContent key row) := by
  cases hc : s.ccMap key with
  | some cc =>
    have hsame : s.initContent key row = s := by rw [initContent, hc]
    rw [hsame]
    exact ⟨hu, hs⟩
  | none =>
    have hlog := hs.absent key hc
    simp only [initContent, hc]
    refine ⟨fun k => ?_, ?_⟩
    · rcases eq_or_ne k key with rfl | hne
      · simp [expected, hlog, current, top]
      · simpa [expected, hne] using hu k
    · refine ⟨fun k => ?_, fun k hk => ?_, fun k => ?_, fun k c hk => ?_,
        fun k cc c e log h1 h2 h3 => ?_, hs.own, hs.written, hs.bound, hs.dead⟩
      · rcases eq_or_ne k key with rfl | hne
        · simp
        · simpa [hne] using hs.loaded k
      · rcases eq_or_ne k key with rfl | hne
        · exact hlog
        · exact hs.absent k (by simpa [hne] using hk)
      · refine ⟨fun c hk => ?_, fun e he => Nat.lt_succ_of_lt ((hs.fresh k).2 e he)⟩
        rcases eq_or_ne k key with rfl | hne
        · simp only [update_self, some.injEq] at hk
          simp [← hk]
        · exact Nat.lt_succ_of_lt ((hs.fresh k).1 c (by simpa [hne] using hk))
      · rcases eq_or_ne k key with rfl | hne
        · simp [hlog]
        · exact hs.distinct k c (by simpa [hne] using hk)
      · rcases eq_or_ne k key with rfl | hne
        · rw [hlog] at h3
          cases h3
        · exact hs.slot k cc c e log (by simpa [hne] using h1) (by simpa [hne] using h2) h3

omit [DecidableEq T] [DecidableEq K] in
/-- The attempt a write belongs to is not aborted, and not an earlier one. -/
theorem Slots.attemptOf (t : T) :
    s.past.aborted (t, s.attemptOf t) = false ∧ s.past.attempt t ≤ s.attemptOf t := by
  rw [State.attemptOf]
  split
  · refine ⟨Bool.eq_false_iff.mpr fun hdead => ?_, by omega⟩
    have := hs.dead t _ hdead
    omega
  next h =>
    exact ⟨Bool.eq_false_iff.mpr h, le_refl _⟩

omit [DecidableEq T] [DecidableEq K] in
/-- A content at the next address is a new one. -/
theorem Slots.not_mem_of_next {c x : Content K V} (hc : s.past.loaded k = some c)
    (hx : x.addr = s.next) : x ∉ (s.past.log k).map Prod.snd ++ [c] := by
  intro hmem
  have hlt : x.addr < s.next := by
    rcases mem_append.mp hmem with hmem | hmem
    · obtain ⟨e, he, rfl⟩ := List.mem_map.mp hmem
      exact (hs.fresh k).2 e he
    · rw [mem_singleton.mp hmem]
      exact (hs.fresh k).1 c hc
  omega

omit [DecidableEq T] [DecidableEq K] in
/-- A key that is there, with the content it was loaded with and the one it should have. -/
theorem Slots.of_some (hu : s.Undone) {cc : CCO K V} (hc : s.ccMap k = some cc) :
    ∃ c₀, s.past.loaded k = some c₀ ∧ cc.content = current s.past.aborted (s.past.log k) c₀ := by
  obtain ⟨c₀, hc₀⟩ : ∃ c₀, s.past.loaded k = some c₀ :=
    Option.ne_none_iff_exists'.mp fun h => by simp [(hs.loaded k).mpr h] at hc
  exact ⟨c₀, hc₀, by simpa [expected, hc, hc₀] using hu k⟩

/-- A write leaves what was current in the slot. -/
theorem slots_write (hu : s.Undone) (t : T) {key : K} (row : V) {cc : CCO K V}
    (hc : s.ccMap key = some cc) : Slots (s.write t key row) := by
  obtain ⟨-, hle⟩ := hs.attemptOf t
  obtain ⟨c₀, hc₀, hcur⟩ := hs.of_some hu hc
  have hattempt := le_update_attempt hle
  simp only [write, hc]
  constructor
  case loaded =>
    intro k
    rcases eq_or_ne k key with rfl | hne
    · simp [hc₀]
    · simpa [hne] using hs.loaded k
  case absent =>
    intro k hk
    rcases eq_or_ne k key with rfl | hne
    · simp at hk
    · simpa [hne] using hs.absent k (by simpa [hne] using hk)
  case fresh =>
    intro k
    refine ⟨fun c hk => Nat.lt_succ_of_lt ((hs.fresh k).1 c hk), fun e he => ?_⟩
    rcases mem_log_update he with he | ⟨-, rfl⟩
    · exact Nat.lt_succ_of_lt ((hs.fresh k).2 e he)
    · exact Nat.lt_succ_self _
  case distinct =>
    intro k c hk
    rcases eq_or_ne k key with rfl | hne
    · simp only [update_self, map_cons, cons_append, nodup_cons]
      exact ⟨hs.not_mem_of_next hk rfl, hs.distinct k c hk⟩
    · simpa [hne] using hs.distinct k c hk
  case slot =>
    intro k cc' c e log h1 h2 h3
    rcases eq_or_ne k key with rfl | hne
    · simp only [update_self, some.injEq] at h1
      simp only [update_self, List.cons.injEq] at h3
      obtain rfl := some.inj (hc₀.symm.trans h2)
      rw [← h1, ← h3.2, CCO.write, hcur]
    · exact hs.slot k cc' c e log (by simpa [hne] using h1) h2 (by simpa [hne] using h3)
  case own =>
    intro t' k e he heq
    rcases eq_or_ne t' t with rfl | ht
    · simp only [update_self, map_append, mem_append] at heq ⊢
      rcases mem_log_update he with he | ⟨rfl, -⟩
      · -- the attempt has not changed, as nothing in the log is of a later one
        have hb := hs.bound t' (s.attemptOf t') k e.2 (by rw [← heq]; exact he)
        exact .inl (hs.own t' k e he (by rw [heq, hb.antisymm hle]))
      · exact .inr (by simp)
    · simp only [update_of_ne ht] at heq ⊢
      rcases mem_log_update he with he | ⟨-, rfl⟩
      · exact hs.own t' k e he heq
      · exact absurd (Prod.mk.inj heq).1.symm ht
  case written =>
    intro t' k hk
    rcases eq_or_ne k key with rfl | hne
    · simp
    · have hk' : k ∈ (s.txn t').writeset.map Content.key := by
        rcases eq_or_ne t' t with rfl | ht
        · simpa [hne] using hk
        · simpa [ht] using hk
      simpa [hne] using hs.written t' k hk'
  case bound =>
    intro t' n k c he
    rcases mem_log_update he with he | ⟨-, heq⟩
    · exact (hs.bound t' n k c he).trans (hattempt t')
    · obtain ⟨rfl, rfl⟩ := Prod.mk.inj (Prod.mk.inj heq).1
      simp
  case dead => exact fun t' n hdead => (hs.dead t' n hdead).trans (hattempt t')

/-- A write makes its content current. -/
theorem undone_write (hu : s.Undone) (t : T) (key : K) (row : V) :
    (s.write t key row).Undone ∧ Slots (s.write t key row) := by
  cases hc : s.ccMap key with
  | none =>
    have hsame : s.write t key row = s := by rw [write, hc]
    rw [hsame]
    exact ⟨hu, hs⟩
  | some cc =>
    refine ⟨fun k => ?_, slots_write hs hu t row hc⟩
    obtain ⟨c₀, hc₀, -⟩ := hs.of_some hu hc
    simp only [write, hc]
    rcases eq_or_ne k key with rfl | hne
    · have hlive : s.past.aborted ((t, s.attemptOf t), (⟨s.next, k, row⟩ : Content K V)).1 =
          false :=
        (hs.attemptOf t).1
      simp [expected, hc₀, CCO.write, current_cons_live hlive]
    · simpa [expected, hne] using hu k

end

/-! ## Aborting -/

section

variable (hs : Slots s)

include hs

omit [DecidableEq T] [DecidableEq K] in
/-- A key of a write set, with its slot. -/
theorem Slots.of_written (hk : k ∈ (s.txn t).writeset.map Content.key) :
    ∃ cc c₀ e log, s.ccMap k = some cc ∧ s.past.loaded k = some c₀ ∧ s.past.log k = e :: log ∧
      cc.previousContent = some (current s.past.aborted log c₀) := by
  obtain ⟨e, log, hlog⟩ := exists_cons_of_ne_nil (hs.written t k hk)
  obtain ⟨cc, hcc⟩ : ∃ cc, s.ccMap k = some cc :=
    Option.ne_none_iff_exists'.mp fun h => hs.written t k hk (hs.absent k h)
  obtain ⟨c₀, hc₀⟩ : ∃ c₀, s.past.loaded k = some c₀ :=
    Option.ne_none_iff_exists'.mp fun h => by simp [(hs.loaded k).mpr h] at hcc
  exact ⟨cc, c₀, e, log, hcc, hc₀, hlog, hs.slot k cc c₀ e log hcc hc₀ hlog⟩

/-- On a key of the write set the abort is right exactly if the slot is. -/
theorem abort_key_iff (hk : k ∈ (s.txn t).writeset.map Content.key) :
    ((s.abort t).ccMap k).map CCO.content = (s.abort t).expected k ↔ s.Restores t k := by
  obtain ⟨cc, c₀, e, log, hcc, hc₀, hlog, hslot⟩ := hs.of_written hk
  have hnd := hs.distinct k c₀ hc₀
  rw [hlog] at hnd
  have hnew : ((s.abort t).ccMap k).map CCO.content =
      some (current s.past.aborted log c₀) := by
    simp [abort, abortAll_apply, hk, hcc, CCO.abortWrites, hslot]
  have hexp : (s.abort t).expected k = some (current
      (update s.past.aborted (t, s.past.attempt t) true) (e :: log) c₀) := by
    simp [expected, abort, hc₀, hlog]
  rw [hnew, hexp, some.injEq, restore_iff hnd, State.Restores, hlog]

/-- The other keys have no write of the attempt. -/
theorem abort_other_key (hu : s.Undone) (hk : k ∉ (s.txn t).writeset.map Content.key) :
    ((s.abort t).ccMap k).map CCO.content = (s.abort t).expected k := by
  have htop : top (update s.past.aborted (t, s.past.attempt t) true) (s.past.log k)
      = top s.past.aborted (s.past.log k) :=
    top_congr fun e he => update_of_ne (fun heq => hk (hs.own t k e he heq)) ..
  have hexp : (s.abort t).expected k = s.expected k := by
    simp only [expected, abort]
    congr 1
    funext c₀
    rw [current, htop, current]
  rw [hexp, ← hu k]
  simp [abort, abortAll_apply, hk]

/-- **An abort undoes its own writes** exactly if the slots are right. -/
theorem undone_abort_iff (hu : s.Undone) (t : T) :
    (s.abort t).Undone ↔ ∀ c ∈ (s.txn t).writeset, s.Restores t c.key := by
  constructor
  · intro h c hc
    exact (abort_key_iff hs (List.mem_map_of_mem hc)).mp (h c.key)
  · intro h k
    by_cases hk : k ∈ (s.txn t).writeset.map Content.key
    · obtain ⟨c, hc, rfl⟩ := List.mem_map.mp hk
      exact (abort_key_iff hs hk).mpr (h c hc)
    · exact abort_other_key hs hu hk

/-- An abort that finds the slots right leaves them right. -/
theorem slots_abort (h : ∀ c ∈ (s.txn t).writeset, s.Restores t c.key) : Slots (s.abort t) := by
  have hnone : ∀ k, (s.abort t).ccMap k = none ↔ s.ccMap k = none := by
    intro k
    simp only [abort, abortAll_apply]
    split <;> simp
  refine ⟨fun k => (hnone k).trans (hs.loaded k), fun k hk => hs.absent k ((hnone k).mp hk),
    hs.fresh, hs.distinct, ?_, hs.own, hs.written, hs.bound, ?_⟩
  · intro k cc' c₀ e log hcc' hc₀ hlog
    have hlog : s.past.log k = e :: log := hlog
    obtain ⟨cc, hcc⟩ : ∃ cc, s.ccMap k = some cc :=
      Option.ne_none_iff_exists'.mp fun hn => by simp [(hnone k).mpr hn] at hcc'
    have hprev : cc'.previousContent = cc.previousContent := by
      simp only [abort, abortAll_apply, hcc] at hcc'
      split at hcc' <;> obtain rfl := some.inj hcc' <;> rfl
    -- below the last write the attempt has no current write, so its end changes nothing there
    have hbelow : ∀ x, top s.past.aborted log = some x → x.1 ≠ (t, s.past.attempt t) := by
      intro x hx hown
      have hmem : x ∈ s.past.log k := by
        rw [hlog]
        exact mem_cons_of_mem _ (top_mem hx)
      obtain ⟨c, hc, hck⟩ := List.mem_map.mp (hs.own t k x hmem hown)
      have hr := h c hc
      rw [hck, State.Restores, hlog] at hr
      exact hr.2 x hx hown
    rw [hprev, hs.slot k cc c₀ e log hcc hc₀ hlog]
    simp only [abort, current, top_withdraw hbelow]
  · intro t' n hdead
    rcases eq_or_ne (t', n) (t, s.past.attempt t) with heq | hne
    · cases heq
      exact le_refl _
    · exact hs.dead t' n ((update_of_ne hne ..).symm.trans hdead)

end

/-! ## Finishing -/

/-- The end of an attempt clears the write set; nothing in the log is of the next one. -/
theorem undone_finishEnd (hs : Slots s) (hu : s.Undone) (t : T)
    (wset : List (Ptr K)) : (s.finishEnd t wset).Undone ∧ Slots (s.finishEnd t wset) := by
  have hstore : (s.centralFinish t wset).ccMap = s.ccMap ∧
      (s.centralFinish t wset).next = s.next := by
    simp only [centralFinish, removeActive]
    split_ifs <;> exact ⟨rfl, rfl⟩
  have hattempt := le_update_attempt (Nat.le_succ (s.past.attempt t))
  refine ⟨fun k => ?_, ?_⟩
  · simpa [finishEnd, expected, hstore.1] using hu k
  · constructor
    case loaded => simpa [finishEnd, hstore.1] using hs.loaded
    case absent => simpa [finishEnd, hstore.1] using hs.absent
    case fresh => simpa [finishEnd, hstore.2] using hs.fresh
    case distinct => exact hs.distinct
    case slot => simpa [finishEnd, hstore.1] using hs.slot
    case own =>
      intro t' k e he heq
      rcases eq_or_ne t' t with rfl | hne
      · have hnext : e.1 = (t', s.past.attempt t' + 1) := by simpa [finishEnd] using heq
        have hb := hs.bound t' (s.past.attempt t' + 1) k e.2 (by rw [← hnext]; exact he)
        omega
      · simp only [finishEnd, update_of_ne hne] at heq ⊢
        exact hs.own t' k e he heq
    case written =>
      intro t' k hk
      rcases eq_or_ne t' t with rfl | hne
      · simp [finishEnd] at hk
      · simp only [finishEnd, update_of_ne hne] at hk ⊢
        exact hs.written t' k hk
    case bound => exact fun t' n k c he => (hs.bound t' n k c he).trans (hattempt t')
    case dead => exact fun t' n hdead => (hs.dead t' n hdead).trans (hattempt t')

/-! ## Runs -/

/-- Every step but an abort keeps the law. -/
theorem undone_step {a : Action T K V} (hs : Slots s) (hu : s.Undone)
    (h : Step s a s') (hna : ∀ t, a ≠ .abort t) : s'.Undone ∧ Slots s' := by
  have hsame : SameStore s s' → s'.Undone ∧ Slots s' := fun h => ⟨h.undone hu, h.slots hs⟩
  cases h with
  | initContent key row => exact undone_initContent hs hu key row
  | start t now =>
    exact hsame ⟨rfl, rfl, update_field TransactionF.writeset rfl, rfl, rfl, rfl, rfl⟩
  | read t key => exact hsame (sameStore_read ..)
  | write t key row => exact undone_write hs hu t key row
  | validate t => exact hsame (sameStore_validate ..)
  | validateBegin t now rset wset =>
    exact hsame ⟨rfl, rfl, update_field TransactionF.writeset rfl, rfl, rfl, rfl, rfl⟩
  | validateEnd t v meanwhile => exact hsame (sameStore_validateEnd ..)
  | dropActive t | finish t => exact hsame ⟨rfl, rfl, fun _ => rfl, rfl, rfl, rfl, rfl⟩
  | commit t => exact ⟨hu, hs⟩
  | abort t => exact absurd rfl (hna t)
  | finishEnd t wset => exact undone_finishEnd hs hu t wset

/-- One step keeps the law exactly if it is no abort, or one that finds the slots right. -/
theorem undone_step_iff {a : Action T K V} (hs : Slots s) (hu : s.Undone)
    (h : Step s a s') : (s'.Undone ↔ AbortsOwn s a) ∧ (AbortsOwn s a → Slots s') := by
  by_cases ha : ∃ t, a = .abort t
  · obtain ⟨t, rfl⟩ := ha
    cases h with
    | abort t hidle hbegun =>
      have hok : AbortsOwn s (.abort t) ↔ ∀ c ∈ (s.txn t).writeset, s.Restores t c.key :=
        ⟨fun ho => ho hidle hbegun, fun ho _ _ => ho⟩
      rw [hok]
      exact ⟨undone_abort_iff hs hu t, slots_abort hs⟩
  · have hok : AbortsOwn s a := by
      cases a with
      | abort t => exact absurd ⟨t, rfl⟩ ha
      | _ => trivial
    obtain ⟨hu', hs'⟩ := undone_step hs hu h fun t hat => ha ⟨t, hat⟩
    exact ⟨iff_of_true hu' hok, fun _ => hs'⟩

/-- **Aborts undo exactly their own writes.** Every key has the content of its most recent write
that was not aborted, at every moment of a run, exactly if every abort in it finds the content to go
back to in the slot of each key it wrote: the last write to the key belongs to an aborted attempt or
to the aborting one, and the write that was current before is not the aborting attempt's own. -/
theorem undone_iff (as : List (Action T K V)) :
    (∀ k, ∀ s ∈ (machine T K V).run (as.take k), s.Undone) ↔ (machine T K V).RunOk AbortsOwn
      (machine T K V).init as := by
  refine Machine.runFrom_iff_runOk_of_inv ?_
    (fun s a s' hs hu h => undone_step_iff hs hu (step_of_eq_some h)) slots_init (fun k => rfl) as
  intro s a _ hnone
  cases a with
  | abort t =>
    intro hi hb
    have hstep : (machine T K V).step s (.abort t) = some (s.abort t) :=
      call_eq_some.mpr ⟨hi, hb, rfl⟩
    rw [hnone] at hstep
    cases hstep
  | _ => trivial

/-- Two transactions write the same key one after the other, and the first aborts. -/
def abortBelow : List (Action ℕ ℕ ℕ) :=
  [.initContent 0 10, .start 1 100, .start 2 101, .write 1 0 11, .write 2 0 12, .abort 1]

/-- A transaction aborts in `process_rprepare` and again in `process_rfin`; in between another one
writes the key, validates, commits and finishes. -/
def abortTwice : List (Action ℕ ℕ ℕ) :=
  [.initContent 0 10, .start 1 100, .start 2 101, .write 1 0 11, .abort 1, .write 2 0 12,
    .validate 2, .validateBegin 2 102, .validateEnd 2, .commit 2, .finish 2, .finishEnd 2, .abort 1]

/-- The abort of the first writer takes away the content of the second one and brings back its own;
the second abort of an attempt takes away the content of a transaction that committed. -/
theorem aborts_foreign_writes : (∃ s ∈ (machine ℕ ℕ ℕ).run abortBelow,
      (s.ccMap 0).map (·.content.value) = some 11 ∧ (s.expected 0).map Content.value = some 12) ∧
    ∃ s ∈ (machine ℕ ℕ ℕ).run abortTwice,
      (s.ccMap 0).map (·.content.value) = some 10 ∧ (s.expected 0).map Content.value = some 12 := by
  decide +kernel

end FrameworkOptimistic

end Deneva
