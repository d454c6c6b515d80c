import Deneva.Transition

/-!
# The semaphore of a content (`framework/utils/concurrencyOCC.cpp`)

A `CC_O` has a semaphore, which `read` waits for and posts, and which `per_row_validate` of
`concurrency_controller_otimistic.cpp` waits for and posts around the validation of each content.
`read` has an exit that does not post: the one for a transaction older than the last write.

`CCO` has the functions of a content, `perRowValidate` is the loop over the sets of a transaction. A
wait for a semaphore that is `0` has no result.
-/

namespace Deneva

open Function List Option

namespace ContentSemaphore

/-- `TransactionF`, with the keys of the contents in its sets. -/
structure TransactionF where
  readset : List ℕ
  writeset : List ℕ
  timestampStartup : ℕ
  timestampCommit : ℕ

/-- `CC_O`. -/
structure CCO (V : Type) where
  /-- the value of `_semaphore` -/
  semaphore : ℕ
  wts : ℕ
  /-- the value of `content` -/
  content : V
  /-- the value of `previousContent`; not set before the first write -/
  previousContent : Option V

variable {T V : Type}

namespace CCO

/-- The constructor. -/
def init (content : V) : CCO V := ⟨1, 0, content, none⟩

/-- `sem_wait`. -/
def semWait (c : CCO V) : Option (CCO V) :=
  if 0 < c.semaphore then some { c with semaphore := c.semaphore - 1 } else none

/-- `sem_post`. -/
def semPost (c : CCO V) : CCO V := { c with semaphore := c.semaphore + 1 }

/-- `CC_O::read`, with the content if it may be read. -/
def read (x : TransactionF) (c : CCO V) : Option (Option V × CCO V) :=
  c.semWait.map fun c => if x.timestampStartup < c.wts then (none, c)
    else (some c.content, c.semPost)

/-- `CC_O::write`. -/
def write (perRowValid : Bool) (x : TransactionF) (content1 : V) (c : CCO V) : CCO V :=
  { c with
    previousContent := some c.content
    content := content1
    wts := if perRowValid then x.timestampStartup else c.wts }

/-- `CC_O::validate`. -/
def validate (x : TransactionF) (c : CCO V) : Bool := !decide (x.timestampCommit < c.wts)

/-- `CC_O::abortWrites`; `commitWrites` does nothing. -/
def abortWrites (c : CCO V) : CCO V := { c with content := c.previousContent.getD c.content }

end CCO

/-- One content in `per_row_validate`: `getControl`, `validate` and `releaseControl`. -/
def validateContent (x : TransactionF) (key : ℕ) (ccMap : ℕ → Option (CCO V)) :
    Option (Bool × (ℕ → Option (CCO V))) :=
  (ccMap key).bind fun c => c.semWait.map fun c =>
    (c.validate x, update ccMap key (some c.semPost))

/-- The loops of `per_row_validate`: they end when a validation has failed. -/
def validateAll (x : TransactionF) :
    List ℕ → (ℕ → Option (CCO V)) → Option (Bool × (ℕ → Option (CCO V)))
  | [], ccMap => some (true, ccMap)
  | key :: keys, ccMap =>
    (validateContent x key ccMap).bind fun (ok, ccMap) =>
      if ok then validateAll x keys ccMap else some (false, ccMap)

/-- `ConcurrencyManagerOtimistic::per_row_validate`. -/
def perRowValidate (x : TransactionF) (ccMap : ℕ → Option (CCO V)) :
    Option (Bool × (ℕ → Option (CCO V))) :=
  validateAll x (x.readset.mergeSort ++ x.writeset.mergeSort) ccMap

/-- `concurrencyControlMap` and the transactions. -/
structure State (T V : Type) where
  /-- `concurrencyControlMap` -/
  ccMap : ℕ → Option (CCO V)
  /-- the transaction objects -/
  txn : T → TransactionF

/-- A call. -/
inductive Action (T V : Type) where
  | initContent (key : ℕ) (row : V)
  /-- the transaction gets timestamps -/
  | timestamps (t : T) (startup commit : ℕ)
  | read (t : T) (key : ℕ)
  | write (t : T) (key : ℕ) (row : V)
  | perRowValidate (t : T)
  | commitWrites (key : ℕ)
  | abortWrites (key : ℕ)
  | clearSets (t : T)

variable [DecidableEq T]

/-- Calls in any order, one after the other. A call on a key that is not there throws, and nothing
happens. -/
def machine (T V : Type) [DecidableEq T] (perRowValid : Bool) :
    Machine (State T V) (Action T V) where
  init := ⟨fun _ => none, fun _ => ⟨[], [], 0, 0⟩⟩
  step s
    | .initContent key row =>
      some { s with ccMap := update s.ccMap key (some ((s.ccMap key).getD (.init row))) }
    | .timestamps t startup commit =>
      some { s with
        txn := update s.txn t
          { s.txn t with timestampStartup := startup, timestampCommit := commit } }
    | .read t key =>
      match s.ccMap key with
      | none => some s
      | some c =>
        (c.read (s.txn t)).map fun (content, c) =>
          { ccMap := update s.ccMap key (some c)
            txn := if content.isSome then
                update s.txn t { s.txn t with readset := (s.txn t).readset ++ [key] }
              else s.txn }
    | .write t key row =>
      match s.ccMap key with
      | none => some s
      | some c =>
        some
          { ccMap := update s.ccMap key (some (c.write perRowValid (s.txn t) row))
            txn := update s.txn t { s.txn t with writeset := (s.txn t).writeset ++ [key] } }
    | .perRowValidate t =>
      (perRowValidate (s.txn t) s.ccMap).map fun (_, ccMap) => { s with ccMap := ccMap }
    | .commitWrites _ => some s
    | .abortWrites key =>
      some { s with ccMap := update s.ccMap key ((s.ccMap key).map CCO.abortWrites) }
    | .clearSets t =>
      some { s with txn := update s.txn t { s.txn t with readset := [], writeset := [] } }

/-- **The semaphores are balanced.** -/
def Balanced (ccMap : ℕ → Option (CCO V)) : Prop := ∀ key, ∀ c ∈ ccMap key, c.semaphore = 1

/-- What a transaction has accessed is there. -/
def Loaded (s : State T V) : Prop :=
  ∀ t, ∀ key ∈ (s.txn t).readset ++ (s.txn t).writeset, (s.ccMap key).isSome

/-- No read and no validation is blocked. -/
def Unblocked (perRowValid : Bool) (s : State T V) : Prop :=
  ∀ t, (∀ key, ((machine T V perRowValid).step s (.read t key)).isSome) ∧
    ((machine T V perRowValid).step s (.perRowValidate t)).isSome

/-- A transaction reads no content that a later one has written. -/
def ReadsInOrder (s : State T V) : Action T V → Prop
  | .read t key => ∀ c ∈ s.ccMap key, c.wts ≤ (s.txn t).timestampStartup
  | _ => True

variable {perRowValid : Bool} {ccMap : ℕ → Option (CCO V)} {s s' : State T V} {c : CCO V} {key : ℕ}

/-! ## Calls -/

omit [DecidableEq T]

theorem CCO.semWait_eq (h : c.semaphore = 1) : c.semWait = some { c with semaphore := 0 } := by
  rw [CCO.semWait, h]
  rfl

theorem CCO.semPost_eq (h : c.semaphore = 1) : ({ c with semaphore := 0 } : CCO V).semPost = c := by
  rw [CCO.semPost, Nat.zero_add, ← h]

theorem forall_update {p : CCO V → Prop} (h : ∀ key, ∀ c ∈ ccMap key, p c) (hc : p c) :
    ∀ key', ∀ c' ∈ update ccMap key (some c) key', p c' :=
  (forall_update_iff ccMap fun _ o => ∀ c ∈ o, p c).mpr
    ⟨fun _ h => some.inj h ▸ hc, fun key _ => h key⟩

theorem Balanced.update (h : Balanced ccMap) (hc : c.semaphore = 1) :
    Balanced (update ccMap key (some c)) := forall_update h hc

/-- A validation leaves everything as it was. -/
theorem validateAll_eq (h : Balanced ccMap) (x : TransactionF) (keys : List ℕ)
    (hkeys : ∀ key ∈ keys, (ccMap key).isSome) :
    ∃ ok, validateAll x keys ccMap = some (ok, ccMap) := by
  induction keys with
  | nil => exact ⟨true, rfl⟩
  | cons key keys ih =>
    obtain ⟨hkey, hkeys⟩ := forall_mem_cons.mp hkeys
    obtain ⟨c, hc⟩ := Option.isSome_iff_exists.mp hkey
    obtain ⟨ok, hrest⟩ := ih hkeys
    have hsem := h key c hc
    have hsame : update ccMap key (some c) = ccMap := by rw [← hc, update_eq_self]
    rw [validateAll, validateContent, hc, bind_some, CCO.semWait_eq hsem, map_some,
      CCO.semPost_eq hsem, hsame, bind_some]
    dsimp only
    split
    · exact ⟨ok, hrest⟩
    · exact ⟨false, rfl⟩

theorem perRowValidate_eq (h : Balanced s.ccMap) (hl : Loaded s) (t : T) :
    ∃ ok, perRowValidate (s.txn t) s.ccMap = some (ok, s.ccMap) := by
  apply validateAll_eq h
  intro key hkey
  rw [mem_append, mem_mergeSort, mem_mergeSort, ← mem_append] at hkey
  exact hl t key hkey

/-- A read leaves the semaphore at `1` unless it is refused. -/
theorem CCO.read_eq (h : c.semaphore = 1) (x : TransactionF) :
    c.read x = some (if x.timestampStartup < c.wts then (none, { c with semaphore := 0 })
      else (some c.content, c)) := by
  rw [CCO.read, CCO.semWait_eq h, map_some, CCO.semPost_eq h]

theorem isSome_update (h : (ccMap key).isSome) (key' : ℕ) (c : CCO V) :
    (update ccMap key' (some c) key).isSome := by
  rw [update_apply]
  split
  · rfl
  · exact h

variable [DecidableEq T]

/-- A transaction gets new sets, of contents that are there. -/
theorem Loaded.update (h : Loaded s) {t : T} {x : TransactionF}
    (hmap : ∀ key, (s.ccMap key).isSome → (ccMap key).isSome)
    (hx : ∀ key ∈ x.readset ++ x.writeset, key ∈ (s.txn t).readset ++ (s.txn t).writeset ∨
      (s.ccMap key).isSome) : Loaded ⟨ccMap, update s.txn t x⟩ := by
  intro t' key hkey
  simp only [update_apply] at hkey
  split at hkey
  · rcases hx key hkey with hkey | hkey
    · exact hmap key (h t key hkey)
    · exact hmap key hkey
  · exact hmap key (h t' key hkey)

theorem unblocked (h : Balanced s.ccMap) (hl : Loaded s) : Unblocked perRowValid s := by
  refine fun t => ⟨fun key => ?_, ?_⟩
  · simp only [machine]
    split
    · rfl
    next c hc =>
      rw [CCO.read_eq (h key c hc)]
      rfl
  · obtain ⟨ok, hval⟩ := perRowValidate_eq h hl t
    simp only [machine, hval]
    rfl

/-- **One call.** -/
theorem balanced_step {a : Action T V} (h : Balanced s.ccMap) (hl : Loaded s)
    (hs : (machine T V perRowValid).step s a = some s') :
    (Balanced s'.ccMap ↔ ReadsInOrder s a) ∧ (ReadsInOrder s a → Loaded s') := by
  cases a with
  | initContent key row =>
    cases hs
    refine ⟨iff_of_true (h.update ?_) trivial, fun _ t k hk => isSome_update (hl t k hk) ..⟩
    cases hc : s.ccMap key with
    | none => rfl
    | some c => exact h key c hc
  | timestamps t startup commit =>
    cases hs
    exact ⟨iff_of_true h trivial, fun _ => hl.update (fun _ => id) fun _ => .inl⟩
  | read t key =>
    simp only [machine] at hs
    split at hs
    next hc =>
      cases hs
      refine ⟨iff_of_true h fun c hc' => ?_, fun _ => hl⟩
      cases hc.symm.trans hc'
    next c hc =>
      have hsem := h key c hc
      have hok : ReadsInOrder s (.read t key) ↔ c.wts ≤ (s.txn t).timestampStartup :=
        ⟨fun hok => hok c hc, fun hok c' hc' => some.inj (hc.symm.trans hc') ▸ hok⟩
      rw [CCO.read_eq hsem, map_some, some.injEq] at hs
      rw [hok]
      split at hs
      · -- the exit without `sem_post`
        subst hs
        refine ⟨iff_of_false (fun hbal => ?_) (Nat.not_le_of_lt ‹_›),
          fun hle => absurd hle (Nat.not_le_of_lt ‹_›)⟩
        cases hbal key _ (update_self ..)
      · subst hs
        refine ⟨iff_of_true (h.update hsem) (Nat.le_of_not_lt ‹_›), fun _ =>
          hl.update (fun k hk => isSome_update hk ..) ?_⟩
        intro k hk
        simp only [mem_append, mem_singleton] at hk ⊢
        rcases hk with (hk | rfl) | hk
        · exact .inl (.inl hk)
        · exact .inr (hc ▸ rfl)
        · exact .inl (.inr hk)
  | write t key row =>
    simp only [machine] at hs
    split at hs
    · cases hs
      exact ⟨iff_of_true h trivial, fun _ => hl⟩
    next c hc =>
      cases hs
      refine ⟨iff_of_true (h.update (h key c hc)) trivial, fun _ =>
        hl.update (fun k hk => isSome_update hk ..) ?_⟩
      intro k hk
      rw [← append_assoc, mem_append, mem_singleton] at hk
      rcases hk with hk | rfl
      · exact .inl hk
      · exact .inr (hc ▸ rfl)
  | perRowValidate t =>
    obtain ⟨ok, hval⟩ := perRowValidate_eq h hl t
    simp only [machine, hval] at hs
    cases hs
    exact ⟨iff_of_true h trivial, fun _ => hl⟩
  | commitWrites key =>
    cases hs
    exact ⟨iff_of_true h trivial, fun _ => hl⟩
  | abortWrites key =>
    simp only [machine, some.injEq] at hs
    subst hs
    cases hc : s.ccMap key with
    | none =>
      rw [map_none, ← hc, update_eq_self]
      exact ⟨iff_of_true h trivial, fun _ => hl⟩
    | some c =>
      exact ⟨iff_of_true (h.update (h key c hc)) trivial,
        fun _ t k hk => isSome_update (hl t k hk) ..⟩
  | clearSets t =>
    cases hs
    exact ⟨iff_of_true h trivial, fun _ => hl.update (fun _ => id) nofun⟩

/-- Without `PER_ROW_VALID` no timestamps are written. -/
theorem wts_step {a : Action T V} (h : Balanced s.ccMap) (hl : Loaded s)
    (hwts : ∀ key, ∀ c ∈ s.ccMap key, c.wts = 0) (hs : (machine T V false).step s a = some s') :
    ∀ key, ∀ c ∈ s'.ccMap key, c.wts = 0 := by
  cases a with
  | initContent key row =>
    cases hs
    refine forall_update hwts ?_
    cases hc : s.ccMap key with
    | none => rfl
    | some c => exact hwts key c hc
  | read t key =>
    simp only [machine] at hs
    split at hs
    · cases hs
      exact hwts
    next c hc =>
      rw [CCO.read_eq (h key c hc), map_some, some.injEq] at hs
      subst hs
      refine forall_update hwts ?_
      split <;> exact hwts key c hc
  | write t key row =>
    simp only [machine] at hs
    split at hs
    · cases hs
      exact hwts
    next c hc =>
      cases hs
      exact forall_update hwts (hwts key c hc)
  | perRowValidate t =>
    obtain ⟨ok, hval⟩ := perRowValidate_eq h hl t
    simp only [machine, hval] at hs
    cases hs
    exact hwts
  | abortWrites key =>
    cases hs
    refine (forall_update_iff s.ccMap fun _ o => ∀ c ∈ o, c.wts = 0).mpr ⟨?_, fun k _ => hwts k⟩
    intro c hc
    obtain ⟨c', hc', rfl⟩ := map_eq_some_iff.mp hc
    exact hwts key c' hc'
  | timestamps | commitWrites | clearSets =>
    cases hs
    exact hwts

/-- **The semaphores are balanced, and nobody is blocked,** exactly in the runs in which no
transaction reads a content that a later one has written; without `PER_ROW_VALID` that is so in all
runs. -/
theorem semaphores_balanced_iff (perRowValid : Bool) (as : List (Action T V)) :
    ((∀ k, ∀ s ∈ (machine T V perRowValid).run (as.take k), Balanced s.ccMap ∧
      Unblocked perRowValid s) ↔
      (machine T V perRowValid).RunOk ReadsInOrder (machine T V perRowValid).init as) ∧
    (perRowValid = false →
      (machine T V perRowValid).RunOk ReadsInOrder (machine T V perRowValid).init as) := by
  refine ⟨?_, ?_⟩
  · apply Machine.runFrom_iff_runOk_of_inv (I := fun s => Balanced s.ccMap ∧ Loaded s)
    · rintro s a ⟨h, hl⟩ hnone
      cases a with
      | read t key =>
        have hsome : ((machine T V perRowValid).step s (.read t key)).isSome :=
          (unblocked h hl t).1 key
        rw [hnone] at hsome
        cases hsome
      | _ => trivial
    · rintro s a s' ⟨h, hl⟩ - hs
      obtain ⟨hiff, hl'⟩ := balanced_step h hl hs
      refine ⟨⟨fun hb => hiff.mp hb.1, fun hok =>
        ⟨hiff.mpr hok, unblocked (hiff.mpr hok) (hl' hok)⟩⟩, fun hok => ?_⟩
      exact ⟨hiff.mpr hok, hl' hok⟩
    · exact ⟨nofun, nofun⟩
    · exact ⟨nofun, unblocked nofun nofun⟩
  · rintro rfl
    refine Machine.runOk_of_invariant
      (I := fun s => Balanced s.ccMap ∧ Loaded s ∧ ∀ key, ∀ c ∈ s.ccMap key, c.wts = 0) ?_ ?_ ?_ as
    · rintro s a ⟨-, -, hwts⟩
      cases a with
      | read t key => exact fun c hc => hwts key c hc ▸ Nat.zero_le _
      | _ => trivial
    · rintro s a s' ⟨h, hl, hwts⟩ hok hs
      obtain ⟨hiff, hl'⟩ := balanced_step h hl hs
      exact ⟨hiff.mpr hok, hl' hok, wts_step h hl hwts hs⟩
    · exact ⟨nofun, nofun, nofun⟩

/-- A transaction that started earlier is refused, and the next read waits for ever. -/
theorem semaphore_stuck : let calls : List (Action Bool ℕ) :=
  [.initContent 1 0, .timestamps true 10 0, .timestamps false 5 0,
      .write true 1 7, .read false 1]
    (((machine Bool ℕ true).run calls).bind fun s => (s.ccMap 1).map CCO.semaphore) = some 0 ∧
      ((machine Bool ℕ true).run (calls ++ [.read true 1])).isNone := by
  decide

end ContentSemaphore

end Deneva
