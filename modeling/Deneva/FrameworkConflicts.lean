import Deneva.FrameworkOptimistic

/-!
# Which conflicts the optimistic framework sees

`central_validate` should find conflicts by key: two sets meet if they have a key in common
(`ByKey`), and a transaction that read a key is not validated if somebody else wrote the key and
finished, validated, since its start timestamp (`NoneMissed`).

* The sets hold pointers, and every write replaces the pointer of its key, as `abort` does. A set
  that was built before does not meet one that is built after.
* `history` is numbered by a counter, and searched between two timestamps of the clock.
* `central_finish` pushes to `history` what it finds in `active`. A transaction that was validated
  once is not checked again, and does not get to `active` again.
-/

namespace Deneva

universe u

open Function List Option

namespace FrameworkOptimistic

open State

variable {T K V : Type u} [DecidableEq T] [DecidableEq K]

/-! ## The law -/

/-- Two sets have a key in common. -/
def ShareKey (set1 set2 : List (Ptr K)) : Prop := ∃ p ∈ set1, ∃ q ∈ set2, p.key = q.key

/-- **Sets are compared by key**: of two sets of different transactions, `test_valid` says that they
meet exactly if they have a key in common. -/
def State.ByKey (s : State T K V) : Prop :=
  ∀ x ∈ s.past.sets, ∀ y ∈ s.past.sets, x.1 ≠ y.1 →
    (Occ.testValid x.2 y.2 = false ↔ ShareKey x.2 y.2)

/-- Another transaction, among those that finished meanwhile, wrote one of the keys. -/
def Missed (t : T) (keys : List K) (meanwhile : List (Finish T K)) : Prop :=
  ∃ f ∈ meanwhile, f.txn ≠ t ∧ ∃ k ∈ keys, k ∈ f.keys

/-- **No conflict is missed** by a validation that succeeds. -/
def State.NoneMissed (s : State T K V) : Prop :=
  ∀ p ∈ s.past.passes, ¬ Missed p.txn p.keys p.meanwhile

instance (set1 set2 : List (Ptr K)) : Decidable (ShareKey set1 set2) := by
  unfold ShareKey; infer_instance

instance (s : State T K V) : Decidable s.ByKey := by
  unfold State.ByKey; infer_instance

instance (t : T) (keys : List K) (meanwhile : List (Finish T K)) :
    Decidable (Missed t keys meanwhile) := by
  unfold Missed; infer_instance

instance (s : State T K V) : Decidable s.NoneMissed := by
  unfold State.NoneMissed; infer_instance

/-- **Conflicts are detected by key.** -/
def State.ConflictsSeen (s : State T K V) : Prop := s.ByKey ∧ s.NoneMissed

/-! ## What a step needs for it -/

/-- A set that `get_rw_set` has built holds a pointer to a content of the key. -/
def State.Listed (s : State T K V) (key : K) : Prop :=
  ∃ x ∈ s.past.sets, key ∈ x.2.map Ptr.key

/-- The condition: contents that sets point to are not replaced; the clock shows at most the counter
where a transaction starts, and at least the counter where it validates; a transaction that is
validated is not validated again; and one that wrote and finishes, validated, is in `active`. -/
def Steady (s : State T K V) : Action T K V → Prop
  | .start _ now => now ≤ s.tnc
  | .write _ key _ => ¬ s.Listed key
  | .abort t => ∀ c ∈ (s.txn t).writeset, ¬ s.Listed c.key
  | .validate t => (s.txn t).validated = false
  | .validateBegin _ now => s.tnc ≤ now
  | .finishEnd t => (s.txn t).validated = true → (s.txn t).writeset.isEmpty = false →
      ∃ e ∈ s.active, e.txn = t
  | _ => True

instance (s : State T K V) (key : K) : Decidable (s.Listed key) := by
  unfold State.Listed; infer_instance

instance (s : State T K V) (a : Action T K V) : Decidable (Steady s a) := by
  cases a <;> dsimp only [Steady] <;> infer_instance

/-! ## Contents and their keys -/

/-- The pointer is that of the current content of its key. -/
def State.Current (s : State T K V) (p : Ptr K) : Prop :=
  (s.ccMap p.key).map (fun cc => cc.content.ptr) = some p

/-- The content stands in the read or write set. -/
def TransactionF.Has (x : TransactionF K V) (c : Content K V) : Prop :=
  c ∈ x.readset ∨ c ∈ x.writeset

/-- What the sets rest on. -/
structure Keyed (s : State T K V) : Prop where
  /-- a content stands under its own key -/
  content : ∀ k cc, s.ccMap k = some cc →
    cc.content.key = k ∧ ∀ c, cc.previousContent = some c → c.key = k
  /-- the keys of the read and write sets are there -/
  present : ∀ t c, (s.txn t).Has c → s.ccMap c.key ≠ none

variable {s s' : State T K V} {cs : List (Content K V)} {t : T} {a : Action T K V}
  {v : Occ.Validation T (Ptr K)} {meanwhile : List (Finish T K)} {n : ℕ}

omit [DecidableEq K] in
/-- A new value of a transaction object. -/
theorem present_update {f : T → TransactionF K V} {m : K → Option (CCO K V)} {x : TransactionF K V}
    (hf : ∀ t c, (f t).Has c → m c.key ≠ none) (hx : ∀ c, x.Has c → m c.key ≠ none) (t' : T)
    (c : Content K V) (hc : (update f t x t').Has c) : m c.key ≠ none := by
  rcases eq_or_ne t' t with rfl | hne
  · rw [update_self] at hc
    exact hx c hc
  · rw [update_of_ne hne] at hc
    exact hf t' c hc

section

variable (hs : Keyed s)

include hs

omit [DecidableEq T] [DecidableEq K] in
/-- The pointers of a set that is built are current. -/
theorem Keyed.current_of_mem {p : Ptr K} (hp : p ∈ s.getSet cs) : s.Current p := by
  obtain ⟨c, -, hp⟩ := mem_filterMap.mp hp
  obtain ⟨cc, hcc, rfl⟩ := map_eq_some_iff.mp hp
  have hkey : cc.content.ptr.key = c.key := (hs.content c.key cc hcc).1
  rw [State.Current, hkey, hp]

omit [DecidableEq T] [DecidableEq K] in
/-- `get_rw_set` keeps the keys of the set. -/
theorem Keyed.getSet_keys (hcs : ∀ c ∈ cs, s.ccMap c.key ≠ none) :
    (s.getSet cs).map Ptr.key = cs.map Content.key := by
  induction cs with
  | nil => rfl
  | cons c cs ih =>
    obtain ⟨cc, hcc⟩ := Option.ne_none_iff_exists'.mp (hcs c (mem_cons_self ..))
    have hrest := ih fun x hx => hcs x (mem_cons_of_mem _ hx)
    rw [getSet] at hrest ⊢
    simp only [filterMap_cons, hcc, map_some, map_cons, hrest, List.cons.injEq, and_true]
    exact (hs.content c.key cc hcc).1

omit [DecidableEq T] in
theorem keyed_initContent (key : K) (row : V) : Keyed (s.initContent key row) := by
  rw [initContent]
  split
  · exact hs
  · refine ⟨fun k cc hcc => ?_, fun t c hc => ?_⟩
    · rcases eq_or_ne k key with rfl | hne
      · simp only [update_self, some.injEq] at hcc
        simp [← hcc]
      · exact hs.content k cc ((update_of_ne hne ..).symm.trans hcc)
    · rcases eq_or_ne c.key key with heq | hne
      · simp [heq]
      · simpa [hne] using hs.present t c hc

omit [DecidableEq K] in
theorem keyed_read (t : T) (key : K) : Keyed (s.read t key) := by
  rw [State.read]
  split
  · exact hs
  next cc hcc =>
    refine ⟨hs.content, present_update hs.present ?_⟩
    rintro c (hc | hc)
    · rcases mem_append.mp hc with hc | hc
      · exact hs.present t c (.inl hc)
      · rw [mem_singleton.mp hc, (hs.content key cc hcc).1]
        simp [setTxn, hcc]
    · exact hs.present t c (.inr hc)

theorem keyed_write (t : T) (key : K) (row : V) : Keyed (s.write t key row) := by
  rw [write]
  split
  · exact hs
  next cc hcc =>
    have hmono : ∀ k, s.ccMap k ≠ none → update s.ccMap key
        (some (cc.write ⟨s.next, key, row⟩)) k ≠ none := by
      intro k hk
      rcases eq_or_ne k key with rfl | hne
      · simp
      · rwa [update_of_ne hne]
    refine ⟨fun k cc' hcc' => ?_, present_update (fun t c hc => hmono _ (hs.present t c hc)) ?_⟩
    · rcases eq_or_ne k key with rfl | hne
      · simp only [update_self, some.injEq] at hcc'
        rw [← hcc']
        refine ⟨rfl, fun c hc => ?_⟩
        rw [← some.inj hc]
        exact (hs.content k cc hcc).1
      · exact hs.content k cc' ((update_of_ne hne ..).symm.trans hcc')
    · rintro c (hc | hc)
      · exact hmono _ (hs.present t c (.inl hc))
      · rcases mem_append.mp hc with hc | hc
        · exact hmono _ (hs.present t c (.inr hc))
        · rw [mem_singleton.mp hc]
          simp

/-- Going back leads to a content of the same key. -/
theorem keyed_abort (t : T) : Keyed (s.abort t) := by
  refine ⟨fun k cc hcc => ?_, fun t' c hc => ?_⟩
  · simp only [abort, abortAll_apply] at hcc
    split at hcc
    · obtain ⟨cc₀, hcc₀, rfl⟩ := map_eq_some_iff.mp hcc
      obtain ⟨hkey, hprev⟩ := hs.content k cc₀ hcc₀
      refine ⟨?_, hprev⟩
      cases hp : cc₀.previousContent with
      | none => simpa [CCO.abortWrites, hp] using hkey
      | some c => simpa [CCO.abortWrites, hp] using hprev c hp
    · exact hs.content k cc hcc
  · have := hs.present t' c hc
    simp only [abort, abortAll_apply]
    split <;> simpa using this

theorem keyed_step (h : Step s a s') : Keyed s' := by
  cases h with
  | initContent key row => exact keyed_initContent hs key row
  | start t now | validateBegin t now rset wset =>
    exact ⟨hs.content, present_update hs.present (hs.present t)⟩
  | read t key => exact keyed_read hs t key
  | write t key row => exact keyed_write hs t key row
  | validate t =>
    rw [validate]
    split <;> exact ⟨hs.content, hs.present⟩
  | validateEnd t v meanwhile =>
    rw [validateEnd]
    split
    · exact ⟨hs.content, present_update hs.present (hs.present t)⟩
    · exact ⟨hs.content, hs.present⟩
  | dropActive t | finish t => exact ⟨hs.content, hs.present⟩
  | commit t => exact hs
  | abort t => exact keyed_abort hs t
  | finishEnd t wset =>
    have hmap : (s.finishEnd t wset).ccMap = s.ccMap := by
      simp only [finishEnd, centralFinish, removeActive]
      split_ifs <;> rfl
    refine ⟨by rw [hmap]; exact hs.content, present_update (by rw [hmap]; exact hs.present) ?_⟩
    rintro c (hc | hc) <;> cases hc

end

/-! ## The numbers -/

/-- What most steps leave alone. -/
structure Quiet (s s' : State T K V) : Prop where
  history : s'.history = s.history
  tnc : s'.tnc = s.tnc
  finishes : s'.past.finishes = s.past.finishes
  since : s'.past.since = s.past.since
  startup : ∀ t, (s'.txn t).timestampStartup = (s.txn t).timestampStartup
  /-- no check begins -/
  checking : ∀ t v meanwhile, s'.stage t = .checking v meanwhile → s.stage t = .checking v meanwhile
  /-- who goes into a call has begun -/
  begun : ∀ t, s'.stage t ≠ .idle → s.stage t ≠ .idle ∨ s.past.since t ≠ none

omit [DecidableEq K] in
/-- A transaction that is set to do something else is in no check. -/
theorem checking_of_update {stage : T → Stage T K} {t' : T} {p : Stage T K}
    (hp : p ≠ .checking v meanwhile) (h : update stage t p t' = .checking v meanwhile) :
    stage t' = .checking v meanwhile := by
  rcases eq_or_ne t' t with rfl | hne
  · rw [update_self] at h
    exact absurd h hp
  · rwa [update_of_ne hne] at h

omit [DecidableEq K] in
/-- A step of one transaction, which starts no check. -/
theorem Quiet.of_update {p : Stage T K} (hhis : s'.history = s.history) (htnc : s'.tnc = s.tnc)
    (hfin : s'.past.finishes = s.past.finishes) (hsince : s'.past.since = s.past.since)
    (hstart : ∀ t, (s'.txn t).timestampStartup = (s.txn t).timestampStartup)
    (hstage : s'.stage = update s.stage t p) (hp : ∀ v meanwhile, p ≠ .checking v meanwhile)
    (hbegun : s.stage t ≠ .idle ∨ s.past.since t ≠ none) : Quiet s s' where
  history := hhis
  tnc := htnc
  finishes := hfin
  since := hsince
  startup := hstart
  checking t' v meanwhile h := checking_of_update (hp v meanwhile) (hstage ▸ h)
  begun t' h := by
    rcases eq_or_ne t' t with rfl | hne
    · exact hbegun
    · rw [hstage, update_of_ne hne] at h
      exact .inl h

omit [DecidableEq T] [DecidableEq K] in
/-- A step that changes no call in progress. -/
theorem Quiet.of_stage (hhis : s'.history = s.history) (htnc : s'.tnc = s.tnc)
    (hfin : s'.past.finishes = s.past.finishes) (hsince : s'.past.since = s.past.since)
    (hstart : ∀ t, (s'.txn t).timestampStartup = (s.txn t).timestampStartup)
    (hstage : s'.stage = s.stage) : Quiet s s' where
  history := hhis
  tnc := htnc
  finishes := hfin
  since := hsince
  startup := hstart
  checking _ _ _ h := hstage ▸ h
  begun _ h := .inl (hstage ▸ h)

/-- The steps that are not quiet. -/
def Action.Counts : Action T K V → Prop
  | .start _ _ | .validateBegin _ _ | .finishEnd _ => True
  | _ => False

theorem Step.quiet (h : Step s a s') (ha : ¬ a.Counts) : Quiet s s' := by
  cases h with
  | start | validateBegin | finishEnd => exact absurd trivial ha
  | initContent key row =>
    rw [State.initContent]
    split <;> exact .of_stage rfl rfl rfl rfl (fun _ => rfl) rfl
  | read t key =>
    rw [State.read]
    split
    · exact .of_stage rfl rfl rfl rfl (fun _ => rfl) rfl
    · exact .of_stage rfl rfl rfl rfl (update_field _ rfl) rfl
  | write t key row =>
    rw [State.write]
    split
    · exact .of_stage rfl rfl rfl rfl (fun _ => rfl) rfl
    · exact .of_stage rfl rfl rfl rfl (update_field TransactionF.timestampStartup rfl) rfl
  | validate t hidle hbegun =>
    rw [State.validate]
    split
    · exact .of_stage rfl rfl rfl rfl (fun _ => rfl) rfl
    · exact .of_update rfl rfl rfl rfl (fun _ => rfl) rfl (by simp) (.inr hbegun)
  | validateEnd t v meanwhile hat =>
    have hcall : s.stage t ≠ .idle := by simp [hat]
    rw [State.validateEnd]
    split
    · exact .of_update rfl rfl rfl rfl (update_field TransactionF.timestampStartup rfl) rfl
        (by simp) (.inl hcall)
    · exact .of_update rfl rfl rfl rfl (fun _ => rfl) rfl (by simp) (.inl hcall)
  | dropActive t hat =>
    exact .of_update rfl rfl rfl rfl (fun _ => rfl) rfl (by simp) (.inl (by simp [hat]))
  | commit t | abort t => exact .of_stage rfl rfl rfl rfl (fun _ => rfl) rfl
  | finish t hidle hbegun =>
    exact .of_update rfl rfl rfl rfl (fun _ => rfl) rfl (by simp) (.inr hbegun)

/-- `history` is in descending order, also where a validation has read it. -/
structure Ordered (s : State T K V) : Prop where
  /-- the order -/
  history : s.history.Pairwise fun a b => b.tn < a.tn
  /-- the numbers come from the counter -/
  counted : ∀ e ∈ s.history, e.tn ≤ s.tnc
  /-- what the validations have read -/
  checking : ∀ t v meanwhile, s.stage t = .checking v meanwhile →
    v.his.Pairwise fun a b => b.tn < a.tn

omit [DecidableEq T] [DecidableEq K] in
theorem ordered_init : Ordered (init : State T K V) :=
  ⟨List.Pairwise.nil, fun _ he => absurd he not_mem_nil, fun _ _ _ h => by cases h⟩

omit [DecidableEq K] in
/-- What `finish` adds to `history`. -/
theorem finishEnd_history (t : T) (wset : List (Ptr K)) (s : State T K V) :
    ((s.finishEnd t wset).history = s.history ∧ (s.finishEnd t wset).tnc = s.tnc ∧
      ((s.txn t).validated = true → wset = [] ∨ ∀ e ∈ s.active, e.txn ≠ t)) ∨
    ((s.finishEnd t wset).history = ⟨s.tnc + 1, t, wset⟩ :: s.history ∧
      (s.finishEnd t wset).tnc = s.tnc + 1) := by
  simp only [finishEnd, centralFinish, removeActive]
  split_ifs with hempty hactive hvalid
  · exact .inl ⟨rfl, rfl, fun _ => .inl (List.isEmpty_iff.mp hempty)⟩
  · exact .inr ⟨rfl, rfl⟩
  · exact .inl ⟨rfl, rfl, fun h => absurd h hvalid⟩
  · exact .inl ⟨rfl, rfl, fun _ => .inr (by simpa using hactive)⟩

omit [DecidableEq K] in
/-- The check that begins has read `history`. -/
theorem checking_of_validateBegin {t' : T} {now : ℕ} {rset wset : List (Ptr K)}
    (h : (s.validateBegin t now rset wset).stage t' = .checking v meanwhile) :
    s.stage t' = .checking v meanwhile ∨ t' = t ∧ v.his = s.history ∧ v.finishTn = now ∧
      v.rset = rset ∧ v.startTn = (s.txn t).timestampStartup ∧ meanwhile = s.meanwhile t := by
  rcases eq_or_ne t' t with rfl | hne
  · simp only [validateBegin, update_self, Stage.checking.injEq] at h
    obtain ⟨rfl, rfl⟩ := h
    exact .inr ⟨rfl, rfl, rfl, rfl, rfl, rfl⟩
  · exact .inl ((update_of_ne hne ..).symm.trans h)

theorem ordered_step (hs : Ordered s) (h : Step s a s') : Ordered s' := by
  by_cases ha : a.Counts
  · cases h with
    | start t now => exact ⟨hs.history, hs.counted, hs.checking⟩
    | validateBegin t now rset wset =>
      refine ⟨hs.history, hs.counted, fun t' v meanwhile hv => ?_⟩
      rcases checking_of_validateBegin hv with hv | ⟨-, hhis, -⟩
      · exact hs.checking t' v meanwhile hv
      · exact hhis ▸ hs.history
    | finishEnd t wset =>
      have hchecking := fun t' v meanwhile (hv : (s.finishEnd t wset).stage t' = _) =>
        hs.checking t' v meanwhile (checking_of_update (by simp) hv)
      rcases finishEnd_history t wset s with ⟨hhis, htnc, -⟩ | ⟨hhis, htnc⟩
      · exact ⟨hhis ▸ hs.history, by rw [hhis, htnc]; exact hs.counted, hchecking⟩
      · refine ⟨?_, ?_, hchecking⟩
        · rw [hhis, pairwise_cons]
          exact ⟨fun e he => Nat.lt_succ_of_le (hs.counted e he), hs.history⟩
        · rw [hhis, htnc, forall_mem_cons]
          exact ⟨le_refl _, fun e he => Nat.le_succ_of_le (hs.counted e he)⟩
    | _ => exact ha.elim
  · have hq := h.quiet ha
    exact ⟨hq.history ▸ hs.history, by rw [hq.history, hq.tnc]; exact hs.counted,
      fun t v meanwhile hv => hs.checking t v meanwhile (hq.checking t v meanwhile hv)⟩

/-! ## Sets of current contents -/

/-- What a call in progress has to do with the sets that were built. -/
def Stage.Built (sets : List (T × List (Ptr K))) (t : T) (x : TransactionF K V) : Stage T K → Prop
  | .sampled rset _ => (t, rset) ∈ sets ∧ rset.map Ptr.key = x.readset.map Content.key
  | .checking v _ => (t, v.rset) ∈ sets ∧ v.rset.map Ptr.key = x.readset.map Content.key ∧
      ∀ e ∈ v.his, (e.txn, e.rows) ∈ sets
  | .finishing wset => (t, wset) ∈ sets ∧ wset.map Ptr.key = x.writeset.map Content.key
  | _ => True

omit [DecidableEq T] [DecidableEq K] in
theorem Stage.Built.mono {sets sets' : List (T × List (Ptr K))} {x x' : TransactionF K V}
    {p : Stage T K} (h : p.Built sets t x) (hsub : sets ⊆ sets') (hr : x'.readset = x.readset)
    (hw : x'.writeset = x.writeset) : p.Built sets' t x' := by
  cases p with
  | idle | failed => trivial
  | sampled rset wset => exact ⟨hsub h.1, by rw [hr]; exact h.2⟩
  | checking v meanwhile => exact ⟨hsub h.1, by rw [hr]; exact h.2.1, fun e he => hsub (h.2.2 e he)⟩
  | finishing wset => exact ⟨hsub h.1, by rw [hw]; exact h.2⟩

/-- **The sets are up to date**: all of them still hold the current contents, and `history` and the
calls in progress work with them. -/
structure Sampled (s : State T K V) : Prop where
  /-- the contents -/
  current : ∀ x ∈ s.past.sets, ∀ p ∈ x.2, s.Current p
  /-- the entries of `history` -/
  history : ∀ e ∈ s.history, (e.txn, e.rows) ∈ s.past.sets
  /-- the calls -/
  call : ∀ t, (s.stage t).Built s.past.sets t (s.txn t)

section

variable (hs : Sampled s)

include hs

omit [DecidableEq T] [DecidableEq K] in
/-- A step that replaces no content a set points to. -/
theorem Sampled.current_of_eq (hmap : ∀ key, s.Listed key → s'.ccMap key = s.ccMap key)
    (x : T × List (Ptr K)) (hx : x ∈ s.past.sets) (p : Ptr K) (hp : p ∈ x.2) : s'.Current p := by
  rw [State.Current, hmap p.key ⟨x, hx, List.mem_map_of_mem hp⟩]
  exact hs.current x hx p hp

omit [DecidableEq T] [DecidableEq K] in
/-- A key that a set has is there. -/
theorem Sampled.ne_none {key : K} (h : s.Listed key) : s.ccMap key ≠ none := by
  obtain ⟨x, hx, hkey⟩ := h
  obtain ⟨p, hp, rfl⟩ := List.mem_map.mp hkey
  intro hnone
  have := hs.current x hx p hp
  rw [State.Current, hnone] at this
  cases this

omit [DecidableEq K] in
/-- A step of one transaction, whose new call is as it has to be. -/
theorem Sampled.call_update {p : Stage T K} {x : TransactionF K V} (hp : p.Built s.past.sets t x)
    (t' : T) : (update s.stage t p t').Built s.past.sets t' (update s.txn t x t') := by
  rcases eq_or_ne t' t with rfl | hne
  · simpa using hp
  · simpa [hne] using hs.call t'

omit [DecidableEq T] in
theorem sampled_initContent (key : K) (row : V) : Sampled (s.initContent key row) := by
  rw [initContent]
  split
  · exact hs
  next hnone =>
    refine ⟨hs.current_of_eq fun k hk => update_of_ne ?_ .., hs.history, hs.call⟩
    rintro rfl
    exact hs.ne_none hk hnone

omit [DecidableEq K] in
theorem sampled_read (key : K) (hidle : s.stage t = .idle) : Sampled (s.read t key) := by
  rw [State.read]
  split
  · exact hs
  next cc _ =>
    refine ⟨hs.current, hs.history, fun t' => ?_⟩
    have := hs.call_update (t := t) (p := .idle) (x := { s.txn t with
      readset := (s.txn t).readset ++ [cc.content] }) trivial t'
    rwa [← hidle, update_eq_self] at this

theorem sampled_write {key : K} (row : V) (hidle : s.stage t = .idle) (hkey : ¬ s.Listed key) :
    Sampled (s.write t key row) := by
  rw [write]
  split
  · exact hs
  · refine ⟨hs.current_of_eq fun k hk => update_of_ne ?_ .., hs.history, fun t' => ?_⟩
    · rintro rfl
      exact hkey hk
    · have := hs.call_update (t := t) (p := .idle) (x := { s.txn t with
        writeset := (s.txn t).writeset ++ [⟨s.next, key, row⟩] }) trivial t'
      rwa [← hidle, update_eq_self] at this

theorem sampled_abort (hkeys : ∀ c ∈ (s.txn t).writeset, ¬ s.Listed c.key) :
    Sampled (s.abort t) := by
  refine ⟨hs.current_of_eq fun k hk => ?_, hs.history, hs.call⟩
  simp only [abort, abortAll_apply]
  refine if_neg fun hmem => ?_
  obtain ⟨c, hc, rfl⟩ := List.mem_map.mp hmem
  exact hkeys c hc hk

omit [DecidableEq K] in
/-- The two sets of a transaction are built. -/
theorem Sampled.build (hk : Keyed s) {p : Stage T K} (hmap : s'.ccMap = s.ccMap)
    (hhis : s'.history = s.history) (htxn : s'.txn = s.txn) (hstage : s'.stage = update s.stage t p)
    (hsets : s'.past.sets =
      (t, s.getSet (s.txn t).readset) :: (t, s.getSet (s.txn t).writeset) :: s.past.sets)
    (hp : p.Built s'.past.sets t (s.txn t)) : Sampled s' := by
  have hsub : s.past.sets ⊆ s'.past.sets := by
    rw [hsets]
    exact fun x hx => mem_cons_of_mem _ (mem_cons_of_mem _ hx)
  refine ⟨fun x hx q hq => ?_, fun e he => hsub (hs.history e (hhis ▸ he)), fun t' => ?_⟩
  · rw [State.Current, hmap]
    rw [hsets] at hx
    rcases mem_cons.mp hx with rfl | hx
    · exact hk.current_of_mem hq
    · rcases mem_cons.mp hx with rfl | hx
      · exact hk.current_of_mem hq
      · exact hs.current x hx q hq
  · rw [hstage, htxn]
    rcases eq_or_ne t' t with rfl | hne
    · rwa [update_self]
    · rw [update_of_ne hne]
      exact (hs.call t').mono hsub rfl rfl

/-- **Every steady step keeps the sets up to date**: nobody overwrites a row that is in one of them.
-/
theorem sampled_step (hk : Keyed s) (hok : Steady s a) (h : Step s a s') : Sampled s' := by
  have hkeys := fun t => And.intro (hk.getSet_keys fun c hc => hk.present t c (.inl hc))
    (hk.getSet_keys fun c hc => hk.present t c (.inr hc))
  cases h with
  | initContent key row => exact sampled_initContent hs key row
  | start t now =>
    have hx : ∀ t', ((s.start t now).txn t').readset = (s.txn t').readset ∧
        ((s.start t now).txn t').writeset = (s.txn t').writeset := fun t' =>
      ⟨update_field TransactionF.readset (x := { s.txn t with timestampStartup := now }) rfl t',
        update_field TransactionF.writeset (x := { s.txn t with timestampStartup := now }) rfl t'⟩
    exact ⟨hs.current, hs.history, fun t' => (hs.call t').mono (Subset.refl _) (hx t').1 (hx t').2⟩
  | read t key hidle => exact sampled_read hs key hidle
  | write t key row hidle => exact sampled_write hs row hidle hok
  | validate t =>
    have hnot : ¬ (s.txn t).validated = true := by simpa [Steady] using hok
    rw [validate, if_neg hnot]
    exact hs.build hk rfl rfl rfl rfl rfl ⟨mem_cons_self, (hkeys t).1⟩
  | validateBegin t now rset wset hat =>
    refine ⟨hs.current, hs.history, hs.call_update ?_⟩
    have hcall := hs.call t
    rw [hat] at hcall
    exact ⟨hcall.1, hcall.2, hs.history⟩
  | validateEnd t v meanwhile hat =>
    rw [validateEnd]
    split
    · exact ⟨hs.current, hs.history, hs.call_update trivial⟩
    · refine ⟨hs.current, hs.history, fun t' => ?_⟩
      have := hs.call_update (t := t) (p := .failed) (x := s.txn t) trivial t'
      rwa [update_eq_self] at this
  | dropActive t hat =>
    refine ⟨hs.current, hs.history, fun t' => ?_⟩
    have := hs.call_update (t := t) (p := .idle) (x := s.txn t) trivial t'
    rwa [update_eq_self] at this
  | commit t => exact hs
  | abort t => exact sampled_abort hs hok
  | finish t => exact hs.build hk rfl rfl rfl rfl rfl ⟨mem_cons_of_mem _ mem_cons_self, (hkeys t).2⟩
  | finishEnd t wset hat =>
    have hmap : (s.finishEnd t wset).ccMap = s.ccMap := by
      simp only [finishEnd, centralFinish, removeActive]
      split_ifs <;> rfl
    refine ⟨hs.current_of_eq fun k _ => by rw [hmap], ?_, hs.call_update trivial⟩
    rcases finishEnd_history t wset s with ⟨hhis, -, -⟩ | ⟨hhis, -⟩
    · rw [hhis]
      exact hs.history
    · rw [hhis, forall_mem_cons]
      have hcall := hs.call t
      rw [hat] at hcall
      exact ⟨hcall.1, hs.history⟩

omit [DecidableEq T] in
/-- Current pointers are compared by key. -/
theorem Sampled.byKey : s.ByKey := by
  intro x hx y hy _
  rw [← Bool.not_eq_true, Occ.testValid_iff]
  simp only [not_forall, not_not, exists_prop]
  constructor
  · rintro ⟨p, hp, hp'⟩
    exact ⟨p, hp, p, hp', rfl⟩
  · rintro ⟨p, hp, q, hq, hkey⟩
    have hcur := hs.current x hx p hp
    rw [State.Current, hkey, hs.current y hy q hq] at hcur
    exact ⟨p, hp, some.inj hcur ▸ hq⟩

end

/-! ## Who finished meanwhile -/

/-- The keys of a transaction that finished are in entries of `history` beyond a number. -/
def Answered (low : ℕ) (his : List (Occ.SetEnt T (Ptr K))) (f : Finish T K) : Prop :=
  ∀ k ∈ f.keys, ∃ e ∈ his, low < e.tn ∧ k ∈ e.rows.map Ptr.key

/-- **The numbers are in time**: who finished since a start timestamp is in `history` with a number
beyond it. -/
structure Timely (s : State T K V) : Prop where
  /-- the start timestamps are not beyond the counter -/
  started : ∀ t, (s.txn t).timestampStartup ≤ s.tnc
  /-- who finished -/
  answered : ∀ t, ∀ f ∈ s.meanwhile t, Answered (s.txn t).timestampStartup s.history f
  /-- the same for the checks -/
  checking : ∀ t v meanwhile, s.stage t = .checking v meanwhile →
    (∀ e ∈ v.his, e.tn ≤ v.finishTn) ∧ ∀ f ∈ meanwhile, Answered v.startTn v.his f

section

variable (hs : Timely s)

include hs

omit [DecidableEq K] in
theorem timely_start {now : ℕ} (hnow : now ≤ s.tnc) : Timely (s.start t now) := by
  refine ⟨fun t' => ?_, fun t' f hf => ?_, hs.checking⟩
  · rcases eq_or_ne t' t with rfl | hne
    · simpa [start] using hnow
    · simpa [start, hne] using hs.started t'
  · rcases eq_or_ne t' t with rfl | hne
    · simp [State.meanwhile, start] at hf
    · have := hs.answered t' f (by simpa [State.meanwhile, start, hne] using hf)
      simpa [start, hne] using this

omit [DecidableEq K] in
theorem timely_validateBegin (ho : Ordered s) {now : ℕ} (hnow : s.tnc ≤ now)
    (rset wset : List (Ptr K)) : Timely (s.validateBegin t now rset wset) := by
  have hstart : ∀ t', ((s.validateBegin t now rset wset).txn t').timestampStartup = _ :=
    update_field TransactionF.timestampStartup rfl
  refine ⟨fun t' => (hstart t').trans_le (hs.started t'), fun t' f hf => ?_,
    fun t' v meanwhile hv => ?_⟩
  · rw [hstart]
    exact hs.answered t' f hf
  · rcases checking_of_validateBegin hv with hv | ⟨rfl, hhis, hfin, -, hlow, rfl⟩
    · exact hs.checking t' v meanwhile hv
    · rw [hhis, hfin, hlow]
      exact ⟨fun e he => (ho.counted e he).trans hnow, hs.answered t'⟩

omit [DecidableEq K] in
/-- Who finishes gets the next number. -/
theorem timely_finishEnd {wset : List (Ptr K)} (hkeys : wset.map Ptr.key =
      (s.txn t).writeset.map Content.key) (hok : Steady s (.finishEnd t)) :
    Timely (s.finishEnd t wset) := by
  have hstart : ∀ t', ((s.finishEnd t wset).txn t').timestampStartup =
      (s.txn t').timestampStartup := update_field TransactionF.timestampStartup rfl
  have hchecking := fun t' v meanwhile (hv : (s.finishEnd t wset).stage t' = _) =>
    hs.checking t' v meanwhile (checking_of_update (by simp) hv)
  -- what is found now: what was found before, and the keys of a validated transaction
  have hanswered : ∀ {his : List (Occ.SetEnt T (Ptr K))}, s.history ⊆ his →
      ((s.txn t).validated = true → ∀ t',
        Answered (s.txn t').timestampStartup his ⟨t, (s.txn t).writeset.map Content.key⟩) →
      ∀ t', ∀ f ∈ (s.finishEnd t wset).meanwhile t', Answered
      (s.txn t').timestampStartup his f := by
    intro his hsub hnew t' f hf
    have hold : f ∈ s.meanwhile t' → Answered (s.txn t').timestampStartup his f := by
      intro hf k hk
      obtain ⟨e, he, hlow, hmem⟩ := hs.answered t' f hf k hk
      exact ⟨e, hsub he, hlow, hmem⟩
    simp only [State.meanwhile, finishEnd] at hf
    split_ifs at hf with hvalid
    · rw [length_cons] at hf
      rcases hn : s.past.finishes.length + 1 - (s.past.since t').getD 0 with _ | n
      · rw [hn] at hf
        cases hf
      · rw [hn, take_succ_cons] at hf
        rcases mem_cons.mp hf with rfl | hf
        · exact hnew hvalid t'
        · refine hold ?_
          rwa [State.meanwhile, show s.past.finishes.length - (s.past.since t').getD 0 = n by omega]
    · exact hold hf
  rcases finishEnd_history t wset s with ⟨hhis, htnc, hskip⟩ | ⟨hhis, htnc⟩
  · refine ⟨fun t' => by rw [hstart, htnc]; exact hs.started t', ?_, hchecking⟩
    simp only [hstart, hhis]
    refine hanswered (Subset.refl _) fun hvalid t' k hk => ?_
    -- nothing is pushed for it, so it wrote nothing
    have hempty : (s.txn t).writeset.isEmpty = true := by
      rcases hskip hvalid with rfl | hgone
      · simpa using hkeys.symm
      · by_contra hne
        obtain ⟨e, he, htxn⟩ := hok hvalid (Bool.eq_false_of_not_eq_true hne)
        exact hgone e he htxn
    rw [List.isEmpty_iff.mp hempty] at hk
    cases hk
  · refine ⟨fun t' => by rw [hstart, htnc]; exact Nat.le_succ_of_le (hs.started t'), ?_, hchecking⟩
    simp only [hstart, hhis]
    refine hanswered (fun e he => mem_cons_of_mem _ he) fun _ t' k hk => ?_
    exact ⟨_, mem_cons_self, Nat.lt_succ_of_le (hs.started t'), hkeys ▸ hk⟩

theorem timely_step (ho : Ordered s) (hsamp : Sampled s) (hok : Steady s a) (h : Step s a s') :
    Timely s' := by
  by_cases ha : a.Counts
  · cases h with
    | start t now => exact timely_start hs hok
    | validateBegin t now rset wset => exact timely_validateBegin hs ho hok rset wset
    | finishEnd t wset hat =>
      have hcall := hsamp.call t
      rw [hat] at hcall
      exact timely_finishEnd hs hcall.2 hok
    | _ => exact ha.elim
  · have hq := h.quiet ha
    have hmean : ∀ t, s'.meanwhile t = s.meanwhile t := by
      simp only [State.meanwhile, hq.finishes, hq.since, implies_true]
    refine ⟨?_, ?_,
      fun t v meanwhile hv => hs.checking t v meanwhile (hq.checking t v meanwhile hv)⟩
    · simpa only [hq.startup, hq.tnc] using hs.started
    · simpa only [hq.startup, hq.history, hmean] using hs.answered

end

/-! ## Runs -/

omit [DecidableEq T] in
/-- Where the sets are up to date and the numbers in time, the check misses nobody. -/
theorem not_missed (hsamp : Sampled s) (ho : Ordered s) (hs : Timely s)
    (hat : s.stage t = .checking v meanwhile) (hvalid : v.validHistory = true) :
    ¬ Missed t ((s.txn t).readset.map Content.key) meanwhile := by
  rintro ⟨f, hf, -, k, hk, hkf⟩
  have hcall := hsamp.call t
  rw [hat] at hcall
  obtain ⟨hrset, hkeys, hhis⟩ := hcall
  obtain ⟨hhigh, hans⟩ := hs.checking t v meanwhile hat
  obtain ⟨e, he, hlow, hke⟩ := hans f hf k hkf
  -- the entry and the read set have pointers for the key, which are both the current one
  obtain ⟨p, hp, rfl⟩ := List.mem_map.mp hke
  rw [← hkeys] at hk
  obtain ⟨q, hq, hqp⟩ := List.mem_map.mp hk
  have hcur := hsamp.current _ (hhis e he) p hp
  rw [State.Current, ← hqp, hsamp.current _ hrset q hq] at hcur
  exact (Occ.Validation.validHistory_iff (ho.checking t v meanwhile hat)).mp hvalid e he hlow
    (hhigh e he) p hp (some.inj hcur ▸ hq)

theorem noneMissed_step (hk : s.NoneMissed) (hsamp : Sampled s) (ho : Ordered s) (hs : Timely s)
    (hok : Steady s a) (h : Step s a s') : s'.NoneMissed := by
  cases h with
  | initContent key row =>
    rw [initContent]
    split <;> exact hk
  | read t key =>
    rw [State.read]
    split <;> exact hk
  | write t key row =>
    rw [write]
    split <;> exact hk
  | validate t =>
    have hnot : ¬ (s.txn t).validated = true := by simpa [Steady] using hok
    rw [validate, if_neg hnot]
    exact hk
  | validateEnd t v meanwhile hat =>
    rw [validateEnd]
    split
    next hvalid =>
      rw [State.NoneMissed, forall_mem_cons]
      exact ⟨not_missed hsamp ho hs hat (Bool.and_eq_true_iff.mp hvalid).1, hk⟩
    · exact hk
  | _ => exact hk

/-- A transaction takes its timestamp, another one writes a key, validates and finishes, and the
first reads the key and validates. -/
def readsFinished (start1 start2 commit2 commit1 : ℕ) : List (Action ℕ ℕ ℕ) :=
  [.initContent 0 10, .start 1 start1, .start 2 start2, .write 2 0 12, .validate 2,
    .validateBegin 2 commit2, .validateEnd 2, .commit 2, .finish 2, .finishEnd 2, .read 1 0,
    .validate 1, .validateBegin 1 commit1, .validateEnd 1]

/-- Two transactions write the same key and validate, one after the other. -/
def bothWrite : List (Action ℕ ℕ ℕ) :=
  [.initContent 0 10, .start 1 100, .start 2 101, .write 1 0 11, .validate 1, .validateBegin 1 102,
    .validateEnd 1, .write 2 0 12, .validate 2, .validateBegin 2 103, .validateEnd 2]

end FrameworkOptimistic

end Deneva
