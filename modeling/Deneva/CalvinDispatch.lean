import Deneva.CalvinLocks

/-!
# Calvin transactions are dispatched once

When a transaction has all its locks it is handed to the workers, either by the scheduler, at the
end of `acquire_locks`, or by the `lock_release` that grants its last lock. Both count in
`lock_ready_cnt`: the scheduler counts itself while it is requesting, a request that waits counts
until it is granted, and whoever brings the counter to zero swaps `lock_ready` and dispatches.

The protocol is about one transaction at a time. `View` is what it sees of a state, `View.Step`
what can happen to it, `View.Ok` its invariant: exactly one token once the counter is zero. The
steps of the node are then steps of each transaction's view (`view_step`).
-/

namespace Deneva

universe u v

open Function List Option

namespace CalvinLocks

open State

/-! ## The protocol of one transaction -/

/-- Where the scheduler is with the transaction. -/
inductive Phase : Type where
  /-- not at it -/
  | away
  /-- before `incr_lr` -/
  | enter
  /-- requesting locks -/
  | locking (rc : RC)
  /-- before the compare-and-swap -/
  | swapping (rc : RC)
  /-- after it -/
  | leave (rc : RC)
  deriving DecidableEq

/-- The scheduler counts itself. -/
def Phase.bias : Phase → ℕ
  | locking _ => 1
  | _ => 0

/-- The scheduler is going to dispatch. -/
def Phase.token : Phase → ℕ
  | swapping _ | leave .RCOK => 1
  | _ => 0

/-- The scheduler has not requested all locks yet. -/
def Phase.early : Phase → Bool
  | enter | locking _ => true
  | _ => false

theorem Phase.token_leave {rc : RC} (h : rc ≠ .RCOK) : (leave rc).token = 0 := by
  cases rc <;> first | rfl | exact absurd rfl h

theorem Phase.of_early {p : Phase} (h : p.early = true) : p = enter ∨ ∃ rc, p = locking rc := by
  cases p with
  | enter => exact .inl rfl
  | locking rc => exact .inr ⟨rc, rfl⟩
  | _ => cases h

/-- A state as one transaction sees it. -/
structure View where
  /-- it was scheduled -/
  scheduled : Bool
  /-- where the scheduler is with it -/
  phase : Phase
  /-- `lock_ready` and `lock_ready_cnt` -/
  ready : LockReady
  /-- the requests that wait -/
  waits : ℕ
  /-- the granted ones whose `decr_lr` is to come -/
  decrs : ℕ
  /-- the releases that are before the compare-and-swap -/
  swaps : ℕ
  /-- how often it was dispatched -/
  dispatches : ℕ
  deriving DecidableEq

namespace View

/-- What can happen to a transaction. -/
inductive Step : View → View → Prop where
  | schedule {v : View} (h : v.scheduled = false) :
      Step v { v with scheduled := true, phase := .enter }
  | recon {v : View} (h : v.scheduled = false) :
      Step v { v with scheduled := true, phase := .leave .RCOK }
  | incr {v : View} (h : v.phase = .enter) :
      Step v { v with
        ready := { v.ready with lockReadyCnt := v.ready.lockReadyCnt + 1 }
        phase := .locking .RCOK }
  | wait {v : View} {rc : RC} (h : v.phase = .locking rc) :
      Step v { v with ready := v.ready.wait, waits := v.waits + 1, phase := .locking .WAIT }
  | decr {v : View} {rc : RC} (h : v.phase = .locking rc) :
      Step v { v with
        ready := { v.ready with lockReadyCnt := v.ready.lockReadyCnt - 1 }
        phase := if v.ready.lockReadyCnt - 1 = 0 then .swapping rc else .leave rc }
  | swap {v : View} {rc : RC} (h : v.phase = .swapping rc) (hflag : v.ready.lockReady = false) :
      Step v { v with ready := { v.ready with lockReady := true }, phase := .leave .RCOK }
  | swapFail {v : View} {rc : RC} (h : v.phase = .swapping rc) (hflag : v.ready.lockReady = true) :
      Step v { v with phase := .leave rc }
  | enqueue {v : View} (h : v.phase = .leave .RCOK) :
      Step v { v with dispatches := v.dispatches + 1, phase := .away }
  | leave {v : View} {rc : RC} (h : v.phase = .leave rc) (hrc : rc ≠ .RCOK) :
      Step v { v with phase := .away }
  | promote {v : View} {k n : ℕ} (h : v.waits = n + k) :
      Step v { v with waits := n, decrs := v.decrs + k }
  | decrLr {v : View} {n : ℕ} (h : v.decrs = n + 1) :
      Step v { v with
        ready := { v.ready with lockReadyCnt := v.ready.lockReadyCnt - 1 }
        decrs := n
        swaps := if v.ready.lockReadyCnt - 1 = 0 then v.swaps + 1 else v.swaps }
  | cas {v : View} {n : ℕ} (h : v.swaps = n + 1) (hflag : v.ready.lockReady = false) :
      Step v { v with
        ready := { v.ready with lockReady := true }, swaps := n, dispatches := v.dispatches + 1 }
  | casFail {v : View} {n : ℕ} (h : v.swaps = n + 1) (hflag : v.ready.lockReady = true) :
      Step v { v with swaps := n }

/-- Something happens to a transaction, or nothing. -/
def Moves (v w : View) : Prop := w = v ∨ Step v w

/-- All locks were requested and granted, and all grants were counted. -/
def Complete (v : View) : Prop :=
  v.scheduled = true ∧ v.phase.early = false ∧ v.ready.lockReadyCnt = 0

/-- The invariant of the protocol. -/
structure Ok (v : View) : Prop where
  /-- the counter counts what is outstanding, and the scheduler itself -/
  count : v.ready.lockReadyCnt = v.waits + v.decrs + v.phase.bias
  /-- there is one token, or one dispatch, from the moment nothing is outstanding -/
  one : v.Complete → v.dispatches + v.swaps + v.phase.token = 1
  /-- and none before -/
  none : ¬ v.Complete → v.dispatches + v.swaps + v.phase.token = 0
  /-- `lock_ready` is set by a swap, after which nobody else swaps -/
  flag : v.ready.lockReady = true → v.Complete ∧ v.swaps = 0 ∧ ∀ rc, v.phase ≠ .swapping rc
  /-- a transaction whose locks were not requested has no outstanding ones -/
  fresh : v.scheduled = false ∨ v.phase = .enter → v.ready.lockReadyCnt = 0
  /-- the scheduler returns `RCOK` only if nothing waited -/
  rcok : v.phase = .locking .RCOK → v.ready.lockReadyCnt = 1
  /-- the scheduler is at scheduled transactions only -/
  unscheduled : v.scheduled = false → v.phase = .away

theorem ok_init : Ok ⟨false, .away, ⟨false, 0⟩, 0, 0, 0, 0⟩ := by
  constructor <;> simp [Complete, Phase.bias, Phase.token]

variable {v : View}

/-- A transaction the scheduler is at was scheduled. -/
theorem Ok.scheduled_of_ne (h : Ok v) (hp : v.phase ≠ .away) : v.scheduled = true :=
  Bool.not_eq_false _ ▸ mt h.unscheduled hp

theorem Ok.not_ready (h : Ok v) (hnot : ¬ v.Complete) : v.ready.lockReady = false :=
  Bool.eq_false_iff.mpr fun hf => hnot (h.flag hf).1

/-- The end of the requests: if something is outstanding then a request has waited, and the
scheduler does not return `RCOK`; otherwise it has the token. -/
theorem Ok.decr {rc : RC} (h : Ok v) (hp : v.phase = .locking rc) :
    Ok { v with
      ready := { v.ready with lockReadyCnt := v.ready.lockReadyCnt - 1 }
      phase := if v.ready.lockReadyCnt - 1 = 0 then .swapping rc else .leave rc } := by
  have hsched := h.scheduled_of_ne (by rw [hp]; nofun)
  have hnot : ¬ v.Complete := fun hc => by simpa [hp, Phase.early] using hc.2.1
  have hzero : v.dispatches + v.swaps = 0 := by simpa [hp, Phase.token] using h.none hnot
  have hflag := h.not_ready hnot
  have hcount : v.ready.lockReadyCnt = v.waits + v.decrs + 1 := by
    simpa [hp, Phase.bias] using h.count
  by_cases hlast : v.ready.lockReadyCnt - 1 = 0
  · constructor <;> simp [hlast, hsched, hflag, Complete, Phase.bias, Phase.token, Phase.early]
      <;> omega
  · have hrc : rc ≠ .RCOK := fun hrc => hlast (by rw [h.rcok (hrc ▸ hp)])
    constructor <;>
      simp [hlast, hsched, hflag, Complete, Phase.bias, Phase.token_leave hrc,
        Phase.early] <;> omega

/-- The `decr_lr` of a grant: while the scheduler counts itself the counter cannot reach zero, so
the release that brings it there has the token. -/
theorem Ok.decrLr {n : ℕ} (h : Ok v) (hn : v.decrs = n + 1) :
    Ok { v with
      ready := { v.ready with lockReadyCnt := v.ready.lockReadyCnt - 1 }
      decrs := n
      swaps := if v.ready.lockReadyCnt - 1 = 0 then v.swaps + 1 else v.swaps } := by
  have hcount := h.count
  have hpos : v.ready.lockReadyCnt ≠ 0 := by omega
  have hnot : ¬ v.Complete := fun hc => hpos hc.2.2
  have hzero := h.none hnot
  have hflag := h.not_ready hnot
  have hsched : v.scheduled = true := Bool.not_eq_false _ ▸ fun hs => hpos (h.fresh (.inl hs))
  have henter : v.phase ≠ .enter := fun hp => hpos (h.fresh (.inr hp))
  have hrcok : v.phase ≠ .locking .RCOK := by
    intro hp
    have hone := h.rcok hp
    rw [hp] at hcount
    simp only [Phase.bias] at hcount
    omega
  by_cases hlast : v.ready.lockReadyCnt - 1 = 0
  · have hearly : v.phase.early = false := by
      refine Bool.eq_false_iff.mpr fun he => ?_
      obtain hp | ⟨rc, hp⟩ := Phase.of_early he
      · exact henter hp
      · rw [hp] at hcount
        simp only [Phase.bias] at hcount
        omega
    constructor <;> simp [hlast, hsched, hflag, hearly, henter, hrcok, Complete] <;> omega
  · constructor <;> simp [hlast, hsched, hflag, henter, hrcok, Complete] <;> omega

/-- The compare-and-swap of a release takes the only token. -/
theorem Ok.cas {n : ℕ} (h : Ok v) (hn : v.swaps = n + 1) :
    Ok { v with
      ready := { v.ready with lockReady := true }, swaps := n,
        dispatches := v.dispatches + 1 } := by
  have hc : v.Complete := by
    by_contra hnot
    have := h.none hnot
    omega
  have hone := h.one hc
  have hswap : ∀ rc, v.phase ≠ .swapping rc := by
    intro rc hp
    rw [hp] at hone
    simp only [Phase.token] at hone
    omega
  refine ⟨h.count, fun _ => ?_, fun hnot => absurd hc hnot, fun _ => ⟨hc, ?_, hswap⟩,
    h.fresh, h.rcok, h.unscheduled⟩
  · show v.dispatches + 1 + n + v.phase.token = 1
    omega
  · show n = 0
    omega

/-- **The protocol keeps its invariant.** -/
theorem Ok.step {w : View} (h : Ok v) (hs : Step v w) : Ok w := by
  cases hs with
  | decr hp => exact h.decr hp
  | decrLr hn => exact h.decrLr hn
  | cas hn => exact h.cas hn
  | casFail hn hflag =>
    have := (h.flag hflag).2.1
    omega
  | wait hp =>
    have hwait : v.ready.wait = ⟨false, v.ready.lockReadyCnt + 1⟩ := rfl
    obtain ⟨count, one, none, flag, fresh, rcok, unscheduled⟩ := h
    constructor <;> simp_all [Complete, Phase.bias, Phase.token, Phase.early]
    omega
  | schedule hn | recon hn | incr hp | swap hp hflag | swapFail hp hflag | enqueue hp | leave hp hrc
  | promote hn =>
    obtain ⟨count, one, none, flag, fresh, rcok, unscheduled⟩ := h
    constructor <;> simp_all [Complete, Phase.bias, Phase.token, Phase.early] <;> omega

/-- A dispatch takes a token. -/
theorem Ok.complete_of_dispatch {w : View} (h : Ok v) (hs : Step v w)
    (hlt : v.dispatches < w.dispatches) : v.Complete ∧ v.dispatches = 0 := by
  have htoken : 0 < v.swaps + v.phase.token := by
    cases hs with
    | enqueue hp => simp [hp, Phase.token]
    | cas hn => omega
    | _ => exact absurd hlt (lt_irrefl _)
  by_cases hc : v.Complete
  · have := h.one hc
    exact ⟨hc, by omega⟩
  · have := h.none hc
    omega

end View

/-! ## The view of a state -/

section View

variable {R : Type u} {T : Type v} [DecidableEq R] [DecidableEq T]

/-- Where the scheduler is with transaction `t`. -/
def Pc.phase (t : T) : Pc R T → Phase
  | .idle => .away
  | .enter t' => if t' = t then .enter else .away
  | .locking t' _ rc => if t' = t then .locking rc else .away
  | .swapping t' rc => if t' = t then .swapping rc else .away
  | .leave t' rc => if t' = t then .leave rc else .away

/-- The number of requests of `t` that wait at a lock. -/
def waitsAt (t : T) (l : RowLock T) : ℕ := (l.waiters.map LockEntry.txn).count t

/-- The number of requests of `t` that wait at some row of a list. -/
def waitsIn (t : T) (lock : R → RowLock T) (rows : List R) : ℕ :=
  (rows.map fun r => waitsAt t (lock r)).sum

/-- A state as transaction `t` sees it. -/
def State.view (s : State R T) (t : T) : View where
  scheduled := t ∈ s.scheduled
  phase := s.pc.phase t
  ready := s.ready t
  waits := waitsIn t s.lock (s.lockedRows t)
  decrs := s.decrs.count t
  swaps := s.swaps.count t
  dispatches := s.enqueued.count t + s.restarted.count t

variable {C : Config R T} {mayRelease : State R T → T → Bool} {s s' : State R T} {t : T} {r : R}

omit [DecidableEq R] in
/-- A sum in which one term changes by `k`. -/
theorem sum_map_eq_add {l : List R} (hnd : l.Nodup) {f g : R → ℕ} {k : ℕ} (hne : ∀ x ≠ r, f x = g x)
    (hr : f r = g r + k) (hmem : r ∈ l ∨ k = 0) : (l.map f).sum = (l.map g).sum + k := by
  induction l with
  | nil =>
    rcases hmem with hmem | rfl
    · cases hmem
    · rfl
  | cons x l ih =>
    obtain ⟨hx, hnd⟩ := nodup_cons.mp hnd
    simp only [map_cons, sum_cons]
    rcases eq_or_ne x r with rfl | hxr
    · -- the term that changes: the rest of the list does not
      have hrest : l.map f = l.map g := map_congr_left fun y hy => hne y (fun h => hx (h ▸ hy))
      rw [hr, hrest]
      omega
    · have hmem' : r ∈ l ∨ k = 0 :=
        hmem.imp_left fun h => (mem_cons.mp h).resolve_left (Ne.symm hxr)
      rw [hne x hxr, ih hnd hmem', Nat.add_assoc]

omit [DecidableEq R] [DecidableEq T] in
/-- Whoever waits on a row has it in `calvin_locked_rows`. -/
theorem Fifo.mem_of_waits (h : Fifo s r) {w : LockEntry T} (hw : w ∈ (s.lock r).waiters) :
    r ∈ s.lockedRows w.txn :=
  h.locked w (by rw [← h.queue]; exact mem_append_right _ hw)

omit [DecidableEq R] in
theorem Fifo.waitsAt_eq_zero (h : Fifo s r) (hr : r ∉ s.lockedRows t) :
    waitsAt t (s.lock r) = 0 := by
  refine count_eq_zero.mpr fun hmem => hr ?_
  obtain ⟨w, hw, rfl⟩ := List.mem_map.mp hmem
  exact h.mem_of_waits hw

variable {lock : R → RowLock T}

/-- At most one row changes. -/
theorem waitsIn_update {rows : List R} (hnd : rows.Nodup) {l : RowLock T}
    {k : ℕ} (hr : waitsAt t (lock r) = waitsAt t l + k) (hmem : r ∈ rows ∨ k = 0) :
    waitsIn t lock rows = waitsIn t (update lock r l) rows + k := by
  refine sum_map_eq_add hnd (fun x hx => ?_) ?_ hmem
  · rw [update_of_ne hx]
  · rw [update_self, hr]

/-- The row that a transaction asks for is new to it. -/
theorem waitsIn_append {rows : List R} (hr : r ∉ rows) (l : RowLock T) :
    waitsIn t (update lock r l) (rows ++ [r]) = waitsIn t lock rows + waitsAt t l := by
  have hold : rows.map (fun x => waitsAt t (update lock r l x)) =
      rows.map fun x => waitsAt t (lock x) := by
    refine map_congr_left fun x hx => ?_
    have hne : x ≠ r := fun h => hr (h ▸ hx)
    rw [update_of_ne hne]
  rw [waitsIn, map_append, sum_append, hold]
  simp [waitsIn]

/-- Other transactions do not count a change at a row. -/
theorem waitsIn_of_eq {l : RowLock T} (h : waitsAt t l = waitsAt t (lock r))
    (rows : List R) : waitsIn t (update lock r l) rows = waitsIn t lock rows := by
  refine congrArg List.sum (map_congr_left fun x _ => ?_)
  rcases eq_or_ne x r with rfl | hne
  · rwa [update_self]
  · rw [update_of_ne hne]

omit [DecidableEq R] in
/-- Nothing changes for `t`. -/
theorem view_congr (hsched : t ∈ s'.scheduled ↔ t ∈ s.scheduled)
    (hphase : s'.pc.phase t = s.pc.phase t) (hready : s'.ready t = s.ready t)
    (hwaits : waitsIn t s'.lock (s'.lockedRows t) = waitsIn t s.lock (s.lockedRows t))
    (hdecrs : s'.decrs.count t = s.decrs.count t) (hswaps : s'.swaps.count t = s.swaps.count t)
    (henq : s'.enqueued.count t = s.enqueued.count t)
    (hrestart : s'.restarted.count t = s.restarted.count t) : s'.view t = s.view t := by
  simp only [view, hsched, hphase, hready, hwaits, hdecrs, hswaps, henq, hrestart]

omit [DecidableEq R] in
/-- A step of one transaction: the others see nothing. -/
theorem view_update (t₀ : T) (hne : ∀ t, t ≠ t₀ → s'.view t = s.view t)
    (hstep : View.Step (s.view t₀) (s'.view t₀)) (t : T) :
    (s.view t).Moves (s'.view t) := by
  rcases eq_or_ne t t₀ with rfl | h
  · exact .inr hstep
  · exact .inl (hne t h)

omit [DecidableEq R] in
@[simp]
theorem Pc.phase_of_ne {pc : Pc R T} (h : pc.txn ≠ some t) : pc.phase t = .away := by
  cases pc with
  | idle => rfl
  | enter | locking | swapping | leave => exact if_neg fun heq => h (congrArg some heq)

theorem view_schedule (hs : step C mayRelease s (.schedule t) = some s') (t' : T) :
    (s.view t').Moves (s'.view t') := by
  obtain ⟨⟨hidle, hnew⟩, hs⟩ := ite_none_right_eq_some.mp hs
  cases hs
  refine view_update t (fun x hx => ?_) ?_ t'
  · have hphase : (if C.isRecon t then Pc.leave t .RCOK else Pc.enter t : Pc R T).phase x =
        .away := by
      split <;> exact if_neg (Ne.symm hx)
    simp only [view, hphase, hidle, mem_append, mem_singleton, hx, or_false]
    rfl
  · have hview : (s.view t).scheduled = false := by simpa [view] using hnew
    cases hrecon : C.isRecon t with
    | true =>
      convert View.Step.recon hview using 1
      simp [view, Pc.phase]
    | false =>
      convert View.Step.schedule hview using 1
      simp [view, Pc.phase]

/-- A request of the scheduler: it is granted, or the transaction waits and counts it. -/
theorem view_getLock (h : Inv s) {rq : LockRequest R} {rest : List (LockRequest R)} {rc : RC}
    (hpc : s.pc = .locking t (rq :: rest) rc) (hs : scheduler C s = some s') (t' : T) :
    (s.view t').Moves (s'.view t') := by
  rw [scheduler, hpc] at hs
  cases hs
  -- the scheduler stays at `t`
  have hphase : ∀ rest' x, (Pc.locking t rest' rc : Pc R T).phase x = s.pc.phase x := by
    intro rest' x
    rw [hpc]
    rfl
  rcases getLock_cases (h.fifo rq.row).rep with
    ⟨-, heq⟩ | ⟨hr, ⟨l, hnone, hw, hl, heq⟩ | ⟨l, hw, hl, heq⟩⟩ <;> rw [heq]
  · exact .inl (view_congr Iff.rfl (hphase rest t') rfl rfl rfl rfl rfl rfl)
  · -- granted: nobody waited, and nobody waits
    have hat : ∀ x, waitsAt x l = 0 := fun x => by rw [waitsAt, hw]; rfl
    have hat' : ∀ x, waitsAt x (s.lock rq.row) = 0 := fun x => by rw [waitsAt, hnone]; rfl
    refine .inl (view_congr Iff.rfl (hphase rest t') rfl ?_ rfl rfl rfl rfl)
    simp only [State.afterGet]
    rcases eq_or_ne t' t with rfl | hne
    · rw [update_self, waitsIn_append hr, hat, Nat.add_zero]
    · rw [update_of_ne hne, waitsIn_of_eq (by rw [hat, hat'])]
  · refine view_update t (fun x hx => ?_) ?_ t'
    · have hat : waitsAt x l = waitsAt x (s.lock rq.row) := by
        rw [waitsAt, hw, map_append, count_append, waitsAt]
        simp [Ne.symm hx]
      refine view_congr Iff.rfl (by simp [hpc, Pc.phase, hx.symm])
        (update_of_ne hx _ _) ?_ rfl rfl rfl rfl
      simp only [State.afterGet]
      rw [update_of_ne hx, waitsIn_of_eq hat]
    · have hlocking : (s.view t).phase = .locking rc := by
        simp [view, hpc, Pc.phase]
      have hat : waitsAt t l = 1 := by
        have hzero := (h.fifo rq.row).waitsAt_eq_zero hr
        rw [waitsAt] at hzero
        rw [waitsAt, hw, map_append, count_append, hzero]
        simp
      convert View.Step.wait hlocking using 1
      simp [view, State.afterGet, Pc.phase, waitsIn_append hr, hat]

/-- A step of the scheduler is a step in the view of the transaction it is at. -/
theorem view_scheduler (h : Inv s) (hs : scheduler C s = some s') (t' : T) :
    (s.view t').Moves (s'.view t') := by
  cases hpc : s.pc with
  | idle =>
    rw [scheduler, hpc] at hs
    cases hs
  | enter t =>
    rw [scheduler, hpc] at hs
    cases hs
    refine view_update t (fun x hx => ?_) ?_ t'
    · exact view_congr Iff.rfl (by simp [hpc, Pc.phase, hx.symm]) (update_of_ne hx _ _) rfl rfl rfl
        rfl rfl
    · have henter : (s.view t).phase = .enter := by simp [view, hpc, Pc.phase]
      convert View.Step.incr henter using 1
      simp [view, Pc.phase]
  | locking t rest rc =>
    cases rest with
    | cons rq rest => exact view_getLock h hpc hs t'
    | nil =>
      rw [scheduler, hpc] at hs
      cases hs
      refine view_update t (fun x hx => ?_) ?_ t'
      · refine view_congr Iff.rfl ?_ (update_of_ne hx _ _) rfl rfl rfl rfl rfl
        rw [hpc]
        split <;> exact (if_neg (Ne.symm hx)).trans (if_neg (Ne.symm hx)).symm
      · have hlocking : (s.view t).phase = .locking rc := by simp [view, hpc, Pc.phase]
        convert View.Step.decr hlocking using 1
        rcases eq_or_ne ((s.ready t).lockReadyCnt - 1) 0 with hz | hz <;>
          simp [view, Pc.phase, hz]
  | swapping t rc =>
    rw [scheduler, hpc] at hs
    dsimp only at hs
    have hswapping : (s.view t).phase = .swapping rc := by simp [view, hpc, Pc.phase]
    split at hs
    next hflag =>
      cases hs
      refine view_update t (fun x hx => ?_) ?_ t'
      · exact view_congr Iff.rfl (by simp [hpc, Pc.phase, hx.symm]) (update_of_ne hx _ _) rfl rfl
          rfl rfl rfl
      · convert View.Step.swap hswapping hflag using 1
        simp [view, Pc.phase]
    next hflag =>
      cases hs
      refine view_update t (fun x hx => ?_) ?_ t'
      · exact view_congr Iff.rfl (by simp [hpc, Pc.phase, hx.symm]) rfl rfl rfl rfl rfl rfl
      · convert View.Step.swapFail hswapping (Bool.of_not_eq_false hflag) using 1
        simp [view, Pc.phase]
  | leave t rc =>
    rw [scheduler, hpc] at hs
    cases hs
    have hleave : (s.view t).phase = .leave rc := by simp [view, hpc, Pc.phase]
    refine view_update t (fun x hx => ?_) ?_ t'
    · refine view_congr Iff.rfl (by simp [hpc, Pc.phase, hx.symm]) rfl rfl rfl rfl ?_ rfl
      dsimp only
      split
      · rw [count_append, count_singleton, beq_false_of_ne (Ne.symm hx)]
        rfl
      · rfl
    · rcases eq_or_ne rc .RCOK with rfl | hrc
      · convert View.Step.enqueue hleave using 1
        simp [view, Pc.phase, Nat.add_right_comm]
      · convert View.Step.leave hleave hrc using 1
        simp [view, Pc.phase, hrc]

/-- A release: whoever is granted a row waits for one less, and counts one more that is granted. -/
theorem view_release (h : Inv s) (hnd : ∀ t, (s.lockedRows t).Nodup)
    (hs : step C mayRelease s (.release t r) = some s') (t' : T) :
    (s.view t').Moves (s'.view t') := by
  obtain ⟨-, l, ps, hsplit, -, -, -, -, rfl⟩ :=
    release_cases (h.fifo r).rep (h.fifo r).proper hs
  have hat : waitsAt t' (s.lock r) = waitsAt t' l + (ps.map LockEntry.txn).count t' := by
    rw [waitsAt, hsplit, map_append, count_append, Nat.add_comm, waitsAt]
  have hmem : r ∈ s.lockedRows t' ∨ (ps.map LockEntry.txn).count t' = 0 := by
    by_cases hr : r ∈ s.lockedRows t'
    · exact .inl hr
    · have hzero := (h.fifo r).waitsAt_eq_zero hr
      exact .inr (by omega)
  have hwaits : (s.view t').waits = _ := waitsIn_update (hnd t') hat hmem
  refine .inr ?_
  convert View.Step.promote hwaits using 1
  simp [view]

theorem view_decrLr (hs : step C mayRelease s (.decrLr t) = some s') (t' : T) :
    (s.view t').Moves (s'.view t') := by
  obtain ⟨⟨hmem, -⟩, hs⟩ := ite_none_right_eq_some.mp hs
  cases hs
  refine view_update t (fun x hx => ?_) ?_ t'
  · refine view_congr Iff.rfl rfl (update_of_ne hx _ _) rfl ?_ ?_ rfl rfl
    · exact count_erase_of_ne hx
    · dsimp only
      split
      · simp [count_append, Ne.symm hx]
      · rfl
  · have hpos : (s.view t).decrs = (s.decrs.erase t).count t + 1 := by
      have := List.count_pos_iff.mpr hmem
      rw [count_erase_self]
      show s.decrs.count t = _
      omega
    convert View.Step.decrLr hpos using 1
    rcases eq_or_ne ((s.ready t).lockReadyCnt - 1) 0 with hz | hz <;> simp [view, hz]

theorem view_cas (hs : step C mayRelease s (.cas t) = some s') (t' : T) :
    (s.view t').Moves (s'.view t') := by
  obtain ⟨hmem, hs⟩ := ite_none_right_eq_some.mp hs
  have hpos : (s.view t).swaps = (s.swaps.erase t).count t + 1 := by
    have := List.count_pos_iff.mpr hmem
    rw [count_erase_self]
    show s.swaps.count t = _
    omega
  split at hs <;> rename_i hflag <;> obtain rfl := some.inj hs <;>
    refine view_update t (fun x hx => ?_) ?_ t'
  · refine view_congr Iff.rfl rfl (update_of_ne hx _ _) rfl rfl ?_ rfl ?_
    · exact count_erase_of_ne hx
    · simp [count_append, Ne.symm hx]
  · convert View.Step.cas hpos hflag using 1
    simp [view, Nat.add_assoc]
  · exact view_congr Iff.rfl rfl rfl rfl rfl (count_erase_of_ne hx) rfl rfl
  · exact View.Step.casFail hpos (Bool.of_not_eq_false hflag)

/-- **The node follows the protocol**: a step of the node is a step of each transaction's view, or
none. -/
theorem view_step {a : Action R T} (h : Inv s) (hnd : ∀ t, (s.lockedRows t).Nodup)
    (hs : step C mayRelease s a = some s') (t : T) :
    (s.view t).Moves (s'.view t) := by
  cases a with
  | schedule => exact view_schedule hs t
  | scheduler => exact view_scheduler h hs t
  | release => exact view_release h hnd hs t
  | decrLr => exact view_decrLr hs t
  | cas => exact view_cas hs t

end View

/-! ## Which rows a transaction has -/

section Held

variable {R : Type u} {T : Type v} [DecidableEq T]

/-- The transaction owns the row. -/
def State.Owns (s : State R T) (t : T) (r : R) : Prop := ∃ en ∈ (s.lock r).owners, en.txn = t

/-- A request of the transaction waits on the row. -/
def State.Waits (s : State R T) (t : T) (r : R) : Prop := ∃ w ∈ (s.lock r).waiters, w.txn = t

/-- What holds of the rows that a transaction has requested. -/
structure Held (C : Config R T) (s : State R T) : Prop where
  /-- a row is requested once -/
  nodup : ∀ t, (s.lockedRows t).Nodup
  /-- until it is dispatched, a transaction owns or waits for what it has requested -/
  held : ∀ t, s.dispatched t = false → ∀ r ∈ s.lockedRows t, s.Owns t r ∨ s.Waits t r
  /-- all local rows were requested once the scheduler is through -/
  covered : ∀ t ∈ s.scheduled, C.isRecon t = false → s.pc ≠ .enter t → ∀ rq ∈ C.requests t,
    rq.isLocal = true → rq.row ∈ s.lockedRows t ∨ ∃ rest rc, s.pc = .locking t rest rc ∧ rq ∈ rest

variable {C : Config R T} {s s' : State R T} {t : T} {r : R}

theorem held_init (C : Config R T) : Held C init :=
  ⟨fun _ => nodup_nil, nofun, nofun⟩

theorem dispatched_eq_false :
    s.dispatched t = false ↔ s.enqueued.count t = 0 ∧ s.restarted.count t = 0 := by
  simp [dispatched, count_eq_zero]

/-- Steps that leave the rows alone. -/
theorem Held.frame (h : Held C s) (hlock : s'.lock = s.lock) (hrows : s'.lockedRows = s.lockedRows)
    (hdisp : ∀ t, s'.dispatched t = false → s.dispatched t = false)
    (hcov : ∀ t ∈ s'.scheduled, C.isRecon t = false → s'.pc ≠ .enter t →
      ∀ rq ∈ C.requests t, rq.isLocal = true → rq.row ∈ s.lockedRows t ∨
      ∃ rest rc, s'.pc = .locking t rest rc ∧ rq ∈ rest) : Held C s' where
  nodup := hrows ▸ h.nodup
  held t ht r hr := by
    rw [State.Owns, State.Waits, hlock]
    exact h.held t (hdisp t ht) r (hrows ▸ hr)
  covered := by rwa [hrows]

/-- Steps of the scheduler that are not requests. -/
theorem Held.setPc (h : Held C s) (hlock : s'.lock = s.lock) (hrows : s'.lockedRows = s.lockedRows)
    (hsched : s'.scheduled = s.scheduled)
    (hdisp : ∀ t, s'.dispatched t = false → s.dispatched t = false) (henter : ∀ t, s.pc ≠ .enter t)
    (hlocking : ∀ t rest rc, s.pc = .locking t rest rc → rest = []) : Held C s' := by
  refine h.frame hlock hrows hdisp fun t ht hrecon _ rq hrq hlocal => .inl ?_
  rcases h.covered t (hsched ▸ ht) hrecon (henter t) rq hrq hlocal with hmem | ⟨rest, rc, hpc, hmem⟩
  · exact hmem
  · rw [hlocking t rest rc hpc] at hmem
    cases hmem

variable [DecidableEq R]

/-- After a request the row is owned or waited for. -/
theorem Held.afterGet (h : Held C s) {rq : LockRequest R} {rest : List (LockRequest R)} {rc : RC}
    {m : LockT} {l : RowLock T} {g : List (LockEntry T)} {rd : T → LockReady} {pc : Pc R T}
    (hpc : s.pc = .locking t (rq :: rest) rc) (hpc' : ∃ rc', pc = .locking t rest rc')
    (hr : rq.row ∉ s.lockedRows t) (hown : ∀ en ∈ (s.lock rq.row).owners, en ∈ l.owners)
    (hwait : ∀ w ∈ (s.lock rq.row).waiters, w ∈ l.waiters)
    (hnew : ⟨m, t⟩ ∈ l.owners ∨ ⟨m, t⟩ ∈ l.waiters) :
    Held C { s.afterGet t rq.row ⟨m, t⟩ l g rd with pc := pc } := by
  obtain ⟨rc', rfl⟩ := hpc'
  have hself : update s.lockedRows t (s.lockedRows t ++ [rq.row]) t =
      s.lockedRows t ++ [rq.row] := update_self ..
  refine ⟨fun x => ?_, fun x hx y hy => ?_, fun x hx hrecon _ rq' hrq' hlocal => ?_⟩ <;>
    simp only [State.Owns, State.Waits, State.afterGet] at *
  · rcases eq_or_ne x t with rfl | hne
    · rw [hself]
      exact (h.nodup x).append (nodup_singleton _) (List.disjoint_singleton.mpr hr)
    · rw [update_of_ne hne]
      exact h.nodup x
  · -- the new row is `t`'s, and the lock of the row keeps what it had
    have hold : y ∈ s.lockedRows x → (∃ en ∈ (update s.lock rq.row l y).owners, en.txn = x) ∨
        ∃ w ∈ (update s.lock rq.row l y).waiters, w.txn = x := by
      intro hy
      rcases eq_or_ne y rq.row with rfl | hne
      · rw [update_self]
        exact (h.held x hx rq.row hy).imp (Exists.imp fun en h => ⟨hown en h.1, h.2⟩)
          (Exists.imp fun w h => ⟨hwait w h.1, h.2⟩)
      · rw [update_of_ne hne]
        exact h.held x hx y hy
    rcases eq_or_ne x t with rfl | hne
    · rw [hself] at hy
      rcases mem_append.mp hy with hy | hy
      · exact hold hy
      · obtain rfl := mem_singleton.mp hy
        rw [update_self]
        exact hnew.imp (fun h => ⟨_, h, rfl⟩) (fun h => ⟨_, h, rfl⟩)
    · rw [update_of_ne hne] at hy
      exact hold hy
  · have hcov := h.covered x hx hrecon (by simp [hpc]) rq' hrq' hlocal
    rcases eq_or_ne x t with rfl | hne
    · rw [hself]
      rcases hcov with hmem | ⟨rest', rc₁, hpc', hmem⟩
      · exact .inl (mem_append_left _ hmem)
      · obtain ⟨-, rfl, -⟩ := Pc.locking.inj (hpc.symm.trans hpc')
        rcases mem_cons.mp hmem with rfl | hmem
        · exact .inl (mem_append_right _ mem_cons_self)
        · exact .inr ⟨rest, rc', rfl, hmem⟩
    · rw [update_of_ne hne]
      rcases hcov with hmem | ⟨rest', rc₁, hpc', -⟩
      · exact .inl hmem
      · obtain ⟨rfl, -, -⟩ := Pc.locking.inj (hpc.symm.trans hpc')
        exact absurd rfl hne

/-- A request puts the row into `calvin_locked_rows`, and its transaction among the owners or the
waiters; the other steps of the scheduler leave rows alone. -/
theorem Held.scheduler (h : Held C s) (hinv : Inv s) (hs : scheduler C s = some s') :
    Held C s' := by
  cases hpc : s.pc with
  | idle =>
    rw [CalvinLocks.scheduler, hpc] at hs
    cases hs
  | enter t =>
    rw [CalvinLocks.scheduler, hpc] at hs
    cases hs
    refine h.frame rfl rfl (fun _ => id) fun x hx hrecon _ rq hrq hlocal => ?_
    rcases eq_or_ne x t with rfl | hne
    · exact .inr ⟨_, _, rfl, hrq⟩
    · have hpc' : s.pc ≠ .enter x := by
        rw [hpc]
        exact fun heq => hne (Pc.enter.inj heq).symm
      rcases h.covered x hx hrecon hpc' rq hrq hlocal with hmem | ⟨_, _, hpc', -⟩
      · exact .inl hmem
      · cases hpc.symm.trans hpc'
  | locking t rest rc =>
    rw [CalvinLocks.scheduler, hpc] at hs
    cases rest with
    | nil =>
      cases hs
      refine h.setPc rfl rfl rfl (fun _ => id) (fun x => by rw [hpc]; nofun) fun x rest rc heq => ?_
      exact (Pc.locking.inj (hpc.symm.trans heq)).2.1.symm
    | cons rq rest =>
      cases hs
      rcases getLock_cases (hinv.fifo rq.row).rep with
        ⟨hskip, heq⟩ | ⟨hr, ⟨l, hnone, hw, hl, heq⟩ | ⟨l, hw, hl, heq⟩⟩ <;> rw [heq]
      · refine h.frame rfl rfl (fun _ => id) fun x hx hrecon _ rq' hrq' hlocal => ?_
        rcases h.covered x hx hrecon (by rw [hpc]; nofun) rq' hrq' hlocal with
          hmem | ⟨rest', rc', hpc', hmem⟩
        · exact .inl hmem
        · obtain ⟨rfl, rfl, -⟩ := Pc.locking.inj (hpc.symm.trans hpc')
          rcases mem_cons.mp hmem with rfl | hmem
          · rcases hskip with hskip | hskip
            · cases hskip.symm.trans hlocal
            · exact .inl hskip
          · exact .inr ⟨rest, _, rfl, hmem⟩
      · have howners := hl.listed (by decide)
        refine h.afterGet hpc ⟨_, rfl⟩ hr ?_ ?_ (.inl ?_)
        · exact fun en hen => howners ▸ mem_cons_of_mem _ hen
        · rw [hnone]
          nofun
        · exact howners ▸ mem_cons_self
      · have howners := hl.listed (by decide)
        refine h.afterGet hpc ⟨_, rfl⟩ hr (fun en hen => howners ▸ hen) ?_ (.inr ?_)
        · exact fun w hmem => hw ▸ mem_append_left _ hmem
        · exact hw ▸ mem_append_right _ mem_cons_self
  | swapping t rc =>
    rw [CalvinLocks.scheduler, hpc] at hs
    dsimp only at hs
    split at hs <;> obtain rfl := some.inj hs <;>
      exact h.setPc rfl rfl rfl (fun _ => id) (fun x => by rw [hpc]; nofun)
        (fun x rest rc heq => by cases hpc.symm.trans heq)
  | leave t rc =>
    rw [CalvinLocks.scheduler, hpc] at hs
    cases hs
    refine h.setPc rfl rfl rfl (fun x hx => ?_) (fun x => by rw [hpc]; nofun)
      (fun x rest rc heq => by cases hpc.symm.trans heq)
    rw [dispatched_eq_false] at hx ⊢
    refine ⟨?_, hx.2⟩
    have henq := hx.1
    split at henq
    · rw [count_append] at henq
      omega
    · exact henq

/-- **Steps of the engine**: only dispatched transactions release. -/
theorem Held.step {a : Action R T} (h : Held C s) (hinv : Inv s)
    (hs : step C dispatched s a = some s') : Held C s' := by
  cases a with
  | schedule t =>
    obtain ⟨⟨hidle, hnew⟩, hs⟩ := ite_none_right_eq_some.mp hs
    cases hs
    refine h.frame rfl rfl (fun _ => id) fun x hx hrecon henter rq hrq hlocal => .inl ?_
    rcases mem_append.mp hx with hx | hx
    · rcases h.covered x hx hrecon (by rw [hidle]; nofun) rq hrq hlocal with hmem | ⟨_, _, hpc, -⟩
      · exact hmem
      · cases hidle.symm.trans hpc
    · obtain rfl := mem_singleton.mp hx
      simp [hrecon] at henter
  | scheduler => exact h.scheduler hinv hs
  | release t r =>
    obtain ⟨hmay, l, ps, hsplit, -, -, hps, hkeep, rfl⟩ :=
      release_cases (hinv.fifo r).rep (hinv.fifo r).proper hs
    refine ⟨h.nodup, fun x hx y hy => ?_, h.covered⟩
    have hold := h.held x hx y hy
    simp only [State.Owns, State.Waits] at hold ⊢
    rcases eq_or_ne y r with rfl | hne
    · have hxt : x ≠ t := by
        rintro rfl
        cases hmay.symm.trans hx
      rw [update_self]
      rcases hold with ⟨en, hen, rfl⟩ | ⟨w, hw, rfl⟩
      · exact .inl ⟨en, hkeep en hen hxt, rfl⟩
      · rw [hsplit] at hw
        rcases mem_append.mp hw with hw | hw
        · exact .inl ⟨w, hps w hw, rfl⟩
        · exact .inr ⟨w, hw, rfl⟩
    · rwa [update_of_ne hne]
  | decrLr t =>
    obtain ⟨-, hs⟩ := ite_none_right_eq_some.mp hs
    cases hs
    exact h.frame rfl rfl (fun _ => id) h.covered
  | cas t =>
    obtain ⟨-, hs⟩ := ite_none_right_eq_some.mp hs
    split at hs <;> cases hs
    · refine h.frame rfl rfl (fun x hx => ?_) h.covered
      rw [dispatched_eq_false] at hx ⊢
      have hrestart := hx.2
      rw [count_append] at hrestart
      exact ⟨hx.1, by omega⟩
    · exact h.frame rfl rfl (fun _ => id) h.covered

end Held

/-! ## Exactly one dispatch -/

section Dispatch

variable {R : Type u} {T : Type v} [DecidableEq R] [DecidableEq T] {C : Config R T}
  {s s' : State R T} {t : T}

/-- The transaction owns every local row that it requests. -/
def State.OwnsAll (C : Config R T) (s : State R T) (t : T) : Prop :=
  C.isRecon t = false → ∀ rq ∈ C.requests t, rq.isLocal = true → s.Owns t rq.row

/-- All invariants of the node. -/
structure Dispatching (C : Config R T) (s : State R T) : Prop where
  /-- of the rows -/
  inv : Inv s
  /-- of the rows of a transaction -/
  held : Held C s
  /-- of the protocol -/
  ok : ∀ t, (s.view t).Ok

theorem reachable_dispatching (hs : (machine C dispatched).Reachable s) : Dispatching C s := by
  have hinit : Dispatching C init := ⟨inv_init, held_init C, fun _ => View.ok_init⟩
  refine hs.invariant hinit fun s a s' h hstep => ?_
  refine ⟨inv_step h.inv hstep, h.held.step h.inv hstep, fun t => ?_⟩
  rcases view_step h.inv h.held.nodup hstep t with heq | hview
  · rw [heq]
    exact h.ok t
  · exact (h.ok t).step hview

omit [DecidableEq R] in
theorem waitsIn_eq_zero {rows : List R} :
    waitsIn t s.lock rows = 0 ↔ ∀ r ∈ rows, ¬ s.Waits t r := by
  induction rows with
  | nil => simp [waitsIn]
  | cons r rows ih =>
    have hcons : waitsIn t s.lock (r :: rows) = waitsAt t (s.lock r) + waitsIn t s.lock rows := rfl
    have hat : waitsAt t (s.lock r) = 0 ↔ ¬ s.Waits t r := by
      rw [waitsAt, count_eq_zero, List.mem_map, State.Waits]
    rw [hcons, Nat.add_eq_zero_iff, hat, ih, forall_mem_cons]

omit [DecidableEq R] in
/-- A transaction that is ready and was not dispatched owns its rows. -/
theorem Dispatching.ownsAll (h : Dispatching C s) (hc : (s.view t).Complete)
    (hd : (s.view t).dispatches = 0) : s.OwnsAll C t := by
  obtain ⟨hsched, hearly, hcnt⟩ := hc
  intro hrecon rq hrq hlocal
  -- the scheduler is through with its requests
  have henter : s.pc ≠ .enter t := by
    intro hpc
    simp [view, hpc, Pc.phase, Phase.early] at hearly
  have hrow : rq.row ∈ s.lockedRows t := by
    rcases h.held.covered t (of_decide_eq_true hsched) hrecon henter rq hrq hlocal with
      hmem | ⟨rest, rc, hpc, -⟩
    · exact hmem
    · simp [view, hpc, Pc.phase, Phase.early] at hearly
  -- and none of them waits
  have hwaits : waitsIn t s.lock (s.lockedRows t) = 0 := by
    have hcount := (h.ok t).count
    rw [hcnt] at hcount
    show (s.view t).waits = 0
    omega
  have hdisp : s.dispatched t = false := dispatched_eq_false.mpr (Nat.add_eq_zero_iff.mp hd)
  exact (h.held.held t hdisp rq.row hrow).resolve_right (waitsIn_eq_zero.mp hwaits rq.row hrow)

/-- **Calvin transactions are dispatched exactly once.** -/
structure DispatchedOnce (C : Config R T) (s : State R T) : Prop where
  /-- by the scheduler or by a release, and not twice -/
  atMostOnce : ∀ t, s.enqueued.count t + s.restarted.count t ≤ 1
  /-- it has been dispatched when the scheduler is through with it, no request of it waits and the
  releases that granted them are through -/
  once : ∀ t ∈ s.scheduled, s.pc.txn ≠ some t → (∀ r, ¬ s.Waits t r) → t ∉ s.decrs → t ∉ s.swaps →
    s.enqueued.count t + s.restarted.count t = 1
  /-- a step that dispatches it finds it owning every local row it requested -/
  owning : ∀ a, ∀ s' ∈ (machine C dispatched).step s a, ∀ t,
    s.enqueued.count t + s.restarted.count t < s'.enqueued.count t + s'.restarted.count t →
    s.OwnsAll C t
  /-- the assertion of `lock_release` holds for every waiter it grants -/
  asserts : ∀ t ∈ s.decrs, (s.ready t).lockReady = false

/-- **Every scheduled transaction is dispatched once.** In every state that the scheduler, the
workers and the releases lead to, no transaction has been dispatched twice; one whose requests are
granted and counted has been dispatched; the step that does it finds it owning every local row; and
the assertion of `lock_release` holds. A grant, its `decr_lr` and the compare-and-swap are steps of
their own, so that the scheduler and other releases may come in between. -/
theorem transactions_dispatchedOnce (C : Config R T) {s : State R T}
    (hs : (machine C dispatched).Reachable s) : DispatchedOnce C s := by
  have h := reachable_dispatching hs
  constructor
  case atMostOnce =>
    intro t
    show (s.view t).dispatches ≤ 1
    by_cases hc : (s.view t).Complete
    · have := (h.ok t).one hc
      omega
    · have := (h.ok t).none hc
      omega
  case once =>
    intro t ht hpc hwaits hdecrs hswaps
    have hphase : (s.view t).phase = .away := Pc.phase_of_ne hpc
    have hcnt : (s.view t).ready.lockReadyCnt = 0 := by
      have hw : (s.view t).waits = 0 := waitsIn_eq_zero.mpr fun r _ => hwaits r
      have hd : (s.view t).decrs = 0 := count_eq_zero.mpr hdecrs
      rw [(h.ok t).count, hw, hd, hphase]
      rfl
    have hone := (h.ok t).one ⟨decide_eq_true ht, by rw [hphase]; rfl, hcnt⟩
    have hzero : (s.view t).swaps = 0 := count_eq_zero.mpr hswaps
    rw [hzero, hphase] at hone
    exact hone
  case owning =>
    intro a s' hstep t hlt
    rcases view_step h.inv h.held.nodup hstep t with heq | hview
    · have hsame : (s'.view t).dispatches = (s.view t).dispatches := by rw [heq]
      exact absurd hsame (ne_of_gt hlt)
    · obtain ⟨hc, hd⟩ := (h.ok t).complete_of_dispatch hview hlt
      exact h.ownsAll hc hd
  case asserts =>
    intro t ht
    refine Bool.eq_false_iff.mpr fun hflag => ?_
    have hcnt := ((h.ok t).flag hflag).1.2.2
    have hd : 0 < (s.view t).decrs := List.count_pos_iff.mpr ht
    rw [(h.ok t).count] at hcnt
    omega

end Dispatch

/-- The first transaction is dispatched by the scheduler, the second one by the release of the
first. -/
def handOver : List (Action ℕ ℕ) :=
  [.schedule 0] ++ List.replicate 5 Action.scheduler ++ [.schedule 1] ++
    List.replicate 4 Action.scheduler ++ [.release 0 0, .decrLr 1, .cas 1]

theorem transactions_dispatchedOnce_handOver :
    ∃ s ∈ (machine oneRow dispatched).run handOver,
      s.enqueued = [0] ∧ s.restarted = [1] ∧ DispatchedOnce oneRow s := by
  have hrun : ∃ s ∈ (machine oneRow dispatched).run handOver,
      s.enqueued = [0] ∧ s.restarted = [1] := by decide +kernel
  obtain ⟨s, hs, henq, hrestart⟩ := hrun
  exact ⟨s, hs, henq, hrestart, transactions_dispatchedOnce oneRow (.of_run hs)⟩

end CalvinLocks

end Deneva
