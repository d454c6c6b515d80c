import Deneva.Transition

/-!
# Timestamps from clocks (`manager.cpp`, `utils/version.cpp`, `order.cpp`)

Timestamps are to be unique, and both of the engine's clocks fail in that.

* `Manager.getTs` under `TS_CLOCK` packs the time, the node and the thread into one number. The time
  counts for `node_cnt + thread_cnt`, but there are `node_cnt * thread_cnt` pairs of a node and a
  thread. `getTs_unique_iff`: as long as nothing wraps, timestamps are unique exactly if the product
  is not greater than the sum. Where the readings of the clock may be any numbers, they never are.
* The framework's `ClockF` is one variable, which `timestampStartup` sets and then reads, in two
  steps. `stamps_unique_iff`: stamps are unique exactly in the runs in which the clock is set
  between any two reads of a start timestamp. `updateClock` ends with the time of day, whatever
  `TS_ALLOC` is.
-/

namespace Deneva

open Function List Option

/-- `TS_ALLOC`. -/
inductive TsAlloc where
  | TS_MUTEX
  | TS_CAS
  | TS_HW
  | TS_CLOCK
  deriving DecidableEq

namespace Manager

/-! ## The engine's timestamps -/

/-- What `get_ts` reads of the configuration. -/
structure Config where
  tsAlloc : TsAlloc
  tsBatchAlloc : Bool
  tsBatchNum : UInt32
  nodeCnt : UInt32
  threadCnt : UInt32

/-- A call of `get_ts`: by which thread of which node, and the time it reads from the clock. -/
structure Call where
  nodeId : UInt32
  threadId : UInt64
  /-- `get_wall_clock()` -/
  wallClock : UInt64
  deriving DecidableEq

/-- `Manager::get_ts`, with the new value of `timestamp`; without a result where an assertion
fails. -/
def getTs (C : Config) (a : Call) (timestamp : UInt64) : Option (UInt64 × UInt64) :=
  if C.tsBatchAlloc ∧ C.tsAlloc ≠ .TS_CAS then none
  else
    match C.tsAlloc with
    | .TS_MUTEX => some (timestamp + 1, timestamp + 1)
    | .TS_CAS => some (timestamp, timestamp + if C.tsBatchAlloc then C.tsBatchNum.toUInt64 else 1)
    | .TS_HW => none
    | .TS_CLOCK =>
      some (a.wallClock * (C.nodeCnt + C.threadCnt).toUInt64 +
        ((a.nodeId * C.threadCnt).toUInt64 + a.threadId), timestamp)

/-- The call is made on one of the nodes, by one of its threads. -/
def Call.Valid (C : Config) (a : Call) : Prop :=
  a.nodeId < C.nodeCnt ∧ a.threadId < C.threadCnt.toUInt64

/-- The times are so close that nothing wraps between them. -/
def Near (C : Config) (a b : Call) : Prop :=
  (a.wallClock.toNat - b.wallClock.toNat + (b.wallClock.toNat - a.wallClock.toNat)) *
    (C.nodeCnt.toNat + C.threadCnt.toNat) + C.nodeCnt.toNat * C.threadCnt.toNat ≤ 2 ^ 64

/-- **Calls return different timestamps**: those of different threads, and those of one thread at
different times. -/
def Unique (C : Config) : Prop :=
  ∀ (a b : Call), a.Valid C → b.Valid C → Near C a b → a ≠ b →
    ∀ ts ts', (getTs C a ts).map Prod.fst ≠ (getTs C b ts').map Prod.fst

variable {C : Config} {a b : Call}

/-- The number of a thread among all threads. -/
def Call.index (C : Config) (a : Call) : ℕ := a.nodeId.toNat * C.threadCnt.toNat + a.threadId.toNat

theorem Call.Valid.threadId_lt (h : a.Valid C) : a.threadId.toNat < C.threadCnt.toNat := by
  have hlt := UInt64.lt_iff_toNat_lt.mp h.2
  rwa [UInt32.toNat_toUInt64] at hlt

theorem Call.Valid.index_lt (h : a.Valid C) : a.index C < C.nodeCnt.toNat * C.threadCnt.toNat := by
  have hnode : a.nodeId.toNat + 1 ≤ C.nodeCnt.toNat := UInt32.lt_iff_toNat_lt.mp h.1
  calc a.index C < (a.nodeId.toNat + 1) * C.threadCnt.toNat := by
        rw [Call.index, Nat.add_mul, Nat.one_mul]
        exact Nat.add_lt_add_left h.threadId_lt _
    _ ≤ C.nodeCnt.toNat * C.threadCnt.toNat := Nat.mul_le_mul_right _ hnode

/-- A thread is known by its number. -/
theorem Call.Valid.eq_of_index (ha : a.Valid C) (hb : b.Valid C) (h : a.index C = b.index C)
    (hclock : a.wallClock = b.wallClock) : a = b := by
  obtain ⟨n, t, w⟩ := a
  obtain ⟨n', t', w'⟩ := b
  have hdiv : ∀ {n t}, t < C.threadCnt.toNat →
      (n * C.threadCnt.toNat + t) / C.threadCnt.toNat = n ∧
        (n * C.threadCnt.toNat + t) % C.threadCnt.toNat = t :=
    fun ht =>
      (Nat.div_mod_unique (Nat.zero_lt_of_lt ht)).mpr ⟨by rw [Nat.mul_comm, Nat.add_comm], ht⟩
  obtain ⟨hn, ht⟩ := hdiv ha.threadId_lt
  obtain ⟨hn', ht'⟩ := hdiv hb.threadId_lt
  simp only [Call.index] at h
  rw [h] at hn ht
  obtain rfl : n = n' := UInt32.toNat_inj.mp (hn.symm.trans hn')
  obtain rfl : t = t' := UInt64.toNat_inj.mp (ht.symm.trans ht')
  obtain rfl : w = w' := hclock
  rfl

/-- What `TS_CLOCK` computes. -/
theorem toNat_getTs (hC : C.tsAlloc = .TS_CLOCK) (hbatch : C.tsBatchAlloc = false) (a : Call)
    (ts : UInt64) :
    ((getTs C a ts).map Prod.fst).map UInt64.toNat =
      some ((a.wallClock.toNat * ((C.nodeCnt.toNat + C.threadCnt.toNat) % 2 ^ 32) +
        (a.nodeId.toNat * C.threadCnt.toNat % 2 ^ 32 + a.threadId.toNat)) % 2 ^ 64) := by
  simp [getTs, hC, hbatch, UInt64.toNat_add, UInt64.toNat_mul]

/-- A thread whose number is the factor of the time gets what the first thread gets a nanosecond
later. -/
theorem not_unique (hC : C.tsAlloc = .TS_CLOCK) (hbatch : C.tsBatchAlloc = false)
    (hnode : 0 < C.nodeCnt) (hthread : 0 < C.threadCnt) {n t : ℕ} (hn : n < C.nodeCnt.toNat)
    (ht : t < C.threadCnt.toNat)
    (h : n * C.threadCnt.toNat % 2 ^ 32 + t = (C.nodeCnt.toNat + C.threadCnt.toNat) % 2 ^ 32) :
    ¬Unique C := by
  intro hu
  have hN := C.nodeCnt.toNat_lt
  have hT := C.threadCnt.toNat_lt
  have hn' : (UInt32.ofNat n).toNat = n := UInt32.toNat_ofNat_of_lt' (hn.trans hN)
  have ht' : (UInt64.ofNat t).toNat = t :=
    UInt64.toNat_ofNat_of_lt' (ht.trans (hT.trans (by decide)))
  refine hu ⟨.ofNat n, .ofNat t, 0⟩ ⟨0, 0, 1⟩ ⟨?_, ?_⟩ ⟨hnode, ?_⟩ ?_ (by simp) 0 0 ?_
  · rwa [UInt32.lt_iff_toNat_lt, hn']
  · rwa [UInt64.lt_iff_toNat_lt, ht', UInt32.toNat_toUInt64]
  · rw [UInt64.lt_iff_toNat_lt, UInt32.toNat_toUInt64]
    exact UInt32.lt_iff_toNat_lt.mp hthread
  · have hle : C.nodeCnt.toNat * C.threadCnt.toNat ≤ (2 ^ 32 - 1) * (2 ^ 32 - 1) :=
      Nat.mul_le_mul (Nat.le_sub_one_of_lt hN) (Nat.le_sub_one_of_lt hT)
    simp only [Near, UInt64.toNat_zero, UInt64.toNat_one]
    omega
  · apply map_injective fun _ _ => UInt64.toNat_inj.mp
    rw [toNat_getTs hC hbatch, toNat_getTs hC hbatch, hn', ht', h]
    simp

/-- Numbers `x * M + i` with `i < M` are different, also modulo `m` when they are closer than
that. -/
theorem eq_of_mod_eq {m M P x y i j : ℕ} (hP : P ≤ M) (hi : i < P) (hj : j < P) (hle : y ≤ x)
    (hnear : (x - y) * M + P ≤ m) (h : (x * M + i) % m = (y * M + j) % m) : x = y ∧ i = j := by
  obtain ⟨d, rfl⟩ := Nat.exists_eq_add_of_le hle
  rw [Nat.add_sub_cancel_left] at hnear
  rw [Nat.add_mul, Nat.add_assoc] at h
  have hmod : (d * M + i) % m = j % m := Nat.ModEq.add_left_cancel' (y * M) h
  rw [Nat.mod_eq_of_lt (by omega), Nat.mod_eq_of_lt (by omega)] at hmod
  have hd : d = 0 := by
    by_contra hd
    have := Nat.le_mul_of_pos_left M (Nat.pos_of_ne_zero hd)
    omega
  subst hd
  exact ⟨rfl, by omega⟩

/-- Without wrapping, timestamps are unique as long as a thread's number is below the factor. -/
theorem unique_iff (hC : C.tsAlloc = .TS_CLOCK) (hbatch : C.tsBatchAlloc = false)
    (hnode : 0 < C.nodeCnt) (hthread : 0 < C.threadCnt) :
    Unique C ↔ C.nodeCnt.toNat * C.threadCnt.toNat ≤ C.nodeCnt.toNat + C.threadCnt.toNat ∧
      C.nodeCnt.toNat + C.threadCnt.toNat < 2 ^ 32 := by
  have hN := C.nodeCnt.toNat_lt
  have hT := C.threadCnt.toNat_lt
  have hpos : 0 < C.nodeCnt.toNat ∧ 0 < C.threadCnt.toNat :=
    ⟨UInt32.lt_iff_toNat_lt.mp hnode, UInt32.lt_iff_toNat_lt.mp hthread⟩
  constructor
  · intro hu
    have hsum : C.nodeCnt.toNat + C.threadCnt.toNat < 2 ^ 32 := by
      by_contra hsum
      -- the factor has wrapped, and is the number of a thread of the first node
      refine not_unique hC hbatch hnode hthread
        (t := C.nodeCnt.toNat + C.threadCnt.toNat - 2 ^ 32) hpos.1 (by omega) ?_ hu
      rw [Nat.zero_mul]
      omega
    refine ⟨Nat.le_of_not_lt fun hlt => ?_, hsum⟩
    have hdiv := Nat.div_add_mod' (C.nodeCnt.toNat + C.threadCnt.toNat) C.threadCnt.toNat
    refine not_unique hC hbatch hnode hthread (Nat.div_lt_of_lt_mul (Nat.mul_comm _ _ ▸ hlt))
      (Nat.mod_lt (C.nodeCnt.toNat + C.threadCnt.toNat) hpos.2) ?_ hu
    rw [Nat.mod_eq_of_lt (by omega), hdiv, Nat.mod_eq_of_lt hsum]
  · rintro ⟨hprod, hsum⟩ a b ha hb hnear hne ts ts' heq
    have hwrap : ∀ {c : Call}, c.Valid C →
      c.nodeId.toNat * C.threadCnt.toNat % 2 ^ 32 + c.threadId.toNat = c.index C := by
      intro c hc
      have hlt := hc.index_lt
      rw [Call.index] at hlt ⊢
      rw [Nat.mod_eq_of_lt (by omega)]
    have hmod := congrArg (Option.map UInt64.toNat) heq
    rw [toNat_getTs hC hbatch, toNat_getTs hC hbatch, hwrap ha, hwrap hb,
      Nat.mod_eq_of_lt hsum] at hmod
    have hmod := some.inj hmod
    refine hne ?_
    rcases Nat.le_total b.wallClock.toNat a.wallClock.toNat with hle | hle
    · rw [Near, Nat.sub_eq_zero_of_le hle, Nat.add_zero] at hnear
      obtain ⟨hclock, hindex⟩ := eq_of_mod_eq hprod ha.index_lt hb.index_lt hle hnear hmod
      exact ha.eq_of_index hb hindex (UInt64.toNat_inj.mp hclock)
    · rw [Near, Nat.sub_eq_zero_of_le hle, Nat.zero_add] at hnear
      obtain ⟨hclock, hindex⟩ := eq_of_mod_eq hprod hb.index_lt ha.index_lt hle hnear hmod.symm
      exact (hb.eq_of_index ha hindex (UInt64.toNat_inj.mp hclock)).symm

/-- Two calls get the same timestamp if they get the same number. -/
theorem getTs_eq_of_mod (hC : C.tsAlloc = .TS_CLOCK) (hbatch : C.tsBatchAlloc = false)
    (h : (a.wallClock.toNat * ((C.nodeCnt.toNat + C.threadCnt.toNat) % 2 ^ 32) +
      (a.nodeId.toNat * C.threadCnt.toNat % 2 ^ 32 + a.threadId.toNat)) % 2 ^ 64 =
      (b.wallClock.toNat * ((C.nodeCnt.toNat + C.threadCnt.toNat) % 2 ^ 32) +
      (b.nodeId.toNat * C.threadCnt.toNat % 2 ^ 32 + b.threadId.toNat)) % 2 ^ 64)
    (ts ts' : UInt64) : (getTs C a ts).map Prod.fst = (getTs C b ts').map Prod.fst := by
  apply map_injective fun _ _ => UInt64.toNat_inj.mp
  rw [toNat_getTs hC hbatch, toNat_getTs hC hbatch, h]

/-- **Far readings collide**: `2 ^ 63` apart the first thread gets the same timestamp if the factor
is even. If it is odd, it has an inverse modulo `2 ^ 64`, at which the first thread gets what
another one gets at `0`. -/
theorem getTs_wraps (hC : C.tsAlloc = .TS_CLOCK) (hbatch : C.tsBatchAlloc = false)
    (hnode : 0 < C.nodeCnt) (hthread : 0 < C.threadCnt) :
    ∃ a b : Call, a.Valid C ∧ b.Valid C ∧ a ≠ b ∧
      ∀ ts ts', (getTs C a ts).map Prod.fst = (getTs C b ts').map Prod.fst := by
  have hN := UInt32.lt_iff_toNat_lt.mp hnode
  have hT := UInt32.lt_iff_toNat_lt.mp hthread
  simp only [UInt32.toNat_zero] at hN hT
  have hfirst : ∀ w, Call.Valid C ⟨0, 0, w⟩ := fun w => by
    refine ⟨hnode, ?_⟩
    rwa [UInt64.lt_iff_toNat_lt, UInt32.toNat_toUInt64]
  rcases Nat.even_or_odd (C.nodeCnt.toNat + C.threadCnt.toNat) with ⟨k, hk⟩ | hodd
  · have hclock : (UInt64.ofNat (2 ^ 63)).toNat = 2 ^ 63 := UInt64.toNat_ofNat_of_lt' (by decide)
    refine ⟨⟨0, 0, 0⟩, ⟨0, 0, .ofNat (2 ^ 63)⟩, hfirst 0, hfirst _, fun heq => ?_,
      getTs_eq_of_mod hC hbatch ?_⟩
    · have hzero := congrArg (fun a => a.wallClock.toNat) heq
      rw [hclock] at hzero
      cases hzero
    · simp only [hclock, UInt64.toNat_zero, UInt32.toNat_zero, Nat.zero_mul, Nat.zero_mod,
        Nat.add_zero]
      omega
  · set M := (C.nodeCnt.toNat + C.threadCnt.toNat) % 2 ^ 32 with hM
    have hcop : Nat.Coprime M (2 ^ 64) := by
      apply Nat.Coprime.pow_right
      rw [Nat.coprime_two_right, Nat.odd_iff, hM]
      have := Nat.odd_iff.mp hodd
      omega
    obtain ⟨w, hlt, hw⟩ := Nat.exists_mul_mod_eq_one_of_coprime hcop (by decide)
    have hw' : (UInt64.ofNat w).toNat = w := UInt64.toNat_ofNat_of_lt' hlt
    -- the second thread of the first node, or else the second node
    obtain ⟨b, hb, hzero, hone⟩ : ∃ b : Call, b.Valid C ∧ b.wallClock = 0 ∧
        b.nodeId.toNat * C.threadCnt.toNat % 2 ^ 32 + b.threadId.toNat = 1 := by
      by_cases hone : C.threadCnt.toNat = 1
      · refine ⟨⟨1, 0, 0⟩, ⟨?_, (hfirst 0).2⟩, rfl, by simp [hone]⟩
        rw [UInt32.lt_iff_toNat_lt, UInt32.toNat_one]
        have := Nat.odd_iff.mp hodd
        omega
      · refine ⟨⟨0, 1, 0⟩, ⟨hnode, ?_⟩, rfl, by simp⟩
        rw [UInt64.lt_iff_toNat_lt, UInt32.toNat_toUInt64, UInt64.toNat_one]
        omega
    refine ⟨⟨0, 0, .ofNat w⟩, b, hfirst _, hb, ?_, getTs_eq_of_mod hC hbatch ?_⟩
    · rintro rfl
      simp at hone
    · rw [hone, hzero, hw']
      simp only [UInt64.toNat_zero, UInt32.toNat_zero, Nat.zero_mul, Nat.zero_mod, Nat.add_zero,
        Nat.zero_add]
      rw [Nat.mul_comm, hw]
      rfl

/-- **Timestamps of clocks are unique** exactly if there are no more pairs of a node and a thread
than the factor of the time leaves room for, and the factor does not wrap. That is for readings so
close that the product does not wrap between them: over all readings some two calls get the same
timestamp. -/
theorem getTs_unique_iff (C : Config) (hC : C.tsAlloc = .TS_CLOCK) (hbatch : C.tsBatchAlloc = false)
    (hnode : 0 < C.nodeCnt) (hthread : 0 < C.threadCnt) :
    (Unique C ↔ C.nodeCnt.toNat * C.threadCnt.toNat ≤ C.nodeCnt.toNat + C.threadCnt.toNat ∧
      C.nodeCnt.toNat + C.threadCnt.toNat < 2 ^ 32) ∧
    ∃ a b : Call, a.Valid C ∧ b.Valid C ∧ a ≠ b ∧
      ∀ ts ts', (getTs C a ts).map Prod.fst = (getTs C b ts').map Prod.fst :=
  ⟨unique_iff hC hbatch hnode hthread, getTs_wraps hC hbatch hnode hthread⟩

theorem getTs_unique_one_node :
    Unique ⟨.TS_CLOCK, false, 0, 1, 16⟩ ∧ ¬ Unique ⟨.TS_CLOCK, false, 0, 2, 3⟩ := by
  rw [(getTs_unique_iff ⟨.TS_CLOCK, false, 0, 1, 16⟩ rfl rfl (by decide) (by decide)).1,
    (getTs_unique_iff ⟨.TS_CLOCK, false, 0, 2, 3⟩ rfl rfl (by decide) (by decide)).1]
  decide

/-- With two nodes of three threads the last one gets at time `0` what the first one gets at time
`1`. -/
theorem getTs_twice :
    (getTs ⟨.TS_CLOCK, false, 0, 2, 3⟩ ⟨1, 2, 0⟩ 1).map Prod.fst = some 5 ∧
      (getTs ⟨.TS_CLOCK, false, 0, 2, 3⟩ ⟨0, 0, 1⟩ 1).map Prod.fst = some 5 ∧
      ¬ Unique ⟨.TS_CLOCK, false, 0, 2, 3⟩ := by
  refine ⟨by decide, by decide, ?_⟩
  exact not_unique rfl rfl (n := 1) (t := 2) (by decide) (by decide) (by decide) (by decide)
    (by decide)

end Manager

namespace ClockF

/-! ## The framework's clock -/

/-- `ClockF::updateClock`: what the allocator gives is replaced by `now`, the time of day. -/
def updateClock (C : Manager.Config) (nodeId : UInt32) (wallClock : UInt64) (now : ℕ) (time : ℤ) :
    Option ℤ :=
  let allocated : Option ℤ :=
    match C.tsAlloc with
    | .TS_MUTEX => some (time + 1)
    | .TS_CAS => some time
    | .TS_HW => none
    | .TS_CLOCK =>
      some (wallClock * (C.nodeCnt + C.threadCnt).toUInt64 +
        (nodeId * C.threadCnt).toUInt64).toInt64.toInt
  allocated.map fun _ => now

/-- `ClockF::getTime`. -/
def getTime (C : Manager.Config) (nodeId : UInt32) (wallClock : UInt64) (now : ℕ) (time : ℤ) :
    Option ℤ :=
  if time = -1 then updateClock C nodeId wallClock now time else some time

/-- Which timestamp of a transaction is taken. -/
inductive Kind where
  | startup
  | commit
  deriving DecidableEq

/-- The clock, the threads that have set it and not read it yet, and the start timestamps handed
out. -/
structure State (W X : Type) where
  time : ℤ
  /-- the last time of day that was read -/
  clock : ℤ
  /-- what a thread is going to read the clock for -/
  pending : W → Option (Kind × X)
  /-- `timestampStartup` of the transactions that have one, latest first -/
  starts : List (X × ℤ)
  /-- the clock was set since a start timestamp was read (a history) -/
  updated : Bool

/-- The two steps of `timestampStartup` and `timestampCommit`, with the times they may read. -/
inductive Action (W X : Type) where
  | updateClock (w : W) (kind : Kind) (x : X) (wallClock : UInt64) (now : ℕ)
  | getTime (w : W) (wallClock : UInt64) (now : ℕ)

/-- Threads that take timestamps, in any order of their steps; the time of day only grows. -/
def machine (W X : Type) [DecidableEq W] (C : Manager.Config) (nodeId : UInt32) :
    Machine (State W X) (Action W X) where
  init := ⟨-1, -1, fun _ => none, [], false⟩
  step s
    | .updateClock w kind x wallClock now =>
      if s.pending w = none ∧ s.clock < now then
        (updateClock C nodeId wallClock now s.time).map fun time =>
          { s with
            time := time
            clock := now
            pending := update s.pending w (some (kind, x))
            updated := true }
      else none
    | .getTime w wallClock now =>
      (s.pending w).bind fun (kind, x) =>
        (getTime C nodeId wallClock now s.time).map fun time =>
          let s := { s with time := time, pending := update s.pending w none }
          match kind with
          | .startup => { s with starts := (x, time) :: s.starts, updated := false }
          | .commit => s

/-- A start timestamp is read from a clock that was set since the one before. -/
def Updated {W X : Type} (s : State W X) : Action W X → Prop
  | .getTime w _ _ => ∀ p ∈ s.pending w, p.1 = .startup → s.updated
  | .updateClock .. => True

/-- **Start timestamps are unique.** -/
def Unique {W X : Type} (s : State W X) : Prop := (s.starts.map Prod.snd).Nodup

/-- The clock shows the time that was read last, and start timestamps are not later. -/
structure Inv {W X : Type} (s : State W X) : Prop where
  /-- the clock was set before it is read -/
  pending : ∀ w p, s.pending w = some p → 0 ≤ s.time
  /-- the clock follows the time of day -/
  time : s.time ≤ s.clock
  /-- timestamps are not later than the clock -/
  le : ∀ p ∈ s.starts, p.2 ≤ s.time
  /-- they are earlier if it has been set -/
  lt : s.updated → ∀ p ∈ s.starts, p.2 < s.time
  /-- otherwise one of them is what it shows, or nobody is going to read it -/
  eq : s.updated = false → (∃ p ∈ s.starts, p.2 = s.time) ∨ ∀ w, s.pending w = none

variable {W X : Type} [DecidableEq W] {C : Manager.Config} {nodeId : UInt32} {s s' : State W X}

/-- **One step** keeps start timestamps unique exactly if it is as it should. -/
theorem unique_step {a : Action W X} (hI : Inv s) (hP : Unique s)
    (hs : (machine W X C nodeId).step s a = some s') :
    (Unique s' ↔ Updated s a) ∧ (Updated s a → Inv s') := by
  cases a with
  | updateClock w kind x wallClock now =>
    simp only [machine, ite_none_right_eq_some, map_eq_some_iff] at hs
    obtain ⟨⟨-, hnow⟩, time, htime, rfl⟩ := hs
    obtain rfl : now = time := by
      rw [updateClock, map_eq_some_iff] at htime
      obtain ⟨_, -, h⟩ := htime
      exact h
    have hlt : ∀ p ∈ s.starts, p.2 < (now : ℤ) :=
      fun p hp => ((hI.le p hp).trans hI.time).trans_lt hnow
    exact ⟨iff_of_true hP trivial, fun _ => ⟨fun _ _ _ => Int.natCast_nonneg now, le_rfl,
      fun p hp => (hlt p hp).le, fun _ => hlt, nofun⟩⟩
  | getTime w wallClock now =>
    simp only [machine, bind_eq_some_iff, map_eq_some_iff] at hs
    obtain ⟨⟨kind, x⟩, hw, time, htime, rfl⟩ := hs
    have hpos := hI.pending w _ hw
    obtain rfl : s.time = time := by
      rw [getTime, if_neg (by omega)] at htime
      exact some.inj htime
    have hrest : ∀ w' p, update s.pending w none w' = some p → 0 ≤ s.time := fun _ _ _ => hpos
    cases kind with
    | commit =>
      refine ⟨iff_of_true hP ?_, fun _ => ⟨hrest, hI.time, hI.le, hI.lt, fun hu => ?_⟩⟩
      · rintro p hp hstart
        obtain rfl := some.inj (hw.symm.trans hp)
        cases hstart
      · refine (hI.eq hu).imp_right fun hnone => ?_
        cases (hnone w).symm.trans hw
    | startup =>
      have hok : Updated s (.getTime w wallClock now) ↔ s.updated = true :=
        ⟨fun h => h _ hw rfl, fun h _ _ _ => h⟩
      rw [hok]
      constructor
      · rw [Unique, map_cons, nodup_cons]
        constructor
        · rintro ⟨hnot, -⟩
          by_contra hu
          rcases hI.eq (Bool.eq_false_iff.mpr hu) with ⟨p, hp, heq⟩ | hnone
          · exact hnot (List.mem_map.mpr ⟨p, hp, heq⟩)
          · cases (hnone w).symm.trans hw
        · intro hu
          refine ⟨fun hmem => ?_, hP⟩
          obtain ⟨p, hp, heq⟩ := List.mem_map.mp hmem
          exact (hI.lt hu p hp).ne heq
      · intro hu
        refine ⟨hrest, hI.time, ?_, nofun, fun _ => .inl ⟨_, mem_cons_self, rfl⟩⟩
        exact forall_mem_cons.mpr ⟨le_rfl, hI.le⟩

/-- **Start timestamps stay unique** exactly in the runs in which the clock is set between any two
reads of one. Setting the clock and reading it are two steps: another thread may set it in between,
and then both read what that one has set. -/
theorem stamps_unique_iff (C : Manager.Config) (nodeId : UInt32) (as : List (Action W X)) :
    (∀ k, ∀ s ∈ (machine W X C nodeId).run (as.take k), Unique s) ↔
      (machine W X C nodeId).RunOk Updated (machine W X C nodeId).init as := by
  apply Machine.runFrom_iff_runOk_of_inv (I := Inv)
  · intro s a hI hnone
    cases a with
    | updateClock => trivial
    | getTime w wallClock now =>
      intro p hp
      have hpos := hI.pending w p hp
      simp only [machine, show s.pending w = some p from hp, bind_some, getTime,
        if_neg (show s.time ≠ -1 by omega), map_some] at hnone
      cases hnone
  · exact fun s a s' hI hP hs => unique_step hI hP hs
  · exact ⟨nofun, le_rfl, nofun, nofun, fun _ => .inr fun _ => rfl⟩
  · exact nodup_nil

/-- Two threads set the clock, then both read what the second one has set. -/
theorem stamps_not_unique :
    ∃ s ∈ (machine Bool ℕ ⟨.TS_CLOCK, false, 0, 1, 2⟩ 0).run
      [.updateClock false .startup 1 0 10, .updateClock true .startup 2 0 11, .getTime false 0 0,
        .getTime true 0 0], s.starts = [(2, 11), (1, 11)] ∧ ¬ Unique s := by
  have hstarts : ∃ s ∈ (machine Bool ℕ ⟨.TS_CLOCK, false, 0, 1, 2⟩ 0).run
      [.updateClock false .startup 1 0 10, .updateClock true .startup 2 0 11, .getTime false 0 0,
        .getTime true 0 0], s.starts = [(2, 11), (1, 11)] := by decide
  obtain ⟨s, hs, hstarts⟩ := hstarts
  refine ⟨s, hs, hstarts, fun h => ?_⟩
  rw [Unique, hstarts] at h
  exact absurd h (by decide)

end ClockF

end Deneva
