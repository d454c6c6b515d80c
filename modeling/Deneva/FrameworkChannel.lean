import Deneva.Transition
import Deneva.Types

/-!
# Messages between frameworks (`framework/utils/communication.cpp`)

`sendMessage` writes a message to a text archive and hands bytes to a socket; `recvTransaction`
takes them from the socket at the other end, restores a message and hands it to `get`.

* `sendMessage` reads the archive through a pointer into a string that is gone by then
  (`ofs.str().c_str()`). What it finds there is not determined by the message, so it is a part of
  the action: `buf` is whatever `memcpy` found.
* It cuts the bytes into chunks, but the chunks are in a variable of their own, and what is sent is
  the buffer with all of them. Its loop counts what was sent: a failed call answers `-1`, and the
  offset, which is not signed, is then behind the end (`sendLoop_failed`).
* `recvTransaction` takes a buffer that is longer than `MAX_SIZE` for a part of a message. It
  restores the message and goes on receiving, and the next one takes its place. A buffer that is no
  archive makes it throw; it catches that and starts again.
-/

namespace Deneva

open List Option

namespace FrameworkChannel

universe u

/-- `MAX_SIZE`. -/
def MAX_SIZE : ℕ := 223

/-- The bytes of a message, as many as an `int` can count. -/
abbrev Buffer : Type := { bytes : List UInt8 // bytes.length < 2 ^ 31 }

/-- The number of bytes. -/
def Buffer.size (b : Buffer) : ℕ := b.1.length

/-- How messages are archived and restored. -/
structure Archive (M : Type u) : Type u where
  /-- `oa << message` -/
  save : M → Buffer
  /-- `ia >> message`, which throws if the bytes are no archive -/
  load : Buffer → Option M
  load_save : ∀ m, load (save m) = some m

/-- The loop of `sendMessage`, where the results of the calls of `send` are given: how often the
buffer was handed to the socket, and the results that are left. There is no answer if the results
are not enough. -/
def sendLoop (dataSize : ℕ) : ℕ → List Bool → Option (ℕ × List Bool)
  | offset, [] => if offset < dataSize then none else some (0, [])
  | offset, ok :: results =>
    if offset < dataSize then
      -- `offset += result`, where `result` is the size of the buffer or `-1`
      (sendLoop dataSize (u64 (offset + if ok then dataSize else UINT64_MAX)) results).map
        fun (sent, rest) => ((if ok then 1 else 0) + sent, rest)
    else some (0, ok :: results)

/-- The two ends of a connection. -/
structure State (M : Type u) : Type u where
  /-- the messages for which `sendMessage` has returned -/
  requested : List M
  /-- the buffers that were handed to the socket -/
  sent : List Buffer
  /-- those that were not received yet -/
  net : List Buffer
  /-- `message`, as it was restored last -/
  message : Option M
  /-- what was handed to `get` -/
  handled : List M

/-- A step of one end. -/
inductive Action (M : Type u) : Type u where
  /-- `sendMessage`, with what it copied from `data` and the results of its calls of `send` -/
  | sendMessage (m : M) (buf : Buffer) (results : List Bool)
  /-- a call of `recv` that returns nothing -/
  | poll
  /-- a call of `recv` that returns a buffer -/
  | recv

section Connection

variable {M : Type u} (A : Archive M)

/-- One step. -/
def step (s : State M) : Action M → Option (State M)
  | .sendMessage m buf results =>
    match sendLoop buf.size 0 results with
    | some (sent, []) =>
      some { s with
        requested := s.requested ++ [m]
        sent := s.sent ++ List.replicate sent buf
        net := s.net ++ List.replicate sent buf }
    | _ => none
  | .poll => some s
  | .recv =>
    match s.net with
    | [] => none
    | buf :: net =>
      -- `complete` is set for a buffer that is not longer than `MAX_SIZE` only
      some { s with
        net := net, message := A.load buf
        handled := s.handled ++ if buf.size ≤ MAX_SIZE then (A.load buf).toList else [] }

/-- A connection. -/
def machine : Machine (State M) (Action M) where
  init := ⟨[], [], [], none, []⟩
  step := step A

/-- Each message was handed to the socket once, and each that was received was handled once, in
order. -/
def Delivered (s : State M) : Prop :=
  s.sent = s.requested.map A.save ∧ s.handled.map A.save ++ s.net = s.sent

/-- There is something to send, no call of `send` fails, and what is sent is the archive; what is
received is not too long. -/
def Fits (s : State M) : Action M → Prop
  | .sendMessage m buf results =>
    (buf.size = 0 → results ≠ []) ∧
      (0 < buf.size → results ≠ [false] ∧ (results = [true] → buf = A.save m))
  | .poll => True
  | .recv => ∀ buf ∈ s.net.head?, buf.size ≤ MAX_SIZE

variable {A} {s s' : State M} {m : M} {buf : Buffer}

/-- The buffer is sent at once. -/
theorem sendLoop_sent {dataSize : ℕ} (hpos : 0 < dataSize) (hlt : dataSize < 2 ^ 31)
    (results : List Bool) : sendLoop dataSize 0 (true :: results) = some (1, results) := by
  have hoffset : u64 (0 + dataSize) = dataSize := by
    rw [Nat.zero_add]
    exact u64_of_le (by simp only [UINT64_MAX]; omega)
  rw [sendLoop, if_pos hpos]
  simp only [if_true, hoffset]
  cases results <;> simp [sendLoop]

/-- **After a failed call the loop ends**, with nothing sent: the offset is then `UINT64_MAX`. -/
theorem sendLoop_failed {dataSize : ℕ} (hpos : 0 < dataSize) (hlt : dataSize < 2 ^ 31)
    (results : List Bool) : sendLoop dataSize 0 (false :: results) = some (0, results) := by
  have hoffset : u64 (0 + UINT64_MAX) = UINT64_MAX := by
    rw [Nat.zero_add]
    exact u64_of_le (Nat.le_refl _)
  have hend : ¬ UINT64_MAX < dataSize := by
    simp only [UINT64_MAX]
    omega
  rw [sendLoop, if_pos hpos]
  simp only [Bool.false_eq_true, if_false, hoffset]
  cases results <;> simp [sendLoop, hend]

/-- What a call of `sendMessage` does. -/
theorem sendMessage_cases {results : List Bool}
    (h : step A s (.sendMessage m buf results) = some s') :
    ∃ sent, s' = { s with
        requested := s.requested ++ [m]
        sent := s.sent ++ List.replicate sent buf
        net := s.net ++ List.replicate sent buf } ∧
      (0 < buf.size ∧ results = [true] ∧ sent = 1 ∨ 0 < buf.size ∧ results = [false] ∧ sent = 0 ∨
        buf.size = 0 ∧ results = [] ∧ sent = 0) := by
  simp only [step] at h
  split at h
  next sent hloop =>
    refine ⟨sent, (some.inj h).symm, ?_⟩
    rcases Nat.eq_zero_or_pos buf.size with hzero | hpos
    · cases results with
      | nil => simp_all [sendLoop]
      | cons ok results => simp [sendLoop, hzero] at hloop
    · cases results with
      | nil => simp [sendLoop, hpos] at hloop
      | cons ok results =>
        cases ok with
        | true =>
          rw [sendLoop_sent hpos buf.2] at hloop
          obtain ⟨rfl, rfl⟩ := hloop
          exact .inl ⟨hpos, rfl, rfl⟩
        | false =>
          rw [sendLoop_failed hpos buf.2] at hloop
          obtain ⟨rfl, rfl⟩ := hloop
          exact .inr (.inl ⟨hpos, rfl, rfl⟩)
  · cases h

/-- A message of which nothing is sent is not delivered. -/
theorem not_delivered_of_unsent (hsent : s.sent = s.requested.map A.save)
    (hs' : s'.sent = s.sent) (hreq : s'.requested = s.requested ++ [m]) : ¬ Delivered A s' := by
  intro hd
  have := congrArg List.length hd.1
  simp [hs', hreq, hsent] at this

/-- A step keeps messages delivered exactly if it fits. -/
theorem delivered_step {a : Action M} (hs : Delivered A s) (h : step A s a = some s') :
    Delivered A s' ↔ Fits A s a := by
  obtain ⟨hsent, hnet⟩ := hs
  cases a with
  | sendMessage m buf results =>
    obtain ⟨sent, rfl, hcases⟩ := sendMessage_cases h
    rcases hcases with ⟨hpos, rfl, rfl⟩ | ⟨hpos, rfl, rfl⟩ | ⟨hzero, rfl, rfl⟩
    · have hfits : Fits A s (.sendMessage m buf [true]) ↔ buf = A.save m := by
        simp [Fits, hpos, hpos.ne']
      have hlast : Delivered A { s with
          requested := s.requested ++ [m], sent := s.sent ++ [buf], net := s.net ++ [buf] } ↔
          buf = A.save m := by
        simp [Delivered, hsent, ← append_assoc, hnet]
      exact hlast.trans hfits.symm
    · refine iff_of_false (not_delivered_of_unsent hsent ?_ rfl) fun hfits => (hfits.2 hpos).1 rfl
      exact append_nil _
    · refine iff_of_false (not_delivered_of_unsent hsent ?_ rfl) fun hfits => hfits.1 hzero rfl
      exact append_nil _
  | poll =>
    cases h
    exact iff_of_true ⟨hsent, hnet⟩ trivial
  | recv =>
    simp only [step] at h
    split at h
    · cases h
    next buf net hbuf =>
      cases h
      have hhead : Fits A s .recv ↔ buf.size ≤ MAX_SIZE := by simp [Fits, hbuf]
      rw [hhead]
      by_cases hle : buf.size ≤ MAX_SIZE
      · refine iff_of_true ⟨hsent, ?_⟩ hle
        -- what was sent is the archive of some message, so that it can be restored
        have hmem : buf ∈ s.requested.map A.save := by
          rw [← hsent, ← hnet, hbuf]
          exact mem_append_right _ mem_cons_self
        obtain ⟨m, -, rfl⟩ := mem_map.mp hmem
        simp only [if_pos hle, A.load_save, Option.toList_some, map_append, map_cons, map_nil]
        rw [append_assoc, singleton_append, ← hbuf, hnet]
      · refine iff_of_false (fun hd => ?_) hle
        have hlength := congrArg List.length (hd.2.trans hnet.symm)
        simp only [if_neg hle, hbuf, append_nil, length_append, length_cons] at hlength
        omega

/-- **When messages are delivered.** Each message is handed to the socket once before `sendMessage`
returns, and handled once at the other end, in order, exactly in the runs in which the memory that
`data` points to still holds the archive, no call of `send` fails and no archive is empty or longer
than `MAX_SIZE`. -/
theorem delivered_iff (A : Archive M) (as : List (Action M)) :
    (∀ k, ∀ s ∈ (machine A).run (as.take k), Delivered A s) ↔
      (machine A).RunOk (Fits A) (machine A).init as := by
  refine Machine.runFrom_iff_runOk ?_ (fun s a s' hs h => delivered_step hs h) ⟨rfl, rfl⟩ as
  intro s a hnone
  cases a with
  | sendMessage m buf results =>
    refine ⟨?_, fun hpos => ⟨?_, ?_⟩⟩
    · rintro hzero rfl
      simp [machine, step, sendLoop, hzero] at hnone
    · rintro rfl
      simp [machine, step, sendLoop_failed hpos buf.2] at hnone
    · rintro rfl
      simp [machine, step, sendLoop_sent hpos buf.2] at hnone
  | poll => trivial
  | recv =>
    intro buf hbuf
    cases hnet : s.net with
    | nil => simp [hnet] at hbuf
    | cons buf' net => simp [machine, step, hnet] at hnone

end Connection

/-- Messages that are their own archives. -/
def bytes : Archive Buffer := ⟨id, some, fun _ => rfl⟩

/-- An archive of `n` zeros. -/
def zeros (n : ℕ) (h : n < 2 ^ 31) : Buffer := ⟨List.replicate n 48, by rwa [length_replicate]⟩

set_option maxRecDepth 2000 in
/-- A short message is lost when the socket does not take it, a long one when it is received, and
one whose memory was used again before it was copied is not what arrives. -/
theorem not_delivered :
    (∃ s ∈ (machine bytes).run
      [.sendMessage (zeros 100 (by decide)) (zeros 100 (by decide)) [false]],
        s.requested = [zeros 100 (by decide)] ∧ s.sent = [] ∧ ¬ Delivered bytes s) ∧
      (∃ s ∈ (machine bytes).run
          [.sendMessage (zeros 300 (by decide)) (zeros 300 (by decide)) [true], .recv],
        s.sent = [zeros 300 (by decide)] ∧ s.net = [] ∧ s.handled = [] ∧ ¬ Delivered bytes s) ∧
      ∃ s ∈ (machine bytes).run
          [.sendMessage (zeros 100 (by decide)) (zeros 6 (by decide)) [true], .recv],
        s.requested = [zeros 100 (by decide)] ∧ s.handled = [zeros 6 (by decide)] ∧
          ¬ Delivered bytes s := by
  refine ⟨⟨_, rfl, rfl, rfl, fun h => ?_⟩, ⟨_, rfl, rfl, rfl, rfl, fun h => ?_⟩,
    ⟨_, rfl, rfl, rfl, fun h => ?_⟩⟩
  · exact absurd (congrArg List.length h.1) (by decide)
  · exact absurd (congrArg List.length h.2) (by decide)
  · have hsize := congrArg (List.map Buffer.size) h.1
    simp [Buffer.size, zeros, bytes] at hsize

end FrameworkChannel

end Deneva
