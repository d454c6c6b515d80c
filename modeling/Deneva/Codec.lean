import Mathlib

/-!
# Buffers, and what is written to them and read from them

A buffer is memory from some address on; a program writes to it at a pointer that it moves on, and
reads it the same way.

* `Buffer.Holds` says which bytes stand at a place, `Buffer.write` puts them there.
* A `Field` is a type of fixed size, with its bytes.
* `Writes` says what a writer leaves in the buffer, whatever was there; `Reads` what a reader makes
  of a buffer with the bytes. Both go along a sequence (`Writes.bind`, `Reads.bind`) and along an
  array (`Writes.each`, `Reads.times`), so that a writer and a reader of the same bytes fit
  together.
* `Fits` says this of a writer and a reader without naming the bytes: only how many they are, and
  what they begin with. It has a rule for each thing that they do at the same time.
-/

namespace Deneva

open List Option

/-- Memory from an address on. -/
abbrev Buffer : Type := ℕ → UInt8

namespace Buffer

/-- Put bytes at a place. -/
def write (buf : Buffer) (p : ℕ) (bs : List UInt8) : Buffer :=
  fun i => if p ≤ i then (bs[i - p]?).getD (buf i) else buf i

/-- The bytes at a place. -/
def read (buf : Buffer) (p n : ℕ) : List UInt8 := (List.range n).map fun i => buf (p + i)

/-- The buffer from another address on. -/
def shift (buf : Buffer) (p : ℕ) : Buffer := fun i => buf (p + i)

/-- These bytes stand at a place. -/
def Holds (buf : Buffer) (p : ℕ) (bs : List UInt8) : Prop :=
  ∀ (i : ℕ) (b : UInt8), bs[i]? = some b → buf (p + i) = b

variable {buf : Buffer} {p q : ℕ} {as bs : List UInt8}

@[simp] theorem length_read (buf : Buffer) (p n : ℕ) : (buf.read p n).length = n := by simp [read]

theorem Holds.read_eq (h : buf.Holds p bs) : buf.read p bs.length = bs := by
  apply ext_getElem (by simp)
  intro i h₁ h₂
  rw [show (buf.read p bs.length)[i] = buf (p + i) by simp [read]]
  exact h i _ (getElem?_eq_getElem h₂)

theorem holds_nil (buf : Buffer) (p : ℕ) : buf.Holds p [] := by
  intro i b h
  simp at h

theorem holds_append : buf.Holds p (as ++ bs) ↔ buf.Holds p as ∧ buf.Holds (p + as.length) bs := by
  constructor
  · intro h
    refine ⟨fun i b hi => h i b ?_, fun i b hi => ?_⟩
    · have hlt := (List.getElem?_eq_some_iff.mp hi).1
      rw [getElem?_append_left hlt, hi]
    · rw [Nat.add_assoc]
      refine h (as.length + i) b ?_
      rw [getElem?_append_right (Nat.le_add_right ..), Nat.add_sub_cancel_left, hi]
  · rintro ⟨ha, hb⟩ i b hi
    rcases Nat.lt_or_ge i as.length with hlt | hge
    · exact ha i b (by rwa [getElem?_append_left hlt] at hi)
    · rw [getElem?_append_right hge] at hi
      have := hb _ b hi
      rwa [Nat.add_assoc, Nat.add_sub_cancel' hge] at this

@[simp] theorem holds_shift : (buf.shift q).Holds p bs ↔ buf.Holds (q + p) bs := by
  simp only [Holds, shift, Nat.add_assoc]

theorem write_of_lt {i : ℕ} (h : i < p) : buf.write p bs i = buf i := if_neg (Nat.not_le.mpr h)

theorem write_of_ge {i : ℕ} (h : p + bs.length ≤ i) : buf.write p bs i = buf i := by
  rw [write, if_pos (by omega), getElem?_eq_none (by omega)]
  rfl

@[simp] theorem write_nil (buf : Buffer) (p : ℕ) : buf.write p [] = buf := by
  funext i
  simp [write]

theorem holds_write (buf : Buffer) (p : ℕ) (bs : List UInt8) : (buf.write p bs).Holds p bs := by
  intro i b hi
  rw [write, if_pos (Nat.le_add_right ..), Nat.add_sub_cancel_left, hi]
  rfl

/-- What stands before the place stays. -/
theorem Holds.write_of_le (h : buf.Holds p as) (hle : p + as.length ≤ q) :
    (buf.write q bs).Holds p as := by
  intro i b hi
  have hlt := (List.getElem?_eq_some_iff.mp hi).1
  rw [write_of_lt (by omega)]
  exact h i b hi

/-- What stands behind what is written stays. -/
theorem Holds.write_of_ge (h : buf.Holds p as) (hle : q + bs.length ≤ p) :
    (buf.write q bs).Holds p as := by
  intro i b hi
  rw [Buffer.write_of_ge (by omega)]
  exact h i b hi

/-- What has been written can be told from the buffer. -/
theorem write_inj (hlen : as.length = bs.length) (h : buf.write p as = buf.write p bs) :
    as = bs := by
  have has := (holds_write buf p as).read_eq
  have hbs := (holds_write buf p bs).read_eq
  rw [h, hlen] at has
  exact has.symm.trans hbs

/-- Bytes written one after the other. -/
theorem write_write (buf : Buffer) (p : ℕ) (as bs : List UInt8) :
    (buf.write p as).write (p + as.length) bs = buf.write p (as ++ bs) := by
  funext i
  rcases Nat.lt_or_ge i (p + as.length) with hlt | hge
  · rw [write_of_lt hlt]
    rcases Nat.lt_or_ge i p with hp | hp
    · rw [write_of_lt hp, write_of_lt hp]
    · rw [write, if_pos hp, write, if_pos hp, getElem?_append_left (by omega)]
  · have hp : p ≤ i := by omega
    have hold : buf.write p as i = buf i := Buffer.write_of_ge hge
    rw [write, if_pos hge, hold, write, if_pos hp, getElem?_append_right (by omega),
      show i - p - as.length = i - (p + as.length) by omega]

end Buffer

/-! ## Words -/

/-- The bytes of a number, the lowest one first. -/
def toBytes : ℕ → ℕ → List UInt8
  | 0, _ => []
  | w + 1, n => UInt8.ofNat n :: toBytes w (n / 256)

/-- The number with these bytes. -/
def ofBytes : List UInt8 → ℕ
  | [] => 0
  | b :: bs => b.toNat + 256 * ofBytes bs

@[simp] theorem length_toBytes (w n : ℕ) : (toBytes w n).length = w := by
  induction w generalizing n with
  | zero => rfl
  | succ w ih => rw [toBytes, length_cons, ih]

theorem ofBytes_toBytes (w n : ℕ) : ofBytes (toBytes w n) = n % 256 ^ w := by
  induction w generalizing n with
  | zero => rw [pow_zero, Nat.mod_one]; rfl
  | succ w ih =>
    rw [toBytes, ofBytes, ih, UInt8.toNat_ofNat', pow_succ' (256 : ℕ) w, Nat.mod_mul]

/-! ## Fields -/

/-- A type of fixed size, with the bytes of its values. -/
structure Field (α : Type) where
  /-- its size -/
  size : ℕ
  /-- the bytes of a value -/
  toBytes : α → List UInt8
  /-- the value with these bytes, if there is one -/
  ofBytes : List UInt8 → Option α
  length_toBytes : ∀ x, (toBytes x).length = size
  ofBytes_toBytes : ∀ x, ofBytes (toBytes x) = some x

attribute [simp] Field.length_toBytes

namespace Field

/-- A word of 64 bits. -/
def u64 : Field UInt64 where
  size := 8
  toBytes x := Deneva.toBytes 8 x.toNat
  ofBytes bs := some (.ofNat (Deneva.ofBytes bs))
  length_toBytes x := Deneva.length_toBytes ..
  ofBytes_toBytes x := by
    rw [Deneva.ofBytes_toBytes, Nat.mod_eq_of_lt (by simpa using x.toNat_lt), UInt64.ofNat_toNat]

/-- A word of 32 bits. -/
def u32 : Field UInt32 where
  size := 4
  toBytes x := Deneva.toBytes 4 x.toNat
  ofBytes bs := some (.ofNat (Deneva.ofBytes bs))
  length_toBytes x := Deneva.length_toBytes ..
  ofBytes_toBytes x := by
    rw [Deneva.ofBytes_toBytes, Nat.mod_eq_of_lt (by simpa using x.toNat_lt), UInt32.ofNat_toNat]

/-- A truth value, in one byte. -/
def bool : Field Bool where
  size := 1
  toBytes x := [if x then 1 else 0]
  ofBytes bs := some (bs != [0])
  length_toBytes _ := rfl
  ofBytes_toBytes x := by cases x <;> decide

/-- An enumeration, given by the numbers of its values, in a word of 32 bits. -/
def enum {α : Type} (toNat : α → ℕ) (ofNat : ℕ → Option α)
    (h : ∀ x, toNat x < 2 ^ 32 ∧ ofNat (toNat x) = some x) : Field α where
  size := 4
  toBytes x := Deneva.toBytes 4 (toNat x)
  ofBytes bs := ofNat (Deneva.ofBytes bs)
  length_toBytes x := Deneva.length_toBytes ..
  ofBytes_toBytes x := by
    rw [Deneva.ofBytes_toBytes, Nat.mod_eq_of_lt (by simpa using (h x).1), (h x).2]

/-- An enumeration, given by its values in their order. -/
def ofList {α : Type} [DecidableEq α] (l : List α) (h : ∀ x, x ∈ l) (hlen : l.length < 2 ^ 32) :
    Field α :=
  enum l.idxOf (l[·]?) fun x =>
    ⟨(idxOf_lt_length_of_mem (h x)).trans hlen, getElem?_idxOf (h x)⟩

/-- An array of characters. -/
def chars (n : ℕ) : Field (List.Vector UInt8 n) where
  size := n
  toBytes x := x.toList
  ofBytes bs := if h : bs.length = n then some ⟨bs, h⟩ else none
  length_toBytes x := x.2
  ofBytes_toBytes x := dif_pos x.2

section

variable {α β : Type}

/-- Two fields, one behind the other. -/
def prod (F : Field α) (G : Field β) : Field (α × β) where
  size := F.size + G.size
  toBytes x := F.toBytes x.1 ++ G.toBytes x.2
  ofBytes bs := do
    let x ← F.ofBytes (bs.take F.size)
    let y ← G.ofBytes (bs.drop F.size)
    pure (x, y)
  length_toBytes x := by simp
  ofBytes_toBytes x := by
    rw [take_left' (F.length_toBytes x.1), drop_left' (F.length_toBytes x.1),
      F.ofBytes_toBytes, G.ofBytes_toBytes]
    rfl

/-- A type that is laid out as another one. -/
def map (F : Field α) (f : β → α) (g : α → β) (h : ∀ x, g (f x) = x) : Field β where
  size := F.size
  toBytes x := F.toBytes (f x)
  ofBytes bs := (F.ofBytes bs).map g
  length_toBytes x := F.length_toBytes _
  ofBytes_toBytes x := by rw [F.ofBytes_toBytes, map_some, h]

end

end Field

/-- A value that is there only under a condition on the build. -/
def Sent : Bool → Type → Type
  | true, α => α
  | false, _ => Unit

/-- Its field; without the value there is nothing to copy. -/
def Field.sent {α : Type} : (b : Bool) → Field α → Field (Sent b α)
  | true, F => F
  | false, _ => ⟨0, fun _ => [], fun _ => some (), fun _ => rfl, fun _ => rfl⟩

@[simp] theorem Field.size_sent {α : Type} (b : Bool) (F : Field α) :
    (Field.sent b F).size = if b then F.size else 0 := by cases b <;> rfl

/-! ## Writers and readers -/

/-- What writes to a buffer and moves a pointer on; it stops where an assertion fails. -/
abbrev Writer : Type → Type := StateT (Buffer × ℕ) Option

/-- What reads from a buffer and moves a pointer on. -/
abbrev Reader : Type → Type := ReaderT Buffer (StateT ℕ Option)

section Basic

variable {α β : Type}

/-- Copy a value to the buffer. -/
def copyBuf (F : Field α) (x : α) : Writer Unit :=
  fun (buf, p) => some ((), buf.write p (F.toBytes x), p + F.size)

/-- Copy a value from the buffer. -/
def copyVal (F : Field α) : Reader α :=
  fun buf p => (F.ofBytes (buf.read p F.size)).map fun x => (x, p + F.size)

/-- An assertion of a writer. -/
def Writer.check (P : Prop) [Decidable P] : Writer Unit := fun s => if P then some ((), s) else none

/-- An assertion of a reader. -/
def Reader.check (P : Prop) [Decidable P] : Reader Unit :=
  fun _ p => if P then some ((), p) else none

/-- Write the elements of an array. -/
def Writer.each (w : α → Writer Unit) : List α → Writer Unit
  | [] => pure ()
  | x :: xs => do w x; each w xs

/-- Read a number of elements. -/
def Reader.times (r : Reader α) : ℕ → Reader (List α)
  | 0 => pure []
  | n + 1 => do
    let x ← r
    let xs ← times r n
    pure (x :: xs)

/-- The writer puts these bytes at the pointer, and moves it behind them. -/
def Writes (w : Writer Unit) (bs : List UInt8) : Prop :=
  ∀ buf p, w (buf, p) = some ((), buf.write p bs, p + bs.length)

/-- Where these bytes stand the reader reads the value, and moves the pointer behind them. -/
def Reads (r : Reader α) (bs : List UInt8) (x : α) : Prop :=
  ∀ buf p, Buffer.Holds buf p bs → r buf p = some (x, p + bs.length)

variable {as bs : List UInt8}

theorem Writes.copyBuf (F : Field α) (x : α) : Writes (copyBuf F x) (F.toBytes x) := by
  intro buf p
  rw [F.length_toBytes]
  rfl

theorem Writes.pure : Writes (pure ()) [] := by
  intro buf p
  rw [Buffer.write_nil]
  rfl

theorem Writes.check {P : Prop} [Decidable P] (h : P) : Writes (Writer.check P) [] := by
  intro buf p
  rw [Buffer.write_nil, Writer.check, if_pos h]
  rfl

theorem Writes.bind {w w' : Writer Unit} (h : Writes w as) (h' : Writes w' bs) :
    Writes (do w; w') (as ++ bs) := by
  intro buf p
  change (w (buf, p)).bind (fun r => w' r.2) = _
  rw [h buf p, bind_some, h', Buffer.write_write, length_append, Nat.add_assoc]

theorem Writes.each {w : α → Writer Unit} {enc : α → List UInt8} {xs : List α}
    (h : ∀ x ∈ xs, Writes (w x) (enc x)) : Writes (Writer.each w xs) (xs.flatMap enc) := by
  induction xs with
  | nil => exact Writes.pure
  | cons x xs ih =>
    exact (h x mem_cons_self).bind (ih fun y hy => h y (mem_cons_of_mem _ hy))

theorem Reads.copyVal (F : Field α) (x : α) : Reads (copyVal F) (F.toBytes x) x := by
  intro buf p h
  have hread := h.read_eq
  rw [F.length_toBytes] at hread ⊢
  rw [Deneva.copyVal, hread, F.ofBytes_toBytes]
  rfl

theorem Reads.pure (x : α) : Reads (pure x) [] x := fun _ _ _ => rfl

theorem Reads.check {P : Prop} [Decidable P] (h : P) : Reads (Reader.check P) [] () := by
  intro buf p _
  exact if_pos h

theorem Reads.bind {r : Reader α} {f : α → Reader β} {x : α} {y : β} (h : Reads r as x)
    (h' : Reads (f x) bs y) : Reads (r >>= f) (as ++ bs) y := by
  intro buf p hbuf
  obtain ⟨ha, hb⟩ := Buffer.holds_append.mp hbuf
  change (r buf p).bind (fun v => f v.1 buf v.2) = _
  rw [h buf p ha, bind_some, h' buf _ hb, length_append, Nat.add_assoc]

theorem Reads.times {μ : Type} {r : Reader α} {enc : μ → List UInt8} {obs : μ → α} {xs : List μ}
    (h : ∀ x ∈ xs, Reads r (enc x) (obs x)) :
    Reads (Reader.times r xs.length) (xs.flatMap enc) (xs.map obs) := by
  induction xs with
  | nil => exact Reads.pure []
  | cons x xs ih =>
    have htail : Reads (do let ys ← Reader.times r xs.length; Pure.pure (obs x :: ys))
      (xs.flatMap enc ++ []) (obs x :: xs.map obs) :=
      (ih fun y hy => h y (mem_cons_of_mem _ hy)).bind (Reads.pure _)
    rw [append_nil] at htail
    exact (h x mem_cons_self).bind htail

/-! ## Writers and readers that fit -/

/-- Move the pointer of a writer. -/
def Writer.seek (n : ℕ) : Writer Unit := fun (buf, _) => some ((), buf, n)

/-- An assertion on the pointer of a writer. -/
def Writer.checkPtr (n : ℕ) : Writer Unit :=
  fun (buf, p) => if p = n then some ((), buf, p) else none

/-- Move the pointer of a reader. -/
def Reader.seek (n : ℕ) : Reader Unit := fun _ _ => some ((), n)

/-- An assertion on the pointer of a reader. -/
def Reader.checkPtr (n : ℕ) : Reader Unit := fun _ p => if p = n then some ((), p) else none

/-- Read without moving the pointer. -/
def Reader.peek (r : Reader α) : Reader α := fun buf p => (r buf p).map fun v => (v.1, p)

/-- **A writer and a reader fit** at a pointer: the writer puts `n` bytes there, whatever was there
before, and where these stand the reader reads the value; both move the pointer behind them. The
bytes begin with `front`. -/
def Fits (front : List UInt8) (p n : ℕ) (w : Writer Unit) (r : Reader α) (x : α) : Prop :=
  ∃ bs : List UInt8, front <+: bs ∧ bs.length = n ∧
    (∀ buf, w (buf, p) = some ((), buf.write p bs, p + n)) ∧
    ∀ buf, Buffer.Holds buf p bs → r buf p = some (x, p + n)

namespace Fits

variable {front front' : List UInt8} {p n n' : ℕ} {w w' : Writer Unit} {r : Reader α}
  {f : α → Reader β} {x : α} {y : β}

/-- What fits at any pointer. -/
theorem of_writes {bs : List UInt8} (hw : Writes w bs) (hr : Reads r bs x) (hn : bs.length = n) :
    Fits bs p n w r x := by
  subst hn
  exact ⟨bs, prefix_rfl, rfl, fun buf => hw buf p, fun buf => hr buf p⟩

theorem size_eq (hn : n = n') (h : Fits front p n w r x) : Fits front p n' w r x := hn ▸ h

theorem copy (F : Field α) (x : α) : Fits (F.toBytes x) p F.size (copyBuf F x) (copyVal F) x :=
  of_writes (.copyBuf F x) (.copyVal F x) (F.length_toBytes x)

theorem pure (x : α) : Fits [] p 0 (Pure.pure ()) (Pure.pure x) x := of_writes .pure (.pure x) rfl

theorem bind (h : Fits front p n w r x) (h' : Fits front' (p + n) n' w' (f x) y) :
    Fits front p (n + n') (do w; w') (r >>= f) y := by
  obtain ⟨as, hfront, rfl, hw, hr⟩ := h
  obtain ⟨bs, _, rfl, hw', hr'⟩ := h'
  refine ⟨as ++ bs, hfront.trans (prefix_append ..), length_append, fun buf => ?_,
    fun buf hbuf => ?_⟩
  · change (w (buf, p)).bind (fun r => w' r.2) = _
    rw [hw, bind_some, hw', Buffer.write_write, Nat.add_assoc]
  · obtain ⟨ha, hb⟩ := Buffer.holds_append.mp hbuf
    change (r buf p).bind (fun v => f v.1 buf v.2) = _
    rw [hr buf ha, bind_some, hr' buf hb, Nat.add_assoc]

/-- Both move the pointer to where it is. -/
theorem seek {k k' : ℕ} (hk : k = p) (hk' : k' = p) (h : Fits front p n w r x) :
    Fits front p n (do Writer.seek k; w) (do Reader.seek k'; r) x := by
  subst hk hk'
  obtain ⟨bs, hfront, hlen, hw, hr⟩ := h
  exact ⟨bs, hfront, hlen, fun buf => hw buf, fun buf hbuf => hr buf hbuf⟩

/-- Both move the pointer behind what there is from the beginning. -/
theorem behind {k : ℕ} (h : Fits front (0 + k) n w r x) :
    Fits front (0 + k) n (do Writer.seek k; w) (do Reader.seek k; r) x :=
  seek (Nat.zero_add k).symm (Nat.zero_add k).symm h

variable {P : Prop} {γ : Type}

/-- The writer makes an assertion. -/
theorem writerCheck [Decidable P] (hP : P) (h : Fits front p n w r x) :
    Fits front p n (do Writer.check P; w) r x := by
  obtain ⟨bs, hfront, hlen, hw, hr⟩ := h
  refine ⟨bs, hfront, hlen, fun buf => ?_, hr⟩
  change (Writer.check P (buf, p)).bind (fun r => w r.2) = _
  rw [Writer.check, if_pos hP, bind_some, hw]

/-- The reader makes an assertion. -/
theorem readerCheck [Decidable P] (hP : P) (h : Fits front p n w r x) :
    Fits front p n w (do Reader.check P; r) x := by
  obtain ⟨bs, hfront, hlen, hw, hr⟩ := h
  refine ⟨bs, hfront, hlen, hw, fun buf hbuf => ?_⟩
  change (Reader.check P buf p).bind (fun v => r buf v.2) = _
  rw [Reader.check, if_pos hP, bind_some, hr buf hbuf]

/-- Both assert that the pointer is where it is, and the reader has its value. -/
theorem done {k k' : ℕ} (hk : p = k) (hk' : p = k') (x : α) :
    Fits [] p 0 (Writer.checkPtr k) (do Reader.checkPtr k'; Pure.pure x) x := by
  subst hk hk'
  refine ⟨[], prefix_rfl, rfl, fun buf => ?_, fun buf _ => ?_⟩
  · rw [Writer.checkPtr, if_pos rfl, Buffer.write_nil]
    rfl
  · change (Reader.checkPtr p buf p).bind (fun v => some (x, v.2)) = _
    rw [Reader.checkPtr, if_pos rfl]
    rfl

/-- The reader makes something of what it has read. -/
theorem map (g : α → γ) (h : Fits front p n w r x) : Fits front p n w (g <$> r) (g x) := by
  obtain ⟨bs, hfront, hlen, hw, hr⟩ := h
  refine ⟨bs, hfront, hlen, hw, fun buf hbuf => ?_⟩
  change (r buf p).bind (fun v => some (g v.1, v.2)) = _
  rw [hr buf hbuf]
  rfl

theorem ret (g : α → γ) (h : Fits front p n w r x) :
    Fits front p n w (do let a ← r; Pure.pure (g a)) (g x) := h.map g

/-- The beginning is forgotten. -/
theorem nil (h : Fits front p n w r x) : Fits [] p n w r x := by
  obtain ⟨bs, _, h⟩ := h
  exact ⟨bs, nil_prefix, h⟩

/-- Both do something under a condition. -/
theorem ite [Decidable P] {d : α} (h : P → Fits front p n w r x) :
    Fits [] p (if P then n else 0) (if P then w else Pure.pure ()) (if P then r else Pure.pure d)
      (if P then x else d) := by
  split
  · exact (h ‹P›).nil
  · exact pure d

/-- The reader looks at what the bytes begin with. -/
theorem peek {F : Field γ} {v : γ} {k : γ → Reader α} (h : Fits (F.toBytes v) p n w (k v) x) :
    Fits (F.toBytes v) p n w (do let t ← Reader.peek (copyVal F); k t) x := by
  obtain ⟨bs, hfront, hlen, hw, hr⟩ := h
  refine ⟨bs, hfront, hlen, hw, fun buf hbuf => ?_⟩
  obtain ⟨rest, rfl⟩ := hfront
  have hread := Reads.copyVal F v buf p (Buffer.holds_append.mp hbuf).1
  change ((copyVal F buf p).map fun v => (v.1, p)).bind (fun t => k t.1 buf t.2) = _
  rw [hread]
  exact hr buf hbuf

/-- A writer that fits several readers writes the same bytes for all of them. -/
theorem common {ι : Type} [Nonempty ι] {r : ι → Reader α} {x : ι → α}
    (h : ∀ i, Fits front p n w (r i) (x i)) : ∃ bs : List UInt8, bs.length = n ∧
      (∀ buf, w (buf, p) = some ((), buf.write p bs, p + n)) ∧
      ∀ i buf, Buffer.Holds buf p bs → r i buf p = some (x i, p + n) := by
  obtain ⟨i₀⟩ := ‹Nonempty ι›
  obtain ⟨bs, _, hlen, hw, _⟩ := h i₀
  refine ⟨bs, hlen, hw, fun i buf hbuf => ?_⟩
  obtain ⟨bs', _, hlen', hw', hr'⟩ := h i
  have heq := some.inj ((hw buf).symm.trans (hw' buf))
  have hbytes : bs = bs' := Buffer.write_inj (hlen.trans hlen'.symm) (congrArg (·.2.1) heq)
  exact hr' buf (hbytes ▸ hbuf)

/-- Arrays. -/
theorem array {F : Field α} {w : α → Writer Unit} {r : Reader α} {xs : List α}
    (hw : ∀ x ∈ xs, Writes (w x) (F.toBytes x)) (hr : ∀ x ∈ xs, Reads r (F.toBytes x) x) :
    Fits (xs.flatMap F.toBytes) p (F.size * xs.length) (Writer.each w xs)
      (Reader.times r xs.length) xs := by
  refine of_writes (Writes.each hw) ?_ ?_
  · have htimes : Reads (Reader.times r xs.length) (xs.flatMap F.toBytes) (xs.map id) :=
      Reads.times hr
    rwa [List.map_id] at htimes
  · simp [length_flatMap, Nat.mul_comm]

end Fits

end Basic

end Deneva
