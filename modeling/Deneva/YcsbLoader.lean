import Deneva.Ycsb

/-!
# The YCSB loader (`benchmarks/ycsb_wl.cpp`)

`init_table_slice` walks over its slice of the keys: a key of another node is skipped, and after a
key of this node it goes on `g_part_cnt` further. That is the next key of the same *partition*, so a
node that owns several partitions gets the rows of one of them.
-/

namespace Deneva

open List

namespace Ycsb

open Protocol

section

variable (N : Cluster) (node : ℕ)

/-- `GET_NODE_ID(key_to_part(key)) == g_node_id`. -/
def Owns (key : ℕ) : Prop := N.getNodeId (keyToPart N key) = node

instance (key : ℕ) : Decidable (Owns N node key) := by unfold Owns; infer_instance

/-- The loop of `init_table_slice` from `key` up to `stop`: the keys it inserts. -/
def sliceLoop (stop : ℕ) : ℕ → ℕ → List ℕ
  | 0, _ => []
  | fuel + 1, key =>
    if key < stop then
      if Owns N node key then key :: sliceLoop stop fuel (key + N.partCnt)
      else sliceLoop stop fuel (key + 1)
    else []

/-- `init_table_slice`: the keys that thread `tid` inserts into the index. -/
def initTableSlice (synthTableSize initParallelism tid : ℕ) : List ℕ :=
  let sliceSize := synthTableSize / initParallelism
  sliceLoop N node (sliceSize * (tid + 1)) sliceSize (sliceSize * tid)

/-- `init_table_parallel`: the keys that all threads insert. -/
def initTable (synthTableSize initParallelism : ℕ) : List ℕ :=
  (List.range initParallelism).flatMap (initTableSlice N node synthTableSize initParallelism)

/-- **The index is complete**: it has each key of the node once, and no other key. -/
def Complete (synthTableSize initParallelism : ℕ) : Prop :=
  (initTable N node synthTableSize initParallelism).Nodup ∧
    ∀ key, key ∈ initTable N node synthTableSize initParallelism ↔
      key < synthTableSize ∧ Owns N node key

/-- The keys of the node in one slice belong to one partition. -/
def OnePartition (synthTableSize initParallelism : ℕ) : Prop :=
  ∀ key key', key < synthTableSize → key' < synthTableSize → Owns N node key → Owns N node key' →
    key / (synthTableSize / initParallelism) = key' / (synthTableSize / initParallelism) →
    keyToPart N key = keyToPart N key'

end

variable {N : Cluster} {node : ℕ}

/-! ## One slice -/

section Slice

variable {stop fuel key k : ℕ}

theorem keyToPart_add_partCnt (key : ℕ) : keyToPart N (key + N.partCnt) = keyToPart N key :=
  Nat.add_mod_right key N.partCnt

/-- The key that comes next in a partition is a key of the same node. -/
theorem Owns.add_partCnt (h : Owns N node key) : Owns N node (key + N.partCnt) := by
  rwa [Owns, keyToPart_add_partCnt]

/-- What is inserted lies in the slice and is owned. -/
theorem mem_sliceLoop (h : k ∈ sliceLoop N node stop fuel key) :
    key ≤ k ∧ k < stop ∧ Owns N node k := by
  induction fuel generalizing key with
  | zero => cases h
  | succ fuel ih =>
    rw [sliceLoop] at h
    split_ifs at h with hlt howns
    · rcases mem_cons.mp h with rfl | h
      · exact ⟨le_rfl, hlt, howns⟩
      · exact ⟨by have := (ih h).1; omega, (ih h).2⟩
    · exact ⟨by have := (ih h).1; omega, (ih h).2⟩
    · cases h

/-- The keys come in increasing order. -/
theorem sortedLT_sliceLoop (hpos : 0 < N.partCnt) (stop fuel key : ℕ) :
    (sliceLoop N node stop fuel key).Pairwise (· < ·) := by
  induction fuel generalizing key with
  | zero => exact .nil
  | succ fuel ih =>
    rw [sliceLoop]
    split_ifs
    · refine .cons (fun k hk => ?_) (ih _)
      have := (mem_sliceLoop hk).1
      omega
    · exact ih _
    · exact .nil

/-- From a key of the node on, only keys of its partition are inserted. -/
theorem keyToPart_of_mem_of_owns (howns : Owns N node key)
    (h : k ∈ sliceLoop N node stop fuel key) : keyToPart N k = keyToPart N key := by
  induction fuel generalizing key with
  | zero => cases h
  | succ fuel ih =>
    rw [sliceLoop] at h
    split_ifs at h
    · rcases mem_cons.mp h with rfl | h
      · rfl
      · rw [ih howns.add_partCnt h, keyToPart_add_partCnt]
    · cases h

/-- A slice is filled with the keys of one partition. -/
theorem keyToPart_of_mem {k' : ℕ} (h : k ∈ sliceLoop N node stop fuel key)
    (h' : k' ∈ sliceLoop N node stop fuel key) : keyToPart N k = keyToPart N k' := by
  induction fuel generalizing key with
  | zero => cases h
  | succ fuel ih =>
    by_cases howns : Owns N node key
    · rw [keyToPart_of_mem_of_owns howns h, keyToPart_of_mem_of_owns howns h']
    · rw [sliceLoop] at h h'
      split_ifs at h h'
      · exact ih h h'
      · cases h

/-- The next key of a partition is `partCnt` further. -/
theorem add_partCnt_le_of_keyToPart_eq (hlt : key < k) (h : keyToPart N key = keyToPart N k) :
    key + N.partCnt ≤ k := by
  have hdvd : N.partCnt ∣ k - key := (Nat.modEq_iff_dvd' hlt.le).mp h
  have := Nat.le_of_dvd (by omega) hdvd
  omega

/-- If the keys of the node all belong to one partition, the loop inserts them. -/
theorem mem_sliceLoop_of_one (hfuel : stop ≤ key + fuel) (hpos : 0 < N.partCnt) (hle : key ≤ k)
    (hlt : k < stop) (hk : Owns N node k)
    (hone : ∀ k', key ≤ k' → k' < stop → Owns N node k' → keyToPart N k' = keyToPart N k) :
    k ∈ sliceLoop N node stop fuel key := by
  induction fuel generalizing key with
  | zero => omega
  | succ fuel ih =>
    rw [sliceLoop, if_pos (hle.trans_lt hlt)]
    split_ifs with howns
    · rcases hle.eq_or_lt with rfl | hgt
      · exact mem_cons_self
      · -- the loop jumps over keys that are not in the partition of `k`
        have hjump := add_partCnt_le_of_keyToPart_eq hgt (hone key le_rfl (hle.trans_lt hlt) howns)
        refine mem_cons_of_mem _ (ih (by omega) hjump fun k' hk' => hone k' ?_)
        omega
    · have hne : key ≠ k := fun h => howns (h ▸ hk)
      exact ih (by omega) (by omega) fun k' hk' => hone k' (by omega)

end Slice

/-! ## The whole table -/

section Table

variable {size par : ℕ}

/-- A key below the table size lies in the slice of one thread. -/
theorem mem_slice_iff (hpos : 0 < size / par) (key tid : ℕ) :
    size / par * tid ≤ key ∧ key < size / par * (tid + 1) ↔ key / (size / par) = tid := by
  rw [Nat.div_eq_iff hpos, Nat.mul_comm (size / par) tid, Nat.mul_comm (size / par) (tid + 1),
    Nat.succ_mul]
  omega

variable {key : ℕ}

theorem mem_initTable_iff :
    key ∈ initTable N node size par ↔ ∃ tid < par, key ∈ initTableSlice N node size par tid := by
  simp [initTable]

/-- What a thread inserts is in its slice. -/
theorem div_eq_of_mem_initTableSlice {tid : ℕ} (h : key ∈ initTableSlice N node size par tid) :
    key / (size / par) = tid := by
  obtain ⟨hle, hlt, -⟩ := mem_sliceLoop h
  have hpos : 0 < size / par := by
    by_contra h0
    rw [Nat.eq_zero_of_not_pos h0] at hlt
    omega
  exact (mem_slice_iff hpos key tid).mp ⟨hle, hlt⟩

/-- **No other key**: what is inserted is a key of the node below the table size. -/
theorem mem_initTable (hdvd : par ∣ size) (h : key ∈ initTable N node size par) :
    key < size ∧ Owns N node key := by
  obtain ⟨tid, htid, h⟩ := mem_initTable_iff.mp h
  obtain ⟨-, hlt, howns⟩ := mem_sliceLoop h
  refine ⟨hlt.trans_le ?_, howns⟩
  calc size / par * (tid + 1) ≤ size / par * par := Nat.mul_le_mul_left _ htid
    _ = size := Nat.div_mul_cancel hdvd

/-- **No key twice.** -/
theorem nodup_initTable (hpos : 0 < N.partCnt) : (initTable N node size par).Nodup := by
  rw [initTable, nodup_flatMap]
  constructor
  · intro tid _
    exact (sortedLT_sliceLoop hpos _ _ _).imp fun h => h.ne
  · refine pairwise_lt_range.imp fun hlt key h h' => ?_
    have := div_eq_of_mem_initTableSlice h
    have := div_eq_of_mem_initTableSlice h'
    omega

/-- Where each slice has the keys of one partition, every key is inserted. -/
theorem OnePartition.mem_initTable (hone : OnePartition N node size par) (hpart : 0 < N.partCnt)
    (hdvd : par ∣ size) (hlt : key < size) (howns : Owns N node key) :
    key ∈ initTable N node size par := by
  have hsize : size / par * par = size := Nat.div_mul_cancel hdvd
  have hpos : 0 < size / par := by
    by_contra h0
    rw [Nat.eq_zero_of_not_pos h0] at hsize
    omega
  obtain ⟨hle, hend⟩ := (mem_slice_iff hpos key _).mpr rfl
  have htid : key / (size / par) < par := by
    rw [Nat.div_lt_iff_lt_mul hpos, Nat.mul_comm, hsize]
    exact hlt
  have hstop : size / par * (key / (size / par) + 1) ≤ size :=
    (Nat.mul_le_mul_left _ htid).trans_eq hsize
  refine mem_initTable_iff.mpr ⟨key / (size / par), htid, ?_⟩
  refine mem_sliceLoop_of_one
    (by rw [Nat.mul_succ]) hpart hle hend howns fun k' hle' hend' howns' => ?_
  exact hone k' key (hend'.trans_le hstop) hlt howns' howns
    ((mem_slice_iff hpos k' _).mp ⟨hle', hend'⟩)

/-- With as many partitions as nodes, a node owns one partition. -/
theorem onePartition_of_eq (h : N.partCnt = N.nodeCnt) : OnePartition N node size par := by
  intro key key' _ _ howns howns' _
  simp only [Owns, keyToPart, Cluster.getNodeId, h, Nat.mod_mod] at howns howns' ⊢
  rw [howns, howns']

/-- **Which tables are loaded completely.** The index of a node has each of its keys once, and no
other key, exactly if the keys of the node in each slice belong to one partition: after a key of its
own the loader goes on by `g_part_cnt`, to the next key of the same partition. -/
theorem complete_iff (N : Cluster) (hnode : 1 ≤ N.nodeCnt) (hpart : N.nodeCnt ≤ N.partCnt)
    (node size par : ℕ) (hdvd : par ∣ size) :
    Complete N node size par ↔ OnePartition N node size par := by
  have hpos : 0 < N.partCnt := by omega
  constructor
  · rintro ⟨-, hmem⟩ key key' hlt hlt' howns howns' hslice
    obtain ⟨tid, -, h⟩ := mem_initTable_iff.mp ((hmem key).mpr ⟨hlt, howns⟩)
    obtain ⟨tid', -, h'⟩ := mem_initTable_iff.mp ((hmem key').mpr ⟨hlt', howns'⟩)
    obtain rfl : tid = tid' := by
      rw [← div_eq_of_mem_initTableSlice h, ← div_eq_of_mem_initTableSlice h', hslice]
    exact keyToPart_of_mem h h'
  · intro hone
    exact ⟨nodup_initTable hpos, fun key =>
      ⟨Ycsb.mem_initTable hdvd, fun ⟨hlt, howns⟩ => hone.mem_initTable hpos hdvd hlt howns⟩⟩

/-- Three nodes with a partition each: the second one gets its keys. -/
theorem complete_three : Complete ⟨3, 3⟩ 1 12 2 :=
  (complete_iff ⟨3, 3⟩ (by decide) (by decide) 1 12 2 (by decide)).mpr (onePartition_of_eq rfl)

/-- **A partition is missed**: of two nodes with two partitions each, the first one owns key `2`,
which is not inserted. -/
theorem not_complete_two_four :
    initTable ⟨2, 4⟩ 0 8 1 = [0, 4] ∧ Owns ⟨2, 4⟩ 0 2 ∧ ¬ Complete ⟨2, 4⟩ 0 8 1 := by
  have hkeys : initTable ⟨2, 4⟩ 0 8 1 = [0, 4] := by decide
  refine ⟨hkeys, by decide, fun h => ?_⟩
  have hmem : 2 ∈ initTable ⟨2, 4⟩ 0 8 1 := (h.2 2).mpr ⟨by decide, by decide⟩
  rw [hkeys] at hmem
  revert hmem
  decide

end Table

end Ycsb

end Deneva
