import Mathlib

/-!
# The ports a node binds

A node binds one port for each send thread of each peer, once in `Transport::init` and once in
`GroupMembership::initNodes`. Both number them by destination, source and thread, `Communication`
from 10 on.
-/

namespace Deneva

open List

namespace Ports

/-- The node and thread counts. -/
structure Cluster where
  nodeCnt : ℕ
  clientNodeCnt : ℕ
  replCnt : ℕ
  threadCnt : ℕ
  remThreadCnt : ℕ
  sendThreadCnt : ℕ
  clientThreadCnt : ℕ
  clientRemThreadCnt : ℕ
  clientSendThreadCnt : ℕ

variable (C : Cluster)

/-- `g_total_node_cnt`. -/
def Cluster.totalNodeCnt : ℕ := C.nodeCnt + C.clientNodeCnt + C.replCnt * C.nodeCnt

/-- `ISCLIENTN`. -/
def Cluster.isClientN (id : ℕ) : Bool := C.nodeCnt ≤ id && id < C.nodeCnt + C.clientNodeCnt

/-- The send threads of a node. -/
def Cluster.sendCnt (id : ℕ) : ℕ :=
  if C.isClientN id then C.clientSendThreadCnt else C.sendThreadCnt

/-- The thread numbers of the loop over `cnt` send threads, the first of which has the id
`first`. -/
def threads (first cnt : ℕ) : List ℕ := (range' first cnt).map (· % cnt)

/-- The send threads of a peer, as both loops number them. -/
def Cluster.sendThreads (id : ℕ) : List ℕ :=
  if C.isClientN id then threads (C.clientThreadCnt + C.clientRemThreadCnt) C.clientSendThreadCnt
  else threads (C.threadCnt + C.remThreadCnt) C.sendThreadCnt

/-- `get_port_id` for `n` nodes, from the number `start` on; `TPORT_PORT` is 17000. -/
def portId (start n src dest thread : ℕ) : ℕ := start + n * dest + src + thread * n * n + 17000

/-- The ports bound by node `d` with `get_port_id` from `start` on. -/
def Cluster.bind (start d : ℕ) : List ℕ :=
  (range C.totalNodeCnt).flatMap fun id =>
    if id = d then [] else (C.sendThreads id).map (portId start C.totalNodeCnt id d)

/-- The ports node `d` binds: `Transport::init`, then `GroupMembership::initNodes`. The latter comes
from `initFramework`, which only the `main` of servers and replicas calls: of a client the first
half is bound. -/
def Cluster.boundPorts (d : ℕ) : List ℕ := C.bind 0 d ++ C.bind 10 d

theorem threads_perm (first cnt : ℕ) : (threads first cnt).Perm (range cnt) := by
  have h : ((range' first (first + cnt - first)).map (· % cnt) : Multiset ℕ) =
      (range cnt : Multiset ℕ) :=
    Nat.multiset_Ico_map_mod first cnt
  rw [Nat.add_sub_cancel_left] at h
  exact Multiset.coe_eq_coe.mp h

variable {C} {n a b c d t u : ℕ}

theorem succ_mul_square (t k n : ℕ) : (t + k + 1) * n * n = t * n * n + k * n * n + n * n := by
  simp only [Nat.add_mul, Nat.one_mul]

theorem thread_le (hb : b < n) (h : a + t * n * n = b + u * n * n) : t ≤ u := by
  by_contra hlt
  obtain ⟨k, rfl⟩ := Nat.exists_eq_add_of_lt (Nat.not_le.mp hlt)
  have := succ_mul_square u k n
  have := Nat.le_mul_self n
  omega

theorem code_inj (ha : a < n) (hb : b < n) (h : a + t * n * n = b + u * n * n) : a = b ∧ t = u := by
  obtain rfl := Nat.le_antisymm (thread_le hb h) (thread_le ha h.symm)
  exact ⟨Nat.add_right_cancel h, rfl⟩

/-- **The two families meet** ten nodes apart, and for three nodes one thread apart. -/
theorem port_shift_iff (hd : d < n) (ha : a < n) (hb : b < n) (hne : b ≠ d) :
    portId 0 n a d t = portId 10 n b d u ↔ a = b + 10 ∧ t = u ∨ n = 3 ∧ a = b + 1 ∧ t = u + 1 := by
  have hn := Nat.le_mul_self n
  simp only [portId]
  rcases lt_trichotomy t u with hlt | rfl | hlt
  · obtain ⟨k, rfl⟩ := Nat.exists_eq_add_of_lt hlt
    have := succ_mul_square t k n
    omega
  · omega
  · obtain ⟨k, rfl⟩ := Nat.exists_eq_add_of_lt hlt
    have := succ_mul_square u k n
    -- the distance of the threads counts `n * n` at least, that of the sources less than `n + 10`
    have hcases : n = 2 ∨ n = 3 ∨ 4 ≤ n ∧ 4 * n ≤ n * n := by
      rcases Nat.lt_or_ge n 4 with hlt | hge
      · omega
      · exact .inr (.inr ⟨hge, Nat.mul_le_mul_right n hge⟩)
    rcases hcases with rfl | rfl | hge <;> omega

theorem Cluster.sendThreads_perm (id : ℕ) : (C.sendThreads id).Perm (range (C.sendCnt id)) := by
  rw [Cluster.sendThreads, Cluster.sendCnt]
  split <;> exact threads_perm ..

theorem Cluster.mem_bind {start p : ℕ} : p ∈ C.bind start d ↔
    ∃ id < C.totalNodeCnt, id ≠ d ∧ ∃ t < C.sendCnt id, portId start C.totalNodeCnt id d t = p := by
  simp only [Cluster.bind, mem_flatMap, mem_range]
  refine exists_congr fun id => and_congr_right fun _ => ?_
  split
  next h => simp [h]
  next h => simp [h, (C.sendThreads_perm id).mem_iff]

theorem Cluster.portId_mem_bind {start id : ℕ} (hid : id < C.totalNodeCnt) (hne : id ≠ d)
    (ht : t < C.sendCnt id) : portId start C.totalNodeCnt id d t ∈ C.bind start d :=
  Cluster.mem_bind.mpr ⟨id, hid, hne, t, ht, rfl⟩

/-- One family of ports has no port twice. -/
theorem Cluster.nodup_bind (start : ℕ) : (C.bind start d).Nodup := by
  refine nodup_flatMap.mpr ⟨fun id hid => ?_, ?_⟩
  · split
    · exact .nil
    · refine Nodup.map_on (fun t _ u _ h => ?_) ((C.sendThreads_perm id).nodup_iff.mpr nodup_range)
      simp only [portId] at h
      exact (code_inj (mem_range.mp hid) (mem_range.mp hid) (by omega)).2
  · refine nodup_range.imp_of_mem fun {id id'} hid hid' hne => disjoint_left.mpr fun p hp hp' => ?_
    simp only [mem_ite_nil_left, mem_map] at hp hp'
    obtain ⟨-, t, -, rfl⟩ := hp
    obtain ⟨-, u, -, h⟩ := hp'
    simp only [portId] at h
    exact hne (code_inj (t := t) (u := u) (mem_range.mp hid) (mem_range.mp hid') (by omega)).1

/-- **The ports of a node are distinct** exactly when no two of its peers ten apart both have send
threads and, in a cluster of three nodes, it is the middle one or its peers have one send thread.
For a client this is what its ports would need if it ran the framework. -/
theorem ports_distinct_iff (C : Cluster) (d : Fin C.totalNodeCnt) :
    (C.boundPorts d).Nodup ↔
      (∀ id : ℕ, id ≠ d → id + 10 ≠ d → id + 10 < C.totalNodeCnt →
        C.sendCnt id = 0 ∨ C.sendCnt (id + 10) = 0) ∧
      (C.totalNodeCnt = 3 → ∀ id : ℕ, id ≠ d → id + 1 ≠ d → id + 1 < 3 →
        C.sendCnt id = 0 ∨ C.sendCnt (id + 1) ≤ 1) := by
  rw [Cluster.boundPorts, nodup_append]
  constructor
  · rintro ⟨-, -, h⟩
    refine ⟨fun id hid hid' hlt => ?_, fun h3 id hid hid' hlt => ?_⟩
    · by_contra! hpos
      refine h _ (Cluster.portId_mem_bind hlt hid' (Nat.pos_of_ne_zero hpos.2)) _
        (Cluster.portId_mem_bind (by omega) hid (Nat.pos_of_ne_zero hpos.1)) ?_
      exact (port_shift_iff d.isLt hlt (by omega) hid).mpr (.inl ⟨rfl, rfl⟩)
    · by_contra! hpos
      refine h _ (Cluster.portId_mem_bind (by omega) hid' hpos.2) _
        (Cluster.portId_mem_bind (by omega) hid (Nat.pos_of_ne_zero hpos.1)) ?_
      exact (port_shift_iff d.isLt (by omega) (by omega) hid).mpr (.inr ⟨h3, rfl, rfl⟩)
  · rintro ⟨hten, hthree⟩
    refine ⟨Cluster.nodup_bind 0, Cluster.nodup_bind 10, fun p hp q hq h => ?_⟩
    obtain ⟨a, ha, hane, t, ht, rfl⟩ := Cluster.mem_bind.mp hp
    obtain ⟨b, hb, hbne, u, hu, rfl⟩ := Cluster.mem_bind.mp hq
    rcases (port_shift_iff d.isLt ha hb hbne).mp h with ⟨rfl, rfl⟩ | ⟨h3, rfl, rfl⟩
    · have := hten b hbne hane ha
      omega
    · have := hthree h3 b hbne hane (h3 ▸ ha)
      omega

/-- Six servers and six clients with one send thread: node 1 listens to node 10 in `Transport` and
to node 0 in `Communication` on port 17022. -/
theorem ports_clash : let C : Cluster := ⟨6, 6, 0, 4, 1, 1, 4, 1, 1⟩
    portId 0 12 10 1 0 = 17022 ∧ portId 10 12 0 1 0 = 17022 ∧ ¬(C.boundPorts 1).Nodup := by
  decide

end Ports

end Deneva
