import Mathlib

/-!
# The hash index (`storage/index_hash.cpp`)

A bucket is a list of nodes with a key and the first of a chain of items.

`indexInsert` puts an item before the chain of its key, or a node at the end of the bucket.
`indexInsertNonunique` puts a node at the front, whatever there is for the key.
-/

namespace Deneva

universe u

open Function List

namespace IndexHash

/-! ## The index -/

/-- How an index is made. -/
structure Config where
  /-- `WORKLOAD == YCSB` -/
  ycsb : Bool
  partCnt : ℕ
  /-- `_bucket_cnt_per_part` -/
  bucketCnt : ℕ

/-- `hash`, which does not divide by zero. -/
def Config.Usable (C : Config) : Prop := 0 < C.bucketCnt ∧ (C.ycsb → 0 < C.partCnt)

instance (C : Config) : Decidable C.Usable := inferInstanceAs (Decidable (_ ∧ _))

/-- `hash` -/
def Config.hash (C : Config) (key : ℕ) : ℕ :=
  (if C.ycsb then key / C.partCnt else key) % C.bucketCnt

/-- `BucketNode` -/
structure BucketNode (I : Type u) where
  key : ℕ
  /-- the first of its items -/
  items : I
  deriving DecidableEq

/-- The buckets, and the links of all items. -/
structure Index (I : Type u) where
  buckets : ℕ → List (BucketNode I)
  next : I → Option I

/-- An index without items. -/
def Index.init {I : Type u} : Index I := ⟨fun _ => [], fun _ => none⟩

variable {I : Type u}

/-- `BucketHeader::read_item`; it has no result where its assertion fails. -/
def readItem (key : ℕ) : List (BucketNode I) → Option I
  | [] => none
  | node :: nodes => if node.key = key then some node.items else readItem key nodes

/-- The loop of `BucketHeader::read_item` that counts; `none` is `NULL`. -/
def readItemCount (key : ℕ) (count : UInt32) : UInt32 → List (BucketNode I) → Option I
  | _, [] => none
  | ctr, node :: nodes =>
    if node.key = key then
      if ctr = count then some node.items else readItemCount key count (ctr + 1) nodes
    else readItemCount key count ctr nodes

/-- `IndexHash::index_read` -/
def indexRead (C : Config) (ix : Index I) (key : ℕ) : Option I :=
  if C.Usable then readItem key (ix.buckets (C.hash key)) else none

/-- `IndexHash::index_read` with a count. -/
def indexReadCount (C : Config) (ix : Index I) (key : ℕ) (count : UInt32) : Option (Option I) :=
  if C.Usable then some (readItemCount key count 0 (ix.buckets (C.hash key))) else none

/-- `IndexHash::index_insert_nonunique` -/
def indexInsertNonunique (C : Config) (ix : Index I) (call : ℕ × I) : Option (Index I) :=
  if C.Usable then
    some { ix with
      buckets := update ix.buckets (C.hash call.1)
        (⟨call.1, call.2⟩ :: ix.buckets (C.hash call.1)) }
  else none

variable [DecidableEq I]

/-- `BucketHeader::insert_item` -/
def insertItem (key : ℕ) (item : I) :
    List (BucketNode I) → (I → Option I) → List (BucketNode I) × (I → Option I)
  | [], next => ([⟨key, item⟩], next)
  | node :: nodes, next =>
    if node.key = key then
      ({ node with items := item } :: nodes, update next item (some node.items))
    else
      let (nodes, next) := insertItem key item nodes next
      (node :: nodes, next)

/-- `IndexHash::index_insert` -/
def indexInsert (C : Config) (ix : Index I) (call : ℕ × I) : Option (Index I) :=
  if C.Usable then
    let (nodes, next) := insertItem call.1 call.2 (ix.buckets (C.hash call.1)) ix.next
    some ⟨update ix.buckets (C.hash call.1) nodes, next⟩
  else none

/-! ## The multimap -/

/-- The items inserted under a key, the most recent first. -/
def inserted (calls : List (ℕ × I)) (key : ℕ) : List I :=
  ((calls.filter (·.1 = key)).map (·.2)).reverse

/-- The items of a chain. -/
def Chain (next : I → Option I) : Option I → List I → Prop
  | p, [] => p = none
  | p, item :: items => p = some item ∧ Chain next (next item) items

/-- `indexRead` finds the chain of what has been inserted. -/
structure Represents (C : Config) (ix : Index I) (calls : List (ℕ × I)) : Prop where
  chain : ∀ key, Chain ix.next (readItem key (ix.buckets (C.hash key))) (inserted calls key)
  /-- items that have not been inserted have no link -/
  fresh : ∀ item, item ∉ calls.map (·.2) → ix.next item = none

variable {C : Config} {ix : Index I} {calls : List (ℕ × I)} {key : ℕ} {item : I}

omit [DecidableEq I] in
theorem inserted_concat :
    inserted (calls ++ [(key, item)]) =
      update (inserted calls) key (item :: inserted calls key) := by
  funext k
  by_cases hk : k = key
  · subst hk
    simp [inserted]
  · simp [inserted, hk, Ne.symm hk]

omit [DecidableEq I] in
theorem mem_of_mem_inserted (h : item ∈ inserted calls key) : item ∈ calls.map (·.2) := by
  obtain ⟨call, hcall, rfl⟩ := List.mem_map.mp (mem_reverse.mp h)
  exact List.mem_map_of_mem (mem_of_mem_filter hcall)

omit [DecidableEq I] in
/-- A chain depends on the links of its items only. -/
theorem Chain.congr {next next' : I → Option I} {p : Option I} {items : List I}
    (h : Chain next p items) (hnext : ∀ item ∈ items, next' item = next item) :
    Chain next' p items := by
  induction items generalizing p with
  | nil => exact h
  | cons item items ih =>
    obtain ⟨hp, hrest⟩ := h
    obtain ⟨hitem, hnext⟩ := forall_mem_cons.mp hnext
    exact ⟨hp, hitem.symm ▸ ih hrest hnext⟩

theorem readItem_insertItem (nodes : List (BucketNode I)) (next : I → Option I) (k : ℕ) :
    readItem k (insertItem key item nodes next).1 = if k = key then some item
      else readItem k nodes := by
  induction nodes with
  | nil => simp only [insertItem, readItem, eq_comm]
  | cons node nodes ih =>
    rw [insertItem]
    split
    next hkey =>
      simp only [readItem, hkey]
      by_cases hk : key = k
      · rw [if_pos hk, if_pos hk.symm]
      · rw [if_neg hk, if_neg (Ne.symm hk), if_neg hk]
    next hkey =>
      simp only [readItem, ih]
      by_cases hk : k = key
      · subst hk
        rw [if_neg hkey]
        simp
      · simp [hk]

/-- The item inserted links to what had been the first of its key. -/
theorem next_insertItem (key : ℕ) (nodes : List (BucketNode I)) {next : I → Option I}
    (hfresh : next item = none) :
    (insertItem key item nodes next).2 = update next item (readItem key nodes) := by
  induction nodes with
  | nil => exact (update_eq_self_iff.mpr hfresh.symm).symm
  | cons node nodes ih =>
    rw [insertItem, readItem]
    split
    · rfl
    · exact ih

/-- **An insertion** goes to the front of the chain of its key, and to no other chain. -/
theorem Represents.insert (h : Represents C ix calls) (hC : C.Usable) (key : ℕ)
    (hitem : item ∉ calls.map (·.2)) :
    ∃ ix', indexInsert C ix (key, item) = some ix' ∧ Represents C ix' (calls ++ [(key, item)]) := by
  refine ⟨_, if_pos hC, ?_, ?_⟩
  · intro k
    have hnext := next_insertItem key (ix.buckets (C.hash key)) (h.fresh item hitem)
    have hread : readItem k (update ix.buckets (C.hash key)
        (insertItem key item (ix.buckets (C.hash key)) ix.next).1 (C.hash k)) =
        if k = key then some item else readItem k (ix.buckets (C.hash k)) := by
      by_cases hhash : C.hash k = C.hash key
      · rw [hhash, update_self, readItem_insertItem]
      · rw [update_of_ne hhash, if_neg fun hk => hhash (congrArg C.hash hk)]
    have hframe : ∀ i ∈ inserted calls k, update ix.next item
      (readItem key (ix.buckets (C.hash key))) i = ix.next i := by
      intro i hi
      have hne : i ≠ item := fun heq => hitem (heq ▸ mem_of_mem_inserted hi)
      exact update_of_ne hne _ _
    simp only [hread, hnext, inserted_concat]
    by_cases hk : k = key
    · subst hk
      rw [if_pos rfl, update_self]
      exact ⟨rfl, by rw [update_self]; exact (h.chain k).congr hframe⟩
    · rw [if_neg hk, update_of_ne hk]
      exact (h.chain k).congr hframe
  · intro i hi
    rw [map_append, mem_append, not_or] at hi
    have hne : i ≠ item := fun heq => hi.2 (mem_singleton.mpr heq)
    simp only [next_insertItem _ _ (h.fresh item hitem), update_of_ne hne]
    exact h.fresh i hi.1

/-- **`index_insert` refines the multimap.** -/
theorem insertAll_represents (hC : C.Usable) (hitems : (calls.map (·.2)).Nodup) :
    ∃ ix, calls.foldlM (indexInsert C) .init = some ix ∧ Represents C ix calls := by
  induction calls using List.reverseRecOn with
  | nil => exact ⟨_, rfl, fun _ => rfl, fun _ _ => rfl⟩
  | append_singleton calls call ih =>
    rw [map_append, nodup_append'] at hitems
    obtain ⟨ix, hix, hrep⟩ := ih hitems.1
    have hfresh : call.2 ∉ calls.map (·.2) := fun hmem => hitems.2.2 hmem mem_cons_self
    obtain ⟨ix', hix', hrep'⟩ := hrep.insert hC call.1 hfresh
    refine ⟨ix', ?_, hrep'⟩
    simp [foldlM_append, hix, hix']

omit [DecidableEq I] in
/-- The reader that counts skips the nodes of other keys. -/
theorem readItemCount_eq {count ctr : UInt32} (hctr : ctr ≤ count) (nodes : List (BucketNode I)) :
    readItemCount key count ctr nodes =
      ((nodes.filter (·.key = key)).map (·.items))[count.toNat - ctr.toNat]? := by
  induction nodes generalizing ctr with
  | nil => rfl
  | cons node nodes ih =>
    rw [readItemCount]
    split
    next hkey =>
      rw [filter_cons_of_pos (by simpa using hkey), map_cons]
      split
      next heq =>
        subst heq
        rw [Nat.sub_self, getElem?_cons_zero]
      next hne =>
        have hlt : ctr.toNat < count.toNat :=
          Nat.lt_of_le_of_ne (UInt32.le_iff_toNat_le.mp hctr) fun h => hne (UInt32.toNat_inj.mp h)
        have hsucc : (ctr + 1).toNat = ctr.toNat + 1 := by
          rw [UInt32.toNat_add, UInt32.toNat_one]
          exact Nat.mod_eq_of_lt (Nat.lt_of_le_of_lt hlt count.toNat_lt)
        rw [ih (UInt32.le_iff_toNat_le.mpr (hsucc ▸ hlt)), hsucc,
          show count.toNat - ctr.toNat = count.toNat - (ctr.toNat + 1) + 1 by
          omega, getElem?_cons_succ]
    next hkey =>
      rw [filter_cons_of_neg (by simpa using hkey), ih hctr]

omit [DecidableEq I] in
/-- **`index_insert_nonunique` refines the multimap.** -/
theorem insertAllNonunique_represents (hC : C.Usable) (calls : List (ℕ × I)) :
    ∃ ix, calls.foldlM (indexInsertNonunique C) .init = some ix ∧
      ∀ key, ((ix.buckets (C.hash key)).filter (·.key = key)).map (·.items) =
      inserted calls key := by
  induction calls using List.reverseRecOn with
  | nil => exact ⟨_, rfl, fun _ => rfl⟩
  | append_singleton calls call ih =>
    obtain ⟨ix, hix, hrep⟩ := ih
    have hinsert : indexInsertNonunique C ix call = some _ := if_pos hC
    refine ⟨_, by simpa [foldlM_append, hix] using hinsert, fun key => ?_⟩
    dsimp only
    rw [inserted_concat]
    by_cases hkey : key = call.1
    · subst hkey
      rw [update_self, update_self, filter_cons_of_pos (by simp), map_cons, hrep]
    · rw [update_of_ne hkey, ← hrep key]
      by_cases hhash : C.hash key = C.hash call.1
      · rw [hhash, update_self, filter_cons_of_neg (by simpa using Ne.symm hkey)]
      · rw [update_of_ne hhash]

/-- **The index is a multimap**: after insertions of one kind, a read finds the items inserted under
its key, the most recent first, whatever has been inserted under other keys of the same bucket, and
a read by count finds the item at that place. -/
theorem multimap (hC : C.Usable) (calls : List (ℕ × I)) :
    ((calls.map (·.2)).Nodup → ∃ ix, calls.foldlM (indexInsert C) .init = some ix ∧
      ∀ key, inserted calls key ≠ [] →
      ∃ item, indexRead C ix key = some item ∧ Chain ix.next (some item) (inserted calls key)) ∧
    ∃ ix, calls.foldlM (indexInsertNonunique C) .init = some ix ∧ ∀ key count,
      indexReadCount C ix key count = some (inserted calls key)[count.toNat]? := by
  constructor
  · intro hitems
    obtain ⟨ix, hix, hrep⟩ := insertAll_represents hC hitems
    refine ⟨ix, hix, fun key hne => ?_⟩
    have hchain := hrep.chain key
    rw [indexRead, if_pos hC]
    obtain ⟨item, items, heq⟩ := exists_cons_of_ne_nil hne
    rw [heq] at hchain ⊢
    exact ⟨item, hchain.1, rfl, hchain.2⟩
  · obtain ⟨ix, hix, hrep⟩ := insertAllNonunique_represents hC calls
    refine ⟨ix, hix, fun key count => ?_⟩
    rw [indexReadCount, if_pos hC, readItemCount_eq UInt32.zero_le, hrep, UInt32.toNat_zero,
      Nat.sub_zero]

/-- Three items in one bucket, two of them under one key. -/
theorem multimap_oneBucket :
    (∃ ix, [(1, 0), (2, 1), (1, 2)].foldlM (indexInsert ⟨false, 1, 1⟩) .init = some ix ∧
      ∀ key, inserted [(1, 0), (2, 1), (1, 2)] key ≠ [] →
      ∃ item, indexRead ⟨false, 1, 1⟩ ix key = some item ∧
        Chain ix.next (some item) (inserted [(1, 0), (2, 1), (1, 2)] key)) ∧
    ∃ ix, [(1, 0), (2, 1), (1, 2)].foldlM (indexInsertNonunique ⟨false, 1, 1⟩) .init = some ix ∧
      ∀ key count, indexReadCount ⟨false, 1, 1⟩ ix key count =
        some (inserted [(1, 0), (2, 1), (1, 2)] key)[count.toNat]? :=
  (multimap (by decide) [(1, 0), (2, 1), (1, 2)]).imp_left fun h => h (by decide)

end IndexHash

end Deneva
