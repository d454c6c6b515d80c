import Deneva.HashIndex
import Deneva.TpccData

/-!
# Customers by last name (`benchmarks/tpcc_wl.cpp`, `benchmarks/tpcc_helper.cpp`)

`init_tab_cust` inserts every customer into `i_customer_last` under `custNPKey` of its last name,
district and warehouse. The key gives a letter one bit more than the one before it has, so names
have keys in common, such as `BARPRESBAR` and `ESEPRIBAR`.
-/

namespace Deneva

open List

namespace Tpcc

open IndexHash

/-- The parts of last names. -/
def syllable : ℕ → List Char
  | 0 => ['B', 'A', 'R']
  | 1 => ['O', 'U', 'G', 'H', 'T']
  | 2 => ['A', 'B', 'L', 'E']
  | 3 => ['P', 'R', 'I']
  | 4 => ['P', 'R', 'E', 'S']
  | 5 => ['E', 'S', 'E']
  | 6 => ['A', 'N', 'T', 'I']
  | 7 => ['C', 'A', 'L', 'L', 'Y']
  | 8 => ['A', 'T', 'I', 'O', 'N']
  | 9 => ['E', 'I', 'N', 'G']
  | _ => []

/-- `Lastname` -/
def lastname (num : ℕ) : List ℕ :=
  (syllable (num / 100) ++ syllable (num / 10 % 10) ++ syllable (num % 10)).map Char.toNat

/-- A row of `CUSTOMER`. -/
structure Customer where
  cId : ℕ
  dId : ℕ
  wId : ℕ
  cLast : List ℕ
  deriving DecidableEq

/-- The warehouses of a node. -/
def warehouses (S : Scale) (numWh node : ℕ) : List ℕ :=
  (List.range' 1 numWh).filter fun wId => nodeOf S.toCluster wId = node

/-- The customers that all calls of `init_tab_cust` load; `names` are the results of
`NURand(255, 0, 999)`. -/
def customers (S : Scale) (numWh node : ℕ) (names : ℕ → ℕ → ℕ → Fin 1000) : List Customer :=
  (warehouses S numWh node).flatMap fun wId =>
    (List.range' 1 S.distPerWh).flatMap fun dId =>
      (List.range' 1 S.custPerDist).map fun cId =>
        ⟨cId, dId, wId, lastname (if cId ≤ 1000 then cId - 1 else names cId dId wId)⟩

/-- The key of a customer in `i_customer_last`. -/
def Customer.key (S : Scale) (c : Customer) : ℕ := custNPKey S c.cLast c.dId c.wId

/-- `i_customer_last`, when these customers have been loaded in this order. -/
def loadCustomers (S : Scale) (C : IndexHash.Config) (loaded : List Customer) :
    Option (Index Customer) :=
  (loaded.map fun c => (c.key S, c)).foldlM (indexInsert C) .init

/-- **A lookup by last name is right**: its chain has the customers with that name in the district,
and the middle one is one of them. -/
def Found (S : Scale) (C : IndexHash.Config) (loaded : List Customer) (cLast : List ℕ)
    (dId wId : ℕ) : Prop :=
  ∃ ix item chain, loadCustomers S C loaded = some ix ∧
    indexRead C ix (custNPKey S cLast dId wId) = some item ∧ Chain ix.next (some item) chain ∧
    (∀ c, c ∈ chain ↔ c ∈ loaded ∧ c.cLast = cLast ∧ c.dId = dId ∧ c.wId = wId) ∧
    ∃ c ∈ chain, (midLoop (chain.map (·.cId)) 0 (chain.map (·.cId))).head? = some c.cId

/-! ## What a lookup finds -/

theorem midLoop_eq (rest : List ℕ) (cnt : ℕ) (mid : List ℕ) :
    midLoop rest cnt mid = mid.drop ((cnt % 2 + rest.length) / 2) := by
  induction rest generalizing cnt mid with
  | nil =>
    rw [midLoop, length_nil, Nat.add_zero, Nat.div_eq_of_lt (Nat.mod_lt _ Nat.two_pos), drop_zero]
  | cons _ rest ih =>
    rw [midLoop, ih, length_cons]
    split
    · rw [drop_tail]
      congr 1
      omega
    · congr 1
      omega

/-- The middle one is one of the chain. -/
theorem exists_middle {chain : List Customer} (hne : chain ≠ []) :
    ∃ c ∈ chain, (midLoop (chain.map (·.cId)) 0 (chain.map (·.cId))).head? = some c.cId := by
  have hlt : chain.length / 2 < chain.length :=
    Nat.div_lt_self (length_pos_iff.mpr hne) Nat.one_lt_two
  refine ⟨chain.get ⟨_, hlt⟩, List.get_mem _ _, ?_⟩
  rw [midLoop_eq, length_map, Nat.zero_mod, Nat.zero_add, head?_drop, getElem?_map,
    getElem?_eq_getElem hlt]
  rfl

variable {S : Scale} {C : IndexHash.Config} {numWh node : ℕ} {names : ℕ → ℕ → ℕ → Fin 1000}

theorem mem_customers {c : Customer} :
    c ∈ customers S numWh node names ↔
      c.wId ∈ warehouses S numWh node ∧ c.dId ∈ List.range' 1 S.distPerWh ∧
      c.cId ∈ List.range' 1 S.custPerDist ∧
      c.cLast = lastname (if c.cId ≤ 1000 then c.cId - 1 else names c.cId c.dId c.wId) := by
  simp only [customers, mem_flatMap, List.mem_map]
  constructor
  · rintro ⟨w, hw, d, hd, i, hi, rfl⟩
    exact ⟨hw, hd, hi, rfl⟩
  · rintro ⟨hw, hd, hi, hlast⟩
    exact ⟨_, hw, _, hd, _, hi, by rw [← hlast]⟩

/-- No customer of a node is loaded twice. -/
theorem nodup_customers : (customers S numWh node names).Nodup := by
  rw [customers, nodup_flatMap]
  refine ⟨fun w _ => ?_, ?_⟩
  · rw [nodup_flatMap]
    refine ⟨fun d _ => ?_, (nodup_range' 1).imp fun hne => ?_⟩
    · exact (nodup_range' 1).map fun i j h => congrArg Customer.cId h
    · rintro c hc hc'
      obtain ⟨_, -, rfl⟩ := List.mem_map.mp hc
      obtain ⟨_, -, heq⟩ := List.mem_map.mp hc'
      exact hne (congrArg Customer.dId heq).symm
  · refine ((nodup_range' 1).filter _).imp fun hne => ?_
    rintro c hc hc'
    obtain ⟨_, -, hc⟩ := mem_flatMap.mp hc
    obtain ⟨_, -, hc'⟩ := mem_flatMap.mp hc'
    obtain ⟨_, -, rfl⟩ := List.mem_map.mp hc
    obtain ⟨_, -, heq⟩ := List.mem_map.mp hc'
    exact hne (congrArg Customer.wId heq).symm

variable {dId wId : ℕ}

/-- In every district there is a customer with each of the names. -/
theorem exists_customer (hcust : 1000 ≤ S.custPerDist) {num : ℕ} (hnum : num < 1000)
    (hd : dId ∈ List.range' 1 S.distPerWh) (hw : wId ∈ warehouses S numWh node) :
    ⟨num + 1, dId, wId, lastname num⟩ ∈ customers S numWh node names := by
  have hid : num + 1 ∈ List.range' 1 S.custPerDist := List.mem_range'_1.mpr (by omega)
  refine mem_customers.mpr ⟨hw, hd, hid, ?_⟩
  rw [if_pos (Nat.succ_le_of_lt hnum), Nat.add_sub_cancel]

/-- A chain has the items it has. -/
theorem chain_unique {I : Type*} {next : I → Option I} {p : Option I} {items items' : List I}
    (h : Chain next p items) (h' : Chain next p items') : items = items' := by
  induction items generalizing p items' with
  | nil =>
    cases items' with
    | nil => rfl
    | cons item items' => cases h.symm.trans h'.1
  | cons item items ih =>
    cases items' with
    | nil => cases h.1.symm.trans h'
    | cons item' items' =>
      obtain rfl := Option.some.inj (h.1.symm.trans h'.1)
      rw [ih h.2 h'.2]

/-- **A lookup is right exactly if nobody else is loaded under its key.** -/
theorem found_iff (hC : C.Usable) (hcust : 1000 ≤ S.custPerDist) {loaded : List Customer}
    (hloaded : loaded.Perm (customers S numWh node names)) {num : ℕ} (hnum : num < 1000)
    (hd : dId ∈ List.range' 1 S.distPerWh) (hw : wId ∈ warehouses S numWh node) :
    Found S C loaded (lastname num) dId wId ↔
      ∀ c ∈ loaded, c.key S = custNPKey S (lastname num) dId wId →
        c.cLast = lastname num ∧ c.dId = dId ∧ c.wId = wId := by
  set calls := loaded.map fun c => (c.key S, c) with hcalls
  have hitems : calls.map (·.2) = loaded := by rw [hcalls, List.map_map]; exact List.map_id _
  have hmem : ∀ c, c ∈ inserted calls (custNPKey S (lastname num) dId wId) ↔
      c ∈ loaded ∧ c.key S = custNPKey S (lastname num) dId wId := by
    intro c
    simp [inserted, hcalls]
  obtain ⟨ix, hix, hrep⟩ :=
    insertAll_represents hC (hitems.symm ▸ hloaded.nodup_iff.mpr nodup_customers)
  have hhere : ⟨num + 1, dId, wId, lastname num⟩ ∈ loaded :=
    hloaded.mem_iff.mpr (exists_customer hcust hnum hd hw)
  have hchain := hrep.chain (custNPKey S (lastname num) dId wId)
  constructor
  · rintro ⟨ix', item, chain, hix', hread, hchain', hexact, -⟩ c hc hkey
    obtain rfl := Option.some.inj (hix.symm.trans hix')
    rw [indexRead, if_pos hC] at hread
    rw [hread] at hchain
    obtain rfl := chain_unique hchain' hchain
    exact ((hexact c).mp ((hmem c).mpr ⟨hc, hkey⟩)).2
  · intro hothers
    have hne : inserted calls (custNPKey S (lastname num) dId wId) ≠ [] :=
      ne_nil_of_mem ((hmem _).mpr ⟨hhere, rfl⟩)
    obtain ⟨item, items, heq⟩ := exists_cons_of_ne_nil hne
    have hread : readItem (custNPKey S (lastname num) dId wId) _ = some item := (heq ▸ hchain).1
    refine ⟨ix, item, _, hix, (if_pos hC).trans hread, hread ▸ hchain, fun c => ?_,
      exists_middle hne⟩
    rw [hmem]
    refine and_congr_right fun hc => ⟨hothers c hc, ?_⟩
    rintro ⟨hlast, hd, hw⟩
    rw [Customer.key, hlast, hd, hw]

/-- `BARPRESBAR` and `ESEPRIBAR` have the same key. -/
theorem custNPKey_clash (S : Scale) (dId wId : ℕ) :
    custNPKey S (lastname 530) dId wId = custNPKey S (lastname 40) dId wId := by
  have hfold : ((lastname 530).foldl (fun key c => u64 (key * 2 + c + (2 ^ 64 - 65))) 0) =
      (lastname 40).foldl (fun key c => u64 (key * 2 + c + (2 ^ 64 - 65))) 0 := by decide
  rw [custNPKey, custNPKey, hfold]

/-- A customer called `ESEPRIBAR` is in the chain for `BARPRESBAR`. -/
theorem not_found_clash (hC : C.Usable) (hcust : 1000 ≤ S.custPerDist) {loaded : List Customer}
    (hloaded : loaded.Perm (customers S numWh node names)) (hd : dId ∈ List.range' 1 S.distPerWh)
    (hw : wId ∈ warehouses S numWh node) : ¬Found S C loaded (lastname 40) dId wId := by
  rw [found_iff hC hcust hloaded (by decide) hd hw]
  intro h
  have hmem : ⟨531, dId, wId, lastname 530⟩ ∈ loaded :=
    hloaded.mem_iff.mpr (exists_customer hcust (by decide) hd hw)
  have hlast : lastname 530 = lastname 40 := (h _ hmem (custNPKey_clash S dId wId)).1
  exact absurd hlast (by decide)

/-- **Lookups by last name**: those of a node, for all names, districts and warehouses, are right
exactly if there is nothing to look up. In any district of any warehouse of the node the lookup of
`BARPRESBAR` finds a customer with another name as well. -/
theorem lookups_iff (hC : C.Usable) (hcust : 1000 ≤ S.custPerDist) {loaded : List Customer}
    (hloaded : loaded.Perm (customers S numWh node names)) :
    (∀ num < 1000, ∀ dId, 1 ≤ dId → dId ≤ S.distPerWh → ∀ wId, 1 ≤ wId → wId ≤ numWh →
        nodeOf S.toCluster wId = node → Found S C loaded (lastname num) dId wId) ↔
      S.distPerWh = 0 ∨ ∀ wId, 1 ≤ wId → wId ≤ numWh → nodeOf S.toCluster wId ≠ node := by
  constructor
  · intro h
    by_contra hnot
    simp only [not_or, not_forall, not_not] at hnot
    obtain ⟨hdist, wId, hpos, hle, hnode⟩ := hnot
    have hd : 1 ≤ S.distPerWh := Nat.one_le_iff_ne_zero.mpr hdist
    have hw : wId ∈ warehouses S numWh node :=
      mem_filter.mpr ⟨List.mem_range'_1.mpr (by omega), decide_eq_true hnode⟩
    exact not_found_clash hC hcust hloaded (List.mem_range'_1.mpr (by omega)) hw
      (h 40 (by decide) 1 le_rfl hd wId hpos hle hnode)
  · rintro (hdist | hnone) num _ dId hpos hle wId hwpos hwle hnode
    · omega
    · exact absurd hnode (hnone wId hwpos hwle)

/-- One warehouse with one district of a thousand customers. -/
def oneDistrict : Scale :=
  { nodeCnt := 1, partCnt := 1, whUpdate := true, distPerWh := 1, custPerDist := 1000,
    maxItems := 100000 }

theorem lookups_iff_oneDistrict :
    ¬ ∀ num < 1000, ∀ dId, 1 ≤ dId → dId ≤ 1 → ∀ wId, 1 ≤ wId → wId ≤ 1 →
      nodeOf oneDistrict.toCluster wId = 0 →
      Found oneDistrict ⟨false, 1, 1000⟩ (customers oneDistrict 1 0 fun _ _ _ => 0)
        (lastname num) dId wId := by
  intro h
  have hnone := (lookups_iff (S := oneDistrict) (by decide) le_rfl (.refl _)).mp h
  rcases hnone with hdist | hnone
  · cases hdist
  · exact hnone 1 le_rfl le_rfl (by decide)

/-- The lookup of `BARPRESBAR` finds `ESEPRIBAR` as well. -/
theorem not_found_barpresbar :
    ¬Found oneDistrict ⟨false, 1, 1000⟩ (customers oneDistrict 1 0 fun _ _ _ => 0)
      (lastname 40) 1 1 :=
  not_found_clash (by decide) le_rfl (.refl _) (by decide) (by decide)

end Tpcc

end Deneva
