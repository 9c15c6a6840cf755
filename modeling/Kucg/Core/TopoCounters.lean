import Kucg.Core.TopoDetail

/-! The counters of a topology, with every access checked (`ucg_topo_init_detail`,
    `ucg_topo_calc_ppn`, `ucg_topo_calc_pps`).

    When all ranks have their ids, the dense ids number the nodes and the sockets in the order in
    which they first appear, the counts are compared rightly, and the flag tells whether every node
    has an interval of ranks. A location without an id leaves a field of `locations` as the
    allocation gave it, and the loops that count use it as an index all the same, unless no rank at
    all has that id (`topoCounters_right_iff`). -/

namespace Kucg.Core

open Kucg.Lib

/-! ### The code -/

/-- The loop over `nrank_continuous`, from rank `i` on: `tmp_node_hash` and `last_node_id`. -/
def nrankContinuous (place : ℕ → Location) : ℕ → ℕ → List ℤ → ℤ → Bool
  | 0, _, _, _ => true
  | ranks + 1, i, hash, lastNodeId =>
    let key := (place i).nodeId
    if key ∉ hash then nrankContinuous place ranks (i + 1) (hashPut hash key) key
    else if key ≠ lastNodeId then false
    else nrankContinuous place ranks (i + 1) hash key

/-- `detail->nrank_continuous`. -/
def topoNrankContinuous (place : ℕ → Location) (size : ℕ) : Bool :=
  nrankContinuous place size 0 [] (-1)

/-- The result of an operation on `int32_t`. -/
def int32 (x : ℤ) : Except (Halt Status) ℤ :=
  if -2 ^ 31 ≤ x ∧ x < 2 ^ 31 then .ok x else .error .outside

/-- `++process_cnt[i]`. -/
def bumpCnt (cnt : List ℕ) (i : ℤ) : Except (Halt Status) (List ℕ) := do
  let c ← load cnt i
  store cnt i (c + 1)

/-- `ucg_topo_calc_ppn`. -/
def topoCheckedPpn (detail : TopoDetail) : Except (Halt Status) ℤ :=
  if detail.nnode = 0 then .ok ppxUnknown
  else do
    let cnt ← detail.locations.foldlM (fun cnt l => bumpCnt cnt l.nodeId)
      (List.replicate detail.nnode 0)
    return calcPpx cnt 0

/-- `locations[i].node_id * nsocket + locations[i].socket_id`. -/
def ppsIndex (nsocket : ℕ) (l : TopoLocation) : Except (Halt Status) ℤ := do
  let first ← int32 (l.nodeId * nsocket)
  int32 (first + l.socketId)

/-- `ucg_topo_calc_pps`. -/
def topoCheckedPps (detail : TopoDetail) : Except (Halt Status) ℤ :=
  if detail.nsocket = 0 then .ok ppxUnknown
  else do
    let size ← int32 (detail.nnode * detail.nsocket)
    let cnt ← detail.locations.foldlM (fun cnt l => do
      bumpCnt cnt (← ppsIndex detail.nsocket l)) (List.replicate size.toNat 0)
    return calcPpx cnt 0

/-! ### Accesses -/

section Accesses

variable {cnt cnt' : List ℕ} {i x : ℤ}

theorem int32_eq_ok {y : ℤ} : int32 x = .ok y ↔ (-2 ^ 31 ≤ x ∧ x < 2 ^ 31) ∧ y = x := by
  rw [int32]
  split_ifs with h
  · exact ⟨fun heq => ⟨h, (Except.ok.inj heq).symm⟩, fun heq => congrArg _ heq.2.symm⟩
  · exact ⟨nofun, fun heq => absurd heq.1 h⟩

theorem bumpCnt_eq_ok :
    bumpCnt cnt i = .ok cnt' ↔ (0 ≤ i ∧ i < cnt.length) ∧ cnt' = cnt.modify i.toNat (· + 1) := by
  rw [bumpCnt, bind_eq_ok]
  constructor
  · rintro ⟨c, hload, hstore⟩
    obtain ⟨hpos, hget⟩ := load_eq_ok.mp hload
    obtain ⟨-, hlt, rfl⟩ := store_eq_ok.mp hstore
    refine ⟨⟨hpos, by omega⟩, ?_⟩
    rw [List.modify_eq_set_getElem?, hget]
    rfl
  · rintro ⟨⟨hpos, hlt⟩, rfl⟩
    have hget : cnt[i.toNat]? = some cnt[i.toNat] := List.getElem?_eq_getElem (by omega)
    refine ⟨_, load_eq_ok.mpr ⟨hpos, hget⟩, store_eq_ok.mpr ⟨hpos, by omega, ?_⟩⟩
    rw [List.modify_eq_set_getElem?, hget]
    rfl

/-- A loop that counts keeps within bounds just when all its indices are. -/
theorem foldlM_bumpCnt {α : Type} {index : α → Except (Halt Status) ℤ} {indexOf : α → ℤ}
    {Fits : α → Prop} (hindex : ∀ a i, index a = .ok i ↔ Fits a ∧ i = indexOf a) :
    ∀ {l : List α} {cnt cnt' : List ℕ},
      l.foldlM (fun cnt a => do bumpCnt cnt (← index a)) cnt = .ok cnt' ↔
        (∀ a ∈ l, Fits a ∧ 0 ≤ indexOf a ∧ indexOf a < cnt.length) ∧
        cnt' = (l.map indexOf).foldl (fun cnt i => cnt.modify i.toNat (· + 1)) cnt
  | [], cnt, cnt' => by
    simp [pure, Except.pure, eq_comm]
  | a :: l, cnt, cnt' => by
    rw [List.foldlM_cons, bind_eq_ok]
    constructor
    · rintro ⟨cnt₁, hstep, hrest⟩
      obtain ⟨i, hi, hbump⟩ := bind_eq_ok.mp hstep
      obtain ⟨hfits, rfl⟩ := (hindex a i).mp hi
      obtain ⟨hin, rfl⟩ := bumpCnt_eq_ok.mp hbump
      obtain ⟨hall, rfl⟩ := (foldlM_bumpCnt hindex).mp hrest
      simp only [List.length_modify] at hall
      exact ⟨List.forall_mem_cons.mpr ⟨⟨hfits, hin⟩, hall⟩, rfl⟩
    · rintro ⟨hall, rfl⟩
      obtain ⟨⟨hfits, hin⟩, hall⟩ := List.forall_mem_cons.mp hall
      refine ⟨_, bind_eq_ok.mpr ⟨_, (hindex a _).mpr ⟨hfits, rfl⟩, bumpCnt_eq_ok.mpr ⟨hin, rfl⟩⟩,
        ?_⟩
      refine (foldlM_bumpCnt hindex).mpr ⟨?_, rfl⟩
      simpa using hall

end Accesses

/-- Where `ucg_topo_calc_ppn` counts. -/
def PpnFits (detail : TopoDetail) : Prop :=
  detail.nnode = 0 ∨ ∀ l ∈ detail.locations, 0 ≤ l.nodeId ∧ l.nodeId < detail.nnode

/-- The number of counters of `ucg_topo_calc_pps`, and the index of a location, are numbers of their
    type, and the index is that of a counter. -/
def PpsFits (detail : TopoDetail) : Prop :=
  detail.nsocket = 0 ∨ (detail.nnode * detail.nsocket : ℤ) < 2 ^ 31 ∧ ∀ l ∈ detail.locations,
    -2 ^ 31 ≤ l.nodeId * detail.nsocket ∧ l.nodeId * detail.nsocket < 2 ^ 31 ∧
    0 ≤ l.nodeId * detail.nsocket + l.socketId ∧
    l.nodeId * detail.nsocket + l.socketId < detail.nnode * detail.nsocket

theorem topoCheckedPpn_eq_ok {detail : TopoDetail} {ppn : ℤ} :
    topoCheckedPpn detail = .ok ppn ↔ PpnFits detail ∧ ppn = topoCalcPpn detail := by
  rw [topoCheckedPpn, topoCalcPpn, PpnFits]
  split_ifs with hzero
  · simp [hzero, eq_comm]
  · have hindex (l : TopoLocation) (i : ℤ) : (.ok l.nodeId : Except (Halt Status) ℤ) = .ok i ↔
        True ∧ i = l.nodeId := by simp [eq_comm]
    have hloop (cnt : List ℕ) := @foldlM_bumpCnt _ _ _ _ hindex detail.locations
      (List.replicate detail.nnode 0) cnt
    rw [bind_eq_ok]
    simp only [hzero, false_or]
    constructor
    · rintro ⟨cnt, hcnt, hppn⟩
      obtain ⟨hall, rfl⟩ := (hloop cnt).mp hcnt
      exact ⟨by simpa using hall, (Except.ok.inj hppn).symm⟩
    · rintro ⟨hall, rfl⟩
      exact ⟨_, (hloop _).mpr ⟨by simpa using hall, rfl⟩, rfl⟩

theorem ppsIndex_eq_ok (nsocket : ℕ) (l : TopoLocation) (i : ℤ) : ppsIndex nsocket l = .ok i ↔
    ((-2 ^ 31 ≤ l.nodeId * nsocket ∧ l.nodeId * nsocket < 2 ^ 31) ∧
      -2 ^ 31 ≤ l.nodeId * nsocket + l.socketId ∧ l.nodeId * nsocket + l.socketId < 2 ^ 31) ∧
    i = l.nodeId * nsocket + l.socketId := by
  rw [ppsIndex, bind_eq_ok]
  simp only [int32_eq_ok]
  constructor
  · rintro ⟨_, ⟨hfirst, rfl⟩, hidx, rfl⟩
    exact ⟨⟨hfirst, hidx⟩, rfl⟩
  · rintro ⟨⟨hfirst, hidx⟩, rfl⟩
    exact ⟨_, ⟨hfirst, rfl⟩, hidx, rfl⟩

theorem topoCheckedPps_eq_ok {detail : TopoDetail} {pps : ℤ} :
    topoCheckedPps detail = .ok pps ↔ PpsFits detail ∧ pps = topoCalcPps detail := by
  rw [topoCheckedPps, topoCalcPps, PpsFits]
  split_ifs with hzero
  · simp [hzero, eq_comm]
  · have hcounters :
      ((detail.nnode : ℤ) * detail.nsocket).toNat = detail.nnode * detail.nsocket := by
      rw [← Nat.cast_mul, Int.toNat_natCast]
    have hloop (cnt : List ℕ) := @foldlM_bumpCnt _ _ _ _ (ppsIndex_eq_ok detail.nsocket)
      detail.locations (List.replicate (detail.nnode * detail.nsocket) 0) cnt
    simp only [List.length_replicate, Nat.cast_mul] at hloop
    rw [bind_eq_ok]
    simp only [hzero, false_or, bind_eq_ok]
    constructor
    · rintro ⟨size, hsize, cnt, hcnt, hpps⟩
      obtain ⟨⟨-, hlt⟩, rfl⟩ := int32_eq_ok.mp hsize
      rw [hcounters] at hcnt
      obtain ⟨hall, rfl⟩ := (hloop cnt).mp hcnt
      refine ⟨⟨hlt, fun l hl => ?_⟩, (Except.ok.inj hpps).symm⟩
      obtain ⟨⟨hfirst, -⟩, hin⟩ := hall l hl
      exact ⟨hfirst.1, hfirst.2, hin⟩
    · rintro ⟨⟨hlt, hall⟩, rfl⟩
      have hnonneg : (0 : ℤ) ≤ detail.nnode * detail.nsocket := by positivity
      refine ⟨_, int32_eq_ok.mpr ⟨⟨by omega, hlt⟩, rfl⟩, _, ?_, rfl⟩
      rw [hcounters]
      refine (hloop _).mpr ⟨fun l hl => ?_, rfl⟩
      obtain ⟨hlow, hhigh, hin⟩ := hall l hl
      exact ⟨⟨⟨hlow, hhigh⟩, by omega, by omega⟩, hin⟩

/-! ### The flag -/

/-- The ranks of every node are an interval. -/
def Intervals (place : ℕ → Location) (size : ℕ) : Prop :=
  ∀ a b c, a < b → b < c → c < size → (place a).nodeId = (place c).nodeId →
    (place b).nodeId = (place c).nodeId

/-- The loop, when the first `i` ranks are in intervals and their nodes are in the hash. -/
theorem nrankContinuous_iff (place : ℕ → Location) : ∀ {ranks i : ℕ} {hash : List ℤ} {last : ℤ},
    (∀ k, k ∈ hash ↔ ∃ j < i, (place j).nodeId = k) →
    (∀ j, j + 1 = i → last = (place j).nodeId) → Intervals place i →
    (nrankContinuous place ranks i hash last ↔ Intervals place (i + ranks))
  | 0, i, hash, last, _, _, hpre => by simpa [nrankContinuous] using hpre
  | ranks + 1, i, hash, last, hhash, hlast, hpre => by
    rw [nrankContinuous]
    have hnext : i + (ranks + 1) = i + 1 + ranks := by omega
    by_cases hnew : (place i).nodeId ∈ hash
    · obtain ⟨j, hj, heq⟩ := (hhash _).mp hnew
      obtain ⟨m, rfl⟩ := Nat.exists_eq_add_of_le' (Nat.one_le_of_lt hj)
      by_cases hne : (place (m + 1)).nodeId = last
      · -- the node of the rank before
        have hprev : (place (m + 1)).nodeId = (place m).nodeId := hne.trans (hlast m rfl)
        rw [if_neg (not_not.mpr hnew), if_neg (not_not.mpr hne), hnext]
        refine nrankContinuous_iff place (fun k => ?_) (fun j hj => ?_) fun a b c hab hbc hc heq =>
          ?_
        · rw [hhash]
          constructor
          · rintro ⟨j, hj, rfl⟩
            exact ⟨j, by omega, rfl⟩
          · rintro ⟨j, hj, rfl⟩
            rcases Nat.lt_succ_iff_lt_or_eq.mp hj with hj | rfl
            · exact ⟨j, hj, rfl⟩
            · exact ⟨m, by omega, hprev.symm⟩
        · obtain rfl : j = m + 1 := by omega
          rfl
        · rcases Nat.lt_succ_iff_lt_or_eq.mp hc with hc | rfl
          · exact hpre a b c hab hbc hc heq
          · rw [hprev] at heq ⊢
            rcases Nat.lt_succ_iff_lt_or_eq.mp hbc with hbc | rfl
            · exact hpre a b m hab hbc (by omega) heq
            · rfl
      · -- a node that has been left
        rw [if_neg (not_not.mpr hnew), if_pos hne]
        refine iff_of_false (by simp) fun hall => hne ?_
        rw [hlast m rfl]
        rcases Nat.lt_succ_iff_lt_or_eq.mp hj with hj | rfl
        · exact (hall j m (m + 1) hj (by omega) (by omega) heq).symm
        · exact heq.symm
    · -- a node that has not been seen
      rw [if_pos hnew, hnext]
      refine nrankContinuous_iff place (fun k => ?_) (fun j hj => ?_) fun a b c hab hbc hc heq => ?_
      · rw [hashPut, if_neg hnew, List.mem_append, hhash, List.mem_singleton]
        constructor
        · rintro (⟨j, hj, rfl⟩ | rfl)
          · exact ⟨j, by omega, rfl⟩
          · exact ⟨i, by omega, rfl⟩
        · rintro ⟨j, hj, rfl⟩
          rcases Nat.lt_succ_iff_lt_or_eq.mp hj with hj | rfl
          · exact .inl ⟨j, hj, rfl⟩
          · exact .inr rfl
      · obtain rfl : j = i := by omega
        rfl
      · rcases Nat.lt_succ_iff_lt_or_eq.mp hc with hc | rfl
        · exact hpre a b c hab hbc hc heq
        · exact absurd ((hhash _).mpr ⟨a, by omega, heq⟩) hnew

theorem topoNrankContinuous_iff (place : ℕ → Location) (size : ℕ) :
    topoNrankContinuous place size ↔ Intervals place size := by
  have h := @nrankContinuous_iff place size 0 [] (-1) (by simp) (by simp)
    (fun _ _ _ _ _ hc => absurd hc (by omega))
  rwa [Nat.zero_add] at h

/-! ### Order of first appearance -/

/-- Dense numbers below `count` for the values that the ranks below `size` have, in the order in
    which these appear. -/
structure FirstAppearance (value : ℕ → ℤ) (size : ℕ) (dense : ℕ → ℕ) (count : ℕ) : Prop where
  lt : ∀ i < size, dense i < count
  onto : ∀ k < count, ∃ i < size, dense i = k
  eq_iff : ∀ i < size, ∀ j < size, dense i = dense j ↔ value i = value j
  lt_iff : ∀ i < size, ∀ j < size,
    dense i < dense j ↔ ∃ i' < size, value i' = value i ∧ ∀ j' ≤ i', value j' ≠ value j

theorem exists_foldl_hashPut : ∀ (ks hash : List ℤ), ∃ more, ks.foldl hashPut hash = hash ++ more
  | [], hash => ⟨[], by simp⟩
  | key :: ks, hash => by
    obtain ⟨more, hmore⟩ := exists_foldl_hashPut ks (hashPut hash key)
    rw [List.foldl_cons, hmore, hashPut]
    split_ifs
    · exact ⟨more, rfl⟩
    · exact ⟨key :: more, by simp⟩

/-- The hash that `ucg_topo_fill_id_hash` makes of all the values. -/
def hashOf (value : ℕ → ℤ) (size : ℕ) : List ℤ := ((List.range size).map value).foldl hashPut []

section First

variable {value : ℕ → ℤ} {size : ℕ}

theorem nodup_hashOf : (hashOf value size).Nodup := nodup_foldl_hashPut List.nodup_nil

theorem mem_hashOf {k : ℤ} : k ∈ hashOf value size ↔ ∃ i < size, value i = k := by
  rw [hashOf, mem_foldl_hashPut]
  simp

/-- The values of the first ranks have the first numbers. -/
theorem exists_hashOf {n : ℕ} (hn : n ≤ size) :
    ∃ more, hashOf value size = hashOf value n ++ more := by
  obtain ⟨m, rfl⟩ := Nat.exists_eq_add_of_le hn
  rw [hashOf, List.range_add, List.map_append, List.foldl_append]
  exact exists_foldl_hashPut _ _

/-- A value that appears before another one has the smaller number. -/
theorem idxOf_lt_idxOf {i j : ℕ} (hi : i < size) (hbefore : ∀ j' ≤ i, value j' ≠ value j) :
    (hashOf value size).idxOf (value i) < (hashOf value size).idxOf (value j) := by
  obtain ⟨more, hmore⟩ : ∃ more, hashOf value size = hashOf value (i + 1) ++ more :=
    exists_hashOf (Nat.succ_le_of_lt hi)
  have hin : value i ∈ hashOf value (i + 1) := mem_hashOf.mpr ⟨i, by omega, rfl⟩
  have hout : value j ∉ hashOf value (i + 1) := by
    rw [mem_hashOf]
    rintro ⟨j', hj', heq⟩
    exact hbefore j' (by omega) heq
  rw [hmore, List.idxOf_append_of_mem hin, List.idxOf_append_of_notMem hout]
  exact Nat.lt_add_right _ (List.idxOf_lt_length_iff.mpr hin)

theorem firstAppearance_hashOf : FirstAppearance value size
    (fun i => (hashOf value size).idxOf (value i)) (hashOf value size).length where
  lt i hi := List.idxOf_lt_length_iff.mpr (mem_hashOf.mpr ⟨i, hi, rfl⟩)
  onto k hk := by
    obtain ⟨i, hi, hkey⟩ := mem_hashOf.mp (List.getElem_mem hk)
    refine ⟨i, hi, ?_⟩
    rw [hkey]
    exact nodup_hashOf.idxOf_getElem k hk
  eq_iff i hi j _ := List.idxOf_inj (mem_hashOf.mpr ⟨i, hi, rfl⟩)
  lt_iff i hi j hj := by
    constructor
    · intro hlt
      -- the first rank with the value of `i`
      have hex : ∃ n, value n = value i := ⟨i, rfl⟩
      refine ⟨Nat.find hex, (Nat.find_min' hex rfl).trans_lt hi, Nat.find_spec hex, ?_⟩
      intro j' hj' heq
      have hfirst : ∀ m ≤ j', value m ≠ value i := by
        intro m hm hmi
        have hle := Nat.find_min' hex hmi
        obtain rfl : m = j' := by omega
        rw [← hmi, heq] at hlt
        exact lt_irrefl _ hlt
      have hj'size : j' < size := hj'.trans_lt ((Nat.find_min' hex rfl).trans_lt hi)
      have hless := idxOf_lt_idxOf hj'size hfirst
      rw [heq] at hless
      exact lt_asymm hlt hless
    · rintro ⟨i', hi', heq, hbefore⟩
      rw [← heq]
      exact idxOf_lt_idxOf hi' hbefore

end First

/-! ### Numbers of ranks -/

section Ppx

variable {κ : Type} [DecidableEq κ] {key : ℕ → κ} {size : ℕ}

/-- A number that tells how many ranks have the key of each rank, if that is one number, and that
    the numbers differ otherwise. -/
def IsPpx (key : ℕ → κ) (size : ℕ) (ppx : ℤ) : Prop :=
  (∀ p : ℕ, ppx = p ↔ ∀ i < size, classSize key size (key i) = p) ∧
  (ppx = ppxUnbalanced ↔ ¬ ∃ p, ∀ i < size, classSize key size (key i) = p)

theorem calcPpx_eq {p : ℕ} : ∀ {cnts : List ℕ} {res : ℕ}, (res = 0 ∨ res = p) →
    (∀ cnt ∈ cnts, cnt ≠ 0 → cnt = p) → (res = p ∨ p ∈ cnts) → calcPpx cnts res = p
  | [], res, _, _, hp => by
    rcases hp with rfl | hp
    · rfl
    · exact absurd hp List.not_mem_nil
  | cnt :: cnts, res, hres, hall, hp => by
    obtain ⟨hcnt, hall⟩ := List.forall_mem_cons.mp hall
    rw [calcPpx]
    split_ifs with hzero hnone hne
    · refine calcPpx_eq hres hall ?_
      rcases hp with hp | hp
      · exact .inl hp
      · rcases List.mem_cons.mp hp with rfl | hp
        · exact .inl (hres.elim (fun h => h.trans hzero.symm) id)
        · exact .inr hp
    · exact calcPpx_eq (.inr (hcnt hzero)) hall (.inl (hcnt hzero))
    · exact absurd ((hcnt hzero).trans (hres.resolve_left hnone).symm) hne
    · exact calcPpx_eq hres hall (.inl (hres.resolve_left hnone))

theorem calcPpx_cases : ∀ (cnts : List ℕ) (res : ℕ),
    calcPpx cnts res = ppxUnbalanced ∨ ∃ p : ℕ, calcPpx cnts res = p
  | [], res => .inr ⟨res, rfl⟩
  | cnt :: cnts, res => by
    rw [calcPpx]
    split_ifs
    · exact calcPpx_cases cnts res
    · exact calcPpx_cases cnts cnt
    · exact .inl rfl
    · exact calcPpx_cases cnts res

theorem classSize_congr {idx : ℕ → ℕ} (hkey : ∀ i < size, ∀ j < size, idx i = idx j ↔ key i = key j)
    {i : ℕ} (hi : i < size) : classSize idx size (idx i) = classSize key size (key i) := by
  rw [classSize, classSize, ← countP_range, ← countP_range]
  refine List.countP_congr fun j hj => ?_
  simp only [decide_eq_true_eq]
  exact hkey j (List.mem_range.mp hj) i hi

/-- The comparison of the counts, where every rank is counted at the index of its key. -/
theorem isPpx_calcPpx {idx : ℕ → ℕ} {n : ℕ} (hlt : ∀ i < size, idx i < n) (hpos : 0 < size)
    (hkey : ∀ i < size, ∀ j < size, idx i = idx j ↔ key i = key j) :
    IsPpx key size
      (calcPpx (processCnt n ((List.range size).map fun i => (idx i : ℤ))) 0) := by
  have hget (k : ℕ) (hk : k < n) : (processCnt n ((List.range size).map fun i => (idx i : ℤ)))[k]? =
      some (classSize idx size k) := by
    rw [processCnt_getElem? hk, List.countP_map, classSize, ← countP_range]
    rfl
  have hmem (i : ℕ) (hi : i < size) : classSize key size (key i) ∈
      processCnt n ((List.range size).map fun i => (idx i : ℤ)) := by
    rw [← classSize_congr hkey hi]
    exact List.mem_of_getElem? (hget _ (hlt i hi))
  have hall {p : ℕ} : (∀ cnt ∈ processCnt n ((List.range size).map fun i => (idx i : ℤ)),
      cnt ≠ 0 → cnt = p) ↔ ∀ i < size, classSize key size (key i) = p := by
    constructor
    · exact fun h i hi => h _ (hmem i hi) (classSize_pos key hi).ne'
    · intro h cnt hcnt hnz
      obtain ⟨k, hk, rfl⟩ := List.mem_iff_getElem.mp hcnt
      rw [length_processCnt] at hk
      have hk' := hget k hk
      rw [List.getElem?_eq_getElem (by simpa using hk), Option.some.injEq] at hk'
      rw [hk'] at hnz ⊢
      obtain ⟨i, hi, rfl, -⟩ := exists_placeOf idx (Nat.pos_of_ne_zero hnz)
      rw [classSize_congr hkey hi, h i hi]
  have hiff (p : ℕ) : calcPpx (processCnt n ((List.range size).map fun i => (idx i : ℤ))) 0 = p ↔
      ∀ i < size, classSize key size (key i) = p :=
    ⟨fun h => hall.mp (calcPpx_spec h).2, fun h =>
      calcPpx_eq (.inl rfl) (hall.mpr h) (.inr (h 0 hpos ▸ hmem 0 hpos))⟩
  refine ⟨hiff, fun hun => ?_, fun hnone => ?_⟩
  · rintro ⟨p, hp⟩
    rw [(hiff p).mpr hp] at hun
    exact absurd hun (by simp [ppxUnbalanced])
  · rcases calcPpx_cases (processCnt n ((List.range size).map fun i => (idx i : ℤ))) 0 with h |
      ⟨p, h⟩
    · exact h
    · exact absurd ⟨p, (hiff p).mp h⟩ hnone

end Ppx

/-! ### All of it -/

section Detail

variable {place : ℕ → Location} {size : ℕ} {key : Location → Option ℤ} {fresh : ℕ → TopoLocation}

theorem mem_topoFillIdHash {k : ℤ} :
    k ∈ topoFillIdHash place size key ↔ ∃ i < size, key (place i) = some k := by
  rw [topoFillIdHash, mem_foldl_hashPut]
  simp

theorem length_topoFillIdHash_eq_zero :
    (topoFillIdHash place size key).length = 0 ↔ ∀ i < size, key (place i) = none := by
  rw [List.length_eq_zero_iff, List.eq_nil_iff_forall_not_mem]
  constructor
  · intro h i hi
    rcases hkey : key (place i) with _ | k
    · rfl
    · exact absurd (mem_topoFillIdHash.mpr ⟨i, hi, hkey⟩) (h k)
  · intro h k hk
    obtain ⟨i, hi, hkey⟩ := mem_topoFillIdHash.mp hk
    exact nomatch (h i hi).symm.trans hkey

/-- When all ranks have the key, all values are put. -/
theorem topoFillIdHash_eq {value : ℕ → ℤ} (hkey : ∀ i < size, key (place i) = some (value i)) :
    topoFillIdHash place size key = hashOf value size := by
  rw [topoFillIdHash, hashOf]
  congr 1
  rw [← List.filterMap_eq_map]
  exact List.filterMap_congr fun i hi => hkey i (List.mem_range.mp hi)

theorem length_hashOf {value : ℕ → ℤ} :
    (hashOf value size).length = ((Finset.range size).image value).card := by
  rw [← List.toFinset_card_of_nodup nodup_hashOf]
  congr 1
  ext k
  rw [List.mem_toFinset, Finset.mem_image]
  simpa using mem_hashOf

theorem mem_locations {l : TopoLocation} : l ∈ (topoInitDetail fresh place size).locations ↔
    ∃ i < size, l =
      { nodeId := (nodeKey (place i)).elim (fresh i).nodeId
          fun key => (topoFillIdHash place size nodeKey).idxOf key
        socketId := (socketKey (place i)).elim (fresh i).socketId
          fun key => (topoFillIdHash place size socketKey).idxOf key } := by
  simp [topoInitDetail, eq_comm]

theorem nodeKey_eq_none {l : Location} : nodeKey l = none ↔ ¬ l.hasNodeId := by
  simp [nodeKey]

theorem socketKey_eq_none {l : Location} : socketKey l = none ↔ ¬ l.hasSocketId := by
  simp [socketKey]

/-- No rank has a node id, or all have. -/
theorem ppnFits_iff : (∀ fresh, PpnFits (topoInitDetail fresh place size)) ↔
    (∀ i < size, ¬ (place i).hasNodeId) ∨ ∀ i < size, (place i).hasNodeId := by
  have hzero (fresh : ℕ → TopoLocation) : (topoInitDetail fresh place size).nnode = 0 ↔
      ∀ i < size, ¬ (place i).hasNodeId := by
    simp only [← nodeKey_eq_none]
    exact length_topoFillIdHash_eq_zero
  constructor
  · intro hfits
    rcases hfits fun _ => ⟨-1, -1⟩ with hnone | hall
    · exact .inl ((hzero _).mp hnone)
    · refine .inr fun i hi => ?_
      by_contra hnot
      -- the field of this rank has not been written
      have hin := (hall _ (mem_locations.mpr ⟨i, hi, rfl⟩)).1
      rw [nodeKey_eq_none.mpr hnot] at hin
      exact absurd (show (0 : ℤ) ≤ -1 from hin) (by decide)
  · rintro (hnone | hall) fresh
    · exact .inl ((hzero fresh).mpr hnone)
    · refine .inr fun l hl => ?_
      obtain ⟨i, hi, rfl⟩ := mem_locations.mp hl
      have hkey : nodeKey (place i) = some (place i).nodeId := if_pos (hall i hi)
      have hmem := mem_topoFillIdHash.mpr ⟨i, hi, hkey⟩
      rw [hkey]
      exact ⟨Int.natCast_nonneg _, Int.ofNat_lt.mpr (List.idxOf_lt_length_iff.mpr hmem)⟩

/-- The indices of ranks that have both ids. -/
theorem cell_lt (hids : HasIds place size) {i : ℕ} (hi : i < size) :
    nodeOf place size i * (topoFillIdHash place size socketKey).length + socketOf place size i <
      (topoFillIdHash place size nodeKey).length *
        (topoFillIdHash place size socketKey).length := by
  have hnode := nodeOf_lt hids hi
  have hsocket := socketOf_lt hids hi
  calc nodeOf place size i * (topoFillIdHash place size socketKey).length + socketOf place size i
      < (nodeOf place size i + 1) * (topoFillIdHash place size socketKey).length := by
        rw [Nat.add_one_mul]
        omega
    _ ≤ _ := Nat.mul_le_mul_right _ hnode

/-- The number of nodes and that of sockets. -/
theorem length_hashes (hids : HasIds place size) :
    (topoFillIdHash place size nodeKey).length =
      ((Finset.range size).image fun i => (place i).nodeId).card ∧
    (topoFillIdHash place size socketKey).length =
      ((Finset.range size).image fun i => (place i).socketId).card := by
  have hnode : topoFillIdHash place size nodeKey = hashOf (fun i => (place i).nodeId) size :=
    topoFillIdHash_eq fun i hi => if_pos (hids i hi).1
  have hsocket : topoFillIdHash place size socketKey = hashOf (fun i => (place i).socketId) size :=
    topoFillIdHash_eq fun i hi => if_pos (hids i hi).2
  rw [hnode, hsocket, length_hashOf, length_hashOf]
  exact ⟨rfl, rfl⟩

/-- No rank has a socket id, or all have both ids, and the counters can be numbered. -/
def SocketsFit (place : ℕ → Location) (size : ℕ) : Prop :=
  (∀ i < size, ¬ (place i).hasSocketId) ∨ HasIds place size ∧
    ((Finset.range size).image fun i => (place i).nodeId).card *
      ((Finset.range size).image fun i => (place i).socketId).card < 2 ^ 31

theorem ppsFits_iff : (∀ fresh, PpsFits (topoInitDetail fresh place size)) ↔
    SocketsFit place size := by
  have hzero (fresh : ℕ → TopoLocation) : (topoInitDetail fresh place size).nsocket = 0 ↔
      ∀ i < size, ¬ (place i).hasSocketId := by
    simp only [← socketKey_eq_none]
    exact length_topoFillIdHash_eq_zero
  constructor
  · intro hfits
    by_cases hnone : ∀ i < size, ¬ (place i).hasSocketId
    · exact .inl hnone
    · set nn := (topoFillIdHash place size nodeKey).length with hnn
      set ns := (topoFillIdHash place size socketKey).length with hns
      have hall (fresh : ℕ → TopoLocation) := (hfits fresh).resolve_left fun h =>
        hnone ((hzero fresh).mp h)
      have hids : HasIds place size := by
        intro i hi
        by_contra hnot
        -- fields that give a negative index, whatever the other one is
        have hin := ((hall fun _ => ⟨-1, -(nn * ns) - 1⟩).2 _
          (mem_locations.mpr ⟨i, hi, rfl⟩)).2.2.1
        have hnonneg : (0 : ℤ) ≤ nn * ns := by positivity
        rcases hn : nodeKey (place i) with _ | k <;> rcases hs : socketKey (place i) with _ | t <;>
          rw [hn, hs] at hin
        · have hin : (0 : ℤ) ≤ -1 * ns + (-(nn * ns) - 1) := hin
          omega
        · have hin : (0 : ℤ) ≤ -1 * ns + (topoFillIdHash place size socketKey).idxOf t := hin
          have hlt := List.idxOf_lt_length_iff.mpr (mem_topoFillIdHash.mpr ⟨i, hi, hs⟩)
          omega
        · have hin : (0 : ℤ) ≤ (topoFillIdHash place size nodeKey).idxOf k * ns +
            (-(nn * ns) - 1) :=
            hin
          have hle : ((topoFillIdHash place size nodeKey).idxOf k * ns : ℤ) ≤ nn * ns := by
            exact_mod_cast Nat.mul_le_mul_right ns List.idxOf_le_length
          omega
        · refine hnot ⟨?_, ?_⟩
          · by_contra hno
            rw [nodeKey_eq_none.mpr hno] at hn
            exact nomatch hn
          · by_contra hno
            rw [socketKey_eq_none.mpr hno] at hs
            exact nomatch hs
      refine .inr ⟨hids, ?_⟩
      obtain ⟨hnodes, hsockets⟩ := length_hashes hids
      rw [← hnodes, ← hsockets]
      exact_mod_cast (hall fun _ => ⟨0, 0⟩).1
  · rintro (hnone | ⟨hids, hlt⟩) fresh
    · exact .inl ((hzero fresh).mpr hnone)
    · obtain ⟨hnodes, hsockets⟩ := length_hashes hids
      rw [← hnodes, ← hsockets] at hlt
      refine .inr ⟨by exact_mod_cast hlt, fun l hl => ?_⟩
      obtain ⟨i, hi, rfl⟩ := mem_locations.mp hl
      have hcell := cell_lt hids hi
      have hn : nodeKey (place i) = some (place i).nodeId := if_pos (hids i hi).1
      have hs : socketKey (place i) = some (place i).socketId := if_pos (hids i hi).2
      rw [hn, hs]
      change -2 ^ 31 ≤ (nodeOf place size i : ℤ) * (topoFillIdHash place size socketKey).length ∧
        (nodeOf place size i : ℤ) * (topoFillIdHash place size socketKey).length < 2 ^ 31 ∧
        0 ≤ (nodeOf place size i : ℤ) * (topoFillIdHash place size socketKey).length +
          socketOf place size i ∧
        (nodeOf place size i : ℤ) * (topoFillIdHash place size socketKey).length +
          socketOf place size i <
          (topoFillIdHash place size nodeKey).length * (topoFillIdHash place size socketKey).length
      norm_cast
      omega

/-- The locations of ranks that have their ids. -/
theorem locations_map (hids : HasIds place size) (f : TopoLocation → ℤ) :
    (topoInitDetail fresh place size).locations.map f =
      (List.range size).map fun i => f ⟨nodeOf place size i, socketOf place size i⟩ := by
  refine List.ext_getElem? fun i => ?_
  by_cases hi : i < size
  · rw [List.getElem?_map, locations_getElem? hids fresh hi]
    simp [hi]
  · rw [List.getElem?_eq_none (by simp [topoInitDetail]; omega),
      List.getElem?_eq_none (by simp; omega)]

/-- Ranks with one index have one node and one socket. -/
theorem cell_eq_iff (hids : HasIds place size) {i j : ℕ} (hi : i < size) (hj : j < size) :
    nodeOf place size i * (topoFillIdHash place size socketKey).length + socketOf place size i =
      nodeOf place size j * (topoFillIdHash place size socketKey).length + socketOf place size j ↔
    ((place i).nodeId, (place i).socketId) = ((place j).nodeId, (place j).socketId) := by
  have hi' := socketOf_lt hids hi
  have hj' := socketOf_lt hids hj
  rw [Prod.mk.injEq, ← nodeOf_eq_iff hids hi (j := j), ← socketOf_eq_iff hids hi (j := j)]
  constructor
  · intro h
    have hdiv := congrArg (· / (topoFillIdHash place size socketKey).length) h
    simp only [Nat.add_comm (_ * _), Nat.add_mul_div_right _ _ (Nat.zero_lt_of_lt hi'),
      Nat.div_eq_of_lt hi', Nat.div_eq_of_lt hj', Nat.zero_add] at hdiv
    rw [hdiv] at h
    exact ⟨hdiv, Nat.add_left_cancel h⟩
  · rintro ⟨hnode, hsocket⟩
    rw [hnode, hsocket]

/-- The detail of a topology, and what is counted with it, are as they should be. -/
structure CountersRight (fresh : ℕ → TopoLocation) (place : ℕ → Location) (size : ℕ) : Prop where
  nodes : ∃ dense, FirstAppearance (fun i => (place i).nodeId) size dense
      (topoInitDetail fresh place size).nnode ∧
    (topoInitDetail fresh place size).locations.map TopoLocation.nodeId =
      (List.range size).map fun i => (dense i : ℤ)
  sockets : ∃ dense, FirstAppearance (fun i => (place i).socketId) size dense
      (topoInitDetail fresh place size).nsocket ∧
    (topoInitDetail fresh place size).locations.map TopoLocation.socketId =
      (List.range size).map fun i => (dense i : ℤ)
  ppn : ∃ ppn, topoCheckedPpn (topoInitDetail fresh place size) = .ok ppn ∧
    IsPpx (fun i => (place i).nodeId) size ppn
  pps : ∃ pps, topoCheckedPps (topoInitDetail fresh place size) = .ok pps ∧
    IsPpx (fun i => ((place i).nodeId, (place i).socketId)) size pps
  continuous : topoNrankContinuous place size ↔ Intervals place size

theorem firstAppearance_nodeOf (hids : HasIds place size) :
    FirstAppearance (fun i => (place i).nodeId) size (nodeOf place size)
      (topoFillIdHash place size nodeKey).length := by
  have heq : topoFillIdHash place size nodeKey = hashOf (fun i => (place i).nodeId) size :=
    topoFillIdHash_eq fun i hi => if_pos (hids i hi).1
  have hfun : nodeOf place size = fun i =>
      (hashOf (fun i => (place i).nodeId) size).idxOf (place i).nodeId := by
    funext i
    rw [nodeOf, heq]
  rw [hfun, heq]
  exact firstAppearance_hashOf

theorem firstAppearance_socketOf (hids : HasIds place size) :
    FirstAppearance (fun i => (place i).socketId) size (socketOf place size)
      (topoFillIdHash place size socketKey).length := by
  have heq : topoFillIdHash place size socketKey = hashOf (fun i => (place i).socketId) size :=
    topoFillIdHash_eq fun i hi => if_pos (hids i hi).2
  have hfun : socketOf place size = fun i =>
      (hashOf (fun i => (place i).socketId) size).idxOf (place i).socketId := by
    funext i
    rw [socketOf, heq]
  rw [hfun, heq]
  exact firstAppearance_hashOf

theorem countersRight (hids : HasIds place size) (hpos : 0 < size)
    (hppn : PpnFits (topoInitDetail fresh place size))
    (hpps : PpsFits (topoInitDetail fresh place size)) : CountersRight fresh place size where
  nodes := ⟨_, firstAppearance_nodeOf hids, locations_map hids _⟩
  sockets := ⟨_, firstAppearance_socketOf hids, locations_map hids _⟩
  ppn := by
    refine ⟨_, topoCheckedPpn_eq_ok.mpr ⟨hppn, rfl⟩, ?_⟩
    have hnn : (topoInitDetail fresh place size).nnode ≠ 0 :=
      (Nat.zero_lt_of_lt (nodeOf_lt hids hpos)).ne'
    rw [topoCalcPpn, if_neg hnn, locations_map hids]
    exact isPpx_calcPpx (fun i hi => nodeOf_lt hids hi) hpos fun i hi j _ => nodeOf_eq_iff hids hi
  pps := by
    refine ⟨_, topoCheckedPps_eq_ok.mpr ⟨hpps, rfl⟩, ?_⟩
    have hns : (topoInitDetail fresh place size).nsocket ≠ 0 :=
      (Nat.zero_lt_of_lt (socketOf_lt hids hpos)).ne'
    rw [topoCalcPps, if_neg hns, locations_map hids]
    have h := isPpx_calcPpx (fun i hi => cell_lt hids hi) hpos fun i hi j hj =>
      cell_eq_iff hids hi hj
    push_cast at h
    exact h
  continuous := topoNrankContinuous_iff place size

/-- The counters are right where all ranks have their ids, and within their allocations in every
    mixture, whatever the allocation of `locations` contains. -/
structure TopoRight (place : ℕ → Location) (size : ℕ) : Prop where
  counters : HasIds place size → 0 < size → ∀ fresh, CountersRight fresh place size
  within : ∀ fresh, (∃ ppn, topoCheckedPpn (topoInitDetail fresh place size) = .ok ppn) ∧
    ∃ pps, topoCheckedPps (topoInitDetail fresh place size) = .ok pps

variable (place size) in
/-- A mixture is counted within bounds just when each of the ids is nobody's or everybody's, that of
    the socket with that of the node, and the counters of the sockets can be numbered. -/
theorem topoCounters_right_iff : TopoRight place size ↔
    ((∀ i < size, ¬ (place i).hasNodeId) ∨ ∀ i < size, (place i).hasNodeId) ∧
      SocketsFit place size := by
  rw [← ppnFits_iff, ← ppsFits_iff]
  constructor
  · intro h
    refine ⟨fun fresh => ?_, fun fresh => ?_⟩
    · obtain ⟨ppn, hppn⟩ := (h.within fresh).1
      exact (topoCheckedPpn_eq_ok.mp hppn).1
    · obtain ⟨pps, hpps⟩ := (h.within fresh).2
      exact (topoCheckedPps_eq_ok.mp hpps).1
  · rintro ⟨hppn, hpps⟩
    exact ⟨fun hids hpos fresh => countersRight hids hpos (hppn fresh) (hpps fresh), fun fresh =>
      ⟨⟨_, topoCheckedPpn_eq_ok.mpr ⟨hppn fresh, rfl⟩⟩,
        ⟨_, topoCheckedPps_eq_ok.mpr ⟨hpps fresh, rfl⟩⟩⟩⟩

/-- Two ranks, of which only the first has a node id. -/
def halfPlaced (i : ℕ) : Location :=
  { hasSubnetId := false, hasNodeId := i = 0, hasSocketId := false, subnetId := 0, nodeId := 0,
    socketId := 0 }

/-- What the allocation had for the second rank is taken for its node. -/
theorem halfPlaced_not_right :
    topoCheckedPpn (topoInitDetail (fun _ => ⟨12345, 0⟩) halfPlaced 2) = .error .outside ∧
      ¬ TopoRight halfPlaced 2 := by
  refine ⟨rfl, fun h => ?_⟩
  obtain ⟨⟨ppn, hppn⟩, -⟩ := h.within fun _ => ⟨12345, 0⟩
  exact nomatch hppn

end Detail

end Kucg.Core
