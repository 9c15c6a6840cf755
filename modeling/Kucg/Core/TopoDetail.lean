import Kucg.Core.TopoRuns
import Kucg.Lib.Arrays

/-! The details of a topology: the dense ids of nodes and sockets, and how many ranks a node and a
    socket have, from `ucg_topo_fill_id_hash` to `ucg_topo_calc_ppx`.

    An id is replaced by the number of ids that were seen before it, so the ids of nodes and those
    of sockets are both numbered from 0 in the order in which the ranks come (`nodeOf`, `socketOf`).
    When the counts are balanced, every node has `ppn` ranks and every socket that a node uses has
    `pps` of them there (`Balanced`). -/

namespace Kucg.Core

open Kucg.Lib

/-! ### Dense ids -/

/-- `ucg_topo_location_t`. -/
structure TopoLocation where
  nodeId : ℤ
  socketId : ℤ
  deriving DecidableEq, Repr

/-- `ucg_hash_put` of `ucg_topo_fill_id_hash`. A hash is its keys in the order in which they were
    put: the value of a key is the size that the hash had before. -/
def hashPut (hash : List ℤ) (key : ℤ) : List ℤ := if key ∈ hash then hash else hash ++ [key]

/-- The key that `ucg_topo_fill_id_hash` looks for, if the location has it. -/
def nodeKey (location : Location) : Option ℤ :=
  if location.hasNodeId then some location.nodeId else none

@[inherit_doc nodeKey]
def socketKey (location : Location) : Option ℤ :=
  if location.hasSocketId then some location.socketId else none

/-- `ucg_topo_fill_id_hash`, when no location is refused. -/
def topoFillIdHash (place : ℕ → Location) (size : ℕ) (key : Location → Option ℤ) : List ℤ :=
  ((List.range size).filterMap fun i => key (place i)).foldl hashPut []

/-- `ucg_topo_detail_t`, without the flag of continuous ranks. -/
structure TopoDetail where
  nnode : ℕ
  nsocket : ℕ
  locations : List TopoLocation
  deriving Repr

/-- `ucg_topo_init_detail`, when nothing fails. A field of a location that its rank does not have is
    left as the allocation gave it. -/
def topoInitDetail (fresh : ℕ → TopoLocation) (place : ℕ → Location) (size : ℕ) : TopoDetail :=
  let nodeHash := topoFillIdHash place size nodeKey
  let socketHash := topoFillIdHash place size socketKey
  { nnode := nodeHash.length
    nsocket := socketHash.length
    locations := (List.range size).map fun i =>
      { nodeId := (nodeKey (place i)).elim (fresh i).nodeId fun key => nodeHash.idxOf key
        socketId := (socketKey (place i)).elim (fresh i).socketId fun key =>
          socketHash.idxOf key } }

/-! ### Counts -/

/-- `UCG_TOPO_PPX_UNBALANCED`. -/
def ppxUnbalanced : ℤ := -1

/-- `UCG_TOPO_PPX_UNKNOWN`. -/
def ppxUnknown : ℤ := -2

/-- The loop that counts the processes: `++process_cnt[i]` for every index. -/
def processCnt (size : ℕ) (indices : List ℤ) : List ℕ :=
  indices.foldl (fun cnt i => cnt.modify i.toNat (· + 1)) (List.replicate size 0)

/-- The loop that compares the counts. -/
def calcPpx : List ℕ → ℕ → ℤ
  | [], res => res
  | cnt :: cnts, res =>
    if cnt = 0 then calcPpx cnts res
    else if res = 0 then calcPpx cnts cnt
    else if cnt ≠ res then ppxUnbalanced
    else calcPpx cnts res

/-- `ucg_topo_calc_ppn`. -/
def topoCalcPpn (detail : TopoDetail) : ℤ :=
  if detail.nnode = 0 then ppxUnknown
  else calcPpx (processCnt detail.nnode (detail.locations.map TopoLocation.nodeId)) 0

/-- `ucg_topo_calc_pps`. -/
def topoCalcPps (detail : TopoDetail) : ℤ :=
  if detail.nsocket = 0 then ppxUnknown
  else calcPpx (processCnt (detail.nnode * detail.nsocket)
    (detail.locations.map fun l => l.nodeId * detail.nsocket + l.socketId)) 0

/-- `ucg_topo_get_location_id` of a node, for a rank of the group. -/
def topoGetNodeId (detail : TopoDetail) (rank : ℕ) : Except (Halt Status) ℤ :=
  return (← load detail.locations rank).nodeId

/-- `ucg_topo_get_location_id` of a socket, for a rank of the group. -/
def topoGetSocketId (detail : TopoDetail) (rank : ℕ) : Except (Halt Status) ℤ :=
  return (← load detail.locations rank).socketId

/-! ### What the ids are -/

theorem mem_foldl_hashPut {k : ℤ} : ∀ {ks hash : List ℤ},
    k ∈ ks.foldl hashPut hash ↔ k ∈ hash ∨ k ∈ ks
  | [], hash => by simp
  | key :: ks, hash => by
    rw [List.foldl_cons, mem_foldl_hashPut, hashPut]
    split_ifs with h
    · constructor
      · exact fun hk => hk.imp_right (List.mem_cons_of_mem key)
      · rintro (hk | hk)
        · exact Or.inl hk
        · rcases List.mem_cons.mp hk with rfl | hk
          · exact Or.inl h
          · exact Or.inr hk
    · simp only [List.mem_append, List.mem_cons, List.not_mem_nil, or_false, or_assoc]

theorem nodup_foldl_hashPut : ∀ {ks hash : List ℤ}, hash.Nodup → (ks.foldl hashPut hash).Nodup
  | [], _, h => h
  | key :: ks, hash, h => by
    rw [List.foldl_cons]
    refine nodup_foldl_hashPut ?_
    rw [hashPut]
    split_ifs with hkey
    · exact h
    · exact List.nodup_append.mpr ⟨h, List.nodup_singleton key, fun a ha b hb heq =>
        hkey (List.mem_singleton.mp hb ▸ heq ▸ ha)⟩

section Ids

variable (place : ℕ → Location) (size : ℕ)

/-- The dense id of a rank's node. -/
def nodeOf (i : ℕ) : ℕ := (topoFillIdHash place size nodeKey).idxOf (place i).nodeId

/-- The dense id of a rank's socket. -/
def socketOf (i : ℕ) : ℕ := (topoFillIdHash place size socketKey).idxOf (place i).socketId

/-- The dense ids of a rank's node and socket. -/
def cellOf (i : ℕ) : ℕ × ℕ := (nodeOf place size i, socketOf place size i)

variable {place size}

theorem mem_nodeHash (hids : HasIds place size) {k : ℤ} :
    k ∈ topoFillIdHash place size nodeKey ↔ ∃ i < size, (place i).nodeId = k := by
  rw [topoFillIdHash, mem_foldl_hashPut]
  simp only [List.not_mem_nil, false_or, List.mem_filterMap, List.mem_range]
  refine exists_congr fun i => and_congr_right fun hi => ?_
  rw [nodeKey, if_pos (hids i hi).1, Option.some.injEq]

theorem mem_socketHash (hids : HasIds place size) {k : ℤ} :
    k ∈ topoFillIdHash place size socketKey ↔ ∃ i < size, (place i).socketId = k := by
  rw [topoFillIdHash, mem_foldl_hashPut]
  simp only [List.not_mem_nil, false_or, List.mem_filterMap, List.mem_range]
  refine exists_congr fun i => and_congr_right fun hi => ?_
  rw [socketKey, if_pos (hids i hi).2, Option.some.injEq]

theorem nodeOf_lt (hids : HasIds place size) {i : ℕ} (hi : i < size) :
    nodeOf place size i < (topoFillIdHash place size nodeKey).length :=
  List.idxOf_lt_length_iff.mpr ((mem_nodeHash hids).mpr ⟨i, hi, rfl⟩)

theorem socketOf_lt (hids : HasIds place size) {i : ℕ} (hi : i < size) :
    socketOf place size i < (topoFillIdHash place size socketKey).length :=
  List.idxOf_lt_length_iff.mpr ((mem_socketHash hids).mpr ⟨i, hi, rfl⟩)

/-- Two ranks are on one node when the dense ids of their nodes are the same. -/
theorem nodeOf_eq_iff (hids : HasIds place size) {i j : ℕ} (hi : i < size) :
    nodeOf place size i = nodeOf place size j ↔ (place i).nodeId = (place j).nodeId :=
  ⟨fun h => (List.idxOf_inj ((mem_nodeHash hids).mpr ⟨i, hi, rfl⟩)).mp h, fun h => by
    rw [nodeOf, nodeOf, h]⟩

theorem socketOf_eq_iff (hids : HasIds place size) {i j : ℕ} (hi : i < size) :
    socketOf place size i = socketOf place size j ↔ (place i).socketId = (place j).socketId :=
  ⟨fun h => (List.idxOf_inj ((mem_socketHash hids).mpr ⟨i, hi, rfl⟩)).mp h, fun h => by
    rw [socketOf, socketOf, h]⟩

/-- Every dense id of a node is that of a rank's node. -/
theorem exists_nodeOf (hids : HasIds place size) {k : ℕ}
    (hk : k < (topoFillIdHash place size nodeKey).length) :
    ∃ i < size, nodeOf place size i = k := by
  obtain ⟨i, hi, hkey⟩ := (mem_nodeHash hids).mp (List.getElem_mem hk)
  refine ⟨i, hi, ?_⟩
  rw [nodeOf, hkey]
  exact (nodup_foldl_hashPut List.nodup_nil).idxOf_getElem k hk

/-- The first rank has the first ids. -/
theorem cellOf_zero (hids : HasIds place size) (hsize : 0 < size) :
    cellOf place size 0 = (0, 0) := by
  have hfirst (ks : List ℤ) (k : ℤ) : ((k :: ks).foldl hashPut []).idxOf k = 0 := by
    have hhead : ∀ (ks hash : List ℤ), ∃ hash', ks.foldl hashPut (k :: hash) = k :: hash' := by
      intro ks
      induction ks with
      | nil => exact fun hash => ⟨hash, rfl⟩
      | cons key ks ih =>
        intro hash
        rw [List.foldl_cons, hashPut]
        split_ifs
        · exact ih hash
        · exact ih (hash ++ [key])
    obtain ⟨hash', heq⟩ := hhead ks []
    rw [List.foldl_cons, hashPut, if_neg List.not_mem_nil, List.nil_append, heq,
      List.idxOf_cons_self]
  obtain ⟨n, rfl⟩ := Nat.exists_eq_succ_of_ne_zero hsize.ne'
  obtain ⟨hnode, hsocket⟩ := hids 0 hsize
  have hn : nodeKey (place 0) = some (place 0).nodeId := if_pos hnode
  have hs : socketKey (place 0) = some (place 0).socketId := if_pos hsocket
  simp only [cellOf, nodeOf, socketOf, topoFillIdHash, List.range_succ_eq_map,
    List.filterMap_cons, hn, hs, hfirst]

/-- The locations of ranks that have their ids are the dense ids. -/
theorem locations_getElem? (hids : HasIds place size) (fresh : ℕ → TopoLocation) {i : ℕ}
    (hi : i < size) : (topoInitDetail fresh place size).locations[i]? =
      some ⟨nodeOf place size i, socketOf place size i⟩ := by
  obtain ⟨hnode, hsocket⟩ := hids i hi
  simp [topoInitDetail, hi, nodeKey, socketKey, hnode, hsocket, nodeOf, socketOf]

end Ids

/-! ### What the counts are -/

@[simp] theorem length_processCnt (size : ℕ) : ∀ indices : List ℤ,
    (processCnt size indices).length = size := by
  suffices h : ∀ (indices : List ℤ) (cnt : List ℕ),
      (indices.foldl (fun cnt i => cnt.modify i.toNat (· + 1)) cnt).length = cnt.length from
    fun indices => (h indices _).trans List.length_replicate
  intro indices
  induction indices with
  | nil => exact fun _ => rfl
  | cons i indices ih => exact fun cnt => (ih _).trans (List.length_modify ..)

/-- A count is how often its index comes. -/
theorem processCnt_getElem? {size k : ℕ} (hk : k < size) (indices : List ℤ) :
    (processCnt size indices)[k]? = some (indices.countP fun i => i.toNat = k) := by
  suffices h : ∀ (indices : List ℤ) (cnt : List ℕ) (c : ℕ), cnt[k]? = some c →
      (indices.foldl (fun cnt i => cnt.modify i.toNat (· + 1)) cnt)[k]? =
        some (c + indices.countP fun i => i.toNat = k) by
    rw [processCnt, h indices _ 0 (by simp [hk]), Nat.zero_add]
  intro indices
  induction indices with
  | nil => exact fun cnt c hc => hc
  | cons i indices ih =>
    intro cnt c hc
    rw [List.foldl_cons, List.countP_cons]
    by_cases hi : i.toNat = k
    · rw [ih _ (c + 1) (by simp [hc, hi])]
      simp only [hi, decide_true, if_true]
      congr 1
      omega
    · rw [ih _ c (by simp [hc, hi])]
      simp [hi]

/-- When the comparison gives a number, every count that is not 0 is that number. -/
theorem calcPpx_spec {p : ℕ} : ∀ {cnts : List ℕ} {res : ℕ}, calcPpx cnts res = p →
    (res ≠ 0 → res = p) ∧ ∀ cnt ∈ cnts, cnt ≠ 0 → cnt = p
  | [], res, h => ⟨fun _ => Int.ofNat.inj h, nofun⟩
  | cnt :: cnts, res, h => by
    rw [calcPpx] at h
    split_ifs at h with hzero hres hne
    · obtain ⟨hacc, hall⟩ := calcPpx_spec h
      exact ⟨hacc, List.forall_mem_cons.mpr ⟨fun hnz => absurd hzero hnz, hall⟩⟩
    · obtain ⟨hacc, hall⟩ := calcPpx_spec h
      exact ⟨fun hnz => absurd hres hnz, List.forall_mem_cons.mpr ⟨hacc, hall⟩⟩
    · exact absurd h (by simp [ppxUnbalanced])
    · rw [not_not] at hne
      obtain ⟨hacc, hall⟩ := calcPpx_spec h
      exact ⟨hacc, List.forall_mem_cons.mpr ⟨fun hnz => hne ▸ hacc (hne ▸ hnz), hall⟩⟩

theorem countP_range (p : ℕ → Prop) [DecidablePred p] : ∀ n : ℕ,
    (List.range n).countP (fun i => p i) = Nat.count p n
  | 0 => by simp
  | n + 1 => by
    rw [List.range_succ, List.countP_append, countP_range p n, Nat.count_succ]
    by_cases hp : p n <;> simp [hp]

/-- Every node has `ppn` ranks, and every socket that a node uses has `pps` of them there. -/
structure Balanced (place : ℕ → Location) (size ppn pps : ℕ) : Prop where
  ids : HasIds place size
  pos : 0 < size
  node : ∀ k < (topoFillIdHash place size nodeKey).length,
    classSize (nodeOf place size) size k = ppn
  cell : ∀ i < size, classSize (cellOf place size) size (cellOf place size i) = pps

section Counts

variable {place : ℕ → Location} {size ppn pps : ℕ}

/-- What `ucg_topo_calc_ppx` reports when it reports numbers. -/
theorem balanced_of_calc (hids : HasIds place size) (hpos : 0 < size) (fresh : ℕ → TopoLocation)
    (hppn : topoCalcPpn (topoInitDetail fresh place size) = ppn)
    (hpps : topoCalcPps (topoInitDetail fresh place size) = pps) :
    Balanced place size ppn pps := by
  have hloc (f : TopoLocation → ℤ) : (topoInitDetail fresh place size).locations.map f =
      (List.range size).map fun i => f ⟨nodeOf place size i, socketOf place size i⟩ := by
    refine List.ext_getElem? fun i => ?_
    by_cases hi : i < size
    · rw [List.getElem?_map, locations_getElem? hids fresh hi]
      simp [hi]
    · rw [List.getElem?_eq_none (by simp [topoInitDetail]; omega),
        List.getElem?_eq_none (by simp; omega)]
  have hcount (n k : ℕ) (hk : k < n) (f : TopoLocation → ℤ) :
      (processCnt n ((topoInitDetail fresh place size).locations.map f))[k]? =
        some (Nat.count (fun i => (f ⟨nodeOf place size i, socketOf place size i⟩).toNat = k)
          size) := by
    rw [processCnt_getElem? hk, hloc, List.countP_map, ← countP_range]
    rfl
  have hnode (i) (hi : i < size) := nodeOf_lt hids hi
  have hsocket (i) (hi : i < size) := socketOf_lt hids hi
  have hnn : (topoInitDetail fresh place size).nnode ≠ 0 := (Nat.zero_lt_of_lt (hnode 0 hpos)).ne'
  have hns : (topoInitDetail fresh place size).nsocket ≠ 0 :=
    (Nat.zero_lt_of_lt (hsocket 0 hpos)).ne'
  rw [topoCalcPpn, if_neg hnn] at hppn
  rw [topoCalcPps, if_neg hns] at hpps
  refine ⟨hids, hpos, fun k hk => ?_, fun i hi => ?_⟩
  · have hmem := List.mem_of_getElem? (hcount _ k hk TopoLocation.nodeId)
    obtain ⟨i, hi, rfl⟩ := exists_nodeOf hids hk
    have hpos := classSize_pos (nodeOf place size) hi
    exact (calcPpx_spec hppn).2 _ hmem hpos.ne'
  · set ns := (topoInitDetail fresh place size).nsocket with hnsdef
    have hlt : nodeOf place size i * ns + socketOf place size i <
        (topoInitDetail fresh place size).nnode * ns := by
      have h₁ := hnode i hi
      have h₂ : socketOf place size i < ns := hsocket i hi
      calc nodeOf place size i * ns + socketOf place size i
          < (nodeOf place size i + 1) * ns := by rw [Nat.add_one_mul]; omega
        _ ≤ _ := Nat.mul_le_mul_right ns h₁
    have hmem := List.mem_of_getElem? (hcount _ _ hlt fun l => l.nodeId * ns + l.socketId)
    have heq : Nat.count (fun j => ((nodeOf place size j : ℤ) * ns + socketOf place size j).toNat =
        nodeOf place size i * ns + socketOf place size i) size =
          classSize (cellOf place size) size (cellOf place size i) := by
      rw [classSize, ← countP_range, ← countP_range]
      refine List.countP_congr fun j hj => ?_
      have h₁ : socketOf place size j < ns := hsocket j (List.mem_range.mp hj)
      have h₂ : socketOf place size i < ns := hsocket i hi
      have hcast : ((nodeOf place size j : ℤ) * ns + socketOf place size j).toNat =
          nodeOf place size j * ns + socketOf place size j := by
        rw [← Nat.cast_mul, ← Nat.cast_add, Int.toNat_natCast]
      simp only [decide_eq_true_eq, hcast, cellOf, Prod.mk.injEq]
      constructor
      · intro h
        have hdiv := congrArg (· / ns) h
        simp only [Nat.add_comm (_ * ns), Nat.add_mul_div_right _ _ (Nat.zero_lt_of_lt h₁),
          Nat.div_eq_of_lt h₁, Nat.div_eq_of_lt h₂, Nat.zero_add] at hdiv
        rw [hdiv] at h
        exact ⟨hdiv, Nat.add_left_cancel h⟩
      · rintro ⟨hn, hs⟩
        rw [hn, hs]
    rw [heq] at hmem
    have hpos := classSize_pos (cellOf place size) hi
    exact (calcPpx_spec hpps).2 _ hmem hpos.ne'

variable (h : Balanced place size ppn pps)
include h

theorem Balanced.ppn_pos : 0 < ppn := by
  rw [← h.node _ (nodeOf_lt h.ids h.pos)]
  exact classSize_pos _ h.pos

theorem Balanced.pps_pos : 0 < pps := by
  rw [← h.cell 0 h.pos]
  exact classSize_pos _ h.pos

/-- The ranks of the nodes from `N` on. -/
theorem Balanced.card_nodes (N : ℕ) :
    ((Finset.range size).filter fun i => N ≤ nodeOf place size i).card =
      ((topoFillIdHash place size nodeKey).length - N) * ppn := by
  set nnode := (topoFillIdHash place size nodeKey).length with hnn
  have hmap : ∀ i ∈ (Finset.range size).filter fun i => N ≤ nodeOf place size i,
      nodeOf place size i ∈ Finset.Ico N nnode := by
    intro i hi
    obtain ⟨hi, hN⟩ := Finset.mem_filter.mp hi
    exact Finset.mem_Ico.mpr ⟨hN, nodeOf_lt h.ids (Finset.mem_range.mp hi)⟩
  rw [Finset.card_eq_sum_card_fiberwise hmap]
  have hfib : ∀ k ∈ Finset.Ico N nnode, (((Finset.range size).filter fun i =>
      N ≤ nodeOf place size i).filter fun i => nodeOf place size i = k).card = ppn := by
    intro k hk
    obtain ⟨hN, hk⟩ := Finset.mem_Ico.mp hk
    rw [← h.node k hk, classSize_eq_card, Finset.filter_filter]
    congr 1
    refine Finset.filter_congr fun i _ => ⟨fun hi => hi.2, ?_⟩
    rintro rfl
    exact ⟨hN, rfl⟩
  rw [Finset.sum_congr rfl hfib, Finset.sum_const, Nat.card_Ico, smul_eq_mul]

theorem Balanced.size_eq : size = (topoFillIdHash place size nodeKey).length * ppn := by
  have hcard := h.card_nodes 0
  simpa using hcard

/-- A node uses a whole number of sockets. -/
theorem Balanced.dvd : pps ∣ ppn := by
  have hnode := nodeOf_lt h.ids h.pos
  rw [← h.node _ hnode, classSize_eq_card]
  have hmap : ∀ i ∈ (Finset.range size).filter fun i =>
      nodeOf place size i = nodeOf place size 0, socketOf place size i ∈
        Finset.range (topoFillIdHash place size socketKey).length := fun i hi =>
    Finset.mem_range.mpr (socketOf_lt h.ids (Finset.mem_range.mp (Finset.mem_filter.mp hi).1))
  rw [Finset.card_eq_sum_card_fiberwise hmap]
  refine Finset.dvd_sum fun t _ => ?_
  rw [Finset.filter_filter]
  rcases Finset.eq_empty_or_nonempty ((Finset.range size).filter fun i =>
    nodeOf place size i = nodeOf place size 0 ∧ socketOf place size i = t) with hempty | ⟨i, hi⟩
  · rw [hempty, Finset.card_empty]
    exact dvd_zero pps
  · obtain ⟨hrange, hn, hs⟩ := Finset.mem_filter.mp hi
    subst hs
    rw [← h.cell i (Finset.mem_range.mp hrange), classSize_eq_card]
    refine dvd_of_eq (congrArg Finset.card (Finset.filter_congr fun j _ => ?_))
    rw [cellOf, cellOf, Prod.mk.injEq, hn]

end Counts

end Kucg.Core
