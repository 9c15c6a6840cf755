import Kucg.Ucx.AlgoGroup

/-! Where the constructors of the leader groups write, when every node has `ppn` ranks and every
    socket that a node uses has `pps` of them there.

    Socket by socket, rank `i` goes to `nodeOf i * ppn + socketOf i * pps` and its place in its
    socket. Socket ids are dense over all nodes, so a node that does not use the first sockets has
    ranks that go behind its part of the array. If all ranks of the array have a slot of their own,
    no rank does: the ranks of the higher nodes fill the end of the array (`slot_lt_of_injOn`).
    So the slots are sound exactly if every dense socket id is below the number of sockets of a node
    (`leaderGroups_iff`). -/

namespace Kucg.Ucx

open Kucg.Core Kucg.Lib

/-! ### The topology groups -/

section Groups

variable {place : ℕ → Location} {size ppn pps r : ℕ}

theorem length_filter_range (p : ℕ → Prop) [DecidablePred p] (n : ℕ) :
    ((List.range n).filter fun i => p i).length = Nat.count p n := by
  rw [← countP_range, List.countP_eq_length_filter]

/-- The index of a number among those that have a property is the number of those before it. -/
theorem idxOf_filter_range (p : ℕ → Prop) [DecidablePred p] {n i : ℕ} (hi : i < n) (hp : p i) :
    ((List.range n).filter fun i => p i).idxOf i = Nat.count p i := by
  obtain ⟨k, rfl⟩ := Nat.exists_eq_add_of_lt hi
  rw [Nat.add_assoc, List.range_add, List.filter_append, List.idxOf_append_of_notMem (by simp),
    length_filter_range, List.range_succ_eq_map, List.map_cons, Nat.add_zero,
    List.filter_cons_of_pos (by simpa using hp), List.idxOf_cons_self, Nat.add_zero]

theorem topoList_node (h : Balanced place size ppn pps) :
    topoList place size r .node =
      (List.range size).filter fun i => nodeOf place size i = nodeOf place size r := by
  refine List.filter_congr fun i hi => decide_eq_decide.mpr ?_
  exact (nodeOf_eq_iff h.ids (List.mem_range.mp hi)).symm

theorem topoList_socket (h : Balanced place size ppn pps) :
    topoList place size r .socket =
      (List.range size).filter fun i => cellOf place size i = cellOf place size r := by
  refine List.filter_congr fun i hi => decide_eq_decide.mpr ?_
  have hi := List.mem_range.mp hi
  rw [cellOf, cellOf, Prod.mk.injEq, nodeOf_eq_iff h.ids hi, socketOf_eq_iff h.ids hi]

theorem length_topoList_node (h : Balanced place size ppn pps) (hr : r < size) :
    (topoList place size r .node).length = ppn := by
  rw [topoList_node h, length_filter_range]
  exact h.node _ (nodeOf_lt h.ids hr)

/-- The node group has `ppn` ranks, and is enabled if these are several. -/
theorem nodeGroup_spec (h : Balanced place size ppn pps) (hppn : 1 < ppn) (hr : r < size) :
    (topoGroupSpec place size r .node).size = ppn ∧
      (topoGroupSpec place size r .node).state = .enable := by
  have hlist : (topoGroupSpec place size r .node).Lists (topoList place size r .node) r :=
    topoGroupSpec_lists hr .node
  have hlen := length_topoList_node h hr
  have hen : (topoGroupSpec place size r .node).state = .enable :=
    hlist.enable_iff.mpr ⟨mem_topoList_node hr, by omega⟩
  exact ⟨(hlist.size hen).trans hlen, hen⟩

/-- The socket group has `pps` ranks, the own one at its place in its socket. -/
theorem socketGroup_spec (h : Balanced place size ppn pps) (hppn : 1 < ppn) (hr : r < size) :
    (topoGroupSpec place size r .socket).size = pps ∧
      signedRank (topoGroupSpec place size r .socket).myrank = placeOf (cellOf place size) r ∧
      ((topoGroupSpec place size r .socket).state = .enable ↔ 1 < pps) := by
  have halone : ¬Alone place size r := by
    rw [Alone, length_topoList_node h hr]
    omega
  have hlen : (topoList place size r .socket).length = pps := by
    rw [topoList_socket h, length_filter_range]
    exact h.cell r hr
  have hmem : r ∈ topoList place size r .socket := by
    rw [topoList_socket h]
    exact List.mem_filter.mpr ⟨List.mem_range.mpr hr, by simp⟩
  have hidx : (topoList place size r .socket).idxOf r = placeOf (cellOf place size) r := by
    rw [topoList_socket h]
    exact idxOf_filter_range (fun i => cellOf place size i = cellOf place size r) hr rfl
  rw [topoGroupSpec_eq hr, if_neg fun h => halone h.2, groupOf, myIndex, if_pos hmem, hlen, hidx]
  by_cases hpps : 1 < pps
  · rw [if_neg (by simpa using hpps)]
    exact ⟨rfl, rfl, fun _ => hpps, fun _ => rfl⟩
  · rw [if_pos (Or.inr (not_lt.mp hpps))]
    refine ⟨rfl, rfl, fun h => ?_, fun h => absurd h hpps⟩
    simp at h

end Groups

/-! ### Slots -/

section Slots

variable (place : ℕ → Location) (size ppn pps : ℕ)

/-- The counter of a rank when the ranks of a node are numbered socket by socket. -/
def counterOf (i : ℕ) : ℕ := nodeOf place size i * ppn + socketOf place size i

/-- Where a rank goes when the ranks of a node are numbered socket by socket. -/
def socketSlot (i : ℕ) : ℕ :=
  nodeOf place size i * ppn + socketOf place size i * pps + placeOf (counterOf place size ppn) i

/-- Where a rank goes when the ranks of a node are numbered as they come. -/
def nodeSlot (i : ℕ) : ℕ := nodeOf place size i * ppn + placeOf (nodeOf place size) i

variable {place size ppn pps}

section Accesses

variable (hids : HasIds place size) (fresh : ℕ → TopoLocation) {i : ℕ} (hi : i < size)
include hids hi

theorem topoGetNodeId_eq : topoGetNodeId (topoInitDetail fresh place size) i =
    .ok (nodeOf place size i : ℤ) := by
  rw [topoGetNodeId, load_natCast (locations_getElem? hids fresh hi)]
  rfl

theorem topoGetSocketId_eq : topoGetSocketId (topoInitDetail fresh place size) i =
    .ok (socketOf place size i : ℤ) := by
  rw [topoGetSocketId, load_natCast (locations_getElem? hids fresh hi)]
  rfl

/-- A pass of the loop that numbers the ranks socket by socket. -/
theorem fillRank_eq_ok {s s' : List ℕ × List ℕ} :
    fillRank (topoInitDetail fresh place size) ppn pps s i = .ok s' ↔
      ∃ c, s.1[counterOf place size ppn i]? = some c ∧
        nodeOf place size i * ppn + socketOf place size i * pps + c < s.2.length ∧
        s' = (s.1.set (counterOf place size ppn i) (c + 1),
          s.2.set (nodeOf place size i * ppn + socketOf place size i * pps + c) i) := by
  have hcounter : (nodeOf place size i : ℤ) * ppn + socketOf place size i =
      (counterOf place size ppn i : ℕ) := by
    rw [counterOf]
    push_cast
    rfl
  have hslot (c : ℕ) : (nodeOf place size i : ℤ) * ppn + socketOf place size i * pps + c =
      (nodeOf place size i * ppn + socketOf place size i * pps + c : ℕ) := by
    push_cast
    rfl
  rw [fillRank, topoGetNodeId_eq hids fresh hi, bind_eq_ok]
  constructor
  · rintro ⟨_, hnode, h⟩
    obtain rfl := Except.ok.inj hnode
    obtain ⟨_, hsocket, h⟩ := bind_eq_ok.mp h
    rw [topoGetSocketId_eq hids fresh hi] at hsocket
    obtain rfl := Except.ok.inj hsocket
    rw [if_neg (by omega)] at h
    obtain ⟨c, hc, h⟩ := bind_eq_ok.mp h
    obtain ⟨offsets, ho, h⟩ := bind_eq_ok.mp h
    obtain ⟨globalRanks, hg, h⟩ := bind_eq_ok.mp h
    rw [hcounter] at hc ho
    rw [hslot] at hg
    obtain ⟨-, -, rfl⟩ := store_eq_ok.mp ho
    obtain ⟨-, hlen, rfl⟩ := store_eq_ok.mp hg
    exact ⟨c, (load_eq_ok.mp hc).2, hlen, (Except.ok.inj h).symm⟩
  · rintro ⟨c, hc, hlen, rfl⟩
    refine ⟨_, rfl, bind_eq_ok.mpr ⟨_, topoGetSocketId_eq hids fresh hi, ?_⟩⟩
    rw [if_neg (by omega), hcounter, load_natCast hc]
    refine bind_eq_ok.mpr ⟨c, rfl, bind_eq_ok.mpr ⟨_, store_natCast _ ?_, ?_⟩⟩
    · exact (List.getElem?_eq_some_iff.mp hc).1
    · rw [hslot]
      exact bind_eq_ok.mpr ⟨_, store_natCast _ hlen, rfl⟩

end Accesses

variable (place size ppn pps) in
/-- The state of the loop that numbers the ranks socket by socket, after the ranks below `i`. -/
def Filled (i : ℕ) (s : List ℕ × List ℕ) : Prop :=
  Lib.Counted (counterOf place size ppn) (socketSlot place size ppn pps) size i s.1 s.2

theorem filled_zero : Filled place size ppn pps 0 (List.replicate size 0, List.replicate size 0) :=
  Lib.Counted.zero

/-- What the array has when the loop comes to its end. -/
theorem socketOrder_counted (hids : HasIds place size) (fresh : ℕ → TopoLocation) {g : List ℕ}
    (h : socketOrder (topoInitDetail fresh place size) size ppn pps = .ok g) : ∃ counters,
      Lib.Counted (counterOf place size ppn)
        (socketSlot place size ppn pps) size size counters g := by
  rw [socketOrder] at h
  obtain ⟨s, hs, h⟩ := bind_eq_ok.mp h
  obtain rfl := Except.ok.inj h
  refine ⟨s.1, foldlM_range_inv (Filled place size ppn pps) filled_zero
    (fun i hi s s' (hinv : Lib.Counted ..) hstep => ?_) hs⟩
  obtain ⟨c, hc, hlen, rfl⟩ := (fillRank_eq_ok hids fresh hi).mp hstep
  have hkey : counterOf place size ppn i < size :=
    (List.getElem?_eq_some_iff.mp hc).1.trans_eq hinv.length_counters
  obtain rfl := Option.some.inj (hc.symm.trans (hinv.load hkey))
  exact hinv.succ hkey (hinv.length_written ▸ hlen)

/-- The loop comes to its end if all ranks have their counter and their slot in the arrays. -/
theorem socketOrder_ok (hids : HasIds place size) (fresh : ℕ → TopoLocation)
    (hbound : ∀ i < size, counterOf place size ppn i < size ∧
      socketSlot place size ppn pps i < size) :
    ∃ g, socketOrder (topoInitDetail fresh place size) size ppn pps = .ok g := by
  obtain ⟨s, hs, -⟩ := foldlM_range_ok (fillRank (topoInitDetail fresh place size) ppn pps)
    (Filled place size ppn pps) _ size filled_zero fun i hi s (hinv : Lib.Counted ..) => by
      obtain ⟨hkey, hslot⟩ := hbound i hi
      exact ⟨_, (fillRank_eq_ok hids fresh hi).mpr ⟨_, hinv.load hkey,
        by rw [hinv.length_written]; exact hslot, rfl⟩, hinv.succ hkey hslot⟩
  exact ⟨s.2, by rw [socketOrder, hs]; rfl⟩

/-- The quotient and the remainder of a number in the part of its node. -/
theorem part_inj {N N' x x' : ℕ} (hx : x < ppn) (hx' : x' < ppn)
    (h : N * ppn + x = N' * ppn + x') : N = N' ∧ x = x' := by
  have hppn : 0 < ppn := Nat.zero_lt_of_lt hx
  have hdiv := congrArg (· / ppn) h
  simp only [Nat.mul_comm _ ppn, Nat.mul_add_div hppn, Nat.div_eq_of_lt hx,
    Nat.div_eq_of_lt hx', Nat.add_zero] at hdiv
  rw [hdiv] at h
  exact ⟨hdiv, Nat.add_left_cancel h⟩

/-- A number in the part of a node is in the array. -/
theorem part_lt (h : Balanced place size ppn pps) {i x : ℕ} (hi : i < size) (hx : x < ppn) :
    nodeOf place size i * ppn + x < size := by
  calc nodeOf place size i * ppn + x
      < (nodeOf place size i + 1) * ppn := by rw [Nat.add_one_mul]; omega
    _ ≤ (topoFillIdHash place size nodeKey).length * ppn :=
      Nat.mul_le_mul_right ppn (nodeOf_lt h.ids hi)
    _ = size := h.size_eq.symm

section Sockets

variable (hsocket : ∀ i < size, socketOf place size i < ppn / pps)
include hsocket

theorem socket_lt_ppn {i : ℕ} (hi : i < size) : socketOf place size i < ppn :=
  (hsocket i hi).trans_le (Nat.div_le_self ppn pps)

/-- A counter belongs to one socket of one node. -/
theorem counterOf_eq_iff {i j : ℕ} (hi : i < size) (hj : j < size) :
    counterOf place size ppn i = counterOf place size ppn j ↔
      cellOf place size i = cellOf place size j := by
  rw [cellOf, cellOf, Prod.mk.injEq]
  constructor
  · exact part_inj (socket_lt_ppn hsocket hi) (socket_lt_ppn hsocket hj)
  · rintro ⟨hn, hs⟩
    rw [counterOf, counterOf, hn, hs]

theorem placeOf_counterOf {i : ℕ} (hi : i < size) :
    placeOf (counterOf place size ppn) i = placeOf (cellOf place size) i :=
  le_antisymm
    (Nat.count_mono_left fun _ hj => (counterOf_eq_iff hsocket (hj.trans hi) hi).mp)
    (Nat.count_mono_left fun _ hj => (counterOf_eq_iff hsocket (hj.trans hi) hi).mpr)

theorem socketSlot_eq {i : ℕ} (hi : i < size) : socketSlot place size ppn pps i =
    nodeOf place size i * ppn +
      (socketOf place size i * pps + placeOf (cellOf place size) i) := by
  rw [socketSlot, placeOf_counterOf hsocket hi, Nat.add_assoc]

variable (h : Balanced place size ppn pps)
include h

/-- A slot is in the part of the node, and in it in the part of the socket. -/
theorem socketPart_lt {i : ℕ} (hi : i < size) : placeOf (cellOf place size) i < pps ∧
    socketOf place size i * pps + placeOf (cellOf place size) i < ppn := by
  have hplace : placeOf (cellOf place size) i < pps := (placeOf_lt hi).trans_eq (h.cell i hi)
  refine ⟨hplace, ?_⟩
  calc socketOf place size i * pps + placeOf (cellOf place size) i
      < (socketOf place size i + 1) * pps := by rw [Nat.add_one_mul]; omega
    _ ≤ ppn / pps * pps := Nat.mul_le_mul_right pps (hsocket i hi)
    _ ≤ ppn := Nat.div_mul_le_self ppn pps

theorem socketSlot_bound {i : ℕ} (hi : i < size) :
    counterOf place size ppn i < size ∧ socketSlot place size ppn pps i < size := by
  refine ⟨part_lt h hi (socket_lt_ppn hsocket hi), ?_⟩
  rw [socketSlot_eq hsocket hi]
  exact part_lt h hi (socketPart_lt hsocket h hi).2

/-- No two ranks have one slot. -/
theorem socketSlot_injOn : Set.InjOn (socketSlot place size ppn pps) (Set.Iio size) := by
  intro i hi j hj heq
  obtain ⟨hpi, hxi⟩ := socketPart_lt hsocket h hi
  obtain ⟨hpj, hxj⟩ := socketPart_lt hsocket h hj
  rw [socketSlot_eq hsocket hi, socketSlot_eq hsocket hj] at heq
  obtain ⟨hnode, hx⟩ := part_inj hxi hxj heq
  obtain ⟨hs, hp⟩ := part_inj hpi hpj hx
  exact placeOf_inj _ (by rw [cellOf, cellOf, hnode, hs]) hp

end Sockets

/-- Only the first rank has the first slot. -/
theorem socketSlot_eq_zero (h : Balanced place size ppn pps) {j : ℕ}
    (heq : socketSlot place size ppn pps j = socketSlot place size ppn pps 0) : j = 0 := by
  have hzero := cellOf_zero h.ids h.pos
  rw [cellOf, Prod.mk.injEq] at hzero
  have hcounter : counterOf place size ppn 0 = 0 := by
    rw [counterOf, hzero.1, hzero.2, Nat.zero_mul]
  have hplace : placeOf (counterOf place size ppn) 0 = 0 := Nat.count_zero _
  rw [socketSlot, socketSlot, hzero.1, hzero.2, hplace, Nat.zero_mul, Nat.zero_mul] at heq
  have hnode : nodeOf place size j = 0 := by
    rcases Nat.mul_eq_zero.mp (by omega : nodeOf place size j * ppn = 0) with hn | hp
    · exact hn
    · exact absurd hp h.ppn_pos.ne'
  have hsocket : socketOf place size j = 0 := by
    rcases Nat.mul_eq_zero.mp (by omega : socketOf place size j * pps = 0) with hn | hp
    · exact hn
    · exact absurd hp h.pps_pos.ne'
  refine placeOf_inj (counterOf place size ppn) ?_ ?_
  · rw [hcounter, counterOf, hnode, hsocket, Nat.zero_mul]
  · rw [hplace]
    omega

/-- If every rank has a slot of its own in the array, it is in the part of its node: the ranks of
    the nodes behind fill the array from there on. -/
theorem slot_lt_of_injOn (h : Balanced place size ppn pps)
    (hbound : ∀ i < size, socketSlot place size ppn pps i < size)
    (hinj : Set.InjOn (socketSlot place size ppn pps) (Set.Iio size)) {i : ℕ} (hi : i < size) :
    socketSlot place size ppn pps i < (nodeOf place size i + 1) * ppn := by
  by_contra hge
  rw [not_lt] at hge
  set N := nodeOf place size i + 1 with hN
  let behind := (Finset.range size).filter fun j => N ≤ nodeOf place size j
  have hlow {j : ℕ} (hj : j ∈ behind) : N * ppn ≤ socketSlot place size ppn pps j := by
    have hnode := (Finset.mem_filter.mp hj).2
    calc N * ppn ≤ nodeOf place size j * ppn := Nat.mul_le_mul_right ppn hnode
      _ ≤ _ := by rw [socketSlot]; omega
  have hnot : i ∉ behind := fun hmem => by
    have hle := (Finset.mem_filter.mp hmem).2
    omega
  have hmaps : ∀ j ∈ insert i behind, socketSlot place size ppn pps j ∈
      Finset.Ico (N * ppn) size := by
    intro j hj
    rcases Finset.mem_insert.mp hj with rfl | hj
    · exact Finset.mem_Ico.mpr ⟨hge, hbound j hi⟩
    · exact Finset.mem_Ico.mpr ⟨hlow hj,
        hbound j (Finset.mem_range.mp (Finset.mem_filter.mp hj).1)⟩
  have hinj' : Set.InjOn (socketSlot place size ppn pps) (insert i behind : Finset ℕ) := by
    refine hinj.mono fun j hj => ?_
    rcases Finset.mem_insert.mp (Finset.mem_coe.mp hj) with rfl | hj
    · exact hi
    · exact Finset.mem_range.mp (Finset.mem_filter.mp hj).1
  have hcard := Finset.card_le_card_of_injOn _ hmaps hinj'
  have hbehind : behind.card = _ := h.card_nodes N
  rw [Finset.card_insert_of_notMem hnot, hbehind, Nat.card_Ico, Nat.sub_mul, ← h.size_eq] at hcard
  omega

/-- Then every dense socket id is one of the first ones. -/
theorem socket_lt_of_injOn (h : Balanced place size ppn pps)
    (hbound : ∀ i < size, socketSlot place size ppn pps i < size)
    (hinj : Set.InjOn (socketSlot place size ppn pps) (Set.Iio size)) {i : ℕ} (hi : i < size) :
    socketOf place size i < ppn / pps := by
  have hslot := slot_lt_of_injOn h hbound hinj hi
  rw [socketSlot, Nat.add_one_mul] at hslot
  rw [Nat.lt_div_iff_mul_lt' h.dvd]
  rw [Nat.mul_comm]
  omega

end Slots

/-! ### Members -/

section Members

variable (place : ℕ → Location) (size ppn : ℕ)

/-- The array has the ranks node by node. -/
def NodeByNode (g : List ℕ) : Prop :=
  ∀ x < size, ∃ v < size, g[x]? = some v ∧ nodeOf place size v = x / ppn

/-- The number of nodes. -/
def nodeCount : ℕ := (topoFillIdHash place size nodeKey).length

/-- The ranks of the array at an offset in the part of each node. -/
def membersAt (g : List ℕ) (m : ℕ) : List ℕ :=
  (List.range (nodeCount place size)).map fun N => g.getD (N * ppn + m) 0

/-- The state of the second loop after index `j`: the ranks seen of each node, and the members of
    the nodes whose member has been seen. -/
structure Collecting (g : List ℕ) (m j : ℕ) (s : List ℕ × List ℕ) : Prop where
  length : s.1.length = size
  offset : ∀ N < nodeCount place size, s.1[N]? = some (min (j - N * ppn) ppn)
  ranks : ∃ k, s.2 = (List.range k).map (fun N => g.getD (N * ppn + m) 0) ∧
    j ≤ k * ppn + m ∧ ∀ N < k, N * ppn + m < j

variable {place size ppn} {pps : ℕ} {g : List ℕ} {m : ℕ}

theorem collecting_zero (hcount : nodeCount place size ≤ size) :
    Collecting place size ppn g m 0 (List.replicate size 0, []) where
  length := List.length_replicate
  offset N hN := by
    have hlt : N < size := hN.trans_le hcount
    simp [hlt]
  ranks := ⟨0, rfl, Nat.zero_le _, nofun⟩

section Collect

variable (h : Balanced place size ppn pps) (fresh : ℕ → TopoLocation)
  (hg : NodeByNode place size ppn g) (hm : m < ppn)
include h

theorem nodeCount_le : nodeCount place size ≤ size := by
  conv_rhs => rw [h.size_eq]
  exact Nat.le_mul_of_pos_right _ h.ppn_pos

theorem size_div : size / ppn = nodeCount place size := by
  conv_lhs => rw [h.size_eq]
  exact Nat.mul_div_cancel _ h.ppn_pos

include hg hm

/-- A pass of the second loop. -/
theorem collecting_succ {j : ℕ} (hj : j < size) {s : List ℕ × List ℕ}
    (hs : Collecting place size ppn g m j s) : ∃ s',
      collectRank (topoInitDetail fresh place size) size ppn g m s j = .ok s' ∧
        Collecting place size ppn g m (j + 1) s' := by
  obtain ⟨v, hv, hget, hnode⟩ := hg j hj
  obtain ⟨k, hranks, hlow, hseen⟩ := hs.ranks
  have hppn := h.ppn_pos
  have hN : j / ppn < nodeCount place size := by
    rw [← size_div h]
    exact Nat.div_lt_div_of_lt_of_dvd ⟨_, h.size_eq.trans (Nat.mul_comm _ _)⟩ hj
  have hdecomp : j / ppn * ppn + j % ppn = j := Nat.div_add_mod' j ppn
  have hmod : j % ppn < ppn := Nat.mod_lt j hppn
  have hoffset : s.1[j / ppn]? = some (j % ppn) := by
    rw [hs.offset _ hN]
    congr 1
    omega
  -- the counter of the node is the offset of `j` in its part
  have hlen : j / ppn < s.1.length := (List.getElem?_eq_some_iff.mp hoffset).1
  have hcounters : ∀ N < nodeCount place size,
      (s.1.set (j / ppn) (j % ppn + 1))[N]? = some (min (j + 1 - N * ppn) ppn) := by
    intro N hlt
    rw [List.getElem?_set]
    by_cases heq : j / ppn = N
    · rw [if_pos heq, if_pos hlen, ← heq]
      congr 1
      omega
    · rw [if_neg heq, hs.offset N hlt]
      congr 1
      rcases Nat.lt_or_gt_of_ne heq with hlt | hgt
      · have hle := Nat.mul_le_mul_right ppn (Nat.succ_le_of_lt hlt)
        rw [Nat.succ_mul] at hle
        omega
      · have hle := Nat.mul_le_mul_right ppn (Nat.succ_le_of_lt hgt)
        rw [Nat.succ_mul] at hle
        omega
  have hstep {ranks : List ℕ} (hpush : (if ((j % ppn : ℕ) : ℤ) = m then push (size / ppn) s.2 v
      else .ok s.2 : Except (Halt Status) _) = .ok ranks) :
      collectRank (topoInitDetail fresh place size) size ppn g m s j =
        .ok (s.1.set (j / ppn) (j % ppn + 1), ranks) := by
    rw [collectRank, load_natCast hget]
    refine bind_eq_ok.mpr ⟨v, rfl, bind_eq_ok.mpr ⟨_, topoGetNodeId_eq h.ids fresh hv, ?_⟩⟩
    rw [if_neg (by omega), hnode]
    refine bind_eq_ok.mpr ⟨_, load_natCast hoffset, bind_eq_ok.mpr ⟨ranks, hpush, ?_⟩⟩
    exact bind_eq_ok.mpr ⟨_, store_natCast _ hlen, rfl⟩
  by_cases hmine : j % ppn = m
  · -- the member of the node
    have hk : k = j / ppn := by
      refine le_antisymm (not_lt.mp fun hlt => ?_) (not_lt.mp fun hlt => ?_)
      · have := hseen _ hlt
        omega
      · have hle := Nat.mul_le_mul_right ppn (Nat.succ_le_of_lt hlt)
        rw [Nat.succ_mul] at hle
        omega
    subst hk
    have hroom : s.2.length < size / ppn := by
      rw [hranks, List.length_map, List.length_range, size_div h]
      exact hN
    refine ⟨_, hstep (by rw [if_pos (by exact_mod_cast hmine)]; exact push_of_lt v hroom),
      List.length_set.trans hs.length, hcounters, j / ppn + 1, ?_, ?_, fun N hlt => ?_⟩
    · rw [hranks, List.range_succ, List.map_append, List.map_singleton, ← hmine, hdecomp,
        List.getD_eq_getElem?_getD, hget, Option.getD_some]
    · rw [Nat.add_one_mul]
      omega
    · rcases Nat.lt_succ_iff_lt_or_eq.mp hlt with hlt | rfl
      · exact (hseen N hlt).trans j.lt_succ_self
      · omega
  · refine ⟨_, hstep (if_neg (by exact_mod_cast hmine)), List.length_set.trans hs.length, hcounters,
      k, hranks, ?_, fun N hlt => (hseen N hlt).trans j.lt_succ_self⟩
    refine Nat.succ_le_of_lt (lt_of_le_of_ne hlow fun heq => hmine ?_)
    rw [heq, Nat.mul_comm, Nat.mul_add_mod, Nat.mod_eq_of_lt hm]

end Collect

/-- The search for the own rank, when it is a member once. -/
theorem searchRank_ok {ranks : List ℕ} {myrank i : ℕ} (vrank : ℕ) (hi : ranks[i]? = some myrank)
    (hunique : ∀ j, ranks[j]? = some myrank → j = i) : ∀ (is : List ℕ),
      (∀ j ∈ is, j < ranks.length) → i ∈ is → searchRank ranks myrank vrank is = .ok i
  | [], _, hmem => absurd hmem List.not_mem_nil
  | j :: is, hbound, hmem => by
    have hlt : j < ranks.length := hbound j List.mem_cons_self
    have hj := List.getElem?_eq_getElem hlt
    rw [searchRank, load_natCast hj]
    change (if ranks[j] = myrank then .ok j else searchRank ranks myrank vrank is) = _
    by_cases heq : ranks[j] = myrank
    · rw [if_pos heq, hunique j (hj.trans (congrArg some heq))]
    · rw [if_neg heq]
      refine searchRank_ok vrank hi hunique is (fun j hj => hbound j (List.mem_cons_of_mem _ hj)) ?_
      refine (List.mem_cons.mp hmem).resolve_left fun hij => heq ?_
      subst hij
      exact Option.some.inj (hj.symm.trans hi)

/-- What a constructor of node leaders finds in an array that has the ranks node by node. -/
theorem collectRanks_eq (h : Balanced place size ppn pps) (fresh : ℕ → TopoLocation)
    (hg : NodeByNode place size ppn g) (hm : m < ppn) {r : ℕ} (hr : r < size)
    (hown : g[nodeOf place size r * ppn + m]? = some r) :
    collectRanks (topoInitDetail fresh place size) size r ppn g m =
      .ok (nodeOf place size r, membersAt place size ppn g m) := by
  obtain ⟨s, hs, hcoll⟩ := foldlM_range_ok
    (collectRank (topoInitDetail fresh place size) size ppn g m) (Collecting place size ppn g m) _
    size (collecting_zero (nodeCount_le h)) fun j hj s hs => collecting_succ h fresh hg hm hj hs
  obtain ⟨k, hranks, hlow, hseen⟩ := hcoll.ranks
  have hk : k = nodeCount place size := by
    have hsize : size = nodeCount place size * ppn := h.size_eq
    refine le_antisymm (not_lt.mp fun hlt => ?_) (not_lt.mp fun hlt => ?_)
    · have := hseen _ hlt
      omega
    · have hle := Nat.mul_le_mul_right ppn (Nat.succ_le_of_lt hlt)
      rw [Nat.succ_mul] at hle
      omega
  subst hk
  have hN : nodeOf place size r < nodeCount place size := nodeOf_lt h.ids hr
  have hmember (N : ℕ) : (membersAt place size ppn g m)[N]? =
      if N < nodeCount place size then some (g.getD (N * ppn + m) 0) else none := by
    rw [membersAt, List.getElem?_map]
    split_ifs with hlt
    · rw [List.getElem?_range hlt, Option.map_some]
    · rw [List.getElem?_eq_none (by rw [List.length_range]; omega), Option.map_none]
  have hat : (membersAt place size ppn g m)[nodeOf place size r]? = some r := by
    rw [hmember, if_pos hN, List.getD_eq_getElem?_getD, hown, Option.getD_some]
  have hunique (N : ℕ) (hget : (membersAt place size ppn g m)[N]? = some r) :
      N = nodeOf place size r := by
    rw [hmember] at hget
    split_ifs at hget with hlt
    have hpart : N * ppn + m < size := by
      have hle := Nat.mul_le_mul_right ppn (Nat.succ_le_of_lt hlt)
      have hsize : size = nodeCount place size * ppn := h.size_eq
      rw [Nat.succ_mul] at hle
      omega
    obtain ⟨v, hv, hgv, hnode⟩ := hg _ hpart
    rw [List.getD_eq_getElem?_getD, hgv, Option.getD_some, Option.some.injEq] at hget
    rw [← hget, hnode, Nat.mul_comm, Nat.mul_add_div h.ppn_pos, Nat.div_eq_of_lt hm, Nat.add_zero]
  have hfind := searchRank_ok 0 hat hunique (List.range (size / ppn))
    (fun j hj => by
      rw [membersAt, List.length_map, List.length_range, ← size_div h]
      exact List.mem_range.mp hj)
    (List.mem_range.mpr (by rw [size_div h]; exact hN))
  have hs₂ : s.2 = membersAt place size ppn g m := hranks
  rw [← hs₂] at hfind ⊢
  exact bind_eq_ok.mpr ⟨s, hs, bind_eq_ok.mpr ⟨_, hfind, rfl⟩⟩

/-- Socket by socket is node by node. -/
theorem nodeByNode_of_counted (h : Balanced place size ppn pps)
    (hsocket : ∀ i < size, socketOf place size i < ppn / pps) {counters : List ℕ}
    (hc : Lib.Counted (counterOf place size ppn)
      (socketSlot place size ppn pps) size size counters g) :
    NodeByNode place size ppn g := by
  intro x hx
  obtain ⟨v, hv, hget, rfl⟩ := hc.slot_getElem? (socketSlot_injOn hsocket h) hx
  refine ⟨v, hv, hget, ?_⟩
  rw [socketSlot_eq hsocket hv, Nat.mul_comm, Nat.mul_add_div h.ppn_pos,
    Nat.div_eq_of_lt (socketPart_lt hsocket h hv).2, Nat.add_zero]

/-- The members of the first constructor when all dense socket ids are first ones: on every node,
    the rank in the own socket at the own place. -/
theorem nodeLeaders_eq (h : Balanced place size ppn pps)
    (hsocket : ∀ i < size, socketOf place size i < ppn / pps) (fresh : ℕ → TopoLocation) {r : ℕ}
    (hr : r < size) : ∃ counters g,
      Lib.Counted (counterOf place size ppn) (socketSlot place size ppn pps) size size counters g ∧
      nodeLeaders (topoInitDetail fresh place size) size r ppn pps (placeOf (cellOf place size) r)
        true = .ok (nodeOf place size r, membersAt place size ppn g
          (socketOf place size r * pps + placeOf (cellOf place size) r)) := by
  obtain ⟨g, hg⟩ := socketOrder_ok h.ids fresh fun i hi => socketSlot_bound hsocket h hi
  obtain ⟨counters, hc⟩ := socketOrder_counted h.ids fresh hg
  refine ⟨counters, g, hc, ?_⟩
  have hown := hc.getElem?_slot (socketSlot_injOn hsocket h) hr
  rw [socketSlot_eq hsocket hr] at hown
  have hcollect := collectRanks_eq h fresh (nodeByNode_of_counted h hsocket hc)
    (socketPart_lt hsocket h hr).2 hr hown
  rw [nodeLeaders]
  refine bind_eq_ok.mpr ⟨_, topoGetSocketId_eq h.ids fresh hr, ?_⟩
  rw [if_neg (by omega), if_neg (by simp)]
  refine bind_eq_ok.mpr ⟨g, hg, ?_⟩
  rw [← hcollect]
  congr 1
  push_cast
  ring

theorem placeOf_node_lt (h : Balanced place size ppn pps) {i : ℕ} (hi : i < size) :
    placeOf (nodeOf place size) i < ppn :=
  (placeOf_lt hi).trans_eq (h.node _ (nodeOf_lt h.ids hi))

theorem nodeSlot_injOn (h : Balanced place size ppn pps) :
    Set.InjOn (nodeSlot place size ppn) (Set.Iio size) := by
  intro i hi j hj heq
  obtain ⟨hnode, hplace⟩ := part_inj (placeOf_node_lt h hi) (placeOf_node_lt h hj) heq
  exact placeOf_inj _ hnode hplace

variable (place size ppn) in
/-- The state of the loop that numbers the ranks as they come, after the ranks below `i`. -/
structure FilledByNode (r i : ℕ) (s : ℤ × List ℕ × List ℕ) : Prop where
  counted : Lib.Counted (nodeOf place size) (nodeSlot place size ppn) size i s.2.1 s.2.2
  myoffset : r < i → s.1 = placeOf (nodeOf place size) r

theorem filledByNode_succ (h : Balanced place size ppn pps) (fresh : ℕ → TopoLocation) {r i : ℕ}
    (hi : i < size) {s : ℤ × List ℕ × List ℕ} (hs : FilledByNode place size ppn r i s) : ∃ s',
      fillRankByNode (topoInitDetail fresh place size) r ppn s i = .ok s' ∧
        FilledByNode place size ppn r (i + 1) s' := by
  have hkey : nodeOf place size i < size := (nodeOf_lt h.ids hi).trans_le (nodeCount_le h)
  have hslot : nodeSlot place size ppn i < size := part_lt h hi (placeOf_node_lt h hi)
  have hload := hs.counted.load hkey
  refine ⟨(if i = r then (placeOf (nodeOf place size) i : ℤ) else s.1,
    s.2.1.set (nodeOf place size i) (placeOf (nodeOf place size) i + 1),
    s.2.2.set (nodeSlot place size ppn i) i), ?_, hs.counted.succ hkey hslot, fun hr => ?_⟩
  · rw [fillRankByNode, topoGetNodeId_eq h.ids fresh hi, ok_bind, if_neg (by omega),
      load_natCast hload, ok_bind]
    have hcast : (nodeOf place size i : ℤ) * ppn + placeOf (nodeOf place size) i =
        (nodeSlot place size ppn i : ℕ) := by
      rw [nodeSlot]
      push_cast
      rfl
    rw [hcast, store_natCast _ (hslot.trans_eq hs.counted.length_written.symm), ok_bind,
      store_natCast _ (List.getElem?_eq_some_iff.mp hload).1]
    rfl
  · dsimp only
    split_ifs with heq
    · rw [heq]
    · exact hs.myoffset (by omega)

/-- The members of the second constructor: on every node, the rank at the own place of the node. -/
theorem onlyNodeLeaders_eq (h : Balanced place size ppn pps) (fresh : ℕ → TopoLocation) {r : ℕ}
    (hr : r < size) : ∃ counters g,
      Lib.Counted (nodeOf place size) (nodeSlot place size ppn) size size counters g ∧
      onlyNodeLeaders (topoInitDetail fresh place size) size r ppn true =
        .ok (nodeOf place size r, membersAt place size ppn g (placeOf (nodeOf place size) r)) := by
  obtain ⟨s, hloop, hs⟩ := foldlM_range_ok _ (FilledByNode place size ppn r) _ size
    (⟨Lib.Counted.zero, nofun⟩ : FilledByNode place size ppn r 0
      (-1, List.replicate size 0, List.replicate size 0))
    fun i hi s hs => filledByNode_succ h fresh hi hs
  refine ⟨s.2.1, s.2.2, hs.counted, ?_⟩
  have hgrouped : NodeByNode place size ppn s.2.2 := by
    intro x hx
    obtain ⟨v, hv, hget, rfl⟩ := hs.counted.slot_getElem? (nodeSlot_injOn h) hx
    refine ⟨v, hv, hget, ?_⟩
    rw [nodeSlot, Nat.mul_comm, Nat.mul_add_div h.ppn_pos,
      Nat.div_eq_of_lt (placeOf_node_lt h hv), Nat.add_zero]
  rw [onlyNodeLeaders, if_neg (by simp), hloop, ok_bind, hs.myoffset hr]
  exact collectRanks_eq h fresh hgrouped (placeOf_node_lt h hr) hr
    (hs.counted.getElem?_slot (nodeSlot_injOn h) hr)

end Members

end Kucg.Ucx
