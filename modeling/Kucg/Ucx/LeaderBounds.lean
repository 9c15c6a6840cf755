import Kucg.Ucx.LeaderGroups

/-! The bounds of the constructors of leader groups.

    The offset table of the socket leaders is indexed by the socket ids as they are reported, and
    the member found first is looked for at the own socket id. That is sound exactly if the reported
    ids are those of the first sockets; the node leaders need the same of the dense ids
    (`leaderGroups_iff`). -/

namespace Kucg.Ucx

open Kucg.Core Kucg.Lib

/-! ### The loop over the sockets of a node -/

section Sockets

variable (place : ℕ → Location) (size r m : ℕ)

/-- A rank of the node of `r` at place `m` of its socket. -/
def AtPlace (i : ℕ) : Prop :=
  (place i).nodeId = (place r).nodeId ∧ placeOf (cellOf place size) i = m

instance : DecidablePred (AtPlace place size r m) := fun _ => inferInstanceAs (Decidable (_ ∧ _))

/-- A rank of the node of `r` with a reported socket id. -/
def InSocket (t : ℤ) (i : ℕ) : Prop :=
  (place i).nodeId = (place r).nodeId ∧ (place i).socketId = t

instance (t : ℤ) : DecidablePred (InSocket place r t) := fun _ =>
  inferInstanceAs (Decidable (_ ∧ _))

/-- The state of the loop after the ranks below `i`, with a table of `k + 1` offsets. -/
structure Gathered (k i : ℕ) (s : List ℕ × List ℕ) : Prop where
  length : s.1.length = k + 1
  offset : ∀ t < k + 1, s.1[t]? = some (Nat.count (InSocket place r t) i)
  ranks : s.2 = (List.range i).filter fun j => AtPlace place size r m j

variable {place size r m} {k ppn pps : ℕ}

theorem gathered_zero : Gathered place size r m k 0 (List.replicate (k + 1) 0, []) where
  length := List.length_replicate
  offset t ht := by simp [ht]
  ranks := rfl

/-- A counter is the place in the socket. -/
theorem count_inSocket (hids : HasIds place size) {i : ℕ} (hi : i < size)
    (hnode : (place i).nodeId = (place r).nodeId) :
    Nat.count (InSocket place r (place i).socketId) i = placeOf (cellOf place size) i := by
  have hiff (j : ℕ) (hj : j < i) : InSocket place r (place i).socketId j ↔
      cellOf place size j = cellOf place size i := by
    have hj := hj.trans hi
    rw [InSocket, cellOf, cellOf, Prod.mk.injEq, nodeOf_eq_iff hids hj, socketOf_eq_iff hids hj,
      hnode]
  exact le_antisymm (Nat.count_mono_left fun j hj => (hiff j hj).mp)
    (Nat.count_mono_left fun j hj => (hiff j hj).mpr)

/-- Ranks at one place are in sockets of their own. -/
theorem atPlace_inj (hids : HasIds place size) {i j : ℕ} (hi : i < size)
    (hpi : AtPlace place size r m i) (hpj : AtPlace place size r m j)
    (h : (place i).socketId = (place j).socketId) : i = j := by
  refine placeOf_inj (cellOf place size) ?_ (hpi.2.trans hpj.2.symm)
  rw [cellOf, cellOf, Prod.mk.injEq, nodeOf_eq_iff hids hi, socketOf_eq_iff hids hi]
  exact ⟨hpi.1.trans hpj.1.symm, h⟩

theorem length_filter_atPlace (n : ℕ) :
    ((List.range n).filter fun j => AtPlace place size r m j).length =
      ((Finset.range n).filter (AtPlace place size r m)).card := by
  rw [length_filter_range, Nat.count_eq_card_filter_range]

section Table

variable (h : Balanced place size ppn pps) (hraw : ∀ i < size,
  0 ≤ (place i).socketId ∧ (place i).socketId < (ppn / pps : ℕ))
include h hraw

/-- There are at most as many ranks at a place as a node has sockets. -/
theorem card_atPlace_le {n : ℕ} (hn : n ≤ size) :
    ((Finset.range n).filter (AtPlace place size r m)).card ≤ ppn / pps := by
  have hlt {i : ℕ} (hi : i ∈ (Finset.range n).filter (AtPlace place size r m)) : i < size :=
    (Finset.mem_range.mp (Finset.mem_filter.mp hi).1).trans_le hn
  have hcard := Finset.card_le_card_of_injOn (fun i => (place i).socketId.toNat)
    (s := (Finset.range n).filter (AtPlace place size r m)) (t := Finset.range (ppn / pps))
    (fun i hi => by
      have hi' := hraw i (hlt hi)
      refine Finset.mem_coe.mpr (Finset.mem_range.mpr ?_)
      dsimp only
      omega)
    (fun i hi j hj heq => by
      have hi' := hraw i (hlt hi)
      have hj' := hraw j (hlt hj)
      refine atPlace_inj h.ids (hlt hi) (Finset.mem_filter.mp hi).2 (Finset.mem_filter.mp hj).2 ?_
      dsimp only at heq
      omega)
  rwa [Finset.card_range] at hcard

/-- Every socket id is used on the node: together they have to make up for `ppn` ranks. -/
theorem exists_inSocket (hr : r < size) {t : ℕ} (ht : t < ppn / pps) :
    ∃ i < size, InSocket place r t i := by
  by_contra hnone
  push Not at hnone
  have hmap : ∀ i ∈ (Finset.range size).filter fun i =>
      nodeOf place size i = nodeOf place size r,
      (place i).socketId.toNat ∈ Finset.range (ppn / pps) := fun i hi => by
    have := hraw i (Finset.mem_range.mp (Finset.mem_filter.mp hi).1)
    exact Finset.mem_range.mpr (by omega)
  have hsum := Finset.card_eq_sum_card_fiberwise hmap
  have hppn : ((Finset.range size).filter fun i =>
      nodeOf place size i = nodeOf place size r).card = ppn := by
    rw [← classSize_eq_card]
    exact h.node _ (nodeOf_lt h.ids hr)
  have hle : ∀ u ∈ Finset.range (ppn / pps), (((Finset.range size).filter fun i =>
      nodeOf place size i = nodeOf place size r).filter fun i =>
        (place i).socketId.toNat = u).card ≤ pps := by
    intro u _
    rcases Finset.eq_empty_or_nonempty (((Finset.range size).filter fun i =>
      nodeOf place size i = nodeOf place size r).filter fun i =>
        (place i).socketId.toNat = u) with hempty | ⟨i, hi⟩
    · rw [hempty, Finset.card_empty]
      exact Nat.zero_le pps
    · obtain ⟨hi, hu⟩ := Finset.mem_filter.mp hi
      obtain ⟨hi, hnode⟩ := Finset.mem_filter.mp hi
      rw [← h.cell i (Finset.mem_range.mp hi), classSize_eq_card]
      refine Finset.card_le_card fun j hj => ?_
      obtain ⟨hj, hu'⟩ := Finset.mem_filter.mp hj
      obtain ⟨hj, hnode'⟩ := Finset.mem_filter.mp hj
      have hi' := hraw i (Finset.mem_range.mp hi)
      have hj' := hraw j (Finset.mem_range.mp hj)
      refine Finset.mem_filter.mpr ⟨hj, ?_⟩
      rw [cellOf, cellOf, hnode, hnode', Prod.mk.injEq,
        socketOf_eq_iff h.ids (Finset.mem_range.mp hj)]
      exact ⟨rfl, by omega⟩
  have hzero : (((Finset.range size).filter fun i =>
      nodeOf place size i = nodeOf place size r).filter fun i =>
        (place i).socketId.toNat = t).card < pps := by
    refine lt_of_eq_of_lt (Finset.card_eq_zero.mpr ?_) h.pps_pos
    refine Finset.filter_eq_empty_iff.mpr fun i hi hu => ?_
    obtain ⟨hi, hnode⟩ := Finset.mem_filter.mp hi
    have hi' := Finset.mem_range.mp hi
    have := hraw i hi'
    exact hnone i hi' ⟨(nodeOf_eq_iff h.ids hi').mp hnode, by omega⟩
  have hlt := Finset.sum_lt_sum hle ⟨t, Finset.mem_range.mpr ht, hzero⟩
  rw [← hsum, hppn, Finset.sum_const, Finset.card_range, smul_eq_mul,
    Nat.div_mul_cancel h.dvd] at hlt
  exact lt_irrefl _ hlt

/-- So there are as many ranks at a place as a node has sockets. -/
theorem card_atPlace (hr : r < size) (hm : m < pps) :
    ((Finset.range size).filter (AtPlace place size r m)).card = ppn / pps := by
  refine le_antisymm (card_atPlace_le h hraw le_rfl) ?_
  have hrank (t : ℕ) (ht : t < ppn / pps) : ∃ i < size, AtPlace place size r m i ∧
      (place i).socketId = t := by
    obtain ⟨j, hj, hnode, hsocket⟩ := exists_inSocket h hraw hr ht
    obtain ⟨i, hi, hcell, hplace⟩ := exists_placeOf (cellOf place size)
      (hm.trans_eq (h.cell j hj).symm)
    rw [cellOf, cellOf, Prod.mk.injEq, nodeOf_eq_iff h.ids hi, socketOf_eq_iff h.ids hi] at hcell
    exact ⟨i, hi, ⟨hcell.1.trans hnode, hplace⟩, hcell.2.trans hsocket⟩
  choose! f hf using hrank
  have hcard := Finset.card_le_card_of_injOn f (s := Finset.range (ppn / pps))
    (t := (Finset.range size).filter (AtPlace place size r m))
    (fun t ht => by
      obtain ⟨hlt, hat, -⟩ := hf t (Finset.mem_range.mp (Finset.mem_coe.mp ht))
      exact Finset.mem_coe.mpr (Finset.mem_filter.mpr ⟨Finset.mem_range.mpr hlt, hat⟩))
    (fun t ht u hu heq => by
      have ht' := (hf t (Finset.mem_range.mp (Finset.mem_coe.mp ht))).2.2
      have hu' := (hf u (Finset.mem_range.mp (Finset.mem_coe.mp hu))).2.2
      rw [heq] at ht'
      exact_mod_cast ht'.symm.trans hu')
  rwa [Finset.card_range] at hcard

/-- A pass of the loop, for a rank whose location is had. -/
theorem gathered_succ {i : ℕ} (hi : i < size) {s : List ℕ × List ℕ}
    (hs : Gathered place size r m (ppn / pps) i s) : ∃ s',
      collectSocketRank place (fun _ => .ok) r ppn pps m s i = .ok s' ∧
        Gathered place size r m (ppn / pps) (i + 1) s' := by
  by_cases hnode : (place i).nodeId = (place r).nodeId
  · obtain ⟨hpos, hlt⟩ := hraw i hi
    obtain ⟨t, ht⟩ := Int.eq_ofNat_of_zero_le hpos
    have htk : t < ppn / pps := by omega
    have hoffset : s.1[t]? = some (placeOf (cellOf place size) i) := by
      rw [hs.offset t (by omega), ← count_inSocket h.ids hi hnode, ht]
    have hlen : t < s.1.length := (List.getElem?_eq_some_iff.mp hoffset).1
    have htable : ∀ u < ppn / pps + 1,
        (s.1.set t (placeOf (cellOf place size) i + 1))[u]? =
          some (Nat.count (InSocket place r u) (i + 1)) := by
      intro u hu
      rw [List.getElem?_set, Nat.count_succ]
      by_cases heq : t = u
      · subst heq
        rw [if_pos rfl, if_pos hlen, if_pos ⟨hnode, ht⟩, ← count_inSocket h.ids hi hnode, ht]
      · rw [if_neg heq, if_neg fun hin => heq (by exact_mod_cast ht.symm.trans hin.2),
          hs.offset u hu, Nat.add_zero]
    have hstep {ranks : List ℕ} (hpush : (if ((placeOf (cellOf place size) i : ℕ) : ℤ) = m
        then push (ppn / pps) s.2 i else .ok s.2 : Except (Halt Status) _) = .ok ranks) :
        collectSocketRank place (fun _ => .ok) r ppn pps m s i =
          .ok (s.1.set t (placeOf (cellOf place size) i + 1), ranks) := by
      rw [collectSocketRank, if_neg (by simp), if_neg (not_not.mpr hnode), ht]
      exact bind_eq_ok.mpr ⟨_, load_natCast hoffset, bind_eq_ok.mpr ⟨_, hpush,
        bind_eq_ok.mpr ⟨_, store_natCast _ hlen, rfl⟩⟩⟩
    have hfilter : ((List.range (i + 1)).filter fun j => AtPlace place size r m j) =
        s.2 ++ if placeOf (cellOf place size) i = m then [i] else [] := by
      rw [List.range_succ, List.filter_append, ← hs.ranks]
      congr 1
      by_cases hp : placeOf (cellOf place size) i = m
      · rw [if_pos hp, List.filter_cons_of_pos (by simpa using ⟨hnode, hp⟩), List.filter_nil]
      · have hnot : ¬AtPlace place size r m i := fun hat => hp hat.2
        rw [if_neg hp, List.filter_cons_of_neg (by simpa using hnot), List.filter_nil]
    by_cases hp : placeOf (cellOf place size) i = m
    · have hroom : s.2.length < ppn / pps := by
        have hle := card_atPlace_le h hraw (r := r) (m := m) (Nat.succ_le_of_lt hi)
        rw [← length_filter_atPlace, hfilter, if_pos hp, List.length_append,
          List.length_singleton] at hle
        omega
      refine ⟨_, hstep (by rw [if_pos (by exact_mod_cast hp)]; exact push_of_lt i hroom),
        List.length_set.trans hs.length, htable, ?_⟩
      rw [hfilter, if_pos hp]
    · refine ⟨_, hstep (if_neg (by exact_mod_cast hp)), List.length_set.trans hs.length, htable, ?_⟩
      rw [hfilter, if_neg hp, List.append_nil]
  · have hnot : ¬AtPlace place size r m i := fun hat => hnode hat.1
    refine ⟨s, ?_, hs.length, fun t ht => ?_, ?_⟩
    · rw [collectSocketRank, if_neg (by simp), if_pos hnode]
    · rw [Nat.count_succ, if_neg fun hin => hnode hin.1, hs.offset t ht, Nat.add_zero]
    · rw [List.range_succ, List.filter_append, ← hs.ranks,
        List.filter_cons_of_neg (by simpa using hnot), List.filter_nil, List.append_nil]

omit h hraw in
theorem searchRank_total {ranks : List ℕ} (myrank vrank : ℕ) : ∀ (is : List ℕ),
    (∀ j ∈ is, j < ranks.length) → ∃ v, searchRank ranks myrank vrank is = .ok v
  | [], _ => ⟨vrank, rfl⟩
  | j :: is, hbound => by
    have hj := List.getElem?_eq_getElem (hbound j List.mem_cons_self)
    obtain ⟨v, hv⟩ := searchRank_total myrank vrank is fun j hj =>
      hbound j (List.mem_cons_of_mem _ hj)
    rw [searchRank, load_natCast hj]
    have hlt : j < ranks.length := hbound j List.mem_cons_self
    by_cases heq : ranks[j] = myrank
    · exact ⟨j, if_pos heq⟩
    · exact ⟨v, (if_neg heq).trans hv⟩

/-- After the loop the members are there, and the own socket id is the index of one. -/
theorem socketVrank_ok (hr : r < size) (hm : m < pps) {s : List ℕ × List ℕ}
    (hs : Gathered place size r m (ppn / pps) size s) :
    ∃ vrank, socketVrank place r s.2 = .ok vrank := by
  have hlen : s.2.length = ppn / pps := by
    rw [hs.ranks, length_filter_atPlace, card_atPlace h hraw hr hm]
  obtain ⟨hpos, hlt⟩ := hraw r hr
  obtain ⟨t, ht⟩ := Int.eq_ofNat_of_zero_le hpos
  have hin : t < s.2.length := by omega
  obtain ⟨v, hv⟩ := searchRank_total r (place r).socketId.toNat (List.range s.2.length)
    fun j hj => List.mem_range.mp hj
  rw [socketVrank, ht, load_natCast (List.getElem?_eq_getElem hin)]
  by_cases heq : s.2[t] = r
  · exact ⟨t, if_neg (not_not.mpr heq)⟩
  · rw [ht] at hv
    exact ⟨v, (if_pos heq).trans hv⟩

/-- The constructor of socket leaders stores the ranks of the node that have the own place in their
    socket. -/
theorem socketLeaders_ok (hr : r < size) : ∃ vrank,
    socketLeaders place (fun _ => .ok) size r ppn pps (placeOf (cellOf place size) r) =
      .ok (vrank, (List.range size).filter fun i =>
        AtPlace place size r (placeOf (cellOf place size) r) i) := by
  have hm : placeOf (cellOf place size) r < pps := (placeOf_lt hr).trans_eq (h.cell r hr)
  obtain ⟨s, hloop, hs⟩ := foldlM_range_ok _
    (Gathered place size r (placeOf (cellOf place size) r) (ppn / pps)) _ size gathered_zero
    fun i hi s hs => gathered_succ h hraw hi hs
  obtain ⟨vrank, hv⟩ := socketVrank_ok h hraw hr hm hs
  refine ⟨vrank, ?_⟩
  rw [socketLeaders, if_neg (by simp)]
  refine bind_eq_ok.mpr ⟨s, hloop, bind_eq_ok.mpr ⟨vrank, hv, ?_⟩⟩
  rw [← hs.ranks]
  rfl

/-- Whatever locations are refused, the constructor of socket leaders keeps within its arrays. -/
theorem socketLeaders_safe (hr : r < size) (location : ℕ → Status) :
    socketLeaders place location size r ppn pps (placeOf (cellOf place size) r) ≠
      .error .outside := by
  have hm : placeOf (cellOf place size) r < pps := (placeOf_lt hr).trans_eq (h.cell r hr)
  rw [socketLeaders]
  split_ifs with hmine
  · simp
  have hpass (i) (hi : i < size) (s : List ℕ × List ℕ)
      (hs : Gathered place size r (placeOf (cellOf place size) r) (ppn / pps) i s) :
      collectSocketRank place location r ppn pps (placeOf (cellOf place size) r) s i ≠
        .error .outside ∧
      ∀ s', collectSocketRank place location r ppn pps (placeOf (cellOf place size) r) s i =
        .ok s' → Gathered place size r (placeOf (cellOf place size) r) (ppn / pps) (i + 1) s' := by
    obtain ⟨s', hstep, hs'⟩ := gathered_succ h hraw hi hs
    rw [collectSocketRank, if_neg (by simp)] at hstep
    rw [collectSocketRank]
    by_cases hloc : location i ≠ .ok
    · rw [if_pos hloc]
      exact ⟨by simp, fun s' h => by cases h⟩
    · rw [if_neg hloc, hstep]
      exact ⟨by simp, fun s'' h => Except.ok.inj h ▸ hs'⟩
  cases hloop : (List.range size).foldlM
    (collectSocketRank place location r ppn pps (placeOf (cellOf place size) r))
    (List.replicate (ppn / pps + 1) 0, []) with
  | error e =>
    have hsafe := foldlM_range_safe (Gathered place size r (placeOf (cellOf place size) r)
      (ppn / pps)) gathered_zero hpass
    rw [hloop] at hsafe
    exact fun h => hsafe (congrArg _ (Except.error.inj (h : Except.error e = _)))
  | ok s =>
    have hs := foldlM_range_inv (Gathered place size r (placeOf (cellOf place size) r)
      (ppn / pps)) gathered_zero (fun i hi s s' hs => (hpass i hi s hs).2 s') hloop
    obtain ⟨vrank, hv⟩ := socketVrank_ok h hraw hr hm hs
    change (socketVrank place r s.2 >>= fun vrank => pure (vrank, s.2)) ≠ _
    rw [hv]
    exact fun h => by cases h

end Table

end Sockets

/-! ### The constructors -/

section Constructors

variable (fresh : ℕ → TopoLocation) (place : ℕ → Location) (size r : ℕ)

/-- The constructor of node leaders keeps within its arrays, whatever it is given and whatever
    fails, and the first loop stores every rank once. -/
def NodeLeaderSound : Prop :=
  (∀ env topo, InOrder place size r topo →
    createNodeLeaderAlgoGroup (topoInitDetail fresh place size) size r env
      ⟨topo, fun _ => AlgoGroup.new⟩ ≠ .error .outside) ∧
  ∃ g, socketOrder (topoInitDetail fresh place size) size (topoGroupSpec place size r .node).size
    (topoGroupSpec place size r .socket).size = .ok g ∧ g.Perm (List.range size)

/-- The constructor of socket leaders keeps within its arrays, and stores the ranks of its node with
    the own place in their socket, each of them once. -/
def SocketLeaderSound : Prop :=
  (∀ env topo, InOrder place size r topo →
    createSocketLeaderAlgoGroup place size r env ⟨topo, fun _ => AlgoGroup.new⟩ ≠
      .error .outside) ∧
  ∃ vrank ranks, socketLeaders place (fun _ => .ok) size r (topoGroupSpec place size r .node).size
    (topoGroupSpec place size r .socket).size
    (signedRank (topoGroupSpec place size r .socket).myrank) = .ok (vrank, ranks) ∧
    ∀ i < size, ranks.count i =
      if AtPlace place size r (placeOf (cellOf place size) r) i then 1 else 0

variable {place size r} {ppn pps : ℕ}

theorem fill_ne_outside {ucxGroup : UcxGroup} {type : AlgoGroupType}
    {members : Except (Halt Status) (ℕ × List ℕ)} {map : List ℕ → RankMap × Status}
    (h : members ≠ .error .outside) : ucxGroup.fill type members map ≠ .error .outside := by
  unfold UcxGroup.fill
  split
  · exact absurd rfl h
  · exact nofun
  · exact nofun

theorem nodeLeaders_of_not_mem (hids : HasIds place size) (hr : r < size) (socketRank : ℤ) :
    nodeLeaders (topoInitDetail fresh place size) size r ppn pps socketRank false =
      .error (.returns .ok) := by
  have hpos : ¬(socketOf place size r : ℤ) < 0 := by omega
  rw [nodeLeaders, topoGetSocketId_eq hids fresh hr, ok_bind, if_neg hpos, if_pos (by simp)]

/-- If every dense socket id is one of the first ones, the node leaders are sound. -/
theorem nodeLeaderSound_of_sockets (h : Balanced place size ppn pps) (hppn : 1 < ppn)
    (hsocket : ∀ i < size, socketOf place size i < ppn / pps) (hr : r < size) :
    NodeLeaderSound fresh place size r := by
  obtain ⟨hnode, -⟩ := nodeGroup_spec h hppn hr
  obtain ⟨hsize, hrank, -⟩ := socketGroup_spec h hppn hr
  constructor
  · intro env topo hord
    simp only [createNodeLeaderAlgoGroup, AlgoGroup.new, ne_eq, not_true_eq_false, if_false]
    split
    · next nodeGroup socketGroup hn hs =>
      obtain ⟨rfl, rfl⟩ := hord.socket_node hs hn
      split_ifs
      · exact nofun
      · refine fill_ne_outside ?_
        rw [hnode, hsize, hrank]
        cases env.mem with
        | true =>
          obtain ⟨_, _, -, heq⟩ := nodeLeaders_eq h hsocket fresh hr
          rw [heq]
          exact nofun
        | false =>
          rw [nodeLeaders_of_not_mem fresh h.ids hr]
          exact nofun
    · exact nofun
  · obtain ⟨g, hg⟩ := socketOrder_ok h.ids fresh fun i hi => socketSlot_bound hsocket h hi
    obtain ⟨counters, hc⟩ := socketOrder_counted h.ids fresh hg
    rw [hnode, hsize]
    exact ⟨g, hg, hc.perm (socketSlot_injOn hsocket h)⟩

/-- If the node leaders are sound for a rank, every dense socket id is one of the first ones. -/
theorem sockets_of_nodeLeaderSound (h : Balanced place size ppn pps) (hppn : 1 < ppn)
    (hr : r < size)
    (hsound : NodeLeaderSound fresh place size r) {i : ℕ} (hi : i < size) :
    socketOf place size i < ppn / pps := by
  obtain ⟨-, g, hg, hperm⟩ := hsound
  rw [(nodeGroup_spec h hppn hr).1, (socketGroup_spec h hppn hr).1] at hg
  obtain ⟨counters, hc⟩ := socketOrder_counted h.ids fresh hg
  exact socket_lt_of_injOn h (fun j hj => (hc.bound j hj).2)
    (hc.injOn hperm fun j _ heq => socketSlot_eq_zero h heq) hi

/-- If every reported socket id is one of the first ones, the socket leaders are sound. -/
theorem socketLeaderSound_of_sockets (h : Balanced place size ppn pps) (hppn : 1 < ppn)
    (hraw : ∀ i < size, 0 ≤ (place i).socketId ∧ (place i).socketId < (ppn / pps : ℕ))
    (hr : r < size) : SocketLeaderSound place size r := by
  obtain ⟨hnode, -⟩ := nodeGroup_spec h hppn hr
  obtain ⟨hsize, hrank, -⟩ := socketGroup_spec h hppn hr
  constructor
  · intro env topo hord
    simp only [createSocketLeaderAlgoGroup, AlgoGroup.new, ne_eq, not_true_eq_false, if_false]
    split
    · next nodeGroup socketGroup hn hs =>
      obtain ⟨rfl, rfl⟩ := hord.socket_node hs hn
      split_ifs
      · exact nofun
      · exact nofun
      · refine fill_ne_outside ?_
        rw [hnode, hsize, hrank]
        exact socketLeaders_safe h hraw hr env.location
    · exact nofun
  · obtain ⟨vrank, heq⟩ := socketLeaders_ok h hraw hr
    rw [hnode, hsize, hrank]
    refine ⟨vrank, _, heq, fun i hi => ?_⟩
    have hnodup := (List.nodup_range (n := size)).filter fun i =>
      AtPlace place size r (placeOf (cellOf place size) r) i
    rw [hnodup.count]
    simp [hi]

/-- If the socket leaders are sound for a rank, its reported socket id is one of the first ones. -/
theorem socket_of_socketLeaderSound (h : Balanced place size ppn pps) (hppn : 1 < ppn)
    (hr : r < size) (hsound : SocketLeaderSound place size r) :
    0 ≤ (place r).socketId ∧ (place r).socketId < (ppn / pps : ℕ) := by
  obtain ⟨-, vrank, ranks, hsock, -⟩ := hsound
  rw [(nodeGroup_spec h hppn hr).1, (socketGroup_spec h hppn hr).1, socketLeaders,
    if_neg (by simp)] at hsock
  obtain ⟨s, hloop, hrest⟩ := bind_eq_ok.mp hsock
  obtain ⟨v, hv, -⟩ := bind_eq_ok.mp hrest
  rw [socketVrank] at hv
  obtain ⟨rank, hload, -⟩ := bind_eq_ok.mp hv
  obtain ⟨hpos, hget⟩ := load_eq_ok.mp hload
  have hlen := foldlM_range_inv (fun _ (s : List ℕ × List ℕ) => s.2.length ≤ ppn / pps)
    (Nat.zero_le _) (fun i _ s s' hs hstep => ?_) hloop
  · have hlt := (List.getElem?_eq_some_iff.mp hget).1
    omega
  · rw [collectSocketRank, if_neg (by simp)] at hstep
    split_ifs at hstep with hnode
    · exact Except.ok.inj hstep ▸ hs
    · obtain ⟨offset, -, hstep⟩ := bind_eq_ok.mp hstep
      obtain ⟨members, hmembers, hstep⟩ := bind_eq_ok.mp hstep
      obtain ⟨offsets, -, hstep⟩ := bind_eq_ok.mp hstep
      obtain rfl := Except.ok.inj hstep
      split_ifs at hmembers
      · obtain ⟨hlt, rfl⟩ := push_eq_ok.mp hmembers
        rw [List.length_append, List.length_singleton]
        omega
      · exact Except.ok.inj hmembers ▸ hs

/-- The constructors of leader groups keep within their arrays, and store every rank once, exactly
    if the dense id of every rank's socket is below the number of sockets of a node, and so is the
    reported one where socket leaders are made. -/
theorem leaderGroups_iff (hids : HasIds place size) (hpos : 0 < size)
    (hppn : topoCalcPpn (topoInitDetail fresh place size) = ppn)
    (hpps : topoCalcPps (topoInitDetail fresh place size) = pps) (hnode : 1 < ppn) :
    (∀ r < size, NodeLeaderSound fresh place size r ∧
      (1 < pps → SocketLeaderSound place size r)) ↔
    (∀ i < size, socketOf place size i < ppn / pps) ∧
      (1 < pps → ∀ i < size, 0 ≤ (place i).socketId ∧ (place i).socketId < (ppn / pps : ℕ)) := by
  have h := balanced_of_calc hids hpos fresh hppn hpps
  constructor
  · intro hsound
    exact ⟨fun i hi => sockets_of_nodeLeaderSound fresh h hnode hpos (hsound 0 hpos).1 hi,
      fun hpps i hi => socket_of_socketLeaderSound h hnode hi ((hsound i hi).2 hpps)⟩
  · rintro ⟨hsocket, hraw⟩ r hr
    exact ⟨nodeLeaderSound_of_sockets fresh h hnode hsocket hr,
      fun hpps => socketLeaderSound_of_sockets h hnode (hraw hpps) hr⟩

end Constructors

/-! Six ranks on three nodes, two on each, bound to a socket of their own on every node. -/

/-- Ranks `2 * i` and `2 * i + 1` are on node `i`, in the socket that `socket` says. -/
def pairPlaces (socket : ℕ → ℤ) (q : ℕ) : Location :=
  ⟨false, true, true, 0, (q / 2 : ℕ), socket (q / 2)⟩

theorem leaderGroups_iff_six :
    (∀ r < 6, NodeLeaderSound (fun _ => ⟨0, 0⟩) (pairPlaces fun _ => 0) 6 r ∧
      (1 < 2 → SocketLeaderSound (pairPlaces fun _ => 0) 6 r)) ↔
    (∀ i < 6, socketOf (pairPlaces fun _ => 0) 6 i < 2 / 2) ∧
      (1 < 2 → ∀ i < 6, 0 ≤ (pairPlaces (fun _ => 0) i).socketId ∧
        (pairPlaces (fun _ => 0) i).socketId < (2 / 2 : ℕ)) := by
  have hids : HasIds (pairPlaces fun _ => 0) 6 := fun _ _ => ⟨rfl, rfl⟩
  have hppn : topoCalcPpn (topoInitDetail (fun _ => ⟨0, 0⟩) (pairPlaces fun _ => 0) 6) =
    (2 : ℕ) := by decide
  have hpps : topoCalcPps (topoInitDetail (fun _ => ⟨0, 0⟩) (pairPlaces fun _ => 0) 6) =
    (2 : ℕ) := by decide
  exact leaderGroups_iff _ hids (by decide) hppn hpps (by decide)

theorem leaderGroups_not :
    topoCalcPpn (topoInitDetail (fun _ => ⟨0, 0⟩) (pairPlaces fun node => node) 6) = 2 ∧
    topoCalcPps (topoInitDetail (fun _ => ⟨0, 0⟩) (pairPlaces fun node => node) 6) = 2 ∧
    ¬∀ r < 6, NodeLeaderSound (fun _ => ⟨0, 0⟩) (pairPlaces fun node => node) 6 r ∧
      SocketLeaderSound (pairPlaces fun node => node) 6 r := by
  refine ⟨by decide, by decide, fun h => ?_⟩
  obtain ⟨⟨-, g, hg, -⟩, -⟩ := h 0 (by decide)
  have hout : socketOrder (topoInitDetail (fun _ => ⟨0, 0⟩) (pairPlaces fun node => node) 6) 6
      (topoGroupSpec (pairPlaces fun node => node) 6 0 .node).size
      (topoGroupSpec (pairPlaces fun node => node) 6 0 .socket).size = .error .outside := by decide
  rw [hout] at hg
  cases hg

end Kucg.Ucx
