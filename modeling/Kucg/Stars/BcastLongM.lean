import Kucg.Stars.BcastLong

/-! The offloaded long broadcast of `bcast_long_m.c`: the root puts the whole buffer to the rank
    next to it, and the other ranks do what they do in the one of `bcast_long.c`.

    A rank has entries for its children in the tree only if its parent is none of its neighbours on
    the ring. Otherwise it has no children (`kntreeChildren_eq_nil`), so none of them is missing. -/

namespace Kucg.Stars.BcastLongM

open Kucg.Algo Kucg.Core Kucg.Lib

/-- `bcast_long_m check`. -/
def check (numprocs count : ℕ) : Status :=
  if numprocs - 1 > count then .errUnsupported
  else if numprocs ≤ 3 then .errUnsupported
  else .ok

/-- `real_to_virtual`. -/
def realToVirtual (size root real : ℕ) : ℕ :=
  if real = root then 0 else (real + size - root) % size - 1

/-- `virtual_to_real`. -/
def virtualToReal (virtualSize root vrank : ℕ) : ℕ :=
  if vrank = 0 then root else (root + 1 + vrank) % (virtualSize + 1)

/-- `kntree_iter` after `ucg_planc_stars_bcast_long_m_bntree_and_rolling_op_init`. -/
def kntreeIter (args : BcastArgs) (size myid : ℕ) : KntreeIter :=
  .init (size - 1) 2 0 (realToVirtual size args.root myid) true

/-- `left_peer` and `right_peer`. -/
def ringPeers (args : BcastArgs) (size myid : ℕ) : ℕ × ℕ :=
  let vrank := realToVirtual size args.root myid
  (virtualToReal (size - 1) args.root ((vrank + size - 2) % (size - 1)),
    virtualToReal (size - 1) args.root ((vrank + 1) % (size - 1)))

/-- The parent in the group. -/
def parentId (args : BcastArgs) (size myid : ℕ) : ℕ :=
  virtualToReal (size - 1) args.root (kntreeIter args size myid).parentValue

/-- The children in the group. -/
def childIds (args : BcastArgs) (size myid : ℕ) : List ℕ :=
  (KntreeIter.childValues (size - 1) (kntreeIter args size myid)).map
    (virtualToReal (size - 1) args.root)

/-- The entries that `ucg_planc_stars_bcast_long_m_peer_init` makes for the peers that put. -/
def getPeers (args : BcastArgs) (size myid : ℕ) : List RankInfo :=
  let (leftPeer, rightPeer) := ringPeers args size myid
  if myid = (args.root + 1) % size then [⟨args.root, 1⟩]
  else longGetPeers leftPeer rightPeer
    (if realToVirtual size args.root myid = 0 then none else some (parentId args size myid))

/-- The entries for the peers that are put to. -/
def putPeers (args : BcastArgs) (size myid : ℕ) : PutPeers :=
  let (leftPeer, rightPeer) := ringPeers args size myid
  if myid = (args.root + 1) % size then ⟨[], []⟩
  else if realToVirtual size args.root myid = 0 then
    .build [⟨(args.root + 1) % size, 1⟩] (childIds args size myid) leftPeer rightPeer
  else if parentId args size myid = leftPeer ∨ parentId args size myid = rightPeer then
    .build [] [] leftPeer rightPeer
  else .build [] (childIds args size myid) leftPeer rightPeer

/-- `bcast_long_m offload_plan`. -/
def offloadPlan (args : BcastArgs) (size myid : ℕ) : CommDep where
  getRanks := getPeers args size myid
  putRanks := (putPeers args size myid).ranks

/-- `rank_idx_map`. -/
def rankIdxMap (args : BcastArgs) (size myid : ℕ) : List (ℕ × ℕ) :=
  (putPeers args size myid).rankIdxMap

/-- `ucg_planc_stars_bcast_long_m_ofd_first_put_req`. -/
def ofdFirstPutReq (args : BcastArgs) (size myid : ℕ) : LongPhase × StreamTask Addr :=
  let length := args.count * args.dtSize
  (.first, .put ((offloadPlan args size myid).putPeer 0)
    (putEvent (offloadPlan args size) CommDep.offsetCommon myid 0 0)
    (bytes .recv 0 length) (bytes .recv 0 length))

/-- `ucg_planc_stars_bcast_long_m_ofd_bntree_put_req`. -/
def ofdBntreePutReq (args : BcastArgs) (size myid childIndex : ℕ) :
    List (LongPhase × StreamTask Addr) :=
  let vrank := realToVirtual size args.root myid
  let iter := kntreeIter args size myid
  let idx := if vrank = 0 then childIndex + 1 else childIndex
  let peerVrank := realToVirtual size args.root ((offloadPlan args size myid).putPeer idx)
  let childSize := KntreeIter.getSubtreeSize iter.size iter.degree iter.root size peerVrank
  longBntreePutReq args (size - 1) (offloadPlan args size) myid idx peerVrank childSize

/-- `bcast_long_m scatter_submit`. -/
def scatterSubmit (args : BcastArgs) (size myid : ℕ) : List (LongPhase × StreamTask Addr) :=
  let iter := (kntreeIter args size myid).reset
  let dep := offloadPlan args size myid
  (if myid ≠ args.root then
    [longWaitReq .scatter 0 dep
      (longParentIdx dep (virtualToReal (size - 1) args.root iter.parentValue))]
    else []) ++
  (List.range (KntreeIter.childValues (size - 1) iter).length).flatMap
    (ofdBntreePutReq args size myid)

/-- `bcast_long_m allgather_submit`. -/
def allgatherSubmit (args : BcastArgs) (size myid : ℕ) :
    Option (List (LongPhase × StreamTask Addr)) :=
  let vrank := realToVirtual size args.root myid
  let iter := RingIter.init (size - 1) vrank
  ((List.range iter.maxIdx).mapM fun stepIdx =>
    let peerVrank :=
      if (vrank + stepIdx) % 2 = 1 then (vrank + (size - 1) - 1) % (size - 1)
      else (vrank + 1) % (size - 1)
    longAllgatherStep args (size - 1) (offloadPlan args size) (rankIdxMap args size myid) myid vrank
      { iter with idx := stepIdx } (virtualToReal (size - 1) args.root peerVrank)
      fun _ => peerVrank).map List.flatten

/-- `bcast_long_m submit_op`. -/
def submitOp (args : BcastArgs) (size myid : ℕ) : Option (List (LongPhase × StreamTask Addr)) :=
  if myid = (args.root + 1) % size then
    some [longWaitReq .first 0 (offloadPlan args size myid) 0]
  else (allgatherSubmit args size myid).map fun ring =>
    (if myid = args.root then [ofdFirstPutReq args size myid] else []) ++
      scatterSubmit args size myid ++ ring

/-! ### The numbering -/

/-- The rank next to the root comes last. -/
def numberOf (n root r : ℕ) : ℕ :=
  if r = (root + 1) % n then n - 1 else realToVirtual n root r

/-- The rank that has a number. -/
def rankOf (n root v : ℕ) : ℕ :=
  if v = n - 1 then (root + 1) % n else virtualToReal (n - 1) root v

section Numbers

variable {n v : ℕ} {args : BcastArgs}

theorem rankOf_last : rankOf n args.root (n - 1) = (args.root + 1) % n := if_pos rfl

theorem rankOf_of_lt (hv : v < n - 1) : rankOf n args.root v = virtualToReal (n - 1) args.root v :=
  if_neg hv.ne

theorem numbering (hn : 2 ≤ n) (hroot : args.root < n) :
    Numbering n (numberOf n args.root) (rankOf n args.root) where
  num_lt r hr := by
    rw [numberOf, realToVirtual, mod_eq_ite (by omega : args.root + 1 < 2 * n),
      mod_eq_ite (by omega : r + n - args.root < 2 * n)]
    split_ifs <;> omega
  rank_lt v hv := by
    rw [rankOf, virtualToReal, show n - 1 + 1 = n by omega]
    split_ifs
    · exact Nat.mod_lt _ (by omega)
    · exact hroot
    · exact Nat.mod_lt _ (by omega)
  rank_eq_iff r hr v hv := by
    rw [rankOf, numberOf, virtualToReal, realToVirtual, show n - 1 + 1 = n by omega,
      mod_eq_ite (by omega : args.root + 1 < 2 * n),
      mod_eq_ite (by omega : args.root + 1 + v < 2 * n),
      mod_eq_ite (by omega : r + n - args.root < 2 * n)]
    split_ifs <;> omega

theorem rankOf_zero (hn : 2 ≤ n) : rankOf n args.root 0 = args.root := by
  rw [rankOf_of_lt (by omega), virtualToReal, if_pos rfl]

theorem rankOf_inj (hn : 2 ≤ n) (hroot : args.root < n) {w : ℕ} (hv : v < n) (hw : w < n)
    (heq : rankOf n args.root v = rankOf n args.root w) : v = w := by
  have hnum := numbering hn hroot
  rw [(hnum.rank_eq_iff _ (hnum.rank_lt w hw) v hv).mp heq,
    ← (hnum.rank_eq_iff _ (hnum.rank_lt w hw) w hw).mp rfl]

theorem rankOf_ne_near (hn : 2 ≤ n) (hroot : args.root < n) (hv : v < n - 1) :
    rankOf n args.root v ≠ (args.root + 1) % n := by
  have hnear : (args.root + 1) % n < n := Nat.mod_lt _ (by omega)
  have heq := (numbering hn hroot).rank_eq_iff _ hnear v (by omega)
  rw [numberOf, if_pos rfl] at heq
  exact fun h => hv.ne (heq.mp h)

theorem realToVirtual_rankOf (hn : 2 ≤ n) (hroot : args.root < n) (hv : v < n - 1) :
    realToVirtual n args.root (rankOf n args.root v) = v := by
  have hnum := numbering hn hroot
  have heq := (hnum.rank_eq_iff _ (hnum.rank_lt v (by omega)) v (by omega)).mp rfl
  rwa [numberOf, if_neg (rankOf_ne_near hn hroot hv), eq_comm] at heq

theorem rankOf_eq_root (hn : 2 ≤ n) (hroot : args.root < n) (hv : v < n) :
    rankOf n args.root v = args.root ↔ v = 0 := by
  have hnum := numbering hn hroot
  rw [hnum.rank_eq_iff _ hroot v hv, ← (hnum.rank_eq_iff _ hroot 0 (by omega)).mp (rankOf_zero hn)]

/-- A rank whose parent is a neighbour on the ring has no children. -/
theorem kntreeChildren_eq_nil {k : ℕ} (hv : v < k) (hpos : 0 < v)
    (hparent : kntreeParent 2 v = leftOf k v ∨ kntreeParent 2 v = rightOf k v) :
    kntreeChildren k 2 v = [] := by
  refine List.eq_nil_iff_forall_not_mem.mpr fun c hc => ?_
  obtain ⟨hcpos, hck, hvc⟩ := (mem_kntreeChildren (by decide : 1 < 2)).mp hc
  obtain ⟨hdvd, hcv⟩ := scatterChild_iff.mpr ⟨hcpos, rfl, hvc⟩
  obtain ⟨hdvd', -⟩ := scatterChild_iff.mpr ⟨hpos, rfl, rfl⟩
  have htwo : 2 ∣ v := (dvd_pow_self 2 (Nat.succ_ne_zero _)).trans hdvd
  have htwo' : 2 ∣ kntreeParent 2 v := (dvd_pow_self 2 (Nat.succ_ne_zero _)).trans hdvd'
  have hlt := kntreeParent_lt (by decide : 1 < 2) hpos
  have hle : v < c := hvc ▸ kntreeParent_lt (by decide) hcpos
  rw [leftOf, rightOf, mod_eq_ite (by omega : v + k - 1 < 2 * k),
    mod_eq_ite (by omega : v + 1 < 2 * k)] at hparent
  split_ifs at hparent <;> omega

/-- The tree is that of a smaller group whose root is rank 0. -/
theorem kntreeIter_eq (hn : 2 ≤ n) (hroot : args.root < n) (hv : v < n - 1) :
    kntreeIter args n (rankOf n args.root v) =
      BcastLong.kntreeIter { args with root := 0 } (n - 1) v := by
  rw [kntreeIter, realToVirtual_rankOf hn hroot hv]
  rfl

theorem ringPeers_eq (hn : 3 ≤ n) (hroot : args.root < n) (hv : v < n - 1) :
    ringPeers args n (rankOf n args.root v) =
      (rankOf n args.root (leftOf (n - 1) v), rankOf n args.root (rightOf (n - 1) v)) := by
  rw [ringPeers, realToVirtual_rankOf (by omega) hroot hv, rankOf_of_lt (leftOf_lt (by omega)),
    rankOf_of_lt (rightOf_lt (by omega)), leftOf, rightOf,
    show v + n - 2 = v + (n - 1) - 1 by omega]

theorem toRank_root_zero {k : ℕ} (hv : v < k) : Ucx.toRank k 0 v = v := Nat.mod_eq_of_lt hv

/-- The parent of a rank, from the iterator. -/
theorem parentValue_eq (hn : 3 ≤ n) (hroot : args.root < n) (hv : v < n - 1) (hpos : 0 < v)
    {iter : KntreeIter} (hiter : iter.toKntreeBase =
      (kntreeIter args n (rankOf n args.root v)).toKntreeBase) :
    virtualToReal (n - 1) args.root iter.parentValue = rankOf n args.root (kntreeParent 2 v) := by
  have hlt := (kntreeParent_lt (by decide : 1 < 2) hpos).trans hv
  rw [kntreeIter_eq (by omega) hroot hv] at hiter
  have hvalue := BcastLong.parentValue_eq { args with root := 0 } (by omega : 2 ≤ n - 1)
    (by simp; omega) hv hpos (by rw [hiter, toRank_root_zero hv])
  rw [hvalue, toRank_root_zero hlt, rankOf_of_lt hlt]

theorem map_toRank_zero {k : ℕ} : ((kntreeChildren k 2 v).map fun c => (c + 0) % k) =
    kntreeChildren k 2 v := by
  refine (List.map_congr_left fun c hc => ?_).trans (List.map_id _)
  exact Nat.mod_eq_of_lt (mem_kntreeRest.mp hc).1

theorem childIds_eq (hn : 3 ≤ n) (hroot : args.root < n) (hv : v < n - 1) :
    childIds args n (rankOf n args.root v) =
      (kntreeChildren (n - 1) 2 v).map (rankOf n args.root) := by
  rw [childIds, kntreeIter, realToVirtual_rankOf (by omega) hroot hv,
    childValues_binomial (by omega), show v + (n - 1) - 0 = v + (n - 1) from rfl,
    Nat.add_mod_right, Nat.mod_eq_of_lt hv, map_toRank_zero]
  exact List.map_congr_left fun c hc => (rankOf_of_lt (mem_kntreeRest.mp hc).1).symm

theorem longPlan (hn : 4 ≤ n) (hroot : args.root < n) :
    LongPlan true (n - 1) (rankOf n args.root) (offloadPlan args n) (rankIdxMap args n) where
  three := by omega
  inj v hv w hw heq := by
    have hranks : scatterRanks true (n - 1) = n := by
      rw [scatterRanks, if_pos rfl]
      omega
    rw [hranks] at hv hw
    exact rankOf_inj (by omega) hroot hv hw heq
  get_ring v hv := by
    rw [offloadPlan, getPeers, ringPeers_eq (by omega) hroot hv]
    dsimp only
    rw [if_neg (rankOf_ne_near (by omega) hroot hv), realToVirtual_rankOf (by omega) hroot hv]
    congr 1
    split_ifs with h
    · rfl
    · rw [parentId, parentValue_eq (by omega) hroot hv (Nat.pos_of_ne_zero h) rfl]
  get_more _ := by
    rw [offloadPlan, getPeers, rankOf_last, rankOf_zero (by omega)]
    exact if_pos rfl
  put_ring v hv := by
    have hput : (⟨(offloadPlan args n (rankOf n args.root v)).putRanks,
        rankIdxMap args n (rankOf n args.root v)⟩ : PutPeers) =
        putPeers args n (rankOf n args.root v) := rfl
    rw [hput, putPeers, ringPeers_eq (by omega) hroot hv]
    dsimp only
    rw [if_neg (rankOf_ne_near (by omega) hroot hv), realToVirtual_rankOf (by omega) hroot hv,
      childIds_eq (by omega) hroot hv, longFirst, rankOf_last]
    rcases Nat.eq_zero_or_pos v with rfl | hpos
    · rw [if_pos rfl, if_pos ⟨rfl, rfl⟩]
    · have hparent := (kntreeParent_lt (by decide : 1 < 2) hpos).trans hv
      have hfirst : ¬(true = true ∧ v = 0) := fun hh => hpos.ne' hh.2
      rw [if_neg hpos.ne', if_neg hfirst, parentId, parentValue_eq (by omega) hroot hv hpos rfl]
      split_ifs with hneighbour
      · -- no child has been left out
        have hinj {w : ℕ} (hw : w < n - 1)
            (heq : rankOf n args.root (kntreeParent 2 v) = rankOf n args.root w) :
            kntreeParent 2 v = w := rankOf_inj (by omega) hroot (by omega) (by omega) heq
        rw [kntreeChildren_eq_nil hv hpos
          (hneighbour.imp (hinj (leftOf_lt (by omega))) (hinj (rightOf_lt (by omega))))]
        rfl
      · rfl
  put_more _ := by
    rw [offloadPlan, putPeers, rankOf_last]
    dsimp only
    rw [if_pos rfl]

/-- The requests for the children are the puts of the scatter. -/
theorem scatterSubmit_eq (hn : 4 ≤ n) (hroot : args.root < n) (hv : v < n - 1) :
    scatterSubmit args n (rankOf n args.root v) =
      (scatterTasks (n - 1) v).map fun x => (.scatter,
        (longPlacement args (n - 1) (numberOf n args.root) (rankOf n args.root)).task v x) := by
  have hplan := longPlan hn hroot
  have hvalues : KntreeIter.childValues (n - 1) (kntreeIter args n (rankOf n args.root v)).reset =
      kntreeChildren (n - 1) 2 v := by
    rw [kntreeIter, realToVirtual_rankOf (by omega) hroot hv,
      childValues_binomial_reset (by omega), show v + (n - 1) - 0 = v + (n - 1) from rfl,
      Nat.add_mod_right, Nat.mod_eq_of_lt hv, map_toRank_zero]
  rw [scatterSubmit, scatterTasks, List.map_append]
  congr 1
  · rcases Nat.eq_zero_or_pos v with rfl | hpos
    · rw [if_neg (not_not.mpr ((rankOf_eq_root (by omega) hroot (by omega)).mpr rfl)), if_pos rfl]
      rfl
    · rw [if_pos fun heq => hpos.ne' ((rankOf_eq_root (by omega) hroot (by omega)).mp heq),
        if_neg hpos.ne', parentValue_eq (by omega) hroot hv hpos (KntreeIter.reset_base _),
        List.map_singleton]
      exact congrArg (· :: []) (hplan.waitReq_parent hv hpos)
  · rw [hvalues, List.map_flatMap]
    refine LongPlan.flatMap_range_length fun i c hc => ?_
    obtain ⟨hcpos, hck, -⟩ := (mem_kntreeChildren (by decide : 1 < 2)).mp (List.mem_of_getElem? hc)
    have hidx : (if v = 0 then i + 1 else i) =
        (longFirst true (n - 1) (rankOf n args.root) v).length + i := by
      rw [longFirst]
      by_cases h : v = 0
      · rw [if_pos h, if_pos ⟨rfl, h⟩, List.length_singleton, Nat.add_comm]
      · have hfirst : ¬(true = true ∧ v = 0) := fun hh => h hh.2
        rw [if_neg h, if_neg hfirst, List.length_nil, Nat.zero_add]
    have hput := hplan.put_child hv hc
    have hpeer : (offloadPlan args n (rankOf n args.root v)).putPeer
        ((longFirst true (n - 1) (rankOf n args.root) v).length + i) = rankOf n args.root c :=
      (LongPlan.putPeer_of_get hput).1
    have hsize : KntreeIter.getSubtreeSize (n - 1) 2 0 n c = scatterEnd (n - 1) c - c := by
      have hsub := getSubtreeSize_eq (by omega : 2 ≤ n - 1) (by omega : 0 < n - 1) hck
        (by omega : n - 1 - c ≤ n)
      rwa [Nat.add_zero, Nat.mod_eq_of_lt hck] at hsub
    have hbase :=
      BcastLong.kntreeIter_base { args with root := 0 } (by omega : 2 ≤ n - 1) (by simp; omega) hv
    rw [toRank_root_zero hv, ← kntreeIter_eq (by omega) hroot hv] at hbase
    simp only [ofdBntreePutReq, realToVirtual_rankOf (by omega : 2 ≤ n) hroot hv, hidx, hpeer,
      hbase,
      KntreeIter.baseOf, realToVirtual_rankOf (by omega : 2 ≤ n) hroot hck, hsize]
    exact hplan.bntreePutReq_eq _ _ hv hc

/-- The rounds on the ring are the steps of the rolling allgather. -/
theorem allgatherSubmit_eq (hn : 4 ≤ n) (hroot : args.root < n)
    (hdt : args.dtExtent = args.dtSize) (hv : v < n - 1) :
    allgatherSubmit args n (rankOf n args.root v) = some
      ((rollingBy (n - 1) (fun _ => true) (fun _ _ => LongPhase.ring) (fun _ _ => .ring) v).map
        (Prod.map id
          ((longPlacement args (n - 1) (numberOf n args.root) (rankOf n args.root)).task v))) := by
  have hplan := longPlan hn hroot
  have hneighbours : (RingIter.init (n - 1) v).left ≠ (RingIter.init (n - 1) v).right :=
    leftOf_ne_rightOf (by omega) hv
  rw [rollingBy, if_pos hv, List.map_flatMap, allgatherSubmit,
    realToVirtual_rankOf (by omega) hroot hv]
  refine LongPlan.mapM_range_eq fun t _ => ?_
  have hpeer : virtualToReal (n - 1) args.root (if (v + t) % 2 = 1
      then (v + (n - 1) - 1) % (n - 1) else (v + 1) % (n - 1)) =
        rankOf n args.root (rollPeer (n - 1) v t) := (rankOf_of_lt hplan.rollPeer_lt).symm
  dsimp only
  rw [hpeer]
  exact hplan.allgatherStep_eq hdt hv hneighbours rfl

end Numbers

/-- The requests are those of the scatter and of the ring, and the put in front of them. -/
theorem longSubmits {n : ℕ} {args : BcastArgs} (hn : 4 ≤ n) (hroot : args.root < n)
    (hdt : args.dtExtent = args.dtSize) :
    LongSubmits args true (n - 1) (numberOf n args.root) (rankOf n args.root) (offloadPlan args n)
      (rankIdxMap args n) (submitOp args n) where
  plan := longPlan hn hroot
  numbering := by
    have hranks : scatterRanks true (n - 1) = n := by
      rw [scatterRanks, if_pos rfl]
      omega
    rw [hranks]
    exact numbering (by omega) hroot
  root := rankOf_zero (by omega)
  submits v hv := by
    have hplan := longPlan hn hroot
    by_cases hvk : v < n - 1
    · have hphase (x : StreamTask ℕ) (hx : x ∈ scatterTasks (n - 1) v) :
          phaseOf (n - 1) v x = .scatter := by
        cases x with
        | wait e => exact if_neg hvk.ne
        | put w ev src dst =>
          have hchild : w ∈ kntreeChildren (n - 1) 2 v := by
            rw [scatterTasks, List.mem_append] at hx
            rcases hx with hx | hx
            · split_ifs at hx <;> simp at hx
            · obtain ⟨c, hc, hx⟩ := List.mem_flatMap.mp hx
              obtain ⟨b, -, heq⟩ := List.mem_map.mp hx
              rw [StreamTask.put.injEq] at heq
              rwa [← heq.1]
          exact if_neg (mem_kntreeRest.mp hchild).1.ne
      rw [submitOp, if_neg (rankOf_ne_near (by omega) hroot hvk),
        allgatherSubmit_eq hn hroot hdt hvk,
        Option.map_some, scatterSubmit_eq hn hroot hvk, longRequests, scatterWith, if_pos hvk,
        List.map_append, List.map_append, List.map_append, List.map_map, List.map_map]
      congr 3
      · rcases Nat.eq_zero_or_pos v with rfl | hpos
        · rw [if_pos ((rankOf_eq_root (by omega) hroot (by omega)).mpr rfl), if_pos ⟨rfl, rfl⟩,
            ofdFirstPutReq]
          rw [hplan.firstPutReq_eq rfl hdt, List.map_singleton]
          congr 1
          exact Prod.ext (if_pos rfl).symm rfl
        · have hfirst : ¬(true = true ∧ v = 0) := fun hh => hpos.ne' hh.2
          rw [if_neg fun heq => hpos.ne' ((rankOf_eq_root (by omega) hroot (by omega)).mp heq),
            if_neg hfirst]
          rfl
      · refine List.map_congr_left fun x hx => ?_
        rw [Function.comp_apply, Prod.map_apply, id_eq, hphase x hx]
    · -- the rank next to the root
      obtain ⟨-, rfl⟩ := LongPlan.eq_of_not_lt hv hvk
      have hentry := hplan.entry_more rfl
      rw [submitOp, if_pos rankOf_last, longRequests, scatterWith, if_neg (lt_irrefl _),
        if_pos ⟨rfl, rfl⟩, rollingBy, if_neg (lt_irrefl _), List.append_nil, List.map_singleton,
        List.map_singleton, longWaitReq, waitEvent, hentry.offset]
      have hslot := longSlot_last (by omega : 0 < n - 1)
      simp [phaseOf, Placement.task, longPlacement, hslot]

end Kucg.Stars.BcastLongM

namespace Kucg.Stars

open Kucg.Algo Kucg.Lib

/-- Four elements of one byte, each with a gap behind it. -/
def paddedArgs : BcastArgs := ⟨0, 4, 1, 2⟩

end Kucg.Stars
