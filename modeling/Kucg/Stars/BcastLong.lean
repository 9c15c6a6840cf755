import Kucg.Core.Status
import Kucg.Stars.LongRuns
import Kucg.Ucx.Bcast

/-! The offloaded long broadcast of `bcast_long.c`.

    The tree and the ring have all ranks. Numbered from the root on, these do what the scatter and
    the rolling allgather do (`longSubmits`). -/

namespace Kucg.Stars.BcastLong

open Kucg.Algo Kucg.Core Kucg.Lib Kucg.Ucx

/-- `bcast_long check`. -/
def check (numprocs count : ℕ) : Status :=
  if numprocs > count then .errUnsupported
  else if numprocs = 2 then .errUnsupported
  else .ok

/-- `kntree_iter` after `ucg_planc_stars_bcast_long_bntree_and_rolling_op_init`. -/
def kntreeIter (args : BcastArgs) (size myid : ℕ) : KntreeIter := .init size 2 args.root myid true

/-- `ucg_planc_stars_bcast_long_get_peer_init`. -/
def getPeerInit (args : BcastArgs) (size myid : ℕ) : List RankInfo :=
  let leftPeer := (myid + size - 1) % size
  let rightPeer := (myid + 1) % size
  longGetPeers leftPeer rightPeer
    (if myid ≠ args.root then some (kntreeIter args size myid).parentValue else none)

/-- The entries that `bcast_long offload_plan` makes for the peers that a rank puts to. -/
def putPeerInit (args : BcastArgs) (size myid : ℕ) : PutPeers :=
  let leftPeer := (myid + size - 1) % size
  let rightPeer := (myid + 1) % size
  .build [] (KntreeIter.childValues size (kntreeIter args size myid)) leftPeer rightPeer

/-- `bcast_long offload_plan`. -/
def offloadPlan (args : BcastArgs) (size myid : ℕ) : CommDep where
  getRanks := getPeerInit args size myid
  putRanks := (putPeerInit args size myid).ranks

/-- `rank_idx_map`. -/
def rankIdxMap (args : BcastArgs) (size myid : ℕ) : List (ℕ × ℕ) :=
  (putPeerInit args size myid).rankIdxMap

/-- `ucg_planc_stars_bcast_long_ofd_bntree_put_req`. -/
def ofdBntreePutReq (args : BcastArgs) (size myid childIndex : ℕ) :
    List (LongPhase × StreamTask Addr) :=
  let iter := kntreeIter args size myid
  let peer := (offloadPlan args size myid).putPeer childIndex
  let peerVrank := (peer + size - args.root) % size
  let childSize := KntreeIter.getSubtreeSize iter.size iter.degree iter.root size peer
  longBntreePutReq args size (offloadPlan args size) myid childIndex peerVrank childSize

/-- `bcast_long scatter_submit`. -/
def scatterSubmit (args : BcastArgs) (size myid : ℕ) : List (LongPhase × StreamTask Addr) :=
  let iter := (kntreeIter args size myid).reset
  let dep := offloadPlan args size myid
  (if myid ≠ args.root then [longWaitReq .scatter 0 dep (longParentIdx dep iter.parentValue)]
    else []) ++
  (List.range (KntreeIter.childValues size iter).length).flatMap (ofdBntreePutReq args size myid)

/-- `bcast_long allgather_submit`. -/
def allgatherSubmit (args : BcastArgs) (size myid : ℕ) :
    Option (List (LongPhase × StreamTask Addr)) :=
  let iter := RingIter.init size myid
  let myVrank := (myid + size - args.root) % size
  ((List.range iter.maxIdx).mapM fun stepIdx =>
    let peerId :=
      if (myVrank + stepIdx) % 2 = 1 then (myid + size - 1) % size else (myid + 1) % size
    longAllgatherStep args size (offloadPlan args size) (rankIdxMap args size myid) myid myVrank
      { iter with idx := stepIdx } peerId fun peer => (peer + size - args.root) % size).map
    List.flatten

/-- `bcast_long submit_op`. -/
def submitOp (args : BcastArgs) (size myid : ℕ) : Option (List (LongPhase × StreamTask Addr)) :=
  (allgatherSubmit args size myid).map fun ring => scatterSubmit args size myid ++ ring

section Numbers

variable {n v : ℕ} {args : BcastArgs}

/-- The neighbours and the parent in the group. -/
theorem toRank_left (hroot : args.root < n) (hv : v < n) :
    (toRank n args.root v + n - 1) % n = toRank n args.root (leftOf n v) := leftOf_toRank hroot hv

theorem toRank_right : (toRank n args.root v + 1) % n = toRank n args.root (rightOf n v) :=
  rightOf_toRank

variable (args) in
theorem kntreeIter_base (hn : 2 ≤ n) (hroot : args.root < n) (hv : v < n) :
    (kntreeIter args n (toRank n args.root v)).toKntreeBase =
      KntreeIter.baseOf n 2 args.root v true := by
  have hbase := KntreeIter.init_base args.root (toRank n args.root v) true
    (show 1 < KntreeIter.initDegree n 2 by rw [initDegree_two hn]; decide) (by omega)
  rwa [toRank_add_sub_mod hroot hv, initDegree_two hn] at hbase

variable (args) in
theorem parentValue_eq (hn : 2 ≤ n) (hroot : args.root < n) (hv : v < n) (hpos : 0 < v)
    {iter : KntreeIter} (hiter : iter.toKntreeBase =
      (kntreeIter args n (toRank n args.root v)).toKntreeBase) :
    iter.parentValue = toRank n args.root (kntreeParent 2 v) := by
  have hparent : iter.parent = some (toRank n args.root (kntreeParent 2 v)) := by
    rw [hiter, kntreeIter_base args hn hroot hv]
    exact if_neg hpos.ne'
  rw [KntreeIter.parentValue, hparent]
  rfl

theorem longPlan (hn : 3 ≤ n) (hroot : args.root < n) :
    LongPlan false n (toRank n args.root) (offloadPlan args n) (rankIdxMap args n) where
  three := hn
  inj v hv w hw heq := by
    have hv' := toRank_add_sub_mod hroot (show v < n from hv)
    have hw' := toRank_add_sub_mod hroot (show w < n from hw)
    rw [← hv', ← hw', heq]
  get_ring v hv := by
    rw [offloadPlan, getPeerInit]
    dsimp only
    rw [toRank_left hroot hv, toRank_right]
    congr 1
    rcases Nat.eq_zero_or_pos v with rfl | hpos
    · rw [if_neg (not_not.mpr ((toRank_eq_root_iff hroot hv).mpr rfl)), if_pos rfl]
    · rw [if_pos fun heq => hpos.ne' ((toRank_eq_root_iff hroot hv).mp heq), if_neg hpos.ne',
        parentValue_eq args (by omega) hroot hv hpos rfl]
  get_more h := absurd h Bool.false_ne_true
  put_ring v hv := by
    have hput : (⟨(offloadPlan args n (toRank n args.root v)).putRanks,
        rankIdxMap args n (toRank n args.root v)⟩ : PutPeers) =
        putPeerInit args n (toRank n args.root v) := rfl
    rw [hput, putPeerInit, toRank_left hroot hv, toRank_right, kntreeIter,
      childValues_binomial (by omega),
      toRank_add_sub_mod hroot hv]
    rfl
  put_more h := absurd h Bool.false_ne_true

/-- The requests for the children are the puts of the scatter. -/
theorem scatterSubmit_eq (hn : 3 ≤ n) (hroot : args.root < n) (hv : v < n) :
    scatterSubmit args n (toRank n args.root v) =
      (scatterTasks n v).map fun x => (.scatter,
        (longPlacement args n (fromRoot n args.root) (toRank n args.root)).task v x) := by
  have hplan := longPlan hn hroot
  have hvalues : KntreeIter.childValues n (kntreeIter args n (toRank n args.root v)).reset =
      (kntreeChildren n 2 v).map fun c => (c + args.root) % n := by
    rw [kntreeIter, childValues_binomial_reset (by omega), toRank_add_sub_mod hroot hv]
  rw [scatterSubmit, scatterTasks, List.map_append]
  congr 1
  · rcases Nat.eq_zero_or_pos v with rfl | hpos
    · rw [if_neg (not_not.mpr ((toRank_eq_root_iff hroot hv).mpr rfl)), if_pos rfl]
      rfl
    · rw [if_pos fun heq => hpos.ne' ((toRank_eq_root_iff hroot hv).mp heq), if_neg hpos.ne',
        parentValue_eq args (by omega) hroot hv hpos (KntreeIter.reset_base _), List.map_singleton]
      exact congrArg (· :: []) (hplan.waitReq_parent hv hpos)
  · rw [hvalues, List.length_map, List.map_flatMap]
    refine LongPlan.flatMap_range_length fun i c hc => ?_
    obtain ⟨hpos, hck, -⟩ := (mem_kntreeChildren (by decide : 1 < 2)).mp (List.mem_of_getElem? hc)
    have hput := hplan.put_child hv hc
    rw [longFirst, if_neg (by simp), List.length_nil, Nat.zero_add] at hput
    have hsize : KntreeIter.getSubtreeSize n 2 args.root n (toRank n args.root c) =
        scatterEnd n c - c := getSubtreeSize_eq (by omega) hroot hck (by omega)
    have hbase := kntreeIter_base args (by omega) hroot hv
    have hreq := hplan.bntreePutReq_eq (fromRoot n args.root) args hv hc
    rw [longFirst, if_neg (by simp), List.length_nil, Nat.zero_add] at hreq
    have hpeer : (offloadPlan args n (toRank n args.root v)).putPeer i = toRank n args.root c :=
      (LongPlan.putPeer_of_get hput).1
    simp only [ofdBntreePutReq, hbase, KntreeIter.baseOf, hpeer]
    rw [toRank_add_sub_mod hroot hck, hsize, hreq]

/-- The rounds on the ring are the steps of the rolling allgather. -/
theorem allgatherSubmit_eq (hn : 3 ≤ n) (hroot : args.root < n)
    (hdt : args.dtExtent = args.dtSize) (hv : v < n) :
    allgatherSubmit args n (toRank n args.root v) = some
      ((rollingBy n (fun _ => true) (fun _ _ => LongPhase.ring) (fun _ _ => .ring) v).map
        (Prod.map id
          ((longPlacement args n (fromRoot n args.root) (toRank n args.root)).task v))) := by
  have hplan := longPlan hn hroot
  have hneighbours : (RingIter.init n (toRank n args.root v)).left ≠
      (RingIter.init n (toRank n args.root v)).right :=
    leftOf_ne_rightOf hn (toRank_lt hroot)
  rw [rollingBy, if_pos hv, List.map_flatMap]
  refine LongPlan.mapM_range_eq fun t _ => ?_
  have hpeer : (if (v + t) % 2 = 1 then (toRank n args.root v + n - 1) % n
      else (toRank n args.root v + 1) % n) = toRank n args.root (rollPeer n v t) := by
    rw [rollPeer, toRank_left hroot hv, toRank_right]
    exact (apply_ite _ _ _ _).symm
  dsimp only
  rw [toRank_add_sub_mod hroot hv, hpeer]
  exact hplan.allgatherStep_eq hdt hv hneighbours (toRank_add_sub_mod hroot hplan.rollPeer_lt)

end Numbers

/-- The requests are those of the scatter and of the ring, numbered from the root on. -/
theorem longSubmits {n : ℕ} {args : BcastArgs} (hn : 3 ≤ n) (hroot : args.root < n)
    (hdt : args.dtExtent = args.dtSize) :
    LongSubmits args false n (fromRoot n args.root) (toRank n args.root) (offloadPlan args n)
      (rankIdxMap args n) (submitOp args n) where
  plan := longPlan hn hroot
  numbering := numbering_fromRoot hroot
  root := (toRank_eq_root_iff hroot (by omega)).mpr rfl
  submits v hv := by
    have hv : v < n := hv
    rw [submitOp, allgatherSubmit_eq hn hroot hdt hv, Option.map_some, scatterSubmit_eq hn hroot hv,
      longRequests, scatterWith, if_pos hv, if_neg (by simp), List.nil_append, List.map_append,
      List.map_map]
    congr 2
    refine List.map_congr_left fun x hx => ?_
    rw [Function.comp_apply, Prod.map_apply, id_eq]
    congr 1
    -- no rank is served in front of the scatter
    cases x with
    | wait e => exact (if_neg hv.ne).symm
    | put w ev src dst =>
      have hmem : .put w ev src dst ∈ scatterWith false n v := by
        rwa [scatterWith, if_pos hv, if_neg (by simp), List.nil_append]
      obtain ⟨-, -, ⟨hmore, -⟩ | ⟨hchild, -⟩⟩ := put_of_mem_scatterWith hmem
      · exact absurd hmore Bool.false_ne_true
      · exact (if_neg (mem_kntreeRest.mp hchild).1.ne).symm

end Kucg.Stars.BcastLong
