import Kucg.Stars.BcastLongM
import Kucg.Stars.BcastRings
import Kucg.Stars.OfdRequest
import Kucg.Stars.RegisteredRanges
import Kucg.Stars.ScattervKntree

/-! Which submits of which operations have work.

    A rolling allgatherv leaves empty blocks out, so that nothing is left when all blocks are empty;
    nor has a barrier of one rank anything to do. All other submits that are reached have requests
    (`requests_ne_nil_iff`). -/

namespace Kucg.Stars

open Kucg.Algo Kucg.Core Kucg.Lib

/-- An operation, with what the ranks pass to it. -/
inductive Operation where
  | allgathervRolling (args : ℕ → AllgathervArgs)
  | alltoallvPairwise (args : ℕ → AlltoallvArgs) (config : Barrier.Config)
  | scattervKntree (args : ℕ → ScattervArgs) (config : Scatterv.Config)
  | barrierFaninfanout (config : Barrier.Config)
  | bcastRingM (args : BcastArgs)
  | bcastRing2M (args : BcastArgs)
  | bcastLong (args : BcastArgs)
  | bcastLongM (args : BcastArgs)

namespace Operation

variable (o : Operation) (size myrank : ℕ)

/-- `check`. -/
def check : Status :=
  match o with
  | allgathervRolling _ | alltoallvPairwise .. | scattervKntree .. | barrierFaninfanout _ => .ok
  | bcastRingM _ => BcastRingM.check size
  | bcastRing2M _ => BcastRing2M.check size
  | bcastLong args => BcastLong.check size args.count
  | bcastLongM args => BcastLongM.check size args.count

/-- The root of a broadcast is a rank. -/
def RootLt : Prop :=
  match o with
  | bcastRingM args | bcastRing2M args | bcastLong args | bcastLongM args => args.root < size
  | _ => True

/-- The requests that are in the queue when `submit_op` has filled it. -/
def submitOp : List (StreamTask Addr) :=
  match o with
  | allgathervRolling args => Rolling.streams args size myrank
  | alltoallvPairwise args config => Pairwise.streams args config size myrank
  | scattervKntree args config => Scatterv.submitStarsOp config args size myrank
  | barrierFaninfanout config => Barrier.submitStarsOp config size myrank
  | bcastRingM args => BcastRingM.submitOp args size myrank
  | bcastRing2M args => BcastRing2M.submitOp args size myrank
  | bcastLong args => ((BcastLong.submitOp args size myrank).getD []).map Prod.snd
  | bcastLongM args => ((BcastLongM.submitOp args size myrank).getD []).map Prod.snd

/-- The lengths of the buffers that `init_rbuf` and `init_sbuf` register, of which none may be
    zero (`sct_md_mem_reg`). -/
def registered : List ℕ :=
  match o with
  | allgathervRolling args =>
    let a := args myrank
    (rbufSize a size).toList ++
      if a.inPlace ∨ a.recvcounts myrank = 0 then [] else [a.sendcount * a.sendExtent]
  | alltoallvPairwise args _ =>
    (caculateRbufSize (args myrank) size).toList ++ (putMaxSize (args myrank) size).toList
  | scattervKntree args config =>
    let a := args myrank
    let dtsize := Scatterv.sendtypeSize config args myrank
    let kntree := Scatterv.removeZero config args size myrank
    if myrank ≠ a.root then
      [(Scatterv.sendcounts config args myrank myrank +
        ((List.range kntree.childRank.length).map
          (Scatterv.childTotalSize config args size myrank)).sum) * dtsize]
    else if kntree.stagingCount = 0 then []
    else
      [(((List.range size).map fun i => a.sendcounts i + a.displs i).foldl max 0).toNat * dtsize]
  | barrierFaninfanout _ => [8]
  | bcastRingM args | bcastRing2M args | bcastLong args | bcastLongM args =>
      [args.count * args.dtSize]

/-- The initialisation and the trigger get to the submit. An iterator of a leftmost tree of one rank
    goes on for ever if its degree is not at most one; the alltoallv looks for its events at its
    first peer; and an empty rank does not take part in a scatterv. -/
def Submits : Prop :=
  0 ∉ o.registered size myrank ∧
  match o with
  | alltoallvPairwise .. => size ≠ 1
  | scattervKntree args config =>
    let kntree := Scatterv.removeZero config args size myrank
    (config.runHpl = true ∨ size ≠ 1 ∨ config.kntreeDegree ≤ 1) ∧ kntree.isEmpty = false ∧
      (kntree.vGroupSize ≠ 1 ∨ config.kntreeDegree ≤ 1)
  | barrierFaninfanout config => size ≠ 1 ∨ config.fanoutDegree ≤ 1
  | bcastLong args => size ≠ 1 ∧ (BcastLong.submitOp args size myrank).isSome
  | bcastLongM args => (BcastLongM.submitOp args size myrank).isSome
  | _ => True

/-- A failed trigger of a barrier reports what the submit has returned. -/
def reports : Bool :=
  match o with
  | barrierFaninfanout _ => true
  | _ => false

/-- The operation has something to submit. -/
def HasRequests : Prop :=
  match o with
  | allgathervRolling args =>
    (2 ≤ size ∧ ∃ b < size, (args myrank).recvcounts b ≠ 0) ∨
      ((args myrank).inPlace = false ∧ (args myrank).recvcounts myrank ≠ 0)
  | barrierFaninfanout _ => 2 ≤ size
  | _ => True

end Operation

/-- The request for a task, through an endpoint. A put without an event does not notify. -/
def ofdReqElem (ep : Endpoint) : StreamTask Addr → OfdReqElem
  | .put _ event src _ => ⟨0, true, ep, src.length, event.isNone, false, 0⟩
  | .wait _ => ⟨0, false, ep, 0, false, false, 0⟩

open Classical in
/-- The requests of each round, if the submit is reached; `eps` are their endpoints. -/
noncomputable def Operation.requests (o : Operation) (size myrank : ℕ) (eps : ℕ → Endpoint) :
    Option (List OfdReqElem) :=
  if o.Submits size myrank then
    some ((o.submitOp size myrank).mapIdx fun i task => ofdReqElem (eps i) task)
  else none

/-! ### Rolling allgatherv -/

namespace Rolling

variable {n p k : ℕ} {args : AllgathervArgs}

/-- The block of a wait. -/
theorem ofdWaitReqElem_wait (hp : p < n) (hk : k < n - 1) :
    ofdWaitReqElem args n p (iterAt n p k) ((p + k + 1) % 2) =
      if args.recvcounts (rollRecv n p k) = 0 then [] else
        [(rollRecv n p k, .wait (waitEvent (offloadPlan n p) CommDep.offsetCommon
          ((p + k + 1) % 2) 0))] := by
  rw [ofdWaitReqElem]
  by_cases hpar : (p + k) % 2 = 1
  · have hidx : (p + k + 1) % 2 = 0 := by omega
    have hpeer : (offloadPlan n p).getPeer 0 = leftOf n p := rfl
    have hrecv : rollRecv n p k = (leftOf n p + n - k / 2) % n := if_pos hpar
    by_cases hsame : leftOf n p = rightOf n p
    · -- two ranks, of which each is on both sides of the other one
      have hk : k = 0 := by
        by_contra hpos
        exact leftOf_ne_rightOf (by omega) hp hsame
      have hblock : (leftOf n p + k / 2 + n) % n = rollRecv n p k := by
        rw [hrecv, hk, Nat.zero_div, Nat.add_zero, Nat.sub_zero]
      simp only [iterAt, RingIter.init, hidx, hpeer, if_pos hsame, hblock]
    · simp only [iterAt, RingIter.init, hidx, hpeer, if_neg hsame, hrecv]
  · have hidx : (p + k + 1) % 2 = 1 := by omega
    have hpeer : (offloadPlan n p).getPeer 1 = rightOf n p := rfl
    have hrecv : rollRecv n p k = (rightOf n p + k / 2) % n := if_neg hpar
    have hblock : (rightOf n p + k / 2 + n) % n = rollRecv n p k := by
      rw [hrecv, Nat.add_mod_right]
    simp only [iterAt, RingIter.init, hidx, hpeer, if_true, hblock]

/-- A rank waits for the blocks of all others. -/
theorem exists_rollRecv {b : ℕ} (hp : p < n) (hb : b < n) (hne : b ≠ p) :
    ∃ k < n - 1, rollRecv n p k = b := by
  rcases Nat.lt_or_ge n 3 with hlt | hn
  · refine ⟨0, by omega, ?_⟩
    obtain rfl : n = 2 := by omega
    interval_cases p <;> interval_cases b <;> first | rfl | exact absurd rfl hne
  · rcases block_cases hn hp hb with heq | ⟨m, hm, rfl⟩ | ⟨m, hm, rfl⟩
    · exact absurd heq hne
    · exact ⟨stepRight p m, rollStep_lt hm, rollRecv_stepRight⟩
    · refine ⟨stepLeft p m, ?_, rollRecv_stepLeft⟩
      have hcount := edgeCount_left hn hp
      rw [stepLeft]
      omega

/-- In a round a rank takes what is not empty. -/
theorem submitStep_ne_nil_iff (hp : p < n) (hk : k < n - 1) :
    submitStep args n p (iterAt n p k) ≠ [] ↔
      args.recvcounts (rollSend n p k) ≠ 0 ∨ args.recvcounts (rollRecv n p k) ≠ 0 := by
  have hidx : (iterAt n p k).idx = k := rfl
  rw [submitStep, hidx, ofdPutReqElem_put hp hk, ofdWaitReqElem_wait hp hk]
  by_cases hsend : args.recvcounts (rollSend n p k) = 0 <;>
    by_cases hrecv : args.recvcounts (rollRecv n p k) = 0 <;> split_ifs <;> simp [hsend, hrecv]

theorem streams_ne_nil_iff {args : ℕ → AllgathervArgs} (hp : p < n) : streams args n p ≠ [] ↔
    (2 ≤ n ∧ ∃ b < n, (args p).recvcounts b ≠ 0) ∨
      ((args p).inPlace = false ∧ (args p).recvcounts p ≠ 0) := by
  have hself : putSelfData (args p) n p ≠ [] ↔
      (args p).inPlace = false ∧ (args p).recvcounts p ≠ 0 := by
    rw [putSelfData]
    split_ifs with h
    · simp only [ne_eq, not_true_eq_false, false_iff, not_and, not_not]
      intro hplace
      exact h.resolve_left (by rw [hplace]; decide)
    · rw [not_or, Bool.not_eq_true] at h
      simpa using h
  have hsteps :
    ((List.range (n - 1)).flatMap fun k => submitStep (args p) n p (iterAt n p k)) ≠ [] ↔
      2 ≤ n ∧ ∃ b < n, (args p).recvcounts b ≠ 0 := by
    rw [ne_eq, List.flatMap_eq_nil_iff]
    simp only [List.mem_range, not_forall, exists_prop]
    constructor
    · rintro ⟨k, hk, hne⟩
      refine ⟨by omega, ?_⟩
      rcases (submitStep_ne_nil_iff hp hk).mp hne with h | h
      · exact ⟨_, rollSend_lt (by omega), h⟩
      · exact ⟨_, rollRecv_lt (by omega), h⟩
    · rintro ⟨hn, b, hb, hne⟩
      rcases eq_or_ne b p with rfl | hbp
      · -- a rank begins with its own block
        have hown : rollSend n b 0 = b := by
          rw [rollSend, Nat.zero_div, Nat.add_zero, Nat.sub_zero, Nat.add_mod_right,
            Nat.mod_eq_of_lt hb, ite_self]
        exact ⟨0, by omega, (submitStep_ne_nil_iff hp (by omega)).mpr (.inl (by rwa [hown]))⟩
      · obtain ⟨k, hk, rfl⟩ := exists_rollRecv hp hb hbp
        exact ⟨k, hk, (submitStep_ne_nil_iff hp hk).mpr (.inr hne)⟩
  rw [← hself, ← hsteps, streams, ne_eq, List.map_eq_nil_iff, submitOp, List.append_eq_nil_iff,
    not_and_or]
  exact or_comm

end Rolling

/-! ### The other operations -/

section Others

variable {n p : ℕ}

theorem pairwise_ne_nil {args : AlltoallvArgs} {config : Barrier.Config} (hn : 2 ≤ n) :
    Pairwise.submitOp args config n p ≠ [] := by
  have hmem := @Pairwise.putReq_mem_submitOp args config n p 0 (by omega)
  exact List.ne_nil_of_mem hmem

/-- All ranks but the first one notify another rank, and the first one waits for one. -/
theorem barrier_ne_nil {config : Barrier.Config} (hn : 2 ≤ n) :
    Barrier.submitStarsOp config n p ≠ [] := by
  rw [Barrier.submitStarsOp]
  rcases eq_or_ne p 0 with rfl | hp
  · have hchild := @KntreeIter.mem_childValues_root n config.faninDegree 0 false hn
    have hlen : 0 < (Barrier.ofdPlan config n 0).getRanks.length := by
      rw [Barrier.ofdPlan, List.length_map, if_neg (not_not.mpr rfl), List.nil_append]
      exact List.length_pos_of_mem hchild.1
    have hwaits : (Barrier.childIndices 0 (Barrier.ofdPlan config n 0).getRanks.length).map
        (Barrier.ofdWaitReq config n 0) ≠ [] := by
      rw [Barrier.childIndices, if_pos rfl, ne_eq, List.map_eq_nil_iff, List.range'_eq_nil_iff]
      omega
    rw [Barrier.faninIter, if_pos (KntreeIter.child_ne_none hchild.2), List.append_assoc]
    exact List.append_ne_nil_of_left_ne_nil hwaits _
  · rw [if_pos hp]
    simp

/-- In a barrier of one rank there is nothing to do. -/
theorem barrier_one {config : Barrier.Config} : Barrier.submitStarsOp config 1 0 = [] := by
  rw [Barrier.submitStarsOp, Barrier.faninIter, Barrier.fanoutIter,
    KntreeIter.child_init_one.2, KntreeIter.child_init_one.2]
  rfl

theorem ring_ne_nil {args : BcastArgs} {deps : ℕ → CommDep}
    (h : (deps p).getRanks ≠ [] ∨ (deps p).putRanks ≠ []) : ringSubmit args deps p ≠ [] := by
  rw [ringSubmit]
  rcases h with h | h
  · refine List.append_ne_nil_of_left_ne_nil ?_ _
    rw [ne_eq, List.map_eq_nil_iff, List.range_eq_nil]
    exact (List.length_pos_iff.mpr h).ne'
  · refine List.append_ne_nil_of_right_ne_nil _ ?_
    rw [ne_eq, List.map_eq_nil_iff, List.range_eq_nil]
    exact (List.length_pos_iff.mpr h).ne'

theorem bcastRingM_ne_nil {args : BcastArgs} (hn : 3 ≤ n) (hroot : args.root < n) :
    BcastRingM.submitOp args n p ≠ [] := by
  refine ring_ne_nil ?_
  rw [BcastRingM.offloadPlan]
  dsimp only
  rcases eq_or_ne p args.root with rfl | hp
  · right
    have hleft : args.root ≠ (args.root + n - 1) % n := (Rolling.leftOf_ne hn hroot).symm
    have hright : args.root ≠ (args.root + 1) % n := rightOf_ne hn hroot
    rw [if_neg (by simp only [not_or]; exact ⟨hleft, hright⟩), if_pos rfl]
    simp
  · left
    rw [if_neg hp]
    simp

theorem bcastRing2M_ne_nil {args : BcastArgs} (hn : 4 ≤ n) (hroot : args.root < n) :
    BcastRing2M.submitOp args n p ≠ [] := by
  refine ring_ne_nil ?_
  rw [BcastRing2M.offloadPlan]
  dsimp only
  rcases eq_or_ne p args.root with rfl | hp
  · right
    have hleft : args.root ≠ (args.root + n - 1) % n := (Rolling.leftOf_ne (by omega) hroot).symm
    have hright : args.root ≠ (args.root + 1) % n := rightOf_ne (by omega) hroot
    have hmiddle : args.root ≠ ((args.root + n / 2) % n + n - 1) % n := by
      rw [mod_eq_ite (by omega : args.root + n / 2 < 2 * n)]
      split_ifs <;> rw [mod_eq_ite (by omega)] <;> split_ifs <;> omega
    rw [if_neg (by simp only [not_or]; exact ⟨hleft, hright, hmiddle⟩), if_pos rfl]
    split_ifs <;> simp
  · left
    rw [if_neg hp]
    simp

/-- A child has at least one block. -/
theorem longBntreePutReq_ne_nil {args : BcastArgs} {vsize me idx peerVrank childSize : ℕ}
    {deps : ℕ → CommDep} (h : 1 ≤ childSize) :
    longBntreePutReq args vsize deps me idx peerVrank childSize ≠ [] := by
  rw [longBntreePutReq]
  dsimp only
  rw [ne_eq, List.map_eq_nil_iff, List.range_eq_nil]
  omega

theorem bcastLong_ne_nil {args : BcastArgs} {l : List (LongPhase × StreamTask Addr)} (hn : 2 ≤ n)
    (h : BcastLong.submitOp args n p = some l) : l ≠ [] := by
  rw [BcastLong.submitOp, Option.map_eq_some_iff] at h
  obtain ⟨ring, -, rfl⟩ := h
  refine List.append_ne_nil_of_left_ne_nil ?_ _
  rw [BcastLong.scatterSubmit]
  rcases eq_or_ne p args.root with rfl | hp
  · have hchild := (@KntreeIter.mem_childValues_root n 2 args.root true hn).2
    refine List.append_ne_nil_of_right_ne_nil _ fun hnil => ?_
    rw [List.flatMap_eq_nil_iff] at hnil
    exact longBntreePutReq_ne_nil Scatterv.one_le_getSubtreeSize
      (hnil 0 (List.mem_range.mpr (List.length_pos_of_mem hchild)))
  · rw [if_pos hp]
    exact List.append_ne_nil_of_left_ne_nil (List.cons_ne_nil _ _) _

theorem bcastLongM_ne_nil {args : BcastArgs} {l : List (LongPhase × StreamTask Addr)}
    (h : BcastLongM.submitOp args n p = some l) : l ≠ [] := by
  rw [BcastLongM.submitOp] at h
  split_ifs at h with hnear hp
  · obtain rfl := Option.some.inj h
    exact List.cons_ne_nil _ _
  · obtain ⟨ring, -, rfl⟩ := Option.map_eq_some_iff.mp h
    exact List.append_ne_nil_of_left_ne_nil
      (List.append_ne_nil_of_left_ne_nil (List.cons_ne_nil _ _) _) _
  · obtain ⟨ring, -, rfl⟩ := Option.map_eq_some_iff.mp h
    rw [BcastLongM.scatterSubmit, if_pos hp]
    exact List.append_ne_nil_of_left_ne_nil
      (List.append_ne_nil_of_right_ne_nil _
        (List.append_ne_nil_of_left_ne_nil (List.cons_ne_nil _ _) _)) _

end Others

/-! ### All operations -/

/-- A submit that is reached has requests, except for those of a rolling allgatherv of empty blocks
    and of a barrier of one rank. -/
theorem requests_ne_nil_iff (o : Operation) {size myrank : ℕ} (hrank : myrank < size)
    (hroot : o.RootLt size) (hcheck : o.check size = .ok) (hsubmits : o.Submits size myrank) :
    o.submitOp size myrank ≠ [] ↔ o.HasRequests size myrank := by
  cases o with
  | allgathervRolling args => exact Rolling.streams_ne_nil_iff hrank
  | alltoallvPairwise args config =>
    have hne : size ≠ 1 := hsubmits.2
    exact iff_of_true (pairwise_ne_nil (by omega)) trivial
  | scattervKntree args config =>
    exact iff_of_true (Scatterv.submitStarsOp_ne_nil hrank hsubmits.2.2.1) trivial
  | barrierFaninfanout config =>
    rcases Nat.lt_or_ge size 2 with hlt | hn
    · obtain rfl : size = 1 := by omega
      obtain rfl : myrank = 0 := by omega
      exact iff_of_false (not_not.mpr barrier_one) fun htwo : 2 ≤ 1 => absurd htwo (by decide)
    · exact iff_of_true (barrier_ne_nil hn) hn
  | bcastRingM args =>
    have hn : 3 ≤ size := by
      by_contra hlt
      rw [Operation.check, BcastRingM.check, if_pos (by omega)] at hcheck
      cases hcheck
    exact iff_of_true (bcastRingM_ne_nil hn hroot) trivial
  | bcastRing2M args =>
    have hn : 4 ≤ size := by
      by_contra hlt
      rw [Operation.check, BcastRing2M.check, if_pos (by omega)] at hcheck
      cases hcheck
    exact iff_of_true (bcastRing2M_ne_nil hn hroot) trivial
  | bcastLong args =>
    obtain ⟨-, hne, hsome⟩ := hsubmits
    obtain ⟨l, hl⟩ := Option.isSome_iff_exists.mp hsome
    refine iff_of_true ?_ trivial
    rw [Operation.submitOp, hl, Option.getD_some, ne_eq, List.map_eq_nil_iff]
    exact bcastLong_ne_nil (by omega) hl
  | bcastLongM args =>
    obtain ⟨-, hsome⟩ := hsubmits
    obtain ⟨l, hl⟩ := Option.isSome_iff_exists.mp hsome
    refine iff_of_true ?_ trivial
    rw [Operation.submitOp, hl, Option.getD_some, ne_eq, List.map_eq_nil_iff]
    exact bcastLongM_ne_nil hl

/-- When a submit has work in every run: if it is reached, the operation has something to submit and
    the requests have tasks for some interface. -/
theorem operation_submits_work_iff (o : Operation) {size myrank : ℕ} (hrank : myrank < size)
    (hroot : o.RootLt size) (hcheck : o.check size = .ok) (worker : Worker) (eps : ℕ → Endpoint) :
    SubmitsWork worker o.reports (o.requests size myrank eps) ↔
      (o.Submits size myrank → o.HasRequests size myrank ∧ ∃ idx < worker.numIfaces,
        roundTasks worker ((o.submitOp size myrank).mapIdx fun i task => ofdReqElem (eps i) task)
          idx % 2 ^ 16 ≠ 0) := by
  rw [submitsWork_iff, Operation.requests]
  split_ifs with hsubmits
  · rw [← requests_ne_nil_iff o hrank hroot hcheck hsubmits]
    simp only [Option.some.injEq, forall_eq', ne_eq, List.mapIdx_eq_nil_iff, hsubmits, true_imp_iff]
  · simp [hsubmits]

/-- A worker with one interface for messages. -/
def oneIface : Worker := ⟨1, fun _ => false, Nat.one_lt_two_pow (by decide)⟩

/-- An endpoint with one lane. -/
def oneLane : Endpoint := ⟨[0], lanesOf [(0, 0)], fun llen _ => llen⟩

theorem operation_submits_work_ring :
    SubmitsWork oneIface false
      ((Operation.bcastRingM ⟨0, 4, 1, 1⟩).requests 3 0 fun _ => oneLane) :=
  (operation_submits_work_iff (.bcastRingM ⟨0, 4, 1, 1⟩) (by decide)
    (by decide : 0 < 3) rfl oneIface
    fun _ => oneLane).mpr fun _ => ⟨trivial, 0, by decide, by decide⟩

/-- An allgatherv of two ranks whose blocks are empty, one element apart from each other. -/
def emptyAllgatherv (_ : ℕ) : AllgathervArgs where
  inPlace := true
  sendcount := 0
  sendExtent := 1
  recvcounts _ := 0
  displs i := i
  recvSize := 1
  recvExtent := 1

/-- It is admitted and gets to the submit with nothing in its queue, in which there is no last
    request. -/
theorem emptyAllgatherv_no_work :
    (Operation.allgathervRolling emptyAllgatherv).check 2 = .ok ∧
    (Operation.allgathervRolling emptyAllgatherv).Submits 2 0 ∧
    ¬SubmitsWork oneIface false
      ((Operation.allgathervRolling emptyAllgatherv).requests 2 0 fun _ => oneLane) ∧
    StarsOp.init.trigger oneIface false
      ((Operation.allgathervRolling emptyAllgatherv).requests 2 0 fun _ => oneLane) .success =
      none := by
  have hsubmits : (Operation.allgathervRolling emptyAllgatherv).Submits 2 0 := ⟨by decide, trivial⟩
  have hnil : (Operation.allgathervRolling emptyAllgatherv).submitOp 2 0 = [] := by
    by_contra hne
    rcases (Rolling.streams_ne_nil_iff (by decide)).mp hne with ⟨-, b, -, hb⟩ | ⟨hplace, -⟩
    · exact hb rfl
    · cases hplace
  have hrequests : (Operation.allgathervRolling emptyAllgatherv).requests 2 0 (fun _ => oneLane) =
      some [] := by
    rw [Operation.requests, if_pos hsubmits, hnil, List.mapIdx_nil]
  refine ⟨rfl, hsubmits, fun h => ?_, ?_⟩
  · exact ((submitsWork_iff _ _ _).mp h [] hrequests).1 rfl
  · rw [hrequests]
    rfl

end Kucg.Stars
