import Kucg.Algo.Ring
import Kucg.Stars.BarrierFaninfanout

/-! The offloaded pairwise alltoallv of `alltoallv_pairwise.c`.

    In step `s` a rank puts to the rank `s + 1` places to the right of it and waits for the one as
    far to the left. The peers share the events by turns (`eid_shared_stride`), and a barrier is put
    into the stream whenever the turns begin again. The events of the barrier are in a table of
    their own, which is numbered behind that of the alltoallv. -/

namespace Kucg.Stars

open Kucg.Algo Kucg.Lib

/-- `ucg_coll_alltoallv_args_t`, with what it needs of the datatypes. -/
structure AlltoallvArgs where
  sendcounts : ℕ → ℕ
  sdispls : ℕ → ℤ
  sendSize : ℕ
  sendExtent : ℤ
  recvcounts : ℕ → ℕ
  rdispls : ℕ → ℤ
  recvSize : ℕ
  recvExtent : ℤ

namespace Pairwise

/-- `eid_shared_stride`. -/
def eidSharedStride : ℕ := 5

/-- `alltoallv_pairwise offload_plan`. -/
def offloadPlan (numprocs myid : ℕ) : CommDep where
  getRanks := (List.range (numprocs - 1)).map fun index =>
    ⟨(myid + numprocs - (index + 1)) % numprocs, 1⟩
  putRanks := (List.range (numprocs - 1)).map fun index => ⟨(myid + (index + 1)) % numprocs, 1⟩

/-- `offset` of `get_ranks[idx]`. -/
def offset (_ : CommDep) (idx : ℕ) : ℕ := CommDep.offsetShared eidSharedStride idx

/-- `send_type_extent`. -/
def sendTypeExtent (args : AlltoallvArgs) : ℤ := args.sendExtent % 2 ^ 32

/-- `ucg_planc_stars_alltoallv_pairwise_put_req`. -/
def putReq (args : AlltoallvArgs) (size myrank stepIdx : ℕ) : StreamTask Addr :=
  let rightPeer := (offloadPlan size myrank).putPeer stepIdx
  let llen := args.sendcounts rightPeer * args.sendSize
  .put rightPeer (putEvent (offloadPlan size) offset myrank stepIdx 0)
    (bytes .send (args.sdispls rightPeer * sendTypeExtent args) llen)
    (bytes .recv (args.sdispls myrank * sendTypeExtent args) llen)

/-- `ucg_planc_stars_alltoallv_pairwise_wait_req`. -/
def waitReq (size myrank stepIdx : ℕ) : StreamTask Addr :=
  .wait (waitEvent (offloadPlan size myrank) offset stepIdx 0)

/-- A request of the barrier in the stream of the alltoallv. -/
def barrierReq : StreamTask Addr → StreamTask Addr
  | .put peer event src dst => .put peer (event.map (eidSharedStride + ·)) src dst
  | .wait event => .wait (eidSharedStride + event)

/-- One round of the loop of `alltoallv_pairwise submit_op`. -/
def submitStep (args : AlltoallvArgs) (config : Barrier.Config) (size myrank stepIdx : ℕ) :
    List (StreamTask Addr) :=
  [putReq args size myrank stepIdx, waitReq size myrank stepIdx] ++
    if (stepIdx + 1) % eidSharedStride = 0 then
      (Barrier.submitStarsOp config size myrank).map barrierReq
    else []

/-- `alltoallv_pairwise submit_op`. -/
def submitOp (args : AlltoallvArgs) (config : Barrier.Config) (size myrank : ℕ) :
    List (StreamTask Addr) :=
  (List.range (RingIter.init size myrank).maxIdx).flatMap (submitStep args config size myrank)

/-- The streams of the ranks. -/
def streams (args : ℕ → AlltoallvArgs) (config : Barrier.Config) (size p : ℕ) :
    List (StreamTask Addr) := submitOp (args p) config size p

section Peers

variable {n p i : ℕ}

theorem putPeer_eq (hi : i < n - 1) : (offloadPlan n p).putPeer i = (p + (i + 1)) % n := by
  simp [CommDep.putPeer, offloadPlan, hi]

theorem getPeer_eq (hi : i < n - 1) : (offloadPlan n p).getPeer i = (p + n - (i + 1)) % n := by
  simp [CommDep.getPeer, offloadPlan, hi]

/-- Every other rank is put to in one step. -/
theorem exists_putPeer {q : ℕ} (hp : p < n) (hq : q < n) (hne : q ≠ p) :
    ∃ i < n - 1, (offloadPlan n p).putPeer i = q := by
  refine ⟨(q + n - p) % n - 1, ?_, ?_⟩
  · have hlt : (q + n - p) % n < n := Nat.mod_lt _ (by omega)
    omega
  · have hpos : (q + n - p) % n = if q < p then q + n - p else q - p := by
      rw [mod_eq_ite (by omega)]
      split_ifs <;> omega
    have hlt : (q + n - p) % n - 1 < n - 1 := by
      rw [hpos]
      split_ifs <;> omega
    rw [putPeer_eq hlt, hpos, mod_eq_ite (by split_ifs <;> omega)]
    split_ifs <;> omega

theorem putPeer_lt (hp : p < n) (hi : i < n - 1) :
    (offloadPlan n p).putPeer i < n ∧ (offloadPlan n p).putPeer i ≠ p := by
  rw [putPeer_eq hi, mod_eq_ite (by omega)]
  split_ifs <;> omega

end Peers

/-- The puts of a rank: those of the blocks, and those of the barriers. -/
theorem put_mem_submitOp {args : AlltoallvArgs} {config : Barrier.Config} {n p q : ℕ}
    {ev : Option ℕ} {src dst : List Addr} (h : .put q ev src dst ∈ submitOp args config n p) :
    (∃ i < n - 1, putReq args n p i = .put q ev src dst) ∨
      src = bytes .staging 0 1 ∧ dst = bytes .staging 0 1 := by
  obtain ⟨i, hi, hmem⟩ := List.mem_flatMap.mp h
  rw [submitStep, List.mem_append] at hmem
  rcases hmem with hmem | hmem
  · simp only [List.mem_cons, List.not_mem_nil, or_false] at hmem
    rcases hmem with hmem | hmem
    · exact .inl ⟨i, List.mem_range.mp hi, hmem.symm⟩
    · cases hmem
  · split_ifs at hmem
    · obtain ⟨t, ht, heq⟩ := List.mem_map.mp hmem
      cases t with
      | wait e => cases heq
      | put q' ev' src' dst' =>
        obtain ⟨-, -, rfl, rfl⟩ := StreamTask.put.inj heq
        exact .inr (Barrier.cells_of_put ht)
    · exact absurd hmem List.not_mem_nil

theorem putReq_mem_submitOp {args : AlltoallvArgs} {config : Barrier.Config} {n p i : ℕ}
    (hi : i < n - 1) : putReq args n p i ∈ submitOp args config n p :=
  List.mem_flatMap.mpr ⟨i, List.mem_range.mpr hi, by simp [submitStep]⟩

end Pairwise

end Kucg.Stars
