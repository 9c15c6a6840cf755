import Kucg.Algo.Kntree
import Kucg.Stars.CommPlan

/-! The offloaded barrier of `barrier_faninfanout.c`: notifications go up one tree to rank 0, and
    down another one from there. -/

namespace Kucg.Stars.Barrier

open Kucg.Algo Kucg.Lib

/-- `ucg_planc_stars_barrier_config_t`. -/
structure Config where
  faninDegree : ℕ
  fanoutDegree : ℕ
  deriving Repr

/-- `fanin_iter` after `barrier_faninfanout iter_init`. -/
def faninIter (config : Config) (size myrank : ℕ) : KntreeIter :=
  .init size config.faninDegree 0 myrank false

/-- `fanout_iter` after `barrier_faninfanout iter_init`. -/
def fanoutIter (config : Config) (size myrank : ℕ) : KntreeIter :=
  .init size config.fanoutDegree 0 myrank true

/-- `barrier_faninfanout ofd_plan`. -/
def ofdPlan (config : Config) (size myrank : ℕ) : CommDep :=
  let faninIter := faninIter config size myrank
  let fanoutIter := fanoutIter config size myrank
  { getRanks := ((if myrank ≠ 0 then [fanoutIter.parentValue] else []) ++
      KntreeIter.childValues size faninIter).map (⟨·, 1⟩)
    putRanks := ((if myrank ≠ 0 then [faninIter.parentValue] else []) ++
      KntreeIter.childValues size fanoutIter).map (⟨·, 1⟩) }

/-- `ucg_planc_stars_barrier_faninfanout_ofd_put_req` for `put_ranks[idx]`: one byte of the staging
    areas. -/
def ofdPutReq (config : Config) (size myrank idx : ℕ) : StreamTask Addr :=
  .put ((ofdPlan config size myrank).putPeer idx)
    (putEvent (ofdPlan config size) CommDep.offsetCommon myrank idx 0)
    (bytes .staging 0 1) (bytes .staging 0 1)

/-- `ucg_planc_stars_barrier_faninfanout_ofd_wait_req` for `get_ranks[idx]`. -/
def ofdWaitReq (config : Config) (size myrank idx : ℕ) : StreamTask Addr :=
  .wait (waitEvent (ofdPlan config size myrank) CommDep.offsetCommon idx 0)

/-- The indices of the entries for the children, of `num` entries. -/
def childIndices (myrank num : ℕ) : List ℕ :=
  let idx := if myrank = 0 then 0 else 1
  List.range' idx (num - idx)

/-- `ucg_planc_stars_barrier_faninfanout_submit_stars_op`, and `barrier_faninfanout meta_submit_op`:
    the requests in their order. -/
def submitStarsOp (config : Config) (size myrank : ℕ) : List (StreamTask Addr) :=
  let dep := ofdPlan config size myrank
  (if (faninIter config size myrank).reset.child ≠ none then
    (childIndices myrank dep.getRanks.length).map (ofdWaitReq config size myrank) else []) ++
  (if myrank ≠ 0 then
    [ofdPutReq config size myrank 0, ofdWaitReq config size myrank 0] else []) ++
  (if (fanoutIter config size myrank).reset.child ≠ none then
    (childIndices myrank dep.putRanks.length).map (ofdPutReq config size myrank) else [])

/-- A barrier only touches the first byte of the staging areas. -/
theorem cells_of_put {config : Config} {size myrank q : ℕ} {ev : Option ℕ} {src dst : List Addr}
    (h : .put q ev src dst ∈ submitStarsOp config size myrank) :
    src = bytes .staging 0 1 ∧ dst = bytes .staging 0 1 := by
  have hput (idx : ℕ) (heq : ofdPutReq config size myrank idx = .put q ev src dst) :
      src = bytes .staging 0 1 ∧ dst = bytes .staging 0 1 := by
    obtain ⟨-, -, rfl, rfl⟩ := StreamTask.put.inj heq
    exact ⟨rfl, rfl⟩
  rw [submitStarsOp, List.mem_append, List.mem_append] at h
  rcases h with (h | h) | h
  · split_ifs at h
    · obtain ⟨idx, -, heq⟩ := List.mem_map.mp h
      cases heq
    · exact absurd h List.not_mem_nil
  · split_ifs at h
    · simp only [List.mem_cons, List.not_mem_nil, or_false] at h
      rcases h with h | h
      · exact hput 0 h.symm
      · cases h
    · exact absurd h List.not_mem_nil
  · split_ifs at h
    · obtain ⟨idx, -, heq⟩ := List.mem_map.mp h
      exact hput idx heq
    · exact absurd h List.not_mem_nil

end Kucg.Stars.Barrier
