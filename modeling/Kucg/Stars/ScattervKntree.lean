import Kucg.Algo.Kntree
import Kucg.Stars.CommPlan

/-! The offloaded scatterv of `scatterv_kntree.c`.

    The ranks without data are taken out, except for the root, and the others are numbered again
    and put in a tree. The root puts the blocks of a child's sub-tree one by one into the staging
    area of the child, which puts those of its own children on together. -/

namespace Kucg.Stars

open Kucg.Algo Kucg.Lib

/-- `ucg_coll_scatterv_args_t`, with what it needs of the datatypes. -/
structure ScattervArgs where
  root : ℕ
  inPlace : Bool
  sendcounts : ℕ → ℕ
  displs : ℕ → ℤ
  sendExtent : ℕ
  recvcount : ℕ
  recvExtent : ℕ

namespace Scatterv

/-- `ucg_planc_stars_scatterv_config_t`. -/
structure Config where
  kntreeDegree : ℕ
  runHpl : Bool
  deriving Repr

/-- `op->scatterv.kntree` after `scatterv_kntree remove_zero`. -/
structure Kntree where
  isEmpty : Bool
  iter : KntreeIter
  map : List ℕ
  vGroupSize : ℕ
  vMyrank : ℕ
  parentRank : ℕ
  stagingCount : ℕ
  childRank : List ℕ

section Ranks

variable (config : Config) (args : ℕ → ScattervArgs) (size : ℕ)

/-- `sendcounts`: those of the root (`scatterv_kntree get_scounts`), in the other mode the rank's
    own. -/
def sendcounts (myrank : ℕ) : ℕ → ℕ :=
  if config.runHpl then (args myrank).sendcounts else (args (args myrank).root).sendcounts

/-- `sendtype_size`. -/
def sendtypeSize (myrank : ℕ) : ℕ :=
  if config.runHpl then (args myrank).recvExtent else (args (args myrank).root).sendExtent

/-- The ranks that `scatterv_kntree remove_zero` takes out. -/
def removed (myrank : ℕ) : List ℕ :=
  (List.range size).filter fun i => sendcounts config args myrank i = 0 ∧ i ≠ (args myrank).root

/-- `scatterv_kntree remove_zero`. -/
def removeZero (myrank : ℕ) : Kntree :=
  let root := (args myrank).root
  let removed := removed config args size myrank
  let map := (List.range size).filter fun i => sendcounts config args myrank i ≠ 0 ∨ i = root
  let vMyrank := myrank - removed.countP (· < myrank)
  let vRoot := root - removed.countP (· < root)
  let vGroupSize := size - removed.length
  let iter : KntreeIter := .init vGroupSize config.kntreeDegree vRoot vMyrank true
  let subsize := KntreeIter.getSubtreeSize iter.size iter.degree iter.root vGroupSize vMyrank
  { isEmpty := ((args myrank).recvcount = 0 ∧ myrank ≠ root) ∨ (myrank = root ∧ vGroupSize = 1)
    iter := iter
    map := map
    vGroupSize := vGroupSize
    vMyrank := vMyrank
    parentRank := map.getD iter.parentValue size
    stagingCount := subsize - 1
    childRank := (KntreeIter.childValues vGroupSize iter).map fun child => map.getD child 0 }

/-- The number of ranks in the sub-tree of a child. -/
def childSubsize (kntree : Kntree) (child : ℕ) : ℕ :=
  KntreeIter.getSubtreeSize kntree.iter.size kntree.iter.degree kntree.iter.root
    kntree.vGroupSize child

/-- `staging_displs` of the root: where a block begins in the staging area of the child. -/
def rootStagingDispls (myrank : ℕ) : ℕ → ℕ :=
  let root := (args myrank).root
  let kntree := removeZero config args size myrank
  let num := kntree.vGroupSize
  (KntreeIter.childValues num kntree.iter.reset).foldl (fun displs child =>
    (List.range' 1 (childSubsize kntree child - 1)).foldl (fun displs i =>
      let idx := (i + child + num + 2 ^ 32 - root) % 2 ^ 32 % num
      let idxPeer := (idx + num - 1) % num
      Function.update displs idx (displs idxPeer +
        (args myrank).sendcounts (kntree.map.getD ((idxPeer + root) % num) 0))) displs) fun _ => 0

/-- `child_total_size` of the other ranks: how much goes to a child and its sub-tree. -/
def childTotalSize (myrank childIdx : ℕ) : ℕ :=
  let kntree := removeZero config args size myrank
  let child := (KntreeIter.childValues kntree.vGroupSize kntree.iter.reset).getD childIdx 0
  ((List.range (childSubsize kntree child)).map fun i =>
    sendcounts config args myrank (kntree.map.getD ((i + child) % kntree.vGroupSize) 0)).sum

/-- `staging_displs` of the other ranks: where the data for a child begin in the own staging
area. -/
def stagingDispls (myrank childIdx : ℕ) : ℕ :=
  let childNum := (removeZero config args size myrank).childRank.length
  (args myrank).recvcount +
    ((List.range' (childIdx + 1) (childNum - (childIdx + 1))).map
      (childTotalSize config args size myrank)).sum

/-- `scatterv_kntree offload_plan`. -/
def offloadPlan (myrank : ℕ) : CommDep :=
  let kntree := removeZero config args size myrank
  { getRanks := if myrank = (args myrank).root then [] else [⟨kntree.parentRank, 1⟩]
    putRanks := kntree.childRank.map (⟨·, 1⟩) }

/-- The buffer that `scatterv_kntree init_rbuf` registers for a rank. -/
def lrbuf (myrank : ℕ) : Buffer :=
  if 0 < (removeZero config args size myrank).stagingCount then .staging else .recv

/-- `scatterv_kntree put_req_root` with the iterator over the children and `child_idx`. -/
def putReqRoot (myrank : ℕ) (st : KntreeIter × ℕ) (idx : ℕ) : (KntreeIter × ℕ) × StreamTask Addr :=
  let a := args myrank
  let kntree := removeZero config args size myrank
  let num := kntree.vGroupSize
  let peer := kntree.map.getD ((idx + kntree.vMyrank) % num) 0
  let childAt (iter : KntreeIter) := (iter.child.getD num + num - kntree.vMyrank) % num
  let st := if idx < childAt st.1 then (st.1.childInc, st.2 + 1) else st
  let sendOffset := a.displs peer * a.sendExtent
  let length := a.sendcounts peer * a.sendExtent
  let recvOffset := rootStagingDispls config args size myrank idx * a.sendExtent
  let peerRank := (offloadPlan config args size myrank).putPeer st.2
  (st, .put peerRank
    (if idx = childAt st.1 then
      putEvent (offloadPlan config args size) CommDep.offsetCommon myrank st.2 0
    else none)
    (bytes .send sendOffset length) (bytes (lrbuf config args size peerRank) recvOffset length))

/-- The loop of the root over its blocks. -/
def putReqsRoot (myrank : ℕ) : List ℕ → KntreeIter × ℕ → List (StreamTask Addr)
  | [], _ => []
  | idx :: rest, st =>
    let (st, task) := putReqRoot config args size myrank st idx
    task :: putReqsRoot myrank rest st

/-- `scatterv_kntree put_req_nonroot`. -/
def putReqNonroot (myrank childIdx : ℕ) : StreamTask Addr :=
  let dtsize := sendtypeSize config args myrank
  let sendOffset := stagingDispls config args size myrank childIdx * dtsize
  let length := childTotalSize config args size myrank childIdx * dtsize
  let peerRank := (offloadPlan config args size myrank).putPeer childIdx
  .put peerRank (putEvent (offloadPlan config args size) CommDep.offsetCommon myrank childIdx 0)
    (bytes (lrbuf config args size myrank) sendOffset length)
    (bytes (lrbuf config args size peerRank) 0 length)

/-- `scatterv_kntree wait_req` for `get_ranks[0]`. -/
def waitReq (myrank : ℕ) : StreamTask Addr :=
  .wait (waitEvent (offloadPlan config args size myrank) CommDep.offsetCommon 0 0)

/-- `scatterv_kntree submit_stars_op`. -/
def submitStarsOp (myrank : ℕ) : List (StreamTask Addr) :=
  let root := (args myrank).root
  let kntree := removeZero config args size myrank
  (if myrank ≠ root then [waitReq config args size myrank] else []) ++
  if myrank = root then
    putReqsRoot config args size myrank (List.range' 1 kntree.stagingCount).reverse
      (kntree.iter.reset, 0)
  else (List.range kntree.childRank.length).map (putReqNonroot config args size myrank)

end Ranks

section Root

variable {config : Config} {args : ℕ → ScattervArgs} {size : ℕ}

theorem one_le_getSubtreeSize {degree root : ℕ} : ∀ {fuel rank : ℕ},
    1 ≤ KntreeIter.getSubtreeSize size degree root fuel rank
  | 0, _ => le_rfl
  | fuel + 1, rank => by
    rw [KntreeIter.getSubtreeSize]
    exact Nat.le_add_right 1 _

/-- The root of a tree of two ranks or more has a child. -/
theorem two_le_getSubtreeSize {degree root fuel : ℕ} (hsize : 2 ≤ size) :
    2 ≤ KntreeIter.getSubtreeSize size degree root (fuel + 1) root := by
  have hchild : (1 + root) % size ∈
      KntreeIter.childValues size (.init size degree root root true) :=
    (KntreeIter.mem_childValues_root hsize).1
  rw [KntreeIter.getSubtreeSize]
  have hle := List.single_le_sum (fun _ _ => Nat.zero_le _) _
    (List.mem_map_of_mem (f := KntreeIter.getSubtreeSize size degree root fuel) hchild)
  have hone : 1 ≤ KntreeIter.getSubtreeSize size degree root fuel ((1 + root) % size) :=
    one_le_getSubtreeSize
  omega

theorem length_removed_lt {myrank : ℕ} (hrank : myrank < size)
    (hroot : myrank = (args myrank).root) : (removed config args size myrank).length < size := by
  have hfilter := List.length_filter_lt_length_iff_exists (l := List.range size)
    (p := fun i => sendcounts config args myrank i = 0 ∧ i ≠ (args myrank).root)
  rw [List.length_range] at hfilter
  refine hfilter.mpr ⟨myrank, List.mem_range.mpr hrank, ?_⟩
  rw [decide_eq_true_eq]
  exact fun h => h.2 hroot

/-- The root has blocks for others, unless it is the only rank left. -/
theorem stagingCount_pos {myrank : ℕ} (hroot : myrank = (args myrank).root)
    (htwo : 2 ≤ (removeZero config args size myrank).vGroupSize) :
    0 < (removeZero config args size myrank).stagingCount := by
  generalize hnum : (removeZero config args size myrank).vGroupSize = num at htwo
  have hiter : (removeZero config args size myrank).iter =
      .init num config.kntreeDegree (removeZero config args size myrank).vMyrank
        (removeZero config args size myrank).vMyrank true := by
    rw [← hnum, removeZero]
    dsimp only
    rw [← hroot]
  have hdegree : 1 < KntreeIter.initDegree num config.kntreeDegree :=
    KntreeIter.one_lt_initDegree htwo
  have hbase := KntreeIter.init_base (removeZero config args size myrank).vMyrank
    (removeZero config args size myrank).vMyrank true hdegree (by omega)
  rw [← hiter] at hbase
  have hcount : (removeZero config args size myrank).stagingCount =
      childSubsize (removeZero config args size myrank)
        (removeZero config args size myrank).vMyrank - 1 := rfl
  obtain ⟨fuel, rfl⟩ : ∃ fuel, num = fuel + 1 := ⟨num - 1, by omega⟩
  rw [hcount, childSubsize, hnum, hbase]
  have hsize := @two_le_getSubtreeSize _ (KntreeIter.initDegree (fuel + 1) config.kntreeDegree)
    (removeZero config args size myrank).vMyrank fuel htwo
  exact Nat.sub_pos_of_lt hsize

/-- A rank that is not left out submits something. -/
theorem submitStarsOp_ne_nil {myrank : ℕ} (hrank : myrank < size)
    (hempty : (removeZero config args size myrank).isEmpty = false) :
    submitStarsOp config args size myrank ≠ [] := by
  rw [submitStarsOp]
  by_cases hroot : myrank = (args myrank).root
  · rw [if_neg (not_not.mpr hroot), List.nil_append, if_pos hroot]
    have hlt : (removed config args size myrank).length < size := length_removed_lt hrank hroot
    have hnum : (removeZero config args size myrank).vGroupSize =
      size - (removed config args size myrank).length := rfl
    have hne : (removeZero config args size myrank).vGroupSize ≠ 1 := fun hone =>
      absurd (decide_eq_true (.inr ⟨hroot, hone⟩)) (Bool.eq_false_iff.mp hempty)
    obtain ⟨k, hk⟩ : ∃ k, (removeZero config args size myrank).stagingCount = k + 1 :=
      Nat.exists_eq_add_one.mpr (stagingCount_pos hroot (by omega))
    rw [hk, List.range'_concat, List.reverse_append]
    exact List.cons_ne_nil _ _
  · rw [if_pos hroot]
    exact List.cons_ne_nil _ _

end Root

end Scatterv

end Kucg.Stars
