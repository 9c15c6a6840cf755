import Kucg.Algo.Neighbor
import Kucg.Ucx.Allgatherv
import Kucg.Ucx.StepLoop

/-! The neighbour exchange of `allgatherv_neighbor.c`, for an even number of ranks. -/

namespace Kucg.Ucx

open Kucg.Core Kucg.Lib Kucg.Algo

variable {B β : Type}

/-- The flags of the operation, a bit each. -/
structure NeighborFlags where
  init : Bool
  initSend : Bool
  initRecv : Bool
  loop : Bool
  loopSend : Bool
  loopRecv : Bool

/-- `ucg_planc_ucx_op_t` of the neighbour exchange; the arrays have two entries. -/
structure AllgathervNeighborOp (B : Type) where
  vgroup : VGroup
  args : AllgathervArgs B
  status : Status
  id : ℕ
  flags : NeighborFlags
  loopCount : ℕ
  loopMax : ℕ
  neighbor : ℕ → ℕ
  recvDataFrom : ℕ → ℕ
  offsetAtStep : ℕ → ℤ
  sendDataFrom : ℕ

section Functions

/-- `ucg_planc_ucx_allgatherv_neighbor_op_reset`. -/
def neighborOpReset (op : AllgathervNeighborOp B) (id : ℕ) : AllgathervNeighborOp B :=
  let n := op.vgroup.size
  let myRank := op.vgroup.myrank
  let op := { op with
    id := id, status := .inprogress, flags := ⟨true, true, true, true, true, true⟩
    loopCount := 1, loopMax := n / 2 }
  if myRank % 2 = 0 then
    { op with
      neighbor := fun i => if i = 0 then (myRank + 1) % n else (myRank + n - 1) % n
      recvDataFrom := fun _ => myRank
      offsetAtStep := fun i => if i = 0 then 2 else -2
      sendDataFrom := myRank }
  else
    { op with
      neighbor := fun i => if i = 0 then (myRank + n - 1) % n else (myRank + 1) % n
      recvDataFrom := fun _ => (myRank + n - 1) % n
      offsetAtStep := fun i => if i = 0 then -2 else 2
      sendDataFrom := (myRank + n - 1) % n }

/-- The send of the first exchange. -/
def neighborInitSend (op : AllgathervNeighborOp B) :
    Prog (Addr B) β (AllgathervNeighborOp B × Status) :=
  if op.flags.initSend then do
    let status ← p2pIsend (op.args.blockCells op.vgroup.myrank) (some (op.neighbor 0)) op.vgroup
    return ({ op with flags := { op.flags with initSend := false } }, status)
  else return (op, .ok)

/-- The receive. -/
def neighborInitRecv (op : AllgathervNeighborOp B) :
    Prog (Addr B) β (AllgathervNeighborOp B × Status) :=
  if op.flags.initRecv then do
    let status ← p2pIrecv (op.args.blockCells (op.neighbor 0)) (some (op.neighbor 0)) op.vgroup 0
    return ({ op with flags := { op.flags with initRecv := false } }, status)
  else return (op, .ok)

/-- `ucg_planc_ucx_allgatherv_neighbor_op_init`. -/
def neighborOpInit (op : AllgathervNeighborOp B) :
    Prog (Addr B) β (AllgathervNeighborOp B × Status) := do
  let (op, status) ← neighborInitSend op
  if status ≠ .ok then return (op, status)
  let (op, status) ← neighborInitRecv op
  if status ≠ .ok then return (op, status)
  let status ← p2pTestall
  return (op, status)

/-- The sends of a step. -/
def neighborLoopSend (op : AllgathervNeighborOp B) :
    Prog (Addr B) β (AllgathervNeighborOp B × Status) :=
  if op.flags.loopSend then do
    let peer := op.neighbor (op.loopCount % 2)
    let op := { op with flags := { op.flags with loopSend := false } }
    let status ← p2pIsend (op.args.blockCells op.sendDataFrom) (some peer) op.vgroup
    if status ≠ .ok then return (op, status)
    let status ← p2pIsend (op.args.blockCells (op.sendDataFrom + 1)) (some peer) op.vgroup
    return (op, status)
  else return (op, .ok)

/-- The receives. -/
def neighborLoopRecv (op : AllgathervNeighborOp B) :
    Prog (Addr B) β (AllgathervNeighborOp B × Status) :=
  if op.flags.loopRecv then do
    let iParity := op.loopCount % 2
    let peer := op.neighbor iParity
    let from' := ((op.recvDataFrom iParity + op.offsetAtStep iParity + op.vgroup.size) %
      op.vgroup.size).toNat
    let op := { op with
      flags := { op.flags with loopRecv := false }
      recvDataFrom := Function.update op.recvDataFrom iParity from' }
    let status ← p2pIrecv (op.args.blockCells from') (some peer) op.vgroup 0
    if status ≠ .ok then return (op, status)
    let status ← p2pIrecv (op.args.blockCells (from' + 1)) (some peer) op.vgroup 0
    return (op, status)
  else return (op, .ok)

/-- What is posted in a step. -/
def neighborLoopPost (op : AllgathervNeighborOp B) :
    Prog (Addr B) β (AllgathervNeighborOp B × Status) := do
  let (op, status) ← neighborLoopSend op
  if status ≠ .ok then return (op, status)
  neighborLoopRecv op

/-- The end of a step. -/
def AllgathervNeighborOp.next (op : AllgathervNeighborOp B) : AllgathervNeighborOp B :=
  { op with
    flags := { op.flags with loopSend := true, loopRecv := true }
    sendDataFrom := op.recvDataFrom (op.loopCount % 2)
    loopCount := op.loopCount + 1 }

/-- The condition of the loop. -/
def AllgathervNeighborOp.going (op : AllgathervNeighborOp B) : Bool := op.loopCount < op.loopMax

/-- `ucg_planc_ucx_allgatherv_neighbor_op_loop`. -/
def neighborOpLoop (op : AllgathervNeighborOp B) :
    Prog (Addr B) β (AllgathervNeighborOp B × Status) :=
  stepLoop AllgathervNeighborOp.going neighborLoopPost AllgathervNeighborOp.next op.loopMax op

/-- The second phase of a progress call. A call of an operation that has not come to its end is in
    one of the phases. -/
def neighborOpSecond (op : AllgathervNeighborOp B) :
    Prog (Addr B) β (AllgathervNeighborOp B × Status) :=
  if op.flags.loop then do
    let (op, status) ← neighborOpLoop op
    if status ≠ .ok then return (op, status)
    return ({ op with flags := { op.flags with loop := false } }, .ok)
  else return (op, .ok)

/-- `ucg_planc_ucx_allgatherv_neighbor_op_progress`, without the status of the operation. -/
def neighborOpPhases (op : AllgathervNeighborOp B) :
    Prog (Addr B) β (AllgathervNeighborOp B × Status) :=
  if op.flags.init then do
    let (op, status) ← neighborOpInit op
    if status ≠ .ok then return (op, status)
    neighborOpSecond { op with flags := { op.flags with init := false } }
  else neighborOpSecond op

/-- `ucg_planc_ucx_allgatherv_neighbor_op_progress`. -/
def neighborOpProgress (op : AllgathervNeighborOp B) :
    Prog (Addr B) β (AllgathervNeighborOp B × Status) := do
  let (op, status) ← neighborOpPhases op
  return ({ op with status := status }, status)

/-- `ucg_planc_ucx_allgatherv_neighbor_op_trigger`. -/
def neighborOpTrigger (op : AllgathervNeighborOp B) (id : ℕ) :
    Prog (Addr B) β (AllgathervNeighborOp B × Status) := do
  let op := neighborOpReset op id
  allgathervMemcpy op.args op.vgroup.myrank
  let (op, status) ← neighborOpProgress op
  return (op, if status = .inprogress then .ok else status)

/-- The trigger and progress functions of the operation. -/
def neighborFuncs : OpFuncs (Prog (Addr B) β) (AllgathervNeighborOp B) where
  trigger := neighborOpTrigger
  progress := neighborOpProgress

/-- `ucg_planc_ucx_allgatherv_neighbor_check`. -/
def neighborCheck (vgroup : VGroup) : Status :=
  if vgroup.size % 2 ≠ 0 then .errUnsupported else .ok

/-- `ucg_planc_ucx_allgatherv_neighbor_op_new`. -/
def neighborOpNew (vgroup : VGroup) (args : AllgathervArgs B) : AllgathervNeighborOp B where
  vgroup := vgroup
  args := args
  status := .ok
  id := 0
  flags := ⟨false, false, false, false, false, false⟩
  loopCount := 0
  loopMax := 0
  neighbor _ := 0
  recvDataFrom _ := 0
  offsetAtStep _ := 0
  sendDataFrom := 0

/-- `ucg_planc_ucx_allgatherv_neighbor_prepare`. -/
def neighborPrepare (vgroup : VGroup) (args : AllgathervArgs B) :
    Except Status (AllgathervNeighborOp B) :=
  if neighborCheck vgroup ≠ .ok then .error .errUnsupported else .ok (neighborOpNew vgroup args)

end Functions

/-! ### The states of the operation -/

section Operation

variable (n r : ℕ) (args : AllgathervArgs B)

/-- Where the pairs of the two neighbours have come from before step `k`. -/
def neighborRecv (n r : ℕ) : ℕ → ℕ → ℕ
  | 0 => fun _ => neighborBase n 0 r
  | k + 1 => Function.update (neighborRecv n r k) (k % 2) (neighborBase n k r)

/-- An operation in step `k` of its loop, with what it has received from. -/
def neighborAt (status : Status) (id : ℕ) (flags : NeighborFlags) (k : ℕ)
    (recvDataFrom : ℕ → ℕ) : AllgathervNeighborOp B where
  vgroup := ⟨n, r, fun q => q⟩
  args := args
  status := status
  id := id
  flags := flags
  loopCount := k
  loopMax := n / 2
  neighbor i := if i = 0 then hplPeer n 0 r else hplPeer n 1 r
  recvDataFrom := recvDataFrom
  offsetAtStep i := if i = 0 ↔ r % 2 = 0 then 2 else -2
  sendDataFrom := neighborBase n (k - 1) r

/-- The messages of the first exchange. -/
def neighborInitCmds : Sched (Addr B) β :=
  [.send (hplPeer n 0 r) (args.blockCells r),
    .recv 0 (hplPeer n 0 r) (args.blockCells (hplPeer n 0 r)), .wait]

/-- The messages of step `k + 1` of the loop. -/
def neighborPosts (k : ℕ) : Sched (Addr B) β :=
  [.send (hplPeer n (k + 1) r) (args.blockCells (neighborBase n k r)),
    .send (hplPeer n (k + 1) r) (args.blockCells (neighborBase n k r + 1)),
    .recv 0 (hplPeer n (k + 1) r) (args.blockCells (neighborBase n (k + 1) r)),
    .recv 0 (hplPeer n (k + 1) r) (args.blockCells (neighborBase n (k + 1) r + 1))]

/-- Between calls the operation waits for the first exchange or in a step, or it has come to its
    end. -/
inductive NeighborRel : AllgathervNeighborOp B → Sched (Addr B) β → Prop
  | init (id : ℕ) :
      NeighborRel
        (neighborAt n r args .inprogress id ⟨true, false, false, true, true, true⟩ 1
          (neighborRecv n r 1))
        (.wait :: (stepFrom (neighborPosts n r args) (n / 2 - 1) 0 ++ []))
  | loop (id k : ℕ) (hk : k < n / 2 - 1) :
      NeighborRel
        (neighborAt n r args .inprogress id ⟨false, false, false, true, false, false⟩ (k + 1)
          (neighborRecv n r (k + 2)))
        (.wait :: (stepFrom (neighborPosts n r args) (n / 2 - 1) (k + 1) ++ []))
  | done (id : ℕ) :
      NeighborRel
        (neighborAt n r args .ok id ⟨false, false, false, false, true, true⟩ (n / 2 - 1 + 1)
          (neighborRecv n r (n / 2 - 1 + 1))) []

variable {n r args} {id k : ℕ}

/-- The neighbours have the two parities. -/
theorem neighbor_eq :
    (if k % 2 = 0 then hplPeer n 0 r else hplPeer n 1 r) = hplPeer n k r := by
  rw [hplPeer, hplPeer, hplPeer]
  split_ifs <;> first | rfl | omega

/-- Where the pair of step `k + 1` comes from. -/
theorem neighborRecv_next (hn : n % 2 = 0) (hr : r < n) (hk : k + 1 < n / 2) :
    (((neighborRecv n r (k + 1) ((k + 1) % 2) : ℤ) +
      (if (k + 1) % 2 = 0 ↔ r % 2 = 0 then 2 else -2) + n) % n).toNat =
        neighborBase n (k + 1) r := by
  have hpar : ((k + 1) % 2 = 0 ↔ r % 2 = 0) ↔ (r + (k + 1)) % 2 = 0 := by omega
  -- the pair before it on the same side
  have hlast : neighborRecv n r (k + 1) ((k + 1) % 2) = neighborBase n (k - 1) r := by
    rw [neighborRecv, Function.update_of_ne (by omega)]
    cases k with
    | zero => rfl
    | succ k => rw [neighborRecv, show (k + 1 + 1) % 2 = k % 2 by omega, Function.update_self,
        Nat.add_sub_cancel]
  rw [hlast]
  simp only [hpar]
  have hlt : neighborBase n (k - 1) r < n := by
    have := neighborBase_lt hn hr (show k - 1 < n by omega)
    omega
  by_cases hright : (r + (k + 1)) % 2 = 0
  · rw [if_pos hright, show ((neighborBase n (k - 1) r : ℤ) + 2 + n) =
      ((neighborBase n (k - 1) r + 2 + n : ℕ) : ℤ) by push_cast; ring, ← Int.natCast_mod,
      Int.toNat_natCast, Nat.add_mod_right, neighborBase, neighborBase, if_pos hright]
    cases k with
    | zero =>
      rw [if_neg (by omega), Nat.mod_add_mod,
        show r + n - (0 - 1) - 1 + 2 = r + (0 + 1) + n by omega, Nat.add_mod_right]
    | succ k =>
      rw [if_pos (by omega), Nat.mod_add_mod,
        show r + (k + 1 - 1) + 2 = r + (k + 1 + 1) by omega]
  · rw [if_neg hright, show ((neighborBase n (k - 1) r : ℤ) + -2 + n) =
      ((neighborBase n (k - 1) r + (n - 2) : ℕ) : ℤ) by omega, ← Int.natCast_mod,
      Int.toNat_natCast, neighborBase, neighborBase, if_neg hright]
    cases k with
    | zero =>
      rw [if_pos (by omega), Nat.mod_add_mod]
      congr 1
      omega
    | succ k =>
      rw [if_neg (by omega), Nat.mod_add_mod,
        show r + n - (k + 1 - 1) - 1 + (n - 2) = r + n - (k + 1 + 1) - 1 + n by omega,
        Nat.add_mod_right]

/-- What the trigger sets. -/
theorem neighborOpReset_new (hr : r < n) :
    neighborOpReset (neighborOpNew ⟨n, r, fun q => q⟩ args) id =
      neighborAt n r args .inprogress id ⟨true, true, true, true, true, true⟩ 1
        (neighborRecv n r 1) := by
  have hrecv : neighborRecv n r 1 = fun _ => neighborBase n 0 r := by
    rw [neighborRecv, neighborRecv, Function.update_eq_self_iff]
  rw [hrecv, neighborAt, neighborOpReset, neighborOpNew]
  dsimp only
  by_cases hpar : r % 2 = 0
  · have hbase : neighborBase n 0 r = r := by
      rw [neighborBase, if_pos (by omega), Nat.add_zero, Nat.mod_eq_of_lt hr]
    rw [if_pos hpar, hbase, hplPeer, hplPeer, if_neg (by omega), if_pos (by omega), leftOf, rightOf]
    simp only [hpar, iff_true]
  · have hbase : neighborBase n 0 r = (r + n - 1) % n := by
      rw [neighborBase, if_neg (by omega), Nat.sub_zero]
    rw [if_neg hpar, hbase, hplPeer, hplPeer, if_pos (by omega), if_neg (by omega), leftOf, rightOf]
    simp only [hpar, iff_false, ite_not]

/-- The states of the loop. -/
theorem steps_neighbor (hn : n % 2 = 0) (hr : r < n) (id : ℕ) :
    Steps (β := β) AllgathervNeighborOp.going neighborLoopPost AllgathervNeighborOp.next
      (neighborPosts n r args) (n / 2 - 1)
      (fun k => neighborAt n r args .inprogress id ⟨false, false, false, true, true, true⟩ (k + 1)
        (neighborRecv n r (k + 1)))
      (fun k => neighborAt n r args .inprogress id ⟨false, false, false, true, false, false⟩ (k + 1)
        (neighborRecv n r (k + 2))) where
  goingFresh k _ := decide_eq_decide.mpr (show k + 1 < n / 2 ↔ k < n / 2 - 1 by omega)
  goingPosted k hk := decide_eq_true (show k + 1 < n / 2 by omega)
  postFresh k hk leaf moved cs hleaf := by
    rw [neighborLoopPost, exec_bind, neighborLoopSend, if_pos (by rfl), neighborPosts]
    dsimp only [neighborAt]
    rw [neighbor_eq, Nat.add_sub_cancel, exec_bind, List.cons_append]
    refine exec_isend_cons rfl rfl ?_
    simp only [ne_eq, not_true_eq_false, if_false]
    rw [exec_bind, List.cons_append]
    refine exec_isend_cons rfl rfl ?_
    simp only [exec_pure, not_true_eq_false, if_false]
    rw [neighborLoopRecv, if_pos (by rfl)]
    dsimp only
    rw [neighbor_eq, neighborRecv_next hn hr (by omega), exec_bind, List.cons_append]
    refine exec_irecv_cons rfl rfl ?_
    simp only [ne_eq, not_true_eq_false, if_false]
    rw [exec_bind, List.cons_append]
    exact exec_irecv_cons rfl rfl hleaf
  postPosted _ _ := rfl
  next k hk := by
    -- the pair that has come is the one to pass on
    have hcame : neighborRecv n r (k + 2) ((k + 1) % 2) = neighborBase n (k + 1) r := by
      rw [neighborRecv, Function.update_self]
    rw [AllgathervNeighborOp.next, neighborAt, neighborAt]
    dsimp only
    rw [hcame]
    rfl

/-- How a call of the two phases ends. -/
abbrev NeighborLeaf (n r : ℕ) (args : AllgathervArgs B) (moved : Bool)
    (res : AllgathervNeighborOp B × Status) (cs : Sched (Addr B) β) : Prop :=
  OpLeaf AllgathervNeighborOp.status (NeighborRel n r args) moved { res.1 with status := res.2 } cs

/-- Where the loop leaves a call. -/
theorem stepLeaf_neighbor (id : ℕ) :
    StepLeaf (neighborPosts n r args) (n / 2 - 1)
      (fun k => neighborAt n r args .inprogress id ⟨false, false, false, true, true, true⟩ (k + 1)
        (neighborRecv n r (k + 1)))
      (fun k => neighborAt n r args .inprogress id ⟨false, false, false, true, false, false⟩ (k + 1)
        (neighborRecv n r (k + 2))) ([] : Sched (Addr B) β)
      fun moved res cs =>
        (if res.2 ≠ .ok then (return (res.1, res.2) : Prog (Addr B) β _)
          else return ({ res.1 with flags := { res.1.flags with loop := false } }, .ok)).Exec
        (NeighborLeaf n r args) moved cs where
  done _ := ⟨.done id, Or.inr ⟨rfl, rfl⟩⟩
  posted k hk := ⟨.loop id k hk, Or.inl ⟨rfl, rfl, trivial⟩⟩

/-- The second phase, from its start on. -/
theorem exec_neighborOpSecond (hn : n % 2 = 0) (hr : r < n) (id : ℕ) (moved : Bool) :
    (neighborOpSecond (neighborAt n r args .inprogress id ⟨false, false, false, true, true, true⟩ 1
      (neighborRecv n r 1))).Exec (NeighborLeaf n r args) moved
      (stepFrom (neighborPosts n r args) (n / 2 - 1) 0 ++ [] : Sched (Addr B) β) := by
  rw [neighborOpSecond, if_pos (by rfl), exec_bind, neighborOpLoop]
  exact exec_stepLoop_fresh (steps_neighbor hn hr id) (stepLeaf_neighbor id)
    (show n / 2 - 1 ≤ 0 + n / 2 by omega) (Nat.zero_le _)

/-- The first phase, when its messages have been posted. -/
theorem exec_neighborOpPhases_posted (hn : n % 2 = 0) (hr : r < n) (id : ℕ) (moved : Bool) :
    (neighborOpPhases (neighborAt n r args .inprogress id ⟨true, false, false, true, true, true⟩ 1
      (neighborRecv n r 1))).Exec (NeighborLeaf n r args) moved
      (.wait :: (stepFrom (neighborPosts n r args) (n / 2 - 1) 0 ++ []) : Sched (Addr B) β) := by
  rw [neighborOpPhases, if_pos (by rfl), exec_bind, neighborOpInit, exec_bind, neighborInitSend,
    if_neg (by exact Bool.false_ne_true), exec_pure]
  simp only [ne_eq, not_true_eq_false, if_false]
  rw [exec_bind, neighborInitRecv, if_neg (by exact Bool.false_ne_true), exec_pure]
  simp only [not_true_eq_false, if_false]
  rw [exec_bind]
  refine exec_testall_wait ?_ ?_
  · exact ⟨.init id, Or.inl ⟨rfl, rfl, trivial⟩⟩
  · exact exec_neighborOpSecond hn hr id true

/-- The first phase, from its start on. -/
theorem exec_neighborOpPhases_fresh (hn : n % 2 = 0) (hr : r < n) (id : ℕ) (moved : Bool) :
    (neighborOpPhases (neighborAt n r args .inprogress id ⟨true, true, true, true, true, true⟩ 1
      (neighborRecv n r 1))).Exec (NeighborLeaf n r args) moved
      (neighborInitCmds n r args ++ (stepFrom (neighborPosts n r args) (n / 2 - 1) 0 ++ []) :
        Sched (Addr B) β) := by
  rw [neighborOpPhases, if_pos (by rfl), exec_bind, neighborOpInit, exec_bind, neighborInitSend,
    if_pos (by rfl), exec_bind, neighborInitCmds, List.cons_append]
  refine exec_isend_cons rfl rfl ?_
  simp only [exec_pure, ne_eq, not_true_eq_false, if_false]
  rw [exec_bind, neighborInitRecv, if_pos (by rfl), exec_bind, List.cons_append]
  refine exec_irecv_cons rfl rfl ?_
  simp only [exec_pure, not_true_eq_false, if_false]
  rw [exec_bind]
  refine exec_testall_wait ?_ ?_
  · exact ⟨.init id, Or.inl ⟨rfl, rfl, trivial⟩⟩
  · exact exec_neighborOpSecond hn hr id true

/-- The operation executes its schedule, if the number of ranks is even. -/
theorem neighbor_runs (hn : n % 2 = 0) (hr : r < n) (id : ℕ) :
    OpRuns neighborFuncs AllgathervNeighborOp.status id (neighborOpNew ⟨n, r, fun q => q⟩ args)
      (NeighborRel n r args)
      (allgathervCopy args r ++ (neighborInitCmds n r args ++
        (stepFrom (neighborPosts n r args) (n / 2 - 1) 0 ++ [])) : Sched (Addr B) β) where
  trigger := by
    change (neighborOpTrigger _ id).Exec _ _ _
    rw [neighborOpTrigger]
    dsimp only
    rw [neighborOpReset_new hr, exec_bind]
    refine exec_allgathervMemcpy ?_
    rw [exec_bind, neighborOpProgress, exec_bind]
    exact (exec_neighborOpPhases_fresh hn hr id true).imp fun moved res cs h => h
  progress op cs hrel := by
    change (neighborOpProgress op).Exec _ _ _
    rw [neighborOpProgress, exec_bind]
    cases hrel with
    | init id =>
      exact (exec_neighborOpPhases_posted hn hr id false).imp fun moved res cs h => ⟨rfl, h⟩
    | loop id k hk =>
      rw [neighborOpPhases, if_neg (by exact Bool.false_ne_true), neighborOpSecond,
        if_pos (by rfl), exec_bind, neighborOpLoop]
      exact (exec_stepLoop_posted (steps_neighbor hn hr id) (stepLeaf_neighbor id)
        (show n / 2 - 1 ≤ k + n / 2 by omega) hk).imp fun moved res cs h =>
          h.imp fun moved res cs h => ⟨rfl, h⟩
    | done id =>
      rw [neighborOpPhases, if_neg (by exact Bool.false_ne_true), neighborOpSecond,
        if_neg (by exact Bool.false_ne_true)]
      exact ⟨rfl, .done id, Or.inr ⟨rfl, rfl⟩⟩

end Operation

section Runs

variable [DecidableEq B]

/-- The neighbour exchanges of all ranks. -/
def neighborProc (n : ℕ) (args : ℕ → AllgathervArgs B) (id r : ℕ) :
    Proc (Addr B) β (AllgathervNeighborOp B) :=
  opProc neighborFuncs AllgathervNeighborOp.status (neighborOpNew ⟨n, r, fun q => q⟩ (args r)) id

end Runs

end Kucg.Ucx
