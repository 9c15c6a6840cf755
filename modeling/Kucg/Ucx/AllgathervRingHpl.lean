import Kucg.Algo.Ring
import Kucg.Algo.RingHpl
import Kucg.Ucx.Allgatherv
import Kucg.Ucx.StepLoop

/-! The allgatherv of `allgatherv_ring_hpl.c`, in which neighbours on a ring exchange blocks. -/

namespace Kucg.Ucx

open Kucg.Core Kucg.Lib Kucg.Algo

variable {B β : Type}

/-- `ucg_planc_ucx_op_t` of the allgatherv. -/
structure AllgathervRingHplOp (B : Type) where
  vgroup : VGroup
  args : AllgathervArgs B
  status : Status
  id : ℕ
  iter : RingIter
  send : Bool
  recv : Bool

section Functions

/-- The peer of the step. -/
def AllgathervRingHplOp.peer (op : AllgathervRingHplOp B) : ℕ :=
  if (op.vgroup.myrank + op.iter.idx) % 2 ≠ 0 then op.iter.left else op.iter.right

/-- The send of a step. The block is given in elements of the send type. -/
def ringHplSend (op : AllgathervRingHplOp B) :
    Prog (Addr B) β (AllgathervRingHplOp B × Status) :=
  if op.send then do
    let n := op.vgroup.size
    let blockIdx :=
      if op.peer = op.iter.right then (op.vgroup.myrank + n - op.iter.idx / 2) % n
      else (op.vgroup.myrank + op.iter.idx / 2 + n) % n
    let status ← p2pIsend
      (dtCells (op.args.block blockIdx) (op.args.recvcounts blockIdx) op.args.sendtype)
      (some op.peer) op.vgroup
    return ({ op with send := false }, status)
  else return (op, .ok)

/-- The receive of a step. -/
def ringHplRecv (op : AllgathervRingHplOp B) :
    Prog (Addr B) β (AllgathervRingHplOp B × Status) :=
  if op.recv then do
    let n := op.vgroup.size
    let blockIdx :=
      if op.peer = op.iter.right then (op.peer + op.iter.idx / 2 + n) % n
      else (op.peer + n - op.iter.idx / 2) % n
    let status ← p2pIrecv (op.args.blockCells blockIdx) (some op.peer) op.vgroup 0
    return ({ op with recv := false }, status)
  else return (op, .ok)

/-- What is posted in a step. -/
def ringHplPost (op : AllgathervRingHplOp B) :
    Prog (Addr B) β (AllgathervRingHplOp B × Status) := do
  let (op, status) ← ringHplSend op
  if status ≠ .ok then return (op, status)
  ringHplRecv op

/-- The end of a step. -/
def AllgathervRingHplOp.next (op : AllgathervRingHplOp B) : AllgathervRingHplOp B :=
  { op with iter := op.iter.inc, send := true, recv := true }

/-- `ucg_algo_ring_iter_end`, negated. -/
def AllgathervRingHplOp.going (op : AllgathervRingHplOp B) : Bool := op.iter.idx < op.iter.maxIdx

/-- `ucg_planc_ucx_allgatherv_ring_hpl_op_progress`. -/
def ringHplOpProgress (op : AllgathervRingHplOp B) :
    Prog (Addr B) β (AllgathervRingHplOp B × Status) := do
  let (op, status) ← stepLoop AllgathervRingHplOp.going ringHplPost AllgathervRingHplOp.next
    op.iter.maxIdx op
  return ({ op with status := status }, status)

/-- `ucg_planc_ucx_allgatherv_ring_hpl_op_trigger`, with
    `ucg_planc_ucx_allgatherv_ring_hpl_init`. -/
def ringHplOpTrigger (op : AllgathervRingHplOp B) (id : ℕ) :
    Prog (Addr B) β (AllgathervRingHplOp B × Status) := do
  let op := { op with
    id := id, status := .inprogress, iter := op.iter.reset, send := true, recv := true }
  allgathervMemcpy op.args op.vgroup.myrank
  let (op, status) ← ringHplOpProgress op
  return (op, if status = .inprogress then .ok else status)

/-- The trigger and progress functions of the operation. -/
def ringHplFuncs : OpFuncs (Prog (Addr B) β) (AllgathervRingHplOp B) where
  trigger := ringHplOpTrigger
  progress := ringHplOpProgress

/-- `ucg_planc_ucx_allgatherv_ring_hpl_prepare`. -/
def ringHplOpNew (vgroup : VGroup) (args : AllgathervArgs B) : AllgathervRingHplOp B where
  vgroup := vgroup
  args := args
  status := .ok
  id := 0
  iter := RingIter.init vgroup.size vgroup.myrank
  send := false
  recv := false

end Functions

section Operation

variable (n r : ℕ) (args : AllgathervArgs B)

/-- An operation in step `k`. -/
def ringHplAt (status : Status) (id k : ℕ) (flag : Bool) : AllgathervRingHplOp B :=
  ⟨⟨n, r, fun q => q⟩, args, status, id, { RingIter.init n r with idx := k }, flag, flag⟩

/-- What is posted in step `k`. -/
def ringHplPosts (k : ℕ) : Sched (Addr B) β :=
  [.send (hplPeer n k r) (args.blockCells (hplSendBlock n k r)),
    .recv 0 (hplPeer n k r) (args.blockCells (hplRecvBlock n k r))]

/-- Between calls the operation waits in a step, or it has come to its end. -/
inductive RingHplRel : AllgathervRingHplOp B → Sched (Addr B) β → Prop
  | posted (id k : ℕ) (hk : k < n - 1) :
      RingHplRel (ringHplAt n r args .inprogress id k false)
        (.wait :: (stepFrom (ringHplPosts n r args) (n - 1) (k + 1) ++ []))
  | done (id : ℕ) : RingHplRel (ringHplAt n r args .ok id (n - 1) true) []

variable {n r args} {id : ℕ}

theorem steps_ringHpl (htypes : args.sendtype = args.recvtype) (id : ℕ) :
    Steps (β := β) AllgathervRingHplOp.going ringHplPost AllgathervRingHplOp.next
      (ringHplPosts n r args) (n - 1) (fun k => ringHplAt n r args .inprogress id k true)
      (fun k => ringHplAt n r args .inprogress id k false) where
  goingFresh _ _ := rfl
  goingPosted k hk := decide_eq_true hk
  postFresh k hk leaf moved cs hleaf := by
    rw [ringHplPost, exec_bind, ringHplSend, if_pos (show (ringHplAt n r args _ id k true).send from
      rfl), exec_bind, ringHplPosts, List.cons_append]
    refine exec_isend_cons rfl ?_ ?_
    · change dtCells _ _ args.sendtype = _
      rw [htypes]
      rfl
    · simp only [exec_pure, ne_eq, not_true_eq_false, if_false]
      rw [ringHplRecv, if_pos (by rfl), exec_bind]
      exact exec_irecv_cons rfl rfl hleaf
  postPosted _ _ := rfl
  next _ _ := rfl

/-- Where the loop leaves a progress call. -/
theorem stepLeaf_ringHpl (id : ℕ) :
    StepLeaf (ringHplPosts n r args) (n - 1) (fun k => ringHplAt n r args .inprogress id k true)
      (fun k => ringHplAt n r args .inprogress id k false) ([] : Sched (Addr B) β)
      fun moved res cs => OpLeaf AllgathervRingHplOp.status (RingHplRel n r args) moved
        { res.1 with status := res.2 } cs where
  done _ := ⟨.done id, Or.inr ⟨rfl, rfl⟩⟩
  posted k hk := ⟨.posted id k hk, Or.inl ⟨rfl, rfl, trivial⟩⟩

/-- The operation executes its schedule, if the types agree. -/
theorem ringHpl_runs (htypes : args.sendtype = args.recvtype) (id : ℕ) :
    OpRuns ringHplFuncs AllgathervRingHplOp.status id (ringHplOpNew ⟨n, r, fun q => q⟩ args)
      (RingHplRel n r args)
      (allgathervCopy args r ++ (stepFrom (ringHplPosts n r args) (n - 1) 0 ++ []) :
        Sched (Addr B) β) where
  trigger := by
    change (ringHplOpTrigger _ id).Exec _ _ _
    rw [ringHplOpTrigger]
    dsimp only
    rw [exec_bind]
    refine exec_allgathervMemcpy ?_
    rw [exec_bind, ringHplOpProgress, exec_bind]
    exact (exec_stepLoop_fresh (steps_ringHpl htypes id) (stepLeaf_ringHpl id) (Nat.le_add_left ..)
      (Nat.zero_le _)).imp fun moved res cs h => h
  progress op cs hrel := by
    change (ringHplOpProgress op).Exec _ _ _
    cases hrel with
    | posted id k hk =>
      rw [ringHplOpProgress, exec_bind]
      exact (exec_stepLoop_posted (steps_ringHpl htypes id) (stepLeaf_ringHpl id)
        (Nat.le_add_left ..) hk).imp fun moved res cs h => ⟨rfl, h⟩
    | done id =>
      have hend : (ringHplAt n r args .ok id (n - 1) true).going = false :=
        decide_eq_false (lt_irrefl (n - 1))
      rw [ringHplOpProgress, exec_bind, stepLoop_end hend]
      exact ⟨rfl, .done id, Or.inr ⟨rfl, rfl⟩⟩

end Operation

section Runs

variable [DecidableEq B]

/-- The ring-HPL allgathervs of all ranks. -/
def ringHplProc (n : ℕ) (args : ℕ → AllgathervArgs B) (id r : ℕ) :
    Proc (Addr B) β (AllgathervRingHplOp B) :=
  opProc ringHplFuncs AllgathervRingHplOp.status (ringHplOpNew ⟨n, r, fun q => q⟩ (args r)) id

end Runs

end Kucg.Ucx
