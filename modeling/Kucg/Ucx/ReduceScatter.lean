import Kucg.Core.TopoRuns
import Kucg.Ucx.AllreduceRd
import Mathlib.Data.Int.Bitwise

/-! The reduce-scatter of the Rabenseifner allreduce, and the window that is computed a second time
    for the operations behind it.

    In every step of the operation a rank splits its window with its peer, sends one part away and
    keeps the other. `ucg_planc_ucx_allreduce_get_rd_args` replays the splits in a loop of its
    own. -/

namespace Kucg.Ucx

open Kucg.Core Kucg.Lib

variable {B β : Type}

/-! ### The operation -/

/-- The ranks of a group that is no power of two. -/
inductive RabenseifnerRank where
  | base | proxy | extra
  deriving DecidableEq, Repr

/-- The flags of the operation, a bit each. -/
structure RabenseifnerFlags where
  proxySend : Bool
  proxyRecv : Bool
  proxyReduce : Bool
  proxyRecvResult : Bool
  extraSend : Bool
  extraRecv : Bool
  extraReduce : Bool
  extraSendResult : Bool
  baseReduceScatter : Bool
  baseReduceScatterSend : Bool
  baseReduceScatterRecv : Bool

/-- The flags that a trigger sets: `UCG_RABENSEIFNER_BASE_FLAGS`,
    `UCG_RABENSEIFNER_PROXY_FLAGS` and `UCG_RABENSEIFNER_EXTRA_FLAGS`. -/
def RabenseifnerFlags.of (base proxy extra : Bool) : RabenseifnerFlags :=
  ⟨proxy, proxy, proxy, proxy, extra, extra, extra, extra, base, base, base⟩

/-- The flags of a trigger by the rank type. -/
def RabenseifnerFlags.ofRank : RabenseifnerRank → RabenseifnerFlags
  | .base => .of true false false
  | .proxy => .of true true false
  | .extra => .of false false true

/-- The arrays `send_index`, `recv_index`, `send_count` and `recv_count`. -/
structure Windows where
  sendIndex : ℕ → ℕ
  recvIndex : ℕ → ℕ
  sendCount : ℕ → ℕ
  recvCount : ℕ → ℕ

/-- `ucg_planc_ucx_op_t` of a reduce-scatter. -/
structure RabenseifnerOp (B : Type) where
  vgroup : VGroup
  args : AllreduceArgs B
  status : Status
  id : ℕ
  flags : RabenseifnerFlags
  stagingArea : Cell B
  rankType : RabenseifnerRank
  newRank : ℤ
  mask : ℕ
  stepIndex : ℕ
  windowSize : ℕ
  windows : Windows

/-- The element `i` behind a pointer. -/
def Cell.at (p : Cell B) (i : ℕ) : Cell B := (p.1, p.2 + i)

/-- The rank that a new rank stands for. -/
def rabenseifnerPeer (nprocsRem : ℕ) (newPeer : ℤ) : ℤ :=
  if newPeer < nprocsRem then newPeer * 2 else newPeer + nprocsRem

section Functions

variable (reduce : β → β → β)

/-- The loop of `ucg_planc_ucx_allreduce_reduce_scatter_op_base_progress`: the parts of the
window. -/
def reduceScatterOpSplit (op : RabenseifnerOp B) (peer : ℤ) : RabenseifnerOp B :=
  let step := op.stepIndex
  let wsize := op.windowSize
  let w := op.windows
  if op.vgroup.myrank < peer then
    let rcount := Function.update w.recvCount step (wsize / 2)
    let scount := Function.update w.sendCount step (wsize - rcount step)
    let sindex := Function.update w.sendIndex step (w.recvIndex step + rcount step)
    { op with windows := ⟨sindex, w.recvIndex, scount, rcount⟩ }
  else
    let scount := Function.update w.sendCount step (wsize / 2)
    let rcount := Function.update w.recvCount step (wsize - scount step)
    let rindex := Function.update w.recvIndex step (w.sendIndex step + scount step)
    { op with windows := ⟨w.sendIndex, rindex, scount, rcount⟩ }

/-- The loop: the messages. -/
def reduceScatterOpPost (op : RabenseifnerOp B) (peer : ℕ) :
    Prog (Cell B) β (RabenseifnerOp B × Status) := do
  let step := op.stepIndex
  let mut op := op
  if op.flags.baseReduceScatterSend then
    op := { op with flags := { op.flags with baseReduceScatterSend := false } }
    let status ← p2pIsend
      (span (op.args.recvbuf.at (op.windows.sendIndex step)) (op.windows.sendCount step))
      (some peer) op.vgroup
    if status ≠ .ok then return (op, status)
  if op.flags.baseReduceScatterRecv then
    op := { op with flags := { op.flags with baseReduceScatterRecv := false } }
    let status ← p2pIrecv
      (span (op.stagingArea.at (op.windows.recvIndex step)) (op.windows.recvCount step))
      (some peer) op.vgroup 0
    if status ≠ .ok then return (op, status)
  return (op, .ok)

/-- The loop: the reduction, and the next step. -/
def reduceScatterOpFinish (nstep : ℕ) (op : RabenseifnerOp B) :
    Prog (Cell B) β (RabenseifnerOp B × Status) := do
  let step := op.stepIndex
  let w := op.windows
  let status ← p2pTestall
  if status ≠ .ok then return (op, status)
  opReduce reduce (span (op.stagingArea.at (w.recvIndex step)) (w.recvCount step))
    (span (op.args.recvbuf.at (w.recvIndex step)) (w.recvCount step))
  let mut op := op
  if step + 1 < nstep then
    let rindex := Function.update w.recvIndex (step + 1) (w.recvIndex step)
    let sindex := Function.update w.sendIndex (step + 1) (w.recvIndex step)
    op := { op with
      windows := { w with recvIndex := rindex, sendIndex := sindex },
      windowSize := w.recvCount step, stepIndex := step + 1 }
  op := { op with
    mask := op.mask * 2,
    flags := { op.flags with baseReduceScatterSend := true, baseReduceScatterRecv := true } }
  return (op, .ok)

/-- `ucg_planc_ucx_allreduce_reduce_scatter_op_base_progress`. The fuel bounds the number of
    iterations. In a group of one rank the source leaves the step index at -1. -/
def reduceScatterOpBaseProgress (fuel : ℕ) (op : RabenseifnerOp B) :
    Prog (Cell B) β (RabenseifnerOp B × Status) :=
  let nstep := Nat.log2 op.vgroup.size
  let nprocsPof2 := 2 ^ nstep
  let nprocsRem := op.vgroup.size - nprocsPof2
  if op.mask < nprocsPof2 then
    match fuel with
    | 0 => return (op, .inprogress)
    | fuel + 1 => do
      let peer := rabenseifnerPeer nprocsRem (Int.xor op.newRank op.mask)
      let (op, status) ← reduceScatterOpPost (reduceScatterOpSplit op peer) peer.toNat
      if status ≠ .ok then return (op, status)
      let (op, status) ← reduceScatterOpFinish reduce nstep op
      if status ≠ .ok then return (op, status)
      reduceScatterOpBaseProgress fuel op
  else return ({ op with mask := nprocsPof2 / 2, stepIndex := nstep - 1 }, .ok)

/-- `ucg_planc_ucx_allreduce_reduce_scatter_op_base`. -/
def reduceScatterOpBase (op : RabenseifnerOp B) : Prog (Cell B) β (RabenseifnerOp B × Status) := do
  let mut op := op
  if op.flags.baseReduceScatter then
    let (op', status) ← reduceScatterOpBaseProgress reduce (Nat.log2 op.vgroup.size) op
    op := op'
    if status ≠ .ok then return ({ op with status := status }, status)
    op := { op with flags := { op.flags with baseReduceScatter := false } }
  return ({ op with status := .ok }, .ok)

/-- `ucg_planc_ucx_allreduce_reduce_scatter_op_proxy`: the halves that are exchanged with the
    extra. -/
def reduceScatterOpProxyPost (op : RabenseifnerOp B) :
    Prog (Cell B) β (RabenseifnerOp B × Status) := do
  let peer := op.vgroup.myrank + 1
  let countLhalf := op.args.count / 2
  let countRhalf := op.args.count - countLhalf
  let mut op := op
  if op.flags.proxySend then
    op := { op with flags := { op.flags with proxySend := false } }
    let status ← p2pIsend (span (op.args.recvbuf.at countLhalf) countRhalf) (some peer) op.vgroup
    if status ≠ .ok then return (op, status)
  if op.flags.proxyRecv then
    op := { op with flags := { op.flags with proxyRecv := false } }
    let status ← p2pIrecv (span op.stagingArea countLhalf) (some peer) op.vgroup 0
    if status ≠ .ok then return (op, status)
  return (op, .ok)

/-- The reduction of the own half, and the receive of the other one. -/
def reduceScatterOpProxyReduce (op : RabenseifnerOp B) :
    Prog (Cell B) β (RabenseifnerOp B × Status) := do
  let peer := op.vgroup.myrank + 1
  let countLhalf := op.args.count / 2
  let countRhalf := op.args.count - countLhalf
  let mut op := op
  if op.flags.proxyReduce then
    op := { op with flags := { op.flags with proxyReduce := false } }
    opReduce reduce (span op.stagingArea countLhalf) (span op.args.recvbuf countLhalf)
  if op.flags.proxyRecvResult then
    op := { op with flags := { op.flags with proxyRecvResult := false } }
    let status ← p2pIrecv (span (op.args.recvbuf.at countLhalf) countRhalf) (some peer) op.vgroup 0
    if status ≠ .ok then return (op, status)
  return (op, .ok)

/-- `ucg_planc_ucx_allreduce_reduce_scatter_op_proxy`. The test of `UCG_RABENSEIFNER_RANK_BASE`,
    which is no bit, always succeeds. -/
def reduceScatterOpProxy (op : RabenseifnerOp B) :
    Prog (Cell B) β (RabenseifnerOp B × Status) := do
  let (op, status) ← reduceScatterOpProxyPost op
  if status ≠ .ok then return (op, status)
  let status ← p2pTestall
  if status ≠ .ok then return (op, status)
  let (op, status) ← reduceScatterOpProxyReduce reduce op
  if status ≠ .ok then return (op, status)
  let status ← p2pTestall
  if status ≠ .ok then return (op, status)
  let (op, status) ← reduceScatterOpBase reduce op
  if status ≠ .ok then return (op, status)
  let status ← p2pTestall
  return (op, status)

/-- `ucg_planc_ucx_allreduce_reduce_scatter_op_extra`. -/
def reduceScatterOpExtra (op : RabenseifnerOp B) :
    Prog (Cell B) β (RabenseifnerOp B × Status) := do
  let peer := op.vgroup.myrank - 1
  let countLhalf := op.args.count / 2
  let countRhalf := op.args.count - countLhalf
  let mut op := op
  if op.flags.extraSend then
    op := { op with flags := { op.flags with extraSend := false } }
    let status ← p2pIsend (span op.args.recvbuf countLhalf) (some peer) op.vgroup
    if status ≠ .ok then return (op, status)
  if op.flags.extraRecv then
    op := { op with flags := { op.flags with extraRecv := false } }
    let status ← p2pIrecv (span (op.stagingArea.at countLhalf) countRhalf) (some peer) op.vgroup 0
    if status ≠ .ok then return (op, status)
  let status ← p2pTestall
  if status ≠ .ok then return (op, status)
  if op.flags.extraReduce then
    op := { op with flags := { op.flags with extraReduce := false } }
    opReduce reduce (span (op.stagingArea.at countLhalf) countRhalf)
      (span (op.args.recvbuf.at countLhalf) countRhalf)
  if op.flags.extraSendResult then
    op := { op with flags := { op.flags with extraSendResult := false } }
    let status ← p2pIsend (span (op.args.recvbuf.at countLhalf) countRhalf) (some peer) op.vgroup
    if status ≠ .ok then return (op, status)
  let status ← p2pTestall
  return (op, status)

/-- `ucg_planc_ucx_allreduce_reduce_scatter_op_progress`. -/
def reduceScatterOpProgress (op : RabenseifnerOp B) :
    Prog (Cell B) β (RabenseifnerOp B × Status) := do
  let (op, status) ← match op.rankType with
    | .base => reduceScatterOpBase reduce op
    | .proxy => reduceScatterOpProxy reduce op
    | .extra => reduceScatterOpExtra reduce op
  return ({ op with status := status }, status)

/-- `ucg_planc_ucx_allreduce_rabenseifner_common_op_reset`. -/
def rabenseifnerCommonOpReset (op : RabenseifnerOp B) : RabenseifnerOp B :=
  { op with
    mask := 1
    stepIndex := 0
    windowSize := op.args.count
    windows := { op.windows with
      sendIndex := Function.update op.windows.sendIndex 0 0
      recvIndex := Function.update op.windows.recvIndex 0 0 } }

/-- `ucg_planc_ucx_allreduce_reduce_scatter_op_trigger`. -/
def reduceScatterOpTrigger (op : RabenseifnerOp B) (id : ℕ) :
    Prog (Cell B) β (RabenseifnerOp B × Status) := do
  let mut op := rabenseifnerCommonOpReset { op with id := id, status := .inprogress }
  op := { op with flags := RabenseifnerFlags.ofRank op.rankType }
  if let some sendbuf := op.args.sendbuf then
    dtMemcpy (span op.args.recvbuf op.args.count) (span sendbuf op.args.count)
  let (op', status) ← reduceScatterOpProgress reduce op
  return (op', if status = .inprogress then .ok else status)

/-- The trigger and progress functions of the operation. -/
def reduceScatterFuncs : OpFuncs (Prog (Cell B) β) (RabenseifnerOp B) where
  trigger := reduceScatterOpTrigger reduce
  progress := reduceScatterOpProgress reduce

/-- `ucg_planc_ucx_allreduce_reduce_scatter_op_new`, with the staging area and the arrays that it
    allocates; `windows` is what the arrays hold before. -/
def reduceScatterOpNew (vgroup : VGroup) (args : AllreduceArgs B) (stagingArea : Cell B)
    (windows : Windows) : RabenseifnerOp B :=
  let nprocsRem := vgroup.size - 2 ^ Nat.log2 vgroup.size
  let (rankType, newRank) : RabenseifnerRank × ℤ :=
    if vgroup.myrank < 2 * nprocsRem then
      if vgroup.myrank % 2 = 0 then (.proxy, vgroup.myrank / 2) else (.extra, -1)
    else (.base, vgroup.myrank - nprocsRem)
  rabenseifnerCommonOpReset
    ⟨vgroup, args, .ok, 0, RabenseifnerFlags.of false false false, stagingArea, rankType, newRank,
      1, 0, args.count, windows⟩

end Functions

/-! ### The window for the operations behind it -/

/-- The loop of `ucg_planc_ucx_allreduce_get_rd_args`, with the step at its end. The fuel bounds the
    number of iterations. -/
def getRdArgsLoop (myrank newRank : ℤ) (nstep nprocsPof2 nprocsRem : ℕ) :
    ℕ → ℕ → ℕ → ℕ → Windows → ℕ × Windows
  | 0, _, step, _, w => (step, w)
  | fuel + 1, mask, step, wsize, w =>
    if mask < nprocsPof2 then
      let newPeer := Int.xor newRank mask
      let peer := if newPeer < nprocsRem then newPeer * 2 else newPeer + nprocsRem
      let w : Windows :=
        if myrank < peer then
          let rcount := Function.update w.recvCount step (wsize / 2)
          let scount := Function.update w.sendCount step (wsize - rcount step)
          let sindex := Function.update w.sendIndex step (w.recvIndex step + rcount step)
          ⟨sindex, w.recvIndex, scount, rcount⟩
        else
          let scount := Function.update w.sendCount step (wsize / 2)
          let rcount := Function.update w.recvCount step (wsize - scount step)
          let rindex := Function.update w.recvIndex step (w.sendIndex step + scount step)
          ⟨w.sendIndex, rindex, scount, rcount⟩
      if step + 1 < nstep then
        let rindex := Function.update w.recvIndex (step + 1) (w.recvIndex step)
        let sindex := Function.update w.sendIndex (step + 1) (w.recvIndex step)
        getRdArgsLoop myrank newRank nstep nprocsPof2 nprocsRem fuel (mask * 2) (step + 1)
          (w.recvCount step) ⟨sindex, rindex, w.sendCount, w.recvCount⟩
      else getRdArgsLoop myrank newRank nstep nprocsPof2 nprocsRem fuel (mask * 2) step wsize w
    else (step, w)

/-- `ucg_planc_ucx_allreduce_get_rd_args`, given the group that `ucg_topo_get_group` returns,
    whether the four arrays are allocated, and what they hold. -/
def allreduceGetRdArgs (topoGroup : Option TopoGroup) (args : AllreduceArgs B) (extent : ℤ)
    (mem : Bool) (w : Windows) : Except Status (ℤ × ℕ) :=
  match topoGroup with
  | none => .error .errUnsupported
  | some topoGroup =>
    if topoGroup.state = .error ∨ topoGroup.state = .disable then .error .errUnsupported
    else
      let myrank : ℤ := topoGroup.myrank.elim (-1) fun r => r
      let nstep := Nat.log2 topoGroup.size
      let nprocsPof2 := 2 ^ nstep
      let nprocsRem := topoGroup.size - nprocsPof2
      let newRank : ℤ :=
        if myrank < 2 * nprocsRem then if myrank % 2 = 0 then myrank / 2 else -1
        else myrank - nprocsRem
      if ¬mem then .error .errNoMemory
      else
        let w : Windows := ⟨Function.update w.sendIndex 0 0, Function.update w.recvIndex 0 0,
          w.sendCount, Function.update w.recvCount 0 0⟩
        let (step, w) := getRdArgsLoop myrank newRank nstep nprocsPof2 nprocsRem nstep 1 0
          args.count w
        .ok (w.recvIndex step * extent, w.recvCount step)

/-- `ucg_vgroup_t` of a topology group. -/
def vgroupOf (group : TopoGroup) : VGroup where
  size := group.size
  myrank := group.myrank.getD 0
  rankMap v := (group.rankMap.eval v).getD 0

end Kucg.Ucx
