import Kucg.Algo.Kntree
import Kucg.Ucx.Bcast

/-! The long broadcast of `bcast_long.c`: a binomial scatter and a neighbour-exchange allgather.

    The buffer is cut into as many blocks as there are ranks. In the scatter a rank gets the blocks
    of its sub-tree, in the allgather it exchanges one block with its left or its right neighbour in
    turn, so that the blocks that it has always lie around its own on the circle of ranks. With an
    odd number of ranks, rank 0 from the root exchanges with both neighbours in every other step. -/

namespace Kucg.Ucx

open Kucg.Core Kucg.Lib Kucg.Algo

variable {B β : Type}

/-- `BATCH_THRESH`. -/
def batchThresh : ℕ := 512 * 1024

/-- The flags of the operation, a bit each; the first one is set by the modified broadcast only. -/
structure BcastLongFlags where
  rootToNearPhase : Bool
  scattervPhase : Bool
  allgathervPhase : Bool
  send : Bool
  recv : Bool

/-- `ucg_planc_ucx_op_t` of a long broadcast, also of the modified one. -/
structure BcastLongOp (B : Type) where
  vgroup : VGroup
  args : BcastArgs B
  status : Status
  id : ℕ
  flags : BcastLongFlags
  iter : KntreeIter
  stepIdx : ℕ
  currBlocks : ℕ
  quotient : ℕ
  division : ℕ
  inflight : ℕ

/-- The number of elements of a block. -/
def blockCount (quotient division block : ℕ) : ℕ :=
  if block < division then quotient + 1 else quotient

/-- The offset of a block. -/
def blockOffset (quotient division block : ℕ) : ℕ :=
  if block < division then block * (quotient + 1) else division + block * quotient

/-- The offset and the number of elements of the `blocks` blocks from `first` on. -/
def blocksRange (quotient division first blocks : ℕ) : ℕ × ℕ :=
  if division ≤ first then (division + first * quotient, blocks * quotient)
  else
    let decrease := if blocks ≤ division - first then 0 else first + blocks - division
    (first * (quotient + 1), blocks * (quotient + 1) - decrease)

/-- Whether rank `v` from the root exchanges with its right neighbour. -/
def longRight (stepIdx v : ℕ) : Bool := v % 2 != stepIdx % 2

/-- The block that rank `v` from the root receives from its neighbour. -/
def longRecvBlock (n stepIdx v : ℕ) : ℕ :=
  let offset := (stepIdx + 1) / 2
  if longRight stepIdx v then (v + offset) % n else (v + n - offset) % n

/-- The block that it sends. -/
def longSendBlock (n stepIdx v : ℕ) : ℕ :=
  let offset := (stepIdx + 1) / 2
  if longRight stepIdx v then (v + 1 + n - offset) % n else (v + n - 1 + offset) % n

/-- The neighbour. -/
def longPeer (n root stepIdx v : ℕ) : ℕ :=
  if longRight stepIdx v then (v + 1 + root) % n else (v + n - 1 + root) % n

/-- `peer_zero` is valid: rank 0 from the root has two neighbours to exchange with. -/
def longZero (n v : ℕ) : Bool := n % 2 == 1 && v == 0

section Functions

/-- The elements of a block. -/
def BcastLongOp.block (op : BcastLongOp B) (block : ℕ) : List (Cell B) :=
  op.args.part (blockOffset op.quotient op.division block)
    (blockCount op.quotient op.division block)

/-- The send flag is cleared. -/
def BcastLongOp.clearSend (op : BcastLongOp B) : BcastLongOp B :=
  { op with flags := { op.flags with send := false } }

/-- The receive flag is cleared. -/
def BcastLongOp.clearRecv (op : BcastLongOp B) : BcastLongOp B :=
  { op with flags := { op.flags with recv := false } }

/-- The sends of a step of the allgather among `size` ranks, of which `real` are the ranks of the
    group. -/
def bcastLongExchangeSend (size : ℕ) (real : ℕ → ℕ) (op : BcastLongOp B) :
    Prog (Cell B) β (BcastLongOp B × Status) :=
  if op.flags.send then do
    let v := op.iter.myrank
    let peer := longPeer size op.iter.root op.stepIdx v
    let status ← p2pIsend (op.block (longSendBlock size op.stepIdx v)) (some (real peer)) op.vgroup
    if status ≠ .ok then return (op.clearSend, status)
    if longZero size v then
      let peerZero := (size - 1 + op.iter.root) % size
      let status ← p2pIsend (op.block ((size - 1 + (op.stepIdx + 1) / 2) % size))
        (some (real peerZero)) op.vgroup
      return (op.clearSend, status)
    else return (op.clearSend, .ok)
  else return (op, .ok)

/-- The receives of the step. -/
def bcastLongExchangeRecv (size : ℕ) (real : ℕ → ℕ) (op : BcastLongOp B) :
    Prog (Cell B) β (BcastLongOp B × Status) :=
  if op.flags.recv then do
    let v := op.iter.myrank
    let peer := longPeer size op.iter.root op.stepIdx v
    let status ←
      p2pIrecv (op.block (longRecvBlock size op.stepIdx v)) (some (real peer)) op.vgroup 0
    if status ≠ .ok then return (op.clearRecv, status)
    if longZero size v then
      let peerZero := (size - 1 + op.iter.root) % size
      let status ← p2pIrecv (op.block ((size - (op.stepIdx + 1) / 2) % size))
        (some (real peerZero)) op.vgroup 0
      return (op.clearRecv, status)
    else return (op.clearRecv, .ok)
  else return (op, .ok)

/-- The end of a step. -/
def BcastLongOp.nextStep (op : BcastLongOp B) : BcastLongOp B :=
  { op with flags := { op.flags with send := true, recv := true }, stepIdx := op.stepIdx + 1 }

/-- The allgather among `size` ranks. The fuel bounds the number of steps. -/
def bcastLongExchange (size : ℕ) (real : ℕ → ℕ) (fuel : ℕ) (op : BcastLongOp B) :
    Prog (Cell B) β (BcastLongOp B × Status) :=
  if op.stepIdx < size then
    match fuel with
    | 0 => return (op, .inprogress)
    | fuel + 1 =>
      if size % 2 = 1 ∧ op.stepIdx % 2 = 0 ∧ op.iter.myrank = 0 then
        bcastLongExchange size real fuel op.nextStep
      else do
        let (op, status) ← bcastLongExchangeSend size real op
        if status ≠ .ok then return (op, status)
        let (op, status) ← bcastLongExchangeRecv size real op
        if status ≠ .ok then return (op, status)
        let status ← p2pTestall
        if status ≠ .ok then return (op, status)
        bcastLongExchange size real fuel op.nextStep
  else return (op, .ok)

/-- `ucg_planc_ucx_bcast_long_allgatherv_op_progress`. -/
def bcastLongAllgathervOpProgress (op : BcastLongOp B) :
    Prog (Cell B) β (BcastLongOp B × Status) :=
  bcastLongExchange op.vgroup.size (fun peer => peer) op.vgroup.size op

/-- The receive from the parent `peer` in the scatter among `size` ranks. -/
def bcastLongScatterRecv (size : ℕ) (real : ℕ → ℕ) (peer : ℕ) (op : BcastLongOp B) :
    Prog (Cell B) β (BcastLongOp B × Status) :=
  if op.flags.recv then do
    let v := op.iter.myrank
    let peerVrank := (peer + size - op.iter.root) % size
    let rightSibling := peerVrank + (v - peerVrank) * 2
    let recvBlocks := if rightSibling < size then min rightSibling size - v else size - v
    let (offset, count) := blocksRange op.quotient op.division v recvBlocks
    if recvBlocks = 0 then return ({ op.clearRecv with currBlocks := 0 }, .ok)
    let status ← p2pIrecv (op.args.part offset count) (some (real peer)) op.vgroup 0
    if status ≠ .ok then return (op.clearRecv, status)
    return ({ op.clearRecv with currBlocks := recvBlocks }, .ok)
  else return (op, .ok)

/-- The iterator goes on to the next child. -/
def BcastLongOp.childInc (op : BcastLongOp B) : BcastLongOp B :=
  { op with iter := op.iter.childInc }

/-- A message of `blocks` blocks, `count` elements, has been sent to a child. -/
def BcastLongOp.sent (op : BcastLongOp B) (blocks count : ℕ) : BcastLongOp B :=
  { op with currBlocks := op.currBlocks - blocks, inflight := op.inflight + count }

/-- Nothing is in flight. -/
def BcastLongOp.clearInflight (op : BcastLongOp B) : BcastLongOp B := { op with inflight := 0 }

/-- The loop of `ucg_planc_ucx_bcast_long_scatterv_send`. A child that has been sent to before an
    interruption has no more blocks to get and is skipped: the difference, which the code tests for
    not being positive, is cut off at 0. The fuel bounds the number of children. -/
def bcastLongScattervLoop (fuel : ℕ) (op : BcastLongOp B) :
    Prog (Cell B) β (BcastLongOp B × Status) :=
  match op.iter.child with
  | none =>
    return (op.clearSend, if op.inflight > 0 then .inprogress else .ok)
  | some peer =>
    match fuel with
    | 0 => return (op, .inprogress)
    | fuel + 1 =>
      let peerVrank := (peer + op.vgroup.size - op.iter.root) % op.vgroup.size
      let sendBlocks := op.currBlocks + op.iter.myrank - peerVrank
      if sendBlocks = 0 then bcastLongScattervLoop fuel op.childInc
      else do
        let (offset, count) := blocksRange op.quotient op.division peerVrank sendBlocks
        let status ← p2pIsend (op.args.part offset count) (some peer) op.vgroup
        if status ≠ .ok then return (op, status)
        let op := op.sent sendBlocks count
        if op.inflight ≥ batchThresh then return (op, .inprogress)
        bcastLongScattervLoop fuel op.childInc

/-- `ucg_planc_ucx_bcast_long_scatterv_send`. -/
def bcastLongScattervSend (op : BcastLongOp B) : Prog (Cell B) β (BcastLongOp B × Status) :=
  if op.flags.send then bcastLongScattervLoop op.vgroup.size op else return (op, .ok)

/-- The receive in `ucg_planc_ucx_bcast_long_scatterv_op_progress`. -/
def bcastLongScattervRecv (op : BcastLongOp B) : Prog (Cell B) β (BcastLongOp B × Status) :=
  match op.iter.parent with
  | none => return (op, .ok)
  | some peer => bcastLongScatterRecv op.vgroup.size (fun peer => peer) peer op

/-- `ucg_planc_ucx_bcast_long_scatterv_op_progress`. -/
def bcastLongScattervOpProgress (op : BcastLongOp B) :
    Prog (Cell B) β (BcastLongOp B × Status) := do
  let (op, status) ← bcastLongScattervRecv op
  if status ≠ .ok then return (op, status)
  let status ← p2pTestall
  if status ≠ .ok then return (op, status)
  bcastLongScattervSend op.clearInflight

/-- The second phase of `ucg_planc_ucx_bcast_long_op_progress`. -/
def bcastLongOpGather (op : BcastLongOp B) : Prog (Cell B) β (BcastLongOp B × Status) := do
  if op.flags.allgathervPhase then
    let (op, status) ← bcastLongAllgathervOpProgress op
    if status ≠ .ok then return ({ op with status := status }, status)
    return ({ op with flags := { op.flags with allgathervPhase := false }, status := .ok }, .ok)
  else return ({ op with status := .ok }, .ok)

/-- The scatter is over. -/
def BcastLongOp.scattervDone (op : BcastLongOp B) : BcastLongOp B :=
  { op with flags := { op.flags with scattervPhase := false, send := true, recv := true } }

/-- `ucg_planc_ucx_bcast_long_op_progress`. -/
def bcastLongOpProgress (op : BcastLongOp B) : Prog (Cell B) β (BcastLongOp B × Status) := do
  if op.flags.scattervPhase then
    let (op, status) ← bcastLongScattervOpProgress op
    if status ≠ .ok then return ({ op with status := status }, status)
    bcastLongOpGather op.scattervDone
  else bcastLongOpGather op

/-- What the trigger sets. -/
def BcastLongOp.reset (op : BcastLongOp B) (id : ℕ) : BcastLongOp B :=
  { op with
    id := id, status := .inprogress, iter := op.iter.reset, stepIdx := 1
    quotient := op.args.count / op.vgroup.size
    currBlocks := if op.vgroup.myrank = op.args.root then op.vgroup.size else 0
    division := op.args.count % op.vgroup.size, flags := ⟨false, true, true, true, true⟩ }

/-- `ucg_planc_ucx_bcast_long_op_trigger`. -/
def bcastLongOpTrigger (op : BcastLongOp B) (id : ℕ) :
    Prog (Cell B) β (BcastLongOp B × Status) := do
  let (op, status) ← bcastLongOpProgress (op.reset id)
  return (op, if status = .inprogress then .ok else status)

/-- The trigger and progress functions of the operation. -/
def bcastLongFuncs : OpFuncs (Prog (Cell B) β) (BcastLongOp B) where
  trigger := bcastLongOpTrigger
  progress := bcastLongOpProgress

/-- `ucg_planc_ucx_bcast_long_op_new`. -/
def bcastLongOpNew (vgroup : VGroup) (args : BcastArgs B) : BcastLongOp B where
  vgroup := vgroup
  args := args
  status := .ok
  id := 0
  flags := ⟨false, false, false, false, false⟩
  iter := KntreeIter.init vgroup.size 2 args.root vgroup.myrank true
  stepIdx := 0
  currBlocks := 0
  quotient := 0
  division := 0
  inflight := 0

/-- `ucg_planc_ucx_bcast_long_check`. -/
def bcastLongCheck (vgroup : VGroup) (args : BcastArgs B) : Status :=
  if args.count < vgroup.size then .errUnsupported else .ok

end Functions

/-! ### Blocks -/

section Blocks

variable {q d : ℕ}

theorem blockOffset_eq (b : ℕ) : blockOffset q d b = b * q + min b d := by
  rw [blockOffset]
  split_ifs with h
  · rw [min_eq_left h.le, Nat.mul_succ]
  · rw [min_eq_right (by omega), Nat.add_comm]

theorem blockOffset_succ (b : ℕ) :
    blockOffset q d (b + 1) = blockOffset q d b + blockCount q d b := by
  rw [blockOffset_eq, blockOffset_eq, blockCount, Nat.succ_mul]
  split_ifs with h
  · rw [min_eq_left h.le, min_eq_left (by omega)]
    omega
  · rw [min_eq_right (by omega), min_eq_right (by omega)]
    omega

theorem blockOffset_mono : Monotone (blockOffset q d) :=
  monotone_nat_of_le_succ fun b => by
    rw [blockOffset_succ]
    exact Nat.le_add_right ..

/-- The blocks are the buffer. -/
theorem cut_blockOffset {K count : ℕ} (hK : 0 < K) :
    Cut count K (blockOffset (count / K) (count % K)) where
  mono := blockOffset_mono
  zero := by rw [blockOffset_eq, Nat.zero_mul, Nat.zero_min]
  last := by
    rw [blockOffset_eq, min_eq_right (Nat.mod_lt _ hK).le]
    exact Nat.div_add_mod count K

theorem BcastLongOp.block_eq (op : BcastLongOp B) :
    op.block = op.args.blockCells (blockOffset op.quotient op.division) := by
  funext b
  rw [BcastLongOp.block, BcastArgs.blockCells, blockOffset_succ, Nat.add_sub_cancel_left]

/-- The range of some blocks is from the first one to behind the last one. -/
theorem blocksRange_eq (first blocks : ℕ) : blocksRange q d first blocks =
    (blockOffset q d first, blockOffset q d (first + blocks) - blockOffset q d first) := by
  rw [blocksRange, blockOffset_eq, blockOffset_eq, Nat.add_mul]
  by_cases h : d ≤ first
  · rw [if_pos h, min_eq_right h, min_eq_right (by omega)]
    exact Prod.ext (Nat.add_comm ..) (by dsimp only; omega)
  · rw [if_neg h, min_eq_left (by omega : first ≤ d), Nat.mul_succ, Nat.mul_succ]
    refine Prod.ext rfl ?_
    dsimp only
    by_cases hle : blocks ≤ d - first
    · rw [if_pos hle, min_eq_left (by omega)]
      omega
    · rw [if_neg hle, min_eq_right (by omega)]
      omega

/-- The range of the blocks of a sub-tree. -/
theorem part_blocksRange (args : BcastArgs B) (first blocks : ℕ) :
    args.part (blocksRange q d first blocks).1 (blocksRange q d first blocks).2 =
      (List.range' first blocks).flatMap (args.blockCells (blockOffset q d)) := by
  rw [blocksRange_eq, blockCells_range' blockOffset_mono]

end Blocks

end Kucg.Ucx
