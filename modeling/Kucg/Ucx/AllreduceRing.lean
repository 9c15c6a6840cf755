import Kucg.Algo.RingReduce
import Kucg.Lib.Combine
import Kucg.Lib.Pieces
import Kucg.Ucx.AllreduceRd
import Kucg.Ucx.Bcast

/-! The ring allreduce of `allreduce_ring.c`.

    The vector is cut into a block for each rank. A block travels once around the ring and gets the
    input of every rank on its way (reduce-scatter), and then once more as it is (allgather). A
    block is received into the staging area, or over the block itself, with room for the largest
    block: a smaller one fills the beginning. -/

namespace Kucg.Ucx

open Kucg.Core Kucg.Lib Kucg.Algo

variable {B β : Type}

/-- The flags of the operation, a bit each. -/
structure RingFlags where
  reduceScatter : Bool
  reduceScatterSend : Bool
  reduceScatterRecv : Bool
  allgatherv : Bool
  allgathervSend : Bool
  allgathervRecv : Bool

/-- `UCG_RING_FLAGS`. -/
def ringFlagsAll : RingFlags := ⟨true, true, true, true, true, true⟩

/-- `ucg_planc_ucx_op_t` of a ring allreduce. -/
structure AllreduceRingOp (B : Type) where
  vgroup : VGroup
  args : AllreduceArgs B
  status : Status
  id : ℕ
  flags : RingFlags
  stagingArea : Cell B
  iter : RingIter
  spiltRank : ℕ
  largeBlkcount : ℕ
  smallBlkcount : ℕ

section Functions

/-- `blockoffset`. -/
def AllreduceRingOp.blockOffset (op : AllreduceRingOp B) (block : ℕ) : ℕ :=
  if block < op.spiltRank then block * op.largeBlkcount
  else block * op.smallBlkcount + op.spiltRank

/-- `blockcount`. -/
def AllreduceRingOp.blockCount (op : AllreduceRingOp B) (block : ℕ) : ℕ :=
  if block < op.spiltRank then op.largeBlkcount else op.smallBlkcount

/-- The `count` elements of the receive buffer from the beginning of a block on. -/
def AllreduceRingOp.blockCells (op : AllreduceRingOp B) (block count : ℕ) : List (Cell B) :=
  span (op.args.recvbuf.1, op.args.recvbuf.2 + op.blockOffset block) count

variable (reduce : β → β → β)

/-- The loop of a phase: the messages of a step are posted, and it is finished when they are over.
    The fuel bounds the number of steps. -/
def allreduceRingLoop (recv send : AllreduceRingOp B → Prog (Cell B) β (AllreduceRingOp B × Status))
    (finish : AllreduceRingOp B → Prog (Cell B) β (AllreduceRingOp B)) (fuel : ℕ)
    (op : AllreduceRingOp B) : Prog (Cell B) β (AllreduceRingOp B × Status) :=
  if op.iter.idx < op.iter.maxIdx then
    match fuel with
    | 0 => return (op, .inprogress)
    | fuel + 1 => do
      let (op, status) ← recv op
      if status ≠ .ok then return (op, status)
      let (op, status) ← send op
      if status ≠ .ok then return (op, status)
      let status ← p2pTestall
      if status ≠ .ok then return (op, status)
      let op ← finish op
      allreduceRingLoop recv send finish fuel op
  else return ({ op with iter := op.iter.reset }, .ok)

/-- The receive of a step of the reduce-scatter. -/
def ringReduceScatterRecv (leftPeer : Option ℕ) (op : AllreduceRingOp B) :
    Prog (Cell B) β (AllreduceRingOp B × Status) :=
  if op.flags.reduceScatterRecv then do
    let op := { op with flags := { op.flags with reduceScatterRecv := false } }
    let status ← p2pIrecv (span op.stagingArea op.largeBlkcount) leftPeer op.vgroup 0
    return (op, status)
  else return (op, .ok)

/-- Its send. -/
def ringReduceScatterSend (rightPeer : Option ℕ) (op : AllreduceRingOp B) :
    Prog (Cell B) β (AllreduceRingOp B × Status) :=
  if op.flags.reduceScatterSend then do
    let op := { op with flags := { op.flags with reduceScatterSend := false } }
    let sendblock := ringSendBlock op.vgroup.size op.iter.idx op.vgroup.myrank
    let status ← p2pIsend (op.blockCells sendblock (op.blockCount sendblock)) rightPeer op.vgroup
    return (op, status)
  else return (op, .ok)

/-- Its end. -/
def ringReduceScatterFinish (op : AllreduceRingOp B) : Prog (Cell B) β (AllreduceRingOp B) := do
  let recvblock := ringRecvBlock op.vgroup.size op.iter.idx op.vgroup.myrank
  opReduce reduce (span op.stagingArea (op.blockCount recvblock))
    (op.blockCells recvblock (op.blockCount recvblock))
  return { op with
    iter := op.iter.inc
    flags := { op.flags with reduceScatterRecv := true, reduceScatterSend := true } }

/-- `ucg_planc_ucx_allreduce_ring_op_reduce_scatter`. -/
def allreduceRingOpReduceScatter (op : AllreduceRingOp B) :
    Prog (Cell B) β (AllreduceRingOp B × Status) :=
  allreduceRingLoop (ringReduceScatterRecv op.iter.leftValue)
    (ringReduceScatterSend op.iter.rightValue) (ringReduceScatterFinish reduce) op.iter.maxIdx op

/-- The receive of a step of the allgather. -/
def ringAllgathervRecv (leftPeer : Option ℕ) (op : AllreduceRingOp B) :
    Prog (Cell B) β (AllreduceRingOp B × Status) :=
  if op.flags.allgathervRecv then do
    let op := { op with flags := { op.flags with allgathervRecv := false } }
    let recvblock := ringSendBlock op.vgroup.size op.iter.idx op.vgroup.myrank
    let status ← p2pIrecv (op.blockCells recvblock op.largeBlkcount) leftPeer op.vgroup 0
    return (op, status)
  else return (op, .ok)

/-- Its send. -/
def ringAllgathervSend (rightPeer : Option ℕ) (op : AllreduceRingOp B) :
    Prog (Cell B) β (AllreduceRingOp B × Status) :=
  if op.flags.allgathervSend then do
    let op := { op with flags := { op.flags with allgathervSend := false } }
    let sendblock := ringGatherBlock op.vgroup.size op.iter.idx op.vgroup.myrank
    let status ← p2pIsend (op.blockCells sendblock (op.blockCount sendblock)) rightPeer op.vgroup
    return (op, status)
  else return (op, .ok)

/-- Its end. -/
def ringAllgathervFinish (op : AllreduceRingOp B) : Prog (Cell B) β (AllreduceRingOp B) :=
  return { op with
    iter := op.iter.inc
    flags := { op.flags with allgathervRecv := true, allgathervSend := true } }

/-- `ucg_planc_ucx_allreduce_ring_op_allgatherv`. -/
def allreduceRingOpAllgatherv (op : AllreduceRingOp B) :
    Prog (Cell B) β (AllreduceRingOp B × Status) :=
  allreduceRingLoop (ringAllgathervRecv op.iter.leftValue) (ringAllgathervSend op.iter.rightValue)
    ringAllgathervFinish op.iter.maxIdx op

/-- The first phase of a progress call. -/
def allreduceRingOpFirst (op : AllreduceRingOp B) : Prog (Cell B) β (AllreduceRingOp B × Status) :=
  if op.flags.reduceScatter then do
    let (op, status) ← allreduceRingOpReduceScatter reduce op
    if status ≠ .ok then return (op, status)
    return ({ op with flags := { op.flags with reduceScatter := false } }, status)
  else return (op, .ok)

/-- The second phase. -/
def allreduceRingOpSecond (op : AllreduceRingOp B) : Prog (Cell B) β (AllreduceRingOp B × Status) :=
  if op.flags.allgatherv then do
    let (op, status) ← allreduceRingOpAllgatherv op
    if status ≠ .ok then return (op, status)
    return ({ op with flags := { op.flags with allgatherv := false } }, status)
  else return (op, .ok)

/-- `ucg_planc_ucx_allreduce_ring_op_progress`. Every call of an operation of two ranks or more
    that has not come to its end is in one of the two phases. -/
def allreduceRingOpProgress (op : AllreduceRingOp B) :
    Prog (Cell B) β (AllreduceRingOp B × Status) := do
  let (op, status) ← allreduceRingOpFirst reduce op
  if status ≠ .ok then return ({ op with status := status }, status)
  let (op, status) ← allreduceRingOpSecond op
  return ({ op with status := status }, status)

/-- `ucg_planc_ucx_allreduce_ring_op_trigger`. -/
def allreduceRingOpTrigger (op : AllreduceRingOp B) (id : ℕ) :
    Prog (Cell B) β (AllreduceRingOp B × Status) := do
  let op := { op with
    id := id, status := .inprogress, flags := ringFlagsAll, iter := op.iter.reset }
  if let some sendbuf := op.args.sendbuf then
    dtMemcpy (span op.args.recvbuf op.args.count) (span sendbuf op.args.count)
    if op.vgroup.size = 1 then
      return ({ op with status := .ok }, .ok)
  let (op, status) ← allreduceRingOpProgress reduce op
  return (op, if status = .inprogress then .ok else status)

/-- The trigger and progress functions of the operation. -/
def allreduceRingFuncs : OpFuncs (Prog (Cell B) β) (AllreduceRingOp B) where
  trigger := allreduceRingOpTrigger reduce
  progress := allreduceRingOpProgress reduce

/-- `ucg_planc_ucx_allreduce_ring_check`, with the flag of a commutative operator and the setting
    that asks for reproducible results. -/
def allreduceRingCheck (vgroup : VGroup) (args : AllreduceArgs B)
    (commutative reduceConsistency : Bool) : Status :=
  if args.count < vgroup.size then .errUnsupported
  else if ¬commutative then .errUnsupported
  else if reduceConsistency then .errUnsupported
  else .ok

/-- `ucg_planc_ucx_allreduce_ring_op_new` with `ucg_planc_ucx_allreduce_ring_op_init`, and with the
    staging area that it allocates, of `largeBlkcount` elements. -/
def allreduceRingOpNew (vgroup : VGroup) (args : AllreduceArgs B) (stagingArea : Cell B) :
    AllreduceRingOp B where
  vgroup := vgroup
  args := args
  status := .ok
  id := 0
  flags := ringFlagsAll
  stagingArea := stagingArea
  iter := RingIter.init vgroup.size vgroup.myrank
  spiltRank := args.count % vgroup.size
  largeBlkcount :=
    if args.count % vgroup.size ≠ 0 then args.count / vgroup.size + 1
    else args.count / vgroup.size
  smallBlkcount := args.count / vgroup.size

/-- `ucg_planc_ucx_allreduce_ring_prepare`. -/
def allreduceRingPrepare (vgroup : VGroup) (args : AllreduceArgs B)
    (commutative reduceConsistency : Bool) (stagingArea : Cell B) :
    Except Status (AllreduceRingOp B) :=
  if allreduceRingCheck vgroup args commutative reduceConsistency = .ok then
    .ok (allreduceRingOpNew vgroup args stagingArea)
  else .error .errUnsupported

end Functions

/-! ### The schedule of a phase -/

section Phase

variable {recv send : AllreduceRingOp B → Prog (Cell B) β (AllreduceRingOp B × Status)}
  {finish : AllreduceRingOp B → Prog (Cell B) β (AllreduceRingOp B)}

/-- The steps of a phase of `K` steps from step `k` on. -/
def phaseFrom (step : ℕ → Sched (Cell B) β) (K k : ℕ) : Sched (Cell B) β :=
  (List.range' k (K - k)).flatMap step

/-- The commands of a step: its messages, the wait for them and what then is done. -/
def phaseStep (left right : ℕ) (recvCells sendCells : ℕ → List (Cell B))
    (acts : ℕ → Sched (Cell B) β) (k : ℕ) : Sched (Cell B) β :=
  .recv 0 left (recvCells k) :: .send right (sendCells k) :: .wait :: acts k

theorem phaseFrom_succ {step : ℕ → Sched (Cell B) β} {K k : ℕ} (hk : k < K) :
    phaseFrom step K k = step k ++ phaseFrom step K (k + 1) := by
  obtain ⟨d, hd⟩ : ∃ d, K - k = d + 1 := ⟨K - k - 1, by omega⟩
  rw [phaseFrom, hd, List.range'_succ, List.flatMap_cons, phaseFrom, show K - (k + 1) = d by omega]

theorem phaseFrom_end (step : ℕ → Sched (Cell B) β) (K : ℕ) : phaseFrom step K K = [] := by
  rw [phaseFrom, Nat.sub_self]
  rfl

/-- The states of an operation in the steps of a phase: with nothing posted, with the receive
    posted, with both messages posted. -/
structure PhaseOps (B : Type) where
  fresh : ℕ → AllreduceRingOp B
  half : ℕ → AllreduceRingOp B
  posted : ℕ → AllreduceRingOp B

variable (recv send finish) in
/-- What the functions of a phase do in these states. -/
structure Phase (K left right : ℕ) (vgroup : VGroup) (recvCells sendCells : ℕ → List (Cell B))
    (acts : ℕ → Sched (Cell B) β) (ops : PhaseOps B) : Prop where
  freshIter : ∀ k, (ops.fresh k).iter.idx = k ∧ (ops.fresh k).iter.maxIdx = K
  postedIter : ∀ k, (ops.posted k).iter.idx = k ∧ (ops.posted k).iter.maxIdx = K
  recvFresh : ∀ k, recv (ops.fresh k) =
    p2pIrecv (recvCells k) (some left) vgroup 0 >>= fun status => pure (ops.half k, status)
  recvPosted : ∀ k, recv (ops.posted k) = pure (ops.posted k, .ok)
  sendHalf : ∀ k, send (ops.half k) =
    p2pIsend (sendCells k) (some right) vgroup >>= fun status => pure (ops.posted k, status)
  sendPosted : ∀ k, send (ops.posted k) = pure (ops.posted k, .ok)
  finish : ∀ k (K' : Bool → AllreduceRingOp B → Sched (Cell B) β → Prop) cs,
    K' true (ops.fresh (k + 1)) cs → (finish (ops.posted k)).Exec K' true (acts k ++ cs)

variable {K left right : ℕ} {vgroup : VGroup} {recvCells sendCells : ℕ → List (Cell B)}
  {acts : ℕ → Sched (Cell B) β} {ops : PhaseOps B} {cs : Sched (Cell B) β}
  {K' : Bool → AllreduceRingOp B × Status → Sched (Cell B) β → Prop}

variable (K left right vgroup recvCells sendCells acts ops cs K') in
/-- Where a call leaves off: behind the last step, or waiting in a step. -/
structure PhaseLeaf : Prop where
  done : ∀ moved, K' moved ({ ops.fresh K with iter := (ops.fresh K).iter.reset }, .ok) cs
  posted : ∀ k < K, K' true (ops.posted k, .inprogress) (.wait :: (acts k ++
    (phaseFrom (phaseStep (vgroup.rankMap left) (vgroup.rankMap right) recvCells sendCells acts) K
      (k + 1) ++ cs)))

/-- The loop from the start of a step on. -/
theorem exec_phase_fresh
    (h : Phase recv send finish K left right vgroup recvCells sendCells acts ops)
    (hleaf : PhaseLeaf K left right vgroup recvCells sendCells acts ops cs K') :
    ∀ {fuel k : ℕ} {moved : Bool}, K ≤ k + fuel → k ≤ K →
      (allreduceRingLoop recv send finish fuel (ops.fresh k)).Exec K' moved
        (phaseFrom (phaseStep (vgroup.rankMap left) (vgroup.rankMap right) recvCells sendCells acts)
          K k ++ cs)
  | fuel, k, moved, hfuel, hk => by
    obtain ⟨hidx, hmax⟩ := h.freshIter k
    rcases hk.lt_or_eq with hlt | rfl
    · obtain ⟨fuel, rfl⟩ : ∃ f, fuel = f + 1 := ⟨fuel - 1, by omega⟩
      rw [allreduceRingLoop, if_pos (by omega), phaseFrom_succ hlt, phaseStep, List.cons_append,
        List.cons_append, List.cons_append, List.cons_append, List.cons_append, List.cons_append,
        List.append_assoc]
      dsimp only
      rw [exec_bind, h.recvFresh, exec_bind]
      refine exec_irecv_cons rfl rfl ?_
      simp only [exec_pure, ne_eq, not_true_eq_false, if_false]
      rw [exec_bind, h.sendHalf, exec_bind]
      refine exec_isend_cons rfl rfl ?_
      simp only [exec_pure, not_true_eq_false, if_false]
      rw [exec_bind]
      refine exec_testall_wait (hleaf.posted k hlt) ?_
      simp only [not_true_eq_false, if_false]
      rw [exec_bind]
      exact h.finish k _ _ (exec_phase_fresh h hleaf (by omega) hlt)
    · rw [phaseFrom_end, List.nil_append, allreduceRingLoop.eq_def, if_neg (by omega)]
      exact hleaf.done moved

/-- The loop in a step that waits. -/
theorem exec_phase_posted
    (h : Phase recv send finish K left right vgroup recvCells sendCells acts ops)
    (hleaf : PhaseLeaf K left right vgroup recvCells sendCells acts ops cs K') {fuel k : ℕ}
    {moved : Bool} (hfuel : K ≤ k + fuel) (hk : k < K) :
    (allreduceRingLoop recv send finish fuel (ops.posted k)).Exec K' moved
      (.wait :: (acts k ++ (phaseFrom
        (phaseStep (vgroup.rankMap left) (vgroup.rankMap right) recvCells sendCells acts) K
          (k + 1) ++ cs))) := by
  obtain ⟨hidx, hmax⟩ := h.postedIter k
  obtain ⟨fuel, rfl⟩ : ∃ f, fuel = f + 1 := ⟨fuel - 1, by omega⟩
  rw [allreduceRingLoop, if_pos (by omega)]
  dsimp only
  rw [exec_bind, h.recvPosted, exec_pure]
  dsimp only
  rw [if_neg (by simp), exec_bind, h.sendPosted, exec_pure]
  dsimp only
  rw [if_neg (by simp), exec_bind]
  refine exec_testall_wait (hleaf.posted k hk) ?_
  simp only [ne_eq, not_true_eq_false, if_false]
  rw [exec_bind]
  exact h.finish k _ _ (exec_phase_fresh h hleaf (by omega) hk)

end Phase

/-! ### The operation executes its schedule -/

section Operation

variable (reduce : β → β → β) (vgroup : VGroup) (args : AllreduceArgs B) (staging : Cell B)

/-- An operation in step `k` of a phase. -/
def ringOpAt (status : Status) (id : ℕ) (flags : RingFlags) (k : ℕ) : AllreduceRingOp B :=
  { allreduceRingOpNew vgroup args staging with
    status := status
    id := id
    flags := flags
    iter := { RingIter.init vgroup.size vgroup.myrank with idx := k } }

/-- A block as a whole. -/
def ringBlock (block : ℕ) : List (Cell B) :=
  let op := allreduceRingOpNew vgroup args staging
  op.blockCells block (op.blockCount block)

/-- The steps of the reduce-scatter. -/
def reduceScatterStep : ℕ → Sched (Cell B) β :=
  let op := allreduceRingOpNew vgroup args staging
  phaseStep (vgroup.rankMap (leftOf vgroup.size vgroup.myrank))
    (vgroup.rankMap (rightOf vgroup.size vgroup.myrank)) (fun _ => span staging op.largeBlkcount)
    (fun k => ringBlock vgroup args staging (ringSendBlock vgroup.size k vgroup.myrank))
    fun k => [.zip reduce
      (span staging (op.blockCount (ringRecvBlock vgroup.size k vgroup.myrank)))
      (ringBlock vgroup args staging (ringRecvBlock vgroup.size k vgroup.myrank))]

/-- The steps of the allgather. -/
def allgathervStep : ℕ → Sched (Cell B) β :=
  let op := allreduceRingOpNew vgroup args staging
  phaseStep (vgroup.rankMap (leftOf vgroup.size vgroup.myrank))
    (vgroup.rankMap (rightOf vgroup.size vgroup.myrank))
    (fun k => op.blockCells (ringSendBlock vgroup.size k vgroup.myrank) op.largeBlkcount)
    (fun k => ringBlock vgroup args staging (ringGatherBlock vgroup.size k vgroup.myrank))
    fun _ => []

/-- What the trigger does first. -/
def ringCopy : Sched (Cell B) β :=
  match args.sendbuf with
  | some sendbuf =>
    [.zip (fun s _ => s) (span sendbuf args.count) (span args.recvbuf args.count)]
  | none => []

/-- The allgather from step `k` on. -/
abbrev gatherFrom (k : ℕ) : Sched (Cell B) β :=
  phaseFrom (allgathervStep vgroup args staging) (vgroup.size - 1) k ++ []

/-- The reduce-scatter from step `k` on, and the allgather. -/
abbrev ringFromStep (k : ℕ) : Sched (Cell B) β :=
  phaseFrom (reduceScatterStep reduce vgroup args staging) (vgroup.size - 1) k ++
    gatherFrom vgroup args staging 0

/-- Between calls the operation waits in a step of one of the phases, or it has come to its
    end. -/
inductive RingRel : AllreduceRingOp B → Sched (Cell B) β → Prop
  | reduce (id k : ℕ) (hk : k < vgroup.size - 1) :
      RingRel (ringOpAt vgroup args staging .inprogress id ⟨true, false, false, true, true, true⟩ k)
        (.wait :: ([.zip reduce
          (span staging ((allreduceRingOpNew vgroup args staging).blockCount
            (ringRecvBlock vgroup.size k vgroup.myrank)))
          (ringBlock vgroup args staging (ringRecvBlock vgroup.size k vgroup.myrank))] ++
          ringFromStep reduce vgroup args staging (k + 1)))
  | gather (id k : ℕ) (hk : k < vgroup.size - 1) :
      RingRel
        (ringOpAt vgroup args staging .inprogress id ⟨false, true, true, true, false, false⟩ k)
        (.wait :: ([] ++ gatherFrom vgroup args staging (k + 1)))
  | done (id : ℕ) :
      RingRel (ringOpAt vgroup args staging .ok id ⟨false, true, true, false, true, true⟩ 0) []

/-- Where a progress call ends. -/
def RingEnd (moved : Bool) (res : AllreduceRingOp B × Status) (cs : Sched (Cell B) β) : Prop :=
  res.2 = res.1.status ∧
    OpLeaf AllreduceRingOp.status (RingRel reduce vgroup args staging) moved res.1 cs

variable {reduce vgroup args staging} {id k : ℕ} {moved : Bool}

theorem phase_reduceScatter :
    Phase (ringReduceScatterRecv (some (leftOf vgroup.size vgroup.myrank)))
      (ringReduceScatterSend (some (rightOf vgroup.size vgroup.myrank)))
      (ringReduceScatterFinish reduce) (vgroup.size - 1) (leftOf vgroup.size vgroup.myrank)
      (rightOf vgroup.size vgroup.myrank) vgroup
      (fun _ => span staging (allreduceRingOpNew vgroup args staging).largeBlkcount)
      (fun k => ringBlock vgroup args staging (ringSendBlock vgroup.size k vgroup.myrank))
      (fun k => [.zip reduce
        (span staging ((allreduceRingOpNew vgroup args staging).blockCount
          (ringRecvBlock vgroup.size k vgroup.myrank)))
        (ringBlock vgroup args staging (ringRecvBlock vgroup.size k vgroup.myrank))])
      ⟨ringOpAt vgroup args staging .inprogress id ringFlagsAll,
        ringOpAt vgroup args staging .inprogress id ⟨true, true, false, true, true, true⟩,
        ringOpAt vgroup args staging .inprogress id ⟨true, false, false, true, true, true⟩⟩ where
  freshIter _ := ⟨rfl, rfl⟩
  postedIter _ := ⟨rfl, rfl⟩
  recvFresh _ := rfl
  recvPosted _ := rfl
  sendHalf _ := rfl
  sendPosted _ := rfl
  finish _ _ cs h := ⟨cs, rfl, h⟩

theorem phase_allgatherv :
    Phase (β := β) (ringAllgathervRecv (some (leftOf vgroup.size vgroup.myrank)))
      (ringAllgathervSend (some (rightOf vgroup.size vgroup.myrank))) ringAllgathervFinish
      (vgroup.size - 1) (leftOf vgroup.size vgroup.myrank) (rightOf vgroup.size vgroup.myrank)
      vgroup
      (fun k => (allreduceRingOpNew vgroup args staging).blockCells
        (ringSendBlock vgroup.size k vgroup.myrank)
        (allreduceRingOpNew vgroup args staging).largeBlkcount)
      (fun k => ringBlock vgroup args staging (ringGatherBlock vgroup.size k vgroup.myrank))
      (fun _ => [])
      ⟨ringOpAt vgroup args staging .inprogress id ⟨false, true, true, true, true, true⟩,
        ringOpAt vgroup args staging .inprogress id ⟨false, true, true, true, true, false⟩,
        ringOpAt vgroup args staging .inprogress id ⟨false, true, true, true, false, false⟩⟩ where
  freshIter _ := ⟨rfl, rfl⟩
  postedIter _ := ⟨rfl, rfl⟩
  recvFresh _ := rfl
  recvPosted _ := rfl
  sendHalf _ := rfl
  sendPosted _ := rfl
  finish _ _ _ h := h

/-- The operation waits in a step of the allgather. -/
theorem ringEnd_gather (hk : k < vgroup.size - 1) : RingEnd reduce vgroup args staging true
    (ringOpAt vgroup args staging .inprogress id ⟨false, true, true, true, false, false⟩ k,
      .inprogress) (.wait :: ([] ++ gatherFrom vgroup args staging (k + 1))) :=
  ⟨rfl, .gather id k hk, Or.inl ⟨rfl, rfl, trivial⟩⟩

/-- The peers do not change in a phase. -/
theorem second_eq {flags : RingFlags} (hflag : flags.allgatherv = true)
    (hk : k < vgroup.size - 1) :
    (allreduceRingOpSecond (ringOpAt vgroup args staging .inprogress id flags k) :
      Prog (Cell B) β (AllreduceRingOp B × Status)) =
    allreduceRingLoop (ringAllgathervRecv (some (leftOf vgroup.size vgroup.myrank)))
      (ringAllgathervSend (some (rightOf vgroup.size vgroup.myrank))) ringAllgathervFinish
      (vgroup.size - 1) (ringOpAt vgroup args staging .inprogress id flags k) >>= fun res =>
        if res.2 ≠ .ok then pure (res.1, res.2)
        else pure ({ res.1 with flags := { res.1.flags with allgatherv := false } }, res.2) := by
  have hflag' : (ringOpAt vgroup args staging .inprogress id flags k).flags.allgatherv = true :=
    hflag
  have hleft : (ringOpAt vgroup args staging .inprogress id flags k).iter.leftValue =
      some (leftOf vgroup.size vgroup.myrank) := if_pos hk
  have hright : (ringOpAt vgroup args staging .inprogress id flags k).iter.rightValue =
      some (rightOf vgroup.size vgroup.myrank) := if_pos hk
  rw [allreduceRingOpSecond, if_pos hflag', allreduceRingOpAllgatherv, hleft, hright]
  rfl

theorem first_eq {flags : RingFlags} (hflag : flags.reduceScatter = true)
    (hk : k < vgroup.size - 1) :
    allreduceRingOpFirst reduce (ringOpAt vgroup args staging .inprogress id flags k) =
    allreduceRingLoop (ringReduceScatterRecv (some (leftOf vgroup.size vgroup.myrank)))
      (ringReduceScatterSend (some (rightOf vgroup.size vgroup.myrank)))
      (ringReduceScatterFinish reduce) (vgroup.size - 1)
      (ringOpAt vgroup args staging .inprogress id flags k) >>= fun res =>
        if res.2 ≠ .ok then pure (res.1, res.2)
        else pure ({ res.1 with flags := { res.1.flags with reduceScatter := false } }, res.2) := by
  have hflag' : (ringOpAt vgroup args staging .inprogress id flags k).flags.reduceScatter = true :=
    hflag
  have hleft : (ringOpAt vgroup args staging .inprogress id flags k).iter.leftValue =
      some (leftOf vgroup.size vgroup.myrank) := if_pos hk
  have hright : (ringOpAt vgroup args staging .inprogress id flags k).iter.rightValue =
      some (rightOf vgroup.size vgroup.myrank) := if_pos hk
  rw [allreduceRingOpFirst, if_pos hflag', allreduceRingOpReduceScatter, hleft, hright]
  rfl

/-- What the second phase leaves when its loop does. -/
theorem phaseLeaf_second : PhaseLeaf (vgroup.size - 1) (leftOf vgroup.size vgroup.myrank)
    (rightOf vgroup.size vgroup.myrank) vgroup
    (fun k => (allreduceRingOpNew vgroup args staging).blockCells
      (ringSendBlock vgroup.size k vgroup.myrank)
      (allreduceRingOpNew vgroup args staging).largeBlkcount)
    (fun k => ringBlock vgroup args staging (ringGatherBlock vgroup.size k vgroup.myrank))
    (fun _ => ([] : Sched (Cell B) β))
    ⟨ringOpAt vgroup args staging .inprogress id ⟨false, true, true, true, true, true⟩,
      ringOpAt vgroup args staging .inprogress id ⟨false, true, true, true, true, false⟩,
      ringOpAt vgroup args staging .inprogress id ⟨false, true, true, true, false, false⟩⟩ []
    fun moved res cs => (if res.2 ≠ .ok then pure (res.1, res.2)
      else pure ({ res.1 with flags := { res.1.flags with allgatherv := false } }, res.2) :
        Prog (Cell B) β (AllreduceRingOp B × Status)).Exec (fun moved res cs =>
      RingEnd reduce vgroup args staging moved ({ res.1 with status := res.2 }, res.2) cs)
        moved cs where
  done _ := ⟨rfl, .done id, Or.inr ⟨rfl, rfl⟩⟩
  posted _ hk := ringEnd_gather hk

/-- The second phase, from its start on. -/
theorem exec_second_fresh (hsize : 2 ≤ vgroup.size) :
    (allreduceRingOpSecond (ringOpAt vgroup args staging .inprogress id
      ⟨false, true, true, true, true, true⟩ 0)).Exec
      (fun moved res cs => RingEnd reduce vgroup args staging moved
        ({ res.1 with status := res.2 }, res.2) cs) moved (gatherFrom vgroup args staging 0) := by
  rw [second_eq rfl (by omega), exec_bind]
  exact exec_phase_fresh phase_allgatherv phaseLeaf_second (Nat.le_add_left ..) (Nat.zero_le _)

/-- The second phase, in a step that waits. -/
theorem exec_second_posted (hk : k < vgroup.size - 1) :
    (allreduceRingOpSecond (ringOpAt vgroup args staging .inprogress id
      ⟨false, true, true, true, false, false⟩ k)).Exec
      (fun moved res cs => RingEnd reduce vgroup args staging moved
        ({ res.1 with status := res.2 }, res.2) cs) moved
      (.wait :: ([] ++ gatherFrom vgroup args staging (k + 1))) := by
  rw [second_eq rfl hk, exec_bind]
  exact exec_phase_posted phase_allgatherv phaseLeaf_second (Nat.le_add_left ..) hk

/-- What the first phase leaves when its loop does: the second one begins. -/
theorem phaseLeaf_first (hsize : 2 ≤ vgroup.size) :
    PhaseLeaf (vgroup.size - 1) (leftOf vgroup.size vgroup.myrank)
    (rightOf vgroup.size vgroup.myrank) vgroup
    (fun _ => span staging (allreduceRingOpNew vgroup args staging).largeBlkcount)
    (fun k => ringBlock vgroup args staging (ringSendBlock vgroup.size k vgroup.myrank))
    (fun k => [.zip reduce
      (span staging ((allreduceRingOpNew vgroup args staging).blockCount
        (ringRecvBlock vgroup.size k vgroup.myrank)))
      (ringBlock vgroup args staging (ringRecvBlock vgroup.size k vgroup.myrank))])
    ⟨ringOpAt vgroup args staging .inprogress id ringFlagsAll,
      ringOpAt vgroup args staging .inprogress id ⟨true, true, false, true, true, true⟩,
      ringOpAt vgroup args staging .inprogress id ⟨true, false, false, true, true, true⟩⟩
    (gatherFrom vgroup args staging 0)
    fun moved res cs => (if res.2 ≠ .ok then pure (res.1, res.2)
      else pure ({ res.1 with flags := { res.1.flags with reduceScatter := false } }, res.2) :
        Prog (Cell B) β (AllreduceRingOp B × Status)).Exec (fun moved res cs =>
      (if res.2 ≠ .ok then pure ({ res.1 with status := res.2 }, res.2)
        else allreduceRingOpSecond res.1 >>= fun res =>
          pure ({ res.1 with status := res.2 }, res.2) :
        Prog (Cell B) β (AllreduceRingOp B × Status)).Exec (RingEnd reduce vgroup args staging)
          moved cs) moved cs where
  done _ := exec_bind.mpr (exec_second_fresh hsize)
  posted k hk := ⟨rfl, .reduce id k hk, Or.inl ⟨rfl, rfl, trivial⟩⟩

/-- A progress call in the first phase, from its start on. -/
theorem exec_progress_fresh (hsize : 2 ≤ vgroup.size) :
    (allreduceRingOpProgress reduce
      (ringOpAt vgroup args staging .inprogress id ringFlagsAll 0)).Exec
      (RingEnd reduce vgroup args staging) moved (ringFromStep reduce vgroup args staging 0) := by
  rw [allreduceRingOpProgress, exec_bind, first_eq rfl (by omega), exec_bind]
  exact exec_phase_fresh phase_reduceScatter (phaseLeaf_first hsize) (Nat.le_add_left ..)
    (Nat.zero_le _)

/-- A progress call in a step of the first phase that waits. -/
theorem exec_progress_posted (hsize : 2 ≤ vgroup.size) (hk : k < vgroup.size - 1) :
    (allreduceRingOpProgress reduce
      (ringOpAt vgroup args staging .inprogress id ⟨true, false, false, true, true, true⟩ k)).Exec
      (RingEnd reduce vgroup args staging) moved
      (.wait :: ([.zip reduce
          (span staging ((allreduceRingOpNew vgroup args staging).blockCount
            (ringRecvBlock vgroup.size k vgroup.myrank)))
          (ringBlock vgroup args staging (ringRecvBlock vgroup.size k vgroup.myrank))] ++
          ringFromStep reduce vgroup args staging (k + 1))) := by
  rw [allreduceRingOpProgress, exec_bind, first_eq rfl hk, exec_bind]
  exact exec_phase_posted phase_reduceScatter (phaseLeaf_first hsize) (Nat.le_add_left ..) hk

/-- The operation executes its schedule. -/
theorem allreduceRing_runs (hsize : 2 ≤ vgroup.size) (id : ℕ) :
    OpRuns (allreduceRingFuncs reduce) AllreduceRingOp.status id
      (allreduceRingOpNew vgroup args staging) (RingRel reduce vgroup args staging)
      (ringCopy args ++ ringFromStep reduce vgroup args staging 0) where
  trigger := by
    have hgo (moved : Bool) : (allreduceRingOpProgress reduce
        (ringOpAt vgroup args staging .inprogress id ringFlagsAll 0) >>= fun res =>
          pure (res.1, if res.2 = .inprogress then .ok else res.2)).Exec
        (fun moved res cs =>
          OpLeaf AllreduceRingOp.status (RingRel reduce vgroup args staging) moved res.1 cs) moved
        (ringFromStep reduce vgroup args staging 0) :=
      exec_bind.mpr ((exec_progress_fresh hsize).imp fun moved res cs h => h.2)
    have hne : vgroup.size ≠ 1 := by omega
    change (allreduceRingOpTrigger reduce _ id).Exec _ _ _
    rw [allreduceRingOpTrigger, ringCopy]
    cases hsb : args.sendbuf with
    | none =>
      have hnone : (allreduceRingOpNew vgroup args staging).args.sendbuf = none := hsb
      simp only [hnone, List.nil_append]
      exact hgo true
    | some sendbuf =>
      have hsome : (allreduceRingOpNew vgroup args staging).args.sendbuf = some sendbuf := hsb
      simp only [hsome]
      rw [exec_bind]
      refine ⟨_, rfl, ?_⟩
      have hsize' : (allreduceRingOpNew vgroup args staging).vgroup.size ≠ 1 := hne
      simp only [hsize', if_false]
      exact hgo true
  progress op cs hrel := by
    cases hrel with
    | reduce id k hk => exact exec_progress_posted hsize hk
    | gather id k hk =>
      change (allreduceRingOpProgress reduce _).Exec _ _ _
      rw [allreduceRingOpProgress, exec_bind, allreduceRingOpFirst, if_neg (by simp [ringOpAt]),
        exec_pure]
      simp only [ne_eq, not_true_eq_false, if_false]
      exact exec_bind.mpr (exec_second_posted hk)
    | done id => exact ⟨rfl, .done id, Or.inr ⟨rfl, rfl⟩⟩

end Operation

/-! ### The blocks -/

section Blocks

variable {n count b : ℕ}

/-- Where block `b` begins. -/
def ringOffset (n count b : ℕ) : ℕ := b * (count / n) + min b (count % n)

/-- The elements of block `b`: the first blocks have one more if `n` does not divide `count`. -/
def ringBlkcount (n count b : ℕ) : ℕ := count / n + if b < count % n then 1 else 0

theorem ringOffset_succ :
    ringOffset n count (b + 1) = ringOffset n count b + ringBlkcount n count b := by
  rw [ringOffset, ringOffset, ringBlkcount, Nat.succ_mul]
  split_ifs <;> omega

theorem cut_ringOffset (count : ℕ) (hn : 0 < n) : Cut count n (ringOffset n count) where
  mono := monotone_nat_of_le_succ fun b => by
    rw [ringOffset_succ]
    exact Nat.le_add_right ..
  zero := by simp [ringOffset]
  last := by
    rw [ringOffset, Nat.min_eq_right (Nat.mod_lt _ hn).le, Nat.div_add_mod]

/-- The blocks tile the vector. -/
theorem tiles_ringBlocks (hn : 0 < n) : Tiles 0 count
    ((List.range n).map fun b => (ringOffset n count b, ringBlkcount n count b)) := by
  have hpieces (b k : ℕ) :
      pieces (ringOffset n count b) ((List.range' b k).map (ringBlkcount n count)) =
        (List.range' b k).map fun b => (ringOffset n count b, ringBlkcount n count b) := by
    induction k generalizing b with
    | zero => rfl
    | succ k ih =>
      rw [List.range'_succ, List.map_cons, pieces, ← ringOffset_succ, ih, List.map_cons]
  have hsum (b k : ℕ) : ringOffset n count b + ((List.range' b k).map (ringBlkcount n count)).sum =
      ringOffset n count (b + k) := by
    induction k generalizing b with
    | zero => rfl
    | succ k ih =>
      rw [List.range'_succ, List.map_cons, List.sum_cons, ← Nat.add_assoc, ← ringOffset_succ, ih,
        Nat.add_right_comm, Nat.add_assoc]
  have htiles := tiles_pieces ((List.range' 0 n).map (ringBlkcount n count)) (ringOffset n count 0)
  rwa [hpieces, hsum, Nat.zero_add, (cut_ringOffset count hn).zero, (cut_ringOffset count hn).last,
    ← List.range_eq_range'] at htiles

variable {args : AllreduceArgs B} {staging : Cell B} {v : ℕ} {f : ℕ → ℕ}

theorem ringBlockOffset_eq : (allreduceRingOpNew ⟨n, v, f⟩ args staging).blockOffset b =
    ringOffset n args.count b := by
  rw [ringOffset]
  by_cases hlt : b < args.count % n
  · have hlarge : (allreduceRingOpNew ⟨n, v, f⟩ args staging).largeBlkcount = args.count / n + 1 :=
      if_pos (show args.count % n ≠ 0 by omega)
    refine (if_pos hlt).trans ?_
    rw [hlarge, Nat.mul_succ, Nat.min_eq_left hlt.le]
  · refine (if_neg hlt).trans ?_
    rw [Nat.min_eq_right (by omega)]
    rfl

theorem ringBlockCount_eq : (allreduceRingOpNew ⟨n, v, f⟩ args staging).blockCount b =
    ringBlkcount n args.count b := by
  rw [ringBlkcount]
  by_cases hlt : b < args.count % n
  · rw [if_pos hlt]
    exact (if_pos hlt).trans (if_pos (show args.count % n ≠ 0 by omega))
  · rw [if_neg hlt]
    exact if_neg hlt

/-- A block fits into the staging area. -/
theorem ringBlkcount_le : ringBlkcount n args.count b ≤
    (allreduceRingOpNew ⟨n, v, f⟩ args staging).largeBlkcount := by
  change ringBlkcount n args.count b ≤
    if args.count % n ≠ 0 then args.count / n + 1 else args.count / n
  rw [ringBlkcount]
  split_ifs <;> omega

/-- The beginning of a block of the vector at `p`. -/
def ringPtr (p : Cell B) (n count b : ℕ) : Cell B := (p.1, p.2 + ringOffset n count b)

theorem ringBlockCells_eq {c : ℕ} : (allreduceRingOpNew ⟨n, v, f⟩ args staging).blockCells b c =
    span (ringPtr args.recvbuf n args.count b) c := by
  rw [AllreduceRingOp.blockCells, ringBlockOffset_eq]
  rfl

theorem ringBlock_eq : ringBlock ⟨n, v, f⟩ args staging b =
    span (ringPtr args.recvbuf n args.count b) (ringBlkcount n args.count b) := by
  rw [ringBlock, ringBlockCells_eq, ringBlockCount_eq]

theorem ringOffset_add_le (count : ℕ) (hn : 0 < n) (hb : b < n) :
    ringOffset n count b + ringBlkcount n count b ≤ count := by
  have hle := (cut_ringOffset count hn).mono (show b + 1 ≤ n from hb)
  rwa [ringOffset_succ, (cut_ringOffset count hn).last] at hle

/-- Two blocks have no element in common. -/
theorem apart_ringBlocks (p : Cell B) (count : ℕ) {b' : ℕ} (hn : 0 < n) (hne : b ≠ b') :
    Apart (ringPtr p n count b) (ringBlkcount n count b) (ringPtr p n count b')
      (ringBlkcount n count b') := by
  have hmono := (cut_ringOffset count hn).mono
  rcases Nat.lt_or_gt_of_ne hne with hlt | hlt
  · have hle : ringOffset n count (b + 1) ≤ ringOffset n count b' := hmono hlt
    rw [ringOffset_succ] at hle
    exact Or.inr (Or.inl (by simp only [ringPtr]; omega))
  · have hle : ringOffset n count (b' + 1) ≤ ringOffset n count b := hmono hlt
    rw [ringOffset_succ] at hle
    exact Or.inr (Or.inr (by simp only [ringPtr]; omega))

/-- What is apart from the vector is apart from its blocks. -/
theorem Apart.ringBlock {p q : Cell B} {d : ℕ} (h : Apart p count q d) (hn : 0 < n) (hb : b < n) :
    Apart (ringPtr p n count b) (ringBlkcount n count b) q d := by
  have hle := ringOffset_add_le count hn hb
  rcases h with h | h | h
  · exact Or.inl h
  · exact Or.inr (Or.inl (by simp only [ringPtr]; omega))
  · exact Or.inr (Or.inr (by simp only [ringPtr]; omega))

end Blocks

/-! ### The schedule follows its trace -/

section Trace

variable {n count v : ℕ}

/-- The message that carries block `b` of a vector. -/
def ringMessage (n count : ℕ) (b : ℕ) (y : ℕ → β) : List β :=
  vec (ringBlkcount n count b) fun j => y (ringOffset n count b + j)

/-- Block `b` of the vector at `p` is that of `y`. -/
def BlockHolds (m : Cell B → β) (p : Cell B) (n count b : ℕ) (y : ℕ → β) : Prop :=
  Holds m (ringPtr p n count b) (ringBlkcount n count b) fun j => y (ringOffset n count b + j)

variable [DecidableEq B]

/-- The messages of a step. -/
theorem wp_ringStep {ι : Type} [DecidableEq ι] {Q : Ghost ι β → Prop} {l r : ℕ} {rc sc : List ι}
    {vals svals : List β} {todo : List (Event β)} {rest : Sched ι β} {g : Ghost ι β}
    (hpend : g.pend = []) (htodo : g.todo = .recv l vals ∅ :: .send r svals ∅ :: todo)
    (hlen : vals.length ≤ rc.length) (hapart : ∀ i ∈ sc, i ∉ rc.take vals.length)
    (hsend : sc.map g.mem = svals)
    (hrest : ∀ know, Sched.wp Q rest ⟨writeCells rc vals g.mem, [], todo, know⟩) :
    Sched.wp Q (.recv 0 l rc :: .send r sc :: .wait :: rest) g := by
  have hfree (i) : g.Free i := fun p hp => absurd (hpend ▸ hp) List.not_mem_nil
  have hvals : sc.map (writeCells rc vals g.mem) = svals := by
    rw [← hsend]
    exact List.map_congr_left fun i hi => writeCells_of_notMem_take (hapart i hi)
  refine ⟨fun i _ => hfree i, vals, ∅, .send r svals ∅ :: todo, htodo, hlen, ?_⟩
  refine ⟨fun i hi p hp => ?_, ∅, todo, by rw [hvals], Set.empty_subset _, hrest _⟩
  rw [hpend, List.nil_append, List.mem_singleton] at hp
  rw [hp]
  exact hapart i hi

variable [Semigroup β] (x : ℕ → ℕ → β)

/-- What a rank sends in step `k` of the reduce-scatter, and what it receives. -/
def reduceScatterEvents (n count k : ℕ) : ℕ → List (Event β) :=
  ringEvents n
    (fun v => ringMessage n count (ringSendBlock n k v) (ringProd n x (ringSendBlock n k v) k))
    fun v => ringMessage n count (ringRecvBlock n k v) (ringProd n x (ringRecvBlock n k v) k)

/-- What it sends in step `k` of the allgather, and what it receives. -/
def allgathervEvents (n count k : ℕ) : ℕ → List (Event β) :=
  ringEvents n
    (fun v => ringMessage n count (ringGatherBlock n k v)
      (ringProd n x (ringGatherBlock n k v) (n - 1)))
    fun v => ringMessage n count (ringSendBlock n k v) (ringProd n x (ringSendBlock n k v) (n - 1))

/-- The messages of the steps from `k` on. -/
def eventsFrom (step : ℕ → ℕ → List (Event β)) (K v k : ℕ) : List (Event β) :=
  (List.range' k (K - k)).flatMap fun k => step k v

/-- The messages of a rank. -/
def allreduceRingTrace (n count v : ℕ) : List (Event β) :=
  eventsFrom (reduceScatterEvents x n count) (n - 1) v 0 ++
    eventsFrom (allgathervEvents x n count) (n - 1) v 0

variable {x}

omit [Semigroup β] in
theorem eventsFrom_succ {step : ℕ → ℕ → List (Event β)} {K k : ℕ} (hk : k < K) :
    eventsFrom step K v k = step k v ++ eventsFrom step K v (k + 1) := by
  obtain ⟨d, hd⟩ : ∃ d, K - k = d + 1 := ⟨K - k - 1, by omega⟩
  rw [eventsFrom, hd, List.range'_succ, List.flatMap_cons, eventsFrom,
    show K - (k + 1) = d by omega]

theorem matched_allreduceRing : Matched (allreduceRingTrace x n count) := by
  refine Matched.append (Matched.flatMap _ fun k hk => ?_) (Matched.flatMap _ fun k hk => ?_)
  · rw [List.mem_range'_1] at hk
    exact matched_ringEvents fun v hv => by rw [ringSendBlock_eq (by omega) hv]
  · rw [List.mem_range'_1] at hk
    exact matched_ringEvents fun v hv => by rw [ringGatherBlock_eq (by omega) hv]

section Follows

variable {args : AllreduceArgs B} {staging : Cell B} {Q : Ghost (Cell B) β → Prop}

/-- Before step `k` of the reduce-scatter. -/
structure RingReduced (x : ℕ → ℕ → β) (p : Cell B) (n count v k : ℕ) (more : List (Event β))
    (g : Ghost (Cell B) β) : Prop where
  pend : g.pend = []
  todo : g.todo = eventsFrom (reduceScatterEvents x n count) (n - 1) v k ++ more
  blocks : ∀ b < n, BlockHolds g.mem p n count b (ringValue n x k v b)

/-- Before step `k` of the allgather. -/
structure RingGathered (x : ℕ → ℕ → β) (p : Cell B) (n count v k : ℕ) (g : Ghost (Cell B) β) :
    Prop where
  pend : g.pend = []
  todo : g.todo = eventsFrom (allgathervEvents x n count) (n - 1) v k
  blocks : ∀ j ≤ k, BlockHolds g.mem p n count (ringGatherBlock n j v)
    (ringProd n x (ringGatherBlock n j v) (n - 1))

/-- The steps of the allgather. -/
theorem wp_gatherFrom (hv : v < n)
    (hQ : ∀ g, RingGathered x args.recvbuf n args.count v (n - 1) g → Q g) :
    ∀ (d k : ℕ) {g : Ghost (Cell B) β}, k + d = n - 1 →
      RingGathered x args.recvbuf n args.count v k g →
      Sched.wp Q (gatherFrom ⟨n, v, fun q => q⟩ args staging k) g
  | 0, k, g, hk, h => by
    obtain rfl : k = n - 1 := by omega
    rw [gatherFrom, phaseFrom_end]
    exact hQ g h
  | d + 1, k, g, hk, h => by
    have hlt : k < n - 1 := by omega
    have htodo := h.todo
    rw [eventsFrom_succ hlt, allgathervEvents, ringEvents, if_pos hv] at htodo
    have hapart := apart_ringBlocks args.recvbuf args.count (show 0 < n by omega)
      (ringGatherBlock_ne hv (show k + 1 < n by omega))
    rw [gatherFrom, phaseFrom_succ hlt, allgathervStep, phaseStep, List.append_assoc,
      List.cons_append, List.cons_append, List.cons_append, List.nil_append, ringBlockCells_eq,
      ringBlock_eq]
    refine wp_ringStep h.pend htodo ?_ ?_ (h.blocks k le_rfl).map_span fun know => ?_
    · rw [ringMessage, length_vec, length_span]
      exact ringBlkcount_le
    · rw [ringMessage, length_vec, take_span _ ringBlkcount_le]
      exact fun i hi => hapart.notMem hi
    · refine wp_gatherFrom hv hQ d (k + 1) (by omega) ⟨rfl, rfl, fun j hj => ?_⟩
      by_cases hblock : ringGatherBlock n j v = ringSendBlock n k v
      · rw [hblock]
        exact holds_write_le _ _ ringBlkcount_le _
      · have hle : j ≤ k := by
          rcases hj.lt_or_eq with hj | rfl
          · omega
          · exact absurd (ringGatherBlock_succ (show k < n by omega)) hblock
        exact (h.blocks j hle).write_le (apart_ringBlocks _ _ (show 0 < n by omega) hblock)
          ringBlkcount_le

/-- The steps of the reduce-scatter. -/
theorem wp_ringFromStep (hv : v < n) (hn : 2 ≤ n)
    (hap : Apart args.recvbuf args.count staging
      (allreduceRingOpNew ⟨n, v, fun q => q⟩ args staging).largeBlkcount)
    (hQ : ∀ g, RingGathered x args.recvbuf n args.count v (n - 1) g → Q g) :
    ∀ (d k : ℕ) {g : Ghost (Cell B) β}, k + d = n - 1 →
      RingReduced x args.recvbuf n args.count v k
        (eventsFrom (allgathervEvents x n args.count) (n - 1) v 0) g →
      Sched.wp Q (ringFromStep (· * ·) ⟨n, v, fun q => q⟩ args staging k) g
  | 0, k, g, hk, h => by
    obtain rfl : k = n - 1 := by omega
    rw [ringFromStep, phaseFrom_end, List.nil_append]
    refine wp_gatherFrom hv hQ (n - 1) 0 (by omega) ⟨h.pend, ?_, fun j hj => ?_⟩
    · rw [h.todo, eventsFrom, Nat.sub_self]
      rfl
    · obtain rfl := Nat.le_zero.mp hj
      have hblock := h.blocks (ringGatherBlock n 0 v) (ringGatherBlock_lt (by omega))
      rw [ringGatherBlock_zero hv] at hblock ⊢
      rwa [ringValue_sendBlock hv (by omega)] at hblock
  | d + 1, k, g, hk, h => by
    have hlt : k < n - 1 := by omega
    have hpos : 0 < n := by omega
    have htodo := h.todo
    rw [eventsFrom_succ hlt, reduceScatterEvents, ringEvents, if_pos hv] at htodo
    have hsend := h.blocks (ringSendBlock n k v) (ringSendBlock_lt hpos)
    rw [ringValue_sendBlock hv (by omega)] at hsend
    have hrecv : ringRecvBlock n k v < n := ringRecvBlock_lt hpos
    rw [ringFromStep, phaseFrom_succ hlt, reduceScatterStep, phaseStep, List.append_assoc,
      List.cons_append, List.cons_append, List.cons_append, ringBlockCount_eq, ringBlock_eq,
      ringBlock_eq]
    refine wp_ringStep h.pend htodo ?_ ?_ hsend.map_span fun know => ?_
    · rw [ringMessage, length_vec, length_span]
      exact ringBlkcount_le
    · intro i hi hmem
      exact (hap.ringBlock hpos (ringSendBlock_lt hpos)).notMem hi (List.mem_of_mem_take hmem)
    -- the reduction: the staging area holds the part of the left neighbour
    · have hfree (m) (i) :
          (⟨m, [], eventsFrom (reduceScatterEvents x n args.count) (n - 1) v (k + 1) ++
            eventsFrom (allgathervEvents x n args.count) (n - 1) v 0, know⟩ :
              Ghost (Cell B) β).Free i := fun p hp => absurd hp List.not_mem_nil
      refine ⟨fun i _ => hfree _ i, fun i _ => hfree _ i, ?_⟩
      refine wp_ringFromStep hv hn hap hQ d (k + 1) (by omega) ⟨rfl, rfl, fun b hb => ?_⟩
      have hold : BlockHolds (writeCells (span staging
          (allreduceRingOpNew ⟨n, v, fun q => q⟩ args staging).largeBlkcount)
          (ringMessage n args.count (ringRecvBlock n k v) (ringProd n x (ringRecvBlock n k v) k))
          g.mem) args.recvbuf n args.count b (ringValue n x k v b) :=
        (h.blocks b hb).write (hap.ringBlock hpos hb)
      by_cases hblock : b = ringRecvBlock n k v
      · subst hblock
        have hnew := (holds_write_le g.mem staging ringBlkcount_le _).zip (f := (· * ·)) hold
          ((hap.ringBlock hpos hrecv).symm.of_le ringBlkcount_le)
        rw [ringValue_recvBlock hv (by omega)]
        exact hnew
      · rw [ringValue_other hv (by omega) hb hblock]
        exact hold.zip_source (apart_ringBlocks _ _ hpos hblock)

end Follows

end Trace

/-! ### All ranks -/

section Group

variable (n : ℕ) (args : ℕ → AllreduceArgs B) (staging : ℕ → Cell B)

/-- The steps of all ranks. -/
def allreduceRingRounds [Mul β] : List (ℕ → Sched (Cell B) β) :=
  (fun r => ringCopy (args r)) ::
    ((List.range (n - 1)).map (fun k r =>
      reduceScatterStep (· * ·) ⟨n, r, fun q => q⟩ (args r) (staging r) k) ++
    (List.range (n - 1)).map fun k r =>
      allgathervStep ⟨n, r, fun q => q⟩ (args r) (staging r) k)

variable {n args staging} {left right k v w r : ℕ} {recvCells sendCells : ℕ → List (Cell B)}
  {acts : ℕ → Sched (Cell B) β}

theorem flatMap_allreduceRingRounds [Mul β] :
    ((allreduceRingRounds n args staging).flatMap fun R => R r : Sched (Cell B) β) =
      ringCopy (args r) ++ ringFromStep (· * ·) ⟨n, r, fun q => q⟩ (args r) (staging r) 0 := by
  rw [allreduceRingRounds, List.flatMap_cons, List.flatMap_append, List.flatMap_map,
    List.flatMap_map, ringFromStep, gatherFrom, phaseFrom, phaseFrom, List.append_nil,
    Nat.sub_zero, List.range_eq_range']

theorem sendsTo_phaseStep (hacts : (acts k).Zips) :
    (phaseStep left right recvCells sendCells acts k).sendsTo w =
      if right = w then [sendCells k] else [] := by
  change Sched.sendsTo w
    ([.recv 0 left (recvCells k), .send right (sendCells k), .wait] ++ acts k) = _
  rw [schedSendsTo_append, hacts.sendsTo, List.append_nil, Sched.sendsTo]
  split_ifs with h <;> simp [List.filterMap_cons, Cmd.sentTo, h]

theorem recvsFrom_phaseStep (hacts : (acts k).Zips) :
    (phaseStep left right recvCells sendCells acts k).recvsFrom v =
      if left = v then [recvCells k] else [] := by
  change Sched.recvsFrom v
    ([.recv 0 left (recvCells k), .send right (sendCells k), .wait] ++ acts k) = _
  rw [schedRecvsFrom_append, hacts.recvsFrom, List.append_nil, Sched.recvsFrom]
  split_ifs with h <;> simp [List.filterMap_cons, Cmd.receivedFrom, h]

theorem batch_phaseStep (hacts : (acts k).Zips) :
    (phaseStep left right recvCells sendCells acts k).Batch := by
  refine ⟨fun d src t hm => ?_, hacts.batch⟩
  obtain ⟨f, src', dst, heq⟩ := hacts _ (mem_stamp.mp hm).1
  cases heq

/-- Where the messages of a step go to and come from. -/
theorem peerLt_phaseStep {n : ℕ} (hacts : (acts k).Zips) (hleft : left < n) (hright : right < n) :
    ∀ c ∈ phaseStep left right recvCells sendCells acts k, c.PeerLt n := by
  intro c hc
  simp only [phaseStep, List.mem_cons] at hc
  obtain rfl | rfl | rfl | hc := hc
  · exact hleft
  · exact hright
  · trivial
  · exact hacts.peerLt n c hc

/-- Neighbours post as many messages for each other. -/
theorem counts_phaseStep {n : ℕ} {acts' : ℕ → Sched (Cell B) β}
    {recvCells' sendCells' : ℕ → List (Cell B)} (hacts : (acts k).Zips) (hacts' : (acts' k).Zips)
    (hv : v < n) (hw : w < n) :
    ((phaseStep (leftOf n v) (rightOf n v) recvCells sendCells acts k).sendsTo w).length =
      ((phaseStep (leftOf n w) (rightOf n w) recvCells' sendCells' acts' k).recvsFrom
        v).length := by
  rw [sendsTo_phaseStep hacts, recvsFrom_phaseStep hacts']
  by_cases h : rightOf n v = w
  · rw [if_pos h, if_pos ((Algo.rightOf_eq_iff hv hw).mp h)]
    rfl
  · rw [if_neg h, if_neg fun h' => h ((Algo.rightOf_eq_iff hv hw).mpr h')]

theorem zips_ringCopy {args : AllreduceArgs B} : (ringCopy args : Sched (Cell B) β).Zips := by
  rw [ringCopy]
  split
  · exact .single
  · exact .nil

/-- What holds of a round if it does of all kinds of rounds. -/
theorem forall_allreduceRingRounds [Mul β] {P : (ℕ → Sched (Cell B) β) → Prop}
    (hcopy : P fun r => ringCopy (args r))
    (hreduce : ∀ k, P fun r => reduceScatterStep (· * ·) ⟨n, r, fun q => q⟩ (args r) (staging r) k)
    (hgather : ∀ k, P fun r => allgathervStep ⟨n, r, fun q => q⟩ (args r) (staging r) k) :
    ∀ R ∈ allreduceRingRounds n args staging, P R := by
  intro R hR
  rw [allreduceRingRounds, List.mem_cons, List.mem_append, List.mem_map, List.mem_map] at hR
  obtain rfl | ⟨k, -, rfl⟩ | ⟨k, -, rfl⟩ := hR
  · exact hcopy
  · exact hreduce k
  · exact hgather k

variable [DecidableEq B] [CommSemigroup β] {count : ℕ} {x : ℕ → ℕ → β} {m : ℕ → Cell B → β}

omit [DecidableEq B] in
/-- Where all blocks are complete, the vector is. -/
theorem RingGathered.complete {p : Cell B} {g : Ghost (Cell B) β} (hv : v < n)
    (h : RingGathered x p n count v (n - 1) g) :
    Ended (fun m => Holds m p count fun j => prodFrom (fun q => x q j) 0 (n - 1)) g := by
  have hn : 0 < n := by omega
  refine ⟨by rw [h.todo, eventsFrom, Nat.sub_self]; rfl, h.pend, fun j hj => ?_⟩
  obtain ⟨b, hb, hfrom, hto⟩ := exists_block (cut_ringOffset count hn).zero
    (show j < ringOffset n count n by rwa [(cut_ringOffset count hn).last])
  obtain ⟨k, hk, rfl⟩ := exists_gatherBlock hv hb
  have hblock := h.blocks k hk (j - ringOffset n count (ringGatherBlock n k v)) (by
    rw [ringOffset_succ] at hto
    omega)
  dsimp only at hblock
  rw [ringProd_all hb, Nat.add_sub_cancel' hfrom, prodFrom_apply] at hblock
  have hcell : (p.1, p.2 + j) = ((ringPtr p n count (ringGatherBlock n k v)).1,
      (ringPtr p n count (ringGatherBlock n k v)).2 +
        (j - ringOffset n count (ringGatherBlock n k v))) :=
    Prod.ext rfl (by simp only [ringPtr]; omega)
  exact (congrArg g.mem hcell).trans hblock

/-- The schedule of a rank follows its trace. -/
theorem follows_allreduceRing (hn : 2 ≤ n) (hr : r < n) (hcount : (args r).count = count)
    (hstaging : Apart (args r).recvbuf count (staging r)
      (allreduceRingOpNew ⟨n, r, fun q => q⟩ (args r) (staging r)).largeBlkcount)
    (hx : (args r).Brings (m r) (x r)) :
    Sched.wp (Ended fun m => Holds m (args r).recvbuf count fun j =>
        prodFrom (fun q => x q j) 0 (n - 1))
      ((allreduceRingRounds n args staging).flatMap fun R => R r)
      ⟨m r, [], allreduceRingTrace x n count r, {r}⟩ := by
  subst hcount
  -- the vector holds the input, once that has been copied
  have hgo (mem : Cell B → β) (hmem : Holds mem (args r).recvbuf (args r).count (x r)) :
      Sched.wp (Ended fun m => Holds m (args r).recvbuf (args r).count fun j =>
        prodFrom (fun q => x q j) 0 (n - 1))
        (ringFromStep (· * ·) ⟨n, r, fun q => q⟩ (args r) (staging r) 0)
        ⟨mem, [], allreduceRingTrace x n (args r).count r, {r}⟩ := by
    refine wp_ringFromStep hr hn hstaging (fun g h => h.complete hr) (n - 1) 0 (by omega)
      ⟨rfl, rfl, fun b hb j hj => ?_⟩
    have hle := ringOffset_add_le (args r).count (show 0 < n by omega) hb
    have hcell := hmem _ (show ringOffset n (args r).count b + j < (args r).count by omega)
    rw [← Nat.add_assoc] at hcell
    rw [ringValue_zero hr hb]
    exact hcell
  have hinput := hx.input
  rw [flatMap_allreduceRingRounds, schedWp_append, ringCopy]
  cases hsb : (args r).sendbuf with
  | none =>
    rw [hsb] at hinput
    exact hgo (m r) hinput
  | some sendbuf =>
    rw [hsb] at hinput
    refine ⟨fun i _ p hp => absurd hp List.not_mem_nil, fun i _ p hp => absurd hp List.not_mem_nil,
      hgo _ ?_⟩
    exact hinput.zip (f := fun s _ => s) (fun _ _ => rfl) (hx.apart _ hsb)

theorem combining_allreduceRing (hn : 2 ≤ n) (hcount : ∀ r < n, (args r).count = count)
    (hstaging : ∀ r < n, Apart (args r).recvbuf count (staging r)
      (allreduceRingOpNew ⟨n, r, fun q => q⟩ (args r) (staging r)).largeBlkcount)
    (hx : ∀ r < n, (args r).Brings (m r) (x r)) :
    Combining n m (allreduceRingRounds n args staging) (allreduceRingTrace x n count)
      fun r m => Holds m (args r).recvbuf count fun j => prodFrom (fun q => x q j) 0 (n - 1) where
  peers := by
    have hpos : 0 < n := by omega
    refine forall_allreduceRingRounds (fun r _ => zips_ringCopy.peerLt n) (fun k r _ => ?_)
      fun k r _ => ?_
    · beta_reduce
      unfold reduceScatterStep
      exact peerLt_phaseStep .single (leftOf_lt hpos) (rightOf_lt hpos)
    · beta_reduce
      unfold allgathervStep
      exact peerLt_phaseStep .nil (leftOf_lt hpos) (rightOf_lt hpos)
  counts := by
    refine forall_allreduceRingRounds (fun s _ r _ => ?_) (fun k s hs r hr => ?_)
      fun k s hs r hr => ?_
    · rw [zips_ringCopy.sendsTo, zips_ringCopy.recvsFrom]
    · beta_reduce
      unfold reduceScatterStep
      exact counts_phaseStep .single .single hs hr
    · beta_reduce
      unfold allgathervStep
      exact counts_phaseStep .nil .nil hs hr
  batch := by
    refine forall_allreduceRingRounds (fun r _ => zips_ringCopy.batch) (fun k r _ => ?_)
      fun k r _ => ?_
    · beta_reduce
      unfold reduceScatterStep
      exact batch_phaseStep .single
    · beta_reduce
      unfold allgathervStep
      exact batch_phaseStep .nil
  matched := matched_allreduceRing
  follows r hr := follows_allreduceRing hn hr (hcount r hr) (hstaging r hr) (hx r hr)

/-- The request of a rank, from the operation that it has prepared. -/
def allreduceRingProc (ops : ℕ → AllreduceRingOp B) (id r : ℕ) :
    Proc (Cell B) β (AllreduceRingOp B) :=
  opProc (allreduceRingFuncs (· * ·)) AllreduceRingOp.status (ops r) id

/-- What a rank posts: in each step of the two phases a receive from the left and a send to the
    right. -/
def ringPosts (op : AllreduceRingOp B) (n r : ℕ) : Sched (Cell B) β :=
  ((List.range (n - 1)).flatMap fun k =>
    [.recv 0 (leftOf n r) (span op.stagingArea op.largeBlkcount),
      .send (rightOf n r)
        (op.blockCells (ringSendBlock n k r) (op.blockCount (ringSendBlock n k r)))]) ++
  (List.range (n - 1)).flatMap fun k =>
    [.recv 0 (leftOf n r) (op.blockCells (ringSendBlock n k r) op.largeBlkcount),
      .send (rightOf n r)
        (op.blockCells (ringGatherBlock n k r) (op.blockCount (ringGatherBlock n k r)))]

/-- A ring allreduce as it is to be: the blocks tile the vector, the first ones being larger by one
    if `n` does not divide `count`; a rank receives the block that its left neighbour sends; and in
    every run a rank that has finished has the combination of all inputs, having posted the messages
    of all steps; ranks use the staging area and the buffers of the call only, except that a receive
    may have room for one element behind them; and from every state all ranks come to their end. -/
structure AllreduceRingMeets (n count id : ℕ) (args : ℕ → AllreduceArgs B) (x : ℕ → ℕ → β)
    (m : ℕ → Cell B → β) (ops : ℕ → AllreduceRingOp B) : Prop where
  blocks : ∀ r < n,
    Tiles 0 count ((List.range n).map fun b => ((ops r).blockOffset b, (ops r).blockCount b)) ∧
      ∀ b < n, (ops r).blockCount b = count / n + if b < count % n then 1 else 0
  aligned : ∀ r < n, ∀ k < n - 1, ringSendBlock n k (leftOf n r) = ringRecvBlock n k r ∧
    ringGatherBlock n k (leftOf n r) = ringSendBlock n k r
  runs : ∀ acts N, (Net.init m).run n (allreduceRingProc ops id) acts = some N →
    (∀ r < n, ∀ op, N.FinishedIn r op → op.status = .ok ∧
      Holds (N.node r).mem (args r).recvbuf count (fun j => prodFrom (fun q => x q j) 0 (n - 1)) ∧
      Net.posts n (allreduceRingProc ops id) r (Net.init m) acts = ringPosts (ops r) n r) ∧
    (∀ r < n, ∀ p c, (N.node r).ctl = .running p → p.first = some c → ∀ i ∈ c.cells,
      i ∈ span (ops r).stagingArea (ops r).largeBlkcount ∨ i ∈ span (args r).recvbuf (count + 1) ∨
        ∃ sendbuf ∈ (args r).sendbuf, i ∈ span sendbuf count) ∧
    ∃ acts' N', N.run n (allreduceRingProc ops id) acts' = some N' ∧
      ∀ r < n, ∃ op, N'.FinishedIn r op

omit [DecidableEq B] [CommSemigroup β] in
theorem posts_phaseStep (hacts : (acts k).Zips) :
    Sched.posts (phaseStep left right recvCells sendCells acts k) =
      [.recv 0 left (recvCells k), .send right (sendCells k)] := by
  have hnil : (acts k).posts = [] := List.filter_eq_nil_iff.mpr fun c hc => by
    obtain ⟨f, src, dst, rfl⟩ := hacts c hc
    exact Bool.false_ne_true
  exact congrArg (fun cs => .recv 0 left (recvCells k) :: .send right (sendCells k) :: cs) hnil

omit [DecidableEq B] [CommSemigroup β] in
/-- The messages of the schedule. -/
theorem posts_allreduceRingRounds [Mul β] :
    Sched.posts ((allreduceRingRounds n args staging).flatMap fun R => R r : Sched (Cell B) β) =
      ringPosts (allreduceRingOpNew ⟨n, r, fun q => q⟩ (args r) (staging r)) n r := by
  have hcopy : Sched.posts (ringCopy (args r) : Sched (Cell B) β) = [] := by
    rw [ringCopy]
    split <;> rfl
  rw [Sched.posts, allreduceRingRounds, List.flatMap_cons, List.flatMap_append, List.flatMap_map,
    List.flatMap_map, List.filter_append, List.filter_append, List.filter_flatMap,
    List.filter_flatMap, ringPosts]
  rw [Sched.posts] at hcopy
  rw [hcopy, List.nil_append]
  refine congrArg₂ (· ++ ·) (List.flatMap_congr fun k _ => ?_) (List.flatMap_congr fun k _ => ?_)
  · unfold reduceScatterStep
    exact posts_phaseStep .single
  · unfold allgathervStep
    exact posts_phaseStep .nil

omit [DecidableEq B] [CommSemigroup β] in
/-- A part of a block lies in the receive buffer, or one element behind it. -/
theorem mem_of_mem_block {p : Cell B} {b c : ℕ} (hn : 0 < n) (hb : b < n)
    (hc : c ≤ ringBlkcount n count b + 1) {i : Cell B} (hi : i ∈ span (ringPtr p n count b) c) :
    i ∈ span p (count + 1) := by
  have hle := ringOffset_add_le count hn hb
  obtain ⟨h₁, h₂, h₃⟩ := mem_span.mp hi
  simp only [ringPtr] at h₁ h₂ h₃
  exact mem_span.mpr ⟨h₁, by omega, by omega⟩

omit [DecidableEq B] [CommSemigroup β] in
/-- What the commands of a rank use. -/
theorem cells_allreduceRingRounds [Mul β] (hn : 0 < n) (hcount : (args r).count = count)
    {c : Cmd (Cell B) β} (hc : c ∈ (allreduceRingRounds n args staging).flatMap fun R => R r)
    {i : Cell B} (hi : i ∈ c.cells) :
    i ∈ span (staging r)
        (allreduceRingOpNew ⟨n, r, fun q => q⟩ (args r) (staging r)).largeBlkcount ∨
      i ∈ span (args r).recvbuf (count + 1) ∨
        ∃ sendbuf ∈ (args r).sendbuf, i ∈ span sendbuf count := by
  subst hcount
  have hlarge {b : ℕ} :
      (allreduceRingOpNew ⟨n, r, fun q => q⟩ (args r) (staging r)).largeBlkcount ≤
        ringBlkcount n (args r).count b + 1 := by
    change (if (args r).count % n ≠ 0 then (args r).count / n + 1 else (args r).count / n) ≤ _
    rw [ringBlkcount]
    split_ifs <;> omega
  have hblock {b : ℕ} (hb : b < n)
      (hmem : i ∈ ringBlock ⟨n, r, fun q => q⟩ (args r) (staging r) b) :
      i ∈ span (args r).recvbuf ((args r).count + 1) := by
    rw [ringBlock_eq] at hmem
    exact mem_of_mem_block hn hb (Nat.le_succ _) hmem
  rw [allreduceRingRounds, List.flatMap_cons, List.flatMap_append, List.flatMap_map,
    List.flatMap_map, List.mem_append, List.mem_append, List.mem_flatMap, List.mem_flatMap] at hc
  obtain hc | ⟨k, -, hc⟩ | ⟨k, -, hc⟩ := hc
  · beta_reduce at hc
    rw [ringCopy] at hc
    split at hc
    · next sendbuf hsb =>
      obtain rfl := List.mem_singleton.mp hc
      rcases List.mem_append.mp hi with hi | hi
      · exact Or.inr (Or.inr ⟨sendbuf, hsb, hi⟩)
      · obtain ⟨h₁, h₂, h₃⟩ := mem_span.mp hi
        exact Or.inr (Or.inl (mem_span.mpr ⟨h₁, h₂, by omega⟩))
    · exact absurd hc List.not_mem_nil
  · unfold reduceScatterStep at hc
    simp only [phaseStep, List.mem_cons, List.not_mem_nil, or_false] at hc
    obtain rfl | rfl | rfl | rfl := hc
    · exact Or.inl hi
    · exact Or.inr (Or.inl (hblock (ringSendBlock_lt hn) hi))
    · exact absurd hi List.not_mem_nil
    · rcases List.mem_append.mp hi with hi | hi
      · rw [ringBlockCount_eq] at hi
        obtain ⟨h₁, h₂, h₃⟩ := mem_span.mp hi
        exact Or.inl (mem_span.mpr ⟨h₁, h₂, h₃.trans_le (Nat.add_le_add_left ringBlkcount_le _)⟩)
      · exact Or.inr (Or.inl (hblock (ringRecvBlock_lt hn) hi))
  · unfold allgathervStep at hc
    simp only [phaseStep, List.mem_cons, List.not_mem_nil, or_false] at hc
    obtain rfl | rfl | rfl := hc
    · rw [Cmd.cells, ringBlockCells_eq] at hi
      exact Or.inr (Or.inl (mem_of_mem_block hn (ringSendBlock_lt hn) hlarge hi))
    · exact Or.inr (Or.inl (hblock (ringGatherBlock_lt hn) hi))
    · exact absurd hi List.not_mem_nil

/-- The ring allreduce, for every number of ranks, count and operator. -/
theorem allreduceRing_correct (n count id : ℕ) (hn : 2 ≤ n) (args : ℕ → AllreduceArgs B)
    (staging : ℕ → Cell B) (x : ℕ → ℕ → β) (m : ℕ → Cell B → β) (ops : ℕ → AllreduceRingOp B)
    (hops : ∀ r < n, allreduceRingPrepare ⟨n, r, fun q => q⟩ (args r) true false (staging r) =
      .ok (ops r)) (hcount : ∀ r < n, (args r).count = count)
    (hstaging : ∀ r < n, Apart (args r).recvbuf count (staging r) (ops r).largeBlkcount)
    (hx : ∀ r < n, (args r).Brings (m r) (x r)) :
    AllreduceRingMeets n count id args x m ops := by
  have hpos : 0 < n := by omega
  have hnew (r) (hr : r < n) :
      ops r = allreduceRingOpNew ⟨n, r, fun q => q⟩ (args r) (staging r) := by
    have hop := hops r hr
    rw [allreduceRingPrepare] at hop
    split_ifs at hop
    exact (Except.ok.inj hop).symm
  have hcomb := combining_allreduceRing hn hcount (fun r hr => hnew r hr ▸ hstaging r hr) hx
  have hruns (r) (hr : r < n) : (allreduceRingProc ops id r).Runs
      (fun op cs => RingRel ((· * ·) : β → β → β) ⟨n, r, fun q => q⟩ (args r) (staging r) op cs ∧
        (op.status = .inprogress ∨ op.status = .ok))
      ((allreduceRingRounds n args staging).flatMap fun R => R r) := by
    rw [allreduceRingProc, hnew r hr, flatMap_allreduceRingRounds]
    exact (allreduceRing_runs hn id).runs
  refine ⟨fun r hr => ?_, fun r hr k hk => ?_, fun acts N hrun => ⟨fun r hr op hfin => ?_,
    fun r hr p c hp hc i hi => ?_, hcomb.live hruns hrun⟩⟩
  · simp only [hnew r hr, ringBlockOffset_eq, ringBlockCount_eq, hcount r hr]
    exact ⟨tiles_ringBlocks hpos, fun b hb => rfl⟩
  · have hleft : leftOf n r < n := leftOf_lt hpos
    have hright : rightOf n (leftOf n r) = r := (Algo.rightOf_eq_iff hleft hr).mpr rfl
    rw [ringSendBlock_eq (by omega) hleft, ringGatherBlock_eq (by omega) hleft, hright]
    exact ⟨rfl, rfl⟩
  · obtain ⟨⟨hrel, -⟩, hmem⟩ := hcomb.finished hruns hrun hfin
    refine ⟨?_, hmem, ?_⟩
    · cases hrel
      rfl
    · rw [Combining.posts hruns hrun hr hfin, posts_allreduceRingRounds, hnew r hr]
  -- the staging area is as large as the largest block
  · rw [hnew r hr]
    exact cells_allreduceRingRounds hpos (hcount r hr) (Combining.executes hruns hrun hp hc) hi

end Group

/-! Three ranks multiply vectors of four elements, so that block 0 has two of them. The call of
    rank 2 is in place. -/

/-- The buffers 0, 1 and 2 are for sending, receiving and staging. -/
def ringArgs (r : ℕ) : AllreduceArgs ℕ :=
  ⟨if r = 2 then none else some (0, 0), (1, 0), 4⟩

/-- Rank `r` contributes `10 * r + 1`, `10 * r + 2`, and so on. -/
def ringMem (r : ℕ) (c : Cell ℕ) : ℕ :=
  if c.1 = if r = 2 then 1 else 0 then 10 * r + c.2 + 1 else 0

theorem allreduceRing_correct_three : ∃ acts N op,
    (Net.init ringMem).run 3 (allreduceRingProc (fun r =>
      allreduceRingOpNew ⟨3, r, fun q => q⟩ (ringArgs r) (2, 0)) 7) acts = some N ∧
      N.FinishedIn 2 op ∧ op.status = .ok ∧ (N.node 2).mem (1, 3) = 4 * 14 * 24 := by
  have hx (r) (hr : r < 3) : (ringArgs r).Brings (ringMem r) fun j => 10 * r + j + 1 := by
    interval_cases r
    · exact ⟨fun j _ => by simp [ringArgs, ringMem], by simp [ringArgs, Apart]⟩
    · exact ⟨fun j _ => by simp [ringArgs, ringMem], by simp [ringArgs, Apart]⟩
    · exact ⟨fun j _ => by simp [ringArgs, ringMem], by simp [ringArgs]⟩
  have hmeets := allreduceRing_correct 3 4 7 (by decide) ringArgs (fun _ => (2, 0))
    (fun r j => 10 * r + j + 1) ringMem
    (fun r => allreduceRingOpNew ⟨3, r, fun q => q⟩ (ringArgs r) (2, 0)) (fun _ _ => rfl)
    (fun _ _ => rfl) (fun _ _ => Or.inl (by simp [ringArgs])) hx
  obtain ⟨-, -, acts, N, hrun, hfin⟩ := hmeets.runs [] _ rfl
  obtain ⟨op, hop⟩ := hfin 2 (by decide)
  obtain ⟨hok, hres, -⟩ := (hmeets.runs acts N hrun).1 2 (by decide) op hop
  exact ⟨acts, N, op, hrun, hop, hok, hres 3 (by decide)⟩

end Kucg.Ucx
