import Kucg.Ucx.Allgatherv
import Kucg.Ucx.RingStep

/-! The ring allgatherv of `allgatherv_ring.c`. -/

namespace Kucg.Ucx

open Kucg.Core Kucg.Lib Kucg.Algo

variable {B β : Type}

/-- `ucg_planc_ucx_op_t` of the ring allgatherv. -/
structure AllgathervRingOp (B : Type) where
  vgroup : VGroup
  args : AllgathervArgs B
  status : Status
  id : ℕ
  ring : RingOp

section Functions

/-- `ucg_planc_ucx_allgatherv_ring_op_progress`. -/
def allgathervRingOpProgress (op : AllgathervRingOp B) :
    Prog (Addr B) β (AllgathervRingOp B × Status) := do
  let n := op.vgroup.size
  let (ring, status) ← ringProgress op.vgroup
    (fun stepIdx => op.args.blockCells (ringSendBlock n stepIdx op.vgroup.myrank))
    (fun stepIdx => op.args.blockCells (ringRecvBlock n stepIdx op.vgroup.myrank)) op.ring
  return ({ op with ring := ring, status := status }, status)

/-- `ucg_planc_ucx_allgatherv_ring_op_trigger`. -/
def allgathervRingOpTrigger (op : AllgathervRingOp B) (id : ℕ) :
    Prog (Addr B) β (AllgathervRingOp B × Status) := do
  let op := { op with id := id, status := .inprogress, ring := op.ring.reset }
  allgathervMemcpy op.args op.vgroup.myrank
  let (op, status) ← allgathervRingOpProgress op
  return (op, if status = .inprogress then .ok else status)

/-- The trigger and progress functions of the operation. -/
def allgathervRingFuncs : OpFuncs (Prog (Addr B) β) (AllgathervRingOp B) where
  trigger := allgathervRingOpTrigger
  progress := allgathervRingOpProgress

/-- `ucg_planc_ucx_allgatherv_ring_op_new`. -/
def allgathervRingOpNew (vgroup : VGroup) (args : AllgathervArgs B) : AllgathervRingOp B where
  vgroup := vgroup
  args := args
  status := .ok
  id := 0
  ring := ⟨RingIter.init vgroup.size vgroup.myrank, false, false⟩

end Functions

section Operation

variable (n r : ℕ) (args : AllgathervArgs B)

/-- The steps from the `k`-th on. -/
abbrev allgathervRingFrom (k : ℕ) : Sched (Addr B) β :=
  ringFrom ⟨n, r, fun q => q⟩ (RingIter.init n r) (fun k => args.blockCells (ringSendBlock n k r))
    (fun k => args.blockCells (ringRecvBlock n k r)) k ++ []

/-- Between calls the operation waits in a step, or it has come to its end. -/
inductive AllgathervRingRel : AllgathervRingOp B → Sched (Addr B) β → Prop
  | posted (id k : ℕ) (hk : k < n - 1) :
      AllgathervRingRel
        ⟨⟨n, r, fun q => q⟩, args, .inprogress, id,
          ⟨{ RingIter.init n r with idx := k }, false, false⟩⟩
        (.wait :: allgathervRingFrom n r args (k + 1))
  | done (id : ℕ) (ring : RingOp) (h : ring.iter = { RingIter.init n r with idx := n - 1 }) :
      AllgathervRingRel ⟨⟨n, r, fun q => q⟩, args, .ok, id, ring⟩ []

variable {n r args}

/-- Where the loop leaves a progress call. -/
theorem ringLeaf_allgatherv (id : ℕ) (st : Status) :
    RingLeaf ⟨n, r, fun q => q⟩ (RingIter.init n r)
      (fun k => args.blockCells (ringSendBlock n k r))
      (fun k => args.blockCells (ringRecvBlock n k r)) ([] : Sched (Addr B) β)
      fun moved res cs => (fun moved (res : AllgathervRingOp B × Status) cs =>
        res.2 = res.1.status ∧
          OpLeaf AllgathervRingOp.status (AllgathervRingRel n r args) moved res.1 cs) moved
        (({ (⟨⟨n, r, fun q => q⟩, args, st, id, res.1⟩ : AllgathervRingOp B) with
          status := res.2 } : AllgathervRingOp B), res.2) cs where
  done _ op hop := ⟨rfl, .done id op hop, Or.inr ⟨rfl, rfl⟩⟩
  posted k op hk hop := by
    subst hop
    exact ⟨rfl, .posted id k hk, Or.inl ⟨rfl, rfl, trivial⟩⟩

/-- The operation executes its schedule. -/
theorem allgathervRing_runs (id : ℕ) :
    OpRuns allgathervRingFuncs AllgathervRingOp.status id
      (allgathervRingOpNew ⟨n, r, fun q => q⟩ args) (AllgathervRingRel n r args)
      (allgathervCopy args r ++ allgathervRingFrom n r args 0 : Sched (Addr B) β) where
  trigger := by
    change (allgathervRingOpTrigger _ id).Exec _ _ _
    rw [allgathervRingOpTrigger]
    dsimp only
    rw [exec_bind]
    refine exec_allgathervMemcpy ?_
    rw [exec_bind, allgathervRingOpProgress, exec_bind]
    exact (exec_ringProgress_fresh (ringLeaf_allgatherv id .inprogress) true).imp
      fun moved res cs h => h.2
  progress op cs hrel := by
    change (allgathervRingOpProgress op).Exec _ _ _
    cases hrel with
    | posted id k hk =>
      rw [allgathervRingOpProgress, exec_bind]
      exact exec_ringProgress_posted (ringLeaf_allgatherv id .inprogress) hk false
    | done id ring h =>
      rw [allgathervRingOpProgress, exec_bind, ringProgress,
        ringLoop_end (by rw [h]; exact lt_irrefl _)]
      exact ⟨rfl, .done id ring h, Or.inr ⟨rfl, rfl⟩⟩

/-- The schedule is that of the ring, on the bytes of the blocks. -/
theorem expand_ringRounds : Sched.expand args.blockCells (fun q => q)
    ((ringRounds n).flatMap fun R => (R r : Sched ℕ β)) = allgathervRingFrom n r args 0 := by
  rw [expand_flatMap, ringRounds, List.flatMap_map, allgathervRingFrom, List.append_nil, ringFrom,
    Nat.sub_zero, ← List.range_eq_range']
  refine List.flatMap_congr fun k _ => ?_
  simp [ringRound, Cmd.expand, RingIter.init]

end Operation

section Runs

variable [DecidableEq B]

/-- The ring allgathervs of all ranks. -/
def allgathervRingProc (n : ℕ) (args : ℕ → AllgathervArgs B) (id r : ℕ) :
    Proc (Addr B) β (AllgathervRingOp B) :=
  opProc allgathervRingFuncs AllgathervRingOp.status
    (allgathervRingOpNew ⟨n, r, fun q => q⟩ (args r)) id

end Runs

end Kucg.Ucx
