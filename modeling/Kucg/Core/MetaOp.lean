import Mathlib.Tactic.SplitIfs
import Kucg.Core.Status

/-! The meta-operation of `ucg_plan.c`: a list of plan operations that are triggered and progressed
    one after another under one request.

    A plan operation is known here by its two entry points only. They run in a monad `M`, so the
    same code serves a log of the calls made and operations that post messages. -/

namespace Kucg.Core

/-- The `trigger` and `progress` pointers of `ucg_plan_op_t`, on operations of type `O`. `trigger`
    is given the request id that the caller has just stored in the operation. -/
structure OpFuncs (M : Type → Type) (O : Type) where
  trigger : O → ℕ → M (O × Status)
  progress : O → M (O × Status)

/-- `ucg_plan_meta_op_t`, with `status` and `id` of its request; `n_ops` is the length of `ops`. -/
structure MetaOp (O : Type) where
  ops : List O
  nCompletedOps : ℕ
  triggered : Bool
  status : Status
  id : ℕ
  deriving Repr

variable {M : Type → Type} [Monad M] {O : Type}

/-- `ucg_plan_meta_op_new` with the operations added since: a request is created with `UCG_OK`. -/
def metaOpNew (ops : List O) (id : ℕ) : MetaOp O := ⟨ops, 0, false, .ok, id⟩

/-- The end of `ucg_plan_meta_op_progress`, from the status that the sub-operation's `progress`
    returned. -/
def metaOpAdvance (metaOp : MetaOp O) (status : Status) : MetaOp O × Status :=
  if status = .ok then
    let metaOp := { metaOp with nCompletedOps := metaOp.nCompletedOps + 1, triggered := false }
    if metaOp.nCompletedOps = metaOp.ops.length then ({ metaOp with status := .ok }, .ok)
    else (metaOp, metaOp.status)
  else if status ≠ .inprogress then ({ metaOp with status := status }, status)
  else (metaOp, metaOp.status)

@[simp] theorem metaOpAdvance_ops (op : MetaOp O) (st : Status) :
    (metaOpAdvance op st).1.ops = op.ops := by
  unfold metaOpAdvance
  dsimp only
  split_ifs <;> rfl

@[simp] theorem metaOpAdvance_id (op : MetaOp O) (st : Status) :
    (metaOpAdvance op st).1.id = op.id := by
  unfold metaOpAdvance
  dsimp only
  split_ifs <;> rfl

/-- The status returned is the status stored. -/
theorem metaOpAdvance_status (op : MetaOp O) (st : Status) :
    (metaOpAdvance op st).2 = (metaOpAdvance op st).1.status := by
  unfold metaOpAdvance
  dsimp only
  split_ifs <;> rfl

/-- `ucg_plan_meta_op_progress`. The status of the sub-operation's `trigger` is stored in the
    variable that its `progress`, called in any case, overwrites. -/
def metaOpProgress (f : OpFuncs M O) (metaOp : MetaOp O) : M (MetaOp O × Status) :=
  match metaOp.ops[metaOp.nCompletedOps]? with
  | none => pure (metaOp, metaOp.status) -- past the array: not reached in a started operation
  | some currOp => do
    let (currOp, _) ← if metaOp.triggered then pure (currOp, Status.ok)
      else f.trigger currOp metaOp.id
    let (currOp, status) ← f.progress currOp
    pure (metaOpAdvance
      { metaOp with ops := metaOp.ops.set metaOp.nCompletedOps currOp, triggered := true } status)

/-- `ucg_plan_meta_op_trigger`. -/
def metaOpTrigger (f : OpFuncs M O) (metaOp : MetaOp O) : M (MetaOp O × Status) :=
  if metaOp.ops.length = 0 then pure ({ metaOp with status := .ok }, .ok)
  else do
    let (metaOp, status) ←
      metaOpProgress f { metaOp with status := .inprogress, nCompletedOps := 0 }
    pure (metaOp, if status = .inprogress then .ok else status)

end Kucg.Core
