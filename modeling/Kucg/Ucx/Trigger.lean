import Kucg.Core.MetaOp
import Kucg.Core.Request

/-! The life cycle of the requests of the UCX plans.

    The `trigger` functions of all plan operations under `planc/ucx` are a handful of patterns
    around one pass over the operation's `progress` function, which always ends by storing the
    status it returns. What such a pass does is left open here: it ends with the status that the
    point-to-point calls, reductions and allocations made in it lead to (`LeafIn.pass`). -/

namespace Kucg.Ucx

open Kucg.Core

/-- The plan operations of `planc/ucx`, by the prefix of their `trigger` function. -/
inductive UcxOp where
  | allgathervBruck | allgathervLinear | allgathervNaRollingInter | allgathervNaRollingIntra
  | allgathervNeighbor | allgathervRing | allgathervRingHpl
  | allreduceReduceScatter | allreduceAllgatherv | allreduceRd | allreduceRing
  | faninKntree | barrierRd
  | bcastInc2RingM | bcastIncRingM | bcastKntree | bcastLong | bcastLongM | bcastAdjustRoot
  | bcastRing | bcastVanDeGeijn
  | gathervLinear | reduceKntree
  | scattervKntree | scattervLinear | scattervNaKntree
  | empty
  deriving DecidableEq, Repr

/-- How a `trigger` function gets to its first pass over `progress`. -/
inductive TriggerKind where
  /-- no copy -/
  | plain
  /-- a copy; if it fails, `goto out` -/
  | copyGoto
  /-- a copy or an allocation; if it fails, `return status` -/
  | copyReturn
  /-- `allreduce_ring`: the status of the copy is not looked at -/
  | ring
  /-- `allgatherv_ring_hpl`: the status of the copy is overwritten by that of the first pass -/
  | ringHpl
  /-- no pass at all -/
  | empty

/-- The `trigger` function of each operation. -/
def UcxOp.kind : UcxOp → TriggerKind
  | allgathervBruck | allgathervLinear | allgathervNaRollingInter | allgathervRing => .copyGoto
  | allgathervNeighbor | allreduceReduceScatter | allreduceRd | reduceKntree | scattervNaKntree =>
    .copyReturn
  | allreduceRing => .ring
  | allgathervRingHpl => .ringHpl
  | allgathervNaRollingIntra | allreduceAllgatherv | faninKntree | barrierRd | bcastInc2RingM
  | bcastIncRingM | bcastKntree | bcastLong | bcastLongM | bcastAdjustRoot | bcastRing
  | bcastVanDeGeijn | gathervLinear | scattervKntree | scattervLinear => .plain
  | empty => .empty

/-- What the `trigger` function looks at: whether it copies data before its first pass (the send
    buffer is not `UCG_IN_PLACE`, and the role of the rank asks for it), and the group size. -/
structure LeafState where
  op : UcxOp
  copies : Bool
  size : ℕ

/-- What the calls made inside return: the allocation and the data copies of `trigger`, the first
    that is not `UCG_OK` deciding, and a pass over `progress`. -/
structure LeafIn where
  copy : Status
  pass : Status

/-- `ucg_planc_ucx_op_reset`. -/
def opReset (op : PlanOp LeafState) : PlanOp LeafState := { op with status := .inprogress }

/-- `status == UCG_INPROGRESS ? UCG_OK : status`. -/
def startStatus (status : Status) : Status := if status = .inprogress then .ok else status

/-- The pass over `progress` at the end of `trigger`. -/
def firstPass (i : LeafIn) (op : PlanOp LeafState) : PlanOp LeafState × Status :=
  ({ op with status := i.pass }, startStatus i.pass)

/-- The `trigger` functions. -/
def leafTrigger (i : LeafIn) (op : PlanOp LeafState) : PlanOp LeafState × Status :=
  match op.state.op.kind with
  | .plain => firstPass i (opReset op)
  | .copyGoto =>
    if op.state.copies ∧ i.copy ≠ .ok then (opReset op, startStatus i.copy)
    else firstPass i (opReset op)
  | .copyReturn =>
    if op.state.copies ∧ i.copy ≠ .ok then (opReset op, i.copy) else firstPass i (opReset op)
  | .ring =>
    -- a group of one rank is done after the copy
    if op.state.copies ∧ op.state.size = 1 then ({ opReset op with status := .ok }, .ok)
    else firstPass i (opReset op)
  | .ringHpl => firstPass i (opReset op)
  | .empty => ({ opReset op with status := .ok }, .ok)

/-- The status with which a pass over `progress` ends. -/
def passStatus (i : LeafIn) (op : UcxOp) : Status := if op = .empty then .ok else i.pass

/-- The `progress` functions: the status at the end is stored and returned. -/
def leafProgress (i : LeafIn) (op : PlanOp LeafState) : PlanOp LeafState × Status :=
  ({ op with status := passStatus i op.state.op }, passStatus i op.state.op)

/-- A plan's operation: one of the above, or a meta-operation of some of them. -/
inductive UcxState where
  | leaf (s : LeafState)
  | metaOp (ops : List (PlanOp LeafState)) (nCompletedOps : ℕ) (triggered : Bool)

/-- What the calls inside one call of the API return: in the `trigger` function of an operation,
    and in the `progress` function called after it or on its own. -/
structure UcxIn where
  trigger : LeafIn
  progress : LeafIn

/-- The sub-operations of a meta-operation. -/
def leafFuncs (e : UcxIn) : OpFuncs Id (PlanOp LeafState) where
  trigger op id := leafTrigger e.trigger { op with id := id }
  progress op := leafProgress e.progress op

/-- Store the leaf operation that `op` embeds. -/
def storeLeaf (op : PlanOp UcxState) (r : PlanOp LeafState × Status) : PlanOp UcxState × Status :=
  ({ op with status := r.1.status, id := r.1.id, state := .leaf r.1.state }, r.2)

/-- Store the meta-operation that `op` embeds. -/
def storeMeta (op : PlanOp UcxState) (r : MetaOp (PlanOp LeafState) × Status) :
    PlanOp UcxState × Status :=
  ({ op with
      status := r.1.status
      id := r.1.id
      state := .metaOp r.1.ops r.1.nCompletedOps r.1.triggered }, r.2)

/-- The entry points of every operation of a UCX plan. -/
def ucxFuncs : PlanFuncs UcxIn UcxState where
  trigger e op :=
    match op.state with
    | .leaf s => storeLeaf op (leafTrigger e.trigger ⟨op.status, op.id, op.group, s⟩)
    | .metaOp ops n t =>
      storeMeta op (Id.run (metaOpTrigger (leafFuncs e) ⟨ops, n, t, op.status, op.id⟩))
  progress e op :=
    match op.state with
    | .leaf s => storeLeaf op (leafProgress e.progress ⟨op.status, op.id, op.group, s⟩)
    | .metaOp ops n t =>
      storeMeta op (Id.run (metaOpProgress (leafFuncs e) ⟨ops, n, t, op.status, op.id⟩))

/-! ### One lemma for each function -/

theorem leafTrigger_frame (i : LeafIn) (op : PlanOp LeafState) :
    (leafTrigger i op).1.id = op.id ∧ (leafTrigger i op).1.state = op.state := by
  unfold leafTrigger
  split <;> (try split) <;> exact ⟨rfl, rfl⟩

/-- `metaOpProgress` on these operations: which sub-operation it leaves, and the status that its
    `progress` returned. -/
theorem metaOpProgress_leaf (e : UcxIn) (op : MetaOp (PlanOp LeafState)) :
    (op.ops[op.nCompletedOps]? = none ∧ metaOpProgress (leafFuncs e) op = pure (op, op.status)) ∨
    ∃ cur ops, op.ops[op.nCompletedOps]? = some cur ∧ metaOpProgress (leafFuncs e) op =
      pure (metaOpAdvance { op with ops := ops, triggered := true }
        (passStatus e.progress cur.state.op)) := by
  unfold metaOpProgress
  cases hget : op.ops[op.nCompletedOps]? with
  | none => exact Or.inl ⟨rfl, rfl⟩
  | some cur =>
    cases op.triggered with
    | false =>
      have hpass : passStatus e.progress cur.state.op = passStatus e.progress
          (leafTrigger e.trigger { cur with id := op.id }).1.state.op := by
        rw [(leafTrigger_frame e.trigger { cur with id := op.id }).2]
      refine Or.inr ⟨cur, op.ops.set op.nCompletedOps
        (leafProgress e.progress (leafTrigger e.trigger { cur with id := op.id }).1).1, rfl, ?_⟩
      rw [hpass]
      rfl
    | true =>
      exact Or.inr ⟨cur, op.ops.set op.nCompletedOps (leafProgress e.progress cur).1, rfl, rfl⟩

theorem metaOpProgress_run (e : UcxIn) (op : MetaOp (PlanOp LeafState)) :
    (Id.run (metaOpProgress (leafFuncs e) op)).2 =
      (Id.run (metaOpProgress (leafFuncs e) op)).1.status ∧
    (Id.run (metaOpProgress (leafFuncs e) op)).1.id = op.id := by
  rcases metaOpProgress_leaf e op with ⟨-, h⟩ | ⟨cur, ops, -, h⟩
  · rw [h]
    exact ⟨rfl, rfl⟩
  · rw [h]
    exact ⟨metaOpAdvance_status _ _, metaOpAdvance_id _ _⟩

theorem metaOpTrigger_id (e : UcxIn) (op : MetaOp (PlanOp LeafState)) :
    (Id.run (metaOpTrigger (leafFuncs e) op)).1.id = op.id := by
  unfold metaOpTrigger
  split
  · rfl
  · exact (metaOpProgress_run e { op with status := .inprogress, nCompletedOps := 0 }).2

theorem ucxFuncs_lawful : ucxFuncs.Lawful where
  progress_status e op := by
    unfold ucxFuncs
    dsimp only
    split
    · rfl
    · exact (metaOpProgress_run e _).1
  progress_id e op := by
    unfold ucxFuncs
    dsimp only
    split
    · rfl
    · exact (metaOpProgress_run e _).2
  trigger_id e op := by
    unfold ucxFuncs
    dsimp only
    split
    · exact (leafTrigger_frame e.trigger _).1
    · exact metaOpTrigger_id e _

/-! ### When a start succeeds -/

/-- Nothing that `trigger` calls and looks at the status of fails. -/
def LeafIn.Succeeds (i : LeafIn) (s : LeafState) : Prop :=
  match s.op.kind with
  | .plain | .ringHpl => ¬i.pass.IsErr
  | .copyGoto => if s.copies ∧ i.copy ≠ .ok then i.copy = .inprogress else ¬i.pass.IsErr
  | .copyReturn => (s.copies → i.copy = .ok) ∧ ¬i.pass.IsErr
  | .ring => (s.copies ∧ s.size = 1) ∨ ¬i.pass.IsErr
  | .empty => True

/-- Nothing that the start of the operation calls and looks at the status of fails; a
    meta-operation looks at the `progress` of its first sub-operation only. -/
def UcxIn.Succeeds (e : UcxIn) : UcxState → Prop
  | .leaf s => e.trigger.Succeeds s
  | .metaOp [] _ _ => True
  | .metaOp (op :: _) _ _ => ¬(passStatus e.progress op.state.op).IsErr

theorem startStatus_ok {st : Status} : startStatus st = .ok ↔ ¬st.IsErr := by
  cases st <;> simp [startStatus, Status.IsErr]

theorem leafTrigger_ok (i : LeafIn) (op : PlanOp LeafState) :
    (leafTrigger i op).2 = .ok ↔ i.Succeeds op.state := by
  unfold leafTrigger LeafIn.Succeeds
  cases op.state.op.kind with
  | plain => exact startStatus_ok
  | ringHpl => exact startStatus_ok
  | empty => exact ⟨fun _ => trivial, fun _ => rfl⟩
  | copyGoto =>
    dsimp only
    split
    · rename_i hcopy
      rw [startStatus_ok]
      exact ⟨fun h => by simpa [Status.IsErr, hcopy.2] using h, fun h herr => herr.2 h⟩
    · exact startStatus_ok
  | copyReturn =>
    dsimp only
    split
    · rename_i hcopy
      exact ⟨fun h => absurd h hcopy.2, fun h => absurd (h.1 hcopy.1) hcopy.2⟩
    · rename_i hcopy
      push Not at hcopy
      exact ⟨fun h => ⟨hcopy, startStatus_ok.mp h⟩, fun h => startStatus_ok.mpr h.2⟩
  | ring =>
    dsimp only
    split
    · rename_i hone
      exact ⟨fun _ => Or.inl hone, fun _ => rfl⟩
    · rename_i hone
      rw [or_iff_right hone]
      exact startStatus_ok

theorem metaOpAdvance_start (op : MetaOp (PlanOp LeafState)) (hst : op.status = .inprogress)
    (st : Status) : startStatus (metaOpAdvance op st).2 = .ok ↔ ¬st.IsErr := by
  unfold metaOpAdvance
  dsimp only
  split_ifs with h1 h2 h3
  · simp [h1, startStatus, Status.IsErr]
  · simp [h1, hst, startStatus, Status.IsErr]
  · exact startStatus_ok
  · simp [not_not.mp h3, hst, startStatus, Status.IsErr]

/-- The `trigger` function of an operation returns `UCG_OK` exactly if nothing fails. -/
theorem ucxTrigger_ok (e : UcxIn) (op : PlanOp UcxState) :
    (ucxFuncs.trigger e op).2 = .ok ↔ e.Succeeds op.state := by
  unfold ucxFuncs
  dsimp only
  split
  · rename_i s hs
    rw [hs]
    exact leafTrigger_ok e.trigger _
  · rename_i ops n t hs
    rw [hs]
    cases ops with
    | nil => exact ⟨fun _ => trivial, fun _ => rfl⟩
    | cons first ops =>
      have hprog := metaOpProgress_leaf e ⟨first :: ops, 0, t, .inprogress, op.id⟩
      rcases hprog with ⟨hnone, -⟩ | ⟨cur, ops', hcur, h⟩
      · exact absurd hnone (by simp)
      · obtain rfl : first = cur := by simpa using hcur
        have hrun : (Id.run
          (metaOpTrigger (leafFuncs e) ⟨first :: ops, n, t, op.status, op.id⟩)).2 =
            startStatus (Id.run (metaOpProgress (leafFuncs e)
              ⟨first :: ops, 0, t, .inprogress, op.id⟩)).2 := rfl
        rw [storeMeta, hrun, h]
        exact metaOpAdvance_start _ rfl _

/-! ### Runs -/

/-- The condition on a call: nothing that a start calls and looks at the status of fails. -/
def NoFailure (ctx : Context UcxState) (call : ReqCall UcxIn UcxState) : Prop :=
  ∀ e r req, call = .start e r → ctx.reqs r = some req → req.status = .ok → e.Succeeds req.state

theorem triggers_iff_noFailure (ctx : Context UcxState) (call : ReqCall UcxIn UcxState) :
    Triggers ucxFuncs ctx call ↔ NoFailure ctx call := by
  unfold Triggers NoFailure
  simp only [ucxTrigger_ok]

/-- In every run whose calls all meet the condition, the requests of all UCX plans are on the
    progress list exactly while they are in progress and have the base id exactly while they are
    not; and the next call keeps it so, and leaves a request whose start fails fit for cleanup,
    exactly when that call meets the condition, too. -/
theorem ucx_request_lifecycle (ctx : Context UcxState) (h : ReqRun ucxFuncs NoFailure ctx) :
    ctx.Ok ∧ ∀ call, CallOk ucxFuncs ctx call ↔ NoFailure ctx call := by
  have hI := reqRun_inv ucxFuncs_lawful (fun ctx call => (triggers_iff_noFailure ctx call).mpr) h
  exact ⟨hI.ok, fun call => (callOk_iff ucxFuncs_lawful hI call).trans (triggers_iff_noFailure ..)⟩

/-- One request for a ring allgatherv that copies its own block. -/
def ringContext : Context UcxState :=
  (requestInit 0 (.leaf ⟨.allgathervRing, true, 4⟩) 0 Context.init).1

/-- A successful copy and a first pass that waits for messages; the next pass completes. -/
def ringIn : UcxIn := ⟨⟨.ok, .inprogress⟩, ⟨.ok, .ok⟩⟩

theorem ucx_request_lifecycle_ring :
    ((ringContext.step ucxFuncs (.start ringIn 0)).step ucxFuncs
      (.progress fun _ => ringIn)).Ok := by
  have hinit : ReqRun ucxFuncs NoFailure ringContext := by
    have hcall : NoFailure Context.init (.init 0 (.leaf ⟨.allgathervRing, true, 4⟩) 0) :=
      fun _ _ _ h => by cases h
    exact .step _ .init hcall
  have hstart : ReqRun ucxFuncs NoFailure (ringContext.step ucxFuncs (.start ringIn 0)) := by
    refine .step _ hinit fun e r req h hr _ => ?_
    obtain ⟨rfl, rfl⟩ := ReqCall.start.inj h
    obtain rfl := Option.some.inj hr
    show ¬(Status.inprogress).IsErr
    decide
  exact (ucx_request_lifecycle _ (.step (.progress fun _ => ringIn) hstart
    fun _ _ _ h => by cases h)).1

/-- The copy of the own block fails for lack of a resource. -/
def failedCopy : UcxIn := ⟨⟨.errNoResource, .inprogress⟩, ⟨.ok, .ok⟩⟩

/-- The start returns the error, but the request has status `UCG_INPROGRESS`, is not on the list,
    keeps the new id, and cannot be cleaned up. -/
theorem ucx_request_stuck :
    (requestStart ucxFuncs failedCopy 0 ringContext).2 = .errNoResource ∧
    (ringContext.step ucxFuncs (.start failedCopy 0)).plist = [] ∧
    ((ringContext.step ucxFuncs (.start failedCopy 0)).reqs 0).map
      (fun req => (req.status, req.id)) =
      some (.inprogress, groupBaseReqId + 1) ∧
    (requestCleanup 0 (ringContext.step ucxFuncs (.start failedCopy 0))).2 = .inprogress ∧
    ¬CallOk ucxFuncs ringContext (.start failedCopy 0) := by
  refine ⟨rfl, rfl, rfl, rfl, fun h => ?_⟩
  have hclean := h.2 failedCopy 0 _ rfl rfl (by decide)
  exact absurd (hclean.symm.trans (rfl : _ = Status.inprogress)) (by decide)

end Kucg.Ucx
