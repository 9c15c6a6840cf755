import Kucg.Algo.Kntree
import Kucg.Lib.TreeSignals
import Kucg.Ucx.OpLive

/-! The k-nomial fan-in of `barrier_meta.c`: a rank waits for all of its children and then tells its
    parent. Its messages have no contents. -/

namespace Kucg.Ucx

open Kucg.Core Kucg.Lib Kucg.Algo

variable {ι β : Type}

/-- The flags of the operation, a bit each. -/
structure FaninFlags where
  recvFromChild : Bool
  recvFromChildRecv : Bool
  sendToParent : Bool
  sendToParentSend : Bool

/-- `ucg_planc_ucx_op_t` of a k-nomial fan-in. -/
structure FaninKntreeOp where
  vgroup : VGroup
  status : Status
  id : ℕ
  flags : FaninFlags
  faninIter : KntreeIter

section Functions

/-- The loop of `ucg_planc_ucx_fanin_kntree_op_recv`. The fuel bounds the number of iterations; a
    rank has fewer children than there are ranks. -/
def faninKntreeOpRecvLoop : ℕ → FaninKntreeOp → Prog ι β (FaninKntreeOp × Status)
  | 0, op => pure (op, .inprogress)
  | fuel + 1, op =>
    match op.faninIter.child with
    | none => pure (op, .ok)
    | some peer => do
      let mut op := op
      if op.flags.recvFromChildRecv then
        op := { op with flags := { op.flags with recvFromChildRecv := false } }
        let status ← p2pIrecv [] (some peer) op.vgroup 0
        if status ≠ .ok then return (op, status)
      faninKntreeOpRecvLoop fuel { op with
        faninIter := op.faninIter.childInc
        flags := { op.flags with recvFromChildRecv := true } }

/-- `ucg_planc_ucx_fanin_kntree_op_recv`. -/
def faninKntreeOpRecv (op : FaninKntreeOp) : Prog ι β (FaninKntreeOp × Status) := do
  let (op, status) ← faninKntreeOpRecvLoop (op.faninIter.size + 1) op
  if status ≠ .ok then return (op, status)
  let status ← p2pTestall
  return (op, status)

/-- `ucg_planc_ucx_fanin_kntree_op_send`. -/
def faninKntreeOpSend (op : FaninKntreeOp) : Prog ι β (FaninKntreeOp × Status) :=
  match op.faninIter.parent with
  | none => pure (op, .ok)
  | some peer => do
    let mut op := op
    if op.flags.sendToParentSend then
      op := { op with flags := { op.flags with sendToParentSend := false } }
      let status ← p2pIsend [] (some peer) op.vgroup
      if status ≠ .ok then return (op, status)
    let status ← p2pTestall
    return (op, status)

/-- Step 1 of `ucg_planc_ucx_fanin_kntree_op_progress`. -/
def faninKntreeOpFromChildren (op : FaninKntreeOp) : Prog ι β (FaninKntreeOp × Status) := do
  if op.flags.recvFromChild then
    let (op, status) ← faninKntreeOpRecv op
    if status ≠ .ok then return (op, status)
    return ({ op with flags := { op.flags with recvFromChild := false } }, .ok)
  else return (op, .ok)

/-- Step 2. -/
def faninKntreeOpToParent (op : FaninKntreeOp) : Prog ι β (FaninKntreeOp × Status) := do
  if op.flags.sendToParent then
    let (op, status) ← faninKntreeOpSend op
    if status ≠ .ok then return (op, status)
    return ({ op with flags := { op.flags with sendToParent := false } }, .ok)
  else return (op, .ok)

/-- `ucg_planc_ucx_fanin_kntree_op_progress`. -/
def faninKntreeOpProgress (op : FaninKntreeOp) : Prog ι β (FaninKntreeOp × Status) := do
  let (op, status) ← faninKntreeOpFromChildren op
  if status ≠ .ok then return ({ op with status := status }, status)
  let (op, status) ← faninKntreeOpToParent op
  return ({ op with status := status }, status)

/-- What `ucg_planc_ucx_fanin_kntree_op_trigger` sets. -/
def FaninKntreeOp.start (op : FaninKntreeOp) (id : ℕ) : FaninKntreeOp :=
  { op with
    id := id
    status := .inprogress
    faninIter := op.faninIter.reset
    flags := ⟨true, true, true, true⟩ }

/-- `ucg_planc_ucx_fanin_kntree_op_trigger`. -/
def faninKntreeOpTrigger (op : FaninKntreeOp) (id : ℕ) : Prog ι β (FaninKntreeOp × Status) := do
  let (op, status) ← faninKntreeOpProgress (op.start id)
  return (op, if status = .inprogress then .ok else status)

/-- The trigger and progress functions of the operation. -/
def faninKntreeFuncs : OpFuncs (Prog ι β) FaninKntreeOp where
  trigger := faninKntreeOpTrigger
  progress := faninKntreeOpProgress

/-- `ucg_planc_ucx_fanin_kntree_op_new`, when there is memory. -/
def faninKntreeOpNew (vgroup : VGroup) (kntreeDegree : ℕ) : FaninKntreeOp where
  vgroup := vgroup
  status := .ok
  id := 0
  flags := ⟨false, false, false, false⟩
  faninIter := KntreeIter.init vgroup.size kntreeDegree 0 vgroup.myrank false

end Functions

/-! ### The schedule -/

section Exec

variable (vgroup : VGroup) (up : Option ℕ) (kids : List ℕ)

/-- What a rank does when all of its children have been heard. -/
def faninTail : Sched ι β :=
  match up with
  | none => []
  | some peer => [.send (vgroup.rankMap peer) [], .wait]

/-- What a rank with the parent `up` and the children `kids` does. -/
def faninCmds : Sched ι β :=
  kids.map (fun peer => .recv 0 (vgroup.rankMap peer) []) ++ .wait :: faninTail vgroup up

/-- What does not change once all receives have been posted. -/
structure FaninKeeps (op : FaninKntreeOp) : Prop where
  vgroup_eq : op.vgroup = vgroup
  parent_eq : op.faninIter.parent = up
  child_eq : op.faninIter.child = none

/-- Between calls a rank waits for its children, or for its message to its parent, or is done. -/
inductive FaninRel : FaninKntreeOp → Sched ι β → Prop
  | hears {op : FaninKntreeOp} (h : FaninKeeps vgroup up op) (hrecv : op.flags.recvFromChild = true)
      (hsend : op.flags.sendToParent = true ∧ op.flags.sendToParentSend = true) :
      FaninRel op (.wait :: faninTail vgroup up)
  | tells {op : FaninKntreeOp} {peer : ℕ} (h : FaninKeeps vgroup up op) (hup : up = some peer)
      (hrecv : op.flags.recvFromChild = false)
      (hsend : op.flags.sendToParent = true ∧ op.flags.sendToParentSend = false) :
      FaninRel op [.wait]
  | idle {op : FaninKntreeOp} (h : FaninKeeps vgroup up op) (hrecv : op.flags.recvFromChild = false)
      (hsend : op.flags.sendToParent = false) : FaninRel op []

variable {vgroup up kids}

theorem FaninKeeps.setStatus {op : FaninKntreeOp} (h : FaninKeeps vgroup up op) (st : Status) :
    FaninKeeps vgroup up { op with status := st } := ⟨h.vgroup_eq, h.parent_eq, h.child_eq⟩

/-- The loop posts a receive from each child. -/
theorem exec_faninLoop {K : Bool → FaninKntreeOp × Status → Sched ι β → Prop} {rest : Sched ι β} :
    ∀ {kids : List ℕ} {fuel : ℕ} {op : FaninKntreeOp} {moved : Bool}, kids.length < fuel →
      (kids ≠ [] → op.flags.recvFromChildRecv = true) → op.faninIter.Yields kids →
      (∀ (moved : Bool) (iter : KntreeIter), iter.toKntreeBase = op.faninIter.toKntreeBase →
        iter.child = none → K moved ({ op with faninIter := iter }, .ok) rest) →
      (faninKntreeOpRecvLoop fuel op).Exec K moved
        (kids.map (fun peer => .recv 0 (op.vgroup.rankMap peer) []) ++ rest)
  | _, 0, _, _, hfuel, _, _, _ => absurd hfuel (Nat.not_lt_zero _)
  | [], fuel + 1, op, moved, _, _, hyields, hK => by
    rw [KntreeIter.Yields] at hyields
    rw [faninKntreeOpRecvLoop, hyields]
    exact hK moved op.faninIter rfl hyields
  | peer :: kids, fuel + 1, op, moved, hfuel, hflag, ⟨hchild, hyields⟩, hK => by
    rw [faninKntreeOpRecvLoop, hchild]
    dsimp only
    have hflag := hflag (List.cons_ne_nil _ _)
    rw [if_pos hflag, exec_bind]
    refine exec_irecv_cons rfl rfl ?_
    rw [if_neg (by decide)]
    refine exec_faninLoop (Nat.lt_of_succ_lt_succ hfuel) (fun _ => rfl) hyields
      fun moved iter hbase hend => ?_
    have hflags : ({ op.flags with recvFromChildRecv := true } : FaninFlags) = op.flags := by
      rw [← hflag]
    dsimp only
    rw [hflags]
    exact hK moved iter (hbase.trans (KntreeIter.childInc_base _)) hend

/-- Where a call leaves off. -/
def FaninLeaf (vgroup : VGroup) (up : Option ℕ) (moved : Bool) (res : FaninKntreeOp × Status)
    (cs : Sched ι β) : Prop :=
  res.2 = res.1.status ∧ OpLeaf FaninKntreeOp.status (FaninRel vgroup up) moved res.1 cs

/-- Step 2 and the end of a call, when the message to the parent has not been posted. -/
theorem exec_faninToParent {op : FaninKntreeOp} {moved : Bool} (h : FaninKeeps vgroup up op)
    (hrecv : op.flags.recvFromChild = false)
    (hsend : op.flags.sendToParent = true ∧ op.flags.sendToParentSend = true) :
    (faninKntreeOpToParent op).Exec (fun moved res cs =>
      FaninLeaf vgroup up moved ({ res.1 with status := res.2 }, res.2) cs) moved
        (faninTail vgroup up : Sched ι β) := by
  obtain ⟨rfl, hparent, hchild⟩ := h
  rw [faninKntreeOpToParent, if_pos hsend.1, exec_bind, faninKntreeOpSend, hparent]
  cases up with
  | none => exact ⟨rfl, .idle ⟨rfl, hparent, hchild⟩ hrecv rfl, Or.inr ⟨rfl, rfl⟩⟩
  | some peer =>
    dsimp only
    rw [if_pos hsend.2, exec_bind]
    refine exec_isend_cons rfl rfl ?_
    rw [if_neg (by decide), exec_bind]
    refine exec_testall_wait ?_ ?_
    · exact ⟨rfl, .tells ⟨rfl, hparent, hchild⟩ rfl hrecv ⟨hsend.1, rfl⟩,
        Or.inl ⟨rfl, rfl, trivial⟩⟩
    · exact ⟨rfl, .idle ⟨rfl, hparent, hchild⟩ hrecv rfl, Or.inr ⟨rfl, rfl⟩⟩

/-- A progress call from step 1, when the receives from `kids` have not been posted. -/
theorem exec_faninFromChildren {op : FaninKntreeOp} {moved : Bool} (hvgroup : op.vgroup = vgroup)
    (hparent : op.faninIter.parent = up) (hyields : op.faninIter.Yields kids)
    (hlen : kids.length ≤ op.faninIter.size) (hrecv : op.flags.recvFromChild = true)
    (hflag : kids ≠ [] → op.flags.recvFromChildRecv = true)
    (hsend : op.flags.sendToParent = true ∧ op.flags.sendToParentSend = true) :
    (faninKntreeOpProgress op).Exec (FaninLeaf vgroup up) moved
      (faninCmds vgroup up kids : Sched ι β) := by
  subst hvgroup
  rw [faninKntreeOpProgress, exec_bind, faninKntreeOpFromChildren, if_pos hrecv, exec_bind,
    faninKntreeOpRecv, exec_bind, faninCmds]
  refine exec_faninLoop (Nat.lt_succ_of_le hlen) hflag hyields fun moved iter hbase hend => ?_
  have hkeeps : FaninKeeps op.vgroup up { op with faninIter := iter } :=
    ⟨rfl, (congrArg KntreeBase.parent hbase).trans hparent, hend⟩
  dsimp only
  rw [if_neg (by decide), exec_bind]
  refine exec_testall_wait ?_ ?_
  · exact ⟨rfl, .hears (hkeeps.setStatus _) hrecv hsend, Or.inl ⟨rfl, rfl, trivial⟩⟩
  · simp only [exec_pure, ne_eq, not_true_eq_false, if_false, exec_bind]
    exact exec_faninToParent ⟨rfl, hkeeps.parent_eq, hend⟩ rfl hsend

/-- The operation executes its schedule. -/
theorem fanin_runs_of {op : FaninKntreeOp} (hvgroup : op.vgroup = vgroup)
    (hparent : op.faninIter.reset.parent = up) (hyields : op.faninIter.reset.Yields kids)
    (hlen : kids.length ≤ op.faninIter.reset.size) (id : ℕ) :
    OpRuns (faninKntreeFuncs : OpFuncs (Prog ι β) FaninKntreeOp) FaninKntreeOp.status id op
      (FaninRel vgroup up) (faninCmds vgroup up kids) where
  trigger := by
    change (faninKntreeOpTrigger op id).Exec _ _ _
    rw [faninKntreeOpTrigger, exec_bind]
    have hstart : (faninKntreeOpProgress (op.start id)).Exec (FaninLeaf vgroup up) true
        (faninCmds vgroup up kids : Sched ι β) :=
      exec_faninFromChildren hvgroup hparent hyields hlen rfl (fun _ => rfl) ⟨rfl, rfl⟩
    exact hstart.imp fun moved res cs h => h.2
  progress op cs hrel := by
    change (faninKntreeOpProgress op).Exec (FaninLeaf vgroup up) _ _
    cases hrel with
    | hears h hrecv hsend =>
      exact @exec_faninFromChildren ι β vgroup up [] op false h.vgroup_eq h.parent_eq h.child_eq
        (Nat.zero_le _) hrecv (absurd rfl) hsend
    | tells h hup hrecv hsend =>
      subst hup
      obtain ⟨rfl, hparent, hchild⟩ := h
      rw [faninKntreeOpProgress, faninKntreeOpFromChildren, if_neg (by rw [hrecv]; decide)]
      simp only [exec_bind, exec_pure, ne_eq, not_true_eq_false, if_false]
      rw [faninKntreeOpToParent, if_pos hsend.1, faninKntreeOpSend, hparent]
      simp only [hsend.2, Bool.false_eq_true, if_false, exec_bind]
      refine exec_testall_wait ?_ ?_
      · exact ⟨rfl, .tells ⟨rfl, hparent, hchild⟩ rfl hrecv hsend, Or.inl ⟨rfl, rfl, trivial⟩⟩
      · exact ⟨rfl, .idle ⟨rfl, hparent, hchild⟩ hrecv rfl, Or.inr ⟨rfl, rfl⟩⟩
    | idle h hrecv hsend =>
      rw [faninKntreeOpProgress, faninKntreeOpFromChildren, if_neg (by rw [hrecv]; decide)]
      simp only [exec_bind, exec_pure, ne_eq, not_true_eq_false, if_false]
      rw [faninKntreeOpToParent, if_neg (by rw [hsend]; decide)]
      exact ⟨rfl, .idle (h.setStatus _) hrecv hsend, Or.inr ⟨rfl, rfl⟩⟩

/-- A call that finds nothing in flight posts a message or is the last one. -/
theorem busy_faninProgress {op : FaninKntreeOp} {cs : Sched ι β} (h : FaninRel vgroup up op cs) :
    (faninKntreeOpProgress op : Prog ι β _).Busy fun res => res.1.status ≠ .inprogress := by
  have hparent {op : FaninKntreeOp} :
      (faninKntreeOpToParent op : Prog ι β _).Busy fun res => res.2 = .ok := by
    rw [faninKntreeOpToParent, faninKntreeOpSend]
    split_ifs
    · cases op.faninIter.parent with
      | none => simp
      | some peer =>
        dsimp only
        split_ifs <;> simp
    · rfl
  have hrest {op : FaninKntreeOp}
      (h : (faninKntreeOpFromChildren op : Prog ι β _).Busy fun res => res.2 = .ok) :
      (faninKntreeOpProgress op : Prog ι β _).Busy fun res => res.1.status ≠ .inprogress := by
    rw [faninKntreeOpProgress, busy_bind]
    refine h.imp ?_
    rintro ⟨op, st⟩ ⟨rfl : st = .ok⟩
    simp only [ne_eq, not_true_eq_false, if_false, busy_bind]
    exact hparent.imp fun res hres => by simp [hres]
  refine hrest ?_
  cases h with
  | hears h hrecv hsend =>
    rw [faninKntreeOpFromChildren, if_pos hrecv, faninKntreeOpRecv, faninKntreeOpRecvLoop,
      h.child_eq]
    simp
  | tells h hup hrecv hsend | idle h hrecv hsend =>
    rw [faninKntreeOpFromChildren, if_neg (by rw [hrecv]; decide)]
    rfl

end Exec

/-! ### The tree -/

section Tree

/-- The tree of a fan-in. -/
noncomputable def faninParent (n degree : ℕ) : ℕ → ℕ :=
  kntreeParent (KntreeIter.initDegree n degree)

noncomputable def faninChildren (n degree v : ℕ) : List ℕ :=
  KntreeIter.childrenOf n (KntreeIter.initDegree n degree) v false

theorem rankTree_fanin {n degree : ℕ} (hn : 2 ≤ n) :
    RankTree n (faninParent n degree) (faninChildren n degree) :=
  KntreeIter.rankTree_kntree (KntreeIter.one_lt_initDegree hn)

variable {vgroup : VGroup} {kntreeDegree : ℕ} {known : ℕ → Set ℕ}

/-- The operation executes the signals of its rank in the tree. -/
theorem fanin_runs (hsize : 2 ≤ vgroup.size) (hv : vgroup.myrank < vgroup.size) (id : ℕ) :
    ∃ up, OpRuns (faninKntreeFuncs : OpFuncs (Prog ι β) FaninKntreeOp) FaninKntreeOp.status id
      (faninKntreeOpNew vgroup kntreeDegree) (FaninRel vgroup up)
      ((upSignals vgroup.size (faninParent vgroup.size kntreeDegree)
        (faninChildren vgroup.size kntreeDegree) known vgroup.myrank).map
          (Signal.cmd vgroup.rankMap)) := by
  obtain ⟨-, hparent, hyields, hlen⟩ :=
    @KntreeIter.reset_root_zero _ kntreeDegree false _ hsize hv
  have hcmds : (upSignals vgroup.size (faninParent vgroup.size kntreeDegree)
      (faninChildren vgroup.size kntreeDegree) known vgroup.myrank).map
        (Signal.cmd vgroup.rankMap) = (faninCmds vgroup (if vgroup.myrank = 0 then none
          else some (faninParent vgroup.size kntreeDegree vgroup.myrank))
            (faninChildren vgroup.size kntreeDegree vgroup.myrank) : Sched ι β) := by
    rw [upSignals, faninCmds, List.map_append, List.map_cons, List.map_map]
    split_ifs <;> rfl
  rw [hcmds]
  exact ⟨_, fanin_runs_of rfl hparent hyields hlen id⟩

/-- The messages of rank `v`. -/
noncomputable def faninTrace (n degree : ℕ) (known : ℕ → Set ℕ) : ℕ → List (Event β) :=
  upTrace n (faninParent n degree) (faninChildren n degree) fun v =>
    ([], treeKnow n (faninParent n degree) known v)

/-- The operation obeys its trace, and learns what is known below its rank. -/
theorem fanin_obeys [DecidableEq ι] (hsize : 2 ≤ vgroup.size) (hv : vgroup.myrank < vgroup.size)
    (id : ℕ) {m : ι → β} {k : Set ℕ} (hknow : known vgroup.myrank ⊆ k) :
    ∃ inv, Obeys faninKntreeFuncs FaninKntreeOp.status id (faninKntreeOpNew vgroup kntreeDegree) inv
      (fun _ k => treeKnow vgroup.size (faninParent vgroup.size kntreeDegree) known
        vgroup.myrank ⊆ k)
      ⟨m, [], (faninTrace vgroup.size kntreeDegree known vgroup.myrank).map
        (Event.mapPeer vgroup.rankMap), k⟩ := by
  obtain ⟨up, hruns⟩ := @fanin_runs ι β vgroup kntreeDegree known hsize hv id
  refine ⟨_, hruns.obeys stable_knows
    (Sound.wp (sound_upSignals (rankTree_fanin hsize) vgroup.myrank) hknow ?_)⟩
  rw [signalTrace_upSignals hv]
  rfl

theorem fanin_lively (hsize : 2 ≤ vgroup.size) (hv : vgroup.myrank < vgroup.size) (id : ℕ) :
    OpLively (faninKntreeFuncs : OpFuncs (Prog ι β) FaninKntreeOp) FaninKntreeOp.status id
      (faninKntreeOpNew vgroup kntreeDegree) := by
  obtain ⟨up, hruns⟩ := @fanin_runs ι β vgroup kntreeDegree (fun _ => ∅) hsize hv id
  exact hruns.lively fun _ _ h => busy_faninProgress h

end Tree

end Kucg.Ucx
