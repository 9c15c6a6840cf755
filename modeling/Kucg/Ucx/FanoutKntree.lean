import Kucg.Lib.TreeSignals
import Kucg.Ucx.BcastKntree

/-! The k-nomial fan-out of `barrier_meta.c`: the k-nomial broadcast of an empty buffer from the
    first rank of a group, as a schedule of signals. -/

namespace Kucg.Ucx

open Kucg.Core Kucg.Lib Kucg.Algo

variable {B β : Type}

section Exec

variable (vgroup : VGroup) (args : BcastArgs B) (up : Option ℕ) (kids : List ℕ)

/-- What a rank does that has the buffer. -/
def fanoutSends : Sched (Cell B) β :=
  kids.map (fun peer => .send (vgroup.rankMap peer) (span args.buffer args.count)) ++ [.wait]

/-- What a rank with the parent `up` and the children `kids` does. -/
def fanoutCmds : Sched (Cell B) β :=
  match up with
  | none => fanoutSends vgroup args kids
  | some peer => .recv 0 (vgroup.rankMap peer) (span args.buffer args.count) :: .wait ::
      fanoutSends vgroup args kids

/-- Between calls a rank waits for its parent, or has nothing left to post. -/
inductive FanoutRel : BcastKntreeOp B → Sched (Cell B) β → Prop
  | hears {op : BcastKntreeOp B} {peer : ℕ} (h : BcastKeeps vgroup args up op)
      (hup : up = some peer) (hyields : op.kntreeIter.Yields kids)
      (hlen : kids.length ≤ op.kntreeIter.size)
      (hflag : op.flags.recvFromParent = true ∧ op.flags.recvFromParentRecv = false) :
      FanoutRel op (.wait :: fanoutSends vgroup args kids)
  | sent {op : BcastKntreeOp B} {cs : Sched (Cell B) β} (h : BcastKeeps vgroup args up op)
      (hchild : op.kntreeIter.child = none) (hflag : op.flags.recvFromParent = false)
      (hcs : cs = [.wait] ∨ cs = []) : FanoutRel op cs

variable {vgroup args up kids}

/-- Where a call leaves off. -/
def FanoutLeaf (vgroup : VGroup) (args : BcastArgs B) (up : Option ℕ) (kids : List ℕ) (moved : Bool)
    (res : BcastKntreeOp B × Status) (cs : Sched (Cell B) β) : Prop :=
  res.2 = res.1.status ∧
    OpLeaf BcastKntreeOp.status (FanoutRel vgroup args up kids) moved res.1 cs

/-- The loop sends the buffer to each child. -/
theorem exec_bcastSend {K : Bool → BcastKntreeOp B × Status → Sched (Cell B) β → Prop}
    {rest : Sched (Cell B) β} : ∀ {kids : List ℕ} {fuel : ℕ} {op : BcastKntreeOp B} {moved : Bool},
      kids.length < fuel → op.kntreeIter.Yields kids →
      (∀ (moved : Bool) (iter : KntreeIter), iter.toKntreeBase = op.kntreeIter.toKntreeBase →
        iter.child = none → K moved ({ op with kntreeIter := iter }, .ok) rest) →
      (bcastKntreeOpSend fuel op).Exec K moved
        (kids.map (fun peer =>
          .send (op.vgroup.rankMap peer) (span op.args.buffer op.args.count)) ++ rest)
  | _, 0, _, _, hfuel, _, _ => absurd hfuel (Nat.not_lt_zero _)
  | [], fuel + 1, op, moved, _, hyields, hK => by
    rw [KntreeIter.Yields] at hyields
    rw [bcastKntreeOpSend, hyields]
    exact hK moved op.kntreeIter rfl hyields
  | peer :: kids, fuel + 1, op, moved, hfuel, ⟨hchild, hyields⟩, hK => by
    rw [bcastKntreeOpSend, hchild]
    dsimp only
    rw [exec_bind]
    refine exec_isend_cons rfl rfl ?_
    rw [if_neg (by decide)]
    exact exec_bcastSend (Nat.lt_of_succ_lt_succ hfuel) hyields fun moved iter hbase hend =>
      hK moved iter (hbase.trans (KntreeIter.childInc_base _)) hend

/-- Step 3 and the end of a call. -/
theorem exec_bcastToChildren {op : BcastKntreeOp B} {rest : List ℕ} {moved : Bool}
    {cs : Sched (Cell B) β} (h : BcastKeeps vgroup args up op)
    (hyields : op.kntreeIter.Yields rest) (hlen : rest.length ≤ op.kntreeIter.size)
    (hflag : op.flags.recvFromParent = false)
    (hcs : cs = fanoutSends vgroup args rest ∨ rest = [] ∧ cs = []) :
    (bcastKntreeOpToChildren op).Exec (fun moved res cs =>
      FanoutLeaf vgroup args up kids moved ({ res.1 with status := res.2 }, res.2) cs)
      moved cs := by
  obtain ⟨rfl, rfl, hroot, hparent⟩ := h
  have hkeeps {iter : KntreeIter} (st : Status) (hbase : iter.toKntreeBase =
      op.kntreeIter.toKntreeBase) : BcastKeeps op.vgroup op.args up
        { op with kntreeIter := iter, status := st } :=
    ⟨rfl, rfl, (congrArg KntreeBase.root hbase).trans hroot,
      (congrArg KntreeBase.parent hbase).trans hparent⟩
  rw [bcastKntreeOpToChildren, exec_bind]
  obtain rfl | ⟨rfl, rfl⟩ := hcs
  · refine exec_bcastSend (Nat.lt_succ_of_le hlen) hyields fun moved iter hbase hend => ?_
    simp only [ne_eq, not_true_eq_false, if_false, exec_bind]
    refine exec_testall_wait ?_ ?_
    · exact ⟨rfl, .sent (hkeeps _ hbase) hend hflag (Or.inl rfl), Or.inl ⟨rfl, rfl, trivial⟩⟩
    · exact ⟨rfl, .sent (hkeeps _ hbase) hend hflag (Or.inr rfl), Or.inr ⟨rfl, rfl⟩⟩
  · rw [KntreeIter.Yields] at hyields
    rw [bcastKntreeOpSend, hyields]
    simp only [exec_pure, ne_eq, not_true_eq_false, if_false, exec_bind]
    refine ⟨?_, Or.inl ?_⟩
    · exact ⟨rfl, .sent (hkeeps _ rfl) hyields hflag (Or.inr rfl), Or.inl ⟨rfl, rfl, trivial⟩⟩
    · exact ⟨rfl, .sent (hkeeps _ rfl) hyields hflag (Or.inr rfl), Or.inr ⟨rfl, rfl⟩⟩

/-- A call, by what its step 2 does: the tree is rooted at the rank that has the buffer, so step 1
    is skipped. -/
theorem exec_bcastProgress {op : BcastKntreeOp B} {moved : Bool} {cs : Sched (Cell B) β}
    (h : BcastKeeps vgroup args up op)
    (hnext : (bcastKntreeOpFromParent
      { op with flags := { op.flags with adjustRoot := false } }).Exec
      (fun moved res cs => if res.2 ≠ .ok then
        FanoutLeaf vgroup args up kids moved ({ res.1 with status := res.2 }, res.2) cs else
        (bcastKntreeOpToChildren res.1).Exec (fun moved res cs =>
          FanoutLeaf vgroup args up kids moved ({ res.1 with status := res.2 }, res.2) cs) moved cs)
      moved cs) :
    (bcastKntreeOpProgress op).Exec (FanoutLeaf vgroup args up kids) moved cs := by
  have hroot : op.kntreeIter.root = op.args.root := h.root_eq.trans (congrArg _ h.args_eq.symm)
  have hadjust : (bcastKntreeOpAdjust op : Prog (Cell B) β _) =
      pure ({ op with flags := { op.flags with adjustRoot := false } }, .ok) := by
    rw [bcastKntreeOpAdjust]
    split_ifs with hflag
    · rw [bcastKntreeOpAdjustRoot]
      dsimp only
      rw [if_pos (Or.inl hroot)]
      rfl
    · rw [← Bool.eq_false_iff.mpr hflag]
  rw [bcastKntreeOpProgress, hadjust]
  simp only [exec_bind, exec_pure, ne_eq, not_true_eq_false, if_false]
  refine hnext.imp fun moved res cs hres => ?_
  by_cases hst : res.2 = .ok
  · rw [if_neg (not_not.mpr hst)] at hres ⊢
    exact exec_bind.mpr hres
  · rw [if_pos hst] at hres ⊢
    exact hres

/-- The operation executes its schedule. -/
theorem fanout_runs_of {op : BcastKntreeOp B} (h : BcastKeeps vgroup args up op)
    (hyields : op.kntreeIter.reset.Yields kids) (hlen : kids.length ≤ op.kntreeIter.size) (id : ℕ) :
    OpRuns (bcastKntreeFuncs : OpFuncs (Prog (Cell B) β) _) BcastKntreeOp.status id op
      (FanoutRel vgroup args up kids) (fanoutCmds vgroup args up kids) where
  trigger := by
    obtain ⟨rfl, rfl, hroot, hparent⟩ := h
    have hbase : op.kntreeIter.reset.toKntreeBase = op.kntreeIter.toKntreeBase :=
      KntreeIter.reset_base _
    have hkeeps {flags : BcastKntreeFlags} : BcastKeeps op.vgroup op.args up
        { op.start id with flags := flags } :=
      ⟨rfl, rfl, (congrArg KntreeBase.root hbase).trans hroot,
        (congrArg KntreeBase.parent hbase).trans hparent⟩
    have hlen' : kids.length ≤ op.kntreeIter.reset.size :=
      hlen.trans_eq (congrArg KntreeBase.size hbase).symm
    have hstart : (bcastKntreeOpProgress (op.start id)).Exec (FanoutLeaf op.vgroup op.args up kids)
        true (fanoutCmds op.vgroup op.args up kids : Sched (Cell B) β) := by
      refine exec_bcastProgress hkeeps ?_
      rw [bcastKntreeOpFromParent, if_pos (by rfl), bcastKntreeOpRecvFromParent,
        show (op.start id).kntreeIter.parent = up from hkeeps.parent_eq]
      cases up with
      | none =>
        simp only [exec_bind, exec_pure, ne_eq, not_true_eq_false, if_false]
        exact exec_bcastToChildren hkeeps hyields hlen' rfl (Or.inl rfl)
      | some peer =>
        dsimp only
        rw [if_pos (by rfl)]
        simp only [exec_bind]
        refine exec_irecv_cons rfl rfl ?_
        simp only [ne_eq, not_true_eq_false, if_false, exec_bind]
        refine exec_testall_wait ?_ ?_
        · exact ⟨rfl, .hears hkeeps rfl hyields hlen' ⟨rfl, rfl⟩, Or.inl ⟨rfl, rfl, trivial⟩⟩
        · exact exec_bcastToChildren hkeeps hyields hlen' rfl (Or.inl rfl)
    change (bcastKntreeOpTrigger op id).Exec _ _ _
    rw [bcastKntreeOpTrigger, exec_bind]
    exact hstart.imp fun moved res cs h => h.2
  progress op cs hrel := by
    change (bcastKntreeOpProgress op).Exec (FanoutLeaf vgroup args up kids) _ _
    cases hrel with
    | hears h hup hyields hlen hflag =>
      subst hup
      refine exec_bcastProgress h ?_
      rw [bcastKntreeOpFromParent, if_pos (by exact hflag.1), bcastKntreeOpRecvFromParent,
        show op.kntreeIter.parent = some _ from h.parent_eq]
      dsimp only
      rw [if_neg (by rw [hflag.2]; decide)]
      simp only [exec_bind]
      refine exec_testall_wait ?_ ?_
      · exact ⟨rfl, .hears ⟨h.vgroup_eq, h.args_eq, h.root_eq, h.parent_eq⟩ rfl hyields hlen hflag,
          Or.inl ⟨rfl, rfl, trivial⟩⟩
      · exact exec_bcastToChildren ⟨h.vgroup_eq, h.args_eq, h.root_eq, h.parent_eq⟩ hyields hlen rfl
          (Or.inl rfl)
    | sent h hchild hflag hcs =>
      refine exec_bcastProgress h ?_
      rw [bcastKntreeOpFromParent, if_neg (by rw [hflag]; decide), exec_pure,
        if_neg (by exact not_not.mpr rfl)]
      have hyields : op.kntreeIter.Yields [] := hchild
      exact exec_bcastToChildren ⟨h.vgroup_eq, h.args_eq, h.root_eq, h.parent_eq⟩ hyields
        (Nat.zero_le _) hflag (hcs.imp_right fun hcs => ⟨rfl, hcs⟩)

end Exec

/-! ### The signals of a fan-out -/

section Tree

variable {vgroup : VGroup} {config : BcastKntreeConfig} {known : ℕ → Set ℕ} {buffer : Cell B}

/-- The arguments of the broadcast that `ucg_planc_ucx_barrier_add_fanout_kntree_op` makes. -/
def fanoutArgs (buffer : Cell B) : BcastArgs B := ⟨buffer, 0, 0⟩

/-- The operation executes the signals of its rank in the tree. -/
theorem fanout_runs (know : Set ℕ) (hsize : 2 ≤ vgroup.size) (hv : vgroup.myrank < vgroup.size)
    (id : ℕ) : ∃ up kids, OpRuns (bcastKntreeFuncs : OpFuncs (Prog (Cell B) β) _)
      BcastKntreeOp.status id (bcastKntreeOpNew vgroup (fanoutArgs buffer) config)
      (FanoutRel vgroup (fanoutArgs buffer) up kids)
      ((downSignals (bcastKntreeParent vgroup.size config.kntreeDegree)
        (bcastKntreeChildren vgroup.size config.kntreeDegree) know vgroup.myrank).map
          (Signal.cmd vgroup.rankMap)) := by
  obtain ⟨hroot, hparent, hyields, hlen⟩ :=
    @KntreeIter.reset_root_zero _ config.kntreeDegree true _ hsize hv
  have hiter : (bcastKntreeOpNew vgroup (fanoutArgs buffer) config).kntreeIter =
      KntreeIter.init vgroup.size config.kntreeDegree 0 vgroup.myrank true := by
    rw [bcastKntreeOpNew, fanoutArgs]
    dsimp only
    rw [ite_self]
  have hbase := KntreeIter.reset_base
    (KntreeIter.init vgroup.size config.kntreeDegree 0 vgroup.myrank true)
  have hcmds : (downSignals (bcastKntreeParent vgroup.size config.kntreeDegree)
      (bcastKntreeChildren vgroup.size config.kntreeDegree) know vgroup.myrank).map
        (Signal.cmd vgroup.rankMap) = (fanoutCmds vgroup (fanoutArgs buffer)
          (if vgroup.myrank = 0 then none
            else some (bcastKntreeParent vgroup.size config.kntreeDegree vgroup.myrank))
          (bcastKntreeChildren vgroup.size config.kntreeDegree vgroup.myrank) :
            Sched (Cell B) β) := by
    rw [downSignals, List.map_append, List.map_append, List.map_map]
    split_ifs <;> rfl
  rw [hcmds]
  refine ⟨_, _, fanout_runs_of ⟨rfl, rfl, ?_, ?_⟩ ?_ ?_ id⟩ <;> rw [hiter]
  · exact (congrArg KntreeBase.root hbase).symm.trans hroot
  · exact (congrArg KntreeBase.parent hbase).symm.trans hparent
  · exact hyields
  · exact hlen.trans_eq (congrArg KntreeBase.size hbase)

/-- The messages of rank `v`. -/
noncomputable def fanoutTrace (n degree : ℕ) (known : ℕ → Set ℕ) : ℕ → List (Event β) :=
  downTrace n (bcastKntreeParent n degree) (bcastKntreeChildren n degree) fun _ => ([], known 0)

/-- The operation obeys its trace, and learns what the root knows. -/
theorem fanout_obeys [DecidableEq B] (hsize : 2 ≤ vgroup.size) (hv : vgroup.myrank < vgroup.size)
    (id : ℕ) {m : Cell B → β} {k : Set ℕ} (hknow : known vgroup.myrank ⊆ k) :
    ∃ inv, Obeys bcastKntreeFuncs BcastKntreeOp.status id
      (bcastKntreeOpNew vgroup (fanoutArgs buffer) config) inv
      (fun _ k => known vgroup.myrank ∪ known 0 ⊆ k)
      ⟨m, [], (fanoutTrace vgroup.size config.kntreeDegree known vgroup.myrank).map
        (Event.mapPeer vgroup.rankMap), k⟩ := by
  obtain ⟨up, kids, hruns⟩ :=
    @fanout_runs B β vgroup config buffer (known 0) hsize hv id
  refine ⟨_, hruns.obeys stable_knows (Sound.wp (sound_downSignals vgroup.myrank) hknow ?_)⟩
  rw [signalTrace_downSignals hv]
  rfl

end Tree

end Kucg.Ucx
