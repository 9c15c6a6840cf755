import Kucg.Ucx.AllreduceRd
import Kucg.Ucx.OpLive

/-! The recursive-doubling allreduce comes to its end.

    A call that finds nothing in flight either posts the messages of the next step or is the last
    one: in each of the states that `RdInv` tells of, the program runs on to a send, to a receive or
    to its end. -/

namespace Kucg.Ucx

open Kucg.Core Kucg.Lib Kucg.Algo

variable {B β : Type}

/-! ### One operation -/

section Operation

variable [DecidableEq B] [Semigroup β] {vgroup : VGroup} {args : AllreduceArgs B}
  {staging : Cell B} {x : ℕ → ℕ → β} {known : ℕ → Set ℕ}

/-- The loop, when nothing is in flight: it posts the messages of a step, or is over. -/
theorem busy_allreduceRdOpBase (hex : ¬RdExtra vgroup.size vgroup.myrank) :
    ∀ {fuel k : ℕ} {op : AllreduceRdOp B}, k ≤ rdSteps vgroup.size →
      rdSteps vgroup.size - k ≤ fuel →
      op.iter = rdIterAt vgroup.size vgroup.myrank (rdOffset vgroup.size vgroup.myrank + k) →
      (k < rdSteps vgroup.size →
        op.flags.baseSend = true ∨ op.flags.baseSend = false ∧ op.flags.baseRecv = false) →
      (allreduceRdOpBase ((· * ·) : β → β → β) fuel op).Busy fun res => res.2 = .ok := by
  have hend {fuel : ℕ} {op : AllreduceRdOp B} (hiter : op.iter = rdIterAt vgroup.size vgroup.myrank
      (rdOffset vgroup.size vgroup.myrank + rdSteps vgroup.size)) :
      (allreduceRdOpBase ((· * ·) : β → β → β) fuel op).Busy fun res => res.2 = .ok := by
    have hnone : op.iter.baseValue = none := by rw [hiter, baseValue_at hex le_rfl, if_pos rfl]
    rw [allreduceRdOpBase, hnone]
    dsimp only
    split_ifs <;> simp
  intro fuel
  induction fuel with
  | zero =>
    intro k op hk hfuel hiter _
    obtain rfl : k = rdSteps vgroup.size := by omega
    exact hend hiter
  | succ fuel ih =>
    intro k op hk hfuel hiter hflags
    rcases hk.lt_or_eq with hlt | rfl
    · have hpeer : op.iter.baseValue = some (rdPeer vgroup.size k vgroup.myrank) := by
        rw [hiter, baseValue_at hex hk, if_neg hlt.ne]
      rw [allreduceRdOpBase, hpeer]
      rcases hflags hlt with hsend | ⟨hsend, hrecv⟩
      · simp [allreduceRdOpPost, hsend]
      · -- the messages of the step are over
        have hinc : op.iter.inc = rdIterAt vgroup.size vgroup.myrank
            (rdOffset vgroup.size vgroup.myrank + (k + 1)) := by rw [hiter, inc_at, add_assoc]
        simp only [allreduceRdOpPost, allreduceRdOpFinish, hsend, hrecv, Bool.false_eq_true,
          if_false, busy_bind, busy_pure, busy_p2pTestall, ne_eq, not_true_eq_false]
        split_ifs
        · simp only [busy_bind, busy_opReduce, busy_pure, not_true_eq_false, if_false]
          exact ih (by omega) (by omega) hinc fun _ => Or.inl rfl
        · simp only [busy_bind, busy_opReduce, busy_pure, not_true_eq_false, if_false]
          exact ih (by omega) (by omega) hinc fun _ => Or.inl rfl
    · exact hend hiter

/-- The exchange of a proxy. -/
theorem busy_allreduceRdOpProxyBase (hpr : RdProxy vgroup.size vgroup.myrank) {k : ℕ}
    {op : AllreduceRdOp B} (hk : k ≤ rdSteps vgroup.size)
    (hiter : op.iter = rdIterAt vgroup.size vgroup.myrank
      (rdOffset vgroup.size vgroup.myrank + k))
    (hflags : k < rdSteps vgroup.size →
      op.flags.baseSend = true ∨ op.flags.baseSend = false ∧ op.flags.baseRecv = false) :
    (allreduceRdOpProxyBase ((· * ·) : β → β → β) op).Busy fun res => res.2 = .ok := by
  have hmax : rdSteps vgroup.size - k ≤ op.iter.maxIdx := by
    rw [hiter, at_proxy hpr]
    exact (Nat.sub_le _ _).trans (Nat.le_add_right _ 2)
  have hend (res : AllreduceRdOp B × Status) (hok : res.2 = .ok) :
      (if res.2 ≠ .ok then (pure (res.1, res.2) : Prog (Cell B) β (AllreduceRdOp B × Status)) else
        pure ({ res.1 with flags := { res.1.flags with proxyBase := false } }, .ok)).Busy
      fun res => res.2 = .ok := by
    rw [hok]
    rfl
  rw [allreduceRdOpProxyBase]
  split_ifs
  · simp only [busy_bind, busy_opReduce]
    split_ifs
    · rw [busy_bind]
      refine (busy_allreduceRdOpBase hpr.not_extra hk ?_ ?_ ?_).imp hend
      · exact hmax
      · exact hiter
      · exact hflags
    · simp
  · dsimp only
    split_ifs
    · exact busy_bind.mpr ((busy_allreduceRdOpBase hpr.not_extra hk hmax hiter hflags).imp hend)
    · simp

/-- A proxy whose receive from the extra is over. -/
theorem busy_allreduceRdOpProxy (hpr : RdProxy vgroup.size vgroup.myrank) {k : ℕ}
    {op : AllreduceRdOp B} (hk : k ≤ rdSteps vgroup.size)
    (hiter : op.iter = rdIterAt vgroup.size vgroup.myrank
      (rdOffset vgroup.size vgroup.myrank + k))
    (hflags : k < rdSteps vgroup.size →
      op.flags.baseSend = true ∨ op.flags.baseSend = false ∧ op.flags.baseRecv = false)
    (hrecv : op.flags.proxyRecv = false) :
    (allreduceRdOpProxy ((· * ·) : β → β → β) op).Busy fun res => res.2 ≠ .inprogress := by
  rw [allreduceRdOpProxy, allreduceRdOpProxyRecv, hrecv]
  simp only [Bool.false_eq_true, if_false, busy_bind, busy_pure, busy_p2pTestall, ne_eq,
    not_true_eq_false]
  refine (busy_allreduceRdOpProxyBase hpr hk hiter hflags).imp ?_
  rintro ⟨op, st⟩ ⟨rfl : st = .ok⟩
  simp only [not_true_eq_false, if_false, allreduceRdOpProxySend]
  split_ifs
  · cases op.iter.valueInc.1 <;> simp
  · simp

/-- The last test of a proxy or an extra. -/
theorem RdLast.busy {op : AllreduceRdOp B} {g : Ghost (Cell B) β}
    (h : RdLast vgroup args x known op g) (hpr : RdProxy vgroup.size vgroup.myrank) :
    (allreduceRdOpProxy ((· * ·) : β → β → β) op).Busy fun res => res.2 ≠ .inprogress := by
  obtain ⟨hrecv, hreduce, hbase, hsend⟩ := h.proxy hpr
  simp [allreduceRdOpProxy, allreduceRdOpProxyRecv, allreduceRdOpProxyBase, allreduceRdOpProxySend,
    hrecv, hreduce, hbase, hsend]

/-- A call that finds nothing in flight posts a message or is the last one. -/
theorem busy_allreduceRdOpProgress {st : Status} {op : AllreduceRdOp B} {g : Ghost (Cell B) β}
    (h : RdInv vgroup args staging x known st op g) :
    (allreduceRdOpProgress ((· * ·) : β → β → β) op).Busy fun res =>
      res.1.status ≠ .inprogress := by
  have htype : op.iter.type = if RdExtra vgroup.size vgroup.myrank then .extra
      else if RdProxy vgroup.size vgroup.myrank then .proxy else .base := by
    obtain ⟨idx, hiter⟩ := h.iter_eq
    rw [hiter, type_at]
  rw [allreduceRdOpProgress, htype]
  unfold RdInv RdLooped at h
  split_ifs at h ⊢ with hex hpr
  · obtain ⟨hsend, hrecv⟩ := h.1.extra hex
    simp [allreduceRdOpExtra, hsend, hrecv]
  · refine busy_bind.mpr (Prog.Busy.imp (fun res hres => hres) ?_)
    rcases h with ⟨-, h | ⟨k, hk, h⟩⟩ | ⟨h, -⟩
    · refine busy_allreduceRdOpProxy hpr (Nat.zero_le _) ?_ ?_ ?_
      · rw [h.iter_eq, rdOffset, if_pos hpr]
      · exact fun _ => Or.inl (by rw [h.flags])
      · rw [h.flags]
    · exact busy_allreduceRdOpProxy hpr hk.le h.iter_eq (fun _ => Or.inr h.flags) h.proxy.1
    · exact h.busy hpr
  · have hmax {k : ℕ} (hiter : op.iter = rdIterAt vgroup.size vgroup.myrank
        (rdOffset vgroup.size vgroup.myrank + k)) : rdSteps vgroup.size - k ≤ op.iter.maxIdx := by
      rw [hiter, at_base hex hpr]
      exact Nat.sub_le _ _
    have hbase : (allreduceRdOpBase ((· * ·) : β → β → β) op.iter.maxIdx op).Busy
        fun res => res.2 = .ok := by
      rcases h with ⟨-, h⟩ | ⟨-, k, hk, h⟩
      · exact busy_allreduceRdOpBase hex le_rfl (hmax h.iter_eq) h.iter_eq
          fun hlt => absurd hlt (lt_irrefl _)
      · exact busy_allreduceRdOpBase hex hk.le (hmax h.iter_eq) h.iter_eq fun _ => Or.inr h.flags
    exact busy_bind.mpr (hbase.imp fun res hok => by simp [hok])

theorem allreduceRd_lively (hv : vgroup.myrank < vgroup.size)
    (hap : Apart args.recvbuf args.count staging args.count)
    (hsend : ∀ sendbuf ∈ args.sendbuf, Apart sendbuf args.count args.recvbuf args.count)
    (y : ℕ → β) (id : ℕ) :
    OpLively (allreduceRdFuncs ((· * ·) : β → β → β)) AllreduceRdOp.status id
      (allreduceRdOpNew vgroup args staging) := by
  -- any input will do
  have hx : args.Brings (fun c => y (c.2 - (args.sendbuf.getD args.recvbuf).2)) y :=
    ⟨fun j _ => by simp, hsend⟩
  exact (allreduceRd_obeys vgroup args staging (fun _ => y) (fun _ => ∅) hv hap hx id
    (Set.empty_subset ∅)).lively fun _ _ h => busy_allreduceRdOpProgress h

end Operation

/-! ### Every run -/

section Runs

variable {ι : Type} [DecidableEq B] [Semigroup β]

/-- What an allreduce does in every run: a rank that has finished has got `UCG_OK` and the
    combination of all inputs in rank order, and from every state all ranks come to their end. -/
structure AllreduceMeets {σ : Type} (n count : ℕ) (args : ℕ → AllreduceArgs B) (x : ℕ → ℕ → β)
    (proc : ℕ → Proc (Cell B) β σ) (status : σ → Status) (N : Net (Cell B) β σ) : Prop where
  safe : ∀ r < n, ∀ op, N.FinishedIn r op → status op = .ok ∧
    Holds (N.node r).mem (args r).recvbuf count fun j => prodFrom (fun q => x q j) 0 (n - 1)
  live : ∃ acts N', N.run n proc acts = some N' ∧ ∀ r < n, ∃ op, N'.FinishedIn r op

/-- In every run of the recursive-doubling allreduce the ranks get the combination of all inputs,
    and none of them can be kept from its end for good. -/
theorem allreduceRd_meets (n count id : ℕ) (args : ℕ → AllreduceArgs B) (staging : ℕ → Cell B)
    (x : ℕ → ℕ → β) (m : ℕ → Cell B → β) (hcount : ∀ r, (args r).count = count)
    (hstaging : ∀ r < n, Apart (args r).recvbuf count (staging r) count)
    (hx : ∀ r < n, (args r).Brings (m r) (x r)) (acts : List Act)
    (N : Net (Cell B) β (AllreduceRdOp B))
    (hrun : (Net.init m).run n (allreduceRdProc n args staging id) acts = some N) :
    AllreduceMeets n count args x (allreduceRdProc n args staging id) AllreduceRdOp.status N := by
  have hap (r) (hr : r < n) : Apart (args r).recvbuf (args r).count (staging r) (args r).count := by
    rw [hcount]
    exact hstaging r hr
  have hobeys (r) (hr : r < n) := allreduceRd_obeys ⟨n, r, fun q => q⟩ (args r) (staging r) x
    (fun v => {v}) hr (hap r hr) (hx r hr) id (subset_refl {r})
  simp only [map_mapPeer_id, hcount] at hobeys
  obtain ⟨hsafe, hlive⟩ := obeys_run paced_rdTrace (fun r hr => rdTrace_of_le hr)
    (fun r hr => ⟨_, hobeys r hr⟩)
    (fun r hr => (allreduceRd_lively hr (hap r hr) (hx r hr).apart (x r) id).proc.imp
      fun _ h => ⟨_, h⟩) hrun
  refine ⟨fun r hr op hfin => ?_, hlive⟩
  obtain ⟨hok, -, ⟨hres, -⟩, -⟩ := hsafe r hr op hfin
  refine ⟨hok, fun j hj => ?_⟩
  obtain ⟨k, hk, hprod⟩ := rdValue_all (P := IsProd x) (IsProd.single x) IsProd.mul
    (Nat.ne_zero_of_lt hr) (rdNew_lt hr)
  obtain rfl : n = k + 1 := by omega
  rw [hres j hj, rdData, hprod, prodFrom_apply, Nat.add_sub_cancel]

end Runs

/-- The run of three ranks, in which rank 0 has finished. -/
theorem allreduceRd_meets_three : ∃ N op,
    (Net.init threeMem).run 3 (allreduceRdProc 3 threeArgs (fun _ => (2, 0)) 7) threeActs = some N ∧
      N.FinishedIn 0 op ∧ AllreduceMeets 3 1 threeArgs (fun r _ => FreeMonoid.of r)
        (allreduceRdProc 3 threeArgs (fun _ => (2, 0)) 7) AllreduceRdOp.status N := by
  have hsome : (((Net.init threeMem).run 3 (allreduceRdProc 3 threeArgs (fun _ => (2, 0)) 7)
      threeActs).bind fun N => (N.node 0).ctl.result).isSome := by decide +kernel
  obtain ⟨op, hbind⟩ := Option.isSome_iff_exists.mp hsome
  obtain ⟨N, hrun, hop⟩ := Option.bind_eq_some_iff.mp hbind
  have hx (r) (hr : r < 3) : (threeArgs r).Brings (threeMem r) fun _ => FreeMonoid.of r := by
    interval_cases r
    · exact ⟨fun _ _ => rfl, by simp [threeArgs, Apart]⟩
    · exact ⟨fun _ _ => rfl, by simp [threeArgs, Apart]⟩
    · exact ⟨fun _ _ => rfl, by simp [threeArgs]⟩
  exact ⟨N, op, hrun, Ctl.result_eq_some.mp hop, allreduceRd_meets 3 1 7 threeArgs
    (fun _ => (2, 0)) (fun r _ => FreeMonoid.of r) threeMem (fun _ => rfl)
    (fun _ _ => Or.inl (by simp [threeArgs])) hx threeActs N hrun⟩

end Kucg.Ucx
