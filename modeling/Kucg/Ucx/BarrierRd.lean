import Kucg.Lib.Signals
import Kucg.Ucx.AllreduceRd
import Kucg.Ucx.OpLive

/-! The recursive-doubling barrier of `barrier_rd.c`.

    Its messages have no contents. What counts is whom a rank has heard of, directly or through
    others: the messages are those of a recursive doubling whose values are sets of ranks, so in the
    end every rank has heard of all. -/

namespace Kucg.Ucx

open Kucg.Core Kucg.Lib Kucg.Algo

variable {ι β : Type}

/-- The flags of the operation, a bit each. -/
structure BarrierRdFlags where
  baseSend : Bool
  baseRecv : Bool
  proxyRecv : Bool
  proxyBase : Bool
  proxySend : Bool
  extraSend : Bool
  extraRecv : Bool

/-- No flag. -/
def BarrierRdFlags.none : BarrierRdFlags := ⟨false, false, false, false, false, false, false⟩

/-- `ucg_planc_ucx_op_t` of a recursive-doubling barrier. -/
structure BarrierRdOp where
  vgroup : VGroup
  status : Status
  id : ℕ
  flags : BarrierRdFlags
  rdIter : RdIter

section Functions

/-- The loop of `ucg_planc_ucx_barrier_rd_op_base`, up to the test. -/
def barrierRdOpPost (op : BarrierRdOp) (peer : ℕ) : Prog ι β (BarrierRdOp × Status) := do
  let mut op := op
  if op.flags.baseSend then
    op := { op with flags := { op.flags with baseSend := false } }
    let status ← p2pIsend [] (some peer) op.vgroup
    if status ≠ .ok then return (op, status)
  if op.flags.baseRecv then
    op := { op with flags := { op.flags with baseRecv := false } }
    let status ← p2pIrecv [] (some peer) op.vgroup 0
    if status ≠ .ok then return (op, status)
  return (op, .ok)

/-- `ucg_planc_ucx_barrier_rd_op_base`. The fuel bounds the number of iterations; the iterator has
    no more than `max_idx` values. -/
def barrierRdOpBase (fuel : ℕ) (op : BarrierRdOp) : Prog ι β (BarrierRdOp × Status) :=
  match op.rdIter.baseValue with
  | none => pure (op, .ok)
  | some peer =>
    match fuel with
    | 0 => pure (op, .inprogress)
    | fuel + 1 => do
      let (op, status) ← barrierRdOpPost op peer
      if status ≠ .ok then return (op, status)
      let status ← p2pTestall
      if status ≠ .ok then return (op, status)
      barrierRdOpBase fuel { op with
        rdIter := op.rdIter.inc
        flags := { op.flags with baseSend := true, baseRecv := true } }

/-- The receive of a proxy from its extra. -/
def barrierRdOpProxyRecv (op : BarrierRdOp) : Prog ι β (BarrierRdOp × Status) := do
  if op.flags.proxyRecv then
    let (peer, iter) := op.rdIter.valueInc
    let op := { op with rdIter := iter, flags := { op.flags with proxyRecv := false } }
    let status ← p2pIrecv [] peer op.vgroup 0
    return (op, status)
  else return (op, .ok)

/-- The exchange of a proxy. -/
def barrierRdOpProxyBase (op : BarrierRdOp) : Prog ι β (BarrierRdOp × Status) := do
  if op.flags.proxyBase then
    let (op, status) ← barrierRdOpBase op.rdIter.maxIdx op
    if status ≠ .ok then return (op, status)
    return ({ op with flags := { op.flags with proxyBase := false } }, .ok)
  else return (op, .ok)

/-- The send of a proxy to its extra, and the last test. -/
def barrierRdOpProxySend (op : BarrierRdOp) : Prog ι β (BarrierRdOp × Status) := do
  let mut op := op
  if op.flags.proxySend then
    let (peer, iter) := op.rdIter.valueInc
    op := { op with rdIter := iter, flags := { op.flags with proxySend := false } }
    let status ← p2pIsend [] peer op.vgroup
    if status ≠ .ok then return (op, status)
  let status ← p2pTestall
  return (op, status)

/-- `ucg_planc_ucx_barrier_rd_op_proxy`. -/
def barrierRdOpProxy (op : BarrierRdOp) : Prog ι β (BarrierRdOp × Status) := do
  let (op, status) ← barrierRdOpProxyRecv op
  if status ≠ .ok then return (op, status)
  let status ← p2pTestall
  if status ≠ .ok then return (op, status)
  let (op, status) ← barrierRdOpProxyBase op
  if status ≠ .ok then return (op, status)
  barrierRdOpProxySend op

/-- `ucg_planc_ucx_barrier_rd_op_extra`. -/
def barrierRdOpExtra (op : BarrierRdOp) : Prog ι β (BarrierRdOp × Status) := do
  let mut op := op
  if op.flags.extraSend then
    let (peer, iter) := op.rdIter.valueInc
    op := { op with rdIter := iter, flags := { op.flags with extraSend := false } }
    let status ← p2pIsend [] peer op.vgroup
    if status ≠ .ok then return (op, status)
  if op.flags.extraRecv then
    let (peer, iter) := op.rdIter.valueInc
    op := { op with rdIter := iter, flags := { op.flags with extraRecv := false } }
    let status ← p2pIrecv [] peer op.vgroup 0
    if status ≠ .ok then return (op, status)
  let status ← p2pTestall
  return (op, status)

/-- `ucg_planc_ucx_barrier_rd_op_progress`. -/
def barrierRdOpProgress (op : BarrierRdOp) : Prog ι β (BarrierRdOp × Status) := do
  let (op, status) ← match op.rdIter.type with
    | .base => barrierRdOpBase op.rdIter.maxIdx op
    | .proxy => barrierRdOpProxy op
    | .extra => barrierRdOpExtra op
  return ({ op with status := status }, status)

/-- What `ucg_planc_ucx_barrier_rd_op_trigger` sets. -/
def BarrierRdOp.start (op : BarrierRdOp) (id : ℕ) : BarrierRdOp :=
  let iter := op.rdIter.reset
  { op with
    id := id
    status := .inprogress
    rdIter := iter
    flags := match iter.type with
      | .base => { BarrierRdFlags.none with baseSend := true, baseRecv := true }
      | .proxy => { BarrierRdFlags.none with
          baseSend := true, baseRecv := true, proxyRecv := true, proxyBase := true
          proxySend := true }
      | .extra => { BarrierRdFlags.none with extraSend := true, extraRecv := true } }

/-- `ucg_planc_ucx_barrier_rd_op_trigger`. -/
def barrierRdOpTrigger (op : BarrierRdOp) (id : ℕ) : Prog ι β (BarrierRdOp × Status) := do
  let (op, status) ← barrierRdOpProgress (op.start id)
  return (op, if status = .inprogress then .ok else status)

/-- The trigger and progress functions of the operation. -/
def barrierRdFuncs : OpFuncs (Prog ι β) BarrierRdOp where
  trigger := barrierRdOpTrigger
  progress := barrierRdOpProgress

/-- `ucg_planc_ucx_barrier_rd_op_new`, when there is memory. -/
def barrierRdOpNew (vgroup : VGroup) : BarrierRdOp where
  vgroup := vgroup
  status := .ok
  id := 0
  flags := BarrierRdFlags.none
  rdIter := RdIter.init vgroup.size vgroup.myrank

end Functions

/-! ### Signals -/

section Signals

variable (n : ℕ) (known : ℕ → Set ℕ)

/-- What rank `v` tells and hears in the steps of the exchange from `k` on. -/
def rdStepSignals (v k : ℕ) : List Signal :=
  (List.range' k (rdSteps n - k)).flatMap fun k =>
    [.tell (rdPeer n k v) (rdKnow n known k (rdNew n v)),
      .hear (rdPeer n k v) (rdKnow n known k (rdNew n v ^^^ 2 ^ k)), .rest]

/-- What rank `v` tells and hears. -/
def rdSignals (v : ℕ) : List Signal :=
  if RdExtra n v then
    [.tell (v + 1) (known v), .hear (v + 1) (rdKnow n known (rdSteps n) (rdNew n v)), .rest]
  else if RdProxy n v then
    .hear (v - 1) (known (v - 1)) :: .rest :: (rdStepSignals n known v 0 ++
      [.tell (v - 1) (rdKnow n known (rdSteps n) (rdNew n v)), .rest])
  else rdStepSignals n known v 0

/-- The messages of rank `v`. -/
def barrierRdTrace (v : ℕ) : List (Event β) :=
  rdTrace n (fun v => ([], known v)) (fun k w => ([], rdKnow n known k w)) v

variable {n known} {v k : ℕ}

theorem rdStepSignals_cons (hk : k < rdSteps n) : rdStepSignals n known v k =
    .tell (rdPeer n k v) (rdKnow n known k (rdNew n v)) ::
      .hear (rdPeer n k v) (rdKnow n known k (rdNew n v ^^^ 2 ^ k)) :: .rest ::
        rdStepSignals n known v (k + 1) := by
  obtain ⟨d, hd⟩ : ∃ d, rdSteps n - k = d + 1 := ⟨rdSteps n - k - 1, by omega⟩
  rw [rdStepSignals, hd, List.range'_succ, List.flatMap_cons, rdStepSignals,
    show rdSteps n - (k + 1) = d by omega]
  rfl

theorem rdStepSignals_end : rdStepSignals n known v (rdSteps n) = [] := by
  rw [rdStepSignals, Nat.sub_self]
  rfl

/-- The signals of the exchange are its messages. -/
theorem signalTrace_steps (hv : v < n) (hex : ¬RdExtra n v) :
    (signalTrace (rdStepSignals n known v 0) : List (Event β)) =
      (List.range (rdSteps n)).flatMap fun k =>
        rdRound n (fun k w => ([], rdKnow n known k w)) k v := by
  rw [rdStepSignals, Nat.sub_zero, ← List.range_eq_range', signalTrace, List.filterMap_flatMap]
  refine List.flatMap_congr fun k _ => ?_
  rw [rdRound, if_pos ⟨hv, hex⟩]
  rfl

/-- The signals of a rank are its messages. -/
theorem signalTrace_rdSignals (hv : v < n) :
    (signalTrace (rdSignals n known v) : List (Event β)) = barrierRdTrace n known v := by
  rw [barrierRdTrace, rdTrace_role, rdSignals]
  split_ifs with hex hpr
  · rfl
  · rw [signalTrace_hear, signalTrace_rest, signalTrace_append, signalTrace_steps hv hex]
    rfl
  · exact signalTrace_steps hv hex

/-- A step of the exchange, and those behind it. -/
theorem sound_rdSteps {goal : Set ℕ} {ss : List Signal}
    (h : Sound goal ss (rdKnow n known (rdSteps n) (rdNew n v)) []) :
    ∀ {d k : ℕ}, k + d = rdSteps n →
      Sound goal (rdStepSignals n known v k ++ ss) (rdKnow n known k (rdNew n v)) []
  | 0, k, hk => by
    obtain rfl : k = rdSteps n := hk
    rwa [rdStepSignals_end]
  | d + 1, k, hk => by
    rw [rdStepSignals_cons (by omega)]
    refine ⟨subset_rfl, Sound.rest ?_⟩
    refine (sound_rdSteps h (by omega : k + 1 + d = rdSteps n)).mono ?_
    exact rdKnow_succ_subset Set.subset_union_left Set.subset_union_right

/-- A rank tells only what it knows, and in the end knows what its pair has got. -/
theorem sound_rdSignals (v : ℕ) :
    Sound (rdKnow n known (rdSteps n) (rdNew n v)) (rdSignals n known v) (known v) [] := by
  have hend {known' : Set ℕ} (h : rdKnow n known (rdSteps n) (rdNew n v) ⊆ known') :
      Sound (rdKnow n known (rdSteps n) (rdNew n v)) [] known' [] := ⟨rfl, h⟩
  rw [rdSignals]
  split_ifs with hex hpr
  · exact ⟨subset_rfl, Sound.rest (hend Set.subset_union_right)⟩
  · refine Sound.rest (Sound.mono (sound_rdSteps ?_ (Nat.zero_add _)) ?_)
    · refine ⟨subset_rfl, ?_⟩
      exact @Sound.mono _ [] _ _ _ (hend subset_rfl) Set.subset_union_left
    · rw [rdKnow, rdValue_zero_proxy hpr, Set.union_comm]
  · have hzero : rdKnow n known 0 (rdNew n v) = known v := rdValue_zero_base hex hpr
    rw [← List.append_nil (rdStepSignals n known v 0), ← hzero]
    exact sound_rdSteps (hend subset_rfl) (Nat.zero_add _)

theorem paced_barrierRdTrace :
    Paced (1 + rdSteps n + 1) (barrierRdTrace n known : ℕ → List (Event β)) := paced_rdTrace

theorem barrierRdTrace_peer (hn : n ≠ 0) :
    ∀ e ∈ (barrierRdTrace n known v : List (Event β)), e.peer < n := rdTrace_peer hn

theorem barrierRdTrace_of_le (hv : n ≤ v) : (barrierRdTrace n known v : List (Event β)) = [] :=
  rdTrace_of_le hv

/-- In the end everybody has heard of all ranks. -/
theorem subset_rdKnow {q w : ℕ} (hq : q < n) (hw : w < 2 ^ rdSteps n) :
    known q ⊆ rdKnow n known (rdSteps n) w := by
  refine rdValue_all (P := fun lo hi S => ∀ q, lo ≤ q → q < hi → known q ⊆ S)
    (fun v q h₁ h₂ => ?_) (fun {a b c u u'} h h' q h₁ h₂ => ?_) (by omega) hw q (Nat.zero_le q) hq
  · obtain rfl : q = v := by omega
    exact subset_rfl
  · rcases Nat.lt_or_ge q b with hlt | hge
    · exact (h q h₁ hlt).trans Set.subset_union_left
    · exact (h' q hge h₂).trans Set.subset_union_right

end Signals

/-! ### The operation executes them -/

section Exec

variable (vgroup : VGroup) (known : ℕ → Set ℕ)

/-- The exchange in step `k`, whose messages have been posted or not. -/
def barrierRdAt (st : Status) (id : ℕ) (posted : Bool) (k : ℕ) : BarrierRdOp :=
  let proxy : Bool := RdProxy vgroup.size vgroup.myrank
  ⟨vgroup, st, id, ⟨!posted, !posted, false, proxy, proxy, false, false⟩,
    rdIterAt vgroup.size vgroup.myrank (rdOffset vgroup.size vgroup.myrank + k)⟩

/-- The steps from `k` on, as commands. -/
def barrierRdSteps (k : ℕ) : Sched ι β :=
  (rdStepSignals vgroup.size known vgroup.myrank k).map (Signal.cmd vgroup.rankMap)

/-- What is left behind the exchange. -/
def barrierRdTail : Sched ι β :=
  if RdProxy vgroup.size vgroup.myrank then
    [.send (vgroup.rankMap (vgroup.myrank - 1)) [], .wait]
  else []

/-- Between calls a rank waits in a step of the exchange or, as a proxy, for its extra, or has
    nothing left to post. -/
inductive BarrierRdRel : BarrierRdOp → Sched ι β → Prop
  | step (st : Status) (id : ℕ) {k : ℕ} (hex : ¬RdExtra vgroup.size vgroup.myrank)
      (hk : k < rdSteps vgroup.size) : BarrierRdRel (barrierRdAt vgroup st id true k)
        (.wait :: (barrierRdSteps vgroup known (k + 1) ++ barrierRdTail vgroup))
  | fromExtra (st : Status) (id : ℕ) (hpr : RdProxy vgroup.size vgroup.myrank) :
      BarrierRdRel (barrierRdAt vgroup st id false 0)
        (.wait :: (barrierRdSteps vgroup known 0 ++ barrierRdTail vgroup))
  | base (st : Status) (id : ℕ) (hex : ¬RdExtra vgroup.size vgroup.myrank)
      (hpr : ¬RdProxy vgroup.size vgroup.myrank) :
      BarrierRdRel (barrierRdAt vgroup st id false (rdSteps vgroup.size)) []
  | last (st : Status) (id idx : ℕ) {flags : BarrierRdFlags} {cs : Sched ι β}
      (hrole : RdExtra vgroup.size vgroup.myrank ∧ flags = BarrierRdFlags.none ∨
        RdProxy vgroup.size vgroup.myrank ∧
          flags = ⟨true, true, false, false, false, false, false⟩)
      (hcs : cs = [.wait] ∨ cs = []) :
      BarrierRdRel ⟨vgroup, st, id, flags, rdIterAt vgroup.size vgroup.myrank idx⟩ cs

variable {vgroup known} {K : Bool → BarrierRdOp × Status → Sched ι β → Prop} {st : Status} {id : ℕ}

theorem barrierRdSteps_cons {k : ℕ} (hk : k < rdSteps vgroup.size) :
    (barrierRdSteps vgroup known k : Sched ι β) =
      .send (vgroup.rankMap (rdPeer vgroup.size k vgroup.myrank)) [] ::
        .recv 0 (vgroup.rankMap (rdPeer vgroup.size k vgroup.myrank)) [] :: .wait ::
          barrierRdSteps vgroup known (k + 1) := by
  rw [barrierRdSteps, rdStepSignals_cons hk]
  rfl

theorem barrierRdSteps_end :
    (barrierRdSteps vgroup known (rdSteps vgroup.size) : Sched ι β) = [] := by
  rw [barrierRdSteps, rdStepSignals_end]
  rfl

/-- The next step. -/
theorem barrierRdAt_next (k : ℕ) :
    { barrierRdAt vgroup st id true k with
      rdIter := (barrierRdAt vgroup st id true k).rdIter.inc
      flags := { (barrierRdAt vgroup st id true k).flags with
        baseSend := true, baseRecv := true } } = barrierRdAt vgroup st id false (k + 1) := by
  simp only [barrierRdAt, inc_at, Nat.add_assoc]
  rfl

/-- The messages of a step, if they have not been posted, and then the rest of it. -/
theorem exec_barrierRdOpPost {rest : Sched ι β} {k : ℕ} {posted moved : Bool}
    (hk : k < rdSteps vgroup.size)
    (h : ∀ moved, K moved (barrierRdAt vgroup st id true k, .ok)
      (.wait :: (barrierRdSteps vgroup known (k + 1) ++ rest))) :
    (barrierRdOpPost (barrierRdAt vgroup st id posted k)
      (rdPeer vgroup.size k vgroup.myrank)).Exec K moved
      (if posted then .wait :: (barrierRdSteps vgroup known (k + 1) ++ rest)
        else barrierRdSteps vgroup known k ++ rest) := by
  cases posted with
  | true => exact h moved
  | false =>
    rw [if_neg (by decide), barrierRdSteps_cons hk]
    exact ⟨_, rfl, _, rfl, h true⟩

/-- The loop of the exchange, from any step whose messages have been posted or not. -/
theorem exec_barrierRdOpBase {rest : Sched ι β} (hex : ¬RdExtra vgroup.size vgroup.myrank)
    (hin : ∀ k < rdSteps vgroup.size, K true (barrierRdAt vgroup st id true k, .inprogress)
      (.wait :: (barrierRdSteps vgroup known (k + 1) ++ rest)))
    (hok : ∀ moved, K moved (barrierRdAt vgroup st id false (rdSteps vgroup.size), .ok) rest) :
    ∀ {fuel k : ℕ} {posted moved : Bool}, k ≤ rdSteps vgroup.size →
      rdSteps vgroup.size - k ≤ fuel → (posted = true → k < rdSteps vgroup.size) →
      (barrierRdOpBase fuel (barrierRdAt vgroup st id posted k)).Exec K moved
        (if posted then .wait :: (barrierRdSteps vgroup known (k + 1) ++ rest)
          else barrierRdSteps vgroup known k ++ rest) := by
  have hend {fuel : ℕ} {posted moved : Bool}
      (hposted : posted = true → rdSteps vgroup.size < rdSteps vgroup.size) :
      (barrierRdOpBase fuel (barrierRdAt vgroup st id posted (rdSteps vgroup.size))).Exec K moved
        (if posted then .wait :: (barrierRdSteps vgroup known (rdSteps vgroup.size + 1) ++ rest)
          else barrierRdSteps vgroup known (rdSteps vgroup.size) ++ rest) := by
    obtain rfl : posted = false := Bool.eq_false_iff.mpr fun h => lt_irrefl _ (hposted h)
    have hnone : (barrierRdAt vgroup st id false (rdSteps vgroup.size)).rdIter.baseValue = none :=
      (baseValue_at hex le_rfl).trans (if_pos rfl)
    rw [if_neg (by decide), barrierRdSteps_end, barrierRdOpBase, hnone]
    exact hok moved
  intro fuel
  induction fuel with
  | zero =>
    intro k posted moved hk hfuel hposted
    obtain rfl : k = rdSteps vgroup.size := by omega
    exact hend hposted
  | succ fuel ih =>
    intro k posted moved hk hfuel hposted
    rcases hk.lt_or_eq with hlt | rfl
    · have hpeer : (barrierRdAt vgroup st id posted k).rdIter.baseValue =
          some (rdPeer vgroup.size k vgroup.myrank) :=
        (baseValue_at hex hk).trans (if_neg hlt.ne)
      rw [barrierRdOpBase, hpeer]
      dsimp only
      rw [exec_bind]
      refine exec_barrierRdOpPost hlt fun moved => ?_
      dsimp only
      rw [if_neg (by decide), exec_bind]
      refine exec_testall_wait ?_ ?_
      · rw [if_pos (by decide)]
        exact hin k hlt
      · rw [if_neg (by decide), barrierRdAt_next]
        exact @ih (k + 1) false true (by omega) (by omega) nofun
    · exact hend hposted

theorem le_maxIdx {n v : ℕ} (hex : ¬RdExtra n v) (idx : ℕ) :
    rdSteps n ≤ (rdIterAt n v idx).maxIdx := by
  by_cases hpr : RdProxy n v
  · rw [at_proxy hpr]
    exact Nat.le_add_right _ _
  · rw [at_base hex hpr]
    exact le_rfl

variable (vgroup known) in
/-- Where a call leaves off, with the status that it returns. -/
def BarrierRdLeaf (moved : Bool) (res : BarrierRdOp × Status) (cs : Sched ι β) : Prop :=
  OpLeaf BarrierRdOp.status (BarrierRdRel vgroup known) moved { res.1 with status := res.2 } cs

/-- The last test of an extra or a proxy, when all has been posted. -/
theorem exec_barrierRdLast {idx : ℕ} {flags : BarrierRdFlags} {cs : Sched ι β} {moved : Bool}
    (hrole : RdExtra vgroup.size vgroup.myrank ∧ flags = BarrierRdFlags.none ∨
      RdProxy vgroup.size vgroup.myrank ∧
        flags = ⟨true, true, false, false, false, false, false⟩)
    (hcs : cs = [.wait] ∨ cs = []) :
    (p2pTestall >>= fun status => pure
      ((⟨vgroup, st, id, flags, rdIterAt vgroup.size vgroup.myrank idx⟩ : BarrierRdOp),
        status)).Exec (BarrierRdLeaf vgroup known) moved cs := by
  have hstop : cs.AtStop := by obtain rfl | rfl := hcs <;> trivial
  have hdone : BarrierRdLeaf vgroup known true
      (⟨vgroup, st, id, flags, rdIterAt vgroup.size vgroup.myrank idx⟩, .ok) ([] : Sched ι β) :=
    ⟨.last .ok id idx hrole (Or.inr rfl), Or.inr ⟨rfl, rfl⟩⟩
  rw [exec_bind]
  refine ⟨⟨.last .inprogress id idx hrole hcs, Or.inl ⟨rfl, rfl, hstop⟩⟩, ?_⟩
  obtain rfl | rfl := hcs
  · exact Or.inr ⟨[], rfl, hdone⟩
  · exact Or.inl ⟨hdone.1, Or.inr ⟨rfl, rfl⟩⟩

/-- The exchange of a proxy and what comes behind it. -/
theorem exec_barrierRdOpProxyBase (hpr : RdProxy vgroup.size vgroup.myrank) {k : ℕ} (posted : Bool)
    {moved : Bool} (hk : k ≤ rdSteps vgroup.size)
    (hposted : posted = true → k < rdSteps vgroup.size) :
    (barrierRdOpProxyBase (barrierRdAt vgroup st id posted k) >>= fun res =>
      if res.2 ≠ .ok then pure res else barrierRdOpProxySend res.1).Exec
        (BarrierRdLeaf vgroup known) moved
        (if posted then .wait :: (barrierRdSteps vgroup known (k + 1) ++ barrierRdTail vgroup)
          else barrierRdSteps vgroup known k ++ barrierRdTail vgroup : Sched ι β) := by
  have hex := hpr.not_extra
  rw [exec_bind, barrierRdOpProxyBase, if_pos (by exact decide_eq_true hpr), exec_bind]
  refine exec_barrierRdOpBase hex (fun j hj => ?_) (fun moved => ?_) hk
    ((Nat.sub_le _ _).trans (le_maxIdx hex _)) hposted
  · exact ⟨.step .inprogress id hex hj, Or.inl ⟨rfl, rfl, trivial⟩⟩
  · have hpeer : (rdIterAt vgroup.size vgroup.myrank
        (rdOffset vgroup.size vgroup.myrank + rdSteps vgroup.size)).current =
          some (vgroup.myrank - 1) := by
      rw [rdOffset, if_pos hpr]
      exact (current_proxy hpr).2
    simp only [ne_eq, not_true_eq_false, if_false, exec_pure, barrierRdOpProxySend, barrierRdAt,
      hpr, decide_true, if_true, RdIter.valueInc, inc_at, hpeer, barrierRdTail, exec_bind]
    refine exec_isend_cons rfl rfl ?_
    rw [if_neg (by decide)]
    exact exec_bind.mp (exec_barrierRdLast (Or.inr ⟨hpr, rfl⟩) (Or.inl rfl))

variable (vgroup known) in
/-- What is left of the schedule of a rank that has posted nothing. -/
def barrierRdCmds : Sched ι β :=
  (rdSignals vgroup.size known vgroup.myrank).map (Signal.cmd vgroup.rankMap)

theorem barrierRdCmds_role : (barrierRdCmds vgroup known : Sched ι β) =
    if RdExtra vgroup.size vgroup.myrank then
      [.send (vgroup.rankMap (vgroup.myrank + 1)) [],
        .recv 0 (vgroup.rankMap (vgroup.myrank + 1)) [], .wait]
    else if RdProxy vgroup.size vgroup.myrank then
      .recv 0 (vgroup.rankMap (vgroup.myrank - 1)) [] :: .wait ::
        (barrierRdSteps vgroup known 0 ++ barrierRdTail vgroup)
    else barrierRdSteps vgroup known 0 ++ barrierRdTail vgroup := by
  rw [barrierRdCmds, rdSignals, barrierRdTail]
  split_ifs with hex hpr
  · rfl
  · rw [List.map_cons, List.map_cons, List.map_append]
    rfl
  · rw [List.append_nil]
    rfl

/-- A call, by role. -/
theorem exec_barrierRdOpProgress {op : BarrierRdOp} {idx : ℕ} {cs : Sched ι β} {moved : Bool}
    (hiter : op.rdIter = rdIterAt vgroup.size vgroup.myrank idx)
    (h : (if RdExtra vgroup.size vgroup.myrank then barrierRdOpExtra op
      else if RdProxy vgroup.size vgroup.myrank then barrierRdOpProxy op
      else barrierRdOpBase op.rdIter.maxIdx op).Exec (BarrierRdLeaf vgroup known) moved cs) :
    (barrierRdOpProgress op).Exec (fun moved res cs => res.2 = res.1.status ∧
      OpLeaf BarrierRdOp.status (BarrierRdRel vgroup known) moved res.1 cs) moved cs := by
  have htype : op.rdIter.type = if RdExtra vgroup.size vgroup.myrank then .extra
      else if RdProxy vgroup.size vgroup.myrank then .proxy else .base := by
    rw [hiter, type_at]
  rw [barrierRdOpProgress, htype]
  split_ifs at h ⊢ <;> exact exec_bind.mpr (h.imp fun moved res cs h => ⟨rfl, h⟩)

/-- The exchange of a base rank. -/
theorem exec_barrierRdOpBase_leaf (hex : ¬RdExtra vgroup.size vgroup.myrank)
    (hpr : ¬RdProxy vgroup.size vgroup.myrank) {k : ℕ} (posted : Bool) {moved : Bool}
    (hk : k ≤ rdSteps vgroup.size) (hposted : posted = true → k < rdSteps vgroup.size) :
    (barrierRdOpBase (barrierRdAt vgroup st id posted k).rdIter.maxIdx
      (barrierRdAt vgroup st id posted k)).Exec (BarrierRdLeaf vgroup known) moved
        (if posted then .wait :: (barrierRdSteps vgroup known (k + 1) ++ barrierRdTail vgroup)
          else barrierRdSteps vgroup known k ++ barrierRdTail vgroup : Sched ι β) := by
  refine exec_barrierRdOpBase hex (fun j hj => ?_) (fun moved => ?_) hk
    ((Nat.sub_le _ _).trans (le_maxIdx hex _)) hposted
  · exact ⟨.step .inprogress id hex hj, Or.inl ⟨rfl, rfl, trivial⟩⟩
  · rw [barrierRdTail, if_neg hpr]
    exact ⟨.base .ok id hex hpr, Or.inr ⟨rfl, rfl⟩⟩

/-- The first test of a proxy, and what comes behind it. -/
theorem exec_barrierRdOpProxy {op : BarrierRdOp} {cs : Sched ι β} {moved : Bool}
    (hflag : op.flags.proxyRecv = false)
    (hfalse : BarrierRdLeaf vgroup known true (op, .inprogress) cs)
    (htrue : ∀ p : Prog ι β (BarrierRdOp × Status), p = (barrierRdOpProxyBase op >>= fun res =>
      if res.2 ≠ .ok then pure res else barrierRdOpProxySend res.1) →
        p.Exec (BarrierRdLeaf vgroup known) moved cs ∨
          ∃ cs', cs.skip = .wait :: cs' ∧ p.Exec (BarrierRdLeaf vgroup known) true cs') :
    (barrierRdOpProxy op).Exec (BarrierRdLeaf vgroup known) moved cs := by
  rw [barrierRdOpProxy, exec_bind, barrierRdOpProxyRecv, if_neg (by rw [hflag]; decide)]
  exact ⟨hfalse, htrue _ rfl⟩

/-- The operation executes its schedule. -/
theorem barrierRd_runs (id : ℕ) : OpRuns (barrierRdFuncs : OpFuncs (Prog ι β) BarrierRdOp)
    BarrierRdOp.status id (barrierRdOpNew vgroup) (BarrierRdRel vgroup known)
      (barrierRdCmds vgroup known) where
  trigger := by
    have hiter : (barrierRdOpNew vgroup).rdIter.reset =
        rdIterAt vgroup.size vgroup.myrank 0 := by
      rw [barrierRdOpNew, init_eq_at, reset_at]
    change (barrierRdOpTrigger _ id).Exec _ _ _
    rw [barrierRdOpTrigger, exec_bind]
    refine (exec_barrierRdOpProgress hiter ?_).imp fun moved res cs h => h.2
    rw [barrierRdCmds_role, BarrierRdOp.start]
    simp only [hiter, type_at]
    split_ifs with hex hpr
    · have hpeer (i) (hi : i ≠ 2) : (rdIterAt vgroup.size vgroup.myrank i).current =
          some (vgroup.myrank + 1) := by
        rw [at_extra hex]
        exact if_neg hi
      simp only [barrierRdOpExtra, barrierRdOpNew, BarrierRdFlags.none, if_true, RdIter.valueInc,
        inc_at, hpeer 0 (by decide), hpeer 1 (by decide), exec_bind]
      refine exec_isend_cons rfl rfl ?_
      rw [if_neg (by decide), exec_bind]
      refine exec_irecv_cons rfl rfl ?_
      rw [if_neg (by decide)]
      exact exec_barrierRdLast (Or.inl ⟨hex, rfl⟩) (Or.inl rfl)
    · have hat : (⟨vgroup, .inprogress, id, ⟨true, true, false, true, true, false, false⟩,
          rdIterAt vgroup.size vgroup.myrank 1⟩ : BarrierRdOp) =
            barrierRdAt vgroup .inprogress id false 0 := by
        simp [barrierRdAt, rdOffset, hpr]
      simp only [barrierRdOpProxy, barrierRdOpProxyRecv, barrierRdOpNew, BarrierRdFlags.none,
        if_true, RdIter.valueInc, inc_at, (current_proxy hpr).1, exec_bind]
      refine exec_irecv_cons rfl rfl ?_
      rw [exec_pure]
      dsimp only
      rw [if_neg (by decide), exec_bind, hat]
      refine exec_testall_wait ?_ ?_
      · exact ⟨.fromExtra .inprogress id hpr, Or.inl ⟨rfl, rfl, trivial⟩⟩
      · exact exec_barrierRdOpProxyBase hpr false (Nat.zero_le _) Bool.noConfusion
    · have hat : (⟨vgroup, .inprogress, id, ⟨true, true, false, false, false, false, false⟩,
          rdIterAt vgroup.size vgroup.myrank 0⟩ : BarrierRdOp) =
            barrierRdAt vgroup .inprogress id false 0 := by
        simp [barrierRdAt, rdOffset, hpr]
      simp only [barrierRdOpNew, BarrierRdFlags.none]
      rw [hat]
      exact exec_barrierRdOpBase_leaf hex hpr false (Nat.zero_le _) Bool.noConfusion
  progress op cs hrel := by
    change (barrierRdOpProgress op).Exec _ _ _
    cases hrel with
    | @step st id k hex hk =>
      refine exec_barrierRdOpProgress rfl ?_
      rw [if_neg hex]
      split_ifs with hpr
      · refine exec_barrierRdOpProxy rfl
          ⟨.step .inprogress id hex hk, Or.inl ⟨rfl, rfl, trivial⟩⟩ ?_
        rintro p rfl
        exact Or.inl (exec_barrierRdOpProxyBase hpr true hk.le fun _ => hk)
      · exact exec_barrierRdOpBase_leaf hex hpr true hk.le fun _ => hk
    | fromExtra st id hpr =>
      refine exec_barrierRdOpProgress rfl ?_
      rw [if_neg hpr.not_extra, if_pos hpr]
      refine exec_barrierRdOpProxy rfl
        ⟨.fromExtra .inprogress id hpr, Or.inl ⟨rfl, rfl, trivial⟩⟩ ?_
      rintro p rfl
      exact Or.inr ⟨_, rfl, exec_barrierRdOpProxyBase hpr false (Nat.zero_le _) Bool.noConfusion⟩
    | base st id hex hpr =>
      refine exec_barrierRdOpProgress rfl ?_
      rw [if_neg hex, if_neg hpr]
      have hcs : ([] : Sched ι β) = barrierRdSteps vgroup known (rdSteps vgroup.size) ++
          barrierRdTail vgroup := by
        rw [barrierRdSteps_end, barrierRdTail, if_neg hpr, List.append_nil]
      rw [hcs]
      exact exec_barrierRdOpBase_leaf hex hpr false le_rfl Bool.noConfusion
    | @last st id idx flags _ hrole hcs =>
      refine exec_barrierRdOpProgress rfl ?_
      obtain ⟨hex, rfl⟩ | ⟨hpr, rfl⟩ := hrole
      · rw [if_pos hex]
        exact exec_barrierRdLast (Or.inl ⟨hex, rfl⟩) hcs
      · rw [if_neg hpr.not_extra, if_pos hpr]
        have hstop : cs.AtStop := by obtain rfl | rfl := hcs <;> trivial
        refine exec_barrierRdOpProxy rfl
          ⟨.last .inprogress id idx (Or.inr ⟨hpr, rfl⟩) hcs, Or.inl ⟨rfl, rfl, hstop⟩⟩ ?_
        rintro p rfl
        exact Or.inl (exec_barrierRdLast (Or.inr ⟨hpr, rfl⟩) hcs)

/-! ### It comes to its end -/

/-- The loop, when nothing is in flight: it posts the messages of a step, or is over. -/
theorem busy_barrierRdOpBase (hex : ¬RdExtra vgroup.size vgroup.myrank) :
    ∀ {fuel k : ℕ} {posted : Bool}, k ≤ rdSteps vgroup.size → rdSteps vgroup.size - k ≤ fuel →
      (posted = true → k < rdSteps vgroup.size) →
      (barrierRdOpBase fuel (barrierRdAt vgroup st id posted k) : Prog ι β _).Busy
        fun res => res.2 = .ok := by
  intro fuel
  induction fuel with
  | zero =>
    intro k posted hk hfuel _
    obtain rfl : k = rdSteps vgroup.size := by omega
    have hnone : (barrierRdAt vgroup st id posted (rdSteps vgroup.size)).rdIter.baseValue = none :=
      (baseValue_at hex le_rfl).trans (if_pos rfl)
    rw [barrierRdOpBase, hnone]
    rfl
  | succ fuel ih =>
    intro k posted hk hfuel hposted
    have hvalue : (barrierRdAt vgroup st id posted k).rdIter.baseValue =
        if k = rdSteps vgroup.size then none else some (rdPeer vgroup.size k vgroup.myrank) :=
      baseValue_at hex hk
    rw [barrierRdOpBase, hvalue]
    split_ifs with hend
    · rfl
    · cases posted with
      | false => trivial
      | true =>
        have hnext := @ih (k + 1) false (by omega) (by omega) nofun
        rw [← barrierRdAt_next] at hnext
        exact hnext

/-- The exchange of a proxy and what comes behind it. -/
theorem busy_barrierRdOpProxy (hpr : RdProxy vgroup.size vgroup.myrank) {k : ℕ} {posted : Bool}
    (hk : k ≤ rdSteps vgroup.size) (hposted : posted = true → k < rdSteps vgroup.size) :
    (barrierRdOpProxy (barrierRdAt vgroup st id posted k) : Prog ι β _).Busy
      fun res => res.2 ≠ .inprogress := by
  have hbase := @busy_barrierRdOpBase ι β vgroup st id hpr.not_extra
    (barrierRdAt vgroup st id posted k).rdIter.maxIdx k posted hk
    ((Nat.sub_le _ _).trans (le_maxIdx hpr.not_extra _)) hposted
  rw [barrierRdOpProxy, barrierRdOpProxyRecv, if_neg (by exact Bool.false_ne_true)]
  simp only [busy_bind, busy_pure, busy_p2pTestall, ne_eq, not_true_eq_false, if_false]
  rw [barrierRdOpProxyBase, if_pos (by exact decide_eq_true hpr), busy_bind]
  refine hbase.imp ?_
  rintro ⟨op, st⟩ ⟨rfl : st = .ok⟩
  simp only [ne_eq, not_true_eq_false, if_false, busy_pure, barrierRdOpProxySend]
  split_ifs
  · cases op.rdIter.valueInc.1 <;> simp
  · simp

/-- A call that finds nothing in flight posts a message or is the last one. -/
theorem busy_barrierRdOpProgress {op : BarrierRdOp} {cs : Sched ι β}
    (h : BarrierRdRel vgroup known op cs) :
    (barrierRdOpProgress op : Prog ι β _).Busy fun res => res.1.status ≠ .inprogress := by
  have hrole {idx : ℕ} (hiter : op.rdIter = rdIterAt vgroup.size vgroup.myrank idx)
      (h : (if RdExtra vgroup.size vgroup.myrank then barrierRdOpExtra op
        else if RdProxy vgroup.size vgroup.myrank then barrierRdOpProxy op
        else barrierRdOpBase op.rdIter.maxIdx op : Prog ι β _).Busy fun res =>
          res.2 ≠ .inprogress) :
      (barrierRdOpProgress op : Prog ι β _).Busy fun res => res.1.status ≠ .inprogress := by
    have htype : op.rdIter.type = if RdExtra vgroup.size vgroup.myrank then .extra
        else if RdProxy vgroup.size vgroup.myrank then .proxy else .base := by
      rw [hiter, type_at]
    rw [barrierRdOpProgress, htype]
    split_ifs at h ⊢ <;> exact busy_bind.mpr (h.imp fun _ hres => hres)
  have hbase {st : Status} {id k : ℕ} {posted : Bool} (hex : ¬RdExtra vgroup.size vgroup.myrank)
      (hk : k ≤ rdSteps vgroup.size) (hposted : posted = true → k < rdSteps vgroup.size) :
      (barrierRdOpBase (barrierRdAt vgroup st id posted k).rdIter.maxIdx
        (barrierRdAt vgroup st id posted k) : Prog ι β _).Busy fun res => res.2 ≠ .inprogress :=
    (busy_barrierRdOpBase hex hk ((Nat.sub_le _ _).trans (le_maxIdx hex _)) hposted).imp
      fun res hok => by simp [hok]
  cases h with
  | step st id hex hk =>
    refine hrole rfl ?_
    rw [if_neg hex]
    split_ifs with hpr
    · exact busy_barrierRdOpProxy hpr hk.le fun _ => hk
    · exact hbase hex hk.le fun _ => hk
  | fromExtra st id hpr =>
    refine hrole rfl ?_
    rw [if_neg hpr.not_extra, if_pos hpr]
    exact busy_barrierRdOpProxy hpr (Nat.zero_le _) nofun
  | base st id hex hpr =>
    refine hrole rfl ?_
    rw [if_neg hex, if_neg hpr]
    exact hbase hex le_rfl nofun
  | last st id idx hlast hcs =>
    refine hrole rfl ?_
    obtain ⟨hex, rfl⟩ | ⟨hpr, rfl⟩ := hlast
    · rw [if_pos hex]
      exact Status.noConfusion
    · rw [if_neg hpr.not_extra, if_pos hpr]
      exact Status.noConfusion

theorem barrierRd_lively (id : ℕ) : OpLively (barrierRdFuncs : OpFuncs (Prog ι β) BarrierRdOp)
    BarrierRdOp.status id (barrierRdOpNew vgroup) :=
  (@barrierRd_runs ι β vgroup (fun _ => ∅) id).lively fun _ _ h => busy_barrierRdOpProgress h

/-- The operation obeys its trace: a rank that has finished has heard of all that its pair has
    heard of. -/
theorem barrierRd_obeys [DecidableEq ι] (hv : vgroup.myrank < vgroup.size) (id : ℕ) {m : ι → β}
    {k : Set ℕ} (hknow : known vgroup.myrank ⊆ k) :
    ∃ inv, Obeys barrierRdFuncs BarrierRdOp.status id (barrierRdOpNew vgroup) inv
      (fun _ k => rdKnow vgroup.size known (rdSteps vgroup.size)
        (rdNew vgroup.size vgroup.myrank) ⊆ k)
      ⟨m, [], (barrierRdTrace vgroup.size known vgroup.myrank).map
        (Event.mapPeer vgroup.rankMap), k⟩ := by
  refine ⟨_, (barrierRd_runs id).obeys stable_knows
    (Sound.wp (sound_rdSignals vgroup.myrank) hknow ?_)⟩
  rw [signalTrace_rdSignals hv]

end Exec

/-! ### Every run -/

section Runs

variable [DecidableEq ι]

/-- What a barrier does in every run: a rank that has finished is told so with `UCG_OK`, and then
    all ranks have started; and from every state all ranks come to their end. -/
structure BarrierMeets {σ : Type} (n : ℕ) (proc : ℕ → Proc ι β σ) (status : σ → Status)
    (N : Net ι β σ) : Prop where
  safe : ∀ r < n, ∀ op, N.FinishedIn r op → status op = .ok ∧ ∀ q < n, N.Started q
  live : ∃ acts N', N.run n proc acts = some N' ∧ ∀ r < n, ∃ op, N'.FinishedIn r op

/-- Operations that hear of all ranks, on traces made of rounds. -/
theorem barrierMeets {O : Type} {n K id : ℕ} {f : OpFuncs (Prog ι β) O} {status : O → Status}
    {ops : ℕ → O} {trace : ℕ → List (Event β)} {m : ℕ → ι → β} (hpaced : Paced K trace)
    (hout : ∀ r, n ≤ r → trace r = [])
    (hobeys : ∀ r < n, ∃ inv, Obeys f status id (ops r) inv (fun _ k => {q | q < n} ⊆ k)
      ⟨m r, [], trace r, {r}⟩)
    (hlive : ∀ r < n, ∃ G μ, (opProc f status (ops r) id).Lively G μ) {acts : List Act}
    {N : Net ι β O}
    (hrun : (Net.init m).run n (fun r => opProc f status (ops r) id) acts = some N) :
    BarrierMeets n (fun r => opProc f status (ops r) id) status N := by
  obtain ⟨hsafe, hlive⟩ := obeys_run hpaced hout hobeys hlive hrun
  refine ⟨fun r hr op hfin => ?_, hlive⟩
  obtain ⟨hok, know, hall, hstarted⟩ := hsafe r hr op hfin
  exact ⟨hok, fun q hq => hstarted q (hall hq)⟩

/-- The request of rank `r` of a group of `n` ranks. -/
def barrierRdProc (n id r : ℕ) : Proc ι β BarrierRdOp :=
  opProc barrierRdFuncs BarrierRdOp.status (barrierRdOpNew ⟨n, r, fun q => q⟩) id

/-- No rank leaves the barrier before all have come to it, and all can leave it then. -/
theorem barrierRd_correct (n id : ℕ) (m : ℕ → ι → β) (acts : List Act) (N : Net ι β BarrierRdOp)
    (hrun : (Net.init m).run n (barrierRdProc n id) acts = some N) :
    BarrierMeets n (barrierRdProc n id) BarrierRdOp.status N := by
  refine barrierMeets (@paced_barrierRdTrace β n fun v => {v})
    (fun r hr => barrierRdTrace_of_le hr) (fun r hr => ?_)
    (fun r _ => (barrierRd_lively id).proc.imp fun _ h => ⟨_, h⟩) hrun
  obtain ⟨inv, hinv⟩ := @barrierRd_obeys ι β ⟨n, r, fun q => q⟩ (fun v => {v}) _ hr id (m r) {r}
    subset_rfl
  rw [map_mapPeer_id] at hinv
  exact ⟨inv, hinv.imp fun _ _ hknow q hq => hknow (subset_rdKnow hq (rdNew_lt hr) rfl)⟩

end Runs

/-! A run of three ranks: rank 0 is an extra, rank 1 its proxy, rank 2 a base rank. Rank 0 finishes
    before rank 1 is called for the last time. -/

def threeBarrierActs : List Act :=
  [.start 0, .start 1, .start 2, .exec 0, .exec 0, .exec 0, .exec 0, .exec 1, .exec 1, .exec 1,
    .exec 2, .exec 2, .exec 2, .exec 2, .deliver 0 1, .sent 0, .sent 2, .resume 1, .exec 1, .exec 1,
    .exec 1, .exec 1, .exec 1, .deliver 1 2, .deliver 2 1, .sent 1, .resume 1, .exec 1, .exec 1,
    .exec 1, .exec 1, .exec 1, .deliver 1 0, .sent 1, .resume 0, .exec 0, .exec 0]

theorem barrierRd_correct_three : ∃ N op,
    (Net.init fun _ (_ : ℕ) => 0).run 3 (barrierRdProc 3 7) threeBarrierActs = some N ∧
      N.FinishedIn 0 op ∧ BarrierMeets 3 (barrierRdProc 3 7) BarrierRdOp.status N := by
  have hsome : (((Net.init fun _ (_ : ℕ) => 0).run 3 (barrierRdProc 3 7)
      threeBarrierActs).bind fun N => (N.node 0).ctl.result).isSome := by decide +kernel
  obtain ⟨op, hbind⟩ := Option.isSome_iff_exists.mp hsome
  obtain ⟨N, hrun, hop⟩ := Option.bind_eq_some_iff.mp hbind
  exact ⟨N, op, hrun, Ctl.result_eq_some.mp hop, barrierRd_correct 3 7 _ threeBarrierActs N hrun⟩

end Kucg.Ucx
