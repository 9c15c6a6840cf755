import Kucg.Algo.Rd
import Kucg.Ucx.P2p
import Kucg.Ucx.PlanOp

/-! The recursive-doubling allreduce of `allreduce_rd.c`.

    The operation keeps two buffers and swaps their roles whenever its result goes to the left of
    that of its peer, so that contributions are combined in rank order. A progress call resumes at
    the step whose messages have been posted, which the flags and the iterator tell. -/

namespace Kucg.Ucx

open Kucg.Core Kucg.Lib Kucg.Algo

variable {B β : Type}

/-- `ucg_coll_allreduce_args_t`; `UCG_IN_PLACE` is `none`. -/
structure AllreduceArgs (B : Type) where
  sendbuf : Option (Cell B)
  recvbuf : Cell B
  count : ℕ

/-- The call as its caller makes it: the input is `y`, in the receive buffer if the call is in place
    and otherwise in a send buffer that does not overlap it. -/
structure AllreduceArgs.Brings {β : Type} (args : AllreduceArgs B) (m : Cell B → β) (y : ℕ → β) :
    Prop where
  input : Holds m (args.sendbuf.getD args.recvbuf) args.count y
  apart : ∀ sendbuf ∈ args.sendbuf, Apart sendbuf args.count args.recvbuf args.count

/-- The flags of the operation, a bit each. -/
structure RdFlags where
  baseSend : Bool
  baseRecv : Bool
  proxyRecv : Bool
  proxyReduce : Bool
  proxyBase : Bool
  proxySend : Bool
  extraSend : Bool
  extraRecv : Bool

/-- No flag. -/
def RdFlags.none : RdFlags := ⟨false, false, false, false, false, false, false, false⟩

/-- `ucg_planc_ucx_op_t` of a recursive-doubling allreduce. -/
structure AllreduceRdOp (B : Type) where
  vgroup : VGroup
  args : AllreduceArgs B
  status : Status
  id : ℕ
  flags : RdFlags
  stagingArea : Cell B
  iter : RdIter
  stagingAreaStored : Cell B
  recvbufStored : Cell B

section Functions

variable [DecidableEq B] (reduce : β → β → β)

/-- The loop of `ucg_planc_ucx_allreduce_rd_op_base`, up to the test: what has not been posted in
    this step is. -/
def allreduceRdOpPost (op : AllreduceRdOp B) (peer : ℕ) :
    Prog (Cell B) β (AllreduceRdOp B × Status) := do
  let mut op := op
  if op.flags.baseSend then
    op := { op with flags := { op.flags with baseSend := false } }
    let status ← p2pIsend (span op.recvbufStored op.args.count) (some peer) op.vgroup
    if status ≠ .ok then return (op, status)
  if op.flags.baseRecv then
    op := { op with flags := { op.flags with baseRecv := false } }
    let status ← p2pIrecv (span op.stagingAreaStored op.args.count) (some peer) op.vgroup 0
    if status ≠ .ok then return (op, status)
  return (op, .ok)

/-- The loop from the test on. -/
def allreduceRdOpFinish (op : AllreduceRdOp B) (peer : ℕ) :
    Prog (Cell B) β (AllreduceRdOp B × Status) := do
  let tempRecvbuf := op.recvbufStored
  let tempStagingArea := op.stagingAreaStored
  let mut op := op
  let status ← p2pTestall
  if status ≠ .ok then return (op, status)
  if op.vgroup.myrank < peer then
    opReduce reduce (span tempRecvbuf op.args.count) (span tempStagingArea op.args.count)
    op := { op with stagingAreaStored := tempRecvbuf, recvbufStored := tempStagingArea }
  else
    opReduce reduce (span tempStagingArea op.args.count) (span tempRecvbuf op.args.count)
  op := { op with iter := op.iter.inc, flags :=
    { op.flags with baseSend := true, baseRecv := true } }
  return (op, .ok)

/-- `ucg_planc_ucx_allreduce_rd_op_base`. The fuel bounds the number of iterations; the iterator
    has no more than `max_idx` values. -/
def allreduceRdOpBase (fuel : ℕ) (op : AllreduceRdOp B) :
    Prog (Cell B) β (AllreduceRdOp B × Status) :=
  match op.iter.baseValue with
  | none => do
    if op.recvbufStored ≠ op.args.recvbuf then
      dtMemcpy (span op.args.recvbuf op.args.count) (span op.recvbufStored op.args.count)
    return (op, .ok)
  | some peer =>
    match fuel with
    | 0 => return (op, .inprogress)
    | fuel + 1 => do
      let (op, status) ← allreduceRdOpPost op peer
      if status ≠ .ok then return (op, status)
      let (op, status) ← allreduceRdOpFinish reduce op peer
      if status ≠ .ok then return (op, status)
      allreduceRdOpBase fuel op

/-- The receive of a proxy from its extra. -/
def allreduceRdOpProxyRecv (op : AllreduceRdOp B) :
    Prog (Cell B) β (AllreduceRdOp B × Status) := do
  if op.flags.proxyRecv then
    let (peer, iter) := op.iter.valueInc
    let op := { op with iter := iter, flags := { op.flags with proxyRecv := false } }
    let status ← p2pIrecv (span op.stagingAreaStored op.args.count) peer op.vgroup 0
    return (op, status)
  else return (op, .ok)

/-- The reduction with what the extra sent, and the exchange. -/
def allreduceRdOpProxyBase (op : AllreduceRdOp B) :
    Prog (Cell B) β (AllreduceRdOp B × Status) := do
  let mut op := op
  if op.flags.proxyReduce then
    op := { op with flags := { op.flags with proxyReduce := false } }
    opReduce reduce (span op.stagingAreaStored op.args.count) (span op.args.recvbuf op.args.count)
  if op.flags.proxyBase then
    let (op', status) ← allreduceRdOpBase reduce op.iter.maxIdx op
    op := op'
    if status ≠ .ok then return (op, status)
    op := { op with flags := { op.flags with proxyBase := false } }
  return (op, .ok)

/-- The send of the result to the extra, and the last test. -/
def allreduceRdOpProxySend (op : AllreduceRdOp B) :
    Prog (Cell B) β (AllreduceRdOp B × Status) := do
  let mut op := op
  if op.flags.proxySend then
    let (peer, iter) := op.iter.valueInc
    op := { op with iter := iter, flags := { op.flags with proxySend := false } }
    let status ← p2pIsend (span op.args.recvbuf op.args.count) peer op.vgroup
    if status ≠ .ok then return (op, status)
  let status ← p2pTestall
  return (op, status)

/-- `ucg_planc_ucx_allreduce_rd_op_proxy`. -/
def allreduceRdOpProxy (op : AllreduceRdOp B) : Prog (Cell B) β (AllreduceRdOp B × Status) := do
  let (op, status) ← allreduceRdOpProxyRecv op
  if status ≠ .ok then return (op, status)
  let status ← p2pTestall
  if status ≠ .ok then return (op, status)
  let (op, status) ← allreduceRdOpProxyBase reduce op
  if status ≠ .ok then return (op, status)
  allreduceRdOpProxySend op

/-- `ucg_planc_ucx_allreduce_rd_op_extra`. -/
def allreduceRdOpExtra (op : AllreduceRdOp B) : Prog (Cell B) β (AllreduceRdOp B × Status) := do
  let count := op.args.count
  let sendbuf := op.args.sendbuf.getD op.args.recvbuf
  let mut op := op
  if op.flags.extraSend then
    let (peer, iter) := op.iter.valueInc
    op := { op with iter := iter, flags := { op.flags with extraSend := false } }
    let status ← p2pIsend (span sendbuf count) peer op.vgroup
    if status ≠ .ok then return (op, status)
  if op.flags.extraRecv then
    let (peer, iter) := op.iter.valueInc
    op := { op with iter := iter, flags := { op.flags with extraRecv := false } }
    let status ← p2pIrecv (span op.args.recvbuf count) peer op.vgroup 0
    if status ≠ .ok then return (op, status)
  let status ← p2pTestall
  return (op, status)

/-- `ucg_planc_ucx_allreduce_rd_op_progress`. -/
def allreduceRdOpProgress (op : AllreduceRdOp B) :
    Prog (Cell B) β (AllreduceRdOp B × Status) := do
  let (op, status) ← match op.iter.type with
    | .base => allreduceRdOpBase reduce op.iter.maxIdx op
    | .proxy => allreduceRdOpProxy reduce op
    | .extra => allreduceRdOpExtra op
  return ({ op with status := status }, status)

/-- `ucg_planc_ucx_allreduce_rd_op_trigger`. -/
def allreduceRdOpTrigger (op : AllreduceRdOp B) (id : ℕ) :
    Prog (Cell B) β (AllreduceRdOp B × Status) := do
  let mut op :=
    { op with id := id, status := .inprogress, flags := RdFlags.none, iter := op.iter.reset }
  if op.iter.type = .base ∨ op.iter.type = .proxy then
    op := { op with flags := { op.flags with baseSend := true, baseRecv := true } }
    if op.iter.type = .proxy then
      op := { op with
        flags := { op.flags with
          proxyRecv := true, proxyReduce := true, proxyBase := true, proxySend := true } }
    op := { op with stagingAreaStored := op.stagingArea, recvbufStored := op.args.recvbuf }
    if let some sendbuf := op.args.sendbuf then
      dtMemcpy (span op.args.recvbuf op.args.count) (span sendbuf op.args.count)
  else
    op := { op with flags := { op.flags with extraSend := true, extraRecv := true } }
  let (op', status) ← allreduceRdOpProgress reduce op
  return (op', if status = .inprogress then .ok else status)

/-- The trigger and progress functions of the operation. -/
def allreduceRdFuncs : OpFuncs (Prog (Cell B) β) (AllreduceRdOp B) where
  trigger := allreduceRdOpTrigger reduce
  progress := allreduceRdOpProgress reduce

/-- `ucg_planc_ucx_allreduce_rd_op_new`, with the staging area that it allocates. -/
def allreduceRdOpNew (vgroup : VGroup) (args : AllreduceArgs B) (stagingArea : Cell B) :
    AllreduceRdOp B where
  vgroup := vgroup
  args := args
  status := .ok
  id := 0
  flags := RdFlags.none
  stagingArea := stagingArea
  iter := RdIter.init vgroup.size vgroup.myrank
  stagingAreaStored := stagingArea
  recvbufStored := args.recvbuf

end Functions

/-! ### The exchange of a proxy or a base rank -/

section Exchange

variable [Semigroup β]

/-- What new rank `w` holds after `k` steps, from the inputs `x` of all ranks. -/
abbrev rdData (n : ℕ) (x : ℕ → ℕ → β) (k w : ℕ) : ℕ → β := rdValue (· * ·) n x k w

/-- Which ranks new rank `w` knows to have started, from what every rank `v` knows at first. -/
abbrev rdKnow (n : ℕ) (known : ℕ → Set ℕ) (k w : ℕ) : Set ℕ := rdValue (· ∪ ·) n known k w

/-- The message of new rank `w` in step `k`. -/
def rdMessage (n count : ℕ) (x : ℕ → ℕ → β) (known : ℕ → Set ℕ) (k w : ℕ) : List β × Set ℕ :=
  (vec count (rdData n x k w), rdKnow n known k w)

/-- The messages of rank `v`. -/
def allreduceRdTrace (n count : ℕ) (x : ℕ → ℕ → β) (known : ℕ → Set ℕ) (v : ℕ) :
    List (Event β) :=
  rdTrace n (fun v => (vec count (x v), known v)) (rdMessage n count x known) v

/-- The steps of the exchange from `k` on. -/
def allreduceRdSteps (n count : ℕ) (x : ℕ → ℕ → β) (known : ℕ → Set ℕ) (v k : ℕ) :
    List (Event β) :=
  (List.range' k (rdSteps n - k)).flatMap fun k => rdRound n (rdMessage n count x known) k v

variable (vgroup : VGroup) (args : AllreduceArgs B) (staging : Cell B) (x : ℕ → ℕ → β)
  (known : ℕ → Set ℕ) (more : List (Event β))

/-- The state of the exchange in step `k`, except for what has been posted. -/
structure RdExchange (k : ℕ) (op : AllreduceRdOp B) (g : Ghost (Cell B) β) : Prop where
  vgroup_eq : op.vgroup = vgroup
  args_eq : op.args = args
  iter_eq : op.iter = rdIterAt vgroup.size vgroup.myrank (rdOffset vgroup.size vgroup.myrank + k)
  proxy : op.flags.proxyRecv = false ∧ op.flags.proxyReduce = false ∧
    (op.flags.proxyBase = true ↔ RdProxy vgroup.size vgroup.myrank) ∧
    (op.flags.proxySend = true ↔ RdProxy vgroup.size vgroup.myrank)
  bufs : (op.recvbufStored = args.recvbuf ∧ op.stagingAreaStored = staging) ∨
    (op.recvbufStored = staging ∧ op.stagingAreaStored = args.recvbuf)
  mine : Holds g.mem op.recvbufStored args.count
    (rdData vgroup.size x k (rdNew vgroup.size vgroup.myrank))
  knows : rdKnow vgroup.size known k (rdNew vgroup.size vgroup.myrank) ⊆ g.know

/-- Nothing has been posted in step `k`. -/
structure RdReady (k : ℕ) (op : AllreduceRdOp B) (g : Ghost (Cell B) β) : Prop
    extends RdExchange vgroup args staging x known k op g where
  flags : op.flags.baseSend = true ∧ op.flags.baseRecv = true
  pend : g.pend = []
  todo : g.todo = (allreduceRdSteps vgroup.size args.count x known vgroup.myrank k).map
    (Event.mapPeer vgroup.rankMap) ++ more

/-- The messages of step `k` have been posted. -/
structure RdPosted (k : ℕ) (op : AllreduceRdOp B) (g : Ghost (Cell B) β) : Prop
    extends RdExchange vgroup args staging x known k op g where
  flags : op.flags.baseSend = false ∧ op.flags.baseRecv = false
  pend : ∀ p ∈ g.pend, p.dst = span op.stagingAreaStored args.count
  theirs : Holds g.mem op.stagingAreaStored args.count
    (rdData vgroup.size x k (rdNew vgroup.size vgroup.myrank ^^^ 2 ^ k))
  learns : rdKnow vgroup.size known k (rdNew vgroup.size vgroup.myrank ^^^ 2 ^ k) ⊆ g.learn g.pend
  todo : g.todo = (allreduceRdSteps vgroup.size args.count x known vgroup.myrank (k + 1)).map
    (Event.mapPeer vgroup.rankMap) ++ more

variable {vgroup args staging x known more}

/-- The messages by role. -/
theorem allreduceRdTrace_role (n count : ℕ) (x : ℕ → ℕ → β) (known : ℕ → Set ℕ) (v : ℕ) :
    allreduceRdTrace n count x known v =
      if RdExtra n v then [.send (v + 1) (vec count (x v)) (known v),
        .recv (v + 1) (vec count (rdData n x (rdSteps n) (rdNew n v)))
          (rdKnow n known (rdSteps n) (rdNew n v))]
      else if RdProxy n v then .recv (v - 1) (vec count (x (v - 1))) (known (v - 1)) ::
        allreduceRdSteps n count x known v 0 ++
          rdUnfold n (rdMessage n count x known) v
      else allreduceRdSteps n count x known v 0 := by
  have hsteps : allreduceRdSteps n count x known v 0 = (List.range (rdSteps n)).flatMap fun k =>
      rdRound n (rdMessage n count x known) k v := by
    rw [allreduceRdSteps, Nat.sub_zero, List.range_eq_range']
  rw [hsteps, allreduceRdTrace, rdTrace]
  split_ifs with hex hpr
  · have hround (k) : rdRound n (rdMessage n count x known) k v = [] :=
      if_neg fun h => h.2 hex
    simp [rdFold, rdUnfold, hex, hround, rdMessage]
  · simp [rdFold, hex, hpr]
  · simp [rdFold, rdUnfold, hex, hpr]

theorem allreduceRdSteps_cons {n count v k : ℕ} (hv : v < n) (hex : ¬RdExtra n v)
    (hk : k < rdSteps n) : allreduceRdSteps n count x known v k =
      .send (rdPeer n k v) (vec count (rdData n x k (rdNew n v))) (rdKnow n known k (rdNew n v)) ::
      .recv (rdPeer n k v) (vec count (rdData n x k (rdNew n v ^^^ 2 ^ k)))
        (rdKnow n known k (rdNew n v ^^^ 2 ^ k)) ::
        allreduceRdSteps n count x known v (k + 1) := by
  obtain ⟨d, hd⟩ : ∃ d, rdSteps n - k = d + 1 := ⟨rdSteps n - k - 1, by omega⟩
  rw [allreduceRdSteps, hd, List.range'_succ, List.flatMap_cons, rdRound, if_pos ⟨hv, hex⟩,
    allreduceRdSteps, show rdSteps n - (k + 1) = d by omega]
  rfl

/-- After step `k` a rank knows what it and its peer knew. -/
theorem rdKnow_succ_subset {n k w : ℕ} {S : Set ℕ} (hmine : rdKnow n known k w ⊆ S)
    (hpeer : rdKnow n known k (w ^^^ 2 ^ k) ⊆ S) : rdKnow n known (k + 1) w ⊆ S := by
  rw [rdKnow, rdValue_succ]
  split_ifs
  · exact Set.union_subset hmine hpeer
  · exact Set.union_subset hpeer hmine

theorem RdExchange.apart {k : ℕ} {op : AllreduceRdOp B} {g : Ghost (Cell B) β}
    (h : RdExchange vgroup args staging x known k op g)
    (hap : Apart args.recvbuf args.count staging args.count) :
    Apart op.recvbufStored args.count op.stagingAreaStored args.count := by
  rcases h.bufs with ⟨hr, hs⟩ | ⟨hr, hs⟩ <;> rw [hr, hs]
  · exact hap
  · exact hap.symm

variable [DecidableEq B]

/-- Posting the messages of step `k`. -/
theorem wp_rdPost {k : ℕ} {op : AllreduceRdOp B} {g : Ghost (Cell B) β}
    (h : RdReady vgroup args staging x known more k op g) (hk : k < rdSteps vgroup.size)
    (hv : vgroup.myrank < vgroup.size) (hex : ¬RdExtra vgroup.size vgroup.myrank)
    (hap : Apart args.recvbuf args.count staging args.count) :
    (allreduceRdOpPost op (rdPeer vgroup.size k vgroup.myrank)).wp
      (fun res g => res.2 = .ok ∧ RdPosted vgroup args staging x known more k res.1 g) g := by
  have hfree (i) : g.Free i := fun p hp => absurd (h.pend ▸ hp) List.not_mem_nil
  have htodo := h.todo
  rw [allreduceRdSteps_cons hv hex hk] at htodo
  have hap' := h.apart hap
  simp only [allreduceRdOpPost, h.flags.1, h.flags.2, h.args_eq, h.vgroup_eq, htodo, if_true,
    wp_bind, wp_p2pIsend, wp_p2pIrecv, wp_pure, h.mine.map_span, ne_eq, not_true_eq_false, if_false,
    List.map_cons, List.cons_append]
  refine ⟨fun i _ => hfree i, _, _, rfl, h.knows, fun i _ => hfree i, _, _, _, rfl,
    by simp, trivial, ?_⟩
  exact {
    vgroup_eq := rfl
    args_eq := rfl
    iter_eq := h.iter_eq
    proxy := h.proxy
    bufs := h.bufs
    mine := h.mine.write hap'
    knows := h.knows
    flags := ⟨rfl, rfl⟩
    pend := by simp [h.pend]
    theirs := holds_write _ _ _ _
    learns := Ghost.subset_learn_append _ _ _ _ _
    todo := rfl }

/-- Finishing step `k`, or not. -/
theorem wp_rdFinish {k : ℕ} {op : AllreduceRdOp B} {g : Ghost (Cell B) β}
    (h : RdPosted vgroup args staging x known more k op g)
      (hex : ¬RdExtra vgroup.size vgroup.myrank)
    (hap : Apart args.recvbuf args.count staging args.count) :
    (allreduceRdOpFinish (· * ·) op (rdPeer vgroup.size k vgroup.myrank)).wp
      (fun res g => (res.2 = .ok ∧ RdReady vgroup args staging x known more (k + 1) res.1 g) ∨
        (res.2 = .inprogress ∧ RdPosted vgroup args staging x known more k res.1 g)) g := by
  have hap' := h.apart hap
  have hfree (i) : g.doneAll.Free i := fun p hp => absurd hp List.not_mem_nil
  have hiter : op.iter.inc = rdIterAt vgroup.size vgroup.myrank
      (rdOffset vgroup.size vgroup.myrank + (k + 1)) := by rw [h.iter_eq, inc_at, add_assoc]
  have hswap : (op.stagingAreaStored = args.recvbuf ∧ op.recvbufStored = staging) ∨
      (op.stagingAreaStored = staging ∧ op.recvbufStored = args.recvbuf) :=
    h.bufs.symm.imp And.symm And.symm
  have hnext : rdData vgroup.size x (k + 1) (rdNew vgroup.size vgroup.myrank) = _ :=
    rdValue_succ (· * ·) vgroup.size x k (rdNew vgroup.size vgroup.myrank)
  have hknows : rdKnow vgroup.size known (k + 1) (rdNew vgroup.size vgroup.myrank) ⊆
      g.doneAll.know :=
    rdKnow_succ_subset (h.knows.trans (g.know_subset_learn _)) h.learns
  simp only [allreduceRdOpFinish, wp_bind, wp_p2pTestall]
  refine ⟨?_, ?_⟩
  · simp only [h.vgroup_eq, h.args_eq, lt_rdPeer_iff hex, ne_eq, not_true_eq_false, if_false]
    split_ifs with hlt
    · -- the peer is to the right: the result is in its buffer
      rw [if_pos hlt] at hnext
      simp only [wp_bind, wp_opReduce, wp_pure]
      refine ⟨fun i _ => hfree i, fun i _ => hfree i, Or.inl ⟨trivial, ?_⟩⟩
      exact {
        vgroup_eq := rfl
        args_eq := rfl
        iter_eq := hiter
        proxy := h.proxy
        bufs := hswap
        mine := by
          rw [hnext]
          exact h.mine.zip h.theirs hap'
        knows := hknows
        flags := ⟨rfl, rfl⟩
        pend := rfl
        todo := h.todo }
    · rw [if_neg hlt] at hnext
      simp only [wp_bind, wp_opReduce, wp_pure]
      refine ⟨fun i _ => hfree i, fun i _ => hfree i, Or.inl ⟨trivial, ?_⟩⟩
      exact {
        vgroup_eq := rfl
        args_eq := rfl
        iter_eq := hiter
        proxy := h.proxy
        bufs := h.bufs
        mine := by
          rw [hnext]
          exact h.theirs.zip h.mine hap'.symm
        knows := hknows
        flags := ⟨rfl, rfl⟩
        pend := rfl
        todo := h.todo }
  · simp only [reduceCtorEq, not_false_eq_true, if_true, wp_pure, false_and, true_and, false_or,
      ne_eq]
    exact h

variable (vgroup args staging x known more) in
/-- The end of the exchange: the result is in the receive buffer. -/
structure RdEnd (op : AllreduceRdOp B) (g : Ghost (Cell B) β) : Prop
    extends RdExchange vgroup args staging x known (rdSteps vgroup.size) op g where
  pend : g.pend = []
  todo : g.todo = more
  result : Holds g.mem args.recvbuf args.count
    (rdData vgroup.size x (rdSteps vgroup.size) (rdNew vgroup.size vgroup.myrank))

/-- Behind the last step the result is copied if it is in the staging area. -/
theorem wp_rdBase_end {fuel : ℕ} {op : AllreduceRdOp B} {g : Ghost (Cell B) β}
    (h : RdExchange vgroup args staging x known (rdSteps vgroup.size) op g) (hpend : g.pend = [])
    (htodo : g.todo = more) (hex : ¬RdExtra vgroup.size vgroup.myrank)
    (hap : Apart args.recvbuf args.count staging args.count) :
    (allreduceRdOpBase (· * ·) fuel op).wp
      (fun res g => res.2 = .ok ∧ RdEnd vgroup args staging x known more res.1 g) g := by
  have hfree (i) : g.Free i := fun p hp => absurd (hpend ▸ hp) List.not_mem_nil
  have hnone : op.iter.baseValue = none := by
    rw [h.iter_eq, baseValue_at hex le_rfl, if_pos rfl]
  rw [allreduceRdOpBase, hnone]
  dsimp only
  split_ifs with hcopy
  · simp only [h.args_eq, wp_bind, wp_dtMemcpy, wp_pure]
    obtain ⟨hr, hs⟩ := h.bufs.resolve_left fun hc => hcopy (by rw [hc.1, h.args_eq])
    have hmine := h.mine
    rw [hr] at hmine ⊢
    refine ⟨fun i _ => hfree i, fun i _ => hfree i, trivial, ?_⟩
    exact {
      vgroup_eq := h.vgroup_eq
      args_eq := h.args_eq
      iter_eq := h.iter_eq
      proxy := h.proxy
      bufs := h.bufs
      mine := by
        rw [hr]
        exact hmine.zip_source hap.symm
      knows := h.knows
      pend := hpend
      todo := htodo
      result := hmine.zip (fun _ _ => rfl) hap.symm }
  · have hr : op.recvbufStored = args.recvbuf := by rw [← h.args_eq]; exact not_not.mp hcopy
    exact ⟨rfl, h, hpend, htodo, hr ▸ h.mine⟩

variable (vgroup args staging x known more) in
/-- The loop has ended, or messages have been posted that are not known to be over. -/
def RdLooped (st : Status) (op : AllreduceRdOp B) (g : Ghost (Cell B) β) : Prop :=
  (st = .ok ∧ RdEnd vgroup args staging x known more op g) ∨
    (st = .inprogress ∧ ∃ k < rdSteps vgroup.size, RdPosted vgroup args staging x known more k op g)

/-- The loop, from any step whose messages have been posted or not. -/
theorem wp_rdBase (hv : vgroup.myrank < vgroup.size) (hex : ¬RdExtra vgroup.size vgroup.myrank)
    (hap : Apart args.recvbuf args.count staging args.count) :
    ∀ (fuel : ℕ) {k : ℕ} {op : AllreduceRdOp B} {g : Ghost (Cell B) β},
      k ≤ rdSteps vgroup.size → rdSteps vgroup.size - k ≤ fuel →
      RdReady vgroup args staging x known more k op g ∨
        (k < rdSteps vgroup.size ∧ RdPosted vgroup args staging x known more k op g) →
      (allreduceRdOpBase (· * ·) fuel op).wp
        (fun res g => RdLooped vgroup args staging x known more res.2 res.1 g) g := by
  intro fuel
  induction fuel with
  | zero =>
    intro k op g hk hfuel h
    obtain rfl : k = rdSteps vgroup.size := by omega
    rcases h with h | ⟨hlt, -⟩
    · refine (wp_rdBase_end h.toRdExchange h.pend ?_ hex hap).imp fun res g => Or.inl
      rw [h.todo, allreduceRdSteps, Nat.sub_self]
      rfl
    · exact absurd hlt (lt_irrefl _)
  | succ fuel ih =>
    intro k op g hk hfuel h
    rcases hk.lt_or_eq with hlt | rfl
    · have hiter : op.iter = rdIterAt vgroup.size vgroup.myrank
          (rdOffset vgroup.size vgroup.myrank + k) := h.elim (·.iter_eq) (·.2.iter_eq)
      have hpeer : op.iter.baseValue = some (rdPeer vgroup.size k vgroup.myrank) := by
        rw [hiter, baseValue_at hex hk, if_neg hlt.ne]
      rw [allreduceRdOpBase, hpeer]
      simp only [wp_bind]
      have hpost : (allreduceRdOpPost op (rdPeer vgroup.size k vgroup.myrank)).wp
          (fun res g => res.2 = .ok ∧ RdPosted vgroup args staging x known more k res.1 g) g := by
        rcases h with h | ⟨-, h⟩
        · exact wp_rdPost h hlt hv hex hap
        · simp [allreduceRdOpPost, h.flags.1, h.flags.2]
          exact h
      refine hpost.imp ?_
      rintro ⟨op₁, st₁⟩ g₁ ⟨rfl : st₁ = .ok, h₁⟩
      simp only [ne_eq, not_true_eq_false, if_false, wp_bind]
      refine (wp_rdFinish h₁ hex hap).imp ?_
      rintro ⟨op₂, st₂⟩ g₂ (⟨rfl : st₂ = .ok, h₂⟩ | ⟨rfl : st₂ = .inprogress, h₂⟩)
      · simp only [not_true_eq_false, if_false]
        exact ih (by omega) (by omega) (Or.inl h₂)
      · simp only [reduceCtorEq, not_false_eq_true, if_true, wp_pure]
        exact Or.inr ⟨rfl, k, hlt, h₂⟩
    · rcases h with h | ⟨hlt, -⟩
      · refine (wp_rdBase_end h.toRdExchange h.pend ?_ hex hap).imp fun res g => Or.inl
        rw [h.todo, allreduceRdSteps, Nat.sub_self]
        rfl
      · exact absurd hlt (lt_irrefl _)

end Exchange

/-! ### The operation -/

section Operation

variable [Semigroup β] (vgroup : VGroup) (args : AllreduceArgs B) (staging : Cell B)
  (x : ℕ → ℕ → β) (known : ℕ → Set ℕ)

/-- The messages behind the exchange: those between an extra and its proxy. -/
def allreduceRdMore : List (Event β) :=
  (rdUnfold vgroup.size (rdMessage vgroup.size args.count x known) vgroup.myrank).map
    (Event.mapPeer vgroup.rankMap)

/-- A proxy has posted its receive from the extra. -/
structure RdWait (op : AllreduceRdOp B) (g : Ghost (Cell B) β) : Prop where
  vgroup_eq : op.vgroup = vgroup
  args_eq : op.args = args
  iter_eq : op.iter = rdIterAt vgroup.size vgroup.myrank 1
  flags : op.flags = ⟨true, true, false, true, true, true, false, false⟩
  bufs : op.recvbufStored = args.recvbuf ∧ op.stagingAreaStored = staging
  pend : ∀ p ∈ g.pend, p.dst = span staging args.count
  mine : Holds g.mem args.recvbuf args.count (x vgroup.myrank)
  theirs : Holds g.mem staging args.count (x (vgroup.myrank - 1))
  knows : known vgroup.myrank ⊆ g.know
  learns : known (vgroup.myrank - 1) ⊆ g.learn g.pend
  todo : g.todo = (allreduceRdSteps vgroup.size args.count x known vgroup.myrank 0).map
    (Event.mapPeer vgroup.rankMap) ++ allreduceRdMore vgroup args x known

/-- A proxy or an extra has posted its last message. -/
structure RdLast (op : AllreduceRdOp B) (g : Ghost (Cell B) β) : Prop where
  vgroup_eq : op.vgroup = vgroup
  args_eq : op.args = args
  iter_eq : ∃ idx, op.iter = rdIterAt vgroup.size vgroup.myrank idx
  proxy : RdProxy vgroup.size vgroup.myrank → op.flags.proxyRecv = false ∧
    op.flags.proxyReduce = false ∧ op.flags.proxyBase = false ∧ op.flags.proxySend = false
  extra : RdExtra vgroup.size vgroup.myrank → op.flags.extraSend = false ∧
    op.flags.extraRecv = false
  todo : g.todo = []
  result : Holds g.mem args.recvbuf args.count
    (rdData vgroup.size x (rdSteps vgroup.size) (rdNew vgroup.size vgroup.myrank))
  learns : rdKnow vgroup.size known (rdSteps vgroup.size) (rdNew vgroup.size vgroup.myrank) ⊆
    g.learn g.pend

/-- What a call that returns `st` leaves behind, by role. -/
def RdInv (st : Status) (op : AllreduceRdOp B) (g : Ghost (Cell B) β) : Prop :=
  if RdExtra vgroup.size vgroup.myrank then
    RdLast vgroup args x known op g ∧ (st = .inprogress ∨ st = .ok ∧ g.pend = [])
  else if RdProxy vgroup.size vgroup.myrank then
    (st = .inprogress ∧ (RdWait vgroup args staging x known op g ∨
      (∃ k < rdSteps vgroup.size,
        RdPosted vgroup args staging x known (allreduceRdMore vgroup args x known) k op g))) ∨
      RdLast vgroup args x known op g ∧ (st = .inprogress ∨ st = .ok ∧ g.pend = [])
  else RdLooped vgroup args staging x known [] st op g

variable {vgroup args staging x known}

/-- The invariant does not look at the stored status. -/
theorem RdInv.setStatus {st st' : Status} {op : AllreduceRdOp B} {g : Ghost (Cell B) β}
    (h : RdInv vgroup args staging x known st op g) :
    RdInv vgroup args staging x known st { op with status := st' } g := by
  have hposted {k} {more} (h : RdPosted vgroup args staging x known more k op g) :
      RdPosted vgroup args staging x known more k { op with status := st' } g := { h with }
  have hlast (h : RdLast vgroup args x known op g) :
      RdLast vgroup args x known { op with status := st' } g := { h with }
  unfold RdInv RdLooped at *
  split_ifs at h ⊢ with hex hpr
  · exact h.imp_left hlast
  · refine h.imp (And.imp_right (Or.imp (fun h => { h with }) ?_)) (And.imp_left hlast)
    exact fun ⟨k, hk, h⟩ => ⟨k, hk, hposted h⟩
  · exact h.imp (And.imp_right fun h => { h with })
      (And.imp_right fun ⟨k, hk, h⟩ => ⟨k, hk, hposted h⟩)

variable [DecidableEq B]

/-! #### A base rank -/

theorem wp_rdBase_inv (hv : vgroup.myrank < vgroup.size)
    (hex : ¬RdExtra vgroup.size vgroup.myrank) (hpr : ¬RdProxy vgroup.size vgroup.myrank)
    (hap : Apart args.recvbuf args.count staging args.count) {op : AllreduceRdOp B}
    {g : Ghost (Cell B) β}
    (h : RdReady vgroup args staging x known [] 0 op g ∨
      ∃ st, RdLooped vgroup args staging x known [] st op g) :
    (allreduceRdOpBase (· * ·) op.iter.maxIdx op).wp
      (fun res g => RdLooped vgroup args staging x known [] res.2 res.1 g) g := by
  have hmax {idx : ℕ} : (rdIterAt vgroup.size vgroup.myrank idx).maxIdx = rdSteps vgroup.size := by
    rw [at_base hex hpr]
    rfl
  rcases h with h | ⟨-, ⟨-, h⟩ | ⟨-, k, hk, h⟩⟩
  · refine wp_rdBase hv hex hap _ (Nat.zero_le _) ?_ (Or.inl h)
    rw [h.iter_eq, hmax, Nat.sub_zero]
  · exact (wp_rdBase_end h.toRdExchange h.pend h.todo hex hap).imp fun res g => Or.inl
  · refine wp_rdBase hv hex hap _ hk.le ?_ (Or.inr ⟨hk, h⟩)
    rw [h.iter_eq, hmax]
    exact Nat.sub_le _ _

/-! #### A proxy -/

/-- What the extra sent is combined with the proxy's own contribution. -/
theorem RdWait.ready {op : AllreduceRdOp B} {g : Ghost (Cell B) β}
    (h : RdWait vgroup args staging x known op g) (hpend : g.pend = [])
    (hpr : RdProxy vgroup.size vgroup.myrank)
    (hap : Apart args.recvbuf args.count staging args.count) :
    RdReady vgroup args staging x known (allreduceRdMore vgroup args x known) 0
      { op with flags := ⟨true, true, false, false, true, true, false, false⟩ }
      { g with
        mem := zipCells (· * ·) (span staging args.count) (span args.recvbuf args.count)
          g.mem } where
  vgroup_eq := h.vgroup_eq
  args_eq := h.args_eq
  iter_eq := by rw [h.iter_eq, rdOffset, if_pos hpr]
  proxy := by simp [hpr]
  bufs := Or.inl h.bufs
  mine := by
    have hprod := h.theirs.zip (f := (· * ·)) h.mine hap.symm
    rw [h.bufs.1, rdData, rdValue_zero_proxy hpr]
    exact hprod
  knows := by
    have hlearns := h.learns
    rw [hpend, Ghost.learn_nil] at hlearns
    rw [rdKnow, rdValue_zero_proxy hpr]
    exact Set.union_subset hlearns h.knows
  flags := ⟨rfl, rfl⟩
  pend := hpend
  todo := h.todo

/-- The receive from the extra is over: the exchange begins, or goes on. -/
theorem wp_rdProxyBase (hv : vgroup.myrank < vgroup.size)
    (hpr : RdProxy vgroup.size vgroup.myrank)
    (hap : Apart args.recvbuf args.count staging args.count) {op : AllreduceRdOp B}
    {g : Ghost (Cell B) β}
    (h : (RdWait vgroup args staging x known op g ∧ g.pend = []) ∨ ∃ k < rdSteps vgroup.size,
      RdPosted vgroup args staging x known (allreduceRdMore vgroup args x known) k op g) :
    (allreduceRdOpProxyBase (· * ·) op).wp
      (fun res g => ∃ op',
        RdLooped vgroup args staging x known (allreduceRdMore vgroup args x known) res.2 op' g ∧
        res.1 = if res.2 = .ok then { op' with flags := { op'.flags with proxyBase := false } }
          else op') g := by
  have hex := hpr.not_extra
  have hmax (idx : ℕ) : rdSteps vgroup.size ≤
      (rdIterAt vgroup.size vgroup.myrank idx).maxIdx := by
    rw [at_proxy hpr]
    exact Nat.le_add_right _ 2
  -- the end of the function, behind the loop
  have hend (res : AllreduceRdOp B × Status) (g : Ghost (Cell B) β)
      (h : RdLooped vgroup args staging x known
        (allreduceRdMore vgroup args x known) res.2 res.1 g) :
      (if res.2 ≠ .ok then (pure (res.1, res.2) : Prog (Cell B) β (AllreduceRdOp B × Status)) else
        pure ({ res.1 with flags := { res.1.flags with proxyBase := false } }, .ok)).wp
      (fun res g => ∃ op',
        RdLooped vgroup args staging x known (allreduceRdMore vgroup args x known) res.2 op' g ∧
        res.1 = if res.2 = .ok then { op' with flags := { op'.flags with proxyBase := false } }
          else op') g := by
    obtain ⟨op, st⟩ := res
    rcases h with ⟨rfl : st = .ok, h⟩ | ⟨rfl : st = .inprogress, h⟩
    · exact ⟨_, Or.inl ⟨rfl, h⟩, rfl⟩
    · exact ⟨_, Or.inr ⟨rfl, h⟩, rfl⟩
  rcases h with ⟨h, hpend⟩ | ⟨k, hk, h⟩
  · have hfree (i) : g.Free i := fun p hp => absurd (hpend ▸ hp) List.not_mem_nil
    have hready := h.ready hpend hpr hap
    simp only [allreduceRdOpProxyBase, h.flags, h.bufs.2, h.args_eq, if_true, wp_bind, wp_opReduce]
    refine ⟨fun i _ => hfree i, fun i _ => hfree i, ?_⟩
    refine (wp_rdBase hv hex hap _ (Nat.zero_le _) ?_ (Or.inl ?_)).imp hend
    · rw [h.iter_eq, Nat.sub_zero]
      exact hmax _
    · rwa [h.bufs.2, h.args_eq] at hready
  · have hbase : op.flags.proxyBase = true := h.proxy.2.2.1.mpr hpr
    simp only [allreduceRdOpProxyBase, h.proxy.2.1, hbase, Bool.false_eq_true, if_false, if_true,
      wp_bind]
    refine (wp_rdBase hv hex hap _ hk.le ?_ (Or.inr ⟨hk, h⟩)).imp hend
    rw [h.iter_eq]
    exact (Nat.sub_le _ _).trans (hmax _)

omit [DecidableEq B] in
/-- Behind the exchange only the send to the extra is left. -/
theorem RdEnd.sent {op op' : AllreduceRdOp B} {g g' : Ghost (Cell B) β} {more : List (Event β)}
    (h : RdEnd vgroup args staging x known more op g) (hpr : RdProxy vgroup.size vgroup.myrank)
    (hvgroup : op'.vgroup = vgroup) (hargs : op'.args = args) (hiter : op'.iter = op.iter.inc)
    (hflags : op'.flags = { op.flags with proxyBase := false, proxySend := false })
    (htodo : g'.todo = []) (hmem : g'.mem = g.mem) (hknow : g.know ⊆ g'.know) :
      RdLast vgroup args x known op' g' where
  vgroup_eq := hvgroup
  args_eq := hargs
  iter_eq := ⟨_, by rw [hiter, h.iter_eq, inc_at]⟩
  proxy _ := by
    rw [hflags]
    exact ⟨h.proxy.1, h.proxy.2.1, rfl, rfl⟩
  extra hv := absurd hv hpr.not_extra
  todo := htodo
  result := hmem ▸ h.result
  learns := (h.knows.trans hknow).trans (g'.know_subset_learn _)

/-- The result goes to the extra. -/
theorem wp_rdProxySend (hpr : RdProxy vgroup.size vgroup.myrank) {op : AllreduceRdOp B}
    {g : Ghost (Cell B) β}
    (h : RdEnd vgroup args staging x known (allreduceRdMore vgroup args x known) op g) :
    (allreduceRdOpProxySend { op with flags := { op.flags with proxyBase := false } }).wp
      (fun res g => RdLast vgroup args x known res.1 g ∧
        (res.2 = .inprogress ∨ res.2 = .ok ∧ g.pend = [])) g := by
  have hex := hpr.not_extra
  have hfree (i) : g.Free i := fun p hp => absurd (h.pend ▸ hp) List.not_mem_nil
  have hsend : op.flags.proxySend = true := h.proxy.2.2.2.mpr hpr
  have hpeer : op.iter.current = some (vgroup.myrank - 1) := by
    rw [h.iter_eq, rdOffset, if_pos hpr]
    exact (current_proxy hpr).2
  have htodo := h.todo
  simp only [allreduceRdMore, rdUnfold, if_neg hex, if_pos hpr, List.map_cons, List.map_nil,
    Event.mapPeer] at htodo
  simp only [allreduceRdOpProxySend, hsend, if_true, RdIter.valueInc, hpeer, wp_bind, wp_p2pIsend,
    h.args_eq, h.vgroup_eq, h.result.map_span, htodo, ne_eq, not_true_eq_false, if_false,
    wp_p2pTestall, wp_pure]
  exact ⟨fun i _ => hfree i, _, _, rfl, h.knows,
    ⟨h.sent hpr rfl rfl rfl rfl rfl rfl (Ghost.know_subset_learn _ _), Or.inr ⟨trivial, rfl⟩⟩,
    h.sent hpr rfl rfl rfl rfl rfl rfl subset_rfl, Or.inl trivial⟩

/-- A progress call of a proxy that has posted all. -/
theorem wp_rdProxy_last (hpr : RdProxy vgroup.size vgroup.myrank) {op : AllreduceRdOp B}
    {g : Ghost (Cell B) β} (h : RdLast vgroup args x known op g) :
    (allreduceRdOpProxy (· * ·) op).wp
      (fun res g => RdInv vgroup args staging x known res.2 res.1 g) g := by
  obtain ⟨hrecv, hreduce, hbase, hsend⟩ := h.proxy hpr
  have hinv (st) (g') (hg : g'.todo = g.todo) (hm : g'.mem = g.mem)
      (hl : g'.learn g'.pend = g.learn g.pend) (hst : st = .inprogress ∨ st = .ok ∧ g'.pend = []) :
      RdInv vgroup args staging x known st op g' := by
    rw [RdInv, if_neg hpr.not_extra, if_pos hpr]
    exact Or.inr ⟨{ h with
      todo := hg ▸ h.todo, result := hm ▸ h.result, learns := hl ▸ h.learns }, hst⟩
  simp only [allreduceRdOpProxy, allreduceRdOpProxyRecv, allreduceRdOpProxyBase,
    allreduceRdOpProxySend, hrecv, hreduce, hbase, hsend, Bool.false_eq_true, if_false, wp_bind,
    wp_pure, wp_p2pTestall, ne_eq, not_true_eq_false, not_false_eq_true, if_true, reduceCtorEq]
  exact ⟨⟨hinv _ _ rfl rfl (by simp) (Or.inr ⟨rfl, rfl⟩),
    hinv _ _ rfl rfl (Ghost.learn_doneAll g) (Or.inl rfl)⟩, hinv _ _ rfl rfl rfl (Or.inl rfl)⟩

omit [DecidableEq B] in
theorem RdWait.doneAll {op : AllreduceRdOp B} {g : Ghost (Cell B) β}
    (h : RdWait vgroup args staging x known op g) :
      RdWait vgroup args staging x known op g.doneAll :=
  { h with
    pend := fun _ hp => absurd hp List.not_mem_nil
    knows := h.knows.trans (g.know_subset_learn _)
    learns := h.learns.trans (Ghost.learn_doneAll g).ge }

omit [DecidableEq B] in
theorem RdPosted.doneAll {more : List (Event β)} {k : ℕ} {op : AllreduceRdOp B}
    {g : Ghost (Cell B) β} (h : RdPosted vgroup args staging x known more k op g) :
    RdPosted vgroup args staging x known more k op g.doneAll :=
  { h with
    pend := fun _ hp => absurd hp List.not_mem_nil
    knows := h.knows.trans (g.know_subset_learn _)
    learns := h.learns.trans (Ghost.learn_doneAll g).ge }

/-- A call of a proxy whose receive from the extra is posted. -/
theorem wp_rdProxy_recv (hv : vgroup.myrank < vgroup.size)
    (hpr : RdProxy vgroup.size vgroup.myrank)
    (hap : Apart args.recvbuf args.count staging args.count) {op : AllreduceRdOp B}
    {g : Ghost (Cell B) β}
    (hrecv : (allreduceRdOpProxyRecv op).wp (fun res g => res.2 = .ok ∧
      (RdWait vgroup args staging x known res.1 g ∨ ∃ k < rdSteps vgroup.size,
        RdPosted vgroup args staging x known (allreduceRdMore vgroup args x known) k res.1 g)) g) :
    (allreduceRdOpProxy (· * ·) op).wp
      (fun res g => RdInv vgroup args staging x known res.2 res.1 g) g := by
  rw [allreduceRdOpProxy, wp_bind]
  refine hrecv.imp ?_
  rintro ⟨op, st⟩ g ⟨rfl : st = .ok, h⟩
  simp only [ne_eq, not_true_eq_false, if_false, wp_bind, wp_p2pTestall, reduceCtorEq,
    not_false_eq_true, if_true, wp_pure]
  refine ⟨?_, ?_⟩
  · have hover : (RdWait vgroup args staging x known op g.doneAll ∧ g.doneAll.pend = []) ∨
        ∃ k < rdSteps vgroup.size,
          RdPosted vgroup args staging x known (allreduceRdMore vgroup args x known) k op
            g.doneAll := by
      rcases h with h | ⟨k, hk, h⟩
      · exact Or.inl ⟨h.doneAll, rfl⟩
      · exact Or.inr ⟨k, hk, h.doneAll⟩
    refine (wp_rdProxyBase hv hpr hap hover).imp ?_
    rintro ⟨op₁, st⟩ g ⟨op, ⟨rfl : st = .ok, h⟩ | ⟨rfl : st = .inprogress, h⟩, hop⟩
    · obtain rfl : op₁ = { op with flags := { op.flags with proxyBase := false } } := hop
      refine (wp_rdProxySend hpr h).imp fun res g h => ?_
      rw [RdInv, if_neg hpr.not_extra, if_pos hpr]
      exact Or.inr h
    · obtain rfl : op₁ = op := hop
      change RdInv _ _ _ _ _ _ _ _
      rw [RdInv, if_neg hpr.not_extra, if_pos hpr]
      exact Or.inl ⟨rfl, Or.inr h⟩
  · rw [RdInv, if_neg hpr.not_extra, if_pos hpr]
    exact Or.inl ⟨rfl, h⟩

/-- A progress call of a proxy. -/
theorem wp_rdProxy_inv (hv : vgroup.myrank < vgroup.size)
    (hpr : RdProxy vgroup.size vgroup.myrank)
    (hap : Apart args.recvbuf args.count staging args.count) {st : Status} {op : AllreduceRdOp B}
    {g : Ghost (Cell B) β} (h : RdInv vgroup args staging x known st op g) :
    (allreduceRdOpProxy (· * ·) op).wp
      (fun res g => RdInv vgroup args staging x known res.2 res.1 g) g := by
  rw [RdInv, if_neg hpr.not_extra, if_pos hpr] at h
  rcases h with ⟨-, h⟩ | ⟨h, -⟩
  · refine wp_rdProxy_recv hv hpr hap ?_
    have hrecv : op.flags.proxyRecv = false := by
      rcases h with h | ⟨k, -, h⟩
      · rw [h.flags]
      · exact h.proxy.1
    simp only [allreduceRdOpProxyRecv, hrecv, Bool.false_eq_true, if_false, wp_pure, true_and]
    exact h
  · exact wp_rdProxy_last hpr h

/-! #### An extra -/

/-- A progress call of an extra. -/
theorem wp_rdExtra_inv (hex : RdExtra vgroup.size vgroup.myrank) {op : AllreduceRdOp B}
    {g : Ghost (Cell B) β} (h : RdLast vgroup args x known op g) :
    (allreduceRdOpExtra op).wp
      (fun res g => RdInv vgroup args staging x known res.2 res.1 g) g := by
  obtain ⟨hsend, hrecv⟩ := h.extra hex
  simp only [allreduceRdOpExtra, hsend, hrecv, Bool.false_eq_true, if_false, wp_bind, wp_pure,
    wp_p2pTestall, RdInv, if_pos hex, reduceCtorEq, false_or, true_and, and_true, or_false,
    false_and]
  exact ⟨⟨{ h with learns := h.learns.trans (Ghost.learn_doneAll g).ge }, rfl⟩, h⟩

/-! #### All roles -/

omit [DecidableEq B] in
theorem RdInv.iter_eq {st : Status} {op : AllreduceRdOp B} {g : Ghost (Cell B) β}
    (h : RdInv vgroup args staging x known st op g) :
    ∃ idx, op.iter = rdIterAt vgroup.size vgroup.myrank idx := by
  unfold RdInv RdLooped at h
  split_ifs at h with hex hpr
  · exact h.1.iter_eq
  · rcases h with ⟨-, h | ⟨k, -, h⟩⟩ | ⟨h, -⟩
    · exact ⟨_, h.iter_eq⟩
    · exact ⟨_, h.iter_eq⟩
    · exact h.iter_eq
  · rcases h with ⟨-, h⟩ | ⟨-, k, -, h⟩
    · exact ⟨_, h.iter_eq⟩
    · exact ⟨_, h.iter_eq⟩

/-- The function of the rank's role, and the status that is stored behind it. -/
theorem wp_rdProgress_role {op : AllreduceRdOp B} {g : Ghost (Cell B) β} {idx : ℕ}
    (hiter : op.iter = rdIterAt vgroup.size vgroup.myrank idx)
    (h : (if RdExtra vgroup.size vgroup.myrank then allreduceRdOpExtra op
      else if RdProxy vgroup.size vgroup.myrank then allreduceRdOpProxy (· * ·) op
      else allreduceRdOpBase (· * ·) op.iter.maxIdx op).wp
        (fun res g => RdInv vgroup args staging x known res.2 res.1 g) g) :
    (allreduceRdOpProgress (· * ·) op).wp
      (fun res g =>
        res.2 = res.1.status ∧ RdInv vgroup args staging x known res.1.status res.1 g) g := by
  have htype : op.iter.type = if RdExtra vgroup.size vgroup.myrank then .extra
      else if RdProxy vgroup.size vgroup.myrank then .proxy else .base := by
    rw [hiter, type_at]
  rw [allreduceRdOpProgress, htype]
  split_ifs at h ⊢ <;> exact wp_bind.mpr (h.imp fun res g h => ⟨rfl, h.setStatus⟩)

/-- A progress call keeps the invariant. -/
theorem wp_rdProgress (hv : vgroup.myrank < vgroup.size)
    (hap : Apart args.recvbuf args.count staging args.count) {op : AllreduceRdOp B}
    {g : Ghost (Cell B) β} (h : RdInv vgroup args staging x known op.status op g) :
    (allreduceRdOpProgress (· * ·) op).wp
      (fun res g =>
        res.2 = res.1.status ∧ RdInv vgroup args staging x known res.1.status res.1 g) g := by
  obtain ⟨idx, hiter⟩ := h.iter_eq
  refine wp_rdProgress_role hiter ?_
  split_ifs with hex hpr
  · rw [RdInv, if_pos hex] at h
    exact wp_rdExtra_inv hex h.1
  · exact wp_rdProxy_inv hv hpr hap h
  · rw [RdInv, if_neg hex, if_neg hpr] at h
    refine (wp_rdBase_inv hv hex hpr hap (Or.inr ⟨_, h⟩)).imp fun res g h => ?_
    rwa [RdInv, if_neg hex, if_neg hpr]

/-- The first progress call, from within the trigger. -/
theorem wp_rdFirst (hv : vgroup.myrank < vgroup.size)
    (hap : Apart args.recvbuf args.count staging args.count) {op : AllreduceRdOp B}
    {g : Ghost (Cell B) β} (hvgroup : op.vgroup = vgroup) (hargs : op.args = args)
    (hiter : op.iter = rdIterAt vgroup.size vgroup.myrank 0)
    (hflags : op.flags = if RdExtra vgroup.size vgroup.myrank
      then ⟨false, false, false, false, false, false, true, true⟩
      else if RdProxy vgroup.size vgroup.myrank
      then ⟨true, true, true, true, true, true, false, false⟩
      else ⟨true, true, false, false, false, false, false, false⟩)
    (hbufs : ¬RdExtra vgroup.size vgroup.myrank →
      op.recvbufStored = args.recvbuf ∧ op.stagingAreaStored = staging)
    (hmine : if RdExtra vgroup.size vgroup.myrank
      then Holds g.mem (args.sendbuf.getD args.recvbuf) args.count (x vgroup.myrank)
      else Holds g.mem args.recvbuf args.count (x vgroup.myrank))
    (hknow : known vgroup.myrank ⊆ g.know) (hpend : g.pend = [])
    (htodo : g.todo = (allreduceRdTrace vgroup.size args.count x known vgroup.myrank).map
      (Event.mapPeer vgroup.rankMap)) :
    (allreduceRdOpProgress (· * ·) op).wp
      (fun res g =>
        res.2 = res.1.status ∧ RdInv vgroup args staging x known res.1.status res.1 g) g := by
  have hfree (i) : g.Free i := fun p hp => absurd (hpend ▸ hp) List.not_mem_nil
  rw [allreduceRdTrace_role] at htodo
  refine wp_rdProgress_role hiter ?_
  split_ifs at * with hex hpr
  · have hpeer (i) (hi : i ≠ 2) : (rdIterAt vgroup.size vgroup.myrank i).current =
        some (vgroup.myrank + 1) := by
      rw [at_extra hex]
      exact if_neg hi
    have hlast (g') (htodo' : g'.todo = [])
        (hmem : Holds g'.mem args.recvbuf args.count
          (rdData vgroup.size x (rdSteps vgroup.size) (rdNew vgroup.size vgroup.myrank)))
        (hlearn : rdKnow vgroup.size known (rdSteps vgroup.size) (rdNew vgroup.size vgroup.myrank) ⊆
          g'.learn g'.pend) :
        RdLast vgroup args x known
          { op with
            vgroup := vgroup, args := args, iter := rdIterAt vgroup.size vgroup.myrank 2,
            flags := RdFlags.none } g' :=
      ⟨rfl, rfl, ⟨2, rfl⟩, fun hpr => absurd hex hpr.not_extra, fun _ =>
        ⟨rfl, rfl⟩, htodo', hmem, hlearn⟩
    simp only [allreduceRdOpExtra, hflags, hargs, hvgroup, hiter, htodo, if_true, RdIter.valueInc,
      inc_at, hpeer 0 (by decide), hpeer 1 (by decide), wp_bind, wp_p2pIsend, wp_p2pIrecv,
      hmine.map_span, List.map_cons, List.map_nil, Event.mapPeer, ne_eq, not_true_eq_false,
        if_false,
      wp_p2pTestall, wp_pure, RdInv, if_pos hex]
    exact ⟨fun i _ => hfree i, _, _, rfl, hknow, fun i _ => hfree i, _, _, _, rfl, by simp,
      ⟨hlast _ rfl (holds_write _ _ _ _)
        (by rw [Ghost.learn_doneAll]; exact Ghost.subset_learn_append _ _ _ _ _),
        Or.inr ⟨trivial, rfl⟩⟩,
      hlast _ rfl (holds_write _ _ _ _) (Ghost.subset_learn_append _ _ _ _ _), Or.inl trivial⟩
  · refine wp_rdProxy_recv hv hpr hap ?_
    have hpeer := (current_proxy hpr).1
    simp only [allreduceRdOpProxyRecv, hflags, hargs, hvgroup, hiter, htodo, hbufs hex, if_true,
      RdIter.valueInc, inc_at, hpeer, wp_bind, wp_p2pIrecv, List.map_cons, List.map_append,
      List.cons_append, Event.mapPeer, wp_pure, true_and]
    refine ⟨fun i _ => hfree i, _, _, _, rfl, by simp, Or.inl ?_⟩
    exact {
      vgroup_eq := rfl
      args_eq := rfl
      iter_eq := rfl
      flags := rfl
      bufs := ⟨rfl, rfl⟩
      pend := by simp [hpend]
      mine := hmine.write hap
      theirs := holds_write _ _ _ _
      knows := hknow
      learns := Ghost.subset_learn_append _ _ _ _ _
      todo := rfl }
  · have hready : RdReady vgroup args staging x known [] 0 op g := {
      vgroup_eq := hvgroup
      args_eq := hargs
      iter_eq := by rw [hiter, rdOffset, if_neg hpr]
      proxy := by simp [hflags, hpr]
      bufs := Or.inl (hbufs hex)
      mine := by
        rw [(hbufs hex).1, rdData, rdValue_zero_base hex hpr]
        exact hmine
      knows := by
        rw [rdKnow, rdValue_zero_base hex hpr]
        exact hknow
      flags := by simp [hflags]
      pend := hpend
      todo := by rw [htodo, List.append_nil] }
    refine (wp_rdBase_inv hv hex hpr hap (Or.inl hready)).imp fun res g h => ?_
    rwa [RdInv, if_neg hex, if_neg hpr]

omit [DecidableEq B] in
theorem RdLast.done {op : AllreduceRdOp B} {g : Ghost (Cell B) β}
    (h : RdLast vgroup args x known op g) (hpend : g.pend = []) :
    Done (fun m k => Holds m args.recvbuf args.count
        (rdData vgroup.size x (rdSteps vgroup.size) (rdNew vgroup.size vgroup.myrank)) ∧
      rdKnow vgroup.size known (rdSteps vgroup.size) (rdNew vgroup.size vgroup.myrank) ⊆ k) g := by
  have hlearns := h.learns
  rw [hpend, Ghost.learn_nil] at hlearns
  exact ⟨h.todo, hpend, h.result, hlearns⟩

variable (vgroup args staging x known) in
/-- The operation obeys its trace. -/
theorem allreduceRd_obeys (hv : vgroup.myrank < vgroup.size)
    (hap : Apart args.recvbuf args.count staging args.count)
    {m : Cell B → β} (hx : args.Brings m (x vgroup.myrank)) (id : ℕ) {k : Set ℕ}
    (hknow : known vgroup.myrank ⊆ k) :
    Obeys (allreduceRdFuncs (· * ·)) AllreduceRdOp.status id (allreduceRdOpNew vgroup args staging)
      (fun op g => RdInv vgroup args staging x known op.status op g)
      (fun m k => Holds m args.recvbuf args.count
          (rdData vgroup.size x (rdSteps vgroup.size) (rdNew vgroup.size vgroup.myrank)) ∧
        rdKnow vgroup.size known (rdSteps vgroup.size) (rdNew vgroup.size vgroup.myrank) ⊆ k)
      ⟨m, [], (allreduceRdTrace vgroup.size args.count x known vgroup.myrank).map
        (Event.mapPeer vgroup.rankMap), k⟩ where
  trigger := by
    have hfree (i) : (⟨m, [], (allreduceRdTrace vgroup.size args.count x known vgroup.myrank).map
        (Event.mapPeer vgroup.rankMap), k⟩ : Ghost (Cell B) β).Free i :=
      fun p hp => absurd hp List.not_mem_nil
    have hpost (res : AllreduceRdOp B × Status) (g : Ghost (Cell B) β)
      (h : res.2 = res.1.status ∧ RdInv vgroup args staging x known res.1.status res.1 g) := h.2
    simp only [allreduceRdFuncs, allreduceRdOpTrigger, allreduceRdOpNew, init_eq_at, reset_at,
      type_at]
    by_cases hex : RdExtra vgroup.size vgroup.myrank
    · simp only [if_pos hex, reduceCtorEq, false_or, if_false, wp_bind, wp_pure]
      refine (wp_rdFirst hv hap rfl rfl rfl ?_ (absurd hex) ?_ hknow rfl rfl).imp hpost
      · rw [if_pos hex]; rfl
      · rw [if_pos hex]
        exact hx.input
    · have hrole : (if RdProxy vgroup.size vgroup.myrank then RdIterType.proxy else .base) = .base ∨
        (if RdProxy vgroup.size vgroup.myrank then RdIterType.proxy else .base) = .proxy := by
        split_ifs <;> simp
      have hgo (flags : RdFlags) (hflags : flags = if RdProxy vgroup.size vgroup.myrank
            then ⟨true, true, true, true, true, true, false, false⟩
            else ⟨true, true, false, false, false, false, false, false⟩) (m' : Cell B → β)
          (hmine : Holds m' args.recvbuf args.count (x vgroup.myrank)) :
          (allreduceRdOpProgress (· * ·) ⟨vgroup, args, .inprogress, id, flags, staging,
            rdIterAt vgroup.size vgroup.myrank 0, staging, args.recvbuf⟩).wp
          (fun res g => RdInv vgroup args staging x known res.1.status res.1 g)
          ⟨m', [], (allreduceRdTrace vgroup.size args.count x known vgroup.myrank).map
            (Event.mapPeer vgroup.rankMap), k⟩ :=
        (wp_rdFirst hv hap rfl rfl rfl (by rwa [if_neg hex]) (fun _ => ⟨rfl, rfl⟩)
          (by rwa [if_neg hex]) hknow rfl rfl).imp hpost
      have hcopy (sendbuf) (hsb : args.sendbuf = some sendbuf) : Holds (zipCells (fun s _ => s)
          (span sendbuf args.count) (span args.recvbuf args.count) m) args.recvbuf args.count
          (x vgroup.myrank) := by
        have hin := hx.input
        rw [hsb] at hin
        exact hin.zip (f := fun s _ => s) (fun _ _ => rfl) (hx.apart _ hsb)
      have hinput (hsb : args.sendbuf = none) : Holds m args.recvbuf args.count
          (x vgroup.myrank) := by
        have hin := hx.input
        rwa [hsb] at hin
      simp only [if_neg hex, if_pos hrole]
      by_cases hpr : RdProxy vgroup.size vgroup.myrank
      · rw [if_pos (if_pos hpr)]
        cases hsb : args.sendbuf with
        | none =>
          simp only [wp_bind, wp_pure]
          exact hgo _ (if_pos hpr).symm m (hinput hsb)
        | some sendbuf =>
          simp only [wp_bind, wp_pure, wp_dtMemcpy]
          exact ⟨fun i _ => hfree i, fun i _ => hfree i, hgo _ (if_pos hpr).symm _ (hcopy _ hsb)⟩
      · rw [if_neg (by rw [if_neg hpr]; decide)]
        cases hsb : args.sendbuf with
        | none =>
          simp only [wp_bind, wp_pure]
          exact hgo _ (if_neg hpr).symm m (hinput hsb)
        | some sendbuf =>
          simp only [wp_bind, wp_pure, wp_dtMemcpy]
          exact ⟨fun i _ => hfree i, fun i _ => hfree i, hgo _ (if_neg hpr).symm _ (hcopy _ hsb)⟩
  progress op g h := wp_rdProgress hv hap h
  settled op g h := by
    unfold RdInv RdLooped at h
    split_ifs at h with hex hpr
    · exact h.2.imp_right fun hok => ⟨hok.1, h.1.done hok.2⟩
    · rcases h with ⟨hin, -⟩ | ⟨h, hst⟩
      · exact Or.inl hin
      · exact hst.imp_right fun hok => ⟨hok.1, h.done hok.2⟩
    · rcases h with ⟨hok, h⟩ | ⟨hin, -⟩
      · exact Or.inr ⟨hok, h.todo, h.pend, h.result, h.knows⟩
      · exact Or.inl hin

end Operation

/-! ### All ranks -/

section Group

variable [Semigroup β]

/-- Element by element. -/
theorem prodFrom_apply (x : ℕ → ℕ → β) (j : ℕ) :
    ∀ k, prodFrom x 0 k j = prodFrom (fun r => x r j) 0 k
  | 0 => rfl
  | k + 1 => by rw [prodFrom, prodFrom, ← prodFrom_apply x j k, Pi.mul_apply]

variable [DecidableEq B]

/-- The request of rank `r` of a group of `n` ranks. -/
def allreduceRdProc (n : ℕ) (args : ℕ → AllreduceArgs B) (staging : ℕ → Cell B) (id r : ℕ) :
    Proc (Cell B) β (AllreduceRdOp B) :=
  opProc (allreduceRdFuncs (· * ·)) AllreduceRdOp.status
    (allreduceRdOpNew ⟨n, r, fun q => q⟩ (args r) (staging r)) id

/-- In every run, a rank that has finished has got the combination of all inputs in rank order. -/
theorem allreduceRd_correct (n count id : ℕ) (args : ℕ → AllreduceArgs B) (staging : ℕ → Cell B)
    (x : ℕ → ℕ → β) (m : ℕ → Cell B → β) (hcount : ∀ r, (args r).count = count)
    (hstaging : ∀ r < n, Apart (args r).recvbuf count (staging r) count)
    (hx : ∀ r < n, (args r).Brings (m r) (x r)) (acts : List Act)
    (N : Net (Cell B) β (AllreduceRdOp B))
    (hrun : (Net.init m).run n (allreduceRdProc n args staging id) acts = some N) (r : ℕ)
    (hr : r < n) (op : AllreduceRdOp B) (hfin : N.FinishedIn r op) :
    op.status = .ok ∧
      Holds (N.node r).mem (args r).recvbuf count fun j => prodFrom (fun q => x q j) 0 (n - 1) := by
  have hn : n ≠ 0 := Nat.ne_zero_of_lt hr
  have hmeets (r) (hr : r < n) : (allreduceRdProc n args staging id r).Meets
      (fun op m k => op.status = .ok ∧ Holds m (args r).recvbuf count
        (rdData n x (rdSteps n) (rdNew n r)) ∧ rdKnow n (fun v => {v}) (rdSteps n) (rdNew n r) ⊆ k)
      ⟨m r, [], allreduceRdTrace n count x (fun v => {v}) r, {r}⟩ := by
    have hobeys := allreduceRd_obeys ⟨n, r, fun q => q⟩ (args r) (staging r) x (fun v => {v}) hr
      (by rw [hcount]; exact hstaging r hr) (hx r hr) id subset_rfl
    rw [map_mapPeer_id, hcount] at hobeys
    exact hobeys.meets
  obtain ⟨know, ⟨hok, hres, -⟩, -⟩ := finished_ok matched_rdTrace hmeets hrun hfin
  refine ⟨hok, fun j hj => ?_⟩
  obtain ⟨k, hk, hprod⟩ := rdValue_all (P := IsProd x) (IsProd.single x) IsProd.mul hn (rdNew_lt hr)
  obtain rfl : n = k + 1 := by omega
  rw [hres j hj, rdData, hprod, prodFrom_apply, Nat.add_sub_cancel]

end Group

/-! A run of three ranks, with words as contributions: rank 0 is an extra, rank 1 its proxy, rank 2
    a base rank whose call is in place. -/

/-- The buffers 0, 1 and 2 are for sending, receiving and staging. -/
def threeArgs (r : ℕ) : AllreduceArgs (Fin 3) :=
  ⟨if r = 2 then none else some (0, 0), (1, 0), 1⟩

/-- Rank `r` contributes the word `r`. -/
def threeMem (r : ℕ) (c : Cell (Fin 3)) : FreeMonoid ℕ :=
  if c.1 = if r = 2 then 1 else 0 then .of r else 1

/-- Every rank is called until it has finished, rank 0 twice in vain. -/
def threeActs : List Act :=
  [.start 0, .start 1, .start 2, .exec 0, .exec 0, .exec 0, .exec 0, .exec 1, .exec 1, .exec 1,
    .exec 1, .exec 2, .exec 2, .exec 2, .exec 2, .deliver 0 1, .sent 0, .sent 2, .resume 0,
    .exec 0, .exec 0, .resume 1, .exec 1, .exec 1, .exec 1, .exec 1, .exec 1, .exec 1,
    .deliver 1 2, .deliver 2 1, .sent 1, .resume 2, .exec 2, .exec 2, .exec 2, .resume 0, .exec 0,
    .exec 0, .resume 1, .exec 1, .exec 1, .exec 1, .exec 1, .exec 1, .exec 1, .exec 1,
    .deliver 1 0, .sent 1, .resume 0, .exec 0, .exec 0, .resume 1, .exec 1, .exec 1, .exec 1]

theorem allreduceRd_correct_three : ∃ N op,
    (Net.init threeMem).run 3 (allreduceRdProc 3 threeArgs (fun _ => (2, 0)) 7) threeActs = some N ∧
      N.FinishedIn 0 op ∧ op.status = .ok ∧
      (N.node 0).mem (1, 0) = FreeMonoid.of 0 * FreeMonoid.of 1 * FreeMonoid.of 2 := by
  have hsome : (((Net.init threeMem).run 3 (allreduceRdProc 3 threeArgs (fun _ => (2, 0)) 7)
      threeActs).bind fun N => (N.node 0).ctl.result).isSome := by decide +kernel
  obtain ⟨op, hbind⟩ := Option.isSome_iff_exists.mp hsome
  obtain ⟨N, hrun, hop⟩ := Option.bind_eq_some_iff.mp hbind
  have hfin : N.FinishedIn 0 op := Ctl.result_eq_some.mp hop
  have hx (r) (hr : r < 3) : (threeArgs r).Brings (threeMem r) fun _ => FreeMonoid.of r := by
    interval_cases r
    · exact ⟨fun _ _ => rfl, by simp [threeArgs, Apart]⟩
    · exact ⟨fun _ _ => rfl, by simp [threeArgs, Apart]⟩
    · exact ⟨fun _ _ => rfl, by simp [threeArgs]⟩
  obtain ⟨hok, hres⟩ := allreduceRd_correct 3 1 7 threeArgs (fun _ => (2, 0))
    (fun r _ => FreeMonoid.of r) threeMem (fun _ => rfl) (fun _ _ => Or.inl (by simp [threeArgs]))
    hx threeActs N hrun 0 (by decide) op hfin
  exact ⟨N, op, hrun, hfin, hok, hres 0 (by decide)⟩

end Kucg.Ucx
