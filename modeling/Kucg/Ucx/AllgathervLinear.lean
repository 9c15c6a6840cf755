import Kucg.Algo.Exchange
import Kucg.Ucx.Allgatherv
import Kucg.Ucx.StepLoop

/-! The linear allgatherv of `allgatherv_linear.c`: each rank sends its block to all others. -/

namespace Kucg.Ucx

open Kucg.Core Kucg.Lib Kucg.Algo

variable {B β : Type}

/-- `ucg_planc_ucx_op_t` of the linear allgatherv. Its two flags are set and cleared together. -/
structure AllgathervLinearOp (B : Type) where
  vgroup : VGroup
  args : AllgathervArgs B
  status : Status
  id : ℕ
  flags : Bool

section Functions

/-- The two calls of an iteration. -/
def allgathervLinearPost (vgroup : VGroup) (args : AllgathervArgs B) (i : ℕ) :
    Prog (Addr B) β Status := do
  let speer := (vgroup.myrank + i) % vgroup.size
  let status ← p2pIsend (args.blockCells vgroup.myrank) (some speer) vgroup
  if status.IsErr then return status
  let rpeer := (vgroup.myrank + vgroup.size - i) % vgroup.size
  p2pIrecv (args.blockCells rpeer) (some rpeer) vgroup 0

/-- The test of `ucg_planc_ucx_allgatherv_linear_op_progress`. -/
def allgathervLinearTest (op : AllgathervLinearOp B) :
    Prog (Addr B) β (AllgathervLinearOp B × Status) := do
  let status ← p2pTestall
  return ({ op with status := status }, status)

/-- `ucg_planc_ucx_allgatherv_linear_op_progress`. -/
def allgathervLinearOpProgress (op : AllgathervLinearOp B) :
    Prog (Addr B) β (AllgathervLinearOp B × Status) := do
  if op.flags then
    let status ← postAll ((List.range' 1 (op.vgroup.size - 1)).map
      (allgathervLinearPost op.vgroup op.args))
    if status.IsErr then return ({ op with flags := false, status := status }, status)
    allgathervLinearTest { op with flags := false }
  else allgathervLinearTest op

/-- `ucg_planc_ucx_allgatherv_linear_op_trigger`. -/
def allgathervLinearOpTrigger (op : AllgathervLinearOp B) (id : ℕ) :
    Prog (Addr B) β (AllgathervLinearOp B × Status) := do
  let op := { op with id := id, status := .inprogress, flags := true }
  allgathervMemcpy op.args op.vgroup.myrank
  let (op, status) ← allgathervLinearOpProgress op
  return (op, if status = .inprogress then .ok else status)

/-- The trigger and progress functions of the operation. -/
def allgathervLinearFuncs : OpFuncs (Prog (Addr B) β) (AllgathervLinearOp B) where
  trigger := allgathervLinearOpTrigger
  progress := allgathervLinearOpProgress

/-- `ucg_planc_ucx_allgatherv_linear_op_new`. -/
def allgathervLinearOpNew (vgroup : VGroup) (args : AllgathervArgs B) : AllgathervLinearOp B where
  vgroup := vgroup
  args := args
  status := .ok
  id := 0
  flags := false

end Functions

/-! ### The schedule -/

/-- The messages of an iteration. -/
def linearPosts (n v i : ℕ) : Sched ℕ β :=
  [.send ((v + i) % n) [v], .recv 0 ((v + n - i) % n) [(v + n - i) % n]]

/-- What rank `v` does. -/
def linearRound (n v : ℕ) : Sched ℕ β :=
  (List.range' 1 (n - 1)).flatMap (linearPosts n v) ++ [.wait]

section Linear

variable {n v w : ℕ}

/-- Rank `w` asks for the block of `v` in the iteration in which `v` sends it. -/
theorem add_mod_eq_iff {i : ℕ} (hi : i < n) (hv : v < n) (hw : w < n) :
    (v + i) % n = w ↔ (w + n - i) % n = v := by
  rw [mod_eq_ite (by omega), mod_eq_ite (by omega)]
  split_ifs <;> omega

theorem fitRound_linearRound (n : ℕ) : FitRound n {b | b < n} (linearRound n : ℕ → Sched ℕ β) where
  moves v hv c hc := by
    have hpos : 0 < n := by omega
    rw [linearRound, List.mem_append, List.mem_flatMap] at hc
    rcases hc with ⟨i, -, hc⟩ | hc
    · simp only [linearPosts, List.mem_cons, List.not_mem_nil, or_false] at hc
      obtain rfl | rfl := hc
      · exact ⟨Nat.mod_lt _ hpos, fun b hb => List.mem_singleton.mp hb ▸ hv⟩
      · exact ⟨Nat.mod_lt _ hpos, fun b hb => List.mem_singleton.mp hb ▸ Nat.mod_lt _ hpos⟩
    · obtain rfl := List.mem_singleton.mp hc
      trivial
  matched v hv w hw := by
    rw [linearRound, linearRound, schedSendsTo_append, schedRecvsFrom_append, sendsTo_flatMap,
      recvsFrom_flatMap]
    refine congrArg (· ++ []) (List.flatMap_congr fun i hi => ?_)
    rw [List.mem_range'_1] at hi
    have hiff := add_mod_eq_iff (i := i) (by omega) hv hw
    by_cases h : (v + i) % n = w
    · simp [linearPosts, Sched.sendsTo, Sched.recvsFrom, Cmd.sentTo, Cmd.receivedFrom, h, hiff.mp h,
        List.filterMap_cons]
    · simp [linearPosts, Sched.sendsTo, Sched.recvsFrom, Cmd.sentTo, Cmd.receivedFrom, h,
        mt hiff.mpr h, List.filterMap_cons]
  batch v hv := by
    refine batch_wait fun c hc => ?_
    obtain ⟨i, -, hc⟩ := List.mem_flatMap.mp hc
    simp only [linearPosts, List.mem_cons, List.not_mem_nil, or_false] at hc
    obtain rfl | rfl := hc <;> simp

/-- A rank sends nothing but its own block, and receives the other ones. -/
theorem gathers_linearPosts {x : ℕ → β} {Q : Set ℕ → List (List ℕ) → Prop} (hv : v < n) :
    ∀ {is : List ℕ} {has : Set ℕ} {pend : List (List ℕ)}, (∀ i ∈ is, 0 < i ∧ i < n) → v ∈ has →
      (∀ dst ∈ pend, v ∉ dst) →
      (∀ has' pend', has ⊆ has' → (∀ i ∈ is, (v + n - i) % n ∈ has') → Q has' pend') →
      Sched.gathers x Q (is.flatMap (linearPosts n v)) has pend
  | [], has, pend, _, _, _, hQ => hQ has pend subset_rfl fun _ hi => absurd hi List.not_mem_nil
  | i :: is, has, pend, his, hhas, hpend, hQ => by
    rw [List.forall_mem_cons] at his
    have hne : v ≠ (v + n - i) % n := by
      rw [mod_eq_ite (by omega : v + n - i < 2 * n)]
      split_ifs <;> omega
    refine ⟨fun b hb => ?_, gathers_linearPosts hv his.2 (Or.inl hhas)
      (List.forall_mem_cons.mpr ⟨fun hmem => hne (List.mem_singleton.mp hmem), hpend⟩)
      fun has' pend' hsub hall => ?_⟩
    · rw [List.mem_singleton.mp hb]
      exact ⟨hhas, hpend⟩
    · exact hQ has' pend' (Set.subset_union_left.trans hsub) (List.forall_mem_cons.mpr
        ⟨hsub (Or.inr (List.mem_singleton.mpr rfl)), hall⟩)

theorem spreads_linearRound (n : ℕ) (x : ℕ → β) :
    Spreads n {b | b < n} (fun v => {v}) x [linearRound n] where
  round R hR := List.mem_singleton.mp hR ▸ fitRound_linearRound n
  gathers v hv := by
    rw [List.flatMap_singleton, linearRound, gathers_append]
    refine gathers_linearPosts hv (fun i hi => ?_) rfl (fun _ hd => absurd hd List.not_mem_nil)
      fun has pend hsub hall => ⟨rfl, fun b (hb : b < n) => ?_⟩
    · rw [List.mem_range'_1] at hi
      omega
    · -- block `b` comes from the rank that is as far to the left
      rcases eq_or_ne b v with rfl | hne
      · exact hsub rfl
      · have hi := hall ((v + n - b) % n) (by
          rw [List.mem_range'_1, mod_eq_ite (by omega : v + n - b < 2 * n)]
          split_ifs <;> omega)
        have hblock : (v + n - (v + n - b) % n) % n = b := by
          rw [mod_eq_ite (by omega : v + n - b < 2 * n)]
          split_ifs <;> rw [mod_eq_ite (by omega)] <;> split_ifs <;> omega
        rwa [hblock] at hi

end Linear

/-! ### The operation executes it -/

section Operation

variable (n r : ℕ) (args : AllgathervArgs B)

/-- What is posted in an iteration. -/
def allgathervLinearCmds (i : ℕ) : Sched (Addr B) β :=
  [.send ((r + i) % n) (args.blockCells r),
    .recv 0 ((r + n - i) % n) (args.blockCells ((r + n - i) % n))]

/-- Between calls the operation waits for its messages, or nothing is left to do. -/
inductive AllgathervLinearRel : AllgathervLinearOp B → Sched (Addr B) β → Prop
  | posted (id : ℕ) : AllgathervLinearRel ⟨⟨n, r, fun q => q⟩, args, .inprogress, id, false⟩ [.wait]
  | idle (id : ℕ) (st : Status) : AllgathervLinearRel ⟨⟨n, r, fun q => q⟩, args, st, id, false⟩ []

variable {n r args}

/-- The test, when all has been posted. -/
theorem exec_allgathervLinearTest {id : ℕ} {st : Status} (moved : Bool) :
    (allgathervLinearTest ⟨⟨n, r, fun q => q⟩, args, st, id, false⟩).Exec
      (fun moved res cs => res.2 = res.1.status ∧
        OpLeaf AllgathervLinearOp.status (AllgathervLinearRel n r args) moved res.1 cs) moved
      ([.wait] : Sched (Addr B) β) := by
  rw [allgathervLinearTest, exec_bind]
  refine exec_testall_wait ?_ ?_
  · exact ⟨rfl, .posted id, Or.inl ⟨rfl, rfl, trivial⟩⟩
  · exact ⟨rfl, .idle id .ok, Or.inr ⟨rfl, rfl⟩⟩

/-- The operation executes its schedule. -/
theorem allgathervLinear_runs (id : ℕ) :
    OpRuns allgathervLinearFuncs AllgathervLinearOp.status id
      (allgathervLinearOpNew ⟨n, r, fun q => q⟩ args) (AllgathervLinearRel n r args)
      (allgathervCopy args r ++ ((List.range' 1 (n - 1)).flatMap (allgathervLinearCmds n r args) ++
        [.wait]) : Sched (Addr B) β) where
  trigger := by
    change (allgathervLinearOpTrigger _ id).Exec _ _ _
    rw [allgathervLinearOpTrigger]
    dsimp only
    rw [exec_bind]
    refine exec_allgathervMemcpy ?_
    rw [exec_bind, allgathervLinearOpProgress, if_pos rfl, exec_bind]
    refine exec_postAll (fun i leaf moved cs hleaf => ?_) fun moved => ?_
    · rw [allgathervLinearPost]
      dsimp only
      rw [exec_bind, allgathervLinearCmds, List.cons_append]
      refine exec_isend_cons rfl rfl ?_
      rw [if_neg (by decide)]
      exact exec_irecv_cons rfl rfl hleaf
    · rw [if_neg (by decide)]
      exact (exec_allgathervLinearTest moved).imp fun moved res cs h => h.2
  progress op cs hrel := by
    change (allgathervLinearOpProgress op).Exec _ _ _
    cases hrel with
    | posted id =>
      rw [allgathervLinearOpProgress, if_neg Bool.false_ne_true]
      exact exec_allgathervLinearTest false
    | idle id st =>
      rw [allgathervLinearOpProgress, if_neg Bool.false_ne_true]
      exact ⟨⟨rfl, .idle id .inprogress, Or.inl ⟨rfl, rfl, trivial⟩⟩,
        Or.inl ⟨rfl, .idle id .ok, Or.inr ⟨rfl, rfl⟩⟩⟩

end Operation

section Runs

variable [DecidableEq B]

/-- The linear allgathervs of all ranks. -/
def allgathervLinearProc (n : ℕ) (args : ℕ → AllgathervArgs B) (id r : ℕ) :
    Proc (Addr B) β (AllgathervLinearOp B) :=
  opProc allgathervLinearFuncs AllgathervLinearOp.status
    (allgathervLinearOpNew ⟨n, r, fun q => q⟩ (args r)) id

end Runs

end Kucg.Ucx
