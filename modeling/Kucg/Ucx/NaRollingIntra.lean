import Kucg.Core.Status
import Kucg.Algo.Exchange
import Mathlib.Tactic

/-! The rolling allgatherv inside a node (`allgatherv_na_rolling.c`).

    The blocks of the other nodes are exchanged along with those of the own one, and for node `it`
    the progress function moves the two argument pointers `it * group_size` elements ahead and back
    again. An exchange that fails leaves the function in between. So a call gives the pointers back
    just when no exchange fails but for the first node, whose shift is zero
    (`naRollingIntra_restores_iff`).

    The loop of the function ends because the two sides of the circle meet: a pass that completes
    brings them closer, or is the idle one of the first rank on an odd circle (`passesLeft`). -/

namespace Kucg.Ucx

open Kucg.Core Kucg.Algo

/-- `ucg_algo_rolling_iter_t` of a group with `n` ranks. -/
structure RollingIter (n : ℕ) where
  left : Fin n
  right : Fin n
  leftFlag : Bool
  rightFlag : Bool
  oddStep : Bool
  deriving DecidableEq, Repr

namespace RollingIter

variable {n : ℕ}

/-- `ucg_algo_rolling_iter_init`. -/
def init (myrank : Fin n) : RollingIter n := ⟨myrank, myrank, false, false, true⟩

/-- `ucg_algo_rolling_iter_next`. -/
def next (iter : RollingIter n) : RollingIter n := { iter with oddStep := !iter.oddStep }

/-- `ucg_algo_rolling_iter_full`. -/
def Full (iter : RollingIter n) : Prop := iter.left = (iter.right + 1 : ℕ) % n

instance (iter : RollingIter n) : Decidable iter.Full := inferInstanceAs (Decidable (_ = _))

/-- `ucg_algo_rolling_iter_left_inc`. -/
def leftInc (iter : RollingIter n) : RollingIter n :=
  { iter with left := ⟨(iter.left + n - 1) % n, Nat.mod_lt _ iter.left.pos⟩ }

/-- `ucg_algo_rolling_iter_right_inc`. -/
def rightInc (iter : RollingIter n) : RollingIter n :=
  { iter with right := ⟨(iter.right + 1) % n, Nat.mod_lt _ iter.right.pos⟩ }

end RollingIter

/-- What the op reads and does not change: the node group, the size of the whole group, the receive
    buffer and the extent of its type, and the `int` at each address. `posted` and `testall` are
    what the point-to-point calls return, one after the other. -/
structure IntraEnv where
  size : ℕ
  myrank : Fin size
  totalSize : ℕ
  size_le : size ≤ totalSize
  recvbuf : ℤ
  extent : ℤ
  ints : ℤ → ℤ
  posted : ℕ → Status
  testall : ℕ → Status

/-- A call of `ucg_planc_ucx_p2p_irecv` or `ucg_planc_ucx_p2p_isend` for the blocks of a node, with
    the status that it returns. -/
structure IntraCall where
  node : ℕ
  isSend : Bool
  buffer : ℤ
  count : ℤ
  peer : ℕ
  status : Status
  deriving DecidableEq, Repr

/-- The op of a group with `n` ranks. The pointers are those of `args.allgatherv`, in elements;
    `flags` is set when both of `UCG_ALLGATHERV_NA_ROLLING_INTRA_FLAGS` are. The calls made so far
    are kept beside. -/
structure IntraOp (n : ℕ) where
  iter : RollingIter n
  flags : Bool
  displs : ℤ
  recvcounts : ℤ
  status : Status
  calls : List IntraCall
  tests : ℕ
  deriving DecidableEq, Repr

variable (env : IntraEnv)

/-- Post the receive or the send of a block. -/
def naRollingPost (op : IntraOp env.size) (it : ℕ) (isSend : Bool) (block peer : ℕ) :
    IntraOp env.size × Status :=
  let status := env.posted op.calls.length
  let call : IntraCall :=
    { node := it, isSend, buffer := env.recvbuf + env.ints (op.displs + block) * env.extent,
      count := env.ints (op.recvcounts + block), peer, status }
  ({ op with calls := op.calls ++ [call] }, status)

/-- Receive a block from a neighbour, send one to it and set the flag of its side. -/
def naRollingExchange (op : IntraOp env.size) (it recvIdx sendIdx peer : ℕ)
    (setFlag : RollingIter env.size → RollingIter env.size) : IntraOp env.size × Status :=
  let (op, status) := naRollingPost env op it false recvIdx peer
  if status.IsErr then (op, status)
  else
    let (op, status) := naRollingPost env op it true sendIdx peer
    if status.IsErr then (op, status)
    else ({ op with iter := setFlag op.iter }, status)

/-- `iter->left_flag = 1`. -/
def setLeftFlag {n : ℕ} (iter : RollingIter n) : RollingIter n := { iter with leftFlag := true }

/-- `iter->right_flag = 1`. -/
def setRightFlag {n : ℕ} (iter : RollingIter n) : RollingIter n := { iter with rightFlag := true }

/-- `ucg_planc_ucx_na_rolling_intra_odd_step`. -/
def naRollingIntraOddStep (op : IntraOp env.size) (it leftIdx rightIdx : ℕ) :
    IntraOp env.size × Status :=
  let rightPeer := (env.myrank + 1 : ℕ) % env.size
  let leftPeer := (env.myrank + env.size - 1 : ℕ) % env.size
  let lleft := (leftIdx + env.size - 1) % env.size
  let rright := (rightIdx + 1) % env.size
  let flag := env.myrank.val % 2
  let odd := env.size % 2
  let (op, status) :=
    if flag = 0 then naRollingExchange env op it rright leftIdx rightPeer setRightFlag
    else (op, .ok)
  if status.IsErr then (op, status)
  else if flag = 1 ∨ env.myrank.val = 0 ∧ odd = 1 then
    naRollingExchange env op it lleft rightIdx leftPeer setLeftFlag
  else (op, status)

/-- `ucg_planc_ucx_na_rolling_intra_even_step`. -/
def naRollingIntraEvenStep (op : IntraOp env.size) (it leftIdx rightIdx : ℕ) :
    IntraOp env.size × Status :=
  let rightPeer := (env.myrank + 1 : ℕ) % env.size
  let leftPeer := (env.myrank + env.size - 1 : ℕ) % env.size
  let lleft := (leftIdx + env.size - 1) % env.size
  let rright := (rightIdx + 1) % env.size
  let rleft := (leftIdx + 1) % env.size
  let lright := (rightIdx + env.size - 1) % env.size
  let flag := env.myrank.val % 2
  let odd := env.size % 2
  if env.myrank.val = 0 ∧ odd = 1 then (op, .ok)
  else if flag = 0 then naRollingExchange env op it lleft lright leftPeer setLeftFlag
  else naRollingExchange env op it rright rleft rightPeer setRightFlag

/-- The pointers, `it * group_size` elements ahead. -/
def IntraOp.advance {n : ℕ} (op : IntraOp n) (it : ℕ) : IntraOp n :=
  { op with displs := op.displs + it * n, recvcounts := op.recvcounts + it * n }

/-- The pointers, `it * group_size` elements back. -/
def IntraOp.retreat {n : ℕ} (op : IntraOp n) (it : ℕ) : IntraOp n :=
  { op with displs := op.displs - it * n, recvcounts := op.recvcounts - it * n }

@[simp] theorem IntraOp.advance_displs {n : ℕ} (op : IntraOp n) (it : ℕ) :
    (op.advance it).displs = op.displs + it * n := rfl

@[simp] theorem IntraOp.advance_recvcounts {n : ℕ} (op : IntraOp n) (it : ℕ) :
    (op.advance it).recvcounts = op.recvcounts + it * n := rfl

@[simp] theorem IntraOp.retreat_displs {n : ℕ} (op : IntraOp n) (it : ℕ) :
    (op.retreat it).displs = op.displs - it * n := rfl

@[simp] theorem IntraOp.retreat_recvcounts {n : ℕ} (op : IntraOp n) (it : ℕ) :
    (op.retreat it).recvcounts = op.recvcounts - it * n := rfl

/-- The step for a node, odd or even. -/
def naRollingIntraStep (op : IntraOp env.size) (it : ℕ) : IntraOp env.size × Status :=
  if op.iter.oddStep then naRollingIntraOddStep env op it op.iter.left op.iter.right
  else naRollingIntraEvenStep env op it op.iter.left op.iter.right

/-- The loop over the nodes. -/
def naRollingIntraNodes : List ℕ → IntraOp env.size → IntraOp env.size × Status
  | [], op => (op, .ok)
  | it :: its, op =>
    let (op, status) := naRollingIntraStep env (op.advance it) it
    if status.IsErr then (op, status) else naRollingIntraNodes its (op.retreat it)

/-- The indices of a completed pass: each side that has its flag set moves on. -/
def RollingIter.advance {n : ℕ} (iter : RollingIter n) : RollingIter n :=
  let iter := iter.next
  let iter := if iter.rightFlag then { iter.rightInc with rightFlag := false } else iter
  if iter.leftFlag then { iter.leftInc with leftFlag := false } else iter

/-- One pass of the outer loop. The status is the one to leave the function with, if it does. -/
def naRollingIntraPass (op : IntraOp env.size) : IntraOp env.size × Option Status :=
  let (op, status) :=
    if op.flags then
      naRollingIntraNodes env (List.range (env.totalSize / env.size)) { op with flags := false }
    else (op, .ok)
  if status.IsErr then (op, some status)
  else
    let status := env.testall op.tests
    let op := { op with tests := op.tests + 1 }
    if status ≠ .ok then (op, some status)
    else
      ({ op with iter := op.iter.advance, flags := true }, none)

/-- The outer loop, for at most so many passes. -/
def naRollingIntraLoop : ℕ → IntraOp env.size → Option (IntraOp env.size × Status)
  | 0, _ => none
  | fuel + 1, op =>
    if op.iter.Full then some (op, .ok)
    else
      match naRollingIntraPass env op with
      | (op, some status) => some (op, status)
      | (op, none) => naRollingIntraLoop fuel op

/-- `ucg_planc_ucx_allgatherv_na_rolling_intra_op_progress`. -/
def naRollingIntraProgress (op : IntraOp env.size) : Option (IntraOp env.size × Status) := do
  let (op, status) ← naRollingIntraLoop env (4 * env.size + 4) op
  return ({ op with status }, status)

/-- `ucg_planc_ucx_allgatherv_na_rolling_intra_op_discard`, by the pointers that it frees. -/
def naRollingIntraDiscard {n : ℕ} (op : IntraOp n) : List ℤ := [op.displs, op.recvcounts]

/-! ### The pointers -/

section Pointers

variable {env} {n it : ℕ} {op op' op₁ op₂ : IntraOp n} {status status₁ status₂ : Status}
  {new new₁ new₂ : List IntraCall}

theorem not_isErr_ok : ¬ Status.ok.IsErr := by decide

/-- The function has made these calls and goes on with a status that is an error just when one of
    them has failed. -/
structure Called (op op' : IntraOp n) (status : Status) (new : List IntraCall) : Prop where
  calls : op'.calls = op.calls ++ new
  isErr : status.IsErr ↔ ∃ c ∈ new, c.status.IsErr

theorem Called.refl : Called op op .ok [] := ⟨by simp, by simp [not_isErr_ok]⟩

theorem Called.not_isErr (h : Called op op' status new) (hok : ¬ status.IsErr) :
    ∀ c ∈ new, ¬ c.status.IsErr := fun c hc hcerr => hok (h.isErr.mpr ⟨c, hc, hcerr⟩)

theorem Called.trans (h₁ : Called op op₁ status₁ new₁) (hok : ¬ status₁.IsErr)
    (h₂ : Called op₁ op₂ status₂ new₂) : Called op op₂ status₂ (new₁ ++ new₂) where
  calls := by rw [h₂.calls, h₁.calls, List.append_assoc]
  isErr := by
    rw [h₂.isErr]
    constructor
    · rintro ⟨c, hc, hcerr⟩
      exact ⟨c, List.mem_append_right _ hc, hcerr⟩
    · rintro ⟨c, hc, hcerr⟩
      rcases List.mem_append.mp hc with hc | hc
      · exact absurd hcerr (h₁.not_isErr hok c hc)
      · exact ⟨c, hc, hcerr⟩

/-- The calls are those for one node, and the pointers are where they were. -/
structure Posts (it : ℕ) (op op' : IntraOp n) (status : Status) (new : List IntraCall) : Prop
    extends Called op op' status new where
  node : ∀ c ∈ new, c.node = it
  displs : op'.displs = op.displs
  recvcounts : op'.recvcounts = op.recvcounts

theorem Posts.refl : Posts it op op .ok [] := ⟨Called.refl, by simp, rfl, rfl⟩

theorem Posts.trans (h₁ : Posts it op op₁ status₁ new₁) (hok : ¬ status₁.IsErr)
    (h₂ : Posts it op₁ op₂ status₂ new₂) : Posts it op op₂ status₂ (new₁ ++ new₂) :=
  ⟨h₁.toCalled.trans hok h₂.toCalled, List.forall_mem_append.mpr ⟨h₁.node, h₂.node⟩,
    h₂.displs.trans h₁.displs, h₂.recvcounts.trans h₁.recvcounts⟩

theorem naRollingPost_posts (op : IntraOp env.size) (it : ℕ) (isSend : Bool) (block peer : ℕ) :
    ∃ new, Posts it op (naRollingPost env op it isSend block peer).1
      (naRollingPost env op it isSend block peer).2 new :=
  ⟨[_], ⟨rfl, by simp [naRollingPost]⟩, by simp, rfl, rfl⟩

theorem naRollingExchange_posts (op : IntraOp env.size) (it recvIdx sendIdx peer : ℕ)
    (setFlag : RollingIter env.size → RollingIter env.size) :
    ∃ new, Posts it op (naRollingExchange env op it recvIdx sendIdx peer setFlag).1
      (naRollingExchange env op it recvIdx sendIdx peer setFlag).2 new := by
  obtain ⟨new₁, h₁⟩ := naRollingPost_posts op it false recvIdx peer
  rw [naRollingExchange]
  dsimp only
  split_ifs with hrecv hsend
  · exact ⟨new₁, h₁⟩
  · obtain ⟨new₂, h₂⟩ := naRollingPost_posts _ it true sendIdx peer
    exact ⟨new₁ ++ new₂, h₁.trans hrecv h₂⟩
  · obtain ⟨new₂, h₂⟩ := naRollingPost_posts _ it true sendIdx peer
    obtain ⟨⟨hcalls, hisErr⟩, hnode, hdispls, hrecvcounts⟩ := h₁.trans hrecv h₂
    exact ⟨new₁ ++ new₂, ⟨hcalls, hisErr⟩, hnode, hdispls, hrecvcounts⟩

theorem naRollingIntraOddStep_posts (op : IntraOp env.size) (it leftIdx rightIdx : ℕ) :
    ∃ new, Posts it op (naRollingIntraOddStep env op it leftIdx rightIdx).1
      (naRollingIntraOddStep env op it leftIdx rightIdx).2 new := by
  simp only [naRollingIntraOddStep]
  generalize hfirst : (if env.myrank.val % 2 = 0 then
    naRollingExchange env op it _ leftIdx _ setRightFlag else (op, .ok)) = first
  obtain ⟨new₁, h₁⟩ : ∃ new, Posts it op first.1 first.2 new := by
    rw [← hfirst]
    split_ifs
    · exact naRollingExchange_posts op it _ _ _ _
    · exact ⟨[], Posts.refl⟩
  split_ifs with herr hleft
  · exact ⟨new₁, h₁⟩
  · obtain ⟨new₂, h₂⟩ := naRollingExchange_posts first.1 it _ rightIdx _ setLeftFlag
    exact ⟨new₁ ++ new₂, h₁.trans herr h₂⟩
  · exact ⟨new₁, h₁⟩

theorem naRollingIntraEvenStep_posts (op : IntraOp env.size) (it leftIdx rightIdx : ℕ) :
    ∃ new, Posts it op (naRollingIntraEvenStep env op it leftIdx rightIdx).1
      (naRollingIntraEvenStep env op it leftIdx rightIdx).2 new := by
  simp only [naRollingIntraEvenStep]
  split_ifs
  · exact ⟨[], Posts.refl⟩
  · exact naRollingExchange_posts op it _ _ _ _
  · exact naRollingExchange_posts op it _ _ _ _

/-- The pointers have been moved by the blocks of `k` nodes. They have been moved at all just when
    a call for a node other than the first has failed. -/
structure Moved (op op' : IntraOp n) (status : Status) (new : List IntraCall) (k : ℕ) : Prop
    extends Called op op' status new where
  displs : op'.displs = op.displs + k * n
  recvcounts : op'.recvcounts = op.recvcounts + k * n
  eq_zero : k = 0 ↔ ∀ c ∈ new, c.status.IsErr → c.node = 0

theorem Moved.refl : Moved op op .ok [] 0 := ⟨Called.refl, by simp, by simp, by simp⟩

/-- Nothing is moved unless there is an error. -/
theorem Moved.eq_zero_of_not_isErr {k : ℕ} (h : Moved op op' status new k)
    (hok : ¬ status.IsErr) : k = 0 :=
  h.eq_zero.mpr fun c hc hcerr => absurd hcerr (h.not_isErr hok c hc)

theorem Moved.trans {k₁ k₂ : ℕ} (h₁ : Moved op op₁ status₁ new₁ k₁) (hok : ¬ status₁.IsErr)
    (h₂ : Moved op₁ op₂ status₂ new₂ k₂) : Moved op op₂ status₂ (new₁ ++ new₂) k₂ := by
  obtain rfl := h₁.eq_zero_of_not_isErr hok
  refine ⟨h₁.toCalled.trans hok h₂.toCalled, ?_, ?_, ?_⟩
  · rw [h₂.displs, h₁.displs]
    simp
  · rw [h₂.recvcounts, h₁.recvcounts]
    simp
  · rw [h₂.eq_zero, List.forall_mem_append]
    exact ⟨fun h => ⟨fun c hc hcerr => absurd hcerr (h₁.not_isErr hok c hc), h⟩, And.right⟩

theorem naRollingIntraStep_posts (op : IntraOp env.size) (it : ℕ) :
    ∃ new, Posts it op (naRollingIntraStep env op it).1 (naRollingIntraStep env op it).2 new := by
  rw [naRollingIntraStep]
  split_ifs
  · exact naRollingIntraOddStep_posts op it _ _
  · exact naRollingIntraEvenStep_posts op it _ _

/-- The loop over the nodes leaves the pointers with the shift of the node that it fails for. -/
theorem naRollingIntraNodes_moved : ∀ (its : List ℕ) (op : IntraOp env.size),
    ∃ new k, Moved op (naRollingIntraNodes env its op).1 (naRollingIntraNodes env its op).2 new k
  | [], op => ⟨[], 0, Moved.refl⟩
  | it :: its, op => by
    obtain ⟨new, h⟩ := naRollingIntraStep_posts (op.advance it) it
    simp only [naRollingIntraNodes]
    split_ifs with herr
    · refine ⟨new, it, ⟨h.calls, h.isErr⟩, h.displs, h.recvcounts, fun hit c hc _ =>
        ?_, fun hall => ?_⟩
      · rw [h.node c hc, hit]
      · obtain ⟨c, hc, hcerr⟩ := h.isErr.mp herr
        rw [← h.node c hc, hall c hc hcerr]
    · obtain ⟨new', k, hrest⟩ := naRollingIntraNodes_moved its
        ((naRollingIntraStep env (op.advance it) it).1.retreat it)
      have hstep : Moved op ((naRollingIntraStep env (op.advance it) it).1.retreat it)
          (naRollingIntraStep env (op.advance it) it).2 new 0 := by
        refine ⟨⟨h.calls, h.isErr⟩, ?_, ?_, fun _ c hc hcerr =>
          absurd hcerr (h.not_isErr herr c hc),
          fun _ => rfl⟩
        · rw [IntraOp.retreat_displs, h.displs]
          simp
        · rw [IntraOp.retreat_recvcounts, h.recvcounts]
          simp
      exact ⟨new ++ new', k, hstep.trans herr hrest⟩

theorem naRollingIntraPass_moved (op : IntraOp env.size) :
    ∃ new k status, Moved op (naRollingIntraPass env op).1 status new k ∧
      ((naRollingIntraPass env op).2 = none → ¬ status.IsErr) := by
  generalize hposted : (if op.flags then naRollingIntraNodes env
    (List.range (env.totalSize / env.size)) { op with flags := false } else (op, .ok)) = posted
  obtain ⟨new, k, h⟩ : ∃ new k, Moved op posted.1 posted.2 new k := by
    rw [← hposted]
    split_ifs
    · obtain ⟨new, k, ⟨hcalls, hisErr⟩, hdispls, hrecvcounts, hzero⟩ :=
        naRollingIntraNodes_moved (List.range (env.totalSize / env.size)) { op with flags := false }
      exact ⟨new, k, ⟨hcalls, hisErr⟩, hdispls, hrecvcounts, hzero⟩
    · exact ⟨[], 0, Moved.refl⟩
  obtain ⟨⟨hcalls, hisErr⟩, hdispls, hrecvcounts, hzero⟩ := h
  refine ⟨new, k, posted.2, ?_, ?_⟩ <;> simp only [naRollingIntraPass, hposted]
  · split_ifs <;> exact ⟨⟨hcalls, hisErr⟩, hdispls, hrecvcounts, hzero⟩
  · split_ifs with herr <;> simp [herr]

theorem naRollingIntraLoop_moved {fuel : ℕ} {op op' : IntraOp env.size} {status : Status}
    (h : naRollingIntraLoop env fuel op = some (op', status)) :
    ∃ new k status', Moved op op' status' new k := by
  induction fuel generalizing op with
  | zero => simp [naRollingIntraLoop] at h
  | succ fuel ih =>
    rw [naRollingIntraLoop] at h
    split_ifs at h
    · obtain ⟨rfl, rfl⟩ := Prod.mk.inj (Option.some.inj h)
      exact ⟨[], 0, .ok, Moved.refl⟩
    · obtain ⟨new, k, status₁, hpass, hok⟩ := naRollingIntraPass_moved op
      rcases hres : naRollingIntraPass env op with ⟨op₁, _ | status₂⟩ <;> rw [hres] at h hpass hok
      · obtain ⟨new', k', status', hrest⟩ := ih h
        exact ⟨new ++ new', k', status', hpass.trans (hok rfl) hrest⟩
      · obtain ⟨rfl, -⟩ := Prod.mk.inj (Option.some.inj h)
        exact ⟨new, k, status₁, hpass⟩

end Pointers

/-! ### The loop ends -/

section Ends

variable {env} {n it : ℕ} {op op' : IntraOp env.size}

/-- The sides that a rank exchanges with in a step get their flags. -/
def RollingIter.mark {n : ℕ} (iter : RollingIter n) (myrank : Fin n) : RollingIter n :=
  { iter with
    rightFlag := iter.rightFlag ||
      if iter.oddStep then myrank.val % 2 = 0 else myrank.val % 2 = 1
    leftFlag := iter.leftFlag ||
      if iter.oddStep then myrank.val % 2 = 1 ∨ myrank.val = 0 ∧ n % 2 = 1
      else myrank.val % 2 = 0 ∧ ¬ (myrank.val = 0 ∧ n % 2 = 1) }

theorem RollingIter.mark_mark {n : ℕ} (iter : RollingIter n) (myrank : Fin n) :
    (iter.mark myrank).mark myrank = iter.mark myrank := by
  simp [mark]

theorem naRollingExchange_iter (op : IntraOp env.size) (it recvIdx sendIdx peer : ℕ)
    (setFlag : RollingIter env.size → RollingIter env.size)
    (hok : ¬ (naRollingExchange env op it recvIdx sendIdx peer setFlag).2.IsErr) :
    (naRollingExchange env op it recvIdx sendIdx peer setFlag).1.iter = setFlag op.iter := by
  rw [naRollingExchange] at hok ⊢
  dsimp only at hok ⊢
  split_ifs at hok ⊢ with hrecv hsend
  · exact absurd hrecv hok
  · exact absurd hsend hok
  · rfl

theorem naRollingIntraOddStep_iter {leftIdx rightIdx : ℕ} (hodd : op.iter.oddStep = true)
    (hok : ¬ (naRollingIntraOddStep env op it leftIdx rightIdx).2.IsErr) :
    (naRollingIntraOddStep env op it leftIdx rightIdx).1.iter = op.iter.mark env.myrank := by
  simp only [naRollingIntraOddStep] at hok ⊢
  generalize hfirst : (if env.myrank.val % 2 = 0 then
    naRollingExchange env op it _ leftIdx _ setRightFlag else (op, .ok)) = first at hok ⊢
  have hiter (herr : ¬ first.2.IsErr) : first.1.iter =
      if env.myrank.val % 2 = 0 then setRightFlag op.iter else op.iter := by
    rw [← hfirst] at herr ⊢
    split_ifs at herr ⊢
    · exact naRollingExchange_iter _ _ _ _ _ _ herr
    · rfl
  split_ifs at hok ⊢ with herr hleft
  · exact absurd herr hok
  · rw [naRollingExchange_iter _ _ _ _ _ _ hok, hiter herr]
    split_ifs <;> simp_all [RollingIter.mark, setLeftFlag, setRightFlag]
  · rw [hiter herr]
    split_ifs <;> simp_all [RollingIter.mark, setRightFlag]

theorem naRollingIntraEvenStep_iter {leftIdx rightIdx : ℕ} (heven : op.iter.oddStep = false)
    (hok : ¬ (naRollingIntraEvenStep env op it leftIdx rightIdx).2.IsErr) :
    (naRollingIntraEvenStep env op it leftIdx rightIdx).1.iter = op.iter.mark env.myrank := by
  simp only [naRollingIntraEvenStep] at hok ⊢
  split_ifs at hok ⊢ with hidle hflag
  · cases op with | mk iter => cases iter; simp_all [RollingIter.mark]
  · rw [naRollingExchange_iter _ _ _ _ _ _ hok]
    simp [RollingIter.mark, heven, hidle, hflag, setLeftFlag]
  · rw [naRollingExchange_iter _ _ _ _ _ _ hok]
    have hflag : env.myrank.val % 2 = 1 := by omega
    simp [RollingIter.mark, heven, hflag, setRightFlag]

theorem naRollingIntraStep_iter (hok : ¬ (naRollingIntraStep env op it).2.IsErr) :
    (naRollingIntraStep env op it).1.iter = op.iter.mark env.myrank := by
  rw [naRollingIntraStep] at hok ⊢
  split_ifs at hok ⊢ with hodd
  · exact naRollingIntraOddStep_iter hodd hok
  · exact naRollingIntraEvenStep_iter (by simpa using hodd) hok

theorem naRollingIntraNodes_iter : ∀ {its : List ℕ} {op : IntraOp env.size}, its ≠ [] →
    ¬ (naRollingIntraNodes env its op).2.IsErr →
    (naRollingIntraNodes env its op).1.iter = op.iter.mark env.myrank
  | it :: its, op, _, hok => by
    simp only [naRollingIntraNodes] at hok ⊢
    split_ifs at hok ⊢ with herr
    · exact absurd herr hok
    · have hiter : ((naRollingIntraStep env (op.advance it) it).1.retreat it).iter =
          op.iter.mark env.myrank := naRollingIntraStep_iter herr
      rcases its with _ | ⟨it', its⟩
      · exact hiter
      · rw [naRollingIntraNodes_iter (List.cons_ne_nil _ _) hok, hiter, RollingIter.mark_mark]

/-- How many blocks are still missing between the two sides. -/
def RollingIter.gap {n : ℕ} (iter : RollingIter n) : ℕ := (iter.left + (n - 1 - iter.right)) % n

section Gap

variable (iter : RollingIter n)

theorem RollingIter.gap_eq : iter.gap =
    if iter.left.val ≤ iter.right.val then iter.left.val + (n - 1 - iter.right)
    else iter.left.val - iter.right - 1 := by
  have := iter.left.isLt
  have := iter.right.isLt
  rw [gap, mod_eq_ite (by omega : iter.left.val + (n - 1 - iter.right) < 2 * n)]
  split_ifs <;> omega

theorem RollingIter.gap_lt : iter.gap < n := Nat.mod_lt _ iter.left.pos

theorem RollingIter.rightInc_right :
    (iter.rightInc.right : ℕ) = if iter.right.val + 1 = n then 0 else iter.right.val + 1 := by
  have := iter.right.isLt
  refine (mod_eq_ite (by omega : iter.right.val + 1 < 2 * n)).trans ?_
  split_ifs <;> omega

theorem RollingIter.leftInc_left :
    (iter.leftInc.left : ℕ) = if iter.left.val = 0 then n - 1 else iter.left.val - 1 := by
  have := iter.left.isLt
  refine (mod_eq_ite (by omega : iter.left.val + n - 1 < 2 * n)).trans ?_
  split_ifs <;> omega

theorem RollingIter.full_iff : iter.Full ↔ iter.gap = 0 := by
  have := iter.left.isLt
  have := iter.right.isLt
  rw [Full, gap_eq, mod_eq_ite (by omega : iter.right.val + 1 < 2 * n)]
  split_ifs <;> omega

theorem RollingIter.gap_rightInc :
    iter.rightInc.gap = if iter.gap = 0 then n - 1 else iter.gap - 1 := by
  have := iter.left.isLt
  have := iter.right.isLt
  have hleft : iter.rightInc.left = iter.left := rfl
  rw [gap_eq, gap_eq, rightInc_right, hleft]
  split_ifs <;> omega

theorem RollingIter.gap_leftInc :
    iter.leftInc.gap = if iter.gap = 0 then n - 1 else iter.gap - 1 := by
  have := iter.left.isLt
  have := iter.right.isLt
  have hright : iter.leftInc.right = iter.right := rfl
  rw [gap_eq, gap_eq, leftInc_left, hright]
  split_ifs <;> omega

/-- A side that moves on makes the gap smaller by one, around the circle. -/
theorem RollingIter.gap_advance :
    iter.advance.gap =
      let gap := if iter.rightFlag then (if iter.gap = 0 then n - 1 else iter.gap - 1) else iter.gap
      if iter.leftFlag then (if gap = 0 then n - 1 else gap - 1) else gap := by
  have hright : ({ iter.next.rightInc with rightFlag := false } : RollingIter n).gap =
      if iter.gap = 0 then n - 1 else iter.gap - 1 := iter.next.gap_rightInc
  rw [advance]
  rcases iter with ⟨left, right, _ | _, _ | _, oddStep⟩
  · rfl
  · exact hright
  · exact gap_leftInc _
  · refine (gap_leftInc { (RollingIter.next _).rightInc with rightFlag := false }).trans ?_
    rw [hright]
    rfl

@[simp] theorem RollingIter.advance_oddStep : iter.advance.oddStep = !iter.oddStep := by
  rcases iter with ⟨left, right, _ | _, _ | _, oddStep⟩ <;> rfl

@[simp] theorem RollingIter.advance_leftFlag : iter.advance.leftFlag = false := by
  rcases iter with ⟨left, right, _ | _, _ | _, oddStep⟩ <;> rfl

@[simp] theorem RollingIter.advance_rightFlag : iter.advance.rightFlag = false := by
  rcases iter with ⟨left, right, _ | _, _ | _, oddStep⟩ <;> rfl

/-- A bound on the passes that are left. The first rank of an odd circle moves both sides in every
    other pass, and steps over an odd gap once. -/
def RollingIter.passesLeft (myrank : Fin n) : ℕ :=
  if myrank.val = 0 ∧ n % 2 = 1 then
    2 * (if iter.gap % 2 = 0 then iter.gap else iter.gap + n) + if iter.oddStep then 0 else 1
  else iter.gap

theorem RollingIter.passesLeft_lt (myrank : Fin n) : iter.passesLeft myrank < 4 * n := by
  have := iter.gap_lt
  rw [passesLeft]
  split_ifs <;> omega

/-- A pass in which the rank exchanges with its neighbours. -/
theorem RollingIter.passesLeft_advance (myrank : Fin n) (hleft : iter.leftFlag = false)
    (hright : iter.rightFlag = false) (hfull : ¬ iter.Full) :
    (iter.mark myrank).advance.passesLeft myrank < iter.passesLeft myrank := by
  have hgap : iter.gap ≠ 0 := fun h => hfull (iter.full_iff.mpr h)
  have hlt := iter.gap_lt
  have hmark : (iter.mark myrank).gap = iter.gap := rfl
  rw [passesLeft, passesLeft, gap_advance, hmark, advance_oddStep]
  simp only [mark, hleft, hright, Bool.false_or]
  by_cases hidle : myrank.val = 0 ∧ n % 2 = 1
  · cases iter.oddStep
    · simp [hidle]
    · simp [hidle, hgap]
      split_ifs <;> omega
  · -- one side moves on
    rcases Nat.mod_two_eq_zero_or_one myrank with hflag | hflag <;>
      cases iter.oddStep <;> simp [hidle, hflag, hgap] <;> omega

end Gap

/-- An op that is about to post its next step. -/
def IntraOp.Fresh (op : IntraOp n) : Prop :=
  op.flags = true ∧ op.iter.leftFlag = false ∧ op.iter.rightFlag = false

/-- A pass after which the loop goes on has posted what was to be posted. -/
theorem naRollingIntraPass_none (h : naRollingIntraPass env op = (op', none)) :
    ∃ posted, (if op.flags then naRollingIntraNodes env (List.range (env.totalSize / env.size))
        { op with flags := false } else (op, .ok)) = posted ∧ ¬ posted.2.IsErr ∧
      op' = { posted.1 with iter := posted.1.iter.advance, tests := posted.1.tests + 1,
                            flags := true } := by
  simp only [naRollingIntraPass] at h
  generalize (if op.flags = true then _ else (op, Status.ok)) = posted at h ⊢
  split_ifs at h with herr htest
  · simp at h
  · simp at h
  · exact ⟨posted, rfl, herr, (Prod.mk.inj h).1.symm⟩

theorem naRollingIntraPass_fresh (h : naRollingIntraPass env op = (op', none)) : op'.Fresh := by
  obtain ⟨posted, -, -, rfl⟩ := naRollingIntraPass_none h
  exact ⟨rfl, RollingIter.advance_leftFlag _, RollingIter.advance_rightFlag _⟩

theorem naRollingIntraPass_iter (hfresh : op.Fresh) (h : naRollingIntraPass env op = (op', none)) :
    op'.iter = (op.iter.mark env.myrank).advance := by
  have hnodes : List.range (env.totalSize / env.size) ≠ [] := by
    have := Nat.div_pos env.size_le env.myrank.pos
    rw [Ne, List.range_eq_nil]
    omega
  obtain ⟨posted, hposted, herr, rfl⟩ := naRollingIntraPass_none h
  rw [if_pos hfresh.1] at hposted
  rw [← hposted] at herr ⊢
  exact congrArg RollingIter.advance (naRollingIntraNodes_iter hnodes herr)

theorem naRollingIntraLoop_isSome {fuel : ℕ} (hfresh : op.Fresh)
    (hfuel : op.iter.passesLeft env.myrank < fuel) : (naRollingIntraLoop env fuel op).isSome := by
  induction fuel generalizing op with
  | zero => omega
  | succ fuel ih =>
    rw [naRollingIntraLoop]
    split_ifs with hfull
    · rfl
    · rcases hres : naRollingIntraPass env op with ⟨op₁, _ | status⟩
      · have hless := RollingIter.passesLeft_advance op.iter env.myrank hfresh.2.1 hfresh.2.2 hfull
        rw [← naRollingIntraPass_iter hfresh hres] at hless
        exact ih (naRollingIntraPass_fresh hres) (by omega)
      · rfl

/-- The progress function returns. The exchanges of the first pass may have been posted by an
    earlier call, those of the others have not. -/
theorem naRollingIntraProgress_isSome (op : IntraOp env.size) :
    (naRollingIntraProgress env op).isSome := by
  suffices hloop : (naRollingIntraLoop env (4 * env.size + 4) op).isSome by
    obtain ⟨res, hres⟩ := Option.isSome_iff_exists.mp hloop
    simp [naRollingIntraProgress, hres]
  rw [naRollingIntraLoop]
  split_ifs
  · rfl
  · rcases hres : naRollingIntraPass env op with ⟨op₁, _ | status⟩
    · have := op₁.iter.passesLeft_lt env.myrank
      exact naRollingIntraLoop_isSome (naRollingIntraPass_fresh hres) (by omega)
    · rfl

end Ends

/-! ### What a call leaves behind -/

theorem naRollingIntraProgress_moved (op : IntraOp env.size) :
    ∃ op' status new k status', naRollingIntraProgress env op = some (op', status) ∧
      Moved op op' status' new k := by
  obtain ⟨⟨op', status⟩, hres⟩ := Option.isSome_iff_exists.mp (naRollingIntraProgress_isSome op)
  obtain ⟨⟨op₁, status₁⟩, hloop, hop'⟩ := Option.bind_eq_some_iff.mp hres
  obtain ⟨rfl, rfl⟩ := Prod.mk.inj (Option.some.inj hop')
  obtain ⟨new, k, status', ⟨hcalls, hisErr⟩, hdispls, hrecvcounts, hzero⟩ :=
    naRollingIntraLoop_moved hloop
  exact ⟨_, _, new, k, status', hres, ⟨hcalls, hisErr⟩, hdispls, hrecvcounts, hzero⟩

/-- Every call of the progress function returns, and it gives the two pointers back, to the next
    call or to the discard, just when no exchange of it fails but for the first node. -/
theorem naRollingIntra_restores_iff (op : IntraOp env.size) :
    ∃ op' status new, naRollingIntraProgress env op = some (op', status) ∧
      op'.calls = op.calls ++ new ∧
      (op'.displs = op.displs ∧ op'.recvcounts = op.recvcounts ↔
        ∀ c ∈ new, c.status.IsErr → c.node = 0) ∧
      (naRollingIntraDiscard op' = naRollingIntraDiscard op ↔
        ∀ c ∈ new, c.status.IsErr → c.node = 0) := by
  obtain ⟨op', status, new, k, status', hres, h⟩ := naRollingIntraProgress_moved env op
  have hpos : env.size ≠ 0 := env.myrank.pos.ne'
  have hiff : op'.displs = op.displs ∧ op'.recvcounts = op.recvcounts ↔ k = 0 := by
    rw [h.displs, h.recvcounts]
    simp [hpos]
  refine ⟨op', status, new, hres, h.calls, hiff.trans h.eq_zero, ?_⟩
  rw [← h.eq_zero, ← hiff]
  simp [naRollingIntraDiscard]

/-- Two nodes with two ranks each. The receive of the second node's block fails. -/
def failingIntra : IntraEnv :=
  { size := 2, myrank := 0, totalSize := 4, size_le := by decide, recvbuf := 0, extent := 1,
    ints := fun _ => 1, posted := fun k => if k = 2 then .errIoError else .ok,
    testall := fun _ => .ok }

theorem naRollingIntra_not_restores :
    ∃ op', naRollingIntraProgress failingIntra
        ⟨RollingIter.init failingIntra.myrank, true, 0, 0, .inprogress, [], 0⟩ =
        some (op', .errIoError) ∧ op'.displs = 2 ∧ op'.recvcounts = 2 :=
  ⟨_, rfl, rfl, rfl⟩

end Kucg.Ucx
