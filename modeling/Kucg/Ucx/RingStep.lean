import Kucg.Algo.Ring
import Kucg.Ucx.P2p

/-! The loop over the steps of a ring, which the broadcast of van de Geijn and the ring allgatherv
    have in common. What a rank sends and receives in a step is a parameter.

    Between two calls the loop waits in a step of which all has been posted (`RingLeaf.posted`). -/

namespace Kucg.Ucx

open Kucg.Core Kucg.Lib Kucg.Algo

variable {ι β : Type}

/-- The iterator, with the flags that tell what has still to be posted in the step. -/
structure RingOp where
  iter : RingIter
  send : Bool
  recv : Bool

/-- The end of a step. -/
def RingOp.next (op : RingOp) : RingOp where
  iter := op.iter.inc
  send := true
  recv := true

/-- Before the first step. -/
def RingOp.reset (op : RingOp) : RingOp where
  iter := op.iter.reset
  send := true
  recv := true

section Functions

variable (vgroup : VGroup)

/-- The send of a step. -/
def ringSend (right : Option ℕ) (cells : ℕ → List ι) (op : RingOp) : Prog ι β (RingOp × Status) :=
  if op.send then do
    let status ← p2pIsend (cells op.iter.idx) right vgroup
    return ({ op with send := false }, status)
  else return (op, .ok)

/-- The receive of a step. -/
def ringRecv (left : Option ℕ) (cells : ℕ → List ι) (op : RingOp) : Prog ι β (RingOp × Status) :=
  if op.recv then do
    let status ← p2pIrecv (cells op.iter.idx) left vgroup 0
    return ({ op with recv := false }, status)
  else return (op, .ok)

/-- The loop over the steps. The fuel bounds their number. -/
def ringLoop (left right : Option ℕ) (sendCells recvCells : ℕ → List ι) (fuel : ℕ) (op : RingOp) :
    Prog ι β (RingOp × Status) :=
  if op.iter.idx < op.iter.maxIdx then
    match fuel with
    | 0 => return (op, .inprogress)
    | fuel + 1 => do
      let (op, status) ← ringSend vgroup right sendCells op
      if status ≠ .ok then return (op, status)
      let (op, status) ← ringRecv vgroup left recvCells op
      if status ≠ .ok then return (op, status)
      let status ← p2pTestall
      if status ≠ .ok then return (op, status)
      ringLoop left right sendCells recvCells fuel op.next
  else return (op, .ok)

/-- The loop, with the neighbours that the iterator has before it. -/
def ringProgress (sendCells recvCells : ℕ → List ι) (op : RingOp) : Prog ι β (RingOp × Status) :=
  ringLoop vgroup op.iter.leftValue op.iter.rightValue sendCells recvCells op.iter.maxIdx op

/-- What a rank does in the steps from the `k`-th on. -/
def ringFrom (iter : RingIter) (sendCells recvCells : ℕ → List ι) (k : ℕ) : Sched ι β :=
  (List.range' k (iter.maxIdx - k)).flatMap fun k =>
    [.send (vgroup.rankMap iter.right) (sendCells k),
    .recv 0 (vgroup.rankMap iter.left) (recvCells k), .wait]

/-- Where a call leaves off: behind the last step, with `cs` left to do, or waiting in a step. -/
structure RingLeaf (iter : RingIter) (sendCells recvCells : ℕ → List ι) (cs : Sched ι β)
    (K : Bool → RingOp × Status → Sched ι β → Prop) : Prop where
  done : ∀ moved op, op.iter = { iter with idx := iter.maxIdx } → K moved (op, .ok) cs
  posted : ∀ k op, k < iter.maxIdx → op = ⟨{ iter with idx := k }, false, false⟩ →
    K true (op, .inprogress) (.wait :: (ringFrom vgroup iter sendCells recvCells (k + 1) ++ cs))

end Functions

section Exec

variable {vgroup : VGroup} {iter : RingIter} {sendCells recvCells : ℕ → List ι} {cs : Sched ι β}
  {K : Bool → RingOp × Status → Sched ι β → Prop} {k : ℕ}

theorem ringFrom_succ (hk : k < iter.maxIdx) :
    (ringFrom vgroup iter sendCells recvCells k : Sched ι β) =
      .send (vgroup.rankMap iter.right) (sendCells k) ::
        .recv 0 (vgroup.rankMap iter.left) (recvCells k) ::
          .wait :: ringFrom vgroup iter sendCells recvCells (k + 1) := by
  obtain ⟨l, hl⟩ : ∃ l, iter.maxIdx - k = l + 1 := ⟨iter.maxIdx - k - 1, by omega⟩
  rw [ringFrom, hl, List.range'_succ, List.flatMap_cons, ringFrom,
    show iter.maxIdx - (k + 1) = l by omega]
  rfl

theorem ringFrom_end :
    (ringFrom vgroup iter sendCells recvCells iter.maxIdx : Sched ι β) = [] := by
  rw [ringFrom, Nat.sub_self]
  rfl

theorem ringLoop_end {left right : Option ℕ} {fuel : ℕ} {op : RingOp}
    (h : ¬op.iter.idx < op.iter.maxIdx) :
    (ringLoop vgroup left right sendCells recvCells fuel op : Prog ι β (RingOp × Status)) =
      pure (op, .ok) := by
  cases fuel <;> rw [ringLoop, if_neg h]

/-- The loop from the start of a step on. -/
theorem exec_ringLoop_fresh (hleaf : RingLeaf vgroup iter sendCells recvCells cs K) :
    ∀ {fuel k : ℕ} {moved : Bool}, iter.maxIdx ≤ k + fuel → k ≤ iter.maxIdx →
      (ringLoop vgroup (some iter.left) (some iter.right) sendCells recvCells fuel
        ⟨{ iter with idx := k }, true, true⟩).Exec K moved
          (ringFrom vgroup iter sendCells recvCells k ++ cs)
  | fuel, k, moved, hfuel, hk => by
    rcases hk.lt_or_eq with hlt | rfl
    · obtain ⟨fuel, rfl⟩ : ∃ f, fuel = f + 1 := ⟨fuel - 1, by omega⟩
      rw [ringLoop, if_pos hlt, ringFrom_succ hlt, List.cons_append]
      dsimp only
      rw [exec_bind, ringSend, if_pos rfl, exec_bind]
      refine exec_isend_cons rfl rfl ?_
      simp only [exec_pure, ne_eq, not_true_eq_false, if_false]
      rw [exec_bind, ringRecv, if_pos rfl, exec_bind, List.cons_append]
      refine exec_irecv_cons rfl rfl ?_
      simp only [exec_pure, not_true_eq_false, if_false]
      rw [exec_bind, List.cons_append]
      exact exec_testall_wait (hleaf.posted k _ hlt rfl) 
        (exec_ringLoop_fresh hleaf (show iter.maxIdx ≤ k + 1 + fuel by omega) hlt)
    · rw [ringFrom_end, List.nil_append]
      rw [ringLoop_end (lt_irrefl _)]
      exact hleaf.done moved _ rfl

/-- The loop in a step that waits. -/
theorem exec_ringLoop_posted (hleaf : RingLeaf vgroup iter sendCells recvCells cs K) {fuel : ℕ}
    {moved : Bool} (hfuel : iter.maxIdx ≤ k + fuel) (hk : k < iter.maxIdx) :
    (ringLoop vgroup (some iter.left) (some iter.right) sendCells recvCells fuel
      ⟨{ iter with idx := k }, false, false⟩).Exec K moved
        (.wait :: (ringFrom vgroup iter sendCells recvCells (k + 1) ++ cs)) := by
  obtain ⟨fuel, rfl⟩ : ∃ f, fuel = f + 1 := ⟨fuel - 1, by omega⟩
  rw [ringLoop, if_pos hk]
  dsimp only
  rw [exec_bind, ringSend, if_neg (by simp), exec_pure]
  dsimp only
  rw [if_neg (by simp), exec_bind, ringRecv, if_neg (by simp), exec_pure]
  dsimp only
  rw [if_neg (by simp), exec_bind]
  exact exec_testall_wait (hleaf.posted k _ hk rfl) 
    (exec_ringLoop_fresh hleaf (show iter.maxIdx ≤ k + 1 + fuel by omega) hk)

theorem exec_ringProgress_fresh (hleaf : RingLeaf vgroup iter sendCells recvCells cs K)
    (moved : Bool) :
    (ringProgress vgroup sendCells recvCells ⟨{ iter with idx := 0 }, true, true⟩).Exec K moved
      (ringFrom vgroup iter sendCells recvCells 0 ++ cs) := by
  rcases Nat.eq_zero_or_pos iter.maxIdx with h | h
  · have hend : (ringFrom vgroup iter sendCells recvCells 0 : Sched ι β) = [] := h ▸ ringFrom_end
    rw [ringProgress, ringLoop_end (by simp [h]), hend]
    exact hleaf.done moved _ (by rw [h])
  · rw [ringProgress, RingIter.leftValue, RingIter.rightValue, if_pos h, if_pos h]
    exact exec_ringLoop_fresh hleaf (by simp) h.le

theorem exec_ringProgress_posted (hleaf : RingLeaf vgroup iter sendCells recvCells cs K)
    (hk : k < iter.maxIdx) (moved : Bool) :
    (ringProgress vgroup sendCells recvCells ⟨{ iter with idx := k }, false, false⟩).Exec K moved
      (.wait :: (ringFrom vgroup iter sendCells recvCells (k + 1) ++ cs)) := by
  rw [ringProgress, RingIter.leftValue, RingIter.rightValue, if_pos hk, if_pos hk]
  exact exec_ringLoop_posted hleaf (by simp) hk

end Exec

end Kucg.Ucx
