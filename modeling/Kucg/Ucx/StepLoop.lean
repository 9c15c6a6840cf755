import Kucg.Ucx.P2p

/-! Loops that post the messages of a step, test whether they are over and go on to the next step.

    A step that has been interrupted in its test is not posted again: flags of the operation tell
    so. Between two calls such a loop waits in a step of which all has been posted
    (`StepLeaf.posted`). -/

namespace Kucg.Ucx

open Kucg.Core Kucg.Lib

variable {ι β O : Type}

section Functions

/-- Calls one after another, up to the first that fails. -/
def postAll : List (Prog ι β Status) → Prog ι β Status
  | [] => return .ok
  | post :: posts => do
    let status ← post
    if status.IsErr then return status
    postAll posts

variable (going : O → Bool) (post : O → Prog ι β (O × Status)) (next : O → O)

/-- The loop over the steps. The fuel bounds their number. -/
def stepLoop (fuel : ℕ) (op : O) : Prog ι β (O × Status) :=
  if going op then
    match fuel with
    | 0 => return (op, .inprogress)
    | fuel + 1 => do
      let (op, status) ← post op
      if status ≠ .ok then return (op, status)
      let status ← p2pTestall
      if status ≠ .ok then return (op, status)
      stepLoop fuel (next op)
  else return (op, .ok)

/-- The commands of a step from what it posts. -/
def stepFrom (posts : ℕ → Sched ι β) (K k : ℕ) : Sched ι β :=
  (List.range' k (K - k)).flatMap fun k => posts k ++ [.wait]

/-- The states of an operation in the steps of a loop, before the posts and behind them. -/
structure Steps (posts : ℕ → Sched ι β) (K : ℕ) (fresh posted : ℕ → O) : Prop where
  goingFresh : ∀ k ≤ K, going (fresh k) = decide (k < K)
  goingPosted : ∀ k < K, going (posted k) = true
  postFresh : ∀ k < K, ∀ (leaf : Bool → O × Status → Sched ι β → Prop) moved cs,
    leaf true (posted k, .ok) cs → (post (fresh k)).Exec leaf moved (posts k ++ cs)
  postPosted : ∀ k < K, post (posted k) = pure (posted k, .ok)
  next : ∀ k < K, next (posted k) = fresh (k + 1)

/-- Where a call leaves off: behind the last step, with `cs` left to do, or waiting in a step. -/
structure StepLeaf (posts : ℕ → Sched ι β) (K : ℕ) (fresh posted : ℕ → O) (cs : Sched ι β)
    (leaf : Bool → O × Status → Sched ι β → Prop) : Prop where
  done : ∀ moved, leaf moved (fresh K, .ok) cs
  posted : ∀ k < K, leaf true (posted k, .inprogress) (.wait :: (stepFrom posts K (k + 1) ++ cs))

end Functions

section Exec

/-- Posts that all succeed. -/
theorem exec_postAll {κ : Type} {post : κ → Prog ι β Status} {cmds : κ → Sched ι β}
    {leaf : Bool → Status → Sched ι β → Prop} {cs : Sched ι β}
    (hpost : ∀ k, ∀ (leaf : Bool → Status → Sched ι β → Prop) moved cs, leaf true .ok cs →
      (post k).Exec leaf moved (cmds k ++ cs)) (hleaf : ∀ moved, leaf moved .ok cs) :
    ∀ {ks : List κ} {moved : Bool},
      (postAll (ks.map post)).Exec leaf moved (ks.flatMap cmds ++ cs)
  | [], moved => hleaf moved
  | k :: ks, moved => by
    rw [List.map_cons, postAll, exec_bind, List.flatMap_cons, List.append_assoc]
    refine hpost k _ _ _ ?_
    rw [if_neg (by decide)]
    exact exec_postAll hpost hleaf

variable {going : O → Bool} {post : O → Prog ι β (O × Status)} {next : O → O}
  {posts : ℕ → Sched ι β} {K : ℕ} {fresh posted : ℕ → O} {cs : Sched ι β}
  {leaf : Bool → O × Status → Sched ι β → Prop}

theorem stepFrom_succ {k : ℕ} (hk : k < K) :
    stepFrom posts K k = posts k ++ .wait :: stepFrom posts K (k + 1) := by
  obtain ⟨d, hd⟩ : ∃ d, K - k = d + 1 := ⟨K - k - 1, by omega⟩
  rw [stepFrom, hd, List.range'_succ, List.flatMap_cons, stepFrom, show K - (k + 1) = d by omega,
    List.append_assoc, List.singleton_append]

theorem stepFrom_end : stepFrom posts K K = [] := by
  rw [stepFrom, Nat.sub_self]
  rfl

theorem stepLoop_end {fuel : ℕ} {op : O} (h : going op = false) :
    stepLoop going post next fuel op = pure (op, .ok) := by
  rw [stepLoop.eq_def, if_neg (by simp [h])]

/-- The loop from the start of a step on. -/
theorem exec_stepLoop_fresh (h : Steps going post next posts K fresh posted)
    (hleaf : StepLeaf posts K fresh posted cs leaf) :
    ∀ {fuel k : ℕ} {moved : Bool}, K ≤ k + fuel → k ≤ K →
      (stepLoop going post next fuel (fresh k)).Exec leaf moved (stepFrom posts K k ++ cs)
  | fuel, k, moved, hfuel, hk => by
    rcases hk.lt_or_eq with hlt | rfl
    · obtain ⟨fuel, rfl⟩ : ∃ f, fuel = f + 1 := ⟨fuel - 1, by omega⟩
      rw [stepLoop, if_pos (by simp [h.goingFresh k hk, hlt]), stepFrom_succ hlt,
        List.append_assoc, exec_bind]
      refine h.postFresh k hlt _ _ _ ?_
      simp only [ne_eq, not_true_eq_false, if_false]
      rw [exec_bind, List.cons_append]
      refine exec_testall_wait (hleaf.posted k hlt) ?_
      simp only [not_true_eq_false, if_false]
      rw [h.next k hlt]
      exact exec_stepLoop_fresh h hleaf (by omega) hlt
    · rw [stepFrom_end, List.nil_append, stepLoop_end (by simp [h.goingFresh k le_rfl])]
      exact hleaf.done moved

/-- The loop in a step that waits. -/
theorem exec_stepLoop_posted (h : Steps going post next posts K fresh posted)
    (hleaf : StepLeaf posts K fresh posted cs leaf) {fuel k : ℕ} {moved : Bool}
    (hfuel : K ≤ k + fuel) (hk : k < K) :
    (stepLoop going post next fuel (posted k)).Exec leaf moved
      (.wait :: (stepFrom posts K (k + 1) ++ cs)) := by
  obtain ⟨fuel, rfl⟩ : ∃ f, fuel = f + 1 := ⟨fuel - 1, by omega⟩
  rw [stepLoop, if_pos (h.goingPosted k hk), exec_bind, h.postPosted k hk, exec_pure]
  simp only [ne_eq, not_true_eq_false, if_false]
  rw [exec_bind]
  refine exec_testall_wait (hleaf.posted k hk) ?_
  simp only [not_true_eq_false, if_false]
  rw [h.next k hk]
  exact exec_stepLoop_fresh h hleaf (by omega) hk

end Exec

end Kucg.Ucx
