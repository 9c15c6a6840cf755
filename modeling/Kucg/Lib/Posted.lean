import Kucg.Lib.Adequacy
import Kucg.Lib.SchedNet

/-! What a rank has posted in a run by which it has finished is its trace: the same peers, in the
    same order. -/

namespace Kucg.Lib

variable {ι β σ : Type}

/-- The side of the message that a command posts. -/
def Cmd.side : Cmd ι β → Option Side
  | .send d _ => some (.send d)
  | .recv _ s _ => some (.recv s)
  | _ => none

variable [DecidableEq ι]

/-- The sides of the messages that rank `r` posts in a sequence of actions. -/
def Net.posted (n : ℕ) (proc : ℕ → Proc ι β σ) (r : ℕ) (N : Net ι β σ) (acts : List Act) :
    List Side :=
  (Net.posts n proc r N acts).filterMap Cmd.side

omit [DecidableEq ι] in
theorem sides_eq (N : Net ι β σ) (a : Act) (r : ℕ) :
    N.sides a r = (N.postOf r a).filterMap Cmd.side := by
  cases a with
  | exec q =>
    rw [Net.sides, Net.postOf]
    by_cases hq : q = r
    · subst hq
      rw [if_pos rfl, if_pos rfl]
      rcases (N.node q).ctl with _ | p | st | st
      · rfl
      · cases p <;> rfl
      · rfl
      · rfl
    · rw [if_neg (Ne.symm hq), if_neg hq]
      rfl
  | start | resume | deliver | sent => rfl

namespace Spec

variable {S : Spec ι β σ}

/-- A run takes what it posts from the traces. -/
theorem Ok.run_posted (hS : ∀ r < S.size, (S.proc r).Follows (S.inv r) (S.post r) (S.ghost r))
    (r : ℕ) : ∀ {acts : List Act} {N N' : Net ι β σ} {gs : ℕ → Ghost ι β}
      {ps : ℕ → List (Promise ι β)} {gc : ℕ → ℕ → List (List β × Set ℕ)}, S.Ok N gs ps gc →
      N.run S.size S.proc acts = some N' → ∃ gs' ps' gc', S.Ok N' gs' ps' gc' ∧
        (gs r).todo.map Event.side =
          Net.posted S.size S.proc r N acts ++ (gs' r).todo.map Event.side
  | [], _, _, _, _, _, h, hrun => by
    cases hrun
    exact ⟨_, _, _, h, rfl⟩
  | a :: acts, N, N', _, _, _, h, hrun => by
    obtain ⟨N₁, hstep, hrun⟩ := Option.bind_eq_some_iff.mp hrun
    obtain ⟨gs₁, _, _, h₁, hsides⟩ := h.step hS hstep
    obtain ⟨gs', ps', gc', h', hposted⟩ := h₁.run_posted hS r hrun
    have hcons : Net.posted S.size S.proc r N (a :: acts) =
        N.sides a r ++ Net.posted S.size S.proc r N₁ acts := by
      rw [sides_eq, Net.posted, Net.posts, hstep, List.filterMap_append]
      rfl
    exact ⟨gs', ps', gc', h', by rw [hsides r, hposted, hcons, List.append_assoc]⟩

end Spec

/-- Ranks that follow matched traces: a rank that has finished has posted the messages of its
    trace. -/
theorem finished_posted {n : ℕ} {proc : ℕ → Proc ι β σ} {mem : ℕ → ι → β}
    {trace : ℕ → List (Event β)} {post : ℕ → σ → (ι → β) → Set ℕ → Prop}
    (hmatch : Matched trace)
    (hmeets : ∀ r < n, (proc r).Meets (post r) ⟨mem r, [], trace r, {r}⟩) {acts : List Act}
    {N : Net ι β σ} (hrun : (Net.init mem).run n proc acts = some N) {r : ℕ} {st : σ}
    (hfin : N.FinishedIn r st) :
    Net.posted n proc r (Net.init mem) acts = (trace r).map Event.side := by
  choose! inv hinv using hmeets
  let S : Spec ι β σ := ⟨n, proc, mem, trace, inv, post⟩
  obtain ⟨gs, ps, gc, h, hposted⟩ := (Spec.ok_init (S := S) hmatch).run_posted hinv r hrun
  have hctl := h.ctl r
  rw [show (N.node r).ctl = .finished st from hfin] at hctl
  rw [hctl.2.1, List.map_nil, List.append_nil] at hposted
  exact hposted.symm

end Kucg.Lib
