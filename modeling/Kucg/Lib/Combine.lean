import Kucg.Lib.Adequacy
import Kucg.Lib.Gather

/-! Collectives that combine data: ranks that execute schedules made of rounds.

    That all ranks come to their end follows from the schedules, of which only the number of
    messages matters. What they have in memory then follows from traces: each schedule, on its own,
    follows the trace of its rank, and the traces are matched. -/

namespace Kucg.Lib

variable {ι β σ : Type} [DecidableEq ι]

/-- The trace has been followed to its end, and `Q` holds of the memory. -/
def Ended (Q : (ι → β) → Prop) (g : Ghost ι β) : Prop := g.todo = [] ∧ g.pend = [] ∧ Q g.mem

omit [DecidableEq ι] in
theorem stable_ended (Q : (ι → β) → Prop) : Stable (Ended Q) := by
  rintro g g' hle ⟨htodo, hpend, hQ⟩
  exact ⟨hle.todo.trans htodo, List.eq_nil_iff_forall_not_mem.mpr fun p hp =>
    absurd (hpend ▸ hle.pend p hp) List.not_mem_nil, hle.mem ▸ hQ⟩

/-- A procedure that executes a schedule follows the trace that the schedule follows. -/
theorem Proc.Runs.meets {pr : Proc ι β σ} {Rel : σ → Sched ι β → Prop} {cs₀ : Sched ι β}
    {Q : (ι → β) → Prop} {g₀ : Ghost ι β} (h : pr.Runs Rel cs₀) (hwp : Sched.wp (Ended Q) cs₀ g₀) :
    pr.Meets (fun st m _ => Rel st [] ∧ Q m) g₀ := by
  -- between calls, what is left of the schedule follows what is left of the trace
  have hpost (st : σ) (g : Ghost ι β) (hleaf : ∃ moved cs, pr.Leaf Rel moved st cs ∧
      Sched.wp (Ended Q) cs g) :
      pr.post (fun st g => ∃ cs, Rel st cs ∧ Sched.wp (Ended Q) cs g)
        (fun st m _ => Rel st [] ∧ Q m) st g := by
    obtain ⟨moved, cs, ⟨hrel, hends⟩, hwp⟩ := hleaf
    refine ⟨⟨cs, hrel, hwp⟩, fun hact => ?_⟩
    rcases hends with ⟨hact', -⟩ | ⟨-, rfl⟩
    · rw [hact] at hact'
      exact absurd hact' Bool.false_ne_true
    · exact ⟨hwp.1, hwp.2.1, hrel, hwp.2.2⟩
  refine ⟨fun st g => ∃ cs, Rel st cs ∧ Sched.wp (Ended Q) cs g,
    (h.trigger.wp (stable_ended Q) hwp).imp hpost, ?_⟩
  rintro st g ⟨cs, hrel, hwp⟩
  exact ((h.progress st cs hrel).wp (stable_ended Q) hwp).imp hpost

/-- Rounds in which as much is sent as is received, and traces that the ranks follow in them, from
    memory `m₀ r` to memory that meets `Q r`. -/
structure Combining (n : ℕ) (m₀ : ℕ → ι → β) (rounds : List (ℕ → Sched ι β))
    (trace : ℕ → List (Event β)) (Q : ℕ → (ι → β) → Prop) : Prop where
  peers : ∀ R ∈ rounds, ∀ r < n, ∀ c ∈ R r, c.PeerLt n
  counts : ∀ R ∈ rounds, ∀ s < n, ∀ r < n,
    ((R s).sendsTo r).length = ((R r).recvsFrom s).length
  batch : ∀ R ∈ rounds, ∀ r < n, (R r).Batch
  matched : Matched trace
  follows : ∀ r < n, Sched.wp (Ended (Q r)) (rounds.flatMap fun R => R r)
    ⟨m₀ r, [], trace r, {r}⟩

/-! ### What a rank executes -/

/-- The first command of a program, unless it is a test. -/
def Prog.first : Prog ι β σ → Option (Cmd ι β)
  | .isend d src _ => some (.send d src)
  | .irecv h s dst _ => some (.recv h s dst)
  | .zip f src dst _ => some (.zip f src dst)
  | _ => none

/-- The cells that a command names. -/
def Cmd.cells : Cmd ι β → List ι
  | .send _ src => src
  | .recv _ _ dst => dst
  | .zip _ src dst => src ++ dst
  | _ => []

omit [DecidableEq ι] in
theorem mem_of_mem_skip {c : Cmd ι β} : ∀ {cs : Sched ι β}, c ∈ cs.skip → c ∈ cs
  | [], h => h
  | .pause :: _, h => List.mem_cons_of_mem _ (mem_of_mem_skip h)
  | .send .. :: _, h | .recv .. :: _, h | .zip .. :: _, h | .wait :: _, h => h

omit [DecidableEq ι] in
/-- A program that executes a schedule begins with one of its commands. -/
theorem Prog.Exec.first_mem {p : Prog ι β σ} {K : Bool → σ → Sched ι β → Prop} {moved : Bool}
    {cs : Sched ι β} {c : Cmd ι β} (h : p.Exec K moved cs) (hc : p.first = some c) : c ∈ cs := by
  cases p with
  | isend | irecv | zip =>
    obtain ⟨cs', hcs, -⟩ := h
    cases hc
    exact mem_of_mem_skip (hcs ▸ List.mem_cons_self ..)
  | pure | testall | test => cases hc

/-- A rank has no commands but those that it had at the start. -/
theorem SNet.Steps.cmds_subset {n : ℕ} {M M' : SNet ι β} (hsteps : SNet.Steps n M M') (r : ℕ) :
    cmds (M'.node r).todo ⊆ cmds (M.node r).todo := by
  induction hsteps with
  | refl => exact List.Subset.refl _
  | @tail M₁ M₂ _ hstep ih =>
    refine List.Subset.trans (hstep.forall_node
      (P := fun r nd => cmds nd.todo ⊆ cmds (M₁.node r).todo) (fun r => List.Subset.refl _)
      (fun q _ nd htodo _ => ?_) r) ih
    rcases htodo with htodo | ⟨c, htodo, -⟩
    · rw [htodo]
      exact List.Subset.refl _
    · rw [htodo]
      exact List.subset_cons_self ..

namespace Combining

variable {n : ℕ} {m₀ : ℕ → ι → β} {rounds : List (ℕ → Sched ι β)} {trace : ℕ → List (Event β)}
  {Q : ℕ → (ι → β) → Prop} {proc : ℕ → Proc ι β σ} {Rel : ℕ → σ → Sched ι β → Prop}
  {acts : List Act} {N : Net ι β σ} (h : Combining n m₀ rounds trace Q)
  (hruns : ∀ r < n, (proc r).Runs (Rel r) (rounds.flatMap fun R => R r))
  (hrun : (Net.init m₀).run n proc acts = some N)

include h hruns hrun

/-- A rank that has finished is done with its schedule, and its memory is as it is to be. -/
theorem finished {r : ℕ} {st : σ} (hfin : N.FinishedIn r st) :
    Rel r st [] ∧ Q r (N.node r).mem := by
  have hmeets (r) (hr : r < n) := (hruns r hr).meets (h.follows r hr)
  exact (finished_ok h.matched hmeets hrun hfin).choose_spec.1

/-- The run goes on to a state in which all ranks have finished. -/
theorem live : ∃ acts' N', N.run n proc acts' = some N' ∧ ∀ r < n, ∃ st, N'.FinishedIn r st := by
  have hruns' (r) (hr : r < n) : (proc r).Runs (Rel r) (Gathering.sched n rounds r) := by
    rw [Gathering.sched, if_pos hr]
    exact hruns r hr
  obtain ⟨M, hsteps, hsim, -⟩ := Gathering.sim hruns' hrun
  exact live_of_sim hruns' _ hsim
    ((Gathering.ordered_rounds h.peers h.counts h.batch).steps hsteps) rfl

omit h in
/-- A rank that has finished has posted the messages of its schedule, in their order. -/
theorem posts {r : ℕ} (hr : r < n) {st : σ} (hfin : N.FinishedIn r st) :
    Net.posts n proc r (Net.init m₀) acts = Sched.posts (rounds.flatMap fun R => R r) := by
  have hruns' (r) (hr : r < n) : (proc r).Runs (Rel r) (Gathering.sched n rounds r) := by
    rw [Gathering.sched, if_pos hr]
    exact hruns r hr
  obtain ⟨M, -, hsim, hposts⟩ := Gathering.sim hruns' hrun
  have hctl := hsim.ctl r
  rw [hfin] at hctl
  have hall := hposts r
  rw [hctl.2.1, Gathering.sched, if_pos hr] at hall
  rw [hall]
  exact (List.append_nil _).symm

omit h in
/-- Every command that a rank executes is one of its schedule. -/
theorem executes {r : ℕ} {p : Prog ι β σ} {c : Cmd ι β} (hp : (N.node r).ctl = .running p)
    (hc : p.first = some c) : c ∈ rounds.flatMap fun R => R r := by
  have hruns' (r) (hr : r < n) : (proc r).Runs (Rel r) (Gathering.sched n rounds r) := by
    rw [Gathering.sched, if_pos hr]
    exact hruns r hr
  obtain ⟨M, hsteps, hsim, -⟩ := Gathering.sim hruns' hrun
  have hr : r < n := hsim.bound r (by rw [Net.Started, hp]; simp)
  have hctl := hsim.ctl r
  rw [hp] at hctl
  obtain ⟨moved, hexec⟩ := hctl
  have hmem := hsteps.cmds_subset r (hexec.first_mem hc)
  change c ∈ cmds (if r < n then stamped r 0 rounds else []) at hmem
  rwa [if_pos hr, cmds_stamped] at hmem

end Combining

end Kucg.Lib
