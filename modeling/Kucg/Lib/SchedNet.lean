import Kucg.Lib.Network
import Kucg.Lib.Sched
import Mathlib.Tactic

/-! A network of ranks that execute schedules, and its refinement by a network of programs.

    In the abstract network a rank is its memory, what it has in flight, and the commands that it
    has left. A command carries the number of the round that it belongs to, and so do the messages
    and receives that come from it. Ranks whose programs execute schedules refine this network: each
    of their actions is a few steps of it (`Net.Sim.step`), so every run of the programs is a run of
    the schedules (`Net.Sim.run`), and what the programs post in it is what the schedules have lost
    (`Net.posts`). -/

namespace Kucg.Lib

variable {ι β σ : Type}

/-- A rank that executes a schedule. -/
structure SNode (ι β : Type) where
  mem : ι → β
  recvs : List (Recv ι × ℕ)
  sends : ℕ
  todo : List (Cmd ι β × ℕ)

/-- All ranks, and the messages in flight. -/
structure SNet (ι β : Type) where
  node : ℕ → SNode ι β
  chan : ℕ → ℕ → List (List β × ℕ)

namespace SNet

/-- Replace a rank. -/
def setNode (M : SNet ι β) (r : ℕ) (nd : SNode ι β) : SNet ι β :=
  { M with node := Function.update M.node r nd }

/-- Replace the messages of a channel. -/
def setChan (M : SNet ι β) (s r : ℕ) (msgs : List (List β × ℕ)) : SNet ι β :=
  { M with chan := fun s' r' => if s' = s ∧ r' = r then msgs else M.chan s' r' }

/-- Before any rank has started. -/
def init (m₀ : ℕ → ι → β) (todo : ℕ → List (Cmd ι β × ℕ)) : SNet ι β :=
  ⟨fun r => ⟨m₀ r, [], 0, todo r⟩, fun _ _ => []⟩

@[simp] theorem node_setNode (M : SNet ι β) (r : ℕ) (nd : SNode ι β) :
    (M.setNode r nd).node r = nd := Function.update_self ..

@[simp] theorem node_setNode_of_ne {M : SNet ι β} {q r : ℕ} {nd : SNode ι β} (h : q ≠ r) :
    (M.setNode r nd).node q = M.node q := Function.update_of_ne h ..

variable [DecidableEq ι]

/-- One step of a network of `n` ranks. -/
inductive Step (n : ℕ) (M : SNet ι β) : SNet ι β → Prop
  | pause {r t : ℕ} {l : List (Cmd ι β × ℕ)} (hr : r < n)
      (htodo : (M.node r).todo = (.pause, t) :: l) :
      Step n M (M.setNode r { M.node r with todo := l })
  | wait {r t : ℕ} {l : List (Cmd ι β × ℕ)} (hr : r < n)
      (htodo : (M.node r).todo = (.wait, t) :: l) (hrecvs : (M.node r).recvs = [])
      (hsends : (M.node r).sends = 0) : Step n M (M.setNode r { M.node r with todo := l })
  | send {r d t : ℕ} {src : List ι} {l : List (Cmd ι β × ℕ)} (hr : r < n)
      (htodo : (M.node r).todo = (.send d src, t) :: l) :
      Step n M ((M.setNode r
        { M.node r with sends := (M.node r).sends + 1, todo := l }).setChan r d
          (M.chan r d ++ [(src.map (M.node r).mem, t)]))
  | recv {r h s t : ℕ} {dst : List ι} {l : List (Cmd ι β × ℕ)} (hr : r < n)
      (htodo : (M.node r).todo = (.recv h s dst, t) :: l) :
      Step n M (M.setNode r
        { M.node r with recvs := (M.node r).recvs ++ [(⟨h, s, dst⟩, t)], todo := l })
  | zip {r t : ℕ} {f : β → β → β} {src dst : List ι} {l : List (Cmd ι β × ℕ)} (hr : r < n)
      (htodo : (M.node r).todo = (.zip f src dst, t) :: l) :
      Step n M (M.setNode r
        { M.node r with mem := zipCells f src dst (M.node r).mem, todo := l })
  | deliver {s r t : ℕ} {vals : List β} {msgs : List (List β × ℕ)} {l₁ l₂ : List (Recv ι × ℕ)}
      {p : Recv ι × ℕ} (hr : r < n) (hchan : M.chan s r = (vals, t) :: msgs)
      (hrecvs : (M.node r).recvs = l₁ ++ p :: l₂) (hsrc : p.1.src = s)
      (hfirst : ∀ q ∈ l₁, q.1.src ≠ s) :
      Step n M ((M.setNode r { M.node r with
        mem := writeCells p.1.dst vals (M.node r).mem, recvs := l₁ ++ l₂ }).setChan s r msgs)
  | sent {r k : ℕ} (hr : r < n) (hsends : (M.node r).sends = k + 1) :
      Step n M (M.setNode r { M.node r with sends := k })

/-- Some steps. -/
abbrev Steps (n : ℕ) : SNet ι β → SNet ι β → Prop := Relation.ReflTransGen (Step n)

/-- What is left to do, and what is in flight, below `n`. -/
def weight (n : ℕ) (M : SNet ι β) : ℕ :=
  ∑ r ∈ Finset.range n,
    (2 * (M.node r).todo.length + (M.node r).recvs.length + (M.node r).sends)

omit [DecidableEq ι] in
theorem weight_setNode_lt {n r : ℕ} {M : SNet ι β} {nd : SNode ι β} (hr : r < n)
    (hlt : 2 * nd.todo.length + nd.recvs.length + nd.sends <
      2 * (M.node r).todo.length + (M.node r).recvs.length + (M.node r).sends) :
    (M.setNode r nd).weight n < M.weight n := by
  refine Finset.sum_lt_sum (fun q _ => ?_) ⟨r, Finset.mem_range.mpr hr, ?_⟩
  · rcases eq_or_ne q r with rfl | hqr
    · simpa [setNode] using hlt.le
    · simp [setNode, hqr]
  · simpa [setNode] using hlt

/-- Every step leaves less. -/
theorem Step.weight_lt {n : ℕ} {M M' : SNet ι β} (h : Step n M M') : M'.weight n < M.weight n := by
  cases h with
  | pause hr htodo =>
      exact weight_setNode_lt hr (by rw [htodo, List.length_cons]; dsimp only; omega)
  | wait hr htodo => exact weight_setNode_lt hr (by rw [htodo, List.length_cons]; dsimp only; omega)
  | send hr htodo =>
    exact weight_setNode_lt hr (by rw [htodo, List.length_cons]; dsimp only; omega)
  | recv hr htodo =>
    refine weight_setNode_lt hr ?_
    rw [htodo, List.length_cons]
    dsimp only
    rw [List.length_append, List.length_singleton]
    omega
  | zip hr htodo => exact weight_setNode_lt hr (by rw [htodo, List.length_cons]; dsimp only; omega)
  | deliver hr hchan hrecvs =>
    refine weight_setNode_lt hr ?_
    rw [hrecvs]
    simp only [List.length_append, List.length_cons]
    omega
  | sent hr hsends => exact weight_setNode_lt hr (by rw [hsends]; dsimp only; omega)

theorem Steps.weight_le {n : ℕ} {M M' : SNet ι β} (h : Steps n M M') :
    M'.weight n ≤ M.weight n := by
  induction h with
  | refl => exact le_rfl
  | tail _ hstep ih => exact hstep.weight_lt.le.trans ih

end SNet

/-! ### What programs post -/

/-- A command that sends or receives a message. -/
def Cmd.isPost : Cmd ι β → Bool
  | .send .. | .recv .. => true
  | _ => false

/-- The messages of a schedule. -/
def Sched.posts (cs : Sched ι β) : Sched ι β := cs.filter Cmd.isPost

@[simp] theorem posts_skip : ∀ {l : Sched ι β}, Sched.posts l.skip = l.posts
  | [] => rfl
  | .pause :: cs => posts_skip (l := cs)
  | .send .. :: _ | .recv .. :: _ | .zip .. :: _ | .wait :: _ => rfl

namespace Net

variable [DecidableEq ι]

/-- What rank `r` posts in an action. -/
def postOf (N : Net ι β σ) (r : ℕ) : Act → Sched ι β
  | .exec q => if q = r then
      match (N.node q).ctl with
      | .running (.isend d src _) => [.send d src]
      | .running (.irecv h s dst _) => [.recv h s dst]
      | _ => []
    else []
  | _ => []

/-- What rank `r` posts in a sequence of actions. -/
def posts (n : ℕ) (proc : ℕ → Proc ι β σ) (r : ℕ) : Net ι β σ → List Act → Sched ι β
  | _, [] => []
  | N, a :: acts => N.postOf r a ++
    match N.step n proc a with
    | some N' => posts n proc r N' acts
    | none => []

end Net

/-! ### The refinement -/

/-- The control of a rank is where `cs` is left. -/
def Proc.At (pr : Proc ι β σ) (Rel : σ → Sched ι β → Prop) (cs₀ : Sched ι β) :
    Ctl ι β σ → Sched ι β → Prop
  | .idle, cs => cs = cs₀
  | .running p, cs => ∃ moved, p.Exec (pr.Leaf Rel) moved cs
  | .waiting st, cs => Rel st cs ∧ cs.AtStop
  | .finished st, cs => Rel st [] ∧ cs = [] ∧ pr.active st = false

/-- The commands of a schedule with rounds. -/
abbrev cmds (l : List (Cmd ι β × ℕ)) : Sched ι β := l.map Prod.fst

/-- The programs are where the schedules are. -/
structure Net.Sim (n : ℕ) (proc : ℕ → Proc ι β σ) (Rel : ℕ → σ → Sched ι β → Prop)
    (cs₀ : ℕ → Sched ι β) (N : Net ι β σ) (M : SNet ι β) : Prop where
  bound : ∀ r, N.Started r → r < n
  fresh : ∀ r, ¬N.Started r → (N.node r).recvs = [] ∧ (N.node r).sends = 0
  mem : ∀ r, (M.node r).mem = (N.node r).mem
  recvs : ∀ r, (M.node r).recvs.map Prod.fst = (N.node r).recvs
  sends : ∀ r, (M.node r).sends = (N.node r).sends
  chan : ∀ s r, (M.chan s r).map Prod.fst = N.chan s r
  ctl : ∀ r, (proc r).At (Rel r) (cs₀ r) (N.node r).ctl (cmds (M.node r).todo)

theorem takeFrom_eq_some {s : ℕ} {q : Recv ι} {qs : List (Recv ι)} :
    ∀ {ps : List (Recv ι)}, takeFrom s ps = some (q, qs) → ∃ l₁ l₂, ps = l₁ ++ q :: l₂ ∧
      qs = l₁ ++ l₂ ∧ q.src = s ∧ ∀ p ∈ l₁, p.src ≠ s
  | [], h => absurd h (by simp [takeFrom])
  | p :: ps, h => by
    rw [takeFrom] at h
    split at h
    · next hsrc =>
      obtain ⟨rfl, rfl⟩ := Prod.mk.inj (Option.some.inj h)
      exact ⟨[], ps, rfl, rfl, hsrc, fun p hp => absurd hp List.not_mem_nil⟩
    · next hsrc =>
      obtain ⟨⟨q', qs'⟩, htake, heq⟩ := Option.map_eq_some_iff.mp h
      obtain ⟨rfl, rfl⟩ := Prod.mk.inj heq
      obtain ⟨l₁, l₂, rfl, rfl, hs, hfirst⟩ := takeFrom_eq_some htake
      exact ⟨p :: l₁, l₂, rfl, rfl, hs, List.forall_mem_cons.mpr ⟨hsrc, hfirst⟩⟩

theorem takeFrom_isSome {s : ℕ} : ∀ {ps : List (Recv ι)}, (∃ p ∈ ps, p.src = s) →
    ∃ q qs, takeFrom s ps = some (q, qs)
  | [], ⟨_, hp, _⟩ => absurd hp List.not_mem_nil
  | p :: ps, h => by
    rw [takeFrom]
    split_ifs with hsrc
    · exact ⟨_, _, rfl⟩
    · obtain ⟨p', hp', hs⟩ := h
      have hp' : p' ∈ ps := (List.mem_cons.mp hp').resolve_left fun heq => hsrc (heq ▸ hs)
      obtain ⟨q, qs, htake⟩ := takeFrom_isSome ⟨p', hp', hs⟩
      exact ⟨_, _, by rw [htake]; rfl⟩

namespace Net.Sim

variable [DecidableEq ι] {n : ℕ} {proc : ℕ → Proc ι β σ} {Rel : ℕ → σ → Sched ι β → Prop}
  {cs₀ : ℕ → Sched ι β} {N N' : Net ι β σ} {M : SNet ι β}

omit [DecidableEq ι] in
theorem init {m₀ : ℕ → ι → β} {todo : ℕ → List (Cmd ι β × ℕ)} (htodo : ∀ r, cmds (todo r) = cs₀ r) :
    Net.Sim n proc Rel cs₀ (Net.init m₀) (SNet.init m₀ todo) :=
  ⟨fun _ h => absurd rfl h, fun _ _ => ⟨rfl, rfl⟩, fun _ => rfl, fun _ => rfl, fun _ => rfl,
    fun _ _ => rfl, htodo⟩

omit [DecidableEq ι] in
/-- A started rank changes, in both networks. -/
theorem update (h : Net.Sim n proc Rel cs₀ N M) {r : ℕ} (hr : r < n) {nd : Node ι β σ}
    {snd : SNode ι β} {chan : ℕ → ℕ → List (List β)} {schan : ℕ → ℕ → List (List β × ℕ)}
    (hstart : nd.ctl ≠ .idle) (hmem : snd.mem = nd.mem) (hrecvs : snd.recvs.map Prod.fst = nd.recvs)
    (hsends : snd.sends = nd.sends) (hchan : ∀ s r, (schan s r).map Prod.fst = chan s r)
    (hctl : (proc r).At (Rel r) (cs₀ r) nd.ctl (cmds snd.todo)) :
    Net.Sim n proc Rel cs₀ ⟨Function.update N.node r nd, chan⟩
      ⟨Function.update M.node r snd, schan⟩ := by
  refine ⟨fun q hq => ?_, fun q hq => ?_, fun q => ?_, fun q => ?_, fun q => ?_, hchan,
    fun q => ?_⟩ <;> rcases eq_or_ne q r with rfl | hqr
  · exact hr
  · refine h.bound q ?_
    simpa only [Net.Started, Function.update_of_ne hqr] using hq
  · exact absurd (by simpa only [Net.Started, Function.update_self] using hstart) hq
  · simp only [Net.Started, Function.update_of_ne hqr] at hq ⊢
    exact h.fresh q hq
  all_goals dsimp only
  · rw [Function.update_self, Function.update_self, hmem]
  · rw [Function.update_of_ne hqr, Function.update_of_ne hqr, h.mem]
  · rw [Function.update_self, Function.update_self, hrecvs]
  · rw [Function.update_of_ne hqr, Function.update_of_ne hqr, h.recvs]
  · rw [Function.update_self, Function.update_self, hsends]
  · rw [Function.update_of_ne hqr, Function.update_of_ne hqr, h.sends]
  · rwa [Function.update_self, Function.update_self]
  · rw [Function.update_of_ne hqr, Function.update_of_ne hqr]
    exact h.ctl q

omit [DecidableEq ι] in
/-- The control of a rank changes, and its schedule stays. -/
theorem setCtl (h : Net.Sim n proc Rel cs₀ N M) {r : ℕ} (hr : r < n) {c : Ctl ι β σ}
    (hstart : c ≠ .idle) (hctl : (proc r).At (Rel r) (cs₀ r) c (cmds (M.node r).todo)) :
    Net.Sim n proc Rel cs₀ (N.setCtl r c) M := by
  have hupd : Net.Sim n proc Rel cs₀ (N.setCtl r c)
      ⟨Function.update M.node r (M.node r), M.chan⟩ :=
    h.update hr hstart (h.mem r) (h.recvs r) (h.sends r) h.chan hctl
  rwa [Function.update_eq_self] at hupd

omit [DecidableEq ι] in
theorem setCtl_running (h : Net.Sim n proc Rel cs₀ N M) {r : ℕ} (hr : r < n) {p : Prog ι β σ}
    {moved : Bool} (hexec : p.Exec ((proc r).Leaf (Rel r)) moved (cmds (M.node r).todo)) :
    Net.Sim n proc Rel cs₀ (N.setCtl r (.running p)) M := h.setCtl hr (by simp) ⟨moved, hexec⟩

/-- The abstract rank gets to its next command. -/
theorem steps_skip {c : Cmd ι β} {cs : Sched ι β} {r : ℕ} (hr : r < n) :
    ∀ {l : List (Cmd ι β × ℕ)} {M : SNet ι β}, (M.node r).todo = l → (cmds l).skip = c :: cs →
      ∃ t l', cmds l' = cs ∧
        SNet.Steps n M (M.setNode r { M.node r with todo := (c, t) :: l' })
  | [], _, _, hskip => absurd hskip (by simp)
  | (.pause, t) :: l, M, htodo, hskip => by
    have hskip' : (cmds l).skip = c :: cs := hskip
    obtain ⟨t', l', hl', hsteps⟩ := steps_skip hr (M := M.setNode r { M.node r with todo := l })
      (by simp [SNet.setNode]) hskip'
    refine ⟨t', l', hl', .head (.pause hr htodo) ?_⟩
    simpa [SNet.setNode] using hsteps
  | (.send d src, t) :: l, M, htodo, hskip | (.recv hd s dst, t) :: l, M, htodo, hskip
  | (.zip f src dst, t) :: l, M, htodo, hskip | (.wait, t) :: l, M, htodo, hskip => by
    obtain ⟨rfl, rfl⟩ := List.cons.inj hskip
    refine ⟨t, l, rfl, ?_⟩
    rw [← htodo, SNet.setNode, Function.update_eq_self]

/-- What a command of rank `r` does in the abstract network: its schedule is then at `cs`, those of
    the other ranks stay. -/
structure Moved (n : ℕ) (r : ℕ) (cs : Sched ι β) (M M' : SNet ι β) : Prop where
  steps : SNet.Steps n M M'
  less : M'.weight n < M.weight n
  here : cmds (M'.node r).todo = cs
  other : ∀ q, q ≠ r → (M'.node q).todo = (M.node q).todo

/-- Some steps to the next command of `r`, and then one that changes the rank and the channels. -/
theorem moved_of_step {r t : ℕ} {c : Cmd ι β} {l : List (Cmd ι β × ℕ)} {snd : SNode ι β}
    {schan : ℕ → ℕ → List (List β × ℕ)}
    (hsteps : SNet.Steps n M (M.setNode r { M.node r with todo := (c, t) :: l }))
    (hlast : SNet.Step n (M.setNode r { M.node r with todo := (c, t) :: l })
      ⟨Function.update M.node r snd, schan⟩) :
    Moved n r (cmds snd.todo) M ⟨Function.update M.node r snd, schan⟩ where
  steps := hsteps.tail hlast
  less := hlast.weight_lt.trans_le (SNet.Steps.weight_le hsteps)
  here := by simp only [Function.update_self]
  other q hq := by simp only [Function.update_of_ne hq]

section Exec

variable {r : ℕ} {cs : Sched ι β} (h : Net.Sim n proc Rel cs₀ N M) (hr : r < n)
include h hr

theorem exec_isend {d : ℕ} {src : List ι} {next : Prog ι β σ}
    (hskip : (cmds (M.node r).todo).skip = .send d src :: cs)
    (hnext : next.Exec ((proc r).Leaf (Rel r)) true cs) :
    ∃ M', Moved n r cs M M' ∧
      Net.Sim n proc Rel cs₀ (N.exec (proc r).active r (.isend d src next)) M' := by
  obtain ⟨t, l, rfl, hsteps⟩ := steps_skip hr rfl hskip
  have hlast := SNet.Step.send (M := M.setNode r { M.node r with todo := (.send d src, t) :: l })
    hr (congrArg SNode.todo (SNet.node_setNode ..))
  simp only [SNet.setNode, SNet.setChan, Function.update_self, Function.update_idem] at hlast
  refine ⟨_, moved_of_step hsteps hlast,
    h.update hr (by simp) (h.mem r) (h.recvs r) ?_ ?_ ⟨true, hnext⟩⟩
  · exact congrArg (· + 1) (h.sends r)
  · intro s r'
    split_ifs
    · rw [List.map_append, h.chan, List.map_singleton, h.mem]
    · exact h.chan s r'

theorem exec_irecv {hd s : ℕ} {dst : List ι} {next : Prog ι β σ}
    (hskip : (cmds (M.node r).todo).skip = .recv hd s dst :: cs)
    (hnext : next.Exec ((proc r).Leaf (Rel r)) true cs) :
    ∃ M', Moved n r cs M M' ∧
      Net.Sim n proc Rel cs₀ (N.exec (proc r).active r (.irecv hd s dst next)) M' := by
  obtain ⟨t, l, rfl, hsteps⟩ := steps_skip hr rfl hskip
  have hlast := SNet.Step.recv (M := M.setNode r { M.node r with todo := (.recv hd s dst, t) :: l })
    hr (congrArg SNode.todo (SNet.node_setNode ..))
  simp only [SNet.setNode, Function.update_self, Function.update_idem] at hlast
  refine ⟨_, moved_of_step hsteps hlast,
    h.update hr (by simp) (h.mem r) ?_ (h.sends r) h.chan ⟨true, hnext⟩⟩
  simp [h.recvs]

theorem exec_zip {f : β → β → β} {src dst : List ι} {next : Prog ι β σ}
    (hskip : (cmds (M.node r).todo).skip = .zip f src dst :: cs)
    (hnext : next.Exec ((proc r).Leaf (Rel r)) true cs) :
    ∃ M', Moved n r cs M M' ∧
      Net.Sim n proc Rel cs₀ (N.exec (proc r).active r (.zip f src dst next)) M' := by
  obtain ⟨t, l, rfl, hsteps⟩ := steps_skip hr rfl hskip
  have hlast := SNet.Step.zip (M := M.setNode r { M.node r with todo := (.zip f src dst, t) :: l })
    hr (congrArg SNode.todo (SNet.node_setNode ..))
  simp only [SNet.setNode, Function.update_self, Function.update_idem] at hlast
  refine ⟨_, moved_of_step hsteps hlast,
    h.update hr (by simp) ?_ (h.recvs r) (h.sends r) h.chan ⟨true, hnext⟩⟩
  dsimp only
  rw [h.mem]

/-- A test that succeeds where the schedule waits. -/
theorem exec_wait {next : Prog ι β σ} (hskip : (cmds (M.node r).todo).skip = .wait :: cs)
    (hrecvs : (N.node r).recvs = []) (hsends : (N.node r).sends = 0)
    (hnext : next.Exec ((proc r).Leaf (Rel r)) true cs) :
    ∃ M', Moved n r cs M M' ∧ Net.Sim n proc Rel cs₀ (N.setCtl r (.running next)) M' := by
  obtain ⟨t, l, rfl, hsteps⟩ := steps_skip hr rfl hskip
  have hnil : (M.node r).recvs = [] := by
    rw [← h.recvs] at hrecvs
    exact List.map_eq_nil_iff.mp hrecvs
  have hlast := SNet.Step.wait (M := M.setNode r { M.node r with todo := (.wait, t) :: l })
    hr (congrArg SNode.todo (SNet.node_setNode ..)) (by simpa [SNet.setNode] using hnil)
    (by simpa [SNet.setNode] using (h.sends r).trans hsends)
  simp only [SNet.setNode, Function.update_self, Function.update_idem] at hlast
  exact ⟨_, moved_of_step hsteps hlast,
    h.update hr (by simp) (h.mem r) (h.recvs r) (h.sends r) h.chan ⟨true, hnext⟩⟩

/-- The end of a call. -/
theorem exec_pure {st : σ} {moved : Bool}
    (hleaf : (proc r).Leaf (Rel r) moved st (cmds (M.node r).todo)) :
    Net.Sim n proc Rel cs₀ (N.exec (proc r).active r (.pure st)) M := by
  obtain ⟨hrel, ⟨hact, -, hstop⟩ | ⟨hact, hnil⟩⟩ := hleaf
  · rw [Net.exec, if_pos hact]
    exact h.setCtl hr (by simp) ⟨hrel, hstop⟩
  · rw [Net.exec, if_neg (by simp [hact])]
    exact h.setCtl hr (by simp) ⟨hnil ▸ hrel, hnil, hact⟩

end Exec

/-- One command more or less of rank `r` is what it posts. -/
theorem Moved.posts {r : ℕ} {c : Cmd ι β} {cs : Sched ι β} {M' : SNet ι β} (h : Moved n r cs M M')
    (hskip : (cmds (M.node r).todo).skip = c :: cs) (q : ℕ) : (cmds (M.node q).todo).posts =
      (if q = r then Sched.posts [c] else []) ++ (cmds (M'.node q).todo).posts := by
  split_ifs with hq
  · rw [hq, h.here, ← posts_skip, hskip, ← List.singleton_append, Sched.posts, List.filter_append]
    rfl
  · rw [h.other q hq, List.nil_append]

/-- A command of a program. -/
theorem exec (h : Net.Sim n proc Rel cs₀ N M) {r : ℕ} (hr : r < n) :
    ∀ {p : Prog ι β σ}, (N.node r).ctl = .running p → ∃ M', SNet.Steps n M M' ∧
      Net.Sim n proc Rel cs₀ (N.exec (proc r).active r p) M' ∧
      ∀ q, (cmds (M.node q).todo).posts =
        N.postOf q (.exec r) ++ (cmds (M'.node q).todo).posts := by
  have hskip {c : Cmd ι β} {cs : Sched ι β} {M' : SNet ι β} (hm : Moved n r cs M M')
      (hc : (cmds (M.node r).todo).skip = c :: cs) {N' : Net ι β σ}
      (hsim : Net.Sim n proc Rel cs₀ N' M')
      (hpost : ∀ q, N.postOf q (.exec r) = if q = r then Sched.posts [c] else []) :
      ∃ M', SNet.Steps n M M' ∧ Net.Sim n proc Rel cs₀ N' M' ∧
        ∀ q, (cmds (M.node q).todo).posts =
          N.postOf q (.exec r) ++ (cmds (M'.node q).todo).posts :=
    ⟨M', hm.steps, hsim, fun q => by rw [hpost, hm.posts hc]⟩
  have hstay {N' : Net ι β σ} (hsim : Net.Sim n proc Rel cs₀ N' M)
      (hpost : ∀ q, N.postOf q (.exec r) = []) :
      ∃ M', SNet.Steps n M M' ∧ Net.Sim n proc Rel cs₀ N' M' ∧
        ∀ q, (cmds (M.node q).todo).posts =
          N.postOf q (.exec r) ++ (cmds (M'.node q).todo).posts :=
    ⟨M, .refl, hsim, fun q => by rw [hpost, List.nil_append]⟩
  have hctl := h.ctl r
  rintro (st | ⟨d, src, next⟩ | ⟨hd, s, dst, next⟩ | ⟨f, src, dst, next⟩ | next |
    ⟨hd, next⟩) hrun <;>
    rw [hrun] at hctl <;> obtain ⟨moved, hexec⟩ := hctl
  · exact hstay (h.exec_pure hr hexec) fun q => by simp [Net.postOf, hrun]
  · obtain ⟨cs', hc, hnext⟩ := hexec
    obtain ⟨M', hm, hsim⟩ := h.exec_isend hr hc hnext
    refine hskip hm hc hsim fun q => ?_
    simp only [Net.postOf, hrun, eq_comm]
    rfl
  · obtain ⟨cs', hc, hnext⟩ := hexec
    obtain ⟨M', hm, hsim⟩ := h.exec_irecv hr hc hnext
    refine hskip hm hc hsim fun q => ?_
    simp only [Net.postOf, hrun, eq_comm]
    rfl
  · obtain ⟨cs', hc, hnext⟩ := hexec
    obtain ⟨M', hm, hsim⟩ := h.exec_zip hr hc hnext
    refine hskip hm hc hsim fun q => ?_
    simp only [Net.postOf, hrun, eq_comm]
    rfl
  · obtain ⟨hfalse, htrue⟩ := hexec
    have hpost (q) : N.postOf q (.exec r) = [] := by simp [Net.postOf, hrun]
    by_cases hover : ((N.node r).recvs.isEmpty && (N.node r).sends == 0) = true
    · rcases htrue with htrue | ⟨cs', hc, hnext⟩
      · rw [Net.exec, hover]
        exact hstay (h.setCtl hr (by simp) ⟨_, htrue⟩) hpost
      · have hover' := hover
        rw [Bool.and_eq_true, List.isEmpty_iff, beq_iff_eq] at hover'
        obtain ⟨M', hm, hsim⟩ := h.exec_wait hr hc hover'.1 hover'.2 hnext
        rw [Net.exec, hover]
        refine hskip hm hc hsim fun q => ?_
        rw [hpost]
        split_ifs <;> rfl
    · rw [Net.exec, Bool.eq_false_iff.mpr hover]
      exact hstay (h.setCtl hr (by simp) ⟨_, hfalse⟩) hpost
  · obtain ⟨hfalse, htrue⟩ := hexec
    refine hstay ?_ fun q => by simp [Net.postOf, hrun]
    rw [Net.exec]
    refine h.setCtl hr (by simp) ?_
    cases (N.node r).recvs.all (·.handle != hd) with
    | true => exact ⟨_, htrue⟩
    | false => exact ⟨_, hfalse⟩

/-- A message arrives in both networks. -/
theorem deliver (h : Net.Sim n proc Rel cs₀ N M) {s r : ℕ} {vals : List β} {msgs : List (List β)}
    {p : Recv ι} {recvs : List (Recv ι)} (hchan : N.chan s r = vals :: msgs)
    (htake : takeFrom s (N.node r).recvs = some (p, recvs)) :
    r < n ∧ ∃ M', SNet.Step n M M' ∧ (∀ q, (M'.node q).todo = (M.node q).todo) ∧
      Net.Sim n proc Rel cs₀ ((N.setNode r
        { N.node r with mem := writeCells p.dst vals (N.node r).mem, recvs := recvs }).setChan
          s r msgs) M' := by
  obtain ⟨l₁, l₂, hsplit, rfl, hsrc, hfirst⟩ := takeFrom_eq_some htake
  have hstart : N.Started r := by
    by_contra hidle
    rw [(h.fresh r hidle).1] at hsplit
    simp at hsplit
  have hr := h.bound r hstart
  obtain ⟨⟨vals', t⟩, msgs', hmsgs, rfl, rfl⟩ := List.map_eq_cons_iff.mp ((h.chan s r).trans hchan)
  obtain ⟨k₁, k₂', hk, rfl, hk₂⟩ := List.map_eq_append_iff.mp ((h.recvs r).trans hsplit)
  obtain ⟨p', k₂, rfl, rfl, rfl⟩ := List.map_eq_cons_iff.mp hk₂
  have hstep := SNet.Step.deliver hr hmsgs hk hsrc
    fun q hq => hfirst q.1 (List.mem_map_of_mem hq)
  refine ⟨hr, _, hstep, fun q => ?_, h.update hr hstart ?_ ?_ (h.sends r) ?_ (h.ctl r)⟩
  · rcases eq_or_ne q r with rfl | hq
    · simp [SNet.setNode, SNet.setChan]
    · simp [SNet.setNode, SNet.setChan, hq]
  · dsimp only
    rw [h.mem]
  · exact List.map_append ..
  · intro s' r'
    dsimp only [SNet.setNode, Net.setNode]
    split_ifs
    · rfl
    · exact h.chan s' r'

/-- A send completes in both networks. -/
theorem sent (h : Net.Sim n proc Rel cs₀ N M) {r k : ℕ} (hk : (N.node r).sends = k + 1) :
    r < n ∧ ∃ M', SNet.Step n M M' ∧ (∀ q, (M'.node q).todo = (M.node q).todo) ∧
      Net.Sim n proc Rel cs₀ (N.setNode r { N.node r with sends := k }) M' := by
  have hstart : N.Started r := by
    by_contra hidle
    rw [(h.fresh r hidle).2] at hk
    cases hk
  have hr := h.bound r hstart
  refine ⟨hr, _, .sent hr ((h.sends r).trans hk), fun q => ?_,
    h.update hr hstart (h.mem r) (h.recvs r) rfl h.chan (h.ctl r)⟩
  rcases eq_or_ne q r with rfl | hq
  · simp [SNet.setNode]
  · simp [SNet.setNode, hq]

/-- Every action of the programs is a few steps of their schedules. -/
theorem step (hruns : ∀ r < n, (proc r).Runs (Rel r) (cs₀ r)) (h : Net.Sim n proc Rel cs₀ N M) :
    ∀ {a : Act}, N.step n proc a = some N' → ∃ M', SNet.Steps n M M' ∧
      Net.Sim n proc Rel cs₀ N' M' ∧
      ∀ q, (cmds (M.node q).todo).posts = N.postOf q a ++ (cmds (M'.node q).todo).posts
  | .start r, hstep => by
    rw [Net.step] at hstep
    split at hstep
    · next hidle =>
      split at hstep
      · next hr =>
        cases hstep
        have hctl := h.ctl r
        rw [hidle] at hctl
        refine ⟨M, .refl, h.setCtl hr (by simp) ⟨true, ?_⟩, fun q => rfl⟩
        rw [show cmds (M.node r).todo = cs₀ r from hctl]
        exact (hruns r hr).trigger
      · cases hstep
    · cases hstep
  | .exec r, hstep => by
    rw [Net.step] at hstep
    split at hstep
    · next p hrun =>
      cases hstep
      exact h.exec (h.bound r (by rw [Net.Started, hrun]; simp)) hrun
    · cases hstep
  | .resume r, hstep => by
    rw [Net.step] at hstep
    split at hstep
    · next st hwait =>
      cases hstep
      have hr : r < n := h.bound r (by rw [Net.Started, hwait]; simp)
      have hctl := h.ctl r
      rw [hwait] at hctl
      exact ⟨M, .refl, h.setCtl hr (by simp) ⟨false, (hruns r hr).progress st _ hctl.1⟩, fun q =>
        rfl⟩
    · cases hstep
  | .deliver s r, hstep => by
    rw [Net.step] at hstep
    split at hstep
    · next vals msgs p recvs hchan htake =>
      cases hstep
      obtain ⟨-, M', hM, htodo, hsim⟩ := h.deliver hchan htake
      exact ⟨M', .single hM, hsim, fun q => by rw [htodo]; rfl⟩
    · cases hstep
  | .sent r, hstep => by
    rw [Net.step] at hstep
    split at hstep
    · next k hk =>
      cases hstep
      obtain ⟨-, M', hM, htodo, hsim⟩ := h.sent hk
      exact ⟨M', .single hM, hsim, fun q => by rw [htodo]; rfl⟩
    · cases hstep

/-- Every run of the programs is a run of their schedules, and what has been posted in it is gone
    from these. -/
theorem run (hruns : ∀ r < n, (proc r).Runs (Rel r) (cs₀ r)) :
    ∀ {acts : List Act} {N : Net ι β σ} {M : SNet ι β}, Net.Sim n proc Rel cs₀ N M →
      N.run n proc acts = some N' → ∃ M', SNet.Steps n M M' ∧ Net.Sim n proc Rel cs₀ N' M' ∧
        ∀ q, (cmds (M.node q).todo).posts =
          Net.posts n proc q N acts ++ (cmds (M'.node q).todo).posts
  | [], _, M, h, hrun => by
    cases hrun
    exact ⟨M, .refl, h, fun q => rfl⟩
  | a :: acts, N, M, h, hrun => by
    obtain ⟨N₁, hstep, hrun⟩ := Option.bind_eq_some_iff.mp hrun
    obtain ⟨M₁, hsteps₁, h₁, hposts₁⟩ := h.step hruns hstep
    obtain ⟨M', hsteps, h', hposts⟩ := h₁.run hruns hrun
    refine ⟨M', hsteps₁.trans hsteps, h', fun q => ?_⟩
    rw [hposts₁, hposts, Net.posts, hstep, List.append_assoc]

end Net.Sim

end Kucg.Lib
