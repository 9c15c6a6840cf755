import Kucg.Lib.SchedNet

/-! No deadlock in a network of ranks that execute schedules.

    The schedules of all ranks are cut into common rounds. The messages of a round are sent and
    received in the same round, and a rank does not send in a round after it may have been
    interrupted while it waited for a message of that round or of a later one (`Timed`). Then the
    network can always go on: of all messages that ranks wait for, look at one of the first round;
    its sender has not sent it, so it waits for a message of an earlier round (`recvs_eq_nil`).
    Hence every run of the programs can be completed (`live`). -/

namespace Kucg.Lib

variable {ι β σ : Type}

/-! ### What is sent is what is received -/

/-- How messages are told apart: a message in flight, and what rank `r` sends from or receives into
    some cells in a round. -/
structure Labels (ι β L : Type) where
  msg : List β × ℕ → L
  send : ℕ → List ι → ℕ → L
  recv : ℕ → List ι → ℕ → L

section Flow

variable {L : Type} (lab : Labels ι β L)

/-- The label of a send from `s` to `r`. -/
def Labels.sendTo (s r : ℕ) : Cmd ι β × ℕ → Option L
  | (.send d src, t) => if d = r then some (lab.send s src t) else none
  | _ => none

/-- The label of a receive of `r` from `s`. -/
def Labels.recvFrom (s r : ℕ) : Cmd ι β × ℕ → Option L
  | (.recv _ p dst, t) => if p = s then some (lab.recv r dst t) else none
  | _ => none

/-- What a rank `s` that is at `nd` has yet to send to `r`. -/
def Labels.toSend (s r : ℕ) (nd : SNode ι β) : List L := nd.todo.filterMap (lab.sendTo s r)

/-- What a rank `r` that is at `nd` has yet to get from `s`. -/
def Labels.toRecv (s r : ℕ) (nd : SNode ι β) : List L :=
  (nd.recvs.filter (·.1.src = s)).map (fun p => lab.recv r p.1.dst p.2) ++
    nd.todo.filterMap (lab.recvFrom s r)

/-- The messages in flight, and those to come, are the ones that the receiver waits for. -/
def SNet.Flow (M : SNet ι β) : Prop := ∀ s r,
  (M.chan s r).map lab.msg ++ lab.toSend s r (M.node s) = lab.toRecv s r (M.node r)

variable {lab} [DecidableEq ι]

omit [DecidableEq ι] in
/-- A rank changes, and has the same messages to come. -/
theorem SNet.Flow.setNode {M : SNet ι β} (h : M.Flow lab) {q : ℕ} {nd : SNode ι β}
    (hsend : ∀ r, lab.toSend q r nd = lab.toSend q r (M.node q))
    (hrecv : ∀ s, lab.toRecv s q nd = lab.toRecv s q (M.node q)) : (M.setNode q nd).Flow lab := by
  intro s r
  have hs : lab.toSend s r ((M.setNode q nd).node s) = lab.toSend s r (M.node s) := by
    rcases eq_or_ne s q with rfl | hsq
    · rw [SNet.node_setNode, hsend]
    · rw [SNet.node_setNode_of_ne hsq]
  have hr : lab.toRecv s r ((M.setNode q nd).node r) = lab.toRecv s r (M.node r) := by
    rcases eq_or_ne r q with rfl | hrq
    · rw [SNet.node_setNode, hrecv]
    · rw [SNet.node_setNode_of_ne hrq]
  rw [hs, hr]
  exact h s r

/-- Every step keeps the flow, if what is sent is what its label says. -/
theorem SNet.Flow.step {n : ℕ} {M M' : SNet ι β} (h : M.Flow lab)
    (hmsg : ∀ r d src t l, r < n → (M.node r).todo = (.send d src, t) :: l →
      lab.msg (src.map (M.node r).mem, t) = lab.send r src t)
    (hstep : SNet.Step n M M') : M'.Flow lab := by
  cases hstep with
  | pause hr htodo | wait hr htodo | zip hr htodo =>
    exact h.setNode (fun r => by simp [Labels.toSend, htodo, Labels.sendTo, List.filterMap_cons])
      fun s => by simp [Labels.toRecv, htodo, Labels.recvFrom, List.filterMap_cons]
  | sent hr => exact h.setNode (fun r => rfl) fun s => rfl
  | @send q d t src l hr htodo =>
    intro s r
    have hrecv : lab.toRecv s r (((M.setNode q { M.node q with
        sends := (M.node q).sends + 1, todo := l }).setChan q d
          (M.chan q d ++ [(src.map (M.node q).mem, t)])).node r) = lab.toRecv s r (M.node r) := by
      rcases eq_or_ne r q with rfl | hrq
      · simp [SNet.setNode, SNet.setChan, Labels.toRecv, htodo, Labels.recvFrom,
          List.filterMap_cons]
      · simp [SNet.setNode, SNet.setChan, hrq]
    rw [hrecv, ← h s r]
    rcases eq_or_ne s q with rfl | hsq
    · have hlab := hmsg s d src t l hr htodo
      by_cases hdr : d = r
      · subst hdr
        simp [SNet.setNode, SNet.setChan, Labels.toSend, htodo, Labels.sendTo, hlab]
      · simp [SNet.setNode, SNet.setChan, Labels.toSend, htodo, Labels.sendTo, hdr, Ne.symm hdr]
    · simp [SNet.setNode, SNet.setChan, Labels.toSend, hsq]
  | @recv q hd p t dst l hr htodo =>
    refine h.setNode (fun r => by simp [Labels.toSend, htodo, Labels.sendTo, List.filterMap_cons])
      fun s => ?_
    by_cases hps : p = s <;> simp [Labels.toRecv, htodo, Labels.recvFrom, hps]
  | @deliver p q t vals msgs l₁ l₂ rc hr hchan hrecvs hsrc hfirst =>
    intro s r
    have hsend : lab.toSend s r (((M.setNode q { M.node q with
        mem := writeCells rc.1.dst vals (M.node q).mem, recvs := l₁ ++ l₂ }).setChan p q msgs).node
          s) = lab.toSend s r (M.node s) := by
      rcases eq_or_ne s q with rfl | hsq
      · simp [SNet.setNode, SNet.setChan, Labels.toSend]
      · simp [SNet.setNode, SNet.setChan, hsq]
    rw [hsend]
    have hflow := h s r
    rcases eq_or_ne r q with rfl | hrq
    · rcases eq_or_ne s p with rfl | hsp
      · have hnil : l₁.filter (·.1.src = s) = [] :=
          List.filter_eq_nil_iff.mpr fun x hx => by simpa using hfirst x hx
        simp only [Labels.toRecv, hrecvs, hchan, List.filter_append, hnil, List.filter_cons, hsrc,
          decide_true, if_true, List.nil_append, List.map_cons, List.cons_append,
          List.cons.injEq] at hflow
        simpa [SNet.setNode, SNet.setChan, Labels.toRecv, hnil] using hflow.2
      · have hne : rc.1.src ≠ s := fun heq => hsp (heq ▸ hsrc)
        simpa [SNet.setNode, SNet.setChan, Labels.toRecv, hrecvs, hne, hsp] using hflow
    · simpa [SNet.setNode, SNet.setChan, hrq] using hflow

end Flow

/-! ### Rounds -/

/-- After its next stop the rank sends nothing of round `t` or before. -/
def Late (t : ℕ) : List (Cmd ι β × ℕ) → Prop
  | [] => True
  | (.wait, _) :: l | (.pause, _) :: l => ∀ d src t', (Cmd.send d src, t') ∈ l → t < t'
  | _ :: l => Late t l

/-- What is sent after a stop is of a later round than what has been asked for before. -/
def Timed : List (Cmd ι β × ℕ) → Prop
  | [] => True
  | (.recv .., t) :: l => Late t l ∧ Timed l
  | _ :: l => Timed l

theorem late_of_forall {t : ℕ} : ∀ {l : List (Cmd ι β × ℕ)},
    (∀ d src t', (Cmd.send d src, t') ∈ l → t < t') → Late t l
  | [], _ => trivial
  | (.wait, _) :: _, h | (.pause, _) :: _, h => fun d src t' hm =>
    h d src t' (List.mem_cons_of_mem _ hm)
  | (.send .., _) :: l, h | (.recv .., _) :: l, h | (.zip .., _) :: l, h =>
    late_of_forall (l := l) fun d src t' hm => h d src t' (List.mem_cons_of_mem _ hm)

theorem Late.tail {t : ℕ} : ∀ {c : Cmd ι β × ℕ} {l : List (Cmd ι β × ℕ)}, Late t (c :: l) → Late t l
  | (.wait, _), _, h | (.pause, _), _, h => late_of_forall h
  | (.send .., _), _, h | (.recv .., _), _, h | (.zip .., _), _, h => h

theorem Timed.tail : ∀ {c : Cmd ι β × ℕ} {l : List (Cmd ι β × ℕ)}, Timed (c :: l) → Timed l
  | (.wait, _), _, h | (.pause, _), _, h | (.send .., _), _, h | (.zip .., _), _, h => h
  | (.recv .., _), _, h => h.2

/-- Messages told apart by their rounds. -/
def roundLabels : Labels ι β ℕ := ⟨Prod.snd, fun _ _ t => t, fun _ _ t => t⟩

/-- All that is posted and to be posted is timed; ranks from `n` on have nothing to do. -/
structure SNet.Ordered (n : ℕ) (M : SNet ι β) : Prop where
  flow : M.Flow roundLabels
  timed : ∀ r, Timed (M.node r).todo
  late : ∀ r, ∀ p ∈ (M.node r).recvs, Late p.2 (M.node r).todo
  none : ∀ r, n ≤ r → (M.node r).todo = []

section Ordered

variable [DecidableEq ι] {n : ℕ} {M M' : SNet ι β}

omit [DecidableEq ι] in
/-- What holds of all ranks when it holds of the one that changes. -/
theorem forall_setNode {P : ℕ → SNode ι β → Prop} {q : ℕ} {nd : SNode ι β}
    (h : ∀ r, P r (M.node r)) (hq : P q nd) (r : ℕ) : P r ((M.setNode q nd).node r) := by
  rcases eq_or_ne r q with rfl | hr
  · rwa [SNet.node_setNode]
  · rw [SNet.node_setNode_of_ne hr]
    exact h r

/-- What every rank keeps when commands are dropped and receives are posted and met. -/
theorem SNet.Step.forall_node {P : ℕ → SNode ι β → Prop} (hstep : SNet.Step n M M')
    (h : ∀ r, P r (M.node r))
    (hnode : ∀ r, r < n → ∀ nd, (nd.todo = (M.node r).todo ∨
        ∃ c, (M.node r).todo = c :: nd.todo ∧ ∀ hd s dst t, c = (.recv hd s dst, t) →
          (⟨hd, s, dst⟩, t) ∈ nd.recvs) →
      (∀ p ∈ nd.recvs, p ∈ (M.node r).recvs ∨
        (M.node r).todo = (.recv p.1.handle p.1.src p.1.dst, p.2) :: nd.todo) → P r nd) :
    ∀ r, P r (M'.node r) := by
  cases hstep with
  | pause hr htodo | wait hr htodo | send hr htodo | zip hr htodo =>
    exact forall_setNode h (hnode _ hr _ (Or.inr ⟨_, htodo, nofun⟩) fun p hp => Or.inl hp)
  | recv hr htodo =>
    refine forall_setNode h (hnode _ hr _ (Or.inr ⟨_, htodo, ?_⟩) fun p hp => ?_)
    · rintro hd s dst t ⟨⟩
      exact List.mem_append_right _ (List.mem_singleton.mpr rfl)
    · refine (List.mem_append.mp hp).imp id fun hp => ?_
      rw [List.mem_singleton.mp hp]
      exact htodo
  | deliver hr hchan hrecvs =>
    refine forall_setNode h (hnode _ hr _ (Or.inl rfl) fun p hp => Or.inl ?_)
    rw [hrecvs]
    rcases List.mem_append.mp hp with hp | hp
    · exact List.mem_append_left _ hp
    · exact List.mem_append_right _ (List.mem_cons_of_mem _ hp)
  | sent hr => exact forall_setNode h (hnode _ hr _ (Or.inl rfl) fun p hp => Or.inl hp)

theorem SNet.Ordered.step (h : M.Ordered n) (hstep : SNet.Step n M M') : M'.Ordered n := by
  refine ⟨h.flow.step (fun _ _ _ _ _ _ _ => rfl) hstep, ?_, ?_, ?_⟩
  · refine hstep.forall_node (P := fun _ nd => Timed nd.todo) h.timed fun r _ nd htodo _ => ?_
    have htimed := h.timed r
    rcases htodo with htodo | ⟨c, htodo, -⟩
    · rwa [htodo]
    · rw [htodo] at htimed
      exact htimed.tail
  · refine hstep.forall_node (P := fun _ nd => ∀ p ∈ nd.recvs, Late p.2 nd.todo) h.late
      fun r _ nd htodo hrecvs p hp => ?_
    rcases hrecvs p hp with hp | hnew
    · have hlate := h.late r p hp
      rcases htodo with htodo | ⟨c, htodo, -⟩
      · rwa [htodo]
      · rw [htodo] at hlate
        exact hlate.tail
    · have htimed := h.timed r
      rw [hnew] at htimed
      exact htimed.1
  · refine hstep.forall_node (P := fun r nd => n ≤ r → nd.todo = []) h.none
      fun r hr nd _ _ hn => absurd hr (by omega)

theorem SNet.Ordered.steps (h : M.Ordered n) (hsteps : SNet.Steps n M M') : M'.Ordered n := by
  induction hsteps with
  | refl => exact h
  | tail _ hstep ih => exact ih.step hstep

omit [DecidableEq ι] in
/-- A rank at a stop that has posted a receive of round `t` will send only later. -/
theorem Late.lt_of_atStop {t t' d : ℕ} {src : List ι} :
    ∀ {l : List (Cmd ι β × ℕ)}, Late t l → (cmds l).AtStop → (.send d src, t') ∈ l → t < t'
  | [], _, _, hm => absurd hm List.not_mem_nil
  | (.wait, _) :: _, h, _, hm | (.pause, _) :: _, h, _, hm =>
    h d src t' ((List.mem_cons.mp hm).resolve_left (by simp))
  | (.send .., _) :: _, _, hstop, _ | (.recv .., _) :: _, _, hstop, _
  | (.zip .., _) :: _, _, hstop, _ => absurd hstop id

omit [DecidableEq ι] in
/-- Where no message can arrive and every rank is at a stop and waits or has finished, no rank
    waits for anything. -/
theorem SNet.Ordered.recvs_eq_nil (h : M.Ordered n)
    (hstop : ∀ r < n, (cmds (M.node r).todo).AtStop)
    (hwait : ∀ r < n, (M.node r).todo ≠ [] → (M.node r).recvs ≠ [])
    (harrive : ∀ r < n, ∀ p ∈ (M.node r).recvs, M.chan p.1.src r = []) :
    ∀ r < n, (M.node r).recvs = [] := by
  have hno : ∀ t, ∀ r < n, ∀ p ∈ (M.node r).recvs, p.2 ≠ t := by
    intro t
    induction t using Nat.strong_induction_on with
    | _ t ih =>
      rintro r hr p hp rfl
      -- the sender of the message has yet to send it
      have hflow := h.flow p.1.src r
      rw [harrive r hr p hp, List.map_nil, List.nil_append] at hflow
      have hmem : p.2 ∈ roundLabels.toSend (ι := ι) (β := β) p.1.src r (M.node p.1.src) := by
        rw [hflow]
        refine List.mem_append_left _ (List.mem_map.mpr ⟨p, ?_, rfl⟩)
        exact List.mem_filter.mpr ⟨hp, by simp⟩
      obtain ⟨⟨c, t'⟩, hc, hlab⟩ := List.mem_filterMap.mp hmem
      cases c with
      | send d src =>
        have htodo : (M.node p.1.src).todo ≠ [] := List.ne_nil_of_mem hc
        have hs : p.1.src < n := by
          by_contra hle
          exact htodo (h.none _ (by omega))
        obtain ⟨q, hq⟩ := List.exists_mem_of_ne_nil _ (hwait _ hs htodo)
        have hlt := (h.late _ q hq).lt_of_atStop (hstop _ hs) hc
        have ht' : t' = p.2 := by
          simp only [Labels.sendTo, roundLabels] at hlab
          split_ifs at hlab
          exact Option.some.inj hlab
        exact ih q.2 (ht' ▸ hlt) _ hs q hq rfl
      | recv | zip | wait | pause => exact absurd hlab (by simp [Labels.sendTo])
  intro r hr
  exact List.eq_nil_iff_forall_not_mem.mpr fun p hp => hno p.2 r hr p hp rfl

end Ordered

/-! ### Every run can be completed -/

section Complete

variable [DecidableEq ι] {n : ℕ} {proc : ℕ → Proc ι β σ} {Rel : ℕ → σ → Sched ι β → Prop}
  {cs₀ : ℕ → Sched ι β}

theorem run_cons {N N' : Net ι β σ} {a : Act} {acts : List Act} (h : N.step n proc a = some N') :
    N.run n proc (a :: acts) = N'.run n proc acts := by
  rw [Net.run, List.foldlM_cons, h]
  rfl

theorem run_single {N N' : Net ι β σ} {a : Act} (h : N.step n proc a = some N') :
    N.run n proc [a] = some N' := by
  rw [run_cons h]
  rfl

theorem run_append {N N' : Net ι β σ} {acts acts' : List Act} (h : N.run n proc acts = some N') :
    N.run n proc (acts ++ acts') = N'.run n proc acts' := by
  rw [Net.run, List.foldlM_append, show acts.foldlM (Net.step n proc) N = some N' from h]
  rfl

/-- Where a rank is at the end of a call that began in `N`, in a run to `N'`. -/
structure CallEnds (n : ℕ) (proc : ℕ → Proc ι β σ) (Rel : ℕ → σ → Sched ι β → Prop)
    (cs₀ : ℕ → Sched ι β) (r : ℕ) (fresh : Bool) (N : Net ι β σ) (M : SNet ι β) (acts : List Act)
    (N' : Net ι β σ) (M' : SNet ι β) : Prop where
  run : N.run n proc acts = some N'
  steps : SNet.Steps n M M'
  sim : Net.Sim n proc Rel cs₀ N' M'
  other : ∀ q, q ≠ r → (N'.node q).ctl = (N.node q).ctl
  ends : (∃ st, (N'.node r).ctl = .finished st) ∨ (∃ st, (N'.node r).ctl = .waiting st) ∧
    (fresh = true → (N.node r).recvs = [] → (N.node r).sends = 0 → M'.weight n < M.weight n)

/-- One more command at the beginning. -/
theorem CallEnds.cons {r : ℕ} {fresh fresh' : Bool} {N N₁ N' : Net ι β σ} {M M₁ M' : SNet ι β}
    {acts : List Act} (hstep : N.step n proc (.exec r) = some N₁) (hsteps : SNet.Steps n M M₁)
    (hother : ∀ q, q ≠ r → (N₁.node q).ctl = (N.node q).ctl)
    (hless : M₁.weight n < M.weight n ∨ fresh = fresh' ∧ (N₁.node r).recvs = (N.node r).recvs ∧
        (N₁.node r).sends = (N.node r).sends ∨
      ¬(fresh = true ∧ (N.node r).recvs = [] ∧ (N.node r).sends = 0))
    (h : CallEnds n proc Rel cs₀ r fresh' N₁ M₁ acts N' M') :
    CallEnds n proc Rel cs₀ r fresh N M (.exec r :: acts) N' M' := by
  refine ⟨by rw [run_cons hstep, h.run], hsteps.trans h.steps, h.sim,
    fun q hq => (h.other q hq).trans (hother q hq), h.ends.imp_right fun ⟨hwait, hfresh⟩ =>
      ⟨hwait, ?_⟩⟩
  intro hf hrecvs hsends
  rcases hless with hless | ⟨rfl, hr, hs⟩ | hnot
  · exact (SNet.Steps.weight_le h.steps).trans_lt hless
  · exact (hfresh hf (hr ▸ hrecvs) (hs ▸ hsends)).trans_le (SNet.Steps.weight_le hsteps)
  · exact absurd ⟨hf, hrecvs, hsends⟩ hnot

/-- A test at the beginning. -/
theorem CallEnds.cons_test {r : ℕ} {fresh fresh' : Bool} {N N' : Net ι β σ} {M M' : SNet ι β}
    {acts : List Act} {next : Prog ι β σ}
    (hstep : N.step n proc (.exec r) = some (N.setCtl r (.running next)))
    (hless : fresh = fresh' ∨ ¬(fresh = true ∧ (N.node r).recvs = [] ∧ (N.node r).sends = 0))
    (h : CallEnds n proc Rel cs₀ r fresh' (N.setCtl r (.running next)) M acts N' M') :
    CallEnds n proc Rel cs₀ r fresh N M (.exec r :: acts) N' M' := by
  refine h.cons hstep .refl (fun q hq => by simp [Net.setCtl, Net.setNode, hq]) ?_
  exact Or.inr (hless.imp_left fun heq => ⟨heq, by simp [Net.setCtl, Net.setNode]⟩)

/-- A call of a program comes to its end. If nothing was in flight when it began, the rank has
    finished or there is less left than before. -/
theorem call_ends {r : ℕ} (hr : r < n) : ∀ {p : Prog ι β σ} {moved : Bool} {N : Net ι β σ}
    {M : SNet ι β}, Net.Sim n proc Rel cs₀ N M → (N.node r).ctl = .running p →
      p.Exec ((proc r).Leaf (Rel r)) moved (cmds (M.node r).todo) →
      ∃ acts N' M', CallEnds n proc Rel cs₀ r (!moved) N M acts N' M' := by
  intro p
  induction p with
  | pure st =>
    intro moved N M h hrun hexec
    have hstep : N.step n proc (.exec r) = some (N.exec (proc r).active r (.pure st)) := by
      rw [Net.step, hrun]
    refine ⟨[.exec r], _, M, by rw [run_cons hstep]; rfl, .refl, h.exec_pure hr hexec, fun q hq =>
      ?_,
      ?_⟩
    · simp [Net.exec, Net.setCtl, Net.setNode, hq]
    · obtain ⟨-, ⟨hact, rfl, -⟩ | ⟨hact, -⟩⟩ := hexec
      · exact Or.inr ⟨⟨st, by simp [Net.exec, Net.setCtl, Net.setNode, hact]⟩, by simp⟩
      · exact Or.inl ⟨st, by simp [Net.exec, Net.setCtl, Net.setNode, hact]⟩
  | isend d src next ih =>
    rintro moved N M h hrun ⟨cs, hskip, hnext⟩
    obtain ⟨M₁, hm, hsim⟩ := h.exec_isend hr hskip hnext
    obtain ⟨acts, N', M', hends⟩ := ih hsim (by simp [Net.exec, Net.setNode, Net.setChan])
      (by rwa [hm.here])
    exact ⟨_, N', M', hends.cons (by rw [Net.step, hrun]) hm.steps
      (fun q hq => by simp [Net.exec, Net.setNode, Net.setChan, hq]) (Or.inl hm.less)⟩
  | irecv hd s dst next ih =>
    rintro moved N M h hrun ⟨cs, hskip, hnext⟩
    obtain ⟨M₁, hm, hsim⟩ := h.exec_irecv hr hskip hnext
    obtain ⟨acts, N', M', hends⟩ := ih hsim (by simp [Net.exec, Net.setNode]) (by rwa [hm.here])
    exact ⟨_, N', M', hends.cons (by rw [Net.step, hrun]) hm.steps
      (fun q hq => by simp [Net.exec, Net.setNode, hq]) (Or.inl hm.less)⟩
  | zip f src dst next ih =>
    rintro moved N M h hrun ⟨cs, hskip, hnext⟩
    obtain ⟨M₁, hm, hsim⟩ := h.exec_zip hr hskip hnext
    obtain ⟨acts, N', M', hends⟩ := ih hsim (by simp [Net.exec, Net.setNode]) (by rwa [hm.here])
    exact ⟨_, N', M', hends.cons (by rw [Net.step, hrun]) hm.steps
      (fun q hq => by simp [Net.exec, Net.setNode, hq]) (Or.inl hm.less)⟩
  | testall next ih =>
    rintro moved N M h hrun ⟨hfalse, htrue⟩
    have hstep : N.step n proc (.exec r) = some (N.setCtl r
        (.running (next ((N.node r).recvs.isEmpty && (N.node r).sends == 0)))) := by
      rw [Net.step, hrun]
      rfl
    by_cases hover : ((N.node r).recvs.isEmpty && (N.node r).sends == 0) = true
    · rw [hover] at hstep
      rcases htrue with htrue | ⟨cs, hskip, hnext⟩
      · obtain ⟨acts, N', M', hends⟩ := ih true (h.setCtl_running hr htrue)
          (by simp [Net.setCtl, Net.setNode]) htrue
        exact ⟨_, N', M', hends.cons_test hstep (Or.inl rfl)⟩
      · rw [Bool.and_eq_true, List.isEmpty_iff, beq_iff_eq] at hover
        obtain ⟨M₁, hm, hsim⟩ := h.exec_wait hr hskip hover.1 hover.2 hnext
        obtain ⟨acts, N', M', hends⟩ := ih true hsim (by simp [Net.setCtl, Net.setNode])
          (by rwa [hm.here])
        exact ⟨_, N', M', hends.cons hstep hm.steps
          (fun q hq => by simp [Net.setCtl, Net.setNode, hq]) (Or.inl hm.less)⟩
    · rw [Bool.eq_false_iff.mpr hover] at hstep
      obtain ⟨acts, N', M', hends⟩ := ih false (h.setCtl_running hr hfalse)
        (by simp [Net.setCtl, Net.setNode]) hfalse
      refine ⟨_, N', M', hends.cons_test hstep (Or.inr ?_)⟩
      rintro ⟨-, hrecvs, hsends⟩
      exact hover (by rw [hrecvs, hsends]; rfl)
  | test hd next ih =>
    rintro moved N M h hrun ⟨hfalse, htrue⟩
    have hstep : N.step n proc (.exec r) = some (N.setCtl r
        (.running (next ((N.node r).recvs.all (·.handle != hd))))) := by
      rw [Net.step, hrun]
      rfl
    by_cases hall : ((N.node r).recvs.all (·.handle != hd)) = true
    · rw [hall] at hstep
      obtain ⟨acts, N', M', hends⟩ := ih true (h.setCtl_running hr htrue)
        (by simp [Net.setCtl, Net.setNode]) htrue
      exact ⟨_, N', M', hends.cons_test hstep (Or.inl rfl)⟩
    · rw [Bool.eq_false_iff.mpr hall] at hstep
      obtain ⟨acts, N', M', hends⟩ := ih false (h.setCtl_running hr hfalse)
        (by simp [Net.setCtl, Net.setNode]) hfalse
      refine ⟨_, N', M', hends.cons_test hstep (Or.inr ?_)⟩
      rintro ⟨-, hrecvs, -⟩
      exact hall (by rw [hrecvs]; rfl)

/-- How far a rank is from having finished, apart from its schedule. -/
def Ctl.weight : Ctl ι β σ → ℕ
  | .idle | .running _ => 2
  | .waiting _ => 1
  | .finished _ => 0

/-- The same for all ranks below `n`. -/
def Net.weight (n : ℕ) (N : Net ι β σ) : ℕ := ∑ r ∈ Finset.range n, (N.node r).ctl.weight

omit [DecidableEq ι] in
theorem net_weight_lt {r : ℕ} (hr : r < n) {N N' : Net ι β σ}
    (hother : ∀ q, q ≠ r → (N'.node q).ctl = (N.node q).ctl)
    (hlt : (N'.node r).ctl.weight < (N.node r).ctl.weight) : N'.weight n < N.weight n := by
  refine Finset.sum_lt_sum (fun q _ => ?_) ⟨r, Finset.mem_range.mpr hr, hlt⟩
  rcases eq_or_ne q r with rfl | hq
  · exact hlt.le
  · rw [hother q hq]

omit [DecidableEq ι] in
theorem net_weight_le {r : ℕ} {N N' : Net ι β σ}
    (hother : ∀ q, q ≠ r → (N'.node q).ctl = (N.node q).ctl)
    (hle : (N'.node r).ctl.weight ≤ (N.node r).ctl.weight) : N'.weight n ≤ N.weight n := by
  refine Finset.sum_le_sum fun q _ => ?_
  rcases eq_or_ne q r with rfl | hq
  · exact hle
  · rw [hother q hq]

/-- A macro-step: some actions that leave less to do. -/
theorem run_of_less {N N₁ : Net ι β σ} {a : List Act} {P : Net ι β σ → Prop}
    (hrun : N.run n proc a = some N₁) (h : ∃ acts N', N₁.run n proc acts = some N' ∧ P N') :
    ∃ acts N', N.run n proc acts = some N' ∧ P N' := by
  obtain ⟨acts, N', hrun', hP⟩ := h
  exact ⟨a ++ acts, N', by rw [run_append hrun, hrun'], hP⟩

/-- A call brings its rank to a stop or to its end. -/
theorem CallEnds.weight_lt {r : ℕ} (hr : r < n) {fresh : Bool} {N N' : Net ι β σ}
    {M M' : SNet ι β} {acts : List Act} (h : CallEnds n proc Rel cs₀ r fresh N M acts N' M')
    (hrun : (N.node r).ctl.weight = 2) :
    M'.weight n + N'.weight n < M.weight n + N.weight n := by
  have hM := SNet.Steps.weight_le h.steps
  have hN : N'.weight n < N.weight n := by
    refine net_weight_lt hr h.other ?_
    rcases h.ends with ⟨st, hst⟩ | ⟨⟨st, hst⟩, -⟩ <;> rw [hst, hrun] <;> simp [Ctl.weight]
  omega

/-- Every state of a run goes on to one in which all ranks have finished. -/
theorem live_of_sim (hruns : ∀ r < n, (proc r).Runs (Rel r) (cs₀ r)) :
    ∀ (k : ℕ) {N : Net ι β σ} {M : SNet ι β}, Net.Sim n proc Rel cs₀ N M → M.Ordered n →
      M.weight n + N.weight n = k →
      ∃ acts N', N.run n proc acts = some N' ∧ ∀ r < n, ∃ st, N'.FinishedIn r st := by
  intro k
  induction k using Nat.strong_induction_on with
  | _ k ih =>
    rintro N M h hord rfl
    by_cases hrunning : ∃ r < n, ∃ p, (N.node r).ctl = .running p
    · -- a call is under way
      obtain ⟨r, hr, p, hp⟩ := hrunning
      have hctl := h.ctl r
      rw [hp] at hctl
      obtain ⟨moved, hexec⟩ := hctl
      obtain ⟨acts, N₁, M₁, hends⟩ := call_ends hr h hp hexec
      refine run_of_less hends.run (ih _ (hends.weight_lt hr ?_) hends.sim (hord.steps hends.steps)
        rfl)
      rw [hp, Ctl.weight]
    by_cases hidle : ∃ r < n, (N.node r).ctl = .idle
    · -- a rank has not been started
      obtain ⟨r, hr, hidle⟩ := hidle
      have hstep : N.step n proc (.start r) =
          some (N.setCtl r (.running (proc r).trigger)) := by
        rw [Net.step, hidle]
        exact if_pos hr
      have hctl := h.ctl r
      rw [hidle] at hctl
      have hexec : (proc r).trigger.Exec ((proc r).Leaf (Rel r)) true (cmds (M.node r).todo) := by
        rw [show cmds (M.node r).todo = cs₀ r from hctl]
        exact (hruns r hr).trigger
      obtain ⟨acts, N₁, M₁, hends⟩ := call_ends hr (h.setCtl_running hr hexec)
        (by simp [Net.setCtl, Net.setNode]) hexec
      have hlt := hends.weight_lt hr (by simp [Net.setCtl, Net.setNode, Ctl.weight])
      have hle : (N.setCtl r (.running (proc r).trigger)).weight n ≤ N.weight n := by
        refine net_weight_le (r := r) (fun q hq => by simp [Net.setCtl, Net.setNode, hq]) ?_
        simp [Net.setCtl, Net.setNode, Ctl.weight, hidle]
      refine run_of_less (a := .start r :: acts) (by rw [run_cons hstep, hends.run])
        (ih _ (by omega) hends.sim (hord.steps hends.steps) rfl)
    by_cases hsends : ∃ r < n, (N.node r).sends ≠ 0
    · -- a send completes
      obtain ⟨r, hr, hne⟩ := hsends
      obtain ⟨j, hj⟩ := Nat.exists_eq_succ_of_ne_zero hne
      obtain ⟨-, M₁, hM, -, hsim⟩ := h.sent hj
      have hlt := hM.weight_lt
      have hle : (N.setNode r { N.node r with sends := j }).weight n ≤ N.weight n := by
        refine net_weight_le (r := r) (fun q hq => by simp [Net.setNode, hq]) ?_
        simp [Net.setNode]
      have hstep : N.step n proc (.sent r) = some (N.setNode r { N.node r with sends := j }) := by
        rw [Net.step, hj]
      exact run_of_less (run_single hstep)
        (ih _ (by omega) hsim (hord.step hM) rfl)
    by_cases harrive : ∃ r < n, ∃ p ∈ (N.node r).recvs, N.chan p.src r ≠ []
    · -- a message arrives
      obtain ⟨r, hr, p, hp, hne⟩ := harrive
      obtain ⟨vals, msgs, hchan⟩ := List.exists_cons_of_ne_nil hne
      obtain ⟨q, qs, htake⟩ := takeFrom_isSome ⟨p, hp, rfl⟩
      obtain ⟨-, M₁, hM, -, hsim⟩ := h.deliver hchan htake
      have hlt := hM.weight_lt
      have hstep : N.step n proc (.deliver p.src r) = some ((N.setNode r { N.node r with
          mem := writeCells q.dst vals (N.node r).mem, recvs := qs }).setChan p.src r msgs) := by
        rw [Net.step, hchan, htake]
      refine run_of_less (run_single hstep) (ih _ (lt_of_lt_of_le ?_ le_rfl) hsim
        (hord.step hM) rfl)
      refine Nat.add_lt_add_of_lt_of_le hlt (net_weight_le (r := r) (fun q hq => ?_) ?_)
      · simp [Net.setNode, Net.setChan, hq]
      · simp [Net.setNode, Net.setChan]
    push Not at hrunning hidle hsends harrive
    by_cases hwait : ∃ r < n, (∃ st, (N.node r).ctl = .waiting st) ∧ (N.node r).recvs = []
    · -- a rank can go on
      obtain ⟨r, hr, ⟨st, hst⟩, hnil⟩ := hwait
      have hstep : N.step n proc (.resume r) =
          some (N.setCtl r (.running ((proc r).progress st))) := by rw [Net.step, hst]
      have hctl := h.ctl r
      rw [hst] at hctl
      have hexec := (hruns r hr).progress st _ hctl.1
      obtain ⟨acts, N₁, M₁, hends⟩ := call_ends hr (h.setCtl_running hr hexec)
        (by simp [Net.setCtl, Net.setNode]) hexec
      have hother (q) (hq : q ≠ r) : (N₁.node q).ctl = (N.node q).ctl := by
        rw [hends.other q hq]
        simp [Net.setCtl, Net.setNode, hq]
      have hlt : M₁.weight n + N₁.weight n < M.weight n + N.weight n := by
        rcases hends.ends with ⟨st', hst'⟩ | ⟨⟨st', hst'⟩, hless⟩
        · have := net_weight_lt hr hother (by simp [hst, hst', Ctl.weight])
          have := SNet.Steps.weight_le hends.steps
          omega
        · have := net_weight_le (n := n) hother (by simp [hst, hst', Ctl.weight])
          have := hless rfl (by simpa [Net.setCtl, Net.setNode] using hnil)
            (by simpa [Net.setCtl, Net.setNode] using hsends r hr)
          omega
      exact run_of_less (a := .resume r :: acts) (by rw [run_cons hstep, hends.run])
        (ih _ hlt hends.sim (hord.steps hends.steps) rfl)
    push Not at hwait
    -- nobody can go on: nobody waits
    have hends (r) (hr : r < n) : (∃ st, (N.node r).ctl = .waiting st ∧
        (N.node r).recvs ≠ [] ∧ (cmds (M.node r).todo).AtStop) ∨
          ∃ st, (N.node r).ctl = .finished st ∧ (M.node r).todo = [] := by
      have hctl := h.ctl r
      cases hc : (N.node r).ctl with
      | idle => exact absurd hc (hidle r hr)
      | running p => exact absurd hc (hrunning r hr p)
      | waiting st =>
        rw [hc] at hctl
        exact Or.inl ⟨st, rfl, hwait r hr ⟨st, hc⟩, hctl.2⟩
      | finished st =>
        rw [hc] at hctl
        exact Or.inr ⟨st, rfl, List.map_eq_nil_iff.mp hctl.2.1⟩
    have hnil := hord.recvs_eq_nil (fun r hr => ?_) (fun r hr htodo => ?_) fun r hr p hp => ?_
    · refine ⟨[], N, rfl, fun r hr => ?_⟩
      rcases hends r hr with ⟨st, -, hne, -⟩ | ⟨st, hst, -⟩
      · rw [← h.recvs, hnil r hr] at hne
        exact absurd rfl hne
      · exact ⟨st, hst⟩
    · rcases hends r hr with ⟨-, -, -, hstop⟩ | ⟨-, -, htodo⟩
      · exact hstop
      · rw [htodo]
        trivial
    · rcases hends r hr with ⟨-, -, hne, -⟩ | ⟨-, -, hnil⟩
      · rw [← h.recvs] at hne
        exact fun h => hne (by rw [h]; rfl)
      · exact absurd hnil htodo
    · have := harrive r hr p.1 (by rw [← h.recvs]; exact List.mem_map_of_mem hp)
      rw [← h.chan] at this
      exact List.map_eq_nil_iff.mp this

end Complete

end Kucg.Lib
