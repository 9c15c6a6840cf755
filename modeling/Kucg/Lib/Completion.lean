import Kucg.Lib.Adequacy
import Kucg.Lib.Live
import Kucg.Lib.Paced

/-! Ranks that follow traces made of rounds all come to their end.

    A procedure is lively when a call that finds nothing in flight posts a message, comes nearer to
    its end by some measure, or is the last one. If all ranks are, then as long as not all of them
    have finished some actions leave less to do: the actions of a call, an arrival, or the
    completion of a send. Where there are none, every rank that has not finished waits for a message
    that has not been sent, which rounds exclude (`Paced.drained`). -/

namespace Kucg.Lib

variable {ι β σ α γ : Type}

/-! ### All ways through a program -/

/-- Every way through the program ends in `Q`, whatever the tests say. -/
def Prog.All (Q : α → Prop) : Prog ι β α → Prop
  | .pure a => Q a
  | .isend _ _ next => next.All Q
  | .irecv _ _ _ next => next.All Q
  | .zip _ _ _ next => next.All Q
  | .testall next => ∀ b, (next b).All Q
  | .test _ next => ∀ b, (next b).All Q

/-- With nothing in flight, the program posts a message or ends in `Q`. -/
def Prog.Busy (Q : α → Prop) : Prog ι β α → Prop
  | .pure a => Q a
  | .isend .. | .irecv .. => True
  | .zip _ _ _ next => next.Busy Q
  | .testall next => (next true).Busy Q
  | .test _ next => (next true).Busy Q

section Ways

variable {Q Q' : α → Prop}

@[simp] theorem all_pure {a : α} : (pure a : Prog ι β α).All Q ↔ Q a := Iff.rfl

@[simp] theorem busy_pure {a : α} : (pure a : Prog ι β α).Busy Q ↔ Q a := Iff.rfl

@[simp] theorem all_bind {p : Prog ι β α} {f : α → Prog ι β γ} {Q : γ → Prop} :
    (p >>= f).All Q ↔ p.All fun a => (f a).All Q := by
  change (p.bind f).All Q ↔ _
  induction p with
  | pure a => exact Iff.rfl
  | isend d src next ih => exact ih
  | irecv h s dst next ih => exact ih
  | zip op src dst next ih => exact ih
  | testall next ih => exact forall_congr' ih
  | test h next ih => exact forall_congr' ih

@[simp] theorem busy_bind {p : Prog ι β α} {f : α → Prog ι β γ} {Q : γ → Prop} :
    (p >>= f).Busy Q ↔ p.Busy fun a => (f a).Busy Q := by
  change (p.bind f).Busy Q ↔ _
  induction p with
  | pure a => exact Iff.rfl
  | isend d src next ih => exact Iff.rfl
  | irecv h s dst next ih => exact Iff.rfl
  | zip op src dst next ih => exact ih
  | testall next ih => exact ih true
  | test h next ih => exact ih true

theorem Prog.All.imp {p : Prog ι β α} (hQ : ∀ a, Q a → Q' a) : p.All Q → p.All Q' := by
  induction p with
  | pure a => exact hQ a
  | isend d src next ih => exact ih
  | irecv h s dst next ih => exact ih
  | zip op src dst next ih => exact ih
  | testall next ih => exact fun h b => ih b (h b)
  | test h next ih => exact fun h b => ih b (h b)

theorem Prog.all_of_forall {p : Prog ι β α} (hQ : ∀ a, Q a) : p.All Q := by
  induction p with
  | pure a => exact hQ a
  | isend d src next ih => exact ih
  | irecv h s dst next ih => exact ih
  | zip op src dst next ih => exact ih
  | testall next ih => exact fun b => ih b
  | test h next ih => exact fun b => ih b

/-- What holds after every way through a program holds after a busy one. -/
theorem Prog.Busy.imp_all {p : Prog ι β α} {P : α → Prop} (hQ : ∀ a, P a → Q a → Q' a) :
    p.All P → p.Busy Q → p.Busy Q' := by
  induction p with
  | pure a => exact hQ a
  | isend d src next ih => exact fun _ _ => trivial
  | irecv h s dst next ih => exact fun _ _ => trivial
  | zip op src dst next ih => exact ih
  | testall next ih => exact fun h => ih true (h true)
  | test h next ih => exact fun h => ih true (h true)

theorem Prog.Busy.imp {p : Prog ι β α} (hQ : ∀ a, Q a → Q' a) : p.Busy Q → p.Busy Q' := by
  induction p with
  | pure a => exact hQ a
  | isend d src next ih => exact fun _ => trivial
  | irecv h s dst next ih => exact fun _ => trivial
  | zip op src dst next ih => exact ih
  | testall next ih => exact ih true
  | test h next ih => exact ih true

/-- What holds after every way through a program holds after it in any case. -/
theorem Prog.All.busy {p : Prog ι β α} : p.All Q → p.Busy Q := by
  induction p with
  | pure a => exact id
  | isend d src next ih => exact fun _ => trivial
  | irecv h s dst next ih => exact fun _ => trivial
  | zip op src dst next ih => exact ih
  | testall next ih => exact fun h => ih true (h true)
  | test h next ih => exact fun h => ih true (h true)

end Ways

/-- Between its calls the procedure is in states `G`. A call does not lead away from its end, which
    `μ` measures, and one that finds nothing in flight posts a message or leads nearer to it. -/
structure Proc.Lively (pr : Proc ι β σ) (G : σ → Prop) (μ : σ → ℕ) : Prop where
  trigger : pr.trigger.All G
  progress : ∀ st, G st → (pr.progress st).All fun st' => G st' ∧ μ st' ≤ μ st
  busy : ∀ st, G st → pr.active st = true →
    (pr.progress st).Busy fun st' => pr.active st' = false ∨ μ st' < μ st

/-! ### One call -/

/-- How much there is to do for a rank, apart from what is in its program. -/
def Node.load (nd : Node ι β σ) (todo : List (Event β)) : ℕ :=
  2 * todo.length + nd.recvs.length + nd.sends

variable [DecidableEq ι]

namespace Spec

variable {S : Spec ι β σ}

/-- Some actions of rank `r` lead from `N` to `N'` and leave the other ranks to do what they had to
    do. -/
structure CallEnds (S : Spec ι β σ) (N : Net ι β σ) (gs : ℕ → Ghost ι β) (r : ℕ) (acts : List Act)
    (N' : Net ι β σ) (gs' : ℕ → Ghost ι β) : Prop where
  run : N.run S.size S.proc acts = some N'
  ok : ∃ ps' gc', S.Ok N' gs' ps' gc'
  ctl : ∀ q, q ≠ r → (N'.node q).ctl = (N.node q).ctl
  load : ∀ q, q ≠ r → (N'.node q).load (gs' q).todo = (N.node q).load (gs q).todo
  le : (N'.node r).load (gs' r).todo ≤ (N.node r).load (gs r).todo

/-- One more command at the beginning. -/
theorem CallEnds.cons {N N₁ N' : Net ι β σ} {gs gs₁ gs' : ℕ → Ghost ι β} {r : ℕ} {a : Act}
    {acts : List Act} (hstep : N.step S.size S.proc a = some N₁)
    (hctl : ∀ q, q ≠ r → (N₁.node q).ctl = (N.node q).ctl)
    (hload : ∀ q, q ≠ r → (N₁.node q).load (gs₁ q).todo = (N.node q).load (gs q).todo)
    (hle : (N₁.node r).load (gs₁ r).todo ≤ (N.node r).load (gs r).todo)
    (h : CallEnds S N₁ gs₁ r acts N' gs') : CallEnds S N gs r (a :: acts) N' gs' where
  run := by rw [run_cons hstep, h.run]
  ok := h.ok
  ctl q hq := (h.ctl q hq).trans (hctl q hq)
  load q hq := (h.load q hq).trans (hload q hq)
  le := h.le.trans hle

/-- A command leaves the other ranks alone. -/
theorem node_exec_of_ne {active : σ → Bool} {N : Net ι β σ} {r q : ℕ} (hq : q ≠ r)
    (p : Prog ι β σ) : (N.exec active r p).node q = N.node q := by
  cases p <;> exact Function.update_of_ne hq ..

/-- A command at the beginning of a call. -/
theorem Ok.exec_cons {N : Net ι β σ} {gs : ℕ → Ghost ι β} {ps : ℕ → List (Promise ι β)}
    {gc : ℕ → ℕ → List (List β × Set ℕ)} (h : S.Ok N gs ps gc) {r : ℕ} (hr : r < S.size)
    {p : Prog ι β σ} (hrun : (N.node r).ctl = .running p) :
    ∃ gs₁ ps₁ gc₁, S.Ok (N.exec (S.proc r).active r p) gs₁ ps₁ gc₁ ∧
      ((N.exec (S.proc r).active r p).node r).load (gs₁ r).todo + p.posts =
        (N.node r).load (gs r).todo ∧
      ∀ {acts N' gs'}, CallEnds S (N.exec (S.proc r).active r p) gs₁ r acts N' gs' →
        CallEnds S N gs r (.exec r :: acts) N' gs' := by
  obtain ⟨g', ps', gc', hok, hsides⟩ := h.exec hr hrun
  have hlen := congrArg List.length hsides
  rw [List.length_append, List.length_map, List.length_map, length_sides] at hlen
  have hload : ((N.exec (S.proc r).active r p).node r).load (Function.update gs r g' r).todo +
      p.posts = (N.node r).load (gs r).todo := by
    rw [Function.update_self]
    cases p <;>
      simp [Node.load, Net.exec, Net.setCtl, Net.setNode, Net.setChan, Prog.posts, hlen] <;> omega
  refine ⟨_, ps', gc', hok, hload, fun hends => hends.cons ?_ (fun q hq => ?_) (fun q hq => ?_) ?_⟩
  · rw [Net.step, hrun]
  · rw [node_exec_of_ne hq]
  · rw [node_exec_of_ne hq, Function.update_of_ne hq]
  · omega

theorem CallEnds.refl {N : Net ι β σ} {gs : ℕ → Ghost ι β} {ps : ℕ → List (Promise ι β)}
    {gc : ℕ → ℕ → List (List β × Set ℕ)} (h : S.Ok N gs ps gc) (r : ℕ) :
    CallEnds S N gs r [] N gs :=
  ⟨rfl, ⟨_, _, h⟩, fun _ _ => rfl, fun _ _ => rfl, le_rfl⟩

/-- A call of a program comes to its end. If nothing was in flight and the program is busy, it has
    posted a message or ended as it says. -/
theorem call_ends {r : ℕ} (hr : r < S.size) {Q B : σ → Prop} : ∀ {p : Prog ι β σ} {N : Net ι β σ}
    {gs : ℕ → Ghost ι β} {ps : ℕ → List (Promise ι β)} {gc : ℕ → ℕ → List (List β × Set ℕ)},
    S.Ok N gs ps gc → (N.node r).ctl = .running p → p.All Q →
      ∃ acts N' gs' st, CallEnds S N gs r acts N' gs' ∧ Q st ∧
        (N'.node r).ctl = (if (S.proc r).active st then .waiting st else .finished st) ∧
        ((N.node r).recvs = [] → (N.node r).sends = 0 → p.Busy B →
          B st ∨ (N'.node r).load (gs' r).todo < (N.node r).load (gs r).todo) := by
  intro p
  induction p with
  | pure st =>
    intro N gs ps gc h hrun hall
    obtain ⟨gs₁, ps₁, gc₁, hok, -, hcons⟩ := h.exec_cons hr hrun
    exact ⟨_, _, gs₁, st, hcons (.refl hok r), hall, by simp [Net.exec, Net.setCtl, Net.setNode],
      fun _ _ hB => Or.inl hB⟩
  | isend d src next ih =>
    intro N gs ps gc h hrun hall
    obtain ⟨gs₁, ps₁, gc₁, hok, hload, hcons⟩ := h.exec_cons hr hrun
    obtain ⟨acts, N', gs', st, hends, hQ, hst, -⟩ := ih hok
      (by simp [Net.exec, Net.setNode, Net.setChan]) hall
    refine ⟨_, N', gs', st, hcons hends, hQ, hst, fun _ _ _ => Or.inr ?_⟩
    have := hends.le
    simp only [Prog.posts] at hload
    omega
  | irecv hd s dst next ih =>
    intro N gs ps gc h hrun hall
    obtain ⟨gs₁, ps₁, gc₁, hok, hload, hcons⟩ := h.exec_cons hr hrun
    obtain ⟨acts, N', gs', st, hends, hQ, hst, -⟩ := ih hok (by simp [Net.exec, Net.setNode]) hall
    refine ⟨_, N', gs', st, hcons hends, hQ, hst, fun _ _ _ => Or.inr ?_⟩
    have := hends.le
    simp only [Prog.posts] at hload
    omega
  | zip f src dst next ih =>
    intro N gs ps gc h hrun hall
    obtain ⟨gs₁, ps₁, gc₁, hok, hload, hcons⟩ := h.exec_cons hr hrun
    obtain ⟨acts, N', gs', st, hends, hQ, hst, hB⟩ := ih hok (by simp [Net.exec, Net.setNode]) hall
    refine ⟨_, N', gs', st, hcons hends, hQ, hst, fun hrecvs hsends hbusy => ?_⟩
    rw [← show _ = (N.node r).load (gs r).todo from hload]
    exact hB (by simpa [Net.exec, Net.setNode] using hrecvs)
      (by simpa [Net.exec, Net.setNode] using hsends) hbusy
  | testall next ih =>
    intro N gs ps gc h hrun hall
    obtain ⟨gs₁, ps₁, gc₁, hok, hload, hcons⟩ := h.exec_cons hr hrun
    obtain ⟨acts, N', gs', st, hends, hQ, hst, hB⟩ := ih _ hok
      (by simp only [Net.exec, Net.setCtl, Net.setNode, Function.update_self]; rfl) (hall _)
    refine ⟨_, N', gs', st, hcons hends, hQ, hst, fun hrecvs hsends hbusy => ?_⟩
    rw [← show _ = (N.node r).load (gs r).todo from hload]
    refine hB (by simpa [Net.exec, Net.setCtl, Net.setNode] using hrecvs)
      (by simpa [Net.exec, Net.setCtl, Net.setNode] using hsends) ?_
    rw [hrecvs, hsends]
    exact hbusy
  | test hd next ih =>
    intro N gs ps gc h hrun hall
    obtain ⟨gs₁, ps₁, gc₁, hok, hload, hcons⟩ := h.exec_cons hr hrun
    obtain ⟨acts, N', gs', st, hends, hQ, hst, hB⟩ := ih _ hok
      (by simp only [Net.exec, Net.setCtl, Net.setNode, Function.update_self]; rfl) (hall _)
    refine ⟨_, N', gs', st, hcons hends, hQ, hst, fun hrecvs hsends hbusy => ?_⟩
    rw [← show _ = (N.node r).load (gs r).todo from hload]
    refine hB (by simpa [Net.exec, Net.setCtl, Net.setNode] using hrecvs)
      (by simpa [Net.exec, Net.setCtl, Net.setNode] using hsends) ?_
    rw [hrecvs]
    exact hbusy

end Spec

/-! ### Between calls -/

/-- The control of a rank is where its procedure can be. -/
def Ctl.Within (pr : Proc ι β σ) (G : σ → Prop) : Ctl ι β σ → Prop
  | .idle => True
  | .running p => p.All G
  | .waiting st => G st ∧ pr.active st = true
  | .finished _ => True

/-- How far a rank that waits is from its end. -/
def Ctl.rest (μ : σ → ℕ) : Ctl ι β σ → ℕ
  | .waiting st => μ st + 1
  | _ => 0

/-- The rank waits, or has finished. -/
def Ctl.Settled : Ctl ι β σ → Prop
  | .waiting _ | .finished _ => True
  | _ => False

section Lively

variable {n : ℕ} {proc : ℕ → Proc ι β σ} {G : ℕ → σ → Prop} {μ : ℕ → σ → ℕ}
  (hlive : ∀ r < n, (proc r).Lively (G r) (μ r))

include hlive

/-- The control of every rank stays where its procedure can be. -/
theorem within_step {N N' : Net ι β σ} (hbound : ∀ r, N.Started r → r < n)
    (h : ∀ r, (N.node r).ctl.Within (proc r) (G r)) : ∀ {a : Act}, N.step n proc a = some N' →
      ∀ r, (N'.node r).ctl.Within (proc r) (G r) := by
  have hset {r : ℕ} {c : Ctl ι β σ} (hc : c.Within (proc r) (G r)) (q : ℕ) :
      ((N.setCtl r c).node q).ctl.Within (proc q) (G q) := by
    rcases eq_or_ne q r with rfl | hq
    · simpa [Net.setCtl, Net.setNode] using hc
    · simpa [Net.setCtl, Net.setNode, hq] using h q
  rintro (r | r | r | ⟨s, r⟩ | r) hstep
  · rw [Net.step] at hstep
    split at hstep
    · split at hstep
      · next hr =>
        cases hstep
        exact hset (hlive r hr).trigger
      · cases hstep
    · cases hstep
  · rw [Net.step] at hstep
    split at hstep
    · next p hrun =>
      cases hstep
      have hp := h r
      rw [hrun] at hp
      have hnode {N' : Net ι β σ} (hother : ∀ q, q ≠ r → N'.node q = N.node q)
          (hself : (N'.node r).ctl.Within (proc r) (G r)) (q : ℕ) :
          (N'.node q).ctl.Within (proc q) (G q) := by
        rcases eq_or_ne q r with rfl | hq
        · exact hself
        · rw [hother q hq]
          exact h q
      refine hnode (fun q hq => Spec.node_exec_of_ne hq p) ?_
      cases p with
      | pure st =>
        simp only [Net.exec, Net.setCtl, Net.setNode, Function.update_self]
        split_ifs with hact
        · exact ⟨hp, hact⟩
        · trivial
      | isend d src next =>
        simp only [Net.exec, Net.setChan, Net.setNode, Function.update_self]
        exact hp
      | irecv hd s dst next =>
        simp only [Net.exec, Net.setNode, Function.update_self]
        exact hp
      | zip f src dst next =>
        simp only [Net.exec, Net.setNode, Function.update_self]
        exact hp
      | testall next =>
        simp only [Net.exec, Net.setCtl, Net.setNode, Function.update_self]
        exact hp _
      | test hd next =>
        simp only [Net.exec, Net.setCtl, Net.setNode, Function.update_self]
        exact hp _
    · cases hstep
  · rw [Net.step] at hstep
    split at hstep
    · next st hwait =>
      cases hstep
      have hG := h r
      rw [hwait] at hG
      have hr : r < n := hbound r (by rw [Net.Started, hwait]; simp)
      exact hset (((hlive r hr).progress st hG.1).imp fun _ hst => hst.1)
    · cases hstep
  · rw [Net.step] at hstep
    split at hstep
    · cases hstep
      intro q
      rcases eq_or_ne q r with rfl | hq
      · simpa [Net.setNode, Net.setChan] using h q
      · simpa [Net.setNode, Net.setChan, hq] using h q
    · cases hstep
  · rw [Net.step] at hstep
    split at hstep
    · cases hstep
      intro q
      rcases eq_or_ne q r with rfl | hq
      · simpa [Net.setNode] using h q
      · simpa [Net.setNode, hq] using h q
    · cases hstep

end Lively

namespace Spec

variable {S : Spec ι β σ} {G : ℕ → σ → Prop} {μ : ℕ → σ → ℕ}

/-- What is known of a state from which the ranks are to come to their end. -/
structure Reached (S : Spec ι β σ) (G : ℕ → σ → Prop) (N : Net ι β σ) (gs : ℕ → Ghost ι β) :
    Prop where
  ok : ∃ ps gc, S.Ok N gs ps gc
  within : ∀ r, (N.node r).ctl.Within (S.proc r) (G r)

theorem reached_run (hS : ∀ r < S.size, (S.proc r).Follows (S.inv r) (S.post r) (S.ghost r))
    (hlive : ∀ r < S.size, (S.proc r).Lively (G r) (μ r)) : ∀ {acts : List Act} {N N' : Net ι β σ}
      {gs : ℕ → Ghost ι β}, Reached S G N gs → N.run S.size S.proc acts = some N' →
      ∃ gs', Reached S G N' gs'
  | [], _, _, _, h, hrun => by
    cases hrun
    exact ⟨_, h⟩
  | a :: acts, N, N', _, h, hrun => by
    obtain ⟨N₁, hstep, hrun⟩ := Option.bind_eq_some_iff.mp hrun
    obtain ⟨⟨_, _, hok⟩, hwithin⟩ := h
    obtain ⟨_, _, _, h₁, -⟩ := hok.step hS hstep
    exact reached_run hS hlive ⟨⟨_, _, h₁⟩, within_step hlive hok.bound hwithin hstep⟩ hrun

theorem reached_init (hT : Matched S.trace) : Reached S G (Net.init S.mem) S.ghost :=
  ⟨⟨_, _, ok_init hT⟩, fun _ => trivial⟩

/-- A call that is under way comes to its end. -/
theorem Reached.call {N : Net ι β σ} {gs : ℕ → Ghost ι β} (h : Reached S G N gs) {r : ℕ}
    (hr : r < S.size) {p : Prog ι β σ} (hrun : (N.node r).ctl = .running p) {Q B : σ → Prop}
    (hQ : ∀ st, Q st → G r st) (hall : p.All Q) :
    ∃ acts N' gs' st, CallEnds S N gs r acts N' gs' ∧ Reached S G N' gs' ∧ Q st ∧
      (N'.node r).ctl = (if (S.proc r).active st then .waiting st else .finished st) ∧
      ((N.node r).recvs = [] → (N.node r).sends = 0 → p.Busy B →
        B st ∨ (N'.node r).load (gs' r).todo < (N.node r).load (gs r).todo) := by
  obtain ⟨⟨_, _, hok⟩, hwithin⟩ := h
  obtain ⟨acts, N', gs', st, hends, hst, hctl, hbusy⟩ := call_ends hr hok hrun hall
  refine ⟨acts, N', gs', st, hends, ⟨hends.ok, fun q => ?_⟩, hst, hctl, hbusy⟩
  rcases eq_or_ne q r with rfl | hq
  · rw [hctl]
    split_ifs with hact
    · exact ⟨hQ st hst, hact⟩
    · trivial
  · rw [hends.ctl q hq]
    exact hwithin q

omit [DecidableEq ι] in
theorem settled_ite {c : Prop} [Decidable c] (st : σ) :
    (if c then .waiting st else .finished st : Ctl ι β σ).Settled := by
  split_ifs <;> trivial

/-- The ranks below `k` come between calls. -/
theorem exists_settled (hS : ∀ r < S.size, (S.proc r).Follows (S.inv r) (S.post r) (S.ghost r))
    (hlive : ∀ r < S.size, (S.proc r).Lively (G r) (μ r)) {N : Net ι β σ} {gs : ℕ → Ghost ι β}
    (h : Reached S G N gs) : ∀ k ≤ S.size, ∃ acts N' gs', N.run S.size S.proc acts = some N' ∧
      Reached S G N' gs' ∧ ∀ r < k, (N'.node r).ctl.Settled
  | 0, _ => ⟨[], N, gs, rfl, h, by simp⟩
  | k + 1, hk => by
    obtain ⟨acts, N₁, gs₁, hrun₁, h₁, hset₁⟩ := exists_settled hS hlive h k (by omega)
    -- a call of rank `k` that is under way after some more actions
    have hcall (acts' : List Act) (N₂ : Net ι β σ) (gs₂ : ℕ → Ghost ι β) (p : Prog ι β σ)
        (hrun₂ : N.run S.size S.proc acts' = some N₂) (h₂ : Reached S G N₂ gs₂)
        (hother : ∀ r < k, (N₂.node r).ctl = (N₁.node r).ctl)
        (hp : (N₂.node k).ctl = .running p) : ∃ acts N' gs',
          N.run S.size S.proc acts = some N' ∧ Reached S G N' gs' ∧
          ∀ r < k + 1, (N'.node r).ctl.Settled := by
      have hall : p.All (G k) := by
        have := h₂.within k
        rwa [hp] at this
      obtain ⟨acts₃, N₃, gs₃, st, hends, h₃, -, hctl, -⟩ :=
        h₂.call (B := fun _ => True) (by omega) hp (fun _ => id) hall
      refine ⟨acts' ++ acts₃, N₃, gs₃, ?_, h₃, fun r hr => ?_⟩
      · rw [run_append hrun₂, hends.run]
      · rcases eq_or_ne r k with rfl | hne
        · rw [hctl]
          exact settled_ite st
        · rw [hends.ctl r hne, hother r (by omega)]
          exact hset₁ r (by omega)
    cases hc : (N₁.node k).ctl with
    | running p => exact hcall acts N₁ gs₁ p hrun₁ h₁ (fun _ _ => rfl) hc
    | waiting st =>
      refine ⟨acts, N₁, gs₁, hrun₁, h₁, fun r hr => ?_⟩
      rcases eq_or_ne r k with rfl | hne
      · rw [hc]
        trivial
      · exact hset₁ r (by omega)
    | finished st =>
      refine ⟨acts, N₁, gs₁, hrun₁, h₁, fun r hr => ?_⟩
      rcases eq_or_ne r k with rfl | hne
      · rw [hc]
        trivial
      · exact hset₁ r (by omega)
    | idle =>
      have hstep : N₁.step S.size S.proc (.start k) =
          some (N₁.setCtl k (.running (S.proc k).trigger)) := by
        rw [Net.step, hc]
        exact if_pos (by omega)
      have hrun₂ : N₁.run S.size S.proc [.start k] =
          some (N₁.setCtl k (.running (S.proc k).trigger)) := run_single hstep
      obtain ⟨gs₂, h₂⟩ := reached_run hS hlive h₁ hrun₂
      refine hcall (acts ++ [.start k]) _ gs₂ (S.proc k).trigger ?_ h₂ (fun r hr => ?_) ?_
      · rw [run_append hrun₁, hrun₂]
      · simp [Net.setCtl, Net.setNode, hr.ne]
      · simp [Net.setCtl, Net.setNode]

/-- What is left to do for all ranks, when they are between calls. -/
def total (S : Spec ι β σ) (μ : ℕ → σ → ℕ) (N : Net ι β σ) (gs : ℕ → Ghost ι β) : ℕ :=
  ∑ r ∈ Finset.range S.size, ((N.node r).load (gs r).todo + (N.node r).ctl.rest (μ r))

omit [DecidableEq ι] in
theorem total_lt {N N' : Net ι β σ} {gs gs' : ℕ → Ghost ι β} {r : ℕ} (hr : r < S.size)
    (hctl : ∀ q, q ≠ r → (N'.node q).ctl = (N.node q).ctl)
    (hload : ∀ q, q ≠ r → (N'.node q).load (gs' q).todo = (N.node q).load (gs q).todo)
    (hlt : (N'.node r).load (gs' r).todo + (N'.node r).ctl.rest (μ r) <
      (N.node r).load (gs r).todo + (N.node r).ctl.rest (μ r)) :
    S.total μ N' gs' < S.total μ N gs := by
  refine Finset.sum_lt_sum (fun q _ => ?_) ⟨r, Finset.mem_range.mpr hr, hlt⟩
  rcases eq_or_ne q r with rfl | hq
  · exact hlt.le
  · rw [hctl q hq, hload q hq]

/-- The trace of a rank that waits is a final part of its whole trace. -/
def Final (S : Spec ι β σ) : Prop := ∀ r st g, S.inv r st g → g.todo <:+ S.trace r

section Main

variable (hS : ∀ r < S.size, (S.proc r).Follows (S.inv r) (S.post r) (S.ghost r))
  (hlive : ∀ r < S.size, (S.proc r).Lively (G r) (μ r))

include hS hlive

/-- An arrival or the completion of a send leaves less to do. -/
theorem Reached.lighter {N N' : Net ι β σ} {gs : ℕ → Ghost ι β} (h : Reached S G N gs) {a : Act}
    (hstep : N.step S.size S.proc a = some N') (htakes : ∀ q, N.takes a q = 0) {r : ℕ}
    (hr : r < S.size) (hctl : ∀ q, (N'.node q).ctl = (N.node q).ctl)
    (hnode : ∀ q, q ≠ r → N'.node q = N.node q)
    (hlt : (N'.node r).recvs.length + (N'.node r).sends <
      (N.node r).recvs.length + (N.node r).sends) :
    ∃ gs', Reached S G N' gs' ∧ S.total μ N' gs' < S.total μ N gs := by
  obtain ⟨⟨_, _, hok⟩, hwithin⟩ := h
  obtain ⟨gs', ps', gc', hok', hsides⟩ := hok.step hS hstep
  have hlen (q) := length_todo (hsides q)
  simp only [htakes, Nat.add_zero] at hlen
  refine ⟨gs', ⟨⟨_, _, hok'⟩, within_step hlive hok.bound hwithin hstep⟩,
    total_lt hr (fun q _ => hctl q) (fun q hq => ?_) ?_⟩
  · rw [Node.load, Node.load, hnode q hq, hlen]
  · rw [Node.load, Node.load, hctl, hlen]
    omega

/-- A rank that waits and has nothing in flight goes on. -/
theorem Reached.resume {N : Net ι β σ} {gs : ℕ → Ghost ι β} (h : Reached S G N gs) {r : ℕ}
    (hr : r < S.size) {st : σ} (hwait : (N.node r).ctl = .waiting st)
    (hrecvs : (N.node r).recvs = [])
    (hsends : (N.node r).sends = 0) :
    ∃ acts N' gs', N.run S.size S.proc acts = some N' ∧ Reached S G N' gs' ∧
      (∀ q, q ≠ r → (N'.node q).ctl = (N.node q).ctl) ∧ (N'.node r).ctl.Settled ∧
      S.total μ N' gs' < S.total μ N gs := by
  obtain ⟨hG, hact⟩ : G r st ∧ (S.proc r).active st = true := by
    have := h.within r
    rwa [hwait] at this
  have hstep : N.step S.size S.proc (.resume r) =
      some (N.setCtl r (.running ((S.proc r).progress st))) := by rw [Net.step, hwait]
  obtain ⟨⟨_, _, hok⟩, hwithin⟩ := h
  obtain ⟨gs₁, _, _, hok₁, hsides⟩ := hok.step hS hstep
  have hlen (q) := length_todo (hsides q)
  have h₁ : Reached S G (N.setCtl r (.running ((S.proc r).progress st))) gs₁ :=
    ⟨⟨_, _, hok₁⟩, within_step hlive hok.bound hwithin hstep⟩
  have hload (q) : ((N.setCtl r (.running ((S.proc r).progress st))).node q).load (gs₁ q).todo =
      (N.node q).load (gs q).todo := by
    have hlen' : (gs q).todo.length = (gs₁ q).todo.length := hlen q
    rcases eq_or_ne q r with rfl | hq
    · simp [Node.load, Net.setCtl, Net.setNode, hlen']
    · simp [Node.load, Net.setCtl, Net.setNode, hlen', hq]
  obtain ⟨acts, N', gs', st', hends, h', ⟨-, hμ⟩, hctl, hbusy⟩ := h₁.call hr
    (by simp [Net.setCtl, Net.setNode]) (fun _ hst => hst.1) ((hlive r hr).progress st hG)
    (B := fun st' => (S.proc r).active st' = false ∨ μ r st' < μ r st)
  have hother (q) (hq : q ≠ r) : (N'.node q).ctl = (N.node q).ctl := by
    rw [hends.ctl q hq]
    simp [Net.setCtl, Net.setNode, hq]
  refine ⟨.resume r :: acts, N', gs', ?_, h', hother, ?_, total_lt hr hother (fun q hq => ?_) ?_⟩
  · rw [run_cons hstep, hends.run]
  · rw [hctl]
    exact settled_ite st'
  · rw [hends.load q hq, hload]
  · have hle := hends.le
    have hB := hbusy (by simpa [Net.setCtl, Net.setNode] using hrecvs)
      (by simpa [Net.setCtl, Net.setNode] using hsends) ((hlive r hr).busy st hG hact)
    rw [hload] at hle hB
    rw [hctl, hwait]
    split_ifs with hact'
    · simp only [Ctl.rest]
      rcases hB with (hfin | hless) | hless
      · rw [hact'] at hfin
        cases hfin
      · omega
      · omega
    · simp only [Ctl.rest]
      omega

omit hS hlive in
/-- Where nothing can be done, all ranks have finished. -/
theorem all_finished {K : ℕ} (hpaced : Paced K S.trace) (hout : ∀ r, S.size ≤ r → S.trace r = [])
    (hfinal : S.Final) {N : Net ι β σ} {gs : ℕ → Ghost ι β} {ps : ℕ → List (Promise ι β)}
    {gc : ℕ → ℕ → List (List β × Set ℕ)} (h : S.Ok N gs ps gc)
    (hset : ∀ r < S.size, (N.node r).ctl.Settled)
    (hwait : ∀ r < S.size, ∀ st, (N.node r).ctl = .waiting st → (N.node r).recvs ≠ [])
    (hchan : ∀ r < S.size, ∀ p ∈ (N.node r).recvs, N.chan p.src r = []) :
    ∀ r < S.size, ∃ st, N.FinishedIn r st := by
  have hidle (r) (hr : S.size ≤ r) : (gs r).todo = S.trace r := by
    have hctl := h.ctl r
    have hc : (N.node r).ctl = .idle := by
      by_contra hne
      exact absurd (h.bound r hne) (by omega)
    rw [hc] at hctl
    rw [show gs r = S.ghost r from hctl]
    rfl
  -- a rank that waits waits for a message that is not on its way
  have hgap (r) (hr : r < S.size) (st) (hst : (N.node r).ctl = .waiting st) :
      ∃ s, (recvsFrom s (gs r).todo).length < (sendsTo r (gs s).todo).length := by
    obtain ⟨p, hp⟩ := List.exists_mem_of_ne_nil _ (hwait r hr st hst)
    have hnil : gc p.src r = [] := by
      have := hchan r hr p hp
      rw [h.chan] at this
      exact List.map_eq_nil_iff.mp this
    have hflow := h.flow p.src r
    rw [hnil, List.nil_append] at hflow
    rw [(h.node r).recvs] at hp
    obtain ⟨q, hq, rfl⟩ := List.mem_map.mp hp
    have hmem : (q.vals, q.know) ∈ promisedFrom q.recv.src (ps r) :=
      List.mem_map.mpr ⟨q, List.mem_filter.mpr ⟨hq, by simp⟩, rfl⟩
    refine ⟨q.recv.src, ?_⟩
    rw [hflow, List.length_append]
    have := List.length_pos_of_mem hmem
    omega
  have hsuf (r) : (gs r).todo <:+ S.trace r := by
    rcases Nat.lt_or_ge r S.size with hr | hr
    · have hctl := h.ctl r
      have hs := hset r hr
      cases hc : (N.node r).ctl with
      | idle => rw [hc] at hs; exact hs.elim
      | running p => rw [hc] at hs; exact hs.elim
      | waiting st =>
        rw [hc] at hctl
        exact hfinal r st _ hctl.2
      | finished st =>
        rw [hc] at hctl
        rw [hctl.2.1]
        exact List.nil_suffix
    · rw [hidle r hr]
  have hwaiting : Waiting fun r => (gs r).todo := by
    intro r
    rcases Nat.lt_or_ge r S.size with hr | hr
    · have hctl := h.ctl r
      have hs := hset r hr
      cases hc : (N.node r).ctl with
      | idle => rw [hc] at hs; exact hs.elim
      | running p => rw [hc] at hs; exact hs.elim
      | waiting st => exact Or.inr (hgap r hr st hc)
      | finished st =>
        rw [hc] at hctl
        exact Or.inl hctl.2.1
    · exact Or.inl ((hidle r hr).trans (hout r hr))
  have hnil := hpaced.drained hsuf hwaiting
  intro r hr
  have hs := hset r hr
  cases hc : (N.node r).ctl with
  | idle => rw [hc] at hs; exact hs.elim
  | running p => rw [hc] at hs; exact hs.elim
  | finished st => exact ⟨st, hc⟩
  | waiting st =>
    obtain ⟨s, hlt⟩ := hgap r hr st hc
    rw [show (gs s).todo = [] from hnil s] at hlt
    simp at hlt

/-- From between calls all ranks come to their end. -/
theorem exists_finished {K : ℕ} (hpaced : Paced K S.trace)
    (hout : ∀ r, S.size ≤ r → S.trace r = []) (hfinal : S.Final) :
    ∀ (k : ℕ) {N : Net ι β σ} {gs : ℕ → Ghost ι β}, Reached S G N gs →
      (∀ r < S.size, (N.node r).ctl.Settled) → S.total μ N gs = k →
      ∃ acts N', N.run S.size S.proc acts = some N' ∧ ∀ r < S.size, ∃ st, N'.FinishedIn r st := by
  intro k
  induction k using Nat.strong_induction_on with
  | _ k ih =>
    rintro N gs h hset rfl
    -- an action after which there is less to do
    have hone (a : Act) (N₁ : Net ι β σ) (hstep : N.step S.size S.proc a = some N₁)
        (hctl : ∀ q, (N₁.node q).ctl = (N.node q).ctl)
        (hless : ∃ gs₁, Reached S G N₁ gs₁ ∧ S.total μ N₁ gs₁ < S.total μ N gs) :
        ∃ acts N', N.run S.size S.proc acts = some N' ∧
          ∀ r < S.size, ∃ st, N'.FinishedIn r st := by
      obtain ⟨gs₁, h₁, hlt⟩ := hless
      obtain ⟨acts, N', hrun, hfin⟩ := ih _ hlt h₁ (fun r hr => by rw [hctl]; exact hset r hr) rfl
      exact ⟨a :: acts, N', by rw [run_cons hstep, hrun], hfin⟩
    by_cases hsends : ∃ r < S.size, (N.node r).sends ≠ 0
    · obtain ⟨r, hr, hne⟩ := hsends
      obtain ⟨j, hj⟩ := Nat.exists_eq_succ_of_ne_zero hne
      have hstep : N.step S.size S.proc (.sent r) =
          some (N.setNode r { N.node r with sends := j }) := by rw [Net.step, hj]
      have hctl (q) : ((N.setNode r { N.node r with sends := j }).node q).ctl = (N.node q).ctl := by
        rcases eq_or_ne q r with rfl | hq
        · simp [Net.setNode]
        · simp [Net.setNode, hq]
      exact hone _ _ hstep hctl (h.lighter hS hlive hstep (fun _ => rfl) hr hctl
        (fun q hq => by simp [Net.setNode, hq]) (by simp [Net.setNode, hj]))
    by_cases harrive : ∃ r < S.size, ∃ p ∈ (N.node r).recvs, N.chan p.src r ≠ []
    · obtain ⟨r, hr, p, hp, hne⟩ := harrive
      obtain ⟨vals, msgs, hchan⟩ := List.exists_cons_of_ne_nil hne
      obtain ⟨q, qs, htake⟩ := takeFrom_isSome ⟨p, hp, rfl⟩
      have hlen : (N.node r).recvs.length = qs.length + 1 := by
        obtain ⟨l₁, l₂, hrecvs, rfl, -⟩ := takeFrom_eq_some htake
        simp [hrecvs, Nat.add_assoc]
      have hstep : N.step S.size S.proc (.deliver p.src r) = some ((N.setNode r { N.node r with
          mem := writeCells q.dst vals (N.node r).mem, recvs := qs }).setChan p.src r msgs) := by
        rw [Net.step, hchan, htake]
      have hctl (u) : (((N.setNode r { N.node r with
          mem := writeCells q.dst vals (N.node r).mem, recvs := qs }).setChan p.src r msgs).node
            u).ctl = (N.node u).ctl := by
        rcases eq_or_ne u r with rfl | hu
        · simp [Net.setNode, Net.setChan]
        · simp [Net.setNode, Net.setChan, hu]
      exact hone _ _ hstep hctl (h.lighter hS hlive hstep (fun _ => rfl) hr hctl
        (fun q hq => by simp [Net.setNode, Net.setChan, hq])
        (by simp [Net.setNode, Net.setChan, hlen]))
    push Not at hsends harrive
    by_cases hgo : ∃ r < S.size, (∃ st, (N.node r).ctl = .waiting st) ∧ (N.node r).recvs = []
    · obtain ⟨r, hr, ⟨st, hst⟩, hnil⟩ := hgo
      obtain ⟨acts, N₁, gs₁, hrun, h₁, hother, hself, hlt⟩ :=
        h.resume hS hlive hr hst hnil (hsends r hr)
      have hset₁ (q) (hq : q < S.size) : (N₁.node q).ctl.Settled := by
        rcases eq_or_ne q r with rfl | hne
        · exact hself
        · rw [hother q hne]
          exact hset q hq
      obtain ⟨acts', N', hrun', hfin⟩ := ih _ hlt h₁ hset₁ rfl
      exact ⟨acts ++ acts', N', by rw [run_append hrun, hrun'], hfin⟩
    push Not at hgo
    obtain ⟨⟨_, _, hok⟩, -⟩ := h
    exact ⟨[], N, rfl, all_finished hpaced hout hfinal hok hset
      (fun r hr st hst => hgo r hr ⟨st, hst⟩) harrive⟩

end Main

end Spec

/-! ### All ranks -/

/-- A program that follows a trace goes to its end, one message after the other. -/
theorem Prog.wp.suffix {p : Prog ι β α} {Q : α → Ghost ι β → Prop} : ∀ {g : Ghost ι β},
    p.wp Q g → p.wp (fun a g' => Q a g' ∧ g'.todo <:+ g.todo) g := by
  induction p with
  | pure a => exact fun h => ⟨h, List.suffix_rfl⟩
  | isend d src next ih =>
    rintro g ⟨hf, k, rest, ht, hk, h⟩
    refine ⟨hf, k, rest, ht, hk, (ih h).imp fun a g' h' => ⟨h'.1, h'.2.trans ?_⟩⟩
    rw [ht]
    exact List.suffix_cons ..
  | irecv hd s dst next ih =>
    rintro g ⟨hf, v, k, rest, ht, hl, h⟩
    refine ⟨hf, v, k, rest, ht, hl, (ih h).imp fun a g' h' => ⟨h'.1, h'.2.trans ?_⟩⟩
    rw [ht]
    exact List.suffix_cons ..
  | zip f src dst next ih => exact fun ⟨hs, hd, h⟩ => ⟨hs, hd, ih h⟩
  | testall next ih => exact fun ⟨h, h'⟩ => ⟨ih _ h, ih _ h'⟩
  | test hd next ih => exact fun ⟨h, h'⟩ => ⟨ih _ h, ih _ h'⟩

/-- Lively ranks that follow traces made of rounds: from every state of a run all of them come to
    their end. -/
theorem finished_live {n K : ℕ} {proc : ℕ → Proc ι β σ} {mem : ℕ → ι → β}
    {trace : ℕ → List (Event β)} {post : ℕ → σ → (ι → β) → Set ℕ → Prop} {G : ℕ → σ → Prop}
    {μ : ℕ → σ → ℕ} (hpaced : Paced K trace) (hout : ∀ r, n ≤ r → trace r = [])
    (hmeets : ∀ r < n, (proc r).Meets (post r) ⟨mem r, [], trace r, {r}⟩)
    (hlive : ∀ r < n, (proc r).Lively (G r) (μ r)) {acts : List Act} {N : Net ι β σ}
    (hrun : (Net.init mem).run n proc acts = some N) :
    ∃ acts' N', N.run n proc acts' = some N' ∧ ∀ r < n, ∃ st, N'.FinishedIn r st := by
  choose! inv hinv using hmeets
  let S : Spec ι β σ :=
    ⟨n, proc, mem, trace, fun r st g => inv r st g ∧ g.todo <:+ trace r, post⟩
  have hS (r) (hr : r < S.size) : (S.proc r).Follows (S.inv r) (S.post r) (S.ghost r) := by
    refine ⟨(hinv r hr).trigger.suffix.imp fun st g h => ⟨⟨h.1.1, h.2⟩, h.1.2⟩, fun st g hst => ?_⟩
    exact ((hinv r hr).progress st g hst.1).suffix.imp fun st' g' h =>
      ⟨⟨h.1.1, h.2.trans hst.2⟩, h.1.2⟩
  obtain ⟨gs, h⟩ := Spec.reached_run hS hlive (Spec.reached_init hpaced.matched) hrun
  obtain ⟨acts₁, N₁, gs₁, hrun₁, h₁, hset⟩ := Spec.exists_settled hS hlive h n le_rfl
  obtain ⟨acts₂, N₂, hrun₂, hfin⟩ :=
    Spec.exists_finished hS hlive hpaced hout (fun _ _ _ h => h.2) _ h₁ hset rfl
  exact ⟨acts₁ ++ acts₂, N₂, by rw [run_append hrun₁, hrun₂], hfin⟩

end Kucg.Lib
