import Kucg.Lib.Network

/-! Schedules: the commands that a rank executes from start to end, however often it is called.

    A program that can be interrupted and called again keeps flags and iterators to find its place.
    `Prog.Exec` says that a program executes the next part of a schedule, whatever its tests return,
    and where it leaves off. What holds of the schedule, a plain list, then holds of the program:
    the schedule follows a trace (`Sched.wp`), so the program does (`Prog.Exec.wp`). -/

namespace Kucg.Lib

/-- A command. A rank that waits goes on when all that it has posted is over; at a pause it may be
    interrupted. -/
inductive Cmd (ι β : Type) where
  | send (dst : ℕ) (src : List ι)
  | recv (handle src : ℕ) (dst : List ι)
  | zip (f : β → β → β) (src dst : List ι)
  | wait
  | pause

/-- The commands of a rank. -/
abbrev Sched (ι β : Type) := List (Cmd ι β)

variable {ι β α γ σ : Type}

/-- The schedule behind its first pauses. -/
def Sched.skip : Sched ι β → Sched ι β
  | .pause :: cs => Sched.skip cs
  | cs => cs

section Skip

variable {d h s : ℕ} {src dst : List ι} {f : β → β → β} {cs : Sched ι β}

@[simp] theorem skip_nil : Sched.skip ([] : Sched ι β) = [] := rfl
@[simp] theorem skip_pause : Sched.skip (.pause :: cs) = Sched.skip cs := rfl
@[simp] theorem skip_send : Sched.skip (.send d src :: cs) = .send d src :: cs := rfl
@[simp] theorem skip_recv : Sched.skip (.recv h s dst :: cs) = .recv h s dst :: cs := rfl
@[simp] theorem skip_zip : Sched.skip (.zip f src dst :: cs) = .zip f src dst :: cs := rfl
@[simp] theorem skip_wait : Sched.skip (.wait :: cs) = .wait :: cs := rfl

end Skip

/-- A place where a rank may be interrupted. -/
def Sched.AtStop : Sched ι β → Prop
  | [] | .wait :: _ | .pause :: _ => True
  | _ => False

/-! ### Programs that execute a schedule -/

/-- The program executes the beginning of the schedule and ends with `K`, which is told whether
    anything has been done, or a test has failed. A test that succeeds may be the one that the
    schedule waits for. -/
def Prog.Exec (K : Bool → α → Sched ι β → Prop) : Prog ι β α → Bool → Sched ι β → Prop
  | .pure a, moved, cs => K moved a cs
  | .isend d src next, _, cs => ∃ cs', cs.skip = .send d src :: cs' ∧ next.Exec K true cs'
  | .irecv h s dst next, _, cs => ∃ cs', cs.skip = .recv h s dst :: cs' ∧ next.Exec K true cs'
  | .zip f src dst next, _, cs => ∃ cs', cs.skip = .zip f src dst :: cs' ∧ next.Exec K true cs'
  | .testall next, moved, cs => (next false).Exec K true cs ∧
      ((next true).Exec K moved cs ∨ ∃ cs', cs.skip = .wait :: cs' ∧ (next true).Exec K true cs')
  | .test _ next, moved, cs => (next false).Exec K true cs ∧ (next true).Exec K moved cs

@[simp] theorem exec_pure {K : Bool → α → Sched ι β → Prop} {a : α} {moved : Bool}
    {cs : Sched ι β} : (pure a : Prog ι β α).Exec K moved cs ↔ K moved a cs := Iff.rfl

@[simp] theorem exec_bind {K : Bool → γ → Sched ι β → Prop} {p : Prog ι β α}
    {f : α → Prog ι β γ} : ∀ {moved : Bool} {cs : Sched ι β}, (p >>= f).Exec K moved cs ↔
      p.Exec (fun moved a cs => (f a).Exec K moved cs) moved cs := by
  change ∀ {moved cs}, (p.bind f).Exec K moved cs ↔ _
  induction p with
  | pure a => exact Iff.rfl
  | isend d src next ih => simp only [Prog.bind, Prog.Exec, ih, implies_true]
  | irecv h s dst next ih => simp only [Prog.bind, Prog.Exec, ih, implies_true]
  | zip op src dst next ih => simp only [Prog.bind, Prog.Exec, ih, implies_true]
  | testall next ih => simp only [Prog.bind, Prog.Exec, ih, implies_true]
  | test h next ih => simp only [Prog.bind, Prog.Exec, ih, implies_true]

theorem Prog.Exec.imp {p : Prog ι β α} {K K' : Bool → α → Sched ι β → Prop}
    (hK : ∀ moved a cs, K moved a cs → K' moved a cs) :
    ∀ {moved : Bool} {cs : Sched ι β}, p.Exec K moved cs → p.Exec K' moved cs := by
  induction p with
  | pure a => exact fun h => hK _ a _ h
  | isend d src next ih => exact fun ⟨cs', hcs, h⟩ => ⟨cs', hcs, ih h⟩
  | irecv h s dst next ih => exact fun ⟨cs', hcs, h⟩ => ⟨cs', hcs, ih h⟩
  | zip op src dst next ih => exact fun ⟨cs', hcs, h⟩ => ⟨cs', hcs, ih h⟩
  | testall next ih =>
    exact fun ⟨h, h'⟩ => ⟨ih _ h, h'.imp (ih _) fun ⟨cs', hcs, h⟩ => ⟨cs', hcs, ih _ h⟩⟩
  | test h next ih => exact fun ⟨h, h'⟩ => ⟨ih _ h, ih _ h'⟩

/-! ### Schedules that follow a trace -/

section Wp

variable [DecidableEq ι]

/-- The schedule follows the trace of the ghost state and ends with `Q`. -/
def Sched.wp (Q : Ghost ι β → Prop) : Sched ι β → Ghost ι β → Prop
  | [], g => Q g
  | .send d src :: cs, g => (∀ i ∈ src, g.Free i) ∧ ∃ know rest,
      g.todo = .send d (src.map g.mem) know :: rest ∧ know ⊆ g.know ∧
      Sched.wp Q cs { g with todo := rest }
  | .recv h s dst :: cs, g => (∀ i ∈ dst, g.Free i) ∧ ∃ vals know rest,
      g.todo = .recv s vals know :: rest ∧ vals.length ≤ dst.length ∧
      Sched.wp Q cs { g with
        mem := writeCells dst vals g.mem, pend := g.pend ++ [⟨h, dst.take vals.length, know⟩],
        todo := rest }
  | .zip f src dst :: cs, g => (∀ i ∈ src, g.Free i) ∧ (∀ i ∈ dst, g.Free i) ∧
      Sched.wp Q cs { g with mem := zipCells f src dst g.mem }
  | .wait :: cs, g => Sched.wp Q cs g.doneAll
  | .pause :: cs, g => Sched.wp Q cs g

@[simp] theorem schedWp_append {Q : Ghost ι β → Prop} {cs' : Sched ι β} :
    ∀ {cs : Sched ι β} {g : Ghost ι β},
      Sched.wp Q (cs ++ cs') g ↔ Sched.wp (fun g => Sched.wp Q cs' g) cs g
  | [], _ => Iff.rfl
  | .send .. :: _, _ | .recv .. :: _, _ | .zip .. :: _, _ | .wait :: _, _ | .pause :: _, _ => by
    simp only [List.cons_append, Sched.wp, schedWp_append]

theorem Sched.wp_skip {Q : Ghost ι β → Prop} : ∀ {cs : Sched ι β} {g : Ghost ι β},
    Sched.wp Q cs.skip g ↔ Sched.wp Q cs g
  | [], _ => Iff.rfl
  | .pause :: cs, _ => by
    rw [skip_pause, Sched.wp_skip, Sched.wp]
  | .send .. :: _, _ | .recv .. :: _, _ | .zip .. :: _, _ | .wait :: _, _ => Iff.rfl

theorem Sched.wp_imp {Q Q' : Ghost ι β → Prop} (hQ : ∀ g, Q g → Q' g) :
    ∀ {l : Sched ι β} {g : Ghost ι β}, Sched.wp Q l g → Sched.wp Q' l g
  | [], g, h => hQ g h
  | .send .. :: _, _, ⟨hf, k, rest, ht, hk, h⟩ => ⟨hf, k, rest, ht, hk, Sched.wp_imp hQ h⟩
  | .recv .. :: _, _, ⟨hf, v, k, rest, ht, hl, h⟩ => ⟨hf, v, k, rest, ht, hl, Sched.wp_imp hQ h⟩
  | .zip .. :: _, _, ⟨hs, hd, h⟩ => ⟨hs, hd, Sched.wp_imp hQ h⟩
  | .wait :: cs, _, h => Sched.wp_imp (l := cs) hQ h
  | .pause :: cs, _, h => Sched.wp_imp (l := cs) hQ h

/-- In `g'` less is under way than in `g`, and no less is known. -/
structure Ghost.Le (g g' : Ghost ι β) : Prop where
  mem : g'.mem = g.mem
  todo : g'.todo = g.todo
  pend : ∀ p ∈ g'.pend, p ∈ g.pend
  know : g.know ⊆ g'.know
  learn : g.learn g.pend ⊆ g'.learn g'.pend

omit [DecidableEq ι] in
theorem Ghost.Le.free {g g' : Ghost ι β} (h : g.Le g') {i : ι} (hf : g.Free i) : g'.Free i :=
  fun p hp => hf p (h.pend p hp)

omit [DecidableEq ι] in
theorem Ghost.le_doneAll (g : Ghost ι β) : g.Le g.doneAll :=
  ⟨rfl, rfl, fun _ h => absurd h List.not_mem_nil, g.know_subset_learn _,
    (Ghost.learn_doneAll g).ge⟩

omit [DecidableEq ι] in
theorem Ghost.le_done (g : Ghost ι β) (h : ℕ) : g.Le (g.done h) where
  mem := rfl
  todo := rfl
  pend p hp := (List.mem_filter.mp hp).1
  know := g.know_subset_learn _
  learn := by
    rintro q (hq | ⟨p, hp, hq⟩)
    · exact Or.inl (Or.inl hq)
    · by_cases hh : p.handle = h
      · exact Or.inl (Or.inr ⟨p, List.mem_filter.mpr ⟨hp, by simpa using hh⟩, hq⟩)
      · exact Or.inr ⟨p, List.mem_filter.mpr ⟨hp, by simpa using hh⟩, hq⟩

omit [DecidableEq ι] in
theorem Ghost.Le.doneAll {g g' : Ghost ι β} (h : g.Le g') : g.doneAll.Le g'.doneAll where
  mem := h.mem
  todo := h.todo
  pend _ hp := absurd hp List.not_mem_nil
  know := h.learn
  learn := by
    rw [Ghost.learn_doneAll, Ghost.learn_doneAll]
    exact h.learn

/-- The condition is kept when less is under way. -/
def Stable (Q : Ghost ι β → Prop) : Prop := ∀ g g' : Ghost ι β, g.Le g' → Q g → Q g'

theorem Sched.wp_le {Q : Ghost ι β → Prop} (hQ : Stable Q) :
    ∀ {l : Sched ι β} {g g' : Ghost ι β}, g.Le g' → Sched.wp Q l g → Sched.wp Q l g'
  | [], g, g', hle, h => hQ g g' hle h
  | .send .. :: _, g, g', hle, ⟨hf, k, rest, ht, hk, h⟩ => by
    refine ⟨fun i hi => hle.free (hf i hi), k, rest, by rw [hle.todo, ht, hle.mem],
      hk.trans hle.know, Sched.wp_le hQ ?_ h⟩
    exact ⟨hle.mem, rfl, hle.pend, hle.know, hle.learn⟩
  | .recv hd s dst :: _, g, g', hle, ⟨hf, v, k, rest, ht, hl, h⟩ => by
    refine ⟨fun i hi => hle.free (hf i hi), v, k, rest, by rw [hle.todo, ht], hl,
      Sched.wp_le hQ ?_ h⟩
    refine ⟨by rw [hle.mem], rfl, fun p hp => ?_, hle.know, ?_⟩
    · exact List.mem_append.mpr ((List.mem_append.mp hp).imp_left (hle.pend p))
    · rintro q (hq | ⟨p, hp, hq⟩)
      · exact Or.inl (hle.know hq)
      · rcases List.mem_append.mp hp with hp | hp
        · rcases hle.learn (Or.inr ⟨p, hp, hq⟩) with hq | ⟨p', hp', hq⟩
          · exact Or.inl hq
          · exact Or.inr ⟨p', List.mem_append_left _ hp', hq⟩
        · exact Or.inr ⟨p, List.mem_append_right _ hp, hq⟩
  | .zip .. :: _, g, g', hle, ⟨hs, hd, h⟩ => by
    refine ⟨fun i hi => hle.free (hs i hi), fun i hi => hle.free (hd i hi),
      Sched.wp_le hQ ?_ h⟩
    exact ⟨by rw [hle.mem], hle.todo, hle.pend, hle.know, hle.learn⟩
  | .wait :: cs, g, g', hle, h => Sched.wp_le (l := cs) hQ hle.doneAll h
  | .pause :: cs, g, g', hle, h => Sched.wp_le (l := cs) hQ hle h

/-- A program that executes a schedule follows the trace that the schedule follows. -/
theorem Prog.Exec.wp {Q : Ghost ι β → Prop} (hQ : Stable Q) {p : Prog ι β α}
    {K : Bool → α → Sched ι β → Prop} : ∀ {moved : Bool} {cs : Sched ι β} {g : Ghost ι β},
      p.Exec K moved cs → Sched.wp Q cs g →
      p.wp (fun a g => ∃ moved cs, K moved a cs ∧ Sched.wp Q cs g) g := by
  induction p with
  | pure a => exact fun hK h => ⟨_, _, hK, h⟩
  | isend d src next ih =>
    rintro moved cs g ⟨cs', hcs, hnext⟩ h
    rw [← Sched.wp_skip, hcs] at h
    obtain ⟨hf, k, rest, ht, hk, h⟩ := h
    exact ⟨hf, k, rest, ht, hk, ih hnext h⟩
  | irecv hd s dst next ih =>
    rintro moved cs g ⟨cs', hcs, hnext⟩ h
    rw [← Sched.wp_skip, hcs] at h
    obtain ⟨hf, v, k, rest, ht, hl, h⟩ := h
    exact ⟨hf, v, k, rest, ht, hl, ih hnext h⟩
  | zip f src dst next ih =>
    rintro moved cs g ⟨cs', hcs, hnext⟩ h
    rw [← Sched.wp_skip, hcs] at h
    obtain ⟨hs, hd, h⟩ := h
    exact ⟨hs, hd, ih hnext h⟩
  | testall next ih =>
    rintro moved cs g ⟨hfalse, htrue⟩ h
    refine ⟨?_, ih _ hfalse h⟩
    rcases htrue with htrue | ⟨cs', hcs, htrue⟩
    · exact ih _ htrue (Sched.wp_le hQ g.le_doneAll h)
    · rw [← Sched.wp_skip, hcs] at h
      exact ih _ htrue h
  | test hd next ih =>
    rintro moved cs g ⟨hfalse, htrue⟩ h
    exact ⟨ih _ htrue (Sched.wp_le hQ (g.le_done hd) h), ih _ hfalse h⟩

end Wp

/-! ### Procedures that execute a schedule -/

/-- Where a call may end: at a stop, having done something, or at the end. -/
def Proc.Leaf (pr : Proc ι β σ) (Rel : σ → Sched ι β → Prop) (moved : Bool) (st : σ)
    (cs : Sched ι β) : Prop :=
  Rel st cs ∧ (pr.active st = true ∧ moved = true ∧ cs.AtStop ∨ pr.active st = false ∧ cs = [])

/-- The procedure executes the schedule; `Rel` tells what is left of it in a state. -/
structure Proc.Runs (pr : Proc ι β σ) (Rel : σ → Sched ι β → Prop) (cs₀ : Sched ι β) : Prop where
  trigger : pr.trigger.Exec (pr.Leaf Rel) true cs₀
  progress : ∀ st cs, Rel st cs → (pr.progress st).Exec (pr.Leaf Rel) false cs

end Kucg.Lib
