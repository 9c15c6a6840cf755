import Kucg.Lib.Gather
import Mathlib.Algebra.BigOperators.Intervals
import Mathlib.Algebra.Order.BigOperators.Group.Finset

/-! Ranks that write into each other's memory and notify each other by counting events.

    Every rank executes a list of tasks in order. A put copies cells of the own memory to cells of
    a peer and may raise an event there; it never blocks. A wait consumes one notification of an
    own event and blocks while there is none. `Fabric.step` is one task of one rank, so that a list
    of ranks is an interleaving.

    How far the ranks are determines the counters (`pending_add_consumed`). So a wait that is over
    has behind it the put that it is matched with (`PutBefore.done`), and what is to be shown about
    runs becomes a question about how far the ranks can be apart: which cells hold their final
    contents (`goal_of_mem_holds`), whether somebody can go on (`exists_enabled`), and whether an
    event is raised twice. -/

namespace Kucg.Lib

open Finset

/-- A task of a rank. -/
inductive StreamTask (κ : Type) where
  | put (peer : ℕ) (event : Option ℕ) (src dst : List κ)
  | wait (event : ℕ)

namespace StreamTask

variable {κ : Type}

/-- The task raises event `e` of rank `q`. -/
def raises (q e : ℕ) : StreamTask κ → Bool
  | .put p ev _ _ => p == q && ev == some e
  | .wait _ => false

/-- The task waits on event `e`. -/
def awaits (e : ℕ) : StreamTask κ → Bool
  | .put _ _ _ _ => false
  | .wait e' => e' == e

@[simp] theorem raises_put {q e p : ℕ} {ev : Option ℕ} {src dst : List κ} :
    (put p ev src dst).raises q e = true ↔ p = q ∧ ev = some e := by
  simp [raises]

@[simp] theorem raises_wait {q e e' : ℕ} : (wait e' : StreamTask κ).raises q e = false := rfl

@[simp] theorem awaits_put {e p : ℕ} {ev : Option ℕ} {src dst : List κ} :
    (put p ev src dst).awaits e = false := rfl

@[simp] theorem awaits_wait {e e' : ℕ} : (wait e' : StreamTask κ).awaits e = true ↔ e' = e := by
  simp [awaits]

/-- The task without its cells. -/
def bare : StreamTask κ → StreamTask Empty
  | .put p ev _ _ => .put p ev [] []
  | .wait e => .wait e

theorem bare_eq_put {q : ℕ} {ev : Option ℕ} {t : StreamTask κ} (h : t.bare = .put q ev [] []) :
    ∃ src dst, t = .put q ev src dst := by
  cases t with
  | put p ev' src dst =>
    rw [bare, put.injEq] at h
    exact ⟨src, dst, by rw [h.1, h.2.1]⟩
  | wait e => cases h

theorem bare_eq_wait {e : ℕ} {t : StreamTask κ} (h : t.bare = .wait e) : t = .wait e := by
  cases t with
  | put p ev src dst => cases h
  | wait e' => rw [(wait.inj h : e' = e)]

theorem raises_iff {q e : ℕ} {t : StreamTask κ} :
    t.raises q e = true ↔ ∃ src dst, t = .put q (some e) src dst := by
  cases t <;> simp

theorem awaits_iff {e : ℕ} {t : StreamTask κ} : t.awaits e = true ↔ t = .wait e := by
  cases t <;> simp

end StreamTask

/-- How many tasks each rank has done, the notifications not yet consumed of each event of each
    rank, and the memories. -/
structure Fabric (κ β : Type) where
  done : ℕ → ℕ
  pending : ℕ → ℕ → ℕ
  mem : ℕ → κ → β

/-- One more at `i`. -/
def bump (f : ℕ → ℕ) (i : ℕ) : ℕ → ℕ := Function.update f i (f i + 1)

theorem bump_self {f : ℕ → ℕ} {i : ℕ} : bump f i i = f i + 1 := Function.update_self ..

theorem bump_of_ne {f : ℕ → ℕ} {i j : ℕ} (h : j ≠ i) : bump f i j = f j :=
  Function.update_of_ne h ..

theorem le_bump {f : ℕ → ℕ} {i j : ℕ} : f j ≤ bump f i j := by
  rcases eq_or_ne j i with rfl | h
  · exact bump_self ▸ Nat.le_succ _
  · exact (bump_of_ne h).ge

namespace Fabric

variable {κ β : Type} [DecidableEq κ]

/-- Rank `r` executes a task. -/
def exec (F : Fabric κ β) (r : ℕ) : StreamTask κ → Option (Fabric κ β)
  | .put q ev src dst => some
      { done := bump F.done r
        pending := fun q' e => if q' = q ∧ ev = some e then F.pending q' e + 1 else F.pending q' e
        mem := Function.update F.mem q (writeCells dst (src.map (F.mem r)) (F.mem q)) }
  | .wait e =>
    if 0 < F.pending r e then some
      { F with
        done := bump F.done r
        pending := fun q' e' => if q' = r ∧ e' = e then F.pending q' e' - 1 else F.pending q' e' }
    else none

/-- Rank `r` of `n` ranks executes its next task. -/
def step (n : ℕ) (prog : ℕ → List (StreamTask κ)) (F : Fabric κ β) (r : ℕ) : Option (Fabric κ β) :=
  if r < n then (prog r)[F.done r]?.bind (F.exec r) else none

/-- An interleaving. -/
def run (n : ℕ) (prog : ℕ → List (StreamTask κ)) (F : Fabric κ β) (rs : List ℕ) :
    Option (Fabric κ β) :=
  rs.foldlM (step n prog) F

/-- Before the first task. -/
def init (m₀ : ℕ → κ → β) : Fabric κ β := ⟨fun _ => 0, fun _ _ => 0, m₀⟩

/-- Some interleaving leads there. -/
inductive Reachable (n : ℕ) (prog : ℕ → List (StreamTask κ)) (m₀ : ℕ → κ → β) :
  Fabric κ β → Prop where
  | init : Reachable n prog m₀ (init m₀)
  | step {F F' : Fabric κ β} {r : ℕ} : Reachable n prog m₀ F → step n prog F r = some F' →
    Reachable n prog m₀ F'

/-- All ranks have done all of their tasks. -/
def Finished (n : ℕ) (prog : ℕ → List (StreamTask κ)) (F : Fabric κ β) : Prop :=
  ∀ r < n, F.done r = (prog r).length

variable {n : ℕ} {prog : ℕ → List (StreamTask κ)} {m₀ : ℕ → κ → β} {F F' : Fabric κ β} {r q e : ℕ}

/-- What a step is. -/
theorem step_cases (h : step n prog F r = some F') : r < n ∧
    ((∃ q ev src dst, (prog r)[F.done r]? = some (.put q ev src dst) ∧
        F'.done = bump F.done r ∧
        (∀ q' e, F'.pending q' e =
          if q' = q ∧ ev = some e then F.pending q' e + 1 else F.pending q' e) ∧
        F'.mem = Function.update F.mem q (writeCells dst (src.map (F.mem r)) (F.mem q))) ∨
      ∃ e, (prog r)[F.done r]? = some (.wait e) ∧ 0 < F.pending r e ∧
        F'.done = bump F.done r ∧
        (∀ q' e', F'.pending q' e' =
          if q' = r ∧ e' = e then F.pending q' e' - 1 else F.pending q' e') ∧ F'.mem = F.mem) := by
  rw [step] at h
  split_ifs at h with hr
  refine ⟨hr, ?_⟩
  obtain ⟨t, ht, hx⟩ := Option.bind_eq_some_iff.mp h
  cases t with
  | put q ev src dst =>
    obtain rfl := Option.some.inj hx
    exact Or.inl ⟨q, ev, src, dst, ht, rfl, fun _ _ => rfl, rfl⟩
  | wait e =>
    rw [exec] at hx
    split_ifs at hx with hp
    obtain rfl := Option.some.inj hx
    exact Or.inr ⟨e, ht, hp, rfl, fun _ _ => rfl, rfl⟩

theorem Reachable.run :
    ∀ {rs : List ℕ} {F : Fabric κ β}, Reachable n prog m₀ F → run n prog F rs = some F' →
      Reachable n prog m₀ F'
  | [], _, h, hr => Option.some.inj hr ▸ h
  | r :: rs, F, h, hr => by
    rw [Fabric.run, List.foldlM_cons] at hr
    obtain ⟨F₁, h₁, hr⟩ := Option.bind_eq_some_iff.mp hr
    exact (h.step h₁).run hr

/-- Only the programs of the `n` ranks matter. -/
theorem step_congr {prog' : ℕ → List (StreamTask κ)} (h : ∀ p < n, prog p = prog' p) :
    step n prog F r = step n prog' F r := by
  rw [step, step]
  split_ifs with hr
  · rw [h r hr]
  · rfl

theorem Reachable.congr {prog' : ℕ → List (StreamTask κ)} (h : ∀ p < n, prog p = prog' p)
    (hF : Reachable n prog m₀ F) : Reachable n prog' m₀ F := by
  induction hF with
  | init => exact .init
  | step _ hs ih => exact ih.step (step_congr h ▸ hs)

omit [DecidableEq κ] in
theorem Finished.congr {prog' : ℕ → List (StreamTask κ)} (h : ∀ p < n, prog p = prog' p)
    (hF : F.Finished n prog) : F.Finished n prog' := fun r hr => h r hr ▸ hF r hr

theorem Reachable.done_le (h : Reachable n prog m₀ F) : F.done r ≤ (prog r).length := by
  induction h with
  | init => exact Nat.zero_le _
  | @step F F' p _ hs ih =>
    have hdone : F'.done = bump F.done p ∧ F.done p < (prog p).length := by
      obtain ⟨-, ⟨_, _, _, _, ht, hd, -, -⟩ | ⟨_, ht, -, hd, -, -⟩⟩ := step_cases hs <;>
        exact ⟨hd, (List.getElem?_eq_some_iff.mp ht).1⟩
    rw [hdone.1]
    rcases eq_or_ne r p with rfl | hne
    · exact bump_self ▸ hdone.2
    · exact (bump_of_ne hne).symm ▸ ih

end Fabric

/-! ### The counters -/

section Counters

variable {κ β : Type} {n : ℕ} {prog : ℕ → List (StreamTask κ)} {q e : ℕ}

/-- How often event `e` of rank `q` has been raised when the ranks have done `c` tasks. -/
def raised (n : ℕ) (prog : ℕ → List (StreamTask κ)) (q e : ℕ) (c : ℕ → ℕ) : ℕ :=
  ∑ p ∈ range n, ((prog p).take (c p)).countP (StreamTask.raises q e)

/-- How often rank `q` has waited on it. -/
def consumed (prog : ℕ → List (StreamTask κ)) (q e : ℕ) (c : ℕ → ℕ) : ℕ :=
  ((prog q).take (c q)).countP (StreamTask.awaits e)

theorem countP_take_succ {P : StreamTask κ → Bool} {l : List (StreamTask κ)} {i : ℕ}
    {t : StreamTask κ}
    (h : l[i]? = some t) :
    (l.take (i + 1)).countP P = (l.take i).countP P + if P t then 1 else 0 := by
  rw [List.take_add_one, h, Option.toList_some, List.countP_append, List.countP_singleton]

theorem countP_take_bump {P : StreamTask κ → Bool} {c : ℕ → ℕ} {r p : ℕ} {t : StreamTask κ}
    (h : (prog r)[c r]? = some t) : ((prog p).take (bump c r p)).countP P =
      ((prog p).take (c p)).countP P + if p = r ∧ P t then 1 else 0 := by
  rcases eq_or_ne p r with rfl | hne
  · simp [bump_self, countP_take_succ h]
  · simp [bump_of_ne hne, hne]

theorem raised_bump {c : ℕ → ℕ} {r : ℕ} {t : StreamTask κ} (hr : r < n)
    (h : (prog r)[c r]? = some t) :
    raised n prog q e (bump c r) = raised n prog q e c + if t.raises q e then 1 else 0 := by
  have hsum : ∑ p ∈ range n, (if p = r ∧ t.raises q e then 1 else 0) =
      if t.raises q e then 1 else 0 := by
    rw [sum_eq_single_of_mem r (mem_range.mpr hr) fun p _ hp => by simp [hp]]
    simp
  rw [raised, raised, ← hsum, ← sum_add_distrib]
  exact sum_congr rfl fun p _ => countP_take_bump h

theorem raised_mono {c c' : ℕ → ℕ} (h : ∀ p < n, c p ≤ c' p) :
    raised n prog q e c ≤ raised n prog q e c' :=
  sum_le_sum fun p hp => (List.take_prefix_take_left (h p (mem_range.mp hp))).sublist.countP_le

variable [DecidableEq κ] {m₀ : ℕ → κ → β} {F : Fabric κ β}

namespace Fabric

/-- A notification is pending or consumed. -/
theorem Reachable.pending_add_consumed (h : Reachable n prog m₀ F) :
    F.pending q e + consumed prog q e F.done = raised n prog q e F.done := by
  induction h with
  | init => simp [Fabric.init, consumed, raised]
  | @step F F' r _ hs ih =>
    obtain ⟨hr, ⟨p, ev, src, dst, ht, hd, hp, -⟩ | ⟨e', ht, hpos, hd, hp, -⟩⟩ := step_cases hs
    · rw [hd, hp, raised_bump hr ht, consumed, countP_take_bump ht, ← consumed, ← ih]
      by_cases hq : q = p ∧ ev = some e
      · simp [hq, Nat.add_right_comm]
      · rw [if_neg hq, if_neg (by simp),
          if_neg (by rw [StreamTask.raises_put]; exact fun ⟨h₁, h₂⟩ => hq ⟨h₁.symm, h₂⟩)]
        rfl
    · rw [hd, hp, raised_bump hr ht, consumed, countP_take_bump ht, ← consumed]
      by_cases hq : q = r ∧ e = e'
      · obtain ⟨rfl, rfl⟩ := hq
        simp only [StreamTask.awaits_wait, StreamTask.raises_wait, and_self, if_true,
          Bool.false_eq_true,
          if_false]
        omega
      · rw [if_neg hq,
          if_neg (by rw [StreamTask.awaits_wait]; exact fun ⟨h₁, h₂⟩ => hq ⟨h₁, h₂.symm⟩),
          if_neg (by simp)]
        exact ih

theorem Reachable.consumed_le_raised (h : Reachable n prog m₀ F) :
    consumed prog q e F.done ≤ raised n prog q e F.done :=
  h.pending_add_consumed ▸ Nat.le_add_left _ _

end Fabric

end Counters

/-! ### The contents of the cells -/

section Contents

variable {κ β : Type} {n : ℕ} {prog : ℕ → List (StreamTask κ)} {own : ℕ → Set κ}

/-- The cells that rank `q` holds when the ranks have done `c` tasks: its own ones, and the ones
    written by puts. -/
def holds (n : ℕ) (prog : ℕ → List (StreamTask κ)) (own : ℕ → Set κ) (c : ℕ → ℕ) (q : ℕ) : Set κ :=
  {i | i ∈ own q ∨ ∃ p < n, ∃ j < c p, ∃ ev src dst,
    (prog p)[j]? = some (.put q ev src dst) ∧ i ∈ dst}

theorem holds_mono {c c' : ℕ → ℕ} (h : ∀ p, c p ≤ c' p) {q : ℕ} :
    holds n prog own c q ⊆ holds n prog own c' q := by
  rintro i (hi | ⟨p, hp, j, hj, hput⟩)
  · exact Or.inl hi
  · exact Or.inr ⟨p, hp, j, hj.trans_le (h p), hput⟩

/-- A task adds the cells that it writes. -/
theorem of_mem_holds_bump {c : ℕ → ℕ} {r q : ℕ} {t : StreamTask κ} {i : κ}
    (ht : (prog r)[c r]? = some t)
    (hi : i ∈ holds n prog own (bump c r) q) :
    i ∈ holds n prog own c q ∨ ∃ ev src dst, t = .put q ev src dst ∧ i ∈ dst := by
  rcases hi with hi | ⟨p, hp, j, hj, ev, src, dst, hput, hmem⟩
  · exact Or.inl (Or.inl hi)
  · rcases eq_or_ne p r with rfl | hpr
    · rw [bump_self] at hj
      rcases Nat.lt_succ_iff_lt_or_eq.mp hj with hj | rfl
      · exact Or.inl (Or.inr ⟨p, hp, j, hj, ev, src, dst, hput, hmem⟩)
      · rw [ht, Option.some.injEq] at hput
        exact Or.inr ⟨ev, src, dst, hput, hmem⟩
    · rw [bump_of_ne hpr] at hj
      exact Or.inl (Or.inr ⟨p, hp, j, hj, ev, src, dst, hput, hmem⟩)

/-- In the end, whatever is put anywhere is held there. -/
theorem mem_holds_of_finished {F : Fabric κ β} (hfin : F.Finished n prog) {p q : ℕ} (hp : p < n)
    {ev : Option ℕ} {src dst : List κ} (hmem : .put q ev src dst ∈ prog p) {i : κ} (hi : i ∈ dst) :
    i ∈ holds n prog own F.done q := by
  obtain ⟨j, hj⟩ := List.mem_iff_getElem?.mp hmem
  refine Or.inr ⟨p, hp, j, ?_, ev, src, dst, hj, hi⟩
  rw [hfin p hp]
  exact (List.getElem?_eq_some_iff.mp hj).1

variable [DecidableEq κ] {m₀ : ℕ → κ → β} {F : Fabric κ β}

/-- No put sends a cell that its rank does not hold. -/
def SendsHeld (n : ℕ) (prog : ℕ → List (StreamTask κ)) (m₀ : ℕ → κ → β) (own : ℕ → Set κ) : Prop :=
  ∀ F : Fabric κ β, F.Reachable n prog m₀ → ∀ p < n, ∀ q ev src dst,
    (prog p)[F.done p]? = some (.put q ev src dst) → ∀ i ∈ src, i ∈ holds n prog own F.done p

/-- No put raises an event with a notification still pending. -/
def NoOverrun (n : ℕ) (prog : ℕ → List (StreamTask κ)) (m₀ : ℕ → κ → β) : Prop :=
  ∀ F : Fabric κ β, F.Reachable n prog m₀ → ∀ p < n, ∀ q e src dst,
    (prog p)[F.done p]? = some (.put q (some e) src dst) → F.pending q e = 0

omit [DecidableEq κ] in
theorem holds_congr {prog' : ℕ → List (StreamTask κ)} (h : ∀ p < n, prog p = prog' p)
    {c : ℕ → ℕ} {q : ℕ} : holds n prog own c q = holds n prog' own c q := by
  ext i
  refine or_congr_right (exists_congr fun p => and_congr_right fun hp => ?_)
  rw [h p hp]

theorem SendsHeld.congr {prog' : ℕ → List (StreamTask κ)} (h : ∀ p < n, prog p = prog' p)
    (hs : SendsHeld n prog m₀ own) : SendsHeld n prog' m₀ own := by
  intro F hF p hp q ev src dst hnext i hi
  rw [← holds_congr h]
  exact hs F (hF.congr fun p hp => (h p hp).symm) p hp q ev src dst (h p hp ▸ hnext) i hi

theorem NoOverrun.congr {prog' : ℕ → List (StreamTask κ)} (h : ∀ p < n, prog p = prog' p)
    (hs : NoOverrun n prog m₀) : NoOverrun n prog' m₀ := by
  intro F hF p hp q e src dst hnext
  exact hs F (hF.congr fun p hp => (h p hp).symm) p hp q e src dst (h p hp ▸ hnext)

section Bare

variable {κ' β' : Type} [DecidableEq κ'] {prog' : ℕ → List (StreamTask κ')} {m₀' : ℕ → κ' → β'}

omit [DecidableEq κ] [DecidableEq κ'] in
theorem getElem?_of_bare (h : ∀ p < n, (prog p).map StreamTask.bare = (prog' p).map StreamTask.bare)
    {p i : ℕ} (hp : p < n) {t : StreamTask κ} (ht : (prog p)[i]? = some t) :
    ∃ t', (prog' p)[i]? = some t' ∧ t'.bare = t.bare := by
  have heq : ((prog p).map StreamTask.bare)[i]? = ((prog' p).map StreamTask.bare)[i]? := by
    rw [h p hp]
  rw [List.getElem?_map, List.getElem?_map, ht, Option.map_some, eq_comm,
    Option.map_eq_some_iff] at heq
  exact heq

variable (m₀') in
/-- What cells are put where makes no difference to the counters. -/
theorem Fabric.Reachable.bare {F : Fabric κ β} (hF : F.Reachable n prog m₀)
    (h : ∀ p < n, (prog p).map StreamTask.bare = (prog' p).map StreamTask.bare) :
    ∃ F' : Fabric κ' β', F'.Reachable n prog' m₀' ∧ F'.done = F.done ∧ F'.pending = F.pending := by
  induction hF with
  | init => exact ⟨.init m₀', .init, rfl, rfl⟩
  | @step F F₁ r _ hs ih =>
    obtain ⟨F', hF', hdone, hpending⟩ := ih
    obtain ⟨hr, ⟨q, ev, src, dst, ht, hd, hp, -⟩ | ⟨e, ht, hpos, hd, hp, -⟩⟩ :=
      Fabric.step_cases hs
    · obtain ⟨t', ht', hbare⟩ := getElem?_of_bare h hr ht
      obtain ⟨src', dst', rfl⟩ := StreamTask.bare_eq_put hbare
      have hstep : Fabric.step n prog' F' r = F'.exec r (.put q ev src' dst') := by
        rw [Fabric.step, if_pos hr, hdone, ht', Option.bind_some]
      refine ⟨_, hF'.step (hstep.trans rfl), ?_, ?_⟩
      · rw [hd, ← hdone]
      · funext q' e'
        rw [hp, ← hpending]
    · obtain ⟨t', ht', hbare⟩ := getElem?_of_bare h hr ht
      obtain rfl := StreamTask.bare_eq_wait hbare
      have hstep : Fabric.step n prog' F' r = F'.exec r (.wait e) := by
        rw [Fabric.step, if_pos hr, hdone, ht', Option.bind_some]
      refine ⟨_, hF'.step (hstep.trans (if_pos (hpending ▸ hpos))), ?_, ?_⟩
      · rw [hd, ← hdone]
      · funext q' e'
        rw [hp, ← hpending]

/-- So whether events are raised twice can be seen without the cells. -/
theorem NoOverrun.of_bare (hs : NoOverrun n prog m₀)
    (h : ∀ p < n, (prog p).map StreamTask.bare = (prog' p).map StreamTask.bare) :
    NoOverrun n prog' m₀' := by
  intro F' hF' p hp q e src' dst' hnext
  have hback := fun p hp => (h p hp).symm
  obtain ⟨F, hF, hdone, hpending⟩ := hF'.bare m₀ hback
  obtain ⟨t, ht, hbare⟩ := getElem?_of_bare hback hp hnext
  obtain ⟨src, dst, rfl⟩ := StreamTask.bare_eq_put hbare
  rw [← hpending]
  exact hs F hF p hp q e src dst (hdone ▸ ht)

end Bare

/-- More cells at first do no harm. -/
theorem SendsHeld.mono {own' : ℕ → Set κ} (h : ∀ q < n, own q ⊆ own' q)
    (hs : SendsHeld n prog m₀ own) : SendsHeld n prog m₀ own' :=
  fun F hF p hp q ev src dst hnext i hi =>
    (hs F hF p hp q ev src dst hnext i hi).imp_left fun hown => h p hp hown

/-- If the cells sent have the contents that their targets shall get, held cells have theirs. -/
theorem goal_of_mem_holds {y : ℕ → κ → β} (hsends : SendsHeld n prog m₀ own)
    (hown : ∀ q < n, ∀ i ∈ own q, m₀ q i = y q i)
    (hgoal : ∀ p < n, ∀ q ev src dst, .put q ev src dst ∈ prog p → src.map (y p) = dst.map (y q))
    (h : F.Reachable n prog m₀) :
    ∀ q < n, ∀ i ∈ holds n prog own F.done q, F.mem q i = y q i := by
  induction h with
  | init =>
    rintro q hq i (hi | ⟨p, -, j, hj, -⟩)
    · exact hown q hq i hi
    · exact absurd hj (Nat.not_lt_zero j)
  | @step F F' r hF hs ih =>
    intro q hq i hi
    obtain ⟨hr, ⟨p, ev, src, dst, ht, hd, -, hm⟩ | ⟨e, ht, -, hd, -, hm⟩⟩ := Fabric.step_cases hs
    · have hvals : src.map (F.mem r) = dst.map (y p) := by
        rw [← hgoal r hr p ev src dst (List.mem_of_getElem? ht)]
        exact List.map_congr_left fun a ha => ih r hr a (hsends F hF r hr p ev src dst ht a ha)
      have hcases := of_mem_holds_bump ht (hd ▸ hi)
      rw [hm]
      rcases eq_or_ne q p with rfl | hne
      · rw [Function.update_self, hvals]
        by_cases hdst : i ∈ dst
        · exact writeCells_map (Or.inl hdst)
        · rw [writeCells_of_notMem hdst]
          refine ih q hq i (hcases.resolve_right ?_)
          rintro ⟨_, _, _, heq, hmem⟩
          cases heq
          exact hdst hmem
      · rw [Function.update_of_ne hne]
        refine ih q hq i (hcases.resolve_right ?_)
        rintro ⟨_, _, _, heq, -⟩
        cases heq
        exact hne rfl
    · rw [hm]
      refine ih q hq i ((of_mem_holds_bump ht (hd ▸ hi)).resolve_right ?_)
      rintro ⟨_, _, _, heq, -⟩
      cases heq

end Contents

/-! ### Stamped tasks

    Tasks get stamps that grow along every rank's list. Then what a rank has done is known by
    stamps, and the puts that raise an event are paired with the waits on it one by one. -/

section Stamps

variable {κ β : Type} {n : ℕ} {σ : ℕ → List (ℕ × StreamTask κ)} {sender : ℕ → ℕ → ℕ} {c : ℕ → ℕ}

/-- The tasks without their stamps. -/
def tasks (σ : ℕ → List (ℕ × StreamTask κ)) (p : ℕ) : List (StreamTask κ) := (σ p).map Prod.snd

/-- Rank `p` has done its task stamped `t`. -/
def DoneAt (σ : ℕ → List (ℕ × StreamTask κ)) (c : ℕ → ℕ) (p t : ℕ) : Prop :=
  t ∈ ((σ p).take (c p)).map Prod.fst

/-- The stamps of the puts of rank `s` that raise event `e` of rank `q`. -/
def putsOf (σ : ℕ → List (ℕ × StreamTask κ)) (s q e : ℕ) : List ℕ :=
  ((σ s).filter fun x => x.2.raises q e).map Prod.fst

/-- The stamps of the waits of rank `q` on it. -/
def waitsOf (σ : ℕ → List (ℕ × StreamTask κ)) (q e : ℕ) : List ℕ :=
  ((σ q).filter fun x => x.2.awaits e).map Prod.fst

/-- Before its task stamped `t`, rank `p` waits for a put that comes with or after a put of the same
    rank that writes cell `i`. -/
def Delivered (σ : ℕ → List (ℕ × StreamTask κ)) (sender : ℕ → ℕ → ℕ) (p t : ℕ) (i : κ) : Prop :=
  ∃ e j t₁ t₂ t₃ : ℕ, ∃ ev src dst, (putsOf σ (sender p e) p e)[j]? = some t₁ ∧
    (waitsOf σ p e)[j]? = some t₂ ∧ t₂ < t ∧ (t₃, .put p ev src dst) ∈ σ (sender p e) ∧ t₃ ≤ t₁ ∧
    i ∈ dst

theorem Delivered.mono {p t t' : ℕ} {i : κ} (h : Delivered σ sender p t i) (ht : t ≤ t') :
    Delivered σ sender p t' i := by
  obtain ⟨e, j, t₁, t₂, t₃, ev, src, dst, hput, hwait, hlt, hrest⟩ := h
  exact ⟨e, j, t₁, t₂, t₃, ev, src, dst, hput, hwait, hlt.trans_le ht, hrest⟩

/-- Every event is raised by one rank only, and its puts come before its waits, one by one. -/
structure Paired (n : ℕ) (σ : ℕ → List (ℕ × StreamTask κ)) (sender : ℕ → ℕ → ℕ) : Prop where
  sorted : ∀ p < n, (σ p).Pairwise fun x y => x.1 < y.1
  peer_lt : ∀ p < n, ∀ t q ev src dst, (t, .put q ev src dst) ∈ σ p → q < n
  sender_lt : ∀ q < n, ∀ e, sender q e < n
  puts_nil : ∀ q < n, ∀ e, ∀ p < n, p ≠ sender q e → putsOf σ p q e = []
  pairs : ∀ q < n, ∀ e, List.Forall₂ (· < ·) (putsOf σ (sender q e) q e) (waitsOf σ q e)

theorem countP_tasks {P : StreamTask κ → Bool} {p k : ℕ} : ((tasks σ p).take k).countP P =
    ((σ p).take k).countP fun x => P x.2 := by
  rw [tasks, ← List.map_take, List.countP_map]
  rfl

/-- Of the tasks that meet `P`, the ones done are the first ones. -/
theorem mem_take_iff {l : List (ℕ × StreamTask κ)} (hl : l.Pairwise fun x y => x.1 < y.1)
    {P : ℕ × StreamTask κ → Bool} {i k t : ℕ} (hi : ((l.filter P).map Prod.fst)[i]? = some t) :
    t ∈ (l.take k).map Prod.fst ↔ i < (l.take k).countP P := by
  have hsplit : (l.filter P).map Prod.fst =
      ((l.take k).filter P).map Prod.fst ++ ((l.drop k).filter P).map Prod.fst := by
    rw [← List.map_append, ← List.filter_append, List.take_append_drop]
  have hlen : (((l.take k).filter P).map Prod.fst).length = (l.take k).countP P := by
    rw [List.length_map, List.countP_eq_length_filter]
  rw [hsplit] at hi
  by_cases hik : i < (l.take k).countP P
  · refine iff_of_true ?_ hik
    rw [List.getElem?_append_left (hlen ▸ hik)] at hi
    obtain ⟨x, hx, rfl⟩ := List.mem_map.mp (List.mem_of_getElem? hi)
    exact List.mem_map_of_mem (List.mem_of_mem_filter hx)
  · refine iff_of_false (fun hmem => ?_) hik
    rw [List.getElem?_append_right (by omega)] at hi
    obtain ⟨x, hx, rfl⟩ := List.mem_map.mp (List.mem_of_getElem? hi)
    obtain ⟨y, hy, hxy⟩ := List.mem_map.mp hmem
    rw [← List.take_append_drop k l, List.pairwise_append] at hl
    exact (hl.2.2 y hy x (List.mem_of_mem_filter hx)).ne hxy

/-- A rank does its tasks in the order of their stamps. -/
theorem DoneAt.mono {p t t' : ℕ} (hσ : (σ p).Pairwise fun x y => x.1 < y.1)
    (h : DoneAt σ c p t') (ht : t ∈ (σ p).map Prod.fst) (htt' : t ≤ t') : DoneAt σ c p t := by
  obtain ⟨y, hy, rfl⟩ := List.mem_map.mp h
  obtain ⟨x, hx, rfl⟩ := List.mem_map.mp ht
  rw [← List.take_append_drop (c p) (σ p), List.mem_append] at hx
  rcases hx with hx | hx
  · exact List.mem_map_of_mem hx
  · rw [← List.take_append_drop (c p) (σ p), List.pairwise_append] at hσ
    exact absurd (hσ.2.2 y hy x hx) htt'.not_gt

/-- What a rank has done comes before what it does next. -/
theorem doneAt_iff_lt {p t t' : ℕ} {x : StreamTask κ} (hσ : (σ p).Pairwise fun x y => x.1 < y.1)
    (hnext : (σ p)[c p]? = some (t, x)) (ht : t' ∈ (σ p).map Prod.fst) :
    DoneAt σ c p t' ↔ t' < t := by
  obtain ⟨hlt, hget⟩ := List.getElem?_eq_some_iff.mp hnext
  have hdrop : (σ p).drop (c p) = (t, x) :: (σ p).drop (c p + 1) := by
    rw [List.drop_eq_getElem_cons hlt, hget]
  rw [← List.take_append_drop (c p) (σ p), hdrop, List.pairwise_append, List.pairwise_cons] at hσ
  obtain ⟨-, ⟨hafter, -⟩, hbefore⟩ := hσ
  constructor
  · intro h
    obtain ⟨y, hy, rfl⟩ := List.mem_map.mp h
    exact hbefore y hy _ List.mem_cons_self
  · intro h
    obtain ⟨y, hy, rfl⟩ := List.mem_map.mp ht
    rw [← List.take_append_drop (c p) (σ p), hdrop, List.mem_append, List.mem_cons] at hy
    rcases hy with hy | rfl | hy
    · exact List.mem_map_of_mem hy
    · exact absurd h (lt_irrefl _)
    · exact absurd (hafter y hy) h.not_gt

theorem doneAt_of_length_le {p t : ℕ} (hc : (σ p).length ≤ c p) (ht : t ∈ (σ p).map Prod.fst) :
    DoneAt σ c p t := by
  rwa [DoneAt, List.take_of_length_le hc]

theorem mem_of_mem_putsOf {s q e t : ℕ} (h : t ∈ putsOf σ s q e) : t ∈ (σ s).map Prod.fst := by
  obtain ⟨x, hx, rfl⟩ := List.mem_map.mp h
  exact List.mem_map_of_mem (List.mem_of_mem_filter hx)

theorem mem_of_mem_waitsOf {q e t : ℕ} (h : t ∈ waitsOf σ q e) : t ∈ (σ q).map Prod.fst := by
  obtain ⟨x, hx, rfl⟩ := List.mem_map.mp h
  exact List.mem_map_of_mem (List.mem_of_mem_filter hx)

/-- A stamp stands for one task. -/
theorem eq_of_stamp {x y : StreamTask κ} {t : ℕ} : ∀ {l : List (ℕ × StreamTask κ)},
    (l.Pairwise fun x y => x.1 < y.1) → (t, x) ∈ l → (t, y) ∈ l → x = y
  | z :: l, hl, hx, hy => by
    rw [List.pairwise_cons] at hl
    rcases List.mem_cons.mp hx with rfl | hx <;> rcases List.mem_cons.mp hy with hy | hy
    · exact (congrArg Prod.snd hy).symm
    · exact absurd (hl.1 _ hy) (lt_irrefl t)
    · exact absurd (hl.1 _ hx) (hy ▸ lt_irrefl t)
    · exact eq_of_stamp hl.2 hx hy

/-- The task that a stamp stands for is among the ones done. -/
theorem mem_holds_of_doneAt {p q t : ℕ} {ev : Option ℕ} {src dst : List κ} {i : κ}
    (hσ : (σ p).Pairwise fun x y => x.1 < y.1) (ht : DoneAt σ c p t)
    (hmem : (t, .put q ev src dst) ∈ σ p) (hi : i ∈ dst) : ∃ j < c p, ∃ ev src dst,
      (tasks σ p)[j]? = some (.put q ev src dst) ∧ i ∈ dst := by
  obtain ⟨⟨t', x⟩, hx, rfl⟩ := List.mem_map.mp ht
  obtain ⟨j, hj⟩ := List.mem_iff_getElem?.mp hx
  obtain ⟨hjlt, -⟩ := List.getElem?_eq_some_iff.mp hj
  rw [List.length_take] at hjlt
  rw [List.getElem?_take_of_lt (by omega)] at hj
  have hxp : x = .put q ev src dst := eq_of_stamp hσ (List.mem_of_mem_take hx) hmem
  refine ⟨j, by omega, ev, src, dst, ?_, hi⟩
  rw [tasks, List.getElem?_map, hj, hxp]
  rfl

namespace Paired

variable {q e : ℕ}

theorem raised_eq (h : Paired n σ sender) (hq : q < n) : raised n (tasks σ) q e c =
    ((σ (sender q e)).take (c (sender q e))).countP fun x => x.2.raises q e := by
  rw [raised, sum_eq_single_of_mem (sender q e) (mem_range.mpr (h.sender_lt q hq e)), countP_tasks]
  intro p hp hne
  rw [countP_tasks, List.countP_eq_zero]
  have := List.map_eq_nil_iff.mp (h.puts_nil q hq e p (mem_range.mp hp) hne)
  exact fun x hx => List.filter_eq_nil_iff.mp this x (List.mem_of_mem_take hx)

theorem doneAt_put_iff (h : Paired n σ sender) (hq : q < n) {i t : ℕ}
    (hi : (putsOf σ (sender q e) q e)[i]? = some t) :
    DoneAt σ c (sender q e) t ↔ i < raised n (tasks σ) q e c := by
  rw [h.raised_eq hq]
  exact mem_take_iff (h.sorted _ (h.sender_lt q hq e)) hi

theorem doneAt_wait_iff (h : Paired n σ sender) (hq : q < n) {i t : ℕ}
    (hi : (waitsOf σ q e)[i]? = some t) :
    DoneAt σ c q t ↔ i < consumed (tasks σ) q e c := by
  rw [consumed, countP_tasks]
  exact mem_take_iff (h.sorted q hq) hi

/-- The put of a wait comes before it. -/
theorem put_of_wait (h : Paired n σ sender) (hq : q < n) {i t : ℕ}
    (hi : (waitsOf σ q e)[i]? = some t) :
    ∃ t' < t, (putsOf σ (sender q e) q e)[i]? = some t' := by
  obtain ⟨hlt, rfl⟩ := List.getElem?_eq_some_iff.mp hi
  obtain ⟨hlen, hall⟩ := List.forall₂_iff_get.mp (h.pairs q hq e)
  exact ⟨_, hall i (hlen ▸ hlt) hlt, List.getElem?_eq_getElem _⟩

variable [DecidableEq κ] {m₀ : ℕ → κ → β} {F : Fabric κ β}

/-- A wait that is over has its put behind it. -/
theorem doneAt_put (h : Paired n σ sender) (hF : F.Reachable n (tasks σ) m₀) (hq : q < n)
    {i t t' : ℕ} (hput : (putsOf σ (sender q e) q e)[i]? = some t)
    (hwait : (waitsOf σ q e)[i]? = some t') (ht' : DoneAt σ F.done q t') :
    DoneAt σ F.done (sender q e) t :=
  (h.doneAt_put_iff hq hput).mpr
    (((h.doneAt_wait_iff hq hwait).mp ht').trans_le hF.consumed_le_raised)

/-- As long as a rank is unfinished, some rank can go on. -/
theorem exists_enabled (h : Paired n σ sender) (hF : F.Reachable n (tasks σ) m₀)
    (hunfinished : ¬F.Finished n (tasks σ)) : ∃ r < n, (F.step n (tasks σ) r).isSome := by
  classical
  -- Of the next tasks of the unfinished ranks, take the one with the least stamp.
  let todo : Finset ℕ := {p ∈ range n | F.done p < (σ p).length}
  have hne : todo.Nonempty := by
    rw [Fabric.Finished] at hunfinished
    push Not at hunfinished
    obtain ⟨p, hp, hdone⟩ := hunfinished
    have := hF.done_le (r := p)
    rw [tasks, List.length_map] at hdone this
    exact ⟨p, mem_filter.mpr ⟨mem_range.mpr hp, lt_of_le_of_ne this hdone⟩⟩
  obtain ⟨q, hq, hmin⟩ :=
    exists_min_image todo (fun p => ((σ p)[F.done p]?.map Prod.fst).getD 0) hne
  obtain ⟨hqn, hlt⟩ := mem_filter.mp hq
  replace hqn := mem_range.mp hqn
  obtain ⟨⟨t, x⟩, hx⟩ : ∃ x, (σ q)[F.done q]? = some x := ⟨_, List.getElem?_eq_getElem hlt⟩
  have hmin' (p) (hp : p < n) (t') (x') (hx' : (σ p)[F.done p]? = some (t', x')) : t ≤ t' := by
    have := hmin p (mem_filter.mpr ⟨mem_range.mpr hp, (List.getElem?_eq_some_iff.mp hx').1⟩)
    rwa [hx, hx'] at this
  have hnext : (tasks σ q)[F.done q]? = some x := by rw [tasks, List.getElem?_map, hx]; rfl
  refine ⟨q, hqn, ?_⟩
  rw [Fabric.step, if_pos hqn, hnext, Option.bind_some]
  cases x with
  | put p ev src dst => rfl
  | wait e =>
    suffices hpos : 0 < F.pending q e by rw [Fabric.exec, if_pos hpos]; rfl
    have hmem : t ∈ waitsOf σ q e :=
      List.mem_map_of_mem (f := Prod.fst)
        (List.mem_filter.mpr ⟨List.mem_of_getElem? hx, StreamTask.awaits_wait.mpr rfl⟩)
    obtain ⟨i, hi⟩ := List.mem_iff_getElem?.mp hmem
    obtain ⟨t', htt', hput⟩ := h.put_of_wait hqn hi
    have hs := h.sender_lt q hqn e
    have hstamp := mem_of_mem_putsOf (List.mem_of_getElem? hput)
    -- Its put has a lesser stamp, so that the sender has done it.
    have hdone : DoneAt σ F.done (sender q e) t' := by
      by_cases hfin : F.done (sender q e) < (σ (sender q e)).length
      · obtain ⟨⟨t₁, x₁⟩, hx₁⟩ : ∃ x, (σ (sender q e))[F.done (sender q e)]? = some x :=
          ⟨_, List.getElem?_eq_getElem hfin⟩
        exact (doneAt_iff_lt (h.sorted _ hs) hx₁ hstamp).mpr
          (htt'.trans_le (hmin' _ hs t₁ x₁ hx₁))
      · exact doneAt_of_length_le (not_lt.mp hfin) hstamp
    have hraised := (h.doneAt_put_iff hqn hput).mp hdone
    have hwait : ¬DoneAt σ F.done q t := by
      rw [doneAt_iff_lt (h.sorted q hqn) hx (mem_of_mem_waitsOf hmem)]
      exact lt_irrefl t
    rw [h.doneAt_wait_iff hqn hi, not_lt] at hwait
    have := hF.pending_add_consumed (q := q) (e := e)
    omega

/-- In the end no notification is left. -/
theorem pending_eq_zero (h : Paired n σ sender) (hF : F.Reachable n (tasks σ) m₀)
    (hfin : F.Finished n (tasks σ)) (hq : q < n) : F.pending q e = 0 := by
  have hcount (p) (hp : p < n) (P : StreamTask κ → Bool) : ((tasks σ p).take (F.done p)).countP P =
      (((σ p).filter fun x => P x.2).map Prod.fst).length := by
    rw [hfin p hp, List.take_length, tasks, List.countP_map, List.length_map,
      List.countP_eq_length_filter]
    rfl
  have hraised := h.raised_eq (c := F.done) (e := e) hq
  have hlen := (h.pairs q hq e).length_eq
  have := hF.pending_add_consumed (q := q) (e := e)
  rw [← countP_tasks, hcount _ (h.sender_lt q hq e), ← putsOf] at hraised
  rw [hraised, consumed, hcount q hq, ← waitsOf, hlen] at this
  exact Nat.add_eq_right.mp this

/-- If every put sends cells that its rank has at the start, or that a wait before it has seen
    delivered, no put sends a cell that its rank does not hold. -/
theorem sendsHeld {own : ℕ → Set κ} (h : Paired n σ sender)
    (hsrc : ∀ p < n, ∀ t q ev src dst, (t, .put q ev src dst) ∈ σ p → ∀ i ∈ src,
      i ∈ own p ∨ Delivered σ sender p t i) : SendsHeld n (tasks σ) m₀ own := by
  intro F hF p hp q ev src dst hnext i hi
  rw [tasks, List.getElem?_map, Option.map_eq_some_iff] at hnext
  obtain ⟨⟨t, x⟩, hx, rfl⟩ := hnext
  rcases hsrc p hp t q ev src dst (List.mem_of_getElem? hx) i hi with hown |
    ⟨e, j, t₁, t₂, t₃, ev', src', dst', hput, hwait, hlt, hmem, hle, hi'⟩
  · exact Or.inl hown
  · have hs := h.sender_lt p hp e
    have hwait' : DoneAt σ F.done p t₂ := (doneAt_iff_lt (h.sorted p hp) hx
      (mem_of_mem_waitsOf (List.mem_of_getElem? hwait))).mpr hlt
    have hput' : DoneAt σ F.done (sender p e) t₃ :=
      (h.doneAt_put hF hp hput hwait hwait').mono (h.sorted _ hs) (List.mem_map_of_mem hmem) hle
    exact Or.inr ⟨_, hs, mem_holds_of_doneAt (h.sorted _ hs) hput' hmem hi'⟩

/-- No event is raised twice if, between two puts that raise it, the sender waits for a put that
    the receiver does after its wait for the first. -/
theorem noOverrun (h : Paired n σ sender)
    (hack : ∀ q < n, ∀ e i t t', (putsOf σ (sender q e) q e)[i + 1]? = some t →
      (waitsOf σ q e)[i]? = some t' → ∃ e₁ j t₁ t₂ : ℕ, sender (sender q e) e₁ = q ∧
        (putsOf σ q (sender q e) e₁)[j]? = some t₁ ∧
        (waitsOf σ (sender q e) e₁)[j]? = some t₂ ∧ t' ≤ t₁ ∧ t₂ < t) :
    NoOverrun n (tasks σ) m₀ := by
  intro F hF p hp q e src dst hnext
  rw [tasks, List.getElem?_map, Option.map_eq_some_iff] at hnext
  obtain ⟨⟨t, x⟩, hx, rfl⟩ := hnext
  have hmem := List.mem_of_getElem? hx
  have hq := h.peer_lt p hp t q (some e) src dst hmem
  have hput : t ∈ putsOf σ p q e :=
    List.mem_map_of_mem (f := Prod.fst)
      (List.mem_filter.mpr ⟨hmem, StreamTask.raises_put.mpr ⟨rfl, rfl⟩⟩)
  obtain rfl : p = sender q e := by
    by_contra hne
    rw [h.puts_nil q hq e p hp hne] at hput
    exact List.not_mem_nil hput
  obtain ⟨k, hk⟩ := List.mem_iff_getElem?.mp hput
  have hpend := hF.pending_add_consumed (q := q) (e := e)
  have hundone : ¬DoneAt σ F.done (sender q e) t := by
    rw [doneAt_iff_lt (h.sorted _ hp) hx (mem_of_mem_putsOf hput)]
    exact lt_irrefl t
  rw [h.doneAt_put_iff hq hk, not_lt] at hundone
  cases k with
  | zero => omega
  | succ i =>
    have hlen := (h.pairs q hq e).length_eq
    have hi := (List.getElem?_eq_some_iff.mp hk).1
    obtain ⟨t', ht'⟩ : ∃ t', (waitsOf σ q e)[i]? = some t' :=
      ⟨_, List.getElem?_eq_getElem (by omega)⟩
    obtain ⟨e₁, j, t₁, t₂, hs, hput₁, hwait₂, htt₁, htt₂⟩ := hack q hq e i t t' hk ht'
    have hwait₂' : DoneAt σ F.done (sender q e) t₂ :=
      (doneAt_iff_lt (h.sorted _ hp) hx
        (mem_of_mem_waitsOf (List.mem_of_getElem? hwait₂))).mpr htt₂
    have hput₁' : DoneAt σ F.done q t₁ := by
      have := h.doneAt_put hF hp (by rw [hs]; exact hput₁) hwait₂ hwait₂'
      rwa [hs] at this
    have hwait : DoneAt σ F.done q t' :=
      hput₁'.mono (h.sorted q hq) (mem_of_mem_waitsOf (List.mem_of_getElem? ht')) htt₁
    have := (h.doneAt_wait_iff hq ht').mp hwait
    omega

end Paired

end Stamps

end Kucg.Lib
