import Kucg.Lib.OneSided
import Mathlib.Logic.Relation

/-! One block that is put down a tree.

    Every rank but the root waits for a put of its parent, and then puts the block to its children.
    An unfinished rank that is nearest to the root can go on, because its parent is finished; and a
    rank that is past its wait has the block, because nobody but its parent raises the event. -/

namespace Kucg.Lib

open Finset

/-- A tree on the ranks below `n`, with the distance from the root. -/
structure PutTree (n root : ℕ) (parent depth : ℕ → ℕ) (children : ℕ → List ℕ) : Prop where
  root_lt : root < n
  parent_lt : ∀ q < n, q ≠ root → parent q < n
  depth_lt : ∀ q < n, q ≠ root → depth (parent q) < depth q
  mem : ∀ p < n, ∀ q, q ∈ children p ↔ q < n ∧ q ≠ root ∧ parent q = p

variable {κ β : Type} {n root : ℕ} {parent depth : ℕ → ℕ} {children : ℕ → List ℕ}

/-- What rank `p` does. -/
def putTreeTasks (root : ℕ) (children : ℕ → List ℕ) (cells : List κ) (p : ℕ) :
    List (StreamTask κ) :=
  (if p = root then [] else [.wait 0]) ++ (children p).map fun q => .put q (some 0) cells cells

/-- Rank `p` puts something to rank `q`. -/
def PutsTo (n : ℕ) (prog : ℕ → List (StreamTask κ)) (p q : ℕ) : Prop :=
  p < n ∧ ∃ ev src dst, .put q ev src dst ∈ prog p

theorem PutsTo.congr {prog prog' : ℕ → List (StreamTask κ)} (h : ∀ p < n, prog p = prog' p) :
    PutsTo n prog = PutsTo n prog' := by
  funext p q
  refine propext (and_congr_right fun hp => ?_)
  rw [h p hp]

section Tasks

variable {cells : List κ} {p q : ℕ}

theorem mem_putTreeTasks {ev : Option ℕ} {src dst : List κ} :
    .put q ev src dst ∈ putTreeTasks root children cells p ↔
      q ∈ children p ∧ ev = some 0 ∧ src = cells ∧ dst = cells := by
  rw [putTreeTasks, List.mem_append, List.mem_map]
  constructor
  · rintro (h | ⟨q', hq', heq⟩)
    · split_ifs at h
      · exact absurd h List.not_mem_nil
      · cases List.mem_singleton.mp h
    · obtain ⟨rfl, rfl, rfl, rfl⟩ := StreamTask.put.inj heq
      exact ⟨hq', rfl, rfl, rfl⟩
  · rintro ⟨hq, rfl, rfl, rfl⟩
    exact .inr ⟨q, hq, rfl⟩

/-- Of the tasks of a rank only the first one waits, and that of the root does not. -/
theorem wait_mem_putTreeTasks {e : ℕ} :
    .wait e ∈ putTreeTasks root children cells p ↔ p ≠ root ∧ e = 0 := by
  rw [putTreeTasks, List.mem_append, List.mem_map]
  split_ifs with hroot
  · simp [hroot]
  · simp [hroot]

theorem putTreeTasks_of_ne (hne : p ≠ root) : putTreeTasks root children cells p =
    .wait 0 :: (children p).map fun q => .put q (some 0) cells cells := by
  rw [putTreeTasks, if_neg hne]
  rfl

end Tasks

section Run

variable [DecidableEq κ] {prog : ℕ → List (StreamTask κ)} {m₀ : ℕ → κ → β} {F F' : Fabric κ β}

/-- Every step does one task. -/
theorem Fabric.sum_done_step {r : ℕ} (h : F.step n prog r = some F') :
    ∑ p ∈ range n, F'.done p = ∑ p ∈ range n, F.done p + 1 := by
  have hdone : r < n ∧ F'.done = bump F.done r := by
    obtain ⟨hr, ⟨_, _, _, _, -, hd, -⟩ | ⟨_, -, -, hd, -⟩⟩ := step_cases h <;> exact ⟨hr, hd⟩
  obtain ⟨hr, hd⟩ := hdone
  have hmem : r ∈ range n := mem_range.mpr hr
  rw [hd, ← add_sum_erase _ _ hmem, ← add_sum_erase _ F.done hmem, bump_self,
    sum_congr rfl fun p hp => bump_of_ne (ne_of_mem_erase hp)]
  omega

/-- An interleaving is not longer than all the tasks. -/
theorem Fabric.length_run_le : ∀ {rs : List ℕ} {F : Fabric κ β}, F.Reachable n prog m₀ →
    F.run n prog rs = some F' →
    rs.length + ∑ p ∈ range n, F.done p ≤ ∑ p ∈ range n, (prog p).length
  | [], F, hF, _ => by
    rw [List.length_nil, Nat.zero_add]
    exact sum_le_sum fun p _ => hF.done_le
  | r :: rs, F, hF, h => by
    rw [Fabric.run, List.foldlM_cons] at h
    obtain ⟨F₁, h₁, h⟩ := Option.bind_eq_some_iff.mp h
    have hrest := length_run_le (hF.step h₁) h
    rw [sum_done_step h₁] at hrest
    rw [List.length_cons]
    omega

end Run

namespace PutTree

variable (h : PutTree n root parent depth children) {cells : List κ}

include h

theorem putsTo_iff {p q : ℕ} : PutsTo n (putTreeTasks root children cells) p q ↔
    q < n ∧ q ≠ root ∧ parent q = p := by
  constructor
  · rintro ⟨hp, ev, src, dst, hput⟩
    exact (h.mem p hp q).mp (mem_putTreeTasks.mp hput).1
  · rintro ⟨hq, hne, rfl⟩
    have hp := h.parent_lt q hq hne
    exact ⟨hp, _, _, _, mem_putTreeTasks.mpr ⟨(h.mem _ hp q).mpr ⟨hq, hne, rfl⟩, rfl, rfl, rfl⟩⟩

/-- Puts lead away from the root. -/
theorem acyclic (p : ℕ) :
    ¬Relation.TransGen (PutsTo n (putTreeTasks root children cells)) p p := by
  have hdepth : ∀ {q}, Relation.TransGen (PutsTo n (putTreeTasks root children cells)) p q →
      depth p < depth q := by
    intro q hpath
    induction hpath with
    | single hput =>
      obtain ⟨hq, hne, rfl⟩ := h.putsTo_iff.mp hput
      exact h.depth_lt _ hq hne
    | tail _ hput ih =>
      obtain ⟨hq, hne, rfl⟩ := h.putsTo_iff.mp hput
      exact ih.trans (h.depth_lt _ hq hne)
  exact fun hcycle => lt_irrefl _ (hdepth hcycle)

/-- Puts lead from the root to every rank. -/
theorem reaches {q : ℕ} (hq : q < n) :
    Relation.ReflTransGen (PutsTo n (putTreeTasks root children cells)) root q := by
  induction hd : depth q using Nat.strong_induction_on generalizing q with
  | _ d ih =>
    subst hd
    rcases eq_or_ne q root with rfl | hne
    · exact .refl
    · refine (ih _ (h.depth_lt q hq hne) (h.parent_lt q hq hne) rfl).tail ?_
      exact h.putsTo_iff.mpr ⟨hq, hne, rfl⟩

variable {m₀ : ℕ → κ → β} {F : Fabric κ β}

/-- A finished rank has notified its children. -/
theorem raised_pos {q : ℕ} (hq : q < n) (hne : q ≠ root)
    (hdone : F.done (parent q) = (putTreeTasks root children cells (parent q)).length) :
    0 < raised n (putTreeTasks root children cells) q 0 F.done := by
  have hp := h.parent_lt q hq hne
  refine Nat.lt_of_lt_of_le ?_ (single_le_sum (fun _ _ => Nat.zero_le _) (mem_range.mpr hp))
  rw [hdone, List.take_length, List.countP_pos_iff]
  exact ⟨_, mem_putTreeTasks.mpr ⟨(h.mem _ hp q).mpr ⟨hq, hne, rfl⟩, rfl, rfl, rfl⟩,
    StreamTask.raises_put.mpr ⟨rfl, rfl⟩⟩

variable [DecidableEq κ]

/-- As long as a rank is unfinished, some rank can go on. -/
theorem exists_enabled (hF : F.Reachable n (putTreeTasks root children cells) m₀)
    (hunfinished : ¬ F.Finished n (putTreeTasks root children cells)) :
    ∃ r < n, (F.step n (putTreeTasks root children cells) r).isSome := by
  classical
  -- Take the unfinished rank that is nearest to the root.
  obtain ⟨q, hq, hmin⟩ := exists_min_image
    {p ∈ range n | F.done p < (putTreeTasks root children cells p).length} depth (by
      rw [Fabric.Finished] at hunfinished
      push Not at hunfinished
      obtain ⟨p, hp, hdone⟩ := hunfinished
      exact ⟨p, mem_filter.mpr ⟨mem_range.mpr hp, lt_of_le_of_ne hF.done_le hdone⟩⟩)
  obtain ⟨hqn, hlt⟩ := mem_filter.mp hq
  have hqn := mem_range.mp hqn
  refine ⟨q, hqn, ?_⟩
  rw [Fabric.step, if_pos hqn, List.getElem?_eq_getElem hlt, Option.bind_some]
  rcases ht : (putTreeTasks root children cells q)[F.done q] with ⟨r, ev, src, dst⟩ | e
  · rfl
  · have hmem : .wait e ∈ putTreeTasks root children cells q := ht ▸ List.getElem_mem hlt
    obtain ⟨hne, rfl⟩ := wait_mem_putTreeTasks.mp hmem
    -- its parent is finished
    have hparent : F.done (parent q) = (putTreeTasks root children cells (parent q)).length := by
      refine le_antisymm hF.done_le (Nat.le_of_not_lt fun hless => ?_)
      have hle := hmin _ (mem_filter.mpr ⟨mem_range.mpr (h.parent_lt q hqn hne), hless⟩)
      exact absurd (h.depth_lt q hqn hne) (Nat.not_lt.mpr hle)
    have hraised := h.raised_pos hqn hne hparent
    have hfirst : F.done q = 0 := by
      simp only [putTreeTasks_of_ne hne] at ht
      by_contra hpos
      obtain ⟨k, hk⟩ := Nat.exists_eq_succ_of_ne_zero hpos
      simp [hk] at ht
    have hcount := hF.pending_add_consumed (q := q) (e := 0)
    have hconsumed : consumed (putTreeTasks root children cells) q 0 F.done = 0 := by
      rw [consumed, hfirst]
      rfl
    rw [Fabric.exec, if_pos (by omega)]
    rfl

/-- A rank that puts has the block. -/
theorem sendsHeld : SendsHeld n (putTreeTasks root children cells) m₀
    fun p => {i | p = root ∧ i ∈ cells} := by
  intro F hF p hp q ev src dst hnext i hi
  obtain ⟨-, -, rfl, -⟩ := mem_putTreeTasks.mp (List.mem_of_getElem? hnext)
  rcases eq_or_ne p root with rfl | hne
  · exact .inl ⟨rfl, hi⟩
  · -- it has waited, so the event has been raised
    have hpast : F.done p ≠ 0 := by
      intro hzero
      rw [putTreeTasks_of_ne hne, hzero] at hnext
      cases hnext
    obtain ⟨k, hk⟩ := Nat.exists_eq_succ_of_ne_zero hpast
    have hconsumed : 0 < consumed (putTreeTasks root children src) p 0 F.done := by
      rw [consumed, putTreeTasks_of_ne hne, hk, List.take_succ_cons, List.countP_cons_of_pos]
      · omega
      · exact StreamTask.awaits_wait.mpr rfl
    have hraised := hconsumed.trans_le hF.consumed_le_raised
    obtain ⟨r, hr, hpos⟩ := exists_ne_zero_of_sum_ne_zero hraised.ne'
    obtain ⟨t, ht, hraises⟩ := List.countP_pos_iff.mp (Nat.pos_of_ne_zero hpos)
    obtain ⟨src', dst', rfl⟩ := StreamTask.raises_iff.mp hraises
    obtain ⟨j, hj⟩ := List.mem_iff_getElem?.mp ht
    rw [List.getElem?_take] at hj
    split_ifs at hj with hlt
    obtain ⟨-, -, -, rfl⟩ := mem_putTreeTasks.mp (List.mem_of_getElem? hj)
    exact .inr ⟨r, mem_range.mp hr, j, hlt, _, _, _, hj, hi⟩

/-- In the end every rank has the block of the root. -/
theorem delivers (hF : F.Reachable n (putTreeTasks root children cells) m₀)
    (hfin : F.Finished n (putTreeTasks root children cells)) {q : ℕ} (hq : q < n) {i : κ}
    (hi : i ∈ cells) : F.mem q i = m₀ root i := by
  refine goal_of_mem_holds (y := fun _ => m₀ root) h.sendsHeld (fun p _ j hj => hj.1 ▸ rfl)
    (fun p _ r ev src dst hput => ?_) hF q hq i ?_
  · obtain ⟨-, -, rfl, rfl⟩ := mem_putTreeTasks.mp hput
    rfl
  · rcases eq_or_ne q root with rfl | hne
    · exact .inl ⟨rfl, hi⟩
    · have hp := h.parent_lt q hq hne
      exact mem_holds_of_finished hfin hp
        (mem_putTreeTasks.mpr ⟨(h.mem _ hp q).mpr ⟨hq, hne, rfl⟩, rfl, rfl, rfl⟩) hi

end PutTree

end Kucg.Lib
