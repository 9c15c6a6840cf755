import Mathlib.Tactic

/-! Matching two ordered sides greedily.

    All pairs are looked at in order, those of the first one on the left before those of the second
    one, and a pair is taken if it is allowed and neither side of it has been taken. The result is
    the only matching in which every allowed pair that is left out has a side that is taken with
    something smaller (`LexMatching`). This does not tell left and right apart, so going through the
    pairs by their right sides gives the same matching. -/

namespace Kucg.Lib

section Matching

variable {ι κ : Type} [LinearOrder ι] [LinearOrder κ]

/-- A pair is taken exactly if it is allowed and neither side is taken with something smaller. -/
def LexMatching (R M : ι → κ → Prop) : Prop :=
  ∀ i j, M i j ↔ R i j ∧ (∀ j' < j, ¬M i j') ∧ ∀ i' < i, ¬M i' j

variable {R M M' : ι → κ → Prop} {i i' : ι} {j j' : κ}

theorem LexMatching.flip (h : LexMatching R M) :
    LexMatching (fun j i => R i j) fun j i => M i j := by
  intro j i
  dsimp only
  rw [h i j]
  exact and_congr_right fun _ => and_comm

theorem LexMatching.allowed (h : LexMatching R M) (hM : M i j) : R i j := ((h i j).mp hM).1

/-- Nothing on the left is taken twice. -/
theorem LexMatching.left_unique (h : LexMatching R M) (hM : M i j) (hM' : M i j') : j = j' := by
  rcases lt_trichotomy j j' with hlt | heq | hlt
  · exact absurd hM (((h i j').mp hM').2.1 j hlt)
  · exact heq
  · exact absurd hM' (((h i j).mp hM).2.1 j' hlt)

/-- Nothing on the right is taken twice. -/
theorem LexMatching.right_unique (h : LexMatching R M) (hM : M i j) (hM' : M i' j) : i = i' :=
  h.flip.left_unique hM hM'

/-- There is only one such matching. -/
theorem LexMatching.unique [WellFoundedLT ι] [WellFoundedLT κ] (h : LexMatching R M)
    (h' : LexMatching R M') (i : ι) (j : κ) : M i j ↔ M' i j := by
  induction i using WellFoundedLT.induction generalizing j with
  | ind i ihi =>
    induction j using WellFoundedLT.induction with
    | ind j ihj =>
      rw [h i j, h' i j]
      refine and_congr_right fun _ => and_congr ?_ ?_
      · exact forall₂_congr fun j' hj' => not_congr (ihj j' hj')
      · exact forall₂_congr fun i' hi' => not_congr (ihi i' hi' j)

end Matching

/-! ### The greedy matching -/

section Greedy

variable {ι κ : Type} [DecidableEq ι] [DecidableEq κ]

/-- A pair is taken if it is allowed and both sides are free. -/
def greedyStep (R : ι → κ → Bool) (taken : List (ι × κ)) (p : ι × κ) : List (ι × κ) :=
  if R p.1 p.2 ∧ p.1 ∉ taken.map Prod.fst ∧ p.2 ∉ taken.map Prod.snd then taken ++ [p] else taken

/-- The matching that takes every pair it can. -/
def greedy (R : ι → κ → Bool) (is : List ι) (js : List κ) : List (ι × κ) :=
  (is ×ˢ js).foldl (greedyStep R) []

end Greedy

section Greedy

variable {ι κ : Type} [LinearOrder ι] [LinearOrder κ] {R : ι → κ → Bool}

/-- One pair comes before another one. -/
def Before (q p : ι × κ) : Prop := q.1 < p.1 ∨ q.1 = p.1 ∧ q.2 < p.2

/-- Of the pairs seen those are taken that are allowed and free when they are looked at. -/
def Taken (R : ι → κ → Bool) (seen taken : List (ι × κ)) : Prop :=
  ∀ p, p ∈ taken ↔ p ∈ seen ∧ R p.1 p.2 ∧ ∀ q ∈ taken, Before q p → q.1 ≠ p.1 ∧ q.2 ≠ p.2

theorem not_before_self {p : ι × κ} : ¬Before p p := by
  rintro (h | ⟨-, h⟩) <;> exact lt_irrefl _ h

theorem Before.asymm {p q : ι × κ} (h : Before q p) : ¬Before p q := by
  rintro (h' | ⟨h', h''⟩) <;> rcases h with h | ⟨h, hlt⟩
  · exact lt_asymm h h'
  · exact h'.ne' h
  · exact h.ne' h'
  · exact lt_asymm h'' hlt

theorem taken_step {seen taken : List (ι × κ)} {p : ι × κ} (h : Taken R seen taken)
    (hp : ∀ q ∈ seen, Before q p) : Taken R (seen ++ [p]) (greedyStep R taken p) := by
  have hbefore (q) (hq : q ∈ taken) : Before q p := hp q ((h q).mp hq).1
  have hfree : p.1 ∉ taken.map Prod.fst ∧ p.2 ∉ taken.map Prod.snd ↔
      ∀ q ∈ taken, q.1 ≠ p.1 ∧ q.2 ≠ p.2 := by
    simp only [List.mem_map, not_exists, not_and]
    exact ⟨fun h q hq => ⟨h.1 q hq, h.2 q hq⟩, fun h =>
      ⟨fun q hq => (h q hq).1, fun q hq => (h q hq).2⟩⟩
  intro r
  rw [greedyStep, List.mem_append, List.mem_singleton]
  split_ifs with htake <;> rw [hfree] at htake
  · rw [List.mem_append, List.mem_singleton, h r]
    constructor
    · rintro (⟨hr, hR, hall⟩ | rfl)
      · refine ⟨Or.inl hr, hR, fun q hq hqr => ?_⟩
        rcases List.mem_append.mp hq with hq | hq
        · exact hall q hq hqr
        · -- the new pair comes after `r`
          rw [List.mem_singleton.mp hq] at hqr
          exact absurd hqr (hp r hr).asymm
      · refine ⟨Or.inr rfl, htake.1, fun q hq hqr => ?_⟩
        rcases List.mem_append.mp hq with hq | hq
        · exact htake.2 q hq
        · rw [List.mem_singleton.mp hq] at hqr
          exact absurd hqr not_before_self
    · rintro ⟨hr | rfl, hR, hall⟩
      · exact Or.inl ⟨hr, hR, fun q hq => hall q (List.mem_append_left _ hq)⟩
      · exact Or.inr rfl
  · constructor
    · intro hr
      obtain ⟨hseen, hR, hall⟩ := (h r).mp hr
      exact ⟨Or.inl hseen, hR, hall⟩
    · rintro ⟨hr | rfl, hR, hall⟩
      · exact (h r).mpr ⟨hr, hR, hall⟩
      · exact absurd ⟨hR, fun q hq => hall q hq (hbefore q hq)⟩ htake

theorem taken_foldl : ∀ {ps seen taken : List (ι × κ)}, Taken R seen taken →
    (seen ++ ps).Pairwise Before → Taken R (seen ++ ps) (ps.foldl (greedyStep R) taken)
  | [], seen, taken, h, _ => by rwa [List.append_nil]
  | p :: ps, seen, taken, h, hpw => by
    rw [List.foldl_cons, List.append_cons]
    rw [List.append_cons] at hpw
    refine taken_foldl (taken_step h fun q hq => ?_) hpw
    exact (List.pairwise_append.mp (List.pairwise_append.mp hpw).1).2.2 q hq p
      (List.mem_singleton.mpr rfl)

theorem pairwise_product {is : List ι} {js : List κ} (hi : is.Pairwise (· < ·))
    (hj : js.Pairwise (· < ·)) : (is ×ˢ js).Pairwise Before := by
  induction is with
  | nil => simp
  | cons i is ih =>
    rw [List.pairwise_cons] at hi
    rw [List.product_cons, List.pairwise_append, List.pairwise_map]
    refine ⟨hj.imp fun h => Or.inr ⟨rfl, h⟩, ih hi.2, fun p hp q hq => ?_⟩
    obtain ⟨j, -, rfl⟩ := List.mem_map.mp hp
    exact Or.inl (hi.1 q.1 (List.mem_product.mp hq).1)

/-- The greedy matching is the matching of the allowed pairs. -/
theorem lexMatching_greedy {is : List ι} {js : List κ} (hi : is.Pairwise (· < ·))
    (hj : js.Pairwise (· < ·)) :
    LexMatching (fun i j => i ∈ is ∧ j ∈ js ∧ R i j) fun i j => (i, j) ∈ greedy R is js := by
  have h : Taken R (is ×ˢ js) (greedy R is js) := by
    have hnil : Taken R ([] : List (ι × κ)) [] := fun p => by simp
    exact taken_foldl hnil (pairwise_product hi hj)
  intro i j
  dsimp only
  rw [h (i, j), List.mem_product, and_assoc, and_assoc, and_assoc]
  refine and_congr_right fun _ => and_congr_right fun _ => and_congr_right fun _ => ?_
  constructor
  · intro hall
    exact ⟨fun j' hlt hin => (hall _ hin (Or.inr ⟨rfl, hlt⟩)).1 rfl,
      fun i' hlt hin => (hall _ hin (Or.inl hlt)).2 rfl⟩
  · rintro ⟨hleft, hright⟩ ⟨i', j'⟩ hin hbefore
    refine ⟨fun heq => ?_, fun heq => ?_⟩
    · obtain rfl : i' = i := heq
      rcases hbefore with hlt | ⟨-, hlt⟩
      · exact lt_irrefl _ hlt
      · exact hleft j' hlt hin
    · obtain rfl : j' = j := heq
      rcases hbefore with hlt | ⟨-, hlt⟩
      · exact hright i' hlt hin
      · exact lt_irrefl _ hlt

end Greedy

end Kucg.Lib
