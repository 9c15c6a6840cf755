import Kucg.Lib.Telling
import Mathlib.Algebra.BigOperators.Group.Finset.Basic

/-! Phases in which the members of groups combine what they have.

    In a gathering the first member of a group gets the product of what its members have, in an
    exchange all of them get it, and in a scattering all of them get what the first member has. When
    all levels are gathered from the bottom to the top, the ranks at the top get their product, and
    all levels are scattered from the top to the bottom, then everybody has the product of what
    all had (`Levels.combine`). What the other members of a group have after a gathering is left
    open. -/

namespace Kucg.Lib

variable {M : Type*} [CommMonoid M]

/-- The phase leads from the values `V` to the values `V'`. -/
def TellPhase.Combines (p : TellPhase) (V V' : ℕ → M) : Prop :=
  ∀ r ∈ p.members r,
    match p.telling with
    | .gather => IsFirst p.members r → V' r = ((p.members r).map V).prod
    | .exchange => V' r = ((p.members r).map V).prod
    | .scatter => ∀ q, (p.members r).head? = some q → V' r = V q

/-- Phases one after another. -/
def CombinesAll : List TellPhase → (ℕ → M) → (ℕ → M) → Prop
  | [], V, V' => V' = V
  | p :: ps, V, V' => ∃ W, p.Combines V W ∧ CombinesAll ps W V'

theorem combinesAll_append {ps' : List TellPhase} : ∀ {ps : List TellPhase} {V V' : ℕ → M},
    CombinesAll (ps ++ ps') V V' ↔ ∃ W, CombinesAll ps V W ∧ CombinesAll ps' W V'
  | [], V, V' => by simp [CombinesAll]
  | p :: ps, V, V' => by
    simp only [List.cons_append, CombinesAll, combinesAll_append]
    constructor
    · rintro ⟨U, hU, W, hW, hV⟩
      exact ⟨W, ⟨U, hU, hW⟩, hV⟩
    · rintro ⟨W, ⟨U, hU, hW⟩, hV⟩
      exact ⟨U, hU, W, hW, hV⟩

/-- What the ranks of `S` have together. -/
noncomputable def total (S : Finset ℕ) (V : ℕ → M) : M := ∏ q ∈ S, V q

open Classical in
/-- The ranks of `S` below `n`. -/
noncomputable def ranksOf (n : ℕ) (S : Set ℕ) : Finset ℕ := (Finset.range n).filter (· ∈ S)

@[simp] theorem mem_ranksOf {n r : ℕ} {S : Set ℕ} : r ∈ ranksOf n S ↔ r < n ∧ r ∈ S := by
  simp [ranksOf]

variable {n : ℕ} {g : ℕ → List ℕ} {gs : List (ℕ → List ℕ)} {S T : Set ℕ}

/-- A gathering leaves the product of all as it is. -/
theorem total_gather (hg : IsGrouping g) (hlt : ∀ r ∈ S, r < n) (hmem : ∀ r ∈ S, r ∈ g r)
    (hclosed : ∀ r ∈ S, ∀ q ∈ g r, q ∈ S) {V V' : ℕ → M}
    (h : TellPhase.Combines ⟨.gather, g⟩ V V') :
    total (ranksOf n {r ∈ S | IsFirst g r}) V' = total (ranksOf n S) V := by
  let first (r : ℕ) : ℕ := (g r).headD 0
  have hfirst (r) (hr : r ∈ S) : first r ∈ g r ∧ g (first r) = g r ∧ IsFirst g (first r) := by
    obtain ⟨q, hq, hhead, hsame, hisFirst⟩ := hg.exists_first (hmem r hr)
    have heq : first r = q := by
      obtain ⟨l, hl⟩ := List.head?_eq_some_iff.mp hhead
      exact congrArg (List.headD · 0) hl
    exact heq ▸ ⟨hq, hsame, hisFirst⟩
  have hmaps : ∀ r ∈ ranksOf n S, first r ∈ ranksOf n {r ∈ S | IsFirst g r} := by
    intro r hr
    obtain ⟨-, hr⟩ := mem_ranksOf.mp hr
    have hin := hclosed r hr _ (hfirst r hr).1
    exact mem_ranksOf.mpr ⟨hlt _ hin, hin, (hfirst r hr).2.2⟩
  rw [total, total, ← Finset.prod_fiberwise_of_maps_to hmaps]
  refine Finset.prod_congr rfl fun q hq => ?_
  obtain ⟨-, hq, hisFirst⟩ := mem_ranksOf.mp hq
  rw [h q (hmem q hq) hisFirst, ← List.prod_toFinset _ (hg.nodup q)]
  refine Finset.prod_congr (Finset.ext fun r => ?_) fun _ _ => rfl
  rw [List.mem_toFinset, Finset.mem_filter, mem_ranksOf]
  constructor
  · intro hr
    have hin := hclosed q hq r hr
    have hsame : g r = g q := hg.same q (hmem q hq) r hr
    obtain ⟨l, hl⟩ := List.head?_eq_some_iff.mp hisFirst
    exact ⟨⟨hlt r hin, hin⟩, congrArg (List.headD · 0) (hsame.trans hl)⟩
  · rintro ⟨⟨-, hr⟩, rfl⟩
    rw [(hfirst r hr).2.1]
    exact hmem r hr

theorem Levels.top_subset (h : Levels gs S T) : T ⊆ S := by
  induction h with
  | top S => exact Set.Subset.rfl
  | level _ _ _ _ ih => exact fun r hr => (ih hr).1

/-- What the ranks at the top get comes to all ranks. -/
theorem Levels.combine (h : Levels gs S T) (hlt : ∀ r ∈ S, r < n) {mid : List TellPhase}
    (hmid : ∀ V V' : ℕ → M, CombinesAll mid V V' → ∀ r ∈ T, V' r = total (ranksOf n T) V) :
    ∀ V V' : ℕ → M, CombinesAll (gs.map (TellPhase.mk .gather) ++ mid ++
      gs.reverse.map (TellPhase.mk .scatter)) V V' → ∀ r ∈ S, V' r = total (ranksOf n S) V := by
  induction h with
  | top S => simpa using hmid
  | @level g gs S T hg hmem hclosed _ ih =>
    intro V V' hV r hr
    rw [List.map_cons, List.reverse_cons, List.map_append, List.cons_append, List.cons_append,
      ← List.append_assoc, List.map_singleton] at hV
    obtain ⟨W, hgather, hW⟩ := hV
    obtain ⟨U, hU, V₁, hscatter, rfl⟩ := combinesAll_append.mp hW
    obtain ⟨q, hq, hhead, -, hfirst⟩ := hg.exists_first (hmem r hr)
    have hrest := ih (fun r hr => hlt r hr.1) hmid W U hU q ⟨hclosed r hr q hq, hfirst⟩
    rw [hscatter r (hmem r hr) q hhead, hrest]
    exact total_gather hg hlt hmem hclosed hgather

/-- All ranks. -/
theorem total_all (n : ℕ) (V : ℕ → M) :
    total (ranksOf n {r | r < n}) V = ∏ q ∈ Finset.range n, V q := by
  refine Finset.prod_congr (Finset.ext fun q => ?_) fun _ _ => rfl
  simp

/-- One rank at the top has the product without more ado. -/
theorem total_subsingleton (h : T.Subsingleton) {r : ℕ} (hr : r ∈ T) (hlt : r < n) (V : ℕ → M) :
    total (ranksOf n T) V = V r := by
  have hone : ranksOf n T = {r} := by
    ext q
    rw [mem_ranksOf, Finset.mem_singleton]
    exact ⟨fun hq => h hq.2 hr, fun hq => hq ▸ ⟨hlt, hr⟩⟩
  rw [total, hone, Finset.prod_singleton]

/-- Ranks at the top that are one group get their product by an exchange. -/
theorem total_exchange {r : ℕ} (hr : r ∈ g r) (hnodup : (g r).Nodup)
    (hmem : ∀ q, q ∈ g r ↔ q < n ∧ q ∈ T) {V V' : ℕ → M}
    (h : TellPhase.Combines ⟨.exchange, g⟩ V V') : V' r = total (ranksOf n T) V := by
  rw [h r hr, total, ← List.prod_toFinset _ hnodup]
  refine Finset.prod_congr (Finset.ext fun q => ?_) fun _ _ => rfl
  rw [List.mem_toFinset, mem_ranksOf, hmem]

/-- A rank that is not alone has company in one of its groups, or at the top. -/
theorem Levels.company (h : Levels gs S T) (hmany : S.Nontrivial) :
    ∀ r ∈ S, (∃ g ∈ gs, r ∈ g r ∧ 2 ≤ (g r).length) ∨ r ∈ T ∧ T.Nontrivial := by
  induction h with
  | top S => exact fun r hr => Or.inr ⟨hr, hmany⟩
  | @level g gs S T hg hmem hclosed _ ih =>
    intro r hr
    by_cases hlen : 2 ≤ (g r).length
    · exact Or.inl ⟨g, List.mem_cons_self, hmem r hr, hlen⟩
    · -- a group of one: the rank goes on to the next level, where it is not alone either
      obtain ⟨a, ha⟩ : ∃ a, g r = [a] := by
        have := List.length_pos_of_mem (hmem r hr)
        exact List.length_eq_one_iff.mp (by omega)
      have har : r = a := by simpa [ha] using hmem r hr
      subst har
      have hfirst : IsFirst g r := by rw [IsFirst, ha, List.head?_cons]
      obtain ⟨q, hq, hne⟩ := hmany.exists_ne r
      obtain ⟨p, hp, -, hsame, hpfirst⟩ := hg.exists_first (hmem q hq)
      have hpr : p ≠ r := by
        rintro rfl
        have := hmem q hq
        rw [← hsame, ha, List.mem_singleton] at this
        exact hne this
      have hnext : ({r ∈ S | IsFirst g r} : Set ℕ).Nontrivial :=
        ⟨p, ⟨hclosed q hq p hp, hpfirst⟩, r, ⟨hr, hfirst⟩, hpr⟩
      rcases ih hnext r ⟨hr, hfirst⟩ with ⟨g', hg', hin⟩ | htop
      · exact Or.inl ⟨g', List.mem_cons_of_mem _ hg', hin⟩
      · exact Or.inr htop

end Kucg.Lib
