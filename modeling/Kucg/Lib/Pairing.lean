import Kucg.Lib.Hypercube
import Mathlib.Data.Set.Basic

/-! Ranks that meet in pairs: what each of them says of the ranks that it meets, and what gets
    around.

    Before the steps an extra rank tells its proxy what it knows, in each step two other ranks tell
    one another, and after the steps the proxy tells its extra. If the ranks that take the steps are
    the nodes of a hypercube and every dimension has its step, whatever the order, then all ranks
    have heard of all (`CubePairing.consistent`): after some steps a node has heard of the nodes
    that differ from it in the dimensions of these steps only. -/

namespace Kucg.Lib

/-! ### Meetings -/

/-- What the ranks say: whether they are an extra or a proxy, whom of the other kind they meet
    before and after the steps, and whom they meet in the steps. -/
structure Pairing where
  extra : ℕ → Prop
  proxy : ℕ → Prop
  first : ℕ → Option ℕ
  last : ℕ → Option ℕ
  steps : ℕ → List ℕ

namespace Pairing

variable (P : Pairing)

/-- The extra rank `e` and the proxy `q` meet before and after the steps, and both say so. -/
structure Matched (e q : ℕ) : Prop where
  extra : P.extra e
  proxy : P.proxy q
  first : P.first e = some q ∧ P.first q = some e
  last : P.last e = some q ∧ P.last q = some e

/-- What rank `p` has heard of after its first `k` steps: what the other rank of each step had heard
    of before the step. A proxy hears of its extra before the steps. -/
def heard : ℕ → ℕ → Set ℕ
  | 0, p => {s | s = p ∨ P.proxy p ∧ P.first p = some s}
  | k + 1, p => {s | s ∈ heard k p ∨ ∃ q, (P.steps p)[k]? = some q ∧ s ∈ heard k q}

/-- What rank `p` has heard of at its end: an extra hears of what its proxy has heard of. -/
def heardAtEnd (p : ℕ) : Set ℕ :=
  {s | s ∈ P.heard (P.steps p).length p ∨
    P.extra p ∧ ∃ q, P.last p = some q ∧ s ∈ P.heard (P.steps q).length q}

/-- What the ranks below `n` say fits together, and all of them hear of all. -/
structure Consistent (n : ℕ) : Prop where
  /-- In each step two ranks meet that are no extras. -/
  meet : ∀ p < n, ∀ (k : ℕ) q, (P.steps p)[k]? = some q →
    q < n ∧ ¬P.extra p ∧ ¬P.extra q ∧ (P.steps q)[k]? = some p
  first_lt : ∀ p < n, ∀ q, P.first p = some q → q < n
  last_lt : ∀ p < n, ∀ q, P.last p = some q → q < n
  extra : ∀ e < n, P.extra e → ∃! q, q < n ∧ P.Matched e q
  proxy : ∀ q < n, P.proxy q → ∃! e, e < n ∧ P.Matched e q
  proxy_not_extra : ∀ q < n, P.proxy q → ¬P.extra q
  length : ∀ p < n, ∀ q < n, ¬P.extra p → ¬P.extra q → (P.steps p).length = (P.steps q).length
  total : ∀ p < n, ∀ s < n, s ∈ P.heardAtEnd p

end Pairing

/-! ### The nodes of a hypercube -/

theorem testBit_xor_two_pow (w k i : ℕ) :
    (w ^^^ 2 ^ k).testBit i = (w.testBit i ^^ decide (k = i)) := by
  rw [Nat.testBit_xor, Nat.testBit_two_pow]

/-- The ranks that take the steps are the nodes of a hypercube with `l` dimensions, and step `k` is
    along dimension `dim k`. -/
structure CubePairing (P : Pairing) (n l : ℕ) (dim number name : ℕ → ℕ) : Prop where
  number_lt : ∀ p < n, ¬P.extra p → number p < 2 ^ l
  name_lt : ∀ w < 2 ^ l, name w < n
  name_not_extra : ∀ w < 2 ^ l, ¬P.extra (name w)
  name_number : ∀ p < n, ¬P.extra p → name (number p) = p
  number_name : ∀ w < 2 ^ l, number (name w) = w
  dim_lt : ∀ k < l, dim k < l
  exists_dim : ∀ i < l, ∃ k < l, dim k = i
  steps : ∀ p < n, ¬P.extra p →
    P.steps p = (List.range l).map fun k => name (number p ^^^ 2 ^ dim k)
  steps_extra : ∀ p < n, P.extra p → P.steps p = []
  extra : ∀ e < n, P.extra e → ∃ q < n, P.Matched e q
  proxy : ∀ q < n, P.proxy q → ¬P.extra q ∧ ∃ e < n, P.Matched e q
  base : ∀ p < n, ¬P.extra p → ¬P.proxy p → P.first p = none ∧ P.last p = none

namespace CubePairing

variable {P : Pairing} {n l : ℕ} {dim number name : ℕ → ℕ}

/-- The node that a node meets in step `k`. -/
theorem step_name (h : CubePairing P n l dim number name) {w k : ℕ} (hw : w < 2 ^ l) (hk : k < l) :
    (P.steps (name w))[k]? = some (name (w ^^^ 2 ^ dim k)) := by
  rw [h.steps _ (h.name_lt w hw) (h.name_not_extra w hw), h.number_name w hw, List.getElem?_map,
    List.getElem?_range hk]
  rfl

theorem length_steps (h : CubePairing P n l dim number name) {p : ℕ} (hp : p < n)
    (hex : ¬P.extra p) : (P.steps p).length = l := by
  rw [h.steps p hp hex, List.length_map, List.length_range]

/-- After `k` steps a node has heard of the nodes that differ from it in the dimensions of these
    steps only. -/
theorem heard_name (h : CubePairing P n l dim number name) {s w' : ℕ}
    (hs : s ∈ P.heard 0 (name w')) : ∀ {k w : ℕ}, k ≤ l → w < 2 ^ l →
      (∀ i, (w ^^^ w').testBit i = true → ∃ j < k, dim j = i) → s ∈ P.heard k (name w) := by
  intro k
  induction k with
  | zero =>
    intro w _ _ hbits
    have heq : w ^^^ w' = 0 := by
      refine Nat.eq_of_testBit_eq fun i => ?_
      rw [Nat.zero_testBit]
      refine Bool.eq_false_iff.mpr fun hi => ?_
      obtain ⟨j, hj, -⟩ := hbits i hi
      omega
    rw [Nat.xor_eq_zero_iff.mp heq]
    exact hs
  | succ k ih =>
    intro w hk hw hbits
    -- the bits but for the last one belong to earlier steps
    have hearlier (i : ℕ) (hi : (w ^^^ w').testBit i = true) (hne : dim k ≠ i) :
        ∃ j < k, dim j = i := by
      obtain ⟨j, hj, rfl⟩ := hbits i hi
      rcases Nat.lt_succ_iff_lt_or_eq.mp hj with hj | rfl
      · exact ⟨j, hj, rfl⟩
      · exact absurd rfl hne
    cases hbit : (w ^^^ w').testBit (dim k) with
    | false =>
      refine Or.inl (ih (by omega) hw fun i hi => hearlier i hi ?_)
      rintro rfl
      rw [hbit] at hi
      cases hi
    | true =>
      refine Or.inr ⟨name (w ^^^ 2 ^ dim k), h.step_name hw (by omega), ?_⟩
      refine ih (by omega) (xor_two_pow_lt hw (h.dim_lt k (by omega))) fun i hi => ?_
      rw [Nat.xor_right_comm, testBit_xor_two_pow] at hi
      by_cases hne : dim k = i
      · subst hne
        rw [hbit] at hi
        simp at hi
      · exact hearlier i (by simpa [hne] using hi) hne

/-- After all steps a node has heard of all nodes, and of what they had heard of before. -/
theorem heard_all (h : CubePairing P n l dim number name) {p q s : ℕ} (hp : p < n)
    (hpex : ¬P.extra p) (hq : q < n) (hqex : ¬P.extra q) (hs : s ∈ P.heard 0 q) :
    s ∈ P.heard (P.steps p).length p := by
  have hw := h.number_lt p hp hpex
  have hw' := h.number_lt q hq hqex
  rw [h.length_steps hp hpex, ← h.name_number p hp hpex]
  rw [← h.name_number q hq hqex] at hs
  refine h.heard_name hs le_rfl hw fun i hi => ?_
  refine h.exists_dim i (Nat.lt_of_not_le fun hle => ?_)
  rw [Nat.testBit_lt_two_pow ((Nat.xor_lt_two_pow hw hw').trans_le
    (Nat.pow_le_pow_right (by decide) hle))] at hi
  cases hi

theorem meet (h : CubePairing P n l dim number name) {p k q : ℕ} (hp : p < n)
    (hstep : (P.steps p)[k]? = some q) :
    q < n ∧ ¬P.extra p ∧ ¬P.extra q ∧ (P.steps q)[k]? = some p := by
  by_cases hex : P.extra p
  · rw [h.steps_extra p hp hex] at hstep
    cases hstep
  have hk : k < l := by
    have hlt := (List.getElem?_eq_some_iff.mp hstep).1
    rwa [h.length_steps hp hex] at hlt
  have hw := h.number_lt p hp hex
  have hw' := xor_two_pow_lt hw (h.dim_lt k hk)
  have hmine := h.step_name hw hk
  rw [h.name_number p hp hex, hstep] at hmine
  obtain rfl := Option.some.inj hmine
  have hyours := h.step_name hw' hk
  rw [xor_two_pow_xor, h.name_number p hp hex] at hyours
  exact ⟨h.name_lt _ hw', hex, h.name_not_extra _ hw', hyours⟩

/-- A rank that takes the steps and has heard of rank `s` before them. -/
theorem exists_heard (h : CubePairing P n l dim number name) {s : ℕ} (hs : s < n) :
    ∃ q < n, ¬P.extra q ∧ s ∈ P.heard 0 q := by
  by_cases hex : P.extra s
  · obtain ⟨q, hq, hmatched⟩ := h.extra s hs hex
    exact ⟨q, hq, (h.proxy q hq hmatched.proxy).1, Or.inr ⟨hmatched.proxy, hmatched.first.2⟩⟩
  · exact ⟨s, hs, hex, Or.inl rfl⟩

/-- The ranks of a hypercube and their extras fit together. -/
theorem consistent (h : CubePairing P n l dim number name) : P.Consistent n where
  meet p hp k q := h.meet hp
  first_lt p hp q hq := by
    by_cases hex : P.extra p
    · obtain ⟨r, hr, hmatched⟩ := h.extra p hp hex
      obtain rfl := Option.some.inj (hmatched.first.1.symm.trans hq)
      exact hr
    · by_cases hpr : P.proxy p
      · obtain ⟨-, e, he, hmatched⟩ := h.proxy p hp hpr
        obtain rfl := Option.some.inj (hmatched.first.2.symm.trans hq)
        exact he
      · exact absurd ((h.base p hp hex hpr).1.symm.trans hq) (by simp)
  last_lt p hp q hq := by
    by_cases hex : P.extra p
    · obtain ⟨r, hr, hmatched⟩ := h.extra p hp hex
      obtain rfl := Option.some.inj (hmatched.last.1.symm.trans hq)
      exact hr
    · by_cases hpr : P.proxy p
      · obtain ⟨-, e, he, hmatched⟩ := h.proxy p hp hpr
        obtain rfl := Option.some.inj (hmatched.last.2.symm.trans hq)
        exact he
      · exact absurd ((h.base p hp hex hpr).2.symm.trans hq) (by simp)
  extra e he hex := by
    obtain ⟨q, hq, hmatched⟩ := h.extra e he hex
    refine ⟨q, ⟨hq, hmatched⟩, ?_⟩
    rintro r ⟨-, hother⟩
    exact Option.some.inj (hother.first.1.symm.trans hmatched.first.1)
  proxy q hq hpr := by
    obtain ⟨-, e, he, hmatched⟩ := h.proxy q hq hpr
    refine ⟨e, ⟨he, hmatched⟩, ?_⟩
    rintro r ⟨-, hother⟩
    exact Option.some.inj (hother.first.2.symm.trans hmatched.first.2)
  proxy_not_extra q hq hpr := (h.proxy q hq hpr).1
  length p hp q hq hpex hqex := by rw [h.length_steps hp hpex, h.length_steps hq hqex]
  total p hp s hs := by
    obtain ⟨q, hq, hqex, hheard⟩ := h.exists_heard hs
    by_cases hex : P.extra p
    · obtain ⟨r, hr, hmatched⟩ := h.extra p hp hex
      have hrex := (h.proxy r hr hmatched.proxy).1
      exact Or.inr ⟨hex, r, hmatched.last.1, h.heard_all hr hrex hq hqex hheard⟩
    · exact Or.inl (h.heard_all hp hex hq hqex hheard)

end CubePairing

end Kucg.Lib
