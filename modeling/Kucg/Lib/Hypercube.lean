import Mathlib.Algebra.Group.Defs
import Mathlib.Data.Nat.Bitwise
import Mathlib.Tactic

/-! Exchange along the dimensions of a hypercube: in step `k` node `w` combines its value with that
    of `w ^^^ 2 ^ k`, the value of the lower node on the left.

    After `k` steps a node holds the combination of its aligned block of `2 ^ k` nodes, in order.
    The statement is for any notion of "value of an interval" that values of adjoining intervals
    combine to, so it serves products in a semigroup and unions of sets alike. -/

namespace Kucg.Lib

/-! ### The partner of a node -/

theorem xor_two_pow_div (w k : ℕ) : (w ^^^ 2 ^ k) / 2 ^ k = w / 2 ^ k ^^^ 1 := by
  rw [Nat.xor_div_two_pow, Nat.div_self (Nat.two_pow_pos k)]

theorem xor_two_pow_mod (w k : ℕ) : (w ^^^ 2 ^ k) % 2 ^ k = w % 2 ^ k := by
  rw [Nat.xor_mod_two_pow, Nat.mod_self, Nat.xor_zero]

/-- Where the bit is clear the partner lies `2 ^ k` above. -/
theorem xor_two_pow_of_even {w k : ℕ} (h : w / 2 ^ k % 2 = 0) : w ^^^ 2 ^ k = w + 2 ^ k := by
  have hdiv := xor_two_pow_div w k
  rw [Nat.xor_one_of_even (Nat.even_iff.mpr h)] at hdiv
  calc w ^^^ 2 ^ k = 2 ^ k * ((w ^^^ 2 ^ k) / 2 ^ k) + (w ^^^ 2 ^ k) % 2 ^ k :=
        (Nat.div_add_mod _ _).symm
    _ = 2 ^ k * (w / 2 ^ k) + w % 2 ^ k + 2 ^ k := by rw [hdiv, xor_two_pow_mod]; ring
    _ = w + 2 ^ k := by rw [Nat.div_add_mod]

theorem xor_two_pow_xor (w k : ℕ) : w ^^^ 2 ^ k ^^^ 2 ^ k = w := by
  rw [Nat.xor_assoc, Nat.xor_self, Nat.xor_zero]

/-- Where it is set, `2 ^ k` below. -/
theorem xor_two_pow_of_odd {w k : ℕ} (h : w / 2 ^ k % 2 = 1) :
    (w ^^^ 2 ^ k) + 2 ^ k = w := by
  have hpartner : (w ^^^ 2 ^ k) / 2 ^ k % 2 = 0 := by
    rw [xor_two_pow_div, Nat.xor_one_of_odd (Nat.odd_iff.mpr h)]
    omega
  rw [← xor_two_pow_of_even hpartner, xor_two_pow_xor]

theorem lt_xor_two_pow_iff {w k : ℕ} : w < w ^^^ 2 ^ k ↔ w / 2 ^ k % 2 = 0 := by
  have hpos := Nat.two_pow_pos k
  rcases Nat.mod_two_eq_zero_or_one (w / 2 ^ k) with h | h
  · have := xor_two_pow_of_even h
    omega
  · have := xor_two_pow_of_odd h
    omega

theorem xor_two_pow_ne (w k : ℕ) : w ^^^ 2 ^ k ≠ w := by
  have hpos := Nat.two_pow_pos k
  rcases Nat.mod_two_eq_zero_or_one (w / 2 ^ k) with h | h
  · have := xor_two_pow_of_even h
    omega
  · have := xor_two_pow_of_odd h
    omega

/-- The partner is a node of the same cube. -/
theorem xor_two_pow_lt {w k l : ℕ} (hw : w < 2 ^ l) (hk : k < l) : w ^^^ 2 ^ k < 2 ^ l :=
  Nat.xor_lt_two_pow hw (Nat.pow_lt_pow_right (by norm_num) hk)

/-! ### Exchange -/

section Exchange

variable {γ : Type}

/-- The values after `k` steps. -/
def exchange (op : γ → γ → γ) (y : ℕ → γ) : ℕ → ℕ → γ
  | 0, w => y w
  | k + 1, w =>
    if w < w ^^^ 2 ^ k then op (exchange op y k w) (exchange op y k (w ^^^ 2 ^ k))
    else op (exchange op y k (w ^^^ 2 ^ k)) (exchange op y k w)

variable {op : γ → γ → γ} {y : ℕ → γ} {P : ℕ → ℕ → γ → Prop}

/-- A block of the next size, from its two halves. -/
theorem block_succ (w k : ℕ) :
    (w / 2 ^ k % 2 = 0 → w / 2 ^ (k + 1) * 2 ^ (k + 1) = w / 2 ^ k * 2 ^ k ∧
      (w ^^^ 2 ^ k) / 2 ^ k * 2 ^ k = w / 2 ^ k * 2 ^ k + 2 ^ k) ∧
    (w / 2 ^ k % 2 = 1 → w / 2 ^ (k + 1) * 2 ^ (k + 1) = (w ^^^ 2 ^ k) / 2 ^ k * 2 ^ k ∧
      w / 2 ^ k * 2 ^ k = (w ^^^ 2 ^ k) / 2 ^ k * 2 ^ k + 2 ^ k) := by
  have hdiv : w / 2 ^ (k + 1) = w / 2 ^ k / 2 := by rw [Nat.div_div_eq_div_mul, Nat.pow_succ]
  have hpow : 2 ^ (k + 1) = 2 * 2 ^ k := by ring
  rw [hdiv, hpow, ← mul_assoc, xor_two_pow_div]
  refine ⟨fun h => ?_, fun h => ?_⟩
  · rw [Nat.xor_one_of_even (Nat.even_iff.mpr h), show w / 2 ^ k / 2 * 2 = w / 2 ^ k by omega]
    exact ⟨rfl, by ring⟩
  · rw [Nat.xor_one_of_odd (Nat.odd_iff.mpr h)]
    generalize w / 2 ^ k = q at h ⊢
    obtain ⟨q, rfl⟩ : ∃ q', q = q' + 1 := ⟨q - 1, by omega⟩
    rw [Nat.add_sub_cancel, show (q + 1) / 2 * 2 = q by omega]
    exact ⟨rfl, by ring⟩

/-- After `k` steps a node holds its aligned block. -/
theorem exchange_block (hnode : ∀ v, P v (v + 1) (y v))
    (hjoin : ∀ {a b c u u'}, P a b u → P b c u' → P a c (op u u')) :
    ∀ k w, P (w / 2 ^ k * 2 ^ k) (w / 2 ^ k * 2 ^ k + 2 ^ k) (exchange op y k w)
  | 0, w => by simpa [exchange] using hnode w
  | k + 1, w => by
    have hmine := exchange_block hnode hjoin k w
    have hpartner := exchange_block hnode hjoin k (w ^^^ 2 ^ k)
    have hsize : 2 ^ (k + 1) = 2 ^ k + 2 ^ k := by ring
    rw [exchange]
    split_ifs with hlt
    · obtain ⟨hblock, hnext⟩ := (block_succ w k).1 (lt_xor_two_pow_iff.mp hlt)
      rw [hnext] at hpartner
      rw [hblock, hsize, ← add_assoc]
      exact hjoin hmine hpartner
    · have hodd : w / 2 ^ k % 2 = 1 := by
        have := mt lt_xor_two_pow_iff.mpr hlt
        omega
      obtain ⟨hblock, hnext⟩ := (block_succ w k).2 hodd
      rw [hnext] at hmine
      rw [hblock, hsize, ← add_assoc]
      exact hjoin hpartner hmine

/-- After all steps of a cube of `2 ^ l` nodes every node holds the whole cube. -/
theorem exchange_all (hnode : ∀ v, P v (v + 1) (y v))
    (hjoin : ∀ {a b c u u'}, P a b u → P b c u' → P a c (op u u')) {l w : ℕ} (hw : w < 2 ^ l) :
    P 0 (2 ^ l) (exchange op y l w) := by
  have h := exchange_block hnode hjoin l w
  rwa [Nat.div_eq_of_lt hw, zero_mul, zero_add] at h

end Exchange

/-! ### Products in order -/

section ProdFrom

variable {β : Type} [Semigroup β]

/-- `x lo * x (lo + 1) * ... * x (lo + k)`. -/
def prodFrom (x : ℕ → β) (lo : ℕ) : ℕ → β
  | 0 => x lo
  | k + 1 => prodFrom x lo k * x (lo + k + 1)

theorem prodFrom_mul (x : ℕ → β) (lo a : ℕ) :
    ∀ b, prodFrom x lo a * prodFrom x (lo + a + 1) b = prodFrom x lo (a + b + 1)
  | 0 => rfl
  | b + 1 => by
    have hlast : lo + a + 1 + b + 1 = lo + (a + b + 1) + 1 := by ring
    calc prodFrom x lo a * prodFrom x (lo + a + 1) (b + 1)
        = prodFrom x lo a * prodFrom x (lo + a + 1) b * x (lo + a + 1 + b + 1) :=
          (mul_assoc _ _ _).symm
      _ = prodFrom x lo (a + b + 1) * x (lo + (a + b + 1) + 1) := by
          rw [prodFrom_mul x lo a b, hlast]
      _ = prodFrom x lo (a + (b + 1) + 1) := rfl

/-- `u` is the product of the values in `[lo, hi)`, in order. -/
def IsProd (x : ℕ → β) (lo hi : ℕ) (u : β) : Prop := ∃ k, hi = lo + k + 1 ∧ u = prodFrom x lo k

theorem IsProd.single (x : ℕ → β) (v : ℕ) : IsProd x v (v + 1) (x v) := ⟨0, rfl, rfl⟩

theorem IsProd.mul {x : ℕ → β} {a b c : ℕ} {u u' : β} (h : IsProd x a b u) (h' : IsProd x b c u') :
    IsProd x a c (u * u') := by
  obtain ⟨k, rfl, rfl⟩ := h
  obtain ⟨k', rfl, rfl⟩ := h'
  exact ⟨k + k' + 1, by ring, prodFrom_mul x a k k'⟩

end ProdFrom

end Kucg.Lib
