import Kucg.Algo.Ring
import Kucg.Lib.Hypercube
import Kucg.Lib.Trace

/-! The ring with a reduction: blocks travel to the right, and every rank adds its input to those
    that come by.

    Block `b` starts at rank `b`. When it has come to the rank `d` to the right of that, the inputs
    of the `d + 1` ranks on its way have been combined in it (`ringProd`), so that after `n - 1`
    steps the left neighbour of rank `b` has the combination of all of them. The steps after that
    bring this to all ranks. -/

namespace Kucg.Algo

open Kucg.Lib

variable {β : Type} {n k v w b d : ℕ}

/-- The block that rank `v` passes on in step `k` once all blocks are complete. -/
def ringGatherBlock (n k v : ℕ) : ℕ := (v + n - k + 1) % n

/-- How far rank `v` is to the right of rank `b`. -/
def ringDist (n v b : ℕ) : ℕ := (v + n - b) % n

/-! ### Which block is where -/

/-- A rank sends the block that has come `k` ranks far. -/
theorem ringSendBlock_eq_iff (hv : v < n) (hk : k < n) (hb : b < n) :
    ringSendBlock n k v = b ↔ ringDist n v b = k := by
  rw [ringSendBlock, ringDist, mod_eq_ite (by omega), mod_eq_ite (by omega)]
  split_ifs <;> omega

theorem ringRecvBlock_eq : ringRecvBlock n k v = ringSendBlock n (k + 1) v := by
  rw [ringRecvBlock, ringSendBlock, Nat.sub_sub]

theorem ringDist_sendBlock (hv : v < n) (hk : k < n) : ringDist n v (ringSendBlock n k v) = k :=
  (ringSendBlock_eq_iff hv hk (ringSendBlock_lt (by omega))).mp rfl

theorem ringDist_recvBlock (hv : v < n) (hk : k + 1 < n) :
    ringDist n v (ringRecvBlock n k v) = k + 1 := by
  rw [ringRecvBlock_eq, ringDist_sendBlock hv hk]

/-- The block that comes to a rank in step `k` is the `k + 1`-st before it. -/
theorem recvBlock_add (hv : v < n) (hk : k + 1 < n) : (ringRecvBlock n k v + k + 1) % n = v := by
  rw [ringRecvBlock, mod_eq_ite (by omega : v + n - k - 1 < 2 * n)]
  split_ifs
  · rw [show v + n - k - 1 + k + 1 = v + n by omega, Nat.add_mod_right, Nat.mod_eq_of_lt hv]
  · rw [show v + n - k - 1 - n + k + 1 = v by omega, Nat.mod_eq_of_lt hv]

theorem ringGatherBlock_lt (hn : 0 < n) : ringGatherBlock n k v < n := Nat.mod_lt _ hn

/-- At first this is the block that came last. -/
theorem ringGatherBlock_zero (hv : v < n) :
    ringGatherBlock n 0 v = ringSendBlock n (n - 1) v := by
  rw [ringGatherBlock, ringSendBlock, Nat.sub_zero,
    show v + n + 1 = v + n - (n - 1) + n by omega, Nat.add_mod_right]

theorem ringGatherBlock_succ (hk : k < n) : ringGatherBlock n (k + 1) v = ringSendBlock n k v := by
  rw [ringGatherBlock, ringSendBlock, show v + n - (k + 1) + 1 = v + n - k by omega]

/-- A rank passes on what its right neighbour receives. -/
theorem ringGatherBlock_eq (hk : k < n) (hv : v < n) :
    ringGatherBlock n k v = ringSendBlock n k (rightOf n v) := by
  rw [ringGatherBlock, ringSendBlock, rightOf, mod_eq_ite (by omega : v + 1 < 2 * n)]
  split_ifs with h
  · rw [show v + 1 + n - k = v + n - k + 1 by omega]
  · rw [show v + n - k + 1 = v + 1 - n + n - k + n by omega, Nat.add_mod_right]

theorem ringGatherBlock_ne (hv : v < n) (hk : k + 1 < n) :
    ringGatherBlock n k v ≠ ringSendBlock n k v := by
  rw [ringGatherBlock, ringSendBlock, mod_eq_ite (by omega : v + n - k < 2 * n)]
  rcases Nat.lt_or_ge (v + n - k + 1) (2 * n) with hlt | hge
  · rw [mod_eq_ite hlt]
    split_ifs <;> omega
  · rw [show v + n - k + 1 = n + n by omega, Nat.add_mod_right, Nat.mod_self]
    split_ifs <;> omega

/-- In the end every block has come. -/
theorem exists_gatherBlock (hv : v < n) (hb : b < n) : ∃ k ≤ n - 1, ringGatherBlock n k v = b := by
  refine ⟨(v + n + 1 - b) % n, Nat.le_sub_one_of_lt (Nat.mod_lt _ (by omega)), ?_⟩
  rcases Nat.lt_or_ge (v + n + 1 - b) (2 * n) with hlt | hge
  · rw [mod_eq_ite hlt, ringGatherBlock]
    split_ifs
    · rw [show v + n - (v + n + 1 - b) + 1 = b by omega, Nat.mod_eq_of_lt hb]
    · rw [show v + n - (v + n + 1 - b - n) + 1 = b + n by omega, Nat.add_mod_right,
        Nat.mod_eq_of_lt hb]
  · rw [show v + n + 1 - b = n + n by omega, Nat.add_mod_right, Nat.mod_self, ringGatherBlock,
      show v + n - 0 + 1 = b + n + n by omega, Nat.add_mod_right, Nat.add_mod_right,
      Nat.mod_eq_of_lt hb]

/-! ### What a block has become -/

section Products

variable [Semigroup β] (n) (x : ℕ → β)

/-- The inputs of `d + 1` ranks from rank `b` on. -/
def ringProd (b d : ℕ) : β := prodFrom (fun i => x (i % n)) b d

/-- Block `b` at rank `v` before step `k`. -/
def ringValue (k v b : ℕ) : β := if ringDist n v b ≤ k then ringProd n x b (ringDist n v b) else x v

variable {n x}

theorem ringProd_zero (hb : b < n) : ringProd n x b 0 = x b := by
  rw [ringProd, prodFrom, Nat.mod_eq_of_lt hb]

theorem ringValue_zero (hv : v < n) (hb : b < n) : ringValue n x 0 v b = x v := by
  rw [ringValue]
  split_ifs with h
  · have hd : ringDist n v b = 0 := Nat.le_zero.mp h
    have hvb : ringSendBlock n 0 v = b := (ringSendBlock_eq_iff hv (by omega) hb).mpr hd
    rw [ringSendBlock, Nat.sub_zero, Nat.add_mod_right, Nat.mod_eq_of_lt hv] at hvb
    rw [hd, ringProd_zero hb, hvb]
  · rfl

theorem ringValue_sendBlock (hv : v < n) (hk : k < n) :
    ringValue n x k v (ringSendBlock n k v) = ringProd n x (ringSendBlock n k v) k := by
  rw [ringValue, ringDist_sendBlock hv hk, if_pos le_rfl]

/-- The block that comes in step `k` gets the rank's input. -/
theorem ringValue_recvBlock (hv : v < n) (hk : k + 1 < n) :
    ringValue n x (k + 1) v (ringRecvBlock n k v) =
      ringProd n x (ringRecvBlock n k v) k * ringValue n x k v (ringRecvBlock n k v) := by
  rw [ringValue, ringValue, ringDist_recvBlock hv hk, if_pos le_rfl, if_neg (by omega), ringProd,
    ringProd, prodFrom, recvBlock_add hv hk]

/-- The other blocks stay as they are. -/
theorem ringValue_other (hv : v < n) (hk : k + 1 < n) (hb : b < n) (hne : b ≠ ringRecvBlock n k v) :
    ringValue n x (k + 1) v b = ringValue n x k v b := by
  have hdist : ringDist n v b ≠ k + 1 := fun hd => hne
    (by rw [ringRecvBlock_eq, (ringSendBlock_eq_iff hv hk hb).mpr hd])
  have hle : ringDist n v b ≤ k + 1 ↔ ringDist n v b ≤ k := by omega
  rw [ringValue, ringValue]
  simp only [hle]

end Products

theorem prodFrom_congr [Semigroup β] {x y : ℕ → β} {lo lo' : ℕ} : ∀ {k : ℕ},
    (∀ i ≤ k, x (lo + i) = y (lo' + i)) → prodFrom x lo k = prodFrom y lo' k
  | 0, h => h 0 le_rfl
  | k + 1, h => by
    rw [prodFrom, prodFrom, prodFrom_congr fun i hi => h i (by omega)]
    exact congrArg _ (h (k + 1) le_rfl)

/-- All the way round, a block has become the combination of all inputs. -/
theorem ringProd_all [CommSemigroup β] {x : ℕ → β} (hb : b < n) :
    ringProd n x b (n - 1) = prodFrom x 0 (n - 1) := by
  have hsame {lo j : ℕ} (h : lo + j < n) : prodFrom (fun i => x (i % n)) lo j = prodFrom x lo j :=
    prodFrom_congr fun i hi => by rw [Nat.mod_eq_of_lt (by omega)]
  rcases Nat.eq_zero_or_pos b with rfl | hpos
  · rw [ringProd, hsame (by omega)]
  -- the ranks from `b` on, and those before it
  have hround : prodFrom (fun i => x (i % n)) n (b - 1) = prodFrom x 0 (b - 1) :=
    prodFrom_congr fun i hi => by
      rw [Nat.add_mod_left, Nat.mod_eq_of_lt (by omega), Nat.zero_add]
  have hfrom := prodFrom_mul (fun i => x (i % n)) b (n - 1 - b) (b - 1)
  rw [show b + (n - 1 - b) + 1 = n by omega, show n - 1 - b + (b - 1) + 1 = n - 1 by omega, hround,
    hsame (by omega)] at hfrom
  have hall := prodFrom_mul x 0 (b - 1) (n - 1 - b)
  rw [show 0 + (b - 1) + 1 = b by omega, show b - 1 + (n - 1 - b) + 1 = n - 1 by omega] at hall
  rw [ringProd, ← hfrom, ← hall, mul_comm]

/-! ### The messages of a step -/

/-- Rank `v` receives from its left neighbour and sends to its right one. -/
def ringEvents (n : ℕ) (sent received : ℕ → List β) (v : ℕ) : List (Event β) :=
  if v < n then [.recv (leftOf n v) (received v) ∅, .send (rightOf n v) (sent v) ∅] else []

theorem matched_ringEvents {sent received : ℕ → List β}
    (h : ∀ v < n, sent v = received (rightOf n v)) : Matched (ringEvents n sent received) := by
  intro s r
  rw [ringEvents, ringEvents]
  split_ifs with hs hr hr
  · simp only [sendsTo_recv, sendsTo_send, sendsTo_nil, recvsFrom_recv, recvsFrom_send,
      recvsFrom_nil]
    by_cases hright : rightOf n s = r
    · rw [if_pos hright, if_pos ((rightOf_eq_iff hs hr).mp hright), h s hs, hright]
    · rw [if_neg hright, if_neg fun hleft => hright ((rightOf_eq_iff hs hr).mpr hleft)]
  · have hlt : rightOf n s < n := rightOf_lt (by omega)
    simp only [sendsTo_recv, sendsTo_send, sendsTo_nil, recvsFrom_nil]
    exact if_neg (by omega)
  · have hlt : leftOf n r < n := leftOf_lt (by omega)
    simp only [sendsTo_nil, recvsFrom_recv, recvsFrom_send, recvsFrom_nil]
    exact (if_neg (by omega)).symm
  · rfl

end Kucg.Algo
