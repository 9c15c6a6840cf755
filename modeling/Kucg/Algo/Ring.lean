import Kucg.Algo.Exchange

/-! The ring of `ucg_ring.c`: in every step each rank sends a block to its right neighbour and
    receives one from its left neighbour.

    A rank passes on what it has received in the step before, so that after step `k` it has its own
    block and the `k` blocks to the left of it (`ringHas`), and after `n - 1` steps all of them. -/

namespace Kucg.Algo

open Kucg.Lib

variable {β : Type}

/-- `ucg_algo_ring_iter_t`. -/
structure RingIter where
  left : ℕ
  right : ℕ
  idx : ℕ
  maxIdx : ℕ

namespace RingIter

/-- `ucg_algo_ring_iter_init`. -/
def init (size myrank : ℕ) : RingIter where
  left := leftOf size myrank
  right := rightOf size myrank
  idx := 0
  maxIdx := size - 1

/-- `ucg_algo_ring_iter_reset`. -/
def reset (iter : RingIter) : RingIter := { iter with idx := 0 }

/-- `ucg_algo_ring_iter_inc`. -/
def inc (iter : RingIter) : RingIter := { iter with idx := iter.idx + 1 }

/-- `ucg_algo_ring_iter_left_value`. -/
def leftValue (iter : RingIter) : Option ℕ :=
  if iter.idx < iter.maxIdx then some iter.left else none

/-- `ucg_algo_ring_iter_right_value`. -/
def rightValue (iter : RingIter) : Option ℕ :=
  if iter.idx < iter.maxIdx then some iter.right else none

end RingIter

/-- The block that rank `v` sends in step `k`. -/
def ringSendBlock (n k v : ℕ) : ℕ := (v + n - k) % n

/-- The block that it receives. -/
def ringRecvBlock (n k v : ℕ) : ℕ := (v + n - k - 1) % n

/-- What rank `v` does in step `k`. -/
def ringRound (n k v : ℕ) : Sched ℕ β :=
  [.send (rightOf n v) [ringSendBlock n k v], .recv 0 (leftOf n v) [ringRecvBlock n k v], .wait]

/-- The steps. -/
def ringRounds (n : ℕ) : List (ℕ → Sched ℕ β) := (List.range (n - 1)).map (ringRound n)

section Step

variable {n k v w : ℕ}

theorem ringSendBlock_lt (hn : 0 < n) : ringSendBlock n k v < n := Nat.mod_lt _ hn

theorem ringRecvBlock_lt (hn : 0 < n) : ringRecvBlock n k v < n := Nat.mod_lt _ hn

/-- A rank sends what its right neighbour receives. -/
theorem ringSendBlock_eq (hk : k + 1 < n) (hv : v < n) :
    ringSendBlock n k v = ringRecvBlock n k (rightOf n v) := by
  rw [ringSendBlock, ringRecvBlock, rightOf, mod_eq_ite (by omega : v + 1 < 2 * n)]
  split_ifs with h
  · rw [show v + 1 + n - k - 1 = v + n - k by omega]
  · rw [show v + n - k = v + 1 - n + n - k - 1 + n by omega, Nat.add_mod_right]

theorem sendsTo_ringRound : (ringRound n k v : Sched ℕ β).sendsTo w =
    if rightOf n v = w then [[ringSendBlock n k v]] else [] := by
  rw [ringRound, Sched.sendsTo]
  split_ifs with h <;> simp [Cmd.sentTo, h]

theorem recvsFrom_ringRound : (ringRound n k w : Sched ℕ β).recvsFrom v =
    if leftOf n w = v then [[ringRecvBlock n k w]] else [] := by
  rw [ringRound, Sched.recvsFrom]
  split_ifs with h <;> simp [List.filterMap_cons, Cmd.receivedFrom, h]

theorem fitRound_ringRound (hk : k + 1 < n) :
    FitRound n {b | b < n} (ringRound n k : ℕ → Sched ℕ β) where
  moves v hv c hc := by
    have hn : 0 < n := by omega
    simp only [ringRound, List.mem_cons, List.not_mem_nil, or_false] at hc
    obtain rfl | rfl | rfl := hc
    · exact ⟨rightOf_lt hn, fun b hb => List.mem_singleton.mp hb ▸ ringSendBlock_lt hn⟩
    · exact ⟨leftOf_lt hn, fun b hb => List.mem_singleton.mp hb ▸ ringRecvBlock_lt hn⟩
    · trivial
  matched v hv w hw := by
    rw [sendsTo_ringRound, recvsFrom_ringRound, ringSendBlock_eq hk hv]
    by_cases h : rightOf n v = w
    · rw [if_pos h, if_pos ((rightOf_eq_iff hv hw).mp h), h]
    · rw [if_neg h, if_neg fun h' => h ((rightOf_eq_iff hv hw).mpr h')]
  batch v hv := by simp [ringRound, Sched.Batch, Sched.stamp, Timed, Late]

end Step

/-! ### The blocks of a rank -/

/-- The blocks that rank `v` has before step `k`. -/
def ringHas (n k v : ℕ) : Set ℕ := {b | ∃ j ≤ k, b = ringSendBlock n j v}

section Has

variable {n k v : ℕ}

theorem gathers_ringRound {x : ℕ → β} {has : Set ℕ} (hhas : ringHas n k v ⊆ has) :
    Sched.gathers x (fun has' pend => pend = [] ∧ ringHas n (k + 1) v ⊆ has') (ringRound n k v) has
      [] := by
  refine ⟨fun b hb => ⟨hhas ⟨k, le_rfl, List.mem_singleton.mp hb⟩,
    fun _ hd => absurd hd List.not_mem_nil⟩, rfl, ?_⟩
  rintro b ⟨j, hj, rfl⟩
  rcases hj.lt_or_eq with hlt | rfl
  · exact Or.inl (hhas ⟨j, by omega, rfl⟩)
  · exact Or.inr (List.mem_singleton.mpr rfl)

/-- Before the first step a rank needs its own block. -/
theorem ringHas_zero (hv : v < n) : ringHas n 0 v ⊆ {v} := by
  rintro b ⟨j, hj, rfl⟩
  obtain rfl := Nat.le_zero.mp hj
  rw [Set.mem_singleton_iff, ringSendBlock, Nat.sub_zero, Nat.add_mod_right, Nat.mod_eq_of_lt hv]

/-- After the last step it has all blocks. -/
theorem ringHas_last (hv : v < n) {b : ℕ} (hb : b < n) : b ∈ ringHas n (n - 1) v := by
  refine ⟨(v + n - b) % n, Nat.le_sub_one_of_lt (Nat.mod_lt _ (by omega)), ?_⟩
  rw [ringSendBlock, mod_eq_ite (by omega : v + n - b < 2 * n)]
  split_ifs
  · rw [show v + n - (v + n - b) = b by omega, Nat.mod_eq_of_lt hb]
  · rw [show v + n - (v + n - b - n) = b + n by omega, Nat.add_mod_right, Nat.mod_eq_of_lt hb]

/-- The steps bring every rank all blocks. -/
theorem gathers_ringRounds (hv : v < n) {x : ℕ → β} {has : Set ℕ} (hhas : v ∈ has) :
    Sched.gathers x (fun has' pend => pend = [] ∧ {b | b < n} ⊆ has')
      ((ringRounds n).flatMap fun R => R v) has [] := by
  rw [ringRounds, List.flatMap_map]
  refine gathers_imp ?_ (gathers_rounds (H := fun k => ringHas n k v) (n - 1)
    (fun k _ has' hhas' => gathers_ringRound hhas')
    ((ringHas_zero hv).trans (Set.singleton_subset_iff.mpr hhas)))
  rintro has' pend ⟨rfl, hall⟩
  exact ⟨rfl, fun b hb => hall (ringHas_last hv hb)⟩

theorem spreads_ringRounds (n : ℕ) (x : ℕ → β) :
    Spreads n {b | b < n} (fun v => {v}) x (ringRounds n) where
  round R hR := by
    obtain ⟨k, hk, rfl⟩ := List.mem_map.mp hR
    have hk := List.mem_range.mp hk
    exact fitRound_ringRound (by omega)
  gathers v hv := gathers_ringRounds hv rfl

end Has

end Kucg.Algo
