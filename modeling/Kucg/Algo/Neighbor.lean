import Kucg.Algo.RingHpl

/-! The neighbour exchange on an even ring.

    Rank `2 * q` and rank `2 * q + 1` first exchange their blocks. From then on blocks move in
    pairs: in each step a rank passes on the pair that came last, to the one neighbour and to the
    other one in turn. The pair that comes in step `k` is `k` further away than that of the rank
    (`neighborBase`). -/

namespace Kucg.Algo

open Kucg.Lib

variable {β : Type}

/-- The first block of the pair that rank `v` has got in step `k`. -/
def neighborBase (n k v : ℕ) : ℕ := if (v + k) % 2 = 0 then (v + k) % n else (v + n - k - 1) % n

/-- What rank `v` does first. -/
def neighborInit (n v : ℕ) : Sched ℕ β :=
  [.send (hplPeer n 0 v) [v], .recv 0 (hplPeer n 0 v) [hplPeer n 0 v], .wait]

/-- What it does in step `k`. -/
def neighborStep (n k v : ℕ) : Sched ℕ β :=
  [.send (hplPeer n k v) [neighborBase n (k - 1) v],
    .send (hplPeer n k v) [neighborBase n (k - 1) v + 1],
    .recv 0 (hplPeer n k v) [neighborBase n k v],
    .recv 0 (hplPeer n k v) [neighborBase n k v + 1], .wait]

/-- All steps. -/
def neighborRounds (n : ℕ) : List (ℕ → Sched ℕ β) :=
  neighborInit n :: (List.range (n / 2 - 1)).map fun k => neighborStep n (k + 1)

section Step

variable {n k v w : ℕ}

/-- A pair begins with an even number. -/
theorem neighborBase_mod_two (hn : n % 2 = 0) (hv : v < n) (hk : k < n) :
    neighborBase n k v % 2 = 0 := by
  rw [neighborBase]
  split_ifs
  · rw [mod_eq_ite (by omega : v + k < 2 * n)]
    split_ifs <;> omega
  · rw [mod_eq_ite (by omega : v + n - k - 1 < 2 * n)]
    split_ifs <;> omega

theorem neighborBase_lt (hn : n % 2 = 0) (hv : v < n) (hk : k < n) :
    neighborBase n k v + 1 < n := by
  have hpar := neighborBase_mod_two hn hv hk
  have hlt : neighborBase n k v < n := by
    rw [neighborBase]
    split_ifs <;> exact Nat.mod_lt _ (by omega)
  omega

/-- The peers of a step are peers of each other. -/
theorem hplPeer_symm (hn : n % 2 = 0) (hv : v < n) (hw : w < n) :
    hplPeer n k v = w ↔ hplPeer n k w = v := by
  have hpeer {v w : ℕ} (hv : v < n) (hw : w < n) (h : hplPeer n k v = w) : hplPeer n k w = v := by
    rw [hplPeer_eq hv] at h
    rw [hplPeer_eq hw]
    split_ifs at h ⊢ <;> omega
  exact ⟨hpeer hv hw, hpeer hw hv⟩

/-- What a rank passes on in a step is what its peer has got in it. -/
theorem neighborBase_peer (hn : n % 2 = 0) (hv : v < n) (hw : w < n) (hk : k + 1 < n)
    (h : hplPeer n (k + 1) v = w) : neighborBase n k v = neighborBase n (k + 1) w := by
  rw [hplPeer_eq hv] at h
  by_cases hpar : (v + k) % 2 = 0
  · rw [neighborBase, neighborBase, if_pos hpar]
    rw [if_pos (by omega)] at h
    split_ifs at h with hzero
    · rw [if_pos (by omega), show w + (k + 1) = v + k + n by omega, Nat.add_mod_right]
    · rw [if_pos (by omega), show w + (k + 1) = v + k by omega]
  · rw [neighborBase, neighborBase, if_neg hpar]
    rw [if_neg (by omega)] at h
    split_ifs at h with hlast
    · rw [if_neg (by omega), show v + n - k - 1 = w + n - (k + 1) - 1 + n by omega,
        Nat.add_mod_right]
    · rw [if_neg (by omega), show w + n - (k + 1) - 1 = v + n - k - 1 by omega]

theorem sendsTo_neighborStep : (neighborStep n k v : Sched ℕ β).sendsTo w =
    if hplPeer n k v = w then [[neighborBase n (k - 1) v], [neighborBase n (k - 1) v + 1]]
    else [] := by
  rw [neighborStep, Sched.sendsTo]
  split_ifs with h <;> simp [Cmd.sentTo, h]

theorem recvsFrom_neighborStep : (neighborStep n k w : Sched ℕ β).recvsFrom v =
    if hplPeer n k w = v then [[neighborBase n k w], [neighborBase n k w + 1]] else [] := by
  rw [neighborStep, Sched.recvsFrom]
  split_ifs with h <;> simp [List.filterMap_cons, Cmd.receivedFrom, h]

theorem fitRound_neighborStep (hn : n % 2 = 0) (hk : k + 1 < n) :
    FitRound n {b | b < n} (neighborStep n (k + 1) : ℕ → Sched ℕ β) where
  moves v hv c hc := by
    have hpos : 0 < n := by omega
    have hold := neighborBase_lt hn hv (show k < n by omega)
    have hnew := neighborBase_lt hn hv hk
    have hblock {b b' : ℕ} (hb : b < n) : b' ∈ [b] → b' < n := fun h =>
      List.mem_singleton.mp h ▸ hb
    simp only [neighborStep, List.mem_cons, List.not_mem_nil, or_false] at hc
    obtain rfl | rfl | rfl | rfl | rfl := hc
    · exact ⟨hplPeer_lt hpos, fun b => hblock (by rw [Nat.add_sub_cancel]; omega)⟩
    · exact ⟨hplPeer_lt hpos, fun b => hblock (by rw [Nat.add_sub_cancel]; omega)⟩
    · exact ⟨hplPeer_lt hpos, fun b => hblock (by omega)⟩
    · exact ⟨hplPeer_lt hpos, fun b => hblock hnew⟩
    · trivial
  matched v hv w hw := by
    rw [sendsTo_neighborStep, recvsFrom_neighborStep, Nat.add_sub_cancel]
    by_cases h : hplPeer n (k + 1) v = w
    · rw [if_pos h, if_pos ((hplPeer_symm hn hv hw).mp h), neighborBase_peer hn hv hw hk h]
    · rw [if_neg h, if_neg (mt (hplPeer_symm hn hv hw).mpr h)]
  batch v hv := by simp [neighborStep, Sched.Batch, Sched.stamp, Timed, Late]

theorem sendsTo_neighborInit : (neighborInit n v : Sched ℕ β).sendsTo w =
    if hplPeer n 0 v = w then [[v]] else [] := by
  rw [neighborInit, Sched.sendsTo]
  split_ifs with h <;> simp [Cmd.sentTo, h]

theorem recvsFrom_neighborInit : (neighborInit n w : Sched ℕ β).recvsFrom v =
    if hplPeer n 0 w = v then [[hplPeer n 0 w]] else [] := by
  rw [neighborInit, Sched.recvsFrom]
  split_ifs with h <;> simp [List.filterMap_cons, Cmd.receivedFrom, h]

theorem fitRound_neighborInit (hn : n % 2 = 0) :
    FitRound n {b | b < n} (neighborInit n : ℕ → Sched ℕ β) where
  moves v hv c hc := by
    have hpos : 0 < n := by omega
    simp only [neighborInit, List.mem_cons, List.not_mem_nil, or_false] at hc
    obtain rfl | rfl | rfl := hc
    · exact ⟨hplPeer_lt hpos, fun b hb => List.mem_singleton.mp hb ▸ hv⟩
    · exact ⟨hplPeer_lt hpos, fun b hb => List.mem_singleton.mp hb ▸ hplPeer_lt hpos⟩
    · trivial
  matched v hv w hw := by
    rw [sendsTo_neighborInit, recvsFrom_neighborInit]
    by_cases h : hplPeer n 0 v = w
    · have hback := (hplPeer_symm hn hv hw).mp h
      rw [if_pos h, if_pos hback, hback]
    · rw [if_neg h, if_neg (mt (hplPeer_symm hn hv hw).mpr h)]
  batch v hv := by simp [neighborInit, Sched.Batch, Sched.stamp, Timed, Late]

end Step

/-! ### The blocks of a rank -/

/-- The pairs that have come before step `k`. -/
def neighborHas (n k v : ℕ) : Set ℕ :=
  {b | ∃ j < k, b = neighborBase n j v ∨ b = neighborBase n j v + 1}

section Has

variable {n k v : ℕ}

theorem gathers_neighborStep {x : ℕ → β} {has : Set ℕ} (hhas : neighborHas n (k + 1) v ⊆ has) :
    Sched.gathers x (fun has' pend => pend = [] ∧ neighborHas n (k + 2) v ⊆ has')
      (neighborStep n (k + 1) v) has [] := by
  have hnone (b : ℕ) : ∀ dst ∈ ([] : List (List ℕ)), b ∉ dst :=
    fun _ hd => absurd hd List.not_mem_nil
  have hold : neighborBase n k v ∈ has ∧ neighborBase n k v + 1 ∈ has :=
    ⟨hhas ⟨k, k.lt_succ_self, Or.inl rfl⟩, hhas ⟨k, k.lt_succ_self, Or.inr rfl⟩⟩
  rw [neighborStep, Nat.add_sub_cancel]
  refine ⟨fun b hb => ⟨List.mem_singleton.mp hb ▸ hold.1, hnone b⟩,
    fun b hb => ⟨List.mem_singleton.mp hb ▸ hold.2, hnone b⟩, rfl, ?_⟩
  rintro b ⟨j, hj, hb⟩
  rcases Nat.lt_or_ge j (k + 1) with hlt | hge
  · exact Or.inl (Or.inl (hhas ⟨j, hlt, hb⟩))
  · obtain rfl : j = k + 1 := by omega
    rcases hb with rfl | rfl
    · exact Or.inl (Or.inr (List.mem_singleton.mpr rfl))
    · exact Or.inr (List.mem_singleton.mpr rfl)

/-- The first exchange completes the pair of a rank. -/
theorem gathers_neighborInit (hn : n % 2 = 0) (hv : v < n) {x : ℕ → β} {has : Set ℕ}
    (hhas : v ∈ has) :
    Sched.gathers x (fun has' pend => pend = [] ∧ neighborHas n 1 v ⊆ has') (neighborInit n v) has
      [] := by
  refine ⟨fun b hb => ⟨List.mem_singleton.mp hb ▸ hhas, fun _ hd => absurd hd List.not_mem_nil⟩,
    rfl, ?_⟩
  rintro b ⟨j, hj, hb⟩
  obtain rfl : j = 0 := by omega
  have hpair : b = v ∨ b = hplPeer n 0 v := by
    rw [hplPeer_eq hv]
    rw [neighborBase, mod_eq_ite (by omega : v + 0 < 2 * n),
      mod_eq_ite (by omega : v + n - 0 - 1 < 2 * n)] at hb
    split_ifs at hb ⊢ <;> omega
  rcases hpair with rfl | rfl
  · exact Or.inl hhas
  · exact Or.inr (List.mem_singleton.mpr rfl)

/-- After the last step a rank has all pairs. -/
theorem neighborHas_last (hn : n % 2 = 0) (hv : v < n) {b : ℕ} (hb : b < n) :
    b ∈ neighborHas n (n / 2) v := by
  -- the pair is `d` to the right of the rank, and `n - d` to the left
  have hbase : ∃ j < n / 2, neighborBase n j v = b - b % 2 := by
    have hd : (b - b % 2 + n - v) % n < n := Nat.mod_lt _ (by omega)
    have hd' := mod_eq_ite (show b - b % 2 + n - v < 2 * n by omega)
    generalize (b - b % 2 + n - v) % n = d at hd hd'
    have hmod : (v + d) % n = b - b % 2 := by
      rw [mod_eq_ite (by omega)]
      split_ifs at hd' ⊢ <;> omega
    have hpar : (v + d) % 2 = 0 := by
      split_ifs at hd' <;> omega
    rcases Nat.lt_or_ge d (n / 2) with hlt | hge
    · exact ⟨d, hlt, by rw [neighborBase, if_pos hpar, hmod]⟩
    · refine ⟨n - d - 1, by omega, ?_⟩
      rw [neighborBase, if_neg (by omega), show v + n - (n - d - 1) - 1 = v + d by omega, hmod]
  obtain ⟨j, hj, hbase⟩ := hbase
  exact ⟨j, hj, by omega⟩

theorem spreads_neighborRounds (hn : n % 2 = 0) (x : ℕ → β) :
    Spreads n {b | b < n} (fun v => {v}) x (neighborRounds n) where
  round := by
    refine List.forall_mem_cons.mpr ⟨fitRound_neighborInit hn, fun R hR => ?_⟩
    obtain ⟨k, hk, rfl⟩ := List.mem_map.mp hR
    have hk := List.mem_range.mp hk
    exact fitRound_neighborStep hn (by omega)
  gathers v hv := by
    rw [neighborRounds, List.flatMap_cons, List.flatMap_map, gathers_append]
    refine gathers_imp ?_ (gathers_neighborInit hn hv rfl)
    rintro has pend ⟨rfl, hhas⟩
    refine gathers_imp ?_ (gathers_rounds (H := fun k => neighborHas n (k + 1) v) (n / 2 - 1)
      (fun k _ has' hhas' => gathers_neighborStep hhas') hhas)
    rintro has' pend' ⟨rfl, hall⟩
    rw [Nat.sub_add_cancel (by omega)] at hall
    exact ⟨rfl, fun b hb => hall (neighborHas_last hn hv hb)⟩

end Has

end Kucg.Algo
