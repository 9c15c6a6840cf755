import Kucg.Algo.Exchange

/-! The ring in which neighbours exchange blocks: in step `k` the rank `v` exchanges with its right
    neighbour if `v + k` is even, with its left one otherwise.

    The two neighbours are in the same step, but for rank 0 and the last rank of an odd ring, of
    which the last one is a step behind. So the exchanges are put into rounds of two kinds, those
    along the line of the ranks (`hplLine`) and those across its ends (`hplWrap`); each rank does
    its exchanges in the order of its steps (`flatMap_hplRounds`). -/

namespace Kucg.Algo

open Kucg.Lib

variable {β : Type}

/-- The neighbour that rank `v` exchanges with in step `k`. -/
def hplPeer (n k v : ℕ) : ℕ := if (v + k) % 2 ≠ 0 then leftOf n v else rightOf n v

/-- The block that it sends. -/
def hplSendBlock (n k v : ℕ) : ℕ :=
  if hplPeer n k v = rightOf n v then (v + n - k / 2) % n else (v + k / 2 + n) % n

/-- The block that it receives. -/
def hplRecvBlock (n k v : ℕ) : ℕ :=
  if hplPeer n k v = rightOf n v then (hplPeer n k v + k / 2 + n) % n
  else (hplPeer n k v + n - k / 2) % n

/-- What rank `v` does in step `k`. -/
def hplStep (n k v : ℕ) : Sched ℕ β :=
  [.send (hplPeer n k v) [hplSendBlock n k v], .recv 0 (hplPeer n k v) [hplRecvBlock n k v], .wait]

/-- The neighbour is on the same line from rank 0 to the last rank. -/
def OnLine (n k v : ℕ) : Prop := (v + k) % 2 = 0 ∧ v + 1 < n ∨ (v + k) % 2 = 1 ∧ 0 < v

instance (n k v : ℕ) : Decidable (OnLine n k v) := inferInstanceAs (Decidable (_ ∨ _))

/-- The exchanges of step `k` but that of the two ends. -/
def hplLine (n k v : ℕ) : Sched ℕ β := if OnLine n k v then hplStep n k v else []

/-- The exchange of the two ends in step `k` of rank 0. -/
def hplWrap (n k v : ℕ) : Sched ℕ β :=
  if k % 2 = 1 ∧ v = 0 then hplStep n k v
  else if k % 2 = 1 ∧ v + 1 = n then hplStep n (k - n % 2) v
  else []

/-- All exchanges. -/
def hplRounds (n : ℕ) : List (ℕ → Sched ℕ β) :=
  (List.range (n - 1)).flatMap fun k => [hplWrap n k, hplLine n k]

section Step

variable {n k v w : ℕ}

theorem hplPeer_lt (hn : 0 < n) : hplPeer n k v < n := by
  rw [hplPeer]
  split_ifs
  · exact leftOf_lt hn
  · exact rightOf_lt hn

theorem hplPeer_eq (hv : v < n) : hplPeer n k v =
    if (v + k) % 2 ≠ 0 then (if v = 0 then n - 1 else v - 1)
    else if v + 1 = n then 0 else v + 1 := by
  rw [hplPeer, leftOf, rightOf, mod_eq_ite (by omega : v + n - 1 < 2 * n),
    mod_eq_ite (by omega : v + 1 < 2 * n)]
  split_ifs <;> omega

/-- The peer is the right neighbour in every other step; of two ranks it always is. -/
theorem hplPeer_eq_right_iff (hn : 2 ≤ n) (hv : v < n) :
    hplPeer n k v = rightOf n v ↔ (v + k) % 2 = 0 ∨ n = 2 := by
  have hsame : leftOf n v = rightOf n v ↔ n = 2 := by
    rw [leftOf, rightOf, mod_eq_ite (by omega), mod_eq_ite (by omega)]
    split_ifs <;> omega
  rw [hplPeer]
  split_ifs with h
  · rw [hsame]
    omega
  · simp only [true_iff]
    omega

theorem hplSendBlock_eq (hk : k + 1 < n) (hv : v < n) : hplSendBlock n k v =
    if (v + k) % 2 = 0 then (v + n - k / 2) % n else (v + k / 2) % n := by
  have hiff := hplPeer_eq_right_iff (k := k) (by omega : 2 ≤ n) hv
  rw [hplSendBlock, Nat.add_mod_right]
  by_cases hpar : (v + k) % 2 = 0
  · rw [if_pos (hiff.mpr (Or.inl hpar)), if_pos hpar]
  · rw [if_neg hpar]
    split_ifs with hright
    · obtain rfl : n = 2 := (hiff.mp hright).resolve_left hpar
      obtain rfl : k = 0 := by omega
      simp
    · rfl

theorem hplRecvBlock_eq (hk : k + 1 < n) (hv : v < n) : hplRecvBlock n k v =
    if (v + k) % 2 = 0 then (v + 1 + k / 2) % n else (v + n - 1 - k / 2) % n := by
  have hiff := hplPeer_eq_right_iff (k := k) (by omega : 2 ≤ n) hv
  rw [hplRecvBlock, Nat.add_mod_right]
  by_cases hpar : (v + k) % 2 = 0
  · have hpeer := hiff.mpr (Or.inl hpar)
    rw [if_pos hpeer, if_pos hpar, hpeer, rightOf, Nat.mod_add_mod]
  · rw [if_neg hpar]
    split_ifs with hright
    · obtain rfl : n = 2 := (hiff.mp hright).resolve_left hpar
      obtain rfl : k = 0 := by omega
      rw [hright, rightOf]
      omega
    · have hpeer : hplPeer n k v = leftOf n v := if_pos hpar
      rw [hpeer, leftOf, mod_eq_ite (by omega : v + n - 1 < 2 * n)]
      split_ifs
      · rw [show v + n - 1 + n - k / 2 = v + n - 1 - k / 2 + n by omega, Nat.add_mod_right]
      · rw [show v + n - 1 - n + n - k / 2 = v + n - 1 - k / 2 by omega]

theorem hplSendBlock_lt (hk : k + 1 < n) (hv : v < n) : hplSendBlock n k v < n := by
  rw [hplSendBlock_eq hk hv]
  split_ifs <;> exact Nat.mod_lt _ (by omega)

theorem hplRecvBlock_lt (hk : k + 1 < n) (hv : v < n) : hplRecvBlock n k v < n := by
  rw [hplRecvBlock_eq hk hv]
  split_ifs <;> exact Nat.mod_lt _ (by omega)

theorem sendsTo_hplStep : (hplStep n k v : Sched ℕ β).sendsTo w =
    if hplPeer n k v = w then [[hplSendBlock n k v]] else [] := by
  rw [hplStep, Sched.sendsTo]
  split_ifs with h <;> simp [Cmd.sentTo, h]

theorem recvsFrom_hplStep : (hplStep n k w : Sched ℕ β).recvsFrom v =
    if hplPeer n k w = v then [[hplRecvBlock n k w]] else [] := by
  rw [hplStep, Sched.recvsFrom]
  split_ifs with h <;> simp [List.filterMap_cons, Cmd.receivedFrom, h]

theorem moves_hplStep (hk : k + 1 < n) (hv : v < n) :
    ∀ c ∈ (hplStep n k v : Sched ℕ β), c.Moves n {b | b < n} := by
  intro c hc
  simp only [hplStep, List.mem_cons, List.not_mem_nil, or_false] at hc
  obtain rfl | rfl | rfl := hc
  · exact ⟨hplPeer_lt (by omega), fun b hb => List.mem_singleton.mp hb ▸ hplSendBlock_lt hk hv⟩
  · exact ⟨hplPeer_lt (by omega), fun b hb => List.mem_singleton.mp hb ▸ hplRecvBlock_lt hk hv⟩
  · trivial

theorem batch_hplStep : (hplStep n k v : Sched ℕ β).Batch := by
  simp [hplStep, Sched.Batch, Sched.stamp, Timed, Late]

/-- The peer of a rank on the line. -/
theorem OnLine.peer (h : OnLine n k v) (hv : v < n) :
    hplPeer n k v = if (v + k) % 2 = 0 then v + 1 else v - 1 := by
  rcases h with ⟨hpar, hlt⟩ | ⟨hpar, hpos⟩
  · rw [hplPeer, if_neg (by omega), if_pos hpar, rightOf, Nat.mod_eq_of_lt hlt]
  · rw [hplPeer, if_pos (by omega), if_neg (by omega), leftOf,
      show v + n - 1 = v - 1 + n by omega, Nat.add_mod_right, Nat.mod_eq_of_lt (by omega)]

theorem sendsTo_hplLine : (hplLine n k v : Sched ℕ β).sendsTo w =
    if OnLine n k v ∧ hplPeer n k v = w then [[hplSendBlock n k v]] else [] := by
  rw [hplLine]
  by_cases h : OnLine n k v
  · rw [if_pos h, sendsTo_hplStep]
    simp only [h, true_and]
  · rw [if_neg h, if_neg fun h' => h h'.1]
    rfl

theorem recvsFrom_hplLine : (hplLine n k w : Sched ℕ β).recvsFrom v =
    if OnLine n k w ∧ hplPeer n k w = v then [[hplRecvBlock n k w]] else [] := by
  rw [hplLine]
  by_cases h : OnLine n k w
  · rw [if_pos h, recvsFrom_hplStep]
    simp only [h, true_and]
  · rw [if_neg h, if_neg fun h' => h h'.1]
    rfl

/-- The peer of a rank on the line has it as its peer, and receives what it sends. -/
theorem OnLine.symm (h : OnLine n k v) (hk : k + 1 < n) (hv : v < n) (hpeer : hplPeer n k v = w) :
    OnLine n k w ∧ hplPeer n k w = v ∧ hplSendBlock n k v = hplRecvBlock n k w := by
  rw [h.peer hv] at hpeer
  rcases h with ⟨hpar, hlt⟩ | ⟨hpar, hpos⟩
  · obtain rfl : v + 1 = w := by rwa [if_pos hpar] at hpeer
    have hw : OnLine n k (v + 1) := Or.inr ⟨by omega, by omega⟩
    rw [hw.peer hlt, hplSendBlock_eq hk hv, hplRecvBlock_eq hk hlt, if_neg (by omega),
      if_pos hpar, if_neg (by omega), show v + 1 + n - 1 = v + n by omega]
    exact ⟨hw, by omega, rfl⟩
  · obtain rfl : v - 1 = w := by rwa [if_neg (by omega)] at hpeer
    have hw : OnLine n k (v - 1) := Or.inl ⟨by omega, by omega⟩
    rw [hw.peer (by omega), hplSendBlock_eq hk hv, hplRecvBlock_eq hk (by omega),
      if_pos (by omega), if_neg (by omega), if_pos (by omega), show v - 1 + 1 = v by omega]
    exact ⟨hw, rfl, rfl⟩

/-- Neighbours on the line exchange with each other. -/
theorem fitRound_hplLine (hk : k + 1 < n) :
    FitRound n {b | b < n} (hplLine n k : ℕ → Sched ℕ β) where
  moves v hv c hc := by
    rw [hplLine] at hc
    split_ifs at hc
    · exact moves_hplStep hk hv c hc
    · exact absurd hc List.not_mem_nil
  matched v hv w hw := by
    rw [sendsTo_hplLine, recvsFrom_hplLine]
    by_cases h : OnLine n k v ∧ hplPeer n k v = w
    · obtain ⟨hw, hpeer, hblock⟩ := h.1.symm hk hv h.2
      rw [if_pos h, if_pos ⟨hw, hpeer⟩, hblock]
    · rw [if_neg h, if_neg fun h' => ?_]
      obtain ⟨hv, hpeer, -⟩ := h'.1.symm hk hw h'.2
      exact h ⟨hv, hpeer⟩
  batch v hv := by
    rw [hplLine]
    split_ifs
    · exact batch_hplStep
    · trivial

/-- So do the two ends. -/
theorem fitRound_hplWrap (hk : k + 1 < n) :
    FitRound n {b | b < n} (hplWrap n k : ℕ → Sched ℕ β) where
  moves v hv c hc := by
    rw [hplWrap] at hc
    split_ifs at hc
    · exact moves_hplStep hk hv c hc
    · exact moves_hplStep (by omega) hv c hc
    · exact absurd hc List.not_mem_nil
  matched v hv w hw := by
    -- in an odd step of rank 0 it and the last rank are each other's peers
    have hzero (hpar : k % 2 = 1) : hplPeer n k 0 = n - 1 := by
      rw [hplPeer, if_pos (by omega), leftOf, Nat.zero_add, Nat.mod_eq_of_lt (by omega)]
    have hlast (hpar : k % 2 = 1) (u) (hu : u + 1 = n) : hplPeer n (k - n % 2) u = 0 := by
      rw [hplPeer, if_neg (by omega), rightOf, hu, Nat.mod_self]
    rw [hplWrap, hplWrap]
    by_cases hpar : k % 2 = 1
    · simp only [hpar, true_and]
      have hhalf : (k - n % 2) / 2 = k / 2 := by omega
      rcases eq_or_ne v 0 with rfl | hv0
      · rw [if_pos rfl, sendsTo_hplStep, hzero hpar]
        by_cases hwn : w + 1 = n
        · rw [if_pos (by omega), if_neg (by omega), if_pos hwn, recvsFrom_hplStep,
            hlast hpar w hwn, if_pos rfl, hplSendBlock_eq hk hv, hplRecvBlock_eq (by omega) hw,
            if_neg (by omega), if_pos (by omega), hhalf, hwn, Nat.zero_add, Nat.add_comm n,
            Nat.add_mod_right]
        · rw [if_neg (by omega)]
          rcases eq_or_ne w 0 with rfl | hw0
          · rw [if_pos rfl, recvsFrom_hplStep, hzero hpar, if_neg (by omega)]
          · rw [if_neg hw0, if_neg hwn]
            rfl
      · rw [if_neg hv0]
        by_cases hvn : v + 1 = n
        · rw [if_pos hvn, sendsTo_hplStep, hlast hpar v hvn]
          rcases eq_or_ne w 0 with rfl | hw0
          · rw [if_pos rfl, if_pos rfl, recvsFrom_hplStep, hzero hpar, if_pos (by omega),
              hplSendBlock_eq (by omega) hv, hplRecvBlock_eq hk hw, if_pos (by omega),
              if_neg (by omega), hhalf,
              show v + n - k / 2 = 0 + n - 1 - k / 2 + n by omega, Nat.add_mod_right]
          · rw [if_neg (Ne.symm hw0), if_neg hw0]
            split_ifs with hwn
            · rw [recvsFrom_hplStep, hlast hpar w hwn, if_neg (Ne.symm hv0)]
            · rfl
        · rw [if_neg hvn]
          rcases eq_or_ne w 0 with rfl | hw0
          · rw [if_pos rfl, recvsFrom_hplStep, hzero hpar, if_neg (by omega)]
            rfl
          · rw [if_neg hw0]
            split_ifs with hwn
            · rw [recvsFrom_hplStep, hlast hpar w hwn, if_neg (Ne.symm hv0)]
              rfl
            · rfl
    · simp only [hpar, false_and, if_false]
      rfl
  batch v hv := by
    rw [hplWrap]
    split_ifs
    · exact batch_hplStep
    · exact batch_hplStep
    · trivial

/-- On an odd ring the last rank does two steps in every other round. -/
theorem flatMap_pairs {α : Type} {f g : ℕ → List α} (heven : ∀ j, f (2 * j) = [])
    (hodd : ∀ j, f (2 * j + 1) = g (2 * j) ++ g (2 * j + 1)) :
    ∀ m, (List.range (2 * m)).flatMap f = (List.range (2 * m)).flatMap g
  | 0 => rfl
  | m + 1 => by
    rw [show 2 * (m + 1) = 2 * m + 1 + 1 by omega, List.range_succ, List.range_succ]
    simp only [List.flatMap_append, List.flatMap_singleton, heven, hodd, List.nil_append,
      List.append_assoc, flatMap_pairs heven hodd m]

/-- Each rank does its steps in their order. -/
theorem flatMap_hplRounds (hv : v < n) : ((hplRounds n).flatMap fun R => (R v : Sched ℕ β)) =
    (List.range (n - 1)).flatMap fun k => hplStep n k v := by
  rw [hplRounds, List.flatMap_assoc]
  simp only [List.flatMap_cons, List.flatMap_nil, List.append_nil]
  by_cases hlast : n % 2 = 1 ∧ v + 1 = n
  · obtain ⟨hodd, hvn⟩ := hlast
    rcases Nat.eq_zero_or_pos v with rfl | hpos
    · obtain rfl : n = 1 := by omega
      rfl
    obtain ⟨m, hm⟩ : ∃ m, n - 1 = 2 * m := ⟨(n - 1) / 2, by omega⟩
    rw [hm]
    refine flatMap_pairs (fun j => ?_) (fun j => ?_) m
    · have hline : ¬OnLine n (2 * j) v := by
        unfold OnLine
        omega
      rw [hplWrap, hplLine, if_neg (by omega), if_neg (by omega), if_neg hline]
      rfl
    · have hline : OnLine n (2 * j + 1) v := Or.inr ⟨by omega, hpos⟩
      rw [hplWrap, hplLine, if_neg (by omega), if_pos (by omega), if_pos hline, hodd,
        Nat.add_sub_cancel]
  · refine List.flatMap_congr fun k hk => ?_
    have hk := List.mem_range.mp hk
    rw [hplWrap, hplLine]
    by_cases hline : OnLine n k v
    · rw [if_pos hline, if_neg (by unfold OnLine at hline; omega),
        if_neg (by unfold OnLine at hline; omega), List.nil_append]
    · rw [if_neg hline, List.append_nil]
      unfold OnLine at hline
      rcases Nat.eq_zero_or_pos v with rfl | hpos
      · rw [if_pos (by omega)]
      · rw [if_neg (by omega), if_pos (by omega), show n % 2 = 0 by omega, Nat.sub_zero]

end Step

/-! ### The blocks of a rank -/

/-- The blocks that rank `v` has before step `k`: they reach as far to the right as it has had
    exchanges with its right neighbour, and so to the left. -/
def hplHas (n k v : ℕ) : Set ℕ :=
  {b | (∃ i ≤ (k + 1 - v % 2) / 2, b = (v + i) % n) ∨ ∃ i ≤ (k + v % 2) / 2, b = (v + n - i) % n}

section Has

variable {n k v : ℕ}

/-- A step sends a block at the end of the reach, and the block behind it comes. -/
theorem gathers_hplStep (hk : k + 1 < n) (hv : v < n) {x : ℕ → β} {has : Set ℕ}
    (hhas : hplHas n k v ⊆ has) :
    Sched.gathers x (fun has' pend => pend = [] ∧ hplHas n (k + 1) v ⊆ has') (hplStep n k v) has
      [] := by
  refine ⟨fun b hb => ⟨?_, fun _ hd => absurd hd List.not_mem_nil⟩, rfl, ?_⟩
  · rw [List.mem_singleton.mp hb, hplSendBlock_eq hk hv]
    split_ifs
    · exact hhas (Or.inr ⟨k / 2, by omega, rfl⟩)
    · exact hhas (Or.inl ⟨k / 2, by omega, rfl⟩)
  · have hrecv : hplRecvBlock n k v ∈ has ∪ {b | b ∈ [hplRecvBlock n k v]} :=
      Or.inr (List.mem_singleton.mpr rfl)
    rw [hplRecvBlock_eq hk hv] at hrecv ⊢
    rintro b (⟨i, hi, rfl⟩ | ⟨i, hi, rfl⟩)
    · by_cases hle : i ≤ (k + 1 - v % 2) / 2
      · exact Or.inl (hhas (Or.inl ⟨i, hle, rfl⟩))
      · rw [if_pos (by omega)] at hrecv ⊢
        rwa [show v + i = v + 1 + k / 2 by omega]
    · by_cases hle : i ≤ (k + v % 2) / 2
      · exact Or.inl (hhas (Or.inr ⟨i, hle, rfl⟩))
      · rw [if_neg (by omega)] at hrecv ⊢
        rwa [show v + n - i = v + n - 1 - k / 2 by omega]

/-- Before the first step a rank needs its own block. -/
theorem hplHas_zero (hv : v < n) : hplHas n 0 v ⊆ {v} := by
  rintro b (⟨i, hi, rfl⟩ | ⟨i, hi, rfl⟩)
  · obtain rfl : i = 0 := by omega
    exact Nat.mod_eq_of_lt hv
  · obtain rfl : i = 0 := by omega
    rw [Nat.sub_zero, Nat.add_mod_right]
    exact Nat.mod_eq_of_lt hv

/-- After the last step it has all blocks. -/
theorem hplHas_last (hv : v < n) {b : ℕ} (hb : b < n) : b ∈ hplHas n (n - 1) v := by
  have hlt : (b + n - v) % n < n := Nat.mod_lt _ (by omega)
  by_cases hle : (b + n - v) % n ≤ (n - 1 + 1 - v % 2) / 2
  · refine Or.inl ⟨_, hle, ?_⟩
    rw [Nat.add_mod_mod, show v + (b + n - v) = b + n by omega, Nat.add_mod_right,
      Nat.mod_eq_of_lt hb]
  · refine Or.inr ⟨n - (b + n - v) % n, by omega, ?_⟩
    rw [show v + n - (n - (b + n - v) % n) = v + (b + n - v) % n by omega, Nat.add_mod_mod,
      show v + (b + n - v) = b + n by omega, Nat.add_mod_right, Nat.mod_eq_of_lt hb]

/-- The exchanges bring every rank all blocks. -/
theorem spreads_hplRounds (n : ℕ) (x : ℕ → β) :
    Spreads n {b | b < n} (fun v => {v}) x (hplRounds n) where
  round R hR := by
    obtain ⟨k, hk, hR⟩ := List.mem_flatMap.mp hR
    have hk := List.mem_range.mp hk
    rw [List.mem_cons, List.mem_singleton] at hR
    obtain rfl | rfl := hR
    · exact fitRound_hplWrap (by omega)
    · exact fitRound_hplLine (by omega)
  gathers v hv := by
    rw [flatMap_hplRounds hv]
    refine gathers_imp ?_ (gathers_rounds (H := fun k => hplHas n k v) (n - 1)
      (fun k hk has' hhas' => gathers_hplStep (by omega) hv hhas') (hplHas_zero hv))
    rintro has' pend ⟨rfl, hall⟩
    exact ⟨rfl, fun b hb => hall (hplHas_last hv hb)⟩

end Has

end Kucg.Algo
