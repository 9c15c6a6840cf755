import Kucg.Algo.Scatter

/-! The allgather of the long broadcasts: ranks in a circle exchange blocks with their neighbours.

    In step `k` the ranks of one parity exchange with their right neighbours, and so those of the
    other parity with their left ones. On a circle of an odd number of ranks, rank 0 and the last
    rank have the same parity: rank 0 exchanges with both neighbours in the odd steps and rests in
    the even ones. The blocks that a rank has reach `exchangeReach` far to either side of its own,
    which after `n - 1` steps is all around the circle. -/

namespace Kucg.Algo

open Kucg.Lib

variable {β : Type}

/-- The right neighbour. -/
def rightOf (n v : ℕ) : ℕ := (v + 1) % n

/-- The left neighbour. -/
def leftOf (n v : ℕ) : ℕ := (v + n - 1) % n

/-- What rank `v` does in step `k`. -/
def exchangeRound (n k v : ℕ) : Sched ℕ β :=
  (if v % 2 ≠ k % 2 then [.send (rightOf n v) [(v + 1 + n - (k + 1) / 2) % n]] else []) ++
  (if leftOf n v % 2 ≠ k % 2 then [.send (leftOf n v) [(v + n - 1 + (k + 1) / 2) % n]] else []) ++
  ((if v % 2 ≠ k % 2 then [.recv 0 (rightOf n v) [(v + (k + 1) / 2) % n]] else []) ++
  (if leftOf n v % 2 ≠ k % 2 then [.recv 0 (leftOf n v) [(v + n - (k + 1) / 2) % n]] else []) ++
  (if v % 2 ≠ k % 2 ∨ leftOf n v % 2 ≠ k % 2 then [.wait] else []))

/-- The steps. -/
def exchangeRounds (n : ℕ) : List (ℕ → Sched ℕ β) :=
  (List.range (n - 1)).map fun i => exchangeRound n (i + 1)

section Circle

variable {n v w : ℕ}

/-- A number below `2 * n`, modulo `n`. -/
theorem mod_eq_ite (h : v < 2 * n) : v % n = if v < n then v else v - n := by
  split_ifs with hlt
  · exact Nat.mod_eq_of_lt hlt
  · rw [Nat.mod_eq_sub_mod (by omega), Nat.mod_eq_of_lt (by omega)]

theorem rightOf_lt (hn : 0 < n) : rightOf n v < n := Nat.mod_lt _ hn

theorem leftOf_lt (hn : 0 < n) : leftOf n v < n := Nat.mod_lt _ hn

theorem rightOf_eq_iff (hv : v < n) (hw : w < n) : rightOf n v = w ↔ leftOf n w = v := by
  rw [rightOf, leftOf, mod_eq_ite (by omega), mod_eq_ite (by omega)]
  split_ifs <;> omega

/-- The neighbours are two ranks if there are three or more. -/
theorem leftOf_ne_rightOf (hn : 3 ≤ n) (hv : v < n) : leftOf n v ≠ rightOf n v := by
  rw [leftOf, rightOf, mod_eq_ite (by omega), mod_eq_ite (by omega)]
  split_ifs <;> omega

/-- The left neighbour of a rank has the other parity, but for that of rank 0 on an odd circle. -/
theorem leftOf_mod_two (hn : 0 < n) (hv : v < n) :
    leftOf n v % 2 = if n % 2 = 1 ∧ v = 0 then 0 else (v + 1) % 2 := by
  rw [leftOf, mod_eq_ite (by omega : v + n - 1 < 2 * n)]
  split_ifs <;> omega

end Circle

/-! ### What is sent is received -/

section Step

variable {n k v w : ℕ}

theorem sendsTo_exchangeRound : (exchangeRound n k v : Sched ℕ β).sendsTo w =
    (if v % 2 ≠ k % 2 ∧ rightOf n v = w then [[(v + 1 + n - (k + 1) / 2) % n]] else []) ++
      if leftOf n v % 2 ≠ k % 2 ∧ leftOf n v = w then [[(v + n - 1 + (k + 1) / 2) % n]]
      else [] := by
  simp only [exchangeRound, schedSendsTo_append, sendsTo_ite_send, sendsTo_ite_recv,
    sendsTo_ite_wait,
    List.append_nil]

theorem recvsFrom_exchangeRound : (exchangeRound n k w : Sched ℕ β).recvsFrom v =
    (if w % 2 ≠ k % 2 ∧ rightOf n w = v then [[(w + (k + 1) / 2) % n]] else []) ++
      if leftOf n w % 2 ≠ k % 2 ∧ leftOf n w = v then [[(w + n - (k + 1) / 2) % n]] else [] := by
  simp only [exchangeRound, schedRecvsFrom_append, recvsFrom_ite_send, recvsFrom_ite_recv,
    recvsFrom_ite_wait, List.append_nil, List.nil_append]

theorem matched_exchangeRound (hn : 2 ≤ n) (hk : k < n) (hv : v < n) (hw : w < n) :
    (exchangeRound n k v : Sched ℕ β).sendsTo w =
      (exchangeRound n k w : Sched ℕ β).recvsFrom v := by
  have ho : (k + 1) / 2 ≤ n := by omega
  have hpar := leftOf_mod_two (by omega) hv
  rw [sendsTo_exchangeRound, recvsFrom_exchangeRound]
  by_cases hr : rightOf n v = w
  · have hl : leftOf n w = v := (rightOf_eq_iff hv hw).mp hr
    have hblock : (v + 1 + n - (k + 1) / 2) % n = (w + n - (k + 1) / 2) % n := by
      rw [← hr, rightOf, mod_eq_ite (by omega : v + 1 < 2 * n)]
      split_ifs
      · rfl
      · rw [show v + 1 + n - (k + 1) / 2 = v + 1 - n + n - (k + 1) / 2 + n by omega,
          Nat.add_mod_right]
    rw [hl, hr, hblock]
    by_cases hboth : leftOf n v = w
    · -- two ranks
      have hr' : rightOf n w = v := (rightOf_eq_iff hw hv).mpr hboth
      have hblock' : (v + n - 1 + (k + 1) / 2) % n = (w + (k + 1) / 2) % n := by
        rw [← hboth, leftOf, Nat.mod_add_mod]
      have hn2 : n = 2 := by
        rw [rightOf, mod_eq_ite (by omega)] at hr
        rw [leftOf, mod_eq_ite (by omega)] at hboth
        split_ifs at hr hboth <;> omega
      rw [hboth] at hpar ⊢
      rw [hr', hblock']
      simp only [and_true]
      split_ifs at hpar ⊢ <;> first | rfl | omega
    · have hr' : rightOf n w ≠ v := fun h => hboth ((rightOf_eq_iff hw hv).mp h)
      simp [hboth, hr']
  · have hl : leftOf n w ≠ v := fun h => hr ((rightOf_eq_iff hv hw).mpr h)
    simp only [hr, hl, and_false, if_false, List.nil_append, List.append_nil]
    by_cases hlv : leftOf n v = w
    · have hr' : rightOf n w = v := (rightOf_eq_iff hw hv).mpr hlv
      have hblock : (v + n - 1 + (k + 1) / 2) % n = (w + (k + 1) / 2) % n := by
        rw [← hlv, leftOf, Nat.mod_add_mod]
      rw [hlv, hr', hblock]
      simp only [and_true]
    · have hr' : rightOf n w ≠ v := fun h => hlv ((rightOf_eq_iff hw hv).mp h)
      simp [hlv, hr']

theorem fitRound_exchangeRound (hn : 2 ≤ n) (hk : k < n) :
    FitRound n {b | b < n} (exchangeRound n k : ℕ → Sched ℕ β) where
  moves v hv c hc := by
    have hblock (b) : ∀ b' ∈ [b % n], b' < n := fun b' hb' => by
      rw [List.mem_singleton.mp hb']
      exact Nat.mod_lt _ (by omega)
    simp only [exchangeRound, List.mem_append, List.mem_ite_nil_right, List.mem_singleton] at hc
    obtain (⟨-, rfl⟩ | ⟨-, rfl⟩) | (⟨-, rfl⟩ | ⟨-, rfl⟩) | ⟨-, rfl⟩ := hc
    · exact ⟨rightOf_lt (by omega), hblock _⟩
    · exact ⟨leftOf_lt (by omega), hblock _⟩
    · exact ⟨rightOf_lt (by omega), hblock _⟩
    · exact ⟨leftOf_lt (by omega), hblock _⟩
    · trivial
  matched v hv w hw := matched_exchangeRound hn hk hv hw
  batch v hv := by
    rw [exchangeRound]
    refine batch_append (fun d src hm => ?_) fun h s dst hm => ?_
    · simp only [List.mem_append, List.mem_ite_nil_right, List.mem_singleton] at hm
      simp at hm
    · simp only [List.mem_append, List.mem_ite_nil_right, List.mem_singleton] at hm
      simp at hm

end Step

/-! ### The blocks of a rank -/

/-- How far the blocks of a rank reach to its right before step `k`, and those of its right
    neighbour to the left: every other step adds one. -/
def exchangeReach (v k : ℕ) : ℕ := if v % 2 = 0 then k / 2 else (k - 1) / 2

/-- The blocks that rank `v` has before step `k`. -/
def exchangeHas (n k v : ℕ) : Set ℕ :=
  {b | ∃ i, i ≤ exchangeReach v k ∧ b = (v + i) % n ∨
    i ≤ exchangeReach (leftOf n v) k ∧ i ≤ n ∧ b = (v + n - i) % n}

section Has

variable {n k v : ℕ}

/-- The step in which a rank exchanges brings a block, the other ones do not. -/
theorem exchangeReach_succ (hk : 0 < k) : exchangeReach v (k + 1) =
    if v % 2 ≠ k % 2 then (k + 1) / 2 else exchangeReach v k := by
  rw [exchangeReach, exchangeReach]
  split_ifs <;> omega

theorem le_exchangeReach : (k + 1) / 2 - 1 ≤ exchangeReach v k := by
  rw [exchangeReach]
  split_ifs <;> omega

/-- A block at the end of the reach. -/
theorem exchangeHas_right {i : ℕ} (hi : i ≤ exchangeReach v k) : (v + i) % n ∈ exchangeHas n k v :=
  ⟨i, Or.inl ⟨hi, rfl⟩⟩

theorem exchangeHas_left {i : ℕ} (hi : i ≤ exchangeReach (leftOf n v) k) (hin : i ≤ n) :
    (v + n - i) % n ∈ exchangeHas n k v := ⟨i, Or.inr ⟨hi, hin, rfl⟩⟩

/-- The blocks of the next step. -/
theorem exchangeHas_succ (hk : 0 < k) {has : Set ℕ} (hhas : exchangeHas n k v ⊆ has)
    (hright : v % 2 ≠ k % 2 → (v + (k + 1) / 2) % n ∈ has)
    (hleft : leftOf n v % 2 ≠ k % 2 → (v + n - (k + 1) / 2) % n ∈ has) :
    exchangeHas n (k + 1) v ⊆ has := by
  have hreach (u) (i) (hi : i ≤ exchangeReach u (k + 1)) :
      i ≤ exchangeReach u k ∨ u % 2 ≠ k % 2 ∧ i = (k + 1) / 2 := by
    have := le_exchangeReach (v := u) (k := k)
    rw [exchangeReach_succ hk] at hi
    split_ifs at hi <;> omega
  rintro b ⟨i, ⟨hi, rfl⟩ | ⟨hi, hin, rfl⟩⟩
  · rcases hreach v i hi with hi | ⟨hpar, rfl⟩
    · exact hhas (exchangeHas_right hi)
    · exact hright hpar
  · rcases hreach _ i hi with hi | ⟨hpar, rfl⟩
    · exact hhas (exchangeHas_left hi hin)
    · exact hleft hpar

theorem gathers_exchangeRound (hn : 2 ≤ n) (hk : 0 < k) (hkn : k < n) {x : ℕ → β} {has : Set ℕ}
    (hhas : exchangeHas n k v ⊆ has) :
    Sched.gathers x (fun has' pend => pend = [] ∧ exchangeHas n (k + 1) v ⊆ has')
      (exchangeRound n k v) has [] := by
  have hnone (b : ℕ) : ∀ dst ∈ ([] : List (List ℕ)), b ∉ dst :=
    fun _ hd => absurd hd List.not_mem_nil
  -- the blocks that are sent are at the ends of the reach
  have hsendRight : ∀ b ∈ [(v + 1 + n - (k + 1) / 2) % n], b ∈ has ∧
      ∀ dst ∈ ([] : List (List ℕ)), b ∉ dst := fun b hb => by
    rw [List.mem_singleton.mp hb, show v + 1 + n - (k + 1) / 2 = v + n - ((k + 1) / 2 - 1) by omega]
    exact ⟨hhas (exchangeHas_left le_exchangeReach (by omega)), hnone _⟩
  have hsendLeft : ∀ b ∈ [(v + n - 1 + (k + 1) / 2) % n], b ∈ has ∧
      ∀ dst ∈ ([] : List (List ℕ)), b ∉ dst := fun b hb => by
    rw [List.mem_singleton.mp hb,
      show v + n - 1 + (k + 1) / 2 = v + ((k + 1) / 2 - 1) + n by omega, Nat.add_mod_right]
    exact ⟨hhas (exchangeHas_right le_exchangeReach), hnone _⟩
  have hsub {S : Set ℕ} (h₁ : has ⊆ S) (h₂ : v % 2 ≠ k % 2 → (v + (k + 1) / 2) % n ∈ S)
      (h₃ : leftOf n v % 2 ≠ k % 2 → (v + n - (k + 1) / 2) % n ∈ S) :
      exchangeHas n (k + 1) v ⊆ S := exchangeHas_succ hk (hhas.trans h₁) h₂ h₃
  rw [exchangeRound]
  by_cases hr : v % 2 ≠ k % 2 <;> by_cases hl : leftOf n v % 2 ≠ k % 2
  · simp only [if_pos hr, if_pos hl, if_pos (Or.inl hr), List.cons_append, List.nil_append]
    refine ⟨hsendRight, hsendLeft, rfl, hsub (fun b hb => Or.inl (Or.inl hb)) (fun _ => ?_)
      fun _ => ?_⟩
    · exact Or.inl (Or.inr (List.mem_singleton.mpr rfl))
    · exact Or.inr (List.mem_singleton.mpr rfl)
  · simp only [if_pos hr, if_neg hl, if_pos (Or.inl hr), List.singleton_append, List.append_nil]
    refine ⟨hsendRight, rfl, hsub (fun b hb => Or.inl hb) (fun _ => ?_) fun h => absurd h hl⟩
    exact Or.inr (List.mem_singleton.mpr rfl)
  · simp only [if_neg hr, if_pos hl, if_pos (Or.inr hl), List.nil_append]
    refine ⟨hsendLeft, rfl, hsub (fun b hb => Or.inl hb) (fun h => absurd h hr) fun _ => ?_⟩
    exact Or.inr (List.mem_singleton.mpr rfl)
  · simp only [if_neg hr, if_neg hl, if_neg (not_or.mpr ⟨hr, hl⟩), List.append_nil]
    exact ⟨rfl, hsub subset_rfl (fun h => absurd h hr) fun h => absurd h hl⟩

/-- Before the first step a rank needs its own block. -/
theorem exchangeHas_one (hv : v < n) : exchangeHas n 1 v ⊆ {v} := by
  have hreach (u) : exchangeReach u 1 = 0 := by
    rw [exchangeReach]
    split_ifs <;> rfl
  rintro b ⟨i, ⟨hi, rfl⟩ | ⟨hi, -, rfl⟩⟩
  · obtain rfl : i = 0 := Nat.le_zero.mp (hreach v ▸ hi)
    exact Nat.mod_eq_of_lt hv
  · obtain rfl : i = 0 := Nat.le_zero.mp (hreach _ ▸ hi)
    rw [Nat.sub_zero, Nat.add_mod_right]
    exact Nat.mod_eq_of_lt hv

/-- After the last step it has all blocks. -/
theorem exchangeHas_last (hv : v < n) {b : ℕ} (hb : b < n) : b ∈ exchangeHas n n v := by
  have hpar := leftOf_mod_two (by omega) hv
  have hreach : n ≤ exchangeReach v n + exchangeReach (leftOf n v) n + 1 := by
    rw [exchangeReach, exchangeReach, hpar]
    split_ifs <;> omega
  rcases le_or_gt ((b + n - v) % n) (exchangeReach v n) with hle | hgt
  · refine ⟨_, Or.inl ⟨hle, ?_⟩⟩
    rw [Nat.add_mod_mod, show v + (b + n - v) = b + n by omega, Nat.add_mod_right,
      Nat.mod_eq_of_lt hb]
  · have hlt : (b + n - v) % n < n := Nat.mod_lt _ (by omega)
    refine ⟨n - (b + n - v) % n, Or.inr ⟨by omega, by omega, ?_⟩⟩
    rw [show v + n - (n - (b + n - v) % n) = v + (b + n - v) % n by omega, Nat.add_mod_mod,
      show v + (b + n - v) = b + n by omega, Nat.add_mod_right, Nat.mod_eq_of_lt hb]

/-- The steps bring every rank all blocks. -/
theorem gathers_exchangeRounds (hn : 2 ≤ n) (hv : v < n) {x : ℕ → β} {has : Set ℕ}
    (hhas : v ∈ has) : Sched.gathers x (fun has' pend => pend = [] ∧ {b | b < n} ⊆ has')
      ((exchangeRounds n).flatMap fun R => R v) has [] := by
  rw [exchangeRounds, List.flatMap_map]
  refine gathers_imp ?_ (gathers_rounds (H := fun i => exchangeHas n (i + 1) v) (n - 1)
    (fun i hi has' hhas' => gathers_exchangeRound hn i.succ_pos (by omega) hhas')
    ((exchangeHas_one hv).trans (Set.singleton_subset_iff.mpr hhas)))
  rintro has' pend ⟨rfl, hall⟩
  rw [Nat.sub_add_cancel (by omega)] at hall
  exact ⟨rfl, fun b hb => hall (exchangeHas_last hv hb)⟩

end Has

end Kucg.Algo
