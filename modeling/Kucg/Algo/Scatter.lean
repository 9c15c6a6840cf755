import Kucg.Algo.KntreeSubtrees
import Kucg.Lib.Blocks

/-! The binomial scatter: every rank gets the blocks of its sub-tree from its parent.

    There is a round for each size of sub-trees, the biggest first. In the round of the sub-trees of
    `2 ^ e` ranks, a rank that `2 ^ (e + 1)` divides sends to the child that is the root of such a
    sub-tree. After the round the ranks that `2 ^ e` divides have the blocks of their sub-trees
    (`scatterHas`), so after the last one every rank has its own block. -/

namespace Kucg.Algo

open Kucg.Lib

variable {β : Type}

/-- The rank behind the last one of the sub-tree of `v`. -/
noncomputable def scatterEnd (n v : ℕ) : ℕ := min (v + 2 ^ kntreeHeight n 2 v) n

/-- The blocks of the sub-tree of `v`. -/
noncomputable def scatterBlocks (n v : ℕ) : List ℕ := List.range' v (scatterEnd n v - v)

section Rounds

variable (n : ℕ) (keep : ℕ → Bool) (after : Sched ℕ β)

/-- The message to the child `c`, unless it is left out, and the stops after it. -/
noncomputable def scatterSend (c : ℕ) : Sched ℕ β :=
  (if keep c then [.send c (scatterBlocks n c)] else []) ++ after

/-- The message from the parent, unless it is left out. -/
noncomputable def scatterRecv (v : ℕ) : Sched ℕ β :=
  (if keep v then [.recv 0 (kntreeParent 2 v) (scatterBlocks n v)] else []) ++ [.wait]

/-- What rank `v` does in the round of the sub-trees of `2 ^ e` ranks. -/
noncomputable def scatterRound (e v : ℕ) : Sched ℕ β :=
  if 0 < v ∧ multiplicity 2 v = e then scatterRecv n keep v
  else if 2 ^ (e + 1) ∣ v ∧ v + 2 ^ e < n then scatterSend n keep after (v + 2 ^ e)
  else []

/-- The rounds of the sub-trees of less than `2 ^ e` ranks. -/
noncomputable def scatterRounds : ℕ → List (ℕ → Sched ℕ β)
  | 0 => []
  | e + 1 => scatterRound n keep after e :: scatterRounds e

end Rounds

/-! ### Who sends to whom -/

section Tree

variable {n v w e : ℕ}

/-- The parent of a rank, by the size of its sub-tree. -/
theorem scatterChild_iff :
    2 ^ (e + 1) ∣ v ∧ w = v + 2 ^ e ↔ 0 < w ∧ multiplicity 2 w = e ∧ v = kntreeParent 2 w := by
  constructor
  · rintro ⟨hdvd, rfl⟩
    have hpos : 0 < 2 ^ e := by positivity
    have hchild : KntreeChild 2 v (v + 2 ^ e) :=
      ⟨e, 1, one_pos, by decide, hdvd, by rw [Nat.mul_one]⟩
    refine ⟨by omega, ?_, (kntreeChild_iff (by decide) (by omega)).mp hchild⟩
    obtain ⟨j, hj, hj', -, heq⟩ := hchild.multiplicity_eq
    obtain rfl : j = 1 := by omega
    rw [Nat.mul_one] at heq
    exact (Nat.pow_right_injective le_rfl (Nat.add_left_cancel heq)).symm
  · rintro ⟨hw, rfl, hv⟩
    have hchild : KntreeChild 2 v w := (kntreeChild_iff (by decide) hw).mpr hv
    obtain ⟨j, hj, hj', hdvd, heq⟩ := hchild.multiplicity_eq
    obtain rfl : j = 1 := by omega
    rw [Nat.mul_one] at heq
    exact ⟨hdvd, heq⟩

/-- A rank that sends in a round does not receive in it. -/
theorem multiplicity_ne_of_dvd (hdvd : 2 ^ (e + 1) ∣ v) : ¬(0 < v ∧ multiplicity 2 v = e) := by
  rintro ⟨hv, rfl⟩
  have := (pow_multiplicity_dvd (by decide) hv).mp hdvd
  omega

/-- No tree is higher than its number of ranks. -/
theorem kntreeHeight_le (hv : v < n) : kntreeHeight n 2 v ≤ n := by
  rcases Nat.eq_zero_or_pos v with rfl | hpos
  · rw [kntreeHeight, if_pos rfl]
    exact Nat.clog_le_of_le_pow Nat.lt_two_pow_self.le
  · have hle : 2 ^ kntreeHeight n 2 v ≤ v :=
      Nat.le_of_dvd hpos (pow_dvd_of_le_kntreeHeight (by decide) (le_refl (kntreeHeight n 2 v)))
    have := (Nat.lt_two_pow_self (n := kntreeHeight n 2 v)).trans_le hle
    omega

theorem scatterEnd_le : scatterEnd n v ≤ n := min_le_right ..

theorem lt_scatterEnd (hv : v < n) : v < scatterEnd n v :=
  lt_min (Nat.lt_add_of_pos_right (by positivity)) hv

theorem lt_kntreeHeight (hdvd : 2 ^ (e + 1) ∣ v) (hlt : v + 2 ^ e < n) :
    e < kntreeHeight n 2 v := by
  rw [kntreeHeight]
  split_ifs with hv
  · exact (Nat.lt_clog_iff_pow_lt (by decide)).mpr (by omega)
  · exact (pow_multiplicity_dvd (by decide) (Nat.pos_of_ne_zero hv)).mp hdvd

/-- The blocks of a child are among those of its parent. -/
theorem scatterEnd_child_le (hdvd : 2 ^ (e + 1) ∣ v) (hlt : v + 2 ^ e < n) :
    scatterEnd n (v + 2 ^ e) ≤ scatterEnd n v := by
  obtain ⟨hpos, hmult, -⟩ := scatterChild_iff.mp ⟨hdvd, rfl⟩
  have hpow : 2 ^ (e + 1) ≤ 2 ^ kntreeHeight n 2 v :=
    Nat.pow_le_pow_right (by decide) (lt_kntreeHeight hdvd hlt)
  rw [scatterEnd, scatterEnd, kntreeHeight, if_neg (by omega), hmult]
  rw [pow_succ] at hpow
  omega

/-- The sub-trees of the children and the rank itself make up its sub-tree. -/
theorem sum_subtrees (hv : v < n) {E : ℕ} (hdvd : 2 ^ E ∣ v) :
    1 + ((kntreeRest n 2 v E 1).map fun c => scatterEnd n c - c).sum = min (v + 2 ^ E) n - v := by
  have hcard : (fun c => scatterEnd n c - c) =
      fun c => (cutInterval n (kntreeWidth n 2) c).card := by
    funext c
    rw [card_cutInterval]
    rfl
  rw [hcard]
  exact sum_kntreeRest (by decide) hv hdvd

theorem initDegree_two (hn : 2 ≤ n) : KntreeIter.initDegree n 2 = 2 := by
  rw [KntreeIter.initDegree]
  split_ifs <;> omega

theorem childValues_binomial {root rank : ℕ} (hn : 2 ≤ n) :
    KntreeIter.childValues n (KntreeIter.init n 2 root rank true) =
      (kntreeChildren n 2 ((rank + n - root) % n)).map fun c => (c + root) % n := by
  have hd := initDegree_two hn
  rw [KntreeIter.childValues_init (by omega) (by omega), hd]
  rfl

theorem childValues_binomial_reset {root rank : ℕ} (hn : 2 ≤ n) :
    KntreeIter.childValues n (KntreeIter.init n 2 root rank true).reset =
      (kntreeChildren n 2 ((rank + n - root) % n)).map fun c => (c + root) % n := by
  have hd := initDegree_two hn
  rw [KntreeIter.childValues_reset (by omega) (by omega), hd]
  rfl

/-- What `ucg_algo_kntree_get_subtree_size` returns. -/
theorem getSubtreeSize_eq {root : ℕ} (hn : 2 ≤ n) (hroot : root < n) :
    ∀ {fuel v : ℕ}, v < n → n - v ≤ fuel →
      KntreeIter.getSubtreeSize n 2 root fuel ((v + root) % n) = scatterEnd n v - v
  | 0, _, hv, hfuel => by omega
  | fuel + 1, v, hv, hfuel => by
    rw [KntreeIter.getSubtreeSize, childValues_binomial hn, vMyrank_real hroot hv, List.map_map,
      scatterEnd, kntreeChildren, ← sum_subtrees hv (pow_dvd_of_le_kntreeHeight (by decide) le_rfl)]
    congr 2
    refine List.map_congr_left fun c hc => ?_
    have hlt := (mem_kntreeRest.mp hc).1
    obtain ⟨-, e, -, j, hj, -, rfl⟩ := mem_kntreeRest.mp hc
    have : 0 < 2 ^ e * j := by positivity
    exact getSubtreeSize_eq hn hroot hlt (by omega)

end Tree

/-! ### The rounds -/

section Rounds

variable {n : ℕ} {keep : ℕ → Bool} {after : Sched ℕ β} {idle : Set ℕ} {e v w : ℕ}

theorem mem_scatterBlocks {b : ℕ} : b ∈ scatterBlocks n v ↔ v ≤ b ∧ b < scatterEnd n v := by
  rw [scatterBlocks, List.mem_range'_1]
  omega

theorem mem_scatterRounds {R : ℕ → Sched ℕ β} : ∀ {E : ℕ},
    R ∈ scatterRounds n keep after E → ∃ e < E, R = scatterRound n keep after e
  | 0, h => absurd h List.not_mem_nil
  | E + 1, h => by
    rcases List.mem_cons.mp h with rfl | h
    · exact ⟨E, E.lt_succ_self, rfl⟩
    · obtain ⟨e, he, rfl⟩ := mem_scatterRounds h
      exact ⟨e, by omega, rfl⟩

theorem moves_scatterRound (hafter : after.Stops) (hv : v < n) :
    ∀ c ∈ scatterRound n keep after e v, c.Moves n {b | b < n} := by
  have hblocks (u) : ∀ b ∈ scatterBlocks n u, b < n := fun b hb =>
    (mem_scatterBlocks.mp hb).2.trans_le scatterEnd_le
  intro c hc
  rw [scatterRound] at hc
  split_ifs at hc with hrecv hsend
  · rcases List.mem_append.mp hc with hc | hc
    · split_ifs at hc
      · rw [List.mem_singleton.mp hc]
        exact ⟨(kntreeParent_lt (by decide) hrecv.1).trans hv, hblocks v⟩
      · exact absurd hc List.not_mem_nil
    · rw [List.mem_singleton.mp hc]
      trivial
  · rcases List.mem_append.mp hc with hc | hc
    · split_ifs at hc
      · rw [List.mem_singleton.mp hc]
        exact ⟨hsend.2, hblocks _⟩
      · exact absurd hc List.not_mem_nil
    · exact hafter.moves c hc
  · exact absurd hc List.not_mem_nil

/-- What a rank sends to another one in a round: the blocks of that one's sub-tree, if it is a child
    of the round. -/
theorem sendsTo_scatterRound (hafter : after.Stops) (hw : w < n) :
    (scatterRound n keep after e v).sendsTo w =
      if (0 < w ∧ multiplicity 2 w = e ∧ v = kntreeParent 2 w) ∧ keep w then [scatterBlocks n w]
      else [] := by
  have hstops := hafter.sendsTo w
  rw [Sched.sendsTo] at hstops
  simp only [← scatterChild_iff]
  rw [scatterRound]
  by_cases hrecv : 0 < v ∧ multiplicity 2 v = e
  · rw [if_pos hrecv, if_neg fun h => multiplicity_ne_of_dvd h.1.1 hrecv, scatterRecv,
      Sched.sendsTo, List.filterMap_append]
    split_ifs <;> rfl
  rw [if_neg hrecv]
  by_cases hsend : 2 ^ (e + 1) ∣ v ∧ v + 2 ^ e < n
  · rw [if_pos hsend, scatterSend, Sched.sendsTo, List.filterMap_append, hstops, List.append_nil]
    by_cases hchild : w = v + 2 ^ e
    · subst hchild
      simp only [hsend.1, true_and]
      split_ifs <;> simp [Cmd.sentTo]
    · have hnot : ¬((2 ^ (e + 1) ∣ v ∧ w = v + 2 ^ e) ∧ keep w = true) := fun h => hchild h.1.2
      rw [if_neg hnot]
      split_ifs
      · simp [Cmd.sentTo, Ne.symm hchild]
      · rfl
  · have hnot : ¬((2 ^ (e + 1) ∣ v ∧ w = v + 2 ^ e) ∧ keep w = true) := fun h =>
      hsend ⟨h.1.1, h.1.2 ▸ hw⟩
    rw [if_neg hsend, if_neg hnot]
    rfl

theorem recvsFrom_scatterRound (hafter : after.Stops) :
    (scatterRound n keep after e w).recvsFrom v =
      if (0 < w ∧ multiplicity 2 w = e ∧ v = kntreeParent 2 w) ∧ keep w then [scatterBlocks n w]
      else [] := by
  have hstops := hafter.recvsFrom v
  rw [Sched.recvsFrom] at hstops
  rw [scatterRound]
  by_cases hrecv : 0 < w ∧ multiplicity 2 w = e
  · rw [if_pos hrecv, scatterRecv, Sched.recvsFrom, List.filterMap_append]
    by_cases hparent : kntreeParent 2 w = v
    · cases keep w <;> simp [hrecv, hparent, Cmd.receivedFrom]
    · cases keep w <;> simp [hparent, Ne.symm hparent, Cmd.receivedFrom]
  · rw [if_neg hrecv, if_neg fun h : (_ ∧ _ ∧ _) ∧ _ => hrecv ⟨h.1.1, h.1.2.1⟩]
    split_ifs
    · rw [scatterSend, Sched.recvsFrom, List.filterMap_append, hstops]
      split_ifs <;> rfl
    · rfl

theorem batch_scatterRound (hafter : after.Stops) : (scatterRound n keep after e v).Batch := by
  rw [scatterRound]
  split_ifs
  · rw [scatterRecv, ← List.nil_append (_ ++ _)]
    refine batch_append (fun d src hm => ?_) fun _ _ _ => List.not_mem_nil
    split_ifs at hm <;> simp at hm
  · rw [scatterSend]
    refine batch_append (fun d src hm => ?_) fun h s dst hm => ?_
    · simpa using hafter _ hm
    · split_ifs at hm <;> simp at hm
  · trivial

theorem fitRound_scatterRound (hafter : after.Stops) :
    FitRound n {b | b < n} (scatterRound n keep after e) where
  moves _ hv := moves_scatterRound hafter hv
  matched _ _ _ hw := (sendsTo_scatterRound hafter hw).trans (recvsFrom_scatterRound hafter).symm
  batch _ _ := batch_scatterRound hafter

/-- The blocks that rank `v` has before the round of the sub-trees of less than `2 ^ e` ranks. -/
def scatterHas (n : ℕ) (idle : Set ℕ) (e v : ℕ) : Set ℕ :=
  {b | b ∈ idle ∨ 2 ^ e ∣ v ∧ v ≤ b ∧ b < scatterEnd n v}

theorem gathers_scatterRound (hafter : after.Stops)
    (hidle : ∀ v, keep v = false → ∀ b ∈ scatterBlocks n v, b ∈ idle) {x : ℕ → β} {has : Set ℕ}
    (hhas : scatterHas n idle (e + 1) v ⊆ has) :
    Sched.gathers x (fun has' pend => pend = [] ∧ scatterHas n idle e v ⊆ has')
      (scatterRound n keep after e v) has [] := by
  rw [scatterRound]
  split_ifs with hrecv hsend
  · rw [scatterRecv, gathers_append]
    split_ifs with hkeep
    · refine ⟨rfl, fun b hb => ?_⟩
      rcases hb with hb | ⟨-, hb⟩
      · exact Or.inl (hhas (Or.inl hb))
      · exact Or.inr (mem_scatterBlocks.mpr hb)
    · refine ⟨rfl, fun b hb => hhas (Or.inl ?_)⟩
      rcases hb with hb | ⟨-, hb⟩
      · exact hb
      · exact hidle v (by simpa using hkeep) b (mem_scatterBlocks.mpr hb)
  · have hkept : scatterHas n idle e v ⊆ has := fun b hb =>
      hhas (hb.imp_right fun hb => ⟨hsend.1, hb.2⟩)
    rw [scatterSend, gathers_append]
    split_ifs with hkeep
    · refine ⟨fun b hb => ⟨hhas (Or.inr ⟨hsend.1, ?_⟩), fun _ hd => absurd hd List.not_mem_nil⟩,
        hafter.gathers ⟨rfl, hkept⟩⟩
      have hle := scatterEnd_child_le hsend.1 hsend.2
      rw [mem_scatterBlocks] at hb
      omega
    · exact hafter.gathers ⟨rfl, hkept⟩
  · refine ⟨rfl, fun b hb => hhas (hb.imp_right fun ⟨hdvd, hb⟩ => ⟨?_, hb⟩)⟩
    rcases Nat.eq_zero_or_pos v with rfl | hv
    · exact Nat.dvd_zero _
    · rw [pow_multiplicity_dvd (by decide) hv] at hdvd ⊢
      have : multiplicity 2 v ≠ e := fun h => hrecv ⟨hv, h⟩
      omega

/-- The rounds bring every rank the blocks of its sub-tree. -/
theorem gathers_scatterRounds (hafter : after.Stops)
    (hidle : ∀ v, keep v = false → ∀ b ∈ scatterBlocks n v, b ∈ idle) {x : ℕ → β} : ∀ {E : ℕ}
      {has : Set ℕ}, scatterHas n idle E v ⊆ has →
      Sched.gathers x (fun has' pend => pend = [] ∧ scatterHas n idle 0 v ⊆ has')
        ((scatterRounds n keep after E).flatMap fun R => R v) has []
  | 0, has, h => ⟨rfl, h⟩
  | E + 1, has, h => by
    rw [scatterRounds, List.flatMap_cons, gathers_append]
    refine gathers_imp ?_ (gathers_scatterRound hafter hidle h)
    rintro has' pend ⟨rfl, hhas'⟩
    exact gathers_scatterRounds hafter hidle hhas'

/-- At first rank 0 has all blocks. -/
theorem scatterHas_clog (hv : v < n) :
    scatterHas n idle (Nat.clog 2 n) v ⊆ {b | v = 0 ∨ b ∈ idle} := by
  rintro b (hb | ⟨hdvd, -⟩)
  · exact Or.inr hb
  · refine Or.inl (Nat.eq_zero_of_dvd_of_lt hdvd (hv.trans_le ?_))
    exact Nat.le_pow_clog (by decide) n

/-- Together the rounds are the receive of a rank and the sends to its children. -/
theorem flatMap_scatterRounds : ∀ {E : ℕ}, E ≤ kntreeHeight n 2 v →
    ((scatterRounds n keep after E).flatMap fun R => R v) =
      (kntreeRest n 2 v E 1).flatMap (scatterSend n keep after)
  | 0, _ => rfl
  | E + 1, h => by
    have hdvd : 2 ^ (E + 1) ∣ v := pow_dvd_of_le_kntreeHeight (by decide) h
    rw [scatterRounds, List.flatMap_cons, kntreeRest, List.flatMap_append,
      flatMap_scatterRounds (by omega), scatterRound, if_neg (multiplicity_ne_of_dvd hdvd),
      kntreeLevel_succ (by decide), kntreeLevel_end le_rfl, Nat.mul_one]
    simp only [hdvd, true_and]
    split_ifs <;> simp

/-- The schedule of a rank. -/
theorem flatMap_scatterRounds_all (hv : v < n) :
    ((scatterRounds n keep after (Nat.clog 2 n)).flatMap fun R => R v) =
      (if v = 0 then [] else scatterRecv n keep v) ++
        (kntreeChildren n 2 v).flatMap (scatterSend n keep after) := by
  rcases Nat.eq_zero_or_pos v with rfl | hpos
  · rw [if_pos rfl, List.nil_append, kntreeChildren, kntreeHeight, if_pos rfl]
    exact flatMap_scatterRounds (by rw [kntreeHeight, if_pos rfl])
  have hheight : kntreeHeight n 2 v = multiplicity 2 v := if_neg hpos.ne'
  have hlt : multiplicity 2 v < Nat.clog 2 n := by
    refine (Nat.lt_clog_iff_pow_lt (by decide)).mpr (lt_of_le_of_lt ?_ hv)
    exact Nat.le_of_dvd hpos ((pow_multiplicity_dvd (by decide) hpos).mpr le_rfl)
  rw [if_neg hpos.ne', kntreeChildren, hheight]
  generalize Nat.clog 2 n = E at hlt
  induction E with
  | zero => exact absurd hlt (Nat.not_lt_zero _)
  | succ E ih =>
    rw [scatterRounds, List.flatMap_cons, scatterRound]
    rcases (Nat.lt_succ_iff.mp hlt).lt_or_eq with hlt | heq
    · have hnd : ¬2 ^ (E + 1) ∣ v := fun hdvd => by
        have := (pow_multiplicity_dvd (by decide) hpos).mp hdvd
        omega
      rw [if_neg fun h => hlt.ne h.2, if_neg fun h => hnd h.1, List.nil_append, ih hlt]
    · subst heq
      rw [if_pos ⟨hpos, rfl⟩, flatMap_scatterRounds hheight.ge]

/-! ### A scatter and what comes after it -/

/-- Stops at the start, the scatter, stops between the phases, and the rounds of the second
phase. -/
noncomputable def scatterThen (n : ℕ) (keep : ℕ → Bool) (start : ℕ → Sched ℕ β)
    (after : Sched ℕ β) (close : ℕ → Sched ℕ β) (tail : List (ℕ → Sched ℕ β)) :
    List (ℕ → Sched ℕ β) :=
  start :: (scatterRounds n keep after (Nat.clog 2 n) ++ close :: tail)

variable {start close : ℕ → Sched ℕ β} {tail : List (ℕ → Sched ℕ β)} {R : ℕ → Sched ℕ β}

/-- The schedule of a rank. -/
theorem flatMap_scatterThen (hv : v < n) :
    ((scatterThen n keep start after close tail).flatMap fun R => R v) =
      start v ++ ((if v = 0 then [] else scatterRecv n keep v) ++
        (kntreeChildren n 2 v).flatMap (scatterSend n keep after)) ++
        (close v ++ tail.flatMap fun R => R v) := by
  rw [scatterThen, List.flatMap_cons, List.flatMap_append, List.flatMap_cons,
    flatMap_scatterRounds_all hv, ← List.append_assoc]

theorem mem_scatterThen (hR : R ∈ scatterThen n keep start after close tail) :
    R = start ∨ R = close ∨ (∃ e, R = scatterRound n keep after e) ∨ R ∈ tail := by
  rcases List.mem_cons.mp hR with rfl | hR
  · exact Or.inl rfl
  rcases List.mem_append.mp hR with hR | hR
  · obtain ⟨e, -, rfl⟩ := mem_scatterRounds hR
    exact Or.inr (Or.inr (Or.inl ⟨e, rfl⟩))
  rcases List.mem_cons.mp hR with rfl | hR
  · exact Or.inr (Or.inl rfl)
  · exact Or.inr (Or.inr (Or.inr hR))

theorem fitRound_scatterThen (hstart : ∀ v < n, (start v).Stops) (hafter : after.Stops)
    (hclose : ∀ v < n, (close v).Stops) (htail : ∀ R ∈ tail, FitRound n {b | b < n} R)
    (hR : R ∈ scatterThen n keep start after close tail) : FitRound n {b | b < n} R := by
  obtain rfl | rfl | ⟨e, rfl⟩ | hR := mem_scatterThen hR
  · exact .stops hstart
  · exact .stops hclose
  · exact fitRound_scatterRound hafter
  · exact htail R hR

/-- Every message is made of blocks next to each other, if those of the second phase are. -/
theorem ranges_scatterThen (hstart : ∀ v < n, (start v).Stops) (hafter : after.Stops)
    (hclose : ∀ v < n, (close v).Stops) {src : List ℕ}
    (htail : ∀ R ∈ tail, src ∈ (R v).sendsTo w → ∃ a k, src = List.range' a k)
    (hR : R ∈ scatterThen n keep start after close tail) (hv : v < n) (hw : w < n)
    (hsrc : src ∈ (R v).sendsTo w) : ∃ a k, src = List.range' a k := by
  obtain rfl | rfl | ⟨e, rfl⟩ | hR := mem_scatterThen hR
  · rw [(hstart v hv).sendsTo] at hsrc
    exact absurd hsrc List.not_mem_nil
  · rw [(hclose v hv).sendsTo] at hsrc
    exact absurd hsrc List.not_mem_nil
  · rw [sendsTo_scatterRound hafter hw] at hsrc
    split_ifs at hsrc
    · exact ⟨_, _, List.mem_singleton.mp hsrc⟩
    · exact absurd hsrc List.not_mem_nil
  · exact htail R hR hsrc

variable (idle) in
/-- The rounds bring all blocks to all ranks, if those of the second phase do so once every rank has
    its own block. -/
theorem gathers_scatterThen (hstart : ∀ v < n, (start v).Stops) (hafter : after.Stops)
    (hclose : ∀ v < n, (close v).Stops)
    (hidle : ∀ v, keep v = false → ∀ b ∈ scatterBlocks n v, b ∈ idle) (hv : v < n) {x : ℕ → β}
    {has : Set ℕ} (hhas : ∀ b < n, v = 0 ∨ b ∈ idle → b ∈ has)
    (htail : ∀ has : Set ℕ, v ∈ has →
      Sched.gathers x (fun has' pend => pend = [] ∧ {b | b < n} ⊆ has')
        (tail.flatMap fun R => R v) has []) :
    Sched.gathers x (fun has' pend => pend = [] ∧ {b | b < n} ⊆ has')
      ((scatterThen n keep start after close tail).flatMap fun R => R v) has [] := by
  rw [scatterThen, List.flatMap_cons, List.flatMap_append, List.flatMap_cons, gathers_append]
  refine (hstart v hv).gathers ?_
  rw [gathers_append]
  have hfirst : scatterHas n {b | b ∈ idle ∧ b < n} (Nat.clog 2 n) v ⊆ has := fun b hb => by
    have hlt : b < n := by
      rcases hb with hb | ⟨-, -, hb⟩
      · exact hb.2
      · exact hb.trans_le scatterEnd_le
    exact hhas b hlt ((scatterHas_clog hv hb).imp_right And.left)
  have hidle' (u) (hu : keep u = false) (b) (hb : b ∈ scatterBlocks n u) :
      b ∈ {b | b ∈ idle ∧ b < n} :=
    ⟨hidle u hu b hb, (mem_scatterBlocks.mp hb).2.trans_le scatterEnd_le⟩
  refine gathers_imp ?_ (gathers_scatterRounds hafter hidle' hfirst)
  rintro has' pend ⟨rfl, hhas'⟩
  rw [gathers_append]
  refine (hclose v hv).gathers (htail has' (hhas' (Or.inr ?_)))
  exact ⟨by simp, le_rfl, lt_scatterEnd hv⟩

end Rounds

end Kucg.Algo
