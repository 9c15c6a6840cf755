import Kucg.Lib.Pairing

/-! The recursive-halving iterator of `ucg_rh.c`, and the ranks that it meets.

    With `2 ^ l` the largest power of two within the group size, the ranks from there on are extras,
    and the first ranks are their proxies. The ranks below `2 ^ l` are the nodes of a hypercube as
    they are, and take its dimensions from the biggest distance to the smallest. -/

namespace Kucg.Algo

open Kucg.Lib

/-! ### The iterator -/

/-- `UCG_ALGO_RH_RANK_BASE`. -/
def rhRankBase : ℕ := 2 ^ 0

/-- `UCG_ALGO_RH_RANK_PROXY`. -/
def rhRankProxy : ℕ := 2 ^ 1

/-- `UCG_ALGO_RH_RANK_EXTRA`. -/
def rhRankExtra : ℕ := 2 ^ 2

/-- `ucg_algo_rh_iterator_t`. -/
structure RhIter where
  adjustGroupSize : ℕ
  myRank : ℕ
  myType : ℕ
  iteration : ℕ
  maxIteration : ℕ
  deriving DecidableEq, Repr

namespace RhIter

/-- `ucg_algo_rh_iter_init`. -/
def init (groupSize myRank : ℕ) : RhIter :=
  let adjustGroupSize := 2 ^ Nat.log2 groupSize
  { adjustGroupSize := adjustGroupSize
    myRank := myRank
    myType :=
      if myRank < adjustGroupSize then
        if myRank < groupSize - adjustGroupSize then rhRankBase ||| rhRankProxy else rhRankBase
      else rhRankExtra
    iteration := 0
    maxIteration := Nat.log2 adjustGroupSize }

/-- `ucg_algo_rh_get_extra`; `UCG_INVALID_RANK` is `none`. -/
def getExtra (p : RhIter) : Option ℕ :=
  if p.myType &&& rhRankProxy = 0 then none else some (p.myRank + p.adjustGroupSize)

/-- `ucg_algo_rh_get_proxy`. -/
def getProxy (p : RhIter) : Option ℕ :=
  if p.myType &&& rhRankExtra = 0 then none else some (p.myRank - p.adjustGroupSize)

/-- `ucg_algo_rh_get_next_base`: the peer, and the next iterator. -/
def getNextBase (p : RhIter) : Option ℕ × RhIter :=
  if p.myType &&& rhRankBase = 0 ∨ p.maxIteration ≤ p.iteration then (none, p)
  else (some (p.myRank ^^^ 2 ^ (p.maxIteration - p.iteration - 1)),
    { p with iteration := p.iteration + 1 })

/-- A loop over the base ranks meets these peers, and then the end. -/
def Meets : RhIter → List ℕ → Prop
  | p, [] => p.getNextBase.1 = none
  | p, q :: qs => p.getNextBase.1 = some q ∧ p.getNextBase.2.Meets qs

/-- The peers that a loop over the base ranks meets, if there are at most `fuel`. -/
def basePeers : ℕ → RhIter → List ℕ
  | 0, _ => []
  | fuel + 1, p =>
    match p.getNextBase with
    | (none, _) => []
    | (some q, next) => q :: basePeers fuel next

end RhIter

/-- What the iterators of `n` ranks say. -/
def rhPairing (n : ℕ) : Pairing where
  extra v := (RhIter.init n v).myType &&& rhRankExtra ≠ 0
  proxy v := (RhIter.init n v).myType &&& rhRankProxy ≠ 0
  first v := (RhIter.init n v).getExtra.or (RhIter.init n v).getProxy
  last v := (RhIter.init n v).getExtra.or (RhIter.init n v).getProxy
  steps v := (RhIter.init n v).basePeers n

/-! ### What it meets -/

section Rh

variable {n v : ℕ}

/-- The three kinds of ranks, by the flags. -/
theorem rhType : (RhIter.init n v).myType = if v < 2 ^ Nat.log2 n then
    if v < n - 2 ^ Nat.log2 n then rhRankBase ||| rhRankProxy else rhRankBase
      else rhRankExtra := rfl

theorem rhExtra_iff : (rhPairing n).extra v ↔ 2 ^ Nat.log2 n ≤ v := by
  change (RhIter.init n v).myType &&& rhRankExtra ≠ 0 ↔ _
  rw [rhType]
  split_ifs with hlt hpr
  · simpa [rhRankBase, rhRankProxy, rhRankExtra] using hlt
  · simpa [rhRankBase, rhRankExtra] using hlt
  · simpa [rhRankExtra] using hlt

theorem rhProxy_iff : (rhPairing n).proxy v ↔ v < 2 ^ Nat.log2 n ∧ v < n - 2 ^ Nat.log2 n := by
  change (RhIter.init n v).myType &&& rhRankProxy ≠ 0 ↔ _
  rw [rhType]
  split_ifs with hlt hpr
  · simpa [rhRankBase, rhRankProxy] using ⟨hlt, hpr⟩
  · simpa [rhRankBase, rhRankProxy] using fun _ => Nat.not_lt.mp hpr
  · simpa [rhRankProxy, rhRankExtra] using fun h => absurd h hlt

/-- A proxy meets the rank a power of two above it, and an extra the one below. -/
theorem rhFirst : (rhPairing n).first v =
    if 2 ^ Nat.log2 n ≤ v then some (v - 2 ^ Nat.log2 n)
    else if v < n - 2 ^ Nat.log2 n then some (v + 2 ^ Nat.log2 n) else none := by
  change (RhIter.init n v).getExtra.or (RhIter.init n v).getProxy = _
  rw [RhIter.getExtra, RhIter.getProxy, rhType]
  rcases Nat.lt_or_ge v (2 ^ Nat.log2 n) with hlt | hle
  · rw [if_pos hlt, if_neg (Nat.not_le.mpr hlt)]
    split_ifs <;> simp_all [rhRankBase, rhRankProxy, rhRankExtra, RhIter.init]
  · rw [if_neg (Nat.not_lt.mpr hle), if_pos hle]
    simp [rhRankProxy, rhRankExtra, RhIter.init]

/-- The iterator of rank `v` after `i` steps. -/
def rhIterAt (n v i : ℕ) : RhIter := { RhIter.init n v with iteration := i }

theorem rhIterAt_zero : rhIterAt n v 0 = RhIter.init n v := rfl

/-- A rank that is no extra meets the one across the next smaller dimension. -/
theorem getNextBase_at (hv : v < 2 ^ Nat.log2 n) {i : ℕ} (hi : i < Nat.log2 n) :
    (rhIterAt n v i).getNextBase =
      (some (v ^^^ 2 ^ (Nat.log2 n - i - 1)), rhIterAt n v (i + 1)) := by
  have htype : ¬((rhIterAt n v i).myType &&& rhRankBase = 0) := by
    change ¬((RhIter.init n v).myType &&& rhRankBase = 0)
    rw [rhType, if_pos hv]
    split_ifs <;> simp [rhRankBase, rhRankProxy]
  have hmax : (rhIterAt n v i).maxIteration = Nat.log2 n := Nat.log2_two_pow
  rw [RhIter.getNextBase, if_neg]
  · refine Prod.ext ?_ rfl
    change some (v ^^^ 2 ^ ((rhIterAt n v i).maxIteration - i - 1)) = _
    rw [hmax]
  · rw [hmax]
    rintro (h | h)
    · exact htype h
    · exact absurd hi (Nat.not_lt.mpr h)

/-- After all steps, and at an extra at once, there is none. -/
theorem getNextBase_end {i : ℕ} (h : 2 ^ Nat.log2 n ≤ v ∨ Nat.log2 n ≤ i) :
    (rhIterAt n v i).getNextBase = (none, rhIterAt n v i) := by
  rw [RhIter.getNextBase, if_pos]
  rcases h with h | h
  · refine Or.inl ?_
    change (RhIter.init n v).myType &&& rhRankBase = 0
    rw [rhType, if_neg (Nat.not_lt.mpr h)]
    rfl
  · refine Or.inr ?_
    change Nat.log2 (2 ^ Nat.log2 n) ≤ i
    rwa [Nat.log2_two_pow]

/-- From the `i`-th step on a rank meets those across the dimensions that are left. -/
theorem basePeers_at (hv : v < 2 ^ Nat.log2 n) : ∀ (k i fuel : ℕ), i + k = Nat.log2 n → k ≤ fuel →
    (rhIterAt n v i).basePeers fuel =
        (List.range' i k).map (fun j => v ^^^ 2 ^ (Nat.log2 n - j - 1)) ∧
      (rhIterAt n v i).Meets ((List.range' i k).map fun j => v ^^^ 2 ^ (Nat.log2 n - j - 1))
  | 0, i, fuel, hi, _ => by
    have hend := getNextBase_end (n := n) (v := v) (i := i) (Or.inr (by omega))
    refine ⟨?_, congrArg Prod.fst hend⟩
    cases fuel with
    | zero => rfl
    | succ fuel =>
      rw [RhIter.basePeers, hend]
      rfl
  | k + 1, i, 0, _, hle => absurd hle (by omega)
  | k + 1, i, fuel + 1, hi, hle => by
    have hnext := getNextBase_at hv (i := i) (by omega)
    obtain ⟨hpeers, hmeets⟩ := basePeers_at hv k (i + 1) fuel (by omega) (by omega)
    rw [List.range'_succ, List.map_cons]
    refine ⟨?_, ?_, ?_⟩
    · rw [RhIter.basePeers, hnext]
      dsimp only
      rw [hpeers]
    · rw [hnext]
    · rw [hnext]
      exact hmeets

/-- An extra meets nobody in the steps. -/
theorem basePeers_extra (hv : 2 ^ Nat.log2 n ≤ v) (fuel : ℕ) :
    (RhIter.init n v).basePeers fuel = [] ∧ (RhIter.init n v).Meets [] := by
  have hend := getNextBase_end (n := n) (v := v) (i := 0) (Or.inl hv)
  rw [rhIterAt_zero] at hend
  refine ⟨?_, congrArg Prod.fst hend⟩
  cases fuel with
  | zero => rfl
  | succ fuel =>
    rw [RhIter.basePeers, hend]

theorem rhSteps (hv : v < 2 ^ Nat.log2 n) : (rhPairing n).steps v =
    (List.range (Nat.log2 n)).map fun k => v ^^^ 2 ^ (Nat.log2 n - k - 1) := by
  have hle : Nat.log2 n ≤ n := by
    rcases Nat.eq_zero_or_pos n with rfl | hn
    · decide
    · exact (Nat.lt_two_pow_self.le).trans (Nat.log2_self_le hn.ne')
  rw [List.range_eq_range']
  exact (basePeers_at hv _ 0 n (Nat.zero_add _) hle).1

/-- A loop over the base ranks comes to its end. -/
theorem meets_rhSteps (n v : ℕ) : (RhIter.init n v).Meets ((rhPairing n).steps v) := by
  rcases Nat.lt_or_ge v (2 ^ Nat.log2 n) with hlt | hle
  · rw [rhSteps hlt, List.range_eq_range']
    exact (basePeers_at hlt _ 0 _ (Nat.zero_add _) le_rfl).2
  · change (RhIter.init n v).Meets ((RhIter.init n v).basePeers n)
    rw [(basePeers_extra hle n).1]
    exact (basePeers_extra hle n).2

/-- An extra and the rank a power of two below it meet before and after the steps. -/
theorem rhMatched (hle : 2 ^ Nat.log2 n ≤ v) (hlt : v < n) :
    (rhPairing n).Matched v (v - 2 ^ Nat.log2 n) := by
  have htwo : n < 2 * 2 ^ Nat.log2 n := by
    have := Nat.lt_log2_self (n := n)
    rw [pow_succ] at this
    omega
  have hup : (rhPairing n).first v = some (v - 2 ^ Nat.log2 n) := by rw [rhFirst, if_pos hle]
  have hdown : (rhPairing n).first (v - 2 ^ Nat.log2 n) = some v := by
    rw [rhFirst, if_neg (by omega), if_pos (by omega), Nat.sub_add_cancel hle]
  exact ⟨rhExtra_iff.mpr hle, rhProxy_iff.mpr ⟨by omega, by omega⟩, ⟨hup, hdown⟩, hup, hdown⟩

/-- The ranks below the power of two are a hypercube, its dimensions in falling order. -/
theorem rhCube (hn : n ≠ 0) :
    CubePairing (rhPairing n) n (Nat.log2 n) (fun k => Nat.log2 n - k - 1) id id where
  number_lt p _ hex := Nat.lt_of_not_le (mt rhExtra_iff.mpr hex)
  name_lt w hw := hw.trans_le (Nat.log2_self_le hn)
  name_not_extra w hw := mt rhExtra_iff.mp (Nat.not_le.mpr hw)
  name_number _ _ _ := rfl
  number_name _ _ := rfl
  dim_lt k hk := by omega
  exists_dim i hi := ⟨Nat.log2 n - i - 1, by omega, by omega⟩
  steps p _ hex := rhSteps (Nat.lt_of_not_le (mt rhExtra_iff.mpr hex))
  steps_extra p _ hex := (basePeers_extra (rhExtra_iff.mp hex) n).1
  extra e he hex := by
    have hle := rhExtra_iff.mp hex
    exact ⟨e - 2 ^ Nat.log2 n, (Nat.sub_le ..).trans_lt he, rhMatched hle he⟩
  proxy q hq hpr := by
    obtain ⟨hlt, hup⟩ := rhProxy_iff.mp hpr
    refine ⟨mt rhExtra_iff.mp (Nat.not_le.mpr hlt), q + 2 ^ Nat.log2 n, by omega, ?_⟩
    have hmatched := rhMatched (n := n) (v := q + 2 ^ Nat.log2 n) (by omega) (by omega)
    rwa [Nat.add_sub_cancel] at hmatched
  base p _ hex hpr := by
    have hlt := mt rhExtra_iff.mpr hex
    have hnone : (rhPairing n).first p = none := by
      rw [rhFirst, if_neg hlt, if_neg fun h => hpr (rhProxy_iff.mpr ⟨by omega, h⟩)]
    exact ⟨hnone, hnone⟩

end Rh

end Kucg.Algo
