import Mathlib.Tactic

/-! The rank maps of `ucg_rank_map.c`, which turn a rank of one group into a rank of another.

    A map made from an array of ranks is stored as a stride, or as the identity, where the array is
    one. What it evaluates to is not changed by that (`eval_rankMapInitByArray`). -/

namespace Kucg.Core

/-- `ucg_rank_map_type_t`, with the member of the union that belongs to it. A map by callback is
    never made here. -/
inductive RankMapType where
  | full
  | array (ranks : List ℕ)
  | stride (start stride : ℤ)
  deriving DecidableEq, Repr

/-- `ucg_rank_map_t`. -/
structure RankMap where
  type : RankMapType
  size : ℕ
  deriving DecidableEq, Repr

/-- The map of a structure whose bytes are all zero. -/
def RankMap.zero : RankMap := ⟨.full, 0⟩

/-- The loop of `ucg_rank_map_optimize`: whether neighbours differ by `stride`. -/
def isSameStride (stride : ℤ) : List ℕ → Bool
  | a :: b :: ranks => stride == (b : ℤ) - a && isSameStride stride (b :: ranks)
  | _ => true

/-- The stride of the first two ranks. -/
def firstStride : List ℕ → ℤ
  | a :: b :: _ => (b : ℤ) - a
  | _ => 1

/-- `ucg_rank_map_optimize`. -/
def rankMapOptimize (map : RankMap) : RankMap :=
  match map.type with
  | .full => map
  | .stride start stride =>
    if start = 0 ∧ stride = 1 then { map with type := .full } else map
  | .array ranks =>
    let stride := firstStride ranks
    if ¬isSameStride stride ranks then map
    else if stride = 1 ∧ ranks.headD 0 = 0 then { map with type := .full }
    else { map with type := .stride (ranks.headD 0) stride }

/-- `ucg_rank_map_init_by_array` that takes the array over, so that nothing is allocated. -/
def rankMapInitByArray (ranks : List ℕ) : RankMap :=
  rankMapOptimize ⟨.array ranks, ranks.length⟩

/-- `ucg_rank_map_eval`; `UCG_INVALID_RANK` is `none`. -/
def RankMap.eval (map : RankMap) (srcRank : ℕ) : Option ℕ :=
  if srcRank < map.size then
    match map.type with
    | .full => some srcRank
    | .array ranks => ranks[srcRank]?
    | .stride start stride => some (start + srcRank * stride).toNat
  else none

@[simp] theorem size_rankMapInitByArray (ranks : List ℕ) :
    (rankMapInitByArray ranks).size = ranks.length := by
  simp only [rankMapInitByArray, rankMapOptimize]
  split_ifs <;> rfl

/-- Ranks of one stride are an arithmetic progression. -/
theorem isSameStride_getElem {stride : ℤ} : ∀ {a : ℕ} {ranks : List ℕ},
    isSameStride stride (a :: ranks) → ∀ i (h : i < (a :: ranks).length),
      ((a :: ranks)[i] : ℤ) = a + i * stride
  | a, ranks, _, 0, _ => by simp
  | a, b :: ranks, hs, i + 1, h => by
    rw [isSameStride, Bool.and_eq_true, beq_iff_eq] at hs
    have hi := isSameStride_getElem hs.2 i (Nat.lt_of_succ_lt_succ h)
    rw [List.getElem_cons_succ, hi]
    push_cast
    linarith only [hs.1]

/-- A map made from an array looks the array up. -/
theorem eval_rankMapInitByArray (ranks : List ℕ) (r : ℕ) :
    (rankMapInitByArray ranks).eval r = ranks[r]? := by
  rw [RankMap.eval, size_rankMapInitByArray]
  split_ifs with hr
  · obtain ⟨a, ranks, rfl⟩ := List.exists_cons_of_length_pos (Nat.zero_lt_of_lt hr)
    rw [List.getElem?_eq_getElem hr, rankMapInitByArray, rankMapOptimize]
    dsimp only
    split_ifs with hs hfull
    · have hi := isSameStride_getElem hs r hr
      obtain rfl : a = 0 := hfull.2
      rw [hfull.1] at hi
      dsimp only
      congr 1
      omega
    · have hi := isSameStride_getElem hs r hr
      dsimp only [List.headD_cons]
      rw [← hi, Int.toNat_natCast]
    · exact List.getElem?_eq_getElem hr
  · exact (List.getElem?_eq_none (by omega)).symm

end Kucg.Core
