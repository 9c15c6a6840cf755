import Kucg.Core.Status
import Kucg.Core.RankMap
import Mathlib.Data.BitVec

/-! The rank maps of `ucg_rank_map.c` in the machine's integers.

    Ranks and strides are 32-bit numbers that wrap around, sizes are unsigned, and a map may also
    call the user back. Storing an array as a stride or as the identity never changes what it
    evaluates to. What changes it is that `ucg_rank_map_init_by_array` keeps the length of its copy
    in an `int`, and that `ucg_rank_map_eval` compares with the size as one
    (`rankMaps_normalised_iff`). -/

namespace Kucg.Core

/-- `ucg_rank_t`. -/
abbrev Rank := BitVec 32

/-- `UCG_INVALID_RANK`. -/
def invalidRank : Rank := -1

/-- `ucg_rank_map_type_t`, with the member of the union that belongs to it. An array is the block of
    memory that the pointer points to. -/
inductive RankMapKind where
  | full
  | array (cells : List Rank)
  | stride (start stride : Rank)
  | cb (mapping : Rank → Rank)

/-- `ucg_rank_map_t`. -/
structure IntRankMap where
  type : RankMapKind
  size : BitVec 32

/-- The loop of `ucg_rank_map_optimize`: whether all neighbours differ as the first two do. -/
def sameStride (cells : List Rank) (size : ℕ) (stride : Rank) : Bool :=
  (List.range' 2 (size - 2)).all fun i => stride == cells.getD i 0 - cells.getD (i - 1) 0

/-- `stride` in `ucg_rank_map_optimize`. -/
def arrayStride (cells : List Rank) (size : ℕ) : Rank :=
  if 1 < size then cells.getD 1 0 - cells.getD 0 0 else 1

/-- `ucg_rank_map_optimize`, with what it writes to `array`. -/
def IntRankMap.optimize (map : IntRankMap) : IntRankMap × Option (List Rank) :=
  match map.type with
  | .full | .cb _ => (map, none)
  | .stride start stride =>
    (if start = 0 ∧ stride = 1 then { map with type := .full } else map, none)
  | .array cells =>
    let stride := arrayStride cells map.size.toNat
    if ¬ sameStride cells map.size.toNat stride then (map, none)
    else if stride = 1 ∧ cells.getD 0 0 = 0 then ({ map with type := .full }, some cells)
    else ({ map with type := .stride (cells.getD 0 0) stride }, some cells)

/-- `ucg_rank_map_init_by_array`, with what `*ranks` is afterwards. An allocation of a negative
    length fails, one of another length if it is not `granted`. -/
def IntRankMap.initByArray (granted : Bool) (ranks : List Rank) (size : BitVec 32)
    (takeOver : Bool) : Status × IntRankMap × Option (List Rank) :=
  let (map, array) := IntRankMap.optimize ⟨.array ranks, size⟩
  if array.isSome then (.ok, map, if takeOver then none else some ranks)
  else if takeOver then (.ok, map, none)
  else
    let length := (map.size * 4).toInt
    if granted ∧ 0 ≤ length then
      (.ok, { map with type := .array (ranks.take (length.toNat / 4)) }, some ranks)
    else (.errNoMemory, { map with type := .array [] }, some ranks)

/-- `ucg_rank_map_copy`. -/
def IntRankMap.copy (granted : Bool) (src : IntRankMap) : Status × IntRankMap :=
  match src.type with
  | .array cells =>
    let (status, dst, _) := initByArray granted cells src.size false
    (status, dst)
  | _ => (.ok, src.optimize.1)

/-- The switch of `ucg_rank_map_eval`. A read outside of the array is `none`. -/
def IntRankMap.lookup (map : IntRankMap) (srcRank : Rank) : Option Rank :=
  match map.type with
  | .full => some srcRank
  | .array cells => if 0 ≤ srcRank.toInt then cells[srcRank.toInt.toNat]? else none
  | .stride start stride => some (start + srcRank * stride)
  | .cb mapping => some (mapping srcRank)

/-- `ucg_rank_map_eval`, compiled with the checks of parameters or without. -/
def IntRankMap.eval (checkParams : Bool) (map : IntRankMap) (srcRank : Rank) : Option Rank :=
  if checkParams ∧ (srcRank.toInt < 0 ∨ map.size.toInt ≤ srcRank.toInt) then some invalidRank
  else map.lookup srcRank

/-- The array of a map has as many cells as the map says. -/
def IntRankMap.Wf (map : IntRankMap) : Prop :=
  ∀ cells, map.type = .array cells → map.size.toNat ≤ cells.length

/-- The source ranks of a map. -/
def IntRankMap.InRange (map : IntRankMap) (srcRank : Rank) : Prop :=
  0 ≤ srcRank.toInt ∧ srcRank.toNat < map.size.toNat

/-- All neighbours among the first `size` ranks differ as the first two do. -/
def Strided (cells : List Rank) (size : ℕ) : Prop :=
  ∀ i, i + 2 < size →
    cells.getD (i + 2) 0 - cells.getD (i + 1) 0 = cells.getD 1 0 - cells.getD 0 0

section Optimize

variable {cells : List Rank} {size : ℕ} {map : IntRankMap} {srcRank : Rank}

/-! ### The detector -/

theorem sameStride_iff : sameStride cells size (arrayStride cells size) ↔ Strided cells size := by
  simp only [sameStride, List.all_eq_true, beq_iff_eq, List.mem_range'_1]
  constructor
  · intro h i hi
    have hstep := h (i + 2) ⟨by omega, by omega⟩
    rw [arrayStride, if_pos (by omega)] at hstep
    exact hstep.symm
  · rintro h i ⟨h2, hi⟩
    obtain ⟨j, rfl⟩ := Nat.exists_eq_add_of_le' h2
    rw [arrayStride, if_pos (by omega)]
    exact (h j (by omega)).symm

/-- Ranks of one stride are an arithmetic progression, modulo the width. -/
theorem Strided.getD (h : Strided cells size) : ∀ {i : ℕ}, i < size →
    cells.getD i 0 = cells.getD 0 0 + BitVec.ofNat 32 i * arrayStride cells size
  | 0, _ => by simp
  | 1, h1 => by
    have hone : BitVec.ofNat 32 1 = 1 := rfl
    rw [arrayStride, if_pos h1, hone]
    ring
  | i + 2, hi => by
    have hprev := h.getD (i := i + 1) (by omega)
    have hstep := h i hi
    have hstride : arrayStride cells size = cells.getD 1 0 - cells.getD 0 0 := if_pos (by omega)
    calc cells.getD (i + 2) 0
        = cells.getD (i + 1) 0 + arrayStride cells size := by
          rw [hstride, ← hstep]
          ring
      _ = cells.getD 0 0 + (BitVec.ofNat 32 (i + 1) + 1) * arrayStride cells size := by
          rw [hprev]
          ring
      _ = cells.getD 0 0 + BitVec.ofNat 32 (i + 2) * arrayStride cells size := by
          rw [show i + 2 = i + 1 + 1 from rfl, BitVec.ofNat_add (i + 1) 1]
          rfl

@[simp] theorem IntRankMap.optimize_size : map.optimize.1.size = map.size := by
  obtain ⟨_ | cells | ⟨start, stride⟩ | mapping, size⟩ := map
  · rfl
  · simp only [optimize]
    split_ifs <;> rfl
  · simp only [optimize]
    split_ifs <;> rfl
  · rfl

/-- An array is replaced just when it is strided, and handed back then. -/
theorem IntRankMap.optimize_array (cells : List Rank) (size : BitVec 32) :
    (Strided cells size.toNat ∧ (optimize ⟨.array cells, size⟩).2 = some cells ∧
      ((arrayStride cells size.toNat = 1 ∧ cells.getD 0 0 = 0 ∧
          (optimize ⟨.array cells, size⟩).1 = ⟨.full, size⟩) ∨
        ¬ (arrayStride cells size.toNat = 1 ∧ cells.getD 0 0 = 0) ∧
          (optimize ⟨.array cells, size⟩).1 =
            ⟨.stride (cells.getD 0 0) (arrayStride cells size.toNat), size⟩)) ∨
    (¬ Strided cells size.toNat ∧
      optimize ⟨.array cells, size⟩ = (⟨.array cells, size⟩, none)) := by
  rw [← sameStride_iff]
  simp only [optimize]
  split_ifs with hsame hfull
  · exact .inl ⟨hsame, rfl, .inl ⟨hfull.1, hfull.2, rfl⟩⟩
  · exact .inl ⟨hsame, rfl, .inr ⟨hfull, rfl⟩⟩
  · exact .inr ⟨hsame, rfl⟩

theorem IntRankMap.optimize_wf (hwf : map.Wf) : map.optimize.1.Wf := by
  obtain ⟨_ | cells | ⟨start, stride⟩ | mapping, size⟩ := map
  · exact hwf
  · rcases optimize_array cells size with
      ⟨-, -, ⟨-, -, hmap⟩ | ⟨-, hmap⟩⟩ | ⟨-, hmap⟩ <;> rw [hmap]
    · intro cells' h
      cases h
    · intro cells' h
      cases h
    · exact hwf
  · simp only [optimize]
    split_ifs <;> intro cells' h <;> cases h
  · exact hwf

theorem toInt_eq_toNat (h : 0 ≤ srcRank.toInt) : srcRank.toInt = srcRank.toNat := by
  have := srcRank.isLt
  rw [BitVec.toInt_eq_toNat_cond] at h ⊢
  split_ifs at h ⊢ <;> omega

theorem IntRankMap.lookup_array {size : BitVec 32} (hrange : InRange ⟨.array cells, size⟩ srcRank)
    (hwf : size.toNat ≤ cells.length) :
    lookup ⟨.array cells, size⟩ srcRank = some (cells.getD srcRank.toNat 0) := by
  have hlt : srcRank.toNat < cells.length := Nat.lt_of_lt_of_le hrange.2 hwf
  rw [lookup]
  dsimp only
  rw [if_pos hrange.1, toInt_eq_toNat hrange.1, Int.toNat_natCast]
  simp [hlt]

/-- A strided array evaluates to its elements after the replacement. -/
theorem IntRankMap.lookup_strided {size : BitVec 32} (hsame : Strided cells size.toNat) {i : ℕ}
    (hi : i < size.toNat) :
    (optimize ⟨.array cells, size⟩).1.lookup (BitVec.ofNat 32 i) = some (cells.getD i 0) := by
  rcases optimize_array cells size with ⟨-, -, ⟨hone, hzero, hmap⟩ | ⟨-, hmap⟩⟩ | ⟨hnot, -⟩
  · rw [hmap, hsame.getD hi, hone, hzero]
    simp [lookup]
  · rw [hmap, hsame.getD hi]
    rfl
  · exact absurd hsame hnot

/-- What is evaluated in the range of a map stays the same. -/
theorem IntRankMap.lookup_optimize (hwf : map.Wf) (hrange : map.InRange srcRank) :
    map.optimize.1.lookup srcRank = map.lookup srcRank := by
  obtain ⟨_ | cells | ⟨start, stride⟩ | mapping, size⟩ := map
  · rfl
  · by_cases hsame : Strided cells size.toNat
    · have heval := lookup_strided hsame hrange.2
      rw [BitVec.ofNat_toNat, BitVec.setWidth_eq] at heval
      rw [heval, lookup_array hrange (hwf cells rfl)]
    · rcases optimize_array cells size with ⟨h, -⟩ | ⟨-, hmap⟩
      · exact absurd h hsame
      · rw [hmap]
  · simp only [optimize]
    split_ifs with hfull
    · obtain ⟨rfl, rfl⟩ := hfull
      simp [lookup]
    · rfl
  · rfl

/-- An index is checked or in range. -/
def IntRankMap.Valid (checkParams : Bool) (map : IntRankMap) (srcRank : Rank) : Prop :=
  checkParams = true ∨ map.InRange srcRank

theorem IntRankMap.eval_congr {map' : IntRankMap} {checkParams : Bool}
    (hsize : map'.size = map.size)
    (hlookup : map.InRange srcRank → map'.lookup srcRank = map.lookup srcRank)
    (hvalid : map.Valid checkParams srcRank) :
    map'.eval checkParams srcRank = map.eval checkParams srcRank := by
  rw [eval, eval, hsize]
  split_ifs with hout
  · rfl
  · refine hlookup ?_
    rcases hvalid with rfl | h
    · have : srcRank.toInt = srcRank.toNat := toInt_eq_toNat (by simp at hout; omega)
      have hsize : map.size.toInt ≤ map.size.toNat := by
        rw [BitVec.toInt_eq_toNat_cond]
        split_ifs <;> omega
      simp at hout
      exact ⟨hout.1, by omega⟩
    · exact h

theorem IntRankMap.optimize_optimize : map.optimize.1.optimize.1 = map.optimize.1 := by
  obtain ⟨_ | cells | ⟨start, stride⟩ | mapping, size⟩ := map
  · rfl
  · rcases optimize_array cells size with
      ⟨-, -, ⟨-, -, hmap⟩ | ⟨hnot, hmap⟩⟩ | ⟨-, hmap⟩
    · rw [hmap]
      rfl
    · rw [hmap, optimize]
      exact if_neg fun h => hnot h.symm
    · rw [hmap]
      exact congrArg Prod.fst hmap
  · simp only [optimize]
    split_ifs with hfull
    · rfl
    · exact if_neg hfull
  · rfl

end Optimize

/-! ### Maps made from arrays -/

section Init

variable {ranks : List Rank} {n i : ℕ} {map : IntRankMap} {checkParams : Bool}

/-- The argument `*ranks`, with a size that is an unsigned number. -/
structure RankArray where
  cells : List Rank
  pos : 0 < cells.length
  lt : cells.length < 2 ^ 32

theorem ofNat_toInt (hn : n < 2 ^ 32) :
    (BitVec.ofNat 32 n).toInt = if n < 2 ^ 31 then (n : ℤ) else n - 2 ^ 32 := by
  rw [BitVec.toInt_eq_toNat_cond, BitVec.toNat_ofNat, Nat.mod_eq_of_lt hn]
  split_ifs <;> omega

/-- The bytes of an array, as the `int` that they are kept in. -/
theorem length_toInt (hn : n < 2 ^ 32) :
    (n < 2 ^ 29 → (BitVec.ofNat 32 n * 4).toInt = 4 * n) ∧
      (2 ^ 29 ≤ n → 0 ≤ (BitVec.ofNat 32 n * 4).toInt →
        (BitVec.ofNat 32 n * 4).toInt.toNat / 4 < n ∧
        (BitVec.ofNat 32 n * 4).toInt.toNat / 4 < 2 ^ 29) := by
  have hmul : (BitVec.ofNat 32 n * 4).toNat = n * 4 % 2 ^ 32 := by
    rw [BitVec.toNat_mul, BitVec.toNat_ofNat, Nat.mod_eq_of_lt hn]
    rfl
  rw [BitVec.toInt_eq_toNat_cond, hmul]
  constructor <;> intros <;> split_ifs at * <;> omega

/-- Below `2 ^ 31`, or without the check, an index is looked up. -/
theorem IntRankMap.eval_ofNat (hn : n < 2 ^ 32) (hsize : map.size = BitVec.ofNat 32 n) (hi : i < n)
    (hcheck : checkParams = true → n < 2 ^ 31) :
    map.eval checkParams (BitVec.ofNat 32 i) = map.lookup (BitVec.ofNat 32 i) := by
  rw [eval, hsize, ofNat_toInt hn, ofNat_toInt (by omega)]
  refine if_neg ?_
  rintro ⟨hchecked, hout⟩
  have := hcheck hchecked
  split_ifs at hout <;> omega

/-- A size from `2 ^ 31` on is negative for the check. -/
theorem IntRankMap.eval_huge (hn : n < 2 ^ 32) (hsize : map.size = BitVec.ofNat 32 n) (hi : i < n)
    (hhuge : 2 ^ 31 ≤ n) : map.eval true (BitVec.ofNat 32 i) = some invalidRank := by
  rw [eval, hsize, ofNat_toInt hn, ofNat_toInt (by omega)]
  refine if_pos ⟨rfl, ?_⟩
  split_ifs <;> omega

theorem IntRankMap.lookup_cells {size : BitVec 32} (hi : i < 2 ^ 32) :
    lookup ⟨.array ranks, size⟩ (BitVec.ofNat 32 i) = if i < 2 ^ 31 then ranks[i]? else none := by
  rw [lookup]
  dsimp only
  rw [ofNat_toInt hi]
  split_ifs <;> first | omega | simp

theorem strided_of_forall_eq {r : Rank} (h : ∀ x ∈ ranks, x = r) : Strided ranks ranks.length := by
  have hget (i : ℕ) (hi : i < ranks.length) : ranks.getD i 0 = r := by
    rw [List.getD_eq_getElem?_getD, List.getElem?_eq_getElem hi]
    exact h _ (List.getElem_mem hi)
  intro i hi
  rw [hget _ hi, hget _ (by omega), hget _ (by omega), hget _ (by omega)]

/-- `ucg_rank_map_init_by_array`, case by case. -/
theorem IntRankMap.initByArray_cases (granted : Bool) (ranks : List Rank) (size : BitVec 32)
    (takeOver : Bool) : let r := initByArray granted ranks size takeOver
    (Strided ranks size.toNat ∧ r.1 = .ok ∧ r.2.1 = (optimize ⟨.array ranks, size⟩).1) ∨
    (¬ Strided ranks size.toNat ∧ takeOver = true ∧ r.1 = .ok ∧ r.2.1 = ⟨.array ranks, size⟩) ∨
    (¬ Strided ranks size.toNat ∧ takeOver = false ∧ granted = true ∧ 0 ≤ (size * 4).toInt ∧
      r.1 = .ok ∧ r.2.1 = ⟨.array (ranks.take ((size * 4).toInt.toNat / 4)), size⟩) ∨
    (¬ Strided ranks size.toNat ∧ takeOver = false ∧ ¬ (granted = true ∧ 0 ≤ (size * 4).toInt) ∧
      r.1 = .errNoMemory) := by
  rcases optimize_array ranks size with ⟨hsame, harray, -⟩ | ⟨hsame, hmap⟩
  · refine .inl ⟨hsame, ?_⟩
    simp [initByArray, harray]
  · refine .inr ?_
    cases takeOver
    · refine .inr ?_
      by_cases hgrant : granted = true ∧ 0 ≤ (size * 4).toInt
      · refine .inl ⟨hsame, rfl, hgrant.1, hgrant.2, ?_⟩
        simp only [initByArray, hmap]
        rw [if_pos hgrant]
        exact ⟨rfl, rfl⟩
      · refine .inr ⟨hsame, rfl, hgrant, ?_⟩
        simp only [initByArray, hmap]
        rw [if_neg hgrant]
        rfl
    · refine .inl ⟨hsame, rfl, ?_⟩
      simp [initByArray, hmap]

@[simp] theorem IntRankMap.initByArray_size (granted : Bool) (ranks : List Rank) (size : BitVec 32)
    (takeOver : Bool) : (initByArray granted ranks size takeOver).2.1.size = size := by
  have hsize : (optimize ⟨.array ranks, size⟩).1.size = size := optimize_size
  simp only [initByArray]
  split_ifs <;> exact hsize

/-- An array is given a map that evaluates to it, if there is memory. -/
def InitRight (checkParams : Bool) (ranks : RankArray) (takeOver : Bool) : Prop :=
  let r := IntRankMap.initByArray true ranks.cells (BitVec.ofNat 32 ranks.cells.length) takeOver
  r.1 = .ok ∧ ∀ i (h : i < ranks.cells.length),
    r.2.1.eval checkParams (BitVec.ofNat 32 i) = some ranks.cells[i]

theorem initRight_iff (checkParams takeOver : Bool) (ranks : RankArray) :
    InitRight checkParams ranks takeOver ↔
      (checkParams = true → 2 ^ 31 ≤ ranks.cells.length → ∀ r ∈ ranks.cells, r = invalidRank) ∧
      (¬ Strided ranks.cells ranks.cells.length →
        ranks.cells.length ≤ 2 ^ 31 ∧ (takeOver = false → ranks.cells.length < 2 ^ 29)) := by
  obtain ⟨ranks, hpos, hlt⟩ := ranks
  dsimp only [InitRight]
  have hnat : (BitVec.ofNat 32 ranks.length).toNat = ranks.length := by
    rw [BitVec.toNat_ofNat, Nat.mod_eq_of_lt hlt]
  by_cases hhuge : checkParams = true ∧ 2 ^ 31 ≤ ranks.length
  · -- nothing but the invalid rank is evaluated
    obtain ⟨rfl, hle⟩ := hhuge
    have heval (i : ℕ) (hi : i < ranks.length) := IntRankMap.eval_huge hlt
      (IntRankMap.initByArray_size true ranks (BitVec.ofNat 32 ranks.length) takeOver) hi hle
    constructor
    · rintro ⟨-, hall⟩
      have hinvalid : ∀ r ∈ ranks, r = invalidRank := by
        intro r hr
        obtain ⟨i, hi, rfl⟩ := List.mem_iff_getElem.mp hr
        exact Option.some.inj ((hall i hi).symm.trans (heval i hi))
      exact ⟨fun _ _ => hinvalid, fun h => absurd (strided_of_forall_eq hinvalid) h⟩
    · rintro ⟨hinvalid, -⟩
      have hinvalid := hinvalid rfl hle
      refine ⟨?_, fun i hi => ?_⟩
      · have hsame := strided_of_forall_eq hinvalid
        rcases IntRankMap.initByArray_cases true ranks (BitVec.ofNat 32 ranks.length) takeOver with
          h | h | h | h <;> rw [hnat] at h
        · exact h.2.1
        all_goals exact absurd hsame h.1
      · rw [heval i hi, hinvalid _ (List.getElem_mem hi)]
  · have hcheck (h : checkParams = true) : ranks.length < 2 ^ 31 := by
      by_contra hle
      exact hhuge ⟨h, Nat.le_of_not_lt hle⟩
    have hget (i : ℕ) (h : i < ranks.length) : ranks.getD i 0 = ranks[i] := by simp [h]
    have hfirst : checkParams = true → 2 ^ 31 ≤ ranks.length → ∀ r ∈ ranks, r = invalidRank :=
      fun h hle => absurd ⟨h, hle⟩ hhuge
    have hcases := IntRankMap.initByArray_cases true ranks (BitVec.ofNat 32 ranks.length) takeOver
    generalize IntRankMap.initByArray true ranks (BitVec.ofNat 32 ranks.length) takeOver =
      r at hcases ⊢
    obtain ⟨status, map, rest⟩ := r
    dsimp only at hcases ⊢
    rw [hnat] at hcases
    rcases hcases with ⟨hsame, rfl, rfl⟩ | ⟨hsame, rfl, rfl, rfl⟩ |
      ⟨hsame, rfl, -, hlen, rfl, rfl⟩ |
      ⟨hsame, rfl, hlen, rfl⟩
    · refine iff_of_true ⟨rfl, fun i hi => ?_⟩ ⟨hfirst, fun h => absurd hsame h⟩
      rw [IntRankMap.eval_ofNat hlt (by simp) hi hcheck,
        IntRankMap.lookup_strided (hnat.symm ▸ hsame) (hnat.symm ▸ hi), hget]
    · have heval (i : ℕ) (hi : i < ranks.length) := @IntRankMap.eval_ofNat _ i
        ⟨.array ranks, BitVec.ofNat 32 ranks.length⟩ _ hlt rfl hi hcheck
      constructor
      · rintro ⟨-, hall⟩
        refine ⟨hfirst, fun _ => ⟨?_, nofun⟩⟩
        by_contra hlong
        have hlast := hall (2 ^ 31) (by omega)
        rw [heval _ (by omega), IntRankMap.lookup_cells (by omega)] at hlast
        simp at hlast
      · rintro ⟨-, hshort⟩
        have hshort := (hshort hsame).1
        refine ⟨rfl, fun i hi => ?_⟩
        rw [heval i hi, IntRankMap.lookup_cells (by omega), if_pos (by omega)]
        exact List.getElem?_eq_getElem hi
    · obtain ⟨len, hlendef⟩ : ∃ len, (BitVec.ofNat 32 ranks.length * 4).toInt.toNat / 4 = len :=
        ⟨_, rfl⟩
      rw [hlendef]
      have heval (i : ℕ) (hi : i < ranks.length) := @IntRankMap.eval_ofNat _ i
        ⟨.array (ranks.take len), BitVec.ofNat 32 ranks.length⟩ _ hlt rfl hi hcheck
      constructor
      · rintro ⟨-, hall⟩
        refine ⟨hfirst, fun _ => ?_⟩
        suffices hshort : ranks.length < 2 ^ 29 from ⟨by omega, fun _ => hshort⟩
        by_contra hlong
        -- the copy ends before the array does
        obtain ⟨hlt', -⟩ := (length_toInt hlt).2 (Nat.le_of_not_lt hlong) hlen
        rw [hlendef] at hlt'
        have hend := hall len hlt'
        rw [heval _ hlt', IntRankMap.lookup_cells (by omega),
          List.getElem?_eq_none (by simp)] at hend
        simp at hend
      · rintro ⟨-, hshort⟩
        have hshort := (hshort hsame).2 rfl
        have hlen : len = ranks.length := by
          rw [← hlendef, (length_toInt hlt).1 hshort]
          omega
        refine ⟨rfl, fun i hi => ?_⟩
        rw [heval i hi, IntRankMap.lookup_cells (by omega), if_pos (by omega), hlen,
          List.take_length]
        exact List.getElem?_eq_getElem hi
    · refine iff_of_false (fun h => nomatch h.1) fun h => hlen ⟨rfl, ?_⟩
      rw [(length_toInt hlt).1 ((h.2 hsame).2 rfl)]
      omega

/-- A copy is a map like the first one, and copying it once more changes nothing. -/
def CopyRight (checkParams : Bool) (map : IntRankMap) : Prop :=
  let r := IntRankMap.copy true map
  r.1 = .ok ∧ r.2.Wf ∧
    (∀ srcRank, map.Valid checkParams srcRank →
      r.2.eval checkParams srcRank = map.eval checkParams srcRank) ∧
    IntRankMap.copy true r.2 = (.ok, r.2)

/-- A map that is not an array, or one that is strided. -/
def IntRankMap.Compact (map : IntRankMap) : Prop :=
  ∀ cells, map.type = .array cells → Strided cells map.size.toNat

theorem IntRankMap.Compact.optimize (h : map.Compact) (cells : List Rank) :
    map.optimize.1.type ≠ .array cells := by
  obtain ⟨_ | cells' | ⟨start, stride⟩ | mapping, size⟩ := map
  · nofun
  · rcases optimize_array cells' size with ⟨-, -, ⟨-, -, hmap⟩ | ⟨-, hmap⟩⟩ | ⟨hnot, -⟩
    · simp [hmap]
    · simp [hmap]
    · exact absurd (h cells' rfl) hnot
  · simp only [IntRankMap.optimize]
    split_ifs <;> nofun
  · nofun

theorem IntRankMap.Compact.copy (granted : Bool) (h : map.Compact) :
    map.copy granted = (.ok, map.optimize.1) := by
  obtain ⟨_ | cells | ⟨start, stride⟩ | mapping, size⟩ := map
  · rfl
  · rcases initByArray_cases granted cells size false with
      ⟨-, hok, hmap⟩ | ⟨hnot, -⟩ | ⟨hnot, -⟩ | ⟨hnot, -⟩
    · exact Prod.ext hok hmap
    all_goals exact absurd (h cells rfl) hnot
  · rfl
  · rfl

theorem IntRankMap.Compact.copyRight (h : map.Compact) (hwf : map.Wf) :
    CopyRight checkParams map := by
  have hcompact : map.optimize.1.Compact := fun cells htype => absurd htype (h.optimize cells)
  rw [CopyRight, h.copy]
  refine ⟨rfl, optimize_wf hwf, fun srcRank hvalid => ?_, ?_⟩
  · exact eval_congr optimize_size (lookup_optimize hwf) hvalid
  · rw [hcompact.copy, optimize_optimize]

theorem strided_take {cells : List Rank} : Strided (cells.take n) n ↔ Strided cells n := by
  have hget (i : ℕ) (hi : i < n) : (cells.take n).getD i 0 = cells.getD i 0 := by
    simp [List.getD_eq_getElem?_getD, hi]
  refine forall₂_congr fun i hi => ?_
  rw [hget _ hi, hget _ (by omega), hget _ (by omega), hget _ (by omega)]

theorem IntRankMap.copy_array (granted : Bool) (cells : List Rank) (size : BitVec 32) :
    copy granted ⟨.array cells, size⟩ = ((initByArray granted cells size false).1,
      (initByArray granted cells size false).2.1) := rfl

theorem size_length {size : BitVec 32} :
    (size.toNat < 2 ^ 29 → (size * 4).toInt = 4 * size.toNat) ∧
      (2 ^ 29 ≤ size.toNat → 0 ≤ (size * 4).toInt →
        (size * 4).toInt.toNat / 4 < size.toNat) := by
  have h := length_toInt size.isLt
  rw [BitVec.ofNat_toNat, BitVec.setWidth_eq] at h
  exact ⟨h.1, fun hle hpos => (h.2 hle hpos).1⟩

/-- An array of which a copy is made keeps its first `size` cells. -/
theorem IntRankMap.copy_cells {cells : List Rank} {size : BitVec 32}
    (hnot : ¬ Strided cells size.toNat) (hsize : size.toNat < 2 ^ 29) :
    copy true ⟨.array cells, size⟩ = (.ok, ⟨.array (cells.take size.toNat), size⟩) := by
  have hlen := size_length.1 hsize
  rcases initByArray_cases true cells size false with
    ⟨h, -⟩ | ⟨-, htake, -⟩ | ⟨-, -, -, -, hok, hmap⟩ | ⟨-, -, hfail, -⟩
  · exact absurd h hnot
  · exact nomatch htake
  · have hdiv : (size * 4).toInt.toNat / 4 = size.toNat := by omega
    rw [hdiv] at hmap
    exact Prod.ext hok hmap
  · exact absurd ⟨rfl, by omega⟩ hfail

theorem copyRight_iff (hwf : map.Wf) : CopyRight checkParams map ↔
    ∀ cells, map.type = .array cells → ¬ Strided cells map.size.toNat →
      map.size.toNat < 2 ^ 29 := by
  by_cases hcompact : map.Compact
  · exact iff_of_true (hcompact.copyRight hwf) fun cells h hnot => absurd (hcompact cells h) hnot
  · simp only [IntRankMap.Compact, not_forall] at hcompact
    obtain ⟨cells, htype, hnot⟩ := hcompact
    obtain ⟨type, size⟩ := map
    obtain rfl : type = .array cells := htype
    have hcells : size.toNat ≤ cells.length := hwf cells rfl
    constructor
    · rintro ⟨hok, hwf', -⟩ cells' h -
      obtain rfl := RankMapKind.array.inj h
      by_contra hlong
      rcases IntRankMap.initByArray_cases true cells size false with
        ⟨hsame, -⟩ | ⟨-, htake, -⟩ | ⟨-, -, -, hlen, -, hmap⟩ | ⟨-, -, -, hfail⟩
      · exact hnot hsame
      · exact nomatch htake
      · have hshort := size_length.2 (Nat.le_of_not_lt hlong) hlen
        rw [IntRankMap.copy_array, hmap] at hwf'
        have hle : size.toNat ≤ _ := hwf' _ rfl
        rw [List.length_take] at hle
        exact absurd (hle.trans (min_le_left _ _)) (Nat.not_le_of_lt hshort)
      · exact nomatch hok.symm.trans hfail
    · intro hsize
      have hsize : size.toNat < 2 ^ 29 := hsize cells rfl hnot
      rw [CopyRight, IntRankMap.copy_cells hnot hsize]
      refine ⟨rfl, ?_, fun srcRank hvalid => ?_, ?_⟩
      · rintro cells' h
        obtain rfl := RankMapKind.array.inj h
        rw [List.length_take]
        exact le_min le_rfl hcells
      · refine IntRankMap.eval_congr rfl (fun hrange => ?_) hvalid
        rw [IntRankMap.lookup_array hrange hcells,
          @IntRankMap.lookup_array (cells.take size.toNat) _ _ hrange (by simpa using hcells)]
        simp [List.getD_eq_getElem?_getD, hrange.2]
      · rw [IntRankMap.copy_cells (mt strided_take.mp hnot) hsize, List.take_take, Nat.min_self]

end Init

/-! ### Normalisation keeps the mapping -/

/-- Which arrays are given a map that evaluates to them, which maps are copied, and that the
    optimisation keeps every map. -/
theorem rankMaps_normalised_iff (checkParams : Bool) :
    (∀ (ranks : RankArray) (takeOver : Bool), InitRight checkParams ranks takeOver ↔
      (checkParams = true → 2 ^ 31 ≤ ranks.cells.length → ∀ r ∈ ranks.cells, r = invalidRank) ∧
      (¬ Strided ranks.cells ranks.cells.length →
        ranks.cells.length ≤ 2 ^ 31 ∧ (takeOver = false → ranks.cells.length < 2 ^ 29))) ∧
    (∀ map : IntRankMap, map.Wf →
      (∀ srcRank, map.Valid checkParams srcRank →
        map.optimize.1.eval checkParams srcRank = map.eval checkParams srcRank) ∧
      map.optimize.1.optimize.1 = map.optimize.1) ∧
    (∀ map : IntRankMap, map.Wf → (CopyRight checkParams map ↔ ∀ cells, map.type = .array cells →
      ¬ Strided cells map.size.toNat → map.size.toNat < 2 ^ 29)) := by
  refine ⟨fun ranks takeOver => initRight_iff checkParams takeOver ranks, fun map hwf => ⟨?_, ?_⟩,
    fun map hwf => copyRight_iff hwf⟩
  · intro srcRank hvalid
    exact IntRankMap.eval_congr IntRankMap.optimize_size (IntRankMap.lookup_optimize hwf) hvalid
  · exact IntRankMap.optimize_optimize

/-- An array of three ranks in steps of minus two, and its map. -/
theorem rankMaps_normalised_descending :
    IntRankMap.optimize ⟨.array [9, 7, 5], 3⟩ = (⟨.stride 9 (-2), 3⟩, some [9, 7, 5]) ∧
    InitRight true ⟨[9, 7, 5], by decide, by decide⟩ false ∧
    CopyRight true ⟨.array [9, 7, 5], 3⟩ ∧
    IntRankMap.eval true ⟨.stride 9 (-2), 3⟩ 2 = IntRankMap.eval true ⟨.array [9, 7, 5], 3⟩ 2 := by
  obtain ⟨hinit, hoptimize, hcopy⟩ := rankMaps_normalised_iff true
  have hwf : IntRankMap.Wf ⟨.array [9, 7, 5], 3⟩ := by
    intro cells h
    cases h
    decide
  refine ⟨rfl, (hinit _ _).mpr ⟨fun _ h => absurd h (by decide), fun _ => by decide⟩,
    (hcopy _ hwf).mpr fun _ _ _ => by decide, (hoptimize _ hwf).1 2 (.inl rfl)⟩

/-- Zeros and a one. -/
def zerosAndOne (m : ℕ) (hm : m + 1 < 2 ^ 32) : RankArray where
  cells := List.replicate m 0 ++ [1]
  pos := by simp
  lt := by simpa using hm

theorem length_zerosAndOne {m : ℕ} (hm : m + 1 < 2 ^ 32) :
    (zerosAndOne m hm).cells.length = m + 1 := by simp [zerosAndOne]

theorem zerosAndOne_not_strided {m : ℕ} (h2 : 2 ≤ m) (hm : m + 1 < 2 ^ 32) :
    ¬ Strided (zerosAndOne m hm).cells (m + 1) := by
  intro h
  obtain ⟨j, rfl⟩ := Nat.exists_eq_add_of_le' h2
  have hlast := h j (by omega)
  have hget (i : ℕ) (hi : i < j + 2) : (zerosAndOne (j + 2) hm).cells.getD i 0 = 0 := by
    simp [zerosAndOne, List.getD_eq_getElem?_getD, List.getElem?_append, hi]
  have hone : (zerosAndOne (j + 2) hm).cells.getD (j + 2) 0 = 1 := by
    simp [zerosAndOne, List.getD_eq_getElem?_getD]
  rw [hone, hget _ (by omega), hget _ (by omega), hget _ (by omega)] at hlast
  exact absurd hlast (by decide)

/-- With `2 ^ 30` zeros, the copy of the array is made with four bytes, which hold one rank. -/
theorem zerosAndOne_not_right : ¬ InitRight true (zerosAndOne (2 ^ 30) (by decide)) false := by
  intro h
  have hiff := (initRight_iff true false _).mp h
  rw [length_zerosAndOne] at hiff
  have hshort := (hiff.2 (zerosAndOne_not_strided (by decide) (by decide))).2 rfl
  exact absurd hshort (by decide)

/-! ### The topology's maps -/

/-- Ranks of a group are evaluated as in the model of the topology, which has neither widths nor a
    check. -/
theorem eval_initByArray_eq (checkParams takeOver : Bool) (ranks : List ℕ)
    (hpos : 0 < ranks.length) (hlt : ranks.length < 2 ^ 29) (i : ℕ)
    (hi : i < ranks.length) :
    (IntRankMap.initByArray true (ranks.map (BitVec.ofNat 32)) (BitVec.ofNat 32 ranks.length)
      takeOver).2.1.eval checkParams (BitVec.ofNat 32 i) =
    ((rankMapInitByArray ranks).eval i).map (BitVec.ofNat 32) := by
  have h := (initRight_iff checkParams takeOver
    ⟨ranks.map (BitVec.ofNat 32), by simpa using hpos, by simp; omega⟩).mpr (by simp; omega)
  have heval := h.2 i (by simpa using hi)
  simp only [List.length_map, List.getElem_map] at heval
  rw [heval, eval_rankMapInitByArray, List.getElem?_eq_getElem hi]
  rfl

end Kucg.Core
