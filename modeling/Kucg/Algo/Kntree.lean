import Kucg.Lib.RankTree
import Mathlib.Tactic

/-! The k-nomial tree iterator of `ucg_kntree.c`.

    Ranks are numbered from the root on. Rank `v` belongs to sub-trees of 1, `d`, `d²`, .. ranks as
    long as `d` to the power divides `v`; its parent is the root of the next bigger one. The
    iterator visits the children of a rank from the biggest sub-tree to the smallest, or the other
    way round (`init_yields`), and these are the ranks that have it as their parent
    (`mem_kntreeChildren`). -/

namespace Kucg.Algo

open Kucg.Lib

/-- The fields of `ucg_algo_kntree_iter_t` that stay as they are set at first; `myrank` is counted
    from the root, and `UCG_INVALID_RANK` is `none`. -/
structure KntreeBase where
  size : ℕ
  degree : ℕ
  root : ℕ
  myrank : ℕ
  leftmost : Bool
  maxSubsize : ℕ
  parent : Option ℕ
  deriving DecidableEq, Repr

/-- `ucg_algo_kntree_iter_t`. -/
structure KntreeIter extends KntreeBase where
  subsize : ℕ
  childIdx : ℕ
  child : Option ℕ
  deriving DecidableEq, Repr

namespace KntreeIter

/-- `ucg_algo_kntree_iter_update_kntree_leftmost`: the body of either loop, and the rest of them.
    A degree of one, which is given to a tree of one rank, makes the outer loop endless. -/
def updateLeftmost (iter : KntreeIter) : KntreeIter :=
  if _h : 0 < iter.subsize / iter.degree ∧ 1 < iter.degree then
    if iter.childIdx < iter.degree then
      let child := iter.myrank + iter.subsize / iter.degree * iter.childIdx
      if child < iter.size then { iter with child := some ((child + iter.root) % iter.size) }
      else updateLeftmost { iter with childIdx := iter.childIdx + 1 }
    else updateLeftmost { iter with subsize := iter.subsize / iter.degree, childIdx := 1 }
  else { iter with child := none }
termination_by iter.subsize * iter.degree + (iter.degree - iter.childIdx)
decreasing_by
  · omega
  · have hle : iter.subsize / iter.degree * iter.degree ≤ iter.subsize := Nat.div_mul_le_self ..
    have hd : iter.degree ≤ iter.subsize := (Nat.div_pos_iff.mp _h.1).2
    have hmul : iter.subsize * 2 ≤ iter.subsize * iter.degree := Nat.mul_le_mul_left _ _h.2
    omega

/-- `ucg_algo_kntree_iter_update_kntree_rightmost`. -/
def updateRightmost (iter : KntreeIter) : KntreeIter :=
  if _h : iter.subsize < iter.maxSubsize ∧ 1 < iter.degree ∧ 0 < iter.subsize then
    if iter.childIdx < iter.degree then
      let child := iter.myrank + iter.subsize * (iter.degree - iter.childIdx)
      if child < iter.size then { iter with child := some ((child + iter.root) % iter.size) }
      else updateRightmost { iter with childIdx := iter.childIdx + 1 }
    else updateRightmost { iter with subsize := iter.subsize * iter.degree, childIdx := 1 }
  else { iter with child := none }
termination_by (iter.maxSubsize - iter.subsize) * iter.degree + (iter.degree - iter.childIdx)
decreasing_by
  · omega
  · have hmul : iter.subsize * 2 ≤ iter.subsize * iter.degree := Nat.mul_le_mul_left _ _h.2.1
    have hlt : iter.maxSubsize - iter.subsize * iter.degree + 1 ≤
      iter.maxSubsize - iter.subsize := by
      omega
    have := Nat.mul_le_mul_right iter.degree hlt
    rw [Nat.add_mul] at this
    omega

/-- `ucg_algo_kntree_iter_update`. -/
def update (iter : KntreeIter) : KntreeIter :=
  if iter.leftmost then iter.updateLeftmost else iter.updateRightmost

/-- The loop of `ucg_algo_kntree_iter_init` that looks for the parent, from `subsize` on: the size
    of the biggest sub-tree whose root is `v`, and the parent as a rank of the group. -/
def findParent (size degree root v subsize : ℕ) : ℕ × Option ℕ :=
  if _h : subsize < size ∧ 1 < degree ∧ 0 < subsize then
    let next := subsize * degree
    if v % next ≠ 0 then (subsize, some ((v / next * next + root) % size))
    else findParent size degree root v next
  else (subsize, none)
termination_by size - subsize
decreasing_by
  have hmul : subsize * 2 ≤ subsize * degree := Nat.mul_le_mul_left _ _h.2.1
  omega

/-- `ucg_algo_kntree_iter_reset`. -/
def reset (iter : KntreeIter) : KntreeIter :=
  update { iter with
    subsize := if iter.leftmost then iter.maxSubsize else 1, child := none, childIdx := 1 }

/-- The degree that `ucg_algo_kntree_iter_init` uses. -/
def initDegree (size degree : ℕ) : ℕ :=
  if degree ≤ 1 then 2 else if degree > size then size else degree

theorem one_lt_initDegree {size degree : ℕ} (h : 2 ≤ size) :
    1 < initDegree size degree := by
  rw [initDegree]
  split_ifs <;> omega

/-- `ucg_algo_kntree_iter_init`. -/
def init (size degree root myrank : ℕ) (leftmost : Bool) : KntreeIter :=
  let degree := initDegree size degree
  let vMyrank := (myrank + size - root) % size
  let (maxSubsize, parent) := findParent size degree root vMyrank 1
  update {
    size := size, degree := degree, root := root, myrank := vMyrank, leftmost := leftmost
    maxSubsize := maxSubsize, parent := parent
    subsize := if leftmost then maxSubsize else 1, childIdx := 1, child := none }

/-- `ucg_algo_kntree_iter_child_inc`. -/
def childInc (iter : KntreeIter) : KntreeIter := update { iter with childIdx := iter.childIdx + 1 }

end KntreeIter

/-! ### The children that an iterator visits -/

namespace KntreeIter

/-- The values of the iterator from now on, up to its end. -/
def Yields : KntreeIter → List ℕ → Prop
  | iter, [] => iter.child = none
  | iter, c :: cs => iter.child = some c ∧ iter.childInc.Yields cs

end KntreeIter

section Children

variable (size d v : ℕ)

/-- The children of `v` whose sub-trees have `d ^ e` ranks, from the `idx`-th on. -/
def kntreeLevel (e idx : ℕ) : List ℕ :=
  ((List.range' idx (d - idx)).map fun j => v + d ^ e * j).filter (· < size)

/-- The children of `v` whose sub-trees have less than `d ^ e` ranks, the biggest sub-trees first;
    of those with `d ^ (e - 1)` ranks, from the `idx`-th on. -/
def kntreeRest : ℕ → ℕ → List ℕ
  | 0, _ => []
  | e + 1, idx => kntreeLevel size d v e idx ++ kntreeRest e 1

/-- The first `m` children of `v` whose sub-trees have `d ^ e` ranks. -/
def kntreeUpto (e m : ℕ) : List ℕ :=
  ((List.range' 1 m).map fun j => v + d ^ e * j).filter (· < size)

/-- The children of `v` on `l` levels from `e` on, on the first one only `m` of them: the smallest
    sub-trees first, and on each level the last child. -/
def kntreeAbove : ℕ → ℕ → ℕ → List ℕ
  | 0, _, _ => []
  | l + 1, e, m => (kntreeUpto size d v e m).reverse ++ kntreeAbove l (e + 1) (d - 1)

variable {size d v}

theorem kntreeUpto_zero {e : ℕ} : kntreeUpto size d v e 0 = [] := rfl

theorem kntreeUpto_succ {e m : ℕ} : kntreeUpto size d v e (m + 1) =
    kntreeUpto size d v e m ++ if v + d ^ e * (m + 1) < size then [v + d ^ e * (m + 1)] else
      [] := by
  rw [kntreeUpto, List.range'_concat, List.map_append, List.filter_append, kntreeUpto]
  congr 1
  rw [List.map_singleton, Nat.one_mul, Nat.add_comm 1 m]
  split_ifs with h <;> simp [h]

theorem kntreeLevel_succ {e idx : ℕ} (h : idx < d) :
    kntreeLevel size d v e idx = if v + d ^ e * idx < size
      then (v + d ^ e * idx) :: kntreeLevel size d v e (idx + 1)
      else kntreeLevel size d v e (idx + 1) := by
  obtain ⟨k, hk⟩ : ∃ k, d - idx = k + 1 := ⟨d - idx - 1, by omega⟩
  rw [kntreeLevel, hk, List.range'_succ, List.map_cons, List.filter_cons, kntreeLevel,
    show d - (idx + 1) = k by omega]
  simp only [decide_eq_true_eq]

theorem kntreeLevel_end {e idx : ℕ} (h : d ≤ idx) : kntreeLevel size d v e idx = [] := by
  rw [kntreeLevel, Nat.sub_eq_zero_of_le h]
  rfl

end Children

/-- The rank of the group that `c` stands for. -/
abbrev KntreeBase.real (b : KntreeBase) (c : ℕ) : ℕ := (c + b.root) % b.size

namespace KntreeIter

/-- In the loop for the leftmost sub-trees, anywhere: the rest of the level, and those below. -/
theorem updateLeftmost_yields {b : KntreeBase} (hleft : b.leftmost = true) (hd : 1 < b.degree) :
    ∀ (e k : ℕ) {iter : KntreeIter}, iter.toKntreeBase = b → iter.subsize = b.degree ^ e →
      b.degree - iter.childIdx = k → iter.updateLeftmost.Yields
        ((kntreeRest b.size b.degree b.myrank e iter.childIdx).map b.real) := by
  intro e
  induction e with
  | zero =>
    rintro k iter rfl hsub -
    have hstride : iter.subsize / iter.degree = 0 := by
      rw [hsub, pow_zero]
      exact Nat.div_eq_of_lt hd
    rw [updateLeftmost, dif_neg (by simp [hstride])]
    rfl
  | succ e ihe =>
    intro k
    have hpow : 0 < b.degree ^ e := by positivity
    induction k with
    | zero =>
      -- the next level
      rintro iter rfl hsub hk
      have hstride : iter.subsize / iter.degree = iter.degree ^ e := by
        rw [hsub, pow_succ, Nat.mul_div_cancel _ (by omega)]
      rw [updateLeftmost, hstride, dif_pos ⟨hpow, hd⟩, if_neg (by omega), kntreeRest,
        kntreeLevel_end (by omega), List.nil_append]
      exact ihe _ rfl rfl rfl
    | succ k ihk =>
      rintro iter rfl hsub hk
      have hstride : iter.subsize / iter.degree = iter.degree ^ e := by
        rw [hsub, pow_succ, Nat.mul_div_cancel _ (by omega)]
      rw [updateLeftmost, hstride, dif_pos ⟨hpow, hd⟩, if_pos (by omega), kntreeRest,
        kntreeLevel_succ (by omega)]
      dsimp only
      split_ifs with hlt
      · refine ⟨rfl, ?_⟩
        rw [childInc, update]
        dsimp only
        rw [if_pos hleft]
        exact ihk rfl hsub (by dsimp only; omega)
      · exact ihk rfl hsub (by dsimp only; omega)

/-- In the loop for the rightmost sub-trees, anywhere: the children of the level that are left, and
    those of the levels above. -/
theorem updateRightmost_yields {b : KntreeBase} (hright : b.leftmost = false) (hd : 1 < b.degree)
    {E : ℕ} (hmax : b.maxSubsize = b.degree ^ E) :
    ∀ (l k : ℕ) {e : ℕ} {iter : KntreeIter}, iter.toKntreeBase = b → e + l = E →
      iter.subsize = b.degree ^ e → b.degree - iter.childIdx = k → iter.updateRightmost.Yields
        ((kntreeAbove b.size b.degree b.myrank l e (b.degree - iter.childIdx)).map b.real) := by
  intro l
  induction l with
  | zero =>
    rintro k e iter rfl hE hsub -
    have hend : ¬iter.subsize < iter.maxSubsize := by
      rw [hsub, hmax, ← hE, Nat.add_zero]
      exact lt_irrefl _
    rw [updateRightmost, dif_neg fun h => hend h.1]
    rfl
  | succ l ihl =>
    intro k
    induction k with
    | zero =>
      -- the next level
      rintro e iter rfl hE hsub hk
      have hgo : iter.subsize < iter.maxSubsize ∧ 1 < iter.degree ∧ 0 < iter.subsize := by
        rw [hsub, hmax]
        exact ⟨Nat.pow_lt_pow_right hd (by omega), hd, by positivity⟩
      rw [updateRightmost, dif_pos hgo, if_neg (by omega), hk, kntreeAbove, kntreeUpto_zero,
        List.reverse_nil, List.nil_append]
      exact ihl _ rfl (by omega) (by rw [hsub, pow_succ]) rfl
    | succ k ihk =>
      rintro e iter rfl hE hsub hk
      have hgo : iter.subsize < iter.maxSubsize ∧ 1 < iter.degree ∧ 0 < iter.subsize := by
        rw [hsub, hmax]
        exact ⟨Nat.pow_lt_pow_right hd (by omega), hd, by positivity⟩
      have hidx : iter.degree - (iter.childIdx + 1) = k := by omega
      rw [updateRightmost, dif_pos hgo, if_pos (by omega), hk, kntreeAbove, kntreeUpto_succ, hsub]
      have hnext (child : Option ℕ) : ({ iter with
          subsize := iter.degree ^ e, childIdx := iter.childIdx + 1,
          child := child } : KntreeIter).updateRightmost.Yields
            (((kntreeUpto iter.size iter.degree iter.myrank e k).reverse ++
              kntreeAbove iter.size iter.degree iter.myrank l (e + 1) (iter.degree - 1)).map
                iter.real) := by
        have h := ihk (e := e) (rfl : ({ iter with
          subsize := iter.degree ^ e, childIdx := iter.childIdx + 1,
          child := child } : KntreeIter).toKntreeBase = iter.toKntreeBase) hE rfl hidx
        dsimp only at h
        rwa [hidx, kntreeAbove] at h
      dsimp only
      split_ifs with hlt
      · rw [List.reverse_append, List.reverse_singleton, List.singleton_append]
        refine ⟨rfl, ?_⟩
        rw [childInc, update]
        dsimp only
        rw [if_neg (by simp [hright])]
        exact hnext _
      · rw [List.append_nil]
        exact hnext _

end KntreeIter

/-! ### The tree -/

/-- `c` is a child of `p` in a tree of degree `d`. -/
def KntreeChild (d p c : ℕ) : Prop := ∃ e j, 0 < j ∧ j < d ∧ d ^ (e + 1) ∣ p ∧ c = p + d ^ e * j

/-- The levels on which `v` has children. -/
noncomputable def kntreeHeight (size d v : ℕ) : ℕ :=
  if v = 0 then Nat.clog d size else multiplicity d v

/-- The children of `v`, the biggest sub-trees first. -/
noncomputable def kntreeChildren (size d v : ℕ) : List ℕ :=
  kntreeRest size d v (kntreeHeight size d v) 1

/-- The parent of `v`. -/
noncomputable def kntreeParent (d v : ℕ) : ℕ :=
  v / d ^ (multiplicity d v + 1) * d ^ (multiplicity d v + 1)

section Tree

variable {size d v : ℕ}

/-- From the smallest sub-trees on the children come in the opposite order. -/
theorem kntreeAbove_eq : ∀ (l e : ℕ), (kntreeRest size d v e 1).reverse ++
    kntreeAbove size d v l e (d - 1) = (kntreeRest size d v (e + l) 1).reverse
  | 0, e => by rw [kntreeAbove, List.append_nil, Nat.add_zero]
  | l + 1, e => by
    rw [kntreeAbove, ← List.append_assoc, ← List.reverse_append]
    exact (kntreeAbove_eq l (e + 1)).trans (by rw [Nat.add_right_comm, Nat.add_assoc])

theorem mem_kntreeRest {c : ℕ} : ∀ {E : ℕ}, c ∈ kntreeRest size d v E 1 ↔
    c < size ∧ ∃ e < E, ∃ j, 0 < j ∧ j < d ∧ c = v + d ^ e * j
  | 0 => by simp [kntreeRest]
  | E + 1 => by
    rw [kntreeRest, List.mem_append, mem_kntreeRest, kntreeLevel, List.mem_filter, List.mem_map]
    simp only [List.mem_range'_1, decide_eq_true_eq]
    constructor
    · rintro (⟨⟨j, hj, rfl⟩, hlt⟩ | ⟨hlt, e, he, h⟩)
      · exact ⟨hlt, E, E.lt_succ_self, j, by omega, by omega, rfl⟩
      · exact ⟨hlt, e, by omega, h⟩
    · rintro ⟨hlt, e, he, j, hj, hjd, rfl⟩
      rcases (Nat.lt_succ_iff.mp he).lt_or_eq with he | rfl
      · exact Or.inr ⟨hlt, e, he, j, hj, hjd, rfl⟩
      · exact Or.inl ⟨⟨j, by omega, rfl⟩, hlt⟩

theorem kntreeRest_lt (hd : 0 < d) {c E : ℕ} (h : c ∈ kntreeRest size d v E 1) : c < v + d ^ E := by
  obtain ⟨-, e, he, j, -, hj, rfl⟩ := mem_kntreeRest.mp h
  have hmul : d ^ e * j < d ^ (e + 1) := by
    rw [pow_succ]
    exact Nat.mul_lt_mul_of_pos_left hj (by positivity)
  have hpow : d ^ (e + 1) ≤ d ^ E := Nat.pow_le_pow_right hd he
  omega

theorem nodup_kntreeRest (hd : 0 < d) : ∀ {E : ℕ}, (kntreeRest size d v E 1).Nodup
  | 0 => List.nodup_nil
  | E + 1 => by
    have hpos : 0 < d ^ E := by positivity
    rw [kntreeRest, List.nodup_append]
    refine ⟨?_, nodup_kntreeRest hd, ?_⟩
    · refine List.Nodup.filter _ (List.Nodup.map ?_ List.nodup_range')
      intro j j' h
      exact Nat.eq_of_mul_eq_mul_left hpos (Nat.add_left_cancel h)
    · rintro a ha b hb rfl
      have hlt := kntreeRest_lt hd hb
      obtain ⟨j, hj, rfl⟩ := List.mem_map.mp (List.mem_filter.mp ha).1
      rw [List.mem_range'_1] at hj
      have : d ^ E * 1 ≤ d ^ E * j := Nat.mul_le_mul_left _ hj.1
      omega

theorem multiplicity_add_mul {e j : ℕ} (hj : 0 < j) (hjd : j < d) (hdvd : d ^ (e + 1) ∣ v) :
    multiplicity d (v + d ^ e * j) = e := by
  have hpos : 0 < d ^ e := Nat.pow_pos (by omega)
  refine multiplicity_eq_of_dvd_of_not_dvd ?_ ?_
  · exact Dvd.dvd.add ((pow_dvd_pow d e.le_succ).trans hdvd) (Dvd.intro _ rfl)
  · rw [← Nat.dvd_add_iff_right hdvd, pow_succ]
    exact fun h => Nat.not_dvd_of_pos_of_lt hj hjd (Nat.dvd_of_mul_dvd_mul_left hpos h)

/-- The exponent of `d` in a child. -/
theorem KntreeChild.multiplicity_eq {p c : ℕ} (h : KntreeChild d p c) :
    ∃ j, 0 < j ∧ j < d ∧ d ^ (multiplicity d c + 1) ∣ p ∧ c = p + d ^ multiplicity d c * j := by
  obtain ⟨e, j, hj, hjd, hdvd, rfl⟩ := h
  rw [multiplicity_add_mul hj hjd hdvd]
  exact ⟨j, hj, hjd, hdvd, rfl⟩

/-- A rank is the child of its parent, and of no other rank. -/
theorem kntreeChild_iff {c : ℕ} (hd : 1 < d) (hc : 0 < c) {p : ℕ} :
    KntreeChild d p c ↔ p = kntreeParent d c := by
  constructor
  · intro h
    obtain ⟨j, hj, hjd, ⟨q, hq⟩, hc⟩ := h.multiplicity_eq
    rw [kntreeParent]
    generalize multiplicity d c = e at *
    have hlt : d ^ e * j < d ^ (e + 1) := by
      rw [pow_succ]
      exact Nat.mul_lt_mul_of_pos_left hjd (by positivity)
    have hdiv : c / d ^ (e + 1) = q := by
      rw [hc, hq, Nat.mul_add_div (by positivity), Nat.div_eq_of_lt hlt, Nat.add_zero]
    rw [hdiv, hq, Nat.mul_comm]
  · rintro rfl
    have hfin : FiniteMultiplicity d c := Nat.finiteMultiplicity_iff.mpr ⟨by omega, hc⟩
    obtain ⟨q, hq, hnd⟩ := hfin.exists_eq_pow_mul_and_not_dvd
    rw [kntreeParent]
    generalize multiplicity d c = e at *
    have hmod : c % d ^ (e + 1) = d ^ e * (q % d) := by
      rw [hq, pow_succ, Nat.mul_mod_mul_left]
    refine ⟨e, q % d, ?_, Nat.mod_lt _ (by omega), Dvd.intro_left _ rfl, ?_⟩
    · exact Nat.pos_of_ne_zero fun h => hnd (Nat.dvd_of_mod_eq_zero h)
    · rw [← hmod, Nat.div_add_mod']

/-- Nothing is a child of the root of all but the root's children. -/
theorem kntreeParent_lt (hd : 1 < d) {c : ℕ} (hc : 0 < c) : kntreeParent d c < c := by
  obtain ⟨e, j, hj, -, -, heq⟩ := (kntreeChild_iff hd hc).mpr rfl
  have : 0 < d ^ e * j := by positivity
  omega

theorem pow_multiplicity_dvd (hd : 1 < d) (hv : 0 < v) {e : ℕ} :
    d ^ e ∣ v ↔ e ≤ multiplicity d v :=
  (Nat.finiteMultiplicity_iff.mpr ⟨by omega, hv⟩).pow_dvd_iff_le_multiplicity

theorem pow_dvd_of_le_kntreeHeight (hd : 1 < d) {e : ℕ} (h : e ≤ kntreeHeight size d v) :
    d ^ e ∣ v := by
  rw [kntreeHeight] at h
  split_ifs at h with hv
  · exact hv ▸ Nat.dvd_zero _
  · exact (pow_multiplicity_dvd hd (Nat.pos_of_ne_zero hv)).mpr h

/-- The children of a rank are the ranks that have it as their parent. -/
theorem mem_kntreeChildren (hd : 1 < d) {c : ℕ} :
    c ∈ kntreeChildren size d v ↔ 0 < c ∧ c < size ∧ v = kntreeParent d c := by
  rw [kntreeChildren, mem_kntreeRest, kntreeHeight]
  constructor
  · rintro ⟨hlt, e, he, j, hj, hjd, rfl⟩
    have hpos : 0 < d ^ e * j := by positivity
    refine ⟨by omega, hlt, (kntreeChild_iff hd (by omega)).mp ⟨e, j, hj, hjd, ?_, rfl⟩⟩
    split_ifs at he with hv₀
    · simp [hv₀]
    · exact (pow_multiplicity_dvd hd (Nat.pos_of_ne_zero hv₀)).mpr he
  · rintro ⟨hc, hlt, hparent⟩
    obtain ⟨e, j, hj, hjd, hdvd, rfl⟩ := (kntreeChild_iff hd hc).mpr hparent
    refine ⟨hlt, e, ?_, j, hj, hjd, rfl⟩
    split_ifs with hv₀
    · refine (Nat.lt_clog_iff_pow_lt hd).mpr ?_
      have : d ^ e * 1 ≤ d ^ e * j := Nat.mul_le_mul_left _ hj
      omega
    · exact (pow_multiplicity_dvd hd (Nat.pos_of_ne_zero hv₀)).mp hdvd

theorem nodup_kntreeChildren (hd : 0 < d) : (kntreeChildren size d v).Nodup := nodup_kntreeRest hd

end Tree

/-! ### What the iterator is after its initialisation -/

namespace KntreeIter

section Base

theorem updateLeftmost_base (iter : KntreeIter) :
    iter.updateLeftmost.toKntreeBase = iter.toKntreeBase := by
  induction iter using updateLeftmost.induct with
  | case1 iter h hidx child hlt => rw [updateLeftmost, dif_pos h, if_pos hidx, if_pos hlt]
  | case2 iter h hidx child hlt ih => rw [updateLeftmost, dif_pos h, if_pos hidx, if_neg hlt, ih]
  | case3 iter h hidx ih => rw [updateLeftmost, dif_pos h, if_neg hidx, ih]
  | case4 iter h => rw [updateLeftmost, dif_neg h]

theorem updateRightmost_base (iter : KntreeIter) :
    iter.updateRightmost.toKntreeBase = iter.toKntreeBase := by
  induction iter using updateRightmost.induct with
  | case1 iter h hidx child hlt => rw [updateRightmost, dif_pos h, if_pos hidx, if_pos hlt]
  | case2 iter h hidx child hlt ih => rw [updateRightmost, dif_pos h, if_pos hidx, if_neg hlt, ih]
  | case3 iter h hidx ih => rw [updateRightmost, dif_pos h, if_neg hidx, ih]
  | case4 iter h => rw [updateRightmost, dif_neg h]

@[simp] theorem update_base (iter : KntreeIter) : iter.update.toKntreeBase = iter.toKntreeBase := by
  rw [update]
  split_ifs
  · exact updateLeftmost_base iter
  · exact updateRightmost_base iter

@[simp] theorem childInc_base (iter : KntreeIter) :
    iter.childInc.toKntreeBase = iter.toKntreeBase := update_base _

@[simp] theorem reset_base (iter : KntreeIter) : iter.reset.toKntreeBase = iter.toKntreeBase :=
  update_base _

end Base

theorem findParent_zero {size d root : ℕ} (hd : 1 < d) : ∀ {k e : ℕ}, Nat.clog d size = e + k →
    findParent size d root 0 (d ^ e) = (d ^ Nat.clog d size, none)
  | 0, e, h => by
    have hle : size ≤ d ^ e := by
      rw [Nat.add_zero] at h
      exact h ▸ Nat.le_pow_clog hd size
    rw [findParent, dif_neg (by omega), h, Nat.add_zero]
  | k + 1, e, h => by
    have hlt : d ^ e < size := (Nat.lt_clog_iff_pow_lt hd).mp (by omega)
    rw [findParent, dif_pos ⟨hlt, hd, by positivity⟩]
    dsimp only
    rw [if_neg (by simp), ← pow_succ]
    exact findParent_zero hd (k := k) (by omega)

theorem findParent_pos {size d root v : ℕ} (hd : 1 < d) (hv : 0 < v) (hlt : v < size) :
    ∀ {k e : ℕ}, multiplicity d v = e + k → findParent size d root v (d ^ e) =
      (d ^ multiplicity d v, some ((kntreeParent d v + root) % size))
  | k, e, h => by
    have hle : d ^ e ≤ v := Nat.le_of_dvd hv ((pow_multiplicity_dvd hd hv).mpr (by omega))
    rw [findParent, dif_pos ⟨by omega, hd, by positivity⟩]
    dsimp only
    rw [← pow_succ]
    cases k with
    | zero =>
      have hnd : ¬d ^ (e + 1) ∣ v := fun hdvd => by
        have := (pow_multiplicity_dvd hd hv).mp hdvd
        omega
      rw [if_pos fun h => hnd (Nat.dvd_of_mod_eq_zero h), kntreeParent, h]
      rfl
    | succ k =>
      have hdvd : d ^ (e + 1) ∣ v := (pow_multiplicity_dvd hd hv).mpr (by omega)
      rw [if_neg (not_not.mpr (Nat.mod_eq_zero_of_dvd hdvd))]
      exact findParent_pos hd hv hlt (k := k) (by omega)

/-- The loop that looks for the parent finds the size of the sub-tree. -/
theorem findParent_fst {size d root v : ℕ} (hd : 1 < d) (hlt : v < size) :
    (findParent size d root v 1).1 = d ^ kntreeHeight size d v := by
  rw [← pow_zero d, kntreeHeight]
  split_ifs with hv
  · rw [hv, findParent_zero hd (Nat.zero_add _).symm]
  · rw [findParent_pos hd (Nat.pos_of_ne_zero hv) hlt (Nat.zero_add _).symm]

/-- What does not change in the iterator of rank `v`, counted from the root. -/
noncomputable def baseOf (size d root v : ℕ) (leftmost : Bool) : KntreeBase where
  size := size
  degree := d
  root := root
  myrank := v
  leftmost := leftmost
  maxSubsize := d ^ kntreeHeight size d v
  parent := if v = 0 then none else some ((kntreeParent d v + root) % size)

/-- The children of `v` in the order of the iterator. -/
noncomputable def childrenOf (size d v : ℕ) (leftmost : Bool) : List ℕ :=
  if leftmost then kntreeChildren size d v else (kntreeChildren size d v).reverse

variable {size degree root myrank : ℕ} {leftmost : Bool}

variable (root myrank leftmost) in
theorem init_base (hd : 1 < initDegree size degree) (hsize : 0 < size) :
    (init size degree root myrank leftmost).toKntreeBase =
      baseOf size (initDegree size degree) root ((myrank + size - root) % size) leftmost := by
  rw [init]
  dsimp only
  generalize hv : (myrank + size - root) % size = v
  have hlt : v < size := hv ▸ Nat.mod_lt _ hsize
  rw [update_base]
  rcases Nat.eq_zero_or_pos v with rfl | hpos
  · rw [← pow_zero (initDegree size degree), findParent_zero hd (Nat.zero_add _).symm]
    rfl
  · rw [← pow_zero (initDegree size degree), findParent_pos hd hpos hlt (Nat.zero_add _).symm]
    simp only [baseOf, kntreeHeight, if_neg hpos.ne']

/-- From the start an iterator visits all children of its rank. -/
theorem yields_of_base {d v : ℕ} (hd : 1 < d) {iter : KntreeIter}
    (hbase : iter.toKntreeBase = baseOf size d root v leftmost)
    (hsub : iter.subsize = if leftmost then iter.maxSubsize else 1) (hidx : iter.childIdx = 1) :
    iter.update.Yields ((childrenOf size d v leftmost).map iter.real) := by
  have hmax : iter.maxSubsize = d ^ kntreeHeight size d v := congrArg KntreeBase.maxSubsize hbase
  have hreal : iter.real = (baseOf size d root v leftmost).real := by rw [hbase]
  have hleft : iter.leftmost = leftmost := congrArg KntreeBase.leftmost hbase
  rw [update, childrenOf, hleft, hreal]
  cases leftmost with
  | true =>
    rw [if_pos rfl] at hsub ⊢
    have := updateLeftmost_yields (b := baseOf size d root v true) rfl hd _ _ hbase
      (hsub.trans hmax) rfl
    rwa [hidx] at this
  | false =>
    rw [if_neg Bool.false_ne_true] at hsub ⊢
    have := updateRightmost_yields (b := baseOf size d root v false) rfl hd rfl
      (kntreeHeight size d v) _ hbase (Nat.zero_add _) (hsub.trans (pow_zero _).symm) rfl
    rw [hidx] at this
    rwa [if_neg Bool.false_ne_true, kntreeChildren, ← Nat.zero_add (kntreeHeight size d v),
      ← kntreeAbove_eq, kntreeRest, List.reverse_nil, List.nil_append]

variable (root myrank leftmost) in
theorem init_yields (hd : 1 < initDegree size degree) (hsize : 0 < size) :
    (init size degree root myrank leftmost).Yields
      ((childrenOf size (initDegree size degree) ((myrank + size - root) % size) leftmost).map
        fun c => (c + root) % size) := by
  have hbase := init_base root myrank leftmost hd hsize
  rw [init] at hbase ⊢
  dsimp only at hbase ⊢
  rw [update_base] at hbase
  exact yields_of_base hd hbase rfl rfl

theorem reset_yields {d v : ℕ} (hd : 1 < d) {iter : KntreeIter}
    (hbase : iter.toKntreeBase = baseOf size d root v leftmost) : iter.reset.Yields
      ((childrenOf size d v leftmost).map fun c => (c + root) % size) := by
  have hleft : iter.leftmost = leftmost := congrArg KntreeBase.leftmost hbase
  let first : KntreeIter := { iter with
    subsize := if iter.leftmost then iter.maxSubsize else 1, child := none, childIdx := 1 }
  have hsub : first.subsize = if leftmost then iter.maxSubsize else 1 := by rw [← hleft]
  have hyields : first.update.Yields _ := yields_of_base hd hbase hsub rfl
  have hreal : iter.real = (baseOf size d root v leftmost).real := by rw [hbase]
  change iter.reset.Yields (List.map iter.real _) at hyields
  rwa [hreal] at hyields

end KntreeIter

/-! ### Ranks and their numbers -/

section Numbers

variable {size root v myrank : ℕ}

/-- The number of the rank that `v` stands for. -/
theorem vMyrank_real (hroot : root < size) (hv : v < size) :
    ((v + root) % size + size - root) % size = v := by
  rcases Nat.lt_or_ge (v + root) size with hlt | hle
  · rw [Nat.mod_eq_of_lt hlt, show v + root + size - root = v + size by omega, Nat.add_mod_right,
      Nat.mod_eq_of_lt hv]
  · rw [Nat.mod_eq_sub_mod hle, Nat.mod_eq_of_lt (by omega : v + root - size < size),
      show v + root - size + size - root = v by omega, Nat.mod_eq_of_lt hv]

/-- The rank that the number of `myrank` stands for. -/
theorem real_vMyrank (hroot : root < size) (hrank : myrank < size) :
    ((myrank + size - root) % size + root) % size = myrank := by
  rw [Nat.mod_add_mod, show myrank + size - root + root = myrank + size by omega,
    Nat.add_mod_right, Nat.mod_eq_of_lt hrank]

end Numbers

/-! ### Loops over the children -/

namespace KntreeIter

/-- `ucg_algo_kntree_iter_parent_value`; `UCG_INVALID_RANK` is no rank of the tree. -/
def parentValue (iter : KntreeIter) : ℕ := iter.parent.getD iter.size

/-- The values that a loop over an iterator sees, if there are at most `fuel`. -/
def childValues : ℕ → KntreeIter → List ℕ
  | 0, _ => []
  | fuel + 1, iter =>
    match iter.child with
    | none => []
    | some c => c :: childValues fuel iter.childInc

/-- `ucg_algo_kntree_get_subtree_size`, for trees of at most `fuel` levels below `rank`. -/
def getSubtreeSize (size degree root : ℕ) : ℕ → ℕ → ℕ
  | 0, _ => 1
  | fuel + 1, rank => 1 + ((childValues size (init size degree root rank true)).map
      (getSubtreeSize size degree root fuel)).sum

theorem Yields.unique : ∀ {cs cs' : List ℕ} {iter : KntreeIter}, iter.Yields cs →
    iter.Yields cs' → cs = cs'
  | [], [], _, _, _ => rfl
  | [], _ :: _, _, h, h' => absurd (h.symm.trans h'.1) (by simp)
  | _ :: _, [], _, h, h' => absurd (h.1.symm.trans h') (by simp)
  | c :: cs, c' :: cs', _, h, h' => by
    obtain rfl := Option.some.inj (h.1.symm.trans h'.1)
    rw [h.2.unique h'.2]

theorem Yields.childValues_eq : ∀ {fuel : ℕ} {cs : List ℕ} {iter : KntreeIter},
    iter.Yields cs → cs.length ≤ fuel → childValues fuel iter = cs
  | 0, cs, _, _, hlen => (List.eq_nil_of_length_eq_zero (Nat.le_zero.mp hlen)).symm
  | fuel + 1, [], iter, h, _ => by
    rw [Yields] at h
    rw [childValues, h]
  | fuel + 1, c :: cs, iter, h, hlen => by
    rw [childValues, h.1]
    dsimp only
    rw [h.2.childValues_eq (Nat.le_of_succ_le_succ hlen)]

variable {size degree root myrank : ℕ} {leftmost : Bool}

variable (size leftmost) in
/-- There are fewer children than ranks. -/
theorem length_childrenOf_le {d : ℕ} (v : ℕ) (hd : 0 < d) :
    (childrenOf size d v leftmost).length ≤ size := by
  have hnodup : (kntreeChildren size d v).Nodup := nodup_kntreeChildren hd
  have hlen : (kntreeChildren size d v).length ≤ size := by
    have hsub : kntreeChildren size d v ⊆ List.range size := fun c hc =>
      List.mem_range.mpr (mem_kntreeRest.mp hc).1
    exact (hnodup.subperm hsub).length_le.trans_eq (List.length_range ..)
  rw [childrenOf]
  split_ifs
  · exact hlen
  · rwa [List.length_reverse]

/-- The ranks, numbered from the root on, are in a tree. -/
theorem rankTree_kntree {d : ℕ} (hd : 1 < d) :
    RankTree size (kntreeParent d) fun v => childrenOf size d v leftmost where
  parent_lt v hpos _ := kntreeParent_lt hd hpos
  mem v c := by
    rw [childrenOf, ← mem_kntreeChildren hd]
    split_ifs
    · exact Iff.rfl
    · exact List.mem_reverse
  nodup v := by
    have hnodup : (kntreeChildren size d v).Nodup := nodup_kntreeChildren (by omega)
    rw [childrenOf]
    split_ifs
    · exact hnodup
    · exact List.nodup_reverse.mpr hnodup

/-- A loop over an iterator sees all children of its rank. -/
theorem childValues_init (hd : 1 < initDegree size degree) (hsize : 0 < size) :
    childValues size (init size degree root myrank leftmost) =
      (childrenOf size (initDegree size degree) ((myrank + size - root) % size) leftmost).map
        fun c => (c + root) % size := by
  refine (init_yields _ _ _ hd hsize).childValues_eq ?_
  rw [List.length_map]
  exact length_childrenOf_le _ _ _ (by omega)

/-- So does a loop after a reset. -/
theorem childValues_reset (hd : 1 < initDegree size degree) (hsize : 0 < size) :
    childValues size (init size degree root myrank leftmost).reset =
      (childrenOf size (initDegree size degree) ((myrank + size - root) % size) leftmost).map
        fun c => (c + root) % size := by
  refine (reset_yields hd (init_base root myrank leftmost hd hsize)).childValues_eq ?_
  rw [List.length_map]
  exact length_childrenOf_le _ _ _ (by omega)

/-- In a tree of two ranks or more the root has a child. -/
theorem mem_childValues_root (hsize : 2 ≤ size) :
    (1 + root) % size ∈ childValues size (init size degree root root leftmost) ∧
      (1 + root) % size ∈ childValues size (init size degree root root leftmost).reset := by
  have hd : 1 < initDegree size degree := one_lt_initDegree hsize
  have hmem : 1 ∈ childrenOf size (initDegree size degree)
    ((root + size - root) % size) leftmost := by
    rw [Nat.add_sub_cancel_left, Nat.mod_self]
    refine ((rankTree_kntree hd).mem 0 1).mpr ⟨one_pos, hsize, ?_⟩
    exact (Nat.lt_one_iff.mp (kntreeParent_lt hd one_pos)).symm
  rw [childValues_init hd (by omega), childValues_reset hd (by omega)]
  exact ⟨List.mem_map_of_mem hmem, List.mem_map_of_mem hmem⟩

theorem child_ne_none {fuel c : ℕ} {iter : KntreeIter} (h : c ∈ childValues fuel iter) :
    iter.child ≠ none := by
  intro hnone
  cases fuel with
  | zero => exact absurd h List.not_mem_nil
  | succ fuel =>
    rw [childValues, hnone] at h
    exact absurd h List.not_mem_nil

/-- The only rank of a tree has no children. -/
theorem child_init_one : (init 1 degree root myrank leftmost).child = none ∧
    (init 1 degree root myrank leftmost).reset.child = none := by
  have hparent (d v : ℕ) : findParent 1 d root v 1 = (1, none) := by
    rw [findParent, dif_neg (by omega)]
  have hupdate (iter : KntreeIter) (hsub : iter.subsize = 1) (hmax : iter.maxSubsize = 1) :
      iter.update.child = none := by
    rw [update]
    split_ifs
    · rw [updateLeftmost, dif_neg]
      rintro ⟨hpos, hd⟩
      rw [hsub, Nat.div_eq_of_lt hd] at hpos
      exact absurd hpos (lt_irrefl 0)
    · rw [updateRightmost, dif_neg (by omega)]
  have hmax : (init 1 degree root myrank leftmost).maxSubsize = 1 := by
    rw [init]
    dsimp only
    rw [update_base, hparent]
  refine ⟨?_, ?_⟩
  · rw [init]
    dsimp only
    rw [hparent]
    exact hupdate _ (by simp) rfl
  · rw [reset]
    exact hupdate _ (by simp [hmax]) hmax

/-- The iterator of rank `v` in a tree that is rooted at rank 0. -/
theorem reset_root_zero {v : ℕ} (hsize : 2 ≤ size) (hv : v < size) :
    let d := initDegree size degree
    let iter := (init size degree 0 v leftmost).reset
    iter.root = 0 ∧ iter.parent = (if v = 0 then none else some (kntreeParent d v)) ∧
      iter.Yields (childrenOf size d v leftmost) ∧
      (childrenOf size d v leftmost).length ≤ iter.size := by
  intro d iter
  have hd : 1 < d := one_lt_initDegree hsize
  have hbase := init_base 0 v leftmost hd (by omega)
  rw [Nat.sub_zero, Nat.add_mod_right, Nat.mod_eq_of_lt hv] at hbase
  have hreset : iter.toKntreeBase = baseOf size d 0 v leftmost := (reset_base _).trans hbase
  have htree : RankTree size (kntreeParent d) fun v => childrenOf size d v leftmost :=
    rankTree_kntree hd
  refine ⟨congrArg KntreeBase.root hreset, (congrArg KntreeBase.parent hreset).trans ?_, ?_, ?_⟩
  · rw [baseOf]
    split_ifs with hzero
    · rfl
    · have hlt := htree.parent_lt v (Nat.pos_of_ne_zero hzero) hv
      rw [Nat.add_zero, Nat.mod_eq_of_lt (hlt.trans hv)]
  · have hyields := reset_yields hd hbase
    rwa [List.map_congr_left (fun c hc => ?_), List.map_id'] at hyields
    exact Nat.mod_eq_of_lt ((htree.mem v c).mp hc).2.1
  · exact (length_childrenOf_le _ _ _ (by omega)).trans_eq (congrArg KntreeBase.size hreset).symm

end KntreeIter

end Kucg.Algo
