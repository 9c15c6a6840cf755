import Kucg.Algo.Kntree
import Kucg.Lib.SpanningTree

/-! The k-nomial tree iterator in numbers of type `int`.

    The functions of `ucg_kntree.c` again, with the limit of their type: an `int` that overflows is
    undefined, which is `none` here. As long as nothing overflows they compute what the functions of
    `Kntree` do (`IntFits`), and then what the iterators of all ranks say is one tree. The biggest
    number is the sub-tree of the root, which is rounded up to a power of the degree, so that a big
    degree overflows although the number of ranks is far from the limit
    (`KntreeIter.intTree_iff`). -/

namespace Kucg.Algo

open Kucg.Lib

/-- The numbers from here on are no `int`. -/
def intLimit : ℕ := 2 ^ 31

namespace KntreeIter

/-- `ucg_algo_kntree_iter_update_kntree_leftmost`. The index of a child is at most the degree, which
    is an `int`, and so is a part of a sub-tree. -/
def updateLeftmostInt (iter : KntreeIter) : Option KntreeIter :=
  if _h : 0 < iter.subsize / iter.degree ∧ 1 < iter.degree then
    if iter.childIdx < iter.degree then
      let child := iter.myrank + iter.subsize / iter.degree * iter.childIdx
      if intLimit ≤ child then none
      else if child < iter.size then
        if intLimit ≤ child + iter.root then none
        else some { iter with child := some ((child + iter.root) % iter.size) }
      else updateLeftmostInt { iter with childIdx := iter.childIdx + 1 }
    else updateLeftmostInt { iter with subsize := iter.subsize / iter.degree, childIdx := 1 }
  else some { iter with child := none }
termination_by iter.subsize * iter.degree + (iter.degree - iter.childIdx)
decreasing_by
  · omega
  · have hle : iter.subsize / iter.degree * iter.degree ≤ iter.subsize := Nat.div_mul_le_self ..
    have hd : iter.degree ≤ iter.subsize := (Nat.div_pos_iff.mp _h.1).2
    have hmul : iter.subsize * 2 ≤ iter.subsize * iter.degree := Nat.mul_le_mul_left _ _h.2
    omega

/-- `ucg_algo_kntree_iter_update_kntree_rightmost`. -/
def updateRightmostInt (iter : KntreeIter) : Option KntreeIter :=
  if _h : iter.subsize < iter.maxSubsize ∧ 1 < iter.degree ∧ 0 < iter.subsize then
    if iter.childIdx < iter.degree then
      let child := iter.myrank + iter.subsize * (iter.degree - iter.childIdx)
      if intLimit ≤ child then none
      else if child < iter.size then
        if intLimit ≤ child + iter.root then none
        else some { iter with child := some ((child + iter.root) % iter.size) }
      else updateRightmostInt { iter with childIdx := iter.childIdx + 1 }
    else if intLimit ≤ iter.subsize * iter.degree then none
    else updateRightmostInt { iter with subsize := iter.subsize * iter.degree, childIdx := 1 }
  else some { iter with child := none }
termination_by (iter.maxSubsize - iter.subsize) * iter.degree + (iter.degree - iter.childIdx)
decreasing_by
  · omega
  · have hmul : iter.subsize * 2 ≤ iter.subsize * iter.degree := Nat.mul_le_mul_left _ _h.2.1
    have hlt : iter.maxSubsize - iter.subsize * iter.degree + 1 ≤
      iter.maxSubsize - iter.subsize := by
      omega
    have := Nat.mul_le_mul_right iter.degree hlt
    rw [Nat.add_mul] at this
    omega

/-- `ucg_algo_kntree_iter_update`. -/
def updateInt (iter : KntreeIter) : Option KntreeIter :=
  if iter.leftmost then iter.updateLeftmostInt else iter.updateRightmostInt

/-- The loop of `ucg_algo_kntree_iter_init` that looks for the parent. -/
def findParentInt (size degree root v subsize : ℕ) : Option (ℕ × Option ℕ) :=
  if _h : subsize < size ∧ 1 < degree ∧ 0 < subsize then
    let next := subsize * degree
    if intLimit ≤ next then none
    else if v % next ≠ 0 then
      if intLimit ≤ v / next * next + root then none
      else some (subsize, some ((v / next * next + root) % size))
    else findParentInt size degree root v next
  else some (subsize, none)
termination_by size - subsize
decreasing_by
  have hmul : subsize * 2 ≤ subsize * degree := Nat.mul_le_mul_left _ _h.2.1
  omega

/-- `ucg_algo_kntree_iter_init`. -/
def initInt (size degree root myrank : ℕ) (leftmost : Bool) : Option KntreeIter :=
  if intLimit ≤ myrank + size - root then none
  else
    let degree := initDegree size degree
    let vMyrank := (myrank + size - root) % size
    match findParentInt size degree root vMyrank 1 with
    | none => none
    | some (maxSubsize, parent) => updateInt {
        size := size, degree := degree, root := root, myrank := vMyrank, leftmost := leftmost
        maxSubsize := maxSubsize, parent := parent
        subsize := if leftmost then maxSubsize else 1, childIdx := 1, child := none }

/-- `ucg_algo_kntree_iter_reset`. -/
def resetInt (iter : KntreeIter) : Option KntreeIter :=
  updateInt { iter with
    subsize := if iter.leftmost then iter.maxSubsize else 1, child := none, childIdx := 1 }

/-- `ucg_algo_kntree_iter_child_inc`. -/
def childIncInt (iter : KntreeIter) : Option KntreeIter :=
  updateInt { iter with childIdx := iter.childIdx + 1 }

/-- A loop over the iterator sees these children, and then the end. -/
def Enumerates : KntreeIter → List ℕ → Prop
  | iter, [] => iter.child = none
  | iter, c :: cs => iter.child = some c ∧ ∃ next, iter.childIncInt = some next ∧ next.Enumerates cs

/-- A loop over the first iterator comes to the second one. -/
inductive Visits : KntreeIter → KntreeIter → Prop
  | start (iter : KntreeIter) : Visits iter iter
  | inc {iter next last : KntreeIter} {c : ℕ} : iter.child = some c →
      iter.childIncInt = some next → Visits next last → Visits iter last

/-! ### As long as nothing overflows -/

/-- The numbers that the iterator still has to compute are `int`s. -/
structure IntFits (iter : KntreeIter) : Prop where
  root_add : iter.size + iter.root ≤ intLimit
  max_lt : iter.maxSubsize < intLimit
  add_max : iter.myrank + iter.maxSubsize ≤ intLimit
  idx_pos : 0 < iter.childIdx
  /-- Sub-trees are powers of the degree. -/
  pow : ∃ e E, e ≤ E ∧ iter.subsize = iter.degree ^ e ∧ iter.maxSubsize = iter.degree ^ E

namespace IntFits

variable {iter : KntreeIter}

/-- Looking for another child changes none of the numbers that count. -/
theorem with_child (h : iter.IntFits) (child : Option ℕ) :
    ({ iter with child := child } : KntreeIter).IntFits :=
  ⟨h.root_add, h.max_lt, h.add_max, h.idx_pos, h.pow⟩

theorem next_idx (h : iter.IntFits) :
    ({ iter with childIdx := iter.childIdx + 1 } : KntreeIter).IntFits :=
  ⟨h.root_add, h.max_lt, h.add_max, Nat.succ_pos _, h.pow⟩

theorem sub_le (h : iter.IntFits) (hd : 1 < iter.degree) : iter.subsize ≤ iter.maxSubsize := by
  obtain ⟨e, E, hle, hsub, hmax⟩ := h.pow
  rw [hsub, hmax]
  exact Nat.pow_le_pow_right (by omega) hle

/-- The sub-trees of the next level down. -/
theorem down (h : iter.IntFits) (hd : 1 < iter.degree) (hpos : 0 < iter.subsize / iter.degree) :
    ({ iter with subsize := iter.subsize / iter.degree, childIdx := 1 } : KntreeIter).IntFits := by
  refine ⟨h.root_add, h.max_lt, h.add_max, Nat.one_pos, ?_⟩
  obtain ⟨e, E, hle, hsub, hmax⟩ := h.pow
  rw [hsub] at hpos
  dsimp only
  cases e with
  | zero => exact absurd hpos (by rw [pow_zero, Nat.div_eq_of_lt hd]; exact lt_irrefl 0)
  | succ e => exact ⟨e, E, by omega, by rw [hsub, pow_succ, Nat.mul_div_cancel _ (by omega)], hmax⟩

/-- The sub-trees of the next level up. -/
theorem up (h : iter.IntFits) (hd : 1 < iter.degree) (hlt : iter.subsize < iter.maxSubsize) :
    iter.subsize * iter.degree ≤ iter.maxSubsize ∧
      ({ iter with subsize := iter.subsize * iter.degree, childIdx := 1 } :
        KntreeIter).IntFits := by
  obtain ⟨e, E, hle, hsub, hmax⟩ := h.pow
  rw [hsub, hmax] at hlt
  have hlt' : e < E := (Nat.pow_lt_pow_iff_right hd).mp hlt
  have hnext : iter.subsize * iter.degree = iter.degree ^ (e + 1) := by rw [hsub, pow_succ]
  refine ⟨?_, h.root_add, h.max_lt, h.add_max, Nat.one_pos, e + 1, E, hlt', hnext, hmax⟩
  rw [hnext, hmax]
  exact Nat.pow_le_pow_right (by omega) hlt'

/-- A part of a sub-tree of the next level down. -/
theorem child_lt_down (h : iter.IntFits) (hd : 1 < iter.degree) (hidx : iter.childIdx < iter.degree)
    (hpos : 0 < iter.subsize / iter.degree) :
    iter.myrank + iter.subsize / iter.degree * iter.childIdx < intLimit := by
  have hmul : iter.subsize / iter.degree * iter.childIdx <
    iter.subsize / iter.degree * iter.degree :=
    Nat.mul_lt_mul_of_pos_left hidx hpos
  have hle : iter.subsize / iter.degree * iter.degree ≤ iter.subsize := Nat.div_mul_le_self ..
  have hsub := h.sub_le hd
  have hadd := h.add_max
  omega

theorem child_lt_up (h : iter.IntFits) (hd : 1 < iter.degree) (hidx : iter.childIdx < iter.degree)
    (hpos : 0 < iter.subsize) (hlt : iter.subsize < iter.maxSubsize) :
    iter.myrank + iter.subsize * (iter.degree - iter.childIdx) < intLimit := by
  have hless : iter.degree - iter.childIdx < iter.degree := by
    have := h.idx_pos
    omega
  have hmul : iter.subsize * (iter.degree - iter.childIdx) < iter.subsize * iter.degree :=
    Nat.mul_lt_mul_of_pos_left hless hpos
  have hup := (h.up hd hlt).1
  have hadd := h.add_max
  omega

theorem updateLeftmost (h : iter.IntFits) :
    iter.updateLeftmostInt = some iter.updateLeftmost ∧ iter.updateLeftmost.IntFits := by
  induction iter using KntreeIter.updateLeftmost.induct with
  | case1 iter hgo hidx child hlt =>
    have hadd := h.root_add
    have hchild := h.child_lt_down hgo.2 hidx hgo.1
    rw [updateLeftmostInt, KntreeIter.updateLeftmost, dif_pos hgo, dif_pos hgo, if_pos hidx,
      if_pos hidx, if_neg (Nat.not_le.mpr hchild), if_pos hlt, if_pos hlt]
    exact ⟨if_neg (by omega), h.with_child _⟩
  | case2 iter hgo hidx child hlt ih =>
    have hchild := h.child_lt_down hgo.2 hidx hgo.1
    rw [updateLeftmostInt, KntreeIter.updateLeftmost, dif_pos hgo, dif_pos hgo, if_pos hidx,
      if_pos hidx, if_neg (Nat.not_le.mpr hchild), if_neg hlt, if_neg hlt]
    exact ih h.next_idx
  | case3 iter hgo hidx ih =>
    rw [updateLeftmostInt, KntreeIter.updateLeftmost, dif_pos hgo, dif_pos hgo, if_neg hidx,
      if_neg hidx]
    exact ih (h.down hgo.2 hgo.1)
  | case4 iter hgo =>
    rw [updateLeftmostInt, KntreeIter.updateLeftmost, dif_neg hgo, dif_neg hgo]
    exact ⟨rfl, h.with_child _⟩

theorem updateRightmost (h : iter.IntFits) :
    iter.updateRightmostInt = some iter.updateRightmost ∧ iter.updateRightmost.IntFits := by
  induction iter using KntreeIter.updateRightmost.induct with
  | case1 iter hgo hidx child hlt =>
    have hadd := h.root_add
    have hchild := h.child_lt_up hgo.2.1 hidx hgo.2.2 hgo.1
    rw [updateRightmostInt, KntreeIter.updateRightmost, dif_pos hgo, dif_pos hgo, if_pos hidx,
      if_pos hidx, if_neg (Nat.not_le.mpr hchild), if_pos hlt, if_pos hlt]
    exact ⟨if_neg (by omega), h.with_child _⟩
  | case2 iter hgo hidx child hlt ih =>
    have hchild := h.child_lt_up hgo.2.1 hidx hgo.2.2 hgo.1
    rw [updateRightmostInt, KntreeIter.updateRightmost, dif_pos hgo, dif_pos hgo, if_pos hidx,
      if_pos hidx, if_neg (Nat.not_le.mpr hchild), if_neg hlt, if_neg hlt]
    exact ih h.next_idx
  | case3 iter hgo hidx ih =>
    obtain ⟨hle, hup⟩ := h.up hgo.2.1 hgo.1
    have hmax := h.max_lt
    rw [updateRightmostInt, KntreeIter.updateRightmost, dif_pos hgo, dif_pos hgo, if_neg hidx,
      if_neg hidx, if_neg (by omega)]
    exact ih hup
  | case4 iter hgo =>
    rw [updateRightmostInt, KntreeIter.updateRightmost, dif_neg hgo, dif_neg hgo]
    exact ⟨rfl, h.with_child _⟩

theorem update (h : iter.IntFits) : iter.updateInt = some iter.update ∧ iter.update.IntFits := by
  rw [updateInt, KntreeIter.update]
  split_ifs
  · exact h.updateLeftmost
  · exact h.updateRightmost

theorem childInc (h : iter.IntFits) :
    iter.childIncInt = some iter.childInc ∧ iter.childInc.IntFits :=
  h.next_idx.update

/-- A reset begins with the numbers of the initialisation. -/
theorem reset (h : iter.IntFits) : iter.resetInt = some iter.reset ∧ iter.reset.IntFits := by
  have hfirst : ({ iter with
      subsize := if iter.leftmost then iter.maxSubsize else 1, child := none
      childIdx := 1 } : KntreeIter).IntFits := by
    obtain ⟨e, E, -, -, hmax⟩ := h.pow
    refine ⟨h.root_add, h.max_lt, h.add_max, Nat.one_pos, ?_⟩
    dsimp only
    split_ifs
    · exact ⟨E, E, le_rfl, hmax, hmax⟩
    · exact ⟨0, E, Nat.zero_le _, (pow_zero _).symm, hmax⟩
  exact hfirst.update

theorem enumerates : ∀ {cs : List ℕ} {iter : KntreeIter}, iter.IntFits → iter.Yields cs →
    iter.Enumerates cs
  | [], _, _, hyields => hyields
  | _ :: _, _, h, ⟨hchild, hrest⟩ => by
    obtain ⟨hinc, hfits⟩ := h.childInc
    exact ⟨hchild, _, hinc, hfits.enumerates hrest⟩

/-- Wherever the loop is, the numbers still fit, and the iterator is that of the same rank. -/
theorem visits {last : KntreeIter} (hvisits : Visits iter last) (h : iter.IntFits) :
    last.IntFits ∧ last.toKntreeBase = iter.toKntreeBase := by
  induction hvisits with
  | start iter => exact ⟨h, rfl⟩
  | inc _ hinc _ ih =>
    obtain ⟨hinc', hfits⟩ := h.childInc
    obtain rfl := Option.some.inj (hinc'.symm.trans hinc)
    obtain ⟨hlast, hbase⟩ := ih hfits
    exact ⟨hlast, hbase.trans (childInc_base _)⟩

end IntFits

/-! ### What must not overflow -/

/-- What the iterators of all ranks need of the `int`s: the sub-tree of the root, and the sums that
    turn the ranks around the root. -/
def TreeFits (size degree root : ℕ) : Prop :=
  initDegree size degree ^ Nat.clog (initDegree size degree) size < intLimit ∧
    size + root ≤ intLimit ∧ 2 * size ≤ intLimit + root

instance (size degree root : ℕ) : Decidable (TreeFits size degree root) := instDecidableAnd

section Init

variable {size d root v : ℕ}

theorem findParentInt_zero (hd : 1 < d) (hfit : d ^ Nat.clog d size < intLimit) :
    ∀ {k e : ℕ}, Nat.clog d size = e + k →
      findParentInt size d root 0 (d ^ e) = some (findParent size d root 0 (d ^ e))
  | 0, e, h => by
    have hle : size ≤ d ^ e := by
      rw [Nat.add_zero] at h
      exact h ▸ Nat.le_pow_clog hd size
    rw [findParentInt, findParent, dif_neg (by omega), dif_neg (by omega)]
  | k + 1, e, h => by
    have hlt : d ^ e < size := (Nat.lt_clog_iff_pow_lt hd).mp (by omega)
    have hnext : d ^ (e + 1) ≤ d ^ Nat.clog d size := Nat.pow_le_pow_right (by omega) (by omega)
    rw [findParentInt, findParent, dif_pos ⟨hlt, hd, by positivity⟩,
      dif_pos ⟨hlt, hd, by positivity⟩]
    dsimp only
    rw [← pow_succ, if_neg (by omega), if_neg (by simp), if_neg (by simp)]
    exact findParentInt_zero hd hfit (k := k) (by omega)

/-- The root finds out how big its sub-tree is. -/
theorem lt_of_findParentInt_zero (hd : 1 < d) :
    ∀ {k e : ℕ}, Nat.clog d size = e + k → (findParentInt size d root 0 (d ^ e)).isSome →
      d ^ e < intLimit → d ^ Nat.clog d size < intLimit
  | 0, e, h, _, hlt => by rwa [h, Nat.add_zero]
  | k + 1, e, h, hsome, _ => by
    have hlt : d ^ e < size := (Nat.lt_clog_iff_pow_lt hd).mp (by omega)
    rw [findParentInt, dif_pos ⟨hlt, hd, by positivity⟩] at hsome
    dsimp only at hsome
    rw [← pow_succ, if_neg (by simp : ¬0 % d ^ (e + 1) ≠ 0)] at hsome
    split_ifs at hsome with hfit
    · exact absurd hsome (by simp)
    · exact lt_of_findParentInt_zero hd (k := k) (by omega) hsome (by omega)

theorem findParentInt_pos (hd : 1 < d) (hv : 0 < v) (hlt : v < size)
    (hfit : d ^ Nat.clog d size < intLimit) (hroot : size + root ≤ intLimit) :
    ∀ {k e : ℕ}, multiplicity d v = e + k →
      findParentInt size d root v (d ^ e) = some (findParent size d root v (d ^ e))
  | k, e, h => by
    have hle : d ^ e ≤ v := Nat.le_of_dvd hv ((pow_multiplicity_dvd hd hv).mpr (by omega))
    have hclog : e < Nat.clog d size := (Nat.lt_clog_iff_pow_lt hd).mpr (by omega)
    have hnext : d ^ (e + 1) ≤ d ^ Nat.clog d size := Nat.pow_le_pow_right (by omega) hclog
    have hdiv : v / d ^ (e + 1) * d ^ (e + 1) ≤ v := Nat.div_mul_le_self ..
    rw [findParentInt, findParent, dif_pos ⟨by omega, hd, by positivity⟩,
      dif_pos ⟨by omega, hd, by positivity⟩]
    dsimp only
    rw [← pow_succ, if_neg (by omega)]
    split_ifs with hmod hover
    · omega
    · rfl
    · cases k with
      | zero =>
        have hdvd := (pow_multiplicity_dvd hd hv (e := e + 1)).mp
          (Nat.dvd_of_mod_eq_zero (not_not.mp hmod))
        omega
      | succ k => exact findParentInt_pos hd hv hlt hfit hroot (k := k) (by omega)

/-- The sub-tree of a rank ends within the sub-tree of the root. -/
theorem add_height_le (hd : 1 < d) (hlt : v < size) :
    v + d ^ kntreeHeight size d v ≤ d ^ Nat.clog d size := by
  rw [kntreeHeight]
  split_ifs with hv
  · rw [hv, Nat.zero_add]
  · have hle : size ≤ d ^ Nat.clog d size := Nat.le_pow_clog hd size
    have hdvd : d ^ multiplicity d v ∣ v :=
      (pow_multiplicity_dvd hd (Nat.pos_of_ne_zero hv)).mpr le_rfl
    have hpow : d ^ multiplicity d v < d ^ Nat.clog d size :=
      (Nat.le_of_dvd (Nat.pos_of_ne_zero hv) hdvd).trans_lt (hlt.trans_le hle)
    have hdvd' : d ^ multiplicity d v ∣ d ^ Nat.clog d size :=
      pow_dvd_pow _ ((Nat.pow_lt_pow_iff_right hd).mp hpow).le
    have hgap : d ^ multiplicity d v ≤ d ^ Nat.clog d size - v :=
      Nat.le_of_dvd (by omega) (Nat.dvd_sub hdvd' hdvd)
    omega

/-- A rank whose numbers fit gets its iterator. -/
theorem initInt_eq {degree myrank : ℕ} (leftmost : Bool) (hsize : 2 ≤ size) (hrank : myrank < size)
    (hroot : root < size) (hfit : TreeFits size degree root) :
    initInt size degree root myrank leftmost = some (init size degree root myrank leftmost) ∧
      (init size degree root myrank leftmost).IntFits := by
  have hd : 1 < initDegree size degree := one_lt_initDegree hsize
  obtain ⟨hpow, hadd, hturn⟩ := hfit
  have hbase := init_base root myrank leftmost hd (by omega)
  rw [init] at hbase ⊢
  rw [initInt, if_neg (by omega)]
  dsimp only at hbase ⊢
  generalize hv : (myrank + size - root) % size = v at hbase ⊢
  generalize initDegree size degree = d at *
  have hlt : v < size := hv ▸ Nat.mod_lt _ (by omega)
  have hfind : findParentInt size d root v 1 = some (findParent size d root v 1) := by
    rw [← pow_zero d]
    rcases Nat.eq_zero_or_pos v with rfl | hpos
    · exact findParentInt_zero hd hpow (Nat.zero_add _).symm
    · exact findParentInt_pos hd hpos hlt hpow hadd (Nat.zero_add _).symm
  rw [update_base] at hbase
  have hmax : (findParent size d root v 1).1 = d ^ kntreeHeight size d v :=
    congrArg KntreeBase.maxSubsize hbase
  have hheight := add_height_le hd hlt
  have hle : kntreeHeight size d v ≤ Nat.clog d size :=
    (Nat.pow_le_pow_iff_right hd).mp (by omega)
  rw [hfind]
  refine IntFits.update ⟨hadd, ?_, ?_, Nat.one_pos, ?_⟩
  · exact hmax.trans_lt (by omega)
  · exact (congrArg (v + ·) hmax).trans_le (by omega)
  · cases leftmost
    · exact ⟨0, _, Nat.zero_le _, (pow_zero d).symm, hmax⟩
    · exact ⟨_, _, le_rfl, hmax, hmax⟩

/-- The parent of rank `q`. -/
noncomputable def treeParent (size degree root : ℕ) : ℕ → Option ℕ :=
  namedParent (kntreeParent (initDegree size degree)) (fun q => (q + size - root) % size)
    fun v => (v + root) % size

/-- The children of rank `q`, in the order of its iterator. -/
noncomputable def treeChildren (size degree root : ℕ) (leftmost : Bool) (q : ℕ) : List ℕ :=
  (childrenOf size (initDegree size degree) ((q + size - root) % size) leftmost).map
    fun c => (c + root) % size

end Init

/-! ### One tree -/

/-- The iterators of all ranks get their values without an overflow, and describe one tree: each
    rank enumerates the ranks that have it as their parent, again after each reset, and in the one
    order opposite to the other. -/
structure IntTree (size degree root : ℕ) (parent : ℕ → Option ℕ)
    (children : Bool → ℕ → List ℕ) : Prop where
  init : ∀ q < size, ∀ leftmost, ∃ iter, initInt size degree root q leftmost = some iter ∧
    iter.parent = parent q ∧ iter.Enumerates (children leftmost q)
  reset : ∀ q < size, ∀ leftmost iter last, initInt size degree root q leftmost = some iter →
    Visits iter last → ∃ again, last.resetInt = some again ∧ again.parent = parent q ∧
      again.Enumerates (children leftmost q)
  tree : ∀ leftmost, SpanningTree size root parent (children leftmost)
  mirror : ∀ q < size, children false q = (children true q).reverse

section Tree

variable {size degree root : ℕ}

/-- The iterators describe one tree as long as nothing overflows. -/
theorem intTree_of_fits (hsize : 2 ≤ size) (hroot : root < size)
    (hfit : TreeFits size degree root) :
    IntTree size degree root (treeParent size degree root) (treeChildren size degree root) where
  init q hq leftmost := by
    have hd : 1 < initDegree size degree := one_lt_initDegree hsize
    obtain ⟨hinit, hfits⟩ := initInt_eq leftmost hsize hq hroot hfit
    refine ⟨_, hinit, ?_, hfits.enumerates (init_yields root q leftmost hd (by omega))⟩
    exact congrArg KntreeBase.parent (init_base root q leftmost hd (by omega))
  reset q hq leftmost iter last hiter hvisits := by
    have hd : 1 < initDegree size degree := one_lt_initDegree hsize
    obtain ⟨hinit, hfits⟩ := initInt_eq leftmost hsize hq hroot hfit
    obtain rfl := Option.some.inj (hinit.symm.trans hiter)
    obtain ⟨hlast, hbase⟩ := hfits.visits hvisits
    have hbase' := hbase.trans (init_base root q leftmost hd (by omega))
    refine ⟨_, hlast.reset.1, ?_, hlast.reset.2.enumerates (reset_yields hd hbase')⟩
    exact congrArg KntreeBase.parent ((reset_base last).trans hbase')
  tree leftmost := by
    have hd : 1 < initDegree size degree := one_lt_initDegree hsize
    have htree : RankTree size (kntreeParent (initDegree size degree))
        fun v => childrenOf size (initDegree size degree) v leftmost := rankTree_kntree hd
    have h := htree.spanning (fun q => (q + size - root) % size) (fun v => (v + root) % size)
      (fun q _ => Nat.mod_lt _ (by omega)) (fun v _ => Nat.mod_lt _ (by omega))
      (fun v hv => vMyrank_real hroot hv) (fun q hq => real_vMyrank hroot hq) (by omega)
    rwa [Nat.zero_add, Nat.mod_eq_of_lt hroot] at h
  mirror q _ := by
    simp only [treeChildren, childrenOf, Bool.false_eq_true, if_false, if_true, List.map_reverse]

/-- A child that was found stands for a number whose sum with the root is an `int`. -/
def FromSum (b : KntreeBase) (child : Option ℕ) : Prop :=
  ∀ c, child = some c → ∃ v < b.size, v + b.root < intLimit ∧ c = (v + b.root) % b.size

/-- What does not overflow is what the functions without a limit compute. -/
theorem updateLeftmostInt_sum {iter next : KntreeIter} (h : iter.updateLeftmostInt = some next) :
    next = iter.updateLeftmost ∧ FromSum iter.toKntreeBase next.child := by
  induction iter using KntreeIter.updateLeftmostInt.induct with
  | case1 iter hgo hidx child hover =>
    rw [updateLeftmostInt, dif_pos hgo, if_pos hidx, if_pos hover] at h
    exact absurd h (by simp)
  | case2 iter hgo hidx child hover hlt hover' =>
    rw [updateLeftmostInt, dif_pos hgo, if_pos hidx, if_neg hover, if_pos hlt, if_pos hover'] at h
    exact absurd h (by simp)
  | case3 iter hgo hidx child hover hlt hover' =>
    rw [updateLeftmostInt, dif_pos hgo, if_pos hidx, if_neg hover, if_pos hlt, if_neg hover'] at h
    obtain rfl := Option.some.inj h
    refine ⟨by rw [updateLeftmost, dif_pos hgo, if_pos hidx, if_pos hlt], fun c hc => ?_⟩
    exact ⟨_, hlt, Nat.not_le.mp hover', (Option.some.inj hc).symm⟩
  | case4 iter hgo hidx child hover hlt ih =>
    rw [updateLeftmostInt, dif_pos hgo, if_pos hidx, if_neg hover, if_neg hlt] at h
    rw [updateLeftmost, dif_pos hgo, if_pos hidx, if_neg hlt]
    exact ih h
  | case5 iter hgo hidx ih =>
    rw [updateLeftmostInt, dif_pos hgo, if_neg hidx] at h
    rw [updateLeftmost, dif_pos hgo, if_neg hidx]
    exact ih h
  | case6 iter hgo =>
    rw [updateLeftmostInt, dif_neg hgo] at h
    obtain rfl := Option.some.inj h
    exact ⟨by rw [updateLeftmost, dif_neg hgo], fun c hc => absurd hc (by simp)⟩

theorem updateRightmostInt_sum {iter next : KntreeIter} (h : iter.updateRightmostInt = some next) :
    next = iter.updateRightmost ∧ FromSum iter.toKntreeBase next.child := by
  induction iter using KntreeIter.updateRightmostInt.induct with
  | case1 iter hgo hidx child hover =>
    rw [updateRightmostInt, dif_pos hgo, if_pos hidx, if_pos hover] at h
    exact absurd h (by simp)
  | case2 iter hgo hidx child hover hlt hover' =>
    rw [updateRightmostInt, dif_pos hgo, if_pos hidx, if_neg hover, if_pos hlt, if_pos hover'] at h
    exact absurd h (by simp)
  | case3 iter hgo hidx child hover hlt hover' =>
    rw [updateRightmostInt, dif_pos hgo, if_pos hidx, if_neg hover, if_pos hlt, if_neg hover'] at h
    obtain rfl := Option.some.inj h
    refine ⟨by rw [updateRightmost, dif_pos hgo, if_pos hidx, if_pos hlt], fun c hc => ?_⟩
    exact ⟨_, hlt, Nat.not_le.mp hover', (Option.some.inj hc).symm⟩
  | case4 iter hgo hidx child hover hlt ih =>
    rw [updateRightmostInt, dif_pos hgo, if_pos hidx, if_neg hover, if_neg hlt] at h
    rw [updateRightmost, dif_pos hgo, if_pos hidx, if_neg hlt]
    exact ih h
  | case5 iter hgo hidx hover =>
    rw [updateRightmostInt, dif_pos hgo, if_neg hidx, if_pos hover] at h
    exact absurd h (by simp)
  | case6 iter hgo hidx hover ih =>
    rw [updateRightmostInt, dif_pos hgo, if_neg hidx, if_neg hover] at h
    rw [updateRightmost, dif_pos hgo, if_neg hidx]
    exact ih h
  | case7 iter hgo =>
    rw [updateRightmostInt, dif_neg hgo] at h
    obtain rfl := Option.some.inj h
    exact ⟨by rw [updateRightmost, dif_neg hgo], fun c hc => absurd hc (by simp)⟩

theorem updateInt_sum {iter next : KntreeIter} (h : iter.updateInt = some next) :
    next = iter.update ∧ FromSum iter.toKntreeBase next.child := by
  rw [updateInt] at h
  rw [update]
  split_ifs at h ⊢
  · exact updateLeftmostInt_sum h
  · exact updateRightmostInt_sum h

/-- A loop sees the values of the iterator without a limit, and the sums of all of them with the
    root are `int`s. -/
theorem Enumerates.fromSum : ∀ {cs : List ℕ} {iter : KntreeIter}, iter.Enumerates cs →
    FromSum iter.toKntreeBase iter.child →
      iter.Yields cs ∧ ∀ c ∈ cs, FromSum iter.toKntreeBase (some c)
  | [], _, h, _ => ⟨h, fun _ hc => absurd hc List.not_mem_nil⟩
  | c :: cs, iter, ⟨hchild, next, hinc, hrest⟩, hsum => by
    obtain ⟨rfl, hnext⟩ := updateInt_sum hinc
    obtain ⟨hyields, hall⟩ := hrest.fromSum (by rw [update_base]; exact hnext)
    refine ⟨⟨hchild, hyields⟩, fun c' hc => ?_⟩
    rcases List.mem_cons.mp hc with rfl | hc
    · exact hchild ▸ hsum
    · have h := hall c' hc
      rwa [update_base] at h

theorem findParentInt_some {size d root v subsize : ℕ} {r : ℕ × Option ℕ}
    (h : findParentInt size d root v subsize = some r) : r = findParent size d root v subsize := by
  induction subsize using findParentInt.induct size d root v with
  | case1 subsize hgo next hover =>
    rw [findParentInt, dif_pos hgo, if_pos hover] at h
    exact absurd h (by simp)
  | case2 subsize hgo next hover hmod hover' =>
    rw [findParentInt, dif_pos hgo, if_neg hover, if_pos hmod, if_pos hover'] at h
    exact absurd h (by simp)
  | case3 subsize hgo next hover hmod hover' =>
    rw [findParentInt, dif_pos hgo, if_neg hover, if_pos hmod, if_neg hover'] at h
    rw [findParent, dif_pos hgo, if_pos hmod, Option.some.inj h]
  | case4 subsize hgo next hover hmod ih =>
    rw [findParentInt, dif_pos hgo, if_neg hover, if_neg hmod] at h
    rw [findParent, dif_pos hgo, if_neg hmod]
    exact ih h
  | case5 subsize hgo =>
    rw [findParentInt, dif_neg hgo] at h
    rw [findParent, dif_neg hgo, Option.some.inj h]

theorem initInt_cases {myrank : ℕ} {leftmost : Bool} {iter : KntreeIter}
    (h : initInt size degree root myrank leftmost = some iter) :
    myrank + size - root < intLimit ∧ iter = init size degree root myrank leftmost ∧
      (findParentInt size (initDegree size degree) root ((myrank + size - root) % size) 1).isSome ∧
      FromSum iter.toKntreeBase iter.child := by
  rw [initInt] at h
  by_cases hover : intLimit ≤ myrank + size - root
  · rw [if_pos hover] at h
    exact absurd h (by simp)
  rw [if_neg hover] at h
  dsimp only at h
  rcases hfind : findParentInt size (initDegree size degree) root ((myrank + size - root) % size) 1
    with _ | ⟨maxSubsize, parent⟩
  · rw [hfind] at h
    exact absurd h (by simp)
  · rw [hfind] at h
    obtain ⟨hiter, hsum⟩ := updateInt_sum h
    refine ⟨Nat.not_le.mp hover, ?_, rfl, ?_⟩
    · rw [hiter, init, ← findParentInt_some hfind]
    · rw [hiter, update_base]
      exact hiter ▸ hsum

/-- A loop over the children of rank `q` that ends has seen all of them. -/
theorem Enumerates.eq_treeChildren {q : ℕ} {leftmost : Bool} {iter : KntreeIter} {cs : List ℕ}
    (hsize : 2 ≤ size) (hiter : initInt size degree root q leftmost = some iter)
    (henum : iter.Enumerates cs) : cs = treeChildren size degree root leftmost q := by
  obtain ⟨-, rfl, -, hsum⟩ := initInt_cases hiter
  exact (henum.fromSum hsum).1.unique
    (init_yields root q leftmost (one_lt_initDegree hsize) (by omega))

/-- The children of a rank, by their numbers. -/
theorem mem_treeChildren {q c : ℕ} {leftmost : Bool} (hsize : 2 ≤ size) (hroot : root < size)
    (hc : c < size) : c ∈ treeChildren size degree root leftmost q ↔
      0 < (c + size - root) % size ∧ (q + size - root) % size =
        kntreeParent (initDegree size degree) ((c + size - root) % size) := by
  have hd : 1 < initDegree size degree := one_lt_initDegree hsize
  have htree : RankTree size (kntreeParent (initDegree size degree))
      fun v => childrenOf size (initDegree size degree) v leftmost := rankTree_kntree hd
  have hmem := htree.mem ((q + size - root) % size)
  rw [treeChildren, List.mem_map]
  constructor
  · rintro ⟨v, hv, rfl⟩
    obtain ⟨hpos, hlt, hparent⟩ := (hmem v).mp hv
    rw [vMyrank_real hroot hlt]
    exact ⟨hpos, hparent⟩
  · rintro ⟨hpos, hparent⟩
    exact ⟨_, (hmem _).mpr ⟨hpos, Nat.mod_lt _ (by omega), hparent⟩, real_vMyrank hroot hc⟩

/-- If the iterators of all ranks come to their ends, nothing overflows. -/
theorem fits_of_enumerates (hsize : 2 ≤ size) (hroot : root < size)
    (h : ∀ q < size, ∃ iter cs, initInt size degree root q true = some iter ∧
      iter.Enumerates cs) : TreeFits size degree root := by
  have hd : 1 < initDegree size degree := one_lt_initDegree hsize
  refine ⟨?_, ?_, ?_⟩
  · -- the root finds the end of its sub-tree
    obtain ⟨iter, cs, hiter, -⟩ := h root hroot
    obtain ⟨-, -, hfind, -⟩ := initInt_cases hiter
    rw [Nat.add_sub_cancel_left, Nat.mod_self, ← pow_zero (initDegree size degree)] at hfind
    exact lt_of_findParentInt_zero hd (Nat.zero_add _).symm hfind (by rw [pow_zero]; decide)
  · -- the last rank, counted from the root, is a child of some rank
    have hlast : (size - 1 + root) % size < size := Nat.mod_lt _ (by omega)
    have hup := kntreeParent_lt hd (by omega : 0 < size - 1)
    obtain ⟨iter, cs, hiter, henum⟩ := h _ (Nat.mod_lt
      (kntreeParent (initDegree size degree) (size - 1) + root) (by omega : 0 < size))
    have hmem : (size - 1 + root) % size ∈ cs := by
      rw [henum.eq_treeChildren hsize hiter, mem_treeChildren hsize hroot hlast,
        vMyrank_real hroot (by omega), vMyrank_real hroot (by omega)]
      exact ⟨by omega, rfl⟩
    obtain ⟨-, rfl, -, hsum⟩ := initInt_cases hiter
    obtain ⟨v, hv, hlt, heq⟩ := (henum.fromSum hsum).2 _ hmem _ rfl
    rw [init_base _ _ _ hd (by omega)] at hv hlt heq
    dsimp only [baseOf] at hv hlt heq
    have hnum := vMyrank_real hroot (by omega : size - 1 < size)
    rw [heq, vMyrank_real hroot hv] at hnum
    omega
  · -- the rank before the root's number is the farthest from it
    obtain ⟨iter, cs, hiter, -⟩ := h (size - 1) (by omega)
    have hturn := (initInt_cases hiter).1
    omega

/-- If the iterators describe a tree, nothing overflows. -/
theorem IntTree.fits {parent : ℕ → Option ℕ} {children : Bool → ℕ → List ℕ} (hsize : 2 ≤ size)
    (hroot : root < size) (h : IntTree size degree root parent children) :
    TreeFits size degree root :=
  fits_of_enumerates hsize hroot fun q hq => by
    obtain ⟨iter, hiter, -, henum⟩ := h.init q hq true
    exact ⟨iter, _, hiter, henum⟩

end Tree

/-- For every root and every degree the iterators of all ranks describe one tree exactly if no `int`
    overflows. -/
theorem intTree_iff {size degree root : ℕ} (hsize : 2 ≤ size) (hroot : root < size) :
    (∃ parent children, IntTree size degree root parent children) ↔ TreeFits size degree root :=
  ⟨fun ⟨_, _, h⟩ => h.fits hsize hroot, fun h => ⟨_, _, intTree_of_fits hsize hroot h⟩⟩

/-- Ten ranks in a tree of degree four around rank one. -/
theorem intTree_ten : ∃ parent children, IntTree 10 4 1 parent children :=
  (intTree_iff (by decide) (by decide)).mpr (by decide)

/-- A degree one below the number of ranks: the sub-tree of the root gets too big for an `int`. -/
theorem no_intTree : ¬∃ parent children, IntTree 46342 46341 0 parent children := by
  rintro ⟨parent, children, h⟩
  have hfit := h.fits (by decide) (by decide)
  revert hfit
  decide

end KntreeIter

end Kucg.Algo
