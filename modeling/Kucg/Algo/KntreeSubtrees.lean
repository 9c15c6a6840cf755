import Kucg.Algo.KntreeInt
import Mathlib.Logic.Relation

/-! The sub-trees of the k-nomial tree, and `ucg_algo_kntree_get_subtree_size`.

    Counted from the root, the rank `v` and the ranks below it are the next `d ^ h` numbers from `v`
    on, where `h` is the number of levels on which `v` has children, as far as there are ranks
    (`KntreeIter.Spans`). Downwards this is seen from rank to rank: the sub-tree of a rank below `v`
    is smaller than that of `v`, so its numbers are a part of theirs. Upwards it is the parent of a
    number of the interval that is again one of it, as both ends of the interval are multiples of
    the sub-tree in between.

    The function that counts the ranks calls itself for every child. It returns since children have
    bigger numbers than their parents, and the sizes that it adds make up the interval level by
    level (`sum_kntreeRest`). In numbers of type `int` all of this needs what the tree itself needs
    (`KntreeIter.subtreeSizes_iff`). -/

namespace Kucg.Algo

open Kucg.Lib

/-! ### The numbers below a number -/

/-- The number of ranks in the sub-tree of `v`, if there were no end of the ranks. -/
noncomputable def kntreeWidth (size d v : ℕ) : ℕ := d ^ kntreeHeight size d v

/-- The numbers of an interval from `v` on that ends with the ranks. -/
def cutInterval (size : ℕ) (width : ℕ → ℕ) (v : ℕ) : Finset ℕ :=
  Finset.Ico v (min (v + width v) size)

section Width

variable {size d v w : ℕ}

theorem mem_cutInterval {width : ℕ → ℕ} :
    w ∈ cutInterval size width v ↔ (v ≤ w ∧ w < v + width v) ∧ w < size := by
  rw [cutInterval, Finset.mem_Ico, lt_min_iff, and_assoc]

theorem card_cutInterval {width : ℕ → ℕ} :
    (cutInterval size width v).card = min (v + width v) size - v := Nat.card_Ico ..

variable (size v) in
theorem kntreeWidth_pos (hd : 1 < d) : 0 < kntreeWidth size d v := Nat.pow_pos (by omega)

theorem kntreeWidth_dvd (hd : 1 < d) : kntreeWidth size d v ∣ v :=
  pow_dvd_of_le_kntreeHeight hd le_rfl

/-- All ranks are below the root. -/
theorem le_kntreeWidth_zero (hd : 1 < d) : size ≤ kntreeWidth size d 0 := by
  rw [kntreeWidth, kntreeHeight, if_pos rfl]
  exact Nat.le_pow_clog hd size

theorem kntreeHeight_add_mul {e j : ℕ} (hj : 0 < j) (hjd : j < d) (hdvd : d ^ (e + 1) ∣ v) :
    kntreeHeight size d (v + d ^ e * j) = e := by
  have hpos : 0 < d ^ e * j := Nat.mul_pos (Nat.pow_pos (by omega)) hj
  rw [kntreeHeight, if_neg (by omega), multiplicity_add_mul hj hjd hdvd]

/-- In the interval of `v` the biggest sub-tree is that of `v`, and the others are in line with
    it. -/
theorem pow_succ_dvd_of_mem (hd : 1 < d) (hvw : v < w) (hlt : w < v + kntreeWidth size d v) :
    d ^ (multiplicity d w + 1) ∣ v := by
  refine pow_dvd_of_le_kntreeHeight hd (Nat.succ_le_of_lt (?_ : _ < kntreeHeight size d v))
  by_contra hle
  have hw : kntreeWidth size d v ∣ w :=
    (pow_multiplicity_dvd hd (by omega)).mpr (Nat.not_lt.mp hle)
  have hgap : kntreeWidth size d v ∣ w - v := Nat.dvd_sub hw (kntreeWidth_dvd hd)
  have := Nat.le_of_dvd (by omega) hgap
  omega

/-- The sub-tree of a number of the interval ends within the interval. -/
theorem add_kntreeWidth_le (hd : 1 < d) (hvw : v ≤ w) (hlt : w < v + kntreeWidth size d v) :
    w + kntreeWidth size d w ≤ v + kntreeWidth size d v := by
  rcases hvw.eq_or_lt with rfl | hvw
  · exact le_rfl
  have hdvd : d ^ (multiplicity d w + 1) ∣ v := pow_succ_dvd_of_mem hd hvw hlt
  have hwidth : kntreeWidth size d w = d ^ multiplicity d w := by
    rw [kntreeWidth, kntreeHeight, if_neg (by omega)]
  have hv : d ^ multiplicity d w ∣ v := (pow_dvd_pow d (Nat.le_succ _)).trans hdvd
  have hw : d ^ multiplicity d w ∣ w := hwidth ▸ kntreeWidth_dvd hd
  have hpow : d ^ multiplicity d w ∣ kntreeWidth size d v := by
    have hle : d ^ multiplicity d w < kntreeWidth size d v :=
      (Nat.le_of_dvd (by omega) (Nat.dvd_sub hw hv)).trans_lt (by omega)
    exact pow_dvd_pow d ((Nat.pow_lt_pow_iff_right hd).mp hle).le
  -- what is left of the interval behind `w` is a multiple of the sub-tree of `w`
  have hgap : d ^ multiplicity d w ∣ v + kntreeWidth size d v - w :=
    Nat.dvd_sub (Dvd.dvd.add hv hpow) hw
  have := Nat.le_of_dvd (by omega) hgap
  omega

/-- A child of a number of the interval is in the interval. -/
theorem child_mem_interval (hd : 1 < d) (hvw : v ≤ w) (hlt : w < v + kntreeWidth size d v) {c : ℕ}
    (hc : c ∈ kntreeChildren size d w) : v ≤ c ∧ c < v + kntreeWidth size d v := by
  have hup := kntreeRest_lt (by omega) hc
  have hle := add_kntreeWidth_le hd hvw hlt
  obtain ⟨hpos, -, hparent⟩ := (mem_kntreeChildren hd).mp hc
  have hdown := kntreeParent_lt hd hpos
  rw [kntreeWidth] at hle
  omega

/-- The parent of another number of the interval than its first one is in the interval. -/
theorem parent_mem_interval (hd : 1 < d) (hvw : v < w) (hlt : w < v + kntreeWidth size d v) :
    v ≤ kntreeParent d w ∧ kntreeParent d w < v + kntreeWidth size d v := by
  have hdown := kntreeParent_lt hd (by omega : 0 < w)
  obtain ⟨q, hq⟩ := pow_succ_dvd_of_mem hd hvw hlt
  refine ⟨?_, by omega⟩
  have hs : 0 < d ^ (multiplicity d w + 1) := Nat.pow_pos (by omega)
  rw [kntreeParent]
  generalize d ^ (multiplicity d w + 1) = s at *
  have hle : q ≤ w / s := (Nat.le_div_iff_mul_le hs).mpr (by rw [Nat.mul_comm]; omega)
  calc v = q * s := by rw [hq, Nat.mul_comm]
    _ ≤ w / s * s := Nat.mul_le_mul_right s hle

end Width

/-! ### The sizes of the sub-trees -/

section Sizes

variable {size d v : ℕ}

variable (size) in
/-- The sub-trees of the children on a level, from the `idx`-th on. -/
theorem sum_kntreeLevel (hd : 1 < d) {e : ℕ} (hdvd : d ^ (e + 1) ∣ v) :
    ∀ (k : ℕ) {idx : ℕ}, 0 < idx → idx + k = d →
      ((kntreeLevel size d v e idx).map fun c => (cutInterval size (kntreeWidth size d) c).card).sum
        = min (v + d ^ (e + 1)) size - min (v + d ^ e * idx) size := by
  intro k
  induction k with
  | zero =>
    rintro idx - rfl
    rw [kntreeLevel_end (by omega), List.map_nil, List.sum_nil, pow_succ, Nat.add_zero,
      Nat.sub_self]
  | succ k ih =>
    intro idx hidx hk
    have hrest := ih (by omega : 0 < idx + 1) (by omega)
    have hnext : d ^ e * (idx + 1) = d ^ e * idx + d ^ e := Nat.mul_succ ..
    have hpow : d ^ e * (idx + 1) ≤ d ^ (e + 1) := by
      rw [pow_succ]
      exact Nat.mul_le_mul_left _ (by omega)
    rw [kntreeLevel_succ (by omega)]
    split_ifs with hlt
    · have hwidth : kntreeWidth size d (v + d ^ e * idx) = d ^ e := by
        rw [kntreeWidth, kntreeHeight_add_mul hidx (by omega) hdvd]
      rw [List.map_cons, List.sum_cons, hrest, card_cutInterval, hwidth]
      omega
    · rw [hrest]
      omega

/-- The rank itself and the sub-trees of its children with less than `d ^ E` ranks. -/
theorem sum_kntreeRest (hd : 1 < d) (hv : v < size) : ∀ {E : ℕ}, d ^ E ∣ v →
    1 + ((kntreeRest size d v E 1).map fun c =>
      (cutInterval size (kntreeWidth size d) c).card).sum = min (v + d ^ E) size - v
  | 0, _ => by
    rw [kntreeRest, List.map_nil, List.sum_nil, pow_zero]
    omega
  | E + 1, hdvd => by
    have ih := sum_kntreeRest hd hv (E := E) ((pow_dvd_pow d (Nat.le_succ E)).trans hdvd)
    have hlevel := sum_kntreeLevel size hd hdvd (d - 1) one_pos (by omega)
    have hpow : d ^ E ≤ d ^ (E + 1) := Nat.pow_le_pow_right (by omega) (Nat.le_succ E)
    rw [kntreeRest, List.map_append, List.sum_append, hlevel, Nat.mul_one]
    omega

/-- The sub-trees of the children and the rank itself are the sub-tree of the rank. -/
theorem sum_kntreeChildren (hd : 1 < d) (hv : v < size) :
    1 + ((kntreeChildren size d v).map fun c =>
      (cutInterval size (kntreeWidth size d) c).card).sum =
        (cutInterval size (kntreeWidth size d) v).card := by
  rw [card_cutInterval]
  exact sum_kntreeRest hd hv (kntreeWidth_dvd hd)

end Sizes

namespace KntreeIter

/-! ### The function that counts the ranks -/

mutual

/-- `ucg_algo_kntree_get_subtree_size`, for at most `fuel` calls and steps one inside the other. -/
def getSubtreeSizeInt : ℕ → KntreeIter → ℕ → Option ℕ
  | 0, _, _ => none
  | fuel + 1, iter, rank =>
    match initInt iter.size iter.degree iter.root rank true with
    | none => none
    | some innerIter => countSubtrees fuel innerIter 1

/-- Its loop over the children of `innerIter`. -/
def countSubtrees : ℕ → KntreeIter → ℕ → Option ℕ
  | 0, _, _ => none
  | fuel + 1, innerIter, count =>
    match innerIter.child with
    | none => some count
    | some peer =>
      match getSubtreeSizeInt fuel innerIter peer with
      | none => none
      | some peerSize =>
        if intLimit ≤ count + peerSize then none
        else match innerIter.childIncInt with
          | none => none
          | some next => countSubtrees fuel next (count + peerSize)

end

/-- The function returns `s` for `rank`. -/
def Returns (iter : KntreeIter) (rank s : ℕ) : Prop :=
  ∃ fuel, getSubtreeSizeInt fuel iter rank = some s

mutual

/-- More fuel does not change what is returned. -/
theorem getSubtreeSizeInt_mono : ∀ {fuel more : ℕ} {iter : KntreeIter} {rank s : ℕ},
    fuel ≤ more → getSubtreeSizeInt fuel iter rank = some s →
      getSubtreeSizeInt more iter rank = some s
  | 0, _, _, _, _, _, h => absurd h (by simp [getSubtreeSizeInt])
  | fuel + 1, 0, _, _, _, hle, _ => absurd hle (by omega)
  | fuel + 1, more + 1, iter, rank, s, hle, h => by
    rw [getSubtreeSizeInt] at h ⊢
    rcases hinit : initInt iter.size iter.degree iter.root rank true with _ | innerIter
    · rw [hinit] at h
      exact absurd h (by simp)
    · rw [hinit] at h
      exact countSubtrees_mono (Nat.le_of_succ_le_succ hle) h

theorem countSubtrees_mono : ∀ {fuel more : ℕ} {iter : KntreeIter} {count s : ℕ},
    fuel ≤ more → countSubtrees fuel iter count = some s → countSubtrees more iter count = some s
  | 0, _, _, _, _, _, h => absurd h (by simp [countSubtrees])
  | fuel + 1, 0, _, _, _, hle, _ => absurd hle (by omega)
  | fuel + 1, more + 1, iter, count, s, hle, h => by
    have hle' : fuel ≤ more := Nat.le_of_succ_le_succ hle
    rw [countSubtrees] at h ⊢
    rcases hchild : iter.child with _ | peer
    · rw [hchild] at h
      exact h
    rw [hchild] at h
    dsimp only at h ⊢
    rcases hpeer : getSubtreeSizeInt fuel iter peer with _ | peerSize
    · rw [hpeer] at h
      exact absurd h (by simp)
    rw [hpeer] at h
    rw [getSubtreeSizeInt_mono hle' hpeer]
    dsimp only at h ⊢
    split_ifs at h ⊢ with hover
    rcases hinc : iter.childIncInt with _ | next
    · rw [hinc] at h
      exact absurd h (by simp)
    · rw [hinc] at h
      exact countSubtrees_mono hle' h

end

/-- So there is one result. -/
theorem Returns.unique {iter : KntreeIter} {rank s s' : ℕ} (h : iter.Returns rank s)
    (h' : iter.Returns rank s') : s = s' := by
  obtain ⟨fuel, h⟩ := h
  obtain ⟨fuel', h'⟩ := h'
  have hmax := getSubtreeSizeInt_mono (le_max_left fuel fuel') h
  exact Option.some.inj (hmax.symm.trans (getSubtreeSizeInt_mono (le_max_right fuel fuel') h'))

/-- The loop over the children adds what the calls for them return. -/
theorem exists_countSubtrees (width : ℕ → ℕ) : ∀ {cs : List ℕ} {iter : KntreeIter} (count : ℕ),
    iter.Enumerates cs → (∀ last, Visits iter last → ∀ c ∈ cs, last.Returns c (width c)) →
      count + (cs.map width).sum < intLimit →
        ∃ fuel, countSubtrees fuel iter count = some (count + (cs.map width).sum)
  | [], _, count, henum, _, _ => by
    refine ⟨1, ?_⟩
    rw [Enumerates] at henum
    rw [countSubtrees, henum, List.map_nil, List.sum_nil, Nat.add_zero]
  | c :: cs, iter, count, ⟨hchild, next, hinc, hrest⟩, hreturns, hlt => by
    rw [List.map_cons, List.sum_cons] at hlt ⊢
    obtain ⟨fuel, hpeer⟩ := hreturns iter (.start iter) c List.mem_cons_self
    obtain ⟨fuel', hloop⟩ := exists_countSubtrees width (count + width c) hrest
      (fun last hvisits c' hc => hreturns last (.inc hchild hinc hvisits) c'
        (List.mem_cons_of_mem _ hc)) (by omega)
    refine ⟨max fuel fuel' + 1, ?_⟩
    rw [countSubtrees, hchild]
    dsimp only
    rw [getSubtreeSizeInt_mono (le_max_left fuel fuel') hpeer]
    dsimp only
    rw [if_neg (by omega), hinc]
    dsimp only
    rw [countSubtrees_mono (le_max_right fuel fuel') hloop, Nat.add_assoc]

/-! ### The sub-trees of the ranks -/

/-- The iterator of rank `p` has `c` among its children. -/
def IsChild (size degree root p c : ℕ) : Prop :=
  ∃ iter cs, initInt size degree root p true = some iter ∧ iter.Enumerates cs ∧ c ∈ cs

/-- Rank `q` is rank `p`, or one of the ranks below it. -/
def Below (size degree root : ℕ) : ℕ → ℕ → Prop := Relation.ReflTransGen (IsChild size degree root)

/-- The ranks below each rank have the numbers of an interval from its own on, which is cut at the
    number of ranks; the function returns how many they are, whichever iterator it is given, and
    the children of a rank have one less than the rank itself. -/
structure SubtreeSizes (size degree root : ℕ) (width : ℕ → ℕ) : Prop where
  below : ∀ p < size, ∀ q, Below size degree root p q ↔ q < size ∧
    (q + size - root) % size ∈ cutInterval size width ((p + size - root) % size)
  returns : ∀ p < size, ∀ leftmost iter last, initInt size degree root p leftmost = some iter →
    Visits iter last → ∀ q < size,
      last.Returns q (cutInterval size width ((q + size - root) % size)).card
  children : ∀ p < size, ∀ leftmost, ∃ iter cs,
    initInt size degree root p leftmost = some iter ∧ iter.Enumerates cs ∧
      (cutInterval size width ((p + size - root) % size)).card =
        1 + (cs.map fun c => (cutInterval size width ((c + size - root) % size)).card).sum

section Subtrees

variable {size degree root p q : ℕ}

/-- The children of a rank are the ranks whose parent's number is its own. -/
theorem isChild_iff (hsize : 2 ≤ size) (hroot : root < size) (hfit : TreeFits size degree root)
    (hp : p < size) : IsChild size degree root p q ↔ q < size ∧ 0 < (q + size - root) % size ∧
      (p + size - root) % size =
        kntreeParent (initDegree size degree) ((q + size - root) % size) := by
  obtain ⟨iter, hiter, -, henum⟩ := (intTree_of_fits hsize hroot hfit).init p hp true
  have hlt := ((intTree_of_fits hsize hroot hfit).tree true).children_lt p hp
  constructor
  · rintro ⟨iter', cs, hiter', henum', hq⟩
    rw [henum'.eq_treeChildren hsize hiter'] at hq
    exact ⟨hlt q hq, (mem_treeChildren hsize hroot (hlt q hq)).mp hq⟩
  · rintro ⟨hq, hparent⟩
    exact ⟨iter, _, hiter, henum, (mem_treeChildren hsize hroot hq).mpr hparent⟩

/-- The ranks below a rank have the numbers of an interval. -/
theorem below_iff (hsize : 2 ≤ size) (hroot : root < size) (hfit : TreeFits size degree root)
    (hp : p < size) : Below size degree root p q ↔ q < size ∧ (q + size - root) % size ∈
      cutInterval size (kntreeWidth size (initDegree size degree)) ((p + size - root) % size) := by
  have hd : 1 < initDegree size degree := one_lt_initDegree hsize
  constructor
  · intro h
    induction h with
    | refl =>
      have hpos := kntreeWidth_pos size ((p + size - root) % size) hd
      exact ⟨hp, mem_cutInterval.mpr ⟨⟨le_rfl, by omega⟩, Nat.mod_lt _ (by omega)⟩⟩
    | @tail b c _ hchild ih =>
      obtain ⟨hb, hmem⟩ := ih
      obtain ⟨⟨hle, hlt⟩, -⟩ := mem_cutInterval.mp hmem
      obtain ⟨hc, hpos, hparent⟩ := (isChild_iff hsize hroot hfit hb).mp hchild
      have hcsize : (c + size - root) % size < size := Nat.mod_lt _ (by omega)
      have hin := child_mem_interval hd hle hlt
        ((mem_kntreeChildren hd).mpr ⟨hpos, hcsize, hparent⟩)
      exact ⟨hc, mem_cutInterval.mpr ⟨hin, hcsize⟩⟩
  · rintro ⟨hq, hmem⟩
    -- from the number of `q` up to its parent, as long as it is not the first one
    obtain ⟨⟨hle, hlt⟩, -⟩ := mem_cutInterval.mp hmem
    clear hmem
    generalize hw : (q + size - root) % size = w at hle hlt
    induction w using Nat.strong_induction_on generalizing q with
    | _ w ih =>
      rcases hle.eq_or_lt with heq | hgt
      · have hqp : q = p := by rw [← real_vMyrank hroot hq, hw, ← heq, real_vMyrank hroot hp]
        exact hqp ▸ Relation.ReflTransGen.refl
      · obtain ⟨hle', hlt'⟩ := parent_mem_interval hd hgt hlt
        have hup := kntreeParent_lt hd (by omega : 0 < w)
        have hwsize : w < size := hw ▸ Nat.mod_lt _ (by omega)
        have hnum := vMyrank_real (v := kntreeParent (initDegree size degree) w) hroot (by omega)
        have hreal := Nat.mod_lt (kntreeParent (initDegree size degree) w + root)
          (by omega : 0 < size)
        refine (ih _ hup hreal hnum hle' hlt').tail ?_
        rw [isChild_iff hsize hroot hfit hreal, hnum, hw]
        exact ⟨hq, by omega, rfl⟩

/-- A clamped degree stays as it is. -/
theorem initDegree_initDegree (hsize : 2 ≤ size) :
    initDegree size (initDegree size degree) = initDegree size degree := by
  simp only [initDegree]
  split_ifs <;> omega

variable (degree p) in
/-- The children of rank `p` have one rank less below them than the rank itself. -/
theorem sum_treeChildren (leftmost : Bool) (hsize : 2 ≤ size) (hroot : root < size) :
    (cutInterval size (kntreeWidth size (initDegree size degree)) ((p + size - root) % size)).card =
      1 + ((treeChildren size degree root leftmost p).map fun c =>
        (cutInterval size (kntreeWidth size (initDegree size degree))
          ((c + size - root) % size)).card).sum := by
  have hd : 1 < initDegree size degree := one_lt_initDegree hsize
  have hperm : (childrenOf size (initDegree size degree) ((p + size - root) % size) leftmost).Perm
      (kntreeChildren size (initDegree size degree) ((p + size - root) % size)) := by
    rw [childrenOf]
    split_ifs
    · exact List.Perm.refl _
    · exact List.reverse_perm _
  rw [← sum_kntreeChildren hd (Nat.mod_lt _ (by omega)), treeChildren, List.map_map,
    ← (hperm.map _).sum_eq]
  congr 2
  refine List.map_congr_left fun c hc => ?_
  have hlt : c < size := (mem_kntreeRest.mp (hperm.mem_iff.mp hc)).1
  rw [Function.comp_apply, vMyrank_real hroot hlt]

/-- What the function returns, from the last number to the first. -/
theorem returns_card (hsize : 2 ≤ size) (hroot : root < size) (hfit : TreeFits size degree root)
    (hq : q < size) {iter : KntreeIter} (hs : iter.size = size)
    (hdeg : iter.degree = initDegree size degree) (hr : iter.root = root) :
    iter.Returns q (cutInterval size (kntreeWidth size (initDegree size degree))
      ((q + size - root) % size)).card := by
  generalize hk : size - (q + size - root) % size = k
  induction k using Nat.strong_induction_on generalizing q iter with
  | _ k ih =>
    have hd : 1 < initDegree size degree := one_lt_initDegree hsize
    obtain ⟨innerIter, hinit, -, henum⟩ := (intTree_of_fits hsize hroot hfit).init q hq true
    have hlt := ((intTree_of_fits hsize hroot hfit).tree true).children_lt q hq
    have hsum := sum_treeChildren degree q true hsize hroot
    have hcard : (cutInterval size (kntreeWidth size (initDegree size degree))
        ((q + size - root) % size)).card ≤ size := by
      rw [card_cutInterval]
      omega
    obtain ⟨fuel, hloop⟩ := exists_countSubtrees (fun c => (cutInterval size
      (kntreeWidth size (initDegree size degree)) ((c + size - root) % size)).card) 1 henum
      (fun last hvisits c hc => by
        have hbase : last.toKntreeBase = _ :=
          ((initInt_eq true hsize hq hroot hfit).2.visits
            (Option.some.inj (hinit.symm.trans (initInt_eq true hsize hq hroot hfit).1) ▸
              hvisits)).2.trans (init_base root q true hd (by omega))
        obtain ⟨hpos, hparent⟩ := (mem_treeChildren hsize hroot (hlt c hc)).mp hc
        have hup := kntreeParent_lt hd hpos
        have hcsize : (c + size - root) % size < size := Nat.mod_lt _ (by omega)
        exact ih (size - (c + size - root) % size) (by omega) (hlt c hc)
          (congrArg KntreeBase.size hbase) (congrArg KntreeBase.degree hbase)
          (congrArg KntreeBase.root hbase) rfl)
      (by
        have := hfit.2.1
        have := hfit.2.2
        omega)
    refine ⟨fuel + 1, ?_⟩
    have hinit' : initInt iter.size iter.degree iter.root q true = some innerIter := by
      rw [hs, hdeg, hr, ← hinit, initInt, initInt, initDegree_initDegree hsize]
    rw [getSubtreeSizeInt, hinit', hsum]
    exact hloop

/-- The sub-trees are intervals of the right size as long as nothing overflows. -/
theorem subtreeSizes_of_fits (hsize : 2 ≤ size) (hroot : root < size)
    (hfit : TreeFits size degree root) :
    SubtreeSizes size degree root (kntreeWidth size (initDegree size degree)) where
  below p hp q := below_iff hsize hroot hfit hp
  returns p hp leftmost iter last hiter hvisits q hq := by
    have hd : 1 < initDegree size degree := one_lt_initDegree hsize
    obtain ⟨hinit, hfits⟩ := initInt_eq leftmost hsize hp hroot hfit
    obtain rfl := Option.some.inj (hinit.symm.trans hiter)
    have hbase := (hfits.visits hvisits).2.trans (init_base root p leftmost hd (by omega))
    exact returns_card hsize hroot hfit hq (congrArg KntreeBase.size hbase)
      (congrArg KntreeBase.degree hbase) (congrArg KntreeBase.root hbase)
  children p hp leftmost := by
    obtain ⟨iter, hiter, -, henum⟩ := (intTree_of_fits hsize hroot hfit).init p hp leftmost
    exact ⟨iter, _, hiter, henum, sum_treeChildren degree p leftmost hsize hroot⟩

/-- If the children of all ranks can be counted, nothing overflows. -/
theorem SubtreeSizes.fits {width : ℕ → ℕ} (hsize : 2 ≤ size) (hroot : root < size)
    (h : SubtreeSizes size degree root width) : TreeFits size degree root :=
  fits_of_enumerates hsize hroot fun q hq => by
    obtain ⟨iter, cs, hiter, henum, -⟩ := h.children q hq true
    exact ⟨iter, cs, hiter, henum⟩

end Subtrees

/-- For every root and every degree the ranks below each rank are an interval whose size the
    function returns exactly if no `int` overflows. -/
theorem subtreeSizes_iff {size degree root : ℕ} (hsize : 2 ≤ size) (hroot : root < size) :
    (∃ width, SubtreeSizes size degree root width) ↔ TreeFits size degree root :=
  ⟨fun ⟨_, h⟩ => h.fits hsize hroot, fun h => ⟨_, subtreeSizes_of_fits hsize hroot h⟩⟩

/-- Ten ranks in a tree of degree three around rank one. -/
theorem subtreeSizes_ten : ∃ width, SubtreeSizes 10 3 1 width :=
  (subtreeSizes_iff (by decide) (by decide)).mpr (by decide)

/-- The sub-tree of rank 3 in the tree of degree three around rank 0 has the ranks 3, 4 and 5, and
    that of rank 9 has no other rank. -/
example : (init 10 3 0 0 true).child = some 9 ∧
    getSubtreeSizeInt 9 (init 10 3 0 0 true) 3 = some 3 ∧
    getSubtreeSizeInt 9 (init 10 3 0 0 true) 9 = some 1 := by decide +kernel

/-- A degree one below the number of ranks: the sub-tree of the root gets too big for an `int`. -/
theorem no_subtreeSizes : ¬∃ width, SubtreeSizes 46342 46341 0 width := by
  rintro ⟨width, h⟩
  have hfit := h.fits (by decide) (by decide)
  revert hfit
  decide


end KntreeIter

end Kucg.Algo
