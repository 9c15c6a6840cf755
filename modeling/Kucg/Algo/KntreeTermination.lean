import Kucg.Algo.KntreeInt

/-! When the k-nomial tree iterator comes to its end.

    The loops of `ucg_kntree.c` are run here for as many passes as there is fuel, and stop at an
    overflow of an `int` and at a division by zero. With a degree of two or more each pass of the
    outer loops makes the sub-tree smaller or bigger, so enough fuel gives what the functions in
    numbers of type `int` do, and the only question is which numbers are computed on the way: the
    size of each sub-tree of the rank times the degree, the parent, and all numbers of the level of
    a child even if there is no such rank (`KntreeIter.finishes_iff`).

    In a tree of one rank the degree is clamped to one, unless it was one already, and then the loop
    for the leftmost sub-trees never ends: a sub-tree of one rank has a part of one rank. -/

namespace Kucg.Algo

open Kucg.Lib

/-- What can go wrong in a computation: an `int` overflows, a divisor is zero, or the loop is not at
    its end when the fuel is used up. -/
inductive Fault where
  | overflow | zero | fuel
  deriving DecidableEq, Repr

namespace KntreeIter

/-! ### The loops, pass by pass -/

/-- `ucg_algo_kntree_iter_update_kntree_leftmost`: a pass of either loop for each unit of fuel. -/
def runLeftmost : ℕ → KntreeIter → Except Fault KntreeIter
  | 0, _ => .error .fuel
  | fuel + 1, iter =>
    if iter.degree = 0 then .error .zero
    else if 0 < iter.subsize / iter.degree then
      if iter.childIdx < iter.degree then
        let child := iter.myrank + iter.subsize / iter.degree * iter.childIdx
        if intLimit ≤ child then .error .overflow
        else if child < iter.size then
          if intLimit ≤ child + iter.root then .error .overflow
          else .ok { iter with child := some ((child + iter.root) % iter.size) }
        else runLeftmost fuel { iter with childIdx := iter.childIdx + 1 }
      else runLeftmost fuel { iter with subsize := iter.subsize / iter.degree, childIdx := 1 }
    else .ok { iter with child := none }

/-- `ucg_algo_kntree_iter_update_kntree_rightmost`. -/
def runRightmost : ℕ → KntreeIter → Except Fault KntreeIter
  | 0, _ => .error .fuel
  | fuel + 1, iter =>
    if iter.subsize < iter.maxSubsize then
      if iter.childIdx < iter.degree then
        let child := iter.myrank + iter.subsize * (iter.degree - iter.childIdx)
        if intLimit ≤ child then .error .overflow
        else if child < iter.size then
          if intLimit ≤ child + iter.root then .error .overflow
          else .ok { iter with child := some ((child + iter.root) % iter.size) }
        else runRightmost fuel { iter with childIdx := iter.childIdx + 1 }
      else if intLimit ≤ iter.subsize * iter.degree then .error .overflow
      else runRightmost fuel { iter with subsize := iter.subsize * iter.degree, childIdx := 1 }
    else .ok { iter with child := none }

/-- `ucg_algo_kntree_iter_update`. -/
def runUpdate (fuel : ℕ) (iter : KntreeIter) : Except Fault KntreeIter :=
  if iter.leftmost then runLeftmost fuel iter else runRightmost fuel iter

/-- The loop of `ucg_algo_kntree_iter_init` that looks for the parent. -/
def runFindParent (size degree root v : ℕ) : ℕ → ℕ → Except Fault (ℕ × Option ℕ)
  | 0, _ => .error .fuel
  | fuel + 1, subsize =>
    if subsize < size then
      let next := subsize * degree
      if intLimit ≤ next then .error .overflow
      else if next = 0 then .error .zero
      else if v % next ≠ 0 then
        if intLimit ≤ v / next * next + root then .error .overflow
        else .ok (subsize, some ((v / next * next + root) % size))
      else runFindParent size degree root v fuel next
    else .ok (subsize, none)

/-- `ucg_algo_kntree_iter_init`. -/
def runInit (fuel size degree root myrank : ℕ) (leftmost : Bool) : Except Fault KntreeIter :=
  if intLimit ≤ myrank + size - root then .error .overflow
  else if size = 0 then .error .zero
  else
    let degree := initDegree size degree
    let vMyrank := (myrank + size - root) % size
    match runFindParent size degree root vMyrank fuel 1 with
    | .error fault => .error fault
    | .ok (maxSubsize, parent) => runUpdate fuel {
        size := size, degree := degree, root := root, myrank := vMyrank, leftmost := leftmost
        maxSubsize := maxSubsize, parent := parent
        subsize := if leftmost then maxSubsize else 1, childIdx := 1, child := none }

/-- `ucg_algo_kntree_iter_child_inc`. -/
def runChildInc (fuel : ℕ) (iter : KntreeIter) : Except Fault KntreeIter :=
  runUpdate fuel { iter with childIdx := iter.childIdx + 1 }

/-- A loop over the iterator sees these children, each after finitely many passes, and then the
    end. -/
def RunsThrough : KntreeIter → List ℕ → Prop
  | iter, [] => iter.child = none
  | iter, c :: cs => iter.child = some c ∧
    ∃ fuel next, iter.runChildInc fuel = .ok next ∧ next.RunsThrough cs

/-- The iterator of rank `myrank` is initialised and comes to its end. -/
def Finishes (size degree root myrank : ℕ) (leftmost : Bool) : Prop :=
  ∃ fuel iter cs, runInit fuel size degree root myrank leftmost = .ok iter ∧ iter.RunsThrough cs

/-! ### With enough fuel -/

/-- There is fuel for a pass and for what comes after it. -/
theorem exists_pass {n fuel : ℕ} (hle : n + 1 ≤ fuel) : ∃ rest, n ≤ rest ∧ fuel = rest + 1 :=
  ⟨fuel - 1, by omega, by omega⟩

section Fuel

variable {iter next : KntreeIter}

/-- What a loop returns is what the function in `int`s does. -/
theorem updateLeftmostInt_of_run (hd : 1 < iter.degree) : ∀ {fuel : ℕ},
    iter.runLeftmost fuel = .ok next → iter.updateLeftmostInt = some next := by
  intro fuel
  induction fuel generalizing iter with
  | zero =>
    intro h
    cases h
  | succ fuel ih =>
    intro h
    rw [runLeftmost, if_neg (by omega)] at h
    rw [updateLeftmostInt]
    dsimp only at h ⊢
    by_cases hgo : 0 < iter.subsize / iter.degree
    · rw [if_pos hgo] at h
      rw [dif_pos ⟨hgo, hd⟩]
      split_ifs at h ⊢
      · cases h
        rfl
      · exact ih hd h
      · exact ih hd h
    · rw [if_neg hgo] at h
      rw [dif_neg fun hboth => hgo hboth.1]
      cases h
      rfl

theorem updateRightmostInt_of_run (hd : 1 < iter.degree) (hpos : 0 < iter.subsize) :
    ∀ {fuel : ℕ}, iter.runRightmost fuel = .ok next → iter.updateRightmostInt = some next := by
  intro fuel
  induction fuel generalizing iter with
  | zero =>
    intro h
    cases h
  | succ fuel ih =>
    intro h
    rw [runRightmost] at h
    rw [updateRightmostInt]
    dsimp only at h ⊢
    by_cases hgo : iter.subsize < iter.maxSubsize
    · rw [if_pos hgo] at h
      rw [dif_pos ⟨hgo, hd, hpos⟩]
      split_ifs at h ⊢
      · cases h
        rfl
      · exact ih hd hpos h
      · exact ih hd (Nat.mul_pos hpos (by omega)) h
    · rw [if_neg hgo] at h
      rw [dif_neg fun hall => hgo hall.1]
      cases h
      rfl

/-- With enough fuel a loop returns what the function in `int`s does. -/
theorem exists_runLeftmost (hd : 1 < iter.degree) (h : iter.updateLeftmostInt = some next) :
    ∃ enough, ∀ fuel, enough ≤ fuel → iter.runLeftmost fuel = .ok next := by
  induction iter using updateLeftmostInt.induct with
  | case1 iter hgo hidx child hover =>
    rw [updateLeftmostInt, dif_pos hgo, if_pos hidx, if_pos hover] at h
    cases h
  | case2 iter hgo hidx child hover hlt hover' =>
    rw [updateLeftmostInt, dif_pos hgo, if_pos hidx, if_neg hover, if_pos hlt, if_pos hover'] at h
    cases h
  | case3 iter hgo hidx child hover hlt hover' =>
    rw [updateLeftmostInt, dif_pos hgo, if_pos hidx, if_neg hover, if_pos hlt, if_neg hover'] at h
    refine ⟨0 + 1, fun fuel hle => ?_⟩
    obtain ⟨rest, -, rfl⟩ := exists_pass hle
    rw [runLeftmost, if_neg (by omega), if_pos hgo.1, if_pos hidx, if_neg hover, if_pos hlt,
      if_neg hover', Option.some.inj h]
  | case4 iter hgo hidx child hover hlt ih =>
    rw [updateLeftmostInt, dif_pos hgo, if_pos hidx, if_neg hover, if_neg hlt] at h
    obtain ⟨enough, hrun⟩ := ih hd h
    refine ⟨enough + 1, fun fuel hle => ?_⟩
    obtain ⟨rest, hrest, rfl⟩ := exists_pass hle
    rw [runLeftmost, if_neg (by omega), if_pos hgo.1, if_pos hidx, if_neg hover, if_neg hlt]
    exact hrun rest hrest
  | case5 iter hgo hidx ih =>
    rw [updateLeftmostInt, dif_pos hgo, if_neg hidx] at h
    obtain ⟨enough, hrun⟩ := ih hd h
    refine ⟨enough + 1, fun fuel hle => ?_⟩
    obtain ⟨rest, hrest, rfl⟩ := exists_pass hle
    rw [runLeftmost, if_neg (by omega), if_pos hgo.1, if_neg hidx]
    exact hrun rest hrest
  | case6 iter hgo =>
    rw [updateLeftmostInt, dif_neg hgo] at h
    refine ⟨0 + 1, fun fuel hle => ?_⟩
    obtain ⟨rest, -, rfl⟩ := exists_pass hle
    rw [runLeftmost, if_neg (by omega), if_neg fun hpos => hgo ⟨hpos, hd⟩, Option.some.inj h]

theorem exists_runRightmost (hd : 1 < iter.degree) (hpos : 0 < iter.subsize)
    (h : iter.updateRightmostInt = some next) :
    ∃ enough, ∀ fuel, enough ≤ fuel → iter.runRightmost fuel = .ok next := by
  induction iter using updateRightmostInt.induct with
  | case1 iter hgo hidx child hover =>
    rw [updateRightmostInt, dif_pos hgo, if_pos hidx, if_pos hover] at h
    cases h
  | case2 iter hgo hidx child hover hlt hover' =>
    rw [updateRightmostInt, dif_pos hgo, if_pos hidx, if_neg hover, if_pos hlt, if_pos hover'] at h
    cases h
  | case3 iter hgo hidx child hover hlt hover' =>
    rw [updateRightmostInt, dif_pos hgo, if_pos hidx, if_neg hover, if_pos hlt, if_neg hover'] at h
    refine ⟨0 + 1, fun fuel hle => ?_⟩
    obtain ⟨rest, -, rfl⟩ := exists_pass hle
    rw [runRightmost, if_pos hgo.1, if_pos hidx, if_neg hover, if_pos hlt, if_neg hover',
      Option.some.inj h]
  | case4 iter hgo hidx child hover hlt ih =>
    rw [updateRightmostInt, dif_pos hgo, if_pos hidx, if_neg hover, if_neg hlt] at h
    obtain ⟨enough, hrun⟩ := ih hd hpos h
    refine ⟨enough + 1, fun fuel hle => ?_⟩
    obtain ⟨rest, hrest, rfl⟩ := exists_pass hle
    rw [runRightmost, if_pos hgo.1, if_pos hidx, if_neg hover, if_neg hlt]
    exact hrun rest hrest
  | case5 iter hgo hidx hover =>
    rw [updateRightmostInt, dif_pos hgo, if_neg hidx, if_pos hover] at h
    cases h
  | case6 iter hgo hidx hover ih =>
    rw [updateRightmostInt, dif_pos hgo, if_neg hidx, if_neg hover] at h
    obtain ⟨enough, hrun⟩ := ih hd (Nat.mul_pos hpos (by omega)) h
    refine ⟨enough + 1, fun fuel hle => ?_⟩
    obtain ⟨rest, hrest, rfl⟩ := exists_pass hle
    rw [runRightmost, if_pos hgo.1, if_neg hidx, if_neg hover]
    exact hrun rest hrest
  | case7 iter hgo =>
    rw [updateRightmostInt, dif_neg hgo] at h
    refine ⟨0 + 1, fun fuel hle => ?_⟩
    obtain ⟨rest, -, rfl⟩ := exists_pass hle
    rw [runRightmost, if_neg fun hlt => hgo ⟨hlt, hd, hpos⟩, Option.some.inj h]

variable (iter) in
theorem updateInt_of_run (hd : 1 < iter.degree) (hpos : 0 < iter.subsize) {fuel : ℕ}
    (h : iter.runUpdate fuel = .ok next) : iter.updateInt = some next := by
  rw [runUpdate] at h
  rw [updateInt]
  split_ifs at h ⊢
  · exact updateLeftmostInt_of_run hd h
  · exact updateRightmostInt_of_run hd hpos h

variable (iter) in
theorem exists_runUpdate (hd : 1 < iter.degree) (hpos : 0 < iter.subsize)
    (h : iter.updateInt = some next) :
    ∃ enough, ∀ fuel, enough ≤ fuel → iter.runUpdate fuel = .ok next := by
  rw [updateInt] at h
  simp only [runUpdate]
  split_ifs at h ⊢
  · exact exists_runLeftmost hd h
  · exact exists_runRightmost hd hpos h

/-- There is always a sub-tree to go on with. -/
theorem update_subsize_pos (hd : 1 < iter.degree) (hpos : 0 < iter.subsize) :
    0 < iter.update.subsize := by
  rw [update]
  split_ifs with hleft
  · clear hleft
    induction iter using KntreeIter.updateLeftmost.induct with
    | case1 iter hgo hidx child hlt =>
      rw [updateLeftmost, dif_pos hgo, if_pos hidx, if_pos hlt]
      exact hpos
    | case2 iter hgo hidx child hlt ih =>
      rw [updateLeftmost, dif_pos hgo, if_pos hidx, if_neg hlt]
      exact ih hd hpos
    | case3 iter hgo hidx ih =>
      rw [updateLeftmost, dif_pos hgo, if_neg hidx]
      exact ih hd hgo.1
    | case4 iter hgo =>
      rw [updateLeftmost, dif_neg hgo]
      exact hpos
  · clear hleft
    induction iter using KntreeIter.updateRightmost.induct with
    | case1 iter hgo hidx child hlt =>
      rw [updateRightmost, dif_pos hgo, if_pos hidx, if_pos hlt]
      exact hpos
    | case2 iter hgo hidx child hlt ih =>
      rw [updateRightmost, dif_pos hgo, if_pos hidx, if_neg hlt]
      exact ih hd hpos
    | case3 iter hgo hidx ih =>
      rw [updateRightmost, dif_pos hgo, if_neg hidx]
      exact ih hd (Nat.mul_pos hpos (by omega))
    | case4 iter hgo =>
      rw [updateRightmost, dif_neg hgo]
      exact hpos

/-- A loop over the iterator that comes to its end sees what the functions in `int`s give. -/
theorem runsThrough_iff : ∀ {cs : List ℕ} {iter : KntreeIter}, 1 < iter.degree →
    0 < iter.subsize → (iter.RunsThrough cs ↔ iter.Enumerates cs)
  | [], _, _, _ => Iff.rfl
  | c :: cs, iter, hd, hpos => by
    have hnext (next : KntreeIter) (hinc : iter.childIncInt = some next) :
        next.RunsThrough cs ↔ next.Enumerates cs := by
      obtain ⟨rfl, -⟩ := updateInt_sum hinc
      refine runsThrough_iff ?_ (update_subsize_pos hd hpos)
      rw [update_base]
      exact hd
    constructor
    · rintro ⟨hchild, fuel, next, hinc, hrest⟩
      have hinc' : iter.childIncInt = some next :=
        updateInt_of_run { iter with childIdx := iter.childIdx + 1 } hd hpos hinc
      exact ⟨hchild, next, hinc', (hnext next hinc').mp hrest⟩
    · rintro ⟨hchild, next, hinc, hrest⟩
      obtain ⟨enough, hrun⟩ :=
        exists_runUpdate { iter with childIdx := iter.childIdx + 1 } hd hpos hinc
      exact ⟨hchild, enough, next, hrun enough le_rfl, (hnext next hinc).mpr hrest⟩

end Fuel

section Init

variable {size d root v subsize : ℕ} {r : ℕ × Option ℕ}

theorem findParentInt_of_run (hd : 1 < d) (hpos : 0 < subsize) : ∀ {fuel : ℕ},
    runFindParent size d root v fuel subsize = .ok r →
      findParentInt size d root v subsize = some r := by
  intro fuel
  induction fuel generalizing subsize with
  | zero =>
    intro h
    cases h
  | succ fuel ih =>
    intro h
    have hnext : 0 < subsize * d := Nat.mul_pos hpos (by omega)
    rw [runFindParent] at h
    rw [findParentInt]
    dsimp only at h ⊢
    by_cases hgo : subsize < size
    · rw [if_pos hgo] at h
      rw [dif_pos ⟨hgo, hd, hpos⟩]
      rw [if_neg hnext.ne'] at h
      split_ifs at h ⊢
      · cases h
        rfl
      · exact ih hnext h
    · rw [if_neg hgo] at h
      rw [dif_neg fun hall => hgo hall.1]
      cases h
      rfl

theorem exists_runFindParent (hd : 1 < d) (hpos : 0 < subsize)
    (h : findParentInt size d root v subsize = some r) :
    ∃ enough, ∀ fuel, enough ≤ fuel → runFindParent size d root v fuel subsize = .ok r := by
  have hnext : 0 < subsize * d := Nat.mul_pos hpos (by omega)
  induction subsize using findParentInt.induct size d root v with
  | case1 subsize hgo next hover =>
    rw [findParentInt, dif_pos hgo, if_pos hover] at h
    cases h
  | case2 subsize hgo next hover hmod hover' =>
    rw [findParentInt, dif_pos hgo, if_neg hover, if_pos hmod, if_pos hover'] at h
    cases h
  | case3 subsize hgo next hover hmod hover' =>
    rw [findParentInt, dif_pos hgo, if_neg hover, if_pos hmod, if_neg hover'] at h
    refine ⟨0 + 1, fun fuel hle => ?_⟩
    obtain ⟨rest, -, rfl⟩ := exists_pass hle
    rw [runFindParent, if_pos hgo.1, if_neg hover, if_neg hnext.ne', if_pos hmod, if_neg hover',
      Option.some.inj h]
  | case4 subsize hgo next hover hmod ih =>
    rw [findParentInt, dif_pos hgo, if_neg hover, if_neg hmod] at h
    obtain ⟨enough, hrun⟩ := ih hnext h (Nat.mul_pos hnext (by omega))
    refine ⟨enough + 1, fun fuel hle => ?_⟩
    obtain ⟨rest, hrest, rfl⟩ := exists_pass hle
    rw [runFindParent, if_pos hgo.1, if_neg hover, if_neg hnext.ne', if_neg hmod]
    exact hrun rest hrest
  | case5 subsize hgo =>
    rw [findParentInt, dif_neg hgo] at h
    refine ⟨0 + 1, fun fuel hle => ?_⟩
    obtain ⟨rest, -, rfl⟩ := exists_pass hle
    rw [runFindParent, if_neg fun hlt => hgo ⟨hlt, hd, hpos⟩, Option.some.inj h]

end Init

/-! ### The numbers on the way -/

/-- The number of a child that is looked at, and its sum with the root if there is such a rank. -/
structure ChildFits (b : KntreeBase) (c : ℕ) : Prop where
  lt : c < intLimit
  add : c < b.size → c + b.root < intLimit

/-- The iterator can be brought to a child or to the end, and from there on through all of the
    rest. -/
def Fine (iter : KntreeIter) : Prop :=
  ∃ first cs, iter.updateInt = some first ∧ first.Enumerates cs

/-- Behind a child the loop goes on with the next index. -/
theorem exists_enumerates_iff (iter : KntreeIter) {c : ℕ} (hchild : iter.child = some c) :
    (∃ cs, iter.Enumerates cs) ↔
      ({ iter with childIdx := iter.childIdx + 1 } : KntreeIter).Fine := by
  constructor
  · rintro ⟨cs, henum⟩
    cases cs with
    | nil => exact absurd (hchild.symm.trans henum) (by simp)
    | cons c' cs =>
      obtain ⟨-, next, hinc, hrest⟩ := henum
      exact ⟨next, cs, hinc, hrest⟩
  · rintro ⟨next, cs, hinc, hrest⟩
    exact ⟨c :: cs, hchild, next, hinc, hrest⟩

/-- What the rest of the loop for the leftmost sub-trees looks at: all levels below `E`, the biggest
    one from the `idx`-th child on. -/
def RestFits (b : KntreeBase) (E idx : ℕ) : Prop :=
  ∀ e j, e < E → 0 < j → j < b.degree → (e + 1 = E → idx ≤ j) →
    ChildFits b (b.myrank + b.degree ^ e * j)

/-- What the rest of the loop for the rightmost sub-trees looks at: the levels from `e` on below
    `E`, the smallest one up to the `m`-th child. -/
def AboveFits (b : KntreeBase) (e E m : ℕ) : Prop :=
  ∀ e' j, e ≤ e' → e' < E → 0 < j → j < b.degree → (e' = e → j ≤ m) →
    ChildFits b (b.myrank + b.degree ^ e' * j)

section Loops

variable {b : KntreeBase} {e E idx m : ℕ}

theorem restFits_succ (hpos : 0 < idx) (hidx : idx < b.degree) : RestFits b (E + 1) idx ↔
    ChildFits b (b.myrank + b.degree ^ E * idx) ∧ RestFits b (E + 1) (idx + 1) := by
  constructor
  · intro h
    exact ⟨h E idx (by omega) hpos hidx fun _ => le_rfl,
      fun e j he hj hjd hle => h e j he hj hjd fun heq => by have := hle heq; omega⟩
  · rintro ⟨hchild, hrest⟩ e j he hj hjd hle
    by_cases hfirst : e = E ∧ j = idx
    · rw [hfirst.1, hfirst.2]
      exact hchild
    · refine hrest e j he hj hjd fun heq => ?_
      have := hle heq
      omega

theorem restFits_next (hidx : b.degree ≤ idx) : RestFits b (E + 1) idx ↔ RestFits b E 1 := by
  constructor
  · intro h e j he hj hjd _
    exact h e j (by omega) hj hjd fun heq => by omega
  · intro h e j he hj hjd hle
    refine h e j ?_ hj hjd fun _ => hj
    by_contra hge
    have := hle (by omega)
    omega

theorem aboveFits_succ (hE : e < E) (hm : m + 1 < b.degree) : AboveFits b e E (m + 1) ↔
    ChildFits b (b.myrank + b.degree ^ e * (m + 1)) ∧ AboveFits b e E m := by
  constructor
  · intro h
    exact ⟨h e (m + 1) le_rfl hE (by omega) hm fun _ => le_rfl,
      fun e' j he hlt hj hjd hle => h e' j he hlt hj hjd fun heq => by have := hle heq; omega⟩
  · rintro ⟨hchild, hrest⟩ e' j he hlt hj hjd hle
    by_cases hfirst : e' = e ∧ j = m + 1
    · rw [hfirst.1, hfirst.2]
      exact hchild
    · refine hrest e' j he hlt hj hjd fun heq => ?_
      have := hle heq
      omega

theorem aboveFits_next : AboveFits b e E 0 ↔ AboveFits b (e + 1) E (b.degree - 1) := by
  constructor
  · intro h e' j he hlt hj hjd _
    exact h e' j (by omega) hlt hj hjd fun heq => by omega
  · intro h e' j he hlt hj hjd hle
    refine h e' j ?_ hlt hj hjd fun _ => by omega
    by_contra hge
    have := hle (by omega)
    omega

theorem not_fine_of_none {iter : KntreeIter} (h : iter.updateInt = none) : ¬iter.Fine := by
  rintro ⟨first, cs, hfirst, -⟩
  rw [h] at hfirst
  cases hfirst

theorem fine_congr {iter iter' : KntreeIter} (h : iter.updateInt = iter'.updateInt) :
    iter.Fine ↔ iter'.Fine := by
  rw [Fine, Fine, h]

/-- A pass over one number: it has to fit, and if it is no child the loop goes on at once. -/
theorem fine_pass {iter : KntreeIter} {num : ℕ} {Rest : Prop}
    (h : iter.updateInt = if intLimit ≤ num then none
      else if num < iter.size then
        if intLimit ≤ num + iter.root then none
        else some { iter with child := some ((num + iter.root) % iter.size) }
      else ({ iter with childIdx := iter.childIdx + 1 } : KntreeIter).updateInt)
    (hrest : ∀ child, ({ iter with childIdx := iter.childIdx + 1, child := child } :
      KntreeIter).Fine ↔ Rest) :
    iter.Fine ↔ ChildFits iter.toKntreeBase num ∧ Rest := by
  by_cases hover : intLimit ≤ num
  · rw [if_pos hover] at h
    exact iff_of_false (not_fine_of_none h) fun hfits => absurd hfits.1.lt (by omega)
  rw [if_neg hover] at h
  by_cases hlt : num < iter.size
  · rw [if_pos hlt] at h
    by_cases hover' : intLimit ≤ num + iter.root
    · rw [if_pos hover'] at h
      exact iff_of_false (not_fine_of_none h) fun hfits => absurd (hfits.1.add hlt) (by omega)
    · -- the child is found, and the next call starts behind it
      rw [if_neg hover'] at h
      rw [and_iff_right ⟨by omega, fun _ => by omega⟩, ← hrest,
        ← exists_enumerates_iff { iter with child := some _ } rfl]
      constructor
      · rintro ⟨first, cs, hfirst, henum⟩
        obtain rfl := Option.some.inj (h.symm.trans hfirst)
        exact ⟨cs, henum⟩
      · rintro ⟨cs, henum⟩
        exact ⟨_, cs, h, henum⟩
  · rw [if_neg hlt] at h
    rw [fine_congr h, and_iff_right ⟨by omega, fun h => absurd h hlt⟩]
    exact hrest iter.child

/-- In the loop for the leftmost sub-trees, anywhere: it comes to its end exactly if all numbers
    that are left fit. -/
theorem fine_leftmost_iff (hleft : b.leftmost = true) (hd : 1 < b.degree) :
    ∀ (E k : ℕ) (iter : KntreeIter), iter.toKntreeBase = b → iter.subsize = b.degree ^ E →
      0 < iter.childIdx → b.degree - iter.childIdx = k →
        (iter.Fine ↔ RestFits b E iter.childIdx) := by
  intro E
  induction E with
  | zero =>
    rintro k iter rfl hsub - -
    have hstride : iter.subsize / iter.degree = 0 := by
      rw [hsub, pow_zero]
      exact Nat.div_eq_of_lt hd
    refine iff_of_true ⟨{ iter with child := none }, [], ?_, rfl⟩ fun e j he => absurd he (by omega)
    rw [updateInt, if_pos hleft, updateLeftmostInt, dif_neg (by simp [hstride])]
  | succ E ihE =>
    intro k
    have hpow : 0 < b.degree ^ E := Nat.pow_pos (by omega)
    induction k with
    | zero =>
      -- the next level
      rintro iter rfl hsub hidx hk
      have hstride : iter.subsize / iter.degree = iter.degree ^ E := by
        rw [hsub, pow_succ, Nat.mul_div_cancel _ (by omega)]
      rw [restFits_next (by omega)]
      refine (fine_congr ?_).trans
        (ihE _ { iter with subsize := iter.degree ^ E, childIdx := 1 } rfl rfl one_pos rfl)
      rw [updateInt, updateInt, if_pos hleft, if_pos hleft, updateLeftmostInt, hstride,
        dif_pos ⟨hpow, hd⟩, if_neg (by omega)]
    | succ k ihk =>
      rintro iter rfl hsub hidx hk
      have hstride : iter.subsize / iter.degree = iter.degree ^ E := by
        rw [hsub, pow_succ, Nat.mul_div_cancel _ (by omega)]
      rw [restFits_succ hidx (by omega)]
      refine fine_pass ?_ fun child => ihk
        { iter with childIdx := iter.childIdx + 1, child := child } rfl hsub
        (Nat.succ_pos _) (by dsimp only; omega)
      rw [updateInt, if_pos hleft, updateLeftmostInt, hstride, dif_pos ⟨hpow, hd⟩,
        if_pos (by omega), updateInt, if_pos hleft]

/-- In the loop for the rightmost sub-trees, anywhere. -/
theorem fine_rightmost_iff (hright : b.leftmost = false) (hd : 1 < b.degree)
    (hmax : b.maxSubsize = b.degree ^ E) (hfit : b.degree ^ E < intLimit) :
    ∀ (l k e : ℕ) (iter : KntreeIter), iter.toKntreeBase = b → e + l = E →
      iter.subsize = b.degree ^ e → 0 < iter.childIdx → b.degree - iter.childIdx = k →
        (iter.Fine ↔ AboveFits b e E (b.degree - iter.childIdx)) := by
  intro l
  induction l with
  | zero =>
    rintro k e iter rfl hE hsub - -
    have hend : ¬iter.subsize < iter.maxSubsize := by
      rw [hsub, hmax, ← hE, Nat.add_zero]
      exact lt_irrefl _
    refine iff_of_true ⟨{ iter with child := none }, [], ?_, rfl⟩
      fun e' j he hlt => absurd hlt (by omega)
    rw [updateInt, if_neg (by simp [hright]), updateRightmostInt, dif_neg fun h => hend h.1]
  | succ l ihl =>
    intro k
    induction k with
    | zero =>
      -- the next level
      rintro e iter rfl hE hsub hidx hk
      have hgo : iter.subsize < iter.maxSubsize ∧ 1 < iter.degree ∧ 0 < iter.subsize := by
        rw [hsub, hmax]
        exact ⟨Nat.pow_lt_pow_right hd (by omega), hd, Nat.pow_pos (by omega)⟩
      have hnext : iter.subsize * iter.degree = iter.degree ^ (e + 1) := by rw [hsub, pow_succ]
      have hle : iter.degree ^ (e + 1) ≤ iter.degree ^ E :=
        Nat.pow_le_pow_right (by omega) (by omega)
      rw [hk, aboveFits_next]
      refine (fine_congr ?_).trans (ihl _ (e + 1)
        { iter with subsize := iter.subsize * iter.degree, childIdx := 1 } rfl (by omega) hnext
        one_pos rfl)
      rw [updateInt, updateInt, if_neg (by simp [hright]), if_neg (by simp [hright]),
        updateRightmostInt, dif_pos hgo, if_neg (by omega), if_neg (by omega)]
    | succ k ihk =>
      rintro e iter rfl hE hsub hidx hk
      have hgo : iter.subsize < iter.maxSubsize ∧ 1 < iter.degree ∧ 0 < iter.subsize := by
        rw [hsub, hmax]
        exact ⟨Nat.pow_lt_pow_right hd (by omega), hd, Nat.pow_pos (by omega)⟩
      have hidx' : iter.degree - (iter.childIdx + 1) = k := by omega
      have hright' : ¬(iter.leftmost = true) := by simp [hright]
      rw [hk, aboveFits_succ (by omega) (by omega)]
      refine fine_pass ?_ fun child => ?_
      · rw [updateInt, if_neg hright', updateRightmostInt, dif_pos hgo, if_pos (by omega), hk,
          updateInt, if_neg hright', hsub]
      · have h := ihk e { iter with childIdx := iter.childIdx + 1, child := child } rfl hE hsub
          (Nat.succ_pos _) hidx'
        dsimp only at h
        rwa [hidx'] at h

end Loops

section Rank

variable {size d root v : ℕ}

/-- The levels on which `v` has children. -/
theorem lt_kntreeHeight_iff (hd : 1 < d) (hlt : v < size) (e : ℕ) :
    e < kntreeHeight size d v ↔ d ^ e < size ∧ d ^ (e + 1) ∣ v := by
  rw [kntreeHeight]
  split_ifs with hv
  · rw [hv, Nat.lt_clog_iff_pow_lt hd]
    exact (and_iff_left (Nat.dvd_zero _)).symm
  · have hpos := Nat.pos_of_ne_zero hv
    rw [pow_multiplicity_dvd hd hpos, Nat.succ_le_iff]
    refine (and_iff_right_of_imp fun he => ?_).symm
    exact (Nat.le_of_dvd hpos ((pow_multiplicity_dvd hd hpos).mpr he.le)).trans_lt hlt

/-- What the search for the parent computes on a level: the next bigger sub-tree, and its root if
    that is the parent. -/
structure UpFits (d root v e : ℕ) : Prop where
  next : d ^ (e + 1) < intLimit
  parent : ¬d ^ (e + 1) ∣ v → v / d ^ (e + 1) * d ^ (e + 1) + root < intLimit

variable (root) in
/-- The search for the parent, from a level on: it returns exactly if all numbers on its way up
    fit. -/
theorem findParentInt_isSome_iff (hd : 1 < d) : ∀ (k e : ℕ), size ≤ d ^ (e + k) → d ^ e ∣ v →
    ((findParentInt size d root v (d ^ e)).isSome ↔
      ∀ e', e ≤ e' → d ^ e' < size → d ^ e' ∣ v → UpFits d root v e')
  | 0, e, hle, _ => by
    rw [findParentInt, dif_neg fun h => absurd h.1 (Nat.not_lt.mpr hle)]
    refine iff_of_true rfl fun e' he hlt => ?_
    have hpow : d ^ e ≤ d ^ e' := Nat.pow_le_pow_right (by omega) he
    rw [Nat.add_zero] at hle
    omega
  | k + 1, e, hle, hdvd => by
    have ih := findParentInt_isSome_iff hd k (e + 1)
      (by rwa [Nat.add_right_comm, Nat.add_assoc])
    by_cases hlt : d ^ e < size
    · rw [findParentInt, dif_pos ⟨hlt, hd, Nat.pow_pos (by omega)⟩]
      dsimp only
      rw [← pow_succ]
      by_cases hover : intLimit ≤ d ^ (e + 1)
      · rw [if_pos hover]
        exact iff_of_false (by simp) fun h => absurd (h e le_rfl hlt hdvd).next (by omega)
      rw [if_neg hover]
      by_cases hnext : d ^ (e + 1) ∣ v
      · rw [if_neg (not_not.mpr (Nat.mod_eq_zero_of_dvd hnext)), ih hnext]
        refine ⟨fun h e' he => ?_, fun h e' he => h e' (by omega)⟩
        rcases he.eq_or_lt with rfl | he
        · exact fun _ _ => ⟨by omega, fun hnot => absurd hnext hnot⟩
        · exact h e' he
      · rw [if_pos fun h => hnext (Nat.dvd_of_mod_eq_zero h)]
        by_cases hover' : intLimit ≤ v / d ^ (e + 1) * d ^ (e + 1) + root
        · rw [if_pos hover']
          exact iff_of_false (by simp) fun h =>
            absurd ((h e le_rfl hlt hdvd).parent hnext) (by omega)
        · rw [if_neg hover']
          refine iff_of_true rfl fun e' he _ hdvd' => ?_
          rcases he.eq_or_lt with rfl | he
          · exact ⟨by omega, fun _ => by omega⟩
          · exact absurd ((pow_dvd_pow d he).trans hdvd') hnext
    · rw [findParentInt, dif_neg fun h => hlt h.1]
      refine iff_of_true rfl fun e' he hlt' => ?_
      have hpow : d ^ e ≤ d ^ e' := Nat.pow_le_pow_right (by omega) he
      omega

/-- A rank that knows its parent has seen the size of its own sub-tree. -/
theorem pow_height_lt (hd : 1 < d) (hsize : 2 ≤ size) (hlt : v < size)
    (hup : ∀ e, d ^ e < size → d ^ e ∣ v → UpFits d root v e) :
    d ^ kntreeHeight size d v < intLimit := by
  rw [kntreeHeight]
  split_ifs with hv
  · have hpos : 0 < Nat.clog d size := (Nat.lt_clog_iff_pow_lt hd).mpr (by rw [pow_zero]; omega)
    obtain ⟨k, hk⟩ : ∃ k, Nat.clog d size = k + 1 := ⟨Nat.clog d size - 1, by omega⟩
    rw [hk]
    exact (hup k ((Nat.lt_clog_iff_pow_lt hd).mp (by omega)) (hv ▸ Nat.dvd_zero _)).next
  · have hpos := Nat.pos_of_ne_zero hv
    have hdvd : d ^ multiplicity d v ∣ v := (pow_multiplicity_dvd hd hpos).mpr le_rfl
    have hnext := (hup _ ((Nat.le_of_dvd hpos hdvd).trans_lt hlt) hdvd).next
    exact (Nat.pow_le_pow_right (by omega) (Nat.le_succ _)).trans_lt hnext

/-- The numbers that the iterator of rank `myrank` computes are `int`s, and if it is alone its
    degree is not clamped to one. -/
structure RankFits (size degree root myrank : ℕ) (leftmost : Bool) : Prop where
  alone : size = 1 → leftmost = true → degree ≤ 1
  turn : myrank + size - root < intLimit
  up : ∀ e, initDegree size degree ^ e < size →
    initDegree size degree ^ e ∣ (myrank + size - root) % size →
      UpFits (initDegree size degree) root ((myrank + size - root) % size) e
  /-- All numbers on the levels of the children, and the sums of those below `size`. -/
  child : ∀ e j, initDegree size degree ^ e < size →
    initDegree size degree ^ (e + 1) ∣ (myrank + size - root) % size → 0 < j →
      j < initDegree size degree →
        (myrank + size - root) % size + initDegree size degree ^ e * j < intLimit ∧
          ((myrank + size - root) % size + initDegree size degree ^ e * j < size →
            (myrank + size - root) % size + initDegree size degree ^ e * j + root < intLimit)

variable {degree myrank : ℕ} {leftmost : Bool}

variable (root leftmost) in
/-- The loop over the children, from the initialisation on. -/
theorem fine_start_iff (hd : 1 < d) (hlt : v < size) (hfit : d ^ kntreeHeight size d v < intLimit)
    {iter : KntreeIter} (hbase : iter.toKntreeBase = baseOf size d root v leftmost)
    (hsub : iter.subsize = if leftmost then iter.maxSubsize else 1) (hidx : iter.childIdx = 1) :
    iter.Fine ↔ ∀ e j, d ^ e < size → d ^ (e + 1) ∣ v → 0 < j → j < d →
      ChildFits (baseOf size d root v leftmost) (v + d ^ e * j) := by
  have hmax : iter.maxSubsize = d ^ kntreeHeight size d v := congrArg KntreeBase.maxSubsize hbase
  have hlevel := lt_kntreeHeight_iff hd hlt
  cases leftmost with
  | true =>
    rw [if_pos rfl] at hsub
    rw [fine_leftmost_iff (b := baseOf size d root v true) rfl hd _ _ _ hbase (hsub.trans hmax)
      (by omega) rfl, hidx]
    constructor
    · intro h e j he hdvd hj hjd
      exact h e j ((hlevel e).mpr ⟨he, hdvd⟩) hj hjd fun _ => hj
    · intro h e j he hj hjd _
      obtain ⟨he, hdvd⟩ := (hlevel e).mp he
      exact h e j he hdvd hj hjd
  | false =>
    rw [if_neg Bool.false_ne_true] at hsub
    rw [fine_rightmost_iff (b := baseOf size d root v false) rfl hd rfl hfit
      (kntreeHeight size d v) _ 0 _ hbase (Nat.zero_add _) (hsub.trans (pow_zero _).symm)
      (by omega) rfl, hidx]
    constructor
    · intro h e j he hdvd hj hjd
      exact h e j (Nat.zero_le _) ((hlevel e).mpr ⟨he, hdvd⟩) hj hjd fun _ => Nat.le_pred_of_lt hjd
    · intro h e j _ he hj hjd _
      obtain ⟨he, hdvd⟩ := (hlevel e).mp he
      exact h e j he hdvd hj hjd

/-- In a group of two ranks or more the passes of the loops are as good as the functions in
    `int`s. -/
theorem finishes_iff_int (hsize : 2 ≤ size) : Finishes size degree root myrank leftmost ↔
    ∃ iter cs, initInt size degree root myrank leftmost = some iter ∧ iter.Enumerates cs := by
  have hd : 1 < initDegree size degree := one_lt_initDegree hsize
  have hlt : (myrank + size - root) % size < size := Nat.mod_lt _ (by omega)
  -- the size of a sub-tree is positive
  have hpos (r : ℕ × Option ℕ) (hfind : findParentInt size (initDegree size degree) root
      ((myrank + size - root) % size) 1 = some r) : 0 < if leftmost then r.1 else 1 := by
    rw [findParentInt_some hfind, findParent_fst hd hlt]
    split_ifs
    · exact Nat.pow_pos (by omega)
    · exact one_pos
  constructor
  · rintro ⟨fuel, iter, cs, hrun, hthrough⟩
    rw [runInit] at hrun
    by_cases hover : intLimit ≤ myrank + size - root
    · rw [if_pos hover] at hrun
      cases hrun
    rw [if_neg hover, if_neg (by omega)] at hrun
    dsimp only at hrun
    rcases hparent : runFindParent size (initDegree size degree) root
      ((myrank + size - root) % size) fuel 1 with fault | r
    · rw [hparent] at hrun
      cases hrun
    rw [hparent] at hrun
    have hfind := findParentInt_of_run hd one_pos hparent
    have hupdate := updateInt_of_run _ hd (hpos r hfind) hrun
    have hinit : initInt size degree root myrank leftmost = some iter := by
      rw [initInt, if_neg hover]
      dsimp only
      rw [hfind]
      exact hupdate
    obtain ⟨rfl, -⟩ := updateInt_sum hupdate
    exact ⟨_, cs, hinit, (runsThrough_iff (by rwa [update_base])
      (update_subsize_pos hd (hpos r hfind))).mp hthrough⟩
  · rintro ⟨iter, cs, hinit, henum⟩
    have hinit' := hinit
    rw [initInt] at hinit'
    by_cases hover : intLimit ≤ myrank + size - root
    · rw [if_pos hover] at hinit'
      cases hinit'
    rw [if_neg hover] at hinit'
    dsimp only at hinit'
    rcases hfind : findParentInt size (initDegree size degree) root
      ((myrank + size - root) % size) 1 with _ | r
    · rw [hfind] at hinit'
      cases hinit'
    rw [hfind] at hinit'
    obtain ⟨enough, hparent⟩ := exists_runFindParent hd one_pos hfind
    obtain ⟨enough', hupdate⟩ := exists_runUpdate _ hd (hpos r hfind) hinit'
    obtain ⟨rfl, -⟩ := updateInt_sum hinit'
    refine ⟨max enough enough', _, cs, ?_, (runsThrough_iff (by rwa [update_base])
      (update_subsize_pos hd (hpos r hfind))).mpr henum⟩
    rw [runInit, if_neg hover, if_neg (by omega)]
    dsimp only
    rw [hparent _ (le_max_left ..)]
    exact hupdate _ (le_max_right ..)

/-- In a group of two ranks or more the iterator comes to its end exactly if its numbers are
    `int`s. -/
theorem finishes_iff_of_two_le (hsize : 2 ≤ size) :
    Finishes size degree root myrank leftmost ↔ RankFits size degree root myrank leftmost := by
  have hd : 1 < initDegree size degree := one_lt_initDegree hsize
  have hlt : (myrank + size - root) % size < size := Nat.mod_lt _ (by omega)
  rw [finishes_iff_int hsize]
  generalize hv : (myrank + size - root) % size = v at hlt
  have hup : (findParentInt size (initDegree size degree) root v 1).isSome ↔
      ∀ e, initDegree size degree ^ e < size → initDegree size degree ^ e ∣ v →
        UpFits (initDegree size degree) root v e := by
    have hsize' : size ≤ initDegree size degree ^ (0 + size) := by
      rw [Nat.zero_add]
      exact (Nat.lt_pow_self hd).le
    have h := findParentInt_isSome_iff root hd size 0 hsize' (v := v) (by simp)
    rw [pow_zero] at h
    rw [h]
    exact ⟨fun h e => h e (Nat.zero_le e), fun h e _ => h e⟩
  have hbase := init_base root myrank leftmost hd (by omega)
  rw [init] at hbase
  dsimp only at hbase
  rw [update_base, hv] at hbase
  have hstart := fine_start_iff root leftmost hd hlt
  constructor
  · rintro ⟨iter, cs, hinit, henum⟩
    rw [initInt] at hinit
    by_cases hover : intLimit ≤ myrank + size - root
    · rw [if_pos hover] at hinit
      cases hinit
    rw [if_neg hover] at hinit
    dsimp only at hinit
    rw [hv] at hinit
    rcases hfind : findParentInt size (initDegree size degree) root v 1 with _ | r
    · rw [hfind] at hinit
      cases hinit
    rw [hfind] at hinit
    have hups := hup.mp (by rw [hfind]; rfl)
    obtain rfl := findParentInt_some hfind
    have hfine :=
      (hstart (pow_height_lt hd hsize hlt hups) hbase rfl rfl).mp ⟨iter, cs, hinit, henum⟩
    refine ⟨by omega, by omega, hv.symm ▸ hups, ?_⟩
    rw [hv]
    intro e j he hdvd hj hjd
    obtain ⟨hnum, hadd⟩ := hfine e j he hdvd hj hjd
    exact ⟨hnum, hadd⟩
  · intro h
    obtain ⟨-, hturn, hups, hchild⟩ := h
    rw [hv] at hups hchild
    obtain ⟨r, hfind⟩ := Option.isSome_iff_exists.mp (hup.mpr hups)
    obtain rfl := findParentInt_some hfind
    obtain ⟨iter, cs, hinit, henum⟩ := (hstart (pow_height_lt hd hsize hlt hups) hbase rfl rfl).mpr
      fun e j he hdvd hj hjd => ⟨(hchild e j he hdvd hj hjd).1, (hchild e j he hdvd hj hjd).2⟩
    refine ⟨iter, cs, ?_, henum⟩
    rw [initInt, if_neg (by omega)]
    dsimp only
    rw [hv, hfind]
    exact hinit

/-- The loop for the leftmost sub-trees of one rank with a degree of one is endless. -/
theorem runLeftmost_one {iter : KntreeIter} (hdegree : iter.degree = 1) (hsub : iter.subsize = 1)
    (hidx : iter.childIdx = 1) (fuel : ℕ) : iter.runLeftmost fuel = .error .fuel := by
  induction fuel with
  | zero => rfl
  | succ fuel ih =>
    have hsame : { iter with subsize := 1, childIdx := 1 } = iter := by
      cases iter
      dsimp only at hsub hidx
      rw [hsub, hidx]
    rw [runLeftmost, hdegree, if_neg one_ne_zero, hsub, hidx]
    exact hsame ▸ ih

/-- A rank that is alone. -/
theorem finishes_one_iff :
    Finishes 1 degree 0 0 leftmost ↔ RankFits 1 degree 0 0 leftmost := by
  have hparent (d fuel : ℕ) : runFindParent 1 d 0 0 (fuel + 1) 1 = .ok (1, none) := by
    rw [runFindParent, if_neg (lt_irrefl 1)]
  have hlimit : ¬intLimit ≤ 0 + 1 - 0 := by decide
  have hfits : (leftmost = true → degree ≤ 1) → RankFits 1 degree 0 0 leftmost := by
    intro h
    have hpow (e : ℕ) : ¬initDegree 1 degree ^ e < 1 := by
      have hpos : 0 < initDegree 1 degree := by
        rw [initDegree]
        split_ifs <;> omega
      have := Nat.pow_pos (n := e) hpos
      omega
    exact ⟨fun _ => h, Nat.not_le.mp hlimit, fun e he => absurd he (hpow e),
      fun e j he => absurd he (hpow e)⟩
  constructor
  · rintro ⟨fuel, iter, cs, hrun, -⟩
    refine hfits fun hleft => ?_
    by_contra hdegree
    have hone : initDegree 1 degree = 1 := by
      rw [initDegree, if_neg hdegree, if_pos (by omega)]
    cases fuel with
    | zero =>
      rw [runInit, if_neg hlimit, if_neg one_ne_zero] at hrun
      cases hrun
    | succ fuel =>
      rw [runInit, if_neg hlimit, if_neg one_ne_zero] at hrun
      dsimp only at hrun
      rw [hparent, hleft] at hrun
      dsimp only [runUpdate] at hrun
      rw [if_pos rfl, runLeftmost_one hone rfl rfl] at hrun
      cases hrun
  · intro h
    have hrun : ∃ iter, runInit 1 1 degree 0 0 leftmost = .ok iter ∧ iter.child = none := by
      rw [runInit, if_neg hlimit, if_neg one_ne_zero]
      dsimp only
      rw [hparent]
      dsimp only [runUpdate]
      cases leftmost with
      | true =>
        have hdegree : initDegree 1 degree = 2 := by rw [initDegree, if_pos (h.alone rfl rfl)]
        rw [if_pos rfl, runLeftmost, if_neg (by simp [hdegree]), if_neg (by simp [hdegree])]
        exact ⟨_, rfl, rfl⟩
      | false =>
        rw [if_neg Bool.false_ne_true, runRightmost]
        exact ⟨_, if_neg (lt_irrefl 1), rfl⟩
    obtain ⟨iter, hiter, hchild⟩ := hrun
    exact ⟨1, iter, [], hiter, hchild⟩

end Rank

/-- For every rank, root, degree and order the iterator comes to its end without an overflow or a
    division by zero exactly if its numbers are `int`s and it is not clamped to an endless loop. -/
theorem finishes_iff {size degree root myrank : ℕ} {leftmost : Bool} (hroot : root < size)
    (hrank : myrank < size) :
    Finishes size degree root myrank leftmost ↔ RankFits size degree root myrank leftmost := by
  rcases Nat.lt_or_ge size 2 with hlt | hsize
  · obtain rfl : size = 1 := by omega
    obtain rfl : root = 0 := by omega
    obtain rfl : myrank = 0 := by omega
    exact finishes_one_iff
  · exact finishes_iff_of_two_le hsize

/-- Rank 4 of ten ranks, in a tree of degree three around rank one. -/
theorem finishes_ten : Finishes 10 3 1 4 true := by
  refine (finishes_iff (by decide) (by decide)).mpr ⟨by decide, by decide, ?_, ?_⟩
  all_goals
    intro e
    have hlevel : initDegree 10 3 ^ e < 10 → e < 3 := fun hlt => by
      by_contra hle
      have hpow : 3 ^ 3 ≤ 3 ^ e := Nat.pow_le_pow_right (by decide) (Nat.not_lt.mp hle)
      exact absurd (hpow.trans_lt hlt) (by decide)
  · intro hlt _
    have he := hlevel hlt
    exact ⟨by interval_cases e <;> decide, fun _ => by interval_cases e <;> decide⟩
  · intro j hlt _ hj hjd
    have he := hlevel hlt
    have hj' : j < 3 := hjd
    interval_cases e <;> interval_cases j <;> decide

/-- A group of one rank gets a degree of one, and the loop for the leftmost sub-trees never ends;
    and a degree one below the number of ranks makes the sub-tree of the root too big. -/
theorem not_finishes : ¬Finishes 1 2 0 0 true ∧ ¬Finishes 46342 46341 0 0 true := by
  refine ⟨fun h => ?_, fun h => ?_⟩
  · have hdegree := (finishes_one_iff.mp h).alone rfl rfl
    exact absurd hdegree (by decide)
  · have hnext := ((finishes_iff_of_two_le (by decide)).mp h).up 1 (by decide) (by decide)
    exact absurd hnext.next (by decide)

end KntreeIter

end Kucg.Algo
