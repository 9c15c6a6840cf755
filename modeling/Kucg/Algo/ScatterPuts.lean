import Kucg.Algo.Rolling
import Kucg.Algo.Scatter
import Kucg.Lib.Rounds

/-! The binomial scatter with one-sided puts.

    A rank waits until its parent has put the blocks of its sub-tree, and puts those of their
    sub-trees to its children, block by block, of which the last one raises the event. The stamps
    follow the numbers of the ranks, since a parent has a smaller number than its children. In front
    of that, rank 0 may put all blocks to one more rank, that takes no part in the rest. -/

namespace Kucg.Algo

open Kucg.Lib

/-! ### The tasks -/

/-- The puts to child `c`. -/
noncomputable def childPuts (n c : ℕ) : List (StreamTask ℕ) :=
  (scatterBlocks n c).map fun b =>
    .put c (if b + 1 = scatterEnd n c then some 0 else none) [b] [b]

/-- The tasks of rank `v` of the scatter. -/
noncomputable def scatterTasks (n v : ℕ) : List (StreamTask ℕ) :=
  (if v = 0 then [] else [.wait 0]) ++ (kntreeChildren n 2 v).flatMap (childPuts n)

/-- The tasks of rank `v` of the scatter, of which rank `n` is no part. -/
noncomputable def scatterWith (more : Bool) (n v : ℕ) : List (StreamTask ℕ) :=
  if v < n then
    (if more ∧ v = 0 then [.put n (some 0) (List.range n) (List.range n)] else []) ++
      scatterTasks n v
  else if more ∧ v = n then [.wait 0] else []

/-- With stamps. -/
noncomputable def scatterPre (more : Bool) (n v : ℕ) : List (ℕ × StreamTask ℕ) :=
  stampFrom (v * (n + 2)) (scatterWith more n v)

/-- For whom a rank waits. -/
noncomputable def scatterSrc (n v : ℕ) : ℕ := if v < n then kntreeParent 2 v else 0

/-- The number of ranks. -/
def scatterRanks (more : Bool) (n : ℕ) : ℕ := if more then n + 1 else n

section Tasks

variable {more : Bool} {n v q c b t : ℕ}

theorem scatterBlocks_eq_append (hc : c < n) : scatterBlocks n c =
    List.range' c (scatterEnd n c - 1 - c) ++ [scatterEnd n c - 1] := by
  have hlt := lt_scatterEnd hc
  obtain ⟨k, hk⟩ : ∃ k, scatterEnd n c = c + k + 1 := ⟨scatterEnd n c - c - 1, by omega⟩
  rw [scatterBlocks, hk, show c + k + 1 - c = k + 1 by omega, List.range'_concat,
    show c + k + 1 - 1 - c = k by omega, Nat.one_mul, Nat.add_sub_cancel]

/-- The last put raises the event of the child. -/
theorem countP_childPuts (hc : c < n) :
    (childPuts n c).countP (fun x => x.raises q 0) = if c = q then 1 else 0 := by
  have hlt := lt_scatterEnd hc
  have hfirst : (List.range' c (scatterEnd n c - 1 - c)).countP ((fun x => x.raises q 0) ∘ fun b =>
      StreamTask.put c (if b + 1 = scatterEnd n c then some 0 else none) [b] [b]) = 0 := by
    refine List.countP_eq_zero.mpr fun b hb => ?_
    rw [List.mem_range'_1] at hb
    rw [Function.comp_apply, if_neg (by omega), StreamTask.raises_put]
    simp
  rw [childPuts, List.countP_map, scatterBlocks_eq_append hc, List.countP_append, hfirst,
    List.countP_singleton, Function.comp_apply, if_pos (Nat.sub_add_cancel (by omega)),
      Nat.zero_add]
  simp

theorem sum_ite_eq_count : ∀ {l : List ℕ}, (l.map fun c => if c = q then 1 else 0).sum = l.count q
  | [] => rfl
  | c :: l => by
    rw [List.map_cons, List.sum_cons, sum_ite_eq_count, List.count_cons, Nat.add_comm]
    simp

theorem raises_scatterTasks : (scatterTasks n v).countP (fun x => x.raises q 0) =
    if 0 < q ∧ q < n ∧ v = kntreeParent 2 q then 1 else 0 := by
  have hsum : ((kntreeChildren n 2 v).map fun c =>
      (childPuts n c).countP fun x => x.raises q 0).sum = (kntreeChildren n 2 v).count q := by
    rw [← sum_ite_eq_count]
    congr 1
    exact List.map_congr_left fun c hc => countP_childPuts (mem_kntreeRest.mp hc).1
  have hhead : (if v = 0 then [] else [StreamTask.wait (κ := ℕ) 0]).countP
      (fun x => x.raises q 0) = 0 := by
    split_ifs <;> rfl
  rw [scatterTasks, List.countP_append, hhead, List.countP_flatMap, Function.comp_def, hsum,
    Nat.zero_add, (nodup_kntreeChildren (by decide)).count]
  simp only [mem_kntreeChildren (by decide : 1 < 2)]

theorem put_of_mem_childPuts {w : ℕ} {ev : Option ℕ} {src dst : List ℕ}
    (h : .put w ev src dst ∈ childPuts n c) :
    w = c ∧ (∀ e, ev = some e → e = 0) ∧ ∃ b ∈ scatterBlocks n c, src = [b] ∧ dst = [b] := by
  obtain ⟨b, hb, heq⟩ := List.mem_map.mp h
  cases heq
  refine ⟨rfl, fun e he => ?_, b, hb, rfl, rfl⟩
  split_ifs at he
  exact (Option.some.inj he).symm

/-- What a put is. -/
theorem put_of_mem_scatterWith {w : ℕ} {ev : Option ℕ} {src dst : List ℕ}
    (h : .put w ev src dst ∈ scatterWith more n v) : v < n ∧ (∀ e, ev = some e → e = 0) ∧
      (more = true ∧ v = 0 ∧ w = n ∧ src = List.range n ∧ dst = List.range n ∨
        w ∈ kntreeChildren n 2 v ∧ ∃ b ∈ scatterBlocks n w, src = [b] ∧ dst = [b]) := by
  rw [scatterWith] at h
  split_ifs at h with hv hmore hmore
  · refine ⟨hv, ?_⟩
    rcases List.mem_append.mp h with h | h
    · cases List.mem_singleton.mp h
      exact ⟨fun e he => (Option.some.inj he).symm, Or.inl ⟨hmore.1, hmore.2, rfl, rfl, rfl⟩⟩
    · rw [scatterTasks, if_pos hmore.2, List.nil_append, List.mem_flatMap] at h
      obtain ⟨c, hc, h⟩ := h
      obtain ⟨rfl, hev, hb⟩ := put_of_mem_childPuts h
      exact ⟨hev, Or.inr ⟨hc, hb⟩⟩
  · refine ⟨hv, ?_⟩
    rw [List.nil_append, scatterTasks, List.mem_append, List.mem_flatMap] at h
    rcases h with h | ⟨c, hc, h⟩
    · split_ifs at h <;> simp at h
    · obtain ⟨rfl, hev, hb⟩ := put_of_mem_childPuts h
      exact ⟨hev, Or.inr ⟨hc, hb⟩⟩
  · simp at h
  · exact absurd h List.not_mem_nil

theorem scatterSrc_lt (hq : 0 < q) (hqN : q < scatterRanks more n) : scatterSrc n q < n := by
  rw [scatterRanks] at hqN
  rw [scatterSrc]
  split_ifs with hqn
  · exact (kntreeParent_lt (by decide) hq).trans hqn
  · split_ifs at hqN <;> omega

variable (more n) in
theorem ranks_cases : scatterRanks more n = n ∧ more = false ∨
    scatterRanks more n = n + 1 ∧ more = true := by
  cases more
  · exact Or.inl ⟨rfl, rfl⟩
  · exact Or.inr ⟨rfl, rfl⟩

theorem raises_scatterWith : (scatterWith more n v).countP (fun x => x.raises q 0) =
    if 0 < q ∧ q < scatterRanks more n ∧ v < n ∧ v = scatterSrc n q then 1 else 0 := by
  have hhead : (if more = true ∧ v = 0 then
      [StreamTask.put n (some 0) (List.range n) (List.range n)] else []).countP
      (fun x => x.raises q 0) = if (more = true ∧ v = 0) ∧ q = n then 1 else 0 := by
    by_cases hmore : more = true ∧ v = 0
    · rw [if_pos hmore, List.countP_singleton]
      refine if_congr (StreamTask.raises_put.trans ?_) rfl rfl
      exact ⟨fun h => ⟨hmore, h.1.symm⟩, fun h => ⟨h.2.symm, rfl⟩⟩
    · rw [if_neg hmore, if_neg fun hh => hmore hh.1, List.countP_nil]
  rw [scatterWith]
  by_cases hv : v < n
  · rw [if_pos hv, List.countP_append, hhead, raises_scatterTasks, scatterSrc]
    rcases ranks_cases more n with ⟨hr, rfl⟩ | ⟨hr, rfl⟩ <;> rw [hr]
    · rw [if_neg fun hh => Bool.false_ne_true hh.1.1, Nat.zero_add]
      refine if_congr (and_congr_right fun _ => and_congr_right fun hq => ?_) rfl rfl
      rw [if_pos hq]
      exact (and_iff_right hv).symm
    · rcases Nat.lt_trichotomy q n with hq | rfl | hq
      · rw [if_neg fun hh => hq.ne hh.2, Nat.zero_add, if_pos hq]
        exact if_congr (and_congr_right fun _ => ⟨fun h => ⟨by omega, hv, h.2⟩,
          fun h => ⟨hq, h.2.2⟩⟩) rfl rfl
      · have hnot : ¬(0 < q ∧ q < q ∧ v = kntreeParent 2 q) := fun hh => lt_irrefl q hh.2.1
        rw [if_neg hnot, if_neg (lt_irrefl q), Nat.add_zero]
        exact if_congr ⟨fun h => ⟨by omega, by omega, hv, h.1.2⟩,
          fun h => ⟨⟨rfl, h.2.2.2⟩, rfl⟩⟩ rfl rfl
      · have hnot : ¬(0 < q ∧ q < n ∧ v = kntreeParent 2 q) := fun hh => by omega
        have hnot' : ¬(0 < q ∧ q < n + 1 ∧ v < n ∧ v = if q < n then kntreeParent 2 q else 0) :=
          fun hh => by omega
        rw [if_neg fun hh => hq.ne' hh.2, if_neg hnot, if_neg hnot']
  · have hnot : ¬(0 < q ∧ q < scatterRanks more n ∧ v < n ∧ v = scatterSrc n q) :=
      fun hh => hv hh.2.2.1
    rw [if_neg hv, if_neg hnot]
    split_ifs <;> rfl

variable (more) in
theorem awaits_scatterWith (hn : 0 < n) : (scatterWith more n v).countP (fun x => x.awaits 0) =
    if 0 < v ∧ v < scatterRanks more n then 1 else 0 := by
  have htasks : (scatterTasks n v).countP (fun x => x.awaits 0) = if 0 < v then 1 else 0 := by
    have hputs : ((kntreeChildren n 2 v).flatMap (childPuts n)).countP (fun x => x.awaits 0) =
      0 := by
      refine List.countP_eq_zero.mpr fun x hx => ?_
      obtain ⟨c, -, hx⟩ := List.mem_flatMap.mp hx
      obtain ⟨b, -, rfl⟩ := List.mem_map.mp hx
      simp
    rw [scatterTasks, List.countP_append, hputs, Nat.add_zero]
    rcases Nat.eq_zero_or_pos v with rfl | hv
    · rfl
    · rw [if_neg hv.ne', if_pos hv]
      rfl
  have hhead : (if more = true ∧ v = 0 then
      [StreamTask.put n (some 0) (List.range n) (List.range n)] else []).countP
      (fun x => x.awaits 0) = 0 := by
    split_ifs <;> rfl
  rw [scatterWith]
  rcases ranks_cases more n with ⟨hr, rfl⟩ | ⟨hr, rfl⟩ <;> rw [hr]
  · by_cases hv : v < n
    · rw [if_pos hv, List.countP_append, hhead, htasks, Nat.zero_add]
      exact if_congr (and_iff_left hv).symm rfl rfl
    · rw [if_neg hv, if_neg fun hh => Bool.false_ne_true hh.1, if_neg fun hh => hv hh.2]
      rfl
  · rcases Nat.lt_trichotomy v n with hv | rfl | hv
    · rw [if_pos hv, List.countP_append, hhead, htasks, Nat.zero_add]
      exact if_congr (and_iff_left (by omega)).symm rfl rfl
    · rw [if_neg (lt_irrefl v), if_pos ⟨rfl, rfl⟩, if_pos ⟨hn, by omega⟩]
      rfl
    · rw [if_neg (by omega), if_neg fun hh => hv.ne' hh.2, if_neg (by omega)]
      rfl

variable (more) in
theorem length_scatterWith (hn : 0 < n) : (scatterWith more n v).length < n + 2 := by
  have htasks (hv : v < n) : (scatterTasks n v).length ≤ n := by
    have hsum := sum_subtrees hv (pow_dvd_of_le_kntreeHeight (by decide : 1 < 2)
      (le_refl (kntreeHeight n 2 v)))
    have hlen : ((kntreeChildren n 2 v).flatMap (childPuts n)).length =
        ((kntreeChildren n 2 v).map fun c => scatterEnd n c - c).sum := by
      rw [List.length_flatMap]
      congr 1
      refine List.map_congr_left fun c _ => ?_
      rw [childPuts, List.length_map, scatterBlocks, List.length_range']
    rw [← kntreeChildren, ← hlen] at hsum
    rw [scatterTasks, List.length_append]
    split_ifs <;> simp only [List.length_nil, List.length_singleton] <;> omega
  rw [scatterWith]
  split_ifs with hv
  · have := htasks hv
    rw [List.length_append, List.length_singleton]
    omega
  · have := htasks hv
    rw [List.length_append, List.length_nil]
    omega
  · rw [List.length_singleton]
    omega
  · rw [List.length_nil]
    omega

end Tasks

/-! ### The prelude -/

section Prelude

variable {more : Bool} {n v q e t b : ℕ}

theorem stamp_of_mem_scatterPre {x : StreamTask ℕ} (hn : 0 < n) (h : (t, x) ∈ scatterPre more n v) :
    v * (n + 2) ≤ t ∧ t < (v + 1) * (n + 2) := by
  have hlen := length_scatterWith more (v := v) hn
  have := stamp_bounds_of_mem h
  rw [Nat.add_mul, Nat.one_mul]
  omega

theorem putsOf_scatterPre_nil
    (h : ¬(e = 0 ∧ 0 < q ∧ q < scatterRanks more n ∧ v < n ∧ v = scatterSrc n q)) :
    putsOf (scatterPre more n) v q e = [] := by
  refine stamps_eq_nil ?_
  by_cases he : e = 0
  · subst he
    rw [raises_scatterWith, if_neg fun hh => h ⟨rfl, hh⟩]
  · refine List.countP_eq_zero.mpr fun x hx hr => he ?_
    obtain ⟨src, dst, rfl⟩ := StreamTask.raises_iff.mp hr
    exact (put_of_mem_scatterWith hx).2.1 e rfl

/-- A rank begins with its wait. -/
theorem scatterWith_eq_cons (hq : 0 < q) (hqN : q < scatterRanks more n) :
    ∃ l, scatterWith more n q = .wait 0 :: l := by
  rw [scatterWith]
  split_ifs with hqn hzero hmore
  · omega
  · exact ⟨(kntreeChildren n 2 q).flatMap (childPuts n), by
      rw [scatterTasks, if_neg hq.ne', List.nil_append, List.singleton_append]⟩
  · exact ⟨[], rfl⟩
  · rcases ranks_cases more n with ⟨hr, -⟩ | ⟨hr, hm⟩
    · omega
    · exact absurd ⟨hm, by omega⟩ hmore

theorem wait_of_mem_scatterTasks (h : .wait e ∈ scatterTasks n v) : e = 0 := by
  rw [scatterTasks, List.mem_append, List.mem_flatMap] at h
  rcases h with h | ⟨c, -, h⟩
  · split_ifs at h <;> simp at h
    exact h
  · obtain ⟨b, -, h⟩ := List.mem_map.mp h
    cases h

theorem wait_of_mem_scatterWith (h : .wait e ∈ scatterWith more n v) : e = 0 := by
  rw [scatterWith] at h
  split_ifs at h
  · refine wait_of_mem_scatterTasks ((List.mem_append.mp h).resolve_left ?_)
    simp
  · exact wait_of_mem_scatterTasks h
  · exact StreamTask.wait.inj (List.mem_singleton.mp h)
  · exact absurd h List.not_mem_nil

theorem waitsOf_scatterPre (hn : 0 < n) : waitsOf (scatterPre more n) q e =
    if e = 0 ∧ 0 < q ∧ q < scatterRanks more n then [q * (n + 2)] else [] := by
  by_cases hc : e = 0 ∧ 0 < q ∧ q < scatterRanks more n
  · obtain ⟨rfl, hq, hqN⟩ := hc
    obtain ⟨l, hl⟩ := scatterWith_eq_cons hq hqN
    rw [if_pos ⟨rfl, hq, hqN⟩]
    refine stamps_eq_singleton (x := .wait 0) ?_ ?_ rfl
    · rw [awaits_scatterWith _ hn, if_pos ⟨hq, hqN⟩]
    · rw [hl, stampFrom]
      exact List.mem_cons_self
  · rw [if_neg hc]
    refine stamps_eq_nil ?_
    by_cases he : e = 0
    · subst he
      rw [awaits_scatterWith _ hn, if_neg fun hh => hc ⟨rfl, hh⟩]
    · refine List.countP_eq_zero.mpr fun x hx hw => he ?_
      rw [StreamTask.awaits_iff.mp hw] at hx
      exact wait_of_mem_scatterWith hx

variable (more) in
/-- Where a block of a child is among the tasks of its parent, and where the last one is. -/
theorem childPuts_stamps (hq : 0 < q) (hqn : q < n) (hb : b ∈ scatterBlocks n q) :
    ∃ t₁ t₃ ev, putsOf (scatterPre more n) (scatterSrc n q) q 0 = [t₁] ∧
      (t₃, .put q ev [b] [b]) ∈ scatterPre more n (scatterSrc n q) ∧ t₃ ≤ t₁ := by
  have hsrc : scatterSrc n q = kntreeParent 2 q := if_pos hqn
  have hlt : scatterSrc n q < n := hsrc ▸ (kntreeParent_lt (by decide) hq).trans hqn
  have hqN : q < scatterRanks more n := by
    rcases ranks_cases more n with ⟨hr, -⟩ | ⟨hr, -⟩ <;> omega
  have hchild : q ∈ kntreeChildren n 2 (scatterSrc n q) :=
    (mem_kntreeChildren (by decide)).mpr ⟨hq, hqn, hsrc⟩
  obtain ⟨l, l', hl⟩ := List.append_of_mem hchild
  obtain ⟨pre, post, hsplit⟩ : ∃ pre post, scatterWith more n (scatterSrc n q) =
      pre ++ childPuts n q ++ post := by
    rw [scatterWith, if_pos hlt, scatterTasks, hl, List.flatMap_append, List.flatMap_cons,
      ← List.append_assoc, ← List.append_assoc, ← List.append_assoc]
    exact ⟨_, _, rfl⟩
  obtain ⟨hqb, hbend⟩ := mem_scatterBlocks.mp hb
  -- the stamp of a block
  have hmem (b' : ℕ) (h₁ : q ≤ b') (h₂ : b' < scatterEnd n q) :
      (scatterSrc n q * (n + 2) + pre.length + (b' - q),
        .put q (if b' + 1 = scatterEnd n q then some 0 else none) [b'] [b']) ∈
          scatterPre more n (scatterSrc n q) := by
    have hrange : scatterBlocks n q = List.range' q (b' - q) ++ b' ::
        List.range' (b' + 1) (scatterEnd n q - 1 - b') := by
      obtain ⟨k, rfl⟩ : ∃ k, b' = q + k := ⟨b' - q, by omega⟩
      obtain ⟨m, hm⟩ : ∃ m, scatterEnd n q = q + (k + (m + 1)) :=
        ⟨scatterEnd n q - q - k - 1, by omega⟩
      rw [scatterBlocks, hm, ← List.range'_succ, Nat.add_sub_cancel_left, Nat.add_sub_cancel_left,
        show q + (k + (m + 1)) - 1 - (q + k) = m by omega, List.range'_append_1]
    rw [scatterPre, hsplit, stampFrom_append, stampFrom_append]
    refine List.mem_append_left _ (List.mem_append_right _ ?_)
    rw [childPuts, hrange, List.map_append, stampFrom_append]
    refine List.mem_append_right _ ?_
    rw [List.length_map, List.length_range', List.map_cons, stampFrom]
    exact List.mem_cons_self
  have hlast := hmem (scatterEnd n q - 1) (by omega) (by omega)
  rw [if_pos (by omega)] at hlast
  refine ⟨_, _, _, stamps_eq_singleton ?_ hlast ?_, hmem b hqb hbend, by omega⟩
  · rw [raises_scatterWith, if_pos ⟨hq, hqN, hlt, rfl⟩]
  · exact StreamTask.raises_put.mpr ⟨rfl, rfl⟩

theorem le_scatterRanks : n ≤ scatterRanks more n := by
  rcases ranks_cases more n with ⟨hr, -⟩ | ⟨hr, -⟩ <;> omega

theorem prelude_scatter (hn : 0 < n) :
    Prelude (scatterRanks more n) ((n + 1) * (n + 2)) (scatterPre more n) (scatterSrc n) where
  paired := {
    sorted v _ := pairwise_stampFrom
    peer_lt v _ t q ev src dst hmem := by
      obtain ⟨-, -, ⟨rfl, -, rfl, -⟩ | ⟨hchild, -⟩⟩ :=
        put_of_mem_scatterWith (mem_of_mem_stampFrom hmem)
      · exact q.lt_succ_self
      · exact (mem_kntreeRest.mp hchild).1.trans_le le_scatterRanks
    sender_lt q hq _ := by
      rcases Nat.eq_zero_or_pos q with rfl | hpos
      · have hzero : scatterSrc n 0 = 0 := by
          rw [scatterSrc, if_pos hn, kntreeParent, Nat.zero_div, Nat.zero_mul]
        rwa [hzero]
      · exact (scatterSrc_lt hpos hq).trans_le le_scatterRanks
    puts_nil q _ e v _ hne := putsOf_scatterPre_nil fun hh => hne hh.2.2.2.2
    pairs q hq e := by
      rw [waitsOf_scatterPre hn]
      by_cases hc : e = 0 ∧ 0 < q
      · -- the put of the parent has a smaller stamp
        obtain ⟨rfl, hpos⟩ := hc
        have hsrc := scatterSrc_lt hpos hq
        have hlt : scatterSrc n q < q := by
          rw [scatterSrc] at hsrc ⊢
          split_ifs
          · exact kntreeParent_lt (by decide) hpos
          · exact hpos
        have hlen : (putsOf (scatterPre more n) (scatterSrc n q) q 0).length = 1 := by
          rw [putsOf, List.length_map, scatterPre, length_filter_stampFrom, raises_scatterWith,
            if_pos ⟨hpos, hq, hsrc, rfl⟩]
        obtain ⟨t, ht⟩ := List.length_eq_one_iff.mp hlen
        have hmem : t ∈ putsOf (scatterPre more n) (scatterSrc n q) q 0 :=
          ht ▸ List.mem_singleton_self t
        obtain ⟨⟨t', x⟩, hx, rfl⟩ := List.mem_map.mp hmem
        have hbound := (stamp_of_mem_scatterPre hn (List.mem_filter.mp hx).1).2
        rw [ht, if_pos ⟨rfl, hpos, hq⟩]
        exact .cons (hbound.trans_le (Nat.mul_le_mul_right _ hlt)) .nil
      · rw [putsOf_scatterPre_nil fun hh => hc ⟨hh.1, hh.2.1⟩, if_neg fun hh => hc ⟨hh.1, hh.2.1⟩]
        exact .nil }
  stamp_lt v hv x hx := by
    refine (stamp_of_mem_scatterPre hn hx).2.trans_le (Nat.mul_le_mul_right _ ?_)
    rcases ranks_cases more n with ⟨hr, -⟩ | ⟨hr, -⟩ <;> omega
  puts_nil v _ q e he := putsOf_scatterPre_nil fun hh => he hh.1
  waits_nil q _ e he := by rw [waitsOf_scatterPre hn, if_neg fun hh => he hh.1]
  once q _ := by
    rw [waitsOf_scatterPre hn]
    split_ifs
    · exact le_rfl
    · exact Nat.zero_le _

/-- At first rank 0 has all blocks. -/
def scatterOwn (v : ℕ) : Set ℕ := {_b | v = 0}

/-- After its wait, a rank has the blocks of its sub-tree. -/
theorem delivered_scatter (hn : 0 < n) (hq : 0 < q) (hqn : q < n) (hb : b ∈ scatterBlocks n q)
    (ht : q * (n + 2) < t) :
    Delivered (scatterPre more n) (fun q _ => scatterSrc n q) q t b := by
  obtain ⟨t₁, t₃, ev, hputs, hmem, hle⟩ := childPuts_stamps more hq hqn hb
  refine ⟨0, 0, t₁, q * (n + 2), t₃, ev, [b], [b], ?_, ?_, ht, hmem, hle,
    List.mem_singleton_self b⟩
  · rw [hputs]
    rfl
  · rw [waitsOf_scatterPre hn, if_pos ⟨rfl, hq, hqn.trans_le le_scatterRanks⟩]
    rfl

/-- Every put of the scatter sends what its rank has or has waited for. -/
theorem src_scatter (hn : 0 < n) {w : ℕ} {ev : Option ℕ} {src dst : List ℕ}
    (hmem : (t, .put w ev src dst) ∈ scatterPre more n v) (hb : b ∈ src) :
    b ∈ scatterOwn v ∨ Delivered (scatterPre more n) (fun q _ => scatterSrc n q) v t b := by
  obtain ⟨hv, -, ⟨-, hzero, -⟩ | ⟨hchild, b', hb', rfl, -⟩⟩ :=
    put_of_mem_scatterWith (mem_of_mem_stampFrom hmem)
  · exact Or.inl hzero
  rcases Nat.eq_zero_or_pos v with hzero | hpos
  · exact Or.inl hzero
  obtain rfl := List.mem_singleton.mp hb
  refine Or.inr (delivered_scatter hn hpos hv ?_ ?_)
  · -- the sub-tree of the child is a part of that of the rank
    obtain ⟨hw, hwn, hparent⟩ := (mem_kntreeChildren (by decide)).mp hchild
    obtain ⟨hdvd, heq⟩ := scatterChild_iff.mpr ⟨hw, rfl, hparent⟩
    have hle := scatterEnd_child_le hdvd (heq ▸ hwn)
    rw [← heq] at hle
    rw [mem_scatterBlocks] at hb' ⊢
    omega
  · obtain ⟨l, hl⟩ := scatterWith_eq_cons hpos (hv.trans_le le_scatterRanks)
    rw [scatterPre, hl, stampFrom, List.mem_cons] at hmem
    rcases hmem with hmem | hmem
    · cases hmem
    · exact (stamp_bounds_of_mem hmem).1

/-- When the scatter is over, a rank has its own block. -/
theorem start_scatter (hn : 0 < n) (hv : v < n) : v ∈ scatterOwn v ∨
    Delivered (scatterPre more n) (fun q _ => scatterSrc n q) v ((n + 1) * (n + 2)) v := by
  rcases Nat.eq_zero_or_pos v with hzero | hpos
  · exact Or.inl hzero
  · refine Or.inr
      (delivered_scatter hn hpos hv (mem_scatterBlocks.mpr ⟨le_rfl, lt_scatterEnd hv⟩) ?_)
    exact Nat.mul_lt_mul_of_pos_right (by omega) (by omega)

end Prelude

end Kucg.Algo
