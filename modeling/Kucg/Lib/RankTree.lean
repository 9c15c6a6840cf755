import Kucg.Lib.Paced
import Mathlib.Algebra.BigOperators.Group.Finset.Basic
import Mathlib.Algebra.Group.WithOne.Basic
import Mathlib.Tactic

/-! Ranks in a tree in which every rank comes after its parent.

    Contributions go up the tree, each rank combining its own with what its children send, or one
    message goes down it. Either way the traces consist of rounds, one for each depth, whatever the
    order in which a rank goes through its children.

    What a rank sends up (`treeValue`) is defined by folding the ranks into their parents from the
    last one on, which leaves the product of all contributions as it is; so at the end that product
    is at the root (`treeValue_zero`). Contributions are combined in a commutative semigroup, and
    products are taken after a unit has been added to it. -/

namespace Kucg.Lib

variable {β γ : Type}

/-- A tree on the ranks below `n`, by the parent and by the children of each rank. -/
structure RankTree (n : ℕ) (parent : ℕ → ℕ) (children : ℕ → List ℕ) : Prop where
  parent_lt : ∀ v, 0 < v → v < n → parent v < v
  mem : ∀ v c, c ∈ children v ↔ 0 < c ∧ c < n ∧ v = parent c
  nodup : ∀ v, (children v).Nodup

/-! ### What a rank sends to its parent -/

section Value

variable [CommSemigroup γ]

/-- The contributions after the last `m` of `n` ranks have been folded into their parents. -/
def folded (n : ℕ) (parent : ℕ → ℕ) (x : ℕ → γ) : ℕ → ℕ → γ
  | 0 => x
  | m + 1 =>
    let y := folded n parent x m
    Function.update y (parent (n - 1 - m)) (y (n - 1 - m) * y (parent (n - 1 - m)))

/-- What rank `v` has when all ranks after it have been folded. -/
def treeValue (n : ℕ) (parent : ℕ → ℕ) (x : ℕ → γ) (v : ℕ) : γ := folded n parent x (n - 1 - v) v

variable {n : ℕ} {parent : ℕ → ℕ} {children : ℕ → List ℕ} {x : ℕ → γ}

/-- Folding collects what the children of a rank send. -/
theorem folded_eq (h : RankTree n parent children) {v : ℕ} : ∀ {m : ℕ}, v + m < n →
    ((folded n parent x m v : γ) : WithOne γ) = x v *
      (((List.range' (n - m) m).filter (parent · = v)).map fun c =>
        ((treeValue n parent x c : γ) : WithOne γ)).prod
  | 0, _ => by simp [folded]
  | m + 1, hm => by
    have hk : parent (n - 1 - m) < n - 1 - m := h.parent_lt _ (by omega) (by omega)
    have hval : treeValue n parent x (n - 1 - m) = folded n parent x m (n - 1 - m) := by
      rw [treeValue, show n - 1 - (n - 1 - m) = m by omega]
    have ih := folded_eq h (v := v) (m := m) (by omega)
    rw [show n - (m + 1) = n - 1 - m by omega, List.range'_succ,
      show n - 1 - m + 1 = n - m by omega, List.filter_cons]
    rw [folded]
    by_cases hp : parent (n - 1 - m) = v
    · rw [hp, Function.update_self, if_pos (by simp), List.map_cons, List.prod_cons, hval,
        WithOne.coe_mul, ih]
      exact mul_left_comm ..
    · rw [Function.update_of_ne (Ne.symm hp), if_neg (by simpa using hp), ih]

/-- A rank combines its contribution with what its children send. -/
theorem treeValue_eq (h : RankTree n parent children) {v : ℕ} (hv : v < n) :
    ((treeValue n parent x v : γ) : WithOne γ) =
      x v * ((children v).map fun c => ((treeValue n parent x c : γ) : WithOne γ)).prod := by
  rw [treeValue, folded_eq h (by omega)]
  congr 1
  refine List.Perm.prod_eq (List.Perm.map _ ?_)
  refine (List.perm_ext_iff_of_nodup (List.Nodup.filter _ List.nodup_range') (h.nodup v)).mpr
    fun c => ?_
  rw [List.mem_filter, List.mem_range'_1, h.mem]
  simp only [decide_eq_true_eq]
  constructor
  · rintro ⟨hc, rfl⟩
    exact ⟨by omega, by omega, rfl⟩
  · rintro ⟨hpos, hlt, rfl⟩
    have := h.parent_lt c hpos hlt
    exact ⟨by omega, rfl⟩

/-- Folding leaves the product of all contributions as it is. -/
theorem prod_folded (h : RankTree n parent children) : ∀ {m : ℕ}, m < n →
    ∏ u ∈ Finset.range (n - m), ((folded n parent x m u : γ) : WithOne γ) =
      ∏ u ∈ Finset.range n, (x u : WithOne γ)
  | 0, _ => rfl
  | m + 1, hm => by
    have hk : parent (n - 1 - m) < n - 1 - m := h.parent_lt _ (by omega) (by omega)
    have hmem : parent (n - 1 - m) ∈ Finset.range (n - 1 - m) := Finset.mem_range.mpr hk
    rw [← prod_folded h (m := m) (by omega), show n - (m + 1) = n - 1 - m by omega,
      show n - m = n - 1 - m + 1 by omega, Finset.prod_range_succ]
    rw [← Finset.mul_prod_erase _ _ hmem, ← Finset.mul_prod_erase _ _ hmem]
    have hrest : ∏ u ∈ (Finset.range (n - 1 - m)).erase (parent (n - 1 - m)),
        ((folded n parent x (m + 1) u : γ) : WithOne γ) =
          ∏ u ∈ (Finset.range (n - 1 - m)).erase (parent (n - 1 - m)),
            ((folded n parent x m u : γ) : WithOne γ) := by
      refine Finset.prod_congr rfl fun u hu => ?_
      rw [folded, Function.update_of_ne (Finset.ne_of_mem_erase hu)]
    rw [hrest, folded, Function.update_self, WithOne.coe_mul, mul_assoc, mul_comm]

/-- The root has the product of all contributions. -/
theorem treeValue_zero (h : RankTree n parent children) (hn : 0 < n) :
    ((treeValue n parent x 0 : γ) : WithOne γ) = ∏ u ∈ Finset.range n, (x u : WithOne γ) := by
  have hprod := prod_folded h (x := x) (m := n - 1) (by omega)
  rwa [show n - (n - 1) = 1 by omega, Finset.prod_range_one] at hprod

end Value

/-! ### Traces -/

/-- How far rank `v` is from the root. -/
def treeDepth (parent : ℕ → ℕ) (v : ℕ) : ℕ :=
  if _h : 0 < v ∧ parent v < v then treeDepth parent (parent v) + 1 else 0
termination_by v
decreasing_by exact _h.2

/-- The messages of rank `v` when contributions go up; `msg` is what a rank sends to its parent. -/
def upTrace (n : ℕ) (parent : ℕ → ℕ) (children : ℕ → List ℕ) (msg : ℕ → List β × Set ℕ) (v : ℕ) :
    List (Event β) :=
  if v < n then
    ((children v).map fun c => .recv c (msg c).1 (msg c).2) ++
      if v = 0 then [] else [.send (parent v) (msg v).1 (msg v).2]
  else []

/-- The messages of rank `v` when one message goes down; `msg` is what a rank gets from its
    parent. -/
def downTrace (n : ℕ) (parent : ℕ → ℕ) (children : ℕ → List ℕ) (msg : ℕ → List β × Set ℕ)
    (v : ℕ) : List (Event β) :=
  if v < n then
    (if v = 0 then [] else [.recv (parent v) (msg v).1 (msg v).2]) ++
      (children v).map fun c => .send c (msg c).1 (msg c).2
  else []

section Traces

variable {n : ℕ} {parent : ℕ → ℕ} {children : ℕ → List ℕ} {msg : ℕ → List β × Set ℕ}

theorem treeDepth_zero : treeDepth parent 0 = 0 := by
  rw [treeDepth, dif_neg (by simp)]

theorem treeDepth_succ (h : RankTree n parent children) {v : ℕ} (hpos : 0 < v) (hv : v < n) :
    treeDepth parent v = treeDepth parent (parent v) + 1 := by
  rw [treeDepth, dif_pos ⟨hpos, h.parent_lt v hpos hv⟩]

theorem treeDepth_le (h : RankTree n parent children) :
    ∀ {v : ℕ}, v < n → treeDepth parent v ≤ v := by
  intro v
  induction v using Nat.strong_induction_on with
  | _ v ih =>
    intro hv
    rcases Nat.eq_zero_or_pos v with rfl | hpos
    · rw [treeDepth_zero]
    · have hlt := h.parent_lt v hpos hv
      have := ih _ hlt (by omega)
      rw [treeDepth_succ h hpos hv]
      omega

theorem RankTree.children_of_le (h : RankTree n parent children) {v : ℕ} (hv : n ≤ v) :
    children v = [] := by
  refine List.eq_nil_iff_forall_not_mem.mpr fun c hc => ?_
  obtain ⟨hpos, hlt, rfl⟩ := (h.mem v c).mp hc
  have := h.parent_lt c hpos hlt
  omega

/-- The ranks at depth `d` hear from their children. -/
def upRound (n : ℕ) (parent : ℕ → ℕ) (children : ℕ → List ℕ) (msg : ℕ → List β × Set ℕ)
    (d v : ℕ) : List (Event β) :=
  if v < n then
    if treeDepth parent v = d then (children v).map fun c => .recv c (msg c).1 (msg c).2
    else if treeDepth parent v = d + 1 then [.send (parent v) (msg v).1 (msg v).2]
    else []
  else []

/-- The ranks at depth `d` pass the message on to their children. -/
def downRound (n : ℕ) (parent : ℕ → ℕ) (children : ℕ → List ℕ) (msg : ℕ → List β × Set ℕ)
    (d v : ℕ) : List (Event β) :=
  if v < n then
    if treeDepth parent v = d then (children v).map fun c => .send c (msg c).1 (msg c).2
    else if treeDepth parent v = d + 1 then [.recv (parent v) (msg v).1 (msg v).2]
    else []
  else []

theorem recvsFrom_map_recv {s : ℕ} : ∀ {cs : List ℕ}, cs.Nodup →
    recvsFrom s (cs.map fun c => Event.recv c (msg c).1 (msg c).2) = if s ∈ cs then [msg s] else []
  | [], _ => rfl
  | c :: cs, h => by
    obtain ⟨hnot, hnd⟩ := List.nodup_cons.mp h
    rw [List.map_cons, recvsFrom_recv, recvsFrom_map_recv hnd]
    rcases eq_or_ne c s with rfl | hne
    · simp [hnot]
    · simp [hne, Ne.symm hne]

theorem sendsTo_map_send {r : ℕ} : ∀ {cs : List ℕ}, cs.Nodup →
    sendsTo r (cs.map fun c => Event.send c (msg c).1 (msg c).2) = if r ∈ cs then [msg r] else []
  | [], _ => rfl
  | c :: cs, h => by
    obtain ⟨hnot, hnd⟩ := List.nodup_cons.mp h
    rw [List.map_cons, sendsTo_send, sendsTo_map_send hnd]
    rcases eq_or_ne c r with rfl | hne
    · simp [hnot]
    · simp [hne, Ne.symm hne]

/-- Between `s` and `r` there is a message in the round of depth `d`. -/
theorem child_depth (h : RankTree n parent children) {d s r : ℕ} :
    (s < n ∧ treeDepth parent s = d + 1 ∧ parent s = r) ↔
      treeDepth parent r = d ∧ s ∈ children r := by
  rw [h.mem]
  constructor
  · rintro ⟨hs, hd, rfl⟩
    have hpos : 0 < s := by
      rcases Nat.eq_zero_or_pos s with rfl | hpos
      · rw [treeDepth_zero] at hd
        omega
      · exact hpos
    rw [treeDepth_succ h hpos hs] at hd
    exact ⟨by omega, hpos, hs, rfl⟩
  · rintro ⟨hd, hpos, hs, rfl⟩
    exact ⟨hs, by rw [treeDepth_succ h hpos hs, hd], rfl⟩

theorem sendsTo_upRound {d s r : ℕ} : sendsTo r (upRound n parent children msg d s) =
    if s < n ∧ treeDepth parent s = d + 1 ∧ parent s = r then [msg s] else [] := by
  rw [upRound]
  split_ifs with hs hd hc hd' hc' hc'
  · omega
  · exact sendsTo_of_recvs (by simp [Event.IsSend])
  · simp [hc'.2.2]
  · simp [show parent s ≠ r by tauto]
  · tauto
  · rfl
  · tauto
  · rfl

theorem recvsFrom_upRound (h : RankTree n parent children) {d s r : ℕ} :
    recvsFrom s (upRound n parent children msg d r) =
      if treeDepth parent r = d ∧ s ∈ children r then [msg s] else [] := by
  rw [upRound]
  by_cases hr : r < n
  · rw [if_pos hr]
    split_ifs with hd hc hd' hc'
    · rw [recvsFrom_map_recv (h.nodup r), if_pos hc.2]
    · rw [recvsFrom_map_recv (h.nodup r), if_neg fun hs => hc ⟨hd, hs⟩]
    all_goals first | rfl | tauto
  · rw [if_neg hr, if_neg]
    · rfl
    · rintro ⟨-, hs⟩
      rw [h.children_of_le (by omega)] at hs
      cases hs

theorem sendsTo_downRound (h : RankTree n parent children) {d s r : ℕ} :
    sendsTo r (downRound n parent children msg d s) =
      if treeDepth parent s = d ∧ r ∈ children s then [msg r] else [] := by
  rw [downRound]
  by_cases hs : s < n
  · rw [if_pos hs]
    split_ifs with hd hc hd' hc'
    · rw [sendsTo_map_send (h.nodup s), if_pos hc.2]
    · rw [sendsTo_map_send (h.nodup s), if_neg fun hr => hc ⟨hd, hr⟩]
    all_goals first | rfl | tauto
  · rw [if_neg hs, if_neg]
    · rfl
    · rintro ⟨-, hr⟩
      rw [h.children_of_le (by omega)] at hr
      cases hr

theorem recvsFrom_downRound {d s r : ℕ} : recvsFrom s (downRound n parent children msg d r) =
    if r < n ∧ treeDepth parent r = d + 1 ∧ parent r = s then [msg r] else [] := by
  rw [downRound]
  split_ifs with hr hd hc hd' hc' hc'
  · omega
  · exact recvsFrom_of_sends (by simp [Event.IsSend])
  · simp [hc'.2.2]
  · simp [show parent r ≠ s by tauto]
  · tauto
  · rfl
  · tauto
  · rfl

theorem round_upRound (h : RankTree n parent children) (d : ℕ) :
    Round (upRound n parent children msg d) where
  matched s r := by
    rw [sendsTo_upRound, recvsFrom_upRound h]
    simp only [child_depth h]
  order v := by
    rw [upRound]
    split_ifs
    · exact ⟨[], _, rfl, by simp, by simp [Event.IsSend]⟩
    · exact ⟨_, [], by rw [List.append_nil], by simp [Event.IsSend], by simp⟩
    · exact ⟨[], [], rfl, by simp, by simp⟩
    · exact ⟨[], [], rfl, by simp, by simp⟩

theorem round_downRound (h : RankTree n parent children) (d : ℕ) :
    Round (downRound n parent children msg d) where
  matched s r := by
    rw [sendsTo_downRound h, recvsFrom_downRound]
    simp only [child_depth h]
  order v := by
    rw [downRound]
    split_ifs
    · exact ⟨_, [], by rw [List.append_nil], by simp [Event.IsSend], by simp⟩
    · exact ⟨[], _, rfl, by simp, by simp [Event.IsSend]⟩
    · exact ⟨[], [], rfl, by simp, by simp⟩
    · exact ⟨[], [], rfl, by simp, by simp⟩

variable (msg) in
/-- Contributions go up depth by depth, from the deepest ranks on. -/
theorem paced_upTrace (h : RankTree n parent children) :
    Paced n (upTrace n parent children msg) := by
  refine ⟨fun k => upRound n parent children msg (n - 1 - k), fun k => round_upRound h _, fun v =>
    ?_⟩
  by_cases hv : v < n
  · have hdepth := treeDepth_le h hv
    have hrest (k) (hk : k < n) (h₁ : k ≠ n - 1 - treeDepth parent v)
        (h₂ : k ≠ n - 1 - treeDepth parent v + 1) :
        upRound n parent children msg (n - 1 - k) v = [] := by
      rw [upRound, if_pos hv, if_neg (by omega), if_neg (by omega)]
    rw [upTrace, if_pos hv]
    rcases Nat.eq_zero_or_pos v with rfl | hpos
    · rw [treeDepth_zero] at hrest
      rw [if_pos rfl, List.append_nil,
        flatMap_range_single (i := n - 1) (by omega) fun k hk hne =>
          hrest k hk (by omega) (by omega)]
      rw [upRound, if_pos hv, if_pos (by rw [treeDepth_zero]; omega)]
    · have hsucc := treeDepth_succ h hpos hv
      rw [if_neg hpos.ne', flatMap_range_pair (i := n - 1 - treeDepth parent v) (by omega)
        (by omega : n - 1 - treeDepth parent v + 1 < n) hrest]
      simp only [upRound, if_pos hv]
      rw [if_pos (by omega), if_neg (by omega), if_pos (by omega)]
  · rw [upTrace, if_neg hv, flatMap_range_nil]
    exact fun k _ => if_neg hv

variable (msg) in
/-- The message goes down depth by depth, from the root on. -/
theorem paced_downTrace (h : RankTree n parent children) :
    Paced n (downTrace n parent children msg) := by
  refine ⟨fun k => downRound n parent children msg k, fun k => round_downRound h _, fun v => ?_⟩
  by_cases hv : v < n
  · have hdepth := treeDepth_le h hv
    have hrest (k) (h₁ : k ≠ treeDepth parent v) (h₂ : k + 1 ≠ treeDepth parent v) :
        downRound n parent children msg k v = [] := by
      rw [downRound, if_pos hv, if_neg (by omega), if_neg (by omega)]
    rw [downTrace, if_pos hv]
    rcases Nat.eq_zero_or_pos v with rfl | hpos
    · rw [treeDepth_zero] at hrest
      rw [if_pos rfl, List.nil_append,
        flatMap_range_single (i := 0) (by omega) fun k hk hne => hrest k hne (by omega)]
      rw [downRound, if_pos hv, if_pos treeDepth_zero]
    · have hsucc := treeDepth_succ h hpos hv
      rw [if_neg hpos.ne', flatMap_range_pair (i := treeDepth parent (parent v))
        (j := treeDepth parent v) (by omega) (by omega) fun k _ h₁ h₂ => hrest k h₂ (by omega)]
      simp only [downRound, if_pos hv]
      rw [if_neg (by omega), if_pos hsucc]
      simp
  · rw [downTrace, if_neg hv, flatMap_range_nil]
    exact fun k _ => if_neg hv

/-- All messages stay within the tree. -/
theorem upTrace_peer (h : RankTree n parent children) {v : ℕ} :
    ∀ e ∈ upTrace n parent children msg v, e.peer < n := by
  intro e he
  rw [upTrace] at he
  split_ifs at he with hv hzero
  · rw [List.append_nil] at he
    obtain ⟨c, hc, rfl⟩ := List.mem_map.mp he
    exact ((h.mem v c).mp hc).2.1
  · rcases List.mem_append.mp he with he | he
    · obtain ⟨c, hc, rfl⟩ := List.mem_map.mp he
      exact ((h.mem v c).mp hc).2.1
    · rw [List.mem_singleton.mp he]
      have := h.parent_lt v (by omega) hv
      exact this.trans hv
  · cases he

theorem downTrace_peer (h : RankTree n parent children) {v : ℕ} :
    ∀ e ∈ downTrace n parent children msg v, e.peer < n := by
  intro e he
  rw [downTrace] at he
  split_ifs at he with hv hzero
  · rw [List.nil_append] at he
    obtain ⟨c, hc, rfl⟩ := List.mem_map.mp he
    exact ((h.mem v c).mp hc).2.1
  · rcases List.mem_append.mp he with he | he
    · rw [List.mem_singleton.mp he]
      have := h.parent_lt v (by omega) hv
      exact this.trans hv
    · obtain ⟨c, hc, rfl⟩ := List.mem_map.mp he
      exact ((h.mem v c).mp hc).2.1
  · cases he

end Traces

end Kucg.Lib
