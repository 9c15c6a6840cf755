import Mathlib.Data.List.Sort
import Mathlib.Tactic

/-! Bubble sort, by a key.

    A pass compares neighbours from the front on and exchanges them if they are in the wrong order;
    so it carries the last of the greatest elements to its end (`bubblePass_eq`), and never
    exchanges two elements of equal keys. A sort of the first `n` elements is a pass of `n - 1`
    comparisons, one of `n - 2`, and so on. The result is the only list that is in order and has the
    elements of each key as they were (`bubbleSort_eq_mergeSort`). -/

namespace Kucg.Lib

variable {α κ : Type}

/-- `k` comparisons from the front on. -/
def bubblePass (gt : α → α → Bool) : ℕ → List α → List α
  | k + 1, x :: y :: l =>
    if gt x y then y :: bubblePass gt k (x :: l) else x :: bubblePass gt k (y :: l)
  | _, l => l

/-- The passes that sort the first `n` elements. -/
def bubbleSort (gt : α → α → Bool) : ℕ → List α → List α
  | 0, l => l
  | n + 1, l => bubbleSort gt n (bubblePass gt n l)

section Perm

variable (gt : α → α → Bool)

theorem bubblePass_perm : ∀ (k : ℕ) (l : List α), (bubblePass gt k l).Perm l
  | 0, l => by rw [bubblePass]; simp
  | k + 1, [] => .refl _
  | k + 1, [x] => .refl _
  | k + 1, x :: y :: l => by
    rw [bubblePass]
    split_ifs
    · exact ((bubblePass_perm k (x :: l)).cons y).trans (.swap x y l)
    · exact (bubblePass_perm k (y :: l)).cons x

theorem bubbleSort_perm : ∀ (n : ℕ) (l : List α), (bubbleSort gt n l).Perm l
  | 0, _ => .refl _
  | n + 1, l => (bubbleSort_perm n _).trans (bubblePass_perm gt n l)

end Perm

section Key

variable [LinearOrder κ] (key : α → κ)

/-- The first element has to come behind the second one. -/
def keyGt (x y : α) : Bool := decide (key y < key x)

/-- Elements with one key stay in their order. -/
theorem filter_bubblePass (c : κ) : ∀ (k : ℕ) (l : List α),
    (bubblePass (keyGt key) k l).filter (key · = c) = l.filter (key · = c)
  | 0, l => by rw [bubblePass]; simp
  | k + 1, [] => rfl
  | k + 1, [x] => rfl
  | k + 1, x :: y :: l => by
    rw [bubblePass]
    split_ifs with hgt
    · have hne : key y < key x := of_decide_eq_true hgt
      have ih := filter_bubblePass c k (x :: l)
      simp only [List.filter_cons, decide_eq_true_eq] at ih ⊢
      rw [ih]
      split_ifs with hx hy
      · exact absurd (hx.trans hy.symm) hne.ne
      all_goals rfl
    · have ih := filter_bubblePass c k (y :: l)
      rw [List.filter_cons, ih]
      conv_rhs => rw [List.filter_cons]

theorem filter_bubbleSort (c : κ) : ∀ (n : ℕ) (l : List α),
    (bubbleSort (keyGt key) n l).filter (key · = c) = l.filter (key · = c)
  | 0, _ => rfl
  | n + 1, l => (filter_bubbleSort c n _).trans (filter_bubblePass key c n l)

/-- A pass carries a greatest element to its end, and leaves what is behind. -/
theorem bubblePass_eq : ∀ {k : ℕ} {l : List α}, k < l.length →
    ∃ front last, bubblePass (keyGt key) k l = front ++ last :: l.drop (k + 1) ∧
      front.length = k ∧ ∀ x ∈ l.take (k + 1), key x ≤ key last
  | 0, x :: l, _ => ⟨[], x, by simp [bubblePass], rfl, by simp⟩
  | k + 1, [], h => absurd h (Nat.not_lt_zero _)
  | k + 1, [x], h => absurd h (by simp)
  | k + 1, x :: y :: l, h => by
    rw [bubblePass]
    split_ifs with hgt
    · have hlt : key y < key x := of_decide_eq_true hgt
      obtain ⟨front, last, heq, hlen, hle⟩ :=
        bubblePass_eq (k := k) (l := x :: l) (by simpa using h)
      obtain ⟨hx, hrest⟩ := List.forall_mem_cons.mp hle
      refine ⟨y :: front, last, by rw [heq]; rfl, by rw [List.length_cons, hlen], ?_⟩
      exact List.forall_mem_cons.mpr ⟨hx, List.forall_mem_cons.mpr ⟨hlt.le.trans hx, hrest⟩⟩
    · have hxy : key x ≤ key y := not_lt.mp fun hlt => hgt (decide_eq_true hlt)
      obtain ⟨front, last, heq, hlen, hle⟩ :=
        bubblePass_eq (k := k) (l := y :: l) (by simpa using h)
      refine ⟨x :: front, last, by rw [heq]; rfl, by rw [List.length_cons, hlen], ?_⟩
      exact List.forall_mem_cons.mpr ⟨hxy.trans (hle y List.mem_cons_self), hle⟩

/-- The first `n` elements get in order, and those behind stay where they are. -/
theorem bubbleSort_eq : ∀ {n : ℕ} {l : List α}, n ≤ l.length →
    ∃ front, bubbleSort (keyGt key) n l = front ++ l.drop n ∧ front.Perm (l.take n) ∧
      front.Pairwise fun x y => key x ≤ key y
  | 0, l, _ => ⟨[], rfl, .refl _, .nil⟩
  | n + 1, l, h => by
    obtain ⟨front, last, heq, hlen, hle⟩ := bubblePass_eq key (k := n) (l := l) h
    have hpass : (front ++ [last]).Perm (l.take (n + 1)) := by
      have hperm := bubblePass_perm (keyGt key) n l
      rw [heq, ← List.take_append_drop (n + 1) l, List.drop_append_of_le_length (by simp; omega),
        List.drop_take_self, List.nil_append, List.append_cons] at hperm
      exact (List.perm_append_right_iff _).mp hperm
    obtain ⟨sorted, hsort, hperm, horder⟩ :=
      bubbleSort_eq (n := n) (l := bubblePass (keyGt key) n l) (by
        rw [(bubblePass_perm _ _ _).length_eq]
        omega)
    rw [heq, List.drop_left' hlen] at hsort
    rw [heq, List.take_left' hlen] at hperm
    refine ⟨sorted ++ [last], ?_, (hperm.append_right _).trans hpass, ?_⟩
    · rw [bubbleSort, heq, hsort, List.append_cons]
    · refine List.pairwise_append.mpr ⟨horder, List.pairwise_singleton _ _, ?_⟩
      intro x hx z hz
      obtain rfl := List.mem_singleton.mp hz
      exact hle x (hpass.subset (List.mem_append_left _ (hperm.subset hx)))

/-- A list that is in order is given by its elements of each key. -/
theorem eq_of_ordered : ∀ {l l' : List α}, l.Pairwise (fun x y => key x ≤ key y) →
    l'.Pairwise (fun x y => key x ≤ key y) →
    (∀ c, l.filter (key · = c) = l'.filter (key · = c)) → l = l'
  | [], [], _, _, _ => rfl
  | [], y :: l', _, _, h => by
    have hy := h (key y)
    rw [List.filter_cons_of_pos (by simp)] at hy
    cases hy
  | x :: l, [], _, _, h => by
    have hx := h (key x)
    rw [List.filter_cons_of_pos (by simp)] at hx
    cases hx
  | x :: l, y :: l', hl, hl', h => by
    obtain ⟨hx, hrest⟩ := List.pairwise_cons.mp hl
    obtain ⟨hy, hrest'⟩ := List.pairwise_cons.mp hl'
    have hxm : x ∈ y :: l' := by
      have hmem : x ∈ (x :: l).filter (key · = key x) := by simp
      rw [h] at hmem
      exact List.mem_of_mem_filter hmem
    have hym : y ∈ x :: l := by
      have hmem : y ∈ (y :: l').filter (key · = key y) := by simp
      rw [← h] at hmem
      exact List.mem_of_mem_filter hmem
    have hyx : key y ≤ key x := by
      rcases List.mem_cons.mp hxm with rfl | hmem
      · exact le_rfl
      · exact hy x hmem
    have hxy : key x ≤ key y := by
      rcases List.mem_cons.mp hym with rfl | hmem
      · exact le_rfl
      · exact hx y hmem
    have hkey : key x = key y := le_antisymm hxy hyx
    obtain rfl : x = y := by
      have hhead := h (key x)
      rw [List.filter_cons_of_pos (by simp), List.filter_cons_of_pos (by simp [hkey])] at hhead
      exact (List.cons.inj hhead).1
    refine congrArg (x :: ·) (eq_of_ordered hrest hrest' fun c => ?_)
    have hc := h c
    rw [List.filter_cons, List.filter_cons] at hc
    split_ifs at hc
    · exact (List.cons.inj hc).2
    · exact hc

/-- A bubble sort of the whole list is a stable sort. -/
theorem bubbleSort_eq_mergeSort (l : List α) :
    bubbleSort (keyGt key) l.length l = l.mergeSort fun x y => decide (key x ≤ key y) := by
  have htrans : ∀ x y z : α, decide (key x ≤ key y) = true → decide (key y ≤ key z) = true →
      decide (key x ≤ key z) = true := by
    intro x y z hxy hyz
    exact decide_eq_true ((of_decide_eq_true hxy).trans (of_decide_eq_true hyz))
  have htotal : ∀ x y : α, (decide (key x ≤ key y) || decide (key y ≤ key x)) = true := by
    intro x y
    rcases le_total (key x) (key y) with h | h <;> simp [h]
  refine eq_of_ordered key ?_ ?_ fun c => ?_
  · obtain ⟨front, heq, -, horder⟩ := bubbleSort_eq key (le_refl l.length)
    rwa [heq, List.drop_length, List.append_nil]
  · exact (List.pairwise_mergeSort htrans htotal l).imp of_decide_eq_true
  · rw [filter_bubbleSort]
    -- the elements of one key are in order already
    have horder : (l.filter (key · = c)).Pairwise fun x y => decide (key x ≤ key y) = true := by
      refine List.Pairwise.imp_of_mem ?_ (List.pairwise_of_forall fun _ _ => trivial)
      intro x y hx hy _
      have hx' := of_decide_eq_true (List.mem_filter.mp hx).2
      have hy' := of_decide_eq_true (List.mem_filter.mp hy).2
      exact decide_eq_true (hx'.trans hy'.symm).le
    have hsub := (List.sublist_mergeSort htrans htotal horder List.filter_sublist).filter
      (key · = c)
    rw [List.filter_filter] at hsub
    simp only [Bool.and_self] at hsub
    exact hsub.eq_of_length ((List.mergeSort_perm l _).filter _).length_eq.symm

end Key

end Kucg.Lib
