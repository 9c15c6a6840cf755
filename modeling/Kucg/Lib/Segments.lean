import Mathlib.Data.List.Chain
import Mathlib.Tactic

/-! Functions of a natural number that are constant on segments.

    A function is written as an ordered list of disjoint segments with a value each (`Ordered`);
    where no segment is, it has no value (`valueAt`). If no two neighbours could be joined
    (`Maximal`), the list is the only one for its function (`eq_of_valueAt`): both lists start where
    the function starts, with the same value, and the segment that ended first would be followed by
    one that continues it. -/

namespace Kucg.Lib

/-- The value `val` on `[start, stop)`. -/
structure Segment (α : Type) where
  start : ℕ
  stop : ℕ
  val : α

namespace Segment

variable {α : Type}

/-- The segment contains `n`. -/
def Has (s : Segment α) (n : ℕ) : Prop := s.start ≤ n ∧ n < s.stop

instance (s : Segment α) (n : ℕ) : Decidable (s.Has n) := inferInstanceAs (Decidable (_ ∧ _))

/-- The value at `n`, if there is one. -/
def valueAt : List (Segment α) → ℕ → Option α
  | [], _ => none
  | s :: l, n => if s.Has n then some s.val else valueAt l n

/-- Segments with something in them, one behind the other. -/
structure Ordered (l : List (Segment α)) : Prop where
  nonempty : ∀ s ∈ l, s.start < s.stop
  sorted : l.Pairwise fun s t => s.stop ≤ t.start

/-- No two neighbours can be joined. -/
def Maximal (l : List (Segment α)) : Prop :=
  l.IsChain fun s t => ¬(s.stop = t.start ∧ s.val = t.val)

variable {s s' : Segment α} {l l' : List (Segment α)} {n : ℕ} {a : α}

theorem ordered_cons : Ordered (s :: l) ↔
    s.start < s.stop ∧ (∀ t ∈ l, s.stop ≤ t.start) ∧ Ordered l := by
  constructor
  · rintro ⟨hne, hs⟩
    obtain ⟨hlast, hs⟩ := List.pairwise_cons.mp hs
    exact ⟨hne s List.mem_cons_self, hlast, fun t ht => hne t (List.mem_cons_of_mem s ht), hs⟩
  · rintro ⟨hs, hlast, hne, hl⟩
    exact ⟨List.forall_mem_cons.mpr ⟨hs, hne⟩, List.pairwise_cons.mpr ⟨hlast, hl⟩⟩

theorem valueAt_start (h : Ordered (s :: l)) : valueAt (s :: l) s.start = some s.val :=
  if_pos ⟨le_rfl, (ordered_cons.mp h).1⟩

theorem valueAt_eq_none (h : ∀ t ∈ l, n < t.start) : valueAt l n = none := by
  induction l with
  | nil => rfl
  | cons t l ih =>
    have ht := h t List.mem_cons_self
    rw [valueAt, if_neg (by unfold Has; omega), ih fun u hu => h u (List.mem_cons_of_mem t hu)]

/-- An ordered list has no value in front of its first segment. -/
theorem start_le_of_valueAt (h : Ordered (s :: l)) (hn : valueAt (s :: l) n = some a) :
    s.start ≤ n := by
  obtain ⟨hne, hlast, -⟩ := ordered_cons.mp h
  by_contra hlt
  have hnone : valueAt (s :: l) n = none := by
    refine valueAt_eq_none (List.forall_mem_cons.mpr ⟨not_le.mp hlt, fun t ht => ?_⟩)
    have := hlast t ht
    omega
  rw [hnone] at hn
  exact absurd hn (by simp)

/-- Where the first segment of a maximal list ends, its value ends. -/
theorem valueAt_stop (h : Ordered (s :: l)) (hmax : Maximal (s :: l)) :
    valueAt (s :: l) s.stop ≠ some s.val := by
  obtain ⟨hne, hlast, hl⟩ := ordered_cons.mp h
  intro hval
  rw [valueAt, if_neg (by unfold Has; omega)] at hval
  cases l with
  | nil => exact absurd hval (by simp [valueAt])
  | cons t l =>
    have hstart : t.start = s.stop :=
      (start_le_of_valueAt hl hval).antisymm (hlast t List.mem_cons_self)
    rw [← hstart, valueAt_start hl, Option.some.injEq] at hval
    exact (List.isChain_cons_cons.mp hmax).1 ⟨hstart.symm, hval.symm⟩

/-- The first segment is not longer than that of another list for the same function. -/
theorem stop_le (h : Ordered (s :: l)) (hmax : Maximal (s :: l)) (hstart : s.start = s'.start)
    (hval : s.val = s'.val) (heq : ∀ n, valueAt (s :: l) n = valueAt (s' :: l') n) :
    s'.stop ≤ s.stop := by
  have hne := (ordered_cons.mp h).1
  by_contra hlt
  refine valueAt_stop h hmax ?_
  rw [heq, valueAt, if_pos (by unfold Has; omega), hval]

/-- Of all ordered lists for a function, only one is maximal. -/
theorem eq_of_valueAt : ∀ {l l' : List (Segment α)}, Ordered l → Ordered l' → Maximal l →
    Maximal l' → (∀ n, valueAt l n = valueAt l' n) → l = l'
  | [], [], _, _, _, _, _ => rfl
  | [], s' :: l', _, h', _, _, heq => by
    have := heq s'.start
    rw [valueAt_start h'] at this
    exact absurd this (by simp [valueAt])
  | s :: l, [], h, _, _, _, heq => by
    have := heq s.start
    rw [valueAt_start h] at this
    exact absurd this (by simp [valueAt])
  | s :: l, s' :: l', h, h', hmax, hmax', heq => by
    have hstart : s.start = s'.start := by
      have hle := start_le_of_valueAt h ((heq s'.start).trans (valueAt_start h'))
      have hge := start_le_of_valueAt h' ((heq s.start).symm.trans (valueAt_start h))
      exact hle.antisymm hge
    have hval : s.val = s'.val := by
      have := (heq s.start).symm
      rw [valueAt_start h, hstart, valueAt_start h'] at this
      exact (Option.some.inj this).symm
    have hstop : s.stop = s'.stop :=
      (stop_le h' hmax' hstart.symm hval.symm fun n => (heq n).symm).antisymm
        (stop_le h hmax hstart hval heq)
    have hs : s = s' := by
      cases s
      cases s'
      simp_all
    subst hs
    obtain ⟨hne, hlast, hl⟩ := ordered_cons.mp h
    obtain ⟨-, hlast', hl'⟩ := ordered_cons.mp h'
    congr 1
    refine eq_of_valueAt hl hl' hmax.tail hmax'.tail fun n => ?_
    by_cases hn : n < s.stop
    · rw [valueAt_eq_none fun t ht => hn.trans_le (hlast t ht),
        valueAt_eq_none fun t ht => hn.trans_le (hlast' t ht)]
    · have hrest := heq n
      rwa [valueAt, if_neg fun hh => hn hh.2, valueAt, if_neg fun hh => hn hh.2] at hrest

end Segment

end Kucg.Lib
