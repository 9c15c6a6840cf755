import Kucg.Lib.RankTree
import Kucg.Lib.Signals

/-! Signals that go up and down a tree.

    On the way up a rank waits for its children and then tells its parent, so what it tells is what
    the ranks below it know (`treeKnow`), and the root comes to know everything. On the way down a
    rank passes on what the root knows. -/

namespace Kucg.Lib

variable {β : Type} {n : ℕ} {parent : ℕ → ℕ} {children : ℕ → List ℕ} {known : ℕ → Set ℕ}

/-- Rank `c` is a child of `v`. -/
def ChildOf (n : ℕ) (parent : ℕ → ℕ) (c v : ℕ) : Prop := 0 < c ∧ c < n ∧ v = parent c

/-- What the ranks at and below `v` know. -/
def treeKnow (n : ℕ) (parent : ℕ → ℕ) (known : ℕ → Set ℕ) (v : ℕ) : Set ℕ :=
  {s | ∃ q, Relation.ReflTransGen (ChildOf n parent) q v ∧ s ∈ known q}

theorem subset_treeKnow (v : ℕ) : known v ⊆ treeKnow n parent known v :=
  fun _ hs => ⟨v, .refl, hs⟩

/-- What is known below `v` is known by `v` or below one of its children. -/
theorem treeKnow_subset (h : RankTree n parent children) (v : ℕ) :
    treeKnow n parent known v ⊆
      known v ∪ {s | ∃ know ∈ (children v).map (treeKnow n parent known), s ∈ know} := by
  rintro s ⟨q, hq, hs⟩
  cases hq with
  | refl => exact Or.inl hs
  | @tail c _ hq hc =>
    exact Or.inr ⟨_, List.mem_map.mpr ⟨c, (h.mem v c).mpr hc, rfl⟩, q, hq, hs⟩

/-- All ranks are below the root. -/
theorem subset_treeKnow_zero (h : RankTree n parent children) {q : ℕ} (hq : q < n) :
    known q ⊆ treeKnow n parent known 0 := by
  have hbelow : ∀ q, q < n → Relation.ReflTransGen (ChildOf n parent) q 0 := by
    intro q
    induction q using Nat.strong_induction_on with
    | _ q ih =>
      intro hq
      rcases Nat.eq_zero_or_pos q with rfl | hpos
      · exact .refl
      · have hlt := h.parent_lt q hpos hq
        exact .head ⟨hpos, hq, rfl⟩ (ih _ hlt (by omega))
  exact fun s hs => ⟨q, hbelow q hq, hs⟩

/-! ### Up -/

/-- What a rank hears and tells on the way up. -/
def upSignals (n : ℕ) (parent : ℕ → ℕ) (children : ℕ → List ℕ) (known : ℕ → Set ℕ) (v : ℕ) :
    List Signal :=
  (children v).map (fun c => .hear c (treeKnow n parent known c)) ++ .rest ::
    if v = 0 then [] else [.tell (parent v) (treeKnow n parent known v), .rest]

theorem signalTrace_upSignals {v : ℕ} (hv : v < n) :
    (signalTrace (upSignals n parent children known v) : List (Event β)) =
      upTrace n parent children (fun v => ([], treeKnow n parent known v)) v := by
  have hmap (cs : List ℕ) : (signalTrace (cs.map fun c => .hear c (treeKnow n parent known c)) :
      List (Event β)) = cs.map fun c => .recv c [] (treeKnow n parent known c) := by
    rw [signalTrace, List.filterMap_map]
    exact List.filterMap_eq_map_iff_forall_eq_some.mpr fun _ _ => rfl
  rw [upSignals, upTrace, if_pos hv, signalTrace_append, hmap, signalTrace_rest]
  split_ifs <;> rfl

theorem sound_upSignals (h : RankTree n parent children) (v : ℕ) :
    Sound (treeKnow n parent known v) (upSignals n parent children known v) (known v) [] := by
  refine sound_hears ?_
  have hall := @treeKnow_subset _ _ _ known h v
  rw [List.nil_append]
  split_ifs with hzero
  · exact ⟨rfl, hall⟩
  · exact ⟨hall, rfl, hall.trans Set.subset_union_left⟩

/-! ### Down -/

/-- What a rank hears and tells on the way down. -/
def downSignals (parent : ℕ → ℕ) (children : ℕ → List ℕ) (know : Set ℕ) (v : ℕ) : List Signal :=
  (if v = 0 then [] else [.hear (parent v) know, .rest]) ++
    ((children v).map (fun c => .tell c know) ++ [.rest])

theorem signalTrace_downSignals {v : ℕ} (hv : v < n) (know : Set ℕ) :
    (signalTrace (downSignals parent children know v) : List (Event β)) =
      downTrace n parent children (fun _ => ([], know)) v := by
  have hmap (cs : List ℕ) : (signalTrace (cs.map fun c => .tell c know) : List (Event β)) =
      cs.map fun c => .send c [] know := by
    rw [signalTrace, List.filterMap_map]
    exact List.filterMap_eq_map_iff_forall_eq_some.mpr fun _ _ => rfl
  rw [downSignals, downTrace, if_pos hv, signalTrace_append, signalTrace_append, hmap,
    signalTrace_rest, signalTrace_nil, List.append_nil]
  split_ifs <;> rfl

theorem sound_downSignals (v : ℕ) :
    Sound (known v ∪ known 0) (downSignals parent children (known 0) v) (known v) [] := by
  have htells {S : Set ℕ} (h₀ : known 0 ⊆ S) (hv : known v ⊆ S) :
      Sound (known v ∪ known 0) ((children v).map (fun c => .tell c (known 0)) ++ [.rest]) S
        [] := by
    have hend : Sound (known v ∪ known 0) [.rest] S [] :=
      ⟨rfl, (Set.union_subset hv h₀).trans Set.subset_union_left⟩
    exact sound_tells h₀ hend
  rw [downSignals]
  split_ifs with hzero
  · subst hzero
    exact htells subset_rfl subset_rfl
  · exact Sound.rest (htells Set.subset_union_right Set.subset_union_left)

end Kucg.Lib
