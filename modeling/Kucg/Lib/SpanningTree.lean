import Kucg.Lib.RankTree

/-! Ranks that know their parent and their children, each by itself, and are one tree all the same.

    A tree is given on the numbers of the ranks, counted from its root on, so that a parent comes
    before its children. Naming the numbers again keeps the tree (`RankTree.spanning`): the way up
    from a rank ends at the root, since the numbers on it get smaller. -/

namespace Kucg.Lib

/-- Where `k` steps from `q` to the parent lead, if there are so many. -/
def ancestor (parent : ℕ → Option ℕ) : ℕ → ℕ → Option ℕ
  | 0, q => some q
  | k + 1, q => (parent q).bind (ancestor parent k)

/-- What the ranks below `n` say of their parents and of their children describes one tree. -/
structure SpanningTree (n root : ℕ) (parent : ℕ → Option ℕ) (children : ℕ → List ℕ) : Prop where
  mem : ∀ p < n, ∀ c < n, c ∈ children p ↔ parent c = some p
  children_lt : ∀ p < n, ∀ c ∈ children p, c < n
  nodup : ∀ p < n, (children p).Nodup
  root_parent : parent root = none
  parent_lt : ∀ q < n, q ≠ root → ∃ p < n, parent q = some p
  climbs : ∀ q < n, ∃ k, ancestor parent k q = some root

section Naming

variable {n : ℕ} {parent : ℕ → ℕ} {children : ℕ → List ℕ} {number name : ℕ → ℕ}

/-- The parent of rank `q`, if the parents of the numbers are given. -/
def namedParent (parent number name : ℕ → ℕ) (q : ℕ) : Option ℕ :=
  if number q = 0 then none else some (name (parent (number q)))

/-- The way up from the rank with the number `v`. -/
theorem RankTree.climbs (h : RankTree n parent children) (hname : ∀ v < n, number (name v) = v) :
    ∀ v < n, ∃ k, ancestor (namedParent parent number name) k (name v) = some (name 0) := by
  intro v
  induction v using Nat.strong_induction_on with
  | _ v ih =>
    intro hv
    rcases Nat.eq_zero_or_pos v with rfl | hpos
    · exact ⟨0, rfl⟩
    · have hlt : parent v < v := h.parent_lt v hpos hv
      obtain ⟨k, hk⟩ := ih (parent v) hlt (hlt.trans hv)
      refine ⟨k + 1, ?_⟩
      rw [ancestor, namedParent, hname v hv, if_neg hpos.ne']
      exact hk

variable (number name) in
/-- A tree on the numbers of the ranks is one on the ranks. -/
theorem RankTree.spanning (h : RankTree n parent children) (hnumber : ∀ q < n, number q < n)
    (hlt : ∀ v < n, name v < n) (hname : ∀ v < n, number (name v) = v)
    (hback : ∀ q < n, name (number q) = q) (hn : 0 < n) :
    SpanningTree n (name 0) (namedParent parent number name)
      fun p => (children (number p)).map name where
  mem p hp c hc := by
    simp only [List.mem_map, namedParent]
    constructor
    · rintro ⟨v, hv, rfl⟩
      obtain ⟨hpos, hvn, heq⟩ := (h.mem _ _).mp hv
      rw [hname v hvn, if_neg hpos.ne', ← heq, hback p hp]
    · intro hparent
      split_ifs at hparent with hz
      refine ⟨number c, (h.mem _ _).mpr ⟨Nat.pos_of_ne_zero hz, hnumber c hc, ?_⟩, hback c hc⟩
      have hup : parent (number c) < number c :=
        h.parent_lt _ (Nat.pos_of_ne_zero hz) (hnumber c hc)
      rw [← Option.some.inj hparent, hname _ (hup.trans (hnumber c hc))]
  children_lt p _ c hc := by
    obtain ⟨v, hv, rfl⟩ := List.mem_map.mp hc
    exact hlt v ((h.mem _ _).mp hv).2.1
  nodup p _ := by
    refine List.Nodup.map_on ?_ (h.nodup _)
    intro v hv w hw heq
    rw [← hname v ((h.mem _ _).mp hv).2.1, heq, hname w ((h.mem _ _).mp hw).2.1]
  root_parent := by rw [namedParent, if_pos (hname 0 hn)]
  parent_lt q hq hne := by
    have hz : number q ≠ 0 := by
      intro hz
      rw [← hback q hq, hz] at hne
      exact hne rfl
    have hup : parent (number q) < number q :=
      h.parent_lt _ (Nat.pos_of_ne_zero hz) (hnumber q hq)
    refine ⟨name (parent (number q)), hlt _ (hup.trans (hnumber q hq)), ?_⟩
    rw [namedParent, if_neg hz]
  climbs q hq := by
    obtain ⟨k, hk⟩ := h.climbs hname (number q) (hnumber q hq)
    rw [hback q hq] at hk
    exact ⟨k, hk⟩

end Naming

end Kucg.Lib
