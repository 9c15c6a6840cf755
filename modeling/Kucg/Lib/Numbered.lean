import Kucg.Lib.Blocks
import Kucg.Lib.Paced

/-! Traces by number.

    A collective operation often numbers the ranks anew, for example from the root on, and its
    messages are described by these numbers. What is matched or paced by number is so by rank. -/

namespace Kucg.Lib

variable {β : Type} {n : ℕ} {num rank : ℕ → ℕ} {T : ℕ → List (Event β)}

/-- The trace of rank `r`, from traces by number. -/
def numberedTrace (n : ℕ) (num rank : ℕ → ℕ) (T : ℕ → List (Event β)) (r : ℕ) : List (Event β) :=
  if r < n then (T (num r)).map (Event.mapPeer rank) else []

theorem Numbering.mem_iff (h : Numbering n num rank) {r : ℕ} :
    r ∈ (List.range n).map rank ↔ r < n := by
  simp only [List.mem_map, List.mem_range]
  constructor
  · rintro ⟨v, hv, rfl⟩
    exact h.rank_lt v hv
  · intro hr
    exact ⟨num r, h.num_lt r hr, (h.rank_eq_iff r hr _ (h.num_lt r hr)).mpr rfl⟩

theorem Numbering.nodup (h : Numbering n num rank) : ((List.range n).map rank).Nodup := by
  refine List.nodup_range.map_on fun v hv w hw heq => ?_
  rw [List.mem_range] at hv hw
  have hv' := (h.rank_eq_iff (rank v) (h.rank_lt v hv) v hv).mp rfl
  exact hv'.trans ((h.rank_eq_iff (rank v) (h.rank_lt v hv) w hw).mp heq.symm).symm

/-- The ranks in the order of their numbers are one group. -/
theorem Numbering.isGrouping (h : Numbering n num rank) :
    IsGrouping fun _ => (List.range n).map rank :=
  ⟨fun _ => h.nodup, fun _ _ _ _ => rfl⟩

theorem Numbering.idxOf (h : Numbering n num rank) {r : ℕ} (hr : r < n) :
    ((List.range n).map rank).idxOf r = num r := by
  have hnum := h.num_lt r hr
  have hget : ((List.range n).map rank).get ⟨num r, by simpa using hnum⟩ = r := by
    rw [List.get_eq_getElem, List.getElem_map, List.getElem_range]
    exact (h.rank_eq_iff r hr _ hnum).mpr rfl
  conv_lhs => rw [← hget]
  exact h.nodup.idxOf_getElem _ _

theorem numberedTrace_peer (h : Numbering n num rank) (hpeer : ∀ v, ∀ e ∈ T v, e.peer < n) {r : ℕ} :
    ∀ e ∈ numberedTrace n num rank T r, e.peer < n := by
  intro e he
  rw [numberedTrace] at he
  split_ifs at he with hr
  · obtain ⟨e', he', rfl⟩ := List.mem_map.mp he
    have hlt := h.rank_lt _ (hpeer _ e' he')
    cases e' <;> exact hlt
  · exact absurd he List.not_mem_nil

theorem groupTrace_eq (h : Numbering n num rank) (hpeer : ∀ v, ∀ e ∈ T v, e.peer < n) :
    groupTrace (fun _ => (List.range n).map rank) (fun _ => T) = numberedTrace n num rank T := by
  funext r
  rw [groupTrace, numberedTrace]
  simp only [h.mem_iff]
  split_ifs with hr
  · rw [h.idxOf hr]
    refine List.map_congr_left fun e he => ?_
    have hlt := hpeer _ e he
    have hget : ((List.range n).map rank).getD e.peer 0 = rank e.peer := by
      rw [List.getD_eq_getElem _ _ (by simpa using hlt), List.getElem_map, List.getElem_range]
    cases e with
    | send p vals know => exact congrArg (Event.send · vals know) hget
    | recv p vals know => exact congrArg (Event.recv · vals know) hget
  · rfl

/-- Traces that are matched by number. -/
theorem Matched.numbered (hT : Matched T) (h : Numbering n num rank)
    (hpeer : ∀ v, ∀ e ∈ T v, e.peer < n) : Matched (numberedTrace n num rank T) := by
  rw [← groupTrace_eq h hpeer]
  exact Matched.group h.isGrouping (fun _ _ => hT) fun _ _ v e he => by simpa using hpeer v e he

/-- Traces that are paced by number. -/
theorem Paced.numbered {K : ℕ} (hT : Paced K T) (h : Numbering n num rank)
    (hpeer : ∀ v, ∀ e ∈ T v, e.peer < n) : Paced K (numberedTrace n num rank T) := by
  rw [← groupTrace_eq h hpeer]
  exact Paced.group h.isGrouping (fun _ _ => hT) fun _ _ v e he => by simpa using hpeer v e he

end Kucg.Lib
