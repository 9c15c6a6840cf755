import Kucg.Algo.Rd
import Kucg.Algo.Rh

/-! The iterators of recursive doubling and of recursive halving pair the ranks.

    Of either iterator all ranks say the same of their meetings, and with the messages of an extra
    to its proxy before the steps and back after them every rank hears of every other one
    (`pairs_ranks`). For doubling the ranks that take the steps are renumbered, and take the
    dimensions of their hypercube in rising order; for halving they are the nodes themselves, and
    the order is falling. -/

namespace Kucg.Algo

open Kucg.Lib

/-! ### What the iterators of recursive doubling say -/

/-- A loop passes these positions of the iterator, and then the end. -/
def RdIter.Passes : RdIter → List RdIter → Prop
  | iter, [] => iter.current = none
  | iter, x :: xs => iter.current ≠ none ∧ x = iter ∧ iter.inc.Passes xs

/-- The iterator of rank `v` at its positions. -/
def rdStates (n v : ℕ) : List RdIter :=
  (List.range (RdIter.init n v).maxIdx).map fun idx => RdIter.inc^[idx] (RdIter.init n v)

/-- What the iterators of `n` ranks say: an extra and a proxy meet at the first and at the last
    position, and the base values are the steps. -/
def rdPairing (n : ℕ) : Pairing where
  extra v := (RdIter.init n v).type = .extra
  proxy v := (RdIter.init n v).type = .proxy
  first v := if (RdIter.init n v).type = .base then none
    else (rdStates n v).head?.bind RdIter.current
  last v := if (RdIter.init n v).type = .base then none
    else (rdStates n v).getLast?.bind RdIter.current
  steps v := (rdStates n v).filterMap RdIter.baseValue

section Rd

variable {n v : ℕ}

theorem iterate_inc (n v : ℕ) : ∀ idx : ℕ, RdIter.inc^[idx] (RdIter.init n v) = rdIterAt n v idx
  | 0 => init_eq_at n v
  | idx + 1 => by rw [Function.iterate_succ_apply', iterate_inc n v idx, inc_at]

/-- The iterator has no value exactly at its end. -/
theorem next_eq_none (iter : RdIter) : iter.next = none ↔ iter.idx = iter.maxIdx := by
  rw [RdIter.next]
  by_cases hend : iter.idx = iter.maxIdx
  · rw [if_pos hend]
    exact iff_of_true rfl hend
  · rw [if_neg hend]
    refine iff_of_false ?_ hend
    cases iter.type with
    | base => simp
    | extra => simp
    | proxy =>
      dsimp only
      by_cases hmeet : iter.idx = 0 ∨ iter.idx = iter.maxIdx - 1
      · simp [hmeet]
      · simp [hmeet]

theorem current_at (n v idx : ℕ) :
    (rdIterAt n v idx).current = none ↔ idx = (RdIter.init n v).maxIdx :=
  next_eq_none { RdIter.init n v with idx := idx }

variable (n v) in
theorem passes_at : ∀ (k idx : ℕ), idx + k = (RdIter.init n v).maxIdx →
    (rdIterAt n v idx).Passes ((List.range' idx k).map (rdIterAt n v))
  | 0, idx, h => (current_at n v idx).mpr h
  | k + 1, idx, h => by
    have hsome : (rdIterAt n v idx).current ≠ none := mt (current_at n v idx).mp (by omega)
    have hrest := passes_at k (idx + 1) (by omega)
    rw [List.range'_succ, List.map_cons]
    refine ⟨hsome, rfl, ?_⟩
    rw [inc_at]
    exact hrest

theorem rdStates_eq (n v : ℕ) : rdStates n v =
    (List.range (RdIter.init n v).maxIdx).map (rdIterAt n v) := by
  rw [rdStates]
  exact List.map_congr_left fun idx _ => iterate_inc n v idx

/-- A loop over the iterator passes its positions. -/
theorem passes_rdStates (n v : ℕ) : (RdIter.init n v).Passes (rdStates n v) := by
  rw [rdStates_eq, List.range_eq_range', init_eq_at]
  exact passes_at n v _ 0 (Nat.zero_add _)

theorem rdType (n v : ℕ) : (RdIter.init n v).type =
    if RdExtra n v then .extra else if RdProxy n v then .proxy else .base := by
  rw [init_eq_at, type_at]

theorem rdPairing_extra_iff : (rdPairing n).extra v ↔ RdExtra n v := by
  change (RdIter.init n v).type = .extra ↔ _
  rw [rdType]
  split_ifs with hex hpr
  · simpa using hex
  · simpa using hex
  · simpa using hex

theorem rdPairing_proxy_iff : (rdPairing n).proxy v ↔ RdProxy n v := by
  change (RdIter.init n v).type = .proxy ↔ _
  rw [rdType]
  split_ifs with hex hpr
  · simpa using fun h : RdProxy n v => h.not_extra hex
  · simpa using hpr
  · simpa using hpr

/-- The positions of the iterator of each kind of rank. -/
theorem rdStates_extra (h : RdExtra n v) : rdStates n v = [rdIterAt n v 0, rdIterAt n v 1] := by
  rw [rdStates_eq, init_eq_at, show (rdIterAt n v 0).maxIdx = 2 by rw [at_extra h]]
  rfl

theorem rdStates_proxy (h : RdProxy n v) : rdStates n v = rdIterAt n v 0 ::
    ((List.range (rdSteps n)).map fun k => rdIterAt n v (rdOffset n v + k)) ++
      [rdIterAt n v (1 + rdSteps n)] := by
  have hmax : (rdIterAt n v 0).maxIdx = rdSteps n + 1 + 1 := by
    rw [at_proxy h]
    rfl
  rw [rdStates_eq, init_eq_at, hmax, List.range_succ, List.range_succ_eq_map, List.map_append,
    List.map_cons, List.map_map, List.map_singleton, Nat.add_comm 1 (rdSteps n), rdOffset, if_pos h]
  simp only [Function.comp_def, Nat.succ_eq_add_one, Nat.add_comm 1]

theorem rdStates_base (hex : ¬RdExtra n v) (hpr : ¬RdProxy n v) : rdStates n v =
    (List.range (rdSteps n)).map fun k => rdIterAt n v (rdOffset n v + k) := by
  have hmax : (rdIterAt n v 0).maxIdx = rdSteps n := by
    rw [at_base hex hpr]
    rfl
  rw [rdStates_eq, init_eq_at, hmax, rdOffset, if_neg hpr]
  simp only [Nat.zero_add]

/-- The base values in the exchange. -/
theorem filterMap_baseValue (hex : ¬RdExtra n v) :
    ((List.range (rdSteps n)).map fun k => rdIterAt n v (rdOffset n v + k)).filterMap
      RdIter.baseValue = (List.range (rdSteps n)).map fun k => rdPeer n k v := by
  rw [List.filterMap_map, ← List.filterMap_eq_map]
  refine List.filterMap_congr fun k hk => ?_
  have hlt := List.mem_range.mp hk
  rw [Function.comp_apply, baseValue_at hex hlt.le, if_neg hlt.ne]
  rfl

theorem rdSteps_extra (h : RdExtra n v) : (rdPairing n).steps v = [] := by
  change (rdStates n v).filterMap RdIter.baseValue = []
  rw [rdStates_extra h, at_extra h, at_extra h]
  rfl

/-- Everybody else meets one rank for each dimension. -/
theorem rdSteps_eq (hex : ¬RdExtra n v) :
    (rdPairing n).steps v = (List.range (rdSteps n)).map fun k => rdPeer n k v := by
  change (rdStates n v).filterMap RdIter.baseValue = _
  by_cases hpr : RdProxy n v
  · have hfirst : (rdIterAt n v 0).baseValue = none := by
      rw [at_proxy hpr]
      simp [RdIter.baseValue, RdIter.update]
    have hlast : (rdIterAt n v (1 + rdSteps n)).baseValue = none := by
      rw [at_proxy hpr]
      simp [RdIter.baseValue, RdIter.update, add_comm]
    rw [rdStates_proxy hpr, List.filterMap_append, List.filterMap_cons_none hfirst,
      filterMap_baseValue hex, List.filterMap_cons_none hlast, List.filterMap_nil, List.append_nil]
  · rw [rdStates_base hex hpr, filterMap_baseValue hex]

/-- An extra and the next rank meet before and after the steps. -/
theorem rdMatched (h : RdExtra n v) : (rdPairing n).Matched v (v + 1) := by
  obtain ⟨hpr, -⟩ := rdExtra_iff_proxy.mp h
  have hup : (rdPairing n).first v = some (v + 1) ∧ (rdPairing n).last v = some (v + 1) := by
    change (if (RdIter.init n v).type = .base then none else _) = _ ∧
      (if (RdIter.init n v).type = .base then none else _) = _
    rw [rdType, if_pos h, if_neg (by simp), if_neg (by simp), rdStates_extra h, at_extra h,
      at_extra h]
    exact ⟨rfl, rfl⟩
  have hdown : (rdPairing n).first (v + 1) = some v ∧ (rdPairing n).last (v + 1) = some v := by
    obtain ⟨hfirst, hlast⟩ := current_proxy hpr
    change (if (RdIter.init n (v + 1)).type = .base then none else _) = _ ∧
      (if (RdIter.init n (v + 1)).type = .base then none else _) = _
    rw [rdType, if_neg hpr.not_extra, if_pos hpr, if_neg (by simp), if_neg (by simp),
      rdStates_proxy hpr]
    rw [List.getLast?_concat, List.cons_append, List.head?_cons]
    exact ⟨hfirst, hlast⟩
  exact ⟨rdPairing_extra_iff.mpr h, rdPairing_proxy_iff.mpr hpr, ⟨hup.1, hdown.1⟩, hup.2, hdown.2⟩

/-- The ranks that are no extras are a hypercube under their new ranks. -/
theorem rdCube (hn : n ≠ 0) :
    CubePairing (rdPairing n) n (rdSteps n) (fun k => k) (rdNew n) (rdOld n) where
  number_lt p hp _ := rdNew_lt hp
  name_lt w hw := rdOld_lt hn hw
  name_not_extra w _ := mt rdPairing_extra_iff.mp (rdOld_not_extra n w)
  name_number p _ hex := rdOld_new (mt rdPairing_extra_iff.mpr hex)
  number_name w _ := rdNew_old n w
  dim_lt _ hk := hk
  exists_dim i hi := ⟨i, hi, rfl⟩
  steps p _ hex := rdSteps_eq (mt rdPairing_extra_iff.mpr hex)
  steps_extra p _ hex := rdSteps_extra (rdPairing_extra_iff.mp hex)
  extra e he hex := by
    have hextra := rdPairing_extra_iff.mp hex
    have hsize := rd_size hn
    have hlt := hextra.1
    exact ⟨e + 1, by omega, rdMatched hextra⟩
  proxy q hq hpr := by
    have hproxy := rdPairing_proxy_iff.mp hpr
    obtain ⟨hextra, hnext⟩ := hproxy.extra
    have hmatched := rdMatched hextra
    rw [hnext] at hmatched
    exact ⟨mt rdPairing_extra_iff.mp hproxy.not_extra, q - 1, by omega, hmatched⟩
  base p _ hex hpr := by
    have htype := rdType n p
    rw [if_neg (mt rdPairing_extra_iff.mpr hex), if_neg (mt rdPairing_proxy_iff.mpr hpr)] at htype
    exact ⟨if_pos htype, if_pos htype⟩

end Rd

/-! ### Both iterators -/

/-- The iterators of recursive doubling come to their ends and fit together. -/
structure RdPairs (n : ℕ) : Prop where
  passes : ∀ v < n, (RdIter.init n v).Passes (rdStates n v)
  consistent : (rdPairing n).Consistent n

/-- The iterators of recursive halving come to their ends and fit together. -/
structure RhPairs (n : ℕ) : Prop where
  meets : ∀ v < n, (RhIter.init n v).Meets ((rhPairing n).steps v)
  consistent : (rhPairing n).Consistent n

/-- For every number of ranks both iterators pair the ranks, and every rank hears of all. -/
theorem pairs_ranks {n : ℕ} (hn : 1 ≤ n) : RdPairs n ∧ RhPairs n :=
  ⟨⟨fun v _ => passes_rdStates n v, (rdCube (by omega)).consistent⟩,
    ⟨fun v _ => meets_rhSteps n v, (rhCube (by omega)).consistent⟩⟩

/-- Six ranks: two extras and two proxies, and two steps for the others. -/
theorem pairs_six : RdPairs 6 ∧ RhPairs 6 := pairs_ranks (by decide)

example : (rdPairing 6).steps 3 = [1, 5] ∧ (rhPairing 6).steps 3 = [1, 2] ∧
    (rdPairing 6).first 3 = some 2 ∧ (rhPairing 6).first 1 = some 5 := by decide

end Kucg.Algo
