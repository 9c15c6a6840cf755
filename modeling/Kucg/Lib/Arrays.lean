import Mathlib.Tactic
import Mathlib.Data.Nat.Nth

/-! Loops over arrays whose accesses are checked.

    A piece of code stops early when it accesses an array outside its bounds, when it reads a cell
    of fresh memory that nothing has been written to, or when it returns. What a loop does is then
    said by an invariant: if each pass takes the invariant on, and is within bounds, then so is the
    loop (`foldlM_range_ok`); and if the loop comes to its end, the invariant holds there
    (`foldlM_range_inv`). The last part counts: the place of a number among those of its kind. -/

namespace Kucg.Lib

/-- Why code stops before its end. -/
inductive Halt (ε : Type) where
  | outside
  | returns (status : ε)
  deriving DecidableEq, Repr

variable {α ε σ : Type}

/-! ### Accesses -/

/-- Read a cell. -/
def load (xs : List α) (i : ℤ) : Except (Halt ε) α :=
  if 0 ≤ i then (xs[i.toNat]?).elim (.error .outside) .ok else .error .outside

/-- Write a cell. -/
def store (xs : List α) (i : ℤ) (x : α) : Except (Halt ε) (List α) :=
  if 0 ≤ i ∧ i.toNat < xs.length then .ok (xs.set i.toNat x) else .error .outside

/-- Write the first cell of fresh memory that has not been written, out of `capacity` cells. -/
def push (capacity : ℕ) (xs : List α) (x : α) : Except (Halt ε) (List α) :=
  if xs.length < capacity then .ok (xs ++ [x]) else .error .outside

theorem load_eq_ok {xs : List α} {i : ℤ} {x : α} :
    load xs i = (.ok x : Except (Halt ε) α) ↔ 0 ≤ i ∧ xs[i.toNat]? = some x := by
  rw [load]
  split_ifs with hi
  · cases h : xs[i.toNat]? with
    | none => simp
    | some y => simp [hi]
  · simp [hi]

theorem store_eq_ok {xs ys : List α} {i : ℤ} {x : α} :
    store xs i x = (.ok ys : Except (Halt ε) (List α)) ↔
      0 ≤ i ∧ i.toNat < xs.length ∧ ys = xs.set i.toNat x := by
  rw [store]
  split_ifs with hi
  · simp [hi, eq_comm]
  · rw [not_and] at hi
    exact ⟨nofun, fun h => absurd h.2.1 (hi h.1)⟩

theorem push_eq_ok {capacity : ℕ} {xs ys : List α} {x : α} :
    push capacity xs x = (.ok ys : Except (Halt ε) (List α)) ↔
      xs.length < capacity ∧ ys = xs ++ [x] := by
  rw [push]
  split_ifs with hi
  · simp [hi, eq_comm]
  · exact ⟨nofun, fun h => absurd h.1 hi⟩

theorem load_natCast {xs : List α} {i : ℕ} {x : α} (h : xs[i]? = some x) :
    load xs (i : ℤ) = (.ok x : Except (Halt ε) α) :=
  load_eq_ok.mpr ⟨Int.natCast_nonneg i, h⟩

theorem store_natCast {xs : List α} {i : ℕ} (x : α) (h : i < xs.length) :
    store xs (i : ℤ) x = (.ok (xs.set i x) : Except (Halt ε) (List α)) :=
  store_eq_ok.mpr ⟨Int.natCast_nonneg i, h, rfl⟩

theorem push_of_lt {capacity : ℕ} {xs : List α} (x : α) (h : xs.length < capacity) :
    push capacity xs x = (.ok (xs ++ [x]) : Except (Halt ε) (List α)) :=
  if_pos h

/-! ### Sequences of accesses -/

theorem bind_eq_ok {β : Type} {m : Except ε α} {f : α → Except ε β} {b : β} :
    (m >>= f) = .ok b ↔ ∃ a, m = .ok a ∧ f a = .ok b := by
  cases m with
  | error e => exact ⟨nofun, fun ⟨_, h, _⟩ => nomatch h⟩
  | ok a => exact ⟨fun h => ⟨a, rfl, h⟩, fun ⟨_, h, hf⟩ => Except.ok.inj h ▸ hf⟩

@[simp] theorem ok_bind {β : Type} (a : α) (f : α → Except ε β) :
    ((.ok a : Except ε α) >>= f) = f a := rfl

section Loops

variable (step : σ → ℕ → Except ε σ) (inv : ℕ → σ → Prop)

/-- A loop whose passes keep within bounds. -/
theorem foldlM_range_ok (s : σ) : ∀ (n : ℕ), inv 0 s →
    (∀ i < n, ∀ s, inv i s → ∃ s', step s i = .ok s' ∧ inv (i + 1) s') →
    ∃ s', (List.range n).foldlM step s = .ok s' ∧ inv n s'
  | 0, h₀, _ => ⟨s, rfl, h₀⟩
  | n + 1, h₀, hstep => by
    obtain ⟨s₁, hs₁, hinv⟩ := foldlM_range_ok s n h₀ fun i hi => hstep i (hi.trans n.lt_succ_self)
    obtain ⟨s₂, hs₂, hinv'⟩ := hstep n n.lt_succ_self s₁ hinv
    refine ⟨s₂, ?_, hinv'⟩
    rw [List.range_succ, List.foldlM_append, hs₁]
    change List.foldlM step s₁ [n] = _
    rw [List.foldlM_cons, hs₂]
    rfl

variable {step} {s : σ}

/-- A loop that comes to its end. -/
theorem foldlM_range_inv : ∀ {n : ℕ} {s' : σ}, inv 0 s →
    (∀ i < n, ∀ s s', inv i s → step s i = .ok s' → inv (i + 1) s') →
    (List.range n).foldlM step s = .ok s' → inv n s'
  | 0, s', h₀, _, h => Except.ok.inj (h : Except.ok s = _) ▸ h₀
  | n + 1, s', h₀, hstep, h => by
    rw [List.range_succ, List.foldlM_append, bind_eq_ok] at h
    obtain ⟨s₁, hs₁, h⟩ := h
    rw [List.foldlM_cons, bind_eq_ok] at h
    obtain ⟨s₂, hs₂, h⟩ := h
    have hinv := foldlM_range_inv h₀ (fun i hi => hstep i (hi.trans n.lt_succ_self)) hs₁
    exact Except.ok.inj (h : Except.ok s₂ = _) ▸ hstep n n.lt_succ_self s₁ s₂ hinv hs₂

/-- A loop whose passes keep within bounds or return. -/
theorem foldlM_range_safe {step : σ → ℕ → Except (Halt ε) σ} : ∀ {n : ℕ}, inv 0 s →
    (∀ i < n, ∀ s, inv i s →
      step s i ≠ .error .outside ∧ ∀ s', step s i = .ok s' → inv (i + 1) s') →
    (List.range n).foldlM step s ≠ .error .outside
  | 0, _, _ => nofun
  | n + 1, h₀, hstep => by
    have hinit := fun i (hi : i < n) => hstep i (hi.trans n.lt_succ_self)
    rw [List.range_succ, List.foldlM_append]
    cases hs : (List.range n).foldlM step s with
    | error e =>
      have hne := foldlM_range_safe h₀ hinit
      rw [hs] at hne
      exact fun h => hne (congrArg _ (Except.error.inj (h : Except.error e = _)))
    | ok s₁ =>
      have hinv := foldlM_range_inv inv h₀ (fun i hi s s' hs => (hinit i hi s hs).2 s') hs
      have hlast := (hstep n n.lt_succ_self s₁ hinv).1
      change List.foldlM step s₁ [n] ≠ _
      rw [List.foldlM_cons]
      cases hs₂ : step s₁ n with
      | error e =>
        rw [hs₂] at hlast
        exact fun h => hlast (congrArg _ (Except.error.inj (h : Except.error e = _)))
      | ok s₂ => exact nofun

end Loops

/-! ### Places -/

section Places

variable {κ : Type} [DecidableEq κ] (key : ℕ → κ)

/-- The place of a number among those with its key. -/
def placeOf (i : ℕ) : ℕ := Nat.count (fun j => key j = key i) i

/-- How many of the first `n` numbers have a key. -/
def classSize (n : ℕ) (k : κ) : ℕ := Nat.count (fun j => key j = k) n

variable {key} {n : ℕ}

theorem placeOf_lt {i : ℕ} (h : i < n) : placeOf key i < classSize key n (key i) :=
  Nat.count_strict_mono rfl h

variable (key) in
/-- Two numbers with one key and one place are the same. -/
theorem placeOf_inj {i j : ℕ} (hkey : key i = key j) (h : placeOf key i = placeOf key j) :
    i = j := by
  rw [placeOf, placeOf, hkey] at h
  exact Nat.count_injective (p := fun l => key l = key j) hkey rfl h

variable (key) in
/-- Every place of a class is that of a number. -/
theorem exists_placeOf {m : ℕ} {k : κ} (h : m < classSize key n k) :
    ∃ i < n, key i = k ∧ placeOf key i = m := by
  have hlt : Nat.nth (fun j => key j = k) m < n := Nat.nth_lt_of_lt_count h
  have hcard (hf : (Set.ofPred fun j => key j = k).Finite) : m < hf.toFinset.card :=
    lt_of_lt_of_le h (Nat.count_le_card hf n)
  have hmem : key (Nat.nth (fun j => key j = k) m) = k := Nat.nth_mem m hcard
  refine ⟨_, hlt, hmem, ?_⟩
  rw [placeOf, hmem]
  exact Nat.count_nth hcard

variable (key) in
theorem classSize_pos {i : ℕ} (h : i < n) : 0 < classSize key n (key i) :=
  Nat.zero_lt_of_lt (placeOf_lt h)

theorem classSize_eq_card (n : ℕ) (k : κ) :
    classSize key n k = ((Finset.range n).filter fun j => key j = k).card :=
  Nat.count_eq_card_filter_range _ n

end Places

/-! ### Counting

    A loop that gives each number `i` the next place of its key: it reads the counter of the key,
    adds one to it, and writes `i` where the key and the place say. -/

/-- The counters and the array written, after the numbers below `i`. -/
structure Counted (key slot : ℕ → ℕ) (size i : ℕ) (counters written : List ℕ) : Prop where
  length_counters : counters.length = size
  length_written : written.length = size
  count : ∀ x < size, counters[x]? = some (Nat.count (fun j => key j = x) i)
  source : ∀ x v, written[x]? = some v → v = 0 ∨ v < i ∧ slot v = x
  kept : ∀ j < i, ∃ k < i, slot k = slot j ∧ written[slot j]? = some k
  bound : ∀ j < i, key j < size ∧ slot j < size

section Counted

variable {key slot : ℕ → ℕ} {size i : ℕ} {counters written : List ℕ}

theorem Counted.zero : Counted key slot size 0 (List.replicate size 0) (List.replicate size 0) where
  length_counters := List.length_replicate
  length_written := List.length_replicate
  count x hx := by simp [hx]
  source x v h := Or.inl (List.eq_of_mem_replicate (List.mem_of_getElem? h))
  kept j hj := absurd hj (Nat.not_lt_zero j)
  bound j hj := absurd hj (Nat.not_lt_zero j)

/-- The counter of the next number is its place. -/
theorem Counted.load (h : Counted key slot size i counters written) (hkey : key i < size) :
    counters[key i]? = some (placeOf key i) := h.count _ hkey

theorem Counted.succ (h : Counted key slot size i counters written) (hkey : key i < size)
    (hslot : slot i < size) : Counted key slot size (i + 1)
      (counters.set (key i) (placeOf key i + 1)) (written.set (slot i) i) where
  length_counters := List.length_set.trans h.length_counters
  length_written := List.length_set.trans h.length_written
  count x hx := by
    rw [List.getElem?_set, Nat.count_succ]
    by_cases heq : key i = x
    · rw [if_pos heq, if_pos (by rw [h.length_counters]; omega), if_pos heq, placeOf, heq]
    · rw [if_neg heq, if_neg heq, h.count x hx, Nat.add_zero]
  source x v hv := by
    rw [List.getElem?_set] at hv
    split_ifs at hv with hx hlen
    · exact Or.inr ⟨Option.some.inj hv ▸ i.lt_succ_self, Option.some.inj hv ▸ hx⟩
    · exact (h.source x v hv).imp_right fun hv => ⟨hv.1.trans i.lt_succ_self, hv.2⟩
  kept j hj := by
    rw [List.getElem?_set]
    by_cases heq : slot i = slot j
    · exact ⟨i, i.lt_succ_self, heq, by rw [if_pos heq, if_pos (by rw [h.length_written]; omega)]⟩
    · have hne : j ≠ i := fun hji => heq (congrArg slot hji.symm)
      obtain ⟨k, hk, hslot, hget⟩ := h.kept j (by omega)
      exact ⟨k, hk.trans i.lt_succ_self, hslot, by rw [if_neg heq, hget]⟩
  bound j hj := by
    rcases Nat.lt_succ_iff_lt_or_eq.mp hj with hj | rfl
    · exact h.bound j hj
    · exact ⟨hkey, hslot⟩

section Done

variable (h : Counted key slot size size counters written)
include h

/-- When no two numbers go to one slot, the array has every number at its slot. -/
theorem Counted.getElem?_slot (hinj : Set.InjOn slot (Set.Iio size)) {j : ℕ} (hj : j < size) :
    written[slot j]? = some j := by
  obtain ⟨k, hk, hslot, hget⟩ := h.kept j hj
  rwa [hinj hk hj hslot] at hget

theorem Counted.perm (hinj : Set.InjOn slot (Set.Iio size)) : written.Perm (List.range size) := by
  refine List.Perm.symm (List.Subperm.perm_of_length_le ?_ ?_)
  · refine List.nodup_range.subperm fun j hj => ?_
    exact List.mem_of_getElem? (h.getElem?_slot hinj (List.mem_range.mp hj))
  · rw [h.length_written, List.length_range]

/-- What the array has at a slot is the number that goes there. -/
theorem Counted.slot_getElem? (hinj : Set.InjOn slot (Set.Iio size)) {x : ℕ} (hx : x < size) :
    ∃ v < size, written[x]? = some v ∧ slot v = x := by
  have hlen : x < written.length := by rwa [h.length_written]
  have hperm := h.perm hinj
  have hv : written[x] < size :=
    List.mem_range.mp (hperm.mem_iff.mp (List.getElem_mem hlen))
  refine ⟨written[x], hv, List.getElem?_eq_getElem hlen, ?_⟩
  obtain ⟨hslot, heq⟩ := List.getElem?_eq_some_iff.mp (h.getElem?_slot hinj hv)
  exact (hperm.nodup_iff.mpr List.nodup_range).getElem_inj_iff.mp heq

/-- When every number is in the array and nothing is at the slot of 0 but 0, no two numbers go to
    one slot. -/
theorem Counted.injOn (hperm : written.Perm (List.range size))
    (hzero : ∀ j < size, slot j = slot 0 → j = 0) : Set.InjOn slot (Set.Iio size) := by
  have hat (j : ℕ) (hj : j < size) (hne : j ≠ 0) : written[slot j]? = some j := by
    obtain ⟨x, hx, hget⟩ := List.getElem_of_mem (hperm.mem_iff.mpr (List.mem_range.mpr hj))
    have hget' : written[x]? = some j := List.getElem?_eq_some_iff.mpr ⟨hx, hget⟩
    rcases h.source x j hget' with h₀ | ⟨-, rfl⟩
    · exact absurd h₀ hne
    · exact hget'
  intro j hj k hk hslot
  by_cases hj₀ : j = 0
  · rw [hj₀]
    exact (hzero k hk (hslot.symm.trans (congrArg slot hj₀))).symm
  by_cases hk₀ : k = 0
  · rw [hk₀]
    exact hzero j hj (hslot.trans (congrArg slot hk₀))
  have hget := hat j hj hj₀
  rw [hslot, hat k hk hk₀] at hget
  exact (Option.some.inj hget).symm

end Done

end Counted

end Kucg.Lib
