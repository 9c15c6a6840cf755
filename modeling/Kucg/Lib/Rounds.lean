import Kucg.Lib.OneSided

/-! Stamped programs one after the other.

    If their stamps follow each other, what holds of the pairs of puts and waits in each of them
    holds of them together (`Paired.append`, `paired_rounds`), and the puts and waits of an event
    are those of the first one, then those of the second one, and so on. -/

namespace Kucg.Lib

/-! ### Stamps for a list -/

/-- Stamps from `k` on. -/
def stampFrom {α : Type} : ℕ → List α → List (ℕ × α)
  | _, [] => []
  | k, x :: l => (k, x) :: stampFrom (k + 1) l

section Stamps

variable {α : Type} {k t : ℕ} {x : α}

theorem map_snd_stampFrom : ∀ {l : List α} {k : ℕ}, (stampFrom k l).map Prod.snd = l
  | [], _ => rfl
  | x :: l, k => by rw [stampFrom, List.map_cons, map_snd_stampFrom]

theorem stampFrom_append : ∀ {l l' : List α} {k : ℕ},
    stampFrom k (l ++ l') = stampFrom k l ++ stampFrom (k + l.length) l'
  | [], _, _ => rfl
  | x :: l, l', k => by
    rw [List.cons_append, stampFrom, stampFrom, stampFrom_append, List.cons_append,
      List.length_cons,
      Nat.add_right_comm k 1, Nat.add_assoc k]

theorem stamp_bounds_of_mem : ∀ {l : List α} {k : ℕ}, (t, x) ∈ stampFrom k l →
    k ≤ t ∧ t < k + l.length
  | y :: l, k, h => by
    rw [stampFrom, List.mem_cons] at h
    rw [List.length_cons]
    rcases h with h | h
    · cases h
      omega
    · have := stamp_bounds_of_mem h
      omega

theorem mem_of_mem_stampFrom {l : List α} (h : (t, x) ∈ stampFrom k l) : x ∈ l := by
  have := List.mem_map_of_mem (f := Prod.snd) h
  rwa [map_snd_stampFrom] at this

theorem pairwise_stampFrom : ∀ {l : List α} {k : ℕ},
    (stampFrom k l).Pairwise fun x y => x.1 < y.1
  | [], _ => .nil
  | x :: l, k => by
    refine List.pairwise_cons.mpr ⟨fun y hy => ?_, pairwise_stampFrom⟩
    have := (stamp_bounds_of_mem hy).1
    exact this

theorem length_filter_stampFrom {P : α → Bool} : ∀ {l : List α} {k : ℕ},
    ((stampFrom k l).filter fun x => P x.2).length = l.countP P
  | [], _ => rfl
  | x :: l, k => by
    rw [stampFrom, List.filter_cons, List.countP_cons]
    split_ifs with h
    · rw [List.length_cons, length_filter_stampFrom]
    · rw [length_filter_stampFrom, Nat.add_zero]

/-- If there is only one, its stamp is the only one. -/
theorem stamps_eq_singleton {P : α → Bool} {l : List α} (hP : l.countP P = 1)
    (ht : (t, x) ∈ stampFrom k l) (hx : P x = true) :
    ((stampFrom k l).filter fun x => P x.2).map Prod.fst = [t] := by
  have hlen : (((stampFrom k l).filter fun x => P x.2).map Prod.fst).length = 1 := by
    rw [List.length_map, length_filter_stampFrom, hP]
  have hmem : t ∈ ((stampFrom k l).filter fun x => P x.2).map Prod.fst :=
    List.mem_map_of_mem (f := Prod.fst) (List.mem_filter.mpr ⟨ht, hx⟩)
  obtain ⟨t', heq⟩ := List.length_eq_one_iff.mp hlen
  rw [heq] at hmem ⊢
  rw [List.mem_singleton.mp hmem]

theorem stamps_eq_nil {P : α → Bool} {l : List α} (hP : l.countP P = 0) :
    ((stampFrom k l).filter fun x => P x.2).map Prod.fst = [] := by
  refine List.eq_nil_of_length_eq_zero ?_
  rw [List.length_map, length_filter_stampFrom, hP]

end Stamps

/-! ### One after the other -/

section Append

variable {κ : Type} {n k b q e s : ℕ} {σ τ : ℕ → List (ℕ × StreamTask κ)} {sender : ℕ → ℕ → ℕ}

/-- The same tasks, `k` later. -/
def later (k : ℕ) (l : List (ℕ × StreamTask κ)) : List (ℕ × StreamTask κ) :=
  l.map fun x => (k + x.1, x.2)

theorem map_snd_later {l : List (ℕ × StreamTask κ)} :
    (later k l).map Prod.snd = l.map Prod.snd := by
  rw [later, List.map_map]
  rfl

theorem mem_later {l : List (ℕ × StreamTask κ)} {t : ℕ} {x : StreamTask κ} :
    (t, x) ∈ later k l ↔ ∃ t', (t', x) ∈ l ∧ t = k + t' := by
  rw [later, List.mem_map]
  constructor
  · rintro ⟨⟨t', x'⟩, hmem, heq⟩
    cases heq
    exact ⟨t', hmem, rfl⟩
  · rintro ⟨t', hmem, rfl⟩
    exact ⟨_, hmem, rfl⟩

theorem putsOf_later : putsOf (fun p => later k (σ p)) s q e = (putsOf σ s q e).map (k + ·) := by
  rw [putsOf, later, List.filter_map, List.map_map, putsOf, List.map_map]
  rfl

theorem waitsOf_later : waitsOf (fun p => later k (σ p)) q e = (waitsOf σ q e).map (k + ·) := by
  rw [waitsOf, later, List.filter_map, List.map_map, waitsOf, List.map_map]
  rfl

theorem putsOf_append :
    putsOf (fun p => σ p ++ τ p) s q e = putsOf σ s q e ++ putsOf τ s q e := by
  rw [putsOf, List.filter_append, List.map_append]
  rfl

theorem waitsOf_append :
    waitsOf (fun p => σ p ++ τ p) q e = waitsOf σ q e ++ waitsOf τ q e := by
  rw [waitsOf, List.filter_append, List.map_append]
  rfl

theorem Paired.nil (hs : ∀ q < n, ∀ e, sender q e < n) :
    Paired n (fun _ => ([] : List (ℕ × StreamTask κ))) sender where
  sorted _ _ := .nil
  peer_lt _ _ _ _ _ _ _ hmem := absurd hmem List.not_mem_nil
  sender_lt := hs
  puts_nil _ _ _ _ _ _ := rfl
  pairs _ _ _ := .nil

theorem Paired.later (h : Paired n σ sender) : Paired n (fun p => later k (σ p)) sender where
  sorted p hp := List.pairwise_map.mpr ((h.sorted p hp).imp fun hlt => Nat.add_lt_add_left hlt k)
  peer_lt p hp t q ev src dst hmem := by
    obtain ⟨t', hmem, -⟩ := mem_later.mp hmem
    exact h.peer_lt p hp t' q ev src dst hmem
  sender_lt := h.sender_lt
  puts_nil q hq e p hp hne := by rw [putsOf_later, h.puts_nil q hq e p hp hne, List.map_nil]
  pairs q hq e := by
    rw [putsOf_later, waitsOf_later, List.forall₂_map_left_iff, List.forall₂_map_right_iff]
    exact (h.pairs q hq e).imp fun _ _ hlt => Nat.add_lt_add_left hlt k

theorem Paired.append (hσ : Paired n σ sender) (hτ : Paired n τ sender)
    (hbefore : ∀ p < n, ∀ x ∈ σ p, x.1 < b) (hafter : ∀ p < n, ∀ x ∈ τ p, b ≤ x.1) :
    Paired n (fun p => σ p ++ τ p) sender where
  sorted p hp := List.pairwise_append.mpr ⟨hσ.sorted p hp, hτ.sorted p hp, fun x hx y hy =>
    (hbefore p hp x hx).trans_le (hafter p hp y hy)⟩
  peer_lt p hp t q ev src dst hmem := by
    rcases List.mem_append.mp hmem with hmem | hmem
    · exact hσ.peer_lt p hp t q ev src dst hmem
    · exact hτ.peer_lt p hp t q ev src dst hmem
  sender_lt := hσ.sender_lt
  puts_nil q hq e p hp hne := by
    rw [putsOf_append, hσ.puts_nil q hq e p hp hne, hτ.puts_nil q hq e p hp hne, List.append_nil]
  pairs q hq e := by
    rw [putsOf_append, waitsOf_append]
    exact List.rel_append (hσ.pairs q hq e) (hτ.pairs q hq e)

end Append

/-! ### Rounds -/

section Rounds

variable {κ : Type} {n R W q e s : ℕ} {σ : ℕ → ℕ → List (ℕ × StreamTask κ)} {sender : ℕ → ℕ → ℕ}

/-- `R` programs, one after the other. -/
def rounds (σ : ℕ → ℕ → List (ℕ × StreamTask κ)) (R p : ℕ) : List (ℕ × StreamTask κ) :=
  (List.range R).flatMap fun r => σ r p

theorem putsOf_rounds : putsOf (rounds σ R) s q e =
    (List.range R).flatMap fun r => putsOf (σ r) s q e := by
  rw [putsOf, rounds, List.filter_flatMap, List.map_flatMap]
  rfl

theorem waitsOf_rounds : waitsOf (rounds σ R) q e =
    (List.range R).flatMap fun r => waitsOf (σ r) q e := by
  rw [waitsOf, rounds, List.filter_flatMap, List.map_flatMap]
  rfl

theorem paired_rounds (hs : ∀ q < n, ∀ e, sender q e < n) : ∀ {R : ℕ},
    (∀ r < R, Paired n (σ r) sender) →
    (∀ r < R, ∀ p < n, ∀ x ∈ σ r p, r * W ≤ x.1 ∧ x.1 < (r + 1) * W) →
    Paired n (rounds σ R) sender
  | 0, _, _ => .nil hs
  | R + 1, hpaired, hwithin => by
    have ih : Paired n (rounds σ R) sender :=
      paired_rounds hs (fun r hr => hpaired r (by omega)) fun r hr => hwithin r (by omega)
    have hsplit : rounds σ (R + 1) = fun p => rounds σ R p ++ σ R p := by
      funext p
      rw [rounds, List.range_succ, List.flatMap_append, List.flatMap_singleton]
      rfl
    rw [hsplit]
    refine ih.append (b := R * W) (hpaired R R.lt_succ_self) (fun p hp x hx => ?_)
      fun p hp x hx => (hwithin R R.lt_succ_self p hp x hx).1
    obtain ⟨r, hr, hx⟩ := List.mem_flatMap.mp hx
    have hr := List.mem_range.mp hr
    exact (hwithin r (by omega) p hp x hx).2.trans_le (Nat.mul_le_mul_right W hr)

end Rounds

end Kucg.Lib
