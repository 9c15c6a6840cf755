import Kucg.Lib.Trace

/-! Traces that proceed in rounds, in each of which every rank sends before it receives.

    Such traces never lead to a deadlock: where every rank that has something left to do waits for a
    message that its sender has yet to send, nothing is left at all (`Paced.drained`). The proof
    goes through the rounds: if all ranks have come to round `k`, then nobody waits before he has
    sent all of its messages, hence nobody waits for one of its messages. -/

namespace Kucg.Lib

variable {β : Type}

/-- The event is a send. -/
def Event.IsSend : Event β → Prop
  | .send .. => True
  | .recv .. => False

/-- What is sent in a round is received in it, and every rank sends before it receives. -/
structure Round (R : ℕ → List (Event β)) : Prop where
  matched : Matched R
  order : ∀ r, ∃ snds rcvs, R r = snds ++ rcvs ∧ (∀ e ∈ snds, e.IsSend) ∧ ∀ e ∈ rcvs, ¬e.IsSend

/-- The traces are made of `K` rounds. -/
def Paced (K : ℕ) (T : ℕ → List (Event β)) : Prop :=
  ∃ R : ℕ → ℕ → List (Event β), (∀ k, Round (R k)) ∧
    ∀ r, T r = (List.range K).flatMap fun k => R k r

theorem recvsFrom_of_sends {s : ℕ} {t : List (Event β)} (h : ∀ e ∈ t, e.IsSend) :
    recvsFrom s t = [] := by
  refine List.filterMap_eq_nil_iff.mpr fun e he => ?_
  have hsend := h e he
  cases e with
  | send => rfl
  | recv => exact absurd hsend id

theorem sendsTo_of_recvs {r : ℕ} {t : List (Event β)} (h : ∀ e ∈ t, ¬e.IsSend) :
    sendsTo r t = [] := by
  refine List.filterMap_eq_nil_iff.mpr fun e he => ?_
  have hrecv := h e he
  cases e with
  | send => exact absurd trivial hrecv
  | recv => rfl

theorem Round.nil : Round fun _ => ([] : List (Event β)) :=
  ⟨Matched.nil, fun _ => ⟨[], [], rfl, by simp, by simp⟩⟩

namespace Paced

variable {K K' : ℕ} {T T' : ℕ → List (Event β)}

theorem matched (h : Paced K T) : Matched T := by
  obtain ⟨R, hR, hT⟩ := h
  have hT' : T = fun r => (List.range K).flatMap fun k => R k r := funext hT
  rw [hT']
  exact Matched.flatMap _ fun k _ => (hR k).matched

/-- Rounds in which nothing happens can be added. -/
theorem mono (h : Paced K T) (hle : K ≤ K') : Paced K' T := by
  obtain ⟨R, hR, hT⟩ := h
  refine ⟨fun k => if k < K then R k else fun _ => [], fun k => ?_, fun r => ?_⟩
  · dsimp only
    split_ifs
    · exact hR k
    · exact Round.nil
  · obtain ⟨d, rfl⟩ := Nat.exists_eq_add_of_le hle
    rw [List.range_add, List.flatMap_append, hT]
    have hrest : ((List.range d).map (K + ·)).flatMap
        (fun k => (if k < K then R k else fun _ => []) r) = [] := by
      simp
    rw [hrest, List.append_nil]
    refine List.flatMap_congr fun k hk => ?_
    dsimp only
    rw [if_pos (List.mem_range.mp hk)]

theorem nil : Paced 0 fun _ => ([] : List (Event β)) :=
  ⟨fun _ _ => [], fun _ => Round.nil, fun _ => rfl⟩

theorem of_round {R : ℕ → List (Event β)} (h : Round R) : Paced 1 R :=
  ⟨fun _ => R, fun _ => h, fun r => by simp⟩

theorem append (h : Paced K T) (h' : Paced K' T') : Paced (K + K') fun r => T r ++ T' r := by
  obtain ⟨R, hR, hT⟩ := h
  obtain ⟨R', hR', hT'⟩ := h'
  refine ⟨fun k => if k < K then R k else R' (k - K), fun k => ?_, fun r => ?_⟩
  · dsimp only
    split_ifs
    · exact hR k
    · exact hR' _
  · dsimp only
    rw [List.range_add, List.flatMap_append, List.flatMap_map, hT, hT']
    congr 1
    · refine List.flatMap_congr fun k hk => ?_
      rw [if_pos (List.mem_range.mp hk)]
    · refine List.flatMap_congr fun k _ => ?_
      rw [if_neg (by omega), Nat.add_sub_cancel_left]

/-- Disjoint groups with traces of their own. -/
theorem group {members : ℕ → List ℕ} {T : List ℕ → ℕ → List (Event β)} (hg : IsGrouping members)
    (hT : ∀ r, r ∈ members r → Paced K (T (members r)))
    (hpeer : ∀ r, r ∈ members r → ∀ v, ∀ e ∈ T (members r) v, e.peer < (members r).length) :
    Paced K (groupTrace members T) := by
  classical
  -- the rounds of a group, where there is one
  choose! R hR using fun (g : List ℕ) (h : Paced K (T g)) => h
  have hmem {r k v : ℕ} (hr : r ∈ members r) (hk : k < K) {e : Event β}
      (he : e ∈ R (members r) k v) : e ∈ T (members r) v := by
    rw [(hR _ (hT r hr)).2 v]
    exact List.mem_flatMap.mpr ⟨k, List.mem_range.mpr hk, he⟩
  refine ⟨fun k => if k < K then groupTrace members fun g => R g k else fun _ => [], fun k => ?_,
    fun r => ?_⟩
  · dsimp only
    split_ifs with hk
    · refine ⟨Matched.group hg (fun r hr => ((hR _ (hT r hr)).1 k).matched)
        fun r hr v e he => hpeer r hr v e (hmem hr hk he), fun r => ?_⟩
      by_cases hr : r ∈ members r
      · obtain ⟨snds, rcvs, heq, hs, hrc⟩ :=
          ((hR _ (hT r hr)).1 k).order ((members r).idxOf r)
        refine ⟨_, _, by rw [groupTrace, if_pos hr, heq, List.map_append], ?_, ?_⟩
        · intro e he
          obtain ⟨e', he', rfl⟩ := List.mem_map.mp he
          have := hs e' he'
          cases e' <;> exact this
        · intro e he
          obtain ⟨e', he', rfl⟩ := List.mem_map.mp he
          have := hrc e' he'
          cases e' <;> exact this
      · exact ⟨[], [], by rw [groupTrace, if_neg hr]; rfl, by simp, by simp⟩
    · exact Round.nil
  · have hround : ((List.range K).flatMap fun k =>
        (if k < K then groupTrace members fun g => R g k else fun _ => []) r) =
          (List.range K).flatMap fun k => groupTrace members (fun g => R g k) r := by
      refine List.flatMap_congr fun k hk => ?_
      rw [if_pos (List.mem_range.mp hk)]
    rw [hround]
    by_cases hr : r ∈ members r
    · simp only [groupTrace, if_pos hr]
      rw [(hR _ (hT r hr)).2, List.map_flatMap]
    · simp [groupTrace, if_neg hr]

end Paced

/-! ### Rounds in which a rank does something -/

theorem flatMap_range_nil {α : Type*} {f : ℕ → List α} {n : ℕ} (h : ∀ k < n, f k = []) :
    (List.range n).flatMap f = [] := by
  simp only [List.flatMap_eq_nil_iff, List.mem_range]
  exact h

theorem flatMap_range_single {α : Type*} {f : ℕ → List α} {i : ℕ} : ∀ {n : ℕ}, i < n →
    (∀ k < n, k ≠ i → f k = []) → (List.range n).flatMap f = f i
  | 0, hi, _ => absurd hi (by omega)
  | n + 1, hi, h => by
    rw [List.range_succ, List.flatMap_append, List.flatMap_singleton]
    rcases Nat.lt_succ_iff_lt_or_eq.mp hi with hlt | rfl
    · rw [flatMap_range_single hlt fun k hk => h k (by omega), h n (by omega) (by omega),
        List.append_nil]
    · rw [flatMap_range_nil fun k hk => h k (by omega) (by omega), List.nil_append]

theorem flatMap_range_pair {α : Type*} {f : ℕ → List α} {i j : ℕ} (hij : i < j) : ∀ {n : ℕ},
    j < n → (∀ k < n, k ≠ i → k ≠ j → f k = []) → (List.range n).flatMap f = f i ++ f j
  | 0, hj, _ => absurd hj (by omega)
  | n + 1, hj, h => by
    rw [List.range_succ, List.flatMap_append, List.flatMap_singleton]
    rcases Nat.lt_succ_iff_lt_or_eq.mp hj with hlt | rfl
    · rw [flatMap_range_pair hij hlt fun k hk => h k (by omega),
        h n (by omega) (by omega) (by omega), List.append_nil]
    · rw [flatMap_range_single hij fun k hk hne => h k (by omega) hne (by omega)]

/-! ### No deadlock -/

theorem length_sendsTo_le {r : ℕ} {t t' : List (Event β)} (h : t <:+ t') :
    (sendsTo r t).length ≤ (sendsTo r t').length := by
  obtain ⟨pre, rfl⟩ := h
  simp

theorem length_recvsFrom_le {s : ℕ} {t t' : List (Event β)} (h : t <:+ t') :
    (recvsFrom s t).length ≤ (recvsFrom s t').length := by
  obtain ⟨pre, rfl⟩ := h
  simp

/-- Of two final parts of a list one is a final part of the other. -/
theorem suffix_or {α : Type} {a b l : List α} (ha : a <:+ l) (hb : b <:+ l) :
    a <:+ b ∨ b <:+ a := by
  rcases Nat.le_total a.length b.length with h | h
  · exact Or.inl (List.suffix_of_suffix_length_le ha hb h)
  · exact Or.inr (List.suffix_of_suffix_length_le hb ha h)

/-- Every rank is done, or waits for a message that its sender has yet to send. -/
def Waiting (todo : ℕ → List (Event β)) : Prop :=
  ∀ r, todo r = [] ∨ ∃ s, (recvsFrom s (todo r)).length < (sendsTo r (todo s)).length

/-- Ranks that have come to a round and wait have left it behind. -/
theorem Waiting.round {todo R W : ℕ → List (Event β)} (h : Waiting todo) (hR : Round R)
    (hW : Matched W) (htodo : ∀ r, todo r <:+ R r ++ W r) : ∀ r, todo r <:+ W r := by
  have hRW := hR.matched.append hW
  choose snds rcvs heq hs hr using hR.order
  -- all ranks have sent the messages of the round
  have hsent (r) : todo r <:+ rcvs r ++ W r := by
    rcases h r with hnil | ⟨s, hlt⟩
    · rw [hnil]
      exact List.nil_suffix
    have hsuf : rcvs r ++ W r <:+ R r ++ W r := by
      rw [heq, List.append_assoc]
      exact List.suffix_append ..
    refine (suffix_or (htodo r) hsuf).resolve_right fun hmore => ?_
    have hrecvs : recvsFrom s (R r ++ W r) = recvsFrom s (rcvs r ++ W r) := by
      rw [heq, List.append_assoc, recvsFrom_append, recvsFrom_of_sends (hs r), List.nil_append]
    have h₁ := length_recvsFrom_le (s := s) hmore
    have h₂ := length_sendsTo_le (r := r) (htodo s)
    rw [hRW s r, hrecvs] at h₂
    omega
  -- hence nobody waits for one of them
  intro r
  rcases h r with hnil | ⟨s, hlt⟩
  · rw [hnil]
    exact List.nil_suffix
  refine (suffix_or (hsent r) (List.suffix_append ..)).resolve_right fun hmore => ?_
  have h₁ := length_recvsFrom_le (s := s) hmore
  have h₂ := length_sendsTo_le (r := r) (hsent s)
  rw [sendsTo_append, sendsTo_of_recvs (hr s), List.nil_append, hW s r] at h₂
  omega

/-- Ranks that wait are done. -/
theorem Paced.drained {K : ℕ} {T todo : ℕ → List (Event β)} (hT : Paced K T)
    (htodo : ∀ r, todo r <:+ T r) (h : Waiting todo) (r : ℕ) : todo r = [] := by
  obtain ⟨R, hR, hT⟩ := hT
  have hgo : ∀ d k, k + d = K →
      (∀ r, todo r <:+ (List.range' k d).flatMap fun j => R j r) → ∀ r, todo r = [] := by
    intro d
    induction d with
    | zero =>
      intro k _ hsuf r
      simpa using hsuf r
    | succ d ih =>
      intro k hk hsuf
      refine ih (k + 1) (by omega) (h.round (hR k) (Matched.flatMap _ fun j _ => (hR j).matched) ?_)
      simpa only [List.range'_succ, List.flatMap_cons] using hsuf
  refine hgo K 0 (Nat.zero_add K) (fun r => ?_) r
  rw [← List.range_eq_range', ← hT]
  exact htodo r

end Kucg.Lib
