import Kucg.Algo.Exchange
import Kucg.Lib.OneSided

/-! The rolling allgather of ranks that write into each other's memory.

    In every step a rank exchanges blocks with one of its neighbours, with the two of them in turn;
    of two partners, the one with the greater number puts first and the other one waits first. What
    goes over the edge between rank `p` and its right neighbour is numbered: to the right, message
    `m` is the block `m` to the left of `p`; to the left, it is the block `m` to the right of the
    neighbour. Both partners come to message `m` at the same time (`edgeTime`), though not in the
    same step where the circle has an odd number of ranks and closes. So puts and waits can be
    paired edge by edge (`putsOf_rolling`, `waitsOf_rolling`).

    Empty blocks are neither put nor waited for. -/

namespace Kucg.Algo

open Kucg.Lib

/-- The partner of rank `v` in step `k`. -/
def rollPeer (n v k : ℕ) : ℕ := if (v + k) % 2 = 1 then leftOf n v else rightOf n v

/-- The block that it puts. -/
def rollSend (n v k : ℕ) : ℕ := if (v + k) % 2 = 1 then (v + k / 2) % n else (v + n - k / 2) % n

/-- The block that it waits for. -/
def rollRecv (n v k : ℕ) : ℕ :=
  if (v + k) % 2 = 1 then (leftOf n v + n - k / 2) % n else (rightOf n v + k / 2) % n

/-- The put, unless the block is empty. A put to the right raises event 1 of the partner, and a put
    to the left event 2. -/
def rollPut (n : ℕ) (nz : ℕ → Bool) (v k : ℕ) : List (StreamTask ℕ) :=
  if nz (rollSend n v k) then
    [.put (rollPeer n v k) (some (if (v + k) % 2 = 1 then 2 else 1)) [rollSend n v k]
      [rollSend n v k]]
  else []

/-- The wait, unless the block is empty. -/
def rollWait (n : ℕ) (nz : ℕ → Bool) (v k : ℕ) : List (StreamTask ℕ) :=
  if nz (rollRecv n v k) then [.wait (if (v + k) % 2 = 1 then 1 else 2)] else []

/-- Step `k` of rank `v`. -/
def rollStep (n : ℕ) (nz : ℕ → Bool) (v k : ℕ) : List (StreamTask ℕ) :=
  if rollPeer n v k < v then rollPut n nz v k ++ rollWait n nz v k
  else rollWait n nz v k ++ rollPut n nz v k

/-- All steps of rank `v`. -/
def rollTasks (n : ℕ) (nz : ℕ → Bool) (v : ℕ) : List (StreamTask ℕ) :=
  (List.range (n - 1)).flatMap (rollStep n nz v)

/-! ### Stamps -/

/-- When rank `p` and its right neighbour exchange their `m`-th messages. -/
def edgeTime (n p m : ℕ) : ℕ :=
  if p + 1 = n ∧ n % 2 = 1 then 4 * m + 1 else 2 * (2 * m + p % 2)

/-- When rank `v` does step `k`. -/
def rollTime (n v k : ℕ) : ℕ := edgeTime n (if (v + k) % 2 = 1 then leftOf n v else v) (k / 2)

/-- The stamp of a put: that of the greater partner comes first. -/
def putStamp (base t v peer : ℕ) : ℕ := base + 4 * t + if peer < v then 0 else 2

/-- The stamp of a wait. -/
def waitStamp (base t v peer : ℕ) : ℕ := base + 4 * t + if peer < v then 3 else 1

/-- Step `k` of rank `v`, its put and its wait with labels. -/
def rollLabeled {α : Type} (n : ℕ) (nz : ℕ → Bool) (put wait : ℕ → ℕ → α) (v k : ℕ) :
    List (α × StreamTask ℕ) :=
  let puts := (rollPut n nz v k).map fun x => (put v k, x)
  let waits := (rollWait n nz v k).map fun x => (wait v k, x)
  if rollPeer n v k < v then puts ++ waits else waits ++ puts

/-- The labelled steps, if `v` is one of the ranks on the circle. -/
def rollingBy {α : Type} (n : ℕ) (nz : ℕ → Bool) (put wait : ℕ → ℕ → α) (v : ℕ) :
    List (α × StreamTask ℕ) :=
  if v < n then (List.range (n - 1)).flatMap (rollLabeled n nz put wait v) else []

/-- The stamp of the put in a step. -/
def rollPutStamp (n base v k : ℕ) : ℕ := putStamp base (rollTime n v k) v (rollPeer n v k)

/-- The stamp of the wait. -/
def rollWaitStamp (n base v k : ℕ) : ℕ := waitStamp base (rollTime n v k) v (rollPeer n v k)

/-- The stamped steps. -/
def rolling (n : ℕ) (nz : ℕ → Bool) (base v : ℕ) : List (ℕ × StreamTask ℕ) :=
  rollingBy n nz (rollPutStamp n base) (rollWaitStamp n base) v

section Stamps

variable {n v w k p q m base : ℕ} {nz : ℕ → Bool}

theorem map_snd_rollLabeled {α : Type} {put wait : ℕ → ℕ → α} :
    (rollLabeled n nz put wait v k).map Prod.snd = rollStep n nz v k := by
  simp only [rollLabeled, rollStep]
  split_ifs <;> simp [List.map_append, Function.comp_def]

theorem map_snd_rolling (hv : v < n) : (rolling n nz base v).map Prod.snd = rollTasks n nz v := by
  rw [rolling, rollingBy, if_pos hv, List.map_flatMap, rollTasks]
  exact List.flatMap_congr fun k _ => map_snd_rollLabeled

theorem edgeTime_lt_succ : edgeTime n p m < edgeTime n p (m + 1) := by
  rw [edgeTime, edgeTime]
  split_ifs <;> omega

/-- A rank is done with a step before the next one. -/
theorem rollTime_lt_succ (hn : 3 ≤ n) (hv : v < n) : rollTime n v k < rollTime n v (k + 1) := by
  have hleft : leftOf n v = if v = 0 then n - 1 else v - 1 := by
    rw [leftOf, mod_eq_ite (by omega : v + n - 1 < 2 * n)]
    split_ifs <;> omega
  simp only [rollTime, edgeTime, hleft]
  split_ifs <;> omega

theorem rollTime_strictMono (hn : 3 ≤ n) (hv : v < n) : StrictMono (rollTime n v) :=
  strictMono_nat_of_lt_succ fun _ => rollTime_lt_succ hn hv

theorem stamp_bounds {x : ℕ × StreamTask ℕ}
    (hx : x ∈ rollLabeled n nz (rollPutStamp n base) (rollWaitStamp n base) v k) :
    base + 4 * rollTime n v k ≤ x.1 ∧ x.1 < base + 4 * (rollTime n v k + 1) := by
  have hlabel : x.1 = rollPutStamp n base v k ∨ x.1 = rollWaitStamp n base v k := by
    simp only [rollLabeled] at hx
    split_ifs at hx <;> simp only [List.mem_append, List.mem_map] at hx <;>
      obtain ⟨_, _, rfl⟩ | ⟨_, _, rfl⟩ := hx <;> simp
  rcases hlabel with h | h <;>
    rw [h] <;> simp only [rollPutStamp, rollWaitStamp, putStamp, waitStamp] <;> split_ifs <;> omega

theorem pairwise_rollStamped : (rollLabeled n nz (rollPutStamp n base) (rollWaitStamp n base) v
    k).Pairwise fun x y => x.1 < y.1 := by
  simp only [rollLabeled, rollPut, rollWait, rollPutStamp, rollWaitStamp, putStamp, waitStamp]
  split_ifs <;> simp

theorem pairwise_rolling (hn : 3 ≤ n) : (rolling n nz base v).Pairwise fun x y => x.1 < y.1 := by
  rw [rolling, rollingBy]
  split_ifs with hv
  · refine List.pairwise_flatMap.mpr ⟨fun _ _ => pairwise_rollStamped, ?_⟩
    refine List.pairwise_lt_range.imp fun {i j} hij x hx y hy => ?_
    have := rollTime_strictMono hn hv hij
    have := stamp_bounds hx
    have := stamp_bounds hy
    omega
  · exact List.Pairwise.nil

theorem base_le_rolling {x : ℕ × StreamTask ℕ} (hx : x ∈ rolling n nz base v) : base ≤ x.1 := by
  rw [rolling, rollingBy] at hx
  split_ifs at hx
  · obtain ⟨k, -, hx⟩ := List.mem_flatMap.mp hx
    have := stamp_bounds hx
    omega
  · exact absurd hx List.not_mem_nil

end Stamps

/-! ### The messages of an edge -/

/-- How many messages go each way over the edge between rank `p` and its right neighbour. -/
def edgeCount (n p : ℕ) : ℕ := (n - p % 2) / 2

/-- The messages to the right that are not empty. -/
def edgeRight (n : ℕ) (nz : ℕ → Bool) (p : ℕ) : List ℕ :=
  (List.range (edgeCount n p)).filter fun m => nz ((p + n - m) % n)

/-- The messages to the left that are not empty. -/
def edgeLeft (n : ℕ) (nz : ℕ → Bool) (p : ℕ) : List ℕ :=
  (List.range (edgeCount n p)).filter fun m => nz ((rightOf n p + m) % n)

section Edges

variable {n v w k p q m base : ℕ} {nz : ℕ → Bool}

/-- The numbers of one parity. -/
theorem flatMap_parity {α : Type} {a : ℕ} (ha : a < 2) (f : ℕ → List α) : ∀ K : ℕ,
    ((List.range K).flatMap fun k => if k % 2 = a then f (k / 2) else []) =
      (List.range ((K + 1 - a) / 2)).flatMap f
  | 0 => by rw [show (0 + 1 - a) / 2 = 0 by omega]; rfl
  | K + 1 => by
    rw [List.range_succ, List.flatMap_append, flatMap_parity ha f K, List.flatMap_singleton]
    split_ifs with h
    · rw [show (K + 1 + 1 - a) / 2 = (K + 1 - a) / 2 + 1 by omega, List.range_succ,
        List.flatMap_append, List.flatMap_singleton, show K / 2 = (K + 1 - a) / 2 by omega]
    · rw [List.append_nil, show (K + 1 + 1 - a) / 2 = (K + 1 - a) / 2 by omega]

theorem flatMap_ite {α : Type} {c : ℕ → Bool} {g : ℕ → α} : ∀ {l : List ℕ},
    (l.flatMap fun m => if c m then [g m] else []) = (l.filter c).map g
  | [] => rfl
  | m :: l => by
    rw [List.flatMap_cons, flatMap_ite, List.filter_cons]
    split_ifs <;> rfl

/-- The neighbours meet in step `2 * m + p % 2` of the left one. -/
theorem edgeCount_right (hn : 3 ≤ n) : (n - 1 + 1 - p % 2) / 2 = edgeCount n p := by
  rw [edgeCount, Nat.sub_add_cancel (by omega)]

/-- In step `2 * m + (q + 1) % 2` of the right one. -/
theorem edgeCount_left (hn : 3 ≤ n) (hq : q < n) :
    (n - 1 + 1 - (q + 1) % 2) / 2 = edgeCount n (leftOf n q) := by
  have hleft := leftOf_mod_two (by omega : 0 < n) hq
  rw [edgeCount, hleft]
  split_ifs <;> omega

theorem rightOf_leftOf (hq : q < n) : rightOf n (leftOf n q) = q :=
  (rightOf_eq_iff (leftOf_lt (by omega)) hq).mpr rfl

theorem leftOf_rightOf (hp : p < n) : leftOf n (rightOf n p) = p :=
  (rightOf_eq_iff hp (rightOf_lt (by omega))).mp rfl

theorem filter_stamped {α : Type} {c : Prop} [Decidable c] {P : StreamTask ℕ → Bool} {t : α}
    {x : StreamTask ℕ} :
    ((((if c then [x] else []).map fun y => (t, y)).filter fun y => P y.2).map Prod.fst) =
      if P x then if c then [t] else [] else [] := by
  by_cases hc : c
  · rw [if_pos hc, if_pos hc, List.map_singleton, List.filter_singleton]
    cases P x <;> rfl
  · rw [if_neg hc, if_neg hc, ite_self]
    rfl

variable {α : Type} {put wait : ℕ → ℕ → α}

/-- The put of a step. -/
theorem puts_rollLabeled {e : ℕ} :
    ((rollLabeled n nz put wait v k).filter fun x => x.2.raises w e).map Prod.fst =
      if rollPeer n v k = w ∧ (if (v + k) % 2 = 1 then 2 else 1) = e then
        if nz (rollSend n v k) then [put v k] else [] else [] := by
  have hput := filter_stamped (c := nz (rollSend n v k)) (P := StreamTask.raises w e) (t := put v k)
    (x := .put (rollPeer n v k) (some (if (v + k) % 2 = 1 then 2 else 1)) [rollSend n v k]
      [rollSend n v k])
  have hwait := filter_stamped (c := nz (rollRecv n v k)) (P := StreamTask.raises w e)
    (t := wait v k) (x := .wait (if (v + k) % 2 = 1 then 1 else 2))
  rw [StreamTask.raises_wait, if_neg Bool.false_ne_true] at hwait
  simp only [StreamTask.raises_put, Option.some.injEq] at hput
  simp only [rollLabeled, rollPut, rollWait]
  by_cases hlt : rollPeer n v k < v
  · rw [if_pos hlt, List.filter_append, List.map_append, hput, hwait, List.append_nil]
  · rw [if_neg hlt, List.filter_append, List.map_append, hput, hwait, List.nil_append]

/-- The wait of a step. -/
theorem waits_rollLabeled {e : ℕ} :
    ((rollLabeled n nz put wait v k).filter fun x => x.2.awaits e).map Prod.fst =
      if (if (v + k) % 2 = 1 then 1 else 2) = e then
        if nz (rollRecv n v k) then [wait v k] else [] else [] := by
  have hput := filter_stamped (c := nz (rollSend n v k)) (P := StreamTask.awaits e) (t := put v k)
    (x := .put (rollPeer n v k) (some (if (v + k) % 2 = 1 then 2 else 1)) [rollSend n v k]
      [rollSend n v k])
  have hwait := filter_stamped (c := nz (rollRecv n v k)) (P := StreamTask.awaits e)
    (t := wait v k) (x := .wait (if (v + k) % 2 = 1 then 1 else 2))
  rw [StreamTask.awaits_put, if_neg Bool.false_ne_true] at hput
  simp only [StreamTask.awaits_wait] at hwait
  simp only [rollLabeled, rollPut, rollWait]
  by_cases hlt : rollPeer n v k < v
  · rw [if_pos hlt, List.filter_append, List.map_append, hput, hwait, List.nil_append]
  · rw [if_neg hlt, List.filter_append, List.map_append, hput, hwait, List.append_nil]

/-- The step in which rank `p` exchanges its `m`-th messages with its right neighbour. -/
def stepRight (p m : ℕ) : ℕ := 2 * m + p % 2

/-- The step in which rank `q` exchanges the `m`-th messages with its left neighbour. -/
def stepLeft (q m : ℕ) : ℕ := 2 * m + (q + 1) % 2

variable (nz put wait) in
/-- The puts of rank `v` to its right neighbour. -/
theorem puts_rollingBy_right (hn : 3 ≤ n) (hv : v < n) :
    ((rollingBy n nz put wait v).filter fun x => x.2.raises (rightOf n v) 1).map Prod.fst =
      (edgeRight n nz v).map fun m => put v (stepRight v m) := by
  have hstep (k : ℕ) : ((rollLabeled n nz put wait v k).filter fun x =>
      x.2.raises (rightOf n v) 1).map Prod.fst = if k % 2 = v % 2 then
        if nz ((v + n - k / 2) % n) then [put v (stepRight v (k / 2))] else [] else [] := by
    rw [puts_rollLabeled, rollPeer, rollSend]
    by_cases h : (v + k) % 2 = 1
    · have hk : ¬k % 2 = v % 2 := by omega
      simp [h, hk]
    · have hk : k % 2 = v % 2 := by omega
      have hk' : stepRight v (k / 2) = k := by rw [stepRight]; omega
      simp [h, hk, hk']
  rw [rollingBy, if_pos hv, List.filter_flatMap, List.map_flatMap]
  simp only [hstep]
  rw [flatMap_parity (Nat.mod_lt _ (by omega)) (fun m => if nz ((v + n - m) % n) then
    [put v (stepRight v m)] else []), edgeCount_right hn, flatMap_ite]
  rfl

variable (nz put wait) in
/-- Its waits for them. -/
theorem waits_rollingBy_right (hn : 3 ≤ n) (hv : v < n) :
    ((rollingBy n nz put wait (rightOf n v)).filter fun x => x.2.awaits 1).map Prod.fst =
      (edgeRight n nz v).map fun m => wait (rightOf n v) (stepLeft (rightOf n v) m) := by
  have hr := rightOf_lt (v := v) (by omega : 0 < n)
  have hl := leftOf_rightOf hv
  have hstep (k : ℕ) : ((rollLabeled n nz put wait (rightOf n v) k).filter fun x =>
      x.2.awaits 1).map Prod.fst = if k % 2 = (rightOf n v + 1) % 2 then
        if nz ((v + n - k / 2) % n) then [wait (rightOf n v) (stepLeft (rightOf n v) (k / 2))]
        else [] else [] := by
    rw [waits_rollLabeled, rollRecv, hl]
    by_cases h : (rightOf n v + k) % 2 = 1
    · have hk : k % 2 = (rightOf n v + 1) % 2 := by omega
      have hk' : stepLeft (rightOf n v) (k / 2) = k := by rw [stepLeft]; omega
      simp [h, hk, hk']
    · have hk : ¬k % 2 = (rightOf n v + 1) % 2 := by omega
      simp [h, hk]
  rw [rollingBy, if_pos hr, List.filter_flatMap, List.map_flatMap]
  simp only [hstep]
  rw [flatMap_parity (Nat.mod_lt _ (by omega)) (fun m => if nz ((v + n - m) % n) then
    [wait (rightOf n v) (stepLeft (rightOf n v) m)] else []), edgeCount_left hn hr, hl, flatMap_ite]
  rfl

/-- The puts of the right neighbour to rank `v`. -/
theorem puts_rollingBy_left (hn : 3 ≤ n) (hv : v < n) :
    ((rollingBy n nz put wait (rightOf n v)).filter fun x => x.2.raises v 2).map Prod.fst =
      (edgeLeft n nz v).map fun m => put (rightOf n v) (stepLeft (rightOf n v) m) := by
  have hr := rightOf_lt (v := v) (by omega : 0 < n)
  have hl := leftOf_rightOf hv
  have hstep (k : ℕ) : ((rollLabeled n nz put wait (rightOf n v) k).filter fun x =>
      x.2.raises v 2).map Prod.fst = if k % 2 = (rightOf n v + 1) % 2 then
        if nz ((rightOf n v + k / 2) % n) then
          [put (rightOf n v) (stepLeft (rightOf n v) (k / 2))] else [] else [] := by
    rw [puts_rollLabeled, rollPeer, rollSend, hl]
    by_cases h : (rightOf n v + k) % 2 = 1
    · have hk : k % 2 = (rightOf n v + 1) % 2 := by omega
      have hk' : stepLeft (rightOf n v) (k / 2) = k := by rw [stepLeft]; omega
      simp [h, hk, hk']
    · have hk : ¬k % 2 = (rightOf n v + 1) % 2 := by omega
      simp [h, hk]
  rw [rollingBy, if_pos hr, List.filter_flatMap, List.map_flatMap]
  simp only [hstep]
  rw [flatMap_parity (Nat.mod_lt _ (by omega)) (fun m => if nz ((rightOf n v + m) % n) then
    [put (rightOf n v) (stepLeft (rightOf n v) m)] else []), edgeCount_left hn hr, hl, flatMap_ite]
  rfl

/-- Its waits for them. -/
theorem waits_rollingBy_left (hn : 3 ≤ n) (hv : v < n) :
    ((rollingBy n nz put wait v).filter fun x => x.2.awaits 2).map Prod.fst =
      (edgeLeft n nz v).map fun m => wait v (stepRight v m) := by
  have hstep (k : ℕ) : ((rollLabeled n nz put wait v k).filter fun x =>
      x.2.awaits 2).map Prod.fst = if k % 2 = v % 2 then
        if nz ((rightOf n v + k / 2) % n) then [wait v (stepRight v (k / 2))] else [] else [] := by
    rw [waits_rollLabeled, rollRecv]
    by_cases h : (v + k) % 2 = 1
    · have hk : ¬k % 2 = v % 2 := by omega
      simp [h, hk]
    · have hk : k % 2 = v % 2 := by omega
      have hk' : stepRight v (k / 2) = k := by rw [stepRight]; omega
      simp [h, hk, hk']
  rw [rollingBy, if_pos hv, List.filter_flatMap, List.map_flatMap]
  simp only [hstep]
  rw [flatMap_parity (Nat.mod_lt _ (by omega)) (fun m => if nz ((rightOf n v + m) % n) then
    [wait v (stepRight v m)] else []), edgeCount_right hn, flatMap_ite]
  rfl

/-- Event 1 is raised by the left neighbour, event 2 by the right one, and no other event. -/
theorem puts_rollingBy_nil {e : ℕ} (h₁ : ¬(w < n ∧ e = 1 ∧ v = leftOf n w))
    (h₂ : ¬(w < n ∧ e = 2 ∧ v = rightOf n w)) :
    ((rollingBy n nz put wait v).filter fun x => x.2.raises w e).map Prod.fst = [] := by
  rw [rollingBy]
  split_ifs with hv
  · rw [List.filter_flatMap, List.map_flatMap, List.flatMap_eq_nil_iff]
    intro k _
    rw [puts_rollLabeled, if_neg]
    rintro ⟨hpeer, rfl⟩
    have hw : w < n := by
      rw [← hpeer, rollPeer]
      split_ifs
      · exact leftOf_lt (by omega)
      · exact rightOf_lt (by omega)
    rw [rollPeer] at hpeer
    split_ifs at hpeer h₁ h₂ with h
    · exact h₂ ⟨hw, rfl, ((rightOf_eq_iff hw hv).mpr hpeer).symm⟩
    · exact h₁ ⟨hw, rfl, ((rightOf_eq_iff hv hw).mp hpeer).symm⟩
  · rfl

theorem waits_rollingBy_nil {e : ℕ} (h₁ : ¬(v < n ∧ e = 1)) (h₂ : ¬(v < n ∧ e = 2)) :
    ((rollingBy n nz put wait v).filter fun x => x.2.awaits e).map Prod.fst = [] := by
  rw [rollingBy]
  split_ifs with hv
  · rw [List.filter_flatMap, List.map_flatMap, List.flatMap_eq_nil_iff]
    intro k _
    rw [waits_rollLabeled, if_neg]
    split_ifs
    · exact fun he => h₁ ⟨hv, he.symm⟩
    · exact fun he => h₂ ⟨hv, he.symm⟩
  · rfl

/-- Both neighbours do their steps for a message at the same time. -/
theorem rollTime_stepRight : rollTime n v (stepRight v m) = edgeTime n v m := by
  rw [rollTime, stepRight, if_neg (by omega), show (2 * m + v % 2) / 2 = m by omega]

theorem rollTime_stepLeft : rollTime n v (stepLeft v m) = edgeTime n (leftOf n v) m := by
  rw [rollTime, stepLeft, if_pos (by omega), show (2 * m + (v + 1) % 2) / 2 = m by omega]

theorem rollPeer_stepRight : rollPeer n v (stepRight v m) = rightOf n v := by
  rw [rollPeer, stepRight, if_neg (by omega)]

theorem rollPeer_stepLeft : rollPeer n v (stepLeft v m) = leftOf n v := by
  rw [rollPeer, stepLeft, if_pos (by omega)]

variable (base nz) in
theorem putsOf_rolling_right (hn : 3 ≤ n) (hv : v < n) :
    putsOf (rolling n nz base) v (rightOf n v) 1 =
      (edgeRight n nz v).map fun m => putStamp base (edgeTime n v m) v (rightOf n v) := by
  rw [putsOf, rolling, puts_rollingBy_right _ _ _ hn hv]
  simp only [rollPutStamp, rollTime_stepRight, rollPeer_stepRight]

variable (base nz) in
theorem waitsOf_rolling_right (hn : 3 ≤ n) (hv : v < n) :
    waitsOf (rolling n nz base) (rightOf n v) 1 =
      (edgeRight n nz v).map fun m => waitStamp base (edgeTime n v m) (rightOf n v) v := by
  rw [waitsOf, rolling, waits_rollingBy_right _ _ _ hn hv]
  simp only [rollWaitStamp, rollTime_stepLeft, rollPeer_stepLeft, leftOf_rightOf hv]

variable (base nz) in
theorem putsOf_rolling_left (hn : 3 ≤ n) (hv : v < n) :
    putsOf (rolling n nz base) (rightOf n v) v 2 =
      (edgeLeft n nz v).map fun m => putStamp base (edgeTime n v m) (rightOf n v) v := by
  rw [putsOf, rolling, puts_rollingBy_left hn hv]
  simp only [rollPutStamp, rollTime_stepLeft, rollPeer_stepLeft, leftOf_rightOf hv]

variable (base nz) in
theorem waitsOf_rolling_left (hn : 3 ≤ n) (hv : v < n) :
    waitsOf (rolling n nz base) v 2 =
      (edgeLeft n nz v).map fun m => waitStamp base (edgeTime n v m) v (rightOf n v) := by
  rw [waitsOf, rolling, waits_rollingBy_left hn hv]
  simp only [rollWaitStamp, rollTime_stepRight, rollPeer_stepRight]

theorem putsOf_rolling_nil {e : ℕ} (h₁ : ¬(w < n ∧ e = 1 ∧ v = leftOf n w))
    (h₂ : ¬(w < n ∧ e = 2 ∧ v = rightOf n w)) : putsOf (rolling n nz base) v w e = [] :=
  puts_rollingBy_nil h₁ h₂

theorem waitsOf_rolling_nil {e : ℕ} (h₁ : ¬(v < n ∧ e = 1)) (h₂ : ¬(v < n ∧ e = 2)) :
    waitsOf (rolling n nz base) v e = [] := waits_rollingBy_nil h₁ h₂

end Edges

/-! ### After a prelude

    Before they roll, the ranks do something that hands out the blocks with which they start, on an
    event of its own. Not all of them need to be on the circle. -/

/-- Who raises an event. -/
def rollSender (n : ℕ) (src : ℕ → ℕ) (q e : ℕ) : ℕ :=
  if q < n ∧ e = 1 then leftOf n q else if q < n ∧ e = 2 then rightOf n q else src q

/-- The prelude and the steps. -/
def rollAfter (pre : ℕ → List (ℕ × StreamTask ℕ)) (n : ℕ) (nz : ℕ → Bool) (base v : ℕ) :
    List (ℕ × StreamTask ℕ) := pre v ++ rolling n nz base v

/-- What `N` ranks do on event 0, before `base`. Rank `q` waits for rank `src q`, if at all. -/
structure Prelude (N base : ℕ) (pre : ℕ → List (ℕ × StreamTask ℕ)) (src : ℕ → ℕ) : Prop where
  paired : Paired N pre fun q _ => src q
  stamp_lt : ∀ p < N, ∀ x ∈ pre p, x.1 < base
  puts_nil : ∀ p < N, ∀ q e, e ≠ 0 → putsOf pre p q e = []
  waits_nil : ∀ p < N, ∀ e, e ≠ 0 → waitsOf pre p e = []
  once : ∀ q < N, (waitsOf pre q 0).length ≤ 1

section After

variable {n N base : ℕ} {nz : ℕ → Bool} {pre : ℕ → List (ℕ × StreamTask ℕ)} {src : ℕ → ℕ}

theorem putsOf_rollAfter {s q e : ℕ} : putsOf (rollAfter pre n nz base) s q e =
    putsOf pre s q e ++ putsOf (rolling n nz base) s q e := by
  rw [putsOf, rollAfter, List.filter_append, List.map_append]
  rfl

theorem waitsOf_rollAfter {q e : ℕ} : waitsOf (rollAfter pre n nz base) q e =
    waitsOf pre q e ++ waitsOf (rolling n nz base) q e := by
  rw [waitsOf, rollAfter, List.filter_append, List.map_append]
  rfl

theorem forall₂_map_map {f g : ℕ → ℕ} {l : List ℕ} (h : ∀ m ∈ l, f m < g m) :
    List.Forall₂ (· < ·) (l.map f) (l.map g) := by
  rw [List.forall₂_map_left_iff, List.forall₂_map_right_iff, List.forall₂_same]
  exact h

theorem putStamp_lt_waitStamp {t v w : ℕ} (h : v ≠ w) :
    putStamp base t v w < waitStamp base t w v := by
  rw [putStamp, waitStamp]
  split_ifs <;> omega

theorem rightOf_ne {v : ℕ} (hn : 3 ≤ n) (hv : v < n) : v ≠ rightOf n v := by
  rw [rightOf, mod_eq_ite (by omega)]
  split_ifs <;> omega

/-- The pairs of the steps. -/
theorem pairs_rolling {q e : ℕ} (hn : 3 ≤ n) (hq : q < n) (he : e = 1 ∨ e = 2) :
    List.Forall₂ (· < ·)
    (putsOf (rolling n nz base) (rollSender n src q e) q e)
    (waitsOf (rolling n nz base) q e) := by
  rcases he with rfl | rfl
  · have hl := leftOf_lt (v := q) (by omega : 0 < n)
    have hlr := rightOf_leftOf hq
    rw [rollSender, if_pos ⟨hq, rfl⟩]
    have hne := rightOf_ne hn hl
    have hput := putsOf_rolling_right base nz hn hl
    have hwait := waitsOf_rolling_right base nz hn hl
    rw [hlr] at hne hput hwait
    rw [hput, hwait]
    exact forall₂_map_map fun m _ => putStamp_lt_waitStamp hne
  · rw [rollSender, if_neg (by simp), if_pos ⟨hq, rfl⟩, putsOf_rolling_left _ _ hn hq,
      waitsOf_rolling_left _ _ hn hq]
    exact forall₂_map_map fun m _ => putStamp_lt_waitStamp (rightOf_ne hn hq).symm

theorem peer_lt_rolling {p t q : ℕ} {ev : Option ℕ} {srcs dst : List ℕ}
    (hmem : (t, .put q ev srcs dst) ∈ rolling n nz base p) : q < n := by
  rw [rolling, rollingBy] at hmem
  split_ifs at hmem with hp
  · obtain ⟨k, -, hk⟩ := List.mem_flatMap.mp hmem
    have hq : q = rollPeer n p k := by
      simp only [rollLabeled, rollPut, rollWait] at hk
      split_ifs at hk <;> simp at hk <;> simp [hk]
    rw [hq, rollPeer]
    split_ifs
    · exact leftOf_lt (by omega)
    · exact rightOf_lt (by omega)
  · exact absurd hmem List.not_mem_nil

theorem rollSender_lt {q e : ℕ} (h : Prelude N base pre src) (hn : 3 ≤ n) (hnN : n ≤ N)
    (hq : q < N) : rollSender n src q e < N := by
  rw [rollSender]
  split_ifs
  · exact (leftOf_lt (by omega)).trans_le hnN
  · exact (rightOf_lt (by omega)).trans_le hnN
  · exact h.paired.sender_lt q hq e

/-- On the events of the circle there is nothing but the steps. -/
theorem Prelude.putsOf_roll {p q e : ℕ} (h : Prelude N base pre src) (hp : p < N) (he : e ≠ 0) :
    putsOf (rollAfter pre n nz base) p q e = putsOf (rolling n nz base) p q e := by
  rw [putsOf_rollAfter, h.puts_nil p hp q e he, List.nil_append]

theorem Prelude.waitsOf_roll {q e : ℕ} (h : Prelude N base pre src) (hq : q < N) (he : e ≠ 0) :
    waitsOf (rollAfter pre n nz base) q e = waitsOf (rolling n nz base) q e := by
  rw [waitsOf_rollAfter, h.waits_nil q hq e he, List.nil_append]

/-- On the others nothing but the prelude. -/
theorem putsOf_pre {p q e : ℕ} (he : ¬(q < n ∧ (e = 1 ∨ e = 2))) :
    putsOf (rollAfter pre n nz base) p q e = putsOf pre p q e := by
  rw [putsOf_rollAfter, putsOf_rolling_nil (fun hc => he ⟨hc.1, Or.inl hc.2.1⟩)
    fun hc => he ⟨hc.1, Or.inr hc.2.1⟩, List.append_nil]

theorem waitsOf_pre {q e : ℕ} (he : ¬(q < n ∧ (e = 1 ∨ e = 2))) :
    waitsOf (rollAfter pre n nz base) q e = waitsOf pre q e := by
  rw [waitsOf_rollAfter, waitsOf_rolling_nil (fun hc => he ⟨hc.1, Or.inl hc.2⟩)
    fun hc => he ⟨hc.1, Or.inr hc.2⟩, List.append_nil]

theorem rollSender_pre {q e : ℕ} (he : ¬(q < n ∧ (e = 1 ∨ e = 2))) :
    rollSender n src q e = src q := by
  rw [rollSender, if_neg fun hc => he ⟨hc.1, Or.inl hc.2⟩, if_neg fun hc => he ⟨hc.1, Or.inr hc.2⟩]

theorem Prelude.paired_rollAfter (h : Prelude N base pre src) (hn : 3 ≤ n) (hnN : n ≤ N) :
    Paired N (rollAfter pre n nz base) (rollSender n src) where
  sorted p hp := by
    refine List.pairwise_append.mpr ⟨h.paired.sorted p hp, pairwise_rolling hn, ?_⟩
    intro x hx y hy
    exact (h.stamp_lt p hp x hx).trans_le (base_le_rolling hy)
  peer_lt p hp t q ev srcs dst hmem := by
    rcases List.mem_append.mp hmem with hmem | hmem
    · exact h.paired.peer_lt p hp t q ev srcs dst hmem
    · exact (peer_lt_rolling hmem).trans_le hnN
  sender_lt q hq e := rollSender_lt h hn hnN hq
  puts_nil q hq e p hp hne := by
    by_cases he : q < n ∧ (e = 1 ∨ e = 2)
    · rw [h.putsOf_roll hp (by omega)]
      refine putsOf_rolling_nil (fun hc => hne ?_) fun hc => hne ?_
      · rw [rollSender, if_pos ⟨hc.1, hc.2.1⟩]
        exact hc.2.2
      · rw [rollSender, if_neg (by omega), if_pos ⟨hc.1, hc.2.1⟩]
        exact hc.2.2
    · rw [rollSender_pre he] at hne
      rw [putsOf_pre he]
      exact h.paired.puts_nil q hq e p hp hne
  pairs q hq e := by
    by_cases he : q < n ∧ (e = 1 ∨ e = 2)
    · rw [h.putsOf_roll (rollSender_lt h hn hnN hq) (by omega), h.waitsOf_roll hq (by omega)]
      exact pairs_rolling hn he.1 he.2
    · rw [putsOf_pre he, waitsOf_pre he, rollSender_pre he]
      exact h.paired.pairs q hq e

/-- There are no other events. -/
theorem Prelude.putsOf_nil {p q e : ℕ} (h : Prelude N base pre src) (hp : p < N) (he : 3 ≤ e) :
    putsOf (rollAfter pre n nz base) p q e = [] := by
  rw [h.putsOf_roll hp (by omega), putsOf_rolling_nil (by omega) (by omega)]

theorem Prelude.waitsOf_nil {q e : ℕ} (h : Prelude N base pre src) (hq : q < N) (he : 3 ≤ e) :
    waitsOf (rollAfter pre n nz base) q e = [] := by
  rw [h.waitsOf_roll hq (by omega), waitsOf_rolling_nil (by omega) (by omega)]

/-- Over every edge, between two messages of a rank there is one of its partner: after the first and
    not after the second, or the other way round where the rank puts first. -/
structure Answered (n : ℕ) (nz : ℕ → Bool) : Prop where
  right : ∀ p < n, ∀ m ∈ edgeRight n nz p, ∀ m' ∈ edgeRight n nz p, m < m' →
    ∃ μ ∈ edgeLeft n nz p, if rightOf n p < p then m ≤ μ ∧ μ < m' else m < μ ∧ μ ≤ m'
  left : ∀ p < n, ∀ m ∈ edgeLeft n nz p, ∀ m' ∈ edgeLeft n nz p, m < m' →
    ∃ μ ∈ edgeRight n nz p, if p < rightOf n p then m ≤ μ ∧ μ < m' else m < μ ∧ μ ≤ m'

/-- Where no block is empty, every message is answered. -/
theorem answered_full {n : ℕ} : Answered n fun _ => true where
  right p _ m hm m' hm' hlt := by
    split_ifs
    · exact ⟨m, hm, le_rfl, hlt⟩
    · exact ⟨m', hm', hlt, le_rfl⟩
  left p _ m hm m' hm' hlt := by
    split_ifs
    · exact ⟨m, hm, le_rfl, hlt⟩
    · exact ⟨m', hm', hlt, le_rfl⟩

theorem edgeTime_strictMono {p : ℕ} : StrictMono (edgeTime n p) :=
  strictMono_nat_of_lt_succ fun _ => edgeTime_lt_succ

variable (n base) in
/-- The stamps of a message, the answer to it, and the next message. -/
theorem stamps_of_answer {p v w m μ m' : ℕ} (hne : v ≠ w)
    (h : if w < v then m ≤ μ ∧ μ < m' else m < μ ∧ μ ≤ m') :
    waitStamp base (edgeTime n p m) w v ≤ putStamp base (edgeTime n p μ) w v ∧
      waitStamp base (edgeTime n p μ) v w < putStamp base (edgeTime n p m') v w := by
  have hmono := edgeTime_strictMono (n := n) (p := p)
  rw [putStamp, waitStamp, putStamp, waitStamp]
  by_cases hlt : w < v
  · rw [if_pos hlt] at h
    have h₁ := hmono.monotone h.1
    have h₂ := hmono h.2
    rw [if_neg (by omega), if_neg (by omega), if_pos hlt, if_pos hlt]
    omega
  · rw [if_neg hlt] at h
    have h₁ := hmono h.1
    have h₂ := hmono.monotone h.2
    rw [if_pos (by omega), if_pos (by omega), if_neg hlt, if_neg hlt]
    omega

theorem getElem?_map_filter {f : ℕ → ℕ} {P : ℕ → Bool} {K i t : ℕ}
    (h : (((List.range K).filter P).map f)[i]? = some t) :
    ∃ m, ((List.range K).filter P)[i]? = some m ∧ m ∈ (List.range K).filter P ∧ f m = t := by
  rw [List.getElem?_map, Option.map_eq_some_iff] at h
  obtain ⟨m, hm, rfl⟩ := h
  exact ⟨m, hm, List.mem_of_getElem? hm, rfl⟩

theorem lt_of_getElem?_filter {P : ℕ → Bool} {K i m m' : ℕ}
    (h : ((List.range K).filter P)[i]? = some m)
    (h' : ((List.range K).filter P)[i + 1]? = some m') : m < m' := by
  obtain ⟨hi, rfl⟩ := List.getElem?_eq_some_iff.mp h
  obtain ⟨hi', rfl⟩ := List.getElem?_eq_some_iff.mp h'
  exact List.pairwise_iff_getElem.mp (List.pairwise_lt_range.filter P) i (i + 1) hi hi'
    (Nat.lt_succ_self i)

/-- One direction of an edge: between two of its puts, the sender waits for a put that the receiver
    does after its wait for the first. -/
theorem ack_of_answered {σ : ℕ → List (ℕ × StreamTask ℕ)} {p s q e e₁ K K' i t t' : ℕ}
    {P P' : ℕ → Bool} (hne : s ≠ q)
    (hputs : putsOf σ s q e =
      ((List.range K).filter P).map fun m => putStamp base (edgeTime n p m) s q)
    (hwaits : waitsOf σ q e =
      ((List.range K).filter P).map fun m => waitStamp base (edgeTime n p m) q s)
    (hputs' : putsOf σ q s e₁ =
      ((List.range K').filter P').map fun m => putStamp base (edgeTime n p m) q s)
    (hwaits' : waitsOf σ s e₁ =
      ((List.range K').filter P').map fun m => waitStamp base (edgeTime n p m) s q)
    (hans : ∀ m ∈ (List.range K).filter P, ∀ m' ∈ (List.range K).filter P, m < m' →
      ∃ μ ∈ (List.range K').filter P', if q < s then m ≤ μ ∧ μ < m' else m < μ ∧ μ ≤ m')
    (hput : (putsOf σ s q e)[i + 1]? = some t) (hwait : (waitsOf σ q e)[i]? = some t') :
    ∃ j t₁ t₂ : ℕ, (putsOf σ q s e₁)[j]? = some t₁ ∧ (waitsOf σ s e₁)[j]? = some t₂ ∧
      t' ≤ t₁ ∧ t₂ < t := by
  rw [hputs] at hput
  rw [hwaits] at hwait
  obtain ⟨m', hm', hmem', rfl⟩ := getElem?_map_filter hput
  obtain ⟨m, hm, hmem, rfl⟩ := getElem?_map_filter hwait
  obtain ⟨μ, hμ, hwin⟩ := hans m hmem m' hmem' (lt_of_getElem?_filter hm hm')
  obtain ⟨j, hj⟩ := List.mem_iff_getElem?.mp hμ
  obtain ⟨hle, hlt⟩ := stamps_of_answer n base (p := p) hne hwin
  refine ⟨j, _, _, ?_, ?_, hle, hlt⟩
  · rw [hputs', List.getElem?_map, hj]
    rfl
  · rw [hwaits', List.getElem?_map, hj]
    rfl

/-- If messages are answered, no event is raised twice. -/
theorem Prelude.noOverrun (h : Prelude N base pre src) (hn : 3 ≤ n) (hnN : n ≤ N)
    (hans : Answered n nz) {β : Type} {m₀ : ℕ → ℕ → β} :
    NoOverrun N (tasks (rollAfter pre n nz base)) m₀ := by
  refine (h.paired_rollAfter hn hnN).noOverrun fun q hq e i t t' hput hwait => ?_
  have hs := rollSender_lt (e := e) h hn hnN hq
  by_cases he : q < n ∧ (e = 1 ∨ e = 2)
  · -- the two edges of the rank on the circle
    obtain ⟨hqn, he⟩ := he
    have hl := leftOf_lt (v := q) (by omega : 0 < n)
    have hlr := rightOf_leftOf hqn
    have hr := rightOf_lt (v := q) (by omega : 0 < n)
    have hrl := leftOf_rightOf hqn
    rcases he with rfl | rfl
    · have hsend : rollSender n src q 1 = leftOf n q := by rw [rollSender, if_pos ⟨hqn, rfl⟩]
      have hback : rollSender n src (leftOf n q) 2 = q := by
        rw [rollSender, if_neg (by simp), if_pos ⟨hl, rfl⟩, hlr]
      have hne := rightOf_ne hn hl
      have hputs := putsOf_rolling_right base nz hn hl
      have hwaits := waitsOf_rolling_right base nz hn hl
      have hputs' := putsOf_rolling_left base nz hn hl
      have hwaits' := waitsOf_rolling_left base nz hn hl
      have hans' := hans.right _ hl
      rw [hlr] at hne hputs hwaits hputs' hwaits' hans'
      rw [hsend] at hput hs ⊢
      rw [← h.putsOf_roll hs one_ne_zero] at hputs
      rw [← h.waitsOf_roll hq one_ne_zero] at hwaits
      rw [← h.putsOf_roll hq two_ne_zero] at hputs'
      rw [← h.waitsOf_roll hs two_ne_zero] at hwaits'
      obtain ⟨j, t₁, t₂, hack⟩ :=
        ack_of_answered hne hputs hwaits hputs' hwaits' hans' hput hwait
      exact ⟨2, j, t₁, t₂, hback, hack⟩
    · have hsend : rollSender n src q 2 = rightOf n q := by
        rw [rollSender, if_neg (by simp), if_pos ⟨hqn, rfl⟩]
      have hback : rollSender n src (rightOf n q) 1 = q := by
        rw [rollSender, if_pos ⟨hr, rfl⟩, hrl]
      rw [hsend] at hput hs ⊢
      have hputs := h.putsOf_roll hs two_ne_zero ▸ putsOf_rolling_left base nz hn hqn
      have hwaits := h.waitsOf_roll hq two_ne_zero ▸ waitsOf_rolling_left base nz hn hqn
      have hputs' := h.putsOf_roll hq one_ne_zero ▸ putsOf_rolling_right base nz hn hqn
      have hwaits' := h.waitsOf_roll hs one_ne_zero ▸ waitsOf_rolling_right base nz hn hqn
      obtain ⟨j, t₁, t₂, hack⟩ := ack_of_answered (rightOf_ne hn hqn).symm hputs hwaits hputs'
        hwaits' (hans.left _ hqn) hput hwait
      exact ⟨1, j, t₁, t₂, hback, hack⟩
  · -- The prelude raises its event once.
    have hpaired : Paired N (rollAfter pre n nz base) _ := h.paired_rollAfter hn hnN
    have hlen := (hpaired.pairs q hq e).length_eq
    have hi := (List.getElem?_eq_some_iff.mp hput).1
    rw [hlen, waitsOf_pre he] at hi
    by_cases he₀ : e = 0
    · subst he₀
      have := h.once q hq
      omega
    · rw [h.waits_nil q hq e he₀] at hi
      exact absurd hi (Nat.not_lt_zero _)

/-! ### The blocks -/

theorem rollStep_lt {p m : ℕ} (hm : m < edgeCount n p) : 2 * m + p % 2 < n - 1 := by
  rw [edgeCount] at hm
  omega

variable (base) in
/-- The put of a message to the right. -/
theorem mem_rolling_right {p m : ℕ} (hp : p < n) (hm : m ∈ edgeRight n nz p) :
    (putStamp base (edgeTime n p m) p (rightOf n p), .put (rightOf n p) (some 1)
      [(p + n - m) % n] [(p + n - m) % n]) ∈ rolling n nz base p := by
  obtain ⟨hlt, hnz⟩ := List.mem_filter.mp hm
  have hstep := rollStep_lt (List.mem_range.mp hlt)
  have hpar : ¬(p + (2 * m + p % 2)) % 2 = 1 := by omega
  have hhalf : (2 * m + p % 2) / 2 = m := by omega
  rw [rolling, rollingBy, if_pos hp]
  refine List.mem_flatMap.mpr ⟨2 * m + p % 2, List.mem_range.mpr hstep, ?_⟩
  simp only [rollLabeled, rollPutStamp, rollPut, rollPeer, rollSend, rollTime, if_neg hpar, hhalf,
    if_pos hnz]
  split_ifs <;> simp

variable (base) in
/-- The put of a message to the left. -/
theorem mem_rolling_left {p m : ℕ} (hn : 3 ≤ n) (hp : p < n) (hm : m ∈ edgeLeft n nz p) :
    (putStamp base (edgeTime n p m) (rightOf n p) p, .put p (some 2)
      [(rightOf n p + m) % n] [(rightOf n p + m) % n]) ∈ rolling n nz base (rightOf n p) := by
  obtain ⟨hlt, hnz⟩ := List.mem_filter.mp hm
  have hr := rightOf_lt (v := p) (by omega : 0 < n)
  have hl := leftOf_rightOf hp
  have hcount := edgeCount_left hn hr
  rw [hl] at hcount
  have hmlt := List.mem_range.mp hlt
  have hpar : (rightOf n p + (2 * m + (rightOf n p + 1) % 2)) % 2 = 1 := by omega
  have hhalf : (2 * m + (rightOf n p + 1) % 2) / 2 = m := by omega
  rw [rolling, rollingBy, if_pos hr]
  refine List.mem_flatMap.mpr ⟨2 * m + (rightOf n p + 1) % 2, List.mem_range.mpr (by omega), ?_⟩
  simp only [rollLabeled, rollPutStamp, rollPut, rollPeer, rollSend, rollTime, if_pos hpar, hhalf,
    if_pos hnz, hl]
  split_ifs <;> simp

/-- The wait for a message from the left. -/
theorem delivered_left (h : Prelude N base pre src) (hn : 3 ≤ n) (hnN : n ≤ N) {v m t : ℕ}
    (hv : v < n) (hm : m ∈ edgeRight n nz (leftOf n v))
    (ht : waitStamp base (edgeTime n (leftOf n v) m) v (leftOf n v) < t) :
    Delivered (rollAfter pre n nz base) (rollSender n src) v t ((leftOf n v + n - m) % n) := by
  have hl := leftOf_lt (v := v) (by omega : 0 < n)
  have hlr := rightOf_leftOf hv
  have hputs := putsOf_rolling_right base nz hn hl
  have hwaits := waitsOf_rolling_right base nz hn hl
  have hmem := mem_rolling_right base hl hm
  rw [hlr] at hputs hwaits hmem
  obtain ⟨j, hj⟩ := List.mem_iff_getElem?.mp hm
  have hsend : rollSender n src v 1 = leftOf n v := by rw [rollSender, if_pos ⟨hv, rfl⟩]
  let t₁ := putStamp base (edgeTime n (leftOf n v) m) (leftOf n v) v
  refine ⟨1, j, t₁, _, t₁, some 1, [(leftOf n v + n - m) % n], [(leftOf n v + n - m) % n], ?_, ?_,
    ht, ?_, le_refl _, List.mem_singleton_self _⟩
  · rw [hsend, h.putsOf_roll (hl.trans_le hnN) one_ne_zero, hputs, List.getElem?_map, hj]
    rfl
  · rw [h.waitsOf_roll (hv.trans_le hnN) one_ne_zero, hwaits, List.getElem?_map, hj]
    rfl
  · rw [hsend]
    exact List.mem_append_right _ hmem

/-- The wait for a message from the right. -/
theorem delivered_right (h : Prelude N base pre src) (hn : 3 ≤ n) (hnN : n ≤ N) {v m t : ℕ}
    (hv : v < n) (hm : m ∈ edgeLeft n nz v)
    (ht : waitStamp base (edgeTime n v m) v (rightOf n v) < t) :
    Delivered (rollAfter pre n nz base) (rollSender n src) v t ((rightOf n v + m) % n) := by
  have hr := rightOf_lt (v := v) (by omega : 0 < n)
  obtain ⟨j, hj⟩ := List.mem_iff_getElem?.mp hm
  have hsend : rollSender n src v 2 = rightOf n v := by
    rw [rollSender, if_neg (by simp), if_pos ⟨hv, rfl⟩]
  let t₁ := putStamp base (edgeTime n v m) (rightOf n v) v
  refine ⟨2, j, t₁, _, t₁, some 2, [(rightOf n v + m) % n], [(rightOf n v + m) % n], ?_, ?_, ht, ?_,
    le_refl _, List.mem_singleton_self _⟩
  · rw [hsend, h.putsOf_roll (hr.trans_le hnN) two_ne_zero, putsOf_rolling_left _ _ hn hv,
      List.getElem?_map, hj]
    rfl
  · rw [h.waitsOf_roll (hv.trans_le hnN) two_ne_zero, waitsOf_rolling_left _ _ hn hv,
      List.getElem?_map, hj]
    rfl
  · rw [hsend]
    exact List.mem_append_right _ (mem_rolling_left base hn hv hm)

/-- What the prelude delivers. -/
theorem Prelude.delivered (h : Prelude N base pre src) {v t b : ℕ} (hv : v < N)
    (hd : Delivered pre (fun q _ => src q) v t b) :
    Delivered (rollAfter pre n nz base) (rollSender n src) v t b := by
  obtain ⟨e, j, t₁, t₂, t₃, ev, srcs, dst, hput, hwait, hlt, hmem, hle, hb⟩ := hd
  obtain rfl : e = 0 := by
    by_contra he
    rw [h.waits_nil v hv e he] at hwait
    exact absurd hwait (by simp)
  have he : ¬(v < n ∧ ((0 : ℕ) = 1 ∨ (0 : ℕ) = 2)) := by omega
  refine ⟨0, j, t₁, t₂, t₃, ev, srcs, dst, ?_, ?_, hlt, ?_, hle, hb⟩
  · rwa [putsOf_pre he, rollSender_pre he]
  · rwa [waitsOf_pre he]
  · rw [rollSender_pre he]
    exact List.mem_append_left _ hmem

/-- What a put of a step is. -/
theorem put_of_mem_rolling {v t q : ℕ} {ev : Option ℕ} {srcs dst : List ℕ}
    (hmem : (t, .put q ev srcs dst) ∈ rolling n nz base v) : v < n ∧ ∃ k < n - 1,
      t = putStamp base (rollTime n v k) v (rollPeer n v k) ∧ nz (rollSend n v k) = true ∧
        srcs = [rollSend n v k] ∧ dst = [rollSend n v k] ∧ q = rollPeer n v k ∧
        ev = some (if (v + k) % 2 = 1 then 2 else 1) := by
  rw [rolling, rollingBy] at hmem
  split_ifs at hmem with hv
  · obtain ⟨k, hk, hmem⟩ := List.mem_flatMap.mp hmem
    refine ⟨hv, k, List.mem_range.mp hk, ?_⟩
    simp only [rollLabeled, rollPutStamp, rollPut, rollWait] at hmem
    split_ifs at hmem with h₁ h₂ h₃ <;> simp at hmem <;> simp [*]
  · exact absurd hmem List.not_mem_nil

/-- Every step puts a block that the rank has had from its other neighbour before. -/
theorem delivered_rollSend (h : Prelude N base pre src) (hn : 3 ≤ n) (hnN : n ≤ N) {own : ℕ → Set ℕ}
    {v k : ℕ} (hv : v < n) (hk : k < n - 1) (hnz : nz (rollSend n v k) = true)
    (hstart : nz v = true → v ∈ own v ∨ Delivered pre (fun q _ => src q) v base v) :
    rollSend n v k ∈ own v ∨ Delivered (rollAfter pre n nz base) (rollSender n src) v
      (putStamp base (rollTime n v k) v (rollPeer n v k)) (rollSend n v k) := by
  by_cases hm : k / 2 = 0
  · -- its own block
    have hown : rollSend n v k = v := by
      rw [rollSend, hm, Nat.add_zero, Nat.sub_zero, Nat.add_mod_right, Nat.mod_eq_of_lt hv,
        ite_self]
    rw [hown] at hnz ⊢
    refine (hstart hnz).imp_right fun hd => ((h.delivered (hv.trans_le hnN) hd).mono ?_)
    rw [putStamp]
    omega
  · obtain ⟨m, hm⟩ : ∃ m, k / 2 = m + 1 := ⟨k / 2 - 1, by omega⟩
    have hlt (k' : ℕ) (hk' : k' < k) (w w' : ℕ) : waitStamp base (rollTime n v k') v w <
        putStamp base (rollTime n v k) v w' := by
      have := rollTime_strictMono hn hv hk'
      rw [putStamp, waitStamp]
      split_ifs <;> omega
    by_cases hpar : (v + k) % 2 = 1
    · -- to the left, a block from the right
      have hblock : rollSend n v k = (rightOf n v + m) % n := by
        rw [rollSend, if_pos hpar, hm, rightOf, Nat.mod_add_mod]
        congr 1
        omega
      have hmem : m ∈ edgeLeft n nz v := by
        refine List.mem_filter.mpr ⟨List.mem_range.mpr ?_, hblock ▸ hnz⟩
        rw [edgeCount]
        omega
      have htime : rollTime n v (2 * m + v % 2) = edgeTime n v m := by
        rw [rollTime, if_neg (by omega), show (2 * m + v % 2) / 2 = m by omega]
      rw [hblock]
      exact Or.inr (delivered_right h hn hnN hv hmem (htime ▸ hlt _ (by omega) _ _))
    · -- to the right, a block from the left
      have hblock : rollSend n v k = (leftOf n v + n - m) % n := by
        rw [rollSend, if_neg hpar, hm, leftOf, mod_eq_ite (by omega : v + n - 1 < 2 * n)]
        split_ifs with hlt
        · rw [show v + n - 1 + n - m = v + n - (m + 1) + n by omega, Nat.add_mod_right]
        · rw [show v + n - 1 - n + n - m = v + n - (m + 1) by omega]
      have hcount := edgeCount_left hn hv
      have hmem : m ∈ edgeRight n nz (leftOf n v) := by
        refine List.mem_filter.mpr ⟨List.mem_range.mpr ?_, hblock ▸ hnz⟩
        omega
      have htime : rollTime n v (2 * m + (v + 1) % 2) = edgeTime n (leftOf n v) m := by
        rw [rollTime, if_pos (by omega), show (2 * m + (v + 1) % 2) / 2 = m by omega]
      rw [hblock]
      exact Or.inr (delivered_left h hn hnN hv hmem (htime ▸ hlt _ (by omega) _ _))

/-- No put sends a block that its rank does not hold. -/
theorem Prelude.sendsHeld (h : Prelude N base pre src) (hn : 3 ≤ n) (hnN : n ≤ N) {own : ℕ → Set ℕ}
    (hpre : ∀ v < N, ∀ t q ev srcs dst, (t, .put q ev srcs dst) ∈ pre v → ∀ b ∈ srcs,
      b ∈ own v ∨ Delivered pre (fun q _ => src q) v t b)
    (hstart : ∀ v < n, nz v = true → v ∈ own v ∨ Delivered pre (fun q _ => src q) v base v)
    {β : Type} {m₀ : ℕ → ℕ → β} : SendsHeld N (tasks (rollAfter pre n nz base)) m₀ own := by
  refine (h.paired_rollAfter hn hnN).sendsHeld fun v hv t q ev srcs dst hmem b hb => ?_
  rcases List.mem_append.mp hmem with hmem | hmem
  · exact (hpre v hv t q ev srcs dst hmem b hb).imp_right (h.delivered hv)
  · obtain ⟨hvn, k, hk, rfl, hnz, rfl, -⟩ := put_of_mem_rolling hmem
    obtain rfl := List.mem_singleton.mp hb
    exact delivered_rollSend h hn hnN hvn hk hnz (hstart v hvn)

/-- Together, the messages from both sides are all but one. -/
theorem edgeCount_add {v : ℕ} (hn : 3 ≤ n) (hv : v < n) :
    edgeCount n v + edgeCount n (leftOf n v) = n - 1 := by
  rw [edgeCount, edgeCount, leftOf_mod_two (by omega) hv]
  split_ifs <;> omega

/-- A block is the own one or comes with a message. -/
theorem block_cases {v b : ℕ} (hn : 3 ≤ n) (hv : v < n) (hb : b < n) : b = v ∨
    (∃ m < edgeCount n v, b = (rightOf n v + m) % n) ∨
      ∃ m < edgeCount n (leftOf n v), b = (leftOf n v + n - m) % n := by
  have hcount := edgeCount_add hn hv
  obtain ⟨d, hd, hbd⟩ : ∃ d < n, b = (v + d) % n := by
    refine ⟨(b + n - v) % n, Nat.mod_lt _ (by omega), ?_⟩
    rw [Nat.add_mod_mod, show v + (b + n - v) = b + n by omega, Nat.add_mod_right,
      Nat.mod_eq_of_lt hb]
  rcases Nat.eq_zero_or_pos d with rfl | hpos
  · exact Or.inl (by rw [hbd, Nat.add_zero, Nat.mod_eq_of_lt hv])
  · refine Or.inr ?_
    by_cases hlt : d - 1 < edgeCount n v
    · refine Or.inl ⟨d - 1, hlt, ?_⟩
      rw [hbd, rightOf, Nat.mod_add_mod, show v + 1 + (d - 1) = v + d by omega]
    · refine Or.inr ⟨n - 1 - d, by omega, ?_⟩
      rw [hbd, leftOf, mod_eq_ite (by omega : v + n - 1 < 2 * n)]
      split_ifs with hlt'
      · rw [show v + n - 1 + n - (n - 1 - d) = v + d + n by omega, Nat.add_mod_right]
      · rw [show v + n - 1 - n + n - (n - 1 - d) = v + d by omega]

theorem mem_tasks {σ : ℕ → List (ℕ × StreamTask ℕ)} {p t : ℕ} {x : StreamTask ℕ}
    (h : (t, x) ∈ σ p) : x ∈ tasks σ p := List.mem_map_of_mem (f := Prod.snd) h

/-- In the end, every rank of the circle holds every block that is not empty. -/
theorem Prelude.mem_holds (h : Prelude N base pre src) (hn : 3 ≤ n) (hnN : n ≤ N)
    {own : ℕ → Set ℕ}
    (hstart : ∀ v < n, nz v = true → v ∈ own v ∨ Delivered pre (fun q _ => src q) v base v)
    {β : Type} {F : Fabric ℕ β} (hfin : F.Finished N (tasks (rollAfter pre n nz base))) {v b : ℕ}
    (hv : v < n) (hb : b < n) (hnz : nz b = true) :
    b ∈ holds N (tasks (rollAfter pre n nz base)) own F.done v := by
  rcases block_cases hn hv hb with rfl | ⟨m, hm, rfl⟩ | ⟨m, hm, rfl⟩
  · rcases hstart b hv hnz with hown | ⟨_, _, _, _, t, ev, srcs, dst, -, -, -, hmem, -, hdst⟩
    · exact Or.inl hown
    · exact mem_holds_of_finished hfin (h.paired.sender_lt b (hv.trans_le hnN) 0)
        (mem_tasks (List.mem_append_left _ hmem)) hdst
  · have hr := rightOf_lt (v := v) (by omega : 0 < n)
    have hmem := mem_rolling_left base hn hv
      (List.mem_filter.mpr ⟨List.mem_range.mpr hm, hnz⟩)
    exact mem_holds_of_finished hfin (hr.trans_le hnN)
      (mem_tasks (List.mem_append_right _ hmem)) (List.mem_singleton_self _)
  · have hl := leftOf_lt (v := v) (by omega : 0 < n)
    have hmem := mem_rolling_right base hl
      (List.mem_filter.mpr ⟨List.mem_range.mpr hm, hnz⟩)
    rw [rightOf_leftOf hv] at hmem
    exact mem_holds_of_finished hfin (hl.trans_le hnN)
      (mem_tasks (List.mem_append_right _ hmem)) (List.mem_singleton_self _)

end After

end Kucg.Algo
