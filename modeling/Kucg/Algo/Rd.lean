import Kucg.Lib.Hypercube
import Kucg.Lib.Paced

/-! The recursive-doubling iterator of `ucg_rd.c`, and the messages of the ranks that follow it.

    With `2 ^ l` the largest power of two within the group size, the first `proxyNum` pairs of ranks
    are an extra (even) and a proxy (odd) that speaks for both. Proxies and base ranks get new ranks
    `0 .. 2 ^ l - 1` in the order of their old ones and exchange along the dimensions of a cube. -/

namespace Kucg.Algo

open Kucg.Lib

/-- `ucg_algo_rd_iter_type_t`. -/
inductive RdIterType where
  | base | proxy | extra
  deriving DecidableEq, Repr

/-- `ucg_algo_rd_iter_t`; `UCG_INVALID_RANK` is `none`. `newRank` is not set for an extra. -/
structure RdIter where
  type : RdIterType
  maxIdx : ℕ
  nBase : ℕ
  myrank : ℕ
  idx : ℕ
  current : Option ℕ
  newRank : ℕ
  proxyNum : ℕ
  deriving DecidableEq, Repr

namespace RdIter

/-- The value that `ucg_algo_rd_iter_update` stores. -/
def next (iter : RdIter) : Option ℕ :=
  if iter.idx = iter.maxIdx then none
  else
    match iter.type with
    | .proxy =>
      if iter.idx = 0 ∨ iter.idx = iter.maxIdx - 1 then some (iter.myrank - 1)
      else
        let newCurrent := iter.newRank ^^^ 2 ^ (iter.idx - 1)
        some (if newCurrent < iter.proxyNum then newCurrent * 2 + 1
          else newCurrent + iter.proxyNum)
    | .base =>
      let newCurrent := iter.newRank ^^^ 2 ^ iter.idx
      some (if newCurrent < iter.proxyNum then newCurrent * 2 + 1
        else newCurrent + iter.proxyNum)
    | .extra => some (iter.myrank + 1)

/-- `ucg_algo_rd_iter_update`. -/
def update (iter : RdIter) : RdIter := { iter with current := iter.next }

/-- `ucg_algo_rd_iter_init`. -/
def init (size myrank : ℕ) : RdIter :=
  let nBase := 2 ^ Nat.log2 size
  let proxyNum := size - nBase
  let maxIdx := Nat.log2 nBase
  let iter : RdIter :=
    if myrank < proxyNum * 2 then
      if myrank % 2 = 0 then ⟨.extra, 2, nBase, myrank, 0, none, 0, proxyNum⟩
      else ⟨.proxy, maxIdx + 2, nBase, myrank, 0, none, myrank / 2, proxyNum⟩
    else ⟨.base, maxIdx, nBase, myrank, 0, none, myrank - proxyNum, proxyNum⟩
  iter.update

/-- `ucg_algo_rd_iter_reset`. -/
def reset (iter : RdIter) : RdIter := { iter with idx := 0 }.update

/-- `ucg_algo_rd_iter_inc`. -/
def inc (iter : RdIter) : RdIter := { iter with idx := iter.idx + 1 }.update

/-- `ucg_algo_rd_iter_base_value`. -/
def baseValue (iter : RdIter) : Option ℕ :=
  if (iter.type = .proxy ∧ (iter.idx = 0 ∨ iter.idx = iter.maxIdx - 1)) ∨ iter.type = .extra then
    none
  else iter.current

/-- `ucg_algo_rd_iter_value_inc`: the current value and the next iterator. -/
def valueInc (iter : RdIter) : Option ℕ × RdIter := (iter.current, iter.inc)

end RdIter

/-! ### Roles and new ranks -/

/-- The number of steps, `l`. -/
def rdSteps (n : ℕ) : ℕ := Nat.log2 n

/-- The number of extras. -/
def rdProxyNum (n : ℕ) : ℕ := n - 2 ^ rdSteps n

/-- An extra rank. -/
def RdExtra (n v : ℕ) : Prop := v < rdProxyNum n * 2 ∧ v % 2 = 0

/-- A proxy rank. -/
def RdProxy (n v : ℕ) : Prop := v < rdProxyNum n * 2 ∧ v % 2 = 1

instance (n v : ℕ) : Decidable (RdExtra n v) := inferInstanceAs (Decidable (_ ∧ _))

instance (n v : ℕ) : Decidable (RdProxy n v) := inferInstanceAs (Decidable (_ ∧ _))

/-- The new rank of a proxy or a base rank. -/
def rdNew (n v : ℕ) : ℕ := if v < rdProxyNum n * 2 then v / 2 else v - rdProxyNum n

/-- The proxy or base rank of a new rank. -/
def rdOld (n w : ℕ) : ℕ := if w < rdProxyNum n then w * 2 + 1 else w + rdProxyNum n

section Ranks

variable {n v w k : ℕ}

theorem rd_size (hn : n ≠ 0) :
    2 ^ rdSteps n + rdProxyNum n = n ∧ rdProxyNum n < 2 ^ rdSteps n := by
  have hle := Nat.log2_self_le hn
  have hlt := Nat.lt_log2_self (n := n)
  rw [Nat.pow_succ] at hlt
  unfold rdProxyNum rdSteps
  omega

theorem rdNew_lt (hv : v < n) : rdNew n v < 2 ^ rdSteps n := by
  have hsize := rd_size (Nat.ne_zero_of_lt hv)
  unfold rdNew
  split_ifs <;> omega

theorem rdOld_new (hv : ¬RdExtra n v) : rdOld n (rdNew n v) = v := by
  unfold RdExtra at hv
  unfold rdOld rdNew
  split_ifs <;> omega

theorem rdNew_old (n w : ℕ) : rdNew n (rdOld n w) = w := by
  unfold rdOld rdNew
  split_ifs <;> omega

theorem rdOld_not_extra (n w : ℕ) : ¬RdExtra n (rdOld n w) := by
  unfold RdExtra rdOld
  split_ifs <;> omega

theorem rdOld_lt (hn : n ≠ 0) (hw : w < 2 ^ rdSteps n) : rdOld n w < n := by
  have hsize := rd_size hn
  unfold rdOld
  split_ifs <;> omega

/-- New ranks are in the order of the old ones. -/
theorem rdOld_lt_iff {u : ℕ} : rdOld n w < rdOld n u ↔ w < u := by
  unfold rdOld
  split_ifs <;> omega

/-- The rank met by `v` in step `k`. -/
def rdPeer (n k v : ℕ) : ℕ := rdOld n (rdNew n v ^^^ 2 ^ k)

theorem rdPeer_lt (hv : v < n) (hk : k < rdSteps n) : rdPeer n k v < n :=
  rdOld_lt (Nat.ne_zero_of_lt hv) (xor_two_pow_lt (rdNew_lt hv) hk)

/-- The smaller rank of a pair is the one with the smaller new rank. -/
theorem lt_rdPeer_iff (hex : ¬RdExtra n v) :
    v < rdPeer n k v ↔ rdNew n v < rdNew n v ^^^ 2 ^ k := by
  have h := rdOld_lt_iff (n := n) (w := rdNew n v) (u := rdNew n v ^^^ 2 ^ k)
  rwa [rdOld_new hex] at h

end Ranks

/-! ### What the exchange computes -/

section Values

variable {γ : Type}

/-- What new rank `w` brings into the exchange: its own value, or its extra's and its own. -/
def rdInput (op : γ → γ → γ) (n : ℕ) (x : ℕ → γ) (w : ℕ) : γ :=
  if w < rdProxyNum n then op (x (w * 2)) (x (w * 2 + 1)) else x (w + rdProxyNum n)

/-- What new rank `w` has got after `k` steps. -/
def rdValue (op : γ → γ → γ) (n : ℕ) (x : ℕ → γ) (k w : ℕ) : γ := exchange op (rdInput op n x) k w

variable {op : γ → γ → γ} {n v : ℕ} {x : ℕ → γ}

/-- A proxy brings its extra's value and its own. -/
theorem rdValue_zero_proxy (hpr : RdProxy n v) :
    rdValue op n x 0 (rdNew n v) = op (x (v - 1)) (x v) := by
  have hnew : rdNew n v = v / 2 := if_pos hpr.1
  have hlt : v / 2 < rdProxyNum n := by have := hpr.1; omega
  rw [rdValue, exchange, hnew, rdInput, if_pos hlt, show v / 2 * 2 = v - 1 by have := hpr.2; omega,
    show v - 1 + 1 = v by have := hpr.2; omega]

/-- A base rank brings its own value. -/
theorem rdValue_zero_base (hex : ¬RdExtra n v) (hpr : ¬RdProxy n v) :
    rdValue op n x 0 (rdNew n v) = x v := by
  have hv : ¬v < rdProxyNum n * 2 := by
    unfold RdExtra RdProxy at *
    omega
  have hnew : rdNew n v = v - rdProxyNum n := if_neg hv
  rw [rdValue, exchange, hnew, rdInput, if_neg (by omega), Nat.sub_add_cancel (by omega)]

/-- The values of the next step. -/
theorem rdValue_succ (op : γ → γ → γ) (n : ℕ) (x : ℕ → γ) (k w : ℕ) :
    rdValue op n x (k + 1) w =
      if w < w ^^^ 2 ^ k then op (rdValue op n x k w) (rdValue op n x k (w ^^^ 2 ^ k))
      else op (rdValue op n x k (w ^^^ 2 ^ k)) (rdValue op n x k w) := rfl

/-- The first rank that a new rank stands for, in the order of new ranks. -/
def rdFirst (n w : ℕ) : ℕ := if w < rdProxyNum n then w * 2 else w + rdProxyNum n

/-- After the exchange a new rank has got the values of all ranks, combined in order. -/
theorem rdValue_all {P : ℕ → ℕ → γ → Prop} (hnode : ∀ v, P v (v + 1) (x v))
    (hjoin : ∀ {a b c u u'}, P a b u → P b c u' → P a c (op u u')) {w : ℕ} (hn : n ≠ 0)
    (hw : w < 2 ^ rdSteps n) : P 0 n (rdValue op n x (rdSteps n) w) := by
  have hsize := rd_size hn
  have hinput (v) : P (rdFirst n v) (rdFirst n (v + 1)) (rdInput op n x v) := by
    rw [rdInput, rdFirst]
    split_ifs with hv
    · have hnext : rdFirst n (v + 1) = v * 2 + 1 + 1 := by
        unfold rdFirst
        split_ifs <;> omega
      rw [hnext]
      exact hjoin (hnode _) (hnode _)
    · have hnext : rdFirst n (v + 1) = v + rdProxyNum n + 1 := by
        rw [rdFirst, if_neg (by omega)]
        ring
      rw [hnext]
      exact hnode _
  have hall := exchange_all (P := fun lo hi u => P (rdFirst n lo) (rdFirst n hi) u) hinput hjoin hw
  have hlo : rdFirst n 0 = 0 := by
    unfold rdFirst
    split_ifs <;> omega
  have hhi : rdFirst n (2 ^ rdSteps n) = n := by
    rw [rdFirst, if_neg (by omega)]
    exact hsize.1
  rwa [hlo, hhi] at hall

end Values

/-! ### The iterator visits these ranks -/

/-- The iterator of rank `v` at position `idx`. -/
def rdIterAt (n v idx : ℕ) : RdIter := { RdIter.init n v with idx := idx }.update

section Iter

variable {n v : ℕ}

@[simp] theorem init_eq_at (n v : ℕ) : RdIter.init n v = rdIterAt n v 0 := by
  unfold rdIterAt RdIter.init
  dsimp only
  split_ifs <;> rfl

/-- Only the position of the last update counts. -/
theorem update_idx (iter : RdIter) (i j : ℕ) :
    { ({ iter with idx := i } : RdIter).update with idx := j }.update =
      { iter with idx := j }.update := rfl

@[simp] theorem reset_at (n v idx : ℕ) : (rdIterAt n v idx).reset = rdIterAt n v 0 := by
  rw [rdIterAt, RdIter.reset, update_idx, rdIterAt]

@[simp] theorem inc_at (n v idx : ℕ) : (rdIterAt n v idx).inc = rdIterAt n v (idx + 1) := by
  have hidx : (rdIterAt n v idx).idx = idx := by rw [rdIterAt, RdIter.update]
  rw [RdIter.inc, hidx, rdIterAt, update_idx, rdIterAt]

theorem log2_two_pow (l : ℕ) : Nat.log2 (2 ^ l) = l := by
  rw [Nat.log2_eq_log_two, Nat.log_pow (by norm_num)]

/-- The iterator of an extra. -/
theorem at_extra (h : RdExtra n v) (idx : ℕ) : rdIterAt n v idx =
    ⟨.extra, 2, 2 ^ rdSteps n, v, idx, if idx = 2 then none else some (v + 1), 0,
      rdProxyNum n⟩ := by
  have hinit : RdIter.init n v = (⟨.extra, 2, 2 ^ rdSteps n, v, 0, none, 0, rdProxyNum n⟩ :
      RdIter).update := by
    unfold RdIter.init
    dsimp only
    rw [if_pos (show v < (n - 2 ^ Nat.log2 n) * 2 from h.1), if_pos h.2]
    rfl
  rw [rdIterAt, hinit]
  rfl

/-- The iterator of a proxy. -/
theorem at_proxy (h : RdProxy n v) (idx : ℕ) : rdIterAt n v idx =
    (⟨.proxy, rdSteps n + 2, 2 ^ rdSteps n, v, idx, none, rdNew n v, rdProxyNum n⟩ :
      RdIter).update := by
  have hinit : RdIter.init n v = (⟨.proxy, rdSteps n + 2, 2 ^ rdSteps n, v, 0, none, rdNew n v,
      rdProxyNum n⟩ : RdIter).update := by
    unfold RdIter.init
    dsimp only
    rw [if_pos (show v < (n - 2 ^ Nat.log2 n) * 2 from h.1), if_neg (by have := h.2; omega),
      log2_two_pow, rdNew, if_pos h.1]
    rfl
  rw [rdIterAt, hinit]
  rfl

/-- The iterator of a base rank. -/
theorem at_base (hex : ¬RdExtra n v) (hpr : ¬RdProxy n v) (idx : ℕ) : rdIterAt n v idx =
    (⟨.base, rdSteps n, 2 ^ rdSteps n, v, idx, none, rdNew n v, rdProxyNum n⟩ :
      RdIter).update := by
  have hv : ¬v < rdProxyNum n * 2 := by
    unfold RdExtra RdProxy at *
    omega
  have hinit : RdIter.init n v = (⟨.base, rdSteps n, 2 ^ rdSteps n, v, 0, none, rdNew n v,
      rdProxyNum n⟩ : RdIter).update := by
    unfold RdIter.init
    dsimp only
    rw [if_neg (show ¬v < (n - 2 ^ Nat.log2 n) * 2 from hv), log2_two_pow, rdNew, if_neg hv]
    rfl
  rw [rdIterAt, hinit]
  rfl

/-- How many positions of its iterator a rank passes before the exchange. -/
def rdOffset (n v : ℕ) : ℕ := if RdProxy n v then 1 else 0

theorem type_at (n v idx : ℕ) : (rdIterAt n v idx).type =
    if RdExtra n v then .extra else if RdProxy n v then .proxy else .base := by
  split_ifs with hex hpr
  · rw [at_extra hex]
  · rw [at_proxy hpr]
    rfl
  · rw [at_base hex hpr]
    rfl

/-- In the exchange the iterator meets one rank in each step, and then none. -/
theorem baseValue_at (hex : ¬RdExtra n v) {k : ℕ} (hk : k ≤ rdSteps n) :
    (rdIterAt n v (rdOffset n v + k)).baseValue =
      if k = rdSteps n then none else some (rdPeer n k v) := by
  by_cases hpr : RdProxy n v
  · rw [at_proxy hpr, rdOffset, if_pos hpr]
    by_cases hlast : k = rdSteps n
    · simp [RdIter.baseValue, RdIter.update, hlast, add_comm]
    · have hmax : 1 + k ≠ rdSteps n + 2 := by omega
      have hend : 1 + k ≠ rdSteps n + 1 := by omega
      simp [RdIter.baseValue, RdIter.update, RdIter.next, hmax, hend, hlast, rdPeer, rdOld]
  · rw [at_base hex hpr, rdOffset, if_neg hpr]
    by_cases hlast : k = rdSteps n
    · simp [RdIter.baseValue, RdIter.update, RdIter.next, hlast]
    · simp [RdIter.baseValue, RdIter.update, RdIter.next, hlast, rdPeer, rdOld]

/-- Before and after it a proxy meets its extra. -/
theorem current_proxy (hpr : RdProxy n v) : (rdIterAt n v 0).current = some (v - 1) ∧
    (rdIterAt n v (1 + rdSteps n)).current = some (v - 1) := by
  rw [at_proxy hpr, at_proxy hpr]
  constructor
  · simp [RdIter.update, RdIter.next]
  · simp [RdIter.update, RdIter.next, add_comm]

end Iter

/-! ### Messages -/

section Messages

variable {β : Type} (n : ℕ) (a : ℕ → List β × Set ℕ) (b : ℕ → ℕ → List β × Set ℕ)

/-- An extra hands its contribution `a` to its proxy. -/
def rdFold (v : ℕ) : List (Event β) :=
  if RdExtra n v then [.send (v + 1) (a v).1 (a v).2]
  else if RdProxy n v then [.recv (v - 1) (a (v - 1)).1 (a (v - 1)).2]
  else []

/-- In step `k` the other ranks exchange what they have got so far: new rank `w` has `b k w`. -/
def rdRound (k v : ℕ) : List (Event β) :=
  if v < n ∧ ¬RdExtra n v then
    let w := rdNew n v
    [.send (rdPeer n k v) (b k w).1 (b k w).2,
      .recv (rdPeer n k v) (b k (w ^^^ 2 ^ k)).1 (b k (w ^^^ 2 ^ k)).2]
  else []

/-- An extra gets the result from its proxy. -/
def rdUnfold (v : ℕ) : List (Event β) :=
  if RdExtra n v then [.recv (v + 1) (b (rdSteps n) (rdNew n v)).1 (b (rdSteps n) (rdNew n v)).2]
  else if RdProxy n v then
    [.send (v - 1) (b (rdSteps n) (rdNew n v)).1 (b (rdSteps n) (rdNew n v)).2]
  else []

/-- The messages of rank `v`. -/
def rdTrace (v : ℕ) : List (Event β) :=
  rdFold n a v ++ ((List.range (rdSteps n)).flatMap fun k => rdRound n b k v) ++ rdUnfold n b v

variable {n a b}

/-- The proxy of an extra is the next rank. -/
theorem rdExtra_iff_proxy {v : ℕ} : RdExtra n v ↔ RdProxy n (v + 1) ∧ v % 2 = 0 := by
  unfold RdExtra RdProxy
  omega

theorem RdProxy.not_extra {v : ℕ} (h : RdProxy n v) : ¬RdExtra n v := by
  unfold RdExtra RdProxy at *
  omega

theorem RdProxy.extra {v : ℕ} (h : RdProxy n v) : RdExtra n (v - 1) ∧ v - 1 + 1 = v := by
  unfold RdExtra RdProxy at *
  omega

theorem matched_rdFold : Matched (rdFold n a) := by
  intro s r
  by_cases hs : RdExtra n s
  · rw [rdFold, if_pos hs]
    by_cases hsr : s + 1 = r
    · subst hsr
      have hr := (rdExtra_iff_proxy.mp hs).1
      simp [rdFold, hr.not_extra, hr]
    · rw [rdFold]
      split_ifs with hr hr
      · simp [hsr]
      · simp [hsr, show r - 1 ≠ s by have := hr.extra; omega]
      · simp [hsr]
  · have hsend : sendsTo r (rdFold n a s) = [] := by
      rw [rdFold, if_neg hs]
      split_ifs <;> rfl
    rw [hsend, rdFold]
    split_ifs with hr hr
    · rfl
    · have hne : r - 1 ≠ s := by
        rintro rfl
        exact hs hr.extra.1
      simp [hne]
    · rfl

theorem matched_rdUnfold : Matched (rdUnfold n b) := by
  intro s r
  by_cases hr : RdExtra n r
  · rw [rdUnfold.eq_1 n b r, if_pos hr]
    by_cases hsr : r + 1 = s
    · subst hsr
      have hs := (rdExtra_iff_proxy.mp hr).1
      have hnew : rdNew n (r + 1) = rdNew n r := by
        unfold rdNew RdExtra RdProxy at *
        split_ifs <;> omega
      simp [rdUnfold, hs.not_extra, hs, hnew]
    · rw [rdUnfold]
      split_ifs with hs hs
      · simp [hsr]
      · simp [hsr, show s - 1 ≠ r by have := hs.extra; omega]
      · simp [hsr]
  · have hrecv : recvsFrom s (rdUnfold n b r) = [] := by
      rw [rdUnfold, if_neg hr]
      split_ifs <;> rfl
    rw [hrecv, rdUnfold]
    split_ifs with hs hs
    · rfl
    · have hne : s - 1 ≠ r := by
        rintro rfl
        exact hr hs.extra.1
      simp [hne]
    · rfl

theorem matched_rdRound {k : ℕ} (hk : k < rdSteps n) : Matched (rdRound n b k) := by
  intro s r
  unfold rdRound
  split_ifs with hs hr hr
  · have hiff : rdPeer n k s = r ↔ rdPeer n k r = s := by
      unfold rdPeer
      constructor
      · rintro rfl
        rw [rdNew_old, xor_two_pow_xor, rdOld_new hs.2]
      · rintro rfl
        rw [rdNew_old, xor_two_pow_xor, rdOld_new hr.2]
    by_cases hpeer : rdPeer n k s = r
    · have hnew : rdNew n r ^^^ 2 ^ k = rdNew n s := by
        rw [← hpeer, rdPeer, rdNew_old, xor_two_pow_xor]
      simp [hpeer, hiff.mp hpeer, hnew]
    · simp [hpeer, mt hiff.mpr hpeer]
  · have hne : rdPeer n k s ≠ r := by
      rintro rfl
      exact hr ⟨rdPeer_lt hs.1 hk, rdOld_not_extra n _⟩
    simp [hne]
  · have hne : rdPeer n k r ≠ s := by
      rintro rfl
      exact hs ⟨rdPeer_lt hr.1 hk, rdOld_not_extra n _⟩
    simp [hne]
  · rfl

theorem matched_rdTrace : Matched (rdTrace n a b) :=
  (matched_rdFold.append
    (Matched.flatMap _ fun _ hk => matched_rdRound (List.mem_range.mp hk))).append matched_rdUnfold

/-- All messages stay within the group. -/
theorem rdTrace_peer (hn : n ≠ 0) {v : ℕ} : ∀ e ∈ rdTrace n a b v, e.peer < n := by
  have hsize := rd_size hn
  have hup (hv : RdExtra n v) : v + 1 < n := by
    unfold RdExtra at hv
    omega
  have hdown (hv : RdProxy n v) : v - 1 < n := by
    unfold RdProxy at hv
    omega
  intro e he
  rw [rdTrace, List.mem_append, List.mem_append] at he
  rcases he with (he | he) | he
  · rw [rdFold] at he
    split_ifs at he with hv hv
    · exact List.mem_singleton.mp he ▸ hup hv
    · exact List.mem_singleton.mp he ▸ hdown hv
    · exact absurd he List.not_mem_nil
  · obtain ⟨k, hk, he⟩ := List.mem_flatMap.mp he
    rw [rdRound] at he
    split_ifs at he with hv
    · have hlt := rdPeer_lt hv.1 (List.mem_range.mp hk)
      rcases List.mem_cons.mp he with rfl | he
      · exact hlt
      · exact List.mem_singleton.mp he ▸ hlt
    · exact absurd he List.not_mem_nil
  · rw [rdUnfold] at he
    split_ifs at he with hv hv
    · exact List.mem_singleton.mp he ▸ hup hv
    · exact List.mem_singleton.mp he ▸ hdown hv
    · exact absurd he List.not_mem_nil

variable (n a b) in
/-- The messages by role. -/
theorem rdTrace_role (v : ℕ) : rdTrace n a b v =
    if RdExtra n v then [.send (v + 1) (a v).1 (a v).2,
      .recv (v + 1) (b (rdSteps n) (rdNew n v)).1 (b (rdSteps n) (rdNew n v)).2]
    else if RdProxy n v then .recv (v - 1) (a (v - 1)).1 (a (v - 1)).2 ::
      (((List.range (rdSteps n)).flatMap fun k => rdRound n b k v) ++
        [.send (v - 1) (b (rdSteps n) (rdNew n v)).1 (b (rdSteps n) (rdNew n v)).2])
    else (List.range (rdSteps n)).flatMap fun k => rdRound n b k v := by
  rw [rdTrace]
  split_ifs with hex hpr
  · have hround (k) : rdRound n b k v = [] := if_neg fun h => h.2 hex
    simp [rdFold, rdUnfold, hex, hround]
  · simp [rdFold, rdUnfold, hex, hpr]
  · simp [rdFold, rdUnfold, hex, hpr]

theorem rdTrace_of_le {v : ℕ} (hv : n ≤ v) : rdTrace n a b v = [] := by
  have hsize : rdProxyNum n * 2 ≤ n := by
    rcases Nat.eq_zero_or_pos n with rfl | hpos
    · decide
    · have := rd_size hpos.ne'
      omega
  rw [rdTrace_role, if_neg fun h => absurd h.1 (by omega),
    if_neg fun h => absurd h.1 (by omega)]
  exact List.flatMap_eq_nil_iff.mpr fun k _ => if_neg fun h => absurd h.1 (by omega)

/-- A rank that does one thing in a round sends or receives. -/
theorem order_single {e : Event β} : ∃ snds rcvs, [e] = snds ++ rcvs ∧ (∀ e ∈ snds, e.IsSend) ∧
    ∀ e ∈ rcvs, ¬e.IsSend := by
  cases e with
  | send p vals know => exact ⟨[_], [], rfl, by simp [Event.IsSend], by simp⟩
  | recv p vals know => exact ⟨[], [_], rfl, by simp, by simp [Event.IsSend]⟩

/-- The extras and their proxies have a round before and after the exchange, each step of which is
    a round. -/
theorem paced_rdTrace : Paced (1 + rdSteps n + 1) (rdTrace n a b) := by
  have hnil : ∃ snds rcvs, ([] : List (Event β)) = snds ++ rcvs ∧ (∀ e ∈ snds, e.IsSend) ∧
      ∀ e ∈ rcvs, ¬e.IsSend := ⟨[], [], rfl, by simp, by simp⟩
  have hfold : Round (rdFold n a) := by
    refine ⟨matched_rdFold, fun v => ?_⟩
    unfold rdFold
    split_ifs
    exacts [order_single, order_single, hnil]
  have hunfold : Round (rdUnfold n b) := by
    refine ⟨matched_rdUnfold, fun v => ?_⟩
    unfold rdUnfold
    split_ifs
    exacts [order_single, order_single, hnil]
  have hsteps : Paced (rdSteps n) fun v => (List.range (rdSteps n)).flatMap fun k =>
      rdRound n b k v := by
    refine ⟨fun k => if k < rdSteps n then rdRound n b k else fun _ => [], fun k => ?_,
      fun v => List.flatMap_congr fun k hk => ?_⟩
    · dsimp only
      split_ifs with hk
      · refine ⟨matched_rdRound hk, fun v => ?_⟩
        unfold rdRound
        split_ifs
        · exact ⟨[_], [_], rfl, by simp [Event.IsSend], by simp [Event.IsSend]⟩
        · exact hnil
      · exact Round.nil
    · dsimp only
      rw [if_pos (List.mem_range.mp hk)]
  exact ((Paced.of_round hfold).append hsteps).append (Paced.of_round hunfold)

end Messages

end Kucg.Algo
