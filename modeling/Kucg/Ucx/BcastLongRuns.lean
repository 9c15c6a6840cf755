import Kucg.Ucx.BcastLong

/-! The long broadcast executes the rounds of a binomial scatter and of a neighbour exchange.

    `longRounds` are the rounds over the blocks of the buffer. What the iterator and the flags of
    the operation say between two calls is how much of the schedule is left (`LongRel`); every call
    executes the next part of it, whatever its tests return (`bcastLong_runs`). -/

namespace Kucg.Ucx

open Kucg.Core Kucg.Lib Kucg.Algo

variable {B β : Type}

/-! ### The rounds -/

section Rounds

/-- The steps of the exchange from the `k`-th on, of rank `v`. -/
def exchangeFrom (n v k : ℕ) : Sched ℕ β :=
  (List.range' k (n - k)).flatMap fun k => exchangeRound n k v

/-- The rounds of a long broadcast: stops at the start, the scatter with stops after each message,
    stops between the phases, and the exchange. -/
noncomputable def longRounds (n : ℕ) (start : ℕ → Sched ℕ β) (after : Sched ℕ β)
    (close : ℕ → Sched ℕ β) : List (ℕ → Sched ℕ β) :=
  start :: (scatterRounds n (fun _ => true) after (Nat.clog 2 n) ++ close :: exchangeRounds n)

variable {n v : ℕ} {start close : ℕ → Sched ℕ β} {after : Sched ℕ β}

theorem exchangeFrom_succ {k : ℕ} (hk : k < n) :
    (exchangeFrom n v k : Sched ℕ β) = exchangeRound n k v ++ exchangeFrom n v (k + 1) := by
  obtain ⟨l, hl⟩ : ∃ l, n - k = l + 1 := ⟨n - k - 1, by omega⟩
  rw [exchangeFrom, hl, List.range'_succ, List.flatMap_cons, exchangeFrom,
    show n - (k + 1) = l by omega]

theorem exchangeFrom_end : (exchangeFrom n v n : Sched ℕ β) = [] := by
  rw [exchangeFrom, Nat.sub_self]
  rfl

theorem flatMap_exchangeRounds :
    ((exchangeRounds n : List (ℕ → Sched ℕ β)).flatMap fun R => R v) = exchangeFrom n v 1 := by
  rw [exchangeRounds, List.flatMap_map, exchangeFrom, List.range'_eq_map_range, List.flatMap_map]
  exact List.flatMap_congr fun i _ => by rw [Nat.add_comm 1 i]

/-- The schedule of a rank. -/
theorem flatMap_longRounds (hv : v < n) :
    ((longRounds n start after close).flatMap fun R => R v) =
      start v ++ ((if v = 0 then [] else scatterRecv n (fun _ => true) v) ++
        (kntreeChildren n 2 v).flatMap (scatterSend n (fun _ => true) after)) ++
        (close v ++ exchangeFrom n v 1) := by
  rw [← flatMap_exchangeRounds]
  exact flatMap_scatterThen hv

theorem mem_exchangeRounds {R : ℕ → Sched ℕ β} (hR : R ∈ exchangeRounds n) :
    ∃ k, k < n ∧ R = exchangeRound n k := by
  obtain ⟨i, hi, rfl⟩ := List.mem_map.mp hR
  rw [List.mem_range] at hi
  exact ⟨i + 1, by omega, rfl⟩

theorem fitRound_longRounds (hn : 2 ≤ n) (hstart : ∀ v < n, (start v).Stops)
    (hafter : after.Stops) (hclose : ∀ v < n, (close v).Stops) {R : ℕ → Sched ℕ β}
    (hR : R ∈ longRounds n start after close) : FitRound n {b | b < n} R := by
  refine fitRound_scatterThen hstart hafter hclose (fun R hR => ?_) hR
  obtain ⟨k, hk, rfl⟩ := mem_exchangeRounds hR
  exact fitRound_exchangeRound hn hk

/-- Every message is made of blocks next to each other. -/
theorem ranges_longRounds (hstart : ∀ v < n, (start v).Stops) (hafter : after.Stops)
    (hclose : ∀ v < n, (close v).Stops) {R : ℕ → Sched ℕ β}
    (hR : R ∈ longRounds n start after close) (hv : v < n) {w : ℕ} (hw : w < n) {src : List ℕ}
    (hsrc : src ∈ (R v).sendsTo w) : ∃ a k, src = List.range' a k := by
  refine ranges_scatterThen hstart hafter hclose (fun R hR hsrc => ?_) hR hv hw hsrc
  obtain ⟨k, -, rfl⟩ := mem_exchangeRounds hR
  rw [sendsTo_exchangeRound] at hsrc
  simp only [List.mem_append, List.mem_ite_nil_right, List.mem_singleton] at hsrc
  obtain ⟨-, rfl⟩ | ⟨-, rfl⟩ := hsrc <;> exact ⟨_, 1, rfl⟩

/-- The rounds bring all blocks to all ranks. -/
theorem gathers_longRounds (hn : 2 ≤ n) (hstart : ∀ v < n, (start v).Stops)
    (hafter : after.Stops) (hclose : ∀ v < n, (close v).Stops) (hv : v < n) {x : ℕ → β}
    {has : Set ℕ} (hhas : v = 0 → {b | b < n} ⊆ has) :
    Sched.gathers x (fun has' pend => pend = [] ∧ {b | b < n} ⊆ has')
      ((longRounds n start after close).flatMap fun R => R v) has [] := by
  refine gathers_scatterThen ∅ hstart hafter hclose (fun _ h => by simp at h) hv
    (fun b hb h => ?_) fun has hhas => gathers_exchangeRounds hn hv hhas
  exact hhas (h.resolve_right (Set.notMem_empty b)) hb

end Rounds

/-! ### The allgather -/

/-- What stays as it is in the operation, `v` being the number of the rank in the tree of `size`
    ranks. -/
structure LongOf (size : ℕ) (vgroup : VGroup) (args : BcastArgs B) (root v : ℕ)
    (op : BcastLongOp B) : Prop where
  vgroup_eq : op.vgroup = vgroup
  args_eq : op.args = args
  base_eq : op.iter.toKntreeBase = KntreeIter.baseOf size 2 root v true
  quotient_eq : op.quotient = args.count / size
  division_eq : op.division = args.count % size

/-- A schedule over blocks, on the buffer of a rank. -/
def longSched (size : ℕ) (vgroup : VGroup) (args : BcastArgs B) (root : ℕ) (real : ℕ → ℕ)
    (cs : Sched ℕ β) : Sched (Cell B) β :=
  cs.expand (args.blockCells (blockOffset (args.count / size) (args.count % size)))
    fun p => vgroup.rankMap (real (toRank size root p))

section Sched

variable (size : ℕ) (vgroup : VGroup) (args : BcastArgs B) (root : ℕ) (real : ℕ → ℕ)

@[simp] theorem longSched_nil : longSched size vgroup args root real ([] : Sched ℕ β) = [] := rfl

@[simp] theorem longSched_send (d : ℕ) (src : List ℕ) (cs : Sched ℕ β) :
    longSched size vgroup args root real (.send d src :: cs) =
      .send (vgroup.rankMap (real (toRank size root d)))
        (src.flatMap (args.blockCells (blockOffset (args.count / size) (args.count % size)))) ::
          longSched size vgroup args root real cs := rfl

@[simp] theorem longSched_recv (h s : ℕ) (dst : List ℕ) (cs : Sched ℕ β) :
    longSched size vgroup args root real (.recv h s dst :: cs) =
      .recv h (vgroup.rankMap (real (toRank size root s)))
        (dst.flatMap (args.blockCells (blockOffset (args.count / size) (args.count % size)))) ::
          longSched size vgroup args root real cs := rfl

@[simp] theorem longSched_wait (cs : Sched ℕ β) :
    longSched size vgroup args root real (.wait :: cs) =
    .wait :: longSched size vgroup args root real cs := rfl

@[simp] theorem longSched_pause (cs : Sched ℕ β) :
    longSched size vgroup args root real (.pause :: cs) =
      .pause :: longSched size vgroup args root real cs := rfl

theorem longSched_append (cs cs' : Sched ℕ β) : longSched size vgroup args root real (cs ++ cs') =
    longSched size vgroup args root real cs ++ longSched size vgroup args root real cs' :=
  expand_append cs cs'

end Sched

/-- The operation is in step `k` of the allgather. -/
structure LongGather (size : ℕ) (vgroup : VGroup) (args : BcastArgs B) (root v k : ℕ)
    (op : BcastLongOp B) : Prop extends LongOf size vgroup args root v op where
  near : op.flags.rootToNearPhase = false
  scatterv : op.flags.scattervPhase = false
  allgatherv : op.flags.allgathervPhase = true
  step : op.stepIdx = k

section Exec

variable {size : ℕ} {vgroup : VGroup} {args : BcastArgs B} {root v : ℕ} {real : ℕ → ℕ}
  {K : Bool → BcastLongOp B × Status → Sched (Cell B) β → Prop}

section Of

variable {op : BcastLongOp B}

theorem LongOf.myrank_eq (h : LongOf size vgroup args root v op) : op.iter.myrank = v :=
  congrArg KntreeBase.myrank h.base_eq

theorem LongOf.root_eq (h : LongOf size vgroup args root v op) : op.iter.root = root :=
  congrArg KntreeBase.root h.base_eq

theorem LongOf.clearSend (h : LongOf size vgroup args root v op) :
    LongOf size vgroup args root v op.clearSend :=
  ⟨h.vgroup_eq, h.args_eq, h.base_eq, h.quotient_eq, h.division_eq⟩

theorem LongOf.clearRecv (h : LongOf size vgroup args root v op) :
    LongOf size vgroup args root v op.clearRecv :=
  ⟨h.vgroup_eq, h.args_eq, h.base_eq, h.quotient_eq, h.division_eq⟩

theorem LongGather.clearSend {k : ℕ} (h : LongGather size vgroup args root v k op) :
    LongGather size vgroup args root v k op.clearSend :=
  ⟨h.toLongOf.clearSend, h.near, h.scatterv, h.allgatherv, h.step⟩

theorem LongGather.clearRecv {k : ℕ} (h : LongGather size vgroup args root v k op) :
    LongGather size vgroup args root v k op.clearRecv :=
  ⟨h.toLongOf.clearRecv, h.near, h.scatterv, h.allgatherv, h.step⟩

theorem LongGather.nextStep {k : ℕ} (h : LongGather size vgroup args root v k op) :
    LongGather size vgroup args root v (k + 1) op.nextStep :=
  ⟨⟨h.vgroup_eq, h.args_eq, h.base_eq, h.quotient_eq, h.division_eq⟩, h.near, h.scatterv,
    h.allgatherv, congrArg (· + 1) h.step⟩

theorem LongOf.block_eq (h : LongOf size vgroup args root v op) : op.block =
    args.blockCells (blockOffset (args.count / size) (args.count % size)) := by
  rw [op.block_eq, h.args_eq, h.quotient_eq, h.division_eq]

end Of

/-- Either rank 0 has two neighbours to exchange with, in the odd steps, or a rank has one. -/
theorem longZero_cases (hv : v < size) (k : ℕ) :
    longZero size v = true ∧ v = 0 ∧ (leftOf size v % 2 ≠ k % 2 ↔ v % 2 ≠ k % 2) ∨
    longZero size v = false ∧ (leftOf size v % 2 ≠ k % 2 ↔ ¬v % 2 ≠ k % 2) := by
  rw [leftOf_mod_two (by omega) hv]
  by_cases hz : size % 2 = 1 ∧ v = 0
  · refine Or.inl ⟨by simp [longZero, hz.1, hz.2], hz.2, ?_⟩
    rw [if_pos hz, hz.2]
  · refine Or.inr ⟨by simpa [longZero] using hz, ?_⟩
    rw [if_neg hz]
    omega

/-- The neighbours as ranks of the group. -/
theorem longPeer_right {k : ℕ} (h : v % 2 ≠ k % 2) :
    longPeer size root k v = toRank size root (rightOf size v) := by
  rw [longPeer, longRight, toRank, rightOf, Nat.mod_add_mod]
  simp [h]

theorem longPeer_left {k : ℕ} (h : ¬v % 2 ≠ k % 2) :
    longPeer size root k v = toRank size root (leftOf size v) := by
  rw [longPeer, longRight, toRank, leftOf, Nat.mod_add_mod]
  simp [not_not.mp h]

variable {k : ℕ} {op : BcastLongOp B}

/-- The sends of a step. -/
theorem exec_exchangeSend (h : LongOf size vgroup args root v op) (hv : v < size)
    (hk : op.stepIdx = k) (hsend : op.flags.send = true)
    (hbusy : ¬(size % 2 = 1 ∧ k % 2 = 0 ∧ v = 0)) {moved : Bool} {cs : Sched ℕ β}
    (hK : K true (op.clearSend, .ok) (longSched size vgroup args root real cs)) :
    (bcastLongExchangeSend size real op).Exec K moved (longSched size vgroup args root real
      ((if v % 2 ≠ k % 2 then [.send (rightOf size v) [(v + 1 + size - (k + 1) / 2) % size]]
        else []) ++
      (if leftOf size v % 2 ≠ k % 2 then
        [.send (leftOf size v) [(v + size - 1 + (k + 1) / 2) % size]] else []) ++ cs)) := by
  rw [bcastLongExchangeSend, if_pos hsend]
  simp only [exec_bind, h.myrank_eq, h.root_eq, hk, h.block_eq, h.vgroup_eq, longSendBlock,
    longRight, bne_iff_ne]
  by_cases hr : v % 2 ≠ k % 2
  · simp only [if_pos hr, longPeer_right hr, List.cons_append, List.nil_append, longSched_send,
      List.flatMap_singleton]
    refine exec_isend_cons rfl rfl ?_
    rcases longZero_cases hv k with ⟨hz, rfl, hl⟩ | ⟨hz, hl⟩
    · simp only [if_pos (hl.mpr hr), hz, List.cons_append, List.nil_append, longSched_send,
        List.flatMap_singleton, ne_eq, not_true_eq_false, if_false, if_true, exec_bind, exec_pure]
      refine exec_isend_cons ?_ ?_ hK
      · rw [toRank, leftOf, Nat.mod_add_mod, Nat.zero_add]
      · rw [Nat.zero_add]
    · simp only [if_neg (fun h => (hl.mp h) hr), hz, List.nil_append, ne_eq, not_true_eq_false,
        if_false, Bool.false_eq_true, exec_pure]
      exact hK
  · have hz : longZero size v = false ∧ leftOf size v % 2 ≠ k % 2 := by
      rcases longZero_cases hv k with ⟨hz, rfl, -⟩ | ⟨hz, hl⟩
      · exact absurd ⟨by simpa [longZero] using hz, by omega, rfl⟩ hbusy
      · exact ⟨hz, hl.mpr hr⟩
    simp only [if_neg hr, longPeer_left hr, if_pos hz.2, hz.1, List.cons_append, List.nil_append,
      longSched_send, List.flatMap_singleton, Bool.false_eq_true, if_false]
    exact exec_isend_cons rfl rfl hK

/-- The receives of a step. -/
theorem exec_exchangeRecv (h : LongOf size vgroup args root v op) (hv : v < size)
    (hk : op.stepIdx = k) (hrecv : op.flags.recv = true)
    (hbusy : ¬(size % 2 = 1 ∧ k % 2 = 0 ∧ v = 0)) {moved : Bool} {cs : Sched ℕ β}
    (hK : K true (op.clearRecv, .ok) (longSched size vgroup args root real cs)) :
    (bcastLongExchangeRecv size real op).Exec K moved (longSched size vgroup args root real
      ((if v % 2 ≠ k % 2 then [.recv 0 (rightOf size v) [(v + (k + 1) / 2) % size]] else []) ++
      (if leftOf size v % 2 ≠ k % 2 then
        [.recv 0 (leftOf size v) [(v + size - (k + 1) / 2) % size]] else []) ++ cs)) := by
  rw [bcastLongExchangeRecv, if_pos hrecv]
  simp only [exec_bind, h.myrank_eq, h.root_eq, hk, h.block_eq, h.vgroup_eq, longRecvBlock,
    longRight, bne_iff_ne]
  by_cases hr : v % 2 ≠ k % 2
  · simp only [if_pos hr, longPeer_right hr, List.cons_append, List.nil_append, longSched_recv,
      List.flatMap_singleton]
    refine exec_irecv_cons rfl rfl ?_
    rcases longZero_cases hv k with ⟨hz, rfl, hl⟩ | ⟨hz, hl⟩
    · simp only [if_pos (hl.mpr hr), hz, List.cons_append, List.nil_append, longSched_recv,
        List.flatMap_singleton, ne_eq, not_true_eq_false, if_false, if_true, exec_bind, exec_pure]
      refine exec_irecv_cons ?_ ?_ hK
      · rw [toRank, leftOf, Nat.mod_add_mod, Nat.zero_add]
      · rw [Nat.zero_add]
    · simp only [if_neg (fun h => (hl.mp h) hr), hz, List.nil_append, ne_eq, not_true_eq_false,
        if_false, Bool.false_eq_true, exec_pure]
      exact hK
  · have hz : longZero size v = false ∧ leftOf size v % 2 ≠ k % 2 := by
      rcases longZero_cases hv k with ⟨hz, rfl, -⟩ | ⟨hz, hl⟩
      · exact absurd ⟨by simpa [longZero] using hz, by omega, rfl⟩ hbusy
      · exact ⟨hz, hl.mpr hr⟩
    simp only [if_neg hr, longPeer_left hr, if_pos hz.2, hz.1, List.cons_append, List.nil_append,
      longSched_recv, List.flatMap_singleton, Bool.false_eq_true, if_false]
    exact exec_irecv_cons rfl rfl hK

/-- Where a call leaves off in the allgather: at its end, or waiting in a step. -/
structure ExchangeLeaf (size : ℕ) (vgroup : VGroup) (args : BcastArgs B) (root v : ℕ)
    (real : ℕ → ℕ) (K : Bool → BcastLongOp B × Status → Sched (Cell B) β → Prop) : Prop where
  done : ∀ moved op, LongGather size vgroup args root v size op → K moved (op, .ok) []
  posted : ∀ k op, k < size → ¬(size % 2 = 1 ∧ k % 2 = 0 ∧ v = 0) →
    LongGather size vgroup args root v k op → op.flags.send = false → op.flags.recv = false →
    K true (op, .inprogress)
      (longSched size vgroup args root real (.wait :: exchangeFrom size v (k + 1)))

/-- The test at the end of a step, and what follows. -/
theorem exec_exchangeTest (hleaf : ExchangeLeaf size vgroup args root v real K) {fuel : ℕ}
    (hop : LongGather size vgroup args root v k op) (hk : k < size)
    (hbusy : ¬(size % 2 = 1 ∧ k % 2 = 0 ∧ v = 0)) (hsend : op.flags.send = false)
      (hrecv : op.flags.recv = false)
    (hnext : (bcastLongExchange size real fuel op.nextStep).Exec K true
      (longSched size vgroup args root real (exchangeFrom size v (k + 1)))) {moved : Bool} :
    (p2pTestall : Prog (Cell B) β Status).Exec (fun moved status cs =>
      (if status ≠ .ok then pure (op, status)
        else bcastLongExchange size real fuel op.nextStep).Exec K moved cs) moved
      (longSched size vgroup args root real (.wait :: exchangeFrom size v (k + 1))) := by
  rw [longSched_wait]
  exact exec_testall_wait (hleaf.posted k op hk hbusy hop hsend hrecv) hnext

/-- The allgather from the start of a step on. -/
theorem exec_exchange_fresh (hleaf : ExchangeLeaf size vgroup args root v real K)
    (hv : v < size) : ∀ {fuel k : ℕ} {op : BcastLongOp B} {moved : Bool}, size ≤ k + fuel →
      LongGather size vgroup args root v k op → k ≤ size → op.flags.send = true →
      op.flags.recv = true → (bcastLongExchange size real fuel op).Exec K moved
        (longSched size vgroup args root real (exchangeFrom size v k))
  | fuel, k, op, moved, hfuel, hop, hk, hsend, hrecv => by
    rcases hk.lt_or_eq with hlt | rfl
    · obtain ⟨fuel, rfl⟩ : ∃ f, fuel = f + 1 := ⟨fuel - 1, by omega⟩
      have hnext {op : BcastLongOp B} (hop : LongGather size vgroup args root v k op)
          (moved : Bool) : (bcastLongExchange size real fuel op.nextStep).Exec K moved
            (longSched size vgroup args root real (exchangeFrom size v (k + 1))) :=
        exec_exchange_fresh hleaf hv (by omega) hop.nextStep hlt rfl rfl
      rw [bcastLongExchange, if_pos (by rw [hop.step]; exact hlt), hop.step, hop.myrank_eq]
      dsimp only
      rw [exchangeFrom_succ hlt]
      by_cases hskip : size % 2 = 1 ∧ k % 2 = 0 ∧ v = 0
      · rw [if_pos hskip]
        obtain ⟨hodd, heven, rfl⟩ := hskip
        have hround : (exchangeRound size k 0 : Sched ℕ β) = [] := by
          have hl := leftOf_mod_two (by omega) hv
          rw [if_pos ⟨hodd, rfl⟩] at hl
          simp [exchangeRound, hl, heven]
        rw [hround, List.nil_append]
        exact hnext hop moved
      · have hround : (exchangeRound size k v : Sched ℕ β) ++ exchangeFrom size v (k + 1) =
            (if v % 2 ≠ k % 2 then [.send (rightOf size v) [(v + 1 + size - (k + 1) / 2) % size]]
              else []) ++
            (if leftOf size v % 2 ≠ k % 2 then
              [.send (leftOf size v) [(v + size - 1 + (k + 1) / 2) % size]] else []) ++
            ((if v % 2 ≠ k % 2 then [.recv 0 (rightOf size v) [(v + (k + 1) / 2) % size]]
              else []) ++
            (if leftOf size v % 2 ≠ k % 2 then
              [.recv 0 (leftOf size v) [(v + size - (k + 1) / 2) % size]] else []) ++
            (.wait :: exchangeFrom size v (k + 1))) := by
          have hwait : v % 2 ≠ k % 2 ∨ leftOf size v % 2 ≠ k % 2 := by
            have hl := leftOf_mod_two (by omega) hv
            split_ifs at hl <;> omega
          rw [exchangeRound, if_pos hwait]
          simp only [List.append_assoc, List.singleton_append]
        rw [if_neg hskip, hround, exec_bind]
        refine exec_exchangeSend hop.toLongOf hv hop.step hsend hskip ?_
        simp only [ne_eq, not_true_eq_false, if_false, exec_bind]
        refine exec_exchangeRecv hop.clearSend.toLongOf hv hop.step hrecv hskip ?_
        simp only [not_true_eq_false, if_false]
        have hop' := hop.clearSend.clearRecv
        exact exec_exchangeTest hleaf hop' hlt hskip rfl rfl (hnext hop' true)
    · have hend : ¬op.stepIdx < k := by rw [hop.step]; exact lt_irrefl k
      rw [exchangeFrom_end]
      cases fuel <;> rw [bcastLongExchange, if_neg hend] <;> exact hleaf.done moved op hop

/-- The allgather in a step that waits. -/
theorem exec_exchange_posted (hleaf : ExchangeLeaf size vgroup args root v real K)
    (hv : v < size) {fuel : ℕ} {moved : Bool} (hfuel : size ≤ k + fuel)
    (hop : LongGather size vgroup args root v k op) (hk : k < size)
    (hbusy : ¬(size % 2 = 1 ∧ k % 2 = 0 ∧ v = 0)) (hsend : op.flags.send = false)
    (hrecv : op.flags.recv = false) : (bcastLongExchange size real fuel op).Exec K moved
      (longSched size vgroup args root real (.wait :: exchangeFrom size v (k + 1))) := by
  obtain ⟨fuel, rfl⟩ : ∃ f, fuel = f + 1 := ⟨fuel - 1, by omega⟩
  rw [bcastLongExchange, if_pos (by rw [hop.step]; exact hk), hop.step, hop.myrank_eq]
  dsimp only
  rw [if_neg hbusy, bcastLongExchangeSend, if_neg (by simp [hsend])]
  simp only [exec_bind, exec_pure, ne_eq, not_true_eq_false, if_false]
  rw [bcastLongExchangeRecv, if_neg (by simp [hrecv])]
  simp only [exec_bind, exec_pure, not_true_eq_false, if_false]
  exact exec_exchangeTest hleaf hop hk hbusy hsend hrecv
    (exec_exchange_fresh hleaf hv (by omega) hop.nextStep hk rfl rfl)

end Exec

/-! ### The scatter -/

/-- The operation is in its scatter, and has received what it is to receive. -/
structure LongScatter (size : ℕ) (vgroup : VGroup) (args : BcastArgs B) (root v : ℕ)
    (op : BcastLongOp B) : Prop extends LongOf size vgroup args root v op where
  near : op.flags.rootToNearPhase = false
  scatterv : op.flags.scattervPhase = true
  allgatherv : op.flags.allgathervPhase = true
  step : op.stepIdx = 1

theorem LongScatter.clearInflight {size : ℕ} {vgroup : VGroup} {args : BcastArgs B} {root v : ℕ}
    {op : BcastLongOp B} (h : LongScatter size vgroup args root v op) :
    LongScatter size vgroup args root v op.clearInflight :=
  ⟨⟨h.vgroup_eq, h.args_eq, h.base_eq, h.quotient_eq, h.division_eq⟩, h.near, h.scatterv,
    h.allgatherv, h.step⟩

/-- A child gets a message, then the rank may stop. -/
noncomputable abbrev longSend (size c : ℕ) : Sched ℕ β :=
  scatterSend size (fun _ => true) [.pause] c

section Scatter

variable {size : ℕ} {vgroup : VGroup} {args : BcastArgs B} {root v : ℕ} {real : ℕ → ℕ}
  {op : BcastLongOp B}

/-- Blocks that are not empty have elements. -/
theorem blocksRange_pos {q d first blocks : ℕ} (hq : 0 < q) (hblocks : 0 < blocks) :
    0 < (blocksRange q d first blocks).2 := by
  have hlt : blockOffset q d first < blockOffset q d (first + 1) := by
    rw [blockOffset_succ, blockCount]
    split_ifs <;> omega
  have hle : blockOffset q d (first + 1) ≤ blockOffset q d (first + blocks) :=
    blockOffset_mono (by omega)
  rw [blocksRange_eq]
  dsimp only
  omega

/-- The receive from the parent. -/
theorem exec_longScatterRecv {K : Bool → BcastLongOp B × Status → Sched (Cell B) β → Prop}
    (h : LongOf size vgroup args root v op) (hroot : root < size) (hv : v < size) (hpos : 0 < v)
    (hrecv : op.flags.recv = true) {moved : Bool} {cs : Sched ℕ β}
    (hK : K true ({ op.clearRecv with currBlocks := scatterEnd size v - v }, .ok)
      (longSched size vgroup args root real (.wait :: cs))) :
    (bcastLongScatterRecv size real (toRank size root (kntreeParent 2 v)) op).Exec K moved
      (longSched size vgroup args root real (scatterRecv size (fun _ => true) v ++ cs)) := by
  have hparent : kntreeParent 2 v < v := kntreeParent_lt (by decide) hpos
  obtain ⟨hdvd, hchild⟩ := scatterChild_iff.mpr ⟨hpos, rfl, rfl⟩
  have hend : scatterEnd size v = min (v + 2 ^ multiplicity 2 v) size := by
    rw [scatterEnd, kntreeHeight, if_neg hpos.ne']
  have hlt := lt_scatterEnd hv
  have hblocks : (if kntreeParent 2 v + (v - kntreeParent 2 v) * 2 < size
      then min (kntreeParent 2 v + (v - kntreeParent 2 v) * 2) size - v else size - v) =
        scatterEnd size v - v := by
    rw [show kntreeParent 2 v + (v - kntreeParent 2 v) * 2 = v + 2 ^ multiplicity 2 v by omega,
      hend]
    split_ifs <;> omega
  rw [bcastLongScatterRecv, if_pos hrecv]
  simp only [h.myrank_eq, h.root_eq, toRank_add_sub_mod hroot (hparent.trans hv), hblocks,
    h.quotient_eq, h.division_eq, h.args_eq, h.vgroup_eq]
  rw [if_neg (by omega)]
  simp only [exec_bind, scatterRecv, if_true, List.cons_append, List.nil_append, longSched_recv]
  refine exec_irecv_cons rfl ?_ hK
  rw [part_blocksRange, scatterBlocks]

/-- What is left of the schedule when the children `rest` have still to get their messages. -/
noncomputable def longLeft (size v : ℕ) (rest : List ℕ) (inflight : ℕ) : Sched ℕ β :=
  rest.flatMap (longSend size) ++
    ((if rest = [] ∧ inflight = 0 then [] else [.wait]) ++ exchangeFrom size v 1)

/-- Between two calls in the scatter, the rank has sent to the child `v + 2 ^ e` and has reached the
    threshold. -/
structure LongMid (size : ℕ) (vgroup : VGroup) (args : BcastArgs B) (root v e : ℕ)
    (op : BcastLongOp B) : Prop extends LongScatter size vgroup args root v op where
  send : op.flags.send = true
  recv : op.flags.recv = false ∨ v = 0
  dvd : 2 ^ (e + 1) ∣ v
  lt : v + 2 ^ e < size
  child : op.iter.child = some (toRank size root (v + 2 ^ e))
  rest : op.iter.childInc.Yields ((kntreeRest size 2 v e 1).map (toRank size root))
  curr : op.currBlocks = 2 ^ e

/-- Between two calls, all messages of the scatter have been posted. -/
structure LongTail (size : ℕ) (vgroup : VGroup) (args : BcastArgs B) (root v : ℕ)
    (op : BcastLongOp B) : Prop extends LongScatter size vgroup args root v op where
  send : op.flags.send = false
  recv : op.flags.recv = false ∨ v = 0

/-- Where the loop over the children leaves off. -/
structure ScatterLeaf (size : ℕ) (vgroup : VGroup) (args : BcastArgs B) (root v : ℕ)
    (K : Bool → BcastLongOp B × Status → Sched (Cell B) β → Prop) : Prop where
  mid : ∀ e op, LongMid size vgroup args root v e op → K true (op, .inprogress)
    (longSched size vgroup args root (fun p => p)
      (.pause :: ((kntreeRest size 2 v e 1).flatMap (longSend size) ++
        .wait :: exchangeFrom size v 1)))
  tail : ∀ op cs, LongTail size vgroup args root v op → (cs = [] ∨ cs = [.pause]) →
    K true (op, .inprogress)
      (longSched size vgroup args root (fun p => p) (cs ++ .wait :: exchangeFrom size v 1))
  done : ∀ moved op, LongScatter size vgroup args root v op →
    K moved (op, .ok) (longSched size vgroup args root (fun p => p) (exchangeFrom size v 1))

/-- The loop over the children whose sub-trees have less than `2 ^ E` ranks. -/
theorem exec_scattervLoop {K : Bool → BcastLongOp B × Status → Sched (Cell B) β → Prop}
    (hleaf : ScatterLeaf size vgroup args root v K) (hroot : root < size) (hv : v < size)
    (hcount : size ≤ args.count) (hsize : vgroup.size = size) : ∀ {E fuel : ℕ}
      {op : BcastLongOp B} {moved : Bool} (pre : Sched ℕ β), E ≤ fuel →
      LongScatter size vgroup args root v op → op.flags.send = true →
      (op.flags.recv = false ∨ v = 0) → E ≤ kntreeHeight size 2 v →
      op.iter.Yields ((kntreeRest size 2 v E 1).map (toRank size root)) →
      op.currBlocks = min (v + 2 ^ E) size - v → (0 < op.inflight → moved = true) →
      (pre = [] ∨ pre = [.pause] ∧ (0 < op.inflight ∨ kntreeRest size 2 v E 1 ≠ [])) →
      (bcastLongScattervLoop fuel op).Exec K moved (longSched size vgroup args root (fun p => p)
        (pre ++ longLeft size v (kntreeRest size 2 v E 1) op.inflight))
  | 0, fuel, op, moved, pre, _, hop, hsend, hrecv, _, hyields, _, hmoved, hpre => by
    have hchild : op.iter.child = none := hyields
    have htail : LongTail size vgroup args root v op.clearSend :=
      ⟨⟨hop.toLongOf.clearSend, hop.near, hop.scatterv, hop.allgatherv, hop.step⟩, rfl, hrecv⟩
    have hexec : K moved (op.clearSend, if op.inflight > 0 then .inprogress else .ok)
        (longSched size vgroup args root (fun p => p)
          (pre ++ longLeft size v (kntreeRest size 2 v 0 1) op.inflight)) := by
      rw [longLeft, kntreeRest, List.flatMap_nil, List.nil_append]
      rcases Nat.eq_zero_or_pos op.inflight with h | h
      · obtain rfl : pre = [] := hpre.resolve_right fun hp => hp.2.elim h.not_gt fun h => h rfl
        rw [if_neg h.not_gt, if_pos ⟨rfl, h⟩]
        exact hleaf.done moved _ htail.toLongScatter
      · have hne : ¬(([] : List ℕ) = [] ∧ op.inflight = 0) := fun h' => h.ne' h'.2
        rw [if_pos h, if_neg hne, hmoved h]
        exact hleaf.tail _ pre htail (hpre.imp_right And.left)
    cases fuel <;> rw [bcastLongScattervLoop, hchild] <;> exact hexec
  | E + 1, fuel, op, moved, pre, hfuel, hop, hsend, hrecv, hE, hyields, hcurr, hmoved, hpre => by
    by_cases hlt : v + 2 ^ E < size
    · -- the child with a sub-tree of `2 ^ E` ranks
      have hrest : kntreeRest size 2 v (E + 1) 1 = (v + 2 ^ E) :: kntreeRest size 2 v E 1 := by
        rw [kntreeRest, kntreeLevel_succ (by decide), kntreeLevel_end le_rfl, Nat.mul_one,
          if_pos hlt]
        rfl
      obtain ⟨fuel, rfl⟩ : ∃ f, fuel = f + 1 := ⟨fuel - 1, by omega⟩
      rw [hrest] at hyields ⊢
      obtain ⟨hchild, hyields⟩ := hyields
      have hdvd : 2 ^ (E + 1) ∣ v := pow_dvd_of_le_kntreeHeight (by decide) hE
      have hend : scatterEnd size (v + 2 ^ E) = min (v + 2 ^ (E + 1)) size := by
        obtain ⟨hpos, hmult, -⟩ := scatterChild_iff.mp ⟨hdvd, rfl⟩
        rw [scatterEnd, kntreeHeight, if_neg hpos.ne', hmult, pow_succ]
        omega
      have hblocks : op.currBlocks + v - (v + 2 ^ E) =
          scatterEnd size (v + 2 ^ E) - (v + 2 ^ E) := by
        rw [hend, hcurr, pow_succ]
        omega
      have hgt := lt_scatterEnd hlt
      rw [bcastLongScattervLoop]
      simp only [hchild, hop.root_eq, hop.myrank_eq, hop.vgroup_eq, hop.args_eq, hop.quotient_eq,
        hop.division_eq, hsize, toRank_add_sub_mod hroot hlt, hblocks]
      rw [if_neg (by omega), exec_bind]
      set W := scatterEnd size (v + 2 ^ E) - (v + 2 ^ E) with hW
      set len := (blocksRange (args.count / size) (args.count % size) (v + 2 ^ E) W).2 with hlen
      have hlenPos : 0 < len := blocksRange_pos (Nat.div_pos hcount (by omega)) (by omega)
      have hsent : LongScatter size vgroup args root v (op.sent W len) :=
        ⟨⟨hop.vgroup_eq, hop.args_eq, hop.base_eq, hop.quotient_eq, hop.division_eq⟩, hop.near,
          hop.scatterv, hop.allgatherv, hop.step⟩
      have hpos : (op.sent W len).inflight ≠ 0 := by
        change op.inflight + len ≠ 0
        omega
      have hsched : longLeft size v ((v + 2 ^ E) :: kntreeRest size 2 v E 1) op.inflight =
          (.send (v + 2 ^ E) (scatterBlocks size (v + 2 ^ E)) :: .pause ::
            longLeft size v (kntreeRest size 2 v E 1) (op.sent W len).inflight : Sched ℕ β) := by
        simp [longLeft, longSend, scatterSend, hpos]
      have hleft : longLeft size v (kntreeRest size 2 v E 1) (op.sent W len).inflight =
          ((kntreeRest size 2 v E 1).flatMap (longSend size) ++
            .wait :: exchangeFrom size v 1 : Sched ℕ β) := by
        rw [longLeft, if_neg fun h => hpos h.2]
        rfl
      have hcurr' : (op.sent W len).currBlocks = 2 ^ E := by
        change op.currBlocks - W = 2 ^ E
        rw [hend] at hgt hW
        omega
      rw [hsched, longSched_append, longSched_send]
      refine exec_isend_skip ?_ rfl ?_ ?_
      · rw [longSched]
        exact hpre.imp (congrArg _) fun h => congrArg _ h.1
      · rw [part_blocksRange, scatterBlocks]
      simp only [ne_eq, not_true_eq_false, if_false]
      split_ifs with hbatch
      · rw [exec_pure, hleft]
        exact hleaf.mid E _ ⟨hsent, hsend, hrecv, hdvd, hlt, hchild, hyields, hcurr'⟩
      · refine exec_scattervLoop hleaf hroot hv hcount hsize [.pause] (by omega)
          ⟨⟨hop.vgroup_eq, hop.args_eq, ?_, hop.quotient_eq, hop.division_eq⟩, hop.near,
            hop.scatterv, hop.allgatherv, hop.step⟩ hsend hrecv (by omega) hyields ?_
          (fun _ => rfl) (Or.inr ⟨rfl, Or.inl (Nat.pos_of_ne_zero hpos)⟩)
        · exact (op.iter.childInc_base).trans hop.base_eq
        · rw [min_eq_left hlt.le, Nat.add_sub_cancel_left]
          exact hcurr'
    · have hrest : kntreeRest size 2 v (E + 1) 1 = kntreeRest size 2 v E 1 := by
        rw [kntreeRest, kntreeLevel_succ (by decide), kntreeLevel_end le_rfl, Nat.mul_one,
          if_neg hlt]
        rfl
      rw [hrest] at hyields hpre ⊢
      refine exec_scattervLoop hleaf hroot hv hcount hsize pre (by omega) hop hsend hrecv (by omega)
        hyields ?_ hmoved hpre
      rw [hcurr, pow_succ]
      omega

/-- Before the first message to a child, the rank waits for what it has posted. -/
structure LongStart (size : ℕ) (vgroup : VGroup) (args : BcastArgs B) (root v : ℕ)
    (op : BcastLongOp B) : Prop extends LongScatter size vgroup args root v op where
  send : op.flags.send = true
  recv : op.flags.recv = false ∨ v = 0
  children : op.iter.Yields ((kntreeChildren size 2 v).map (toRank size root))
  curr : op.currBlocks = scatterEnd size v - v

theorem exec_scattervSend_start {K : Bool → BcastLongOp B × Status → Sched (Cell B) β → Prop}
    (hleaf : ScatterLeaf size vgroup args root v K) (hroot : root < size) (hv : v < size)
    (hcount : size ≤ args.count) (hsize : vgroup.size = size)
    (hop : LongStart size vgroup args root v op) {moved : Bool} :
    (bcastLongScattervSend op.clearInflight).Exec K moved
      (longSched size vgroup args root (fun p => p)
        (longLeft size v (kntreeChildren size 2 v) 0)) := by
  rw [bcastLongScattervSend, if_pos (show op.clearInflight.flags.send = true from hop.send)]
  have hfuel : kntreeHeight size 2 v ≤ op.clearInflight.vgroup.size :=
    (kntreeHeight_le hv).trans_eq (hsize ▸ congrArg VGroup.size hop.vgroup_eq.symm)
  exact exec_scattervLoop hleaf hroot hv hcount hsize [] hfuel hop.clearInflight hop.send
    hop.recv le_rfl hop.children hop.curr (fun h => absurd h (lt_irrefl 0)) (Or.inl rfl)

/-- After an interruption at the threshold, the child that has got its message is skipped. -/
theorem exec_scattervSend_mid {K : Bool → BcastLongOp B × Status → Sched (Cell B) β → Prop}
    (hleaf : ScatterLeaf size vgroup args root v K) (hroot : root < size) (hv : v < size)
    (hcount : size ≤ args.count) (hsize : vgroup.size = size) {e : ℕ}
    (hop : LongMid size vgroup args root v e op) {moved : Bool} {pre : Sched ℕ β}
    (hpre : pre = [] ∨ pre = [.pause] ∧ kntreeRest size 2 v e 1 ≠ []) :
    (bcastLongScattervSend op.clearInflight).Exec K moved
      (longSched size vgroup args root (fun p => p)
        (pre ++ longLeft size v (kntreeRest size 2 v e 1) 0)) := by
  have he : e < 2 ^ e := Nat.lt_two_pow_self
  have hlt := hop.lt
  have hsize' : op.clearInflight.vgroup.size = size := hsize ▸ congrArg VGroup.size hop.vgroup_eq
  obtain ⟨fuel, hfuel⟩ : ∃ f, size = f + 1 := ⟨size - 1, by omega⟩
  have hskip : op.clearInflight.currBlocks + op.clearInflight.iter.myrank -
      (toRank size root (v + 2 ^ e) + size - root) % size = 0 := by
    rw [toRank_add_sub_mod hroot hlt, show op.clearInflight.iter.myrank = v from hop.myrank_eq,
      show op.clearInflight.currBlocks = 2 ^ e from hop.curr]
    omega
  rw [bcastLongScattervSend, if_pos (show op.clearInflight.flags.send = true from hop.send),
    hsize'.trans hfuel, bcastLongScattervLoop,
    show op.clearInflight.iter.child = _ from hop.child]
  dsimp only
  rw [hsize', show op.clearInflight.iter.root = root from hop.root_eq, if_pos hskip]
  have hbase : op.iter.childInc.toKntreeBase = KntreeIter.baseOf size 2 root v true :=
    (op.iter.childInc_base).trans hop.base_eq
  have hnext : LongScatter size vgroup args root v op.clearInflight.childInc :=
    ⟨⟨hop.vgroup_eq, hop.args_eq, hbase, hop.quotient_eq, hop.division_eq⟩, hop.near,
      hop.scatterv, hop.allgatherv, hop.step⟩
  refine exec_scattervLoop hleaf hroot hv hcount hsize pre (show e ≤ fuel by omega) hnext hop.send
    hop.recv ?_ hop.rest ?_ (fun h => absurd h (lt_irrefl 0))
    (hpre.imp_right fun h => ⟨h.1, Or.inr h.2⟩)
  · exact (lt_kntreeHeight hop.dvd hlt).le
  · rw [min_eq_left hlt.le, Nat.add_sub_cancel_left]
    exact hop.curr

end Scatter

/-! ### The operation -/

/-- What is left of the schedule between two calls. -/
inductive LongRel (size : ℕ) (vgroup : VGroup) (args : BcastArgs B) (root v : ℕ) :
    BcastLongOp B → Sched (Cell B) β → Prop
  | start {op : BcastLongOp B} (hop : LongStart size vgroup args root v op) :
      LongRel size vgroup args root v op (longSched size vgroup args root (fun p => p)
        (.wait :: longLeft size v (kntreeChildren size 2 v) 0))
  | mid {e : ℕ} {op : BcastLongOp B} (hop : LongMid size vgroup args root v e op) :
      LongRel size vgroup args root v op (longSched size vgroup args root (fun p => p)
        (.pause :: ((kntreeRest size 2 v e 1).flatMap (longSend size) ++
          .wait :: exchangeFrom size v 1)))
  | tail {op : BcastLongOp B} {pre : Sched ℕ β} (hop : LongTail size vgroup args root v op)
      (hpre : pre = [] ∨ pre = [.pause]) :
      LongRel size vgroup args root v op (longSched size vgroup args root (fun p => p)
        (pre ++ .wait :: exchangeFrom size v 1))
  | posted {k : ℕ} {op : BcastLongOp B} (hk : k < size)
      (hbusy : ¬(size % 2 = 1 ∧ k % 2 = 0 ∧ v = 0)) (hop : LongGather size vgroup args root v k op)
      (hsend : op.flags.send = false) (hrecv : op.flags.recv = false) :
      LongRel size vgroup args root v op (longSched size vgroup args root (fun p => p)
        (.wait :: exchangeFrom size v (k + 1)))
  | done {op : BcastLongOp B} (hscatterv : op.flags.scattervPhase = false)
      (hallgatherv : op.flags.allgathervPhase = false) : LongRel size vgroup args root v op []

section Operation

variable {size : ℕ} {vgroup : VGroup} {args : BcastArgs B} {root v : ℕ} {op : BcastLongOp B}

/-- The end of a call. -/
def LongEnd (size : ℕ) (vgroup : VGroup) (args : BcastArgs B) (root v : ℕ) (moved : Bool)
    (res : BcastLongOp B × Status) (cs : Sched (Cell B) β) : Prop :=
  res.2 = res.1.status ∧
    OpLeaf BcastLongOp.status (LongRel size vgroup args root v) moved res.1 cs

/-- A call that ends at a stop. -/
theorem longEnd_stop {cs : Sched (Cell B) β} (hstop : cs.AtStop)
    (hrel : LongRel size vgroup args root v { op with status := .inprogress } cs) :
    LongEnd size vgroup args root v true ({ op with status := .inprogress }, .inprogress) cs :=
  ⟨rfl, hrel, Or.inl ⟨rfl, rfl, hstop⟩⟩

/-- The allgather, where it is after the exchange. -/
theorem exchangeLeaf_opGather : ExchangeLeaf size vgroup args root v (fun p => p)
    fun moved (res : BcastLongOp B × Status) (cs : Sched (Cell B) β) =>
      (if res.2 ≠ .ok then pure ({ res.1 with status := res.2 }, res.2)
        else pure ({ res.1 with
          flags := { res.1.flags with allgathervPhase := false }, status := Status.ok },
          Status.ok) : Prog (Cell B) β (BcastLongOp B × Status)).Exec
        (LongEnd size vgroup args root v) moved cs where
  done moved op hop := by
    rw [if_neg (by simp), exec_pure]
    exact ⟨rfl, .done hop.scatterv rfl, Or.inr ⟨rfl, rfl⟩⟩
  posted k op hk hbusy hop hsend hrecv := by
    rw [if_pos (by simp), exec_pure]
    exact longEnd_stop trivial (.posted hk hbusy
      ⟨⟨hop.vgroup_eq, hop.args_eq, hop.base_eq, hop.quotient_eq, hop.division_eq⟩, hop.near,
        hop.scatterv, hop.allgatherv, hop.step⟩ hsend hrecv)

theorem exec_opGather_fresh (hv : v < size) (hsize : vgroup.size = size)
    (hop : LongGather size vgroup args root v 1 op) (hsend : op.flags.send = true)
    (hrecv : op.flags.recv = true) {moved : Bool} :
    (bcastLongOpGather op).Exec (LongEnd size vgroup args root v) moved
      (longSched size vgroup args root (fun p => p) (exchangeFrom size v 1) :
        Sched (Cell B) β) := by
  rw [bcastLongOpGather, if_pos hop.allgatherv, exec_bind, bcastLongAllgathervOpProgress,
    hop.vgroup_eq, hsize]
  exact exec_exchange_fresh exchangeLeaf_opGather hv (show size ≤ 1 + size by omega) hop (by omega)
    hsend hrecv

theorem exec_opGather_posted (hv : v < size) (hsize : vgroup.size = size) {k : ℕ}
    (hk : k < size) (hbusy : ¬(size % 2 = 1 ∧ k % 2 = 0 ∧ v = 0))
    (hop : LongGather size vgroup args root v k op) (hsend : op.flags.send = false)
    (hrecv : op.flags.recv = false) {moved : Bool} :
    (bcastLongOpGather op).Exec (LongEnd size vgroup args root v) moved
      (longSched size vgroup args root (fun p => p) (.wait :: exchangeFrom size v (k + 1)) :
        Sched (Cell B) β) := by
  rw [bcastLongOpGather, if_pos hop.allgatherv, exec_bind, bcastLongAllgathervOpProgress,
    hop.vgroup_eq, hsize]
  exact exec_exchange_posted exchangeLeaf_opGather hv (show size ≤ k + size by omega) hop hk hbusy
    hsend hrecv

/-- The scatter, where the allgather comes after it. -/
theorem scatterLeaf_opProgress (hv : v < size) (hsize : vgroup.size = size) :
    ScatterLeaf size vgroup args root v
      fun moved (res : BcastLongOp B × Status) (cs : Sched (Cell B) β) =>
        (if res.2 ≠ .ok then pure ({ res.1 with status := res.2 }, res.2)
          else bcastLongOpGather res.1.scattervDone : Prog (Cell B) β (BcastLongOp B × Status)).Exec
          (LongEnd size vgroup args root v) moved cs where
  mid e op hop := by
    rw [if_pos (by simp), exec_pure]
    exact longEnd_stop trivial (.mid ⟨⟨⟨hop.vgroup_eq, hop.args_eq, hop.base_eq, hop.quotient_eq,
      hop.division_eq⟩, hop.near, hop.scatterv, hop.allgatherv, hop.step⟩, hop.send, hop.recv,
      hop.dvd, hop.lt, hop.child, hop.rest, hop.curr⟩)
  tail op pre hop hpre := by
    rw [if_pos (by simp), exec_pure]
    refine longEnd_stop ?_ (.tail ⟨⟨⟨hop.vgroup_eq, hop.args_eq, hop.base_eq, hop.quotient_eq,
      hop.division_eq⟩, hop.near, hop.scatterv, hop.allgatherv, hop.step⟩, hop.send, hop.recv⟩ hpre)
    obtain rfl | rfl := hpre <;> trivial
  done moved op hop := by
    rw [if_neg (by simp)]
    have hgather : LongGather size vgroup args root v 1 op.scattervDone :=
      ⟨⟨hop.vgroup_eq, hop.args_eq, hop.base_eq, hop.quotient_eq, hop.division_eq⟩, hop.near, rfl,
        hop.allgatherv, hop.step⟩
    exact exec_opGather_fresh hv hsize hgather rfl rfl

/-- The test before the messages to the children. -/
theorem exec_scattervTest {K : Bool → BcastLongOp B × Status → Sched (Cell B) β → Prop}
    (hleaf : ScatterLeaf size vgroup args root v K) (hroot : root < size) (hv : v < size)
    (hcount : size ≤ args.count) (hsize : vgroup.size = size)
    (hop : LongStart size vgroup args root v op) {moved : Bool}
    (hK : K true (op, .inprogress) (longSched size vgroup args root (fun p => p)
      (.wait :: longLeft size v (kntreeChildren size 2 v) 0))) :
    (p2pTestall : Prog (Cell B) β Status).Exec (fun moved status cs =>
      (if status ≠ .ok then pure (op, status) else bcastLongScattervSend op.clearInflight).Exec K
        moved cs) moved (longSched size vgroup args root (fun p => p)
          (.wait :: longLeft size v (kntreeChildren size 2 v) 0)) := by
  rw [longSched_wait]
  exact exec_testall_wait hK (exec_scattervSend_start hleaf hroot hv hcount hsize hop)

/-- The rest of the scatter, when nothing is to be received any more. -/
theorem exec_scattervOpProgress {K : Bool → BcastLongOp B × Status → Sched (Cell B) β → Prop}
    (hop : LongOf size vgroup args root v op) (hrecv : op.flags.recv = false ∨ v = 0)
    {moved : Bool} {cs : Sched (Cell B) β}
    (h : (p2pTestall : Prog (Cell B) β Status).Exec (fun moved status cs =>
      (if status ≠ .ok then pure (op, status) else bcastLongScattervSend op.clearInflight).Exec K
        moved cs) moved cs) :
    (bcastLongScattervOpProgress op).Exec K moved cs := by
  have hparent : op.iter.parent =
      if v = 0 then none else some ((kntreeParent 2 v + root) % size) :=
    congrArg KntreeBase.parent hop.base_eq
  rw [bcastLongScattervOpProgress, exec_bind, bcastLongScattervRecv, hparent]
  by_cases hv : v = 0
  · rw [if_pos hv]
    exact h
  · rw [if_neg hv]
    dsimp only
    rw [bcastLongScatterRecv, if_neg (by simp [hrecv.resolve_right hv])]
    exact h

/-- Every call after the first one executes the next part of the schedule. -/
theorem exec_longOpProgress (hroot : root < size) (hv : v < size) (hcount : size ≤ args.count)
    (hsize : vgroup.size = size) {cs : Sched (Cell B) β}
    (hrel : LongRel size vgroup args root v op cs) :
    (bcastLongOpProgress op).Exec (LongEnd size vgroup args root v) false cs := by
  have hleaf := @scatterLeaf_opProgress B β size vgroup args root v hv hsize
  cases hrel with
  | start hop =>
    rw [bcastLongOpProgress, if_pos hop.scatterv, exec_bind]
    refine exec_scattervOpProgress hop.toLongOf hop.recv
      (exec_scattervTest hleaf hroot hv hcount hsize hop ?_)
    rw [if_pos (by simp), exec_pure]
    exact longEnd_stop trivial (.start ⟨⟨⟨hop.vgroup_eq, hop.args_eq, hop.base_eq,
      hop.quotient_eq, hop.division_eq⟩, hop.near, hop.scatterv, hop.allgatherv, hop.step⟩,
      hop.send, hop.recv, hop.children, hop.curr⟩)
  | @mid e _ hop =>
    rw [bcastLongOpProgress, if_pos hop.scatterv, exec_bind]
    refine exec_scattervOpProgress hop.toLongOf hop.recv ?_
    rw [exec_p2pTestall]
    refine ⟨hleaf.mid e op hop, ?_⟩
    by_cases hrest : kntreeRest size 2 v e 1 = []
    · -- nothing is left to send
      refine Or.inr ⟨longSched size vgroup args root (fun p => p) (exchangeFrom size v 1), ?_, ?_⟩
      · rw [hrest]
        rfl
      have hleft : ([] : Sched ℕ β) ++ longLeft size v (kntreeRest size 2 v e 1) 0 =
          exchangeFrom size v 1 := by
        rw [hrest, longLeft, if_pos ⟨rfl, rfl⟩]
        rfl
      rw [← hleft]
      exact exec_scattervSend_mid hleaf hroot hv hcount hsize hop (Or.inl rfl)
    · have hleft : ([.pause] : Sched ℕ β) ++ longLeft size v (kntreeRest size 2 v e 1) 0 =
          .pause :: ((kntreeRest size 2 v e 1).flatMap (longSend size) ++
            .wait :: exchangeFrom size v 1) := by
        rw [longLeft, if_neg fun h => hrest h.1]
        rfl
      rw [← hleft]
      exact Or.inl (exec_scattervSend_mid hleaf hroot hv hcount hsize hop
        (Or.inr ⟨rfl, hrest⟩))
  | @tail _ pre hop hpre =>
    rw [bcastLongOpProgress, if_pos hop.scatterv, exec_bind]
    refine exec_scattervOpProgress hop.toLongOf hop.recv ?_
    rw [exec_p2pTestall]
    refine ⟨hleaf.tail op pre hop hpre, Or.inr ⟨longSched size vgroup args root (fun p => p)
      (exchangeFrom size v 1), ?_, ?_⟩⟩
    · obtain rfl | rfl := hpre <;> rfl
    · rw [if_neg (by simp), bcastLongScattervSend, if_neg (by
        rw [show op.clearInflight.flags.send = false from hop.send]; decide), exec_pure]
      exact hleaf.done true _ hop.toLongScatter.clearInflight
  | posted hk hbusy hop hsend hrecv =>
    rw [bcastLongOpProgress, if_neg (by simp [hop.scatterv])]
    exact exec_opGather_posted hv hsize hk hbusy hop hsend hrecv
  | done hscatterv hallgatherv =>
    rw [bcastLongOpProgress, if_neg (by simp [hscatterv]), bcastLongOpGather,
      if_neg (by simp [hallgatherv]), exec_pure]
    exact ⟨rfl, .done hscatterv hallgatherv, Or.inr ⟨rfl, rfl⟩⟩

/-- The stops of the long broadcast at the start: the root waits, though it has posted nothing. -/
def longStart (v : ℕ) : Sched ℕ β := if v = 0 then [.wait] else []

/-- The stops between the phases: a rank waits if it has sent something. -/
noncomputable def longClose (size v : ℕ) : Sched ℕ β :=
  if kntreeChildren size 2 v = [] then [] else [.wait]

theorem stops_longStart (v : ℕ) : (longStart v : Sched ℕ β).Stops := by
  rw [longStart]
  split_ifs <;> simp [Sched.Stops]

theorem stops_longClose (v : ℕ) : (longClose size v : Sched ℕ β).Stops := by
  rw [longClose]
  split_ifs <;> simp [Sched.Stops]

/-- The schedule of rank `v`. -/
noncomputable def longAll (size v : ℕ) : Sched ℕ β :=
  (longRounds size longStart [.pause] (longClose size)).flatMap fun R => R v

theorem longAll_eq (hv : v < size) : (longAll size v : Sched ℕ β) =
    if v = 0 then .wait :: longLeft size v (kntreeChildren size 2 v) 0
    else scatterRecv size (fun _ => true) v ++ longLeft size v (kntreeChildren size 2 v) 0 := by
  have hleft : (longLeft size v (kntreeChildren size 2 v) 0 : Sched ℕ β) =
      (kntreeChildren size 2 v).flatMap (scatterSend size (fun _ => true) [.pause]) ++
        (longClose size v ++ exchangeFrom size v 1) := by
    rw [longLeft, longClose]
    simp only [and_true]
  rw [longAll, flatMap_longRounds hv, hleft, longStart]
  split_ifs <;>
    simp only [List.nil_append, List.cons_append, List.append_assoc]

/-- The iterator of a new operation is that of its rank. -/
theorem longNew_base (hsize : vgroup.size = size) (hn : 2 ≤ size) :
    (bcastLongOpNew vgroup args).iter.toKntreeBase =
      KntreeIter.baseOf size 2 args.root (fromRoot size args.root vgroup.myrank) true := by
  have hdeg : KntreeIter.initDegree size 2 = 2 := by
    rw [KntreeIter.initDegree, if_neg (by decide), if_neg (by omega)]
  have hbase : (KntreeIter.init size 2 args.root vgroup.myrank true).toKntreeBase = _ :=
    KntreeIter.init_base args.root vgroup.myrank true (by rw [hdeg]; decide) (by omega)
  rw [hdeg] at hbase
  rw [bcastLongOpNew, hsize]
  exact hbase

/-- The first call executes the beginning of the schedule. -/
theorem exec_longOpProgress_first (hroot : root < size) (hv : v < size)
    (hcount : size ≤ args.count) (hsize : vgroup.size = size)
    (hop : LongScatter size vgroup args root v op) (hsend : op.flags.send = true)
    (hrecv : op.flags.recv = true)
    (hchildren : op.iter.Yields ((kntreeChildren size 2 v).map (toRank size root)))
    (hcurr : v = 0 → op.currBlocks = size) {moved : Bool} :
    (bcastLongOpProgress op).Exec (LongEnd size vgroup args root v) moved
      (longSched size vgroup args root (fun p => p) (longAll size v) : Sched (Cell B) β) := by
  have hleaf := @scatterLeaf_opProgress B β size vgroup args root v hv hsize
  have hstop {op : BcastLongOp B} (hop : LongStart size vgroup args root v op) :
      LongEnd size vgroup args root v true ({ op with status := .inprogress }, .inprogress)
        (longSched size vgroup args root (fun p => p)
          (.wait :: longLeft size v (kntreeChildren size 2 v) 0) : Sched (Cell B) β) :=
    longEnd_stop trivial (.start ⟨⟨⟨hop.vgroup_eq, hop.args_eq, hop.base_eq, hop.quotient_eq,
      hop.division_eq⟩, hop.near, hop.scatterv, hop.allgatherv, hop.step⟩, hop.send, hop.recv,
      hop.children, hop.curr⟩)
  rw [bcastLongOpProgress, if_pos hop.scatterv, exec_bind, longAll_eq hv]
  by_cases hv₀ : v = 0
  · have hstart : LongStart size vgroup args root v op := by
      refine ⟨hop, hsend, Or.inr hv₀, hchildren, ?_⟩
      rw [hcurr hv₀, scatterEnd, kntreeHeight, if_pos hv₀, hv₀, Nat.zero_add, Nat.sub_zero]
      exact (min_eq_right (Nat.le_pow_clog (by decide) size)).symm
    rw [if_pos hv₀]
    refine exec_scattervOpProgress hop.toLongOf (Or.inr hv₀)
      (exec_scattervTest hleaf hroot hv hcount hsize hstart ?_)
    rw [if_pos (by simp), exec_pure]
    exact hstop hstart
  · have hparent : op.iter.parent = some (toRank size root (kntreeParent 2 v)) :=
      (congrArg KntreeBase.parent hop.base_eq).trans (if_neg hv₀)
    rw [if_neg hv₀, bcastLongScattervOpProgress, exec_bind, bcastLongScattervRecv, hparent]
    dsimp only
    rw [hop.vgroup_eq, hsize]
    refine exec_longScatterRecv hop.toLongOf hroot hv (Nat.pos_of_ne_zero hv₀) hrecv ?_
    have hstart : LongStart size vgroup args root v
        { op.clearRecv with currBlocks := scatterEnd size v - v } :=
      ⟨⟨⟨hop.vgroup_eq, hop.args_eq, hop.base_eq, hop.quotient_eq, hop.division_eq⟩, hop.near,
        hop.scatterv, hop.allgatherv, hop.step⟩, hsend, Or.inl rfl, hchildren, rfl⟩
    rw [if_neg (by simp), exec_bind]
    refine exec_scattervTest hleaf hroot hv hcount hsize hstart ?_
    rw [if_pos (by simp), exec_pure]
    exact hstop hstart

/-- The trigger and progress functions execute the schedule. -/
theorem bcastLong_runs (hsize : vgroup.size = size) (hn : 2 ≤ size) (hroot : args.root < size)
    (hcount : size ≤ args.count) (hmyrank : vgroup.myrank < size) (id : ℕ) :
    OpRuns bcastLongFuncs BcastLongOp.status id (bcastLongOpNew vgroup args)
      (LongRel size vgroup args args.root (fromRoot size args.root vgroup.myrank))
      (longSched size vgroup args args.root (fun p => p)
        (longAll size (fromRoot size args.root vgroup.myrank)) : Sched (Cell B) β) where
  trigger := by
    have hv := fromRoot_lt (r := vgroup.myrank) hroot
    have hbase : (bcastLongOpNew vgroup args).iter.toKntreeBase = _ := longNew_base hsize hn
    have hscatter : LongScatter size vgroup args args.root (fromRoot size args.root vgroup.myrank)
        ((bcastLongOpNew vgroup args).reset id) :=
      ⟨⟨rfl, rfl, (KntreeIter.reset_base _).trans hbase, congrArg (args.count / ·) hsize,
        congrArg (args.count % ·) hsize⟩, rfl, rfl, rfl, rfl⟩
    have hcurr (hv₀ : fromRoot size args.root vgroup.myrank = 0) :
        ((bcastLongOpNew vgroup args).reset id).currBlocks = size := by
      rw [fromRoot_eq_zero_iff hroot hmyrank] at hv₀
      exact (if_pos hv₀).trans hsize
    simp only [bcastLongFuncs, bcastLongOpTrigger, exec_bind, exec_pure]
    refine (exec_longOpProgress_first hroot hv hcount hsize hscatter rfl rfl
      (KntreeIter.reset_yields (by decide) hbase) hcurr).imp fun moved res cs hres => hres.2
  progress op cs hrel := exec_longOpProgress hroot (fromRoot_lt hroot) hcount hsize hrel

end Operation

/-! ### Every run -/

section Runs

/-- The rounds of the long broadcast bring the buffer of the root to all ranks. -/
theorem spreads_longRounds {n : ℕ} (hn : 2 ≤ n) (off : ℕ → ℕ) (x : ℕ → β) :
    BcastSpreads n n off x (longRounds n longStart [.pause] (longClose n)) where
  round R := fitRound_longRounds hn (fun v _ => stops_longStart v) (by simp [Sched.Stops])
    fun v _ => stops_longClose v
  gathers v hv := gathers_longRounds hn (fun v _ => stops_longStart v) (by simp [Sched.Stops])
    (fun v _ => stops_longClose v) hv fun hv₀ _ _ => Or.inl hv₀
  ranges R hR v hv w hw src hsrc := ranges_longRounds (fun v _ => stops_longStart v)
    (by simp [Sched.Stops]) (fun v _ => stops_longClose v) hR hv hw hsrc

variable [DecidableEq B]

/-- The long broadcasts of all ranks of a group. -/
def bcastLongProc (n : ℕ) (args : ℕ → BcastArgs B) (id r : ℕ) :
    Proc (Cell B) β (BcastLongOp B) :=
  opProc bcastLongFuncs BcastLongOp.status (bcastLongOpNew ⟨n, r, fun q => q⟩ (args r)) id

/-- In every run the long broadcast does what a broadcast is to do. -/
theorem bcastLong_correct (n count root id : ℕ) (args : ℕ → BcastArgs B) (m : ℕ → Cell B → β)
    (x : ℕ → β) (hn : 2 ≤ n) (hcall : BcastCall n count root args m x)
    (hcheck : ∀ r < n, bcastLongCheck ⟨n, r, fun q => q⟩ (args r) = .ok) (acts : List Act)
    (N : Net (Cell B) β (BcastLongOp B))
    (hrun : (Net.init m).run n (bcastLongProc n args id) acts = some N) :
    BcastMeets n count root args m x (bcastLongProc n args id) BcastLongOp.status acts N := by
  have hcount (r) (hr : r < n) : n ≤ (args r).count := by
    by_contra hlt
    have := hcheck r hr
    rw [bcastLongCheck, if_pos (show (args r).count < n by omega)] at this
    cases this
  have hop (r) (hr : r < n) : OpRuns bcastLongFuncs BcastLongOp.status id
      (bcastLongOpNew ⟨n, r, fun q => q⟩ (args r))
      (LongRel n ⟨n, r, fun q => q⟩ (args r) (args r).root (fromRoot n (args r).root r))
      (Sched.expand ((args r).blockCells (blockOffset (count / n) (count % n))) (toRank n root)
        (longAll n (fromRoot n root r) : Sched ℕ β)) := by
    obtain ⟨hargs, rfl⟩ := hcall.same r hr
    rw [← hargs]
    exact bcastLong_runs rfl hn hcall.root_lt (hcount r hr) hr id
  exact (spreads_longRounds hn (blockOffset (count / n) (count % n)) x).meets
    (cut_blockOffset (by omega)) hcall hop hrun

end Runs

/-! A run of two ranks and two elements, from rank 0. -/

def bcastLongActs : List Act :=
  [.start 0, .exec 0, .exec 0, .exec 0, .start 1, .exec 1, .exec 1, .exec 1, .deliver 0 1, .sent 0,
    .resume 0, .exec 0, .exec 0, .exec 0, .exec 0, .exec 0, .sent 0, .resume 1, .exec 1, .exec 1,
    .exec 1, .exec 1, .exec 1, .deliver 0 1, .deliver 1 0, .sent 1, .resume 0, .exec 0, .exec 0,
    .resume 1, .exec 1, .exec 1]

theorem bcastLong_correct_pair : ∃ N op,
    (Net.init pairMem).run 2 (bcastLongProc 2 pairArgs 7) bcastLongActs = some N ∧
      N.FinishedIn 1 op ∧ BcastMeets 2 2 0 pairArgs pairMem (fun j => j + 5)
        (bcastLongProc 2 pairArgs 7) BcastLongOp.status bcastLongActs N := by
  have hsome : (((Net.init pairMem).run 2 (bcastLongProc 2 pairArgs 7) bcastLongActs).bind
      fun N => (N.node 1).ctl.result).isSome := by decide +kernel
  obtain ⟨op, hbind⟩ := Option.isSome_iff_exists.mp hsome
  obtain ⟨N, hrun, hop⟩ := Option.bind_eq_some_iff.mp hbind
  have hcheck (r) (hr : r < 2) : bcastLongCheck ⟨2, r, fun q => q⟩ (pairArgs r) = .ok := rfl
  exact ⟨N, op, hrun, Ctl.result_eq_some.mp hop, bcastLong_correct 2 2 0 7 pairArgs pairMem
    (fun j => j + 5) le_rfl pairCall hcheck bcastLongActs N hrun⟩

end Kucg.Ucx
