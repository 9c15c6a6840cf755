import Kucg.Algo.Ring
import Kucg.Algo.Rolling
import Kucg.Lib.Placement
import Kucg.Stars.CommPlan

/-! The offloaded rolling allgather of `allgatherv_rolling.c`.

    What a rank submits is a list of requests, each of them about a block. The ranks agree on counts
    and displacements in what follows first (`RollingArgs`); then their requests are the steps of
    the rolling allgather on the circle, placed on the buffers and the event slots of the group
    (`rolling_eq_place`). -/

namespace Kucg.Stars

open Kucg.Algo Kucg.Lib

/-- `ucg_coll_allgatherv_args_t`, with what it needs of the datatypes. -/
structure AllgathervArgs where
  inPlace : Bool
  sendcount : ℕ
  sendExtent : ℕ
  recvcounts : ℕ → ℕ
  displs : ℕ → ℤ
  recvSize : ℕ
  recvExtent : ℤ

namespace Rolling

/-- `allgatherv_rolling offload_plan`: left, right and own rank, one event each. -/
def offloadPlan (size myid : ℕ) : CommDep where
  getRanks := [⟨(myid + size - 1) % size, 1⟩, ⟨(myid + 1) % size, 1⟩, ⟨myid, 1⟩]
  putRanks := [⟨(myid + size - 1) % size, 1⟩, ⟨(myid + 1) % size, 1⟩, ⟨myid, 1⟩]

/-- The event of `put_ranks[idx]`. -/
def event (size myrank idx : ℕ) : Option ℕ :=
  putEvent (offloadPlan size) CommDep.offsetCommon myrank idx 0

/-- `ucg_planc_stars_allgatherv_rolling_ofd_put_req_elem`: the block, and the request unless the
    block is empty. -/
def ofdPutReqElem (args : AllgathervArgs) (size myrank : ℕ) (iter : RingIter) (target : ℕ) :
    List (ℕ × StreamTask Addr) :=
  let stepIdx := iter.idx
  let peer := if (myrank + stepIdx) % 2 ≠ 0 then iter.left else iter.right
  let blockIdx :=
    if peer = iter.right then (myrank + size - stepIdx / 2) % size
    else (myrank + stepIdx / 2 + size) % size
  let peerRank := if peer = iter.right then 1 else 0
  let sendOffset := args.displs blockIdx * args.recvExtent
  let llen := args.recvcounts blockIdx * args.recvSize
  if args.recvcounts blockIdx = 0 then [] else
    [(blockIdx, .put ((offloadPlan size myrank).putPeer peerRank) (event size myrank target)
      (bytes .recv sendOffset llen) (bytes .recv sendOffset llen))]

/-- `ucg_planc_stars_allgatherv_rolling_ofd_wait_req_elem` for `get_ranks[idx]`. -/
def ofdWaitReqElem (args : AllgathervArgs) (size myrank : ℕ) (iter : RingIter) (idx : ℕ) :
    List (ℕ × StreamTask Addr) :=
  let stepIdx := iter.idx
  let peer := (offloadPlan size myrank).getPeer idx
  let blockIdx :=
    if peer = iter.right then (peer + stepIdx / 2 + size) % size
    else (peer + size - stepIdx / 2) % size
  if args.recvcounts blockIdx = 0 then [] else
    [(blockIdx, .wait (waitEvent (offloadPlan size myrank) CommDep.offsetCommon idx 0))]

/-- `ucg_planc_stars_allgatherv_rolling_put_self_data`. -/
def putSelfData (args : AllgathervArgs) (size myrank : ℕ) : List (ℕ × StreamTask Addr) :=
  if args.inPlace ∨ args.recvcounts myrank = 0 then [] else
    let offset := args.displs myrank * args.recvExtent
    let llen := args.sendcount * args.sendExtent
    [(myrank, .put ((offloadPlan size myrank).putPeer 2) (event size myrank 2)
      (bytes .send 0 llen) (bytes .recv offset llen)),
      (myrank, .wait (waitEvent (offloadPlan size myrank) CommDep.offsetCommon 2 0))]

/-- One round of the loop of `allgatherv_rolling submit_op`. -/
def submitStep (args : AllgathervArgs) (size myrank : ℕ) (iter : RingIter) :
    List (ℕ × StreamTask Addr) :=
  let peerIdx := (myrank + iter.idx + 1) % 2
  if myrank > (offloadPlan size myrank).putPeer peerIdx then
    ofdPutReqElem args size myrank iter peerIdx ++ ofdWaitReqElem args size myrank iter peerIdx
  else
    ofdWaitReqElem args size myrank iter peerIdx ++ ofdPutReqElem args size myrank iter peerIdx

/-- `allgatherv_rolling submit_op`. -/
def submitOp (args : AllgathervArgs) (size myrank : ℕ) : List (ℕ × StreamTask Addr) :=
  let iter := RingIter.init size myrank
  putSelfData args size myrank ++
    (List.range iter.maxIdx).flatMap fun k => submitStep args size myrank { iter with idx := k }

/-- The streams of the ranks. -/
def streams (args : ℕ → AllgathervArgs) (size p : ℕ) : List (StreamTask Addr) :=
  (submitOp (args p) size p).map Prod.snd

/-- The bytes of a block in the receive buffer. -/
def block (args : AllgathervArgs) (b : ℕ) : List Addr :=
  bytes .recv (args.displs b * args.recvExtent) (args.recvcounts b * args.recvSize)

/-- The ranks pass the same counts, displacements and receive type, their blocks do not overlap, and
    what a rank sends out of place is as long as its block. -/
structure RollingArgs (n : ℕ) (args : ℕ → AllgathervArgs) : Prop where
  counts : ∀ p < n, ∀ b < n, (args p).recvcounts b = (args 0).recvcounts b
  displs : ∀ p < n, ∀ b < n, (args p).displs b = (args 0).displs b
  size : ∀ p < n, (args p).recvSize = (args 0).recvSize
  extent : ∀ p < n, (args p).recvExtent = (args 0).recvExtent
  disjoint : ∀ a < n, ∀ b < n, a ≠ b → ∀ c ∈ block (args 0) a, c ∉ block (args 0) b
  sends : ∀ p < n, (args p).inPlace = false →
    (args p).sendcount * (args p).sendExtent = (args 0).recvcounts p * (args 0).recvSize

/-! ### The requests as steps on the circle -/

section Events

variable {n p : ℕ}

theorem leftOf_ne (hn : 3 ≤ n) (hp : p < n) : leftOf n p ≠ p := by
  rw [leftOf, mod_eq_ite (by omega)]
  split_ifs <;> omega

theorem offloadPlan_eq : offloadPlan n p =
    ⟨[⟨leftOf n p, 1⟩, ⟨rightOf n p, 1⟩, ⟨p, 1⟩], [⟨leftOf n p, 1⟩, ⟨rightOf n p, 1⟩, ⟨p, 1⟩]⟩ :=
  rfl

/-- The left neighbour is notified by its right neighbour. -/
theorem event_left (hn : 3 ≤ n) (hp : p < n) : event n p 0 = some 1 := by
  have hl := leftOf_lt (v := p) (by omega : 0 < n)
  have hlr := rightOf_leftOf hp
  have hne : leftOf n (leftOf n p) ≠ p := by
    have := leftOf_ne_rightOf hn hl
    rwa [hlr] at this
  have hpeer : (offloadPlan n p).putPeer 0 = leftOf n p := rfl
  rw [event, putEvent, CommDep.matched, hpeer, offloadPlan_eq (p := leftOf n p), hlr]
  simp only [List.take_zero, List.countP_nil, CommDep.nthOf_three]
  rw [if_neg hne, if_pos trivial]
  rfl

/-- The right neighbour is notified by its left neighbour. -/
theorem event_right (hn : 3 ≤ n) (hp : p < n) : event n p 1 = some 0 := by
  have hrl := leftOf_rightOf hp
  have hpeer : (offloadPlan n p).putPeer 1 = rightOf n p := rfl
  have hcount : ((offloadPlan n p).putRanks.take 1).countP
      (fun info => info.peerId = rightOf n p) = 0 := by
    rw [offloadPlan_eq, List.take_succ_cons, List.take_zero, List.countP_singleton,
      if_neg (by simpa using leftOf_ne_rightOf hn hp)]
  rw [event, putEvent, CommDep.matched, hpeer, hcount, offloadPlan_eq (p := rightOf n p), hrl]
  simp only [CommDep.nthOf_three]
  rw [if_pos trivial]
  rfl

/-- A rank is notified by itself. -/
theorem event_self (hn : 3 ≤ n) (hp : p < n) : event n p 2 = some 2 := by
  have hl := leftOf_ne hn hp
  have hr := (rightOf_ne hn hp).symm
  have hpeer : (offloadPlan n p).putPeer 2 = p := rfl
  have hcount : ((offloadPlan n p).putRanks.take 2).countP (fun info => info.peerId = p) = 0 := by
    rw [offloadPlan_eq, List.countP_eq_zero]
    simp [hl, hr]
  rw [event, putEvent, CommDep.matched, hpeer, hcount, offloadPlan_eq]
  simp only [CommDep.nthOf_three]
  rw [if_neg hl, if_neg hr, if_pos trivial]
  rfl

end Events

/-- The blocks that are not empty. -/
def nonempty (args : ℕ → AllgathervArgs) (b : ℕ) : Bool := (args 0).recvcounts b ≠ 0

/-- Where the blocks of the circle are: block `n` is what a rank sends out of place. Event 0 is that
    of the own data, events 1 and 2 are those of the neighbours. -/
def placement (args : ℕ → AllgathervArgs) (n : ℕ) : Placement ℕ Addr where
  num p := p
  rank v := v
  slot _ e := if e = 0 then 2 else if e ≤ 2 then e - 1 else e
  cells v b :=
    if b = n then bytes .send 0 ((args v).sendcount * (args v).sendExtent) else block (args 0) b

/-- The own data of rank `v`, unless they are in place. -/
def selfPrelude (args : ℕ → AllgathervArgs) (n v : ℕ) : List (ℕ × StreamTask ℕ) :=
  if (args v).inPlace ∨ (args 0).recvcounts v = 0 then []
  else [(0, .put v (some 0) [n] [v]), (1, .wait 0)]

section Place

variable {n p k : ℕ} {args : ℕ → AllgathervArgs}

theorem block_eq (h : RollingArgs n args) (hp : p < n) {b : ℕ} (hb : b < n) :
    block (args p) b = block (args 0) b := by
  rw [block, block, h.displs p hp b hb, h.counts p hp b hb, h.size p hp, h.extent p hp]

theorem cells_of_lt {v b : ℕ} (hb : b < n) : (placement args n).cells v b = block (args 0) b :=
  if_neg hb.ne

theorem rollSend_lt {v : ℕ} (hn : 0 < n) : rollSend n v k < n := by
  rw [rollSend]
  split_ifs <;> exact Nat.mod_lt _ hn

theorem rollRecv_lt {v : ℕ} (hn : 0 < n) : rollRecv n v k < n := by
  rw [rollRecv]
  split_ifs <;> exact Nat.mod_lt _ hn

/-- The iterator in step `k`. -/
def iterAt (n p k : ℕ) : RingIter := { RingIter.init n p with idx := k }

theorem ofdPutReqElem_eq (hn : 3 ≤ n) (hp : p < n) (h : RollingArgs n args) :
    ofdPutReqElem (args p) n p (iterAt n p k) ((p + k + 1) % 2) =
      (rollPut n (nonempty args) p k).map fun x =>
        (rollSend n p k, (placement args n).task p x) := by
  have hb := rollSend_lt (v := p) (k := k) (by omega : 0 < n)
  have hcells (v : ℕ) : (placement args n).cells v (rollSend n p k) =
      bytes .recv ((args p).displs (rollSend n p k) * (args p).recvExtent)
        ((args p).recvcounts (rollSend n p k) * (args p).recvSize) := by
    rw [cells_of_lt hb, ← block_eq h hp hb, block]
  have hnz : nonempty args (rollSend n p k) = true ↔
      ¬(args p).recvcounts (rollSend n p k) = 0 := by
    rw [nonempty, h.counts p hp _ hb, decide_eq_true_eq]
  have hne := leftOf_ne_rightOf hn hp
  have hput : (rollPut n (nonempty args) p k).map (fun x =>
      (rollSend n p k, (placement args n).task p x)) =
      if (args p).recvcounts (rollSend n p k) = 0 then [] else
        [(rollSend n p k, .put (rollPeer n p k) (some (if (p + k) % 2 = 1 then 1 else 0))
          (bytes .recv ((args p).displs (rollSend n p k) * (args p).recvExtent)
            ((args p).recvcounts (rollSend n p k) * (args p).recvSize))
          (bytes .recv ((args p).displs (rollSend n p k) * (args p).recvExtent)
            ((args p).recvcounts (rollSend n p k) * (args p).recvSize)))] := by
    rw [rollPut]
    by_cases hz : (args p).recvcounts (rollSend n p k) = 0
    · rw [if_neg (by rw [hnz]; exact fun hh => hh hz), if_pos hz, List.map_nil]
    · rw [if_pos (hnz.mpr hz), if_neg hz, List.map_singleton, Placement.task,
        List.flatMap_singleton, List.flatMap_singleton, hcells, hcells]
      split_ifs <;> rfl
  rw [hput, ofdPutReqElem]
  by_cases hpar : (p + k) % 2 = 1
  · have hidx : (p + k + 1) % 2 = 0 := by omega
    have hsend : rollSend n p k = (p + k / 2 + n) % n := by
      rw [rollSend, if_pos hpar, Nat.add_mod_right]
    have hpeer : rollPeer n p k = leftOf n p := by rw [rollPeer, if_pos hpar]
    simp only [iterAt, RingIter.init, hidx, event_left hn hp, hpeer, hsend, hpar, ne_eq,
      one_ne_zero,
      not_false_eq_true, if_true, if_neg hne]
    rfl
  · have hidx : (p + k + 1) % 2 = 1 := by omega
    have hpar' : (p + k) % 2 = 0 := by omega
    have hsend : rollSend n p k = (p + n - k / 2) % n := by rw [rollSend, if_neg hpar]
    have hpeer : rollPeer n p k = rightOf n p := by rw [rollPeer, if_neg hpar]
    simp only [iterAt, RingIter.init, hidx, event_right hn hp, hpeer, hsend, hpar', ne_eq,
      not_true_eq_false, if_false, if_true, zero_ne_one]
    rfl

theorem ofdWaitReqElem_eq (hn : 3 ≤ n) (hp : p < n) (h : RollingArgs n args) :
    ofdWaitReqElem (args p) n p (iterAt n p k) ((p + k + 1) % 2) =
      (rollWait n (nonempty args) p k).map fun x =>
        (rollRecv n p k, (placement args n).task p x) := by
  have hb := rollRecv_lt (v := p) (k := k) (by omega : 0 < n)
  have hnz : nonempty args (rollRecv n p k) = true ↔
      ¬(args p).recvcounts (rollRecv n p k) = 0 := by
    rw [nonempty, h.counts p hp _ hb, decide_eq_true_eq]
  have hne := leftOf_ne_rightOf hn hp
  have hwait : (rollWait n (nonempty args) p k).map (fun x =>
      (rollRecv n p k, (placement args n).task p x)) =
      if (args p).recvcounts (rollRecv n p k) = 0 then [] else
        [(rollRecv n p k, .wait (if (p + k) % 2 = 1 then 0 else 1))] := by
    rw [rollWait]
    by_cases hz : (args p).recvcounts (rollRecv n p k) = 0
    · rw [if_neg (by rw [hnz]; exact fun hh => hh hz), if_pos hz, List.map_nil]
    · rw [if_pos (hnz.mpr hz), if_neg hz, List.map_singleton]
      split_ifs <;> rfl
  rw [hwait, ofdWaitReqElem]
  by_cases hpar : (p + k) % 2 = 1
  · have hidx : (p + k + 1) % 2 = 0 := by omega
    have hrecv : rollRecv n p k = (leftOf n p + n - k / 2) % n := by rw [rollRecv, if_pos hpar]
    have hpeer : (offloadPlan n p).getPeer 0 = leftOf n p := rfl
    simp only [iterAt, RingIter.init, hidx, hpeer, hrecv, if_pos hpar, if_neg hne]
    rfl
  · have hidx : (p + k + 1) % 2 = 1 := by omega
    have hrecv : rollRecv n p k = (rightOf n p + k / 2 + n) % n := by
      rw [rollRecv, if_neg hpar, Nat.add_mod_right]
    have hpeer : (offloadPlan n p).getPeer 1 = rightOf n p := rfl
    simp only [iterAt, RingIter.init, hidx, hpeer, hrecv, if_neg hpar, if_true]
    rfl

/-- A round of the loop is a step on the circle. -/
theorem submitStep_eq (hn : 3 ≤ n) (hp : p < n) (h : RollingArgs n args) :
    submitStep (args p) n p (iterAt n p k) =
      (rollLabeled n (nonempty args) (rollSend n) (rollRecv n) p k).map
        (Prod.map id ((placement args n).task p)) := by
  have hpeer : (offloadPlan n p).putPeer ((p + k + 1) % 2) = rollPeer n p k := by
    rw [rollPeer]
    split_ifs with hpar
    · rw [show (p + k + 1) % 2 = 0 by omega]
      rfl
    · rw [show (p + k + 1) % 2 = 1 by omega]
      rfl
  have hidx : (iterAt n p k).idx = k := rfl
  simp only [submitStep, hidx, hpeer, ofdPutReqElem_eq hn hp h, ofdWaitReqElem_eq hn hp h,
    rollLabeled, gt_iff_lt]
  split_ifs <;> simp [List.map_append, Function.comp_def]

theorem putSelfData_eq (hn : 3 ≤ n) (hp : p < n) (h : RollingArgs n args) :
    putSelfData (args p) n p =
      (selfPrelude args n p).map fun x => (p, (placement args n).task p x.2) := by
  have hcells : (placement args n).cells p n =
      bytes .send 0 ((args p).sendcount * (args p).sendExtent) := if_pos rfl
  have hpeer : (offloadPlan n p).putPeer 2 = p := rfl
  rw [putSelfData, selfPrelude, h.counts p hp p hp, event_self hn hp]
  split_ifs with hc
  · rfl
  · rw [not_or, Bool.not_eq_true] at hc
    have hblock : bytes .recv ((args p).displs p * (args p).recvExtent)
        ((args p).sendcount * (args p).sendExtent) = block (args 0) p := by
      rw [← block_eq h hp hp, block, h.sends p hp hc.1, h.counts p hp p hp, h.size p hp]
    simp only [List.map_cons, List.map_nil, Placement.task, List.flatMap_singleton, hcells,
      cells_of_lt hp, hblock, hpeer]
    rfl

/-- The blocks and the tasks on the circle. -/
def submitted (args : ℕ → AllgathervArgs) (n p : ℕ) : List (ℕ × StreamTask ℕ) :=
  (selfPrelude args n p).map (fun x => (p, x.2)) ++
    rollingBy n (nonempty args) (rollSend n) (rollRecv n) p

/-- What a rank submits, in terms of the circle. -/
theorem submitOp_eq (hn : 3 ≤ n) (hp : p < n) (h : RollingArgs n args) :
    submitOp (args p) n p =
      (submitted args n p).map (Prod.map id ((placement args n).task p)) := by
  rw [submitOp, submitted, List.map_append, putSelfData_eq hn hp h, List.map_map, rollingBy,
    if_pos hp, List.map_flatMap]
  congr 1
  exact List.flatMap_congr fun k _ => submitStep_eq hn hp h

/-- The streams are the steps, placed. -/
theorem streams_eq_place (hn : 3 ≤ n) (hp : p < n) (h : RollingArgs n args) :
    streams args n p =
      (placement args n).place (tasks (rollAfter (selfPrelude args n) n (nonempty args) 2)) p := by
  have hsnd : (submitted args n p).map Prod.snd =
      tasks (rollAfter (selfPrelude args n) n (nonempty args) 2) p := by
    rw [submitted, tasks, rollAfter, List.map_append, List.map_append, map_snd_rolling hp,
      rollTasks,
      List.map_map, rollingBy, if_pos hp, List.map_flatMap]
    congr 1
    exact List.flatMap_congr fun k _ => map_snd_rollLabeled
  have hnum : (placement args n).num p = p := rfl
  rw [streams, submitOp_eq hn hp h, List.map_map, Placement.place, hnum, ← hsnd, List.map_map]
  rfl

variable (args n) in
theorem selfPrelude_cases (v : ℕ) : selfPrelude args n v = [] ∨
    selfPrelude args n v = [(0, .put v (some 0) [n] [v]), (1, .wait 0)] := by
  rw [selfPrelude]
  split_ifs
  · exact Or.inl rfl
  · exact Or.inr rfl

variable (n args) in
theorem putsOf_selfPrelude {v q e : ℕ} : putsOf (selfPrelude args n) v q e =
    if selfPrelude args n v ≠ [] ∧ v = q ∧ e = 0 then [0] else [] := by
  rcases selfPrelude_cases n args v with h | h
  · simp [putsOf, h]
  · by_cases hc : v = q ∧ e = 0
    · obtain ⟨rfl, rfl⟩ := hc
      simp [putsOf, h]
    · rw [if_neg fun hh => hc hh.2, putsOf, h, List.map_eq_nil_iff, List.filter_eq_nil_iff]
      simp only [List.mem_cons, List.not_mem_nil, or_false, forall_eq_or_imp, forall_eq,
        StreamTask.raises_put, StreamTask.raises_wait, Bool.false_eq_true, not_false_eq_true,
        and_true, Option.some.injEq]
      exact fun hh => hc ⟨hh.1, hh.2.symm⟩

variable (n args) in
theorem waitsOf_selfPrelude {q e : ℕ} : waitsOf (selfPrelude args n) q e =
    if selfPrelude args n q ≠ [] ∧ e = 0 then [1] else [] := by
  rcases selfPrelude_cases n args q with h | h
  · simp [waitsOf, h]
  · by_cases he : e = 0
    · subst he
      simp [waitsOf, h]
    · rw [if_neg fun hh => he hh.2, waitsOf, h, List.map_eq_nil_iff, List.filter_eq_nil_iff]
      simp only [List.mem_cons, List.not_mem_nil, or_false, forall_eq_or_imp, forall_eq,
        StreamTask.awaits_put, StreamTask.awaits_wait, Bool.false_eq_true, not_false_eq_true,
        true_and]
      exact fun hh => he hh.symm

theorem prelude_self : Prelude n 2 (selfPrelude args n) fun v => v where
  paired := {
    sorted v _ := by
      rcases selfPrelude_cases n args v with h | h <;> simp [h]
    peer_lt v hv t q ev src dst hmem := by
      rcases selfPrelude_cases n args v with h | h <;> rw [h] at hmem <;>
        simp at hmem
      omega
    sender_lt q hq _ := hq
    puts_nil q _ e v _ hne := by
      rw [putsOf_selfPrelude, if_neg fun hh => hne hh.2.1]
    pairs q _ e := by
      rw [putsOf_selfPrelude, waitsOf_selfPrelude]
      by_cases hc : selfPrelude args n q ≠ [] ∧ e = 0
      · rw [if_pos ⟨hc.1, rfl, hc.2⟩, if_pos hc]
        exact .cons Nat.zero_lt_one .nil
      · rw [if_neg fun hh => hc ⟨hh.1, hh.2.2⟩, if_neg hc]
        exact .nil }
  stamp_lt v _ x hx := by
    rcases selfPrelude_cases n args v with h | h <;> rw [h] at hx <;> simp at hx
    rcases hx with rfl | rfl <;> simp
  puts_nil v _ q e he := by rw [putsOf_selfPrelude, if_neg fun hh => he hh.2.2]
  waits_nil v _ e he := by rw [waitsOf_selfPrelude, if_neg fun hh => he hh.2]
  once v _ := by
    rw [waitsOf_selfPrelude]
    split_ifs <;> simp

variable (n args) in
theorem slot_inj {v e e' : ℕ} (he : e < 3) (he' : e' < 3)
    (h : (placement args n).slot v e = (placement args n).slot v e') : e = e' := by
  simp only [placement] at h
  split_ifs at h <;> omega

variable (args) in
theorem fits_placement (hn : 3 ≤ n) : (placement args n).Fits n 3
    (tasks (rollAfter (selfPrelude args n) n (nonempty args) 2)) :=
  .of_paired ⟨fun _ h => h, fun _ h => h, fun _ _ _ _ => Iff.rfl⟩
    (prelude_self.paired_rollAfter hn le_rfl) (fun _ hv _ _ he => prelude_self.putsOf_nil hv he)
    fun _ hv _ he => prelude_self.waitsOf_nil hv he

/-- What a rank has at first: what it sends out of place, or else its own block. -/
def ownBlocks (args : ℕ → AllgathervArgs) (n v : ℕ) : Set ℕ :=
  {b | b = n ∨ (args v).inPlace = true ∧ b = v}

theorem start_selfPrelude {v : ℕ} (hnz : nonempty args v = true) :
    v ∈ ownBlocks args n v ∨ Delivered (selfPrelude args n) (fun q _ => q) v 2 v := by
  by_cases hin : (args v).inPlace = true
  · exact Or.inl (Or.inr ⟨hin, rfl⟩)
  · have hself : selfPrelude args n v = [(0, .put v (some 0) [n] [v]), (1, .wait 0)] := by
      rw [nonempty, decide_eq_true_eq] at hnz
      rw [selfPrelude, if_neg fun hh => hh.elim hin hnz]
    refine Or.inr ⟨0, 0, 0, 1, 0, some 0, [n], [v], ?_, ?_, one_lt_two, ?_, le_rfl,
      List.mem_singleton_self _⟩
    · rw [putsOf_selfPrelude, if_pos ⟨by simp [hself], rfl, rfl⟩]
      rfl
    · rw [waitsOf_selfPrelude, if_pos ⟨by simp [hself], rfl⟩]
      rfl
    · rw [hself]
      exact List.mem_cons_self

end Place

/-! ### Delivery -/

section Delivery

variable {β : Type} {n p : ℕ} {args : ℕ → AllgathervArgs} {m₀ : ℕ → Addr → β}

/-- The address of byte `i` of block `b`. -/
def blockAddr (args : AllgathervArgs) (b i : ℕ) : Addr :=
  (.recv, args.displs b * args.recvExtent + i)

/-- Byte `i` of what rank `b` contributes. -/
def contribution (args : ℕ → AllgathervArgs) (m₀ : ℕ → Addr → β) (b i : ℕ) : β :=
  m₀ b (if (args b).inPlace then blockAddr (args b) b i else (.send, i))

/-- The memory that the rolling allgather is to end with. -/
def result (args : ℕ → AllgathervArgs) (n : ℕ) (m₀ : ℕ → Addr → β) (q : ℕ) (c : Addr) : β :=
  match (List.range n).find? fun b => c ∈ block (args 0) b with
  | some b => contribution args m₀ b (c.2 - (args 0).displs b * (args 0).recvExtent).toNat
  | none => m₀ q c

/-- What a rank holds at first. -/
def ownData (args : ℕ → AllgathervArgs) (p : ℕ) : Set Addr :=
  {c | c.1 = .send ∨ (args p).inPlace = true ∧ c ∈ block (args p) p}

/-- The blocks of the puts of rank `p` that raise event `e` of rank `q`. -/
def putBlocks (args : ℕ → AllgathervArgs) (n p q e : ℕ) : List ℕ :=
  ((submitOp (args p) n p).filter fun x => x.2.raises q e).map Prod.fst

/-- The blocks of the waits of rank `q` on it. -/
def waitBlocks (args : ℕ → AllgathervArgs) (n q e : ℕ) : List ℕ :=
  ((submitOp (args q) n q).filter fun x => x.2.awaits e).map Prod.fst

theorem find?_eq_some {P : ℕ → Bool} {b : ℕ} (hb : b < n) (hP : P b = true)
    (huniq : ∀ b' < n, P b' = true → b' = b) : (List.range n).find? P = some b := by
  cases h : (List.range n).find? P with
  | none => exact absurd hP (List.find?_eq_none.mp h b (List.mem_range.mpr hb))
  | some b' =>
    rw [huniq b' (List.mem_range.mp (List.mem_of_find?_eq_some h)) (List.find?_some h)]

theorem blockAddr_mem {i b : ℕ} (hi : i < (args 0).recvcounts b * (args 0).recvSize) :
    blockAddr (args 0) b i ∈ block (args 0) b := by
  rw [block, mem_bytes, blockAddr]
  exact ⟨rfl, by dsimp only; omega, by dsimp only; omega⟩

variable (m₀) in
theorem result_blockAddr (h : RollingArgs n args) {q b i : ℕ} (hb : b < n)
    (hi : i < (args 0).recvcounts b * (args 0).recvSize) :
    result args n m₀ q (blockAddr (args 0) b i) = contribution args m₀ b i := by
  have hmem : blockAddr (args 0) b i ∈ block (args 0) b := blockAddr_mem hi
  have hfind : ((List.range n).find? fun b' => blockAddr (args 0) b i ∈ block (args 0) b') =
      some b := by
    refine find?_eq_some hb (decide_eq_true hmem) fun b' hb' hP => ?_
    by_contra hne
    exact h.disjoint b hb b' hb' (fun heq => hne heq.symm) _ hmem (of_decide_eq_true hP)
  have hi' : ((blockAddr (args 0) b i).2 - (args 0).displs b * (args 0).recvExtent).toNat = i := by
    rw [blockAddr, add_sub_cancel_left, Int.toNat_natCast]
  rw [result, hfind]
  dsimp only
  rw [hi']

variable (m₀) in
theorem result_of_not_block {q : ℕ} {c : Addr} (hc : ∀ b < n, c ∉ block (args 0) b) :
    result args n m₀ q c = m₀ q c := by
  have hnone : ((List.range n).find? fun b => c ∈ block (args 0) b) = none := by
    rw [List.find?_eq_none]
    intro b hb
    rw [decide_eq_true_eq]
    exact hc b (List.mem_range.mp hb)
  rw [result, hnone]

theorem map_block {b : ℕ} {f : Addr → β} : (block (args 0) b).map f =
    (List.range ((args 0).recvcounts b * (args 0).recvSize)).map
      fun i => f (blockAddr (args 0) b i) := by
  rw [block, map_bytes]
  rfl

/-- The contents of a block do not depend on where it is. -/
theorem map_result_block (h : RollingArgs n args) {q q' b : ℕ} (hb : b < n) :
    (block (args 0) b).map (result args n m₀ q) = (block (args 0) b).map (result args n m₀ q') := by
  rw [map_block, map_block]
  refine List.map_congr_left fun i hi => ?_
  rw [result_blockAddr m₀ h hb (List.mem_range.mp hi),
    result_blockAddr m₀ h hb (List.mem_range.mp hi)]

/-- What a rank has at first is what it is to end with. -/
theorem ownData_eq (h : RollingArgs n args) (hp : p < n) {c : Addr} (hc : c ∈ ownData args p) :
    m₀ p c = result args n m₀ p c := by
  rcases hc with hc | ⟨hin, hc⟩
  · refine (result_of_not_block m₀ fun b _ hmem => ?_).symm
    have := (mem_bytes.mp hmem).1
    rw [hc] at this
    cases this
  · rw [block_eq h hp hp, block, bytes, List.mem_map] at hc
    obtain ⟨i, hi, rfl⟩ := hc
    have hres := result_blockAddr m₀ h (q := p) hp (List.mem_range.mp hi)
    have haddr : blockAddr (args p) p i = blockAddr (args 0) p i := by
      rw [blockAddr, blockAddr, h.displs p hp p hp, h.extent p hp]
    rw [contribution, if_pos hin, haddr] at hres
    exact hres.symm

/-- Every request puts what its target is to end with. -/
theorem goal_streams (hn : 3 ≤ n) (h : RollingArgs n args) (hp : p < n) {q : ℕ} {ev : Option ℕ}
    {src dst : List Addr} (hmem : .put q ev src dst ∈ streams args n p) :
    src.map (result args n m₀ p) = dst.map (result args n m₀ q) := by
  rw [streams_eq_place hn hp h] at hmem
  obtain ⟨x, hx, heq⟩ := List.mem_map.mp hmem
  obtain ⟨⟨t, y⟩, hy, rfl⟩ := List.mem_map.mp hx
  cases y with
  | wait e => cases heq
  | put w ev₀ srcs dsts =>
    rw [Placement.task, StreamTask.put.injEq] at heq
    obtain ⟨rfl, -, rfl, rfl⟩ := heq
    rcases List.mem_append.mp hy with hy | hy
    · -- the own data
      by_cases hc : (args p).inPlace = true ∨ (args 0).recvcounts p = 0
      · have hnil : selfPrelude args n p = [] := if_pos hc
        have : (t, StreamTask.put w ev₀ srcs dsts) ∈ selfPrelude args n p := hy
        rw [hnil] at this
        exact absurd this List.not_mem_nil
      · have hself : selfPrelude args n p = [(0, .put p (some 0) [n] [p]), (1, .wait 0)] :=
          if_neg hc
        have hmem' : (t, StreamTask.put w ev₀ srcs dsts) ∈ selfPrelude args n p := hy
        rw [hself] at hmem'
        simp only [List.mem_cons, Prod.mk.injEq, StreamTask.put.injEq, reduceCtorEq, and_false,
          List.not_mem_nil, or_false] at hmem'
        obtain ⟨-, rfl, -, rfl, rfl⟩ := hmem'
        rw [not_or, Bool.not_eq_true] at hc
        have hcells : (placement args n).cells w n =
            bytes .send 0 ((args w).sendcount * (args w).sendExtent) := if_pos rfl
        have hnum : (placement args n).num w = w := rfl
        rw [List.flatMap_singleton, List.flatMap_singleton, hnum, cells_of_lt hp, hcells,
          h.sends w hp hc.1, map_block, map_bytes]
        refine List.map_congr_left fun i hi => ?_
        have hsend : result args n m₀ w (.send, 0 + (i : ℤ)) = m₀ w (.send, 0 + (i : ℤ)) := by
          refine (ownData_eq h hp (Or.inl ?_)).symm
          rfl
        have hrank : (placement args n).rank w = w := rfl
        rw [hsend, hrank, result_blockAddr m₀ h hp (List.mem_range.mp hi), contribution,
          if_neg (by rw [hc.1]; exact Bool.false_ne_true), zero_add]
    · -- a step
      obtain ⟨hv, k, hk, -, -, rfl, rfl, -⟩ := put_of_mem_rolling hy
      have hb := rollSend_lt (v := (placement args n).num p) (k := k) (by omega : 0 < n)
      rw [List.flatMap_singleton, List.flatMap_singleton, cells_of_lt hb, cells_of_lt hb]
      exact map_result_block h hb

theorem ownCells_subset (h : RollingArgs n args) (hp : p < n) :
    (placement args n).ownCells (ownBlocks args n) p ⊆ ownData args p := by
  rintro c ⟨b, rfl | ⟨hin, rfl⟩, hc⟩
  · have hcells : (placement args b).cells ((placement args b).num p) b =
        bytes .send 0 ((args p).sendcount * (args p).sendExtent) := if_pos rfl
    rw [hcells, mem_bytes] at hc
    exact Or.inl hc.1
  · rw [cells_of_lt hp] at hc
    exact Or.inr ⟨hin, block_eq h hp hp ▸ hc⟩

theorem sendsHeld_streams (hn : 3 ≤ n) (h : RollingArgs n args) :
    SendsHeld n (streams args n) m₀ (ownData args) := by
  have hfits := fits_placement args hn
  have hsep := Placement.separated_of_inj
    (fun v _ e he e' he' => slot_inj n args (v := v) he he') hfits
  have hpre : ∀ v < n, ∀ t q ev srcs dst, (t, .put q ev srcs dst) ∈ selfPrelude args n v →
      ∀ b ∈ srcs, b ∈ ownBlocks args n v ∨ Delivered (selfPrelude args n) (fun q _ => q) v t b := by
    intro v _ t q ev srcs dst hmem b hb
    rcases selfPrelude_cases n args v with hnil | hself
    · rw [hnil] at hmem
      exact absurd hmem List.not_mem_nil
    · rw [hself] at hmem
      simp only [List.mem_cons, Prod.mk.injEq, StreamTask.put.injEq, reduceCtorEq, and_false,
        List.not_mem_nil, or_false] at hmem
      obtain ⟨-, -, -, rfl, -⟩ := hmem
      exact Or.inl (Or.inl (List.mem_singleton.mp hb))
  have hheld : SendsHeld n _ m₀ _ := Placement.sendsHeld hfits hsep
    (prelude_self.sendsHeld hn le_rfl hpre fun v _ hnz => start_selfPrelude hnz)
  exact (hheld.mono fun p hp => ownCells_subset h hp).congr fun p hp =>
    (streams_eq_place hn hp h).symm

/-- The event that is in a slot. -/
def eventAt (s : ℕ) : ℕ := if s = 2 then 0 else if s < 2 then s + 1 else s

theorem slot_eq_iff {v e s : ℕ} : (placement args n).slot v e = s ↔ e = eventAt s := by
  simp only [placement, eventAt]
  split_ifs <;> omega

theorem raises_task {v q s : ℕ} {x : StreamTask ℕ} :
    ((placement args n).task v x).raises q s = x.raises q (eventAt s) := by
  cases x with
  | wait e => rfl
  | put w ev src dst =>
    rw [Bool.eq_iff_iff, Placement.task, StreamTask.raises_put, StreamTask.raises_put,
      Option.map_eq_some_iff]
    refine and_congr_right fun _ => ⟨?_, ?_⟩
    · rintro ⟨e, rfl, he⟩
      rw [slot_eq_iff.mp he]
    · rintro rfl
      exact ⟨_, rfl, slot_eq_iff.mpr rfl⟩

theorem awaits_task {v s : ℕ} {x : StreamTask ℕ} :
    ((placement args n).task v x).awaits s = x.awaits (eventAt s) := by
  cases x with
  | put w ev src dst => rfl
  | wait e =>
    rw [Bool.eq_iff_iff, Placement.task, StreamTask.awaits_wait, StreamTask.awaits_wait,
      slot_eq_iff]

theorem putBlocks_eq (hn : 3 ≤ n) (hp : p < n) (h : RollingArgs n args) {q s : ℕ} :
    putBlocks args n p q s =
      ((submitted args n p).filter fun x => x.2.raises q (eventAt s)).map Prod.fst := by
  rw [putBlocks, submitOp_eq hn hp h, List.filter_map, List.map_map]
  simp only [Function.comp_def, Prod.map_snd, Prod.map_fst, raises_task, id]

theorem waitBlocks_eq (hn : 3 ≤ n) {q s : ℕ} (hq : q < n) (h : RollingArgs n args) :
    waitBlocks args n q s =
      ((submitted args n q).filter fun x => x.2.awaits (eventAt s)).map Prod.fst := by
  rw [waitBlocks, submitOp_eq hn hq h, List.filter_map, List.map_map]
  simp only [Function.comp_def, Prod.map_snd, Prod.map_fst, awaits_task, id]

/-- The blocks of the own data and of the steps. -/
theorem filter_submitted {P : StreamTask ℕ → Bool} :
    ((submitted args n p).filter fun x => P x.2).map Prod.fst =
      ((selfPrelude args n p).filter fun x => P x.2).map (fun _ => p) ++
        ((rollingBy n (nonempty args) (rollSend n) (rollRecv n) p).filter fun x => P x.2).map
          Prod.fst := by
  rw [submitted, List.filter_append, List.map_append, List.filter_map, List.map_map]
  rfl

theorem rollSend_stepRight {m : ℕ} : rollSend n p (stepRight p m) = (p + n - m) % n := by
  rw [rollSend, stepRight, if_neg (by omega), show (2 * m + p % 2) / 2 = m by omega]

theorem rollSend_stepLeft {m : ℕ} : rollSend n p (stepLeft p m) = (p + m) % n := by
  rw [rollSend, stepLeft, if_pos (by omega), show (2 * m + (p + 1) % 2) / 2 = m by omega]

theorem rollRecv_stepRight {m : ℕ} : rollRecv n p (stepRight p m) = (rightOf n p + m) % n := by
  rw [rollRecv, stepRight, if_neg (by omega), show (2 * m + p % 2) / 2 = m by omega]

theorem rollRecv_stepLeft {m : ℕ} : rollRecv n p (stepLeft p m) = (leftOf n p + n - m) % n := by
  rw [rollRecv, stepLeft, if_pos (by omega), show (2 * m + (p + 1) % 2) / 2 = m by omega]

theorem puts_submitted_nil {q e : ℕ}
    (hne : p ≠ rollSender n (fun v => v) q e) :
    ((submitted args n p).filter fun x => x.2.raises q e).map Prod.fst = [] := by
  rw [filter_submitted, List.append_eq_nil_iff]
  constructor
  · have hself : putsOf (selfPrelude args n) p q e = [] := by
      rw [putsOf_selfPrelude, if_neg]
      rintro ⟨-, rfl, rfl⟩
      exact hne (by rw [rollSender, if_neg (by simp), if_neg (by simp)])
    rw [List.map_eq_nil_iff]
    exact List.map_eq_nil_iff.mp hself
  · refine puts_rollingBy_nil (fun hc => hne ?_) fun hc => hne ?_
    · rw [rollSender, if_pos ⟨hc.1, hc.2.1⟩]
      exact hc.2.2
    · rw [rollSender, if_neg (by omega), if_pos ⟨hc.1, hc.2.1⟩]
      exact hc.2.2

/-- The blocks put are those waited for. -/
theorem puts_submitted_eq {q e : ℕ} (hn : 3 ≤ n) (hq : q < n) :
    ((submitted args n (rollSender n (fun v => v) q e)).filter fun x =>
      x.2.raises q e).map Prod.fst =
      ((submitted args n q).filter fun x => x.2.awaits e).map Prod.fst := by
  rw [filter_submitted, filter_submitted]
  by_cases he : e = 1 ∨ e = 2
  · -- the steps
    have hputs (p : ℕ) : (selfPrelude args n p).filter (fun x => x.2.raises q e) = [] := by
      have := putsOf_selfPrelude n args (v := p) (q := q) (e := e)
      rw [if_neg (by omega)] at this
      exact List.map_eq_nil_iff.mp this
    have hwaits : (selfPrelude args n q).filter (fun x => x.2.awaits e) = [] := by
      have := waitsOf_selfPrelude n args (q := q) (e := e)
      rw [if_neg (by omega)] at this
      exact List.map_eq_nil_iff.mp this
    rw [hputs, hwaits, List.map_nil, List.map_nil, List.nil_append, List.nil_append]
    rcases he with rfl | rfl
    · have hl := leftOf_lt (v := q) (by omega : 0 < n)
      have hlr := rightOf_leftOf hq
      have hput := puts_rollingBy_right (nonempty args) (rollSend n) (rollRecv n) hn hl
      have hwait := waits_rollingBy_right (nonempty args) (rollSend n) (rollRecv n) hn hl
      rw [hlr] at hput hwait
      rw [rollSender, if_pos ⟨hq, rfl⟩, hput, hwait]
      simp only [rollSend_stepRight, rollRecv_stepLeft]
    · rw [rollSender, if_neg (by simp), if_pos ⟨hq, rfl⟩, puts_rollingBy_left hn hq,
        waits_rollingBy_left hn hq]
      simp only [rollSend_stepLeft, rollRecv_stepRight]
  · -- the own data
    have hsend : rollSender n (fun v => v) q e = q := by
      rw [rollSender, if_neg (by omega), if_neg (by omega)]
    have hlen := (prelude_self.paired.pairs q hq e (n := n)
      (σ := selfPrelude args n)).length_eq
    rw [hsend, puts_rollingBy_nil (by omega) (by omega), waits_rollingBy_nil (by omega) (by omega),
      List.append_nil, List.append_nil, List.map_const', List.map_const']
    rw [putsOf, waitsOf, List.length_map, List.length_map] at hlen
    rw [hlen]

theorem event_of_mem_streams (hn : 3 ≤ n) (hp : p < n) (h : RollingArgs n args) {q : ℕ}
    {ev : Option ℕ} {src dst : List Addr} (hmem : .put q ev src dst ∈ streams args n p) :
    q < n ∧ ∃ e, ev = some e := by
  rw [streams_eq_place hn hp h] at hmem
  obtain ⟨x, hx, heq⟩ := List.mem_map.mp hmem
  cases x with
  | wait e => cases heq
  | put w ev₀ srcs dsts =>
    rw [Placement.task, StreamTask.put.injEq] at heq
    obtain ⟨rfl, rfl, -⟩ := heq
    refine ⟨(fits_placement args hn).peer_lt p hp w ev₀ srcs dsts hx, ?_⟩
    obtain ⟨⟨t, y⟩, hy, rfl⟩ := List.mem_map.mp hx
    have hev : ∃ e, ev₀ = some e := by
      rcases List.mem_append.mp hy with hy | hy
      · have hmem' : (t, StreamTask.put w ev₀ srcs dsts) ∈ selfPrelude args n p := hy
        rcases selfPrelude_cases n args p with hs | hs <;> rw [hs] at hmem' <;>
          simp at hmem'
        exact ⟨0, hmem'.2.2.1⟩
      · obtain ⟨-, _, -, -, -, -, -, -, hev⟩ := put_of_mem_rolling hy
        exact ⟨_, hev⟩
    obtain ⟨e, rfl⟩ := hev
    exact ⟨_, rfl⟩

/-- What the rolling allgather guarantees in every interleaving of the ranks. -/
structure Delivers (args : ℕ → AllgathervArgs) (n : ℕ) (m₀ : ℕ → Addr → β) : Prop where
  /-- Before the end, some rank can go on. -/
  live : ∀ F : Fabric Addr β, F.Reachable n (streams args n) m₀ → ¬F.Finished n (streams args n) →
    ∃ p < n, (F.step n (streams args n) p).isSome
  /-- Only what a rank holds is put. -/
  held : SendsHeld n (streams args n) m₀ (ownData args)
  /-- Every put raises an event of a rank. -/
  raises : ∀ p < n, ∀ q ev src dst, .put q ev src dst ∈ streams args n p → q < n ∧ ∃ e, ev = some e
  /-- An event is raised by one rank, for the blocks that its owner waits for, one by one. -/
  matched : ∀ q < n, ∀ e, ∃ s < n, (∀ p < n, p ≠ s → putBlocks args n p q e = []) ∧
    putBlocks args n s q e = waitBlocks args n q e
  /-- A wait consumes the notification of its own put: no wait is over before it, and in the end
      none is left. -/
  ordered : ∀ F : Fabric Addr β, F.Reachable n (streams args n) m₀ → ∀ q e,
    consumed (streams args n) q e F.done ≤ raised n (streams args n) q e F.done
  drained : ∀ F : Fabric Addr β, F.Reachable n (streams args n) m₀ → F.Finished n (streams args n) →
    ∀ q < n, ∀ e, F.pending q e = 0
  /-- In the end every rank has every block, and nothing else has changed. -/
  blocks : ∀ F : Fabric Addr β, F.Reachable n (streams args n) m₀ → F.Finished n (streams args n) →
    ∀ p < n, ∀ b < n, ∀ i < (args 0).recvcounts b * (args 0).recvSize,
      F.mem p (blockAddr (args 0) b i) = contribution args m₀ b i
  rest : ∀ F : Fabric Addr β, F.Reachable n (streams args n) m₀ → ∀ p < n, ∀ c,
    (∀ b < n, c ∉ block (args 0) b) → F.mem p c = m₀ p c

/-- A run of the streams is a run on the circle. -/
theorem exists_circle (hn : 3 ≤ n) (h : RollingArgs n args) {F : Fabric Addr β}
    (hF : F.Reachable n (streams args n) m₀) : ∃ F₁ : Fabric ℕ Unit,
      F₁.Reachable n (tasks (rollAfter (selfPrelude args n) n (nonempty args) 2)) (fun _ _ => ()) ∧
        (placement args n).Sim n 3 F F₁ := by
  have hfits := fits_placement args hn
  exact Placement.exists_reachable hfits (Placement.separated_of_inj
    (fun v _ e he e' he' => slot_inj n args (v := v) he he') hfits)
    (hF.congr fun p hp => streams_eq_place hn hp h)

theorem finished_circle (hn : 3 ≤ n) (h : RollingArgs n args) {F : Fabric Addr β}
    (hfin : F.Finished n (streams args n)) {F₁ : Fabric ℕ Unit}
    (hsim : (placement args n).Sim n 3 F F₁) :
    F₁.Finished n (tasks (rollAfter (selfPrelude args n) n (nonempty args) 2)) :=
  (hsim.finished (fits_placement args hn).numbering).mp
    (hfin.congr fun _ hp => streams_eq_place hn hp h)

/-- What is held is right. -/
theorem mem_eq_result (hn : 3 ≤ n) (h : RollingArgs n args) {F : Fabric Addr β}
    (hF : F.Reachable n (streams args n) m₀) (hp : p < n) {c : Addr}
    (hc : m₀ p c = result args n m₀ p c ∨
      c ∈ holds n (streams args n) (ownData args) F.done p) : F.mem p c = result args n m₀ p c := by
  have hheld : SendsHeld n (streams args n) m₀ fun q => {c | m₀ q c = result args n m₀ q c} :=
    (sendsHeld_streams hn h).mono fun q hq c hc => ownData_eq h hq hc
  refine goal_of_mem_holds hheld (fun _ _ _ hc => hc)
    (fun p hp q ev src dst hmem => goal_streams hn h hp hmem) hF p hp c ?_
  rcases hc with hc | hc | hc
  · exact Or.inl hc
  · exact Or.inl (ownData_eq h hp hc)
  · exact Or.inr hc

end Delivery

/-- Three ranks with one, two and no elements of four bytes. -/
def argsThree (p : ℕ) : AllgathervArgs where
  inPlace := false
  sendcount := if p = 2 then 0 else p + 1
  sendExtent := 4
  recvcounts b := if b = 2 then 0 else b + 1
  displs b := 2 * b
  recvSize := 4
  recvExtent := 4

theorem rollingArgs_three : RollingArgs 3 argsThree where
  counts _ _ _ _ := rfl
  displs _ _ _ _ := rfl
  size _ _ := rfl
  extent _ _ := rfl
  disjoint a ha b hb hab c hc hc' := by
    rw [block, mem_bytes] at hc hc'
    simp only [argsThree] at hc hc'
    interval_cases a <;> interval_cases b <;> simp at hab hc hc' <;> omega
  sends _ _ _ := rfl

end Rolling

end Kucg.Stars
