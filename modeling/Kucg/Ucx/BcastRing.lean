import Kucg.Algo.Ring
import Kucg.Ucx.BcastTree
import Mathlib.Data.List.ReduceOption

/-! The broadcasts along a ring: `bcast_ring.c`, `bcast_inc_ring_m.c` and `bcast_inc_2_ring_m.c`.

    Every rank passes the buffer on to its right neighbour. In the modified rings the root also
    sends to one or two ranks further on, and the neighbours of the root do not forward, so that the
    ring falls into two or three chains from the root.

    The three differ only in which ranks the root sends to and in who only receives (`RingKind`).
    The chains are a tree on the ranks numbered from the root on (`ringTree`), and each rank, from
    its own number alone, posts what the tree has for it. -/

namespace Kucg.Ucx

open Kucg.Core Kucg.Lib Kucg.Algo

variable {B β : Type}

/-- `ucg_planc_ucx_op_t` of a ring broadcast, with the two flags. -/
structure BcastRingOp (B : Type) where
  vgroup : VGroup
  args : BcastArgs B
  status : Status
  id : ℕ
  send : Bool
  recv : Bool
  ringIter : RingIter

/-- What sets a ring broadcast apart: given the size of the group and the root, the ranks that get
    the buffer from the root although they are not its right neighbour (`UCG_INVALID_RANK` is
    `none`), and given in addition the left and the right neighbour, whether a rank does not
    send. -/
structure RingKind where
  recvFromRoot : ℕ → ℕ → List (Option ℕ)
  recvOnly : ℕ → ℕ → Option ℕ → Option ℕ → Bool

section Functions

/-- The sends of the root to the ranks that get the buffer from it. -/
def ringOpSendRanks : List (Option ℕ) → BcastRingOp B → Prog (Cell B) β Status
  | [], _ => pure .ok
  | none :: ranks, op => ringOpSendRanks ranks op
  | some peer :: ranks, op => do
    let status ← p2pIsend (span op.args.buffer op.args.count) (some peer) op.vgroup
    if status ≠ .ok then return status
    ringOpSendRanks ranks op

variable (kind : RingKind)

/-- The receive. -/
def ringOpRecv (op : BcastRingOp B) : Prog (Cell B) β (BcastRingOp B × Status) :=
  if op.recv then do
    let op := { op with recv := false }
    let peer := if some op.vgroup.myrank ∈ kind.recvFromRoot op.vgroup.size op.args.root then
      some op.args.root else op.ringIter.leftValue
    let status ← p2pIrecv (span op.args.buffer op.args.count) peer op.vgroup 0
    return (op, status)
  else pure (op, .ok)

/-- The sends. -/
def ringOpSend (op : BcastRingOp B) : Prog (Cell B) β (BcastRingOp B × Status) :=
  if op.send then do
    let op := { op with send := false }
    let status ← p2pIsend (span op.args.buffer op.args.count) op.ringIter.rightValue op.vgroup
    if status ≠ .ok then return (op, status)
    if op.vgroup.myrank = op.args.root then
      let status ← ringOpSendRanks (kind.recvFromRoot op.vgroup.size op.args.root) op
      return (op, status)
    return (op, .ok)
  else pure (op, .ok)

/-- A progress function, up to the status that it stores. -/
def ringOpForward (op : BcastRingOp B) : Prog (Cell B) β (BcastRingOp B × Status) := do
  let (op, status) ← ringOpRecv kind op
  if status ≠ .ok then return (op, status)
  let status ← p2pTestall
  if status ≠ .ok then return (op, status)
  let (op, status) ← ringOpSend kind op
  if status ≠ .ok then return (op, status)
  let status ← p2pTestall
  return (op, status)

/-- A progress function. -/
def ringOpProgress (op : BcastRingOp B) : Prog (Cell B) β (BcastRingOp B × Status) := do
  let (op, status) ← ringOpForward kind op
  return ({ op with status := status }, status)

/-- What a trigger function sets. -/
def BcastRingOp.start (op : BcastRingOp B) (id : ℕ) : BcastRingOp B :=
  let op := { op with
    id := id
    status := .inprogress
    send := false
    recv := false
    ringIter := op.ringIter.reset }
  if op.vgroup.myrank = op.args.root then { op with send := true }
  else if kind.recvOnly op.vgroup.size op.args.root op.ringIter.leftValue
      op.ringIter.rightValue then
    { op with recv := true }
  else { op with send := true, recv := true }

/-- A trigger function. -/
def ringOpTrigger (op : BcastRingOp B) (id : ℕ) : Prog (Cell B) β (BcastRingOp B × Status) := do
  let (op, status) ← ringOpProgress kind (op.start kind id)
  return (op, if status = .inprogress then .ok else status)

end Functions

/-- What the prepare functions make. -/
def bcastRingPrepare (vgroup : VGroup) (args : BcastArgs B) : BcastRingOp B where
  vgroup := vgroup
  args := args
  status := .ok
  id := 0
  send := false
  recv := false
  ringIter := RingIter.init vgroup.size vgroup.myrank

/-! #### `bcast_ring.c` -/

/-- The root sends to its right neighbour only. -/
def bcastRing : RingKind where
  recvFromRoot _ _ := []
  recvOnly _ root _ right := right = some root

/-- `ucg_planc_ucx_bcast_ring_op_trigger` and `ucg_planc_ucx_bcast_ring_op_progress`. -/
def bcastRingFuncs : OpFuncs (Prog (Cell B) β) (BcastRingOp B) where
  trigger := ringOpTrigger bcastRing
  progress := ringOpProgress bcastRing

/-! #### `bcast_inc_ring_m.c` -/

/-- `recv_from_root_rank1`. -/
def recvFromRootRank1 (groupSize root : ℕ) : Option ℕ :=
  if groupSize < 3 then none else some ((root + 2) % groupSize)

/-- The root sends to the rank behind its right neighbour as well. -/
def bcastIncRingM : RingKind where
  recvFromRoot groupSize root := [recvFromRootRank1 groupSize root]
  recvOnly _ root left right := right = some root ∨ left = some root

/-- `ucg_planc_ucx_bcast_inc_ring_m_op_trigger` and `ucg_planc_ucx_bcast_inc_ring_m_op_progress`. -/
def bcastIncRingMFuncs : OpFuncs (Prog (Cell B) β) (BcastRingOp B) where
  trigger := ringOpTrigger bcastIncRingM
  progress := ringOpProgress bcastIncRingM

/-! #### `bcast_inc_2_ring_m.c` -/

/-- `mid_rank`. -/
def midRank (groupSize root : ℕ) : ℕ := (groupSize / 2 + root) % groupSize

/-- `recv_from_root_rank2`. -/
def recvFromRootRank2 (groupSize root : ℕ) : Option ℕ :=
  if groupSize < 6 then none else some (midRank groupSize root)

/-- The root sends to the rank half around the ring as well. -/
def bcastInc2RingM : RingKind where
  recvFromRoot groupSize root :=
    [recvFromRootRank1 groupSize root, recvFromRootRank2 groupSize root]
  recvOnly groupSize root left right :=
    right = some root ∨ right = some (midRank groupSize root) ∨ left = some root

/-- `ucg_planc_ucx_bcast_inc_2_ring_m_op_trigger` and
    `ucg_planc_ucx_bcast_inc_2_ring_m_op_progress`. -/
def bcastInc2RingMFuncs : OpFuncs (Prog (Cell B) β) (BcastRingOp B) where
  trigger := ringOpTrigger bcastInc2RingM
  progress := ringOpProgress bcastInc2RingM

/-! ### The operation comes to its end -/

section Live

variable {kind : RingKind}

theorem all_sendRanks {op : BcastRingOp B} {Q : Status → Prop} (hok : Q .ok) :
    ∀ {ranks : List (Option ℕ)}, (ringOpSendRanks ranks op : Prog (Cell B) β Status).All Q
  | [] => hok
  | none :: ranks =>
    (all_sendRanks hok : (ringOpSendRanks ranks op : Prog (Cell B) β Status).All Q)
  | some peer :: ranks => by
    simp only [ringOpSendRanks, all_bind, all_p2pIsend, ne_eq, not_true_eq_false, if_false]
    exact all_sendRanks hok

theorem all_ringRecv {op : BcastRingOp B} :
    (ringOpRecv kind op : Prog (Cell B) β _).All fun res => res.1.recv = false := by
  rw [ringOpRecv]
  split_ifs with hrecv
  · dsimp only
    rcases (if some op.vgroup.myrank ∈ kind.recvFromRoot op.vgroup.size op.args.root then
      some op.args.root else op.ringIter.leftValue) with _ | peer <;> exact rfl
  · exact Bool.eq_false_iff.mpr hrecv

theorem all_ringSend {op : BcastRingOp B} (h : op.recv = false) :
    (ringOpSend kind op : Prog (Cell B) β _).All fun res => res.1.recv = false := by
  rw [ringOpSend]
  split_ifs
  · dsimp only
    rcases op.ringIter.rightValue with _ | peer
    · exact h
    · simp only [all_bind, all_p2pIsend, ne_eq, not_true_eq_false, if_false]
      split_ifs
      · exact all_bind.mpr (all_sendRanks h)
      · exact h
  · exact h

theorem all_ringForward {op : BcastRingOp B} :
    (ringOpForward kind op : Prog (Cell B) β _).All fun res => res.1.recv = false := by
  rw [ringOpForward, all_bind]
  refine all_ringRecv.imp fun res hrecv => ?_
  dsimp only
  split_ifs
  · exact hrecv
  · simp only [all_bind, all_p2pTestall, ne_eq, not_true_eq_false, if_false]
    refine ⟨(all_ringSend hrecv).imp fun res hsend => ?_, hrecv⟩
    split_ifs
    · exact all_bind.mpr (all_p2pTestall.mpr ⟨hsend, hsend⟩)
    · exact hsend

/-- What is not in flight any more is followed by the sends, or by the end. -/
theorem busy_ringForward {op : BcastRingOp B} (h : op.recv = false) :
    (ringOpForward kind op : Prog (Cell B) β _).Busy fun res => res.2 ≠ .inprogress := by
  simp only [ringOpForward, ringOpRecv, h, Bool.false_eq_true, if_false, busy_bind, busy_pure,
    busy_p2pTestall, ne_eq, not_true_eq_false, ringOpSend]
  cases op.send with
  | false => simp
  | true =>
    cases hright : op.ringIter.rightValue with
    | none => simp
    | some peer => exact trivial

/-- A ring broadcast comes to its end. -/
theorem ringOp_lively (kind : RingKind) (op : BcastRingOp B) (id : ℕ) :
    OpLively ⟨ringOpTrigger kind, (ringOpProgress kind : _ → Prog (Cell B) β _)⟩
      BcastRingOp.status id op := by
  refine ⟨fun op => op.recv = false, ⟨fun op _ => ?_, fun op h => ?_⟩, ?_⟩
  · exact all_bind.mpr (all_ringForward.imp fun res hres => ⟨rfl, hres⟩)
  · exact busy_bind.mpr ((busy_ringForward h).imp fun res hres => hres)
  · change (ringOpTrigger kind op id).All _
    rw [ringOpTrigger, ringOpProgress]
    exact all_bind.mpr (all_bind.mpr (all_ringForward.imp fun res hres => hres))

end Live

/-! ### What a rank posts -/

section Obeys

/-- The ranks that a rank sends to, if it does. -/
def ringKids (kind : RingKind) (vgroup : VGroup) (root right : ℕ) : List ℕ :=
  right :: if vgroup.myrank = root then (kind.recvFromRoot vgroup.size root).reduceOption else []

/-- The sends of the buffer. -/
def ringSends (vgroup : VGroup) (count : ℕ) (x : ℕ → β) (kids : List ℕ) : List (Event β) :=
  kids.map fun d => .send (vgroup.rankMap d) (vec count x) ∅

variable (kind : RingKind) (vgroup : VGroup) (args : BcastArgs B) (right : ℕ) (x : ℕ → β)

/-- A rank that has the buffer or waits for it, and has its sends before it or behind it. -/
structure RingForwards (op : BcastRingOp B) (g : Ghost (Cell B) β) : Prop where
  vgroup_eq : op.vgroup = vgroup
  args_eq : op.args = args
  right_eq : op.ringIter.rightValue = some right
  recv : op.recv = false
  buffer : Holds g.mem args.buffer args.count x
  todo : g.todo = if op.send then
    ringSends vgroup args.count x (ringKids kind vgroup args.root right) else []

/-- Between calls the operation waits, or it has come to its end. -/
inductive RingInv (op : BcastRingOp B) (g : Ghost (Cell B) β) : Prop
  | waits (hst : op.status = .inprogress) (h : RingForwards kind vgroup args right x op g)
  | done (hst : op.status = .ok) (hsend : op.send = false) (hpend : g.pend = [])
      (h : RingForwards kind vgroup args right x op g)

variable {kind vgroup args right x} [DecidableEq B]

theorem wp_sendRanks {op : BcastRingOp B} (hvgroup : op.vgroup = vgroup) (hargs : op.args = args)
    {rest : List (Event β)} : ∀ {ranks : List (Option ℕ)} {g : Ghost (Cell B) β},
      (∀ i, g.Free i) → Holds g.mem args.buffer args.count x →
      g.todo = ringSends vgroup args.count x ranks.reduceOption ++ rest →
      (ringOpSendRanks ranks op).wp (fun st g' => st = .ok ∧ g' = { g with todo := rest }) g
  | [], g, _, _, htodo => ⟨rfl, by rw [← show g.todo = rest from htodo]⟩
  | none :: ranks, g, hfree, hbuf, htodo =>
    (wp_sendRanks hvgroup hargs hfree hbuf htodo :
      (ringOpSendRanks ranks op).wp (fun st g' => st = .ok ∧ g' = { g with todo := rest }) g)
  | some peer :: ranks, g, hfree, hbuf, htodo => by
    rw [List.reduceOption_cons_of_some, ringSends, List.map_cons, List.cons_append] at htodo
    simp only [ringOpSendRanks, wp_bind, wp_p2pIsend, ne_eq, not_true_eq_false, if_false, htodo,
      hvgroup, hargs, hbuf.map_span]
    exact ⟨fun i _ => hfree i, _, _, rfl, Set.empty_subset _,
      wp_sendRanks (g := ⟨g.mem, g.pend, ringSends vgroup args.count x ranks.reduceOption ++ rest,
        g.know⟩) hvgroup hargs hfree hbuf rfl⟩

/-- The receive, when nothing has been posted. -/
theorem wp_ringRecv {op : BcastRingOp B} {g : Ghost (Cell B) β} {peer : ℕ}
    (hvgroup : op.vgroup = vgroup) (hargs : op.args = args)
    (hright : op.ringIter.rightValue = some right) (hrecv : op.recv = true)
    (hpeer : (if some vgroup.myrank ∈ kind.recvFromRoot vgroup.size args.root then some args.root
      else op.ringIter.leftValue) = some peer) (hpend : g.pend = [])
    (htodo : g.todo = .recv (vgroup.rankMap peer) (vec args.count x) ∅ :: if op.send then
      ringSends vgroup args.count x (ringKids kind vgroup args.root right) else []) :
    (ringOpRecv kind op).wp (fun res g => res.2 = .ok ∧
      RingForwards kind vgroup args right x res.1 g) g := by
  have hfree (i) : g.Free i := fun p hp => absurd (hpend ▸ hp) List.not_mem_nil
  subst hvgroup hargs
  rw [ringOpRecv, if_pos hrecv]
  dsimp only
  rw [hpeer]
  simp only [wp_bind, wp_p2pIrecv, wp_pure, htodo]
  exact ⟨fun i _ => hfree i, _, _, _, rfl, by simp, trivial,
    ⟨rfl, rfl, hright, rfl, holds_write _ _ _ _, rfl⟩⟩

/-- The sends, when nothing is in flight. -/
theorem wp_ringSend {op : BcastRingOp B} {g : Ghost (Cell B) β}
    (h : RingForwards kind vgroup args right x op g) (hfree : ∀ i, g.Free i) :
    (ringOpSend kind op).wp (fun res g => res.2 = .ok ∧ res.1.send = false ∧
      RingForwards kind vgroup args right x res.1 g) g := by
  have htodo := h.todo
  rw [ringOpSend]
  cases hsend : op.send with
  | false => exact ⟨rfl, hsend, h⟩
  | true =>
    rw [hsend, if_pos rfl, ringKids, ringSends, List.map_cons] at htodo
    simp only [if_true, h.right_eq, wp_bind, wp_p2pIsend, ne_eq, not_true_eq_false, if_false, htodo,
      h.vgroup_eq, h.args_eq, h.buffer.map_span]
    refine ⟨fun i _ => hfree i, _, _, rfl, Set.empty_subset _, ?_⟩
    split_ifs with hroot
    · rw [wp_bind]
      refine Prog.wp.imp ?_ (wp_sendRanks rfl rfl hfree h.buffer (List.append_nil _).symm)
      rintro st g ⟨rfl, rfl⟩
      exact ⟨rfl, rfl, { h with vgroup_eq := rfl, args_eq := rfl, recv := h.recv, todo := rfl }⟩
    · exact ⟨rfl, rfl, { h with vgroup_eq := rfl, args_eq := rfl, recv := h.recv, todo := rfl }⟩

/-- A progress call, behind the receive. -/
theorem wp_ringProgress {op : BcastRingOp B} {g : Ghost (Cell B) β}
    (hrecv : (ringOpRecv kind op).wp (fun res g => res.2 = .ok ∧
      RingForwards kind vgroup args right x res.1 g) g) :
    (ringOpProgress kind op).wp (fun res g => res.2 = res.1.status ∧
      RingInv kind vgroup args right x res.1 g) g := by
  rw [ringOpProgress, ringOpForward, wp_bind, wp_bind]
  refine hrecv.imp ?_
  rintro ⟨op, st⟩ g ⟨rfl : st = .ok, h⟩
  simp only [ne_eq, not_true_eq_false, if_false, wp_bind, wp_p2pTestall, reduceCtorEq,
    not_false_eq_true, if_true, wp_pure]
  refine ⟨?_, trivial, .waits rfl { h with }⟩
  have hfree (i) : g.doneAll.Free i := fun p hp => absurd hp List.not_mem_nil
  have hdone : RingForwards kind vgroup args right x op g.doneAll := { h with }
  refine (wp_ringSend hdone hfree).imp ?_
  rintro ⟨op, st⟩ g ⟨rfl : st = .ok, hsend, h⟩
  simp only [not_true_eq_false, if_false, wp_bind, wp_p2pTestall, wp_pure]
  exact ⟨⟨trivial, .done rfl hsend rfl { h with }⟩, trivial, .waits rfl { h with }⟩

end Obeys

/-! ### The chains as a tree -/

section Tree

/-- The parent of number `v`: the number before it, or the root of which it gets the buffer. -/
def ringParent (extra : List ℕ) (v : ℕ) : ℕ := if v ∈ extra then 0 else v - 1

/-- The numbers that number `v` sends to. -/
def ringChildren (n : ℕ) (extra : List ℕ) (v : ℕ) : List ℕ :=
  if v = 0 then 1 :: extra else if v + 1 < n ∧ v + 1 ∉ extra then [v + 1] else []

/-- The numbers `extra` start a chain, and the ranks decide accordingly. -/
structure RingKind.Cuts (kind : RingKind) (n root : ℕ) (extra : List ℕ) : Prop where
  root_lt : root < n
  two_le : 2 ≤ n
  nodup : extra.Nodup
  range : ∀ e ∈ extra, 1 < e ∧ e < n
  ranks : (kind.recvFromRoot n root).reduceOption = extra.map (toRank n root)
  recvOnly : ∀ v, 0 < v → v < n →
    (kind.recvOnly n root (some (toRank n root (v - 1))) (some (toRank n root (rightOf n v))) ↔
      v + 1 = n ∨ v + 1 ∈ extra)

variable {kind : RingKind} {n root r : ℕ} {extra : List ℕ}

theorem ringTree (h : kind.Cuts n root extra) :
    RankTree n (ringParent extra) (ringChildren n extra) where
  parent_lt v hpos _ := by
    rw [ringParent]
    split_ifs <;> omega
  mem v c := by
    have hrange := h.range c
    have htwo := h.two_le
    rw [ringParent, ringChildren]
    rcases Nat.eq_zero_or_pos v with rfl | hpos
    · rw [if_pos rfl, List.mem_cons]
      split_ifs with hc
      · obtain ⟨h₁, h₂⟩ := hrange hc
        exact ⟨fun _ => ⟨by omega, h₂, rfl⟩, fun _ => Or.inr hc⟩
      · simp only [hc, or_false]
        omega
    · rw [if_neg hpos.ne']
      split_ifs with hnext hc hc
      · rw [List.mem_singleton]
        constructor
        · rintro rfl
          exact absurd hc hnext.2
        · omega
      · rw [List.mem_singleton]
        omega
      · exact ⟨fun hmem => absurd hmem List.not_mem_nil, fun ⟨_, _, hv⟩ => by omega⟩
      · refine ⟨fun hmem => absurd hmem List.not_mem_nil, fun ⟨_, hlt, hv⟩ => ?_⟩
        obtain rfl : c = v + 1 := by omega
        exact absurd ⟨hlt, hc⟩ hnext
  nodup v := by
    rw [ringChildren]
    split_ifs
    · exact List.nodup_cons.mpr ⟨fun hmem => absurd (h.range 1 hmem).1 (lt_irrefl 1), h.nodup⟩
    · exact List.nodup_singleton _
    · exact List.nodup_nil

/-- A rank receives from its parent. -/
theorem RingKind.Cuts.parent_eq (h : kind.Cuts n root extra) (hr : r < n) (hne : r ≠ root) :
    toRank n root (ringParent extra (fromRoot n root r)) =
      if some r ∈ kind.recvFromRoot n root then root else leftOf n r := by
  have hpos := fromRoot_pos h.root_lt hr hne
  have hv := fromRoot_lt h.root_lt (r := r)
  have hmem : some r ∈ kind.recvFromRoot n root ↔ fromRoot n root r ∈ extra := by
    rw [← List.reduceOption_mem_iff, h.ranks, List.mem_map]
    constructor
    · rintro ⟨e, he, rfl⟩
      rwa [fromRoot_toRank h.root_lt (h.range e he).2]
    · exact fun he => ⟨_, he, toRank_fromRoot h.root_lt hr⟩
  rw [ringParent]
  simp only [hmem]
  split_ifs
  · exact (toRank_eq_root_iff h.root_lt (by omega)).mpr rfl
  · rw [← toRank_leftOf h.root_lt hr, leftOf, mod_eq_ite (by omega), if_neg (by omega)]
    congr 1
    omega

/-- The root sends to the numbers at which a chain starts. -/
theorem RingKind.Cuts.kids_root (h : kind.Cuts n root extra) :
    (ringChildren n extra (fromRoot n root root)).map (toRank n root) =
      rightOf n root :: (kind.recvFromRoot n root).reduceOption := by
  rw [(fromRoot_eq_zero_iff h.root_lt h.root_lt).mpr rfl, ringChildren, if_pos rfl, List.map_cons,
    h.ranks, toRank, rightOf, Nat.add_comm]

/-- Any other rank sends to its right neighbour, or to nobody. -/
theorem RingKind.Cuts.kids_eq (h : kind.Cuts n root extra) (hr : r < n) (hne : r ≠ root) :
    (ringChildren n extra (fromRoot n root r)).map (toRank n root) =
      if kind.recvOnly n root (some (leftOf n r)) (some (rightOf n r)) then []
      else [rightOf n r] := by
  have hpos := fromRoot_pos h.root_lt hr hne
  have hv := fromRoot_lt h.root_lt (r := r)
  have honly := h.recvOnly _ hpos hv
  have hleft : leftOf n (fromRoot n root r) = fromRoot n root r - 1 := by
    rw [leftOf, mod_eq_ite (by omega), if_neg (by omega)]
    omega
  rw [← hleft, toRank_leftOf h.root_lt hr, toRank_rightOf h.root_lt hr] at honly
  simp only [honly]
  rw [ringChildren, if_neg hpos.ne']
  split_ifs with hnext hlast hlast
  · rcases hlast with hlast | hlast
    · omega
    · exact absurd hlast hnext.2
  · rw [← toRank_rightOf h.root_lt hr, rightOf, Nat.mod_eq_of_lt hnext.1, List.map_singleton]
  · rfl
  · exact absurd ⟨by omega, fun hmem => hlast (Or.inr hmem)⟩ hnext

/-- The neighbours that the iterator gives. -/
theorem ringIter_leftValue (hn : 2 ≤ n) :
    (RingIter.init n r).reset.leftValue = some (leftOf n r) := if_pos (show 0 < n - 1 by omega)

theorem ringIter_rightValue (hn : 2 ≤ n) :
    (RingIter.init n r).reset.rightValue = some (rightOf n r) := if_pos (show 0 < n - 1 by omega)

variable [DecidableEq B] {args : BcastArgs B} {count : ℕ} {x : ℕ → β} {m : Cell B → β}

/-- A rank of a ring broadcast obeys its part of the tree. -/
theorem RingKind.Cuts.obeys (h : kind.Cuts n root extra) (hr : r < n) (hroot : args.root = root)
    (hcount : args.count = count) (hbuf : r = root → Holds m args.buffer count x) (id : ℕ) :
    Obeys ⟨ringOpTrigger kind, ringOpProgress kind⟩ BcastRingOp.status id
      (bcastRingPrepare ⟨n, r, fun q => q⟩ args)
      (RingInv kind ⟨n, r, fun q => q⟩ args (rightOf n r) x)
      (fun m _ => Holds m args.buffer count x)
      ⟨m, [], bcastTreeTrace n root (ringParent extra) (ringChildren n extra) count x r, {r}⟩ where
  trigger := by
    have hleft := ringIter_leftValue (r := r) h.two_le
    have hright := ringIter_rightValue (r := r) h.two_le
    subst hroot hcount
    change (ringOpTrigger kind _ id).wp _ _
    rw [ringOpTrigger, wp_bind, bcastTreeTrace_eq h.root_lt hr]
    refine Prog.wp.imp (fun res g hres => hres.2) (wp_ringProgress ?_)
    rw [BcastRingOp.start, bcastRingPrepare]
    by_cases hne : r = args.root
    · subst hne
      simp only [ringOpRecv, if_true, Bool.false_eq_true, if_false, wp_pure, List.nil_append]
      refine ⟨trivial, rfl, rfl, hright, rfl, hbuf rfl, ?_⟩
      rw [ringKids, if_pos rfl, if_pos rfl, ← h.kids_root, ringSends, List.map_map]
      rfl
    · have hkids := h.kids_eq hr hne
      have hmsgs : ((ringChildren n extra (fromRoot n args.root r)).map fun c =>
          (.send (toRank n args.root c) (vec args.count x) ∅ : Event β)) =
          ringSends ⟨n, r, fun q => q⟩ args.count x
            ((ringChildren n extra (fromRoot n args.root r)).map (toRank n args.root)) := by
        rw [ringSends, List.map_map]
        rfl
      have hpeer := congrArg some (h.parent_eq hr hne)
      rw [apply_ite some, ← hleft] at hpeer
      rw [if_neg hne, hmsgs, hkids]
      dsimp only
      rw [hleft, hright]
      split_ifs with honly
      · exact wp_ringRecv rfl rfl hright rfl hpeer.symm rfl rfl
      · refine wp_ringRecv rfl rfl hright rfl hpeer.symm rfl ?_
        rw [if_pos rfl, ringKids, if_neg hne]
        rfl
  progress op g hinv := by
    refine wp_ringProgress ?_
    rcases hinv with ⟨-, hfwd⟩ | ⟨-, -, -, hfwd⟩ <;> simpa [ringOpRecv, hfwd.recv] using hfwd
  settled op g hinv := by
    cases hinv with
    | waits hst => exact Or.inl hst
    | done hst hsend hpend hfwd =>
      refine Or.inr ⟨hst, ?_, hpend, hcount ▸ hfwd.buffer⟩
      rw [hfwd.todo, hsend, if_neg Bool.false_ne_true]

theorem rightOf_eq_iff {v w : ℕ} (hv : v < n) : rightOf n v = w ↔
    v + 1 = w ∧ w < n ∨ v + 1 = n ∧ w = 0 := by
  rw [rightOf, mod_eq_ite (by omega)]
  split_ifs <;> omega

theorem bcastRing_cuts (hn : 2 ≤ n) (hroot : root < n) : bcastRing.Cuts n root [] where
  root_lt := hroot
  two_le := hn
  nodup := List.nodup_nil
  range _ he := absurd he List.not_mem_nil
  ranks := rfl
  recvOnly v hpos hv := by
    have hlt : rightOf n v < n := Nat.mod_lt _ (by omega)
    simp only [bcastRing, decide_eq_true_eq, Option.some.injEq, toRank_eq_root_iff hroot hlt,
      rightOf_eq_iff hv, List.not_mem_nil, or_false, and_true]
    omega

/-- The number of `recv_from_root_rank1`. -/
def rank1Number (n : ℕ) : List ℕ := if n < 3 then [] else [2]

/-- The number of `recv_from_root_rank2`. -/
def rank2Number (n : ℕ) : List ℕ := if n < 6 then [] else [n / 2]

theorem mem_rank1Number {e : ℕ} : e ∈ rank1Number n ↔ 3 ≤ n ∧ e = 2 := by
  rw [rank1Number]
  split_ifs <;> simp <;> omega

theorem mem_rank2Number {e : ℕ} : e ∈ rank2Number n ↔ 6 ≤ n ∧ e = n / 2 := by
  rw [rank2Number]
  split_ifs <;> simp <;> omega

theorem reduceOption_rank1 {ranks : List (Option ℕ)} :
    (recvFromRootRank1 n root :: ranks).reduceOption =
      (rank1Number n).map (toRank n root) ++ ranks.reduceOption := by
  rw [recvFromRootRank1, rank1Number, Nat.add_comm]
  split_ifs <;> rfl

theorem reduceOption_rank2 {ranks : List (Option ℕ)} :
    (recvFromRootRank2 n root :: ranks).reduceOption =
      (rank2Number n).map (toRank n root) ++ ranks.reduceOption := by
  rw [recvFromRootRank2, rank2Number]
  split_ifs <;> rfl

theorem bcastIncRingM_cuts (hn : 2 ≤ n) (hroot : root < n) :
    bcastIncRingM.Cuts n root (rank1Number n) where
  root_lt := hroot
  two_le := hn
  nodup := by
    rw [rank1Number]
    split_ifs <;> simp
  range e he := by
    rw [mem_rank1Number] at he
    omega
  ranks := by
    rw [show bcastIncRingM.recvFromRoot n root = [recvFromRootRank1 n root] from rfl,
      reduceOption_rank1, List.reduceOption_nil, List.append_nil]
  recvOnly v hpos hv := by
    have hlt : rightOf n v < n := Nat.mod_lt _ (by omega)
    simp only [bcastIncRingM, decide_eq_true_eq, Option.some.injEq, toRank_eq_root_iff hroot hlt,
      toRank_eq_root_iff hroot (show v - 1 < n by omega), rightOf_eq_iff hv, and_true,
      mem_rank1Number]
    omega

theorem bcastInc2RingM_cuts (hn : 2 ≤ n) (hroot : root < n) :
    bcastInc2RingM.Cuts n root (rank1Number n ++ rank2Number n) where
  root_lt := hroot
  two_le := hn
  nodup := by
    rw [rank1Number, rank2Number]
    split_ifs <;> simp
    omega
  range e he := by
    rw [List.mem_append, mem_rank1Number, mem_rank2Number] at he
    omega
  ranks := by
    rw [show bcastInc2RingM.recvFromRoot n root =
      [recvFromRootRank1 n root, recvFromRootRank2 n root] from rfl, reduceOption_rank1,
      reduceOption_rank2, List.reduceOption_nil, List.append_nil, List.map_append]
  recvOnly v hpos hv := by
    have hlt : rightOf n v < n := Nat.mod_lt _ (by omega)
    simp only [bcastInc2RingM, decide_eq_true_eq, Option.some.injEq, toRank_eq_root_iff hroot hlt,
      toRank_eq_root_iff hroot (show v - 1 < n by omega), rightOf_eq_iff hv, and_true,
      mem_rank1Number, mem_rank2Number, List.mem_append,
      show midRank n root = toRank n root (n / 2) from rfl,
      toRank_inj hroot hlt (show n / 2 < n by omega)]
    omega

end Tree

/-! ### The broadcasts of all ranks -/

section Right

variable [DecidableEq B] {n root count : ℕ} {args : ℕ → BcastArgs B} {m : ℕ → Cell B → β}
  {x : ℕ → β}

/-- Ranks that cut the ring into chains from the root. -/
theorem RingKind.Cuts.right {kind : RingKind} {extra : List ℕ} (h : kind.Cuts n root extra)
    (hcall : BcastCall n count root args m x) (id : ℕ) :
    BcastRight n root count args x m BcastRingOp.status fun r =>
      opProc ⟨ringOpTrigger kind, ringOpProgress kind⟩ BcastRingOp.status
        (bcastRingPrepare ⟨n, r, fun q => q⟩ (args r)) id := by
  refine bcastTree_right (ringTree h) h.root_lt (fun r hr => ?_)
    fun r _ => ringOp_lively kind _ id
  obtain ⟨hcount, hroot⟩ := hcall.same r hr
  exact ⟨_, h.obeys hr hroot hcount (fun heq => heq ▸ hcall.input) id⟩

/-- The three ring broadcasts give every rank the buffer of the root, along chains from it. -/
theorem bcastRings_right (hn : 2 ≤ n) (hcall : BcastCall n count root args m x) (id : ℕ) :
    (BcastRight n root count args x m BcastRingOp.status fun r =>
      opProc bcastRingFuncs BcastRingOp.status
        (bcastRingPrepare ⟨n, r, fun q => q⟩ (args r)) id) ∧
    (BcastRight n root count args x m BcastRingOp.status fun r =>
      opProc bcastIncRingMFuncs BcastRingOp.status
        (bcastRingPrepare ⟨n, r, fun q => q⟩ (args r)) id) ∧
    BcastRight n root count args x m BcastRingOp.status fun r =>
      opProc bcastInc2RingMFuncs BcastRingOp.status
        (bcastRingPrepare ⟨n, r, fun q => q⟩ (args r)) id :=
  ⟨(bcastRing_cuts hn hcall.root_lt).right hcall id,
    (bcastIncRingM_cuts hn hcall.root_lt).right hcall id,
    (bcastInc2RingM_cuts hn hcall.root_lt).right hcall id⟩

/-- Seven ranks and two elements, with a chain from each of the ranks 1, 2 and 3 in the last one. -/
theorem bcastRings_right_seven :
    (BcastRight 7 0 2 pairArgs (fun j => j + 5) pairMem BcastRingOp.status fun r =>
      opProc bcastRingFuncs BcastRingOp.status
        (bcastRingPrepare ⟨7, r, fun q => q⟩ (pairArgs r)) 1) ∧
    (BcastRight 7 0 2 pairArgs (fun j => j + 5) pairMem BcastRingOp.status fun r =>
      opProc bcastIncRingMFuncs BcastRingOp.status
        (bcastRingPrepare ⟨7, r, fun q => q⟩ (pairArgs r)) 1) ∧
    BcastRight 7 0 2 pairArgs (fun j => j + 5) pairMem BcastRingOp.status fun r =>
      opProc bcastInc2RingMFuncs BcastRingOp.status
        (bcastRingPrepare ⟨7, r, fun q => q⟩ (pairArgs r)) 1 :=
  bcastRings_right (by decide) (show BcastCall 7 2 0 pairArgs pairMem fun j => j + 5 from
    ⟨by decide, fun _ _ => ⟨rfl, rfl⟩, pairCall.input⟩) 1

end Right

end Kucg.Ucx
