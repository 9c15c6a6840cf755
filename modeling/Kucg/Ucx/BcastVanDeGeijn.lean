import Kucg.Algo.Kntree
import Kucg.Ucx.Bcast
import Kucg.Ucx.RingStep

/-! The broadcast of van de Geijn in `bcast_van_de_geijn.c`: a binomial scatter and a ring.

    The buffer is cut into blocks of `quotient` elements, of which the last ones may be short or
    empty. A rank computes where a block starts by a product in `int32_t`, and sends or receives in
    the scatter only what is not empty. The products do not overflow if that of the last rank does
    not, and then both sides of a message agree on its range. -/

namespace Kucg.Ucx

open Kucg.Core Kucg.Lib Kucg.Algo

variable {B β : Type}

/-- `ucg_planc_ucx_op_t` of the broadcast; its send and receive flags are those of the ring. `batch`
    is the send type of the scatter. -/
structure VanDeGeijnOp (B : Type) where
  vgroup : VGroup
  args : BcastArgs B
  status : Status
  id : ℕ
  scattervPhase : Bool
  allgathervPhase : Bool
  iter : KntreeIter
  ring : RingOp
  currCount : ℤ
  quotient : ℤ
  batch : Bool

section Functions

/-- The quotient that the trigger computes in `uint32_t`. -/
def vanDeGeijnQuotient (n count : ℕ) : ℤ := s32 ((count + n - 1) % 2 ^ 32 / n : ℕ)

/-- `send_count` in the scatter. -/
def scattervSendCount (quotient currCount : ℤ) (peerVrank myVrank : ℕ) : ℤ :=
  s32 (currCount - s32 (quotient * (peerVrank - myVrank)))

/-- `recv_count` in the scatter. -/
def scattervRecvCount (n : ℕ) (count quotient : ℤ) (peerVrank myVrank : ℕ) : ℤ :=
  let rightSiblingRank := s32 (peerVrank + s32 ((myVrank - peerVrank) * 2))
  if rightSiblingRank % 2 ^ 32 < n then
    s32 (min (s32 (rightSiblingRank * quotient)) count - s32 (myVrank * quotient))
  else s32 (count - s32 (myVrank * quotient))

/-- `send_count` and `recv_count` of a block in the ring. -/
def ringCount (count quotient : ℤ) (block : ℕ) : ℤ :=
  let rest := s32 (count - s32 (block * quotient))
  let count := if quotient < rest then quotient else rest
  if count < 0 then 0 else count

/-- The elements from a product of `int32_t` on. (It is negative after an overflow only.) -/
def VanDeGeijnOp.part (op : VanDeGeijnOp B) (block : ℕ) (count : ℤ) : List (Cell B) :=
  op.args.part (s32 (block * op.quotient)).toNat count.toNat

/-- The elements still to be sent in the scatter. -/
def VanDeGeijnOp.setCurr (op : VanDeGeijnOp B) (currCount : ℤ) : VanDeGeijnOp B :=
  { op with currCount := currCount }

/-- The receive flag is cleared. -/
def VanDeGeijnOp.clearRecv (op : VanDeGeijnOp B) : VanDeGeijnOp B :=
  { op with ring := { op.ring with recv := false } }

/-- The send flag is cleared. -/
def VanDeGeijnOp.clearSend (op : VanDeGeijnOp B) : VanDeGeijnOp B :=
  { op with ring := { op.ring with send := false } }

/-- The iterator goes on to the next child. -/
def VanDeGeijnOp.childInc (op : VanDeGeijnOp B) : VanDeGeijnOp B :=
  { op with iter := op.iter.childInc }

/-- The number of a rank, counted from the root. -/
def VanDeGeijnOp.vrank (op : VanDeGeijnOp B) (peer : ℕ) : ℕ :=
  (peer + op.vgroup.size - op.iter.root) % op.vgroup.size

/-- The send to a child, the same for both send types. -/
def vanDeGeijnSendTo (peer : ℕ) (op : VanDeGeijnOp B) :
    Prog (Cell B) β (VanDeGeijnOp B × Status) :=
  let sendCount := scattervSendCount op.quotient op.currCount (op.vrank peer) op.iter.myrank
  if sendCount > 0 then do
    let status ← p2pIsend (op.part (op.vrank peer) sendCount) (some peer) op.vgroup
    if status ≠ .ok then return (op, status)
    return (op.setCurr (s32 (op.currCount - sendCount)), .ok)
  else return (op, .ok)

/-- The loop of `ucg_planc_ucx_bcast_van_de_geijn_scatterv_send_one_by_one`. The fuel bounds the
    number of children. -/
def vanDeGeijnLoopOneByOne (fuel : ℕ) (op : VanDeGeijnOp B) :
    Prog (Cell B) β (VanDeGeijnOp B × Status) :=
  match op.iter.child with
  | none => return (op.clearSend, .ok)
  | some peer =>
    match fuel with
    | 0 => return (op, .inprogress)
    | fuel + 1 => do
      let (op, status) ← vanDeGeijnSendTo peer op
      if status ≠ .ok then return (op, status)
      let status ← p2pTestall
      if status ≠ .ok then return (op, status)
      vanDeGeijnLoopOneByOne fuel op.childInc

/-- `ucg_planc_ucx_bcast_van_de_geijn_scatterv_send_one_by_one`. -/
def vanDeGeijnSendOneByOne (op : VanDeGeijnOp B) : Prog (Cell B) β (VanDeGeijnOp B × Status) :=
  if op.ring.send then vanDeGeijnLoopOneByOne op.vgroup.size op else return (op, .ok)

/-- The loop of `ucg_planc_ucx_bcast_van_de_geijn_scatterv_send_batch`. -/
def vanDeGeijnLoopBatch (fuel : ℕ) (op : VanDeGeijnOp B) :
    Prog (Cell B) β (VanDeGeijnOp B × Status) :=
  match op.iter.child with
  | none => return (op.clearSend, .ok)
  | some peer =>
    match fuel with
    | 0 => return (op, .inprogress)
    | fuel + 1 => do
      let (op, status) ← vanDeGeijnSendTo peer op
      if status ≠ .ok then return (op, status)
      vanDeGeijnLoopBatch fuel op.childInc

/-- `ucg_planc_ucx_bcast_van_de_geijn_scatterv_send_batch`. -/
def vanDeGeijnSendBatch (op : VanDeGeijnOp B) : Prog (Cell B) β (VanDeGeijnOp B × Status) := do
  let (op, status) ←
    if op.ring.send then vanDeGeijnLoopBatch op.vgroup.size op else pure (op, Status.ok)
  if status ≠ .ok then return (op, status)
  let status ← p2pTestall
  return (op, status)

/-- The receive in `ucg_planc_ucx_bcast_van_de_geijn_scatterv_op_progress`. -/
def vanDeGeijnRecv (op : VanDeGeijnOp B) : Prog (Cell B) β (VanDeGeijnOp B × Status) :=
  match op.iter.parent with
  | none => return (op, .ok)
  | some peer =>
    if op.ring.recv then
      let recvCount := scattervRecvCount op.vgroup.size op.args.count op.quotient (op.vrank peer)
        op.iter.myrank
      if recvCount ≤ 0 then return (op.clearRecv.setCurr 0, .ok)
      else do
        let status ← p2pIrecv (op.part op.iter.myrank recvCount) (some peer) op.vgroup 0
        if status ≠ .ok then return (op.clearRecv, status)
        return (op.clearRecv.setCurr recvCount, .ok)
    else return (op, .ok)

/-- `ucg_planc_ucx_bcast_van_de_geijn_scatterv_op_progress`. -/
def vanDeGeijnScattervOpProgress (op : VanDeGeijnOp B) :
    Prog (Cell B) β (VanDeGeijnOp B × Status) := do
  let (op, status) ← vanDeGeijnRecv op
  if status ≠ .ok then return (op, status)
  let status ← p2pTestall
  if status ≠ .ok then return (op, status)
  if op.batch then vanDeGeijnSendBatch op else vanDeGeijnSendOneByOne op

/-- The elements of a block in the ring. -/
def VanDeGeijnOp.block (op : VanDeGeijnOp B) (block : ℕ) : List (Cell B) :=
  op.part block (ringCount op.args.count op.quotient block)

/-- `ucg_planc_ucx_bcast_van_de_geijn_allgatherv_op_progress`. -/
def vanDeGeijnAllgathervOpProgress (op : VanDeGeijnOp B) :
    Prog (Cell B) β (VanDeGeijnOp B × Status) := do
  let n := op.vgroup.size
  let (ring, status) ← ringProgress op.vgroup
    (fun stepIdx => op.block (ringSendBlock n stepIdx op.iter.myrank))
    (fun stepIdx => op.block (ringRecvBlock n stepIdx op.iter.myrank)) op.ring
  return ({ op with ring := ring }, status)

/-- The second phase of `ucg_planc_ucx_bcast_van_de_geijn_op_progress`. -/
def vanDeGeijnOpGather (op : VanDeGeijnOp B) : Prog (Cell B) β (VanDeGeijnOp B × Status) := do
  if op.allgathervPhase then
    let (op, status) ← vanDeGeijnAllgathervOpProgress op
    if status ≠ .ok then return ({ op with status := status }, status)
    return ({ op with allgathervPhase := false, status := .ok }, .ok)
  else return ({ op with status := .ok }, .ok)

/-- The scatter is over. -/
def VanDeGeijnOp.scattervDone (op : VanDeGeijnOp B) : VanDeGeijnOp B :=
  { op with scattervPhase := false, ring := { op.ring with send := true, recv := true } }

/-- `ucg_planc_ucx_bcast_van_de_geijn_op_progress`. -/
def vanDeGeijnOpProgress (op : VanDeGeijnOp B) : Prog (Cell B) β (VanDeGeijnOp B × Status) := do
  if op.scattervPhase then
    let (op, status) ← vanDeGeijnScattervOpProgress op
    if status ≠ .ok then return ({ op with status := status }, status)
    vanDeGeijnOpGather op.scattervDone
  else vanDeGeijnOpGather op

/-- What the trigger sets. -/
def VanDeGeijnOp.reset (op : VanDeGeijnOp B) (id : ℕ) : VanDeGeijnOp B :=
  { op with
    id := id, status := .inprogress, iter := op.iter.reset, ring := op.ring.reset
    quotient := vanDeGeijnQuotient op.vgroup.size op.args.count
    currCount := if op.vgroup.myrank = op.args.root then s32 op.args.count else 0
    scattervPhase := true, allgathervPhase := true }

theorem VanDeGeijnOp.reset_quotient (op : VanDeGeijnOp B) (id : ℕ) :
    (op.reset id).quotient = vanDeGeijnQuotient op.vgroup.size op.args.count := by
  rw [VanDeGeijnOp.reset]

/-- `ucg_planc_ucx_bcast_van_de_geijn_op_trigger`. -/
def vanDeGeijnOpTrigger (op : VanDeGeijnOp B) (id : ℕ) :
    Prog (Cell B) β (VanDeGeijnOp B × Status) := do
  let (op, status) ← vanDeGeijnOpProgress (op.reset id)
  return (op, if status = .inprogress then .ok else status)

/-- The trigger and progress functions of the operation. -/
def vanDeGeijnFuncs : OpFuncs (Prog (Cell B) β) (VanDeGeijnOp B) where
  trigger := vanDeGeijnOpTrigger
  progress := vanDeGeijnOpProgress

/-- `ucg_planc_ucx_bcast_van_de_geijn_prepare`, behind its check. -/
def vanDeGeijnOpNew (batch : Bool) (vgroup : VGroup) (args : BcastArgs B) : VanDeGeijnOp B where
  vgroup := vgroup
  args := args
  status := .ok
  id := 0
  scattervPhase := false
  allgathervPhase := false
  iter := KntreeIter.init vgroup.size 2 args.root vgroup.myrank true
  ring := ⟨RingIter.init vgroup.size vgroup.myrank, false, false⟩
  currCount := 0
  quotient := 0
  batch := batch

/-- `ucg_planc_ucx_bcast_van_de_geijn_check`. -/
def vanDeGeijnCheck (vgroup : VGroup) (args : BcastArgs B) : Status :=
  if args.count < vgroup.size then .errUnsupported else .ok

end Functions

/-! ### Blocks -/

/-- The number of elements of a block. -/
def ceilQuotient (n count : ℕ) : ℕ := (count + n - 1) / n

/-- Where a block starts; the empty ones start at the end. -/
def ceilOffset (n count b : ℕ) : ℕ := min (b * ceilQuotient n count) count

section Blocks

variable {n count : ℕ}

theorem le_mul_ceilQuotient (hn : 0 < n) : count ≤ n * ceilQuotient n count := by
  have hdiv := Nat.div_add_mod (count + n - 1) n
  have hmod := Nat.mod_lt (count + n - 1) hn
  rw [ceilQuotient]
  omega

variable (count) in
theorem cut_ceilOffset (hn : 0 < n) : Cut count n (ceilOffset n count) where
  mono a b hab := min_le_min_right _ (Nat.mul_le_mul_right _ hab)
  zero := by rw [ceilOffset, Nat.zero_mul, Nat.zero_min]
  last := min_eq_right (le_mul_ceilQuotient hn)

/-- The products fit in an `int32_t`. -/
def Fits (n count : ℕ) : Prop := (n - 1) * ceilQuotient n count < 2 ^ 31

theorem Fits.mul_lt (h : Fits n count) {b : ℕ} (hb : b < n) : b * ceilQuotient n count < 2 ^ 31 :=
  (Nat.mul_le_mul_right _ (Nat.le_sub_one_of_lt hb)).trans_lt h

theorem Fits.s32_mul (h : Fits n count) {b : ℕ} (hb : b < n) :
    s32 (b * (ceilQuotient n count : ℤ)) = (b * ceilQuotient n count : ℕ) := by
  have hlt := h.mul_lt hb
  rw [← Nat.cast_mul]
  exact s32_eq (by omega) (by exact_mod_cast hlt)

theorem vanDeGeijnQuotient_eq (hn : 0 < n) (hcount : count < 2 ^ 31) (hle : n ≤ count) :
    vanDeGeijnQuotient n count = ceilQuotient n count := by
  have hle' : ceilQuotient n count ≤ count := by
    rw [ceilQuotient, Nat.div_le_iff_le_mul_add_pred hn]
    have := Nat.le_mul_of_pos_left count hn
    omega
  rw [vanDeGeijnQuotient, Nat.mod_eq_of_lt (by omega)]
  change s32 (ceilQuotient n count : ℕ) = _
  exact s32_eq (by omega) (by exact_mod_cast hle'.trans_lt hcount)

/-- The product in the send to a child. -/
theorem Fits.s32_child (h : Fits n count) {v c : ℕ} (hvc : v < c) (hcn : c < n) :
    s32 ((ceilQuotient n count : ℤ) * (c - v)) =
      (c * ceilQuotient n count : ℕ) - (v * ceilQuotient n count : ℕ) := by
  have hlt := h.mul_lt hcn
  have hle := Nat.mul_le_mul_right (ceilQuotient n count) hvc.le
  have heq : (ceilQuotient n count : ℤ) * (c - v) =
      (c * ceilQuotient n count : ℕ) - (v * ceilQuotient n count : ℕ) := by
    push_cast
    ring
  rw [heq]
  exact s32_eq (by omega) (by omega)

/-- The child `c` gets what the rank `v` has of the blocks from `c` on. -/
theorem scattervSendCount_pos (h : Fits n count) (hcount : count < 2 ^ 31) {v c e : ℕ}
    (hvc : v < c) (hce : c ≤ e) (hcn : c < n)
    (hlt : ceilOffset n count c < ceilOffset n count e) :
    let curr : ℤ := ceilOffset n count e - ceilOffset n count v
    let sent := scattervSendCount (ceilQuotient n count) curr c v
    sent = (ceilOffset n count e - ceilOffset n count c : ℕ) ∧
      s32 (curr - sent) = ceilOffset n count c - ceilOffset n count v := by
  have hvle := Nat.mul_le_mul_right (ceilQuotient n count) hvc.le
  have hcle := Nat.mul_le_mul_right (ceilQuotient n count) hce
  have hfit := h.mul_lt hcn
  rw [ceilOffset, ceilOffset] at hlt
  have hsent : scattervSendCount (ceilQuotient n count)
      (ceilOffset n count e - ceilOffset n count v) c v =
        (ceilOffset n count e - ceilOffset n count c : ℕ) := by
    rw [scattervSendCount, h.s32_child hvc hcn]
    rw [ceilOffset, ceilOffset, ceilOffset, s32_eq] <;> omega
  refine ⟨hsent, ?_⟩
  rw [hsent]
  rw [ceilOffset, ceilOffset, ceilOffset, s32_eq] <;> omega

/-- It gets nothing if the blocks from `c` on are empty. -/
theorem scattervSendCount_le (h : Fits n count) (hcount : count < 2 ^ 31) {v c e : ℕ}
    (hvc : v < c) (hce : c ≤ e) (hcn : c < n)
    (hle : ceilOffset n count e ≤ ceilOffset n count c) :
    scattervSendCount (ceilQuotient n count) (ceilOffset n count e - ceilOffset n count v) c v ≤
      0 := by
  have hvle := Nat.mul_le_mul_right (ceilQuotient n count) hvc.le
  have hcle := Nat.mul_le_mul_right (ceilQuotient n count) hce
  have hfit := h.mul_lt hcn
  rw [ceilOffset, ceilOffset] at hle
  rw [scattervSendCount, h.s32_child hvc hcn, ceilOffset, ceilOffset, s32_eq] <;> omega

/-- A rank receives the blocks up to its right sibling, or to the end. -/
theorem scattervRecvCount_eq (h : Fits n count) (hcount : count < 2 ^ 31) (hn : n < 2 ^ 31)
    {p v e : ℕ} (hpv : p < v) (hv : v < n) (he : e = min (p + (v - p) * 2) n) :
    scattervRecvCount n count (ceilQuotient n count) p v =
      ceilOffset n count e - (v * ceilQuotient n count : ℕ) := by
  have hfit := h.mul_lt hv
  have hsib : s32 (p + s32 (((v : ℤ) - p) * 2)) % 2 ^ 32 = (p + (v - p) * 2 : ℕ) := by
    have hcast : (p : ℤ) + ((v : ℤ) - p) * 2 = (p + (v - p) * 2 : ℕ) := by omega
    rw [s32, s32, Int.add_bmod_bmod, hcast, show (2 : ℤ) ^ 32 = (2 ^ 32 : ℕ) by norm_num,
      Int.bmod_emod]
    exact Int.emod_eq_of_lt (by omega) (by omega)
  rw [scattervRecvCount, hsib]
  split_ifs with hlt
  · -- there is a right sibling
    have hlt' : p + (v - p) * 2 < n := by exact_mod_cast hlt
    have hval : s32 (p + s32 (((v : ℤ) - p) * 2)) = (p + (v - p) * 2 : ℕ) := by
      rw [s32_eq (x := ((v : ℤ) - p) * 2) (by omega) (by omega), s32_eq (by omega) (by omega)]
      omega
    have hfit' := h.mul_lt hlt'
    rw [hval, h.s32_mul hlt', h.s32_mul hv, he, min_eq_left hlt'.le, ceilOffset,
      s32_eq (by omega) (by omega)]
    omega
  · have hge : n ≤ p + (v - p) * 2 := by
      by_contra hlt'
      exact hlt (by exact_mod_cast not_le.mp hlt')
    rw [h.s32_mul hv, he, min_eq_right hge, (cut_ceilOffset _ (by omega)).last,
      s32_eq (by omega) (by omega)]

/-- The number of elements of a block of the ring. -/
theorem ringCount_eq (h : Fits n count) (hcount : count < 2 ^ 31) {b : ℕ} (hb : b < n) :
    ringCount count (ceilQuotient n count) b =
      (ceilOffset n count (b + 1) - ceilOffset n count b : ℕ) := by
  have hfit := h.mul_lt hb
  rw [ringCount, h.s32_mul hb, s32_eq (by omega) (by omega), ceilOffset, ceilOffset, Nat.succ_mul]
  split_ifs <;> omega

end Blocks

/-! ### The rounds -/

section Rounds

/-- The blocks of the sub-tree of a rank are not all empty. -/
noncomputable def scatterKeep (n count v : ℕ) : Bool :=
  ceilOffset n count v < ceilOffset n count (scatterEnd n v)

/-- The root waits at the start, though it has posted nothing. -/
def rootWait (v : ℕ) : Sched ℕ β := if v = 0 then [.wait] else []

/-- The stops after each send, and those after all of them. -/
def afterSend (batch : Bool) : Sched ℕ β := if batch then [] else [.wait]

def afterSends (batch : Bool) (_v : ℕ) : Sched ℕ β := if batch then [.wait] else []

/-- The rounds of the broadcast. -/
noncomputable def vanDeGeijnRounds (n count : ℕ) (batch : Bool) : List (ℕ → Sched ℕ β) :=
  scatterThen n (scatterKeep n count) rootWait (afterSend batch) (afterSends batch) (ringRounds n)

variable {n count v : ℕ} {batch : Bool}

theorem stops_rootWait (v : ℕ) : (rootWait v : Sched ℕ β).Stops := by
  rw [rootWait]
  split_ifs <;> simp [Sched.Stops]

theorem stops_afterSend : (afterSend batch : Sched ℕ β).Stops := by
  rw [afterSend]
  split_ifs <;> simp [Sched.Stops]

theorem stops_afterSends (v : ℕ) : (afterSends batch v : Sched ℕ β).Stops := by
  rw [afterSends]
  split_ifs <;> simp [Sched.Stops]

theorem mem_ringRounds {R : ℕ → Sched ℕ β} (hR : R ∈ ringRounds n) :
    ∃ k, k + 1 < n ∧ R = ringRound n k := by
  obtain ⟨k, hk, rfl⟩ := List.mem_map.mp hR
  rw [List.mem_range] at hk
  exact ⟨k, by omega, rfl⟩

/-- The rounds bring the buffer of the root to all ranks. -/
theorem spreads_vanDeGeijnRounds (hn : 0 < n) (x : ℕ → β) :
    BcastSpreads n n (ceilOffset n count) x (vanDeGeijnRounds n count batch) where
  round R hR := by
    refine fitRound_scatterThen (fun v _ => stops_rootWait v) stops_afterSend
      (fun v _ => stops_afterSends v) (fun R hR => ?_) hR
    obtain ⟨k, hk, rfl⟩ := mem_ringRounds hR
    exact fitRound_ringRound hk
  gathers v hv := by
    have hmono := (cut_ceilOffset count hn).mono
    refine gathers_scatterThen {b | ceilOffset n count (b + 1) ≤ ceilOffset n count b}
      (fun v _ => stops_rootWait v) stops_afterSend (fun v _ => stops_afterSends v)
      (fun u hu b hb => ?_) hv (fun b _ h => h) fun has hhas => gathers_ringRounds hv hhas
    -- the blocks of a sub-tree that is left out are all empty
    rw [mem_scatterBlocks] at hb
    have hle : ceilOffset n count (scatterEnd n u) ≤ ceilOffset n count u :=
      not_lt.mp (of_decide_eq_false hu)
    have h₁ : ceilOffset n count (b + 1) ≤ ceilOffset n count (scatterEnd n u) := hmono hb.2
    have h₂ : ceilOffset n count u ≤ ceilOffset n count b := hmono hb.1
    exact (h₁.trans hle).trans h₂
  ranges R hR v hv w hw src hsrc := by
    refine ranges_scatterThen (fun v _ => stops_rootWait v) stops_afterSend
      (fun v _ => stops_afterSends v) (fun R hR hsrc => ?_) hR hv hw hsrc
    obtain ⟨k, -, rfl⟩ := mem_ringRounds hR
    rw [sendsTo_ringRound] at hsrc
    split_ifs at hsrc
    · exact ⟨_, 1, List.mem_singleton.mp hsrc⟩
    · exact absurd hsrc List.not_mem_nil

/-- The message of the scatter from one rank to another one. -/
theorem sendsTo_scatterRounds {keep : ℕ → Bool} {after : Sched ℕ β} (hafter : after.Stops) {w : ℕ}
    (hw : w < n) : ∀ E : ℕ,
    ((scatterRounds n keep after E).flatMap fun R => (R v).sendsTo w) =
      if (0 < w ∧ multiplicity 2 w < E ∧ v = kntreeParent 2 w) ∧ keep w then [scatterBlocks n w]
      else []
  | 0 => by simp [scatterRounds]
  | E + 1 => by
    rw [scatterRounds, List.flatMap_cons, sendsTo_scatterRound hafter hw,
      sendsTo_scatterRounds hafter hw E]
    by_cases hE : multiplicity 2 w = E
    · rw [if_neg (by omega : ¬((0 < w ∧ multiplicity 2 w < E ∧ _) ∧ _)), List.append_nil]
      simp [hE]
    · rw [if_neg fun h => hE h.1.2.1, List.nil_append]
      refine if_congr (and_congr_left' (and_congr_right' (and_congr_left' ?_))) rfl rfl
      omega

end Rounds

/-! ### The scatter -/

/-- A schedule over blocks, on the buffer of a rank. -/
abbrev ceilSched (n : ℕ) (vgroup : VGroup) (args : BcastArgs B) (cs : Sched ℕ β) :
    Sched (Cell B) β :=
  cs.expand (args.blockCells (ceilOffset n args.count))
    fun p => vgroup.rankMap (toRank n args.root p)

/-- What stays as it is in the operation, `v` being the number of the rank from the root. -/
structure GeijnOf (n : ℕ) (vgroup : VGroup) (args : BcastArgs B) (batch : Bool) (v : ℕ)
    (op : VanDeGeijnOp B) : Prop where
  vgroup_eq : op.vgroup = vgroup
  args_eq : op.args = args
  base_eq : op.iter.toKntreeBase = KntreeIter.baseOf n 2 args.root v true
  quotient_eq : op.quotient = ceilQuotient n args.count
  batch_eq : op.batch = batch

/-- The operation is in its scatter, and has received what it is to receive. -/
structure GeijnScatter (n : ℕ) (vgroup : VGroup) (args : BcastArgs B) (batch : Bool) (v : ℕ)
    (op : VanDeGeijnOp B) : Prop extends GeijnOf n vgroup args batch v op where
  scatterv : op.scattervPhase = true
  allgatherv : op.allgathervPhase = true
  ring_iter : op.ring.iter = RingIter.init n vgroup.myrank
  recv : op.ring.recv = false ∨ v = 0

/-- What the arithmetic of the operation needs. -/
structure GeijnFits (n : ℕ) (vgroup : VGroup) (args : BcastArgs B) (v : ℕ) : Prop where
  size_eq : vgroup.size = n
  root_lt : args.root < n
  lt : v < n
  size_lt : n < 2 ^ 31
  count_lt : args.count < 2 ^ 31
  fits : Fits n args.count

section Of

variable {n : ℕ} {vgroup : VGroup} {args : BcastArgs B} {batch : Bool} {v : ℕ}
  {op : VanDeGeijnOp B}

theorem GeijnOf.myrank_eq (h : GeijnOf n vgroup args batch v op) : op.iter.myrank = v :=
  congrArg KntreeBase.myrank h.base_eq

theorem GeijnOf.root_eq (h : GeijnOf n vgroup args batch v op) : op.iter.root = args.root :=
  congrArg KntreeBase.root h.base_eq

theorem GeijnOf.parent_eq (h : GeijnOf n vgroup args batch v op) :
    op.iter.parent = if v = 0 then none else some (toRank n args.root (kntreeParent 2 v)) :=
  congrArg KntreeBase.parent h.base_eq

theorem GeijnScatter.setCurr (h : GeijnScatter n vgroup args batch v op) (c : ℤ) :
    GeijnScatter n vgroup args batch v (op.setCurr c) :=
  ⟨⟨h.vgroup_eq, h.args_eq, h.base_eq, h.quotient_eq, h.batch_eq⟩, h.scatterv, h.allgatherv,
    h.ring_iter, h.recv⟩

theorem GeijnScatter.childInc (h : GeijnScatter n vgroup args batch v op) :
    GeijnScatter n vgroup args batch v op.childInc :=
  ⟨⟨h.vgroup_eq, h.args_eq, (op.iter.childInc_base).trans h.base_eq, h.quotient_eq, h.batch_eq⟩,
    h.scatterv, h.allgatherv, h.ring_iter, h.recv⟩

theorem GeijnScatter.clearSend (h : GeijnScatter n vgroup args batch v op) :
    GeijnScatter n vgroup args batch v op.clearSend :=
  ⟨⟨h.vgroup_eq, h.args_eq, h.base_eq, h.quotient_eq, h.batch_eq⟩, h.scatterv, h.allgatherv,
    h.ring_iter, h.recv⟩

theorem GeijnScatter.setStatus (h : GeijnScatter n vgroup args batch v op) (st : Status) :
    GeijnScatter n vgroup args batch v { op with status := st } :=
  ⟨⟨h.vgroup_eq, h.args_eq, h.base_eq, h.quotient_eq, h.batch_eq⟩, h.scatterv, h.allgatherv,
    h.ring_iter, h.recv⟩

theorem GeijnOf.vrank_toRank (h : GeijnOf n vgroup args batch v op)
    (hfits : GeijnFits n vgroup args v) {c : ℕ} (hc : c < n) :
    op.vrank (toRank n args.root c) = c := by
  rw [VanDeGeijnOp.vrank, h.vgroup_eq, hfits.size_eq, h.root_eq]
  exact ((toRank_eq_iff hfits.root_lt (toRank_lt hfits.root_lt) hc).mp rfl).symm

/-- The elements of some blocks, from the product of the first one on. -/
theorem GeijnOf.part_eq (h : GeijnOf n vgroup args batch v op) (hfits : GeijnFits n vgroup args v)
    {c e : ℕ} (hc : c < n) (hce : c ≤ e)
    (hlt : ceilOffset n args.count c < ceilOffset n args.count e) :
    op.part c (ceilOffset n args.count e - ceilOffset n args.count c : ℕ) =
      (List.range' c (e - c)).flatMap (args.blockCells (ceilOffset n args.count)) := by
  have hoff : c * ceilQuotient n args.count = ceilOffset n args.count c := by
    have hle := min_le_right (e * ceilQuotient n args.count) args.count
    rw [ceilOffset, ceilOffset] at hlt
    rw [ceilOffset]
    omega
  rw [VanDeGeijnOp.part, h.args_eq, h.quotient_eq, hfits.fits.s32_mul hc, Int.toNat_natCast,
    Int.toNat_natCast, hoff, blockCells_range' (cut_ceilOffset _ (by omega)).mono,
    Nat.add_sub_cancel' hce]

end Of

section Send

variable {n : ℕ} {vgroup : VGroup} {args : BcastArgs B} {batch : Bool} {v : ℕ}
  {op : VanDeGeijnOp B} {K : Bool → VanDeGeijnOp B × Status → Sched (Cell B) β → Prop}
  {moved : Bool} {cs : Sched (Cell B) β}

theorem setCurr_self {c : ℤ} (h : op.currCount = c) : op.setCurr c = op := by
  subst h
  rfl

/-- A child gets nothing if the rank has nothing of its blocks. -/
theorem exec_sendTo_none (h : GeijnScatter n vgroup args batch v op)
    (hfits : GeijnFits n vgroup args v) {c e : ℕ} (hvc : v < c) (hc : c < n) (hce : c ≤ e)
    (hcurr : op.currCount = ceilOffset n args.count e - ceilOffset n args.count v)
    (hle : ceilOffset n args.count e ≤ ceilOffset n args.count c) (hK : K moved (op, .ok) cs) :
    (vanDeGeijnSendTo (toRank n args.root c) op).Exec K moved cs := by
  have hsent := scattervSendCount_le hfits.fits hfits.count_lt hvc hce hc hle
  rw [vanDeGeijnSendTo, h.vrank_toRank hfits hc, h.myrank_eq, h.quotient_eq, hcurr,
    if_neg (not_lt.mpr hsent), exec_pure]
  exact hK

/-- A child gets the blocks of its sub-tree, unless they are empty. -/
theorem exec_sendTo (h : GeijnScatter n vgroup args batch v op)
    (hfits : GeijnFits n vgroup args v) {c : ℕ} (hvc : v < c) (hc : c < n)
    (hcurr : op.currCount = ceilOffset n args.count (scatterEnd n c) - ceilOffset n args.count v)
    (hK : ∀ moved, K moved
      (op.setCurr (ceilOffset n args.count c - ceilOffset n args.count v), .ok) cs) :
    (vanDeGeijnSendTo (toRank n args.root c) op).Exec K moved (ceilSched n vgroup args
      (if scatterKeep n args.count c then [.send c (scatterBlocks n c)] else []) ++ cs) := by
  have hend := (lt_scatterEnd hc).le
  by_cases hkeep : ceilOffset n args.count c < ceilOffset n args.count (scatterEnd n c)
  · obtain ⟨hsent, hleft⟩ :=
      scattervSendCount_pos hfits.fits hfits.count_lt hvc hend hc hkeep
    have hkeep' : scatterKeep n args.count c = true := decide_eq_true hkeep
    rw [if_pos hkeep', vanDeGeijnSendTo, h.vrank_toRank hfits hc, h.myrank_eq, h.quotient_eq, hcurr]
    rw [hsent] at hleft ⊢
    rw [if_pos (by omega), exec_bind]
    refine exec_isend_cons (by rw [h.vgroup_eq]) ?_ ?_
    · rw [h.part_eq hfits hc hend hkeep]
      rfl
    · rw [if_neg (by simp), exec_pure, hleft]
      exact hK true
  · have hmono := (cut_ceilOffset args.count (by omega : 0 < n)).mono
    have heq := le_antisymm (not_lt.mp hkeep) (hmono hend)
    have hself := hK moved
    rw [← heq, setCurr_self hcurr] at hself
    rw [if_neg (by simpa [scatterKeep] using hkeep)]
    exact exec_sendTo_none h hfits hvc hc hend hcurr (not_lt.mp hkeep) hself

/-- The loop stands at the child `v + 2 ^ e`, whose message has been posted. -/
structure GeijnMid (n : ℕ) (vgroup : VGroup) (args : BcastArgs B) (batch : Bool) (v e : ℕ)
    (op : VanDeGeijnOp B) : Prop extends GeijnScatter n vgroup args batch v op where
  send : op.ring.send = true
  dvd : 2 ^ (e + 1) ∣ v
  child_lt : v + 2 ^ e < n
  child : op.iter.child = some (toRank n args.root (v + 2 ^ e))
  rest : op.iter.childInc.Yields ((kntreeRest n 2 v e 1).map (toRank n args.root))
  curr : op.currCount = ceilOffset n args.count (v + 2 ^ e) - ceilOffset n args.count v

/-- The loop comes to the children whose sub-trees have less than `2 ^ E` ranks. -/
structure GeijnBefore (n : ℕ) (vgroup : VGroup) (args : BcastArgs B) (batch : Bool) (v E : ℕ)
    (op : VanDeGeijnOp B) : Prop extends GeijnScatter n vgroup args batch v op where
  send : op.ring.send = true
  height : E ≤ kntreeHeight n 2 v
  children : op.iter.Yields ((kntreeRest n 2 v E 1).map (toRank n args.root))
  curr : op.currCount =
    ceilOffset n args.count (min (v + 2 ^ E) n) - ceilOffset n args.count v

/-- The rank has sent to all its children. -/
structure GeijnSent (n : ℕ) (vgroup : VGroup) (args : BcastArgs B) (batch : Bool) (v : ℕ)
    (op : VanDeGeijnOp B) : Prop extends GeijnScatter n vgroup args batch v op where
  send : op.ring.send = false

/-- There is a child with a sub-tree of `2 ^ E` ranks, or none. -/
theorem GeijnBefore.cases {E : ℕ} (h : GeijnBefore n vgroup args batch v (E + 1) op) :
    (v + 2 ^ E < n ∧ kntreeRest n 2 v (E + 1) 1 = (v + 2 ^ E) :: kntreeRest n 2 v E 1 ∧
      op.currCount = ceilOffset n args.count (scatterEnd n (v + 2 ^ E)) -
        ceilOffset n args.count v ∧
      GeijnMid n vgroup args batch v E
        (op.setCurr (ceilOffset n args.count (v + 2 ^ E) - ceilOffset n args.count v))) ∨
      kntreeRest n 2 v (E + 1) 1 = kntreeRest n 2 v E 1 ∧
        GeijnBefore n vgroup args batch v E op := by
  have hdvd : 2 ^ (E + 1) ∣ v := pow_dvd_of_le_kntreeHeight (by decide) h.height
  have hlevel : kntreeRest n 2 v (E + 1) 1 =
      (if v + 2 ^ E < n then [v + 2 ^ E] else []) ++ kntreeRest n 2 v E 1 := by
    rw [kntreeRest, kntreeLevel_succ (by decide), kntreeLevel_end le_rfl, Nat.mul_one]
  have hchildren := h.children
  by_cases hlt : v + 2 ^ E < n
  · rw [if_pos hlt] at hlevel
    rw [hlevel] at hchildren
    obtain ⟨hchild, hrest⟩ := hchildren
    refine Or.inl
      ⟨hlt, hlevel, ?_, h.toGeijnScatter.setCurr _, h.send, hdvd, hlt, hchild, hrest, rfl⟩
    obtain ⟨hpos, hmult, -⟩ := scatterChild_iff.mp ⟨hdvd, rfl⟩
    rw [h.curr, scatterEnd, kntreeHeight, if_neg hpos.ne', hmult, Nat.add_assoc, ← Nat.two_mul,
      ← pow_succ']
  · rw [if_neg hlt, List.nil_append] at hlevel
    rw [hlevel] at hchildren
    refine Or.inr ⟨hlevel, h.toGeijnScatter, h.send, by have := h.height; omega, hchildren, ?_⟩
    have hle : n ≤ v + 2 ^ (E + 1) := by
      rw [pow_succ]
      omega
    rw [h.curr, min_eq_right hle, min_eq_right (not_lt.mp hlt)]

/-- Behind the child the loop comes to the smaller ones. -/
theorem GeijnMid.next {e : ℕ} (h : GeijnMid n vgroup args batch v e op) :
    GeijnBefore n vgroup args batch v e op.childInc := by
  refine ⟨h.toGeijnScatter.childInc, h.send, (lt_kntreeHeight h.dvd h.child_lt).le, h.rest, ?_⟩
  rw [min_eq_left h.child_lt.le]
  exact h.curr

theorem GeijnBefore.child_none (h : GeijnBefore n vgroup args batch v 0 op) :
    op.iter.child = none := h.children

/-- The loop that sends to all children at once. -/
theorem exec_loopBatch (hfits : GeijnFits n vgroup args v)
    (hK : ∀ moved op, GeijnSent n vgroup args batch v op → K moved (op, .ok) cs) :
    ∀ {E fuel : ℕ} {op : VanDeGeijnOp B} {moved : Bool}, E ≤ fuel →
      GeijnBefore n vgroup args batch v E op →
      (vanDeGeijnLoopBatch fuel op).Exec K moved (ceilSched n vgroup args
        ((kntreeRest n 2 v E 1).flatMap (scatterSend n (scatterKeep n args.count) [])) ++ cs)
  | 0, fuel, op, moved, _, hop => by
    cases fuel <;> rw [vanDeGeijnLoopBatch, hop.child_none] <;>
      exact hK moved _ ⟨hop.toGeijnScatter.clearSend, rfl⟩
  | E + 1, fuel, op, moved, hfuel, hop => by
    obtain ⟨hlt, hrest, hcurr, hmid⟩ | ⟨hrest, hop⟩ := hop.cases
    · obtain ⟨fuel, rfl⟩ : ∃ f, fuel = f + 1 := ⟨fuel - 1, by omega⟩
      have hpow : 0 < 2 ^ E := by positivity
      rw [hrest, vanDeGeijnLoopBatch, show op.iter.child = _ from hmid.child, List.flatMap_cons,
        scatterSend, List.append_nil, ceilSched, expand_append, List.append_assoc]
      dsimp only
      rw [exec_bind]
      refine exec_sendTo hop.toGeijnScatter hfits (by omega) hlt hcurr fun moved => ?_
      rw [if_neg (by simp)]
      exact exec_loopBatch hfits hK (by omega) hmid.next
    · rw [hrest]
      exact exec_loopBatch hfits hK (by omega) hop

/-- The loop that waits after each child. -/
theorem exec_loopOneByOne (hfits : GeijnFits n vgroup args v)
    (hK : ∀ moved op, GeijnSent n vgroup args batch v op → K moved (op, .ok) cs)
    (hmid : ∀ e op, GeijnMid n vgroup args batch v e op → K true (op, .inprogress)
      (.wait :: (ceilSched n vgroup args
        ((kntreeRest n 2 v e 1).flatMap (scatterSend n (scatterKeep n args.count) [.wait])) ++
          cs))) :
    ∀ {E fuel : ℕ} {op : VanDeGeijnOp B} {moved : Bool}, E ≤ fuel →
      GeijnBefore n vgroup args batch v E op →
      (vanDeGeijnLoopOneByOne fuel op).Exec K moved (ceilSched n vgroup args
        ((kntreeRest n 2 v E 1).flatMap (scatterSend n (scatterKeep n args.count) [.wait])) ++ cs)
  | 0, fuel, op, moved, _, hop => by
    cases fuel <;> rw [vanDeGeijnLoopOneByOne, hop.child_none] <;>
      exact hK moved _ ⟨hop.toGeijnScatter.clearSend, rfl⟩
  | E + 1, fuel, op, moved, hfuel, hop => by
    obtain ⟨hlt, hrest, hcurr, hmid'⟩ | ⟨hrest, hop⟩ := hop.cases
    · obtain ⟨fuel, rfl⟩ : ∃ f, fuel = f + 1 := ⟨fuel - 1, by omega⟩
      have hpow : 0 < 2 ^ E := by positivity
      rw [hrest, vanDeGeijnLoopOneByOne, show op.iter.child = _ from hmid'.child,
        List.flatMap_cons, scatterSend, List.append_assoc, ceilSched, expand_append,
        List.append_assoc]
      dsimp only
      rw [exec_bind]
      refine exec_sendTo hop.toGeijnScatter hfits (by omega) hlt hcurr fun moved => ?_
      rw [if_neg (by simp), exec_bind]
      refine exec_testall_wait ?_ ?_
      · rw [if_pos (by simp), exec_pure]
        exact hmid E _ hmid'
      · rw [if_neg (by simp)]
        exact exec_loopOneByOne hfits hK hmid (by omega) hmid'.next
    · rw [hrest]
      exact exec_loopOneByOne hfits hK hmid (by omega) hop

/-- The loop that is called again at a child whose message has been posted: its first test is the
    one that the schedule waits for. -/
theorem exec_loopOneByOne_mid (hfits : GeijnFits n vgroup args v)
    (hK : ∀ moved op, GeijnSent n vgroup args batch v op → K moved (op, .ok) cs)
    (hmid : ∀ e op, GeijnMid n vgroup args batch v e op → K true (op, .inprogress)
      (.wait :: (ceilSched n vgroup args
        ((kntreeRest n 2 v e 1).flatMap (scatterSend n (scatterKeep n args.count) [.wait])) ++ cs)))
    {e fuel : ℕ} (hfuel : e ≤ fuel) (hop : GeijnMid n vgroup args batch v e op) :
    (vanDeGeijnLoopOneByOne (fuel + 1) op).Exec K moved (.wait :: (ceilSched n vgroup args
      ((kntreeRest n 2 v e 1).flatMap (scatterSend n (scatterKeep n args.count) [.wait])) ++
        cs)) := by
  have hpow : 0 < 2 ^ e := by positivity
  rw [vanDeGeijnLoopOneByOne, hop.child]
  dsimp only
  rw [exec_bind]
  refine exec_sendTo_none hop.toGeijnScatter hfits (by omega) hop.child_lt le_rfl hop.curr le_rfl ?_
  rw [if_neg (by simp), exec_bind]
  refine exec_testall_wait ?_ ?_
  · rw [if_pos (by simp), exec_pure]
    exact hmid e _ hop
  · rw [if_neg (by simp)]
    exact exec_loopOneByOne hfits hK hmid hfuel hop.next

end Send

/-- The messages to the children, and the stops after them. -/
noncomputable def geijnSends (n count : ℕ) (batch : Bool) (v : ℕ) : Sched ℕ β :=
  (kntreeChildren n 2 v).flatMap (scatterSend n (scatterKeep n count) (afterSend batch)) ++
    afterSends batch v

/-- Where a call leaves off in the scatter, `cs` being left to do after it. -/
structure GeijnLeaf (n : ℕ) (vgroup : VGroup) (args : BcastArgs B) (batch : Bool) (v : ℕ)
    (cs : Sched (Cell B) β) (K : Bool → VanDeGeijnOp B × Status → Sched (Cell B) β → Prop) :
    Prop where
  start : ∀ op, GeijnBefore n vgroup args batch v (kntreeHeight n 2 v) op → K true (op, .inprogress)
    (.wait :: (ceilSched n vgroup args (geijnSends n args.count batch v) ++ cs))
  mid : batch = false → ∀ e op, GeijnMid n vgroup args batch v e op → K true (op, .inprogress)
    (.wait :: (ceilSched n vgroup args
      ((kntreeRest n 2 v e 1).flatMap (scatterSend n (scatterKeep n args.count) [.wait])) ++ cs))
  sent : batch = true → ∀ op, GeijnSent n vgroup args batch v op →
    K true (op, .inprogress) (.wait :: cs)
  done : ∀ moved op, GeijnSent n vgroup args batch v op → K moved (op, .ok) cs

section Scatter

variable {n : ℕ} {vgroup : VGroup} {args : BcastArgs B} {batch : Bool} {v : ℕ}
  {op : VanDeGeijnOp B} {K : Bool → VanDeGeijnOp B × Status → Sched (Cell B) β → Prop}
  {moved : Bool} {cs : Sched (Cell B) β}

/-- The test behind the messages that are sent at once. -/
theorem exec_batchTest (hleaf : GeijnLeaf n vgroup args true v cs K)
    (hop : GeijnSent n vgroup args true v op) :
    (p2pTestall : Prog (Cell B) β Status).Exec (fun moved status cs => K moved (op, status) cs)
      moved (.wait :: cs) :=
  exec_testall_wait (hleaf.sent rfl op hop) (hleaf.done true op hop)

/-- The messages to the children. -/
theorem exec_geijnSend (hleaf : GeijnLeaf n vgroup args batch v cs K)
    (hfits : GeijnFits n vgroup args v)
    (hop : GeijnBefore n vgroup args batch v (kntreeHeight n 2 v) op) :
    (if op.batch then vanDeGeijnSendBatch op else vanDeGeijnSendOneByOne op).Exec K moved
      (ceilSched n vgroup args (geijnSends n args.count batch v) ++ cs) := by
  have hfuel : kntreeHeight n 2 v ≤ op.vgroup.size := by
    rw [hop.vgroup_eq, hfits.size_eq]
    exact kntreeHeight_le hfits.lt
  rw [hop.batch_eq, geijnSends]
  cases batch with
  | true =>
    rw [if_pos rfl, vanDeGeijnSendBatch, if_pos hop.send, exec_bind, ceilSched, expand_append,
      List.append_assoc]
    refine exec_loopBatch hfits (fun moved op hop => ?_) hfuel hop
    dsimp only
    rw [if_neg (by simp), exec_bind]
    exact exec_batchTest hleaf hop
  | false =>
    rw [if_neg (by simp), vanDeGeijnSendOneByOne, if_pos hop.send, afterSends,
      if_neg Bool.false_ne_true, List.append_nil]
    exact exec_loopOneByOne hfits hleaf.done (hleaf.mid rfl) hfuel hop

/-- The test at the start, and the messages to the children. -/
theorem exec_geijnStart (hleaf : GeijnLeaf n vgroup args batch v cs K)
    (hfits : GeijnFits n vgroup args v)
    (hop : GeijnBefore n vgroup args batch v (kntreeHeight n 2 v) op) :
    (p2pTestall : Prog (Cell B) β Status).Exec (fun moved status cs =>
      (if status ≠ .ok then pure (op, status)
        else if op.batch then vanDeGeijnSendBatch op else vanDeGeijnSendOneByOne op :
          Prog (Cell B) β (VanDeGeijnOp B × Status)).Exec K moved cs) moved
      (.wait :: (ceilSched n vgroup args (geijnSends n args.count batch v) ++ cs)) := by
  refine exec_testall_wait ?_ ?_
  · rw [if_pos (by simp), exec_pure]
    exact hleaf.start op hop
  · rw [if_neg (by simp)]
    exact exec_geijnSend hleaf hfits hop

/-- A call in which nothing is to be received. -/
theorem exec_geijnRecv_none {K : Bool → VanDeGeijnOp B × Status → Sched (Cell B) β → Prop}
    (hop : GeijnScatter n vgroup args batch v op) (hK : K moved (op, .ok) cs) :
    (vanDeGeijnRecv op).Exec K moved cs := by
  rw [vanDeGeijnRecv, hop.parent_eq]
  by_cases hv : v = 0
  · rw [if_pos hv]
    exact hK
  · rw [if_neg hv]
    dsimp only
    rw [if_neg (by simp [hop.recv.resolve_right hv])]
    exact hK

/-- The scatter, when nothing is to be received any more. -/
theorem exec_scattervOpProgress_none (hop : GeijnScatter n vgroup args batch v op)
    (h : (p2pTestall : Prog (Cell B) β Status).Exec (fun moved status cs =>
      (if status ≠ .ok then pure (op, status)
        else if op.batch then vanDeGeijnSendBatch op else vanDeGeijnSendOneByOne op :
          Prog (Cell B) β (VanDeGeijnOp B × Status)).Exec K moved cs) moved cs) :
    (vanDeGeijnScattervOpProgress op).Exec K moved cs := by
  rw [vanDeGeijnScattervOpProgress, exec_bind]
  refine exec_geijnRecv_none hop ?_
  dsimp only
  rw [if_neg (by simp), exec_bind]
  exact h

/-- The receive from the parent, unless the blocks of the sub-tree are empty. -/
theorem exec_geijnRecv {K : Bool → VanDeGeijnOp B × Status → Sched (Cell B) β → Prop}
    (h : GeijnOf n vgroup args batch v op) (hfits : GeijnFits n vgroup args v) (hpos : 0 < v)
    (hrecv : op.ring.recv = true)
    (hK : ∀ moved, K moved (op.clearRecv.setCurr
      (ceilOffset n args.count (scatterEnd n v) - ceilOffset n args.count v), .ok) cs) :
    (vanDeGeijnRecv op).Exec K moved (ceilSched n vgroup args
      (if scatterKeep n args.count v then [.recv 0 (kntreeParent 2 v) (scatterBlocks n v)]
        else []) ++ cs) := by
  have hparent : kntreeParent 2 v < v := kntreeParent_lt (by decide) hpos
  obtain ⟨-, hchild⟩ := scatterChild_iff.mpr ⟨hpos, rfl, rfl⟩
  have hend : scatterEnd n v = min (kntreeParent 2 v + (v - kntreeParent 2 v) * 2) n := by
    rw [scatterEnd, kntreeHeight, if_neg hpos.ne']
    congr 1
    omega
  have hcount := scattervRecvCount_eq hfits.fits hfits.count_lt hfits.size_lt hparent hfits.lt hend
  have hmono := (cut_ceilOffset args.count (hpos.trans hfits.lt)).mono
  have hle := hmono (lt_scatterEnd hfits.lt).le
  rw [vanDeGeijnRecv, h.parent_eq, if_neg hpos.ne']
  dsimp only
  rw [if_pos hrecv, h.vrank_toRank hfits (hparent.trans hfits.lt), h.myrank_eq, h.vgroup_eq,
    hfits.size_eq, h.args_eq, h.quotient_eq, hcount]
  by_cases hkeep : ceilOffset n args.count v < ceilOffset n args.count (scatterEnd n v)
  · have hkeep' : scatterKeep n args.count v = true := decide_eq_true hkeep
    have hoff : v * ceilQuotient n args.count = ceilOffset n args.count v := by
      have hmin := min_le_right (scatterEnd n v * ceilQuotient n args.count) args.count
      rw [ceilOffset, ceilOffset] at hkeep
      rw [ceilOffset]
      omega
    rw [if_pos hkeep', hoff, if_neg (by omega), exec_bind]
    refine exec_irecv_cons rfl ?_ ?_
    · rw [← Nat.cast_sub hkeep.le, h.part_eq hfits hfits.lt (lt_scatterEnd hfits.lt).le hkeep]
      rfl
    · rw [if_neg (by simp), exec_pure]
      exact hK true
  · have heq : ceilOffset n args.count (scatterEnd n v) = ceilOffset n args.count v :=
      le_antisymm (not_lt.mp hkeep) hle
    have hge : ceilOffset n args.count v ≤ v * ceilQuotient n args.count := min_le_left ..
    have hself := hK moved
    rw [heq, sub_self] at hself
    have hkeep' : ¬scatterKeep n args.count v = true := by simpa [scatterKeep] using hkeep
    rw [if_neg hkeep', heq, if_pos (by omega), exec_pure]
    exact hself

end Scatter

/-! ### The operation -/

/-- The ring, as the rank does it from the `k`-th step on. -/
def geijnRing (n : ℕ) (vgroup : VGroup) (args : BcastArgs B) (v k : ℕ) : Sched (Cell B) β :=
  ringFrom vgroup (RingIter.init n vgroup.myrank)
    (fun k => args.blockCells (ceilOffset n args.count) (ringSendBlock n k v))
    (fun k => args.blockCells (ceilOffset n args.count) (ringRecvBlock n k v)) k

/-- What is left of the schedule between two calls. -/
inductive GeijnRel (n : ℕ) (vgroup : VGroup) (args : BcastArgs B) (batch : Bool) (v : ℕ) :
    VanDeGeijnOp B → Sched (Cell B) β → Prop
  | start {op : VanDeGeijnOp B}
      (hop : GeijnBefore n vgroup args batch v (kntreeHeight n 2 v) op) :
      GeijnRel n vgroup args batch v op (.wait ::
        (ceilSched n vgroup args (geijnSends n args.count batch v) ++ geijnRing n vgroup args v 0))
  | mid {e : ℕ} {op : VanDeGeijnOp B} (hbatch : batch = false)
      (hop : GeijnMid n vgroup args batch v e op) :
      GeijnRel n vgroup args batch v op (.wait :: (ceilSched n vgroup args
        ((kntreeRest n 2 v e 1).flatMap (scatterSend n (scatterKeep n args.count) [.wait])) ++
          geijnRing n vgroup args v 0))
  | sent {op : VanDeGeijnOp B} (hbatch : batch = true)
      (hop : GeijnSent n vgroup args batch v op) :
      GeijnRel n vgroup args batch v op (.wait :: geijnRing n vgroup args v 0)
  | posted {k : ℕ} {op : VanDeGeijnOp B} (hk : k < n - 1) (hop : GeijnOf n vgroup args batch v op)
      (hscatterv : op.scattervPhase = false) (hallgatherv : op.allgathervPhase = true)
      (hring : op.ring = ⟨{ RingIter.init n vgroup.myrank with idx := k }, false, false⟩) :
      GeijnRel n vgroup args batch v op (.wait :: geijnRing n vgroup args v (k + 1))
  | done {op : VanDeGeijnOp B} (hscatterv : op.scattervPhase = false)
      (hallgatherv : op.allgathervPhase = false) : GeijnRel n vgroup args batch v op []

section Operation

variable {n : ℕ} {vgroup : VGroup} {args : BcastArgs B} {batch : Bool} {v : ℕ}
  {op : VanDeGeijnOp B} {moved : Bool}

/-- The end of a call. -/
def GeijnEnd (n : ℕ) (vgroup : VGroup) (args : BcastArgs B) (batch : Bool) (v : ℕ) (moved : Bool)
    (res : VanDeGeijnOp B × Status) (cs : Sched (Cell B) β) : Prop :=
  res.2 = res.1.status ∧
    OpLeaf VanDeGeijnOp.status (GeijnRel n vgroup args batch v) moved res.1 cs

theorem geijnEnd_stop {cs : Sched (Cell B) β} (hstop : cs.AtStop)
    (hrel : GeijnRel n vgroup args batch v { op with status := .inprogress } cs) :
    GeijnEnd n vgroup args batch v true ({ op with status := .inprogress }, .inprogress) cs :=
  ⟨rfl, hrel, Or.inl ⟨rfl, rfl, hstop⟩⟩

/-- The elements of a block of the ring. -/
theorem GeijnOf.block_eq (h : GeijnOf n vgroup args batch v op) (hfits : GeijnFits n vgroup args v)
    {b : ℕ} (hb : b < n) : op.block b = args.blockCells (ceilOffset n args.count) b := by
  have hcount := ringCount_eq hfits.fits hfits.count_lt hb
  rw [VanDeGeijnOp.block, h.args_eq, h.quotient_eq, hcount]
  by_cases hlt : ceilOffset n args.count b < ceilOffset n args.count (b + 1)
  · rw [h.part_eq hfits hb (Nat.le_succ b) hlt, Nat.succ_eq_add_one, Nat.add_sub_cancel_left]
    simp
  · rw [Nat.sub_eq_zero_of_le (not_lt.mp hlt), BcastArgs.blockCells,
      Nat.sub_eq_zero_of_le (not_lt.mp hlt), VanDeGeijnOp.part, h.args_eq, BcastArgs.part_eq,
      BcastArgs.part_eq]
    rfl

/-- The ring of a rank. -/
theorem GeijnOf.ringProgress_eq (h : GeijnOf n vgroup args batch v op)
    (hfits : GeijnFits n vgroup args v) :
    (ringProgress op.vgroup
      (fun stepIdx => op.block (ringSendBlock op.vgroup.size stepIdx op.iter.myrank))
      (fun stepIdx => op.block (ringRecvBlock op.vgroup.size stepIdx op.iter.myrank)) op.ring :
        Prog (Cell B) β (RingOp × Status)) =
    ringProgress vgroup
      (fun k => args.blockCells (ceilOffset n args.count) (ringSendBlock n k v))
      (fun k => args.blockCells (ceilOffset n args.count) (ringRecvBlock n k v)) op.ring := by
  have hn : 0 < n := (Nat.zero_le v).trans_lt hfits.lt
  have hsend : (fun stepIdx => op.block (ringSendBlock n stepIdx v)) =
      fun k => args.blockCells (ceilOffset n args.count) (ringSendBlock n k v) :=
    funext fun k => h.block_eq hfits (ringSendBlock_lt hn)
  have hrecv : (fun stepIdx => op.block (ringRecvBlock n stepIdx v)) =
      fun k => args.blockCells (ceilOffset n args.count) (ringRecvBlock n k v) :=
    funext fun k => h.block_eq hfits (ringRecvBlock_lt hn)
  rw [h.vgroup_eq, hfits.size_eq, h.myrank_eq, hsend, hrecv]

/-- The ring, where nothing comes after it. -/
theorem ringLeaf_geijn (h : GeijnOf n vgroup args batch v op) (hscatterv : op.scattervPhase = false)
    (hallgatherv : op.allgathervPhase = true) : RingLeaf vgroup (RingIter.init n vgroup.myrank)
      (fun k => args.blockCells (ceilOffset n args.count) (ringSendBlock n k v))
      (fun k => args.blockCells (ceilOffset n args.count) (ringRecvBlock n k v)) []
      fun moved (res : RingOp × Status) (cs : Sched (Cell B) β) =>
        (if res.2 ≠ .ok then
          pure ({ op with ring := res.1, status := res.2 }, res.2)
        else pure ({ op with ring := res.1, allgathervPhase := false, status := Status.ok },
          Status.ok) : Prog (Cell B) β (VanDeGeijnOp B × Status)).Exec
            (GeijnEnd n vgroup args batch v) moved cs where
  done moved ring hring := by
    rw [if_neg (by simp), exec_pure]
    exact ⟨rfl, .done hscatterv rfl, Or.inr ⟨rfl, rfl⟩⟩
  posted k ring hk hring := by
    rw [if_pos (by simp), exec_pure, List.append_nil]
    exact ⟨rfl, .posted hk ⟨h.vgroup_eq, h.args_eq, h.base_eq, h.quotient_eq, h.batch_eq⟩ hscatterv
      hallgatherv hring, Or.inl ⟨rfl, rfl, trivial⟩⟩

theorem exec_geijnGather_fresh (h : GeijnOf n vgroup args batch v op)
    (hfits : GeijnFits n vgroup args v) (hscatterv : op.scattervPhase = false)
    (hallgatherv : op.allgathervPhase = true)
    (hring : op.ring = ⟨RingIter.init n vgroup.myrank, true, true⟩) :
    (vanDeGeijnOpGather op).Exec (GeijnEnd n vgroup args batch v) moved
      (geijnRing n vgroup args v 0 : Sched (Cell B) β) := by
  have hexec := exec_ringProgress_fresh (ringLeaf_geijn (β := β) h hscatterv hallgatherv) moved
  rw [vanDeGeijnOpGather, if_pos hallgatherv, exec_bind, vanDeGeijnAllgathervOpProgress, exec_bind,
    h.ringProgress_eq hfits, hring, geijnRing]
  rw [List.append_nil] at hexec
  exact hexec

theorem exec_geijnGather_posted (h : GeijnOf n vgroup args batch v op)
    (hfits : GeijnFits n vgroup args v) (hscatterv : op.scattervPhase = false)
    (hallgatherv : op.allgathervPhase = true) {k : ℕ} (hk : k < n - 1)
    (hring : op.ring = ⟨{ RingIter.init n vgroup.myrank with idx := k }, false, false⟩) :
    (vanDeGeijnOpGather op).Exec (GeijnEnd n vgroup args batch v) moved
      (.wait :: geijnRing n vgroup args v (k + 1) : Sched (Cell B) β) := by
  have hexec := exec_ringProgress_posted (ringLeaf_geijn (β := β) h hscatterv hallgatherv)
    (show k < (RingIter.init n vgroup.myrank).maxIdx from hk) moved
  rw [vanDeGeijnOpGather, if_pos hallgatherv, exec_bind, vanDeGeijnAllgathervOpProgress, exec_bind,
    h.ringProgress_eq hfits, hring, geijnRing]
  rw [List.append_nil] at hexec
  exact hexec

/-- The scatter, where the ring comes after it. -/
theorem geijnLeaf_opProgress (hfits : GeijnFits n vgroup args v) :
    GeijnLeaf n vgroup args batch v (geijnRing n vgroup args v 0)
      fun moved (res : VanDeGeijnOp B × Status) (cs : Sched (Cell B) β) =>
        (if res.2 ≠ .ok then pure ({ res.1 with status := res.2 }, res.2)
          else vanDeGeijnOpGather res.1.scattervDone :
            Prog (Cell B) β (VanDeGeijnOp B × Status)).Exec
          (GeijnEnd n vgroup args batch v) moved cs where
  start op hop := by
    rw [if_pos (by simp), exec_pure]
    exact geijnEnd_stop trivial
      (.start ⟨hop.toGeijnScatter.setStatus _, hop.send, hop.height, hop.children, hop.curr⟩)
  mid hbatch e op hop := by
    rw [if_pos (by simp), exec_pure]
    exact geijnEnd_stop trivial (.mid hbatch
      ⟨hop.toGeijnScatter.setStatus _, hop.send, hop.dvd, hop.child_lt, hop.child, hop.rest,
        hop.curr⟩)
  sent hbatch op hop := by
    rw [if_pos (by simp), exec_pure]
    exact geijnEnd_stop trivial (.sent hbatch ⟨hop.toGeijnScatter.setStatus _, hop.send⟩)
  done moved op hop := by
    rw [if_neg (by simp)]
    have hof : GeijnOf n vgroup args batch v op.scattervDone :=
      ⟨hop.vgroup_eq, hop.args_eq, hop.base_eq, hop.quotient_eq, hop.batch_eq⟩
    have hring : op.scattervDone.ring = ⟨RingIter.init n vgroup.myrank, true, true⟩ :=
      congrArg (RingOp.mk · true true) hop.ring_iter
    exact exec_geijnGather_fresh hof hfits rfl hop.allgatherv hring

/-- Every call after the first one executes the next part of the schedule. -/
theorem exec_geijnOpProgress (hfits : GeijnFits n vgroup args v) {cs : Sched (Cell B) β}
    (hrel : GeijnRel n vgroup args batch v op cs) :
    (vanDeGeijnOpProgress op).Exec (GeijnEnd n vgroup args batch v) false cs := by
  have hleaf : GeijnLeaf n vgroup args batch v (geijnRing n vgroup args v 0 : Sched (Cell B) β) _ :=
    geijnLeaf_opProgress hfits
  cases hrel with
  | start hop =>
    rw [vanDeGeijnOpProgress, if_pos hop.scatterv, exec_bind]
    exact exec_scattervOpProgress_none hop.toGeijnScatter (exec_geijnStart hleaf hfits hop)
  | @mid e _ hbatch hop =>
    rw [vanDeGeijnOpProgress, if_pos hop.scatterv, exec_bind]
    refine exec_scattervOpProgress_none hop.toGeijnScatter ?_
    rw [exec_p2pTestall]
    refine ⟨?_, Or.inl ?_⟩
    · rw [if_pos (by simp), exec_pure]
      exact hleaf.mid hbatch e op hop
    · have he : e < 2 ^ e := Nat.lt_two_pow_self
      have hlt := hop.child_lt
      obtain ⟨fuel, hfuel⟩ : ∃ f, n = f + 1 := ⟨n - 1, by omega⟩
      have hsize : op.vgroup.size = fuel + 1 := by rw [hop.vgroup_eq, hfits.size_eq, hfuel]
      have hbatch' : ¬op.batch = true := by simp [hop.batch_eq, hbatch]
      rw [if_neg (by simp), if_neg hbatch', vanDeGeijnSendOneByOne, if_pos hop.send, hsize]
      exact exec_loopOneByOne_mid hfits hleaf.done (hleaf.mid hbatch) (by omega) hop
  | sent hbatch hop =>
    subst hbatch
    rw [vanDeGeijnOpProgress, if_pos hop.scatterv, exec_bind]
    refine exec_scattervOpProgress_none hop.toGeijnScatter ?_
    rw [exec_p2pTestall]
    refine ⟨?_, Or.inl ?_⟩
    · rw [if_pos (by simp), exec_pure]
      exact hleaf.sent rfl op hop
    · rw [if_neg (by simp), hop.batch_eq, if_pos rfl, vanDeGeijnSendBatch,
        if_neg (by simp [hop.send]), exec_bind, exec_pure]
      dsimp only
      rw [if_neg (by simp), exec_bind]
      exact exec_batchTest hleaf hop
  | posted hk hop hscatterv hallgatherv hring =>
    rw [vanDeGeijnOpProgress, if_neg (by simp [hscatterv])]
    exact exec_geijnGather_posted hop hfits hscatterv hallgatherv hk hring
  | done hscatterv hallgatherv =>
    rw [vanDeGeijnOpProgress, if_neg (by simp [hscatterv]), vanDeGeijnOpGather,
      if_neg (by simp [hallgatherv]), exec_pure]
    exact ⟨rfl, .done hscatterv hallgatherv, Or.inr ⟨rfl, rfl⟩⟩

/-- The first call executes the beginning of the schedule. -/
theorem exec_geijnOpProgress_first (hfits : GeijnFits n vgroup args v)
    (h : GeijnOf n vgroup args batch v op) (hscatterv : op.scattervPhase = true)
    (hallgatherv : op.allgathervPhase = true)
    (hring : op.ring = ⟨RingIter.init n vgroup.myrank, true, true⟩)
    (hchildren : op.iter.Yields ((kntreeChildren n 2 v).map (toRank n args.root)))
    (hcurr : v = 0 → op.currCount = args.count) :
    (vanDeGeijnOpProgress op).Exec (GeijnEnd n vgroup args batch v) moved
      (ceilSched n vgroup args (rootWait v ++
        ((if v = 0 then [] else scatterRecv n (scatterKeep n args.count) v) ++
          geijnSends n args.count batch v)) ++ geijnRing n vgroup args v 0 :
            Sched (Cell B) β) := by
  have hleaf : GeijnLeaf n vgroup args batch v (geijnRing n vgroup args v 0 : Sched (Cell B) β) _ :=
    geijnLeaf_opProgress hfits
  have hcut := cut_ceilOffset args.count ((Nat.zero_le v).trans_lt hfits.lt)
  rw [vanDeGeijnOpProgress, if_pos hscatterv, exec_bind]
  by_cases hv : v = 0
  · have hend : min (v + 2 ^ kntreeHeight n 2 v) n = n := by
      rw [kntreeHeight, if_pos hv, hv, Nat.zero_add]
      exact min_eq_right (Nat.le_pow_clog (by decide) n)
    have hop : GeijnBefore n vgroup args batch v (kntreeHeight n 2 v) op := by
      refine ⟨⟨h, hscatterv, hallgatherv, by rw [hring], Or.inr hv⟩, by rw [hring], le_rfl,
        hchildren, ?_⟩
      rw [hcurr hv, hend, hcut.last, hv, hcut.zero, Nat.cast_zero, sub_zero]
    rw [rootWait, if_pos hv, if_pos hv, List.nil_append]
    exact exec_scattervOpProgress_none hop.toGeijnScatter (exec_geijnStart hleaf hfits hop)
  · rw [rootWait, if_neg hv, if_neg hv, List.nil_append, scatterRecv, List.append_assoc, ceilSched,
      expand_append, List.append_assoc, vanDeGeijnScattervOpProgress, exec_bind]
    refine exec_geijnRecv h hfits (Nat.pos_of_ne_zero hv) (by rw [hring]) fun moved => ?_
    dsimp only
    rw [if_neg (by simp), exec_bind]
    have hop : GeijnBefore n vgroup args batch v (kntreeHeight n 2 v) (op.clearRecv.setCurr
        (ceilOffset n args.count (scatterEnd n v) - ceilOffset n args.count v)) := by
      refine ⟨⟨⟨h.vgroup_eq, h.args_eq, h.base_eq, h.quotient_eq, h.batch_eq⟩, hscatterv,
        hallgatherv, ?_, Or.inl rfl⟩, ?_, le_rfl, hchildren, rfl⟩
      · exact congrArg RingOp.iter hring
      · exact congrArg RingOp.send hring
    exact exec_geijnStart hleaf hfits hop

/-- The iterator of a new operation is that of its rank. -/
theorem geijnNew_base (hsize : vgroup.size = n) (hn : 2 ≤ n) :
    (vanDeGeijnOpNew batch vgroup args).iter.toKntreeBase =
      KntreeIter.baseOf n 2 args.root (fromRoot n args.root vgroup.myrank) true := by
  have hdeg : KntreeIter.initDegree n 2 = 2 := by
    rw [KntreeIter.initDegree, if_neg (by decide), if_neg (by omega)]
  have hbase : (KntreeIter.init n 2 args.root vgroup.myrank true).toKntreeBase = _ :=
    KntreeIter.init_base args.root vgroup.myrank true (by rw [hdeg]; decide) (by omega)
  rw [hdeg] at hbase
  rw [vanDeGeijnOpNew, hsize]
  exact hbase

/-- The schedule of a rank on its buffer. -/
theorem expand_vanDeGeijnRounds
    (hfits : GeijnFits n vgroup args (fromRoot n args.root vgroup.myrank))
    (hmap : vgroup.rankMap = fun q => q) (hmyrank : vgroup.myrank < n) :
    Sched.expand (args.blockCells (ceilOffset n args.count)) (toRank n args.root)
      ((vanDeGeijnRounds n args.count batch).flatMap fun R =>
        R (fromRoot n args.root vgroup.myrank)) =
    (ceilSched n vgroup args (rootWait (fromRoot n args.root vgroup.myrank) ++
      ((if fromRoot n args.root vgroup.myrank = 0 then []
        else scatterRecv n (scatterKeep n args.count) (fromRoot n args.root vgroup.myrank)) ++
          geijnSends n args.count batch (fromRoot n args.root vgroup.myrank))) ++
        geijnRing n vgroup args (fromRoot n args.root vgroup.myrank) 0 : Sched (Cell B) β) := by
  have hring : Sched.expand (args.blockCells (ceilOffset n args.count)) (toRank n args.root)
      ((ringRounds n).flatMap fun R => R (fromRoot n args.root vgroup.myrank)) =
      (geijnRing n vgroup args (fromRoot n args.root vgroup.myrank) 0 : Sched (Cell B) β) := by
    rw [ringRounds, List.flatMap_map, expand_flatMap, geijnRing, ringFrom, List.range_eq_range']
    refine List.flatMap_congr fun k _ => ?_
    simp only [ringRound, expand_cons, expand_nil, Cmd.expand, List.flatMap_singleton,
      toRank_rightOf hfits.root_lt hmyrank, toRank_leftOf hfits.root_lt hmyrank, hmap]
    rfl
  have hmap' : (fun p => vgroup.rankMap (toRank n args.root p)) = toRank n args.root := by
    rw [hmap]
  rw [vanDeGeijnRounds, flatMap_scatterThen hfits.lt, ceilSched, hmap', geijnSends, ← hring]
  simp only [expand_append, List.append_assoc]

/-- The trigger and progress functions execute the schedule. -/
theorem vanDeGeijn_runs (hfits : GeijnFits n vgroup args (fromRoot n args.root vgroup.myrank))
    (hmap : vgroup.rankMap = fun q => q) (hn : 2 ≤ n) (hcheck : n ≤ args.count)
    (hmyrank : vgroup.myrank < n) (id : ℕ) :
    OpRuns vanDeGeijnFuncs VanDeGeijnOp.status id (vanDeGeijnOpNew batch vgroup args)
      (GeijnRel n vgroup args batch (fromRoot n args.root vgroup.myrank))
      (Sched.expand (args.blockCells (ceilOffset n args.count)) (toRank n args.root)
        ((vanDeGeijnRounds n args.count batch).flatMap fun R =>
          R (fromRoot n args.root vgroup.myrank)) : Sched (Cell B) β) where
  trigger := by
    have hbase : (vanDeGeijnOpNew batch vgroup args).iter.toKntreeBase = _ :=
      geijnNew_base hfits.size_eq hn
    have hof : GeijnOf n vgroup args batch (fromRoot n args.root vgroup.myrank)
        ((vanDeGeijnOpNew batch vgroup args).reset id) := by
      refine ⟨rfl, rfl, (KntreeIter.reset_base _).trans hbase, ?_, rfl⟩
      rw [VanDeGeijnOp.reset_quotient, show (vanDeGeijnOpNew batch vgroup args).vgroup.size = n
        from hfits.size_eq]
      exact vanDeGeijnQuotient_eq (by omega) hfits.count_lt hcheck
    have hring : ((vanDeGeijnOpNew batch vgroup args).reset id).ring =
        ⟨RingIter.init n vgroup.myrank, true, true⟩ := by
      rw [← hfits.size_eq]
      rfl
    rw [expand_vanDeGeijnRounds hfits hmap hmyrank]
    simp only [vanDeGeijnFuncs, vanDeGeijnOpTrigger, exec_bind, exec_pure]
    refine (exec_geijnOpProgress_first hfits hof rfl rfl hring
      (KntreeIter.reset_yields (by decide) hbase) fun hv => ?_).imp fun moved res cs hres => hres.2
    rw [fromRoot_eq_zero_iff hfits.root_lt hmyrank] at hv
    have hlt := hfits.count_lt
    exact (if_pos hv).trans (s32_eq (by omega) (by exact_mod_cast hlt))
  progress op cs hrel := exec_geijnOpProgress hfits hrel

end Operation

/-! ### Every run -/

section Runs

variable [DecidableEq B]

/-- The broadcasts of van de Geijn of all ranks of a group. -/
def vanDeGeijnProc (n : ℕ) (batch : Bool) (args : ℕ → BcastArgs B) (id r : ℕ) :
    Proc (Cell B) β (VanDeGeijnOp B) :=
  opProc vanDeGeijnFuncs VanDeGeijnOp.status (vanDeGeijnOpNew batch ⟨n, r, fun q => q⟩ (args r)) id

/-- The messages from number `v` to number `w`, as ranges of blocks: that of the scatter, if `v` is
    the parent of `w` and the blocks of the sub-tree of `w` are not all empty, and those of the
    ring. -/
noncomputable def geijnMessages (n count v w : ℕ) : List (List ℕ) :=
  (if 0 < w ∧ v = kntreeParent 2 w ∧ ceilOffset n count w < ceilOffset n count (scatterEnd n w)
    then [List.range' w (scatterEnd n w - w)] else []) ++
  if rightOf n v = w then (List.range (n - 1)).map fun k => [ringSendBlock n k v] else []

/-- What the broadcast is to do: its products fit, its blocks are a partition of the buffer, every
    run is a broadcast, and the messages between two ranks that have finished are those of the
    scatter and of the ring, on both sides. -/
structure VanDeGeijnMeets (n count root id : ℕ) (batch : Bool) (args : ℕ → BcastArgs B)
    (m : ℕ → Cell B → β) (x : ℕ → β) : Prop where
  fits : ∀ b < n, s32 (b * vanDeGeijnQuotient n count) = (b * ceilQuotient n count : ℕ)
  cut : Cut count n (ceilOffset n count)
  runs : ∀ acts N, (Net.init m).run n (vanDeGeijnProc n batch args id) acts = some N →
    BcastMeets n count root args m x (vanDeGeijnProc n batch args id) VanDeGeijnOp.status acts N
  messages : ∀ acts N, (Net.init m).run n (vanDeGeijnProc n batch args id) acts = some N →
    ∀ s < n, ∀ r < n, ∀ op op', N.FinishedIn s op → N.FinishedIn r op' →
      Sched.sendsTo r (Net.posts n (vanDeGeijnProc n batch args id) s (Net.init m) acts) =
        (geijnMessages n count (fromRoot n root s) (fromRoot n root r)).map
          (·.flatMap ((args s).blockCells (ceilOffset n count))) ∧
      Sched.recvsFrom s (Net.posts n (vanDeGeijnProc n batch args id) r (Net.init m) acts) =
        (geijnMessages n count (fromRoot n root s) (fromRoot n root r)).map
          (·.flatMap ((args r).blockCells (ceilOffset n count)))

omit [DecidableEq B] in
/-- The messages of the rounds. -/
theorem sendsTo_vanDeGeijnRounds {n count v w : ℕ} {batch : Bool} (hw : w < n) :
    Sched.sendsTo w ((vanDeGeijnRounds n count batch).flatMap fun R => (R v : Sched ℕ β)) =
      geijnMessages n count v w := by
  have hscatter : ((scatterRounds n (scatterKeep n count) (afterSend batch) (Nat.clog 2 n)).flatMap
      fun R => (R v : Sched ℕ β).sendsTo w) = _ := sendsTo_scatterRounds stops_afterSend hw _
  have hlt : 0 < w → multiplicity 2 w < Nat.clog 2 n := fun hpos => by
    have hle := Nat.le_of_dvd hpos (pow_multiplicity_dvd 2 w)
    exact (Nat.pow_lt_pow_iff_right (by decide)).mp
      ((hle.trans_lt hw).trans_le (Nat.le_pow_clog (by decide) n))
  have hring : ((ringRounds n).flatMap fun R => (R v : Sched ℕ β).sendsTo w) =
      if rightOf n v = w then (List.range (n - 1)).map fun k => [ringSendBlock n k v] else [] := by
    rw [ringRounds, List.flatMap_map]
    simp only [sendsTo_ringRound]
    split_ifs
    · exact List.map_eq_flatMap.symm
    · simp
  rw [sendsTo_flatMap, vanDeGeijnRounds, scatterThen, List.flatMap_cons, List.flatMap_append,
    List.flatMap_cons, hscatter, hring, (stops_rootWait v).sendsTo, (stops_afterSends v).sendsTo,
    List.nil_append, List.nil_append, geijnMessages]
  congr 1
  refine if_congr ⟨fun h => ⟨h.1.1, h.1.2.2, ?_⟩, fun h => ⟨⟨h.1, hlt h.1, h.2.1⟩, ?_⟩⟩ rfl rfl
  · exact of_decide_eq_true h.2
  · exact decide_eq_true h.2.2

/-- The broadcast is right if and only if the product of the last rank fits in an `int32_t`. -/
theorem vanDeGeijn_correct_iff (n count root id : ℕ) (batch : Bool) (args : ℕ → BcastArgs B)
    (m : ℕ → Cell B → β) (x : ℕ → β) (hn : 2 ≤ n) (hcount : count < 2 ^ 31)
    (hcall : BcastCall n count root args m x)
    (hcheck : ∀ r < n, vanDeGeijnCheck ⟨n, r, fun q => q⟩ (args r) = .ok) :
    VanDeGeijnMeets n count root id batch args m x ↔ (n - 1) * ceilQuotient n count < 2 ^ 31 := by
  have hle : n ≤ count := by
    by_contra hlt
    have h := hcheck 0 (by omega)
    rw [vanDeGeijnCheck, (hcall.same 0 (by omega)).1, if_pos (not_le.mp hlt)] at h
    cases h
  constructor
  · intro h
    have hlast := h.fits (n - 1) (by omega)
    have hlt : s32 ((n - 1 : ℕ) * vanDeGeijnQuotient n count) < 2 ^ 31 :=
      Int.bmod_lt (by norm_num)
    rw [hlast] at hlt
    exact_mod_cast hlt
  · intro hfits
    have hop (r) (hr : r < n) : OpRuns vanDeGeijnFuncs VanDeGeijnOp.status id
        (vanDeGeijnOpNew batch ⟨n, r, fun q => q⟩ (args r))
        (GeijnRel n ⟨n, r, fun q => q⟩ (args r) batch (fromRoot n (args r).root r))
        (Sched.expand ((args r).blockCells (ceilOffset n count)) (toRank n root)
          ((vanDeGeijnRounds n count batch).flatMap fun R => R (fromRoot n root r)) :
            Sched (Cell B) β) := by
      obtain ⟨rfl, rfl⟩ := hcall.same r hr
      have hroot := hcall.root_lt
      have hof : GeijnFits n ⟨n, r, fun q => q⟩ (args r) (fromRoot n (args r).root r) :=
        ⟨rfl, hroot, fromRoot_lt hroot, by omega, hcount, hfits⟩
      exact vanDeGeijn_runs hof rfl hn hle hr id
    have hspreads : BcastSpreads n n (ceilOffset n count) x (vanDeGeijnRounds n count batch) :=
      spreads_vanDeGeijnRounds (by omega) x
    have hcut : Cut count n (ceilOffset n count) := cut_ceilOffset _ (by omega)
    refine ⟨fun b hb => ?_, hcut, fun acts N hrun => hspreads.meets hcut hcall hop hrun,
      fun acts N hrun s hs r hr op op' hfin hfin' => ?_⟩
    · rw [vanDeGeijnQuotient_eq (by omega) hcount hle]
      exact Fits.s32_mul hfits hb
    · have hmsgs := hspreads.messages hcut hcall hop hrun hs hr hfin hfin'
      rw [sendsTo_vanDeGeijnRounds (fromRoot_lt hcall.root_lt)] at hmsgs
      exact hmsgs

end Runs

/-! `2 ^ 17 + 1` ranks and `2 ^ 31 - 1` elements, from rank 0: the product of the last rank is
    `2 ^ 31`. The rank `2 ^ 16` then asks for one element more than its parent sends. -/

theorem vanDeGeijn_overflow :
    let n := 2 ^ 17 + 1
    let count := 2 ^ 31 - 1
    ∃ (args : ℕ → BcastArgs (Fin 1)) (m : ℕ → Cell (Fin 1) → ℕ) (x : ℕ → ℕ),
      BcastCall n count 0 args m x ∧
        (∀ r < n, vanDeGeijnCheck ⟨n, r, fun q => q⟩ (args r) = .ok) ∧
        scattervSendCount (2 ^ 14) count (2 ^ 16) 0 = 2 ^ 30 - 1 ∧
        scattervRecvCount n count (2 ^ 14) 0 (2 ^ 16) = 2 ^ 30 ∧
        ¬VanDeGeijnMeets n count 0 0 true args m x := by
  intro n count
  refine ⟨fun _ => ⟨(0, 0), count, 0⟩, fun _ c => c.2, fun j =>
    j, ⟨by decide, fun _ _ => ⟨rfl, rfl⟩,
    fun j _ => by simp⟩, fun r _ => ?_, by decide, by decide, ?_⟩
  · exact if_neg (by decide : ¬2 ^ 31 - 1 < 2 ^ 17 + 1)
  · intro h
    have hlast := h.fits (2 ^ 17) (by decide)
    revert hlast
    decide

/-! Two ranks and two elements, from rank 0. -/

theorem vanDeGeijn_correct_pair :
    VanDeGeijnMeets 2 2 0 7 false pairArgs pairMem (fun j => j + 5) := by
  have hcheck (r) (_ : r < 2) : vanDeGeijnCheck ⟨2, r, fun q => q⟩ (pairArgs r) = .ok := rfl
  exact (vanDeGeijn_correct_iff 2 2 0 7 false pairArgs pairMem (fun j => j + 5) le_rfl (by decide)
    pairCall hcheck).mpr (by decide)

end Kucg.Ucx
